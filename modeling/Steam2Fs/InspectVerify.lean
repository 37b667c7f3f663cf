import Steam2Fs.Inspect
import Steam2Fs.TreeArchive

/-!
# What `inspect` says and `verify` finds

Over an archive every file with a record can be read, so a run of `verify`,
with any number of workers, finds nothing but the files without one. Those are
the ones `inspect` says have no record, in the same order, and the blocks that
were read are the ones it counts.
-/

namespace Steam2Fs
open Outcome Text

namespace Verify

/-! ### Files of a manifest -/

def filePairs (m : Manifest) : List (Node × ℕ) := m.nodes.zipIdx.filter fun x => !x.1.isDir

theorem fileNodes_eq (m : Manifest) : fileNodes m = (filePairs m).map fun x => UInt32.ofNat x.2 := by
  have hpairs (l : List (Node × ℕ)) :
      (l.filterMap fun p => if p.1.isDir then none else some (UInt32.ofNat p.2)) =
        (l.filter fun x => !x.1.isDir).map fun x => UInt32.ofNat x.2 := by
    induction l with
    | nil => rfl
    | cons p rest ih =>
      rw [List.filterMap_cons, List.filter_cons]
      cases p.1.isDir with
      | true => simpa using ih
      | false => simpa using ih
  exact hpairs _

theorem filePairs_fst (m : Manifest) :
    (filePairs m).map Prod.fst = m.nodes.filter fun n => !n.isDir := by
  have hmap := List.filter_map (f := (Prod.fst : Node × ℕ → Node)) (p := fun n => !n.isDir)
    (l := m.nodes.zipIdx)
  rw [List.zipIdx_map_fst] at hmap
  exact hmap.symm

theorem fileNodes_length (m : Manifest) :
    (fileNodes m).length = (m.nodes.filter fun n => !n.isDir).length := by
  rw [fileNodes_eq, List.length_map, ← filePairs_fst, List.length_map]

theorem fileId_of_mem {m : Manifest} (hm : m.nodes.length < 2 ^ 32) {x : Node × ℕ}
    (hx : x ∈ filePairs m) : fileId m (UInt32.ofNat x.2) = x.1.fileId := by
  have hget := List.mem_zipIdx_iff_getElem?.mp (List.mem_of_mem_filter hx)
  have hlt := (List.getElem?_eq_some_iff.mp hget).1
  have hindex : (UInt32.ofNat x.2).toNat = x.2 := UInt32.toNat_ofNat_of_lt' (hlt.trans hm)
  have hnode : m.node (UInt32.ofNat x.2) = some x.1 := by
    unfold Manifest.node
    rw [hindex, hget]
  unfold fileId
  rw [hnode]
  rfl

theorem fileNodes_sorted {m : Manifest} (hm : m.nodes.length < 2 ^ 32) :
    (fileNodes m).Pairwise fun a b => a ≤ b := by
  rw [fileNodes_eq, List.pairwise_map]
  have hindex : m.nodes.zipIdx.Pairwise fun x y => x.2 < y.2 ∧ y.2 < 2 ^ 32 := by
    rw [List.pairwise_iff_getElem]
    intro i j hi hj hij
    rw [List.length_zipIdx] at hj
    rw [List.getElem_zipIdx, List.getElem_zipIdx]
    exact ⟨by omega, by omega⟩
  refine (hindex.filter _).imp fun hxy => ?_
  obtain ⟨hlt, hcap⟩ := hxy
  rw [UInt32.le_iff_toNat_le, UInt32.toNat_ofNat_of_lt' (hlt.trans hcap),
    UInt32.toNat_ofNat_of_lt' hcap]
  exact hlt.le

/-! ### What is left when every block opens -/

section Readable
variable (t : FileTable) (m : Manifest)

def missingLine (node : UInt32) : Option (UInt32 × VerifyLine) :=
  (m.path m.nodes.length node).bind fun path =>
    if (t.get (fileId m node)).isSome then none else some (node, .noRecord path)

def blocksOf (node : UInt32) : ℕ :=
  (m.path m.nodes.length node).elim 0 fun _ =>
    (t.get (fileId m node)).elim 0 fun loc => loc.record.numBlocks

def stuckOf (node : UInt32) : ℕ := (m.path m.nodes.length node).elim 1 fun _ => 0

/-- Every block that the table lists opens. -/
def Readable (outcome : FileLoc → ℕ → Except ReadError Bytes) : Prop :=
  ∀ node ∈ fileNodes m, ∀ loc, t.get (fileId m node) = some loc →
    ∀ i < loc.record.numBlocks, ∃ bytes, outcome loc i = .ok bytes

variable {t m} {outcome : FileLoc → ℕ → Except ReadError Bytes}

theorem blocksShare_readable {node : UInt32} {path : Bytes} {loc : FileLoc} {bs : List ℕ}
    (h : ∀ b ∈ bs, ∃ bytes, outcome loc b = .ok bytes) :
    blocksShare outcome node path loc bs = (0, bs.length, 0) := by
  induction bs with
  | nil => rfl
  | cons b bs ih =>
    obtain ⟨bytes, hb⟩ := h b List.mem_cons_self
    rw [blocksShare, hb]
    dsimp only
    rw [ih fun c hc => h c (List.mem_cons_of_mem b hc), Prod.mk_add_mk, Prod.mk_add_mk,
      List.length_cons, Nat.add_comm, zero_add, zero_add]

theorem share_readable (h : Readable t m outcome) {node : UInt32} (hnode : node ∈ fileNodes m) :
    share outcome t m node =
      (((missingLine t m node).toList : Multiset _), blocksOf t m node, stuckOf m node) := by
  unfold share missingLine blocksOf stuckOf
  cases m.path m.nodes.length node with
  | none => rfl
  | some path =>
    cases hget : t.get (fileId m node) with
    | none => rfl
    | some loc =>
      dsimp only
      rw [blocksShare_readable fun b hb => h node hnode loc hget b (List.mem_range.mp hb)]
      rw [List.length_range]
      rfl

theorem total_readable (h : Readable t m outcome) :
    total outcome t m = (((fileNodes m).filterMap (missingLine t m) : Multiset _),
      ((fileNodes m).map (blocksOf t m)).sum, ((fileNodes m).map (stuckOf m)).sum) := by
  have hsum : ∀ nodes : List UInt32, (∀ node ∈ nodes, node ∈ fileNodes m) →
      (nodes.map (share outcome t m)).sum = ((nodes.filterMap (missingLine t m) : Multiset _),
        (nodes.map (blocksOf t m)).sum, (nodes.map (stuckOf m)).sum) := by
    intro nodes hnodes
    induction nodes with
    | nil => rfl
    | cons node rest ih =>
      have hlines : (((missingLine t m node).toList : Multiset (UInt32 × VerifyLine)) +
          (rest.filterMap (missingLine t m) : Multiset _)) =
            ((node :: rest).filterMap (missingLine t m) : Multiset _) := by
        rw [List.filterMap_cons]
        cases missingLine t m node with
        | none => rfl
        | some line => rfl
      rw [List.map_cons, List.sum_cons, share_readable h (hnodes node List.mem_cons_self),
        ih fun n hn => hnodes n (List.mem_cons_of_mem node hn), Prod.mk_add_mk, Prod.mk_add_mk,
        hlines]
      simp only [List.map_cons, List.sum_cons]
  exact hsum _ fun _ hnode => hnode

theorem summary_readable (hm : m.nodes.length < 2 ^ 32) (h : Readable t m outcome) {v : Verify}
    (hv : delivered v = total outcome t m) :
    (summary m v).lines = (fileNodes m).filterMap (missingLine t m) ∧
      (summary m v).blocks = ((fileNodes m).map (blocksOf t m)).sum ∧
      ∀ node ∈ fileNodes m, stuckOf m node = 0 := by
  let w : Verify := ⟨v.store, v.next, ((fileNodes m).map (blocksOf t m)).sum,
    (fileNodes m).filterMap (missingLine t m)⟩
  have htotal := total_readable h
  have hstuck : ((fileNodes m).map (stuckOf m)).sum = 0 := by
    have hzero := congrArg (fun x : Share => x.2.2) (hv.trans htotal)
    exact hzero.symm
  have hw : delivered w = total outcome t m := by
    rw [htotal, hstuck]
    rfl
  have hnode {node : UInt32} {line : UInt32 × VerifyLine} (hline : missingLine t m node = some line) :
      line.1 = node := by
    unfold missingLine at hline
    obtain ⟨path, -, hline⟩ := Option.bind_eq_some_iff.mp hline
    split_ifs at hline
    cases hline
    rfl
  have hsorted : ((fileNodes m).filterMap (missingLine t m)).Pairwise fun a b =>
      decide (a.1 ≤ b.1) = true := by
    rw [List.pairwise_filterMap]
    refine (fileNodes_sorted hm).imp fun hle a ha b hb => ?_
    rw [hnode ha, hnode hb]
    exact decide_eq_true hle
  rw [summary_eq hm hv hw]
  refine ⟨List.mergeSort_of_pairwise hsorted, rfl, fun node hmem => ?_⟩
  exact List.sum_eq_zero_iff.mp hstuck _ (List.mem_map_of_mem hmem)

end Readable

end Verify
/-! ### The listing of files -/

namespace FileRow

/-- The line `verify` leaves for a file that is listed like this and opens. -/
def line (r : FileRow) : Option VerifyLine :=
  if r.found.isSome then none else some (.noRecord r.path)

def blocks (r : FileRow) : ℕ := r.found.elim 0 FoundFile.blocks

end FileRow

section Rows
variable {d : Dump} {t : FileTable} {m : Manifest}

theorem forall₂_right {α β : Type} {R : α → β → Prop} {l : List α} {l' : List β}
    (h : List.Forall₂ R l l') {b : β} (hb : b ∈ l') : ∃ a, R a b := by
  obtain ⟨i, hi, rfl⟩ := List.getElem_of_mem hb
  exact ⟨_, h.get (h.length_eq ▸ hi) hi⟩

structure RowOf (d : Dump) (t : FileTable) (m : Manifest) (x : Node × ℕ) (r : FileRow) : Prop where
  path : m.path m.nodes.length (UInt32.ofNat x.2) = some r.path
  fileId : r.fileId = x.1.fileId
  found : r.found = none ∧ t.get x.1.fileId = none ∨ ∃ loc source,
    t.get x.1.fileId = some loc ∧ d.index.blobs[loc.source]? = some source ∧
    r.found = some ⟨loc.record.mode, loc.record.size, loc.record.numBlocks, source.version,
      loc.dat.isSome⟩

theorem fileRow_eq_ok {n : Node} {i : ℕ} {r : FileRow} (h : d.fileRow t m n i = .ok r) :
    RowOf d t m (n, i) r := by
  unfold Dump.fileRow at h
  cases hpath : m.path m.nodes.length (UInt32.ofNat i) with
  | none =>
    rw [hpath] at h
    cases h
  | some path =>
    rw [hpath] at h
    cases hget : t.get n.fileId with
    | none =>
      rw [hget] at h
      cases h
      exact ⟨hpath, rfl, .inl ⟨rfl, hget⟩⟩
    | some loc =>
      rw [hget] at h
      obtain ⟨source, hsource, h⟩ := bind_eq_ok.mp h
      cases h
      exact ⟨hpath, rfl, .inr ⟨loc, source, hget, Dump.blob_eq_ok.mp hsource, rfl⟩⟩

theorem fileRows_eq_ok {l : List (Node × ℕ)} {rows : List FileRow}
    (h : d.fileRows t m l = .ok rows) :
    List.Forall₂ (RowOf d t m) (l.filter fun x => !x.1.isDir) rows := by
  induction l generalizing rows with
  | nil =>
    cases h
    exact .nil
  | cons x rest ih =>
    rw [Dump.fileRows] at h
    rw [List.filter_cons]
    split_ifs at h with hdir
    · rw [hdir]
      exact ih h
    · obtain ⟨row, hrow, h⟩ := bind_eq_ok.mp h
      obtain ⟨others, hothers, h⟩ := bind_eq_ok.mp h
      cases h
      rw [eq_false_of_ne_true hdir]
      exact .cons (fileRow_eq_ok hrow) (ih hothers)

theorem figures_eq_ok {chain : List ChainRow} {r : VersionReport}
    (h : d.figures t m chain true = .ok r) :
    ∃ rows, r.rows = some rows ∧ List.Forall₂ (RowOf d t m) (Verify.filePairs m) rows ∧
      r.files = (m.nodes.filter fun n => !n.isDir).length ∧
      r.located = ((m.nodes.filter fun n => !n.isDir).filter fun n =>
        t.contains n.fileId).length ∧
      r.readable = ((m.nodes.filter fun n => !n.isDir).filter fun n =>
        (t.get n.fileId).any fun l => l.dat.isSome).length := by
  obtain ⟨listed, hlisted, h⟩ := bind_eq_ok.mp h
  obtain ⟨rows, hrows, rfl⟩ := map_eq_ok.mp hlisted
  cases h
  exact ⟨rows, rfl, fileRows_eq_ok hrows, rfl, rfl, rfl⟩

end Rows

/-! ### Over an archive -/

namespace Dump

open Classical in
noncomputable def placedBlock (d : Dump) (A : Archive d.codec) (loc : FileLoc) (i : ℕ) :
    Except ReadError Bytes :=
  if hp : Nonempty (d.Place A loc) then .ok (piece (Classical.choice hp).content i)
  else .error (loc.noSuchBlock i)

section Archive
variable {d : Dump} {cacheDir : ℕ → Option Bytes} {A : Archive d.codec} {t : FileTable}
  {m : Manifest} {id : ℕ}

theorem place_of_get (h : d.Packed cacheDir A) (hid : id < d.index.blobs.length)
    (ht : ∀ fileId, t.get fileId = (d.fileAt cacheDir A id fileId).map fun y => A.loc y.1 y.2)
    {fileId : UInt32} {loc : FileLoc} (hloc : t.get fileId = some loc) :
    Nonempty (d.Place A loc) := by
  rw [ht] at hloc
  obtain ⟨y, hy, rfl⟩ := Option.map_eq_some_iff.mp hloc
  obtain ⟨hb, hx⟩ := h.fileAt_mem hid hy
  exact ⟨⟨y.1, hb, y.2, hx, rfl⟩⟩

theorem readable_of_packed (h : d.Packed cacheDir A) (hid : id < d.index.blobs.length)
    (ht : ∀ fileId, t.get fileId = (d.fileAt cacheDir A id fileId).map fun y => A.loc y.1 y.2) :
    Verify.Readable t m (d.placedBlock A) := by
  intro node _ loc hloc i _
  refine ⟨piece (Classical.choice (place_of_get h hid ht hloc)).content i, ?_⟩
  exact dif_pos _

theorem fixed_of_packed (h : d.Packed cacheDir A) (hid : id < d.index.blobs.length)
    (ht : ∀ fileId, t.get fileId = (d.fileAt cacheDir A id fileId).map fun y => A.loc y.1 y.2) :
    Verify.Fixed (d.placedBlock A) t m d.block
      (d.BlockInv cacheDir (d.KeptKey A) (d.KeptBlock A)) := by
  intro node _ loc hloc i hi
  have hplace := place_of_get h hid ht hloc
  have hblock : d.placedBlock A loc i = .ok (piece (Classical.choice hplace).content i) :=
    dif_pos hplace
  generalize Classical.choice hplace = y at hblock
  obtain ⟨b, hb, x, hx, rfl⟩ := y
  rw [hblock]
  have hanswers := h.block_answers hb hx i
  have hcount : (A.loc b x).record.numBlocks = pieceCount x.2.content :=
    Packer.record_numBlocks _ _ _ _
  rw [blockAt, if_pos (hcount ▸ hi)] at hanswers
  exact hanswers

theorem chainRows_safe {parsed : ℕ → StoreCall ParsedBlob} {I : Store → Prop}
    (hparsed : ∀ b, (parsed b).Safe I) (depot : UInt32) (chain : List ℕ) :
    (d.chainRowsWith parsed depot chain : StoreCall (List ChainRow)).Safe I := by
  induction chain with
  | nil => exact Call.safe_pure _
  | cons b rest ih =>
    refine (Call.safe_lift _).bind fun e => ?_
    refine (hparsed b).bind fun p => ?_
    refine (Call.safe_lift _).bind fun dat => ?_
    exact ih.bind fun rows => Call.safe_pure _

theorem inspectVersion_keeps (h : d.Packed cacheDir A) (hbounded : d.Bounded cacheDir)
    (hid : id < d.index.blobs.length) {p : ParsedBlob} (hp : d.loaded cacheDir id = .ok p)
    (depot : UInt32) (files : Bool) :
    ∃ t, (∀ fileId, t.get fileId = (d.fileAt cacheDir A id fileId).map fun y => A.loc y.1 y.2) ∧
      (d.table id).Answers (d.TableInv cacheDir) (.ok t) ∧
      (d.inspectVersion depot id files).Keeps (d.TableInv cacheDir) fun a =>
        ∀ r, a = .ok r → ∃ chain, d.figures t p.manifest chain files = .ok r := by
  obtain ⟨t, hget, hans⟩ := h.table_answers hbounded hid
  refine ⟨t, hget, hans, ?_⟩
  have hparsed : (d.parsed id).Answers (d.TableInv cacheDir) (.ok p) :=
    hp ▸ parsed_answers_tables id
  refine Call.Keeps.bind (chain_answers h.allParse hbounded hid) (fun chain _ => ?_)
    (fun _ he => by cases he) fun hpanic => by cases hpanic
  refine Call.Keeps.bind (chainRows_safe (fun b => (parsed_answers_tables b).safe) depot chain)
    (fun rows _ => ?_) (fun _ _ _ hr => by cases hr) fun _ _ hr => by cases hr
  refine Call.Keeps.bind hans (fun t' ht' => ?_) (fun _ he => by cases he)
    fun hpanic => by cases hpanic
  cases ht'
  refine Call.Keeps.bind hparsed (fun p' hp' => ?_) (fun _ he => by cases he)
    fun hpanic => by cases hpanic
  cases hp'
  exact Call.keeps_lift fun r hr => ⟨rows, hr⟩

end Archive

end Dump

structure Predicts (r : VersionReport) (rows : List FileRow) (s : Verify.Summary) : Prop where
  files : s.files = r.files
  failed : s.failed + r.located = r.files
  readable : r.readable = r.located
  lines : s.lines.map Prod.snd = rows.filterMap FileRow.line
  blocks : s.blocks = (rows.map FileRow.blocks).sum

section Rows
variable {d : Dump} {t : FileTable} {m : Manifest}

theorem RowOf.missing {x : Node × ℕ} {r : FileRow} (h : RowOf d t m x r)
    (hid : Verify.fileId m (UInt32.ofNat x.2) = x.1.fileId) :
    (Verify.missingLine t m (UInt32.ofNat x.2)).map Prod.snd = r.line := by
  unfold Verify.missingLine FileRow.line
  rw [h.path, Option.bind_some, hid]
  rcases h.found with ⟨hr, hget⟩ | ⟨loc, source, hget, -, hr⟩
  · rw [hr, hget]
    rfl
  · rw [hr, hget]
    rfl

theorem RowOf.blocks {x : Node × ℕ} {r : FileRow} (h : RowOf d t m x r)
    (hid : Verify.fileId m (UInt32.ofNat x.2) = x.1.fileId) :
    Verify.blocksOf t m (UInt32.ofNat x.2) = r.blocks := by
  unfold Verify.blocksOf FileRow.blocks
  rw [h.path, Option.elim_some, hid]
  rcases h.found with ⟨hr, hget⟩ | ⟨loc, source, hget, -, hr⟩
  · rw [hr, hget]
    rfl
  · rw [hr, hget]
    rfl

theorem RowOf.located {x : Node × ℕ} {r : FileRow} (h : RowOf d t m x r) :
    t.contains x.1.fileId = r.found.isSome := by
  unfold FileTable.contains
  rcases h.found with ⟨hr, hget⟩ | ⟨loc, source, hget, -, hr⟩
  · rw [hr, hget]
    rfl
  · rw [hr, hget]
    rfl

theorem RowOf.found_iff {cacheDir : ℕ → Option Bytes} {A : Archive d.codec} {id : ℕ}
    {x : Node × ℕ} {r : FileRow} (h : RowOf d t m x r)
    (hget : ∀ fileId, t.get fileId = (d.fileAt cacheDir A id fileId).map fun y => A.loc y.1 y.2)
    (f : FoundFile) :
    r.found = some f ↔ ∃ y entry, d.fileAt cacheDir A id r.fileId = some y ∧
      d.index.blobs[y.1]? = some entry ∧ f = ⟨y.2.2.mode, UInt64.ofNat y.2.2.content.length,
        pieceCount y.2.2.content, entry.version, true⟩ := by
  have hloc := hget x.1.fileId
  rw [h.fileId]
  rcases h.found with ⟨hr, hnone⟩ | ⟨loc, source, hsome, hsource, hr⟩
  · rw [hnone] at hloc
    rw [hr, Option.map_eq_none_iff.mp hloc.symm]
    simp
  · rw [hsome] at hloc
    obtain ⟨y, hy, rfl⟩ := Option.map_eq_some_iff.mp hloc.symm
    have hcount : (A.loc y.1 y.2).record.numBlocks = pieceCount y.2.2.content :=
      Packer.record_numBlocks _ _ _ _
    rw [hr, hcount, hy]
    constructor
    · intro hf
      exact ⟨y, source, rfl, hsource, (Option.some.inj hf).symm⟩
    · rintro ⟨y', entry, hy', hentry, rfl⟩
      cases hy'
      have hsame : source = entry := Option.some.inj (hsource.symm.trans hentry)
      rw [hsame]
      rfl

theorem rows_promise (hm : m.nodes.length < 2 ^ 32) {rows : List FileRow}
    (h : List.Forall₂ (RowOf d t m) (Verify.filePairs m) rows) :
    ((Verify.fileNodes m).filterMap (Verify.missingLine t m)).map Prod.snd =
      rows.filterMap FileRow.line ∧
    ((Verify.fileNodes m).map (Verify.blocksOf t m)).sum = (rows.map FileRow.blocks).sum ∧
    ((m.nodes.filter fun n => !n.isDir).filter fun n => t.contains n.fileId).length +
      (rows.filterMap FileRow.line).length = (Verify.fileNodes m).length := by
  have hall : ∀ {l : List (Node × ℕ)} {rows : List FileRow},
      (∀ x ∈ l, x ∈ Verify.filePairs m) → List.Forall₂ (RowOf d t m) l rows →
      ((l.map fun x => UInt32.ofNat x.2).filterMap (Verify.missingLine t m)).map Prod.snd =
        rows.filterMap FileRow.line ∧
      ((l.map fun x => UInt32.ofNat x.2).map (Verify.blocksOf t m)).sum =
        (rows.map FileRow.blocks).sum ∧
      (l.filter fun x => t.contains x.1.fileId).length + (rows.filterMap FileRow.line).length =
        l.length := by
    intro l rows hl hrel
    induction hrel with
    | nil => exact ⟨rfl, rfl, rfl⟩
    | @cons x r l rows hrow _ ih =>
      have hid := Verify.fileId_of_mem hm (hl x List.mem_cons_self)
      obtain ⟨hlines, hblocks, hcount⟩ := ih fun y hy => hl y (List.mem_cons_of_mem x hy)
      have hline := hrow.missing hid
      refine ⟨?_, ?_, ?_⟩
      · rw [List.map_cons, List.filterMap_cons, List.filterMap_cons, ← hline, ← hlines]
        cases Verify.missingLine t m (UInt32.ofNat x.2) with
        | none => rfl
        | some line => rfl
      · rw [List.map_cons, List.map_cons, List.sum_cons, hblocks, hrow.blocks hid, List.map_cons,
          List.sum_cons]
      · rw [List.filter_cons, hrow.located, List.filterMap_cons, List.length_cons, ← hcount]
        cases hfound : r.found with
        | none =>
          have hsome : r.line = some (.noRecord r.path) := by
            rw [FileRow.line, hfound]
            rfl
          rw [hsome]
          simp only [Option.isSome_none, Bool.false_eq_true, ↓reduceIte, List.length_cons]
          omega
        | some f =>
          have hnone : r.line = none := by
            rw [FileRow.line, hfound]
            rfl
          rw [hnone]
          simp only [Option.isSome_some, ↓reduceIte, List.length_cons]
          omega
  obtain ⟨hlines, hblocks, hcount⟩ := hall (fun _ hx => hx) h
  have hfiltered : ((m.nodes.filter fun n => !n.isDir).filter fun n =>
      t.contains n.fileId).length =
        ((Verify.filePairs m).filter fun x => t.contains x.1.fileId).length := by
    have hfst : (Verify.filePairs m).map Prod.fst = m.nodes.filter fun n => !n.isDir :=
      Verify.filePairs_fst m
    rw [← hfst, List.filter_map, List.length_map]
    rfl
  rw [Verify.fileNodes_eq]
  exact ⟨hlines, hblocks, by rw [hfiltered, hcount, List.length_map]⟩

end Rows

section Archive
variable {d : Dump} {cacheDir : ℕ → Option Bytes} {A : Archive d.codec}

theorem inspect_keeps {t : FileTable} {m : Manifest} {depot : UInt32} {version : Str} {id : ℕ}
    (hid : d.resolveVersion depot version = .ok id) {files : Bool}
    (h : (d.inspectVersion depot id files).Keeps (d.TableInv cacheDir) fun a =>
      ∀ r, a = .ok r → ∃ chain, d.figures t m chain files = .ok r) :
    (d.inspect depot (some version) files).Keeps (d.TableInv cacheDir) fun a =>
      ∀ report, a = .ok report →
        ∃ r chain, report.body = .inr r ∧ d.figures t m chain files = .ok r := by
  have hversion : (Call.mapErr InspectError.read (d.inspectVersion depot id files)).Keeps
      (d.TableInv cacheDir) fun a =>
        ∀ r, a = .ok r → ∃ chain, d.figures t m chain files = .ok r :=
    Call.Keeps.mapErr h fun a ha r hr => ha r (mapErr_eq_ok.mp hr)
  unfold Dump.inspect
  refine Call.Keeps.bind (Call.safe_lift _) (fun dep _ => ?_) (fun _ _ _ hr => by cases hr)
    fun _ _ hr => by cases hr
  refine Call.Keeps.bind (Call.answers_lift (d.resolveVersion depot version))
    (fun id' hid' => ?_) (fun _ _ _ hr => by cases hr) fun _ _ hr => by cases hr
  rw [hid] at hid'
  cases hid'
  refine hversion.bind (fun r hr => ?_) (fun _ _ _ hr => by cases hr) fun _ _ hr => by cases hr
  refine Call.keeps_lift fun report hreport => ?_
  cases hreport
  obtain ⟨chain, hchain⟩ := hr r rfl
  exact ⟨r, chain, rfl, hchain⟩

/-- In every run of `verify`, with any number of workers: what `inspect` said of
the version comes true, file by file, and the archive says the same. -/
theorem inspect_predicts_verify (h : d.Packed cacheDir A) (hbounded : d.Bounded cacheDir)
    {depot : UInt32} {version : Str} {id : ℕ} (hid : d.resolveVersion depot version = .ok id)
    {report : InspectReport}
    (hreport : ((d.inspect depot (some version) true).run (Store.new d cacheDir)).1 = .ok report)
    {jobs : ℕ} {t : FileTable} {m : Manifest} {v : Verify}
    (hv : Verify.Ends d cacheDir id jobs t m v) :
    ∃ r rows, report.body = .inr r ∧ r.rows = some rows ∧ Predicts r rows (Verify.summary m v) ∧
      ∀ row ∈ rows, ∀ f, row.found = some f ↔ ∃ y entry,
        d.fileAt cacheDir A id row.fileId = some y ∧ d.index.blobs[y.1]? = some entry ∧
        f = ⟨y.2.2.mode, UInt64.ofNat y.2.2.content.length, pieceCount y.2.2.content,
          entry.version, true⟩ := by
  have hinv : ∀ s p s', (d.table id).run (Store.new d cacheDir) = (.ok t, s) →
      (d.parsed id).run s = (.ok p, s') → d.loaded cacheDir id = .ok p ∧
        d.BlockInv cacheDir (d.KeptKey A) (d.KeptBlock A) s' := by
    intro s p s' htable hparsed
    have hnew : d.BlockInv cacheDir (d.KeptKey A) (d.KeptBlock A) (Store.new d cacheDir) :=
      .new fun _ _ _ hr => by cases hr
    have hinv₁ := (Call.Keeps.run (Dump.BlockInv.tableLocal.table_safe id) hnew).2
    rw [htable] at hinv₁
    have hrun := Call.Keeps.run (Dump.parsed_answers_blocks id) hinv₁
    rw [hparsed] at hrun
    exact ⟨hrun.1.symm, hrun.2⟩
  have hends := hv
  obtain ⟨s₁, p, s₂, htable, hparsed, hmanifest, -⟩ := hends
  have hp := (hinv s₁ p s₂ htable hparsed).1
  have hrange := Tree.inRange_of_loaded (t := ⟨d⟩) hp
  obtain ⟨t', hget, hans, hkeeps⟩ := Dump.inspectVersion_keeps h hbounded hrange hp depot true
  have hsame := (hans.run .new).symm.trans (congrArg Prod.fst htable)
  cases hsame
  cases hmanifest
  obtain ⟨r, chain, hbody, hfigures⟩ :=
    (Call.Keeps.run (inspect_keeps hid hkeeps) .new).1 report hreport
  obtain ⟨rows, hrows, hrel, hfiles, hlocated, hreadable⟩ := figures_eq_ok hfigures
  have hcount : p.manifest.nodes.length < 2 ^ 32 :=
    (Tree.manifestOf_searchable (t := ⟨d⟩) (Tree.manifestOf_eq_ok.mpr ⟨p, hp, rfl⟩)).count
  have hdelivered := Verify.delivered_of_ends (Dump.fixed_of_packed h hrange hget) hv
    fun s p s' ht hs => (hinv s p s' ht hs).2
  obtain ⟨hlines, hblocks, -⟩ := Verify.summary_readable hcount
    (Dump.readable_of_packed h hrange hget) hdelivered
  obtain ⟨hsame, hsum, hall⟩ := rows_promise hcount hrel
  have hdat : (p.manifest.nodes.filter fun n => !n.isDir).filter (fun n =>
      (t.get n.fileId).any fun l => l.dat.isSome) =
        (p.manifest.nodes.filter fun n => !n.isDir).filter fun n => t.contains n.fileId := by
    refine List.filter_congr fun n _ => ?_
    unfold FileTable.contains
    rw [hget]
    cases d.fileAt cacheDir A id n.fileId with
    | none => rfl
    | some y => rfl
  refine ⟨r, rows, hbody, hrows, ⟨?_, ?_, ?_, ?_, ?_⟩, fun row hrow f => ?_⟩
  · rw [hfiles, ← Verify.fileNodes_length]
    rfl
  · have hfailed : (Verify.summary p.manifest v).failed = (rows.filterMap FileRow.line).length := by
      rw [Verify.Summary.failed, hlines, ← hsame, List.length_map]
    rw [hfailed, hlocated, hfiles, ← Verify.fileNodes_length]
    omega
  · rw [hreadable, hlocated, hdat]
  · rw [hlines, hsame]
  · rw [hblocks, hsum]
  · obtain ⟨x, hx⟩ := forall₂_right hrel hrow
    exact hx.found_iff hget f

end Archive

section Sample

set_option maxRecDepth 20000 in
theorem packedVersions_inspected :
    ∃ report t m v r rows, Verify.Ends packedVersions.dump (fun _ => none) 1 1 t m v ∧
      ((packedVersions.dump.inspect 5 (some "2".toList) true).run
        (Store.new packedVersions.dump fun _ => none)).1 = .ok report ∧
      report.body = .inr r ∧ r.rows = some rows ∧ Predicts r rows (Verify.summary m v) := by
  have hreport : (fun report => report.body.getRight?.map fun r => (r.files, r.located)) <$>
      ((packedVersions.dump.inspect 5 (some "2".toList) true).run
        (Store.new packedVersions.dump fun _ => none)).1 = .ok (some (2, 2)) := by
    decide +kernel
  have halone : (Verify.alone packedVersions.dump (fun _ => none) 1).isSome = true := by
    decide +kernel
  have hid : packedVersions.dump.resolveVersion 5 "2".toList = .ok 1 := by decide +kernel
  obtain ⟨⟨t, m, v⟩, halone⟩ := Option.isSome_iff_exists.mp halone
  obtain ⟨report, hok, -⟩ := map_eq_ok.mp hreport
  have hends := Verify.ends_alone halone
  obtain ⟨r, rows, hbody, hrows, hpredicts, -⟩ := inspect_predicts_verify packedVersions_holds
    packedVersions_bounded hid hok hends
  exact ⟨report, t, m, v, r, rows, hends, hok, hbody, hrows, hpredicts⟩

end Sample
end Steam2Fs
