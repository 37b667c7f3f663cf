import Steam2Fs.ArchiveRuns
import Steam2Fs.FuseData

/-!
# The tree over an archive

What the calls of the tree answer when the dump holds an archive. A node that
is a file leads to a file of the archive, or to none where no version up the
chain has one; its metadata, its location, its bytes and its attributes are
what the archive says, whatever the store remembers.
-/

namespace Steam2Fs.Tree
open Outcome Text

section Meaning
variable (t : Tree) (cacheDir : ℕ → Option Bytes) (A : Archive t.store.codec)

def locatedOf (b : ℕ) (fileId : UInt32) : Outcome ReadError FileLoc :=
  ofOption (.missingRecord fileId)
    ((t.store.fileAt cacheDir A b fileId).map fun y => A.loc y.1 y.2)

/-- The file a key leads to: its blob, and its place there. -/
def placeOf : Key → Outcome TreeError (ℕ × ℕ × SourceFile)
  | .node b idx => do
    let m ← t.manifestOf cacheDir b
    let n ← ofOption .notFound (m.node idx)
    if n.isDir then .err .notFound
    else ofOption (.read (.missingRecord n.fileId)) (t.store.fileAt cacheDir A b n.fileId)
  | _ => .err .notFound

def nodeMetaAt (b : ℕ) (m : Manifest) (idx : UInt32) : Outcome TreeError Meta := do
  let n := (m.node idx).getD defaultNode
  if n.isDir then
    let mtime ← t.blobDate b
    .ok ⟨.dir, 0, mtime⟩
  else
    match ← (t.locatedOf cacheDir A b n.fileId).attempt with
    | .ok loc =>
      let mtime ← t.blobDate loc.source
      .ok ⟨.file, loc.record.size, mtime⟩
    | .error _ =>
      let mtime ← t.blobDate b
      .ok ⟨.file, n.countOrSize.toUInt64, mtime⟩

/-- The metadata of a key, from what the archive holds. -/
def metaAt : Key → Outcome TreeError Meta
  | .root => .ok (dirMeta UNIX_EPOCH)
  | .depot d => match t.store.index.latest d with
    | none => .ok (dirMeta UNIX_EPOCH)
    | some b => dirMeta <$> t.blobDate b
  | .byDate _ => .ok (dirMeta UNIX_EPOCH)
  | .latest d => match t.store.index.latest d with
    | none => .err .notFound
    | some target => t.linkMeta (.latest d) target
  | .dateLink b => t.linkMeta (.dateLink b) b
  | .version b => dirMeta <$> t.blobDate b
  | .node b idx => do
    let m ← t.manifestOf cacheDir b
    t.nodeMetaAt cacheDir A b m idx

def xattrsOf : Key → Outcome TreeError (List Attr) :=
  t.xattrsWith (fun b => (t.store.loaded cacheDir b).attempt)
    fun b fileId => (t.locatedOf cacheDir A b fileId).attempt

end Meaning

section Serves
variable {t : Tree} {cacheDir : ℕ → Option Bytes} {A : Archive t.store.codec}

theorem serves_of_loads {ε α : Type} {x : Call Store ε α} {Q : Outcome ε α → Prop}
    (hx : x.Keeps (t.store.Loads cacheDir) Q) (hw : x.Within Dump.LoadFrame) :
    x.Keeps (t.store.ServeInv cacheDir A) Q :=
  (Proc.Keeps.and (Proc.Keeps.frame hx hw fun _ _ => Dump.TablesOk.frame)
    (Proc.Keeps.frame hx hw fun _ _ => Dump.Caches.frame)).mono fun _ h => h.1

theorem parsed_serves (b : ℕ) :
    (t.store.parsed b).Answers (t.store.ServeInv cacheDir A) (t.store.loaded cacheDir b) :=
  serves_of_loads Dump.parsed_answers Dump.parsed_within

theorem manifest_within (b : ℕ) : (t.manifest b).Within Dump.LoadFrame :=
  (Call.Within.mapErr Dump.parsed_within).bind fun _ => Call.within_pure _

theorem manifest_serves (b : ℕ) :
    (t.manifest b).Answers (t.store.ServeInv cacheDir A) (t.manifestOf cacheDir b) :=
  serves_of_loads (manifest_answers b) (manifest_within b)

theorem entries_serves (key : Key) :
    (t.entries key).Answers (t.store.ServeInv cacheDir A) (t.entriesOf cacheDir key) := by
  refine serves_of_loads (entries_answers key) ?_
  cases key with
  | root => exact Call.within_pure _
  | depot d => exact Call.within_pure _
  | byDate d => exact Call.within_pure _
  | latest d => exact Call.within_lift _
  | dateLink b => exact Call.within_lift _
  | version b => exact (manifest_within b).bind fun _ => Call.within_lift _
  | node b idx => exact (manifest_within b).bind fun _ => Call.within_lift _

theorem lookup_serves (dir : Key) (name : Bytes) :
    (t.lookup dir name).Answers (t.store.ServeInv cacheDir A) (t.lookupOf cacheDir dir name) := by
  refine serves_of_loads (lookup_answers dir name) ?_
  cases dir with
  | root => exact Call.within_pure _
  | depot d => exact Call.within_pure _
  | byDate d => exact Call.within_pure _
  | latest d => exact Call.within_pure _
  | dateLink b => exact Call.within_pure _
  | version b => exact (manifest_within b).bind fun _ => Call.within_lift _
  | node b idx => exact (manifest_within b).bind fun _ => Call.within_lift _

theorem parent_serves (key : Key) :
    (t.parent key).Answers (t.store.ServeInv cacheDir A) (Fuse.parentOf t cacheDir key) := by
  refine serves_of_loads (Fuse.parent_answers t key) ?_
  cases key with
  | root => exact Call.within_pure _
  | depot d => exact Call.within_pure _
  | byDate d => exact Call.within_pure _
  | latest d => exact Call.within_pure _
  | dateLink b => exact Call.within_pure _
  | version b => exact (Call.within_lift _).bind fun _ => Call.within_pure _
  | node b idx =>
    refine (Call.Within.attempt (manifest_within b)).bind fun r => ?_
    cases r with
    | ok m => exact Call.within_pure _
    | error e => exact Call.within_pure _

theorem inRange_of_loaded {b : ℕ} {p : ParsedBlob} (hp : t.store.loaded cacheDir b = .ok p) :
    b < t.store.index.blobs.length := by
  obtain ⟨entry, hentry, -⟩ := bind_eq_ok.mp (mapErr_eq_ok.mp hp)
  exact (List.getElem?_eq_some_iff.mp (Dump.blob_eq_ok.mp hentry)).1

theorem inRange_of_manifest {b : ℕ} {m : Manifest} (hm : t.manifestOf cacheDir b = .ok m) :
    b < t.store.index.blobs.length := by
  obtain ⟨p, hp, -⟩ := manifestOf_eq_ok.mp hm
  exact inRange_of_loaded hp

theorem blobDate_ok {b : ℕ} (hb : b < t.store.index.blobs.length) :
    ∃ date, t.blobDate b = .ok date := by
  have hblob : (t.store.blob b : Outcome TreeError BlobEntry) = .ok t.store.index.blobs[b] :=
    Dump.blob_eq_ok.mpr (List.getElem?_eq_getElem hb)
  refine ⟨t.store.index.blobs[b].date.getD UNIX_EPOCH, ?_⟩
  unfold blobDate
  rw [hblob, ok_bind]

section Located
variable (h : t.store.Packed cacheDir A) {b : ℕ} (hb : b < t.store.index.blobs.length)
  {x : ℕ × SourceFile} (hx : x ∈ A.placed b) (offset len : UInt64)
include h hb hx

theorem read_serves (hsum : offset.toNat + len.toNat < 2 ^ 64) :
    (t.read (A.loc b x) offset len).Answers (t.store.ServeInv cacheDir A)
      (.ok (slice x.2.content offset.toNat (offset.toNat + len.toNat))) :=
  Call.Answers.mapErr ((Proc.Keeps.and (Dump.TableInv.blockLocal.read_safe _ _ _)
    (h.read_answers hb hx hsum)).mono fun _ ha => ha.2)

theorem read_serves_safe :
    (t.read (A.loc b x) offset len).Safe (t.store.ServeInv cacheDir A) :=
  Call.Safe.mapErr ((Proc.Keeps.and (Dump.TableInv.blockLocal.read_safe _ _ _)
    (h.read_safe hb hx offset len)).mono fun _ ha => ha.2)

end Located

variable (h : t.store.Packed cacheDir A) (hbounded : t.store.Bounded cacheDir)
include h

theorem mem_of_place {key : Key} {y : ℕ × ℕ × SourceFile}
    (hy : t.placeOf cacheDir A key = .ok y) :
    y.1 < t.store.index.blobs.length ∧ y.2 ∈ A.placed y.1 := by
  cases key with
  | node b idx =>
    obtain ⟨m, hm, hy⟩ := bind_eq_ok.mp hy
    obtain ⟨n, -, hy⟩ := bind_eq_ok.mp hy
    split_ifs at hy
    exact h.fileAt_mem (inRange_of_manifest hm) (ofOption_eq_ok.mp hy)
  | root => cases hy
  | depot d => cases hy
  | byDate d => cases hy
  | latest d => cases hy
  | dateLink b => cases hy
  | version b => cases hy

include hbounded

theorem locate_serves {b : ℕ} (hb : b < t.store.index.blobs.length) (fileId : UInt32) :
    (t.store.locate b fileId).Answers (t.store.ServeInv cacheDir A)
      (t.locatedOf cacheDir A b fileId) :=
  (Proc.Keeps.and (h.locate_answers hbounded hb fileId)
    (Dump.BlockInv.tableLocal.locate_safe b fileId)).mono fun _ h => h.1

theorem locate_place (key : Key) :
    (t.locate key).Answers (t.store.ServeInv cacheDir A)
      ((fun y : ℕ × ℕ × SourceFile => A.loc y.1 y.2) <$> t.placeOf cacheDir A key) := by
  cases key with
  | node b idx =>
    -- the file id is looked up before the place is known, so the two end alike
    have hplace : (fun y : ℕ × ℕ × SourceFile => A.loc y.1 y.2) <$>
        t.placeOf cacheDir A (.node b idx) =
        t.manifestOf cacheDir b >>= fun m => ofOption .notFound (m.node idx) >>= fun n =>
          if n.isDir then .err .notFound
          else (t.locatedOf cacheDir A b n.fileId).mapErr TreeError.read := by
      unfold placeOf
      dsimp only
      cases t.manifestOf cacheDir b with
      | err e => rfl
      | panic => rfl
      | ok m =>
        rw [ok_bind, ok_bind]
        cases m.node idx with
        | none => rfl
        | some n =>
          rw [ofOption, ok_bind, ok_bind]
          split_ifs
          · rfl
          · unfold locatedOf
            cases t.store.fileAt cacheDir A b n.fileId with
            | none => rfl
            | some y => rfl
    rw [hplace]
    refine (manifest_serves b).bind fun m hm => ?_
    have hb := inRange_of_manifest hm
    refine (Call.answers_lift _).bind fun n _ => ?_
    split_ifs
    · exact Call.answers_lift _
    · exact (locate_serves h hbounded hb n.fileId).mapErr
  | root => exact Call.answers_lift _
  | depot d => exact Call.answers_lift _
  | byDate d => exact Call.answers_lift _
  | latest d => exact Call.answers_lift _
  | dateLink b => exact Call.answers_lift _
  | version b => exact Call.answers_lift _

theorem metaOf_answers (key : Key) :
    (t.metaOf key).Answers (t.store.ServeInv cacheDir A) (t.metaAt cacheDir A key) := by
  cases key with
  | node b idx =>
    refine (manifest_serves b).bind fun m hm => ?_
    have hb := inRange_of_manifest hm
    unfold nodeMeta nodeMetaAt
    dsimp only
    split_ifs
    · exact (Call.answers_lift _).bind fun _ _ => Call.answers_pure _
    · refine (Call.Answers.attempt (locate_serves h hbounded hb _)).bind fun r _ => ?_
      cases r with
      | ok loc => exact (Call.answers_lift _).bind fun _ _ => Call.answers_pure _
      | error e => exact (Call.answers_lift _).bind fun _ _ => Call.answers_pure _
  | root => exact Call.answers_pure _
  | depot d => exact Call.answers_lift _
  | byDate d => exact Call.answers_pure _
  | latest d => exact Call.answers_lift _
  | dateLink b => exact Call.answers_lift _
  | version b => exact Call.answers_lift _

omit hbounded in
theorem metaAt_place {key : Key} {y : ℕ × ℕ × SourceFile}
    (hy : t.placeOf cacheDir A key = .ok y) :
    ∃ date, t.metaAt cacheDir A key =
      .ok ⟨.file, UInt64.ofNat y.2.2.content.length, date⟩ := by
  obtain ⟨hsource, -⟩ := mem_of_place h hy
  obtain ⟨date, hdate⟩ := blobDate_ok hsource
  refine ⟨date, ?_⟩
  cases key with
  | node b idx =>
    obtain ⟨m, hm, hy⟩ := bind_eq_ok.mp hy
    obtain ⟨n, hn, hy⟩ := bind_eq_ok.mp hy
    have hn := ofOption_eq_ok.mp hn
    split_ifs at hy with hdir
    have hat := ofOption_eq_ok.mp hy
    have hlocated : t.locatedOf cacheDir A b n.fileId = .ok (A.loc y.1 y.2) := by
      unfold locatedOf
      rw [hat]
      rfl
    have hdate' : t.blobDate (A.loc y.1 y.2).source = .ok date := hdate
    rw [metaAt, hm, ok_bind]
    unfold nodeMetaAt
    simp only [hn, Option.getD_some, hdir, Bool.false_eq_true, ↓reduceIte, hlocated]
    change (t.blobDate (A.loc y.1 y.2).source >>= fun mtime =>
      .ok (⟨.file, (A.loc y.1 y.2).record.size, mtime⟩ : Meta)) = _
    rw [hdate', ok_bind]
    rfl
  | root => cases hy
  | depot d => cases hy
  | byDate d => cases hy
  | latest d => cases hy
  | dateLink b => cases hy
  | version b => cases hy

theorem treeSafe_serves : Fuse.TreeSafe t (t.store.ServeInv cacheDir A) where
  metaOf := fun key => (metaOf_answers h hbounded key).safe
  entries := fun key => (entries_serves key).safe
  parent := fun key => (parent_serves key).safe
  lookup := fun dir name => (lookup_serves dir name).safe

/-! ### Attributes -/

omit h hbounded in
theorem versionAttrs_serves (b : ℕ) :
    (t.versionAttrs (fun b => (t.store.parsed b).attempt) b : TreeCall (List Attr)).Answers
      (t.store.ServeInv cacheDir A)
      (t.versionAttrs (fun b => (t.store.loaded cacheDir b).attempt) b) := by
  refine (Call.answers_lift _).bind fun e _ => ?_
  refine (Call.Answers.attempt (parsed_serves b)).bind fun r _ => ?_
  cases r with
  | ok p => exact Call.answers_pure _
  | error _ => exact Call.answers_pure _

theorem fileAttrs_serves {b : ℕ} (hb : b < t.store.index.blobs.length) (n : Node) :
    (t.fileAttrs (fun b fileId => (t.store.locate b fileId).attempt) b n :
      TreeCall (List Attr)).Answers (t.store.ServeInv cacheDir A)
      (t.fileAttrs (fun b fileId => (t.locatedOf cacheDir A b fileId).attempt) b n) := by
  unfold fileAttrs
  split_ifs
  · exact Call.answers_pure _
  · refine (Call.Answers.attempt (locate_serves h hbounded hb n.fileId)).bind fun r _ => ?_
    cases r with
    | ok loc => exact (Call.answers_lift _).bind fun _ _ => Call.answers_pure _
    | error _ => exact Call.answers_pure _

theorem xattrs_serves (key : Key) :
    (t.xattrs key).Answers (t.store.ServeInv cacheDir A) (t.xattrsOf cacheDir A key) := by
  cases key with
  | depot d => exact Call.answers_pure _
  | version b => exact versionAttrs_serves b
  | node b idx =>
    refine (versionAttrs_serves b).bind fun version _ => ?_
    refine (Call.Answers.attempt (parsed_serves b)).bind fun r hr => ?_
    cases r with
    | error _ => exact Call.answers_pure _
    | ok p =>
      have hb : b < t.store.index.blobs.length := inRange_of_loaded (attempt_eq_ok.mp hr)
      dsimp only
      cases p.manifest.node idx with
      | none => exact Call.answers_pure _
      | some n => exact (fileAttrs_serves h hbounded hb n).bind fun _ _ => Call.answers_pure _
  | root => exact Call.answers_pure _
  | byDate d => exact Call.answers_pure _
  | latest d => exact Call.answers_pure _
  | dateLink b => exact Call.answers_pure _

end Serves

/-! ### Names of attributes -/

def blobNames : List Str :=
  ["user.steam2.depot".toList, "user.steam2.version".toList, "user.steam2.blob".toList] ++
    ["user.steam2.date".toList]

def parsedNames : List Str :=
  ["user.steam2.app_id".toList, "user.steam2.dat_crc".toList] ++ ["user.steam2.parent".toList]

def nodeNames : List Str := ["user.steam2.flags".toList, "user.steam2.flags_decoded".toList]

def locNames : List Str :=
  ["user.steam2.mode".toList, "user.steam2.source_version".toList, "user.steam2.blocks".toList] ++
    ["user.steam2.dat".toList, "user.steam2.dat_offset".toList] ++
    ["user.steam2.dat_incomplete".toList]

/-- Every name an attribute can have, in the order they are listed in. -/
def attrNames : List Str :=
  blobNames ++ parsedNames ++ nodeNames ++ ("user.steam2.file_id".toList :: locNames)

theorem attrNames_nodup : attrNames.Nodup := by decide +kernel

def PlainName (name : Str) : Prop :=
  "user.steam2.".toList.isPrefixOf name = true ∧ ∀ c ∈ name, c.toNat < 0x80 ∧ c.toNat ≠ 0

instance (name : Str) : Decidable (PlainName name) :=
  -- Over the characters of the name: `Char` has an instance that tries all characters instead.
  @instDecidableAnd _ _ inferInstance (List.decidableBAll _ _)

theorem attrNames_plain : ∀ name ∈ attrNames, PlainName name := by decide +kernel

section Names
variable {t : Tree}

theorem option_names {α : Type} {o : Option α} {g : α → Attr} {name : Str}
    (hg : ∀ a, (g a).1 = name) : ((o.map g).toList.map Prod.fst).Sublist [name] := by
  cases o with
  | none => exact List.nil_sublist _
  | some a =>
    rw [Option.map_some, Option.toList_some, List.map_singleton, hg]

theorem blobAttrs_names (e : BlobEntry) : ((blobAttrs e).map Prod.fst).Sublist blobNames := by
  rw [blobAttrs, List.map_append]
  exact List.Sublist.append (List.Sublist.refl _) (option_names fun _ => rfl)

theorem parsedAttrs_names (p : ParsedBlob) :
    ((parsedAttrs p).map Prod.fst).Sublist parsedNames := by
  rw [parsedAttrs, List.map_append]
  exact List.Sublist.append (List.Sublist.refl _) (option_names fun _ => rfl)

theorem locAttrs_names {loc : FileLoc} {attrs : List Attr} (h : t.locAttrs loc = .ok attrs) :
    (attrs.map Prod.fst).Sublist locNames := by
  obtain ⟨source, -, h⟩ := bind_eq_ok.mp h
  cases hdat : loc.dat with
  | none =>
    rw [hdat] at h
    cases h
    rw [List.map_append, locNames, List.append_assoc]
    refine List.Sublist.append (List.Sublist.refl _) ?_
    exact List.Sublist.trans (List.sublist_append_left _ ["user.steam2.dat_offset".toList])
      (List.sublist_append_left _ _)
  | some dat =>
    rw [hdat] at h
    obtain ⟨de, -, h⟩ := bind_eq_ok.mp h
    cases h
    rw [List.map_append, List.map_append]
    refine List.Sublist.append (List.Sublist.refl _) ?_
    split_ifs
    · exact List.Sublist.refl _
    · exact List.nil_sublist _

variable {parsed : ℕ → Outcome TreeError (Except ReadError ParsedBlob)}
  {locate : ℕ → UInt32 → Outcome TreeError (Except ReadError FileLoc)} {attrs : List Attr}

theorem versionAttrs_names {b : ℕ} (h : t.versionAttrs parsed b = .ok attrs) :
    (attrs.map Prod.fst).Sublist (blobNames ++ parsedNames) := by
  obtain ⟨e, -, h⟩ := bind_eq_ok.mp h
  obtain ⟨r, -, h⟩ := bind_eq_ok.mp h
  cases r with
  | ok p =>
    cases h
    rw [List.map_append]
    exact List.Sublist.append (blobAttrs_names e) (parsedAttrs_names p)
  | error _ =>
    cases h
    exact (blobAttrs_names e).trans (List.sublist_append_left _ _)

theorem fileAttrs_names {b : ℕ} {n : Node} (h : t.fileAttrs locate b n = .ok attrs) :
    (attrs.map Prod.fst).Sublist ("user.steam2.file_id".toList :: locNames) := by
  unfold fileAttrs at h
  split_ifs at h
  · cases h
    exact List.nil_sublist _
  · obtain ⟨r, -, h⟩ := bind_eq_ok.mp h
    cases r with
    | ok loc =>
      obtain ⟨found, hfound, h⟩ := bind_eq_ok.mp h
      cases h
      exact List.Sublist.cons_cons _ (locAttrs_names hfound)
    | error _ =>
      cases h
      exact List.Sublist.cons_cons _ (List.nil_sublist _)

theorem xattrsWith_names {key : Key} (h : t.xattrsWith parsed locate key = .ok attrs) :
    (attrs.map Prod.fst).Sublist attrNames := by
  have hversion : ∀ b attrs, t.versionAttrs parsed b = .ok attrs →
      (attrs.map Prod.fst).Sublist attrNames := fun b attrs hattrs =>
    (versionAttrs_names hattrs).trans
      ((List.sublist_append_left _ nodeNames).trans (List.sublist_append_left _ _))
  cases key with
  | depot d =>
    cases h
    exact List.Sublist.cons_cons _ (List.nil_sublist _)
  | version b => exact hversion b attrs h
  | node b idx =>
    obtain ⟨version, hv, h⟩ := bind_eq_ok.mp h
    obtain ⟨r, -, h⟩ := bind_eq_ok.mp h
    cases r with
    | error _ =>
      cases h
      exact hversion b _ hv
    | ok p =>
      dsimp only at h
      cases hn : p.manifest.node idx with
      | none =>
        rw [hn] at h
        cases h
        exact hversion b _ hv
      | some n =>
        rw [hn] at h
        obtain ⟨file, hfile, h⟩ := bind_eq_ok.mp h
        cases h
        rw [List.map_append, List.map_append]
        exact List.Sublist.append (List.Sublist.append (versionAttrs_names hv)
          (List.Sublist.refl _)) (fileAttrs_names hfile)
  | root =>
    cases h
    exact List.nil_sublist _
  | byDate d =>
    cases h
    exact List.nil_sublist _
  | latest d =>
    cases h
    exact List.nil_sublist _
  | dateLink b =>
    cases h
    exact List.nil_sublist _

end Names

end Steam2Fs.Tree
