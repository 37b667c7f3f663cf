import Steam2Fs.Archive
import Steam2Fs.AuditFindings

/-!
# Serving an archive

A dump holds an archive when each of its blobs lists the files of one version,
packed into the dat of that version under the key configured for the blob. What
the archive means is a function of the archive and of the parent links: a file
of a version is the last one with its id in the nearest version that has one,
and its bytes are the bytes it was packed from. Whatever is called in whatever
order, the store serves that.
-/

namespace Steam2Fs
open Layout Outcome

/-- The files and the key of each blob, and the dat they are packed into. -/
structure Archive (codec : Codec) where
  packer : Packer codec
  files : ℕ → List SourceFile
  key : ℕ → Key
  dat : ℕ → ℕ

namespace Archive
variable {codec : Codec} (A : Archive codec)

def placed (b : ℕ) : List (ℕ × SourceFile) := A.packer.placed (A.key b) 0 (A.files b)

def loc (b : ℕ) (x : ℕ × SourceFile) : FileLoc :=
  let r := A.packer.record (A.key b) x.1 x.2
  ⟨b, some (A.dat b), r, blockOffsets r.offset r.blocks⟩

def own (fileId : UInt32) (b : ℕ) : Option (ℕ × ℕ × SourceFile) :=
  ((A.placed b).reverse.find? fun x => x.2.fileId = fileId).map fun x => (b, x)

end Archive

namespace Dump
variable (d : Dump) (cacheDir : ℕ → Option Bytes) (A : Archive d.codec)

def Configured (source : ℕ) : Prop :=
  ∀ entry, d.index.blobs[source]? = some entry →
    d.keys.getForBlob entry.depot entry.crc = some (A.key source)

structure Packed : Prop where
  blobs : ∀ id entry, d.index.blobs[id]? = some entry → ∃ p, d.loaded cacheDir id = .ok p ∧
    p.records = A.packer.records (A.key id) (A.files id) ∧
    d.index.findDat entry.depot entry.version p.info.datCrc = some (A.dat id)
  dats : ∀ id < d.index.blobs.length, ∃ content, d.Stores (A.dat id) content ∧
    Stands content 0 (A.packer.dat (A.key id) (A.files id))
  /-- Blobs that share a dat describe the same files. -/
  shared : ∀ id < d.index.blobs.length, ∀ id' < d.index.blobs.length, A.dat id = A.dat id' →
    A.key id = A.key id' ∧ A.files id = A.files id'
  keys : ∀ id, (∃ f ∈ A.files id, f.mode.isEncrypted = true) → d.Configured A id
  fits : ∀ id < d.index.blobs.length, ∀ f ∈ A.files id, A.packer.Fits (A.key id) f

def fileAt (v : ℕ) (fileId : UInt32) : Option (ℕ × ℕ × SourceFile) :=
  (d.lineage cacheDir v).findSome? (A.own fileId)

def KeptKey (source : ℕ) (o : Option KeyResolution) : Prop :=
  d.Configured A source → ∀ r ∈ o, r = .configured (A.key source)

def KeptBlock (key : ℕ × UInt64) (v : Bytes) : Prop :=
  ∀ b < d.index.blobs.length, ∀ x ∈ A.placed b, ∀ i < pieceCount x.2.content,
    A.dat b = key.1 → A.packer.start (A.key b) x.1 x.2 i = key.2.toNat →
      v = piece x.2.content i

def blockAt (loc : FileLoc) (content : Bytes) (i : ℕ) : Outcome ReadError Bytes :=
  if i < pieceCount content then .ok (piece content i) else .err (loc.noSuchBlock i)

def probeAt (loc : FileLoc) (content : Bytes) (k : Key) : Outcome ReadError KeyResolution :=
  if 0 < pieceCount content then .ok (.configured k)
  else .err (.noBlocksToProbe loc.record.fileId)

variable {d cacheDir A}

/-! ### Blocks -/

section Blocks
variable (h : d.Packed cacheDir A) {b : ℕ} (hb : b < d.index.blobs.length) {x : ℕ × SourceFile}
  (hx : x ∈ A.placed b) {i : ℕ} (hi : i < pieceCount x.2.content)
include h hb hx

theorem Packed.fits_placed : A.packer.Fits (A.key b) x.2 :=
  h.fits b hb _ (Packer.placed_source hx)

include hi

theorem Packed.start_lt : A.packer.start (A.key b) x.1 x.2 (i + 1) < 2 ^ 64 := by
  obtain ⟨content, ⟨entry, -, hsize, -⟩, hstands⟩ := h.dats b hb
  have hfile := Packer.stands_placed hstands hx
  have hpos : 0 < (A.packer.stored (A.key b) x.2).flatten.length := by
    have hle := Packer.start_le A.packer (A.key b) x.1 x.2 (i + 1)
    have hgrow := Packer.start_lt_succ (w := A.packer) (k := A.key b) x.1 hi
    have hbegin : x.1 ≤ A.packer.start (A.key b) x.1 x.2 i := Nat.le_add_right _ _
    omega
  have hend := hfile.end_le hpos
  have hle := Packer.start_le A.packer (A.key b) x.1 x.2 (i + 1)
  have hcap := entry.size.toNat_lt
  omega

theorem Packed.slot : ∃ y, (A.loc b x).slot i = some y ∧ y.dat = A.dat b ∧
    y.block = A.packer.block x.2.mode (A.key b) (piece x.2.content i) ∧
    y.start.toNat = A.packer.start (A.key b) x.1 x.2 i ∧
    y.stop.toNat = A.packer.start (A.key b) x.1 x.2 (i + 1) := by
  have hfits := h.fits_placed hb hx
  have hlt := h.start_lt hb hx hi
  have hgrow := Packer.start_lt_succ (w := A.packer) (k := A.key b) x.1 hi
  have hbegin : x.1 ≤ A.packer.start (A.key b) x.1 x.2 i := Nat.le_add_right _ _
  have hcount : pieceCount x.2.content =
      (A.packer.record (A.key b) x.1 x.2).blocks.length :=
    (Packer.record_numBlocks A.packer (A.key b) x.1 x.2).symm
  have hoffset : (A.packer.record (A.key b) x.1 x.2).offset.toNat = x.1 :=
    UInt64.toNat_ofNat_of_lt' (by unfold UInt64.size; omega)
  have hpos {j : ℕ} (hj : j ≤ pieceCount x.2.content) :
      (A.loc b x).offsets[j]? = some (UInt64.ofNat (A.packer.start (A.key b) x.1 x.2 j)) := by
    change (blockOffsets _ _)[j]? = _
    rw [blockOffsets_getElem? _ (hcount ▸ hj), hoffset, hfits.storedSize_take]
    rfl
  refine ⟨⟨A.dat b, _, _, _⟩, FileLoc.slot_eq_some.mpr ⟨rfl, Packer.record_block x.1 hi, ?_⟩,
    rfl, rfl, UInt64.toNat_ofNat_of_lt' (by unfold UInt64.size; omega),
    UInt64.toNat_ofNat_of_lt' (by unfold UInt64.size; omega)⟩
  rw [FileLoc.blockSpan, hpos hi.le, hpos hi]
  rfl

theorem Packed.storedBlock {y : Slot} (hy : (A.loc b x).slot i = some y) :
    d.storedBlock (A.loc b x) i y =
      .ok (A.packer.store x.2.mode (A.key b) (piece x.2.content i)) := by
  obtain ⟨y', hy', hdat, -, hstart, hstop⟩ := h.slot hb hx hi
  rw [hy] at hy'
  cases hy'
  obtain ⟨content, hstores, hstands⟩ := h.dats b hb
  have hpiece := Packer.stands_store (Packer.stands_placed hstands hx) hi
  have hsucc := Packer.start_succ (w := A.packer) (k := A.key b) x.1 hi
  have hpos : 0 < (A.packer.store x.2.mode (A.key b) (piece x.2.content i)).length :=
    Packer.store_length_pos (piece_length_pos hi)
  have hsmall := (h.fits_placed hb hx).stored_lt i hi
  have hle : y.start ≤ y.stop := UInt64.le_iff_toNat_le.mpr (by omega)
  rw [storedBlock_eq_ok, hdat]
  refine ⟨?_, ?_⟩
  · rw [datBytesWith_exact (windowBytes_windowed hstores) hle (by unfold isizeMax; omega), hstart,
      hstop, hsucc, slice_of_stands hpiece hpos]
  · rw [UInt64.toNat_sub_of_le _ _ hle]
    omega

theorem Packed.ownResolution (hconf : d.Configured A b) {y : Slot}
    (hy : (A.loc b x).slot i = some y) :
    d.ownResolution (A.loc b x) i y = .ok (.configured (A.key b)) := by
  obtain ⟨y', hy', -, hblock, -⟩ := h.slot hb hx hi
  rw [hy] at hy'
  cases hy'
  have hentry := List.getElem?_eq_getElem hb
  unfold Dump.ownResolution sampleOf
  rw [h.storedBlock hb hx hi hy, ok_bind, ok_bind]
  change (d.blob b >>= _) = _
  rw [blob_eq_ok.mpr hentry, ok_bind, resolution, hconf _ hentry]
  dsimp only
  rw [if_pos]
  -- the key is tried on the piece whether or not the mode asks for one
  have hdecode : Chunk.decode d.codec x.2.mode
      (A.packer.store x.2.mode (A.key b) (piece x.2.content i)) (some (A.key b)) =
      .ok (piece x.2.content i) := by
    have hkeyed : Chunk.decode d.codec x.2.mode
        (A.packer.store x.2.mode (A.key b) (piece x.2.content i)) (x.2.mode.keyFor (A.key b)) =
        .ok (piece x.2.content i) :=
      Packer.decode_store (piece_length_le x.2.content i) ((h.fits_placed hb hx).stored_lt i hi)
    cases hmode : x.2.mode <;> rw [hmode] at hkeyed <;> exact hkeyed
  have hchecksum : Chunk.checksum (piece x.2.content i) = y.block.checksum := by
    rw [hblock]
    rfl
  exact isOk_iff.mpr ⟨_, (Chunk.decodeVerified_eq_ok d.codec).mpr ⟨hdecode, hchecksum⟩⟩

theorem Packed.blockUsing {y : Slot} (hy : (A.loc b x).slot i = some y) {r : KeyResolution}
    (hr : x.2.mode.isEncrypted = true → r = .configured (A.key b)) :
    d.blockUsing r (A.loc b x) i y = .ok (piece x.2.content i) := by
  obtain ⟨y', hy', -, hblock, -⟩ := h.slot hb hx hi
  rw [hy] at hy'
  cases hy'
  have hfits := h.fits_placed hb hx
  refine blockUsing_eq_ok.mpr ⟨_, _, x.2.mode.keyFor (A.key b), h.storedBlock hb hx hi hy,
    List.getElem?_eq_getElem hb, ?_, decodeBlock_eq_ok.mpr ⟨?_, fun _ => ?_, ?_⟩⟩
  · unfold keyUsing Mode.keyFor
    change (if x.2.mode.isEncrypted then _ else _) = _
    split_ifs with henc
    · rw [hr henc]
      rfl
    · rfl
  · exact Packer.decode_store (piece_length_le x.2.content i) (hfits.stored_lt i hi)
  · rw [hblock]
    rfl
  · exact (hfits.blockLen x.1 hi).symm

end Blocks

theorem slot_none {b : ℕ} {x : ℕ × SourceFile} {i : ℕ} (hi : pieceCount x.2.content ≤ i) :
    (A.loc b x).slot i = none := by
  cases hy : (A.loc b x).slot i with
  | none => rfl
  | some y =>
    have hblock := (FileLoc.slot_eq_some.mp hy).2.1
    have hlt := (List.getElem?_eq_some_iff.mp hblock).1
    have hcount := Packer.record_numBlocks A.packer (A.key b) x.1 x.2
    exact absurd (hlt.trans_le hcount.le) (by omega)

section Calls
variable (h : d.Packed cacheDir A) {b : ℕ} (hb : b < d.index.blobs.length) {x : ℕ × SourceFile}
  (hx : x ∈ A.placed b)
include h hb hx

theorem Packed.keptBlock {i : ℕ} (hi : i < pieceCount x.2.content) {y : Slot}
    (hy : (A.loc b x).slot i = some y) : d.KeptBlock A y.key (piece x.2.content i) := by
  obtain ⟨y', hy', hdat, -, hstart, -⟩ := h.slot hb hx hi
  rw [hy] at hy'
  cases hy'
  intro b' hb' x' hx' i' hi' hdat' hstart'
  obtain ⟨hkey, hfiles⟩ := h.shared b' hb' b hb (hdat'.trans hdat)
  unfold Archive.placed at hx'
  rw [hkey, hfiles] at hx'
  rw [hkey] at hstart'
  obtain ⟨rfl, rfl⟩ := Packer.start_injective hx' hx hi' hi (hstart'.trans hstart)
  rfl

theorem Packed.block_answers (i : ℕ) :
    (d.block (A.loc b x) i).Answers (d.BlockInv cacheDir (d.KeptKey A) (d.KeptBlock A))
      (blockAt (A.loc b x) x.2.content i) := by
  unfold blockAt
  split_ifs with hi
  · obtain ⟨y, hy, hdat, -, hstart, -⟩ := h.slot hb hx hi
    have hadmitted {r : KeyResolution} (hr : d.Admits (d.KeptKey A) (A.loc b x) i y r)
        (henc : x.2.mode.isEncrypted = true) : r = .configured (A.key b) := by
      have hconf := h.keys b ⟨x.2, Packer.placed_source hx, henc⟩
      have hown := h.ownResolution hb hx hi hconf hy
      exact hr henc (by rw [hown]; rfl) hconf r rfl
    refine (block_keeps hy (fun henc r hr _ hconf => ?_) fun _ r v hr hv => ?_).mono fun a ha => ?_
    · rw [h.ownResolution hb hx hi hconf hy] at hr
      cases hr
      exact fun r hr => by cases hr; rfl
    · rw [h.blockUsing hb hx hi hy (hadmitted hr)] at hv
      cases hv
      exact h.keptBlock hb hx hi hy
    · rcases ha with ⟨v, hv, rfl⟩ | ⟨r, hr, rfl⟩
      · rw [hv b hb x hx i hi hdat.symm hstart.symm]
      · exact h.blockUsing hb hx hi hy (hadmitted hr)
  · have hnone : (A.loc b x).slot i = none := slot_none (Nat.not_lt.mp hi)
    have hof : d.blockOf cacheDir (.none 0) (A.loc b x) i =
        .err ((A.loc b x).noSuchBlock i) := by
      rw [blockOf, hnone]
      rfl
    rw [← hof]
    exact block_answers_of_slot_none hnone (.none 0)

theorem Packed.read_answers {offset len : UInt64} (hsum : offset.toNat + len.toNat < 2 ^ 64) :
    (d.read (A.loc b x) offset len).Answers
      (d.BlockInv cacheDir (d.KeptKey A) (d.KeptBlock A))
      (.ok (slice x.2.content offset.toNat (offset.toNat + len.toNat))) := by
  have hfits := h.fits_placed hb hx
  have hsize : (A.loc b x).record.size.toNat = x.2.content.length := hfits.size x.1
  have hcap := hfits.content_le
  set f := blockAt (A.loc b x) x.2.content with hf
  have hpiece : ∀ i < pieceCount x.2.content, f i = .ok (piece x.2.content i) :=
    fun i hi => if_pos hi
  have hexact : ExactBlocks (A.loc b x) f := by
    intro i v hv
    by_cases hi : i < pieceCount x.2.content
    · rw [hpiece i hi] at hv
      cases hv
      change _ = min (i * BLOCK_SIZE + BLOCK_SIZE) (A.loc b x).record.size.toNat - i * BLOCK_SIZE
      rw [hsize, piece_length]
    · rw [hf, blockAt, if_neg hi] at hv
      cases hv
  have hread : readWith (A.loc b x) f offset len =
      .ok (slice x.2.content offset.toNat (offset.toNat + len.toNat)) := by
    have hend : readEnd (A.loc b x) offset len =
        min (offset.toNat + len.toNat) x.2.content.length := by
      rw [readEnd, hsize]
    rw [readWith_eq_ok hexact hsum (by rw [hend]; omega), hend]
    refine ⟨fun p _ hp => ?_, ?_⟩
    · rw [hpiece _ (lt_pieceCount (by omega))]
      rfl
    · by_cases hin : offset.toNat < x.2.content.length
      · rw [max_eq_right (by omega), slice_min]
        exact reads_slice hpiece (Nat.min_le_right _ _)
      · rw [max_eq_left (by omega)]
        have hnil : slice x.2.content offset.toNat (offset.toNat + len.toNat) = [] := by
          rw [← List.length_eq_zero_iff, slice_length]
          omega
        rw [hnil]
        exact .nil
  rw [← hread]
  exact readWith_answers (fun i => h.block_answers hb hx i) offset len

theorem Packed.probe_answers (hconf : d.Configured A b) :
    (d.probeKey (A.loc b x)).Answers (d.BlockInv cacheDir (d.KeptKey A) (d.KeptBlock A))
      (probeAt (A.loc b x) x.2.content (A.key b)) := by
  unfold probeAt
  split_ifs with hi
  · have hprobe : d.probeOf cacheDir (A.loc b x) = .ok (.configured (A.key b)) := by
      obtain ⟨y, hy, -⟩ := h.slot hb hx hi
      unfold probeOf
      rw [hy]
      exact h.ownResolution hb hx hi hconf hy
    rw [← hprobe]
    refine probeKey_answers (fun r hr _ r' hr' => ?_) fun r hr => ?_
    · cases hr'
      rw [hprobe] at hr
      cases hr
      rfl
    · rw [hr hconf r rfl]
      exact hprobe
  · have hblocks : (A.loc b x).record.blocks = [] := by
      have hcount := Packer.record_numBlocks A.packer (A.key b) x.1 x.2
      exact List.length_eq_zero_iff.mp (hcount.trans (by omega))
    have hcall : d.probeKey (A.loc b x) =
        Call.lift (.err (.noBlocksToProbe (A.loc b x).record.fileId)) := by
      unfold probeKey
      rw [hblocks]
      rfl
    rw [hcall]
    exact Call.answers_lift _

theorem Packed.probe_safe :
    (d.probeKey (A.loc b x)).Safe (d.BlockInv cacheDir (d.KeptKey A) (d.KeptBlock A)) := by
  refine probeKey_keeps fun y hy r hr _ hconf => ?_
  have hi : 0 < pieceCount x.2.content := by
    by_contra hi
    rw [slot_none (Nat.not_lt.mp hi)] at hy
    cases hy
  rw [h.ownResolution hb hx hi hconf hy] at hr
  cases hr
  intro r hr
  cases hr
  rfl

theorem Packed.read_safe (offset len : UInt64) :
    (d.read (A.loc b x) offset len).Safe
      (d.BlockInv cacheDir (d.KeptKey A) (d.KeptBlock A)) :=
  readWith_safe (fun i => (h.block_answers hb hx i).safe) offset len

end Calls

/-! ### Tables -/

section Tables
variable (h : d.Packed cacheDir A)
include h

theorem Packed.allParse : d.AllParse cacheDir := by
  intro id hid
  obtain ⟨p, hp, -⟩ := h.blobs id _ (List.getElem?_eq_getElem hid)
  exact ⟨p, hp⟩

theorem Packed.recordIn {b : ℕ} (hb : b < d.index.blobs.length) (fileId : UInt32) :
    d.recordIn cacheDir fileId b = (A.own fileId b).map fun y => A.loc y.1 y.2 := by
  have hentry := List.getElem?_eq_getElem hb
  obtain ⟨p, hp, hrecords, hdat⟩ := h.blobs b _ hentry
  have hloc : ∀ x : ℕ × SourceFile,
      d.locOf b d.index.blobs[b] p (A.packer.record (A.key b) x.1 x.2) = A.loc b x := by
    intro x
    rw [locOf, hdat]
    rfl
  unfold Dump.recordIn Archive.own
  rw [hentry, hp]
  change (p.records.reverse.find? _).map _ = _
  rw [hrecords, Packer.records, ← List.map_reverse, List.find?_map, Option.map_map,
    Option.map_map]
  exact Option.map_congr fun x _ => hloc x

theorem Packed.fileAt_mem {v : ℕ} (hv : v < d.index.blobs.length) {fileId : UInt32}
    {y : ℕ × ℕ × SourceFile} (hy : d.fileAt cacheDir A v fileId = some y) :
    y.1 < d.index.blobs.length ∧ y.2 ∈ A.placed y.1 := by
  obtain ⟨c, hc, hown⟩ := List.exists_of_findSome?_eq_some hy
  obtain ⟨x, hx, rfl⟩ := Option.map_eq_some_iff.mp hown
  exact ⟨lineage_inRange h.allParse hv hc, List.mem_reverse.mp (List.mem_of_find?_eq_some hx)⟩

theorem Packed.table_answers (hbounded : d.Bounded cacheDir) {v : ℕ}
    (hv : v < d.index.blobs.length) :
    ∃ t, (∀ fileId, t.get fileId = (d.fileAt cacheDir A v fileId).map fun y => A.loc y.1 y.2) ∧
      (d.table v).Answers (d.TableInv cacheDir) (.ok t) := by
  obtain ⟨t, ht, hans⟩ := Dump.table_answers h.allParse hbounded hv
  have hrange : ∀ b ∈ d.lineage cacheDir v, b < d.index.blobs.length :=
    fun b hb => lineage_inRange h.allParse hv hb
  refine ⟨t, fun fileId => ?_, hans⟩
  rw [tableOf_get h.allParse hrange ht, fileAt]
  clear ht hans
  generalize d.lineage cacheDir v = l at hrange ⊢
  induction l with
  | nil => rfl
  | cons b bs ih =>
    rw [List.findSome?_cons, List.findSome?_cons, h.recordIn (hrange b List.mem_cons_self)]
    cases A.own fileId b with
    | some y => rfl
    | none => exact ih fun c hc => hrange c (List.mem_cons_of_mem b hc)

theorem Packed.locate_answers (hbounded : d.Bounded cacheDir) {v : ℕ}
    (hv : v < d.index.blobs.length) (fileId : UInt32) :
    (d.locate v fileId).Answers (d.TableInv cacheDir) (ofOption (.missingRecord fileId)
      ((d.fileAt cacheDir A v fileId).map fun y => A.loc y.1 y.2)) := by
  obtain ⟨t, hget, hans⟩ := h.table_answers hbounded hv
  rw [← hget]
  exact hans.bind (g := fun t => ofOption (.missingRecord fileId) (t.get fileId))
    fun _ _ => Call.answers_lift _

end Tables

end Dump
end Steam2Fs
