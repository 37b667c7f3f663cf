import Steam2Fs.StoreHistory
import Steam2Fs.StoreSequence

/-!
# The classes of read errors

A frontend sees the class of an error, which should say what went wrong: the
bytes are missing from the dump, no key is known, the bytes are damaged, or
the metadata does not parse. Which class a failure gets depends on the error
type it travels through. A parse error reaches the caller as an `anyhow`
error and a block that does not inflate as a format error, and so each of the
two is reported as the other. A damaged block that is the first one of its
blob to be read is reported as a missing key.
-/

namespace Steam2Fs
open Outcome

/-! ### Errors of the block decoder -/

section Loops
variable {window : ℕ → Outcome ReadError Bytes} {e : ReadError}

theorem datLoop_err {stop fuel pos : ℕ} {out : Bytes}
    (h : datLoop window stop fuel pos out = .err e) : ∃ idx, window idx = .err e := by
  induction fuel generalizing pos out with
  | zero => cases h
  | succ fuel ih =>
    rw [datLoop] at h
    split_ifs at h
    · rcases bind_eq_err.mp h with h | ⟨w, -, h⟩
      · exact ⟨_, h⟩
      · dsimp only at h
        split_ifs at h
        exact ih h

theorem datBytesWith_err {start stop : UInt64} (h : datBytesWith window start stop = .err e) :
    ∃ idx, window idx = .err e := by
  rcases bind_eq_err.mp h with h | ⟨_, -, h⟩
  · change (withCapacity 1 (stop - start).toNat : Outcome ReadError Unit) = .err e at h
    unfold withCapacity at h
    split_ifs at h
  · exact datLoop_err h

end Loops

namespace Dump
variable (d : Dump) (cacheDir : ℕ → Option Bytes)

section Errors
variable {d} {loc : FileLoc} {i : ℕ} {x : Slot} {e : ReadError}

theorem windowBytes_class {dat idx : ℕ} (h : d.windowBytes dat idx = .err e) :
    e.class = .io := by
  rcases bind_eq_err.mp h with h | ⟨entry, -, h⟩
  · unfold datEntry at h
    split at h <;> cases h
  · dsimp only at h
    split_ifs at h
    split at h
    · cases h
    · cases h
      rfl

theorem storedBlock_class (h : d.storedBlock loc i x = .err e) : e.class = .io := by
  rcases bind_eq_err.mp h with h | ⟨raw, -, h⟩
  · obtain ⟨idx, h⟩ := datBytesWith_err h
    exact windowBytes_class h
  · rcases bind_eq_err.mp h with h | ⟨_, -, h⟩
    · unfold checkStored at h
      split_ifs at h
      cases h
      rfl
    · cases h

theorem keyOf_class {entry : BlobEntry} {r : KeyResolution} (h : keyOf entry r = .err e) :
    e.class = .noKey := by
  unfold keyOf at h
  split at h <;> cases h <;> rfl

theorem keyUsing_err {entry : BlobEntry} {r : KeyResolution}
    (h : ∀ key, keyUsing loc entry r ≠ .ok key) :
    ∃ e, keyUsing loc entry r = .err e ∧ e.class = .noKey := by
  unfold keyUsing at *
  split_ifs at * with henc
  · cases hkey : keyOf entry r with
    | ok k => exact absurd (by rw [hkey]; rfl) (h (some k))
    | err e => exact ⟨e, rfl, keyOf_class hkey⟩
    | panic =>
      unfold keyOf at hkey
      split at hkey <;> cases hkey
  · exact absurd rfl (h none)

theorem decodeBlock_class {b : Block} {raw out : Bytes} {key : Option Key}
    (hout : Chunk.decodeOwned d.codec loc.record.mode raw key = .ok out)
    (h : d.decodeBlock loc i b raw key = .err e) : e.class = .io := by
  unfold decodeBlock at h
  rw [hout] at h
  dsimp only [mapErr, ok_bind] at h
  split_ifs at h
  · cases h
    rfl
  · cases h
    rfl

end Errors

/-! ### What should be reported, and when it is -/

def Reached (s : Store) : Prop :=
  ∃ pool : Pool Store StoreOp Unit, Pool.Reachable (StoreOp.prog d) Set.univ (fun _ _ => False)
    (Store.new d cacheDir) pool ∧ pool.state = s

/-- The bytes of the blob arrive, and the parser rejects them. -/
def Rejected (id : ℕ) : Prop :=
  d.Stale cacheDir id ∧
    ∃ bytes e, d.backendBytes id = .ok bytes ∧ parseBlob d.codec bytes = .err e

def KnownKey (entry : BlobEntry) (k : Key) : Prop :=
  d.keys.getForBlob entry.depot entry.crc = some k ∨
    d.cfg.keySearch = true ∧ ∃ label, (label, k) ∈ d.keys.candidates

/-- What the blocks of a file are decoded with: nothing when it is not
encrypted, or a known key that decrypts an intact block of the same blob. -/
def RightKey (loc : FileLoc) : Option Key → Prop
  | none => loc.record.mode.isEncrypted = false
  | some k => loc.record.mode.isEncrypted = true ∧
    (∃ entry, d.index.blobs[loc.source]? = some entry ∧ d.KnownKey entry k) ∧
    ∃ loc' i x sample, d.Located cacheDir loc' ∧ loc'.source = loc.source ∧
      loc'.record.mode.isEncrypted = true ∧ loc'.slot i = some x ∧
      d.sampleOf loc' i x = .ok sample ∧ d.works sample k = true

/-- The stored bytes of the block are short, or `key` does not turn them into
the bytes of the block. -/
def Damaged (loc : FileLoc) (i : ℕ) (x : Slot) (key : Option Key) : Prop :=
  ∃ raw, datBytesWith (d.windowBytes x.dat) x.start x.stop = .ok raw ∧
    (raw.length ≠ (x.stop - x.start).toNat ∨
      (d.decodeBlock loc i x.block raw key).isOk = false)

/-- A failure of the call is reported for what it is. -/
def Classified (s : Store) : StoreOp → Prop
  | .parsed id => d.Rejected cacheDir id →
    ∀ e, ((d.parsed id).run s).1 = .err e → e.class = .badData
  | .locate id fileId => ∀ t, ((d.table id).run s).1 = .ok t → t.get fileId = none →
    ∃ e, ((d.locate id fileId).run s).1 = .err e ∧ e.class = .missing
  | .probe loc => loc.dat = none → ∃ e, ((d.probeKey loc).run s).1 = .err e ∧ e.class = .missing
  | .block loc i =>
    (loc.dat = none → ∃ e, ((d.block loc i).run s).1 = .err e ∧ e.class = .missing) ∧
    ∀ x key, loc.slot i = some x → d.RightKey cacheDir loc key → d.Damaged loc i x key →
      ∀ e, ((d.block loc i).run s).1 = .err e → e.class = .io

/-- A complete block decodes under the key that is remembered for its blob, or
else found with this very block. -/
def Unpacks (s : Store) (loc : FileLoc) (i : ℕ) (x : Slot) : Prop :=
  ∀ raw, d.storedBlock loc i x = .ok raw → ∃ entry key,
    d.index.blobs[loc.source]? = some entry ∧
      keyUsing loc entry (d.resolutionIn s loc i x) = .ok key ∧
      (Chunk.decodeOwned d.codec loc.record.mode raw key).isOk = true

/-- The blob parses, and a damaged block that has to be fetched is short or
still unpacks. -/
def Classifiable (s : Store) : StoreOp → Prop
  | .parsed id => ¬ d.Rejected cacheDir id
  | .block loc i => ∀ x key, loc.slot i = some x → d.RightKey cacheDir loc key →
    d.Damaged loc i x key → (s.blocks.get x.key).1 = none → d.Unpacks s loc i x
  | _ => True

end Dump

def StoreOp.Valid (d : Dump) (cacheDir : ℕ → Option Bytes) : StoreOp → Prop
  | .probe loc => d.Located cacheDir loc
  | .block loc _ => d.Located cacheDir loc
  | _ => True

namespace Dump
variable {d : Dump} {cacheDir : ℕ → Option Bytes} {s : Store} {loc : FileLoc} {i : ℕ} {x : Slot}

theorem Reached.inv (h : d.Reached cacheDir s) :
    d.BlockInv cacheDir (fun _ _ => True) (fun _ _ => True) s := by
  obtain ⟨pool, hpool, rfl⟩ := h
  have hprog (op : StoreOp) : (op.prog d).Keeps
      (d.BlockInv cacheDir (fun _ _ => True) fun _ _ => True) fun _ => True := by
    cases op with
    | parsed id => exact drop_keeps (parsed_answers_blocks id).safe
    | locate id fileId => exact drop_keeps (BlockInv.tableLocal.locate_safe id fileId)
    | probe loc => exact drop_keeps (probeKey_keeps fun _ _ _ _ _ => trivial)
    | block loc i =>
      apply drop_keeps
      cases hx : loc.slot i with
      | none => exact (block_answers_of_slot_none hx (.none 0)).safe
      | some x => exact (block_keeps hx (fun _ _ _ _ => trivial) fun _ _ _ _ _ => trivial).safe
  exact (hpool.keeps (fun op _ => hprog op) (fun _ _ h => h.elim)
    (BlockInv.new fun _ => trivial)).1

theorem Reached.new (d : Dump) (cacheDir : ℕ → Option Bytes) :
    d.Reached cacheDir (Store.new d cacheDir) :=
  ⟨_, .refl, rfl⟩

theorem loaded_of_rejected {id : ℕ} (h : d.Rejected cacheDir id) :
    ∃ e, d.loaded cacheDir id = .err e ∧ e.class = .io := by
  obtain ⟨hstale, bytes, e, hbytes, he⟩ := h
  obtain ⟨entry, hentry, -⟩ := bind_eq_ok.mp hbytes
  refine ⟨.other (parsingContext entry e), ?_, rfl⟩
  rw [loaded, loadAnyhow_of_stale (blob_eq_ok.mp hentry) hstale, loadBackend, hbytes, ok_bind, he]
  rfl

theorem Located.missingDatOf {α : Type} (h : d.Located cacheDir loc) :
    ∃ e, (d.missingDatOf cacheDir loc : Outcome ReadError α) = .err e ∧ e.class = .missing := by
  obtain ⟨b, entry, p, r, hentry, hp, -, rfl⟩ := h
  refine ⟨.missingDat entry.depot entry.version p.info.datCrc, ?_, rfl⟩
  simp only [Dump.missingDatOf, locOf, blob_eq_ok.mpr hentry, ok_bind, hp]
  rfl

theorem block_run_cached {v : Bytes} (hx : loc.slot i = some x)
    (hv : (s.blocks.get x.key).1 = some v) : ((d.block loc i).run s).1 = .ok v := by
  obtain ⟨hdat, hb, hspan⟩ := FileLoc.slot_eq_some.mp hx
  have hget : (s.blocks.get (x.dat, x.start)).1 = some v := hv
  simp only [block, hdat, hb, hspan, getBlock, Call.run_bind, Call.run_atomic, hget]
  rfl

theorem block_class_iff (hs : d.Reached cacheDir s) (hloc : d.Located cacheDir loc)
    (hx : loc.slot i = some x) :
    (∀ e, ((d.block loc i).run s).1 = .err e → e.class = .io) ↔
      ((s.blocks.get x.key).1 = none → d.Unpacks s loc i x) := by
  obtain ⟨entry, hentry⟩ := hloc.entry
  cases hv : (s.blocks.get x.key).1 with
  | some v =>
    rw [block_run_cached hx hv]
    simp
  | none =>
    rw [block_run hs.inv.1 hs.inv.2.windows hx hv]
    simp only [forall_const]
    have husing (raw : Bytes) (hraw : d.storedBlock loc i x = .ok raw) :
        d.blockUsing (d.resolutionIn s loc i x) loc i x =
          (keyUsing loc entry (d.resolutionIn s loc i x) >>= d.decodeBlock loc i x.block raw) := by
      rw [blockUsing, hraw, ok_bind, blob_eq_ok.mpr hentry, ok_bind]
    constructor
    · intro hclass raw hraw
      rw [husing raw hraw] at hclass
      by_cases hkey : ∃ key, keyUsing loc entry (d.resolutionIn s loc i x) = .ok key
      · obtain ⟨key, hkey⟩ := hkey
        refine ⟨entry, key, hentry, hkey, ?_⟩
        cases hout : Chunk.decodeOwned d.codec loc.record.mode raw key with
        | ok out => rfl
        | err e =>
          rw [hkey, ok_bind, decodeBlock, hout] at hclass
          cases hclass (.format e) rfl
        | panic =>
          rw [Chunk.decodeOwned_eq_decode] at hout
          exact absurd hout (Chunk.decode_returns _ _ _ _)
      · obtain ⟨e, he, hnoKey⟩ := keyUsing_err fun key h => hkey ⟨key, h⟩
        have hio := hclass e (by rw [he]; rfl)
        rw [hnoKey] at hio
        cases hio
    · intro hunpacks e he
      cases hraw : d.storedBlock loc i x with
      | err e' =>
        rw [blockUsing, hraw] at he
        cases he
        exact storedBlock_class hraw
      | panic =>
        rw [blockUsing, hraw] at he
        cases he
      | ok raw =>
        obtain ⟨entry', key', hentry', hkey', hout⟩ := hunpacks raw hraw
        rw [hentry] at hentry'
        cases hentry'
        obtain ⟨out, hout⟩ := isOk_iff.mp hout
        rw [husing raw hraw, hkey', ok_bind] at he
        exact decodeBlock_class hout he

theorem classified_iff_classifiable (d : Dump) (cacheDir : ℕ → Option Bytes) (s : Store)
    (hs : d.Reached cacheDir s) (op : StoreOp) (hop : op.Valid d cacheDir) :
    d.Classified cacheDir s op ↔ d.Classifiable cacheDir s op := by
  cases op with
  | parsed id =>
    refine forall_congr' fun hrejected => ?_
    obtain ⟨e, he, hclass⟩ := loaded_of_rejected hrejected
    have hans : ((d.parsed id).run s).1 = .err e := ((parsed_answers_blocks id).run hs.inv).trans he
    refine ⟨fun h => ?_, False.elim⟩
    rw [h e hans] at hclass
    cases hclass
  | locate id fileId =>
    refine ⟨fun _ => trivial, fun _ t ht hnone => ?_⟩
    rcases hrun : (d.table id).run s with ⟨r, s'⟩
    rw [hrun] at ht
    cases ht
    refine ⟨.missingRecord fileId, ?_, rfl⟩
    rw [locate, Call.run_bind, hrun]
    simp [hnone, ofOption]
  | probe loc =>
    refine ⟨fun _ => trivial, fun _ hdat => ?_⟩
    obtain ⟨e, he, hclass⟩ := Located.missingDatOf (α := KeyResolution) hop
    refine ⟨e, ?_, hclass⟩
    rw [probeKey, hdat, ← he]
    exact (missingDat_answers loc).run hs.inv
  | block loc i =>
    have hmissing (hdat : loc.dat = none) :
        ∃ e, ((d.block loc i).run s).1 = .err e ∧ e.class = .missing := by
      obtain ⟨e, he, hclass⟩ := Located.missingDatOf (α := Bytes) hop
      refine ⟨e, ?_, hclass⟩
      rw [block, hdat, ← he]
      exact (missingDat_answers loc).run hs.inv
    constructor
    · intro h x key hx hkey hdamaged
      exact (block_class_iff hs hop hx).mp (h.2 x key hx hkey hdamaged)
    · intro h
      refine ⟨hmissing, fun x key hx hkey hdamaged => ?_⟩
      exact (block_class_iff hs hop hx).mpr (h x key hx hkey hdamaged)

end Dump

section Sample
open Dump

def garbled : MemoryDump where
  blobs := [("5_1_000000aa_x.blob".toList, [0])]
  dats := []
  keys := .empty
  cfg := .plain

/-- The dat has its full size, but nothing has been written to it yet. -/
def unfinished : MemoryDump where
  blobs := [("5_1_000000aa_x.blob".toList,
    (VersionImage.flat [compressedRecord, plainRecord] 15 none).encode)]
  dats := [("5_1_00000005_x.dat".toList, List.replicate 15 0)]
  keys := .empty
  cfg := .plain

set_option maxRecDepth 20000 in
/-- A parse error is not reported as one, and neither a block that does not
inflate nor the first damaged block of an encrypted file as damaged. -/
theorem failures_not_classified :
    (garbled.dump.cfg.verify ∧
      ¬ garbled.dump.Classified (fun _ => none) (Store.new garbled.dump fun _ => none)
        (.parsed 0)) ∧
    (unfinished.dump.cfg.verify ∧
      unfinished.dump.Produced (fun _ => none) (firstLoc compressedRecord) ∧
      ¬ unfinished.dump.Classified (fun _ => none) (Store.new unfinished.dump fun _ => none)
        (.block (firstLoc compressedRecord) 0)) ∧
    (halfDamaged.dump.cfg.verify ∧
      halfDamaged.dump.Produced (fun _ => none) (firstLoc damagedRecord) ∧
      ¬ halfDamaged.dump.Classified (fun _ => none) (Store.new halfDamaged.dump fun _ => none)
        (.block (firstLoc damagedRecord) 0)) := by
  refine ⟨⟨rfl, fun h => ?_⟩, ⟨rfl, ⟨[], 0, 7, by decide +kernel⟩, fun h => ?_⟩,
    rfl, ⟨[], 0, 7, by decide +kernel⟩, fun h => ?_⟩
  · have hrejected : garbled.dump.Rejected (fun _ => none) 0 := by
      refine ⟨fun entry bytes _ hbytes => ?_, [0], .format (.malformed "truncated u16 at 0"),
        by decide +kernel, by decide +kernel⟩
      cases hbytes
    have hans : ((garbled.dump.parsed 0).run (Store.new garbled.dump fun _ => none)).1 =
        .err (.other (.context "parsing 5_1_000000aa_x.blob"
          (.format (.malformed "truncated u16 at 0")))) := by decide +kernel
    cases h hrejected _ hans
  · have hdamaged : unfinished.dump.Damaged (firstLoc compressedRecord) 0
        ⟨0, ⟨15, Chunk.checksum [1, 2, 3, 4]⟩, 0, 15⟩ none :=
      ⟨List.replicate 15 0, by decide +kernel, Or.inr (by decide +kernel)⟩
    have hans : ((unfinished.dump.block (firstLoc compressedRecord) 0).run
        (Store.new unfinished.dump fun _ => none)).1 =
          .err (.format (.zlib "corrupt deflate stream")) := by decide +kernel
    cases h.2 _ none rfl rfl hdamaged _ hans
  · have hintact : halfDamaged.dump.Produced (fun _ => none) (firstLoc intactRecord) :=
      ⟨[], 0, 8, by decide +kernel⟩
    have hright : halfDamaged.dump.RightKey (fun _ => none) (firstLoc damagedRecord)
        (some zeroKey) := by
      refine ⟨rfl, ?_, firstLoc intactRecord, 0, ⟨0, ⟨4, Chunk.checksum [1, 2, 3, 4]⟩, 0, 4⟩,
        ⟨.encrypted, [0x67, 0xeb, 0x48, 0xd0], Chunk.checksum [1, 2, 3, 4]⟩, hintact.located, rfl,
        rfl, rfl, rfl, by decide +kernel⟩
      obtain ⟨entry, hentry⟩ := hintact.located.entry
      refine ⟨entry, hentry, Or.inl ?_⟩
      have hdepot : ∀ e ∈ halfDamaged.dump.index.blobs,
          halfDamaged.dump.keys.getForBlob e.depot e.crc = some zeroKey := by decide +kernel
      exact hdepot entry (List.mem_of_getElem? hentry)
    have hdamaged : halfDamaged.dump.Damaged (firstLoc damagedRecord) 0 ⟨0, ⟨4, 0⟩, 4, 8⟩
        (some zeroKey) :=
      ⟨[0, 0, 0, 0], by decide +kernel, Or.inr (by decide +kernel)⟩
    have hans : ((halfDamaged.dump.block (firstLoc damagedRecord) 0).run
        (Store.new halfDamaged.dump fun _ => none)).1 = .err (.noKey 5) := by decide +kernel
    cases h.2 _ _ rfl hright hdamaged _ hans

set_option maxRecDepth 20000 in
theorem unfinished_plain_classified :
    unfinished.dump.Classified (fun _ => none) (Store.new unfinished.dump fun _ => none)
        (.block (firstLoc plainRecord) 0) ∧
      ∃ e, ((unfinished.dump.block (firstLoc plainRecord) 0).run
        (Store.new unfinished.dump fun _ => none)).1 = .err e ∧ e.class = .io := by
  have hproduced : unfinished.dump.Produced (fun _ => none) (firstLoc plainRecord) :=
    ⟨[], 0, 8, by decide +kernel⟩
  obtain ⟨entry, hentry⟩ := hproduced.located.entry
  refine ⟨?_, .checksum 8 0 1260093785 3620930535, by decide +kernel, rfl⟩
  refine (classified_iff_classifiable _ _ _ (.new _ _) (.block (firstLoc plainRecord) 0)
    hproduced.located).mpr fun x key _ _ _ _ raw _ => ?_
  exact ⟨entry, none, hentry, rfl, rfl⟩

end Sample
end Steam2Fs
