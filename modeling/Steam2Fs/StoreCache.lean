import Steam2Fs.StoreBlocks
import Steam2Fs.StoreCalls

/-!
# What the block calls answer

`blockUsing r loc i` is the outcome of decoding block `i` under the key
resolution `r`, as a function of the dump alone. A call of `block` answers
either that, for a resolution some call has come to, or what the block cache
holds under the start offset of the block. `Caches K B` says which resolutions
may be remembered and which bytes may be cached; the two are parameters, so
that the same lemmas serve one call from a given state, a sequence of calls
and any number of calls at once.
-/

namespace Steam2Fs
open Outcome

structure Slot where
  dat : ℕ
  block : Block
  start : UInt64
  stop : UInt64
  deriving DecidableEq, Repr

def Slot.key (x : Slot) : ℕ × UInt64 := (x.dat, x.start)

def FileLoc.slot (loc : FileLoc) (i : ℕ) : Option Slot := do
  let dat ← loc.dat
  let b ← loc.record.blocks[i]?
  let span ← loc.blockSpan i
  some ⟨dat, b, span.1, span.2⟩

theorem FileLoc.slot_eq_some {loc : FileLoc} {i : ℕ} {x : Slot} :
    loc.slot i = some x ↔ loc.dat = some x.dat ∧ loc.record.blocks[i]? = some x.block ∧
      loc.blockSpan i = some (x.start, x.stop) := by
  unfold FileLoc.slot
  constructor
  · intro h
    obtain ⟨dat, hdat, h⟩ := Option.bind_eq_some_iff.mp h
    obtain ⟨b, hb, h⟩ := Option.bind_eq_some_iff.mp h
    obtain ⟨span, hspan, h⟩ := Option.bind_eq_some_iff.mp h
    cases h
    exact ⟨hdat, hb, hspan⟩
  · rintro ⟨hdat, hb, hspan⟩
    rw [hdat, hb, hspan]
    rfl

section Loops
variable {σ : Type} {I : σ → Prop}

theorem datLoop_answers {window : ℕ → Call σ ReadError Bytes} {f : ℕ → Outcome ReadError Bytes}
    (hw : ∀ i, (window i).Answers I (f i)) (stop fuel pos : ℕ) (out : Bytes) :
    (datLoop window stop fuel pos out).Answers I (datLoop f stop fuel pos out) := by
  induction fuel generalizing pos out with
  | zero => exact Call.answers_pure _
  | succ fuel ih =>
    rw [datLoop, datLoop]
    split_ifs
    · refine (hw _).bind fun w _ => ?_
      dsimp only
      split_ifs
      · exact Call.answers_pure _
      · exact ih _ _
    · exact Call.answers_pure _

theorem datBytesWith_answers {window : ℕ → Call σ ReadError Bytes}
    {f : ℕ → Outcome ReadError Bytes} (hw : ∀ i, (window i).Answers I (f i))
    (start stop : UInt64) :
    (datBytesWith window start stop).Answers I (datBytesWith f start stop) :=
  (Call.answers_lift _).bind fun _ _ => datLoop_answers hw _ _ _ _

theorem readLoop_answers {loc : FileLoc} {block : ℕ → Call σ ReadError Bytes}
    {f : ℕ → Outcome ReadError Bytes} (hb : ∀ i, (block i).Answers I (f i))
    (stop fuel pos : ℕ) (out : Bytes) :
    (readLoop loc block stop fuel pos out).Answers I (readLoop loc f stop fuel pos out) := by
  induction fuel generalizing pos out with
  | zero => exact Call.answers_pure _
  | succ fuel ih =>
    rw [readLoop, readLoop]
    split_ifs
    · refine (hb _).bind fun b _ => ?_
      dsimp only
      split_ifs
      · exact Call.answers_lift _
      · exact ih _ _
    · exact Call.answers_pure _

theorem readWith_answers {loc : FileLoc} {block : ℕ → Call σ ReadError Bytes}
    {f : ℕ → Outcome ReadError Bytes} (hb : ∀ i, (block i).Answers I (f i))
    (offset len : UInt64) :
    (readWith loc block offset len).Answers I (readWith loc f offset len) := by
  unfold readWith
  dsimp only
  split_ifs
  · exact Call.answers_pure _
  · exact (Call.answers_lift _).bind fun _ _ => readLoop_answers hb _ _ _ _

end Loops

namespace Dump
variable (d : Dump)

/-! ### The pure view -/

section Pure

def storedBlock (loc : FileLoc) (i : ℕ) (x : Slot) : Outcome ReadError Bytes := do
  let raw ← datBytesWith (d.windowBytes x.dat) x.start x.stop
  let _ ← checkStored loc i x.start x.stop raw
  .ok raw

def keyUsing (loc : FileLoc) (entry : BlobEntry) (r : KeyResolution) :
    Outcome ReadError (Option Key) :=
  if loc.record.mode.isEncrypted then some <$> keyOf entry r else .ok none

def blockUsing (r : KeyResolution) (loc : FileLoc) (i : ℕ) (x : Slot) :
    Outcome ReadError Bytes := do
  let raw ← d.storedBlock loc i x
  let entry ← d.blob loc.source
  let key ← keyUsing loc entry r
  d.decodeBlock loc i x.block raw key

def sampleOf (loc : FileLoc) (i : ℕ) (x : Slot) : Outcome ReadError Sample := do
  let raw ← d.storedBlock loc i x
  .ok ⟨loc.record.mode, raw, x.block.checksum⟩

def ownResolution (loc : FileLoc) (i : ℕ) (x : Slot) : Outcome ReadError KeyResolution := do
  let sample ← d.sampleOf loc i x
  let entry ← d.blob loc.source
  .ok (d.resolution entry sample)

def missingDatOf {α : Type} (cacheDir : ℕ → Option Bytes) (loc : FileLoc) :
    Outcome ReadError α := do
  let e ← d.blob loc.source
  match ← (d.loaded cacheDir loc.source).attempt with
  | .ok p => .err (.missingDat e.depot e.version p.info.datCrc)
  | .error _ => .err (.missingDat e.depot e.version 0)

def blockOf (cacheDir : ℕ → Option Bytes) (r : KeyResolution) (loc : FileLoc) (i : ℕ) :
    Outcome ReadError Bytes :=
  match loc.slot i with
  | some x => d.blockUsing r loc i x
  | none => match loc.dat with
    | none => d.missingDatOf cacheDir loc
    | some _ => .err (loc.noSuchBlock i)

end Pure

section Inversion
variable {d} {loc : FileLoc} {i : ℕ} {x : Slot}

theorem storedBlock_eq_ok {raw : Bytes} :
    d.storedBlock loc i x = .ok raw ↔
      datBytesWith (d.windowBytes x.dat) x.start x.stop = .ok raw ∧
        raw.length = (x.stop - x.start).toNat := by
  unfold storedBlock
  rw [bind_eq_ok]
  constructor
  · rintro ⟨raw', hraw, h⟩
    obtain ⟨_, hcheck, h⟩ := bind_eq_ok.mp h
    cases h
    unfold checkStored at hcheck
    split_ifs at hcheck with hlen
    exact ⟨hraw, not_not.mp hlen⟩
  · rintro ⟨hraw, hlen⟩
    refine ⟨raw, hraw, ?_⟩
    rw [checkStored, if_neg (not_not.mpr hlen)]
    rfl

theorem decodeBlock_eq_ok {b : Block} {raw v : Bytes} {key : Option Key} :
    d.decodeBlock loc i b raw key = .ok v ↔
      Chunk.decode d.codec loc.record.mode raw key = .ok v ∧
        (d.cfg.verify = true → Chunk.checksum v = b.checksum) ∧
        v.length = loc.record.blockLen i := by
  unfold decodeBlock
  rw [Chunk.decodeOwned_eq_decode, bind_eq_ok]
  constructor
  · rintro ⟨out, hout, h⟩
    dsimp only at h
    split_ifs at h with hsum hlen
    cases h
    rw [mapErr_eq_ok] at hout
    refine ⟨hout, fun hverify => ?_, not_not.mp hlen⟩
    by_contra hne
    exact hsum ⟨hverify, hne⟩
  · rintro ⟨hout, hsum, hlen⟩
    refine ⟨v, mapErr_eq_ok.mpr hout, ?_⟩
    dsimp only
    rw [if_neg fun h => h.2 (hsum h.1), if_neg (not_not.mpr hlen)]

theorem blockUsing_eq_ok {r : KeyResolution} {v : Bytes} :
    d.blockUsing r loc i x = .ok v ↔ ∃ raw entry key, d.storedBlock loc i x = .ok raw ∧
      d.index.blobs[loc.source]? = some entry ∧ keyUsing loc entry r = .ok key ∧
      d.decodeBlock loc i x.block raw key = .ok v := by
  unfold blockUsing
  constructor
  · intro h
    obtain ⟨raw, hraw, h⟩ := bind_eq_ok.mp h
    obtain ⟨entry, hentry, h⟩ := bind_eq_ok.mp h
    obtain ⟨key, hkey, h⟩ := bind_eq_ok.mp h
    exact ⟨raw, entry, key, hraw, blob_eq_ok.mp hentry, hkey, h⟩
  · rintro ⟨raw, entry, key, hraw, hentry, hkey, h⟩
    rw [hraw, ok_bind, blob_eq_ok.mpr hentry, ok_bind, hkey, ok_bind, h]

end Inversion

/-- The windows are what the backend holds, and whatever is remembered for a
source or cached under a start offset is allowed by `K` and `B`. -/
structure Caches (K : ℕ → Option KeyResolution → Prop) (B : ℕ × UInt64 → Bytes → Prop)
    (s : Store) : Prop where
  windows : ∀ e ∈ s.raw.entries, d.windowBytes e.1.1 e.1.2 = .ok e.2
  keys : ∀ source, K source (s.resolvedKeys source)
  blocks : ∀ e ∈ s.blocks.entries, B e.1 e.2

def BlockInv (cacheDir : ℕ → Option Bytes) (K : ℕ → Option KeyResolution → Prop)
    (B : ℕ × UInt64 → Bytes → Prop) (s : Store) : Prop :=
  d.Loads cacheDir s ∧ d.Caches K B s

section Calls
variable {d} {cacheDir : ℕ → Option Bytes} {K : ℕ → Option KeyResolution → Prop}
  {B : ℕ × UInt64 → Bytes → Prop} {loc : FileLoc} {i : ℕ} {x : Slot}

theorem BlockInv.new (hK : ∀ source, K source none) :
    d.BlockInv cacheDir K B (Store.new d cacheDir) :=
  ⟨.new, ⟨by simp [Store.new, ByteLru.new], hK, by simp [Store.new, ByteLru.new]⟩⟩

theorem parsed_answers_blocks (id : ℕ) :
    (d.parsed id).Answers (d.BlockInv cacheDir K B) (d.loaded cacheDir id) := by
  refine parsed_answers.frame parsed_within fun s s' hframe hs => ?_
  obtain ⟨-, hraw, hblocks, hkeys⟩ := hframe
  refine ⟨?_, ?_, ?_⟩
  · rw [hraw]
    exact hs.windows
  · rw [hkeys]
    exact hs.keys
  · rw [hblocks]
    exact hs.blocks

theorem missingDat_answers {α : Type} (loc : FileLoc) :
    (d.missingDat loc : StoreCall α).Answers (d.BlockInv cacheDir K B)
      (d.missingDatOf cacheDir loc) := by
  refine (Call.answers_lift _).bind fun e _ => ?_
  refine (Call.Answers.attempt (parsed_answers_blocks _)).bind fun r _ => ?_
  cases r with
  | ok p => exact Call.answers_lift _
  | error e => exact Call.answers_lift _

theorem getRaw_keeps (key : ℕ × ℕ) :
    (getRaw key).Keeps (d.BlockInv cacheDir K B) fun r => r = .ok none ∨
      ∃ w, r = .ok (some w) ∧ d.windowBytes key.1 key.2 = .ok w := by
  refine Call.keeps_atomic fun s hs => ⟨⟨hs.1.of_eq (fun _ he => he) rfl, ?_⟩, ?_⟩
  · exact ⟨fun e he => hs.2.windows e (ByteLru.mem_get he), hs.2.keys, hs.2.blocks⟩
  · cases hg : (s.raw.get key).1 with
    | none => exact Or.inl rfl
    | some w => exact Or.inr ⟨w, rfl, hs.2.windows _ (Lru.mem_of_get hg)⟩

theorem rawWindow_answers (dat idx : ℕ) :
    (d.rawWindow dat idx).Answers (d.BlockInv cacheDir K B) (d.windowBytes dat idx) := by
  have hfetch : (d.fetchWindow dat idx).Answers (d.BlockInv cacheDir K B)
      (d.windowBytes dat idx) := by
    refine (getRaw_keeps (dat, idx)).bind (fun o ho => ?_) (by simp) (by simp)
    rcases ho with ho | ⟨w, ho, hw⟩
    · cases ho
      refine (Call.answers_lift _).bind_self fun w hw => ?_
      refine Call.Answers.seq (a := ()) ?_ (hw ▸ Call.answers_pure w)
      refine Call.keeps_atomic fun s hs => ⟨⟨hs.1.of_eq (fun _ he => he) rfl, ?_⟩, rfl⟩
      refine ⟨fun e he => ?_, hs.2.keys, hs.2.blocks⟩
      rcases ByteLru.mem_insert he with rfl | he
      · exact hw
      · exact hs.2.windows e he
    · cases ho
      rw [hw]
      exact Call.answers_pure w
  refine (getRaw_keeps (dat, idx)).bind (fun o ho => ?_) (by simp) (by simp)
  rcases ho with ho | ⟨w, ho, hw⟩
  · cases ho
    exact hfetch
  · cases ho
    rw [hw]
    exact Call.answers_pure w

theorem storedBytes_answers (loc : FileLoc) (i : ℕ) (x : Slot) :
    (d.storedBytes loc i x.dat x.start x.stop).Answers (d.BlockInv cacheDir K B)
      (d.storedBlock loc i x) := by
  refine (datBytesWith_answers (rawWindow_answers x.dat) _ _).bind fun raw _ => ?_
  exact (Call.answers_lift _).bind fun _ _ => Call.answers_pure _

theorem BlockInv.resolve {s : Store} (hs : d.BlockInv cacheDir K B s) {source : ℕ}
    {r : KeyResolution} (hr : K source (some r)) :
    d.BlockInv cacheDir K B
      { s with resolvedKeys := Function.update s.resolvedKeys source (some r) } := by
  refine ⟨hs.1.of_eq (fun _ he => he) rfl, hs.2.windows, fun source' => ?_, hs.2.blocks⟩
  by_cases hsrc : source' = source
  · subst hsrc
    simpa using hr
  · simpa [Function.update_of_ne hsrc] using hs.2.keys source'

/-- The answers of `resolveKey`: something allowed, or no blob to ask about. -/
def Resolves (d : Dump) (K : ℕ → Option KeyResolution → Prop) (source : ℕ) :
    Outcome ReadError KeyResolution → Prop
  | .ok r => K source (some r)
  | .err _ => False
  | .panic => d.index.blobs[source]? = none

theorem resolveKey_keeps {source : ℕ} {sample : Sample}
    (hK : ∀ entry, d.index.blobs[source]? = some entry → K source none →
      K source (some (d.resolution entry sample))) :
    (d.resolveKey source sample).Keeps (d.BlockInv cacheDir K B) (d.Resolves K source) := by
  have hread : (Call.read fun s => s.resolvedKeys source :
      StoreCall (Option KeyResolution)).Keeps (d.BlockInv cacheDir K B)
      fun a => ∃ o, a = .ok o ∧ K source o :=
    Call.keeps_atomic fun s hs => ⟨hs, _, rfl, hs.2.keys source⟩
  refine hread.bind (fun o ho => ?_) (by simp) (by simp)
  obtain ⟨o', ho', hkeep⟩ := ho
  cases ho'
  cases o with
  | some r => exact hkeep
  | none =>
    refine Call.Keeps.bind (Call.answers_lift _) (fun entry he => ?_) (fun e he => ?_) fun hp => ?_
    · have hr := hK entry (blob_eq_ok.mp he.symm) hkeep
      refine Call.Keeps.bind (Q := fun a => a = .ok ()) ?_ (fun _ _ => hr) (by simp) (by simp)
      exact Call.keeps_atomic fun s hs => ⟨hs.resolve hr, rfl⟩
    · exact absurd he.symm blob_ne_err
    · unfold blob at hp
      split at hp
      · cases hp
      · assumption

/-- A resolution counts only for an encrypted block that can offer a sample. -/
def Admits (d : Dump) (K : ℕ → Option KeyResolution → Prop) (loc : FileLoc) (i : ℕ) (x : Slot)
    (r : KeyResolution) : Prop :=
  loc.record.mode.isEncrypted = true → (d.ownResolution loc i x).isOk = true →
    K loc.source (some r)

theorem blockKey_keeps {entry : BlobEntry} (hentry : d.index.blobs[loc.source]? = some entry)
    {b : Block} {raw : Bytes}
    (hK : loc.record.mode.isEncrypted = true → K loc.source none →
      K loc.source (some (d.resolution entry ⟨loc.record.mode, raw, b.checksum⟩))) :
    (d.blockKey loc entry b raw).Keeps (d.BlockInv cacheDir K B) fun a =>
      ∃ r, (loc.record.mode.isEncrypted = true → K loc.source (some r)) ∧
        a = keyUsing loc entry r := by
  unfold blockKey
  split_ifs with henc
  · have hK' : ∀ e, d.index.blobs[loc.source]? = some e → K loc.source none →
        K loc.source (some (d.resolution e ⟨loc.record.mode, raw, b.checksum⟩)) := by
      intro e he
      rw [hentry] at he
      cases he
      exact hK henc
    refine (resolveKey_keeps hK').bind (fun r hr => ?_) (fun e he => he.elim) fun hp => ?_
    · refine Call.Keeps.mono (Call.Answers.bind (g := fun k => .ok (some k)) (Call.answers_lift _)
        fun k _ => Call.answers_pure (some k)) fun a ha => ⟨r, fun _ => hr, ?_⟩
      rw [ha, keyUsing, if_pos henc]
      cases keyOf entry r <;> rfl
    · rw [Resolves, hentry] at hp
      cases hp
  · refine ⟨.none 0, fun h => absurd h henc, ?_⟩
    rw [keyUsing, if_neg henc]

theorem keepBlock_answers {v : Bytes} (hB : loc.record.mode ≠ .plain → B x.key v) :
    (keepBlock loc.record.mode x.key v).Answers (d.BlockInv cacheDir K B) (.ok ()) := by
  unfold keepBlock
  split_ifs with hplain
  · refine Call.keeps_atomic fun s hs => ⟨⟨hs.1.of_eq (fun _ he => he) rfl, ?_⟩, rfl⟩
    refine ⟨hs.2.windows, hs.2.keys, fun e he => ?_⟩
    rcases ByteLru.mem_insert he with rfl | he
    · exact hB hplain
    · exact hs.2.blocks e he
  · exact Call.answers_pure ()

theorem loadBlock_keeps
    (hK : loc.record.mode.isEncrypted = true → ∀ r, d.ownResolution loc i x = .ok r →
      K loc.source none → K loc.source (some r))
    (hB : loc.record.mode ≠ .plain → ∀ r v, d.Admits K loc i x r →
      d.blockUsing r loc i x = .ok v → B x.key v) :
    (d.loadBlock loc i x.dat x.block x.start x.stop).Keeps (d.BlockInv cacheDir K B) fun a =>
      ∃ r, d.Admits K loc i x r ∧ a = d.blockUsing r loc i x := by
  -- before a key is asked for, the resolution makes no difference
  have early {a : Outcome ReadError Bytes} (hown : (d.ownResolution loc i x).isOk = false)
      (ha : a = d.blockUsing (.none 0) loc i x) :
      ∃ r, d.Admits K loc i x r ∧ a = d.blockUsing r loc i x :=
    ⟨.none 0, fun _ h => absurd h (by simp [hown]), ha⟩
  refine Call.Keeps.bind (storedBytes_answers loc i x) (fun raw hraw => ?_)
    (fun e he => early ?_ ?_) fun hp => early ?_ ?_
  rotate_left
  · simp [ownResolution, sampleOf, ← he]
  · simp [blockUsing, ← he]
  · simp [ownResolution, sampleOf, ← hp]
  · simp [blockUsing, ← hp]
  refine Call.Keeps.bind (Call.answers_lift _) (fun entry hentry => ?_)
    (fun e he => absurd he.symm blob_ne_err) fun hp => early ?_ ?_
  rotate_left
  · simp [ownResolution, sampleOf, ← hraw, ← hp]
  · simp [blockUsing, ← hraw, ← hp]
  have hown : d.ownResolution loc i x =
      .ok (d.resolution entry ⟨loc.record.mode, raw, x.block.checksum⟩) := by
    simp [ownResolution, sampleOf, ← hraw, ← hentry]
  have husing (r : KeyResolution) : d.blockUsing r loc i x =
      (keyUsing loc entry r >>= d.decodeBlock loc i x.block raw) := by
    simp [blockUsing, ← hraw, ← hentry]
  refine (blockKey_keeps (blob_eq_ok.mp hentry.symm) fun henc => hK henc _ hown).bind
    (fun key hkey => ?_) (fun e he => ?_) fun hp => ?_
  rotate_left
  · obtain ⟨r, hr, hkey⟩ := he
    exact ⟨r, fun henc _ => hr henc, by rw [husing, ← hkey]; rfl⟩
  · obtain ⟨r, hr, hkey⟩ := hp
    exact ⟨r, fun henc _ => hr henc, by rw [husing, ← hkey]; rfl⟩
  obtain ⟨r, hr, hkey⟩ := hkey
  have hadm : d.Admits K loc i x r := fun henc _ => hr henc
  have hdecode : d.blockUsing r loc i x = d.decodeBlock loc i x.block raw key := by
    rw [husing, ← hkey]
    rfl
  refine Call.Keeps.mono (Call.Answers.bind_self (Call.answers_lift _) fun v hv => ?_)
    fun a ha => ⟨r, hadm, ha.trans hdecode.symm⟩
  refine (keepBlock_answers fun hplain => ?_).seq (hv ▸ Call.answers_pure v)
  exact hB hplain r v hadm (hdecode.trans hv)

theorem block_keeps (hx : loc.slot i = some x)
    (hK : loc.record.mode.isEncrypted = true → ∀ r, d.ownResolution loc i x = .ok r →
      K loc.source none → K loc.source (some r))
    (hB : loc.record.mode ≠ .plain → ∀ r v, d.Admits K loc i x r →
      d.blockUsing r loc i x = .ok v → B x.key v) :
    (d.block loc i).Keeps (d.BlockInv cacheDir K B) fun a =>
      (∃ v, B x.key v ∧ a = .ok v) ∨ ∃ r, d.Admits K loc i x r ∧ a = d.blockUsing r loc i x := by
  obtain ⟨hdat, hb, hspan⟩ := FileLoc.slot_eq_some.mp hx
  unfold block
  simp only [hdat, hb, hspan]
  have hget : (getBlock (x.dat, x.start)).Keeps (d.BlockInv cacheDir K B) fun a =>
      ∃ o, a = .ok o ∧ ∀ v ∈ o, B x.key v := by
    refine Call.keeps_atomic fun s hs => ⟨⟨hs.1.of_eq (fun _ he => he) rfl, ?_⟩, _, rfl, ?_⟩
    · exact ⟨hs.2.windows, hs.2.keys, fun e he => hs.2.blocks e (ByteLru.mem_get he)⟩
    · exact fun v hv => hs.2.blocks _ (Lru.mem_of_get hv)
  refine hget.bind (fun o ho => ?_) (by simp) (by simp)
  obtain ⟨o', ho', hcached⟩ := ho
  cases ho'
  cases o with
  | some v => exact Or.inl ⟨v, hcached v rfl, rfl⟩
  | none => exact (loadBlock_keeps hK hB).mono fun a ha => Or.inr ha

theorem probeKey_keeps (hK : ∀ x, loc.slot 0 = some x → ∀ r, d.ownResolution loc 0 x = .ok r →
      K loc.source none → K loc.source (some r)) :
    (d.probeKey loc).Safe (d.BlockInv cacheDir K B) := by
  unfold probeKey
  split
  · exact (missingDat_answers loc).safe
  · next dat hdat =>
    split
    · next b start stop hb hspan =>
      have hx : loc.slot 0 = some ⟨dat, b, start, stop⟩ := by
        rw [List.head?_eq_getElem?] at hb
        exact FileLoc.slot_eq_some.mpr ⟨hdat, hb, hspan⟩
      have hstored : (d.storedBytes loc 0 dat start stop).Answers (d.BlockInv cacheDir K B) _ :=
        storedBytes_answers loc 0 ⟨dat, b, start, stop⟩
      refine Call.Keeps.bind hstored (fun raw hraw => ?_) (fun _ _ => trivial) fun _ => trivial
      refine (resolveKey_keeps fun entry hentry => hK _ hx _ ?_).safe
      simp [ownResolution, sampleOf, ← hraw, blob_eq_ok.mpr hentry]
    · exact Call.safe_lift _

theorem block_answers_of_slot_none (hx : loc.slot i = none) (r : KeyResolution) :
    (d.block loc i).Answers (d.BlockInv cacheDir K B) (d.blockOf cacheDir r loc i) := by
  unfold block blockOf
  rw [hx]
  cases hdat : loc.dat with
  | none => exact missingDat_answers loc
  | some dat =>
    dsimp only
    split
    · next b start stop hb hspan =>
      have hslot : loc.slot i = some ⟨dat, b, start, stop⟩ :=
        FileLoc.slot_eq_some.mpr ⟨hdat, hb, hspan⟩
      rw [hslot] at hx
      cases hx
    · exact Call.answers_lift _

/-- Where every allowed resolution decodes a block alike, and nothing else can
be cached in its place, the call has one answer. -/
theorem block_answers {r₀ : KeyResolution}
    (hK : loc.record.mode.isEncrypted = true → ∀ x r, loc.slot i = some x →
      d.ownResolution loc i x = .ok r → K loc.source none → K loc.source (some r))
    (huse : ∀ x r, loc.slot i = some x → d.Admits K loc i x r →
      d.blockUsing r loc i x = d.blockUsing r₀ loc i x)
    (hserved : ∀ x v, loc.slot i = some x → B x.key v → d.blockUsing r₀ loc i x = .ok v)
    (hkept : ∀ x v, loc.slot i = some x → loc.record.mode ≠ .plain →
      d.blockUsing r₀ loc i x = .ok v → B x.key v) :
    (d.block loc i).Answers (d.BlockInv cacheDir K B) (d.blockOf cacheDir r₀ loc i) := by
  cases hx : loc.slot i with
  | none => exact block_answers_of_slot_none hx _
  | some x =>
    have hB : loc.record.mode ≠ .plain → ∀ r v, d.Admits K loc i x r →
        d.blockUsing r loc i x = .ok v → B x.key v := by
      intro hplain r v hr hv
      rw [huse x r hx hr] at hv
      exact hkept x v hx hplain hv
    rw [blockOf, hx]
    refine Call.Keeps.mono (block_keeps hx (fun henc r hr => hK henc x r hx hr) hB) fun a ha => ?_
    rcases ha with ⟨v, hv, rfl⟩ | ⟨r, hr, rfl⟩
    · exact (hserved x v hx hv).symm
    · exact huse x r hx hr

end Calls

/-! ### One call from a given state -/

section Single
variable {d} {cacheDir : ℕ → Option Bytes} {s : Store} {loc : FileLoc} {i : ℕ} {x : Slot}

def Windows (d : Dump) (s : Store) : Prop :=
  ∀ e ∈ s.raw.entries, d.windowBytes e.1.1 e.1.2 = .ok e.2

/-- The resolution a call of `block` uses: what is remembered for its source,
or else what its own sample leads to. -/
def resolutionIn (d : Dump) (s : Store) (loc : FileLoc) (i : ℕ) (x : Slot) : KeyResolution :=
  match s.resolvedKeys loc.source, d.ownResolution loc i x with
  | some r, _ => r
  | none, .ok r => r
  | none, _ => .none 0

theorem blockUsing_congr {r r' : KeyResolution}
    (h : loc.record.mode.isEncrypted = true → (d.ownResolution loc i x).isOk = true → r = r') :
    d.blockUsing r loc i x = d.blockUsing r' loc i x := by
  unfold blockUsing
  cases hraw : d.storedBlock loc i x with
  | err e => rfl
  | panic => rfl
  | ok raw =>
    cases hentry : (d.blob loc.source : Outcome ReadError BlobEntry) with
    | err e => rfl
    | panic => rfl
    | ok entry =>
      by_cases henc : loc.record.mode.isEncrypted = true
      · have hown : (d.ownResolution loc i x).isOk = true := by
          simp [ownResolution, sampleOf, hraw, hentry]
        rw [h henc hown]
      · simp only [ok_bind, keyUsing, if_neg henc]

theorem blockUsing_plain (h : loc.record.mode.isEncrypted = false) (r : KeyResolution) (i : ℕ)
    (x : Slot) : d.blockUsing r loc i x = d.blockUsing (.none 0) loc i x :=
  blockUsing_congr fun henc => absurd henc (by simp [h])

theorem ownResolution_of_ok {r : KeyResolution} {v : Bytes}
    (h : d.blockUsing r loc i x = .ok v) : ∃ own, d.ownResolution loc i x = .ok own := by
  obtain ⟨raw, hraw, h⟩ := bind_eq_ok.mp h
  obtain ⟨entry, hentry, -⟩ := bind_eq_ok.mp h
  refine ⟨d.resolution entry ⟨loc.record.mode, raw, x.block.checksum⟩, ?_⟩
  simp [ownResolution, sampleOf, hraw, hentry]

theorem block_run (hs : d.Loads cacheDir s) (hw : d.Windows s) (hx : loc.slot i = some x)
    (hmiss : (s.blocks.get x.key).1 = none) :
    ((d.block loc i).run s).1 = d.blockUsing (d.resolutionIn s loc i x) loc i x := by
  let K : ℕ → Option KeyResolution → Prop := fun source o => source = loc.source →
    o = s.resolvedKeys source ∨
      s.resolvedKeys source = none ∧ ∃ own, d.ownResolution loc i x = .ok own ∧ o = some own
  let B : ℕ × UInt64 → Bytes → Prop := fun key v => key = x.key →
    d.blockUsing (d.resolutionIn s loc i x) loc i x = .ok v
  have huse {r : KeyResolution} (hr : d.Admits K loc i x r) :
      d.blockUsing r loc i x = d.blockUsing (d.resolutionIn s loc i x) loc i x := by
    refine blockUsing_congr fun henc hown => ?_
    unfold resolutionIn
    rcases hr henc hown rfl with hmem | ⟨hnone, own, hown', hr⟩
    · rw [← hmem]
    · cases hr
      rw [hnone, hown']
  have hinv : d.BlockInv cacheDir K B s := by
    refine ⟨hs, hw, fun source _ => Or.inl rfl, fun e he hkey => ?_⟩
    exact absurd hkey (Lru.ne_of_get_none hmiss he)
  have hK : loc.record.mode.isEncrypted = true → ∀ r, d.ownResolution loc i x = .ok r →
      K loc.source none → K loc.source (some r) := by
    intro _ r hr hnone _
    rcases hnone rfl with hmem | ⟨-, own, -, hcontra⟩
    · exact Or.inr ⟨hmem.symm, r, hr, rfl⟩
    · cases hcontra
  have hB : loc.record.mode ≠ .plain → ∀ r v, d.Admits K loc i x r →
      d.blockUsing r loc i x = .ok v → B x.key v := by
    intro _ r v hr hv _
    rw [← huse hr]
    exact hv
  rcases (Call.Keeps.run (block_keeps hx hK hB) hinv).1 with ⟨v, hv, ha⟩ | ⟨r, hr, ha⟩
  · rw [ha, hv rfl]
  · rw [ha, huse hr]

end Single
end Dump
end Steam2Fs
