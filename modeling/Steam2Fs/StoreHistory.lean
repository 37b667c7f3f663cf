import Steam2Fs.Memory
import Steam2Fs.StoreCache
import Steam2Fs.StoreTables

/-!
# Encrypted blocks and what was read before

`resolveKey` draws its verdict on a blob from the first complete sample it is
given, good or bad, and keeps it. Calls over the files of one blob are
therefore independent of each other exactly when every sample they offer leads
to a verdict that decodes the intact blocks: then it does not matter whose
verdict is remembered, or whether a later one overwrites it.
-/

namespace Steam2Fs
open Outcome

inductive BlockOp where
  | block (loc : FileLoc) (i : ℕ)
  | probe (loc : FileLoc)

namespace BlockOp

def loc : BlockOp → FileLoc
  | .block loc _ => loc
  | .probe loc => loc

def prog (d : Dump) : BlockOp → Proc Store (Outcome ReadError (Bytes ⊕ KeyResolution))
  | .block loc i => (do let v ← d.block loc i; pure (.inl v) : StoreCall (Bytes ⊕ KeyResolution))
  | .probe loc => (do let r ← d.probeKey loc; pure (.inr r) : StoreCall (Bytes ⊕ KeyResolution))

/-- The call offers a sample, and that sample leads to `r`. -/
def Asks (d : Dump) : BlockOp → KeyResolution → Prop
  | .block loc i, r => loc.record.mode.isEncrypted = true ∧
    ∃ x, loc.slot i = some x ∧ d.ownResolution loc i x = .ok r
  | .probe loc, r => ∃ x, loc.slot 0 = some x ∧ d.ownResolution loc 0 x = .ok r

end BlockOp

/-- Calls over files of one blob, whose blocks start at different offsets. -/
structure OneBlob (calls : Set BlockOp) (source : ℕ) : Prop where
  source : ∀ op ∈ calls, op.loc.source = source
  distinct : ∀ loc i x loc' i' x', .block loc i ∈ calls → .block loc' i' ∈ calls →
    loc.slot i = some x → loc'.slot i' = some x' → x.key = x'.key → loc = loc' ∧ i = i'

namespace Dump

/-- In every run of the calls, an encrypted block that a fresh store decodes is
answered with the same bytes. -/
def HistoryFree (d : Dump) (cacheDir : ℕ → Option Bytes) (calls : Set BlockOp) : Prop :=
  ∀ pool, Pool.Reachable (BlockOp.prog d) calls (fun _ _ => False) (Store.new d cacheDir) pool →
    ∀ loc i bytes, loc.record.mode.isEncrypted = true →
      ((d.block loc i).run (Store.new d cacheDir)).1 = .ok bytes →
        ∀ a, pool.Answered (.block loc i) a → a = .ok (.inl bytes)

/-- Whatever verdict a call of the run comes to on its own sample, it decodes
each encrypted block that decodes under the verdict of its own sample, and to
the same bytes. -/
def OneKey (d : Dump) (calls : Set BlockOp) : Prop :=
  ∀ op ∈ calls, ∀ r, op.Asks d r → ∀ loc i x, .block loc i ∈ calls →
    loc.record.mode.isEncrypted = true → loc.slot i = some x →
      ∀ own bytes, d.ownResolution loc i x = .ok own → d.blockUsing own loc i x = .ok bytes →
        d.blockUsing r loc i x = .ok bytes

section Fresh
variable {d : Dump} {cacheDir : ℕ → Option Bytes} {loc : FileLoc} {i : ℕ} {x : Slot}

theorem missingDatOf_ne_ok {α : Type} {v : α} : d.missingDatOf cacheDir loc ≠ .ok v := by
  intro h
  obtain ⟨e, -, h⟩ := bind_eq_ok.mp h
  obtain ⟨r, -, h⟩ := bind_eq_ok.mp h
  cases r with
  | ok p => cases h
  | error e => cases h

theorem block_fresh {bytes : Bytes}
    (h : ((d.block loc i).run (Store.new d cacheDir)).1 = .ok bytes) :
    ∃ x own, loc.slot i = some x ∧ d.ownResolution loc i x = .ok own ∧
      d.blockUsing own loc i x = .ok bytes := by
  cases hx : loc.slot i with
  | none =>
    rw [(block_answers_of_slot_none hx (.none 0)).run
      (BlockInv.new (K := fun _ _ => True) (B := fun _ _ => True) fun _ => trivial), blockOf,
      hx] at h
    dsimp only at h
    split at h
    · exact absurd h missingDatOf_ne_ok
    · cases h
  | some x =>
    have hw : d.Windows (Store.new d cacheDir) := by simp [Windows, Store.new, ByteLru.new]
    rw [block_run .new hw hx rfl] at h
    obtain ⟨own, hown⟩ := ownResolution_of_ok h
    refine ⟨x, own, rfl, hown, ?_⟩
    rwa [resolutionIn, hown] at h

end Fresh

section Runs
variable {d : Dump} {cacheDir : ℕ → Option Bytes} {calls : Set BlockOp} {source : ℕ}

def AskedFor (d : Dump) (calls : Set BlockOp) (source : ℕ) (o : Option KeyResolution) : Prop :=
  ∀ r ∈ o, ∃ op ∈ calls, op.loc.source = source ∧ op.Asks d r

def DecodedFor (d : Dump) (calls : Set BlockOp) (key : ℕ × UInt64) (v : Bytes) : Prop :=
  ∃ loc i x r, .block loc i ∈ calls ∧ loc.record.mode ≠ .plain ∧ loc.slot i = some x ∧
    x.key = key ∧ d.Admits (AskedFor d calls) loc i x r ∧ d.blockUsing r loc i x = .ok v

abbrev RunInv (d : Dump) (cacheDir : ℕ → Option Bytes) (calls : Set BlockOp) : Store → Prop :=
  d.BlockInv cacheDir (AskedFor d calls) (DecodedFor d calls)

theorem RunInv.new : d.RunInv cacheDir calls (Store.new d cacheDir) :=
  BlockInv.new fun _ => by simp [AskedFor]

theorem block_keeps_run {loc : FileLoc} {i : ℕ} {x : Slot} (hop : .block loc i ∈ calls)
    (hx : loc.slot i = some x) :
    (d.block loc i).Keeps (d.RunInv cacheDir calls) fun a =>
      (∃ v, DecodedFor d calls x.key v ∧ a = .ok v) ∨
        ∃ r, d.Admits (AskedFor d calls) loc i x r ∧ a = d.blockUsing r loc i x := by
  refine block_keeps hx (fun henc r hr _ r' hr' => ?_) fun hplain r v hr hv => ?_
  · cases hr'
    exact ⟨_, hop, rfl, henc, x, hx, hr⟩
  · exact ⟨loc, i, x, r, hop, hplain, hx, rfl, hr, hv⟩

theorem probeKey_keeps_run {loc : FileLoc} (hop : .probe loc ∈ calls) :
    (d.probeKey loc).Safe (d.RunInv cacheDir calls) := by
  refine probeKey_keeps fun x hx r hr _ r' hr' => ?_
  cases hr'
  exact ⟨_, hop, rfl, x, hx, hr⟩

theorem block_safe_run {loc : FileLoc} {i : ℕ} (hop : .block loc i ∈ calls) :
    (d.block loc i).Safe (d.RunInv cacheDir calls) := by
  cases hx : loc.slot i with
  | none => exact (block_answers_of_slot_none hx (.none 0)).safe
  | some x => exact (block_keeps_run hop hx).safe

theorem op_safe_run {op : BlockOp} (hop : op ∈ calls) :
    (op.prog d).Keeps (d.RunInv cacheDir calls) fun _ => True := by
  cases op with
  | block loc i => exact (block_safe_run hop).bind fun v => Call.safe_pure _
  | probe loc => exact (probeKey_keeps_run hop).bind fun r => Call.safe_pure _

theorem block_answers_of_oneKey (h : OneBlob calls source) (hkey : d.OneKey calls)
    {loc : FileLoc} {i : ℕ} (hop : .block loc i ∈ calls)
    (henc : loc.record.mode.isEncrypted = true) {bytes : Bytes}
    (hfresh : ((d.block loc i).run (Store.new d cacheDir)).1 = .ok bytes) :
    (d.block loc i).Answers (d.RunInv cacheDir calls) (.ok bytes) := by
  obtain ⟨x, own, hx, hown, hbytes⟩ := block_fresh hfresh
  have hadm {r : KeyResolution} (hr : d.Admits (AskedFor d calls) loc i x r) :
      d.blockUsing r loc i x = .ok bytes := by
    obtain ⟨op, hop', -, hasks⟩ := hr henc (by rw [hown]; rfl) r rfl
    exact hkey op hop' r hasks loc i x hop henc hx own bytes hown hbytes
  refine (block_keeps_run hop hx).mono fun a ha => ?_
  rcases ha with ⟨v, ⟨loc', i', x', r, hop', -, hx', hkey', hr, hv⟩, rfl⟩ | ⟨r, hr, rfl⟩
  · obtain ⟨rfl, rfl⟩ := h.distinct _ _ _ _ _ _ hop' hop hx' hx hkey'
    rw [hx] at hx'
    cases hx'
    rw [← hv, hadm hr]
  · exact hadm hr

theorem historyFree_of_oneKey (h : OneBlob calls source) (hkey : d.OneKey calls) :
    d.HistoryFree cacheDir calls := by
  have hprog : ∀ op ∈ calls, (op.prog d).Keeps (d.RunInv cacheDir calls) fun a =>
      ∀ loc i bytes, op = .block loc i → loc.record.mode.isEncrypted = true →
        ((d.block loc i).run (Store.new d cacheDir)).1 = .ok bytes → a = .ok (.inl bytes) := by
    intro op hop
    cases op with
    | probe loc =>
      exact Call.Keeps.mono (op_safe_run hop) fun a _ loc i bytes heq => by cases heq
    | block loc i =>
      by_cases hok : ∃ bytes, loc.record.mode.isEncrypted = true ∧
          ((d.block loc i).run (Store.new d cacheDir)).1 = .ok bytes
      · obtain ⟨bytes, henc, hfresh⟩ := hok
        have hans := (block_answers_of_oneKey h hkey hop henc hfresh).bind
          (g := fun v => .ok (Sum.inl v)) (f := fun v => pure (Sum.inl v : Bytes ⊕ KeyResolution))
          fun v _ => Call.answers_pure _
        refine Call.Keeps.mono hans fun a ha loc' i' bytes' heq _ hfresh' => ?_
        cases heq
        rw [hfresh] at hfresh'
        cases hfresh'
        exact ha
      · refine Call.Keeps.mono (op_safe_run hop) fun a _ loc' i' bytes heq henc hfresh => ?_
        cases heq
        exact absurd ⟨bytes, henc, hfresh⟩ hok
  intro pool hpool loc i bytes henc hfresh a ha
  exact hpool.answered hprog (fun _ _ hf => hf.elim) RunInv.new ha loc i bytes rfl henc hfresh

/-! ### A verdict that does not fit is remembered -/

theorem resolveKey_remembers {entry : BlobEntry} (hentry : d.index.blobs[source]? = some entry)
    (sample : Sample) (s : Store) :
    (((d.resolveKey source sample).run s).2.resolvedKeys source).isSome = true := by
  unfold resolveKey
  rw [Call.run_bind, Call.run_read]
  dsimp only
  cases hr : s.resolvedKeys source with
  | some r => simp [hr]
  | none =>
    rw [blob_eq_ok.mpr hentry]
    simp [Call.run_bind]

def Remembers (source : ℕ) (s : Store) : Prop := (s.resolvedKeys source).isSome = true

theorem loadBlock_remembers {loc : FileLoc} {i : ℕ} {x : Slot}
    (henc : loc.record.mode.isEncrypted = true) {own : KeyResolution}
    (hown : d.ownResolution loc i x = .ok own) {s : Store} (hs : d.RunInv cacheDir calls s) :
    Remembers loc.source ((d.loadBlock loc i x.dat x.block x.start x.stop).run s).2 := by
  obtain ⟨sample, hsample, hown⟩ := bind_eq_ok.mp hown
  obtain ⟨raw, hraw, -⟩ := bind_eq_ok.mp hsample
  obtain ⟨entry, hentry, -⟩ := bind_eq_ok.mp hown
  have hstored := (storedBytes_answers loc i x).run hs
  rw [hraw] at hstored
  unfold loadBlock
  rw [Call.run_bind]
  rcases hrun : (d.storedBytes loc i x.dat x.start x.stop).run s with ⟨r, s'⟩
  rw [hrun] at hstored
  subst hstored
  dsimp only
  rw [hentry, Call.run_bind, Call.run_lift]
  dsimp only
  refine Call.Within.run_bind ?_ fun key => (Call.within_lift _).bind fun v => ?_
  · unfold blockKey
    rw [if_pos henc]
    refine Call.Within.run_bind (resolveKey_remembers (blob_eq_ok.mp hentry) _ _) fun r => ?_
    exact (Call.within_lift _).bind fun _ => Call.within_pure _
  · refine Call.Within.bind ?_ fun _ => Call.within_pure _
    unfold keepBlock
    split_ifs
    · exact Call.within_atomic fun s hs => hs
    · exact Call.within_pure _

theorem op_remembers {op : BlockOp} {r : KeyResolution} (h : op.Asks d r) :
    Remembers op.loc.source ((op.prog d).run (Store.new d cacheDir)).2 := by
  cases op with
  | block loc i =>
    obtain ⟨henc, x, hx, hown⟩ := h
    obtain ⟨hdat, hb, hspan⟩ := FileLoc.slot_eq_some.mp hx
    have hblock : Remembers loc.source ((d.block loc i).run (Store.new d cacheDir)).2 := by
      unfold block
      simp only [hdat, hb, hspan]
      rw [Call.run_bind]
      exact loadBlock_remembers henc hown (RunInv.new : d.RunInv cacheDir ∅ _)
    exact Call.Within.run_bind hblock fun _ => Call.within_pure _
  | probe loc =>
    obtain ⟨x, hx, hown⟩ := h
    obtain ⟨hdat, hb, hspan⟩ := FileLoc.slot_eq_some.mp hx
    obtain ⟨sample, hsample, hown⟩ := bind_eq_ok.mp hown
    obtain ⟨raw, hraw, -⟩ := bind_eq_ok.mp hsample
    obtain ⟨entry, hentry, -⟩ := bind_eq_ok.mp hown
    have hstored := (storedBytes_answers loc 0 x).run (RunInv.new : d.RunInv cacheDir ∅ _)
    rw [hraw] at hstored
    have hprobe : Remembers loc.source ((d.probeKey loc).run (Store.new d cacheDir)).2 := by
      unfold probeKey
      simp only [hdat, List.head?_eq_getElem?, hb, hspan]
      rw [Call.run_bind]
      rcases hrun : (d.storedBytes loc 0 x.dat x.start x.stop).run (Store.new d cacheDir) with
        ⟨a, s'⟩
      rw [hrun] at hstored
      subst hstored
      exact resolveKey_remembers (blob_eq_ok.mp hentry) _ _
    exact Call.Within.run_bind hprobe fun _ => Call.within_pure _

theorem asks_unique {op : BlockOp} {r r' : KeyResolution} (h : op.Asks d r) (h' : op.Asks d r') :
    r = r' := by
  cases op with
  | block loc i =>
    obtain ⟨-, x, hx, hr⟩ := h
    obtain ⟨-, x', hx', hr'⟩ := h'
    rw [hx] at hx'
    cases hx'
    rw [hr] at hr'
    exact Outcome.ok.inj hr'
  | probe loc =>
    obtain ⟨x, hx, hr⟩ := h
    obtain ⟨x', hx', hr'⟩ := h'
    rw [hx] at hx'
    cases hx'
    rw [hr] at hr'
    exact Outcome.ok.inj hr'

theorem after_asking {op : BlockOp} {r : KeyResolution} (h : op.Asks d r) {loc : FileLoc} {i : ℕ}
    {x : Slot} (hsource : loc.source = op.loc.source) (hx : loc.slot i = some x)
    (hother : ∀ loc' i' x', op = .block loc' i' → loc'.slot i' = some x' → x'.key ≠ x.key) :
    ((d.block loc i).run ((op.prog d).run (Store.new d cacheDir)).2).1 =
      d.blockUsing r loc i x := by
  have hsafe : (op.prog d).Keeps (d.RunInv cacheDir {op}) fun _ => True :=
    op_safe_run (Set.mem_singleton op)
  have hinv := (hsafe.run RunInv.new).2
  have hrem : Remembers op.loc.source ((op.prog d).run (Store.new d cacheDir)).2 := op_remembers h
  obtain ⟨r', hr'⟩ := Option.isSome_iff_exists.mp hrem
  obtain ⟨op', hop', -, hasks⟩ := hinv.2.keys op.loc.source r' hr'
  rw [Set.mem_singleton_iff.mp hop'] at hasks
  cases asks_unique h hasks
  have hmiss : (((op.prog d).run (Store.new d cacheDir)).2.blocks.get x.key).1 = none := by
    refine Lru.get_eq_none fun e he => ?_
    obtain ⟨loc', i', x', -, hop', -, hx', hkey, -⟩ := hinv.2.blocks e he
    rw [← hkey]
    exact hother loc' i' x' (Set.mem_singleton_iff.mp hop').symm hx'
  rw [block_run hinv.1 hinv.2.windows hx hmiss, resolutionIn, hsource, hr']

theorem oneKey_of_historyFree (h : OneBlob calls source) (hfree : d.HistoryFree cacheDir calls) :
    d.OneKey calls := by
  intro op hop r hasks loc i x hblock henc hx own bytes hown hbytes
  have hfresh : ((d.block loc i).run (Store.new d cacheDir)).1 = .ok bytes := by
    have hw : d.Windows (Store.new d cacheDir) := by simp [Windows, Store.new, ByteLru.new]
    rw [block_run .new hw hx rfl, resolutionIn, hown]
    exact hbytes
  by_cases hsame : op = .block loc i
  · subst hsame
    cases asks_unique hasks ⟨henc, x, hx, hown⟩
    exact hbytes
  · have hsource : loc.source = op.loc.source := by
      rw [h.source _ hop]
      exact h.source _ hblock
    have hother : ∀ loc' i' x', op = .block loc' i' → loc'.slot i' = some x' →
        x'.key ≠ x.key := by
      rintro loc' i' x' rfl hx' hkey
      obtain ⟨rfl, rfl⟩ := h.distinct _ _ _ _ _ _ hop hblock hx' hx hkey
      exact hsame rfl
    have hrun : ((d.block loc i).run ((op.prog d).run (Store.new d cacheDir)).2).1 = _ :=
      after_asking hasks hsource hx hother
    obtain ⟨pool, hpool, hans⟩ := Pool.Reachable.second_call (Store.new d cacheDir) hop hblock
    have hresult := hfree pool hpool loc i bytes henc hfresh _ hans
    have hprog : ((BlockOp.prog d (.block loc i)).run ((op.prog d).run (Store.new d cacheDir)).2).1 =
        Sum.inl <$> d.blockUsing r loc i x := by
      rw [← hrun]
      change (Call.run (d.block loc i >>= fun v => pure (Sum.inl v)) _).1 = _
      rw [Call.run_bind]
      rcases Call.run (d.block loc i) ((op.prog d).run (Store.new d cacheDir)).2 with ⟨a, s'⟩
      cases a <;> rfl
    rw [hprog, map_eq_ok] at hresult
    obtain ⟨v, hv, heq⟩ := hresult
    cases heq
    exact hv

/-- Over the files of one blob, reads of encrypted blocks do not depend on what
was read before or is being read exactly when the samples agree on a key. -/
theorem historyFree_iff_oneKey (d : Dump) (cacheDir : ℕ → Option Bytes) (calls : Set BlockOp)
    (source : ℕ) (h : OneBlob calls source) : d.HistoryFree cacheDir calls ↔ d.OneKey calls :=
  ⟨oneKey_of_historyFree h, historyFree_of_oneKey h⟩

end Runs
end Dump

section Sample
open Dump

def zeroKey : Key := Vector.replicate 16 0

def intactRecord : FileRecord := ⟨8, .encrypted, 0, 4, [⟨4, Chunk.checksum [1, 2, 3, 4]⟩]⟩

def damagedRecord : FileRecord := ⟨7, .compressedEncrypted, 4, 4, [⟨4, 0⟩]⟩

/-- A blob with a configured key; the second file reads as zeros in the dat. -/
def halfDamaged : MemoryDump where
  blobs := [("5_1_000000aa_x.blob".toList,
    (VersionImage.flat [intactRecord, damagedRecord] 8 none).encode)]
  dats := [("5_1_00000005_x.dat".toList, [0x67, 0xeb, 0x48, 0xd0, 0, 0, 0, 0])]
  keys := ⟨[(5, zeroKey)], [], [], List.nodup_singleton _, List.nodup_nil, .nil⟩
  cfg := .plain

theorem intact_historyFree :
    OneBlob {.block (firstLoc intactRecord) 0, .probe (firstLoc intactRecord)} 0 ∧
      halfDamaged.dump.HistoryFree (fun _ => none)
        {.block (firstLoc intactRecord) 0, .probe (firstLoc intactRecord)} := by
  have hblob : OneBlob {.block (firstLoc intactRecord) 0, .probe (firstLoc intactRecord)} 0 := by
    refine ⟨by rintro op (rfl | rfl) <;> rfl, ?_⟩
    rintro loc i x loc' i' x' (hl | hl) (hl' | hl') - - -
    · cases hl
      cases hl'
      exact ⟨rfl, rfl⟩
    all_goals simp_all
  refine ⟨hblob, (historyFree_iff_oneKey _ _ _ 0 hblob).mpr ?_⟩
  rintro op hop r hasks loc i x (hl | hl) - hx own bytes hown hbytes
  · cases hl
    have hr : halfDamaged.dump.ownResolution (firstLoc intactRecord) 0 x = .ok r := by
      rcases hop with rfl | rfl
      · obtain ⟨-, x', hx', hr⟩ := hasks
        rw [hx] at hx'
        cases hx'
        exact hr
      · obtain ⟨x', hx', hr⟩ := hasks
        rw [hx] at hx'
        cases hx'
        exact hr
    rw [hown] at hr
    cases hr
    exact hbytes
  · simp at hl

set_option maxRecDepth 20000 in
theorem halfDamaged_not_historyFree :
    OneBlob {.block (firstLoc intactRecord) 0, .block (firstLoc damagedRecord) 0} 0 ∧
      ((halfDamaged.dump.locate 0 8).run (Store.new halfDamaged.dump fun _ => none)).1 =
        .ok (firstLoc intactRecord) ∧
      ((halfDamaged.dump.locate 0 7).run (Store.new halfDamaged.dump fun _ => none)).1 =
        .ok (firstLoc damagedRecord) ∧
      ¬ halfDamaged.dump.HistoryFree (fun _ => none)
        {.block (firstLoc intactRecord) 0, .block (firstLoc damagedRecord) 0} := by
  refine ⟨⟨by rintro op (rfl | rfl) <;> rfl, ?_⟩, by decide +kernel, by decide +kernel, ?_⟩
  · rintro loc i x loc' i' x' (hl | hl) (hl' | hl') hx hx' hkey <;> cases hl <;> cases hl'
    · exact ⟨rfl, rfl⟩
    · cases hx
      cases hx'
      exact absurd hkey (by decide)
    · cases hx
      cases hx'
      exact absurd hkey (by decide)
    · exact ⟨rfl, rfl⟩
  · intro hfree
    have hfresh : ((halfDamaged.dump.block (firstLoc intactRecord) 0).run
        (Store.new halfDamaged.dump fun _ => none)).1 = .ok [1, 2, 3, 4] := by decide +kernel
    have hafter : ((BlockOp.prog halfDamaged.dump (.block (firstLoc intactRecord) 0)).run
        ((BlockOp.prog halfDamaged.dump (.block (firstLoc damagedRecord) 0)).run
          (Store.new halfDamaged.dump fun _ => none)).2).1 = .err (.noKey 5) := by decide +kernel
    have hdamaged : BlockOp.block (firstLoc damagedRecord) 0 ∈ ({.block (firstLoc intactRecord) 0,
        .block (firstLoc damagedRecord) 0} : Set BlockOp) := Or.inr rfl
    have hintact : BlockOp.block (firstLoc intactRecord) 0 ∈ ({.block (firstLoc intactRecord) 0,
        .block (firstLoc damagedRecord) 0} : Set BlockOp) := Or.inl rfl
    obtain ⟨pool, hpool, hans⟩ := Pool.Reachable.second_call
      (Store.new halfDamaged.dump fun _ => none) hdamaged hintact
    have hresult := hfree pool hpool _ 0 _ rfl hfresh _ hans
    rw [hafter] at hresult
    cases hresult

end Sample
end Steam2Fs
