import Steam2Fs.Audit
import Steam2Fs.StoreCache
import Steam2Fs.StoreSequence
import Steam2Fs.StoreTops

/-!
# What an audit finds

The record that is probed is one of the blob's own, so the key is probed in
the blob's own dat and a blob is audited on its own. What is found of a blob is
a function of the dump, and the report, the list of keys and the counts of any
run are the sums of what is found of each blob.
-/

namespace Steam2Fs
open Outcome

namespace Dump
variable (d : Dump) (cacheDir : ℕ → Option Bytes)

/-! ### The key of a blob -/

def probeOf (loc : FileLoc) : Outcome ReadError KeyResolution :=
  match loc.slot 0 with
  | some x => d.ownResolution loc 0 x
  | none => match loc.dat with
    | none => d.missingDatOf cacheDir loc
    | some _ => .err (.noBlocksToProbe loc.record.fileId)

def probedKey (id : ℕ) (r : FileRecord) : Outcome ReadError KeyResolution := do
  let loc ← d.locateOwn cacheDir id r.fileId
  d.probeOf cacheDir loc

section Probes
variable {d cacheDir} {K : ℕ → Option KeyResolution → Prop} {B : ℕ × UInt64 → Bytes → Prop}
  {loc : FileLoc}

theorem probeKey_answers (hask : ∀ k, d.probeOf cacheDir loc = .ok k → K loc.source (some k))
    (hkept : ∀ k, K loc.source (some k) → d.probeOf cacheDir loc = .ok k) :
    (d.probeKey loc).Answers (d.BlockInv cacheDir K B) (d.probeOf cacheDir loc) := by
  unfold probeKey
  split
  · next hdat =>
    have hslot : loc.slot 0 = none := by simp [FileLoc.slot, hdat]
    have hprobe : d.probeOf cacheDir loc = d.missingDatOf cacheDir loc := by
      simp [probeOf, hslot, hdat]
    rw [hprobe]
    exact missingDat_answers loc
  · next dat hdat =>
    split
    · next b start stop hb hspan =>
      have hslot : loc.slot 0 = some ⟨dat, b, start, stop⟩ := by
        rw [List.head?_eq_getElem?] at hb
        exact FileLoc.slot_eq_some.mpr ⟨hdat, hb, hspan⟩
      have hprobe : d.probeOf cacheDir loc = d.ownResolution loc 0 ⟨dat, b, start, stop⟩ := by
        simp [probeOf, hslot]
      have hstored : (d.storedBytes loc 0 dat start stop).Answers (d.BlockInv cacheDir K B)
          (d.storedBlock loc 0 ⟨dat, b, start, stop⟩) :=
        storedBytes_answers loc 0 ⟨dat, b, start, stop⟩
      refine Call.Keeps.bind hstored (fun raw hraw => ?_) (fun e he => ?_) fun hp => ?_
      rotate_left
      · rw [hprobe]
        simp [ownResolution, sampleOf, ← he]
      · rw [hprobe]
        simp [ownResolution, sampleOf, ← hp]
      have hown {entry : BlobEntry} (hentry : d.index.blobs[loc.source]? = some entry) :
          d.probeOf cacheDir loc =
            .ok (d.resolution entry ⟨loc.record.mode, raw, b.checksum⟩) := by
        rw [hprobe]
        simp [ownResolution, sampleOf, ← hraw, blob_eq_ok.mpr hentry]
      refine (resolveKey_keeps fun entry hentry _ => hask _ (hown hentry)).mono fun a ha => ?_
      cases a with
      | ok k => exact (hkept k ha).symm
      | err e => exact ha.elim
      | panic =>
        have hblob : (d.blob loc.source : Outcome ReadError BlobEntry) = .panic := by
          unfold blob
          rw [ha]
        rw [hprobe]
        simp [ownResolution, sampleOf, ← hraw, hblob]
    · next hnone =>
      have hslot : loc.slot 0 = none := by
        cases hx : loc.slot 0 with
        | none => rfl
        | some x =>
          obtain ⟨-, hb, hspan⟩ := FileLoc.slot_eq_some.mp hx
          rw [← List.head?_eq_getElem?] at hb
          exact (hnone _ _ _ hb hspan).elim
      have hprobe : d.probeOf cacheDir loc = .err (.noBlocksToProbe loc.record.fileId) := by
        simp [probeOf, hslot, hdat]
      rw [hprobe]
      exact Call.answers_lift _

theorem TopInv.blockLocal : d.BlockLocal (d.TopInv cacheDir) where
  parsed := fun id => (parsed_answers_tops id).safe
  raw := fun _ _ hs => ⟨hs.1.of_eq (fun _ he => he) rfl, hs.2⟩
  blocks := fun _ _ hs => ⟨hs.1.of_eq (fun _ he => he) rfl, hs.2⟩
  resolvedKeys := fun _ _ hs => ⟨hs.1.of_eq (fun _ he => he) rfl, hs.2⟩

end Probes

/-- What is remembered of a blob is what its own audit finds. -/
def OwnKey (source : ℕ) (o : Option KeyResolution) : Prop :=
  ∀ k ∈ o, ∃ p r, d.loaded cacheDir source = .ok p ∧ p.records.find? Audit.probed = some r ∧
    d.probedKey cacheDir source r = .ok k

def AuditInv (s : Store) : Prop :=
  d.BlockInv cacheDir (d.OwnKey cacheDir) (fun _ _ => True) s ∧ d.TopInv cacheDir s

section Inv
variable {d cacheDir} {id : ℕ}

theorem AuditInv.new : d.AuditInv cacheDir (Store.new d cacheDir) :=
  ⟨BlockInv.new fun _ => nofun, .new, fun _ he => absurd he List.not_mem_nil⟩

theorem parsed_answers_audit (id : ℕ) :
    (d.parsed id).Answers (d.AuditInv cacheDir) (d.loaded cacheDir id) :=
  (Proc.Keeps.and (parsed_answers_blocks id) (parsed_answers_tops id)).mono fun _ h => h.1

theorem locate_answers_audit (hn : d.index.blobs.length ≤ CHAIN_LIMIT)
    (hid : id < d.index.blobs.length) {p : ParsedBlob} (hp : d.loaded cacheDir id = .ok p)
    {r : FileRecord} (hr : r ∈ p.records) :
    (d.locate id r.fileId).Answers (d.AuditInv cacheDir) (d.locateOwn cacheDir id r.fileId) :=
  (Proc.Keeps.and (BlockInv.tableLocal.locate_safe id r.fileId)
    (locate_answers_tops hn hid hp hr)).mono fun _ h => h.2

theorem probeKey_answers_audit (hid : id < d.index.blobs.length) {p : ParsedBlob}
    (hp : d.loaded cacheDir id = .ok p) {r : FileRecord}
    (hr : p.records.find? Audit.probed = some r) {loc : FileLoc}
    (hloc : d.locateOwn cacheDir id r.fileId = .ok loc) :
    (d.probeKey loc).Answers (d.AuditInv cacheDir) (d.probeOf cacheDir loc) := by
  obtain ⟨entry, r', hlook, -⟩ := layerOf_own hp hid (List.mem_of_find?_eq_some hr)
  have hsource : loc.source = id := by
    obtain ⟨l, -, hget⟩ := bind_eq_ok.mp hloc
    rw [hlook] at hget
    cases hget
    rfl
  have hprobed : d.probedKey cacheDir id r = d.probeOf cacheDir loc := by
    rw [probedKey, hloc, ok_bind]
  have hblock : (d.probeKey loc).Answers
      (d.BlockInv cacheDir (d.OwnKey cacheDir) fun _ _ => True) (d.probeOf cacheDir loc) := by
    refine probeKey_answers (fun k hk => ?_) fun k hk => ?_
    · intro k' hk'
      cases hk'
      rw [hsource]
      exact ⟨p, r, hp, hr, hprobed.trans hk⟩
    · rw [hsource] at hk
      obtain ⟨p', r', hp', hr', hfound⟩ := hk k rfl
      rw [hp] at hp'
      cases hp'
      rw [hr] at hr'
      cases hr'
      exact hprobed.symm.trans hfound
  exact (Proc.Keeps.and hblock (TopInv.blockLocal.probeKey_safe loc)).mono fun _ h => h.1

end Inv
end Dump

/-! ### What a blob adds -/

abbrev Ledger := Multiset Text.Str × Multiset Discovered × (Tally → ℕ)

namespace Audit

def ledger (v : Audit) : Ledger := (v.report, v.discovered, v.counts)

def one (t : Tally) : Ledger := (0, 0, Pi.single t 1)

def keyLedger (entry : BlobEntry) : Except ReadError KeyResolution → Ledger
  | .ok (.configured _) => one .ok
  | .ok (.discovered key source) =>
    one .discovered + ({discoveredLine entry source},
      {⟨entry.fileName, entry.depot, entry.crc, key, source⟩}, 0)
  | .ok (.none tried) => one .noKey + ({noKeyLine entry tried}, 0, 0)
  | .error e => one .unreadable + ({unreadableLine entry e}, 0, 0)

/-- A share for an answer; a call that panics is stuck. -/
def owed (entry : BlobEntry) : Outcome ReadError KeyResolution → Ledger × ℕ
  | .ok k => (keyLedger entry (.ok k), 0)
  | .err e => (keyLedger entry (.error e), 0)
  | .panic => (0, 1)

def recordsShare (d : Dump) (cacheDir : ℕ → Option Bytes) (id : ℕ) (entry : BlobEntry)
    (p : ParsedBlob) : Ledger × ℕ :=
  match p.records.find? probed with
  | none => 0
  | some r => (one .encryptedBlobs, 0) + owed entry (d.probedKey cacheDir id r)

def share (d : Dump) (cacheDir : ℕ → Option Bytes) (id : ℕ) : Ledger × ℕ :=
  match d.index.blobs[id]? with
  | none => (0, 1)
  | some entry => match d.loaded cacheDir id with
    | .ok p => recordsShare d cacheDir id entry p
    | .err e => owed entry (.err e)
    | .panic => (0, 1)

section Owing
variable {d : Dump} {cacheDir : ℕ → Option Bytes} {I : Store → Prop}

abbrev Owes (I : Store → Prop) (x : Call Audit ReadError Unit) (a : Ledger × ℕ) : Prop :=
  x.Owing (fun v => I v.store) (fun v => (v.ledger, 0)) (fun _ => 0) Workers.Left a

/-- A change that adds `b` to the ledger and leaves the store alone. -/
def Adds (g : Audit → Audit) (b : Ledger) : Prop :=
  ∀ v, (g v).store = v.store ∧ (g v).ledger = v.ledger + b

theorem Adds.owes {g : Audit → Audit} {b : Ledger} (hg : Adds g b) :
    Owes I (Call.modify g) (b, 0) := by
  refine Call.owing_atomic fun v hv => ⟨?_, 0, Or.inl ⟨rfl, rfl⟩, ?_⟩
  · rw [(hg v).1]
    exact hv
  · dsimp only
    rw [(hg v).2]
    simp

theorem Adds.andThen {g : Audit → Audit} {b : Ledger} (hg : Adds g b)
    {y : Call Audit ReadError Unit} {a : Ledger × ℕ} (hy : Owes I y a) :
    Owes I (Call.modify g >>= fun _ => y) ((b, 0) + a) := by
  refine Call.Owing.bind_atomic fun v hv => ⟨?_, a, hy, ?_⟩
  · rw [(hg v).1]
    exact hv
  · have hsum : ((v.ledger + b, 0) : Ledger × ℕ) = (v.ledger, 0) + (b, 0) := by simp
    dsimp only
    rw [(hg v).2, hsum, add_assoc (v.ledger, 0)]

theorem count_adds (t : Tally) :
    Adds (fun v => { v with counts := v.counts + Pi.single t 1 }) (one t) :=
  fun v => ⟨rfl, by simp [ledger, one]⟩

theorem push_adds (line : Text.Str) :
    Adds (fun v => { v with report := v.report ++ [line] }) ({line}, 0, 0) :=
  fun v => ⟨rfl, by simp [ledger, ← Multiset.coe_add]⟩

theorem keep_adds (x : Discovered) :
    Adds (fun v => { v with discovered := v.discovered ++ [x] }) (0, {x}, 0) :=
  fun v => ⟨rfl, by simp [ledger, ← Multiset.coe_add]⟩

theorem tell_owes (entry : BlobEntry) (found : Except ReadError KeyResolution) :
    Owes I (tell entry found) (keyLedger entry found, 0) := by
  cases found with
  | error e => exact (count_adds .unreadable).andThen (push_adds _).owes
  | ok k =>
    cases k with
    | configured key => exact (count_adds .ok).owes
    | none tried => exact (count_adds .noKey).andThen (push_adds _).owes
    | discovered key source =>
      have h : Owes I (tell entry (.ok (.discovered key source))) _ :=
        (count_adds .discovered).andThen
          ((push_adds (discoveredLine entry source)).andThen
            (keep_adds ⟨entry.fileName, entry.depot, entry.crc, key, source⟩).owes)
      simpa [keyLedger] using h

theorem unreadable_owes (entry : BlobEntry) (e : ReadError) :
    Owes I (do push (unreadableLine entry e); count .unreadable)
      (keyLedger entry (.error e), 0) := by
  have hcount : Owes I (count .unreadable) (one .unreadable, 0) := (count_adds .unreadable).owes
  have h := (push_adds (unreadableLine entry e)).andThen hcount
  rw [add_comm] at h
  exact h

theorem onStore_owes {α : Type} {x : StoreCall α} {r : Outcome ReadError α}
    (hx : x.Answers I r) {f : Except ReadError α → Call Audit ReadError Unit} {a : Ledger × ℕ}
    (hok : ∀ y, r = .ok y → Owes I (f (.ok y)) a)
    (herr : ∀ e, r = .err e → Owes I (f (.error e)) a) (hpanic : r = .panic → 0 < a.2) :
    Owes I ((onStore x).attempt >>= f) a := by
  have hon : (onStore x).Answers (fun v => I v.store) r := Proc.Keeps.on (fun _ _ => rfl) hx
  have hattempt : ((onStore x).attempt : Call Audit ReadError (Except ReadError α)).Answers
      (fun v => I v.store) r.attempt := hon.attempt
  refine Call.Owing.answered hattempt ?_ (fun y hy => ?_) (fun e he => ?_) fun hp => ?_
  · exact Call.Within.attempt (Proc.within_on (fun _ _ => ⟨rfl, rfl⟩) _)
  · cases r with
    | ok y' => cases hy; exact hok y' rfl
    | err e => cases hy; exact herr e rfl
    | panic => cases hy
  · cases r with
    | ok y' => cases he
    | err e' => cases he
    | panic => cases he
  · cases r with
    | ok y' => cases hp
    | err e' => cases hp
    | panic => exact Or.inr ⟨rfl, hpanic rfl⟩

theorem auditBlob_owes (hn : d.index.blobs.length ≤ CHAIN_LIMIT) (id : ℕ) :
    Owes (d.AuditInv cacheDir) (auditBlob d id) (share d cacheDir id) := by
  unfold auditBlob share
  cases hentry : d.index.blobs[id]? with
  | none =>
    have hblob : (d.blob id : Outcome ReadError BlobEntry) = .panic := by
      unfold Dump.blob
      rw [hentry]
    rw [hblob]
    exact Or.inr ⟨rfl, Nat.one_pos⟩
  | some entry =>
    have hid := (List.getElem?_eq_some_iff.mp hentry).1
    rw [Dump.blob_eq_ok.mpr hentry]
    refine onStore_owes (Dump.parsed_answers_audit id) (fun p hp => ?_) (fun e he => ?_)
      fun hp => ?_
    · rw [hp]
      dsimp only
      unfold recordsShare
      cases hr : p.records.find? probed with
      | none => exact Or.inl ⟨rfl, rfl⟩
      | some r =>
        refine (count_adds .encryptedBlobs).andThen ?_
        have hlocate := Dump.locate_answers_audit hn hid hp (List.mem_of_find?_eq_some hr)
        refine onStore_owes hlocate (fun loc hloc => ?_) (fun e he => ?_) fun hpanic => ?_
        · have hprobed : d.probedKey cacheDir id r = d.probeOf cacheDir loc := by
            rw [Dump.probedKey, hloc, ok_bind]
          rw [hprobed]
          refine onStore_owes (Dump.probeKey_answers_audit hid hp hr hloc) (fun k hk => ?_)
            (fun e he => ?_) fun hpanic => ?_
          · rw [hk]
            exact tell_owes entry (.ok k)
          · rw [he]
            exact tell_owes entry (.error e)
          · rw [hpanic]
            exact Nat.one_pos
        · have hprobed : d.probedKey cacheDir id r = .err e := by
            rw [Dump.probedKey, he, err_bind]
          rw [hprobed]
          exact unreadable_owes entry e
        · have hprobed : d.probedKey cacheDir id r = .panic := by
            rw [Dump.probedKey, hpanic, panic_bind]
          rw [hprobed]
          exact Nat.one_pos
    · rw [he]
      exact unreadable_owes entry e
    · rw [hp]
      exact Nat.one_pos

end Owing
end Audit
end Steam2Fs
