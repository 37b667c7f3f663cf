import Steam2Fs.AuditFindings
import Steam2Fs.StoreHistory

/-!
# Audits with any number of workers

Every run of `key-audit` that ends has printed the same lines and counted the
same, and has discovered the same keys, up to the order in which they were
written. Each of these keys comes from the keys that are known, decrypts the
block it was probed with, and belongs to a blob whose configured key, if it
has one, does not.
-/

namespace Steam2Fs
open Outcome

namespace Audit
variable {d : Dump} {cacheDir : ℕ → Option Bytes} {depot : Option UInt32}

/-- The key that an audit discovers for a blob. -/
def FoundFor (d : Dump) (cacheDir : ℕ → Option Bytes) (id : ℕ) (x : Discovered) : Prop :=
  ∃ entry p r, d.index.blobs[id]? = some entry ∧ d.loaded cacheDir id = .ok p ∧
    p.records.find? probed = some r ∧
    d.probedKey cacheDir id r = .ok (.discovered x.key x.source) ∧
    x.fileName = entry.fileName ∧ x.depot = entry.depot ∧ x.crc = entry.crc

theorem mem_keyLedger {entry : BlobEntry} {found : Except ReadError KeyResolution}
    {x : Discovered} : x ∈ (keyLedger entry found).2.1 ↔
      found = .ok (.discovered x.key x.source) ∧ x.fileName = entry.fileName ∧
        x.depot = entry.depot ∧ x.crc = entry.crc := by
  cases found with
  | error e => simp [keyLedger, one]
  | ok k =>
    cases k with
    | configured key => simp [keyLedger, one]
    | none tried => simp [keyLedger, one]
    | discovered key source =>
      obtain ⟨name, depot, crc, key', source'⟩ := x
      simp only [keyLedger, one, Prod.snd_add, Prod.fst_add, zero_add, Multiset.mem_singleton,
        Discovered.mk.injEq, Except.ok.injEq, KeyResolution.discovered.injEq]
      constructor
      · rintro ⟨rfl, rfl, rfl, rfl, rfl⟩
        exact ⟨⟨rfl, rfl⟩, rfl, rfl, rfl⟩
      · rintro ⟨⟨rfl, rfl⟩, rfl, rfl, rfl⟩
        exact ⟨rfl, rfl, rfl, rfl, rfl⟩

theorem mem_owed {entry : BlobEntry} {a : Outcome ReadError KeyResolution} {x : Discovered} :
    x ∈ (owed entry a).1.2.1 ↔ a = .ok (.discovered x.key x.source) ∧
      x.fileName = entry.fileName ∧ x.depot = entry.depot ∧ x.crc = entry.crc := by
  cases a with
  | ok k => simp [owed, mem_keyLedger]
  | err e => simp [owed, mem_keyLedger]
  | panic => simp [owed]

theorem mem_share {id : ℕ} {x : Discovered} :
    x ∈ (share d cacheDir id).1.2.1 ↔ FoundFor d cacheDir id x := by
  unfold share FoundFor
  cases hentry : d.index.blobs[id]? with
  | none => simp
  | some entry =>
    cases hp : d.loaded cacheDir id with
    | panic => simp
    | err e => simp [mem_owed]
    | ok p =>
      have hshare : x ∈ (recordsShare d cacheDir id entry p).1.2.1 ↔
          ∃ r, p.records.find? probed = some r ∧
            x ∈ (owed entry (d.probedKey cacheDir id r)).1.2.1 := by
        unfold recordsShare
        cases hr : p.records.find? probed with
        | none => simp
        | some r => simp [one]
      simp [hshare, mem_owed]

theorem mem_shares {ids : List ℕ} {x : Discovered} :
    x ∈ (ids.map (share d cacheDir)).sum.1.2.1 ↔ ∃ id ∈ ids, FoundFor d cacheDir id x := by
  induction ids with
  | nil => simp
  | cons id ids ih => simp [ih, mem_share]

theorem fixed (hn : d.index.blobs.length ≤ CHAIN_LIMIT) (ids : List ℕ) :
    Workers.Fixed ids (auditBlob d) (fun v => d.AuditInv cacheDir v.store) ledger
      (share d cacheDir) :=
  fun id _ => auditBlob_owes hn id

theorem settled (hn : d.index.blobs.length ≤ CHAIN_LIMIT) {jobs : ℕ} {v : Audit}
    (h : d.Audits cacheDir depot jobs v) : d.AuditInv cacheDir v.store ∧
      (v.ledger, 0) = ((d.auditBlobs depot).map (share d cacheDir)).sum :=
  Workers.Ends.settled (fixed hn _) rfl Dump.AuditInv.new h

theorem lines_sorted (l : List Text.Str) :
    (l.insertionSort fun a b => a.map Char.toNat ≤ b.map Char.toNat).Pairwise
      fun a b => a.map Char.toNat ≤ b.map Char.toNat :=
  List.pairwise_insertionSort _ _

theorem codes_injective : Function.Injective fun l : Text.Str => l.map Char.toNat :=
  List.map_injective_iff.mpr fun _ _ h => Char.toNat_inj.mp h

theorem printed_of_ledger {v v' : Audit} (h : v.ledger = v'.ledger) (out : Text.Str) :
    v.printed out = v'.printed out := by
  have hreport : v.report.Perm v'.report := Multiset.coe_eq_coe.mp (congrArg Prod.fst h)
  have hfound : v.discovered.Perm v'.discovered :=
    Multiset.coe_eq_coe.mp (congrArg (fun l : Ledger => l.2.1) h)
  have hcounts : v.counts = v'.counts := congrArg (fun l : Ledger => l.2.2) h
  have hsorted : (v.report.insertionSort fun a b => a.map Char.toNat ≤ b.map Char.toNat) =
      v'.report.insertionSort fun a b => a.map Char.toNat ≤ b.map Char.toNat := by
    have hperm := ((List.perm_insertionSort (fun a b : Text.Str =>
      a.map Char.toNat ≤ b.map Char.toNat) v.report).trans hreport).trans
        (List.perm_insertionSort (fun a b : Text.Str =>
          a.map Char.toNat ≤ b.map Char.toNat) v'.report).symm
    exact hperm.eq_of_pairwise (fun a b _ _ hab hba => codes_injective (le_antisymm hab hba))
      (lines_sorted _) (lines_sorted _)
  have hempty : v.discovered.isEmpty = v'.discovered.isEmpty := by
    rw [Bool.eq_iff_iff, List.isEmpty_iff, List.isEmpty_iff]
    constructor
    · intro hnil
      rw [hnil] at hfound
      exact hfound.nil_eq.symm
    · intro hnil
      rw [hnil] at hfound
      exact hfound.eq_nil
  unfold printed
  rw [hsorted, hempty, hfound.length_eq, hcounts]

end Audit

namespace Dump
variable {d : Dump} {cacheDir : ℕ → Option Bytes}

/-! ### Discovered keys -/

theorem searchKeys_discovered {sample : Sample} {k : Key} {source : UInt32}
    {cs : List (Text.Str × Key)} {tried : ℕ}
    (h : d.searchKeys sample tried cs = .discovered k source) :
    d.works sample k = true ∧ ∃ label, (label, k) ∈ cs ∧ source = KeyStore.labelDepot label := by
  induction cs generalizing tried with
  | nil => cases h
  | cons c cs ih =>
    rw [searchKeys] at h
    split_ifs at h with hworks
    · cases h
      exact ⟨hworks, c.1, List.mem_cons_self, rfl⟩
    · obtain ⟨hk, label, hmem, hsource⟩ := ih h
      exact ⟨hk, label, List.mem_cons_of_mem c hmem, hsource⟩

theorem searchResolution_discovered {sample : Sample} {k : Key} {source : UInt32}
    (h : d.searchResolution sample = .discovered k source) :
    d.works sample k = true ∧
      ∃ label, (label, k) ∈ d.keys.candidates ∧ source = KeyStore.labelDepot label := by
  unfold searchResolution at h
  split_ifs at h
  exact searchKeys_discovered h

theorem resolution_discovered {entry : BlobEntry} {sample : Sample} {k : Key} {source : UInt32}
    (h : d.resolution entry sample = .discovered k source) :
    d.works sample k = true ∧
      (∃ label, (label, k) ∈ d.keys.candidates ∧ source = KeyStore.labelDepot label) ∧
      ∀ k', d.keys.getForBlob entry.depot entry.crc = some k' → d.works sample k' = false := by
  unfold resolution at h
  split at h
  · next k' hk' =>
    split_ifs at h with hworks
    obtain ⟨hk, hlabel⟩ := searchResolution_discovered h
    refine ⟨hk, hlabel, fun k'' hk'' => ?_⟩
    rw [hk'] at hk''
    cases hk''
    simpa using hworks
  · next hnone =>
    obtain ⟨hk, hlabel⟩ := searchResolution_discovered h
    exact ⟨hk, hlabel, fun k' hk' => by rw [hnone] at hk'; cases hk'⟩

def Offers (d : Dump) (cacheDir : ℕ → Option Bytes) (id : ℕ) (sample : Sample) : Prop :=
  ∃ p r loc x, d.loaded cacheDir id = .ok p ∧ p.records.find? Audit.probed = some r ∧
    d.locateOwn cacheDir id r.fileId = .ok loc ∧ loc.slot 0 = some x ∧
    d.sampleOf loc 0 x = .ok sample

theorem locateOwn_source {id : ℕ} {p : ParsedBlob} (hp : d.loaded cacheDir id = .ok p)
    (hid : id < d.index.blobs.length) {r : FileRecord} (hr : r ∈ p.records) {loc : FileLoc}
    (hloc : d.locateOwn cacheDir id r.fileId = .ok loc) : loc.source = id := by
  obtain ⟨entry, r', hlook, -⟩ := layerOf_own hp hid hr
  obtain ⟨l, -, hget⟩ := bind_eq_ok.mp hloc
  rw [hlook] at hget
  cases hget
  rfl

theorem probedKey_eq_ok {id : ℕ} {entry : BlobEntry} (hentry : d.index.blobs[id]? = some entry)
    {p : ParsedBlob} (hp : d.loaded cacheDir id = .ok p) {r : FileRecord}
    (hr : p.records.find? Audit.probed = some r) {k : KeyResolution}
    (h : d.probedKey cacheDir id r = .ok k) :
    ∃ sample, d.Offers cacheDir id sample ∧ k = d.resolution entry sample := by
  obtain ⟨loc, hloc, hprobe⟩ := bind_eq_ok.mp h
  have hid := (List.getElem?_eq_some_iff.mp hentry).1
  have hsource := locateOwn_source hp hid (List.mem_of_find?_eq_some hr) hloc
  unfold probeOf at hprobe
  split at hprobe
  · next x hx =>
    obtain ⟨sample, hsample, hres⟩ := bind_eq_ok.mp hprobe
    obtain ⟨entry', hentry', hres⟩ := bind_eq_ok.mp hres
    rw [hsource, blob_eq_ok, hentry] at hentry'
    cases hentry'
    cases hres
    exact ⟨sample, ⟨p, r, loc, x, hp, hr, hloc, hx, hsample⟩, rfl⟩
  · split at hprobe
    · exact absurd hprobe missingDatOf_ne_ok
    · cases hprobe

structure AuditsAlike (d : Dump) (cacheDir : ℕ → Option Bytes) (depot : Option UInt32) : Prop where
  same : ∀ jobs jobs' v v', d.Audits cacheDir depot jobs v → d.Audits cacheDir depot jobs' v' →
    v.counts = v'.counts ∧ (∀ out, v.printed out = v'.printed out) ∧
      v.discovered.Perm v'.discovered
  keys_work : ∀ jobs v, d.Audits cacheDir depot jobs v → ∀ x ∈ v.discovered,
    ∃ id ∈ d.auditBlobs depot, ∃ entry sample, d.index.blobs[id]? = some entry ∧
      x.fileName = entry.fileName ∧ x.depot = entry.depot ∧ x.crc = entry.crc ∧
      d.Offers cacheDir id sample ∧ d.works sample x.key = true ∧
      (∃ label, (label, x.key) ∈ d.keys.candidates ∧ x.source = KeyStore.labelDepot label) ∧
      ∀ k, d.keys.getForBlob entry.depot entry.crc = some k → d.works sample k = false
  finishes : ∀ jobs v, d.Audits cacheDir depot jobs v → ∀ hist pool,
    Pool.Runs (fun _ : Unit => Workers.work (d.auditBlobs depot) (Audit.auditBlob d))
      ⟨0, .start (.new d cacheDir)⟩ hist pool →
      (∀ th ∈ pool.threads, ∀ r, th.2 = .done r → r = .ok ()) ∧
        ∀ jobs', pool.threads.length ≤ max jobs' 1 → ∃ more pool',
          Pool.Runs (fun _ : Unit => Workers.work (d.auditBlobs depot) (Audit.auditBlob d))
            ⟨0, .start (.new d cacheDir)⟩ (hist ++ more) pool' ∧
            d.Audits cacheDir depot jobs' pool'.state.rest

/-- Any number of workers, in any order of their actions, print the same report
and discover the same keys, all of which are known keys that work. -/
theorem audits_alike (d : Dump) (cacheDir : ℕ → Option Bytes) (depot : Option UInt32)
    (hn : d.index.blobs.length ≤ CHAIN_LIMIT) : d.AuditsAlike cacheDir depot := by
  refine ⟨fun jobs jobs' v v' hv hv' => ?_, fun jobs v hv x hx => ?_, fun jobs v hv => ?_⟩
  · have hledger : v.ledger = v'.ledger :=
      congrArg Prod.fst ((Audit.settled hn hv).2.trans (Audit.settled hn hv').2.symm)
    exact ⟨congrArg (fun l : Ledger => l.2.2) hledger, Audit.printed_of_ledger hledger,
      Multiset.coe_eq_coe.mp (congrArg (fun l : Ledger => l.2.1) hledger)⟩
  · have hmem : x ∈ ((d.auditBlobs depot).map (Audit.share d cacheDir)).sum.1.2.1 := by
      rw [← (Audit.settled hn hv).2]
      exact hx
    obtain ⟨id, hid, entry, p, r, hentry, hp, hr, hprobed, hname⟩ := Audit.mem_shares.mp hmem
    obtain ⟨sample, hoffers, hk⟩ := probedKey_eq_ok hentry hp hr hprobed
    obtain ⟨hworks, hlabel, hconfigured⟩ := resolution_discovered hk.symm
    exact ⟨id, hid, entry, sample, hentry, hname.1, hname.2.1, hname.2.2, hoffers, hworks, hlabel,
      hconfigured⟩
  · have hstuck : ((d.auditBlobs depot).map (Audit.share d cacheDir)).sum.2 = 0 := by
      rw [← (Audit.settled hn hv).2]
    exact fun hist pool hrun =>
      Workers.finishes (Audit.fixed hn _) rfl AuditInv.new hstuck hrun

end Dump

section Sample
open Dump

/-- A blob whose key is known for another depot only, and one whose dat is not
in the dump. -/
def strayKey : MemoryDump where
  blobs := [("5_1_000000aa_x.blob".toList, (VersionImage.flat [intactRecord] 8 none).encode),
    ("5_2_000000bb_x.blob".toList, (VersionImage.flat [intactRecord] 8 none).encode)]
  dats := [("5_1_00000005_x.dat".toList, [0x67, 0xeb, 0x48, 0xd0, 0, 0, 0, 0])]
  keys := { KeyStore.empty with
    overrides := [(6, zeroKey)], overrides_distinct := List.nodup_singleton _ }
  cfg := { StoreConfig.plain with keySearch := true }

def strayRun : Outcome ReadError Unit × Shared Audit :=
  (Workers.work (strayKey.dump.auditBlobs none) (Audit.auditBlob strayKey.dump)).run
    ⟨0, .start (.new strayKey.dump fun _ => none)⟩

set_option maxRecDepth 20000 in
theorem strayKey_audit : ∃ v, strayKey.dump.Audits (fun _ => none) none 1 v ∧
    (v.discovered.map fun x => (x.depot, x.crc, x.source)) = [(5, 0xaa, 6)] ∧
    v.counts .encryptedBlobs = 2 ∧ v.counts .discovered = 1 ∧ v.counts .unreadable = 1 ∧
    ∀ x ∈ v.discovered, '\n' ∉ x.fileName := by
  have hrun : strayRun.1 = .ok () ∧
      (strayRun.2.rest.discovered.map fun x => (x.depot, x.crc, x.source)) = [(5, 0xaa, 6)] ∧
      strayRun.2.rest.counts .encryptedBlobs = 2 ∧ strayRun.2.rest.counts .discovered = 1 ∧
      strayRun.2.rest.counts .unreadable = 1 ∧
      ∀ x ∈ strayRun.2.rest.discovered, '\n' ∉ x.fileName := by
    decide +kernel
  unfold strayRun at hrun
  exact ⟨_, Workers.Ends.alone hrun.1, hrun.2⟩

theorem audits_alike_strayKey : ∃ v, strayKey.dump.Audits (fun _ => none) none 1 v ∧
    v.counts .discovered = 1 ∧
    ∀ jobs v', strayKey.dump.Audits (fun _ => none) none jobs v' →
      v.printed "keys.txt".toList = v'.printed "keys.txt".toList := by
  have hn : strayKey.dump.index.blobs.length ≤ CHAIN_LIMIT := by decide +kernel
  obtain ⟨v, hv, -, -, hcount, -, -⟩ := strayKey_audit
  refine ⟨v, hv, hcount, fun jobs v' hv' => ?_⟩
  exact ((audits_alike strayKey.dump (fun _ => none) none hn).same 1 jobs v v' hv hv').2.1 _

end Sample
end Steam2Fs
