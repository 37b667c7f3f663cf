import Steam2Fs.AuditRuns

/-!
# An audit with the keys of an audit

The keys that an audit appends to a file are loaded by the next run. Then the
blobs it discovered keys for decrypt with the configured key, and nothing else
changes: the file adds no key that was not known, so where no known key worked
none does now. In particular a second audit discovers nothing. Overrides name
a blob by its depot and checksum, so no two audited blobs may share both.
-/

namespace Steam2Fs
open Outcome

def Dump.withKeys (d : Dump) (ks : KeyStore) : Dump := { d with keys := ks }

namespace KeyStore
variable {ks : KeyStore}

/-- The store after the overrides of a list of discovered keys. -/
def insertAll (ks : KeyStore) (found : List Discovered) : KeyStore :=
  found.foldl (fun ks x => ks.insertForBlob x.depot x.crc x.key) ks

theorem loadFile_appended (hex : HexCodec) (ks : KeyStore) (v : Audit)
    (hnames : ∀ x ∈ v.discovered, '\n' ∉ x.fileName) :
    ks.loadFile hex (v.appended hex) = (.ok (), ks.insertAll v.discovered) := by
  have hfile : v.appended hex = Text.utf8 (v.discovered.flatMap fun x => x.text hex) := by
    unfold Audit.appended Text.utf8
    rw [List.flatMap_assoc]
  unfold loadFile
  rw [hfile, Text.fromUtf8_utf8]
  exact Discovered.loadLines_texts hnames ks

theorem getForBlob_insertAll (found : List Discovered) (depot crc : UInt32) :
    (ks.insertAll found).getForBlob depot crc =
      (lastKey found depot crc).or (ks.getForBlob depot crc) := by
  obtain ⟨hover, htable, hblob⟩ := Discovered.overrides_foldl found ks
  unfold getForBlob
  unfold insertAll
  rw [hblob]
  cases lastKey found depot crc with
  | some k => rfl
  | none =>
    unfold get
    rw [hover, htable]
    rfl

theorem mem_blobOverrides_insertAll {found : List Discovered}
    {e : (UInt32 × UInt32) × Key} (h : e ∈ (ks.insertAll found).blobOverrides) :
    e ∈ ks.blobOverrides ∨ ∃ x ∈ found, x.key = e.2 := by
  induction found generalizing ks with
  | nil => exact Or.inl h
  | cons x found ih =>
    rcases ih h with he | ⟨y, hy, hkey⟩
    · rcases List.mem_cons.mp he with rfl | he
      · exact Or.inr ⟨x, List.mem_cons_self, rfl⟩
      · exact Or.inl (List.mem_filter.mp he).1
    · exact Or.inr ⟨y, List.mem_cons_of_mem x hy, hkey⟩

theorem candidates_insertAll {found : List Discovered}
    (hfound : ∀ x ∈ found, ∃ label, (label, x.key) ∈ ks.candidates) {label : Text.Str} {k : Key}
    (h : (label, k) ∈ (ks.insertAll found).candidates) : ∃ label', (label', k) ∈ ks.candidates := by
  obtain ⟨hover, htable, -⟩ := Discovered.overrides_foldl found ks
  have hover' : (ks.insertAll found).overrides = ks.overrides := hover
  have htable' : (ks.insertAll found).table = ks.table := htable
  unfold candidates at h
  rw [hover', htable', List.append_assoc] at h
  rcases List.mem_append.mp h with h | h
  · obtain ⟨e, he, heq⟩ := List.mem_map.mp h
    have hkey : e.2 = k := congrArg Prod.snd heq
    rcases mem_blobOverrides_insertAll he with he | ⟨x, hx, hx'⟩
    · refine ⟨label, ?_⟩
      unfold candidates
      rw [List.append_assoc]
      exact List.mem_append_left _ (List.mem_map.mpr ⟨e, he, heq⟩)
    · obtain ⟨label', hmem⟩ := hfound x hx
      rw [hx', hkey] at hmem
      exact ⟨label', hmem⟩
  · refine ⟨label, ?_⟩
    unfold candidates
    rw [List.append_assoc]
    exact List.mem_append_right _ h

end KeyStore

theorem Discovered.mem_of_lastKey {found : List Discovered} {depot crc : UInt32} {k : Key}
    (h : lastKey found depot crc = some k) :
    ∃ x ∈ found, x.depot = depot ∧ x.crc = crc ∧ x.key = k := by
  obtain ⟨x, hx, hkey⟩ := Option.map_eq_some_iff.mp h
  have hname := List.find?_some hx
  rw [decide_eq_true_eq] at hname
  exact ⟨x, List.mem_reverse.mp (List.mem_of_find?_eq_some hx), hname.1, hname.2, hkey⟩

namespace Dump
variable {d : Dump} {cacheDir : ℕ → Option Bytes}

/-! ### What does not depend on the keys -/

theorem loadAnyhow_congr {dir dir' : ℕ → Option Bytes} {id : ℕ} (h : dir id = dir' id) :
    d.loadAnyhow dir id = d.loadAnyhow dir' id := by
  have hcached (entry : BlobEntry) : d.cachedBytes dir id entry = d.cachedBytes dir' id entry := by
    unfold cachedBytes
    rw [h]
  unfold loadAnyhow
  simp only [hcached]

theorem Loads.loaded_left {s : Store} (h : d.Loads cacheDir s) :
    d.loaded s.cacheDir = d.loaded cacheDir := by
  funext id
  unfold loaded
  refine congrArg _ ?_
  rcases h.file id with hsame | ⟨hstale, hfile⟩
  · exact loadAnyhow_congr hsame
  cases hentry : d.index.blobs[id]? with
  | none =>
    have hblob : (d.blob id : Outcome AnyhowError BlobEntry) = .panic := by
      unfold blob
      rw [hentry]
    unfold loadAnyhow
    rw [hblob]
    rfl
  | some entry =>
    rw [loadAnyhow_of_stale hentry hstale]
    unfold loadAnyhow
    rw [blob_eq_ok.mpr hentry, ok_bind]
    cases hbytes : d.cachedBytes s.cacheDir id entry with
    | none => rfl
    | some bytes =>
      have hback : d.backendBytes id = .ok bytes := by
        unfold cachedBytes at hbytes
        split_ifs at hbytes
        obtain ⟨hdir, -⟩ := Option.filter_eq_some_iff.mp hbytes
        rcases hfile with hnone | ⟨bytes', hback, hsome⟩
        · rw [hnone] at hdir
          cases hdir
        · rw [hsome] at hdir
          cases hdir
          exact hback
      dsimp only
      cases hparse : parseBlob d.codec bytes with
      | ok p => simp [loadBackend, hback, hparse]
      | err e => rfl
      | panic => simp [loadBackend, hback, hparse]

section Keys
variable {dir : ℕ → Option Bytes} {ks : KeyStore} {id : ℕ} {entry : BlobEntry} {r : FileRecord}

theorem locateOwn_withKeys (hdir : d.loaded dir = d.loaded cacheDir) (fileId : UInt32) :
    (d.withKeys ks).locateOwn dir id fileId = d.locateOwn cacheDir id fileId := by
  have hparent : (d.withKeys ks).parentIn dir = d.parentIn cacheDir := by
    funext b
    exact congrArg (fun f : ℕ → Outcome ReadError ParsedBlob => f b >>= d.parentOf b) hdir
  have hlayer : (d.withKeys ks).layerOf dir id = d.layerOf cacheDir id := by
    have hkeys : (d.withKeys ks).layerOf dir id = d.layerOf dir id := rfl
    rw [hkeys, layerOf, layerOf, hdir]
  unfold locateOwn chainOf
  rw [hparent, hlayer]

theorem probedKey_withKeys (ks : KeyStore) (hdir : d.loaded dir = d.loaded cacheDir)
    (hentry : d.index.blobs[id]? = some entry) {p : ParsedBlob}
    (hp : d.loaded cacheDir id = .ok p) (hr : p.records.find? Audit.probed = some r) :
    (∃ sample, d.probedKey cacheDir id r = .ok (d.resolution entry sample) ∧
      (d.withKeys ks).probedKey dir id r = .ok ((d.withKeys ks).resolution entry sample)) ∨
    (∀ k, d.probedKey cacheDir id r ≠ .ok k) ∧
      (d.withKeys ks).probedKey dir id r = d.probedKey cacheDir id r := by
  have hid := (List.getElem?_eq_some_iff.mp hentry).1
  unfold probedKey
  rw [locateOwn_withKeys hdir]
  cases hloc : d.locateOwn cacheDir id r.fileId with
  | err e => exact Or.inr ⟨nofun, rfl⟩
  | panic => exact Or.inr ⟨nofun, rfl⟩
  | ok loc =>
    have hsource := locateOwn_source hp hid (List.mem_of_find?_eq_some hr) hloc
    rw [ok_bind, ok_bind]
    unfold probeOf
    cases hslot : loc.slot 0 with
    | none =>
      right
      dsimp only
      cases hdat : loc.dat with
      | some dat => exact ⟨nofun, rfl⟩
      | none =>
        dsimp only
        refine ⟨fun k => missingDatOf_ne_ok, ?_⟩
        have hkeys : ((d.withKeys ks).missingDatOf dir loc : Outcome ReadError KeyResolution) =
            d.missingDatOf dir loc := rfl
        rw [hkeys, missingDatOf, missingDatOf, hdir]
    | some x =>
      dsimp only
      have hblob (d' : Dump) (h : d'.index = d.index) :
          (d'.blob loc.source : Outcome ReadError BlobEntry) = .ok entry := by
        rw [blob_eq_ok, h, hsource, hentry]
      have hsample : (d.withKeys ks).sampleOf loc 0 x = d.sampleOf loc 0 x := rfl
      unfold ownResolution
      rw [hsample]
      cases d.sampleOf loc 0 x with
      | err e => exact Or.inr ⟨nofun, rfl⟩
      | panic => exact Or.inr ⟨nofun, rfl⟩
      | ok sample =>
        refine Or.inl ⟨sample, ?_, ?_⟩
        · rw [ok_bind, hblob d rfl, ok_bind]
        · rw [ok_bind, hblob (d.withKeys ks) rfl, ok_bind]

/-! ### The same sample with the keys of the file -/

theorem searchKeys_none {sample : Sample} {cs : List (Text.Str × Key)} (tried : ℕ)
    (h : ∀ c ∈ cs, d.works sample c.2 = false) : ∃ n, d.searchKeys sample tried cs = .none n := by
  induction cs generalizing tried with
  | nil => exact ⟨tried, rfl⟩
  | cons c cs ih =>
    rw [searchKeys, if_neg (by simp [h c List.mem_cons_self])]
    exact ih _ fun c' hc' => h c' (List.mem_cons_of_mem c hc')

theorem searchKeys_eq_none {sample : Sample} {cs : List (Text.Str × Key)} {tried n : ℕ}
    (h : d.searchKeys sample tried cs = .none n) : ∀ c ∈ cs, d.works sample c.2 = false := by
  induction cs generalizing tried with
  | nil => simp
  | cons c cs ih =>
    rw [searchKeys] at h
    split_ifs at h with hworks
    intro c' hc'
    rcases List.mem_cons.mp hc' with rfl | hc'
    · simpa using hworks
    · exact ih h c' hc'

theorem resolution_configured {sample : Sample} {k : Key}
    (h : d.resolution entry sample = .configured k) :
    d.keys.getForBlob entry.depot entry.crc = some k ∧ d.works sample k = true := by
  have hsearch (cs : List (Text.Str × Key)) (tried : ℕ) :
      d.searchKeys sample tried cs ≠ .configured k := by
    induction cs generalizing tried with
    | nil =>
      intro h
      cases h
    | cons c cs ih =>
      rw [searchKeys]
      split_ifs
      · intro h
        cases h
      · exact ih _
  have hnot : d.searchResolution sample ≠ .configured k := by
    unfold searchResolution
    split_ifs
    · exact hsearch _ _
    · intro h
      cases h
  unfold resolution at h
  split at h
  · next k' hk' =>
    split_ifs at h with hworks
    · cases h
      exact ⟨hk', hworks⟩
    · exact absurd h hnot
  · exact absurd h hnot

theorem resolution_none {sample : Sample} {tried : ℕ}
    (h : d.resolution entry sample = .none tried) :
    (∀ k, d.keys.getForBlob entry.depot entry.crc = some k → d.works sample k = false) ∧
      d.searchResolution sample = .none tried := by
  unfold resolution at h
  split at h
  · next k hk =>
    split_ifs at h with hworks
    refine ⟨fun k' hk' => ?_, h⟩
    rw [hk] at hk'
    cases hk'
    simpa using hworks
  · next hnone =>
    refine ⟨fun k hk => ?_, h⟩
    rw [hnone] at hk
    cases hk

/-- What a verdict becomes once the discovered keys are configured. -/
inductive Becomes : KeyResolution → KeyResolution → Prop
  | discovered (k : Key) (source : UInt32) : Becomes (.discovered k source) (.configured k)
  | configured (k : Key) : Becomes (.configured k) (.configured k)
  | none (tried tried' : ℕ) : Becomes (.none tried) (.none tried')

theorem resolution_insertAll {found : List Discovered} {sample : Sample}
    (hknown : ∀ x ∈ found, ∃ label, (label, x.key) ∈ d.keys.candidates)
    (hlast : ∀ k source, d.resolution entry sample = .discovered k source →
      lastKey found entry.depot entry.crc = some k)
    (hother : (∀ k source, d.resolution entry sample ≠ .discovered k source) →
      lastKey found entry.depot entry.crc = none) :
    Becomes (d.resolution entry sample)
      ((d.withKeys (d.keys.insertAll found)).resolution entry sample) := by
  have hworks (k : Key) : (d.withKeys (d.keys.insertAll found)).works sample k =
      d.works sample k := rfl
  have hconfigured {k : Key} (hk : (d.keys.insertAll found).getForBlob entry.depot entry.crc =
      some k) (hw : d.works sample k = true) :
      (d.withKeys (d.keys.insertAll found)).resolution entry sample = .configured k := by
    unfold resolution
    have hk' : (d.withKeys (d.keys.insertAll found)).keys.getForBlob entry.depot entry.crc =
        some k := hk
    rw [hk']
    dsimp only
    rw [if_pos ((hworks k).trans hw)]
  cases hres : d.resolution entry sample with
  | discovered k source =>
    have hget : (d.keys.insertAll found).getForBlob entry.depot entry.crc = some k := by
      rw [KeyStore.getForBlob_insertAll, hlast k source hres]
      rfl
    rw [hconfigured hget (resolution_discovered hres).1]
    exact .discovered k source
  | configured k =>
    obtain ⟨hk, hw⟩ := resolution_configured hres
    have hget : (d.keys.insertAll found).getForBlob entry.depot entry.crc = some k := by
      rw [KeyStore.getForBlob_insertAll, hother fun _ _ => by rw [hres]; exact nofun, hk]
      rfl
    rw [hconfigured hget hw]
    exact .configured k
  | none tried =>
    obtain ⟨hfails, hsearch⟩ := resolution_none hres
    have hget : (d.withKeys (d.keys.insertAll found)).keys.getForBlob entry.depot entry.crc =
        d.keys.getForBlob entry.depot entry.crc := by
      refine (KeyStore.getForBlob_insertAll _ _ _).trans ?_
      rw [hother fun _ _ => by rw [hres]; exact nofun]
      rfl
    obtain ⟨n, hn⟩ : ∃ n, (d.withKeys (d.keys.insertAll found)).searchResolution sample =
        .none n := by
      unfold searchResolution at hsearch ⊢
      have hcfg : (d.withKeys (d.keys.insertAll found)).cfg.keySearch = d.cfg.keySearch := rfl
      rw [hcfg]
      split_ifs at hsearch ⊢ with hon
      · refine searchKeys_none 0 fun c hc => ?_
        obtain ⟨label, hmem⟩ := KeyStore.candidates_insertAll hknown hc
        exact searchKeys_eq_none hsearch (label, c.2) hmem
      · exact ⟨0, rfl⟩
    have hnone : (d.withKeys (d.keys.insertAll found)).resolution entry sample = .none n := by
      unfold resolution
      rw [hget]
      cases hk : d.keys.getForBlob entry.depot entry.crc with
      | none => exact hn
      | some k =>
        dsimp only
        rw [hworks, if_neg (by simp [hfails k hk])]
        exact hn
    rw [hnone]
    exact .none tried n

end Keys

/-! ### The second audit -/

/-- What the counts become: every discovered key counts as configured. -/
def countsAgain (c : Tally → ℕ) : Tally → ℕ
  | .ok => c .ok + c .discovered
  | .discovered => 0
  | t => c t

theorem countsAgain_add (c c' : Tally → ℕ) :
    countsAgain (c + c') = countsAgain c + countsAgain c' := by
  funext t
  cases t with
  | ok => simp only [countsAgain, Pi.add_apply]; omega
  | discovered => rfl
  | _ => rfl

/-- The second share of a blob against the first. -/
def ShareAgain (a a' : Ledger × ℕ) : Prop :=
  a'.1.2.1 = 0 ∧ a'.1.2.2 = countsAgain a.1.2.2 ∧ a'.2 = a.2

theorem ShareAgain.add {a a' b b' : Ledger × ℕ} (ha : ShareAgain a a') (hb : ShareAgain b b') :
    ShareAgain (a + b) (a' + b') := by
  obtain ⟨hfound, hcounts, hstuck⟩ := ha
  obtain ⟨hfound', hcounts', hstuck'⟩ := hb
  refine ⟨?_, ?_, ?_⟩
  · simp [hfound, hfound']
  · simp [hcounts, hcounts', countsAgain_add]
  · simp [hstuck, hstuck']

theorem ShareAgain.zero : ShareAgain 0 0 := by
  refine ⟨rfl, ?_, rfl⟩
  funext t
  cases t <;> rfl

theorem ShareAgain.sum {ids : List ℕ} {f f' : ℕ → Ledger × ℕ}
    (h : ∀ id ∈ ids, ShareAgain (f id) (f' id)) :
    ShareAgain (ids.map f).sum (ids.map f').sum := by
  induction ids with
  | nil => exact .zero
  | cons id ids ih =>
    rw [List.map_cons, List.map_cons, List.sum_cons, List.sum_cons]
    exact (h id List.mem_cons_self).add (ih fun b hb => h b (List.mem_cons_of_mem id hb))

theorem owed_again {entry : BlobEntry} {k k' : KeyResolution} (h : Becomes k k') :
    ShareAgain (Audit.owed entry (.ok k)) (Audit.owed entry (.ok k')) := by
  cases h with
  | _ =>
    refine ⟨rfl, ?_, rfl⟩
    funext t
    cases t <;> rfl

theorem owed_same {entry : BlobEntry} {a : Outcome ReadError KeyResolution}
    (h : ∀ k, a ≠ .ok k) : ShareAgain (Audit.owed entry a) (Audit.owed entry a) := by
  cases a with
  | ok k => exact absurd rfl (h k)
  | _ =>
    refine ⟨rfl, ?_, rfl⟩
    funext t
    cases t <;> rfl

/-- Two audited blobs never share depot and checksum. -/
def NamedApart (d : Dump) (ids : List ℕ) : Prop :=
  ∀ id ∈ ids, ∀ id' ∈ ids, ∀ entry entry', d.index.blobs[id]? = some entry →
    d.index.blobs[id']? = some entry' → entry.depot = entry'.depot → entry.crc = entry'.crc →
      id = id'

section Again
variable {depot : Option UInt32} {v : Audit}

theorem share_again (hn : d.index.blobs.length ≤ CHAIN_LIMIT)
    (hapart : d.NamedApart (d.auditBlobs depot)) {jobs : ℕ}
    (hv : d.Audits cacheDir depot jobs v) {id : ℕ} (hid : id ∈ d.auditBlobs depot) :
    ShareAgain (Audit.share d cacheDir id)
      (Audit.share (d.withKeys (d.keys.insertAll v.discovered)) v.store.cacheDir id) := by
  obtain ⟨hinv, hledger⟩ := Audit.settled hn hv
  have hdir : d.loaded v.store.cacheDir = d.loaded cacheDir := hinv.2.1.loaded_left
  have hdir' : (d.withKeys (d.keys.insertAll v.discovered)).loaded v.store.cacheDir =
      d.loaded cacheDir := hdir
  have hfound {x : Discovered} :
      x ∈ v.discovered ↔ ∃ id ∈ d.auditBlobs depot, Audit.FoundFor d cacheDir id x := by
    rw [← Audit.mem_shares, ← hledger]
    rfl
  have hknown : ∀ x ∈ v.discovered, ∃ label, (label, x.key) ∈ d.keys.candidates := by
    intro x hx
    obtain ⟨id', -, entry, p, r, hentry, hp, hr, hprobed, -⟩ := hfound.mp hx
    obtain ⟨sample, -, hk⟩ := probedKey_eq_ok hentry hp hr hprobed
    obtain ⟨-, ⟨label, hmem, -⟩, -⟩ := resolution_discovered hk.symm
    exact ⟨label, hmem⟩
  have hindex : (d.withKeys (d.keys.insertAll v.discovered)).index = d.index := rfl
  unfold Audit.share
  rw [hindex, hdir']
  cases hentry : d.index.blobs[id]? with
  | none => exact ⟨rfl, funext fun t => by cases t <;> rfl, rfl⟩
  | some entry =>
    dsimp only
    cases hp : d.loaded cacheDir id with
    | err e => exact owed_same nofun
    | panic => exact ⟨rfl, funext fun t => by cases t <;> rfl, rfl⟩
    | ok p =>
      dsimp only
      unfold Audit.recordsShare
      cases hr : p.records.find? Audit.probed with
      | none => exact .zero
      | some r =>
        have hone : ShareAgain (Audit.one .encryptedBlobs, 0) (Audit.one .encryptedBlobs, 0) :=
          ⟨rfl, funext fun t => by cases t <;> rfl, rfl⟩
        refine hone.add ?_
        -- the keys in the file for this blob are the one found for it
        have hkeys {y : Discovered} (hy : y ∈ v.discovered) (hdepot : y.depot = entry.depot)
            (hcrc : y.crc = entry.crc) :
            d.probedKey cacheDir id r = .ok (.discovered y.key y.source) := by
          obtain ⟨id', hid', entry', p', r', hentry', hp', hr', hprobed, -, hdepot', hcrc'⟩ :=
            hfound.mp hy
          obtain rfl := hapart id hid id' hid' entry entry' hentry hentry'
            (hdepot.symm.trans hdepot') (hcrc.symm.trans hcrc')
          rw [hp] at hp'
          cases hp'
          rw [hr] at hr'
          cases hr'
          exact hprobed
        rcases probedKey_withKeys (d.keys.insertAll v.discovered) hdir hentry hp hr with
          ⟨sample, hfirst, hsecond⟩ | ⟨hno, hsame⟩
        · rw [hfirst, hsecond]
          refine owed_again (resolution_insertAll hknown (fun k source hk => ?_) fun hk => ?_)
          · have hx : (⟨entry.fileName, entry.depot, entry.crc, k, source⟩ : Discovered) ∈
                v.discovered :=
              hfound.mpr ⟨id, hid, entry, p, r, hentry, hp, hr, hfirst.trans (congrArg _ hk),
                rfl, rfl, rfl⟩
            obtain ⟨k', hk'⟩ := Discovered.lastKey_isSome hx
            obtain ⟨y, hy, hdepot, hcrc, rfl⟩ := Discovered.mem_of_lastKey hk'
            have hy' := (hkeys hy hdepot hcrc).symm.trans (hfirst.trans (congrArg _ hk))
            cases hy'
            exact hk'
          · refine Discovered.lastKey_eq_none fun y hy hname => ?_
            have hy' := (hkeys hy hname.1 hname.2).symm.trans hfirst
            exact hk _ _ (Outcome.ok.inj hy').symm
        · rw [hsame]
          exact owed_same hno

/-- After an audit whose keys have been put into the key file, an audit with
that file discovers nothing: what was discovered is configured, and what had no
key still has none. -/
theorem audit_again (hex : HexCodec) (hn : d.index.blobs.length ≤ CHAIN_LIMIT)
    (hapart : d.NamedApart (d.auditBlobs depot)) {jobs : ℕ}
    (hv : d.Audits cacheDir depot jobs v) (hnames : ∀ x ∈ v.discovered, '\n' ∉ x.fileName) :
    ∃ ks, d.keys.loadFile hex (v.appended hex) = (.ok (), ks) ∧
      (∀ jobs', ∃ v', (d.withKeys ks).Audits v.store.cacheDir depot jobs' v') ∧
      ∀ jobs' v', (d.withKeys ks).Audits v.store.cacheDir depot jobs' v' →
        v'.discovered = [] ∧ v'.counts = countsAgain v.counts := by
  refine ⟨_, KeyStore.loadFile_appended hex d.keys v hnames, ?_⟩
  have hids : (d.withKeys (d.keys.insertAll v.discovered)).auditBlobs depot =
      d.auditBlobs depot := rfl
  have hn' : (d.withKeys (d.keys.insertAll v.discovered)).index.blobs.length ≤ CHAIN_LIMIT := hn
  have hledger := (Audit.settled hn hv).2
  have hsum : ShareAgain ((d.auditBlobs depot).map (Audit.share d cacheDir)).sum
      ((d.auditBlobs depot).map (Audit.share (d.withKeys (d.keys.insertAll v.discovered))
        v.store.cacheDir)).sum :=
    .sum fun id hid => share_again hn hapart hv hid
  rw [← hledger] at hsum
  obtain ⟨hnone, hcounts, hstuck⟩ := hsum
  refine ⟨fun jobs' => ?_, fun jobs' v' hv' => ?_⟩
  · have hstart : (Audit.start (.new (d.withKeys (d.keys.insertAll v.discovered))
        v.store.cacheDir)).ledger = 0 := rfl
    have hend := (Workers.finishes (Audit.fixed hn' (d.auditBlobs depot)) hstart AuditInv.new
      hstuck .start).2 jobs' (Nat.zero_le _)
    obtain ⟨more, pool, -, hends⟩ := hend
    exact ⟨_, hends⟩
  · have hledger' := (Audit.settled hn' hv').2
    rw [hids] at hledger'
    rw [← hledger'] at hnone hcounts
    exact ⟨(Multiset.coe_eq_zero _).mp hnone, hcounts⟩

end Again

theorem audit_again_strayKey : ∃ v ks, strayKey.dump.Audits (fun _ => none) none 1 v ∧
    v.counts .discovered = 1 ∧
    strayKey.dump.keys.loadFile lowerHex (v.appended lowerHex) = (.ok (), ks) ∧
    ∃ v', (strayKey.dump.withKeys ks).Audits v.store.cacheDir none 2 v' ∧
      v'.discovered = [] ∧ v'.counts .ok = v.counts .ok + 1 := by
  have hn : strayKey.dump.index.blobs.length ≤ CHAIN_LIMIT := by decide +kernel
  have hcrcs : ∀ id ∈ strayKey.dump.auditBlobs none, ∀ id' ∈ strayKey.dump.auditBlobs none,
      (strayKey.dump.index.blobs[id]?).map BlobEntry.crc =
        (strayKey.dump.index.blobs[id']?).map BlobEntry.crc → id = id' := by
    decide +kernel
  have hapart : strayKey.dump.NamedApart (strayKey.dump.auditBlobs none) := by
    intro id hid id' hid' entry entry' hentry hentry' _ hcrc
    apply hcrcs id hid id' hid'
    rw [hentry, hentry', Option.map_some, Option.map_some, hcrc]
  obtain ⟨v, hv, -, -, hcount, -, hnames⟩ := strayKey_audit
  obtain ⟨ks, hload, hruns, hagain⟩ := audit_again lowerHex hn hapart hv hnames
  obtain ⟨v', hv'⟩ := hruns 2
  obtain ⟨hnone, hcounts⟩ := hagain 2 v' hv'
  refine ⟨v, ks, hv, hcount, hload, v', hv', hnone, ?_⟩
  rw [hcounts, ← hcount]
  rfl

end Dump
end Steam2Fs
