import Steam2Fs.Memory
import Steam2Fs.ParseSafety
import Steam2Fs.StoreBlobs

/-!
# Cache files that are of no use

A cache file counts when it has the listed size, and is trusted when it also
parses. Any other one is replaced by what the backend holds, once that has
passed the check, and the load answers as it would without a cache directory.
What fails the check is neither parsed nor written. The only way out of this
is a parser that does not return.
-/

namespace Steam2Fs.Dump
open Outcome
variable (d : Dump)

def Fetches (entry : BlobEntry) (bytes : Bytes) : Prop :=
  d.readAll entry.path = .ok bytes ∧ d.checkFetched entry bytes = .ok ()

def Cold (id : ℕ) (s : Store) : Prop := Lru.get id s.parsed = none

theorem cold_new (cacheDir : ℕ → Option Bytes) (id : ℕ) : Cold id (Store.new d cacheDir) := rfl

def Trusted (id : ℕ) (entry : BlobEntry) (s : Store) : Prop :=
  ∃ bytes p, d.cachedBytes s.cacheDir id entry = some bytes ∧ parseBlob d.codec bytes = .ok p

/-- The files of the cache directory once `content` has been put under a blob. -/
def replaced (id : ℕ) (content : Option Bytes) (files : ℕ → Option Bytes) : ℕ → Option Bytes :=
  if d.cfg.blobCacheDir && d.cacheWritable id then Function.update files id content else files

section Runs
variable {d} {id : ℕ} {entry : BlobEntry} {s : Store}

theorem setCacheFile_cacheDir (content : Option Bytes) (s : Store) :
    (d.setCacheFile id content s).cacheDir = d.replaced id content s.cacheDir := by
  unfold setCacheFile replaced
  split_ifs
  · rfl
  · rfl

theorem backendBytes_eq_ok (hentry : d.index.blobs[id]? = some entry) {bytes : Bytes} :
    d.backendBytes id = .ok bytes ↔ d.Fetches entry bytes := by
  unfold backendBytes readBackend Fetches
  rw [blob_eq_ok.mpr hentry, ok_bind]
  cases d.readAll entry.path with
  | error e => simp
  | ok read =>
    rw [ok_bind, bind_eq_ok]
    constructor
    · intro h
      obtain ⟨_, hcheck, hread⟩ := h
      cases hread
      exact ⟨rfl, hcheck⟩
    · intro h
      obtain ⟨hread, hcheck⟩ := h
      cases hread
      exact ⟨(), hcheck, rfl⟩

theorem backendBytes_ne_panic (hentry : d.index.blobs[id]? = some entry) :
    d.backendBytes id ≠ .panic := by
  unfold backendBytes readBackend checkFetched
  rw [blob_eq_ok.mpr hentry, ok_bind]
  cases d.readAll entry.path with
  | error e => simp
  | ok read =>
    rw [ok_bind]
    cases entry.sha256 with
    | none =>
      dsimp only
      split_ifs
      · simp
      · simp
    | some sha =>
      dsimp only
      split_ifs
      · simp
      · simp

theorem fetchBlob_run (s : Store) :
    (d.fetchBlob id).run s = match d.backendBytes id with
      | .ok bytes => (.ok bytes, d.setCacheFile id (some bytes) s)
      | .err e => (.err e, s)
      | .panic => (.panic, s) := by
  rw [fetchBlob, Call.run_bind, Call.run_lift]
  cases d.backendBytes id with
  | ok bytes => rfl
  | err e => rfl
  | panic => rfl

theorem blobBytesCached_run (hentry : d.index.blobs[id]? = some entry) (s : Store) :
    (d.blobBytesCached id).run s = match d.cachedBytes s.cacheDir id entry with
      | some bytes => (.ok (bytes, true), s)
      | none => ((do let bytes ← d.backendBytes id; .ok (bytes, false)),
          ((d.fetchBlob id).run s).2) := by
  rw [blobBytesCached, blob_eq_ok.mpr hentry, Call.run_bind, Call.run_lift]
  dsimp only
  rw [Call.run_bind, Call.run_read]
  dsimp only
  cases d.cachedBytes s.cacheDir id entry with
  | some bytes => rfl
  | none =>
    dsimp only
    rw [Call.run_bind, fetchBlob_run]
    cases d.backendBytes id with
    | ok bytes => rfl
    | err e => rfl
    | panic => rfl

def fetched (d : Dump) (id : ℕ) (files : ℕ → Option Bytes) : ℕ → Option Bytes :=
  match d.backendBytes id with
  | .ok bytes => d.replaced id (some bytes) files
  | _ => files

theorem fetchBlob_cacheDir (id : ℕ) (s : Store) :
    ((d.fetchBlob id).run s).2.cacheDir = d.fetched id s.cacheDir := by
  rw [fetchBlob_run, fetched]
  cases d.backendBytes id with
  | ok bytes => exact setCacheFile_cacheDir _ s
  | err e => rfl
  | panic => rfl

def parseFile (d : Dump) (id : ℕ) (entry : BlobEntry) : Call Store AnyhowError ParsedBlob := do
  let b ← d.blobBytesCached id
  d.parseBytes id entry b.1 b.2

theorem parsed_run (hentry : d.index.blobs[id]? = some entry) (hcold : Cold id s)
    {r : Outcome AnyhowError ParsedBlob} {s' : Store}
    (h : (d.parseFile id entry).run s = (r, s')) :
    ((d.parsed id).run s).1 = r.mapErr .other ∧
      ((d.parsed id).run s).2.cacheDir = s'.cacheDir := by
  have hget : (getParsed id).run s = (.ok none, s) := by
    have htouch : Lru.touch id s.parsed = s.parsed := by rw [Lru.touch, hcold]
    rw [getParsed, Call.run_atomic, hcold, htouch]
  rw [parsed, Call.run_bind, hget]
  dsimp only
  rw [parseUncached, Call.run_bind, hget]
  dsimp only
  rw [blob_eq_ok.mpr hentry, Call.run_bind, ReadError.ofAnyhow, Call.run_mapErr]
  rw [parseFile, Call.run_bind] at h
  rcases hrun : (d.blobBytesCached id).run s with ⟨o, s₁⟩
  rw [hrun] at h
  cases o with
  | err e => cases h; exact ⟨rfl, rfl⟩
  | panic => cases h; exact ⟨rfl, rfl⟩
  | ok b =>
    dsimp only [mapErr_ok] at h ⊢
    rw [Call.run_bind, Call.run_lift]
    dsimp only
    rw [Call.run_bind, ReadError.ofAnyhow, Call.run_mapErr, h]
    cases r with
    | ok p => exact ⟨rfl, rfl⟩
    | err e => exact ⟨rfl, rfl⟩
    | panic => exact ⟨rfl, rfl⟩

theorem parsed_trusted (hentry : d.index.blobs[id]? = some entry) (hcold : Cold id s)
    {bytes : Bytes} (hbytes : d.cachedBytes s.cacheDir id entry = some bytes) {p : ParsedBlob}
    (hp : parseBlob d.codec bytes = .ok p) :
    ((d.parsed id).run s).1 = .ok p ∧ ((d.parsed id).run s).2.cacheDir = s.cacheDir := by
  apply parsed_run hentry hcold (r := .ok p)
  rw [parseFile, Call.run_bind, blobBytesCached_run hentry, hbytes]
  dsimp only
  rw [parseBytes, hp]
  rfl

theorem parsed_panics (hentry : d.index.blobs[id]? = some entry) (hcold : Cold id s)
    {bytes : Bytes} (hbytes : d.cachedBytes s.cacheDir id entry = some bytes)
    (hp : parseBlob d.codec bytes = .panic) : ((d.parsed id).run s).1 = .panic := by
  have hrun : (d.parseFile id entry).run s = (.panic, s) := by
    rw [parseFile, Call.run_bind, blobBytesCached_run hentry, hbytes]
    dsimp only
    rw [parseBytes, hp]
    rfl
  exact (parsed_run hentry hcold hrun).1

theorem parsed_absent (hentry : d.index.blobs[id]? = some entry) (hcold : Cold id s)
    (hbytes : d.cachedBytes s.cacheDir id entry = none) :
    ((d.parsed id).run s).1 = (d.loadBackend id entry).mapErr .other ∧
      ((d.parsed id).run s).2.cacheDir = d.fetched id s.cacheDir := by
  rw [← fetchBlob_cacheDir]
  apply parsed_run hentry hcold
  rw [parseFile, Call.run_bind, blobBytesCached_run hentry, hbytes, loadBackend]
  dsimp only
  cases d.backendBytes id with
  | err e => rfl
  | panic => rfl
  | ok bytes =>
    rw [ok_bind, ok_bind]
    dsimp only
    rw [parseBytes]
    cases parseBlob d.codec bytes with
    | ok p => rfl
    | err e => rfl
    | panic => rfl

theorem parsed_rotten (hentry : d.index.blobs[id]? = some entry) (hcold : Cold id s)
    {bytes : Bytes} (hbytes : d.cachedBytes s.cacheDir id entry = some bytes) {e : AnyhowError}
    (he : parseBlob d.codec bytes = .err e) :
    ((d.parsed id).run s).1 = (d.loadBackend id entry).mapErr .other ∧
      ((d.parsed id).run s).2.cacheDir = d.fetched id (d.replaced id none s.cacheDir) := by
  rw [← setCacheFile_cacheDir, ← fetchBlob_cacheDir]
  apply parsed_run hentry hcold
  rw [parseFile, Call.run_bind, blobBytesCached_run hentry, hbytes, loadBackend]
  dsimp only
  rw [parseBytes, he]
  dsimp only
  rw [if_pos rfl, Call.run_bind, Call.run_modify]
  dsimp only
  rw [Call.run_bind, fetchBlob_run]
  cases d.backendBytes id with
  | err e => rfl
  | panic => rfl
  | ok bytes => rfl

theorem loadBackend_eq_ok (hentry : d.index.blobs[id]? = some entry) {p : ParsedBlob} :
    d.loadBackend id entry = .ok p ↔
      ∃ bytes, d.Fetches entry bytes ∧ parseBlob d.codec bytes = .ok p := by
  rw [loadBackend, bind_eq_ok]
  simp only [backendBytes_eq_ok hentry, mapErr_eq_ok]

theorem loadBackend_eq_panic (hentry : d.index.blobs[id]? = some entry) :
    d.loadBackend id entry = .panic ↔
      ∃ bytes, d.Fetches entry bytes ∧ parseBlob d.codec bytes = .panic := by
  rw [loadBackend]
  simp only [← backendBytes_eq_ok hentry]
  cases hback : d.backendBytes id with
  | ok bytes => simp
  | err e => simp
  | panic => exact absurd hback (backendBytes_ne_panic hentry)

theorem parsed_refetch (hentry : d.index.blobs[id]? = some entry) (hcold : Cold id s)
    (hbad : ¬ d.Trusted id entry s)
    (hret : ∀ bytes, d.cachedBytes s.cacheDir id entry = some bytes →
      (parseBlob d.codec bytes).Returns) :
    ((d.parsed id).run s).1 = (d.loadBackend id entry).mapErr .other ∧
      ∃ files, (files = s.cacheDir ∨ files = d.replaced id none s.cacheDir) ∧
        ((d.parsed id).run s).2.cacheDir = d.fetched id files := by
  cases hbytes : d.cachedBytes s.cacheDir id entry with
  | none =>
    have h := parsed_absent hentry hcold hbytes
    exact ⟨h.1, _, Or.inl rfl, h.2⟩
  | some bytes =>
    cases hparse : parseBlob d.codec bytes with
    | ok p => exact absurd ⟨bytes, p, hbytes, hparse⟩ hbad
    | panic => exact absurd hparse (hret bytes hbytes)
    | err e =>
      have h := parsed_rotten hentry hcold hbytes hparse
      exact ⟨h.1, _, Or.inr rfl, h.2⟩

end Runs

/-! ### Healing -/

structure Heals (id : ℕ) (entry : BlobEntry) (s : Store) : Prop where
  /-- Without a trusted cache file the load answers as with an empty cache
  directory: with what the backend's bytes parse to, or an error. -/
  answer : ¬ d.Trusted id entry s →
    ((d.parsed id).run s).1 = ((d.parsed id).run { s with cacheDir := fun _ => none }).1 ∧
    (∀ bytes p, d.Fetches entry bytes → parseBlob d.codec bytes = .ok p →
      ((d.parsed id).run s).1 = .ok p) ∧
    ((∃ bytes p, d.Fetches entry bytes ∧ parseBlob d.codec bytes = .ok p ∧
      ((d.parsed id).run s).1 = .ok p) ∨ ∃ e, ((d.parsed id).run s).1 = .err e)
  /-- And where files can be written, the cache file then holds these bytes. -/
  written : ¬ d.Trusted id entry s → ∀ bytes, d.Fetches entry bytes →
    d.cfg.blobCacheDir = true → d.cacheWritable id = true →
      ((d.parsed id).run s).2.cacheDir id = some bytes
  trusted : ∀ bytes p, d.cachedBytes s.cacheDir id entry = some bytes →
    parseBlob d.codec bytes = .ok p →
      ((d.parsed id).run s).1 = .ok p ∧ ((d.parsed id).run s).2.cacheDir = s.cacheDir
  /-- Bytes that fail the check are neither returned nor written. -/
  checked : ∀ bytes, d.readAll entry.path = .ok bytes → ¬ d.Fetches entry bytes →
    (∀ p, ((d.parsed id).run s).1 = .ok p → ∃ cached,
      d.cachedBytes s.cacheDir id entry = some cached ∧ parseBlob d.codec cached = .ok p) ∧
    ∀ j content, ((d.parsed id).run s).2.cacheDir j = some content → s.cacheDir j = some content

/-- Neither the cache file that counts nor, where it is needed, what is fetched
has a manifest header that the parser cannot take. -/
structure Parsable (id : ℕ) (entry : BlobEntry) (s : Store) : Prop where
  cached : ∀ bytes, d.cachedBytes s.cacheDir id entry = some bytes → ¬ OversizedManifest bytes
  fetched : ¬ d.Trusted id entry s → ∀ bytes, d.Fetches entry bytes → ¬ OversizedManifest bytes

section Condition
variable {d} {id : ℕ} {entry : BlobEntry} {s : Store}

theorem cachedBytes_file {bytes : Bytes} (h : d.cachedBytes s.cacheDir id entry = some bytes) :
    s.cacheDir id = some bytes := by
  unfold cachedBytes at h
  split_ifs at h
  exact (Option.filter_eq_some_iff.mp h).1

theorem replaced_none_some {files : ℕ → Option Bytes} {j : ℕ} {content : Bytes}
    (h : d.replaced id none files j = some content) : files j = some content := by
  unfold replaced at h
  split_ifs at h
  · by_cases hj : j = id
    · rw [hj, Function.update_self] at h
      cases h
    · rwa [Function.update_of_ne hj] at h
  · exact h

theorem Heals.returns (h : d.Heals id entry s) (hbad : ¬ d.Trusted id entry s) :
    ((d.parsed id).run s).1.Returns := by
  rcases (h.answer hbad).2.2 with ⟨-, p, -, -, hok⟩ | ⟨e, herr⟩
  · rw [hok]
    exact returns_ok p
  · rw [herr]
    exact returns_err e

theorem cached_returns (hC : ∀ bytes, s.cacheDir id = some bytes → bytes.length ≤ isizeMax)
    (h : ∀ bytes, d.cachedBytes s.cacheDir id entry = some bytes → ¬ OversizedManifest bytes)
    (bytes : Bytes) (hbytes : d.cachedBytes s.cacheDir id entry = some bytes) :
    (parseBlob d.codec bytes).Returns :=
  parseBlob_returns d.codec (hC bytes (cachedBytes_file hbytes)) (h bytes hbytes)

theorem Parsable.of_heals (hentry : d.index.blobs[id]? = some entry) (hcold : Cold id s)
    (hC : ∀ bytes, s.cacheDir id = some bytes → bytes.length ≤ isizeMax)
    (h : d.Heals id entry s) : d.Parsable id entry s := by
  have hcached : ∀ bytes, d.cachedBytes s.cacheDir id entry = some bytes →
      ¬ OversizedManifest bytes := by
    intro bytes hbytes hover
    have hpanic := parseBlob_panics d.codec hover
    have hbad : ¬ d.Trusted id entry s := by
      intro ht
      obtain ⟨bytes', p, hbytes', hp⟩ := ht
      rw [hbytes] at hbytes'
      cases hbytes'
      rw [hpanic] at hp
      cases hp
    exact h.returns hbad (parsed_panics hentry hcold hbytes hpanic)
  refine ⟨hcached, fun hbad bytes hfetch hover => ?_⟩
  have hrun := (parsed_refetch hentry hcold hbad (cached_returns hC hcached)).1
  rw [(loadBackend_eq_panic hentry).mpr ⟨bytes, hfetch, parseBlob_panics d.codec hover⟩] at hrun
  exact h.returns hbad hrun

theorem loadBackend_outcome (hentry : d.index.blobs[id]? = some entry)
    (hret : ∀ bytes, d.Fetches entry bytes → (parseBlob d.codec bytes).Returns) :
    (∃ bytes p, d.Fetches entry bytes ∧ parseBlob d.codec bytes = .ok p ∧
      d.loadBackend id entry = .ok p) ∨ ∃ e, d.loadBackend id entry = .err e := by
  cases hload : d.loadBackend id entry with
  | ok p =>
    obtain ⟨bytes, hfetch, hp⟩ := (loadBackend_eq_ok hentry).mp hload
    exact Or.inl ⟨bytes, p, hfetch, hp, rfl⟩
  | err e => exact Or.inr ⟨e, rfl⟩
  | panic =>
    obtain ⟨bytes, hfetch, hpanic⟩ := (loadBackend_eq_panic hentry).mp hload
    exact absurd hpanic (hret bytes hfetch)

theorem cachedBytes_empty : d.cachedBytes (fun _ => none) id entry = none := by
  unfold cachedBytes
  split_ifs
  · rfl
  · rfl

theorem backendBytes_ne_ok (hentry : d.index.blobs[id]? = some entry) {bytes : Bytes}
    (hread : d.readAll entry.path = .ok bytes) (hfail : ¬ d.Fetches entry bytes)
    (bytes' : Bytes) : d.backendBytes id ≠ .ok bytes' := by
  intro hok
  have hfetch := (backendBytes_eq_ok hentry).mp hok
  have hsame := hfetch.1
  rw [hread] at hsame
  cases hsame
  exact hfail hfetch

theorem fetched_of_ne_ok (h : ∀ bytes, d.backendBytes id ≠ .ok bytes)
    (files : ℕ → Option Bytes) : d.fetched id files = files := by
  unfold Dump.fetched
  split
  · next bytes hok => exact absurd hok (h bytes)
  · rfl

theorem Parsable.heals (hentry : d.index.blobs[id]? = some entry) (hcold : Cold id s)
    (hC : ∀ bytes, s.cacheDir id = some bytes → bytes.length ≤ isizeMax)
    (hF : ∀ bytes, d.readAll entry.path = .ok bytes → bytes.length ≤ isizeMax)
    (h : d.Parsable id entry s) : d.Heals id entry s := by
  have hret := cached_returns hC h.cached
  constructor
  · intro hbad
    have hrun := (parsed_refetch hentry hcold hbad hret).1
    refine ⟨?_, fun bytes p hfetch hp => ?_, ?_⟩
    · have hempty := parsed_absent (s := { s with cacheDir := fun _ => none }) hentry hcold
        cachedBytes_empty
      rw [hrun, hempty.1]
    · rw [hrun, (loadBackend_eq_ok hentry).mpr ⟨bytes, hfetch, hp⟩]
      rfl
    · have hparses : ∀ bytes, d.Fetches entry bytes → (parseBlob d.codec bytes).Returns :=
        fun bytes hfetch =>
          parseBlob_returns d.codec (hF bytes hfetch.1) (h.fetched hbad bytes hfetch)
      rcases loadBackend_outcome hentry hparses with ⟨bytes, p, hfetch, hp, hload⟩ | ⟨e, hload⟩
      · rw [hload] at hrun
        exact Or.inl ⟨bytes, p, hfetch, hp, hrun⟩
      · rw [hload] at hrun
        exact Or.inr ⟨_, hrun⟩
  · intro hbad bytes hfetch hdir hwritable
    obtain ⟨-, files, -, hfiles⟩ := parsed_refetch hentry hcold hbad hret
    rw [hfiles, Dump.fetched, (backendBytes_eq_ok hentry).mpr hfetch]
    dsimp only
    rw [replaced, hdir, hwritable]
    exact Function.update_self _ _ _
  · intro bytes p hbytes hp
    exact parsed_trusted hentry hcold hbytes hp
  · intro bytes hread hfail
    have hback := backendBytes_ne_ok hentry hread hfail
    by_cases htrust : d.Trusted id entry s
    · obtain ⟨cached, p, hcached, hp⟩ := htrust
      obtain ⟨hok, hfiles⟩ := parsed_trusted hentry hcold hcached hp
      refine ⟨fun q hq => ?_, fun j content hj => ?_⟩
      · rw [hok] at hq
        cases hq
        exact ⟨cached, hcached, hp⟩
      · rwa [hfiles] at hj
    · obtain ⟨hrun, files, hwhere, hfiles⟩ := parsed_refetch hentry hcold htrust hret
      refine ⟨fun q hq => ?_, fun j content hj => ?_⟩
      · rw [hrun, mapErr_eq_ok, loadBackend_eq_ok hentry] at hq
        obtain ⟨bytes', hfetch, -⟩ := hq
        exact absurd ((backendBytes_eq_ok hentry).mpr hfetch) (hback bytes')
      · rw [hfiles, fetched_of_ne_ok hback] at hj
        rcases hwhere with rfl | rfl
        · exact hj
        · exact replaced_none_some hj

end Condition

/-- A cache file heals exactly when the parser returns from what it is given;
`hC` and `hF` are the bounds on the length of a vector. -/
theorem heals_iff {id : ℕ} {entry : BlobEntry} {s : Store}
    (hentry : d.index.blobs[id]? = some entry) (hcold : Cold id s)
    (hC : ∀ bytes, s.cacheDir id = some bytes → bytes.length ≤ isizeMax)
    (hF : ∀ bytes, d.readAll entry.path = .ok bytes → bytes.length ≤ isizeMax) :
    d.Heals id entry s ↔ d.Parsable id entry s :=
  ⟨fun h => .of_heals hentry hcold hC h, fun h => h.heals hentry hcold hC hF⟩

end Steam2Fs.Dump

namespace Steam2Fs
open Outcome

section Sample

def oneBlob (bytes : Bytes) : Dump :=
  (MemoryDump.mk [("5_1_000000aa_x.blob".toList, bytes)] [] .empty
    ⟨true, 1048576, 1048576, true, false⟩).dump

def oneEntry (bytes : Bytes) : BlobEntry :=
  ⟨"blobs/5_1_000000aa_x.blob".toList, "5_1_000000aa_x.blob".toList, 5, 1, 0xaa,
    UInt64.ofNat bytes.length, none, none⟩

theorem oneBlob_entry (bytes : Bytes) :
    (oneBlob bytes).index.blobs[0]? = some (oneEntry bytes) := rfl

theorem oneBlob_readAll {bytes content : Bytes}
    (h : (oneBlob bytes).readAll (oneEntry bytes).path = .ok content) : content = bytes := by
  have hread : (oneBlob bytes).readAll (oneEntry bytes).path = .ok bytes := rfl
  rw [hread] at h
  exact (Except.ok.inj h).symm

theorem not_oversized {codec : Codec} {bytes : Bytes} (h : (parseBlob codec bytes).Returns) :
    ¬ OversizedManifest bytes :=
  fun hover => h (parseBlob_panics codec hover)

set_option maxRecDepth 20000 in
theorem emptyVersion_heals :
    (oneBlob emptyVersion.encode).Heals 0 (oneEntry emptyVersion.encode)
      (Store.new (oneBlob emptyVersion.encode) fun _ =>
        some (List.replicate emptyVersion.encode.length 0)) := by
  have hlen : emptyVersion.encode.length ≤ isizeMax := by decide +kernel
  have hzero : (List.replicate emptyVersion.encode.length (0 : UInt8)).length ≤ isizeMax := by
    rw [List.length_replicate]
    exact hlen
  refine ((oneBlob emptyVersion.encode).heals_iff (oneBlob_entry _) (Dump.cold_new _ _ 0)
    ?_ ?_).mpr ⟨?_, ?_⟩
  · intro bytes hb
    cases hb
    exact hzero
  · intro bytes hb
    rw [oneBlob_readAll hb]
    exact hlen
  · intro bytes hb
    cases Dump.cachedBytes_file hb
    have hret : (parseBlob (Codec.stored zeroKeyStream)
        (List.replicate emptyVersion.encode.length 0)).Returns := by decide +kernel
    exact not_oversized hret
  · intro _ bytes hb
    rw [oneBlob_readAll hb.1]
    have hret : (parseBlob (Codec.stored zeroKeyStream) emptyVersion.encode).Returns := by
      decide +kernel
    exact not_oversized hret

def blankBlob : Dump := oneBlob (List.replicate hugeManifest.length 0)

theorem hugeManifest_not_healed :
    ((blankBlob.parsed 0).run (Store.new blankBlob fun _ => some hugeManifest)).1 = .panic ∧
      ((blankBlob.parsed 0).run (Store.new blankBlob fun _ => none)).1 ≠ .panic ∧
      ¬ blankBlob.Heals 0 (oneEntry (List.replicate hugeManifest.length 0))
        (Store.new blankBlob fun _ => some hugeManifest) := by
  have hcached : blankBlob.cachedBytes (Store.new blankBlob fun _ => some hugeManifest).cacheDir 0
      (oneEntry (List.replicate hugeManifest.length 0)) = some hugeManifest := by decide +kernel
  have hparse : parseBlob blankBlob.codec hugeManifest = .panic := by decide +kernel
  have hpanic := Dump.parsed_panics (oneBlob_entry _) (Dump.cold_new _ _ 0) hcached hparse
  refine ⟨hpanic, by decide +kernel, fun h => ?_⟩
  have hbad : ¬ blankBlob.Trusted 0 (oneEntry (List.replicate hugeManifest.length 0))
      (Store.new blankBlob fun _ => some hugeManifest) := by
    intro ht
    obtain ⟨bytes, p, hbytes, hp⟩ := ht
    cases hcached.symm.trans hbytes
    cases hparse.symm.trans hp
  rcases (h.answer hbad).2.2 with ⟨-, p, -, -, hok⟩ | ⟨e, herr⟩
  · cases hpanic.symm.trans hok
  · cases hpanic.symm.trans herr

end Sample
end Steam2Fs
