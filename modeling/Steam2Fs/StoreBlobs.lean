import Steam2Fs.Store

/-!
# What `parsed` answers

A blob is loaded from its cache file when that has the listed size and does
not fail to parse, and from the backend otherwise. `loaded` says so as a
function of the cache directory the store was created over. Calls change that
directory, but only for blobs whose cache file is of no use, and only to what
the backend holds, so every later answer is the same.
-/

namespace Steam2Fs.Dump
open Outcome
variable (d : Dump)

def loadBackend (id : ℕ) (entry : BlobEntry) : Outcome AnyhowError ParsedBlob := do
  let bytes ← d.backendBytes id
  (parseBlob d.codec bytes).mapErr (parsingContext entry)

def loadAnyhow (cacheDir : ℕ → Option Bytes) (id : ℕ) : Outcome AnyhowError ParsedBlob := do
  let entry ← d.blob id
  match d.cachedBytes cacheDir id entry with
  | none => d.loadBackend id entry
  | some bytes => match parseBlob d.codec bytes with
    | .ok p => .ok p
    | .panic => .panic
    | .err _ => d.loadBackend id entry

def loaded (cacheDir : ℕ → Option Bytes) (id : ℕ) : Outcome ReadError ParsedBlob :=
  (d.loadAnyhow cacheDir id).mapErr .other

/-- The cache file of a blob is absent, has the wrong size or does not parse. -/
def Stale (cacheDir : ℕ → Option Bytes) (id : ℕ) : Prop :=
  ∀ entry bytes, d.index.blobs[id]? = some entry → d.cachedBytes cacheDir id entry = some bytes →
    ∃ e, parseBlob d.codec bytes = .err e

/-- The invariant of the blob cache, for a store created over `cacheDir`. -/
structure Loads (cacheDir : ℕ → Option Bytes) (s : Store) : Prop where
  parsed : ∀ e ∈ s.parsed, d.loaded cacheDir e.1 = .ok e.2
  file : ∀ id, s.cacheDir id = cacheDir id ∨
    d.Stale cacheDir id ∧
      (s.cacheDir id = none ∨ ∃ bytes, d.backendBytes id = .ok bytes ∧ s.cacheDir id = some bytes)

variable {d} {cacheDir : ℕ → Option Bytes} {id : ℕ}

theorem blob_eq_ok {ε : Type} {entry : BlobEntry} :
    (d.blob id : Outcome ε BlobEntry) = .ok entry ↔ d.index.blobs[id]? = some entry := by
  unfold blob
  cases d.index.blobs[id]? with
  | none => simp
  | some e => simp

theorem blob_ne_err {ε : Type} {e : ε} : (d.blob id : Outcome ε BlobEntry) ≠ .err e := by
  unfold blob
  cases d.index.blobs[id]? with
  | none => simp
  | some e => simp

theorem loadAnyhow_of_stale {entry : BlobEntry} (hentry : d.index.blobs[id]? = some entry)
    (h : d.Stale cacheDir id) : d.loadAnyhow cacheDir id = d.loadBackend id entry := by
  unfold loadAnyhow
  rw [blob_eq_ok.mpr hentry, ok_bind]
  cases hc : d.cachedBytes cacheDir id entry with
  | none => rfl
  | some bytes =>
    obtain ⟨e, he⟩ := h entry bytes hentry hc
    simp only [he]

theorem loaded_parses {p : ParsedBlob} (h : d.loaded cacheDir id = .ok p) :
    ∃ bytes, parseBlob d.codec bytes = .ok p := by
  have hback {entry : BlobEntry} (h : d.loadBackend id entry = .ok p) :
      ∃ bytes, parseBlob d.codec bytes = .ok p := by
    obtain ⟨bytes, -, hparse⟩ := bind_eq_ok.mp h
    exact ⟨bytes, mapErr_eq_ok.mp hparse⟩
  obtain ⟨entry, -, h⟩ := bind_eq_ok.mp (mapErr_eq_ok.mp h)
  split at h
  · exact hback h
  · next bytes hc =>
    split at h
    · next q hq =>
      cases h
      exact ⟨bytes, hq⟩
    · cases h
    · exact hback h

theorem Loads.new : d.Loads cacheDir (Store.new d cacheDir) where
  parsed := by simp [Store.new]
  file := fun _ => Or.inl rfl

theorem Loads.of_eq {s s' : Store} (h : d.Loads cacheDir s) (hp : ∀ e ∈ s'.parsed, e ∈ s.parsed)
    (hc : s'.cacheDir = s.cacheDir) : d.Loads cacheDir s' where
  parsed := fun e he => h.parsed e (hp e he)
  file := by rw [hc]; exact h.file

theorem Loads.setCacheFile {s : Store} (h : d.Loads cacheDir s) (hstale : d.Stale cacheDir id)
    {content : Option Bytes}
    (hcontent : content = none ∨ ∃ bytes, d.backendBytes id = .ok bytes ∧ content = some bytes) :
    d.Loads cacheDir (d.setCacheFile id content s) := by
  unfold Dump.setCacheFile
  split_ifs
  · refine ⟨h.parsed, fun j => ?_⟩
    by_cases hj : j = id
    · subst hj
      simp only [Function.update_self]
      exact Or.inr ⟨hstale, hcontent⟩
    · simp only [Function.update_of_ne hj]
      exact h.file j
  · exact h

theorem fetchBlob_answers (hstale : d.Stale cacheDir id) :
    (d.fetchBlob id).Answers (d.Loads cacheDir) (d.backendBytes id) := by
  refine (Call.answers_lift _).bind_self fun bytes hbytes => ?_
  refine Call.Answers.seq (a := ()) ?_ (hbytes ▸ Call.answers_pure bytes)
  refine Call.keeps_atomic fun s hs => ⟨?_, rfl⟩
  exact hs.setCacheFile hstale (Or.inr ⟨bytes, hbytes, rfl⟩)

/-- Where the bytes handed to the parser can come from. -/
def Supplies (d : Dump) (cacheDir : ℕ → Option Bytes) (id : ℕ) (entry : BlobEntry) :
    Outcome AnyhowError (Bytes × Bool) → Prop
  | .ok (bytes, fromCache) =>
    d.cachedBytes cacheDir id entry = some bytes ∧ fromCache = true ∨
      d.Stale cacheDir id ∧ d.backendBytes id = .ok bytes
  | .err e => d.Stale cacheDir id ∧ d.backendBytes id = .err e
  | .panic => d.Stale cacheDir id ∧ d.backendBytes id = .panic

theorem cachedBytes_supplies {entry : BlobEntry} (hentry : d.index.blobs[id]? = some entry)
    {s : Store} (hs : d.Loads cacheDir s) :
    match d.cachedBytes s.cacheDir id entry with
    | some bytes => d.Supplies cacheDir id entry (.ok (bytes, true))
    | none => d.Stale cacheDir id := by
  rcases hs.file id with hf | ⟨hstale, hf⟩
  · have hsame : d.cachedBytes s.cacheDir id entry = d.cachedBytes cacheDir id entry := by
      unfold cachedBytes
      rw [hf]
    rw [hsame]
    cases hc : d.cachedBytes cacheDir id entry with
    | some bytes => exact Or.inl ⟨hc, rfl⟩
    | none =>
      intro entry' bytes hentry' hc'
      rw [hentry] at hentry'
      cases hentry'
      rw [hc] at hc'
      cases hc'
  · cases hc : d.cachedBytes s.cacheDir id entry with
    | none => exact hstale
    | some bytes =>
      rcases hf with hf | ⟨bytes', hbytes', hf⟩
      · simp [cachedBytes, hf] at hc
      · refine Or.inr ⟨hstale, ?_⟩
        unfold cachedBytes at hc
        split_ifs at hc
        rw [hf, Option.filter_eq_some_iff] at hc
        cases hc.1
        exact hbytes'

theorem blobBytesCached_supplies {entry : BlobEntry}
    (hentry : d.index.blobs[id]? = some entry) :
    (d.blobBytesCached id).Keeps (d.Loads cacheDir) (d.Supplies cacheDir id entry) := by
  unfold blobBytesCached
  rw [blob_eq_ok.mpr hentry]
  intro s hs
  have hcases := cachedBytes_supplies hentry hs
  refine ⟨hs, ?_⟩
  cases hc : d.cachedBytes s.cacheDir id entry with
  | some bytes =>
    rw [hc] at hcases
    simp only [hc]
    exact hcases
  | none =>
    rw [hc] at hcases
    simp only [hc]
    refine Call.Keeps.bind (fetchBlob_answers hcases) ?_ ?_ ?_
    · intro bytes hbytes
      exact Or.inr ⟨hcases, hbytes.symm⟩
    · intro e he
      exact ⟨hcases, he.symm⟩
    · intro hp
      exact ⟨hcases, hp.symm⟩

theorem parseBytes_answers {entry : BlobEntry} (hentry : d.index.blobs[id]? = some entry)
    {bytes : Bytes} {fromCache : Bool}
    (hsup : d.Supplies cacheDir id entry (.ok (bytes, fromCache))) :
    (d.parseBytes id entry bytes fromCache).Answers (d.Loads cacheDir)
      (d.loadAnyhow cacheDir id) := by
  have refetch (hstale : d.Stale cacheDir id) :
      (do Call.modify (d.setCacheFile id none)
          let bytes ← d.fetchBlob id
          Call.lift ((parseBlob d.codec bytes).mapErr (parsingContext entry)) :
        Call Store AnyhowError ParsedBlob).Answers (d.Loads cacheDir)
        (d.loadAnyhow cacheDir id) := by
    rw [loadAnyhow_of_stale hentry hstale]
    refine Call.Answers.seq (a := ()) ?_ ?_
    · exact Call.keeps_atomic fun s hs => ⟨hs.setCacheFile hstale (Or.inl rfl), rfl⟩
    · exact (fetchBlob_answers hstale).bind fun _ _ => Call.answers_lift _
  unfold parseBytes
  rcases hsup with ⟨hc, rfl⟩ | ⟨hstale, hback⟩
  · have hload : d.loadAnyhow cacheDir id = match parseBlob d.codec bytes with
        | .ok p => .ok p
        | .panic => .panic
        | .err _ => d.loadBackend id entry := by
      unfold loadAnyhow
      rw [blob_eq_ok.mpr hentry, ok_bind, hc]
    cases hparse : parseBlob d.codec bytes with
    | ok p => rw [hload, hparse]; exact Call.answers_pure p
    | panic => rw [hload, hparse]; exact Call.answers_lift _
    | err e =>
      refine refetch fun entry' bytes' hentry' hc' => ?_
      rw [hentry] at hentry'
      cases hentry'
      rw [hc] at hc'
      cases hc'
      exact ⟨e, hparse⟩
  · have hload : d.loadAnyhow cacheDir id =
        (parseBlob d.codec bytes).mapErr (parsingContext entry) := by
      rw [loadAnyhow_of_stale hentry hstale]
      unfold loadBackend
      rw [hback, ok_bind]
    cases hparse : parseBlob d.codec bytes with
    | ok p => rw [hload, hparse]; exact Call.answers_pure p
    | panic => rw [hload, hparse]; exact Call.answers_lift _
    | err e =>
      cases fromCache with
      | true => exact refetch hstale
      | false => rw [hload, hparse]; exact Call.answers_lift _

theorem getParsed_keeps :
    (getParsed id).Keeps (d.Loads cacheDir) fun r =>
      r = .ok none ∨ ∃ p, r = .ok (some p) ∧ d.loaded cacheDir id = .ok p := by
  refine Call.keeps_atomic fun s hs => ⟨hs.of_eq (fun e he => Lru.mem_touch he) rfl, ?_⟩
  cases hg : Lru.get id s.parsed with
  | none => exact Or.inl rfl
  | some p => exact Or.inr ⟨p, rfl, hs.parsed _ (Lru.mem_of_get hg)⟩

theorem putParsed_answers {p : ParsedBlob} (h : d.loaded cacheDir id = .ok p) :
    (putParsed id p).Answers (d.Loads cacheDir) (.ok ()) := by
  refine Call.keeps_atomic fun s hs => ⟨⟨fun e he => ?_, hs.file⟩, rfl⟩
  rcases Lru.mem_put he with rfl | he
  · exact h
  · exact hs.parsed e he

theorem parseUncached_answers :
    (d.parseUncached id).Answers (d.Loads cacheDir) (d.loaded cacheDir id) := by
  refine getParsed_keeps.bind (fun o ho => ?_) (by simp) (by simp)
  rcases ho with ho | ⟨p, ho, hload⟩
  swap
  · cases ho
    rw [hload]
    exact Call.answers_pure p
  cases ho
  cases hentry : d.index.blobs[id]? with
  | none =>
    have hblob {ε : Type} : (d.blob id : Outcome ε BlobEntry) = .panic := by
      unfold blob
      rw [hentry]
    have hload : d.loaded cacheDir id = .panic := by
      unfold loaded loadAnyhow
      rw [hblob]
      rfl
    have hbytes : d.blobBytesCached id = Call.lift .panic := by
      unfold blobBytesCached
      rw [hblob]
      rfl
    rw [hload, hbytes]
    exact Call.answers_lift _
  | some entry =>
    have hbytes : (d.blobBytesCached id).Keeps (d.Loads cacheDir) _ :=
      blobBytesCached_supplies hentry
    have hmap := hbytes.mapErr
      (R := fun r => ∃ r', d.Supplies cacheDir id entry r' ∧ r = r'.mapErr ReadError.other)
      fun r hr => ⟨r, hr, rfl⟩
    have hstale (h : d.Stale cacheDir id) :
        d.loaded cacheDir id = (d.loadBackend id entry).mapErr .other := by
      rw [loaded, loadAnyhow_of_stale hentry h]
    refine hmap.bind ?_ ?_ ?_
    · rintro ⟨bytes, fromCache⟩ ⟨r, hsup, hr⟩
      rw [mapErr_eq_ok.mp hr.symm] at hsup
      rw [blob_eq_ok.mpr hentry]
      refine ((parseBytes_answers hentry hsup).mapErr).bind_self fun p hp => ?_
      exact (putParsed_answers hp).seq (hp ▸ Call.answers_pure p)
    · rintro e ⟨r, hsup, hr⟩
      obtain ⟨e', rfl, rfl⟩ := mapErr_eq_err.mp hr.symm
      rw [hstale hsup.1, loadBackend, hsup.2]
      rfl
    · rintro ⟨r, hsup, hr⟩
      rw [mapErr_eq_panic.mp hr.symm] at hsup
      rw [hstale hsup.1, loadBackend, hsup.2]
      rfl

theorem parsed_answers :
    (d.parsed id).Answers (d.Loads cacheDir) (d.loaded cacheDir id) := by
  refine getParsed_keeps.bind (fun o ho => ?_) (by simp) (by simp)
  rcases ho with ho | ⟨p, ho, hload⟩
  · cases ho
    exact parseUncached_answers
  · cases ho
    rw [hload]
    exact Call.answers_pure p

/-- Loading a blob leaves everything but the parsed blobs and the cache
directory alone. -/
def LoadFrame (s s' : Store) : Prop :=
  s'.tables = s.tables ∧ s'.raw = s.raw ∧ s'.blocks = s.blocks ∧ s'.resolvedKeys = s.resolvedKeys

theorem setCacheFile_frame (content : Option Bytes) (s : Store) :
    LoadFrame s (d.setCacheFile id content s) := by
  unfold Dump.setCacheFile
  split_ifs
  · exact ⟨rfl, rfl, rfl, rfl⟩
  · exact ⟨rfl, rfl, rfl, rfl⟩

theorem fetchBlob_within : (d.fetchBlob id).Within LoadFrame := by
  refine (Call.within_lift _).bind fun bytes => ?_
  exact (Call.within_atomic fun s => setCacheFile_frame _ s).bind fun _ => Call.within_pure _

theorem blobBytesCached_within : (d.blobBytesCached id).Within LoadFrame := by
  refine (Call.within_lift _).bind fun entry => ?_
  refine Call.Within.bind (Call.within_atomic fun s => ⟨rfl, rfl, rfl, rfl⟩) fun o => ?_
  cases o with
  | some bytes => exact Call.within_pure _
  | none => exact fetchBlob_within.bind fun _ => Call.within_pure _

theorem parseBytes_within (entry : BlobEntry) (bytes : Bytes) (fromCache : Bool) :
    (d.parseBytes id entry bytes fromCache).Within LoadFrame := by
  unfold parseBytes
  split
  · exact Call.within_pure _
  · exact Call.within_lift _
  · split_ifs
    · refine (Call.within_atomic fun s => setCacheFile_frame _ s).bind fun _ => ?_
      exact fetchBlob_within.bind fun _ => Call.within_lift _
    · exact Call.within_lift _

theorem getParsed_within : (getParsed id).Within LoadFrame :=
  Call.within_atomic fun _ => ⟨rfl, rfl, rfl, rfl⟩

theorem parsed_within : (d.parsed id).Within LoadFrame := by
  have huncached : (d.parseUncached id).Within LoadFrame := by
    refine getParsed_within.bind fun o => ?_
    cases o with
    | some p => exact Call.within_pure _
    | none =>
      refine (Call.Within.mapErr blobBytesCached_within).bind fun b => ?_
      refine (Call.within_lift _).bind fun entry => ?_
      refine (Call.Within.mapErr (parseBytes_within entry b.1 b.2)).bind fun p => ?_
      have hput : (putParsed id p).Within LoadFrame :=
        Call.within_atomic fun _ => ⟨rfl, rfl, rfl, rfl⟩
      exact hput.bind fun _ => Call.within_pure _
  refine getParsed_within.bind fun o => ?_
  cases o with
  | some p => exact Call.within_pure _
  | none => exact huncached

end Steam2Fs.Dump
