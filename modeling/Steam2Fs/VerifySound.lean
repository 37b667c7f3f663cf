import Steam2Fs.ChecksumFormat
import Steam2Fs.ErrorClasses
import Steam2Fs.TreeRead
import Steam2Fs.Verify

/-!
# What a clean `verify` says

A run of `verify` with no failures has opened every block that the records of
the version list. Reading a file takes the blocks its size calls for, which
are the same ones when the record lists enough of them. Two things can come
between the two: another block cached under the same start, and another key
found with a block of the same blob. Where neither happens, a version that
verifies can be read whole exactly when no record is larger than its blocks.
-/

namespace Steam2Fs
open Outcome Text

/-! ### Keys that decode a block -/

def KeyResolution.key : KeyResolution → Option Key
  | .configured k => some k
  | .discovered k _ => some k
  | .none _ => Option.none

namespace Dump
variable {d : Dump} {cacheDir : ℕ → Option Bytes} {loc : FileLoc} {i : ℕ} {x : Slot}
  {entry : BlobEntry} {sample : Sample} {k : Key}

theorem keyOf_eq_ok {r : KeyResolution} : keyOf entry r = .ok k ↔ r.key = some k := by
  unfold keyOf
  split <;> simp [KeyResolution.key]

theorem searchKeys_key {tried : ℕ} {l : List (Str × Key)}
    (h : (d.searchKeys sample tried l).key = some k) : ∃ label, (label, k) ∈ l := by
  induction l generalizing tried with
  | nil => cases h
  | cons e l ih =>
    rw [searchKeys] at h
    split_ifs at h
    · cases h
      exact ⟨e.1, List.mem_cons_self⟩
    · obtain ⟨label, hmem⟩ := ih h
      exact ⟨label, List.mem_cons_of_mem _ hmem⟩

theorem searchKeys_of_works {label : Str} {tried : ℕ} {l : List (Str × Key)}
    (hmem : (label, k) ∈ l) (hworks : d.works sample k = true) :
    ∃ k', (d.searchKeys sample tried l).key = some k' := by
  induction l generalizing tried with
  | nil => cases hmem
  | cons e l ih =>
    rw [searchKeys]
    split_ifs with he
    · exact ⟨e.2, rfl⟩
    · rcases List.mem_cons.mp hmem with rfl | hmem
      · exact absurd hworks he
      · exact ih hmem

theorem resolution_known (h : (d.resolution entry sample).key = some k) : d.KnownKey entry k := by
  have hsearch (h : (d.searchResolution sample).key = some k) : d.KnownKey entry k := by
    unfold searchResolution at h
    split_ifs at h with hcfg
    · exact Or.inr ⟨hcfg, searchKeys_key h⟩
    · cases h
  unfold resolution at h
  split at h
  · next k' hk' =>
    split_ifs at h
    · cases h
      exact Or.inl hk'
    · exact hsearch h
  · exact hsearch h

theorem resolution_of_works (hknown : d.KnownKey entry k) (hworks : d.works sample k = true) :
    ∃ k', (d.resolution entry sample).key = some k' := by
  unfold resolution
  rcases hknown with hk | ⟨hcfg, label, hmem⟩
  · rw [hk]
    dsimp only
    rw [if_pos hworks]
    exact ⟨k, rfl⟩
  · have hsearch : ∃ k', (d.searchResolution sample).key = some k' := by
      rw [searchResolution, if_pos hcfg]
      exact searchKeys_of_works hmem hworks
    split
    · next k' _ =>
      split_ifs
      · exact ⟨k', rfl⟩
      · exact hsearch
    · exact hsearch

theorem blockUsing_key {r : KeyResolution} {v : Bytes} (h : d.blockUsing r loc i x = .ok v)
    (henc : loc.record.mode.isEncrypted = true) :
    ∃ k, r.key = some k ∧ ∃ raw, d.storedBlock loc i x = .ok raw ∧
      d.decodeBlock loc i x.block raw (some k) = .ok v := by
  obtain ⟨raw, entry, key, hraw, -, hkey, hv⟩ := blockUsing_eq_ok.mp h
  rw [keyUsing, if_pos henc, map_eq_ok] at hkey
  obtain ⟨k, hk, rfl⟩ := hkey
  exact ⟨k, keyOf_eq_ok.mp hk, raw, hraw, hv⟩

theorem blockUsing_of_key {r r' : KeyResolution} (hr : r.key = some k) (hr' : r'.key = some k) :
    d.blockUsing r loc i x = d.blockUsing r' loc i x := by
  have hsame (entry : BlobEntry) : keyUsing loc entry r = keyUsing loc entry r' := by
    unfold keyUsing
    rw [keyOf_eq_ok.mpr hr, keyOf_eq_ok.mpr hr']
  simp only [blockUsing, hsame]

theorem works_of_decodeBlock (hverify : d.cfg.verify = true) {raw v : Bytes}
    (h : d.decodeBlock loc i x.block raw (some k) = .ok v) :
    d.works ⟨loc.record.mode, raw, x.block.checksum⟩ k = true := by
  obtain ⟨hout, hsum, -⟩ := decodeBlock_eq_ok.mp h
  exact isOk_iff.mpr ⟨v, (Chunk.decodeVerified_eq_ok d.codec).mpr ⟨hout, hsum hverify⟩⟩

/-! ### How long a decoded block is -/

theorem storedBlock_length {raw : Bytes} (h : d.storedBlock loc i x = .ok raw) :
    raw.length ≤ isizeMax := by
  obtain ⟨hread, hlen⟩ := storedBlock_eq_ok.mp h
  by_contra hbig
  have hcap : isizeMax < 1 * (x.stop - x.start).toNat := by omega
  have hpanic : datBytesWith (d.windowBytes x.dat) x.start x.stop =
      ((.panic : Outcome ReadError Unit) >>= fun _ =>
        datLoop (d.windowBytes x.dat) x.stop.toNat (x.stop.toNat - x.start.toNat)
          x.start.toNat []) :=
    congrArg (· >>= _) (withCapacity_panic hcap)
  rw [hpanic] at hread
  cases hread

theorem blockUsing_length {r : KeyResolution} {v : Bytes} (h : d.blockUsing r loc i x = .ok v)
    (hi : i < 2 ^ 24) :
    v.length = (loc.record.blockRange i).2 - (loc.record.blockRange i).1 := by
  obtain ⟨raw, entry, key, hraw, -, -, hv⟩ := blockUsing_eq_ok.mp h
  obtain ⟨hout, -, hlen⟩ := decodeBlock_eq_ok.mp hv
  have hmax : v.length ≤ max raw.length BLOCK_SIZE := Chunk.decode_length d.codec hout
  have hstored : raw.length ≤ isizeMax := storedBlock_length hraw
  rw [hlen] at hmax ⊢
  unfold FileRecord.blockLen FileRecord.blockRange BLOCK_SIZE isizeMax at *
  have hsize : loc.record.size.toNat < 2 ^ 64 := loc.record.size.toNat_lt
  dsimp only at *
  omega

theorem Located.numBlocks (h : d.Located cacheDir loc) : loc.record.numBlocks < 2 ^ 24 := by
  obtain ⟨b, entry, p, r, -, hp, hr, rfl⟩ := h
  obtain ⟨bytes, hparse⟩ := loaded_parses hp
  obtain ⟨table, htable⟩ := parseBlob_records hparse
  exact Checksums.parse_numBlocks htable r hr

/-! ### The table of the version stays cached -/

section Cached
variable {id : ℕ} {t : FileTable} {s s' : Store}

theorem chainLoop_extends {m : ℕ → StoreCall (Option ℕ)} (fuel : ℕ) (out : List ℕ) (cur : ℕ) :
    (chainLoop m fuel out cur).Keeps (fun _ => True) fun a =>
      ∀ l, a = .ok l → ∃ more, l = out ++ more := by
  induction fuel generalizing out cur with
  | zero =>
    rintro l ⟨⟩
    exact ⟨[], by simp⟩
  | succ fuel ih =>
    have hparent : (m cur).Safe fun _ => True := Proc.keeps_true _
    refine Call.Keeps.bind hparent (fun o _ => ?_) (by simp) (by simp)
    cases o with
    | none =>
      rintro l ⟨⟩
      exact ⟨[], by simp⟩
    | some p =>
      dsimp only
      split_ifs
      · rintro l ⟨⟩
        exact ⟨[], by simp⟩
      · refine (ih (out ++ [p]) p).mono fun a ha l hl => ?_
        obtain ⟨more, hmore⟩ := ha l hl
        exact ⟨p :: more, by simp [hmore]⟩

theorem chain_ends {chain : List ℕ} (h : (d.chain id).run s = (.ok chain, s')) :
    ∃ above, chain = above ++ [id] := by
  obtain ⟨out, s₁, hout, h⟩ := Call.run_bind_eq_ok.mp h
  cases h
  obtain ⟨more, hmore⟩ := ((chainLoop_extends _ _ _).run trivial).1 out (congrArg Prod.fst hout)
  exact ⟨more.reverse, by simp [hmore]⟩

theorem getTable_run (id : ℕ) (s : Store) :
    (getTable id).run s =
      (.ok (Lru.get id s.tables), { s with tables := Lru.touch id s.tables }) := rfl

theorem buildLoop_run_cached {above : List ℕ} {parent o : Option FileTable}
    (h : (d.buildLoop (above ++ [id]) parent).run s = (.ok o, s')) :
    ∃ t, o = some t ∧ Lru.get id s'.tables = some t := by
  induction above generalizing parent s with
  | nil =>
    obtain ⟨found, s₁, hfound, h⟩ := Call.run_bind_eq_ok.mp h
    rw [getTable_run] at hfound
    cases hfound
    cases hget : Lru.get id s.tables with
    | some t =>
      rw [hget] at h
      cases h
      exact ⟨t, rfl, Lru.get_touch hget⟩
    | none =>
      rw [hget] at h
      obtain ⟨t, s₂, -, h⟩ := Call.run_bind_eq_ok.mp h
      obtain ⟨_, s₃, hput, h⟩ := Call.run_bind_eq_ok.mp h
      cases hput
      cases h
      exact ⟨t, rfl, Lru.get_put (by decide) _ _ _⟩
  | cons b above ih =>
    obtain ⟨found, s₁, -, h⟩ := Call.run_bind_eq_ok.mp h
    cases found with
    | some t => exact ih h
    | none =>
      obtain ⟨t, s₂, -, h⟩ := Call.run_bind_eq_ok.mp h
      obtain ⟨_, s₃, -, h⟩ := Call.run_bind_eq_ok.mp h
      exact ih h

theorem table_run_cached (h : (d.table id).run s = (.ok t, s')) :
    Lru.get id s'.tables = some t := by
  -- a hit moves the table to the front; `f` is what follows a miss
  have hfirst {f : Option FileTable → StoreCall FileTable} {s : Store}
      (hhit : ∀ t, f (some t) = pure t)
      (hmiss : ∀ s, (f none).run s = (.ok t, s') → Lru.get id s'.tables = some t)
      (h : (getTable id >>= f).run s = (.ok t, s')) : Lru.get id s'.tables = some t := by
    obtain ⟨found, s₁, hfound, h⟩ := Call.run_bind_eq_ok.mp h
    rw [getTable_run] at hfound
    cases hfound
    cases hget : Lru.get id s.tables with
    | some t' =>
      rw [hget, hhit] at h
      cases h
      exact Lru.get_touch hget
    | none =>
      rw [hget] at h
      exact hmiss _ h
  refine hfirst (fun _ => rfl) (fun s h => hfirst (fun _ => rfl) (fun s h => ?_) h) h
  obtain ⟨chain, s₁, hchain, h⟩ := Call.run_bind_eq_ok.mp h
  obtain ⟨above, rfl⟩ := chain_ends hchain
  obtain ⟨o, s₂, ho, h⟩ := Call.run_bind_eq_ok.mp h
  obtain ⟨t', rfl, hcached⟩ := buildLoop_run_cached ho
  cases h
  exact hcached

theorem cached_blockLocal (id : ℕ) (t : FileTable) :
    d.BlockLocal fun s => Lru.get id s.tables = some t where
  parsed := fun b => Proc.Within.keeps (parsed_within.mono fun s s' h hs => by rwa [h.1])
  raw := fun _ _ hs => hs
  blocks := fun _ _ hs => hs
  resolvedKeys := fun _ _ hs => hs

theorem locate_run_cached (h : Lru.get id s.tables = some t) {fileId : UInt32}
    (hloc : t.get fileId = some loc) :
    (d.locate id fileId).run s = (.ok loc, { s with tables := Lru.touch id s.tables }) := by
  have hget : (getTable id).run s =
      (.ok (some t), { s with tables := Lru.touch id s.tables }) := by
    rw [getTable_run, h]
  have htable : (d.table id).run s = (.ok t, { s with tables := Lru.touch id s.tables }) :=
    Call.run_bind_eq_ok.mpr ⟨some t, _, hget, rfl⟩
  refine Call.run_bind_eq_ok.mpr ⟨t, _, htable, ?_⟩
  rw [hloc]
  rfl

end Cached
end Dump

/-! ### Soundness -/

namespace Verify
section Sound
variable (d : Dump) (t : FileTable) (m : Manifest)

def Listed (loc : FileLoc) : Prop := ∃ node ∈ fileNodes m, t.get (fileId m node) = some loc

/-- What a block of the version, stored by `source`, leads to on its own. -/
def Resolved (source : ℕ) (r : KeyResolution) : Prop :=
  ∃ loc i x, Listed t m loc ∧ loc.slot i = some x ∧ loc.source = source ∧
    loc.record.mode.isEncrypted = true ∧ d.ownResolution loc i x = .ok r

def Remembered (source : ℕ) (o : Option KeyResolution) : Prop :=
  ∀ r, o = some r → Resolved d t m source r

def Cached (key : ℕ × UInt64) (v : Bytes) : Prop :=
  ∃ loc i x r, Listed t m loc ∧ loc.slot i = some x ∧ x.key = key ∧ loc.record.mode ≠ .plain ∧
    d.Admits (Remembered d t m) loc i x r ∧ d.blockUsing r loc i x = .ok v

/-- No block is cached where one of another kind is looked for, and no two
blocks of one blob lead to different keys. -/
structure Unambiguous : Prop where
  alike : ∀ loc i x loc' i' x', Listed t m loc → Listed t m loc' → loc.slot i = some x →
    loc'.slot i' = some x' → x.key = x'.key → loc.record.mode ≠ .plain →
      SameBlock loc i x loc' i' x' ∧
        (loc.record.mode.isEncrypted = true → loc.source = loc'.source)
  oneKey : ∀ source r r' k k', Resolved d t m source r → Resolved d t m source r' →
    r.key = some k → r'.key = some k' → k = k'

/-- The block decodes under a resolution that can be remembered for its blob. -/
def Opened (loc : FileLoc) (i : ℕ) : Prop :=
  ∃ x r v, loc.slot i = some x ∧ d.Admits (Remembered d t m) loc i x r ∧
    d.blockUsing r loc i x = .ok v

def Sized (loc : FileLoc) : Prop := loc.record.size.toNat ≤ loc.record.numBlocks * BLOCK_SIZE

/-- From `s` on, the file is found and can be read whole. -/
def ReadsWhole (id : ℕ) (s : Store) (fileId : UInt32) : Prop :=
  ∃ loc s' bytes, (d.locate id fileId).run s = (.ok loc, s') ∧
    ((d.read loc 0 loc.record.size).run s').1 = .ok bytes ∧
    bytes.length = loc.record.size.toNat

variable {d t m} {cacheDir : ℕ → Option Bytes} {loc : FileLoc} {i : ℕ} {x : Slot}

theorem remembered_own (hloc : Listed t m loc) (hx : loc.slot i = some x)
    (henc : loc.record.mode.isEncrypted = true) {r : KeyResolution}
    (hr : d.ownResolution loc i x = .ok r) : Remembered d t m loc.source (some r) := by
  rintro r' ⟨⟩
  exact ⟨loc, i, x, hloc, hx, rfl, henc, hr⟩

theorem Cached.transfer (hU : Unambiguous d t m) {entry : BlobEntry}
    (hentry : d.index.blobs[loc.source]? = some entry) (hloc : Listed t m loc)
    (hx : loc.slot i = some x) {v : Bytes} (hv : Cached d t m x.key v) :
    ∃ r, d.Admits (Remembered d t m) loc i x r ∧ d.blockUsing r loc i x = .ok v := by
  obtain ⟨loc', i', x', r, hloc', hx', hkey, hplain, hadm, hdecoded⟩ := hv
  obtain ⟨hsame, hsource⟩ := hU.alike loc' i' x' loc i x hloc' hloc hx' hx hkey hplain
  have hsource' (henc : loc.record.mode.isEncrypted = true) : loc'.source = loc.source :=
    hsource (hsame.mode ▸ henc)
  refine ⟨r, fun henc _ => ?_, Dump.blockUsing_of_sameBlock hsame hkey hsource' hentry hdecoded⟩
  obtain ⟨own, hown⟩ := Dump.ownResolution_of_ok hdecoded
  rw [← hsource' henc]
  exact hadm (hsame.mode ▸ henc) (by simp [hown])

theorem block_opens (hU : Unambiguous d t m) {entry : BlobEntry}
    (hentry : d.index.blobs[loc.source]? = some entry) (hloc : Listed t m loc) (i : ℕ) :
    (d.block loc i).Keeps (d.BlockInv cacheDir (Remembered d t m) (Cached d t m))
      fun a => a.isOk = true → Opened d t m loc i := by
  cases hx : loc.slot i with
  | none =>
    refine Call.Keeps.mono (Dump.block_answers_of_slot_none hx (.none 0)) fun a ha hok => ?_
    rw [ha, Dump.blockOf, hx] at hok
    cases hdat : loc.dat with
    | none =>
      rw [hdat] at hok
      obtain ⟨v, hv⟩ := isOk_iff.mp hok
      exact absurd hv Dump.missingDatOf_ne_ok
    | some dat =>
      rw [hdat] at hok
      cases hok
  | some x =>
    refine (Dump.block_keeps hx (fun henc r hr _ => remembered_own hloc hx henc hr)
      fun hplain r v hr hv => ⟨loc, i, x, r, hloc, hx, rfl, hplain, hr, hv⟩).mono fun a ha hok => ?_
    rcases ha with ⟨v, hv, rfl⟩ | ⟨r, hr, rfl⟩
    · obtain ⟨r, hr, hdecoded⟩ := hv.transfer hU hentry hloc hx
      exact ⟨x, r, v, hx, hr, hdecoded⟩
    · obtain ⟨v, hv⟩ := isOk_iff.mp hok
      exact ⟨x, r, v, hx, hr, hv⟩

theorem resolved_key (hverify : d.cfg.verify = true)
    (hopened : ∀ loc, Listed t m loc → ∀ i < loc.record.numBlocks, Opened d t m loc i)
    {source : ℕ} {r : KeyResolution} (h : Resolved d t m source r) : ∃ k, r.key = some k := by
  obtain ⟨loc, i, x, hloc, hx, hsource, henc, hown⟩ := h
  have hi : i < loc.record.numBlocks :=
    (List.getElem?_eq_some_iff.mp (FileLoc.slot_eq_some.mp hx).2.1).1
  obtain ⟨x', r', v, hx', hadm, hv⟩ := hopened loc hloc i hi
  rw [hx] at hx'
  cases hx'
  obtain ⟨k, hk, raw, hraw, hdecode⟩ := Dump.blockUsing_key hv henc
  -- the key that opened the block came from some block of the same blob
  obtain ⟨loc', i', x', -, -, hsource', -, hown'⟩ := hadm henc (by simp [hown]) r' rfl
  obtain ⟨sample', -, h'⟩ := bind_eq_ok.mp hown'
  obtain ⟨entry, hentry, h'⟩ := bind_eq_ok.mp h'
  cases h'
  have hknown : d.KnownKey entry k := Dump.resolution_known hk
  obtain ⟨sample, hsample, h⟩ := bind_eq_ok.mp hown
  obtain ⟨entry', hentry', h⟩ := bind_eq_ok.mp h
  cases h
  rw [hsource', hentry'] at hentry
  cases hentry
  rw [Dump.sampleOf, hraw] at hsample
  cases hsample
  exact Dump.resolution_of_works hknown (Dump.works_of_decodeBlock hverify hdecode)

theorem block_answers_opened (hverify : d.cfg.verify = true) (hU : Unambiguous d t m)
    (hopened : ∀ loc, Listed t m loc → ∀ i < loc.record.numBlocks, Opened d t m loc i)
    (hloc : Listed t m loc) (hlocated : d.Located cacheDir loc) (i : ℕ) :
    ∃ a, (d.block loc i).Answers (d.BlockInv cacheDir (Remembered d t m) (Cached d t m)) a ∧
      a.Returns ∧ (a.isOk = true ↔ i < loc.record.numBlocks) ∧
      ∀ v, a = .ok v → v.length = (loc.record.blockRange i).2 - (loc.record.blockRange i).1 := by
  obtain ⟨entry, hentry⟩ := hlocated.entry
  by_cases hi : i < loc.record.numBlocks
  · obtain ⟨x, r₀, v₀, hx, hadm, hv₀⟩ := hopened loc hloc i hi
    have huse (r : KeyResolution) (hr : d.Admits (Remembered d t m) loc i x r) :
        d.blockUsing r loc i x = d.blockUsing r₀ loc i x := by
      by_cases henc : loc.record.mode.isEncrypted = true
      · obtain ⟨own, hown⟩ := Dump.ownResolution_of_ok hv₀
        have hres : Resolved d t m loc.source r := hr henc (by simp [hown]) r rfl
        have hres₀ : Resolved d t m loc.source r₀ := hadm henc (by simp [hown]) r₀ rfl
        obtain ⟨k, hk⟩ := resolved_key hverify hopened hres
        obtain ⟨k₀, hk₀⟩ := resolved_key hverify hopened hres₀
        have hkk : k = k₀ := hU.oneKey _ _ _ _ _ hres hres₀ hk hk₀
        exact Dump.blockUsing_of_key hk (hkk ▸ hk₀)
      · rw [Bool.not_eq_true] at henc
        rw [Dump.blockUsing_plain henc r, Dump.blockUsing_plain henc r₀]
    have hans : (d.block loc i).Answers
        (d.BlockInv cacheDir (Remembered d t m) (Cached d t m)) (d.blockOf cacheDir r₀ loc i) := by
      refine Dump.block_answers (fun henc x' r hx' hr _ => remembered_own hloc hx' henc hr)
        (fun x' r hx' hr => ?_) (fun x' v hx' hv => ?_) fun x' v hx' hplain hv => ?_
      · rw [hx] at hx'
        cases hx'
        exact huse r hr
      · rw [hx] at hx'
        cases hx'
        obtain ⟨r, hr, hdecoded⟩ := hv.transfer hU hentry hloc hx
        rw [← huse r hr]
        exact hdecoded
      · rw [hx] at hx'
        cases hx'
        exact ⟨loc, i, x, r₀, hloc, hx, rfl, hplain, hadm, hv⟩
    rw [Dump.blockOf, hx] at hans
    dsimp only at hans
    rw [hv₀] at hans
    refine ⟨_, hans, returns_ok _, by simp [hi], ?_⟩
    rintro v ⟨⟩
    have hnum := hlocated.numBlocks
    exact Dump.blockUsing_length hv₀ (by omega)
  · have hx : loc.slot i = none := by
      by_contra hne
      obtain ⟨x, hx⟩ := Option.ne_none_iff_exists'.mp hne
      exact hi (List.getElem?_eq_some_iff.mp (FileLoc.slot_eq_some.mp hx).2.1).1
    have herr : ∃ e, d.blockOf cacheDir (.none 0) loc i = .err e := by
      rw [Dump.blockOf, hx]
      cases hdat : loc.dat with
      | none =>
        obtain ⟨e, he, -⟩ := hlocated.missingDatOf (α := Bytes)
        exact ⟨e, he⟩
      | some dat => exact ⟨_, rfl⟩
    obtain ⟨e, he⟩ := herr
    refine ⟨_, Dump.block_answers_of_slot_none hx (.none 0), ?_, ?_, ?_⟩
    · rw [he]
      exact returns_err _
    · simp [he, hi]
    · rw [he]
      rintro v ⟨⟩

theorem read_whole_iff (hverify : d.cfg.verify = true) (hU : Unambiguous d t m)
    (hopened : ∀ loc, Listed t m loc → ∀ i < loc.record.numBlocks, Opened d t m loc i)
    (hloc : Listed t m loc) (hlocated : d.Located cacheDir loc) :
    ∃ a, (d.read loc 0 loc.record.size).Answers
        (d.BlockInv cacheDir (Remembered d t m) (Cached d t m)) a ∧
      ((∃ v, a = .ok v ∧ v.length = loc.record.size.toNat) ↔ Sized loc) := by
  choose f hans hret hok hlen using block_answers_opened hverify hU hopened hloc hlocated
  have hexact : ExactBlocks loc f := fun i v hv => hlen i v hv
  have hsize : loc.record.size.toNat < 2 ^ 64 := loc.record.size.toNat_lt
  have hend : readEnd loc 0 loc.record.size = loc.record.size.toNat := by
    simp [readEnd]
  have hfit : (0 : UInt64).toNat + loc.record.size.toNat < 2 ^ 64 := by simpa using hsize
  have hnum := hlocated.numBlocks
  refine ⟨_, readWith_answers hans 0 loc.record.size, ?_⟩
  have hcover (i : ℕ) : Covers loc 0 loc.record.size i ↔
      i ≤ (loc.record.size.toNat - 1) / BLOCK_SIZE := by
    simp [Covers, hend]
  by_cases hsmall : loc.record.size.toNat ≤ isizeMax
  · have hsmall' : readEnd loc 0 loc.record.size - (0 : UInt64).toNat ≤ isizeMax := by
      rw [hend]
      simpa using hsmall
    have hread := readWith_exact hexact hret hfit hsmall'
    by_cases hzero : loc.record.size = 0
    · rw [hread.empty (Or.inr hzero)]
      simp [Sized, hzero]
    · have hpos : 0 < loc.record.size := UInt64.pos_iff_ne_zero.mpr hzero
      have hpos' : 0 < loc.record.size.toNat := UInt64.lt_iff_toNat_lt.mp hpos
      constructor
      · rintro ⟨v, hv, -⟩
        by_contra hbig
        unfold Sized at hbig
        -- the block after the last one the record lists is covered
        have hfirst : Covers loc 0 loc.record.size loc.record.numBlocks := by
          rw [hcover, Nat.le_div_iff_mul_le (by decide)]
          omega
        have hcovered := ((hread.ok_iff hpos hzero v).mp hv).1 _ hfirst
        exact lt_irrefl _ ((hok _).mp hcovered)
      · intro hsized
        have hall : ∀ i, Covers loc 0 loc.record.size i → (f i).isOk = true := by
          intro i hi
          rw [hok]
          have hle := (hcover i).mp hi
          rw [Nat.le_div_iff_mul_le (by decide)] at hle
          unfold Sized BLOCK_SIZE at *
          omega
        have hv := (hread.ok_iff hpos hzero _).mpr ⟨hall, rfl⟩
        refine ⟨_, hv, ?_⟩
        rw [readWith_length hexact hfit hsmall' hv, hend]
        simp
  · have hpanic : readWith loc f 0 loc.record.size = .panic :=
      readWith_panics hfit (by rw [hend]; simpa using hsmall)
    have hnot : ¬ Sized loc := by
      unfold Sized BLOCK_SIZE isizeMax at *
      omega
    simp [hpanic, hnot]

theorem readsWhole_iff (hverify : d.cfg.verify = true) (hU : Unambiguous d t m)
    (hopened : ∀ loc, Listed t m loc → ∀ i < loc.record.numBlocks, Opened d t m loc i)
    {id : ℕ} {s : Store} (hs : d.BlockInv cacheDir (Remembered d t m) (Cached d t m) s)
    (hcached : Lru.get id s.tables = some t) {node : UInt32} (hnode : node ∈ fileNodes m)
    (hloc : t.get (fileId m node) = some loc) (hlocated : d.Located cacheDir loc) :
    ReadsWhole d id s (fileId m node) ↔ Sized loc := by
  obtain ⟨a, hans, hiff⟩ := read_whole_iff hverify hU hopened ⟨node, hnode, hloc⟩ hlocated
  have hrun : (d.locate id (fileId m node)).run s =
      (.ok loc, { s with tables := Lru.touch id s.tables }) := Dump.locate_run_cached hcached hloc
  have hread := hans.run (Dump.BlockInv.tableLocal.tables s (Lru.touch id s.tables) hs)
  rw [← hiff]
  constructor
  · rintro ⟨loc', s', bytes, hloc', hbytes, hlen⟩
    rw [hrun] at hloc'
    cases hloc'
    rw [hread] at hbytes
    exact ⟨bytes, hbytes, hlen⟩
  · rintro ⟨bytes, hbytes, hlen⟩
    exact ⟨loc, _, bytes, hrun, hread.trans hbytes, hlen⟩

/-- A version that verifies without failures, whatever the workers did when,
can be read whole exactly when no record is larger than the blocks it lists. -/
theorem reads_whole_iff_sized (d : Dump) (cacheDir : ℕ → Option Bytes) (id jobs : ℕ)
    (t : FileTable) (m : Manifest) (v : Verify) (hverify : d.cfg.verify = true)
    (hends : Ends d cacheDir id jobs t m v) (hfailed : (summary m v).failed = 0)
    (hU : Unambiguous d t m) :
    (∀ node ∈ fileNodes m, ReadsWhole d id v.store (fileId m node)) ↔
      ∀ loc, Listed t m loc → Sized loc := by
  obtain ⟨s₁, p, s₂, htable, hparsed, -, pool, hpool, hjobs, hdone, rfl⟩ := hends
  have hlocated (loc : FileLoc) (hloc : Listed t m loc) : d.Located cacheDir loc := by
    obtain ⟨node, -, hget⟩ := hloc
    exact ((Dump.table_located id).run .new).1 t (congrArg Prod.fst htable) _ loc hget
  let I : Store → Prop := fun s =>
    d.BlockInv cacheDir (Remembered d t m) (Cached d t m) s ∧ Lru.get id s.tables = some t
  have hopens : Opens d t m I (Opened d t m) := by
    intro node hnode loc hloc i
    have hlisted : Listed t m loc := ⟨node, hnode, hloc⟩
    obtain ⟨entry, hentry⟩ := (hlocated loc hlisted).entry
    exact (Proc.Keeps.and (block_opens hU hentry hlisted i)
      ((Dump.cached_blockLocal id t).block_safe loc i)).mono fun a ha => ha.1
  have hstart : I s₂ := by
    have hnew : d.BlockInv cacheDir (Remembered d t m) (Cached d t m) (Store.new d cacheDir) :=
      .new fun _ _ h => by cases h
    have hinv₁ := (Call.Keeps.run (Dump.BlockInv.tableLocal.table_safe id) hnew).2
    rw [htable] at hinv₁
    have hinv₂ := (Call.Keeps.run (Dump.BlockInv.tableLocal.parsed id) hinv₁).2
    have hcached : Lru.get id ((d.parsed id).run s₁).2.tables = some t :=
      (Call.Keeps.run ((Dump.cached_blockLocal id t).parsed id)
        (Dump.table_run_cached htable)).2
    rw [hparsed] at hinv₂ hcached
    exact ⟨hinv₂, hcached⟩
  have hend : I pool.state.store := (moves hopens.keeping).inv hstart hpool
  have hsome : pool.threads ≠ [] := by
    intro hnil
    rw [hnil, List.length_nil] at hjobs
    omega
  have hintact := intact_of_reachable hopens hstart hpool hsome hdone (summary_failed.mp hfailed)
  have hopened : ∀ loc, Listed t m loc → ∀ i < loc.record.numBlocks, Opened d t m loc i := by
    rintro loc ⟨node, hnode, hloc⟩
    obtain ⟨loc', hloc', hall⟩ := hintact node hnode
    rw [hloc] at hloc'
    cases hloc'
    exact hall
  have hfile {node : UInt32} (hnode : node ∈ fileNodes m) {loc : FileLoc}
      (hloc : t.get (fileId m node) = some loc) :
      ReadsWhole d id pool.state.store (fileId m node) ↔ Sized loc :=
    readsWhole_iff hverify hU hopened hend.1 hend.2 hnode hloc (hlocated loc ⟨node, hnode, hloc⟩)
  constructor
  · rintro hall loc ⟨node, hnode, hloc⟩
    exact (hfile hnode hloc).mp (hall node hnode)
  · intro hsized node hnode
    obtain ⟨loc, hloc, -⟩ := hintact node hnode
    exact (hfile hnode hloc).mpr (hsized loc ⟨node, hnode, hloc⟩)

end Sound
end Verify

section Sample
open Verify

def hollowRecord : FileRecord := ⟨7, .plain, 0, 4, []⟩

def hollow : MemoryDump where
  blobs := [("5_1_000000aa_x.blob".toList, (VersionImage.flat [hollowRecord] 0 none).encode)]
  dats := [("5_1_00000005_x.dat".toList, [])]
  keys := .empty
  cfg := .plain

set_option maxRecDepth 20000 in
theorem hollow_verifies_unread :
    hollow.dump.cfg.verify = true ∧ ∃ t m v, Ends hollow.dump (fun _ => none) 0 1 t m v ∧
      (summary m v).failed = 0 ∧
      ¬ ∀ node ∈ fileNodes m, ReadsWhole hollow.dump 0 v.store (fileId m node) := by
  have hrun : (alone hollow.dump (fun _ => none) 0).any fun r =>
      (fileNodes r.2.1).map (fileId r.2.1) = [7] ∧ r.2.2.report = [] ∧
        ((hollow.dump.locate 0 7).run r.2.2.store).1 = .ok (firstLoc hollowRecord) ∧
        ((hollow.dump.read (firstLoc hollowRecord) 0 4).run
          ((hollow.dump.locate 0 7).run r.2.2.store).2).1 =
            .err ((firstLoc hollowRecord).noSuchBlock 0) := by
    decide +kernel
  obtain ⟨⟨t, m, v⟩, hends, hfacts⟩ := (Option.any_eq_true _ _).mp hrun
  obtain ⟨hnodes, hreport, hlocate, hread⟩ := of_decide_eq_true hfacts
  refine ⟨rfl, t, m, v, ends_alone hends, summary_failed.mpr hreport, fun hall => ?_⟩
  obtain ⟨node, hnode, hid⟩ : ∃ node ∈ fileNodes m, fileId m node = 7 := by
    have hmem : (7 : UInt32) ∈ (fileNodes m).map (fileId m) := by simp [hnodes]
    exact List.mem_map.mp hmem
  obtain ⟨loc, s', bytes, hloc, hbytes, -⟩ := hall node hnode
  rw [hid] at hloc
  rw [hloc] at hlocate hread
  cases hlocate
  exact absurd (hbytes.symm.trans hread) (by simp)

def pairRecord : FileRecord := ⟨7, .encrypted, 4, 2, [⟨2, Chunk.checksum [5, 6]⟩]⟩

/-- Two encrypted files of one blob, both intact under the configured key. -/
def twoEncrypted : MemoryDump where
  blobs := [("5_1_000000aa_x.blob".toList,
    (VersionImage.flat [intactRecord, pairRecord] 6 none).encode)]
  dats := [("5_1_00000005_x.dat".toList, [0x67, 0xeb, 0x48, 0xd0, 0x63, 0xef])]
  keys := halfDamaged.keys
  cfg := .plain

theorem twoEncrypted_unambiguous {t : FileTable} {m : Manifest}
    (hlisted : ∀ loc, Listed t m loc → loc = firstLoc intactRecord ∨ loc = firstLoc pairRecord) :
    Unambiguous twoEncrypted.dump t m := by
  have hfirst {loc : FileLoc} {i : ℕ} {x : Slot} (hloc : Listed t m loc)
      (hx : loc.slot i = some x) : i = 0 := by
    rcases hlisted loc hloc with rfl | rfl
    all_goals
      cases i with
      | zero => rfl
      | succ i => cases hx
  constructor
  · intro loc i x loc' i' x' hloc hloc' hx hx' hkey _
    cases hfirst hloc hx
    cases hfirst hloc' hx'
    -- The two blocks start at different places in the dat.
    rcases hlisted loc hloc with rfl | rfl <;> rcases hlisted loc' hloc' with rfl | rfl
    all_goals
      cases hx
      cases hx'
    · exact ⟨⟨rfl, rfl, rfl, rfl⟩, fun _ => rfl⟩
    · exact absurd hkey (by decide)
    · exact absurd hkey (by decide)
    · exact ⟨⟨rfl, rfl, rfl, rfl⟩, fun _ => rfl⟩
  · have hkeys : ∀ e ∈ twoEncrypted.dump.index.blobs,
        twoEncrypted.dump.keys.getForBlob e.depot e.crc = some zeroKey := by
      decide +kernel
    have hkey {source : ℕ} {r : KeyResolution} {k : Key}
        (hr : Resolved twoEncrypted.dump t m source r) (hk : r.key = some k) : k = zeroKey := by
      obtain ⟨loc, i, x, -, -, -, -, hown⟩ := hr
      obtain ⟨sample, -, hown⟩ := bind_eq_ok.mp hown
      obtain ⟨entry, hentry, hown⟩ := bind_eq_ok.mp hown
      cases hown
      have hmem : entry ∈ twoEncrypted.dump.index.blobs :=
        List.mem_of_getElem? (Dump.blob_eq_ok.mp hentry)
      rcases Dump.resolution_known hk with hconf | ⟨hsearch, -⟩
      · rw [hkeys entry hmem] at hconf
        exact (Option.some.inj hconf).symm
      · cases hsearch
    intro source r r' k k' hr hr' hk hk'
    rw [hkey hr hk, hkey hr' hk']

set_option maxRecDepth 20000 in
theorem twoEncrypted_verifies :
    ∃ t m v, Ends twoEncrypted.dump (fun _ => none) 0 1 t m v ∧ (summary m v).failed = 0 ∧
      (fileNodes m).map (fileId m) = [8, 7] ∧
      ∀ node ∈ fileNodes m, ReadsWhole twoEncrypted.dump 0 v.store (fileId m node) := by
  have hrun : (alone twoEncrypted.dump (fun _ => none) 0).any fun r =>
      (fileNodes r.2.1).map (fileId r.2.1) = [8, 7] ∧
        r.1.get 8 = some (firstLoc intactRecord) ∧ r.1.get 7 = some (firstLoc pairRecord) ∧
        r.2.2.report = [] := by
    decide +kernel
  obtain ⟨⟨t, m, v⟩, hends, hfacts⟩ := (Option.any_eq_true _ _).mp hrun
  obtain ⟨hids, hintact, hpair, hreport⟩ := of_decide_eq_true hfacts
  have hfailed : (summary m v).failed = 0 := summary_failed.mpr hreport
  have hlisted (loc : FileLoc) (h : Listed t m loc) :
      loc = firstLoc intactRecord ∨ loc = firstLoc pairRecord := by
    obtain ⟨node, hnode, hloc⟩ := h
    have hid : fileId m node ∈ (fileNodes m).map (fileId m) := List.mem_map_of_mem hnode
    rw [hids, List.mem_pair] at hid
    rcases hid with hid | hid
    · rw [hid, hintact] at hloc
      exact Or.inl (Option.some.inj hloc).symm
    · rw [hid, hpair] at hloc
      exact Or.inr (Option.some.inj hloc).symm
  refine ⟨t, m, v, ends_alone hends, hfailed, hids, ?_⟩
  refine (reads_whole_iff_sized _ _ _ _ t m v rfl (ends_alone hends) hfailed
    (twoEncrypted_unambiguous hlisted)).mpr fun loc hloc => ?_
  unfold Sized
  rcases hlisted loc hloc with rfl | rfl <;> decide

end Sample
end Steam2Fs
