import Steam2Fs.StoreTables

/-!
# Tables by their own layer

A record that a blob holds itself is found in the blob's own layer, whatever
the table inherits. So as far as such records go a table has one answer, with
nothing assumed of the parent links but that there are fewer blobs than
`chain` follows: links may come back on themselves, and blobs may fail to
load. It is built exactly when every blob the chain comes to loads.
-/

namespace Steam2Fs
open Outcome Relation

section Chains
variable {σ ε : Type} {I : σ → Prop}

theorem chainLoop_follows {par : ℕ → Call σ ε (Option ℕ)} {f : ℕ → Outcome ε (Option ℕ)}
    (hpar : ∀ b, (par b).Answers I (f b)) (fuel : ℕ) (out : List ℕ) (cur : ℕ) :
    (chainLoop par fuel out cur).Answers I (chainLoop f fuel out cur) := by
  induction fuel generalizing out cur with
  | zero => exact Call.answers_pure _
  | succ fuel ih =>
    refine (hpar cur).bind fun o _ => ?_
    cases o with
    | none => exact Call.answers_pure _
    | some p =>
      dsimp only
      split_ifs
      · exact Call.answers_pure _
      · exact ih _ _

def ParentLink (f : ℕ → Outcome ε (Option ℕ)) (b p : ℕ) : Prop := f b = .ok (some p)

variable {f : ℕ → Outcome ε (Option ℕ)} {n : ℕ}

theorem length_le_of_nodup {l : List ℕ} (hl : l.Nodup) (h : ∀ b ∈ l, b < n) : l.length ≤ n := by
  have hle := (hl.subperm fun b hb => List.mem_range.mpr (h b hb)).length_le
  rwa [List.length_range] at hle

theorem chainLoop_closed (hn : n ≤ CHAIN_LIMIT) (hf : ∀ b p, ParentLink f b p → p < n) {fuel : ℕ}
    {out l : List ℕ} {cur : ℕ} (hfuel : fuel + out.length = CHAIN_LIMIT + 2)
    (hnodup : out.Nodup) (hrange : ∀ b ∈ out, b < n)
    (hout : ∀ b ∈ out, b = cur ∨ ∃ o, f b = .ok o ∧ ∀ p ∈ o, p ∈ out)
    (h : chainLoop f fuel out cur = .ok l) :
    (∃ rest, l = out ++ rest) ∧ ∀ b ∈ l, ∃ o, f b = .ok o ∧ ∀ p ∈ o, p ∈ l := by
  induction fuel generalizing out cur with
  | zero =>
    have hlen := length_le_of_nodup hnodup hrange
    omega
  | succ fuel ih =>
    have hlen := length_le_of_nodup hnodup hrange
    obtain ⟨o, ho, h⟩ := bind_eq_ok.mp h
    have hdone (hin : ∀ p ∈ o, p ∈ out) (heq : (.ok out : Outcome ε (List ℕ)) = .ok l) :
        (∃ rest, l = out ++ rest) ∧ ∀ b ∈ l, ∃ o, f b = .ok o ∧ ∀ p ∈ o, p ∈ l := by
      cases heq
      refine ⟨⟨[], (List.append_nil _).symm⟩, fun b hb => ?_⟩
      rcases hout b hb with rfl | hasked
      · exact ⟨o, ho, hin⟩
      · exact hasked
    cases o with
    | none => exact hdone (fun p hp => by cases hp) h
    | some p =>
      dsimp only at h
      split_ifs at h with hstop
      · refine hdone (fun q hq => ?_) h
        cases hq
        exact hstop.resolve_right (by omega)
      · rw [not_or] at hstop
        have hp : p < n := hf cur p ho
        have hnodup' : (out ++ [p]).Nodup := by
          rw [List.nodup_append]
          refine ⟨hnodup, List.nodup_singleton p, fun b hb c hc => ?_⟩
          rw [List.mem_singleton.mp hc]
          rintro rfl
          exact hstop.1 hb
        have hrange' : ∀ b ∈ out ++ [p], b < n := by
          intro b hb
          rcases List.mem_append.mp hb with hb | hb
          · exact hrange b hb
          · rw [List.mem_singleton.mp hb]
            exact hp
        have hout' : ∀ b ∈ out ++ [p], b = p ∨ ∃ o, f b = .ok o ∧ ∀ q ∈ o, q ∈ out ++ [p] := by
          intro b hb
          rcases List.mem_append.mp hb with hb | hb
          · right
            rcases hout b hb with rfl | ⟨o', ho', hin⟩
            · exact ⟨some p, ho, fun q hq => by cases hq; simp⟩
            · exact ⟨o', ho', fun q hq => List.mem_append_left _ (hin q hq)⟩
          · exact Or.inl (List.mem_singleton.mp hb)
        obtain ⟨⟨rest, hrest⟩, hall⟩ := ih (by simp; omega) hnodup' hrange' hout' h
        exact ⟨⟨p :: rest, by rw [hrest, List.append_assoc]; rfl⟩, hall⟩

theorem chainLoop_ok {fuel : ℕ} {out : List ℕ} {cur : ℕ}
    (h : ∀ b, ReflTransGen (ParentLink f) cur b → ∃ o, f b = .ok o) :
    ∃ l, chainLoop f fuel out cur = .ok l := by
  induction fuel generalizing out cur with
  | zero => exact ⟨out, rfl⟩
  | succ fuel ih =>
    obtain ⟨o, ho⟩ := h cur .refl
    rw [chainLoop, ho, ok_bind]
    cases o with
    | none => exact ⟨out, rfl⟩
    | some p =>
      dsimp only
      split_ifs
      · exact ⟨out, rfl⟩
      · exact ih fun b hb => h b (.head ho hb)

end Chains

namespace Dump
variable (d : Dump) (cacheDir : ℕ → Option Bytes)

def parentIn (b : ℕ) : Outcome ReadError (Option ℕ) := do
  let p ← d.loaded cacheDir b
  d.parentOf b p

def chainOf (id : ℕ) : Outcome ReadError (List ℕ) := chainWith (d.parentIn cacheDir) id

/-- The table of a blob, as far as its own records go. -/
def Topped (id : ℕ) (t : FileTable) : Prop :=
  (∃ l, d.chainOf cacheDir id = .ok l) ∧
    ∃ inherited, t = .layer (d.layerOf cacheDir id) inherited

def TopInv (s : Store) : Prop :=
  d.Loads cacheDir s ∧ ∀ e ∈ s.tables, d.Topped cacheDir e.1 e.2

section Tops
variable {d cacheDir} {id : ℕ}

theorem parentIn_range {b p : ℕ} (h : ParentLink (d.parentIn cacheDir) b p) :
    p < d.index.blobs.length := by
  obtain ⟨q, hq, hparent⟩ := bind_eq_ok.mp h
  obtain ⟨entry, hentry, -⟩ := bind_eq_ok.mp hparent
  have hid := (List.getElem?_eq_some_iff.mp (blob_eq_ok.mp hentry)).1
  obtain ⟨o, ho, hrange⟩ := parentOf_ok (d := d) (p := q) hid
  rw [hparent] at ho
  cases ho
  exact hrange p rfl

theorem loaded_of_parentIn {b : ℕ} {o : Option ℕ} (h : d.parentIn cacheDir b = .ok o) :
    ∃ p, d.loaded cacheDir b = .ok p ∧ d.ownRecords b p = .ok (d.layerOf cacheDir b) := by
  obtain ⟨p, hp, hparent⟩ := bind_eq_ok.mp h
  obtain ⟨entry, hentry, -⟩ := bind_eq_ok.mp hparent
  have hid := (List.getElem?_eq_some_iff.mp (blob_eq_ok.mp hentry)).1
  exact ⟨p, hp, (links_of_loaded hp hid).2.1⟩

theorem chainOf_spec (hn : d.index.blobs.length ≤ CHAIN_LIMIT)
    (hid : id < d.index.blobs.length) {l : List ℕ} (h : d.chainOf cacheDir id = .ok l) :
    (∃ pre, l = pre ++ [id]) ∧ ∀ b ∈ l, (∃ o, d.parentIn cacheDir b = .ok o) ∧
      ∃ l', d.chainOf cacheDir b = .ok l' := by
  obtain ⟨out, hout, heq⟩ := bind_eq_ok.mp h
  cases heq
  obtain ⟨⟨rest, hrest⟩, hall⟩ := chainLoop_closed hn (fun b p => parentIn_range) rfl
    (List.nodup_singleton id) (by simpa using hid) (by simp) hout
  refine ⟨⟨rest.reverse, by rw [hrest]; simp⟩, fun b hb => ?_⟩
  have hmem := List.mem_reverse.mp hb
  obtain ⟨o, ho, -⟩ := hall b hmem
  refine ⟨⟨o, ho⟩, ?_⟩
  have hreach : ∀ c, ReflTransGen (ParentLink (d.parentIn cacheDir)) b c → c ∈ out := by
    intro c hc
    induction hc with
    | refl => exact hmem
    | tail _ hlink ih =>
      obtain ⟨o, ho, hin⟩ := hall _ ih
      rw [hlink] at ho
      cases ho
      exact hin _ rfl
  have hok : ∀ c, ReflTransGen (ParentLink (d.parentIn cacheDir)) b c →
      ∃ o, d.parentIn cacheDir c = .ok o := by
    intro c hc
    obtain ⟨o, ho, -⟩ := hall c (hreach c hc)
    exact ⟨o, ho⟩
  obtain ⟨l', hl'⟩ : ∃ l', chainLoop (d.parentIn cacheDir) (CHAIN_LIMIT + 1) [b] b = .ok l' :=
    chainLoop_ok hok
  exact ⟨l'.reverse, by rw [chainOf, chainWith, hl']; rfl⟩

theorem parsed_answers_tops (id : ℕ) :
    (d.parsed id).Answers (d.TopInv cacheDir) (d.loaded cacheDir id) := by
  refine parsed_answers.frame parsed_within fun s s' hframe hs => ?_
  rw [hframe.1]
  exact hs

theorem chain_answers_tops (id : ℕ) :
    (d.chain id).Answers (d.TopInv cacheDir) (d.chainOf cacheDir id) := by
  have hparent (b : ℕ) : (d.parent b).Answers (d.TopInv cacheDir) (d.parentIn cacheDir b) :=
    (parsed_answers_tops b).bind fun p _ => Call.answers_lift _
  exact (chainLoop_follows hparent _ _ _).bind fun out _ => Call.answers_pure _

theorem getTable_keeps_tops (id : ℕ) :
    (getTable id).Keeps (d.TopInv cacheDir) fun a =>
      ∃ o, a = .ok o ∧ ∀ t ∈ o, d.Topped cacheDir id t := by
  refine Call.keeps_atomic fun s hs => ⟨⟨hs.1.of_eq (fun _ he => he) rfl, ?_⟩, _, rfl, ?_⟩
  · exact fun e he => hs.2 e (Lru.mem_touch he)
  · exact fun t ht => hs.2 _ (Lru.mem_of_get ht)

theorem putTable_answers_tops {t : FileTable} (h : d.Topped cacheDir id t) :
    (putTable id t).Answers (d.TopInv cacheDir) (.ok ()) := by
  refine Call.keeps_atomic fun s hs => ⟨⟨hs.1.of_eq (fun _ he => he) rfl, fun e he => ?_⟩, rfl⟩
  rcases Lru.mem_put he with rfl | he
  · exact h
  · exact hs.2 e he

theorem buildLoop_keeps_tops {bs : List ℕ} (hbs : ∀ b ∈ bs,
    (∃ o, d.parentIn cacheDir b = .ok o) ∧ ∃ l, d.chainOf cacheDir b = .ok l)
    (inherited : Option FileTable) :
    (d.buildLoop bs inherited).Keeps (d.TopInv cacheDir) fun a =>
      ∃ o, a = .ok o ∧ ∀ id ∈ bs.getLast?, ∃ t, o = some t ∧ d.Topped cacheDir id t := by
  induction bs generalizing inherited with
  | nil => exact ⟨inherited, rfl, by simp⟩
  | cons b bs ih =>
    have ih := ih fun c hc => hbs c (List.mem_cons_of_mem b hc)
    have hrest {t : FileTable} (ht : d.Topped cacheDir b t) :
        (d.buildLoop bs (some t)).Keeps (d.TopInv cacheDir) fun a =>
          ∃ o, a = .ok o ∧ ∀ id ∈ (b :: bs).getLast?, ∃ t, o = some t ∧
            d.Topped cacheDir id t := by
      cases bs with
      | nil => exact ⟨some t, rfl, fun id hlast => ⟨t, rfl, by cases hlast; exact ht⟩⟩
      | cons c bs =>
        rw [List.getLast?_cons_cons]
        exact ih (some t)
    refine (getTable_keeps_tops b).bind (fun o ho => ?_) (by simp) (by simp)
    obtain ⟨o', ho', htop⟩ := ho
    cases ho'
    cases o with
    | some t => exact hrest (htop t rfl)
    | none =>
      obtain ⟨⟨q, hq⟩, l, hl⟩ := hbs b List.mem_cons_self
      obtain ⟨p, hp, hown⟩ := loaded_of_parentIn hq
      have hparsed : (d.parsed b).Answers (d.TopInv cacheDir) (d.loaded cacheDir b) :=
        parsed_answers_tops b
      rw [hp] at hparsed
      have hlayer : (d.ownTable b inherited).Answers (d.TopInv cacheDir)
          (.ok (.layer (d.layerOf cacheDir b) inherited)) := by
        refine hparsed.bind (g := fun _ => .ok _) fun q hq => ?_
        cases hq
        rw [hown]
        exact Call.answers_pure (FileTable.layer (d.layerOf cacheDir b) inherited)
      refine Call.Keeps.bind hlayer (fun t ht => ?_) (by simp) (by simp)
      cases ht
      have htopped : d.Topped cacheDir b (.layer (d.layerOf cacheDir b) inherited) :=
        ⟨⟨l, hl⟩, inherited, rfl⟩
      exact Call.Keeps.bind (putTable_answers_tops htopped) (fun _ _ => hrest htopped) (by simp)
        (by simp)

/-- A table is built exactly when the chain can be followed. -/
def TableAnswer (d : Dump) (cacheDir : ℕ → Option Bytes) (id : ℕ) (a : Outcome ReadError FileTable) :
    Prop :=
  (∃ t, a = .ok t ∧ d.Topped cacheDir id t) ∨
    (∀ l, d.chainOf cacheDir id ≠ .ok l) ∧ a = (d.chainOf cacheDir id >>= fun _ => .panic)

theorem table_keeps_tops (hn : d.index.blobs.length ≤ CHAIN_LIMIT)
    (hid : id < d.index.blobs.length) :
    (d.table id).Keeps (d.TopInv cacheDir) (d.TableAnswer cacheDir id) := by
  have hbuild : (d.buildTable id).Keeps (d.TopInv cacheDir) (d.TableAnswer cacheDir id) := by
    refine (getTable_keeps_tops id).bind (fun o ho => ?_) (by simp) (by simp)
    obtain ⟨o', ho', htop⟩ := ho
    cases ho'
    cases o with
    | some t => exact Or.inl ⟨t, rfl, htop t rfl⟩
    | none =>
      refine Call.Keeps.bind (chain_answers_tops id) (fun l hl => ?_) (fun e he => ?_) fun hp => ?_
      · obtain ⟨⟨pre, hpre⟩, hall⟩ := chainOf_spec hn hid hl.symm
        refine (buildLoop_keeps_tops hall none).bind (fun o ho => ?_) (by simp) (by simp)
        obtain ⟨o', ho', htop⟩ := ho
        cases ho'
        obtain ⟨t, rfl, ht⟩ := htop id (by rw [hpre, List.getLast?_concat]; rfl)
        exact Or.inl ⟨t, rfl, ht⟩
      · right
        rw [← he]
        exact ⟨nofun, rfl⟩
      · right
        rw [← hp]
        exact ⟨nofun, rfl⟩
  refine (getTable_keeps_tops id).bind (fun o ho => ?_) (by simp) (by simp)
  obtain ⟨o', ho', htop⟩ := ho
  cases ho'
  cases o with
  | some t => exact Or.inl ⟨t, rfl, htop t rfl⟩
  | none => exact hbuild

def locateOwn (d : Dump) (cacheDir : ℕ → Option Bytes) (id : ℕ) (fileId : UInt32) :
    Outcome ReadError FileLoc := do
  let _ ← d.chainOf cacheDir id
  Outcome.ofOption (.missingRecord fileId) ((d.layerOf cacheDir id).lookup fileId)

theorem layer_get_own {own : List (UInt32 × FileLoc)} {inherited : Option FileTable}
    {fileId : UInt32} {loc : FileLoc} (h : own.lookup fileId = some loc) :
    (FileTable.layer own inherited).get fileId = some loc := by
  cases inherited with
  | none => exact h
  | some t =>
    rw [FileTable.layer, FileTable.get, h]

theorem layerOf_own {p : ParsedBlob} (hp : d.loaded cacheDir id = .ok p)
    (hid : id < d.index.blobs.length) {r : FileRecord} (hr : r ∈ p.records) :
    ∃ entry r', (d.layerOf cacheDir id).lookup r.fileId = some (d.locOf id entry p r') ∧
      d.index.blobs[id]? = some entry ∧ r' ∈ p.records ∧ r'.fileId = r.fileId := by
  obtain ⟨-, hown, -⟩ := links_of_loaded hp hid
  have hentry := List.getElem?_eq_getElem hid
  unfold ownRecords at hown
  rw [blob_eq_ok.mpr hentry, ok_bind, ← List.foldr_reverse, List.foldr_cons_eq_append,
    List.append_nil] at hown
  rw [← Outcome.ok.inj hown, lookup_map_find]
  have hsome : (p.records.reverse.find? fun r' => r'.fileId = r.fileId).isSome := by
    rw [List.find?_isSome]
    exact ⟨r, List.mem_reverse.mpr hr, by simp⟩
  obtain ⟨r', hr'⟩ := Option.isSome_iff_exists.mp hsome
  refine ⟨_, r', by rw [hr']; rfl, hentry, ?_, ?_⟩
  · exact List.mem_reverse.mp (List.mem_of_find?_eq_some hr')
  · simpa using List.find?_some hr'

theorem locate_answers_tops (hn : d.index.blobs.length ≤ CHAIN_LIMIT)
    (hid : id < d.index.blobs.length) {p : ParsedBlob} (hp : d.loaded cacheDir id = .ok p)
    {r : FileRecord} (hr : r ∈ p.records) :
    (d.locate id r.fileId).Answers (d.TopInv cacheDir) (d.locateOwn cacheDir id r.fileId) := by
  obtain ⟨entry, r', hlook, -⟩ := layerOf_own hp hid hr
  refine (table_keeps_tops hn hid).bind (fun t ht => ?_) (fun e he => ?_) fun hpanic => ?_
  · rcases ht with ⟨t', ht, ⟨l, hl⟩, inherited, rfl⟩ | ⟨-, ht⟩
    · cases ht
      have hget : (FileTable.layer (d.layerOf cacheDir id) inherited).get r.fileId =
          some (d.locOf id entry p r') := layer_get_own hlook
      unfold locateOwn
      rw [hl, hlook, ok_bind, hget]
      exact Call.answers_lift _
    · cases hc : d.chainOf cacheDir id with
      | ok l => rw [hc] at ht; cases ht
      | err e => rw [hc] at ht; cases ht
      | panic => rw [hc] at ht; cases ht
  · rcases he with ⟨t, ht, -⟩ | ⟨hno, he⟩
    · cases ht
    · unfold locateOwn
      cases hc : d.chainOf cacheDir id with
      | ok l => exact absurd hc (hno l)
      | err e' => rw [hc] at he; cases he; rfl
      | panic => rw [hc] at he; cases he
  · rcases hpanic with ⟨t, ht, -⟩ | ⟨hno, hpanic⟩
    · cases ht
    · unfold locateOwn
      cases hc : d.chainOf cacheDir id with
      | ok l => exact absurd hc (hno l)
      | err e' => rw [hc] at hpanic; cases hpanic
      | panic => rfl

end Tops

end Dump
end Steam2Fs
