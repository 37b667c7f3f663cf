import Steam2Fs.StoreTables

/-!
# File tables of blobs that point at each other

`chain` cuts a cycle of parent links where it would come back to a blob it has
seen, so the cut depends on the blob it starts from, but the layers of the
tables built on the way are cached under the blobs' own ids. A later request
for one of them finds a table that ends at the other blob's cut, and misses
the records beyond it. Requests are independent of each other exactly when
nothing is recorded only beyond a cut: every file on the chain of a blob is
also on the part of a chain through it that the table cache keeps.
-/

namespace Steam2Fs
open Outcome Walk Relation

namespace Dump

section Line
variable (d : Dump) (cacheDir : ℕ → Option Bytes)

def line (id : ℕ) : List ℕ :=
  chainLoop (m := Id) (fun b => pure (d.up cacheDir b)) (CHAIN_LIMIT + 1) [id] id

variable {d cacheDir}

theorem chainLoop_id_succ (next : ℕ → Option ℕ) (fuel : ℕ) (out : List ℕ) (cur : ℕ) :
    chainLoop (m := Id) (fun b => pure (next b)) (fuel + 1) out cur =
      match next cur with
      | none => out
      | some p => if p ∈ out ∨ out.length > CHAIN_LIMIT then out
        else chainLoop (m := Id) (fun b => pure (next b)) fuel (out ++ [p]) p := by
  change (match next cur with
    | none => pure out
    | some p => if p ∈ out ∨ out.length > CHAIN_LIMIT then pure out
      else chainLoop (m := Id) (fun b => pure (next b)) fuel (out ++ [p]) p) = _
  cases next cur with
  | none => rfl
  | some p => rfl

theorem chainLoop_stretch {next : ℕ → Option ℕ} {fuel x cur : ℕ} {out : List ℕ}
    (hhead : out.head? = some x) (hlast : out.getLast? = some cur)
    (hchain : out.IsChain (Link next)) (hnodup : out.Nodup)
    (hfuel : fuel + out.length = CHAIN_LIMIT + 2) (hlen : out.length ≤ CHAIN_LIMIT + 1) :
    Stretch next (CHAIN_LIMIT + 1) x
      (chainLoop (m := Id) (fun b => pure (next b)) fuel out cur) := by
  induction fuel generalizing out cur with
  | zero => omega
  | succ fuel ih =>
    rw [chainLoop_id_succ]
    cases hnext : next cur with
    | none =>
      refine ⟨hhead, hchain, hnodup, hlen, fun y hy p hp => ?_⟩
      rw [hlast] at hy
      cases hy
      rw [hnext] at hp
      cases hp
    | some p =>
      dsimp only
      split_ifs with hstop
      · refine ⟨hhead, hchain, hnodup, hlen, fun y hy q hq => ?_⟩
        rw [hlast] at hy
        cases hy
        rw [hnext] at hq
        cases hq
        rcases hstop with hmem | hlong
        · exact Or.inl hmem
        · exact Or.inr (by omega)
      · rw [not_or] at hstop
        apply ih
        · rw [List.head?_append, hhead]
          rfl
        · rw [List.getLast?_concat]
        · rw [List.isChain_append]
          refine ⟨hchain, List.isChain_singleton p, fun y hy z hz => ?_⟩
          rw [hlast] at hy
          cases hy
          cases hz
          exact hnext
        · rw [List.nodup_append]
          refine ⟨hnodup, List.nodup_singleton p, fun y hy z hz => ?_⟩
          rw [List.mem_singleton.mp hz]
          rintro rfl
          exact hstop.1 hy
        · rw [List.length_append, List.length_singleton]
          omega
        · rw [List.length_append, List.length_singleton]
          omega

variable (d cacheDir) in
theorem line_stretch (id : ℕ) :
    Stretch (d.up cacheDir) (CHAIN_LIMIT + 1) id (d.line cacheDir id) :=
  chainLoop_stretch rfl rfl (List.isChain_singleton id) (List.nodup_singleton id) rfl
    (Nat.le_add_left 1 CHAIN_LIMIT)

theorem line_inRange (hall : d.AllParse cacheDir) {id b : ℕ} (hid : id < d.index.blobs.length)
    (h : b ∈ d.line cacheDir id) : b < d.index.blobs.length :=
  reaches_inRange hall hid ((d.line_stretch cacheDir id).reaches h)

def ReachedParse (d : Dump) (cacheDir : ℕ → Option Bytes) (id : ℕ) : Prop :=
  ∀ b, ReflTransGen (Link (d.up cacheDir)) id b → ∃ p, d.loaded cacheDir b = .ok p

theorem AllParse.reached (hall : d.AllParse cacheDir) {id : ℕ} (hid : id < d.index.blobs.length) :
    d.ReachedParse cacheDir id :=
  fun b hb => hall b (reaches_inRange hall hid hb)

theorem ReachedParse.step {id p : ℕ} (h : d.ReachedParse cacheDir id)
    (hup : d.up cacheDir id = some p) : d.ReachedParse cacheDir p :=
  fun b hb => h b (.head hup hb)

theorem ReachedParse.inRange {id p : ℕ} (h : d.ReachedParse cacheDir id)
    (hid : id < d.index.blobs.length) (hup : d.up cacheDir id = some p) :
    p < d.index.blobs.length := by
  obtain ⟨q, hq⟩ := h id .refl
  exact (links_of_loaded hq hid).2.2 p hup

theorem chainLoop_line {I : Store → Prop}
    (hI : ∀ b, (d.parsed b).Answers I (d.loaded cacheDir b)) (fuel : ℕ) (out : List ℕ) {cur : ℕ}
    (hcur : cur < d.index.blobs.length) (h : d.ReachedParse cacheDir cur) :
    (chainLoop d.parent fuel out cur).Answers I
      (.ok (chainLoop (m := Id) (fun b => pure (d.up cacheDir b)) fuel out cur)) := by
  induction fuel generalizing out cur with
  | zero => exact Call.answers_pure out
  | succ fuel ih =>
    refine (parent_answers hI (h cur .refl) hcur).bind (g := fun o => .ok (match o with
      | none => out
      | some p => if p ∈ out ∨ out.length > CHAIN_LIMIT then out
        else chainLoop (m := Id) (fun b => pure (d.up cacheDir b)) fuel (out ++ [p]) p))
      fun o ho => ?_
    cases ho
    cases hup : d.up cacheDir cur with
    | none => exact Call.answers_pure out
    | some p =>
      dsimp only
      split_ifs
      · exact Call.answers_pure out
      · exact ih _ (h.inRange hcur hup) (h.step hup)

theorem chain_line {I : Store → Prop} (hI : ∀ b, (d.parsed b).Answers I (d.loaded cacheDir b))
    {id : ℕ} (hid : id < d.index.blobs.length) (h : d.ReachedParse cacheDir id) :
    (d.chain id).Answers I (.ok (d.line cacheDir id).reverse) := by
  have hloop := chainLoop_line hI (CHAIN_LIMIT + 1) [id] hid h
  exact hloop.bind (g := fun out => .ok out.reverse) fun _ _ => Call.answers_pure _

end Line

/-! ### Runs of `table` -/

section Runs
variable {d : Dump} {cacheDir : ℕ → Option Bytes}

/-- A state of the store in which the table cache holds `c`. -/
def Holds (d : Dump) (cacheDir : ℕ → Option Bytes) (c : List (ℕ × FileTable)) (s : Store) : Prop :=
  d.Loads cacheDir s ∧ s.tables = c

theorem parsed_holds {c : List (ℕ × FileTable)} (b : ℕ) :
    (d.parsed b).Answers (d.Holds cacheDir c) (d.loaded cacheDir b) := by
  refine parsed_answers.frame parsed_within fun s s' hframe hs => ?_
  rw [hframe.1]
  exact hs

def layers (d : Dump) (cacheDir : ℕ → Option Bytes) : List ℕ → List (ℕ × FileTable)
  | [] => []
  | b :: bs => (b, .layer (d.layerOf cacheDir b) (d.tableOf cacheDir bs)) :: layers d cacheDir bs

theorem layers_keys (l : List ℕ) : (d.layers cacheDir l).map Prod.fst = l := by
  induction l with
  | nil => rfl
  | cons b bs ih => rw [layers, List.map_cons, ih]

theorem getTable_holds (id : ℕ) {c : List (ℕ × FileTable)} {s : Store} (hs : d.Holds cacheDir c s) :
    ∃ s', (getTable id).run s = (.ok (Lru.get id c), s') ∧
      d.Holds cacheDir (Lru.touch id c) s' := by
  obtain ⟨hloads, rfl⟩ := hs
  exact ⟨_, rfl, hloads.of_eq (fun _ he => he) rfl, rfl⟩

theorem putTable_holds (id : ℕ) (t : FileTable) {c : List (ℕ × FileTable)} {s : Store}
    (hs : d.Holds cacheDir c s) :
    ∃ s', (putTable id t).run s = (.ok (), s') ∧
      d.Holds cacheDir (Lru.put TABLE_CAPACITY id t c) s' := by
  obtain ⟨hloads, rfl⟩ := hs
  exact ⟨_, rfl, hloads.of_eq (fun _ he => he) rfl, rfl⟩

theorem ownTable_holds (hall : d.AllParse cacheDir) {id : ℕ} (hid : id < d.index.blobs.length)
    (parent : Option FileTable) {c : List (ℕ × FileTable)} {s : Store}
    (hs : d.Holds cacheDir c s) :
    ∃ s', (d.ownTable id parent).run s = (.ok (.layer (d.layerOf cacheDir id) parent), s') ∧
      d.Holds cacheDir c s' := by
  obtain ⟨hans, hkept⟩ := Call.Keeps.run (ownTable_answers parsed_holds hall hid parent) hs
  exact ⟨_, Prod.ext hans rfl, hkept⟩

theorem chain_holds (hall : d.AllParse cacheDir) {id : ℕ} (hid : id < d.index.blobs.length)
    {c : List (ℕ × FileTable)} {s : Store} (hs : d.Holds cacheDir c s) :
    ∃ s', (d.chain id).run s = (.ok (d.line cacheDir id).reverse, s') ∧
      d.Holds cacheDir c s' := by
  obtain ⟨hans, hkept⟩ := Call.Keeps.run (chain_line parsed_holds hid (hall.reached hid)) hs
  exact ⟨_, Prod.ext hans rfl, hkept⟩

theorem touch_of_get_none {id : ℕ} {c : List (ℕ × FileTable)} (h : Lru.get id c = none) :
    Lru.touch id c = c := by
  rw [Lru.touch, h]

theorem buildLoop_run (hall : d.AllParse cacheDir) {b : ℕ} (hb : b < d.index.blobs.length)
    (bs : List ℕ) (parent : Option FileTable) {c : List (ℕ × FileTable)} {s : Store}
    (hs : d.Holds cacheDir c s) :
    match Lru.get b c with
    | some t => ∃ s', (d.buildLoop (b :: bs) parent).run s = (d.buildLoop bs (some t)).run s' ∧
        d.Holds cacheDir (Lru.touch b c) s'
    | none => ∃ s', (d.buildLoop (b :: bs) parent).run s =
        (d.buildLoop bs (some (.layer (d.layerOf cacheDir b) parent))).run s' ∧
        d.Holds cacheDir (Lru.put TABLE_CAPACITY b (.layer (d.layerOf cacheDir b) parent) c) s' := by
  obtain ⟨s₁, hget, hs₁⟩ := getTable_holds b hs
  cases hc : Lru.get b c with
  | some t =>
    refine ⟨s₁, ?_, hs₁⟩
    rw [buildLoop, Call.run_bind, hget, hc]
  | none =>
    rw [touch_of_get_none hc] at hs₁
    obtain ⟨s₂, hown, hs₂⟩ := ownTable_holds hall hb parent hs₁
    obtain ⟨s₃, hput, hs₃⟩ := putTable_holds b (.layer (d.layerOf cacheDir b) parent) hs₂
    refine ⟨s₃, ?_, hs₃⟩
    rw [buildLoop, Call.run_bind, hget, hc]
    dsimp only
    rw [Call.run_bind, hown]
    dsimp only
    rw [Call.run_bind, hput]

theorem layers_getElem? (l : List ℕ) (j : ℕ) :
    (d.layers cacheDir l)[j]? = (l[j]?).map fun b =>
      (b, .layer (d.layerOf cacheDir b) (d.tableOf cacheDir (l.drop (j + 1)))) := by
  induction l generalizing j with
  | nil => rfl
  | cons b bs ih =>
    cases j with
    | zero => rfl
    | succ j => exact ih j

theorem mem_layers_take {l : List ℕ} {n : ℕ} {e : ℕ × FileTable} :
    e ∈ (d.layers cacheDir l).take n ↔
      ∃ j < n, l[j]? = some e.1 ∧ d.tableOf cacheDir (l.drop j) = some e.2 := by
  rw [List.mem_iff_getElem?]
  constructor
  · intro h
    obtain ⟨j, hj⟩ := h
    rw [List.getElem?_take] at hj
    split_ifs at hj with hlt
    rw [layers_getElem?, Option.map_eq_some_iff] at hj
    obtain ⟨b, hb, rfl⟩ := hj
    obtain ⟨hlen, hget⟩ := List.getElem?_eq_some_iff.mp hb
    refine ⟨j, hlt, hb, ?_⟩
    rw [List.drop_eq_getElem_cons hlen, hget]
    rfl
  · intro h
    obtain ⟨j, hlt, hb, htable⟩ := h
    obtain ⟨hlen, hget⟩ := List.getElem?_eq_some_iff.mp hb
    rw [List.drop_eq_getElem_cons hlen, hget, tableOf, Option.some.injEq] at htable
    refine ⟨j, ?_⟩
    rw [List.getElem?_take, if_pos hlt, layers_getElem?, hb, Option.map_some, htable]

theorem get_layers_take {l : List ℕ} (hl : l.Nodup) {j n b : ℕ} (hlt : j < n)
    (hb : l[j]? = some b) :
    ∃ t, Lru.get b ((d.layers cacheDir l).take n) = some t ∧
      d.tableOf cacheDir (l.drop j) = some t := by
  have hne : l.drop j ≠ [] := by
    rw [Ne, List.drop_eq_nil_iff, Nat.not_le]
    exact (List.getElem?_eq_some_iff.mp hb).1
  obtain ⟨t, ht⟩ : ∃ t, d.tableOf cacheDir (l.drop j) = some t := tableOf_isSome hne
  refine ⟨t, Lru.get_of_mem ?_ (mem_layers_take.mpr ⟨j, hlt, hb, ht⟩), ht⟩
  rw [List.map_take, layers_keys]
  exact hl.sublist (List.take_sublist n l)

theorem buildLoop_new (hall : d.AllParse cacheDir) {bs pre : List ℕ}
    (hr : ∀ b ∈ bs, b < d.index.blobs.length) (hn : (bs.reverse ++ pre).Nodup) {s : Store}
    (hs : d.Holds cacheDir ((d.layers cacheDir pre).take TABLE_CAPACITY) s) :
    ∃ s', (d.buildLoop bs (d.tableOf cacheDir pre)).run s =
        (.ok (d.tableOf cacheDir (bs.reverse ++ pre)), s') ∧
      d.Holds cacheDir ((d.layers cacheDir (bs.reverse ++ pre)).take TABLE_CAPACITY) s' := by
  induction bs generalizing pre s with
  | nil => exact ⟨s, rfl, hs⟩
  | cons b bs ih =>
    rw [List.reverse_cons, List.append_assoc, List.singleton_append] at hn ⊢
    have hb : b ∉ pre := (List.nodup_cons.mp (List.Nodup.of_append_right hn)).1
    have hmiss : Lru.get b ((d.layers cacheDir pre).take TABLE_CAPACITY) = none := by
      apply Lru.get_eq_none
      intro e he heq
      obtain ⟨j, -, hj, -⟩ := mem_layers_take.mp he
      rw [heq] at hj
      exact hb (List.mem_of_getElem? hj)
    have hround := buildLoop_run hall (hr b List.mem_cons_self) bs (d.tableOf cacheDir pre) hs
    rw [hmiss] at hround
    obtain ⟨s₁, hrun, hs₁⟩ := hround
    rw [Lru.put_take hmiss] at hs₁
    obtain ⟨s', hrec, hs'⟩ := ih (fun x hx => hr x (List.mem_cons_of_mem _ hx)) hn hs₁
    exact ⟨s', hrun.trans hrec, hs'⟩

theorem table_run_hit {id : ℕ} {c : List (ℕ × FileTable)} {s : Store} {t : FileTable}
    (hs : d.Holds cacheDir c s) (hc : Lru.get id c = some t) :
    ∃ s', (d.table id).run s = (.ok t, s') := by
  obtain ⟨s', hget, -⟩ := getTable_holds id hs
  refine ⟨s', ?_⟩
  rw [table, Call.run_bind, hget, hc]
  rfl

theorem table_run_miss (hall : d.AllParse cacheDir) {id : ℕ} (hid : id < d.index.blobs.length)
    {c : List (ℕ × FileTable)} {s : Store} (hs : d.Holds cacheDir c s)
    (hc : Lru.get id c = none) :
    ∃ s₁, d.Holds cacheDir c s₁ ∧ ∀ t s', (d.buildLoop (d.line cacheDir id).reverse none).run s₁ =
      (.ok (some t), s') → (d.table id).run s = (.ok t, s') := by
  obtain ⟨s₁, hget, hs₁⟩ := getTable_holds id hs
  rw [touch_of_get_none hc] at hs₁
  obtain ⟨s₂, hget₂, hs₂⟩ := getTable_holds id hs₁
  rw [touch_of_get_none hc] at hs₂
  obtain ⟨s₃, hchain, hs₃⟩ := chain_holds hall hid hs₂
  refine ⟨s₃, hs₃, fun t s' hloop => ?_⟩
  rw [table, Call.run_bind, hget, hc]
  dsimp only
  rw [buildTable, Call.run_bind, hget₂, hc]
  dsimp only
  rw [Call.run_bind, hchain]
  dsimp only
  rw [Call.run_bind, hloop]
  rfl

theorem table_new (hall : d.AllParse cacheDir) {id : ℕ} (hid : id < d.index.blobs.length) :
    ∃ t s', (d.table id).run (Store.new d cacheDir) = (.ok t, s') ∧
      d.tableOf cacheDir (d.line cacheDir id) = some t ∧
      d.Holds cacheDir ((d.layers cacheDir (d.line cacheDir id)).take TABLE_CAPACITY) s' := by
  have hst := d.line_stretch cacheDir id
  have hne : d.line cacheDir id ≠ [] := by
    intro hnil
    have hhead := hst.head
    rw [hnil] at hhead
    cases hhead
  obtain ⟨t, ht⟩ : ∃ t, d.tableOf cacheDir (d.line cacheDir id) = some t := tableOf_isSome hne
  have hs : d.Holds cacheDir [] (Store.new d cacheDir) := ⟨.new, rfl⟩
  obtain ⟨s₁, hs₁, hrun⟩ := table_run_miss hall hid hs rfl
  have hdone : (d.line cacheDir id).reverse.reverse ++ [] = d.line cacheDir id := by simp
  have hr : ∀ b ∈ (d.line cacheDir id).reverse, b < d.index.blobs.length :=
    fun b hb => line_inRange hall hid (List.mem_reverse.mp hb)
  have hn : ((d.line cacheDir id).reverse.reverse ++ []).Nodup := by
    rw [hdone]
    exact hst.nodup
  obtain ⟨s', hloop, hs'⟩ := buildLoop_new hall hr hn hs₁
  rw [hdone] at hloop hs'
  rw [ht] at hloop
  exact ⟨t, s', hrun t s' hloop, ht, hs'⟩

end Runs

/-! ### Whether an earlier request matters -/

section Order
variable (d : Dump) (cacheDir : ℕ → Option Bytes)

/-- A request for a table answers the same on a new store and after one other request. -/
def OrderFree : Prop :=
  ∀ a < d.index.blobs.length, ∀ b < d.index.blobs.length,
    ∃ t t', ((d.table b).run (Store.new d cacheDir)).1 = .ok t ∧
      ((d.table b).run ((d.table a).run (Store.new d cacheDir)).2).1 = .ok t' ∧
      ∀ fileId, t'.get fileId = t.get fileId

def fileIds (id : ℕ) : List UInt32 :=
  match d.loaded cacheDir id with
  | .ok p => p.records.map FileRecord.fileId
  | _ => []

def Records (bs : List ℕ) (fileId : UInt32) : Prop := ∃ x ∈ bs, fileId ∈ d.fileIds cacheDir x

/-- The tables a request leaves in the cache lose nothing: where a blob `b` is
so near below `a` that its layer stays cached, every file on the chain of `b`
is on the part of the chain of `a` that starts at `b`. -/
def CutsLoseNothing : Prop :=
  ∀ a < d.index.blobs.length, ∀ j b, 0 < j → j < TABLE_CAPACITY →
    (d.line cacheDir a)[j]? = some b → ∀ fileId, d.Records cacheDir (d.line cacheDir b) fileId →
      d.Records cacheDir ((d.line cacheDir a).drop j) fileId

def Fair (id : ℕ) (t : FileTable) : Prop :=
  ∀ fileId, t.get fileId = (d.line cacheDir id).findSome? (d.recordIn cacheDir fileId)

variable {d cacheDir}

theorem recordIn_isSome {fileId : UInt32} {id : ℕ} :
    (d.recordIn cacheDir fileId id).isSome ↔ fileId ∈ d.fileIds cacheDir id := by
  cases hl : d.loaded cacheDir id with
  | ok p =>
    obtain ⟨entry, hentry, -⟩ := bind_eq_ok.mp (mapErr_eq_ok.mp hl)
    have hid := (List.getElem?_eq_some_iff.mp (blob_eq_ok.mp hentry)).1
    rw [← not_iff_not, Option.not_isSome_iff_eq_none, recordIn_eq_none hid hl, fileIds, hl,
      List.mem_map]
    simp
  | err e => simp [recordIn, fileIds, hl]
  | panic => simp [recordIn, fileIds, hl]

theorem records_iff {bs : List ℕ} {fileId : UInt32} :
    d.Records cacheDir bs fileId ↔ (bs.findSome? (d.recordIn cacheDir fileId)).isSome := by
  rw [List.findSome?_isSome_iff]
  simp only [recordIn_isSome]
  rfl

theorem findSome?_starts {bs cs : List ℕ} (h : bs <+: cs) {fileId : UInt32}
    (hrec : d.Records cacheDir cs fileId → d.Records cacheDir bs fileId) :
    bs.findSome? (d.recordIn cacheDir fileId) = cs.findSome? (d.recordIn cacheDir fileId) := by
  cases hbs : bs.findSome? (d.recordIn cacheDir fileId) with
  | some loc =>
    obtain ⟨rest, rfl⟩ := h
    rw [List.findSome?_append, hbs]
    rfl
  | none =>
    cases hcs : cs.findSome? (d.recordIn cacheDir fileId) with
    | none => rfl
    | some loc =>
      have hsome := records_iff.mp (hrec (records_iff.mpr (by rw [hcs]; rfl)))
      rw [hbs] at hsome
      cases hsome

theorem drop_line_starts {a j b : ℕ} (hb : (d.line cacheDir a)[j]? = some b) :
    (d.line cacheDir a).drop j <+: d.line cacheDir b := by
  have hst := d.line_stretch cacheDir a
  apply (d.line_stretch cacheDir b).starts
  · rw [List.head?_drop]
    exact hb
  · exact hst.chain.drop j
  · exact hst.nodup.sublist (List.drop_sublist j _)
  · rw [List.length_drop]
    exact (Nat.sub_le _ _).trans hst.length_le

theorem CutsLoseNothing.findSome?_drop (h : d.CutsLoseNothing cacheDir) {a j b : ℕ}
    (ha : a < d.index.blobs.length) (hj : j < TABLE_CAPACITY)
    (hb : (d.line cacheDir a)[j]? = some b) (fileId : UInt32) :
    ((d.line cacheDir a).drop j).findSome? (d.recordIn cacheDir fileId) =
      (d.line cacheDir b).findSome? (d.recordIn cacheDir fileId) := by
  apply findSome?_starts (drop_line_starts hb)
  cases j with
  | zero =>
    rw [← List.head?_eq_getElem?, (d.line_stretch cacheDir a).head] at hb
    cases hb
    exact fun hrec => hrec
  | succ j => exact h a ha (j + 1) b j.succ_pos hj hb fileId

theorem tableOf_drop_get (hall : d.AllParse cacheDir) {a : ℕ} (ha : a < d.index.blobs.length)
    {j : ℕ} {t : FileTable} (ht : d.tableOf cacheDir ((d.line cacheDir a).drop j) = some t)
    (fileId : UInt32) :
    t.get fileId = ((d.line cacheDir a).drop j).findSome? (d.recordIn cacheDir fileId) :=
  tableOf_get hall (fun _ hx => line_inRange hall ha (List.mem_of_mem_drop hx)) ht fileId

theorem table_new_fair (hall : d.AllParse cacheDir) {id : ℕ} (hid : id < d.index.blobs.length)
    {t : FileTable} (ht : d.tableOf cacheDir (d.line cacheDir id) = some t) :
    d.Fair cacheDir id t := by
  intro fileId
  exact tableOf_get hall (fun _ hx => line_inRange hall hid hx) ht fileId

theorem fair_layer (hall : d.AllParse cacheDir) (h : d.CutsLoseNothing cacheDir) {x y : ℕ}
    (hx : x < d.index.blobs.length) (hup : d.up cacheDir x = some y) (hxy : x ≠ y)
    {t : FileTable} (ht : d.Fair cacheDir y t) :
    d.Fair cacheDir x (.layer (d.layerOf cacheDir x) (some t)) := by
  have hst := d.line_stretch cacheDir x
  have hstarts : [x, y] <+: d.line cacheDir x := by
    apply hst.starts rfl
    · rw [List.isChain_pair]
      exact hup
    · simpa using hxy
    · exact Nat.le_add_left 2 _
  obtain ⟨rest, hrest⟩ := hstarts
  have hy : (d.line cacheDir x)[1]? = some y := by
    rw [← hrest]
    rfl
  intro fileId
  have htail := h.findSome?_drop hx (by decide) hy fileId
  rw [FileTable.layer, FileTable.get, ht fileId, ← htail, ← hrest, layerOf_lookup hall hx]
  change _ = List.findSome? _ (x :: y :: rest)
  rw [List.findSome?_cons]
  cases d.recordIn cacheDir fileId x with
  | none => rfl
  | some loc => rfl

/-- The table in hand after going down to the first blob of `pre`. -/
def Stage (d : Dump) (cacheDir : ℕ → Option Bytes) (pre : List ℕ) (parent : Option FileTable) :
    Prop :=
  parent = d.tableOf cacheDir pre ∨
    ∃ y rest t, pre = y :: rest ∧ parent = some t ∧ d.Fair cacheDir y t

theorem Stage.layer (hall : d.AllParse cacheDir) (h : d.CutsLoseNothing cacheDir) {b : ℕ}
    {pre : List ℕ} (hb : b < d.index.blobs.length)
    (hchain : (b :: pre).IsChain (Link (d.up cacheDir))) (hn : b ∉ pre)
    {parent : Option FileTable} (hparent : d.Stage cacheDir pre parent) :
    d.Stage cacheDir (b :: pre) (some (.layer (d.layerOf cacheDir b) parent)) := by
  rcases hparent with rfl | ⟨y, rest, t, rfl, rfl, ht⟩
  · exact Or.inl rfl
  · have hup : d.up cacheDir b = some y := (List.isChain_cons_cons.mp hchain).1
    have hne : b ≠ y := fun heq => hn (heq ▸ List.mem_cons_self)
    exact Or.inr ⟨b, _, _, rfl, rfl, fair_layer hall h hb hup hne ht⟩

/-- Going down a chain with a cache of fair tables: what this call itself puts
there it does not ask for again. -/
theorem buildLoop_stage (hall : d.AllParse cacheDir) (h : d.CutsLoseNothing cacheDir) {id : ℕ}
    (hid : id < d.index.blobs.length) {bs pre : List ℕ}
    (hline : d.line cacheDir id = bs.reverse ++ pre) {parent : Option FileTable}
    (hparent : d.Stage cacheDir pre parent) {c : List (ℕ × FileTable)} {s : Store}
    (hs : d.Holds cacheDir c s) (hc : ∀ e ∈ c, d.Fair cacheDir e.1 e.2 ∨ e.1 ∈ pre) :
    ∃ o s', (d.buildLoop bs parent).run s = (.ok o, s') ∧
      d.Stage cacheDir (d.line cacheDir id) o := by
  induction bs generalizing pre parent c s with
  | nil =>
    refine ⟨parent, s, rfl, ?_⟩
    rw [hline]
    exact hparent
  | cons b bs ih =>
    rw [List.reverse_cons, List.append_assoc, List.singleton_append] at hline
    have hst := d.line_stretch cacheDir id
    have hb : b < d.index.blobs.length := by
      apply line_inRange hall hid
      rw [hline]
      simp
    have hn : b ∉ pre := by
      have hnodup := hst.nodup
      rw [hline] at hnodup
      exact (List.nodup_cons.mp (List.Nodup.of_append_right hnodup)).1
    have hround := buildLoop_run hall hb bs parent hs
    cases hget : Lru.get b c with
    | some t =>
      rw [hget] at hround
      obtain ⟨s₁, hrun, hs₁⟩ := hround
      have ht : d.Fair cacheDir b t := by
        rcases hc _ (Lru.mem_of_get hget) with hfair | hmem
        · exact hfair
        · exact absurd hmem hn
      have hstage : d.Stage cacheDir (b :: pre) (some t) := Or.inr ⟨b, pre, t, rfl, rfl, ht⟩
      obtain ⟨o, s', hrec, ho⟩ := ih hline hstage hs₁ fun e he => by
        rcases hc e (Lru.mem_touch he) with hfair | hmem
        · exact Or.inl hfair
        · exact Or.inr (List.mem_cons_of_mem _ hmem)
      exact ⟨o, s', hrun.trans hrec, ho⟩
    | none =>
      rw [hget] at hround
      obtain ⟨s₁, hrun, hs₁⟩ := hround
      have hchain : (b :: pre).IsChain (Link (d.up cacheDir)) := by
        have hall := hst.chain
        rw [hline] at hall
        exact hall.right_of_append
      have hstage := hparent.layer hall h hb hchain hn
      obtain ⟨o, s', hrec, ho⟩ := ih hline hstage hs₁ fun e he => by
        rcases Lru.mem_put he with rfl | he
        · exact Or.inr List.mem_cons_self
        rcases hc e he with hfair | hmem
        · exact Or.inl hfair
        · exact Or.inr (List.mem_cons_of_mem _ hmem)
      exact ⟨o, s', hrun.trans hrec, ho⟩

theorem Stage.fair (hall : d.AllParse cacheDir) {id : ℕ} (hid : id < d.index.blobs.length)
    {o : Option FileTable} (h : d.Stage cacheDir (d.line cacheDir id) o) :
    ∃ t, o = some t ∧ d.Fair cacheDir id t := by
  have hhead := (d.line_stretch cacheDir id).head
  rcases h with ho | ⟨y, rest, t, hline, ho, ht⟩
  · have hne : d.line cacheDir id ≠ [] := by
      intro hnil
      rw [hnil] at hhead
      cases hhead
    obtain ⟨t, ht⟩ : ∃ t, d.tableOf cacheDir (d.line cacheDir id) = some t := tableOf_isSome hne
    exact ⟨t, ho.trans ht, table_new_fair hall hid ht⟩
  · rw [hline] at hhead
    cases hhead
    exact ⟨t, ho, ht⟩

theorem table_fair (hall : d.AllParse cacheDir) (h : d.CutsLoseNothing cacheDir) {id : ℕ}
    (hid : id < d.index.blobs.length) {c : List (ℕ × FileTable)} {s : Store}
    (hs : d.Holds cacheDir c s) (hc : ∀ e ∈ c, d.Fair cacheDir e.1 e.2) :
    ∃ t s', (d.table id).run s = (.ok t, s') ∧ d.Fair cacheDir id t := by
  cases hget : Lru.get id c with
  | some t =>
    obtain ⟨s', hrun⟩ := table_run_hit hs hget
    exact ⟨t, s', hrun, hc _ (Lru.mem_of_get hget)⟩
  | none =>
    obtain ⟨s₁, hs₁, hrun⟩ := table_run_miss hall hid hs hget
    have hline : d.line cacheDir id = (d.line cacheDir id).reverse.reverse ++ [] := by simp
    have hstart : d.Stage cacheDir [] none := Or.inl rfl
    obtain ⟨o, s', hloop, ho⟩ := buildLoop_stage hall h hid hline hstart hs₁
      fun e he => Or.inl (hc e he)
    obtain ⟨t, rfl, ht⟩ := ho.fair hall hid
    exact ⟨t, s', hrun t s' hloop, ht⟩

theorem OrderFree.cutsLoseNothing (hall : d.AllParse cacheDir) (h : d.OrderFree cacheDir) :
    d.CutsLoseNothing cacheDir := by
  intro a ha j b hj hcap hb fileId hrec
  have hbr : b < d.index.blobs.length := line_inRange hall ha (List.mem_of_getElem? hb)
  obtain ⟨t, t', ht, ht', hsame⟩ := h a ha b hbr
  obtain ⟨t₁, s₁, hrun₁, htab₁, -⟩ := table_new hall hbr
  obtain ⟨t₂, s₂, hrun₂, -, hs₂⟩ := table_new hall ha
  -- the request for `a` left the layer of `b` in the cache
  have hcached : ∃ t, Lru.get b ((d.layers cacheDir (d.line cacheDir a)).take TABLE_CAPACITY) =
      some t ∧ d.tableOf cacheDir ((d.line cacheDir a).drop j) = some t :=
    get_layers_take (d.line_stretch cacheDir a).nodup hcap hb
  obtain ⟨t₃, hget, htab₃⟩ := hcached
  obtain ⟨s₃, hrun₃⟩ := table_run_hit hs₂ hget
  rw [hrun₁] at ht
  rw [hrun₂, hrun₃] at ht'
  cases ht
  cases ht'
  have hfound := tableOf_drop_get hall ha htab₃ fileId
  rw [hsame, table_new_fair hall hbr htab₁] at hfound
  rw [records_iff] at hrec ⊢
  rw [← hfound]
  exact hrec

theorem CutsLoseNothing.orderFree (hall : d.AllParse cacheDir) (h : d.CutsLoseNothing cacheDir) :
    d.OrderFree cacheDir := by
  intro a ha b hb
  obtain ⟨t, s₁, hrun, htab, -⟩ := table_new hall hb
  obtain ⟨ta, s₂, hrun₂, -, hs₂⟩ := table_new hall ha
  have hcache : ∀ e ∈ (d.layers cacheDir (d.line cacheDir a)).take TABLE_CAPACITY,
      d.Fair cacheDir e.1 e.2 := by
    intro e he fileId
    obtain ⟨j, hcap, hj, htab⟩ := mem_layers_take.mp he
    rw [tableOf_drop_get hall ha htab fileId]
    exact h.findSome?_drop ha hcap hj fileId
  obtain ⟨t', s₃, hrun₃, hfair⟩ := table_fair hall h hb hs₂ hcache
  refine ⟨t, t', by rw [hrun], by rw [hrun₂, hrun₃], fun fileId => ?_⟩
  rw [hfair fileId, table_new_fair hall hb htab fileId]

/-- For a dump whose blobs all load, requests do not influence each other
exactly when the cuts lose nothing. -/
theorem orderFree_iff (d : Dump) (cacheDir : ℕ → Option Bytes) (hall : d.AllParse cacheDir) :
    d.OrderFree cacheDir ↔ d.CutsLoseNothing cacheDir :=
  ⟨fun h => h.cutsLoseNothing hall, fun h => h.orderFree hall⟩

end Order
end Dump

section Sample

def pointingPair (first second : UInt32) : MemoryDump where
  blobs := [("5_1_000000aa_x.blob".toList,
      (VersionImage.flat [⟨first, .plain, 0, 4, [⟨4, 0⟩]⟩] 4 (some (2, 0xbb))).encode),
    ("5_2_000000bb_x.blob".toList,
      (VersionImage.flat [⟨second, .plain, 0, 4, [⟨4, 0⟩]⟩] 4 (some (1, 0xaa))).encode)]
  dats := [("5_1_00000005_x.dat".toList, [1, 2, 3, 4])]
  keys := .empty
  cfg := .plain

def TwoCycle (d : Dump) (first second : List UInt32) : Prop :=
  d.index.blobs.length = 2 ∧ (∀ x < 2, (d.loaded (fun _ => none) x).isOk) ∧
    d.up (fun _ => none) 0 = some 1 ∧ d.up (fun _ => none) 1 = some 0 ∧
    d.line (fun _ => none) 0 = [0, 1] ∧ d.line (fun _ => none) 1 = [1, 0] ∧
    d.fileIds (fun _ => none) 0 = first ∧ d.fileIds (fun _ => none) 1 = second

instance (d : Dump) (first second : List UInt32) : Decidable (TwoCycle d first second) :=
  inferInstanceAs (Decidable (_ ∧ _))

theorem TwoCycle.allParse {d : Dump} {first second : List UInt32} (h : TwoCycle d first second) :
    d.AllParse fun _ => none := by
  intro id hid
  rw [h.1] at hid
  exact isOk_iff.mp (h.2.1 id hid)

theorem TwoCycle.cycle {d : Dump} {first second : List UInt32} (h : TwoCycle d first second) :
    TransGen (Link (d.up fun _ => none)) 0 0 :=
  .tail (.single h.2.2.1) h.2.2.2.1

set_option maxRecDepth 20000 in
theorem pointingPair_twoCycle : TwoCycle (pointingPair 7 8).dump [7] [8] := by decide +kernel

theorem pointingPair_not_orderFree :
    (pointingPair 7 8).dump.AllParse (fun _ => none) ∧
      TransGen (Link ((pointingPair 7 8).dump.up fun _ => none)) 0 0 ∧
      ¬ (pointingPair 7 8).dump.OrderFree fun _ => none := by
  have htwo := pointingPair_twoCycle
  refine ⟨htwo.allParse, htwo.cycle, fun h => ?_⟩
  have hcuts := h.cutsLoseNothing htwo.allParse
  obtain ⟨hlen, -, -, -, hline₀, hline₁, hids₀, hids₁⟩ := htwo
  have h0 : 0 < (pointingPair 7 8).dump.index.blobs.length := by rw [hlen]; decide
  -- the table of blob 1 that is cached with that of blob 0 ends at blob 1
  have hlost := hcuts 0 h0 1 1 (by decide) (by decide) (by rw [hline₀]; rfl) 7
  rw [hline₀, hline₁] at hlost
  obtain ⟨x, hx, hrec⟩ := hlost ⟨0, by decide, by rw [hids₀]; decide⟩
  rw [List.mem_singleton.mp hx, hids₁] at hrec
  exact absurd hrec (by decide)

set_option maxRecDepth 20000 in
theorem pointingPair_orderFree :
    TransGen (Link ((pointingPair 7 7).dump.up fun _ => none)) 0 0 ∧
      (pointingPair 7 7).dump.OrderFree fun _ => none := by
  have htwo : TwoCycle (pointingPair 7 7).dump [7] [7] := by decide +kernel
  refine ⟨htwo.cycle, (Dump.orderFree_iff _ _ htwo.allParse).mpr ?_⟩
  obtain ⟨hlen, -, -, -, hline₀, hline₁, hids₀, hids₁⟩ := htwo
  intro a ha j b hj _ hb fileId hrec
  rw [hlen] at ha
  -- the other blob of the cycle is the only one below `a`
  interval_cases a
  · rw [hline₀] at hb ⊢
    have hj1 : j = 1 := Nat.le_antisymm (Nat.le_of_lt_succ (List.getElem?_eq_some_iff.mp hb).1) hj
    subst hj1
    cases hb
    obtain ⟨x, hx, hmem⟩ := hrec
    refine ⟨1, by decide, ?_⟩
    rw [hline₁] at hx
    rcases List.mem_pair.mp hx with rfl | rfl
    · exact hmem
    · rwa [hids₁, ← hids₀]
  · rw [hline₁] at hb ⊢
    have hj1 : j = 1 := Nat.le_antisymm (Nat.le_of_lt_succ (List.getElem?_eq_some_iff.mp hb).1) hj
    subst hj1
    cases hb
    obtain ⟨x, hx, hmem⟩ := hrec
    refine ⟨0, by decide, ?_⟩
    rw [hline₀] at hx
    rcases List.mem_pair.mp hx with rfl | rfl
    · exact hmem
    · rwa [hids₀, ← hids₁]

end Sample
end Steam2Fs
