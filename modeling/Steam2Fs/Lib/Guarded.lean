import Mathlib.Logic.Hydra
import Steam2Fs.Lib.Threads

/-!
# Code that takes locks

A `Guarded` process also locks and unlocks, each lock named by a key. Without
its locks it is a plain process, `erase`, and every run of a pool of guarded
processes is a run of the plain ones: locks only take interleavings away.

`Nested rank outer inner` says that a process gives its locks back in the
opposite order, and that the rank of every lock it takes is above the ranks of
those it holds. Then a pool is never stuck: of the threads that wait, the one
whose lock has the highest rank would wait for a thread that waits for a still
higher one. Nor can it run on for ever without a new call, as every step
leaves a thread with less to do.
-/

inductive Guarded (κ σ α : Type) where
  | done (a : α)
  | act (update : σ → σ) (next : σ → Guarded κ σ α)
  | lock (k : κ) (next : Guarded κ σ α)
  | unlock (k : κ) (next : Guarded κ σ α)

namespace Guarded
variable {κ σ α β : Type}

def bind (f : α → Guarded κ σ β) : Guarded κ σ α → Guarded κ σ β
  | .done a => f a
  | .act update next => .act update fun s => (next s).bind f
  | .lock k next => .lock k (next.bind f)
  | .unlock k next => .unlock k (next.bind f)

def ofProc : Proc σ α → Guarded κ σ α
  | .done a => .done a
  | .act update next => .act update fun s => ofProc (next s)

/-- Run `x` with the lock `k` held. -/
def holding (k : κ) (x : Guarded κ σ α) : Guarded κ σ α :=
  .lock k (x.bind fun a => .unlock k (.done a))

def erase : Guarded κ σ α → Proc σ α
  | .done a => .done a
  | .act update next => .act update fun s => (next s).erase
  | .lock _ next => next.erase
  | .unlock _ next => next.erase

theorem erase_bind (x : Guarded κ σ α) (f : α → Guarded κ σ β) :
    (x.bind f).erase = x.erase.bind fun a => (f a).erase := by
  induction x with
  | done a => rfl
  | act update next ih =>
    refine congrArg (Proc.act update) ?_
    funext s
    exact ih s
  | lock k next ih => exact ih
  | unlock k next ih => exact ih

theorem erase_ofProc (p : Proc σ α) : (ofProc p : Guarded κ σ α).erase = p := by
  induction p with
  | done a => rfl
  | act update next ih =>
    refine congrArg (Proc.act update) ?_
    funext s
    exact ih s

theorem bind_done (p : Proc σ α) : (p.bind fun a => .done a) = p := by
  induction p with
  | done a => rfl
  | act update next ih =>
    refine congrArg (Proc.act update) ?_
    funext s
    exact ih s

theorem erase_holding (k : κ) (x : Guarded κ σ α) : (holding k x).erase = x.erase :=
  (erase_bind x _).trans (bind_done _)

/-! ### Discipline -/

/-- `outer` are the locks held around the process, `inner` those it has taken
itself; it ends with none of its own. -/
def Nested (rank : κ → ℕ) (outer : List κ) : List κ → Guarded κ σ α → Prop
  | inner, .done _ => inner = []
  | inner, .act _ next => ∀ s, (next s).Nested rank outer inner
  | inner, .lock k next =>
    (∀ h ∈ inner ++ outer, rank h < rank k) ∧ next.Nested rank outer (k :: inner)
  | inner, .unlock k next => ∃ rest, inner = k :: rest ∧ next.Nested rank outer rest

section Nested
variable {rank : κ → ℕ} {outer inner : List κ}

theorem Nested.bind {x : Guarded κ σ α} {f : α → Guarded κ σ β}
    (hx : x.Nested rank outer inner) (hf : ∀ a, (f a).Nested rank outer []) :
    (x.bind f).Nested rank outer inner := by
  induction x generalizing inner with
  | done a =>
    have hnone : inner = [] := hx
    subst hnone
    exact hf a
  | act update next ih => exact fun s => ih s (hx s)
  | lock k next ih => exact ⟨hx.1, ih hx.2⟩
  | unlock k next ih =>
    obtain ⟨rest, rfl, hnext⟩ := hx
    exact ⟨rest, rfl, ih hnext⟩

theorem nested_ofProc (p : Proc σ α) : (ofProc p : Guarded κ σ α).Nested rank outer [] := by
  induction p with
  | done a => rfl
  | act update next ih => exact fun s => ih s

theorem Nested.unlocked {k : κ} {x : Guarded κ σ α}
    (hx : x.Nested rank (k :: outer) inner) :
    (x.bind fun a => .unlock k (.done a)).Nested rank outer (inner ++ [k]) := by
  induction x generalizing inner with
  | done a =>
    have hnone : inner = [] := hx
    subst hnone
    exact ⟨[], rfl, rfl⟩
  | act update next ih => exact fun s => ih s (hx s)
  | lock k' next ih =>
    refine ⟨fun h hh => hx.1 h ?_, ih hx.2⟩
    rwa [List.append_assoc] at hh
  | unlock k' next ih =>
    obtain ⟨rest, rfl, hnext⟩ := hx
    exact ⟨rest ++ [k], rfl, ih hnext⟩

theorem nested_holding {k : κ} {x : Guarded κ σ α} (hk : ∀ h ∈ outer, rank h < rank k)
    (hx : x.Nested rank (k :: outer) []) : (holding k x).Nested rank outer [] :=
  ⟨hk, hx.unlocked⟩

end Nested

inductive After : Guarded κ σ α → Guarded κ σ α → Prop
  | act (update : σ → σ) (next : σ → Guarded κ σ α) (s : σ) : After (next s) (.act update next)
  | lock (k : κ) (next : Guarded κ σ α) : After next (.lock k next)
  | unlock (k : κ) (next : Guarded κ σ α) : After next (.unlock k next)

theorem after_wellFounded : WellFounded (After : Guarded κ σ α → Guarded κ σ α → Prop) := by
  refine ⟨fun x => ?_⟩
  induction x with
  | done a => exact ⟨_, fun y hy => by cases hy⟩
  | act update next ih =>
    refine ⟨_, fun y hy => ?_⟩
    cases hy
    exact ih _
  | lock k next ih =>
    refine ⟨_, fun y hy => ?_⟩
    cases hy
    exact ih
  | unlock k next ih =>
    refine ⟨_, fun y hy => ?_⟩
    cases hy
    exact ih

end Guarded

/-! ### Pools -/

structure LockPool (κ σ ι α : Type) where
  state : σ
  owner : κ → Option ℕ
  threads : List (ι × Guarded κ σ α)

namespace LockPool
variable {κ σ ι α : Type}

def Finished (p : LockPool κ σ ι α) : Prop := ∀ t ∈ p.threads, ∃ a, t.2 = .done a

def erase (p : LockPool κ σ ι α) : Pool σ ι α :=
  ⟨p.state, p.threads.map fun t => (t.1, t.2.erase)⟩

theorem erase_set {ts : List (ι × Guarded κ σ α)} {i : ℕ} {c : ι} {x y : Guarded κ σ α}
    (hi : ts[i]? = some (c, x)) (hxy : y.erase = x.erase) :
    (ts.set i (c, y)).map (fun t => (t.1, t.2.erase)) = ts.map fun t => (t.1, t.2.erase) := by
  obtain ⟨hlt, hget⟩ := List.getElem?_eq_some_iff.mp hi
  rw [List.map_set, hxy]
  have hlt' : i < (ts.map fun t => (t.1, t.2.erase)).length := by rwa [List.length_map]
  have hsame : (ts.map fun t => (t.1, t.2.erase))[i] = (c, x.erase) := by
    rw [List.getElem_map, hget]
  rw [← hsame, List.set_getElem_self]

def wanted : Guarded κ σ α → Option κ
  | .lock k _ => some k
  | _ => none

theorem wanted_eq_some {x : Guarded κ σ α} {k : κ} (h : wanted x = some k) :
    ∃ next, x = .lock k next := by
  cases x with
  | lock k' next =>
    cases h
    exact ⟨next, rfl⟩
  | _ => cases h

section Tidy
variable {rank : κ → ℕ} {p : LockPool κ σ ι α}

/-- Which locks each thread holds, the last one taken first. -/
structure Tidy (rank : κ → ℕ) (p : LockPool κ σ ι α) (held : ℕ → List κ) : Prop where
  nested : ∀ i c (x : Guarded κ σ α), p.threads[i]? = some (c, x) → x.Nested rank [] (held i)
  sorted : ∀ i, (held i).Pairwise fun k k' => rank k' < rank k
  owner : ∀ k i, p.owner k = some i ↔ k ∈ held i
  inRange : ∀ i, p.threads.length ≤ i → held i = []

theorem Tidy.act {held : ℕ → List κ} {s s' : σ} {o : κ → Option ℕ}
    {ts : List (ι × Guarded κ σ α)} {i : ℕ} {c : ι} {x y : Guarded κ σ α}
    (h : Tidy rank ⟨s, o, ts⟩ held) (hi : ts[i]? = some (c, x)) {o' : κ → Option ℕ}
    {l : List κ} (hy : y.Nested rank [] l) (hl : l.Pairwise fun k k' => rank k' < rank k)
    (ho : ∀ k j, o' k = some j ↔ k ∈ Function.update held i l j) :
    Tidy rank ⟨s', o', ts.set i (c, y)⟩ (Function.update held i l) := by
  have hlt := (List.getElem?_eq_some_iff.mp hi).1
  refine ⟨fun j c' z hj => ?_, fun j => ?_, ho, fun j hj => ?_⟩
  · by_cases hji : j = i
    · subst hji
      dsimp only at hj
      rw [List.getElem?_set_self hlt] at hj
      cases hj
      rwa [Function.update_self]
    · dsimp only at hj
      rw [List.getElem?_set_ne (fun heq => hji heq.symm)] at hj
      rw [Function.update_of_ne hji]
      exact h.nested j c' z hj
  · by_cases hji : j = i
    · subst hji
      rwa [Function.update_self]
    · rw [Function.update_of_ne hji]
      exact h.sorted j
  · rw [List.length_set] at hj
    have hji : j ≠ i := by
      rintro rfl
      omega
    rw [Function.update_of_ne hji]
    exact h.inRange j hj

end Tidy

variable [DecidableEq κ]

/-- A step of a thread. A lock is taken only while nobody has it. -/
inductive Acts : LockPool κ σ ι α → LockPool κ σ ι α → Prop
  | act {s : σ} {o : κ → Option ℕ} {ts : List (ι × Guarded κ σ α)} {i : ℕ} {c : ι}
      {update : σ → σ} {next : σ → Guarded κ σ α} (hi : ts[i]? = some (c, .act update next)) :
      Acts ⟨s, o, ts⟩ ⟨update s, o, ts.set i (c, next s)⟩
  | lock {s : σ} {o : κ → Option ℕ} {ts : List (ι × Guarded κ σ α)} {i : ℕ} {c : ι} {k : κ}
      {next : Guarded κ σ α} (hi : ts[i]? = some (c, .lock k next)) (hfree : o k = none) :
      Acts ⟨s, o, ts⟩ ⟨s, Function.update o k (some i), ts.set i (c, next)⟩
  | unlock {s : σ} {o : κ → Option ℕ} {ts : List (ι × Guarded κ σ α)} {i : ℕ} {c : ι} {k : κ}
      {next : Guarded κ σ α} (hi : ts[i]? = some (c, .unlock k next)) :
      Acts ⟨s, o, ts⟩ ⟨s, Function.update o k none, ts.set i (c, next)⟩

inductive Step (prog : ι → Guarded κ σ α) (calls : Set ι) (env : σ → σ → Prop) :
    LockPool κ σ ι α → LockPool κ σ ι α → Prop
  | spawn {s : σ} {o : κ → Option ℕ} {ts : List (ι × Guarded κ σ α)} {c : ι} (hc : c ∈ calls) :
      Step prog calls env ⟨s, o, ts⟩ ⟨s, o, ts ++ [(c, prog c)]⟩
  | acts {p p' : LockPool κ σ ι α} (h : Acts p p') : Step prog calls env p p'
  | env {s s' : σ} {o : κ → Option ℕ} {ts : List (ι × Guarded κ σ α)} (h : env s s') :
      Step prog calls env ⟨s, o, ts⟩ ⟨s', o, ts⟩

def Reachable (prog : ι → Guarded κ σ α) (calls : Set ι) (env : σ → σ → Prop) (s₀ : σ)
    (p : LockPool κ σ ι α) : Prop :=
  Relation.ReflTransGen (Step prog calls env) ⟨s₀, fun _ => none, []⟩ p

/-! ### Without the locks -/

section Erase

variable {prog : ι → Guarded κ σ α} {calls : Set ι} {env : σ → σ → Prop} {s₀ : σ}
  {p p' : LockPool κ σ ι α}

theorem Acts.erase (h : Acts p p') :
    p'.erase = p.erase ∨ Pool.Step (fun c => (prog c).erase) calls env p.erase p'.erase := by
  cases h with
  | @act s o ts i c update next hi =>
    right
    have hi' : (ts.map fun t => (t.1, t.2.erase))[i]? =
        some (c, .act update fun s => (next s).erase) := by
      rw [List.getElem?_map, hi]
      rfl
    unfold LockPool.erase
    rw [List.map_set]
    exact .act hi'
  | lock hi _ => exact Or.inl (congrArg (Pool.mk _) (erase_set hi rfl))
  | unlock hi => exact Or.inl (congrArg (Pool.mk _) (erase_set hi rfl))

theorem Reachable.erase (h : Reachable prog calls env s₀ p) :
    Pool.Reachable (fun c => (prog c).erase) calls env s₀ p.erase := by
  induction h with
  | refl => exact .refl
  | tail _ hstep ih =>
    cases hstep with
    | spawn hc =>
      refine ih.tail ?_
      unfold LockPool.erase
      rw [List.map_append]
      exact .spawn hc
    | acts hacts =>
      rcases hacts.erase with hsame | hmove
      · rw [hsame]
        exact ih
      · exact ih.tail hmove
    | env he => exact ih.tail (.env he)

end Erase

/-! ### Progress -/

section Progress
variable {rank : κ → ℕ} {prog : ι → Guarded κ σ α} {calls : Set ι} {env : σ → σ → Prop} {s₀ : σ}
  {p p' : LockPool κ σ ι α}

theorem Tidy.acts {held : ℕ → List κ} (h : Tidy rank p held) (hstep : Acts p p') :
    ∃ held', Tidy rank p' held' := by
  cases hstep with
  | @act s o ts i c update next hi =>
    refine ⟨_, h.act hi (h.nested i c _ hi s) (h.sorted i) fun k j => ?_⟩
    rw [Function.update_eq_self]
    exact h.owner k j
  | @lock s o ts i c k next hi hfree =>
    obtain ⟨hrank, hnext⟩ := h.nested i c _ hi
    rw [List.append_nil] at hrank
    refine ⟨_, h.act hi hnext (List.pairwise_cons.mpr ⟨hrank, h.sorted i⟩) fun k' j => ?_⟩
    have hnobody : ∀ j, k ∉ held j := by
      intro j hmem
      have hown := (h.owner k j).mpr hmem
      dsimp only at hown
      rw [hfree] at hown
      cases hown
    by_cases hk : k' = k
    · subst hk
      rw [Function.update_self, Option.some.injEq]
      by_cases hji : j = i
      · subst hji
        simp
      · rw [Function.update_of_ne hji]
        exact iff_of_false (fun heq => hji heq.symm) (hnobody j)
    · rw [Function.update_of_ne hk]
      refine (h.owner k' j).trans ?_
      by_cases hji : j = i
      · subst hji
        simp [hk]
      · rw [Function.update_of_ne hji]
  | @unlock s o ts i c k next hi =>
    obtain ⟨rest, hheld, hnext⟩ := h.nested i c _ hi
    have hsorted := h.sorted i
    rw [hheld, List.pairwise_cons] at hsorted
    have hgone : k ∉ rest := fun hmem => lt_irrefl _ (hsorted.1 k hmem)
    have hmine : o k = some i := (h.owner k i).mpr (by rw [hheld]; exact List.mem_cons_self)
    refine ⟨_, h.act hi hnext hsorted.2 fun k' j => ?_⟩
    by_cases hk : k' = k
    · subst hk
      rw [Function.update_self]
      refine iff_of_false (fun heq => by cases heq) fun hmem => ?_
      by_cases hji : j = i
      · subst hji
        rw [Function.update_self] at hmem
        exact hgone hmem
      · rw [Function.update_of_ne hji] at hmem
        have hown := (h.owner k' j).mpr hmem
        dsimp only at hown
        rw [hmine] at hown
        exact hji (Option.some.inj hown).symm
    · rw [Function.update_of_ne hk]
      refine (h.owner k' j).trans ?_
      by_cases hji : j = i
      · subst hji
        rw [Function.update_self, hheld, List.mem_cons]
        exact or_iff_right hk
      · rw [Function.update_of_ne hji]

theorem Reachable.tidy (hprog : ∀ c ∈ calls, (prog c).Nested rank [] [])
    (h : Reachable prog calls env s₀ p) : ∃ held, Tidy rank p held := by
  induction h with
  | refl => exact ⟨fun _ => [], by simp, by simp, by simp, fun _ _ => rfl⟩
  | tail _ hstep ih =>
    obtain ⟨held, htidy⟩ := ih
    cases hstep with
    | @spawn s o ts c hc =>
      refine ⟨held, fun i c' x hi => ?_, htidy.sorted, htidy.owner, fun i hi => ?_⟩
      · by_cases hlt : i < ts.length
        · rw [List.getElem?_append_left hlt] at hi
          exact htidy.nested i c' x hi
        · have hempty : held i = [] := htidy.inRange i (Nat.le_of_not_lt hlt)
          have hmem := List.mem_of_getElem? hi
          rw [List.getElem?_append_right (Nat.le_of_not_lt hlt)] at hi
          have hnew := List.mem_singleton.mp (List.mem_of_getElem? hi)
          cases hnew
          rw [hempty]
          exact hprog c hc
      · rw [List.length_append, List.length_singleton] at hi
        exact htidy.inRange i (by dsimp only; omega)
    | acts hacts => exact htidy.acts hacts
    | env _ => exact ⟨held, htidy.nested, htidy.sorted, htidy.owner, htidy.inRange⟩

/-- A thread that is not done waits for a lock that a thread has, or can go on. -/
theorem acts_or_waits {i : ℕ} {c : ι} {x : Guarded κ σ α} (hi : p.threads[i]? = some (c, x))
    (hx : ∀ a, x ≠ .done a) :
    (∃ p', Acts p p') ∨ ∃ k j, wanted x = some k ∧ p.owner k = some j := by
  obtain ⟨s, o, ts⟩ := p
  cases x with
  | done a => exact absurd rfl (hx a)
  | act update next => exact Or.inl ⟨_, .act hi⟩
  | unlock k next => exact Or.inl ⟨_, .unlock hi⟩
  | lock k next =>
    cases hk : o k with
    | none => exact Or.inl ⟨_, .lock hi hk⟩
    | some j => exact Or.inr ⟨k, j, rfl, hk⟩

/-- A pool in which not every call has come back can take a step. -/
theorem Tidy.progress {held : ℕ → List κ} (h : Tidy rank p held) (hopen : ¬ p.Finished) :
    ∃ p', Acts p p' := by
  classical
  by_contra hstuck
  -- the threads that wait, and the rank of what they wait for
  let waits (i : ℕ) : Prop := ∃ t k, p.threads[i]? = some t ∧ wanted t.2 = some k
  let want (i : ℕ) : ℕ := (((p.threads[i]?).bind fun t => wanted t.2).map rank).getD 0
  have hwaits {i : ℕ} {c : ι} {x : Guarded κ σ α} (hi : p.threads[i]? = some (c, x))
      (hx : ∀ a, x ≠ .done a) : ∃ k j, wanted x = some k ∧ p.owner k = some j :=
    (acts_or_waits hi hx).resolve_left hstuck
  have hwant {i : ℕ} {c : ι} {x : Guarded κ σ α} {k : κ} (hi : p.threads[i]? = some (c, x))
      (hk : wanted x = some k) : want i = rank k := by
    simp only [want, hi, Option.bind_some, hk, Option.map_some, Option.getD_some]
  obtain ⟨t, ht, hnot⟩ : ∃ t ∈ p.threads, ∀ a, t.2 ≠ .done a := by
    unfold Finished at hopen
    push Not at hopen
    exact hopen
  obtain ⟨i, hi⟩ := List.mem_iff_getElem?.mp ht
  obtain ⟨k, j, hk, -⟩ := hwaits hi hnot
  have hne : ((Finset.range p.threads.length).filter waits).Nonempty := by
    refine ⟨i, Finset.mem_filter.mpr ⟨Finset.mem_range.mpr ?_, t, k, hi, hk⟩⟩
    exact (List.getElem?_eq_some_iff.mp hi).1
  obtain ⟨top, htop, hmax⟩ := Finset.exists_max_image _ want hne
  obtain ⟨-, ⟨c₁, x₁⟩, k₁, hi₁, hk₁⟩ := Finset.mem_filter.mp htop
  obtain ⟨next, hx₁⟩ := wanted_eq_some hk₁
  obtain ⟨k₁', j₁, hk₁', hown⟩ := hwaits hi₁ fun a ha => by
    dsimp only at hx₁
    rw [hx₁] at ha
    cases ha
  rw [hk₁] at hk₁'
  cases hk₁'
  -- the owner of that lock holds it, so it is not done and waits for a higher one
  have hheld := (h.owner k₁ j₁).mp hown
  have hlt : j₁ < p.threads.length := by
    by_contra hge
    rw [h.inRange j₁ (Nat.le_of_not_lt hge)] at hheld
    exact absurd hheld List.not_mem_nil
  have hj : p.threads[j₁]? = some (p.threads[j₁].1, p.threads[j₁].2) :=
    List.getElem?_eq_getElem hlt
  have hnested := h.nested j₁ _ _ hj
  have hopen₂ : ∀ a, p.threads[j₁].2 ≠ .done a := by
    intro a ha
    rw [ha] at hnested
    have hnone : held j₁ = [] := hnested
    rw [hnone] at hheld
    exact absurd hheld List.not_mem_nil
  obtain ⟨k₂, j₂, hk₂, -⟩ := hwaits hj hopen₂
  obtain ⟨next₂, hx₂⟩ := wanted_eq_some hk₂
  rw [hx₂] at hnested
  have hhigher : rank k₁ < rank k₂ := hnested.1 k₁ (List.mem_append_left _ hheld)
  have hle := hmax j₁ (Finset.mem_filter.mpr ⟨Finset.mem_range.mpr hlt, _, k₂, hj, hk₂⟩)
  rw [hwant hi₁ hk₁, hwant hj hk₂] at hle
  omega

theorem acts_wellFounded :
    WellFounded fun p' p : LockPool κ σ ι α => Acts p p' := by
  have hcut := (@Guarded.after_wellFounded κ σ α).cutExpand
  refine Subrelation.wf ?_ (InvImage.wf
    (fun p : LockPool κ σ ι α => Multiset.ofList (p.threads.map Prod.snd)) hcut)
  have hset {ts : List (ι × Guarded κ σ α)} {i : ℕ} {c : ι} {x y : Guarded κ σ α}
      (hi : ts[i]? = some (c, x)) (hxy : Guarded.After y x) :
      Relation.CutExpand Guarded.After (Multiset.ofList ((ts.set i (c, y)).map Prod.snd))
        (Multiset.ofList (ts.map Prod.snd)) := by
    refine ⟨{y}, x, fun a ha => by rwa [Multiset.mem_singleton.mp ha], ?_⟩
    obtain ⟨hlt, hget⟩ := List.getElem?_eq_some_iff.mp hi
    have hsplit : ts = ts.take i ++ (c, x) :: ts.drop (i + 1) := by
      rw [← hget, List.getElem_cons_drop, List.take_append_drop]
    have hnew : ts.set i (c, y) = ts.take i ++ (c, y) :: ts.drop (i + 1) :=
      List.set_eq_take_append_cons_drop.trans (if_pos hlt)
    rw [hnew]
    nth_rewrite 3 [hsplit]
    simp only [List.map_append, List.map_cons, ← Multiset.coe_add, ← Multiset.cons_coe,
      ← Multiset.singleton_add]
    abel
  intro p' p h
  cases h with
  | act hi => exact hset hi (.act _ _ _)
  | lock hi _ => exact hset hi (.lock _ _)
  | unlock hi => exact hset hi (.unlock _ _)

/-- However the threads are scheduled, they come to an end, and then every call
has come back. -/
theorem Reachable.comes_back (hprog : ∀ c ∈ calls, (prog c).Nested rank [] [])
    (h : Reachable prog calls env s₀ p) :
    Acc (fun p' p : LockPool κ σ ι α => Acts p p') p ∧
      ∀ p', Relation.ReflTransGen Acts p p' → (∀ p'', ¬ Acts p' p'') → p'.Finished := by
  refine ⟨acts_wellFounded.apply p, fun p' hrun hend => ?_⟩
  have hreach : Reachable prog calls env s₀ p' :=
    h.trans (hrun.lift id fun _ _ ha => Step.acts ha)
  obtain ⟨held, htidy⟩ := hreach.tidy hprog
  by_contra hopen
  obtain ⟨p'', hstep⟩ := htidy.progress hopen
  exact hend p'' hstep

end Progress
end LockPool

/-! ### Calls -/

/-- A call that takes locks: a guarded process that answers an outcome. -/
def GuardedCall (κ σ ε α : Type) := Guarded κ σ (Outcome ε α)

namespace GuardedCall
variable {κ σ ε ε' α β : Type}

protected def bind (x : GuardedCall κ σ ε α) (f : α → GuardedCall κ σ ε β) :
    GuardedCall κ σ ε β :=
  Guarded.bind (fun
    | .ok a => f a
    | .err e => .done (.err e)
    | .panic => .done .panic) x

instance : Monad (GuardedCall κ σ ε) where
  pure a := .done (.ok a)
  bind := GuardedCall.bind

def ofCall (x : Call σ ε α) : GuardedCall κ σ ε α := Guarded.ofProc x

def lift (x : Outcome ε α) : GuardedCall κ σ ε α := .done x

instance : MonadLift (Outcome ε) (GuardedCall κ σ ε) := ⟨lift⟩

def attempt (x : GuardedCall κ σ ε α) : GuardedCall κ σ ε' (Except ε α) :=
  Guarded.bind (fun r => .done r.attempt) x

def holding (k : κ) (x : GuardedCall κ σ ε α) : GuardedCall κ σ ε α := Guarded.holding k x

def erase (x : GuardedCall κ σ ε α) : Call σ ε α := Guarded.erase x

def Nested (rank : κ → ℕ) (outer : List κ) (x : GuardedCall κ σ ε α) : Prop :=
  Guarded.Nested rank outer [] x

section Rules
variable {rank : κ → ℕ} {outer : List κ} {x : GuardedCall κ σ ε α}
  {f : α → GuardedCall κ σ ε β}

@[simp] theorem erase_pure (a : α) : (pure a : GuardedCall κ σ ε α).erase = pure a := rfl

@[simp] theorem erase_lift (r : Outcome ε α) :
    (lift r : GuardedCall κ σ ε α).erase = Call.lift r := rfl

@[simp] theorem erase_bind : (x >>= f).erase = x.erase >>= fun a => (f a).erase := by
  refine (Guarded.erase_bind x _).trans ?_
  refine congrArg (fun g => Proc.bind g (Guarded.erase x)) ?_
  funext r
  cases r with
  | ok a => rfl
  | err e => rfl
  | panic => rfl

@[simp] theorem erase_ofCall (y : Call σ ε α) : (ofCall y : GuardedCall κ σ ε α).erase = y :=
  Guarded.erase_ofProc y

@[simp] theorem erase_holding (k : κ) : (holding k x).erase = x.erase :=
  Guarded.erase_holding k x

@[simp] theorem erase_attempt :
    (x.attempt : GuardedCall κ σ ε' (Except ε α)).erase = x.erase.attempt :=
  Guarded.erase_bind x _

theorem nested_pure (a : α) : (pure a : GuardedCall κ σ ε α).Nested rank outer := rfl

theorem nested_lift (r : Outcome ε α) : (lift r : GuardedCall κ σ ε α).Nested rank outer := rfl

theorem nested_ofCall (y : Call σ ε α) : (ofCall y : GuardedCall κ σ ε α).Nested rank outer :=
  Guarded.nested_ofProc y

theorem Nested.bind (hx : x.Nested rank outer) (hf : ∀ a, (f a).Nested rank outer) :
    (x >>= f).Nested rank outer := by
  refine Guarded.Nested.bind hx fun r => ?_
  cases r with
  | ok a => exact hf a
  | err e => rfl
  | panic => rfl

theorem Nested.attempt (hx : x.Nested rank outer) :
    (x.attempt : GuardedCall κ σ ε' (Except ε α)).Nested rank outer :=
  Guarded.Nested.bind hx fun _ => rfl

theorem nested_holding {k : κ} (hk : ∀ h ∈ outer, rank h < rank k)
    (hx : x.Nested rank (k :: outer)) : (holding k x).Nested rank outer :=
  Guarded.nested_holding hk hx

end Rules
end GuardedCall
