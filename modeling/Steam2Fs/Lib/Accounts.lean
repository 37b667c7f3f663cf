import Mathlib.Algebra.BigOperators.Group.List.Basic
import Steam2Fs.Lib.Threads

/-!
# Accounts of shared work

The state of a pool carries what has been delivered, `acc`, and what its
threads have taken on so far, `due`. Between the two stand the debts of the
threads: `Owing` says that each action of a process changes its debt by just
what it takes on less what it delivers. When no thread owes anything the
account is settled, whatever order they acted in.

`Runs` are the runs of a pool with their history, one event for each action.
-/

namespace Proc
variable {σ α β M : Type} [AddCommMonoid M]

/-- A process with debt `a` that only ends with a result and a debt in `Q`. -/
def Owing (I : σ → Prop) (acc due : σ → M) (Q : α → M → Prop) : Proc σ α → M → Prop
  | .done r, a => Q r a
  | .act update next, a => ∀ s, I s → I (update s) ∧
    ∃ a', (next s).Owing I acc due Q a' ∧ acc (update s) + a' + due s = acc s + a + due (update s)

/-- Each action of a process satisfies `T`, which sees the states around it
and what is left to do. -/
def Each (T : σ → σ → Proc σ α → Prop) : Proc σ α → Prop
  | .done _ => True
  | .act update next => ∀ s, T s (update s) (next s) ∧ (next s).Each T

section Rules
variable {I : σ → Prop} {acc due : σ → M} {Q : α → M → Prop} {p : Proc σ α}

theorem Owing.bind {Q' : β → M → Prop} {f : α → Proc σ β} {a : M}
    (hp : p.Owing I acc due Q a) (hf : ∀ r a', Q r a' → (f r).Owing I acc due Q' a') :
    (p.bind f).Owing I acc due Q' a := by
  induction p generalizing a with
  | done r => exact hf r a hp
  | act update next ih =>
    intro s hs
    obtain ⟨hI, a', ha', hbalance⟩ := hp s hs
    exact ⟨hI, a', ih s ha', hbalance⟩

theorem Owing.keeps {a : M} (hp : p.Owing I acc due Q a) : p.Keeps I fun r => ∃ a', Q r a' := by
  induction p generalizing a with
  | done r => exact ⟨a, hp⟩
  | act update next ih =>
    intro s hs
    obtain ⟨hI, a', ha', -⟩ := hp s hs
    exact ⟨hI, ih s ha'⟩

theorem Keeps.owing {P : α → Prop} (hp : p.Keeps I P)
    (hw : p.Within fun s s' => acc s' = acc s ∧ due s' = due s) (a : M) :
    p.Owing I acc due (fun r a' => P r ∧ a' = a) a := by
  induction p with
  | done r => exact ⟨hp, rfl⟩
  | act update next ih =>
    intro s hs
    obtain ⟨hI, hnext⟩ := hp s hs
    obtain ⟨⟨hacc, hdue⟩, hw'⟩ := hw s
    refine ⟨hI, a, ih s hnext hw', ?_⟩
    rw [hacc, hdue]

theorem Each.bind {T : σ → σ → Proc σ β → Prop} {f : α → Proc σ β}
    (hp : p.Within fun s s' => ∀ rest, T s s' rest) (hf : ∀ r, (f r).Each T) :
    (p.bind f).Each T := by
  induction p with
  | done r => exact hf r
  | act update next ih => exact fun s => ⟨(hp s).1 _, ih s (hp s).2⟩

end Rules
end Proc

namespace Call
variable {σ ε α β M : Type} [AddCommMonoid M] {I : σ → Prop} {acc due : σ → M} {a : M}
  {f : α → Call σ ε β} {P : Outcome ε β → M → Prop}

def Owing (I : σ → Prop) (acc due : σ → M) (Q : Outcome ε α → M → Prop) (x : Call σ ε α)
    (a : M) : Prop :=
  Proc.Owing I acc due Q x a

theorem Owing.bind {Q : Outcome ε α → M → Prop} {x : Call σ ε α} (hx : x.Owing I acc due Q a)
    (hok : ∀ r a', Q (.ok r) a' → (f r).Owing I acc due P a')
    (herr : ∀ e a', Q (.err e) a' → P (.err e) a') (hpanic : ∀ a', Q .panic a' → P .panic a') :
    (x >>= f).Owing I acc due P a := by
  refine Proc.Owing.bind hx fun r a' hr => ?_
  cases r with
  | ok r => exact hok r a' hr
  | err e => exact herr e a' hr
  | panic => exact hpanic a' hr

theorem owing_atomic {g : σ → β × σ} (h : ∀ s, I s → I (g s).2 ∧ ∃ a', P (.ok (g s).1) a' ∧
    acc (g s).2 + a' + due s = acc s + a + due (g s).2) :
    (atomic g : Call σ ε β).Owing I acc due P a := h

theorem Owing.bind_atomic {g : σ → α × σ} (h : ∀ s, I s → I (g s).2 ∧
    ∃ a', (f (g s).1).Owing I acc due P a' ∧
      acc (g s).2 + a' + due s = acc s + a + due (g s).2) :
    ((atomic g : Call σ ε α) >>= f).Owing I acc due P a := h

theorem Owing.after {x : Call σ ε α} {y : α} (hx : x.Answers I (.ok y))
    (hw : x.Within fun s s' => acc s' = acc s ∧ due s' = due s)
    (hf : (f y).Owing I acc due P a) : (x >>= f).Owing I acc due P a := by
  refine Owing.bind (Proc.Keeps.owing hx hw a) (fun r a' hr => ?_) (fun e a' hr => ?_)
    fun a' hr => ?_
  · obtain ⟨hr, rfl⟩ := hr
    cases hr
    exact hf
  · cases hr.1
  · cases hr.1

end Call

namespace Pool
variable {σ ι α M : Type}

structure Event (σ α : Type) where
  who : ℕ
  before : σ
  after : σ
  rest : Proc σ α

inductive Runs (prog : ι → Proc σ α) (s₀ : σ) : List (Event σ α) → Pool σ ι α → Prop
  | start : Runs prog s₀ [] ⟨s₀, []⟩
  | spawn {hist : List (Event σ α)} {s : σ} {ts : List (ι × Proc σ α)}
      (h : Runs prog s₀ hist ⟨s, ts⟩) (c : ι) : Runs prog s₀ hist ⟨s, ts ++ [(c, prog c)]⟩
  | act {hist : List (Event σ α)} {s : σ} {ts : List (ι × Proc σ α)} {k : ℕ} {c : ι}
      {update : σ → σ} {next : σ → Proc σ α} (h : Runs prog s₀ hist ⟨s, ts⟩)
      (hk : ts[k]? = some (c, .act update next)) :
      Runs prog s₀ (hist ++ [⟨k, s, update s, next s⟩]) ⟨update s, ts.set k (c, next s)⟩

section Histories
variable {prog : ι → Proc σ α} {s₀ : σ} {hist : List (Event σ α)} {p : Pool σ ι α}

theorem Runs.reachable (h : Runs prog s₀ hist p) :
    Reachable prog Set.univ (fun _ _ => False) s₀ p := by
  induction h with
  | start => exact .refl
  | spawn _ c ih => exact ih.tail (.spawn (Set.mem_univ c))
  | act _ hk ih => exact ih.tail (.act hk)

theorem Reachable.runs (h : Reachable prog Set.univ (fun _ _ => False) s₀ p) :
    ∃ hist, Runs prog s₀ hist p := by
  induction h with
  | refl => exact ⟨[], .start⟩
  | tail _ hstep ih =>
    obtain ⟨hist, hrun⟩ := ih
    cases hstep with
    | spawn _ => exact ⟨hist, hrun.spawn _⟩
    | act hk => exact ⟨_, hrun.act hk⟩
    | env he => exact he.elim

theorem Runs.each {T : σ → σ → Proc σ α → Prop} (hprog : ∀ c, (prog c).Each T)
    (h : Runs prog s₀ hist p) :
    (∀ ev ∈ hist, T ev.before ev.after ev.rest) ∧ ∀ t ∈ p.threads, t.2.Each T := by
  induction h with
  | start => simp
  | spawn _ c ih =>
    refine ⟨ih.1, fun t ht => ?_⟩
    rcases List.mem_append.mp ht with ht | ht
    · exact ih.2 t ht
    · rw [List.mem_singleton.mp ht]
      exact hprog c
  | @act hist s ts k c update next _ hk ih =>
    obtain ⟨hT, hnext⟩ := ih.2 _ (List.mem_of_getElem? hk) s
    refine ⟨fun ev hev => ?_, fun t ht => ?_⟩
    · rcases List.mem_append.mp hev with hev | hev
      · exact ih.1 ev hev
      · rw [List.mem_singleton.mp hev]
        exact hT
    · rcases List.mem_or_eq_of_mem_set ht with ht | rfl
      · exact ih.2 t ht
      · exact hnext

theorem Runs.who_lt (h : Runs prog s₀ hist p) : ∀ ev ∈ hist, ev.who < p.threads.length := by
  induction h with
  | start => simp
  | spawn _ c ih =>
    intro ev hev
    have hlt := ih ev hev
    simp only [List.length_append] at hlt ⊢
    omega
  | act _ hk ih =>
    intro ev hev
    rw [List.length_set]
    rcases List.mem_append.mp hev with hev | hev
    · exact ih ev hev
    · rw [List.mem_singleton.mp hev]
      exact (List.getElem?_eq_some_iff.mp hk).1

/-! Every run can be brought to an end: the threads are run one after the other. -/

theorem Runs.finish {k : ℕ} {c : ι} {q : Proc σ α} {s : σ} {ts : List (ι × Proc σ α)}
    (h : Runs prog s₀ hist ⟨s, ts⟩) (hk : ts[k]? = some (c, q)) :
    ∃ more s' r, Runs prog s₀ (hist ++ more) ⟨s', ts.set k (c, .done r)⟩ := by
  have hlt := (List.getElem?_eq_some_iff.mp hk).1
  induction q generalizing hist s ts with
  | done r =>
    refine ⟨[], s, r, ?_⟩
    have hsame : ts.set k (c, .done r) = ts := by
      obtain ⟨_, hget⟩ := List.getElem?_eq_some_iff.mp hk
      rw [← hget, List.set_getElem_self]
    rwa [List.append_nil, hsame]
  | act update next ih =>
    have hnext : (ts.set k (c, next s))[k]? = some (c, next s) := List.getElem?_set_self hlt
    obtain ⟨more, s', r, hrun⟩ := ih s (h.act hk) hnext (by rwa [List.length_set])
    refine ⟨⟨k, s, update s, next s⟩ :: more, s', r, ?_⟩
    rw [List.set_set, List.append_assoc] at hrun
    exact hrun

theorem Runs.finish_all {s : σ} {ts : List (ι × Proc σ α)} (h : Runs prog s₀ hist ⟨s, ts⟩) :
    ∃ more s' ts', Runs prog s₀ (hist ++ more) ⟨s', ts'⟩ ∧ ts'.length = ts.length ∧
      ∀ t ∈ ts', ∃ r, t.2 = .done r := by
  have upto (j : ℕ) : j ≤ ts.length → ∃ more s' ts', Runs prog s₀ (hist ++ more) ⟨s', ts'⟩ ∧
      ts'.length = ts.length ∧ ∀ i t, i < j → ts'[i]? = some t → ∃ r, t.2 = .done r := by
    induction j with
    | zero => exact fun _ => ⟨[], s, ts, by simpa using h, rfl, by simp⟩
    | succ j ih =>
      intro hj
      obtain ⟨more, s', ts', hrun, hlen, hdone⟩ := ih (by omega)
      have hlt : j < ts'.length := by omega
      have hget : ts'[j]? = some (ts'[j].1, ts'[j].2) := List.getElem?_eq_getElem hlt
      obtain ⟨rest, s'', r, hrest⟩ := hrun.finish hget
      refine ⟨more ++ rest, s'', _, by rwa [← List.append_assoc], by simpa using hlen, ?_⟩
      intro i t hi ht
      by_cases hij : j = i
      · subst hij
        rw [List.getElem?_set_self hlt] at ht
        cases ht
        exact ⟨r, rfl⟩
      · rw [List.getElem?_set_ne hij] at ht
        exact hdone i t (by omega) ht
  obtain ⟨more, s', ts', hrun, hlen, hdone⟩ := upto ts.length le_rfl
  refine ⟨more, s', ts', hrun, hlen, fun t ht => ?_⟩
  obtain ⟨i, hi⟩ := List.mem_iff_getElem?.mp ht
  exact hdone i t (by rw [← hlen]; exact (List.getElem?_eq_some_iff.mp hi).1) hi

theorem Runs.spawn_to (c : ι) (h : Runs prog s₀ hist p) {n : ℕ} (hn : p.threads.length ≤ n) :
    ∃ p', Runs prog s₀ hist p' ∧ p'.threads.length = n := by
  induction n, hn using Nat.le_induction with
  | base => exact ⟨p, h, rfl⟩
  | succ n _ ih =>
    obtain ⟨p', hrun, hlen⟩ := ih
    exact ⟨_, hrun.spawn c, by simp [hlen]⟩

end Histories

section Balance
variable [AddCancelCommMonoid M] {I : σ → Prop} {acc due : σ → M} {Q : α → M → Prop}
  {prog : ι → Proc σ α} {s₀ : σ} {hist : List (Event σ α)} {p : Pool σ ι α}

/-- The threads owe what is due and not delivered. -/
def Balanced (I : σ → Prop) (acc due : σ → M) (Q : α → M → Prop) (p : Pool σ ι α) : Prop :=
  I p.state ∧ ∃ owed : List ((ι × Proc σ α) × M), owed.map Prod.fst = p.threads ∧
    (∀ o ∈ owed, o.1.2.Owing I acc due Q o.2) ∧
    acc p.state + (owed.map Prod.snd).sum = due p.state

theorem sum_set_add {debts : List M} {k : ℕ} {a : M} (h : debts[k]? = some a) (a' : M) :
    (debts.set k a').sum + a = debts.sum + a' := by
  induction debts generalizing k with
  | nil => simp at h
  | cons d ds ih =>
    cases k with
    | zero =>
      cases h
      simp only [List.set_cons_zero, List.sum_cons]
      abel
    | succ k =>
      simp only [List.set_cons_succ, List.sum_cons, add_assoc]
      rw [ih (by simpa using h)]

theorem Runs.balanced (hprog : ∀ c, (prog c).Owing I acc due Q 0) (h₀ : I s₀)
    (hstart : acc s₀ = due s₀) (h : Runs prog s₀ hist p) : p.Balanced I acc due Q := by
  induction h with
  | start => exact ⟨h₀, [], rfl, by simp, by simpa using hstart⟩
  | spawn _ c ih =>
    obtain ⟨hI, owed, hthreads, howed, hsum⟩ := ih
    refine ⟨hI, owed ++ [((c, prog c), 0)], by simp [hthreads], fun o ho => ?_, by simpa using hsum⟩
    rcases List.mem_append.mp ho with ho | ho
    · exact howed o ho
    · rw [List.mem_singleton.mp ho]
      exact hprog c
  | @act hist s ts k c update next _ hk ih =>
    obtain ⟨hI, owed, hthreads, howed, hsum⟩ := ih
    dsimp only at hthreads
    rw [← hthreads, List.getElem?_map, Option.map_eq_some_iff] at hk
    obtain ⟨⟨t, a⟩, hk, rfl⟩ := hk
    obtain ⟨hI', a', howing, hbalance⟩ := howed _ (List.mem_of_getElem? hk) s hI
    refine ⟨hI', owed.set k ((c, next s), a'), ?_, fun o ho => ?_, ?_⟩
    · rw [List.map_set, hthreads]
    · rcases List.mem_or_eq_of_mem_set ho with ho | rfl
      · exact howed o ho
      · exact howing
    · have hdebt : (owed.map Prod.snd)[k]? = some a := by rw [List.getElem?_map, hk]; rfl
      have hset := sum_set_add hdebt a'
      rw [List.map_set]
      dsimp only at hbalance hsum ⊢
      apply add_right_cancel (b := a + due s)
      calc acc (update s) + ((owed.map Prod.snd).set k a').sum + (a + due s)
          = acc (update s) + (((owed.map Prod.snd).set k a').sum + a) + due s := by abel
        _ = (acc (update s) + a' + due s) + (owed.map Prod.snd).sum := by rw [hset]; abel
        _ = (acc s + (owed.map Prod.snd).sum) + (a + due (update s)) := by rw [hbalance]; abel
        _ = due (update s) + (a + due s) := by rw [hsum]; abel

theorem Balanced.settled (h : p.Balanced I acc due Q)
    (hdone : ∀ t ∈ p.threads, ∃ r, t.2 = .done r ∧ ∀ a, Q r a → a = 0) :
    acc p.state = due p.state := by
  obtain ⟨-, owed, hthreads, howed, hsum⟩ := h
  have hzero : ∀ a ∈ owed.map Prod.snd, a = 0 := by
    intro a ha
    obtain ⟨o, ho, rfl⟩ := List.mem_map.mp ha
    obtain ⟨r, hr, hnone⟩ := hdone o.1 (hthreads ▸ List.mem_map.mpr ⟨o, ho, rfl⟩)
    have hQ := howed o ho
    rw [hr] at hQ
    exact hnone _ hQ
  rw [← hsum, List.sum_eq_zero hzero, add_zero]

theorem Balanced.owed (h : p.Balanced I acc due Q) {t : ι × Proc σ α} (ht : t ∈ p.threads)
    {r : α} (hr : t.2 = .done r) : ∃ a b, Q r a ∧ acc p.state + (a + b) = due p.state := by
  obtain ⟨-, owed, hthreads, howed, hsum⟩ := h
  rw [← hthreads] at ht
  obtain ⟨o, ho, rfl⟩ := List.mem_map.mp ht
  have hQ := howed o ho
  rw [hr] at hQ
  obtain ⟨before, after, hsplit⟩ := List.append_of_mem ho
  refine ⟨o.2, (before.map Prod.snd).sum + (after.map Prod.snd).sum, hQ, ?_⟩
  rw [← hsum, hsplit, List.map_append, List.map_cons, List.sum_append, List.sum_cons]
  abel

end Balance
end Pool
