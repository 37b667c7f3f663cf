import Steam2Fs.Lib.Accounts
import Steam2Fs.Lib.Duties

/-!
# Workers that share a counter

Any number of workers take the items of a list by a shared counter and run the
same body on each item they get, until the counter is past the list. The body
of an item owes a fixed share, in the sense of accounts, and delivers it with
its last action. Then a run in which all workers have come back has delivered
the shares of all items and nothing else, whatever the number of workers and
the order of their actions.

A body that panics takes its worker with it. The second part of a share counts
these; a run can always be brought to an end in which every worker has come
back when no item adds to it, and never otherwise.
-/

structure Shared (σ : Type) where
  next : ℕ
  rest : σ

namespace Proc
variable {σ τ α M : Type} [AddCommMonoid M] {I : σ → Prop} {acc : σ → M}
  {acc' due' : τ → M} {Q : α → M → Prop} {get : τ → σ} {set : σ → τ → τ}

theorem Owing.on (hset : ∀ x t, get (set x t) = x) (hacc : ∀ t, acc' t = acc (get t))
    (hdue : ∀ x t, due' (set x t) = due' t) {p : Proc σ α} {a : M}
    (hp : p.Owing I acc (fun _ => 0) Q a) :
    (p.on get set).Owing (fun t => I (get t)) acc' due' Q a := by
  induction p generalizing a with
  | done r => exact hp
  | act update next ih =>
    intro t ht
    obtain ⟨hI, a', ha', hbalance⟩ := hp (get t) ht
    rw [add_zero, add_zero] at hbalance
    dsimp only
    rw [hset, hacc, hacc, hset, hdue]
    refine ⟨hI, a', ih _ ha', ?_⟩
    rw [hbalance]

end Proc

namespace Call
variable {σ ε α β M : Type} [AddCommMonoid M] {I : σ → Prop} {acc due : σ → M} {a : M}
  {f : α → Call σ ε β} {P : Outcome ε β → M → Prop}

theorem Owing.answered {x : Call σ ε α} {r : Outcome ε α} (hx : x.Answers I r)
    (hw : x.Within fun s s' => acc s' = acc s ∧ due s' = due s)
    (hok : ∀ y, r = .ok y → (f y).Owing I acc due P a) (herr : ∀ e, r = .err e → P (.err e) a)
    (hpanic : r = .panic → P .panic a) : (x >>= f).Owing I acc due P a := by
  refine Owing.bind (Proc.Keeps.owing hx hw a) (fun y a' hy => ?_) (fun e a' he => ?_)
    fun a' hp => ?_
  · obtain ⟨hy, rfl⟩ := hy
    exact hok y hy.symm
  · obtain ⟨he, rfl⟩ := he
    exact herr e he.symm
  · obtain ⟨hp, rfl⟩ := hp
    exact hpanic hp.symm

end Call

namespace Workers
variable {σ ε ι M : Type}

def onRest {α : Type} (x : Call σ ε α) : Call (Shared σ) ε α :=
  x.on Shared.rest fun s t => { t with rest := s }

section Loop
variable (items : List ι) (body : ι → Call σ ε Unit)

/-- The counter grows with every round, so there are at most as many rounds
as items. -/
def workLoop : ℕ → Call (Shared σ) ε Unit
  | 0 => pure ()
  | fuel + 1 => do
    let i ← Call.atomic fun t => (t.next, { t with next := t.next + 1 })
    match items[i]? with
    | none => pure ()
    | some item => do
      onRest (body item)
      workLoop fuel

def work : Call (Shared σ) ε Unit := workLoop items body (items.length + 1)

end Loop

/-- A run of `jobs` workers on the items, starting from `s`, that has ended in
`t` with all of them back. -/
def Ends (items : List ι) (body : ι → Call σ ε Unit) (s : σ) (jobs : ℕ) (t : σ) : Prop :=
  ∃ pool : Pool (Shared σ) Unit (Outcome ε Unit),
    Pool.Reachable (fun _ : Unit => work items body) Set.univ (fun _ _ => False) ⟨0, s⟩ pool ∧
      pool.threads.length = max jobs 1 ∧ (∀ th ∈ pool.threads, th.2 = .done (.ok ())) ∧
      pool.state.rest = t

theorem Ends.alone {items : List ι} {body : ι → Call σ ε Unit} {s : σ}
    (h : ((work items body).run ⟨0, s⟩).1 = .ok ()) :
    Ends items body s 1 ((work items body).run ⟨0, s⟩).2.rest := by
  refine ⟨_, Pool.Reachable.call .refl (Set.mem_univ ()), by simp, fun th hth => ?_, rfl⟩
  rw [List.mem_singleton.mp hth]
  exact congrArg Proc.done h

variable [AddCancelCommMonoid M]

/-- How a body ends: it owes nothing, or it is stuck. -/
def Left (r : Outcome ε Unit) (a : M × ℕ) : Prop := r = .ok () ∧ a = 0 ∨ r = .panic ∧ 0 < a.2

/-- Each item owes its share, and keeps `I` while it is worked on. -/
def Fixed (items : List ι) (body : ι → Call σ ε Unit) (I : σ → Prop) (acc : σ → M)
    (share : ι → M × ℕ) : Prop :=
  ∀ item ∈ items,
    (body item).Owing I (fun s => (acc s, 0)) (fun _ => 0) Left (share item)

section Runs
variable {items : List ι} {body : ι → Call σ ε Unit} {I : σ → Prop} {acc : σ → M}
  {share : ι → M × ℕ}

def delivered (acc : σ → M) (t : Shared σ) : M × ℕ := (acc t.rest, 0)

def taken (items : List ι) (share : ι → M × ℕ) (t : Shared σ) : M × ℕ :=
  ((items.take t.next).map share).sum

theorem taken_succ (t : Shared σ) : taken items share { t with next := t.next + 1 } =
    taken items share t + ((items[t.next]?).map share).getD 0 := by
  unfold taken
  dsimp only
  cases hitem : items[t.next]? with
  | none =>
    have hlen := List.getElem?_eq_none_iff.mp hitem
    rw [List.take_of_length_le (by omega), List.take_of_length_le hlen]
    simp
  | some item =>
    rw [List.take_add_one, hitem, List.map_append, List.sum_append]
    simp

theorem body_owing (h : Fixed items body I acc share) {item : ι} (hitem : item ∈ items) :
    (onRest (body item)).Owing (fun t => I t.rest) (delivered acc) (taken items share) Left
      (share item) := by
  refine Proc.Owing.on ?_ ?_ ?_ (h item hitem)
  · exact fun _ _ => rfl
  · exact fun _ => rfl
  · exact fun _ _ => rfl

theorem workLoop_owing (h : Fixed items body I acc share) (fuel : ℕ) :
    (workLoop items body fuel).Owing (fun t => I t.rest) (delivered acc) (taken items share)
      Left 0 := by
  induction fuel with
  | zero => exact Or.inl ⟨rfl, rfl⟩
  | succ fuel ih =>
    refine Call.Owing.bind_atomic fun t ht =>
      ⟨ht, ((items[t.next]?).map share).getD 0, ?_, ?_⟩
    · dsimp only
      cases hitem : items[t.next]? with
      | none => exact Or.inl ⟨rfl, rfl⟩
      | some item =>
        have hbody := body_owing h (List.mem_of_getElem? hitem)
        refine Call.Owing.bind hbody (fun r a' hr => ?_) (fun e a' hr => ?_) fun a' hr => ?_
        · rcases hr with ⟨-, rfl⟩ | ⟨hr, -⟩
          · exact ih
          · cases hr
        · rcases hr with ⟨hr, -⟩ | ⟨hr, -⟩
          · cases hr
          · cases hr
        · rcases hr with ⟨hr, -⟩ | hr
          · cases hr
          · exact Or.inr hr
    · have hdelivered : delivered acc { t with next := t.next + 1 } = delivered acc t := rfl
      dsimp only
      rw [taken_succ, hdelivered]
      abel

/-! A worker comes back only when the counter is past the items. -/

def Onward (t t' : Shared σ) : Prop := t.next ≤ t'.next

theorem onRest_onward {α : Type} (x : Call σ ε α) :
    (onRest x).Within fun t t' => t'.next = t.next := by
  refine Proc.within_on ?_ x
  exact fun _ _ => rfl

theorem workLoop_onward (fuel : ℕ) : (workLoop items body fuel).Within Onward := by
  induction fuel with
  | zero => exact Call.within_pure _
  | succ fuel ih =>
    have hnext : (Call.atomic fun t => (t.next, { t with next := t.next + 1 }) :
        Call (Shared σ) ε ℕ).Within Onward :=
      Call.within_atomic fun t => Nat.le_succ t.next
    refine hnext.bind fun i => ?_
    split
    · exact Call.within_pure _
    · refine Call.Within.bind ((onRest_onward _).mono fun t t' heq => ?_) fun _ => ih
      exact heq.ge

def Past (items : List ι) (r : Outcome ε Unit) (t : Shared σ) : Prop :=
  r = .ok () → items.length ≤ t.next

theorem workLoop_leads (h : Fixed items body I acc share) {fuel : ℕ} {t : Shared σ}
    (hfuel : items.length ≤ t.next + fuel) :
    (workLoop items body fuel).Leads (fun t => I t.rest) Onward (Past items) t := by
  induction fuel generalizing t with
  | zero => exact Call.leads_lift fun _ => hfuel
  | succ fuel ih =>
    refine Call.Leads.bind_atomic fun t' ht' hR => ?_
    have hle : t.next ≤ t'.next := hR
    dsimp only
    split
    · next hnone =>
      have hlen := List.getElem?_eq_none_iff.mp hnone
      exact Call.leads_lift fun _ => by dsimp only; omega
    · next item hitem =>
      -- the counter has passed the item that was taken, and stays there
      have hsafe : (onRest (body item)).Safe fun t => I t.rest :=
        (Proc.Owing.keeps (body_owing h (List.mem_of_getElem? hitem))).mono fun _ _ => trivial
      have hbody : (onRest (body item)).Keeps
          (fun w => I w.rest ∧ t'.next + 1 ≤ w.next) fun _ => True :=
        Proc.Keeps.frame hsafe (onRest_onward (body item)) fun w w' heq hw => by rw [heq]; exact hw
      refine Call.Leads.bind hbody (fun w w' hw hI hR => ⟨hI, hw.2.trans hR⟩)
        (fun _ w _ hw => ih (by omega)) (fun e _ _ hok => by cases hok)
        (fun _ _ hok => by cases hok) ⟨ht', le_rfl⟩

variable {s : σ} {hist : List (Pool.Event (Shared σ) (Outcome ε Unit))}
  {pool : Pool (Shared σ) Unit (Outcome ε Unit)}

theorem past_of_reachable (h : Fixed items body I acc share) (hs : I s)
    (hpool : Pool.Reachable (fun _ : Unit => work items body) Set.univ (fun _ _ => False)
      ⟨0, s⟩ pool) (hsome : pool.threads ≠ [])
    (hdone : ∀ th ∈ pool.threads, th.2 = .done (.ok ())) : items.length ≤ pool.state.next := by
  have hmoves : Pool.Moves (fun _ : Unit => work items body) Set.univ (fun _ _ => False)
      (fun t => I t.rest) Onward :=
    ⟨fun _ => le_rfl, fun _ _ _ h h' => Nat.le_trans h h',
      fun _ _ => (Proc.Owing.keeps (workLoop_owing h _)).mono fun _ _ => trivial,
      fun _ _ => workLoop_onward _, fun _ _ he => he.elim⟩
  have hleads : ∀ c ∈ (Set.univ : Set Unit), ∀ t : Shared σ,
      Proc.Leads (fun t => I t.rest) Onward (Past items) (work items body) t :=
    fun _ _ t => workLoop_leads h (by omega)
  obtain ⟨th, hth⟩ := List.exists_mem_of_ne_nil _ hsome
  obtain ⟨t, ht, hlead⟩ := hpool.leads hmoves hleads hs th hth
  rw [hdone th hth] at hlead
  exact (hlead rfl).trans ht

theorem balanced (h : Fixed items body I acc share) (hstart : acc s = 0) (hs : I s)
    (hrun : Pool.Runs (fun _ : Unit => work items body) ⟨0, s⟩ hist pool) :
    pool.Balanced (fun t => I t.rest) (delivered acc) (taken items share) Left := by
  refine hrun.balanced (fun _ => workLoop_owing h _) hs ?_
  simp [delivered, taken, hstart]

/-- Once all workers are back, the shares of all items have been delivered, and
no item was stuck. -/
theorem Ends.settled (h : Fixed items body I acc share) (hstart : acc s = 0) (hs : I s)
    {jobs : ℕ} {t : σ} (hends : Ends items body s jobs t) :
    I t ∧ (acc t, 0) = (items.map share).sum := by
  obtain ⟨pool, hpool, hlen, hdone, rfl⟩ := hends
  have hsome : pool.threads ≠ [] := by
    intro hnil
    rw [hnil, List.length_nil] at hlen
    omega
  obtain ⟨hist, hrun⟩ := hpool.runs
  have hbalanced := balanced h hstart hs hrun
  have hsettled := hbalanced.settled fun th hth => ⟨_, hdone th hth, fun a ha => by
    rcases ha with ha | ha
    · exact ha.2
    · cases ha.1⟩
  rw [taken, List.take_of_length_le (past_of_reachable h hs hpool hsome hdone)] at hsettled
  exact ⟨hbalanced.1, hsettled⟩

/-- Where no item is stuck, every run of up to `jobs` workers can be brought to
its end, and no worker stops before. -/
theorem finishes (h : Fixed items body I acc share) (hstart : acc s = 0) (hs : I s)
    (hstuck : (items.map share).sum.2 = 0)
    (hrun : Pool.Runs (fun _ : Unit => work items body) ⟨0, s⟩ hist pool) :
    (∀ th ∈ pool.threads, ∀ r, th.2 = .done r → r = .ok ()) ∧
      ∀ jobs, pool.threads.length ≤ max jobs 1 → ∃ more pool',
        Pool.Runs (fun _ : Unit => work items body) ⟨0, s⟩ (hist ++ more) pool' ∧
          Ends items body s jobs pool'.state.rest := by
  have hreturned {hist : List (Pool.Event (Shared σ) (Outcome ε Unit))}
      {pool : Pool (Shared σ) Unit (Outcome ε Unit)}
      (hrun : Pool.Runs (fun _ : Unit => work items body) ⟨0, s⟩ hist pool) :
      ∀ th ∈ pool.threads, ∀ r, th.2 = .done r → r = .ok () := by
    intro th hth r hr
    obtain ⟨a, b, hleft, hsum⟩ := (balanced h hstart hs hrun).owed hth hr
    rcases hleft with hleft | ⟨-, hpos⟩
    · exact hleft.1
    have hsplit : (items.map share).sum = taken items share pool.state +
        ((items.drop pool.state.next).map share).sum := by
      rw [taken, ← List.sum_append, ← List.map_append, List.take_append_drop]
    have hsum := congrArg Prod.snd hsum
    have hsplit := congrArg Prod.snd hsplit
    simp only [Prod.snd_add] at hsum hsplit
    omega
  refine ⟨hreturned hrun, fun jobs hlen => ?_⟩
  obtain ⟨⟨t, ts⟩, hspawned, hjobs⟩ := hrun.spawn_to () hlen
  obtain ⟨more, t', ts', hend, hlen', hdone⟩ := hspawned.finish_all
  refine ⟨more, ⟨t', ts'⟩, hend, ⟨t', ts'⟩, hend.reachable, hlen'.trans hjobs, fun th hth => ?_,
    rfl⟩
  obtain ⟨r, hr⟩ := hdone th hth
  rw [hr, hreturned hend th hth r hr]

end Runs
end Workers
