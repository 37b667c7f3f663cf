import Steam2Fs.Lib.Threads

/-!
# What a finished pool has done

`Keeps` says what a process never breaks; here is what it cannot end without.
`Leads I R P` follows a process through its actions, with the state moving
along `R` and inside `I` between them, to an end at which `P` holds.
`Duty I R A P` says that whoever makes `A` true goes on to an end with `P`.
Where threads share out work by a counter, the first bounds the counter when
a thread stops, and the second finds the thread that took a given piece.

`Proc.on` runs a process on a part of the state.
-/

namespace Proc
variable {σ τ α β : Type}

section On
variable (get : τ → σ) (set : σ → τ → τ)

def on : Proc σ α → Proc τ α
  | .done a => .done a
  | .act update next => .act (fun t => set (update (get t)) t) fun t => (next (get t)).on

theorem Keeps.on {get : τ → σ} {set : σ → τ → τ} (hset : ∀ x t, get (set x t) = x)
    {I : σ → Prop} {Q : α → Prop} {p : Proc σ α} (hp : p.Keeps I Q) :
    (p.on get set).Keeps (fun t => I (get t)) Q := by
  induction p with
  | done a => exact hp
  | act update next ih =>
    intro t ht
    obtain ⟨hI, hn⟩ := hp (get t) ht
    dsimp only
    rw [hset]
    exact ⟨hI, ih _ hn⟩

theorem within_on {get : τ → σ} {set : σ → τ → τ} {R : τ → τ → Prop}
    (hset : ∀ x t, R t (set x t)) (p : Proc σ α) : (p.on get set).Within R := by
  induction p with
  | done a => trivial
  | act update next ih => exact fun t => ⟨hset _ t, ih _⟩

end On

theorem Keeps.and {I J : σ → Prop} {Q R : α → Prop} {p : Proc σ α} (hp : p.Keeps I Q)
    (hp' : p.Keeps J R) : p.Keeps (fun s => I s ∧ J s) fun a => Q a ∧ R a := by
  induction p with
  | done a => exact ⟨hp, hp'⟩
  | act update next ih =>
    intro s hs
    obtain ⟨hI, hn⟩ := hp s hs.1
    obtain ⟨hJ, hn'⟩ := hp' s hs.2
    exact ⟨⟨hI, hJ⟩, ih s hn hn'⟩

theorem Keeps.forall {ι : Type*} {I : σ → Prop} {Q : ι → α → Prop} {p : Proc σ α} (i₀ : ι)
    (hp : ∀ i, p.Keeps I (Q i)) : p.Keeps I fun a => ∀ i, Q i a := by
  induction p with
  | done a => exact hp
  | act update next ih =>
    intro s hs
    exact ⟨(hp i₀ s hs).1, ih s fun i => (hp i s hs).2⟩

/-- From `s` on, the process can only end where `P` holds. -/
def Leads (I : σ → Prop) (R : σ → σ → Prop) (P : α → σ → Prop) : Proc σ α → σ → Prop
  | .done a, s => P a s
  | .act update next, s => ∀ s', I s' → R s s' → (next s').Leads I R P (update s')

/-- An action that makes `A` true has taken on to end where `P` holds. -/
def Duty (I : σ → Prop) (R : σ → σ → Prop) (A : σ → Prop) (P : α → σ → Prop) : Proc σ α → Prop
  | .done _ => True
  | .act update next => ∀ s, I s →
    (¬ A s → A (update s) → (next s).Leads I R P (update s)) ∧ (next s).Duty I R A P

section Rules
variable {I : σ → Prop} {R : σ → σ → Prop} {A : σ → Prop} {Q : α → Prop} {P : β → σ → Prop}
  {p : Proc σ α} {f : α → Proc σ β}

theorem Leads.bind {J : σ → Prop} (hp : p.Keeps J Q) (hJ : ∀ s s', J s → I s' → R s s' → J s')
    (hf : ∀ a s, Q a → J s → (f a).Leads I R P s) {s : σ} (hs : J s) :
    (p.bind f).Leads I R P s := by
  induction p generalizing s with
  | done a => exact hf a s hp hs
  | act update next ih =>
    intro s' hI hR
    obtain ⟨hu, hn⟩ := hp s' (hJ s s' hs hI hR)
    exact ih s' hn hu

theorem Leads.seq {P' : α → σ → Prop} {s : σ} (hp : p.Leads I R P' s)
    (hf : ∀ a s, P' a s → (f a).Leads I R P s) : (p.bind f).Leads I R P s := by
  induction p generalizing s with
  | done a => exact hf a s hp
  | act update next ih => exact fun s' hI hR => ih s' (hp s' hI hR)

theorem leads_of_stable {F : σ → Prop} (hw : p.Within R) (hF : ∀ s s', R s s' → F s → F s')
    {s : σ} (hs : F s) : p.Leads I R (fun _ s => F s) s := by
  induction p generalizing s with
  | done a => exact hs
  | act update next ih =>
    intro s' _ hR
    exact ih s' (hw s').2 (hF _ _ (hw s').1 (hF _ _ hR hs))

theorem Leads.mono {P P' : α → σ → Prop} (h : ∀ a s, P a s → P' a s) {s : σ}
    (hp : p.Leads I R P s) : p.Leads I R P' s := by
  induction p generalizing s with
  | done a => exact h a s hp
  | act update next ih => exact fun s' hI hR => ih s' (hp s' hI hR)

theorem Duty.bind (hp : p.Within fun s s' => A s' → A s) (hf : ∀ a, (f a).Duty I R A P) :
    (p.bind f).Duty I R A P := by
  induction p with
  | done a => exact hf a
  | act update next ih =>
    intro s _
    exact ⟨fun hA hA' => absurd ((hp s).1 hA') hA, ih s (hp s).2⟩

end Rules
end Proc

namespace Call
variable {σ τ ε α β : Type} {I J : σ → Prop} {R : σ → σ → Prop} {P : Outcome ε β → σ → Prop}
  {Q : Outcome ε α → Prop} {x : Call σ ε α} {f : α → Call σ ε β} {s : σ}

def on (get : τ → σ) (set : σ → τ → τ) (x : Call σ ε α) : Call τ ε α := Proc.on get set x

def Leads (I : σ → Prop) (R : σ → σ → Prop) (P : Outcome ε α → σ → Prop) (x : Call σ ε α)
    (s : σ) : Prop :=
  Proc.Leads I R P x s

def Duty (I : σ → Prop) (R : σ → σ → Prop) (A : σ → Prop) (P : Outcome ε α → σ → Prop)
    (x : Call σ ε α) : Prop :=
  Proc.Duty I R A P x

theorem leads_lift {r : Outcome ε β} (h : P r s) : (lift r : Call σ ε β).Leads I R P s := h

theorem leads_atomic {g : σ → β × σ} (h : ∀ s', I s' → R s s' → P (.ok (g s').1) (g s').2) :
    (atomic g : Call σ ε β).Leads I R P s := h

theorem Leads.bind (hx : x.Keeps J Q) (hJ : ∀ s s', J s → I s' → R s s' → J s')
    (hok : ∀ a s, Q (.ok a) → J s → (f a).Leads I R P s)
    (herr : ∀ e s, Q (.err e) → P (.err e) s) (hpanic : ∀ s, Q .panic → P .panic s) (hs : J s) :
    (x >>= f).Leads I R P s := by
  refine Proc.Leads.bind hx hJ (fun a s ha hs => ?_) hs
  cases a with
  | ok a => exact hok a s ha hs
  | err e => exact herr e s ha
  | panic => exact hpanic s ha

theorem Leads.bind_atomic {g : σ → α × σ}
    (hf : ∀ s', I s' → R s s' → (f (g s').1).Leads I R P (g s').2) :
    ((atomic g : Call σ ε α) >>= f).Leads I R P s := hf

theorem Leads.seq {P' : Outcome ε α → σ → Prop} (hx : x.Leads I R P' s)
    (hok : ∀ a s, P' (.ok a) s → (f a).Leads I R P s)
    (herr : ∀ e s, P' (.err e) s → P (.err e) s) (hpanic : ∀ s, P' .panic s → P .panic s) :
    (x >>= f).Leads I R P s := by
  refine Proc.Leads.seq hx fun a s ha => ?_
  cases a with
  | ok a => exact hok a s ha
  | err e => exact herr e s ha
  | panic => exact hpanic s ha

theorem leads_of_stable {y : Call σ ε β} {F : σ → Prop} (hw : y.Within R)
    (hF : ∀ s s', R s s' → F s → F s') (hP : ∀ a s, F s → P a s) (hs : F s) :
    y.Leads I R P s :=
  Proc.Leads.mono hP (Proc.leads_of_stable hw hF hs)

theorem Duty.bind {A : σ → Prop} (hx : x.Within fun s s' => A s' → A s)
    (hf : ∀ a, (f a).Duty I R A P) : (x >>= f).Duty I R A P := by
  refine Proc.Duty.bind hx fun a => ?_
  cases a with
  | ok a => exact hf a
  | err e => trivial
  | panic => trivial

theorem Duty.bind_atomic {A : σ → Prop} {g : σ → α × σ}
    (hlead : ∀ s, I s → ¬ A s → A (g s).2 → (f (g s).1).Leads I R P (g s).2)
    (hf : ∀ a, (f a).Duty I R A P) : ((atomic g : Call σ ε α) >>= f).Duty I R A P :=
  fun s hs => ⟨hlead s hs, hf _⟩

end Call

namespace Pool
variable {σ ι α : Type} {prog : ι → Proc σ α} {calls : Set ι} {env : σ → σ → Prop}
  {I : σ → Prop} {R : σ → σ → Prop} {A : σ → Prop} {P : α → σ → Prop}

/-- The assumptions on a pool whose state moves along `R` inside `I`. -/
structure Moves (prog : ι → Proc σ α) (calls : Set ι) (env : σ → σ → Prop) (I : σ → Prop)
    (R : σ → σ → Prop) : Prop where
  refl : ∀ s, R s s
  trans : ∀ s s' s'', R s s' → R s' s'' → R s s''
  keeps : ∀ c ∈ calls, (prog c).Keeps I fun _ => True
  within : ∀ c ∈ calls, (prog c).Within R
  env : ∀ s s', env s s' → R s s' ∧ (I s → I s')

def Owes (I : σ → Prop) (R : σ → σ → Prop) (P : α → σ → Prop) (s : σ) (p : Proc σ α) : Prop :=
  ∃ s', R s' s ∧ p.Leads I R P s'

theorem Owes.move {s s' : σ} {p : Proc σ α} (h : Moves prog calls env I R)
    (hp : Owes I R P s p) (hR : R s s') : Owes I R P s' p := by
  obtain ⟨s₀, hs, hp⟩ := hp
  exact ⟨s₀, h.trans _ _ _ hs hR, hp⟩

theorem Owes.act {s : σ} {update : σ → σ} {next : σ → Proc σ α} (h : Moves prog calls env I R)
    (hI : I s) (hp : Owes I R P s (.act update next)) : Owes I R P (update s) (next s) := by
  obtain ⟨s₀, hs, hp⟩ := hp
  exact ⟨update s, h.refl _, hp s hI hs⟩

theorem Moves.inv (h : Moves prog calls env I R) {s₀ : σ} (h₀ : I s₀) {p : Pool σ ι α}
    (hp : Reachable prog calls env s₀ p) : I p.state :=
  (hp.keeps h.keeps (fun s s' he => (h.env s s' he).2) h₀).1

theorem Moves.within_threads (h : Moves prog calls env I R) {s₀ : σ} {p : Pool σ ι α}
    (hp : Reachable prog calls env s₀ p) : ∀ t ∈ p.threads, t.2.Within R := by
  induction hp with
  | refl => simp
  | tail _ hstep ih =>
    intro t ht
    cases hstep with
    | spawn hc =>
      rcases List.mem_append.mp ht with ht | ht
      · exact ih t ht
      · rw [List.mem_singleton.mp ht]
        exact h.within _ hc
    | act hk =>
      rcases List.mem_or_eq_of_mem_set ht with ht | rfl
      · exact ih t ht
      · exact (ih _ (List.mem_of_getElem? hk) _).2
    | env _ => exact ih t ht

theorem Reachable.leads (h : Moves prog calls env I R)
    (hprog : ∀ c ∈ calls, ∀ s, (prog c).Leads I R P s) {s₀ : σ} (h₀ : I s₀) {p : Pool σ ι α}
    (hp : Reachable prog calls env s₀ p) : ∀ t ∈ p.threads, Owes I R P p.state t.2 := by
  induction hp with
  | refl => simp
  | tail hreach hstep ih =>
    have hI := h.inv h₀ hreach
    intro t ht
    cases hstep with
    | spawn hc =>
      rcases List.mem_append.mp ht with ht | ht
      · exact ih t ht
      · rw [List.mem_singleton.mp ht]
        exact ⟨_, h.refl _, hprog _ hc _⟩
    | act hk =>
      have hact := List.mem_of_getElem? hk
      rcases List.mem_or_eq_of_mem_set ht with ht | rfl
      · exact (ih t ht).move h (h.within_threads hreach _ hact _).1
      · exact (ih _ hact).act h hI
    | env he => exact (ih t ht).move h (h.env _ _ he).1

theorem Reachable.owed (h : Moves prog calls env I R)
    (hprog : ∀ c ∈ calls, (prog c).Duty I R A P) (henv : ∀ s s', env s s' → A s' → A s) {s₀ : σ}
    (h₀ : I s₀) (hA : ¬ A s₀) {p : Pool σ ι α} (hp : Reachable prog calls env s₀ p) :
    (∀ t ∈ p.threads, t.2.Duty I R A P) ∧
      (A p.state → ∃ t ∈ p.threads, Owes I R P p.state t.2) := by
  induction hp with
  | refl => exact ⟨by simp, fun hA' => absurd hA' hA⟩
  | tail hreach hstep ih =>
    have hI := h.inv h₀ hreach
    obtain ⟨hduty, howed⟩ := ih
    cases hstep with
    | spawn hc =>
      refine ⟨fun t ht => ?_, fun hA' => ?_⟩
      · rcases List.mem_append.mp ht with ht | ht
        · exact hduty t ht
        · rw [List.mem_singleton.mp ht]
          exact hprog _ hc
      · obtain ⟨t, ht, howes⟩ := howed hA'
        exact ⟨t, List.mem_append_left _ ht, howes⟩
    | @act s ts k c update next hk =>
      have hact := List.mem_of_getElem? hk
      have hlt : k < ts.length := (List.getElem?_eq_some_iff.mp hk).1
      have hnew : (c, next s) ∈ ts.set k (c, next s) := List.mem_set hlt _
      refine ⟨fun t ht => ?_, fun hA' => ?_⟩
      · rcases List.mem_or_eq_of_mem_set ht with ht | rfl
        · exact hduty t ht
        · exact (hduty _ hact s hI).2
      · by_cases hAs : A s
        · obtain ⟨t, ht, howes⟩ := howed hAs
          obtain ⟨j, hj⟩ := List.mem_iff_getElem?.mp ht
          by_cases hjk : j = k
          · subst hjk
            rw [hk] at hj
            cases hj
            exact ⟨_, hnew, howes.act h hI⟩
          · refine ⟨t, List.mem_of_getElem? (i := j) ?_, ?_⟩
            · rw [List.getElem?_set_ne (fun he => hjk he.symm)]
              exact hj
            · exact howes.move h (h.within_threads hreach _ hact s).1
        · exact ⟨_, hnew, _, h.refl _, (hduty _ hact s hI).1 hAs hA'⟩
    | env he =>
      refine ⟨hduty, fun hA' => ?_⟩
      obtain ⟨t, ht, howes⟩ := howed (henv _ _ he hA')
      exact ⟨t, ht, howes.move h (h.env _ _ he).1⟩

end Pool
