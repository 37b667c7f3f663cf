import Mathlib.Logic.Relation
import Steam2Fs.Lib.Outcome

/-!
# Calls made of atomic actions

A `Proc` is a piece of code cut at its atomic actions on a shared state: each
action updates the state and goes on with what it read before the update.
`run` executes a process alone, and a `Pool` interleaves any number of them,
with calls starting at any time and the environment acting in between.

`Keeps I Q` is the proof rule for both: every action keeps `I`, and the result
satisfies `Q`, whatever happens to the state between two actions as long as
`I` holds. A `Call` is a process that answers an `Outcome`, and `Answers I x r`
says that under `I` the call `x` can only answer `r`.
-/

inductive Proc (σ α : Type) where
  | done (a : α)
  | act (update : σ → σ) (next : σ → Proc σ α)

namespace Proc
variable {σ α β : Type}

def bind (f : α → Proc σ β) : Proc σ α → Proc σ β
  | .done a => f a
  | .act update next => .act update fun s => (next s).bind f

def run : Proc σ α → σ → α × σ
  | .done a, s => (a, s)
  | .act update next, s => (next s).run (update s)

def Keeps (I : σ → Prop) (Q : α → Prop) : Proc σ α → Prop
  | .done a => Q a
  | .act update next => ∀ s, I s → I (update s) ∧ (next s).Keeps I Q

def Within (R : σ → σ → Prop) : Proc σ α → Prop
  | .done _ => True
  | .act update next => ∀ s, R s (update s) ∧ (next s).Within R

theorem run_bind (p : Proc σ α) (f : α → Proc σ β) (s : σ) :
    (p.bind f).run s = (f (p.run s).1).run (p.run s).2 := by
  induction p generalizing s with
  | done a => rfl
  | act update next ih => exact ih s (update s)

theorem Keeps.mono {I : σ → Prop} {Q R : α → Prop} {p : Proc σ α} (hp : p.Keeps I Q)
    (h : ∀ a, Q a → R a) : p.Keeps I R := by
  induction p with
  | done a => exact h a hp
  | act update next ih =>
    intro s hs
    obtain ⟨hI, hn⟩ := hp s hs
    exact ⟨hI, ih s hn⟩

theorem Keeps.bind {I : σ → Prop} {Q : α → Prop} {R : β → Prop} {p : Proc σ α}
    {f : α → Proc σ β} (hp : p.Keeps I Q) (hf : ∀ a, Q a → (f a).Keeps I R) :
    (p.bind f).Keeps I R := by
  induction p with
  | done a => exact hf a hp
  | act update next ih =>
    intro s hs
    obtain ⟨hI, hn⟩ := hp s hs
    exact ⟨hI, ih s hn⟩

theorem Keeps.run {I : σ → Prop} {Q : α → Prop} {p : Proc σ α} (hp : p.Keeps I Q) {s : σ}
    (hs : I s) : Q (p.run s).1 ∧ I (p.run s).2 := by
  induction p generalizing s with
  | done a => exact ⟨hp, hs⟩
  | act update next ih =>
    obtain ⟨hI, hn⟩ := hp s hs
    exact ih s hn hI

theorem Within.bind {R : σ → σ → Prop} {p : Proc σ α} {f : α → Proc σ β} (hp : p.Within R)
    (hf : ∀ a, (f a).Within R) : (p.bind f).Within R := by
  induction p with
  | done a => exact hf a
  | act update next ih => exact fun s => ⟨(hp s).1, ih s (hp s).2⟩

theorem Within.run {P : σ → Prop} {p : Proc σ α} (hp : p.Within fun s s' => P s → P s') {s : σ}
    (hs : P s) : P (p.run s).2 := by
  induction p generalizing s with
  | done a => exact hs
  | act update next ih => exact ih s (hp s).2 ((hp s).1 hs)

theorem Within.keeps {P : σ → Prop} {p : Proc σ α} (hp : p.Within fun s s' => P s → P s') :
    p.Keeps P fun _ => True := by
  induction p with
  | done a => trivial
  | act update next ih => exact fun s hs => ⟨(hp s).1 hs, ih s (hp s).2⟩

theorem keeps_true (p : Proc σ α) : p.Keeps (fun _ => True) fun _ => True := by
  induction p with
  | done a => trivial
  | act update next ih => exact fun s _ => ⟨trivial, ih s⟩

theorem Within.mono {R S : σ → σ → Prop} {p : Proc σ α} (hp : p.Within R)
    (h : ∀ s s', R s s' → S s s') : p.Within S := by
  induction p with
  | done a => trivial
  | act update next ih => exact fun s => ⟨h _ _ (hp s).1, ih s (hp s).2⟩

/-- A fact that the changes along `R` leave alone can be added to an invariant. -/
theorem Keeps.frame {I F : σ → Prop} {Q : α → Prop} {R : σ → σ → Prop} {p : Proc σ α}
    (hp : p.Keeps I Q) (hw : p.Within R) (hF : ∀ s s', R s s' → F s → F s') :
    p.Keeps (fun s => I s ∧ F s) Q := by
  induction p with
  | done a => exact hp
  | act update next ih =>
    rintro s ⟨hs, hFs⟩
    obtain ⟨hI, hn⟩ := hp s hs
    obtain ⟨hR, hw'⟩ := hw s
    exact ⟨⟨hI, hF s _ hR hFs⟩, ih s hn hw'⟩

end Proc

structure Pool (σ ι α : Type) where
  state : σ
  threads : List (ι × Proc σ α)

namespace Pool
variable {σ ι α : Type}

/-- One step of a pool: a call of `calls` starts, a thread acts, or the
environment changes the state. -/
inductive Step (prog : ι → Proc σ α) (calls : Set ι) (env : σ → σ → Prop) :
    Pool σ ι α → Pool σ ι α → Prop
  | spawn {s : σ} {ts : List (ι × Proc σ α)} {c : ι} (hc : c ∈ calls) :
      Step prog calls env ⟨s, ts⟩ ⟨s, ts ++ [(c, prog c)]⟩
  | act {s : σ} {ts : List (ι × Proc σ α)} {k : ℕ} {c : ι} {update : σ → σ}
      {next : σ → Proc σ α} (hk : ts[k]? = some (c, .act update next)) :
      Step prog calls env ⟨s, ts⟩ ⟨update s, ts.set k (c, next s)⟩
  | env {s s' : σ} {ts : List (ι × Proc σ α)} (h : env s s') :
      Step prog calls env ⟨s, ts⟩ ⟨s', ts⟩

def Reachable (prog : ι → Proc σ α) (calls : Set ι) (env : σ → σ → Prop) (s₀ : σ)
    (p : Pool σ ι α) : Prop :=
  Relation.ReflTransGen (Step prog calls env) ⟨s₀, []⟩ p

def Answered (p : Pool σ ι α) (c : ι) (a : α) : Prop := (c, Proc.done a) ∈ p.threads

/-- One action of each listed thread, in this order. -/
def follow : List ℕ → Pool σ ι α → Pool σ ι α
  | [], p => p
  | k :: ks, p => match p.threads[k]? with
    | some (c, .act update next) =>
      follow ks ⟨update p.state, p.threads.set k (c, next p.state)⟩
    | _ => follow ks p

section Invariant
variable {prog : ι → Proc σ α} {calls : Set ι} {env : σ → σ → Prop} {I : σ → Prop}
  {Q : ι → α → Prop}

theorem Step.keeps (hprog : ∀ c ∈ calls, (prog c).Keeps I (Q c))
    (henv : ∀ s s', env s s' → I s → I s') {p p' : Pool σ ι α}
    (h : Step prog calls env p p')
    (hp : I p.state ∧ ∀ t ∈ p.threads, t.2.Keeps I (Q t.1)) :
    I p'.state ∧ ∀ t ∈ p'.threads, t.2.Keeps I (Q t.1) := by
  obtain ⟨hI, hts⟩ := hp
  cases h with
  | spawn hc =>
    refine ⟨hI, fun t ht => ?_⟩
    rcases List.mem_append.mp ht with ht | ht
    · exact hts t ht
    · rw [List.mem_singleton.mp ht]
      exact hprog _ hc
  | act hk =>
    obtain ⟨hI', hn⟩ := hts _ (List.mem_of_getElem? hk) _ hI
    refine ⟨hI', fun t ht => ?_⟩
    rcases List.mem_or_eq_of_mem_set ht with ht | rfl
    · exact hts t ht
    · exact hn
  | env h => exact ⟨henv _ _ h hI, hts⟩

theorem Reachable.keeps (hprog : ∀ c ∈ calls, (prog c).Keeps I (Q c))
    (henv : ∀ s s', env s s' → I s → I s') {s₀ : σ} (h₀ : I s₀) {p : Pool σ ι α}
    (h : Reachable prog calls env s₀ p) :
    I p.state ∧ ∀ t ∈ p.threads, t.2.Keeps I (Q t.1) := by
  induction h with
  | refl => exact ⟨h₀, by simp⟩
  | tail _ hstep ih => exact hstep.keeps hprog henv ih

theorem Reachable.answered (hprog : ∀ c ∈ calls, (prog c).Keeps I (Q c))
    (henv : ∀ s s', env s s' → I s → I s') {s₀ : σ} (h₀ : I s₀) {p : Pool σ ι α}
    (h : Reachable prog calls env s₀ p) {c : ι} {a : α} (ha : p.Answered c a) : Q c a :=
  (h.keeps hprog henv h₀).2 _ ha

theorem run_last (s : σ) (ts : List (ι × Proc σ α)) (c : ι) (q : Proc σ α) :
    Relation.ReflTransGen (Step prog calls env) ⟨s, ts ++ [(c, q)]⟩
      ⟨(q.run s).2, ts ++ [(c, .done (q.run s).1)]⟩ := by
  induction q generalizing s with
  | done a => exact .refl
  | act update next ih =>
    have hk : (ts ++ [(c, Proc.act update next)])[ts.length]? = some (c, .act update next) := by
      simp
    have hstep : Step prog calls env ⟨s, ts ++ [(c, .act update next)]⟩
        ⟨update s, ts ++ [(c, next s)]⟩ := by
      simpa using Step.act hk
    exact (ih s (update s)).head hstep

theorem Reachable.call {s₀ : σ} {p : Pool σ ι α} (h : Reachable prog calls env s₀ p) {c : ι}
    (hc : c ∈ calls) :
    Reachable prog calls env s₀
      ⟨((prog c).run p.state).2, p.threads ++ [(c, .done ((prog c).run p.state).1)]⟩ := by
  have hspawn : Step prog calls env p ⟨p.state, p.threads ++ [(c, prog c)]⟩ := .spawn hc
  exact (h.tail hspawn).trans (run_last _ _ _ _)

theorem Reachable.first_call (s₀ : σ) {c : ι} (hc : c ∈ calls) :
    ∃ p, Reachable prog calls env s₀ p ∧ p.Answered c ((prog c).run s₀).1 :=
  ⟨_, Reachable.call .refl hc, by simp [Answered]⟩

theorem Reachable.second_call (s₀ : σ) {c c' : ι} (hc : c ∈ calls) (hc' : c' ∈ calls) :
    ∃ p, Reachable prog calls env s₀ p ∧
      p.Answered c' ((prog c').run ((prog c).run s₀).2).1 :=
  ⟨_, Reachable.call (Reachable.call .refl hc) hc', by simp [Answered]⟩

theorem follow_reaches (ks : List ℕ) (p : Pool σ ι α) :
    Relation.ReflTransGen (Step prog calls env) p (p.follow ks) := by
  induction ks generalizing p with
  | nil => exact .refl
  | cons k ks ih =>
    rw [follow]
    split
    · next c update next hk => exact (ih _).head (.act hk)
    · exact ih p

end Invariant
end Pool

/-- A call on a shared state: a process that answers an outcome. -/
def Call (σ ε α : Type) := Proc σ (Outcome ε α)

namespace Call
open Outcome
variable {σ ε ε' α β : Type}

def lift (x : Outcome ε α) : Call σ ε α := .done x

def atomic (f : σ → α × σ) : Call σ ε α :=
  .act (fun s => (f s).2) fun s => .done (.ok (f s).1)

def read (f : σ → α) : Call σ ε α := atomic fun s => (f s, s)

def modify (f : σ → σ) : Call σ ε Unit := atomic fun s => ((), f s)

protected def bind (x : Call σ ε α) (f : α → Call σ ε β) : Call σ ε β :=
  Proc.bind (fun
    | .ok a => f a
    | .err e => .done (.err e)
    | .panic => .done .panic) x

instance : Monad (Call σ ε) where
  pure a := .done (.ok a)
  bind := Call.bind

def mapErr (f : ε → ε') (x : Call σ ε α) : Call σ ε' α :=
  Proc.bind (fun r => .done (r.mapErr f)) x

def attempt (x : Call σ ε α) : Call σ ε' (Except ε α) :=
  Proc.bind (fun r => .done r.attempt) x

def run (x : Call σ ε α) (s : σ) : Outcome ε α × σ := Proc.run x s

def Keeps (I : σ → Prop) (Q : Outcome ε α → Prop) (x : Call σ ε α) : Prop := Proc.Keeps I Q x

def Safe (I : σ → Prop) (x : Call σ ε α) : Prop := x.Keeps I fun _ => True

def Within (R : σ → σ → Prop) (x : Call σ ε α) : Prop := Proc.Within R x

def Answers (I : σ → Prop) (x : Call σ ε α) (r : Outcome ε α) : Prop := x.Keeps I fun a => a = r

def Determined (I : σ → Prop) (x : Call σ ε α) : Prop := ∃ r, x.Answers I r

@[simp] theorem run_lift (x : Outcome ε α) (s : σ) : (lift x : Call σ ε α).run s = (x, s) := rfl

@[simp] theorem run_pure (a : α) (s : σ) : (pure a : Call σ ε α).run s = (.ok a, s) := rfl

@[simp] theorem run_atomic (f : σ → α × σ) (s : σ) :
    (atomic f : Call σ ε α).run s = (.ok (f s).1, (f s).2) := rfl

@[simp] theorem run_read (f : σ → α) (s : σ) : (read f : Call σ ε α).run s = (.ok (f s), s) := rfl

@[simp] theorem run_modify (f : σ → σ) (s : σ) :
    (modify f : Call σ ε Unit).run s = (.ok (), f s) := rfl

theorem run_bind (x : Call σ ε α) (f : α → Call σ ε β) (s : σ) :
    (x >>= f).run s =
      match x.run s with
      | (.ok a, s') => (f a).run s'
      | (.err e, s') => (.err e, s')
      | (.panic, s') => (.panic, s') := by
  have h := Proc.run_bind x (fun
    | .ok a => f a
    | .err e => .done (.err e)
    | .panic => .done .panic) s
  refine h.trans ?_
  change _ = match Proc.run x s with
      | (.ok a, s') => (f a).run s'
      | (.err e, s') => (.err e, s')
      | (.panic, s') => (.panic, s')
  rcases Proc.run x s with ⟨r, s'⟩
  cases r <;> rfl

theorem run_bind_eq_ok {x : Call σ ε α} {f : α → Call σ ε β} {s s' : σ} {b : β} :
    (x >>= f).run s = (.ok b, s') ↔ ∃ a s₁, x.run s = (.ok a, s₁) ∧ (f a).run s₁ = (.ok b, s') := by
  rw [run_bind]
  rcases x.run s with ⟨r, s₁⟩
  cases r <;> simp

theorem run_mapErr (f : ε → ε') (x : Call σ ε α) (s : σ) :
    (x.mapErr f).run s = ((x.run s).1.mapErr f, (x.run s).2) :=
  Proc.run_bind x _ s

theorem run_attempt (x : Call σ ε α) (s : σ) :
    (x.attempt : Call σ ε' (Except ε α)).run s = ((x.run s).1.attempt, (x.run s).2) :=
  Proc.run_bind x _ s

section Rules
variable {I : σ → Prop} {Q : Outcome ε α → Prop} {R : Outcome ε β → Prop} {x : Call σ ε α}
  {f : α → Call σ ε β}

theorem Keeps.mono {R : Outcome ε α → Prop} (hx : x.Keeps I Q) (h : ∀ a, Q a → R a) :
    x.Keeps I R :=
  Proc.Keeps.mono hx h

theorem Keeps.run (hx : x.Keeps I Q) {s : σ} (hs : I s) : Q (x.run s).1 ∧ I (x.run s).2 :=
  Proc.Keeps.run hx hs

theorem keeps_lift {r : Outcome ε α} (h : Q r) : (lift r : Call σ ε α).Keeps I Q := h

theorem keeps_atomic {g : σ → α × σ} (h : ∀ s, I s → I (g s).2 ∧ Q (.ok (g s).1)) :
    (atomic g : Call σ ε α).Keeps I Q := h

theorem Keeps.bind (hx : x.Keeps I Q) (hok : ∀ a, Q (.ok a) → (f a).Keeps I R)
    (herr : ∀ e, Q (.err e) → R (.err e)) (hpanic : Q .panic → R .panic) :
    (x >>= f).Keeps I R := by
  refine Proc.Keeps.bind hx fun r hr => ?_
  cases r with
  | ok a => exact hok a hr
  | err e => exact herr e hr
  | panic => exact hpanic hr

theorem Keeps.mapErr {R : Outcome ε' α → Prop} {g : ε → ε'} (hx : x.Keeps I Q)
    (h : ∀ r, Q r → R (r.mapErr g)) : (x.mapErr g).Keeps I R :=
  Proc.Keeps.bind hx fun r hr => h r hr

theorem Keeps.attempt {R : Outcome ε' (Except ε α) → Prop} (hx : x.Keeps I Q)
    (h : ∀ r, Q r → R r.attempt) : (x.attempt : Call σ ε' (Except ε α)).Keeps I R :=
  Proc.Keeps.bind hx fun r hr => h r hr

theorem Keeps.safe (hx : x.Keeps I Q) : x.Safe I := hx.mono fun _ _ => trivial

theorem safe_lift (r : Outcome ε α) : (lift r : Call σ ε α).Safe I := trivial

theorem safe_pure (a : α) : (pure a : Call σ ε α).Safe I := trivial

theorem safe_atomic {g : σ → α × σ} (h : ∀ s, I s → I (g s).2) :
    (atomic g : Call σ ε α).Safe I :=
  keeps_atomic fun s hs => ⟨h s hs, trivial⟩

theorem Safe.bind (hx : x.Safe I) (hf : ∀ a, (f a).Safe I) : (x >>= f).Safe I :=
  Keeps.bind hx (fun a _ => hf a) (fun _ _ => trivial) fun _ => trivial

theorem Safe.mapErr {g : ε → ε'} (hx : x.Safe I) : (x.mapErr g).Safe I :=
  Keeps.mapErr hx fun _ _ => trivial

theorem Safe.attempt (hx : x.Safe I) : (x.attempt : Call σ ε' (Except ε α)).Safe I :=
  Keeps.attempt hx fun _ _ => trivial

theorem Answers.run {r : Outcome ε α} (hx : x.Answers I r) {s : σ} (hs : I s) :
    (x.run s).1 = r :=
  (Keeps.run hx hs).1

theorem answers_lift (r : Outcome ε α) : (lift r : Call σ ε α).Answers I r := rfl

theorem answers_pure (a : α) : (pure a : Call σ ε α).Answers I (.ok a) := rfl

theorem Answers.bind {r : Outcome ε α} {g : α → Outcome ε β} (hx : x.Answers I r)
    (hf : ∀ a, r = .ok a → (f a).Answers I (g a)) : (x >>= f).Answers I (r >>= g) := by
  refine Keeps.bind hx (fun a ha => ?_) (fun e he => ?_) fun hp => ?_
  · subst ha
    exact hf a rfl
  · subst he
    rfl
  · subst hp
    rfl

theorem Answers.bind_self {r : Outcome ε α} {g : α → Call σ ε α} (hx : x.Answers I r)
    (hg : ∀ a, r = .ok a → (g a).Answers I r) : (x >>= g).Answers I r := by
  refine Keeps.bind hx (fun a ha => ?_) (fun e he => he) fun hp => hp
  exact hg a ha.symm

theorem Answers.seq {a : α} {r : Outcome ε β} {y : Call σ ε β} (hx : x.Answers I (.ok a))
    (hy : y.Answers I r) : (x >>= fun _ => y).Answers I r :=
  hx.bind (g := fun _ => r) fun _ _ => hy

theorem Answers.after {a : α} {r : Outcome ε β} (hx : x.Answers I (.ok a))
    (hf : (f a).Answers I r) : (x >>= f).Answers I r :=
  hx.bind (g := fun _ => r) fun b hb => by
    cases hb
    exact hf

theorem Determined.bind (hx : x.Determined I) (hf : ∀ a, (f a).Determined I) :
    (x >>= f).Determined I := by
  choose g hg using hf
  obtain ⟨r, hr⟩ := hx
  exact ⟨r >>= g, hr.bind fun a _ => hg a⟩

theorem Answers.frame {F : σ → Prop} {S : σ → σ → Prop} {r : Outcome ε α} (hx : x.Answers I r)
    (hw : x.Within S) (hF : ∀ s s', S s s' → F s → F s') : x.Answers (fun s => I s ∧ F s) r :=
  Proc.Keeps.frame hx hw hF

theorem within_lift {S : σ → σ → Prop} (r : Outcome ε α) : (lift r : Call σ ε α).Within S :=
  trivial

theorem within_pure {S : σ → σ → Prop} (a : α) : (pure a : Call σ ε α).Within S := trivial

theorem within_atomic {S : σ → σ → Prop} {g : σ → α × σ} (h : ∀ s, S s (g s).2) :
    (atomic g : Call σ ε α).Within S :=
  fun s => ⟨h s, trivial⟩

theorem Within.bind {S : σ → σ → Prop} (hx : x.Within S) (hf : ∀ a, (f a).Within S) :
    (x >>= f).Within S := by
  refine Proc.Within.bind hx fun r => ?_
  cases r with
  | ok a => exact hf a
  | err e => trivial
  | panic => trivial

theorem Within.mono {S S' : σ → σ → Prop} (hx : x.Within S) (h : ∀ s s', S s s' → S' s s') :
    x.Within S' :=
  Proc.Within.mono hx h

theorem Within.mapErr {S : σ → σ → Prop} {g : ε → ε'} (hx : x.Within S) :
    (x.mapErr g).Within S :=
  Proc.Within.bind hx fun _ => trivial

/-- What holds after `x`, and is left alone from then on, holds at the end. -/
theorem Within.run_bind {P : σ → Prop} {s : σ} (hx : P (x.run s).2)
    (hf : ∀ a, (f a).Within fun s s' => P s → P s') : P ((x >>= f).run s).2 := by
  rw [Call.run_bind]
  rcases hr : x.run s with ⟨r, s'⟩
  rw [hr] at hx
  cases r with
  | ok a => exact Proc.Within.run (hf a) hx
  | err e => exact hx
  | panic => exact hx

theorem Answers.mapErr {r : Outcome ε α} {g : ε → ε'} (hx : x.Answers I r) :
    (x.mapErr g).Answers I (r.mapErr g) :=
  Keeps.mapErr hx fun _ hr => congrArg _ hr

theorem Answers.attempt {r : Outcome ε α} (hx : x.Answers I r) :
    (x.attempt : Call σ ε' (Except ε α)).Answers I r.attempt :=
  Keeps.attempt hx fun _ hr => congrArg _ hr

theorem Within.attempt {S : σ → σ → Prop} (hx : x.Within S) :
    (x.attempt : Call σ ε' (Except ε α)).Within S :=
  Proc.Within.bind hx fun _ => trivial

end Rules
end Call
