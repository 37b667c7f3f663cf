import Steam2Fs.Lib.Threads

/-!
# Calls whose actions are of known kinds

`Does R Q` says that every action of a process changes the state along `R`,
and that the process only ends with a result in `Q`; unlike `Keeps` it asks
nothing of the states the process meets. The result of one part is known when
the next part begins, so `R` may say what a call has found out before it acts.
An invariant that the changes along `R` keep is kept by every such process.
-/

namespace Proc
variable {σ α β : Type} {R : σ → σ → Prop}

def Does (R : σ → σ → Prop) (Q : α → Prop) : Proc σ α → Prop
  | .done a => Q a
  | .act update next => ∀ s, R s (update s) ∧ (next s).Does R Q

theorem Does.bind {Q : α → Prop} {P : β → Prop} {p : Proc σ α} {f : α → Proc σ β}
    (hp : p.Does R Q) (hf : ∀ a, Q a → (f a).Does R P) : (p.bind f).Does R P := by
  induction p with
  | done a => exact hf a hp
  | act update next ih => exact fun s => ⟨(hp s).1, ih s (hp s).2⟩

theorem Does.keeps {Q : α → Prop} {I : σ → Prop} {p : Proc σ α} (hp : p.Does R Q)
    (hR : ∀ s s', R s s' → I s → I s') : p.Keeps I Q := by
  induction p with
  | done a => exact hp
  | act update next ih => exact fun s hs => ⟨hR _ _ (hp s).1 hs, ih s (hp s).2⟩

end Proc

namespace Call
variable {σ ε ε' α β : Type} {R : σ → σ → Prop} {Q : α → Prop} {x : Call σ ε α}

/-- `Q` is about the value of a call that succeeds. -/
def Does (R : σ → σ → Prop) (Q : α → Prop) (x : Call σ ε α) : Prop :=
  Proc.Does R (fun o => ∀ a, o = .ok a → Q a) x

theorem does_lift {r : Outcome ε α} (h : ∀ a, r = .ok a → Q a) :
    (lift r : Call σ ε α).Does R Q := h

theorem does_pure {a : α} (h : Q a) : (pure a : Call σ ε α).Does R Q := by
  rintro b hb
  cases hb
  exact h

theorem does_atomic {g : σ → α × σ} (h : ∀ s, R s (g s).2 ∧ Q (g s).1) :
    (atomic g : Call σ ε α).Does R Q := by
  refine fun s => ⟨(h s).1, fun a ha => ?_⟩
  cases ha
  exact (h s).2

theorem Does.bind {P : β → Prop} {f : α → Call σ ε β} (hx : x.Does R Q)
    (hf : ∀ a, Q a → (f a).Does R P) : (x >>= f).Does R P := by
  refine Proc.Does.bind hx fun o ho => ?_
  cases o with
  | ok a => exact hf a (ho a rfl)
  | err e => exact fun b hb => by cases hb
  | panic => exact fun b hb => by cases hb

theorem Does.mapErr {g : ε → ε'} (hx : x.Does R Q) : (x.mapErr g).Does R Q := by
  refine Proc.Does.bind hx fun o ho a ha => ?_
  cases o with
  | ok b =>
    cases ha
    exact ho _ rfl
  | err e => cases ha
  | panic => cases ha

theorem Does.attempt (hx : x.Does R Q) :
    (x.attempt : Call σ ε' (Except ε α)).Does R fun r => ∀ a, r = .ok a → Q a := by
  refine Proc.Does.bind hx fun o ho r hr a ha => ?_
  subst ha
  cases o with
  | ok b =>
    cases hr
    exact ho _ rfl
  | err e => cases hr
  | panic => cases hr

theorem Does.answer {g : Outcome ε α → β} (hx : x.Does R Q) :
    (Proc.bind (fun r => .done (g r)) x : Proc σ β).Does R fun _ => True :=
  Proc.Does.bind hx fun _ _ => trivial

end Call
