import Mathlib.Logic.Function.Basic

/-!
# Machines that take labelled steps

A machine is a partial step function on states; a label that is not enabled
answers `none`. `Reaches ok s₀` are the states that runs from `s₀` come to when
`ok` holds at each step they take, and `Reaches.keeps` is the invariant rule
for them. `run` executes a fixed list of labels, and `runIf` one whose steps
are tested as they are taken.
-/

namespace Machine
variable {σ α : Type} {step : σ → α → Option σ} {ok : σ → α → Prop} {s₀ : σ}

inductive Reaches (step : σ → α → Option σ) (ok : σ → α → Prop) (s₀ : σ) : σ → Prop
  | start : Reaches step ok s₀ s₀
  | next {s s' : σ} {a : α} (h : Reaches step ok s₀ s) (hok : ok s a)
      (hstep : step s a = some s') : Reaches step ok s₀ s'

def run (step : σ → α → Option σ) : List α → σ → Option σ
  | [], s => some s
  | a :: as, s => (step s a).bind (run step as)

def runIf (step : σ → α → Option σ) (test : σ → α → Bool) : List α → σ → Option σ
  | [], s => some s
  | a :: as, s => if test s a then (step s a).bind (runIf step test as) else none

theorem Reaches.keeps {I : σ → Prop} (h₀ : I s₀)
    (hkeep : ∀ s a s', ok s a → step s a = some s' → I s → I s') {s : σ}
    (h : Reaches step ok s₀ s) : I s := by
  induction h with
  | start => exact h₀
  | next _ hok hstep ih => exact hkeep _ _ _ hok hstep ih

theorem Reaches.run {as : List α} (hok : ∀ a ∈ as, ∀ s, ok s a) {s s' : σ}
    (h : Reaches step ok s₀ s) (hrun : run step as s = some s') : Reaches step ok s₀ s' := by
  induction as generalizing s with
  | nil =>
    cases hrun
    exact h
  | cons a as ih =>
    obtain ⟨mid, hmid, hrest⟩ := Option.bind_eq_some_iff.mp hrun
    have hnext := h.next (hok a (List.mem_cons_self ..) s) hmid
    exact ih (fun b hb => hok b (List.mem_cons_of_mem a hb)) hnext hrest

theorem Reaches.runIf {test : σ → α → Bool} (hok : ∀ s a, test s a = true → ok s a)
    {as : List α} {s s' : σ} (h : Reaches step ok s₀ s) (hrun : runIf step test as s = some s') :
    Reaches step ok s₀ s' := by
  induction as generalizing s with
  | nil =>
    cases hrun
    exact h
  | cons a as ih =>
    rw [Machine.runIf] at hrun
    by_cases htest : test s a = true
    · rw [if_pos htest] at hrun
      obtain ⟨mid, hmid, hrest⟩ := Option.bind_eq_some_iff.mp hrun
      exact ih (h.next (hok s a htest) hmid) hrest
    · rw [if_neg htest] at hrun
      cases hrun

end Machine
