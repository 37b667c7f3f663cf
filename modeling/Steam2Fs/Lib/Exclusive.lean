import Steam2Fs.Lib.Threads

/-!
# Code that has part of a state to itself

`view` shows the part of a shared state that a process owns while it runs. The
rest may change between two of its actions, so `Alone` lets each action find
any state with the view it left behind. It says that `A` holds of the view at
every moment and `J` when the process is done.
-/

namespace Proc
variable {σ α ω : Type}

def Alone (view : σ → ω) (A J : ω → Prop) : Proc σ α → ω → Prop
  | .done _, w => A w ∧ J w
  | .act update next, w => A w ∧ ∀ s, view s = w → (next s).Alone view A J (view (update s))

theorem Alone.now {view : σ → ω} {A J : ω → Prop} {p : Proc σ α} {w : ω}
    (h : p.Alone view A J w) : A w := by
  cases p with
  | done a => exact h.1
  | act update next => exact h.1

end Proc
