import Mathlib.Tactic

/-!
# Binary search as the standard library runs it

`cmp` compares an element with the target. The loop keeps a window of `size`
positions from `base` on and moves `base` up on every probe that is not
greater than the target, so on a list ordered by `cmp` it ends at the last
position that is not greater, and a hit is the last of equal elements.
-/

namespace Search
variable {α : Type*} (cmp : α → Ordering)

def Above (l : List α) (i : ℕ) : Prop := (l[i]?).map cmp = some .gt

instance (l : List α) (i : ℕ) : Decidable (Above cmp l i) :=
  inferInstanceAs (Decidable (_ = _))

/-- The loop; `size` shrinks in every round, so it is its own fuel. -/
def probe (l : List α) : ℕ → ℕ → ℕ → ℕ
  | 0, _, base => base
  | fuel + 1, size, base =>
    if 1 < size then
      let half := size / 2
      let mid := base + half
      probe l fuel (size - half) (if Above cmp l mid then base else mid)
    else base

def binarySearchBy (l : List α) : Option ℕ :=
  if l.length = 0 then none
  else
    let base := probe cmp l l.length l.length 0
    if (l[base]?).map cmp = some .eq then some base else none

variable {cmp}

def Split (cmp : α → Ordering) (l : List α) : Prop :=
  ∀ i j, i ≤ j → j < l.length → Above cmp l i → Above cmp l j

theorem probe_spec {l : List α} (hl : Split cmp l) {fuel size base : ℕ} (hfuel : size ≤ fuel)
    (hsize : 0 < size) (hend : base + size ≤ l.length)
    (habove : ∀ j, base + size ≤ j → j < l.length → Above cmp l j) :
    base ≤ probe cmp l fuel size base ∧ probe cmp l fuel size base < l.length ∧
      (base < probe cmp l fuel size base → ¬ Above cmp l (probe cmp l fuel size base)) ∧
      ∀ j, probe cmp l fuel size base < j → j < l.length → Above cmp l j := by
  induction fuel generalizing size base with
  | zero => omega
  | succ fuel ih =>
    rw [probe]
    by_cases h1 : 1 < size
    · simp only [h1, ↓reduceIte]
      by_cases hmid : Above cmp l (base + size / 2)
      · simp only [hmid, ↓reduceIte]
        refine ih (by omega) (by omega) (by omega) fun j hj hlt => ?_
        exact hl _ j (by omega) hlt hmid
      · simp only [hmid, ↓reduceIte]
        have hwindow : ∀ j, base + size / 2 + (size - size / 2) ≤ j → j < l.length →
            Above cmp l j := fun j hj hjl => habove j (by omega) hjl
        obtain ⟨hle, hlt, hstop, hlast⟩ := ih (by omega) (by omega) (by omega) hwindow
        refine ⟨by omega, hlt, fun _ => ?_, hlast⟩
        rcases Nat.lt_or_eq_of_le hle with hb | hb
        · exact hstop hb
        · rw [← hb]
          exact hmid
    · simp only [h1, ↓reduceIte]
      refine ⟨le_rfl, by omega, fun h => absurd h (lt_irrefl _), fun j hj hjl => ?_⟩
      exact habove j (by omega) hjl

theorem binarySearchBy_eq_some {l : List α} (hl : Split cmp l) {i : ℕ} :
    binarySearchBy cmp l = some i ↔
      (l[i]?).map cmp = some .eq ∧ ∀ j, i < j → j < l.length → Above cmp l j := by
  by_cases hnil : l.length = 0
  · have hl0 : l = [] := List.length_eq_zero_iff.mp hnil
    simp [binarySearchBy, hl0]
  · have hwindow : ∀ j, 0 + l.length ≤ j → j < l.length → Above cmp l j :=
      fun j hj hjl => absurd hjl (by omega)
    obtain ⟨-, hlt, hstop, hlast⟩ :=
      probe_spec hl le_rfl (Nat.pos_of_ne_zero hnil) (Nat.zero_add _).le hwindow
    simp only [binarySearchBy, hnil, ↓reduceIte]
    set base := probe cmp l l.length l.length 0 with hbase
    constructor
    · intro h
      split_ifs at h with heq
      rw [← Option.some.inj h]
      exact ⟨heq, hlast⟩
    · rintro ⟨heq, hafter⟩
      have hi : i < l.length := by
        by_contra hge
        rw [List.getElem?_eq_none (by omega)] at heq
        cases heq
      have hib : i = base := by
        rcases Nat.lt_trichotomy i base with h | h | h
        · exact absurd (hafter base h hlt) (hstop (by omega))
        · exact h
        · have := hlast i h hi
          unfold Above at this
          rw [heq] at this
          cases this
      rw [← hib, if_pos heq]

end Search
