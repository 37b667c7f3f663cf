import Mathlib.Data.List.Basic

/-!
# Pieces of a buffer at their positions

A format places pieces one after the other; a reader looks at one position at a
time. `Stands t pos a` says that the buffer `t` holds the piece `a` from `pos`
on. What a reader learns at single positions is put together, and a written
sequence of pieces is taken apart, with `stands_append`.
-/

namespace Layout
variable {α : Type*} {t a b : List α} {pos : ℕ}

def Stands (t : List α) (pos : ℕ) (a : List α) : Prop := a <+: t.drop pos

@[simp] theorem stands_nil : Stands t pos [] := List.nil_prefix

theorem stands_zero : Stands t 0 a ↔ a <+: t := by
  rw [Stands, List.drop_zero]

theorem Stands.drop_eq (h : Stands t pos a) : t.drop pos = a ++ t.drop (pos + a.length) := by
  obtain ⟨rest, hrest⟩ := h
  rw [← List.drop_drop, ← hrest, List.drop_left]

theorem Stands.append_iff (h : Stands t pos a) :
    Stands t pos (a ++ b) ↔ Stands t (pos + a.length) b := by
  rw [Stands, Stands, h.drop_eq, List.prefix_append_right_inj]

theorem stands_append :
    Stands t pos (a ++ b) ↔ Stands t pos a ∧ Stands t (pos + a.length) b := by
  constructor
  · intro h
    have ha : Stands t pos a := (List.prefix_append a b).trans h
    exact ⟨ha, ha.append_iff.mp h⟩
  · rintro ⟨ha, hb⟩
    exact ha.append_iff.mpr hb

theorem Stands.piece {l : List (List α)} (h : Stands t pos l.flatten) {i : ℕ}
    (hi : l[i]? = some a) : Stands t (pos + (l.take i).flatten.length) a := by
  obtain ⟨hlt, rfl⟩ := List.getElem?_eq_some_iff.mp hi
  have hsplit : l.flatten = (l.take i).flatten ++ (l[i] ++ (l.drop (i + 1)).flatten) := by
    rw [← List.flatten_cons, ← List.drop_eq_getElem_cons hlt, ← List.flatten_append,
      List.take_append_drop]
  rw [hsplit] at h
  exact (stands_append.mp (stands_append.mp h).2).1

theorem stands_slice (t : List α) (pos n : ℕ) : Stands t pos ((t.drop pos).take n) :=
  List.take_prefix n _

theorem Stands.take_eq (h : Stands t pos a) : (t.drop pos).take a.length = a :=
  (List.prefix_iff_eq_take.mp h).symm

/-- An empty piece stands anywhere, so only a longer one bounds its position. -/
theorem Stands.end_le (h : Stands t pos a) (ha : 0 < a.length) : pos + a.length ≤ t.length := by
  have hlen := h.length_le
  rw [List.length_drop] at hlen
  omega

theorem Stands.end_le_max (h : Stands t pos a) : pos + a.length ≤ max pos t.length := by
  have hlen := h.length_le
  rw [List.length_drop] at hlen
  omega

end Layout
