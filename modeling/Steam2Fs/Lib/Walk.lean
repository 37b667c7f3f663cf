import Mathlib.Data.Finset.Card
import Mathlib.Data.Set.Card
import Mathlib.Logic.Relation
import Mathlib.Tactic

/-!
# Walks along a partial successor function

`after next n x` is where `n` moves along `next` lead from `x`. A walk either
stops, because some position has no successor, or runs forever. Over a finite
set of positions the two are told apart by cycles: the walk from `x` stops
exactly when no position it reaches is its own successor in one or more moves,
and then it makes at most as many moves as there are positions to move from.
-/

namespace Walk
variable {α : Type*} (next : α → Option α)

def Link (x y : α) : Prop := next x = some y

def after : ℕ → α → Option α
  | 0, x => some x
  | n + 1, x => (next x).bind (after n)

def Acyclic (x : α) : Prop :=
  ∀ y, Relation.ReflTransGen (Link next) x y → ¬ Relation.TransGen (Link next) y y

variable {next}

theorem after_succ {x y : α} (h : next x = some y) (n : ℕ) :
    after next (n + 1) x = after next n y := by
  simp [after, h]

theorem after_add (m n : ℕ) (x : α) :
    after next (m + n) x = (after next m x).bind (after next n) := by
  induction m generalizing x with
  | zero => simp [after]
  | succ m ih =>
    rw [Nat.succ_add]
    cases h : next x with
    | none => simp [after, h]
    | some y => rw [after_succ h, after_succ h, ih]

theorem after_none_mono {m n : ℕ} {x : α} (h : after next m x = none) (hmn : m ≤ n) :
    after next n x = none := by
  obtain ⟨k, rfl⟩ := Nat.exists_eq_add_of_le hmn
  rw [after_add, h]
  rfl

theorem reaches_iff {x y : α} :
    Relation.ReflTransGen (Link next) x y ↔ ∃ n, after next n x = some y := by
  constructor
  · intro h
    induction h using Relation.ReflTransGen.head_induction_on with
    | refl => exact ⟨0, rfl⟩
    | head hab _ ih =>
      obtain ⟨n, hn⟩ := ih
      exact ⟨n + 1, by rw [after_succ hab]; exact hn⟩
  · rintro ⟨n, hn⟩
    induction n generalizing x with
    | zero =>
      cases hn
      exact .refl
    | succ n ih =>
      cases hx : next x with
      | none => simp [after, hx] at hn
      | some z =>
        rw [after_succ hx] at hn
        exact .head hx (ih hn)

theorem cycle_iff {x : α} :
    Relation.TransGen (Link next) x x ↔ ∃ n, after next (n + 1) x = some x := by
  rw [Relation.TransGen.head'_iff]
  constructor
  · rintro ⟨y, hxy, hyx⟩
    obtain ⟨n, hn⟩ := reaches_iff.mp hyx
    exact ⟨n, by rw [after_succ hxy]; exact hn⟩
  · rintro ⟨n, hn⟩
    cases hx : next x with
    | none => simp [after, hx] at hn
    | some y =>
      rw [after_succ hx] at hn
      exact ⟨y, hx, reaches_iff.mpr ⟨n, hn⟩⟩

theorem after_ne_none_of_cycle {x : α} (h : Relation.TransGen (Link next) x x) (n : ℕ) :
    after next n x ≠ none := by
  obtain ⟨k, hk⟩ := cycle_iff.mp h
  have hloop : ∀ i, after next (i * (k + 1)) x = some x := by
    intro i
    induction i with
    | zero => simp [after]
    | succ i ih =>
      rw [Nat.succ_mul, after_add, ih]
      exact hk
  intro hn
  have hle : n ≤ n * (k + 1) := Nat.le_mul_of_pos_right n k.succ_pos
  have hnone := after_none_mono hn hle
  rw [hloop n] at hnone
  cases hnone

theorem acyclic_of_stops {x : α} {n : ℕ} (h : after next n x = none) : Acyclic next x := by
  intro y hy hcycle
  obtain ⟨m, hm⟩ := reaches_iff.mp hy
  have hnone := after_none_mono h (Nat.le_add_left n m)
  rw [after_add, hm] at hnone
  exact after_ne_none_of_cycle hcycle n hnone

def trail (next : α → Option α) : ℕ → α → List α
  | 0, _ => []
  | n + 1, x => x :: ((next x).map (trail next n)).getD []

theorem mem_trail {n : ℕ} {x y : α} (h : y ∈ trail next n x) :
    ∃ i < n, after next i x = some y := by
  induction n generalizing x with
  | zero => simp [trail] at h
  | succ n ih =>
    rcases List.mem_cons.mp h with rfl | h
    · exact ⟨0, by omega, rfl⟩
    · cases hx : next x with
      | none => simp [hx] at h
      | some z =>
        obtain ⟨i, hi, hy⟩ := ih (by simpa [hx] using h)
        exact ⟨i + 1, by omega, by rw [after_succ hx]; exact hy⟩

theorem mem_trail_of_after {n i : ℕ} {x y : α} (hi : after next i x = some y) (hin : i < n) :
    y ∈ trail next n x := by
  induction n generalizing i x with
  | zero => omega
  | succ n ih =>
    cases i with
    | zero =>
      cases hi
      exact List.mem_cons_self
    | succ i =>
      cases hx : next x with
      | none => simp [after, hx] at hi
      | some z =>
        rw [after_succ hx] at hi
        have hz := ih hi (by omega)
        simpa [trail, hx] using Or.inr hz

theorem trail_length_le (n : ℕ) (x : α) : (trail next n x).length ≤ n := by
  induction n generalizing x with
  | zero => simp [trail]
  | succ n ih =>
    cases hx : next x with
    | none => simp [trail, hx]
    | some y => simpa [trail, hx] using ih y

theorem encard_le_of_stops {n : ℕ} {x : α} (h : after next n x = none) :
    {y | Relation.TransGen (Link next) x y}.encard ≤ n := by
  classical
  have hsub : {y | Relation.TransGen (Link next) x y} ⊆
      ((trail next n x).toFinset : Set α) := by
    intro y hy
    obtain ⟨i, hi⟩ := reaches_iff.mp hy.to_reflTransGen
    have hin : i < n := by
      by_contra hge
      rw [after_none_mono h (by omega)] at hi
      cases hi
    exact List.mem_toFinset.mpr (mem_trail_of_after hi hin)
  calc {y | Relation.TransGen (Link next) x y}.encard
      ≤ ((trail next n x).toFinset : Set α).encard := Set.encard_le_encard hsub
    _ = ((trail next n x).toFinset.card : ℕ∞) := Set.encard_coe_eq_coe_finsetCard _
    _ ≤ n := by exact_mod_cast (List.toFinset_card_le _).trans (trail_length_le n x)

theorem Acyclic.tail {x y : α} (hac : Acyclic next x) (h : next x = some y) : Acyclic next y :=
  fun z hz => hac z (.head h hz)

theorem trail_nodup {x : α} (hac : Acyclic next x) (n : ℕ) : (trail next n x).Nodup := by
  induction n generalizing x with
  | zero => exact List.nodup_nil
  | succ n ih =>
    cases hx : next x with
    | none => simp [trail, hx]
    | some y =>
      simp only [trail, hx, Option.map_some, Option.getD_some, List.nodup_cons]
      refine ⟨fun hmem => ?_, ih (hac.tail hx)⟩
      obtain ⟨i, -, hi⟩ := mem_trail hmem
      exact hac x .refl (cycle_iff.mpr ⟨i, by rw [after_succ hx]; exact hi⟩)

theorem trail_length {n : ℕ} {x : α} (h : after next n x ≠ none) :
    (trail next n x).length = n := by
  induction n generalizing x with
  | zero => rfl
  | succ n ih =>
    cases hx : next x with
    | none => simp [after, hx] at h
    | some y =>
      rw [after_succ hx] at h
      simp [trail, hx, ih h]

theorem trail_length_succ {n : ℕ} {x : α} (h : after next n x ≠ none) :
    (trail next (n + 1) x).length = n + 1 := by
  induction n generalizing x with
  | zero =>
    cases hx : next x with
    | none => simp [trail, hx]
    | some y => simp [trail, hx]
  | succ n ih =>
    cases hx : next x with
    | none => simp [after, hx] at h
    | some y =>
      rw [after_succ hx] at h
      have hlen := ih h
      simp only [trail, hx, Option.map_some, Option.getD_some, List.length_cons] at hlen ⊢
      omega

theorem stops_of_encard_le {x : α} (hac : Acyclic next x) {k : ℕ}
    (h : {y | Relation.TransGen (Link next) x y}.encard ≤ k) : after next (k + 1) x = none := by
  classical
  by_contra hgo
  cases hx : next x with
  | none => exact hgo (by simp [after, hx])
  | some y =>
    rw [after_succ hx] at hgo
    have hlen := trail_length_succ hgo
    have hcard : (trail next (k + 1) y).toFinset.card = k + 1 := by
      rw [List.toFinset_card_of_nodup (trail_nodup (hac.tail hx) _), hlen]
    have hsub : ((trail next (k + 1) y).toFinset : Set α) ⊆
        {z | Relation.TransGen (Link next) x z} := by
      intro z hz
      obtain ⟨i, -, hi⟩ := mem_trail (List.mem_toFinset.mp hz)
      exact Relation.TransGen.head' hx (reaches_iff.mpr ⟨i, hi⟩)
    have hle := (Set.encard_le_encard hsub).trans h
    rw [Set.encard_coe_eq_coe_finsetCard, hcard] at hle
    have : k + 1 ≤ k := by exact_mod_cast hle
    omega

theorem trail_succ_of_some {n : ℕ} {x y : α} (h : next x = some y) :
    trail next (n + 1) x = x :: trail next n y := by
  simp [trail, h]

theorem trail_of_stops {n m : ℕ} {x : α} (h : after next n x = none) (hnm : n ≤ m) :
    trail next m x = trail next n x := by
  induction n generalizing m x with
  | zero => simp [after] at h
  | succ n ih =>
    obtain ⟨m, rfl⟩ : ∃ k, m = k + 1 := ⟨m - 1, by omega⟩
    cases hx : next x with
    | none => simp [trail, hx]
    | some y =>
      rw [after_succ hx] at h
      rw [trail_succ_of_some hx, trail_succ_of_some hx, ih h (by omega)]

theorem trail_suffix {n : ℕ} {x y : α} {l₁ l₂ : List α} (hstop : after next n x = none)
    (h : trail next n x = l₁ ++ y :: l₂) : trail next n y = y :: l₂ := by
  induction l₁ generalizing x with
  | nil =>
    cases n with
    | zero => simp [trail] at h
    | succ n =>
      have hxy : x = y := by simpa [trail] using (List.cons.inj h).1
      rw [← hxy, h, hxy]
      rfl
  | cons z zs ih =>
    cases n with
    | zero => simp [trail] at h
    | succ n =>
      cases hx : next x with
      | none => simp [trail, hx] at h
      | some w =>
        rw [after_succ hx] at hstop
        rw [trail_succ_of_some hx, List.cons_append] at h
        refine ih (after_none_mono hstop (by omega)) ?_
        rw [trail_of_stops hstop (by omega)]
        exact (List.cons.inj h).2

theorem stops_of_acyclic [DecidableEq α] {x : α} (hac : Acyclic next x) (s : Finset α)
    (hs : ∀ y, Relation.ReflTransGen (Link next) x y → next y ≠ none → y ∈ s) :
    after next (s.card + 1) x = none := by
  by_contra h
  have hlen := trail_length h
  have hsub : (trail next (s.card + 1) x).toFinset ⊆ s := by
    intro y hy
    obtain ⟨i, hi, hyi⟩ := mem_trail (List.mem_toFinset.mp hy)
    refine hs y (reaches_iff.mpr ⟨i, hyi⟩) fun hnone => h ?_
    apply after_none_mono (m := i + 1) _ (by omega)
    rw [after_add, hyi]
    simp [after, hnone]
  have hcard := Finset.card_le_card hsub
  rw [List.toFinset_card_of_nodup (trail_nodup hac _), hlen] at hcard
  omega

/-! ### Walks without repetition -/

/-- A walk from `x` that visits nothing twice, and goes on until it would come
back to itself or has `bound` positions. -/
structure Stretch (next : α → Option α) (bound : ℕ) (x : α) (l : List α) : Prop where
  head : l.head? = some x
  chain : l.IsChain (Link next)
  nodup : l.Nodup
  length_le : l.length ≤ bound
  ends : ∀ y, l.getLast? = some y → ∀ p, next y = some p → p ∈ l ∨ l.length = bound

theorem starts_or_starts {l l' : List α} (hl : l.IsChain (Link next))
    (hl' : l'.IsChain (Link next)) (h : ∀ x ∈ l.head?, ∀ y ∈ l'.head?, x = y) :
    l <+: l' ∨ l' <+: l := by
  induction l generalizing l' with
  | nil => exact Or.inl List.nil_prefix
  | cons a l ih =>
    cases l' with
    | nil => exact Or.inr List.nil_prefix
    | cons b l' =>
      obtain rfl : a = b := h a rfl b rfl
      rw [List.isChain_cons] at hl hl'
      have hnext : ∀ x ∈ l.head?, ∀ y ∈ l'.head?, x = y := by
        intro x hx y hy
        have hxy : next a = some x := hl.1 x hx
        rw [hl'.1 y hy] at hxy
        exact (Option.some.inj hxy).symm
      rw [List.prefix_cons_inj, List.prefix_cons_inj]
      exact ih hl.2 hl'.2 hnext

/-- A walk without repetition starts the stretch from its first position. -/
theorem Stretch.starts {bound : ℕ} {x : α} {l m : List α} (h : Stretch next bound x l)
    (hhead : m.head? = some x) (hchain : m.IsChain (Link next)) (hnodup : m.Nodup)
    (hlen : m.length ≤ bound) : m <+: l := by
  have hsame : ∀ y ∈ m.head?, ∀ z ∈ l.head?, y = z := by
    intro y hy z hz
    rw [hhead] at hy
    rw [h.head] at hz
    exact (Option.some.inj hy).symm.trans (Option.some.inj hz)
  rcases starts_or_starts hchain h.chain hsame with hpre | hpre
  · exact hpre
  -- the stretch ends within `m`, although `m` neither repeats nor is too long
  obtain ⟨rest, rfl⟩ := hpre
  cases rest with
  | nil =>
    rw [List.append_nil]
  | cons p rest =>
    exfalso
    have hne : l ≠ [] := by
      rintro rfl
      cases h.head
    have hlast := List.getLast?_eq_some_getLast hne
    have hlink := (List.isChain_append.mp hchain).2.2 _ hlast p rfl
    rcases h.ends _ hlast p hlink with hp | hp
    · exact (List.nodup_append.mp hnodup).2.2 p hp p List.mem_cons_self rfl
    · rw [List.length_append, List.length_cons] at hlen
      omega

theorem reaches_of_mem_chain {l : List α} (hchain : l.IsChain (Link next)) {x y : α}
    (hhead : l.head? = some x) (hy : y ∈ l) : Relation.ReflTransGen (Link next) x y := by
  induction l generalizing x with
  | nil => cases hy
  | cons a l ih =>
    cases hhead
    rw [List.isChain_cons] at hchain
    rcases List.mem_cons.mp hy with rfl | hy
    · exact .refl
    · obtain ⟨z, zs, rfl⟩ := List.exists_cons_of_ne_nil (List.ne_nil_of_mem hy)
      exact .head (hchain.1 z rfl) (ih hchain.2 rfl hy)

theorem Stretch.reaches {bound : ℕ} {x y : α} {l : List α} (h : Stretch next bound x l)
    (hy : y ∈ l) : Relation.ReflTransGen (Link next) x y :=
  reaches_of_mem_chain h.chain h.head hy

end Walk
