import Steam2Fs.Encode
import Steam2Fs.Lib.Walk

/-!
# The parent walk of `Manifest::path`

One iteration of the loop moves from a node to its parent field. `parse`
checks each parent field against the node count on its own, so the links it
accepts may run in a circle. The loop then never ends, and it ends within one
iteration per node exactly when no node above the start is its own ancestor.
-/

namespace Steam2Fs.Manifest
open Walk

def up (m : Manifest) (cur : UInt32) : Option UInt32 :=
  match m.node cur with
  | none => none
  | some n => if n.parent = NO_NODE then none else some n.parent

theorem up_isSome_lt {m : Manifest} {cur : UInt32} (h : m.up cur ≠ none) :
    cur.toNat < m.nodes.length := by
  by_contra hlt
  apply h
  have hn : m.node cur = none := List.getElem?_eq_none (by omega)
  simp [up, hn]

theorem pathLoop_isSome_iff (m : Manifest) (fuel : ℕ) (cur : UInt32) (parts : List Bytes) :
    (m.pathLoop fuel cur parts).isSome ↔ after m.up (fuel + 1) cur = none := by
  induction fuel generalizing cur parts with
  | zero =>
    rw [pathLoop]
    cases hn : m.node cur with
    | none => simp [after, up, hn]
    | some n => by_cases hp : n.parent = NO_NODE <;> simp [after, up, hn, hp]
  | succ fuel ih =>
    rw [pathLoop]
    cases hn : m.node cur with
    | none => simp [after, up, hn]
    | some n =>
      by_cases hp : n.parent = NO_NODE
      · simp [after, up, hn, hp]
      · have hup : m.up cur = some n.parent := by simp [up, hn, hp]
        simp only [hp, ↓reduceIte, after_succ hup]
        exact ih _ _

theorem path_isSome_iff (m : Manifest) (fuel : ℕ) (idx : UInt32) :
    (m.path fuel idx).isSome ↔ after m.up (fuel + 1) idx = none := by
  rw [path, Option.isSome_map]
  exact pathLoop_isSome_iff m fuel idx []

def indices (m : Manifest) : Finset UInt32 :=
  (Finset.range m.nodes.length).image UInt32.ofNat

theorem mem_indices {m : Manifest} {i : UInt32} (h : i.toNat < m.nodes.length) :
    i ∈ m.indices := by
  refine Finset.mem_image.mpr ⟨i.toNat, Finset.mem_range.mpr h, ?_⟩
  simp

theorem card_indices_le (m : Manifest) : m.indices.card ≤ m.nodes.length := by
  simpa [indices] using Finset.card_image_le (s := Finset.range m.nodes.length)
    (f := UInt32.ofNat)

theorem up_stops {m : Manifest} {idx : UInt32} (h : Acyclic m.up idx) :
    after m.up (m.nodes.length + 1) idx = none := by
  have hstop := stops_of_acyclic h m.indices fun y _ hy => mem_indices (up_isSome_lt hy)
  exact after_none_mono hstop (Nat.add_le_add_right (card_indices_le m) 1)

/-- `path` leaves its loop within one iteration per node, visiting no node
twice, exactly when no node met on the way up is its own ancestor. -/
theorem path_terminates_iff (m : Manifest) (idx : UInt32) :
    ((m.path m.nodes.length idx).isSome ∧ ∀ k, (trail m.up k idx).Nodup) ↔
      Acyclic m.up idx := by
  constructor
  · rintro ⟨h, -⟩
    exact acyclic_of_stops ((path_isSome_iff m _ idx).mp h)
  · intro h
    exact ⟨(path_isSome_iff m _ idx).mpr (up_stops h), trail_nodup h⟩

def selfParent : Bytes :=
  (plainImage [⟨0, 1, 7, 0x4000, 0, 0, 0⟩] [0x78, 0]).encode

theorem path_diverges_on_selfParent :
    ∃ m, parse selfParent = .ok m ∧ ∀ fuel, m.path fuel 0 = none := by
  obtain ⟨m, hm⟩ : ∃ m, parse selfParent = .ok m :=
    Outcome.isOk_iff.mp (by decide +kernel)
  have hup : m.up 0 = some 0 := by
    have h : (fun m => m.up 0) <$> parse selfParent = .ok (some 0) := by
      decide +kernel
    rw [hm, Outcome.map_ok] at h
    exact Outcome.ok.inj h
  refine ⟨m, hm, fun fuel => ?_⟩
  have hcycle := after_ne_none_of_cycle (.single hup : Relation.TransGen (Link m.up) 0 0)
  by_contra hpath
  have hsome := Option.isSome_iff_ne_none.mpr hpath
  exact hcycle _ ((path_isSome_iff m fuel 0).mp hsome)

end Steam2Fs.Manifest
