import Steam2Fs.StoreCycles

/-!
# Version chains over any parent links

The parent a blob records is arbitrary data: it may be missing, be found only
by its version number, lie in the blob's own future or be the blob itself. The
loop of `chain` still ends, because it never takes a blob twice and stops at
the limit, so any fuel past the limit gives the same chain. Read from its end
the chain is a stretch of the parent links.
-/

namespace Steam2Fs
open Outcome Walk Relation

namespace Dump
variable {d : Dump} {cacheDir : ℕ → Option Bytes} {id : ℕ}

theorem chainLoop_fuel (next : ℕ → Option ℕ) {fuel fuel' cur : ℕ} {out : List ℕ}
    (h : CHAIN_LIMIT + 2 ≤ fuel + out.length) (h' : CHAIN_LIMIT + 2 ≤ fuel' + out.length)
    (hlen : out.length ≤ CHAIN_LIMIT + 1) :
    chainLoop (m := Id) (fun b => pure (next b)) fuel out cur =
      chainLoop (m := Id) (fun b => pure (next b)) fuel' out cur := by
  induction fuel generalizing fuel' out cur with
  | zero => omega
  | succ fuel ih =>
    obtain ⟨k, rfl⟩ : ∃ k, fuel' = k + 1 := ⟨fuel' - 1, by omega⟩
    rw [chainLoop_id_succ, chainLoop_id_succ]
    cases next cur with
    | none => rfl
    | some p =>
      dsimp only
      split_ifs with hstop
      · rfl
      · rw [not_or] at hstop
        have hgrow : (out ++ [p]).length = out.length + 1 := by
          rw [List.length_append, List.length_singleton]
        exact ih (by omega) (by omega) (by omega)

theorem line_links {i a b : ℕ} (ha : (d.line cacheDir id).reverse[i]? = some a)
    (hb : (d.line cacheDir id).reverse[i + 1]? = some b) : d.up cacheDir b = some a := by
  have hchain := (d.line_stretch cacheDir id).chain
  have hrev : (d.line cacheDir id).reverse.IsChain fun x y => d.up cacheDir y = some x :=
    List.isChain_reverse.mpr hchain
  obtain ⟨hi, rfl⟩ := List.getElem?_eq_some_iff.mp ha
  obtain ⟨hj, rfl⟩ := List.getElem?_eq_some_iff.mp hb
  exact List.isChain_iff_getElem.mp hrev i hj

theorem ReachedParse.parent (h : d.ReachedParse cacheDir id) (hid : id < d.index.blobs.length)
    {b : ℕ} (hb : ReflTransGen (Link (d.up cacheDir)) id b) :
    (d.parent b).Answers (d.Loads cacheDir) (.ok (d.up cacheDir b)) := by
  refine parent_answers (fun _ => parsed_answers) (h b hb) ?_
  induction hb with
  | refl => exact hid
  | tail hab hlink ih => exact ReachedParse.inRange (fun c hc => h c (hab.trans hc)) ih hlink

/-- What `chain` answers, for any links between the blobs it comes to. -/
theorem chain_shape (hid : id < d.index.blobs.length) (hparse : d.ReachedParse cacheDir id) :
    ∃ l : List ℕ, (d.chain id).Answers (d.Loads cacheDir) (.ok l) ∧
      (∀ fuel ≥ CHAIN_LIMIT + 1,
        (chainLoop d.parent fuel [id] id).Answers (d.Loads cacheDir) (.ok l.reverse)) ∧
      l ≠ [] ∧ l.Nodup ∧ l.getLast? = some id ∧
      (∀ i a b, l[i]? = some a → l[i + 1]? = some b →
        (d.parent b).Answers (d.Loads cacheDir) (.ok (some a))) ∧
      ∀ a, l.head? = some a → (d.parent a).Answers (d.Loads cacheDir) (.ok none) ∨
        (∃ p ∈ l, (d.parent a).Answers (d.Loads cacheDir) (.ok (some p))) ∨
        100000 < l.length := by
  have hst := d.line_stretch cacheDir id
  have hparent : ∀ b ∈ (d.line cacheDir id).reverse,
      (d.parent b).Answers (d.Loads cacheDir) (.ok (d.up cacheDir b)) := by
    intro b hb
    exact hparse.parent hid (hst.reaches (List.mem_reverse.mp hb))
  have hlast : (d.line cacheDir id).reverse.getLast? = some id := by
    rw [List.getLast?_reverse]
    exact hst.head
  refine ⟨(d.line cacheDir id).reverse, chain_line (fun _ => parsed_answers) hid hparse, ?_, ?_,
    List.nodup_reverse.mpr hst.nodup, hlast, fun i a b ha hb => ?_, fun a ha => ?_⟩
  · intro fuel hfuel
    have hloop := chainLoop_line (fun _ => parsed_answers) fuel [id] hid hparse
    have hsame : chainLoop (m := Id) (fun b => pure (d.up cacheDir b)) fuel [id] id =
        d.line cacheDir id :=
      chainLoop_fuel (d.up cacheDir) (by rw [List.length_singleton]; omega) (Nat.le_refl _)
        (Nat.le_add_left 1 CHAIN_LIMIT)
    rw [hsame] at hloop
    rw [List.reverse_reverse]
    exact hloop
  · intro hnil
    rw [hnil] at hlast
    cases hlast
  · have hlink := hparent b (List.mem_of_getElem? hb)
    rw [line_links ha hb] at hlink
    exact hlink
  · have hstart := hparent a (List.mem_of_head? ha)
    rw [List.head?_reverse] at ha
    cases hup : d.up cacheDir a with
    | none =>
      rw [hup] at hstart
      exact Or.inl hstart
    | some p =>
      rw [hup] at hstart
      rcases hst.ends a ha p hup with hmem | hlong
      · exact Or.inr (Or.inl ⟨p, List.mem_reverse.mpr hmem, hstart⟩)
      · refine Or.inr (Or.inr ?_)
        rw [List.length_reverse, hlong]
        exact Nat.lt_succ_self 100000

theorem chain_shape_pointingPair :
    ∃ l : List ℕ, ((pointingPair 7 8).dump.chain 0).Answers
      ((pointingPair 7 8).dump.Loads fun _ => none) (.ok l) ∧ l.Nodup ∧ l.getLast? = some 0 := by
  have htwo := pointingPair_twoCycle
  have hid : 0 < (pointingPair 7 8).dump.index.blobs.length := by
    rw [htwo.1]
    decide
  obtain ⟨l, hans, -, -, hnodup, hlast, -⟩ := chain_shape hid (htwo.allParse.reached hid)
  exact ⟨l, hans, hnodup, hlast⟩

end Dump

end Steam2Fs
