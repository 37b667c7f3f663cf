import Steam2Fs.Lib.Rooted
import Steam2Fs.ManifestPath

/-!
# The directory structure a manifest describes

`parse` accepts any child and sibling links that stay inside the node table.
`Slot` reads the chain of a directory off the link fields, one field per
position, `Linked` follows such chains down from the root, and `Live` collects
the link fields met on the way, all without the lists that `children` builds.
The walk meets a tree exactly when no node is the target of two live link
fields and the root is the target of none.
-/

namespace Steam2Fs.Manifest
open Relation

/-- `child` is what the `k`-th step along the chain of `dir` yields. -/
inductive Slot (m : Manifest) (dir : UInt32) : ℕ → UInt32 → Prop where
  | first {n : Node} {c : Node} (hdir : m.node dir = some n) (hd : n.isDir = true)
      (hcount : 0 < n.countOrSize.toNat) (h0 : n.firstChild ≠ 0) (h1 : n.firstChild ≠ NO_NODE)
      (hc : m.node n.firstChild = some c) : Slot m dir 0 n.firstChild
  | next {k : ℕ} {i : UInt32} {n : Node} {s : Node} {c : Node} (prior : Slot m dir k i)
      (hdir : m.node dir = some n) (hcount : k + 1 < n.countOrSize.toNat)
      (hs : m.node i = some s) (h0 : s.nextSibling ≠ 0) (h1 : s.nextSibling ≠ NO_NODE)
      (hc : m.node s.nextSibling = some c) : Slot m dir (k + 1) s.nextSibling

inductive LinkField where
  | firstChild (dir : UInt32)
  | nextSibling (node : UInt32)
  deriving DecidableEq

def Child (m : Manifest) (dir c : UInt32) : Prop := c ∈ m.children dir

def Reached (m : Manifest) : UInt32 → Prop := ReflTransGen m.Child m.root

def Linked (m : Manifest) : UInt32 → Prop :=
  ReflTransGen (fun dir c => ∃ k, m.Slot dir k c) m.root

/-- The link fields followed below the root, with where they lead. -/
inductive Live (m : Manifest) : LinkField → UInt32 → Prop where
  | first {dir c : UInt32} (hr : m.Linked dir) (h : m.Slot dir 0 c) : Live m (.firstChild dir) c
  | next {dir i c : UInt32} {k : ℕ} (hr : m.Linked dir) (hi : m.Slot dir k i)
      (h : m.Slot dir (k + 1) c) : Live m (.nextSibling i) c

structure IsTree (m : Manifest) : Prop where
  distinct : ∀ dir, m.Reached dir → (m.children dir).Nodup
  few : ∀ dir, m.Reached dir → (m.children dir).length ≤ m.nodes.length
  one_parent : ∀ dir dir' c, m.Reached dir → m.Reached dir' → m.Child dir c → m.Child dir' c →
    dir = dir'
  no_cycle : ∀ dir, m.Reached dir → ¬ TransGen m.Child dir dir
  visits_once : ∀ depth, (Rooted.preorder m.children depth m.root).Nodup
  walk_ends : ∀ dir, m.Reached dir → Acc (fun c d => m.Child d c) dir

theorem Slot.earlier {m : Manifest} {dir : UInt32} {k : ℕ} (l : ℕ) {c : UInt32}
    (h : m.Slot dir (k + 1 + l) c) : ∃ i, m.Slot dir k i := by
  induction l generalizing c with
  | zero =>
    cases h with
    | next prior => exact ⟨_, prior⟩
  | succ l ih =>
    cases h with
    | next prior => exact ih prior

theorem slot_succ_iff {m : Manifest} {dir : UInt32} {n s : Node} (hdir : m.node dir = some n)
    {k : ℕ} {i : UInt32} (hk : m.Slot dir k i) (honly : ∀ i', m.Slot dir k i' → i' = i)
    (hs : m.node i = some s) (c : UInt32) :
    m.Slot dir (k + 1) c ↔ k + 1 < n.countOrSize.toNat ∧ s.nextSibling = c ∧
      s.nextSibling ≠ 0 ∧ s.nextSibling ≠ NO_NODE ∧ (m.node s.nextSibling).isSome := by
  constructor
  · intro h
    cases h with
    | next prior hdir' hcount hs' h0 h1 hc =>
      rw [honly _ prior, hs] at hs'
      cases hs'
      rw [hdir] at hdir'
      cases hdir'
      exact ⟨hcount, rfl, h0, h1, by simp [hc]⟩
  · intro h
    obtain ⟨hcount, hnext, h0, h1, hsome⟩ := h
    obtain ⟨c', hc⟩ := Option.isSome_iff_exists.mp hsome
    rw [← hnext]
    exact .next hk hdir hcount hs h0 h1 hc

theorem childrenFrom_getElem? {m : Manifest} {dir : UInt32} {n : Node}
    (hdir : m.node dir = some n) {c : UInt32} (j : ℕ) :
    ∀ {r k : ℕ} {nxt : UInt32}, k + r = n.countOrSize.toNat →
      (∀ c', m.Slot dir k c' ↔ 0 < r ∧ nxt = c' ∧ nxt ≠ 0 ∧ nxt ≠ NO_NODE ∧
        (m.node nxt).isSome) →
      ((m.childrenFrom r nxt)[j]? = some c ↔ m.Slot dir (k + j) c) := by
  induction j with
  | zero =>
    intro r k nxt hr hslot
    rw [Nat.add_zero, hslot c]
    cases r with
    | zero => simp [childrenFrom]
    | succ r =>
      by_cases hend : nxt = 0 ∨ nxt = NO_NODE
      · simp [childrenFrom, hend]
        tauto
      · rw [not_or] at hend
        cases hn : m.node nxt with
        | none => simp [childrenFrom, hend.1, hend.2, hn]
        | some s => simp [childrenFrom, hend.1, hend.2, hn]
  | succ j ih =>
    intro r k nxt hr hslot
    have hshift : k + (j + 1) = k + 1 + j := by omega
    rw [hshift]
    have hno (hk : ∀ i, ¬ m.Slot dir k i) : ¬ m.Slot dir (k + 1 + j) c := by
      intro h
      obtain ⟨i, hi⟩ := h.earlier
      exact hk i hi
    cases r with
    | zero =>
      have hno := hno fun i hi => absurd ((hslot i).mp hi).1 (lt_irrefl 0)
      simp [childrenFrom, hno]
    | succ r =>
      by_cases hend : nxt = 0 ∨ nxt = NO_NODE
      · have hno := hno fun i hi => hend.elim ((hslot i).mp hi).2.2.1 ((hslot i).mp hi).2.2.2.1
        simp [childrenFrom, hend, hno]
      · rw [not_or] at hend
        cases hn : m.node nxt with
        | none =>
          have hno := hno fun i hi => by simpa [hn] using ((hslot i).mp hi).2.2.2.2
          simp [childrenFrom, hend.1, hend.2, hn, hno]
        | some s =>
          have hk : m.Slot dir k nxt :=
            (hslot nxt).mpr ⟨by omega, rfl, hend.1, hend.2, by simp [hn]⟩
          have honly : ∀ i, m.Slot dir k i → i = nxt := fun i hi => ((hslot i).mp hi).2.1.symm
          have hcount : k + 1 < n.countOrSize.toNat ↔ 0 < r := by omega
          simp only [childrenFrom, hend.1, hend.2, or_self, ↓reduceIte, hn, List.getElem?_cons_succ]
          apply ih (by omega)
          intro c'
          rw [slot_succ_iff hdir hk honly hn, hcount]

theorem children_getElem? (m : Manifest) (dir : UInt32) (k : ℕ) (c : UInt32) :
    (m.children dir)[k]? = some c ↔ m.Slot dir k c := by
  -- A chain position needs a directory node to start from.
  have hstart : ∀ k c, m.Slot dir k c → ∃ n, m.node dir = some n ∧ n.isDir = true := by
    intro k c h
    induction h with
    | first hdir hd => exact ⟨_, hdir, hd⟩
    | next prior _ _ _ _ _ _ ih => exact ih
  cases hn : m.node dir with
  | none =>
    have hno : ¬ m.Slot dir k c := by
      intro h
      obtain ⟨n, hdir, -⟩ := hstart k c h
      simp [hn] at hdir
    simp [children, hn, hno]
  | some n =>
    cases hd : n.isDir with
    | false =>
      have hno : ¬ m.Slot dir k c := by
        intro h
        obtain ⟨n', hdir, hd'⟩ := hstart k c h
        rw [hn] at hdir
        cases hdir
        simp [hd] at hd'
      simp [children, hn, hd, childrenFrom, hno]
    | true =>
      simp only [children, hn, hd, ↓reduceIte]
      suffices hfirst : ∀ c', m.Slot dir 0 c' ↔ 0 < n.countOrSize.toNat ∧ n.firstChild = c' ∧
          n.firstChild ≠ 0 ∧ n.firstChild ≠ NO_NODE ∧ (m.node n.firstChild).isSome by
        simpa using childrenFrom_getElem? hn k (Nat.zero_add _) hfirst
      intro c'
      constructor
      · intro h
        cases h with
        | first hdir hd' hcount h0 h1 hc =>
          rw [hn] at hdir
          cases hdir
          exact ⟨hcount, rfl, h0, h1, by simp [hc]⟩
      · rintro ⟨hpos, rfl, h0, h1, hsome⟩
        obtain ⟨s, hs⟩ := Option.isSome_iff_exists.mp hsome
        exact .first hn hd hpos h0 h1 hs

theorem child_iff_slot {m : Manifest} {dir c : UInt32} : m.Child dir c ↔ ∃ k, m.Slot dir k c := by
  simp only [Child, List.mem_iff_getElem?, children_getElem?]

theorem reached_iff_linked {m : Manifest} {dir : UInt32} : m.Reached dir ↔ m.Linked dir := by
  have hstep : m.Child = fun dir c => ∃ k, m.Slot dir k c :=
    funext₂ fun _ _ => propext child_iff_slot
  rw [Reached, Linked, hstep]

theorem slot_node {m : Manifest} {dir c : UInt32} {k : ℕ} (h : m.Slot dir k c) :
    c.toNat < m.nodes.length := by
  have hnode : ∃ n, m.node c = some n := by
    cases h with
    | first _ _ _ _ _ hc => exact ⟨_, hc⟩
    | next _ _ _ _ _ _ hc => exact ⟨_, hc⟩
  obtain ⟨n, hn⟩ := hnode
  exact (List.getElem?_eq_some_iff.mp hn).1

theorem slot_unique {m : Manifest} {dir c c' : UInt32} {k : ℕ} (h : m.Slot dir k c)
    (h' : m.Slot dir k c') : c = c' := by
  rw [← children_getElem?] at h h'
  exact Option.some.inj (h.symm.trans h')

theorem Live.of_slot {m : Manifest} {dir c : UInt32} (hr : m.Reached dir) {k : ℕ}
    (h : m.Slot dir k c) :
    (k = 0 ∧ m.Live (.firstChild dir) c) ∨
      ∃ j i, k = j + 1 ∧ m.Slot dir j i ∧ m.Live (.nextSibling i) c := by
  cases k with
  | zero => exact Or.inl ⟨rfl, .first (reached_iff_linked.mp hr) h⟩
  | succ j =>
    have hprior : ∃ i, m.Slot dir j i := by
      cases h with
      | next prior => exact ⟨_, prior⟩
    obtain ⟨i, hi⟩ := hprior
    exact Or.inr ⟨j, i, rfl, hi, .next (reached_iff_linked.mp hr) hi h⟩

theorem Live.slot {m : Manifest} {f : LinkField} {c : UInt32} (h : m.Live f c) :
    ∃ dir k, m.Reached dir ∧ m.Slot dir k c ∧
      ((k = 0 ∧ f = .firstChild dir) ∨ ∃ j i, k = j + 1 ∧ m.Slot dir j i ∧ f = .nextSibling i) := by
  cases h with
  | first hr h => exact ⟨_, _, reached_iff_linked.mpr hr, h, Or.inl ⟨rfl, rfl⟩⟩
  | next hr hi h => exact ⟨_, _, reached_iff_linked.mpr hr, h, Or.inr ⟨_, _, rfl, hi, rfl⟩⟩

section Unique
variable {m : Manifest} (hone : ∀ f f' c, m.Live f c → m.Live f' c → f = f')
include hone

theorem slot_injective {dir dir' c : UInt32} {k k' : ℕ} (hr : m.Reached dir)
    (hr' : m.Reached dir') (h : m.Slot dir k c) (h' : m.Slot dir' k' c) :
    dir = dir' ∧ k = k' := by
  induction k generalizing k' c with
  | zero =>
    have hlive : m.Live (.firstChild dir) c := .first (reached_iff_linked.mp hr) h
    rcases Live.of_slot hr' h' with ⟨hk, hl⟩ | ⟨j, i, -, -, hl⟩
    · have hf := hone _ _ _ hlive hl
      exact ⟨LinkField.firstChild.inj hf, hk.symm⟩
    · cases hone _ _ _ hlive hl
  | succ k ih =>
    rcases Live.of_slot hr h with ⟨hk, -⟩ | ⟨j, i, hj, hi, hl⟩
    · cases hk
    · cases hj
      rcases Live.of_slot hr' h' with ⟨-, hl'⟩ | ⟨j', i', hj', hi', hl'⟩
      · cases hone _ _ _ hl hl'
      · have hii : i = i' := LinkField.nextSibling.inj (hone _ _ _ hl hl')
        obtain ⟨hdir, hkj⟩ := ih hi (hii ▸ hi')
        exact ⟨hdir, by omega⟩

theorem children_nodup {dir : UInt32} (hr : m.Reached dir) : (m.children dir).Nodup := by
  refine List.nodup_iff_getElem?_ne_getElem?.mpr fun i j hij hj heq => ?_
  obtain ⟨c, hc⟩ : ∃ c, (m.children dir)[j]? = some c := ⟨_, List.getElem?_eq_getElem hj⟩
  have hi := (children_getElem? m dir i c).mp (heq.trans hc)
  have hj := (children_getElem? m dir j c).mp hc
  have := (slot_injective hone hr hr hi hj).2
  omega

theorem child_one_parent {dir dir' c : UInt32} (hr : m.Reached dir) (hr' : m.Reached dir')
    (h : m.Child dir c) (h' : m.Child dir' c) : dir = dir' := by
  obtain ⟨k, hk⟩ := child_iff_slot.mp h
  obtain ⟨k', hk'⟩ := child_iff_slot.mp h'
  exact (slot_injective hone hr hr' hk hk').1

end Unique

theorem children_length_le {m : Manifest} {dir : UInt32} (h : (m.children dir).Nodup) :
    (m.children dir).length ≤ m.nodes.length := by
  have hsub : (m.children dir).toFinset ⊆ m.indices := by
    intro c hc
    obtain ⟨k, hk⟩ := child_iff_slot.mp (List.mem_toFinset.mp hc)
    exact mem_indices (slot_node hk)
  calc
    (m.children dir).length = (m.children dir).toFinset.card :=
      (List.toFinset_card_of_nodup h).symm
    _ ≤ m.indices.card := Finset.card_le_card hsub
    _ ≤ m.nodes.length := card_indices_le m

theorem child_root_iff_live {m : Manifest} :
    (∃ dir, m.Reached dir ∧ m.Child dir m.root) ↔ ∃ f, m.Live f m.root := by
  constructor
  · rintro ⟨dir, hr, hc⟩
    obtain ⟨k, hk⟩ := child_iff_slot.mp hc
    rcases Live.of_slot hr hk with ⟨-, hl⟩ | ⟨j, i, -, -, hl⟩
    · exact ⟨_, hl⟩
    · exact ⟨_, hl⟩
  · rintro ⟨f, hf⟩
    obtain ⟨dir, k, hr, hk, -⟩ := hf.slot
    exact ⟨dir, hr, child_iff_slot.mpr ⟨k, hk⟩⟩

theorem IsTree.live_unique {m : Manifest} (ht : m.IsTree) {f f' : LinkField} {c : UInt32}
    (h : m.Live f c) (h' : m.Live f' c) : f = f' := by
  obtain ⟨dir, k, hr, hk, hf⟩ := h.slot
  obtain ⟨dir', k', hr', hk', hf'⟩ := h'.slot
  have hdir : dir = dir' := ht.one_parent dir dir' c hr hr' (child_iff_slot.mpr ⟨k, hk⟩)
    (child_iff_slot.mpr ⟨k', hk'⟩)
  subst hdir
  have hkk : k = k' := by
    have hi := (children_getElem? m dir k c).mpr hk
    have hi' := (children_getElem? m dir k' c).mpr hk'
    have hlt := (List.getElem?_eq_some_iff.mp hi).1
    exact (List.getElem?_inj hlt (ht.distinct dir hr)).mp (hi.trans hi'.symm)
  subst hkk
  rcases hf with ⟨h0, rfl⟩ | ⟨j, i, hj, hi, rfl⟩
  · rcases hf' with ⟨-, rfl⟩ | ⟨j', i', hj', -, rfl⟩
    · rfl
    · omega
  · rcases hf' with ⟨h0, rfl⟩ | ⟨j', i', hj', hi', rfl⟩
    · omega
    · have hjj : j = j' := by omega
      exact congrArg _ (slot_unique hi (hjj ▸ hi'))

instance : Finite UInt32 :=
  Finite.of_injective UInt32.toFin fun _ _ h => UInt32.toNat_inj.mp (congrArg Fin.val h)

/-- A walk from the root meets a tree, every node at most once, exactly when
no two live link fields lead to one node and none leads to the root. -/
theorem isTree_iff_live_unique (m : Manifest) :
    m.IsTree ↔ (∀ f f' c, m.Live f c → m.Live f' c → f = f') ∧ ∀ f, ¬ m.Live f m.root := by
  constructor
  · intro ht
    refine ⟨fun f f' c h h' => ht.live_unique h h', fun f hf => ?_⟩
    obtain ⟨dir, hr, hc⟩ := child_root_iff_live.mpr ⟨f, hf⟩
    exact ht.no_cycle m.root .refl (TransGen.tail' hr hc)
  · rintro ⟨hone, hroot⟩
    have hno : ∀ d, m.Reached d → ¬ m.Child d m.root := by
      intro d hd hc
      obtain ⟨f, hf⟩ := child_root_iff_live.mp ⟨d, hd, hc⟩
      exact hroot f hf
    have hparent : ∀ dir dir' c, m.Reached dir → m.Reached dir' → m.Child dir c →
        m.Child dir' c → dir = dir' :=
      fun dir dir' c hr hr' h h' => child_one_parent hone hr hr' h h'
    have hcycle : ∀ d, m.Reached d → ¬ TransGen m.Child d d :=
      fun d hd => Rooted.no_cycle hparent hno hd
    refine ⟨fun dir hr => children_nodup hone hr,
      fun dir hr => children_length_le (children_nodup hone hr), hparent, hcycle,
      fun depth => ?_, fun dir hr => Rooted.acc_of_no_cycle hcycle hr⟩
    exact Rooted.preorder_nodup (fun d hd => children_nodup hone hd) hparent hcycle depth .refl

def loopedChain : Bytes :=
  (plainImage [⟨0, 2, NO_FILE, 0, NO_NODE, 0, 1⟩, ⟨0, 1, NO_FILE, 0, 0, 1, 1⟩] [0]).encode

theorem loopedChain_not_tree :
    ∃ m, parse loopedChain = .ok m ∧ m.children m.root = [1, 1] ∧ m.children 1 = [1] ∧
      ¬ m.IsTree := by
  obtain ⟨m, hm⟩ : ∃ m, parse loopedChain = .ok m :=
    Outcome.isOk_iff.mp (by decide +kernel)
  have hlists : m.children m.root = [1, 1] ∧ m.children 1 = [1] := by
    have h : (fun m => (m.children m.root, m.children 1)) <$> parse loopedChain =
        .ok ([1, 1], [1]) := by
      decide +kernel
    rw [hm, Outcome.map_ok] at h
    exact Prod.mk.inj (Outcome.ok.inj h)
  refine ⟨m, hm, hlists.1, hlists.2, fun ht => ?_⟩
  have hnodup := ht.distinct m.root .refl
  rw [hlists.1] at hnodup
  exact absurd hnodup (by decide)

end Steam2Fs.Manifest
