import Steam2Fs.ManifestFormat

/-!
# Looking a child up by name

`parse` sorts the nodes that have a parent by parent and name, keeping nodes
with equal keys in index order. The binary search of `childByName` ends at the
last of equal keys, so it finds the node with the highest index among those
with the given parent and name.
-/

namespace Steam2Fs.Manifest
open Outcome

structure Searchable (m : Manifest) : Prop where
  byName : m.byName = m.sortedByName
  count : m.nodes.length < 2 ^ 32

theorem parse_searchable {data : Bytes} {m : Manifest} (h : parse data = .ok m) :
    m.Searchable := by
  obtain ⟨im, hvalid, rfl⟩ := parse_sound h
  rw [parse_encode hvalid] at h
  cases h
  refine ⟨rfl, ?_⟩
  have hsize := hvalid.size
  have hnodes := encodeNodes_length im.nodes
  have hbody : NODE_SIZE * im.nodes.length ≤ im.body.length := by
    simp only [Image.body, List.length_append, hnodes]
    omega
  show im.nodes.length < 2 ^ 32
  unfold NODE_SIZE at hbody
  omega

theorem mkKey_inj {p p' : UInt32} {n n' : Bytes} : mkKey p n = mkKey p' n' ↔ p = p' ∧ n = n' := by
  unfold mkKey
  rw [toLex_inj, Prod.mk.injEq, UInt32.toNat_inj,
    (List.map_injective_iff.mpr fun _ _ h => UInt8.toNat_inj.mp h).eq_iff]

theorem node_lt {m : Manifest} {i : UInt32} {n : Node} (h : m.node i = some n) :
    i.toNat < m.nodes.length :=
  (List.getElem?_eq_some_iff.mp h).1

section Sorted
variable {m : Manifest}

theorem mem_sortedByName {i : UInt32} :
    i ∈ m.sortedByName ↔ ∃ n, m.node i = some n ∧ n.parent ≠ NO_NODE := by
  rw [sortedByName, List.mem_insertionSort, List.mem_filter]
  constructor
  · rintro ⟨-, h⟩
    cases hn : m.node i with
    | none => simp [hn] at h
    | some n => exact ⟨n, rfl, by simpa [hn] using h⟩
  · rintro ⟨n, hn, hp⟩
    refine ⟨List.mem_map.mpr ⟨i.toNat, List.mem_range.mpr (node_lt hn), ?_⟩, by simpa [hn] using hp⟩
    exact UInt32.ofNat_toNat

theorem sortedByName_sorted : m.sortedByName.Pairwise fun a b => m.sortKey a ≤ m.sortKey b := by
  have : Std.Total fun a b => m.sortKey a ≤ m.sortKey b := ⟨fun a b => le_total _ _⟩
  have : IsTrans _ fun a b => m.sortKey a ≤ m.sortKey b := ⟨fun _ _ _ => le_trans⟩
  exact List.pairwise_insertionSort _ _

theorem indices_ordered (hm : m.nodes.length < 2 ^ 32) :
    ((List.range m.nodes.length).map UInt32.ofNat).Pairwise (· < ·) := by
  rw [List.pairwise_map]
  refine List.pairwise_lt_range.imp_of_mem fun {a b} ha hb hab => ?_
  rw [List.mem_range] at ha hb
  rw [UInt32.lt_iff_toNat_lt, UInt32.toNat_ofNat', UInt32.toNat_ofNat']
  omega

theorem sortedByName_nodup (hm : m.nodes.length < 2 ^ 32) : m.sortedByName.Nodup := by
  rw [sortedByName, (List.perm_insertionSort _ _).nodup_iff]
  refine List.Nodup.filter _ ((indices_ordered hm).imp fun {a b} hab => ?_)
  rintro rfl
  exact absurd hab (by simp)

theorem pair_sublist_of_lt {l : List UInt32} (hl : l.Pairwise (· < ·)) {a b : UInt32}
    (ha : a ∈ l) (hb : b ∈ l) (hab : a < b) : [a, b].Sublist l := by
  induction l with
  | nil => simp at ha
  | cons x xs ih =>
    rw [List.pairwise_cons] at hl
    rcases List.mem_cons.mp ha with rfl | ha
    · rcases List.mem_cons.mp hb with rfl | hb
      · exact absurd hab (by simp)
      · exact List.Sublist.cons_cons a (List.singleton_sublist.mpr hb)
    · rcases List.mem_cons.mp hb with hb | hb
      · have hlt := hl.1 a ha
        rw [← hb] at hlt
        rw [UInt32.lt_iff_toNat_lt] at hab hlt
        omega
      · exact (ih hl.2 ha hb).cons x

theorem sortedByName_stable (hm : m.nodes.length < 2 ^ 32) {a b : UInt32}
    (ha : a ∈ m.sortedByName) (hb : b ∈ m.sortedByName) (hkey : m.sortKey a = m.sortKey b)
    (hab : a < b) : [a, b].Sublist m.sortedByName := by
  rw [sortedByName, List.mem_insertionSort] at ha hb
  have : Std.Total fun a b => m.sortKey a ≤ m.sortKey b := ⟨fun a b => le_total _ _⟩
  have : IsTrans _ fun a b => m.sortKey a ≤ m.sortKey b := ⟨fun _ _ _ => le_trans⟩
  refine List.pair_sublist_insertionSort hkey.le ?_
  exact pair_sublist_of_lt ((indices_ordered hm).filter _) ha hb hab

theorem not_pair_swap {l : List UInt32} (hl : l.Nodup) {a b : UInt32}
    (hab : [a, b].Sublist l) (hba : [b, a].Sublist l) : False := by
  induction l with
  | nil => simp at hab
  | cons x xs ih =>
    rw [List.nodup_cons] at hl
    cases hab with
    | cons _ hab =>
      cases hba with
      | cons _ hba => exact ih hl.2 hab hba
      | cons_cons _ hba => exact hl.1 (hab.subset (by simp))
    | cons_cons _ hab =>
      cases hba with
      | cons _ hba => exact hl.1 (hba.subset (by simp))
      | cons_cons _ hba => exact hl.1 (hab.subset (by simp))

theorem sortedByName_strict (hm : m.nodes.length < 2 ^ 32) :
    m.sortedByName.Pairwise fun a b =>
      m.sortKey a < m.sortKey b ∨ m.sortKey a = m.sortKey b ∧ a < b := by
  rw [List.pairwise_iff_forall_sublist]
  intro a b hab
  have hnodup := sortedByName_nodup hm
  rcases lt_or_eq_of_le (List.pairwise_iff_forall_sublist.mp sortedByName_sorted hab) with h | h
  · exact Or.inl h
  · refine Or.inr ⟨h, ?_⟩
    have hne : a ≠ b := by
      have := hab.nodup hnodup
      simpa using this
    by_contra hge
    have hlt : b < a := by
      have hne' : a.toNat ≠ b.toNat := fun he => hne (UInt32.toNat_inj.mp he)
      rw [UInt32.lt_iff_toNat_lt] at hge ⊢
      omega
    have hswap := sortedByName_stable hm (hab.subset (by simp)) (hab.subset (by simp)) h.symm hlt
    exact not_pair_swap hnodup hab hswap

end Sorted

section Lookup
variable {m : Manifest} {dir : UInt32} {name : Bytes}

theorem above_iff {l : List UInt32} {key : SortKey} {i : ℕ} :
    Search.Above (fun idx => cmp (m.sortKey idx) key) l i ↔
      ∃ c, l[i]? = some c ∧ key < m.sortKey c := by
  unfold Search.Above
  cases l[i]? with
  | none =>
    constructor
    · intro h
      cases h
    · rintro ⟨c, hc, -⟩
      cases hc
  | some c =>
    rw [Option.map_some, Option.some_inj, cmp_eq_gt_iff]
    refine ⟨fun h => ⟨c, rfl, h⟩, ?_⟩
    rintro ⟨c', hc, h⟩
    cases hc
    exact h

theorem byName_split (hm : m.Searchable) (key : SortKey) :
    Search.Split (fun idx => cmp (m.sortKey idx) key) m.byName := by
  intro i j hij hj habove
  obtain ⟨c, hc, hlt⟩ := above_iff.mp habove
  refine above_iff.mpr ⟨m.byName[j], List.getElem?_eq_getElem hj, ?_⟩
  rcases Nat.lt_or_eq_of_le hij with hlt' | rfl
  · have hsorted : m.byName.Pairwise fun a b => m.sortKey a ≤ m.sortKey b := by
      rw [hm.byName]
      exact sortedByName_sorted
    have hle := List.pairwise_iff_getElem.mp hsorted i j (by omega) hj hlt'
    rw [List.getElem?_eq_getElem (by omega)] at hc
    cases hc
    exact lt_of_lt_of_le hlt hle
  · rw [List.getElem?_eq_getElem hj] at hc
    cases hc
    exact hlt

theorem sortKey_eq_iff {c : UInt32} {n : Node} (hn : m.node c = some n) :
    m.sortKey c = mkKey dir name ↔ n.parent = dir ∧ m.name c = name := by
  rw [sortKey, hn]
  exact mkKey_inj

theorem childByName_eq_some (hm : m.Searchable) (hdir : dir ≠ NO_NODE) {c : UInt32} :
    m.childByName dir name = some c ↔
      (∃ n, m.node c = some n ∧ n.parent = dir) ∧ m.name c = name ∧
        ∀ c' n', m.node c' = some n' → n'.parent = dir → m.name c' = name → c' ≤ c := by
  have hmem {i : UInt32} : i ∈ m.byName ↔ ∃ n, m.node i = some n ∧ n.parent ≠ NO_NODE := by
    rw [hm.byName]
    exact mem_sortedByName
  have hstrict := sortedByName_strict hm.count
  rw [← hm.byName, List.pairwise_iff_getElem] at hstrict
  unfold childByName
  rw [Option.bind_eq_some_iff]
  constructor
  · rintro ⟨i, hi, hc⟩
    obtain ⟨heq, hlast⟩ := (Search.binarySearchBy_eq_some (byName_split hm _)).mp hi
    rw [hc, Option.map_some, Option.some.injEq, cmp_eq_eq_iff] at heq
    obtain ⟨n, hn, -⟩ := hmem.mp (List.mem_of_getElem? hc)
    obtain ⟨hparent, hname⟩ := (sortKey_eq_iff hn).mp heq
    refine ⟨⟨n, hn, hparent⟩, hname, fun c' n' hn' hparent' hname' => ?_⟩
    have hkey : m.sortKey c' = mkKey dir name := (sortKey_eq_iff hn').mpr ⟨hparent', hname'⟩
    obtain ⟨k, hk, hck⟩ := List.getElem_of_mem (hmem.mpr ⟨n', hn', hparent' ▸ hdir⟩)
    obtain ⟨hil, hci⟩ := List.getElem?_eq_some_iff.mp hc
    rcases Nat.lt_trichotomy i k with hik | rfl | hik
    · obtain ⟨c'', hc'', hgt⟩ := above_iff.mp (hlast k hik hk)
      rw [List.getElem?_eq_getElem hk, hck] at hc''
      cases hc''
      exact absurd hgt (by rw [hkey]; exact lt_irrefl _)
    · rw [← hck, hci]
      simp
    · rcases hstrict k i hk hil hik with h | h
      · rw [hck, hci, hkey, heq] at h
        exact absurd h (lt_irrefl _)
      · rw [hck, hci] at h
        have := h.2
        rw [UInt32.lt_iff_toNat_lt] at this
        rw [UInt32.le_iff_toNat_le]
        omega
  · rintro ⟨⟨n, hn, hparent⟩, hname, hlast⟩
    have hkey : m.sortKey c = mkKey dir name := (sortKey_eq_iff hn).mpr ⟨hparent, hname⟩
    obtain ⟨i, hi, hci⟩ := List.getElem_of_mem (hmem.mpr ⟨n, hn, hparent ▸ hdir⟩)
    have hget : m.byName[i]? = some c := by rw [List.getElem?_eq_getElem hi, hci]
    refine ⟨i, (Search.binarySearchBy_eq_some (byName_split hm _)).mpr ⟨?_, fun j hij hj => ?_⟩,
      hget⟩
    · rw [hget, Option.map_some, Option.some.injEq, cmp_eq_eq_iff]
      exact hkey
    · refine above_iff.mpr ⟨m.byName[j], List.getElem?_eq_getElem hj, ?_⟩
      rcases hstrict i j hi hj hij with h | ⟨h, hlt⟩
      · rwa [hci, hkey] at h
      · rw [hci] at h hlt
        obtain ⟨n', hn', -⟩ := hmem.mp (List.getElem_mem hj)
        obtain ⟨hparent', hname'⟩ := (sortKey_eq_iff hn').mp (h.symm.trans hkey)
        have hle := hlast _ n' hn' hparent' hname'
        rw [UInt32.lt_iff_toNat_lt] at hlt
        rw [UInt32.le_iff_toNat_le] at hle
        omega

theorem childByName_isSome (hm : m.Searchable) (hdir : dir ≠ NO_NODE) {c : UInt32} {n : Node}
    (hn : m.node c = some n) (hparent : n.parent = dir) (hname : m.name c = name) :
    (m.childByName dir name).isSome := by
  -- the search ends at the last node with this parent and name; there is one
  let matching : Set ℕ := {k | ∃ c n, UInt32.toNat c = k ∧ m.node c = some n ∧ n.parent = dir ∧
    m.name c = name}
  have hne : matching.Nonempty := ⟨c.toNat, c, n, rfl, hn, hparent, hname⟩
  have hbound : BddAbove matching := by
    refine ⟨m.nodes.length, ?_⟩
    rintro k ⟨c, n, rfl, hn, -⟩
    exact (node_lt hn).le
  obtain ⟨last, nlast, hlast, hnlast, hplast, hnamelast⟩ := Nat.sSup_mem hne hbound
  have hfound : m.childByName dir name = some last := by
    rw [childByName_eq_some hm hdir]
    refine ⟨⟨nlast, hnlast, hplast⟩, hnamelast, fun c' n' hn' hparent' hname' => ?_⟩
    rw [UInt32.le_iff_toNat_le, hlast]
    exact le_csSup hbound ⟨c', n', rfl, hn', hparent', hname'⟩
  rw [hfound]
  rfl

/-- The search is exact: what it finds has the parent and the name asked for, it
misses only a name that no child has, and a node that shares its parent and name
with no other is found under them. -/
theorem childByName_exact {data : Bytes} (h : parse data = .ok m) (hdir : dir ≠ NO_NODE)
    (name : Bytes) :
    (∀ i, m.childByName dir name = some i →
      (∃ n, m.node i = some n ∧ n.parent = dir) ∧ m.name i = name) ∧
    (m.childByName dir name = none → ∀ i n, m.node i = some n → n.parent = dir →
      m.name i ≠ name) ∧
    ∀ i n, m.node i = some n → n.parent ≠ NO_NODE →
      (∀ j n', m.node j = some n' → n'.parent = n.parent → m.name j = m.name i → j = i) →
      m.childByName n.parent (m.name i) = some i := by
  have hm := parse_searchable h
  refine ⟨fun i hi => ?_, fun hnone i n hn hparent hname => ?_, fun i n hn hparent huniq => ?_⟩
  · obtain ⟨hnode, hname, -⟩ := (childByName_eq_some hm hdir).mp hi
    exact ⟨hnode, hname⟩
  · have hsome := childByName_isSome hm hdir hn hparent hname
    rw [hnone] at hsome
    cases hsome
  · rw [childByName_eq_some hm hparent]
    refine ⟨⟨n, hn, rfl⟩, rfl, fun j n' hn' hparent' hname' => ?_⟩
    rw [huniq j n' hn' hparent' hname']
    exact UInt32.le_refl i

theorem childByName_exact_sharedSuffix :
    sharedSuffix.manifest.childByName 0 [0x62] ≠ none ∧
      ∀ i, sharedSuffix.manifest.childByName 0 [0x62] = some i →
        sharedSuffix.manifest.name i = [0x62] := by
  have hdir : (0 : UInt32) ≠ NO_NODE := by decide
  have h := childByName_exact (parse_encode sharedSuffix_valid) hdir [0x62]
  exact ⟨by decide, fun i hi => (h.1 i hi).2⟩

end Lookup
end Steam2Fs.Manifest
