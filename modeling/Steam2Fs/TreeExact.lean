import Steam2Fs.TreeParent

/-!
# Names that are found but not listed

A depot is looked up by the number its name parses to, so a leading zero or a
plus sign reaches it as well. Below a version the search goes by the parent
fields of the nodes and the listing by their chains. Everywhere else the names
are ASCII, and lossy decoding adds no spelling to those.
-/

namespace Steam2Fs.Tree
open Outcome Text

section Found
variable (t : Tree) (cacheDir : ℕ → Option Bytes)

/-- Whatever `name` finds in `k` is an entry of `k` under that name. -/
def FoundListed (k : Key) (name : Bytes) : Prop :=
  ∀ s, t.Visited cacheDir s → ∀ c, ((t.lookup k name).run s).1 = .ok (some c) →
    ∀ s', t.Visited cacheDir s' → ∃ es, ((t.entries k).run s').1 = .ok es ∧
      ∃ e ∈ es, e.name = name ∧ e.key = c

/-- The last node that names `dir` as its parent and is called `name`, if
there is one, lies on the chain of `dir`. -/
def LastOnChain (m : Manifest) (dir : UInt32) (name : Bytes) : Prop :=
  ∀ c n, m.node c = some n → n.parent = dir → m.name c = name →
    (∀ c' n', m.node c' = some n' → n'.parent = dir → m.name c' = name → c' ≤ c) →
      ∃ k, m.Slot dir k c

def Spelled (name : Bytes) : Key → Prop
  | .root => ∀ d, parseU32 10 (fromUtf8Lossy name) = some d → (t.store.index.depot d).isSome →
    name = utf8 (decimal d.toNat)
  | .version b => ∀ p, t.store.loaded cacheDir b = .ok p →
    LastOnChain p.manifest p.manifest.root name
  | .node b idx => ∀ p, t.store.loaded cacheDir b = .ok p → LastOnChain p.manifest idx name
  | _ => True

variable {t cacheDir}

theorem foundListed_iff {k : Key} (hk : Placed t cacheDir k) (name : Bytes) :
    FoundListed t cacheDir k name ↔ ∀ c, t.lookupOf cacheDir k name = .ok (some c) →
      ∃ e, Shows t cacheDir k e ∧ e.name = name ∧ e.key = c := by
  constructor
  · intro h c hc
    rw [← lookup_run .new] at hc
    obtain ⟨es, hes, e, he, hname⟩ := h _ .new c hc _ .new
    rw [entries_run .new] at hes
    exact ⟨e, shows_of_mem hk hes he, hname⟩
  · intro h s hs c hc s' hs'
    rw [lookup_run hs] at hc
    obtain ⟨e, hshows, hname⟩ := h c hc
    obtain ⟨es, hes, he⟩ := hshows.entry
    rw [entries_run hs']
    exact ⟨es, hes, e, he, hname⟩

/-! ### The root -/

theorem lookupOf_root_eq_some {name : Bytes} {c : Key} :
    t.lookupOf cacheDir .root name = .ok (some c) ↔
      ∃ d, parseU32 10 (fromUtf8Lossy name) = some d ∧ (t.store.index.depot d).isSome ∧
        Key.depot d = c := by
  change Outcome.ok (t.lookupDepot (fromUtf8Lossy name)) = .ok (some c) ↔ _
  rw [Outcome.ok.injEq, lookupDepot, Option.map_eq_some_iff]
  simp only [Option.filter_eq_some_iff, and_assoc]

theorem Shows.of_root {e : Entry} (h : Shows t cacheDir .root e) :
    ∃ x ∈ t.store.index.depots, e = ⟨utf8 (decimal x.1.toNat), .depot x.1, .dir⟩ := by
  cases h with
  | depot hx => exact ⟨_, hx, rfl⟩
  | @node _ b m i _ _ _ _ hk _ =>
    have hindex := nodeIndex_nodeKey (b := b) (m := m) i
    rw [hk] at hindex
    cases hindex

theorem root_spelled (name : Bytes) :
    FoundListed t cacheDir .root name ↔ Spelled t cacheDir name .root := by
  have hroot : Placed t cacheDir .root := trivial
  rw [foundListed_iff hroot]
  constructor
  · intro h d hparse hdepot
    obtain ⟨e, hshows, hname, hkey⟩ := h _ (lookupOf_root_eq_some.mpr ⟨d, hparse, hdepot, rfl⟩)
    obtain ⟨x, -, rfl⟩ := hshows.of_root
    cases hkey
    exact hname.symm
  · intro h c hc
    obtain ⟨d, hparse, hdepot, rfl⟩ := lookupOf_root_eq_some.mp hc
    obtain ⟨dep, hdep⟩ := Option.isSome_iff_exists.mp hdepot
    exact ⟨_, .depot (Index.mem_of_lookup hdep), (h d hparse hdepot).symm, rfl⟩

/-! ### A depot and its dates -/

theorem Listed.depot_mem {d : UInt32} (h : Listed t cacheDir (.depot d)) :
    ∃ dep, (d, dep) ∈ t.store.index.depots := by
  generalize hk : Key.depot d = k at h
  cases h with
  | root => cases hk
  | entry hlisted hs hes he =>
    rw [entries_run hs] at hes
    have hshows := shows_of_mem hlisted.placed hes he
    clear hes he
    cases hshows with
    | @depot x hx =>
      cases hk
      exact ⟨x.2, hx⟩
    | @node _ b m _ c _ _ _ _ _ =>
      have hindex := nodeIndex_nodeKey (b := b) (m := m) c
      change Key.depot d = nodeKey b m c at hk
      rw [← hk] at hindex
      cases hindex
    | _ => cases hk

theorem depot_found {d : UInt32} {dep : Depot} (h : (d, dep) ∈ t.store.index.depots)
    {name : Bytes} {c : Key} (hc : t.lookupInDepot d (fromUtf8Lossy name) = some c) :
    ∃ e, Shows t cacheDir (.depot d) e ∧ e.name = name ∧ e.key = c := by
  unfold lookupInDepot at hc
  split_ifs at hc with hlatest hdate
  · obtain ⟨target, htarget, rfl⟩ := Option.map_eq_some_iff.mp hc
    have hsome : (t.store.index.latest d).isSome := by
      rw [htarget]
      rfl
    have hname := utf8_of_fromUtf8Lossy hlatest (ascii_of_all (by decide))
    exact ⟨_, .latest h hsome, hname, rfl⟩
  · cases hc
    have hname := utf8_of_fromUtf8Lossy hdate (ascii_of_all (by decide))
    exact ⟨_, .byDate h, hname, rfl⟩
  · rw [depot_eq_some h, Option.bind_some] at hc
    obtain ⟨b, hb, rfl⟩ := Option.map_eq_some_iff.mp hc
    obtain ⟨dep₀, hfin⟩ := depot_finished h
    have hmem := Index.mem_of_lookup hb
    rw [Index.byName_eq hfin, List.mem_reverse] at hmem
    obtain ⟨hblob, hlossy⟩ := (mem_versions h).mp hmem
    have hname := utf8_of_fromUtf8Lossy hlossy fun c hc => (Index.name_ascii _ _ c hc).1
    exact ⟨_, .version h hblob, hname, rfl⟩

theorem byDate_found {d : UInt32} {name : Bytes} {c : Key}
    (hc : t.lookupOf cacheDir (.byDate d) name = .ok (some c)) :
    ∃ e, Shows t cacheDir (.byDate d) e ∧ e.name = name ∧ e.key = c := by
  change Outcome.ok (((t.store.index.depot d).bind fun dep =>
    dep.lookupDateLink (fromUtf8Lossy name)).map Key.dateLink) = _ at hc
  obtain ⟨b, hb, rfl⟩ := Option.map_eq_some_iff.mp (Outcome.ok.inj hc)
  obtain ⟨dep, hdep, hb⟩ := Option.bind_eq_some_iff.mp hb
  have h : (d, dep) ∈ t.store.index.depots := Index.mem_of_lookup hdep
  obtain ⟨dep₀, hfin⟩ := depot_finished h
  have hmem := Index.mem_of_lookup hb
  rw [Index.byDateLink_eq hfin, List.mem_reverse] at hmem
  obtain ⟨b', hblob, hlink⟩ := List.mem_map.mp hmem
  obtain ⟨hlossy, rfl⟩ := Prod.mk.inj hlink
  have hname := utf8_of_fromUtf8Lossy hlossy.symm (Index.link_ascii dep.blobs b')
  exact ⟨_, .dateLink h hblob, hname, rfl⟩

/-! ### Below a version -/

section Nodes
variable {b : ℕ} {m : Manifest} {i : UInt32}

theorem reached_ne_noNode (hm : m.Searchable) (hi : m.Reached i) : i ≠ NO_NODE := by
  rcases Relation.ReflTransGen.cases_tail hi with rfl | ⟨dir, -, hc⟩
  · by_cases h0 : m.root = 0
    · rw [h0]
      decide
    · obtain ⟨n, hn, -⟩ := Manifest.root_parent hm h0
      exact node_ne_noNode hm hn
  · obtain ⟨n, hn⟩ := mem_children_node hc
    exact node_ne_noNode hm hn

theorem node_spelled (hm : t.manifestOf cacheDir b = .ok m)
    (hb : ∃ e ∈ t.store.index.depots, b ∈ e.2.blobs) (hi : m.Reached i) (name : Bytes) :
    FoundListed t cacheDir (nodeKey b m i) name ↔ LastOnChain m i name := by
  have hsearch := manifestOf_searchable hm
  have hne := reached_ne_noNode hsearch hi
  rw [foundListed_iff (placed_nodeKey hm hb hi), lookupOf_nodeKey hm]
  simp only [Outcome.ok.injEq, Option.map_eq_some_iff]
  constructor
  · intro h c n hn hparent hname hlast
    have hfound := (Manifest.childByName_eq_some hsearch hne).mpr ⟨⟨n, hn, hparent⟩, hname, hlast⟩
    obtain ⟨e, hshows, hename, hekey⟩ := h _ ⟨c, hfound, rfl⟩
    obtain ⟨es, hes, he⟩ := hshows.entry
    rw [entriesOf_nodeKey hm] at hes
    split_ifs at hes
    cases hes
    obtain ⟨c', hc', rfl⟩ := List.mem_map.mp he
    have hsame : c' = c := nodeKey_injective hekey
    subst hsame
    exact Manifest.child_iff_slot.mp hc'
  · rintro h - ⟨c, hfound, rfl⟩
    obtain ⟨⟨n, hn, hparent⟩, hname, hlast⟩ :=
      (Manifest.childByName_eq_some hsearch hne).mp hfound
    have hc := Manifest.child_iff_slot.mpr (h c n hn hparent hname hlast)
    exact ⟨_, .node hm hb hi rfl hc, hname, rfl⟩

theorem nodes_spelled {k : Key} (hkey : OfManifest b k) (hk : Placed t cacheDir k)
    (name : Bytes) :
    FoundListed t cacheDir k name ↔
      ∀ p, t.store.loaded cacheDir b = .ok p → ∀ dir, nodeIndex p.manifest k = some dir →
        LastOnChain p.manifest dir name := by
  obtain ⟨hb, hnode⟩ := hk.manifest hkey
  by_cases hload : ∃ p, t.store.loaded cacheDir b = .ok p
  · obtain ⟨p, hp⟩ := hload
    have hm : t.manifestOf cacheDir b = .ok p.manifest := manifestOf_eq_ok.mpr ⟨p, hp, rfl⟩
    obtain ⟨i, hi, rfl⟩ := hnode _ hm
    rw [node_spelled hm hb hi]
    constructor
    · intro h p' hp' dir hdir
      rw [hp] at hp'
      cases hp'
      rw [nodeIndex_nodeKey] at hdir
      cases hdir
      exact h
    · intro h
      exact h p hp i (nodeIndex_nodeKey i)
  · -- nothing is found in a version that does not load
    rw [foundListed_iff hk]
    refine iff_of_true (fun c hc => ?_) fun p hp => absurd ⟨p, hp⟩ hload
    obtain ⟨m, hm, -⟩ := bind_eq_ok.mp ((hkey.lookupOf name).symm.trans hc)
    obtain ⟨p, hp, -⟩ := manifestOf_eq_ok.mp hm
    exact absurd ⟨p, hp⟩ hload

end Nodes

/-- A name finds only what its directory lists, exactly when it spells a depot
the way the listing does, or the node it finds is on the chain. -/
theorem foundListed_iff_spelled {k : Key} (hk : Listed t cacheDir k) (name : Bytes) :
    FoundListed t cacheDir k name ↔ Spelled t cacheDir name k := by
  have hplaced := hk.placed
  cases k with
  | root => exact root_spelled name
  | depot d =>
    obtain ⟨dep, hdep⟩ := hk.depot_mem
    rw [foundListed_iff hplaced]
    exact iff_of_true (fun c hc => depot_found hdep (Outcome.ok.inj hc)) trivial
  | byDate d =>
    rw [foundListed_iff hplaced]
    exact iff_of_true (fun c hc => byDate_found hc) trivial
  | latest d =>
    rw [foundListed_iff hplaced]
    exact iff_of_true (fun c hc => by cases hc) trivial
  | dateLink b =>
    rw [foundListed_iff hplaced]
    exact iff_of_true (fun c hc => by cases hc) trivial
  | version b =>
    rw [nodes_spelled (Or.inl rfl) hplaced]
    simp [nodeIndex, Spelled]
  | node b idx =>
    rw [nodes_spelled (Or.inr ⟨idx, rfl⟩) hplaced]
    simp [nodeIndex, Spelled]

theorem foundListed_wholeTree :
    FoundListed wholeTree (fun _ => none) (.depot 5) (utf8 "latest".toList) ∧
      FoundListed wholeTree (fun _ => none) .root (utf8 "5".toList) := by
  refine ⟨(foundListed_iff_spelled wholeTree_listed_depot _).mpr trivial,
    (foundListed_iff_spelled .root _).mpr ?_⟩
  intro d hd _
  have hparse : parseU32 10 (fromUtf8Lossy (utf8 "5".toList)) = some 5 := by decide +kernel
  rw [hparse] at hd
  cases hd
  decide +kernel

/-- Depot 5 is found under a name with a leading zero, which the root does not
list. -/
theorem wholeTree_found_unlisted :
    Listed wholeTree (fun _ => none) .root ∧
      ¬ FoundListed wholeTree (fun _ => none) .root (utf8 "05".toList) := by
  refine ⟨.root, fun h => ?_⟩
  have hlook : ((wholeTree.lookup .root (utf8 "05".toList)).run wholeStore).1 =
      .ok (some (.depot 5)) := by decide +kernel
  have hroot : ((wholeTree.entries .root).run wholeStore).1 =
      .ok [⟨utf8 "5".toList, .depot 5, .dir⟩] := by decide +kernel
  obtain ⟨es, hes, e, he, hname, -⟩ := h wholeStore .new _ hlook wholeStore .new
  rw [hes] at hroot
  cases hroot
  rw [List.mem_singleton.mp he] at hname
  revert hname
  decide +kernel

end Found
end Steam2Fs.Tree
