import Steam2Fs.TreeLookup
import Steam2Fs.TreeRead

/-!
# The directory a listed key leads back to

`parent` reads the parent field of a manifest node and the depot of a blob.
Where sibling chains list exactly the nodes that name the directory, it undoes
a listing of the root, of a version and of every directory below one. The
by-date directory and both kinds of link are listed further down, and for
these it answers the root.
-/

namespace Steam2Fs

namespace Manifest

/-- The chain of each directory lists exactly the nodes whose parent field
names that directory. -/
def ChainsAgree (m : Manifest) : Prop :=
  ∀ dir n, m.node dir = some n → n.isDir = true →
    ∀ c, c ∈ m.children dir ↔ ∃ n', m.node c = some n' ∧ n'.parent = dir

theorem children_ne_zero {m : Manifest} {dir c : UInt32} (h : c ∈ m.children dir) : c ≠ 0 := by
  obtain ⟨k, hk⟩ := child_iff_slot.mp h
  cases hk with
  | first _ _ _ h0 => exact h0
  | next _ _ _ _ h0 => exact h0

theorem root_parent {m : Manifest} (hm : m.Searchable) (h0 : m.root ≠ 0) :
    ∃ n, m.node m.root = some n ∧ n.parent = NO_NODE := by
  unfold root at h0 ⊢
  cases hfind : m.nodes.findIdx? fun n => n.parent = NO_NODE with
  | none =>
    rw [hfind] at h0
    exact absurd rfl h0
  | some i =>
    obtain ⟨hlt, hparent, -⟩ := List.findIdx?_eq_some_iff_getElem.mp hfind
    have hi : (UInt32.ofNat i).toNat = i := by
      have hcount := hm.count
      exact UInt32.toNat_ofNat_of_lt' (hlt.trans hcount)
    refine ⟨m.nodes[i], ?_, by simpa using hparent⟩
    dsimp only [node]
    rw [hi]
    exact List.getElem?_eq_getElem hlt

theorem ChainsAgree.ne_root {m : Manifest} (hagree : m.ChainsAgree) (hm : m.Searchable)
    {dir c : UInt32} {n : Node} (hdir : m.node dir = some n) (hd : n.isDir = true)
    (hc : c ∈ m.children dir) : c ≠ m.root := by
  intro hroot
  have h0 := children_ne_zero hc
  rw [hroot] at h0 hc
  obtain ⟨r, hr, hparent⟩ := root_parent hm h0
  obtain ⟨r', hr', hparent'⟩ := (hagree dir n hdir hd m.root).mp hc
  rw [hr] at hr'
  cases hr'
  exact Tree.node_ne_noNode hm hdir (hparent'.symm.trans hparent)

end Manifest

namespace Tree
open Outcome Text

section Parent
variable {t : Tree} {cacheDir : ℕ → Option Bytes}

/-- The manifests of the dump, those that load, have chains that agree with
the parent fields of their nodes. -/
def ChainsAgree (t : Tree) (cacheDir : ℕ → Option Bytes) : Prop :=
  ∀ b m, t.manifestOf cacheDir b = .ok m → m.ChainsAgree

theorem parent_version {e : UInt32 × Depot} (he : e ∈ t.store.index.depots) {b : ℕ}
    (hb : b ∈ e.2.blobs) (s : Store) :
    ((t.parent (.version b)).run s).1 = .ok (.depot e.1) := by
  have hfiled : t.store.index.Filed := Index.load_filed _ _
  obtain ⟨entry, hentry, hdepot⟩ := hfiled e he b hb
  have hblob : (t.store.blob b : Outcome TreeError BlobEntry) = .ok entry :=
    Dump.blob_eq_ok.mpr hentry
  have hparent : t.parent (.version b) =
      (do let e ← Call.lift (.ok entry); pure (.depot e.depot)) := by
    rw [← hblob]
    rfl
  rw [hparent, ← hdepot]
  rfl

theorem parent_node {b : ℕ} {m : Manifest} (hm : t.manifestOf cacheDir b = .ok m) {idx : UInt32}
    {n : Node} (hn : m.node idx = some n) {s : Store} (hs : t.Visited cacheDir s) :
    ((t.parent (.node b idx)).run s).1 = .ok (nodeKey b m n.parent) := by
  have hload : ((t.manifest b).attempt : TreeCall (Except TreeError Manifest)).Answers
      (t.store.Loads cacheDir) (.ok (.ok m)) := by
    have hanswers : (t.manifest b).Answers (t.store.Loads cacheDir) (t.manifestOf cacheDir b) :=
      manifest_answers b
    rw [hm] at hanswers
    exact hanswers.attempt
  have hanswers : (t.parent (.node b idx)).Answers (t.store.Loads cacheDir)
      (.ok (nodeKey b m n.parent)) := by
    refine Call.Answers.bind (g := fun _ => .ok (nodeKey b m n.parent)) hload fun r hr => ?_
    cases hr
    dsimp only
    rw [hn]
    exact Call.answers_pure _
  exact hanswers.run hs.loads

theorem parent_child (hagree : t.ChainsAgree cacheDir) {b : ℕ} {m : Manifest}
    (hm : t.manifestOf cacheDir b = .ok m) {dir c : UInt32} (hc : c ∈ m.children dir) {s : Store}
    (hs : t.Visited cacheDir s) :
    ((t.parent (nodeKey b m c)).run s).1 = .ok (nodeKey b m dir) := by
  obtain ⟨n, hn, hd⟩ := isDir_of_mem_children hc
  have hne := (hagree b m hm).ne_root (manifestOf_searchable hm) hn hd hc
  obtain ⟨n', hn', rfl⟩ := (hagree b m hm dir n hn hd c).mp hc
  rw [nodeKey, if_neg hne]
  exact parent_node hm hn' hs

/-- `parent` leads from an entry back to the directory that listed it, unless
the entry is a by-date directory or a link. -/
theorem parent_entry_iff (hagree : t.ChainsAgree cacheDir) {k : Key}
    (hk : Listed t cacheDir k) {s s' : Store} (hs : t.Visited cacheDir s)
    (hs' : t.Visited cacheDir s') {es : List Entry} (hes : ((t.entries k).run s).1 = .ok es)
    {e : Entry} (he : e ∈ es) :
    ((t.parent e.key).run s').1 = .ok k ↔
      (∀ d, e.key ≠ .byDate d) ∧ (∀ d, e.key ≠ .latest d) ∧ ∀ b, e.key ≠ .dateLink b := by
  rw [entries_run hs] at hes
  have hshows := shows_of_mem hk.placed hes he
  clear hes he
  cases hshows with
  | @depot x hx =>
    have hparent : ((t.parent (.depot x.1)).run s').1 = .ok .root := rfl
    simp [hparent]
  | version hx hb =>
    have hparent := parent_version hx hb s'
    simp [hparent]
  | @latest x hx htarget =>
    have hparent : ((t.parent (.latest x.1)).run s').1 = .ok .root := rfl
    simp [hparent]
  | @byDate x hx =>
    have hparent : ((t.parent (.byDate x.1)).run s').1 = .ok .root := rfl
    simp [hparent]
  | @dateLink x hx b hb =>
    have hparent : ((t.parent (.dateLink b)).run s').1 = .ok .root := rfl
    simp [hparent]
  | @node k b m i c hm hb hi hkey hc =>
    have hparent : ((t.parent (nodeEntry b m c).key).run s').1 = .ok k := by
      rw [← hkey]
      exact parent_child hagree hm hc hs'
    rw [iff_true_left hparent]
    dsimp only [nodeEntry, nodeKey]
    split_ifs
    · simp
    · simp

end Parent

section WholeFile

def wholeTree : Tree := ⟨wholeFile.dump⟩

def wholeManifest : Manifest :=
  ⟨4, 0, 0, 0, 0, [⟨0, 1, NO_FILE, 0, NO_NODE, 0, 1⟩, ⟨1, 4, 7, 0, 0, 0, 0⟩], [0, 97, 0], [0, 1], [1]⟩

theorem wholeManifest_chainsAgree : wholeManifest.ChainsAgree := by
  have two {i : UInt32} {n : Node} (h : wholeManifest.node i = some n) : i = 0 ∨ i = 1 := by
    have hlt : i.toNat < 2 := (List.getElem?_eq_some_iff.mp h).1
    rw [← UInt32.toNat_inj, ← UInt32.toNat_inj, UInt32.toNat_zero, UInt32.toNat_one]
    omega
  have hroot : wholeManifest.children 0 = [1] := by decide
  intro dir n hn hd c
  rcases two hn with rfl | rfl
  · rw [hroot, List.mem_singleton]
    constructor
    · intro hc
      rw [hc]
      exact ⟨_, rfl, rfl⟩
    · intro ⟨n', hn', hparent⟩
      rcases two hn' with rfl | rfl
      · cases hn'
        cases hparent
      · rfl
  · cases hn
    cases hd

set_option maxRecDepth 20000 in
theorem wholeTree_chainsAgree : wholeTree.ChainsAgree fun _ => none := by
  intro b m hm
  cases b with
  | zero =>
    have hload : wholeTree.manifestOf (fun _ => none) 0 = .ok wholeManifest := by decide +kernel
    rw [hload] at hm
    cases hm
    exact wholeManifest_chainsAgree
  | succ b =>
    have hload : wholeTree.manifestOf (fun _ => none) (b + 1) = .panic := rfl
    rw [hload] at hm
    cases hm

def wholeStore : Store := Store.new wholeFile.dump fun _ => none

theorem wholeTree_depot : ((wholeTree.entries (.depot 5)).run wholeStore).1 =
    .ok [⟨utf8 "1".toList, .version 0, .dir⟩, ⟨utf8 "latest".toList, .latest 5, .symlink⟩,
      ⟨utf8 "by-date".toList, .byDate 5, .dir⟩] := by decide +kernel

theorem wholeTree_listed_depot : Listed wholeTree (fun _ => none) (.depot 5) := by
  have hroot : ((wholeTree.entries .root).run wholeStore).1 =
      .ok [⟨utf8 "5".toList, .depot 5, .dir⟩] := by decide +kernel
  exact .entry .root .new hroot (List.mem_singleton_self _)

set_option maxRecDepth 20000 in
theorem wholeTree_parent_file : ((wholeTree.entries (.version 0)).run wholeStore).1 =
      .ok [⟨utf8 "a".toList, .node 0 1, .file⟩] ∧
    ((wholeTree.parent (.node 0 1)).run wholeStore).1 = .ok (.version 0) := by
  have hentries : ((wholeTree.entries (.version 0)).run wholeStore).1 =
      .ok [⟨utf8 "a".toList, .node 0 1, .file⟩] := by decide +kernel
  have hlisted : Listed wholeTree (fun _ => none) (.version 0) :=
    .entry wholeTree_listed_depot .new wholeTree_depot (List.mem_cons_self ..)
  refine ⟨hentries, ?_⟩
  exact (parent_entry_iff wholeTree_chainsAgree hlisted .new .new hentries
    (List.mem_singleton_self _)).mpr (by simp)

/-- The by-date directory of depot 5 is listed in the depot and leads to the root. -/
theorem wholeTree_parent_byDate : wholeTree.ChainsAgree (fun _ => none) ∧
    ¬ ∀ k, Listed wholeTree (fun _ => none) k → ∀ s, wholeTree.Visited (fun _ => none) s →
      ∀ es, ((wholeTree.entries k).run s).1 = .ok es → ∀ e ∈ es,
        ((wholeTree.parent e.key).run s).1 = .ok k := by
  refine ⟨wholeTree_chainsAgree, fun h => ?_⟩
  have hback := h _ wholeTree_listed_depot wholeStore .new _ wholeTree_depot
    ⟨utf8 "by-date".toList, .byDate 5, .dir⟩ (by simp)
  have hparent : ((wholeTree.parent (.byDate 5)).run wholeStore).1 = .ok .root := rfl
  rw [hparent] at hback
  cases hback

end WholeFile
end Tree
end Steam2Fs
