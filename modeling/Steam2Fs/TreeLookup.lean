import Steam2Fs.IndexNames
import Steam2Fs.ManifestLookup
import Steam2Fs.ManifestTree
import Steam2Fs.Memory
import Steam2Fs.StoreCalls
import Steam2Fs.Tree

/-!
# Listing a directory and looking a name up in it

`entries` follows sibling chains and sorted name lists, `lookup` searches
`(parent, name)` pairs and name maps. What either answers depends on the dump
alone, not on the calls made before or at the same time, so the two can be
compared level by level. They agree everywhere below the root exactly when no
two blobs of a depot share version and crc, and every child of a directory
that is reached is the node `childByName` finds.
-/

namespace Steam2Fs.Tree
open Outcome Text Relation

/-! ### Calls of a frontend -/

inductive Op where
  | entries (key : Key)
  | lookup (dir : Key) (name : Bytes)
  | metaOf (key : Key)
  | parent (key : Key)
  | locate (key : Key)
  | read (loc : FileLoc) (offset len : UInt64)

def Op.prog (t : Tree) : Op → Proc Store Unit
  | .entries key => Proc.bind (fun _ => .done ()) (t.entries key)
  | .lookup dir name => Proc.bind (fun _ => .done ()) (t.lookup dir name)
  | .metaOf key => Proc.bind (fun _ => .done ()) (t.metaOf key)
  | .parent key => Proc.bind (fun _ => .done ()) (t.parent key)
  | .locate key => Proc.bind (fun _ => .done ()) (t.locate key)
  | .read loc offset len => Proc.bind (fun _ => .done ()) (t.read loc offset len)

/-- The states of a store over `cacheDir` while a frontend uses the tree. -/
def Visited (t : Tree) (cacheDir : ℕ → Option Bytes) (s : Store) : Prop :=
  ∃ pool : Pool Store Op Unit, Pool.Reachable (Op.prog t) Set.univ (fun _ _ => False)
    (Store.new t.store cacheDir) pool ∧ pool.state = s

section Calls
variable {t : Tree} {cacheDir : ℕ → Option Bytes}

theorem manifest_safe {I : Store → Prop} (h : t.store.Local I) (id : ℕ) :
    (t.manifest id).Safe I :=
  (Call.Safe.mapErr (h.parsed id)).bind fun _ => Call.safe_pure _

theorem nodeMeta_safe {I : Store → Prop} (h : t.store.Local I) (b : ℕ) (m : Manifest)
    (idx : UInt32) : (t.nodeMeta b m idx).Safe I := by
  unfold nodeMeta
  dsimp only
  split_ifs
  · exact (Call.safe_lift _).bind fun _ => Call.safe_pure _
  · refine (Call.Safe.attempt (h.toTableLocal.locate_safe b _)).bind fun r => ?_
    cases r with
    | ok loc => exact (Call.safe_lift _).bind fun _ => Call.safe_pure _
    | error e => exact (Call.safe_lift _).bind fun _ => Call.safe_pure _

theorem op_safe {I : Store → Prop} (h : t.store.Local I) (op : Op) :
    (op.prog t).Keeps I fun _ => True := by
  have drop {α : Type} {x : TreeCall α} (hx : x.Safe I) :
      (Proc.bind (fun _ => .done ()) x : Proc Store Unit).Keeps I fun _ => True :=
    Proc.Keeps.bind hx fun _ _ => trivial
  cases op with
  | entries key =>
    apply drop
    cases key with
    | root => exact Call.safe_pure _
    | depot d => exact Call.safe_pure _
    | byDate d => exact Call.safe_pure _
    | latest d => exact Call.safe_lift _
    | dateLink b => exact Call.safe_lift _
    | version b => exact (manifest_safe h b).bind fun _ => Call.safe_lift _
    | node b idx => exact (manifest_safe h b).bind fun _ => Call.safe_lift _
  | lookup dir name =>
    apply drop
    cases dir with
    | root => exact Call.safe_pure _
    | depot d => exact Call.safe_pure _
    | byDate d => exact Call.safe_pure _
    | latest d => exact Call.safe_pure _
    | dateLink b => exact Call.safe_pure _
    | version b => exact (manifest_safe h b).bind fun _ => Call.safe_lift _
    | node b idx => exact (manifest_safe h b).bind fun _ => Call.safe_lift _
  | metaOf key =>
    apply drop
    cases key with
    | root => exact Call.safe_pure _
    | depot d => exact Call.safe_lift _
    | byDate d => exact Call.safe_pure _
    | latest d => exact Call.safe_lift _
    | dateLink b => exact Call.safe_lift _
    | version b => exact Call.safe_lift _
    | node b idx => exact (manifest_safe h b).bind fun m => nodeMeta_safe h b m idx
  | parent key =>
    apply drop
    cases key with
    | root => exact Call.safe_pure _
    | depot d => exact Call.safe_pure _
    | byDate d => exact Call.safe_pure _
    | latest d => exact Call.safe_pure _
    | dateLink b => exact Call.safe_pure _
    | version b => exact (Call.safe_lift _).bind fun _ => Call.safe_pure _
    | node b idx =>
      refine (Call.Safe.attempt (manifest_safe h b)).bind fun r => ?_
      cases r with
      | error e => exact Call.safe_pure _
      | ok m => exact Call.safe_pure _
  | locate key =>
    apply drop
    cases key with
    | node b idx =>
      refine (manifest_safe h b).bind fun m => (Call.safe_lift _).bind fun n => ?_
      split_ifs
      · exact Call.safe_lift _
      · exact Call.Safe.mapErr (h.toTableLocal.locate_safe b _)
    | _ => exact Call.safe_lift _
  | read loc offset len =>
    apply drop
    exact Call.Safe.mapErr (h.toBlockLocal.read_safe loc offset len)

theorem Visited.loads {s : Store} (h : t.Visited cacheDir s) : t.store.Loads cacheDir s := by
  obtain ⟨pool, hreach, rfl⟩ := h
  exact (hreach.keeps (fun op _ => op_safe Dump.Loads.isLocal op) (fun _ _ hf => hf.elim)
    Dump.Loads.new).1

theorem Visited.new : t.Visited cacheDir (Store.new t.store cacheDir) := ⟨_, .refl, rfl⟩

end Calls

/-! ### What the dump determines -/

section Pure
variable (t : Tree) (cacheDir : ℕ → Option Bytes)

def manifestOf (b : ℕ) : Outcome TreeError Manifest := do
  let p ← (t.store.loaded cacheDir b).mapErr .read
  .ok p.manifest

def entriesOf : Key → Outcome TreeError (List Entry) := t.entriesWith (t.manifestOf cacheDir)

def lookupOf : Key → Bytes → Outcome TreeError (Option Key) := t.lookupWith (t.manifestOf cacheDir)

variable {t cacheDir}

theorem manifest_answers (b : ℕ) :
    (t.manifest b).Answers (t.store.Loads cacheDir) (t.manifestOf cacheDir b) :=
  (Call.Answers.mapErr Dump.parsed_answers).bind fun _ _ => Call.answers_pure _

theorem entries_answers (key : Key) :
    (t.entries key).Answers (t.store.Loads cacheDir) (t.entriesOf cacheDir key) := by
  cases key with
  | root => exact Call.answers_pure _
  | depot d => exact Call.answers_pure _
  | byDate d => exact Call.answers_pure _
  | latest d => exact Call.answers_lift _
  | dateLink b => exact Call.answers_lift _
  | version b => exact (manifest_answers b).bind fun _ _ => Call.answers_lift _
  | node b idx => exact (manifest_answers b).bind fun _ _ => Call.answers_lift _

theorem lookup_answers (dir : Key) (name : Bytes) :
    (t.lookup dir name).Answers (t.store.Loads cacheDir) (t.lookupOf cacheDir dir name) := by
  cases dir with
  | root => exact Call.answers_pure _
  | depot d => exact Call.answers_pure _
  | byDate d => exact Call.answers_pure _
  | latest d => exact Call.answers_pure _
  | dateLink b => exact Call.answers_pure _
  | version b => exact (manifest_answers b).bind fun _ _ => Call.answers_lift _
  | node b idx => exact (manifest_answers b).bind fun _ _ => Call.answers_lift _

end Pure

/-! ### Below a version -/

section Nodes
variable {t : Tree} {cacheDir : ℕ → Option Bytes} {b : ℕ} {m : Manifest}

theorem manifestOf_eq_ok :
    t.manifestOf cacheDir b = .ok m ↔ ∃ p, t.store.loaded cacheDir b = .ok p ∧ p.manifest = m := by
  unfold manifestOf
  rw [bind_eq_ok]
  simp only [mapErr_eq_ok, Outcome.ok.injEq]

theorem parseBlob_searchable {codec : Codec} {bytes : Bytes} {p : ParsedBlob}
    (h : parseBlob codec bytes = .ok p) : p.manifest.Searchable := by
  obtain ⟨top, -, h⟩ := bind_eq_ok.mp h
  obtain ⟨info, -, h⟩ := bind_eq_ok.mp h
  obtain ⟨mf, hmf, h⟩ := bind_eq_ok.mp h
  obtain ⟨fingerprint, -, h⟩ := bind_eq_ok.mp h
  split_ifs at h
  obtain ⟨own, -, h⟩ := bind_eq_ok.mp h
  split_ifs at h
  obtain ⟨off, -, h⟩ := bind_eq_ok.mp h
  obtain ⟨crc, -, h⟩ := bind_eq_ok.mp h
  split_ifs at h
  obtain ⟨table, -, h⟩ := bind_eq_ok.mp h
  obtain ⟨records, -, h⟩ := bind_eq_ok.mp h
  cases h
  obtain ⟨wrapped, -, hmf⟩ := bind_eq_ok.mp (mapErr_eq_ok.mp hmf)
  obtain ⟨wrapper, -, hmf⟩ := bind_eq_ok.mp hmf
  obtain ⟨inner, -, hmf⟩ := bind_eq_ok.mp hmf
  obtain ⟨data, -, hmf⟩ := bind_eq_ok.mp hmf
  exact Manifest.parse_searchable hmf

theorem manifestOf_searchable (h : t.manifestOf cacheDir b = .ok m) : m.Searchable := by
  obtain ⟨p, hp, rfl⟩ := manifestOf_eq_ok.mp h
  obtain ⟨bytes, hbytes⟩ := Dump.loaded_parses hp
  exact parseBlob_searchable hbytes

theorem nodeIndex_nodeKey (idx : UInt32) : nodeIndex m (nodeKey b m idx) = some idx := by
  unfold nodeKey
  split_ifs with h
  · rw [h]
    rfl
  · rfl

theorem nodeKey_injective : Function.Injective (nodeKey b m) := by
  intro i j h
  have hi := nodeIndex_nodeKey (b := b) (m := m) i
  rw [h, nodeIndex_nodeKey] at hi
  exact (Option.some.inj hi).symm

/-- The two keys that name a node of the manifest of `b`. -/
def OfManifest (b : ℕ) (k : Key) : Prop := k = .version b ∨ ∃ idx, k = .node b idx

theorem ofManifest_nodeKey (idx : UInt32) : OfManifest b (nodeKey b m idx) := by
  unfold nodeKey
  split_ifs
  · exact Or.inl rfl
  · exact Or.inr ⟨idx, rfl⟩

theorem OfManifest.entriesOf {k : Key} (hk : OfManifest b k) :
    t.entriesOf cacheDir k = (t.manifestOf cacheDir b >>= nodeEntries b k) := by
  rcases hk with rfl | ⟨idx, rfl⟩
  · rfl
  · rfl

theorem OfManifest.lookupOf {k : Key} (hk : OfManifest b k) (name : Bytes) :
    t.lookupOf cacheDir k name = (t.manifestOf cacheDir b >>= nodeLookup b k name) := by
  rcases hk with rfl | ⟨idx, rfl⟩
  · rfl
  · rfl

theorem entriesOf_nodeKey (h : t.manifestOf cacheDir b = .ok m) (idx : UInt32) :
    t.entriesOf cacheDir (nodeKey b m idx) =
      if ((m.node idx).map Node.isDir).getD false then .ok ((m.children idx).map (nodeEntry b m))
      else .err .notADirectory := by
  rw [(ofManifest_nodeKey idx).entriesOf, h, ok_bind, nodeEntries, nodeIndex_nodeKey]
  rfl

theorem lookupOf_nodeKey (h : t.manifestOf cacheDir b = .ok m) (idx : UInt32) (name : Bytes) :
    t.lookupOf cacheDir (nodeKey b m idx) name =
      .ok ((m.childByName idx name).map (nodeKey b m)) := by
  rw [(ofManifest_nodeKey idx).lookupOf, h, ok_bind, nodeLookup, nodeIndex_nodeKey]
  rfl

theorem isDir_of_mem_children {dir c : UInt32} (h : c ∈ m.children dir) :
    ∃ n, m.node dir = some n ∧ n.isDir = true := by
  unfold Manifest.children at h
  split at h
  · simp at h
  · next n hn =>
    refine ⟨n, hn, ?_⟩
    by_contra hd
    rw [if_neg hd] at h
    simp [Manifest.childrenFrom] at h

theorem node_ne_noNode (hm : m.Searchable) {i : UInt32} {n : Node} (h : m.node i = some n) :
    i ≠ NO_NODE := by
  rintro rfl
  have hlt : NO_NODE.toNat < m.nodes.length := (List.getElem?_eq_some_iff.mp h).1
  have hcount := hm.count
  have hval : NO_NODE.toNat = 2 ^ 32 - 1 := rfl
  omega

def Findable (m : Manifest) (dir c : UInt32) : Prop :=
  (∃ n, m.node c = some n ∧ n.parent = dir) ∧
    ∀ c' n', m.node c' = some n' → n'.parent = dir → m.name c' = m.name c → c' ≤ c

theorem lookupOf_child (h : t.manifestOf cacheDir b = .ok m) {dir c : UInt32}
    (hc : c ∈ m.children dir) :
    t.lookupOf cacheDir (nodeKey b m dir) (m.name c) = .ok (some (nodeKey b m c)) ↔
      Findable m dir c := by
  have hm := manifestOf_searchable h
  obtain ⟨n, hn, -⟩ := isDir_of_mem_children hc
  rw [lookupOf_nodeKey h, Outcome.ok.injEq, Option.map_eq_some_iff]
  have hfound : (∃ a, m.childByName dir (m.name c) = some a ∧ nodeKey b m a = nodeKey b m c) ↔
      m.childByName dir (m.name c) = some c := by
    constructor
    · rintro ⟨a, ha, hkey⟩
      rw [ha, nodeKey_injective hkey]
    · intro ha
      exact ⟨c, ha, rfl⟩
  rw [hfound, Manifest.childByName_eq_some hm (node_ne_noNode hm hn)]
  unfold Findable
  simp

theorem root_isDir {dir c : UInt32} (hdir : m.Reached dir) (hc : c ∈ m.children dir) :
    ∃ n, m.node m.root = some n ∧ n.isDir = true := by
  rcases hdir.cases_head with rfl | ⟨next, hnext, -⟩
  · exact isDir_of_mem_children hc
  · exact isDir_of_mem_children hnext

end Nodes

/-! ### Kinds -/

section Kinds
variable {t : Tree} {cacheDir : ℕ → Option Bytes}

def keyKind (t : Tree) (cacheDir : ℕ → Option Bytes) : Key → Kind
  | .root | .depot _ | .byDate _ | .version _ => .dir
  | .latest _ | .dateLink _ => .symlink
  | .node b idx => match t.manifestOf cacheDir b with
    | .ok m => if ((m.node idx).getD defaultNode).isDir then .dir else .file
    | _ => .dir

theorem dirMeta_kind {b : ℕ} {mt : Meta} (h : dirMeta <$> t.blobDate b = .ok mt) :
    mt.kind = .dir := by
  obtain ⟨date, -, rfl⟩ := map_eq_ok.mp h
  rfl

theorem linkMeta_kind {key : Key} {b : ℕ} {mt : Meta} (h : t.linkMeta key b = .ok mt) :
    mt.kind = .symlink := by
  obtain ⟨name, -, h⟩ := bind_eq_ok.mp h
  obtain ⟨date, -, h⟩ := bind_eq_ok.mp h
  cases h
  rfl

theorem nodeMeta_kind {I : Store → Prop} (h : t.store.Local I) (b : ℕ) (m : Manifest)
    (idx : UInt32) :
    (t.nodeMeta b m idx).Keeps I fun r => ∀ mt, r = .ok mt →
      mt.kind = if ((m.node idx).getD defaultNode).isDir then .dir else .file := by
  have dated {date : Outcome TreeError Instant} {kind : Kind} {size : UInt64} :
      (do let mtime ← Call.lift date; pure ⟨kind, size, mtime⟩ : TreeCall Meta).Keeps I
        fun r => ∀ mt, r = .ok mt → mt.kind = kind := by
    refine Call.Keeps.bind (Call.keeps_lift (Q := fun _ => True) trivial) (fun mtime _ => ?_)
      (fun _ _ _ hr => by cases hr) fun _ _ hr => by cases hr
    rintro mt ⟨⟩
    rfl
  unfold nodeMeta
  dsimp only
  split_ifs
  · exact dated
  · refine Call.Keeps.bind (Call.Safe.attempt (h.toTableLocal.locate_safe b _)) (fun r _ => ?_)
      (fun _ _ _ hr => by cases hr) fun _ _ hr => by cases hr
    cases r with
    | ok loc => exact dated
    | error e => exact dated

theorem metaOf_kind (key : Key) :
    (t.metaOf key).Keeps (t.store.Loads cacheDir) fun r =>
      ∀ mt, r = .ok mt → mt.kind = t.keyKind cacheDir key := by
  cases key with
  | root => rintro mt ⟨⟩; rfl
  | byDate d => rintro mt ⟨⟩; rfl
  | depot d =>
    intro mt hmt
    split at hmt
    · cases hmt
      rfl
    · exact dirMeta_kind hmt
  | latest d =>
    intro mt hmt
    split at hmt
    · cases hmt
    · exact linkMeta_kind hmt
  | dateLink b => exact fun mt hmt => linkMeta_kind hmt
  | version b => exact fun mt hmt => dirMeta_kind hmt
  | node b idx =>
    refine Call.Keeps.bind (manifest_answers b) (fun m hm => ?_) (fun _ _ _ hr => by cases hr)
      fun _ _ hr => by cases hr
    refine (nodeMeta_kind Dump.Loads.isLocal b m idx).mono fun r hr mt hmt => ?_
    rw [hr mt hmt, keyKind, ← hm]

theorem keyKind_nodeKey {b : ℕ} {m : Manifest} (hm : t.manifestOf cacheDir b = .ok m)
    {dir c : UInt32} (hdir : m.Reached dir) (hc : c ∈ m.children dir) {n : Node}
    (hn : m.node c = some n) : t.keyKind cacheDir (nodeKey b m c) = kindOf m c := by
  unfold nodeKey
  split_ifs with hroot
  · obtain ⟨r, hr, hd⟩ := root_isDir hdir hc
    rw [hroot, kindOf, hr]
    simp [keyKind, hd]
  · simp [keyKind, hm, kindOf, hn]

end Kinds

/-! ### Depots -/

section Depots
variable {t : Tree} {cacheDir : ℕ → Option Bytes} {d : UInt32} {dep : Depot}

def Apart (idx : Index) (dep : Depot) : Prop :=
  ∀ b ∈ dep.blobs, ∀ c ∈ dep.blobs, b ≠ c →
    ¬ (idx.versionOf b = idx.versionOf c ∧ idx.crcOf b = idx.crcOf c)

theorem depot_eq_some (h : (d, dep) ∈ t.store.index.depots) :
    t.store.index.depot d = some dep := by
  have hord : t.store.index.Ordered := Index.load_ordered _ _
  refine Index.lookup_of_mem (hord.keys.imp fun hlt heq => ?_) h
  rw [heq] at hlt
  exact absurd hlt (by simp)

theorem depot_finished (h : (d, dep) ∈ t.store.index.depots) :
    ∃ dep₀, dep = t.store.index.finishDepot dep₀ :=
  Index.load_finished _ _ h

theorem depot_nodup (h : (d, dep) ∈ t.store.index.depots) : dep.blobs.Nodup :=
  (Index.load_ordered _ _).nodup _ h

theorem lookupOf_root (h : (d, dep) ∈ t.store.index.depots) :
    t.lookupOf cacheDir .root (utf8 (decimal d.toNat)) = .ok (some (.depot d)) := by
  have hlossy : fromUtf8Lossy (utf8 (decimal d.toNat)) = decimal d.toNat :=
    fromUtf8Lossy_utf8 fun c hc => (digitlike_decimal c hc).1
  change Outcome.ok (t.lookupDepot (fromUtf8Lossy (utf8 (decimal d.toNat)))) = _
  rw [hlossy, lookupDepot, parseU32_decimal]
  simp [Option.filter, depot_eq_some h]

theorem ascii_of_all {name : Str} (h : name.all (fun c => c.toNat < 0x80) = true) :
    ∀ c ∈ name, c.toNat < 0x80 :=
  fun c hc => of_decide_eq_true (List.all_eq_true.mp h c hc)

theorem lookupOf_depot {name : Str} (hname : ∀ c ∈ name, c.toNat < 0x80) :
    t.lookupOf cacheDir (.depot d) (utf8 name) = .ok (t.lookupInDepot d name) := by
  change Outcome.ok (t.lookupInDepot d (fromUtf8Lossy (utf8 name))) = _
  rw [fromUtf8Lossy_utf8 hname]

theorem lookupInDepot_name (h : (d, dep) ∈ t.store.index.depots) (b : ℕ) :
    t.lookupInDepot d (t.store.index.namesOf dep.blobs b).1 =
      (dep.lookupName (t.store.index.namesOf dep.blobs b).1).map .version := by
  obtain ⟨c, cs, hname, hl, hb⟩ := t.store.index.name_head dep.blobs b
  unfold lookupInDepot
  rw [hname, if_neg, if_neg, depot_eq_some h]
  · rfl
  · intro heq
    exact hb (List.cons.inj heq).1
  · intro heq
    exact hl (List.cons.inj heq).1

theorem lookupOf_version (h : (d, dep) ∈ t.store.index.depots)
    (hapart : Apart t.store.index dep) {b : ℕ} (hb : b ∈ dep.blobs) :
    t.lookupOf cacheDir (.depot d) (utf8 (t.store.index.namesOf dep.blobs b).1) =
      .ok (some (.version b)) := by
  obtain ⟨dep₀, hfin⟩ := depot_finished h
  have hinj : ∀ x ∈ dep.blobs, ∀ y ∈ dep.blobs, (t.store.index.namesOf dep.blobs x).1 =
      (t.store.index.namesOf dep.blobs y).1 → x = y := by
    intro x hx y hy heq
    by_contra hne
    exact hapart x hx y hy hne ((Index.name_eq_iff hx hy hne).mp heq)
  have hlook : dep.lookupName (t.store.index.namesOf dep.blobs b).1 = some b := by
    unfold Depot.lookupName
    rw [Index.byName_eq hfin, Index.versions_eq hfin]
    apply Index.lookup_of_mem
    · rw [List.map_reverse, List.nodup_reverse, List.map_map]
      exact (depot_nodup h).map_on fun x hx y hy heq => hinj x hx y hy heq
    · rw [List.mem_reverse]
      exact List.mem_map.mpr ⟨b, hb, rfl⟩
  rw [lookupOf_depot fun c hc => (Index.name_ascii dep.blobs b c hc).1, lookupInDepot_name h, hlook]
  rfl

theorem lookupOf_dateLink (h : (d, dep) ∈ t.store.index.depots)
    (hapart : Apart t.store.index dep) {b : ℕ} (hb : b ∈ dep.blobs) :
    t.lookupOf cacheDir (.byDate d) (utf8 (t.store.index.namesOf dep.blobs b).2) =
      .ok (some (.dateLink b)) := by
  obtain ⟨dep₀, hfin⟩ := depot_finished h
  have hinj : ∀ x ∈ dep.blobs, ∀ y ∈ dep.blobs, (t.store.index.namesOf dep.blobs x).2 =
      (t.store.index.namesOf dep.blobs y).2 → x = y := by
    intro x hx y hy heq
    by_contra hne
    exact hapart x hx y hy hne ((Index.name_eq_iff hx hy hne).mp (Index.link_injective heq))
  have hlook : dep.lookupDateLink (t.store.index.namesOf dep.blobs b).2 = some b := by
    unfold Depot.lookupDateLink
    rw [Index.byDateLink_eq hfin]
    apply Index.lookup_of_mem
    · rw [List.map_reverse, List.nodup_reverse, List.map_map]
      exact (depot_nodup h).map_on fun x hx y hy heq => hinj x hx y hy heq
    · rw [List.mem_reverse]
      exact List.mem_map.mpr ⟨b, hb, rfl⟩
  change Outcome.ok (((t.store.index.depot d).bind fun dep =>
    dep.lookupDateLink (fromUtf8Lossy (utf8 _))).map Key.dateLink) = _
  rw [fromUtf8Lossy_utf8 (Index.link_ascii dep.blobs b), depot_eq_some h, Option.bind_some, hlook]
  rfl

theorem dateLinks_eq (h : (d, dep) ∈ t.store.index.depots) {l : Str × ℕ}
    (hl : l ∈ dep.dateLinks) :
    l.2 ∈ dep.blobs ∧ l.1 = (t.store.index.namesOf dep.blobs l.2).2 := by
  obtain ⟨dep₀, hfin⟩ := depot_finished h
  obtain ⟨b, hb, rfl⟩ := List.mem_map.mp hl
  have hmem := (Index.mem_dateOrder hfin).mp hb
  refine ⟨hmem, ?_⟩
  rw [Depot.dateLinkOf, Index.nth_eq hfin (depot_nodup h) hmem]
  rfl

theorem mem_dateLinks (h : (d, dep) ∈ t.store.index.depots) {b : ℕ} (hb : b ∈ dep.blobs) :
    ((t.store.index.namesOf dep.blobs b).2, b) ∈ dep.dateLinks := by
  obtain ⟨dep₀, hfin⟩ := depot_finished h
  refine List.mem_map.mpr ⟨b, (Index.mem_dateOrder hfin).mpr hb, ?_⟩
  rw [Depot.dateLinkOf, Index.nth_eq hfin (depot_nodup h) hb]
  rfl

theorem mem_versions (h : (d, dep) ∈ t.store.index.depots) {v : Str × ℕ} :
    v ∈ dep.versions ↔ v.2 ∈ dep.blobs ∧ v.1 = (t.store.index.namesOf dep.blobs v.2).1 := by
  obtain ⟨dep₀, hfin⟩ := depot_finished h
  rw [Index.versions_eq hfin, List.mem_map]
  constructor
  · rintro ⟨b, hb, rfl⟩
    exact ⟨hb, rfl⟩
  · rintro ⟨hb, hv⟩
    exact ⟨v.2, hb, Prod.ext hv.symm rfl⟩

end Depots

/-! ### Listing against lookup -/

section SelfLookup
variable (t : Tree) (cacheDir : ℕ → Option Bytes)

/-- Keys met by listing directories, starting at the root. -/
inductive Listed : Key → Prop
  | root : Listed .root
  | entry {k : Key} {s : Store} {es : List Entry} {e : Entry} (hk : Listed k)
      (hs : t.Visited cacheDir s) (hes : ((t.entries k).run s).1 = .ok es) (he : e ∈ es) :
      Listed e.key

def SelfLookup : Prop :=
  ∀ k, Listed t cacheDir k → ∀ s, t.Visited cacheDir s → ∀ es, ((t.entries k).run s).1 = .ok es →
    ∀ e ∈ es, ∀ s', t.Visited cacheDir s' →
      ((t.lookup k e.name).run s').1 = .ok (some e.key) ∧
        ∀ mt, ((t.metaOf e.key).run s').1 = .ok mt → mt.kind = e.kind

/-- No two blobs of a depot share version and crc, and below each version that
loads every listed child is the node a search by name ends at. -/
structure NamesApart : Prop where
  blobs : ∀ e ∈ t.store.index.depots, Apart t.store.index e.2
  children : ∀ e ∈ t.store.index.depots, ∀ b ∈ e.2.blobs, ∀ p,
    t.store.loaded cacheDir b = .ok p → ∀ dir, p.manifest.Reached dir →
      ∀ c ∈ p.manifest.children dir, Findable p.manifest dir c

variable {t cacheDir}

theorem entries_run {s : Store} (hs : t.Visited cacheDir s) (k : Key) :
    ((t.entries k).run s).1 = t.entriesOf cacheDir k :=
  (entries_answers k).run hs.loads

theorem lookup_run {s : Store} (hs : t.Visited cacheDir s) (k : Key) (name : Bytes) :
    ((t.lookup k name).run s).1 = t.lookupOf cacheDir k name :=
  (lookup_answers k name).run hs.loads

theorem metaOf_run {s : Store} (hs : t.Visited cacheDir s) {k : Key} {mt : Meta}
    (h : ((t.metaOf k).run s).1 = .ok mt) : mt.kind = t.keyKind cacheDir k :=
  ((metaOf_kind k).run hs.loads).1 mt h

/-- What is known of a listed key: a version belongs to a depot, and a node is
reached from the root of its manifest. -/
def Placed (t : Tree) (cacheDir : ℕ → Option Bytes) (k : Key) : Prop :=
  match k with
  | .version b | .node b _ => (∃ e ∈ t.store.index.depots, b ∈ e.2.blobs) ∧
    ∀ m, t.manifestOf cacheDir b = .ok m → ∃ i, m.Reached i ∧ nodeKey b m i = k
  | _ => True

theorem placed_version {e : UInt32 × Depot} (he : e ∈ t.store.index.depots) {b : ℕ}
    (hb : b ∈ e.2.blobs) : Placed t cacheDir (.version b) :=
  ⟨⟨e, he, hb⟩, fun m _ => ⟨m.root, .refl, if_pos rfl⟩⟩

theorem placed_nodeKey {b : ℕ} {m : Manifest} (hm : t.manifestOf cacheDir b = .ok m)
    (hb : ∃ e ∈ t.store.index.depots, b ∈ e.2.blobs) {i : UInt32} (hi : m.Reached i) :
    Placed t cacheDir (nodeKey b m i) := by
  have hplace : ∀ m', t.manifestOf cacheDir b = .ok m' →
      ∃ j, m'.Reached j ∧ nodeKey b m' j = nodeKey b m i := by
    intro m' hm'
    rw [hm] at hm'
    cases hm'
    exact ⟨i, hi, rfl⟩
  unfold nodeKey at hplace ⊢
  split_ifs at hplace ⊢
  · exact ⟨hb, hplace⟩
  · exact ⟨hb, hplace⟩

theorem Placed.manifest {b : ℕ} {k : Key} (hplaced : Placed t cacheDir k) (hk : OfManifest b k) :
    (∃ e ∈ t.store.index.depots, b ∈ e.2.blobs) ∧
      ∀ m, t.manifestOf cacheDir b = .ok m → ∃ i, m.Reached i ∧ nodeKey b m i = k := by
  rcases hk with rfl | ⟨idx, rfl⟩
  · exact hplaced
  · exact hplaced

theorem entriesOf_node {b : ℕ} {k : Key} {es : List Entry} (hk : OfManifest b k)
    (hplaced : Placed t cacheDir k) (hes : t.entriesOf cacheDir k = .ok es) :
    (∃ e ∈ t.store.index.depots, b ∈ e.2.blobs) ∧ ∃ m i, t.manifestOf cacheDir b = .ok m ∧
      m.Reached i ∧ k = nodeKey b m i ∧ es = (m.children i).map (nodeEntry b m) := by
  obtain ⟨hb, hnode⟩ := hplaced.manifest hk
  obtain ⟨m, hm, -⟩ := bind_eq_ok.mp (hk.entriesOf.symm.trans hes)
  obtain ⟨i, hi, hkey⟩ := hnode m hm
  rw [← hkey, entriesOf_nodeKey hm] at hes
  split_ifs at hes
  cases hes
  exact ⟨hb, m, i, hm, hi, hkey.symm, rfl⟩

/-- Every entry a listing of a placed key can hold, with where it comes from. -/
inductive Shows (t : Tree) (cacheDir : ℕ → Option Bytes) : Key → Entry → Prop
  | depot {x : UInt32 × Depot} (hx : x ∈ t.store.index.depots) :
      Shows t cacheDir .root ⟨utf8 (decimal x.1.toNat), .depot x.1, .dir⟩
  | version {x : UInt32 × Depot} (hx : x ∈ t.store.index.depots) {b : ℕ} (hb : b ∈ x.2.blobs) :
      Shows t cacheDir (.depot x.1)
        ⟨utf8 (t.store.index.namesOf x.2.blobs b).1, .version b, .dir⟩
  | latest {x : UInt32 × Depot} (hx : x ∈ t.store.index.depots)
      (htarget : (t.store.index.latest x.1).isSome) :
      Shows t cacheDir (.depot x.1) ⟨utf8 "latest".toList, .latest x.1, .symlink⟩
  | byDate {x : UInt32 × Depot} (hx : x ∈ t.store.index.depots) :
      Shows t cacheDir (.depot x.1) ⟨utf8 "by-date".toList, .byDate x.1, .dir⟩
  | dateLink {x : UInt32 × Depot} (hx : x ∈ t.store.index.depots) {b : ℕ} (hb : b ∈ x.2.blobs) :
      Shows t cacheDir (.byDate x.1)
        ⟨utf8 (t.store.index.namesOf x.2.blobs b).2, .dateLink b, .symlink⟩
  | node {k : Key} {b : ℕ} {m : Manifest} {i c : UInt32} (hm : t.manifestOf cacheDir b = .ok m)
      (hb : ∃ e ∈ t.store.index.depots, b ∈ e.2.blobs) (hi : m.Reached i)
      (hk : nodeKey b m i = k) (hc : c ∈ m.children i) : Shows t cacheDir k (nodeEntry b m c)

theorem shows_of_mem {k : Key} {es : List Entry} {e : Entry} (hk : Placed t cacheDir k)
    (hes : t.entriesOf cacheDir k = .ok es) (he : e ∈ es) : Shows t cacheDir k e := by
  have node {b : ℕ} (hk' : OfManifest b k) : Shows t cacheDir k e := by
    obtain ⟨hb, m, i, hm, hi, rfl, rfl⟩ := entriesOf_node hk' hk hes
    obtain ⟨c, hc, rfl⟩ := List.mem_map.mp he
    exact .node hm hb hi rfl hc
  cases k with
  | root =>
    cases hes
    obtain ⟨x, hx, rfl⟩ := List.mem_map.mp he
    exact .depot hx
  | depot d =>
    cases hes
    cases hdep : t.store.index.depot d with
    | none =>
      rw [hdep] at he
      cases he
    | some dep =>
      have hmem := Index.mem_of_lookup hdep
      rw [hdep] at he
      simp only [depotEntries, List.mem_append, List.mem_map, List.mem_singleton] at he
      rcases he with (⟨v, hv, rfl⟩ | he) | rfl
      · obtain ⟨hb, hname⟩ := (mem_versions hmem).mp hv
        rw [hname]
        exact .version hmem hb
      · split_ifs at he with hlatest
        · rw [List.mem_singleton.mp he]
          exact .latest hmem hlatest
        · cases he
      · exact .byDate hmem
  | byDate d =>
    cases hes
    cases hdep : t.store.index.depot d with
    | none =>
      rw [hdep] at he
      cases he
    | some dep =>
      have hmem := Index.mem_of_lookup hdep
      rw [hdep] at he
      obtain ⟨l, hl, rfl⟩ := List.mem_map.mp he
      obtain ⟨hb, hname⟩ := dateLinks_eq hmem hl
      rw [hname]
      exact .dateLink hmem hb
  | latest d => cases hes
  | dateLink b => cases hes
  | version b => exact node (Or.inl rfl)
  | node b idx => exact node (Or.inr ⟨idx, rfl⟩)

theorem Shows.placed {k : Key} {e : Entry} (h : Shows t cacheDir k e) :
    Placed t cacheDir e.key := by
  cases h with
  | depot hx => trivial
  | version hx hb => exact placed_version hx hb
  | latest hx htarget => trivial
  | byDate hx => trivial
  | dateLink hx hb => trivial
  | node hm hb hi _ hc => exact placed_nodeKey hm hb (hi.tail hc)

theorem Listed.placed {k : Key} (h : Listed t cacheDir k) : Placed t cacheDir k := by
  induction h with
  | root => trivial
  | entry _ hs hes he ih =>
    rw [entries_run hs] at hes
    exact (shows_of_mem ih hes he).placed

theorem mem_children_node {m : Manifest} {dir c : UInt32} (hc : c ∈ m.children dir) :
    ∃ n, m.node c = some n := by
  obtain ⟨k, hk⟩ := Manifest.child_iff_slot.mp hc
  have hlt := Manifest.slot_node hk
  exact ⟨_, List.getElem?_eq_getElem hlt⟩

theorem Shows.kind {k : Key} {e : Entry} (h : Shows t cacheDir k e) :
    t.keyKind cacheDir e.key = e.kind := by
  cases h with
  | depot hx => rfl
  | version hx hb => rfl
  | latest hx htarget => rfl
  | byDate hx => rfl
  | dateLink hx hb => rfl
  | node hm hb hi _ hc =>
    obtain ⟨n, hn⟩ := mem_children_node hc
    exact keyKind_nodeKey hm hi hc hn

theorem Shows.found {k : Key} {e : Entry} (h : Shows t cacheDir k e)
    (hnames : NamesApart t cacheDir) : t.lookupOf cacheDir k e.name = .ok (some e.key) := by
  cases h with
  | depot hx => exact lookupOf_root hx
  | version hx hb => exact lookupOf_version hx (hnames.blobs _ hx) hb
  | latest hx htarget =>
    rw [lookupOf_depot (ascii_of_all (by decide))]
    obtain ⟨target, htarget⟩ := Option.isSome_iff_exists.mp htarget
    simp [lookupInDepot, htarget]
  | byDate hx =>
    rw [lookupOf_depot (ascii_of_all (by decide))]
    rfl
  | dateLink hx hb => exact lookupOf_dateLink hx (hnames.blobs _ hx) hb
  | node hm hb hi hk hc =>
    obtain ⟨p, hp, rfl⟩ := manifestOf_eq_ok.mp hm
    subst hk
    obtain ⟨x, hx, hb⟩ := hb
    exact (lookupOf_child hm hc).mpr (hnames.children x hx _ hb p hp _ hi _ hc)

/-! The other way round: where names are not apart, a listing shows it. -/

theorem listed_of_entriesOf {k : Key} (hk : Listed t cacheDir k) {es : List Entry} {e : Entry}
    (hes : t.entriesOf cacheDir k = .ok es) (he : e ∈ es) : Listed t cacheDir e.key := by
  have hrun : ((t.entries k).run (Store.new t.store cacheDir)).1 = t.entriesOf cacheDir k :=
    entries_run .new k
  exact .entry hk .new (hrun.trans hes) he

theorem Shows.entry {k : Key} {e : Entry} (h : Shows t cacheDir k e) :
    ∃ es, t.entriesOf cacheDir k = .ok es ∧ e ∈ es := by
  have depot {x : UInt32 × Depot} (hx : x ∈ t.store.index.depots) :
      t.entriesOf cacheDir (.depot x.1) = .ok (t.depotEntries x.1 x.2) := by
    simp only [entriesOf, entriesWith, depot_eq_some hx]
    rfl
  cases h with
  | depot hx => exact ⟨_, rfl, List.mem_map.mpr ⟨_, hx, rfl⟩⟩
  | @version x hx b hb =>
    refine ⟨_, depot hx, ?_⟩
    have hv : ((t.store.index.namesOf x.2.blobs b).1, b) ∈ x.2.versions :=
      (mem_versions hx).mpr ⟨hb, rfl⟩
    simp only [depotEntries, List.mem_append, List.mem_map]
    exact Or.inl (Or.inl ⟨_, hv, rfl⟩)
  | latest hx htarget =>
    refine ⟨_, depot hx, ?_⟩
    rw [depotEntries, if_pos htarget]
    simp
  | byDate hx =>
    refine ⟨_, depot hx, ?_⟩
    simp [depotEntries]
  | @dateLink x hx b hb =>
    let link (l : Str × ℕ) : Entry := ⟨utf8 l.1, .dateLink l.2, .symlink⟩
    refine ⟨x.2.dateLinks.map link, ?_, List.mem_map.mpr ⟨_, mem_dateLinks hx hb, rfl⟩⟩
    simp only [entriesOf, entriesWith, depot_eq_some hx]
    rfl
  | node hm hb hi hk hc =>
    obtain ⟨n, hn, hd⟩ := isDir_of_mem_children hc
    refine ⟨_, ?_, List.mem_map.mpr ⟨_, hc, rfl⟩⟩
    rw [← hk, entriesOf_nodeKey hm, hn, Option.map_some, Option.getD_some, hd]
    rfl

theorem Listed.shown {k : Key} (hk : Listed t cacheDir k) {e : Entry}
    (h : Shows t cacheDir k e) : Listed t cacheDir e.key := by
  obtain ⟨es, hes, he⟩ := h.entry
  exact listed_of_entriesOf hk hes he

theorem listed_node {e : UInt32 × Depot} (he : e ∈ t.store.index.depots) {b : ℕ}
    (hb : b ∈ e.2.blobs) {m : Manifest} (hm : t.manifestOf cacheDir b = .ok m) {dir : UInt32}
    (hdir : m.Reached dir) : Listed t cacheDir (nodeKey b m dir) := by
  induction hdir with
  | refl =>
    have hdepot : Listed t cacheDir (.depot e.1) := Listed.root.shown (.depot he)
    have hversion : Listed t cacheDir (.version b) := hdepot.shown (.version he hb)
    rwa [nodeKey, if_pos rfl]
  | tail hi hc ih => exact ih.shown (.node hm ⟨e, he, hb⟩ hi rfl hc)

theorem SelfLookup.found (h : SelfLookup t cacheDir) {k : Key} (hk : Listed t cacheDir k)
    {e : Entry} (he : Shows t cacheDir k e) :
    t.lookupOf cacheDir k e.name = .ok (some e.key) := by
  obtain ⟨es, hes, he⟩ := he.entry
  have hrun : ((t.entries k).run (Store.new t.store cacheDir)).1 = t.entriesOf cacheDir k :=
    entries_run .new k
  have hlook := (h k hk _ .new es (hrun.trans hes) e he _ .new).1
  rwa [lookup_run .new] at hlook

theorem selfLookup_iff_namesApart (t : Tree) (cacheDir : ℕ → Option Bytes) :
    SelfLookup t cacheDir ↔ NamesApart t cacheDir := by
  constructor
  · refine fun h => ⟨fun x hx b hb c hc hbc hsame => ?_, fun x hx b hb p hp dir hdir c hc => ?_⟩
    · -- the two versions are listed under one name, which finds only one of them
      have hname := (Index.name_eq_iff hb hc hbc).mpr hsame
      have hdepot : Listed t cacheDir (.depot x.1) := Listed.root.shown (.depot hx)
      have hfound := h.found hdepot (.version hx hb)
      have hfound' := h.found hdepot (.version hx hc)
      dsimp only at hfound hfound'
      rw [hname, hfound'] at hfound
      simp only [Outcome.ok.injEq, Option.some.injEq, Key.version.injEq] at hfound
      exact hbc hfound.symm
    · have hm : t.manifestOf cacheDir b = .ok p.manifest := manifestOf_eq_ok.mpr ⟨p, hp, rfl⟩
      exact (lookupOf_child hm hc).mp
        (h.found (listed_node hx hb hm hdir) (.node hm ⟨x, hx, hb⟩ hdir rfl hc))
  · intro h k hk s hs es hes e he s' hs'
    rw [entries_run hs] at hes
    refine ⟨?_, fun mt hmt => ?_⟩
    · rw [lookup_run hs']
      exact (shows_of_mem hk.placed hes he).found h
    · rw [metaOf_run hs' hmt]
      exact (shows_of_mem hk.placed hes he).kind

def twinBlobs : Tree where
  store := MemoryDump.dump ⟨[("5_1_000000aa_x.blob".toList, []), ("5_1_000000aa_y.blob".toList, [])],
    [], .empty, .plain⟩

theorem twinBlobs_not_selfLookup : ¬ SelfLookup twinBlobs fun _ => none := by
  intro h
  have hroot : twinBlobs.entriesOf (fun _ => none) .root =
      .ok [⟨utf8 "5".toList, .depot 5, .dir⟩] := by decide +kernel
  have hdepot : twinBlobs.entriesOf (fun _ => none) (.depot 5) =
      .ok [⟨utf8 "1-000000aa".toList, .version 0, .dir⟩,
        ⟨utf8 "1-000000aa".toList, .version 1, .dir⟩, ⟨utf8 "latest".toList, .latest 5, .symlink⟩,
        ⟨utf8 "by-date".toList, .byDate 5, .dir⟩] := by decide +kernel
  have hlook : twinBlobs.lookupOf (fun _ => none) (.depot 5) (utf8 "1-000000aa".toList) =
      .ok (some (.version 1)) := by decide +kernel
  have hlisted := listed_of_entriesOf .root hroot (List.mem_singleton_self _)
  have hshown := shows_of_mem hlisted.placed hdepot (List.mem_cons_self ..)
  have hfound := h.found hlisted hshown
  rw [hlook] at hfound
  cases hfound

end SelfLookup
end Steam2Fs.Tree
