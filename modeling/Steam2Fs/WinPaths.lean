import Steam2Fs.Lib.Utf16
import Steam2Fs.TreeExact
import Steam2Fs.TreeLinks

/-!
# Paths on Windows

A listing shows the lossy decoding of each name. A path is walked from the
root, and each component is looked up first as its own UTF-8 bytes and then,
ignoring the case of ASCII letters, among the names shown. A name that is not
UTF-8 is shown with replacement characters: another name may be shown the same
way, or really have those characters in it, and then the path leads there.
-/

namespace Steam2Fs

namespace WinFs
open Outcome Text
open Steam2Fs.Tree (TreeCall TreeError Entry)

def toAsciiLowercase (c : Char) : Char :=
  if 'A' ≤ c ∧ c ≤ 'Z' then Char.ofNat (c.toNat + 32) else c

def eqIgnoreAsciiCase (a b : Str) : Bool := a.map toAsciiLowercase = b.map toAsciiLowercase

def shownName (e : Entry) : Str := fromUtf8Lossy e.name

variable (t : Tree)

def lookupInsensitive (parent : Tree.Key) (name : Str) : TreeCall Tree.Key := do
  let entries ← t.entries parent
  match entries.find? fun e => eqIgnoreAsciiCase (shownName e) name with
  | some e => pure e.key
  | none => Call.lift (.err .notFound)

/-- A name is looked up exactly first, and ignoring case second. -/
def lookupComponent (dir : Tree.Key) (name : Str) : TreeCall Tree.Key := do
  match ← t.lookup dir (utf8 name) with
  | some found => pure found
  | none => lookupInsensitive t dir name

def pathStep (key : Tree.Key) (component : Str) : TreeCall Tree.Key :=
  if component = ".".toList then pure key
  else if component = "..".toList then t.parent key
  else lookupComponent t (resolve t key) component

def walkPath : Tree.Key → List Str → TreeCall Tree.Key
  | key, [] => pure key
  | key, component :: rest => do
    let key ← pathStep t key component
    walkPath key rest

def components (path : Str) : List Str := (path.splitOn '\\').filter fun c => c ≠ []

def resolvePath (fileName : List UInt16) : TreeCall Tree.Key := do
  let key ← walkPath t .root (components (fromUtf16Lossy fileName))
  pure (resolve t key)

variable {t} {cacheDir : ℕ → Option Bytes}

/-! ### Walking a path -/

theorem parent_determined (key : Tree.Key) :
    (t.parent key).Determined (t.store.Loads cacheDir) := by
  cases key with
  | version b => exact Call.Determined.bind ⟨_, Call.answers_lift _⟩ fun e => ⟨_, Call.answers_pure _⟩
  | node b idx =>
    refine Call.Determined.bind ⟨_, (Tree.manifest_answers b).attempt⟩ fun r => ?_
    cases r with
    | ok m => exact ⟨_, Call.answers_pure _⟩
    | error e => exact ⟨_, Call.answers_pure _⟩
  | _ => exact ⟨_, Call.answers_pure _⟩

/-- What a component leads to, from what the dump determines. -/
def componentOf (t : Tree) (cacheDir : ℕ → Option Bytes) (dir : Tree.Key) (name : Str) :
    Outcome TreeError Tree.Key := do
  match ← t.lookupOf cacheDir dir (utf8 name) with
  | some found => .ok found
  | none =>
    let entries ← t.entriesOf cacheDir dir
    match entries.find? fun e => eqIgnoreAsciiCase (shownName e) name with
    | some e => .ok e.key
    | none => .err .notFound

theorem lookupComponent_answers (dir : Tree.Key) (name : Str) :
    (lookupComponent t dir name).Answers (t.store.Loads cacheDir)
      (componentOf t cacheDir dir name) := by
  refine (Tree.lookup_answers dir (utf8 name)).bind fun found _ => ?_
  cases found with
  | some found => exact Call.answers_pure _
  | none =>
    refine (Tree.entries_answers dir).bind fun es _ => ?_
    cases es.find? fun e => eqIgnoreAsciiCase (shownName e) name with
    | some e => exact Call.answers_pure _
    | none => exact Call.answers_lift _

theorem pathStep_determined (key : Tree.Key) (component : Str) :
    (pathStep t key component).Determined (t.store.Loads cacheDir) := by
  unfold pathStep
  split_ifs
  · exact ⟨_, Call.answers_pure _⟩
  · exact parent_determined key
  · exact ⟨_, lookupComponent_answers _ component⟩

theorem walkPath_determined (key : Tree.Key) (cs : List Str) :
    (walkPath t key cs).Determined (t.store.Loads cacheDir) := by
  induction cs generalizing key with
  | nil => exact ⟨_, Call.answers_pure _⟩
  | cons c cs ih => exact (pathStep_determined key c).bind ih

theorem walkPath_append {key next : Tree.Key} {cs ds : List Str} {r : Outcome TreeError Tree.Key}
    {s : Store} (hs : t.store.Loads cacheDir s) (hcs : ((walkPath t key cs).run s).1 = .ok next)
    (hds : (walkPath t next ds).Answers (t.store.Loads cacheDir) r) :
    (walkPath t key (cs ++ ds)).Answers (t.store.Loads cacheDir) r := by
  induction cs generalizing key with
  | nil =>
    cases hcs
    exact hds
  | cons c cs ih =>
    have hwalk (k : Tree.Key) : ∃ r, (walkPath t k cs).Answers (t.store.Loads cacheDir) r :=
      walkPath_determined k cs
    choose g hg using hwalk
    obtain ⟨o, ho⟩ : (pathStep t key c).Determined (t.store.Loads cacheDir) :=
      pathStep_determined key c
    have hrun := (ho.bind fun k _ => hg k).run hs
    obtain ⟨k, rfl, hk⟩ := bind_eq_ok.mp (hrun.symm.trans hcs)
    have ih := ih (((hg k).run hs).trans hk)
    refine ho.bind (g := fun _ => r) fun k' hk' => ?_
    cases hk'
    exact ih

/-! ### One component more -/

theorem components_append {name : Str} (hne : name ≠ []) (hslash : '\\' ∉ name) (path : Str) :
    components (path ++ '\\' :: name) = components path ++ [name] := by
  unfold components
  rw [List.splitOn_append_cons_self, List.splitOn_eq_singleton hslash, List.filter_append]
  simp [hne]

theorem resolvePath_append {p : List UInt16} {k : Tree.Key} {name : Str} {s : Store}
    (hs : t.store.Loads cacheDir s) (hp : ((resolvePath t p).run s).1 = .ok k)
    (hne : name ≠ []) (hslash : '\\' ∉ name) (hdot : name ≠ ".".toList)
    (hdots : name ≠ "..".toList) :
    (resolvePath t (p ++ 0x5c :: utf16 name)).Answers (t.store.Loads cacheDir)
      (resolve t <$> componentOf t cacheDir k name) := by
  have hpath : components (fromUtf16Lossy (p ++ 0x5c :: utf16 name)) =
      components (fromUtf16Lossy p) ++ [name] := by
    rw [fromUtf16Lossy_append (by decide), fromUtf16Lossy_utf16]
    exact components_append hne hslash _
  obtain ⟨o, ho⟩ : (walkPath t .root (components (fromUtf16Lossy p))).Determined
      (t.store.Loads cacheDir) := walkPath_determined _ _
  have hresolve : (resolvePath t p).Answers (t.store.Loads cacheDir)
      (o >>= fun key => .ok (resolve t key)) := ho.bind fun _ _ => Call.answers_pure _
  obtain ⟨key, rfl, hkey⟩ := bind_eq_ok.mp ((hresolve.run hs).symm.trans hp)
  cases hkey
  have hstep : (walkPath t key [name]).Answers (t.store.Loads cacheDir)
      (componentOf t cacheDir (resolve t key) name >>= .ok) := by
    refine Call.Answers.bind ?_ fun _ _ => Call.answers_pure _
    rw [pathStep, if_neg hdot, if_neg hdots]
    exact lookupComponent_answers _ name
  have hwalk := walkPath_append hs (ho.run hs) hstep
  rw [← hpath] at hwalk
  have hlast := hwalk.bind fun key' _ => Call.answers_pure (resolve t key')
  have hsame : ((componentOf t cacheDir (resolve t key) name >>= .ok) >>=
      fun key' => .ok (resolve t key')) = resolve t <$> componentOf t cacheDir (resolve t key) name := by
    cases componentOf t cacheDir (resolve t key) name with
    | ok found => rfl
    | err e => rfl
    | panic => rfl
  rw [← hsame]
  exact hlast

/-! ### Names as they are shown -/

theorem shownName_ne {e : Entry} {name : Str} (hname : ∀ c ∈ name, c.toNat < 0x80)
    (h : e.name ≠ utf8 name) : shownName e ≠ name := by
  intro heq
  exact h (utf8_of_fromUtf8Lossy heq hname).symm

/-- What the entries of a directory must be like for a path to name them. -/
structure Plain (t : Tree) (cacheDir : ℕ → Option Bytes) (k : Tree.Key) (es : List Entry) :
    Prop where
  distinct : es.Pairwise fun e f => e.name ≠ f.name
  nonempty : ∀ e ∈ es, e.name ≠ []
  noDot : ∀ e ∈ es, e.name ≠ utf8 ".".toList
  noDots : ∀ e ∈ es, e.name ≠ utf8 "..".toList
  noBackslash : ∀ e ∈ es, 0x5c ∉ e.name
  self : ∀ e ∈ es, ∀ s, t.Visited cacheDir s → ((t.lookup k e.name).run s).1 = .ok (some e.key)

/-- Some node names the directory as its parent and is called `name`. -/
def Named (t : Tree) (cacheDir : ℕ → Option Bytes) (name : Bytes) : Tree.Key → Prop
  | .version b => ∃ p c n, t.store.loaded cacheDir b = .ok p ∧ p.manifest.node c = some n ∧
    n.parent = p.manifest.root ∧ p.manifest.name c = name
  | .node b idx => ∃ p c n, t.store.loaded cacheDir b = .ok p ∧ p.manifest.node c = some n ∧
    n.parent = idx ∧ p.manifest.name c = name
  | _ => False

/-- The name of `e` is UTF-8, or no other name is spelled the way `e` is shown
and no entry before `e` is shown like it. -/
def Recognised (t : Tree) (cacheDir : ℕ → Option Bytes) (k : Tree.Key) (es : List Entry)
    (e : Entry) : Prop :=
  utf8 (shownName e) = e.name ∨
    ¬ Named t cacheDir (utf8 (shownName e)) k ∧ ∃ before after, es = before ++ e :: after ∧
      ∀ f ∈ before, eqIgnoreAsciiCase (shownName f) (shownName e) = false

theorem name_ascii_of_shows {k : Tree.Key} {e : Entry} (h : Tree.Shows t cacheDir k e)
    (hk : ∀ m, Tree.nodeIndex m k = none) : ∃ name, (∀ c ∈ name, c.toNat < 0x80) ∧
      e.name = utf8 name := by
  cases h with
  | depot hx => exact ⟨_, fun c hc => (digitlike_decimal c hc).1, rfl⟩
  | version hx hb => exact ⟨_, fun c hc => (Index.name_ascii _ _ c hc).1, rfl⟩
  | latest hx htarget => exact ⟨_, Tree.ascii_of_all (by decide), rfl⟩
  | byDate hx => exact ⟨_, Tree.ascii_of_all (by decide), rfl⟩
  | dateLink hx hb => exact ⟨_, Index.link_ascii _ _, rfl⟩
  | @node k b m i c hm hb hi hkey hc =>
    have hindex := Tree.nodeIndex_nodeKey (b := b) (m := m) i
    rw [hkey, hk m] at hindex
    cases hindex

/-! Only manifests have names that are not ASCII. -/

section Nodes
variable {k : Tree.Key} {es : List Entry} {b : ℕ}

theorem entriesOf_children (hk : Tree.OfManifest b k) (hes : t.entriesOf cacheDir k = .ok es) :
    ∃ p dir, t.store.loaded cacheDir b = .ok p ∧ Tree.nodeIndex p.manifest k = some dir ∧
      es = (p.manifest.children dir).map (Tree.nodeEntry b p.manifest) := by
  obtain ⟨m, hm, hes⟩ := bind_eq_ok.mp (hk.entriesOf.symm.trans hes)
  obtain ⟨p, hp, rfl⟩ := Tree.manifestOf_eq_ok.mp hm
  obtain ⟨dir, hdir, hes⟩ := bind_eq_ok.mp hes
  split_ifs at hes
  cases hes
  exact ⟨p, dir, hp, ofOption_eq_ok.mp hdir, rfl⟩

theorem lookupOf_children (hk : Tree.OfManifest b k) {p : ParsedBlob}
    (hp : t.store.loaded cacheDir b = .ok p) {dir : UInt32}
    (hdir : Tree.nodeIndex p.manifest k = some dir) (name : Bytes) :
    t.lookupOf cacheDir k name =
      .ok ((p.manifest.childByName dir name).map (Tree.nodeKey b p.manifest)) := by
  rw [hk.lookupOf, Tree.manifestOf_eq_ok.mpr ⟨p, hp, rfl⟩, ok_bind, Tree.nodeLookup, hdir]
  rfl

theorem named_iff (hk : Tree.OfManifest b k) {p : ParsedBlob}
    (hp : t.store.loaded cacheDir b = .ok p) {dir : UInt32}
    (hdir : Tree.nodeIndex p.manifest k = some dir) (hne : dir ≠ NO_NODE) (name : Bytes) :
    Named t cacheDir name k ↔ (p.manifest.childByName dir name).isSome := by
  have hsearch := Tree.manifestOf_searchable (Tree.manifestOf_eq_ok.mpr ⟨p, hp, rfl⟩)
  have hnamed : Named t cacheDir name k ↔
      ∃ c n, p.manifest.node c = some n ∧ n.parent = dir ∧ p.manifest.name c = name := by
    rcases hk with rfl | ⟨idx, rfl⟩
    · cases hdir
      simp [Named, hp]
    · cases hdir
      simp [Named, hp]
  rw [hnamed]
  constructor
  · intro ⟨c, n, hn, hparent, hname⟩
    exact Manifest.childByName_isSome hsearch hne hn hparent hname
  · intro hsome
    obtain ⟨c, hc⟩ := Option.isSome_iff_exists.mp hsome
    obtain ⟨⟨n, hn, hparent⟩, hname, -⟩ := (Manifest.childByName_eq_some hsearch hne).mp hc
    exact ⟨c, n, hn, hparent, hname⟩

end Nodes

theorem resolve_nodeKey (b : ℕ) (m : Manifest) (c : UInt32) :
    resolve t (Tree.nodeKey b m c) = Tree.nodeKey b m c := by
  unfold Tree.nodeKey
  split_ifs
  · rfl
  · rfl

theorem eqIgnoreAsciiCase_refl (s : Str) : eqIgnoreAsciiCase s s = true := by
  simp [eqIgnoreAsciiCase]

theorem find_shown {es : List Entry} {e : Entry} :
    es.find? (fun f => eqIgnoreAsciiCase (shownName f) (shownName e)) = some e ↔
      ∃ before after, es = before ++ e :: after ∧
        ∀ f ∈ before, eqIgnoreAsciiCase (shownName f) (shownName e) = false := by
  rw [List.find?_eq_some_iff_append]
  simp [eqIgnoreAsciiCase_refl]

theorem key_of_not_utf8 {k : Tree.Key} {es : List Entry} {e : Entry}
    (hes : t.entriesOf cacheDir k = .ok es) (he : e ∈ es) (hvalid : utf8 (shownName e) ≠ e.name) :
    ∃ b, Tree.OfManifest b k := by
  have ascii (hk : Tree.Placed t cacheDir k) (hnode : ∀ m, Tree.nodeIndex m k = none) : False := by
    obtain ⟨name, hname, heq⟩ := name_ascii_of_shows (Tree.shows_of_mem hk hes he) hnode
    apply hvalid
    rw [shownName, heq, fromUtf8Lossy_utf8 hname]
  cases k with
  | root => exact (ascii trivial fun _ => rfl).elim
  | depot d => exact (ascii trivial fun _ => rfl).elim
  | byDate d => exact (ascii trivial fun _ => rfl).elim
  | latest d => cases hes
  | dateLink b => cases hes
  | version b => exact ⟨b, Or.inl rfl⟩
  | node b idx => exact ⟨b, Or.inr ⟨idx, rfl⟩⟩

theorem componentOf_shown {k : Tree.Key} {es : List Entry} {e : Entry}
    (hes : t.entriesOf cacheDir k = .ok es) (he : e ∈ es)
    (hself : t.lookupOf cacheDir k e.name = .ok (some e.key)) :
    resolve t <$> componentOf t cacheDir k (shownName e) = .ok (resolve t e.key) ↔
      Recognised t cacheDir k es e := by
  by_cases hvalid : utf8 (shownName e) = e.name
  · refine iff_of_true ?_ (Or.inl hvalid)
    rw [componentOf, hvalid, hself]
    rfl
  obtain ⟨b, hk⟩ := key_of_not_utf8 hes he hvalid
  obtain ⟨p, dir, hp, hdir, rfl⟩ := entriesOf_children hk hes
  obtain ⟨c, hc, rfl⟩ := List.mem_map.mp he
  have hsearch := Tree.manifestOf_searchable (Tree.manifestOf_eq_ok.mpr ⟨p, hp, rfl⟩)
  obtain ⟨n, hn, -⟩ := Tree.isDir_of_mem_children hc
  have hne := Tree.node_ne_noNode hsearch hn
  have hnamed := named_iff hk hp hdir hne (utf8 (shownName (Tree.nodeEntry b p.manifest c)))
  rw [Recognised, or_iff_right hvalid, hnamed, componentOf, lookupOf_children hk hp hdir, ok_bind]
  cases hlook : p.manifest.childByName dir (utf8 (shownName (Tree.nodeEntry b p.manifest c))) with
  | some c' =>
    -- a node that really has the replacement characters in its name
    refine iff_of_false (fun hfound => ?_) fun hfree => hfree.1 rfl
    obtain ⟨-, hname, -⟩ := (Manifest.childByName_eq_some hsearch hne).mp hlook
    have hkey : resolve t (Tree.nodeKey b p.manifest c') =
        resolve t (Tree.nodeKey b p.manifest c) := Outcome.ok.inj hfound
    rw [resolve_nodeKey, resolve_nodeKey] at hkey
    rw [Tree.nodeKey_injective hkey] at hname
    exact hvalid hname.symm
  | none =>
    rw [and_iff_right (by simp), Option.map_none, hes, ok_bind, ← find_shown]
    have hkeys : ∀ f ∈ (p.manifest.children dir).map (Tree.nodeEntry b p.manifest),
        resolve t f.key = resolve t (Tree.nodeKey b p.manifest c) →
          f = Tree.nodeEntry b p.manifest c := by
      intro f hf hkey
      obtain ⟨c', -, rfl⟩ := List.mem_map.mp hf
      dsimp only [Tree.nodeEntry] at hkey
      rw [resolve_nodeKey, resolve_nodeKey] at hkey
      rw [Tree.nodeKey_injective hkey]
    dsimp only
    cases hfind : List.find? (fun f => eqIgnoreAsciiCase (shownName f)
        (shownName (Tree.nodeEntry b p.manifest c)))
        ((p.manifest.children dir).map (Tree.nodeEntry b p.manifest)) with
    | none => simp
    | some f =>
      rw [map_ok, Outcome.ok.injEq, Option.some.injEq]
      constructor
      · intro hkey
        exact hkeys f (List.mem_of_find?_eq_some hfind) hkey
      · intro hf
        rw [hf]

/-- The path of a directory followed by a name it shows opens that entry,
exactly when the name is recognised. -/
theorem resolvePath_shown_iff {k : Tree.Key} {p : List UInt16} {s s' : Store} {es : List Entry}
    {e : Entry} (hs : t.Visited cacheDir s) (hp : ((resolvePath t p).run s).1 = .ok k)
    (hes : ((t.entries k).run s).1 = .ok es) (hplain : Plain t cacheDir k es) (he : e ∈ es)
    (hs' : t.Visited cacheDir s') :
    ((resolvePath t (p ++ 0x5c :: utf16 (shownName e))).run s').1 = .ok (resolve t e.key) ↔
      Recognised t cacheDir k es e := by
  have hself := hplain.self e he s hs
  rw [Tree.lookup_run hs] at hself
  rw [Tree.entries_run hs] at hes
  have hslash : '\\' ∉ shownName e := by
    intro hmem
    exact hplain.noBackslash e he (mem_of_mem_lossy (by decide) hmem)
  have hnil : shownName e ≠ [] := shownName_ne (by simp) (hplain.nonempty e he)
  have hdot := shownName_ne (Tree.ascii_of_all (by decide)) (hplain.noDot e he)
  have hdots := shownName_ne (Tree.ascii_of_all (by decide)) (hplain.noDots e he)
  have hanswers := resolvePath_append hs.loads hp hnil hslash hdot hdots
  rw [hanswers.run hs'.loads]
  exact componentOf_shown hes he hself

/-! ### Two names that are not UTF-8 -/

section Accents

/-- One version with two files whose names are the single bytes E9 and E8. -/
def accentsImage : VersionImage where
  manifest := Manifest.plainImage
    [⟨0, 2, NO_FILE, 0, NO_NODE, 0, 1⟩, ⟨1, 4, 7, 0, 0, 2, 0⟩, ⟨3, 4, 7, 0, 0, 0, 0⟩]
    [0, 0xe9, 0, 0xe8, 0]
  records := [wholeRecord]
  datCrc := 5
  datSize := 4
  prev := none

def accents : Tree where
  store := MemoryDump.dump ⟨[("5_1_000000aa_x.blob".toList, accentsImage.encode)],
    [("5_1_00000005_x.dat".toList, [1, 2, 3, 4])], .empty, .plain⟩

def accentsStore : Store := Store.new accents.store fun _ => none

def accentsPath : List UInt16 := utf16 "\\5\\1".toList

def accentsEntries : List Entry := [⟨[0xe9], .node 0 1, .file⟩, ⟨[0xe8], .node 0 2, .file⟩]

def accentsManifest : Manifest :=
  ⟨4, 0, 0, 0, 0, [⟨0, 2, NO_FILE, 0, NO_NODE, 0, 1⟩, ⟨1, 4, 7, 0, 0, 2, 0⟩, ⟨3, 4, 7, 0, 0, 0, 0⟩],
    [0, 0xe9, 0, 0xe8, 0], [0, 1, 1], [2, 1]⟩

set_option maxRecDepth 20000 in
theorem accents_manifest : accents.manifestOf (fun _ => none) 0 = .ok accentsManifest := by
  decide +kernel

theorem accents_lookup (name : Bytes) : accents.lookupOf (fun _ => none) (.version 0) name =
    .ok ((accentsManifest.childByName 0 name).map (Tree.nodeKey 0 accentsManifest)) :=
  Tree.lookupOf_nodeKey accents_manifest 0 name

theorem accents_entries :
    ((accents.entries (.version 0)).run accentsStore).1 = .ok accentsEntries := by
  have hentries : accents.entriesOf (fun _ => none) (Tree.nodeKey 0 accentsManifest 0) =
      .ok accentsEntries := by
    rw [Tree.entriesOf_nodeKey accents_manifest]
    decide +kernel
  have hrun : ((accents.entries (.version 0)).run accentsStore).1 =
      accents.entriesOf (fun _ => none) (.version 0) := Tree.entries_run .new _
  exact hrun.trans hentries

theorem accents_path :
    ((resolvePath accents accentsPath).run accentsStore).1 = .ok (.version 0) := by
  decide +kernel

theorem accents_plain : Plain accents (fun _ => none) (.version 0) accentsEntries where
  distinct := by decide
  nonempty := by decide
  noDot := by decide +kernel
  noDots := by decide +kernel
  noBackslash := by decide
  self := by
    have hlook : ∀ e ∈ accentsEntries, (accentsManifest.childByName 0 e.name).map
        (Tree.nodeKey 0 accentsManifest) = some e.key := by decide +kernel
    intro e he s hs
    rw [Tree.lookup_run hs, accents_lookup, hlook e he]

/-- The first of the two opens itself. -/
theorem accents_first_opens : ((resolvePath accents
    (accentsPath ++ 0x5c :: utf16 (shownName ⟨[0xe9], .node 0 1, .file⟩))).run accentsStore).1 =
      .ok (.node 0 1) := by
  refine (resolvePath_shown_iff .new accents_path accents_entries accents_plain
    (List.mem_cons_self ..) .new).mpr (Or.inr ⟨?_, [], _, rfl, by simp⟩)
  obtain ⟨p, hp, hmanifest⟩ := Tree.manifestOf_eq_ok.mp accents_manifest
  rw [named_iff (Or.inl rfl) hp rfl (by rw [hmanifest]; decide), hmanifest]
  decide +kernel

set_option maxRecDepth 20000 in
/-- Both files are shown as one replacement character, and the path of the
second opens the first. -/
theorem accents_second_misses :
    ((resolvePath accents accentsPath).run accentsStore).1 = .ok (.version 0) ∧
      ((accents.entries (.version 0)).run accentsStore).1 = .ok accentsEntries ∧
      Plain accents (fun _ => none) (.version 0) accentsEntries ∧
      ⟨[0xe8], .node 0 2, .file⟩ ∈ accentsEntries ∧
      ((resolvePath accents
        (accentsPath ++ 0x5c :: utf16 (shownName ⟨[0xe8], .node 0 2, .file⟩))).run accentsStore).1 ≠
          .ok (resolve accents (.node 0 2)) := by
  have hfirst : ((resolvePath accents (accentsPath ++ 0x5c ::
      utf16 (shownName ⟨[0xe8], .node 0 2, .file⟩))).run accentsStore).1 = .ok (.node 0 1) := by
    decide +kernel
  refine ⟨accents_path, accents_entries, accents_plain, by decide, ?_⟩
  rw [hfirst]
  decide

end Accents

end WinFs
end Steam2Fs
