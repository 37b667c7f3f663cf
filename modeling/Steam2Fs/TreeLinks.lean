import Steam2Fs.TreeLookup

/-!
# Where the links of a depot lead

`latest` and the links below `by-date` hold the name of a version directory.
A caller that follows one looks the name up again, and a name map keeps one
blob for a name, so the version reached need not be the blob the link was made
for; it has the same depot, version and crc. A frontend without links opens
the blob itself.
-/

namespace Steam2Fs

namespace Index

def SameVersion (idx : Index) (b c : ℕ) : Prop :=
  ∃ e e', idx.blobs[b]? = some e ∧ idx.blobs[c]? = some e' ∧
    e.depot = e'.depot ∧ e.version = e'.version ∧ e.crc = e'.crc

end Index

namespace WinFs

/-- Symlinks become the thing they point at. -/
def resolve (t : Tree) (key : Tree.Key) : Tree.Key :=
  match key with
  | .latest d => ((t.store.index.latest d).map .version).getD key
  | .dateLink b => .version b
  | _ => key

end WinFs

namespace Tree
open Outcome Text

/-- Walks a path by name, keeping the directories passed on the way: `..` goes
back to the one before, whatever `parent` says of the key. -/
def follow (t : Tree) : List Key → List Str → TreeCall (Option Key)
  | [], _ => pure none
  | key :: _, [] => pure (some key)
  | key :: up, c :: cs =>
    if c = "..".toList then t.follow (if up = [] then [key] else up) cs
    else do
      match ← t.lookup key (utf8 c) with
      | none => pure none
      | some child => t.follow (child :: key :: up) cs

/-- A link's text, followed from the directory that holds the link. -/
def followLink (t : Tree) (dirs : List Key) (target : Str) : TreeCall (Option Key) :=
  t.follow dirs (target.splitOn '/')

section Depots
variable {t : Tree} {d : UInt32} {dep : Depot}

theorem sameVersion_iff (h : (d, dep) ∈ t.store.index.depots) {b c : ℕ} (hb : b ∈ dep.blobs)
    (hc : c ∈ dep.blobs) :
    t.store.index.SameVersion b c ↔ t.store.index.versionOf b = t.store.index.versionOf c ∧
      t.store.index.crcOf b = t.store.index.crcOf c := by
  have hfiled : t.store.index.Filed := Index.load_filed _ _
  obtain ⟨e, he, hd⟩ := hfiled _ h b hb
  obtain ⟨e', he', hd'⟩ := hfiled _ h c hc
  have hversion : t.store.index.versionOf b = e.version ∧ t.store.index.crcOf b = e.crc := by
    simp [Index.versionOf, Index.crcOf, he]
  have hversion' : t.store.index.versionOf c = e'.version ∧ t.store.index.crcOf c = e'.crc := by
    simp [Index.versionOf, Index.crcOf, he']
  rw [hversion.1, hversion.2, hversion'.1, hversion'.2]
  constructor
  · intro hsame
    obtain ⟨x, x', hx, hx', -, hv⟩ := hsame
    rw [he] at hx
    rw [he'] at hx'
    cases hx
    cases hx'
    exact hv
  · intro hv
    exact ⟨e, e', he, he', hd.trans hd'.symm, hv⟩

theorem name_eq_iff_sameVersion (h : (d, dep) ∈ t.store.index.depots) {b c : ℕ}
    (hb : b ∈ dep.blobs) (hc : c ∈ dep.blobs) :
    (t.store.index.namesOf dep.blobs b).1 = (t.store.index.namesOf dep.blobs c).1 ↔
      t.store.index.SameVersion b c := by
  rw [sameVersion_iff h hb hc]
  by_cases hbc : b = c
  · subst hbc
    simp
  · exact Index.name_eq_iff hb hc hbc

theorem nameOf_eq (h : (d, dep) ∈ t.store.index.depots) {b : ℕ} (hb : b ∈ dep.blobs) :
    dep.nameOf b = some (t.store.index.namesOf dep.blobs b).1 := by
  obtain ⟨dep₀, hfin⟩ := depot_finished h
  rw [Depot.nameOf, Index.nth_eq hfin (depot_nodup h) hb]
  rfl

theorem dateLinkOf_eq (h : (d, dep) ∈ t.store.index.depots) {b : ℕ} (hb : b ∈ dep.blobs) :
    dep.dateLinkOf b = some (t.store.index.namesOf dep.blobs b).2 := by
  obtain ⟨dep₀, hfin⟩ := depot_finished h
  rw [Depot.dateLinkOf, Index.nth_eq hfin (depot_nodup h) hb]
  rfl

theorem lookup_name (h : (d, dep) ∈ t.store.index.depots) {b : ℕ} (hb : b ∈ dep.blobs) :
    ∃ c ∈ dep.blobs, t.store.index.SameVersion c b ∧
      t.lookup (.depot d) (utf8 (t.store.index.namesOf dep.blobs b).1) =
        pure (some (.version c)) := by
  obtain ⟨dep₀, hfin⟩ := depot_finished h
  obtain ⟨c, hc, hlook, hname⟩ := Index.lookupName_name hfin hb
  refine ⟨c, hc, (name_eq_iff_sameVersion h hc hb).mp hname, ?_⟩
  have hascii : ∀ x ∈ (t.store.index.namesOf dep.blobs b).1, x.toNat < 0x80 :=
    fun x hx => (Index.name_ascii dep.blobs b x hx).1
  change pure (t.lookupInDepot d (fromUtf8Lossy (utf8 _))) = _
  rw [fromUtf8Lossy_utf8 hascii, lookupInDepot_name h, hlook]
  rfl

/-! A version name is one component of a path, and never `..`. -/

theorem digit_of_mem_name {bs : List ℕ} {b : ℕ} {x : Char}
    (hx : x ∈ (t.store.index.namesOf bs b).1) : x = '-' ∨ ∃ k < 16, x = k.digitChar := by
  have hdecimal {n : ℕ} (hx : x ∈ decimal n) : ∃ k < 16, x = k.digitChar := by
    obtain ⟨k, hk, hxk⟩ := digit_of_mem_toDigits (by norm_num) hx
    exact ⟨k, by omega, hxk⟩
  unfold Index.namesOf at hx
  dsimp only at hx
  split_ifs at hx
  · rcases List.mem_append.mp hx with hx | hx
    · exact Or.inr (hdecimal hx)
    rcases List.mem_cons.mp hx with hx | hx
    · exact Or.inl hx
    rcases List.mem_append.mp hx with hx | hx
    · exact Or.inr ⟨0, by norm_num, List.eq_of_mem_replicate hx⟩
    · exact Or.inr (digit_of_mem_toDigits (by norm_num) hx)
  · exact Or.inr (hdecimal hx)

theorem name_component {bs : List ℕ} {b : ℕ} {x : Char}
    (hx : x ∈ (t.store.index.namesOf bs b).1) : x ≠ '/' ∧ x ≠ '.' := by
  rcases digit_of_mem_name hx with rfl | ⟨k, hk, rfl⟩
  · decide
  · clear hx
    interval_cases k <;> decide

theorem name_ne_dots (bs : List ℕ) (b : ℕ) :
    (t.store.index.namesOf bs b).1 ≠ "..".toList := by
  intro h
  have hdot : '.' ∈ (t.store.index.namesOf bs b).1 := by
    rw [h]
    decide
  exact (name_component hdot).2 rfl

theorem followLink_name (h : (d, dep) ∈ t.store.index.depots) {b : ℕ} (hb : b ∈ dep.blobs)
    (up : List Key) :
    ∃ c ∈ dep.blobs, t.store.index.SameVersion c b ∧
      t.followLink (.depot d :: up) (t.store.index.namesOf dep.blobs b).1 =
        pure (some (.version c)) := by
  have hslash : '/' ∉ (t.store.index.namesOf dep.blobs b).1 := fun hx => (name_component hx).1 rfl
  obtain ⟨c, hc, hsame, hlook⟩ := lookup_name h hb
  refine ⟨c, hc, hsame, ?_⟩
  rw [followLink, List.splitOn_eq_singleton hslash, follow, if_neg (name_ne_dots dep.blobs b),
    hlook]
  rfl

theorem followLink_dots (name : Str) (up : List Key) :
    t.followLink (.byDate d :: .depot d :: up) ("../".toList ++ name) =
      t.followLink (.depot d :: up) name := by
  have hsplit : ("../".toList ++ name).splitOn '/' = "..".toList :: name.splitOn '/' := by
    change ("..".toList ++ '/' :: name).splitOn '/' = _
    exact List.splitOn_append_cons_self_of_not_mem (by decide) _
  rw [followLink, hsplit, follow, if_pos rfl, if_neg (List.cons_ne_nil _ _)]
  rfl

theorem linkTarget_dateLink (h : (d, dep) ∈ t.store.index.depots) {b : ℕ} (hb : b ∈ dep.blobs) :
    t.linkTarget (.dateLink b) =
      .ok (some ("../".toList ++ (t.store.index.namesOf dep.blobs b).1)) := by
  have hfiled : t.store.index.Filed := Index.load_filed _ _
  obtain ⟨e, he, hdepot⟩ := hfiled _ h b hb
  have hblob : (t.store.blob b : Outcome TreeError BlobEntry) = .ok e := by
    unfold Dump.blob
    rw [he]
  rw [linkTarget, hblob, ok_bind, hdepot, depot_eq_some h, Option.bind_eq_bind, Option.bind_some,
    nameOf_eq h hb]
  rfl

theorem linkTarget_latest (h : (d, dep) ∈ t.store.index.depots) {b : ℕ} (hb : b ∈ dep.blobs)
    (hlatest : t.store.index.latest d = some b) :
    t.linkTarget (.latest d) = .ok (some (t.store.index.namesOf dep.blobs b).1) := by
  rw [linkTarget, hlatest, depot_eq_some h, Option.bind_eq_bind, Option.bind_some,
    Option.bind_eq_bind, Option.bind_some, nameOf_eq h hb]

end Depots

/-! ### Names and links identify versions -/

/-- What the names of a depot's blobs say about them. A link is followed from
the directory it is in, by a caller that came to it from the root. -/
structure Identified (t : Tree) (d : UInt32) (dep : Depot) : Prop where
  name : ∀ b ∈ dep.blobs, ∀ c ∈ dep.blobs,
    dep.nameOf b = dep.nameOf c ↔ t.store.index.SameVersion b c
  link : ∀ b ∈ dep.blobs, ∀ c ∈ dep.blobs, dep.dateLinkOf b = dep.dateLinkOf c ↔
    t.store.index.SameVersion b c ∧ t.store.index.stampOf b = t.store.index.stampOf c
  apart : ∀ b ∈ dep.blobs, ∃ name, dep.nameOf b = some name ∧
    name ≠ "latest".toList ∧ name ≠ "by-date".toList
  latest : ∃ b ∈ dep.blobs, t.store.index.latest d = some b ∧
    WinFs.resolve t (.latest d) = .version b ∧
    ∃ target c, t.linkTarget (.latest d) = .ok (some target) ∧
      t.followLink [.depot d, .root] target = pure (some (.version c)) ∧
      t.store.index.SameVersion c b
  dateLink : ∀ b ∈ dep.blobs, WinFs.resolve t (.dateLink b) = .version b ∧
    ∃ target c, t.linkTarget (.dateLink b) = .ok (some target) ∧
      t.followLink [.byDate d, .depot d, .root] target = pure (some (.version c)) ∧
      t.store.index.SameVersion c b

theorem name_reserved (t : Tree) (bs : List ℕ) (b : ℕ) :
    (t.store.index.namesOf bs b).1 ≠ "latest".toList ∧
      (t.store.index.namesOf bs b).1 ≠ "by-date".toList := by
  obtain ⟨x, xs, hname, hl, hb⟩ := t.store.index.name_head bs b
  rw [hname]
  constructor
  · intro heq
    exact hl (List.cons.inj heq).1
  · intro heq
    exact hb (List.cons.inj heq).1

/-- Every blob belongs to the depot of its number, and there its names identify
it up to depot, version and crc: links lead to that version, and so does the
key a frontend without links puts in their place. -/
theorem depots_identified (t : Tree) :
    (∀ b e, t.store.index.blobs[b]? = some e →
      ∃ dep, t.store.index.depot e.depot = some dep ∧ b ∈ dep.blobs) ∧
    ∀ d dep, t.store.index.depot d = some dep → Identified t d dep := by
  have hcat : t.store.index.Catalogued := Index.load_catalogued _ _
  refine ⟨fun b e he => ?_, fun d dep hdep => ?_⟩
  · obtain ⟨x, hx, hkey, hb⟩ := hcat.holds b e he
    refine ⟨x.2, ?_, hb⟩
    rw [← hkey]
    exact depot_eq_some hx
  have h : (d, dep) ∈ t.store.index.depots := Index.mem_of_lookup hdep
  have name_iff (b : ℕ) (hb : b ∈ dep.blobs) (c : ℕ) (hc : c ∈ dep.blobs) :=
    name_eq_iff_sameVersion h hb hc
  constructor
  · intro b hb c hc
    rw [nameOf_eq h hb, nameOf_eq h hc, Option.some.injEq]
    exact name_iff b hb c hc
  · intro b hb c hc
    rw [dateLinkOf_eq h hb, dateLinkOf_eq h hc, Option.some.injEq, Index.link_eq_iff,
      name_iff b hb c hc]
  · intro b hb
    exact ⟨_, nameOf_eq h hb, name_reserved t dep.blobs b⟩
  · obtain ⟨b, hb, hlatest⟩ := Index.latest_mem hdep (hcat.nonempty _ h)
    obtain ⟨c, -, hsame, hfollow⟩ := followLink_name h hb [.root]
    refine ⟨b, hb, hlatest, ?_, _, c, linkTarget_latest h hb hlatest, hfollow, hsame⟩
    rw [WinFs.resolve, hlatest]
    rfl
  · intro b hb
    obtain ⟨c, -, hsame, hfollow⟩ := followLink_name h hb [.root]
    refine ⟨rfl, _, c, linkTarget_dateLink h hb, ?_, hsame⟩
    rw [followLink_dots]
    exact hfollow

end Tree
end Steam2Fs
