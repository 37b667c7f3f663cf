import Steam2Fs.Fuse

/-!
# What the calls of the frontend do to its tables

Two tables outlive the calls: the numbers of inodes and the listings of open
directories. Every call keeps them sound, and changes them only by giving out
new numbers and by releasing the one handle it names. The listing that a call
builds is the one the dump determines, whatever was asked before.
-/

namespace Steam2Fs.Fuse
open Outcome Text

/-! ### The tables -/

namespace Inodes

def Sound (inodes : Inodes) : Prop := ∀ key n, inodes.byKey key = some n → inodes.key n = some key

theorem intern_keeps {inodes : Inodes} (key : Tree.Key) {n : ℕ} {k : Tree.Key}
    (h : inodes.key n = some k) : (inodes.intern key).2.key n = some k := by
  unfold intern
  cases inodes.byKey key with
  | some m => exact h
  | none =>
    cases n with
    | zero => cases h
    | succ n =>
      have hlt := (List.getElem?_eq_some_iff.mp h).1
      exact (List.getElem?_append_left hlt).trans h

theorem intern_key {inodes : Inodes} (hs : inodes.Sound) (key : Tree.Key) :
    (inodes.intern key).2.key (inodes.intern key).1 = some key := by
  unfold intern
  cases hkey : inodes.byKey key with
  | some n => exact hs key n hkey
  | none => exact List.getElem?_concat_length

theorem intern_sound {inodes : Inodes} (hs : inodes.Sound) (key : Tree.Key) :
    (inodes.intern key).2.Sound := by
  intro k n hk
  by_cases hkey : k = key ∧ inodes.byKey key = none
  · obtain ⟨rfl, hnone⟩ := hkey
    have hself := intern_key hs k
    have hn : (inodes.intern k).1 = n := by
      unfold intern at hk ⊢
      rw [hnone] at hk ⊢
      dsimp only at hk ⊢
      rw [Function.update_self] at hk
      exact Option.some.inj hk
    rwa [hn] at hself
  · refine intern_keeps key (hs k n ?_)
    unfold intern at hk
    cases hold : inodes.byKey key with
    | some m => rwa [hold] at hk
    | none =>
      rw [hold] at hk
      dsimp only at hk
      rwa [Function.update_of_ne fun heq => hkey ⟨heq, hold⟩] at hk

theorem new_sound : Inodes.new.Sound :=
  intern_sound (fun _ _ h => by cases h) _

end Inodes

def Holds (fh : ℕ) (entries : List DirItem) (s : FsState) : Prop :=
  s.dirs.opened fh = some entries ∧ fh ≤ s.dirs.next

/-- What every call keeps: numbers lead back to keys, and no handle is open
that was not given out. -/
structure Tables (s : FsState) : Prop where
  inodes : s.inodes.Sound
  handles : ∀ fh, s.dirs.opened fh ≠ none → fh ≤ s.dirs.next

def FsInv (f : Frontend) (cacheDir : ℕ → Option Bytes) (s : FsState) : Prop :=
  f.tree.store.Loads cacheDir s.store ∧ Tables s

/-- What a call may do to the tables, when it leaves the handles of `keep` alone. -/
structure Steady (keep : ℕ → Prop) (s s' : FsState) : Prop where
  inodes : ∀ n k, s.inodes.key n = some k → s'.inodes.key n = some k
  next : s.dirs.next ≤ s'.dirs.next
  holds : ∀ fh, keep fh → ∀ entries, Holds fh entries s → Holds fh entries s'

namespace Steady
variable {keep : ℕ → Prop} {s s' s'' : FsState}

theorem refl (s : FsState) : Steady keep s s := ⟨fun _ _ h => h, le_rfl, fun _ _ _ h => h⟩

theorem trans (h : Steady keep s s') (h' : Steady keep s' s'') : Steady keep s s'' :=
  ⟨fun n k hk => h'.inodes n k (h.inodes n k hk), h.next.trans h'.next,
    fun fh hfh entries he => h'.holds fh hfh entries (h.holds fh hfh entries he)⟩

theorem mono {keep' : ℕ → Prop} (h : Steady keep s s') (hsub : ∀ fh, keep' fh → keep fh) :
    Steady keep' s s' :=
  ⟨h.inodes, h.next, fun fh hfh => h.holds fh (hsub fh hfh)⟩

theorem of_store (s : FsState) (store : Store) : Steady keep s { s with store := store } :=
  ⟨fun _ _ h => h, le_rfl, fun _ _ _ h => h⟩

theorem of_intern (s : FsState) (key : Tree.Key) :
    Steady keep s { s with inodes := (s.inodes.intern key).2 } :=
  ⟨fun _ _ h => Inodes.intern_keeps key h, le_rfl, fun _ _ _ h => h⟩

theorem of_openDir (s : FsState) (entries : List DirItem) :
    Steady keep s (Frontend.openDir entries s) := by
  refine ⟨fun _ _ h => h, Nat.le_succ _, fun fh _ held hheld => ⟨?_, ?_⟩⟩
  · have hne : fh ≠ s.dirs.next + 1 := by
      have := hheld.2
      omega
    exact (Function.update_of_ne hne _ _).trans hheld.1
  · exact Nat.le_succ_of_le hheld.2

theorem of_closeDir (s : FsState) (fh : ℕ) :
    Steady (fun fh' => fh' ≠ fh) s (Frontend.closeDir fh s) := by
  refine ⟨fun _ _ h => h, le_rfl, fun fh' hne held hheld => ⟨?_, hheld.2⟩⟩
  exact (Function.update_of_ne hne _ _).trans hheld.1

end Steady

theorem fsInv_new (f : Frontend) (cacheDir : ℕ → Option Bytes) :
    FsInv f cacheDir (FsState.new f cacheDir) :=
  ⟨.new, Inodes.new_sound, fun _ h => absurd rfl h⟩

/-! ### What calls keep -/

/-- An invariant of the store, and sound tables. -/
def WithTables (J : Store → Prop) (s : FsState) : Prop := J s.store ∧ Tables s

/-- The calls of the tree that the table calls make keep `J`. -/
structure TreeSafe (t : Tree) (J : Store → Prop) : Prop where
  metaOf : ∀ key, (t.metaOf key).Safe J
  entries : ∀ key, (t.entries key).Safe J
  parent : ∀ key, (t.parent key).Safe J
  lookup : ∀ dir name, (t.lookup dir name).Safe J

namespace WithTables
variable {f : Frontend} {J : Store → Prop}

theorem ofTree_keeps {α : Type} {x : Tree.TreeCall α} {Q : Outcome Tree.TreeError α → Prop}
    (hx : x.Keeps J Q) :
    (ofTree x).Keeps (WithTables J) fun r => ∃ r', Q r' ∧ r = r'.mapErr errno := by
  have hzoom : (Proc.zoom FsState.store (fun s t => { t with store := s }) x).Keeps
      (WithTables J) Q := by
    refine Proc.Keeps.zoom hx (fun _ _ => rfl) fun _ t ht => ?_
    exact ⟨ht.inodes, ht.handles⟩
  exact Call.Keeps.mapErr hzoom fun r hr => ⟨r, hr, rfl⟩

theorem ofTree_answers {α : Type} {x : Tree.TreeCall α} {r : Outcome Tree.TreeError α}
    (hx : x.Answers J r) : (ofTree x).Answers (WithTables J) (r.mapErr errno) := by
  refine (ofTree_keeps hx).mono fun r' hr' => ?_
  obtain ⟨r'', rfl, rfl⟩ := hr'
  rfl

theorem intern_safe (key : Tree.Key) : (intern key).Safe (WithTables J) :=
  Call.safe_atomic fun _ hs => ⟨hs.1, Inodes.intern_sound hs.2.inodes key, hs.2.handles⟩

theorem ino_safe (key : Tree.Key) : (ino key).Safe (WithTables J) := by
  refine Call.Safe.bind (Call.safe_atomic fun s hs => hs) fun o => ?_
  cases o with
  | some n => exact Call.safe_pure _
  | none => exact intern_safe key

theorem keyOf_safe (n : ℕ) : (keyOf n).Safe (WithTables J) :=
  Call.Safe.bind (Call.safe_atomic fun _ hs => hs) fun _ => Call.safe_lift _

theorem attrFor_safe (ht : TreeSafe f.tree J) (key : Tree.Key) :
    (f.attrFor key).Safe (WithTables J) := by
  refine (ofTree_keeps (ht.metaOf key)).safe.bind fun info => ?_
  exact (ino_safe key).bind fun _ => Call.safe_pure _

theorem dirEntries_safe (ht : TreeSafe f.tree J) (key : Tree.Key) :
    (f.dirEntries key).Safe (WithTables J) := by
  refine (ofTree_keeps (ht.entries key)).safe.bind fun children => ?_
  exact (ofTree_keeps (ht.parent key)).safe.bind fun _ => Call.safe_pure _

theorem dirList_safe (ht : TreeSafe f.tree J) (n fh : ℕ) :
    (f.dirList n fh).Safe (WithTables J) := by
  refine Call.Safe.bind (Call.safe_atomic fun _ hs => hs) fun o => ?_
  cases o with
  | some list => exact Call.safe_pure _
  | none => exact (keyOf_safe n).bind fun key => dirEntries_safe ht key

theorem plainRow_safe (i : ℕ) (item : DirItem) :
    (Frontend.plainRow i item).Safe (WithTables J) :=
  (ino_safe item.key).bind fun _ => Call.safe_pure _

theorem plusRow_safe (ht : TreeSafe f.tree J) (i : ℕ) (item : DirItem) :
    (f.plusRow i item).Safe (WithTables J) := by
  refine (ino_safe item.key).bind fun n => ?_
  refine (Call.Safe.attempt (attrFor_safe ht item.key)).bind fun r => ?_
  cases r with
  | ok a => exact Call.safe_pure _
  | error e => exact Call.safe_pure _

end WithTables

theorem fill_safe {row : ℕ → DirItem → FsCall Row} {I : FsState → Prop}
    (hrow : ∀ i item, (row i item).Safe I) (full : List Row → Row → Bool)
    (items : List (DirItem × ℕ)) (rows : List Row) :
    (Frontend.fill row full items rows).Safe I := by
  induction items generalizing rows with
  | nil => exact Call.safe_pure _
  | cons item rest ih =>
    refine (hrow _ _).bind fun r => ?_
    split_ifs
    · exact Call.safe_pure _
    · exact ih _

namespace WithTables
variable {f : Frontend} {J : Store → Prop}

theorem readPage_safe (ht : TreeSafe f.tree J) {row : ℕ → DirItem → FsCall Row}
    (hrow : ∀ i item, (row i item).Safe (WithTables J)) (n fh offset : ℕ)
    (full : List Row → Row → Bool) :
    (f.readPage row n fh offset full).Safe (WithTables J) := by
  refine (dirList_safe ht n fh).bind fun entries => ?_
  exact (fill_safe hrow full _ _).bind fun _ => Call.safe_pure _

theorem openDir {s : FsState} (hs : WithTables J s) (entries : List DirItem) :
    WithTables J (Frontend.openDir entries s) := by
  refine ⟨hs.1, hs.2.inodes, fun fh hfh => ?_⟩
  by_cases hnew : fh = s.dirs.next + 1
  · exact hnew.le
  · have hold : s.dirs.opened fh ≠ none := by
      intro hnone
      exact hfh ((Function.update_of_ne hnew _ _).trans hnone)
    exact Nat.le_succ_of_le (hs.2.handles fh hold)

theorem closeDir {s : FsState} (hs : WithTables J s) (fh : ℕ) :
    WithTables J (Frontend.closeDir fh s) := by
  refine ⟨hs.1, hs.2.inodes, fun fh' hfh' => hs.2.handles fh' fun hnone => hfh' ?_⟩
  by_cases heq : fh' = fh
  · subst heq
    exact Function.update_self ..
  · exact (Function.update_of_ne heq _ _).trans hnone

theorem prog_keeps (ht : TreeSafe f.tree J) (op : FsOp) :
    (op.prog f).Keeps (WithTables J) fun _ => True := by
  cases op with
  | lookup parent name =>
    refine Call.Safe.bind (keyOf_safe parent) fun pkey => ?_
    refine (ofTree_keeps (ht.lookup pkey name)).safe.bind fun o => ?_
    cases o with
    | some k => exact (attrFor_safe ht k).bind fun _ => Call.safe_pure _
    | none => exact Call.safe_lift _
  | getattr n =>
    refine Call.Safe.bind (keyOf_safe n) fun key => ?_
    exact (attrFor_safe ht key).bind fun _ => Call.safe_pure _
  | opendir n =>
    refine Call.Safe.bind (keyOf_safe n) fun key => ?_
    refine (dirEntries_safe ht key).bind fun entries => ?_
    exact Call.safe_atomic fun s hs => openDir hs entries
  | readdir n fh offset full => exact readPage_safe ht plainRow_safe n fh offset full
  | readdirplus n fh offset full => exact readPage_safe ht (plusRow_safe ht) n fh offset full
  | releasedir n fh =>
    exact Call.Safe.bind (Call.safe_atomic fun s hs => closeDir hs fh) fun _ => Call.safe_pure _

end WithTables

section Keeps
variable {f : Frontend} {cacheDir : ℕ → Option Bytes}

theorem ofTree_keeps {α : Type} {x : Tree.TreeCall α} {Q : Outcome Tree.TreeError α → Prop}
    (hx : x.Keeps (f.tree.store.Loads cacheDir) Q) :
    (ofTree x).Keeps (FsInv f cacheDir) fun r => ∃ r', Q r' ∧ r = r'.mapErr errno :=
  WithTables.ofTree_keeps hx

theorem ofTree_answers {α : Type} {x : Tree.TreeCall α} {r : Outcome Tree.TreeError α}
    (hx : x.Answers (f.tree.store.Loads cacheDir) r) :
    (ofTree x).Answers (FsInv f cacheDir) (r.mapErr errno) :=
  WithTables.ofTree_answers hx

def parentOf (t : Tree) (cacheDir : ℕ → Option Bytes) : Tree.Key → Outcome Tree.TreeError Tree.Key
  | .root | .depot _ | .byDate _ | .latest _ | .dateLink _ => .ok .root
  | .version b => do
    let e ← t.store.blob b
    .ok (.depot e.depot)
  | .node b idx => do
    match ← (t.manifestOf cacheDir b).attempt with
    | .ok m => .ok (match m.node idx with
      | none => .version b
      | some n => Tree.nodeKey b m n.parent)
    | .error _ => .ok (.version b)

theorem parent_answers (t : Tree) (key : Tree.Key) :
    (t.parent key).Answers (t.store.Loads cacheDir) (parentOf t cacheDir key) := by
  cases key with
  | root => exact Call.answers_pure _
  | depot d => exact Call.answers_pure _
  | byDate d => exact Call.answers_pure _
  | latest d => exact Call.answers_pure _
  | dateLink b => exact Call.answers_pure _
  | version b => exact (Call.answers_lift _).bind fun _ _ => Call.answers_pure _
  | node b idx =>
    refine (Call.Answers.attempt (Tree.manifest_answers b)).bind fun r _ => ?_
    cases r with
    | ok m => exact Call.answers_pure _
    | error e => exact Call.answers_pure _

/-- The listing that the dump determines: `.`, `..`, then the children. -/
def dirEntriesOf (f : Frontend) (cacheDir : ℕ → Option Bytes) (key : Tree.Key) :
    Outcome Errno (List DirItem) := do
  let children ← (f.tree.entriesOf cacheDir key).mapErr errno
  let parent ← (parentOf f.tree cacheDir key).mapErr errno
  .ok (Frontend.listing key parent children)

theorem dirEntries_answers (key : Tree.Key) :
    (f.dirEntries key).Answers (FsInv f cacheDir) (dirEntriesOf f cacheDir key) := by
  refine (ofTree_answers (Tree.entries_answers key)).bind fun children _ => ?_
  refine (ofTree_answers (parent_answers f.tree key)).bind fun parent _ => ?_
  exact Call.answers_pure _

theorem treeSafe_loads (t : Tree) : TreeSafe t (t.store.Loads cacheDir) where
  metaOf := fun key => (Tree.metaOf_kind key).safe
  entries := fun key => (Tree.entries_answers key).safe
  parent := fun key => (parent_answers t key).safe
  lookup := fun dir name => (Tree.lookup_answers dir name).safe

theorem attrFor_safe (key : Tree.Key) : (f.attrFor key).Safe (FsInv f cacheDir) :=
  WithTables.attrFor_safe (treeSafe_loads f.tree) key

theorem openDir_inv {s : FsState} (hs : FsInv f cacheDir s) (entries : List DirItem) :
    FsInv f cacheDir (Frontend.openDir entries s) :=
  WithTables.openDir hs entries

theorem prog_keeps (op : FsOp) : (op.prog f).Keeps (FsInv f cacheDir) fun _ => True :=
  WithTables.prog_keeps (treeSafe_loads f.tree) op

end Keeps

/-! ### What calls leave alone -/

section Within
variable {f : Frontend} {keep : ℕ → Prop}

def FsOp.Releases (fh : ℕ) : FsOp → Prop
  | .releasedir _ fh' => fh' = fh
  | _ => False

theorem ofTree_within {α : Type} (x : Tree.TreeCall α) : (ofTree x).Within (Steady keep) :=
  Call.Within.mapErr (Proc.within_zoom (fun s t => Steady.of_store t s) x)

theorem read_within {α : Type} (g : FsState → α) :
    (Call.read g : FsCall α).Within (Steady keep) :=
  Call.within_atomic fun s => Steady.refl s

theorem ino_within (key : Tree.Key) : (ino key).Within (Steady keep) := by
  refine (read_within _).bind fun o => ?_
  cases o with
  | some n => exact Call.within_pure _
  | none => exact Call.within_atomic fun s => Steady.of_intern s key

theorem keyOf_within (n : ℕ) : (keyOf n).Within (Steady keep) :=
  (read_within _).bind fun _ => Call.within_lift _

theorem attrFor_within (key : Tree.Key) : (f.attrFor key).Within (Steady keep) :=
  (ofTree_within _).bind fun _ => (ino_within key).bind fun _ => Call.within_pure _

theorem dirEntries_within (key : Tree.Key) : (f.dirEntries key).Within (Steady keep) :=
  (ofTree_within _).bind fun _ => (ofTree_within _).bind fun _ => Call.within_pure _

theorem plainRow_within (i : ℕ) (item : DirItem) :
    (Frontend.plainRow i item).Within (Steady keep) :=
  (ino_within item.key).bind fun _ => Call.within_pure _

theorem plusRow_within (i : ℕ) (item : DirItem) : (f.plusRow i item).Within (Steady keep) := by
  refine (ino_within item.key).bind fun n => ?_
  refine (Call.Within.attempt (attrFor_within item.key)).bind fun r => ?_
  cases r with
  | ok a => exact Call.within_pure _
  | error e => exact Call.within_pure _

theorem fill_within {row : ℕ → DirItem → FsCall Row}
    (hrow : ∀ i item, (row i item).Within (Steady keep)) (full : List Row → Row → Bool)
    (items : List (DirItem × ℕ)) (rows : List Row) :
    (Frontend.fill row full items rows).Within (Steady keep) := by
  induction items generalizing rows with
  | nil => exact Call.within_pure _
  | cons item rest ih =>
    refine (hrow _ _).bind fun r => ?_
    split_ifs
    · exact Call.within_pure _
    · exact ih _

theorem readPage_within {row : ℕ → DirItem → FsCall Row}
    (hrow : ∀ i item, (row i item).Within (Steady keep)) (n fh offset : ℕ)
    (full : List Row → Row → Bool) : (f.readPage row n fh offset full).Within (Steady keep) := by
  have hlist : (f.dirList n fh).Within (Steady keep) := by
    refine (read_within _).bind fun o => ?_
    cases o with
    | some list => exact Call.within_pure _
    | none => exact (keyOf_within n).bind fun key => dirEntries_within key
  refine hlist.bind fun entries => ?_
  exact (fill_within hrow full _ _).bind fun _ => Call.within_pure _

theorem prog_within (op : FsOp) :
    (op.prog f).Within (Steady fun fh => ¬ op.Releases fh) := by
  cases op with
  | lookup parent name =>
    refine Call.Within.bind (keyOf_within parent) fun pkey => ?_
    refine (ofTree_within _).bind fun o => ?_
    cases o with
    | some k => exact (attrFor_within k).bind fun _ => Call.within_pure _
    | none => exact Call.within_lift _
  | getattr n =>
    refine Call.Within.bind (keyOf_within n) fun key => ?_
    exact (attrFor_within key).bind fun _ => Call.within_pure _
  | opendir n =>
    refine Call.Within.bind (keyOf_within n) fun key => ?_
    refine (dirEntries_within key).bind fun entries => ?_
    exact Call.within_atomic fun s => Steady.of_openDir s entries
  | readdir n fh offset full => exact readPage_within plainRow_within n fh offset full
  | readdirplus n fh offset full => exact readPage_within plusRow_within n fh offset full
  | releasedir n fh =>
    refine Call.Within.bind (Call.within_atomic fun s => ?_) fun _ => Call.within_pure _
    exact (Steady.of_closeDir s fh).mono fun fh' hne heq => hne heq.symm

end Within

end Steam2Fs.Fuse
