import Steam2Fs.FuseCalls

/-!
# Paging through open directories

An open handle keeps the listing that `opendir` built until it is released, and
the number of an inode keeps its key. Everything that calls of the frontend do
beside a reader leaves both alone, so each page that is read from a handle is
the next piece of its listing: it starts at the offset that was passed and is
empty only at the end.
-/

namespace Steam2Fs.Fuse
open Outcome Text

/-! ### What pages show -/

/-- The row shows the entry at its place of the listing, under an inode that
leads to the entry's key. -/
structure Shows (s : FsState) (item : DirItem × ℕ) (row : Row) : Prop where
  offset : row.offset = item.2 + 1
  name : row.name = item.1.name
  key : s.inodes.key row.ino = some item.1.key
  kind : ∀ k, row.detail = .inl k → k = item.1.kind

theorem Shows.steady {keep : ℕ → Prop} {s s' : FsState} (h : Steady keep s s')
    {items : List (DirItem × ℕ)} {rows : List Row} (hs : List.Forall₂ (Shows s) items rows) :
    List.Forall₂ (Shows s') items rows :=
  hs.imp fun _ _ hrow => ⟨hrow.offset, hrow.name, h.inodes _ _ hrow.key, hrow.kind⟩

section Ensures
variable {f : Frontend} {cacheDir : ℕ → Option Bytes} {keep : ℕ → Prop} {r s : FsState}

theorem ino_ensures (key : Tree.Key) :
    (ino key).Ensures (FsInv f cacheDir) (Steady keep)
      (fun _ s' o => ∃ n, o = .ok n ∧ s'.inodes.key n = some key) r s := by
  have hread : (Call.read fun s : FsState => s.inodes.byKey key : FsCall (Option ℕ)).Ensures
      (FsInv f cacheDir) (Steady keep)
      (fun _ s' o => ∃ m, o = .ok m ∧ ∀ n, m = some n → s'.inodes.key n = some key) r s :=
    Call.ensures_atomic fun s' hs' _ => ⟨hs', _, rfl, fun n hn => hs'.2.inodes key n hn⟩
  refine hread.bind (fun r' s' m hm => ?_) (fun _ _ _ h => ?_) fun _ _ h => ?_
  · obtain ⟨m', hm', hkey⟩ := hm
    cases hm'
    cases m with
    | some n => exact Call.ensures_done ⟨n, rfl, hkey n rfl⟩
    | none =>
      refine Call.ensures_atomic fun s' hs' _ => ?_
      refine ⟨⟨hs'.1, Inodes.intern_sound hs'.2.inodes key, hs'.2.handles⟩, _, rfl, ?_⟩
      exact Inodes.intern_key hs'.2.inodes key
  · obtain ⟨_, h, -⟩ := h
    cases h
  · obtain ⟨_, h, -⟩ := h
    cases h

def RowDone (item : DirItem × ℕ) (s : FsState) (o : Outcome Errno Row) : Prop :=
  o = .panic ∨ ∃ row, o = .ok row ∧ Shows s item row

theorem plainRow_ensures (i : ℕ) (item : DirItem) :
    (Frontend.plainRow i item).Ensures (FsInv f cacheDir) (Steady keep)
      (fun _ => RowDone (item, i)) r s := by
  refine (ino_ensures item.key).bind (fun r' s' n hn => ?_) (fun _ _ _ h => ?_) fun _ _ h => ?_
  · obtain ⟨n', hn', hkey⟩ := hn
    cases hn'
    refine Call.ensures_done (Or.inr ⟨_, rfl, rfl, rfl, hkey, fun k hk => ?_⟩)
    exact (Sum.inl.inj hk).symm
  · obtain ⟨_, h, -⟩ := h
    cases h
  · exact Or.inl rfl

theorem plusRow_ensures (i : ℕ) (item : DirItem) :
    (f.plusRow i item).Ensures (FsInv f cacheDir) (Steady keep)
      (fun _ => RowDone (item, i)) r s := by
  refine (ino_ensures item.key).bind (fun r' s' n hn => ?_) (fun _ _ _ h => ?_) fun _ _ h => ?_
  · obtain ⟨n', hn', hkey⟩ := hn
    cases hn'
    have hattr : ((f.attrFor item.key).attempt : FsCall (Except Errno FileAttr)).Ensures
        (FsInv f cacheDir) (Steady keep)
        (fun _ s' o => (∀ e, o ≠ .err e) ∧ s'.inodes.key n = some item.key) r' s' := by
      have hwithin : ((f.attrFor item.key).attempt : FsCall (Except Errno FileAttr)).Within
          (Steady keep) := Call.Within.attempt (attrFor_within item.key)
      refine Call.Ensures.frame ?_ hwithin (fun _ _ hsteady h => hsteady.inodes _ _ h)
        (fun _ _ hsteady h => hsteady.inodes _ _ h) hkey
      refine (Call.Keeps.attempt (attrFor_safe item.key) fun o _ => ?_).ensures r' s'
      cases o with
      | ok a => exact fun e h => by cases h
      | err e' => exact fun e h => by cases h
      | panic => exact fun e h => by cases h
    refine hattr.bind (fun r'' s'' a ha => ?_) (fun _ _ e h => absurd rfl (h.1 e))
      fun _ _ _ => Or.inl rfl
    cases a with
    | ok a =>
      refine Call.ensures_done (Or.inr ⟨_, rfl, rfl, rfl, ha.2, fun k hk => ?_⟩)
      cases hk
    | error e =>
      refine Call.ensures_done (Or.inr ⟨_, rfl, rfl, rfl, ha.2, fun k hk => ?_⟩)
      cases hk
  · obtain ⟨_, h, -⟩ := h
    cases h
  · exact Or.inl rfl

def PageDone (items : List (DirItem × ℕ)) (s : FsState) (rows : List Row) : Prop :=
  ∃ shown rest, items = shown ++ rest ∧ List.Forall₂ (Shows s) shown rows ∧
    (rows = [] → items = [])

theorem fill_ensures {row : ℕ → DirItem → FsCall Row}
    (hrow : ∀ i item r s, (row i item).Ensures (FsInv f cacheDir) (Steady keep)
      (fun _ => RowDone (item, i)) r s)
    (hwithin : ∀ i item, (row i item).Within (Steady keep)) {full : List Row → Row → Bool}
    (hfull : ∀ row, full [] row = false) {before items : List (DirItem × ℕ)} {rows : List Row}
    (hs : List.Forall₂ (Shows s) before rows) :
    (Frontend.fill row full items rows).Ensures (FsInv f cacheDir) (Steady keep)
      (fun _ s' o => o = .panic ∨ ∃ rows', o = .ok rows' ∧ PageDone (before ++ items) s' rows')
      r s := by
  induction items generalizing before rows r s with
  | nil =>
    refine Call.ensures_done (Or.inr ⟨rows, rfl, before, [], rfl, hs, fun hnil => ?_⟩)
    subst hnil
    cases hs
    rfl
  | cons item rest ih =>
    obtain ⟨item, i⟩ := item
    have hkept := (hrow i item r s).frame (F := fun s => List.Forall₂ (Shows s) before rows)
      (hwithin i item) (fun _ _ h => Shows.steady h) (fun _ _ h => Shows.steady h) hs
    refine hkept.bind (fun r' s' row' hdone => ?_) (fun _ _ e h => ?_) fun _ _ _ => Or.inl rfl
    · obtain ⟨hrow', hbefore⟩ := hdone
      rcases hrow' with h | ⟨row'', h, hshows⟩
      · cases h
      · cases h
        split_ifs with hstop
        · refine Call.ensures_done (Or.inr ⟨rows, rfl, before, (item, i) :: rest, rfl, hbefore,
            fun hnil => ?_⟩)
          subst hnil
          rw [hfull] at hstop
          cases hstop
        · have hnext := ih (r := r') (List.rel_append hbefore (.cons hshows .nil))
          rwa [List.append_assoc] at hnext
    · rcases h.1 with h | ⟨_, h, -⟩
      · cases h
      · cases h

theorem readPage_ensures {row : ℕ → DirItem → FsCall Row} {fh : ℕ}
    (hrow : ∀ i item r s, (row i item).Ensures (FsInv f cacheDir) (Steady (· = fh))
      (fun _ => RowDone (item, i)) r s)
    (hwithin : ∀ i item, (row i item).Within (Steady (· = fh))) {full : List Row → Row → Bool}
    (hfull : ∀ row, full [] row = false) {entries : List DirItem} (n offset : ℕ)
    (hs : Holds fh entries s) :
    (f.readPage row n fh offset full).Ensures (FsInv f cacheDir) (Steady (· = fh))
      (fun _ s' o => ∀ rows, o = .ok (.page rows) →
        PageDone (entries.zipIdx.drop offset) s' rows) r s := by
  have hlist : (f.dirList n fh).Ensures (FsInv f cacheDir) (Steady (· = fh))
      (fun _ _ o => o = .ok entries) r s := by
    have hread : (Call.read fun s : FsState => s.dirs.opened fh :
        FsCall (Option (List DirItem))).Ensures (FsInv f cacheDir) (Steady (· = fh))
        (fun _ _ o => o = .ok (some entries)) r s := by
      refine Call.ensures_atomic fun s' hs' hsteady => ⟨hs', ?_⟩
      exact congrArg _ (hsteady.holds fh rfl entries hs).1
    refine hread.bind (fun r' s' o ho => ?_) (fun _ _ _ h => by cases h) fun _ _ h => by cases h
    cases ho
    exact Call.ensures_done rfl
  refine hlist.bind (fun r' s' list h => ?_) (fun _ _ _ h => by cases h) fun _ _ h => by cases h
  cases h
  refine (fill_ensures hrow hwithin hfull .nil).bind (fun r'' s'' rows hrows => ?_)
    (fun _ _ _ _ rows' h => by cases h) fun _ _ _ rows' h => by cases h
  refine Call.ensures_done fun rows' h => ?_
  rcases hrows with hpanic | ⟨rows'', heq, hpage⟩
  · cases hpanic
  · cases h
    cases heq
    exact hpage

/-- What a call of `opendir` comes to: with its last action it takes the next
number and puts the listing of its inode under it. -/
def OpenDone (f : Frontend) (cacheDir : ℕ → Option Bytes) (n : ℕ) (r s : FsState)
    (o : Outcome Errno Reply) : Prop :=
  ∀ fh, o = .ok (.opened fh) → fh = r.dirs.next + 1 ∧ s.dirs.next = fh ∧
    ∃ key entries, s.inodes.key n = some key ∧ dirEntriesOf f cacheDir key = .ok entries ∧
      Holds fh entries s

theorem opendir_ensures (n : ℕ) :
    (f.opendir n).Ensures (FsInv f cacheDir) (Steady keep) (OpenDone f cacheDir n) r s := by
  have hkey : (keyOf n).Ensures (FsInv f cacheDir) (Steady keep)
      (fun _ s' o => ∀ key, o = .ok key → s'.inodes.key n = some key) r s := by
    have hread : (Call.read fun s : FsState => s.inodes.key n : FsCall (Option Tree.Key)).Ensures
        (FsInv f cacheDir) (Steady keep) (fun _ s' o => o = .ok (s'.inodes.key n)) r s :=
      Call.ensures_atomic fun s' hs' _ => ⟨hs', rfl⟩
    refine hread.bind (fun r' s' o ho => ?_) (fun _ _ _ h => by cases h) fun _ _ h => by cases h
    cases ho
    exact Call.ensures_done fun key hkey => ofOption_eq_ok.mp hkey
  refine hkey.bind (fun r' s' key hk => ?_) (fun _ _ _ _ fh h => by cases h)
    fun _ _ _ fh h => by cases h
  have hentries : (f.dirEntries key).Ensures (FsInv f cacheDir) (Steady keep)
      (fun _ s' o => o = dirEntriesOf f cacheDir key ∧ s'.inodes.key n = some key) r' s' := by
    have hwithin : (f.dirEntries key).Within (Steady keep) := dirEntries_within key
    exact ((dirEntries_answers key).ensures r' s').frame hwithin
      (fun _ _ hsteady h => hsteady.inodes _ _ h) (fun _ _ hsteady h => hsteady.inodes _ _ h)
      (hk key rfl)
  refine hentries.bind (fun r'' s'' entries he => ?_) (fun _ _ _ _ fh h => by cases h)
    fun _ _ _ fh h => by cases h
  refine Call.ensures_atomic fun s₁ hs₁ hsteady => ⟨openDir_inv hs₁ entries, fun fh hfh => ?_⟩
  cases hfh
  refine ⟨rfl, rfl, key, entries, hsteady.inodes _ _ he.2, he.1.symm, ?_, le_rfl⟩
  exact Function.update_self ..

end Ensures

/-! ### Reading a directory to its end -/

abbrev FsPool := Pool FsState FsOp (Outcome Errno Reply)

def Opens (n fh : ℕ) (p p' : FsPool) : Prop :=
  ∃ k update next, p.threads[k]? = some (.opendir n, .act update next) ∧
    next p.state = .done (.ok (.opened fh)) ∧
    p' = ⟨update p.state, p.threads.set k (.opendir n, next p.state)⟩

/-- The call asks for a page, of a size that lets the first row through. -/
def FsOp.Asks (fh offset : ℕ) : FsOp → Prop
  | .readdir _ fh' offset' full | .readdirplus _ fh' offset' full =>
    fh' = fh ∧ offset' = offset ∧ ∀ row, full [] row = false
  | _ => False

section Paging
variable (f : Frontend)

/-- Anything may happen but the release of the handle. -/
abbrev Meanwhile (fh : ℕ) : FsPool → FsPool → Prop :=
  Pool.Path (FsOp.prog f) fun op => ¬ op.Releases fh

/-- A call asks the handle for a page and comes back with it, at some time
between `p` and `p'`. -/
def PageRead (fh offset : ℕ) (page : List Row) (p p' : FsPool) : Prop :=
  ∃ mid op, Meanwhile f fh p mid ∧ op.Asks fh offset ∧
    Meanwhile f fh ⟨mid.state, mid.threads ++ [(op, op.prog f)]⟩ p' ∧
    p'.threads[mid.threads.length]? = some (op, .done (.ok (.page page)))

/-- Pages are read from the handle one after the other, each at the offset of
the last row before it; `rows` are their rows so far. -/
inductive Paging (fh : ℕ) (p₀ : FsPool) : ℕ → List Row → FsPool → Prop
  | start : Paging fh p₀ 0 [] p₀
  | page {offset : ℕ} {rows page : List Row} {last : Row} {p p' : FsPool}
      (h : Paging fh p₀ offset rows p) (hread : PageRead f fh offset page p p')
      (hlast : page.getLast? = some last) : Paging fh p₀ last.offset (rows ++ page) p'

end Paging

section Exact
variable {f : Frontend} {cacheDir : ℕ → Option Bytes} {n fh offset : ℕ} {entries : List DirItem}
  {p p' p₀ : FsPool} {rows page : List Row}

abbrev Guarded (f : Frontend) (cacheDir : ℕ → Option Bytes) (p : FsPool) : Prop :=
  p.Good (FsInv f cacheDir) fun op => Steady fun fh => ¬ op.Releases fh

theorem guarded_prog (op : FsOp) : (op.prog f).Keeps (FsInv f cacheDir) (fun _ => True) ∧
    (op.prog f).Within (Steady fun fh => ¬ op.Releases fh) :=
  ⟨prog_keeps op, prog_within op⟩

theorem Meanwhile.guarded (h : Meanwhile f fh p p') (hp : Guarded f cacheDir p) :
    Guarded f cacheDir p' :=
  Pool.Path.good guarded_prog h hp

theorem steady_of_not_releases {op : FsOp} (hop : ¬ op.Releases fh) (s s' : FsState)
    (h : Steady (fun fh => ¬ op.Releases fh) s s') : Steady (· = fh) s s' :=
  h.mono fun _ heq => heq ▸ hop

theorem Meanwhile.steady (h : Meanwhile f fh p p') (hp : Guarded f cacheDir p) :
    Steady (· = fh) p.state p'.state :=
  Pool.Path.along guarded_prog (fun _ hop => steady_of_not_releases hop) Steady.refl
    (fun _ _ _ => Steady.trans) h hp

theorem asks_ensures {op : FsOp} (hop : op.Asks fh offset) {s : FsState} (hs : Holds fh entries s) :
    (op.prog f).Ensures (FsInv f cacheDir) (Steady (· = fh))
      (fun _ s' o => ∀ rows, o = .ok (.page rows) → PageDone (entries.zipIdx.drop offset) s' rows)
      s s := by
  cases op with
  | readdir m fh' offset' full =>
    obtain ⟨rfl, rfl, hfull⟩ := hop
    exact readPage_ensures (fun i item _ _ => plainRow_ensures i item) plainRow_within hfull m _ hs
  | readdirplus m fh' offset' full =>
    obtain ⟨rfl, rfl, hfull⟩ := hop
    exact readPage_ensures (fun i item _ _ => plusRow_ensures i item) plusRow_within hfull m _ hs
  | lookup parent name => exact hop.elim
  | getattr m => exact hop.elim
  | opendir m => exact hop.elim
  | releasedir m fh' => exact hop.elim

theorem PageRead.next (h : PageRead f fh offset page p p') (hp : Guarded f cacheDir p)
    (hs : Holds fh entries p.state) :
    Guarded f cacheDir p' ∧ Steady (· = fh) p.state p'.state ∧
      PageDone (entries.zipIdx.drop offset) p'.state page := by
  obtain ⟨mid, op, hbefore, hop, hafter, hdone⟩ := h
  have hmid := hbefore.guarded hp
  have hsteady := hbefore.steady hp
  have hspawn : Pool.Move (FsOp.prog f) none mid
      ⟨mid.state, mid.threads ++ [(op, op.prog f)]⟩ := .spawn op
  have hstart := hspawn.good guarded_prog hmid
  have hunder : Pool.Underway (FsInv f cacheDir) (Steady (· = fh)) (fun _ s' o => ∀ rows,
      o = .ok (.page rows) → PageDone (entries.zipIdx.drop offset) s' rows) mid.threads.length op
      ⟨mid.state, mid.threads ++ [(op, op.prog f)]⟩ :=
    Pool.underway_spawned Steady.refl (asks_ensures hop (hsteady.holds fh rfl entries hs))
  have hend := Pool.Path.underway guarded_prog (fun _ h => steady_of_not_releases h) Steady.refl
    (fun _ _ _ => Steady.trans) hafter hstart hunder
  obtain ⟨r, s, hlast, hpage⟩ := hend.done hdone
  obtain ⟨shown, rest, hsplit, hshows, hempty⟩ := hpage page rfl
  exact ⟨hafter.guarded hstart, hsteady.trans (hafter.steady hstart), shown, rest, hsplit,
    Shows.steady hlast hshows, hempty⟩

theorem last_offset {shown rest : List (DirItem × ℕ)} {s : FsState} {last : Row}
    (hsplit : entries.zipIdx.drop offset = shown ++ rest)
    (hshows : List.Forall₂ (Shows s) shown page) (hlast : page.getLast? = some last) :
    last.offset = offset + page.length := by
  have hlen := hshows.length_eq
  have hpos : 0 < page.length := by
    cases page with
    | nil => cases hlast
    | cons _ _ => exact Nat.succ_pos _
  rw [List.getLast?_eq_getElem?, List.getElem?_eq_getElem (by omega)] at hlast
  have hrow := hshows.get (i := page.length - 1) (by omega) (by omega)
  have hitem : entries.zipIdx[offset + (page.length - 1)]? =
      some (shown.get ⟨page.length - 1, by omega⟩) := by
    rw [← List.getElem?_drop, hsplit, List.getElem?_append_left (by omega)]
    exact List.getElem?_eq_getElem _
  rw [List.getElem?_zipIdx, Option.map_eq_some_iff] at hitem
  obtain ⟨item, -, hitem⟩ := hitem
  have hrow' := hrow.offset
  rw [← hitem] at hrow'
  have hget : page.get ⟨page.length - 1, by omega⟩ = last := Option.some.inj hlast
  rw [hget] at hrow'
  omega

structure Progress (f : Frontend) (cacheDir : ℕ → Option Bytes) (fh : ℕ) (entries : List DirItem)
    (offset : ℕ) (rows : List Row) (p : FsPool) : Prop where
  guarded : Guarded f cacheDir p
  holds : Holds fh entries p.state
  offset : offset = rows.length
  shows : List.Forall₂ (Shows p.state) (entries.zipIdx.take rows.length) rows

theorem Progress.next (h : Progress f cacheDir fh entries offset rows p)
    (hread : PageRead f fh offset page p p') :
    Guarded f cacheDir p' ∧ Holds fh entries p'.state ∧
      List.Forall₂ (Shows p'.state) (entries.zipIdx.take (rows ++ page).length) (rows ++ page) ∧
      (page = [] ↔ rows.length = entries.length) ∧
      ∀ last, page.getLast? = some last → last.offset = (rows ++ page).length := by
  obtain ⟨hgood, hsteady, shown, rest, hsplit, hshows, hempty⟩ := hread.next h.guarded h.holds
  have hold := Shows.steady hsteady h.shows
  have hlen := h.shows.length_eq
  rw [List.length_take, List.length_zipIdx] at hlen
  have hcount := congrArg List.length hsplit
  rw [List.length_drop, List.length_zipIdx, List.length_append, hshows.length_eq] at hcount
  have htake : entries.zipIdx.take (rows ++ page).length =
      entries.zipIdx.take rows.length ++ shown := by
    rw [List.length_append, List.take_add, ← h.offset, hsplit, ← hshows.length_eq,
      List.take_left]
  refine ⟨hgood, hsteady.holds fh rfl entries h.holds, ?_, ⟨fun hnil => ?_, fun hfull => ?_⟩,
    fun last hlast => ?_⟩
  · rw [htake]
    exact List.rel_append hold hshows
  · have hdrop := congrArg List.length (hempty hnil)
    rw [List.length_drop, List.length_zipIdx, List.length_nil, h.offset] at hdrop
    omega
  · refine List.length_eq_zero_iff.mp ?_
    rw [h.offset] at hcount
    omega
  · rw [last_offset hsplit hshows hlast, h.offset, List.length_append]

theorem Paging.progress (h : Paging f fh p₀ offset rows p) (h₀ : Guarded f cacheDir p₀)
    (hs : Holds fh entries p₀.state) : Progress f cacheDir fh entries offset rows p := by
  induction h with
  | start => exact ⟨h₀, hs, rfl, .nil⟩
  | page _ hread hlast ih =>
    obtain ⟨hgood, hholds, hshows, -, hoffset⟩ := ih.next hread
    exact ⟨hgood, hholds, hoffset _ hlast, hshows⟩

theorem prog_opens (op : FsOp) (s : FsState) :
    (op.prog f).Ensures (FsInv f cacheDir) (Steady fun _ => False)
      (fun r s o => ∀ n, op = .opendir n → OpenDone f cacheDir n r s o) s s := by
  cases op with
  | opendir n =>
    refine Proc.Ensures.mono (opendir_ensures n) fun r s o ho m hm => ?_
    cases hm
    exact ho
  | _ => exact Proc.Ensures.mono ((prog_keeps _).ensures s s) fun _ _ _ _ n hn => by cases hn

section Reached
variable (hrun : Pool.Path (FsOp.prog f) (fun _ => True) ⟨FsState.new f cacheDir, []⟩ p)
include hrun

theorem path_guarded : Guarded f cacheDir p :=
  Pool.Path.good guarded_prog hrun (Pool.good_start (fsInv_new f cacheDir))

theorem path_underway {k : ℕ} {op : FsOp} {q : Proc FsState (Outcome Errno Reply)}
    (hk : p.threads[k]? = some (op, q)) :
    p.Underway (FsInv f cacheDir) (Steady fun _ => False)
      (fun r s o => ∀ n, op = .opendir n → OpenDone f cacheDir n r s o) k op :=
  Pool.Path.all_underway guarded_prog prog_opens
    (fun _ _ _ _ h => h.mono fun _ hf => hf.elim) Steady.refl (fun _ _ _ => Steady.trans)
    (fsInv_new f cacheDir) hrun hk

theorem opens_done {k : ℕ} {update : FsState → FsState}
    {next : FsState → Proc FsState (Outcome Errno Reply)} {o : Outcome Errno Reply}
    (hk : p.threads[k]? = some (.opendir n, .act update next)) (hnext : next p.state = .done o) :
    OpenDone f cacheDir n p.state (update p.state) o :=
  (path_underway hrun hk).last (path_guarded hrun).1 hk hnext n rfl

end Reached

/-- Thread `k` is a call of `opendir` that has answered the handle. -/
def Gave (p : FsPool) (k fh : ℕ) : Prop :=
  ∃ n, p.threads[k]? = some (.opendir n, .done (.ok (.opened fh)))

/-- The handles that were answered are numbers already taken, no two the same. -/
def Distinct (p : FsPool) : Prop :=
  (∀ k fh, Gave p k fh → fh ≤ p.state.dirs.next) ∧
    ∀ k k' fh, Gave p k fh → Gave p k' fh → k = k'

theorem gave_cases {who : Option FsOp}
    (hrun : Pool.Path (FsOp.prog f) (fun _ => True) ⟨FsState.new f cacheDir, []⟩ p)
    (hmove : Pool.Move (FsOp.prog f) who p p') :
    ∃ j, ∀ k fh, Gave p' k fh → Gave p k fh ∨
      k = j ∧ fh = p.state.dirs.next + 1 ∧ p'.state.dirs.next = fh := by
  cases hmove with
  | @spawn s ts op =>
    refine ⟨0, fun k fh hk => Or.inl ?_⟩
    obtain ⟨n, hk⟩ := hk
    refine ⟨n, ?_⟩
    by_cases hlt : k < ts.length
    · rwa [List.getElem?_append_left hlt] at hk
    · rw [List.getElem?_append_right (by omega), List.getElem?_singleton] at hk
      split_ifs at hk
      -- a call that has just started has not answered
      rw [Option.some.injEq, Prod.mk.injEq] at hk
      obtain ⟨rfl, hdone⟩ := hk
      cases hdone
  | @act s ts j op update next hj =>
    refine ⟨j, fun k fh hk => ?_⟩
    obtain ⟨n, hk⟩ := hk
    by_cases hjk : j = k
    · subst hjk
      rw [List.getElem?_set_self (List.getElem?_eq_some_iff.mp hj).1, Option.some.injEq,
        Prod.mk.injEq] at hk
      obtain ⟨rfl, hdone⟩ := hk
      obtain ⟨hfh, hnext, -⟩ := opens_done hrun hj hdone fh rfl
      exact Or.inr ⟨rfl, hfh, hnext⟩
    · rw [List.getElem?_set_ne hjk] at hk
      exact Or.inl ⟨n, hk⟩

theorem path_distinct
    (hrun : Pool.Path (FsOp.prog f) (fun _ => True) ⟨FsState.new f cacheDir, []⟩ p) :
    Distinct p := by
  induction hrun with
  | refl =>
    refine ⟨fun k fh hk => ?_, fun k k' fh hk => ?_⟩
    all_goals
      obtain ⟨n, hk⟩ := hk
      cases hk
  | tail hpath hstep ih =>
    obtain ⟨who, hmove, -⟩ := hstep
    obtain ⟨hle, huniq⟩ := ih
    have hgrow : Steady (fun _ => False) _ _ := hmove.along (path_guarded hpath)
      (fun _ _ _ _ h => h.mono fun _ hf => hf.elim) Steady.refl
    obtain ⟨j, hcases⟩ := gave_cases hpath hmove
    refine ⟨fun k fh hk => ?_, fun k k' fh hk hk' => ?_⟩
    · rcases hcases k fh hk with hold | ⟨-, -, hnext⟩
      · exact (hle k fh hold).trans hgrow.next
      · exact hnext.ge
    · rcases hcases k fh hk with hold | ⟨rfl, hfh, -⟩
      · rcases hcases k' fh hk' with hold' | ⟨rfl, hfh, -⟩
        · exact huniq k k' fh hold hold'
        · have := hle k fh hold
          omega
      · rcases hcases k' fh hk' with hold' | ⟨rfl, -, -⟩
        · have := hle k' fh hold'
          omega
        · rfl

/-- In every run the handles that `opendir` answers are distinct and not in use
when they are given. From then on, whatever other calls do until the handle is
released, the pages read from it one after the other show the listing of its
directory from the start and in order; a page is empty only at the end, and
then the rows are the whole listing. -/
theorem paging_exact (f : Frontend) (cacheDir : ℕ → Option Bytes) {p : FsPool}
    (hrun : Pool.Path (FsOp.prog f) (fun _ => True) ⟨FsState.new f cacheDir, []⟩ p) :
    (∀ k k' fh, Gave p k fh → Gave p k' fh → k = k') ∧
    ∀ n fh p₀, Opens n fh p p₀ → p.state.dirs.opened fh = none ∧
      ∃ key entries, p₀.state.inodes.key n = some key ∧
        dirEntriesOf f cacheDir key = .ok entries ∧
        ∀ offset rows p₁, Paging f fh p₀ offset rows p₁ →
          ∀ page p₂, PageRead f fh offset page p₁ p₂ →
            List.Forall₂ (Shows p₂.state) (entries.zipIdx.take (rows ++ page).length)
              (rows ++ page) ∧
            (page = [] ↔ rows.length = entries.length) ∧
            (page = [] → List.Forall₂ (Shows p₂.state) entries.zipIdx rows) := by
  refine ⟨(path_distinct hrun).2, fun n fh p₀ hopen => ?_⟩
  have hgood := path_guarded hrun
  obtain ⟨k, update, next, hk, hnext, rfl⟩ := hopen
  obtain ⟨hfh, -, key, entries, hkey, hentries, hholds⟩ := opens_done hrun hk hnext fh rfl
  have hmove : Pool.Move (FsOp.prog f) (some (.opendir n)) p
      ⟨update p.state, p.threads.set k (.opendir n, next p.state)⟩ := .act hk
  refine ⟨?_, key, entries, hkey, hentries, fun offset rows p₁ hpaging page p₂ hread => ?_⟩
  · by_contra hused
    have := hgood.1.2.handles fh hused
    omega
  · have hprogress := hpaging.progress (hmove.good guarded_prog hgood) hholds
    obtain ⟨-, -, hshows, hempty, -⟩ := hprogress.next hread
    refine ⟨hshows, hempty, fun hnil => ?_⟩
    rw [hnil, List.append_nil, hempty.mp hnil, ← List.length_zipIdx (l := entries) (i := 0),
      List.take_length] at hshows
    exact hshows

theorem pageRead_run {op : FsOp} (hop : op.Asks fh offset) {s : FsState}
    (hrun : (op.prog f).run p.state = (.ok (.page page), s)) :
    PageRead f fh offset page p ⟨s, p.threads ++ [(op, .done (.ok (.page page)))]⟩ := by
  have hstays : ¬ op.Releases fh := by
    cases op with
    | releasedir m fh' => exact hop.elim
    | _ => exact not_false
  have hpath : Meanwhile f fh ⟨p.state, p.threads ++ [(op, op.prog f)]⟩
      ⟨((op.prog f).run p.state).2, p.threads ++ [(op, .done ((op.prog f).run p.state).1)]⟩ :=
    Pool.path_run (c := op) hstays p.state p.threads (op.prog f)
  rw [hrun] at hpath
  exact ⟨p, op, .refl, hop, hpath, List.getElem?_concat_length⟩

end Exact

section Sample

def sample : Frontend := ⟨⟨twoVersions.dump⟩, 0, 0⟩

def two (rows : List Row) (_ : Row) : Bool := decide (2 ≤ rows.length)

def started : FsState := FsState.new sample fun _ => none

def depotRows : List Tree.Entry :=
  twoVersions.dump.index.depots.map fun e => ⟨utf8 (decimal e.1.toNat), .depot e.1, .dir⟩

def rootEntries : List DirItem := Frontend.listing .root .root depotRows

def rootOpened : FsState := Frontend.openDir rootEntries started

def opening : FsPool :=
  ⟨started, [(.opendir 1, Call.atomic fun s => (.opened (s.dirs.next + 1),
    Frontend.openDir rootEntries s))]⟩

def afterOpen : FsPool := ⟨rootOpened, [(.opendir 1, .done (.ok (.opened 1)))]⟩

theorem opening_reached : Pool.Path (FsOp.prog sample) (fun _ => True)
    ⟨FsState.new sample fun _ => none, []⟩ opening := by
  have hspawn : Pool.Move (FsOp.prog sample) none ⟨started, []⟩
      ⟨started, [(.opendir 1, FsOp.prog sample (.opendir 1))]⟩ := Pool.Move.spawn (FsOp.opendir 1)
  have hact := @Pool.Move.act _ _ _ (FsOp.prog sample) started
    [(FsOp.opendir 1, FsOp.prog sample (.opendir 1))] 0 (.opendir 1) _ _ rfl
  exact (Relation.ReflTransGen.single ⟨none, hspawn, fun _ _ => trivial⟩).tail
    ⟨_, hact, fun _ _ => trivial⟩

theorem opening_opens : Opens 1 1 opening afterOpen := ⟨0, _, _, rfl, rfl, rfl⟩

def firstPage : List Row :=
  [⟨1, 1, utf8 ".".toList, .inl .directory⟩, ⟨1, 2, utf8 "..".toList, .inl .directory⟩]

def secondPage : List Row := [⟨2, 3, utf8 "5".toList, .inl .directory⟩]

/-- The pool when `readdir` has read a page of two rows with nothing else going on. -/
def afterPage (offset : ℕ) (p : FsPool) : FsPool :=
  let answer := (FsOp.prog sample (.readdir 1 1 offset two)).run p.state
  ⟨answer.2, p.threads ++ [(.readdir 1 1 offset two, .done answer.1)]⟩

theorem sample_paging : Paging sample 1 afterOpen 3 (firstPage ++ secondPage)
    (afterPage 2 (afterPage 0 afterOpen)) := by
  have hasks (offset : ℕ) : (FsOp.readdir 1 1 offset two).Asks 1 offset :=
    ⟨rfl, rfl, fun _ => rfl⟩
  have hfirst : PageRead sample 1 0 firstPage afterOpen (afterPage 0 afterOpen) :=
    pageRead_run (hasks 0) rfl
  have hsecond : PageRead sample 1 2 secondPage (afterPage 0 afterOpen)
      (afterPage 2 (afterPage 0 afterOpen)) := pageRead_run (hasks 2) rfl
  have hone : Paging sample 1 afterOpen 2 firstPage (afterPage 0 afterOpen) :=
    Paging.start.page hfirst rfl
  exact hone.page hsecond rfl

theorem sample_pages : ∃ p₂ : FsPool, List.Forall₂ (Shows p₂.state) rootEntries.zipIdx
    (firstPage ++ secondPage) := by
  obtain ⟨-, key, entries, hkey, hentries, hpages⟩ :=
    (paging_exact sample (fun _ => none) opening_reached).2 1 1 afterOpen opening_opens
  cases hkey
  cases hentries
  have hasks : (FsOp.readdir 1 1 3 two).Asks 1 3 := ⟨rfl, rfl, fun _ => rfl⟩
  have hread : PageRead sample 1 3 [] (afterPage 2 (afterPage 0 afterOpen))
      (afterPage 3 (afterPage 2 (afterPage 0 afterOpen))) := pageRead_run hasks rfl
  exact ⟨_, (hpages 3 _ _ sample_paging [] _ hread).2.2 rfl⟩

end Sample

end Steam2Fs.Fuse
