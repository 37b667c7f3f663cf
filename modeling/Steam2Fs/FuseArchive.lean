import Steam2Fs.TreeArchive

/-!
# An archive behind a mount

Any number of threads make any calls of a mount over a dump that holds an
archive. Once an inode number has been given out it stands for one key, and
what a call answers about it from then on is what the archive says of that key:
a read gives the bytes that were packed, the metadata their number, and the
attributes are those of the key, whether or not the shortcut for other
namespaces is taken.
-/

namespace Steam2Fs.Fuse
open Outcome Text

def MountOp.Asks (n : ℕ) : MountOp → Prop
  | .call (.getattr n') => n' = n
  | .call _ => False
  | .readlink n' => n' = n
  | .openFile n' => n' = n
  | .read n' _ _ => n' = n
  | .getxattr n' _ _ => n' = n
  | .listxattr n' _ => n' = n

def seen (e : Tree.TreeError) : MountErrno := .call (errno e)

section Meaning
variable (f : Frontend) (cacheDir : ℕ → Option Bytes) (A : Archive f.tree.store.codec)

def Served (key : Tree.Key) : MountOp → Outcome MountErrno MountReply → Prop
  | .call (.getattr _), a => ∃ n, a = (fun info : Tree.Meta =>
      .call (.attr (f.attr n (fileType info.kind) info.size info.mtime))) <$>
        (f.tree.metaAt cacheDir A key).mapErr seen
  | .call _, _ => True
  | .readlink _, a => a = (f.tree.linkTarget key).mapErr seen >>= Frontend.linkReply
  | .openFile _, a => a = Frontend.openReply (some key)
  | .read _ offset size, a => offset.toNat + size.toNat < 2 ^ 64 →
      a = (fun y => .data (slice y.2.2.content offset.toNat (offset.toNat + size.toNat))) <$>
        (f.tree.placeOf cacheDir A key).mapErr seen
  | .getxattr _ name size, a => ∀ attrs, f.tree.xattrsOf cacheDir A key = .ok attrs →
      a = getSized attrs (fromUtf8Lossy name) size
  | .listxattr _ size, a => ∀ attrs, f.tree.xattrsOf cacheDir A key = .ok attrs →
      a = sized (nameList attrs) size

def MountInv : FsState → Prop := WithTables (f.tree.store.ServeInv cacheDir A)

end Meaning

/-- Nothing is promised of handles here: any of them may be released meanwhile. -/
def Onward : FsState → FsState → Prop := Steady fun _ => False

section Calls
variable {f : Frontend} {cacheDir : ℕ → Option Bytes} {A : Archive f.tree.store.codec}

theorem mountInv_new : MountInv f cacheDir A (FsState.new f cacheDir) :=
  ⟨.new, Inodes.new_sound, fun _ h => absurd rfl h⟩

theorem treeCall_keeps {α : Type} {x : Tree.TreeCall α} {Q : Outcome Tree.TreeError α → Prop}
    (hx : x.Keeps (f.tree.store.ServeInv cacheDir A) Q) :
    (treeCall x).Keeps (MountInv f cacheDir A) fun r => ∃ r', Q r' ∧ r = r'.mapErr seen := by
  refine Call.Keeps.mapErr (WithTables.ofTree_keeps hx) fun r hr => ?_
  obtain ⟨r', hr', rfl⟩ := hr
  refine ⟨r', hr', ?_⟩
  cases r' with
  | ok a => rfl
  | err e => rfl
  | panic => rfl

theorem treeCall_answers {α : Type} {x : Tree.TreeCall α} {r : Outcome Tree.TreeError α}
    (hx : x.Answers (f.tree.store.ServeInv cacheDir A) r) :
    (treeCall x).Answers (MountInv f cacheDir A) (r.mapErr seen) := by
  refine (treeCall_keeps hx).mono fun r' hr' => ?_
  obtain ⟨r'', rfl, rfl⟩ := hr'
  rfl

theorem treeCall_within {α : Type} (x : Tree.TreeCall α) {keep : ℕ → Prop} :
    (treeCall x).Within (Steady keep) :=
  Call.Within.mapErr (ofTree_within x)

theorem keyCall_safe (n : ℕ) : (keyCall n).Safe (MountInv f cacheDir A) :=
  Call.Safe.bind (Call.safe_atomic fun _ hs => hs) fun _ => Call.safe_lift _

theorem keyCall_within (n : ℕ) {keep : ℕ → Prop} : (keyCall n).Within (Steady keep) :=
  Call.Within.bind (Call.within_atomic fun s => Steady.refl s) fun _ => Call.within_lift _

theorem key_ensures {ε : Type} {e : ε} {n : ℕ} {key : Tree.Key} {I : FsState → Prop}
    {r s : FsState} (hs : s.inodes.key n = some key) :
    ((Call.read fun s => s.inodes.key n) >>= fun k => Call.lift (ofOption e k) :
      Call FsState ε Tree.Key).Ensures I Onward (fun _ _ o => o = .ok key) r s := by
  have hread : (Call.read fun s : FsState => s.inodes.key n :
      Call FsState ε (Option Tree.Key)).Ensures I Onward
      (fun _ _ o => o = .ok (some key)) r s :=
    Call.ensures_atomic fun s' hs' hsteady => ⟨hs', congrArg _ (hsteady.inodes _ _ hs)⟩
  refine hread.bind (fun r' s' o ho => ?_) (fun _ _ _ h => by cases h) fun _ _ h => by cases h
  cases ho
  exact Call.ensures_done rfl

section Archive
variable (h : f.tree.store.Packed cacheDir A) (hbounded : f.tree.store.Bounded cacheDir)
include h hbounded

theorem readAt_keeps (key : Tree.Key) (n : ℕ) (offset : UInt64) (size : UInt32) :
    (treeCall (f.tree.locate key) >>= fun loc =>
      treeCall (f.tree.read loc offset size.toUInt64) >>= fun bytes =>
        pure (MountReply.data bytes) : MountCall MountReply).Keeps (MountInv f cacheDir A)
      (Served f cacheDir A key (.read n offset size)) := by
  have hlocate := treeCall_answers (Tree.locate_place h hbounded key)
  have hsize : size.toUInt64.toNat = size.toNat := UInt32.toNat_toUInt64 size
  cases hplace : f.tree.placeOf cacheDir A key with
  | err e =>
    rw [hplace] at hlocate
    refine (hlocate.bind (g := fun _ => .panic) fun loc hloc => by cases hloc).mono ?_
    rintro a rfl _
    rw [hplace]
    rfl
  | panic =>
    rw [hplace] at hlocate
    refine (hlocate.bind (g := fun _ => .panic) fun loc hloc => by cases hloc).mono ?_
    rintro a rfl _
    rw [hplace]
    rfl
  | ok y =>
    rw [hplace] at hlocate
    obtain ⟨hb, hx⟩ := Tree.mem_of_place h hplace
    by_cases hsum : offset.toNat + size.toNat < 2 ^ 64
    · have hread := treeCall_answers (Tree.read_serves h hb hx offset _ (hsize ▸ hsum))
      have hdata : (treeCall (f.tree.read (A.loc y.1 y.2) offset size.toUInt64) >>= fun bytes =>
          pure (MountReply.data bytes) : MountCall MountReply).Answers (MountInv f cacheDir A)
          (.ok (.data (slice y.2.2.content offset.toNat
            (offset.toNat + size.toUInt64.toNat)))) :=
        hread.after (Call.answers_pure _)
      refine (hlocate.after hdata).mono ?_
      rintro a rfl _
      rw [hplace, hsize]
      rfl
    · have hread := (treeCall_keeps (Tree.read_serves_safe h hb hx offset size.toUInt64)).safe
      refine Call.Keeps.bind hlocate (fun loc hloc => ?_) (fun _ he => by cases he)
        fun hp => by cases hp
      cases hloc
      exact (hread.bind fun _ => Call.safe_pure _).mono fun _ _ hlt => absurd hlt hsum

theorem xattrs_keeps {key : Tree.Key} {g : List Tree.Attr → Outcome MountErrno MountReply} :
    (treeCall (f.tree.xattrs key) >>= fun attrs => Call.lift (g attrs)).Keeps
      (MountInv f cacheDir A) fun a =>
        ∀ attrs, f.tree.xattrsOf cacheDir A key = .ok attrs → a = g attrs := by
  refine ((treeCall_answers (Tree.xattrs_serves h hbounded key)).bind
    fun attrs _ => Call.answers_lift (g attrs)).mono ?_
  rintro a rfl attrs hattrs
  rw [hattrs]
  rfl

omit h hbounded in
theorem ino_keeps (key : Tree.Key) :
    (ino key).Keeps (MountInv f cacheDir A) fun o => ∃ n, o = .ok n := by
  refine Call.Keeps.bind (Q := fun o => ∃ b, o = .ok b)
    (Call.keeps_atomic fun s hs => ⟨hs, _, rfl⟩) (fun o _ => ?_)
    (fun _ he => by obtain ⟨b, hb⟩ := he; cases hb) fun hp => by obtain ⟨b, hb⟩ := hp; cases hb
  cases o with
  | some n => exact Call.keeps_lift ⟨n, rfl⟩
  | none =>
    exact Call.keeps_atomic fun s hs =>
      ⟨⟨hs.1, Inodes.intern_sound hs.2.inodes key, hs.2.handles⟩, _, rfl⟩

theorem attrFor_keeps (key : Tree.Key) :
    (f.attrFor key).Keeps (MountInv f cacheDir A) fun a => ∃ n, a = (fun info : Tree.Meta =>
      f.attr n (fileType info.kind) info.size info.mtime) <$>
        (f.tree.metaAt cacheDir A key).mapErr errno := by
  refine Call.Keeps.bind (WithTables.ofTree_answers (Tree.metaOf_answers h hbounded key))
    (fun info hinfo => ?_) (fun e he => ⟨0, ?_⟩) fun hp => ⟨0, ?_⟩
  · refine (ino_keeps key).bind (fun n _ => ?_) (fun _ he => by obtain ⟨n, hn⟩ := he; cases hn)
      fun hp => by obtain ⟨n, hn⟩ := hp; cases hn
    exact Call.keeps_lift ⟨n, by rw [← hinfo]; rfl⟩
  · rw [← he]
    rfl
  · rw [← hp]
    rfl

/-! ### Every call -/

theorem mount_keeps (op : MountOp) :
    (op.prog f).Keeps (MountInv f cacheDir A) fun _ => True := by
  cases op with
  | call op =>
    exact Proc.Keeps.bind (WithTables.prog_keeps (Tree.treeSafe_serves h hbounded) op)
      fun _ _ => trivial
  | readlink n =>
    refine Call.Safe.bind (Call.safe_atomic fun _ hs => hs) fun o => ?_
    cases o with
    | some key => exact (Call.safe_lift _).bind fun _ => Call.safe_lift _
    | none => exact Call.safe_lift _
  | openFile n => exact Call.Safe.bind (Call.safe_atomic fun _ hs => hs) fun _ => Call.safe_lift _
  | read n offset size =>
    exact Call.Safe.bind (keyCall_safe n) fun key => (readAt_keeps h hbounded key n offset size).safe
  | getxattr n name size =>
    refine Call.Safe.bind (keyCall_safe n) fun key => ?_
    dsimp only
    split_ifs
    · exact (xattrs_keeps h hbounded).safe
    · exact Call.safe_lift _
  | listxattr n size =>
    exact Call.Safe.bind (keyCall_safe n) fun key => (xattrs_keeps h hbounded).safe

omit h hbounded in
theorem mount_within (op : MountOp) : (op.prog f).Within Onward := by
  have hstart {ε α : Type} (g : FsState → α) :
      (Call.read g : Call FsState ε α).Within (Steady fun _ => False) :=
    Call.within_atomic fun s => Steady.refl s
  cases op with
  | call op =>
    exact Proc.Within.bind ((prog_within op).mono fun _ _ hs => hs.mono fun _ hf => hf.elim)
      fun _ => trivial
  | readlink n =>
    refine Call.Within.bind (hstart _) fun o => ?_
    cases o with
    | some key => exact (Call.within_lift _).bind fun _ => Call.within_lift _
    | none => exact Call.within_lift _
  | openFile n => exact Call.Within.bind (hstart _) fun _ => Call.within_lift _
  | read n offset size =>
    exact Call.Within.bind (keyCall_within n) fun key =>
      (treeCall_within _).bind fun _ => (treeCall_within _).bind fun _ => Call.within_pure _
  | getxattr n name size =>
    refine Call.Within.bind (keyCall_within n) fun key => ?_
    dsimp only
    split_ifs
    · exact (treeCall_within _).bind fun _ => Call.within_lift _
    · exact Call.within_lift _
  | listxattr n size =>
    exact Call.Within.bind (keyCall_within n) fun key =>
      (treeCall_within _).bind fun _ => Call.within_lift _

theorem getattr_ensures {n : ℕ} {key : Tree.Key} {r s : FsState}
    (hs : s.inodes.key n = some key) :
    (f.getattr n).Ensures (MountInv f cacheDir A) Onward (fun _ _ a => ∃ k,
      a = (fun info : Tree.Meta =>
        Reply.attr (f.attr k (fileType info.kind) info.size info.mtime)) <$>
          (f.tree.metaAt cacheDir A key).mapErr errno) r s := by
  have hkey : (keyOf n).Ensures (MountInv f cacheDir A) Onward (fun _ _ o => o = .ok key) r s :=
    key_ensures hs
  refine hkey.bind (fun r' s' k hk => ?_) (fun _ _ _ he => by cases he) fun _ _ hp => by cases hp
  cases hk
  have hreply : (f.attrFor key >>= fun a => pure (.attr a) : FsCall Reply).Keeps
      (MountInv f cacheDir A) fun a => ∃ k, a = (fun info : Tree.Meta =>
        Reply.attr (f.attr k (fileType info.kind) info.size info.mtime)) <$>
          (f.tree.metaAt cacheDir A key).mapErr errno := by
    have hattr := attrFor_keeps h hbounded key
    cases hmeta : (f.tree.metaAt cacheDir A key).mapErr errno with
    | ok info =>
      rw [hmeta] at hattr
      refine hattr.bind (fun a ha => ?_) (fun e he => by obtain ⟨k, hk⟩ := he; cases hk)
        fun hp => by obtain ⟨k, hk⟩ := hp; cases hk
      obtain ⟨k, hk⟩ := ha
      cases hk
      exact Call.keeps_lift ⟨k, rfl⟩
    | err e =>
      rw [hmeta] at hattr
      refine hattr.bind (fun a ha => by obtain ⟨k, hk⟩ := ha; cases hk) (fun e he => ?_)
        fun hp => by obtain ⟨k, hk⟩ := hp; cases hk
      obtain ⟨k, hk⟩ := he
      cases hk
      exact ⟨k, rfl⟩
    | panic =>
      rw [hmeta] at hattr
      exact hattr.bind (fun a ha => by obtain ⟨k, hk⟩ := ha; cases hk)
        (fun e he => by obtain ⟨k, hk⟩ := he; cases hk) fun _ => ⟨0, rfl⟩
  exact hreply.ensures r' s'

omit h hbounded in
theorem getSized_other {attrs : List Tree.Attr} {key : Tree.Key} {wanted : Str}
    (hattrs : f.tree.xattrsOf cacheDir A key = .ok attrs)
    (hother : "user.steam2.".toList.isPrefixOf wanted ≠ true) (size : UInt32) :
    getSized attrs wanted size = .err .enodata := by
  have hnone : (attrs.find? fun a => a.1 = wanted) = none := by
    rw [List.find?_eq_none]
    intro a ha heq
    have hname := (Tree.xattrsWith_names hattrs).subset (List.mem_map_of_mem ha)
    have hprefix := (Tree.attrNames_plain _ hname).1
    rw [of_decide_eq_true heq] at hprefix
    exact hother hprefix
  unfold getSized
  rw [hnone]

theorem mount_ensures {n : ℕ} {key : Tree.Key} (op : MountOp) {s : FsState}
    (hs : s.inodes.key n = some key) :
    (op.prog f).Ensures (MountInv f cacheDir A) Onward
      (fun _ _ a => op.Asks n → Served f cacheDir A key op a) s s := by
  have hother : ¬ op.Asks n → (op.prog f).Ensures (MountInv f cacheDir A) Onward
      (fun _ _ a => op.Asks n → Served f cacheDir A key op a) s s := fun hnot =>
    ((mount_keeps h hbounded op).ensures s s).mono fun _ _ _ _ hop => absurd hop hnot
  have hkey {β : Type} {g : Tree.Key → MountCall β} {P : Outcome MountErrno β → Prop}
      (hg : (g key).Keeps (MountInv f cacheDir A) P) :
      (keyCall n >>= g).Ensures (MountInv f cacheDir A) Onward (fun _ _ a => P a) s s := by
    refine (key_ensures hs).bind (fun r' s' k hk => ?_) (fun _ _ _ he => by cases he)
      fun _ _ hp => by cases hp
    cases hk
    exact hg.ensures r' s'
  have hread {β : Type} {g : Option Tree.Key → MountCall β} {P : Outcome MountErrno β → Prop}
      (hg : (g (some key)).Keeps (MountInv f cacheDir A) P) :
      (Call.read (fun s => s.inodes.key n) >>= g).Ensures (MountInv f cacheDir A) Onward
        (fun _ _ a => P a) s s := by
    have hstart : (Call.read fun s : FsState => s.inodes.key n : MountCall (Option Tree.Key)).Ensures
        (MountInv f cacheDir A) Onward (fun _ _ o => o = .ok (some key)) s s :=
      Call.ensures_atomic fun s' hs' hsteady => ⟨hs', congrArg _ (hsteady.inodes _ _ hs)⟩
    refine hstart.bind (fun r' s' k hk => ?_) (fun _ _ _ he => by cases he) fun _ _ hp => by cases hp
    cases hk
    exact hg.ensures r' s'
  by_cases hop : op.Asks n
  · cases op with
    | call op =>
      cases op with
      | getattr n' =>
        cases hop
        refine Proc.Ensures.bind (getattr_ensures h hbounded hs) fun r' s' o ho _ => ?_
        obtain ⟨k, rfl⟩ := ho
        refine ⟨k, ?_⟩
        cases f.tree.metaAt cacheDir A key with
        | ok info => rfl
        | err e => rfl
        | panic => rfl
      | _ => exact hop.elim
    | readlink n' =>
      cases hop
      have htarget : (Call.lift ((f.tree.linkTarget key).mapErr seen) >>= fun target =>
          Call.lift (Frontend.linkReply target) : MountCall MountReply).Answers
          (MountInv f cacheDir A) ((f.tree.linkTarget key).mapErr seen >>= Frontend.linkReply) :=
        (Call.answers_lift _).bind fun _ _ => Call.answers_lift _
      refine (hread (P := fun a => a = (f.tree.linkTarget key).mapErr seen >>=
        Frontend.linkReply) ?_).mono fun _ _ _ ha _ => ha
      exact htarget
    | openFile n' =>
      cases hop
      have hreply : (Call.lift (Frontend.openReply (some key)) : MountCall MountReply).Answers
          (MountInv f cacheDir A) (Frontend.openReply (some key)) := Call.answers_lift _
      refine (hread (P := fun a => a = Frontend.openReply (some key)) ?_).mono
        fun _ _ _ ha _ => ha
      exact hreply
    | read n' offset size =>
      cases hop
      exact (hkey (readAt_keeps h hbounded key n offset size)).mono fun _ _ _ ha _ => ha
    | getxattr n' name size =>
      cases hop
      refine (hkey (P := fun a => ∀ attrs, f.tree.xattrsOf cacheDir A key = .ok attrs →
        a = getSized attrs (fromUtf8Lossy name) size) ?_).mono fun _ _ _ ha _ => ha
      dsimp only
      split_ifs with hprefix
      · exact xattrs_keeps h hbounded
      · exact Call.keeps_lift fun attrs hattrs => (getSized_other hattrs hprefix size).symm
    | listxattr n' size =>
      cases hop
      exact (hkey (xattrs_keeps h hbounded)).mono fun _ _ _ ha _ => ha
  · exact hother hop

end Archive

end Calls

/-! ### Runs -/

abbrev MountPool := Pool FsState MountOp (Outcome MountErrno MountReply)

def MountPath (f : Frontend) : MountPool → MountPool → Prop := Pool.Path (MountOp.prog f) fun _ => True

/-- In every run, with any calls in flight: what is answered to a call about an
inode that was known when it started is what the archive says of its key. -/
theorem served_of_run {f : Frontend} {cacheDir : ℕ → Option Bytes} {A : Archive f.tree.store.codec}
    (h : f.tree.store.Packed cacheDir A) (hbounded : f.tree.store.Bounded cacheDir)
    {p p' : MountPool} (hp : MountPath f ⟨FsState.new f cacheDir, []⟩ p) (hp' : MountPath f p p')
    {n : ℕ} {key : Tree.Key} (hkey : p.state.inodes.key n = some key) {k : ℕ} {op : MountOp}
    {a : Outcome MountErrno MountReply} (hlater : p.threads.length ≤ k)
    (hans : p'.threads[k]? = some (op, .done a)) (hop : op.Asks n) :
    Served f cacheDir A key op a := by
  have hprog : ∀ op : MountOp, (op.prog f).Keeps (MountInv f cacheDir A) (fun _ => True) ∧
      (op.prog f).Within Onward := fun op => ⟨mount_keeps h hbounded op, mount_within op⟩
  have htrans : ∀ s s' s'', Onward s s' → Onward s' s'' → Onward s s'' :=
    fun _ _ _ hs hs' => hs.trans hs'
  have hgood : p.Good (MountInv f cacheDir A) fun _ => Onward :=
    hp.good hprog (Pool.good_start mountInv_new)
  obtain ⟨r, s, -, hserved⟩ := (Pool.Path.later_underway hprog (fun _ _ _ _ hs => hs) Steady.refl
    htrans hgood (fun op s hs => mount_ensures h hbounded op (hs.inodes _ _ hkey)) hp' hlater
    hans).done hans
  exact hserved hop

/-- Calls answered after `p`, about what was known in `p`. -/
def AnsweredSince (p p' : MountPool) (op : MountOp) (a : Outcome MountErrno MountReply) : Prop :=
  ∃ k, p.threads.length ≤ k ∧ p'.threads[k]? = some (op, .done a)

/-! ### Files -/

/-- Answers that follow each other in the file, from `offset` on. -/
def Copies (reads : UInt64 → UInt32 → Bytes → Prop) : UInt64 → List (UInt32 × Bytes) → Prop
  | _, [] => True
  | offset, (size, bytes) :: rest =>
    reads offset size bytes ∧ Copies reads (offset + size.toUInt64) rest

def copied (answers : List (UInt32 × Bytes)) : ℕ := (answers.map fun x => x.1.toNat).sum

/-- The file is there: its metadata give its size, every read the bytes in its
range, and reads that follow each other up to that size, whenever each of them
was made, the whole file. -/
structure ServesFile (n : ℕ) (content : Bytes)
    (answered : MountOp → Outcome MountErrno MountReply → Prop) : Prop where
  getattr : ∀ a, answered (.call (.getattr n)) a → ∃ attr, a = .ok (.call (.attr attr)) ∧
    attr.kind = .regularFile ∧ attr.size.toNat = content.length
  openFile : ∀ a, answered (.openFile n) a → a = .ok .opened
  read : ∀ offset size a, answered (.read n offset size) a → offset.toNat + size.toNat < 2 ^ 64 →
    a = .ok (.data (slice content offset.toNat (offset.toNat + size.toNat)))
  copy : ∀ attr answers, answered (.call (.getattr n)) (.ok (.call (.attr attr))) →
    Copies (fun offset size bytes => answered (.read n offset size) (.ok (.data bytes))) 0
      answers → attr.size.toNat ≤ copied answers → copied answers < 2 ^ 64 →
    (answers.map Prod.snd).flatten = content

theorem copies_slice {reads : UInt64 → UInt32 → Bytes → Prop} {content : Bytes}
    (hreads : ∀ offset size bytes, reads offset size bytes → offset.toNat + size.toNat < 2 ^ 64 →
      bytes = slice content offset.toNat (offset.toNat + size.toNat))
    {answers : List (UInt32 × Bytes)} {offset : UInt64} (h : Copies reads offset answers)
    (hsum : offset.toNat + copied answers < 2 ^ 64) :
    (answers.map Prod.snd).flatten =
      slice content offset.toNat (offset.toNat + copied answers) := by
  induction answers generalizing offset with
  | nil =>
    have hnil : slice content offset.toNat offset.toNat = [] := by
      rw [← List.length_eq_zero_iff, slice_length, Nat.sub_self]
    exact hnil.symm
  | cons x rest ih =>
    obtain ⟨hread, hrest⟩ := h
    have htotal : copied (x :: rest) = x.1.toNat + copied rest := by
      unfold copied
      rw [List.map_cons, List.sum_cons]
    rw [htotal] at hsum
    have hnext : (offset + x.1.toUInt64).toNat = offset.toNat + x.1.toNat := by
      rw [UInt64.toNat_add, UInt32.toNat_toUInt64, Nat.mod_eq_of_lt (by omega)]
    rw [List.map_cons, List.flatten_cons, hreads _ _ _ hread (by omega),
      ih hrest (by rw [hnext]; omega), hnext, htotal, ← Nat.add_assoc]
    exact slice_append (Nat.le_add_right _ _) (Nat.le_add_right _ _)

theorem slice_whole {content : Bytes} {stop : ℕ} (h : content.length ≤ stop) :
    slice content 0 stop = content := by
  rw [slice, min_eq_right h, List.take_length, Nat.zero_min, List.drop_zero]

theorem mount_serves_files {f : Frontend} {cacheDir : ℕ → Option Bytes}
    {A : Archive f.tree.store.codec} (h : f.tree.store.Packed cacheDir A)
    (hbounded : f.tree.store.Bounded cacheDir) {p p' : MountPool}
    (hp : MountPath f ⟨FsState.new f cacheDir, []⟩ p) (hp' : MountPath f p p') {n : ℕ}
    {key : Tree.Key} (hkey : p.state.inodes.key n = some key) :
    (∀ y, f.tree.placeOf cacheDir A key = .ok y →
      ServesFile n y.2.2.content (AnsweredSince p p')) ∧
    ∀ e, f.tree.placeOf cacheDir A key = .err e → ∀ offset size a,
      AnsweredSince p p' (.read n offset size) a → offset.toNat + size.toNat < 2 ^ 64 →
        a = .err (.call (errno e)) := by
  have hserved : ∀ op a, AnsweredSince p p' op a → op.Asks n → Served f cacheDir A key op a := by
    rintro op a ⟨k, hlater, hans⟩ hop
    exact served_of_run h hbounded hp hp' hkey hlater hans hop
  constructor
  · intro y hy
    have hread : ∀ offset size a, AnsweredSince p p' (.read n offset size) a →
        offset.toNat + size.toNat < 2 ^ 64 →
          a = .ok (.data (slice y.2.2.content offset.toNat (offset.toNat + size.toNat))) := by
      intro offset size a ha hsum
      rw [hserved _ _ ha rfl hsum, hy]
      rfl
    have hgetattr : ∀ a, AnsweredSince p p' (.call (.getattr n)) a →
        ∃ attr, a = .ok (.call (.attr attr)) ∧ attr.kind = .regularFile ∧
          attr.size.toNat = y.2.2.content.length := by
      intro a ha
      obtain ⟨k, rfl⟩ := hserved _ _ ha rfl
      obtain ⟨hb, hx⟩ := Tree.mem_of_place h hy
      obtain ⟨date, hmeta⟩ := Tree.metaAt_place h hy
      rw [hmeta]
      exact ⟨_, rfl, rfl,
        UInt64.toNat_ofNat_of_lt' ((h.fits_placed hb hx).content_le.trans_lt (by decide))⟩
    refine ⟨hgetattr, fun a ha => ?_, hread, ?_⟩
    · have hopen := hserved _ _ ha rfl
      cases key with
      | node b idx => exact hopen
      | _ => cases hy
    · intro attr answers hattr hcopies hsize htotal
      obtain ⟨attr', heq, -, hlength⟩ := hgetattr _ hattr
      cases heq
      rw [copies_slice (fun offset size bytes hbytes hsum => ?_) hcopies (by
        rw [UInt64.toNat_zero]
        omega), UInt64.toNat_zero, Nat.zero_add]
      · exact slice_whole (by omega)
      · have hdata := hread _ _ _ hbytes hsum
        cases hdata
        rfl
  · intro e he offset size a ha hsum
    rw [hserved _ _ ha rfl hsum, he]
    rfl

section Sample

def mounted : Frontend := ⟨⟨packedVersions.dump⟩, 0, 0⟩

def mountCall (op : MountOp) (p : MountPool) : MountPool :=
  let answer := (op.prog mounted).run p.state
  ⟨answer.2, p.threads ++ [(op, .done answer.1)]⟩

def mountStart : MountPool := ⟨FsState.new mounted fun _ => none, []⟩

/-- The pool after a lookup of the file `a` of the second version. -/
def fileLooked : MountPool :=
  mountCall (.call (.lookup 3 [97])) (mountCall (.call (.lookup 2 [50]))
    (mountCall (.call (.lookup 1 [53])) mountStart))

theorem mountCall_path {p p' : MountPool} (h : MountPath mounted p p') (op : MountOp) :
    MountPath mounted p (mountCall op p') := Pool.Path.call (c := op) trivial h

theorem fileLooked_path : MountPath mounted mountStart fileLooked :=
  mountCall_path (mountCall_path (mountCall_path .refl _) _) _

set_option maxRecDepth 20000 in
theorem fileLooked_key : fileLooked.state.inodes.key 4 = some (.node 1 1) := by
  decide +kernel

set_option maxRecDepth 20000 in
theorem mounted_place : (fun y => (y.1, y.2.2.content)) <$>
    mounted.tree.placeOf (fun _ => none) packedArchive (.node 1 1) = .ok (1, [1, 2, 3, 4]) := by
  decide +kernel

theorem answered_mountCall (op : MountOp) (p : MountPool) :
    ∃ a, AnsweredSince p (mountCall op p) op a :=
  ⟨_, p.threads.length, le_rfl, List.getElem?_concat_length⟩

theorem mounted_serves_file : ∃ p, ServesFile 4 [1, 2, 3, 4] (AnsweredSince fileLooked p) ∧
    AnsweredSince fileLooked p (.read 4 1 5) (.ok (.data [2, 3, 4])) := by
  obtain ⟨y, hy, hcontent⟩ := map_eq_ok.mp mounted_place
  have hfile := (mount_serves_files (f := mounted) packedVersions_holds packedVersions_bounded
    fileLooked_path (mountCall_path .refl (.read 4 1 5)) fileLooked_key).1 y hy
  rw [show y.2.2.content = [1, 2, 3, 4] from congrArg Prod.snd hcontent] at hfile
  obtain ⟨a, ha⟩ := answered_mountCall (.read 4 1 5) fileLooked
  have hread := hfile.read 1 5 a ha (by decide)
  subst hread
  exact ⟨_, hfile, ha⟩

end Sample

/-! ### Attributes -/

/-- A caller gets the length when it leaves no room, the bytes when they fit,
and is told when they do not. -/
structure Fetched (bytes : Bytes) (size : UInt32) (a : Outcome MountErrno MountReply) : Prop where
  probe : size = 0 → ∃ k, a = .ok (.size k) ∧ k.toNat = bytes.length
  fits : size ≠ 0 → bytes.length ≤ size.toNat → a = .ok (.data bytes)
  short : size ≠ 0 → size.toNat < bytes.length → a = .err .erange

theorem sized_fetched {bytes : Bytes} (h : bytes.length < 2 ^ 32) (size : UInt32) :
    Fetched bytes size (sized bytes size) := by
  have hlen : (UInt32.ofNat bytes.length).toNat = bytes.length := UInt32.toNat_ofNat_of_lt' h
  unfold sized
  refine ⟨fun hzero => ?_, fun hne hle => ?_, fun hne hlt => ?_⟩
  · rw [if_pos hzero]
    exact ⟨_, rfl, hlen⟩
  · rw [if_neg hne, if_pos (UInt32.le_iff_toNat_le.mpr (hlen.symm ▸ hle))]
  · rw [if_neg hne, if_neg]
    rw [UInt32.le_iff_toNat_le, hlen]
    omega

theorem Fetched.data_eq {bytes list : Bytes} {size : UInt32}
    (h : Fetched bytes size (.ok (.data list))) : list = bytes := by
  by_cases hzero : size = 0
  · obtain ⟨k, hk, -⟩ := h.probe hzero
    cases hk
  · by_cases hfits : bytes.length ≤ size.toNat
    · cases h.fits hzero hfits
      rfl
    · cases h.short hzero (Nat.not_le.mp hfits)

theorem Fetched.found {bytes : Bytes} {size : UInt32} {a : Outcome MountErrno MountReply}
    (h : Fetched bytes size a) : a ≠ .err .enodata := by
  rintro rfl
  by_cases hzero : size = 0
  · obtain ⟨k, hk, -⟩ := h.probe hzero
    cases hk
  · by_cases hfits : bytes.length ≤ size.toNat
    · cases h.fits hzero hfits
    · cases h.short hzero (Nat.not_le.mp hfits)

theorem getSized_elim (attrs : List Tree.Attr) (wanted : Str) (size : UInt32) :
    getSized attrs wanted size = ((attrs.find? fun a => a.1 = wanted).elim (.err .enodata) fun a =>
      sized (utf8 a.2) size) := by
  unfold getSized
  cases attrs.find? fun a => a.1 = wanted <;> rfl

theorem find_of_nodup {α β : Type} [DecidableEq β] {g : α → β} {xs : List α}
    (h : (xs.map g).Nodup) {x : α} (hx : x ∈ xs) : (xs.find? fun y => g y = g x) = some x := by
  cases hfind : xs.find? fun y => g y = g x with
  | some y =>
    have heq : g y = g x := by simpa using List.find?_some hfind
    exact congrArg _ (List.inj_on_of_nodup_map h (List.mem_of_find?_eq_some hfind) hx heq)
  | none => exact absurd (decide_eq_true rfl) (List.find?_eq_none.mp hfind x hx)

def readNames (list : Bytes) : List Bytes := (list.splitOn 0).dropLast

theorem readNames_append {name : Bytes} (h : 0 ∉ name) (rest : Bytes) :
    readNames (name ++ 0 :: rest) = name :: readNames rest := by
  unfold readNames
  rw [List.splitOn_append_cons_self_of_not_mem h]
  obtain ⟨p, ps, hp⟩ := List.exists_cons_of_ne_nil (List.splitOn_ne_nil 0 rest)
  rw [hp]
  rfl

theorem nul_notMem_utf8 {s : Str} (h : ∀ c ∈ s, c.toNat < 0x80 ∧ c.toNat ≠ 0) : 0 ∉ utf8 s := by
  intro hmem
  obtain ⟨c, hc, hb⟩ := List.mem_flatMap.mp hmem
  rw [utf8EncodeChar_ascii (h c hc).1, List.mem_singleton] at hb
  have hval := congrArg UInt8.toNat hb
  rw [UInt8.toNat_ofNat'] at hval
  have hlt := (h c hc).1
  have hne := (h c hc).2
  simp at hval
  omega

theorem utf8_injective {s s' : Str} (h : ∀ c ∈ s, c.toNat < 0x80) (h' : ∀ c ∈ s', c.toNat < 0x80)
    (heq : utf8 s = utf8 s') : s = s' := by
  rw [← fromUtf8Lossy_utf8 h, heq, fromUtf8Lossy_utf8 h']

section Named
variable {t : Tree} {parsed : ℕ → Outcome Tree.TreeError (Except ReadError ParsedBlob)}
  {locate : ℕ → UInt32 → Outcome Tree.TreeError (Except ReadError FileLoc)} {key : Tree.Key}
  {attrs : List Tree.Attr}

theorem readNames_nameList (h : t.xattrsWith parsed locate key = .ok attrs) :
    readNames (nameList attrs) = attrs.map fun a => utf8 a.1 := by
  have hnames : ∀ a ∈ attrs, a.1 ∈ Tree.attrNames := fun a ha =>
    (Tree.xattrsWith_names h).subset (List.mem_map_of_mem ha)
  clear h
  induction attrs with
  | nil => rfl
  | cons a rest ih =>
    have hplain := (Tree.attrNames_plain _ (hnames a List.mem_cons_self)).2
    have hsplit : nameList (a :: rest) = utf8 a.1 ++ 0 :: nameList rest := by
      unfold nameList
      rw [List.flatMap_cons, List.append_assoc, List.singleton_append]
    rw [hsplit, readNames_append (nul_notMem_utf8 hplain), List.map_cons,
      ih fun b hb => hnames b (List.mem_cons_of_mem a hb)]

theorem nameList_length (h : t.xattrsWith parsed locate key = .ok attrs) :
    (nameList attrs).length < 2 ^ 32 := by
  have hall : (Tree.attrNames.flatMap fun name => utf8 name ++ [0]).length < 2 ^ 32 := by
    decide +kernel
  have hlist : nameList attrs = (attrs.map Prod.fst).flatMap fun name => utf8 name ++ [0] := by
    rw [nameList, List.flatMap_map]
  rw [hlist]
  exact ((Tree.xattrsWith_names h).flatMap fun name => utf8 name ++ [0]).length_le.trans_lt hall

theorem find_name (h : t.xattrsWith parsed locate key = .ok attrs) (name : Bytes) :
    (attrs.find? fun a => a.1 = fromUtf8Lossy name) = attrs.find? fun a => utf8 a.1 = name := by
  have hnames : ∀ a ∈ attrs, ∀ c ∈ a.1, c.toNat < 0x80 := fun a ha c hc =>
    ((Tree.attrNames_plain _ ((Tree.xattrsWith_names h).subset
      (List.mem_map_of_mem ha))).2 c hc).1
  refine List.find?_congr fun a ha => ?_
  rw [decide_eq_decide]
  constructor
  · intro heq
    exact utf8_of_fromUtf8Lossy heq.symm (hnames a ha)
  · rintro rfl
    exact (fromUtf8Lossy_utf8 (hnames a ha)).symm

end Named

/-- The attributes of an inode: the list holds each name once, asking for a
name gives its value, and the names that have one are the ones listed. -/
structure ServesAttrs (n : ℕ) (attrs : List Tree.Attr)
    (answered : MountOp → Outcome MountErrno MountReply → Prop) : Prop where
  list : ∀ size a, answered (.listxattr n size) a → Fetched (nameList attrs) size a
  names : readNames (nameList attrs) = attrs.map fun x => utf8 x.1
  distinct : (attrs.map fun x => utf8 x.1).Nodup
  value : ∀ x ∈ attrs, ∀ size a, answered (.getxattr n (utf8 x.1) size) a →
    Fetched (utf8 x.2) size a
  listed : ∀ size list, answered (.listxattr n size) (.ok (.data list)) →
    ∀ name size' a, answered (.getxattr n name size') a →
      (name ∈ readNames list ↔ a ≠ .err .enodata)

theorem mount_serves_attributes {f : Frontend} {cacheDir : ℕ → Option Bytes}
    {A : Archive f.tree.store.codec} (h : f.tree.store.Packed cacheDir A)
    (hbounded : f.tree.store.Bounded cacheDir) {p p' : MountPool}
    (hp : MountPath f ⟨FsState.new f cacheDir, []⟩ p) (hp' : MountPath f p p') {n : ℕ}
    {key : Tree.Key} (hkey : p.state.inodes.key n = some key) {attrs : List Tree.Attr}
    (hattrs : f.tree.xattrsOf cacheDir A key = .ok attrs)
    (hshort : ∀ x ∈ attrs, (utf8 x.2).length < 2 ^ 32) :
    ServesAttrs n attrs (AnsweredSince p p') := by
  have hserved : ∀ op a, AnsweredSince p p' op a → op.Asks n → Served f cacheDir A key op a := by
    rintro op a ⟨k, hlater, hans⟩ hop
    exact served_of_run h hbounded hp hp' hkey hlater hans hop
  have hplain : ∀ x ∈ attrs, ∀ c ∈ x.1, c.toNat < 0x80 := fun x hx c hc =>
    ((Tree.attrNames_plain _ ((Tree.xattrsWith_names hattrs).subset
      (List.mem_map_of_mem hx))).2 c hc).1
  have hdistinct : (attrs.map fun x => utf8 x.1).Nodup := by
    have hnodup := Tree.attrNames_nodup.sublist (Tree.xattrsWith_names hattrs)
    have hmap : (attrs.map fun x => utf8 x.1) = (attrs.map Prod.fst).map utf8 := by
      rw [List.map_map]
      rfl
    rw [hmap]
    refine List.Nodup.map_on (fun s hs s' hs' heq => ?_) hnodup
    obtain ⟨x, hx, rfl⟩ := List.mem_map.mp hs
    obtain ⟨x', hx', rfl⟩ := List.mem_map.mp hs'
    exact utf8_injective (hplain x hx) (hplain x' hx') heq
  have hlist : ∀ size a, AnsweredSince p p' (.listxattr n size) a →
      Fetched (nameList attrs) size a := by
    intro size a ha
    rw [hserved _ _ ha rfl attrs hattrs]
    exact sized_fetched (nameList_length hattrs) size
  have hget : ∀ name size a, AnsweredSince p p' (.getxattr n name size) a →
      a = ((attrs.find? fun x => utf8 x.1 = name).elim (.err .enodata) fun x =>
        sized (utf8 x.2) size) := by
    intro name size a ha
    rw [hserved _ _ ha rfl attrs hattrs, getSized_elim, find_name hattrs]
  refine ⟨hlist, readNames_nameList hattrs, hdistinct, fun x hx size a ha => ?_,
    fun size list hmade name size' a ha => ?_⟩
  · rw [hget _ _ _ ha, find_of_nodup hdistinct hx]
    exact sized_fetched (hshort x hx) size
  · rw [(hlist _ _ hmade).data_eq, readNames_nameList hattrs, hget _ _ _ ha]
    cases hfind : attrs.find? fun x => utf8 x.1 = name with
    | some x =>
      have hx := List.mem_of_find?_eq_some hfind
      have hname : utf8 x.1 = name := by simpa using List.find?_some hfind
      exact iff_of_true (hname ▸ List.mem_map_of_mem hx) (sized_fetched (hshort x hx) _).found
    | none =>
      refine iff_of_false (fun hmem => ?_) fun hne => hne rfl
      obtain ⟨x, hx, hname⟩ := List.mem_map.mp hmem
      exact List.find?_eq_none.mp hfind x hx (decide_eq_true hname)

section Sample

def modeAttr : Tree.Attr := ("user.steam2.mode".toList, "Plain".toList)

set_option maxRecDepth 20000 in
theorem mounted_attrs : (fun attrs : List Tree.Attr =>
    (attrs.all fun x => decide ((utf8 x.2).length < 32), decide (modeAttr ∈ attrs))) <$>
      mounted.tree.xattrsOf (fun _ => none) packedArchive (.node 1 1) = .ok (true, true) := by
  decide +kernel

theorem mounted_serves_attributes :
    ∃ p attrs, ServesAttrs 4 attrs (AnsweredSince fileLooked p) ∧
      AnsweredSince fileLooked p (.getxattr 4 (utf8 modeAttr.1) 5)
        (.ok (.data (utf8 modeAttr.2))) := by
  obtain ⟨attrs, hattrs, hfacts⟩ := map_eq_ok.mp mounted_attrs
  obtain ⟨hshort, hmode⟩ := Prod.mk.inj hfacts
  have hlength : ∀ x ∈ attrs, (utf8 x.2).length < 2 ^ 32 := fun x hx =>
    (of_decide_eq_true (List.all_eq_true.mp hshort x hx)).trans (by decide)
  have hserved := mount_serves_attributes (f := mounted) packedVersions_holds
    packedVersions_bounded fileLooked_path
    (mountCall_path .refl (.getxattr 4 (utf8 modeAttr.1) 5)) fileLooked_key hattrs hlength
  obtain ⟨a, ha⟩ := answered_mountCall (.getxattr 4 (utf8 modeAttr.1) 5) fileLooked
  have hvalue := (hserved.value _ (of_decide_eq_true hmode) 5 a ha).fits (by decide)
    (by decide +kernel)
  subst hvalue
  exact ⟨_, attrs, hserved, ha⟩

end Sample

end Steam2Fs.Fuse
