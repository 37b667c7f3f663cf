import Steam2Fs.FuseCalls

/-!
# Inode numbers

The table of inodes is asked through two calls: `ino` looks a key up under the
read lock and, when it is not there, interns it under the write lock taken
afterwards, and `key` reads a number back. Between the two locks another thread
may intern the same key; `intern` looks again, so the vector and the map stay
inverse to each other, and no number ever changes its key.
-/

namespace Steam2Fs.Fuse
open Outcome

namespace Inodes

/-- The vector and the map are inverse to each other. -/
def Paired (inodes : Inodes) : Prop :=
  ∀ n k, inodes.key n = some k ↔ inodes.byKey k = some n

theorem key_isSome_iff (inodes : Inodes) (n : ℕ) :
    (∃ k, inodes.key n = some k) ↔ 1 ≤ n ∧ n ≤ inodes.keys.length := by
  cases n with
  | zero => simp [key]
  | succ n =>
    change (∃ k, inodes.keys[n]? = some k) ↔ _
    rw [← Option.isSome_iff_exists, isSome_getElem?]
    omega

theorem key_new_number (inodes : Inodes) (k : Tree.Key) :
    (⟨inodes.byKey, inodes.keys ++ [k]⟩ : Inodes).key (inodes.keys.length + 1) = some k :=
  List.getElem?_concat_length

theorem Paired.intern {inodes : Inodes} (h : inodes.Paired) (k : Tree.Key) :
    (inodes.intern k).2.Paired := by
  unfold Inodes.intern
  cases hk : inodes.byKey k with
  | some n => exact h
  | none =>
    intro n k'
    have hold : ∀ m, inodes.key m = some k' → m ≤ inodes.keys.length :=
      fun m hm => ((inodes.key_isSome_iff m).mp ⟨k', hm⟩).2
    have hkey : (⟨Function.update inodes.byKey k (some (inodes.keys.length + 1)),
        inodes.keys ++ [k]⟩ : Inodes).key n =
          if n = inodes.keys.length + 1 then some k else inodes.key n := by
      split_ifs with hn
      · subst hn
        exact inodes.key_new_number k
      · cases n with
        | zero => rfl
        | succ n =>
          change (inodes.keys ++ [k])[n]? = inodes.keys[n]?
          rcases Nat.lt_or_ge n inodes.keys.length with hlt | hge
          · exact List.getElem?_append_left hlt
          · rw [List.getElem?_eq_none (by simp; omega), List.getElem?_eq_none hge]
    rw [hkey]
    change _ ↔ Function.update inodes.byKey k (some (inodes.keys.length + 1)) k' = some n
    by_cases hsame : k' = k
    · subst hsame
      rw [Function.update_self]
      constructor
      · intro hn
        split_ifs at hn with heq
        · rw [heq]
        · rw [h, hk] at hn
          cases hn
      · intro hn
        rw [if_pos (Option.some.inj hn).symm]
    · rw [Function.update_of_ne hsame, ← h]
      constructor
      · intro hn
        split_ifs at hn with heq
        · exact absurd (Option.some.inj hn).symm hsame
        · exact hn
      · intro hn
        have hle := hold n hn
        rw [if_neg (by omega)]
        exact hn

theorem paired_new : Inodes.new.Paired := by
  refine Paired.intern (fun n k => ?_) .root
  cases n with
  | zero => simp [key]
  | succ n => simp [key]

end Inodes

/-! ### The calls -/

inductive InodeOp where
  | ino (key : Tree.Key)
  | key (n : ℕ)

/-- `Steam2Fs::ino` and `Steam2Fs::key`. -/
def InodeOp.prog : InodeOp → FsCall (ℕ ⊕ Option Tree.Key)
  | .ino k => do
    let n ← Fuse.ino k
    pure (.inl n)
  | .key n => do
    let k ← Call.read fun s => s.inodes.key n
    pure (.inr k)

abbrev InodePool := Pool FsState InodeOp (Outcome Errno (ℕ ⊕ Option Tree.Key))

def InodeInv (s : FsState) : Prop := s.inodes.Paired ∧ s.inodes.key 1 = some .root

/-- Numbers that are given out keep their keys. -/
def Grows (s s' : FsState) : Prop :=
  ∀ n k, s.inodes.key n = some k → s'.inodes.key n = some k

/-- What a call has brought about when it answers. -/
def InodeOp.Done : InodeOp → FsState → Outcome Errno (ℕ ⊕ Option Tree.Key) → Prop
  | .ino k, s, o => ∃ n, o = .ok (.inl n) ∧ s.inodes.key n = some k
  | .key n, s, o => ∃ found, o = .ok (.inr found) ∧ ∀ k, found = some k → s.inodes.key n = some k

section Calls
variable {r s : FsState}

theorem InodeInv.intern (h : InodeInv s) (k : Tree.Key) :
    InodeInv { s with inodes := (s.inodes.intern k).2 } :=
  ⟨h.1.intern k, Inodes.intern_keeps k h.2⟩

theorem ino_paired (k : Tree.Key) : (ino k).Ensures InodeInv Grows
    (fun _ s' o => ∃ n, o = .ok n ∧ s'.inodes.key n = some k) r s := by
  have hread : (Call.read fun s : FsState => s.inodes.byKey k : FsCall (Option ℕ)).Ensures
      InodeInv Grows
      (fun _ s' o => ∃ m, o = .ok m ∧ ∀ n, m = some n → s'.inodes.key n = some k) r s :=
    Call.ensures_atomic fun s' hs' _ => ⟨hs', _, rfl, fun n hn => (hs'.1 n k).mpr hn⟩
  refine hread.bind (fun r' s' m hm => ?_) (fun _ _ _ h => ?_) fun _ _ h => ?_
  · obtain ⟨m', hm', hkey⟩ := hm
    cases hm'
    cases m with
    | some n => exact Call.ensures_done ⟨n, rfl, hkey n rfl⟩
    | none =>
      -- Another thread may have interned the key by now; the write lock looks again.
      refine Call.ensures_atomic fun s' hs' _ => ⟨hs'.intern k, _, rfl, ?_⟩
      exact Inodes.intern_key (fun key n hn => (hs'.1 n key).mpr hn) k
  · obtain ⟨_, h, -⟩ := h
    cases h
  · obtain ⟨_, h, -⟩ := h
    cases h

theorem prog_done (op : InodeOp) (s : FsState) :
    op.prog.Ensures InodeInv Grows (fun _ => op.Done) s s := by
  cases op with
  | ino k =>
    refine (ino_paired k).bind (fun r' s' n hn => ?_) (fun _ _ _ h => ?_) fun _ _ h => ?_
    · obtain ⟨n', hn', hkey⟩ := hn
      cases hn'
      exact Call.ensures_done ⟨n, rfl, hkey⟩
    · obtain ⟨_, h, -⟩ := h
      cases h
    · obtain ⟨_, h, -⟩ := h
      cases h
  | key n =>
    exact fun s' hs' _ => ⟨hs', _, rfl, fun k hk => hk⟩

theorem prog_guarded (op : InodeOp) :
    op.prog.Keeps InodeInv (fun _ => True) ∧ op.prog.Within (Steady fun _ => True) := by
  cases op with
  | ino k =>
    refine ⟨?_, (ino_within k).bind fun _ => Call.within_pure _⟩
    refine Call.Safe.bind (Call.Safe.bind (Call.safe_atomic fun _ hs => hs) fun o => ?_)
      fun _ => Call.safe_pure _
    cases o with
    | some n => exact Call.safe_pure _
    | none => exact Call.safe_atomic fun _ hs => hs.intern k
  | key n =>
    exact ⟨Call.Safe.bind (Call.safe_atomic fun _ hs => hs) fun _ => Call.safe_pure _,
      (read_within _).bind fun _ => Call.within_pure _⟩

end Calls

/-! ### Any interleaving -/

abbrev InodeRun := Pool.Path InodeOp.prog fun _ => True

section Runs
variable {f : Frontend} {cacheDir : ℕ → Option Bytes} {p p' : InodePool}

theorem inodeInv_new (f : Frontend) (cacheDir : ℕ → Option Bytes) :
    InodeInv (FsState.new f cacheDir) :=
  ⟨Inodes.paired_new, rfl⟩

theorem InodeRun.good (h : InodeRun ⟨FsState.new f cacheDir, []⟩ p) :
    p.Good InodeInv fun _ => Steady fun _ => True :=
  Pool.Path.good prog_guarded h (Pool.good_start (inodeInv_new f cacheDir))

theorem InodeRun.grows (h : InodeRun ⟨FsState.new f cacheDir, []⟩ p) (h' : InodeRun p p') :
    Grows p.state p'.state :=
  Pool.Path.along prog_guarded (fun _ _ _ _ hs => hs.inodes) (fun _ _ _ hk => hk)
    (fun _ _ _ h₁ h₂ n k hk => h₂ n k (h₁ n k hk)) h' h.good

theorem InodeRun.done (h : InodeRun ⟨FsState.new f cacheDir, []⟩ p) {op : InodeOp}
    {a : Outcome Errno (ℕ ⊕ Option Tree.Key)} (ha : p.Answered op a) : op.Done p.state a := by
  obtain ⟨i, hi, hget⟩ := List.getElem_of_mem ha
  have hk : p.threads[i]? = some (op, .done a) := by
    rw [← hget]
    exact List.getElem?_eq_getElem hi
  have hunder := Pool.Path.all_underway (R := Grows) (Q := fun (op : InodeOp) _ => op.Done)
    prog_guarded prog_done (fun _ _ _ _ hs => hs.inodes) (fun _ _ _ hk => hk)
    (fun _ _ _ h₁ h₂ n k hk => h₂ n k (h₁ n k hk)) (inodeInv_new f cacheDir) h hk
  obtain ⟨r, s, hgrow, hdone⟩ := hunder.done hk
  cases op with
  | ino k =>
    obtain ⟨n, rfl, hkey⟩ := hdone
    exact ⟨n, rfl, hgrow n k hkey⟩
  | key n =>
    obtain ⟨found, rfl, hkey⟩ := hdone
    exact ⟨found, rfl, fun k hk => hgrow n k (hkey k hk)⟩

end Runs

end Steam2Fs.Fuse
