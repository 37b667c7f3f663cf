import Mathlib.Data.Finset.Card
import Steam2Fs.Lib.Exclusive
import Steam2Fs.Lib.Machine

/-!
# Deduplicating concurrent misses

`dedupe` as a machine. A label picks the thread that goes next, and one step is
one atomic action: take the map lock and clone or create the slot, lock the
slot, one action of the closure, unlock the slot, take the map lock and maybe
remove the slot, drop the own reference. `strong` holds the reference counts
the map check reads. A closure is a process on some shared state; a panic
inside one ends the program (release builds abort), so a thread leaves it only
by returning.
-/

namespace Steam2Fs.SingleFlight
open Function (update)

inductive Pc (κ σ α : Type) where
  | idle
  | waiting (k : κ) (slot : ℕ) (f : Proc σ α)
  | inside (k : κ) (slot : ℕ) (f : Proc σ α)
  | unlocked (k : κ) (slot : ℕ) (out : α)
  | checked (slot : ℕ) (out : α)
  | returned (out : α)

structure State (τ κ σ α : Type) where
  inflight : κ → Option ℕ
  strong : ℕ → ℕ
  locked : ℕ → Bool
  fresh : ℕ
  shared : σ
  pc : τ → Pc κ σ α

inductive Action (τ κ σ α : Type) where
  | acquire (t : τ) (k : κ) (f : Proc σ α)
  | lock (t : τ)
  | work (t : τ)
  | unlock (t : τ)
  | check (t : τ)
  | drop (t : τ)

section Step
variable {τ κ σ α : Type} [DecidableEq τ] [DecidableEq κ]

def State.new (shared : σ) : State τ κ σ α :=
  ⟨fun _ => none, fun _ => 0, fun _ => false, 0, shared, fun _ => .idle⟩

def State.goto (s : State τ κ σ α) (t : τ) (p : Pc κ σ α) : State τ κ σ α :=
  { s with pc := update s.pc t p }

/-- `entry(key).or_insert_with(|| Arc::new(Mutex::new(()))).clone()`. -/
def State.acquire (s : State τ κ σ α) (t : τ) (k : κ) (f : Proc σ α) : State τ κ σ α :=
  match s.inflight k with
  | some n => { s with
      strong := update s.strong n (s.strong n + 1)
      pc := update s.pc t (.waiting k n f) }
  | none => { s with
      inflight := update s.inflight k (some s.fresh)
      strong := update s.strong s.fresh 2
      locked := update s.locked s.fresh false
      fresh := s.fresh + 1
      pc := update s.pc t (.waiting k s.fresh f) }

/-- The slot whose count is read is the one the map holds now. -/
def State.check (s : State τ κ σ α) (t : τ) (k : κ) (slot : ℕ) (out : α) : State τ κ σ α :=
  match s.inflight k with
  | some m =>
    if s.strong m = 2 then { s with
      inflight := update s.inflight k none
      strong := update s.strong m (s.strong m - 1)
      pc := update s.pc t (.checked slot out) }
    else s.goto t (.checked slot out)
  | none => s.goto t (.checked slot out)

def step (s : State τ κ σ α) : Action τ κ σ α → Option (State τ κ σ α)
  | .acquire t k f => match s.pc t with
    | .idle => some (s.acquire t k f)
    | .returned _ => some (s.acquire t k f)
    | _ => none
  | .lock t => match s.pc t with
    | .waiting k n f =>
      if s.locked n then none
      else some { s with
        locked := update s.locked n true
        pc := update s.pc t (.inside k n f) }
    | _ => none
  | .work t => match s.pc t with
    | .inside k n (.act f next) => some { s with
        shared := f s.shared
        pc := update s.pc t (.inside k n (next s.shared)) }
    | _ => none
  | .unlock t => match s.pc t with
    | .inside k n (.done out) => some { s with
        locked := update s.locked n false
        pc := update s.pc t (.unlocked k n out) }
    | _ => none
  | .check t => match s.pc t with
    | .unlocked k n out => some (s.check t k n out)
    | _ => none
  | .drop t => match s.pc t with
    | .checked n out => some { s with
        strong := update s.strong n (s.strong n - 1)
        pc := update s.pc t (.returned out) }
    | _ => none

/-- What a step can be, with its guard. -/
inductive Step (s : State τ κ σ α) : Action τ κ σ α → State τ κ σ α → Prop
  | acquire {t : τ} {k : κ} {f : Proc σ α} (ht : s.pc t = .idle ∨ ∃ out, s.pc t = .returned out) :
      Step s (.acquire t k f) (s.acquire t k f)
  | lock {t : τ} {k : κ} {n : ℕ} {f : Proc σ α} (ht : s.pc t = .waiting k n f)
      (hfree : s.locked n = false) :
      Step s (.lock t) { s with
        locked := update s.locked n true
        pc := update s.pc t (.inside k n f) }
  | work {t : τ} {k : κ} {n : ℕ} {f : σ → σ} {next : σ → Proc σ α}
      (ht : s.pc t = .inside k n (.act f next)) :
      Step s (.work t) { s with
        shared := f s.shared
        pc := update s.pc t (.inside k n (next s.shared)) }
  | unlock {t : τ} {k : κ} {n : ℕ} {out : α} (ht : s.pc t = .inside k n (.done out)) :
      Step s (.unlock t) { s with
        locked := update s.locked n false
        pc := update s.pc t (.unlocked k n out) }
  | check {t : τ} {k : κ} {n : ℕ} {out : α} (ht : s.pc t = .unlocked k n out) :
      Step s (.check t) (s.check t k n out)
  | drop {t : τ} {n : ℕ} {out : α} (ht : s.pc t = .checked n out) :
      Step s (.drop t) { s with
        strong := update s.strong n (s.strong n - 1)
        pc := update s.pc t (.returned out) }

theorem step_cases {s s' : State τ κ σ α} {a : Action τ κ σ α} (h : step s a = some s') :
    Step s a s' := by
  cases a with
  | acquire t k f =>
    simp only [step] at h
    split at h
    · next ht =>
      cases h
      exact .acquire (Or.inl ht)
    · next out ht =>
      cases h
      exact .acquire (Or.inr ⟨out, ht⟩)
    · cases h
  | lock t =>
    simp only [step] at h
    split at h
    · next k n f ht =>
      split_ifs at h with hfree
      cases h
      exact .lock ht (by simpa using hfree)
    · cases h
  | work t =>
    simp only [step] at h
    split at h
    · next ht =>
      cases h
      exact .work ht
    · cases h
  | unlock t =>
    simp only [step] at h
    split at h
    · next ht =>
      cases h
      exact .unlock ht
    · cases h
  | check t =>
    simp only [step] at h
    split at h
    · next ht =>
      cases h
      exact .check ht
    · cases h
  | drop t =>
    simp only [step] at h
    split at h
    · next ht =>
      cases h
      exact .drop ht
    · cases h

end Step

namespace Pc
variable {κ σ α : Type}

def slot : Pc κ σ α → Option ℕ
  | .waiting _ n _ | .inside _ n _ | .unlocked _ n _ | .checked n _ => some n
  | _ => none

def claim : Pc κ σ α → Option (κ × ℕ)
  | .waiting k n _ | .inside k n _ | .unlocked k n _ => some (k, n)
  | _ => none

def held : Pc κ σ α → Option ℕ
  | .inside _ n _ => some n
  | _ => none

theorem slot_of_claim {p : Pc κ σ α} {k : κ} {n : ℕ} (h : p.claim = some (k, n)) :
    p.slot = some n := by
  cases p with
  | waiting k' n' f => cases h; rfl
  | inside k' n' f => cases h; rfl
  | unlocked k' n' out => cases h; rfl
  | _ => cases h

theorem slot_of_held {p : Pc κ σ α} {n : ℕ} (h : p.held = some n) : p.slot = some n := by
  cases p with
  | inside k' n' f => cases h; rfl
  | _ => cases h

end Pc

/-! ### Reference counts -/

section Holders
variable {τ κ σ α : Type} {pc : τ → Pc κ σ α} {t : τ} {p : Pc κ σ α} {n c : ℕ}

/-- Exactly `c` threads hold a reference to slot `n`. -/
def Holders (pc : τ → Pc κ σ α) (n c : ℕ) : Prop :=
  ∃ H : Finset τ, (∀ t, t ∈ H ↔ (pc t).slot = some n) ∧ H.card = c

theorem Holders.pos (h : Holders pc n c) (ht : (pc t).slot = some n) : ∃ c', c = c' + 1 := by
  obtain ⟨H, hH, hcard⟩ := h
  have hpos : 0 < H.card := Finset.card_pos.mpr ⟨t, (hH t).mpr ht⟩
  exact ⟨c - 1, by omega⟩

theorem Holders.unique (h : Holders pc n 1) {t' : τ} (ht : (pc t).slot = some n)
    (ht' : (pc t').slot = some n) : t = t' := by
  obtain ⟨H, hH, hcard⟩ := h
  exact Finset.card_le_one.mp hcard.le t ((hH t).mpr ht) t' ((hH t').mpr ht')

theorem Holders.another (h : Holders pc n c) (hc : c ≠ 1) (ht : (pc t).slot = some n) :
    ∃ t' ≠ t, (pc t').slot = some n := by
  obtain ⟨H, hH, hcard⟩ := h
  have hmem : t ∈ H := (hH t).mpr ht
  have hpos : 0 < H.card := Finset.card_pos.mpr ⟨t, hmem⟩
  obtain ⟨t', ht', hne⟩ := Finset.exists_mem_ne (by omega : 1 < H.card) t
  exact ⟨t', hne, (hH t').mp ht'⟩

variable [DecidableEq τ]

theorem Holders.move (h : Holders pc n c) (hslot : p.slot = some n ↔ (pc t).slot = some n) :
    Holders (update pc t p) n c := by
  obtain ⟨H, hH, hcard⟩ := h
  refine ⟨H, (Function.forall_update_iff pc fun t' q => t' ∈ H ↔ q.slot = some n).mpr ?_, hcard⟩
  exact ⟨(hH t).trans hslot.symm, fun t' _ => hH t'⟩

theorem Holders.gain (h : Holders pc n c) (ht : (pc t).slot ≠ some n) (hp : p.slot = some n) :
    Holders (update pc t p) n (c + 1) := by
  obtain ⟨H, hH, hcard⟩ := h
  have hmem : t ∉ H := fun hmem => ht ((hH t).mp hmem)
  refine ⟨insert t H, (Function.forall_update_iff pc
    fun t' q => t' ∈ insert t H ↔ q.slot = some n).mpr ?_, ?_⟩
  · refine ⟨iff_of_true (Finset.mem_insert_self t H) hp, fun t' htt => ?_⟩
    rw [Finset.mem_insert, or_iff_right htt]
    exact hH t'
  · rw [Finset.card_insert_of_notMem hmem, hcard]

theorem Holders.lose (h : Holders pc n (c + 1)) (ht : (pc t).slot = some n)
    (hp : p.slot ≠ some n) : Holders (update pc t p) n c := by
  obtain ⟨H, hH, hcard⟩ := h
  have hmem : t ∈ H := (hH t).mpr ht
  refine ⟨H.erase t, (Function.forall_update_iff pc
    fun t' q => t' ∈ H.erase t ↔ q.slot = some n).mpr ?_, ?_⟩
  · refine ⟨iff_of_false (Finset.notMem_erase t H) hp, fun t' htt => ?_⟩
    rw [Finset.mem_erase, and_iff_right htt]
    exact hH t'
  · rw [Finset.card_erase_of_mem hmem, hcard]
    rfl

end Holders

section Books
variable {τ κ σ α : Type}

/-- What relates the map, the reference counts and the threads. A count is only
known of a slot that is in the map. -/
structure Books (s : State τ κ σ α) : Prop where
  mapped_lt : ∀ k n, s.inflight k = some n → n < s.fresh
  slot_lt : ∀ t n, (s.pc t).slot = some n → n < s.fresh
  distinct : ∀ k k' n, s.inflight k = some n → s.inflight k' = some n → k = k'
  claimed : ∀ t k n, (s.pc t).claim = some (k, n) → s.inflight k = some n
  counted : ∀ k n, s.inflight k = some n → ∃ c, Holders s.pc n c ∧ s.strong n = c + 1

theorem Books.new (shared : σ) : Books (State.new shared : State τ κ σ α) where
  mapped_lt k n h := by cases h
  slot_lt t n h := by cases h
  distinct k k' n h := by cases h
  claimed t k n h := by cases h
  counted k n h := by cases h

variable [DecidableEq τ] {s : State τ κ σ α} {t : τ}

theorem Books.move {s' : State τ κ σ α} (h : Books s) {p : Pc κ σ α}
    (hslot : p.slot = (s.pc t).slot) (hclaim : ∀ x, p.claim = some x → (s.pc t).claim = some x)
    (hpc : s'.pc = update s.pc t p) (hmap : s'.inflight = s.inflight)
    (hstrong : s'.strong = s.strong) (hfresh : s'.fresh = s.fresh) : Books s' where
  mapped_lt := by
    rw [hmap, hfresh]
    exact h.mapped_lt
  slot_lt := by
    rw [hpc, hfresh]
    refine (Function.forall_update_iff s.pc fun _ q => ∀ n, q.slot = some n → n < s.fresh).mpr ?_
    exact ⟨fun n hn => h.slot_lt t n (hslot ▸ hn), fun t' _ => h.slot_lt t'⟩
  distinct := by
    rw [hmap]
    exact h.distinct
  claimed := by
    rw [hpc, hmap]
    refine (Function.forall_update_iff s.pc
      fun _ q => ∀ k n, q.claim = some (k, n) → s.inflight k = some n).mpr ?_
    exact ⟨fun k n hn => h.claimed t k n (hclaim _ hn), fun t' _ => h.claimed t'⟩
  counted k n hn := by
    rw [hmap] at hn
    obtain ⟨c, hc, hcount⟩ := h.counted k n hn
    rw [hpc, hstrong]
    exact ⟨c, hc.move (by rw [hslot]), hcount⟩

theorem Books.drop (h : Books s) {n : ℕ} {out : α} (ht : s.pc t = .checked n out) :
    Books { s with
      strong := update s.strong n (s.strong n - 1)
      pc := update s.pc t (.returned out) } where
  mapped_lt := h.mapped_lt
  slot_lt := (Function.forall_update_iff s.pc
    fun _ q => ∀ n, q.slot = some n → n < s.fresh).mpr
      ⟨by simp [Pc.slot], fun t' _ => h.slot_lt t'⟩
  distinct := h.distinct
  claimed := (Function.forall_update_iff s.pc
    fun _ q => ∀ k n, q.claim = some (k, n) → s.inflight k = some n).mpr
      ⟨by simp [Pc.claim], fun t' _ => h.claimed t'⟩
  counted k m hm := by
    obtain ⟨c, hc, hcount⟩ := h.counted k m hm
    have hslot : (s.pc t).slot = some n := by
      rw [ht]
      rfl
    dsimp only
    by_cases hmn : m = n
    · subst hmn
      obtain ⟨c, rfl⟩ := hc.pos hslot
      rw [Function.update_self, hcount]
      exact ⟨c, hc.lose hslot (by simp [Pc.slot]), rfl⟩
    · rw [Function.update_of_ne hmn]
      refine ⟨c, hc.move ?_, hcount⟩
      rw [hslot, Option.some.injEq]
      exact iff_of_false (by simp [Pc.slot]) (Ne.symm hmn)

theorem Books.acquire_mapped (h : Books s) (ht : (s.pc t).slot = none) {k : κ} {n : ℕ}
    (hk : s.inflight k = some n) (f : Proc σ α) :
    Books { s with
      strong := update s.strong n (s.strong n + 1)
      pc := update s.pc t (.waiting k n f) } where
  mapped_lt := h.mapped_lt
  slot_lt := by
    refine (Function.forall_update_iff s.pc fun _ q => ∀ n, q.slot = some n → n < s.fresh).mpr ?_
    refine ⟨fun m hm => ?_, fun t' _ => h.slot_lt t'⟩
    cases hm
    exact h.mapped_lt k n hk
  distinct := h.distinct
  claimed := by
    refine (Function.forall_update_iff s.pc
      fun _ q => ∀ k n, q.claim = some (k, n) → s.inflight k = some n).mpr ?_
    refine ⟨fun k' m hm => ?_, fun t' _ => h.claimed t'⟩
    cases hm
    exact hk
  counted k' m hm := by
    obtain ⟨c, hc, hcount⟩ := h.counted k' m hm
    dsimp only
    by_cases hmn : m = n
    · subst hmn
      rw [Function.update_self, hcount]
      exact ⟨c + 1, hc.gain (by simp [ht]) rfl, rfl⟩
    · rw [Function.update_of_ne hmn]
      refine ⟨c, hc.move (iff_of_false ?_ (by simp [ht])), hcount⟩
      exact fun heq => hmn (Option.some.inj heq).symm

variable [DecidableEq κ]

theorem Books.acquire_fresh (h : Books s) (ht : (s.pc t).slot = none) {k : κ}
    (hk : s.inflight k = none) (f : Proc σ α) :
    Books { s with
      inflight := update s.inflight k (some s.fresh)
      strong := update s.strong s.fresh 2
      locked := update s.locked s.fresh false
      fresh := s.fresh + 1
      pc := update s.pc t (.waiting k s.fresh f) } where
  mapped_lt := by
    refine (Function.forall_update_iff s.inflight
      fun _ o => ∀ n, o = some n → n < s.fresh + 1).mpr ?_
    refine ⟨fun n hn => ?_, fun k' _ n hn => (h.mapped_lt k' n hn).trans (Nat.lt_succ_self _)⟩
    cases hn
    exact Nat.lt_succ_self _
  slot_lt := by
    refine (Function.forall_update_iff s.pc
      fun _ q => ∀ n, q.slot = some n → n < s.fresh + 1).mpr ?_
    refine ⟨fun n hn => ?_, fun t' _ n hn => (h.slot_lt t' n hn).trans (Nat.lt_succ_self _)⟩
    cases hn
    exact Nat.lt_succ_self _
  distinct := by
    -- an old entry cannot hold the slot that was just allocated
    have hne (k' : κ) : s.inflight k' ≠ some s.fresh :=
      fun hm => absurd (h.mapped_lt k' _ hm) (lt_irrefl _)
    intro k₁ k₂ n h₁ h₂
    dsimp only at h₁ h₂
    by_cases e₁ : k₁ = k
    · rw [e₁, Function.update_self, Option.some.injEq] at h₁
      by_cases e₂ : k₂ = k
      · exact e₁.trans e₂.symm
      · rw [Function.update_of_ne e₂, ← h₁] at h₂
        exact absurd h₂ (hne k₂)
    · rw [Function.update_of_ne e₁] at h₁
      by_cases e₂ : k₂ = k
      · rw [e₂, Function.update_self, Option.some.injEq] at h₂
        rw [← h₂] at h₁
        exact absurd h₁ (hne k₁)
      · rw [Function.update_of_ne e₂] at h₂
        exact h.distinct k₁ k₂ n h₁ h₂
  claimed := by
    refine (Function.forall_update_iff s.pc fun _ q => ∀ k' n, q.claim = some (k', n) →
      update s.inflight k (some s.fresh) k' = some n).mpr ?_
    refine ⟨fun k' n hn => ?_, fun t' _ k' n hn => ?_⟩
    · cases hn
      rw [Function.update_self]
    · have hclaim := h.claimed t' k' n hn
      have hkk : k' ≠ k := by
        intro hkk
        rw [hkk, hk] at hclaim
        cases hclaim
      rw [Function.update_of_ne hkk]
      exact hclaim
  counted k' m hm := by
    dsimp only at hm ⊢
    by_cases hkk : k' = k
    · rw [hkk, Function.update_self, Option.some.injEq] at hm
      subst hm
      have hnone : Holders s.pc s.fresh 0 :=
        ⟨∅, fun t' => iff_of_false (Finset.notMem_empty t')
          fun hslot => absurd (h.slot_lt t' _ hslot) (lt_irrefl _), rfl⟩
      rw [Function.update_self]
      exact ⟨1, hnone.gain (by simp [ht]) rfl, rfl⟩
    · rw [Function.update_of_ne hkk] at hm
      obtain ⟨c, hc, hcount⟩ := h.counted k' m hm
      have hne : m ≠ s.fresh := (h.mapped_lt k' m hm).ne
      rw [Function.update_of_ne hne]
      refine ⟨c, hc.move (iff_of_false ?_ (by simp [ht])), hcount⟩
      exact fun heq => hne (Option.some.inj heq).symm

theorem Books.acquire (h : Books s) (ht : (s.pc t).slot = none) (k : κ) (f : Proc σ α) :
    Books (s.acquire t k f) := by
  unfold State.acquire
  cases hk : s.inflight k with
  | some n => exact h.acquire_mapped ht hk f
  | none => exact h.acquire_fresh ht hk f

theorem Books.remove (h : Books s) {k : κ} {n : ℕ} {out : α} (ht : s.pc t = .unlocked k n out)
    (htwo : s.strong n = 2) :
    Books { s with
      inflight := update s.inflight k none
      strong := update s.strong n (s.strong n - 1)
      pc := update s.pc t (.checked n out) } := by
  have hslot : (s.pc t).slot = some n := by rw [ht]; rfl
  have hk : s.inflight k = some n := h.claimed t k n (by rw [ht]; rfl)
  have hone : Holders s.pc n 1 := by
    obtain ⟨c, hc, hcount⟩ := h.counted k n hk
    have : c = 1 := by omega
    exact this ▸ hc
  have hold {k' : κ} {m : ℕ} (hm : update s.inflight k none k' = some m) :
      k' ≠ k ∧ s.inflight k' = some m := by
    by_cases hkk : k' = k
    · rw [hkk, Function.update_self] at hm
      cases hm
    · rw [Function.update_of_ne hkk] at hm
      exact ⟨hkk, hm⟩
  refine ⟨fun k' m hm => h.mapped_lt k' m (hold hm).2, ?_,
    fun k₁ k₂ m h₁ h₂ => h.distinct k₁ k₂ m (hold h₁).2 (hold h₂).2, ?_, fun k' m hm => ?_⟩
  · refine (Function.forall_update_iff s.pc fun _ q => ∀ n, q.slot = some n → n < s.fresh).mpr ?_
    exact ⟨fun m hm => h.slot_lt t m (hslot.trans hm), fun t' _ => h.slot_lt t'⟩
  · refine (Function.forall_update_iff s.pc fun _ q => ∀ k' m, q.claim = some (k', m) →
      update s.inflight k none k' = some m).mpr ?_
    refine ⟨by simp [Pc.claim], fun t' htt k' m hm => ?_⟩
    have hclaim := h.claimed t' k' m hm
    -- two references are the map's and this thread's, so nobody else claims the slot
    have hkk : k' ≠ k := by
      intro hkk
      rw [hkk, hk, Option.some.injEq] at hclaim
      subst hclaim
      exact htt (hone.unique (Pc.slot_of_claim hm) hslot)
    rw [Function.update_of_ne hkk]
    exact hclaim
  · obtain ⟨hkk, hm⟩ := hold hm
    obtain ⟨c, hc, hcount⟩ := h.counted k' m hm
    have hmn : m ≠ n := fun hmn => hkk (h.distinct k' k n (hmn ▸ hm) hk)
    dsimp only
    rw [Function.update_of_ne hmn]
    exact ⟨c, hc.move (by rw [hslot]; rfl), hcount⟩

theorem Books.check (h : Books s) {k : κ} {n : ℕ} {out : α} (ht : s.pc t = .unlocked k n out) :
    Books (s.check t k n out) := by
  have hstay : Books (s.goto t (.checked n out)) :=
    h.move (by rw [ht]; rfl) (by simp [Pc.claim]) rfl rfl rfl rfl
  have hk : s.inflight k = some n := h.claimed t k n (by rw [ht]; rfl)
  unfold State.check
  rw [hk]
  dsimp only
  split_ifs with htwo
  · exact h.remove ht htwo
  · exact hstay

theorem Step.books {s' : State τ κ σ α} {a : Action τ κ σ α} (hstep : Step s a s')
    (h : Books s) : Books s' := by
  cases hstep with
  | acquire ht =>
    apply h.acquire
    rcases ht with ht | ⟨out, ht⟩
    · rw [ht]
      rfl
    · rw [ht]
      rfl
  | lock ht => exact h.move (by rw [ht]; rfl) (by simp [ht, Pc.claim]) rfl rfl rfl rfl
  | work ht => exact h.move (by rw [ht]; rfl) (by simp [ht, Pc.claim]) rfl rfl rfl rfl
  | unlock ht => exact h.move (by rw [ht]; rfl) (by simp [ht, Pc.claim]) rfl rfl rfl rfl
  | check ht => exact h.check ht
  | drop ht => exact h.drop ht

end Books

/-! ### The slot lock -/

section Locks
variable {τ κ σ α : Type}

structure Locks (s : State τ κ σ α) : Prop where
  locked : ∀ t n, (s.pc t).held = some n → s.locked n = true
  alone : ∀ t t' n, (s.pc t).held = some n → (s.pc t').held = some n → t = t'

theorem Locks.new (shared : σ) : Locks (State.new shared : State τ κ σ α) where
  locked t n h := by cases h
  alone t t' n h := by cases h

variable [DecidableEq τ] {s s' : State τ κ σ α} {t : τ} {p : Pc κ σ α}

theorem held_update (hp : p.held = none) {t' : τ} {n : ℕ}
    (h : (update s.pc t p t').held = some n) : t' ≠ t ∧ (s.pc t').held = some n := by
  by_cases htt : t' = t
  · rw [htt, Function.update_self, hp] at h
    cases h
  · rw [Function.update_of_ne htt] at h
    exact ⟨htt, h⟩

theorem Locks.leave (h : Locks s) (hp : p.held = none) (hpc : s'.pc = update s.pc t p)
    (hlocked : ∀ t' n, t' ≠ t → (s.pc t').held = some n → s'.locked n = true) : Locks s' where
  locked t' n hn := by
    rw [hpc] at hn
    obtain ⟨htt, hn⟩ := held_update hp hn
    exact hlocked t' n htt hn
  alone t₁ t₂ n h₁ h₂ := by
    rw [hpc] at h₁ h₂
    exact h.alone t₁ t₂ n (held_update hp h₁).2 (held_update hp h₂).2

theorem Locks.enter (h : Locks s) {n : ℕ} (hfree : s.locked n = false) (hp : p.held = some n)
    (hpc : s'.pc = update s.pc t p) (hlocked : s'.locked = update s.locked n true) : Locks s' := by
  have hnone (t' : τ) : (s.pc t').held ≠ some n := by
    intro hn
    rw [h.locked t' n hn] at hfree
    cases hfree
  -- whoever has a lock now is the thread that came in, or had it before
  have hheld {t' : τ} {m : ℕ} (hm : (s'.pc t').held = some m) :
      (t' = t ∧ m = n) ∨ ((s.pc t').held = some m ∧ m ≠ n) := by
    rw [hpc] at hm
    by_cases htt : t' = t
    · rw [htt, Function.update_self, hp, Option.some.injEq] at hm
      exact Or.inl ⟨htt, hm.symm⟩
    · rw [Function.update_of_ne htt] at hm
      exact Or.inr ⟨hm, fun hmn => hnone t' (hmn ▸ hm)⟩
  constructor
  · intro t' m hm
    rw [hlocked]
    rcases hheld hm with ⟨-, rfl⟩ | ⟨hm, hmn⟩
    · rw [Function.update_self]
    · rw [Function.update_of_ne hmn]
      exact h.locked t' m hm
  · intro t₁ t₂ m h₁ h₂
    rcases hheld h₁ with ⟨rfl, rfl⟩ | ⟨h₁, hmn⟩
    · rcases hheld h₂ with ⟨rfl, -⟩ | ⟨-, hmn⟩
      · rfl
      · exact absurd rfl hmn
    · rcases hheld h₂ with ⟨-, rfl⟩ | ⟨h₂, -⟩
      · exact absurd rfl hmn
      · exact h.alone t₁ t₂ m h₁ h₂

theorem Locks.work (h : Locks s) (hp : p.held = (s.pc t).held) (hpc : s'.pc = update s.pc t p)
    (hlocked : s'.locked = s.locked) : Locks s' := by
  have hheld (t' : τ) : (s'.pc t').held = (s.pc t').held := by
    rw [hpc]
    by_cases htt : t' = t
    · rw [htt, Function.update_self, hp]
    · rw [Function.update_of_ne htt]
  constructor
  · intro t' n hn
    rw [hheld] at hn
    rw [hlocked]
    exact h.locked t' n hn
  · intro t₁ t₂ n h₁ h₂
    rw [hheld] at h₁ h₂
    exact h.alone t₁ t₂ n h₁ h₂

variable [DecidableEq κ]

theorem Step.locks {a : Action τ κ σ α} (hstep : Step s a s') (hbooks : Books s) (h : Locks s) :
    Locks s' := by
  cases hstep with
  | @acquire t k f ht =>
    unfold State.acquire
    cases hk : s.inflight k with
    | some n => exact h.leave rfl rfl fun t' m _ hm => h.locked t' m hm
    | none =>
      refine h.leave rfl rfl fun t' m _ hm => ?_
      have hne : m ≠ s.fresh := (hbooks.slot_lt t' m (Pc.slot_of_held hm)).ne
      dsimp only
      rw [Function.update_of_ne hne]
      exact h.locked t' m hm
  | lock ht hfree => exact h.enter hfree rfl rfl rfl
  | work ht => exact h.work (by rw [ht]; rfl) rfl rfl
  | @unlock t k n out ht =>
    have hheld : (s.pc t).held = some n := by rw [ht]; rfl
    refine h.leave rfl rfl fun t' m htt hm => ?_
    have hne : m ≠ n := fun hmn => htt (h.alone t' t n (hmn ▸ hm) hheld)
    dsimp only
    rw [Function.update_of_ne hne]
    exact h.locked t' m hm
  | @check t k n out ht =>
    have hstay : Locks (s.goto t (.checked n out)) :=
      h.leave rfl rfl fun t' m _ hm => h.locked t' m hm
    unfold State.check
    split
    · split_ifs
      · exact h.leave rfl rfl fun t' m _ hm => h.locked t' m hm
      · exact hstay
    · exact hstay
  | drop ht => exact h.leave rfl rfl fun t' m _ hm => h.locked t' m hm

end Locks
end Steam2Fs.SingleFlight
