import Mathlib.Tactic

/-!
# Least-recently-used caches

A cache is the list of its entries, the most recently used one first. `touch`
is what a hit does to the order, `put` and `push` insert under a bound on the
number of entries. `ByteLru` is bounded by the total length of its values instead: a
value longer than the whole capacity is not stored, and inserting evicts from
the cold end until the total fits.
-/

namespace Lru
variable {κ β : Type} [DecidableEq κ]

def get (k : κ) (l : List (κ × β)) : Option β := (l.find? fun e => e.1 = k).map Prod.snd

def touch (k : κ) (l : List (κ × β)) : List (κ × β) :=
  match get k l with
  | some v => (k, v) :: l.filter fun e => e.1 ≠ k
  | none => l

def put (capacity : ℕ) (k : κ) (v : β) (l : List (κ × β)) : List (κ × β) :=
  ((k, v) :: l.filter fun e => e.1 ≠ k).take capacity

/-- Insert and hand back what had to go: the old value of the key, or the entry
that was not used for the longest time. -/
def push (capacity : ℕ) (k : κ) (v : β) (l : List (κ × β)) : Option (κ × β) × List (κ × β) :=
  match get k l with
  | some old => (some (k, old), (k, v) :: l.filter fun e => e.1 ≠ k)
  | none =>
    if l.length < capacity then (none, (k, v) :: l)
    else (l.getLast?, (k, v) :: l.dropLast)

theorem mem_of_get {k : κ} {l : List (κ × β)} {v : β} (h : get k l = some v) : (k, v) ∈ l := by
  obtain ⟨e, he, rfl⟩ := Option.map_eq_some_iff.mp h
  have hk : e.1 = k := by simpa using List.find?_some he
  have hm := List.mem_of_find?_eq_some he
  rwa [← hk]

theorem ne_of_get_none {k : κ} {l : List (κ × β)} (h : get k l = none) {e : κ × β} (he : e ∈ l) :
    e.1 ≠ k := by
  have hfind := List.find?_eq_none.mp (Option.map_eq_none_iff.mp h) e he
  simpa using hfind

theorem get_eq_none {k : κ} {l : List (κ × β)} (h : ∀ e ∈ l, e.1 ≠ k) : get k l = none := by
  rw [get, Option.map_eq_none_iff, List.find?_eq_none]
  simpa using h

theorem get_cons_self (k : κ) (v : β) (l : List (κ × β)) : get k ((k, v) :: l) = some v := by
  simp [get]

theorem get_touch {k : κ} {l : List (κ × β)} {v : β} (h : get k l = some v) :
    get k (touch k l) = some v := by
  unfold touch
  rw [h]
  exact get_cons_self k v _

theorem get_put {capacity : ℕ} (hcap : 0 < capacity) (k : κ) (v : β) (l : List (κ × β)) :
    get k (put capacity k v l) = some v := by
  obtain ⟨n, rfl⟩ : ∃ n, capacity = n + 1 := ⟨capacity - 1, by omega⟩
  exact get_cons_self k v _

theorem mem_touch {k : κ} {l : List (κ × β)} {e : κ × β} (h : e ∈ touch k l) : e ∈ l := by
  unfold touch at h
  cases hg : get k l with
  | none => rwa [hg] at h
  | some v =>
    rw [hg] at h
    rcases List.mem_cons.mp h with rfl | h
    · exact mem_of_get hg
    · exact (List.mem_filter.mp h).1

theorem mem_put {capacity : ℕ} {k : κ} {v : β} {l : List (κ × β)} {e : κ × β}
    (h : e ∈ put capacity k v l) : e = (k, v) ∨ e ∈ l := by
  rcases List.mem_cons.mp (List.mem_of_mem_take h) with he | he
  · exact Or.inl he
  · exact Or.inr (List.mem_filter.mp he).1

theorem filter_ne_of_get_none {k : κ} {l : List (κ × β)} (h : get k l = none) :
    l.filter (fun e => e.1 ≠ k) = l := by
  refine List.filter_eq_self.mpr fun e he => ?_
  exact decide_eq_true (ne_of_get_none h he)

theorem get_of_mem {k : κ} {v : β} {l : List (κ × β)} (hkeys : (l.map Prod.fst).Nodup)
    (h : (k, v) ∈ l) : get k l = some v := by
  cases hg : get k l with
  | none => exact absurd rfl (ne_of_get_none hg h)
  | some w =>
    have heq := List.inj_on_of_nodup_map hkeys (mem_of_get hg) h rfl
    rw [(Prod.mk.inj heq).2]

theorem put_take {capacity : ℕ} {k : κ} {v : β} {l : List (κ × β)}
    (h : get k (l.take capacity) = none) :
    put capacity k v (l.take capacity) = ((k, v) :: l).take capacity := by
  rw [put, filter_ne_of_get_none h]
  cases capacity with
  | zero => rfl
  | succ n =>
    rw [List.take_succ_cons, List.take_succ_cons, List.take_take, Nat.min_eq_left (by omega)]

theorem touch_perm {k : κ} {l : List (κ × β)} (hkeys : (l.map Prod.fst).Nodup) :
    (touch k l).Perm l := by
  induction l with
  | nil => exact List.Perm.refl _
  | cons e l ih =>
    rw [List.map_cons, List.nodup_cons] at hkeys
    by_cases he : e.1 = k
    · have hnone : get k l = none := by
        refine get_eq_none fun x hx hk => hkeys.1 ?_
        rw [he, ← hk]
        exact List.mem_map_of_mem hx
      have htouch : touch k (e :: l) = e :: l := by
        have hget : get k (e :: l) = some e.2 := by simp [get, he]
        rw [touch, hget]
        simp only [List.filter_cons, he, ne_eq, not_true_eq_false, decide_false,
          Bool.false_eq_true, if_false]
        rw [filter_ne_of_get_none hnone, ← he]
      rw [htouch]
    · have hget : get k (e :: l) = get k l := by simp [get, he]
      have hrec := ih hkeys.2
      unfold touch at hrec ⊢
      rw [hget]
      cases hv : get k l with
      | none => exact List.Perm.refl _
      | some v =>
        rw [hv] at hrec
        simp only [List.filter_cons, he, ne_eq, not_false_eq_true, decide_true, if_true]
        exact (List.Perm.swap _ _ _).trans (hrec.cons e)

theorem touch_nodup {k : κ} {l : List (κ × β)} (hkeys : (l.map Prod.fst).Nodup) :
    ((touch k l).map Prod.fst).Nodup :=
  ((touch_perm hkeys).map Prod.fst).nodup_iff.mpr hkeys

theorem put_length (capacity : ℕ) (k : κ) (v : β) (l : List (κ × β)) :
    (put capacity k v l).length ≤ capacity :=
  List.length_take_le _ _

theorem put_nodup {capacity : ℕ} {k : κ} {v : β} {l : List (κ × β)}
    (hkeys : (l.map Prod.fst).Nodup) : ((put capacity k v l).map Prod.fst).Nodup := by
  have hrest : ((l.filter fun e => e.1 ≠ k).map Prod.fst).Nodup :=
    hkeys.sublist (List.filter_sublist.map Prod.fst)
  have hnew : k ∉ (l.filter fun e => e.1 ≠ k).map Prod.fst := by
    intro hmem
    obtain ⟨e, he, hk⟩ := List.mem_map.mp hmem
    exact of_decide_eq_true (List.mem_filter.mp he).2 hk
  exact (List.nodup_cons.mpr ⟨hnew, hrest⟩).sublist ((List.take_sublist _ _).map Prod.fst)

end Lru

structure ByteLru (κ : Type) where
  entries : List (κ × List UInt8)
  bytes : ℕ
  capacity : ℕ

namespace ByteLru
variable {κ : Type}

def new (capacity : ℕ) : ByteLru κ := ⟨[], 0, capacity⟩

def popLru (c : ByteLru κ) : ByteLru κ :=
  match c.entries.getLast? with
  | some e => { c with entries := c.entries.dropLast, bytes := c.bytes - e.2.length }
  | none => c

/-- The eviction loop; every round drops an entry, so their number is enough. -/
def evict : ℕ → ByteLru κ → ByteLru κ
  | 0, c => c
  | fuel + 1, c => if c.bytes > c.capacity then evict fuel c.popLru else c

theorem mem_popLru {c : ByteLru κ} {e : κ × List UInt8} (h : e ∈ c.popLru.entries) :
    e ∈ c.entries := by
  unfold popLru at h
  split at h
  · exact List.mem_of_mem_dropLast h
  · exact h

theorem mem_evict {fuel : ℕ} {c : ByteLru κ} {e : κ × List UInt8}
    (h : e ∈ (evict fuel c).entries) : e ∈ c.entries := by
  induction fuel generalizing c with
  | zero => exact h
  | succ fuel ih =>
    rw [evict] at h
    split_ifs at h
    · exact mem_popLru (ih h)
    · exact h

variable [DecidableEq κ]

def get (k : κ) (c : ByteLru κ) : Option (List UInt8) × ByteLru κ :=
  (Lru.get k c.entries, { c with entries := Lru.touch k c.entries })

def insert (k : κ) (v : List UInt8) (c : ByteLru κ) : ByteLru κ :=
  if v.length > c.capacity then c
  else
    let old := ((Lru.get k c.entries).map List.length).getD 0
    let entries := (k, v) :: c.entries.filter fun e => e.1 ≠ k
    evict entries.length { c with entries := entries, bytes := c.bytes - old + v.length }

theorem mem_insert {c : ByteLru κ} {k : κ} {v : List UInt8} {e : κ × List UInt8}
    (h : e ∈ (c.insert k v).entries) : e = (k, v) ∨ e ∈ c.entries := by
  unfold insert at h
  split_ifs at h
  · exact Or.inr h
  · rcases List.mem_cons.mp (mem_evict h) with he | he
    · exact Or.inl he
    · exact Or.inr (List.mem_filter.mp he).1

theorem mem_get {c : ByteLru κ} {k : κ} {e : κ × List UInt8} (h : e ∈ (c.get k).2.entries) :
    e ∈ c.entries :=
  Lru.mem_touch h

end ByteLru

/-! ### Accounting -/

namespace ByteLru
variable {κ : Type}

def total (l : List (κ × List UInt8)) : ℕ := (l.map fun e => e.2.length).sum

@[simp] theorem total_nil : total ([] : List (κ × List UInt8)) = 0 := rfl

@[simp] theorem total_cons (e : κ × List UInt8) (l : List (κ × List UInt8)) :
    total (e :: l) = e.2.length + total l := by
  simp [total]

@[simp] theorem total_append (l l' : List (κ × List UInt8)) :
    total (l ++ l') = total l + total l' := by
  simp [total]

/-- The counter holds the total length of the values and is within the capacity. -/
structure Exact (c : ByteLru κ) : Prop where
  keys : (c.entries.map Prod.fst).Nodup
  bytes : c.bytes = total c.entries
  fits : c.bytes ≤ c.capacity

theorem exact_new (capacity : ℕ) : (new capacity : ByteLru κ).Exact :=
  ⟨List.nodup_nil, rfl, Nat.zero_le _⟩

@[simp] theorem popLru_capacity (c : ByteLru κ) : c.popLru.capacity = c.capacity := by
  unfold popLru
  split
  · rfl
  · rfl

@[simp] theorem evict_capacity (fuel : ℕ) (c : ByteLru κ) :
    (evict fuel c).capacity = c.capacity := by
  induction fuel generalizing c with
  | zero => rfl
  | succ fuel ih =>
    rw [evict]
    split_ifs
    · rw [ih, popLru_capacity]
    · rfl

theorem popLru_concat {c : ByteLru κ} {l : List (κ × List UInt8)} {e : κ × List UInt8}
    (h : c.entries = l ++ [e]) :
    c.popLru = { c with entries := l, bytes := c.bytes - e.2.length } := by
  unfold popLru
  rw [h, List.getLast?_concat, List.dropLast_concat]

/-- The loop removes a suffix of the entries, and a shorter one does not do. -/
structure Evicts (capacity : ℕ) (entries kept : List (κ × List UInt8)) : Prop where
  split : ∃ gone, entries = kept ++ gone
  fits : total kept ≤ capacity
  least : ∀ kept' gone', entries = kept' ++ gone' → total kept' ≤ capacity →
    kept'.length ≤ kept.length

theorem evicts_self {capacity : ℕ} {entries : List (κ × List UInt8)}
    (h : total entries ≤ capacity) : Evicts capacity entries entries := by
  refine ⟨⟨[], (List.append_nil _).symm⟩, h, fun kept' gone' hsplit _ => ?_⟩
  have hlen := congrArg List.length hsplit
  rw [List.length_append] at hlen
  omega

theorem evict_spec {fuel : ℕ} {c : ByteLru κ} (hbytes : c.bytes = total c.entries)
    (hfuel : c.entries.length ≤ fuel) :
    (evict fuel c).bytes = total (evict fuel c).entries ∧
      Evicts c.capacity c.entries (evict fuel c).entries := by
  induction fuel generalizing c with
  | zero =>
    have hnil : c.entries = [] := List.length_eq_zero_iff.mp (by omega)
    refine ⟨hbytes, evicts_self ?_⟩
    rw [hnil, total_nil]
    exact Nat.zero_le _
  | succ fuel ih =>
    rw [evict]
    split_ifs with hover
    · -- an empty cache holds no bytes, so the loop has something to pop
      rcases List.eq_nil_or_concat c.entries with hnil | ⟨l, e, hcons⟩
      · rw [hbytes, hnil, total_nil] at hover
        omega
      · rw [List.concat_eq_append] at hcons
        rw [popLru_concat hcons]
        have htotal : c.bytes - e.2.length = total l := by
          rw [hbytes, hcons, total_append, total_cons, total_nil]
          omega
        have hlen : l.length ≤ fuel := by
          rw [hcons, List.length_append, List.length_singleton] at hfuel
          omega
        obtain ⟨hsum, hrest⟩ := ih (c := { c with entries := l, bytes := c.bytes - e.2.length })
          htotal hlen
        refine ⟨hsum, ?_, hrest.fits, fun kept' gone' hsplit hfits => ?_⟩
        · obtain ⟨gone, hgone⟩ := hrest.split
          refine ⟨gone ++ [e], ?_⟩
          rw [hcons, ← List.append_assoc, ← hgone]
        · -- keeping the last entry keeps everything, which does not fit
          rcases List.eq_nil_or_concat gone' with rfl | ⟨g, x, rfl⟩
          · rw [List.append_nil] at hsplit
            rw [← hsplit] at hfits
            omega
          · rw [hcons, List.concat_eq_append, ← List.append_assoc] at hsplit
            exact hrest.least kept' g (List.append_inj_left' hsplit rfl) hfits
    · exact ⟨hbytes, evicts_self (by omega)⟩

variable [DecidableEq κ]

def others (k : κ) (l : List (κ × List UInt8)) : List (κ × List UInt8) :=
  l.filter fun e => e.1 ≠ k

theorem total_others {k : κ} {l : List (κ × List UInt8)} (hkeys : (l.map Prod.fst).Nodup) :
    total l = ((Lru.get k l).map List.length).getD 0 + total (others k l) := by
  cases hget : Lru.get k l with
  | none =>
    have hself : others k l = l := Lru.filter_ne_of_get_none hget
    simp [hself]
  | some v =>
    have hperm := Lru.touch_perm (k := k) hkeys
    have hsum : total (Lru.touch k l) = total l := (hperm.map _).sum_eq
    rw [← hsum, Lru.touch, hget]
    exact total_cons _ _

theorem others_nodup {k : κ} {l : List (κ × List UInt8)} (hkeys : (l.map Prod.fst).Nodup)
    (v : List UInt8) : (((k, v) :: others k l).map Prod.fst).Nodup := by
  rw [List.map_cons, List.nodup_cons]
  refine ⟨?_, hkeys.sublist (List.filter_sublist.map Prod.fst)⟩
  rintro hmem
  obtain ⟨e, he, hk⟩ := List.mem_map.mp hmem
  exact of_decide_eq_true (List.mem_filter.mp he).2 hk

/-- An insert that fits puts its entry first and keeps the longest run of the
other entries, most recently used first, that still fits. -/
theorem insert_spec {c : ByteLru κ} (hc : c.Exact) (k : κ) {v : List UInt8}
    (hv : v.length ≤ c.capacity) :
    (c.insert k v).Exact ∧ ∃ kept, (c.insert k v).entries = (k, v) :: kept ∧
      Evicts (c.capacity - v.length) (others k c.entries) kept := by
  set entries := (k, v) :: others k c.entries with hentries
  set old := ((Lru.get k c.entries).map List.length).getD 0 with hold
  have hinsert : c.insert k v =
      evict entries.length { c with entries := entries, bytes := c.bytes - old + v.length } := by
    unfold insert
    rw [if_neg (by omega)]
    rfl
  have hbytes : c.bytes - old + v.length = total entries := by
    have hsum := total_others (k := k) hc.keys
    have hcount := hc.bytes
    rw [hentries, total_cons]
    dsimp only
    omega
  obtain ⟨hsum, ⟨gone, hgone⟩, hfits, hleast⟩ := evict_spec
    (c := { c with entries := entries, bytes := c.bytes - old + v.length }) hbytes
    (le_refl entries.length)
  rw [← hinsert] at hsum hgone hfits hleast
  have hcap : (c.insert k v).capacity = c.capacity := by rw [hinsert, evict_capacity]
  -- the new entry alone fits, so at least one entry is kept
  have hone := hleast [(k, v)] (others k c.entries) rfl (by simpa using hv)
  rcases hshape : (c.insert k v).entries with _ | ⟨e, kept⟩
  · rw [hshape] at hone
    simp at hone
  · rw [hshape] at hgone hfits hleast hsum
    have hsplit : entries = e :: (kept ++ gone) := hgone
    rw [hentries, List.cons.injEq] at hsplit
    obtain ⟨rfl, hothers⟩ := hsplit
    rw [total_cons] at hfits
    refine ⟨⟨?_, ?_, ?_⟩, kept, rfl, ⟨gone, hothers⟩, ?_, fun kept' gone' hk hk' => ?_⟩
    · rw [hshape]
      have hsub : ((k, v) :: kept).Sublist ((k, v) :: others k c.entries) := by
        rw [hothers]
        exact (List.sublist_append_left kept gone).cons_cons _
      exact (others_nodup hc.keys v).sublist (hsub.map Prod.fst)
    · rw [hshape, hsum]
    · rw [hsum, hcap, total_cons]
      exact hfits
    · dsimp only at hfits
      omega
    · have hle := hleast ((k, v) :: kept') gone' (by rw [hentries, hk]; rfl)
        (by rw [total_cons]; dsimp only; omega)
      simpa using hle

theorem insert_oversize {c : ByteLru κ} {k : κ} {v : List UInt8} (hv : c.capacity < v.length) :
    c.insert k v = c := by
  rw [insert, if_pos hv]

@[simp] theorem insert_capacity (c : ByteLru κ) (k : κ) (v : List UInt8) :
    (c.insert k v).capacity = c.capacity := by
  unfold insert
  split_ifs
  · rfl
  · rw [evict_capacity]

theorem insert_exact {c : ByteLru κ} (hc : c.Exact) (k : κ) (v : List UInt8) :
    (c.insert k v).Exact := by
  by_cases hv : v.length ≤ c.capacity
  · exact (insert_spec hc k hv).1
  · rw [insert_oversize (by omega)]
    exact hc

theorem get_exact {c : ByteLru κ} (hc : c.Exact) (k : κ) : (c.get k).2.Exact := by
  have hperm := Lru.touch_perm (k := k) hc.keys
  refine ⟨?_, ?_, hc.fits⟩
  · exact (hperm.map Prod.fst).nodup_iff.mpr hc.keys
  · exact hc.bytes.trans (hperm.map _).sum_eq.symm

end ByteLru
