import Steam2Fs.Lib.Lru
import Steam2Fs.Backend

/-!
# The byte counter of the buffer caches

`ByteLru` counts the bytes it holds beside the map, in a `usize`. `insertIn`
computes with that counter as the code does: it panics or wraps where a sum or
a difference leaves the type, depending on the build. Over every sequence of
calls in which no sum leaves the type, it is the insert of the counter without
a bound, so the counter is exact and the entries that are evicted are the
least recently used ones.

A call is a use of its key, but for an insert that is too long to be stored.
-/

namespace Steam2Fs

namespace ByteCache
open ByteLru

/-! ### The counter as the code keeps it -/

section Machine
variable {κ ε : Type} (checks : Bool)

def evictIn : ℕ → ByteLru κ → Outcome ε (ByteLru κ)
  | 0, c => .ok c
  | fuel + 1, c =>
    if c.bytes > c.capacity then
      match c.entries.getLast? with
      | some e => do
        let bytes ← u64Sub checks c.bytes e.2.length
        evictIn fuel { c with entries := c.entries.dropLast, bytes := bytes }
      | none => .ok c
    else .ok c

variable [DecidableEq κ]

def insertIn (k : κ) (v : List UInt8) (c : ByteLru κ) : Outcome ε (ByteLru κ) :=
  if v.length > c.capacity then .ok c
  else do
    let bytes ← match Lru.get k c.entries with
      | some old => u64Sub checks c.bytes old.length
      | none => .ok c.bytes
    let bytes ← u64Add checks bytes v.length
    let entries := (k, v) :: others k c.entries
    evictIn checks entries.length { c with entries := entries, bytes := bytes }

inductive Call (κ : Type) where
  | get (k : κ)
  | insert (k : κ) (v : List UInt8)

def call (c : ByteLru κ) : Call κ → Outcome ε (ByteLru κ)
  | .get k => .ok (c.get k).2
  | .insert k v => insertIn checks k v c

def calls : List (Call κ) → ByteLru κ → Outcome ε (ByteLru κ)
  | [], c => .ok c
  | a :: as, c => do calls as (← call checks c a)

end Machine

section Exact
variable {κ ε : Type} {checks : Bool}

theorem evictIn_eq {fuel : ℕ} {c : ByteLru κ} (hbytes : c.bytes = total c.entries) :
    (evictIn checks fuel c : Outcome ε (ByteLru κ)) = .ok (evict fuel c) := by
  induction fuel generalizing c with
  | zero => rfl
  | succ fuel ih =>
    rw [evictIn, evict]
    split_ifs with hover
    · rcases List.eq_nil_or_concat c.entries with hnil | ⟨l, e, hcons⟩
      · rw [hbytes, hnil, total_nil] at hover
        omega
      · rw [List.concat_eq_append] at hcons
        have hsum : c.bytes = total l + e.2.length := by
          rw [hbytes, hcons, total_append, total_cons, total_nil, Nat.add_zero]
        rw [popLru_concat hcons, hcons, List.getLast?_concat, List.dropLast_concat]
        dsimp only
        rw [u64Sub_ok (by omega), Outcome.ok_bind]
        exact ih (by dsimp only; omega)
    · rfl

variable [DecidableEq κ]

/-- The sum an insert computes stays in the counter's type. -/
def Room (c : ByteLru κ) : Call κ → Prop
  | .get _ => True
  | .insert k v => v.length ≤ c.capacity → total (others k c.entries) + v.length < 2 ^ 64

instance (c : ByteLru κ) : (a : Call κ) → Decidable (Room c a)
  | .get _ => inferInstanceAs (Decidable True)
  | .insert _ _ => inferInstanceAs (Decidable (_ → _))

theorem insertIn_eq {c : ByteLru κ} (hc : c.Exact) {k : κ} {v : List UInt8}
    (hroom : Room c (.insert k v)) :
    (insertIn checks k v c : Outcome ε (ByteLru κ)) = .ok (c.insert k v) := by
  unfold insertIn ByteLru.insert
  split_ifs with hover
  · rfl
  · have hsum := total_others (k := k) hc.keys
    have hcount := hc.bytes
    have hlt := hroom (Nat.le_of_not_lt hover)
    cases hget : Lru.get k c.entries with
    | none =>
      rw [hget] at hsum
      simp only [Option.map_none, Option.getD_none, Nat.zero_add] at hsum
      dsimp only
      rw [Outcome.ok_bind, u64Add_lt (by omega), Outcome.ok_bind]
      refine evictIn_eq ?_
      rw [total_cons]
      dsimp only
      omega
    | some old =>
      rw [hget] at hsum
      simp only [Option.map_some, Option.getD_some] at hsum
      dsimp only
      rw [u64Sub_ok (by omega), Outcome.ok_bind, u64Add_lt (by omega), Outcome.ok_bind]
      refine evictIn_eq ?_
      rw [total_cons]
      dsimp only
      omega

end Exact

/-! ### Histories -/

section History
variable {κ ε : Type} [DecidableEq κ] {checks : Bool}

def after (c : ByteLru κ) : Call κ → ByteLru κ
  | .get k => (c.get k).2
  | .insert k v => c.insert k v

def RoomAll : ByteLru κ → List (Call κ) → Prop
  | _, [] => True
  | c, a :: as => Room c a ∧ RoomAll (after c a) as

/-- The key that a call uses: its own, unless it is an insert that is dropped. -/
def Call.used (capacity : ℕ) : Call κ → Option κ
  | .get k => some k
  | .insert k v => if v.length ≤ capacity then some k else none

def use (l : List κ) : Option κ → List κ
  | some k => k :: l.filter fun k' => k' ≠ k
  | none => l

/-- The keys that calls used, each once, the most recently used first. -/
def recent (capacity : ℕ) (as : List (Call κ)) : List κ :=
  as.foldl (fun l a => use l (a.used capacity)) []

def Call.stores (capacity : ℕ) (k : κ) : Call κ → Option (List UInt8)
  | .get _ => none
  | .insert k' v => if k' = k ∧ v.length ≤ capacity then some v else none

/-- The value most recently inserted for a key among those that could be stored. -/
def latest (capacity : ℕ) (k : κ) (as : List (Call κ)) : Option (List UInt8) :=
  as.foldl (fun old a => (a.stores capacity k).or old) none

/-- What the calls `as` made of a new cache. -/
structure Made (capacity : ℕ) (as : List (Call κ)) (c : ByteLru κ) : Prop where
  limit : c.capacity = capacity
  exact : c.Exact
  order : (c.entries.map Prod.fst).Sublist (recent capacity as)
  values : ∀ k v, (k, v) ∈ c.entries → latest capacity k as = some v

theorem call_eq {c : ByteLru κ} (hc : c.Exact) {a : Call κ} (hroom : Room c a) :
    (call checks c a : Outcome ε (ByteLru κ)) = .ok (after c a) := by
  cases a with
  | get k => rfl
  | insert k v => exact insertIn_eq hc hroom

theorem made_new (capacity : ℕ) : Made capacity [] (new capacity : ByteLru κ) :=
  ⟨rfl, exact_new capacity, List.Sublist.refl _, fun _ _ h => absurd h List.not_mem_nil⟩

theorem recent_concat (capacity : ℕ) (as : List (Call κ)) (a : Call κ) :
    recent capacity (as ++ [a]) = use (recent capacity as) (a.used capacity) := by
  rw [recent, List.foldl_append]
  rfl

theorem latest_concat (capacity : ℕ) (k : κ) (as : List (Call κ)) (a : Call κ) :
    latest capacity k (as ++ [a]) = (a.stores capacity k).or (latest capacity k as) := by
  rw [latest, List.foldl_append]
  rfl

theorem others_keys_sublist {k : κ} {l : List (κ × List UInt8)} {ks : List κ}
    (h : (l.map Prod.fst).Sublist ks) :
    ((others k l).map Prod.fst).Sublist (ks.filter fun k' => k' ≠ k) := by
  have hmap : (others k l).map Prod.fst = (l.map Prod.fst).filter fun k' => k' ≠ k := by
    rw [List.filter_map]
    rfl
  rw [hmap]
  exact h.filter _

theorem Made.get {capacity : ℕ} {as : List (Call κ)} {c : ByteLru κ} (h : Made capacity as c)
    (k : κ) : Made capacity (as ++ [.get k]) (c.get k).2 := by
  refine ⟨h.limit, get_exact h.exact k, ?_, fun k' v hmem => ?_⟩
  · rw [recent_concat]
    show ((Lru.touch k c.entries).map Prod.fst).Sublist (k :: _)
    have hothers := others_keys_sublist (k := k) h.order
    unfold Lru.touch
    cases hget : Lru.get k c.entries with
    | none =>
      have hself : others k c.entries = c.entries := Lru.filter_ne_of_get_none hget
      rw [hself] at hothers
      exact hothers.cons k
    | some v => exact hothers.cons_cons k
  · rw [latest_concat]
    exact h.values k' v (mem_get hmem)

theorem Made.insert {capacity : ℕ} {as : List (Call κ)} {c : ByteLru κ} (h : Made capacity as c)
    (k : κ) (v : List UInt8) : Made capacity (as ++ [.insert k v]) (c.insert k v) := by
  by_cases hv : v.length ≤ capacity
  · have hvc : v.length ≤ c.capacity := by rwa [h.limit]
    obtain ⟨hexact, kept, hentries, ⟨gone, hgone⟩, -⟩ := insert_spec h.exact k hvc
    have hkept : kept.Sublist (others k c.entries) := by
      rw [hgone]
      exact List.sublist_append_left kept gone
    refine ⟨(insert_capacity c k v).trans h.limit, hexact, ?_, fun k' v' hmem => ?_⟩
    · rw [recent_concat, Call.used, if_pos hv, hentries]
      exact ((hkept.map Prod.fst).trans (others_keys_sublist h.order)).cons_cons k
    · rw [latest_concat, Call.stores]
      rw [hentries] at hmem
      rcases List.mem_cons.mp hmem with heq | hmem
      · cases heq
        rw [if_pos ⟨rfl, hv⟩, Option.some_or]
      · obtain ⟨hold, hne⟩ := List.mem_filter.mp (hkept.subset hmem)
        have hne' : k ≠ k' := fun heq => of_decide_eq_true hne heq.symm
        rw [if_neg (fun hk => hne' hk.1), Option.none_or]
        exact h.values k' v' hold
  · rw [insert_oversize (by rw [h.limit]; omega)]
    refine ⟨h.limit, h.exact, ?_, fun k' v' hmem => ?_⟩
    · rw [recent_concat, Call.used, if_neg hv]
      exact h.order
    · rw [latest_concat, Call.stores, if_neg (fun hk => hv hk.2), Option.none_or]
      exact h.values k' v' hmem

theorem Made.after {capacity : ℕ} {as : List (Call κ)} {c : ByteLru κ} (h : Made capacity as c)
    (a : Call κ) : Made capacity (as ++ [a]) (after c a) := by
  cases a with
  | get k => exact h.get k
  | insert k v => exact h.insert k v

/-- Run lemma: the calls come back, and the cache they leave is as described. -/
theorem Made.calls {capacity : ℕ} {done as : List (Call κ)} {c : ByteLru κ}
    (h : Made capacity done c) (hroom : RoomAll c as) :
    ∃ c', (calls checks as c : Outcome ε (ByteLru κ)) = .ok c' ∧ Made capacity (done ++ as) c' := by
  induction as generalizing c done with
  | nil => exact ⟨c, rfl, by rwa [List.append_nil]⟩
  | cons a as ih =>
    obtain ⟨c', hrun, hmade⟩ := ih (h.after a) hroom.2
    refine ⟨c', ?_, ?_⟩
    · rw [ByteCache.calls, call_eq h.exact hroom.1, Outcome.ok_bind]
      exact hrun
    · rwa [List.append_assoc] at hmade

theorem room_of_capacity {c : ByteLru κ} (hc : c.Exact) (hcap : c.capacity < 2 ^ 63)
    (a : Call κ) : Room c a := by
  cases a with
  | get k => trivial
  | insert k v =>
    intro hv
    have hsum := total_others (k := k) hc.keys
    have hcount := hc.bytes
    have hfits := hc.fits
    omega

theorem roomAll_of_capacity {c : ByteLru κ} (hc : c.Exact) (hcap : c.capacity < 2 ^ 63)
    (as : List (Call κ)) : RoomAll c as := by
  induction as generalizing c with
  | nil => trivial
  | cons a as ih =>
    refine ⟨room_of_capacity hc hcap a, ?_⟩
    cases a with
    | get k => exact ih (get_exact hc k) hcap
    | insert k v =>
      refine ih (insert_exact hc k v) ?_
      rwa [after, insert_capacity]

/-- Over every sequence of calls whose sums fit the counter no subtraction
underflows, the counter is the total length of the stored values and within the
capacity, and what is stored is the latest value that could be. An insert that
fits is readable at once, and of the other entries, which are in the order of
their last use, it keeps the longest run that fits beside it; one that is too
long changes nothing. -/
theorem calls_exact (checks : Bool) (capacity : ℕ) (as : List (Call κ))
    (hroom : RoomAll (new capacity) as) :
    ∃ c : ByteLru κ, (calls checks as (new capacity) : Outcome ε (ByteLru κ)) = .ok c ∧
      c.bytes = total c.entries ∧ c.bytes ≤ capacity ∧
      (c.entries.map Prod.fst).Sublist (recent capacity as) ∧
      (∀ k v, (c.get k).1 = some v → latest capacity k as = some v) ∧
      (∀ k v, capacity < v.length → (insertIn checks k v c : Outcome ε (ByteLru κ)) = .ok c) ∧
      ∀ k v, v.length ≤ capacity → Room c (.insert k v) →
        ∃ c' : ByteLru κ, (insertIn checks k v c : Outcome ε (ByteLru κ)) = .ok c' ∧
          (c'.get k).1 = some v ∧
          ∃ kept gone, others k c.entries = kept ++ gone ∧ c'.entries = (k, v) :: kept ∧
            total kept + v.length ≤ capacity ∧
            ∀ kept' gone', others k c.entries = kept' ++ gone' →
              total kept' + v.length ≤ capacity → gone.length ≤ gone'.length := by
  have hcalls : ∃ c : ByteLru κ, (calls checks as (new capacity) : Outcome ε (ByteLru κ)) = .ok c ∧
      Made capacity ([] ++ as) c := (made_new capacity).calls hroom
  obtain ⟨c, hrun, hmade⟩ := hcalls
  refine ⟨c, hrun, hmade.exact.bytes, ?_, hmade.order, fun k v hget => ?_, fun k v hv => ?_,
    fun k v hv hnext => ?_⟩
  · rw [← hmade.limit]
    exact hmade.exact.fits
  · exact hmade.values k v (Lru.mem_of_get hget)
  · exact if_pos (by rwa [hmade.limit])
  · have hvc : v.length ≤ c.capacity := by rwa [hmade.limit]
    obtain ⟨-, kept, hentries, ⟨gone, hgone⟩, hfits, hleast⟩ := insert_spec hmade.exact k hvc
    rw [hmade.limit] at hfits hleast
    refine ⟨c.insert k v, insertIn_eq hmade.exact hnext, ?_, kept, gone, hgone, hentries, by omega,
      fun kept' gone' hsplit hkept' => ?_⟩
    · show Lru.get k (c.insert k v).entries = some v
      rw [hentries]
      exact Lru.get_cons_self k v kept
    · have hle := hleast kept' gone' hsplit (by omega)
      have hlen := congrArg List.length (hgone.symm.trans hsplit)
      rw [List.length_append, List.length_append] at hlen
      omega

def evictsByBytes : List (Call ℕ) :=
  [.insert 1 [0, 0, 0, 0], .insert 2 [0, 0, 0, 0], .get 1, .insert 3 [0, 0, 0, 0]]

theorem calls_exact_evictsByBytes : ∃ c : ByteLru ℕ,
    (calls true evictsByBytes (new 10) : Outcome Unit (ByteLru ℕ)) = .ok c ∧
      c.bytes = total c.entries ∧ c.bytes ≤ 10 := by
  have hroom : RoomAll (new 10) evictsByBytes :=
    roomAll_of_capacity (exact_new 10) (by decide : (10 : ℕ) < 2 ^ 63) _
  obtain ⟨c, hrun, hbytes, hfits, -⟩ := calls_exact true 10 evictsByBytes hroom
  exact ⟨c, hrun, hbytes, hfits⟩

end History

/-! ### Where the counter leaves its type -/

section Overflow
variable {ε : Type} {checks : Bool}

def tebibyte : List UInt8 := List.replicate (2 ^ 40) 0

theorem tebibyte_length : tebibyte.length = 2 ^ 40 := List.length_replicate

/-- The calls that insert one buffer of 2^40 bytes under each key below `n`. -/
def shared (n : ℕ) : List (Call ℕ) := (List.range n).map fun k => .insert k tebibyte

def sharedEntries (n : ℕ) : List (ℕ × List UInt8) :=
  ((List.range n).map fun k => (k, tebibyte)).reverse

theorem calls_append {κ : Type} [DecidableEq κ] (as bs : List (Call κ)) (c : ByteLru κ) :
    (calls checks (as ++ bs) c : Outcome ε (ByteLru κ)) =
      calls checks as c >>= calls checks bs := by
  induction as generalizing c with
  | nil => rfl
  | cons a as ih =>
    rw [List.cons_append, calls, calls]
    cases call checks c a with
    | ok c' => exact ih c'
    | err e => rfl
    | panic => rfl

theorem shared_succ (n : ℕ) : shared (n + 1) = shared n ++ [.insert n tebibyte] := by
  rw [shared, List.range_succ, List.map_append]
  rfl

theorem sharedEntries_succ (n : ℕ) :
    sharedEntries (n + 1) = (n, tebibyte) :: sharedEntries n := by
  rw [sharedEntries, List.range_succ, List.map_append, List.reverse_append]
  rfl

theorem get_sharedEntries (n : ℕ) : Lru.get n (sharedEntries n) = none := by
  refine Lru.get_eq_none fun e he => ?_
  obtain ⟨k, hk, rfl⟩ := List.mem_map.mp (List.mem_reverse.mp he)
  exact (List.mem_range.mp hk).ne

theorem total_sharedEntries (n : ℕ) : total (sharedEntries n) = n * 2 ^ 40 := by
  induction n with
  | zero => rfl
  | succ n ih =>
    rw [sharedEntries_succ, total_cons, ih, tebibyte_length]
    omega

theorem insertIn_shared {n bytes : ℕ} :
    (insertIn checks n tebibyte ⟨sharedEntries n, bytes, 2 ^ 64 - 1⟩ :
        Outcome ε (ByteLru ℕ)) =
      (u64Add checks bytes (2 ^ 40) >>= fun b =>
        evictIn checks (n + 1) ⟨sharedEntries (n + 1), b, 2 ^ 64 - 1⟩) := by
  have hothers : others n (sharedEntries n) = sharedEntries n :=
    Lru.filter_ne_of_get_none (get_sharedEntries n)
  have hlen : (sharedEntries n).length = n := by simp [sharedEntries]
  unfold insertIn
  have hsmall : ¬ 2 ^ 40 > 2 ^ 64 - 1 := by norm_num
  rw [tebibyte_length, if_neg hsmall]
  dsimp only
  rw [get_sharedEntries]
  dsimp only
  rw [Outcome.ok_bind, hothers, ← sharedEntries_succ, sharedEntries_succ, List.length_cons, hlen]

theorem evictIn_fits {κ : Type} {fuel : ℕ} {c : ByteLru κ} (h : c.bytes ≤ c.capacity) :
    (evictIn checks fuel c : Outcome ε (ByteLru κ)) = .ok c := by
  cases fuel with
  | zero => rfl
  | succ fuel => rw [evictIn, if_neg (by omega)]

theorem calls_shared_succ {n bytes : ℕ}
    (h : (calls checks (shared n) (new (2 ^ 64 - 1)) : Outcome ε (ByteLru ℕ)) =
      .ok ⟨sharedEntries n, bytes, 2 ^ 64 - 1⟩) :
    (calls checks (shared (n + 1)) (new (2 ^ 64 - 1)) : Outcome ε (ByteLru ℕ)) =
      (u64Add checks bytes (2 ^ 40) >>= fun b =>
        evictIn checks (n + 1) ⟨sharedEntries (n + 1), b, 2 ^ 64 - 1⟩) >>= .ok := by
  rw [shared_succ, calls_append, h, Outcome.ok_bind, calls, call, insertIn_shared]
  rfl

theorem calls_shared {n : ℕ} (hn : n < 2 ^ 24) :
    (calls checks (shared n) (new (2 ^ 64 - 1)) : Outcome ε (ByteLru ℕ)) =
      .ok ⟨sharedEntries n, n * 2 ^ 40, 2 ^ 64 - 1⟩ := by
  induction n with
  | zero => rfl
  | succ n ih =>
    rw [calls_shared_succ (ih (by omega)), u64Add_lt (by omega), Outcome.ok_bind,
      evictIn_fits (by dsimp only; omega), Outcome.ok_bind, Nat.succ_mul]

/-- An insert that is too long to be stored is not a use: key 1, inserted last in
that way, is evicted before key 2. And one buffer stored under 2^24 keys takes
the sum out of the counter's type: the insert panics, or the counter starts
again at zero with every entry still stored. -/
theorem calls_not_exact :
    (∃ c : ByteLru ℕ, (calls true [.insert 1 [0, 0, 0, 0], .insert 2 [0, 0, 0, 0],
        .insert 1 [0, 0, 0, 0, 0, 0, 0, 0, 0, 0, 0], .insert 3 [0, 0, 0, 0]] (new 10) :
        Outcome Unit (ByteLru ℕ)) = .ok c ∧ c.entries.map Prod.fst = [3, 2]) ∧
      (calls true (shared (2 ^ 24)) (new (2 ^ 64 - 1)) : Outcome Unit (ByteLru ℕ)) = .panic ∧
      ∃ c : ByteLru ℕ,
        (calls false (shared (2 ^ 24)) (new (2 ^ 64 - 1)) : Outcome Unit (ByteLru ℕ)) = .ok c ∧
          c.bytes = 0 ∧ total c.entries = 2 ^ 64 := by
  have hkeys : 2 ^ 24 = 16777215 + 1 := by norm_num
  have hbefore : 16777215 < 2 ^ 24 := by norm_num
  rw [hkeys]
  refine ⟨⟨_, rfl, rfl⟩, ?_, ⟨sharedEntries (16777215 + 1), 0, 2 ^ 64 - 1⟩, ?_, rfl, ?_⟩
  · have hadd : (u64Add true (16777215 * 2 ^ 40) (2 ^ 40) : Outcome Unit ℕ) = .panic := by
      decide
    rw [calls_shared_succ (calls_shared hbefore), hadd, Outcome.panic_bind, Outcome.panic_bind]
  · have hadd : (u64Add false (16777215 * 2 ^ 40) (2 ^ 40) : Outcome Unit ℕ) = .ok 0 := by
      decide
    rw [calls_shared_succ (calls_shared hbefore), hadd, Outcome.ok_bind,
      evictIn_fits (Nat.zero_le _), Outcome.ok_bind]
  · rw [total_sharedEntries]
    norm_num

end Overflow
end ByteCache
end Steam2Fs
