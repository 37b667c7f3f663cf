import Steam2Fs.StoreTables
import Steam2Fs.StoreChanges

/-!
# What a store holds on to

The caches of a store are bounded: parsed blobs and file tables by their
number, windows and blocks by their bytes, and a blob has at most one
remembered key resolution. The bounds hold at every moment of any number of
calls, also while other processes do what they like to the cache directory,
and what is cached is always something the dump holds.
-/

namespace Steam2Fs.Dump
open Outcome

/-! ### Bounds -/

def cacheStats (s : Store) : ℕ × ℕ := (s.raw.bytes, s.blocks.bytes)

structure WithinBounds (d : Dump) (s : Store) : Prop where
  parsed_count : s.parsed.length ≤ PARSED_CAPACITY
  parsed_keys : (s.parsed.map Prod.fst).Nodup
  parsed_parse : ∀ e ∈ s.parsed, ∃ bytes, parseBlob d.codec bytes = .ok e.2
  table_count : s.tables.length ≤ TABLE_CAPACITY
  table_keys : (s.tables.map Prod.fst).Nodup
  raw : s.raw.Exact
  raw_capacity : s.raw.capacity = d.cfg.rawCacheBytes
  windows : d.Windows s
  blocks : s.blocks.Exact
  block_capacity : s.blocks.capacity = d.cfg.blockCacheBytes
  resolved : ∀ source, (s.resolvedKeys source).isSome = true → source < d.index.blobs.length

section Bounds
variable {d : Dump} {s s' : Store}

theorem withinBounds_new (d : Dump) (cacheDir : ℕ → Option Bytes) :
    d.WithinBounds (Store.new d cacheDir) where
  parsed_count := Nat.zero_le _
  parsed_keys := List.nodup_nil
  parsed_parse := fun _ he => absurd he List.not_mem_nil
  table_count := Nat.zero_le _
  table_keys := List.nodup_nil
  raw := ByteLru.exact_new _
  raw_capacity := rfl
  windows := fun _ he => absurd he List.not_mem_nil
  blocks := ByteLru.exact_new _
  block_capacity := rfl
  resolved := fun _ h => by simp [Store.new] at h

theorem setCacheFile_eq (id : ℕ) (content : Option Bytes) (s : Store) :
    ∃ dir, d.setCacheFile id content s = { s with cacheDir := dir } := by
  unfold setCacheFile
  split_ifs
  · exact ⟨_, rfl⟩
  · exact ⟨s.cacheDir, rfl⟩

theorem WithinBounds.cacheDir (h : d.WithinBounds s) (dir : ℕ → Option Bytes) :
    d.WithinBounds { s with cacheDir := dir } :=
  ⟨h.parsed_count, h.parsed_keys, h.parsed_parse, h.table_count, h.table_keys, h.raw,
    h.raw_capacity, h.windows, h.blocks, h.block_capacity, h.resolved⟩

theorem touch_length {κ β : Type} [DecidableEq κ] {k : κ} {l : List (κ × β)}
    (hkeys : (l.map Prod.fst).Nodup) : (Lru.touch k l).length = l.length :=
  (Lru.touch_perm hkeys).length_eq

theorem Change.withinBounds (hc : d.Change s s') (h : d.WithinBounds s) : d.WithinBounds s' := by
  cases hc with
  | look => exact h
  | hitParsed id =>
    exact { h with
      parsed_count := (touch_length h.parsed_keys).trans_le h.parsed_count
      parsed_keys := Lru.touch_nodup h.parsed_keys
      parsed_parse := fun e he => h.parsed_parse e (Lru.mem_touch he) }
  | putParsed id p hp =>
    refine { h with
      parsed_count := Lru.put_length _ id p _
      parsed_keys := Lru.put_nodup h.parsed_keys
      parsed_parse := fun e he => ?_ }
    rcases Lru.mem_put he with rfl | he
    · exact hp
    · exact h.parsed_parse e he
  | hitTable id =>
    exact { h with
      table_count := (touch_length h.table_keys).trans_le h.table_count
      table_keys := Lru.touch_nodup h.table_keys }
  | putTable id t =>
    exact { h with
      table_count := Lru.put_length _ id t _
      table_keys := Lru.put_nodup h.table_keys }
  | hitRaw key =>
    exact { h with
      raw := ByteLru.get_exact h.raw key
      windows := fun e he => h.windows e (ByteLru.mem_get he) }
  | putRaw key w hw =>
    refine { h with
      raw := ByteLru.insert_exact h.raw key w
      raw_capacity := (ByteLru.insert_capacity _ key w).trans h.raw_capacity
      windows := fun e he => ?_ }
    rcases ByteLru.mem_insert he with rfl | he
    · exact hw
    · exact h.windows e he
  | hitBlock key => exact { h with blocks := ByteLru.get_exact h.blocks key }
  | putBlock key v =>
    exact { h with
      blocks := ByteLru.insert_exact h.blocks key v
      block_capacity := (ByteLru.insert_capacity _ key v).trans h.block_capacity }
  | resolve source r hsource =>
    refine { h with resolved := fun source' hr => ?_ }
    by_cases heq : source' = source
    · rwa [heq]
    · dsimp only at hr
      rw [Function.update_of_ne heq] at hr
      exact h.resolved source' hr
  | cacheFile id content _ =>
    obtain ⟨dir, hdir⟩ := setCacheFile_eq (d := d) id content s
    rw [hdir]
    exact h.cacheDir dir

/-- What other processes can do to a store: change the cache directory. -/
def OthersWrite (s s' : Store) : Prop := ∃ dir, s' = { s with cacheDir := dir }

/-- In every state that any calls come through, whatever happens to the cache
directory meanwhile, the caches are within their bounds and hold only what
parses or what the dats hold, and the counters are the sums they stand for. -/
theorem store_within_bounds (d : Dump) (cacheDir : ℕ → Option Bytes)
    {pool : Pool Store Request Reply}
    (hpool : Pool.Reachable (Request.prog d) Set.univ OthersWrite (Store.new d cacheDir) pool) :
    d.WithinBounds pool.state ∧
      cacheStats pool.state =
        (ByteLru.total pool.state.raw.entries, ByteLru.total pool.state.blocks.entries) ∧
      (cacheStats pool.state).1 ≤ d.cfg.rawCacheBytes ∧
      (cacheStats pool.state).2 ≤ d.cfg.blockCacheBytes := by
  have hkeeps : ∀ r ∈ (Set.univ : Set Request),
      (r.prog d).Keeps d.WithinBounds fun _ => True :=
    fun r _ => (request_does r).keeps fun _ _ hc => hc.withinBounds
  have henv : ∀ s s', OthersWrite s s' → d.WithinBounds s → d.WithinBounds s' := by
    rintro s _ ⟨dir, rfl⟩ h
    exact h.cacheDir dir
  obtain ⟨h, -⟩ := hpool.keeps hkeeps henv (withinBounds_new d cacheDir)
  refine ⟨h, Prod.ext h.raw.bytes h.blocks.bytes, ?_, ?_⟩
  · rw [← h.raw_capacity]
    exact h.raw.fits
  · rw [← h.block_capacity]
    exact h.blocks.fits

theorem store_within_bounds_twoVersions :
    ∃ (pool : Pool Store Request Reply) (r : Reply), pool.Answered (.table 1) r ∧
      twoVersions.dump.WithinBounds pool.state := by
  have hcall : Request.table 1 ∈ (Set.univ : Set Request) := Set.mem_univ _
  obtain ⟨pool, hpool, hans⟩ := Pool.Reachable.first_call _ hcall
  exact ⟨pool, _, hans, (store_within_bounds twoVersions.dump (fun _ => none) hpool).1⟩

end Bounds
end Steam2Fs.Dump
