import Steam2Fs.Backend
import Steam2Fs.ChecksumFormat
import Steam2Fs.StoreTables

/-!
# Arithmetic over a file's blocks

A record's size, offset, block count and stored sizes are fields of the table
that nothing relates to each other. `own_table` sums the stored sizes up from
the offset, and `block` subtracts the ends of a block's range in the file and
of its span in the dat. Here the sums and differences are computed as `u64`
values, in a build with or without overflow checks: without, they are the ones
the store works with; with checks, they come out exactly for the records whose
last block starts inside the file and whose blocks end below 2^64.
-/

namespace Steam2Fs
open Outcome

def u64Mul {ε : Type} (checks : Bool) (a b : ℕ) : Outcome ε ℕ :=
  if a * b < 2 ^ 64 then .ok (a * b)
  else if checks then .panic
  else .ok (a * b % 2 ^ 64)

def blockOffsetsIn {ε : Type} (checks : Bool) : ℕ → List Block → Outcome ε (List ℕ)
  | off, [] => .ok [off]
  | off, b :: bs => do
    let next ← u64Add checks off b.compressedSize.toNat
    let rest ← blockOffsetsIn checks next bs
    .ok (off :: rest)

namespace FileRecord

def blockRangeIn {ε : Type} (checks : Bool) (r : FileRecord) (i : ℕ) : Outcome ε (ℕ × ℕ) := do
  let start ← u64Mul checks i BLOCK_SIZE
  let stop ← u64Add checks start BLOCK_SIZE
  .ok (start, min stop r.size.toNat)

/-- What reading block `i` computes: its length in the file and in the dat. -/
def blockLengthsIn (checks : Bool) (r : FileRecord) (i : ℕ) : Outcome Unit (ℕ × ℕ) := do
  let offsets ← blockOffsetsIn checks r.offset.toNat r.blocks
  let start ← Outcome.ofOption () offsets[i]?
  let stop ← Outcome.ofOption () offsets[i + 1]?
  let stored ← u64Sub checks stop start
  let (bs, be) ← r.blockRangeIn checks i
  let want ← u64Sub checks be bs
  .ok (want, stored)

end FileRecord

def storedSize (blocks : List Block) : ℕ := (blocks.map fun b => b.compressedSize.toNat).sum

@[simp] theorem storedSize_cons (b : Block) (bs : List Block) :
    storedSize (b :: bs) = b.compressedSize.toNat + storedSize bs := by
  simp [storedSize]

section Offsets
variable {ε : Type}

theorem blockOffsetsIn_unchecked (off : UInt64) (bs : List Block) :
    (blockOffsetsIn false off.toNat bs : Outcome ε (List ℕ)) =
      .ok ((blockOffsets off bs).map UInt64.toNat) := by
  induction bs generalizing off with
  | nil => rfl
  | cons b bs ih =>
    have hnext : (off.toNat + b.compressedSize.toNat) % 2 ^ 64 =
        (off + b.compressedSize.toUInt64).toNat := by
      rw [UInt64.toNat_add, UInt32.toNat_toUInt64]
    rw [blockOffsetsIn, u64Add_ok (by simp), ok_bind, hnext, ih, ok_bind, blockOffsets,
      List.map_cons]

theorem blockOffsetsIn_fits {checks : Bool} {off : ℕ} {bs : List Block}
    (h : off + storedSize bs < 2 ^ 64) :
    (blockOffsetsIn checks off bs : Outcome ε (List ℕ)) =
      .ok ((List.range (bs.length + 1)).map fun i => off + storedSize (bs.take i)) := by
  induction bs generalizing off with
  | nil => rfl
  | cons b bs ih =>
    rw [storedSize_cons] at h
    have hrange : List.range (bs.length + 1 + 1) = 0 :: (List.range (bs.length + 1)).map Nat.succ :=
      List.range_succ_eq_map
    rw [blockOffsetsIn, u64Add_lt (by omega), ok_bind, ih (by omega), ok_bind, List.length_cons,
      hrange, List.map_cons, List.map_map]
    congr 2
    refine List.map_congr_left fun i _ => ?_
    simp only [Function.comp_apply, List.take_succ_cons, storedSize_cons]
    omega

theorem blockOffsetsIn_panics {off : ℕ} (hoff : off < 2 ^ 64) {bs : List Block}
    (h : 2 ^ 64 ≤ off + storedSize bs) :
    (blockOffsetsIn true off bs : Outcome ε (List ℕ)) = .panic := by
  induction bs generalizing off with
  | nil =>
    have hnil : storedSize [] = 0 := rfl
    omega
  | cons b bs ih =>
    rw [storedSize_cons] at h
    rw [blockOffsetsIn]
    by_cases hlt : off + b.compressedSize.toNat < 2 ^ 64
    · rw [u64Add_lt hlt, ok_bind, ih hlt (by omega), panic_bind]
    · rw [u64Add, if_neg hlt, if_pos rfl, panic_bind]

theorem u64Sub_unchecked {a b : ℕ} (ha : a < 2 ^ 64) (hb : b < 2 ^ 64) :
    (u64Sub false a b : Outcome ε ℕ) = .ok ((a + 2 ^ 64 - b) % 2 ^ 64) := by
  by_cases h : b ≤ a
  · rw [u64Sub_ok h]
    congr 1
    omega
  · rw [u64Sub, if_neg h, if_neg (by simp), Nat.mod_eq_of_lt (by omega)]

theorem storedSize_take_succ (bs : List Block) (i : ℕ) :
    storedSize (bs.take i) ≤ storedSize (bs.take (i + 1)) := by
  rw [List.take_add_one, storedSize, storedSize, List.map_append, List.sum_append]
  omega

end Offsets

namespace FileRecord
variable {ε : Type} {checks : Bool} {r : FileRecord} {i : ℕ}

theorem blockRangeIn_eq (hi : i < 2 ^ 24) :
    (r.blockRangeIn checks i : Outcome ε (ℕ × ℕ)) = .ok (r.blockRange i) := by
  unfold blockRangeIn u64Mul BLOCK_SIZE
  rw [if_pos (by omega), ok_bind, u64Add_lt (by omega), ok_bind]
  rfl

theorem blockLengthsIn_unchecked (hi : i < 2 ^ 24) {start stop : UInt64}
    (hstart : (blockOffsets r.offset r.blocks)[i]? = some start)
    (hstop : (blockOffsets r.offset r.blocks)[i + 1]? = some stop) :
    r.blockLengthsIn false i = .ok (r.blockLen i, (stop - start).toNat) := by
  have hstored : (u64Sub false stop.toNat start.toNat : Outcome Unit ℕ) =
      .ok (stop - start).toNat := by
    rw [u64Sub_unchecked stop.toNat_lt start.toNat_lt, UInt64.toNat_sub]
    congr 2
    have := start.toNat_lt
    omega
  have hend : (r.blockRange i).2 < 2 ^ 64 :=
    lt_of_le_of_lt (min_le_right _ _) r.size.toNat_lt
  have hbegin : (r.blockRange i).1 < 2 ^ 64 := by
    show i * BLOCK_SIZE < 2 ^ 64
    unfold BLOCK_SIZE
    omega
  unfold blockLengthsIn
  rw [blockOffsetsIn_unchecked, ok_bind, List.getElem?_map, List.getElem?_map, hstart, hstop]
  simp only [Option.map_some, ofOption, ok_bind]
  rw [hstored, ok_bind, blockRangeIn_eq hi, ok_bind, u64Sub_unchecked hend hbegin, ok_bind]
  rfl

/-- Nothing that is computed over the record's blocks leaves `u64`: the checked
build comes back from all of it, and each range lies inside the file. -/
def Computes (r : FileRecord) : Prop :=
  (∃ offsets, (blockOffsetsIn true r.offset.toNat r.blocks : Outcome Unit (List ℕ)) =
    .ok offsets) ∧
  ∀ i < r.numBlocks, ∃ bs be, (r.blockRangeIn true i : Outcome Unit (ℕ × ℕ)) = .ok (bs, be) ∧
    bs ≤ be ∧ be ≤ r.size.toNat ∧ ∃ want stored, r.blockLengthsIn true i = .ok (want, stored)

theorem blockLengthsIn_fits (hi : i < r.numBlocks) (hsmall : r.numBlocks < 2 ^ 24)
    (hrange : i * BLOCK_SIZE ≤ r.size.toNat)
    (hsum : r.offset.toNat + storedSize r.blocks < 2 ^ 64) :
    ∃ want stored, r.blockLengthsIn true i = .ok (want, stored) := by
  have hlen : i < r.blocks.length := hi
  have hle : (r.blockRange i).1 ≤ (r.blockRange i).2 := by
    show i * BLOCK_SIZE ≤ min (i * BLOCK_SIZE + BLOCK_SIZE) r.size.toNat
    omega
  have hgrow := storedSize_take_succ r.blocks i
  refine ⟨(r.blockRange i).2 - (r.blockRange i).1,
    r.offset.toNat + storedSize (r.blocks.take (i + 1)) -
      (r.offset.toNat + storedSize (r.blocks.take i)), ?_⟩
  unfold blockLengthsIn
  rw [blockOffsetsIn_fits hsum, ok_bind, List.getElem?_map, List.getElem?_map,
    List.getElem?_range (by omega), List.getElem?_range (by omega)]
  simp only [Option.map_some, ofOption, ok_bind]
  rw [u64Sub_ok (by omega), ok_bind, blockRangeIn_eq (by omega), ok_bind, u64Sub_ok hle, ok_bind]

/-- The arithmetic over a record's blocks stays in `u64` exactly when its last
block starts within the file and the stored sizes end below 2^64. -/
theorem computes_iff {t : Bytes} {rs : List FileRecord} (h : Checksums.parse t = .ok rs)
    {r : FileRecord} (hr : r ∈ rs) :
    r.Computes ↔ (r.numBlocks - 1) * BLOCK_SIZE ≤ r.size.toNat ∧
      r.offset.toNat + storedSize r.blocks < 2 ^ 64 := by
  have hsmall : r.numBlocks < 2 ^ 24 := Checksums.parse_numBlocks h r hr
  constructor
  · rintro ⟨⟨offsets, hoffsets⟩, hblocks⟩
    constructor
    · rcases Nat.eq_zero_or_pos r.numBlocks with hzero | hpos
      · rw [hzero, Nat.zero_sub, Nat.zero_mul]
        exact Nat.zero_le _
      · obtain ⟨bs, be, hrange, hle, hbe, -⟩ := hblocks (r.numBlocks - 1) (by omega)
        rw [blockRangeIn_eq (by omega), Outcome.ok.injEq, Prod.mk.injEq] at hrange
        rw [← hrange.1] at hle
        exact hle.trans hbe
    · by_contra hover
      rw [blockOffsetsIn_panics r.offset.toNat_lt (by omega)] at hoffsets
      cases hoffsets
  · rintro ⟨hlast, hsum⟩
    refine ⟨⟨_, blockOffsetsIn_fits hsum⟩, fun i hi => ?_⟩
    have hrange : i * BLOCK_SIZE ≤ r.size.toNat :=
      le_trans (Nat.mul_le_mul_right _ (by omega)) hlast
    refine ⟨_, _, blockRangeIn_eq (by omega), ?_, min_le_right _ _, ?_⟩
    · show i * BLOCK_SIZE ≤ min (i * BLOCK_SIZE + BLOCK_SIZE) r.size.toNat
      omega
    · exact blockLengthsIn_fits hi hsmall hrange hsum

end FileRecord

section Sample
open FileRecord

def strayBlock : FileRecord := ⟨7, .plain, 0, 0, [⟨0, 0⟩, ⟨0, 0⟩]⟩

def strayOffset : FileRecord := ⟨8, .plain, 0xffffffffffffffff, 4, [⟨4, 0⟩]⟩

def soundRecord : FileRecord := ⟨9, .plain, 0, 4, [⟨4, 0⟩]⟩

def strayTable : Checksums.Image :=
  ⟨1, [⟨7, 0, [⟨.plain, 0, 0, strayBlock.blocks⟩, ⟨.plain, 0xffffffffffffffff, 4, [⟨4, 0⟩]⟩,
    ⟨.plain, 0, 4, [⟨4, 0⟩]⟩]⟩]⟩

theorem strayTable_parse :
    Checksums.parse strayTable.encode = .ok [strayBlock, strayOffset, soundRecord] := by
  decide +kernel

theorem soundRecord_computes : soundRecord.Computes := by
  have hmem : soundRecord ∈ [strayBlock, strayOffset, soundRecord] := by decide
  exact (computes_iff strayTable_parse hmem).mpr ⟨by decide, by decide⟩

/-- The parser accepts both stray records. On one a build with checks panics at
the second block and one without wants almost 2^64 bytes of it; on the other
the block ends before it starts. -/
theorem strayTable_not_computes :
    Checksums.parse strayTable.encode = .ok [strayBlock, strayOffset, soundRecord] ∧
      (strayBlock.blockLengthsIn true 1 = .panic ∧
        strayBlock.blockLengthsIn false 1 = .ok (2 ^ 64 - 0x8000, 0) ∧ ¬ strayBlock.Computes) ∧
      blockOffsetsIn true strayOffset.offset.toNat strayOffset.blocks =
        (.panic : Outcome Unit (List ℕ)) ∧
      blockOffsets strayOffset.offset strayOffset.blocks = [0xffffffffffffffff, 3] ∧
      ¬ strayOffset.Computes := by
  have hblock : strayBlock.blockLengthsIn true 1 = .panic := by decide +kernel
  have hoffset : blockOffsetsIn true strayOffset.offset.toNat strayOffset.blocks =
      (.panic : Outcome Unit (List ℕ)) := by decide +kernel
  refine ⟨strayTable_parse, ⟨hblock, by decide +kernel, ?_⟩, hoffset, by decide +kernel, ?_⟩
  · rintro ⟨-, hblocks⟩
    obtain ⟨bs, be, -, -, -, want, stored, hlengths⟩ := hblocks 1 (by decide)
    rw [hblock] at hlengths
    cases hlengths
  · rintro ⟨⟨offsets, hoffsets⟩, -⟩
    rw [hoffset] at hoffsets
    cases hoffsets

end Sample
end Steam2Fs
