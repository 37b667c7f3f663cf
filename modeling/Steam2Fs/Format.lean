import Steam2Fs.Lib.Outcome
import Steam2Fs.Lib.Text

/-!
# Byte reads shared by the on-disk formats

Buffers are byte lists, indices are `usize` values of a 64-bit target. Range
access through `get` answers `none` outside the buffer, indexing panics there,
an index sum that leaves `usize` panics, and a vector whose capacity request
exceeds `isize::MAX` bytes panics with a capacity overflow. A buffer that
exists in memory is at most `isizeMax` bytes long.
-/

namespace Steam2Fs
open Text

abbrev Bytes := List UInt8

/-- Decompressed size of every dat block except a file's last one. -/
def BLOCK_SIZE : ℕ := 0x8000

def isizeMax : ℕ := 2 ^ 63 - 1

inductive FormatError where
  | malformed (msg : String)
  | zlib (msg : String)
  deriving DecidableEq, Repr

/-- `{n:#0wx}`, with `digits` the digits after the `0x`. -/
def hexText (digits n : ℕ) : String := String.ofList ("0x".toList ++ padZero digits (hexLower n))

/-- `{n:0wx}`. -/
def hexPad (digits n : ℕ) : String := String.ofList (padZero digits (hexLower n))

section Primitives
variable {ε : Type} {α : Type}

def usizeAdd (a b : ℕ) : Outcome ε ℕ := if a + b < 2 ^ 64 then .ok (a + b) else .panic
def usizeMul (a b : ℕ) : Outcome ε ℕ := if a * b < 2 ^ 64 then .ok (a * b) else .panic

/-- `b.get(lo..hi)`. -/
def getRange (b : List α) (lo hi : ℕ) : Option (List α) :=
  if lo ≤ hi ∧ hi ≤ b.length then some ((b.drop lo).take (hi - lo)) else none

/-- `b[lo..hi]`. -/
def indexRange (b : List α) (lo hi : ℕ) : Outcome ε (List α) :=
  match getRange b lo hi with
  | some s => .ok s
  | none => .panic

/-- `Vec::with_capacity(n)` for elements of `size` bytes. A request up to
`isizeMax` that the allocator refuses aborts the process: what a call answers
is said of the runs in which memory suffices. -/
def withCapacity (size n : ℕ) : Outcome ε Unit :=
  if size * n ≤ isizeMax then .ok () else .panic

theorem usizeAdd_ok {a b : ℕ} (h : a + b < 2 ^ 64) :
    (usizeAdd a b : Outcome ε ℕ) = .ok (a + b) := if_pos h

theorem usizeMul_ok {a b : ℕ} (h : a * b < 2 ^ 64) :
    (usizeMul a b : Outcome ε ℕ) = .ok (a * b) := if_pos h

theorem usizeAdd_eq_ok {a b c : ℕ} (h : (usizeAdd a b : Outcome ε ℕ) = .ok c) :
    c = a + b := by
  unfold usizeAdd at h
  split_ifs at h
  exact (Outcome.ok.inj h).symm

theorem usizeMul_eq_ok {a b c : ℕ} (h : (usizeMul a b : Outcome ε ℕ) = .ok c) :
    c = a * b := by
  unfold usizeMul at h
  split_ifs at h
  exact (Outcome.ok.inj h).symm

theorem withCapacity_ok {size n : ℕ} (h : size * n ≤ isizeMax) :
    (withCapacity size n : Outcome ε Unit) = .ok () := if_pos h

theorem withCapacity_panic {size n : ℕ} (h : isizeMax < size * n) :
    (withCapacity size n : Outcome ε Unit) = .panic := if_neg (Nat.not_le.mpr h)

theorem getRange_eq_some {b s : List α} {lo hi : ℕ} :
    getRange b lo hi = some s ↔
      lo ≤ hi ∧ hi ≤ b.length ∧ s = (b.drop lo).take (hi - lo) := by
  unfold getRange
  split_ifs with h
  · simp only [Option.some.injEq, h, true_and]
    exact eq_comm
  · simp only [false_iff]
    exact fun hc => h ⟨hc.1, hc.2.1⟩

theorem getRange_length {b s : List α} {lo hi : ℕ} (h : getRange b lo hi = some s) :
    s.length = hi - lo := by
  obtain ⟨hlo, hhi, rfl⟩ := getRange_eq_some.mp h
  simp only [List.length_take, List.length_drop]
  omega

theorem indexRange_ok {b : List α} {lo hi : ℕ} (hlo : lo ≤ hi) (hhi : hi ≤ b.length) :
    (indexRange b lo hi : Outcome ε (List α)) = .ok ((b.drop lo).take (hi - lo)) := by
  simp [indexRange, getRange, hlo, hhi]

end Primitives

def leValue : Bytes → ℕ
  | [] => 0
  | b :: bs => b.toNat + 256 * leValue bs

theorem leValue_lt (bs : Bytes) : leValue bs < 256 ^ bs.length := by
  induction bs with
  | nil => simp [leValue]
  | cons b bs ih =>
    have hb := UInt8.toNat_lt b
    simp only [leValue, List.length_cons, pow_succ]
    omega

def leBytes : ℕ → ℕ → Bytes
  | 0, _ => []
  | width + 1, n => UInt8.ofNat n :: leBytes width (n / 256)

/-- The common body of `u16_at`, `u32_at` and `u64_at`. -/
def leAt (width : ℕ) (what : String) (b : Bytes) (off : ℕ) : Outcome FormatError ℕ := do
  let hi ← usizeAdd off width
  match getRange b off hi with
  | some s => .ok (leValue s)
  | none => .err (.malformed s!"truncated {what} at {off}")

def u16At (b : Bytes) (off : ℕ) : Outcome FormatError UInt16 :=
  UInt16.ofNat <$> leAt 2 "u16" b off

def u32At (b : Bytes) (off : ℕ) : Outcome FormatError UInt32 :=
  UInt32.ofNat <$> leAt 4 "u32" b off

def u64At (b : Bytes) (off : ℕ) : Outcome FormatError UInt64 :=
  UInt64.ofNat <$> leAt 8 "u64" b off

theorem leAt_ok {width off v : ℕ} {what : String} {b : Bytes} (h : leAt width what b off = .ok v) :
    off + width ≤ b.length ∧ v = leValue ((b.drop off).take width) := by
  obtain ⟨hi, hhi, h⟩ := Outcome.bind_eq_ok.mp h
  unfold usizeAdd at hhi
  split_ifs at hhi with hlt
  cases hhi
  cases hr : getRange b off (off + width) with
  | none => rw [hr] at h; cases h
  | some s =>
    rw [hr] at h
    cases h
    obtain ⟨-, hle, rfl⟩ := getRange_eq_some.mp hr
    simp [hle]

theorem leAt_returns {width off : ℕ} (what : String) (b : Bytes) (h : off + width < 2 ^ 64) :
    (leAt width what b off).Returns := by
  unfold leAt
  rw [usizeAdd_ok h]
  simp only [Outcome.ok_bind]
  split <;> simp

theorem u16At_returns {off : ℕ} (b : Bytes) (h : off + 2 < 2 ^ 64) : (u16At b off).Returns :=
  (leAt_returns _ b h).map _

theorem u32At_returns {off : ℕ} (b : Bytes) (h : off + 4 < 2 ^ 64) : (u32At b off).Returns :=
  (leAt_returns _ b h).map _

theorem u64At_returns {off : ℕ} (b : Bytes) (h : off + 8 < 2 ^ 64) : (u64At b off).Returns :=
  (leAt_returns _ b h).map _

theorem u32At_ok {b : Bytes} {off : ℕ} {v : UInt32} (h : u32At b off = .ok v) :
    off + 4 ≤ b.length := by
  obtain ⟨w, hw, -⟩ := Outcome.map_eq_ok.mp h
  exact (leAt_ok hw).1

end Steam2Fs
