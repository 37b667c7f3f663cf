import Steam2Fs.IndexNames
import Steam2Fs.Lib.Calendar

/-!
# Dates and the dates file

`parse_date` and the two conversions between day counts and calendar dates,
with every machine operation checked: an operation whose exact result its type
cannot hold, and an instant past the last one representable, is a panic. `None`
is the error outcome. The conversions are compared with the calendar itself,
and the checks are shown to pass exactly where the exact numbers fit.
-/

namespace Steam2Fs
open Text Calendar

/-! ### The checked conversions -/

section Checked
variable {ε : Type}

/-- The value of a checked operation on `w`-bit unsigned numbers. -/
def unsigned (w x : ℕ) : Outcome ε ℕ := if x < 2 ^ w then .ok x else .panic

/-- The value of a checked operation on `i64`. -/
def signed (x : ℤ) : Outcome ε ℤ := if -2 ^ 63 ≤ x ∧ x < 2 ^ 63 then .ok x else .panic

def asU32 (x : ℤ) : ℕ := (x % 2 ^ 32).toNat

/-- The numerator of a truncating division that is to round down. -/
def numerator (x less : ℤ) : Outcome ε ℤ := if 0 ≤ x then .ok x else signed (x - less)

/-- What `civil_from_days` computes before its two casts: the year that starts
in March, the month and the day. -/
def civilParts (z : ℤ) : Outcome ε (ℤ × ℤ × ℤ) := do
  let z ← signed (z + 719468)
  let era := Int.tdiv (← numerator z 146096) 146097
  let doe ← signed (z - (← signed (era * 146097)))
  let a ← signed (doe - Int.tdiv doe 1460)
  let b ← signed (a + Int.tdiv doe 36524)
  let yoe := Int.tdiv (← signed (b - Int.tdiv doe 146096)) 365
  let y ← signed (yoe + (← signed (era * 400)))
  let c ← signed ((← signed (365 * yoe)) + Int.tdiv yoe 4)
  let doy ← signed (doe - (← signed (c - Int.tdiv yoe 100)))
  let mp := Int.tdiv (← signed ((← signed (5 * doy)) + 2)) 153
  let start := Int.tdiv (← signed ((← signed (153 * mp)) + 2)) 5
  let d ← signed ((← signed (doy - start)) + 1)
  let m ← signed (if mp < 10 then mp + 3 else mp - 9)
  pure (y, m, d)

def civilFromDaysChecked (z : ℤ) : Outcome ε (ℤ × ℕ × ℕ) := do
  let (y, m, d) ← civilParts z
  let d := asU32 d
  let m := asU32 m
  pure (← if m ≤ 2 then signed (y + 1) else pure y, m, d)

/-- The year that starts in March and holds month `m` of year `y`. -/
def marchYear (y : ℤ) (m : ℕ) : Outcome ε ℤ := if m ≤ 2 then signed (y - 1) else .ok y

def daysFromCivil (y : ℤ) (m d : ℕ) : Outcome ε ℤ := do
  let y ← marchYear y m
  let era := Int.tdiv (← numerator y 399) 400
  let yoe ← signed (y - (← signed (era * 400)))
  let mp : ℤ := ((← unsigned 32 (m + 9)) % 12 : ℕ)
  let start := Int.tdiv (← signed ((← signed (153 * mp)) + 2)) 5
  let doy ← signed ((← signed (start + d)) - 1)
  let a ← signed ((← signed (yoe * 365)) + Int.tdiv yoe 4)
  let doe ← signed ((← signed (a - Int.tdiv yoe 100)) + doy)
  signed ((← signed ((← signed (era * 146097)) + doe)) - 719468)

theorem unsigned_ok {w x : ℕ} (h : x < 2 ^ w) : (unsigned w x : Outcome ε ℕ) = .ok x := if_pos h

theorem signed_ok {x : ℤ} (hlo : -2 ^ 63 ≤ x) (hhi : x < 2 ^ 63) :
    (signed x : Outcome ε ℤ) = .ok x := if_pos ⟨hlo, hhi⟩

theorem signed_bind {α : Type} {x : ℤ} {f : ℤ → Outcome ε α} (hlo : -2 ^ 63 ≤ x)
    (hhi : x < 2 ^ 63) : signed x >>= f = f x := by
  rw [signed_ok hlo hhi, Outcome.ok_bind]

/-- A checked computation that can only panic or yield the exact value `v`, the
latter only under `p`. -/
def Exact {α : Type} (p : Prop) (v : α) (x : Outcome ε α) : Prop := x = .panic ∨ p ∧ x = .ok v

theorem Exact.signed_bind {α : Type} {p : Prop} {v : α} {x : ℤ} {f : ℤ → Outcome ε α}
    (h : Exact p v (f x)) : Exact p v (signed x >>= f) := by
  unfold signed
  split
  · exact h
  · exact Or.inl rfl

theorem Exact.of_signed {p : Prop} {x : ℤ} (hp : p) : Exact p x (signed x : Outcome ε ℤ) := by
  unfold signed
  split
  · exact Or.inr ⟨hp, rfl⟩
  · exact Or.inl rfl

theorem Exact.numerator_bind {α : Type} {p : Prop} {v : α} {x less : ℤ} {f : ℤ → Outcome ε α}
    (h : Exact p v (f (if 0 ≤ x then x else x - less))) : Exact p v (numerator x less >>= f) := by
  unfold numerator
  by_cases hx : 0 ≤ x
  · rw [if_pos hx] at h ⊢
    exact h
  · rw [if_neg hx] at h ⊢
    exact h.signed_bind

theorem Exact.marchYear_bind {α : Type} {p : Prop} {v : α} {y : ℤ} {m : ℕ} {f : ℤ → Outcome ε α}
    (h : Exact p v (f (if m ≤ 2 then y - 1 else y))) : Exact p v (marchYear y m >>= f) := by
  unfold marchYear
  by_cases hm : m ≤ 2
  · rw [if_pos hm] at h ⊢
    exact h.signed_bind
  · rw [if_neg hm] at h ⊢
    exact h

theorem Exact.unsigned_bind {α : Type} {p : Prop} {v : α} {w x : ℕ} {f : ℕ → Outcome ε α}
    (h : x < 2 ^ w → Exact p v (f x)) : Exact p v (unsigned w x >>= f) := by
  unfold unsigned
  split
  next hx => exact h hx
  next => exact Or.inl rfl

end Checked

/-! ### Day counts -/

/-- The day count of a year, a month and a day as the formula continues it to
months past twelve and days past the end of the month. -/
def civilCount (y : ℤ) (m d : ℕ) : ℤ :=
  marchDay (if m ≤ 2 then y - 1 else y) (marchMonth ((m + 9) % 12 : ℕ) + d - 1)

theorem tdiv_corrected (x : ℤ) {n : ℤ} (hn : 0 < n) :
    Int.tdiv (if 0 ≤ x then x else x - (n - 1)) n = x / n := by
  split
  next hx => exact Int.tdiv_eq_ediv_of_nonneg hx
  next hx =>
    have hneg : x - (n - 1) = -(n - 1 - x) := by ring
    rw [hneg, Int.neg_tdiv, Int.tdiv_eq_ediv_of_nonneg (by omega)]
    have hlo := Int.mul_ediv_self_le (x := n - 1 - x) hn.ne'
    have hhi := Int.lt_mul_ediv_self_add (x := n - 1 - x) hn
    refine ((Int.ediv_emod_unique hn (r := x + n * ((n - 1 - x) / n))).mpr ⟨?_, ?_, ?_⟩).1.symm
    · ring
    · linarith
    · linarith

theorem yearOfEra_eq {doe yoe doy : ℤ} (h : EraDay doe yoe doy) :
    (doe - doe / 1460 + doe / 36524 - doe / 146096) / 365 = yoe := by
  obtain ⟨h0, h399, hdoy0, hdoy, hlast, hcount⟩ := h
  obtain ⟨q, r, hyoe, hr0, hr3⟩ : ∃ q r, yoe = 4 * q + r ∧ 0 ≤ r ∧ r ≤ 3 :=
    ⟨yoe / 4, yoe % 4, by omega, by omega, by omega⟩
  obtain ⟨g, s, hq, hs0, hs24⟩ : ∃ g s, q = 25 * g + s ∧ 0 ≤ s ∧ s ≤ 24 :=
    ⟨q / 25, q % 25, by omega, by omega, by omega⟩
  have hdiv4 : yoe / 4 = 25 * g + s := by omega
  have hdiv100 : yoe / 100 = g := by omega
  have hg3 : 0 ≤ g ∧ g ≤ 3 := by omega
  have hdoe : doe = 36524 * g + 1461 * s + 365 * r + doy := by
    rw [hcount, hdiv4, hdiv100, hyoe, hq]
    ring
  have hcentury : doe / 36524 - doe / 146096 = g := by
    -- Only the last day of the era counts a fourth century, and there the last term undoes it.
    by_cases hera : doe = 146096
    · omega
    · have hlt : 1461 * s + 365 * r + doy ≤ 36523 := by omega
      have hlow : doe / 36524 = g := by omega
      have hhigh : doe / 146096 = 0 := by omega
      omega
  have hfour : doe / 1460 = q ∧ doy ≤ 364 ∨ doe / 1460 = q + 1 ∧ 1 ≤ doy := by omega
  omega

/-- The numbers `civil_from_days` goes through on the way from a day count to a date. -/
structure CivilSteps (z era doe yoe doy mp : ℤ) : Prop where
  era_eq : Int.tdiv (if 0 ≤ z + 719468 then z + 719468 else z + 719468 - 146096) 146097 = era
  doe_eq : z + 719468 - era * 146097 = doe
  yoe_eq :
    Int.tdiv (doe - Int.tdiv doe 1460 + Int.tdiv doe 36524 - Int.tdiv doe 146096) 365 = yoe
  doy_eq : doe - (365 * yoe + Int.tdiv yoe 4 - Int.tdiv yoe 100) = doy
  mp_eq : Int.tdiv (5 * doy + 2) 153 = mp
  doe_le : doe ≤ 146096
  eraDay : EraDay doe yoe doy

theorem exists_civilSteps (z : ℤ) : ∃ era doe yoe doy mp, CivilSteps z era doe yoe doy mp := by
  have hmod := Int.mul_ediv_add_emod (z + 719468) 146097
  have h0 := Int.emod_nonneg (z + 719468) (show (146097 : ℤ) ≠ 0 by decide)
  have h1 := Int.emod_lt_of_pos (z + 719468) (show (0 : ℤ) < 146097 by decide)
  obtain ⟨yoe, doy, hday⟩ := exists_eraDay h0 (by omega)
  have hyoe := hday.yoe_nonneg
  have hdoy := hday.doy_nonneg
  have hera := tdiv_corrected (z + 719468) (show (0 : ℤ) < 146097 by decide)
  refine ⟨_, _, yoe, doy, (5 * doy + 2) / 153, hera, ?_, ?_, ?_,
    Int.tdiv_eq_ediv_of_nonneg (by omega), Int.le_of_lt_add_one h1, hday⟩
  · linarith
  · rw [Int.tdiv_eq_ediv_of_nonneg h0, Int.tdiv_eq_ediv_of_nonneg h0,
      Int.tdiv_eq_ediv_of_nonneg h0, Int.tdiv_eq_ediv_of_nonneg (by omega)]
    exact yearOfEra_eq hday
  · have hcount := hday.count
    rw [Int.tdiv_eq_ediv_of_nonneg hyoe, Int.tdiv_eq_ediv_of_nonneg hyoe]
    linarith

section Steps
variable {z era doe yoe doy mp : ℤ}

theorem CivilSteps.mp_eq_ediv (h : CivilSteps z era doe yoe doy mp) :
    mp = (5 * doy + 2) / 153 := by
  have hdoy := h.eraDay.doy_nonneg
  rw [← h.mp_eq, Int.tdiv_eq_ediv_of_nonneg (by omega)]

def shiftedMonth (mp : ℤ) : ℤ := if mp < 10 then mp + 3 else mp - 9

theorem CivilSteps.marchDay (h : CivilSteps z era doe yoe doy mp) :
    marchDay (yoe + era * 400) doy = z := by
  have hdoe := h.doe_eq
  rw [h.eraDay.marchDay_eq era]
  linarith

theorem CivilSteps.date (h : CivilSteps z era doe yoe doy mp) {m d : ℕ}
    (hm : (m : ℤ) = shiftedMonth mp) (hd : (d : ℤ) = doy - marchMonth mp + 1) :
    IsDate (if m ≤ 2 then yoe + era * 400 + 1 else yoe + era * 400) m d ∧
      dayNumber (if m ≤ 2 then yoe + era * 400 + 1 else yoe + era * 400) m d = z := by
  have hday := h.eraDay.isMarchDay era
  refine ⟨hday.isDate h.mp_eq_ediv hm hd, ?_⟩
  rw [hday.dayNumber h.mp_eq_ediv hm hd]
  exact h.marchDay

theorem CivilSteps.month_bounds (h : CivilSteps z era doe yoe doy mp) :
    0 ≤ mp ∧ mp ≤ 11 ∧ 1 ≤ shiftedMonth mp ∧ shiftedMonth mp ≤ 12 := by
  have hmp := h.mp_eq_ediv
  have hdoy := h.eraDay.doy_nonneg
  have hle := h.eraDay.doy_le
  unfold shiftedMonth
  split <;> omega

theorem CivilSteps.day_bounds (h : CivilSteps z era doe yoe doy mp) :
    1 ≤ doy - marchMonth mp + 1 ∧ doy - marchMonth mp + 1 ≤ 31 := by
  have hmp := h.mp_eq_ediv
  have hdoy := h.eraDay.doy_nonneg
  have hle := h.eraDay.doy_le
  unfold marchMonth
  omega

theorem CivilSteps.start_eq (h : CivilSteps z era doe yoe doy mp) :
    Int.tdiv (153 * mp + 2) 5 = marchMonth mp := by
  have hmp := h.month_bounds.1
  rw [marchMonth, Int.tdiv_eq_ediv_of_nonneg (by omega)]

theorem CivilSteps.civilFromDays (h : CivilSteps z era doe yoe doy mp) :
    civilFromDays z = (if (shiftedMonth mp).toNat ≤ 2 then yoe + era * 400 + 1
      else yoe + era * 400, (shiftedMonth mp).toNat, (doy - marchMonth mp + 1).toNat) := by
  unfold Steam2Fs.civilFromDays
  dsimp only
  rw [h.era_eq, h.doe_eq, h.yoe_eq, h.doy_eq, h.mp_eq, h.start_eq]
  rfl

end Steps

theorem civilFromDays_date (z : ℤ) : ∃ y m d, civilFromDays z = (y, m, d) ∧ IsDate y m d ∧
    dayNumber y m d = z := by
  obtain ⟨era, doe, yoe, doy, mp, h⟩ := exists_civilSteps z
  refine ⟨_, _, _, h.civilFromDays, h.date (Int.toNat_of_nonneg ?_) (Int.toNat_of_nonneg ?_)⟩
  · exact (Int.zero_le_ofNat 1).trans h.month_bounds.2.2.1
  · exact (Int.zero_le_ofNat 1).trans h.day_bounds.1

theorem civilFromDays_dayNumber {y : ℤ} {m d : ℕ} (h : IsDate y m d) :
    civilFromDays (dayNumber y m d) = (y, m, d) := by
  obtain ⟨y', m', d', hcivil, hdate, hz⟩ := civilFromDays_date (dayNumber y m d)
  obtain ⟨rfl, rfl, rfl⟩ := dayNumber_inj hdate h hz
  exact hcivil

section CheckedCivil
variable {ε : Type} {z era doe yoe doy mp : ℤ}

theorem CivilSteps.civilParts (h : CivilSteps z era doe yoe doy mp) (hlo : -2 ^ 63 ≤ z)
    (hhi : z + 719468 < 2 ^ 63) :
    (civilParts z : Outcome ε (ℤ × ℤ × ℤ)) =
      .ok (yoe + era * 400, shiftedMonth mp, doy - marchMonth mp + 1) := by
  have hz : z + 719468 = era * 146097 + doe := by
    have hdoe := h.doe_eq
    linarith
  have hdoe0 : 0 ≤ doe := by
    have hcount := h.eraDay.count
    have hy := h.eraDay.yoe_nonneg
    have hd := h.eraDay.doy_nonneg
    omega
  have hdoe := h.doe_le
  have hyoe0 := h.eraDay.yoe_nonneg
  have hyoe := h.eraDay.yoe_le
  have hdoy0 := h.eraDay.doy_nonneg
  have hdoy := h.eraDay.doy_le
  obtain ⟨hmp0, hmp11, hm1, hm12⟩ := h.month_bounds
  obtain ⟨hd1, hd31⟩ := h.day_bounds
  have hstart : 0 ≤ marchMonth mp ∧ marchMonth mp ≤ 337 := by
    unfold marchMonth
    omega
  have hnum : (numerator (z + 719468) 146096 : Outcome ε ℤ) =
      .ok (if 0 ≤ z + 719468 then z + 719468 else z + 719468 - 146096) := by
    unfold numerator
    split
    · rfl
    · exact signed_ok (by omega) (by omega)
  have hdiv1460 : Int.tdiv doe 1460 = doe / 1460 := Int.tdiv_eq_ediv_of_nonneg hdoe0
  have hdiv36524 : Int.tdiv doe 36524 = doe / 36524 := Int.tdiv_eq_ediv_of_nonneg hdoe0
  have hdiv146096 : Int.tdiv doe 146096 = doe / 146096 := Int.tdiv_eq_ediv_of_nonneg hdoe0
  have hdiv4 : Int.tdiv yoe 4 = yoe / 4 := Int.tdiv_eq_ediv_of_nonneg hyoe0
  have hdiv100 : Int.tdiv yoe 100 = yoe / 100 := Int.tdiv_eq_ediv_of_nonneg hyoe0
  unfold Steam2Fs.civilParts
  refine (signed_bind (by omega) hhi).trans ?_
  rw [hnum, Outcome.ok_bind, h.era_eq]
  refine (signed_bind (by omega) (by omega)).trans ?_
  rw [h.doe_eq]
  refine (signed_bind (by omega) (by omega)).trans ?_
  refine (signed_bind (by omega) (by omega)).trans ?_
  refine (signed_bind (by omega) (by omega)).trans ?_
  refine (signed_bind (by omega) (by omega)).trans ?_
  rw [h.yoe_eq]
  refine (signed_bind (by omega) (by omega)).trans ?_
  refine (signed_bind (by omega) (by omega)).trans ?_
  refine (signed_bind (by omega) (by omega)).trans ?_
  refine (signed_bind (by omega) (by omega)).trans ?_
  refine (signed_bind (by omega) (by omega)).trans ?_
  rw [h.doy_eq]
  refine (signed_bind (by omega) (by omega)).trans ?_
  refine (signed_bind (by omega) (by omega)).trans ?_
  refine (signed_bind (by omega) (by omega)).trans ?_
  rw [h.mp_eq]
  refine (signed_bind (by omega) (by omega)).trans ?_
  refine (signed_bind (by omega) (by omega)).trans ?_
  rw [h.start_eq]
  refine (signed_bind (by omega) (by omega)).trans ?_
  refine (signed_bind (by omega) (by omega)).trans ?_
  have hmonth : -2 ^ 63 ≤ shiftedMonth mp ∧ shiftedMonth mp < 2 ^ 63 := by omega
  exact signed_bind hmonth.1 hmonth.2

theorem asU32_natCast {n : ℕ} (h : n < 2 ^ 32) : asU32 n = n := by
  unfold asU32
  omega

/-- In range the checked conversion is the exact one, and its casts change nothing. -/
theorem civilFromDaysChecked_eq (hlo : -2 ^ 63 ≤ z) (hhi : z + 719468 < 2 ^ 63) :
    ∃ (y : ℤ) (m d : ℕ), civilFromDays z = (y, m, d) ∧
      (civilParts z : Outcome ε (ℤ × ℤ × ℤ)) = .ok (if m ≤ 2 then y - 1 else y, m, d) ∧
      (civilFromDaysChecked z : Outcome ε (ℤ × ℕ × ℕ)) = .ok (y, m, d) ∧
      z + 719468 - 146096 ≤ (if m ≤ 2 then y - 1 else y) / 400 * 146097 := by
  obtain ⟨era, doe, yoe, doy, mp, h⟩ := exists_civilSteps z
  obtain ⟨-, -, hm1, hm12⟩ := h.month_bounds
  obtain ⟨hd1, hd31⟩ := h.day_bounds
  obtain ⟨m, hm⟩ := Int.eq_ofNat_of_zero_le (show 0 ≤ shiftedMonth mp by omega)
  obtain ⟨d, hd⟩ := Int.eq_ofNat_of_zero_le (show 0 ≤ doy - marchMonth mp + 1 by omega)
  have hparts := h.civilParts (ε := ε) hlo hhi
  have hcivil := h.civilFromDays
  rw [hm, hd] at hparts hcivil
  have hdoe := h.doe_eq
  have hle := h.doe_le
  have hyoe0 := h.eraDay.yoe_nonneg
  have hyoe := h.eraDay.yoe_le
  have hyear : -2 ^ 62 ≤ yoe + era * 400 ∧ yoe + era * 400 < 2 ^ 62 := by
    have hcount := h.eraDay.count
    have hdoy := h.eraDay.doy_nonneg
    omega
  have hmarch : (if m ≤ 2 then (if m ≤ 2 then yoe + era * 400 + 1 else yoe + era * 400) - 1
      else if m ≤ 2 then yoe + era * 400 + 1 else yoe + era * 400) = yoe + era * 400 := by
    split <;> omega
  refine ⟨_, m, d, hcivil, ?_, ?_, ?_⟩
  · rw [hparts]
    exact congrArg (fun x => Outcome.ok (x, (m : ℤ), (d : ℤ))) hmarch.symm
  · unfold civilFromDaysChecked
    rw [hparts, Outcome.ok_bind]
    dsimp only
    rw [asU32_natCast (by omega), asU32_natCast (by omega)]
    change _ = Outcome.ok ((if m ≤ 2 then yoe + era * 400 + 1 else yoe + era * 400), m, d)
    split
    · exact signed_bind (by omega) (by omega)
    · rfl
  · change _ ≤ (if m ≤ 2 then (if m ≤ 2 then _ else _) - 1 else if m ≤ 2 then _ else _) / 400 * 146097
    rw [hmarch]
    omega

end CheckedCivil

section CheckedDays
variable {ε : Type} {y : ℤ} {m d : ℕ}

theorem civilCount_eq (y : ℤ) (m d : ℕ) : civilCount y m d =
    (if m ≤ 2 then y - 1 else y) / 400 * 146097 + ((if m ≤ 2 then y - 1 else y) % 400 * 365 +
      (if m ≤ 2 then y - 1 else y) % 400 / 4 - (if m ≤ 2 then y - 1 else y) % 400 / 100 +
      (marchMonth ((m + 9) % 12 : ℕ) + d - 1)) - 719468 := by
  unfold civilCount marchDay
  generalize (if m ≤ 2 then y - 1 else y) = x
  omega

theorem civilCount_eq_dayNumber (h : IsDate y m d) : civilCount y m d = dayNumber y m d :=
  (dayNumber_eq_marchDay h.month_pos h.month_le).symm

theorem daysFromCivil_eq (hm : m + 9 < 2 ^ 32) (hd : d < 2 ^ 32)
    (hera : -2 ^ 63 ≤ (if m ≤ 2 then y - 1 else y) / 400 * 146097)
    (hlo : -2 ^ 63 ≤ civilCount y m d) (hhi : civilCount y m d + 719468 < 2 ^ 63) :
    (daysFromCivil y m d : Outcome ε ℤ) = .ok (civilCount y m d) := by
  have hcount := civilCount_eq y m d
  have hyear : (marchYear y m : Outcome ε ℤ) = .ok (if m ≤ 2 then y - 1 else y) := by
    unfold marchYear
    split
    next hm2 =>
      rw [if_pos hm2] at hera hcount
      refine signed_ok (by omega) ?_
      unfold marchMonth at hcount
      omega
    next => rfl
  unfold daysFromCivil
  rw [hyear, Outcome.ok_bind]
  generalize (if m ≤ 2 then y - 1 else y) = x at hera hcount ⊢
  have hnum : (numerator x 399 : Outcome ε ℤ) = .ok (if 0 ≤ x then x else x - (400 - 1)) := by
    unfold numerator
    split
    · rfl
    · exact signed_ok (by omega) (by omega)
  rw [hnum, Outcome.ok_bind, tdiv_corrected x (show (0 : ℤ) < 400 by decide)]
  have hmp : 0 ≤ ((m + 9) % 12 : ℕ) ∧ (m + 9) % 12 ≤ 11 := by omega
  have hstart : 0 ≤ marchMonth ((m + 9) % 12 : ℕ) ∧ marchMonth ((m + 9) % 12 : ℕ) ≤ 337 := by
    unfold marchMonth
    omega
  refine (signed_bind (by omega) (by omega)).trans ?_
  have hyoe : x - x / 400 * 400 = x % 400 := by omega
  have hdiv4 : Int.tdiv (x % 400) 4 = x % 400 / 4 := Int.tdiv_eq_ediv_of_nonneg (by omega)
  have hdiv100 : Int.tdiv (x % 400) 100 = x % 400 / 100 := Int.tdiv_eq_ediv_of_nonneg (by omega)
  have hmonth : Int.tdiv (153 * ((m + 9) % 12 : ℕ) + 2) 5 = marchMonth ((m + 9) % 12 : ℕ) := by
    rw [marchMonth, Int.tdiv_eq_ediv_of_nonneg (by omega)]
  rw [hyoe]
  refine (signed_bind (by omega) (by omega)).trans ?_
  rw [unsigned_ok hm, Outcome.ok_bind]
  refine (signed_bind (by omega) (by omega)).trans ?_
  refine (signed_bind (by omega) (by omega)).trans ?_
  rw [hmonth]
  refine (signed_bind (by omega) (by omega)).trans ?_
  refine (signed_bind (by omega) (by omega)).trans ?_
  refine (signed_bind (by omega) (by omega)).trans ?_
  rw [hdiv4]
  refine (signed_bind (by omega) (by omega)).trans ?_
  rw [hdiv100]
  refine (signed_bind (by omega) (by omega)).trans ?_
  refine (signed_bind (by omega) (by omega)).trans ?_
  refine (signed_bind (by omega) (by omega)).trans ?_
  refine (signed_bind (by omega) (by omega)).trans ?_
  rw [hcount]
  exact signed_ok (by omega) (by omega)

theorem daysFromCivil_exact (y : ℤ) (m d : ℕ) :
    Exact (m + 9 < 2 ^ 32) (civilCount y m d) (daysFromCivil y m d : Outcome ε ℤ) := by
  have hcount := civilCount_eq y m d
  have hmonth : Int.tdiv (153 * ((m + 9) % 12 : ℕ) + 2) 5 = marchMonth ((m + 9) % 12 : ℕ) := by
    rw [marchMonth, Int.tdiv_eq_ediv_of_nonneg (by omega)]
  unfold daysFromCivil
  refine Exact.marchYear_bind ?_
  generalize (if m ≤ 2 then y - 1 else y) = x at hcount ⊢
  refine Exact.numerator_bind ?_
  have hera : Int.tdiv (if 0 ≤ x then x else x - 399) 400 = x / 400 :=
    tdiv_corrected x (show (0 : ℤ) < 400 by decide)
  have hyoe : x - x / 400 * 400 = x % 400 := by omega
  have hdiv4 : Int.tdiv (x % 400) 4 = x % 400 / 4 := Int.tdiv_eq_ediv_of_nonneg (by omega)
  have hdiv100 : Int.tdiv (x % 400) 100 = x % 400 / 100 := Int.tdiv_eq_ediv_of_nonneg (by omega)
  rw [hera]
  refine Exact.signed_bind (Exact.signed_bind (Exact.unsigned_bind fun hm => ?_))
  refine Exact.signed_bind (Exact.signed_bind (Exact.signed_bind (Exact.signed_bind ?_)))
  refine Exact.signed_bind (Exact.signed_bind (Exact.signed_bind (Exact.signed_bind ?_)))
  refine Exact.signed_bind (Exact.signed_bind ?_)
  rw [hyoe, hmonth, hdiv4, hdiv100, ← hcount]
  exact Exact.of_signed hm

/-- The two conversions are inverse to each other on every day count for which
neither the shift by 719468 nor the correction of its sign overflows. -/
theorem civil_days_inverse :
    (∀ z : ℤ, -2 ^ 63 ≤ z → z + 719468 < 2 ^ 63 → -2 ^ 63 ≤ z + 719468 - 146096 →
      ∃ (y : ℤ) (m d : ℕ), IsDate y m d ∧ dayNumber y m d = z ∧
        (civilParts z : Outcome ε (ℤ × ℤ × ℤ)) = .ok (if m ≤ 2 then y - 1 else y, m, d) ∧
        (civilFromDaysChecked z : Outcome ε (ℤ × ℕ × ℕ)) = .ok (y, m, d) ∧
        (daysFromCivil y m d : Outcome ε ℤ) = .ok z) ∧
    ∀ (y : ℤ) (m d : ℕ), IsDate y m d → -2 ^ 63 ≤ dayNumber y m d →
      dayNumber y m d + 719468 < 2 ^ 63 → -2 ^ 63 ≤ dayNumber y m d + 719468 - 146096 →
      (daysFromCivil y m d : Outcome ε ℤ) = .ok (dayNumber y m d) ∧
      (civilFromDaysChecked (dayNumber y m d) : Outcome ε (ℤ × ℕ × ℕ)) = .ok (y, m, d) := by
  have hfirst : ∀ z : ℤ, -2 ^ 63 ≤ z → z + 719468 < 2 ^ 63 → -2 ^ 63 ≤ z + 719468 - 146096 →
      ∃ (y : ℤ) (m d : ℕ), IsDate y m d ∧ dayNumber y m d = z ∧
        (civilParts z : Outcome ε (ℤ × ℤ × ℤ)) = .ok (if m ≤ 2 then y - 1 else y, m, d) ∧
        (civilFromDaysChecked z : Outcome ε (ℤ × ℕ × ℕ)) = .ok (y, m, d) ∧
        (daysFromCivil y m d : Outcome ε ℤ) = .ok z := by
    intro z hlo hhi hsign
    obtain ⟨y, m, d, hcivil, hparts, hchecked, hera⟩ :=
      civilFromDaysChecked_eq (ε := ε) hlo hhi
    obtain ⟨y', m', d', hcivil', hdate, hz⟩ := civilFromDays_date z
    rw [hcivil] at hcivil'
    cases hcivil'
    have hcount : civilCount y m d = z := (civilCount_eq_dayNumber hdate).trans hz
    have hm := hdate.month_le
    have hd : d ≤ 31 := hdate.day_le_31
    have hdays := daysFromCivil_eq (ε := ε) (y := y) (m := m) (d := d) (by omega) (by omega)
      (by omega) (by omega) (by omega)
    rw [hcount] at hdays
    exact ⟨y, m, d, hdate, hz, hparts, hchecked, hdays⟩
  refine ⟨hfirst, fun y m d hdate hlo hhi hsign => ?_⟩
  obtain ⟨y', m', d', hdate', hz, -, hchecked, hdays⟩ := hfirst _ hlo hhi hsign
  obtain ⟨rfl, rfl, rfl⟩ := dayNumber_inj hdate' hdate hz
  exact ⟨hdays, hchecked⟩

theorem civil_days_inverse_leap_day :
    (∃ (y : ℤ) (m d : ℕ), IsDate y m d ∧
      (civilFromDaysChecked (-719469) : Outcome Unit (ℤ × ℕ × ℕ)) = .ok (y, m, d)) ∧
    (daysFromCivil (-4) 2 29 : Outcome Unit ℤ) = .ok (dayNumber (-4) 2 29) := by
  refine ⟨?_, (civil_days_inverse.2 (-4) 2 29 (by decide) (by decide) (by decide) (by decide)).1⟩
  obtain ⟨y, m, d, hdate, -, -, hcivil, -⟩ :=
    civil_days_inverse.1 (-719469) (by decide) (by decide) (by decide)
  exact ⟨y, m, d, hdate, hcivil⟩

end CheckedDays

end Steam2Fs
