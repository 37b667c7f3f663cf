import Mathlib.Tactic
import Mathlib.Data.Prod.Lex

/-!
# The proleptic Gregorian calendar

Years are integers, so the calendar runs before year one as it does after it.
A date is a year, a month and a day with the proofs that the month exists and
that the day exists in that month. Dates are numbered in days from 1970-01-01
and the numbering keeps their order. The second half counts the same days in
years that start in March, where the leap day is the last day of its year and
the months follow a linear formula; there every number is found to be a date's.
-/

namespace Calendar

def Leap (y : ℤ) : Prop := y % 4 = 0 ∧ (y % 100 ≠ 0 ∨ y % 400 = 0)

instance : DecidablePred Leap := fun _ => inferInstanceAs (Decidable (_ ∧ _))

def monthLength (y : ℤ) (m : ℕ) : ℕ :=
  if m = 2 then if Leap y then 29 else 28
  else if m = 4 ∨ m = 6 ∨ m = 9 ∨ m = 11 then 30
  else 31

def yearLength (y : ℤ) : ℕ := if Leap y then 366 else 365

structure IsDate (y : ℤ) (m d : ℕ) : Prop where
  month_pos : 1 ≤ m
  month_le : m ≤ 12
  day_pos : 1 ≤ d
  day_le : d ≤ monthLength y m

instance (y : ℤ) (m d : ℕ) : Decidable (IsDate y m d) :=
  decidable_of_iff (1 ≤ m ∧ m ≤ 12 ∧ 1 ≤ d ∧ d ≤ monthLength y m)
    ⟨fun h => ⟨h.1, h.2.1, h.2.2.1, h.2.2.2⟩, fun h => ⟨h.1, h.2, h.3, h.4⟩⟩

theorem IsDate.day_le_31 {y : ℤ} {m d : ℕ} (h : IsDate y m d) : d ≤ 31 := by
  have hd := h.day_le
  unfold monthLength at hd
  split_ifs at hd <;> omega

def monthDays (y : ℤ) : ℕ → ℕ
  | 0 => 0
  | n + 1 => monthDays y n + monthLength y (n + 1)

def yearStart (y : ℤ) : ℤ := 365 * (y - 1970) + (y - 1) / 4 - (y - 1) / 100 + (y - 1) / 400 - 477

def dayNumber (y : ℤ) (m d : ℕ) : ℤ := yearStart y + monthDays y (m - 1) + d - 1

example : dayNumber 1970 1 1 = 0 := by decide

theorem yearStart_succ (y : ℤ) : yearStart (y + 1) = yearStart y + yearLength y := by
  by_cases h : Leap y
  · have hdiv := h
    unfold Leap at hdiv
    rw [yearLength, if_pos h, yearStart, yearStart]
    omega
  · have hdiv := h
    unfold Leap at hdiv
    rw [yearLength, if_neg h, yearStart, yearStart]
    omega

theorem monthDays_twelve (y : ℤ) : monthDays y 12 = yearLength y := by
  by_cases h : Leap y <;> simp [monthDays, monthLength, yearLength, h]

theorem monthDays_mono (y : ℤ) : Monotone (monthDays y) :=
  monotone_nat_of_le_succ fun n => Nat.le_add_right (monthDays y n) _

theorem yearStart_mono : Monotone yearStart :=
  monotone_int_of_le_succ fun y => by
    rw [yearStart_succ]
    omega

/-! ### The days of a year follow each other -/

section Order
variable {y y' : ℤ} {m m' d d' : ℕ}

theorem dayNumber_lt_month (h : IsDate y m d) : dayNumber y m d < yearStart y + monthDays y m := by
  obtain ⟨n, rfl⟩ : ∃ n, m = n + 1 := ⟨m - 1, by have := h.month_pos; omega⟩
  have hd := h.day_le
  have hm : monthDays y (n + 1) = monthDays y n + monthLength y (n + 1) := rfl
  unfold dayNumber
  rw [Nat.add_sub_cancel, hm]
  omega

theorem dayNumber_lt_year (h : IsDate y m d) : dayNumber y m d < yearStart (y + 1) := by
  have hmonth := dayNumber_lt_month h
  have hmono := monthDays_mono y h.month_le
  rw [monthDays_twelve] at hmono
  rw [yearStart_succ]
  omega

theorem yearStart_le_dayNumber (h : IsDate y m d) : yearStart y ≤ dayNumber y m d := by
  have hd := h.day_pos
  unfold dayNumber
  omega

theorem dayNumber_lt_of_year (h : IsDate y m d) (h' : IsDate y' m' d') (hy : y < y') :
    dayNumber y m d < dayNumber y' m' d' :=
  calc dayNumber y m d < yearStart (y + 1) := dayNumber_lt_year h
    _ ≤ yearStart y' := yearStart_mono hy
    _ ≤ dayNumber y' m' d' := yearStart_le_dayNumber h'

theorem dayNumber_lt_of_month (h : IsDate y m d) (h' : IsDate y m' d') (hm : m < m') :
    dayNumber y m d < dayNumber y m' d' := by
  have hmonth := dayNumber_lt_month h
  have hmono : monthDays y m ≤ monthDays y (m' - 1) := monthDays_mono y (by omega)
  have hd := h'.day_pos
  have hlast : yearStart y + monthDays y (m' - 1) ≤ dayNumber y m' d' := by
    unfold dayNumber
    omega
  omega

end Order

/-! ### Dates as an ordered type -/

structure Date where
  year : ℤ
  month : ℕ
  day : ℕ
  valid : IsDate year month day
  deriving DecidableEq

namespace Date

def key (a : Date) : ℤ ×ₗ ℕ ×ₗ ℕ := toLex (a.year, toLex (a.month, a.day))

theorem key_injective : Function.Injective key := by
  intro a b h
  have h := toLex_inj.mp h
  have hy : a.year = b.year := congrArg Prod.fst h
  have hmd := toLex_inj.mp (congrArg Prod.snd h)
  have hm : a.month = b.month := congrArg Prod.fst hmd
  have hd : a.day = b.day := congrArg Prod.snd hmd
  cases a
  cases b
  subst hy hm hd
  rfl

instance : LinearOrder Date := LinearOrder.lift' key key_injective

theorem lt_iff {a b : Date} : a < b ↔ a.year < b.year ∨ a.year = b.year ∧
    (a.month < b.month ∨ a.month = b.month ∧ a.day < b.day) := by
  change key a < key b ↔ _
  simp only [key, Prod.Lex.toLex_lt_toLex]

def number (a : Date) : ℤ := dayNumber a.year a.month a.day

theorem number_strictMono : StrictMono number := by
  intro a b h
  rcases lt_iff.mp h with hy | ⟨hy, hm | ⟨hm, hd⟩⟩
  · exact dayNumber_lt_of_year a.valid b.valid hy
  · have hb := b.valid
    unfold number
    rw [← hy] at hb ⊢
    exact dayNumber_lt_of_month a.valid hb hm
  · unfold number dayNumber
    rw [hy, hm]
    omega

end Date

theorem dayNumber_inj {y y' : ℤ} {m m' d d' : ℕ} (h : IsDate y m d) (h' : IsDate y' m' d')
    (he : dayNumber y m d = dayNumber y' m' d') : y = y' ∧ m = m' ∧ d = d' := by
  have hdate : (⟨y, m, d, h⟩ : Date) = ⟨y', m', d', h'⟩ := Date.number_strictMono.injective he
  exact ⟨congrArg Date.year hdate, congrArg Date.month hdate, congrArg Date.day hdate⟩

/-! ### Years that start in March -/

/-- Days from 1970-01-01 for day `doy` of the year that starts in March of year `y`. -/
def marchDay (y doy : ℤ) : ℤ := 365 * y + y / 4 - y / 100 + y / 400 + doy - 719468

/-- The first day of month `mp` of a year that starts in March, its months counted from zero. -/
def marchMonth (mp : ℤ) : ℤ := (153 * mp + 2) / 5

theorem dayNumber_eq_marchDay {y : ℤ} {m d : ℕ} (hm : 1 ≤ m) (hle : m ≤ 12) :
    dayNumber y m d =
      marchDay (if m ≤ 2 then y - 1 else y) (marchMonth ((m + 9) % 12 : ℕ) + d - 1) := by
  unfold dayNumber marchDay marchMonth yearStart
  by_cases hleap : Leap y
  · have hl := hleap
    unfold Leap at hl
    interval_cases m <;> simp [monthDays, monthLength, hleap] <;> omega
  · have hl := hleap
    unfold Leap at hl
    interval_cases m <;> simp [monthDays, monthLength, hleap] <;> omega

/-- Day `doy` of the year that starts in March of year `y` exists. -/
structure IsMarchDay (y doy : ℤ) : Prop where
  nonneg : 0 ≤ doy
  le : doy ≤ 365
  last : doy = 365 → Leap (y + 1)

theorem IsMarchDay.month_le {y doy : ℤ} (h : IsMarchDay y doy) : (5 * doy + 2) / 153 ≤ 11 := by
  have hle := h.le
  omega

theorem IsMarchDay.isDate {y doy : ℤ} (h : IsMarchDay y doy) {mp : ℤ}
    (hmp : mp = (5 * doy + 2) / 153) {m d : ℕ} (hm : (m : ℤ) = if mp < 10 then mp + 3 else mp - 9)
    (hd : (d : ℤ) = doy - marchMonth mp + 1) : IsDate (if m ≤ 2 then y + 1 else y) m d := by
  have hnonneg := h.nonneg
  have hle := h.le
  have hlast := h.last
  have hpos : 0 ≤ mp := by omega
  have hmp11 : mp ≤ 11 := by omega
  unfold marchMonth at hd
  refine ⟨by split at hm <;> omega, by split at hm <;> omega, by omega, ?_⟩
  unfold monthLength
  by_cases hfeb : m = 2
  · have hmp : mp = 11 := by split at hm <;> omega
    by_cases hleap : Leap (y + 1)
    · simp only [hfeb, le_refl, ↓reduceIte, hleap]
      omega
    · have hne : doy ≠ 365 := fun he => hleap (hlast he)
      simp only [hfeb, le_refl, ↓reduceIte, hleap]
      omega
  · rw [if_neg hfeb]
    interval_cases mp <;> simp at hm <;> split <;> omega

theorem IsMarchDay.dayNumber {y doy : ℤ} (h : IsMarchDay y doy) {mp : ℤ}
    (hmp : mp = (5 * doy + 2) / 153) {m d : ℕ} (hm : (m : ℤ) = if mp < 10 then mp + 3 else mp - 9)
    (hd : (d : ℤ) = doy - marchMonth mp + 1) :
    dayNumber (if m ≤ 2 then y + 1 else y) m d = marchDay y doy := by
  have hdate := h.isDate hmp hm hd
  have hnonneg := h.nonneg
  have hmp11 := h.month_le
  rw [dayNumber_eq_marchDay hdate.month_pos hdate.month_le]
  have hyear : (if m ≤ 2 then (if m ≤ 2 then y + 1 else y) - 1 else if m ≤ 2 then y + 1 else y)
      = y := by
    split <;> omega
  have hmonth : (((m + 9) % 12 : ℕ) : ℤ) = mp := by split at hm <;> omega
  rw [hyear, hmonth, hd]
  congr 1
  omega

/-- Day `doe` of a span of four hundred years is day `doy` of its year `yoe`. -/
structure EraDay (doe yoe doy : ℤ) : Prop where
  yoe_nonneg : 0 ≤ yoe
  yoe_le : yoe ≤ 399
  doy_nonneg : 0 ≤ doy
  doy_le : doy ≤ 365
  last : doy = 365 → yoe % 4 = 3 ∧ (yoe % 100 ≠ 99 ∨ yoe = 399)
  count : doe = 365 * yoe + yoe / 4 - yoe / 100 + doy

theorem exists_eraDay {doe : ℤ} (h0 : 0 ≤ doe) (h1 : doe ≤ 146096) :
    ∃ yoe doy, EraDay doe yoe doy := by
  -- The century, the group of four years and the year, each the last one that has begun.
  obtain ⟨g, hg, hg0, hg3, hc, hc3⟩ : ∃ g : ℤ, 36524 * g ≤ doe ∧ 0 ≤ g ∧ g ≤ 3 ∧
      doe ≤ 36524 * g + 36524 ∧ (doe = 36524 * g + 36524 → g = 3) :=
    ⟨min (doe / 36524) 3, by omega, by omega, by omega, by omega, by omega⟩
  obtain ⟨s, hs, hs0, hs24, hq⟩ : ∃ s : ℤ, 1461 * s ≤ doe - 36524 * g ∧ 0 ≤ s ∧ s ≤ 24 ∧
      doe - 36524 * g ≤ 1461 * s + 1460 :=
    ⟨(doe - 36524 * g) / 1461, by omega, by omega, by omega, by omega⟩
  obtain ⟨r, hr, hr0, hr3, hy, hy3⟩ : ∃ r : ℤ, 365 * r ≤ doe - 36524 * g - 1461 * s ∧ 0 ≤ r ∧
      r ≤ 3 ∧ doe - 36524 * g - 1461 * s ≤ 365 * r + 365 ∧
      (doe - 36524 * g - 1461 * s = 365 * r + 365 → r = 3) :=
    ⟨min ((doe - 36524 * g - 1461 * s) / 365) 3, by omega, by omega, by omega, by omega, by omega⟩
  have hdiv4 : (100 * g + 4 * s + r) / 4 = 25 * g + s := by omega
  have hdiv100 : (100 * g + 4 * s + r) / 100 = g := by omega
  refine ⟨100 * g + 4 * s + r, doe - 36524 * g - 1461 * s - 365 * r, ?_⟩
  refine ⟨by omega, by omega, by omega, by omega, fun hlast => by omega, ?_⟩
  rw [hdiv4, hdiv100]
  ring

theorem EraDay.isMarchDay {doe yoe doy : ℤ} (h : EraDay doe yoe doy) (era : ℤ) :
    IsMarchDay (yoe + era * 400) doy := by
  refine ⟨h.doy_nonneg, h.doy_le, fun hlast => ?_⟩
  have hy := h.last hlast
  have hle := h.yoe_le
  unfold Leap
  omega

theorem EraDay.marchDay_eq {doe yoe doy : ℤ} (h : EraDay doe yoe doy) (era : ℤ) :
    marchDay (yoe + era * 400) doy = era * 146097 + doe - 719468 := by
  have hcount := h.count
  have h0 := h.yoe_nonneg
  have h399 := h.yoe_le
  unfold marchDay
  omega

end Calendar
