import Steam2Fs.Dates

/-!
# Reading and printing dates

The text of a date is first cut into numbers, which cannot panic, and the
numbers are then combined with checked arithmetic.
-/

namespace Steam2Fs
open Text Calendar

/-! ### Reading a date -/

def parseI64 : Str → Option ℤ
  | '-' :: [] => none
  | '-' :: cs => ((digitsFrom 10 0 cs).filter (· ≤ 2 ^ 63)).map fun n => -Int.ofNat n
  | cs => (fromStrRadix 10 (2 ^ 63) cs).map Int.ofNat

/-- The numbers of a date line before they are combined. A fraction that is not
empty is given by its first nine characters and their value. -/
structure DateFields where
  year : ℤ
  month : ℕ
  day : ℕ
  hours : ℕ
  minutes : ℕ
  seconds : ℕ
  fraction : Option (Str × ℕ)
  deriving DecidableEq, Repr

def parseFraction (frac : Str) : Option (Option (Str × ℕ)) :=
  if frac = [] then some none
  else
    let f := frac.take 9
    (fromStrRadix 10 (2 ^ 32) f).map fun n => some (f, n)

def dateFields (s : Str) : Option DateFields := do
  let (date, time) ← splitOnce '+' s
  let d := date.splitOn '-'
  let y ← parseI64 (← d[0]?)
  let m ← fromStrRadix 10 (2 ^ 32) (← d[1]?)
  let day ← fromStrRadix 10 (2 ^ 32) (← d[2]?)
  let t := time.splitOn ':'
  let h ← fromStrRadix 10 (2 ^ 64) (← t[0]?)
  let mi ← fromStrRadix 10 (2 ^ 64) (← t[1]?)
  let secStr ← t[2]?
  let (sInt, frac) := (splitOnce '.' secStr).getD (secStr, [])
  let sec ← fromStrRadix 10 (2 ^ 64) sInt
  let fraction ← parseFraction frac
  some ⟨y, m, day, h, mi, sec, fraction⟩

section Parse
variable {ε : Type}

/-- `9 - f.len()` counts bytes. -/
def fractionNanos : Option (Str × ℕ) → Outcome ε ℕ
  | none => .ok 0
  | some (f, n) => do
    let len := (utf8 f).length
    if len ≤ 9 then unsigned 32 (n * (← unsigned 32 (10 ^ (9 - len)))) else .panic

/-- `UNIX_EPOCH + Duration::new(secs, nanos)`, for a clock of signed 64-bit seconds. -/
def epochPlus (secs nanos : ℕ) : Outcome ε Instant :=
  if secs < 2 ^ 63 then .ok ⟨secs, nanos⟩ else .panic

def tryFromI64 (x : ℤ) : Option ℕ := if 0 ≤ x then some x.toNat else none

end Parse

def parseDate (s : Str) : Outcome Unit Instant := do
  let f ← Outcome.ofOption () (dateFields s)
  let nanos ← fractionNanos f.fraction
  let days ← daysFromCivil f.year f.month f.day
  -- Dates before 1970 have no instant.
  let days ← Outcome.ofOption () (tryFromI64 days)
  let a ← unsigned 64 (days * 86400)
  let b ← unsigned 64 (a + (← unsigned 64 (f.hours * 3600)))
  let c ← unsigned 64 (b + (← unsigned 64 (f.minutes * 60)))
  epochPlus (← unsigned 64 (c + f.seconds)) nanos

/-- The map of the dates file: a line without a tab, and one whose date does not
parse, adds nothing. Newest entries first. -/
def readDates (bytes : List UInt8) : Outcome Unit (List (Str × Instant)) :=
  (lines (fromUtf8Lossy bytes)).foldlM (fun m line =>
    match splitOnce '\t' line with
    | none => .ok m
    | some (name, date) => match parseDate (trim date) with
      | .ok t => .ok ((trim name, t) :: m)
      | .err _ => .ok m
      | .panic => .panic) []

example : parseDate "2003-09-10+13:11:59.0156250000".toList = .ok ⟨1063199519, 15625000⟩ := by
  decide +kernel

theorem parseI64_nonneg {s : Str} (h : '-' ∉ s) {y : ℤ} (hy : parseI64 s = some y) :
    0 ≤ y ∧ y < 2 ^ 63 := by
  unfold parseI64 at hy
  split at hy
  · cases hy
  · exact absurd List.mem_cons_self h
  · obtain ⟨n, hn, rfl⟩ := Option.map_eq_some_iff.mp hy
    have hlt := (fromStrRadix_eq_some hn).1
    change 0 ≤ (n : ℤ) ∧ (n : ℤ) < 2 ^ 63
    omega

theorem parseFraction_bounded {frac : Str} {t : Str} {n : ℕ}
    (h : parseFraction frac = some (some (t, n))) :
    (utf8 t).length ≤ 9 ∧ n < 10 ^ (utf8 t).length := by
  unfold parseFraction at h
  split at h
  · cases h
  obtain ⟨n', hn, he⟩ := Option.map_eq_some_iff.mp h
  cases he
  obtain ⟨-, u, hu, hdigits⟩ := fromStrRadix_eq_some hn
  have hu_ascii := digitsFrom_ascii hdigits
  have hlt := digitsFrom_lt hdigits
  rw [Nat.zero_add, Nat.one_mul] at hlt
  have htake : (frac.take 9).length ≤ 9 := by
    rw [List.length_take]
    omega
  rcases hu with hu | hu
  · rw [hu] at htake ⊢
    rw [utf8_length_ascii hu_ascii]
    exact ⟨htake, hlt⟩
  · rw [hu] at htake ⊢
    have hplus : ∀ c ∈ '+' :: u, c.toNat < 0x80 := by
      intro c hc
      rcases List.mem_cons.mp hc with rfl | hc
      · decide
      · exact hu_ascii c hc
    rw [utf8_length_ascii hplus]
    refine ⟨htake, hlt.trans_le ?_⟩
    exact Nat.pow_le_pow_right (by decide) (Nat.le_succ u.length)

/-- What the text guarantees about its numbers: a year has no sign, and the
fraction is at most nine digits. -/
structure DateFields.Bounded (f : DateFields) : Prop where
  year_nonneg : 0 ≤ f.year
  year_lt : f.year < 2 ^ 63
  month_lt : f.month < 2 ^ 32
  day_lt : f.day < 2 ^ 32
  fraction_lt : ∀ t n, f.fraction = some (t, n) → (utf8 t).length ≤ 9 ∧ n < 10 ^ (utf8 t).length

theorem dateFields_bounded {s : Str} {f : DateFields} (h : dateFields s = some f) : f.Bounded := by
  obtain ⟨⟨date, time⟩, -, h⟩ := Option.bind_eq_some_iff.mp h
  obtain ⟨yText, hyText, h⟩ := Option.bind_eq_some_iff.mp h
  obtain ⟨y, hy, h⟩ := Option.bind_eq_some_iff.mp h
  obtain ⟨mText, -, h⟩ := Option.bind_eq_some_iff.mp h
  obtain ⟨m, hm, h⟩ := Option.bind_eq_some_iff.mp h
  obtain ⟨dText, -, h⟩ := Option.bind_eq_some_iff.mp h
  obtain ⟨d, hd, h⟩ := Option.bind_eq_some_iff.mp h
  obtain ⟨hText, -, h⟩ := Option.bind_eq_some_iff.mp h
  obtain ⟨hours, -, h⟩ := Option.bind_eq_some_iff.mp h
  obtain ⟨miText, -, h⟩ := Option.bind_eq_some_iff.mp h
  obtain ⟨mi, -, h⟩ := Option.bind_eq_some_iff.mp h
  obtain ⟨secText, -, h⟩ := Option.bind_eq_some_iff.mp h
  obtain ⟨sec, -, h⟩ := Option.bind_eq_some_iff.mp h
  obtain ⟨fraction, hfrac, h⟩ := Option.bind_eq_some_iff.mp h
  cases h
  have hyear := parseI64_nonneg (not_mem_of_mem_splitOn (List.mem_of_getElem? hyText)) hy
  have hmonth := (fromStrRadix_eq_some hm).1
  have hday := (fromStrRadix_eq_some hd).1
  refine ⟨hyear.1, hyear.2, hmonth, hday, fun t n hf => ?_⟩
  dsimp only at hf
  rw [hf] at hfrac
  exact parseFraction_bounded hfrac

theorem nanos_of_bounded {ε : Type} {t : Str} {n : ℕ} (hlen : (utf8 t).length ≤ 9)
    (hn : n < 10 ^ (utf8 t).length) :
    ∃ k, (k < 10 ^ 9 ∧ k = n * 10 ^ (9 - (utf8 t).length)) ∧
      (fractionNanos (some (t, n)) : Outcome ε ℕ) = .ok k := by
  have hpow : 10 ^ (utf8 t).length * 10 ^ (9 - (utf8 t).length) = 10 ^ 9 := by
    rw [← Nat.pow_add, Nat.add_sub_cancel' hlen]
  have hsmall : 10 ^ (9 - (utf8 t).length) ≤ 10 ^ 9 :=
    Nat.pow_le_pow_right (by decide) (Nat.sub_le 9 _)
  have hprod : n * 10 ^ (9 - (utf8 t).length) < 10 ^ 9 := by
    rw [← hpow]
    exact Nat.mul_lt_mul_of_pos_right hn (Nat.pow_pos (by decide))
  refine ⟨n * 10 ^ (9 - (utf8 t).length), ⟨hprod, rfl⟩, ?_⟩
  unfold fractionNanos
  dsimp only
  rw [if_pos hlen, unsigned_ok (by omega), Outcome.ok_bind, unsigned_ok (by omega)]

theorem DateFields.Bounded.nanos {ε : Type} {f : DateFields} (h : f.Bounded) :
    ∃ n < 10 ^ 9, (fractionNanos f.fraction : Outcome ε ℕ) = .ok n := by
  cases hf : f.fraction with
  | none => exact ⟨0, by decide, rfl⟩
  | some p =>
    obtain ⟨hlen, hn⟩ := h.fraction_lt p.1 p.2 hf
    obtain ⟨k, hk, hnanos⟩ := nanos_of_bounded (ε := ε) hlen hn
    exact ⟨k, hk.1, hnanos⟩

namespace DateFields

def days (f : DateFields) : ℤ := civilCount f.year f.month f.day

/-- The exact number of seconds the fields stand for. -/
def total (f : DateFields) : ℤ :=
  f.days * 86400 + f.hours * 3600 + f.minutes * 60 + f.seconds

/-- The machine numbers hold everything the fields are combined into. -/
def Fits (f : DateFields) : Prop := f.month + 9 < 2 ^ 32 ∧ (f.days < 0 ∨ f.total < 2 ^ 63)

instance (f : DateFields) : Decidable f.Fits := inferInstanceAs (Decidable (_ ∧ _))

theorem Bounded.days_eq {ε : Type} {f : DateFields} (h : f.Bounded) (hfits : f.Fits) :
    (daysFromCivil f.year f.month f.day : Outcome ε ℤ) = .ok f.days := by
  have hyear := h.year_nonneg
  have hcount : f.days = civilCount f.year f.month f.day := rfl
  have hlow : -719835 ≤ f.days := by
    have hstart : 0 ≤ marchMonth ((f.month + 9) % 12 : ℕ) := by
      unfold marchMonth
      omega
    rw [hcount, civilCount_eq]
    split <;> omega
  have hhigh : f.days + 719468 < 2 ^ 63 := by
    rcases hfits.2 with hneg | hlt
    · omega
    · unfold total at hlt
      omega
  refine daysFromCivil_eq hfits.1 h.day_lt ?_ ?_ hhigh
  · split <;> omega
  · omega

end DateFields

section Returns
variable {s : Str} {f : DateFields}

theorem parseDate_eq (hf : dateFields s = some f) (h : f.Fits) (h0 : 0 ≤ f.days) :
    ∃ n < 10 ^ 9, fractionNanos f.fraction = (.ok n : Outcome Unit ℕ) ∧
      parseDate s = .ok ⟨f.total.toNat, n⟩ := by
  have hb := dateFields_bounded hf
  obtain ⟨n, hn, hnanos⟩ := hb.nanos (ε := Unit)
  refine ⟨n, hn, hnanos, ?_⟩
  have htotal : f.total < 2 ^ 63 := h.2.resolve_left (by omega)
  have hsum : f.total.toNat = f.days.toNat * 86400 + f.hours * 3600 + f.minutes * 60 + f.seconds := by
    unfold DateFields.total
    omega
  unfold parseDate
  rw [hf, Outcome.ofOption, Outcome.ok_bind, hnanos, Outcome.ok_bind, hb.days_eq h,
    Outcome.ok_bind, tryFromI64, if_pos h0, Outcome.ofOption, Outcome.ok_bind,
    unsigned_ok (by omega), Outcome.ok_bind, unsigned_ok (by omega), Outcome.ok_bind,
    unsigned_ok (by omega), Outcome.ok_bind, unsigned_ok (by omega), Outcome.ok_bind,
    unsigned_ok (by omega), Outcome.ok_bind, unsigned_ok (by omega), Outcome.ok_bind, epochPlus,
    if_pos (by omega), hsum]

theorem parseDate_early (hf : dateFields s = some f) (h : f.Fits) (h0 : f.days < 0) :
    parseDate s = .err () := by
  have hb := dateFields_bounded hf
  obtain ⟨n, -, hnanos⟩ := hb.nanos (ε := Unit)
  unfold parseDate
  rw [hf, Outcome.ofOption, Outcome.ok_bind, hnanos, Outcome.ok_bind, hb.days_eq h,
    Outcome.ok_bind, tryFromI64, if_neg (by omega), Outcome.ofOption, Outcome.err_bind]

theorem parseDate_fits (hf : dateFields s = some f) (hret : (parseDate s).Returns) : f.Fits := by
  obtain ⟨n, -, hnanos⟩ := (dateFields_bounded hf).nanos (ε := Unit)
  unfold parseDate at hret
  rw [hf, Outcome.ofOption, Outcome.ok_bind, hnanos, Outcome.ok_bind] at hret
  rcases daysFromCivil_exact (ε := Unit) f.year f.month f.day with hpanic | ⟨hm, hdays⟩
  · rw [hpanic, Outcome.panic_bind] at hret
    exact absurd hret Outcome.not_returns_panic
  refine ⟨hm, ?_⟩
  by_cases h0 : f.days < 0
  · exact Or.inl h0
  have hnonneg : 0 ≤ civilCount f.year f.month f.day := by
    change 0 ≤ f.days
    omega
  rw [hdays, Outcome.ok_bind, tryFromI64, if_pos hnonneg, Outcome.ofOption, Outcome.ok_bind] at hret
  have hsum : f.total = (f.days.toNat * 86400 + f.hours * 3600 + f.minutes * 60 + f.seconds : ℕ) := by
    unfold DateFields.total
    omega
  -- The checked sums either panic or reach the clock with the exact total.
  have hsteps : Exact (f.total < 2 ^ 63) (⟨f.days.toNat * 86400 + f.hours * 3600 +
      f.minutes * 60 + f.seconds, n⟩ : Instant) (do
        let a ← unsigned 64 (f.days.toNat * 86400)
        let b ← unsigned 64 (a + (← unsigned 64 (f.hours * 3600)))
        let c ← unsigned 64 (b + (← unsigned 64 (f.minutes * 60)))
        epochPlus (← unsigned 64 (c + f.seconds)) n : Outcome Unit Instant) := by
    refine Exact.unsigned_bind fun _ => Exact.unsigned_bind fun _ => Exact.unsigned_bind fun _ => ?_
    refine Exact.unsigned_bind fun _ => Exact.unsigned_bind fun _ => Exact.unsigned_bind fun _ => ?_
    unfold epochPlus
    split
    next hlt => exact Or.inr ⟨by omega, rfl⟩
    next => exact Or.inl rfl
  rcases hsteps with hpanic | ⟨hlt, -⟩
  · exact absurd hret (by rw [Outcome.Returns, not_not]; exact hpanic)
  · exact Or.inr hlt

theorem parseDate_returns (s : Str) :
    (parseDate s).Returns ↔ ∀ f, dateFields s = some f → f.Fits := by
  refine ⟨fun hret f hf => parseDate_fits hf hret, fun h => ?_⟩
  cases hf : dateFields s with
  | none =>
    unfold parseDate
    rw [hf]
    exact Outcome.returns_err ()
  | some f =>
    have hfits := h f hf
    by_cases h0 : 0 ≤ f.days
    · obtain ⟨n, -, -, hok⟩ := parseDate_eq hf hfits h0
      rw [hok]
      exact Outcome.returns_ok _
    · rw [parseDate_early hf hfits (by omega)]
      exact Outcome.returns_err ()

end Returns

def dateTexts (bytes : List UInt8) : List Str :=
  (lines (fromUtf8Lossy bytes)).filterMap fun l => (splitOnce '\t' l).map fun p => trim p.2

theorem readDates_returns (bytes : List UInt8) :
    (readDates bytes).Returns ↔ ∀ s ∈ dateTexts bytes, (parseDate s).Returns := by
  unfold readDates dateTexts
  generalize ([] : List (Str × Instant)) = m
  induction lines (fromUtf8Lossy bytes) generalizing m with
  | nil => simp
  | cons l ls ih =>
    rw [List.foldlM_cons]
    cases hl : splitOnce '\t' l with
    | none => simpa [hl] using ih m
    | some p =>
      cases hp : parseDate (trim p.2) with
      | ok t => simpa [hl, hp] using ih ((trim p.1, t) :: m)
      | err e => simpa [hl, hp] using ih m
      | panic => simp [hl, hp]

/-- A date line is read without a panic exactly when its numbers fit, and so is
the whole dates file. -/
theorem parseDate_returns_iff (s : Str) (bytes : List UInt8) :
    ((parseDate s).Returns ↔ ∀ f, dateFields s = some f → f.Fits) ∧
    ((readDates bytes).Returns ↔
      ∀ s ∈ dateTexts bytes, ∀ f, dateFields s = some f → f.Fits) := by
  refine ⟨parseDate_returns s, ?_⟩
  rw [readDates_returns]
  exact forall₂_congr fun s _ => parseDate_returns s

/-- Enough hours to pass the last second of the clock. -/
theorem parseDate_panics_on_hours :
    ¬ ∀ s, (parseDate s).Returns := by
  intro h
  have hpanic : parseDate "1970-01-01+2562047788015216:00:00".toList = .panic := by decide +kernel
  exact h _ hpanic

/-! ### Printing and reading back -/

section RoundTrip

theorem isDigit_of_mem_padded {width n : ℕ} {c : Char} (hc : c ∈ padZero width (decimal n)) :
    c.isDigit = true := by
  rcases mem_padZero hc with rfl | hc
  · decide
  · obtain ⟨k, hk, rfl⟩ := digit_of_mem_toDigits (by decide) hc
    interval_cases k <;> decide

theorem not_mem_of_isDigit {s : Str} (hs : ∀ c ∈ s, c.isDigit = true) {a : Char}
    (ha : a.isDigit = false) : a ∉ s := by
  intro h
  rw [hs a h] at ha
  cases ha

theorem not_mem_padded (width n : ℕ) {a : Char} (ha : a.isDigit = false) :
    a ∉ padZero width (decimal n) :=
  not_mem_of_isDigit (fun _ => isDigit_of_mem_padded) ha

theorem fromStrRadix_padded {limit n : ℕ} (width : ℕ) (hlt : n < limit) :
    fromStrRadix 10 limit (padZero width (decimal n)) = some n :=
  fromStrRadix_padZero (by decide) (by decide) width hlt

theorem parseI64_padded {n : ℕ} (width : ℕ) (hlt : n < 2 ^ 63) :
    parseI64 (padZero width (decimal n)) = some (n : ℤ) := by
  have hminus : ∀ cs, padZero width (decimal n) ≠ '-' :: cs := by
    intro cs h
    exact not_mem_padded width n (a := '-') (by decide) (h ▸ List.mem_cons_self)
  rw [parseI64.eq_3 _ (hminus []) hminus, fromStrRadix_padded width hlt]
  rfl

theorem digitVal_of_isDigit {c : Char} (h : c.isDigit = true) :
    ∃ d < 10, digitVal 10 c = some d := by
  unfold Char.isDigit at h
  simp only [ge_iff_le, Bool.and_eq_true, decide_eq_true_eq] at h
  have hlo : 48 ≤ c.toNat := h.1
  have hhi : c.toNat ≤ 57 := h.2
  refine ⟨c.toNat - 48, by omega, ?_⟩
  unfold digitVal
  rw [if_pos ⟨h.1, h.2⟩]
  change Option.filter (· < 10) (some (c.toNat - 48)) = some (c.toNat - 48)
  rw [Option.filter_eq_some_iff]
  exact ⟨rfl, by simpa using by omega⟩

theorem digitsFrom_of_digits (acc : ℕ) {s : Str} (hs : ∀ c ∈ s, c.isDigit = true) :
    ∃ n, digitsFrom 10 acc s = some n := by
  induction s generalizing acc with
  | nil => exact ⟨acc, rfl⟩
  | cons c cs ih =>
    obtain ⟨d, -, hd⟩ := digitVal_of_isDigit (hs c List.mem_cons_self)
    obtain ⟨n, hn⟩ := ih (acc * 10 + d) fun x hx => hs x (List.mem_cons_of_mem c hx)
    refine ⟨n, ?_⟩
    rw [digitsFrom, hd]
    exact hn

theorem digitsFrom_zeros (acc k : ℕ) :
    digitsFrom 10 acc (List.replicate k '0') = some (acc * 10 ^ k) := by
  induction k generalizing acc with
  | zero => simp [digitsFrom]
  | succ k ih =>
    have hzero : digitVal 10 '0' = some 0 := by decide
    rw [List.replicate_succ, digitsFrom, hzero]
    change digitsFrom 10 (acc * 10 + 0) (List.replicate k '0') = _
    rw [ih, Nat.pow_succ']
    congr 1
    ring

def firstNine (frac : Str) : Str := (frac ++ List.replicate 9 '0').take 9

theorem parseFraction_digits {frac : Str} (h : ∀ c ∈ frac, c.isDigit = true) :
    ∃ p n, parseFraction frac = some p ∧ (fractionNanos p : Outcome Unit ℕ) = .ok n ∧
      n < 10 ^ 9 ∧ digitsFrom 10 0 (firstNine frac) = some n := by
  by_cases hne : frac = []
  · subst hne
    exact ⟨none, 0, rfl, rfl, by decide, by decide⟩
  have htake : ∀ c ∈ frac.take 9, c.isDigit = true := fun c hc => h c (List.mem_of_mem_take hc)
  obtain ⟨n, hn⟩ := digitsFrom_of_digits 0 htake
  have hlen : (frac.take 9).length ≤ 9 := by
    rw [List.length_take]
    omega
  have hsmall : 10 ^ (frac.take 9).length ≤ 10 ^ 9 := Nat.pow_le_pow_right (by decide) hlen
  have hlt : n < 2 ^ 32 := by
    have hdigits := digitsFrom_lt hn
    omega
  have htake_ne : frac.take 9 ≠ [] := by
    intro he
    rcases List.take_eq_nil_iff.mp he with h9 | hnil
    · omega
    · exact hne hnil
  have hparse : parseFraction frac = some (some (frac.take 9, n)) := by
    unfold parseFraction
    rw [if_neg hne]
    dsimp only
    rw [fromStrRadix_of_digits htake_ne (not_mem_of_isDigit htake (by decide)) hn hlt]
    rfl
  have hutf8 : (utf8 (frac.take 9)).length = (frac.take 9).length :=
    utf8_length_ascii (digitsFrom_ascii hn)
  obtain ⟨hle, hbound⟩ := parseFraction_bounded hparse
  obtain ⟨k, hk, hnanos⟩ := nanos_of_bounded (ε := Unit) hle hbound
  refine ⟨_, k, hparse, hnanos, hk.1, ?_⟩
  have hpad : firstNine frac = frac.take 9 ++ List.replicate (9 - (frac.take 9).length) '0' := by
    unfold firstNine
    rw [List.take_append, List.take_replicate, List.length_take]
    congr 2
    omega
  rw [hpad, digitsFrom_append, hn]
  change digitsFrom 10 n _ = _
  rw [digitsFrom_zeros, hk.2, hutf8]

/-- `YYYY-MM-DD+HH:MM:SS[.fraction]`. -/
def dateText (y m d h mi sec : ℕ) (frac : Option Str) : Str :=
  (padZero 4 (decimal y) ++ '-' :: (padZero 2 (decimal m) ++ '-' :: padZero 2 (decimal d))) ++
    '+' :: (padZero 2 (decimal h) ++ ':' :: (padZero 2 (decimal mi) ++ ':' ::
      (padZero 2 (decimal sec) ++ (frac.map ('.' :: ·)).getD [])))

/-- `YYYY-MM-DDTHH-MM-SS`. -/
def stampText (y m d h mi sec : ℕ) : Str :=
  padZero 4 (decimal y) ++ '-' :: padZero 2 (decimal m) ++ '-' :: padZero 2 (decimal d) ++
    'T' :: padZero 2 (decimal h) ++ '-' :: padZero 2 (decimal mi) ++ '-' :: padZero 2 (decimal sec)

theorem splitOn_padded {width n : ℕ} {a : Char} (ha : a.isDigit = false) :
    (padZero width (decimal n)).splitOn a = [padZero width (decimal n)] :=
  List.splitOn_eq_singleton (not_mem_padded width n ha)

theorem splitOn_padded_cons {width n : ℕ} {a : Char} (ha : a.isDigit = false) (t : Str) :
    (padZero width (decimal n) ++ a :: t).splitOn a = padZero width (decimal n) :: t.splitOn a :=
  List.splitOn_append_cons_self_of_not_mem (not_mem_padded width n ha) t

theorem seconds_split {sec : ℕ} {frac : Option Str} :
    (splitOnce '.' (padZero 2 (decimal sec) ++ (frac.map ('.' :: ·)).getD [])).getD
      (padZero 2 (decimal sec) ++ (frac.map ('.' :: ·)).getD [], []) =
        (padZero 2 (decimal sec), frac.getD []) := by
  have hdot : '.' ∉ padZero 2 (decimal sec) := not_mem_padded 2 sec (by decide)
  cases frac with
  | none =>
    change (splitOnce '.' (padZero 2 (decimal sec) ++ [])).getD (_ ++ [], []) = _
    rw [List.append_nil, splitOnce_eq_none hdot]
    rfl
  | some t =>
    change (splitOnce '.' (padZero 2 (decimal sec) ++ '.' :: t)).getD _ = _
    rw [splitOnce_append hdot]
    rfl

theorem dateFields_eq {s date time yText mText dText hText miText secText sText frac : Str}
    {f : DateFields} (hs : splitOnce '+' s = some (date, time))
    (hdate : date.splitOn '-' = [yText, mText, dText])
    (htime : time.splitOn ':' = [hText, miText, secText])
    (hsplit : (splitOnce '.' secText).getD (secText, []) = (sText, frac))
    (hy : parseI64 yText = some f.year) (hm : fromStrRadix 10 (2 ^ 32) mText = some f.month)
    (hd : fromStrRadix 10 (2 ^ 32) dText = some f.day)
    (hh : fromStrRadix 10 (2 ^ 64) hText = some f.hours)
    (hmi : fromStrRadix 10 (2 ^ 64) miText = some f.minutes)
    (hsec : fromStrRadix 10 (2 ^ 64) sText = some f.seconds)
    (hfrac : parseFraction frac = some f.fraction) : dateFields s = some f := by
  refine Option.bind_eq_some_iff.mpr ⟨_, hs, ?_⟩
  refine Option.bind_eq_some_iff.mpr ⟨yText, by rw [hdate]; rfl, ?_⟩
  refine Option.bind_eq_some_iff.mpr ⟨_, hy, ?_⟩
  refine Option.bind_eq_some_iff.mpr ⟨mText, by rw [hdate]; rfl, ?_⟩
  refine Option.bind_eq_some_iff.mpr ⟨_, hm, ?_⟩
  refine Option.bind_eq_some_iff.mpr ⟨dText, by rw [hdate]; rfl, ?_⟩
  refine Option.bind_eq_some_iff.mpr ⟨_, hd, ?_⟩
  refine Option.bind_eq_some_iff.mpr ⟨hText, by rw [htime]; rfl, ?_⟩
  refine Option.bind_eq_some_iff.mpr ⟨_, hh, ?_⟩
  refine Option.bind_eq_some_iff.mpr ⟨miText, by rw [htime]; rfl, ?_⟩
  refine Option.bind_eq_some_iff.mpr ⟨_, hmi, ?_⟩
  refine Option.bind_eq_some_iff.mpr ⟨secText, by rw [htime]; rfl, ?_⟩
  rw [hsplit]
  refine Option.bind_eq_some_iff.mpr ⟨_, hsec, ?_⟩
  exact Option.bind_eq_some_iff.mpr ⟨_, hfrac, rfl⟩

theorem dateFields_dateText {y m d h mi sec : ℕ} {frac : Option Str} {p : Option (Str × ℕ)}
    (hy : y < 2 ^ 63) (hm : m < 2 ^ 32) (hd : d < 2 ^ 32) (hh : h < 2 ^ 64) (hmi : mi < 2 ^ 64)
    (hsec : sec < 2 ^ 64) (hfrac : ∀ c ∈ frac.getD [], c.isDigit = true)
    (hp : parseFraction (frac.getD []) = some p) :
    dateFields (dateText y m d h mi sec frac) = some ⟨y, m, d, h, mi, sec, p⟩ := by
  have hplus : '+' ∉ padZero 4 (decimal y) ++ '-' ::
      (padZero 2 (decimal m) ++ '-' :: padZero 2 (decimal d)) := by
    intro hmem
    rcases List.mem_append.mp hmem with hc | hc
    · exact not_mem_padded 4 y (by decide) hc
    rcases List.mem_append.mp ((List.mem_cons.mp hc).resolve_left (by decide)) with hc | hc
    · exact not_mem_padded 2 m (by decide) hc
    · exact not_mem_padded 2 d (by decide) ((List.mem_cons.mp hc).resolve_left (by decide))
  have htail : ':' ∉ padZero 2 (decimal sec) ++ (frac.map ('.' :: ·)).getD [] := by
    intro hmem
    rcases List.mem_append.mp hmem with hc | hc
    · exact not_mem_padded 2 sec (by decide) hc
    · cases frac with
      | none => exact absurd hc List.not_mem_nil
      | some t =>
        have hc := (List.mem_cons.mp hc).resolve_left (by decide)
        exact not_mem_of_isDigit hfrac (by decide) hc
  have hdate : (padZero 4 (decimal y) ++ '-' ::
      (padZero 2 (decimal m) ++ '-' :: padZero 2 (decimal d))).splitOn '-' =
        [padZero 4 (decimal y), padZero 2 (decimal m), padZero 2 (decimal d)] := by
    rw [splitOn_padded_cons (by decide), splitOn_padded_cons (by decide),
      splitOn_padded (by decide)]
  have htime : (padZero 2 (decimal h) ++ ':' :: (padZero 2 (decimal mi) ++ ':' ::
      (padZero 2 (decimal sec) ++ (frac.map ('.' :: ·)).getD []))).splitOn ':' =
        [padZero 2 (decimal h), padZero 2 (decimal mi),
          padZero 2 (decimal sec) ++ (frac.map ('.' :: ·)).getD []] := by
    rw [splitOn_padded_cons (by decide), splitOn_padded_cons (by decide),
      List.splitOn_eq_singleton htail]
  exact dateFields_eq (splitOnce_append hplus _) hdate htime seconds_split (parseI64_padded 4 hy)
    (fromStrRadix_padded 2 hm) (fromStrRadix_padded 2 hd) (fromStrRadix_padded 2 hh)
    (fromStrRadix_padded 2 hmi) (fromStrRadix_padded 2 hsec) hp

theorem clock_fields {h mi sec : ℕ} (hmi : mi < 60) (hsec : sec < 60) :
    (h * 3600 + mi * 60 + sec) / 3600 = h ∧ (h * 3600 + mi * 60 + sec) / 60 % 60 = mi ∧
      (h * 3600 + mi * 60 + sec) % 60 = sec :=
  ⟨by omega, by omega, by omega⟩

theorem formatStamp_eq {y m d h mi sec : ℕ} (hdate : IsDate y m d) (h0 : 0 ≤ dayNumber y m d)
    (hlt : dayNumber y m d < 2 ^ 63) (hh : h < 24) (hmi : mi < 60) (hsec : sec < 60) :
    formatStamp ((dayNumber y m d).toNat * 86400 + h * 3600 + mi * 60 + sec) =
      stampText y m d h mi sec := by
  obtain ⟨n, hn⟩ := Int.eq_ofNat_of_zero_le h0
  have hcivil := civilFromDays_dayNumber hdate
  rw [hn] at hlt hcivil ⊢
  have hrem : (n * 86400 + h * 3600 + mi * 60 + sec) % 86400 = h * 3600 + mi * 60 + sec := by omega
  obtain ⟨hhour, hminute, hsecond⟩ := clock_fields (h := h) hmi hsec
  have hdays : min (((n * 86400 + h * 3600 + mi * 60 + sec : ℕ) : ℤ) / 86400) (2 ^ 63 - 1) = n := by
    omega
  unfold formatStamp stampText
  dsimp only
  rw [Int.toNat_natCast, hdays, hcivil, hrem, hhour, hminute, hsecond]
  rfl

theorem dayNumber_bounds {y m d : ℕ} (hdate : IsDate y m d) (hlo : 1970 ≤ y) (hhi : y ≤ 9999) :
    0 ≤ dayNumber y m d ∧ dayNumber y m d < 2932897 := by
  have hstart : yearStart 1970 ≤ yearStart y := yearStart_mono (by omega)
  have hend : yearStart (y + 1) ≤ yearStart 10000 := yearStart_mono (by omega)
  have hfirst := yearStart_le_dayNumber hdate
  have hlast := dayNumber_lt_year hdate
  have h1970 : yearStart 1970 = 0 := by decide
  have h10000 : yearStart 10000 = 2932897 := by decide
  omega

end RoundTrip

/-- A date of four-digit years from 1970 on parses to its instant, with the
fraction in nanoseconds, and the instant's stamp prints the date again. -/
theorem parseDate_dateText {y m d h mi sec : ℕ} {frac : Option Str} (hdate : IsDate y m d)
    (hlo : 1970 ≤ y) (hhi : y ≤ 9999) (hh : h < 24) (hmi : mi < 60) (hsec : sec < 60)
    (hfrac : ∀ c ∈ frac.getD [], c.isDigit = true) :
    ∃ nanos < 10 ^ 9, digitsFrom 10 0 (firstNine (frac.getD [])) = some nanos ∧
      ∃ t, parseDate (dateText y m d h mi sec frac) = .ok t ∧ t.nanos = nanos ∧
        (t.secs : ℤ) = 86400 * dayNumber y m d + (3600 * h + 60 * mi + sec) ∧
        formatStamp t.secs = stampText y m d h mi sec := by
  obtain ⟨h0, hlt⟩ := dayNumber_bounds hdate hlo hhi
  have hmonth := hdate.month_le
  have hday := hdate.day_le_31
  obtain ⟨p, n, hp, hnanos, hn, hdigits⟩ := parseFraction_digits hfrac
  have hfields : dateFields (dateText y m d h mi sec frac) = some ⟨y, m, d, h, mi, sec, p⟩ :=
    dateFields_dateText (by omega) (by omega) (by omega) (by omega) (by omega) (by omega) hfrac hp
  have hcount : civilCount y m d = dayNumber y m d := civilCount_eq_dayNumber hdate
  have hfits : (⟨y, m, d, h, mi, sec, p⟩ : DateFields).Fits := by
    refine ⟨Nat.lt_of_le_of_lt (Nat.add_le_add_right hmonth 9) (by decide), Or.inr ?_⟩
    change civilCount y m d * 86400 + h * 3600 + mi * 60 + sec < 2 ^ 63
    omega
  obtain ⟨n', -, hnanos', hok⟩ := parseDate_eq hfields hfits (hcount.symm ▸ h0 : 0 ≤ civilCount y m d)
  have hsame : n' = n := Outcome.ok.inj (hnanos'.symm.trans hnanos)
  have htotal : (⟨y, m, d, h, mi, sec, p⟩ : DateFields).total.toNat =
      (dayNumber y m d).toNat * 86400 + h * 3600 + mi * 60 + sec := by
    change (civilCount y m d * 86400 + h * 3600 + mi * 60 + sec).toNat = _
    omega
  refine ⟨n, hn, hdigits, _, hok, hsame, ?_, ?_⟩
  · change (((⟨y, m, d, h, mi, sec, p⟩ : DateFields).total.toNat : ℕ) : ℤ) = _
    rw [htotal]
    omega
  · change formatStamp (DateFields.total _).toNat = _
    rw [htotal]
    exact formatStamp_eq hdate h0 (by omega) hh hmi hsec

theorem parseDate_dateText_leap_day :
    ∃ t, parseDate "2000-02-29+23:59:58.5".toList = .ok t ∧
      formatStamp t.secs = "2000-02-29T23-59-58".toList := by
  have htext : dateText 2000 2 29 23 59 58 (some "5".toList) = "2000-02-29+23:59:58.5".toList := by
    decide +kernel
  have hprinted : stampText 2000 2 29 23 59 58 = "2000-02-29T23-59-58".toList := by
    decide +kernel
  have hfrac : ∀ c ∈ (some "5".toList).getD [], c.isDigit = true := by
    intro c hc
    obtain rfl : c = '5' := List.mem_singleton.mp hc
    rfl
  obtain ⟨-, -, -, t, hok, -, -, hstamp⟩ := @parseDate_dateText 2000 2 29 23 59 58
    (some "5".toList) (by decide) (by decide) (by decide) (by decide) (by decide) (by decide) hfrac
  rw [htext] at hok
  rw [hprinted] at hstamp
  exact ⟨t, hok, hstamp⟩

end Steam2Fs
