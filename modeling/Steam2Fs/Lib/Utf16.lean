import Steam2Fs.Lib.Text

/-!
# UTF-16

Characters past U+FFFF take two units, a high and a low surrogate. Decoding
replaces every surrogate that is not part of such a pair, so a text that was
encoded is read back, and a unit that is no surrogate splits what is decoded
before it from what is decoded after it.
-/

namespace Text

def utf16EncodeChar (c : Char) : List UInt16 :=
  if c.toNat < 0x10000 then [UInt16.ofNat c.toNat]
  else [UInt16.ofNat (0xd800 + (c.toNat - 0x10000) / 0x400),
    UInt16.ofNat (0xdc00 + (c.toNat - 0x10000) % 0x400)]

def utf16 (s : Str) : List UInt16 := s.flatMap utf16EncodeChar

def isSurrogate (u : UInt16) : Bool := 0xd800 ≤ u ∧ u ≤ 0xdfff

/-- Whether the two units are a high and a low surrogate. -/
def isPair (u v : UInt16) : Bool := 0xd800 ≤ u ∧ u < 0xdc00 ∧ 0xdc00 ≤ v ∧ v ≤ 0xdfff

def pairChar (u v : UInt16) : Char :=
  Char.ofNat (u.toNat % 0x400 * 0x400 + v.toNat % 0x400 + 0x10000)

def unitChar (u : UInt16) : Char := if isSurrogate u then replacement else Char.ofNat u.toNat

/-- `String::from_utf16_lossy`. -/
def fromUtf16Lossy : List UInt16 → Str
  | [] => []
  | [u] => [unitChar u]
  | u :: v :: us =>
    if isPair u v then pairChar u v :: fromUtf16Lossy us
    else unitChar u :: fromUtf16Lossy (v :: us)

theorem isPair_surrogates {u v : UInt16} (h : isPair u v = true) :
    isSurrogate u = true ∧ isSurrogate v = true := by
  simp only [isPair, isSurrogate, UInt16.lt_iff_toNat_lt, UInt16.le_iff_toNat_le,
    UInt16.reduceToNat, decide_eq_true_eq] at h ⊢
  omega

theorem fromUtf16Lossy_cons {u : UInt16} (hu : isSurrogate u = false) (us : List UInt16) :
    fromUtf16Lossy (u :: us) = Char.ofNat u.toNat :: fromUtf16Lossy us := by
  cases us with
  | nil => simp [fromUtf16Lossy, unitChar, hu]
  | cons v us =>
    have hpair : isPair u v = false := by
      by_contra h
      rw [(isPair_surrogates (by simpa using h)).1] at hu
      cases hu
    simp [fromUtf16Lossy, hpair, unitChar, hu]

theorem fromUtf16Lossy_append {u : UInt16} (hu : isSurrogate u = false) (us vs : List UInt16) :
    fromUtf16Lossy (us ++ u :: vs) =
      fromUtf16Lossy us ++ Char.ofNat u.toNat :: fromUtf16Lossy vs := by
  induction us using fromUtf16Lossy.induct with
  | case1 => exact fromUtf16Lossy_cons hu vs
  | case2 v =>
    have hpair : isPair v u = false := by
      by_contra h
      rw [(isPair_surrogates (by simpa using h)).2] at hu
      cases hu
    simp [fromUtf16Lossy, hpair, fromUtf16Lossy_cons hu]
  | case3 v w us hpair ih => simp [fromUtf16Lossy, hpair, ih]
  | case4 v w us hpair ih =>
    simp only [List.cons_append] at ih
    simp [fromUtf16Lossy, hpair, ih]

theorem fromUtf16Lossy_encodeChar (c : Char) (us : List UInt16) :
    fromUtf16Lossy (utf16EncodeChar c ++ us) = c :: fromUtf16Lossy us := by
  have hvalid : c.toNat < 0xd800 ∨ (0xdfff < c.toNat ∧ c.toNat < 0x110000) := c.valid
  unfold utf16EncodeChar
  split_ifs with hsmall
  · have hunit : (UInt16.ofNat c.toNat).toNat = c.toNat := by
      rw [UInt16.toNat_ofNat']
      omega
    have hu : isSurrogate (UInt16.ofNat c.toNat) = false := by
      simp only [isSurrogate, UInt16.le_iff_toNat_le, UInt16.reduceToNat, hunit]
      simp
      omega
    rw [List.singleton_append, fromUtf16Lossy_cons hu, hunit, Char.ofNat_toNat]
  · have hhigh : (UInt16.ofNat (0xd800 + (c.toNat - 0x10000) / 0x400)).toNat =
        0xd800 + (c.toNat - 0x10000) / 0x400 := by
      rw [UInt16.toNat_ofNat']
      omega
    have hlow : (UInt16.ofNat (0xdc00 + (c.toNat - 0x10000) % 0x400)).toNat =
        0xdc00 + (c.toNat - 0x10000) % 0x400 := by
      rw [UInt16.toNat_ofNat']
      omega
    generalize UInt16.ofNat (0xd800 + (c.toNat - 0x10000) / 0x400) = u at hhigh
    generalize UInt16.ofNat (0xdc00 + (c.toNat - 0x10000) % 0x400) = v at hlow
    have hpair : isPair u v = true := by
      simp only [isPair, UInt16.lt_iff_toNat_lt, UInt16.le_iff_toNat_le, UInt16.reduceToNat,
        decide_eq_true_eq, hhigh, hlow]
      omega
    have hchar : pairChar u v = c := by
      have hvalue : u.toNat % 0x400 * 0x400 + v.toNat % 0x400 + 0x10000 = c.toNat := by omega
      rw [pairChar, hvalue, Char.ofNat_toNat]
    rw [List.cons_append, List.singleton_append, fromUtf16Lossy, if_pos hpair, hchar]

theorem fromUtf16Lossy_utf16 (s : Str) : fromUtf16Lossy (utf16 s) = s := by
  induction s with
  | nil => rfl
  | cons c cs ih =>
    unfold utf16 at ih ⊢
    rw [List.flatMap_cons, fromUtf16Lossy_encodeChar, ih]

end Text
