import Mathlib.Tactic
import Mathlib.Data.List.DropRight

/-!
# Text as lists of characters

Unsigned numbers are printed in a radix, optionally padded on the left with
zeros, and read back by a parser that accepts one leading plus sign, rejects
an empty digit string and rejects values past a limit. Byte strings are
decoded with replacement characters: every maximal prefix of an ill-formed
sequence becomes one U+FFFD.
-/

namespace Text

abbrev Str := List Char

def digitVal (radix : ℕ) (c : Char) : Option ℕ :=
  let v :=
    if '0' ≤ c ∧ c ≤ '9' then some (c.toNat - '0'.toNat)
    else if 'a' ≤ c ∧ c ≤ 'z' then some (c.toNat - 'a'.toNat + 10)
    else if 'A' ≤ c ∧ c ≤ 'Z' then some (c.toNat - 'A'.toNat + 10)
    else none
  v.filter (· < radix)

def digitsFrom (radix : ℕ) : ℕ → Str → Option ℕ
  | acc, [] => some acc
  | acc, c :: cs => (digitVal radix c).bind fun d => digitsFrom radix (acc * radix + d) cs

/-- Unsigned `from_str_radix` for a type whose values are below `limit`. -/
def fromStrRadix (radix limit : ℕ) : Str → Option ℕ
  | [] => none
  | '+' :: [] => none
  | '+' :: cs => (digitsFrom radix 0 cs).filter (· < limit)
  | cs => (digitsFrom radix 0 cs).filter (· < limit)

def decimal (n : ℕ) : Str := Nat.toDigits 10 n

def hexLower (n : ℕ) : Str := Nat.toDigits 16 n

def padZero (width : ℕ) (s : Str) : Str := List.replicate (width - s.length) '0' ++ s

theorem digitVal_digitChar {radix k : ℕ} (hk : k < radix) (hr : radix ≤ 16) :
    digitVal radix k.digitChar = some k := by
  have h16 : k < 16 := by omega
  interval_cases k <;> simp [digitVal, Nat.digitChar, Option.filter, hk]

theorem digitsFrom_append (radix : ℕ) (s t : Str) (acc : ℕ) :
    digitsFrom radix acc (s ++ t) =
      (digitsFrom radix acc s).bind fun a => digitsFrom radix a t := by
  induction s generalizing acc with
  | nil => rfl
  | cons c cs ih =>
    simp only [List.cons_append, digitsFrom]
    cases digitVal radix c with
    | none => rfl
    | some d => exact ih _

theorem digitsFrom_toDigits {radix : ℕ} (h1 : 1 < radix) (h16 : radix ≤ 16) (n : ℕ) :
    digitsFrom radix 0 (Nat.toDigits radix n) = some n := by
  induction n using Nat.base_induction radix h1 with
  | single m hm =>
    rw [Nat.toDigits_of_lt_base hm]
    simp [digitsFrom, digitVal_digitChar hm h16]
  | digit m k hk hm ih =>
    rw [← Nat.toDigits_append_toDigits h1 hm hk, digitsFrom_append, ih,
      Nat.toDigits_of_lt_base hk]
    simp [digitsFrom, digitVal_digitChar hk h16, Nat.mul_comm]

theorem digitsFrom_padZero {radix : ℕ} (h1 : 1 < radix) (h16 : radix ≤ 16) (width : ℕ) (s : Str) :
    digitsFrom radix 0 (padZero width s) = digitsFrom radix 0 s := by
  rw [padZero, digitsFrom_append]
  suffices h : ∀ n, digitsFrom radix 0 (List.replicate n '0') = some 0 by rw [h]; rfl
  intro n
  induction n with
  | zero => rfl
  | succ n ih =>
    have hz : digitVal radix '0' = some 0 :=
      digitVal_digitChar (k := 0) (by omega) h16
    simp [List.replicate_succ, digitsFrom, hz, ih]

theorem digit_of_mem_toDigits {radix n : ℕ} (h1 : 1 < radix) {c : Char}
    (hc : c ∈ Nat.toDigits radix n) : ∃ k < radix, c = k.digitChar := by
  induction n using Nat.base_induction radix h1 with
  | single m hm =>
    rw [Nat.toDigits_of_lt_base hm, List.mem_singleton] at hc
    exact ⟨m, hm, hc⟩
  | digit m k hk hm ih =>
    rw [← Nat.toDigits_append_toDigits h1 hm hk, Nat.toDigits_of_lt_base hk,
      List.mem_append, List.mem_singleton] at hc
    rcases hc with hc | hc
    · exact ih hc
    · exact ⟨k, hk, hc⟩

theorem fromStrRadix_of_digits {radix limit n : ℕ} {s : Str} (hne : s ≠ []) (hplus : '+' ∉ s)
    (hn : digitsFrom radix 0 s = some n) (hlt : n < limit) :
    fromStrRadix radix limit s = some n := by
  have hhead : ∀ cs, s ≠ '+' :: cs := by
    intro cs h
    exact hplus (h ▸ List.mem_cons_self)
  rw [fromStrRadix.eq_4 _ _ _ hne (hhead []) hhead, hn]
  simp [Option.filter, hlt]

theorem plus_notMem_toDigits {radix : ℕ} (h1 : 1 < radix) (h16 : radix ≤ 16) (n : ℕ) :
    '+' ∉ Nat.toDigits radix n := by
  intro hc
  obtain ⟨k, hk, he⟩ := digit_of_mem_toDigits h1 hc
  have hk16 : k < 16 := by omega
  interval_cases k <;> simp [Nat.digitChar] at he

theorem fromStrRadix_toDigits {radix limit n : ℕ} (h1 : 1 < radix) (h16 : radix ≤ 16)
    (hn : n < limit) : fromStrRadix radix limit (Nat.toDigits radix n) = some n :=
  fromStrRadix_of_digits Nat.toDigits_ne_nil (plus_notMem_toDigits h1 h16 n)
    (digitsFrom_toDigits h1 h16 n) hn

theorem toDigits_injective {radix : ℕ} (h1 : 1 < radix) (h16 : radix ≤ 16) :
    Function.Injective (Nat.toDigits radix) := by
  intro m n h
  have hm := digitsFrom_toDigits h1 h16 m
  rw [h, digitsFrom_toDigits h1 h16 n] at hm
  exact (Option.some.inj hm).symm

theorem padZero_toDigits_injective {radix : ℕ} (h1 : 1 < radix) (h16 : radix ≤ 16)
    (width : ℕ) : Function.Injective fun n => padZero width (Nat.toDigits radix n) := by
  intro m n h
  have hm := digitsFrom_padZero h1 h16 width (Nat.toDigits radix m)
  have hn := digitsFrom_padZero h1 h16 width (Nat.toDigits radix n)
  have he : padZero width (Nat.toDigits radix m) = padZero width (Nat.toDigits radix n) := h
  rw [he, hn, digitsFrom_toDigits h1 h16, digitsFrom_toDigits h1 h16] at hm
  exact (Option.some.inj hm).symm

theorem digitsFrom_lt {radix acc n : ℕ} {s : Str}
    (h : digitsFrom radix acc s = some n) : n < (acc + 1) * radix ^ s.length := by
  induction s generalizing acc with
  | nil =>
    cases h
    simp
  | cons c cs ih =>
    obtain ⟨d, hd, h⟩ := Option.bind_eq_some_iff.mp h
    have hlt : d < radix := by
      unfold digitVal at hd
      simpa using (Option.filter_eq_some_iff.mp hd).2
    calc n < (acc * radix + d + 1) * radix ^ cs.length := ih h
      _ ≤ ((acc + 1) * radix) * radix ^ cs.length := by
        apply Nat.mul_le_mul_right
        rw [Nat.add_mul, Nat.one_mul]
        omega
      _ = (acc + 1) * radix ^ (c :: cs).length := by
        rw [List.length_cons, Nat.pow_succ']
        ring

theorem digitVal_ascii {radix d : ℕ} {c : Char} (h : digitVal radix c = some d) :
    c.toNat < 0x80 := by
  by_contra hge
  have h0 : ¬ ('0' ≤ c ∧ c ≤ '9') := fun h => hge (Nat.lt_of_le_of_lt h.2 (by decide))
  have ha : ¬ ('a' ≤ c ∧ c ≤ 'z') := fun h => hge (Nat.lt_of_le_of_lt h.2 (by decide))
  have hA : ¬ ('A' ≤ c ∧ c ≤ 'Z') := fun h => hge (Nat.lt_of_le_of_lt h.2 (by decide))
  unfold digitVal at h
  rw [if_neg h0, if_neg ha, if_neg hA] at h
  cases h

theorem digitVal_of_mem {radix acc n : ℕ} {s : Str} (h : digitsFrom radix acc s = some n)
    {c : Char} (hc : c ∈ s) : ∃ d, digitVal radix c = some d := by
  induction s generalizing acc with
  | nil => cases hc
  | cons a as ih =>
    obtain ⟨d, hd, h⟩ := Option.bind_eq_some_iff.mp h
    rcases List.mem_cons.mp hc with rfl | hc
    · exact ⟨d, hd⟩
    · exact ih h hc

theorem digitsFrom_ascii {radix acc n : ℕ} {s : Str} (h : digitsFrom radix acc s = some n) :
    ∀ c ∈ s, c.toNat < 0x80 := by
  intro c hc
  obtain ⟨d, hd⟩ := digitVal_of_mem h hc
  exact digitVal_ascii hd

theorem fromStrRadix_eq_some {radix limit n : ℕ} {s : Str}
    (h : fromStrRadix radix limit s = some n) :
    n < limit ∧ ∃ t, (s = t ∨ s = '+' :: t) ∧ digitsFrom radix 0 t = some n := by
  unfold fromStrRadix at h
  split at h
  · cases h
  · cases h
  next cs hcs =>
    obtain ⟨hd, hlt⟩ := Option.filter_eq_some_iff.mp h
    exact ⟨by simpa using hlt, cs, Or.inr rfl, hd⟩
  next =>
    obtain ⟨hd, hlt⟩ := Option.filter_eq_some_iff.mp h
    exact ⟨by simpa using hlt, s, Or.inl rfl, hd⟩

theorem notMem_of_digitsFrom {radix acc n : ℕ} {s : Str} {a : Char}
    (ha : digitVal radix a = none) (h : digitsFrom radix acc s = some n) : a ∉ s := by
  intro hmem
  obtain ⟨d, hd⟩ := digitVal_of_mem h hmem
  rw [ha] at hd
  cases hd

theorem notMem_of_fromStrRadix {radix limit n : ℕ} {s : Str} {a : Char}
    (ha : digitVal radix a = none) (hplus : a ≠ '+')
    (h : fromStrRadix radix limit s = some n) : a ∉ s := by
  obtain ⟨-, t, rfl | rfl, ht⟩ := fromStrRadix_eq_some h
  · exact notMem_of_digitsFrom ha ht
  · intro hmem
    rcases List.mem_cons.mp hmem with heq | hmem
    · exact hplus heq
    · exact notMem_of_digitsFrom ha ht hmem

theorem mem_padZero {width : ℕ} {s : Str} {c : Char} (hc : c ∈ padZero width s) :
    c = '0' ∨ c ∈ s := by
  unfold padZero at hc
  rcases List.mem_append.mp hc with hc | hc
  · exact Or.inl (List.mem_replicate.mp hc).2
  · exact Or.inr hc

theorem fromStrRadix_padZero {radix limit n : ℕ} (h1 : 1 < radix) (h16 : radix ≤ 16) (width : ℕ)
    (hlt : n < limit) :
    fromStrRadix radix limit (padZero width (Nat.toDigits radix n)) = some n := by
  refine fromStrRadix_of_digits ?_ ?_ ?_ hlt
  · intro h
    exact Nat.toDigits_ne_nil (List.append_eq_nil_iff.mp h).2
  · intro hc
    rcases mem_padZero hc with hc | hc
    · cases hc
    · exact plus_notMem_toDigits h1 h16 n hc
  · rw [digitsFrom_padZero h1 h16]
    exact digitsFrom_toDigits h1 h16 n

/-! ### Splitting -/

def splitOnce (sep : Char) : Str → Option (Str × Str)
  | [] => none
  | c :: cs => if c = sep then some ([], cs) else (splitOnce sep cs).map fun p => (c :: p.1, p.2)

def stripSuffix (suffix s : Str) : Option Str :=
  if suffix.isSuffixOf s then some (s.take (s.length - suffix.length)) else none

/-- The `White_Space` characters of Unicode. -/
def isWhitespace (c : Char) : Bool :=
  let n := c.toNat
  (9 ≤ n ∧ n ≤ 13) ∨ n = 0x20 ∨ n = 0x85 ∨ n = 0xa0 ∨ n = 0x1680 ∨ (0x2000 ≤ n ∧ n ≤ 0x200a) ∨
    n = 0x2028 ∨ n = 0x2029 ∨ n = 0x202f ∨ n = 0x205f ∨ n = 0x3000

def trim (s : Str) : Str := (s.dropWhile isWhitespace).rdropWhile isWhitespace

/-- A line ends at a line feed, with a carriage return before it dropped; what
follows the last line feed is a line unless it is empty. -/
def lines (s : Str) : List Str :=
  let pieces := s.splitOn '\n'
  pieces.dropLast.map (fun l => (stripSuffix ['\r'] l).getD l) ++
    (pieces.getLast?.toList.filter fun l => !l.isEmpty)

theorem splitOnce_append {sep : Char} {s : Str} (h : sep ∉ s) (t : Str) :
    splitOnce sep (s ++ sep :: t) = some (s, t) := by
  induction s with
  | nil => simp [splitOnce]
  | cons c cs ih =>
    rw [List.mem_cons, not_or] at h
    simp [splitOnce, Ne.symm h.1, ih h.2]

theorem splitOnce_eq_none {sep : Char} {s : Str} (h : sep ∉ s) : splitOnce sep s = none := by
  induction s with
  | nil => rfl
  | cons c cs ih =>
    rw [List.mem_cons, not_or] at h
    simp [splitOnce, Ne.symm h.1, ih h.2]

theorem splitOnce_eq_some_iff {sep : Char} {s a b : Str} :
    splitOnce sep s = some (a, b) ↔ s = a ++ sep :: b ∧ sep ∉ a := by
  constructor
  · intro h
    induction s generalizing a with
    | nil => cases h
    | cons c cs ih =>
      rw [splitOnce] at h
      split_ifs at h with hc
      · cases h
        rw [hc]
        exact ⟨rfl, List.not_mem_nil⟩
      · obtain ⟨⟨a', b'⟩, hcs, heq⟩ := Option.map_eq_some_iff.mp h
        cases heq
        obtain ⟨rfl, hmem⟩ := ih hcs
        refine ⟨rfl, fun hsep => ?_⟩
        rcases List.mem_cons.mp hsep with heq | hsep
        · exact hc heq.symm
        · exact hmem hsep
  · rintro ⟨rfl, hmem⟩
    exact splitOnce_append hmem b

theorem stripSuffix_eq_some_iff {suffix s t : Str} :
    stripSuffix suffix s = some t ↔ s = t ++ suffix := by
  unfold stripSuffix
  constructor
  · intro h
    split_ifs at h with hsuffix
    cases h
    obtain ⟨u, rfl⟩ := List.isSuffixOf_iff_suffix.mp hsuffix
    rw [List.length_append, Nat.add_sub_cancel, List.take_left]
  · rintro rfl
    rw [if_pos (List.isSuffixOf_iff_suffix.mpr (List.suffix_append t suffix)),
      List.length_append, Nat.add_sub_cancel, List.take_left]

theorem not_mem_of_mem_splitOn {a : Char} {s p : Str} (h : p ∈ s.splitOn a) : a ∉ p := by
  induction s generalizing p with
  | nil =>
    rw [List.splitOn_nil, List.mem_singleton] at h
    subst h
    exact List.not_mem_nil
  | cons c cs ih =>
    obtain ⟨q, qs, hq⟩ := List.exists_cons_of_ne_nil (List.splitOn_ne_nil a cs)
    rw [List.splitOn_cons_eq_if_modifyHead, hq] at h
    rw [hq] at ih
    split at h
    next hc =>
      rcases List.mem_cons.mp h with rfl | h
      · exact List.not_mem_nil
      · exact ih h
    next hc =>
      rw [List.modifyHead_cons] at h
      rcases List.mem_cons.mp h with rfl | h
      · have hne : a ≠ c := fun he => hc (by simp [he])
        exact List.not_mem_cons_of_ne_of_not_mem hne (ih List.mem_cons_self)
      · exact ih (List.mem_cons_of_mem q h)

theorem trim_of_no_whitespace {s : Str} (h : ∀ c ∈ s, isWhitespace c = false) : trim s = s := by
  have hdrop : s.dropWhile isWhitespace = s := by
    cases s with
    | nil => rfl
    | cons c cs => rw [List.dropWhile_cons_of_neg (by rw [h c List.mem_cons_self]; decide)]
  unfold trim
  rw [hdrop, List.rdropWhile_eq_self_iff]
  intro hne
  rw [h _ (List.getLast_mem hne)]
  decide

theorem lines_append {a : Str} (ha : '\n' ∉ a) (t : Str) :
    lines (a ++ '\n' :: t) = (stripSuffix ['\r'] a).getD a :: lines t := by
  unfold lines
  rw [List.splitOn_append_cons_self_of_not_mem ha]
  obtain ⟨p, ps, hp⟩ := List.exists_cons_of_ne_nil (List.splitOn_ne_nil '\n' t)
  rw [hp]
  rfl

/-! ### UTF-8 -/

def utf8 (s : Str) : List UInt8 := s.flatMap String.utf8EncodeChar

def replacement : Char := Char.ofNat 0xfffd

def isContinuation (b : UInt8) : Bool := 0x80 ≤ b ∧ b ≤ 0xbf

/-- Whether `b` may follow a lead byte of three or four. -/
def isSecond (lead b : UInt8) : Bool :=
  if lead = 0xe0 then 0xa0 ≤ b ∧ b ≤ 0xbf
  else if lead = 0xed then 0x80 ≤ b ∧ b ≤ 0x9f
  else if lead = 0xf0 then 0x90 ≤ b ∧ b ≤ 0xbf
  else if lead = 0xf4 then 0x80 ≤ b ∧ b ≤ 0x8f
  else isContinuation b

/-- The character a non-empty byte string starts with, and how many bytes it
takes beyond the first. -/
def decodeChar (b : UInt8) (rest : List UInt8) : Char × ℕ :=
  let bits (c : UInt8) : ℕ := c.toNat % 64
  if b < 0x80 then (Char.ofNat b.toNat, 0)
  else if 0xc2 ≤ b ∧ b ≤ 0xdf then
    match rest with
    | c :: _ => if isContinuation c then (Char.ofNat (b.toNat % 32 * 64 + bits c), 1)
      else (replacement, 0)
    | [] => (replacement, 0)
  else if 0xe0 ≤ b ∧ b ≤ 0xef then
    match rest with
    | c :: rest => if !isSecond b c then (replacement, 0) else
      match rest with
      | d :: _ => if isContinuation d then
          (Char.ofNat ((b.toNat % 16 * 64 + bits c) * 64 + bits d), 2)
        else (replacement, 1)
      | [] => (replacement, 1)
    | [] => (replacement, 0)
  else if 0xf0 ≤ b ∧ b ≤ 0xf4 then
    match rest with
    | c :: rest => if !isSecond b c then (replacement, 0) else
      match rest with
      | d :: rest => if !isContinuation d then (replacement, 1) else
        match rest with
        | e :: _ => if isContinuation e then
            (Char.ofNat (((b.toNat % 8 * 64 + bits c) * 64 + bits d) * 64 + bits e), 3)
          else (replacement, 2)
        | [] => (replacement, 2)
      | [] => (replacement, 1)
    | [] => (replacement, 0)
  else (replacement, 0)

/-- Decoding with the first `skip` bytes already part of a character. -/
def lossyFrom : ℕ → List UInt8 → Str
  | _, [] => []
  | skip + 1, _ :: bs => lossyFrom skip bs
  | 0, b :: bs => (decodeChar b bs).1 :: lossyFrom (decodeChar b bs).2 bs

def fromUtf8Lossy (bs : List UInt8) : Str := lossyFrom 0 bs

theorem utf8EncodeChar_ascii {c : Char} (h : c.toNat < 0x80) :
    String.utf8EncodeChar c = [UInt8.ofNat c.toNat] := by
  have hval : c.val.toNat ≤ 0x7f := Nat.le_of_lt_succ h
  simp only [String.utf8EncodeChar, hval, ↓reduceIte]
  rfl

theorem utf8_length_ascii {s : Str} (h : ∀ c ∈ s, c.toNat < 0x80) :
    (utf8 s).length = s.length := by
  induction s with
  | nil => rfl
  | cons c cs ih =>
    have ih := ih fun d hd => h d (List.mem_cons_of_mem c hd)
    unfold utf8 at ih ⊢
    rw [List.flatMap_cons, List.length_append, utf8EncodeChar_ascii (h c List.mem_cons_self),
      List.length_singleton, ih, List.length_cons, Nat.add_comm]

/-- `String::from_utf8`, which accepts nothing that is not UTF-8. -/
def fromUtf8 (bs : List UInt8) : Option Str := bs.toByteArray.utf8Decode?.map Array.toList

theorem fromUtf8_utf8 (s : Str) : fromUtf8 (utf8 s) = some s := by
  have hdecode : s.utf8Encode.utf8Decode? = some s.toArray := List.utf8Decode?_utf8Encode
  change (s.utf8Encode.utf8Decode?).map Array.toList = some s
  rw [hdecode]
  rfl

theorem fromUtf8Lossy_utf8 {s : Str} (h : ∀ c ∈ s, c.toNat < 0x80) :
    fromUtf8Lossy (utf8 s) = s := by
  induction s with
  | nil => rfl
  | cons c cs ih =>
    have hc : c.toNat < 0x80 := h c List.mem_cons_self
    have hbyte : (UInt8.ofNat c.toNat).toNat = c.toNat := by
      rw [UInt8.toNat_ofNat']
      omega
    have hsmall : UInt8.ofNat c.toNat < 0x80 := by
      rw [UInt8.lt_iff_toNat_lt, hbyte]
      exact hc
    have hchar : Char.ofNat (UInt8.ofNat c.toNat).toNat = c := by
      rw [hbyte, Char.ofNat_toNat]
    have ih' := ih fun d hd => h d (List.mem_cons_of_mem c hd)
    simp only [utf8, List.flatMap_cons, utf8EncodeChar_ascii hc, List.singleton_append]
    simp only [fromUtf8Lossy, lossyFrom, decodeChar, hsmall, ↓reduceIte, hchar]
    exact congrArg (c :: ·) ih'

theorem ofNat_large {n : ℕ} (hlow : 0x80 ≤ n) (hvalid : n.isValidChar) :
    0x80 ≤ (Char.ofNat n).toNat := by
  unfold Char.ofNat
  rw [dif_pos hvalid]
  exact hlow

theorem ofNat_small {n : ℕ} (h : n < 0x80) : (Char.ofNat n).toNat = n := by
  unfold Char.ofNat
  rw [dif_pos (Or.inl (by omega))]
  rfl

theorem isContinuation_bounds {c : UInt8} (h : isContinuation c = true) :
    0x80 ≤ c.toNat ∧ c.toNat ≤ 0xbf := by
  simpa [isContinuation, UInt8.le_iff_toNat_le] using h

/-- The ranges keep over-long forms, surrogates and values past the last
character out. -/
theorem isSecond_bounds {lead c : UInt8} (h : isSecond lead c = true) :
    0x80 ≤ c.toNat ∧ c.toNat ≤ 0xbf ∧ (lead.toNat = 0xe0 → 0xa0 ≤ c.toNat) ∧
      (lead.toNat = 0xed → c.toNat ≤ 0x9f) ∧ (lead.toNat = 0xf0 → 0x90 ≤ c.toNat) ∧
      (lead.toNat = 0xf4 → c.toNat ≤ 0x8f) := by
  unfold isSecond at h
  simp only [← UInt8.toNat_inj, isContinuation, UInt8.le_iff_toNat_le, UInt8.reduceToNat] at h
  split_ifs at h
  all_goals
    have h := of_decide_eq_true h
    omega

theorem decodeChar_large {b : UInt8} (hb : 0x80 ≤ b.toNat) (rest : List UInt8) :
    0x80 ≤ (decodeChar b rest).1.toNat := by
  have hreplacement : 0x80 ≤ replacement.toNat := by decide
  unfold decodeChar
  simp only [UInt8.lt_iff_toNat_lt, UInt8.le_iff_toNat_le, UInt8.reduceToNat]
  split_ifs with h1 h2 h3 h4
  · omega
  · split
    · split_ifs with hc
      · have hc := isContinuation_bounds hc
        apply ofNat_large
        · omega
        · left
          omega
      · exact hreplacement
    · exact hreplacement
  · split
    · split_ifs with hc
      · exact hreplacement
      · split
        · split_ifs with hd
          · have hc := isSecond_bounds (by simpa using hc)
            have hd := isContinuation_bounds hd
            apply ofNat_large
            · omega
            · unfold Nat.isValidChar
              omega
          · exact hreplacement
        · exact hreplacement
    · exact hreplacement
  · split
    · split_ifs with hc
      · exact hreplacement
      · split
        · split_ifs with hd
          · exact hreplacement
          · split
            · split_ifs with he
              · have hc := isSecond_bounds (by simpa using hc)
                have hd := isContinuation_bounds (by simpa using hd)
                have he := isContinuation_bounds he
                apply ofNat_large
                · omega
                · right
                  omega
              · exact hreplacement
            · exact hreplacement
        · exact hreplacement
    · exact hreplacement
  · exact hreplacement

theorem mem_of_mem_lossy {c : Char} (hc : c.toNat < 0x80) {skip : ℕ} {bs : List UInt8}
    (h : c ∈ lossyFrom skip bs) : UInt8.ofNat c.toNat ∈ bs := by
  induction bs generalizing skip with
  | nil =>
    cases skip with
    | zero => cases h
    | succ skip => cases h
  | cons b bs ih =>
    cases skip with
    | succ skip => exact List.mem_cons_of_mem b (ih h)
    | zero =>
      rcases List.mem_cons.mp h with rfl | h
      · have hb : b.toNat < 0x80 := by
          by_contra hge
          exact absurd hc (Nat.not_lt.mpr (decodeChar_large (Nat.le_of_not_lt hge) bs))
        have hchar : (decodeChar b bs).1 = Char.ofNat b.toNat := by
          unfold decodeChar
          rw [if_pos (UInt8.lt_iff_toNat_lt.mpr hb)]
        rw [hchar, ofNat_small hb, UInt8.ofNat_toNat]
        exact List.mem_cons_self
      · exact List.mem_cons_of_mem b (ih h)

theorem utf8_of_fromUtf8Lossy {bs : List UInt8} {s : Str} (hs : fromUtf8Lossy bs = s)
    (h : ∀ c ∈ s, c.toNat < 0x80) : utf8 s = bs := by
  induction bs generalizing s with
  | nil =>
    subst hs
    rfl
  | cons b bs ih =>
    have hfirst : (decodeChar b bs).1 ∈ s := by
      rw [← hs]
      exact List.mem_cons_self
    have hb : b.toNat < 0x80 := by
      by_contra hge
      have hlarge := decodeChar_large (Nat.le_of_not_lt hge) bs
      exact absurd (h _ hfirst) (Nat.not_lt.mpr hlarge)
    have hchar : decodeChar b bs = (Char.ofNat b.toNat, 0) := by
      unfold decodeChar
      rw [if_pos (UInt8.lt_iff_toNat_lt.mpr hb)]
    have hlossy : s = Char.ofNat b.toNat :: fromUtf8Lossy bs := by
      rw [← hs]
      simp only [fromUtf8Lossy, lossyFrom, hchar]
    subst hlossy
    have ih := ih rfl fun c hc => h c (List.mem_cons_of_mem _ hc)
    unfold utf8 at ih ⊢
    rw [List.flatMap_cons, ih, utf8EncodeChar_ascii (h _ List.mem_cons_self), ofNat_small hb,
      UInt8.ofNat_toNat]
    rfl

theorem decodeChar_append {c : UInt8} (hc : c < 0x80) (b : UInt8) (rest tail : List UInt8) :
    decodeChar b (rest ++ c :: tail) = decodeChar b rest := by
  have hcont : isContinuation c = false := by
    rw [UInt8.lt_iff_toNat_lt] at hc
    by_contra h
    have hbounds := isContinuation_bounds (Bool.not_eq_false _ ▸ h)
    simp at hc
    omega
  have hsecond (lead : UInt8) : isSecond lead c = false := by
    rw [UInt8.lt_iff_toNat_lt] at hc
    by_contra h
    have hbounds := isSecond_bounds (Bool.not_eq_false _ ▸ h)
    simp at hc
    omega
  unfold decodeChar
  rcases rest with _ | ⟨x, _ | ⟨y, _ | ⟨z, rest⟩⟩⟩
  · simp [hcont, hsecond]
  · simp [hcont]
  · simp [hcont]
  · simp

theorem decodeChar_snd_le (b : UInt8) (rest : List UInt8) :
    (decodeChar b rest).2 ≤ rest.length := by
  unfold decodeChar
  rcases rest with _ | ⟨x, _ | ⟨y, _ | ⟨z, rest⟩⟩⟩ <;> simp only [List.length_cons] <;>
    split_ifs <;> simp

theorem lossyFrom_append {c : UInt8} (hc : c < 0x80) {skip : ℕ} {bs : List UInt8}
    (hskip : skip ≤ bs.length) (tail : List UInt8) :
    lossyFrom skip (bs ++ c :: tail) =
      lossyFrom skip bs ++ Char.ofNat c.toNat :: fromUtf8Lossy tail := by
  induction bs generalizing skip with
  | nil =>
    obtain rfl : skip = 0 := Nat.le_zero.mp hskip
    have hchar : decodeChar c tail = (Char.ofNat c.toNat, 0) := by
      unfold decodeChar
      rw [if_pos hc]
    simp only [List.nil_append, lossyFrom, hchar, fromUtf8Lossy]
  | cons b bs ih =>
    cases skip with
    | succ skip => exact ih (Nat.le_of_succ_le_succ hskip)
    | zero =>
      rw [List.cons_append, lossyFrom, lossyFrom, decodeChar_append hc,
        ih (decodeChar_snd_le b bs), List.cons_append]

theorem fromUtf8Lossy_append {c : UInt8} (hc : c < 0x80) (bs tail : List UInt8) :
    fromUtf8Lossy (bs ++ c :: tail) =
      fromUtf8Lossy bs ++ Char.ofNat c.toNat :: fromUtf8Lossy tail :=
  lossyFrom_append hc (Nat.zero_le _) tail

end Text
