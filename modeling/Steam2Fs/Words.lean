import Steam2Fs.Encode
import Steam2Fs.Lib.Layout

/-!
# Reading back little-endian words

For each reader, `_sound` says that an accepted read finds the value's bytes at
the position, and `_complete` that the value's bytes at a position are read
back. A read needs its end to be a `usize`, which the buffer's length does not
enter: bytes after the word may follow in any number.
-/

namespace Steam2Fs
open Layout

@[simp] theorem leBytes_length (width n : ℕ) : (leBytes width n).length = width := by
  induction width generalizing n with
  | zero => rfl
  | succ width ih => simp [leBytes, ih]

theorem leValue_leBytes (width n : ℕ) : leValue (leBytes width n) = n % 256 ^ width := by
  induction width generalizing n with
  | zero => simp [leBytes, leValue, Nat.mod_one]
  | succ width ih =>
    have hbyte : (UInt8.ofNat n).toNat = n % 256 := UInt8.toNat_ofNat
    simp only [leBytes, leValue, ih, hbyte]
    rw [pow_succ, Nat.mul_comm (256 ^ width), Nat.mod_mul]

theorem leBytes_leValue (bs : Bytes) : leBytes bs.length (leValue bs) = bs := by
  induction bs with
  | nil => rfl
  | cons b bs ih =>
    have hb := UInt8.toNat_lt b
    have hlow : UInt8.ofNat (b.toNat + 256 * leValue bs) = b := by
      apply UInt8.toNat_inj.mp
      rw [UInt8.toNat_ofNat']
      omega
    have hhigh : (b.toNat + 256 * leValue bs) / 256 = leValue bs := by omega
    simp only [List.length_cons, leBytes, leValue, hlow, hhigh, ih]

theorem ofNat32_toNat {n : ℕ} (h : n < 2 ^ 32) : (UInt32.ofNat n).toNat = n :=
  UInt32.toNat_ofNat_of_lt' h

section Reads
variable {t : Bytes} {off : ℕ}

theorem stands_leValue {width : ℕ} (h : off + width ≤ t.length) :
    Stands t off (leBytes width (leValue ((t.drop off).take width))) ∧
      leValue ((t.drop off).take width) < 256 ^ width := by
  have hwidth : ((t.drop off).take width).length = width := by
    rw [List.length_take, List.length_drop]
    omega
  have hbytes := leBytes_leValue ((t.drop off).take width)
  have hlt := leValue_lt ((t.drop off).take width)
  rw [hwidth] at hbytes hlt
  rw [hbytes]
  exact ⟨stands_slice t off width, hlt⟩

theorem leAt_sound {width v : ℕ} {what : String} (h : leAt width what t off = .ok v) :
    Stands t off (leBytes width v) ∧ v < 256 ^ width := by
  obtain ⟨hlen, rfl⟩ := leAt_ok h
  exact stands_leValue hlen

theorem leAt_complete {width v : ℕ} {what : String} (h : Stands t off (leBytes width v))
    (hv : v < 256 ^ width) (hpos : 0 < width) (hoff : off + width < 2 ^ 64) :
    leAt width what t off = .ok v := by
  have hend := h.end_le (by simpa using hpos)
  have htake := h.take_eq
  rw [leBytes_length] at hend htake
  unfold leAt
  rw [usizeAdd_ok hoff]
  have hsub : off + width - off = width := by omega
  simp only [Outcome.ok_bind, getRange, Nat.le_add_right, hend, and_self, if_true, hsub, htake,
    leValue_leBytes, Nat.mod_eq_of_lt hv]

theorem u16At_sound {v : UInt16} (h : u16At t off = .ok v) :
    Stands t off (leBytes 2 v.toNat) := by
  obtain ⟨n, hn, rfl⟩ := Outcome.map_eq_ok.mp h
  obtain ⟨hstands, hlt⟩ := leAt_sound hn
  have hv : (UInt16.ofNat n).toNat = n := UInt16.toNat_ofNat_of_lt' hlt
  rwa [hv]

theorem u16At_complete {v : UInt16} (h : Stands t off (leBytes 2 v.toNat))
    (hoff : off + 2 < 2 ^ 64) : u16At t off = .ok v := by
  have hread : leAt 2 "u16" t off = .ok v.toNat :=
    leAt_complete h v.toNat_lt (by norm_num) hoff
  rw [u16At, hread, Outcome.map_ok, UInt16.ofNat_toNat]

theorem u32At_sound {v : UInt32} (h : u32At t off = .ok v) : Stands t off (word v) := by
  obtain ⟨n, hn, rfl⟩ := Outcome.map_eq_ok.mp h
  obtain ⟨hstands, hlt⟩ := leAt_sound hn
  rwa [word, ofNat32_toNat hlt]

theorem u32At_complete {v : UInt32} (h : Stands t off (word v)) (hoff : off + 4 < 2 ^ 64) :
    u32At t off = .ok v := by
  have hread : leAt 4 "u32" t off = .ok v.toNat :=
    leAt_complete h v.toNat_lt (by norm_num) hoff
  rw [u32At, hread, Outcome.map_ok, UInt32.ofNat_toNat]

theorem u64At_sound {v : UInt64} (h : u64At t off = .ok v) :
    Stands t off (leBytes 8 v.toNat) := by
  obtain ⟨n, hn, rfl⟩ := Outcome.map_eq_ok.mp h
  obtain ⟨hstands, hlt⟩ := leAt_sound hn
  have hv : (UInt64.ofNat n).toNat = n := UInt64.toNat_ofNat_of_lt' hlt
  rwa [hv]

theorem u64At_complete {v : UInt64} (h : Stands t off (leBytes 8 v.toNat))
    (hoff : off + 8 < 2 ^ 64) : u64At t off = .ok v := by
  have hread : leAt 8 "u64" t off = .ok v.toNat :=
    leAt_complete h v.toNat_lt (by norm_num) hoff
  rw [u64At, hread, Outcome.map_ok, UInt64.ofNat_toNat]

@[simp] theorem word_length (v : UInt32) : (word v).length = 4 := leBytes_length 4 v.toNat

theorem word_ofNat {n : ℕ} (h : n < 2 ^ 32) : word (UInt32.ofNat n) = leBytes 4 n := by
  rw [word, ofNat32_toNat h]

theorem exists_word (h : off + 4 ≤ t.length) : ∃ v, Stands t off (word v) := by
  obtain ⟨hstands, hlt⟩ := stands_leValue h
  refine ⟨UInt32.ofNat (leValue ((t.drop off).take 4)), ?_⟩
  rwa [word, ofNat32_toNat hlt]

end Reads
end Steam2Fs
