import Steam2Fs.StoreBlocks

/-!
# `read` is an exact slice

The outcomes of the block calls are given as a function of the block index,
with successful blocks as long as their range of the file. Position `p` of the
file is byte `p % BLOCK_SIZE` of block `p / BLOCK_SIZE`; `Reads` says that a
buffer holds the positions from `pos` to `stop`, and the loop of `read` is
shown to produce such a buffer exactly when every block it covers is there.
-/

namespace Steam2Fs
open Outcome

def blockBytes (f : ℕ → Outcome ReadError Bytes) (i : ℕ) : Bytes :=
  match f i with
  | .ok b => b
  | _ => []

def concatBlocks (f : ℕ → Outcome ReadError Bytes) (first n : ℕ) : Bytes :=
  (List.range' first n).flatMap (blockBytes f)

def byteAt (f : ℕ → Outcome ReadError Bytes) (p : ℕ) : Option UInt8 :=
  (blockBytes f (p / BLOCK_SIZE))[p % BLOCK_SIZE]?

structure Reads (f : ℕ → Outcome ReadError Bytes) (pos stop : ℕ) (v : Bytes) : Prop where
  length : v.length = stop - pos
  bytes : ∀ k < stop - pos, v[k]? = byteAt f (pos + k)

def ExactBlocks (loc : FileLoc) (f : ℕ → Outcome ReadError Bytes) : Prop :=
  ∀ i b, f i = .ok b → b.length = (loc.record.blockRange i).2 - (loc.record.blockRange i).1

section Slices
variable {f : ℕ → Outcome ReadError Bytes} {pos mid stop : ℕ}

theorem Reads.unique {v w : Bytes} (hv : Reads f pos stop v) (hw : Reads f pos stop w) : v = w := by
  apply List.ext_getElem?
  intro k
  by_cases hk : k < stop - pos
  · rw [hv.bytes k hk, hw.bytes k hk]
  · rw [List.getElem?_eq_none (by rw [hv.length]; omega),
      List.getElem?_eq_none (by rw [hw.length]; omega)]

theorem Reads.nil : Reads f pos pos [] := ⟨by simp, by simp⟩

theorem Reads.append {v w : Bytes} (hv : Reads f pos mid v) (hw : Reads f mid stop w)
    (h₁ : pos ≤ mid) (h₂ : mid ≤ stop) : Reads f pos stop (v ++ w) := by
  refine ⟨by rw [List.length_append, hv.length, hw.length]; omega, fun k hk => ?_⟩
  by_cases hlt : k < mid - pos
  · rw [List.getElem?_append_left (by rw [hv.length]; exact hlt), hv.bytes k hlt]
  · have hge : v.length ≤ k := by rw [hv.length]; omega
    rw [List.getElem?_append_right hge, hv.length, hw.bytes _ (by omega)]
    congr 1
    omega

theorem Reads.split {u : Bytes} (hu : Reads f pos stop u) (h₁ : pos ≤ mid) (h₂ : mid ≤ stop) :
    Reads f pos mid (u.take (mid - pos)) ∧ Reads f mid stop (u.drop (mid - pos)) := by
  have hlen := hu.length
  refine ⟨⟨?_, fun k hk => ?_⟩, ⟨?_, fun k hk => ?_⟩⟩
  · rw [List.length_take]
    omega
  · rw [List.getElem?_take_of_lt hk, hu.bytes k (by omega)]
  · rw [List.length_drop]
    omega
  · rw [List.getElem?_drop, hu.bytes _ (by omega)]
    congr 1
    omega

theorem Reads.block {b : Bytes} (hb : f (pos / BLOCK_SIZE) = .ok b) {take : ℕ}
    (htake : pos % BLOCK_SIZE + take ≤ b.length) (hroom : pos % BLOCK_SIZE + take ≤ BLOCK_SIZE) :
    Reads f pos (pos + take) ((b.drop (pos % BLOCK_SIZE)).take take) := by
  refine ⟨by rw [List.length_take, List.length_drop]; omega, fun k hk => ?_⟩
  have hdiv : (pos + k) / BLOCK_SIZE = pos / BLOCK_SIZE := by
    unfold BLOCK_SIZE at *
    omega
  have hmod : (pos + k) % BLOCK_SIZE = pos % BLOCK_SIZE + k := by
    unfold BLOCK_SIZE at *
    omega
  have hbytes : blockBytes f (pos / BLOCK_SIZE) = b := by
    unfold blockBytes
    rw [hb]
  rw [List.getElem?_take_of_lt (by omega), List.getElem?_drop, byteAt, hdiv, hmod, hbytes]

end Slices

section Loop
variable {loc : FileLoc} {f : ℕ → Outcome ReadError Bytes}

theorem ExactBlocks.length {i : ℕ} {b : Bytes} (hf : ExactBlocks loc f) (hb : f i = .ok b) :
    b.length = min (i * BLOCK_SIZE + BLOCK_SIZE) loc.record.size.toNat - i * BLOCK_SIZE :=
  hf i b hb

theorem readLoop_returns (hret : ∀ i, (f i).Returns) (stop fuel pos : ℕ) (out : Bytes) :
    (readLoop loc f stop fuel pos out).Returns := by
  induction fuel generalizing pos out with
  | zero => exact returns_ok _
  | succ fuel ih =>
    rw [readLoop]
    split_ifs with hpos
    · refine (hret _).bind fun b _ => ?_
      dsimp only
      split_ifs
      · exact returns_err _
      · exact ih _ _
    · exact returns_ok _

theorem done_eq_ok (stop : ℕ) (out v : Bytes) :
    (.ok out : Outcome ReadError Bytes) = .ok v ↔
      (∀ p, stop ≤ p → p < stop → (f (p / BLOCK_SIZE)).isOk = true) ∧
        ∃ w, v = out ++ w ∧ Reads f stop stop w := by
  rw [Outcome.ok.injEq]
  constructor
  · rintro rfl
    exact ⟨fun p hp hlt => absurd hlt (by omega), [], by simp, .nil⟩
  · rintro ⟨-, w, rfl, hw⟩
    rw [hw.unique .nil, List.append_nil]

theorem readLoop_eq_ok (hf : ExactBlocks loc f) {stop fuel pos : ℕ} {out v : Bytes}
    (hstop : stop ≤ loc.record.size.toNat) (hpos : pos ≤ stop) (hfuel : stop - pos ≤ fuel) :
    readLoop loc f stop fuel pos out = .ok v ↔
      (∀ p, pos ≤ p → p < stop → (f (p / BLOCK_SIZE)).isOk = true) ∧
        ∃ w, v = out ++ w ∧ Reads f pos stop w := by
  induction fuel generalizing pos out with
  | zero =>
    have heq : pos = stop := by omega
    subst heq
    exact done_eq_ok pos out v
  | succ fuel ih =>
    by_cases hlt : pos < stop
    swap
    · have heq : pos = stop := by omega
      subst heq
      rw [readLoop, if_neg hlt]
      exact done_eq_ok pos out v
    · cases hb : f (pos / BLOCK_SIZE) with
      | err e =>
        simp only [readLoop, hlt, ↓reduceIte, hb, err_bind, reduceCtorEq, false_iff, not_and]
        intro hall
        have := hall pos le_rfl hlt
        simp [hb] at this
      | panic =>
        simp only [readLoop, hlt, ↓reduceIte, hb, panic_bind, reduceCtorEq, false_iff, not_and]
        intro hall
        have := hall pos le_rfl hlt
        simp [hb] at this
      | ok b =>
        have hlen := hf.length hb
        have hin : pos % BLOCK_SIZE < b.length := by
          unfold BLOCK_SIZE at *
          omega
        set take := min (stop - pos) (b.length - pos % BLOCK_SIZE) with htake
        have hle : pos + take ≤ stop := by omega
        have hpiece : Reads f pos (pos + take) ((b.drop (pos % BLOCK_SIZE)).take take) := by
          refine Reads.block hb (by omega) ?_
          unfold BLOCK_SIZE at *
          omega
        have hsame : ∀ p, pos ≤ p → p < pos + take → p / BLOCK_SIZE = pos / BLOCK_SIZE := by
          intro p h₁ h₂
          unfold BLOCK_SIZE at *
          omega
        simp only [readLoop, hlt, ↓reduceIte, hb, ok_bind, ge_iff_le, Nat.not_le.mpr hin]
        rw [← htake, ih hle (by omega)]
        constructor
        · rintro ⟨hall, w, rfl, hw⟩
          refine ⟨fun p h₁ h₂ => ?_, _, by rw [List.append_assoc], hpiece.append hw (by omega) hle⟩
          by_cases hp : p < pos + take
          · rw [hsame p h₁ hp, hb]
            rfl
          · exact hall p (by omega) h₂
        · rintro ⟨hall, w, rfl, hw⟩
          obtain ⟨hw₁, hw₂⟩ := hw.split (Nat.le_add_right pos take) hle
          refine ⟨fun p h₁ h₂ => hall p (by omega) h₂, _, ?_, hw₂⟩
          rw [List.append_assoc, hpiece.unique hw₁, List.take_append_drop]

end Loop

section Concat
variable {loc : FileLoc} {f : ℕ → Outcome ReadError Bytes}

theorem concatBlocks_succ (first n : ℕ) :
    concatBlocks f first (n + 1) = blockBytes f first ++ concatBlocks f (first + 1) n := by
  simp [concatBlocks, List.range'_succ]

theorem blockBytes_length (hf : ExactBlocks loc f) {i : ℕ} (hok : (f i).isOk = true) :
    (blockBytes f i).length =
      min (i * BLOCK_SIZE + BLOCK_SIZE) loc.record.size.toNat - i * BLOCK_SIZE := by
  obtain ⟨b, hb⟩ := isOk_iff.mp hok
  rw [blockBytes, hb]
  exact hf.length hb

theorem concatBlocks_getElem? (hf : ExactBlocks loc f) {n : ℕ} {first p : ℕ}
    (hok : ∀ i, first ≤ i → i < first + n → (f i).isOk = true) (hfirst : first * BLOCK_SIZE ≤ p)
    (hlast : p < (first + n) * BLOCK_SIZE) (hp : p < loc.record.size.toNat) :
    (concatBlocks f first n)[p - first * BLOCK_SIZE]? = byteAt f p := by
  induction n generalizing first with
  | zero =>
    rw [Nat.add_zero] at hlast
    omega
  | succ n ih =>
    have hlen := blockBytes_length hf (hok first le_rfl (by omega))
    rw [concatBlocks_succ]
    by_cases hin : p < (first + 1) * BLOCK_SIZE
    · have hdiv : p / BLOCK_SIZE = first := by
        unfold BLOCK_SIZE at *
        omega
      have hmod : p % BLOCK_SIZE = p - first * BLOCK_SIZE := by
        unfold BLOCK_SIZE at *
        omega
      rw [List.getElem?_append_left (by unfold BLOCK_SIZE at *; omega), byteAt, hdiv, hmod]
    · have hfull : (blockBytes f first).length = BLOCK_SIZE := by
        unfold BLOCK_SIZE at *
        omega
      have hok' : ∀ i, first + 1 ≤ i → i < first + 1 + n → (f i).isOk = true :=
        fun i h₁ h₂ => hok i (by omega) (by omega)
      have hrec := ih hok' (Nat.not_lt.mp hin)
        (by rw [show first + 1 + n = first + (n + 1) by omega]; exact hlast)
      have hidx : p - first * BLOCK_SIZE - BLOCK_SIZE = p - (first + 1) * BLOCK_SIZE := by
        rw [Nat.sub_sub, Nat.succ_mul]
      rw [List.getElem?_append_right (by rw [hfull]; unfold BLOCK_SIZE at *; omega), hfull, hidx,
        hrec]

theorem concatBlocks_length_ge (hf : ExactBlocks loc f) {n : ℕ} {first : ℕ}
    (hok : ∀ i, first ≤ i → i < first + n → (f i).isOk = true) :
    min ((first + n) * BLOCK_SIZE) loc.record.size.toNat - first * BLOCK_SIZE ≤
      (concatBlocks f first n).length := by
  induction n generalizing first with
  | zero => simp
  | succ n ih =>
    have hlen := blockBytes_length hf (hok first le_rfl (by omega))
    have hok' : ∀ i, first + 1 ≤ i → i < first + 1 + n → (f i).isOk = true :=
      fun i h₁ h₂ => hok i (by omega) (by omega)
    have hrec := ih hok'
    have hstep : ∀ size rest, min ((first + 1 + n) * BLOCK_SIZE) size - (first + 1) * BLOCK_SIZE ≤
        rest → min ((first + (n + 1)) * BLOCK_SIZE) size - first * BLOCK_SIZE ≤
          min (first * BLOCK_SIZE + BLOCK_SIZE) size - first * BLOCK_SIZE + rest := by
      unfold BLOCK_SIZE
      omega
    rw [concatBlocks_succ, List.length_append, hlen]
    exact hstep _ _ hrec

theorem reads_concatBlocks (hf : ExactBlocks loc f) {pos stop : ℕ} (hpos : pos < stop)
    (hstop : stop ≤ loc.record.size.toNat)
    (hok : ∀ i, pos / BLOCK_SIZE ≤ i → i ≤ (stop - 1) / BLOCK_SIZE → (f i).isOk = true) :
    Reads f pos stop (((concatBlocks f (pos / BLOCK_SIZE)
      ((stop - 1) / BLOCK_SIZE - pos / BLOCK_SIZE + 1)).drop (pos % BLOCK_SIZE)).take
        (stop - pos)) := by
  set first := pos / BLOCK_SIZE with hfirst
  set n := (stop - 1) / BLOCK_SIZE - first + 1 with hn
  have hok' : ∀ i, first ≤ i → i < first + n → (f i).isOk = true := by
    intro i h₁ h₂
    refine hok i h₁ ?_
    unfold BLOCK_SIZE at *
    omega
  have hcover : stop ≤ (first + n) * BLOCK_SIZE := by
    unfold BLOCK_SIZE at *
    omega
  have hge := concatBlocks_length_ge hf hok'
  refine ⟨?_, fun k hk => ?_⟩
  · rw [List.length_take, List.length_drop]
    unfold BLOCK_SIZE at *
    omega
  · have hget := concatBlocks_getElem? hf hok' (p := pos + k)
      (by unfold BLOCK_SIZE at *; omega) (by omega) (by omega)
    rw [List.getElem?_take_of_lt hk, List.getElem?_drop, ← hget]
    congr 1
    unfold BLOCK_SIZE at *
    omega

end Concat

section Whole
variable {loc : FileLoc} {f : ℕ → Outcome ReadError Bytes} {offset len : UInt64}

def readEnd (loc : FileLoc) (offset len : UInt64) : ℕ :=
  min (offset.toNat + len.toNat) loc.record.size.toNat

theorem readWith_empty (h : loc.record.size.toNat ≤ offset.toNat ∨ len.toNat = 0) :
    readWith loc f offset len = .ok [] := by
  have hcond : offset ≥ loc.record.size ∨ len = 0 := by
    rcases h with h | h
    · exact Or.inl (UInt64.le_iff_toNat_le.mpr h)
    · exact Or.inr (UInt64.toNat_inj.mp (by simpa using h))
  simp only [readWith, hcond, ↓reduceIte]
  rfl

theorem readWith_eq (hoff : offset.toNat < loc.record.size.toNat) (hlen : 0 < len.toNat)
    (hfit : offset.toNat + len.toNat < 2 ^ 64) :
    readWith loc f offset len =
      (withCapacity 1 (readEnd loc offset len - offset.toNat) >>= fun _ =>
        readLoop loc f (readEnd loc offset len) (readEnd loc offset len - offset.toNat)
          offset.toNat []) := by
  have hcond : ¬ (offset ≥ loc.record.size ∨ len = 0) := by
    rintro (h | h)
    · have := UInt64.le_iff_toNat_le.mp h
      omega
    · rw [h] at hlen
      simp at hlen
  have hadd : (offset + len).toNat = offset.toNat + len.toNat := by
    rw [UInt64.toNat_add]
    omega
  have hstop : (min (offset + len) loc.record.size).toNat = readEnd loc offset len := by
    rw [readEnd, ← hadd]
    change (if offset + len ≤ loc.record.size then offset + len else loc.record.size).toNat = _
    split_ifs with h
    · rw [Nat.min_eq_left (UInt64.le_iff_toNat_le.mp h)]
    · rw [UInt64.le_iff_toNat_le] at h
      rw [Nat.min_eq_right (by omega)]
  have hge : offset.toNat ≤ readEnd loc offset len := by
    unfold readEnd
    omega
  have hsub : (min (offset + len) loc.record.size - offset).toNat =
      readEnd loc offset len - offset.toNat := by
    rw [UInt64.toNat_sub_of_le _ _ (UInt64.le_iff_toNat_le.mpr (by rw [hstop]; exact hge)), hstop]
  simp only [readWith, hcond, ↓reduceIte, hsub, hstop]
  rfl

theorem readWith_panics (hfit : offset.toNat + len.toNat < 2 ^ 64)
    (hbig : isizeMax < readEnd loc offset len - offset.toNat) :
    readWith loc f offset len = .panic := by
  unfold readEnd at hbig
  rw [readWith_eq (by omega) (by omega) hfit, withCapacity_panic (by unfold readEnd; omega)]
  rfl

theorem readWith_eq_ok (hf : ExactBlocks loc f) (hfit : offset.toNat + len.toNat < 2 ^ 64)
    (hsmall : readEnd loc offset len - offset.toNat ≤ isizeMax) {v : Bytes} :
    readWith loc f offset len = .ok v ↔
      (∀ p, offset.toNat ≤ p → p < readEnd loc offset len → (f (p / BLOCK_SIZE)).isOk = true) ∧
        Reads f offset.toNat (max offset.toNat (readEnd loc offset len)) v := by
  by_cases hempty : loc.record.size.toNat ≤ offset.toNat ∨ len.toNat = 0
  · have hend : readEnd loc offset len ≤ offset.toNat := by
      unfold readEnd
      omega
    rw [readWith_empty hempty, max_eq_left hend, Outcome.ok.injEq]
    constructor
    · rintro rfl
      exact ⟨fun p h₁ h₂ => absurd h₂ (by omega), .nil⟩
    · rintro ⟨-, hv⟩
      exact hv.unique .nil ▸ rfl
  · rw [not_or] at hempty
    have hend : offset.toNat ≤ readEnd loc offset len := by
      unfold readEnd
      omega
    rw [readWith_eq (by omega) (by omega) hfit, withCapacity_ok (by omega), ok_bind,
      readLoop_eq_ok hf (by unfold readEnd; omega) hend le_rfl, max_eq_right hend]
    simp

theorem readWith_returns (hret : ∀ i, (f i).Returns) (hfit : offset.toNat + len.toNat < 2 ^ 64)
    (hsmall : readEnd loc offset len - offset.toNat ≤ isizeMax) :
    (readWith loc f offset len).Returns := by
  by_cases hempty : loc.record.size.toNat ≤ offset.toNat ∨ len.toNat = 0
  · rw [readWith_empty hempty]
    exact returns_ok _
  · rw [not_or] at hempty
    rw [readWith_eq (by omega) (by omega) hfit, withCapacity_ok (by omega), ok_bind]
    exact readLoop_returns hret _ _ _ _

end Whole
end Steam2Fs
