import Steam2Fs.StoreSequence

/-!
# Stored bytes from windows

`datBytes` stitches a range of a dat together from aligned windows of one
megabyte, each of which comes from the window cache or from the backend. Where
the backend serves exact slices and the indexed size is the size of the dat,
window `idx` is the slice of the contents that starts at `idx * RAW_WINDOW`,
the last one short and all later ones empty. Whatever is cached, the range
comes out as the slice of the contents that it is, cut off at their end.
-/

namespace Steam2Fs
open Outcome

/-- The bytes of `content` from `start` up to `stop`, cut off at its end. -/
def slice (content : Bytes) (start stop : ℕ) : Bytes :=
  (content.take (min stop content.length)).drop (min start content.length)

theorem slice_length (content : Bytes) (start stop : ℕ) :
    (slice content start stop).length =
      min stop content.length - min start content.length := by
  simp [slice]

theorem slice_append {content : Bytes} {start mid stop : ℕ} (h₁ : start ≤ mid) (h₂ : mid ≤ stop) :
    slice content start mid ++ slice content mid stop = slice content start stop := by
  unfold slice
  have hmid : min mid content.length ≤ min stop content.length := by omega
  have hsplit : (content.take (min mid content.length)).drop (min start content.length) =
      ((content.take (min stop content.length)).take (min mid content.length)).drop
        (min start content.length) := by
    rw [List.take_take, min_eq_left hmid]
  have hdrop : (content.take (min stop content.length)).drop (min mid content.length) =
      ((content.take (min stop content.length)).drop (min start content.length)).drop
        (min mid content.length - min start content.length) := by
    rw [List.drop_drop, Nat.add_sub_cancel' (by omega)]
  rw [hsplit, List.drop_take, hdrop, List.take_append_drop]

theorem slice_slice {content : Bytes} {base stop pos take : ℕ} (hpos : base ≤ pos)
    (htake : pos + take ≤ min stop content.length) :
    ((slice content base stop).drop (pos - base)).take take = slice content pos (pos + take) := by
  unfold slice
  rw [List.drop_drop, List.take_drop, List.take_take]
  have hend : min (pos + take) content.length = pos + take := by omega
  have hstart : min pos content.length = pos := by omega
  have hbase : min base content.length + (pos - base) = pos := by omega
  rw [hend, hstart, hbase, min_eq_left (by omega)]

section Loop
variable {content : Bytes} {window : ℕ → Outcome ReadError Bytes}

/-- Window `idx` holds the slice of the contents it covers. -/
def Windowed (content : Bytes) (window : ℕ → Outcome ReadError Bytes) : Prop :=
  ∀ idx, window idx = .ok (slice content (idx * RAW_WINDOW) ((idx + 1) * RAW_WINDOW))

theorem datLoop_exact (hw : Windowed content window) {stop fuel pos : ℕ} (hpos : pos ≤ stop)
    (hfuel : stop - pos ≤ fuel) (out : Bytes) :
    datLoop window stop fuel pos out = .ok (out ++ slice content pos stop) := by
  have hdone {p : ℕ} (h : stop ≤ p ∨ content.length ≤ p) : slice content p stop = [] := by
    rw [← List.length_eq_zero_iff, slice_length]
    omega
  induction fuel generalizing pos out with
  | zero =>
    rw [datLoop, hdone (Or.inl (by omega)), List.append_nil]
    rfl
  | succ fuel ih =>
    rw [datLoop]
    split_ifs with hlt
    · dsimp only
      rw [hw, ok_bind]
      have hbase : pos / RAW_WINDOW * RAW_WINDOW ≤ pos := Nat.div_mul_le_self pos RAW_WINDOW
      have hnext : pos < (pos / RAW_WINDOW + 1) * RAW_WINDOW := by
        rw [Nat.mul_comm]
        exact Nat.lt_mul_div_succ pos (by decide)
      rw [slice_length]
      generalize pos / RAW_WINDOW * RAW_WINDOW = base at hbase ⊢
      generalize (pos / RAW_WINDOW + 1) * RAW_WINDOW = next at hnext ⊢
      split_ifs with hend
      · rw [hdone (Or.inr (by omega)), List.append_nil]
        rfl
      · -- the window reaches past `pos`, so the round takes at least one byte
        set take := min (stop - pos)
          (min next content.length - min base content.length - (pos - base)) with htake
        rw [slice_slice hbase (by omega), ih (by omega) (by omega), List.append_assoc,
          slice_append (by omega) (by omega)]
    · rw [hdone (Or.inl (by omega)), List.append_nil]
      rfl

theorem datBytesWith_exact (hw : Windowed content window) {start stop : UInt64}
    (hle : start ≤ stop) (hcap : stop.toNat - start.toNat ≤ isizeMax) :
    datBytesWith window start stop = .ok (slice content start.toNat stop.toNat) := by
  have hle' : start.toNat ≤ stop.toNat := UInt64.le_iff_toNat_le.mp hle
  have hroom : (withCapacity 1 (stop - start).toNat : Outcome ReadError Unit) = .ok () := by
    rw [withCapacity, Nat.one_mul, UInt64.toNat_sub_of_le _ _ hle, if_pos hcap]
  unfold datBytesWith
  rw [hroom]
  exact datLoop_exact hw hle' le_rfl []

end Loop

/-! ### Calls that come before -/

inductive ReadOp where
  | store (op : StoreOp)
  | datBytes (dat : ℕ) (start stop : UInt64)
  | read (loc : FileLoc) (offset len : UInt64)

def ReadOp.prog (d : Dump) : ReadOp → Proc Store Unit
  | .store op => op.prog d
  | .datBytes dat start stop => Proc.bind (fun _ => .done ()) (d.datBytes dat start stop)
  | .read loc offset len => Proc.bind (fun _ => .done ()) (d.read loc offset len)

namespace Dump

def afterReads (d : Dump) (cacheDir : ℕ → Option Bytes) (ops : List ReadOp) : Store :=
  ops.foldl (fun s op => ((op.prog d).run s).2) (Store.new d cacheDir)

section Reads
variable {d : Dump} {cacheDir : ℕ → Option Bytes}

abbrev WindowInv (d : Dump) (cacheDir : ℕ → Option Bytes) : Store → Prop :=
  d.BlockInv cacheDir (fun _ _ => True) (fun _ _ => True)

theorem block_windows (loc : FileLoc) (i : ℕ) : (d.block loc i).Safe (d.WindowInv cacheDir) := by
  cases hx : loc.slot i with
  | none => exact (block_answers_of_slot_none hx (.none 0)).safe
  | some x => exact (block_keeps hx (fun _ _ _ _ => trivial) fun _ _ _ _ _ => trivial).safe

theorem datBytes_answers (dat : ℕ) (start stop : UInt64) :
    (d.datBytes dat start stop).Answers (d.WindowInv cacheDir)
      (datBytesWith (d.windowBytes dat) start stop) :=
  datBytesWith_answers (rawWindow_answers dat) start stop

theorem readOp_windows (op : ReadOp) :
    (op.prog d).Keeps (d.WindowInv cacheDir) fun _ => True := by
  cases op with
  | datBytes dat start stop => exact drop_keeps (datBytes_answers dat start stop).safe
  | read loc offset len => exact drop_keeps (readWith_safe (block_windows loc) offset len)
  | store op =>
    cases op with
    | parsed id => exact drop_keeps (parsed_answers_blocks id).safe
    | locate id fileId => exact drop_keeps (BlockInv.tableLocal.locate_safe id fileId)
    | probe loc => exact drop_keeps (probeKey_keeps fun _ _ _ _ _ => trivial)
    | block loc i => exact drop_keeps (block_windows loc i)

theorem afterReads_windows (ops : List ReadOp) :
    d.WindowInv cacheDir (d.afterReads cacheDir ops) := by
  induction ops using List.reverseRecOn with
  | nil => exact BlockInv.new fun _ => trivial
  | append_singleton ops op ih =>
    rw [afterReads, List.foldl_append]
    exact ((readOp_windows op).run ih).2

/-- The backend serves exact slices of the dat, which is as long as indexed. -/
structure Stores (d : Dump) (dat : ℕ) (content : Bytes) : Prop where
  entry : ∃ entry, d.index.dats[dat]? = some entry ∧ entry.size.toNat = content.length ∧
    ∀ start len, start + len ≤ content.length →
      d.readAt entry.path start len = .ok ((content.drop start).take len)

theorem windowBytes_windowed {dat : ℕ} {content : Bytes} (h : d.Stores dat content) :
    Windowed content (d.windowBytes dat) := by
  obtain ⟨entry, hentry, hsize, hread⟩ := h.entry
  intro idx
  have hnext : (idx + 1) * RAW_WINDOW = idx * RAW_WINDOW + RAW_WINDOW := Nat.succ_mul ..
  unfold windowBytes datEntry
  rw [hentry]
  dsimp only
  rw [ok_bind, hsize, hnext]
  generalize idx * RAW_WINDOW = start
  split_ifs with hlen
  · have hnil : slice content start (start + RAW_WINDOW) = [] := by
      rw [← List.length_eq_zero_iff, slice_length]
      unfold RAW_WINDOW at hlen ⊢
      omega
    rw [hnil]
  · have hstart : min start content.length = start := by omega
    have hstop : min (start + RAW_WINDOW) content.length =
        start + min RAW_WINDOW (content.length - start) := by omega
    rw [hread _ _ (by omega), slice, hstart, hstop, List.take_drop]

end Reads

/-- Whatever was read before and whatever is cached, a range of a dat is the
slice of its contents, cut off at their end. -/
theorem datBytes_exact (d : Dump) (cacheDir : ℕ → Option Bytes) (ops : List ReadOp) {dat : ℕ}
    {content : Bytes} (hstores : d.Stores dat content) {start stop : UInt64}
    (hle : start ≤ stop) (hcap : stop.toNat - start.toNat ≤ isizeMax) :
    ((d.datBytes dat start stop).run (d.afterReads cacheDir ops)).1 =
      .ok ((content.take (min stop.toNat content.length)).drop
        (min start.toNat content.length)) := by
  rw [(datBytes_answers dat start stop).run (afterReads_windows ops)]
  exact datBytesWith_exact (windowBytes_windowed hstores) hle hcap

end Dump

section Sample

theorem sharedStart_stores : sharedStart.dump.Stores 0 packed := by
  have hfile : sharedStart.file "dats/5_1_00000005_x.dat".toList = some packed := by
    decide +kernel
  refine ⟨⟨"dats/5_1_00000005_x.dat".toList, 5, 1, 5, 15, false⟩, by decide +kernel,
    by decide +kernel, fun start len _ => ?_⟩
  unfold MemoryDump.dump
  simp only [hfile]

theorem sharedStart_datBytes :
    ((sharedStart.dump.datBytes 0 3 0x100000).run (sharedStart.dump.afterReads (fun _ => none)
      [.datBytes 0 0 7, .store (.block (firstLoc compressedRecord) 0)])).1 =
        .ok (packed.drop 3) :=
  sharedStart.dump.datBytes_exact _ _ sharedStart_stores (by decide) (by decide)

/-- A range that reaches 2^63 bytes past its start is not cut off: no vector is
made for it. -/
theorem sharedStart_datBytes_panics :
    sharedStart.dump.Stores 0 packed ∧ (0 : UInt64) ≤ 0x8000000000000000 ∧
      ((sharedStart.dump.datBytes 0 0 0x8000000000000000).run
        (sharedStart.dump.afterReads (fun _ => none) [])).1 = .panic := by
  exact ⟨sharedStart_stores, by decide, by decide +kernel⟩

end Sample
end Steam2Fs
