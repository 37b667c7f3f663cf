import Steam2Fs.BlobFormat
import Steam2Fs.BlockArithmetic
import Steam2Fs.StoreRead
import Steam2Fs.StoreWindows

/-!
# Archives

The other half of the data format: how the dat of a version and its records
come from the files of the version. A file is cut into pieces of `BLOCK_SIZE`,
each piece is stored in the mode of its file, and the stored pieces follow each
other in the dat. The two directions of the codec meet in `Packer`, which asks
of a writer no more than that the reader gets the piece back.
-/

namespace Steam2Fs
open Layout Outcome

/-- The compressor may choose any stream that inflates to the piece. -/
structure Packer (codec : Codec) where
  deflate : Bytes → Bytes
  encrypt : Key → Bytes → Bytes
  deflate_ne_nil : ∀ piece, deflate piece ≠ []
  inflates : ∀ piece, piece.length ≤ BLOCK_SIZE →
    codec.zlibTake (BLOCK_SIZE + 1) (deflate piece) = .ok piece
  decrypts : ∀ k bytes, codec.aesCfb k (encrypt k bytes) = bytes

structure SourceFile where
  fileId : UInt32
  mode : Mode
  content : Bytes

def pieceCount (content : Bytes) : ℕ := (content.length + (BLOCK_SIZE - 1)) / BLOCK_SIZE

def piece (content : Bytes) (i : ℕ) : Bytes :=
  slice content (i * BLOCK_SIZE) ((i + 1) * BLOCK_SIZE)

def pieces (content : Bytes) : List Bytes := (List.range (pieceCount content)).map (piece content)

def Mode.keyFor (mode : Mode) (k : Key) : Option Key := if mode.isEncrypted then some k else none

namespace Packer
variable {codec : Codec} (w : Packer codec)

def store (mode : Mode) (k : Key) (piece : Bytes) : Bytes :=
  match mode with
  | .plain => piece
  | .compressed => w.deflate piece
  | .compressedEncrypted =>
    let body := w.encrypt k (w.deflate piece)
    leBytes 4 body.length ++ leBytes 4 piece.length ++ body
  | .encrypted => w.encrypt k piece

def block (mode : Mode) (k : Key) (piece : Bytes) : Block :=
  ⟨UInt32.ofNat (w.store mode k piece).length, Chunk.checksum piece⟩

def stored (k : Key) (f : SourceFile) : List Bytes := (pieces f.content).map (w.store f.mode k)

/-- The record of a file whose first piece is stored at `pos`. -/
def record (k : Key) (pos : ℕ) (f : SourceFile) : FileRecord :=
  ⟨f.fileId, f.mode, UInt64.ofNat pos, UInt64.ofNat f.content.length,
    (pieces f.content).map (w.block f.mode k)⟩

def placed (k : Key) : ℕ → List SourceFile → List (ℕ × SourceFile)
  | _, [] => []
  | pos, f :: fs => (pos, f) :: placed k (pos + (w.stored k f).flatten.length) fs

def records (k : Key) (fs : List SourceFile) : List FileRecord :=
  (w.placed k 0 fs).map fun x => w.record k x.1 x.2

def dat (k : Key) (fs : List SourceFile) : Bytes := fs.flatMap fun f => (w.stored k f).flatten

def start (k : Key) (pos : ℕ) (f : SourceFile) (i : ℕ) : ℕ :=
  pos + ((w.stored k f).take i).flatten.length

/-- The fields of the record are wide enough. -/
structure Fits (k : Key) (f : SourceFile) : Prop where
  content_le : f.content.length ≤ isizeMax
  stored_lt : ∀ i < pieceCount f.content, (w.store f.mode k (piece f.content i)).length < 2 ^ 32

end Packer

/-! ### Pieces -/

section Pieces
variable {content : Bytes} {i : ℕ}

theorem pieces_getElem? (hi : i < pieceCount content) :
    (pieces content)[i]? = some (piece content i) := by
  rw [pieces, List.getElem?_map, List.getElem?_range hi]
  rfl

theorem pieces_length (content : Bytes) : (pieces content).length = pieceCount content := by
  rw [pieces, List.length_map, List.length_range]

theorem piece_length (content : Bytes) (i : ℕ) :
    (piece content i).length =
      min (i * BLOCK_SIZE + BLOCK_SIZE) content.length - i * BLOCK_SIZE := by
  rw [piece, slice_length, Nat.succ_mul]
  omega

theorem piece_length_le (content : Bytes) (i : ℕ) : (piece content i).length ≤ BLOCK_SIZE := by
  rw [piece_length]
  omega

theorem piece_length_pos (hi : i < pieceCount content) : 0 < (piece content i).length := by
  rw [piece_length]
  unfold pieceCount BLOCK_SIZE at *
  omega

theorem lt_pieceCount {p : ℕ} (h : p < content.length) : p / BLOCK_SIZE < pieceCount content := by
  unfold pieceCount BLOCK_SIZE
  omega

theorem slice_getElem? {start stop k : ℕ} (h : k < min stop content.length - start) :
    (slice content start stop)[k]? = content[start + k]? := by
  unfold slice
  rw [List.getElem?_drop, List.getElem?_take_of_lt (by omega), min_eq_left (by omega)]

theorem slice_of_stands {p : ℕ} {a : Bytes} (h : Stands content p a) (ha : 0 < a.length) :
    slice content p (p + a.length) = a := by
  have hend := h.end_le ha
  rw [slice, min_eq_left (by omega), min_eq_left hend, List.drop_take, Nat.add_sub_cancel_left,
    h.take_eq]

theorem slice_min (content : Bytes) (start stop : ℕ) :
    slice content start stop = slice content start (min stop content.length) := by
  rw [slice, slice, Nat.min_assoc, Nat.min_self]

theorem reads_slice {f : ℕ → Outcome ReadError Bytes}
    (hf : ∀ i < pieceCount content, f i = .ok (piece content i)) {start stop : ℕ}
    (hstop : stop ≤ content.length) : Reads f start stop (slice content start stop) := by
  refine ⟨?_, fun k hk => ?_⟩
  · rw [slice_length]
    omega
  · have hp : start + k < content.length := by omega
    rw [byteAt, blockBytes, hf _ (lt_pieceCount hp), slice_getElem? (by omega)]
    dsimp only
    rw [piece, slice_getElem?]
    · congr 1
      unfold BLOCK_SIZE
      omega
    · unfold BLOCK_SIZE
      omega

end Pieces

namespace Packer
variable {codec : Codec} {w : Packer codec} {mode : Mode} {k : Key} {f : SourceFile} {i : ℕ}

theorem encrypt_length (w : Packer codec) (k : Key) (bytes : Bytes) :
    (w.encrypt k bytes).length = bytes.length := by
  rw [← codec.aesCfb_length k (w.encrypt k bytes), w.decrypts]

theorem store_length_pos {piece : Bytes} (h : 0 < piece.length) :
    0 < (w.store mode k piece).length := by
  have hdeflate : 0 < (w.deflate piece).length := List.length_pos_iff.mpr (w.deflate_ne_nil piece)
  cases mode with
  | plain => exact h
  | compressed => exact hdeflate
  | encrypted =>
    rw [store, encrypt_length]
    exact h
  | compressedEncrypted =>
    simp only [store, List.length_append, leBytes_length, encrypt_length]
    omega

theorem decode_store {piece : Bytes} (hpiece : piece.length ≤ BLOCK_SIZE)
    (hfits : (w.store mode k piece).length < 2 ^ 32) :
    Chunk.decode codec mode (w.store mode k piece) (mode.keyFor k) = .ok piece := by
  have hinflate : Chunk.inflate codec (w.deflate piece) = .ok piece := by
    unfold Chunk.inflate
    rw [w.inflates piece hpiece]
    exact if_neg (by omega)
  cases mode with
  | plain => rfl
  | compressed => exact hinflate
  | encrypted =>
    change (.ok (codec.aesCfb k (w.encrypt k piece)) : Outcome FormatError Bytes) = .ok piece
    rw [w.decrypts]
  | compressedEncrypted =>
    set body := w.encrypt k (w.deflate piece) with hbody
    have hstore : w.store .compressedEncrypted k piece =
        leBytes 4 body.length ++ leBytes 4 piece.length ++ body := rfl
    have hlen : (w.store .compressedEncrypted k piece).length = 8 + body.length := by
      rw [hstore, List.length_append, List.length_append, leBytes_length, leBytes_length]
    have hstands : Stands (w.store .compressedEncrypted k piece) 0
        (leBytes 4 body.length ++ leBytes 4 piece.length ++ body) :=
      stands_zero.mpr (List.prefix_refl _)
    simp only [stands_append, List.length_append, leBytes_length, Nat.zero_add, Nat.reduceAdd]
      at hstands
    obtain ⟨⟨h0, h4⟩, h8⟩ := hstands
    have hbodyLen : (UInt32.ofNat body.length).toNat = body.length :=
      UInt32.toNat_ofNat_of_lt' (by unfold UInt32.size; omega)
    have hpieceLen : (UInt32.ofNat piece.length).toNat = piece.length :=
      UInt32.toNat_ofNat_of_lt' (by unfold BLOCK_SIZE at hpiece; unfold UInt32.size; omega)
    have hread0 : u32At (w.store .compressedEncrypted k piece) 0 =
        .ok (UInt32.ofNat body.length) :=
      u32At_complete (by rwa [word, hbodyLen]) (by norm_num)
    have hread4 : u32At (w.store .compressedEncrypted k piece) 4 =
        .ok (UInt32.ofNat piece.length) :=
      u32At_complete (by rwa [word, hpieceLen]) (by norm_num)
    have hrange : getRange (w.store .compressedEncrypted k piece) 8
        (w.store .compressedEncrypted k piece).length = some body := by
      rw [hlen]
      exact Blob.getRange_of_stands h8 (by omega)
    have hdecrypt : Chunk.inflate codec (codec.aesCfb k body) = .ok piece := by
      rw [hbody, w.decrypts, hinflate]
    unfold Chunk.decode
    change (do
      let key ← Chunk.needKey (some k)
      _) = _
    rw [Chunk.needKey, ofOption, ok_bind, hread0, ok_bind, hread4, ok_bind, hbodyLen, hpieceLen,
      if_neg (by omega), if_neg (by omega), hrange, ofOption, ok_bind, hdecrypt, ok_bind,
      if_neg (by simp)]

/-! ### Positions -/

theorem stored_getElem? (hi : i < pieceCount f.content) :
    (w.stored k f)[i]? = some (w.store f.mode k (piece f.content i)) := by
  rw [stored, List.getElem?_map, pieces_getElem? hi, Option.map_some]

theorem start_succ (pos : ℕ) (hi : i < pieceCount f.content) :
    w.start k pos f (i + 1) =
      w.start k pos f i + (w.store f.mode k (piece f.content i)).length := by
  rw [start, start, List.take_add_one, stored_getElem? hi, List.flatten_append, List.length_append,
    Option.toList_some, List.flatten_singleton, Nat.add_assoc]

theorem start_lt_succ (pos : ℕ) (hi : i < pieceCount f.content) :
    w.start k pos f i < w.start k pos f (i + 1) := by
  have hpos : 0 < (w.store f.mode k (piece f.content i)).length :=
    store_length_pos (piece_length_pos hi)
  rw [start_succ pos hi]
  omega

theorem start_le (w : Packer codec) (k : Key) (pos : ℕ) (f : SourceFile) (i : ℕ) :
    w.start k pos f i ≤ pos + (w.stored k f).flatten.length := by
  have hsub := ((List.take_prefix i (w.stored k f)).sublist.flatten).length_le
  unfold start
  omega

theorem start_strictMono (pos : ℕ) {j : ℕ} (hij : i < j) (hj : j < pieceCount f.content) :
    w.start k pos f i < w.start k pos f j := by
  induction j, hij using Nat.le_induction with
  | base => exact start_lt_succ pos (by omega)
  | succ j hij ih => exact (ih (by omega)).trans (start_lt_succ pos (by omega))

theorem stands_store {t : Bytes} {pos : ℕ} (h : Stands t pos (w.stored k f).flatten)
    (hi : i < pieceCount f.content) :
    Stands t (w.start k pos f i) (w.store f.mode k (piece f.content i)) :=
  h.piece (stored_getElem? hi)

section Placed
variable {fs : List SourceFile} {pos : ℕ} {x y : ℕ × SourceFile}

theorem stands_placed {t : Bytes} (h : Stands t pos (w.dat k fs)) (hx : x ∈ w.placed k pos fs) :
    Stands t x.1 (w.stored k x.2).flatten := by
  induction fs generalizing pos with
  | nil => cases hx
  | cons f fs ih =>
    rw [dat, List.flatMap_cons, stands_append] at h
    rcases List.mem_cons.mp hx with rfl | hx
    · exact h.1
    · exact ih h.2 hx

theorem placed_ge (hx : x ∈ w.placed k pos fs) : pos ≤ x.1 := by
  induction fs generalizing pos with
  | nil => cases hx
  | cons f fs ih =>
    rcases List.mem_cons.mp hx with rfl | hx
    · exact le_rfl
    · exact (Nat.le_add_right _ _).trans (ih hx)

theorem placed_source (hx : x ∈ w.placed k pos fs) : x.2 ∈ fs := by
  induction fs generalizing pos with
  | nil => cases hx
  | cons f fs ih =>
    rcases List.mem_cons.mp hx with rfl | hx
    · exact List.mem_cons_self
    · exact List.mem_cons_of_mem f (ih hx)

theorem placed_pairwise (w : Packer codec) (k : Key) (pos : ℕ) (fs : List SourceFile) :
    (w.placed k pos fs).Pairwise fun x y => x.1 + (w.stored k x.2).flatten.length ≤ y.1 := by
  induction fs generalizing pos with
  | nil => exact List.Pairwise.nil
  | cons f fs ih => exact List.pairwise_cons.mpr ⟨fun y hy => placed_ge hy, ih _⟩

theorem start_injective (hx : x ∈ w.placed k pos fs) (hy : y ∈ w.placed k pos fs) {j : ℕ}
    (hi : i < pieceCount x.2.content) (hj : j < pieceCount y.2.content)
    (h : w.start k x.1 x.2 i = w.start k y.1 y.2 j) : x = y ∧ i = j := by
  have before {x y : ℕ × SourceFile} {i j : ℕ} (hi : i < pieceCount x.2.content)
      (hle : x.1 + (w.stored k x.2).flatten.length ≤ y.1) :
      w.start k x.1 x.2 i < w.start k y.1 y.2 j := by
    have hnext := start_lt_succ (w := w) (k := k) x.1 hi
    have hend := start_le w k x.1 x.2 (i + 1)
    have hbegin : y.1 ≤ w.start k y.1 y.2 j := Nat.le_add_right _ _
    omega
  obtain ⟨a, ha, rfl⟩ := List.mem_iff_getElem.mp hx
  obtain ⟨b, hb, rfl⟩ := List.mem_iff_getElem.mp hy
  have hpair := List.pairwise_iff_getElem.mp (placed_pairwise w k pos fs)
  rcases Nat.lt_trichotomy a b with hab | rfl | hab
  · exact absurd h (before hi (hpair a b ha hb hab)).ne
  · refine ⟨rfl, ?_⟩
    rcases Nat.lt_trichotomy i j with hij | hij | hij
    · exact absurd h (start_strictMono _ hij hj).ne
    · exact hij
    · exact absurd h.symm (start_strictMono _ hij hi).ne
  · exact absurd h.symm (before hj (hpair b a hb ha hab)).ne

end Placed

/-! ### Records -/

theorem record_numBlocks (w : Packer codec) (k : Key) (pos : ℕ) (f : SourceFile) :
    (w.record k pos f).numBlocks = pieceCount f.content := by
  rw [FileRecord.numBlocks, record, List.length_map, pieces_length]

theorem record_block (pos : ℕ) (hi : i < pieceCount f.content) :
    (w.record k pos f).blocks[i]? = some (w.block f.mode k (piece f.content i)) := by
  rw [record, List.getElem?_map, pieces_getElem? hi, Option.map_some]

theorem Fits.size (h : w.Fits k f) (pos : ℕ) :
    (w.record k pos f).size.toNat = f.content.length :=
  UInt64.toNat_ofNat_of_lt' (h.content_le.trans_lt (by decide))

theorem Fits.blockLen (h : w.Fits k f) (pos : ℕ) (hi : i < pieceCount f.content) :
    (w.record k pos f).blockLen i = (piece f.content i).length := by
  have hpos := piece_length_pos hi
  have hcap := h.content_le
  rw [piece_length] at hpos ⊢
  unfold FileRecord.blockLen FileRecord.blockRange
  dsimp only
  rw [h.size]
  unfold isizeMax at hcap
  omega

theorem Fits.storedSize_take (h : w.Fits k f) (pos i : ℕ) :
    storedSize ((w.record k pos f).blocks.take i) =
      ((w.stored k f).take i).flatten.length := by
  have hfits : ∀ p ∈ (pieces f.content).take i, (w.store f.mode k p).length < 2 ^ 32 := by
    intro p hp
    obtain ⟨j, hj, rfl⟩ := List.mem_map.mp (List.mem_of_mem_take hp)
    exact h.stored_lt j (List.mem_range.mp hj)
  rw [record, stored, ← List.map_take, ← List.map_take]
  generalize (pieces f.content).take i = ps at hfits ⊢
  induction ps with
  | nil => rfl
  | cons p ps ih =>
    have hp : (UInt32.ofNat (w.store f.mode k p).length).toNat = (w.store f.mode k p).length :=
      UInt32.toNat_ofNat_of_lt' (hfits p List.mem_cons_self)
    rw [List.map_cons, List.map_cons, storedSize_cons, List.flatten_cons, List.length_append,
      ih fun q hq => hfits q (List.mem_cons_of_mem p hq)]
    exact congrArg (· + _) hp

end Packer

theorem blockOffsets_getElem? (off : UInt64) {bs : List Block} {i : ℕ} (hi : i ≤ bs.length) :
    (blockOffsets off bs)[i]? = some (UInt64.ofNat (off.toNat + storedSize (bs.take i))) := by
  induction bs generalizing off i with
  | nil =>
    have hzero : i = 0 := Nat.le_zero.mp hi
    subst hzero
    simp [blockOffsets, storedSize]
  | cons b bs ih =>
    cases i with
    | zero => simp [blockOffsets, storedSize]
    | succ i =>
      rw [blockOffsets, List.getElem?_cons_succ, ih _ (Nat.le_of_succ_le_succ hi),
        List.take_succ_cons, storedSize_cons, Option.some.injEq]
      apply UInt64.toNat_inj.mp
      rw [UInt64.toNat_ofNat', UInt64.toNat_ofNat', UInt64.toNat_add, UInt32.toNat_toUInt64]
      omega

end Steam2Fs
