import Steam2Fs.Words

/-!
# The checksum table's format

An `Image` is what a table describes: its version and its fileblocks, each with
the id of its first file, the word the format leaves unused and its files. The
encoder writes the header, one table entry for each fileblock with the offset
of its files, the files of all fileblocks in order and the footer. An image is
valid when every number fits the field it is stored in.

The parser's three loops each have a soundness and a completeness lemma: what
an accepted run read is the encoding of what it returned, and an encoding is
read back. Both follow the shared cursor, which moves by the length of the
encoding.
-/

namespace Steam2Fs
open Layout Outcome

def Block.encode (b : Block) : Bytes := word b.compressedSize ++ word b.checksum

@[simp] theorem Block.encode_length (b : Block) : b.encode.length = 8 := by
  simp [Block.encode]

namespace Checksums

def fieldWidth (version : UInt32) : ℕ := if version = 0 then 4 else 8

/-- What is stored for one file. Its id follows from its place. -/
structure FileBody where
  mode : Mode
  offset : UInt64
  size : UInt64
  blocks : List Block
  deriving DecidableEq, Repr

namespace FileBody

def record (f : FileBody) (fileId : ℕ) : FileRecord :=
  ⟨UInt32.ofNat fileId, f.mode, f.offset, f.size, f.blocks⟩

def encode (version : UInt32) (f : FileBody) : Bytes :=
  leBytes (fieldWidth version) f.size.toNat ++ leBytes (fieldWidth version) f.offset.toNat ++
    leBytes 4 (f.mode.toNat * 2 ^ 24 + f.blocks.length) ++ f.blocks.flatMap Block.encode

structure Fits (version : UInt32) (f : FileBody) : Prop where
  size : f.size.toNat < 256 ^ fieldWidth version
  offset : f.offset.toNat < 256 ^ fieldWidth version
  blocks : f.blocks.length < 2 ^ 24

end FileBody

/-- The records of files whose ids count up from `id`. -/
def recordsFrom (id : ℕ) (files : List FileBody) : List FileRecord :=
  (files.zipIdx id).map fun p => p.1.record p.2

structure Fileblock where
  fileidStart : UInt32
  unused : UInt32
  files : List FileBody
  deriving DecidableEq, Repr

namespace Fileblock

def records (fb : Fileblock) : List FileRecord := recordsFrom fb.fileidStart.toNat fb.files

def encodeFiles (version : UInt32) (fb : Fileblock) : Bytes :=
  fb.files.flatMap (FileBody.encode version)

def encodeEntry (fb : Fileblock) (pos : ℕ) : Bytes :=
  word fb.fileidStart ++ leBytes 4 fb.files.length ++ leBytes 4 pos ++ word fb.unused

structure Fits (version : UInt32) (pos : ℕ) (fb : Fileblock) : Prop where
  cursor : pos < 2 ^ 32
  count : fb.files.length < 2 ^ 32
  ids : fb.fileidStart.toNat + fb.files.length ≤ 2 ^ 32
  files : ∀ f ∈ fb.files, f.Fits version

end Fileblock

def encodeTable (version : UInt32) : ℕ → List Fileblock → Bytes
  | _, [] => []
  | pos, fb :: fbs =>
    fb.encodeEntry pos ++ encodeTable version (pos + (fb.encodeFiles version).length) fbs

def FitsFrom (version : UInt32) : ℕ → List Fileblock → Prop
  | _, [] => True
  | pos, fb :: fbs =>
    fb.Fits version pos ∧ FitsFrom version (pos + (fb.encodeFiles version).length) fbs

structure Image where
  version : UInt32
  fileblocks : List Fileblock
  deriving DecidableEq, Repr

namespace Image

def records (im : Image) : List FileRecord := im.fileblocks.flatMap Fileblock.records

def tableEnd (im : Image) : ℕ := 0x20 + 0x10 * im.fileblocks.length

def head (im : Image) : Bytes :=
  ([MAGIC, im.version, UInt32.ofNat im.fileblocks.length, UInt32.ofNat im.records.length, 0x20,
    UInt32.ofNat im.tableEnd, 0x8000, UInt32.ofNat (maxBlocks im.records)] : List UInt32).flatMap
    word

def encode (im : Image) : Bytes :=
  im.head ++ encodeTable im.version im.tableEnd im.fileblocks ++
    im.fileblocks.flatMap (Fileblock.encodeFiles im.version) ++ word MAGIC

structure Valid (im : Image) : Prop where
  version : im.version ≤ 1
  table : im.tableEnd < 2 ^ 32
  items : im.records.length < 2 ^ 32
  fileblocks : FitsFrom im.version im.tableEnd im.fileblocks

end Image

/-! The blocks of a file. -/

section Blocks
variable {t : Bytes}

theorem encodeBlocks_length (bs : List Block) :
    (bs.flatMap Block.encode).length = 8 * bs.length := by
  induction bs with
  | nil => rfl
  | cons b bs ih =>
    rw [List.flatMap_cons, List.length_append, ih, Block.encode_length, List.length_cons]
    omega

theorem parseBlocks_sound {n pos next : ℕ} {bs : List Block}
    (h : parseBlocks t n pos = .ok (bs, next)) :
    bs.length = n ∧ Stands t pos (bs.flatMap Block.encode) ∧ next = pos + 8 * n := by
  induction n generalizing pos bs with
  | zero =>
    cases h
    exact ⟨rfl, stands_nil, rfl⟩
  | succ n ih =>
    obtain ⟨size, hsize, h⟩ := bind_eq_ok.mp h
    obtain ⟨p4, hp4, h⟩ := bind_eq_ok.mp h
    obtain ⟨sum, hsum, h⟩ := bind_eq_ok.mp h
    obtain ⟨p8, hp8, h⟩ := bind_eq_ok.mp h
    obtain ⟨⟨rest, last⟩, hrest, h⟩ := bind_eq_ok.mp h
    cases h
    obtain rfl := usizeAdd_eq_ok hp4
    obtain rfl := usizeAdd_eq_ok hp8
    obtain ⟨hlen, hstands, rfl⟩ := ih hrest
    have hblock : Stands t pos (Block.encode ⟨size, sum⟩) :=
      stands_append.mpr ⟨u32At_sound hsize, by simpa using u32At_sound hsum⟩
    refine ⟨by rw [List.length_cons, hlen], ?_, by omega⟩
    rw [List.flatMap_cons, stands_append]
    exact ⟨hblock, by simpa using hstands⟩

theorem parseBlocks_complete {pos : ℕ} {bs : List Block}
    (h : Stands t pos (bs.flatMap Block.encode)) (hpos : pos + 8 * bs.length < 2 ^ 64) :
    parseBlocks t bs.length pos = .ok (bs, pos + 8 * bs.length) := by
  induction bs generalizing pos with
  | nil => rfl
  | cons b bs ih =>
    rw [List.flatMap_cons, stands_append, Block.encode, stands_append] at h
    obtain ⟨⟨hsize, hsum⟩, hrest⟩ := h
    rw [List.length_append, word_length, word_length] at hrest
    rw [word_length] at hsum
    rw [List.length_cons] at hpos
    have hrest := ih hrest (by omega)
    simp only [List.length_cons, parseBlocks]
    rw [u32At_complete hsize (by omega), ok_bind, usizeAdd_ok (by omega), ok_bind,
      u32At_complete hsum (by omega), ok_bind, usizeAdd_ok (by omega), ok_bind, hrest, ok_bind]
    have hnext : pos + 8 + 8 * bs.length = pos + 8 * (bs.length + 1) := by omega
    rw [hnext]

end Blocks

/-! One file: the fixed part in the width of the version, then its blocks. -/

section Files
variable {t : Bytes} {version : UInt32}

theorem parseFixed_sound {pos next : ℕ} {size offset : UInt64} {packed : UInt32}
    (h : parseFixed t version pos = .ok ((size, offset, packed), next)) :
    size.toNat < 256 ^ fieldWidth version ∧ offset.toNat < 256 ^ fieldWidth version ∧
      Stands t pos (leBytes (fieldWidth version) size.toNat ++
        leBytes (fieldWidth version) offset.toNat ++ word packed) ∧
      next = pos + 2 * fieldWidth version + 4 := by
  unfold parseFixed at h
  by_cases hv : version = 0
  · rw [if_pos hv] at h
    obtain ⟨size, hsize, h⟩ := bind_eq_ok.mp h
    obtain ⟨p4, hp4, h⟩ := bind_eq_ok.mp h
    obtain ⟨offset, hoffset, h⟩ := bind_eq_ok.mp h
    obtain ⟨p8, hp8, h⟩ := bind_eq_ok.mp h
    obtain ⟨packed, hpacked, h⟩ := bind_eq_ok.mp h
    obtain ⟨p12, hp12, h⟩ := bind_eq_ok.mp h
    cases h
    obtain rfl := usizeAdd_eq_ok hp4
    obtain rfl := usizeAdd_eq_ok hp8
    obtain rfl := usizeAdd_eq_ok hp12
    have hwidth : fieldWidth version = 4 := if_pos hv
    simp only [hwidth, UInt32.toNat_toUInt64, stands_append, List.length_append, leBytes_length]
    exact ⟨size.toNat_lt, offset.toNat_lt,
      ⟨⟨u32At_sound hsize, u32At_sound hoffset⟩, u32At_sound hpacked⟩, trivial⟩
  · rw [if_neg hv] at h
    obtain ⟨size, hsize, h⟩ := bind_eq_ok.mp h
    obtain ⟨p8, hp8, h⟩ := bind_eq_ok.mp h
    obtain ⟨offset, hoffset, h⟩ := bind_eq_ok.mp h
    obtain ⟨p16, hp16, h⟩ := bind_eq_ok.mp h
    obtain ⟨packed, hpacked, h⟩ := bind_eq_ok.mp h
    obtain ⟨p20, hp20, h⟩ := bind_eq_ok.mp h
    cases h
    obtain rfl := usizeAdd_eq_ok hp8
    obtain rfl := usizeAdd_eq_ok hp16
    obtain rfl := usizeAdd_eq_ok hp20
    have hwidth : fieldWidth version = 8 := if_neg hv
    simp only [hwidth, stands_append, List.length_append, leBytes_length]
    exact ⟨size.toNat_lt, offset.toNat_lt,
      ⟨⟨u64At_sound hsize, u64At_sound hoffset⟩, u32At_sound hpacked⟩, trivial⟩

theorem parseFixed_complete {pos : ℕ} {size offset : UInt64} {packed : UInt32}
    (hsize : size.toNat < 256 ^ fieldWidth version)
    (hoffset : offset.toNat < 256 ^ fieldWidth version)
    (h : Stands t pos (leBytes (fieldWidth version) size.toNat ++
      leBytes (fieldWidth version) offset.toNat ++ word packed))
    (hpos : pos + 2 * fieldWidth version + 4 < 2 ^ 64) :
    parseFixed t version pos =
      .ok ((size, offset, packed), pos + 2 * fieldWidth version + 4) := by
  simp only [stands_append, List.length_append, leBytes_length] at h
  obtain ⟨⟨hs, ho⟩, hp⟩ := h
  unfold parseFixed
  by_cases hv : version = 0
  · have hwidth : fieldWidth version = 4 := if_pos hv
    rw [hwidth] at hsize hoffset hs ho hp hpos ⊢
    -- The stored words are the low halves of the 64-bit fields.
    have hsize32 : size.toUInt32.toNat = size.toNat := by
      rw [UInt64.toNat_toUInt32]
      exact Nat.mod_eq_of_lt hsize
    have hoffset32 : offset.toUInt32.toNat = offset.toNat := by
      rw [UInt64.toNat_toUInt32]
      exact Nat.mod_eq_of_lt hoffset
    rw [← hsize32] at hs
    rw [← hoffset32] at ho
    rw [if_pos hv, u32At_complete hs (by omega), ok_bind, usizeAdd_ok (by omega), ok_bind,
      u32At_complete ho (by omega), ok_bind, usizeAdd_ok (by omega), ok_bind,
      u32At_complete hp (by omega), ok_bind, usizeAdd_ok (by omega), ok_bind]
    have hsize64 : size.toUInt32.toUInt64 = size :=
      UInt64.toNat_inj.mp (by rw [UInt32.toNat_toUInt64, hsize32])
    have hoffset64 : offset.toUInt32.toUInt64 = offset :=
      UInt64.toNat_inj.mp (by rw [UInt32.toNat_toUInt64, hoffset32])
    rw [hsize64, hoffset64]
  · have hwidth : fieldWidth version = 8 := if_neg hv
    rw [hwidth] at hs ho hp hpos ⊢
    rw [if_neg hv, u64At_complete hs (by omega), ok_bind, usizeAdd_ok (by omega), ok_bind,
      u64At_complete ho (by omega), ok_bind, usizeAdd_ok (by omega), ok_bind,
      u32At_complete hp (by omega), ok_bind, usizeAdd_ok (by omega), ok_bind]

theorem fromU32_eq_some {n : ℕ} {m : Mode} : Mode.fromU32 n = some m ↔ n = m.toNat := by
  constructor
  · intro h
    unfold Mode.fromU32 at h
    split at h <;> cases h <;> rfl
  · rintro rfl
    cases m <;> rfl

theorem toNat_le_three (m : Mode) : m.toNat ≤ 3 := by
  cases m <;> decide

theorem FileBody.encode_length (f : FileBody) :
    (f.encode version).length = 2 * fieldWidth version + 4 + 8 * f.blocks.length := by
  simp only [FileBody.encode, List.length_append, leBytes_length, encodeBlocks_length]
  omega

theorem checkedAddU32_eq_some {a b : ℕ} {v : UInt32} :
    checkedAddU32 a b = some v ↔ a + b < 2 ^ 32 ∧ v = UInt32.ofNat (a + b) := by
  unfold checkedAddU32
  split_ifs with h
  · rw [Option.some.injEq, eq_comm, and_iff_right h]
  · simp only [false_iff]
    exact fun hc => h hc.1

theorem parseFile_sound {start k pos next : ℕ} {r : FileRecord}
    (h : parseFile t version start k pos = .ok (r, next)) :
    ∃ f : FileBody, f.Fits version ∧ start + k < 2 ^ 32 ∧ r = f.record (start + k) ∧
      Stands t pos (f.encode version) ∧ next = pos + (f.encode version).length := by
  obtain ⟨id, hid, h⟩ := bind_eq_ok.mp h
  obtain ⟨⟨⟨size, offset, packed⟩, p⟩, hfixed, h⟩ := bind_eq_ok.mp h
  obtain ⟨mode, hmode, h⟩ := bind_eq_ok.mp h
  obtain ⟨_, -, h⟩ := bind_eq_ok.mp h
  obtain ⟨⟨blocks, last⟩, hblocks, h⟩ := bind_eq_ok.mp h
  cases h
  obtain ⟨hlt, rfl⟩ := checkedAddU32_eq_some.mp (ofOption_eq_ok.mp hid)
  obtain ⟨hsize, hoffset, hstands, rfl⟩ := parseFixed_sound hfixed
  have hmode := fromU32_eq_some.mp (ofOption_eq_ok.mp hmode)
  obtain ⟨hcount, hbytes, rfl⟩ := parseBlocks_sound hblocks
  have hpacked : mode.toNat * 2 ^ 24 + blocks.length = packed.toNat := by omega
  refine ⟨⟨mode, offset, size, blocks⟩, ⟨hsize, hoffset, by dsimp only; omega⟩, hlt, rfl, ?_, ?_⟩
  · rw [FileBody.encode]
    dsimp only
    rw [hpacked, stands_append]
    refine ⟨hstands, ?_⟩
    simp only [List.length_append, leBytes_length]
    have hstart : pos + (fieldWidth version + fieldWidth version + 4) =
        pos + 2 * fieldWidth version + 4 := by omega
    rwa [hstart]
  · rw [FileBody.encode_length]
    dsimp only
    omega

theorem parseFile_complete {start k pos : ℕ} {f : FileBody} (hf : f.Fits version)
    (hid : start + k < 2 ^ 32) (h : Stands t pos (f.encode version))
    (hpos : pos + (f.encode version).length < 2 ^ 64) :
    parseFile t version start k pos =
      .ok (f.record (start + k), pos + (f.encode version).length) := by
  rw [FileBody.encode_length] at hpos ⊢
  have hmode3 := toNat_le_three f.mode
  have hcount := hf.blocks
  have hlt : f.mode.toNat * 2 ^ 24 + f.blocks.length < 2 ^ 32 := by omega
  have hpacked : (UInt32.ofNat (f.mode.toNat * 2 ^ 24 + f.blocks.length)).toNat =
      f.mode.toNat * 2 ^ 24 + f.blocks.length := ofNat32_toNat hlt
  rw [FileBody.encode, ← word_ofNat hlt, stands_append] at h
  obtain ⟨hfixed, hblocks⟩ := h
  have hfixed := parseFixed_complete hf.size hf.offset hfixed (by omega)
  simp only [List.length_append, leBytes_length, word_length] at hblocks
  have hstart : pos + (fieldWidth version + fieldWidth version + 4) =
      pos + 2 * fieldWidth version + 4 := by omega
  rw [hstart] at hblocks
  have hblocks := parseBlocks_complete hblocks (by omega)
  have hadd : checkedAddU32 start k = some (UInt32.ofNat (start + k)) :=
    checkedAddU32_eq_some.mpr ⟨hid, rfl⟩
  have hhigh : (f.mode.toNat * 2 ^ 24 + f.blocks.length) / 2 ^ 24 = f.mode.toNat := by omega
  have hlow : (f.mode.toNat * 2 ^ 24 + f.blocks.length) % 2 ^ 24 = f.blocks.length := by omega
  have hfrom : Mode.fromU32 f.mode.toNat = some f.mode := fromU32_eq_some.mpr rfl
  have hcap : (withCapacity BLOCK_BYTES f.blocks.length : Outcome FormatError Unit) = .ok () :=
    withCapacity_ok (by unfold BLOCK_BYTES isizeMax; omega)
  unfold parseFile
  rw [hadd, hfixed, ofOption, ok_bind, ok_bind]
  dsimp only
  rw [hpacked, hhigh, hlow, hfrom, hcap, ofOption, ok_bind, ok_bind, hblocks, ok_bind]
  have hnext : pos + 2 * fieldWidth version + 4 + 8 * f.blocks.length =
      pos + (2 * fieldWidth version + 4 + 8 * f.blocks.length) := by omega
  rw [hnext, FileBody.record]

theorem recordsFrom_cons (id : ℕ) (f : FileBody) (fs : List FileBody) :
    recordsFrom id (f :: fs) = f.record id :: recordsFrom (id + 1) fs := by
  simp [recordsFrom]

@[simp] theorem recordsFrom_length (id : ℕ) (fs : List FileBody) :
    (recordsFrom id fs).length = fs.length := by
  simp [recordsFrom]

theorem parseFiles_sound {start n k pos next : ℕ} {rs : List FileRecord}
    (hk : start + k ≤ 2 ^ 32) (h : parseFiles t version start n k pos = .ok (rs, next)) :
    ∃ fs : List FileBody, fs.length = n ∧ (∀ f ∈ fs, f.Fits version) ∧
      start + k + n ≤ 2 ^ 32 ∧ rs = recordsFrom (start + k) fs ∧
      Stands t pos (fs.flatMap (FileBody.encode version)) ∧
      next = pos + (fs.flatMap (FileBody.encode version)).length := by
  induction n generalizing k pos rs with
  | zero =>
    cases h
    exact ⟨[], rfl, by simp, by omega, rfl, stands_nil, rfl⟩
  | succ n ih =>
    obtain ⟨⟨r, p⟩, hr, h⟩ := bind_eq_ok.mp h
    obtain ⟨⟨rest, last⟩, hrest, h⟩ := bind_eq_ok.mp h
    cases h
    obtain ⟨f, hf, hid, rfl, hstands, rfl⟩ := parseFile_sound hr
    obtain ⟨fs, hlen, hfs, hids, rfl, hbytes, rfl⟩ := ih (by omega) hrest
    refine ⟨f :: fs, by simp [hlen], ?_, by omega, ?_, ?_, ?_⟩
    · exact List.forall_mem_cons.mpr ⟨hf, hfs⟩
    · rw [recordsFrom_cons, Nat.add_assoc]
    · rw [List.flatMap_cons, stands_append]
      exact ⟨hstands, hbytes⟩
    · rw [List.flatMap_cons, List.length_append]
      omega

theorem parseFiles_complete {start k pos : ℕ} {fs : List FileBody}
    (hfs : ∀ f ∈ fs, f.Fits version) (hids : start + k + fs.length ≤ 2 ^ 32)
    (h : Stands t pos (fs.flatMap (FileBody.encode version)))
    (hpos : pos + (fs.flatMap (FileBody.encode version)).length < 2 ^ 64) :
    parseFiles t version start fs.length k pos =
      .ok (recordsFrom (start + k) fs,
        pos + (fs.flatMap (FileBody.encode version)).length) := by
  induction fs generalizing k pos with
  | nil => rfl
  | cons f fs ih =>
    rw [List.flatMap_cons, stands_append] at h
    rw [List.flatMap_cons, List.length_append] at hpos ⊢
    rw [List.length_cons] at hids ⊢
    obtain ⟨hf, hfs⟩ := List.forall_mem_cons.mp hfs
    have hid : start + k < 2 ^ 32 := by omega
    have hfile := parseFile_complete hf hid h.1 (by omega)
    have hrest := ih (k := k + 1) hfs (by omega) h.2 (by omega)
    rw [parseFiles, hfile, ok_bind]
    dsimp only
    rw [hrest, ok_bind, recordsFrom_cons, Nat.add_assoc, Nat.add_assoc]

end Files

/-! The fileblocks. Soundness needs the whole table to be in the buffer, as the
unused word of an entry is not read. -/

section Fileblocks
variable {t : Bytes} {version : UInt32}

@[simp] theorem Fileblock.encodeEntry_length (fb : Fileblock) (pos : ℕ) :
    (fb.encodeEntry pos).length = 16 := by
  simp [Fileblock.encodeEntry]

theorem encodeTable_length (pos : ℕ) (fbs : List Fileblock) :
    (encodeTable version pos fbs).length = 0x10 * fbs.length := by
  induction fbs generalizing pos with
  | nil => rfl
  | cons fb fbs ih =>
    rw [encodeTable, List.length_append, ih, Fileblock.encodeEntry_length, List.length_cons]
    omega

theorem parseFileblocks_next {n fb pos next : ℕ} {rs : List FileRecord}
    (h : parseFileblocks t version n fb pos = .ok (rs, next)) :
    pos ≤ next ∧ next ≤ max pos t.length := by
  induction n generalizing fb pos rs with
  | zero =>
    cases h
    exact ⟨le_rfl, le_max_left _ _⟩
  | succ n ih =>
    iterate 2 obtain ⟨_, -, h⟩ := bind_eq_ok.mp h
    obtain ⟨start, -, h⟩ := bind_eq_ok.mp h
    iterate 4 obtain ⟨_, -, h⟩ := bind_eq_ok.mp h
    dsimp only at h
    split_ifs at h
    obtain ⟨⟨files, p⟩, hfiles, h⟩ := bind_eq_ok.mp h
    obtain ⟨⟨rest, last⟩, hrest, h⟩ := bind_eq_ok.mp h
    cases h
    have hstart := start.toNat_lt
    obtain ⟨fs, -, -, -, -, hstands, rfl⟩ := parseFiles_sound (by omega) hfiles
    have hend := hstands.end_le_max
    have hrest := ih hrest
    omega

theorem parseFileblocks_sound {n fb pos next : ℕ} {rs : List FileRecord}
    (htable : 0x20 + 0x10 * (fb + n) ≤ t.length)
    (h : parseFileblocks t version n fb pos = .ok (rs, next)) :
    ∃ fbs : List Fileblock, fbs.length = n ∧ FitsFrom version pos fbs ∧
      rs = fbs.flatMap Fileblock.records ∧
      Stands t (0x20 + 0x10 * fb) (encodeTable version pos fbs) ∧
      Stands t pos (fbs.flatMap (Fileblock.encodeFiles version)) ∧
      next = pos + (fbs.flatMap (Fileblock.encodeFiles version)).length := by
  induction n generalizing fb pos rs with
  | zero =>
    cases h
    exact ⟨[], rfl, trivial, rfl, stands_nil, stands_nil, rfl⟩
  | succ n ih =>
    obtain ⟨row, hrow, h⟩ := bind_eq_ok.mp h
    obtain ⟨base, hbase, h⟩ := bind_eq_ok.mp h
    obtain ⟨start, hstart, h⟩ := bind_eq_ok.mp h
    obtain ⟨b4, hb4, h⟩ := bind_eq_ok.mp h
    obtain ⟨count, hcount, h⟩ := bind_eq_ok.mp h
    obtain ⟨b8, hb8, h⟩ := bind_eq_ok.mp h
    obtain ⟨offset, hoffset, h⟩ := bind_eq_ok.mp h
    dsimp only at h
    split_ifs at h with hcursor
    obtain ⟨⟨files, p⟩, hfiles, h⟩ := bind_eq_ok.mp h
    obtain ⟨⟨rest, last⟩, hrest, h⟩ := bind_eq_ok.mp h
    cases h
    have hcursor : pos = offset.toNat := not_not.mp hcursor
    have hstart32 := start.toNat_lt
    obtain ⟨fs, hlen, hfs, hids, rfl, hbytes, rfl⟩ := parseFiles_sound (by omega) hfiles
    obtain ⟨fbs, hfbs, hfits, rfl, hentries, hfollow, rfl⟩ := ih (by omega) hrest
    obtain rfl := usizeMul_eq_ok hrow
    obtain rfl := usizeAdd_eq_ok hbase
    obtain rfl := usizeAdd_eq_ok hb4
    obtain rfl := usizeAdd_eq_ok hb8
    have hfourth : 0x20 + fb * 0x10 + 12 + 4 ≤ t.length := by omega
    obtain ⟨unused, hunused⟩ := exists_word hfourth
    have hentry : Stands t (0x20 + fb * 0x10) (Fileblock.encodeEntry ⟨start, unused, fs⟩ pos) := by
      simp only [Fileblock.encodeEntry, stands_append, List.length_append, leBytes_length,
        word_length, hlen, hcursor]
      exact ⟨⟨⟨u32At_sound hstart, u32At_sound hcount⟩, u32At_sound hoffset⟩, hunused⟩
    have hbase : 0x20 + fb * 0x10 = 0x20 + 0x10 * fb := by omega
    have hnext : 0x20 + 0x10 * (fb + 1) = 0x20 + 0x10 * fb + 16 := by omega
    rw [hbase] at hentry
    rw [hnext] at hentries
    refine ⟨⟨start, unused, fs⟩ :: fbs, by simp [hfbs], ⟨⟨?_, ?_, ?_, hfs⟩, hfits⟩, ?_, ?_, ?_, ?_⟩
    · rw [hcursor]
      exact offset.toNat_lt
    · rw [hlen]
      exact count.toNat_lt
    · rw [hlen]
      exact hids
    · rw [List.flatMap_cons]
      rfl
    · rw [encodeTable, stands_append, Fileblock.encodeEntry_length]
      exact ⟨hentry, hentries⟩
    · rw [List.flatMap_cons, stands_append]
      exact ⟨hbytes, hfollow⟩
    · rw [List.flatMap_cons, List.length_append, ← Nat.add_assoc]
      rfl

theorem parseFileblocks_complete {fb pos : ℕ} {fbs : List Fileblock}
    (hfits : FitsFrom version pos fbs) (hfb : 0x20 + 0x10 * (fb + fbs.length) < 2 ^ 32)
    (htable : Stands t (0x20 + 0x10 * fb) (encodeTable version pos fbs))
    (h : Stands t pos (fbs.flatMap (Fileblock.encodeFiles version)))
    (hpos : pos + (fbs.flatMap (Fileblock.encodeFiles version)).length < 2 ^ 64) :
    parseFileblocks t version fbs.length fb pos =
      .ok (fbs.flatMap Fileblock.records,
        pos + (fbs.flatMap (Fileblock.encodeFiles version)).length) := by
  induction fbs generalizing fb pos with
  | nil => rfl
  | cons b fbs ih =>
    obtain ⟨hb, hfits⟩ := hfits
    rw [encodeTable, stands_append, Fileblock.encodeEntry_length] at htable
    rw [List.flatMap_cons, stands_append] at h
    rw [List.flatMap_cons, List.length_append] at hpos
    rw [List.length_cons] at hfb ⊢
    obtain ⟨hentry, hentries⟩ := htable
    have hnext : 0x20 + 0x10 * fb + 16 = 0x20 + 0x10 * (fb + 1) := by omega
    rw [hnext] at hentries
    have hrest := ih hfits (by omega) hentries h.2 (by omega)
    have hfilesEnd : pos + (b.encodeFiles version).length < 2 ^ 64 := by omega
    have hids : b.fileidStart.toNat + 0 + b.files.length ≤ 2 ^ 32 := hb.ids
    have hfiles : parseFiles t version b.fileidStart.toNat b.files.length 0 pos =
        .ok (b.records, pos + (b.encodeFiles version).length) :=
      parseFiles_complete hb.files hids h.1 hfilesEnd
    -- The three words of the entry that are read.
    have hcount : (UInt32.ofNat b.files.length).toNat = b.files.length :=
      ofNat32_toNat hb.count
    have hcursor : (UInt32.ofNat pos).toNat = pos := ofNat32_toNat hb.cursor
    rw [Fileblock.encodeEntry, ← word_ofNat hb.count, ← word_ofNat hb.cursor] at hentry
    simp only [stands_append, List.length_append, word_length] at hentry
    obtain ⟨⟨⟨hw0, hw1⟩, hw2⟩, -⟩ := hentry
    have hbase : fb * 0x10 = 0x10 * fb := Nat.mul_comm _ _
    rw [parseFileblocks, usizeMul_ok (by omega), ok_bind, hbase, usizeAdd_ok (by omega), ok_bind,
      u32At_complete hw0 (by omega), ok_bind, usizeAdd_ok (by omega), ok_bind,
      u32At_complete hw1 (by omega), ok_bind, usizeAdd_ok (by omega), ok_bind,
      u32At_complete hw2 (by omega), ok_bind]
    dsimp only
    rw [hcursor, if_neg (by simp), hcount, hfiles, ok_bind]
    dsimp only
    rw [hrest, ok_bind, List.flatMap_cons, List.flatMap_cons, List.length_append, ← Nat.add_assoc]

end Fileblocks

/-! The whole table. A valid image is far shorter than the address space, so no
cursor overflows however many bytes follow. -/

section Table

theorem FileBody.encode_length_le {version : UInt32} {f : FileBody} (hf : f.Fits version) :
    (f.encode version).length ≤ 2 ^ 28 := by
  have hwidth : fieldWidth version ≤ 8 := by
    unfold fieldWidth
    split_ifs <;> omega
  have hblocks := hf.blocks
  rw [FileBody.encode_length]
  omega

theorem encodeFiles_length_le {version : UInt32} {fs : List FileBody}
    (hfs : ∀ f ∈ fs, f.Fits version) :
    (fs.flatMap (FileBody.encode version)).length ≤ 2 ^ 28 * fs.length := by
  induction fs with
  | nil => simp
  | cons f fs ih =>
    obtain ⟨hf, hfs⟩ := List.forall_mem_cons.mp hfs
    have hfile := FileBody.encode_length_le hf
    have hrest := ih hfs
    rw [List.flatMap_cons, List.length_append, List.length_cons]
    omega

theorem encodeFileblocks_length_le {version : UInt32} {pos : ℕ} {fbs : List Fileblock}
    (hfits : FitsFrom version pos fbs) :
    (fbs.flatMap (Fileblock.encodeFiles version)).length ≤
      2 ^ 28 * (fbs.flatMap Fileblock.records).length := by
  induction fbs generalizing pos with
  | nil => simp
  | cons fb fbs ih =>
    obtain ⟨hfb, hfits⟩ := hfits
    have hfiles : (fb.encodeFiles version).length ≤ 2 ^ 28 * fb.files.length :=
      encodeFiles_length_le hfb.files
    have hrest := ih hfits
    have hrecords : fb.records.length = fb.files.length := recordsFrom_length _ _
    rw [List.flatMap_cons, List.flatMap_cons, List.length_append, List.length_append, hrecords]
    omega

theorem Image.head_length (im : Image) : im.head.length = 0x20 := by
  simp [Image.head]

theorem foldl_max_lt {rs : List FileRecord} {m bound : ℕ} (hm : m < bound)
    (hrs : ∀ r ∈ rs, r.numBlocks < bound) :
    rs.foldl (fun m r => max m r.numBlocks) m < bound := by
  induction rs generalizing m with
  | nil => exact hm
  | cons r rs ih =>
    obtain ⟨hr, hrs⟩ := List.forall_mem_cons.mp hrs
    exact ih (max_lt hm hr) hrs

theorem records_numBlocks {version : UInt32} {pos : ℕ} {fbs : List Fileblock}
    (hfits : FitsFrom version pos fbs) :
    ∀ r ∈ fbs.flatMap Fileblock.records, r.numBlocks < 2 ^ 24 := by
  induction fbs generalizing pos with
  | nil => simp
  | cons fb fbs ih =>
    obtain ⟨hfb, hfits⟩ := hfits
    rw [List.flatMap_cons]
    intro r hr
    rcases List.mem_append.mp hr with hr | hr
    · obtain ⟨⟨f, id⟩, hf, rfl⟩ := List.mem_map.mp hr
      exact (hfb.files f (List.fst_mem_of_mem_zipIdx hf)).blocks
    · exact ih hfits r hr

theorem Image.stands_head_iff {t : Bytes} {im : Image} :
    Stands t 0 im.head ↔ Stands t 0 (word MAGIC) ∧ Stands t 4 (word im.version) ∧
      Stands t 8 (word (UInt32.ofNat im.fileblocks.length)) ∧
      Stands t 12 (word (UInt32.ofNat im.records.length)) ∧ Stands t 16 (word 0x20) ∧
      Stands t 20 (word (UInt32.ofNat im.tableEnd)) ∧ Stands t 24 (word 0x8000) ∧
      Stands t 28 (word (UInt32.ofNat (maxBlocks im.records))) := by
  simp [Image.head, stands_append]

theorem parse_complete {t : Bytes} {im : Image} (hvalid : im.Valid) (h : Stands t 0 im.encode) :
    parse t = .ok im.records := by
  obtain ⟨hversion, htable, hitems, hfits⟩ := hvalid
  have hfiles := encodeFileblocks_length_le hfits
  have hlarge : maxBlocks im.records < 2 ^ 24 :=
    foldl_max_lt (by norm_num) (records_numBlocks hfits)
  have hend : im.tableEnd + (im.fileblocks.flatMap (Fileblock.encodeFiles im.version)).length + 4 <
      2 ^ 64 := by
    unfold Image.records at hitems
    omega
  -- The four parts, each at its position.
  simp only [Image.encode, stands_append, List.length_append, Image.head_length,
    encodeTable_length, Nat.zero_add] at h
  obtain ⟨⟨⟨hhead, hentries⟩, hbytes⟩, hfoot⟩ := h
  have htableEnd : 0x20 + 0x10 * im.fileblocks.length = im.tableEnd := rfl
  rw [htableEnd] at hbytes hfoot
  obtain ⟨h0, h1, h2, h3, h4, h5, h6, h7⟩ := Image.stands_head_iff.mp hhead
  have hrows : 0x20 + 0x10 * (0 + im.fileblocks.length) < 2 ^ 32 := by omega
  have hloop : parseFileblocks t im.version im.fileblocks.length 0 im.tableEnd = .ok (im.records,
      im.tableEnd + (im.fileblocks.flatMap (Fileblock.encodeFiles im.version)).length) :=
    parseFileblocks_complete hfits hrows hentries hbytes (by omega)
  have hknown : ¬ im.version > 1 := UInt32.not_lt.mpr hversion
  have hcount : (UInt32.ofNat im.fileblocks.length).toNat = im.fileblocks.length :=
    ofNat32_toNat (by omega)
  have hitemsWord : (UInt32.ofNat im.records.length).toNat = im.records.length :=
    ofNat32_toNat hitems
  have htableWord : (UInt32.ofNat im.tableEnd).toNat = im.tableEnd :=
    ofNat32_toNat htable
  have hlargeWord : (UInt32.ofNat (maxBlocks im.records)).toNat = maxBlocks im.records :=
    ofNat32_toNat (by omega)
  have hcap : (withCapacity RECORD_BYTES im.records.length : Outcome FormatError Unit) = .ok () :=
    withCapacity_ok (by unfold RECORD_BYTES isizeMax; omega)
  unfold parse
  simp only [Nat.reduceMul, Nat.zero_mul]
  rw [u32At_complete h0 (by omega), ok_bind, if_neg (by simp),
    u32At_complete h1 (by omega), ok_bind,
    u32At_complete h2 (by omega), ok_bind, u32At_complete h3 (by omega), ok_bind,
    u32At_complete h4 (by omega), ok_bind, u32At_complete h5 (by omega), ok_bind,
    u32At_complete h6 (by omega), ok_bind, u32At_complete h7 (by omega), ok_bind,
    if_neg hknown, if_neg (by decide), hcount, usizeMul_ok (by omega), ok_bind,
    usizeAdd_ok (by omega), ok_bind, htableWord, htableEnd, if_neg (by simp), hitemsWord, hcap,
    ok_bind, hloop, ok_bind]
  dsimp only
  rw [u32At_complete hfoot (by omega), ok_bind, if_neg (by simp), if_neg (by simp), hlargeWord,
    if_neg (by simp)]

theorem parse_sound {t : Bytes} {rs : List FileRecord} (h : parse t = .ok rs) :
    ∃ im : Image, im.Valid ∧ im.records = rs ∧ Stands t 0 im.encode := by
  obtain ⟨magic, h0, h⟩ := bind_eq_ok.mp h
  split_ifs at h with hmagic
  obtain ⟨version, h1, h⟩ := bind_eq_ok.mp h
  obtain ⟨count, h2, h⟩ := bind_eq_ok.mp h
  obtain ⟨items, h3, h⟩ := bind_eq_ok.mp h
  obtain ⟨offset1, h4, h⟩ := bind_eq_ok.mp h
  obtain ⟨offset2, h5, h⟩ := bind_eq_ok.mp h
  obtain ⟨blocksize, h6, h⟩ := bind_eq_ok.mp h
  obtain ⟨largest, h7, h⟩ := bind_eq_ok.mp h
  split_ifs at h with hversion hblocksize
  obtain ⟨rows, hrows, h⟩ := bind_eq_ok.mp h
  obtain ⟨tableEnd, htableEnd, h⟩ := bind_eq_ok.mp h
  split_ifs at h with hoffsets
  obtain ⟨_, -, h⟩ := bind_eq_ok.mp h
  obtain ⟨⟨out, pos⟩, hloop, h⟩ := bind_eq_ok.mp h
  obtain ⟨foot, hfoot, h⟩ := bind_eq_ok.mp h
  split_ifs at h with hfootMagic hitems hlargest
  cases h
  obtain rfl := usizeMul_eq_ok hrows
  obtain rfl := usizeAdd_eq_ok htableEnd
  rw [not_or, not_not, not_not] at hoffsets
  rw [not_not] at hmagic hblocksize hfootMagic hitems hlargest
  obtain ⟨hoffset1, hoffset2⟩ := hoffsets
  -- The footer stands after the table, so the unused words are in the buffer.
  have hle := (parseFileblocks_next hloop).1
  have hfootEnd := u32At_ok hfoot
  have htable : 0x20 + 0x10 * (0 + count.toNat) ≤ t.length := by omega
  obtain ⟨fbs, hlen, hfits, hrecords, hentries, hbytes, hpos⟩ := parseFileblocks_sound htable hloop
  have hend : (⟨version, fbs⟩ : Image).tableEnd = offset2.toNat := by
    rw [hoffset2, ← hlen]
    rfl
  refine ⟨⟨version, fbs⟩, ⟨UInt32.not_lt.mp hversion, ?_, ?_, ?_⟩, hrecords.symm, ?_⟩
  · rw [hend]
    exact offset2.toNat_lt
  · rw [Image.records, ← hrecords, hitems]
    exact items.toNat_lt
  · rw [hend]
    exact hfits
  · have hhead : Stands t 0 (⟨version, fbs⟩ : Image).head := by
      rw [Image.stands_head_iff, Image.records, ← hrecords, hend, hitems, hlargest, hlen]
      have h32 : offset1 = 0x20 := UInt32.toNat_inj.mp hoffset1
      have hsize : blocksize = 0x8000 := UInt32.toNat_inj.mp hblocksize
      rw [hmagic] at h0
      rw [h32] at h4
      rw [hsize] at h6
      simp only [UInt32.ofNat_toNat]
      exact ⟨u32At_sound h0, u32At_sound h1, u32At_sound h2, u32At_sound h3, u32At_sound h4,
        u32At_sound h5, u32At_sound h6, u32At_sound h7⟩
    have hfoot := u32At_sound hfoot
    rw [hfootMagic, hpos] at hfoot
    have hrow : 0x20 + 0x10 * fbs.length = offset2.toNat := hend
    simp only [Image.encode, stands_append, List.length_append, Image.head_length,
      encodeTable_length, Nat.zero_add, hend, hrow]
    exact ⟨⟨⟨hhead, hentries⟩, hbytes⟩, hfoot⟩

theorem parse_numBlocks {t : Bytes} {rs : List FileRecord} (h : parse t = .ok rs) :
    ∀ r ∈ rs, r.numBlocks < 2 ^ 24 := by
  obtain ⟨im, hvalid, rfl, -⟩ := parse_sound h
  exact records_numBlocks hvalid.fileblocks

/-- The parser accepts the buffers that start with a valid image's encoding,
whatever follows it, and returns the image's records. -/
theorem parse_eq_ok_iff {t : Bytes} {rs : List FileRecord} :
    parse t = .ok rs ↔ ∃ im : Image, im.Valid ∧ im.records = rs ∧ im.encode <+: t := by
  constructor
  · intro h
    obtain ⟨im, hvalid, hrecords, hstands⟩ := parse_sound h
    exact ⟨im, hvalid, hrecords, stands_zero.mp hstands⟩
  · rintro ⟨im, hvalid, rfl, hprefix⟩
    exact parse_complete hvalid (stands_zero.mpr hprefix)

/-- A version 0 table: an empty fileblock, then one of two files. -/
def twoFileblocks : Image :=
  ⟨0, [⟨9, 0, []⟩, ⟨0xfffffffe, 1, [⟨.plain, 0, 3, [⟨3, 4⟩]⟩, ⟨.encrypted, 3, 0, []⟩]⟩]⟩

theorem twoFileblocks_parse :
    parse (twoFileblocks.encode ++ [1, 2]) = .ok [⟨0xfffffffe, .plain, 0, 3, [⟨3, 4⟩]⟩,
      ⟨0xffffffff, .encrypted, 3, 0, []⟩] := by
  have hfits : FitsFrom 0 0x40 twoFileblocks.fileblocks := by
    refine ⟨⟨by decide, by decide, by decide, by simp⟩, ⟨by decide, by decide, by decide, ?_⟩,
      trivial⟩
    intro f hf
    simp only [List.mem_cons, List.not_mem_nil, or_false] at hf
    rcases hf with rfl | rfl
    all_goals exact ⟨by decide, by decide, by decide⟩
  exact parse_eq_ok_iff.mpr
    ⟨twoFileblocks, ⟨by decide, by decide, by decide, hfits⟩, by decide, List.prefix_append _ _⟩

end Table

end Checksums
end Steam2Fs
