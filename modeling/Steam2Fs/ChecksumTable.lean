import Steam2Fs.Codec

/-!
# The per-version checksum and file-id table

The three nested loops of `parse` (fileblocks, files of a fileblock, blocks of
a file) share one cursor, which each of them takes and hands back. Records
carry the fixed-width fields of the table, so sizes and offsets are 64-bit and
a block's stored size and checksum are 32-bit by construction.
-/

namespace Steam2Fs

inductive Mode where
  | plain
  | compressed
  | compressedEncrypted
  | encrypted
  deriving DecidableEq, Repr

namespace Mode

def fromU32 : ℕ → Option Mode
  | 0 => some .plain
  | 1 => some .compressed
  | 2 => some .compressedEncrypted
  | 3 => some .encrypted
  | _ => none

def isEncrypted : Mode → Bool
  | .compressedEncrypted | .encrypted => true
  | .plain | .compressed => false

end Mode

structure Block where
  compressedSize : UInt32
  checksum : UInt32
  deriving DecidableEq, Repr

structure FileRecord where
  fileId : UInt32
  mode : Mode
  offset : UInt64
  size : UInt64
  blocks : List Block
  deriving DecidableEq, Repr

namespace FileRecord

def numBlocks (r : FileRecord) : ℕ := r.blocks.length

def blockRange (r : FileRecord) (i : ℕ) : ℕ × ℕ :=
  let start := i * BLOCK_SIZE
  (start, min (start + BLOCK_SIZE) r.size.toNat)

def blockLen (r : FileRecord) (i : ℕ) : ℕ :=
  ((r.blockRange i).2 + 2 ^ 64 - (r.blockRange i).1) % 2 ^ 64

end FileRecord

namespace Checksums

def MAGIC : UInt32 := 0x34457234
def RECORD_BYTES : ℕ := 48
def BLOCK_BYTES : ℕ := 8

def parseBlocks (t : Bytes) : ℕ → ℕ → Outcome FormatError (List Block × ℕ)
  | 0, pos => .ok ([], pos)
  | n + 1, pos => do
    let compressedSize ← u32At t pos
    let checksum ← u32At t (← usizeAdd pos 4)
    let (rest, pos) ← parseBlocks t n (← usizeAdd pos 8)
    .ok (⟨compressedSize, checksum⟩ :: rest, pos)

def parseFixed (t : Bytes) (version : UInt32) (pos : ℕ) :
    Outcome FormatError ((UInt64 × UInt64 × UInt32) × ℕ) := do
  if version = 0 then
    let size ← u32At t pos
    let offset ← u32At t (← usizeAdd pos 4)
    let packed ← u32At t (← usizeAdd pos 8)
    .ok ((size.toUInt64, offset.toUInt64, packed), ← usizeAdd pos 12)
  else
    let size ← u64At t pos
    let offset ← u64At t (← usizeAdd pos 8)
    let packed ← u32At t (← usizeAdd pos 16)
    .ok ((size, offset, packed), ← usizeAdd pos 20)

/-- `u32::checked_add`. -/
def checkedAddU32 (a b : ℕ) : Option UInt32 :=
  if a + b < 2 ^ 32 then some (UInt32.ofNat (a + b)) else none

def parseFile (t : Bytes) (version : UInt32) (start k pos : ℕ) :
    Outcome FormatError (FileRecord × ℕ) := do
  let fileId ← Outcome.ofOption (.malformed "checksum table: file id overflow")
    (checkedAddU32 start k)
  let ((size, offset, packed), pos) ← parseFixed t version pos
  let high := packed.toNat / 2 ^ 24
  let mode ← Outcome.ofOption
    (.malformed s!"checksum table: file {fileId.toNat} mode {high}") (Mode.fromU32 high)
  let numBlocks := packed.toNat % 2 ^ 24
  let _ ← withCapacity BLOCK_BYTES numBlocks
  let (blocks, pos) ← parseBlocks t numBlocks pos
  .ok (⟨fileId, mode, offset, size, blocks⟩, pos)

def parseFiles (t : Bytes) (version : UInt32) (start : ℕ) :
    ℕ → ℕ → ℕ → Outcome FormatError (List FileRecord × ℕ)
  | 0, _, pos => .ok ([], pos)
  | remaining + 1, k, pos => do
    let (record, pos) ← parseFile t version start k pos
    let (rest, pos) ← parseFiles t version start remaining (k + 1) pos
    .ok (record :: rest, pos)

def parseFileblocks (t : Bytes) (version : UInt32) :
    ℕ → ℕ → ℕ → Outcome FormatError (List FileRecord × ℕ)
  | 0, _, pos => .ok ([], pos)
  | remaining + 1, fb, pos => do
    let base ← usizeAdd 0x20 (← usizeMul fb 0x10)
    let fileidStart ← u32At t base
    let filecount ← u32At t (← usizeAdd base 4)
    let offset := (← u32At t (← usizeAdd base 8)).toNat
    if pos ≠ offset then
      .err (.malformed (s!"checksum table: fileblock {fb} offset " ++ hexText 0 offset ++
        " != cursor " ++ hexText 0 pos))
    else
      let (files, pos) ← parseFiles t version fileidStart.toNat filecount.toNat 0 pos
      let (rest, pos) ← parseFileblocks t version remaining (fb + 1) pos
      .ok (files ++ rest, pos)

def maxBlocks (records : List FileRecord) : ℕ :=
  records.foldl (fun m r => max m r.numBlocks) 0

def parse (t : Bytes) : Outcome FormatError (List FileRecord) := do
  let h (i : ℕ) := u32At t (i * 4)
  if (← h 0) ≠ MAGIC then .err (.malformed "checksum table: bad magic")
  else
  let version ← h 1
  let numFileblocks := (← h 2).toNat
  let numItems := (← h 3).toNat
  let offset1 := (← h 4).toNat
  let offset2 := (← h 5).toNat
  let blocksize ← h 6
  let largestNumBlocks ← h 7
  if version > 1 then
    .err (.malformed s!"checksum table: unknown version {version.toNat}")
  else if blocksize.toNat ≠ BLOCK_SIZE then
    .err (.malformed ("checksum table: block size " ++ hexText 0 blocksize.toNat))
  else
  let tableEnd ← usizeAdd 0x20 (← usizeMul 0x10 numFileblocks)
  if offset1 ≠ 0x20 ∨ offset2 ≠ tableEnd then
    .err (.malformed "checksum table: unexpected table offsets")
  else
  let _ ← withCapacity RECORD_BYTES numItems
  let (out, pos) ← parseFileblocks t version numFileblocks 0 offset2
  if (← u32At t pos) ≠ MAGIC then .err (.malformed "checksum table: bad footer magic")
  else if out.length ≠ numItems then
    .err (.malformed s!"checksum table: {out.length} files but header says {numItems}")
  else if maxBlocks out ≠ largestNumBlocks.toNat then
    .err (.malformed "checksum table: largest block count mismatch")
  else .ok out

end Checksums
end Steam2Fs
