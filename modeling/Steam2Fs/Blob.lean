import Steam2Fs.Codec

/-!
# The blob key/value container

`parseFrom` is the entry loop of `Blob::parse`. Every entry takes at least six
bytes, so the declared total is enough fuel. `decompress` unwraps the
compressed form and `VersionMeta.fromBlob` reads the top-level values of a
version blob.
-/

namespace Steam2Fs

def MAGIC_PLAIN : UInt16 := 0x5001
def MAGIC_COMPRESSED : UInt16 := 0x4301

namespace Keys
def FORMAT : UInt32 := 0
def MANIFEST_FINGERPRINT : UInt32 := 2
def MANIFEST : UInt32 := 3
def CHECKSUMS : UInt32 := 4
def DAT_CRC : UInt32 := 7
def OWN_CRC : UInt32 := 10
def PREV_VERSION : UInt32 := 11
def PREV_CRC : UInt32 := 12
def DAT_SIZE : UInt32 := 13
end Keys

/-- `u32::to_le_bytes`. -/
def leBytes32 (v : UInt32) : Bytes := leBytes 4 v.toNat

/-- One key/value pair, with where its value sits in the parsed buffer. -/
structure Blob.Entry where
  key : Bytes
  value : Bytes
  valueOffset : ℕ
  deriving DecidableEq, Repr

structure Blob where
  entries : List Blob.Entry
  deriving DecidableEq, Repr

namespace Blob

def parseEntry (data : Bytes) (pos : ℕ) : Outcome FormatError (Blob.Entry × ℕ) := do
  let klen ← u16At data pos
  let vlen ← u32At data (← usizeAdd pos 2)
  let pos ← usizeAdd pos 6
  let valueOffset ← usizeAdd pos klen.toNat
  let key ← Outcome.ofOption (.malformed "blob key truncated") (getRange data pos valueOffset)
  let valueEnd ← usizeAdd valueOffset vlen.toNat
  let value ← Outcome.ofOption (.malformed "blob value truncated")
    (getRange data valueOffset valueEnd)
  let next ← usizeAdd pos (← usizeAdd klen.toNat vlen.toNat)
  .ok (⟨key, value, valueOffset⟩, next)

def parseFrom (data : Bytes) (total : ℕ) : ℕ → ℕ → Outcome FormatError (List Blob.Entry)
  -- Out of fuel only at `total ≤ pos`, where the loop has ended anyway.
  | 0, _ => .ok []
  | fuel + 1, pos =>
    if pos < total then do
      let (entry, next) ← parseEntry data pos
      let rest ← parseFrom data total fuel next
      .ok (entry :: rest)
    else .ok []

def parse (data : Bytes) : Outcome FormatError Blob := do
  let magic ← u16At data 0
  if magic ≠ MAGIC_PLAIN then
    .err (.malformed ("bad blob magic " ++ hexText 4 magic.toNat))
  else
    let total := (← u32At data 2).toNat
    if total > data.length then
      .err (.malformed s!"blob total_size {total} exceeds buffer {data.length}")
    else
      let entries ← parseFrom data total total 10
      .ok ⟨entries⟩

def get (b : Blob) (key : Bytes) : Option Bytes :=
  (b.entries.find? fun e => e.key = key).map Entry.value

def missingKey (key : UInt32) : FormatError := .malformed s!"blob is missing key {key.toNat}"

def valueOffset (b : Blob) (key : UInt32) : Outcome FormatError ℕ :=
  Outcome.ofOption (missingKey key)
    ((b.entries.find? fun e => e.key = leBytes32 key).map Entry.valueOffset)

def getU32Key (b : Blob) (key : UInt32) : Option Bytes := b.get (leBytes32 key)

def require (b : Blob) (key : UInt32) : Outcome FormatError Bytes :=
  Outcome.ofOption (missingKey key) (b.getU32Key key)

def u32 (b : Blob) (key : UInt32) : Outcome FormatError UInt32 := do
  let v ← b.require key
  if v.length ≠ 4 then
    .err (.malformed s!"key {key.toNat}: expected 4 bytes, got {v.length}")
  else u32At v 0

def u32OrU64 (b : Blob) (key : UInt32) : Outcome FormatError UInt64 := do
  let v ← b.require key
  match v.length with
  | 4 => UInt32.toUInt64 <$> u32At v 0
  | 8 => u64At v 0
  | n => .err (.malformed s!"key {key.toNat}: expected 4 or 8 bytes, got {n}")

end Blob

/-- Decompress a `0x4301` compressed blob into its plain form. -/
def decompress (codec : Codec) (data : Bytes) : Outcome FormatError Bytes := do
  let magic ← u16At data 0
  if magic ≠ MAGIC_COMPRESSED then
    .err (.malformed ("bad compressed blob magic " ++ hexText 4 magic.toNat))
  else
    let packed := (← u64At data 2).toNat
    let unpacked := (← u64At data 10).toNat
    let body ← Outcome.ofOption (.malformed "compressed blob body truncated")
      (getRange data 20 (min packed data.length))
    -- The declared size is reserved before a byte of it has been inflated.
    let _ ← withCapacity 1 unpacked
    match codec.zlibToEnd body with
    | .error e => .err (.zlib e)
    | .ok out =>
      if out.length ≠ unpacked then
        .err (.malformed s!"compressed blob: expected {unpacked} bytes, got {out.length}")
      else .ok out

structure VersionMeta where
  format : UInt32
  ownCrc : UInt32
  datCrc : UInt32
  datSize : UInt64
  /-- `none` for a root (previous version 0xffffffff). -/
  prev : Option (UInt32 × UInt32)
  deriving DecidableEq, Repr

def VersionMeta.fromBlob (blob : Blob) : Outcome FormatError VersionMeta := do
  let prevVersion ← blob.u32 Keys.PREV_VERSION
  let prevCrc ← blob.u32 Keys.PREV_CRC
  let format ← blob.u32 Keys.FORMAT
  let ownCrc ← blob.u32 Keys.OWN_CRC
  let datCrc ← blob.u32 Keys.DAT_CRC
  let datSize ← blob.u32OrU64 Keys.DAT_SIZE
  .ok ⟨format, ownCrc, datCrc, datSize,
    if prevVersion ≠ 0xffffffff then some (prevVersion, prevCrc) else none⟩

end Steam2Fs
