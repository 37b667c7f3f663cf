import Steam2Fs.Format

/-!
# Checksums, and the codecs taken from other crates

`adler32` and `crc32` are the standard definitions, one byte at a time. The
zlib decoder and AES-128-CFB are parameters: `Codec` bundles them with the
documented facts the readers rely on, that a length-limited read returns at
most its limit and that a stream cipher keeps the length of its input.
-/

namespace Steam2Fs

structure Adler32 where
  a : ℕ
  b : ℕ

namespace Adler32

def fromChecksum (sum : ℕ) : Adler32 := ⟨sum % 65536, sum / 65536⟩

def writeByte (s : Adler32) (x : UInt8) : Adler32 :=
  let a := (s.a + x.toNat) % 65521
  ⟨a, (s.b + a) % 65521⟩

def writeSlice (s : Adler32) (bs : Bytes) : Adler32 := bs.foldl writeByte s

def checksum (s : Adler32) : UInt32 := UInt32.ofNat (s.b * 65536 + s.a)

end Adler32

/-- One bit of the reflected CRC-32 shift register. -/
def crcBit (c : ℕ) : ℕ := if c % 2 = 1 then (c / 2) ^^^ 0xEDB88320 else c / 2

def crcByte (c : ℕ) (x : UInt8) : ℕ := crcBit^[8] (c ^^^ x.toNat)

/-- `crc32fast`: the register after the chunks fed to `Hasher::update`. -/
def crc32 (bs : Bytes) : UInt32 :=
  UInt32.ofNat (bs.foldl crcByte 0xFFFFFFFF ^^^ 0xFFFFFFFF)

abbrev Key := Vector UInt8 16

structure Codec where
  /-- `ZlibDecoder::new(z).read_to_end`. -/
  zlibToEnd : Bytes → Except String Bytes
  /-- `ZlibDecoder::new(z).take(n).read_to_end`. -/
  zlibTake : ℕ → Bytes → Except String Bytes
  zlibTake_length : ∀ n z out, zlibTake n z = .ok out → out.length ≤ n
  /-- `cfb_mode::Decryptor<Aes128>` with a zero IV. -/
  aesCfb : Key → Bytes → Bytes
  aesCfb_length : ∀ k b, (aesCfb k b).length = b.length

end Steam2Fs
