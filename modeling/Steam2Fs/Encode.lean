import Steam2Fs.VersionBlob

/-!
# Encoders for the on-disk formats

The dump's writers are not part of the repository; these encoders follow the
layouts its format comments describe, and are the other half of the parsers'
statements. Length and checksum fields are computed, every other field is
free. Compressed streams are zlib streams of one stored block, which
`Codec.stored` reads back.
-/

namespace Steam2Fs

def word (v : UInt32) : Bytes := leBytes 4 v.toNat

def Node.encode (n : Node) : Bytes :=
  [n.nameOffset, n.countOrSize, n.fileId, n.flags, n.parent, n.nextSibling, n.firstChild].flatMap
    word

namespace Manifest

structure Image where
  formatVersion : UInt32
  appId : UInt32
  versionId : UInt32
  numFiles : UInt32
  hashBuckets : UInt32
  numMfpNodes : UInt32
  numUserConfigNodes : UInt32
  depotInfo : UInt32
  fingerprint : UInt32
  nodes : List Node
  stringTable : Bytes
  trailing : Bytes

namespace Image

def body (im : Image) : Bytes := im.nodes.flatMap Node.encode ++ im.stringTable ++ im.trailing

def head (im : Image) : Bytes :=
  ([im.formatVersion, im.appId, im.versionId, UInt32.ofNat im.nodes.length, im.numFiles, 0x8000,
    UInt32.ofNat (HEADER_SIZE + im.body.length), UInt32.ofNat im.stringTable.length,
    im.hashBuckets, im.numMfpNodes, im.numUserConfigNodes, im.depotInfo] : List UInt32).flatMap word

def adler (im : Image) : UInt32 :=
  ((((Adler32.fromChecksum 0).writeSlice im.head).writeSlice
    (List.replicate 8 0)).writeSlice im.body).checksum

def encode (im : Image) : Bytes :=
  im.head ++ word im.fingerprint ++ word im.adler ++ im.body

end Image

def plainImage (nodes : List Node) (stringTable : Bytes) : Image :=
  ⟨4, 0, 0, 0, 0, 0, 0, 0, 0, nodes, stringTable, []⟩

end Manifest

def Blob.encodeEntry (key : UInt32) (value : Bytes) : Bytes :=
  leBytes 2 4 ++ leBytes 4 value.length ++ leBytes32 key ++ value

def Blob.encode (entries : List (UInt32 × Bytes)) : Bytes :=
  let body := entries.flatMap fun e => Blob.encodeEntry e.1 e.2
  leBytes 2 MAGIC_PLAIN.toNat ++ leBytes 4 (10 + body.length) ++ leBytes 4 0 ++ body

/-- A `0x4301` wrapper that declares `unpacked` bytes. -/
def wrapStream (unpacked : ℕ) (stream : Bytes) : Bytes :=
  leBytes 2 MAGIC_COMPRESSED.toNat ++ leBytes 8 (20 + stream.length) ++ leBytes 8 unpacked ++
    leBytes 2 9 ++ stream

/-- A zlib stream of one final stored block; `data` is shorter than 64 KiB. -/
def zlibStored (data : Bytes) : Bytes :=
  [0x78, 0x01, 0x01] ++ leBytes 2 data.length ++ leBytes 2 (65535 - data.length) ++ data ++
    (leBytes32 ((Adler32.fromChecksum 1).writeSlice data).checksum).reverse

def zlibStored.decode (z : Bytes) : Except String Bytes :=
  let len := leValue ((z.drop 3).take 2)
  let data := (z.drop 7).take len
  if z.take (11 + len) = zlibStored data ∧ data.length = len then .ok data
  else .error "corrupt deflate stream"

/-- Reads streams of one stored block, and the first cipher block of a
ciphertext under the key stream block it is given for each key. -/
def Codec.stored (stream : Key → Vector UInt8 16) : Codec where
  zlibToEnd := zlibStored.decode
  zlibTake n z := (zlibStored.decode z).map (List.take n)
  zlibTake_length n z out h := by
    cases hd : zlibStored.decode z with
    | error e => rw [hd] at h; cases h
    | ok data =>
      rw [hd] at h
      cases h
      exact List.length_take_le _ _
  aesCfb k b := List.zipWith (· ^^^ ·) b (stream k).toList ++ b.drop 16
  aesCfb_length k b := by
    simp only [List.length_append, List.length_zipWith, Vector.length_toList, List.length_drop]
    omega

/-- AES-128 of the zero block under the zero key; other keys are not used. -/
def zeroKeyStream (_ : Key) : Vector UInt8 16 :=
  #v[0x66, 0xe9, 0x4b, 0xd4, 0xef, 0x8a, 0x2c, 0x3b, 0x88, 0x4c, 0xfa, 0x59, 0xca, 0x34, 0x2b, 0x2e]

def Mode.toNat : Mode → ℕ
  | .plain => 0
  | .compressed => 1
  | .compressedEncrypted => 2
  | .encrypted => 3

def FileRecord.encode (r : FileRecord) : Bytes :=
  leBytes 8 r.size.toNat ++ leBytes 8 r.offset.toNat ++
    leBytes 4 (r.mode.toNat * 2 ^ 24 + r.numBlocks) ++
    r.blocks.flatMap fun b => word b.compressedSize ++ word b.checksum

namespace Checksums

/-- One fileblock for each record, the first record stored at `pos`. -/
def encodeFileblocks : ℕ → List FileRecord → Bytes
  | _, [] => []
  | pos, r :: rs => word r.fileId ++ word 1 ++ leBytes 4 pos ++ word 0 ++
      encodeFileblocks (pos + r.encode.length) rs

def encode (rs : List FileRecord) : Bytes :=
  let tableEnd := 0x20 + 0x10 * rs.length
  word MAGIC ++ word 1 ++ leBytes 4 rs.length ++ leBytes 4 rs.length ++ word 0x20 ++
    leBytes 4 tableEnd ++ word 0x8000 ++ leBytes 4 (maxBlocks rs) ++
    encodeFileblocks tableEnd rs ++ rs.flatMap FileRecord.encode ++ word MAGIC

end Checksums

structure VersionImage where
  manifest : Manifest.Image
  records : List FileRecord
  datCrc : UInt32
  datSize : UInt64
  prev : Option (UInt32 × UInt32)

namespace VersionImage

def entries (im : VersionImage) (ownCrc : UInt32) : List (UInt32 × Bytes) :=
  let inner := Blob.encode [(0, im.manifest.encode)]
  [(Keys.FORMAT, word 4), (Keys.MANIFEST_FINGERPRINT, word im.manifest.fingerprint),
    (Keys.MANIFEST, wrapStream inner.length (zlibStored inner)),
    (Keys.CHECKSUMS, Checksums.encode im.records), (Keys.DAT_CRC, word im.datCrc),
    (Keys.OWN_CRC, word ownCrc), (Keys.PREV_VERSION, word (im.prev.elim 0xffffffff Prod.fst)),
    (Keys.PREV_CRC, word (im.prev.elim 0 Prod.snd)),
    (Keys.DAT_SIZE, leBytes 8 im.datSize.toNat)]

/-- The blob's own crc: over the whole file, with key 10 zeroed. -/
def ownCrc (im : VersionImage) : UInt32 := crc32 (Blob.encode (im.entries 0))

def encode (im : VersionImage) : Bytes := Blob.encode (im.entries im.ownCrc)

/-- A version with one file in its root directory for each record, called `a`,
`b` and so on, stored in the dat with crc 5. -/
def flat (rs : List FileRecord) (datSize : UInt64) (prev : Option (UInt32 × UInt32)) :
    VersionImage where
  manifest := Manifest.plainImage
    (⟨0, UInt32.ofNat rs.length, NO_FILE, 0, NO_NODE, 0, 1⟩ :: rs.zipIdx.map fun (r, j) =>
      ⟨UInt32.ofNat (2 * j + 1), r.size.toUInt32, r.fileId, 0, 0,
        if j + 1 < rs.length then UInt32.ofNat (j + 2) else 0, 0⟩)
    (0 :: (List.range rs.length).flatMap fun j => [UInt8.ofNat (97 + j), 0])
  records := rs
  datCrc := 5
  datSize := datSize
  prev := prev

end VersionImage
end Steam2Fs
