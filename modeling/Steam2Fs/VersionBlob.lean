import Steam2Fs.Blob
import Steam2Fs.ChecksumTable
import Steam2Fs.Manifest

/-!
# A whole version blob

`parseBlob` runs the container parser, reads the metadata, decompresses and
parses the manifest, checks the manifest fingerprint and the blob's own crc32
(key 10, computed with its four bytes zeroed), and parses the checksum table.
Its errors are `anyhow` errors: a format error, a failed `ensure!`, or either
wrapped in context.
-/

namespace Steam2Fs

inductive AnyhowError where
  | format (e : FormatError)
  | msg (text : String)
  | context (text : String) (inner : AnyhowError)
  deriving DecidableEq, Repr

structure ParsedBlob where
  info : VersionMeta
  manifest : Manifest
  records : List FileRecord
  deriving DecidableEq, Repr

section Parse
variable (codec : Codec)

/-- The manifest: key 3 unpacked, and key 0 of what it holds. -/
def parseManifest (top : Blob) : Outcome FormatError Manifest := do
  let wrapper ← decompress codec (← top.require Keys.MANIFEST)
  let inner ← Blob.parse wrapper
  Manifest.parse (← inner.require 0)

/-- The crc32 of the buffer around the four bytes of key 10. -/
def ownCrc (bytes : Bytes) (off : ℕ) : Outcome AnyhowError UInt32 := do
  let before ← indexRange bytes 0 off
  let after ← indexRange bytes (← usizeAdd off 4) bytes.length
  .ok (crc32 (before ++ List.replicate 4 0 ++ after))

def parseBlob (bytes : Bytes) : Outcome AnyhowError ParsedBlob := do
  let top ← (Blob.parse bytes).mapErr .format
  let info ← (VersionMeta.fromBlob top).mapErr .format
  let manifest ← (parseManifest codec top).mapErr .format
  let fingerprint ← (top.u32 Keys.MANIFEST_FINGERPRINT).mapErr .format
  if fingerprint ≠ manifest.fingerprint then
    .err (.msg ("blob key 2 " ++ hexPad 8 fingerprint.toNat ++ " != manifest fingerprint " ++
      hexPad 8 manifest.fingerprint.toNat))
  else
  let own ← (top.require Keys.OWN_CRC).mapErr .format
  if own.length ≠ 4 then .err (.msg s!"key 10 is {own.length} bytes, not 4")
  else
  let off ← (top.valueOffset Keys.OWN_CRC).mapErr .format
  let crc ← ownCrc bytes off
  if crc ≠ info.ownCrc then
    .err (.msg ("blob crc " ++ hexPad 8 crc.toNat ++ " != key 10 " ++
      hexPad 8 info.ownCrc.toNat))
  else
  let table ← (top.require Keys.CHECKSUMS).mapErr .format
  let records ← (Checksums.parse table).mapErr .format
  .ok ⟨info, manifest, records⟩

theorem parseBlob_records {codec : Codec} {bytes : Bytes} {p : ParsedBlob}
    (h : parseBlob codec bytes = .ok p) : ∃ table, Checksums.parse table = .ok p.records := by
  obtain ⟨top, -, h⟩ := Outcome.bind_eq_ok.mp h
  obtain ⟨info, -, h⟩ := Outcome.bind_eq_ok.mp h
  obtain ⟨manifest, -, h⟩ := Outcome.bind_eq_ok.mp h
  obtain ⟨fingerprint, -, h⟩ := Outcome.bind_eq_ok.mp h
  split_ifs at h
  obtain ⟨own, -, h⟩ := Outcome.bind_eq_ok.mp h
  split_ifs at h
  obtain ⟨off, -, h⟩ := Outcome.bind_eq_ok.mp h
  obtain ⟨crc, -, h⟩ := Outcome.bind_eq_ok.mp h
  split_ifs at h
  obtain ⟨table, -, h⟩ := Outcome.bind_eq_ok.mp h
  obtain ⟨records, hrecords, h⟩ := Outcome.bind_eq_ok.mp h
  cases h
  exact ⟨table, Outcome.mapErr_eq_ok.mp hrecords⟩

end Parse
end Steam2Fs
