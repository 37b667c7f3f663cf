import Steam2Fs.KeyFile
import Steam2Fs.Lib.Workers
import Steam2Fs.StoreTables

/-!
# The `key-audit` command

The workers of `key-audit` take the blobs of the index one after the other.
Of each blob that has an encrypted file with data they probe the key, count
what they find and leave a line in the report; a key that belongs to another
depot also goes into the list that is appended to the key file. The report is
sorted before it is printed, the list is written in the order the workers came
to it.

Which of several keys that decrypt a sample is found depends on the order of
`KeyStore.candidates`. The source takes it from the iteration order of hash
maps, which differs from process to process; the model fixes one, and two
audits that are compared are compared under the same one.
-/

namespace Steam2Fs
open Text

/-! ### Error texts -/

def FormatError.text : FormatError → Str
  | .malformed m => m.toList
  | .zlib m => "zlib: ".toList ++ m.toList

/-- `{e:#}`: an error and what it came from, the outermost first. The cause of
a zlib error is printed by the error and once more as its source. -/
def AnyhowError.text : AnyhowError → Str
  | .format (.malformed m) => m.toList
  | .format (.zlib m) => "zlib: ".toList ++ m.toList ++ ": ".toList ++ m.toList
  | .msg text => text.toList
  | .context text inner => text.toList ++ ": ".toList ++ inner.text

def ReadError.text : ReadError → Str
  | .missingRecord fileId =>
    "no file record for file id ".toList ++ decimal fileId.toNat ++
      " in this version chain".toList
  | .missingDat depot version crc =>
    "dat file for depot ".toList ++ decimal depot.toNat ++ " version ".toList ++
      decimal version.toNat ++ " crc ".toList ++ padZero 8 (hexLower crc.toNat) ++
      " is not in the dump".toList
  | .noKey depot => "no AES key known for depot ".toList ++ decimal depot.toNat
  | .noWorkingKey depot crc tried =>
    "depot ".toList ++ decimal depot.toNat ++ " blob ".toList ++
      padZero 8 (hexLower crc.toNat) ++ ": no known key decrypts it (tried ".toList ++
      decimal tried ++ ")".toList
  | .checksum fileId block expected actual =>
    "block ".toList ++ decimal block ++ " of file id ".toList ++ decimal fileId.toNat ++
      ": checksum mismatch (expected ".toList ++ padZero 8 (hexLower expected.toNat) ++
      ", got ".toList ++ padZero 8 (hexLower actual.toNat) ++ ")".toList
  | .shortRead fileId block want got =>
    "block ".toList ++ decimal block ++ " of file id ".toList ++ decimal fileId.toNat ++
      ": short read from dat (".toList ++ decimal got ++ " of ".toList ++ decimal want ++
      " bytes)".toList
  | .noSuchBlock fileId block blocks =>
    "file id ".toList ++ decimal fileId.toNat ++ " has no block ".toList ++ decimal block ++
      " (it has ".toList ++ decimal blocks ++ ")".toList
  | .blockSize fileId block want got =>
    "block ".toList ++ decimal block ++ " of file id ".toList ++ decimal fileId.toNat ++
      " decoded to ".toList ++ decimal got ++ " bytes, expected ".toList ++ decimal want
  | .noBlocksToProbe fileId =>
    "file id ".toList ++ decimal fileId.toNat ++
      " has no blocks, so its key cannot be probed".toList
  | .format e => e.text
  | .other e => e.text

/-! ### The workers -/

inductive Tally where
  | encryptedBlobs
  | ok
  | discovered
  | unreadable
  | noKey
  deriving DecidableEq, Repr

structure Audit where
  store : Store
  counts : Tally → ℕ
  report : List Str
  discovered : List Discovered

namespace Audit

def start (s : Store) : Audit := ⟨s, fun _ => 0, [], []⟩

def onStore {α : Type} (x : StoreCall α) : Call Audit ReadError α :=
  x.on Audit.store fun s v => { v with store := s }

def count (t : Tally) : Call Audit ReadError Unit :=
  Call.modify fun v => { v with counts := v.counts + Pi.single t 1 }

def push (line : Str) : Call Audit ReadError Unit :=
  Call.modify fun v => { v with report := v.report ++ [line] }

def keep (x : Discovered) : Call Audit ReadError Unit :=
  Call.modify fun v => { v with discovered := v.discovered ++ [x] }

def unreadableLine (entry : BlobEntry) (e : ReadError) : Str :=
  "UNREADABLE ".toList ++ entry.fileName ++ ": ".toList ++ e.text

def discoveredLine (entry : BlobEntry) (source : UInt32) : Str :=
  "DISCOVERED ".toList ++ entry.fileName ++ " <- depot ".toList ++ decimal source.toNat ++
    "'s key".toList

def noKeyLine (entry : BlobEntry) (tried : ℕ) : Str :=
  "NO KEY ".toList ++ entry.fileName ++ " (tried ".toList ++ decimal tried ++ ")".toList

def probed (r : FileRecord) : Bool := r.mode.isEncrypted && !r.blocks.isEmpty

section Worker
variable (d : Dump)

/-- What a worker does about the answer of `probe_key`. -/
def tell (entry : BlobEntry) : Except ReadError KeyResolution → Call Audit ReadError Unit
  | .ok (.configured _) => count .ok
  | .ok (.discovered key source) => do
    count .discovered
    push (discoveredLine entry source)
    keep ⟨entry.fileName, entry.depot, entry.crc, key, source⟩
  | .ok (.none tried) => do
    count .noKey
    push (noKeyLine entry tried)
  | .error e => do
    count .unreadable
    push (unreadableLine entry e)

def auditBlob (id : ℕ) : Call Audit ReadError Unit := do
  let entry ← Call.lift (d.blob id)
  match ← (onStore (d.parsed id)).attempt with
  | .error e => do
    push (unreadableLine entry e)
    count .unreadable
  | .ok p => match p.records.find? probed with
    | none => pure ()
    | some r => do
      count .encryptedBlobs
      match ← (onStore (d.locate id r.fileId)).attempt with
      | .error e => do
        push (unreadableLine entry e)
        count .unreadable
      | .ok loc => do
        let found ← (onStore (d.probeKey loc)).attempt
        tell entry found

end Worker

/-! ### What is printed and written -/

/-- The lines on standard output, for a key file named `out`. -/
def printed (out : Str) (v : Audit) : List Str :=
  (v.report.insertionSort fun a b => a.map Char.toNat ≤ b.map Char.toNat) ++
    (if v.discovered.isEmpty then []
      else ["wrote ".toList ++ decimal v.discovered.length ++ " discovered keys to ".toList ++
        out]) ++
    [decimal (v.counts .encryptedBlobs) ++ " blobs with encrypted files: ".toList ++
      decimal (v.counts .ok) ++ " decrypt with the configured key, ".toList ++
      decimal (v.counts .discovered) ++ " with another depot's key, ".toList ++
      decimal (v.counts .noKey) ++ " with no known key, ".toList ++
      decimal (v.counts .unreadable) ++ " unreadable".toList]

def appended (hex : HexCodec) (v : Audit) : Bytes :=
  v.discovered.flatMap fun x => utf8 (x.text hex)

end Audit

def Dump.auditBlobs (d : Dump) (depot : Option UInt32) : List ℕ :=
  (d.index.depots.filter fun e => depot.all fun w => w = e.1).flatMap fun e => e.2.blobs

/-- A run of the audit over a fresh store that has ended in `v`, with its
workers back. -/
def Dump.Audits (d : Dump) (cacheDir : ℕ → Option Bytes) (depot : Option UInt32) (jobs : ℕ)
    (v : Audit) : Prop :=
  Workers.Ends (d.auditBlobs depot) (Audit.auditBlob d) (.start (.new d cacheDir)) jobs v

end Steam2Fs
