import Steam2Fs.Chunk
import Steam2Fs.Index
import Steam2Fs.Keys
import Steam2Fs.Lib.Lru
import Steam2Fs.Lib.Threads

/-!
# The store: its environment, its state, and how it loads a blob

A `Dump` is what a store is created over and never changes: the listings its
index comes from, the keys, the configuration, the backend and the crates it
calls. `Store` is what
its locks protect, plus the blob cache directory. Every call is a sequence of
atomic actions, one for each time a lock is taken or the cache directory is
touched; the single-flight locks only remove interleavings and are left out.
Blob names come from one directory listing, so a file of the cache directory
is identified with its blob.
-/

namespace Steam2Fs
open Text

inductive ReadError where
  | missingRecord (fileId : UInt32)
  | missingDat (depot version crc : UInt32)
  | noKey (depot : UInt32)
  | noWorkingKey (depot crc : UInt32) (tried : ℕ)
  | checksum (fileId : UInt32) (block : ℕ) (expected actual : UInt32)
  | shortRead (fileId : UInt32) (block want got : ℕ)
  | noSuchBlock (fileId : UInt32) (block blocks : ℕ)
  | blockSize (fileId : UInt32) (block want got : ℕ)
  | noBlocksToProbe (fileId : UInt32)
  | format (e : FormatError)
  | other (e : AnyhowError)
  deriving DecidableEq, Repr

/-- What a read failure means to a filesystem frontend. -/
inductive ErrorClass where
  | missing
  | noKey
  | io
  | badData
  deriving DecidableEq, Repr

def ReadError.class : ReadError → ErrorClass
  | .missingRecord _ | .missingDat _ _ _ => .missing
  | .noKey _ | .noWorkingKey _ _ _ => .noKey
  | .checksum _ _ _ _ | .shortRead _ _ _ _ | .noSuchBlock _ _ _ | .blockSize _ _ _ _
  | .noBlocksToProbe _ => .io
  | .format _ => .badData
  | .other _ => .io

structure FileLoc where
  source : ℕ
  dat : Option ℕ
  record : FileRecord
  /-- Dat offset of each block; `offsets[i+1]` is the end of block `i`. -/
  offsets : List UInt64
  deriving DecidableEq, Repr

namespace FileLoc

def blockSpan (loc : FileLoc) (i : ℕ) : Option (UInt64 × UInt64) := do
  some (← loc.offsets[i]?, ← loc.offsets[i + 1]?)

def noSuchBlock (loc : FileLoc) (i : ℕ) : ReadError :=
  .noSuchBlock loc.record.fileId i loc.record.numBlocks

end FileLoc

/-- A version's own records over its parent's table. -/
inductive FileTable where
  | root (own : List (UInt32 × FileLoc))
  | over (own : List (UInt32 × FileLoc)) (parent : FileTable)
  deriving DecidableEq, Repr

namespace FileTable

def layer (own : List (UInt32 × FileLoc)) : Option FileTable → FileTable
  | none => .root own
  | some t => .over own t

def get (fileId : UInt32) : FileTable → Option FileLoc
  | .root own => own.lookup fileId
  | .over own parent => match own.lookup fileId with
    | some loc => some loc
    | none => parent.get fileId

end FileTable

structure StoreConfig where
  blobCacheDir : Bool
  rawCacheBytes : ℕ
  blockCacheBytes : ℕ
  verify : Bool
  keySearch : Bool
  deriving DecidableEq, Repr

inductive KeyResolution where
  | configured (k : Key)
  | discovered (k : Key) (depot : UInt32)
  | none (tried : ℕ)
  deriving DecidableEq

structure Dump where
  codec : Codec
  /-- The listings of `blobs/` and `dats/`, and the dates file by name. -/
  blobEntries : List DirEntry
  datEntries : List DirEntry
  dates : Str → Option Instant
  keys : KeyStore
  cfg : StoreConfig
  /-- `Backend::read_all` and `Backend::read_at`. -/
  readAll : Str → Except String Bytes
  readAt : Str → ℕ → ℕ → Except String Bytes
  sha256Hex : Bytes → Str
  /-- Whether a file of the blob cache directory can be replaced and removed;
  one that can be removed but not written, or the other way round, is left out. -/
  cacheWritable : ℕ → Bool

structure Store where
  parsed : List (ℕ × ParsedBlob)
  tables : List (ℕ × FileTable)
  raw : ByteLru (ℕ × ℕ)
  blocks : ByteLru (ℕ × UInt64)
  resolvedKeys : ℕ → Option KeyResolution
  cacheDir : ℕ → Option Bytes

def PARSED_CAPACITY : ℕ := 512
def TABLE_CAPACITY : ℕ := 256

def Store.new (d : Dump) (cacheDir : ℕ → Option Bytes) : Store :=
  ⟨[], [], .new d.cfg.rawCacheBytes, .new d.cfg.blockCacheBytes, fun _ => none, cacheDir⟩

abbrev StoreCall := Call Store ReadError

instance {σ ε : Type} : MonadLift (Outcome ε) (Call σ ε) := ⟨Call.lift⟩

/-- `?` on an `anyhow` result. -/
def ReadError.ofAnyhow {α : Type} (x : Call Store AnyhowError α) : StoreCall α :=
  x.mapErr .other

namespace Dump
variable (d : Dump)

def index : Index := Index.load d.dates d.blobEntries d.datEntries

theorem index_inRange : d.index.InRange := Index.load_inRange _ _

/-- `index.blob(id)`; indexing past the end panics. -/
def blob {ε : Type} (id : ℕ) : Outcome ε BlobEntry :=
  match d.index.blobs[id]? with
  | some e => .ok e
  | none => .panic

def datEntry {ε : Type} (id : ℕ) : Outcome ε DatEntry :=
  match d.index.dats[id]? with
  | some e => .ok e
  | none => .panic

section Blobs

def readBackend (path : Str) : Outcome AnyhowError Bytes :=
  match d.readAll path with
  | .ok bytes => .ok bytes
  | .error e => .err (.msg e)

/-- The sha256 in the name, or else the listed size, has to match. -/
def checkFetched (entry : BlobEntry) (bytes : Bytes) : Outcome AnyhowError Unit :=
  match entry.sha256 with
  | some expected =>
    let actual := d.sha256Hex bytes
    if actual ≠ expected then
      .err (.msg (String.ofList
        (entry.fileName ++ ": sha256 ".toList ++ actual ++ " does not match its name".toList)))
    else .ok ()
  | none =>
    if bytes.length ≠ entry.size.toNat then
      .err (.msg (String.ofList entry.fileName ++
        s!": {bytes.length} bytes, expected {entry.size.toNat}"))
    else .ok ()

def backendBytes (id : ℕ) : Outcome AnyhowError Bytes := do
  let entry ← d.blob id
  let bytes ← d.readBackend entry.path
  let _ ← d.checkFetched entry bytes
  .ok bytes

def setCacheFile (id : ℕ) (content : Option Bytes) (s : Store) : Store :=
  if d.cfg.blobCacheDir && d.cacheWritable id then
    { s with cacheDir := Function.update s.cacheDir id content }
  else s

/-- Read a blob from the backend, check it, and populate the cache directory.
The file is written under a temporary name and renamed while the blob's lock is
held, so that within one process it appears at once. -/
def fetchBlob (id : ℕ) : Call Store AnyhowError Bytes := do
  let bytes ← Call.lift (d.backendBytes id)
  Call.modify (d.setCacheFile id (some bytes))
  pure bytes

/-- A cache file counts only when its size is the listed one. -/
def cachedBytes (cacheDir : ℕ → Option Bytes) (id : ℕ) (entry : BlobEntry) : Option Bytes :=
  if d.cfg.blobCacheDir then
    (cacheDir id).filter fun bytes => bytes.length = entry.size.toNat
  else none

/-- The bytes of a blob, and whether they came from the cache directory. -/
def blobBytesCached (id : ℕ) : Call Store AnyhowError (Bytes × Bool) := do
  let entry ← Call.lift (d.blob id)
  match ← Call.read fun s => d.cachedBytes s.cacheDir id entry with
  | some bytes => pure (bytes, true)
  | none => pure (← d.fetchBlob id, false)

def parsingContext (entry : BlobEntry) : AnyhowError → AnyhowError :=
  .context ("parsing " ++ String.ofList entry.fileName)

def getParsed (id : ℕ) : StoreCall (Option ParsedBlob) :=
  Call.atomic fun s => (Lru.get id s.parsed, { s with parsed := Lru.touch id s.parsed })

def putParsed (id : ℕ) (p : ParsedBlob) : StoreCall Unit :=
  Call.modify fun s => { s with parsed := Lru.put PARSED_CAPACITY id p s.parsed }

/-- A cached blob that does not parse is dropped and fetched once more. -/
def parseBytes (id : ℕ) (entry : BlobEntry) (bytes : Bytes) (fromCache : Bool) :
    Call Store AnyhowError ParsedBlob :=
  match parseBlob d.codec bytes with
  | .ok p => pure p
  | .panic => Call.lift .panic
  | .err e =>
    if fromCache then do
      Call.modify (d.setCacheFile id none)
      let bytes ← d.fetchBlob id
      Call.lift ((parseBlob d.codec bytes).mapErr (parsingContext entry))
    else Call.lift (.err (parsingContext entry e))

def parseUncached (id : ℕ) : StoreCall ParsedBlob := do
  match ← getParsed id with
  | some p => pure p
  | none =>
    let (bytes, fromCache) ← ReadError.ofAnyhow (d.blobBytesCached id)
    let entry ← Call.lift (d.blob id)
    let p ← ReadError.ofAnyhow (d.parseBytes id entry bytes fromCache)
    putParsed id p
    pure p

def parsed (id : ℕ) : StoreCall ParsedBlob := do
  match ← getParsed id with
  | some p => pure p
  | none => d.parseUncached id

end Blobs
end Dump
end Steam2Fs
