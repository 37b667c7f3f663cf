import Steam2Fs.BlockArithmetic
import Steam2Fs.WinPaths

/-!
# The Windows volume

The volume has no table of its own: a caller that opens a path holds the key it
leads to and the kind it had, and every later call asks the tree again. Reads
past the end of a file are told so, and reads near it are cut to what is there
before the store is asked, so no offset and size of a caller are ever added.

What the driver's library does stays outside: the buffer that keeps a listing
for the later pages of a handle, and which names it refuses to hold. A listing
is what is written to that buffer when a handle is first read, so
`readDirectory` is the first read of its handle. Where that read fails half-way,
the rows written before the failure stay in the buffer, and later reads of the
same handle are served from there; no call here stands for them.
-/

namespace Steam2Fs

namespace WinFs
open Outcome Text
open Steam2Fs.Tree (TreeError Meta)

inductive NtStatus where
  | objectNameNotFound
  | notADirectory
  | fileInvalid
  | accessDenied
  | ioDeviceError
  | fileCorruptError
  | endOfFile
  /-- What the driver's library answers to a name it does not hold. -/
  | library (code : UInt32)
  deriving DecidableEq, Repr

def status : TreeError → NtStatus
  | .notFound => .objectNameNotFound
  | .notADirectory => .notADirectory
  | .read r => match r.class with
    | .missing => .fileInvalid
    | .noKey => .accessDenied
    | .io => .ioDeviceError
    | .badData => .fileCorruptError

/-! ### File information -/

def UNIX_EPOCH_IN_TICKS : ℕ := 116444736000000000

/-- Ticks of 100 ns from 1601, at most what a `u64` holds. -/
def filetime (at_ : Instant) : UInt64 :=
  let ticks := min ((at_.secs * 10 ^ 9 + at_.nanos) / 100) (2 ^ 64 - 1)
  UInt64.ofNat (min (UNIX_EPOCH_IN_TICKS + ticks) (2 ^ 64 - 1))

def FILE_ATTRIBUTE_READONLY : UInt32 := 0x1
def FILE_ATTRIBUTE_DIRECTORY : UInt32 := 0x10
def ALLOCATION_UNIT : ℕ := 512

structure FileInfo where
  fileAttributes : UInt32
  reparseTag : UInt32
  fileSize : UInt64
  allocationSize : UInt64
  creationTime : UInt64
  lastAccessTime : UInt64
  lastWriteTime : UInt64
  changeTime : UInt64
  indexNumber : UInt64
  hardLinks : UInt32
  eaSize : UInt32
  deriving DecidableEq, Repr

def attributes (info : Meta) : UInt32 :=
  if info.kind = .dir ∨ info.kind = .symlink then
    FILE_ATTRIBUTE_DIRECTORY ||| FILE_ATTRIBUTE_READONLY
  else FILE_ATTRIBUTE_READONLY

structure Context where
  key : Tree.Key
  kind : Tree.Kind
  deriving DecidableEq, Repr

structure DirRow where
  name : Str
  info : FileInfo
  deriving DecidableEq, Repr

/-- The volume, with the names its driver refuses and the status it gives then. -/
structure Volume where
  tree : Tree
  security : Bytes
  checks : Bool
  refuses : Str → Option UInt32

abbrev VolumeCall := Call Store NtStatus

namespace Volume
variable (v : Volume)

def fillInfo (info : Meta) : Outcome NtStatus FileInfo := do
  let units := (info.size.toNat + ALLOCATION_UNIT - 1) / ALLOCATION_UNIT
  let allocation ← u64Mul v.checks units ALLOCATION_UNIT
  let time := filetime info.mtime
  .ok {
    fileAttributes := attributes info
    reparseTag := 0
    fileSize := info.size
    allocationSize := UInt64.ofNat allocation
    creationTime := time
    lastAccessTime := time
    lastWriteTime := time
    changeTime := time
    indexNumber := 0
    hardLinks := 0
    eaSize := 0 }

def metaOf (key : Tree.Key) : VolumeCall Meta := (v.tree.metaOf key).mapErr status

def path (fileName : List UInt16) : VolumeCall Tree.Key :=
  (resolvePath v.tree fileName).mapErr status

/-- The descriptor is written where there is room for all of it. -/
def descriptor (room : Option ℕ) : Option Bytes :=
  room.bind fun n => if v.security.length ≤ n then some v.security else none

def openPath (fileName : List UInt16) : VolumeCall (Context × FileInfo) := do
  let key ← v.path fileName
  let info ← v.metaOf key
  let filled ← Call.lift (v.fillInfo info)
  pure (⟨key, info.kind⟩, filled)

def getFileInfo (c : Context) : VolumeCall FileInfo := do
  let info ← v.metaOf c.key
  Call.lift (v.fillInfo info)

/-- The data for a buffer with `room` bytes, and the count that is returned. -/
def read (c : Context) (room : ℕ) (offset : UInt64) : VolumeCall (UInt32 × Bytes) := do
  let loc ← (v.tree.locate c.key).mapErr status
  if loc.record.size ≤ offset then Call.lift (.err .endOfFile)
  else
    let want := min room (loc.record.size - offset).toNat
    let data ← (v.tree.read loc offset (UInt64.ofNat want)).mapErr status
    Call.lift (if data.length ≤ room then .ok (UInt32.ofNat data.length, data) else .panic)

/-! ### Listings -/

def row (name : Str) (info : Meta) : Outcome NtStatus DirRow := do
  let filled ← v.fillInfo info
  match v.refuses name with
  | some code => .err (.library code)
  | none => .ok ⟨name, filled⟩

section Rows
variable {m : Type → Type} [Monad m] [MonadLiftT (Outcome NtStatus) m]
  (metaOf : Tree.Key → m (Except NtStatus Meta)) (parent : Tree.Key → m Tree.Key)

/-- `.` and `..`, whose own metadata stand in for those of a parent without any. -/
def dotRows (key : Tree.Key) : m (List DirRow) :=
  if key = .root then pure []
  else do
    let found ← metaOf key
    let this ← liftM (match found with
      | .ok info => .ok info
      | .error e => .err e : Outcome NtStatus Meta)
    let first ← liftM (v.row ".".toList this)
    let up ← parent key
    let found ← metaOf (resolve v.tree up)
    let second ← liftM (v.row "..".toList (match found with
      | .ok info => info
      | .error _ => this))
    pure [first, second]

/-- An entry that was listed appears even when its own metadata do not load. -/
def entryRow (e : Tree.Entry) : m DirRow := do
  let found ← metaOf (resolve v.tree e.key)
  liftM (v.row (shownName e) (match found with
    | .ok info => info
    | .error _ => ⟨e.kind, 0, Tree.UNIX_EPOCH⟩))

def entryRows : List Tree.Entry → m (List DirRow)
  | [] => pure []
  | e :: rest => do
    let first ← v.entryRow metaOf e
    let others ← entryRows rest
    pure (first :: others)

def readDirectoryWith (entries : Tree.Key → m (List Tree.Entry)) (c : Context) :
    m (List DirRow) :=
  if c.kind ≠ .dir then liftM (.err .notADirectory : Outcome NtStatus (List DirRow))
  else do
    let es ← entries c.key
    let dots ← v.dotRows metaOf parent c.key
    let rows ← v.entryRows metaOf es
    pure (dots ++ rows)

end Rows

def readDirectory : Context → VolumeCall (List DirRow) :=
  v.readDirectoryWith (fun key => (v.metaOf key).attempt)
    (fun key => (v.tree.parent key).mapErr status) fun key => (v.tree.entries key).mapErr status

end Volume

/-! ### Calls -/

inductive VolumeOp where
  | getSecurityByName (fileName : List UInt16) (room : Option ℕ)
  | openPath (fileName : List UInt16)
  | getFileInfo (c : Context)
  | getSecurity (c : Context) (room : Option ℕ)
  | read (c : Context) (room : ℕ) (offset : UInt64)
  | readDirectory (c : Context)

inductive VolumeReply where
  | fileSecurity (attributes : UInt32) (size : UInt64) (written : Option Bytes)
  | opened (c : Context) (info : FileInfo)
  | info (info : FileInfo)
  | security (size : UInt64) (written : Option Bytes)
  | data (count : UInt32) (bytes : Bytes)
  | rows (rows : List DirRow)

def Volume.getSecurityByName (v : Volume) (fileName : List UInt16) (room : Option ℕ) :
    VolumeCall VolumeReply := do
  let key ← v.path fileName
  let info ← v.metaOf key
  pure (.fileSecurity (attributes info) (UInt64.ofNat v.security.length) (v.descriptor room))

def VolumeOp.prog (v : Volume) : VolumeOp → VolumeCall VolumeReply
  | .getSecurityByName fileName room => v.getSecurityByName fileName room
  | .openPath fileName => v.openPath fileName >>= fun o => pure (VolumeReply.opened o.1 o.2)
  | .getFileInfo c => v.getFileInfo c >>= fun info => pure (VolumeReply.info info)
  | .getSecurity _ room => Call.lift (.ok (.security (UInt64.ofNat v.security.length)
      (v.descriptor room)))
  | .read c room offset => v.read c room offset >>= fun x => pure (VolumeReply.data x.1 x.2)
  | .readDirectory c => v.readDirectory c >>= fun rows => pure (VolumeReply.rows rows)

abbrev VolumePool := Pool Store VolumeOp (Outcome NtStatus VolumeReply)

def VolumeRun (v : Volume) (cacheDir : ℕ → Option Bytes) : VolumePool → Prop :=
  Pool.Reachable (VolumeOp.prog v) Set.univ (fun _ _ => False) (Store.new v.tree.store cacheDir)

end WinFs
end Steam2Fs
