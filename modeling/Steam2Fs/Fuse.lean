import Steam2Fs.Lib.Rely
import Steam2Fs.TreeLookup

/-!
# The FUSE frontend

The frontend numbers the keys it hands out and keeps the listings of open
directories, so that paging through a directory does not rebuild it. A call is
cut at its uses of the three locks: the inode table, the table of open
directories, and the locks inside the store. A reply buffer is given by what it
says to one more row, `full`. Counters that a mount would have to serve 2^64
calls to wrap are natural numbers. Links, file contents and extended attributes
change neither table; their calls are apart.
-/

namespace Steam2Fs.Fuse
open Outcome Text

inductive FileType where
  | directory
  | regularFile
  | symlink
  deriving DecidableEq, Repr

inductive Errno where
  | enoent
  | enotdir
  | enxio
  | enokey
  | eio
  | ebadmsg
  deriving DecidableEq, Repr

def errno : Tree.TreeError → Errno
  | .notFound => .enoent
  | .notADirectory => .enotdir
  | .read r => match r.class with
    | .missing => .enxio
    | .noKey => .enokey
    | .io => .eio
    | .badData => .ebadmsg

def fileType : Tree.Kind → FileType
  | .dir => .directory
  | .file => .regularFile
  | .symlink => .symlink

structure FileAttr where
  ino : ℕ
  size : UInt64
  blocks : ℕ
  mtime : Instant
  kind : FileType
  perm : ℕ
  nlink : ℕ
  uid : UInt32
  gid : UInt32
  blksize : ℕ
  deriving DecidableEq, Repr

/-! ### State -/

structure Inodes where
  byKey : Tree.Key → Option ℕ
  keys : List Tree.Key

namespace Inodes

def intern (inodes : Inodes) (key : Tree.Key) : ℕ × Inodes :=
  match inodes.byKey key with
  | some ino => (ino, inodes)
  | none =>
    let ino := inodes.keys.length + 1
    (ino, ⟨Function.update inodes.byKey key (some ino), inodes.keys ++ [key]⟩)

def new : Inodes := (intern ⟨fun _ => none, []⟩ .root).2

def key (inodes : Inodes) : ℕ → Option Tree.Key
  | 0 => none
  | n + 1 => inodes.keys[n]?

end Inodes

structure DirItem where
  name : Bytes
  key : Tree.Key
  kind : FileType
  deriving DecidableEq, Repr

structure OpenDirs where
  next : ℕ
  opened : ℕ → Option (List DirItem)

structure FsState where
  store : Store
  inodes : Inodes
  dirs : OpenDirs

structure Frontend where
  tree : Tree
  uid : UInt32
  gid : UInt32

def FsState.new (f : Frontend) (cacheDir : ℕ → Option Bytes) : FsState :=
  ⟨Store.new f.tree.store cacheDir, .new, ⟨0, fun _ => none⟩⟩

abbrev FsCall := Call FsState Errno

/-- One row of a page: what `readdir` adds is a kind, what `readdirplus` adds
are the attributes. -/
structure Row where
  ino : ℕ
  offset : ℕ
  name : Bytes
  detail : FileType ⊕ FileAttr

inductive Reply where
  | entry (attr : FileAttr)
  | attr (attr : FileAttr)
  | opened (fh : ℕ)
  | page (rows : List Row)
  | ok

/-! ### Helpers -/

def ofTree {α : Type} (x : Tree.TreeCall α) : FsCall α :=
  Call.mapErr errno (Proc.zoom FsState.store (fun s t => { t with store := s }) x)

def intern (key : Tree.Key) : FsCall ℕ :=
  Call.atomic fun s => ((s.inodes.intern key).1, { s with inodes := (s.inodes.intern key).2 })

def ino (key : Tree.Key) : FsCall ℕ := do
  match ← Call.read fun s => s.inodes.byKey key with
  | some n => pure n
  | none => intern key

def keyOf (n : ℕ) : FsCall Tree.Key := do
  let key ← Call.read fun s => s.inodes.key n
  Call.lift (Outcome.ofOption .enoent key)

namespace Frontend
variable (f : Frontend)

def attr (n : ℕ) (kind : FileType) (size : UInt64) (mtime : Instant) : FileAttr where
  ino := n
  size := size
  blocks := (size.toNat + 511) / 512
  mtime := mtime
  kind := kind
  perm := match kind with
    | .directory => 0o555
    | .symlink => 0o777
    | .regularFile => 0o444
  nlink := if kind = .directory then 2 else 1
  uid := f.uid
  gid := f.gid
  blksize := 65536

def attrOf (key : Tree.Key) (info : Tree.Meta) : FsCall FileAttr := do
  let n ← ino key
  pure (f.attr n (fileType info.kind) info.size info.mtime)

def attrFor (key : Tree.Key) : FsCall FileAttr := do
  let info ← ofTree (f.tree.metaOf key)
  f.attrOf key info

def listing (key parent : Tree.Key) (children : List Tree.Entry) : List DirItem :=
  ⟨utf8 ".".toList, key, .directory⟩ :: ⟨utf8 "..".toList, parent, .directory⟩ ::
    children.map fun e => ⟨e.name, e.key, fileType e.kind⟩

def dirEntries (key : Tree.Key) : FsCall (List DirItem) := do
  let children ← ofTree (f.tree.entries key)
  let parent ← ofTree (f.tree.parent key)
  pure (listing key parent children)

/-- The listing for an open directory handle, rebuilt from the inode if the
kernel reads a directory it did not open through us. -/
def dirList (n fh : ℕ) : FsCall (List DirItem) := do
  match ← Call.read fun s => s.dirs.opened fh with
  | some list => pure list
  | none =>
    let key ← keyOf n
    f.dirEntries key

/-! ### Calls -/

def lookup (parent : ℕ) (name : Bytes) : FsCall Reply := do
  let pkey ← keyOf parent
  match ← ofTree (f.tree.lookup pkey name) with
  | some k =>
    let a ← f.attrFor k
    pure (.entry a)
  | none => Call.lift (.err .enoent)

def getattr (n : ℕ) : FsCall Reply := do
  let key ← keyOf n
  let a ← f.attrFor key
  pure (.attr a)

def openDir (entries : List DirItem) (s : FsState) : FsState :=
  { s with dirs := ⟨s.dirs.next + 1, Function.update s.dirs.opened (s.dirs.next + 1) (some entries)⟩ }

def opendir (n : ℕ) : FsCall Reply := do
  let key ← keyOf n
  let entries ← f.dirEntries key
  Call.atomic fun s => (.opened (s.dirs.next + 1), openDir entries s)

/-- The loop of both `readdir` calls: rows are added until the buffer is full. -/
def fill (row : ℕ → DirItem → FsCall Row) (full : List Row → Row → Bool) :
    List (DirItem × ℕ) → List Row → FsCall (List Row)
  | [], rows => pure rows
  | (item, i) :: rest, rows => do
    let r ← row i item
    if full rows r then pure rows else fill row full rest (rows ++ [r])

def plainRow (i : ℕ) (item : DirItem) : FsCall Row := do
  let n ← ino item.key
  pure ⟨n, i + 1, item.name, .inl item.kind⟩

/-- An entry whose attributes cannot be had is still shown. -/
def plusRow (i : ℕ) (item : DirItem) : FsCall Row := do
  let n ← ino item.key
  match ← (f.attrFor item.key).attempt with
  | .ok a => pure ⟨n, i + 1, item.name, .inr a⟩
  | .error _ => pure ⟨n, i + 1, item.name, .inr (f.attr n item.kind 0 Tree.UNIX_EPOCH)⟩

def readPage (row : ℕ → DirItem → FsCall Row) (n fh offset : ℕ) (full : List Row → Row → Bool) :
    FsCall Reply := do
  let entries ← f.dirList n fh
  let rows ← fill row full (entries.zipIdx.drop offset) []
  pure (.page rows)

def readdir : ℕ → ℕ → ℕ → (List Row → Row → Bool) → FsCall Reply := f.readPage plainRow

def readdirplus : ℕ → ℕ → ℕ → (List Row → Row → Bool) → FsCall Reply := f.readPage f.plusRow

def closeDir (fh : ℕ) (s : FsState) : FsState :=
  { s with dirs := { s.dirs with opened := Function.update s.dirs.opened fh none } }

def releasedir (fh : ℕ) : FsCall Reply := do
  Call.modify (closeDir fh)
  pure .ok

end Frontend

inductive FsOp where
  | lookup (parent : ℕ) (name : Bytes)
  | getattr (ino : ℕ)
  | opendir (ino : ℕ)
  | readdir (ino fh offset : ℕ) (full : List Row → Row → Bool)
  | readdirplus (ino fh offset : ℕ) (full : List Row → Row → Bool)
  | releasedir (ino fh : ℕ)

def FsOp.prog (f : Frontend) : FsOp → Proc FsState (Outcome Errno Reply)
  | .lookup parent name => f.lookup parent name
  | .getattr n => f.getattr n
  | .opendir n => f.opendir n
  | .readdir n fh offset full => f.readdir n fh offset full
  | .readdirplus n fh offset full => f.readdirplus n fh offset full
  | .releasedir _ fh => Frontend.releasedir fh

end Steam2Fs.Fuse
