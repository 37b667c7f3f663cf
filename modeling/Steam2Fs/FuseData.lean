import Steam2Fs.FuseCalls

/-!
# Links, contents and attributes through the FUSE frontend

The calls that read the table of inodes and the store and change neither table
of the frontend. Extended attributes describe a node in text. Asked for with no
room, an attribute or the list of their names answers how much room it takes.

A mount serves these calls and those that use the tables, from any number of
threads.
-/

namespace Steam2Fs
open Outcome Text

/-! ### Flags of a node in words -/

namespace Flags

def FILE : UInt32 := 0x4000
def ENCRYPTED : UInt32 := 0x0100
def BACKUP_LOCAL : UInt32 := 0x0040
def COPY_LOCAL : UInt32 := 0x000a
def COPY_LOCAL_NO_OVERWRITE : UInt32 := 0x0001

def table : List (UInt32 × Str) :=
  [(FILE, "file".toList), (ENCRYPTED, "encrypted".toList),
    (BACKUP_LOCAL, "backup_local".toList), (COPY_LOCAL, "copy_local".toList),
    (COPY_LOCAL_NO_OVERWRITE, "copy_local_no_overwrite".toList)]

/-- The names of the entries that are in `v` whole, and the bits they leave. -/
def named : List (UInt32 × Str) → UInt32 → List Str × UInt32
  | [], v => ([], v)
  | (bit, name) :: rest, v =>
    if v &&& bit = bit then
      let (out, left) := named rest (v &&& ~~~bit)
      (name :: out, left)
    else named rest v

def describe (v : UInt32) : Str :=
  let (out, left) := named table v
  let out := if left ≠ 0 then out ++ ["0x".toList ++ hexLower left.toNat] else out
  if out = [] then "directory".toList else [','].intercalate out

end Flags

def Mode.debug : Mode → Str
  | .plain => "Plain".toList
  | .compressed => "Compressed".toList
  | .compressedEncrypted => "CompressedEncrypted".toList
  | .encrypted => "Encrypted".toList

/-! ### Attributes of a key -/

namespace Tree
variable (t : Tree)

abbrev Attr := Str × Str

def blobAttrs (e : BlobEntry) : List Attr :=
  [("user.steam2.depot".toList, decimal e.depot.toNat),
    ("user.steam2.version".toList, decimal e.version.toNat),
    ("user.steam2.blob".toList, e.fileName)] ++
  (e.date.map fun at_ => ("user.steam2.date".toList, formatStamp at_.secs)).toList

def parsedAttrs (p : ParsedBlob) : List Attr :=
  [("user.steam2.app_id".toList, decimal p.manifest.appId.toNat),
    ("user.steam2.dat_crc".toList, padZero 8 (hexLower p.info.datCrc.toNat))] ++
  (p.info.prev.map fun prev => ("user.steam2.parent".toList,
    decimal prev.1.toNat ++ '-' :: padZero 8 (hexLower prev.2.toNat))).toList

def nodeAttrs (n : Node) : List Attr :=
  [("user.steam2.flags".toList, "0x".toList ++ padZero 4 (hexLower n.flags.toNat)),
    ("user.steam2.flags_decoded".toList, Flags.describe n.flags)]

def locAttrs (loc : FileLoc) : Outcome TreeError (List Attr) := do
  let source ← t.store.blob loc.source
  let found : List Attr :=
    [("user.steam2.mode".toList, loc.record.mode.debug),
      ("user.steam2.source_version".toList, decimal source.version.toNat),
      ("user.steam2.blocks".toList, decimal loc.record.numBlocks)]
  match loc.dat with
  | some dat =>
    let de ← t.store.datEntry dat
    .ok (found ++ [("user.steam2.dat".toList, de.path),
      ("user.steam2.dat_offset".toList, decimal loc.record.offset.toNat)] ++
      if de.incomplete then [("user.steam2.dat_incomplete".toList, "1".toList)] else [])
  | none => .ok (found ++ [("user.steam2.dat".toList, "missing".toList)])

section Attrs
variable {m : Type → Type} [Monad m] [MonadLiftT (Outcome TreeError) m]
  (parsed : ℕ → m (Except ReadError ParsedBlob)) (locate : ℕ → UInt32 → m (Except ReadError FileLoc))

def versionAttrs (b : ℕ) : m (List Attr) := do
  let e ← liftM (t.store.blob b : Outcome TreeError BlobEntry)
  match ← parsed b with
  | .ok p => pure (blobAttrs e ++ parsedAttrs p)
  | .error _ => pure (blobAttrs e)

def fileAttrs (b : ℕ) (n : Node) : m (List Attr) := do
  if n.isDir then pure []
  else
    match ← locate b n.fileId with
    | .ok loc =>
      let found ← liftM (t.locAttrs loc)
      pure (("user.steam2.file_id".toList, decimal n.fileId.toNat) :: found)
    | .error _ => pure [("user.steam2.file_id".toList, decimal n.fileId.toNat)]

/-- What is known of a node; what cannot be had is left out. -/
def xattrsWith : Key → m (List Attr)
  | .depot d => pure [("user.steam2.depot".toList, decimal d.toNat)]
  | .version b => t.versionAttrs parsed b
  | .node b idx => do
    let version ← t.versionAttrs parsed b
    match ← parsed b with
    | .ok p => match p.manifest.node idx with
      | some n =>
        let file ← t.fileAttrs locate b n
        pure (version ++ nodeAttrs n ++ file)
      | none => pure version
    | .error _ => pure version
  | _ => pure []

end Attrs

def xattrs : Key → TreeCall (List Attr) :=
  t.xattrsWith (fun b => (t.store.parsed b).attempt) fun b fileId => (t.store.locate b fileId).attempt

end Tree

/-! ### Calls -/

namespace Fuse

inductive MountErrno where
  | call (e : Errno)
  | einval
  | eisdir
  | enodata
  | erange
  deriving DecidableEq, Repr

inductive MountReply where
  | call (r : Reply)
  | data (bytes : Bytes)
  | size (n : UInt32)
  | opened

abbrev MountCall := Call FsState MountErrno

def sized (bytes : Bytes) (size : UInt32) : Outcome MountErrno MountReply :=
  if size = 0 then .ok (.size (UInt32.ofNat bytes.length))
  else if UInt32.ofNat bytes.length ≤ size then .ok (.data bytes)
  else .err .erange

def nameList (attrs : List Tree.Attr) : Bytes := attrs.flatMap fun a => utf8 a.1 ++ [0]

def getSized (attrs : List Tree.Attr) (wanted : Str) (size : UInt32) :
    Outcome MountErrno MountReply :=
  match attrs.find? fun a => a.1 = wanted with
  | some a => sized (utf8 a.2) size
  | none => .err .enodata

def keyCall (n : ℕ) : MountCall Tree.Key := do
  let key ← Call.read fun s => s.inodes.key n
  Call.lift (Outcome.ofOption (.call .enoent) key)

def treeCall {α : Type} (x : Tree.TreeCall α) : MountCall α := Call.mapErr .call (ofTree x)

namespace Frontend
variable (f : Frontend)

def linkReply : Option Str → Outcome MountErrno MountReply
  | some target => .ok (.data (utf8 target))
  | none => .err .einval

def readlink (n : ℕ) : MountCall MountReply := do
  match ← Call.read fun s => s.inodes.key n with
  | some key =>
    let target ← Call.lift ((f.tree.linkTarget key).mapErr fun e => .call (errno e))
    Call.lift (linkReply target)
  | none => Call.lift (.err .einval)

def openReply : Option Tree.Key → Outcome MountErrno MountReply
  | some (.node _ _) => .ok .opened
  | some _ => .err .eisdir
  | none => .err (.call .enoent)

def openFile (n : ℕ) : MountCall MountReply := do
  let key ← Call.read fun s => s.inodes.key n
  Call.lift (openReply key)

def read (n : ℕ) (offset : UInt64) (size : UInt32) : MountCall MountReply := do
  let key ← keyCall n
  let loc ← treeCall (f.tree.locate key)
  let bytes ← treeCall (f.tree.read loc offset size.toUInt64)
  pure (.data bytes)

/-- Other namespaces are asked for all the time, and are not looked up. -/
def getxattr (n : ℕ) (name : Bytes) (size : UInt32) : MountCall MountReply := do
  let key ← keyCall n
  let wanted := fromUtf8Lossy name
  if "user.steam2.".toList.isPrefixOf wanted then
    let attrs ← treeCall (f.tree.xattrs key)
    Call.lift (getSized attrs wanted size)
  else Call.lift (.err .enodata)

def listxattr (n : ℕ) (size : UInt32) : MountCall MountReply := do
  let key ← keyCall n
  let attrs ← treeCall (f.tree.xattrs key)
  Call.lift (sized (nameList attrs) size)

end Frontend

inductive MountOp where
  | call (op : FsOp)
  | readlink (ino : ℕ)
  | openFile (ino : ℕ)
  | read (ino : ℕ) (offset : UInt64) (size : UInt32)
  | getxattr (ino : ℕ) (name : Bytes) (size : UInt32)
  | listxattr (ino : ℕ) (size : UInt32)

def replied : Outcome Errno Reply → Outcome MountErrno MountReply
  | .ok r => .ok (.call r)
  | .err e => .err (.call e)
  | .panic => .panic

def MountOp.prog (f : Frontend) : MountOp → Proc FsState (Outcome MountErrno MountReply)
  | .call op => Proc.bind (fun o => .done (replied o)) (op.prog f)
  | .readlink n => f.readlink n
  | .openFile n => Frontend.openFile n
  | .read n offset size => f.read n offset size
  | .getxattr n name size => f.getxattr n name size
  | .listxattr n size => f.listxattr n size

end Fuse
end Steam2Fs
