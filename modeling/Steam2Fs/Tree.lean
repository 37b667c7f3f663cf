import Steam2Fs.StoreBlocks
import Steam2Fs.StoreTables

/-!
# The virtual tree the frontends serve

Depots, version directories and links are read off the index; everything
below a version comes from its manifest. Listing and lookup are written over
any monad that can load a manifest. A key names a node whether or not it
exists, so a call may be made with a blob id that no depot lists, and the
index then panics. Extended attributes only describe a node in text; they stand
with the calls that serve them.
-/

namespace Steam2Fs
open Outcome Text

namespace Tree

inductive Key where
  | root
  | depot (d : UInt32)
  | latest (d : UInt32)
  | byDate (d : UInt32)
  | dateLink (b : ℕ)
  | version (b : ℕ)
  | node (b : ℕ) (idx : UInt32)
  deriving DecidableEq, Repr

inductive Kind where
  | dir
  | file
  | symlink
  deriving DecidableEq, Repr

structure Meta where
  kind : Kind
  size : UInt64
  mtime : Instant
  deriving DecidableEq, Repr

structure Entry where
  name : Bytes
  key : Key
  kind : Kind
  deriving DecidableEq, Repr

inductive TreeError where
  | notFound
  | notADirectory
  | read (e : ReadError)
  deriving DecidableEq, Repr

end Tree

structure Tree where
  store : Dump

namespace Tree

abbrev TreeCall := Call Store TreeError

def UNIX_EPOCH : Instant := ⟨0, 0⟩

/-- The node a manifest index names when there is none; it is a directory. -/
def defaultNode : Node := ⟨0, 0, NO_NODE, 0, NO_NODE, NO_NODE, NO_NODE⟩

def nodeKey (b : ℕ) (m : Manifest) (idx : UInt32) : Key :=
  if idx = m.root then .version b else .node b idx

/-- The manifest node a key names, for the two keys that have one. -/
def nodeIndex (m : Manifest) : Key → Option UInt32
  | .version _ => some m.root
  | .node _ idx => some idx
  | _ => none

variable (t : Tree)

def blobDate (id : ℕ) : Outcome TreeError Instant := do
  let e ← t.store.blob id
  .ok (e.date.getD UNIX_EPOCH)

def manifest (id : ℕ) : TreeCall Manifest := do
  let p ← (t.store.parsed id).mapErr .read
  pure p.manifest

/-- Where a symlink points, relative to its own directory. -/
def linkTarget : Key → Outcome TreeError (Option Str)
  | .latest d => .ok (do
    let b ← t.store.index.latest d
    let dep ← t.store.index.depot d
    dep.nameOf b)
  | .dateLink b => do
    let e ← t.store.blob b
    .ok (do
      let dep ← t.store.index.depot e.depot
      let n ← dep.nameOf b
      some ("../".toList ++ n))
  | _ => .ok none

def linkMeta (key : Key) (target : ℕ) : Outcome TreeError Meta := do
  let name := (← t.linkTarget key).getD []
  .ok ⟨.symlink, UInt64.ofNat (utf8 name).length, ← t.blobDate target⟩

def nodeMeta (b : ℕ) (m : Manifest) (idx : UInt32) : TreeCall Meta := do
  let n := (m.node idx).getD defaultNode
  if n.isDir then
    let mtime ← Call.lift (t.blobDate b)
    pure ⟨.dir, 0, mtime⟩
  else
    match ← (t.store.locate b n.fileId).attempt with
    | .ok loc =>
      let mtime ← Call.lift (t.blobDate loc.source)
      pure ⟨.file, loc.record.size, mtime⟩
    | .error _ =>
      let mtime ← Call.lift (t.blobDate b)
      pure ⟨.file, n.countOrSize.toUInt64, mtime⟩

def dirMeta (mtime : Instant) : Meta := ⟨.dir, 0, mtime⟩

def metaOf : Key → TreeCall Meta
  | .root => pure (dirMeta UNIX_EPOCH)
  | .depot d => Call.lift (match t.store.index.latest d with
    | none => .ok (dirMeta UNIX_EPOCH)
    | some b => dirMeta <$> t.blobDate b)
  | .byDate _ => pure (dirMeta UNIX_EPOCH)
  | .latest d => Call.lift (match t.store.index.latest d with
    | none => .err .notFound
    | some target => t.linkMeta (.latest d) target)
  | .dateLink b => Call.lift (t.linkMeta (.dateLink b) b)
  | .version b => Call.lift (dirMeta <$> t.blobDate b)
  | .node b idx => do
    let m ← t.manifest b
    t.nodeMeta b m idx

/-- The directory a key lives in, or the nearest sensible one. -/
def parent : Key → TreeCall Key
  | .root | .depot _ | .byDate _ | .latest _ | .dateLink _ => pure .root
  | .version b => do
    let e ← Call.lift (t.store.blob b)
    pure (.depot e.depot)
  | .node b idx => do
    match ← (t.manifest b).attempt with
    | .ok m => pure (match m.node idx with
      | none => .version b
      | some n => nodeKey b m n.parent)
    | .error _ => pure (.version b)

section Listing
variable {m : Type → Type} [Monad m] [MonadLiftT (Outcome TreeError) m]

def kindOf (m : Manifest) (idx : UInt32) : Kind :=
  if ((m.node idx).map Node.isDir).getD false then .dir else .file

def nodeEntry (b : ℕ) (m : Manifest) (c : UInt32) : Entry := ⟨m.name c, nodeKey b m c, kindOf m c⟩

def nodeEntries (b : ℕ) (key : Key) (m : Manifest) : Outcome TreeError (List Entry) := do
  let dir ← Outcome.ofOption .notADirectory (nodeIndex m key)
  if ((m.node dir).map Node.isDir).getD false then .ok ((m.children dir).map (nodeEntry b m))
  else .err .notADirectory

def depotEntries (d : UInt32) (dep : Depot) : List Entry :=
  dep.versions.map (fun v => ⟨utf8 v.1, .version v.2, .dir⟩) ++
    (if (t.store.index.latest d).isSome then
      [⟨utf8 "latest".toList, .latest d, .symlink⟩] else []) ++
    [⟨utf8 "by-date".toList, .byDate d, .dir⟩]

def entriesWith (manifest : ℕ → m Manifest) (key : Key) : m (List Entry) :=
  match key with
  | .root => pure (t.store.index.depots.map fun e => ⟨utf8 (decimal e.1.toNat), .depot e.1, .dir⟩)
  | .depot d => pure (match t.store.index.depot d with
    | none => []
    | some dep => t.depotEntries d dep)
  | .byDate d => pure (match t.store.index.depot d with
    | none => []
    | some dep => dep.dateLinks.map fun l => ⟨utf8 l.1, .dateLink l.2, .symlink⟩)
  | .version b | .node b _ => do
    let mf ← manifest b
    liftM (nodeEntries b key mf)
  | .latest _ | .dateLink _ => liftM (.err .notADirectory : Outcome TreeError (List Entry))

def entries : Key → TreeCall (List Entry) := t.entriesWith t.manifest

end Listing

section Lookup
variable {m : Type → Type} [Monad m] [MonadLiftT (Outcome TreeError) m]

def lookupDepot (name : Str) : Option Key :=
  ((parseU32 10 name).filter fun d => (t.store.index.depot d).isSome).map .depot

def lookupInDepot (d : UInt32) (name : Str) : Option Key :=
  if name = "latest".toList then (t.store.index.latest d).map fun _ => .latest d
  else if name = "by-date".toList then some (.byDate d)
  else ((t.store.index.depot d).bind (·.lookupName name)).map .version

def nodeLookup (b : ℕ) (dirKey : Key) (name : Bytes) (m : Manifest) :
    Outcome TreeError (Option Key) := do
  let dir ← Outcome.ofOption .notADirectory (nodeIndex m dirKey)
  .ok ((m.childByName dir name).map (nodeKey b m))

/-- One child by name; `none` says that the directory has no such name. -/
def lookupWith (manifest : ℕ → m Manifest) (dirKey : Key) (name : Bytes) : m (Option Key) :=
  let nameStr := fromUtf8Lossy name
  match dirKey with
  | .root => pure (t.lookupDepot nameStr)
  | .depot d => pure (t.lookupInDepot d nameStr)
  | .byDate d =>
    pure (((t.store.index.depot d).bind (·.lookupDateLink nameStr)).map .dateLink)
  | .version b | .node b _ => do
    let mf ← manifest b
    liftM (nodeLookup b dirKey name mf)
  | .latest _ | .dateLink _ => pure none

def lookup : Key → Bytes → TreeCall (Option Key) := t.lookupWith t.manifest

end Lookup

def locate : Key → TreeCall FileLoc
  | .node b idx => do
    let m ← t.manifest b
    let n ← Call.lift (Outcome.ofOption .notFound (m.node idx))
    if n.isDir then Call.lift (.err .notFound)
    else (t.store.locate b n.fileId).mapErr .read
  | _ => Call.lift (.err .notFound)

def read (loc : FileLoc) (offset len : UInt64) : TreeCall Bytes :=
  (t.store.read loc offset len).mapErr .read

end Tree
end Steam2Fs
