import Steam2Fs.ArchiveRuns
import Steam2Fs.VerifyParallel

/-!
# The `inspect` command

Of a depot `inspect` lists the versions, and of one version its chain, how many
of its files have a record and a dat, and when asked each file with its record.
It reads metadata only: what it says of a file comes from the table and the
manifest, while `verify` reads every block. The layout of the printed lines is
left out; a line is what it says.

Over an archive the two commands agree: a file that `inspect` says has no record
is one that `verify` reports, and the others are read whole.
-/

namespace Steam2Fs
open Outcome Text

def FileTable.contains (t : FileTable) (fileId : UInt32) : Bool := (t.get fileId).isSome

inductive InspectError where
  | noDepot (depot : UInt32)
  | noVersion (depot : UInt32) (version : Str)
  | read (e : ReadError)
  deriving DecidableEq, Repr

inductive DatSeen where
  | present (size : UInt64) (incomplete : Bool)
  | missing (crc : UInt32)
  deriving DecidableEq, Repr

structure VersionRow where
  name : Str
  date : Str
  /-- `none` where the blob is unreadable. -/
  dat : Option DatSeen
  deriving DecidableEq, Repr

structure ChainRow where
  version : UInt32
  crc : UInt32
  prev : Option (UInt32 × UInt32)
  datCrc : UInt32
  dat : DatSeen
  appId : UInt32
  versionId : UInt32
  nodes : ℕ
  records : ℕ
  deriving DecidableEq, Repr

structure FoundFile where
  mode : Mode
  size : UInt64
  blocks : ℕ
  version : UInt32
  hasDat : Bool
  deriving DecidableEq, Repr

structure FileRow where
  path : Bytes
  fileId : UInt32
  found : Option FoundFile
  deriving DecidableEq, Repr

structure VersionReport where
  chain : List ChainRow
  files : ℕ
  located : ℕ
  readable : ℕ
  /-- What `--files` adds. -/
  rows : Option (List FileRow)
  deriving DecidableEq, Repr

structure InspectReport where
  blobs : ℕ
  keyKnown : Bool
  body : List VersionRow ⊕ VersionReport
  deriving DecidableEq, Repr

namespace Dump
variable (d : Dump)

def depotNamed (depot : UInt32) : Outcome InspectError Depot :=
  ofOption (.noDepot depot) (d.index.depot depot)

def resolveVersion (depot : UInt32) (version : Str) : Outcome InspectError ℕ := do
  let dep ← d.depotNamed depot
  ofOption (.noVersion depot version) (dep.lookupName version)

def datSeen (depot : UInt32) (e : BlobEntry) (p : ParsedBlob) : Outcome ReadError DatSeen :=
  match d.index.findDat depot e.version p.info.datCrc with
  | some dat => do
    let de ← d.datEntry dat
    .ok (.present de.size de.incomplete)
  | none => .ok (.missing p.info.datCrc)

def versionRow (depot : UInt32) (name : Str) (b : ℕ) : StoreCall VersionRow := do
  let e ← Call.lift (d.blob b)
  let date := (e.date.map fun at_ => formatStamp at_.secs).getD "-".toList
  match ← (d.parsed b).attempt with
  | .ok p => do
    let dat ← Call.lift (d.datSeen depot e p)
    pure ⟨name, date, some dat⟩
  | .error _ => pure ⟨name, date, none⟩

def versionRows (depot : UInt32) : List (Str × ℕ) → StoreCall (List VersionRow)
  | [] => pure []
  | v :: rest => do
    let row ← d.versionRow depot v.1 v.2
    let rows ← versionRows depot rest
    pure (row :: rows)

section Rows
variable {m : Type → Type} [Monad m] [MonadLiftT (Outcome ReadError) m]

def chainRowsWith (parsed : ℕ → m ParsedBlob) (depot : UInt32) : List ℕ → m (List ChainRow)
  | [] => pure []
  | b :: rest => do
    let e ← liftM (d.blob b : Outcome ReadError BlobEntry)
    let p ← parsed b
    let dat ← liftM (d.datSeen depot e p)
    let rows ← chainRowsWith parsed depot rest
    pure (⟨e.version, e.crc, p.info.prev, p.info.datCrc, dat, p.manifest.appId,
      p.manifest.versionId, p.manifest.nodes.length, p.records.length⟩ :: rows)

end Rows

def fileRow (t : FileTable) (m : Manifest) (n : Node) (i : ℕ) : Outcome ReadError FileRow :=
  match m.path m.nodes.length (UInt32.ofNat i) with
  | none => .panic
  | some path => match t.get n.fileId with
    | none => .ok ⟨path, n.fileId, none⟩
    | some loc => do
      let source ← d.blob loc.source
      .ok ⟨path, n.fileId, some ⟨loc.record.mode, loc.record.size, loc.record.numBlocks,
        source.version, loc.dat.isSome⟩⟩

def fileRows (t : FileTable) (m : Manifest) : List (Node × ℕ) → Outcome ReadError (List FileRow)
  | [] => .ok []
  | (n, i) :: rest =>
    if n.isDir then fileRows t m rest
    else do
      let row ← d.fileRow t m n i
      let rows ← fileRows t m rest
      .ok (row :: rows)

def figures (t : FileTable) (m : Manifest) (chain : List ChainRow) (files : Bool) :
    Outcome ReadError VersionReport := do
  let nodes := m.nodes.filter fun n => !n.isDir
  let rows ← if files then some <$> d.fileRows t m m.nodes.zipIdx else .ok none
  .ok {
    chain := chain
    files := nodes.length
    located := (nodes.filter fun n => t.contains n.fileId).length
    readable := (nodes.filter fun n => (t.get n.fileId).any fun l => l.dat.isSome).length
    rows := rows }

def inspectVersion (depot : UInt32) (id : ℕ) (files : Bool) : StoreCall VersionReport := do
  let chain ← d.chain id
  let rows ← d.chainRowsWith d.parsed depot chain
  let t ← d.table id
  let p ← d.parsed id
  Call.lift (d.figures t p.manifest rows files)

def inspect (depot : UInt32) (version : Option Str) (files : Bool) :
    Call Store InspectError InspectReport := do
  let dep ← Call.lift (d.depotNamed depot)
  let known := (d.keys.get depot).isSome
  match version with
  | none => do
    let rows ← Call.mapErr .read (d.versionRows depot dep.versions)
    pure ⟨dep.blobs.length, known, .inl rows⟩
  | some name => do
    let id ← Call.lift (d.resolveVersion depot name)
    let report ← Call.mapErr .read (d.inspectVersion depot id files)
    pure ⟨dep.blobs.length, known, .inr report⟩

end Dump
end Steam2Fs
