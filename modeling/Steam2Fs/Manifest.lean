import Steam2Fs.Codec
import Steam2Fs.Lib.Search
import Mathlib.Data.List.Lex
import Mathlib.Data.List.Sort
import Mathlib.Data.Prod.Lex

/-!
# The binary manifest: the directory tree of one depot version

`parse` keeps the order of the source's checks: header words, block size,
buffer size, checksum, table bounds, then one pass over the nodes that range
checks each name offset and each link on its own. Names are served from the
lengths found in that pass, and children are searched in `byName`, the nodes
that have a parent, sorted by parent and name.

The parent walk of `path` need not end, so it is run for a number of loop
iterations and answers `none` while the loop is still going.
-/

namespace Steam2Fs

def HEADER_SIZE : ℕ := 0x38
def NODE_SIZE : ℕ := 0x1c
def NO_NODE : UInt32 := 0xffffffff
def NO_FILE : UInt32 := 0xffffffff

structure Node where
  nameOffset : UInt32
  countOrSize : UInt32
  fileId : UInt32
  flags : UInt32
  parent : UInt32
  nextSibling : UInt32
  firstChild : UInt32
  deriving DecidableEq, Repr

def Node.isDir (n : Node) : Bool := n.fileId = NO_FILE

structure Manifest where
  formatVersion : UInt32
  appId : UInt32
  versionId : UInt32
  depotInfo : UInt32
  fingerprint : UInt32
  nodes : List Node
  stringTable : Bytes
  nameLen : List UInt32
  byName : List UInt32
  deriving DecidableEq, Repr

namespace Manifest

def checksum (data : Bytes) : Outcome FormatError UInt32 := do
  let before ← indexRange data 0 0x30
  let after ← indexRange data 0x38 data.length
  .ok ((((Adler32.fromChecksum 0).writeSlice before).writeSlice
    (List.replicate 8 0)).writeSlice after).checksum

def parseNode (data : Bytes) (i : ℕ) : Outcome FormatError Node := do
  let base ← usizeAdd HEADER_SIZE (← usizeMul i NODE_SIZE)
  let f (j : ℕ) : Outcome FormatError UInt32 := do u32At data (← usizeAdd base (j * 4))
  .ok ⟨← f 0, ← f 1, ← f 2, ← f 3, ← f 4, ← f 5, ← f 6⟩

/-- The per-node checks; the result is the length of the node's name. -/
def checkNode (nodes : List Node) (stringTable : Bytes) (i : ℕ) (n : Node) :
    Outcome FormatError UInt32 :=
  let outOfRange (link : UInt32) : Prop := link ≠ 0 ∧ link ≠ NO_NODE ∧ nodes.length ≤ link.toNat
  match getRange stringTable n.nameOffset.toNat stringTable.length with
  | none => .err (.malformed s!"node {i}: name offset out of range")
  | some rest =>
    let len := rest.findIdx (· = 0)
    if 2 ^ 32 ≤ len then .err (.malformed s!"node {i}: name too long")
    else if n.parent ≠ NO_NODE ∧ nodes.length ≤ n.parent.toNat then
      .err (.malformed s!"node {i}: parent out of range")
    else if outOfRange n.firstChild then
      .err (.malformed s!"node {i}: first child {n.firstChild.toNat} out of range")
    else if outOfRange n.nextSibling then
      .err (.malformed s!"node {i}: next sibling {n.nextSibling.toNat} out of range")
    else .ok (UInt32.ofNat len)

def node (m : Manifest) (idx : UInt32) : Option Node := m.nodes[idx.toNat]?

def name (m : Manifest) (idx : UInt32) : Bytes :=
  match m.node idx with
  | none => []
  | some n =>
    let start := n.nameOffset.toNat
    let len := ((m.nameLen[idx.toNat]?).getD 0).toNat
    (getRange m.stringTable start (start + len)).getD []

def root (m : Manifest) : UInt32 :=
  match m.nodes.findIdx? fun n => n.parent = NO_NODE with
  | some i => UInt32.ofNat i
  | none => 0

abbrev SortKey := ℕ ×ₗ List ℕ

/-- Lexicographic order of the pair (parent, name), names bytewise. -/
def mkKey (parent : UInt32) (name : Bytes) : SortKey :=
  toLex (parent.toNat, name.map UInt8.toNat)

def sortKey (m : Manifest) (idx : UInt32) : SortKey :=
  mkKey (((m.node idx).map Node.parent).getD NO_NODE) (m.name idx)

def sortedByName (m : Manifest) : List UInt32 :=
  (((List.range m.nodes.length).map UInt32.ofNat).filter fun i =>
    ((m.node i).map Node.parent).getD NO_NODE ≠ NO_NODE).insertionSort
    fun a b => m.sortKey a ≤ m.sortKey b

def parse (data : Bytes) : Outcome FormatError Manifest := do
  if data.length < HEADER_SIZE then .err (.malformed "manifest shorter than header")
  else
  let hdr (i : ℕ) := u32At data (i * 4)
  let formatVersion ← hdr 0
  if formatVersion ≠ 3 ∧ formatVersion ≠ 4 then
    .err (.malformed s!"manifest version {formatVersion.toNat} not 3 or 4")
  else
  let appId ← hdr 1
  let versionId ← hdr 2
  let numNodes := (← hdr 3).toNat
  let binarySize := (← hdr 6).toNat
  let stringTableSize := (← hdr 7).toNat
  let blockSize ← hdr 5
  let depotInfo ← hdr 11
  let fingerprint ← hdr 12
  let expectedChecksum ← hdr 13
  if blockSize.toNat ≠ BLOCK_SIZE then
    .err (.malformed ("manifest block size " ++ hexText 0 blockSize.toNat))
  else if binarySize ≠ data.length then
    .err (.malformed s!"manifest binary_size {binarySize} != buffer {data.length}")
  else
  let actual ← checksum data
  if actual ≠ expectedChecksum then
    .err (.malformed ("manifest checksum " ++ hexText 8 actual.toNat ++ " != header " ++
      hexText 8 expectedChecksum.toNat))
  else
  let nodesEnd ← usizeAdd HEADER_SIZE (← usizeMul numNodes NODE_SIZE)
  let stringsEnd ← usizeAdd nodesEnd stringTableSize
  if stringsEnd > data.length then
    .err (.malformed "manifest node/string tables exceed buffer")
  else
  let _ ← withCapacity NODE_SIZE numNodes
  let nodes ← Outcome.collect (parseNode data) (List.range numNodes)
  let stringTable ← indexRange data nodesEnd stringsEnd
  let _ ← withCapacity 4 nodes.length
  let nameLen ← Outcome.collect (fun p : Node × ℕ => checkNode nodes stringTable p.2 p.1)
    nodes.zipIdx
  let m : Manifest :=
    ⟨formatVersion, appId, versionId, depotInfo, fingerprint, nodes, stringTable, nameLen, []⟩
  .ok { m with byName := m.sortedByName }

/-- The `Children` iterator, run to its end. -/
def childrenFrom (m : Manifest) : ℕ → UInt32 → List UInt32
  | 0, _ => []
  | remaining + 1, next =>
    if next = 0 ∨ next = NO_NODE then []
    else match m.node next with
      | none => []
      | some n => next :: childrenFrom m remaining n.nextSibling

def children (m : Manifest) (dir : UInt32) : List UInt32 :=
  match m.node dir with
  | none => []
  | some n => m.childrenFrom (if n.isDir then n.countOrSize.toNat else 0) n.firstChild

def childByName (m : Manifest) (dir : UInt32) (name : Bytes) : Option UInt32 :=
  (Search.binarySearchBy (fun idx => cmp (m.sortKey idx) (mkKey dir name)) m.byName).bind
    (m.byName[·]?)

def join : List Bytes → Bytes
  | [] => []
  | [p] => p
  | p :: ps => p ++ 0x2f :: join ps

/-- The loop of `path`, stopped with `none` when it has not left the loop
after the given number of iterations. -/
def pathLoop (m : Manifest) : ℕ → UInt32 → List Bytes → Option (List Bytes)
  | fuel, cur, parts =>
    match m.node cur with
    | none => some parts
    | some n =>
      if n.parent = NO_NODE then some parts
      else match fuel with
        | 0 => none
        | fuel + 1 => pathLoop m fuel n.parent (parts ++ [m.name cur])

def path (m : Manifest) (fuel : ℕ) (idx : UInt32) : Option Bytes :=
  (m.pathLoop fuel idx []).map fun parts => join parts.reverse

end Manifest
end Steam2Fs
