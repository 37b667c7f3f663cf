import Steam2Fs.StoreBlobs

/-!
# Serving decoded bytes out of dats

`datBytes` assembles a block's stored bytes from cached windows, `resolveKey`
finds out once for each blob which key decrypts it, `block` decodes and checks
one block, and `read` cuts a byte range out of the blocks it covers. The loops
of `datBytes` and `read` are written over any monad, so that the same
definition also runs over given windows and given blocks. Block offsets and
sizes are 64-bit and their differences wrap, as in a release build.
-/

namespace Steam2Fs
open Outcome Text

def RAW_WINDOW : ℕ := 2 ^ 20

section Loops
variable {m : Type → Type} [Monad m] [MonadLiftT (Outcome ReadError) m]

/-- Stored bytes from `pos` on. A round that goes on takes at least one byte,
so the distance to `stop` is enough fuel. -/
def datLoop (window : ℕ → m Bytes) (stop : ℕ) : ℕ → ℕ → Bytes → m Bytes
  | 0, _, out => pure out
  | fuel + 1, pos, out =>
    if pos < stop then do
      let idx := pos / RAW_WINDOW
      let w ← window idx
      let inW := pos - idx * RAW_WINDOW
      if inW ≥ w.length then pure out
      else
        let take := min (stop - pos) (w.length - inW)
        datLoop window stop fuel (pos + take) (out ++ (w.drop inW).take take)
    else pure out

def datBytesWith (window : ℕ → m Bytes) (start stop : UInt64) : m Bytes := do
  let _ ← (liftM (withCapacity 1 (stop - start).toNat : Outcome ReadError Unit) : m Unit)
  datLoop window stop.toNat (stop.toNat - start.toNat) start.toNat []

/-- The loop of `read`: decoded bytes from `pos` on, a block at a time. -/
def readLoop (loc : FileLoc) (block : ℕ → m Bytes) (stop : ℕ) : ℕ → ℕ → Bytes → m Bytes
  | 0, _, out => pure out
  | fuel + 1, pos, out =>
    if pos < stop then do
      let i := pos / BLOCK_SIZE
      let b ← block i
      let inBlock := pos % BLOCK_SIZE
      if inBlock ≥ b.length then liftM (.err (loc.noSuchBlock i) : Outcome ReadError Bytes)
      else
        let take := min (stop - pos) (b.length - inBlock)
        readLoop loc block stop fuel (pos + take) (out ++ (b.drop inBlock).take take)
    else pure out

def readWith (loc : FileLoc) (block : ℕ → m Bytes) (offset len : UInt64) : m Bytes :=
  let size := loc.record.size
  if offset ≥ size ∨ len = 0 then pure []
  else do
    let stop := min (offset + len) size
    let _ ← (liftM (withCapacity 1 (stop - offset).toNat : Outcome ReadError Unit) : m Unit)
    readLoop loc block stop.toNat (stop.toNat - offset.toNat) offset.toNat []

end Loops

namespace Dump
variable (d : Dump)

/-! ### Raw windows -/

def windowBytes (dat idx : ℕ) : Outcome ReadError Bytes := do
  let entry ← d.datEntry dat
  let start := idx * RAW_WINDOW
  let len := min RAW_WINDOW (entry.size.toNat - start)
  if len = 0 then .ok []
  else match d.readAt entry.path start len with
    | .ok bytes => .ok bytes
    | .error e => .err (.other (.msg e))

def getRaw (key : ℕ × ℕ) : StoreCall (Option Bytes) :=
  Call.atomic fun s => ((s.raw.get key).1, { s with raw := (s.raw.get key).2 })

def fetchWindow (dat idx : ℕ) : StoreCall Bytes := do
  match ← getRaw (dat, idx) with
  | some w => pure w
  | none =>
    let w ← Call.lift (d.windowBytes dat idx)
    Call.modify fun s => { s with raw := s.raw.insert (dat, idx) w }
    pure w

def rawWindow (dat idx : ℕ) : StoreCall Bytes := do
  match ← getRaw (dat, idx) with
  | some w => pure w
  | none => d.fetchWindow dat idx

def datBytes (dat : ℕ) (start stop : UInt64) : StoreCall Bytes :=
  datBytesWith (d.rawWindow dat) start stop

/-! ### Keys -/

/-- One raw encrypted block with its mode and stored checksum. -/
structure Sample where
  mode : Mode
  raw : Bytes
  expected : UInt32

def works (sample : Sample) (k : Key) : Bool :=
  (Chunk.decodeVerified d.codec sample.mode sample.raw (some k) sample.expected).isOk

def searchKeys (sample : Sample) : ℕ → List (Str × Key) → KeyResolution
  | tried, [] => .none tried
  | tried, (label, k) :: rest =>
    if d.works sample k then .discovered k (KeyStore.labelDepot label)
    else searchKeys sample (tried + 1) rest

def searchResolution (sample : Sample) : KeyResolution :=
  if d.cfg.keySearch then d.searchKeys sample 0 d.keys.candidates else .none 0

def resolution (entry : BlobEntry) (sample : Sample) : KeyResolution :=
  match d.keys.getForBlob entry.depot entry.crc with
  | some k => if d.works sample k then .configured k else d.searchResolution sample
  | none => d.searchResolution sample

def resolveKey (source : ℕ) (sample : Sample) : StoreCall KeyResolution := do
  match ← Call.read fun s => s.resolvedKeys source with
  | some r => pure r
  | none =>
    let entry ← Call.lift (d.blob source)
    let r := d.resolution entry sample
    Call.modify fun s => { s with resolvedKeys := Function.update s.resolvedKeys source (some r) }
    pure r

/-! ### Blocks -/

def missingDat {α : Type} (loc : FileLoc) : StoreCall α := do
  let e ← Call.lift (d.blob loc.source)
  match ← (d.parsed loc.source).attempt with
  | .ok p => Call.lift (.err (.missingDat e.depot e.version p.info.datCrc))
  | .error _ => Call.lift (.err (.missingDat e.depot e.version 0))

/-- The stored bytes have to be as long as the block table says. -/
def checkStored (loc : FileLoc) (i : ℕ) (start stop : UInt64) (raw : Bytes) :
    Outcome ReadError Unit :=
  if raw.length ≠ (stop - start).toNat then
    .err (.shortRead loc.record.fileId i (stop - start).toNat raw.length)
  else .ok ()

def storedBytes (loc : FileLoc) (i dat : ℕ) (start stop : UInt64) : StoreCall Bytes := do
  let raw ← d.datBytes dat start stop
  let _ ← Call.lift (checkStored loc i start stop raw)
  pure raw

def probeKey (loc : FileLoc) : StoreCall KeyResolution := do
  match loc.dat with
  | none => d.missingDat loc
  | some dat =>
    match loc.record.blocks.head?, loc.blockSpan 0 with
    | some first, some (start, stop) =>
      let raw ← d.storedBytes loc 0 dat start stop
      d.resolveKey loc.source ⟨loc.record.mode, raw, first.checksum⟩
    | _, _ => Call.lift (.err (.noBlocksToProbe loc.record.fileId))

def keyOf (entry : BlobEntry) : KeyResolution → Outcome ReadError Key
  | .configured k => .ok k
  | .discovered k _ => .ok k
  | .none 0 => .err (.noKey entry.depot)
  | .none tried => .err (.noWorkingKey entry.depot entry.crc tried)

/-- Decode, verify the checksum, and check the length against the file size. -/
def decodeBlock (loc : FileLoc) (i : ℕ) (b : Block) (raw : Bytes) (key : Option Key) :
    Outcome ReadError Bytes := do
  let decoded ← (Chunk.decodeOwned d.codec loc.record.mode raw key).mapErr .format
  let actual := Chunk.checksum decoded
  if d.cfg.verify ∧ actual ≠ b.checksum then
    .err (.checksum loc.record.fileId i b.checksum actual)
  else
    let want := loc.record.blockLen i
    if decoded.length ≠ want then .err (.blockSize loc.record.fileId i want decoded.length)
    else .ok decoded

def getBlock (key : ℕ × UInt64) : StoreCall (Option Bytes) :=
  Call.atomic fun s => ((s.blocks.get key).1, { s with blocks := (s.blocks.get key).2 })

/-- A plain block's decoded bytes are its stored bytes, and are not kept twice. -/
def keepBlock (mode : Mode) (key : ℕ × UInt64) (decoded : Bytes) : StoreCall Unit :=
  if mode ≠ .plain then Call.modify fun s => { s with blocks := s.blocks.insert key decoded }
  else pure ()

def blockKey (loc : FileLoc) (entry : BlobEntry) (b : Block) (raw : Bytes) :
    StoreCall (Option Key) :=
  if loc.record.mode.isEncrypted then do
    let r ← d.resolveKey loc.source ⟨loc.record.mode, raw, b.checksum⟩
    let k ← Call.lift (keyOf entry r)
    pure (some k)
  else pure none

def loadBlock (loc : FileLoc) (i dat : ℕ) (b : Block) (start stop : UInt64) :
    StoreCall Bytes := do
  let raw ← d.storedBytes loc i dat start stop
  let entry ← Call.lift (d.blob loc.source)
  let key ← d.blockKey loc entry b raw
  let decoded ← Call.lift (d.decodeBlock loc i b raw key)
  keepBlock loc.record.mode (dat, start) decoded
  pure decoded

def block (loc : FileLoc) (i : ℕ) : StoreCall Bytes :=
  match loc.dat with
  | none => d.missingDat loc
  | some dat =>
    match loc.record.blocks[i]?, loc.blockSpan i with
    | some b, some (start, stop) => do
      match ← getBlock (dat, start) with
      | some v => pure v
      | none => d.loadBlock loc i dat b start stop
    | _, _ => Call.lift (.err (loc.noSuchBlock i))

def read (loc : FileLoc) (offset len : UInt64) : StoreCall Bytes :=
  readWith loc (d.block loc) offset len

end Dump
end Steam2Fs
