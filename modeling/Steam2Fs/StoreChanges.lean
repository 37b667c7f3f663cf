import Steam2Fs.Lib.Changes
import Steam2Fs.StoreCache

/-!
# What one action of a store call can do

`Change` lists the actions that the calls of the store are made of, each with
what the call has found out by the time it acts: a blob that is remembered has
been parsed, a window that is cached is what the backend holds. Every public
call is shown to consist of such changes and nothing else, whatever state it
meets between them. An invariant of the store is then one case for each change,
and it holds in every state that any number of calls come through.
-/

namespace Steam2Fs
open Outcome

inductive Request where
  | blobBytes (id : ℕ)
  | parsed (id : ℕ)
  | parent (id : ℕ)
  | chain (id : ℕ)
  | table (id : ℕ)
  | locate (id : ℕ) (fileId : UInt32)
  | probeKey (loc : FileLoc)
  | block (loc : FileLoc) (i : ℕ)
  | read (loc : FileLoc) (offset len : UInt64)

namespace Dump
variable (d : Dump)

def blobBytes (id : ℕ) : Call Store AnyhowError Bytes := do
  let r ← d.blobBytesCached id
  pure r.1

end Dump

inductive Reply where
  | blobBytes (r : Outcome AnyhowError Bytes)
  | parsed (r : Outcome ReadError ParsedBlob)
  | parent (r : Outcome ReadError (Option ℕ))
  | chain (r : Outcome ReadError (List ℕ))
  | table (r : Outcome ReadError FileTable)
  | locate (r : Outcome ReadError FileLoc)
  | probeKey (r : Outcome ReadError KeyResolution)
  | block (r : Outcome ReadError Bytes)
  | read (r : Outcome ReadError Bytes)

def Request.prog (d : Dump) : Request → Proc Store Reply
  | .blobBytes id => Proc.bind (fun r => .done (.blobBytes r)) (d.blobBytes id)
  | .parsed id => Proc.bind (fun r => .done (.parsed r)) (d.parsed id)
  | .parent id => Proc.bind (fun r => .done (.parent r)) (d.parent id)
  | .chain id => Proc.bind (fun r => .done (.chain r)) (d.chain id)
  | .table id => Proc.bind (fun r => .done (.table r)) (d.table id)
  | .locate id fileId => Proc.bind (fun r => .done (.locate r)) (d.locate id fileId)
  | .probeKey loc => Proc.bind (fun r => .done (.probeKey r)) (d.probeKey loc)
  | .block loc i => Proc.bind (fun r => .done (.block r)) (d.block loc i)
  | .read loc offset len => Proc.bind (fun r => .done (.read r)) (d.read loc offset len)

namespace Dump
variable (d : Dump)

/-- A cache file is taken away, or written with what the backend holds. -/
def Writes (id : ℕ) (content : Option Bytes) : Prop :=
  content = none ∨ ∃ bytes, d.backendBytes id = .ok bytes ∧ content = some bytes

inductive Change : Store → Store → Prop
  | look (s : Store) : Change s s
  | hitParsed (s : Store) (id : ℕ) : Change s { s with parsed := Lru.touch id s.parsed }
  | putParsed (s : Store) (id : ℕ) (p : ParsedBlob)
      (hp : ∃ bytes, parseBlob d.codec bytes = .ok p) :
      Change s { s with parsed := Lru.put PARSED_CAPACITY id p s.parsed }
  | hitTable (s : Store) (id : ℕ) : Change s { s with tables := Lru.touch id s.tables }
  | putTable (s : Store) (id : ℕ) (t : FileTable) :
      Change s { s with tables := Lru.put TABLE_CAPACITY id t s.tables }
  | hitRaw (s : Store) (key : ℕ × ℕ) : Change s { s with raw := (s.raw.get key).2 }
  | putRaw (s : Store) (key : ℕ × ℕ) (w : Bytes) (hw : d.windowBytes key.1 key.2 = .ok w) :
      Change s { s with raw := s.raw.insert key w }
  | hitBlock (s : Store) (key : ℕ × UInt64) : Change s { s with blocks := (s.blocks.get key).2 }
  | putBlock (s : Store) (key : ℕ × UInt64) (v : Bytes) :
      Change s { s with blocks := s.blocks.insert key v }
  | resolve (s : Store) (source : ℕ) (r : KeyResolution)
      (hsource : source < d.index.blobs.length) :
      Change s { s with resolvedKeys := Function.update s.resolvedKeys source (some r) }
  | cacheFile (s : Store) (id : ℕ) (content : Option Bytes) (hw : d.Writes id content) :
      Change s (d.setCacheFile id content s)

variable {d}

/-! ### Blobs -/

theorem getParsed_does (id : ℕ) : (getParsed id).Does d.Change fun _ => True :=
  Call.does_atomic fun s => ⟨.hitParsed s id, trivial⟩

theorem fetchBlob_does (id : ℕ) : (d.fetchBlob id).Does d.Change fun _ => True := by
  refine Call.Does.bind (Call.does_lift (Q := fun bytes => d.backendBytes id = .ok bytes)
    fun _ h => h) fun bytes hbytes => ?_
  have hwrite : (Call.modify (d.setCacheFile id (some bytes)) :
      Call Store AnyhowError Unit).Does d.Change fun _ => True :=
    Call.does_atomic fun s => ⟨.cacheFile s id _ (Or.inr ⟨bytes, hbytes, rfl⟩), trivial⟩
  exact hwrite.bind fun _ _ => Call.does_pure trivial

theorem blobBytesCached_does (id : ℕ) :
    (d.blobBytesCached id).Does d.Change fun _ => True := by
  refine Call.Does.bind (Call.does_lift fun _ _ => trivial) fun entry _ => ?_
  have hread : (Call.read fun s => d.cachedBytes s.cacheDir id entry :
      Call Store AnyhowError (Option Bytes)).Does d.Change fun _ => True :=
    Call.does_atomic fun s => ⟨.look s, trivial⟩
  refine hread.bind fun o _ => ?_
  cases o with
  | some bytes => exact Call.does_pure trivial
  | none => exact (fetchBlob_does id).bind fun _ _ => Call.does_pure trivial

theorem parseBytes_does (id : ℕ) (entry : BlobEntry) (bytes : Bytes) (fromCache : Bool) :
    (d.parseBytes id entry bytes fromCache).Does d.Change
      fun p => ∃ bytes, parseBlob d.codec bytes = .ok p := by
  unfold parseBytes
  split
  · next p hp => exact Call.does_pure ⟨bytes, hp⟩
  · exact Call.does_lift fun _ h => by cases h
  · split_ifs
    · have hdrop : (Call.modify (d.setCacheFile id none) :
          Call Store AnyhowError Unit).Does d.Change fun _ => True :=
        Call.does_atomic fun s => ⟨.cacheFile s id none (Or.inl rfl), trivial⟩
      refine hdrop.bind fun _ _ => (fetchBlob_does id).bind fun fetched _ => ?_
      exact Call.does_lift fun p hp => ⟨fetched, mapErr_eq_ok.mp hp⟩
    · exact Call.does_lift fun _ h => by cases h

theorem parsed_does (id : ℕ) : (d.parsed id).Does d.Change fun _ => True := by
  have huncached : (d.parseUncached id).Does d.Change fun _ => True := by
    refine (getParsed_does id).bind fun o _ => ?_
    cases o with
    | some p => exact Call.does_pure trivial
    | none =>
      refine (Call.Does.mapErr (blobBytesCached_does id)).bind fun r _ => ?_
      refine Call.Does.bind (Call.does_lift fun _ _ => trivial) fun entry _ => ?_
      refine (Call.Does.mapErr (parseBytes_does id entry r.1 r.2)).bind fun p hp => ?_
      have hput : (putParsed id p).Does d.Change fun _ => True :=
        Call.does_atomic fun s => ⟨.putParsed s id p hp, trivial⟩
      exact hput.bind fun _ _ => Call.does_pure trivial
  refine (getParsed_does id).bind fun o _ => ?_
  cases o with
  | some p => exact Call.does_pure trivial
  | none => exact huncached

/-! ### Tables -/

theorem parent_does (id : ℕ) : (d.parent id).Does d.Change fun _ => True :=
  (parsed_does id).bind fun _ _ => Call.does_lift fun _ _ => trivial

theorem chainLoop_does (fuel : ℕ) (out : List ℕ) (cur : ℕ) :
    (chainLoop d.parent fuel out cur).Does d.Change fun _ => True := by
  induction fuel generalizing out cur with
  | zero => exact Call.does_pure trivial
  | succ fuel ih =>
    refine (parent_does cur).bind fun o _ => ?_
    cases o with
    | none => exact Call.does_pure trivial
    | some p =>
      dsimp only
      split_ifs
      · exact Call.does_pure trivial
      · exact ih _ _

theorem chain_does (id : ℕ) : (d.chain id).Does d.Change fun _ => True :=
  (chainLoop_does _ _ _).bind fun _ _ => Call.does_pure trivial

theorem getTable_does (id : ℕ) : (getTable id).Does d.Change fun _ => True :=
  Call.does_atomic fun s => ⟨.hitTable s id, trivial⟩

theorem buildLoop_does (bs : List ℕ) (parent : Option FileTable) :
    (d.buildLoop bs parent).Does d.Change fun _ => True := by
  induction bs generalizing parent with
  | nil => exact Call.does_pure trivial
  | cons b bs ih =>
    refine (getTable_does b).bind fun o _ => ?_
    cases o with
    | some t => exact ih _
    | none =>
      have hown : (d.ownTable b parent).Does d.Change fun _ => True :=
        (parsed_does b).bind fun _ _ =>
          (Call.does_lift fun _ _ => trivial).bind fun _ (_ : True) => Call.does_pure trivial
      refine hown.bind fun t _ => ?_
      have hput : (putTable b t).Does d.Change fun _ => True :=
        Call.does_atomic fun s => ⟨.putTable s b t, trivial⟩
      exact hput.bind fun _ _ => ih _

theorem table_does (id : ℕ) : (d.table id).Does d.Change fun _ => True := by
  have hbuild : (d.buildTable id).Does d.Change fun _ => True := by
    refine (getTable_does id).bind fun o _ => ?_
    cases o with
    | some t => exact Call.does_pure trivial
    | none =>
      refine (chain_does id).bind fun chain _ => (buildLoop_does chain none).bind fun o _ => ?_
      cases o with
      | some t => exact Call.does_pure trivial
      | none => exact Call.does_lift fun _ _ => trivial
  refine (getTable_does id).bind fun o _ => ?_
  cases o with
  | some t => exact Call.does_pure trivial
  | none => exact hbuild

theorem locate_does (id : ℕ) (fileId : UInt32) :
    (d.locate id fileId).Does d.Change fun _ => True :=
  (table_does id).bind fun _ _ => Call.does_lift fun _ _ => trivial

/-! ### Data -/

theorem getRaw_does (key : ℕ × ℕ) : (getRaw key).Does d.Change fun _ => True :=
  Call.does_atomic fun s => ⟨.hitRaw s key, trivial⟩

theorem rawWindow_does (dat idx : ℕ) : (d.rawWindow dat idx).Does d.Change fun _ => True := by
  have hfetch : (d.fetchWindow dat idx).Does d.Change fun _ => True := by
    refine (getRaw_does _).bind fun o _ => ?_
    cases o with
    | some w => exact Call.does_pure trivial
    | none =>
      refine Call.Does.bind (Call.does_lift (Q := fun w => d.windowBytes dat idx = .ok w)
        fun _ h => h) fun w hw => ?_
      have hput : (Call.modify fun s => { s with raw := s.raw.insert (dat, idx) w } :
          StoreCall Unit).Does d.Change fun _ => True :=
        Call.does_atomic fun s => ⟨.putRaw s (dat, idx) w hw, trivial⟩
      exact hput.bind fun _ _ => Call.does_pure trivial
  refine (getRaw_does _).bind fun o _ => ?_
  cases o with
  | some w => exact Call.does_pure trivial
  | none => exact hfetch

theorem datLoop_does (dat stop fuel pos : ℕ) (out : Bytes) :
    (datLoop (d.rawWindow dat) stop fuel pos out).Does d.Change fun _ => True := by
  induction fuel generalizing pos out with
  | zero => exact Call.does_pure trivial
  | succ fuel ih =>
    rw [datLoop]
    split_ifs
    · refine (rawWindow_does dat _).bind fun w _ => ?_
      dsimp only
      split_ifs
      · exact Call.does_pure trivial
      · exact ih _ _
    · exact Call.does_pure trivial

theorem storedBytes_does (loc : FileLoc) (i dat : ℕ) (start stop : UInt64) :
    (d.storedBytes loc i dat start stop).Does d.Change fun _ => True := by
  have hdat : (d.datBytes dat start stop).Does d.Change fun _ => True :=
    Call.Does.bind (Call.does_lift fun _ _ => trivial) fun _ (_ : True) => datLoop_does _ _ _ _ _
  exact hdat.bind fun _ _ =>
    (Call.does_lift fun _ _ => trivial).bind fun _ (_ : True) => Call.does_pure trivial

theorem resolveKey_does (source : ℕ) (sample : Sample) :
    (d.resolveKey source sample).Does d.Change fun _ => True := by
  have hread : (Call.read fun s => s.resolvedKeys source :
      StoreCall (Option KeyResolution)).Does d.Change fun _ => True :=
    Call.does_atomic fun s => ⟨.look s, trivial⟩
  refine hread.bind fun o _ => ?_
  cases o with
  | some r => exact Call.does_pure trivial
  | none =>
    refine Call.Does.bind (Call.does_lift (Q := fun _ => source < d.index.blobs.length)
      fun entry h => ?_) fun entry hsource => ?_
    · exact (List.getElem?_eq_some_iff.mp (blob_eq_ok.mp h)).1
    · have hput : (Call.modify fun s => { s with
          resolvedKeys := Function.update s.resolvedKeys source
            (some (d.resolution entry sample)) } : StoreCall Unit).Does d.Change fun _ => True :=
        Call.does_atomic fun s => ⟨.resolve s source _ hsource, trivial⟩
      exact hput.bind fun _ _ => Call.does_pure trivial

theorem missingDat_does {α : Type} (loc : FileLoc) :
    (d.missingDat loc : StoreCall α).Does d.Change fun _ => True := by
  refine Call.Does.bind (Call.does_lift fun _ _ => trivial) fun e (_ : True) => ?_
  refine (Call.Does.attempt (parsed_does loc.source)).bind fun r _ => ?_
  cases r with
  | ok p => exact Call.does_lift fun _ _ => trivial
  | error e => exact Call.does_lift fun _ _ => trivial

theorem probeKey_does (loc : FileLoc) : (d.probeKey loc).Does d.Change fun _ => True := by
  unfold probeKey
  split
  · exact missingDat_does loc
  · split
    · exact (storedBytes_does _ _ _ _ _).bind fun _ _ => resolveKey_does _ _
    · exact Call.does_lift fun _ _ => trivial

theorem blockKey_does (loc : FileLoc) (entry : BlobEntry) (b : Block) (raw : Bytes) :
    (d.blockKey loc entry b raw).Does d.Change fun _ => True := by
  unfold blockKey
  split_ifs
  · refine (resolveKey_does _ _).bind fun r _ => ?_
    exact (Call.does_lift fun _ _ => trivial).bind fun _ (_ : True) => Call.does_pure trivial
  · exact Call.does_pure trivial

theorem keepBlock_does (mode : Mode) (key : ℕ × UInt64) (decoded : Bytes) :
    (keepBlock mode key decoded).Does d.Change fun _ => True := by
  unfold keepBlock
  split_ifs
  · exact Call.does_atomic fun s => ⟨.putBlock s key decoded, trivial⟩
  · exact Call.does_pure trivial

theorem block_does (loc : FileLoc) (i : ℕ) : (d.block loc i).Does d.Change fun _ => True := by
  unfold block
  split
  · exact missingDat_does loc
  · next dat _ =>
    split
    · next b start stop _ _ =>
      have hget : (getBlock (dat, start)).Does d.Change fun _ => True :=
        Call.does_atomic fun s => ⟨.hitBlock s _, trivial⟩
      refine hget.bind fun o _ => ?_
      cases o with
      | some v => exact Call.does_pure trivial
      | none =>
        refine (storedBytes_does _ _ _ _ _).bind fun raw _ => ?_
        refine Call.Does.bind (Call.does_lift fun _ _ => trivial) fun entry (_ : True) => ?_
        refine (blockKey_does _ _ _ _).bind fun key _ => ?_
        refine Call.Does.bind (Call.does_lift fun _ _ => trivial) fun decoded (_ : True) => ?_
        exact (keepBlock_does _ _ _).bind fun _ _ => Call.does_pure trivial
    · exact Call.does_lift fun _ _ => trivial

theorem readLoop_does (loc : FileLoc) (stop fuel pos : ℕ) (out : Bytes) :
    (readLoop loc (d.block loc) stop fuel pos out).Does d.Change fun _ => True := by
  induction fuel generalizing pos out with
  | zero => exact Call.does_pure trivial
  | succ fuel ih =>
    rw [readLoop]
    split_ifs
    · refine (block_does loc _).bind fun b _ => ?_
      dsimp only
      split_ifs
      · exact Call.does_lift fun _ _ => trivial
      · exact ih _ _
    · exact Call.does_pure trivial

theorem read_does (loc : FileLoc) (offset len : UInt64) :
    (d.read loc offset len).Does d.Change fun _ => True := by
  unfold read readWith
  dsimp only
  split_ifs
  · exact Call.does_pure trivial
  · exact Call.Does.bind (Call.does_lift fun _ _ => trivial) fun _ (_ : True) =>
      readLoop_does _ _ _ _ _

theorem request_does (r : Request) : (r.prog d).Does d.Change fun _ => True := by
  cases r with
  | blobBytes id =>
    have hcall : (d.blobBytes id).Does d.Change fun _ => True :=
      (blobBytesCached_does id).bind fun _ _ => Call.does_pure trivial
    exact hcall.answer
  | parsed id => exact (parsed_does id).answer
  | parent id => exact (parent_does id).answer
  | chain id => exact (chain_does id).answer
  | table id => exact (table_does id).answer
  | locate id fileId => exact (locate_does id fileId).answer
  | probeKey loc => exact (probeKey_does loc).answer
  | block loc i => exact (block_does loc i).answer
  | read loc offset len => exact (read_does loc offset len).answer

end Dump
end Steam2Fs
