import Steam2Fs.StoreBlocks
import Steam2Fs.StoreTables

/-!
# What every call of the store keeps

Calls about tables load blobs and use the table cache; calls about data load
blobs, use the window and block caches, and remember keys. An invariant that
loading a blob keeps, and that does not depend on the parts a kind of call
uses, is kept by all calls of that kind.
-/

namespace Steam2Fs
open Outcome

section Loops
variable {σ : Type} {I : σ → Prop}

theorem chainLoop_safe {par : ℕ → Call σ ReadError (Option ℕ)} (hpar : ∀ b, (par b).Safe I)
    (fuel : ℕ) (out : List ℕ) (cur : ℕ) : (chainLoop par fuel out cur).Safe I := by
  induction fuel generalizing out cur with
  | zero => exact Call.safe_pure _
  | succ fuel ih =>
    refine (hpar cur).bind fun o => ?_
    cases o with
    | none => exact Call.safe_pure _
    | some p =>
      dsimp only
      split_ifs
      · exact Call.safe_pure _
      · exact ih _ _

theorem datLoop_safe {window : ℕ → Call σ ReadError Bytes} (hw : ∀ i, (window i).Safe I)
    (stop fuel pos : ℕ) (out : Bytes) : (datLoop window stop fuel pos out).Safe I := by
  induction fuel generalizing pos out with
  | zero => exact Call.safe_pure _
  | succ fuel ih =>
    rw [datLoop]
    split_ifs
    · refine (hw _).bind fun w => ?_
      dsimp only
      split_ifs
      · exact Call.safe_pure _
      · exact ih _ _
    · exact Call.safe_pure _

theorem datBytesWith_safe {window : ℕ → Call σ ReadError Bytes} (hw : ∀ i, (window i).Safe I)
    (start stop : UInt64) : (datBytesWith window start stop).Safe I :=
  (Call.safe_lift _).bind fun _ => datLoop_safe hw _ _ _ _

theorem readLoop_safe {loc : FileLoc} {block : ℕ → Call σ ReadError Bytes}
    (hb : ∀ i, (block i).Safe I) (stop fuel pos : ℕ) (out : Bytes) :
    (readLoop loc block stop fuel pos out).Safe I := by
  induction fuel generalizing pos out with
  | zero => exact Call.safe_pure _
  | succ fuel ih =>
    rw [readLoop]
    split_ifs
    · refine (hb _).bind fun b => ?_
      dsimp only
      split_ifs
      · exact Call.safe_lift _
      · exact ih _ _
    · exact Call.safe_pure _

theorem readWith_safe {loc : FileLoc} {block : ℕ → Call σ ReadError Bytes}
    (hb : ∀ i, (block i).Safe I) (offset len : UInt64) :
    (readWith loc block offset len).Safe I := by
  unfold readWith
  dsimp only
  split_ifs
  · exact Call.safe_pure _
  · exact (Call.safe_lift _).bind fun _ => readLoop_safe hb _ _ _ _

end Loops

namespace Dump
variable {d : Dump} {I : Store → Prop}

structure TableLocal (d : Dump) (I : Store → Prop) : Prop where
  parsed : ∀ id, (d.parsed id).Safe I
  tables : ∀ s tables, I s → I { s with tables := tables }

structure BlockLocal (d : Dump) (I : Store → Prop) : Prop where
  parsed : ∀ id, (d.parsed id).Safe I
  raw : ∀ s raw, I s → I { s with raw := raw }
  blocks : ∀ s blocks, I s → I { s with blocks := blocks }
  resolvedKeys : ∀ s keys, I s → I { s with resolvedKeys := keys }

structure Local (d : Dump) (I : Store → Prop) : Prop extends TableLocal d I, BlockLocal d I

theorem Loads.isLocal {cacheDir : ℕ → Option Bytes} : d.Local (d.Loads cacheDir) where
  parsed := fun _ => parsed_answers.safe
  tables := fun _ _ hs => hs.of_eq (fun _ he => he) rfl
  raw := fun _ _ hs => hs.of_eq (fun _ he => he) rfl
  blocks := fun _ _ hs => hs.of_eq (fun _ he => he) rfl
  resolvedKeys := fun _ _ hs => hs.of_eq (fun _ he => he) rfl

namespace TableLocal
variable (h : d.TableLocal I)
include h

theorem getTable_safe (id : ℕ) : (getTable id).Safe I :=
  Call.safe_atomic fun s hs => h.tables s _ hs

theorem buildLoop_safe (bs : List ℕ) (parent : Option FileTable) :
    (d.buildLoop bs parent).Safe I := by
  induction bs generalizing parent with
  | nil => exact Call.safe_pure _
  | cons b bs ih =>
    refine (h.getTable_safe b).bind fun o => ?_
    cases o with
    | some t => exact ih _
    | none =>
      have hown : (d.ownTable b parent).Safe I :=
        (h.parsed b).bind fun p => (Call.safe_lift _).bind fun own => Call.safe_pure _
      refine hown.bind fun t => ?_
      have hput : (putTable b t).Safe I := Call.safe_atomic fun s hs => h.tables s _ hs
      exact hput.bind fun _ => ih _

theorem chain_safe (id : ℕ) : (d.chain id).Safe I := by
  refine Call.Safe.bind (chainLoop_safe (fun b => ?_) _ _ _) fun out => Call.safe_pure _
  exact (h.parsed b).bind fun p => Call.safe_lift _

theorem table_safe (id : ℕ) : (d.table id).Safe I := by
  have hbuild : (d.buildTable id).Safe I := by
    refine (h.getTable_safe id).bind fun o => ?_
    cases o with
    | some t => exact Call.safe_pure _
    | none =>
      refine (h.chain_safe id).bind fun chain => (h.buildLoop_safe chain none).bind fun o => ?_
      cases o with
      | some t => exact Call.safe_pure _
      | none => exact Call.safe_lift _
  refine (h.getTable_safe id).bind fun o => ?_
  cases o with
  | some t => exact Call.safe_pure _
  | none => exact hbuild

theorem locate_safe (id : ℕ) (fileId : UInt32) : (d.locate id fileId).Safe I :=
  (h.table_safe id).bind fun _ => Call.safe_lift _

end TableLocal

namespace BlockLocal
variable (h : d.BlockLocal I)
include h

theorem getRaw_safe (key : ℕ × ℕ) : (getRaw key).Safe I :=
  Call.safe_atomic fun s hs => h.raw s _ hs

theorem datBytes_safe (dat : ℕ) (start stop : UInt64) : (d.datBytes dat start stop).Safe I := by
  refine datBytesWith_safe (fun idx => ?_) _ _
  have hfetch : (d.fetchWindow dat idx).Safe I := by
    refine (h.getRaw_safe _).bind fun o => ?_
    cases o with
    | some w => exact Call.safe_pure _
    | none =>
      refine (Call.safe_lift _).bind fun w => ?_
      exact (Call.safe_atomic fun s hs => h.raw s _ hs).bind fun _ => Call.safe_pure _
  refine (h.getRaw_safe _).bind fun o => ?_
  cases o with
  | some w => exact Call.safe_pure _
  | none => exact hfetch

theorem storedBytes_safe (loc : FileLoc) (i dat : ℕ) (start stop : UInt64) :
    (d.storedBytes loc i dat start stop).Safe I :=
  (h.datBytes_safe dat start stop).bind fun _ => (Call.safe_lift _).bind fun _ => Call.safe_pure _

theorem missingDat_safe {α : Type} (loc : FileLoc) : (d.missingDat loc : StoreCall α).Safe I := by
  refine (Call.safe_lift _).bind fun e => (Call.Safe.attempt (h.parsed _)).bind fun r => ?_
  cases r with
  | ok p => exact Call.safe_lift _
  | error e => exact Call.safe_lift _

theorem resolveKey_safe (source : ℕ) (sample : Sample) : (d.resolveKey source sample).Safe I := by
  refine Call.Safe.bind (Call.safe_atomic fun _ hs => hs) fun o => ?_
  cases o with
  | some r => exact Call.safe_pure _
  | none =>
    refine (Call.safe_lift _).bind fun entry => ?_
    exact (Call.safe_atomic fun s hs => h.resolvedKeys s _ hs).bind fun _ => Call.safe_pure _

theorem probeKey_safe (loc : FileLoc) : (d.probeKey loc).Safe I := by
  unfold probeKey
  split
  · exact h.missingDat_safe loc
  · split
    · exact (h.storedBytes_safe _ _ _ _ _).bind fun raw => h.resolveKey_safe _ _
    · exact Call.safe_lift _

theorem block_safe (loc : FileLoc) (i : ℕ) : (d.block loc i).Safe I := by
  unfold block
  split
  · exact h.missingDat_safe loc
  · split
    · refine Call.Safe.bind (Call.safe_atomic fun s hs => h.blocks s _ hs) fun o => ?_
      cases o with
      | some v => exact Call.safe_pure _
      | none =>
        refine (h.storedBytes_safe _ _ _ _ _).bind fun raw => ?_
        refine (Call.safe_lift _).bind fun entry => ?_
        refine Call.Safe.bind ?_ fun key => (Call.safe_lift _).bind fun decoded => ?_
        · unfold blockKey
          split_ifs
          · refine (h.resolveKey_safe _ _).bind fun r => ?_
            exact (Call.safe_lift _).bind fun k => Call.safe_pure _
          · exact Call.safe_pure _
        · refine Call.Safe.bind ?_ fun _ => Call.safe_pure _
          unfold keepBlock
          split_ifs
          · exact Call.safe_atomic fun s hs => h.blocks s _ hs
          · exact Call.safe_pure _
    · exact Call.safe_lift _

theorem read_safe (loc : FileLoc) (offset len : UInt64) : (d.read loc offset len).Safe I :=
  readWith_safe (h.block_safe loc) offset len

end BlockLocal
end Dump
end Steam2Fs
