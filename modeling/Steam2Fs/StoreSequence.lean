import Steam2Fs.Memory
import Steam2Fs.StoreCache

/-!
# Sequences of calls, and the decoded-block cache

The block cache knows a block by dat and start offset only. Over files that
are not encrypted it goes unnoticed in a sequence of calls when no block is
read after another one with the same start that was stored in another mode or
length, or has another checksum or decoded length.

`locate` only ever answers records of a blob that loads; this holds for any
dump, whatever its parent links look like.
-/

namespace Steam2Fs
open Outcome

namespace Dump

/-! ### Where located files come from -/

section Located
variable (d : Dump) (cacheDir : ℕ → Option Bytes)

/-- A record of a blob that loads, in the dat of that blob. -/
def Located (loc : FileLoc) : Prop :=
  ∃ b entry p r, d.index.blobs[b]? = some entry ∧ d.loaded cacheDir b = .ok p ∧ r ∈ p.records ∧
    loc = d.locOf b entry p r

def HoldsLocated (t : FileTable) : Prop :=
  ∀ fileId loc, t.get fileId = some loc → d.Located cacheDir loc

def LocInv (s : Store) : Prop :=
  d.Loads cacheDir s ∧ ∀ e ∈ s.tables, d.HoldsLocated cacheDir e.2

variable {d cacheDir}

theorem LocInv.new : d.LocInv cacheDir (Store.new d cacheDir) := ⟨.new, by simp [Store.new]⟩

theorem parsed_answers_located (id : ℕ) :
    (d.parsed id).Answers (d.LocInv cacheDir) (d.loaded cacheDir id) := by
  refine parsed_answers.frame parsed_within fun s s' hframe hs => ?_
  rw [hframe.1]
  exact hs

theorem LocInv.blockLocal : d.BlockLocal (d.LocInv cacheDir) where
  parsed := fun id => (parsed_answers_located id).safe
  raw := fun _ _ hs => ⟨hs.1.of_eq (fun _ he => he) rfl, hs.2⟩
  blocks := fun _ _ hs => ⟨hs.1.of_eq (fun _ he => he) rfl, hs.2⟩
  resolvedKeys := fun _ _ hs => ⟨hs.1.of_eq (fun _ he => he) rfl, hs.2⟩

theorem getTable_located (id : ℕ) :
    (getTable id).Keeps (d.LocInv cacheDir) fun a =>
      ∃ o, a = .ok o ∧ ∀ t ∈ o, d.HoldsLocated cacheDir t := by
  refine Call.keeps_atomic fun s hs => ⟨⟨hs.1.of_eq (fun _ he => he) rfl, ?_⟩, _, rfl, ?_⟩
  · exact fun e he => hs.2 e (Lru.mem_touch he)
  · exact fun t ht => hs.2 _ (Lru.mem_of_get ht)

theorem ownRecords_located {id : ℕ} {p : ParsedBlob} (hp : d.loaded cacheDir id = .ok p)
    {own : List (UInt32 × FileLoc)} (hown : d.ownRecords id p = .ok own) :
    ∀ e ∈ own, d.Located cacheDir e.2 := by
  obtain ⟨entry, hentry, h⟩ := bind_eq_ok.mp hown
  cases h
  refine List.foldlRecOn (motive := fun own : List (UInt32 × FileLoc) =>
    ∀ e ∈ own, d.Located cacheDir e.2) p.records _ (by simp) ?_
  intro own ih r hr e he
  rcases List.mem_cons.mp he with rfl | he
  · exact ⟨id, entry, p, r, blob_eq_ok.mp hentry, hp, hr, rfl⟩
  · exact ih e he

theorem layer_located {own : List (UInt32 × FileLoc)} (hown : ∀ e ∈ own, d.Located cacheDir e.2)
    {parent : Option FileTable} (hparent : ∀ t ∈ parent, d.HoldsLocated cacheDir t) :
    d.HoldsLocated cacheDir (.layer own parent) := by
  intro fileId loc h
  cases parent with
  | none => exact hown _ (Index.mem_of_lookup h)
  | some t =>
    rw [FileTable.layer, FileTable.get] at h
    split at h
    · next loc' hl =>
      cases h
      exact hown _ (Index.mem_of_lookup hl)
    · exact hparent t rfl fileId loc h

theorem ownTable_located (id : ℕ) {parent : Option FileTable}
    (hparent : ∀ t ∈ parent, d.HoldsLocated cacheDir t) :
    (d.ownTable id parent).Keeps (d.LocInv cacheDir) fun a =>
      ∀ t, a = .ok t → d.HoldsLocated cacheDir t := by
  refine Call.Keeps.bind (parsed_answers_located id) (fun p hp => ?_) (by simp) (by simp)
  refine Call.Keeps.bind (Call.answers_lift _) (fun own hown => ?_) (by simp) (by simp)
  rintro t ⟨⟩
  exact layer_located (ownRecords_located hp.symm hown.symm) hparent

theorem buildLoop_located (bs : List ℕ) {parent : Option FileTable}
    (hparent : ∀ t ∈ parent, d.HoldsLocated cacheDir t) :
    (d.buildLoop bs parent).Keeps (d.LocInv cacheDir) fun a =>
      ∀ o, a = .ok o → ∀ t ∈ o, d.HoldsLocated cacheDir t := by
  induction bs generalizing parent with
  | nil =>
    rintro o ⟨⟩
    exact hparent
  | cons b bs ih =>
    refine (getTable_located b).bind (fun o ho => ?_) (by simp) (by simp)
    obtain ⟨o', ho', hcached⟩ := ho
    cases ho'
    cases o with
    | some t => exact ih hcached
    | none =>
      refine (ownTable_located b hparent).bind (fun t ht => ?_) (by simp) (by simp)
      have hput : (putTable b t).Answers (d.LocInv cacheDir) (.ok ()) := by
        refine Call.keeps_atomic fun s hs => ⟨⟨hs.1.of_eq (fun _ he => he) rfl, ?_⟩, rfl⟩
        intro e he
        rcases Lru.mem_put he with rfl | he
        · exact ht t rfl
        · exact hs.2 e he
      refine Call.Keeps.bind hput (fun _ _ => ih ?_) (by simp) (by simp)
      rintro t' ⟨⟩
      exact ht t rfl

theorem chain_safe_located (id : ℕ) : (d.chain id).Safe (d.LocInv cacheDir) := by
  refine Call.Safe.bind (chainLoop_safe (fun b => ?_) _ _ _) fun out => Call.safe_pure _
  exact (parsed_answers_located b).safe.bind fun p => Call.safe_lift _

theorem table_located (id : ℕ) :
    (d.table id).Keeps (d.LocInv cacheDir) fun a =>
      ∀ t, a = .ok t → d.HoldsLocated cacheDir t := by
  have hbuild : (d.buildTable id).Keeps (d.LocInv cacheDir) fun a =>
      ∀ t, a = .ok t → d.HoldsLocated cacheDir t := by
    refine (getTable_located id).bind (fun o ho => ?_) (by simp) (by simp)
    obtain ⟨o', ho', hcached⟩ := ho
    cases ho'
    cases o with
    | some t =>
      rintro t' ⟨⟩
      exact hcached t rfl
    | none =>
      refine Call.Keeps.bind (chain_safe_located id) (fun chain _ => ?_) (by simp) (by simp)
      refine (buildLoop_located chain (by simp)).bind (fun o ho => ?_) (by simp) (by simp)
      cases o with
      | some t =>
        rintro t' ⟨⟩
        exact ho _ rfl t rfl
      | none => exact Call.keeps_lift (by simp)
  refine (getTable_located id).bind (fun o ho => ?_) (by simp) (by simp)
  obtain ⟨o', ho', hcached⟩ := ho
  cases ho'
  cases o with
  | some t =>
    rintro t' ⟨⟩
    exact hcached t rfl
  | none => exact hbuild

theorem locate_located (id : ℕ) (fileId : UInt32) :
    (d.locate id fileId).Keeps (d.LocInv cacheDir) fun a =>
      ∀ loc, a = .ok loc → d.Located cacheDir loc := by
  refine (table_located id).bind (fun t ht => ?_) (by simp) (by simp)
  refine Call.keeps_lift fun loc hloc => ?_
  exact ht t rfl fileId loc (ofOption_eq_ok.mp hloc)

end Located
end Dump

/-! ### Sequences -/

inductive StoreOp where
  | parsed (id : ℕ)
  | locate (id : ℕ) (fileId : UInt32)
  | probe (loc : FileLoc)
  | block (loc : FileLoc) (i : ℕ)

def StoreOp.prog (d : Dump) : StoreOp → Proc Store Unit
  | .parsed id => Proc.bind (fun _ => .done ()) (d.parsed id)
  | .locate id fileId => Proc.bind (fun _ => .done ()) (d.locate id fileId)
  | .probe loc => Proc.bind (fun _ => .done ()) (d.probeKey loc)
  | .block loc i => Proc.bind (fun _ => .done ()) (d.block loc i)

/-- Two stored blocks that are decoded and checked in the same way. -/
structure SameBlock (loc : FileLoc) (i : ℕ) (x : Slot) (loc' : FileLoc) (i' : ℕ) (x' : Slot) :
    Prop where
  mode : loc.record.mode = loc'.record.mode
  stop : x.stop = x'.stop
  checksum : x.block.checksum = x'.block.checksum
  length : loc.record.blockLen i = loc'.record.blockLen i'

/-- After the first call, the cache may be asked for the second one's block. -/
def Compatible : StoreOp → StoreOp → Prop
  | .block loc i, .block loc' i' => ∀ x x', loc.slot i = some x → loc'.slot i' = some x' →
    x.key = x'.key → loc.record.mode ≠ .plain → SameBlock loc i x loc' i' x'
  | _, _ => True

namespace Dump
variable (d : Dump) (cacheDir : ℕ → Option Bytes)

def after (ops : List StoreOp) : Store :=
  ops.foldl (fun s op => ((op.prog d).run s).2) (Store.new d cacheDir)

def Produced (loc : FileLoc) : Prop :=
  ∃ before id fileId, ((d.locate id fileId).run (d.after cacheDir before)).1 = .ok loc

/-- Every block call of the sequence answers what it would with an empty block
cache, and a block it is served was decoded for one stored and checked in the
same way. -/
def Transparent (ops : List StoreOp) : Prop :=
  ∀ before loc i rest, ops = before ++ .block loc i :: rest →
    ((d.block loc i).run (d.after cacheDir before)).1 =
      ((d.block loc i).run
        { d.after cacheDir before with blocks := .new d.cfg.blockCacheBytes }).1 ∧
    ∀ x v, loc.slot i = some x → ((d.after cacheDir before).blocks.get x.key).1 = some v →
      ∃ loc' i' x', .block loc' i' ∈ before ∧ loc'.slot i' = some x' ∧
        SameBlock loc' i' x' loc i x ∧ d.blockUsing (.none 0) loc' i' x' = .ok v

def CachedFrom (ops : List StoreOp) (key : ℕ × UInt64) (v : Bytes) : Prop :=
  ∃ loc i x, .block loc i ∈ ops ∧ loc.record.mode ≠ .plain ∧ loc.slot i = some x ∧
    x.key = key ∧ d.blockUsing (.none 0) loc i x = .ok v

variable {d cacheDir}

theorem BlockInv.mono {K : ℕ → Option KeyResolution → Prop} {B B' : ℕ × UInt64 → Bytes → Prop}
    {s : Store} (h : d.BlockInv cacheDir K B s) (hB : ∀ key v, B key v → B' key v) :
    d.BlockInv cacheDir K B' s :=
  ⟨h.1, h.2.windows, h.2.keys, fun e he => hB _ _ (h.2.blocks e he)⟩

theorem BlockInv.tableLocal {K : ℕ → Option KeyResolution → Prop}
    {B : ℕ × UInt64 → Bytes → Prop} : d.TableLocal (d.BlockInv cacheDir K B) where
  parsed := fun id => (parsed_answers_blocks id).safe
  tables := fun _ _ hs =>
    ⟨hs.1.of_eq (fun _ he => he) rfl, hs.2.windows, hs.2.keys, hs.2.blocks⟩

theorem after_concat (ops : List StoreOp) (op : StoreOp) :
    d.after cacheDir (ops ++ [op]) = ((op.prog d).run (d.after cacheDir ops)).2 := by
  simp [after, List.foldl_append]

theorem drop_keeps {α : Type} {I : Store → Prop} {x : StoreCall α} (hx : x.Safe I) :
    (Proc.bind (fun _ => .done ()) x : Proc Store Unit).Keeps I fun _ => True :=
  Proc.Keeps.bind hx fun _ _ => trivial

theorem after_located (ops : List StoreOp) : d.LocInv cacheDir (d.after cacheDir ops) := by
  induction ops using List.reverseRecOn with
  | nil => exact LocInv.new
  | append_singleton ops op ih =>
    have hop : (op.prog d).Keeps (d.LocInv cacheDir) fun _ => True := by
      cases op with
      | parsed id => exact drop_keeps (LocInv.blockLocal.parsed id)
      | locate id fileId => exact drop_keeps (locate_located id fileId).safe
      | probe loc => exact drop_keeps (LocInv.blockLocal.probeKey_safe loc)
      | block loc i => exact drop_keeps (LocInv.blockLocal.block_safe loc i)
    rw [after_concat]
    exact (hop.run ih).2

theorem Produced.located {loc : FileLoc} (h : d.Produced cacheDir loc) :
    d.Located cacheDir loc := by
  obtain ⟨before, id, fileId, hloc⟩ := h
  exact ((locate_located id fileId).run (after_located before)).1 loc hloc

theorem Located.entry {loc : FileLoc} (h : d.Located cacheDir loc) :
    ∃ entry, d.index.blobs[loc.source]? = some entry := by
  obtain ⟨b, entry, p, r, hentry, -, -, rfl⟩ := h
  exact ⟨entry, hentry⟩

theorem after_inv {ops : List StoreOp}
    (hops : ∀ loc i, .block loc i ∈ ops → loc.record.mode.isEncrypted = false) :
    d.BlockInv cacheDir (fun _ _ => True) (d.CachedFrom ops) (d.after cacheDir ops) := by
  induction ops using List.reverseRecOn with
  | nil => exact BlockInv.new fun _ => trivial
  | append_singleton ops op ih =>
    have hprefix := ih fun loc i h => hops loc i (List.mem_append_left _ h)
    have hwide : d.BlockInv cacheDir (fun _ _ => True) (d.CachedFrom (ops ++ [op]))
        (d.after cacheDir ops) := by
      refine hprefix.mono fun key v => ?_
      rintro ⟨loc, i, x, hmem, h⟩
      exact ⟨loc, i, x, List.mem_append_left _ hmem, h⟩
    have hop : (op.prog d).Keeps (d.BlockInv cacheDir (fun _ _ => True)
        (d.CachedFrom (ops ++ [op]))) fun _ => True := by
      cases op with
      | parsed id => exact drop_keeps (parsed_answers_blocks id).safe
      | locate id fileId => exact drop_keeps (BlockInv.tableLocal.locate_safe id fileId)
      | probe loc => exact drop_keeps (probeKey_keeps fun _ _ _ _ _ => trivial)
      | block loc i =>
        have hlast : StoreOp.block loc i ∈ ops ++ [.block loc i] := by simp
        apply drop_keeps
        cases hx : loc.slot i with
        | none => exact (block_answers_of_slot_none hx (.none 0)).safe
        | some x =>
          refine (block_keeps hx (fun _ _ _ _ => trivial) fun hplain r v _ hv => ?_).safe
          rw [blockUsing_plain (hops loc i hlast)] at hv
          exact ⟨loc, i, x, hlast, hplain, hx, rfl, hv⟩
    rw [after_concat]
    exact (hop.run hwide).2

theorem blockUsing_of_sameBlock {loc loc' : FileLoc} {i i' : ℕ} {x x' : Slot}
    (h : SameBlock loc i x loc' i' x') (hkey : x.key = x'.key)
    (hsource : loc'.record.mode.isEncrypted = true → loc.source = loc'.source)
    {entry : BlobEntry} (hentry : d.index.blobs[loc'.source]? = some entry) {r : KeyResolution}
    {v : Bytes} (hv : d.blockUsing r loc i x = .ok v) : d.blockUsing r loc' i' x' = .ok v := by
  obtain ⟨raw, entry₀, key, hraw, hentry₀, hused, hdecode⟩ := blockUsing_eq_ok.mp hv
  obtain ⟨hread, hlen⟩ := storedBlock_eq_ok.mp hraw
  obtain ⟨hout, hsum, hsize⟩ := decodeBlock_eq_ok.mp hdecode
  have hdat : x.dat = x'.dat := congrArg Prod.fst hkey
  have hstart : x.start = x'.start := congrArg Prod.snd hkey
  refine blockUsing_eq_ok.mpr ⟨raw, entry, key, ?_, hentry, ?_, ?_⟩
  · rw [storedBlock_eq_ok, ← hdat, ← hstart, ← h.stop]
    exact ⟨hread, hlen⟩
  · rw [keyUsing, h.mode] at hused
    rw [keyUsing]
    by_cases henc : loc'.record.mode.isEncrypted = true
    · rw [hsource henc, hentry] at hentry₀
      cases hentry₀
      exact hused
    · rw [if_neg henc] at hused ⊢
      exact hused
  · rw [decodeBlock_eq_ok, ← h.mode, ← h.checksum, ← h.length]
    exact ⟨hout, hsum, hsize⟩

def OwnOnly (d : Dump) (loc : FileLoc) (i : ℕ) (key : ℕ × UInt64) (v : Bytes) : Prop :=
  ∀ x, loc.slot i = some x → x.key = key → d.blockUsing (.none 0) loc i x = .ok v

theorem block_answers_plain {loc : FileLoc} (hplain : loc.record.mode.isEncrypted = false)
    (i : ℕ) :
    (d.block loc i).Answers (d.BlockInv cacheDir (fun _ _ => True) (d.OwnOnly loc i))
      (d.blockOf cacheDir (.none 0) loc i) := by
  refine block_answers (fun _ _ _ _ _ _ => trivial) (fun x r _ _ => blockUsing_plain hplain r i x)
    (fun x v hx hv => hv x hx rfl) fun x v hx _ hv x' hx' _ => ?_
  rw [hx] at hx'
  cases hx'
  exact hv

theorem blocks_transparent (d : Dump) (cacheDir : ℕ → Option Bytes) (ops : List StoreOp)
    (hfiles : ∀ loc i, .block loc i ∈ ops →
      d.Produced cacheDir loc ∧ loc.record.mode.isEncrypted = false)
    (hops : ops.Pairwise Compatible) : d.Transparent cacheDir ops := by
  rintro before loc i rest rfl
  have hmem : StoreOp.block loc i ∈ before ++ .block loc i :: rest := by simp
  obtain ⟨hproduced, hplain⟩ := hfiles loc i hmem
  obtain ⟨entry, hentry⟩ := hproduced.located.entry
  have hbefore : ∀ loc' i', .block loc' i' ∈ before → loc'.record.mode.isEncrypted = false :=
    fun loc' i' h => (hfiles loc' i' (List.mem_append_left _ h)).2
  have hinv : d.BlockInv cacheDir (fun _ _ => True) (d.CachedFrom before) (d.after cacheDir before) :=
    after_inv hbefore
  -- what an earlier call left under the key of a block is what the block decodes to
  have hsame {x : Slot} (hx : loc.slot i = some x) {v : Bytes} (hv : d.CachedFrom before x.key v) :
      ∃ loc' i' x', .block loc' i' ∈ before ∧ loc'.slot i' = some x' ∧ x'.key = x.key ∧
        SameBlock loc' i' x' loc i x ∧ d.blockUsing (.none 0) loc' i' x' = .ok v := by
    obtain ⟨loc', i', x', hmem', hmode, hx', hkey, hv⟩ := hv
    have hcompat := (List.pairwise_append.mp hops).2.2 _ hmem' _ List.mem_cons_self
    exact ⟨loc', i', x', hmem', hx', hkey, hcompat x' x hx' hx hkey hmode, hv⟩
  refine ⟨?_, fun x v hx hv => ?_⟩
  · have hcached : d.BlockInv cacheDir (fun _ _ => True) (d.OwnOnly loc i)
        (d.after cacheDir before) := by
      refine hinv.mono fun key v hv x hx hkey => ?_
      subst hkey
      obtain ⟨loc', i', x', -, -, hkey, hblock, hdecoded⟩ := hsame hx hv
      exact blockUsing_of_sameBlock hblock hkey (fun henc => absurd henc (by simp [hplain])) hentry
        hdecoded
    have hempty : d.BlockInv cacheDir (fun _ _ => True) (d.OwnOnly loc i)
        { d.after cacheDir before with blocks := .new d.cfg.blockCacheBytes } :=
      ⟨hinv.1.of_eq (fun _ he => he) rfl, hinv.2.windows, fun _ => trivial, by simp [ByteLru.new]⟩
    have hans : (d.block loc i).Answers (d.BlockInv cacheDir (fun _ _ => True) (d.OwnOnly loc i))
        (d.blockOf cacheDir (.none 0) loc i) := block_answers_plain hplain i
    rw [hans.run hcached, hans.run hempty]
  · obtain ⟨loc', i', x', hmem', hx', -, hblock, hdecoded⟩ :=
      hsame hx (hinv.2.blocks _ (Lru.mem_of_get hv))
    exact ⟨loc', i', x', hmem', hx', hblock, hdecoded⟩

end Dump

section Sample
open Dump

def packed : Bytes := zlibStored [1, 2, 3, 4]

def compressedRecord : FileRecord := ⟨7, .compressed, 0, 4, [⟨15, Chunk.checksum [1, 2, 3, 4]⟩]⟩

def plainRecord : FileRecord := ⟨8, .plain, 0, 15, [⟨15, Chunk.checksum packed⟩]⟩

/-- A file and its packed form, both stored at the start of the dat. -/
def sharedStart : MemoryDump where
  blobs := [("5_1_000000aa_x.blob".toList,
    (VersionImage.flat [compressedRecord, plainRecord] 15 none).encode)]
  dats := [("5_1_00000005_x.dat".toList, packed)]
  keys := .empty
  cfg := .plain

set_option maxRecDepth 20000 in
theorem sharedStart_not_transparent :
    sharedStart.dump.Produced (fun _ => none) (firstLoc compressedRecord) ∧
      sharedStart.dump.Produced (fun _ => none) (firstLoc plainRecord) ∧
      ((sharedStart.dump.loaded (fun _ => none) 0).isOk = true) ∧
      ¬ sharedStart.dump.Transparent (fun _ => none)
        [.block (firstLoc compressedRecord) 0, .block (firstLoc plainRecord) 0] := by
  refine ⟨⟨[], 0, 7, by decide +kernel⟩, ⟨[], 0, 8, by decide +kernel⟩, by decide +kernel, ?_⟩
  intro h
  have hsame := (h [.block (firstLoc compressedRecord) 0] (firstLoc plainRecord) 0 [] rfl).1
  have hserved : ((sharedStart.dump.block (firstLoc plainRecord) 0).run
      (sharedStart.dump.after (fun _ => none) [.block (firstLoc compressedRecord) 0])).1 =
        .ok [1, 2, 3, 4] := by decide +kernel
  have hempty : ((sharedStart.dump.block (firstLoc plainRecord) 0).run
      { sharedStart.dump.after (fun _ => none) [.block (firstLoc compressedRecord) 0] with
        blocks := .new sharedStart.dump.cfg.blockCacheBytes }).1 = .ok packed := by
    decide +kernel
  rw [hserved, hempty] at hsame
  exact absurd hsame (by decide)

set_option maxRecDepth 20000 in
theorem compressed_transparent :
    sharedStart.dump.Produced (fun _ => none) (firstLoc compressedRecord) ∧
      sharedStart.dump.Transparent (fun _ => none)
        [.locate 0 7, .block (firstLoc compressedRecord) 0,
          .block (firstLoc compressedRecord) 0] := by
  have hproduced : sharedStart.dump.Produced (fun _ => none) (firstLoc compressedRecord) :=
    ⟨[], 0, 7, by decide +kernel⟩
  refine ⟨hproduced, blocks_transparent _ _ _ (fun loc i hmem => ?_) ?_⟩
  · have hloc : loc = firstLoc compressedRecord := by
      simp at hmem
      exact hmem.1
    rw [hloc]
    exact ⟨hproduced, rfl⟩
  · simp only [List.pairwise_cons, List.mem_cons, List.not_mem_nil]
    refine ⟨fun _ _ => trivial, fun op hop => ?_, by simp, by simp⟩
    rcases hop with rfl | hop
    · intro x x' hx hx' _ _
      rw [hx] at hx'
      cases hx'
      exact ⟨rfl, rfl, rfl, rfl⟩
    · exact hop.elim

end Sample
end Steam2Fs
