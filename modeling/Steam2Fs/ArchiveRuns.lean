import Steam2Fs.ArchiveReads
import Steam2Fs.StoreChanges
import Steam2Fs.StoreHistory

/-!
# An archive in use

Any number of callers ask a store for what its dump lists and for locations it
has handed out. Between their actions blobs, tables, windows, blocks and keys
are remembered and evicted; every reply is the one the archive determines.
-/

namespace Steam2Fs
open Layout Outcome

namespace Dump
variable (d : Dump) (cacheDir : ℕ → Option Bytes) (A : Archive d.codec)

structure Place (loc : FileLoc) where
  source : ℕ
  inRange : source < d.index.blobs.length
  file : ℕ × SourceFile
  mem : file ∈ A.placed source
  loc_eq : loc = A.loc source file

namespace Place
variable {d A} {loc : FileLoc} (y : d.Place A loc)

def content : Bytes := y.file.2.content

end Place

/-- Requests for blobs that exist, and for locations that were handed out. -/
def Asked : Request → Prop
  | .blobBytes id | .parsed id | .parent id | .chain id | .table id | .locate id _ =>
    id < d.index.blobs.length
  | .probeKey loc | .block loc _ | .read loc _ _ => Nonempty (d.Place A loc)

/-- The reply is what the archive says. -/
def Served : Request → Reply → Prop
  | .parsed id, a => a = .parsed (d.loaded cacheDir id)
  | .locate v fileId, a => a = .locate (ofOption (.missingRecord fileId)
      ((d.fileAt cacheDir A v fileId).map fun y => A.loc y.1 y.2))
  | .probeKey loc, a => ∀ y : d.Place A loc, d.Configured A y.source →
      a = .probeKey (probeAt loc y.content (A.key y.source))
  | .block loc i, a => ∀ y : d.Place A loc, a = .block (blockAt loc y.content i)
  | .read loc offset len, a => ∀ y : d.Place A loc, offset.toNat + len.toNat < 2 ^ 64 →
      a = .read (.ok (slice y.content offset.toNat (offset.toNat + len.toNat)))
  | _, _ => True

variable {d cacheDir A}

def ServeInv (d : Dump) (cacheDir : ℕ → Option Bytes) (A : Archive d.codec) (s : Store) : Prop :=
  d.TableInv cacheDir s ∧ d.BlockInv cacheDir (d.KeptKey A) (d.KeptBlock A) s

theorem ServeInv.new : d.ServeInv cacheDir A (Store.new d cacheDir) :=
  ⟨.new, BlockInv.new fun _ _ _ hr => by cases hr⟩

theorem TableInv.blockLocal : d.BlockLocal (d.TableInv cacheDir) where
  parsed := fun id => (parsed_answers_tables id).safe
  raw := fun _ _ hs => ⟨hs.1.of_eq (fun _ he => he) rfl, hs.2⟩
  blocks := fun _ _ hs => ⟨hs.1.of_eq (fun _ he => he) rfl, hs.2⟩
  resolvedKeys := fun _ _ hs => ⟨hs.1.of_eq (fun _ he => he) rfl, hs.2⟩

theorem TablesOk.frame {s s' : Store} (hframe : LoadFrame s s') (h : d.TablesOk cacheDir s) :
    d.TablesOk cacheDir s' := by
  unfold TablesOk
  rw [hframe.1]
  exact h

theorem Caches.frame {K : ℕ → Option KeyResolution → Prop} {B : ℕ × UInt64 → Bytes → Prop}
    {s s' : Store} (hframe : LoadFrame s s') (h : d.Caches K B s) : d.Caches K B s' := by
  obtain ⟨-, hraw, hblocks, hkeys⟩ := hframe
  exact ⟨hraw ▸ h.windows, hkeys ▸ h.keys, hblocks ▸ h.blocks⟩

theorem blobBytes_serves (id : ℕ) :
    ((Request.blobBytes id).prog d).Keeps (d.ServeInv cacheDir A) fun _ => True := by
  have hcall : (d.blobBytes id).Safe (d.Loads cacheDir) := by
    cases hentry : d.index.blobs[id]? with
    | none =>
      have hblob : (d.blob id : Outcome AnyhowError BlobEntry) = .panic := by
        unfold blob
        rw [hentry]
      unfold blobBytes blobBytesCached
      rw [hblob]
      trivial
    | some entry => exact (blobBytesCached_supplies hentry).safe.bind fun _ => Call.safe_pure _
  have hloads : ((Request.blobBytes id).prog d).Keeps (d.Loads cacheDir) fun _ => True :=
    Proc.Keeps.bind hcall fun _ _ => trivial
  have hwithin : ((Request.blobBytes id).prog d).Within LoadFrame :=
    Proc.Within.bind (Call.Within.bind blobBytesCached_within fun _ => Call.within_pure _)
      fun _ => trivial
  exact (Proc.Keeps.and (hloads.frame hwithin fun _ _ => TablesOk.frame)
    (hloads.frame hwithin fun _ _ => Caches.frame)).mono fun _ _ => trivial

theorem reply_serves {α : Type} {x : StoreCall α} {g : Outcome ReadError α → Reply}
    {P Q : Outcome ReadError α → Prop} {R : Reply → Prop} (ht : x.Keeps (d.TableInv cacheDir) P)
    (hb : x.Keeps (d.BlockInv cacheDir (d.KeptKey A) (d.KeptBlock A)) Q)
    (h : ∀ o, P o → Q o → R (g o)) :
    (Proc.bind (fun o => .done (g o)) x : Proc Store Reply).Keeps (d.ServeInv cacheDir A) R :=
  Proc.Keeps.bind (Proc.Keeps.and ht hb) fun o ho => h o ho.1 ho.2

theorem request_serves (h : d.Packed cacheDir A) (hbounded : d.Bounded cacheDir) {r : Request}
    (hr : d.Asked A r) :
    (r.prog d).Keeps (d.ServeInv cacheDir A) (d.Served cacheDir A r) := by
  have hall := h.allParse
  cases r with
  | blobBytes id => exact (blobBytes_serves id).mono fun _ _ => trivial
  | parsed id =>
    exact reply_serves (parsed_answers_tables id) (parsed_answers_blocks id).safe
      fun o ho _ => congrArg Reply.parsed ho
  | parent id =>
    exact reply_serves ((parsed_answers_tables id).safe.bind fun _ => Call.safe_lift _)
      ((parsed_answers_blocks id).safe.bind fun _ => Call.safe_lift _) fun _ _ _ => trivial
  | chain id =>
    exact reply_serves (chain_answers hall hbounded hr).safe (BlockInv.tableLocal.chain_safe id)
      fun _ _ _ => trivial
  | table id =>
    obtain ⟨t, -, ht⟩ := table_answers hall hbounded hr
    exact reply_serves ht.safe (BlockInv.tableLocal.table_safe id) fun _ _ _ => trivial
  | locate v fileId =>
    exact reply_serves (h.locate_answers hbounded hr fileId)
      (BlockInv.tableLocal.locate_safe v fileId) fun o ho _ => congrArg Reply.locate ho
  | probeKey loc =>
    obtain ⟨y₀⟩ := hr
    refine Proc.Keeps.forall y₀ fun y => ?_
    obtain ⟨b, hb, x, hx, rfl⟩ := y
    by_cases hconf : d.Configured A b
    · exact reply_serves (TableInv.blockLocal.probeKey_safe _) (h.probe_answers hb hx hconf)
        fun o _ ho _ => congrArg Reply.probeKey ho
    · exact reply_serves (TableInv.blockLocal.probeKey_safe _) (h.probe_safe hb hx)
        fun o _ _ hc => absurd hc hconf
  | block loc i =>
    obtain ⟨y₀⟩ := hr
    refine Proc.Keeps.forall y₀ fun y => ?_
    obtain ⟨b, hb, x, hx, rfl⟩ := y
    exact reply_serves (TableInv.blockLocal.block_safe _ i) (h.block_answers hb hx i)
      fun o _ ho => congrArg Reply.block ho
  | read loc offset len =>
    obtain ⟨y₀⟩ := hr
    refine Proc.Keeps.forall y₀ fun y => ?_
    obtain ⟨b, hb, x, hx, rfl⟩ := y
    by_cases hsum : offset.toNat + len.toNat < 2 ^ 64
    · exact reply_serves (TableInv.blockLocal.read_safe _ _ _) (h.read_answers hb hx hsum)
        fun o _ ho _ => congrArg Reply.read ho
    · exact reply_serves (TableInv.blockLocal.read_safe _ _ _) (h.read_safe hb hx _ _)
        fun o _ _ hc => absurd hc hsum

/-- In every run of requests for what the dump lists and for what the store has
handed out, every reply is what the archive says: versions share, remember and
evict what they like. -/
theorem archive_served (h : d.Packed cacheDir A) (hbounded : d.Bounded cacheDir)
    {pool : Pool Store Request Reply}
    (hpool : Pool.Reachable (Request.prog d) {r | d.Asked A r} (fun _ _ => False)
      (Store.new d cacheDir) pool) {r : Request} {a : Reply} (ha : pool.Answered r a) :
    d.Served cacheDir A r a :=
  hpool.answered (fun _ hr => request_serves h hbounded hr) (fun _ _ hf => hf.elim)
    ServeInv.new ha

end Dump

section Sample

theorem zlibStored_decode {piece : Bytes} (h : piece.length < 65536) :
    zlibStored.decode (zlibStored piece) = .ok piece := by
  have hstands : Stands (zlibStored piece) 0 (zlibStored piece) :=
    stands_zero.mpr (List.prefix_refl _)
  have hlen : (zlibStored piece).length = 11 + piece.length := by
    simp only [zlibStored, leBytes32, List.length_append, List.length_cons, List.length_nil,
      leBytes_length, List.length_reverse]
    omega
  nth_rewrite 2 [zlibStored] at hstands
  simp only [stands_append, List.length_append, List.length_cons, List.length_nil, leBytes_length,
    Nat.zero_add, Nat.reduceAdd] at hstands
  obtain ⟨⟨⟨⟨-, h3⟩, -⟩, h7⟩, -⟩ := hstands
  have hcount : leValue (((zlibStored piece).drop 3).take 2) = piece.length := by
    have htake := h3.take_eq
    rw [leBytes_length] at htake
    rw [htake, leValue_leBytes, Nat.mod_eq_of_lt (by omega)]
  unfold zlibStored.decode
  rw [hcount]
  dsimp only
  rw [h7.take_eq, ← hlen, List.take_length, if_pos ⟨rfl, rfl⟩]

theorem zlibTake_stored {stream : Key → Vector UInt8 16} {piece : Bytes}
    (h : piece.length ≤ BLOCK_SIZE) :
    (Codec.stored stream).zlibTake (BLOCK_SIZE + 1) (zlibStored piece) = .ok piece := by
  change (zlibStored.decode (zlibStored piece)).map _ = _
  rw [zlibStored_decode (by unfold BLOCK_SIZE at h; omega)]
  change Except.ok (piece.take (BLOCK_SIZE + 1)) = Except.ok piece
  rw [List.take_of_length_le (by omega)]

theorem aesCfb_stored_aesCfb (stream : Key → Vector UInt8 16) (k : Key) (bytes : Bytes) :
    (Codec.stored stream).aesCfb k ((Codec.stored stream).aesCfb k bytes) = bytes := by
  have hbyte (bs : Bytes) (j : ℕ) : ((Codec.stored stream).aesCfb k bs)[j]? =
      if h : j < 16 then bs[j]?.map (· ^^^ (stream k)[j]) else bs[j]? := by
    change (List.zipWith (· ^^^ ·) bs (stream k).toList ++ bs.drop 16)[j]? = _
    rw [List.getElem?_append, List.length_zipWith, Vector.length_toList]
    split_ifs with hleft hj hj
    · have hmem : bs[j]? = some bs[j] := List.getElem?_eq_getElem (by omega)
      rw [List.getElem?_zipWith, hmem, List.getElem?_eq_getElem (by simpa using hj)]
      simp
    · omega
    · rw [List.getElem?_drop, List.getElem?_eq_none (by omega), List.getElem?_eq_none (by omega)]
      rfl
    · rw [List.getElem?_drop]
      by_cases hlong : 16 ≤ bs.length
      · congr 1
        omega
      · rw [List.getElem?_eq_none (by omega), List.getElem?_eq_none (by omega)]
  apply List.ext_getElem?
  intro j
  rw [hbyte, hbyte]
  split_ifs with hj
  · rw [Option.map_map]
    have hid : ((· ^^^ (stream k)[j]) ∘ fun x : UInt8 => x ^^^ (stream k)[j]) = id := by
      funext x
      rw [Function.comp_apply, UInt8.xor_assoc, UInt8.xor_self, UInt8.xor_zero, id]
    rw [hid, Option.map_id, id]
  · rfl

def Packer.storing (stream : Key → Vector UInt8 16) : Packer (Codec.stored stream) where
  deflate := zlibStored
  encrypt := (Codec.stored stream).aesCfb
  deflate_ne_nil _ := List.cons_ne_nil _ _
  inflates _ := zlibTake_stored
  decrypts := aesCfb_stored_aesCfb stream

def packedFiles (b : ℕ) : List SourceFile :=
  if b = 0 then [⟨7, .compressedEncrypted, [72, 105, 33]⟩, ⟨9, .encrypted, []⟩]
  else [⟨8, .plain, [1, 2, 3, 4]⟩, ⟨7, .encrypted, [5, 6]⟩]

def packedArchive : Archive (Codec.stored zeroKeyStream) :=
  ⟨.storing zeroKeyStream, packedFiles, fun _ => zeroKey, id⟩

def packedRecords (b : ℕ) : List FileRecord := packedArchive.packer.records zeroKey (packedFiles b)

def packedDat (b : ℕ) : Bytes := packedArchive.packer.dat zeroKey (packedFiles b)

def packedVersions : MemoryDump where
  blobs := [("5_1_000000aa_x.blob".toList, (VersionImage.flat (packedRecords 0) 22 none).encode),
    ("5_2_000000bb_x.blob".toList,
      (VersionImage.flat (packedRecords 1) 6 (some (1, 0xaa))).encode)]
  dats := [("5_1_00000005_x.dat".toList, packedDat 0), ("5_2_00000005_x.dat".toList, packedDat 1)]
  keys := halfDamaged.keys
  cfg := .plain

theorem MemoryDump.stores {m : MemoryDump} {dat : ℕ} {entry : DatEntry} {content : Bytes}
    (hentry : m.dump.index.dats[dat]? = some entry) (hsize : entry.size.toNat = content.length)
    (hfile : m.file entry.path = some content) : m.dump.Stores dat content := by
  refine ⟨entry, hentry, hsize, fun start len _ => ?_⟩
  unfold MemoryDump.dump
  simp only [hfile]

theorem packedVersions_stores : ∀ id < 2, packedVersions.dump.Stores id (packedDat id) := by
  have hentries : ∀ id < 2, packedVersions.dump.index.dats[id]?.map (fun e =>
      (e.size.toNat, packedVersions.file e.path)) =
        some ((packedDat id).length, some (packedDat id)) := by
    decide +kernel
  intro id hid
  obtain ⟨entry, hentry, hfields⟩ := Option.map_eq_some_iff.mp (hentries id hid)
  exact MemoryDump.stores hentry (congrArg Prod.fst hfields) (congrArg Prod.snd hfields)

theorem packedVersions_entries : packedVersions.dump.index.blobs.length = 2 ∧
    ∀ id < 2, (packedVersions.dump.index.blobs[id]?.map fun e => (e.depot, e.version)) =
      some (5, UInt32.ofNat (id + 1)) := by
  decide +kernel

set_option maxRecDepth 20000 in
theorem packedVersions_loaded : ∀ id < 2,
    ((fun p => (p.records, packedVersions.dump.index.findDat 5 (UInt32.ofNat (id + 1))
      p.info.datCrc)) <$> packedVersions.dump.loaded (fun _ => none) id) =
        .ok (packedRecords id, some id) := by
  decide +kernel

theorem packedVersions_holds : packedVersions.dump.Packed (fun _ => none) packedArchive := by
  obtain ⟨hlen, hentries⟩ := packedVersions_entries
  have hentry {id : ℕ} {entry : BlobEntry}
      (h : packedVersions.dump.index.blobs[id]? = some entry) :
      id < 2 ∧ entry.depot = 5 ∧ entry.version = UInt32.ofNat (id + 1) := by
    have hid := (List.getElem?_eq_some_iff.mp h).1
    rw [hlen] at hid
    have hfields := hentries id hid
    rw [h, Option.map_some, Option.some.injEq] at hfields
    exact ⟨hid, congrArg Prod.fst hfields, congrArg Prod.snd hfields⟩
  refine ⟨fun id entry h => ?_, fun id hid => ?_, fun id _ id' _ hdat => ?_,
    fun id _ entry h => ?_, fun id hid => ?_⟩
  · obtain ⟨hid, hdepot, hversion⟩ := hentry h
    obtain ⟨p, hp, hfacts⟩ := map_eq_ok.mp (packedVersions_loaded id hid)
    rw [hdepot, hversion]
    exact ⟨p, hp, congrArg Prod.fst hfacts, congrArg Prod.snd hfacts⟩
  · rw [hlen] at hid
    exact ⟨packedDat id, packedVersions_stores id hid, stands_zero.mpr (List.prefix_refl _)⟩
  · cases hdat
    exact ⟨rfl, rfl⟩
  · obtain ⟨-, hdepot, -⟩ := hentry h
    rw [hdepot]
    rfl
  · rw [hlen] at hid
    have hfits : ∀ id < 2, ∀ f ∈ packedFiles id, f.content.length ≤ isizeMax ∧
        ∀ i < pieceCount f.content,
          (packedArchive.packer.store f.mode zeroKey (piece f.content i)).length < 2 ^ 32 := by
      decide +kernel
    exact fun f hf => ⟨(hfits id hid f hf).1, (hfits id hid f hf).2⟩

set_option maxRecDepth 20000 in
theorem packedVersions_bounded : packedVersions.dump.Bounded fun _ => none := by
  have hstop : ∀ id < 2, Walk.after (packedVersions.dump.up fun _ => none) 2 id = none := by
    decide +kernel
  intro id hid
  rw [packedVersions_entries.1] at hid
  exact ⟨Walk.acyclic_of_stops (hstop id hid),
    (Walk.encard_le_of_stops (hstop id hid)).trans (by unfold CHAIN_LIMIT; norm_num)⟩

theorem packedVersions_served :
    ∃ (pool : Pool Store Request Reply) (x : ℕ × SourceFile) (a : Reply),
      x ∈ packedArchive.placed 0 ∧ pool.Answered (.read (packedArchive.loc 0 x) 1 5) a ∧
        a = .read (.ok [105, 33]) := by
  let x : ℕ × SourceFile := (0, ⟨7, .compressedEncrypted, [72, 105, 33]⟩)
  have hlen := packedVersions_entries.1
  have hx : x ∈ packedArchive.placed 0 := List.mem_cons_self
  let y : packedVersions.dump.Place packedArchive (packedArchive.loc 0 x) :=
    ⟨0, by omega, x, hx, rfl⟩
  have hlocate : Request.locate 1 7 ∈ {r | packedVersions.dump.Asked packedArchive r} := by
    show 1 < packedVersions.dump.index.blobs.length
    omega
  have hread : Request.read (packedArchive.loc 0 x) 1 5 ∈
      {r | packedVersions.dump.Asked packedArchive r} := ⟨y⟩
  obtain ⟨pool, hpool, hans⟩ := Pool.Reachable.second_call
    (Store.new packedVersions.dump fun _ => none) hlocate hread
  exact ⟨pool, x, _, hx, hans, Dump.archive_served packedVersions_holds packedVersions_bounded
    hpool hans y (by decide)⟩

end Sample
end Steam2Fs
