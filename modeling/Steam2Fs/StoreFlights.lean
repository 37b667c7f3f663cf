import Steam2Fs.Lib.Guarded
import Steam2Fs.Memory
import Steam2Fs.StoreChanges

/-!
# The single-flight locks of the store

The calls of the store once more, now with the locks that keep two misses from
parsing the same blob, building the same table or fetching the same window. A
table is built while its lock is held, and building it loads blobs, each under
a lock of its own; nothing else nests. Without the locks these are the calls of
the other modules, so that what is proved of them under every interleaving
holds of the store with its locks, and the locks cannot bring it to a halt.
-/

namespace Steam2Fs
open Outcome

inductive Flight where
  | table (id : ℕ)
  | blob (id : ℕ)
  | window (dat idx : ℕ)
  deriving DecidableEq, Repr

/-- Blobs are loaded while a table is built, and never the other way round. -/
def Flight.rank : Flight → ℕ
  | .table _ => 0
  | .blob _ => 1
  | .window _ _ => 1

abbrev LockedCall := GuardedCall Flight Store ReadError

namespace Locked
variable (d : Dump)
open GuardedCall

def parsed (id : ℕ) : LockedCall ParsedBlob := do
  match ← ofCall (Dump.getParsed id) with
  | some p => pure p
  | none => holding (.blob id) (ofCall (d.parseUncached id))

def parent (id : ℕ) : LockedCall (Option ℕ) := do
  let p ← parsed d id
  lift (d.parentOf id p)

def chain (id : ℕ) : LockedCall (List ℕ) := chainWith (parent d) id

def ownTable (id : ℕ) (below : Option FileTable) : LockedCall FileTable := do
  let p ← parsed d id
  let own ← lift (d.ownRecords id p)
  pure (.layer own below)

def buildLoop : List ℕ → Option FileTable → LockedCall (Option FileTable)
  | [], below => pure below
  | b :: bs, below => do
    match ← ofCall (Dump.getTable b) with
    | some t => buildLoop bs (some t)
    | none =>
      let t ← ownTable d b below
      ofCall (Dump.putTable b t)
      buildLoop bs (some t)

def buildTable (id : ℕ) : LockedCall FileTable := do
  match ← ofCall (Dump.getTable id) with
  | some t => pure t
  | none =>
    let l ← chain d id
    match ← buildLoop d l none with
    | some t => pure t
    | none => lift (.err (.other (.msg "empty version chain")))

def table (id : ℕ) : LockedCall FileTable := do
  match ← ofCall (Dump.getTable id) with
  | some t => pure t
  | none => holding (.table id) (buildTable d id)

def locate (id : ℕ) (fileId : UInt32) : LockedCall FileLoc := do
  let t ← table d id
  lift (Outcome.ofOption (.missingRecord fileId) (t.get fileId))

def rawWindow (dat idx : ℕ) : LockedCall Bytes := do
  match ← ofCall (Dump.getRaw (dat, idx)) with
  | some w => pure w
  | none => holding (.window dat idx) (ofCall (d.fetchWindow dat idx))

def datBytes (dat : ℕ) (start stop : UInt64) : LockedCall Bytes :=
  datBytesWith (rawWindow d dat) start stop

def storedBytes (loc : FileLoc) (i dat : ℕ) (start stop : UInt64) : LockedCall Bytes := do
  let raw ← datBytes d dat start stop
  let _ ← lift (Dump.checkStored loc i start stop raw)
  pure raw

def missingDat {α : Type} (loc : FileLoc) : LockedCall α := do
  let e ← lift (d.blob loc.source)
  match ← (parsed d loc.source).attempt with
  | .ok p => lift (.err (.missingDat e.depot e.version p.info.datCrc))
  | .error _ => lift (.err (.missingDat e.depot e.version 0))

def probeKey (loc : FileLoc) : LockedCall KeyResolution := do
  match loc.dat with
  | none => missingDat d loc
  | some dat =>
    match loc.record.blocks.head?, loc.blockSpan 0 with
    | some first, some (start, stop) =>
      let raw ← storedBytes d loc 0 dat start stop
      ofCall (d.resolveKey loc.source ⟨loc.record.mode, raw, first.checksum⟩)
    | _, _ => lift (.err (.noBlocksToProbe loc.record.fileId))

def loadBlock (loc : FileLoc) (i dat : ℕ) (b : Block) (start stop : UInt64) :
    LockedCall Bytes := do
  let raw ← storedBytes d loc i dat start stop
  let entry ← lift (d.blob loc.source)
  let key ← ofCall (d.blockKey loc entry b raw)
  let decoded ← lift (d.decodeBlock loc i b raw key)
  ofCall (Dump.keepBlock loc.record.mode (dat, start) decoded)
  pure decoded

def block (loc : FileLoc) (i : ℕ) : LockedCall Bytes :=
  match loc.dat with
  | none => missingDat d loc
  | some dat =>
    match loc.record.blocks[i]?, loc.blockSpan i with
    | some b, some (start, stop) => do
      match ← ofCall (Dump.getBlock (dat, start)) with
      | some v => pure v
      | none => loadBlock d loc i dat b start stop
    | _, _ => lift (.err (loc.noSuchBlock i))

def read (loc : FileLoc) (offset len : UInt64) : LockedCall Bytes :=
  readWith loc (block d loc) offset len

/-! ### Without the locks -/

section Erase

theorem erase_parsed (id : ℕ) : (parsed d id).erase = d.parsed id := by
  rw [parsed, Dump.parsed, erase_bind, erase_ofCall]
  refine congrArg _ (funext fun o => ?_)
  cases o with
  | some p => rfl
  | none => rw [erase_holding, erase_ofCall]

theorem erase_parent (id : ℕ) : (parent d id).erase = d.parent id := by
  rw [parent, Dump.parent, erase_bind, erase_parsed]
  rfl

theorem erase_chainLoop {par : ℕ → LockedCall (Option ℕ)} (fuel : ℕ) (out : List ℕ) (cur : ℕ) :
    (chainLoop par fuel out cur).erase = chainLoop (fun b => (par b).erase) fuel out cur := by
  induction fuel generalizing out cur with
  | zero => rfl
  | succ fuel ih =>
    rw [chainLoop, chainLoop, erase_bind]
    refine congrArg _ (funext fun o => ?_)
    cases o with
    | none => rfl
    | some p =>
      dsimp only
      split_ifs
      · rfl
      · exact ih _ _

theorem erase_chain (id : ℕ) : (chain d id).erase = d.chain id := by
  rw [chain, Dump.chain, chainWith, chainWith, erase_bind, erase_chainLoop]
  simp only [erase_parent, erase_pure]

theorem erase_ownTable (id : ℕ) (below : Option FileTable) :
    (ownTable d id below).erase = d.ownTable id below := by
  rw [ownTable, Dump.ownTable, erase_bind, erase_parsed]
  simp only [erase_bind, erase_lift, erase_pure]

theorem erase_buildLoop (bs : List ℕ) (below : Option FileTable) :
    (buildLoop d bs below).erase = d.buildLoop bs below := by
  induction bs generalizing below with
  | nil => rfl
  | cons b bs ih =>
    rw [buildLoop, Dump.buildLoop, erase_bind, erase_ofCall]
    refine congrArg _ (funext fun o => ?_)
    cases o with
    | some t => exact ih _
    | none => simp only [erase_bind, erase_ownTable, erase_ofCall, ih]

theorem erase_table (id : ℕ) : (table d id).erase = d.table id := by
  have hbuild : (buildTable d id).erase = d.buildTable id := by
    rw [buildTable, Dump.buildTable, erase_bind, erase_ofCall]
    refine congrArg _ (funext fun o => ?_)
    cases o with
    | some t => rfl
    | none =>
      simp only [erase_bind, erase_chain, erase_buildLoop]
      refine congrArg _ (funext fun l => congrArg _ (funext fun o => ?_))
      cases o with
      | some t => rfl
      | none => rfl
  rw [table, Dump.table, erase_bind, erase_ofCall]
  refine congrArg _ (funext fun o => ?_)
  cases o with
  | some t => rfl
  | none => exact (erase_holding _).trans hbuild

theorem erase_locate (id : ℕ) (fileId : UInt32) :
    (locate d id fileId).erase = d.locate id fileId := by
  rw [locate, Dump.locate, erase_bind, erase_table]
  rfl

theorem erase_rawWindow (dat idx : ℕ) : (rawWindow d dat idx).erase = d.rawWindow dat idx := by
  rw [rawWindow, Dump.rawWindow, erase_bind, erase_ofCall]
  refine congrArg _ (funext fun o => ?_)
  cases o with
  | some w => rfl
  | none => rw [erase_holding, erase_ofCall]

theorem erase_datLoop {window : ℕ → LockedCall Bytes} (stop fuel pos : ℕ) (out : Bytes) :
    (datLoop window stop fuel pos out).erase =
      datLoop (fun i => (window i).erase) stop fuel pos out := by
  induction fuel generalizing pos out with
  | zero => rfl
  | succ fuel ih =>
    rw [datLoop, datLoop]
    split_ifs
    · rw [erase_bind]
      refine congrArg _ (funext fun w => ?_)
      dsimp only
      split_ifs
      · rfl
      · exact ih _ _
    · rfl

theorem erase_storedBytes (loc : FileLoc) (i dat : ℕ) (start stop : UInt64) :
    (storedBytes d loc i dat start stop).erase = d.storedBytes loc i dat start stop := by
  have hdat : (datBytes d dat start stop).erase = d.datBytes dat start stop := by
    rw [datBytes, Dump.datBytes, datBytesWith, datBytesWith, erase_bind]
    refine congrArg _ (funext fun _ => ?_)
    rw [erase_datLoop]
    simp only [erase_rawWindow]
  rw [storedBytes, Dump.storedBytes, erase_bind, hdat]
  simp only [erase_bind, erase_lift, erase_pure]

theorem erase_missingDat {α : Type} (loc : FileLoc) :
    (missingDat d loc : LockedCall α).erase = d.missingDat loc := by
  rw [missingDat, Dump.missingDat, erase_bind, erase_lift]
  refine congrArg _ (funext fun e => ?_)
  rw [erase_bind, erase_attempt, erase_parsed]
  refine congrArg _ (funext fun r => ?_)
  cases r with
  | ok p => rfl
  | error e => rfl

theorem erase_probeKey (loc : FileLoc) : (probeKey d loc).erase = d.probeKey loc := by
  unfold probeKey Dump.probeKey
  cases loc.dat with
  | none => exact erase_missingDat d loc
  | some dat =>
    cases loc.record.blocks.head? with
    | none => rfl
    | some first =>
      cases loc.blockSpan 0 with
      | none => rfl
      | some span =>
        dsimp only
        rw [erase_bind, erase_storedBytes]
        simp only [erase_ofCall]

theorem erase_block (loc : FileLoc) (i : ℕ) : (block d loc i).erase = d.block loc i := by
  have hload (dat : ℕ) (b : Block) (start stop : UInt64) :
      (loadBlock d loc i dat b start stop).erase = d.loadBlock loc i dat b start stop := by
    rw [loadBlock, Dump.loadBlock, erase_bind, erase_storedBytes]
    simp only [erase_bind, erase_lift, erase_ofCall, erase_pure]
  unfold block Dump.block
  cases loc.dat with
  | none => exact erase_missingDat d loc
  | some dat =>
    cases loc.record.blocks[i]? with
    | none => rfl
    | some b =>
      cases loc.blockSpan i with
      | none => rfl
      | some span =>
        dsimp only
        rw [erase_bind, erase_ofCall]
        refine congrArg _ (funext fun o => ?_)
        cases o with
        | some v => rfl
        | none => exact hload _ _ _ _

theorem erase_readLoop {loc : FileLoc} {blockAt : ℕ → LockedCall Bytes} (stop fuel pos : ℕ)
    (out : Bytes) : (readLoop loc blockAt stop fuel pos out).erase =
      readLoop loc (fun i => (blockAt i).erase) stop fuel pos out := by
  induction fuel generalizing pos out with
  | zero => rfl
  | succ fuel ih =>
    rw [readLoop, readLoop]
    split_ifs
    · rw [erase_bind]
      refine congrArg _ (funext fun b => ?_)
      dsimp only
      split_ifs
      · rfl
      · exact ih _ _
    · rfl

theorem erase_read (loc : FileLoc) (offset len : UInt64) :
    (read d loc offset len).erase = d.read loc offset len := by
  unfold read Dump.read readWith
  dsimp only
  split_ifs
  · rfl
  · rw [erase_bind]
    refine congrArg _ (funext fun _ => ?_)
    rw [erase_readLoop]
    simp only [erase_block]

end Erase

/-! ### The order of the locks -/

section Nesting
variable {d} {outer : List Flight}

/-- No lock of `outer` is one of a blob or a window. -/
def Below (outer : List Flight) : Prop := ∀ k ∈ outer, k.rank < 1

theorem nested_parsed (h : Below outer) (id : ℕ) : (parsed d id).Nested Flight.rank outer := by
  refine (nested_ofCall _).bind fun o => ?_
  cases o with
  | some p => exact nested_pure p
  | none => exact nested_holding h (nested_ofCall _)

theorem nested_parent (h : Below outer) (id : ℕ) : (parent d id).Nested Flight.rank outer :=
  (nested_parsed h id).bind fun _ => nested_lift _

theorem nested_chainLoop (h : Below outer) (fuel : ℕ) (out : List ℕ) (cur : ℕ) :
    (chainLoop (parent d) fuel out cur).Nested Flight.rank outer := by
  induction fuel generalizing out cur with
  | zero => exact nested_pure _
  | succ fuel ih =>
    refine (nested_parent h cur).bind fun o => ?_
    cases o with
    | none => exact nested_pure _
    | some p =>
      dsimp only
      split_ifs
      · exact nested_pure _
      · exact ih _ _

theorem nested_chain (h : Below outer) (id : ℕ) : (chain d id).Nested Flight.rank outer :=
  (nested_chainLoop h _ _ _).bind fun _ => nested_pure _

theorem nested_buildLoop (h : Below outer) (bs : List ℕ) (below : Option FileTable) :
    (buildLoop d bs below).Nested Flight.rank outer := by
  induction bs generalizing below with
  | nil => exact nested_pure _
  | cons b bs ih =>
    refine (nested_ofCall _).bind fun o => ?_
    cases o with
    | some t => exact ih _
    | none =>
      have hown : (ownTable d b below).Nested Flight.rank outer :=
        (nested_parsed h b).bind fun _ => (nested_lift _).bind fun _ => nested_pure _
      exact hown.bind fun _ => (nested_ofCall _).bind fun _ => ih _

theorem nested_table (id : ℕ) : (table d id).Nested Flight.rank [] := by
  have hone : Below [.table id] := by
    intro k hk
    rw [List.mem_singleton.mp hk]
    exact Nat.one_pos
  have hbuild : (buildTable d id).Nested Flight.rank [.table id] := by
    refine (nested_ofCall _).bind fun o => ?_
    cases o with
    | some t => exact nested_pure t
    | none =>
      refine (nested_chain hone id).bind fun l => (nested_buildLoop hone l none).bind fun o => ?_
      cases o with
      | some t => exact nested_pure t
      | none => exact nested_lift _
  refine (nested_ofCall _).bind fun o => ?_
  cases o with
  | some t => exact nested_pure t
  | none => exact nested_holding (fun k hk => absurd hk List.not_mem_nil) hbuild

theorem nested_rawWindow (h : Below outer) (dat idx : ℕ) :
    (rawWindow d dat idx).Nested Flight.rank outer := by
  refine (nested_ofCall _).bind fun o => ?_
  cases o with
  | some w => exact nested_pure w
  | none => exact nested_holding h (nested_ofCall _)

theorem nested_datLoop (h : Below outer) (dat stop fuel pos : ℕ) (out : Bytes) :
    (datLoop (rawWindow d dat) stop fuel pos out).Nested Flight.rank outer := by
  induction fuel generalizing pos out with
  | zero => exact nested_pure _
  | succ fuel ih =>
    rw [datLoop]
    split_ifs
    · refine (nested_rawWindow h dat _).bind fun w => ?_
      dsimp only
      split_ifs
      · exact nested_pure _
      · exact ih _ _
    · exact nested_pure _

theorem nested_storedBytes (h : Below outer) (loc : FileLoc) (i dat : ℕ)
    (start stop : UInt64) : (storedBytes d loc i dat start stop).Nested Flight.rank outer := by
  have hdat : (datBytes d dat start stop).Nested Flight.rank outer :=
    (nested_lift _).bind fun _ => nested_datLoop h _ _ _ _ _
  exact hdat.bind fun _ => (nested_lift _).bind fun _ => nested_pure _

theorem nested_missingDat (h : Below outer) {α : Type} (loc : FileLoc) :
    (missingDat d loc : LockedCall α).Nested Flight.rank outer := by
  refine (nested_lift _).bind fun e => (Nested.attempt (nested_parsed h _)).bind fun r => ?_
  cases r with
  | ok p => exact nested_lift _
  | error e => exact nested_lift _

theorem nested_probeKey (h : Below outer) (loc : FileLoc) :
    (probeKey d loc).Nested Flight.rank outer := by
  unfold probeKey
  split
  · exact nested_missingDat h loc
  · split
    · exact (nested_storedBytes h _ _ _ _ _).bind fun _ => nested_ofCall _
    · exact nested_lift _

theorem nested_block (h : Below outer) (loc : FileLoc) (i : ℕ) :
    (block d loc i).Nested Flight.rank outer := by
  unfold block
  split
  · exact nested_missingDat h loc
  · split
    · refine (nested_ofCall _).bind fun o => ?_
      cases o with
      | some v => exact nested_pure v
      | none =>
        refine (nested_storedBytes h _ _ _ _ _).bind fun raw => (nested_lift _).bind fun entry => ?_
        refine (nested_ofCall _).bind fun key => (nested_lift _).bind fun decoded => ?_
        exact (nested_ofCall _).bind fun _ => nested_pure _
    · exact nested_lift _

theorem nested_readLoop (h : Below outer) (loc : FileLoc) (stop fuel pos : ℕ) (out : Bytes) :
    (readLoop loc (block d loc) stop fuel pos out).Nested Flight.rank outer := by
  induction fuel generalizing pos out with
  | zero => exact nested_pure _
  | succ fuel ih =>
    rw [readLoop]
    split_ifs
    · refine (nested_block h loc _).bind fun b => ?_
      dsimp only
      split_ifs
      · exact nested_lift _
      · exact ih _ _
    · exact nested_pure _

theorem nested_read (h : Below outer) (loc : FileLoc) (offset len : UInt64) :
    (read d loc offset len).Nested Flight.rank outer := by
  unfold read readWith
  dsimp only
  split_ifs
  · exact nested_pure _
  · exact (nested_lift _).bind fun _ => nested_readLoop h _ _ _ _ _

end Nesting
end Locked

/-! ### Requests -/

def Request.locked (d : Dump) : Request → Guarded Flight Store Reply
  | .blobBytes id => Guarded.ofProc (Request.prog d (.blobBytes id))
  | .parsed id => Guarded.bind (fun r => .done (.parsed r)) (Locked.parsed d id)
  | .parent id => Guarded.bind (fun r => .done (.parent r)) (Locked.parent d id)
  | .chain id => Guarded.bind (fun r => .done (.chain r)) (Locked.chain d id)
  | .table id => Guarded.bind (fun r => .done (.table r)) (Locked.table d id)
  | .locate id fileId => Guarded.bind (fun r => .done (.locate r)) (Locked.locate d id fileId)
  | .probeKey loc => Guarded.bind (fun r => .done (.probeKey r)) (Locked.probeKey d loc)
  | .block loc i => Guarded.bind (fun r => .done (.block r)) (Locked.block d loc i)
  | .read loc offset len =>
    Guarded.bind (fun r => .done (.read r)) (Locked.read d loc offset len)

section Requests
variable {d : Dump}

theorem Request.locked_erase (d : Dump) (r : Request) : (r.locked d).erase = r.prog d := by
  have answer {α : Type} {x : LockedCall α} {y : StoreCall α} (hxy : x.erase = y)
      (g : Outcome ReadError α → Reply) :
      (Guarded.bind (fun r => .done (g r)) x).erase = Proc.bind (fun r => .done (g r)) y := by
    refine (Guarded.erase_bind _ _).trans ?_
    exact congrArg (Proc.bind fun r => .done (g r)) hxy
  cases r with
  | blobBytes id => exact Guarded.erase_ofProc _
  | parsed id => exact answer (Locked.erase_parsed d id) _
  | parent id => exact answer (Locked.erase_parent d id) _
  | chain id => exact answer (Locked.erase_chain d id) _
  | table id => exact answer (Locked.erase_table d id) _
  | locate id fileId => exact answer (Locked.erase_locate d id fileId) _
  | probeKey loc => exact answer (Locked.erase_probeKey d loc) _
  | block loc i => exact answer (Locked.erase_block d loc i) _
  | read loc offset len => exact answer (Locked.erase_read d loc offset len) _

theorem Request.locked_nested (r : Request) :
    (r.locked d).Nested Flight.rank [] [] := by
  have hnone : Locked.Below [] := fun k hk => absurd hk List.not_mem_nil
  have answer {α : Type} {x : LockedCall α} (hx : x.Nested Flight.rank [])
      (g : Outcome ReadError α → Reply) :
      (Guarded.bind (fun r => .done (g r)) x).Nested Flight.rank [] [] :=
    Guarded.Nested.bind hx fun _ => rfl
  cases r with
  | blobBytes id => exact Guarded.nested_ofProc _
  | parsed id => exact answer (Locked.nested_parsed hnone id) _
  | parent id => exact answer (Locked.nested_parent hnone id) _
  | chain id => exact answer (Locked.nested_chain hnone id) _
  | table id => exact answer (Locked.nested_table id) _
  | locate id fileId =>
    exact answer ((Locked.nested_table id).bind fun _ => GuardedCall.nested_lift _) _
  | probeKey loc => exact answer (Locked.nested_probeKey hnone loc) _
  | block loc i => exact answer (Locked.nested_block hnone loc i) _
  | read loc offset len => exact answer (Locked.nested_read hnone loc offset len) _

abbrev LockedStore := LockPool Flight Store Request Reply

/-- Every run of the store with its locks is a run of the store without them:
the same state, and the same answers. -/
theorem locked_runs_are_runs (d : Dump) {env : Store → Store → Prop} {s₀ : Store}
    {p : LockedStore} (hp : LockPool.Reachable (Request.locked d) Set.univ env s₀ p) :
    ∃ pool : Pool Store Request Reply, Pool.Reachable (Request.prog d) Set.univ env s₀ pool ∧
      pool.state = p.state ∧
      ∀ r a, (r, Guarded.done a) ∈ p.threads → pool.Answered r a := by
  have hprog : (fun r => (Request.locked d r).erase) = Request.prog d :=
    funext fun r => r.locked_erase d
  have hreach := hp.erase
  rw [hprog] at hreach
  exact ⟨p.erase, hreach, rfl, fun r a ha => List.mem_map.mpr ⟨_, ha, rfl⟩⟩

/-- One of two threads asked for a table holds its lock, the other waits. -/
theorem oneWaits_reachable : ∃ p : LockedStore,
    p.threads.map Prod.fst = [.table 1, .table 1] ∧ p.owner (.table 1) = some 0 ∧
    (p.threads[1]?.bind fun t => LockPool.wanted t.2) = some (.table 1) ∧
    LockPool.Reachable (Request.locked twoVersions.dump) Set.univ (fun _ _ => False)
      (Store.new twoVersions.dump fun _ => none) p := by
  have hcalls : LockPool.Reachable (Request.locked twoVersions.dump) Set.univ (fun _ _ => False)
      (Store.new twoVersions.dump fun _ => none)
      ⟨_, _, [(.table 1, Request.locked twoVersions.dump (.table 1)),
        (.table 1, Request.locked twoVersions.dump (.table 1))]⟩ :=
    (Relation.ReflTransGen.refl.tail (.spawn (Set.mem_univ _))).tail (.spawn (Set.mem_univ _))
  -- The first thread misses the cache and takes the lock, the second one misses it too.
  have hmissed := hcalls.tail (.acts (.act (i := 0) rfl))
  have hheld := hmissed.tail (.acts (.lock (i := 0) rfl rfl))
  have hwaits := hheld.tail (.acts (.act (i := 1) rfl))
  exact ⟨_, rfl, rfl, rfl, hwaits⟩

theorem locked_runs_are_runs_twoVersions :
    ∃ (p : LockedStore) (pool : Pool Store Request Reply),
      p.threads.map Prod.fst = [.table 1, .table 1] ∧ p.owner (.table 1) = some 0 ∧
      (p.threads[1]?.bind fun t => LockPool.wanted t.2) = some (.table 1) ∧
      pool.state = p.state ∧
      Pool.Reachable (Request.prog twoVersions.dump) Set.univ (fun _ _ => False)
        (Store.new twoVersions.dump fun _ => none) pool := by
  obtain ⟨p, hthreads, howner, hwaits, hp⟩ := oneWaits_reachable
  obtain ⟨pool, hpool, hstate, -⟩ := locked_runs_are_runs twoVersions.dump hp
  exact ⟨p, pool, hthreads, howner, hwaits, hstate, hpool⟩

/-- From every state of the store with its locks, however the calls under way
are scheduled from there, they come to an end and all of them have answered. -/
theorem locked_requests_answer (d : Dump) {env : Store → Store → Prop} {s₀ : Store}
    {p : LockedStore} (hp : LockPool.Reachable (Request.locked d) Set.univ env s₀ p) :
    Acc (fun p' p : LockedStore => LockPool.Acts p p') p ∧
      ∀ p', Relation.ReflTransGen LockPool.Acts p p' → (∀ p'', ¬ LockPool.Acts p' p'') →
        ∀ t ∈ p'.threads, ∃ a, t.2 = .done a :=
  hp.comes_back fun r _ => r.locked_nested

theorem locked_requests_answer_twoVersions :
    ∃ p : LockedStore, p.threads.map Prod.fst = [.table 1, .table 1] ∧
      ∀ p', Relation.ReflTransGen LockPool.Acts p p' → (∀ p'', ¬ LockPool.Acts p' p'') →
        ∀ t ∈ p'.threads, ∃ a, t.2 = .done a := by
  obtain ⟨p, hthreads, -, -, hp⟩ := oneWaits_reachable
  exact ⟨p, hthreads, (locked_requests_answer twoVersions.dump hp).2⟩

end Requests
end Steam2Fs
