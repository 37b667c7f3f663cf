import Steam2Fs.Lib.Duties
import Steam2Fs.StoreCalls

/-!
# The `verify` command

The workers of `verify` share a counter into the list of file nodes. A worker
takes the next node, looks its record up in the table of the version, and
calls `block` for every block the record lists; a node without a record, or
whose block call fails, leaves a line in the report.

A node of which no block call can go through therefore shows up in the report
of every run that ends: the counter has passed it, and whoever moved the
counter past it could not have stopped without leaving its line.
-/

namespace Steam2Fs
open Outcome

inductive VerifyLine where
  | noRecord (path : Bytes)
  | fail (path : Bytes) (e : ReadError)
  deriving DecidableEq, Repr

structure Verify where
  store : Store
  next : ℕ
  blocks : ℕ
  report : List (UInt32 × VerifyLine)

namespace Verify

def start (s : Store) : Verify := ⟨s, 0, 0, []⟩

def fileNodes (m : Manifest) : List UInt32 :=
  m.nodes.zipIdx.filterMap fun p => if p.1.isDir then none else some (UInt32.ofNat p.2)

def fileId (m : Manifest) (node : UInt32) : UInt32 := ((m.node node).map Node.fileId).getD NO_FILE

def onStore {α : Type} (x : StoreCall α) : Call Verify ReadError α :=
  x.on Verify.store fun s v => { v with store := s }

def push (node : UInt32) (line : VerifyLine) : Call Verify ReadError Unit :=
  Call.modify fun v => { v with report := v.report ++ [(node, line)] }

section Worker
variable (read : FileLoc → ℕ → StoreCall Bytes) (t : FileTable) (m : Manifest)

/-- The loop over the blocks of a file, up to the first one that fails. -/
def checkBlocksWith (node : UInt32) (path : Bytes) (loc : FileLoc) :
    List ℕ → Call Verify ReadError Unit
  | [] => pure ()
  | b :: bs => do
    Call.modify fun v => { v with blocks := v.blocks + 1 }
    match ← (onStore (read loc b)).attempt with
    | .ok _ => checkBlocksWith node path loc bs
    | .error e => push node (.fail path e)

/-- The body of the loop of a worker, which does not come back when the walk
to the root of the node does not end. -/
def examineWith (node : UInt32) : Call Verify ReadError Unit :=
  match m.path m.nodes.length node with
  | none => Call.lift .panic
  | some path =>
    match t.get (fileId m node) with
    | none => push node (.noRecord path)
    | some loc => checkBlocksWith read node path loc (List.range loc.record.numBlocks)

/-- The counter grows with every round, so there are at most as many rounds
as nodes. -/
def workerLoopWith : ℕ → Call Verify ReadError Unit
  | 0 => pure ()
  | fuel + 1 => do
    let i ← Call.atomic fun v => (v.next, { v with next := v.next + 1 })
    match (fileNodes m)[i]? with
    | none => pure ()
    | some node => do
      examineWith read t m node
      workerLoopWith fuel

/-- A worker over any way to read the blocks; `worker` reads them from a dump. -/
def workerWith : Call Verify ReadError Unit :=
  workerLoopWith read t m ((fileNodes m).length + 1)

end Worker

def worker (d : Dump) (t : FileTable) (m : Manifest) : Call Verify ReadError Unit :=
  workerWith d.block t m

structure Summary where
  lines : List (UInt32 × VerifyLine)
  files : ℕ
  blocks : ℕ

def Summary.failed (r : Summary) : ℕ := r.lines.length

/-- The lines in tree order, whatever order the workers finished in. -/
def summary (m : Manifest) (v : Verify) : Summary :=
  ⟨v.report.mergeSort fun a b => a.1 ≤ b.1, (fileNodes m).length, v.blocks⟩

theorem summary_failed {m : Manifest} {v : Verify} :
    (summary m v).failed = 0 ↔ v.report = [] := by
  simp [summary, Summary.failed]

/-- A run of `verify` on version `id` over a fresh store: the table and the
manifest load, then `jobs` workers start, and all of them come back. -/
def Ends (d : Dump) (cacheDir : ℕ → Option Bytes) (id jobs : ℕ) (t : FileTable) (m : Manifest)
    (v : Verify) : Prop :=
  ∃ s₁ p s₂, (d.table id).run (Store.new d cacheDir) = (.ok t, s₁) ∧
    (d.parsed id).run s₁ = (.ok p, s₂) ∧ p.manifest = m ∧
    ∃ pool : Pool Verify Unit (Outcome ReadError Unit),
      Pool.Reachable (fun _ => worker d t m) Set.univ (fun _ _ => False) (start s₂) pool ∧
      pool.threads.length = max jobs 1 ∧ (∀ th ∈ pool.threads, th.2 = .done (.ok ())) ∧
      pool.state = v

def alone (d : Dump) (cacheDir : ℕ → Option Bytes) (id : ℕ) :
    Option (FileTable × Manifest × Verify) :=
  match (d.table id).run (Store.new d cacheDir) with
  | (.ok t, s₁) => match (d.parsed id).run s₁ with
    | (.ok p, s₂) => match (worker d t p.manifest).run (start s₂) with
      | (.ok (), v) => some (t, p.manifest, v)
      | _ => none
    | _ => none
  | _ => none

theorem ends_alone {d : Dump} {cacheDir : ℕ → Option Bytes} {id : ℕ} {t : FileTable}
    {m : Manifest} {v : Verify} (h : alone d cacheDir id = some (t, m, v)) :
    Ends d cacheDir id 1 t m v := by
  unfold alone at h
  split at h
  · next t' s₁ htable =>
    split at h
    · next p s₂ hparsed =>
      split at h
      · next v' hworker =>
        cases h
        refine ⟨s₁, p, s₂, htable, hparsed, rfl, _, Pool.Reachable.call .refl (Set.mem_univ ()),
          by simp, fun th hth => ?_, ?_⟩
        · rw [List.mem_singleton.mp hth]
          exact congrArg (fun r : Outcome ReadError Unit × Verify => Proc.done r.1) hworker
        · exact congrArg Prod.snd hworker
      · cases h
    · cases h
  · cases h

/-! ### What a run leaves behind -/

def Examining (v v' : Verify) : Prop :=
  v'.next = v.next ∧ (v.report ≠ [] → v'.report ≠ [])

def Progress (v v' : Verify) : Prop :=
  v.next ≤ v'.next ∧ (v.report ≠ [] → v'.report ≠ [])

section Runs
variable {d : Dump} {t : FileTable} {m : Manifest}

theorem push_examining (node : UInt32) (line : VerifyLine) : (push node line).Within Examining :=
  Call.within_atomic fun _ => ⟨rfl, fun _ => by simp⟩

variable {read : FileLoc → ℕ → StoreCall Bytes}

theorem checkBlocksWith_examining (node : UInt32) (path : Bytes) (loc : FileLoc) (bs : List ℕ) :
    (checkBlocksWith read node path loc bs).Within Examining := by
  induction bs with
  | nil => exact Call.within_pure _
  | cons b bs ih =>
    have hblocks : (Call.modify fun v => { v with blocks := v.blocks + 1 } :
        Call Verify ReadError Unit).Within Examining :=
      Call.within_atomic fun _ => ⟨rfl, fun h => h⟩
    have hcall : (onStore (read loc b)).Within Examining :=
      Proc.within_on (fun _ _ => ⟨rfl, fun h => h⟩) _
    refine hblocks.bind fun _ => (Call.Within.attempt hcall).bind fun r => ?_
    cases r with
    | ok _ => exact ih
    | error e => exact push_examining _ _

theorem examineWith_examining (node : UInt32) :
    (examineWith read t m node).Within Examining := by
  unfold examineWith
  split
  · exact Call.within_lift _
  · split
    · exact push_examining _ _
    · exact checkBlocksWith_examining _ _ _ _

theorem workerLoopWith_progress (fuel : ℕ) : (workerLoopWith read t m fuel).Within Progress := by
  induction fuel with
  | zero => exact Call.within_pure _
  | succ fuel ih =>
    have hnext : (Call.atomic fun v => (v.next, { v with next := v.next + 1 }) :
        Call Verify ReadError ℕ).Within Progress :=
      Call.within_atomic fun v => ⟨Nat.le_succ _, fun h => h⟩
    refine hnext.bind fun i => ?_
    split
    · exact Call.within_pure _
    · refine Call.Within.bind ((examineWith_examining _).mono fun v v' h => ?_) fun _ => ih
      exact ⟨h.1.ge, h.2⟩

/-! Each examined node either has nothing to report or leaves a line. -/

variable {I : Store → Prop} (opens : FileLoc → ℕ → Prop)

def Opens (d : Dump) (t : FileTable) (m : Manifest) (I : Store → Prop)
    (opens : FileLoc → ℕ → Prop) : Prop :=
  ∀ node ∈ fileNodes m, ∀ loc, t.get (fileId m node) = some loc → ∀ i,
    (d.block loc i).Keeps I fun a => a.isOk = true → opens loc i

def Intact (t : FileTable) (m : Manifest) (opens : FileLoc → ℕ → Prop) (node : UInt32) : Prop :=
  ∃ loc, t.get (fileId m node) = some loc ∧ ∀ i < loc.record.numBlocks, opens loc i

variable {opens}

theorem checkBlocksWith_keeps {loc : FileLoc} (hcall : ∀ i, (read loc i).Safe I)
    (node : UInt32) (path : Bytes) (bs : List ℕ) :
    (checkBlocksWith read node path loc bs).Safe fun v => I v.store := by
  induction bs with
  | nil => exact Call.safe_pure _
  | cons b bs ih =>
    have hblock : (onStore (read loc b)).Safe fun v => I v.store :=
      Proc.Keeps.on (fun _ _ => rfl) (hcall b)
    refine Call.Safe.bind (Call.safe_atomic fun _ hv => hv) fun _ => ?_
    refine (Call.Safe.attempt hblock).bind fun r => ?_
    cases r with
    | ok _ => exact ih
    | error e => exact Call.safe_atomic fun _ hv => hv

/-- The workers keep `I` while they examine the file nodes. -/
def Keeping (read : FileLoc → ℕ → StoreCall Bytes) (t : FileTable) (m : Manifest)
    (I : Store → Prop) : Prop :=
  ∀ node ∈ fileNodes m, (examineWith read t m node).Safe fun v => I v.store

theorem Opens.keeping (h : Opens d t m I opens) : Keeping d.block t m I := by
  intro node hnode
  unfold examineWith
  split
  · exact Call.safe_lift _
  · split
    · exact Call.safe_atomic fun _ hv => hv
    · next loc hloc => exact checkBlocksWith_keeps (fun i => (h node hnode loc hloc i).safe) _ _ _

theorem workerLoopWith_keeps (h : Keeping read t m I) (fuel : ℕ) :
    (workerLoopWith read t m fuel).Safe fun v => I v.store := by
  induction fuel with
  | zero => exact Call.safe_pure _
  | succ fuel ih =>
    refine Call.Safe.bind (Call.safe_atomic fun _ hv => hv) fun i => ?_
    split
    · exact Call.safe_pure _
    · next node hnode => exact Call.Safe.bind (h node (List.mem_of_getElem? hnode)) fun _ => ih

def Reported (a : Outcome ReadError Unit) (v : Verify) : Prop := a = .ok () → v.report ≠ []

theorem push_leads {J : Verify → Prop} (node : UInt32) (line : VerifyLine) (v : Verify) :
    (push node line).Leads J Progress Reported v :=
  Call.leads_atomic fun v' _ _ _ => by simp

theorem checkBlocksWith_leads (h : Opens d t m I opens) {node : UInt32} (hnode : node ∈ fileNodes m)
    {loc : FileLoc} (hloc : t.get (fileId m node) = some loc) (path : Bytes) {bs : List ℕ}
    (hbad : ∃ i ∈ bs, ¬ opens loc i) (v : Verify) :
    (checkBlocksWith d.block node path loc bs).Leads (fun v => I v.store) Progress Reported v := by
  induction bs generalizing v with
  | nil => simp at hbad
  | cons b bs ih =>
    have hcall : (onStore (d.block loc b)).Keeps (fun v => I v.store)
        fun a => a.isOk = true → opens loc b :=
      Proc.Keeps.on (fun _ _ => rfl) (h node hnode loc hloc b)
    have hattempt : ((onStore (d.block loc b)).attempt :
        Call Verify ReadError (Except ReadError Bytes)).Keeps (fun v => I v.store)
          fun a => ∀ bytes, a = .ok (.ok bytes) → opens loc b := by
      refine Call.Keeps.attempt hcall fun r hr bytes hok => hr ?_
      cases r with
      | ok _ => rfl
      | err e => cases hok
      | panic => cases hok
    refine Call.Leads.bind_atomic fun v' hv' _ => ?_
    refine Call.Leads.bind hattempt (fun _ _ _ hI _ => hI) (fun r v'' hr _ => ?_)
      (fun e _ _ hok => by cases hok) (fun _ _ hok => by cases hok) hv'
    cases r with
    | error e => exact push_leads _ _ _
    | ok bytes =>
      obtain ⟨i, hi, hnot⟩ := hbad
      rcases List.mem_cons.mp hi with rfl | hi
      · exact absurd (hr bytes rfl) hnot
      · exact ih ⟨i, hi, hnot⟩ v''

theorem examineWith_leads (h : Opens d t m I opens) {node : UInt32} (hnode : node ∈ fileNodes m)
    (hbad : ¬ Intact t m opens node) (v : Verify) :
    (examineWith d.block t m node).Leads (fun v => I v.store) Progress Reported v := by
  unfold examineWith
  split
  · exact Call.leads_lift fun hok => by cases hok
  · split
    · exact push_leads _ _ _
    · next loc hloc =>
      have hblock : ∃ i ∈ List.range loc.record.numBlocks, ¬ opens loc i := by
        by_contra hall
        push Not at hall
        exact hbad ⟨loc, hloc, fun i hi => hall i (List.mem_range.mpr hi)⟩
      exact checkBlocksWith_leads h hnode hloc _ hblock v

theorem workerLoopWith_duty (h : Opens d t m I opens) {j : ℕ} {node : UInt32}
    (hj : (fileNodes m)[j]? = some node) (hbad : ¬ Intact t m opens node) (fuel : ℕ) :
    (workerLoopWith d.block t m fuel).Duty (fun v => I v.store) Progress (fun v => j < v.next)
      Reported := by
  induction fuel with
  | zero => trivial
  | succ fuel ih =>
    refine Call.Duty.bind_atomic (fun v _ hbefore hafter => ?_) fun i => ?_
    · have hnext : v.next = j := by
        dsimp only at hafter
        omega
      dsimp only
      rw [hnext, hj]
      refine Call.Leads.seq (examineWith_leads h (List.mem_of_getElem? hj) hbad _) (fun _ v' hv' => ?_)
        (fun e _ _ hok => by cases hok) fun _ _ hok => by cases hok
      exact Call.leads_of_stable (workerLoopWith_progress fuel) (fun _ _ hR => hR.2)
        (fun _ _ hreport _ => hreport) (hv' rfl)
    · split
      · trivial
      · refine Call.Duty.bind ((examineWith_examining _).mono fun v v' hE hlt => ?_) fun _ => ih
        rwa [hE.1] at hlt

def Exhausted (m : Manifest) (a : Outcome ReadError Unit) (v : Verify) : Prop :=
  a = .ok () → (fileNodes m).length ≤ v.next

theorem workerLoopWith_leads (h : Keeping read t m I) {fuel : ℕ} {v : Verify}
    (hfuel : (fileNodes m).length ≤ v.next + fuel) :
    (workerLoopWith read t m fuel).Leads (fun v => I v.store) Progress (Exhausted m) v := by
  induction fuel generalizing v with
  | zero => exact Call.leads_lift fun _ => hfuel
  | succ fuel ih =>
    refine Call.Leads.bind_atomic fun v' hv' hR => ?_
    have hle : v.next ≤ v'.next := hR.1
    dsimp only
    split
    · next hnone =>
      have hlen := List.getElem?_eq_none_iff.mp hnone
      exact Call.leads_lift fun _ => by dsimp only; omega
    · next node hnode =>
      -- the counter has passed the node that was taken, and stays there
      have hexamine : (examineWith read t m node).Keeps
          (fun w => I w.store ∧ v'.next + 1 ≤ w.next) fun _ => True :=
        Proc.Keeps.frame (h node (List.mem_of_getElem? hnode)) (examineWith_examining node)
          fun w w' hE hw => by rw [hE.1]; exact hw
      refine Call.Leads.bind hexamine (fun w w' hw hI hR => ⟨hI, hw.2.trans hR.1⟩)
        (fun _ w _ hw => ih (by omega)) (fun e _ _ hok => by cases hok)
        (fun _ _ hok => by cases hok) ⟨hv', le_rfl⟩

theorem moves (h : Keeping read t m I) :
    Pool.Moves (fun _ : Unit => workerWith read t m) Set.univ (fun _ _ => False)
      (fun v => I v.store) Progress where
  refl := fun _ => ⟨le_rfl, fun h => h⟩
  trans := fun _ _ _ h h' => ⟨h.1.trans h'.1, fun hr => h'.2 (h.2 hr)⟩
  keeps := fun _ _ => workerLoopWith_keeps h ((fileNodes m).length + 1)
  within := fun _ _ => workerLoopWith_progress ((fileNodes m).length + 1)
  env := fun _ _ he => he.elim

theorem next_of_reachable (h : Keeping read t m I) {s : Store} (hs : I s)
    {pool : Pool Verify Unit (Outcome ReadError Unit)}
    (hpool : Pool.Reachable (fun _ => workerWith read t m) Set.univ (fun _ _ => False) (start s)
      pool) (hsome : pool.threads ≠ []) (hdone : ∀ th ∈ pool.threads, th.2 = .done (.ok ())) :
    (fileNodes m).length ≤ pool.state.next := by
  obtain ⟨th, hth⟩ := List.exists_mem_of_ne_nil _ hsome
  have howes := hpool.leads (moves h) (fun _ _ v => workerLoopWith_leads h (by omega)) hs th hth
  obtain ⟨v, hv, hlead⟩ := howes
  rw [hdone th hth] at hlead
  exact (hlead rfl).trans hv.1

theorem intact_of_reachable (h : Opens d t m I opens) {s : Store} (hs : I s)
    {pool : Pool Verify Unit (Outcome ReadError Unit)}
    (hpool : Pool.Reachable (fun _ => worker d t m) Set.univ (fun _ _ => False) (start s) pool)
    (hsome : pool.threads ≠ []) (hdone : ∀ th ∈ pool.threads, th.2 = .done (.ok ()))
    (hreport : pool.state.report = []) : ∀ node ∈ fileNodes m, Intact t m opens node := by
  intro node hnode
  by_contra hbad
  obtain ⟨j, hj⟩ := List.mem_iff_getElem?.mp hnode
  have hlt := (List.getElem?_eq_some_iff.mp hj).1
  have hpassed : j < pool.state.next :=
    hlt.trans_le (next_of_reachable h.keeping hs hpool hsome hdone)
  obtain ⟨th, hth, v, hv, hlead⟩ := (hpool.owed (moves h.keeping)
    (fun _ _ => workerLoopWith_duty h hj hbad _) (fun _ _ he => he.elim) hs (by simp [start])).2
      hpassed
  rw [hdone th hth] at hlead
  exact hv.2 (hlead rfl) hreport

end Runs
end Verify
end Steam2Fs
