import Mathlib.Data.Multiset.AddSub
import Steam2Fs.Lib.Accounts
import Steam2Fs.ManifestLookup
import Steam2Fs.Verify

/-!
# Any number of workers

The workers of `verify` race for the next node, for the report and for the
block total. Each node adds a fixed share to the report and to the total, once
the blocks of the files answer the same whenever they are read, and it adds it
by the hand of the one worker that moved the counter past it. The report is
sorted in the end, so nothing that is printed tells the workers apart from a
single one.
-/

namespace Steam2Fs
open Outcome

namespace Verify

/-! ### What a node adds -/

abbrev Share := Multiset (UInt32 × VerifyLine) × ℕ × ℕ

section Shares
variable (outcome : FileLoc → ℕ → Except ReadError Bytes) (t : FileTable) (m : Manifest)

def blocksShare (node : UInt32) (path : Bytes) (loc : FileLoc) : List ℕ → Share
  | [] => 0
  | b :: bs => match outcome loc b with
    | .ok _ => (0, 1, 0) + blocksShare node path loc bs
    | .error e => ({(node, .fail path e)}, 1, 0)

def share (node : UInt32) : Share :=
  match m.path m.nodes.length node with
  | none => (0, 0, 1)
  | some path =>
    match t.get (fileId m node) with
    | none => ({(node, .noRecord path)}, 0, 0)
    | some loc => blocksShare outcome node path loc (List.range loc.record.numBlocks)

def delivered (v : Verify) : Share := (v.report, v.blocks, 0)

def taken (v : Verify) : Share := (((fileNodes m).take v.next).map (share outcome t m)).sum

def answer : Except ReadError Bytes → Outcome ReadError Bytes
  | .ok v => .ok v
  | .error e => .err e

/-- The blocks of the files answer `outcome` whenever they are read. -/
def Fixed (read : FileLoc → ℕ → StoreCall Bytes) (I : Store → Prop) : Prop :=
  ∀ node ∈ fileNodes m, ∀ loc, t.get (fileId m node) = some loc →
    ∀ i < loc.record.numBlocks, (read loc i).Answers I (answer (outcome loc i))

/-- How a worker ends: it owes nothing, or it is stuck on a path. -/
def Left (r : Outcome ReadError Unit) (a : Share) : Prop :=
  r = .ok () ∧ a = 0 ∨ r = .panic ∧ 0 < a.2.2

end Shares

section Owing
variable {read : FileLoc → ℕ → StoreCall Bytes} {outcome : FileLoc → ℕ → Except ReadError Bytes}
  {t : FileTable} {m : Manifest} {I : Store → Prop}

theorem onStore_answers {x : StoreCall Bytes} {y : Except ReadError Bytes}
    (h : x.Answers I (answer y)) :
    ((onStore x).attempt : Call Verify ReadError (Except ReadError Bytes)).Answers
      (fun v => I v.store) (.ok y) := by
  have hon : (onStore x).Answers (fun v => I v.store) (answer y) :=
    Proc.Keeps.on (fun _ _ => rfl) h
  have hattempt : ((answer y).attempt : Outcome ReadError (Except ReadError Bytes)) = .ok y := by
    cases y with
    | ok v => rfl
    | error e => rfl
  rw [← hattempt]
  exact hon.attempt

theorem push_owing (node : UInt32) (line : VerifyLine) :
    (push node line).Owing (fun v => I v.store) delivered (taken outcome t m) Left
      ({(node, line)}, 0, 0) := by
  refine Call.owing_atomic fun v hv => ⟨hv, 0, Or.inl ⟨rfl, rfl⟩, ?_⟩
  have hdelivered : delivered { v with report := v.report ++ [(node, line)] } =
      delivered v + ({(node, line)}, 0, 0) := by
    simp [delivered, ← Multiset.coe_add]
  dsimp only
  rw [hdelivered, add_zero]
  rfl

theorem checkBlocksWith_owing {node : UInt32} {path : Bytes} {loc : FileLoc} {bs : List ℕ}
    (h : ∀ b ∈ bs, (read loc b).Answers I (answer (outcome loc b))) :
    (checkBlocksWith read node path loc bs).Owing (fun v => I v.store) delivered
      (taken outcome t m) Left (blocksShare outcome node path loc bs) := by
  induction bs with
  | nil => exact Or.inl ⟨rfl, rfl⟩
  | cons b bs ih =>
    have hread := h b List.mem_cons_self
    have ih := ih fun b hb => h b (List.mem_cons_of_mem _ hb)
    have hwithin : ((onStore (read loc b)).attempt :
        Call Verify ReadError (Except ReadError Bytes)).Within
          fun v v' => delivered v' = delivered v ∧ taken outcome t m v' = taken outcome t m v :=
      Call.Within.attempt (Proc.within_on (fun _ _ => ⟨rfl, rfl⟩) _)
    have hstep (a : Share) (hrest : Call.Owing (fun v => I v.store) delivered (taken outcome t m)
        Left (match outcome loc b with
          | .ok _ => checkBlocksWith read node path loc bs
          | .error e => push node (.fail path e)) a) :
        (checkBlocksWith read node path loc (b :: bs)).Owing (fun v => I v.store) delivered
          (taken outcome t m) Left ((0, 1, 0) + a) := by
      refine Call.Owing.bind_atomic fun v hv => ⟨hv, a, ?_, ?_⟩
      · exact Call.Owing.after (onStore_answers hread) hwithin hrest
      · have hdelivered : delivered { v with blocks := v.blocks + 1 } =
            delivered v + (0, 1, 0) := by
          simp [delivered]
        dsimp only
        rw [hdelivered, add_assoc (delivered v)]
        rfl
    rw [blocksShare]
    cases houtcome : outcome loc b with
    | ok bytes =>
      rw [houtcome] at hstep
      exact hstep _ ih
    | error e =>
      rw [houtcome] at hstep
      have hpush := hstep _ (push_owing node (.fail path e))
      simpa using hpush

theorem examineWith_owing (h : Fixed outcome t m read I) {node : UInt32}
    (hnode : node ∈ fileNodes m) :
    (examineWith read t m node).Owing (fun v => I v.store) delivered (taken outcome t m) Left
      (share outcome t m node) := by
  unfold examineWith share
  cases m.path m.nodes.length node with
  | none => exact Or.inr ⟨rfl, Nat.one_pos⟩
  | some path =>
    cases hloc : t.get (fileId m node) with
    | none => exact push_owing node _
    | some loc =>
      exact checkBlocksWith_owing fun b hb => h node hnode loc hloc b (List.mem_range.mp hb)

theorem taken_succ (v : Verify) : taken outcome t m { v with next := v.next + 1 } =
    taken outcome t m v + (((fileNodes m)[v.next]?).map (share outcome t m)).getD 0 := by
  unfold taken
  dsimp only
  cases hnode : (fileNodes m)[v.next]? with
  | none =>
    have hlen := List.getElem?_eq_none_iff.mp hnode
    rw [List.take_of_length_le (by omega), List.take_of_length_le hlen]
    simp
  | some node =>
    have hlt := (List.getElem?_eq_some_iff.mp hnode).1
    rw [List.take_add_one, hnode, List.map_append, List.sum_append]
    simp

theorem workerLoopWith_owing (h : Fixed outcome t m read I) (fuel : ℕ) :
    (workerLoopWith read t m fuel).Owing (fun v => I v.store) delivered (taken outcome t m)
      Left 0 := by
  induction fuel with
  | zero => exact Or.inl ⟨rfl, rfl⟩
  | succ fuel ih =>
    refine Call.Owing.bind_atomic fun v hv =>
      ⟨hv, (((fileNodes m)[v.next]?).map (share outcome t m)).getD 0, ?_, ?_⟩
    · dsimp only
      cases hnode : (fileNodes m)[v.next]? with
      | none => exact Or.inl ⟨rfl, rfl⟩
      | some node =>
        have hexamine := examineWith_owing h (List.mem_of_getElem? hnode)
        refine Call.Owing.bind hexamine (fun r a' hr => ?_) (fun e a' hr => ?_) fun a' hr => ?_
        · rcases hr with ⟨-, rfl⟩ | ⟨hr, -⟩
          · exact ih
          · cases hr
        · rcases hr with ⟨hr, -⟩ | ⟨hr, -⟩
          · cases hr
          · cases hr
        · rcases hr with ⟨hr, -⟩ | hr
          · cases hr
          · exact Or.inr hr
    · have hdelivered : delivered { v with next := v.next + 1 } = delivered v := rfl
      dsimp only
      rw [taken_succ, hdelivered]
      abel

end Owing
/-! ### Who takes a node -/

section Takes
variable (read : FileLoc → ℕ → StoreCall Bytes) (t : FileTable) (m : Manifest)

/-- What a worker does with the index it was given. -/
def afterTake (fuel i : ℕ) : Call Verify ReadError Unit :=
  match (fileNodes m)[i]? with
  | none => pure ()
  | some node => do
    examineWith read t m node
    workerLoopWith read t m fuel

/-- An action leaves the counter alone, or takes the next index. -/
def Takes (v v' : Verify) (rest : Call Verify ReadError Unit) : Prop :=
  v'.next = v.next ∨ v'.next = v.next + 1 ∧ ∃ fuel, rest = afterTake read t m fuel v.next

variable {read t m}

theorem workerLoopWith_each (fuel : ℕ) :
    Proc.Each (Takes read t m) (workerLoopWith read t m fuel) := by
  induction fuel with
  | zero => trivial
  | succ fuel ih =>
    intro v
    refine ⟨Or.inr ⟨rfl, fuel, rfl⟩, ?_⟩
    change Proc.Each (Takes read t m) (afterTake read t m fuel v.next)
    unfold afterTake
    cases (fileNodes m)[v.next]? with
    | none => trivial
    | some node =>
      refine Proc.Each.bind ((examineWith_examining node).mono fun v v' h rest => Or.inl h.1)
        fun r => ?_
      cases r with
      | ok _ => exact ih
      | err e => trivial
      | panic => trivial

/-! The indices are taken one after the other, and none is left in the end. -/

/-- The worker and the index of each take, in the order they happened. -/
def takes (hist : List (Pool.Event Verify (Outcome ReadError Unit))) : List (ℕ × ℕ) :=
  hist.filterMap fun ev =>
    if ev.after.next = ev.before.next then none else some (ev.who, ev.before.next)

section Runs
variable {s : Store} {hist : List (Pool.Event Verify (Outcome ReadError Unit))}
  {pool : Pool Verify Unit (Outcome ReadError Unit)}

theorem takes_order (h : Pool.Runs (fun _ : Unit => workerWith read t m) (start s) hist pool) :
    (takes hist).map Prod.snd = List.range pool.state.next := by
  induction h with
  | start => rfl
  | spawn _ c ih => exact ih
  | @act hist v ts k c update next hrun hk ih =>
    have heach := (hrun.each fun _ => workerLoopWith_each _).2 _ (List.mem_of_getElem? hk)
    unfold takes at ih ⊢
    rw [List.filterMap_append, List.map_append, ih]
    dsimp only
    rcases (heach v).1 with hsame | ⟨hnext, -⟩
    · simp [hsame]
    · simp [hnext, List.range_succ]

/-- The workers that took the node, one entry for each time. -/
def examiners (m : Manifest) (hist : List (Pool.Event Verify (Outcome ReadError Unit)))
    (node : UInt32) : List ℕ :=
  (takes hist).filterMap fun e => if (fileNodes m)[e.2]? = some node then some e.1 else none

end Runs

end Takes

/-! ### A finished run -/

section Finished
variable {read : FileLoc → ℕ → StoreCall Bytes} {outcome : FileLoc → ℕ → Except ReadError Bytes}
  {t : FileTable} {m : Manifest} {I : Store → Prop} {s : Store}
  {hist : List (Pool.Event Verify (Outcome ReadError Unit))}
  {pool : Pool Verify Unit (Outcome ReadError Unit)}

theorem Fixed.keeping (h : Fixed outcome t m read I) : Keeping read t m I :=
  fun _ hnode => (Proc.Owing.keeps (examineWith_owing h hnode)).mono fun _ _ => trivial

def total (outcome : FileLoc → ℕ → Except ReadError Bytes) (t : FileTable) (m : Manifest) :
    Share :=
  ((fileNodes m).map (share outcome t m)).sum

theorem balanced_of_runs (h : Fixed outcome t m read I) (hs : I s)
    (hrun : Pool.Runs (fun _ : Unit => workerWith read t m) (start s) hist pool) :
    pool.Balanced (fun v => I v.store) delivered (taken outcome t m) Left :=
  hrun.balanced (fun _ => workerLoopWith_owing h _) hs rfl

theorem delivered_of_finished (h : Fixed outcome t m read I) (hs : I s)
    (hrun : Pool.Runs (fun _ : Unit => workerWith read t m) (start s) hist pool)
    (hsome : pool.threads ≠ []) (hdone : ∀ th ∈ pool.threads, th.2 = .done (.ok ())) :
    delivered pool.state = total outcome t m := by
  have hbalanced := balanced_of_runs h hs hrun
  have hsettled := hbalanced.settled fun th hth => ⟨_, hdone th hth, fun a ha => by
    rcases ha with ha | ha
    · exact ha.2
    · cases ha.1⟩
  rw [hsettled, taken, List.take_of_length_le
    (next_of_reachable h.keeping hs hrun.reachable hsome hdone)]
  rfl

theorem returned (h : Fixed outcome t m read I) (hs : I s)
    (hrun : Pool.Runs (fun _ : Unit => workerWith read t m) (start s) hist pool)
    (hstuck : (total outcome t m).2.2 = 0) {th : Unit × Call Verify ReadError Unit}
    (hth : th ∈ pool.threads) {r : Outcome ReadError Unit} (hr : th.2 = .done r) : r = .ok () := by
  obtain ⟨a, b, hleft, hsum⟩ := (balanced_of_runs h hs hrun).owed hth hr
  rcases hleft with hleft | ⟨-, hpos⟩
  · exact hleft.1
  have hsplit : total outcome t m = taken outcome t m pool.state +
      (((fileNodes m).drop pool.state.next).map (share outcome t m)).sum := by
    rw [total, taken, ← List.sum_append, ← List.map_append, List.take_append_drop]
  have hsum := congrArg (fun x : Share => x.2.2) hsum
  have hsplit := congrArg (fun x : Share => x.2.2) hsplit
  simp only [Prod.snd_add] at hsum hsplit
  omega

/-! Each file node has at most one line, so sorting leaves no choice. -/

theorem fileNodes_nodup (hm : m.nodes.length < 2 ^ 32) : (fileNodes m).Nodup := by
  have hindex {i : ℕ} (hi : i < m.nodes.zipIdx.length) {node : UInt32}
      (hnode : (if m.nodes.zipIdx[i].1.isDir then none
        else some (UInt32.ofNat m.nodes.zipIdx[i].2)) = some node) : node.toNat = i := by
    rw [List.length_zipIdx] at hi
    split_ifs at hnode
    rw [← Option.some.inj hnode, List.getElem_zipIdx, Nat.zero_add]
    exact UInt32.toNat_ofNat_of_lt' (hi.trans hm)
  unfold fileNodes
  rw [List.Nodup, List.pairwise_filterMap, List.pairwise_iff_getElem]
  intro i j hi hj hij a ha b hb hab
  have hai := hindex hi ha
  have hbj := hindex hj hb
  rw [hab] at hai
  omega

theorem blocksShare_lines (outcome : FileLoc → ℕ → Except ReadError Bytes) (node : UInt32)
    (path : Bytes) (loc : FileLoc) (bs : List ℕ) :
    (blocksShare outcome node path loc bs).1.map Prod.fst ≤ {node} := by
  induction bs with
  | nil => exact Multiset.zero_le _
  | cons b bs ih =>
    rw [blocksShare]
    cases outcome loc b with
    | ok bytes => simpa using ih
    | error e => simp

theorem share_lines (outcome : FileLoc → ℕ → Except ReadError Bytes) (t : FileTable)
    (m : Manifest) (node : UInt32) : (share outcome t m node).1.map Prod.fst ≤ {node} := by
  unfold share
  cases m.path m.nodes.length node with
  | none => exact Multiset.zero_le _
  | some path =>
    cases t.get (fileId m node) with
    | none => simp
    | some loc => exact blocksShare_lines outcome node path loc _

theorem total_lines_nodup (outcome : FileLoc → ℕ → Except ReadError Bytes) (t : FileTable)
    (hm : m.nodes.length < 2 ^ 32) : ((total outcome t m).1.map Prod.fst).Nodup := by
  have hle (nodes : List UInt32) :
      (nodes.map (share outcome t m)).sum.1.map Prod.fst ≤ (nodes : Multiset UInt32) := by
    induction nodes with
    | nil => exact Multiset.zero_le _
    | cons node nodes ih =>
      rw [List.map_cons, List.sum_cons, Prod.fst_add, Multiset.map_add, ← Multiset.cons_coe,
        ← Multiset.singleton_add]
      exact add_le_add (share_lines outcome t m node) ih
  exact Multiset.nodup_of_le (hle _) (Multiset.coe_nodup.mpr (fileNodes_nodup hm))

theorem summary_eq (hm : m.nodes.length < 2 ^ 32) {v v' : Verify}
    (hv : delivered v = total outcome t m) (hv' : delivered v' = total outcome t m) :
    summary m v = summary m v' := by
  have hlines : (v.report : Multiset (UInt32 × VerifyLine)) = v'.report :=
    congrArg Prod.fst (hv.trans hv'.symm)
  have hblocks : v.blocks = v'.blocks := congrArg (fun x : Share => x.2.1) (hv.trans hv'.symm)
  have hnodup : (v.report.map Prod.fst).Nodup := by
    have hnodup := total_lines_nodup outcome t hm
    rw [← hv] at hnodup
    exact hnodup
  have hsorted (l : List (UInt32 × VerifyLine)) :
      (l.mergeSort fun a b => a.1 ≤ b.1).Pairwise fun a b => decide (a.1 ≤ b.1) = true := by
    apply List.pairwise_mergeSort
    · intro a b c hab hbc
      simp only [decide_eq_true_eq] at hab hbc ⊢
      exact UInt32.le_trans hab hbc
    · intro a b
      simpa using UInt32.le_total a.1 b.1
  have hperm : (v.report.mergeSort fun a b => a.1 ≤ b.1).Perm
      (v'.report.mergeSort fun a b => a.1 ≤ b.1) :=
    (List.mergeSort_perm _ _).trans ((Multiset.coe_eq_coe.mp hlines).trans
      (List.mergeSort_perm _ _).symm)
  have hsame : (v.report.mergeSort fun a b => a.1 ≤ b.1) =
      v'.report.mergeSort fun a b => a.1 ≤ b.1 := by
    refine hperm.eq_of_pairwise (fun a b ha hb hab hba => ?_) (hsorted _) (hsorted _)
    simp only [decide_eq_true_eq] at hab hba
    have hb := (List.mergeSort_perm _ _).subset (hperm.symm.subset hb)
    have ha := (List.mergeSort_perm _ _).subset ha
    exact List.inj_on_of_nodup_map hnodup ha hb (UInt32.le_antisymm hab hba)
  unfold summary
  rw [hsame, hblocks]

def Finished (read : FileLoc → ℕ → StoreCall Bytes) (t : FileTable) (m : Manifest) (s : Store)
    (jobs : ℕ) (hist : List (Pool.Event Verify (Outcome ReadError Unit)))
    (pool : Pool Verify Unit (Outcome ReadError Unit)) : Prop :=
  Pool.Runs (fun _ : Unit => workerWith read t m) (start s) hist pool ∧
    pool.threads.length = max jobs 1 ∧ ∀ th ∈ pool.threads, th.2 = .done (.ok ())

theorem Finished.threads {jobs : ℕ} (h : Finished read t m s jobs hist pool) :
    pool.threads ≠ [] := by
  intro hnil
  have hlen := h.2.1
  rw [hnil, List.length_nil] at hlen
  omega

theorem alone_run (read : FileLoc → ℕ → StoreCall Bytes) (t : FileTable) (m : Manifest)
    (s : Store) :
    ∃ hist, Pool.Runs (fun _ : Unit => workerWith read t m) (start s) hist
      ⟨((workerWith read t m).run (start s)).2,
        [((), .done ((workerWith read t m).run (start s)).1)]⟩ := by
  have hreach : Pool.Reachable (fun _ : Unit => workerWith read t m) Set.univ (fun _ _ => False)
      (start s) ⟨((workerWith read t m).run (start s)).2,
        [((), .done ((workerWith read t m).run (start s)).1)]⟩ :=
    Pool.Reachable.call .refl (Set.mem_univ ())
  exact hreach.runs

theorem alone_returns (h : Fixed outcome t m read I) (hs : I s)
    (hstuck : (total outcome t m).2.2 = 0) :
    ((workerWith read t m).run (start s)).1 = .ok () := by
  obtain ⟨hist, hrun⟩ := alone_run read t m s
  exact returned h hs hrun hstuck (List.mem_singleton_self _) rfl

theorem alone_delivers (h : Fixed outcome t m read I) (hs : I s)
    (hret : ((workerWith read t m).run (start s)).1 = .ok ()) :
    delivered ((workerWith read t m).run (start s)).2 = total outcome t m := by
  obtain ⟨hist, hrun⟩ := alone_run read t m s
  refine delivered_of_finished h hs hrun (List.cons_ne_nil _ _) fun th hth => ?_
  rw [List.mem_singleton.mp hth, hret]

theorem stuck_of_delivered {v : Verify} (hv : delivered v = total outcome t m) :
    (total outcome t m).2.2 = 0 := by
  rw [← hv]
  rfl

theorem examiners_of_finished (hm : m.nodes.length < 2 ^ 32) (h : Fixed outcome t m read I)
    (hs : I s) {jobs : ℕ} (hfin : Finished read t m s jobs hist pool) {node : UInt32}
    (hnode : node ∈ fileNodes m) : ∃ k < max jobs 1, examiners m hist node = [k] := by
  obtain ⟨j, hj⟩ := List.mem_iff_getElem?.mp hnode
  obtain ⟨hlt, hget⟩ := List.getElem?_eq_some_iff.mp hj
  have hnext := next_of_reachable h.keeping hs hfin.1.reachable hfin.threads hfin.2.2
  have horder := takes_order hfin.1
  have hmem : j ∈ (takes hist).map Prod.snd := by
    rw [horder, List.mem_range]
    omega
  obtain ⟨e, he, rfl⟩ := List.mem_map.mp hmem
  obtain ⟨before, after, hsplit⟩ := List.append_of_mem he
  have hnodup : ((takes hist).map Prod.snd).Nodup := by
    rw [horder]
    exact List.nodup_range
  rw [hsplit, List.map_append, List.map_cons, List.nodup_middle, List.nodup_cons] at hnodup
  have hother : ∀ e' ∈ before ++ after,
      (if (fileNodes m)[e'.2]? = some node then some e'.1 else none) = none := by
    intro e' he'
    apply if_neg
    intro hsame
    have hindex : e.2 = e'.2 :=
      (List.getElem?_inj hlt (fileNodes_nodup hm)).mp (hj.trans hsame.symm)
    apply hnodup.1
    rw [hindex, ← List.map_append]
    exact List.mem_map_of_mem he'
  obtain ⟨ev, hev, hwho⟩ := List.mem_filterMap.mp he
  refine ⟨e.1, ?_, ?_⟩
  · have hworker := hfin.1.who_lt ev hev
    split_ifs at hwho
    cases hwho
    rw [hfin.2.1] at hworker
    exact hworker
  · have hbefore := List.filterMap_eq_nil_iff.mpr fun e' he' =>
      hother e' (List.mem_append_left after he')
    have hafter := List.filterMap_eq_nil_iff.mpr fun e' he' =>
      hother e' (List.mem_append_right before he')
    unfold examiners
    rw [hsplit, List.filterMap_append, List.filterMap_cons, if_pos hj, hbefore, hafter]
    rfl

structure LikeAlone (read : FileLoc → ℕ → StoreCall Bytes) (t : FileTable) (m : Manifest)
    (s : Store) (jobs : ℕ) : Prop where
  takes_examine : ∀ hist pool,
    Pool.Runs (fun _ : Unit => workerWith read t m) (start s) hist pool →
      ∀ ev ∈ hist, ev.after.next ≠ ev.before.next →
        ∃ fuel, ev.rest = afterTake read t m fuel ev.before.next
  one_examiner : ∀ hist pool, Finished read t m s jobs hist pool →
    ∀ node ∈ fileNodes m, ∃ k < max jobs 1, examiners m hist node = [k]
  same_summary : ∀ hist pool, Finished read t m s jobs hist pool →
    ((workerWith read t m).run (start s)).1 = .ok () ∧
      summary m pool.state = summary m ((workerWith read t m).run (start s)).2
  finishes : ((workerWith read t m).run (start s)).1 = .ok () → ∀ hist pool,
    Pool.Runs (fun _ : Unit => workerWith read t m) (start s) hist pool →
      pool.threads.length ≤ max jobs 1 →
        (∀ th ∈ pool.threads, ∀ r, th.2 = .done r → r = .ok ()) ∧
          ∃ more pool', Finished read t m s jobs (hist ++ more) pool'

/-- Any number of workers, in any order of their actions, examine every file
node once and report what a single worker does. -/
theorem workers_like_alone {data : Bytes} (hm : Manifest.parse data = .ok m)
    (h : Fixed outcome t m read I) (hs : I s) (jobs : ℕ) : LikeAlone read t m s jobs := by
  have hcount := (Manifest.parse_searchable hm).count
  refine ⟨fun hist pool hrun ev hev hnext => ?_, fun hist pool hfin node hnode => ?_,
    fun hist pool hfin => ?_, fun hret hist pool hrun hlen => ⟨fun th hth r hr => ?_, ?_⟩⟩
  · rcases (hrun.each fun _ => workerLoopWith_each _).1 ev hev with hsame | ⟨-, hrest⟩
    · exact absurd hsame hnext
    · exact hrest
  · exact examiners_of_finished hcount h hs hfin hnode
  · have hdelivered := delivered_of_finished h hs hfin.1 hfin.threads hfin.2.2
    have hret := alone_returns h hs (stuck_of_delivered hdelivered)
    exact ⟨hret, summary_eq hcount hdelivered (alone_delivers h hs hret)⟩
  · exact returned h hs hrun (stuck_of_delivered (alone_delivers h hs hret)) hth hr
  · have hstuck := stuck_of_delivered (alone_delivers h hs hret)
    obtain ⟨⟨v, ts⟩, hspawned, hjobs⟩ := hrun.spawn_to () hlen
    obtain ⟨more, v', ts', hend, hlen', hdone⟩ := hspawned.finish_all
    refine ⟨more, ⟨v', ts'⟩, hend, hlen'.trans hjobs, fun th hth => ?_⟩
    obtain ⟨r, hr⟩ := hdone th hth
    rw [hr, returned h hs hend hstuck hth hr]

/-! ### Over a dump -/

theorem delivered_of_ends {d : Dump} {cacheDir : ℕ → Option Bytes} {id jobs : ℕ} {v : Verify}
    (h : Fixed outcome t m d.block I) (hv : Ends d cacheDir id jobs t m v)
    (hstore : ∀ s p s', (d.table id).run (Store.new d cacheDir) = (.ok t, s) →
      (d.parsed id).run s = (.ok p, s') → I s') : delivered v = total outcome t m := by
  obtain ⟨s₁, p, s₂, htable, hparsed, -, pool, hreach, hjobs, hdone, rfl⟩ := hv
  obtain ⟨hist, hrun⟩ := hreach.runs
  refine delivered_of_finished h (hstore s₁ p s₂ htable hparsed) hrun (fun hnil => ?_) hdone
  rw [hnil, List.length_nil] at hjobs
  omega

end Finished

section TwoFiles

def twoFiles : Manifest :=
  ⟨4, 0, 0, 0, 0, [⟨0, 2, NO_FILE, 0, NO_NODE, 0, 1⟩, ⟨1, 4, 7, 0, 0, 2, 0⟩, ⟨3, 4, 9, 0, 0, 0, 0⟩],
    [0, 97, 0, 98, 0], [0, 1, 1], [1, 2]⟩

def twoFilesLoc : FileLoc := ⟨0, some 0, ⟨7, .plain, 0, 4, [⟨2, 0⟩, ⟨2, 0⟩]⟩, [0, 2]⟩

def secondFails (_ : FileLoc) (i : ℕ) : Except ReadError Bytes :=
  if i = 1 then .error (.checksum 7 1 0 1) else .ok [1, 2]

def emptyStore : Store := ⟨[], [], .new 0, .new 0, fun _ => none, fun _ => none⟩

theorem twoFiles_like_alone :
    LikeAlone (fun loc i => Call.lift (answer (secondFails loc i))) (.root [(7, twoFilesLoc)])
      twoFiles emptyStore 3 := by
  have hparse : Manifest.parse (Manifest.plainImage twoFiles.nodes twoFiles.stringTable).encode =
      .ok twoFiles := by decide +kernel
  have hfixed : Fixed secondFails (.root [(7, twoFilesLoc)]) twoFiles
      (fun loc i => Call.lift (answer (secondFails loc i))) fun _ => True :=
    fun _ _ _ _ _ _ => Call.answers_lift _
  exact workers_like_alone hparse hfixed trivial 3

end TwoFiles
end Verify
end Steam2Fs
