import Steam2Fs.Lib.Lru
import Steam2Fs.Lib.Machine

/-!
# Remote file handles

`SftpBackend::handle` and the reads that use what it returns, as a machine
whose labels pick the call that goes next. A call looks its path up in the
cache, or opens the file, pushes the new handle into the cache and closes what
the push threw out; then it sends any number of reads. The cache lock is held
for the lookup and for the push only. The handles a server gives out are
numbered, and `requests` is what it has been asked on them, the last request
first.

`Life` follows a handle from one place to the next: the call that opened it,
the cache, the call that closes it. A handle whose cache entry is overwritten
by another handle of the same path is lost.
-/

namespace Steam2Fs.Sftp
open Function (update)

def HANDLE_CACHE : ℕ := 64

inductive Request where
  | read (h : ℕ)
  | close (h : ℕ)
  deriving DecidableEq, Repr

inductive Pc (κ : Type) where
  | idle
  | opening (path : κ)
  | opened (path : κ) (h : ℕ)
  /-- The push threw `old` out, and it has not been closed. -/
  | closing (path : κ) (h old : ℕ)
  | reading (path : κ) (h : ℕ)
  deriving DecidableEq, Repr

structure State (τ κ : Type) where
  cache : List (κ × ℕ)
  fresh : ℕ
  requests : List Request
  pc : τ → Pc κ

inductive Action (τ κ : Type) where
  | lookup (t : τ) (path : κ)
  | opened (t : τ)
  | refused (t : τ)
  | push (t : τ)
  | close (t : τ)
  | read (t : τ)
  | finish (t : τ)

section Step
variable {τ κ : Type} [DecidableEq τ] [DecidableEq κ]

def State.new : State τ κ := ⟨[], 0, [], fun _ => .idle⟩

def evicted (path : κ) (out : Option (κ × ℕ)) : Option ℕ :=
  (out.filter fun e => e.1 ≠ path).map Prod.snd

def step (s : State τ κ) : Action τ κ → Option (State τ κ)
  | .lookup t path => match s.pc t with
    | .idle => match Lru.get path s.cache with
      | some h => some { s with
          cache := Lru.touch path s.cache
          pc := update s.pc t (.reading path h) }
      | none => some { s with pc := update s.pc t (.opening path) }
    | _ => none
  | .opened t => match s.pc t with
    | .opening path => some { s with
        fresh := s.fresh + 1
        pc := update s.pc t (.opened path s.fresh) }
    | _ => none
  | .refused t => match s.pc t with
    | .opening _ => some { s with pc := update s.pc t .idle }
    | _ => none
  | .push t => match s.pc t with
    | .opened path h =>
      let r := Lru.push HANDLE_CACHE path h s.cache
      match evicted path r.1 with
      | some old => some { s with
          cache := r.2
          pc := update s.pc t (.closing path h old) }
      | none => some { s with
          cache := r.2
          pc := update s.pc t (.reading path h) }
    | _ => none
  | .close t => match s.pc t with
    | .closing path h old => some { s with
        requests := .close old :: s.requests
        pc := update s.pc t (.reading path h) }
    | _ => none
  | .read t => match s.pc t with
    | .reading _ h => some { s with requests := .read h :: s.requests }
    | _ => none
  | .finish t => match s.pc t with
    | .reading _ _ => some { s with pc := update s.pc t .idle }
    | _ => none

inductive Life (τ : Type) where
  | unopened
  | pushing (t : τ)
  | cached
  | closing (t : τ)
  | closed
  | lost
  deriving DecidableEq, Repr

/-- What a step can be, with its guard, and what becomes of the handles. -/
inductive Step (s : State τ κ) (life : ℕ → Life τ) :
    Action τ κ → State τ κ → (ℕ → Life τ) → Prop
  | hit {t : τ} {path : κ} {h : ℕ} (ht : s.pc t = .idle) (hget : Lru.get path s.cache = some h) :
      Step s life (.lookup t path) { s with
        cache := Lru.touch path s.cache
        pc := update s.pc t (.reading path h) } life
  | miss {t : τ} {path : κ} (ht : s.pc t = .idle) (hget : Lru.get path s.cache = none) :
      Step s life (.lookup t path) { s with pc := update s.pc t (.opening path) } life
  | opened {t : τ} {path : κ} (ht : s.pc t = .opening path) :
      Step s life (.opened t) { s with
        fresh := s.fresh + 1
        pc := update s.pc t (.opened path s.fresh) } (update life s.fresh (.pushing t))
  | refused {t : τ} {path : κ} (ht : s.pc t = .opening path) :
      Step s life (.refused t) { s with pc := update s.pc t .idle } life
  | replace {t : τ} {path : κ} {h old : ℕ} (ht : s.pc t = .opened path h)
      (hget : Lru.get path s.cache = some old) :
      Step s life (.push t) { s with
        cache := (path, h) :: s.cache.filter fun e => e.1 ≠ path
        pc := update s.pc t (.reading path h) } (update (update life h .cached) old .lost)
  | grow {t : τ} {path : κ} {h : ℕ} (ht : s.pc t = .opened path h)
      (hget : Lru.get path s.cache = none) (hroom : s.cache.length < HANDLE_CACHE) :
      Step s life (.push t) { s with
        cache := (path, h) :: s.cache
        pc := update s.pc t (.reading path h) } (update life h .cached)
  | evict {t : τ} {path : κ} {h : ℕ} {rest : List (κ × ℕ)} {last : κ × ℕ}
      (ht : s.pc t = .opened path h) (hget : Lru.get path s.cache = none)
      (hlast : s.cache = rest ++ [last]) :
      Step s life (.push t) { s with
        cache := (path, h) :: rest
        pc := update s.pc t (.closing path h last.2) }
        (update (update life h .cached) last.2 (.closing t))
  | close {t : τ} {path : κ} {h old : ℕ} (ht : s.pc t = .closing path h old) :
      Step s life (.close t) { s with
        requests := .close old :: s.requests
        pc := update s.pc t (.reading path h) } (update life old .closed)
  | read {t : τ} {path : κ} {h : ℕ} (ht : s.pc t = .reading path h) :
      Step s life (.read t) { s with requests := .read h :: s.requests } life
  | finish {t : τ} {path : κ} {h : ℕ} (ht : s.pc t = .reading path h) :
      Step s life (.finish t) { s with pc := update s.pc t .idle } life

theorem push_cases {s s' : State τ κ} {t : τ} {path : κ} {h : ℕ} (ht : s.pc t = .opened path h)
    (hs : step s (.push t) = some s') (life : ℕ → Life τ) :
    ∃ life', Step s life (.push t) s' life' := by
  simp only [step, ht, Lru.push] at hs
  cases hget : Lru.get path s.cache with
  | some old =>
    rw [hget] at hs
    have hnone : evicted path (some (path, old)) = none := by simp [evicted, Option.filter]
    simp only [hnone, Option.some.injEq] at hs
    rw [← hs]
    exact ⟨_, .replace ht hget⟩
  | none =>
    rw [hget] at hs
    by_cases hroom : s.cache.length < HANDLE_CACHE
    · simp only [if_pos hroom, evicted, Option.filter, Option.map_none, Option.some.injEq] at hs
      rw [← hs]
      exact ⟨_, .grow ht hget hroom⟩
    · rcases List.eq_nil_or_concat s.cache with hnil | ⟨rest, last, hlast⟩
      · rw [hnil, HANDLE_CACHE] at hroom
        exact absurd (Nat.zero_lt_succ 63) hroom
      · have hne : last.1 ≠ path := Lru.ne_of_get_none hget (by rw [hlast]; simp)
        have hout : evicted path (some last) = some last.2 := by
          simp [evicted, Option.filter, hne]
        have hgetLast : s.cache.getLast? = some last := by rw [hlast]; simp
        have hdrop : s.cache.dropLast = rest := by rw [hlast]; simp
        simp only [if_neg hroom, hgetLast, hdrop, hout, Option.some.injEq] at hs
        rw [← hs]
        exact ⟨_, .evict ht hget (by simpa using hlast)⟩

theorem step_cases {s s' : State τ κ} {a : Action τ κ} (h : step s a = some s')
    (life : ℕ → Life τ) : ∃ life', Step s life a s' life' := by
  cases a with
  | lookup t path =>
    simp only [step] at h
    split at h
    · next ht =>
      split at h
      · next hget =>
        cases h
        exact ⟨_, .hit ht hget⟩
      · next hget =>
        cases h
        exact ⟨_, .miss ht hget⟩
    · cases h
  | push t =>
    cases ht : s.pc t with
    | opened path g => exact push_cases ht h life
    | _ => simp [step, ht] at h
  | opened t =>
    simp only [step] at h
    split at h
    · next ht =>
      cases h
      exact ⟨_, .opened ht⟩
    · cases h
  | refused t =>
    simp only [step] at h
    split at h
    · next ht =>
      cases h
      exact ⟨_, .refused ht⟩
    · cases h
  | close t =>
    simp only [step] at h
    split at h
    · next ht =>
      cases h
      exact ⟨_, .close ht⟩
    · cases h
  | read t =>
    simp only [step] at h
    split at h
    · next ht =>
      cases h
      exact ⟨_, .read ht⟩
    · cases h
  | finish t =>
    simp only [step] at h
    split at h
    · next ht =>
      cases h
      exact ⟨_, .finish ht⟩
    · cases h

end Step

/-! ### One place for each handle -/

section Ledger
variable {τ κ : Type} {life : ℕ → Life τ} {t : τ} {x y : Life τ} {g h : ℕ}

/-- What a call says about the handles it has to pass on. -/
def Stage (life : ℕ → Life τ) (t : τ) : Pc κ → Prop
  | .opened _ h => life h = .pushing t
  | .closing _ _ old => life old = .closing t
  | _ => True

theorem life_update (hg : life g = x) (hne : life h ≠ x) : update life h y g = x := by
  have hgh : g ≠ h := by
    intro hgh
    rw [hgh] at hg
    exact hne hg
  rw [Function.update_of_ne hgh, hg]

theorem Stage.update {p : Pc κ} (hstage : Stage life t p) (hpushing : life h ≠ .pushing t)
    (hclosing : life h ≠ .closing t) : Stage (update life h y) t p := by
  cases p with
  | opened path g => exact life_update hstage hpushing
  | closing path g old => exact life_update hstage hclosing
  | _ => trivial

/-- A handle is where its life says: in the cache, with the call that has to
push or close it, or closed. -/
structure Ledger (s : State τ κ) (life : ℕ → Life τ) : Prop where
  unopened : ∀ h, s.fresh ≤ h → life h = .unopened
  cached : ∀ e ∈ s.cache, life e.2 = .cached
  stage : ∀ t, Stage life t (s.pc t)
  closed : ∀ h, .close h ∈ s.requests → life h = .closed
  keys : (s.cache.map Prod.fst).Nodup
  handles : (s.cache.map Prod.snd).Nodup

theorem Ledger.new : Ledger (State.new : State τ κ) fun _ => .unopened where
  unopened _ _ := rfl
  cached e he := by cases he
  stage t := trivial
  closed h hh := by cases hh
  keys := List.nodup_nil
  handles := List.nodup_nil

variable {s s' : State τ κ}

theorem Ledger.mem_handle (hl : Ledger s life) {e e' : κ × ℕ} (he : e ∈ s.cache)
    (he' : e' ∈ s.cache) (heq : e.2 = e'.2) : e = e' :=
  List.inj_on_of_nodup_map hl.handles he he' heq

theorem Ledger.pushing (hl : Ledger s life) {path : κ} (ht : s.pc t = .opened path h) :
    life h = .pushing t := by
  have hstage := hl.stage t
  rw [ht] at hstage
  exact hstage

theorem Ledger.closing (hl : Ledger s life) {path : κ} {old : ℕ}
    (ht : s.pc t = .closing path h old) : life old = .closing t := by
  have hstage := hl.stage t
  rw [ht] at hstage
  exact hstage

variable [DecidableEq τ]

theorem Ledger.stage_update (hl : Ledger s life) {life' : ℕ → Life τ} {p : Pc κ}
    (hp : Stage life' t p) (hothers : ∀ t' (q : Pc κ), t' ≠ t → Stage life t' q → Stage life' t' q) :
    ∀ t', Stage life' t' (update s.pc t p t') :=
  (Function.forall_update_iff s.pc fun t' q => Stage life' t' q).mpr
    ⟨hp, fun t' htt => hothers t' (s.pc t') htt (hl.stage t')⟩

theorem Ledger.opened (hl : Ledger s life) {path : κ} :
    Ledger { s with
      fresh := s.fresh + 1
      pc := update s.pc t (.opened path s.fresh) } (update life s.fresh (.pushing t)) := by
  have hfresh : life s.fresh = .unopened := hl.unopened s.fresh le_rfl
  refine ⟨fun h hh => ?_, fun e he => ?_, ?_, fun h hh => ?_, hl.keys, hl.handles⟩
  · dsimp only at hh
    rw [Function.update_of_ne (by omega)]
    exact hl.unopened h (by omega)
  · exact life_update (hl.cached e he) (by simp [hfresh])
  · refine hl.stage_update (Function.update_self ..) fun t' q htt hq => ?_
    exact hq.update (by simp [hfresh]) (by simp [hfresh])
  · exact life_update (hl.closed h hh) (by simp [hfresh])

variable [DecidableEq κ]

theorem Ledger.hit (hl : Ledger s life) {path : κ} {h : ℕ} :
    Ledger { s with
      cache := Lru.touch path s.cache
      pc := update s.pc t (.reading path h) } life := by
  have hperm : (Lru.touch path s.cache).Perm s.cache := Lru.touch_perm hl.keys
  refine ⟨hl.unopened, fun e he => hl.cached e (hperm.mem_iff.mp he), ?_, hl.closed, ?_, ?_⟩
  · exact hl.stage_update trivial fun t' q _ hq => hq
  · exact (hperm.map Prod.fst).nodup_iff.mpr hl.keys
  · exact (hperm.map Prod.snd).nodup_iff.mpr hl.handles

theorem Ledger.replace (hl : Ledger s life) {path : κ} {h old : ℕ}
    (ht : s.pc t = .opened path h) (hget : Lru.get path s.cache = some old) :
    Ledger { s with
      cache := (path, h) :: s.cache.filter fun e => e.1 ≠ path
      pc := update s.pc t (.reading path h) } (update (update life h .cached) old .lost) := by
  have hpushing : life h = .pushing t := hl.pushing ht
  have hmem := Lru.mem_of_get hget
  have hcached : life old = .cached := hl.cached (path, old) hmem
  have hne : h ≠ old := by
    intro heq
    rw [heq, hcached] at hpushing
    cases hpushing
  have hold : update life h .cached old = .cached := life_update hcached (by simp [hpushing])
  have hkept (e : κ × ℕ) (he : e ∈ s.cache.filter fun e => e.1 ≠ path) :
      e ∈ s.cache ∧ e.1 ≠ path := by simpa using he
  refine ⟨fun g hg => ?_, fun e he => ?_, ?_, fun g hg => ?_, ?_, ?_⟩
  · exact life_update (life_update (hl.unopened g hg) (by simp [hpushing])) (by simp [hold])
  · rcases List.mem_cons.mp he with rfl | he
    · dsimp only
      rw [Function.update_of_ne hne, Function.update_self]
    · obtain ⟨he, hkey⟩ := hkept e he
      have hother : e.2 ≠ old := by
        intro heq
        exact hkey (congrArg Prod.fst (hl.mem_handle he hmem heq))
      rw [Function.update_of_ne hother]
      exact life_update (hl.cached e he) (by simp [hpushing])
  · refine hl.stage_update trivial fun t' q htt hq => ?_
    refine (hq.update ?_ (by simp [hpushing])).update (by simp [hold]) (by simp [hold])
    simp [hpushing, htt.symm]
  · exact life_update (life_update (hl.closed g hg) (by simp [hpushing])) (by simp [hold])
  · rw [List.map_cons, List.nodup_cons]
    refine ⟨fun hpath => ?_, hl.keys.sublist (List.filter_sublist.map _)⟩
    obtain ⟨e, he, hkey⟩ := List.mem_map.mp hpath
    exact (hkept e he).2 hkey
  · rw [List.map_cons, List.nodup_cons]
    refine ⟨fun hhandle => ?_, hl.handles.sublist (List.filter_sublist.map _)⟩
    obtain ⟨e, he, hh⟩ := List.mem_map.mp hhandle
    have hc := hl.cached e (hkept e he).1
    rw [hh, hpushing] at hc
    cases hc

theorem Ledger.grow (hl : Ledger s life) {path : κ} {h : ℕ} (ht : s.pc t = .opened path h)
    (hget : Lru.get path s.cache = none) :
    Ledger { s with
      cache := (path, h) :: s.cache
      pc := update s.pc t (.reading path h) } (update life h .cached) := by
  have hpushing : life h = .pushing t := hl.pushing ht
  refine ⟨fun g hg => ?_, fun e he => ?_, ?_, fun g hg => ?_, ?_, ?_⟩
  · exact life_update (hl.unopened g hg) (by simp [hpushing])
  · rcases List.mem_cons.mp he with rfl | he
    · exact Function.update_self ..
    · exact life_update (hl.cached e he) (by simp [hpushing])
  · refine hl.stage_update trivial fun t' q htt hq => ?_
    exact hq.update (by simp [hpushing, htt.symm]) (by simp [hpushing])
  · exact life_update (hl.closed g hg) (by simp [hpushing])
  · rw [List.map_cons, List.nodup_cons]
    refine ⟨fun hpath => ?_, hl.keys⟩
    obtain ⟨e, he, hkey⟩ := List.mem_map.mp hpath
    exact Lru.ne_of_get_none hget he hkey
  · rw [List.map_cons, List.nodup_cons]
    refine ⟨fun hhandle => ?_, hl.handles⟩
    obtain ⟨e, he, hh⟩ := List.mem_map.mp hhandle
    have hc := hl.cached e he
    rw [hh, hpushing] at hc
    cases hc

theorem Ledger.evict (hl : Ledger s life) {path : κ} {h : ℕ} {rest : List (κ × ℕ)}
    {last : κ × ℕ} (ht : s.pc t = .opened path h) (hget : Lru.get path s.cache = none)
    (hlast : s.cache = rest ++ [last]) :
    Ledger { s with
      cache := (path, h) :: rest
      pc := update s.pc t (.closing path h last.2) }
      (update (update life h .cached) last.2 (.closing t)) := by
  have hgrow := hl.grow ht hget
  have hsub : ((path, h) :: rest).Sublist ((path, h) :: s.cache) := by
    rw [hlast]
    exact (List.sublist_append_left rest [last]).cons_cons (path, h)
  have hmem : last ∈ (path, h) :: s.cache := by
    rw [hlast]
    simp
  have hcached : update life h .cached last.2 = .cached := hgrow.cached last hmem
  refine ⟨fun g hg => ?_, fun e he => ?_, ?_, fun g hg => ?_, ?_, ?_⟩
  · exact life_update (hgrow.unopened g hg) (by simp [hcached])
  · have hne : e.2 ≠ last.2 := by
      intro heq
      have hhandles := hgrow.handles
      rw [hlast, ← List.cons_append, List.map_append, List.nodup_append] at hhandles
      exact hhandles.2.2 e.2 (List.mem_map_of_mem he) last.2 (by simp) heq
    rw [Function.update_of_ne hne]
    exact hgrow.cached e (hsub.mem he)
  · have hothers (t' : τ) (q : Pc κ) (htt : t' ≠ t) (hq : Stage life t' q) :
        Stage (update life h .cached) t' q := by
      have hpushing : life h = .pushing t := hl.pushing ht
      exact hq.update (by simp [hpushing, htt.symm]) (by simp [hpushing])
    refine hl.stage_update (Function.update_self ..) fun t' q htt hq => ?_
    exact (hothers t' q htt hq).update (by simp [hcached]) (by simp [hcached])
  · exact life_update (hgrow.closed g hg) (by simp [hcached])
  · exact hgrow.keys.sublist (hsub.map _)
  · exact hgrow.handles.sublist (hsub.map _)

omit [DecidableEq κ] in
theorem Ledger.close (hl : Ledger s life) {path : κ} {h old : ℕ}
    (ht : s.pc t = .closing path h old) :
    Ledger { s with
      requests := .close old :: s.requests
      pc := update s.pc t (.reading path h) } (update life old .closed) := by
  have hclosing : life old = .closing t := hl.closing ht
  refine ⟨fun g hg => ?_, fun e he => ?_, ?_, fun g hg => ?_, hl.keys, hl.handles⟩
  · exact life_update (hl.unopened g hg) (by simp [hclosing])
  · exact life_update (hl.cached e he) (by simp [hclosing])
  · refine hl.stage_update trivial fun t' q htt hq => ?_
    exact hq.update (by simp [hclosing]) (by simp [hclosing, htt.symm])
  · rcases List.mem_cons.mp hg with hg | hg
    · cases hg
      exact Function.update_self ..
    · exact life_update (hl.closed g hg) (by simp [hclosing])

theorem Step.ledger {a : Action τ κ} {life' : ℕ → Life τ} (hstep : Step s life a s' life')
    (hl : Ledger s life) : Ledger s' life' := by
  cases hstep with
  | hit => exact hl.hit
  | miss ht =>
    exact ⟨hl.unopened, hl.cached, hl.stage_update trivial fun _ _ _ hq => hq, hl.closed, hl.keys,
      hl.handles⟩
  | opened ht => exact hl.opened
  | refused ht =>
    exact ⟨hl.unopened, hl.cached, hl.stage_update trivial fun _ _ _ hq => hq, hl.closed, hl.keys,
      hl.handles⟩
  | replace ht hget => exact hl.replace ht hget
  | grow ht hget => exact hl.grow ht hget
  | evict ht hget hlast => exact hl.evict ht hget hlast
  | close ht => exact hl.close ht
  | read ht =>
    refine ⟨hl.unopened, hl.cached, hl.stage, fun g hg => ?_, hl.keys, hl.handles⟩
    rcases List.mem_cons.mp hg with hg | hg
    · cases hg
    · exact hl.closed g hg
  | finish ht =>
    exact ⟨hl.unopened, hl.cached, hl.stage_update trivial fun _ _ _ hq => hq, hl.closed, hl.keys,
      hl.handles⟩

end Ledger
end Steam2Fs.Sftp
