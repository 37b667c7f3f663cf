import Steam2Fs.SingleFlight

/-!
# Runs of `dedupe`

Whoever is inside a closure for a key has that key's part of the shared state
to itself, so a closure that works when it runs alone works under `dedupe`.
For one that looks in the cache again before it fetches, this leaves at most
one fetch that succeeds for each key.

The map check asks for exactly two references. A thread that has made its
check still holds one until it returns, and a thread that checks in between
leaves the slot behind.
-/

namespace Steam2Fs.SingleFlight
open Function (update)
open Machine (Reaches)

section Invariant
variable {τ κ σ α : Type} [DecidableEq τ] [DecidableEq κ] {shared : σ} {s : State τ κ σ α}

theorem reaches_invariant {ok : State τ κ σ α → Action τ κ σ α → Prop}
    (h : Reaches step ok (.new shared) s) : Books s ∧ Locks s := by
  refine h.keeps (I := fun s => Books s ∧ Locks s) ⟨.new shared, .new shared⟩ ?_
  intro s a s' _ hstep hinv
  have hcase := step_cases hstep
  exact ⟨hcase.books hinv.1, hcase.locks hinv.1 hinv.2⟩

omit [DecidableEq τ] [DecidableEq κ] in
theorem inside_unique (hbooks : Books s) (hlocks : Locks s) {t t' : τ} {k : κ} {n n' : ℕ}
    {f f' : Proc σ α} (ht : s.pc t = .inside k n f) (ht' : s.pc t' = .inside k n' f') :
    t = t' := by
  have hn := hbooks.claimed t k n (by rw [ht]; rfl)
  have hn' := hbooks.claimed t' k n' (by rw [ht']; rfl)
  rw [hn, Option.some.injEq] at hn'
  subst hn'
  exact hlocks.alone t t' n (by rw [ht]; rfl) (by rw [ht']; rfl)

end Invariant

/-! ### Closures that own what they work on -/

section Owns
variable {τ κ σ α ω : Type} {view : κ → σ → ω} {A J : κ → ω → Prop}
  {calls : κ → Proc σ α → Prop}

def Calls (calls : κ → Proc σ α → Prop) (_ : State τ κ σ α) : Action τ κ σ α → Prop
  | .acquire _ k f => calls k f
  | _ => True

/-- Nothing but the part of the state that belongs to `k` changes. -/
def Elsewhere (view : κ → σ → ω) (k : κ) (x x' : σ) : Prop := ∀ k' ≠ k, view k' x' = view k' x

structure Owns (view : κ → σ → ω) (A J : κ → ω → Prop) (calls : κ → Proc σ α → Prop)
    (s : State τ κ σ α) : Prop where
  waiting : ∀ t k n f, s.pc t = .waiting k n f → calls k f
  inside : ∀ t k n f, s.pc t = .inside k n f →
    f.Alone (view k) (A k) (J k) (view k s.shared) ∧ f.Within (Elsewhere view k)
  free : ∀ k, (∀ t n f, s.pc t ≠ .inside k n f) → J k (view k s.shared)

theorem Owns.always (h : Owns view A J calls (s : State τ κ σ α)) (hA : ∀ k w, J k w → A k w)
    (k : κ) : A k (view k s.shared) := by
  by_cases hin : ∃ t n f, s.pc t = .inside k n f
  · obtain ⟨t, n, f, ht⟩ := hin
    exact (h.inside t k n f ht).1.now
  · apply hA
    apply h.free
    intro t n f ht
    exact hin ⟨t, n, f, ht⟩

theorem Owns.new {shared : σ} (hJ : ∀ k, J k (view k shared)) :
    Owns view A J calls (State.new shared : State τ κ σ α) where
  waiting t k n f h := by cases h
  inside t k n f h := by cases h
  free k _ := hJ k

variable [DecidableEq τ] {s s' : State τ κ σ α} {t : τ} {p : Pc κ σ α}

theorem Owns.waiting_update (h : Owns view A J calls s)
    (hp : ∀ k n f, p = .waiting k n f → calls k f) :
    ∀ t' k n f, update s.pc t p t' = .waiting k n f → calls k f := by
  refine (Function.forall_update_iff s.pc
    fun _ q => ∀ k n f, q = .waiting k n f → calls k f).mpr ?_
  exact ⟨hp, fun t' _ => h.waiting t'⟩

theorem Owns.move (h : Owns view A J calls s) (hin : ∀ k n f, s.pc t ≠ .inside k n f)
    (hp : ∀ k n f, p ≠ .inside k n f) (hcalls : ∀ k n f, p = .waiting k n f → calls k f)
    (hpc : s'.pc = update s.pc t p) (hshared : s'.shared = s.shared) :
    Owns view A J calls s' where
  waiting := by
    rw [hpc]
    exact h.waiting_update hcalls
  inside := by
    rw [hpc, hshared]
    refine (Function.forall_update_iff s.pc fun _ q => ∀ k n f, q = .inside k n f →
      f.Alone (view k) (A k) (J k) (view k s.shared) ∧ f.Within (Elsewhere view k)).mpr ?_
    exact ⟨fun k n f hf => absurd hf (hp k n f), fun t' _ => h.inside t'⟩
  free k hk := by
    rw [hshared]
    refine h.free k fun t' n f ht' => ?_
    by_cases htt : t' = t
    · exact hin k n f (htt ▸ ht')
    · apply hk t' n f
      rw [hpc, Function.update_of_ne htt]
      exact ht'

theorem Owns.lock (h : Owns view A J calls s) (hbooks : Books s) (hlocks : Locks s)
    (hsound : ∀ k f, calls k f →
      (∀ w, J k w → f.Alone (view k) (A k) (J k) w) ∧ f.Within (Elsewhere view k))
    {k : κ} {n : ℕ} {f : Proc σ α} (ht : s.pc t = .waiting k n f) (hfree : s.locked n = false) :
    Owns view A J calls { s with
      locked := update s.locked n true
      pc := update s.pc t (.inside k n f) } where
  waiting := h.waiting_update (by simp)
  inside := by
    have hJ : J k (view k s.shared) := by
      refine h.free k fun t' m g ht' => ?_
      have hn := hbooks.claimed t k n (by rw [ht]; rfl)
      have hm := hbooks.claimed t' k m (by rw [ht']; rfl)
      rw [hn, Option.some.injEq] at hm
      have hlocked := hlocks.locked t' m (by rw [ht']; rfl)
      rw [← hm, hfree] at hlocked
      cases hlocked
    obtain ⟨halone, hwithin⟩ := hsound k f (h.waiting t k n f ht)
    refine (Function.forall_update_iff s.pc fun _ q => ∀ k n f, q = .inside k n f →
      f.Alone (view k) (A k) (J k) (view k s.shared) ∧ f.Within (Elsewhere view k)).mpr ?_
    refine ⟨fun k' m g hg => ?_, fun t' _ => h.inside t'⟩
    cases hg
    exact ⟨halone _ hJ, hwithin⟩
  free k' hk' := by
    refine h.free k' fun t' m g ht' => ?_
    by_cases htt : t' = t
    · rw [htt, ht] at ht'
      cases ht'
    · apply hk' t' m g
      dsimp only
      rw [Function.update_of_ne htt]
      exact ht'

theorem Owns.work (h : Owns view A J calls s) (hbooks : Books s) (hlocks : Locks s)
    {k : κ} {n : ℕ} {f : σ → σ} {next : σ → Proc σ α} (ht : s.pc t = .inside k n (.act f next)) :
    Owns view A J calls { s with
      shared := f s.shared
      pc := update s.pc t (.inside k n (next s.shared)) } where
  waiting := h.waiting_update (by simp)
  inside := by
    obtain ⟨halone, hwithin⟩ := h.inside t k n _ ht
    refine (Function.forall_update_iff s.pc fun _ q => ∀ k n g, q = .inside k n g →
      g.Alone (view k) (A k) (J k) (view k (f s.shared)) ∧ g.Within (Elsewhere view k)).mpr ?_
    refine ⟨fun k' m g hg => ?_, fun t' htt k' m g ht' => ?_⟩
    · cases hg
      exact ⟨halone.2 s.shared rfl, (hwithin s.shared).2⟩
    · have hkk : k' ≠ k := by
        intro hkk
        subst hkk
        exact htt (inside_unique hbooks hlocks ht' ht)
      rw [(hwithin s.shared).1 k' hkk]
      exact h.inside t' k' m g ht'
  free k' hk' := by
    have hkk : k' ≠ k := by
      intro hkk
      apply hk' t n (next s.shared)
      rw [hkk]
      exact Function.update_self ..
    have hview := ((h.inside t k n _ ht).2 s.shared).1 k' hkk
    dsimp only
    rw [hview]
    refine h.free k' fun t' m g ht' => ?_
    by_cases htt : t' = t
    · rw [htt, ht] at ht'
      cases ht'
      exact hkk rfl
    · apply hk' t' m g
      dsimp only
      rw [Function.update_of_ne htt]
      exact ht'

theorem Owns.unlock (h : Owns view A J calls s) {k : κ} {n : ℕ} {out : α}
    (ht : s.pc t = .inside k n (.done out)) :
    Owns view A J calls { s with
      locked := update s.locked n false
      pc := update s.pc t (.unlocked k n out) } where
  waiting := h.waiting_update (by simp)
  inside := by
    refine (Function.forall_update_iff s.pc fun _ q => ∀ k n f, q = .inside k n f →
      f.Alone (view k) (A k) (J k) (view k s.shared) ∧ f.Within (Elsewhere view k)).mpr ?_
    exact ⟨by simp, fun t' _ => h.inside t'⟩
  free k' hk' := by
    by_cases hkk : k' = k
    · subst hkk
      exact (h.inside t k' n _ ht).1.2
    · refine h.free k' fun t' m g ht' => ?_
      by_cases htt : t' = t
      · rw [htt, ht] at ht'
        cases ht'
        exact hkk rfl
      · apply hk' t' m g
        dsimp only
        rw [Function.update_of_ne htt]
        exact ht'

variable [DecidableEq κ]

theorem Step.owns {a : Action τ κ σ α} (hstep : Step s a s') (hok : Calls calls s a)
    (hsound : ∀ k f, calls k f →
      (∀ w, J k w → f.Alone (view k) (A k) (J k) w) ∧ f.Within (Elsewhere view k))
    (hbooks : Books s) (hlocks : Locks s) (h : Owns view A J calls s) :
    Owns view A J calls s' := by
  cases hstep with
  | @acquire t k f ht =>
    have hin : ∀ k n f, s.pc t ≠ .inside k n f := by
      rcases ht with ht | ⟨out, ht⟩
      · simp [ht]
      · simp [ht]
    have hwait (n : ℕ) : ∀ k' n' f', Pc.waiting k n f = .waiting k' n' f' → calls k' f' := by
      intro k' n' f' heq
      cases heq
      exact hok
    unfold State.acquire
    split
    · exact h.move hin (by simp) (hwait _) rfl rfl
    · exact h.move hin (by simp) (hwait _) rfl rfl
  | lock ht hfree => exact h.lock hbooks hlocks hsound ht hfree
  | work ht => exact h.work hbooks hlocks ht
  | unlock ht => exact h.unlock ht
  | @check t k n out ht =>
    have hin : ∀ k n f, s.pc t ≠ .inside k n f := by simp [ht]
    unfold State.check
    split
    · split_ifs
      · exact h.move hin (by simp) (by simp) rfl rfl
      · exact h.move hin (by simp) (by simp) rfl rfl
    · exact h.move hin (by simp) (by simp) rfl rfl
  | drop ht => exact h.move (by simp [ht]) (by simp) (by simp) rfl rfl

/-- The rule for closures: what holds at every moment when the closures for a
key run one after the other holds under `dedupe`. -/
theorem reaches_always (hA : ∀ k w, J k w → A k w)
    (hsound : ∀ k f, calls k f →
      (∀ w, J k w → f.Alone (view k) (A k) (J k) w) ∧ f.Within (Elsewhere view k))
    {shared : σ} (hJ : ∀ k, J k (view k shared))
    (h : Reaches step (Calls calls) (.new shared) s) (k : κ) : A k (view k s.shared) := by
  have hinv : (Books s ∧ Locks s) ∧ Owns view A J calls s := by
    refine h.keeps (I := fun s => (Books s ∧ Locks s) ∧ Owns view A J calls s)
      ⟨⟨.new shared, .new shared⟩, .new hJ⟩ ?_
    intro s a s' hok hstep hinv
    obtain ⟨⟨hbooks, hlocks⟩, howns⟩ := hinv
    have hcase := step_cases hstep
    exact ⟨⟨hcase.books hbooks, hcase.locks hbooks hlocks⟩,
      hcase.owns hok hsound hbooks hlocks howns⟩
  exact hinv.2.always hA k

end Owns

/-! ### Fetching what is not in the cache -/

section Fetch
variable {τ κ ν : Type}

/-- A cache that evicts nothing, and the fetches made so far: how many there
were, and how many of them succeeded for each key. -/
structure Fetched (κ ν : Type) where
  cache : κ → Option ν
  attempts : ℕ
  succeeded : κ → ℕ

def Fetched.start (cache : κ → Option ν) : Fetched κ ν := ⟨cache, 0, fun _ => 0⟩

variable [DecidableEq κ]

def Fetched.insert (s : Fetched κ ν) (k : κ) (v : ν) : Fetched κ ν :=
  { s with cache := update s.cache k (some v) }

def Fetched.attempt (fetch : κ → ℕ → Option ν) (k : κ) (s : Fetched κ ν) : Fetched κ ν :=
  match fetch k s.attempts with
  | none => { s with attempts := s.attempts + 1 }
  | some _ => { s with
      attempts := s.attempts + 1
      succeeded := update s.succeeded k (s.succeeded k + 1) }

/-- `fetch_window`, for any key: what is in the cache by now is returned, and
what a fetch brings is stored before it is returned. -/
def fetchWindow (fetch : κ → ℕ → Option ν) (k : κ) : Proc (Fetched κ ν) (Option ν) :=
  .act id fun s => match s.cache k with
    | some v => .done (some v)
    | none => .act (Fetched.attempt fetch k) fun s => match fetch k s.attempts with
      | none => .done none
      | some v => .act (fun s => s.insert k v) fun _ => .done (some v)

def entryView (k : κ) (s : Fetched κ ν) : Option ν × ℕ := (s.cache k, s.succeeded k)

def FetchedOnce (_ : κ) (w : Option ν × ℕ) : Prop := w.2 ≤ 1

/-- Between two closures, a key that is not in the cache was never fetched. -/
def Settled (_ : κ) (w : Option ν × ℕ) : Prop := w.2 ≤ 1 ∧ (w.1 = none → w.2 = 0)

theorem entryView_attempt {fetch : κ → ℕ → Option ν} {k : κ} (s : Fetched κ ν) :
    entryView k (s.attempt fetch k) =
      (s.cache k, if (fetch k s.attempts).isSome then s.succeeded k + 1 else s.succeeded k) := by
  unfold Fetched.attempt entryView
  cases fetch k s.attempts with
  | none => rfl
  | some v => simp

theorem fetchWindow_alone (fetch : κ → ℕ → Option ν) (k : κ) {w : Option ν × ℕ}
    (hw : Settled k w) :
    (fetchWindow fetch k).Alone (entryView k) (FetchedOnce k) (Settled k) w := by
  refine ⟨hw.1, fun s hs => ?_⟩
  subst hs
  dsimp only [id]
  cases hc : s.cache k with
  | some v => exact ⟨hw.1, hw⟩
  | none =>
    have hzero : s.succeeded k = 0 := hw.2 hc
    have hview : entryView k s = (none, 0) := by rw [entryView, hc, hzero]
    refine ⟨hw.1, fun s' hs' => ?_⟩
    rw [hview] at hs'
    obtain ⟨hc', hzero'⟩ := Prod.mk.inj hs'
    rw [entryView_attempt, hc', hzero']
    dsimp only
    cases hf : fetch k s'.attempts with
    | none => exact ⟨Nat.zero_le 1, Nat.zero_le 1, fun _ => rfl⟩
    | some v =>
      refine ⟨le_refl 1, fun s'' hs'' => ?_⟩
      obtain ⟨-, hone⟩ := Prod.mk.inj hs''
      have hstored : entryView k (s''.insert k v) = (some v, 1) := by
        simp [entryView, Fetched.insert, hone]
      rw [hstored]
      exact ⟨le_refl 1, le_refl 1, fun hnone => by cases hnone⟩

theorem fetchWindow_within (fetch : κ → ℕ → Option ν) (k : κ) :
    (fetchWindow fetch k).Within (Elsewhere entryView k) := by
  intro s
  refine ⟨fun k' _ => rfl, ?_⟩
  dsimp only
  cases s.cache k with
  | some v => trivial
  | none =>
    intro s'
    refine ⟨fun k' hk' => ?_, ?_⟩
    · unfold Fetched.attempt entryView
      cases fetch k s'.attempts with
      | none => rfl
      | some v => simp [Function.update_of_ne hk']
    · dsimp only
      cases fetch k s'.attempts with
      | none => trivial
      | some v =>
        intro s''
        refine ⟨fun k' hk' => ?_, trivial⟩
        simp [entryView, Fetched.insert, Function.update_of_ne hk']

theorem reaches_fetchedOnce [DecidableEq τ] {fetch : κ → ℕ → Option ν} {cache : κ → Option ν}
    {s : State τ κ (Fetched κ ν) (Option ν)}
    (h : Reaches step (Calls fun k f => f = fetchWindow fetch k) (.new (.start cache)) s) (k : κ) :
    s.shared.succeeded k ≤ 1 := by
  have hstart (k : κ) : Settled k (entryView k (Fetched.start cache)) :=
    ⟨Nat.zero_le 1, fun _ => rfl⟩
  have hsound (k : κ) (f : Proc (Fetched κ ν) (Option ν)) (hf : f = fetchWindow fetch k) :
      (∀ w, Settled k w → f.Alone (entryView k) (FetchedOnce k) (Settled k) w) ∧
        f.Within (Elsewhere entryView k) := by
    rw [hf]
    exact ⟨fun w hw => fetchWindow_alone fetch k hw, fetchWindow_within fetch k⟩
  have hsettled (k : κ) (w : Option ν × ℕ) (hw : Settled k w) : FetchedOnce k w := hw.1
  exact reaches_always hsettled hsound hstart h k

end Fetch

/-- At most one thread is inside a closure for a key, a thread that has not made
its final map check holds the slot the map has for its key, and no key is
fetched twice into a cache that keeps everything. -/
theorem dedupe_serialises (τ κ : Type) [DecidableEq τ] [DecidableEq κ] :
    (∀ (σ α : Type) (shared : σ) (s : State τ κ σ α),
      Reaches step (fun _ _ => True) (.new shared) s →
        (∀ t t' k n n' f f', s.pc t = .inside k n f → s.pc t' = .inside k n' f' → t = t') ∧
          ∀ t k n, (s.pc t).claim = some (k, n) → s.inflight k = some n) ∧
    ∀ (ν : Type) (fetch : κ → ℕ → Option ν) (cache : κ → Option ν)
      (s : State τ κ (Fetched κ ν) (Option ν)),
      Reaches step (Calls fun k f => f = fetchWindow fetch k) (.new (.start cache)) s →
        ∀ k, s.shared.succeeded k ≤ 1 := by
  constructor
  · intro σ α shared s h
    obtain ⟨hbooks, hlocks⟩ := reaches_invariant h
    exact ⟨fun t t' k n n' f f' ht ht' => inside_unique hbooks hlocks ht ht', hbooks.claimed⟩
  · intro ν fetch cache s h k
    exact reaches_fetchedOnce h k

section TwoReaders

def fives (_ _ : ℕ) : Option ℕ := some 5

def twoReaders : List (Action Bool ℕ (Fetched ℕ ℕ) (Option ℕ)) :=
  [.acquire false 7 (fetchWindow fives 7), .acquire true 7 (fetchWindow fives 7), .lock false,
    .work false, .work false, .work false, .unlock false, .check false, .lock true]

theorem twoReaders_serialised :
    ∃ s, Machine.run step twoReaders (.new (.start fun _ => none)) = some s ∧
      (s.pc true).claim = some (7, 0) ∧ s.inflight 7 = some 0 ∧
      s.shared.succeeded 7 = 1 ∧ s.shared.succeeded 7 ≤ 1 := by
  obtain ⟨s, hs⟩ : ∃ s, Machine.run step twoReaders (.new (.start fun _ => none)) = some s :=
    ⟨_, rfl⟩
  have hclaim : (s.pc true).claim = some (7, 0) := by
    cases hs
    rfl
  have hone : s.shared.succeeded 7 = 1 := by
    cases hs
    rfl
  have hany : Reaches step (fun _ _ => True) (.new (.start fun _ => none)) s :=
    Reaches.start.run (fun _ _ _ => trivial) hs
  have hcalls : Reaches step (Calls fun k f => f = fetchWindow fives k)
      (.new (.start fun _ => none)) s :=
    Reaches.start.run (by simp [twoReaders, Calls]) hs
  obtain ⟨hany', hfetch⟩ := dedupe_serialises Bool ℕ
  exact ⟨s, hs, hclaim, (hany' _ _ _ s hany).2 true 7 0 hclaim, hone,
    hfetch ℕ fives (fun _ => none) s hcalls 7⟩

end TwoReaders

/-! ### Slots left behind -/

section Left
variable {τ κ σ α : Type}

def State.Quiet (s : State τ κ σ α) : Prop := ∀ t, (s.pc t).slot = none

/-- The last thread to check a slot does so when those that checked it before
have dropped their references. -/
def LastAlone (s : State τ κ σ α) : Action τ κ σ α → Prop
  | .check t => ∀ k n out, s.pc t = .unlocked k n out → (∃ t' out', s.pc t' = .checked n out') →
      ∃ t' ≠ t, ∃ k', (s.pc t').claim = some (k', n)
  | _ => True

def Attended (s : State τ κ σ α) : Prop :=
  ∀ k n, s.inflight k = some n → ∃ t, (s.pc t).claim = some (k, n)

theorem lastAlone_of_none_checked {s : State τ κ σ α} (h : ∀ t n out, s.pc t ≠ .checked n out)
    (a : Action τ κ σ α) : LastAlone s a := by
  cases a with
  | check t => exact fun k n out _ ⟨t', out', ht'⟩ => absurd ht' (h t' n out')
  | _ => trivial

theorem Pc.claim_or_checked {p : Pc κ σ α} {n : ℕ} (h : p.slot = some n) :
    (∃ k, p.claim = some (k, n)) ∨ ∃ out, p = .checked n out := by
  cases p with
  | waiting k m f => cases h; exact Or.inl ⟨k, rfl⟩
  | inside k m f => cases h; exact Or.inl ⟨k, rfl⟩
  | unlocked k m out => cases h; exact Or.inl ⟨k, rfl⟩
  | checked m out => cases h; exact Or.inr ⟨out, rfl⟩
  | _ => cases h

variable [DecidableEq τ] {s s' : State τ κ σ α} {t : τ} {p : Pc κ σ α}

theorem Attended.move (h : Attended s)
    (hclaim : ∀ x, (s.pc t).claim = some x → p.claim = some x)
    (hpc : s'.pc = update s.pc t p) (hmap : s'.inflight = s.inflight) : Attended s' := by
  intro k n hn
  rw [hmap] at hn
  obtain ⟨t', ht'⟩ := h k n hn
  refine ⟨t', ?_⟩
  rw [hpc]
  by_cases htt : t' = t
  · rw [htt, Function.update_self]
    exact hclaim _ (htt ▸ ht')
  · rw [Function.update_of_ne htt]
    exact ht'

variable [DecidableEq κ]

theorem Attended.acquire (h : Attended s) (ht : (s.pc t).claim = none) (k : κ) (f : Proc σ α) :
    Attended (s.acquire t k f) := by
  unfold State.acquire
  cases hk : s.inflight k with
  | some n => exact h.move (by simp [ht]) rfl rfl
  | none =>
    intro k' m hm
    dsimp only at hm ⊢
    by_cases hkk : k' = k
    · rw [hkk, Function.update_self, Option.some.injEq] at hm
      refine ⟨t, ?_⟩
      rw [Function.update_self, hkk, hm]
      rfl
    · rw [Function.update_of_ne hkk] at hm
      obtain ⟨t', ht'⟩ := h k' m hm
      have htt : t' ≠ t := by
        intro htt
        rw [htt, ht] at ht'
        cases ht'
      exact ⟨t', by rw [Function.update_of_ne htt]; exact ht'⟩

theorem Attended.check (h : Attended s) (hbooks : Books s) {k : κ} {n : ℕ} {out : α}
    (ht : s.pc t = .unlocked k n out)
    (hlast : (∃ t' out', s.pc t' = .checked n out') →
      ∃ t' ≠ t, ∃ k', (s.pc t').claim = some (k', n)) :
    Attended (s.check t k n out) := by
  have hk : s.inflight k = some n := hbooks.claimed t k n (by rw [ht]; rfl)
  have hslot : (s.pc t).slot = some n := by rw [ht]; rfl
  -- what is attended by another thread stays attended
  have hother {k' : κ} {m : ℕ} (hkk : k' ≠ k) (hm : s.inflight k' = some m) :
      ∃ t', (update s.pc t (.checked n out) t').claim = some (k', m) := by
    obtain ⟨t', ht'⟩ := h k' m hm
    have htt : t' ≠ t := by
      intro htt
      rw [htt, ht] at ht'
      cases ht'
      exact hkk rfl
    exact ⟨t', by rw [Function.update_of_ne htt]; exact ht'⟩
  unfold State.check
  rw [hk]
  dsimp only
  split_ifs with htwo
  · intro k' m hm
    dsimp only at hm ⊢
    by_cases hkk : k' = k
    · rw [hkk, Function.update_self] at hm
      cases hm
    · rw [Function.update_of_ne hkk] at hm
      exact hother hkk hm
  · have hstays : ∃ t' ≠ t, (s.pc t').claim = some (k, n) := by
      obtain ⟨c, hc, hcount⟩ := hbooks.counted k n hk
      obtain ⟨t', htt, hslot'⟩ := hc.another (by omega) hslot
      have hsome : ∃ t' ≠ t, ∃ k', (s.pc t').claim = some (k', n) := by
        rcases Pc.claim_or_checked hslot' with ⟨k', hk'⟩ | ⟨out', hout'⟩
        · exact ⟨t', htt, k', hk'⟩
        · exact hlast ⟨t', out', hout'⟩
      obtain ⟨t', htt, k', hk'⟩ := hsome
      have hkk := hbooks.distinct k' k n (hbooks.claimed t' k' n hk') hk
      exact ⟨t', htt, hkk ▸ hk'⟩
    intro k' m hm
    by_cases hkk : k' = k
    · subst hkk
      have hmn : m = n := Option.some.inj (hm.symm.trans hk)
      obtain ⟨t', htt, hclaim⟩ := hstays
      refine ⟨t', ?_⟩
      dsimp only [State.goto]
      rw [Function.update_of_ne htt, hmn]
      exact hclaim
    · exact hother hkk hm

theorem Step.attended {a : Action τ κ σ α} (hstep : Step s a s') (hok : LastAlone s a)
    (hbooks : Books s) (h : Attended s) : Attended s' := by
  cases hstep with
  | acquire ht =>
    apply h.acquire
    rcases ht with ht | ⟨out, ht⟩
    · rw [ht]
      rfl
    · rw [ht]
      rfl
  | lock ht => exact h.move (by simp [ht, Pc.claim]) rfl rfl
  | work ht => exact h.move (by simp [ht, Pc.claim]) rfl rfl
  | unlock ht => exact h.move (by simp [ht, Pc.claim]) rfl rfl
  | check ht => exact h.check hbooks ht (hok _ _ _ ht)
  | drop ht => exact h.move (by simp [ht, Pc.claim]) rfl rfl

/-- Where the last check of a slot is never made beside a reference that is
about to be dropped, the map is empty whenever no call is in progress. -/
theorem quiet_inflight_empty {shared : σ} (h : Reaches step LastAlone (.new shared) s)
    (hquiet : s.Quiet) (k : κ) : s.inflight k = none := by
  have hinv : Books s ∧ Attended s := by
    refine h.keeps (I := fun s => Books s ∧ Attended s) ⟨.new shared, fun k n hn => by cases hn⟩ ?_
    intro s a s' hok hstep hinv
    have hcase := step_cases hstep
    exact ⟨hcase.books hinv.1, hcase.attended hok hinv.1 hinv.2⟩
  cases hk : s.inflight k with
  | none => rfl
  | some n =>
    obtain ⟨t, ht⟩ := hinv.2 k n hk
    have hslot := Pc.slot_of_claim ht
    rw [hquiet t] at hslot
    cases hslot

end Left

section TwoCalls

def firstCall : List (Action Bool ℕ Unit Unit) :=
  [.acquire false 7 (.done ()), .acquire true 7 (.done ()), .lock false, .unlock false]

def secondCall : List (Action Bool ℕ Unit Unit) := [.drop false, .lock true, .unlock true]

theorem inTurn_inflight_empty :
    ∃ s : State Bool ℕ Unit Unit, Reaches step LastAlone (.new ()) s ∧ s.Quiet ∧
      s.inflight 7 = none := by
  obtain ⟨s₁, h₁⟩ : ∃ s, Machine.run step firstCall (.new ()) = some s := ⟨_, rfl⟩
  have hfirst : LastAlone s₁ (.check false) := by
    cases h₁
    refine lastAlone_of_none_checked (fun t n out ht => ?_) _
    cases t with
    | false => cases ht
    | true => cases ht
  obtain ⟨s₂, h₂⟩ : ∃ s, step s₁ (.check false) = some s := by
    cases h₁
    exact ⟨_, rfl⟩
  obtain ⟨s₃, h₃⟩ : ∃ s, Machine.run step secondCall s₂ = some s := by
    cases h₁
    cases h₂
    exact ⟨_, rfl⟩
  have hsecond : LastAlone s₃ (.check true) := by
    cases h₁
    cases h₂
    cases h₃
    refine lastAlone_of_none_checked (fun t n out ht => ?_) _
    cases t with
    | false => cases ht
    | true => cases ht
  obtain ⟨s₄, h₄⟩ : ∃ s, step s₃ (.check true) = some s := by
    cases h₁
    cases h₂
    cases h₃
    exact ⟨_, rfl⟩
  obtain ⟨s₅, h₅⟩ : ∃ s, step s₄ (.drop true) = some s := by
    cases h₁
    cases h₂
    cases h₃
    cases h₄
    exact ⟨_, rfl⟩
  have hreach : Reaches step LastAlone (.new ()) s₅ := by
    have r₁ : Reaches step LastAlone (.new ()) s₁ :=
      Reaches.start.run (by simp [firstCall, LastAlone]) h₁
    have r₃ : Reaches step LastAlone (.new ()) s₃ :=
      (r₁.next hfirst h₂).run (by simp [secondCall, LastAlone]) h₃
    have hdrop : LastAlone s₄ (.drop true) := trivial
    exact (r₃.next hsecond h₄).next hdrop h₅
  have hquiet : s₅.Quiet := by
    cases h₁
    cases h₂
    cases h₃
    cases h₄
    cases h₅
    intro t
    cases t with
    | false => rfl
    | true => rfl
  exact ⟨s₅, hreach, hquiet, quiet_inflight_empty hreach hquiet 7⟩

/-- Two calls for key 7 overlap: the second checks the map when the first has
made its check and not yet dropped its slot. -/
def overlapping : List (Action Bool ℕ Unit Unit) :=
  [.acquire false 7 (.done ()), .acquire true 7 (.done ()), .lock false, .unlock false,
    .check false, .lock true, .unlock true, .check true, .drop false, .drop true]

theorem overlapping_leaves_slot :
    ¬ ∀ s : State Bool ℕ Unit Unit, Reaches step (fun _ _ => True) (.new ()) s → s.Quiet →
      ∀ k, s.inflight k = none := by
  intro h
  obtain ⟨s, hs⟩ : ∃ s, Machine.run step overlapping (.new ()) = some s := ⟨_, rfl⟩
  have hreach : Reaches step (fun _ _ => True) (.new ()) s :=
    Reaches.start.run (fun _ _ _ => trivial) hs
  have hquiet : s.Quiet := by
    intro t
    cases hs
    cases t with
    | false => rfl
    | true => rfl
  have hempty := h s hreach hquiet 7
  cases hs
  cases hempty

end TwoCalls
end Steam2Fs.SingleFlight
