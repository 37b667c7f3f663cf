import Steam2Fs.SftpHandles

/-!
# Runs of the handle cache

A call copies a handle out of the cache and goes on to read with it, while
other calls push the handle out and close it. Reads stay clear of closed
handles in the runs where every close finds the handle unused.

Two calls that miss on one path both open it, and the second push overwrites
the first handle, which nobody closes then. Where no push finds its path in the
cache, every open handle is in the cache or with a call in progress.
-/

namespace Steam2Fs.Sftp
open Function (update)
open Machine (Reaches)

/-! ### Reads on closed handles -/

section Reads
variable {τ κ : Type} {life : ℕ → Life τ}

def Pc.uses : Pc κ → Option ℕ
  | .closing _ h _ | .reading _ h => some h
  | _ => none

/-- Requests are listed from the last to the first. -/
def NoReadAfterClose : List Request → Prop
  | [] => True
  | .read h :: earlier => .close h ∉ earlier ∧ NoReadAfterClose earlier
  | .close _ :: earlier => NoReadAfterClose earlier

instance decidableNoReadAfterClose : (rs : List Request) → Decidable (NoReadAfterClose rs)
  | [] => isTrue trivial
  | .read _ :: earlier =>
    have := decidableNoReadAfterClose earlier
    inferInstanceAs (Decidable (_ ∧ _))
  | .close _ :: earlier => decidableNoReadAfterClose earlier

def ClosesUnused (s : State τ κ) : Action τ κ → Prop
  | .close t => ∀ path h old, s.pc t = .closing path h old → ∀ t', (s.pc t').uses ≠ some old
  | _ => True

def Usable : Life τ → Prop
  | .cached | .closing _ | .lost => True
  | _ => False

theorem usable_cached : Usable (.cached : Life τ) := trivial

theorem usable_closing (t : τ) : Usable (.closing t) := trivial

theorem usable_lost : Usable (.lost : Life τ) := trivial

theorem Usable.update {g h : ℕ} {y : Life τ} (hg : Usable (life g))
    (hy : g = h → Usable (life h) → Usable y) : Usable (update life h y g) := by
  by_cases hgh : g = h
  · rw [hgh, Function.update_self]
    exact hy hgh (hgh ▸ hg)
  · rw [Function.update_of_ne hgh]
    exact hg

structure ReadsOpen (s : State τ κ) (life : ℕ → Life τ) : Prop where
  usable : ∀ t h, (s.pc t).uses = some h → Usable (life h)
  safe : NoReadAfterClose s.requests

theorem ReadsOpen.new : ReadsOpen (State.new : State τ κ) fun _ => .unopened where
  usable t h hh := by cases hh
  safe := trivial

variable [DecidableEq τ] {s s' : State τ κ} {t : τ}

theorem ReadsOpen.usable_update (hr : ReadsOpen s life) {life' : ℕ → Life τ} {p : Pc κ}
    (hp : ∀ h, p.uses = some h → Usable (life' h))
    (hothers : ∀ t' h, (s.pc t').uses = some h → Usable (life h) → Usable (life' h)) :
    ∀ t' h, (update s.pc t p t').uses = some h → Usable (life' h) :=
  (Function.forall_update_iff s.pc fun _ q => ∀ h, q.uses = some h → Usable (life' h)).mpr
    ⟨hp, fun t' _ h hh => hothers t' h hh (hr.usable t' h hh)⟩

variable [DecidableEq κ]

theorem Step.readsOpen {a : Action τ κ} {life' : ℕ → Life τ} (hstep : Step s life a s' life')
    (hok : ClosesUnused s a) (hl : Ledger s life) (hr : ReadsOpen s life) :
    ReadsOpen s' life' := by
  cases hstep with
  | @hit t path h ht hget =>
    refine ⟨hr.usable_update (fun g hg => ?_) fun _ _ _ hu => hu, hr.safe⟩
    cases hg
    rw [hl.cached _ (Lru.mem_of_get hget)]
    exact usable_cached
  | miss ht => exact ⟨hr.usable_update (by simp [Pc.uses]) fun _ _ _ hu => hu, hr.safe⟩
  | opened ht =>
    refine ⟨hr.usable_update (by simp [Pc.uses]) fun _ g _ hu => ?_, hr.safe⟩
    refine hu.update fun _ hfresh => ?_
    rw [hl.unopened _ le_rfl] at hfresh
    exact hfresh.elim
  | refused ht => exact ⟨hr.usable_update (by simp [Pc.uses]) fun _ _ _ hu => hu, hr.safe⟩
  | @replace t path h old ht hget =>
    refine ⟨hr.usable_update (fun g hg => ?_) fun _ g _ hu => ?_, hr.safe⟩
    · cases hg
      have hcached : Usable (update life h .cached h) := by
        rw [Function.update_self]
        exact usable_cached
      exact hcached.update fun _ _ => usable_lost
    · exact (hu.update fun _ _ => usable_cached).update fun _ _ => usable_lost
  | @grow t path h ht hget hroom =>
    refine ⟨hr.usable_update (fun g hg => ?_) fun _ g _ hu => ?_, hr.safe⟩
    · cases hg
      rw [Function.update_self]
      exact usable_cached
    · exact hu.update fun _ _ => usable_cached
  | @evict t path h rest last ht hget hlast =>
    refine ⟨hr.usable_update (fun g hg => ?_) fun _ g _ hu => ?_, hr.safe⟩
    · cases hg
      have hcached : Usable (update life h .cached h) := by
        rw [Function.update_self]
        exact usable_cached
      exact hcached.update fun _ _ => usable_closing t
    · exact (hu.update fun _ _ => usable_cached).update fun _ _ => usable_closing t
  | @close t path h old ht =>
    have hunused := hok path h old ht
    have hothers (t' : τ) (g : ℕ) (hg : (s.pc t').uses = some g) (hu : Usable (life g)) :
        Usable (update life old .closed g) := by
      refine hu.update fun heq _ => ?_
      rw [heq] at hg
      exact absurd hg (hunused t')
    refine ⟨hr.usable_update (fun g hg => ?_) hothers, hr.safe⟩
    cases hg
    have huses : (s.pc t).uses = some h := by rw [ht]; rfl
    exact hothers t h huses (hr.usable t h huses)
  | @read t path h ht =>
    refine ⟨hr.usable, fun hclosed => ?_, hr.safe⟩
    have hu := hr.usable t h (by rw [ht]; rfl)
    rw [hl.closed h hclosed] at hu
    exact hu
  | finish ht => exact ⟨hr.usable_update (by simp [Pc.uses]) fun _ _ _ hu => hu, hr.safe⟩

/-- In runs where no close finds its handle in use, no read is sent on a handle
after its close. -/
theorem reads_open_handles (h : Reaches step ClosesUnused State.new s) :
    NoReadAfterClose s.requests := by
  have hinv : ∃ life, Ledger s life ∧ ReadsOpen s life := by
    refine h.keeps (I := fun s => ∃ life, Ledger s life ∧ ReadsOpen s life) ⟨_, .new, .new⟩ ?_
    intro s a s' hok hstep hinv
    obtain ⟨life, hl, hr⟩ := hinv
    obtain ⟨life', hcase⟩ := step_cases hstep life
    exact ⟨life', hcase.ledger hl, hcase.readsOpen hok hl hr⟩
  obtain ⟨life, -, hr⟩ := hinv
  exact hr.safe

end Reads

section Crowded

/-- Call `true` opens the paths 1, 2, … and 64, one after the other. The last
one throws path 0 out of the cache. -/
def openMany : List (Action Bool ℕ) :=
  (List.range' 1 63).flatMap (fun path =>
    [.lookup true path, .opened true, .push true, .read true, .finish true]) ++
    [.lookup true 64, .opened true, .push true, .close true, .read true]

def closesUnused (s : State Bool ℕ) : Action Bool ℕ → Bool
  | .close t => match s.pc t with
    | .closing _ _ old => (s.pc false).uses ≠ some old ∧ (s.pc true).uses ≠ some old
    | _ => true
  | _ => true

theorem closesUnused_sound (s : State Bool ℕ) (a : Action Bool ℕ) (h : closesUnused s a = true) :
    ClosesUnused s a := by
  cases a with
  | close t =>
    intro path g old ht t'
    simp only [closesUnused, ht, decide_eq_true_eq] at h
    cases t' with
    | false => exact h.1
    | true => exact h.2
  | _ => trivial

def doneInTime : List (Action Bool ℕ) :=
  [.lookup false 0, .opened false, .push false, .read false, .finish false] ++ openMany

set_option maxRecDepth 20000 in
theorem doneInTime_reads_open :
    ∃ s : State Bool ℕ, Reaches step ClosesUnused State.new s ∧
      s.requests.head? = some (.read 64) ∧ .close 0 ∈ s.requests ∧
      NoReadAfterClose s.requests := by
  have hrun : ((Machine.runIf step closesUnused doneInTime (State.new : State Bool ℕ)).any
      fun s => s.requests.head? = some (.read 64) ∧ .close 0 ∈ s.requests) = true := by
    decide +kernel
  obtain ⟨s, hs, hlog⟩ := (Option.any_eq_true _ _).mp hrun
  have hreach : Reaches step ClosesUnused State.new s := Reaches.start.runIf closesUnused_sound hs
  have hlog := of_decide_eq_true hlog
  exact ⟨s, hreach, hlog.1, hlog.2, reads_open_handles hreach⟩

def crowdedOut : List (Action Bool ℕ) :=
  [.lookup false 0, .opened false, .push false, .read false] ++ openMany ++ [.read false]

set_option maxRecDepth 20000 in
theorem crowdedOut_reads_closed :
    ¬ ∀ s : State Bool ℕ, Reaches step (fun _ _ => True) State.new s →
      NoReadAfterClose s.requests := by
  intro h
  have hrun : ((Machine.run step crowdedOut (State.new : State Bool ℕ)).any fun s =>
      ¬ NoReadAfterClose s.requests) = true := by decide +kernel
  obtain ⟨s, hs, hbad⟩ := (Option.any_eq_true _ _).mp hrun
  have hreach : Reaches step (fun _ _ => True) State.new s :=
    Reaches.start.run (fun _ _ _ => trivial) hs
  exact of_decide_eq_true hbad (h s hreach)

end Crowded

/-! ### Handles nobody closes -/

section Leaks
variable {τ κ : Type} {life : ℕ → Life τ} {t : τ} {g h : ℕ} {x y : Life τ}

/-- The call opened the handle, is about to close it, or has it to read from. -/
def Pc.has : Pc κ → ℕ → Prop
  | .opened _ h, g => g = h
  | .closing _ h old, g => g = h ∨ g = old
  | .reading _ h, g => g = h
  | _, _ => False

def PushesNew [DecidableEq κ] (s : State τ κ) : Action τ κ → Prop
  | .push t => ∀ path h, s.pc t = .opened path h → Lru.get path s.cache = none
  | _ => True

theorem eq_of_life_update (hg : update life h y g = x) (hxy : y ≠ x) :
    g ≠ h ∧ life g = x := by
  by_cases hgh : g = h
  · rw [hgh, Function.update_self] at hg
    exact absurd hg hxy
  · rw [Function.update_of_ne hgh] at hg
    exact ⟨hgh, hg⟩

/-- A handle is found in the place its life says, and none is lost. -/
structure Found (s : State τ κ) (life : ℕ → Life τ) : Prop where
  unopened : ∀ h, life h = .unopened → s.fresh ≤ h
  pushing : ∀ t h, life h = .pushing t → ∃ path, s.pc t = .opened path h
  cached : ∀ h, life h = .cached → ∃ path, (path, h) ∈ s.cache
  closing : ∀ t h, life h = .closing t → ∃ path g, s.pc t = .closing path g h
  closed : ∀ h, life h = .closed → .close h ∈ s.requests
  kept : ∀ h, life h ≠ .lost
  room : s.cache.length ≤ HANDLE_CACHE

theorem Found.new : Found (State.new : State τ κ) fun _ => .unopened where
  unopened h _ := Nat.zero_le h
  pushing t h hh := by cases hh
  cached h hh := by cases hh
  closing t h hh := by cases hh
  closed h hh := by cases hh
  kept h hh := by cases hh
  room := Nat.zero_le _

variable [DecidableEq τ] {s s' : State τ κ} {p : Pc κ}

theorem Found.pushing_update (hf : Found s life) (ht : ∀ path, s.pc t ≠ .opened path g) {t' : τ}
    (hg : life g = .pushing t') : ∃ path, update s.pc t p t' = .opened path g := by
  obtain ⟨path, hpath⟩ := hf.pushing t' g hg
  have htt : t' ≠ t := fun htt => ht path (htt ▸ hpath)
  exact ⟨path, by rw [Function.update_of_ne htt]; exact hpath⟩

theorem Found.closing_update (hf : Found s life)
    (ht : ∀ path h, s.pc t ≠ .closing path h g) {t' : τ} (hg : life g = .closing t') :
    ∃ path h, update s.pc t p t' = .closing path h g := by
  obtain ⟨path, h, hpath⟩ := hf.closing t' g hg
  have htt : t' ≠ t := fun htt => ht path h (htt ▸ hpath)
  exact ⟨path, h, by rw [Function.update_of_ne htt]; exact hpath⟩

theorem Found.move (hf : Found s life) (hopened : ∀ path h, s.pc t ≠ .opened path h)
    (hclosing : ∀ path h old, s.pc t ≠ .closing path h old)
    (hpc : s'.pc = update s.pc t p) (hfresh : s'.fresh = s.fresh)
    (hcache : s'.cache.Perm s.cache) (hrequests : s'.requests = s.requests) : Found s' life where
  unopened := by
    rw [hfresh]
    exact hf.unopened
  pushing t' h hh := by
    rw [hpc]
    exact hf.pushing_update (fun path => hopened path h) hh
  cached h hh := by
    obtain ⟨path, hpath⟩ := hf.cached h hh
    exact ⟨path, hcache.mem_iff.mpr hpath⟩
  closing t' h hh := by
    rw [hpc]
    exact hf.closing_update (fun path g => hclosing path g h) hh
  closed := by
    rw [hrequests]
    exact hf.closed
  kept := hf.kept
  room := hcache.length_eq.trans_le hf.room

theorem Found.opened (hf : Found s life) {path : κ} (ht : s.pc t = .opening path) :
    Found { s with
      fresh := s.fresh + 1
      pc := update s.pc t (.opened path s.fresh) } (update life s.fresh (.pushing t)) where
  unopened g hg := by
    obtain ⟨hne, hg⟩ := eq_of_life_update hg (by simp)
    have := hf.unopened g hg
    dsimp only
    omega
  pushing t' g hg := by
    by_cases hnew : g = s.fresh
    · rw [hnew, Function.update_self] at hg
      cases hg
      exact ⟨path, by rw [hnew]; exact Function.update_self ..⟩
    · rw [Function.update_of_ne hnew] at hg
      exact hf.pushing_update (by simp [ht]) hg
  cached g hg := hf.cached g (eq_of_life_update hg (by simp)).2
  closing t' g hg := hf.closing_update (by simp [ht]) (eq_of_life_update hg (by simp)).2
  closed g hg := hf.closed g (eq_of_life_update hg (by simp)).2
  kept g hg := hf.kept g (eq_of_life_update hg (by simp)).2
  room := hf.room

theorem Found.grow (hf : Found s life) {path : κ} (ht : s.pc t = .opened path h)
    (hroom : s.cache.length < HANDLE_CACHE) :
    Found { s with
      cache := (path, h) :: s.cache
      pc := update s.pc t (.reading path h) } (update life h .cached) where
  unopened g hg := hf.unopened g (eq_of_life_update hg (by simp)).2
  pushing t' g hg := by
    obtain ⟨hne, hg⟩ := eq_of_life_update hg (by simp)
    exact hf.pushing_update (by simp [ht, hne.symm]) hg
  cached g hg := by
    by_cases hgh : g = h
    · exact ⟨path, by rw [hgh]; exact List.mem_cons_self ..⟩
    · rw [Function.update_of_ne hgh] at hg
      obtain ⟨path', hpath⟩ := hf.cached g hg
      exact ⟨path', List.mem_cons_of_mem _ hpath⟩
  closing t' g hg := hf.closing_update (by simp [ht]) (eq_of_life_update hg (by simp)).2
  closed g hg := hf.closed g (eq_of_life_update hg (by simp)).2
  kept g hg := hf.kept g (eq_of_life_update hg (by simp)).2
  room := hroom

theorem Found.evict (hf : Found s life) {path : κ} {rest : List (κ × ℕ)} {last : κ × ℕ}
    (ht : s.pc t = .opened path h) (hlast : s.cache = rest ++ [last]) :
    Found { s with
      cache := (path, h) :: rest
      pc := update s.pc t (.closing path h last.2) }
      (update (update life h .cached) last.2 (.closing t)) where
  unopened g hg := by
    obtain ⟨-, hg⟩ := eq_of_life_update hg (by simp)
    exact hf.unopened g (eq_of_life_update hg (by simp)).2
  pushing t' g hg := by
    obtain ⟨-, hg⟩ := eq_of_life_update hg (by simp)
    obtain ⟨hgh, hg⟩ := eq_of_life_update hg (by simp)
    exact hf.pushing_update (by simp [ht, hgh.symm]) hg
  cached g hg := by
    obtain ⟨hout, hg⟩ := eq_of_life_update hg (by simp)
    by_cases hgh : g = h
    · exact ⟨path, by rw [hgh]; exact List.mem_cons_self ..⟩
    · rw [Function.update_of_ne hgh] at hg
      obtain ⟨path', hpath⟩ := hf.cached g hg
      rw [hlast] at hpath
      refine ⟨path', List.mem_cons_of_mem _ ?_⟩
      rcases List.mem_append.mp hpath with hpath | hpath
      · exact hpath
      · have heq := List.mem_singleton.mp hpath
        exact absurd (congrArg Prod.snd heq) hout
  closing t' g hg := by
    by_cases hout : g = last.2
    · rw [hout, Function.update_self] at hg
      cases hg
      exact ⟨path, h, by rw [hout]; exact Function.update_self ..⟩
    · rw [Function.update_of_ne hout] at hg
      exact hf.closing_update (by simp [ht]) (eq_of_life_update hg (by simp)).2
  closed g hg := by
    obtain ⟨-, hg⟩ := eq_of_life_update hg (by simp)
    exact hf.closed g (eq_of_life_update hg (by simp)).2
  kept g hg := by
    obtain ⟨-, hg⟩ := eq_of_life_update hg (by simp)
    exact hf.kept g (eq_of_life_update hg (by simp)).2
  room := by
    have hroom := hf.room
    rw [hlast, List.length_append, List.length_singleton] at hroom
    exact hroom

theorem Found.close (hf : Found s life) {path : κ} {old : ℕ}
    (ht : s.pc t = .closing path h old) :
    Found { s with
      requests := .close old :: s.requests
      pc := update s.pc t (.reading path h) } (update life old .closed) where
  unopened g hg := hf.unopened g (eq_of_life_update hg (by simp)).2
  pushing t' g hg := hf.pushing_update (by simp [ht]) (eq_of_life_update hg (by simp)).2
  cached g hg := hf.cached g (eq_of_life_update hg (by simp)).2
  closing t' g hg := by
    obtain ⟨hne, hg⟩ := eq_of_life_update hg (by simp)
    exact hf.closing_update (by simp [ht, hne.symm]) hg
  closed g hg := by
    by_cases hgo : g = old
    · rw [hgo]
      exact List.mem_cons_self ..
    · rw [Function.update_of_ne hgo] at hg
      exact List.mem_cons_of_mem _ (hf.closed g hg)
  kept g hg := hf.kept g (eq_of_life_update hg (by simp)).2
  room := hf.room

variable [DecidableEq κ]

theorem Step.found {a : Action τ κ} {life' : ℕ → Life τ} (hstep : Step s life a s' life')
    (hok : PushesNew s a) (hl : Ledger s life) (hf : Found s life) : Found s' life' := by
  cases hstep with
  | hit ht =>
    exact hf.move (by simp [ht]) (by simp [ht]) rfl rfl (Lru.touch_perm hl.keys) rfl
  | miss ht => exact hf.move (by simp [ht]) (by simp [ht]) rfl rfl (.refl _) rfl
  | opened ht => exact hf.opened ht
  | refused ht => exact hf.move (by simp [ht]) (by simp [ht]) rfl rfl (.refl _) rfl
  | replace ht hget =>
    rw [hok _ _ ht] at hget
    cases hget
  | grow ht _ hroom => exact hf.grow ht hroom
  | evict ht _ hlast => exact hf.evict ht hlast
  | close ht => exact hf.close ht
  | read ht =>
    refine ⟨hf.unopened, hf.pushing, hf.cached, hf.closing, fun g hg => ?_, hf.kept, hf.room⟩
    exact List.mem_cons_of_mem _ (hf.closed g hg)
  | finish ht => exact hf.move (by simp [ht]) (by simp [ht]) rfl rfl (.refl _) rfl

/-- The handles the server has given out and not been asked to close. -/
def State.openHandles (s : State τ κ) : Finset ℕ :=
  (Finset.range s.fresh).filter fun h => .close h ∉ s.requests

omit [DecidableEq τ] [DecidableEq κ] in
theorem Found.open_handle (hf : Found s life) (hh : h ∈ s.openHandles) :
    (∃ path, (path, h) ∈ s.cache) ∨ ∃ t, (s.pc t).has h := by
  obtain ⟨hlt, hopen⟩ := Finset.mem_filter.mp hh
  have hfresh := Finset.mem_range.mp hlt
  cases hlife : life h with
  | unopened => exact absurd (hf.unopened h hlife) (by omega)
  | pushing t =>
    obtain ⟨path, hpath⟩ := hf.pushing t h hlife
    exact Or.inr ⟨t, by rw [hpath]; rfl⟩
  | cached => exact Or.inl (hf.cached h hlife)
  | closing t =>
    obtain ⟨path, g, hpath⟩ := hf.closing t h hlife
    exact Or.inr ⟨t, by rw [hpath]; exact Or.inr rfl⟩
  | closed => exact absurd (hf.closed h hlife) hopen
  | lost => exact absurd hlife (hf.kept h)

/-- In runs where no push finds its path in the cache, an open handle is in the
cache or with a call in progress, so between calls there are at most as many as
the cache holds. -/
theorem open_handles_kept (h : Reaches step PushesNew State.new s) :
    (∀ g ∈ s.openHandles, (∃ path, (path, g) ∈ s.cache) ∨ ∃ t, (s.pc t).has g) ∧
      ((∀ t, s.pc t = .idle) → s.openHandles.card ≤ HANDLE_CACHE) := by
  have hinv : ∃ life, Ledger s life ∧ Found s life := by
    refine h.keeps (I := fun s => ∃ life, Ledger s life ∧ Found s life) ⟨_, .new, .new⟩ ?_
    intro s a s' hok hstep hinv
    obtain ⟨life, hl, hf⟩ := hinv
    obtain ⟨life', hcase⟩ := step_cases hstep life
    exact ⟨life', hcase.ledger hl, hcase.found hok hl hf⟩
  obtain ⟨life, -, hf⟩ := hinv
  refine ⟨fun g hg => hf.open_handle hg, fun hidle => ?_⟩
  have hsub : s.openHandles ⊆ (s.cache.map Prod.snd).toFinset := by
    intro g hg
    rcases hf.open_handle hg with ⟨path, hpath⟩ | ⟨t, ht⟩
    · exact List.mem_toFinset.mpr (List.mem_map.mpr ⟨_, hpath, rfl⟩)
    · rw [hidle t] at ht
      exact ht.elim
  calc
    s.openHandles.card ≤ (s.cache.map Prod.snd).toFinset.card := Finset.card_le_card hsub
    _ ≤ (s.cache.map Prod.snd).length := List.toFinset_card_le _
    _ = s.cache.length := List.length_map _
    _ ≤ HANDLE_CACHE := hf.room

end Leaks

section SamePath

def pushesNew (s : State Bool ℕ) : Action Bool ℕ → Bool
  | .push t => match s.pc t with
    | .opened path _ => Lru.get path s.cache = none
    | _ => true
  | _ => true

theorem pushesNew_sound (s : State Bool ℕ) (a : Action Bool ℕ) (h : pushesNew s a = true) :
    PushesNew s a := by
  cases a with
  | push t =>
    intro path g ht
    simp only [pushesNew, ht, decide_eq_true_eq] at h
    exact h
  | _ => trivial

set_option maxRecDepth 20000 in
theorem doneInTime_handles_kept :
    ∃ s : State Bool ℕ, Reaches step PushesNew State.new s ∧ (∀ t, s.pc t = .idle) ∧
      s.fresh = 65 ∧ s.openHandles.card ≤ HANDLE_CACHE := by
  have hrun : ((Machine.runIf step pushesNew (doneInTime ++ [.finish true])
      (State.new : State Bool ℕ)).any fun s =>
        s.pc false = .idle ∧ s.pc true = .idle ∧ s.fresh = 65) = true := by decide +kernel
  obtain ⟨s, hs, hend⟩ := (Option.any_eq_true _ _).mp hrun
  have hreach : Reaches step PushesNew State.new s := Reaches.start.runIf pushesNew_sound hs
  obtain ⟨hfalse, htrue, hfresh⟩ := of_decide_eq_true hend
  have hidle (t : Bool) : s.pc t = .idle := by
    cases t with
    | false => exact hfalse
    | true => exact htrue
  exact ⟨s, hreach, hidle, hfresh, (open_handles_kept hreach).2 hidle⟩

def samePath : List (Action Bool ℕ) :=
  [.lookup false 7, .lookup true 7, .opened false, .opened true, .push false, .push true,
    .finish false, .finish true]

theorem samePath_leaks :
    ¬ ∀ s : State Bool ℕ, Reaches step (fun _ _ => True) State.new s →
      ∀ g ∈ s.openHandles, (∃ path, (path, g) ∈ s.cache) ∨ ∃ t, (s.pc t).has g := by
  intro h
  obtain ⟨s, hs⟩ : ∃ s, Machine.run step samePath (State.new : State Bool ℕ) = some s := ⟨_, rfl⟩
  have hreach : Reaches step (fun _ _ => True) State.new s :=
    Reaches.start.run (fun _ _ _ => trivial) hs
  have hopen : 0 ∈ s.openHandles ∧ s.cache = [(7, 1)] ∧ s.pc false = .idle ∧ s.pc true = .idle := by
    cases hs
    decide
  rcases h s hreach 0 hopen.1 with ⟨path, hpath⟩ | ⟨t, ht⟩
  · rw [hopen.2.1] at hpath
    simp at hpath
  · cases t with
    | false =>
      rw [hopen.2.2.1] at ht
      exact ht
    | true =>
      rw [hopen.2.2.2] at ht
      exact ht

end SamePath
end Steam2Fs.Sftp
