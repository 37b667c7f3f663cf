import Steam2Fs.Lib.Threads

/-!
# One call among others

While a call runs, the calls beside it change the state along a relation `R`.
`Ensures I R Q p r s` says what a process then brings about whose last action
took `r` to `s`: its next one finds a state that `R` leads to and keeps `I`, and
`Q` holds of the states around its last action and of its result.

`Move` is a step of a pool together with the call that acted in it, and a
`Path` is made of moves of which only some calls may act. A path keeps what its
calls guarantee, and brings each thread nearer to what it ensures.
-/

namespace Proc
variable {σ τ α β : Type}

def zoom (get : τ → σ) (set : σ → τ → τ) : Proc σ α → Proc τ α
  | .done a => .done a
  | .act update next =>
    .act (fun t => set (update (get t)) t) fun t => (next (get t)).zoom get set

def Ensures (I : σ → Prop) (R : σ → σ → Prop) (Q : σ → σ → α → Prop) :
    Proc σ α → σ → σ → Prop
  | .done a, r, s => Q r s a
  | .act update next, _, s =>
    ∀ s', I s' → R s s' → I (update s') ∧ (next s').Ensures I R Q s' (update s')

theorem Keeps.zoom {I : σ → Prop} {F : τ → Prop} {Q : α → Prop} {get : τ → σ} {set : σ → τ → τ}
    {p : Proc σ α} (hp : p.Keeps I Q) (hget : ∀ s t, get (set s t) = s)
    (hF : ∀ s t, F t → F (set s t)) : (p.zoom get set).Keeps (fun t => I (get t) ∧ F t) Q := by
  induction p with
  | done a => exact hp
  | act update next ih =>
    rintro t ⟨hI, hFt⟩
    obtain ⟨hI', hnext⟩ := hp (get t) hI
    refine ⟨⟨?_, hF _ t hFt⟩, ih (get t) hnext⟩
    rwa [hget]

theorem within_zoom {R : τ → τ → Prop} {get : τ → σ} {set : σ → τ → τ}
    (hR : ∀ s t, R t (set s t)) (p : Proc σ α) : (p.zoom get set).Within R := by
  induction p with
  | done a => trivial
  | act update next ih => exact fun t => ⟨hR _ t, ih (get t)⟩

section Rules
variable {I : σ → Prop} {R : σ → σ → Prop} {Q : σ → σ → α → Prop} {p : Proc σ α} {r s : σ}

theorem Ensures.bind {T : σ → σ → β → Prop} {f : α → Proc σ β} (hp : p.Ensures I R Q r s)
    (hf : ∀ r' s' a, Q r' s' a → (f a).Ensures I R T r' s') : (p.bind f).Ensures I R T r s := by
  induction p generalizing r s with
  | done a => exact hf r s a hp
  | act update next ih =>
    intro s' hI hR
    obtain ⟨hI', hnext⟩ := hp s' hI hR
    exact ⟨hI', ih s' hnext⟩

theorem Ensures.mono {T : σ → σ → α → Prop} (hp : p.Ensures I R Q r s)
    (h : ∀ r' s' a, Q r' s' a → T r' s' a) : p.Ensures I R T r s := by
  induction p generalizing r s with
  | done a => exact h r s a hp
  | act update next ih =>
    intro s' hI hR
    obtain ⟨hI', hnext⟩ := hp s' hI hR
    exact ⟨hI', ih s' hnext⟩

theorem Keeps.ensures {P : α → Prop} (hp : p.Keeps I P) (r s : σ) :
    p.Ensures I R (fun _ _ a => P a) r s := by
  induction p generalizing r s with
  | done a => exact hp
  | act update next ih =>
    intro s' hI _
    obtain ⟨hI', hnext⟩ := hp s' hI
    exact ⟨hI', ih s' hnext _ _⟩

/-- What neither the process nor the calls beside it disturb is still there
when it is done. -/
theorem Ensures.frame {F : σ → Prop} {G : σ → σ → Prop} (hp : p.Ensures I R Q r s)
    (hw : p.Within G) (hR : ∀ s s', R s s' → F s → F s') (hG : ∀ s s', G s s' → F s → F s')
    (hs : F s) : p.Ensures I R (fun r' s' a => Q r' s' a ∧ F s') r s := by
  induction p generalizing r s with
  | done a => exact ⟨hp, hs⟩
  | act update next ih =>
    intro s' hI hss'
    obtain ⟨hI', hnext⟩ := hp s' hI hss'
    obtain ⟨hmove, hw'⟩ := hw s'
    exact ⟨hI', ih s' hnext hw' (hG _ _ hmove (hR _ _ hss' hs))⟩

end Rules
end Proc

namespace Call
variable {σ ε α β : Type} {I : σ → Prop} {R : σ → σ → Prop} {r s : σ}

def Ensures (I : σ → Prop) (R : σ → σ → Prop) (Q : σ → σ → Outcome ε α → Prop)
    (x : Call σ ε α) (r s : σ) : Prop :=
  Proc.Ensures I R Q x r s

theorem Ensures.bind {Q : σ → σ → Outcome ε α → Prop} {T : σ → σ → Outcome ε β → Prop}
    {x : Call σ ε α} {f : α → Call σ ε β} (hx : x.Ensures I R Q r s)
    (hok : ∀ r' s' a, Q r' s' (.ok a) → (f a).Ensures I R T r' s')
    (herr : ∀ r' s' e, Q r' s' (.err e) → T r' s' (.err e))
    (hpanic : ∀ r' s', Q r' s' .panic → T r' s' .panic) :
    (x >>= f).Ensures I R T r s := by
  refine Proc.Ensures.bind hx fun r' s' o ho => ?_
  cases o with
  | ok a => exact hok r' s' a ho
  | err e => exact herr r' s' e ho
  | panic => exact hpanic r' s' ho

theorem ensures_done {Q : σ → σ → Outcome ε α → Prop} {o : Outcome ε α} (h : Q r s o) :
    (lift o : Call σ ε α).Ensures I R Q r s := h

theorem ensures_atomic {Q : σ → σ → Outcome ε α → Prop} {g : σ → α × σ}
    (h : ∀ s', I s' → R s s' → I (g s').2 ∧ Q s' (g s').2 (.ok (g s').1)) :
    (atomic g : Call σ ε α).Ensures I R Q r s := h

theorem Keeps.ensures {P : Outcome ε α → Prop} {x : Call σ ε α} (hx : x.Keeps I P) (r s : σ) :
    x.Ensures I R (fun _ _ o => P o) r s :=
  Proc.Keeps.ensures hx r s

theorem Ensures.frame {Q : σ → σ → Outcome ε α → Prop} {F : σ → Prop} {G : σ → σ → Prop}
    {x : Call σ ε α} (hx : x.Ensures I R Q r s) (hw : x.Within G)
    (hR : ∀ s s', R s s' → F s → F s') (hG : ∀ s s', G s s' → F s → F s') (hs : F s) :
    x.Ensures I R (fun r' s' o => Q r' s' o ∧ F s') r s :=
  Proc.Ensures.frame hx hw hR hG hs

end Call

namespace Pool
variable {σ ι α : Type}

inductive Move (prog : ι → Proc σ α) : Option ι → Pool σ ι α → Pool σ ι α → Prop
  | spawn {s : σ} {ts : List (ι × Proc σ α)} (c : ι) :
      Move prog none ⟨s, ts⟩ ⟨s, ts ++ [(c, prog c)]⟩
  | act {s : σ} {ts : List (ι × Proc σ α)} {k : ℕ} {c : ι} {update : σ → σ}
      {next : σ → Proc σ α} (hk : ts[k]? = some (c, .act update next)) :
      Move prog (some c) ⟨s, ts⟩ ⟨update s, ts.set k (c, next s)⟩

/-- Moves in which only calls that are `ok` act; any call may start. -/
def Path (prog : ι → Proc σ α) (ok : ι → Prop) (p p' : Pool σ ι α) : Prop :=
  Relation.ReflTransGen (fun p p' => ∃ who, Move prog who p p' ∧ ∀ c, who = some c → ok c) p p'

def Good (I : σ → Prop) (G : ι → σ → σ → Prop) (p : Pool σ ι α) : Prop :=
  I p.state ∧ ∀ t ∈ p.threads, t.2.Keeps I (fun _ => True) ∧ t.2.Within (G t.1)

/-- Thread `k` is the call `c` on its way to ensure `Q`. -/
def Underway (I : σ → Prop) (R : σ → σ → Prop) (Q : σ → σ → α → Prop) (k : ℕ) (c : ι)
    (p : Pool σ ι α) : Prop :=
  ∃ q r s, p.threads[k]? = some (c, q) ∧ q.Ensures I R Q r s ∧ R s p.state

section Paths
variable {prog : ι → Proc σ α} {ok : ι → Prop} {I : σ → Prop} {G : ι → σ → σ → Prop}
  {R : σ → σ → Prop} {Q : σ → σ → α → Prop} {k : ℕ} {c : ι} {who : Option ι} {p p' : Pool σ ι α}

theorem good_start {s₀ : σ} (h₀ : I s₀) : (⟨s₀, []⟩ : Pool σ ι α).Good I G :=
  ⟨h₀, fun _ ht => absurd ht List.not_mem_nil⟩

theorem Move.good (hprog : ∀ c, (prog c).Keeps I (fun _ => True) ∧ (prog c).Within (G c))
    (h : Move prog who p p') (hp : p.Good I G) : p'.Good I G := by
  obtain ⟨hI, hts⟩ := hp
  cases h with
  | spawn c =>
    refine ⟨hI, fun t ht => ?_⟩
    rcases List.mem_append.mp ht with ht | ht
    · exact hts t ht
    · rw [List.mem_singleton.mp ht]
      exact hprog c
  | act hk =>
    obtain ⟨hkeeps, hwithin⟩ := hts _ (List.mem_of_getElem? hk)
    obtain ⟨hI', hnext⟩ := hkeeps _ hI
    refine ⟨hI', fun t ht => ?_⟩
    rcases List.mem_or_eq_of_mem_set ht with ht | rfl
    · exact hts t ht
    · exact ⟨hnext, (hwithin _).2⟩

theorem Move.along (hp : p.Good I G) (hR : ∀ c, who = some c → ∀ s s', G c s s' → R s s')
    (hrefl : ∀ s, R s s) (h : Move prog who p p') : R p.state p'.state := by
  cases h with
  | spawn c => exact hrefl _
  | act hk => exact hR _ rfl _ _ ((hp.2 _ (List.mem_of_getElem? hk)).2 _).1

theorem Move.underway (hp : p.Good I G) (hR : ∀ c, who = some c → ∀ s s', G c s s' → R s s')
    (hrefl : ∀ s, R s s) (htrans : ∀ s s' s'', R s s' → R s' s'' → R s s'')
    (h : Move prog who p p') (hk : p.Underway I R Q k c) : p'.Underway I R Q k c := by
  have halong := h.along hp hR hrefl
  obtain ⟨q, r, s, hq, hens, hs⟩ := hk
  have hs' := htrans _ _ _ hs halong
  cases h with
  | spawn c' =>
    refine ⟨q, r, s, ?_, hens, hs'⟩
    rwa [List.getElem?_append_left (List.getElem?_eq_some_iff.mp hq).1]
  | @act s₁ ts j c' update next hj =>
    by_cases hjk : j = k
    · -- the thread itself acted, and is closer to its end
      subst hjk
      dsimp only at hq hs
      rw [hj] at hq
      cases hq
      obtain ⟨-, hnext⟩ := hens s₁ hp.1 hs
      refine ⟨next s₁, s₁, update s₁, ?_, hnext, hrefl _⟩
      exact List.getElem?_set_self (List.getElem?_eq_some_iff.mp hj).1
    · refine ⟨q, r, s, ?_, hens, hs'⟩
      dsimp only
      rwa [List.getElem?_set_ne hjk]

theorem Move.answered (h : Move prog who p p') {a : α} (ha : p.Answered c a) :
    p'.Answered c a := by
  cases h with
  | spawn c' => exact List.mem_append_left _ ha
  | @act s ts j c' update next hj =>
    obtain ⟨i, hi⟩ := List.mem_iff_getElem?.mp ha
    have hne : j ≠ i := by
      intro heq
      dsimp only at hi
      rw [← heq, hj] at hi
      cases hi
    exact List.mem_iff_getElem?.mpr ⟨i, by rw [List.getElem?_set_ne hne]; exact hi⟩

theorem Path.answered (h : Path prog ok p p') {a : α} (ha : p.Answered c a) : p'.Answered c a := by
  induction h with
  | refl => exact ha
  | tail _ hstep ih =>
    obtain ⟨who, hmove, -⟩ := hstep
    exact hmove.answered ih

theorem Path.good (hprog : ∀ c, (prog c).Keeps I (fun _ => True) ∧ (prog c).Within (G c))
    (h : Path prog ok p p') (hp : p.Good I G) : p'.Good I G := by
  induction h with
  | refl => exact hp
  | tail _ hstep ih =>
    obtain ⟨who, hmove, -⟩ := hstep
    exact hmove.good hprog ih

theorem Path.along (hprog : ∀ c, (prog c).Keeps I (fun _ => True) ∧ (prog c).Within (G c))
    (hR : ∀ c, ok c → ∀ s s', G c s s' → R s s') (hrefl : ∀ s, R s s)
    (htrans : ∀ s s' s'', R s s' → R s' s'' → R s s'') (h : Path prog ok p p')
    (hp : p.Good I G) : R p.state p'.state := by
  induction h with
  | refl => exact hrefl _
  | tail hpath hstep ih =>
    obtain ⟨who, hmove, hok⟩ := hstep
    have hmid := Path.good hprog hpath hp
    exact htrans _ _ _ ih (hmove.along hmid (fun c hc => hR c (hok c hc)) hrefl)

theorem Path.underway (hprog : ∀ c, (prog c).Keeps I (fun _ => True) ∧ (prog c).Within (G c))
    (hR : ∀ c, ok c → ∀ s s', G c s s' → R s s') (hrefl : ∀ s, R s s)
    (htrans : ∀ s s' s'', R s s' → R s' s'' → R s s'') (h : Path prog ok p p')
    (hp : p.Good I G) (hk : p.Underway I R Q k c) : p'.Underway I R Q k c := by
  induction h with
  | refl => exact hk
  | tail hpath hstep ih =>
    obtain ⟨who, hmove, hok⟩ := hstep
    have hmid := Path.good hprog hpath hp
    exact hmove.underway hmid (fun c hc => hR c (hok c hc)) hrefl htrans ih

theorem underway_spawned {c : ι} (hrefl : ∀ s, R s s) {s : σ} {ts : List (ι × Proc σ α)}
    (h : (prog c).Ensures I R Q s s) :
    (⟨s, ts ++ [(c, prog c)]⟩ : Pool σ ι α).Underway I R Q ts.length c :=
  ⟨prog c, s, s, List.getElem?_concat_length, h, hrefl s⟩

theorem Underway.done {a : α} (h : p.Underway I R Q k c)
    (hk : p.threads[k]? = some (c, .done a)) : ∃ r s, R s p.state ∧ Q r s a := by
  obtain ⟨q, r, s, hq, hens, hs⟩ := h
  rw [hk] at hq
  cases hq
  exact ⟨r, s, hs, hens⟩

theorem Underway.last {a : α} {update : σ → σ} {next : σ → Proc σ α}
    (h : p.Underway I R Q k c) (hI : I p.state)
    (hk : p.threads[k]? = some (c, .act update next)) (hnext : next p.state = .done a) :
    Q p.state (update p.state) a := by
  obtain ⟨q, r, s, hq, hens, hs⟩ := h
  rw [hk] at hq
  cases hq
  have hlast := (hens p.state hI hs).2
  rw [hnext] at hlast
  exact hlast

/-- A call may run to its end before anything else happens. -/
theorem path_run (hc : ok c) (s : σ) (ts : List (ι × Proc σ α)) (q : Proc σ α) :
    Path prog ok ⟨s, ts ++ [(c, q)]⟩ ⟨(q.run s).2, ts ++ [(c, .done (q.run s).1)]⟩ := by
  induction q generalizing s with
  | done a => exact .refl
  | act update next ih =>
    have hk : (ts ++ [(c, Proc.act update next)])[ts.length]? = some (c, .act update next) :=
      List.getElem?_concat_length
    have hact : Move prog (some c) ⟨s, ts ++ [(c, .act update next)]⟩
        ⟨update s, ts ++ [(c, next s)]⟩ := by
      have hset : (ts ++ [(c, Proc.act update next)]).set ts.length (c, next s) =
          ts ++ [(c, next s)] := by simp
      have hmove : Move prog (some c) ⟨s, ts ++ [(c, .act update next)]⟩
          ⟨update s, (ts ++ [(c, Proc.act update next)]).set ts.length (c, next s)⟩ := .act hk
      rwa [hset] at hmove
    exact (ih s (update s)).head ⟨_, hact, fun c' hc' => Option.some.inj hc' ▸ hc⟩

theorem Path.call (hc : ok c) (h : Path prog ok p p') :
    Path prog ok p
      ⟨((prog c).run p'.state).2, p'.threads ++ [(c, .done ((prog c).run p'.state).1)]⟩ := by
  have hspawn : Move prog none p' ⟨p'.state, p'.threads ++ [(c, prog c)]⟩ := .spawn c
  have hstep : Path prog ok p' ⟨p'.state, p'.threads ++ [(c, prog c)]⟩ :=
    .single ⟨none, hspawn, fun _ hnone => by cases hnone⟩
  exact (h.trans hstep).trans (path_run hc _ _ _)

/-- Every thread that started on the way is underway; its call may count on what
held where the path began. -/
theorem Path.later_underway {Q : ι → σ → σ → α → Prop}
    (hprog : ∀ c, (prog c).Keeps I (fun _ => True) ∧ (prog c).Within (G c))
    (hR : ∀ c, ok c → ∀ s s', G c s s' → R s s')
    (hrefl : ∀ s, R s s) (htrans : ∀ s s' s'', R s s' → R s' s'' → R s s'')
    (hp : p.Good I G) (hQ : ∀ c s, R p.state s → (prog c).Ensures I R (Q c) s s)
    (h : Path prog ok p p') (hlater : p.threads.length ≤ k) {q : Proc σ α}
    (hk : p'.threads[k]? = some (c, q)) : p'.Underway I R (Q c) k c := by
  induction h generalizing k c q with
  | refl =>
    have hlt := (List.getElem?_eq_some_iff.mp hk).1
    omega
  | tail hpath hstep ih =>
    obtain ⟨who, hmove, hok⟩ := hstep
    have hgood := Path.good hprog hpath hp
    have halong := Path.along hprog hR hrefl htrans hpath hp
    have hmoves : ∀ c, who = some c → ∀ s s', G c s s' → R s s' := fun c hc => hR c (hok c hc)
    have hmove' := hmove
    cases hmove with
    | @spawn s ts c' =>
      by_cases hlt : k < ts.length
      · have hold : ts[k]? = some (c, q) := by rwa [List.getElem?_append_left hlt] at hk
        exact hmove'.underway hgood hmoves hrefl htrans (ih hlater hold)
      · rw [List.getElem?_append_right (by omega), List.getElem?_singleton] at hk
        split_ifs at hk with hzero
        have hkl : k = ts.length := by omega
        cases hk
        rw [hkl]
        exact underway_spawned hrefl (hQ _ s halong)
    | @act s ts j c' update next hj =>
      have hold : ∃ q', ts[k]? = some (c, q') := by
        by_cases hjk : j = k
        · subst hjk
          rw [List.getElem?_set_self (List.getElem?_eq_some_iff.mp hj).1] at hk
          cases hk
          exact ⟨_, hj⟩
        · rw [List.getElem?_set_ne hjk] at hk
          exact ⟨q, hk⟩
      obtain ⟨q', hq'⟩ := hold
      exact hmove'.underway hgood hmoves hrefl htrans (ih hlater hq')

/-- In a pool that started empty, every thread is underway. -/
theorem Path.all_underway {Q : ι → σ → σ → α → Prop}
    (hprog : ∀ c, (prog c).Keeps I (fun _ => True) ∧ (prog c).Within (G c))
    (hQ : ∀ c s, (prog c).Ensures I R (Q c) s s) (hR : ∀ c, ok c → ∀ s s', G c s s' → R s s')
    (hrefl : ∀ s, R s s) (htrans : ∀ s s' s'', R s s' → R s' s'' → R s s'') {s₀ : σ}
    (h₀ : I s₀) (h : Path prog ok ⟨s₀, []⟩ p) {q : Proc σ α}
    (hk : p.threads[k]? = some (c, q)) : p.Underway I R (Q c) k c :=
  Path.later_underway hprog hR hrefl htrans (good_start h₀) (fun c s _ => hQ c s) h
    (Nat.zero_le k) hk

end Paths
end Pool
