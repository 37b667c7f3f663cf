import Mathlib.Tactic

/-!
# Fallible computations that may also abort

An `Outcome` is what a call returns to its caller: a value, a reported error,
or no return at all because the call panicked. The three are kept apart so
that "returns an error" and "brings the program down" are different facts.
The inversion rules below take a successful, failed or panicking sequence of
calls apart without unfolding the calls themselves.
-/

universe u v

inductive Outcome (ε : Type v) (α : Type u) where
  | ok (value : α)
  | err (error : ε)
  | panic
  deriving DecidableEq, Repr

namespace Outcome
variable {ε : Type v} {ε' : Type*} {α β : Type u}

protected def bind (x : Outcome ε α) (f : α → Outcome ε β) : Outcome ε β :=
  match x with
  | .ok a => f a
  | .err e => .err e
  | .panic => .panic

instance : Monad (Outcome ε) where
  pure := .ok
  bind := Outcome.bind

/-- Error conversion, the `From` impl a `?` applies. -/
def mapErr (f : ε → ε') : Outcome ε α → Outcome ε' α
  | .ok a => .ok a
  | .err e => .err (f e)
  | .panic => .panic

def attempt : Outcome ε α → Outcome ε' (Except ε α)
  | .ok a => .ok (.ok a)
  | .err e => .ok (.error e)
  | .panic => .panic

/-- `Option::ok_or`. -/
def ofOption (e : ε) : Option α → Outcome ε α
  | some a => .ok a
  | none => .err e

/-- The results of `f` over a list, in order, up to its first failure. -/
def collect {ι : Type*} (f : ι → Outcome ε α) : List ι → Outcome ε (List α)
  | [] => .ok []
  | i :: is => do
    let a ← f i
    let as ← collect f is
    .ok (a :: as)

def isOk : Outcome ε α → Bool
  | .ok _ => true
  | _ => false

def Returns (x : Outcome ε α) : Prop := x ≠ .panic

instance [DecidableEq ε] [DecidableEq α] (x : Outcome ε α) : Decidable x.Returns :=
  inferInstanceAs (Decidable (x ≠ .panic))

@[simp] theorem pure_eq (a : α) : (pure a : Outcome ε α) = .ok a := rfl
@[simp] theorem ok_bind (a : α) (f : α → Outcome ε β) : (Outcome.ok a >>= f) = f a := rfl
@[simp] theorem err_bind (e : ε) (f : α → Outcome ε β) :
    (Outcome.err e >>= f) = .err e := rfl
@[simp] theorem panic_bind (f : α → Outcome ε β) :
    ((.panic : Outcome ε α) >>= f) = .panic := rfl
@[simp] theorem map_ok (f : α → β) (a : α) :
    (f <$> (.ok a : Outcome ε α)) = .ok (f a) := rfl
@[simp] theorem map_err (f : α → β) (e : ε) :
    (f <$> (.err e : Outcome ε α)) = .err e := rfl
@[simp] theorem map_panic (f : α → β) :
    (f <$> (.panic : Outcome ε α)) = .panic := rfl
@[simp] theorem mapErr_ok (f : ε → ε') (a : α) : (Outcome.ok a).mapErr f = .ok a := rfl
@[simp] theorem mapErr_err (f : ε → ε') (e : ε) :
    (Outcome.err e : Outcome ε α).mapErr f = .err (f e) := rfl
@[simp] theorem mapErr_panic (f : ε → ε') :
    (.panic : Outcome ε α).mapErr f = .panic := rfl
@[simp] theorem isOk_ok (a : α) : (Outcome.ok a : Outcome ε α).isOk = true := rfl
@[simp] theorem isOk_err (e : ε) : (Outcome.err e : Outcome ε α).isOk = false := rfl
@[simp] theorem isOk_panic : (.panic : Outcome ε α).isOk = false := rfl

theorem isOk_iff {x : Outcome ε α} : x.isOk = true ↔ ∃ a, x = .ok a := by
  cases x <;> simp

theorem bind_eq_ok {x : Outcome ε α} {f : α → Outcome ε β} {b : β} :
    x >>= f = .ok b ↔ ∃ a, x = .ok a ∧ f a = .ok b := by
  cases x <;> simp

theorem bind_eq_err {x : Outcome ε α} {f : α → Outcome ε β} {e : ε} :
    x >>= f = .err e ↔ x = .err e ∨ ∃ a, x = .ok a ∧ f a = .err e := by
  cases x <;> simp

theorem map_eq_ok {f : α → β} {x : Outcome ε α} {b : β} :
    f <$> x = .ok b ↔ ∃ a, x = .ok a ∧ f a = b := by
  cases x <;> simp

@[simp] theorem mapErr_eq_ok {f : ε → ε'} {x : Outcome ε α} {a : α} :
    x.mapErr f = .ok a ↔ x = .ok a := by
  cases x <;> simp

@[simp] theorem mapErr_eq_panic {f : ε → ε'} {x : Outcome ε α} :
    x.mapErr f = .panic ↔ x = .panic := by
  cases x <;> simp

@[simp] theorem mapErr_eq_err {f : ε → ε'} {x : Outcome ε α} {e : ε'} :
    x.mapErr f = .err e ↔ ∃ e', x = .err e' ∧ f e' = e := by
  cases x <;> simp

theorem attempt_eq_ok {x : Outcome ε α} {a : α} :
    (x.attempt : Outcome ε' (Except ε α)) = .ok (.ok a) ↔ x = .ok a := by
  cases x <;> simp [attempt]

@[simp] theorem ofOption_eq_ok {e : ε} {o : Option α} {a : α} :
    ofOption e o = .ok a ↔ o = some a := by
  cases o <;> simp [ofOption]

@[simp] theorem returns_ok (a : α) : (Outcome.ok a : Outcome ε α).Returns := by
  simp [Returns]

@[simp] theorem returns_err (e : ε) : (Outcome.err e : Outcome ε α).Returns := by
  simp [Returns]

@[simp] theorem not_returns_panic : ¬ (.panic : Outcome ε α).Returns := by
  simp [Returns]

theorem Returns.bind {x : Outcome ε α} {f : α → Outcome ε β} (hx : x.Returns)
    (hf : ∀ a, x = .ok a → (f a).Returns) : (x >>= f).Returns := by
  cases x with
  | ok a => exact hf a rfl
  | err e => simp
  | panic => exact absurd rfl hx

theorem Returns.map {x : Outcome ε α} (f : α → β) (hx : x.Returns) : (f <$> x).Returns := by
  cases x with
  | ok a => simp
  | err e => simp
  | panic => exact absurd rfl hx

theorem returns_guard {p : Prop} [Decidable p] {e : ε} {x : Outcome ε α} (h : ¬ p → x.Returns) :
    (if p then .err e else x).Returns := by
  by_cases hp : p
  · simp [hp]
  · simpa [hp] using h hp

theorem collect_returns {ι : Type*} {f : ι → Outcome ε α} {is : List ι}
    (h : ∀ i ∈ is, (f i).Returns) : (collect f is).Returns := by
  induction is with
  | nil => exact returns_ok _
  | cons i is ih =>
    refine (h i (by simp)).bind fun a _ => ?_
    exact (ih fun j hj => h j (by simp [hj])).bind fun as _ => returns_ok _

theorem collect_length {ι : Type*} {f : ι → Outcome ε α} {is : List ι} {as : List α}
    (h : collect f is = .ok as) : as.length = is.length := by
  induction is generalizing as with
  | nil => cases h; rfl
  | cons i is ih =>
    obtain ⟨a, -, h⟩ := bind_eq_ok.mp h
    obtain ⟨bs, hbs, h⟩ := bind_eq_ok.mp h
    cases h
    simp [ih hbs]

@[simp] theorem returns_mapErr {f : ε → ε'} {x : Outcome ε α} :
    (x.mapErr f).Returns ↔ x.Returns := by
  simp [Returns]

@[simp] theorem returns_ofOption (e : ε) (o : Option α) : (ofOption e o).Returns := by
  cases o <;> simp [ofOption]

end Outcome
