import Mathlib.Algebra.Group.Nat.Defs
import Mathlib.Data.Nat.Notation
import Mathlib.Tactic.Common

/-!
# Outcomes of a Rust call, and checked machine arithmetic

A library with no knowledge of the program under study. Two layers:

* `Outcome ε α` — the four ways a call can end as seen by its caller: it
  returns `Ok`, returns `Err`, unwinds with a panic, or is still polling when
  the poll budget it was given runs out. `?` is `bind`: everything but `ok`
  goes straight through.
* `checkedAdd`/`checkedSub`/`checkedMul` and the unchecked `addOrPanic` —
  unsigned arithmetic of a machine word of `w` bits over `ℕ`. An unchecked
  operation that overflows panics, as in the dev and test profiles; where no
  panic is reachable the release profile computes the same numbers.
-/

namespace OpenShmem

/-- How a Rust call ends. -/
inductive Outcome (ε α : Type) : Type where
  /-- it returns `Ok a` -/
  | ok (a : α)
  /-- it returns `Err e` -/
  | err (e : ε)
  /-- it unwinds -/
  | panic
  /-- its poll budget is used up and it is still waiting -/
  | pending
  deriving DecidableEq, Repr

namespace Outcome

variable {ε ε' α β : Type}

/-- `?`: continue on `ok`, pass everything else through. -/
protected def bind : Outcome ε α → (α → Outcome ε β) → Outcome ε β
  | ok a, f => f a
  | err e, _ => err e
  | panic, _ => panic
  | pending, _ => pending

instance : Monad (Outcome ε) where
  pure := ok
  bind := Outcome.bind

@[simp] theorem pure_eq (a : α) : (pure a : Outcome ε α) = ok a := rfl

@[simp] theorem ok_bind (a : α) (f : α → Outcome ε β) : (ok a >>= f) = f a := rfl

@[simp] theorem err_bind (e : ε) (f : α → Outcome ε β) : (err e >>= f) = err e := rfl

@[simp] theorem panic_bind (f : α → Outcome ε β) : (panic >>= f) = panic := rfl

@[simp] theorem pending_bind (f : α → Outcome ε β) : (pending >>= f) = pending := rfl

/-- Inversion for `bind`. -/
theorem bind_eq_ok {x : Outcome ε α} {f : α → Outcome ε β} {b : β}
    (h : (x >>= f) = ok b) : ∃ a, x = ok a ∧ f a = ok b := by
  cases x with
  | ok a => exact ⟨a, rfl, h⟩
  | err e => cases h
  | panic => cases h
  | pending => cases h

/-- `Option::ok_or`. -/
def okOr (x : Option α) (e : ε) : Outcome ε α :=
  match x with
  | some a => ok a
  | none => err e

@[simp] theorem okOr_some (a : α) (e : ε) : okOr (some a) e = ok a := rfl

@[simp] theorem okOr_none (e : ε) : (okOr none e : Outcome ε α) = err e := rfl

@[simp] theorem okOr_eq_ok {x : Option α} {e : ε} {a : α} : okOr x e = ok a ↔ x = some a := by
  cases x <;> simp [okOr]

/-- The rule for `x.ok_or(e)?`: show the rest for every value, and the error. -/
theorem okOr_bind_rule {P : Outcome ε β → Prop} {x : Option α} {e : ε} {f : α → Outcome ε β}
    (hsome : ∀ a, P (f a)) (hnone : P (err e)) : P (okOr x e >>= f) := by
  cases x with
  | some a => exact hsome a
  | none => exact hnone

/-- `Result::map_err`, on a reply that is a plain `Result`. -/
def mapErr (x : Except ε' α) (f : ε' → ε) : Outcome ε α :=
  match x with
  | .ok a => ok a
  | .error e => err (f e)

@[simp] theorem mapErr_ok (a : α) (f : ε' → ε) : mapErr (.ok a) f = ok a := rfl

@[simp] theorem mapErr_error (e : ε') (f : ε' → ε) :
    (mapErr (.error e) f : Outcome ε α) = err (f e) := rfl

/-- `collect::<Result<Vec<_>>>()`: the first failure, or all the values. -/
def collect : List (Outcome ε α) → Outcome ε (List α)
  | [] => ok []
  | x :: xs => do
    let a ← x
    let as ← collect xs
    return a :: as

/-- Nothing fails, so everything is collected. -/
theorem collect_map_ok (f : α → β) (l : List α) :
    (collect (l.map fun a => ok (f a)) : Outcome ε (List β)) = ok (l.map f) := by
  induction l with
  | nil => rfl
  | cons a l ih =>
    rw [List.map_cons, collect, ih]
    rfl

/-- The call came back to its caller, with `Ok` or with `Err`. -/
def Returned : Outcome ε α → Prop
  | ok _ => True
  | err _ => True
  | panic => False
  | pending => False

instance : DecidablePred (Returned (ε := ε) (α := α))
  | ok _ => isTrue trivial
  | err _ => isTrue trivial
  | panic => isFalse id
  | pending => isFalse id

theorem returned_iff {o : Outcome ε α} : o.Returned ↔ o ≠ panic ∧ o ≠ pending := by
  cases o <;> simp [Returned]

/-- What comes back still comes back with its value mapped. -/
theorem Returned.bind_ok {o : Outcome ε α} (h : o.Returned) (f : α → β) :
    (o >>= fun a => ok (f a)).Returned := by
  cases o with
  | ok a => exact trivial
  | err e => exact trivial
  | panic => exact h
  | pending => exact h

end Outcome

/-! ## Machine words -/

section Word

variable {w a b c : ℕ} {ε : Type}

/-- `checked_add` on a word of `w` bits. -/
def checkedAdd (w a b : ℕ) : Option ℕ := if a + b < 2 ^ w then some (a + b) else none

/-- `checked_sub`. -/
def checkedSub (a b : ℕ) : Option ℕ := if b ≤ a then some (a - b) else none

/-- `checked_mul` on a word of `w` bits. -/
def checkedMul (w a b : ℕ) : Option ℕ := if a * b < 2 ^ w then some (a * b) else none

/-- `try_from` into a word of `w` bits. -/
def tryFrom (w a : ℕ) : Option ℕ := if a < 2 ^ w then some a else none

/-- `+` on a word of `w` bits. -/
def addOrPanic (w a b : ℕ) : Outcome ε ℕ := if a + b < 2 ^ w then .ok (a + b) else .panic

/-- `!a` on a word of `w` bits. -/
def complement (w a : ℕ) : ℕ := 2 ^ w - 1 - a

@[simp] theorem checkedAdd_eq_some : checkedAdd w a b = some c ↔ a + b < 2 ^ w ∧ a + b = c := by
  unfold checkedAdd
  split <;> simp [*]

@[simp] theorem checkedAdd_eq_none : checkedAdd w a b = none ↔ 2 ^ w ≤ a + b := by
  unfold checkedAdd
  split <;> simp <;> omega

@[simp] theorem checkedSub_eq_some : checkedSub a b = some c ↔ b ≤ a ∧ a - b = c := by
  unfold checkedSub
  split <;> simp [*]

theorem checkedSub_add_left (a b : ℕ) : checkedSub (a + b) a = some b := by
  simp

@[simp] theorem checkedMul_eq_some : checkedMul w a b = some c ↔ a * b < 2 ^ w ∧ a * b = c := by
  unfold checkedMul
  split <;> simp [*]

@[simp] theorem tryFrom_eq_some : tryFrom w a = some c ↔ a < 2 ^ w ∧ a = c := by
  unfold tryFrom
  split <;> simp [*]

theorem addOrPanic_ok (h : a + b < 2 ^ w) : (addOrPanic w a b : Outcome ε ℕ) = .ok (a + b) :=
  if_pos h

theorem addOrPanic_eq_ok {n : ℕ} : (addOrPanic w a b : Outcome ε ℕ) = .ok n ↔
    a + b < 2 ^ w ∧ a + b = n := by
  rw [addOrPanic]
  split <;> simp [*]

end Word

end OpenShmem
