import Mathlib.Algebra.Group.Int.Defs
import Mathlib.Algebra.Group.Nat.Defs
import Mathlib.Tactic.Common

namespace Parabix.Library

/-- The ways in which a call can fail to return. -/
inductive Fault where
  /-- The program reports a fatal error and stops. -/
  | fatal (message : String)
  /-- A runtime error is thrown to the caller. -/
  | thrown (message : String)
  /-- A cell outside an allocated buffer is read or written. -/
  | memory
  /-- A signed integer operation leaves the range of `int`. -/
  | overflow
  /-- A branch marked unreachable is reached. -/
  | unreachable
  /-- A loop is cut off before it ends. -/
  | fuel
  /-- A poison value is stored or returned. -/
  | poison
deriving DecidableEq, Repr

section Except

variable {ε α β : Type}

@[simp] theorem ok_bind (a : α) (f : α → Except ε β) : (Except.ok a >>= f) = f a := rfl

@[simp] theorem error_bind (e : ε) (f : α → Except ε β) :
    (Except.error e >>= f) = .error e := rfl

@[simp] theorem pure_eq_ok (a : α) : (pure a : Except ε α) = .ok a := rfl

theorem bind_eq_ok {x : Except ε α} {f : α → Except ε β} {b : β} :
    x >>= f = .ok b ↔ ∃ a, x = .ok a ∧ f a = .ok b := by
  cases x <;> simp

end Except

end Parabix.Library
