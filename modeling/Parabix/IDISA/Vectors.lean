import Mathlib.Algebra.Order.Monoid.Unbundled.Pow
import Mathlib.Data.Nat.Bitwise
import Mathlib.Tactic.Common

namespace Parabix.IDISA

/-- Vectors of fields; the width of the fields and their number are powers of two. -/
structure Vectors where
  logFieldWidth : ℕ
  logFields : ℕ
  fits : 2 ^ (logFieldWidth + 1) * 2 ^ logFields < 2 ^ 2 ^ (logFieldWidth + 1)

namespace Vectors

variable (v : Vectors)

def fieldWidth : ℕ := 2 ^ (v.logFieldWidth + 1)

def fieldsPerBlock : ℕ := 2 ^ v.logFields

def blockWidth : ℕ := v.fieldWidth * v.fieldsPerBlock

theorem fieldWidth_pos : 0 < v.fieldWidth := Nat.two_pow_pos _

theorem blockWidth_pos : 0 < v.blockWidth := Nat.mul_pos (Nat.two_pow_pos _) (Nat.two_pow_pos _)

theorem blockWidth_eq : v.blockWidth = 2 ^ (v.logFieldWidth + 1 + v.logFields) := by
  rw [blockWidth, fieldWidth, fieldsPerBlock, ← pow_add]

theorem and_fieldWidth (n : ℕ) : n &&& (v.fieldWidth - 1) = n % v.fieldWidth :=
  Nat.and_two_pow_sub_one_eq_mod n _

theorem and_blockWidth (n : ℕ) : n &&& (v.blockWidth - 1) = n % v.blockWidth := by
  rw [blockWidth_eq]
  exact Nat.and_two_pow_sub_one_eq_mod n _

end Vectors

end Parabix.IDISA
