import Mathlib.Data.Nat.Bitwise
import Mathlib.Tactic.Common

namespace Parabix.Pablo

section Arithmetic

/-- The number of leading zeros is that of a 32-bit word. -/
def ceil_log2 (v : ℕ) : ℕ := if v - 1 = 0 then 0 else (v - 1).log2 + 1

def nearest_pow2 (v : ℕ) : ℕ := if v < 2 then 1 else 2 ^ ceil_log2 v

/-- The addition is that of 32-bit words. -/
def ceil_udiv (x y : ℕ) : ℕ := ((x - 1 ||| y - 1) + 1) % 2 ^ 32 / y

theorem le_nearest_pow2 (v : ℕ) : v ≤ nearest_pow2 v := by
  unfold nearest_pow2 ceil_log2
  split_ifs with h h0
  · omega
  · omega
  · have := Nat.lt_log2_self (n := v - 1)
    omega

theorem nearest_pow2_lt {v : ℕ} (h : 2 ≤ v) : nearest_pow2 v < 2 * v := by
  unfold nearest_pow2 ceil_log2
  rw [if_neg (by omega), if_neg (by omega), Nat.pow_succ]
  have := Nat.log2_self_le (n := v - 1) (by omega)
  omega

theorem nearest_pow2_eq_pow (v : ℕ) : ∃ t, nearest_pow2 v = 2 ^ t := by
  unfold nearest_pow2
  split_ifs
  · exact ⟨0, rfl⟩
  · exact ⟨_, rfl⟩

theorem nearest_pow2_pos (v : ℕ) : 0 < nearest_pow2 v := by
  obtain ⟨t, ht⟩ := nearest_pow2_eq_pow v
  rw [ht]
  exact Nat.two_pow_pos t

theorem or_two_pow_sub_one (x j : ℕ) : x ||| 2 ^ j - 1 = 2 ^ j * (x / 2 ^ j) + (2 ^ j - 1) := by
  apply Nat.eq_of_testBit_eq
  intro k
  have hpos := Nat.two_pow_pos j
  rw [Nat.testBit_or, Nat.testBit_two_pow_sub_one, Nat.testBit_two_pow_mul_add _ (by omega),
    Nat.testBit_two_pow_sub_one, Nat.testBit_div_two_pow]
  split_ifs with hk
  · simp [hk]
  · rw [show k - j + j = k by omega]
    simp [hk]

/-- The quotient is rounded up while the sum fits a 32-bit word. -/
theorem ceil_udiv_eq {x j : ℕ} (hx : 0 < x) (hmax : x + 2 ^ j ≤ 2 ^ 32) :
    ceil_udiv x (2 ^ j) = (x - 1) / 2 ^ j + 1 := by
  have hpos := Nat.two_pow_pos j
  have hmul : 2 ^ j * ((x - 1) / 2 ^ j) ≤ x - 1 := Nat.mul_div_le _ _
  rw [ceil_udiv, or_two_pow_sub_one, show 2 ^ j * ((x - 1) / 2 ^ j) + (2 ^ j - 1) + 1 =
    2 ^ j * ((x - 1) / 2 ^ j + 1) by rw [Nat.mul_add]; omega, Nat.mod_eq_of_lt,
    Nat.mul_div_cancel_left _ hpos]
  rw [Nat.mul_add]
  omega

end Arithmetic

/-- How a scope keeps the summary of its carries. -/
inductive SummaryKind where
  | NoSummary
  | BorrowedSummary
  | ExplicitSummary
deriving DecidableEq, Repr

/-- A scope with an advance in it. `others` is the number of its other carry states. -/
structure Scope where
  ifDepth : ℕ
  loopDepth : ℕ
  others : ℕ

def longAdvanceBreakpoint : ℕ := 64

namespace Scope

variable (s : Scope)

def nested : Prop := 0 < s.ifDepth ∨ 0 < s.loopDepth

instance : Decidable s.nested := inferInstanceAs (Decidable (_ ∨ _))

/-- The summary of the blocks of a long advance is an entry of its own. -/
def hasSummaryFrame (amount blockWidth : ℕ) : Prop :=
  longAdvanceBreakpoint ≤ amount ∧ ceil_udiv amount blockWidth ≠ 1 ∧ s.nested

instance (amount blockWidth : ℕ) : Decidable (s.hasSummaryFrame amount blockWidth) :=
  inferInstanceAs (Decidable (_ ∧ _ ∧ _))

/-- The entries of the carry state before the summary is added. -/
def stateSize (amount blockWidth : ℕ) : ℕ :=
  s.others + if s.hasSummaryFrame amount blockWidth then 2 else 1

def summaryKind (amount blockWidth : ℕ) : SummaryKind :=
  if s.nested then
    if 1 < s.stateSize amount blockWidth then .ExplicitSummary else .BorrowedSummary
  else
    .NoSummary

end Scope

/-- The blocks that the carry state of an advance has room for. -/
def required (s : Scope) (isIndexed : Bool) (amount blockWidth : ℕ) : ℕ :=
  nearest_pow2 (ceil_udiv amount blockWidth + (if 0 < s.loopDepth then 1 else 0) +
    if isIndexed then 1 else 0)

end Parabix.Pablo
