import Mathlib.Tactic.Ring
import Parabix.Library.Bits
import Parabix.Library.Spread

namespace Parabix.Library.BitStream

variable {w i j p : ℕ} {x y m : Stream}

/-- The number in the `i`-th field of `w` bits. -/
def field (w : ℕ) (x : Stream) (i : ℕ) : ℕ := ofDigits ((List.range w).map fun j ↦ x (w * i + j))

/-- The low `w` bits of the numbers, one after the other. -/
def ofFields (w : ℕ) (f : ℕ → ℕ) : Stream := fun p ↦ (f (p / w)).testBit (p % w)

section Field

theorem mul_add_div_of_lt (hj : j < w) : (w * i + j) / w = i := by
  rw [Nat.mul_add_div (by omega), Nat.div_eq_of_lt hj, Nat.add_zero]

theorem mul_add_mod_of_lt (hj : j < w) : (w * i + j) % w = j := by
  rw [Nat.mul_add_mod, Nat.mod_eq_of_lt hj]

theorem testBit_field : (field w x i).testBit j = (decide (j < w) && x (w * i + j)) := by
  rw [field, testBit_ofDigits]
  by_cases hj : j < w
  · rw [List.getD_eq_getElem _ _ (by simpa using hj)]
    simp [hj]
  · rw [List.getD_eq_default _ _ (by simpa using hj)]
    simp [hj]

theorem field_lt : field w x i < 2 ^ w := by
  have h := ofDigits_lt ((List.range w).map fun j ↦ x (w * i + j))
  rwa [List.length_map, List.length_range] at h

theorem field_congr (h : ∀ j < w, x (w * i + j) = y (w * i + j)) : field w x i = field w y i := by
  apply Nat.eq_of_testBit_eq
  intro j
  rw [testBit_field, testBit_field]
  by_cases hj : j < w
  · rw [h j hj]
  · rw [decide_eq_false hj, Bool.false_and, Bool.false_and]

theorem field_ofFields (f : ℕ → ℕ) : field w (ofFields w f) i = f i % 2 ^ w := by
  apply Nat.eq_of_testBit_eq
  intro j
  rw [testBit_field, Nat.testBit_mod_two_pow, ofFields]
  by_cases hj : j < w
  · rw [mul_add_div_of_lt hj, mul_add_mod_of_lt hj]
  · rw [decide_eq_false hj, Bool.false_and, Bool.false_and]

/-- A field of two halves. -/
theorem field_two_mul (w : ℕ) (x : Stream) (i : ℕ) :
    field (2 * w) x i = field w x (2 * i) + 2 ^ w * field w x (2 * i + 1) := by
  have hlow (j : ℕ) : (w + w) * i + j = w * (2 * i) + j := by ring
  have hhigh (j : ℕ) : (w + w) * i + (w + j) = w * (2 * i + 1) + j := by ring
  rw [field, Nat.two_mul, List.range_add, List.map_append, ofDigits_append, List.length_map,
    List.length_range, List.map_map, field, field]
  simp only [Function.comp_def, hhigh]
  simp only [hlow]

end Field

end Parabix.Library.BitStream
