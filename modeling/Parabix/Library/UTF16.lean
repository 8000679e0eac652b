import Mathlib.Algebra.Group.Int.Defs
import Mathlib.Algebra.Group.Nat.Defs
import Mathlib.Tactic.Common

namespace Parabix.Library.UTF16

/-- The units of a code point. -/
def utf16 (cp : ℕ) : List ℕ :=
  if cp < 0x10000 then [cp]
  else [0xD800 + (cp - 0x10000) / 0x400, 0xDC00 + (cp - 0x10000) % 0x400]

variable {cp i : ℕ}

theorem utf16_of_lt (h : cp < 0x10000) : utf16 cp = [cp] := if_pos h

theorem utf16_of_ge (h : ¬cp < 0x10000) : utf16 cp =
    [0xD800 + (cp - 0x10000) / 0x400, 0xDC00 + (cp - 0x10000) % 0x400] := if_neg h

theorem length_utf16 (cp : ℕ) : (utf16 cp).length = if cp < 0x10000 then 1 else 2 := by
  unfold utf16
  split_ifs <;> rfl

theorem length_utf16_pos (cp : ℕ) : 0 < (utf16 cp).length := by
  rw [length_utf16]
  split_ifs <;> decide

theorem utf16_unit_lt (hcp : cp < 0x110000) {u : ℕ} (hu : u ∈ utf16 cp) : u < 2 ^ 16 := by
  unfold utf16 at hu
  split_ifs at hu <;> simp at hu <;> omega

/-- The lower surrogate has the ten low bits. -/
theorem testBit_low (h : ¬cp < 0x10000) (i : ℕ) :
    (0xDC00 + (cp - 0x10000) % 0x400).testBit i =
      if i < 10 then cp.testBit i else (55).testBit (i - 10) := by
  have hmod : (cp - 0x10000) % 0x400 = cp % 2 ^ 10 := by omega
  have hlt : cp % 2 ^ 10 < 2 ^ 10 := Nat.mod_lt _ (by decide)
  have hmark : (0xDC00 + cp % 2 ^ 10).testBit i =
      if i < 10 then (cp % 2 ^ 10).testBit i else (55).testBit (i - 10) :=
    Nat.testBit_two_pow_mul_add 55 hlt i
  rw [hmod, hmark, Nat.testBit_mod_two_pow]
  split_ifs with hi
  · rw [decide_eq_true hi, Bool.true_and]
  · rfl

/-- The upper surrogate has six bits from the tenth on, and the plane reduced by one. -/
theorem testBit_high (h : ¬cp < 0x10000) (hcp : cp < 0x110000) (i : ℕ) :
    (0xD800 + (cp - 0x10000) / 0x400).testBit i =
      if i < 6 then cp.testBit (10 + i)
      else if i < 10 then (cp / 0x10000 - 1).testBit (i - 6) else (54).testBit (i - 10) := by
  have hplane : (cp - 0x10000) / 0x400 = 2 ^ 6 * (cp / 0x10000 - 1) + cp / 2 ^ 10 % 2 ^ 6 := by
    omega
  have hlow : cp / 2 ^ 10 % 2 ^ 6 < 2 ^ 6 := Nat.mod_lt _ (by decide)
  have hlt : 2 ^ 6 * (cp / 0x10000 - 1) + cp / 2 ^ 10 % 2 ^ 6 < 2 ^ 10 := by omega
  have hmark : (0xD800 + (2 ^ 6 * (cp / 0x10000 - 1) + cp / 2 ^ 10 % 2 ^ 6)).testBit i =
      if i < 10 then (2 ^ 6 * (cp / 0x10000 - 1) + cp / 2 ^ 10 % 2 ^ 6).testBit i
      else (54).testBit (i - 10) :=
    Nat.testBit_two_pow_mul_add 54 hlt i
  rw [hplane, hmark, Nat.testBit_two_pow_mul_add _ hlow, Nat.testBit_mod_two_pow,
    Nat.testBit_div_two_pow]
  split_ifs with h10 h6 h6
  · rw [decide_eq_true h6, Bool.true_and, Nat.add_comm]
  · rfl
  · omega
  · rfl

end Parabix.Library.UTF16
