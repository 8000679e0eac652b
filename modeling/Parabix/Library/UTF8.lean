import Mathlib.Algebra.Group.Int.Defs
import Mathlib.Algebra.Group.Nat.Defs
import Mathlib.Tactic.Common

namespace Parabix.Library.UTF8

/-- The bytes of a code point. -/
def utf8 (cp : ℕ) : List ℕ :=
  if cp < 0x80 then
    [cp]
  else if cp < 0x800 then
    [0xC0 + cp / 64, 0x80 + cp % 64]
  else if cp < 0x10000 then
    [0xE0 + cp / 64 ^ 2, 0x80 + cp / 64 % 64, 0x80 + cp % 64]
  else
    [0xF0 + cp / 64 ^ 3, 0x80 + cp / 64 ^ 2 % 64, 0x80 + cp / 64 % 64, 0x80 + cp % 64]

/-- These are the bytes of a character of Lean. -/
theorem utf8EncodeChar_eq (c : Char) :
    (String.utf8EncodeChar c).map UInt8.toNat = utf8 c.toNat := by
  have hmax : c.toNat < 0x110000 := by
    obtain h | h := c.valid
    · exact Nat.lt_trans h (by decide)
    · exact h.2
  rw [String.utf8EncodeChar, utf8]
  change c.val.toNat < _ at hmax
  rw [show c.toNat = c.val.toNat from rfl]
  generalize c.val.toNat = v at *
  split_ifs <;> simp [UInt8.toNat_ofNat'] <;> omega

/-- How many bytes a code point takes. -/
def width (cp : ℕ) : ℕ :=
  if cp < 0x80 then 1 else if cp < 0x800 then 2 else if cp < 0x10000 then 3 else 4

/-- The mark of the first byte. -/
def lead : ℕ → ℕ
  | 1 => 0
  | 2 => 0xC0
  | 3 => 0xE0
  | _ => 0xF0

/-- The last `j` bytes. -/
def continuation : ℕ → ℕ → List ℕ
  | 0, _ => []
  | j + 1, cp => (0x80 + cp / 64 ^ j % 64) :: continuation j cp

theorem utf8_eq (cp : ℕ) : utf8 cp =
    (lead (width cp) + cp / 64 ^ (width cp - 1)) :: continuation (width cp - 1) cp := by
  unfold utf8 width
  split_ifs <;> simp [lead, continuation]

theorem width_pos (cp : ℕ) : 0 < width cp := by
  unfold width
  split_ifs <;> decide

theorem width_le (cp : ℕ) : width cp ≤ 4 := by
  unfold width
  split_ifs <;> decide

theorem width_mono {a b : ℕ} (h : a ≤ b) : width a ≤ width b := by
  unfold width
  split_ifs <;> omega

/-- The last bytes depend on the last digits alone. -/
theorem continuation_mod (j : ℕ) {a b : ℕ} (h : a % 64 ^ j = b % 64 ^ j) :
    continuation j a = continuation j b := by
  induction j with
  | zero => rfl
  | succ j ih =>
    have hlow : a % 64 ^ j = b % 64 ^ j := by
      rw [← Nat.mod_mul_right_mod a (64 ^ j) 64, ← Nat.mod_mul_right_mod b (64 ^ j) 64,
        ← Nat.pow_succ, h]
    have hdigit : a / 64 ^ j % 64 = b / 64 ^ j % 64 := by
      rw [← Nat.mod_mul_right_div_self, ← Nat.mod_mul_right_div_self, ← Nat.pow_succ, h]
    rw [continuation, continuation, hdigit, ih hlow]

section Units

variable {cp i d : ℕ}

theorem length_continuation (j cp : ℕ) : (continuation j cp).length = j := by
  induction j with
  | zero => rfl
  | succ j ih => rw [continuation, List.length_cons, ih]

theorem length_utf8 (cp : ℕ) : (utf8 cp).length = width cp := by
  rw [utf8_eq, List.length_cons, length_continuation, Nat.sub_add_cancel (width_pos cp)]

theorem getElem?_continuation {j d : ℕ} (hd : d < j) :
    (continuation j cp)[d]? = some (0x80 + cp / 64 ^ (j - 1 - d) % 64) := by
  induction j generalizing d with
  | zero => exact absurd hd (Nat.not_lt_zero d)
  | succ j ih =>
    cases d with
    | zero => rw [continuation, List.getElem?_cons_zero, Nat.add_sub_cancel, Nat.sub_zero]
    | succ d =>
      rw [continuation, List.getElem?_cons_succ, ih (by omega)]
      rw [show j - 1 - d = j + 1 - 1 - (d + 1) by omega]

theorem getElem?_utf8_zero (cp : ℕ) :
    (utf8 cp)[0]? = some (lead (width cp) + cp / 64 ^ (width cp - 1)) := by
  rw [utf8_eq, List.getElem?_cons_zero]

theorem getElem?_utf8_succ (hd : d + 1 < width cp) :
    (utf8 cp)[d + 1]? = some (0x80 + cp / 64 ^ (width cp - 1 - (d + 1)) % 64) := by
  rw [utf8_eq, List.getElem?_cons_succ, getElem?_continuation (by omega)]
  rw [show width cp - 1 - 1 - d = width cp - 1 - (d + 1) by omega]

/-- The low six bits of a later byte are those of a digit of the code point. -/
theorem testBit_suffix (cp j i : ℕ) :
    (0x80 + cp / 64 ^ j % 64).testBit i = if i < 6 then cp.testBit (6 * j + i) else i == 7 := by
  have hlt : cp / 64 ^ j % 64 < 2 ^ 6 := Nat.mod_lt _ (by decide)
  have hmark : (0x80 + cp / 64 ^ j % 64).testBit i =
      if i < 6 then (cp / 64 ^ j % 64).testBit i else (2).testBit (i - 6) :=
    Nat.testBit_two_pow_mul_add 2 hlt i
  rw [hmark, show 64 = 2 ^ 6 from rfl, ← Nat.pow_mul, Nat.testBit_mod_two_pow,
    Nat.testBit_div_two_pow]
  split_ifs with hi
  · rw [decide_eq_true hi, Bool.true_and, Nat.add_comm]
  · obtain ⟨k, rfl⟩ := Nat.exists_eq_add_of_le (Nat.le_of_not_lt hi)
    rw [Nat.add_sub_cancel_left, Bool.eq_iff_iff, beq_iff_eq]
    rcases k with _ | _ | k
    · exact iff_of_false (by decide) (by decide)
    · exact iff_of_true rfl rfl
    · exact iff_of_false (by simp [Nat.testBit_succ]) (by omega)

/-- The low bits of the first byte are the highest of the code point. -/
theorem testBit_lead {w free m : ℕ} (hw : lead w = 2 ^ free * m)
    (hcp : cp / 64 ^ (w - 1) < 2 ^ free) (i : ℕ) :
    (lead w + cp / 64 ^ (w - 1)).testBit i =
      if i < free then cp.testBit (6 * (w - 1) + i) else m.testBit (i - free) := by
  rw [hw, Nat.testBit_two_pow_mul_add m hcp, show 64 = 2 ^ 6 from rfl, ← Nat.pow_mul,
    Nat.testBit_div_two_pow, Nat.add_comm i]

/-- The first byte has a mark above the bits that it takes from the code point. -/
theorem lead_spec (hcp : cp < 2 ^ 21) : ∃ free m, lead (width cp) = 2 ^ free * m ∧
    cp / 64 ^ (width cp - 1) < 2 ^ free ∧ (width cp = 1 ∧ free = 7 ∧ m = 0 ∨
      width cp = 2 ∧ free = 5 ∧ m = 6 ∨ width cp = 3 ∧ free = 4 ∧ m = 14 ∨
      width cp = 4 ∧ free = 3 ∧ m = 30) := by
  unfold width
  split_ifs
  · exact ⟨7, 0, rfl, by omega, by simp⟩
  · exact ⟨5, 6, rfl, by omega, by simp⟩
  · exact ⟨4, 14, rfl, by omega, by simp⟩
  · exact ⟨3, 30, rfl, by omega, by simp⟩

/-- The bits of a code point from the width of its class on are zero. -/
theorem testBit_of_width (hcp : cp < 2 ^ 21)
    (hi : [7, 11, 16, 21].getD (width cp - 1) 0 ≤ i) : cp.testBit i = false := by
  apply Nat.testBit_lt_two_pow
  refine Nat.lt_of_lt_of_le ?_ (Nat.pow_le_pow_right Nat.two_pos hi)
  unfold width
  split_ifs <;> simp <;> omega

theorem utf8_byte_lt (hcp : cp < 2 ^ 21) {b : ℕ} (hb : b ∈ utf8 cp) : b < 2 ^ 8 := by
  unfold utf8 at hb
  split_ifs at hb <;> simp at hb <;> omega

/-- The class of a byte tells whether it is the first one, and of how many. -/
theorem byte_class (hcp : cp < 2 ^ 21) (hd : d < width cp) :
    let b := (utf8 cp).getD d 0
    d = 0 ∧ width cp = 1 ∧ b < 0x80 ∨ d = 0 ∧ width cp = 2 ∧ 0xC0 ≤ b ∧ b < 0xE0 ∨
      d = 0 ∧ width cp = 3 ∧ 0xE0 ≤ b ∧ b < 0xF0 ∨ d = 0 ∧ width cp = 4 ∧ 0xF0 ≤ b ∧ b < 0xF8 ∨
      0 < d ∧ 0x80 ≤ b ∧ b < 0xC0 := by
  unfold width at hd ⊢
  unfold utf8
  split_ifs at hd ⊢ <;> rcases d with _ | _ | _ | _ | d <;> simp at hd ⊢ <;> omega

theorem utf8_of_width_one (hw : width cp = 1) : utf8 cp = [cp] ∧ cp < 0x80 := by
  have hlt : cp < 0x80 := by
    unfold width at hw
    split_ifs at hw <;> omega
  exact ⟨if_pos hlt, hlt⟩

theorem utf8_of_width_two (hw : width cp = 2) :
    utf8 cp = [0xC0 + cp / 64, 0x80 + cp % 64] ∧ 0x80 ≤ cp ∧ cp < 0x800 := by
  have hrange : 0x80 ≤ cp ∧ cp < 0x800 := by
    unfold width at hw
    split_ifs at hw <;> omega
  exact ⟨by rw [utf8, if_neg (by omega), if_pos hrange.2], hrange⟩

theorem utf8_of_width_three (hw : width cp = 3) :
    utf8 cp = [0xE0 + cp / 64 ^ 2, 0x80 + cp / 64 % 64, 0x80 + cp % 64] ∧
      0x800 ≤ cp ∧ cp < 0x10000 := by
  have hrange : 0x800 ≤ cp ∧ cp < 0x10000 := by
    unfold width at hw
    split_ifs at hw <;> omega
  exact ⟨by rw [utf8, if_neg (by omega), if_neg (by omega), if_pos hrange.2], hrange⟩

theorem utf8_of_width_four (hw : width cp = 4) :
    utf8 cp = [0xF0 + cp / 64 ^ 3, 0x80 + cp / 64 ^ 2 % 64, 0x80 + cp / 64 % 64, 0x80 + cp % 64] ∧
      0x10000 ≤ cp := by
  have hle : 0x10000 ≤ cp := by
    unfold width at hw
    split_ifs at hw <;> omega
  exact ⟨by rw [utf8, if_neg (by omega), if_neg (by omega), if_neg (by omega)], hle⟩

/-- The code points that a text holds, which are not surrogates. -/
def IsScalar (cp : ℕ) : Prop := cp < 0x110000 ∧ ¬(0xD800 ≤ cp ∧ cp < 0xE000)

instance : Decidable (IsScalar cp) := inferInstanceAs (Decidable (_ ∧ _))

end Units

end Parabix.Library.UTF8
