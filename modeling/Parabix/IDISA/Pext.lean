import Mathlib.Tactic.Ring
import Parabix.Library.Fields

namespace Parabix.IDISA

open Library Library.BitStream

section Operations

def simd_and (a b : Stream) : Stream := fun p ↦ a p && b p

def simd_or (a b : Stream) : Stream := fun p ↦ a p || b p

def simd_not (a : Stream) : Stream := fun p ↦ !a p

def simd_select_hi (fw : ℕ) (a : Stream) : Stream := fun p ↦ decide (fw - fw / 2 ≤ p % fw) && a p

def simd_select_lo (fw : ℕ) (a : Stream) : Stream := fun p ↦ decide (p % fw < fw / 2) && a p

def simd_add (fw : ℕ) (a b : Stream) : Stream :=
  ofFields fw fun i ↦ field fw a i + field fw b i

def simd_srli (fw : ℕ) (a : Stream) (shift : ℕ) : Stream :=
  ofFields fw fun i ↦ field fw a i >>> shift

def simd_sllv (fw : ℕ) (v shifts : Stream) : Stream :=
  ofFields fw fun i ↦ field fw v i <<< field fw shifts i

def simd_srlv (fw : ℕ) (v shifts : Stream) : Stream :=
  ofFields fw fun i ↦ field fw v i >>> field fw shifts i

/-- The deletion counts of fields of twice the width. -/
def addDelcounts (fw : ℕ) (delcounts : Stream) : Stream :=
  simd_add fw (simd_select_lo fw delcounts) (simd_srli fw delcounts (fw / 2))

/-- The selected bits of every two fields are moved together. -/
def gather (fw : ℕ) (w delcounts : Stream) : Stream :=
  let shift_fwd_amts := simd_srli fw (simd_select_lo (fw * 2) delcounts) (fw / 2)
  let shift_back_amts := simd_select_lo fw (simd_select_hi (fw * 2) delcounts)
  simd_or (simd_sllv fw (simd_select_lo (fw * 2) w) shift_fwd_amts)
    (simd_srlv fw (simd_select_hi (fw * 2) w) shift_back_amts)

def pextLoop (fieldwidth fw : ℕ) (w delcounts : Stream) : Stream × Stream :=
  if 0 < fw ∧ fw < fieldwidth then
    pextLoop fieldwidth (fw * 2) (gather fw w delcounts) (addDelcounts fw delcounts)
  else
    (w, delcounts)
termination_by fieldwidth - fw

def simd_pext (fieldwidth : ℕ) (v extract_mask : Stream) : Stream :=
  let gathered := pextLoop fieldwidth 2 (simd_and extract_mask v) (simd_not extract_mask)
  simd_srlv fieldwidth gathered.1 (simd_select_lo fieldwidth gathered.2)

end Operations

section Halves

variable {h i j : ℕ} {x y : Stream}

theorem mod_lower (hj : j < h) : (h * (2 * i) + j) % (h * 2) = j := by
  rw [← Nat.mul_assoc, Nat.mul_add_mod, Nat.mod_eq_of_lt (by omega)]

theorem mod_upper (hj : j < h) : (h * (2 * i + 1) + j) % (h * 2) = h + j := by
  rw [show h * (2 * i + 1) + j = h * 2 * i + (h + j) by ring, Nat.mul_add_mod,
    Nat.mod_eq_of_lt (by omega)]

theorem field_eq_zero (hx : ∀ j < h, x (h * i + j) = false) : field h x i = 0 := by
  apply Nat.eq_of_testBit_eq
  intro j
  rw [testBit_field, Nat.zero_testBit]
  by_cases hj : j < h
  · rw [hx j hj, Bool.and_false]
  · rw [decide_eq_false hj, Bool.false_and]

theorem select_lo_lower (hj : j < h) :
    simd_select_lo (h * 2) x (h * (2 * i) + j) = x (h * (2 * i) + j) := by
  simp only [simd_select_lo, mod_lower hj, Nat.mul_div_cancel _ Nat.two_pos, hj, decide_true,
    Bool.true_and]

theorem select_lo_upper (hj : j < h) :
    simd_select_lo (h * 2) x (h * (2 * i + 1) + j) = false := by
  simp [simd_select_lo, mod_upper hj]

theorem select_hi_lower (hj : j < h) : simd_select_hi (h * 2) x (h * (2 * i) + j) = false := by
  have hlt : ¬h * 2 - h ≤ j := by omega
  simp [simd_select_hi, mod_lower hj, hlt]

theorem select_hi_upper (hj : j < h) :
    simd_select_hi (h * 2) x (h * (2 * i + 1) + j) = x (h * (2 * i + 1) + j) := by
  have hle : h * 2 - h ≤ h + j := by omega
  simp only [simd_select_hi, mod_upper hj, Nat.mul_div_cancel _ Nat.two_pos, hle, decide_true,
    Bool.true_and]

theorem field_select_lo_even : field h (simd_select_lo (h * 2) x) (2 * i) = field h x (2 * i) :=
  field_congr fun _ hj ↦ select_lo_lower hj

theorem field_select_lo_odd : field h (simd_select_lo (h * 2) x) (2 * i + 1) = 0 :=
  field_eq_zero fun _ hj ↦ select_lo_upper hj

theorem field_select_hi_even : field h (simd_select_hi (h * 2) x) (2 * i) = 0 :=
  field_eq_zero fun _ hj ↦ select_hi_lower hj

theorem field_select_hi_odd :
    field h (simd_select_hi (h * 2) x) (2 * i + 1) = field h x (2 * i + 1) :=
  field_congr fun _ hj ↦ select_hi_upper hj

/-- A field is its lower half, and its upper half above it. -/
theorem field_mul_two : field (h * 2) x i = field h x (2 * i) + 2 ^ h * field h x (2 * i + 1) := by
  rw [Nat.mul_comm, field_two_mul]

theorem field_select_lo : field (h * 2) (simd_select_lo (h * 2) x) i = field h x (2 * i) := by
  rw [field_mul_two, field_select_lo_even, field_select_lo_odd, Nat.mul_zero, Nat.add_zero]

theorem field_mul_two_shiftRight : field (h * 2) x i >>> h = field h x (2 * i + 1) := by
  rw [field_mul_two, Nat.shiftRight_eq_div_pow, Nat.add_mul_div_left _ _ (Nat.two_pow_pos h),
    Nat.div_eq_of_lt field_lt, Nat.zero_add]

theorem field_or : field h (simd_or x y) i = field h x i ||| field h y i := by
  apply Nat.eq_of_testBit_eq
  intro j
  rw [Nat.testBit_or, testBit_field, testBit_field, testBit_field, simd_or]
  cases decide (j < h) <;> simp

theorem field_and : field h (simd_and x y) i = field h x i &&& field h y i := by
  apply Nat.eq_of_testBit_eq
  intro j
  rw [Nat.testBit_and, testBit_field, testBit_field, testBit_field, simd_and]
  cases decide (j < h) <;> simp

/-- The upper halves of the fields. -/
theorem field_srli_half :
    field (h * 2) (simd_srli (h * 2) x (h * 2 / 2)) i = field h x (2 * i + 1) := by
  have hle : 2 ^ h ≤ 2 ^ (h * 2) := Nat.pow_le_pow_right Nat.two_pos (by omega)
  rw [simd_srli, field_ofFields, Nat.mul_div_cancel _ Nat.two_pos, field_mul_two_shiftRight,
    Nat.mod_eq_of_lt (Nat.lt_of_lt_of_le field_lt hle)]

theorem field_addDelcounts : field (h * 2) (addDelcounts (h * 2) x) i =
    (field h x (2 * i) + field h x (2 * i + 1)) % 2 ^ (h * 2) := by
  rw [addDelcounts, simd_add, field_ofFields, field_select_lo, field_srli_half]

/-- A lower field is shifted by the count of its upper half. -/
theorem field_shift_fwd :
    field (h * 2) (simd_srli (h * 2) (simd_select_lo (h * 2 * 2) x) (h * 2 / 2)) (2 * i) =
      field h x (2 * (2 * i) + 1) := by
  rw [field_srli_half, ← field_mul_two_shiftRight, field_select_lo_even, field_mul_two_shiftRight]

/-- An upper field is shifted by the count of its lower half. -/
theorem field_shift_back :
    field (h * 2) (simd_select_lo (h * 2) (simd_select_hi (h * 2 * 2) x)) (2 * i + 1) =
      field h x (2 * (2 * i + 1)) := by
  have hfield := field_mul_two (h := h) (x := simd_select_hi (h * 2 * 2) x) (i := 2 * i + 1)
  rw [field_select_hi_odd, field_mul_two] at hfield
  have hlow := congrArg (· % 2 ^ h) hfield
  simp only [Nat.add_mul_mod_self_left, Nat.mod_eq_of_lt field_lt] at hlow
  rw [field_select_lo, ← hlow]

theorem simd_srlv_apply {s : Stream} (hj : j < h) : simd_srlv h x s (h * i + j) =
    (decide (j + field h s i < h) && x (h * i + (j + field h s i))) := by
  have hbit := testBit_field (w := h) (x := simd_srlv h x s) (i := i) (j := j)
  rw [decide_eq_true hj, Bool.true_and] at hbit
  rw [← hbit, simd_srlv, field_ofFields, Nat.testBit_mod_two_pow, decide_eq_true hj, Bool.true_and,
    Nat.testBit_shiftRight, testBit_field, Nat.add_comm (field h s i)]

theorem simd_sllv_apply {s : Stream} (hj : j < h) : simd_sllv h x s (h * i + j) =
    (decide (field h s i ≤ j) && x (h * i + (j - field h s i))) := by
  have hbit := testBit_field (w := h) (x := simd_sllv h x s) (i := i) (j := j)
  have hlt : j - field h s i < h := by omega
  rw [decide_eq_true hj, Bool.true_and] at hbit
  rw [← hbit, simd_sllv, field_ofFields, Nat.testBit_mod_two_pow, decide_eq_true hj, Bool.true_and,
    Nat.testBit_shiftLeft, testBit_field, decide_eq_true hlt, Bool.true_and]

end Halves

section Pext

variable {h i k : ℕ} {m v w delcounts : Stream}

/-- The items of a field that the mask selects. -/
def selected (m v : Stream) (h i : ℕ) : List Bool := compress m v (h * i) h

theorem length_selected_le : (selected m v h i).length ≤ h := by
  have hlen := length_compress m v (h * i) h
  have hle := rank_add m (h * i) h
  have := rank_le (fun j ↦ m (h * i + j)) h
  rw [selected]
  omega

theorem selected_mul_two : selected m v (h * 2) i =
    selected m v h (2 * i) ++ selected m v h (2 * i + 1) := by
  rw [selected, selected, selected, show h * 2 = h + h by ring, compress_append,
    show (h + h) * i = h * (2 * i) by ring, show h * (2 * i + 1) = h * (2 * i) + h by ring]

/-- In each half the unselected bits are counted, and the selected ones of both halves meet
in the middle. -/
structure Gathered (m v : Stream) (h : ℕ) (w delcounts : Stream) : Prop where
  count (i : ℕ) : field h delcounts i = h - (selected m v h i).length
  bits (i : ℕ) : field (h * 2) w i =
    2 ^ (h - (selected m v h (2 * i)).length) * ofDigits (selected m v (h * 2) i)

theorem field_one (x : Stream) (i : ℕ) : field 1 x i = (x i).toNat := by
  rw [field, List.range_one, List.map_singleton, ofDigits_cons, ofDigits_nil, Nat.one_mul]
  rfl

theorem selected_one : selected m v 1 i = if m i then [v i] else [] := by
  rw [selected, Nat.one_mul, compress_succ]
  rfl

theorem gathered_one : Gathered m v 1 (simd_and m v) (simd_not m) where
  count i := by
    rw [field_one, selected_one, simd_not]
    cases m i <;> rfl
  bits i := by
    rw [field_mul_two, field_one, field_one, selected_mul_two, selected_one, selected_one,
      simd_and, simd_and]
    cases m (2 * i) <;> cases m (2 * i + 1) <;> simp [ofDigits_cons]

theorem Gathered.count_mul_two (hg : Gathered m v h w delcounts) (i : ℕ) :
    field (h * 2) (addDelcounts (h * 2) delcounts) i =
      h * 2 - (selected m v (h * 2) i).length := by
  have hlo := length_selected_le (m := m) (v := v) (h := h) (i := 2 * i)
  have hhi := length_selected_le (m := m) (v := v) (h := h) (i := 2 * i + 1)
  have hlt : h * 2 < 2 ^ (h * 2) := Nat.lt_two_pow_self
  rw [field_addDelcounts, hg.count, hg.count, selected_mul_two, List.length_append,
    Nat.mod_eq_of_lt (by omega)]
  omega

/-- A lower field is shifted up by the count of its upper half. -/
theorem Gathered.lower (hg : Gathered m v h w delcounts) (i : ℕ) :
    field (h * 2) (gather (h * 2) w delcounts) (2 * i) =
      2 ^ (h * 2 - (selected m v (h * 2) (2 * i)).length) *
        ofDigits (selected m v (h * 2) (2 * i)) := by
  have hdigits := ofDigits_lt (selected m v (h * 2) (2 * i))
  have hlen := length_selected_le (m := m) (v := v) (h := h * 2) (i := 2 * i)
  have hlo := length_selected_le (m := m) (v := v) (h := h) (i := 2 * (2 * i))
  have hhi := length_selected_le (m := m) (v := v) (h := h) (i := 2 * (2 * i) + 1)
  have hamount : h - (selected m v h (2 * (2 * i))).length +
      (h - (selected m v h (2 * (2 * i) + 1)).length) =
        h * 2 - (selected m v (h * 2) (2 * i)).length := by
    rw [selected_mul_two, List.length_append]
    omega
  have hlt : 2 ^ (h * 2 - (selected m v (h * 2) (2 * i)).length) *
      ofDigits (selected m v (h * 2) (2 * i)) < 2 ^ (h * 2) := by
    conv_rhs => rw [← Nat.sub_add_cancel hlen, pow_add]
    exact Nat.mul_lt_mul_of_pos_left hdigits (Nat.two_pow_pos _)
  rw [gather, field_or, simd_sllv, field_ofFields, simd_srlv, field_ofFields,
    field_select_hi_even, Nat.zero_shiftRight, Nat.zero_mod, Nat.or_zero, field_shift_fwd,
    field_select_lo_even, hg.bits, hg.count, Nat.shiftLeft_eq, Nat.mul_right_comm, ← pow_add,
    hamount, Nat.mod_eq_of_lt hlt]

/-- An upper field is shifted down by the count of its lower half. -/
theorem Gathered.upper (hg : Gathered m v h w delcounts) (i : ℕ) :
    field (h * 2) (gather (h * 2) w delcounts) (2 * i + 1) =
      ofDigits (selected m v (h * 2) (2 * i + 1)) := by
  have hdigits := ofDigits_lt (selected m v (h * 2) (2 * i + 1))
  have hlen := length_selected_le (m := m) (v := v) (h := h * 2) (i := 2 * i + 1)
  have hle := Nat.pow_le_pow_right (n := 2) Nat.two_pos hlen
  rw [gather, field_or, simd_sllv, field_ofFields, simd_srlv, field_ofFields,
    field_select_lo_odd, Nat.zero_shiftLeft, Nat.zero_mod, Nat.zero_or, field_select_hi_odd,
    field_shift_back, hg.count, hg.bits, Nat.shiftRight_eq_div_pow,
    Nat.mul_div_cancel_left _ (Nat.two_pow_pos _), Nat.mod_eq_of_lt (by omega)]

theorem Gathered.step (hg : Gathered m v h w delcounts) :
    Gathered m v (h * 2) (gather (h * 2) w delcounts) (addDelcounts (h * 2) delcounts) where
  count := hg.count_mul_two
  bits i := by
    have hlen := length_selected_le (m := m) (v := v) (h := h * 2) (i := 2 * i)
    rw [field_mul_two, hg.lower, hg.upper, selected_mul_two (h := h * 2), ofDigits_append,
      Nat.mul_add, ← Nat.mul_assoc, ← pow_add, Nat.sub_add_cancel hlen]

theorem gathered_pextLoop (k : ℕ) (hg : Gathered m v h w delcounts) (hpos : 0 < h) :
    Gathered m v (h * 2 ^ k) (pextLoop (h * 2 ^ k * 2) (h * 2) w delcounts).1
      (pextLoop (h * 2 ^ k * 2) (h * 2) w delcounts).2 := by
  induction k generalizing h w delcounts with
  | zero =>
    rw [pow_zero, Nat.mul_one, pextLoop, if_neg (by omega)]
    exact hg
  | succ k ih =>
    have hwidth : h * 2 ^ (k + 1) = h * 2 * 2 ^ k := by ring
    have hlt : h * 2 < h * 2 ^ (k + 1) * 2 := by
      have hle := Nat.le_mul_of_pos_right (h * 2) (Nat.two_pow_pos k)
      omega
    rw [pextLoop, if_pos ⟨by omega, hlt⟩, hwidth]
    exact ih hg.step (by omega)

/-- In each field the selected bits stand at the low end, and zeros above them. -/
theorem field_simd_pext (k i : ℕ) (m v : Stream) :
    field (2 ^ (k + 1)) (simd_pext (2 ^ (k + 1)) v m) i =
      ofDigits (selected m v (2 ^ (k + 1)) i) := by
  have hg := gathered_pextLoop k (gathered_one (m := m) (v := v)) Nat.one_pos
  rw [Nat.one_mul, Nat.one_mul, ← pow_succ] at hg
  have hdigits := ofDigits_lt (selected m v (2 ^ (k + 1)) i)
  have hlen := length_selected_le (m := m) (v := v) (h := 2 ^ (k + 1)) (i := i)
  have hle := Nat.pow_le_pow_right (n := 2) Nat.two_pos hlen
  have hbits := hg.bits i
  rw [← pow_succ] at hbits
  have hamount := field_select_lo (h := 2 ^ k) (i := i)
    (x := (pextLoop (2 ^ (k + 1)) 2 (simd_and m v) (simd_not m)).2)
  rw [← pow_succ, hg.count] at hamount
  rw [simd_pext, simd_srlv, field_ofFields, hamount, hbits, Nat.shiftRight_eq_div_pow,
    Nat.mul_div_cancel_left _ (Nat.two_pow_pos _), Nat.mod_eq_of_lt (by omega)]

end Pext

end Parabix.IDISA
