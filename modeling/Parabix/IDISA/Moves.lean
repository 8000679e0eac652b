import Mathlib.Data.Nat.Bitwise
import Parabix.IDISA.Pdep

namespace Parabix.IDISA

open Library Library.BitStream

section Operations

variable (fw count : ℕ)

def simd_xor (a b : Stream) : Stream := fun p ↦ a p ^^ b p

/-- The choice of single bits. -/
def simd_if (cond a b : Stream) : Stream := fun p ↦ if cond p then a p else b p

def simd_fill (x : ℕ) : Stream := ofFields fw fun _ ↦ x

def simd_sub (a b : Stream) : Stream :=
  ofFields fw fun i ↦ field fw a i + 2 ^ fw - field fw b i

def simd_popcount (a : Stream) : Stream := ofFields fw fun i ↦ pop a (fw * i) fw

/-- The fields of a table by their numbers, in vectors of `count` fields. -/
def mvmd_shuffle (table index_vector : Stream) : Stream :=
  ofFields fw fun i ↦ field fw table (field fw index_vector i % count)

/-- The bit that is the number of fields selects the second table. -/
def mvmd_shuffle2 (table0 table1 index_vector : Stream) : Stream :=
  let selectMask i := field fw index_vector i &&& count
  let idx := ofFields fw fun i ↦ field fw index_vector i - selectMask i
  ofFields fw fun i ↦
    if selectMask i = count then field fw (mvmd_shuffle fw count table1 idx) i
    else field fw (mvmd_shuffle fw count table0 idx) i

/-- The fields of `a` after the last ones of `b`, which are `shift` many. -/
def mvmd_dsll (a b : Stream) (shift : ℕ) : Stream :=
  mvmd_shuffle2 fw count b a (simd_sub fw (ofFields fw fun i ↦ i + count) (simd_fill fw shift))

def mvmd_slli (a : Stream) (shift : ℕ) : Stream :=
  ofFields fw fun i ↦ if i < shift then 0 else field fw a (i - shift)

def mvmd_srli (a : Stream) (shift : ℕ) : Stream :=
  ofFields fw fun i ↦ if i + shift < count then field fw a (i + shift) else 0

/-- A shift by all fields gives a poison value. -/
def mvmd_sll (poison value : Stream) (shift : ℕ) : Stream :=
  if shift < count then mvmd_slli fw value shift else poison

def mvmd_srl (poison value : Stream) (shift : ℕ) : Stream :=
  if shift < count then mvmd_srli fw count value shift else poison

def simd_eq (a b : Stream) : Stream :=
  ofFields fw fun i ↦ if field fw a i = field fw b i then 2 ^ fw - 1 else 0

/-- Fields rotated by their amounts, which are reduced by a mask. -/
def simd_rotl (v rotates : Stream) : Stream :=
  let shft := ofFields fw fun i ↦ (fw - 1) &&& field fw rotates i
  let fwd := simd_sllv fw v shft
  let back := simd_srlv fw v (ofFields fw fun i ↦ (fw - 1) &&& (fw - field fw shft i))
  simd_or fwd back

def partialSumLoop (move : ℕ) (partial_sum : Stream) : Stream :=
  if 0 < move ∧ move < count then
    partialSumLoop (move * 2) (simd_add fw partial_sum (mvmd_slli fw partial_sum move))
  else
    partial_sum
termination_by count - move

def hsimd_partial_sum (a : Stream) : Stream := partialSumLoop fw count 1 a

end Operations

section Fields

variable {fw t i shift x : ℕ} {a b m : Stream}

/-- Fields with room for the bits of a block have room for those of two. -/
theorem two_mul_le {e : ℕ} (hfits : 2 ^ (e + 1) * 2 ^ t < 2 ^ 2 ^ (e + 1)) :
    2 ^ (e + 1) * 2 ^ t + 2 ^ (e + 1) * 2 ^ t ≤ 2 ^ 2 ^ (e + 1) := by
  rw [← pow_add] at hfits ⊢
  have hexp := (Nat.pow_lt_pow_iff_right (by decide)).1 hfits
  calc 2 ^ (e + 1 + t) + 2 ^ (e + 1 + t) = 2 ^ (e + 1 + t + 1) := by ring
    _ ≤ 2 ^ 2 ^ (e + 1) := Nat.pow_le_pow_right Nat.two_pos hexp

theorem field_fill (hx : x < 2 ^ fw) : field fw (simd_fill fw x) i = x := by
  rw [simd_fill, field_ofFields, Nat.mod_eq_of_lt hx]

theorem field_shuffle {count : ℕ} {index : Stream} :
    field fw (mvmd_shuffle fw count a index) i = field fw a (field fw index i % count) := by
  rw [mvmd_shuffle, field_ofFields, Nat.mod_eq_of_lt field_lt]

/-- A number below twice the number of fields is one of a field of the two tables. -/
theorem field_shuffle2 {index : Stream} (hx : field fw index i = x) (hlt : x < 2 ^ t + 2 ^ t) :
    field fw (mvmd_shuffle2 fw (2 ^ t) a b index) i =
      if x < 2 ^ t then field fw a x else field fw b (x - 2 ^ t) := by
  have hindex : x < 2 ^ fw := hx ▸ field_lt
  simp only [mvmd_shuffle2, field_ofFields, field_shuffle, hx]
  by_cases hlow : x < 2 ^ t
  · have hnone : x &&& 2 ^ t = 0 := by
      rw [Nat.and_two_pow, Nat.testBit_lt_two_pow hlow, Bool.toNat_false, Nat.zero_mul]
    have hne : (0 : ℕ) ≠ 2 ^ t := (Nat.two_pow_pos t).ne
    rw [hnone, if_neg hne, if_pos hlow, Nat.sub_zero, Nat.mod_eq_of_lt hindex,
      Nat.mod_eq_of_lt hlow, Nat.mod_eq_of_lt field_lt]
  · obtain ⟨y, rfl⟩ := Nat.exists_eq_add_of_le (Nat.le_of_not_lt hlow)
    have hy : y < 2 ^ t := by omega
    have hbit : (2 ^ t + y) &&& 2 ^ t = 2 ^ t := by
      rw [Nat.and_two_pow, Nat.testBit_two_pow_add_eq, Nat.testBit_lt_two_pow hy, Bool.not_false,
        Bool.toNat_true, Nat.one_mul]
    have hyfw : y < 2 ^ fw := by omega
    rw [hbit, if_pos rfl, if_neg hlow, Nat.add_sub_cancel_left, Nat.mod_eq_of_lt hyfw,
      Nat.mod_eq_of_lt hy, Nat.mod_eq_of_lt field_lt]

/-- The fields of two vectors, one after the other, from one of the first on. -/
theorem field_dsll (hi : i < 2 ^ t) (hshift : shift ≤ 2 ^ t) (hwidth : 2 ^ t + 2 ^ t ≤ 2 ^ fw) :
    field fw (mvmd_dsll fw (2 ^ t) a b shift) i =
      if i < shift then field fw b (2 ^ t - shift + i) else field fw a (i - shift) := by
  have hindex : field fw (simd_sub fw (ofFields fw fun i ↦ i + 2 ^ t) (simd_fill fw shift)) i =
      i + 2 ^ t - shift := by
    rw [simd_sub, field_ofFields, field_ofFields, field_fill (by omega),
      Nat.mod_eq_of_lt (show i + 2 ^ t < 2 ^ fw by omega),
      show i + 2 ^ t + 2 ^ fw - shift = i + 2 ^ t - shift + 2 ^ fw by omega, Nat.add_mod_right,
      Nat.mod_eq_of_lt (by omega)]
  rw [mvmd_dsll, field_shuffle2 hindex (by omega)]
  by_cases hlow : i < shift
  · rw [if_pos hlow, if_pos (by omega)]
    congr 1
    omega
  · rw [if_neg hlow, if_neg (by omega)]
    congr 1
    omega

theorem field_slli : field fw (mvmd_slli fw a shift) i =
    if i < shift then 0 else field fw a (i - shift) := by
  rw [mvmd_slli, field_ofFields]
  split_ifs
  · exact Nat.zero_mod _
  · exact Nat.mod_eq_of_lt field_lt

theorem field_srli {count : ℕ} : field fw (mvmd_srli fw count a shift) i =
    if i + shift < count then field fw a (i + shift) else 0 := by
  rw [mvmd_srli, field_ofFields]
  split_ifs
  · exact Nat.mod_eq_of_lt field_lt
  · exact Nat.zero_mod _

theorem apply_of_field_eq_zero {j : ℕ} (h : field fw a i = 0) (hj : j < fw) :
    a (fw * i + j) = false := by
  have hbit := congrArg (·.testBit j) h
  simpa only [testBit_field, decide_eq_true hj, Bool.true_and, Nat.zero_testBit] using hbit

theorem simd_eq_apply {j : ℕ} (hj : j < fw) :
    simd_eq fw a b (fw * i + j) = decide (field fw a i = field fw b i) := by
  rw [simd_eq, ofFields, mul_add_div_of_lt hj, mul_add_mod_of_lt hj]
  split_ifs with h
  · rw [Nat.testBit_two_pow_sub_one, decide_eq_true hj, decide_eq_true h]
  · rw [Nat.zero_testBit, decide_eq_false h]

/-- The bit that was below by the amount, or that was rotated out at the top. -/
theorem simd_rotl_apply {j r e : ℕ} {rotates : Stream} (hfw : fw = 2 ^ e) (hj : j < fw)
    (hr : field fw rotates i = r) (hlt : r < fw) :
    simd_rotl fw a rotates (fw * i + j) =
      if r ≤ j then a (fw * i + (j - r)) else a (fw * i + (j + fw - r)) := by
  have hand (n : ℕ) : (fw - 1) &&& n = n % fw := by
    rw [Nat.and_comm, hfw, Nat.and_two_pow_sub_one_eq_mod]
  have hfield (n : ℕ) : n % fw % 2 ^ fw = n % fw :=
    Nat.mod_eq_of_lt ((Nat.mod_lt n (by omega)).trans Nat.lt_two_pow_self)
  simp only [simd_rotl, simd_or, simd_sllv_apply hj, simd_srlv_apply hj, field_ofFields, hand,
    hfield, hr, Nat.mod_eq_of_lt hlt, Nat.mod_eq_of_lt (hlt.trans Nat.lt_two_pow_self)]
  by_cases hzero : r = 0
  · simp [hzero, hj]
  · rw [Nat.mod_eq_of_lt (show fw - r < fw by omega)]
    split_ifs with hle
    · rw [decide_eq_true hle, decide_eq_false (by omega), Bool.true_and, Bool.false_and,
        Bool.or_false]
    · rw [decide_eq_false hle, decide_eq_true (by omega), Bool.false_and, Bool.true_and,
        Bool.false_or, Nat.add_sub_assoc hlt.le]

/-- Every field has the sum of the last `move` fields up to its own, as far as it fits. -/
theorem partialSumLoop_fields {count move i : ℕ} {S : ℕ → ℕ} {sums : Stream} (hmove : 0 < move)
    (hmono : Monotone S)
    (hsums : ∀ i < count, field fw sums i = (S (i + 1) - S (i + 1 - move)) % 2 ^ fw)
    (hi : i < count) :
    field fw (partialSumLoop fw count move sums) i = (S (i + 1) - S 0) % 2 ^ fw := by
  rw [partialSumLoop]
  split_ifs with hloop
  · refine partialSumLoop_fields (by omega) hmono (fun i hi ↦ ?_) hi
    rw [simd_add, field_ofFields, field_slli, hsums i hi]
    by_cases hlow : i < move
    · rw [if_pos hlow, show i + 1 - move = i + 1 - move * 2 by omega, Nat.add_zero, Nat.mod_mod]
    · have hbefore : S (i + 1 - move * 2) ≤ S (i + 1 - move) := hmono (by omega)
      have hafter : S (i + 1 - move) ≤ S (i + 1) := hmono (by omega)
      rw [if_neg hlow, hsums (i - move) (by omega), show i - move + 1 = i + 1 - move by omega,
        show i + 1 - move - move = i + 1 - move * 2 by omega, ← Nat.add_mod]
      congr 1
      omega
  · rw [hsums i hi, show i + 1 - move = 0 by omega]
termination_by count - move

/-- The ones of all fields up to the `i`-th. -/
theorem field_hsimd_partial_sum {count : ℕ} (hfits : fw * count < 2 ^ fw) (hi : i < count) :
    field fw (hsimd_partial_sum fw count (simd_popcount fw m)) i = rank m (fw * (i + 1)) := by
  have hsum := @partialSumLoop_fields fw _ _ _ (fun i ↦ rank m (fw * i)) (simd_popcount fw m)
    Nat.one_pos (fun a b hab ↦ rank_mono m (Nat.mul_le_mul_left fw hab)) (fun i _ ↦ ?_) hi
  · have htop : rank m (fw * (i + 1)) < 2 ^ fw :=
      ((rank_le m _).trans (Nat.mul_le_mul_left fw hi)).trans_lt hfits
    rwa [Nat.mul_zero, rank_zero, Nat.sub_zero, Nat.mod_eq_of_lt htop] at hsum
  · rw [simd_popcount, field_ofFields, Nat.add_sub_cancel, Nat.mul_succ, rank_add_pop,
      Nat.add_sub_cancel_left]

end Fields

section Join

variable {fw o i j k : ℕ} {b : Bool} {x y : Stream}

theorem apply_of_field (h : field fw x i = field fw y k) (hj : j < fw) :
    x (fw * i + j) = y (fw * k + j) := by
  have hbit := congrArg (·.testBit j) h
  simpa only [testBit_field, decide_eq_true hj, Bool.true_and] using hbit

/-- A field at an offset is the upper part of one field, and the lower part of the next one above
it. At the offset zero it is one field twice. -/
theorem join_apply {lo hi shift_lo shift_hi : Stream} (hj : j < fw)
    (hshift_lo : field fw shift_lo i = o % fw)
    (hshift_hi : field fw shift_hi i = (fw - o % fw) % fw)
    (hlo : o % fw + j < fw → lo (fw * i + (o % fw + j)) = b)
    (hhi : fw ≤ o % fw + j → hi (fw * i + (o % fw + j - fw)) = b)
    (hzero : o % fw = 0 → hi (fw * i + j) = b) :
    simd_or (simd_srlv fw lo shift_lo) (simd_sllv fw hi shift_hi) (fw * i + j) = b := by
  have hmod : o % fw < fw := Nat.mod_lt o (by omega)
  rw [simd_or, simd_srlv_apply hj, simd_sllv_apply hj, hshift_lo, hshift_hi, Nat.add_comm j]
  by_cases hr : o % fw = 0
  · have hlo := hlo (by omega)
    rw [hr, Nat.zero_add] at hlo
    rw [hr, Nat.zero_add, Nat.sub_zero, Nat.mod_self, Nat.sub_zero, hlo, hzero hr,
      decide_eq_true hj, decide_eq_true (Nat.zero_le j), Bool.true_and, Bool.or_self]
  · rw [Nat.mod_eq_of_lt (show fw - o % fw < fw by omega)]
    by_cases hin : o % fw + j < fw
    · rw [hlo hin, decide_eq_true hin, decide_eq_false (by omega), Bool.true_and, Bool.false_and,
        Bool.or_false]
    · rw [decide_eq_false hin, Bool.false_and, Bool.false_or, decide_eq_true (by omega),
        Bool.true_and, ← hhi (by omega)]
      congr 2
      omega

end Join

end Parabix.IDISA
