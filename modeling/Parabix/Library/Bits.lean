import Mathlib.Algebra.Group.Int.Defs
import Mathlib.Algebra.Group.Nat.Defs
import Mathlib.Data.List.GetD
import Mathlib.Data.Nat.Bits
import Mathlib.Tactic.Common

namespace Parabix.Library

section Number

/-- The number with these binary digits, the lowest first. -/
def ofDigits (l : List Bool) : ℕ := l.foldr Nat.bit 0

theorem testBit_ofDigits (l : List Bool) (k : ℕ) : (ofDigits l).testBit k = l.getD k false := by
  induction l generalizing k with
  | nil => simp [ofDigits]
  | cons b l ih =>
    rw [ofDigits, List.foldr_cons]
    cases k with
    | zero => rw [Nat.testBit_bit_zero, List.getD_cons_zero]
    | succ k =>
      rw [Nat.testBit_bit_succ, List.getD_cons_succ]
      exact ih k

theorem ofDigits_cons (b : Bool) (l : List Bool) : ofDigits (b :: l) = b.toNat + 2 * ofDigits l := by
  rw [ofDigits, List.foldr_cons, Nat.bit_val, Nat.add_comm]
  rfl

@[simp] theorem ofDigits_nil : ofDigits [] = 0 := rfl

theorem ofDigits_lt (l : List Bool) : ofDigits l < 2 ^ l.length := by
  induction l with
  | nil => exact Nat.one_pos
  | cons b l ih =>
    rw [ofDigits_cons, List.length_cons, Nat.pow_succ]
    have := b.toNat_lt
    omega

theorem ofDigits_append (l l' : List Bool) :
    ofDigits (l ++ l') = ofDigits l + 2 ^ l.length * ofDigits l' := by
  induction l with
  | nil => simp
  | cons b l ih =>
    rw [List.cons_append, ofDigits_cons, ofDigits_cons, ih, List.length_cons, Nat.pow_succ,
      Nat.mul_comm (2 ^ l.length) 2, Nat.mul_assoc]
    omega

theorem ofDigits_replicate_false (n : ℕ) : ofDigits (List.replicate n false) = 0 := by
  induction n with
  | zero => rfl
  | succ n ih => rw [List.replicate_succ, ofDigits_cons, ih, Bool.toNat_false]

theorem ofDigits_take (l : List Bool) (n : ℕ) : ofDigits (l.take n) = ofDigits l % 2 ^ n := by
  by_cases hn : n ≤ l.length
  · have hlt := ofDigits_lt (l.take n)
    rw [List.length_take_of_le hn] at hlt
    conv_rhs => rw [← List.take_append_drop n l, ofDigits_append, List.length_take_of_le hn]
    rw [Nat.add_mul_mod_self_left, Nat.mod_eq_of_lt hlt]
  · have hle : l.length ≤ n := Nat.le_of_not_le hn
    rw [List.take_of_length_le hle, Nat.mod_eq_of_lt]
    exact Nat.lt_of_lt_of_le (ofDigits_lt l) (Nat.pow_le_pow_right (by decide) hle)

theorem ofDigits_drop (l : List Bool) (n : ℕ) : ofDigits (l.drop n) = ofDigits l / 2 ^ n := by
  by_cases hn : n ≤ l.length
  · have hlt := ofDigits_lt (l.take n)
    rw [List.length_take_of_le hn] at hlt
    conv_rhs => rw [← List.take_append_drop n l, ofDigits_append, List.length_take_of_le hn]
    rw [Nat.add_mul_div_left _ _ (Nat.pow_pos (by decide)), Nat.div_eq_of_lt hlt, Nat.zero_add]
  · have hle : l.length ≤ n := Nat.le_of_not_le hn
    rw [List.drop_of_length_le hle, Nat.div_eq_of_lt]
    · rfl
    · exact Nat.lt_of_lt_of_le (ofDigits_lt l) (Nat.pow_le_pow_right (by decide) hle)

/-- A number below a power of two has a bit from the `a`-th on iff it has as many bits. -/
theorem exists_testBit_iff {a b x : ℕ} (hx : x < 2 ^ b) :
    (∃ i, a ≤ i ∧ i < b ∧ x.testBit i = true) ↔ 2 ^ a ≤ x := by
  constructor
  · rintro ⟨i, ha, _, hi⟩
    exact Nat.le_trans (Nat.pow_le_pow_right Nat.two_pos ha) (Nat.ge_two_pow_of_testBit hi)
  · intro hle
    by_contra hnone
    push Not at hnone
    apply absurd hle
    rw [Nat.not_le]
    apply Nat.lt_pow_two_of_testBit
    intro i ha
    by_cases hi : i < b
    · exact Bool.eq_false_iff.2 (hnone i ha hi)
    · apply Nat.testBit_lt_two_pow
      exact Nat.lt_of_lt_of_le hx (Nat.pow_le_pow_right Nat.two_pos (Nat.le_of_not_lt hi))

/-- A number is as large as a power of two iff one of its bits from there on is set. -/
theorem decide_or_any (cp a k : ℕ) :
    (decide (2 ^ (a + k) ≤ cp) || (List.range' a k).any cp.testBit) = decide (2 ^ a ≤ cp) := by
  have hmono := Nat.pow_le_pow_right Nat.two_pos (Nat.le_add_right a k)
  rw [Bool.eq_iff_iff, Bool.or_eq_true, decide_eq_true_iff, decide_eq_true_iff, List.any_eq_true]
  by_cases hle : 2 ^ (a + k) ≤ cp
  · exact iff_of_true (.inl hle) (Nat.le_trans hmono hle)
  · rw [← exists_testBit_iff (a := a) (Nat.lt_of_not_le hle)]
    simp only [hle, false_or, List.mem_range'_1, and_assoc]

end Number

variable {w v n : ℕ}

section Bools

/-- The bits of a word, the lowest first. -/
def bools (x : BitVec w) : List Bool := (List.range w).map x.getLsbD

def ofBools (w : ℕ) (l : List Bool) : BitVec w := BitVec.ofNat w (ofDigits l)

@[simp] theorem length_bools (x : BitVec w) : (bools x).length = w := by simp [bools]

theorem getD_bools (x : BitVec w) (k : ℕ) : (bools x).getD k false = x.getLsbD k := by
  rw [List.getD_eq_getElem?_getD]
  by_cases hk : k < w
  · simp [bools, hk]
  · simp [bools, hk, BitVec.getLsbD_of_ge x k (by omega)]

theorem bools_eq_iff {x : BitVec w} {l : List Bool} (hl : l.length = w) :
    bools x = l ↔ ∀ k < w, x.getLsbD k = l.getD k false := by
  constructor
  · intro h k _
    rw [← h, getD_bools]
  · intro h
    apply List.ext_getElem (by simp [hl])
    intro k h1 h2
    have hk : k < w := by simpa using h1
    rw [← List.getD_eq_getElem _ false h1, ← List.getD_eq_getElem _ false h2, getD_bools, h k hk]

theorem getLsbD_ofBools (l : List Bool) {k : ℕ} (hk : k < w) :
    (ofBools w l).getLsbD k = l.getD k false := by
  rw [ofBools, BitVec.getLsbD_ofNat, decide_eq_true hk, Bool.true_and, testBit_ofDigits]

theorem bools_ofBools {l : List Bool} (hl : l.length = w) : bools (ofBools w l) = l :=
  (bools_eq_iff hl).2 fun _ hk ↦ getLsbD_ofBools l hk

theorem bools_zero (w : ℕ) : bools (0 : BitVec w) = List.replicate w false := by
  rw [bools_eq_iff (by simp)]
  intro k hk
  simp

end Bools

section Spells

/-- The low bits of a word are those of a list, and its other bits are zero. -/
def Spells (x : BitVec w) (l : List Bool) : Prop := ∀ k < w, x.getLsbD k = l.getD k false

variable {x : BitVec w} {y : BitVec w} {l q : List Bool}

theorem spells_ofBools (w : ℕ) (l : List Bool) : Spells (ofBools w l) l :=
  fun _ hk ↦ getLsbD_ofBools l hk

theorem spells_zero (n : ℕ) : Spells (0 : BitVec w) (List.replicate n false) := by
  intro k hk
  rw [List.getD_eq_getElem?_getD, List.getElem?_replicate, BitVec.ofNat_eq_ofNat,
    BitVec.getLsbD_zero]
  split_ifs <;> rfl

theorem Spells.getLsbD_of_le (h : Spells x l) {k : ℕ} (hk : l.length ≤ k) :
    x.getLsbD k = false := by
  by_cases hkw : k < w
  · rw [h k hkw, List.getD_eq_default _ _ hk]
  · exact BitVec.getLsbD_of_ge x k (by omega)

/-- A word is zero iff it spells zeros. -/
theorem Spells.eq_zero_iff (h : Spells x l) (hl : l.length ≤ w) :
    x = 0 ↔ ∀ b ∈ l, b = false := by
  constructor
  · intro hx b hb
    obtain ⟨k, hk, rfl⟩ := List.mem_iff_getElem.1 hb
    rw [← List.getD_eq_getElem _ false hk, ← h k (by omega), hx]
    exact BitVec.getLsbD_zero
  · intro hz
    apply BitVec.eq_of_getLsbD_eq
    intro k hk
    rw [h k hk, BitVec.ofNat_eq_ofNat, BitVec.getLsbD_zero]
    by_cases hkl : k < l.length
    · rw [List.getD_eq_getElem _ _ hkl]
      exact hz _ (List.getElem_mem hkl)
    · exact List.getD_eq_default _ _ (by omega)

/-- Bits are added behind the `n` bits of a word. -/
theorem Spells.append (hx : Spells x q) (hq : q.length = n) (hy : Spells y l) :
    Spells (y <<< n ||| x) (q ++ l) := by
  intro k hk
  rw [BitVec.getLsbD_or, BitVec.getLsbD_shiftLeft, hx k hk, decide_eq_true hk, Bool.true_and]
  by_cases hkn : k < n
  · rw [List.getD_append _ _ _ _ (by omega)]
    simp [hkn]
  · rw [hy (k - n) (by omega), List.getD_append_right _ _ _ _ (by omega), hq,
      List.getD_eq_default q _ (by omega)]
    simp [hkn]

theorem Spells.drop (hx : Spells x l) (hl : l.length ≤ w) (n : ℕ) :
    Spells (x >>> n) (l.drop n) := by
  intro k hk
  rw [BitVec.getLsbD_ushiftRight, List.getD_eq_getElem?_getD, List.getElem?_drop,
    ← List.getD_eq_getElem?_getD]
  by_cases hkn : n + k < w
  · exact hx (n + k) hkn
  · rw [BitVec.getLsbD_of_ge x _ (by omega), List.getD_eq_default _ _ (by omega)]

theorem Spells.setWidth (hx : Spells x l) (hl : l.length ≤ w) (v : ℕ) :
    Spells (x.setWidth v) l := by
  intro k hk
  rw [BitVec.getLsbD_setWidth, decide_eq_true hk, Bool.true_and]
  by_cases hkw : k < w
  · exact hx k hkw
  · rw [BitVec.getLsbD_of_ge x _ (by omega), List.getD_eq_default _ _ (by omega)]

end Spells

end Parabix.Library
