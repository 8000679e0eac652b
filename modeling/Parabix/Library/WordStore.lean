import Mathlib.Order.Lattice
import Parabix.Library.Bits
import Parabix.Library.Fields

/-!
Bits that are appended to words of a fixed width: the words that are full are stored, and the last
one is pending.
-/

namespace Parabix.Library

open BitStream

variable {w : ℕ}

/-- The bit of a sequence of words. -/
def bitAt (words : ℕ → BitVec w) (p : ℕ) : Bool := (words (p / w)).getLsbD (p % w)

def written (words : ℕ → BitVec w) (n : ℕ) : List Bool := (List.range n).map (bitAt words)

theorem written_eq_iff {words : ℕ → BitVec w} {n : ℕ} {l : List Bool} (hl : l.length = n) :
    written words n = l ↔ ∀ p < n, bitAt words p = l.getD p false := by
  constructor
  · intro h p hp
    rw [← h, List.getD_eq_getElem _ _ (by simpa [written] using hp)]
    simp [written]
  · intro h
    refine List.ext_getElem (by simp [written, hl]) fun p hp hp' ↦ ?_
    have hn : p < n := by simpa [written] using hp
    rw [← List.getD_eq_getElem l false hp', ← h p hn]
    simp [written]

theorem getLsbD_mask {n k : ℕ} (hn : n < w) (hk : k < w) :
    ((1 : BitVec w) <<< n - 1).getLsbD k = decide (k < n) := by
  have hlt : 2 ^ n < 2 ^ w := Nat.pow_lt_pow_right Nat.one_lt_two hn
  have hpos := Nat.two_pow_pos n
  have hw : 1 < 2 ^ w := by omega
  have heq : ((1 : BitVec w) <<< n - 1) = BitVec.ofNat w (2 ^ n - 1) := by
    apply BitVec.eq_of_toNat_eq
    simp [BitVec.toNat_sub, Nat.shiftLeft_eq, Nat.mod_eq_of_lt hw]
    have hsum : 2 ^ w - 1 + 2 ^ n = 2 ^ n - 1 + 2 ^ w := by omega
    rw [hsum, Nat.add_mod_right]
  rw [heq, BitVec.getLsbD_ofNat, Nat.testBit_two_pow_sub_one, decide_eq_true hk, Bool.true_and]

/-- The bits before the `n`-th one are known, and so is what is pending behind them. -/
structure Holds (X : ℕ → Bool) (n : ℕ) (dirt : ℕ → Bool) (words : ℕ → BitVec w)
    (pending : BitVec w) : Prop where
  stored : ∀ p < w * (n / w), bitAt words p = X p
  low : ∀ k < n % w, pending.getLsbD k = X (w * (n / w) + k)
  high : ∀ k < w, n % w ≤ k → pending.getLsbD k = dirt k

section Holds

variable {X C : ℕ → Bool} {n m : ℕ} {dirt : ℕ → Bool} {words : ℕ → BitVec w} {pending y : BitVec w}

theorem bitAt_of_div {p i : ℕ} (h : p / w = i) : bitAt words p = (words i).getLsbD (p % w) := by
  rw [bitAt, h]

theorem bitAt_update_of_ne {p i : ℕ} (h : p / w ≠ i) :
    bitAt (Function.update words i y) p = bitAt words p := by
  rw [bitAt, Function.update_of_ne h, bitAt]

theorem bitAt_update_self {p i : ℕ} (h : p / w = i) :
    bitAt (Function.update words i y) p = y.getLsbD (p % w) := by
  rw [bitAt_of_div h, Function.update_self]

/-- A word with the pending bits is stored. -/
theorem Holds.store (hw : 0 < w) (h : Holds X n dirt words pending) {p : ℕ} (hp : p < n) :
    bitAt (Function.update words (n / w) pending) p = X p := by
  have hn := Nat.div_add_mod n w
  have hpw := Nat.div_add_mod p w
  have hle : p / w ≤ n / w := Nat.div_le_div_right hp.le
  rcases Nat.lt_or_eq_of_le hle with hlt | heq
  · rw [bitAt_update_of_ne hlt.ne]
    refine h.stored p ?_
    have hnext := Nat.mul_le_mul_left w hlt
    rw [Nat.mul_succ] at hnext
    have hmod := Nat.mod_lt p hw
    omega
  · rw [bitAt_update_self heq, h.low _ (by rw [heq] at hpw; omega), ← heq, hpw]

/-- The pending bits are read back. -/
theorem holds_reload (hw : 0 < w) (h : ∀ p < n, bitAt words p = X p) :
    Holds X n (fun _ ↦ false) words (words (n / w) &&& ((1 : BitVec w) <<< (n % w) - 1)) := by
  have hn := Nat.div_add_mod n w
  have hmod := Nat.mod_lt n hw
  refine ⟨fun p hp ↦ h p (by omega), fun k hk ↦ ?_, fun k hk hle ↦ ?_⟩
  · have hkw : k < w := by omega
    rw [BitVec.getLsbD_and, getLsbD_mask hmod hkw, decide_eq_true hk, Bool.and_true,
      ← h _ (by omega), bitAt, mul_add_div_of_lt hkw, mul_add_mod_of_lt hkw]
  · rw [BitVec.getLsbD_and, getLsbD_mask hmod hk, decide_eq_false (by omega), Bool.and_false]

/-- At most as many bits as a word has go behind the pending ones; what does not find room there is
pending next. -/
theorem Holds.append {k : ℕ} (hw : 0 < w) (h : Holds X n dirt words pending) (hk : k ≤ w)
    (hy : ∀ i < w, y.getLsbD i = (decide (i < k) && C (n + i)))
    (hX : ∀ i < k, X (n + i) =
      (C (n + i) || (decide ((n + i) / w = n / w) && dirt ((n + i) % w)))) :
    Holds X (n + k)
      (if w ≤ n % w + k then fun i ↦ decide (n % w = 0) && C (n + i) else dirt)
      (Function.update words (n / w) (pending ||| y <<< (n % w)))
      (if w ≤ n % w + k then y >>> ((w - n % w) % w) else pending ||| y <<< (n % w)) := by
  have hn := Nat.div_add_mod n w
  have hmod := Nat.mod_lt n hw
  have hbit (j : ℕ) (hj : j < w) (hjk : j < n % w + k) :
      (pending ||| y <<< (n % w)).getLsbD j = X (w * (n / w) + j) := by
    rw [BitVec.getLsbD_or, BitVec.getLsbD_shiftLeft, decide_eq_true hj, Bool.true_and]
    by_cases hlow : j < n % w
    · rw [h.low j hlow, decide_eq_true hlow, Bool.not_true, Bool.false_and, Bool.or_false]
    · have hpos : w * (n / w) + j = n + (j - n % w) := by omega
      have hdiv : (w * (n / w) + j) / w = n / w := mul_add_div_of_lt hj
      have hmod' : (w * (n / w) + j) % w = j := mul_add_mod_of_lt hj
      rw [h.high j hj (by omega), decide_eq_false hlow, hy _ (by omega),
        decide_eq_true (show j - n % w < k by omega), hpos, hX _ (by omega), ← hpos, hdiv, hmod',
        decide_eq_true rfl]
      simp [Bool.or_comm]
  by_cases hfilled : w ≤ n % w + k
  · have hnext : (n + k) / w = n / w + 1 := by
      rw [Nat.div_eq_iff hw, Nat.succ_mul, Nat.mul_comm]
      omega
    have hnext' : (n + k) % w = n % w + k - w := by
      have hsum := Nat.div_add_mod (n + k) w
      rw [hnext, Nat.mul_succ] at hsum
      omega
    simp only [if_pos hfilled]
    refine ⟨fun p hp ↦ ?_, fun j hj ↦ ?_, fun j hj hle ↦ ?_⟩
    · rw [hnext, Nat.mul_succ] at hp
      by_cases hlt : p < w * (n / w)
      · have hne : p / w ≠ n / w := by
          have hdiv := Nat.div_lt_of_lt_mul hlt
          omega
        rw [bitAt_update_of_ne hne, h.stored p hlt]
      · obtain ⟨j, rfl⟩ := Nat.exists_eq_add_of_le (Nat.le_of_not_lt hlt)
        have hj : j < w := by omega
        rw [bitAt_update_self (mul_add_div_of_lt hj), mul_add_mod_of_lt hj,
          hbit j hj (by omega)]
    · rw [hnext'] at hj
      have hzero : n % w ≠ 0 := by omega
      have hshift : (w - n % w) % w = w - n % w := Nat.mod_eq_of_lt (by omega)
      have hpos : w * ((n + k) / w) + j = n + (w - n % w + j) := by
        rw [hnext, Nat.mul_succ]
        omega
      have hdiv : (n + (w - n % w + j)) / w ≠ n / w := by
        rw [← hpos, Nat.mul_add_div hw, hnext, Nat.add_assoc]
        exact (Nat.lt_add_of_pos_right (Nat.add_pos_left Nat.one_pos _)).ne'
      rw [BitVec.getLsbD_ushiftRight, hshift, hy _ (by omega), hpos, hX _ (by omega),
        decide_eq_true (by omega), decide_eq_false hdiv]
      simp
    · rw [hnext'] at hle
      rw [BitVec.getLsbD_ushiftRight]
      by_cases hzero : n % w = 0
      · have hshift : (w - n % w) % w = 0 := by rw [hzero, Nat.sub_zero, Nat.mod_self]
        rw [hshift, Nat.zero_add, hy j hj, decide_eq_true (by omega), decide_eq_true hzero]
      · have hshift : (w - n % w) % w = w - n % w := Nat.mod_eq_of_lt (by omega)
        rw [hshift, decide_eq_false hzero, Bool.false_and]
        by_cases hlt : w - n % w + j < w
        · rw [hy _ hlt, decide_eq_false (by omega), Bool.false_and]
        · exact BitVec.getLsbD_of_ge y _ (by omega)
  · have hsame : (n + k) / w = n / w := by
      rw [Nat.div_eq_iff hw, Nat.mul_comm]
      omega
    have hsame' : (n + k) % w = n % w + k := by
      have hsum := Nat.div_add_mod (n + k) w
      rw [hsame] at hsum
      omega
    simp only [if_neg hfilled]
    refine ⟨fun p hp ↦ ?_, fun j hj ↦ ?_, fun j hj hle ↦ ?_⟩
    · rw [hsame] at hp
      have hne : p / w ≠ n / w := by
        have hdiv := Nat.div_lt_of_lt_mul hp
        omega
      rw [bitAt_update_of_ne hne, h.stored p hp]
    · rw [hsame'] at hj
      rw [hsame]
      exact hbit j (by omega) hj
    · rw [hsame'] at hle
      rw [BitVec.getLsbD_or, BitVec.getLsbD_shiftLeft, h.high j hj (by omega), hy _ (by omega),
        decide_eq_false (show ¬ j - n % w < k by omega)]
      simp

end Holds

end Parabix.Library
