import Mathlib.Data.List.Sort
import Mathlib.Data.Nat.Bitwise
import Mathlib.Tactic.Common

namespace Parabix.Library

/-- The place of the lowest set bit. -/
def countForwardZeroes (n : ℕ) : ℕ :=
  if n = 0 then 0 else if n % 2 = 1 then 0 else countForwardZeroes (n / 2) + 1
termination_by n
decreasing_by omega

def resetLowestBit (n : ℕ) : ℕ := n &&& (n - 1)

section LowestBit

variable {n j : ℕ}

theorem eq_lowestBit (h : n ≠ 0) :
    ∃ q, n = 2 ^ (countForwardZeroes n + 1) * q + 2 ^ countForwardZeroes n := by
  induction n using Nat.strongRecOn with
  | ind n ih =>
    rw [countForwardZeroes, if_neg h]
    split_ifs with hodd
    · exact ⟨n / 2, by omega⟩
    · obtain ⟨q, hq⟩ := ih (n / 2) (by omega) (by omega)
      refine ⟨q, ?_⟩
      rw [pow_succ 2 (countForwardZeroes (n / 2) + 1), Nat.mul_assoc, Nat.mul_left_comm,
        pow_succ 2 (countForwardZeroes (n / 2)), Nat.mul_comm _ 2] at *
      omega

theorem testBit_eq_of_lowestBit {t q : ℕ} :
    (2 ^ (t + 1) * q + 2 ^ t).testBit j =
      if j < t + 1 then decide (t = j) else q.testBit (j - (t + 1)) := by
  rw [Nat.testBit_two_pow_mul_add _ (Nat.pow_lt_pow_right Nat.one_lt_two (Nat.lt_succ_self t)),
    Nat.testBit_two_pow]

theorem testBit_countForwardZeroes (h : n ≠ 0) : n.testBit (countForwardZeroes n) = true := by
  obtain ⟨q, hq⟩ := eq_lowestBit h
  generalize countForwardZeroes n = t at *
  rw [hq, testBit_eq_of_lowestBit, if_pos (Nat.lt_succ_self t), decide_eq_true rfl]

theorem testBit_of_lt_countForwardZeroes (h : n ≠ 0) (hj : j < countForwardZeroes n) :
    n.testBit j = false := by
  obtain ⟨q, hq⟩ := eq_lowestBit h
  generalize countForwardZeroes n = t at *
  rw [hq, testBit_eq_of_lowestBit, if_pos (by omega), decide_eq_false (by omega)]

theorem testBit_resetLowestBit (h : n ≠ 0) :
    (resetLowestBit n).testBit j = (decide (countForwardZeroes n < j) && n.testBit j) := by
  obtain ⟨q, hq⟩ := eq_lowestBit h
  generalize countForwardZeroes n = t at *
  have hpos := Nat.two_pow_pos t
  have hpred : n - 1 = 2 ^ (t + 1) * q + (2 ^ t - 1) := by omega
  have hlt : 2 ^ t - 1 < 2 ^ (t + 1) := by
    rw [pow_succ]
    omega
  rw [resetLowestBit, Nat.testBit_and, hpred, hq, testBit_eq_of_lowestBit,
    Nat.testBit_two_pow_mul_add _ hlt, Nat.testBit_two_pow_sub_one]
  by_cases hj : j < t + 1
  · rw [if_pos hj, if_pos hj, decide_eq_false (show ¬t < j by omega), Bool.false_and]
    by_cases heq : t = j
    · rw [decide_eq_false (show ¬j < t by omega), Bool.and_false]
    · rw [decide_eq_false heq, Bool.false_and]
  · rw [if_neg hj, if_neg hj, decide_eq_true (show t < j by omega), Bool.true_and, Bool.and_self]

theorem resetLowestBit_lt (h : n ≠ 0) : resetLowestBit n < n :=
  Nat.and_le_right.trans_lt (Nat.sub_one_lt h)

/-- The places of the set bits, from the lowest to the highest one. -/
def setBits (n : ℕ) : List ℕ :=
  if n = 0 then [] else countForwardZeroes n :: setBits (resetLowestBit n)
termination_by n
decreasing_by exact resetLowestBit_lt ‹_›

theorem mem_setBits : j ∈ setBits n ↔ n.testBit j = true := by
  induction n using Nat.strongRecOn with
  | ind n ih =>
    rw [setBits]
    split_ifs with h
    · simp [h]
    · rw [List.mem_cons, ih _ (resetLowestBit_lt h), testBit_resetLowestBit h, Bool.and_eq_true,
        decide_eq_true_eq]
      rcases Nat.lt_trichotomy (countForwardZeroes n) j with hlt | rfl | hgt
      · simp [hlt, hlt.ne']
      · simp [testBit_countForwardZeroes h]
      · simp [hgt.ne, Nat.not_lt.2 hgt.le, testBit_of_lt_countForwardZeroes h hgt]

theorem pairwise_setBits : (setBits n).Pairwise (· < ·) := by
  induction n using Nat.strongRecOn with
  | ind n ih =>
    rw [setBits]
    split_ifs with h
    · exact .nil
    · refine .cons (fun j hj ↦ ?_) (ih _ (resetLowestBit_lt h))
      rw [mem_setBits, testBit_resetLowestBit h, Bool.and_eq_true, decide_eq_true_eq] at hj
      exact hj.1

theorem setBits_eq_filter {w : ℕ} (h : n < 2 ^ w) : setBits n = (List.range w).filter n.testBit := by
  refine pairwise_setBits.eq_of_mem_iff (List.pairwise_lt_range.filter _) fun {j} ↦ ?_
  rw [mem_setBits, List.mem_filter, List.mem_range]
  refine (and_iff_right_of_imp fun hj ↦ ?_).symm
  by_contra hle
  rw [Nat.testBit_lt_two_pow (h.trans_le (Nat.pow_le_pow_right Nat.two_pos (by omega)))] at hj
  cases hj

end LowestBit

end Parabix.Library
