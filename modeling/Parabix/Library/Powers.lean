import Mathlib.Algebra.Order.Monoid.Unbundled.Pow
import Mathlib.Algebra.Order.Quantale
import Mathlib.Order.ConditionallyCompleteLattice.Basic
import Mathlib.Order.Interval.Set.Defs
import Mathlib.Tactic.Common
import Mathlib.Order.CompletePartialOrder

namespace Parabix.Library.Powers

section Sums

variable {s t : Set ℕ} {k : ℕ}

/-- The sums of `k` members. -/
def sums (s : Set ℕ) : ℕ → Set ℕ
  | 0 => {0}
  | k + 1 => {n | ∃ i ∈ sums s k, ∃ j ∈ s, n = i + j}

/-- The sums of as many members of `s` as there are in `t`. -/
def multiples (s t : Set ℕ) : Set ℕ := ⋃ k ∈ t, sums s k

theorem sums_Icc (l u k : ℕ) (h : l ≤ u) : sums (Set.Icc l u) k = Set.Icc (l * k) (u * k) := by
  induction k with
  | zero =>
    ext n
    simp [sums]
  | succ k ih =>
    ext n
    simp only [sums, ih, Set.mem_ofPred_eq, Set.mem_Icc, Nat.mul_succ]
    constructor
    · rintro ⟨i, hi, j, hj, hn⟩
      omega
    · rintro ⟨hlo, hhi⟩
      have hmul : l * k ≤ u * k := Nat.mul_le_mul_right k h
      by_cases hle : n ≤ l * k + u
      · exact ⟨l * k, by omega, n - l * k, by omega, by omega⟩
      · exact ⟨n - u, by omega, u, by omega, by omega⟩

theorem sums_Ici (l k : ℕ) : sums (Set.Ici l) (k + 1) = Set.Ici (l * (k + 1)) := by
  induction k with
  | zero =>
    ext n
    simp [sums]
  | succ k ih =>
    ext n
    rw [sums, ih]
    simp only [Set.mem_ofPred_eq, Set.mem_Ici, Nat.mul_succ]
    constructor
    · rintro ⟨i, hi, j, hj, hn⟩
      omega
    · intro hn
      exact ⟨l * k + l, by omega, n - (l * k + l), by omega, by omega⟩

theorem mem_multiples {n : ℕ} : n ∈ multiples s t ↔ ∃ k ∈ t, n ∈ sums s k := by
  simp [multiples]

/-- Intervals that leave no gap between one and the next cover all from the first to the last. -/
theorem exists_interval {l u lb ub : ℕ} (hle : lb ≤ ub)
    (hgap : ∀ k, lb ≤ k → k < ub → l * (k + 1) ≤ u * k + 1) {n : ℕ} (hlo : l * lb ≤ n)
    (hhi : n ≤ u * ub) : ∃ k, lb ≤ k ∧ k ≤ ub ∧ l * k ≤ n ∧ n ≤ u * k := by
  induction ub, hle using Nat.le_induction with
  | base => exact ⟨lb, le_rfl, le_rfl, hlo, hhi⟩
  | succ ub hle ih =>
    by_cases hn : n ≤ u * ub
    · obtain ⟨k, h1, h2, h3⟩ := ih (fun k h1 h2 ↦ hgap k h1 (by omega)) hn
      exact ⟨k, h1, by omega, h3⟩
    · have hub := hgap ub hle (by omega)
      exact ⟨ub + 1, by omega, le_rfl, by omega, hhi⟩

theorem multiples_Icc {l u lb ub : ℕ} (hlu : l ≤ u) (hle : lb ≤ ub)
    (hgap : ∀ k, lb ≤ k → k < ub → l * (k + 1) ≤ u * k + 1) :
    multiples (Set.Icc l u) (Set.Icc lb ub) = Set.Icc (l * lb) (u * ub) := by
  ext n
  simp only [mem_multiples, sums_Icc l u _ hlu, Set.mem_Icc]
  constructor
  · rintro ⟨k, ⟨h1, h2⟩, h3, h4⟩
    exact ⟨(Nat.mul_le_mul_left l h1).trans h3, h4.trans (Nat.mul_le_mul_left u h2)⟩
  · rintro ⟨hlo, hhi⟩
    obtain ⟨k, h1, h2, h3, h4⟩ := exists_interval hle hgap hlo hhi
    exact ⟨k, ⟨h1, h2⟩, h3, h4⟩

theorem multiples_Icc_Ici {l u lb : ℕ} (hlu : l ≤ u) (hu : 0 < u)
    (hgap : ∀ k, lb ≤ k → l * (k + 1) ≤ u * k + 1) :
    multiples (Set.Icc l u) (Set.Ici lb) = Set.Ici (l * lb) := by
  ext n
  simp only [mem_multiples, sums_Icc l u _ hlu, Set.mem_Icc, Set.mem_Ici]
  constructor
  · rintro ⟨k, h1, h3, _⟩
    exact (Nat.mul_le_mul_left l h1).trans h3
  · intro hlo
    have hhi : n ≤ u * (lb + n) := by
      have h1 : 1 * (lb + n) ≤ u * (lb + n) := Nat.mul_le_mul_right _ hu
      omega
    obtain ⟨k, h1, _, h3⟩ := exists_interval (by omega) (fun k h1 _ ↦ hgap k h1) hlo hhi
    exact ⟨k, h1, h3⟩

/-- Without an upper bound the fewest repetitions are those that matter. -/
theorem multiples_Ici {l lb : ℕ} (hlb : 0 < lb) (hmem : lb ∈ t) (hleast : ∀ k ∈ t, lb ≤ k) :
    multiples (Set.Ici l) t = Set.Ici (l * lb) := by
  ext n
  rw [mem_multiples, Set.mem_Ici]
  constructor
  · rintro ⟨k, hk, hn⟩
    have hle := hleast k hk
    obtain ⟨j, rfl⟩ : ∃ j, k = j + 1 := ⟨k - 1, by omega⟩
    rw [sums_Ici] at hn
    exact (Nat.mul_le_mul_left l hle).trans hn
  · intro hn
    obtain ⟨j, rfl⟩ : ∃ j, lb = j + 1 := ⟨lb - 1, by omega⟩
    exact ⟨j + 1, hmem, by rwa [sums_Ici]⟩

theorem multiples_union (s t t' : Set ℕ) :
    multiples s (t ∪ t') = multiples s t ∪ multiples s t' := by
  ext n
  simp only [Set.mem_union, mem_multiples, or_and_right, exists_or]

theorem multiples_zero (s : Set ℕ) : multiples s {0} = {0} := by
  ext n
  simp [mem_multiples, sums]

end Sums

section Quantale

variable {K : Type*} [Monoid K] [CompleteLattice K] {a b : K} {s t : Set ℕ}

/-- The join of the powers of `a` over a set of exponents. -/
def powers (a : K) (s : Set ℕ) : K := ⨆ n ∈ s, a ^ n

theorem powers_le_iff : powers a s ≤ b ↔ ∀ n ∈ s, a ^ n ≤ b := iSup₂_le_iff

theorem pow_le_powers {n : ℕ} (h : n ∈ s) : a ^ n ≤ powers a s := le_iSup₂_of_le n h le_rfl

theorem le_powers_univ (a : K) : a ≤ powers a Set.univ :=
  (pow_one a).ge.trans (pow_le_powers (Set.mem_univ 1))

@[simp] theorem powers_singleton (a : K) (n : ℕ) : powers a {n} = a ^ n := by simp [powers]

theorem powers_mono (a : K) (h : s ⊆ t) : powers a s ≤ powers a t :=
  powers_le_iff.2 fun _ hn ↦ pow_le_powers (h hn)

theorem powers_union (a : K) (s t : Set ℕ) : powers a (s ∪ t) = powers a s ⊔ powers a t :=
  iSup_union

theorem one_le_powers (h : 0 ∈ s) : 1 ≤ powers a s := pow_zero a ▸ pow_le_powers h

/-- Where 0 is an exponent, the other powers are those that matter. -/
theorem powers_eq_sup_one (h : 0 ∈ s) : powers a s = powers a (s \ {0}) ⊔ 1 := by
  rw [← pow_zero a, ← powers_singleton a 0, ← powers_union, Set.sdiff_union_of_subset]
  simpa using h

/-- The powers of an idempotent are all alike. -/
theorem powers_idem {a : K} (h : a * a = a) {s : Set ℕ} {n : ℕ} (hn : n ∈ s) (h0 : 0 ∉ s) :
    powers a s = a := by
  have hpow (k : ℕ) : a ^ (k + 1) = a := by
    induction k with
    | zero => rw [pow_one]
    | succ k ih => rw [pow_succ, ih, h]
  apply le_antisymm
  · apply powers_le_iff.2
    intro k hk
    cases k with
    | zero => exact absurd hk h0
    | succ k => exact (hpow k).le
  · cases n with
    | zero => exact absurd hn h0
    | succ n => exact (hpow n).ge.trans (pow_le_powers hn)

theorem powers_one {n : ℕ} (hn : n ∈ s) : powers (1 : K) s = 1 := by
  apply le_antisymm
  · exact powers_le_iff.2 fun k _ ↦ (one_pow k).le
  · exact (one_pow n).ge.trans (pow_le_powers hn)

variable [IsQuantale K]

theorem powers_of_le_one (h : a ≤ 1) (h0 : 0 ∈ s) : powers a s = 1 :=
  le_antisymm (powers_le_iff.2 fun n _ ↦ Left.pow_le_one_of_le h n) (one_le_powers h0)

theorem powers_mul_le {c : K} : powers a s * b ≤ c ↔ ∀ n ∈ s, a ^ n * b ≤ c := by
  rw [← Quantale.leftMulResiduation_le_iff_mul_le, powers_le_iff]
  exact forall₂_congr fun _ _ ↦ Quantale.leftMulResiduation_le_iff_mul_le

theorem mul_powers_le {c : K} : b * powers a s ≤ c ↔ ∀ n ∈ s, b * a ^ n ≤ c := by
  rw [← Quantale.rightMulResiduation_le_iff_mul_le, powers_le_iff]
  exact forall₂_congr fun _ _ ↦ Quantale.rightMulResiduation_le_iff_mul_le

theorem powers_mul (a : K) (s t : Set ℕ) :
    powers a s * powers a t = powers a {n | ∃ i ∈ s, ∃ j ∈ t, n = i + j} := by
  apply le_antisymm
  · apply powers_mul_le.2
    intro i hi
    apply mul_powers_le.2
    intro j hj
    rw [← pow_add]
    exact pow_le_powers ⟨i, hi, j, hj, rfl⟩
  · apply powers_le_iff.2
    rintro n ⟨i, hi, j, hj, hn⟩
    rw [hn, pow_add]
    exact mul_le_mul' (pow_le_powers hi) (pow_le_powers hj)

theorem pow_mul_powers (a : K) (n : ℕ) (t : Set ℕ) :
    a ^ n * powers a t = powers a {i | ∃ j ∈ t, i = n + j} := by
  rw [← powers_singleton a n, powers_mul]
  congr 1
  ext i
  simp

/-- None, or one up to so many times. -/
theorem sup_one_pow (a : K) (n : ℕ) : (a ⊔ 1) ^ n = powers a (Set.Iic n) := by
  have hone : a ⊔ 1 = powers a (Set.Iic 1) := by
    have hset : (Set.Iic 1 : Set ℕ) = {1} ∪ {0} := by
      ext n
      simp only [Set.mem_Iic, Set.mem_union, Set.mem_singleton_iff]
      omega
    rw [hset, powers_union, powers_singleton, powers_singleton, pow_one, pow_zero]
  induction n with
  | zero =>
    have hset : (Set.Iic 0 : Set ℕ) = {0} := by
      ext n
      simp
    rw [hset, powers_singleton, pow_zero, pow_zero]
  | succ n ih =>
    rw [pow_succ, ih, hone, powers_mul]
    congr 1
    ext k
    simp only [Set.mem_ofPred_eq, Set.mem_Iic]
    constructor
    · rintro ⟨i, hi, j, hj, rfl⟩
      omega
    · intro hk
      by_cases hn : k ≤ n
      · exact ⟨k, hn, 0, by omega, rfl⟩
      · exact ⟨n, le_rfl, 1, le_rfl, by omega⟩

theorem powers_pow (a : K) (s : Set ℕ) (k : ℕ) : powers a s ^ k = powers a (sums s k) := by
  induction k with
  | zero => rw [pow_zero, sums, powers_singleton, pow_zero]
  | succ k ih => rw [pow_succ, ih, powers_mul, sums]

theorem powers_univ_mul_self (a : K) :
    powers a Set.univ * powers a Set.univ = powers a Set.univ := by
  rw [powers_mul]
  refine congrArg (powers a) (Set.eq_univ_of_forall fun n ↦ ?_)
  exact ⟨n, Set.mem_univ n, 0, Set.mem_univ 0, rfl⟩

/-- All powers of `b` are closed under powers. -/
theorem powers_le_powers_univ (h : a ≤ powers b Set.univ) (s : Set ℕ) :
    powers a s ≤ powers b Set.univ := by
  have hpow (n : ℕ) : a ^ n ≤ powers b Set.univ := by
    induction n with
    | zero =>
      rw [pow_zero]
      exact one_le_powers (Set.mem_univ 0)
    | succ n ih =>
      rw [pow_succ, ← powers_univ_mul_self]
      exact mul_le_mul' ih h
  exact powers_le_iff.2 fun n _ ↦ hpow n

/-- Powers of powers. -/
theorem powers_powers (a : K) (s t : Set ℕ) :
    powers (powers a s) t = powers a (multiples s t) := by
  apply le_antisymm
  · apply powers_le_iff.2
    intro k hk
    rw [powers_pow]
    exact powers_mono a fun n hn ↦ mem_multiples.2 ⟨k, hk, hn⟩
  · apply powers_le_iff.2
    intro n hn
    obtain ⟨k, hk, hn⟩ := mem_multiples.1 hn
    apply le_trans (pow_le_powers hn)
    rw [← powers_pow]
    exact pow_le_powers hk

end Quantale

end Parabix.Library.Powers
