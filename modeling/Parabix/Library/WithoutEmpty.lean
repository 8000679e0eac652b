import Parabix.Library.Encoding

namespace Parabix.Library.WithoutEmpty

open Library.Powers Library.Encoding

variable {α : Type*} {x y : Language α} {s : Set ℕ} {v w : List α} {m n : ℕ}

theorem mem_sdiff_one : w ∈ x \ 1 ↔ w ∈ x ∧ w ≠ [] := Iff.rfl

theorem nil_not_mem_sdiff_one : [] ∉ x \ 1 := fun h ↦ h.2 rfl

theorem sdiff_one_of_nil_not_mem (h : [] ∉ x) : x \ 1 = x := by
  ext w
  rw [mem_sdiff_one]
  refine ⟨fun hw ↦ hw.1, fun hw ↦ ⟨hw, ?_⟩⟩
  rintro rfl
  exact h hw

theorem sdiff_one_of_le_one (h : x ≤ 1) : x \ 1 = ⊥ := sdiff_eq_bot_iff.mpr h

theorem sdiff_sdiff_one : (x \ y) \ 1 = (x \ 1) \ (y \ 1) := by
  ext w
  constructor
  · rintro ⟨⟨hx, hy⟩, hw⟩
    exact ⟨⟨hx, hw⟩, fun h ↦ hy h.1⟩
  · rintro ⟨⟨hx, hw⟩, hy⟩
    exact ⟨⟨hx, fun h ↦ hy ⟨h, hw⟩⟩, hw⟩

/-- A string that is not empty has a part that is not empty on the left or on the right. -/
theorem mul_sdiff_one : (x * y) \ 1 = (x \ 1) * y ⊔ x * (y \ 1) := by
  ext w
  rw [mem_sdiff_one, mem_sup, Language.mem_mul, Language.mem_mul, Language.mem_mul]
  constructor
  · rintro ⟨⟨a, ha, b, hb, rfl⟩, hw⟩
    by_cases hnil : a = []
    · refine .inr ⟨a, ha, b, ⟨hb, ?_⟩, rfl⟩
      rintro rfl
      exact hw (by simp [hnil])
    · exact .inl ⟨a, ⟨ha, hnil⟩, b, hb, rfl⟩
  · rintro (⟨a, ⟨ha, hnil⟩, b, hb, rfl⟩ | ⟨a, ha, b, ⟨hb, hnil⟩, rfl⟩)
    · exact ⟨⟨a, ha, b, hb, rfl⟩, fun h ↦ hnil (List.append_eq_nil_iff.mp h).1⟩
    · exact ⟨⟨a, ha, b, hb, rfl⟩, fun h ↦ hnil (List.append_eq_nil_iff.mp h).2⟩

theorem mem_powers : w ∈ powers x s ↔ ∃ n ∈ s, w ∈ x ^ n := by
  simp only [powers, Language.mem_iSup, exists_prop]

theorem pow_le_pow_of_le (h : x ≤ y) (n : ℕ) : x ^ n ≤ y ^ n := by
  induction n with
  | zero => exact le_refl _
  | succ n ih =>
    rw [pow_succ, pow_succ]
    exact mul_le_mul' ih h

/-- The empty factors of a string can be left out. -/
theorem exists_pow_sdiff_one (hw : w ∈ x ^ n) (hnil : w ≠ []) :
    ∃ k, 1 ≤ k ∧ k ≤ n ∧ w ∈ (x \ 1) ^ k := by
  induction n generalizing w with
  | zero => exact absurd hw hnil
  | succ n ih =>
    rw [pow_succ, Language.mem_mul] at hw
    obtain ⟨a, ha, b, hb, rfl⟩ := hw
    by_cases hanil : a = []
    · refine ⟨1, le_refl 1, Nat.succ_le_succ (Nat.zero_le n), ?_⟩
      subst hanil
      rw [pow_one, mem_sdiff_one, List.nil_append]
      exact ⟨hb, hnil⟩
    · obtain ⟨k, hk, hkn, hak⟩ := ih ha hanil
      by_cases hbnil : b = []
      · refine ⟨k, hk, Nat.le_succ_of_le hkn, ?_⟩
        simpa [hbnil] using hak
      · refine ⟨k + 1, Nat.succ_le_succ (Nat.zero_le k), Nat.succ_le_succ hkn, ?_⟩
        rw [pow_succ, Language.mem_mul]
        exact ⟨a, hak, b, ⟨hb, hbnil⟩, rfl⟩

theorem length_of_mem_pow (hm : ∀ v ∈ x, m ≤ v.length) (hw : w ∈ x ^ n) : n * m ≤ w.length := by
  induction n generalizing w with
  | zero => simp
  | succ n ih =>
    rw [pow_succ, Language.mem_mul] at hw
    obtain ⟨a, ha, b, hb, rfl⟩ := hw
    have hle := ih ha
    have hone := hm b hb
    rw [List.length_append, Nat.succ_mul]
    omega

theorem length_le_of_mem_pow (hm : ∀ v ∈ x, v.length ≤ m) (hw : w ∈ x ^ n) :
    w.length ≤ n * m := by
  induction n generalizing w with
  | zero =>
    obtain rfl : w = [] := hw
    simp
  | succ n ih =>
    rw [pow_succ, Language.mem_mul] at hw
    obtain ⟨a, ha, b, hb, rfl⟩ := hw
    have hle := ih ha
    have hone := hm b hb
    rw [List.length_append, Nat.succ_mul]
    omega

theorem nil_not_mem_pow (hn : 0 < n) (h : [] ∉ x) : [] ∉ x ^ n := by
  intro hnil
  have hlen := length_of_mem_pow (m := 1) (fun v hv ↦ ?_) hnil
  · simp at hlen
    omega
  · rw [Nat.one_le_iff_ne_zero, Ne, List.length_eq_zero_iff]
    rintro rfl
    exact h hv

/-- From at most once: the strings that are not empty are repetitions of such strings. -/
theorem powers_sdiff_one {t : Set ℕ} (hdown : ∀ n ∈ s, ∀ k, 1 ≤ k → k ≤ n → k ∈ t)
    (hst : ∀ n ∈ t, n ∈ s ∧ 0 < n) : powers x s \ 1 = powers (x \ 1) t := by
  ext w
  rw [mem_sdiff_one, mem_powers, mem_powers]
  constructor
  · rintro ⟨⟨n, hn, hw⟩, hnil⟩
    obtain ⟨k, hk, hkn, hwk⟩ := exists_pow_sdiff_one hw hnil
    exact ⟨k, hdown n hn k hk hkn, hwk⟩
  · rintro ⟨n, hn, hw⟩
    obtain ⟨hns, hpos⟩ := hst n hn
    refine ⟨⟨n, hns, pow_le_pow_of_le sdiff_le n hw⟩, ?_⟩
    rintro rfl
    exact nil_not_mem_pow hpos nil_not_mem_sdiff_one hw

theorem powers_sdiff_one_of_nil_not_mem (hpos : ∀ n ∈ s, 0 < n) (h : [] ∉ x) :
    powers x s \ 1 = powers (x \ 1) s := by
  rw [sdiff_one_of_nil_not_mem h]
  apply sdiff_one_of_nil_not_mem
  rw [mem_powers]
  rintro ⟨n, hn, hnil⟩
  exact nil_not_mem_pow (hpos n hn) h hnil

theorem pow_le_one (h : x ≤ 1) (n : ℕ) : x ^ n ≤ 1 := by
  have hle := pow_le_pow_of_le h n
  rwa [one_pow] at hle

theorem powers_sdiff_one_of_le_one (hpos : ∀ n ∈ s, 0 < n) (h : x ≤ 1) :
    powers x s \ 1 = powers (x \ 1) s := by
  rw [sdiff_one_of_le_one (powers_le_iff.mpr fun n _ ↦ pow_le_one h n), sdiff_one_of_le_one h]
  refine (le_bot_iff.mp (powers_le_iff.mpr fun n hn ↦ ?_)).symm
  obtain ⟨k, rfl⟩ := Nat.exists_eq_succ_of_ne_zero (hpos n hn).ne'
  rw [pow_succ, Quantale.mul_bot]

/-- At least twice: the shortest strings that are not empty are lost. -/
theorem le_one_of_powers_sdiff_one (hn : n ∈ s) (htwo : ∀ k ∈ s, 2 ≤ k) (hnil : [] ∈ x)
    (h : powers (x \ 1) s = powers x s \ 1) : x ≤ 1 := by
  by_contra hle
  have hex : ∃ l, ∃ v ∈ x \ 1, v.length = l := by
    by_contra hnone
    apply hle
    intro v hv
    by_contra hv1
    exact hnone ⟨_, v, ⟨hv, hv1⟩, rfl⟩
  classical
  obtain ⟨v, hv, hlen⟩ := Nat.find_spec hex
  have hleast : ∀ u ∈ x \ 1, v.length ≤ u.length := by
    intro u hu
    rw [hlen]
    exact Nat.find_min' hex ⟨u, hu, rfl⟩
  have hvpos : 0 < v.length := List.length_pos_iff.mpr hv.2
  have hpow : ∀ k, 0 < k → v ∈ x ^ k := by
    intro k hk
    induction k, hk using Nat.le_induction with
    | base =>
      rw [pow_one]
      exact hv.1
    | succ k hk ih =>
      rw [pow_succ, Language.mem_mul]
      exact ⟨v, ih, [], hnil, List.append_nil v⟩
  have hmem : v ∈ powers (x \ 1) s := by
    rw [h, mem_sdiff_one, mem_powers]
    exact ⟨⟨n, hn, hpow n (by have := htwo n hn; omega)⟩, hv.2⟩
  obtain ⟨k, hk, hvk⟩ := mem_powers.mp hmem
  have hlong := length_of_mem_pow hleast hvk
  have htwice := Nat.mul_le_mul_right v.length (htwo k hk)
  omega

end Parabix.Library.WithoutEmpty
