import Mathlib.Data.List.Basic
import Mathlib.Data.List.Chain

namespace Parabix.Library

/-- The maximal intervals on which `f` holds, from `p` on and below `stop`. -/
inductive Intervals (f : ℕ → Bool) (stop : ℕ) : ℕ → List (ℕ × ℕ) → Prop
  | nil {p : ℕ} (gap : ∀ x, p ≤ x → x < stop → f x = false) : Intervals f stop p []
  | cons {p lo hi : ℕ} {is : List (ℕ × ℕ)} (start : p ≤ lo) (le : lo ≤ hi) (lt : hi < stop)
      (gap : ∀ x, p ≤ x → x < lo → f x = false) (run : ∀ x, lo ≤ x → x ≤ hi → f x = true)
      (stops : hi + 1 < stop → f (hi + 1) = false) (rest : Intervals f stop (hi + 1) is) :
      Intervals f stop p ((lo, hi) :: is)

namespace Intervals

variable {f : ℕ → Bool} {stop p : ℕ} {is : List (ℕ × ℕ)}

theorem bounds (h : Intervals f stop p is) : ∀ i ∈ is, p ≤ i.1 ∧ i.1 ≤ i.2 ∧ i.2 < stop := by
  induction h with
  | nil => simp
  | cons start le lt gap run stops rest ih =>
    intro i hi
    obtain rfl | hi := List.mem_cons.1 hi
    · exact ⟨start, le, lt⟩
    · have := ih i hi
      exact ⟨by omega, this.2⟩

/-- The intervals are in increasing order, without overlap. -/
theorem chain (h : Intervals f stop p is) : is.IsChain fun i j ↦ i.2 < j.1 := by
  induction h with
  | nil => exact .nil
  | cons start le lt gap run stops rest ih =>
    refine List.isChain_cons.2 ⟨fun j hj ↦ ?_, ih⟩
    exact (rest.bounds j (List.mem_of_mem_head? hj)).1

theorem mem_iff (h : Intervals f stop p is) {x : ℕ} (hx : p ≤ x) (hs : x < stop) :
    f x = true ↔ ∃ i ∈ is, i.1 ≤ x ∧ x ≤ i.2 := by
  induction h with
  | nil gap => simp [gap x hx hs]
  | @cons p lo hi is start le lt gap run stops rest ih =>
    by_cases hlo : x < lo
    · have hrest := rest.bounds
      simp only [gap x hx hlo, Bool.false_eq_true, List.mem_cons, exists_eq_or_imp, false_iff,
        not_or, not_exists, not_and]
      refine ⟨by omega, fun i hi ↦ ?_⟩
      have := hrest i hi
      omega
    · by_cases hhi : x ≤ hi
      · simp only [run x (by omega) hhi, List.mem_cons, exists_eq_or_imp, true_iff]
        exact .inl ⟨by omega, hhi⟩
      · rw [ih (by omega)]
        simp only [List.mem_cons, exists_eq_or_imp]
        refine ⟨.inr, ?_⟩
        intro hor
        obtain hor | hor := hor
        · omega
        · exact hor

/-- An interval begins exactly where `f` begins to hold. -/
theorem lo_iff (h : Intervals f stop p is) {x : ℕ} (hx : p ≤ x) :
    (∃ i ∈ is, i.1 = x) ↔ x < stop ∧ f x = true ∧ (x = p ∨ f (x - 1) = false) := by
  induction h with
  | nil gap =>
    simp only [List.not_mem_nil, false_and, exists_false, false_iff]
    rintro ⟨hs, hf, _⟩
    rw [gap x hx hs] at hf
    cases hf
  | @cons p lo hi is start le lt gap run stops rest ih =>
    have hrest := rest.bounds
    simp only [List.mem_cons, exists_eq_or_imp]
    by_cases hlo : x ≤ lo
    · constructor
      · intro hor
        obtain rfl | ⟨i, hi, rfl⟩ := hor
        · refine ⟨by omega, run _ (Nat.le_refl _) le, ?_⟩
          by_cases he : lo = p
          · exact .inl he
          · exact .inr (gap _ (by omega) (by omega))
        · have := hrest i hi
          omega
      · rintro ⟨hs, hf, _⟩
        left
        by_contra hne
        rw [gap x hx (by omega)] at hf
        cases hf
    · by_cases hhi : x ≤ hi
      · have hprev : f (x - 1) = true := run _ (by omega) (by omega)
        simp only [hprev, Bool.true_eq_false, or_false]
        constructor
        · intro hor
          obtain rfl | ⟨i, hi, rfl⟩ := hor
          · omega
          · have := hrest i hi
            omega
        · omega
      · rw [ih (by omega)]
        have hp : x = hi + 1 → f x = true → ¬ x < stop := by
          intro he hf hs
          subst he
          rw [stops hs] at hf
          cases hf
        constructor
        · intro hor
          obtain rfl | ⟨hs, hf, hor⟩ := hor
          · omega
          · refine ⟨hs, hf, ?_⟩
            obtain he | hor := hor
            · exact absurd hs (hp he hf)
            · exact .inr hor
        · rintro ⟨hs, hf, hor⟩
          right
          refine ⟨hs, hf, ?_⟩
          obtain he | hor := hor
          · omega
          · exact .inr hor

/-- The place after an interval is where `f` ceases to hold. -/
theorem hi_iff (h : Intervals f stop p is) {x : ℕ} (hx : p ≤ x) :
    (∃ i ∈ is, i.2 + 1 = x) ↔
      p < x ∧ x ≤ stop ∧ f (x - 1) = true ∧ (x = stop ∨ f x = false) := by
  induction h with
  | nil gap =>
    simp only [List.not_mem_nil, false_and, exists_false, false_iff]
    rintro ⟨hp, hs, hf, _⟩
    rw [gap (x - 1) (by omega) (by omega)] at hf
    cases hf
  | @cons p lo hi is start le lt gap run stops rest ih =>
    have hrest := rest.bounds
    simp only [List.mem_cons, exists_eq_or_imp]
    by_cases hhi : x ≤ hi + 1
    · constructor
      · intro hor
        obtain rfl | ⟨i, hi, rfl⟩ := hor
        · refine ⟨by omega, lt, run _ (by omega) (by omega), ?_⟩
          by_cases he : hi + 1 = stop
          · exact .inl he
          · exact .inr (stops (by omega))
        · have := hrest i hi
          omega
      · rintro ⟨hp, hs, hf, hor⟩
        left
        by_contra hne
        obtain hlo | hlo : x - 1 < lo ∨ lo ≤ x - 1 := by omega
        · rw [gap (x - 1) (by omega) hlo] at hf
          cases hf
        · obtain he | hor := hor
          · omega
          · rw [run x (by omega) (by omega)] at hor
            cases hor
    · rw [ih (by omega)]
      constructor
      · intro hor
        obtain he | ⟨h1, h2⟩ := hor
        · omega
        · exact ⟨by omega, h2⟩
      · rintro ⟨h1, h2⟩
        exact .inr ⟨by omega, h2⟩

/-- An interval of one place is a place without neighbours. -/
theorem singleton_iff (h : Intervals f stop p is) {x : ℕ} (hx : p ≤ x) :
    (x, x) ∈ is ↔ x < stop ∧ f x = true ∧ (x = p ∨ f (x - 1) = false) ∧
      (x + 1 = stop ∨ f (x + 1) = false) := by
  constructor
  · intro hi
    obtain ⟨hs, hf, hlo⟩ := (h.lo_iff hx).1 ⟨_, hi, rfl⟩
    exact ⟨hs, hf, hlo, ((h.hi_iff (by omega)).1 ⟨_, hi, rfl⟩).2.2.2⟩
  · rintro ⟨hs, hf, hlo, hhi⟩
    obtain ⟨⟨a, b⟩, hi, rfl⟩ := (h.lo_iff hx).2 ⟨hs, hf, hlo⟩
    obtain ⟨-, hle, hlt⟩ := h.bounds _ hi
    simp only at hle hlt hhi ⊢
    obtain rfl | hab := Nat.eq_or_lt_of_le hle
    · exact hi
    · have hnext := (h.mem_iff (x := a + 1) (by omega) (by omega)).2 ⟨_, hi, Nat.le_succ _, hab⟩
      rw [hnext] at hhi
      simp at hhi
      omega

end Intervals

end Parabix.Library
