import Mathlib.Order.CompleteBooleanAlgebra
import Parabix.Library.Powers

namespace Parabix.Library.Spans

open Library.Powers

/-- The pairs of positions between which something is matched. -/
def Span := ℕ → ℕ → Prop

instance : CompleteBooleanAlgebra Span := inferInstanceAs (CompleteBooleanAlgebra (ℕ → ℕ → Prop))

variable {x y : Span} {A B : ℕ → Prop} {s : Set ℕ} {p q n : ℕ}

theorem Span.ext (h : ∀ p q, x p q ↔ y p q) : x = y := funext fun p ↦ funext fun q ↦ propext (h p q)

instance : Monoid Span where
  mul x y := fun p q ↦ ∃ m, x p m ∧ y m q
  one := fun p q ↦ p = q
  mul_assoc x y z := Span.ext fun p q ↦ by
    constructor
    · rintro ⟨m, ⟨l, hx, hy⟩, hz⟩
      exact ⟨l, hx, m, hy, hz⟩
    · rintro ⟨l, hx, m, hy, hz⟩
      exact ⟨m, ⟨l, hx, hy⟩, hz⟩
  one_mul x := Span.ext fun p q ↦ by
    constructor
    · rintro ⟨m, rfl, hx⟩
      exact hx
    · intro hx
      exact ⟨p, rfl, hx⟩
  mul_one x := Span.ext fun p q ↦ by
    constructor
    · rintro ⟨m, hx, rfl⟩
      exact hx
    · intro hx
      exact ⟨q, hx, rfl⟩

@[simp] theorem one_apply : (1 : Span) p q ↔ p = q := Iff.rfl

@[simp] theorem mul_apply : (x * y) p q ↔ ∃ m, x p m ∧ y m q := Iff.rfl

@[simp] theorem sup_apply : (x ⊔ y) p q ↔ x p q ∨ y p q := Iff.rfl

@[simp] theorem bot_apply : (⊥ : Span) p q ↔ False := Iff.rfl

@[simp] theorem sdiff_apply : (x \ y) p q ↔ x p q ∧ ¬ y p q := Iff.rfl

theorem iSup_apply {ι : Sort*} {f : ι → Span} : (⨆ i, f i) p q ↔ ∃ i, f i p q := by
  have h : (⨆ i, f i) = fun p q ↦ ∃ i, f i p q := by
    apply le_antisymm
    · exact iSup_le fun i _ _ hi ↦ ⟨i, hi⟩
    · rintro p q ⟨i, hi⟩
      exact le_iSup f i p q hi
  rw [h]

theorem sSup_apply {S : Set Span} : sSup S p q ↔ ∃ x ∈ S, x p q := by
  rw [sSup_eq_iSup]
  simp only [iSup_apply, exists_prop]

instance : IsQuantale Span where
  mul_sSup_distrib x S := Span.ext fun p q ↦ by
    simp only [iSup_apply, mul_apply, sSup_apply]
    constructor
    · rintro ⟨m, hx, y, hy, h⟩
      exact ⟨y, hy, m, hx, h⟩
    · rintro ⟨y, hy, m, hx, h⟩
      exact ⟨m, hx, y, hy, h⟩
  sSup_mul_distrib S y := Span.ext fun p q ↦ by
    simp only [iSup_apply, mul_apply, sSup_apply]
    constructor
    · rintro ⟨m, ⟨x, hx, h⟩, hy⟩
      exact ⟨x, hx, m, h, hy⟩
    · rintro ⟨x, hx, m, h, hy⟩
      exact ⟨m, ⟨x, hx, h⟩, hy⟩

theorem powers_apply : powers x s p q ↔ ∃ n ∈ s, (x ^ n) p q := by
  simp only [powers, iSup_apply, exists_prop]

/-- Nothing, where a condition holds. -/
def zeroWidth (A : ℕ → Prop) : Span := fun p q ↦ p = q ∧ A p

/-- One position, if it is in a class. -/
def step (A : ℕ → Prop) : Span := fun p q ↦ q = p + 1 ∧ A p

@[simp] theorem zeroWidth_self : zeroWidth A p p ↔ A p := by simp [zeroWidth]

theorem zeroWidth_le_one : zeroWidth A ≤ 1 := fun _ _ h ↦ h.1

theorem zeroWidth_mul (x : Span) : (zeroWidth A * x) p q ↔ A p ∧ x p q := by
  constructor
  · rintro ⟨m, ⟨rfl, hA⟩, hx⟩
    exact ⟨hA, hx⟩
  · rintro ⟨hA, hx⟩
    exact ⟨p, ⟨rfl, hA⟩, hx⟩

theorem zeroWidth_mul_self : zeroWidth A * zeroWidth A = zeroWidth A :=
  Span.ext fun p q ↦ by
    rw [zeroWidth_mul]
    exact ⟨fun h ↦ h.2, fun h ↦ ⟨h.2, h⟩⟩

theorem step_mul (x : Span) : (step A * x) p q ↔ A p ∧ x (p + 1) q := by
  constructor
  · rintro ⟨m, ⟨rfl, hA⟩, hx⟩
    exact ⟨hA, hx⟩
  · rintro ⟨hA, hx⟩
    exact ⟨p + 1, ⟨rfl, hA⟩, hx⟩

theorem step_sup : step A ⊔ step B = step fun p ↦ A p ∨ B p :=
  Span.ext fun _ _ ↦ and_or_left.symm

/-- A run of positions that are all in a class. -/
theorem step_pow : (step A ^ n) p q ↔ q = p + n ∧ ∀ i, p ≤ i → i < q → A i := by
  induction n generalizing p with
  | zero =>
    rw [pow_zero, one_apply]
    constructor
    · rintro rfl
      exact ⟨rfl, fun i h1 h2 ↦ absurd h1 (by omega)⟩
    · intro h
      exact h.1.symm
  | succ n ih =>
    rw [pow_succ', step_mul, ih]
    constructor
    · rintro ⟨hA, rfl, hall⟩
      refine ⟨by omega, fun i h1 h2 ↦ ?_⟩
      by_cases hi : i = p
      · rwa [hi]
      · exact hall i (by omega) h2
    · rintro ⟨rfl, hall⟩
      exact ⟨hall p (by omega) (by omega), by omega, fun i h1 h2 ↦ hall i (by omega) h2⟩

end Parabix.Library.Spans
