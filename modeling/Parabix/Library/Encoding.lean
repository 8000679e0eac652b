import Mathlib.Computability.Language
import Parabix.Library.Powers

namespace Parabix.Library

/-- A language as a quantale. -/
instance instIsQuantale {α : Type*} : IsQuantale (Language α) where
  mul_sSup_distrib l s := by
    rw [sSup_eq_iSup, Language.mul_iSup]
    simp only [Language.mul_iSup]
  sSup_mul_distrib s l := by
    rw [sSup_eq_iSup, Language.iSup_mul]
    simp only [Language.iSup_mul]

instance instNontrivial {α : Type*} : Nontrivial (Language α) :=
  inferInstanceAs (Nontrivial (Set (List α)))

namespace Encoding

open Powers

variable {α β : Type*} (code : α → List β) {l k : Language α} {w : List β}
  {l' k' : Language β}

/-- The words of a language with every symbol replaced by its code. -/
def encoded (l : Language α) : Language β := {w | ∃ v ∈ l, v.flatMap code = w}

/-- The words of one symbol. -/
def letters (s : Set α) : Language α := {v | ∃ a ∈ s, v = [a]}

variable {code}

theorem mem_encoded : w ∈ encoded code l ↔ ∃ v ∈ l, v.flatMap code = w := Iff.rfl

theorem mem_letters {s : Set α} {v : List α} : v ∈ letters s ↔ ∃ a ∈ s, v = [a] := Iff.rfl

theorem mem_sup : w ∈ l' ⊔ k' ↔ w ∈ l' ∨ w ∈ k' := Iff.rfl

theorem not_mem_bot {v : List α} : v ∉ (⊥ : Language α) := id

theorem letters_empty : letters (∅ : Set α) = ⊥ := by
  ext v
  simp [mem_letters, not_mem_bot]

theorem letters_union (s t : Set α) : letters (s ∪ t) = letters s ⊔ letters t := by
  ext v
  simp only [mem_letters, mem_sup, Set.mem_union, or_and_right, exists_or]

theorem encoded_bot : encoded code ⊥ = ⊥ := by
  ext w
  simp [mem_encoded, not_mem_bot]

theorem encoded_sup : encoded code (l ⊔ k) = encoded code l ⊔ encoded code k := by
  ext w
  simp only [mem_encoded, mem_sup, or_and_right, exists_or]

theorem encoded_iSup {ι : Sort*} (f : ι → Language α) :
    encoded code (⨆ i, f i) = ⨆ i, encoded code (f i) := by
  ext w
  simp only [mem_encoded, Language.mem_iSup]
  constructor
  · rintro ⟨v, ⟨i, hv⟩, hw⟩
    exact ⟨i, v, hv, hw⟩
  · rintro ⟨i, v, hv, hw⟩
    exact ⟨v, ⟨i, hv⟩, hw⟩

theorem encoded_one : encoded code 1 = 1 := by
  ext w
  simp [mem_encoded, Language.mem_one, eq_comm]

theorem encoded_mul : encoded code (l * k) = encoded code l * encoded code k := by
  ext w
  simp only [mem_encoded, Language.mem_mul]
  constructor
  · rintro ⟨v, ⟨a, ha, b, hb, hv⟩, hw⟩
    refine ⟨_, ⟨a, ha, rfl⟩, _, ⟨b, hb, rfl⟩, ?_⟩
    rw [← hw, ← hv, List.flatMap_append]
  · rintro ⟨_, ⟨a, ha, rfl⟩, _, ⟨b, hb, rfl⟩, hw⟩
    exact ⟨a ++ b, ⟨a, ha, b, hb, rfl⟩, by rw [← hw, List.flatMap_append]⟩

theorem encoded_pow (n : ℕ) : encoded code (l ^ n) = encoded code l ^ n := by
  induction n with
  | zero => rw [pow_zero, pow_zero, encoded_one]
  | succ n ih => rw [pow_succ, pow_succ, encoded_mul, ih]

theorem encoded_powers (s : Set ℕ) : encoded code (powers l s) = powers (encoded code l) s := by
  simp only [powers, encoded_iSup, encoded_pow]

end Encoding

end Parabix.Library
