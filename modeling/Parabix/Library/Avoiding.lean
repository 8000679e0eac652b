import Parabix.Library.Encoding

namespace Parabix.Library.Avoiding

open Powers Encoding

variable {α : Type*} (s : Set α) {l k : Language α} {v : List α}

/-- The words of a language that have no symbol of a set. -/
def avoiding (l : Language α) : Language α := {v | v ∈ l ∧ ∀ a ∈ v, a ∉ s}

variable {s}

theorem mem_avoiding : v ∈ avoiding s l ↔ v ∈ l ∧ ∀ a ∈ v, a ∉ s := Iff.rfl

theorem avoiding_bot : avoiding s ⊥ = ⊥ := by
  ext v
  simp [mem_avoiding, not_mem_bot]

theorem avoiding_of_le_one (h : l ≤ 1) : avoiding s l = l := by
  ext v
  refine ⟨And.left, fun hv ↦ ⟨hv, fun a ha ↦ ?_⟩⟩
  rw [Language.mem_one v |>.1 (h hv)] at ha
  cases ha

theorem avoiding_sup : avoiding s (l ⊔ k) = avoiding s l ⊔ avoiding s k := by
  ext v
  simp only [mem_avoiding, mem_sup, or_and_right]

theorem avoiding_sdiff : avoiding s (l \ k) = avoiding s l \ avoiding s k := by
  ext v
  constructor
  · rintro ⟨⟨hl, hk⟩, hv⟩
    exact ⟨⟨hl, hv⟩, fun h ↦ hk h.1⟩
  · rintro ⟨⟨hl, hv⟩, hk⟩
    exact ⟨⟨hl, fun h ↦ hk ⟨h, hv⟩⟩, hv⟩

theorem avoiding_inf : avoiding s (l ⊓ k) = avoiding s l ⊓ avoiding s k := by
  ext v
  constructor
  · rintro ⟨⟨hl, hk⟩, hv⟩
    exact ⟨⟨hl, hv⟩, ⟨hk, hv⟩⟩
  · rintro ⟨⟨hl, hv⟩, hk⟩
    exact ⟨⟨hl, hk.1⟩, hv⟩

theorem avoiding_iSup {ι : Sort*} (f : ι → Language α) :
    avoiding s (⨆ i, f i) = ⨆ i, avoiding s (f i) := by
  ext v
  simp only [mem_avoiding, Language.mem_iSup, exists_and_right]

theorem avoiding_mul : avoiding s (l * k) = avoiding s l * avoiding s k := by
  ext v
  simp only [mem_avoiding, Language.mem_mul]
  constructor
  · rintro ⟨⟨a, ha, b, hb, rfl⟩, hv⟩
    obtain ⟨hva, hvb⟩ := List.forall_mem_append.1 hv
    exact ⟨a, ⟨ha, hva⟩, b, ⟨hb, hvb⟩, rfl⟩
  · rintro ⟨a, ⟨ha, hva⟩, b, ⟨hb, hvb⟩, rfl⟩
    exact ⟨⟨a, ha, b, hb, rfl⟩, List.forall_mem_append.2 ⟨hva, hvb⟩⟩

theorem avoiding_pow (n : ℕ) : avoiding s (l ^ n) = avoiding s l ^ n := by
  induction n with
  | zero => rw [pow_zero, pow_zero, avoiding_of_le_one le_rfl]
  | succ n ih => rw [pow_succ, pow_succ, avoiding_mul, ih]

theorem avoiding_powers (t : Set ℕ) : avoiding s (powers l t) = powers (avoiding s l) t := by
  simp only [powers, avoiding_iSup, avoiding_pow]

theorem avoiding_letters (t : Set α) : avoiding s (letters t) = letters (t \ s) := by
  ext v
  constructor
  · rintro ⟨⟨a, ha, rfl⟩, hv⟩
    exact ⟨a, ⟨ha, hv a (List.mem_singleton_self a)⟩, rfl⟩
  · rintro ⟨a, ha, rfl⟩
    exact ⟨⟨a, ha.1, rfl⟩, List.forall_mem_singleton.2 ha.2⟩

/-- Only the letters of the set are taken away from letters. -/
theorem letters_sdiff (t : Set α) : letters t \ letters s = avoiding s (letters t) := by
  rw [avoiding_letters]
  ext v
  constructor
  · rintro ⟨⟨a, ha, rfl⟩, hnot⟩
    exact ⟨a, ⟨ha, fun h ↦ hnot ⟨a, h, rfl⟩⟩, rfl⟩
  · rintro ⟨a, ha, rfl⟩
    refine ⟨⟨a, ha.1, rfl⟩, ?_⟩
    rintro ⟨b, hb, heq⟩
    exact ha.2 (List.singleton_inj.1 heq ▸ hb)

end Parabix.Library.Avoiding
