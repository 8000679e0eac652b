import Mathlib.Data.Nat.Bitwise
import Mathlib.Order.Bounds.Basic
import Mathlib.Tactic.IntervalCases
import Parabix.UCD.Encoder

namespace Parabix.UCD

open Library Library.UTF8

namespace UTF_Encoder

/-- A shift by a negative amount has no meaning. -/
def minCodePointWithCommonCodeUnits (encoder : UTF_Encoder) (cp common : ℕ) : Except Fault ℕ :=
  let length := encoder.encoded_length cp
  if length = 1 then .ok 0
  else if encoder.mCodeUnitBits = 8 then
    if length < common then .error .poison
    else do
      let mask := (1 <<< ((length - common) * 6)) - 1
      let lo_cp := cp.ldiff mask
      return max lo_cp ((← encoder.max_codepoint_of_length (length - 1)) + 1)
  else if encoder.mCodeUnitBits = 16 then
    if common = 1 then .ok (cp &&& 0x1FFC00) else .ok cp
  else .ok 0

def maxCodePointWithCommonCodeUnits (encoder : UTF_Encoder) (cp common : ℕ) : Except Fault ℕ :=
  let length := encoder.encoded_length cp
  if encoder.mCodeUnitBits = 8 then
    if length = 1 then .ok 0x7F
    else if length < common then .error .poison
    else do
      let mask := (1 <<< ((length - common) * 6)) - 1
      return min (cp ||| mask) (← encoder.max_codepoint_of_length length)
  else if encoder.mCodeUnitBits = 16 then
    if length = 1 then .ok 0xFFFF
    else if common = 1 then .ok 0x10FFFF
    else .ok cp
  else .ok 0x10FFFF

/-- The code points that are encoded in as many code units, the first `n` of which are the same. -/
def Shares (encoder : UTF_Encoder) (cp n : ℕ) : Set ℕ :=
  {c | c ≤ unicodeMax ∧ encoder.encoded_length c = encoder.encoded_length cp ∧
    ∀ k, 1 ≤ k → k ≤ n → encoder.nthCodeUnit c k = encoder.nthCodeUnit cp k}

/-- The results are the least and the greatest of these code points. -/
def Bounds (encoder : UTF_Encoder) (cp n : ℕ) : Prop :=
  ∃ lo hi, encoder.minCodePointWithCommonCodeUnits cp n = .ok lo ∧
    encoder.maxCodePointWithCommonCodeUnits cp n = .ok hi ∧
      IsLeast (encoder.Shares cp n) lo ∧ IsGreatest (encoder.Shares cp n) hi

end UTF_Encoder

open UTF_Encoder

section Masks

variable {K k x c lo hi : ℕ}

theorem ldiff_mask (x k : ℕ) : x.ldiff (2 ^ k - 1) = x / 2 ^ k * 2 ^ k := by
  apply Nat.eq_of_testBit_eq
  intro j
  rw [Nat.testBit_ldiff, Nat.testBit_two_pow_sub_one, Nat.mul_comm,
    Nat.testBit_two_pow_mul, Nat.testBit_div_two_pow]
  by_cases hj : j < k
  · rw [decide_eq_true hj, decide_eq_false (show ¬ k ≤ j by omega), Bool.not_true, Bool.and_false,
      Bool.false_and]
  · rw [decide_eq_false hj, decide_eq_true (show k ≤ j by omega), Bool.not_false, Bool.and_true,
      Bool.true_and, Nat.sub_add_cancel (by omega)]

theorem or_mask (x k : ℕ) : x ||| (2 ^ k - 1) = x / 2 ^ k * 2 ^ k + (2 ^ k - 1) := by
  have hlt : 2 ^ k - 1 < 2 ^ k := Nat.sub_lt (Nat.two_pow_pos k) Nat.one_pos
  apply Nat.eq_of_testBit_eq
  intro j
  rw [Nat.testBit_or, Nat.mul_comm, Nat.testBit_two_pow_mul_add _ hlt, Nat.testBit_two_pow_sub_one,
    Nat.testBit_div_two_pow]
  split_ifs with hj
  · rw [decide_eq_true hj, Bool.or_true]
  · rw [decide_eq_false hj, Bool.or_false, Nat.sub_add_cancel (by omega)]

/-- The first number of an interval that has a quotient. -/
theorem isLeast_quotient (hK : 0 < K) (hlo : lo ≤ x) (hhi : x ≤ hi) :
    IsLeast {c | (lo ≤ c ∧ c ≤ hi) ∧ c / K = x / K} (max (x / K * K) lo) := by
  have hx := (Nat.div_eq_iff hK).1 (rfl : x / K = x / K)
  constructor
  · refine ⟨⟨le_max_right _ _, by omega⟩, (Nat.div_eq_iff hK).2 ⟨le_max_left _ _, by omega⟩⟩
  · rintro c ⟨⟨hloc, -⟩, hc⟩
    exact max_le ((Nat.div_eq_iff hK).1 hc).1 hloc

theorem isGreatest_quotient (hK : 0 < K) (hlo : lo ≤ x) (hhi : x ≤ hi) :
    IsGreatest {c | (lo ≤ c ∧ c ≤ hi) ∧ c / K = x / K} (min (x / K * K + (K - 1)) hi) := by
  have hx := (Nat.div_eq_iff hK).1 (rfl : x / K = x / K)
  constructor
  · refine ⟨⟨by omega, min_le_right _ _⟩, (Nat.div_eq_iff hK).2 ⟨by omega, by omega⟩⟩
  · rintro c ⟨⟨-, hchi⟩, hc⟩
    have hcle := ((Nat.div_eq_iff hK).1 hc).2
    exact le_min (by omega) hchi

end Masks

section UTF8

variable {cp c n : ℕ}

/-- The first `n` units are those of the number without the digits of the others. -/
theorem nthCodeUnits_eq_iff (hc : c ≤ unicodeMax) (hcp : cp ≤ unicodeMax)
    (hwidth : width c = width cp) (hn : 1 ≤ n) (hle : n ≤ width cp) :
    (∀ k, 1 ≤ k → k ≤ n → nthCodeUnit ⟨8⟩ c k = nthCodeUnit ⟨8⟩ cp k) ↔
      c / 64 ^ (width cp - n) = cp / 64 ^ (width cp - n) := by
  have hfirst : nthCodeUnit ⟨8⟩ c 1 = nthCodeUnit ⟨8⟩ cp 1 ↔
      c / 64 ^ (width cp - 1) = cp / 64 ^ (width cp - 1) := by
    rw [nthCodeUnit_one hc, nthCodeUnit_one hcp, hwidth, Except.ok.injEq, Nat.add_right_inj]
  induction n, hn using Nat.le_induction with
  | base =>
    rw [← hfirst]
    constructor
    · intro h
      exact h 1 le_rfl le_rfl
    · intro h k h1 hk
      rwa [Nat.le_antisymm hk h1]
  | succ n hn ih =>
    have hunit : nthCodeUnit ⟨8⟩ c (n + 1) = nthCodeUnit ⟨8⟩ cp (n + 1) ↔
        c / 64 ^ (width cp - (n + 1)) % 64 = cp / 64 ^ (width cp - (n + 1)) % 64 := by
      rw [nthCodeUnit_rest (by omega) (hwidth ▸ hle), nthCodeUnit_rest (by omega) hle, hwidth,
        Except.ok.injEq, Nat.add_right_inj]
    have hdiv (x : ℕ) : x / 64 ^ (width cp - n) = x / 64 ^ (width cp - (n + 1)) / 64 := by
      rw [Nat.div_div_eq_div_mul, ← Nat.pow_succ,
        show (width cp - (n + 1)).succ = width cp - n by omega]
    have hsplit : (∀ k, 1 ≤ k → k ≤ n + 1 → nthCodeUnit ⟨8⟩ c k = nthCodeUnit ⟨8⟩ cp k) ↔
        (∀ k, 1 ≤ k → k ≤ n → nthCodeUnit ⟨8⟩ c k = nthCodeUnit ⟨8⟩ cp k) ∧
          nthCodeUnit ⟨8⟩ c (n + 1) = nthCodeUnit ⟨8⟩ cp (n + 1) := by
      constructor
      · intro h
        exact ⟨fun k h1 hk ↦ h k h1 (by omega), h (n + 1) (by omega) le_rfl⟩
      · rintro ⟨h, hlast⟩ k h1 hk
        rcases Nat.le_succ_iff.1 hk with hk | rfl
        · exact h k h1 hk
        · exact hlast
    have hbefore : (∀ k, 1 ≤ k → k ≤ n → nthCodeUnit ⟨8⟩ c k = nthCodeUnit ⟨8⟩ cp k) ↔
        c / 64 ^ (width cp - n) = cp / 64 ^ (width cp - n) := ih (Nat.le_of_succ_le hle)
    rw [hsplit, hbefore, hunit, hdiv, hdiv]
    omega

/-- The code points of a length above 1 are those after the last one of the length before, up to
the last one. -/
theorem width_class (h2 : 2 ≤ width cp) : ∃ m M,
    max_codepoint_of_length ⟨8⟩ (width cp - 1) = .ok m ∧
      max_codepoint_of_length ⟨8⟩ (width cp) = .ok M ∧
        ∀ c, c ≤ unicodeMax ∧ width c = width cp ↔ m + 1 ≤ c ∧ c ≤ M := by
  have hmax : unicodeMax = 0x10FFFF := rfl
  have hclass (c w : ℕ) : width c = w ↔ (if c < 0x80 then 1 else if c < 0x800 then 2
      else if c < 0x10000 then 3 else 4) = w := Iff.rfl
  have hw := width_le cp
  obtain ⟨w, hcpw⟩ : ∃ w, width cp = w := ⟨_, rfl⟩
  rw [hcpw] at h2 hw ⊢
  interval_cases w
  · refine ⟨0x7F, 0x7FF, rfl, rfl, fun c ↦ ?_⟩
    rw [hclass]
    split_ifs <;> omega
  · refine ⟨0x7FF, 0xFFFF, rfl, rfl, fun c ↦ ?_⟩
    rw [hclass]
    split_ifs <;> omega
  · refine ⟨0xFFFF, 0x10FFFF, rfl, rfl, fun c ↦ ?_⟩
    rw [hclass]
    split_ifs <;> omega

theorem bounds_utf8 (hcp : cp ≤ unicodeMax) (h2 : 2 ≤ width cp) (hn : 1 ≤ n) (hle : n ≤ width cp) :
    Bounds ⟨8⟩ cp n := by
  obtain ⟨m, M, hm, hM, hclass⟩ := width_class h2
  obtain ⟨hlo, hhi⟩ := (hclass cp).1 ⟨hcp, rfl⟩
  have hK : 0 < 64 ^ (width cp - n) := Nat.pow_pos (by decide)
  have hmask : 1 <<< ((width cp - n) * 6) = 2 ^ ((width cp - n) * 6) := Nat.one_shiftLeft _
  have hpow : 2 ^ ((width cp - n) * 6) = 64 ^ (width cp - n) := by
    rw [Nat.mul_comm, Nat.pow_mul]
  have hshares : Shares ⟨8⟩ cp n = {c | (m + 1 ≤ c ∧ c ≤ M) ∧
      c / 64 ^ (width cp - n) = cp / 64 ^ (width cp - n)} := by
    ext c
    rw [Shares, Set.mem_ofPred_eq, Set.mem_ofPred_eq, ← hclass, encoded_length_eq,
      encoded_length_eq, and_assoc]
    refine and_congr_right fun hc ↦ and_congr_right fun hwidth ↦ ?_
    exact nthCodeUnits_eq_iff hc hcp hwidth hn hle
  refine ⟨_, _, ?_, ?_, hshares ▸ isLeast_quotient hK hlo hhi,
    hshares ▸ isGreatest_quotient hK hlo hhi⟩
  · rw [minCodePointWithCommonCodeUnits, encoded_length_eq, if_neg (by omega), if_pos rfl,
      if_neg (by omega)]
    dsimp only
    rw [hm, hmask, ldiff_mask, hpow]
    rfl
  · rw [maxCodePointWithCommonCodeUnits, encoded_length_eq, if_pos rfl, if_neg (by omega),
      if_neg (by omega)]
    dsimp only
    rw [hM, hmask, or_mask, hpow]
    rfl

end UTF8

section UTF16

variable {cp c n : ℕ}

theorem encoded_length_two : encoded_length ⟨16⟩ cp = 2 ↔ 0x10000 ≤ cp := by
  change (if cp ≤ 0xFFFF then 1 else 2) = 2 ↔ _
  split_ifs <;> omega

theorem nthCodeUnit_high (hlo : 0x10000 ≤ cp) (hcp : cp ≤ unicodeMax) :
    nthCodeUnit ⟨16⟩ cp 1 = .ok (0xD800 + (cp - 0x10000) / 0x400) := by
  have hmax : cp ≤ 0x10FFFF := hcp
  have hlt : (cp - 0x10000) / 0x400 < 2 ^ 10 := by omega
  have hor : 0xD800 ||| (cp - 0x10000) >>> 10 = 0xD800 + (cp - 0x10000) / 0x400 := by
    rw [Nat.shiftRight_eq_div_pow]
    exact (Nat.two_pow_add_eq_or_of_lt hlt 54).symm
  simp only [nthCodeUnit, encoded_length_two.2 hlo, hor]
  rfl

theorem nthCodeUnit_low (hlo : 0x10000 ≤ cp) :
    nthCodeUnit ⟨16⟩ cp 2 = .ok (0xDC00 + (cp - 0x10000) % 0x400) := by
  have hmask : (cp - 0x10000) &&& 0x3FF = (cp - 0x10000) % 0x400 :=
    Nat.and_two_pow_sub_one_eq_mod _ 10
  have hlt : (cp - 0x10000) % 0x400 < 2 ^ 10 := Nat.mod_lt _ (by decide)
  have hor : 0xDC00 ||| (cp - 0x10000) % 0x400 = 0xDC00 + (cp - 0x10000) % 0x400 :=
    (Nat.two_pow_add_eq_or_of_lt hlt 55).symm
  simp only [nthCodeUnit, encoded_length_two.2 hlo, hmask, hor]
  rfl

/-- The mask has the bits of a code point from the tenth on. -/
theorem and_surrogate_mask (hcp : cp ≤ unicodeMax) : cp &&& 0x1FFC00 = cp / 0x400 * 0x400 := by
  have hmax : cp ≤ 0x10FFFF := hcp
  have hsub := ldiff_mask cp 10
  rw [show 0x400 = 2 ^ 10 from rfl, ← hsub]
  apply Nat.eq_of_testBit_eq
  intro j
  rw [Nat.testBit_and, Nat.testBit_ldiff, show 0x1FFC00 = 2 ^ 10 * (2 ^ 11 - 1) from rfl,
    Nat.testBit_two_pow_mul, Nat.testBit_two_pow_sub_one, Nat.testBit_two_pow_sub_one]
  by_cases hj : j < 21
  · congr 1
    rw [Bool.eq_iff_iff]
    simp
    omega
  · have hpow : 2 ^ 21 ≤ 2 ^ j := Nat.pow_le_pow_right Nat.two_pos (by omega)
    rw [Nat.testBit_lt_two_pow (by omega), Bool.false_and, Bool.false_and]

theorem shares_utf16_iff (hlo : 0x10000 ≤ cp) :
    c ∈ Shares ⟨16⟩ cp n ↔ (0x10000 ≤ c ∧ c ≤ 0x10FFFF) ∧
      ∀ k, 1 ≤ k → k ≤ n → nthCodeUnit ⟨16⟩ c k = nthCodeUnit ⟨16⟩ cp k := by
  rw [Shares, Set.mem_ofPred_eq, encoded_length_two.2 hlo, encoded_length_two, ← and_assoc]
  exact and_congr_left fun _ ↦ and_comm

/-- The first unit has the same quotient, and the greatest code point of an upper surrogate is the
last one of all for the last upper surrogate only. -/
theorem bounds_utf16_one (hlo : 0x10000 ≤ cp) (hcp : cp ≤ unicodeMax) :
    Bounds ⟨16⟩ cp 1 ↔ 0x10FC00 ≤ cp := by
  have hmax : cp ≤ 0x10FFFF := hcp
  have hshares : Shares ⟨16⟩ cp 1 =
      {c | (0x10000 ≤ c ∧ c ≤ 0x10FFFF) ∧ c / 0x400 = cp / 0x400} := by
    ext c
    rw [shares_utf16_iff hlo, Set.mem_ofPred_eq]
    refine and_congr_right fun hc ↦ ?_
    have hunit : nthCodeUnit ⟨16⟩ c 1 = nthCodeUnit ⟨16⟩ cp 1 ↔ c / 0x400 = cp / 0x400 := by
      rw [nthCodeUnit_high hc.1 hc.2, nthCodeUnit_high hlo hcp, Except.ok.injEq]
      omega
    rw [← hunit]
    constructor
    · intro h
      exact h 1 le_rfl le_rfl
    · intro h k h1 hk
      rwa [Nat.le_antisymm hk h1]
  have hleast := isLeast_quotient (show 0 < 0x400 by decide) hlo hmax
  have hgreatest := isGreatest_quotient (show 0 < 0x400 by decide) hlo hmax
  have hmin : minCodePointWithCommonCodeUnits ⟨16⟩ cp 1 = .ok (cp / 0x400 * 0x400) := by
    simp only [minCodePointWithCommonCodeUnits, encoded_length_two.2 hlo,
      and_surrogate_mask hcp]
    rfl
  have hmaxof : maxCodePointWithCommonCodeUnits ⟨16⟩ cp 1 = .ok 0x10FFFF := by
    simp only [maxCodePointWithCommonCodeUnits, encoded_length_two.2 hlo]
    rfl
  rw [← hshares] at hleast hgreatest
  rw [Bounds, hmin, hmaxof]
  constructor
  · rintro ⟨lo, hi, -, hhi, -, hlast⟩
    have heq := hlast.unique hgreatest
    rw [← Except.ok.inj hhi] at heq
    omega
  · intro h
    refine ⟨_, _, rfl, rfl, ?_, ?_⟩
    · convert hleast using 1
      omega
    · convert hgreatest using 1
      omega

theorem bounds_utf16_two (hlo : 0x10000 ≤ cp) (hcp : cp ≤ unicodeMax) : Bounds ⟨16⟩ cp 2 := by
  have hshares : Shares ⟨16⟩ cp 2 = {cp} := by
    ext c
    rw [shares_utf16_iff hlo, Set.mem_singleton_iff]
    constructor
    · rintro ⟨⟨hc, hcmax⟩, hunits⟩
      have hhigh := hunits 1 le_rfl (by decide)
      have hlow := hunits 2 (by decide) le_rfl
      rw [nthCodeUnit_high hc hcmax, nthCodeUnit_high hlo hcp, Except.ok.injEq] at hhigh
      rw [nthCodeUnit_low hc, nthCodeUnit_low hlo, Except.ok.injEq] at hlow
      omega
    · rintro rfl
      exact ⟨⟨hlo, hcp⟩, fun _ _ _ ↦ rfl⟩
  refine ⟨cp, cp, ?_, ?_, hshares ▸ isLeast_singleton, hshares ▸ isGreatest_singleton⟩
  · simp only [minCodePointWithCommonCodeUnits, encoded_length_two.2 hlo]
    rfl
  · simp only [maxCodePointWithCommonCodeUnits, encoded_length_two.2 hlo]
    rfl

end UTF16

/-- The bounds are right in UTF-8, and in UTF-16 for both units, or for the last upper surrogate. -/
theorem commonCodeUnits_exact (mCodeUnitBits cp n : ℕ)
    (hbits : mCodeUnitBits = 8 ∨ mCodeUnitBits = 16) (hcp : cp ≤ unicodeMax)
    (h2 : 2 ≤ encoded_length ⟨mCodeUnitBits⟩ cp) (hn : 1 ≤ n)
    (hle : n ≤ encoded_length ⟨mCodeUnitBits⟩ cp) :
    Bounds ⟨mCodeUnitBits⟩ cp n ↔ mCodeUnitBits = 16 → n = 1 → 0x10FC00 ≤ cp := by
  rcases hbits with rfl | rfl
  · rw [encoded_length_eq] at h2 hle
    exact iff_of_true (bounds_utf8 hcp h2 hn hle) fun h ↦ absurd h (by decide)
  · have hlo : 0x10000 ≤ cp := by
      rw [← encoded_length_two]
      change (if cp ≤ 0xFFFF then 1 else 2) = 2
      change 2 ≤ (if cp ≤ 0xFFFF then 1 else 2) at h2
      split_ifs at h2 ⊢
      · omega
      · rfl
    rw [encoded_length_two.2 hlo] at hle
    obtain rfl | rfl : n = 1 ∨ n = 2 := by omega
    · rw [bounds_utf16_one hlo hcp]
      exact ⟨fun h _ _ ↦ h, fun h ↦ h rfl rfl⟩
    · exact iff_of_true (bounds_utf16_two hlo hcp) fun _ h ↦ absurd h (by decide)

/-- The first two of the three bytes of U+20AC. -/
theorem commonCodeUnits_exact_euro : Bounds ⟨8⟩ 0x20AC 2 :=
  (commonCodeUnits_exact 8 0x20AC 2 (.inl rfl) (by decide) (by decide) (by decide)
    (by decide)).2 fun h ↦ absurd h (by decide)

/-- In UTF-16 the greatest code point with the upper surrogate of U+10000 is said to be the last
one of all. -/
theorem commonCodeUnits_unshared :
    ¬ ∀ mCodeUnitBits cp n : ℕ, mCodeUnitBits = 8 ∨ mCodeUnitBits = 16 → cp ≤ unicodeMax →
      2 ≤ encoded_length ⟨mCodeUnitBits⟩ cp → 1 ≤ n → n ≤ encoded_length ⟨mCodeUnitBits⟩ cp →
        Bounds ⟨mCodeUnitBits⟩ cp n := by
  intro h
  have hbounds := h 16 0x10000 1 (.inr rfl) (by decide) (by decide) (by decide) (by decide)
  exact absurd ((bounds_utf16_one (by decide) (by decide)).1 hbounds) (by decide)

end Parabix.UCD
