import Mathlib.Algebra.Order.BigOperators.Group.Finset
import Parabix.IDISA.Extraction

namespace Parabix.IDISA.IDISA_Builder

open Library Library.BitStream

section Operations

variable (vectorWidth fw : ℕ)

/-- The native count of every field. -/
def createPopcount (a : Stream) : Stream := IDISA.simd_popcount fw a

/-- From a field of two bits its upper one is taken away. The counts of wider fields are those of
their halves, added as 64-bit numbers. -/
def simd_popcount (fw : ℕ) (a : Stream) : Except Fault Stream :=
  if fw = 1 then pure a
  else if fw = 2 then simd_sub 64 a (simd_srli vectorWidth 64 (simd_select_hi 2 a) 1)
  else if 0 < fw ∧ fw ≤ 64 then do
    let c ← simd_popcount (fw / 2) a
    return simd_add 64 (simd_select_lo fw c) (simd_srli vectorWidth fw c (fw / 2))
  else pure (createPopcount fw a)
termination_by fw

/-- No fields of less than a byte are moved. -/
def moveFields (a : Stream) (shift : ℕ) : Except Fault Stream :=
  if fw < 8 then throw (UnsupportedFieldWidthError fw "mvmd_slli")
  else pure (mvmd_slli vectorWidth fw a shift)

def partialSumLoop (move : ℕ) (partial_sum : Stream) : Except Fault Stream :=
  if 0 < move ∧ move < vectorWidth / fw then do
    let moved ← moveFields vectorWidth fw partial_sum move
    partialSumLoop (move * 2) (simd_add fw partial_sum moved)
  else pure partial_sum
termination_by vectorWidth / fw - move

def hsimd_partial_sum (a : Stream) : Except Fault Stream := partialSumLoop vectorWidth fw 1 a

end Operations

section Populations

variable {vectorWidth e h i : ℕ} {a b : Stream}

theorem field_popcount (fw : ℕ) : field fw (IDISA.simd_popcount fw a) i = pop a (fw * i) fw := by
  rw [IDISA.simd_popcount, field_ofFields]
  exact Nat.mod_eq_of_lt ((pop_le a _ fw).trans_lt Nat.lt_two_pow_self)

theorem pop_one (p : ℕ) : pop a p 1 = (a p).toNat := by
  rw [pop, rank_succ, rank_zero, Nat.add_zero]
  cases a p <;> rfl

theorem pop_mul_two : pop a (h * 2 * i) (h * 2) =
    pop a (h * (2 * i)) h + pop a (h * (2 * i + 1)) h := by
  rw [Nat.mul_two h, pop_add]
  congr 2 <;> ring

theorem popcount_one (a : Stream) : IDISA.simd_popcount 1 a = a :=
  stream_ext Nat.one_pos fun i ↦ by rw [field_popcount, Nat.one_mul, pop_one, field_one]

/-- The upper bits, each moved to the lower one of its field. -/
theorem field_upper : field 2 (simd_srli vectorWidth 64 (simd_select_hi 2 a) 1) i =
    field 2 a i >>> 1 := by
  have hmask : simd_srli vectorWidth 64 (simd_select_hi 2 a) 1 = createLShr 2 a 1 := by
    rw [show simd_select_hi 2 a = simd_and a (highBitsSet 2 (2 - 1)) from select_hi_eq (h := 1),
      show simd_srli vectorWidth 64 _ 1 = createLShr 64 _ 1 from
        simd_srli_eq_createLShr (e := 6) le_rfl (by decide)]
    exact funext fun p ↦ createLShr_masked (by decide) (by decide) (by decide)
  rw [hmask, field_createLShr]

theorem simd_sub_pairs (hle : ∀ i, field 2 b i ≤ field 2 a i) :
    IDISA.simd_sub 64 a b = IDISA.simd_sub 2 a b := by
  rw [show 64 = 2 * 2 ^ 5 from rfl]
  exact simd_sub_mul_two_pow Nat.two_pos hle

/-- Nothing is borrowed, as no field is less than its upper bit. -/
theorem popcount_two (vectorWidth : ℕ) (a : Stream) :
    IDISA.simd_sub 64 a (simd_srli vectorWidth 64 (simd_select_hi 2 a) 1) =
      IDISA.simd_popcount 2 a := by
  have hle (i : ℕ) : field 2 (simd_srli vectorWidth 64 (simd_select_hi 2 a) 1) i ≤ field 2 a i := by
    rw [field_upper]
    exact Nat.shiftRight_le _ _
  refine stream_ext Nat.two_pos fun i ↦ ?_
  have hupper : field 2 a i >>> 1 = field 1 a (2 * i + 1) := field_mul_two_shiftRight (h := 1)
  have hfield : field 2 a i = field 1 a (2 * i) + 2 ^ 1 * field 1 a (2 * i + 1) :=
    field_mul_two (h := 1)
  have hcount : pop a (2 * i) 2 = pop a (1 * (2 * i)) 1 + pop a (1 * (2 * i + 1)) 1 :=
    pop_mul_two (h := 1)
  rw [simd_sub_pairs hle, field_sub_of_le (hle i), field_upper, hupper, hfield, field_popcount,
    hcount, pop_one, pop_one, Nat.one_mul, Nat.one_mul, field_one, field_one]
  omega

/-- Nothing is carried, as the counts of two halves have room in a field. -/
theorem popcount_mul_two (vectorWidth : ℕ) (a : Stream) (he : e < 6) :
    simd_add 64 (simd_select_lo (2 ^ (e + 1)) (IDISA.simd_popcount (2 ^ e) a))
        (simd_srli vectorWidth (2 ^ (e + 1)) (IDISA.simd_popcount (2 ^ e) a) (2 ^ (e + 1) / 2)) =
      IDISA.simd_popcount (2 ^ (e + 1)) a := by
  have hwidth : 2 ^ (e + 1) = 2 ^ e * 2 := pow_succ 2 e
  have hhalf : 2 ^ (e + 1) / 2 = 2 ^ e := by rw [hwidth, Nat.mul_div_cancel _ Nat.two_pos]
  have hlt : 2 ^ e < 2 ^ (e + 1) := Nat.pow_lt_pow_right (by decide) (Nat.lt_succ_self e)
  obtain ⟨k, hk⟩ := Nat.exists_eq_add_of_le (show e + 1 ≤ 6 by omega)
  have hwide : 64 = 2 ^ e * 2 * 2 ^ k := by
    rw [← pow_succ, ← pow_add, ← hk]
    rfl
  generalize hcounts : IDISA.simd_popcount (2 ^ e) a = c
  have hcount (i : ℕ) : field (2 ^ e) c i = pop a (2 ^ e * i) (2 ^ e) := by
    rw [← hcounts, field_popcount]
  have hlo (i : ℕ) : field (2 ^ e * 2) (simd_select_lo (2 ^ e * 2) c) i =
      pop a (2 ^ e * (2 * i)) (2 ^ e) := by
    rw [field_select_lo, hcount]
  have hhi (i : ℕ) : field (2 ^ e * 2) (simd_srli vectorWidth (2 ^ e * 2) c (2 ^ e)) i =
      pop a (2 ^ e * (2 * i + 1)) (2 ^ e) := by
    rw [← hwidth, simd_srli_eq_createLShr he hlt, field_createLShr, hwidth,
      field_mul_two_shiftRight, hcount]
  have hroom (i : ℕ) : field (2 ^ e * 2) (simd_select_lo (2 ^ e * 2) c) i +
      field (2 ^ e * 2) (simd_srli vectorWidth (2 ^ e * 2) c (2 ^ e)) i < 2 ^ (2 ^ e * 2) := by
    rw [hlo, hhi, ← pop_mul_two]
    exact (pop_le a _ _).trans_lt Nat.lt_two_pow_self
  have hadd (x y : Stream) : simd_add 64 x y = IDISA.simd_add 64 x y := simd_add_eq 6 x y
  have hpos : 0 < 2 ^ e * 2 := Nat.mul_pos (Nat.two_pow_pos e) Nat.two_pos
  rw [hhalf, hadd, hwidth, hwide, simd_add_mul_two_pow hpos hroom]
  refine stream_ext hpos fun i ↦ ?_
  rw [IDISA.simd_add, field_ofFields, Nat.mod_eq_of_lt (hroom i), hlo, hhi, field_popcount,
    pop_mul_two]

/-- The counts of all fields are right, level after level up to 64 bits, and natively above. -/
theorem simd_popcount_eq (vectorWidth e : ℕ) (a : Stream) :
    simd_popcount vectorWidth (2 ^ e) a = .ok (IDISA.simd_popcount (2 ^ e) a) := by
  induction e with
  | zero =>
    rw [simd_popcount, if_pos (pow_zero 2), pow_zero, popcount_one]
    rfl
  | succ e ih =>
    have hone : ¬ 2 ^ (e + 1) = 1 := (Nat.one_lt_two_pow (Nat.succ_ne_zero e)).ne'
    have hhalf : 2 ^ (e + 1) / 2 = 2 ^ e := by rw [pow_succ, Nat.mul_div_cancel _ Nat.two_pos]
    rw [simd_popcount, if_neg hone]
    rcases Nat.eq_zero_or_pos e with rfl | hpos
    · rw [if_pos (by decide)]
      exact congrArg Except.ok (popcount_two vectorWidth a)
    · have htwo : ¬ 2 ^ (e + 1) = 2 := (Nat.pow_lt_pow_right (a := 2) (m := 1) (by decide)
        (by omega)).ne'
      rw [if_neg htwo]
      by_cases hnarrow : e < 6
      · have hle : 2 ^ (e + 1) ≤ 2 ^ 6 := Nat.pow_le_pow_right Nat.two_pos hnarrow
        rw [if_pos ⟨Nat.two_pow_pos _, hle⟩, hhalf, ih]
        have hadd := popcount_mul_two vectorWidth a hnarrow
        rw [hhalf] at hadd
        exact congrArg Except.ok hadd
      · have hlt : 2 ^ 6 < 2 ^ (e + 1) := Nat.pow_lt_pow_right (by decide) (by omega)
        rw [if_neg fun hle ↦ Nat.not_le.2 hlt hle.2]
        rfl

end Populations

section PartialSums

variable {vectorWidth fw e shift : ℕ} {a x y : Stream}

/-- The sum of the first fields. -/
def sumOfFields (fw : ℕ) (a : Stream) (n : ℕ) : ℕ := ∑ k ∈ Finset.range n, field fw a k

theorem sumOfFields_mono (fw : ℕ) (a : Stream) : Monotone (sumOfFields fw a) := fun _ _ hmn ↦
  Finset.sum_le_sum_of_subset (Finset.range_subset_range.2 hmn)

theorem sumOfFields_succ (n : ℕ) :
    sumOfFields fw a (n + 1) = sumOfFields fw a n + field fw a n := Finset.sum_range_succ _ n

/-- The populations of the first fields are that of all their bits. -/
theorem sumOfFields_popcount (n : ℕ) :
    sumOfFields fw (IDISA.simd_popcount fw a) n = rank a (fw * n) := by
  induction n with
  | zero => rfl
  | succ n ih => rw [sumOfFields_succ, ih, field_popcount, Nat.mul_succ, rank_add_pop]

theorem slli_apply (hpos : 0 < fw) (p : ℕ) : IDISA.mvmd_slli fw a shift p =
    (decide (fw * shift ≤ p) && a (p - fw * shift)) := by
  have hp := Nat.div_add_mod p fw
  have hj := Nat.mod_lt p hpos
  generalize p / fw = i at hp
  generalize p % fw = j at hp hj
  subst hp
  by_cases hlow : i < shift
  · have hle : fw * (i + 1) ≤ fw * shift := Nat.mul_le_mul_left fw hlow
    rw [Nat.mul_succ] at hle
    have hzero : field fw (IDISA.mvmd_slli fw a shift) i = 0 := by rw [field_slli, if_pos hlow]
    rw [apply_of_field_eq_zero hzero hj, decide_eq_false (by omega), Bool.false_and]
  · obtain ⟨d, rfl⟩ := Nat.exists_eq_add_of_le (Nat.not_lt.1 hlow)
    have hfield : field fw (IDISA.mvmd_slli fw a shift) (shift + d) = field fw a d := by
      rw [field_slli, if_neg hlow, Nat.add_sub_cancel_left]
    rw [apply_of_field hfield hj, Nat.mul_add, decide_eq_true (by omega), Bool.true_and]
    congr 1
    omega

theorem Agree.slli (hlane : 32 ∣ vectorWidth) (hdvd : 2 ^ e ∣ vectorWidth)
    (hshift : 2 ^ e * shift ≤ vectorWidth) (hx : Agree vectorWidth x y) :
    Agree vectorWidth (mvmd_slli vectorWidth (2 ^ e) x shift)
      (IDISA.mvmd_slli (2 ^ e) y shift) := fun p hp ↦ by
  rw [mvmd_slli_apply hlane hdvd hshift hp, slli_apply (Nat.two_pow_pos e),
    hx _ ((Nat.sub_le _ _).trans_lt hp)]

theorem moveFields_ok (he : 3 ≤ e) : moveFields vectorWidth (2 ^ e) x shift =
    .ok (mvmd_slli vectorWidth (2 ^ e) x shift) := by
  have hwide : 2 ^ 3 ≤ 2 ^ e := Nat.pow_le_pow_right Nat.two_pos he
  rw [moveFields, if_neg (by omega)]
  rfl

/-- The loop over bytes and wider fields is the one over all fields. -/
theorem partialSumLoop_ok {x y : Stream} (move : ℕ) (he : 3 ≤ e) (hlane : 32 ∣ vectorWidth)
    (hdvd : 2 ^ e ∣ vectorWidth) (hx : Agree vectorWidth x y) :
    ∃ sums, partialSumLoop vectorWidth (2 ^ e) move x = .ok sums ∧
      Agree vectorWidth sums (IDISA.partialSumLoop (2 ^ e) (vectorWidth / 2 ^ e) move y) := by
  rw [partialSumLoop, IDISA.partialSumLoop]
  split_ifs with hloop
  · have hshift : 2 ^ e * move ≤ vectorWidth :=
      (Nat.mul_le_mul_left _ hloop.2.le).trans_eq (Nat.mul_div_cancel' hdvd)
    rw [moveFields_ok he]
    exact partialSumLoop_ok (move * 2) he hlane hdvd (Agree.add hdvd hx (hx.slli hlane hdvd hshift))
  · exact ⟨x, rfl, hx⟩
termination_by vectorWidth / 2 ^ e - move

theorem hsimd_partial_sum_ok (he : 3 ≤ e) (hlane : 32 ∣ vectorWidth) (hdvd : 2 ^ e ∣ vectorWidth)
    (a : Stream) : ∃ sums, hsimd_partial_sum vectorWidth (2 ^ e) a = .ok sums ∧
      ∀ i < vectorWidth / 2 ^ e,
        field (2 ^ e) sums i = sumOfFields (2 ^ e) a (i + 1) % 2 ^ 2 ^ e := by
  obtain ⟨sums, hsums, hagree⟩ := partialSumLoop_ok 1 he hlane hdvd (Agree.refl a)
  refine ⟨sums, hsums, fun i hi ↦ ?_⟩
  have hfields (i : ℕ) (_ : i < vectorWidth / 2 ^ e) : field (2 ^ e) a i =
      (sumOfFields (2 ^ e) a (i + 1) - sumOfFields (2 ^ e) a (i + 1 - 1)) % 2 ^ 2 ^ e := by
    rw [Nat.add_sub_cancel, sumOfFields_succ, Nat.add_sub_cancel_left, Nat.mod_eq_of_lt field_lt]
  rw [(agree_iff hdvd).1 hagree i hi,
    partialSumLoop_fields Nat.one_pos (sumOfFields_mono (2 ^ e) a) hfields hi]
  rfl

/-- There is more than one narrow field in a vector, and the second one is not reached. -/
theorem hsimd_partial_sum_error (he : e < 3) (hpos : 0 < vectorWidth) (hlane : 64 ∣ vectorWidth)
    (a : Stream) : hsimd_partial_sum vectorWidth (2 ^ e) a =
      .error (UnsupportedFieldWidthError (2 ^ e) "mvmd_slli") := by
  have hnarrow : 2 ^ e < 8 := Nat.pow_lt_pow_right (a := 2) (n := 3) (by decide) he
  have hroom := Nat.le_of_dvd hpos hlane
  have hmany : 1 < vectorWidth / 2 ^ e :=
    (Nat.le_div_iff_mul_le (Nat.two_pow_pos e)).2 (by omega)
  rw [hsimd_partial_sum, partialSumLoop, if_pos ⟨Nat.one_pos, hmany⟩, moveFields, if_pos hnarrow]
  rfl

/-- Every count is right. Every sum of fields of a byte or more is right as far as it fits, so that
the last one of the populations is that of the vector. Narrower fields are not summed. -/
theorem popcounts_exact (hpos : 0 < vectorWidth) (hlane : 64 ∣ vectorWidth)
    (hdvd : 2 ^ e ∣ vectorWidth) (a : Stream) :
    ∃ counts, simd_popcount vectorWidth (2 ^ e) a = .ok counts ∧
      (∀ i < vectorWidth / 2 ^ e, field (2 ^ e) counts i = pop a (2 ^ e * i) (2 ^ e)) ∧
      (3 ≤ e →
        (∃ sums, hsimd_partial_sum vectorWidth (2 ^ e) a = .ok sums ∧
          ∀ i < vectorWidth / 2 ^ e, field (2 ^ e) sums i =
            (∑ k ∈ Finset.range (i + 1), field (2 ^ e) a k) % 2 ^ 2 ^ e) ∧
        ∃ sums, hsimd_partial_sum vectorWidth (2 ^ e) counts = .ok sums ∧
          (rank a vectorWidth < 2 ^ 2 ^ e →
            field (2 ^ e) sums (vectorWidth / 2 ^ e - 1) = rank a vectorWidth)) ∧
      (e < 3 → hsimd_partial_sum vectorWidth (2 ^ e) a =
        .error (UnsupportedFieldWidthError (2 ^ e) "mvmd_slli")) := by
  have hhalf : 32 ∣ vectorWidth := (by decide : 32 ∣ 64).trans hlane
  refine ⟨_, simd_popcount_eq vectorWidth e a, fun i _ ↦ field_popcount (2 ^ e), fun he ↦ ?_,
    fun he ↦ hsimd_partial_sum_error he hpos hlane a⟩
  refine ⟨hsimd_partial_sum_ok he hhalf hdvd a, ?_⟩
  obtain ⟨sums, hsums, hfields⟩ :=
    hsimd_partial_sum_ok he hhalf hdvd (IDISA.simd_popcount (2 ^ e) a)
  have hcount : 0 < vectorWidth / 2 ^ e :=
    Nat.div_pos (Nat.le_of_dvd hpos hdvd) (Nat.two_pow_pos e)
  refine ⟨sums, hsums, fun hfits ↦ ?_⟩
  rw [hfields _ (by omega), Nat.sub_add_cancel hcount, sumOfFields_popcount,
    Nat.mul_div_cancel' hdvd, Nat.mod_eq_of_lt hfits]

/-- The ones of eight bytes. -/
theorem popcounts_exact_bytes : ∃ counts sums,
    simd_popcount 64 (2 ^ 3) (fun _ ↦ true) = .ok counts ∧
      hsimd_partial_sum 64 (2 ^ 3) counts = .ok sums ∧ field (2 ^ 3) sums 7 = 64 := by
  obtain ⟨counts, hcounts, -, hsum, -⟩ := popcounts_exact (show 0 < 64 by decide)
    (show 64 ∣ 64 by decide) (show 2 ^ 3 ∣ 64 by decide) fun _ ↦ true
  obtain ⟨-, sums, hsums, hlast⟩ := hsum (le_refl 3)
  exact ⟨counts, sums, hcounts, hsums, hlast (by decide)⟩

/-- There are no sums of nibbles. -/
theorem hsimd_partial_sum_nibbles :
    ¬ ∃ sums, hsimd_partial_sum 128 (2 ^ 2) (fun _ ↦ true) = .ok sums ∧
      ∀ i < 128 / 2 ^ 2, field (2 ^ 2) sums i =
        (∑ k ∈ Finset.range (i + 1), field (2 ^ 2) (fun _ ↦ true) k) % 2 ^ 2 ^ 2 := by
  rintro ⟨sums, hsums, -⟩
  rw [hsimd_partial_sum_error (by decide) (by decide) (by decide)] at hsums
  cases hsums

end PartialSums

end Parabix.IDISA.IDISA_Builder
