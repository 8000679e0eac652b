import Mathlib.Tactic.IntervalCases
import Parabix.IDISA.Moves

namespace Parabix.IDISA.IDISA_Builder

open Library Library.BitStream

section Positions

variable {w p s : ℕ}

theorem mod_sub_of_le (h : s ≤ p % w) : (p - s) % w = p % w - s := by
  rcases Nat.eq_zero_or_pos w with rfl | hw
  · rw [Nat.mod_zero, Nat.mod_zero]
  have hdiv := Nat.div_add_mod p w
  have hmod := Nat.mod_lt p hw
  rw [show p - s = w * (p / w) + (p % w - s) by omega, mul_add_mod_of_lt (by omega)]

theorem mod_sub_of_lt (h : p % w < s) (hp : s ≤ p) (hs : s < w) :
    (p - s) % w = p % w + w - s := by
  have hdiv := Nat.div_add_mod p w
  have hquot : p / w ≠ 0 := by
    intro h0
    rw [Nat.mod_eq_of_lt ((Nat.div_eq_zero_iff_lt (by omega)).1 h0)] at h
    omega
  obtain ⟨q, hq⟩ := Nat.exists_eq_succ_of_ne_zero hquot
  rw [hq, Nat.mul_succ] at hdiv
  rw [show p - s = w * q + (p % w + w - s) by omega, mul_add_mod_of_lt (by omega)]

theorem mod_add_of_lt (h : p % w + s < w) : (p + s) % w = p % w + s := by
  have hdiv := Nat.div_add_mod p w
  rw [show p + s = w * (p / w) + (p % w + s) by omega, mul_add_mod_of_lt h]

theorem mod_add_of_le (h : w ≤ p % w + s) (hs : s < w) : (p + s) % w = p % w + s - w := by
  have hdiv := Nat.div_add_mod p w
  have hmod := Nat.mod_lt p (show 0 < w by omega)
  rw [show p + s = w * (p / w + 1) + (p % w + s - w) by rw [Nat.mul_succ]; omega,
    mul_add_mod_of_lt (by omega)]

theorem mod_le_mod {m : ℕ} (h : w ∣ m) (p : ℕ) : p % w ≤ p % m := by
  rw [← Nat.mod_mod_of_dvd p h]
  exact Nat.mod_le _ _

end Positions

section Native

variable (fw : ℕ) (a : Stream) (shift : ℕ)

/-- The shifts of vectors by a constant less than the width of a field, as the hardware has them:
every field is shifted on its own. -/
def createShl : Stream := fun p ↦ decide (shift ≤ p % fw) && a (p - shift)

def createLShr : Stream := fun p ↦ decide (p % fw + shift < fw) && a (p + shift)

/-- The sign of the field comes in. -/
def createAShr : Stream := fun p ↦
  if p % fw + shift < fw then a (p + shift) else a (p - p % fw + (fw - 1))

/-- Every field has its low bits set, and its high bits. -/
def lowBitsSet (bits : ℕ) : Stream := fun p ↦ decide (p % fw < bits)

def highBitsSet (bits : ℕ) : Stream := fun p ↦ decide (fw - bits ≤ p % fw)

variable {fw a shift} {i : ℕ}

theorem field_createShl : field fw (createShl fw a shift) i = field fw a i <<< shift % 2 ^ fw := by
  apply Nat.eq_of_testBit_eq
  intro j
  rw [testBit_field, Nat.testBit_mod_two_pow, Nat.testBit_shiftLeft, testBit_field]
  by_cases hj : j < fw
  · rw [createShl, mul_add_mod_of_lt hj]
    by_cases hs : shift ≤ j
    · rw [decide_eq_true hs, decide_eq_true (show j - shift < fw by omega), Bool.true_and,
        Nat.add_sub_assoc hs]
      rfl
    · rw [decide_eq_false hs]
      rfl
  · rw [decide_eq_false hj, Bool.false_and, Bool.false_and]

theorem field_createLShr : field fw (createLShr fw a shift) i = field fw a i >>> shift := by
  apply Nat.eq_of_testBit_eq
  intro j
  rw [testBit_field, Nat.testBit_shiftRight, testBit_field, Nat.add_comm shift]
  by_cases hj : j < fw
  · rw [createLShr, mul_add_mod_of_lt hj, decide_eq_true hj, Bool.true_and, Nat.add_assoc]
  · rw [decide_eq_false hj, decide_eq_false (by omega), Bool.false_and, Bool.false_and]

end Native

section Moves

variable (vectorWidth : ℕ)

/-- The fields of `b` and those of `a` behind them, from `shift` fields before `a` on. -/
def createShuffleVector (fw : ℕ) (b a : Stream) (shift : ℕ) : Stream := fun p ↦
  let field_count := vectorWidth / fw
  let idx := p / fw + field_count - shift
  if idx < field_count then b (fw * idx + p % fw) else a (fw * (idx - field_count) + p % fw)

/-- The shifts of 32-bit fields are native. -/
def mvmd_dslli (fw : ℕ) (a b : Stream) (shift : ℕ) : Stream :=
  if shift = 0 then a
  else if 32 < fw then mvmd_dslli 32 a b (shift * (fw / 32))
  else if shift % 2 = 0 ∧ 0 < fw ∧ fw < 32 then mvmd_dslli (2 * fw) a b (shift / 2)
  else if 16 ≤ fw then createShuffleVector vectorWidth fw b a shift
  else
    let field32_shift := shift * fw / 32
    let bit_shift := shift * fw % 32
    simd_or (createShl 32 (mvmd_dslli 32 a b field32_shift) bit_shift)
      (createLShr 32 (mvmd_dslli 32 a b (field32_shift + 1)) (32 - bit_shift))
termination_by if 32 < fw then 1 else if fw = 32 then 0 else 34 - fw
decreasing_by all_goals (split_ifs <;> omega)

def mvmd_slli (fw : ℕ) (a : Stream) (shift : ℕ) : Stream :=
  if shift = 0 then a else mvmd_dslli vectorWidth fw a (fun _ ↦ false) shift

def mvmd_srli (fw : ℕ) (a : Stream) (shift : ℕ) : Stream :=
  if shift = 0 then a
  else mvmd_dslli vectorWidth fw (fun _ ↦ false) a (vectorWidth / fw - shift)

/-- Two vectors as one, shifted by a number of bits. -/
def doubleShift (a b : Stream) (bits : ℕ) : Stream := fun p ↦
  if p < bits then b (vectorWidth + p - bits) else a (p - bits)

end Moves

section DoubleShift

variable {vectorWidth : ℕ} {a b : Stream} {shift p : ℕ}

theorem doubleShift_zero : doubleShift vectorWidth a b 0 = a := by
  funext p
  rw [doubleShift, if_neg (Nat.not_lt_zero p), Nat.sub_zero]

theorem createShuffleVector_apply {fw : ℕ} (hdvd : fw ∣ vectorWidth)
    (hshift : fw * shift ≤ vectorWidth) (hp : p < vectorWidth) :
    createShuffleVector vectorWidth fw b a shift p =
      doubleShift vectorWidth a b (fw * shift) p := by
  obtain ⟨count, rfl⟩ := hdvd
  have hpos : 0 < fw := Nat.pos_of_mul_pos_right (Nat.zero_lt_of_lt hp)
  have hsome : 0 < count := Nat.pos_of_mul_pos_left (Nat.zero_lt_of_lt hp)
  have hcount : shift ≤ count := Nat.le_of_mul_le_mul_left hshift hpos
  have hdiv := Nat.div_add_mod p fw
  have hmod := Nat.mod_lt p hpos
  rw [createShuffleVector, doubleShift, Nat.mul_div_cancel_left count hpos]
  by_cases hlow : p < fw * shift
  · have hquot : p / fw < shift := Nat.div_lt_of_lt_mul hlow
    have hidx : fw * (p / fw + count - shift) = fw * (p / fw) + fw * count - fw * shift := by
      rw [Nat.mul_sub, Nat.mul_add]
    rw [if_pos hlow, if_pos (by omega), hidx]
    congr 1
    omega
  · have hquot : shift ≤ p / fw := (Nat.le_div_iff_mul_le hpos).2 (by rw [Nat.mul_comm]; omega)
    have hidx : fw * (p / fw + count - shift - count) = fw * (p / fw) - fw * shift := by
      rw [show p / fw + count - shift - count = p / fw - shift by omega, Nat.mul_sub]
    have hle : fw * shift ≤ fw * (p / fw) := Nat.mul_le_mul_left fw hquot
    rw [if_neg hlow, if_neg (by omega), hidx]
    congr 1
    omega

/-- The shift of the doubled vector by a number of bits that is not one of 32-bit fields. -/
theorem doubleShift_add {n r : ℕ} (hr : 0 < r) (hlt : r < 32) (hroom : 32 * n + 32 ≤ vectorWidth)
    {low high : Stream} (hlow : ∀ q < vectorWidth, low q = doubleShift vectorWidth a b (32 * n) q)
    (hhigh : ∀ q < vectorWidth, high q = doubleShift vectorWidth a b (32 * (n + 1)) q)
    (hdvd : 32 ∣ vectorWidth) (hp : p < vectorWidth) :
    simd_or (createShl 32 low r) (createLShr 32 high (32 - r)) p =
      doubleShift vectorWidth a b (32 * n + r) p := by
  have hmod := Nat.mod_lt p (show 0 < 32 by decide)
  have hend : p - p % 32 + 32 ≤ vectorWidth := by omega
  rw [simd_or, createShl, createLShr]
  by_cases hcut : r ≤ p % 32
  · rw [decide_eq_true hcut, decide_eq_false (show ¬ p % 32 + (32 - r) < 32 by omega),
      Bool.true_and, Bool.false_and, Bool.or_false, hlow _ (by omega), doubleShift, doubleShift]
    by_cases hfirst : p < 32 * n + r
    · rw [if_pos hfirst, if_pos (by omega)]
      congr 1
      omega
    · rw [if_neg hfirst, if_neg (by omega)]
      congr 1
      omega
  · rw [decide_eq_false hcut, decide_eq_true (show p % 32 + (32 - r) < 32 by omega),
      Bool.false_and, Bool.true_and, Bool.false_or, hhigh _ (by omega), doubleShift, doubleShift]
    by_cases hfirst : p < 32 * n + r
    · rw [if_pos hfirst, if_pos (by omega)]
      congr 1
      omega
    · rw [if_neg hfirst, if_neg (by omega)]
      congr 1
      omega

theorem mvmd_dslli_native (hdvd : 32 ∣ vectorWidth) (hshift : 32 * shift ≤ vectorWidth)
    (hp : p < vectorWidth) :
    mvmd_dslli vectorWidth 32 a b shift p = doubleShift vectorWidth a b (32 * shift) p := by
  rw [mvmd_dslli]
  split_ifs with hzero
  · rw [hzero, Nat.mul_zero, doubleShift_zero]
  · exact absurd ‹_› (by decide)
  · omega
  · exact createShuffleVector_apply hdvd hshift hp
  · exact absurd ‹_› (by decide)

/-- A vector is shifted by fields of a power of two of bits, those of the other one come in. -/
theorem mvmd_dslli_apply {e shift : ℕ} (hdvd : 32 ∣ vectorWidth) (hfield : 2 ^ e ∣ vectorWidth)
    (hshift : 2 ^ e * shift ≤ vectorWidth) (hp : p < vectorWidth) :
    mvmd_dslli vectorWidth (2 ^ e) a b shift p = doubleShift vectorWidth a b (2 ^ e * shift) p := by
  rw [mvmd_dslli]
  split_ifs with hzero hwide hpair hshuffle
  · rw [hzero, Nat.mul_zero, doubleShift_zero]
  · have hfive : 5 ≤ e := ((Nat.pow_lt_pow_iff_right (a := 2) (n := 5) (by decide)).1 hwide).le
    obtain ⟨k, rfl⟩ := Nat.exists_eq_add_of_le hfive
    have hmul : 32 * (shift * (2 ^ (5 + k) / 32)) = 2 ^ (5 + k) * shift := by
      rw [pow_add, show 2 ^ 5 = 32 from rfl, Nat.mul_div_cancel_left _ (by decide)]
      ring
    rw [mvmd_dslli_native hdvd (by omega) hp, hmul]
  · have hmul : 2 ^ (e + 1) * (shift / 2) = 2 ^ e * shift := by
      rw [pow_succ, Nat.mul_assoc, Nat.mul_div_cancel' (Nat.dvd_of_mod_eq_zero hpair.1)]
    have hlt : e < 5 := (Nat.pow_lt_pow_iff_right (a := 2) (m := 5) (by decide)).1 hpair.2.2
    have hnext : 2 ^ (e + 1) ∣ vectorWidth :=
      (Nat.pow_dvd_pow 2 (show e + 1 ≤ 5 by omega)).trans hdvd
    have hdouble := mvmd_dslli_apply hdvd hnext (hmul.trans_le hshift) hp
    rw [show 2 * 2 ^ e = 2 ^ (e + 1) by rw [pow_succ, Nat.mul_comm], hdouble, hmul]
  · exact createShuffleVector_apply hfield hshift hp
  · have hlt : e < 4 := by
      by_contra hge
      exact hshuffle (Nat.pow_le_pow_right (i := 4) Nat.two_pos (by omega))
    have hodd : shift % 2 = 1 := by
      have hsmall : 2 ^ e < 32 := by omega
      by_contra heven
      exact hpair ⟨by omega, Nat.two_pow_pos e, hsmall⟩
    have hrest : 2 ^ e * shift % 32 ≠ 0 := by
      interval_cases e <;> omega
    have hdiv := Nat.div_add_mod (2 ^ e * shift) 32
    have hmod := Nat.mod_lt (2 ^ e * shift) (show 0 < 32 by decide)
    have hroom : 32 * (2 ^ e * shift / 32) + 32 ≤ vectorWidth := by omega
    rw [Nat.mul_comm shift]
    dsimp only
    rw [doubleShift_add (Nat.pos_of_ne_zero hrest) hmod hroom
      (fun q hq ↦ mvmd_dslli_native hdvd (by omega) hq)
      (fun q hq ↦ mvmd_dslli_native hdvd (by omega) hq) hdvd hp, hdiv]
termination_by 5 - e
decreasing_by omega

theorem mvmd_slli_apply {e : ℕ} (hdvd : 32 ∣ vectorWidth) (hfield : 2 ^ e ∣ vectorWidth)
    (hshift : 2 ^ e * shift ≤ vectorWidth) (hp : p < vectorWidth) :
    mvmd_slli vectorWidth (2 ^ e) a shift p =
      (decide (2 ^ e * shift ≤ p) && a (p - 2 ^ e * shift)) := by
  rw [mvmd_slli]
  split_ifs with hzero
  · rw [hzero, Nat.mul_zero, decide_eq_true (Nat.zero_le p), Bool.true_and, Nat.sub_zero]
  · rw [mvmd_dslli_apply hdvd hfield hshift hp, doubleShift]
    by_cases hlow : p < 2 ^ e * shift
    · rw [if_pos hlow, decide_eq_false (Nat.not_le.2 hlow), Bool.false_and]
    · rw [if_neg hlow, decide_eq_true (Nat.not_lt.1 hlow), Bool.true_and]

theorem mvmd_srli_apply {e : ℕ} (hdvd : 32 ∣ vectorWidth) (hfield : 2 ^ e ∣ vectorWidth)
    (hshift : 2 ^ e * shift ≤ vectorWidth) (hp : p < vectorWidth) :
    mvmd_srli vectorWidth (2 ^ e) a shift p =
      (decide (p + 2 ^ e * shift < vectorWidth) && a (p + 2 ^ e * shift)) := by
  rw [mvmd_srli]
  split_ifs with hzero
  · rw [hzero, Nat.mul_zero, Nat.add_zero, decide_eq_true hp, Bool.true_and]
  · have hmul : 2 ^ e * (vectorWidth / 2 ^ e - shift) = vectorWidth - 2 ^ e * shift := by
      rw [Nat.mul_sub, Nat.mul_div_cancel' hfield]
    rw [mvmd_dslli_apply hdvd hfield (by rw [hmul]; exact Nat.sub_le _ _) hp, hmul, doubleShift]
    by_cases hlow : p + 2 ^ e * shift < vectorWidth
    · rw [if_pos (by omega), decide_eq_true hlow, Bool.true_and]
      congr 1
      omega
    · rw [if_neg (by omega), decide_eq_false hlow, Bool.false_and]

end DoubleShift

section Emulated

variable (vectorWidth fw : ℕ) (a : Stream) (shift : ℕ)

abbrev MAX_NATIVE_SIMD_SHIFT : ℕ := 64

abbrev MIN_NATIVE_SIMD_SHIFT : ℕ := 16

/-- The shift of wide fields by a number of the widest native ones, whose remaining bits are
kept. -/
def shiftedFieldsLeft (fullFieldShift : ℕ) : Stream :=
  if 0 < fullFieldShift then
    let remaining := fw - fullFieldShift * MAX_NATIVE_SIMD_SHIFT
    simd_and (mvmd_slli vectorWidth MAX_NATIVE_SIMD_SHIFT a fullFieldShift)
      (highBitsSet fw remaining)
  else a

def shiftedFieldsRight (fullFieldShift : ℕ) : Stream :=
  if 0 < fullFieldShift then
    let remaining := fw - fullFieldShift * MAX_NATIVE_SIMD_SHIFT
    simd_and (mvmd_srli vectorWidth MAX_NATIVE_SIMD_SHIFT a fullFieldShift)
      (lowBitsSet fw remaining)
  else a

/-- The shifts within wide fields are those of the widest native ones. -/
def simd_slli : Stream :=
  if shift = 0 then a
  else if MAX_NATIVE_SIMD_SHIFT < fw then
    let fullFieldShift := shift / MAX_NATIVE_SIMD_SHIFT
    let subFieldShift := shift % MAX_NATIVE_SIMD_SHIFT
    let fieldShifted := shiftedFieldsLeft vectorWidth fw a fullFieldShift
    if subFieldShift = 0 then fieldShifted
    else
      let extendedShift := createShl MAX_NATIVE_SIMD_SHIFT fieldShifted subFieldShift
      if fw - fullFieldShift < MAX_NATIVE_SIMD_SHIFT then extendedShift
      else
        let overShifted := mvmd_slli vectorWidth MAX_NATIVE_SIMD_SHIFT a (fullFieldShift + 1)
        let backShift := MAX_NATIVE_SIMD_SHIFT - subFieldShift
        simd_or extendedShift (createLShr MAX_NATIVE_SIMD_SHIFT overShifted backShift)
  else if fw < MIN_NATIVE_SIMD_SHIFT then
    createShl MIN_NATIVE_SIMD_SHIFT (simd_and a (lowBitsSet fw (fw - shift))) shift
  else createShl fw a shift

def simd_srli : Stream :=
  if shift = 0 then a
  else if MAX_NATIVE_SIMD_SHIFT < fw then
    let fullFieldShift := shift / MAX_NATIVE_SIMD_SHIFT
    let subFieldShift := shift % MAX_NATIVE_SIMD_SHIFT
    let fieldShifted := shiftedFieldsRight vectorWidth fw a fullFieldShift
    if subFieldShift = 0 then fieldShifted
    else
      let extendedShift := createLShr MAX_NATIVE_SIMD_SHIFT fieldShifted subFieldShift
      if fw - fullFieldShift < MAX_NATIVE_SIMD_SHIFT then extendedShift
      else
        let overShifted := mvmd_srli vectorWidth MAX_NATIVE_SIMD_SHIFT a (fullFieldShift + 1)
        let backShift := MAX_NATIVE_SIMD_SHIFT - subFieldShift
        simd_or extendedShift (createShl MAX_NATIVE_SIMD_SHIFT overShifted backShift)
  else if fw < MIN_NATIVE_SIMD_SHIFT then
    createLShr MIN_NATIVE_SIMD_SHIFT (simd_and a (highBitsSet fw (fw - shift))) shift
  else createLShr fw a shift

def simd_srai : Stream :=
  if shift = 0 then a
  else if fw < MIN_NATIVE_SIMD_SHIFT then
    let sign := simd_and (highBitsSet fw 1) a
    if shift = 1 then simd_or sign (simd_srli vectorWidth MIN_NATIVE_SIMD_SHIFT sign 1)
    else
      simd_or sign (simd_sub MIN_NATIVE_SIMD_SHIFT sign
        (simd_srli vectorWidth MIN_NATIVE_SIMD_SHIFT sign shift))
  else createAShr fw a shift

end Emulated

section Narrow

variable {vectorWidth fw shift p : ℕ} {a b : Stream}

theorem mod_room {w m : ℕ} (h : w ∣ m) (hm : 0 < m) (p : ℕ) : p % m - p % w + w ≤ m := by
  obtain ⟨k, rfl⟩ := h
  have hw : 0 < w := Nat.pos_of_mul_pos_right hm
  have hlt := Nat.mod_lt p hm
  have hdiv := Nat.div_add_mod (p % (w * k)) w
  rw [Nat.mod_mul_right_mod] at hdiv
  have hquot : p % (w * k) / w < k := Nat.div_lt_of_lt_mul hlt
  have hmul : w * (p % (w * k) / w + 1) ≤ w * k := Nat.mul_le_mul_left w hquot
  rw [Nat.mul_succ] at hmul
  omega

/-- Of the wider fields only those bits are shifted that stay in the field. -/
theorem createShl_masked {w : ℕ} (hdvd : fw ∣ w) (hshift : shift < fw) :
    createShl w (simd_and a (lowBitsSet fw (fw - shift))) shift p = createShl fw a shift p := by
  have hle := mod_le_mod hdvd p
  rw [createShl, createShl, simd_and, lowBitsSet]
  by_cases hin : shift ≤ p % fw
  · rw [mod_sub_of_le hin, decide_eq_true hin, decide_eq_true (hin.trans hle),
      decide_eq_true (by have := Nat.mod_lt p (show 0 < fw by omega); omega), Bool.and_true]
  · rw [decide_eq_false hin, Bool.false_and, Bool.and_eq_false_imp, decide_eq_true_eq]
    intro hwide
    rw [mod_sub_of_lt (Nat.not_le.1 hin) (hwide.trans (Nat.mod_le _ _)) hshift,
      decide_eq_false (by omega), Bool.and_false]

theorem createLShr_masked {w : ℕ} (hdvd : fw ∣ w) (hw : 0 < w) (hshift : shift < fw) :
    createLShr w (simd_and a (highBitsSet fw (fw - shift))) shift p = createLShr fw a shift p := by
  have hroom := mod_room hdvd hw p
  have hle := mod_le_mod hdvd p
  rw [createLShr, createLShr, simd_and, highBitsSet, Nat.sub_sub_self hshift.le]
  by_cases hin : p % fw + shift < fw
  · rw [mod_add_of_lt hin, decide_eq_true hin, decide_eq_true (show p % w + shift < w by omega),
      decide_eq_true (Nat.le_add_left _ _), Bool.and_true]
  · rw [decide_eq_false hin, Bool.false_and, Bool.and_eq_false_imp]
    rintro -
    have hmod := Nat.mod_lt p (show 0 < fw by omega)
    rw [mod_add_of_le (Nat.not_lt.1 hin) hshift, decide_eq_false (by omega), Bool.and_false]

theorem stream_ext (hpos : 0 < fw) (h : ∀ i, field fw a i = field fw b i) : a = b := by
  funext p
  rw [← Nat.div_add_mod p fw]
  exact apply_of_field (h _) (Nat.mod_lt p hpos)

theorem field_sub_of_le {i : ℕ} (hle : field fw b i ≤ field fw a i) :
    field fw (simd_sub fw a b) i = field fw a i - field fw b i := by
  have hlt : field fw a i < 2 ^ fw := field_lt
  rw [simd_sub, field_ofFields, show field fw a i + 2 ^ fw - field fw b i =
    field fw a i - field fw b i + 2 ^ fw by omega, Nat.add_mod_right, Nat.mod_eq_of_lt (by omega)]

/-- Where no field is less than the one to be taken away, nothing is borrowed between fields. -/
theorem simd_sub_mul_two {h : ℕ} (hpos : 0 < h) (hle : ∀ i, field h b i ≤ field h a i) :
    simd_sub (h * 2) a b = simd_sub h a b := by
  refine stream_ext (show 0 < h * 2 by omega) fun i ↦ ?_
  have hhigh : 2 ^ h * field h b (2 * i + 1) ≤ 2 ^ h * field h a (2 * i + 1) :=
    Nat.mul_le_mul_left _ (hle _)
  have hlow := hle (2 * i)
  have hwide : field (h * 2) b i ≤ field (h * 2) a i := by
    rw [field_mul_two, field_mul_two]
    omega
  rw [field_sub_of_le hwide, field_mul_two, field_mul_two, field_mul_two,
    field_sub_of_le (hle _), field_sub_of_le (hle _), Nat.mul_sub]
  omega

theorem simd_sub_mul_two_pow {h k : ℕ} (hpos : 0 < h) (hle : ∀ i, field h b i ≤ field h a i) :
    simd_sub (h * 2 ^ k) a b = simd_sub h a b := by
  induction k generalizing h with
  | zero => rw [pow_zero, Nat.mul_one]
  | succ k ih =>
    have hwide (i : ℕ) : field (h * 2) b i ≤ field (h * 2) a i := by
      rw [field_mul_two, field_mul_two]
      exact Nat.add_le_add (hle _) (Nat.mul_le_mul_left _ (hle _))
    rw [show h * 2 ^ (k + 1) = h * 2 * 2 ^ k by ring, ih (by omega) hwide,
      simd_sub_mul_two hpos hle]

theorem testBit_two_pow_sub {m n q : ℕ} (h : n ≤ m) :
    (2 ^ m - 2 ^ n).testBit q = (decide (n ≤ q) && decide (q < m)) := by
  obtain ⟨k, rfl⟩ := Nat.exists_eq_add_of_le h
  rw [show 2 ^ (n + k) - 2 ^ n = 2 ^ n * (2 ^ k - 1) by rw [Nat.mul_sub, pow_add, Nat.mul_one],
    Nat.testBit_two_pow_mul, Nat.testBit_two_pow_sub_one]
  by_cases hq : n ≤ q
  · rw [decide_eq_true hq, Bool.true_and, Bool.true_and]
    exact decide_eq_decide.2 (by omega)
  · rw [decide_eq_false hq, Bool.false_and, Bool.false_and]

end Narrow

section Sign

variable {vectorWidth fw shift p : ℕ} {a : Stream}

theorem sign_apply (hpos : 0 < fw) :
    simd_and (highBitsSet fw 1) a p = (decide (p % fw = fw - 1) && a p) := by
  have hmod := Nat.mod_lt p hpos
  rw [simd_and, highBitsSet]
  congr 1
  exact decide_eq_decide.2 (by omega)

/-- No sign comes to be shifted out of its field. -/
theorem createLShr_sign {w : ℕ} (hdvd : fw ∣ w) (hw : 0 < w) (hshift : shift < fw) :
    createLShr w (simd_and (highBitsSet fw 1) a) shift =
      createLShr fw (simd_and (highBitsSet fw 1) a) shift := by
  funext p
  have hroom := mod_room hdvd hw p
  have hle := mod_le_mod hdvd p
  have hpos : 0 < fw := by omega
  rw [createLShr, createLShr, sign_apply hpos]
  by_cases hin : p % fw + shift < fw
  · rw [decide_eq_true hin, decide_eq_true (show p % w + shift < w by omega)]
  · have hmod := Nat.mod_lt p hpos
    rw [mod_add_of_le (Nat.not_lt.1 hin) hshift,
      decide_eq_false (show ¬ p % fw + shift - fw = fw - 1 by omega), Bool.false_and,
      Bool.and_false, Bool.and_false]

theorem field_sign (hpos : 0 < fw) (i : ℕ) : field fw (simd_and (highBitsSet fw 1) a) i =
    if a (fw * i + (fw - 1)) then 2 ^ (fw - 1) else 0 := by
  apply Nat.eq_of_testBit_eq
  intro j
  rw [testBit_field]
  by_cases hj : j < fw
  · rw [decide_eq_true hj, Bool.true_and, sign_apply hpos, mul_add_mod_of_lt hj]
    by_cases hlast : j = fw - 1
    · rw [hlast, decide_eq_true rfl, Bool.true_and]
      split_ifs with hsign
      · rw [Nat.testBit_two_pow_self, hsign]
      · rw [Nat.zero_testBit, Bool.eq_false_of_not_eq_true hsign]
    · rw [decide_eq_false hlast, Bool.false_and]
      split_ifs
      · exact (Nat.testBit_two_pow_of_ne (Ne.symm hlast)).symm
      · exact (Nat.zero_testBit j).symm
  · rw [decide_eq_false hj, Bool.false_and]
    split_ifs
    · exact (Nat.testBit_two_pow_of_ne (by omega)).symm
    · exact (Nat.zero_testBit j).symm

theorem signBit (hpos : 0 < fw) (p : ℕ) : simd_and (highBitsSet fw 1) a p =
    (decide (p % fw = fw - 1) && a (p - p % fw + (fw - 1))) := by
  rw [sign_apply hpos]
  by_cases hlast : p % fw = fw - 1
  · have hle := Nat.mod_le p fw
    rw [decide_eq_true hlast, show p - p % fw + (fw - 1) = p by omega]
  · rw [decide_eq_false hlast, Bool.false_and, Bool.false_and]

theorem sign_srli_le (i : ℕ) :
    field fw (createLShr fw (simd_and (highBitsSet fw 1) a) shift) i ≤
      field fw (simd_and (highBitsSet fw 1) a) i := by
  rw [field_createLShr]
  exact Nat.shiftRight_le _ _

/-- The bits below the sign that the shift brings it to. -/
theorem sign_sub_srli (hshift : shift < fw) (p : ℕ) :
    simd_sub fw (simd_and (highBitsSet fw 1) a)
        (createLShr fw (simd_and (highBitsSet fw 1) a) shift) p =
      (decide (fw ≤ p % fw + shift + 1) && decide (p % fw < fw - 1) &&
        a (p - p % fw + (fw - 1))) := by
  have hpos : 0 < fw := by omega
  have hmod := Nat.mod_lt p hpos
  have hbase : fw * (p / fw) = p - p % fw := by
    have hdiv := Nat.div_add_mod p fw
    omega
  have hbit : (field fw (simd_sub fw (simd_and (highBitsSet fw 1) a)
      (createLShr fw (simd_and (highBitsSet fw 1) a) shift)) (p / fw)).testBit (p % fw) =
      (decide (fw ≤ p % fw + shift + 1) && decide (p % fw < fw - 1) &&
        a (p - p % fw + (fw - 1))) := by
    rw [field_sub_of_le (sign_srli_le _), field_createLShr, field_sign hpos, hbase]
    split_ifs with hsign
    · rw [hsign, Bool.and_true, Nat.shiftRight_eq_div_pow, Nat.pow_div (by omega) Nat.two_pos,
        testBit_two_pow_sub (by omega)]
      congr 1
      exact decide_eq_decide.2 (by omega)
    · rw [Bool.eq_false_of_not_eq_true hsign, Bool.and_false, Nat.zero_shiftRight, Nat.sub_zero,
        Nat.zero_testBit]
  rw [testBit_field, decide_eq_true hmod, Bool.true_and, Nat.div_add_mod] at hbit
  exact hbit

theorem sign_or_srli (hfw : 1 < fw) (p : ℕ) :
    simd_or (simd_and (highBitsSet fw 1) a)
        (createLShr fw (simd_and (highBitsSet fw 1) a) 1) p =
      (decide (fw ≤ p % fw + 1 + 1) && a (p - p % fw + (fw - 1))) := by
  have hpos : 0 < fw := by omega
  have hmod := Nat.mod_lt p hpos
  rw [simd_or, createLShr, signBit hpos, signBit hpos]
  by_cases hin : p % fw + 1 < fw
  · rw [mod_add_of_lt hin, decide_eq_true hin, decide_eq_false (show ¬ p % fw = fw - 1 by omega),
      Bool.false_and, Bool.false_or, Bool.true_and,
      show p + 1 - (p % fw + 1) = p - p % fw by omega]
    congr 1
    exact decide_eq_decide.2 (by omega)
  · rw [decide_eq_false hin, decide_eq_true (show p % fw = fw - 1 by omega),
      decide_eq_true (show fw ≤ p % fw + 1 + 1 by omega), Bool.false_and, Bool.or_false]

/-- The copies of the sign, without the data below. -/
theorem simd_srai_narrow {e : ℕ} (he : e < 4) (hzero : 0 < shift) (hshift : shift < 2 ^ e)
    (p : ℕ) : simd_srai vectorWidth (2 ^ e) a shift p =
      (decide (2 ^ e ≤ p % 2 ^ e + shift + 1) && a (p - p % 2 ^ e + (2 ^ e - 1))) := by
  obtain ⟨k, hk⟩ := Nat.exists_eq_add_of_le he.le
  have hdvd : 2 ^ e ∣ 16 := Nat.pow_dvd_pow 2 (n := 4) he.le
  have hlt : 2 ^ e < MIN_NATIVE_SIMD_SHIFT :=
    (Nat.pow_lt_pow_iff_right (n := e) (m := 4) (by decide)).2 he
  have hpos : 0 < 2 ^ e := Nat.two_pow_pos e
  have hmod := Nat.mod_lt p hpos
  have hwide : MIN_NATIVE_SIMD_SHIFT = 2 ^ e * 2 ^ k := by
    rw [← pow_add, ← hk]
    rfl
  have hlogical (s : ℕ) (hs : 0 < s) (x : Stream) :
      simd_srli vectorWidth MIN_NATIVE_SIMD_SHIFT x s = createLShr 16 x s := by
    rw [simd_srli, if_neg (by omega), if_neg (by decide), if_neg (by decide)]
  rw [simd_srai, if_neg (by omega), if_pos hlt, hlogical _ hzero, hlogical _ Nat.one_pos,
    createLShr_sign hdvd (by decide) hshift]
  split_ifs with hone
  · subst hone
    rw [createLShr_sign hdvd (by decide) hshift, sign_or_srli hshift]
  · rw [hwide, simd_sub_mul_two_pow hpos sign_srli_le, simd_or, sign_sub_srli hshift,
      signBit hpos]
    by_cases hlast : p % 2 ^ e = 2 ^ e - 1
    · rw [decide_eq_true hlast, decide_eq_false (show ¬ p % 2 ^ e < 2 ^ e - 1 by omega),
        decide_eq_true (show 2 ^ e ≤ p % 2 ^ e + shift + 1 by omega), Bool.and_false,
        Bool.false_and, Bool.or_false]
    · rw [decide_eq_false hlast, decide_eq_true (show p % 2 ^ e < 2 ^ e - 1 by omega),
        Bool.false_and, Bool.false_or, Bool.and_true]

end Sign

section Wide

variable {e vectorWidth shift n p : ℕ} {a : Stream}

theorem lane_dvd (he : 6 < e) : 64 ∣ 2 ^ e := Nat.pow_dvd_pow 2 (m := 6) he.le

theorem move_native (hdvd : 2 ^ e ∣ vectorWidth) (he : 6 < e) (hn : 64 * n ≤ vectorWidth)
    (hp : p < vectorWidth) :
    mvmd_slli vectorWidth 64 a n p = (decide (64 * n ≤ p) && a (p - 64 * n)) ∧
      mvmd_srli vectorWidth 64 a n p =
        (decide (p + 64 * n < vectorWidth) && a (p + 64 * n)) := by
  have hlane : 2 ^ 6 ∣ vectorWidth := (lane_dvd he).trans hdvd
  have hhalf : 32 ∣ vectorWidth := (show 32 ∣ 2 ^ 6 by decide).trans hlane
  exact ⟨mvmd_slli_apply (e := 6) hhalf hlane hn hp, mvmd_srli_apply (e := 6) hhalf hlane hn hp⟩

theorem shiftedFieldsLeft_apply (hdvd : 2 ^ e ∣ vectorWidth) (he : 6 < e) (hn : 64 * n < 2 ^ e)
    (hp : p < vectorWidth) : shiftedFieldsLeft vectorWidth (2 ^ e) a n p =
      (decide (64 * n ≤ p % 2 ^ e) && a (p - 64 * n)) := by
  have hfield := Nat.le_of_dvd (Nat.zero_lt_of_lt hp) hdvd
  have hle := Nat.mod_le p (2 ^ e)
  rw [shiftedFieldsLeft, MAX_NATIVE_SIMD_SHIFT]
  split_ifs with hsome
  · rw [simd_and, (move_native hdvd he (by omega) hp).1, highBitsSet, Nat.mul_comm n,
      Nat.sub_sub_self hn.le]
    by_cases hin : 64 * n ≤ p % 2 ^ e
    · rw [decide_eq_true hin, decide_eq_true (hin.trans hle), Bool.and_true]
    · rw [decide_eq_false hin, Bool.false_and, Bool.and_false]
  · rw [show n = 0 by omega, Nat.mul_zero, Nat.sub_zero, decide_eq_true (Nat.zero_le _),
      Bool.true_and]

theorem shiftedFieldsRight_apply (hdvd : 2 ^ e ∣ vectorWidth) (he : 6 < e) (hn : 64 * n < 2 ^ e)
    (hp : p < vectorWidth) : shiftedFieldsRight vectorWidth (2 ^ e) a n p =
      (decide (p % 2 ^ e + 64 * n < 2 ^ e) && a (p + 64 * n)) := by
  have hfield := Nat.le_of_dvd (Nat.zero_lt_of_lt hp) hdvd
  have hmod := Nat.mod_lt p (Nat.two_pow_pos e)
  have hroom := mod_room hdvd (Nat.zero_lt_of_lt hp) p
  rw [Nat.mod_eq_of_lt hp] at hroom
  rw [shiftedFieldsRight, MAX_NATIVE_SIMD_SHIFT]
  split_ifs with hsome
  · rw [simd_and, (move_native hdvd he (by omega) hp).2, lowBitsSet, Nat.mul_comm n]
    by_cases hin : p % 2 ^ e + 64 * n < 2 ^ e
    · rw [decide_eq_true hin, decide_eq_true (show p % 2 ^ e < 2 ^ e - 64 * n by omega),
        decide_eq_true (show p + 64 * n < vectorWidth by omega), Bool.and_true]
    · rw [decide_eq_false hin, decide_eq_false (show ¬ p % 2 ^ e < 2 ^ e - 64 * n by omega),
        Bool.false_and, Bool.and_false]
  · rw [show n = 0 by omega, Nat.mul_zero, Nat.add_zero, Nat.add_zero, decide_eq_true hmod,
      Bool.true_and]

/-- The bits that the lane below brings in may be those of another field. -/
theorem simd_slli_wide (hdvd : 2 ^ e ∣ vectorWidth) (he : 6 < e) (hzero : 0 < shift)
    (hshift : shift < 2 ^ e) (hp : p < vectorWidth) :
    simd_slli vectorWidth (2 ^ e) a shift p =
      (decide (shift ≤ p % 2 ^ e ∨ shift ≤ p ∧ p % 64 < shift % 64) && a (p - shift)) := by
  obtain ⟨lanes, hlanes⟩ := lane_dvd he
  have hfield := Nat.le_of_dvd (Nat.zero_lt_of_lt hp) hdvd
  have hdiv := Nat.div_add_mod shift 64
  have hwide : 64 < 2 ^ e := (Nat.pow_lt_pow_iff_right (a := 2) (n := 6) (by decide)).2 he
  have hle := Nat.mod_le p (2 ^ e)
  have hlane := mod_le_mod (lane_dvd he) p
  have hmod := Nat.mod_lt p (show 0 < 64 by decide)
  have hend := mod_room ((lane_dvd he).trans hdvd) (Nat.zero_lt_of_lt hp) p
  rw [Nat.mod_eq_of_lt hp] at hend
  rw [simd_slli, if_neg hzero.ne', if_pos hwide]
  dsimp only [MAX_NATIVE_SIMD_SHIFT]
  split_ifs with hsub
  · rw [shiftedFieldsLeft_apply hdvd he (by omega) hp, show 64 * (shift / 64) = shift by omega]
    congr 1
    exact decide_eq_decide.2 (by omega)
  · omega
  · rw [simd_or, createShl, createLShr]
    by_cases hcut : shift % 64 ≤ p % 64
    · rw [shiftedFieldsLeft_apply hdvd he (by omega) (by omega), mod_sub_of_le (hcut.trans hlane),
        decide_eq_true hcut, decide_eq_false (show ¬ p % 64 + (64 - shift % 64) < 64 by omega),
        Bool.true_and, Bool.false_and, Bool.or_false,
        show p - shift % 64 - 64 * (shift / 64) = p - shift by omega]
      congr 1
      exact decide_eq_decide.2 (by omega)
    · rw [(move_native hdvd he (by omega) (by omega)).1, decide_eq_false hcut,
        decide_eq_true (show p % 64 + (64 - shift % 64) < 64 by omega), Bool.false_and,
        Bool.true_and, Bool.false_or,
        show p + (64 - shift % 64) - 64 * (shift / 64 + 1) = p - shift by omega]
      congr 1
      exact decide_eq_decide.2 (by omega)

theorem simd_srli_wide (hdvd : 2 ^ e ∣ vectorWidth) (he : 6 < e) (hzero : 0 < shift)
    (hshift : shift < 2 ^ e) (hp : p < vectorWidth) :
    simd_srli vectorWidth (2 ^ e) a shift p =
      (decide (p % 2 ^ e + shift < 2 ^ e ∨ p + shift < vectorWidth ∧ 64 ≤ p % 64 + shift % 64) &&
        a (p + shift)) := by
  obtain ⟨lanes, hlanes⟩ := lane_dvd he
  have hfield := Nat.le_of_dvd (Nat.zero_lt_of_lt hp) hdvd
  have hdiv := Nat.div_add_mod shift 64
  have hwide : 64 < 2 ^ e := (Nat.pow_lt_pow_iff_right (a := 2) (n := 6) (by decide)).2 he
  have hroom := mod_room hdvd (Nat.zero_lt_of_lt hp) p
  rw [Nat.mod_eq_of_lt hp] at hroom
  have hlane := mod_room (lane_dvd he) (Nat.two_pow_pos e) p
  have hmod := Nat.mod_lt p (show 0 < 64 by decide)
  rw [simd_srli, if_neg hzero.ne', if_pos hwide]
  dsimp only [MAX_NATIVE_SIMD_SHIFT]
  split_ifs with hsub
  · rw [shiftedFieldsRight_apply hdvd he (by omega) hp, show 64 * (shift / 64) = shift by omega]
    congr 1
    exact decide_eq_decide.2 (by omega)
  · omega
  · rw [simd_or, createShl, createLShr]
    by_cases hcut : p % 64 + shift % 64 < 64
    · rw [shiftedFieldsRight_apply hdvd he (by omega) (by omega), mod_add_of_lt (by omega),
        decide_eq_true hcut, decide_eq_false (show ¬ 64 - shift % 64 ≤ p % 64 by omega),
        Bool.true_and, Bool.false_and, Bool.or_false,
        show p + shift % 64 + 64 * (shift / 64) = p + shift by omega]
      congr 1
      exact decide_eq_decide.2 (by omega)
    · rw [(move_native hdvd he (by omega) (by omega)).2, decide_eq_false hcut,
        decide_eq_true (show 64 - shift % 64 ≤ p % 64 by omega), Bool.false_and,
        Bool.true_and, Bool.false_or,
        show p - (64 - shift % 64) + 64 * (shift / 64 + 1) = p + shift by omega]
      congr 1
      exact decide_eq_decide.2 (by omega)

end Wide

section OnFields

variable {fw vectorWidth shift : ℕ} {a y : Stream}

/-- Every field of a vector comes from that of another one alone. -/
def OnFields (fw vectorWidth : ℕ) (op : BitVec fw → BitVec fw) (a y : Stream) : Prop :=
  ∀ i < vectorWidth / fw, field fw y i = (op (BitVec.ofNat fw (field fw a i))).toNat

theorem fields_eq_iff {x : Stream} (hdvd : fw ∣ vectorWidth) (hpos : 0 < fw) :
    (∀ i < vectorWidth / fw, field fw y i = field fw x i) ↔ ∀ p < vectorWidth, y p = x p := by
  constructor
  · intro h p hp
    rw [← Nat.div_add_mod p fw]
    exact apply_of_field (h _ (Nat.div_lt_div_of_lt_of_dvd hdvd hp)) (Nat.mod_lt p hpos)
  · intro h i hi
    refine field_congr fun j hj ↦ h _ ?_
    calc fw * i + j < fw * (i + 1) := by rw [Nat.mul_succ]; omega
      _ ≤ fw * (vectorWidth / fw) := Nat.mul_le_mul_left fw hi
      _ = vectorWidth := Nat.mul_div_cancel' hdvd

theorem ofNat_field (i : ℕ) : (BitVec.ofNat fw (field fw a i)).toNat = field fw a i :=
  (BitVec.toNat_ofNat _ _).trans (Nat.mod_eq_of_lt field_lt)

theorem onFields_shl (hdvd : fw ∣ vectorWidth) (hpos : 0 < fw) :
    OnFields fw vectorWidth (· <<< shift) a y ↔
      ∀ p < vectorWidth, y p = createShl fw a shift p := by
  rw [← fields_eq_iff hdvd hpos, OnFields]
  simp only [field_createShl, BitVec.toNat_shiftLeft, ofNat_field]

theorem onFields_lshr (hdvd : fw ∣ vectorWidth) (hpos : 0 < fw) :
    OnFields fw vectorWidth (· >>> shift) a y ↔
      ∀ p < vectorWidth, y p = createLShr fw a shift p := by
  rw [← fields_eq_iff hdvd hpos, OnFields]
  simp only [field_createLShr, BitVec.toNat_ushiftRight, ofNat_field]

theorem field_createAShr (i : ℕ) : field fw (createAShr fw a shift) i =
    ((BitVec.ofNat fw (field fw a i)).sshiftRight shift).toNat := by
  apply Nat.eq_of_testBit_eq
  intro j
  rw [testBit_field, BitVec.testBit_toNat, BitVec.getLsbD_sshiftRight, BitVec.msb_eq_getLsbD_last,
    BitVec.getLsbD_ofNat, BitVec.getLsbD_ofNat, testBit_field, testBit_field]
  by_cases hj : j < fw
  · rw [createAShr, mul_add_mod_of_lt hj, decide_eq_true hj, decide_eq_false (Nat.not_le.2 hj),
      Nat.add_sub_cancel, decide_eq_true (show fw - 1 < fw by omega), Nat.add_comm j]
    split_ifs with hin
    · rw [decide_eq_true hin, Nat.add_comm shift, Nat.add_assoc]
      rfl
    · rfl
  · rw [decide_eq_false hj, decide_eq_true (Nat.not_lt.1 hj)]
    rfl

theorem onFields_ashr (hdvd : fw ∣ vectorWidth) (hpos : 0 < fw) :
    OnFields fw vectorWidth (·.sshiftRight shift) a y ↔
      ∀ p < vectorWidth, y p = createAShr fw a shift p := by
  rw [← fields_eq_iff hdvd hpos, OnFields]
  simp only [field_createAShr]

end OnFields

section Shifts

variable {e vectorWidth shift p : ℕ} {a : Stream}

theorem narrow_or_native (he : e ≤ 6) : ¬ MAX_NATIVE_SIMD_SHIFT < 2 ^ e :=
  Nat.not_lt.2 (Nat.pow_le_pow_right (n := 2) (j := 6) Nat.two_pos he)

/-- Fields of no more than 64 bits are shifted as the native ones. -/
theorem simd_slli_eq_createShl (he : e ≤ 6) (hshift : shift < 2 ^ e) :
    simd_slli vectorWidth (2 ^ e) a shift = createShl (2 ^ e) a shift := by
  funext p
  rw [simd_slli]
  split_ifs with hzero hwide hnarrow
  · rw [hzero, createShl, decide_eq_true (Nat.zero_le _), Bool.true_and, Nat.sub_zero]
  · exact absurd hwide (narrow_or_native he)
  · have hlt : e < 4 := (Nat.pow_lt_pow_iff_right (a := 2) (m := 4) (by decide)).1 hnarrow
    exact createShl_masked (Nat.pow_dvd_pow 2 (n := 4) hlt.le) hshift
  · rfl

theorem simd_srli_eq_createLShr (he : e ≤ 6) (hshift : shift < 2 ^ e) :
    simd_srli vectorWidth (2 ^ e) a shift = createLShr (2 ^ e) a shift := by
  funext p
  rw [simd_srli]
  split_ifs with hzero hwide hnarrow
  · rw [hzero, createLShr, Nat.add_zero, decide_eq_true (Nat.mod_lt p (Nat.two_pow_pos e)),
      Bool.true_and, Nat.add_zero]
  · exact absurd hwide (narrow_or_native he)
  · have hlt : e < 4 := (Nat.pow_lt_pow_iff_right (a := 2) (m := 4) (by decide)).1 hnarrow
    exact createLShr_masked (Nat.pow_dvd_pow 2 (n := 4) hlt.le) (by decide) hshift
  · rfl

theorem decide_or_and {A B : Prop} [Decidable A] [Decidable B] {x : Bool} :
    (decide (A ∨ B) && x) = (decide A && x) ↔ (¬ A → B → x = false) := by
  by_cases hA : A
  · simp [hA]
  · by_cases hB : B <;> simp [hA, hB]

theorem simd_slli_iff (hdvd : 2 ^ e ∣ vectorWidth) (hshift : shift < 2 ^ e) :
    (∀ p < vectorWidth, simd_slli vectorWidth (2 ^ e) a shift p = createShl (2 ^ e) a shift p) ↔
      e ≤ 6 ∨ ∀ p < vectorWidth, shift ≤ p → p % 2 ^ e < shift → p % 64 < shift % 64 →
        a (p - shift) = false := by
  by_cases he : e ≤ 6
  · exact iff_of_true (fun p _ ↦ congrFun (simd_slli_eq_createShl he hshift) p) (Or.inl he)
  rw [or_iff_right he]
  refine forall₂_congr fun p hp ↦ ?_
  rcases Nat.eq_zero_or_pos shift with rfl | hzero
  · refine iff_of_true ?_ fun _ hlow ↦ absurd hlow (Nat.not_lt_zero _)
    rw [simd_slli, if_pos rfl, createShl, decide_eq_true (Nat.zero_le _), Bool.true_and,
      Nat.sub_zero]
  · rw [simd_slli_wide hdvd (Nat.not_le.1 he) hzero hshift hp, createShl, decide_or_and, not_le,
      and_imp]
    tauto

theorem simd_srli_iff (hdvd : 2 ^ e ∣ vectorWidth) (hshift : shift < 2 ^ e) :
    (∀ p < vectorWidth, simd_srli vectorWidth (2 ^ e) a shift p = createLShr (2 ^ e) a shift p) ↔
      e ≤ 6 ∨ ∀ p < vectorWidth, p + shift < vectorWidth → 2 ^ e ≤ p % 2 ^ e + shift →
        64 ≤ p % 64 + shift % 64 → a (p + shift) = false := by
  by_cases he : e ≤ 6
  · exact iff_of_true (fun p _ ↦ congrFun (simd_srli_eq_createLShr he hshift) p) (Or.inl he)
  rw [or_iff_right he]
  refine forall₂_congr fun p hp ↦ ?_
  rcases Nat.eq_zero_or_pos shift with rfl | hzero
  · have hmod := Nat.mod_lt p (Nat.two_pow_pos e)
    refine iff_of_true ?_ fun _ hhigh ↦ absurd hhigh (Nat.not_le.2 hmod)
    rw [simd_srli, if_pos rfl, createLShr, Nat.add_zero, decide_eq_true hmod, Bool.true_and,
      Nat.add_zero]
  · rw [simd_srli_wide hdvd (Nat.not_le.1 he) hzero hshift hp, createLShr, decide_or_and, not_lt,
      and_imp]
    tauto

theorem simd_srai_iff (hshift : shift < 2 ^ e) :
    (∀ p < vectorWidth, simd_srai vectorWidth (2 ^ e) a shift p = createAShr (2 ^ e) a shift p) ↔
      shift = 0 ∨ 4 ≤ e ∨ ∀ p < vectorWidth, p % 2 ^ e + shift + 1 < 2 ^ e →
        a (p + shift) = false := by
  by_cases hzero : shift = 0
  · refine iff_of_true (fun p _ ↦ ?_) (Or.inl hzero)
    rw [simd_srai, if_pos hzero, createAShr, hzero, Nat.add_zero,
      if_pos (Nat.mod_lt p (Nat.two_pow_pos e)), Nat.add_zero]
  by_cases he : 4 ≤ e
  · refine iff_of_true (fun p _ ↦ ?_) (Or.inr (Or.inl he))
    have hnative : ¬ 2 ^ e < MIN_NATIVE_SIMD_SHIFT :=
      Nat.not_lt.2 (Nat.pow_le_pow_right (n := 2) (i := 4) Nat.two_pos he)
    rw [simd_srai, if_neg hzero, if_neg hnative]
  rw [or_iff_right hzero, or_iff_right he]
  refine forall₂_congr fun p hp ↦ ?_
  have hle := Nat.mod_le p (2 ^ e)
  rw [simd_srai_narrow (Nat.not_le.1 he) (Nat.pos_of_ne_zero hzero) hshift, createAShr]
  by_cases hdata : p % 2 ^ e + shift + 1 < 2 ^ e
  · rw [decide_eq_false (by omega), Bool.false_and, if_pos (by omega)]
    exact ⟨fun h _ ↦ h.symm, fun h ↦ (h hdata).symm⟩
  · refine iff_of_true ?_ fun h ↦ absurd h hdata
    rw [decide_eq_true (by omega), Bool.true_and]
    split_ifs with hin
    · congr 1
      omega
    · rfl

end Shifts

section Exact

variable {e vectorWidth shift : ℕ}

/-- The fields of up to 64 bits are shifted on their own. Of wider ones a bit may come from the
next field, as far as a shift of 64-bit fields by the rest of the amount brings it in, and of
fields of less than 16 bits an arithmetic shift keeps nothing but the signs. -/
theorem shifts_onFields (hdvd : 2 ^ e ∣ vectorWidth) (hshift : shift < 2 ^ e) (a : Stream) :
    (OnFields (2 ^ e) vectorWidth (· <<< shift) a (simd_slli vectorWidth (2 ^ e) a shift) ↔
      e ≤ 6 ∨ ∀ p < vectorWidth, shift ≤ p → p % 2 ^ e < shift → p % 64 < shift % 64 →
        a (p - shift) = false) ∧
    (OnFields (2 ^ e) vectorWidth (· >>> shift) a (simd_srli vectorWidth (2 ^ e) a shift) ↔
      e ≤ 6 ∨ ∀ p < vectorWidth, p + shift < vectorWidth → 2 ^ e ≤ p % 2 ^ e + shift →
        64 ≤ p % 64 + shift % 64 → a (p + shift) = false) ∧
    (OnFields (2 ^ e) vectorWidth (·.sshiftRight shift) a
        (simd_srai vectorWidth (2 ^ e) a shift) ↔
      shift = 0 ∨ 4 ≤ e ∨ ∀ p < vectorWidth, p % 2 ^ e + shift + 1 < 2 ^ e →
        a (p + shift) = false) := by
  have hpos := Nat.two_pow_pos e
  refine ⟨?_, ?_, ?_⟩
  · rw [onFields_shl hdvd hpos]
    exact simd_slli_iff hdvd hshift
  · rw [onFields_lshr hdvd hpos]
    exact simd_srli_iff hdvd hshift
  · rw [onFields_ashr hdvd hpos]
    exact simd_srai_iff hshift

/-- One field in a vector. -/
theorem shifts_onFields_one :
    OnFields (2 ^ 7) 128 (· <<< 65) (· == 3) (simd_slli 128 (2 ^ 7) (· == 3) 65) :=
  (shifts_onFields (by decide) (by decide) _).1.2 (Or.inr fun p _ _ hlow _ ↦ by omega)

/-- The highest bit of the first of two fields is shifted into the second one, and a bit next to
the lowest one of a byte is dropped. -/
theorem shifts_mix_fields :
    ¬ OnFields (2 ^ 7) 256 (· <<< 1) (· == 127) (simd_slli 256 (2 ^ 7) (· == 127) 1) ∧
      ¬ OnFields (2 ^ 3) 128 (·.sshiftRight 1) (· == 1) (simd_srai 128 (2 ^ 3) (· == 1) 1) := by
  constructor
  · rw [onFields_shl (by decide) (by decide), simd_slli_iff (by decide) (by decide)]
    rintro (he | h)
    · exact absurd he (by decide)
    · exact absurd (h 128 (by decide) (by decide) (by decide) (by decide)) (by decide)
  · rw [onFields_ashr (by decide) (by decide), simd_srai_iff (by decide)]
    rintro (hzero | he | h)
    · exact absurd hzero (by decide)
    · exact absurd he (by decide)
    · exact absurd (h 0 (by decide) (by decide)) (by decide)

end Exact

end Parabix.IDISA.IDISA_Builder
