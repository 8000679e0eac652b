import Mathlib.Tactic.IntervalCases
import Parabix.IDISA.Compress
import Parabix.IDISA.Shifts

namespace Parabix.IDISA.IDISA_Builder

open Library Library.BitStream

section Native

variable (poison : ℕ → ℕ) (fw : ℕ) (v shifts : Stream)

/-- The shifts of vectors by vectors give a poison value in every field whose amount is not below
its width. -/
def createShlv : Stream :=
  ofFields fw fun i ↦
    if field fw shifts i < fw then field fw v i <<< field fw shifts i else poison i

def createLShrv : Stream :=
  ofFields fw fun i ↦
    if field fw shifts i < fw then field fw v i >>> field fw shifts i else poison i

variable {poison fw v shifts} {i : ℕ}

theorem field_createShlv (h : field fw shifts i < fw) :
    field fw (createShlv poison fw v shifts) i =
      field fw v i <<< field fw shifts i % 2 ^ fw := by
  rw [createShlv, field_ofFields, if_pos h]

theorem field_createLShrv (h : field fw shifts i < fw) :
    field fw (createLShrv poison fw v shifts) i = field fw v i >>> field fw shifts i := by
  rw [createLShrv, field_ofFields, if_pos h,
    Nat.mod_eq_of_lt ((Nat.shiftRight_le _ _).trans_lt field_lt)]

end Native

section Operations

variable (vectorWidth : ℕ) (BENCH_GENERIC_SHIFT4 : Bool) (poison : ℕ → ℕ) (fw : ℕ)

/-- Sixteen equal bytes. -/
def splat8 (x : ℕ) : Stream := simd_fill 8 x

def simd_sub (a b : Stream) : Except Fault Stream :=
  if fw = 1 then pure (simd_xor a b)
  else if fw < 8 then throw (UnsupportedFieldWidthError fw "sub")
  else pure (IDISA.simd_sub fw a b)

/-- The bits of narrow fields are compared in pairs, the pairs of pairs again. -/
def simd_eq (a b : Stream) : Stream :=
  if fw < 8 then
    let eq_bits := simd_not (simd_xor a b)
    if fw = 1 then eq_bits
    else
      let eq_bits :=
        simd_or (simd_and (simd_srli vectorWidth 32 (simd_select_hi 2 eq_bits) 1) eq_bits)
          (simd_and (simd_slli vectorWidth 32 (simd_select_lo 2 eq_bits) 1) eq_bits)
      if fw = 2 then eq_bits
      else
        simd_or (simd_and (simd_srli vectorWidth 32 (simd_select_hi 4 eq_bits) 2) eq_bits)
          (simd_and (simd_slli vectorWidth 32 (simd_select_lo 4 eq_bits) 2) eq_bits)
  else IDISA.simd_eq fw a b

/-- Those fields are shifted by a power of two whose amounts have its bit, without the bits that
would leave the field. -/
def shiftStep (bitsSet : ℕ → ℕ → Stream) (immediate : ℕ → Stream → ℕ → Stream) (shifts : Stream)
    (shft_amt : ℕ) (w : Stream) : Stream :=
  let value_mask := bitsSet fw (fw - shft_amt)
  let bit_select := simd_fill fw shft_amt
  let unshifted_field_mask := simd_eq vectorWidth fw (simd_and bit_select shifts) fun _ ↦ false
  let fieldsToShift := simd_and w (simd_and value_mask (simd_not unshifted_field_mask))
  simd_or (simd_and w unshifted_field_mask) (immediate 32 fieldsToShift shft_amt)

/-- The loop over the powers of two below the width. -/
def doublingLoop (step : ℕ → Stream → Stream) (shft_amt : ℕ) (w : Stream) : Stream :=
  if 0 < shft_amt ∧ shft_amt < fw then doublingLoop step (shft_amt * 2) (step shft_amt w) else w
termination_by fw - shft_amt

def simd_sllv (v shifts : Stream) : Stream :=
  if 8 ≤ fw then createShlv poison fw v shifts
  else if !BENCH_GENERIC_SHIFT4 && fw == 4 && vectorWidth == 128 then
    let loData := simd_and v (splat8 0x0F)
    let hiData := simd_and v (splat8 0xF0)
    let loAmt := simd_and shifts (splat8 0x0F)
    let hiAmt := simd_srli vectorWidth 8 shifts 4
    let loSh := simd_and (createShlv poison 8 loData loAmt) (splat8 0x0F)
    let hiSh := simd_and (createShlv poison 8 hiData hiAmt) (splat8 0xF0)
    simd_or loSh hiSh
  else doublingLoop fw (shiftStep vectorWidth fw lowBitsSet (simd_slli vectorWidth) shifts) 1 v

def simd_srlv (v shifts : Stream) : Stream :=
  if 8 ≤ fw then createLShrv poison fw v shifts
  else if !BENCH_GENERIC_SHIFT4 && fw == 4 && vectorWidth == 128 then
    let loData := simd_and v (splat8 0x0F)
    let hiData := simd_and v (splat8 0xF0)
    let loAmt := simd_and shifts (splat8 0x0F)
    let hiAmt := simd_srli vectorWidth 8 shifts 4
    let loSh := simd_and (createLShrv poison 8 loData loAmt) (splat8 0x0F)
    let hiSh := simd_and (createLShrv poison 8 hiData hiAmt) (splat8 0xF0)
    simd_or loSh hiSh
  else doublingLoop fw (shiftStep vectorWidth fw highBitsSet (simd_srli vectorWidth) shifts) 1 v

/-- An amount of zero is masked, so that none is the width. -/
def simd_rotl (v rotates : Stream) : Except Fault Stream := do
  let fw_mask := simd_fill fw (fw - 1)
  let fw_splat := simd_fill fw fw
  let shft := simd_and fw_mask rotates
  let fwd := simd_sllv vectorWidth BENCH_GENERIC_SHIFT4 poison fw v shft
  let back := simd_srlv vectorWidth BENCH_GENERIC_SHIFT4 poison fw v
    (simd_and fw_mask (← simd_sub fw fw_splat shft))
  return simd_or fwd back

def simd_rotr (v rotates : Stream) : Except Fault Stream := do
  let fw_mask := simd_fill fw (fw - 1)
  let fw_splat := simd_fill fw fw
  let shft := simd_and fw_mask rotates
  let fwd := simd_sllv vectorWidth BENCH_GENERIC_SHIFT4 poison fw v
    (simd_and fw_mask (← simd_sub fw fw_splat shft))
  let back := simd_srlv vectorWidth BENCH_GENERIC_SHIFT4 poison fw v shft
  return simd_or fwd back

end Operations

section Pairs

variable {vectorWidth h shift : ℕ} {a b x bits : Stream}

theorem simd_slli_native (hshift : shift < 32) :
    simd_slli vectorWidth 32 x shift = createShl 32 x shift :=
  simd_slli_eq_createShl (e := 5) (by decide) hshift

theorem simd_srli_native (hshift : shift < 32) :
    simd_srli vectorWidth 32 x shift = createLShr 32 x shift :=
  simd_srli_eq_createLShr (e := 5) (by decide) hshift

theorem select_hi_eq : simd_select_hi (h * 2) x = simd_and x (highBitsSet (h * 2) (h * 2 - h)) := by
  funext p
  rw [simd_select_hi, simd_and, highBitsSet, Bool.and_comm]
  congr 1
  exact decide_eq_decide.2 (by omega)

theorem select_lo_eq : simd_select_lo (h * 2) x = simd_and x (lowBitsSet (h * 2) (h * 2 - h)) := by
  funext p
  rw [simd_select_lo, simd_and, lowBitsSet, Bool.and_comm]
  congr 1
  exact decide_eq_decide.2 (by omega)

/-- Every bit of a field tells whether two vectors agree on the field. -/
def EqBits (h : ℕ) (a b bits : Stream) : Prop :=
  ∀ i j, j < h → bits (h * i + j) = decide (field h a i = field h b i)

theorem eqBits_one : EqBits 1 a b (simd_not (simd_xor a b)) := by
  intro i j hj
  rw [show j = 0 by omega, Nat.one_mul, Nat.add_zero, simd_not, simd_xor, field_one, field_one]
  cases a i <;> cases b i <;> rfl

theorem field_eq_mul_two (i : ℕ) : field (h * 2) a i = field (h * 2) b i ↔
    field h a (2 * i) = field h b (2 * i) ∧ field h a (2 * i + 1) = field h b (2 * i + 1) := by
  have ha : field h a (2 * i) < 2 ^ h := field_lt
  have hb : field h b (2 * i) < 2 ^ h := field_lt
  rw [field_mul_two, field_mul_two]
  constructor
  · intro heq
    have hmod := congrArg (· % 2 ^ h) heq
    have hdiv := congrArg (· / 2 ^ h) heq
    simp only [Nat.add_mul_mod_self_left, Nat.mod_eq_of_lt ha, Nat.mod_eq_of_lt hb,
      Nat.add_mul_div_left _ _ (Nat.two_pow_pos h), Nat.div_eq_of_lt ha, Nat.div_eq_of_lt hb,
      Nat.zero_add] at hmod hdiv
    exact ⟨hmod, hdiv⟩
  · rintro ⟨hlow, hhigh⟩
    rw [hlow, hhigh]

/-- Each half takes over what the other one tells. -/
theorem EqBits.step (hbits : EqBits h a b bits) (hpos : 0 < h) (hdvd : h * 2 ∣ 32) :
    EqBits (h * 2) a b
      (simd_or (simd_and (simd_srli vectorWidth 32 (simd_select_hi (h * 2) bits) h) bits)
        (simd_and (simd_slli vectorWidth 32 (simd_select_lo (h * 2) bits) h) bits)) := by
  have hle := Nat.le_of_dvd (by decide) hdvd
  intro i j hj
  rw [simd_srli_native (by omega), simd_slli_native (by omega), select_hi_eq, select_lo_eq,
    simd_or, simd_and, simd_and, createLShr_masked hdvd (by decide) (by omega),
    createShl_masked hdvd (by omega), createLShr, createShl, mul_add_mod_of_lt hj,
    decide_eq_decide.2 (field_eq_mul_two i), Bool.decide_and]
  by_cases hlow : j < h
  · rw [decide_eq_true (show j + h < h * 2 by omega), decide_eq_false (Nat.not_le.2 hlow),
      Bool.true_and, Bool.false_and, Bool.false_and, Bool.or_false,
      show h * 2 * i + j + h = h * (2 * i + 1) + j by ring,
      show h * 2 * i + j = h * (2 * i) + j by ring, hbits _ _ hlow, hbits _ _ hlow, Bool.and_comm]
  · obtain ⟨k, rfl⟩ := Nat.exists_eq_add_of_le (Nat.not_lt.1 hlow)
    rw [decide_eq_false (show ¬ h + k + h < h * 2 by omega),
      decide_eq_true (show h ≤ h + k by omega), Bool.true_and, Bool.false_and, Bool.false_and,
      Bool.false_or, show h * 2 * i + (h + k) - h = h * (2 * i) + k by
        rw [show h * 2 * i + (h + k) = h * (2 * i) + k + h by ring, Nat.add_sub_cancel],
      show h * 2 * i + (h + k) = h * (2 * i + 1) + k by ring, hbits _ _ (by omega),
      hbits _ _ (by omega)]

/-- The comparison of narrow fields is that of all fields. -/
theorem simd_eq_bits {e : ℕ} (he : e < 3) :
    EqBits (2 ^ e) a b (simd_eq vectorWidth (2 ^ e) a b) := by
  have hone : EqBits 1 a b (simd_not (simd_xor a b)) := eqBits_one
  have htwo : EqBits 2 a b (simd_or (simd_and (simd_srli vectorWidth 32 _ 1) _) _) :=
    hone.step (by decide) (by decide)
  interval_cases e
  · exact hone
  · exact htwo
  · exact htwo.step (by decide) (by decide)

end Pairs

section Doubling

variable {vectorWidth fw i : ℕ} {v w x shifts u : Stream}

theorem doublingLoop_induction {P : ℕ → Stream → Prop} {step : ℕ → Stream → Stream} {e k : ℕ}
    {w : Stream} (hstep : ∀ k w, k < e → P k w → P (k + 1) (step (2 ^ k) w)) (hk : k ≤ e)
    (hw : P k w) :
    P e (doublingLoop (2 ^ e) step (2 ^ k) w) := by
  rw [doublingLoop]
  split_ifs with hloop
  · have hlt : k < e := (Nat.pow_lt_pow_iff_right (by decide)).1 hloop.2
    rw [← pow_succ]
    exact doublingLoop_induction hstep hlt (hstep k w hlt hw)
  · have hge : e ≤ k := by
      by_contra hlt
      exact hloop ⟨Nat.two_pow_pos k, Nat.pow_lt_pow_right (by decide) (Nat.not_le.1 hlt)⟩
    obtain rfl := Nat.le_antisymm hk hge
    exact hw
termination_by e - k

theorem field_masked (b : Bool) (hu : ∀ j < fw, u (fw * i + j) = b) :
    field fw (simd_and w u) i = if b then field fw w i else 0 := by
  split_ifs with hb
  · refine field_congr fun j hj ↦ ?_
    rw [simd_and, hu j hj, hb, Bool.and_true]
  · refine field_eq_zero fun j hj ↦ ?_
    rw [simd_and, hu j hj, Bool.eq_false_of_not_eq_true hb, Bool.and_false]

/-- The fields whose amounts have not the bit of `2 ^ k`. -/
theorem unshifted_apply {e k j : ℕ} (he : e < 3) (hk : k < e) (hj : j < 2 ^ e) :
    simd_eq vectorWidth (2 ^ e) (simd_and (simd_fill (2 ^ e) (2 ^ k)) shifts) (fun _ ↦ false)
      (2 ^ e * i + j) = !(field (2 ^ e) shifts i).testBit k := by
  have hbit : 2 ^ k < 2 ^ 2 ^ e := Nat.pow_lt_pow_right (by decide) (hk.trans Nat.lt_two_pow_self)
  have hzero : field (2 ^ e) (fun _ ↦ false) i = 0 := field_eq_zero fun _ _ ↦ rfl
  rw [simd_eq_bits he i j hj, field_and, field_fill hbit, Nat.and_comm, Nat.and_two_pow, hzero]
  cases (field (2 ^ e) shifts i).testBit k
  · rw [Bool.toNat_false, Nat.zero_mul]
    rfl
  · rw [Bool.toNat_true, Nat.one_mul]
    exact decide_eq_false (Nat.two_pow_pos k).ne'

theorem field_shiftStep {e k : ℕ} {bitsSet : ℕ → ℕ → Stream} {immediate : ℕ → Stream → ℕ → Stream}
    (op : ℕ → ℕ) (he : e < 3) (hk : k < e) (hzero : op 0 = 0)
    (hop : ∀ x, field (2 ^ e)
      (immediate 32 (simd_and x (bitsSet (2 ^ e) (2 ^ e - 2 ^ k))) (2 ^ k)) i =
        op (field (2 ^ e) x i)) :
    field (2 ^ e) (shiftStep vectorWidth (2 ^ e) bitsSet immediate shifts (2 ^ k) w) i =
      if (field (2 ^ e) shifts i).testBit k then op (field (2 ^ e) w i) else field (2 ^ e) w i := by
  have hreorder (x y z : Stream) : simd_and x (simd_and y z) = simd_and (simd_and x z) y := by
    funext p
    rw [simd_and, simd_and, simd_and, simd_and, Bool.and_assoc, Bool.and_comm (y p)]
  have hnot (j : ℕ) (hj : j < 2 ^ e) : simd_not (simd_eq vectorWidth (2 ^ e)
      (simd_and (simd_fill (2 ^ e) (2 ^ k)) shifts) fun _ ↦ false) (2 ^ e * i + j) =
      (field (2 ^ e) shifts i).testBit k := by
    rw [simd_not, unshifted_apply he hk hj, Bool.not_not]
  rw [shiftStep, field_or, hreorder, hop, field_masked _ fun j hj ↦ unshifted_apply he hk hj,
    field_masked _ hnot]
  cases (field (2 ^ e) shifts i).testBit k
  · simp [hzero]
  · simp

/-- Every field is shifted by its amount, as far as the loop has come to its bits. -/
theorem field_sllvLoop {e : ℕ} (he : e < 3) (i : ℕ) :
    field (2 ^ e) (doublingLoop (2 ^ e)
      (shiftStep vectorWidth (2 ^ e) lowBitsSet (simd_slli vectorWidth) shifts) 1 v) i =
        field (2 ^ e) v i <<< (field (2 ^ e) shifts i % 2 ^ e) % 2 ^ 2 ^ e := by
  have hdvd : 2 ^ e ∣ 32 := Nat.pow_dvd_pow 2 (n := 5) (by omega)
  refine doublingLoop_induction (k := 0) (P := fun k w ↦ field (2 ^ e) w i =
    field (2 ^ e) v i <<< (field (2 ^ e) shifts i % 2 ^ k) % 2 ^ 2 ^ e) (fun k w hk hw ↦ ?_)
    (Nat.zero_le e) ?_
  · have hlt : 2 ^ k < 2 ^ e := Nat.pow_lt_pow_right (by decide) hk
    have hroom : 2 ^ e ≤ 32 := Nat.le_of_dvd (by decide) hdvd
    have hop (x : Stream) : simd_slli vectorWidth 32
        (simd_and x (lowBitsSet (2 ^ e) (2 ^ e - 2 ^ k))) (2 ^ k) =
          createShl (2 ^ e) x (2 ^ k) := by
      rw [simd_slli_native (by omega)]
      exact funext fun p ↦ createShl_masked hdvd hlt
    rw [field_shiftStep (fun x ↦ x <<< 2 ^ k % 2 ^ 2 ^ e) he hk (by simp) fun x ↦ by
      rw [hop, field_createShl], hw, Nat.mod_pow_succ, ← Nat.toNat_testBit]
    cases (field (2 ^ e) shifts i).testBit k
    · rw [if_neg Bool.false_ne_true, Bool.toNat_false, Nat.mul_zero, Nat.add_zero]
    · rw [if_pos rfl, Bool.toNat_true, Nat.mul_one, Nat.shiftLeft_add,
        Nat.mod_two_pow_shiftLeft_mod_two_pow]
  · rw [pow_zero, Nat.mod_one, Nat.shiftLeft_zero, Nat.mod_eq_of_lt field_lt]

theorem field_srlvLoop {e : ℕ} (he : e < 3) (i : ℕ) :
    field (2 ^ e) (doublingLoop (2 ^ e)
      (shiftStep vectorWidth (2 ^ e) highBitsSet (simd_srli vectorWidth) shifts) 1 v) i =
        field (2 ^ e) v i >>> (field (2 ^ e) shifts i % 2 ^ e) := by
  have hdvd : 2 ^ e ∣ 32 := Nat.pow_dvd_pow 2 (n := 5) (by omega)
  refine doublingLoop_induction (k := 0) (P := fun k w ↦ field (2 ^ e) w i =
    field (2 ^ e) v i >>> (field (2 ^ e) shifts i % 2 ^ k)) (fun k w hk hw ↦ ?_)
    (Nat.zero_le e) ?_
  · have hlt : 2 ^ k < 2 ^ e := Nat.pow_lt_pow_right (by decide) hk
    have hroom : 2 ^ e ≤ 32 := Nat.le_of_dvd (by decide) hdvd
    have hop (x : Stream) : simd_srli vectorWidth 32
        (simd_and x (highBitsSet (2 ^ e) (2 ^ e - 2 ^ k))) (2 ^ k) =
          createLShr (2 ^ e) x (2 ^ k) := by
      rw [simd_srli_native (by omega)]
      exact funext fun p ↦ createLShr_masked hdvd (by decide) hlt
    rw [field_shiftStep (fun x ↦ x >>> 2 ^ k) he hk (Nat.zero_shiftRight _) fun x ↦ by
      rw [hop, field_createLShr], hw, Nat.mod_pow_succ, ← Nat.toNat_testBit]
    cases (field (2 ^ e) shifts i).testBit k
    · rw [if_neg Bool.false_ne_true, Bool.toNat_false, Nat.mul_zero, Nat.add_zero]
    · rw [if_pos rfl, Bool.toNat_true, Nat.mul_one, Nat.shiftRight_add]
  · rw [pow_zero, Nat.mod_one, Nat.shiftRight_zero]

end Doubling

section Nibbles

variable {vectorWidth i m : ℕ} {poison : ℕ → ℕ} {a b v x shifts : Stream}

theorem and_splat_low : simd_and x (splat8 0x0F) = simd_select_lo (4 * 2) x := by
  funext p
  rw [simd_and, splat8, simd_fill, ofFields, simd_select_lo, Bool.and_comm,
    show 0x0F = 2 ^ 4 - 1 from rfl, Nat.testBit_two_pow_sub_one]

theorem and_splat_high : simd_and x (splat8 0xF0) = simd_select_hi (4 * 2) x := by
  funext p
  have hlt := Nat.mod_lt p (show 0 < 8 by decide)
  rw [simd_and, splat8, simd_fill, ofFields, simd_select_hi, Bool.and_comm,
    show 0xF0 = 2 ^ 8 - 2 ^ 4 from rfl, testBit_two_pow_sub (by decide), decide_eq_true hlt,
    Bool.and_true]

theorem field_byte_low : field 4 x (2 * m) = field 8 x m % 2 ^ 4 := by
  have hlt : field 4 x (2 * m) < 2 ^ 4 := field_lt
  rw [show 8 = 4 * 2 from rfl, field_mul_two, Nat.add_mul_mod_self_left, Nat.mod_eq_of_lt hlt]

theorem field_byte_high : field 4 x (2 * m + 1) = field 8 x m >>> 4 :=
  field_mul_two_shiftRight.symm

/-- The two nibble streams are joined in the bytes. -/
theorem field_nibbles_low :
    field 4 (simd_or (simd_and a (splat8 0x0F)) (simd_and b (splat8 0xF0))) (2 * m) =
      field 8 a m % 2 ^ 4 := by
  rw [field_or, and_splat_low, and_splat_high, field_select_lo_even, field_select_hi_even,
    Nat.or_zero, field_byte_low]

theorem field_nibbles_high :
    field 4 (simd_or (simd_and a (splat8 0x0F)) (simd_and b (splat8 0xF0))) (2 * m + 1) =
      field 8 b m >>> 4 := by
  rw [field_or, and_splat_low, and_splat_high, field_select_lo_odd, field_select_hi_odd,
    Nat.zero_or, field_byte_high]

theorem field_loData : field 8 (simd_and x (splat8 0x0F)) m = field 4 x (2 * m) := by
  rw [and_splat_low]
  exact field_select_lo

theorem field_hiData : field 8 (simd_and x (splat8 0xF0)) m = field 4 x (2 * m + 1) <<< 4 := by
  rw [and_splat_high, show 8 = 4 * 2 from rfl, field_mul_two, field_select_hi_even,
    field_select_hi_odd, Nat.zero_add, Nat.shiftLeft_eq, Nat.mul_comm]

theorem field_hiAmt :
    field 8 (simd_srli vectorWidth 8 shifts 4) m = field 4 shifts (2 * m + 1) := by
  rw [field_byte_high, show simd_srli vectorWidth 8 shifts 4 = createLShr 8 shifts 4 from
    simd_srli_eq_createLShr (e := 3) (by decide) (by decide), field_createLShr]

/-- The left shift of nibbles in bytes. -/
theorem field_sllv_nibbles (hamt : field 4 shifts i < 4) :
    field 4 (simd_or
      (simd_and (createShlv poison 8 (simd_and v (splat8 0x0F)) (simd_and shifts (splat8 0x0F)))
        (splat8 0x0F))
      (simd_and (createShlv poison 8 (simd_and v (splat8 0xF0))
        (simd_srli vectorWidth 8 shifts 4)) (splat8 0xF0))) i =
      field 4 v i <<< field 4 shifts i % 2 ^ 4 := by
  obtain ⟨m, rfl | rfl⟩ := Nat.even_or_odd' i
  · rw [field_nibbles_low, field_createShlv (by rw [field_loData]; omega), field_loData,
      field_loData, Nat.mod_mod_of_dvd _ (Nat.pow_dvd_pow 2 (by decide))]
  · rw [field_nibbles_high, field_createShlv (by rw [field_hiAmt]; omega), field_hiData,
      field_hiAmt, ← Nat.shiftLeft_add, Nat.add_comm 4, Nat.shiftLeft_add, Nat.shiftLeft_eq _ 4,
      Nat.shiftRight_eq_div_pow, show (2 : ℕ) ^ 8 = 2 ^ 4 * 2 ^ 4 from rfl, Nat.mul_mod_mul_right,
      Nat.mul_div_cancel _ (by decide)]

theorem field_srlv_nibbles (hamt : field 4 shifts i < 4) :
    field 4 (simd_or
      (simd_and (createLShrv poison 8 (simd_and v (splat8 0x0F)) (simd_and shifts (splat8 0x0F)))
        (splat8 0x0F))
      (simd_and (createLShrv poison 8 (simd_and v (splat8 0xF0))
        (simd_srli vectorWidth 8 shifts 4)) (splat8 0xF0))) i =
      field 4 v i >>> field 4 shifts i := by
  obtain ⟨m, rfl | rfl⟩ := Nat.even_or_odd' i
  · rw [field_nibbles_low, field_createLShrv (by rw [field_loData]; omega), field_loData,
      field_loData, Nat.mod_eq_of_lt ((Nat.shiftRight_le _ _).trans_lt field_lt)]
  · rw [field_nibbles_high, field_createLShrv (by rw [field_hiAmt]; omega), field_hiData,
      field_hiAmt, ← Nat.shiftRight_add, Nat.add_comm _ 4, Nat.shiftRight_add,
      Nat.shiftLeft_shiftRight]

end Nibbles

section Variable

variable {vectorWidth e i : ℕ} {BENCH_GENERIC_SHIFT4 : Bool} {poison : ℕ → ℕ} {v shifts : Stream}

theorem field_simd_sllv (hamt : field (2 ^ e) shifts i < 2 ^ e) :
    field (2 ^ e) (simd_sllv vectorWidth BENCH_GENERIC_SHIFT4 poison (2 ^ e) v shifts) i =
      field (2 ^ e) v i <<< field (2 ^ e) shifts i % 2 ^ 2 ^ e := by
  rw [simd_sllv]
  split_ifs with hnative hfast
  · exact field_createShlv hamt
  · simp only [Bool.and_eq_true, beq_iff_eq] at hfast
    obtain rfl : e = 2 := Nat.pow_right_injective (le_refl 2) hfast.1.2
    exact field_sllv_nibbles hamt
  · have he : e < 3 := (Nat.pow_lt_pow_iff_right (a := 2) (m := 3) (by decide)).1
      (Nat.not_le.1 hnative)
    rw [field_sllvLoop he, Nat.mod_eq_of_lt hamt]

theorem field_simd_srlv (hamt : field (2 ^ e) shifts i < 2 ^ e) :
    field (2 ^ e) (simd_srlv vectorWidth BENCH_GENERIC_SHIFT4 poison (2 ^ e) v shifts) i =
      field (2 ^ e) v i >>> field (2 ^ e) shifts i := by
  rw [simd_srlv]
  split_ifs with hnative hfast
  · exact field_createLShrv hamt
  · simp only [Bool.and_eq_true, beq_iff_eq] at hfast
    obtain rfl : e = 2 := Nat.pow_right_injective (le_refl 2) hfast.1.2
    exact field_srlv_nibbles hamt
  · have he : e < 3 := (Nat.pow_lt_pow_iff_right (a := 2) (m := 3) (by decide)).1
      (Nat.not_le.1 hnative)
    rw [field_srlvLoop he, Nat.mod_eq_of_lt hamt]

end Variable

section Rotations

variable {vectorWidth e i : ℕ} {BENCH_GENERIC_SHIFT4 : Bool} {poison : ℕ → ℕ}
  {v x rotates : Stream}

/-- The mask takes an amount modulo the width. -/
theorem field_amount : field (2 ^ e) (simd_and (simd_fill (2 ^ e) (2 ^ e - 1)) x) i =
    field (2 ^ e) x i % 2 ^ e := by
  have hfits : 2 ^ e - 1 < 2 ^ 2 ^ e := (Nat.sub_le _ _).trans_lt Nat.lt_two_pow_self
  rw [field_and, field_fill hfits, Nat.and_comm, Nat.and_two_pow_sub_one_eq_mod]

/-- The rest of the width is taken modulo the width again. -/
theorem simd_sub_amount (he : e = 0 ∨ 3 ≤ e) (hle : ∀ i, field (2 ^ e) x i ≤ 2 ^ e) :
    ∃ rest, simd_sub (2 ^ e) (simd_fill (2 ^ e) (2 ^ e)) x = .ok rest ∧
      ∀ i, field (2 ^ e) rest i % 2 ^ e = (2 ^ e - field (2 ^ e) x i) % 2 ^ e := by
  rcases he with rfl | he
  · exact ⟨_, rfl, fun i ↦ by rw [pow_zero, Nat.mod_one, Nat.mod_one]⟩
  · have hwide : 2 ^ 3 ≤ 2 ^ e := Nat.pow_le_pow_right Nat.two_pos he
    have hfill (i : ℕ) : field (2 ^ e) (simd_fill (2 ^ e) (2 ^ e)) i = 2 ^ e :=
      field_fill Nat.lt_two_pow_self
    refine ⟨IDISA.simd_sub (2 ^ e) (simd_fill (2 ^ e) (2 ^ e)) x, ?_, fun i ↦ ?_⟩
    · rw [simd_sub, if_neg (by omega), if_neg (by omega)]
      rfl
    · rw [field_sub_of_le ((hle i).trans_eq (hfill i).symm), hfill]

/-- A shift by the whole width and a shift by zero leave the same bits. -/
theorem rotate_amounts {n s fw : ℕ} (hn : n < 2 ^ fw) (hs : s < fw) :
    n <<< s % 2 ^ fw ||| n >>> ((fw - s) % fw) = n <<< s % 2 ^ fw ||| n >>> (fw - s) ∧
      n <<< ((fw - s) % fw) % 2 ^ fw ||| n >>> s = n >>> s ||| n <<< (fw - s) % 2 ^ fw := by
  rcases Nat.eq_zero_or_pos s with rfl | hpos
  · have hleft : n <<< fw % 2 ^ fw = 0 := by rw [Nat.shiftLeft_eq, Nat.mul_mod_left]
    rw [Nat.sub_zero, Nat.mod_self, Nat.shiftLeft_zero, Nat.shiftRight_zero, hleft,
      Nat.mod_eq_of_lt hn, Nat.or_self, Nat.or_zero, Nat.shiftRight_eq_div_pow,
      Nat.div_eq_of_lt hn, Nat.or_zero]
    exact ⟨rfl, rfl⟩
  · rw [Nat.mod_eq_of_lt (show fw - s < fw by omega), Nat.or_comm (n >>> s)]
    exact ⟨rfl, rfl⟩

theorem simd_rotl_ok (he : e = 0 ∨ 3 ≤ e) (v rotates : Stream) :
    ∃ y, simd_rotl vectorWidth BENCH_GENERIC_SHIFT4 poison (2 ^ e) v rotates = .ok y ∧
      ∀ i, field (2 ^ e) y i = ((BitVec.ofNat (2 ^ e) (field (2 ^ e) v i)).rotateLeft
        (field (2 ^ e) rotates i)).toNat := by
  have hlt (n : ℕ) : n % 2 ^ e < 2 ^ e := Nat.mod_lt n (Nat.two_pow_pos e)
  obtain ⟨rest, hrest, hfield⟩ := simd_sub_amount he fun i ↦
    (field_amount (x := rotates) (i := i)).trans_le (hlt _).le
  refine ⟨_, by rw [simd_rotl, hrest]; rfl, fun i ↦ ?_⟩
  rw [field_or, field_simd_sllv (by rw [field_amount]; exact hlt _),
    field_simd_srlv (by rw [field_amount]; exact hlt _), field_amount, field_amount, hfield,
    field_amount, BitVec.toNat_rotateLeft, ofNat_field]
  exact (rotate_amounts field_lt (hlt _)).1

theorem simd_rotr_ok (he : e = 0 ∨ 3 ≤ e) (v rotates : Stream) :
    ∃ y, simd_rotr vectorWidth BENCH_GENERIC_SHIFT4 poison (2 ^ e) v rotates = .ok y ∧
      ∀ i, field (2 ^ e) y i = ((BitVec.ofNat (2 ^ e) (field (2 ^ e) v i)).rotateRight
        (field (2 ^ e) rotates i)).toNat := by
  have hlt (n : ℕ) : n % 2 ^ e < 2 ^ e := Nat.mod_lt n (Nat.two_pow_pos e)
  obtain ⟨rest, hrest, hfield⟩ := simd_sub_amount he fun i ↦
    (field_amount (x := rotates) (i := i)).trans_le (hlt _).le
  refine ⟨_, by rw [simd_rotr, hrest]; rfl, fun i ↦ ?_⟩
  rw [field_or, field_simd_sllv (by rw [field_amount]; exact hlt _),
    field_simd_srlv (by rw [field_amount]; exact hlt _), field_amount, field_amount, hfield,
    field_amount, BitVec.toNat_rotateRight, ofNat_field]
  exact (rotate_amounts field_lt (hlt _)).2

theorem rotateRight_rotateLeft {w : ℕ} (x : BitVec w) (r : ℕ) :
    (x.rotateLeft r).rotateRight r = x := by
  apply BitVec.eq_of_getLsbD_eq
  intro i hi
  have hr := Nat.mod_lt r (show 0 < w by omega)
  rw [BitVec.getLsbD_rotateRight, BitVec.getLsbD_rotateLeft, BitVec.getLsbD_rotateLeft]
  by_cases hlow : i < w - r % w
  · rw [decide_eq_true hlow, cond_true, decide_eq_false (show ¬ r % w + i < r % w by omega),
      cond_false, decide_eq_true (show r % w + i < w by omega), Bool.true_and,
      Nat.add_sub_cancel_left]
  · rw [decide_eq_false hlow, cond_false, decide_eq_true hi, Bool.true_and,
      decide_eq_true (show i - (w - r % w) < r % w by omega), cond_true,
      show w - r % w + (i - (w - r % w)) = i by omega]

theorem simd_rotl_error (he : e = 1 ∨ e = 2) :
    simd_rotl vectorWidth BENCH_GENERIC_SHIFT4 poison (2 ^ e) v rotates =
      .error (UnsupportedFieldWidthError (2 ^ e) "sub") := by
  rcases he with rfl | rfl <;> rfl

theorem simd_rotr_error (he : e = 1 ∨ e = 2) :
    simd_rotr vectorWidth BENCH_GENERIC_SHIFT4 poison (2 ^ e) v rotates =
      .error (UnsupportedFieldWidthError (2 ^ e) "sub") := by
  rcases he with rfl | rfl <;> rfl

end Rotations

section ByAmounts

variable {e vectorWidth : ℕ}

/-- Every field of a vector comes from that of another one by its own amount. -/
def OnFieldsBy (fw vectorWidth : ℕ) (op : BitVec fw → ℕ → BitVec fw) (v amounts y : Stream) :
    Prop :=
  ∀ i < vectorWidth / fw,
    field fw y i = (op (BitVec.ofNat fw (field fw v i)) (field fw amounts i)).toNat

theorem apply_of_fields {x y : Stream} (hdvd : 2 ^ e ∣ vectorWidth)
    (h : ∀ i < vectorWidth / 2 ^ e, field (2 ^ e) y i = field (2 ^ e) x i) :
    ∀ p < vectorWidth, y p = x p :=
  (fields_eq_iff hdvd (Nat.two_pow_pos e)).1 h

/-- The shifts by amounts below the width are those of the fields, whichever way they are compiled.
The rotations are those by any amounts, one the inverse of the other. Fields of two and of four
bits are not rotated. -/
theorem variableShifts_onFields (hdvd : 2 ^ e ∣ vectorWidth) (BENCH_GENERIC_SHIFT4 : Bool)
    (poison : ℕ → ℕ) (v shifts rotates : Stream) :
    ((∀ i < vectorWidth / 2 ^ e, field (2 ^ e) shifts i < 2 ^ e) →
      OnFieldsBy (2 ^ e) vectorWidth (· <<< ·) v shifts
        (simd_sllv vectorWidth BENCH_GENERIC_SHIFT4 poison (2 ^ e) v shifts) ∧
      OnFieldsBy (2 ^ e) vectorWidth (· >>> ·) v shifts
        (simd_srlv vectorWidth BENCH_GENERIC_SHIFT4 poison (2 ^ e) v shifts) ∧
      (∀ p < vectorWidth, simd_sllv vectorWidth false poison (2 ^ e) v shifts p =
        simd_sllv vectorWidth true poison (2 ^ e) v shifts p) ∧
      ∀ p < vectorWidth, simd_srlv vectorWidth false poison (2 ^ e) v shifts p =
        simd_srlv vectorWidth true poison (2 ^ e) v shifts p) ∧
    (e = 0 ∨ 3 ≤ e → ∃ left right back,
      simd_rotl vectorWidth BENCH_GENERIC_SHIFT4 poison (2 ^ e) v rotates = .ok left ∧
      OnFieldsBy (2 ^ e) vectorWidth BitVec.rotateLeft v rotates left ∧
      simd_rotr vectorWidth BENCH_GENERIC_SHIFT4 poison (2 ^ e) v rotates = .ok right ∧
      OnFieldsBy (2 ^ e) vectorWidth BitVec.rotateRight v rotates right ∧
      simd_rotr vectorWidth BENCH_GENERIC_SHIFT4 poison (2 ^ e) left rotates = .ok back ∧
      ∀ p < vectorWidth, back p = v p) ∧
    (e = 1 ∨ e = 2 →
      simd_rotl vectorWidth BENCH_GENERIC_SHIFT4 poison (2 ^ e) v rotates =
        .error (UnsupportedFieldWidthError (2 ^ e) "sub") ∧
      simd_rotr vectorWidth BENCH_GENERIC_SHIFT4 poison (2 ^ e) v rotates =
        .error (UnsupportedFieldWidthError (2 ^ e) "sub")) := by
  refine ⟨fun hamt ↦ ⟨fun i hi ↦ ?_, fun i hi ↦ ?_, ?_, ?_⟩, fun he ↦ ?_,
    fun he ↦ ⟨simd_rotl_error he, simd_rotr_error he⟩⟩
  · rw [field_simd_sllv (hamt i hi), BitVec.toNat_shiftLeft, ofNat_field]
  · rw [field_simd_srlv (hamt i hi), BitVec.toNat_ushiftRight, ofNat_field]
  · exact apply_of_fields hdvd fun i hi ↦ by
      rw [field_simd_sllv (hamt i hi), field_simd_sllv (hamt i hi)]
  · exact apply_of_fields hdvd fun i hi ↦ by
      rw [field_simd_srlv (hamt i hi), field_simd_srlv (hamt i hi)]
  · obtain ⟨left, hleft, hl⟩ := simd_rotl_ok he v rotates
    obtain ⟨right, hright, hr⟩ := simd_rotr_ok he v rotates
    obtain ⟨back, hback, hb⟩ := simd_rotr_ok he left rotates
    refine ⟨left, right, back, hleft, fun i _ ↦ hl i, hright, fun i _ ↦ hr i, hback,
      apply_of_fields hdvd fun i _ ↦ ?_⟩
    rw [hb, hl, BitVec.ofNat_toNat, BitVec.setWidth_eq, rotateRight_rotateLeft, ofNat_field]

/-- The bytes of a vector shifted and rotated by five. -/
theorem variableShifts_onFields_five :
    OnFieldsBy (2 ^ 3) 128 (· <<< ·) (fun _ ↦ true) (simd_fill 8 5)
        (simd_sllv 128 false (fun _ ↦ 0) (2 ^ 3) (fun _ ↦ true) (simd_fill 8 5)) ∧
      ∃ left, simd_rotl 128 false (fun _ ↦ 0) (2 ^ 3) (fun _ ↦ true) (simd_fill 8 5) = .ok left ∧
        OnFieldsBy (2 ^ 3) 128 BitVec.rotateLeft (fun _ ↦ true) (simd_fill 8 5) left := by
  have hall := variableShifts_onFields (show 2 ^ 3 ∣ 128 by decide) false (fun _ ↦ 0)
    (fun _ ↦ true) (simd_fill 8 5) (simd_fill 8 5)
  have hamt (i : ℕ) : field (2 ^ 3) (simd_fill 8 5) i = 5 := field_fill (by decide)
  obtain ⟨left, _, _, hleft, hl, _⟩ := hall.2.1 (Or.inr (le_refl 3))
  exact ⟨(hall.1 fun i _ ↦ (hamt i).trans_lt (by decide)).1, left, hleft, hl⟩

/-- There is no rotation of nibbles. -/
theorem simd_rotl_nibbles : ¬ ∃ left, simd_rotl 128 false (fun _ ↦ 0) (2 ^ 2)
    (fun _ ↦ true) (simd_fill 4 1) = .ok left := by
  rintro ⟨left, hleft⟩
  rw [simd_rotl_error (Or.inr rfl)] at hleft
  cases hleft

end ByAmounts

end Parabix.IDISA.IDISA_Builder
