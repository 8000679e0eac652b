import Parabix.IDISA.Moves

namespace Parabix.IDISA

open Library Library.BitStream

section Operations

variable (fw count : ℕ)

/-- The bits of a mask, each in a field of its own. -/
def esimd_bitspread (bitmask : Stream) : Stream := ofFields fw fun i ↦ (bitmask i).toNat

def simd_any (a : Stream) : Stream :=
  ofFields fw fun i ↦ if field fw a i = 0 then 0 else 2 ^ fw - 1

/-- The last step is for the shift by zero. -/
def expandLoop (shiftAmount : ℕ) (movements_remaining pending result : Stream) : Stream :=
  if 0 < shiftAmount then
    let shift_splat := simd_fill fw (shiftAmount / 2)
    let shift_select := simd_and movements_remaining shift_splat
    let shift_mask := simd_eq fw shift_select shift_splat
    let shifted := simd_and (mvmd_slli fw pending (shiftAmount / 2)) shift_mask
    let movements_remaining := simd_xor movements_remaining shift_select
    let keep_mask := simd_eq fw movements_remaining shift_select
    let newVals := simd_and pending keep_mask
    let A := simd_and pending (simd_not shift_mask)
    expandLoop (shiftAmount / 2) movements_remaining (simd_or A shifted) (simd_or result newVals)
  else
    result
termination_by shiftAmount
decreasing_by omega

/-- The fields of a vector at the places of the fields of a mask that are one. -/
def expandFields (v select_mask : Stream) : Stream :=
  let movements_remaining :=
    hsimd_partial_sum fw count (simd_xor select_mask (simd_fill fw 1))
  simd_and (expandLoop fw count movements_remaining v fun _ ↦ false) (simd_any fw select_mask)

/-- The fields of a vector at the places of the ones of a mask. -/
def mvmd_expand (v bitmask : Stream) : Stream :=
  let select_mask := esimd_bitspread fw bitmask
  let movements_remaining :=
    hsimd_partial_sum fw count (simd_xor select_mask (simd_fill fw 1))
  simd_and (expandLoop fw count movements_remaining v fun _ ↦ false) (simd_any fw select_mask)

end Operations

section Expand

variable {fw t k i c x y : ℕ} {M : ℕ → ℕ} {v movements pending result : Stream}

theorem field_xor (a b : Stream) : field fw (simd_xor a b) i = field fw a i ^^^ field fw b i := by
  apply Nat.eq_of_testBit_eq
  intro j
  rw [Nat.testBit_xor, testBit_field, testBit_field, testBit_field, simd_xor]
  cases decide (j < fw) <;> simp

/-- The highest bit of a number of `k + 1` bits. -/
theorem and_two_pow_eq (hx : x = y % 2 ^ (k + 1)) : x &&& 2 ^ k = 2 ^ k * (y / 2 ^ k % 2) := by
  have hbit : x.testBit k = decide (y / 2 ^ k % 2 = 1) := by
    rw [hx, Nat.testBit_mod_two_pow, decide_eq_true (Nat.lt_succ_self k), Bool.true_and,
      Nat.testBit_eq_decide_div_mod_eq]
  rw [Nat.and_two_pow, hbit, Nat.mul_comm]
  congr 1
  rcases Nat.mod_two_eq_zero_or_one (y / 2 ^ k) with h | h
  · rw [h]
    rfl
  · rw [h]
    rfl

theorem xor_and_two_pow_eq (hx : x = y % 2 ^ (k + 1)) : x ^^^ (x &&& 2 ^ k) = y % 2 ^ k := by
  apply Nat.eq_of_testBit_eq
  intro j
  rw [Nat.testBit_xor, Nat.testBit_and, hx, Nat.testBit_mod_two_pow, Nat.testBit_mod_two_pow,
    Nat.testBit_two_pow]
  rcases Nat.lt_trichotomy j k with hlt | rfl | hgt
  · simp [hlt, hlt.ne', Nat.lt_succ_of_lt hlt]
  · simp
  · rw [decide_eq_false (show ¬j < k + 1 by omega), decide_eq_false (show ¬j < k by omega)]
    simp

theorem two_pow_mul_div (y k : ℕ) :
    2 ^ k * (y / 2 ^ k) = 2 ^ (k + 1) * (y / 2 ^ (k + 1)) + 2 ^ k * (y / 2 ^ k % 2) := by
  have hdiv := Nat.div_add_mod (y / 2 ^ k) 2
  rw [pow_succ, ← Nat.div_div_eq_div_mul, Nat.mul_assoc, ← Nat.mul_add, hdiv]

/-- The movements for the bits from `k` on have been made: a field has what stands as far below as
they say, and what has been kept is final. -/
structure Expanding (fw t : ℕ) (M : ℕ → ℕ) (v : Stream) (k : ℕ)
    (movements pending result : Stream) : Prop where
  remaining (i : ℕ) (hi : i < 2 ^ t) (hM : M i < 2 ^ t) : field fw movements i = M i % 2 ^ k
  place (i : ℕ) (hi : i < 2 ^ t) (hM : M i < 2 ^ t) (hle : 2 ^ k * (M i / 2 ^ k) ≤ i) :
    field fw pending i = field fw v (i - 2 ^ k * (M i / 2 ^ k))
  kept (i : ℕ) (hi : i < 2 ^ t) (hM : M i < 2 ^ t) (hle : M i ≤ i) (c : ℕ) (hc : c < fw)
    (hbit : result (fw * i + c) = true) : v (fw * (i - M i) + c) = true

/-- Fields at the distance of one movement have the same higher bits of their movements. -/
theorem div_eq_of_moving {a b : ℕ} (hle : a ≤ b) (hnear : b ≤ a + 2 ^ k)
    (hbit : b / 2 ^ k % 2 = 1) : a / 2 ^ (k + 1) = b / 2 ^ (k + 1) := by
  have hlow : b / 2 ^ k ≤ a / 2 ^ k + 1 := by
    rw [← Nat.add_div_right a (Nat.two_pow_pos k)]
    exact Nat.div_le_div_right hnear
  have hhigh : a / 2 ^ k ≤ b / 2 ^ k := Nat.div_le_div_right hle
  rw [pow_succ, ← Nat.div_div_eq_div_mul, ← Nat.div_div_eq_div_mul]
  omega

/-- The vectors after one step. -/
def expandStep (fw shift : ℕ) (movements pending result : Stream) : Stream × Stream × Stream :=
  let shift_select := simd_and movements (simd_fill fw shift)
  let shift_mask := simd_eq fw shift_select (simd_fill fw shift)
  let movements' := simd_xor movements shift_select
  (movements', simd_or (simd_and pending (simd_not shift_mask))
      (simd_and (mvmd_slli fw pending shift) shift_mask),
    simd_or result (simd_and pending (simd_eq fw movements' shift_select)))

theorem expandLoop_eq {shiftAmount : ℕ} (h : 0 < shiftAmount) :
    expandLoop fw shiftAmount movements pending result =
      expandLoop fw (shiftAmount / 2) (expandStep fw (shiftAmount / 2) movements pending result).1
        (expandStep fw (shiftAmount / 2) movements pending result).2.1
        (expandStep fw (shiftAmount / 2) movements pending result).2.2 := by
  rw [expandLoop, if_pos h]
  rfl

/-- A field is shifted if its movements say so. -/
theorem field_expandStep {shift : ℕ} {b : Bool}
    (hmask : field fw (simd_and movements (simd_fill fw shift)) i =
      field fw (simd_fill fw shift) i ↔ b = true) :
    field fw (expandStep fw shift movements pending result).2.1 i =
      if b then if i < shift then 0 else field fw pending (i - shift) else field fw pending i := by
  rw [← field_slli]
  split_ifs with hb
  · apply field_congr
    intro c hc
    simp only [expandStep, simd_or, simd_and, simd_not, simd_eq_apply hc]
    rw [decide_eq_true (hmask.2 hb)]
    simp
  · apply field_congr
    intro c hc
    simp only [expandStep, simd_or, simd_and, simd_not, simd_eq_apply hc]
    rw [decide_eq_false (mt hmask.1 hb)]
    simp

theorem expandStep_kept {shift : ℕ} (hc : c < fw) :
    (expandStep fw shift movements pending result).2.2 (fw * i + c) = true ↔
      result (fw * i + c) = true ∨ pending (fw * i + c) = true ∧
        field fw (expandStep fw shift movements pending result).1 i =
          field fw (simd_and movements (simd_fill fw shift)) i := by
  simp only [expandStep, simd_or, simd_and, simd_eq_apply hc, Bool.or_eq_true, Bool.and_eq_true,
    decide_eq_true_eq]

theorem Expanding.step (hmono : Monotone M) (hnear : ∀ a n, M (a + n) ≤ M a + n) (hk : k < t)
    (hfw : t ≤ fw) (h : Expanding fw t M v (k + 1) movements pending result) :
    Expanding fw t M v k (expandStep fw (2 ^ k) movements pending result).1
      (expandStep fw (2 ^ k) movements pending result).2.1
      (expandStep fw (2 ^ k) movements pending result).2.2 := by
  obtain ⟨hremaining, hplace, hkept⟩ := h
  have hpow : 2 ^ k < 2 ^ fw :=
    Nat.pow_lt_pow_right Nat.one_lt_two (hk.trans_le hfw)
  have hsplat (i : ℕ) : field fw (simd_fill fw (2 ^ k)) i = 2 ^ k := field_fill hpow
  have hselect (i : ℕ) (hi : i < 2 ^ t) (hM : M i < 2 ^ t) :
      field fw (simd_and movements (simd_fill fw (2 ^ k))) i = 2 ^ k * (M i / 2 ^ k % 2) := by
    rw [field_and, hsplat, and_two_pow_eq (hremaining i hi hM)]
  have hmovements (i : ℕ) (hi : i < 2 ^ t) (hM : M i < 2 ^ t) :
      field fw (expandStep fw (2 ^ k) movements pending result).1 i = M i % 2 ^ k := by
    have hdef : (expandStep fw (2 ^ k) movements pending result).1 =
      simd_xor movements (simd_and movements (simd_fill fw (2 ^ k))) := rfl
    rw [hdef, field_xor, field_and, hsplat, xor_and_two_pow_eq (hremaining i hi hM)]
  constructor
  · exact hmovements
  · intro i hi hM hle
    have hsplit := two_pow_mul_div (M i) k
    have hpos := Nat.two_pow_pos k
    have hmask : field fw (simd_and movements (simd_fill fw (2 ^ k))) i =
        field fw (simd_fill fw (2 ^ k)) i ↔ decide (M i / 2 ^ k % 2 = 1) = true := by
      rw [hselect i hi hM, hsplat, decide_eq_true_eq, Nat.mul_eq_left hpos.ne']
    rw [field_expandStep hmask]
    rcases Nat.mod_two_eq_zero_or_one (M i / 2 ^ k) with hbit | hbit
    · rw [hbit, Nat.mul_zero, Nat.add_zero] at hsplit
      rw [hbit, if_neg (by decide), hplace i hi hM (hsplit ▸ hle), hsplit]
    · rw [hbit, Nat.mul_one] at hsplit
      have hbefore : M (i - 2 ^ k) ≤ M i := hmono (Nat.sub_le _ _)
      have hafter := hnear (i - 2 ^ k) (2 ^ k)
      rw [Nat.sub_add_cancel (by omega)] at hafter
      have hdiv := div_eq_of_moving hbefore hafter hbit
      rw [hbit, if_pos (by decide), if_neg (by omega),
        hplace (i - 2 ^ k) (by omega) (by omega) (by rw [hdiv]; omega), hdiv]
      congr 1
      omega
  · intro i hi hM hle c hc hbit
    rcases (expandStep_kept hc).1 hbit with hbit | ⟨hbit, hkeep⟩
    · exact hkept i hi hM hle c hc hbit
    · rw [hmovements i hi hM, hselect i hi hM] at hkeep
      have hsplit := two_pow_mul_div (M i) k
      have hdiv := Nat.div_add_mod (M i) (2 ^ k)
      have hmod := Nat.mod_lt (M i) (Nat.two_pow_pos k)
      -- A field without a movement left is final.
      have hzero : M i / 2 ^ k % 2 = 0 := by
        rcases Nat.mod_two_eq_zero_or_one (M i / 2 ^ k) with hbit | hbit
        · exact hbit
        · rw [hbit] at hkeep
          omega
      rw [hzero, Nat.mul_zero] at hkeep hsplit
      have hfinal := hplace i hi hM (by omega)
      rw [show i - 2 ^ (k + 1) * (M i / 2 ^ (k + 1)) = i - M i by omega] at hfinal
      rwa [← apply_of_field hfinal hc]

theorem Expanding.expandLoop (hmono : Monotone M) (hnear : ∀ a n, M (a + n) ≤ M a + n)
    (hk : k ≤ t) (hfw : t ≤ fw) (h : Expanding fw t M v k movements pending result)
    (hi : i < 2 ^ t) (hM : M i < 2 ^ t) (hle : M i ≤ i) :
    field fw (expandLoop fw (2 ^ k) movements pending result) i = field fw v (i - M i) := by
  induction k generalizing movements pending result with
  | zero =>
    obtain ⟨hremaining, hplace, hkept⟩ := h
    have hlast : Parabix.IDISA.expandLoop fw (2 ^ 0) movements pending result =
        (expandStep fw 0 movements pending result).2.2 := by
      rw [expandLoop_eq (Nat.two_pow_pos 0), Parabix.IDISA.expandLoop, if_neg (by decide)]
    have hselect : field fw (simd_and movements (simd_fill fw 0)) i = 0 := by
      rw [field_and, field_fill (Nat.two_pow_pos fw), Nat.and_zero]
    have hkeep : field fw (expandStep fw 0 movements pending result).1 i =
        field fw (simd_and movements (simd_fill fw 0)) i := by
      have hdef : (expandStep fw 0 movements pending result).1 =
        simd_xor movements (simd_and movements (simd_fill fw 0)) := rfl
      rw [hdef, field_xor, hselect, Nat.xor_zero, hremaining i hi hM, pow_zero, Nat.mod_one]
    have hfinal := hplace i hi hM
    rw [pow_zero, Nat.one_mul, Nat.div_one] at hfinal
    rw [hlast]
    apply Nat.eq_of_testBit_eq
    intro c
    rw [testBit_field, testBit_field]
    by_cases hc : c < fw
    · rw [decide_eq_true hc, Bool.true_and, Bool.true_and, Bool.eq_iff_iff, expandStep_kept hc,
        apply_of_field (hfinal hle) hc]
      exact ⟨fun h ↦ h.elim (hkept i hi hM hle c hc) And.left, fun h ↦ .inr ⟨h, hkeep⟩⟩
    · rw [decide_eq_false hc, Bool.false_and, Bool.false_and]
  | succ k ih =>
    rw [expandLoop_eq (Nat.two_pow_pos _), pow_succ, Nat.mul_div_cancel _ Nat.two_pos]
    exact ih (by omega) (h.step hmono hnear hk hfw)

theorem field_bitspread (hfw : 0 < fw) (bitmask : Stream) (i : ℕ) :
    field fw (esimd_bitspread fw bitmask) i = (bitmask i).toNat := by
  have hlt : (bitmask i).toNat < 2 ^ fw := (Bool.toNat_lt _).trans_le (Nat.le_self_pow hfw.ne' 2)
  rw [esimd_bitspread, field_ofFields, Nat.mod_eq_of_lt hlt]

theorem simd_any_apply {a : Stream} (hc : c < fw) :
    simd_any fw a (fw * i + c) = decide (field fw a i ≠ 0) := by
  rw [simd_any, ofFields, mul_add_div_of_lt hc, mul_add_mod_of_lt hc]
  split_ifs with h
  · rw [Nat.zero_testBit, decide_eq_false (not_not_intro h)]
  · rw [Nat.testBit_two_pow_sub_one, decide_eq_true hc, decide_eq_true h]

/-- The fields are taken by the ones of the mask in their order, and the other places are zero. -/
theorem field_expandFields {bitmask select_mask : Stream} (hpos : 0 < fw) (hfw : t ≤ fw)
    (hmask : ∀ i < 2 ^ t, field fw select_mask i = (bitmask i).toNat) (hi : i < 2 ^ t) :
    field fw (expandFields fw (2 ^ t) v select_mask) i =
      if bitmask i then field fw v (rank bitmask i) else 0 := by
  have hpow : 2 ^ t ≤ 2 ^ fw := Nat.pow_le_pow_right Nat.two_pos hfw
  have hone (i : ℕ) : field fw (simd_fill fw 1) i = 1 :=
    field_fill (Nat.one_lt_two.trans_le (Nat.le_self_pow hpos.ne' 2))
  have hbefore (i : ℕ) := rank_succ (fun p ↦ !bitmask p) i
  have hsum (i : ℕ) (hi : i < 2 ^ t) : field fw (hsimd_partial_sum fw (2 ^ t)
      (simd_xor select_mask (simd_fill fw 1))) i =
        rank (fun p ↦ !bitmask p) (i + 1) % 2 ^ fw := by
    have hloop := @partialSumLoop_fields fw _ _ _ (rank fun p ↦ !bitmask p)
      (simd_xor select_mask (simd_fill fw 1)) Nat.one_pos (rank_mono _) (fun i hi ↦ ?_) hi
    · rwa [rank_zero, Nat.sub_zero] at hloop
    · rw [field_xor, hmask i hi, hone, Nat.add_sub_cancel, hbefore, Nat.add_sub_cancel_left,
        Nat.mod_eq_of_lt ((Bool.toNat_lt _).trans_le (Nat.le_self_pow hpos.ne' 2))]
      cases bitmask i <;> rfl
  have hinitial : Expanding fw t (fun i ↦ rank (fun p ↦ !bitmask p) (i + 1)) v t
      (hsimd_partial_sum fw (2 ^ t) (simd_xor select_mask (simd_fill fw 1))) v
      fun _ ↦ false :=
    ⟨fun i hi hM ↦ by rw [hsum i hi, Nat.mod_eq_of_lt hM, Nat.mod_eq_of_lt (hM.trans_le hpow)],
      fun i hi hM _ ↦ by rw [Nat.div_eq_of_lt hM, Nat.mul_zero, Nat.sub_zero],
      fun i _ _ _ c _ hbit ↦ absurd hbit Bool.false_ne_true⟩
  have hfield : field fw (expandFields fw (2 ^ t) v select_mask) i = if bitmask i then
      field fw (expandLoop fw (2 ^ t) (hsimd_partial_sum fw (2 ^ t)
        (simd_xor select_mask (simd_fill fw 1))) v fun _ ↦ false) i else 0 := by
    have hany (c : ℕ) (hc : c < fw) : simd_any fw select_mask (fw * i + c) = bitmask i := by
      rw [simd_any_apply hc, hmask i hi]
      cases bitmask i <;> rfl
    split_ifs with hm
    · apply field_congr
      intro c hc
      rw [expandFields, simd_and, hany c hc, hm, Bool.and_true]
    · apply field_eq_zero
      intro c hc
      rw [expandFields, simd_and, hany c hc, Bool.eq_false_iff.2 hm, Bool.and_false]
  rw [hfield]
  refine ite_congr rfl (fun hm ↦ ?_) fun _ ↦ rfl
  have hnot := rank_not bitmask i
  have hmove : rank (fun p ↦ !bitmask p) (i + 1) = rank (fun p ↦ !bitmask p) i := by
    rw [hbefore, hm]
    rfl
  have hlt : rank (fun p ↦ !bitmask p) (i + 1) < 2 ^ t := by omega
  have hle : rank (fun p ↦ !bitmask p) (i + 1) ≤ i := by omega
  rw [hinitial.expandLoop (fun a b hab ↦ rank_mono _ (Nat.add_le_add_right hab 1))
    (fun a n ↦ ?_) le_rfl hfw hi hlt hle]
  · rw [hmove]
    congr 1
    omega
  · have hnext := rank_le (fun p ↦ !bitmask (a + 1 + p)) n
    rw [Nat.add_right_comm, rank_add]
    omega

theorem field_mvmd_expand (hpos : 0 < fw) (hfw : t ≤ fw) (bitmask : Stream) (hi : i < 2 ^ t) :
    field fw (mvmd_expand fw (2 ^ t) v bitmask) i =
      if bitmask i then field fw v (rank bitmask i) else 0 :=
  field_expandFields hpos hfw (fun i _ ↦ field_bitspread hpos bitmask i) hi

end Expand

end Parabix.IDISA
