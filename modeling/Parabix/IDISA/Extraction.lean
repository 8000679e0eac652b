import Parabix.IDISA.VariableShifts

namespace Parabix.IDISA.IDISA_Builder

open Library Library.BitStream

section Operations

variable (vectorWidth : ℕ) (BENCH_GENERIC_SHIFT4 : Bool) (poison : ℕ → ℕ)

/-- The highest bits of narrow fields are added on their own. -/
def simd_add (fw : ℕ) (a b : Stream) : Stream :=
  if fw = 1 then simd_xor a b
  else if fw < 8 then
    let hi_bit_mask := highBitsSet fw 1
    let lo_bit_mask := lowBitsSet fw (fw - 1)
    let hi_xor := simd_xor (simd_and a hi_bit_mask) (simd_and b hi_bit_mask)
    let part_sum := IDISA.simd_add 32 (simd_and a lo_bit_mask) (simd_and b lo_bit_mask)
    simd_xor part_sum hi_xor
  else IDISA.simd_add fw a b

def addDelcounts (fw : ℕ) (delcounts : Stream) : Stream :=
  simd_add fw (simd_select_lo fw delcounts) (simd_srli vectorWidth fw delcounts (fw / 2))

def pext_shift_fwd_amts (fw : ℕ) (delcounts : Stream) : Stream :=
  simd_srli vectorWidth fw (simd_select_lo (fw * 2) delcounts) (fw / 2)

def pext_shift_back_amts (fw : ℕ) (delcounts : Stream) : Stream :=
  simd_select_lo fw (simd_select_hi (fw * 2) delcounts)

def gather (fw : ℕ) (w delcounts : Stream) : Stream :=
  simd_or
    (simd_sllv vectorWidth BENCH_GENERIC_SHIFT4 poison fw (simd_select_lo (fw * 2) w)
      (pext_shift_fwd_amts vectorWidth fw delcounts))
    (simd_srlv vectorWidth BENCH_GENERIC_SHIFT4 poison fw (simd_select_hi (fw * 2) w)
      (pext_shift_back_amts fw delcounts))

def pextLoop (fieldwidth fw : ℕ) (w delcounts : Stream) : Stream × Stream :=
  if 0 < fw ∧ fw < fieldwidth then
    pextLoop fieldwidth (fw * 2) (gather vectorWidth BENCH_GENERIC_SHIFT4 poison fw w delcounts)
      (addDelcounts vectorWidth fw delcounts)
  else (w, delcounts)
termination_by fieldwidth - fw

def simd_pext (fieldwidth : ℕ) (v extract_mask : Stream) : Stream :=
  let gathered := pextLoop vectorWidth BENCH_GENERIC_SHIFT4 poison fieldwidth 2
    (simd_and extract_mask v) (simd_not extract_mask)
  simd_srlv vectorWidth BENCH_GENERIC_SHIFT4 poison fieldwidth gathered.1
    (simd_select_lo fieldwidth gathered.2)

def scatter (fw : ℕ) (w delcounts : Stream) : Stream :=
  simd_or
    (simd_srlv vectorWidth BENCH_GENERIC_SHIFT4 poison fw (simd_select_lo (fw * 2) w)
      (pext_shift_fwd_amts vectorWidth fw delcounts))
    (simd_sllv vectorWidth BENCH_GENERIC_SHIFT4 poison fw (simd_select_hi (fw * 2) w)
      (pext_shift_back_amts fw delcounts))

/-- The stages of the counts, and back through them. -/
def pdepLoop (fieldwidth fw : ℕ) (v delcounts : Stream) : Stream :=
  if 0 < fw ∧ fw < fieldwidth then
    scatter vectorWidth BENCH_GENERIC_SHIFT4 poison fw
      (pdepLoop fieldwidth (fw * 2) v (addDelcounts vectorWidth fw delcounts)) delcounts
  else
    simd_sllv vectorWidth BENCH_GENERIC_SHIFT4 poison fieldwidth v
      (simd_select_lo fieldwidth delcounts)
termination_by fieldwidth - fw

def simd_pdep (fieldwidth : ℕ) (v deposit_mask : Stream) : Stream :=
  simd_and (pdepLoop vectorWidth BENCH_GENERIC_SHIFT4 poison fieldwidth 2 v
    (simd_not deposit_mask)) deposit_mask

end Operations

section Add

variable {fw h k e i : ℕ} {a b x y : Stream}

theorem field_xor : field fw (simd_xor x y) i = field fw x i ^^^ field fw y i := by
  apply Nat.eq_of_testBit_eq
  intro j
  rw [Nat.testBit_xor, testBit_field, testBit_field, testBit_field, simd_xor]
  cases decide (j < fw) <;> simp

theorem field_lowBitsSet {bits : ℕ} (hbits : bits ≤ fw) :
    field fw (lowBitsSet fw bits) i = 2 ^ bits - 1 := by
  apply Nat.eq_of_testBit_eq
  intro j
  rw [testBit_field, Nat.testBit_two_pow_sub_one]
  by_cases hj : j < fw
  · rw [lowBitsSet, mul_add_mod_of_lt hj, decide_eq_true hj, Bool.true_and]
  · rw [decide_eq_false hj, Bool.false_and, decide_eq_false (by omega)]

theorem field_highBit (hpos : 0 < fw) : field fw (highBitsSet fw 1) i = 2 ^ (fw - 1) := by
  apply Nat.eq_of_testBit_eq
  intro j
  rw [testBit_field, Nat.testBit_two_pow]
  by_cases hj : j < fw
  · rw [highBitsSet, mul_add_mod_of_lt hj, decide_eq_true hj, Bool.true_and]
    exact decide_eq_decide.2 (by omega)
  · rw [decide_eq_false hj, Bool.false_and, decide_eq_false (by omega)]

/-- Where no sum overflows, nothing is carried between fields. -/
theorem simd_add_mul_two (hpos : 0 < h) (hlt : ∀ i, field h a i + field h b i < 2 ^ h) :
    IDISA.simd_add (h * 2) a b = IDISA.simd_add h a b := by
  refine stream_ext (show 0 < h * 2 by omega) fun i ↦ ?_
  have hlow := hlt (2 * i)
  have hhigh : 2 ^ h * (field h a (2 * i + 1) + field h b (2 * i + 1) + 1) ≤ 2 ^ h * 2 ^ h :=
    Nat.mul_le_mul_left _ (hlt _)
  rw [Nat.mul_add, Nat.mul_add, Nat.mul_one] at hhigh
  rw [field_mul_two (x := IDISA.simd_add h a b), IDISA.simd_add, IDISA.simd_add, field_ofFields,
    field_ofFields, field_ofFields, Nat.mod_eq_of_lt (hlt _), Nat.mod_eq_of_lt (hlt _),
    field_mul_two, field_mul_two, Nat.mul_add, Nat.mod_eq_of_lt]
  · omega
  · rw [Nat.mul_two, pow_add]
    omega

theorem simd_add_mul_two_pow (hpos : 0 < h) (hlt : ∀ i, field h a i + field h b i < 2 ^ h) :
    IDISA.simd_add (h * 2 ^ k) a b = IDISA.simd_add h a b := by
  induction k generalizing h with
  | zero => rw [pow_zero, Nat.mul_one]
  | succ k ih =>
    have hwide (i : ℕ) : field (h * 2) a i + field (h * 2) b i < 2 ^ (h * 2) := by
      have hlow := hlt (2 * i)
      have hhigh : 2 ^ h * (field h a (2 * i + 1) + field h b (2 * i + 1) + 1) ≤ 2 ^ h * 2 ^ h :=
        Nat.mul_le_mul_left _ (hlt _)
      rw [Nat.mul_add, Nat.mul_add, Nat.mul_one] at hhigh
      rw [field_mul_two, field_mul_two, Nat.mul_two, pow_add]
      omega
    rw [show h * 2 ^ (k + 1) = h * 2 * 2 ^ k by ring, ih (by omega) hwide,
      simd_add_mul_two hpos hlt]

/-- The sum of two fields from those without their highest bits. -/
theorem add_of_xor (he : e = 1 ∨ e = 2) : ∀ x < 2 ^ 2 ^ e, ∀ y < 2 ^ 2 ^ e,
    (((x &&& (2 ^ (2 ^ e - 1) - 1)) + (y &&& (2 ^ (2 ^ e - 1) - 1))) % 2 ^ 2 ^ e) ^^^
      ((x &&& 2 ^ (2 ^ e - 1)) ^^^ (y &&& 2 ^ (2 ^ e - 1))) = (x + y) % 2 ^ 2 ^ e := by
  rcases he with rfl | rfl
  · decide
  · decide +kernel

/-- The addition of narrow fields is that of all fields. -/
theorem simd_add_eq (e : ℕ) (a b : Stream) : simd_add (2 ^ e) a b = IDISA.simd_add (2 ^ e) a b := by
  rcases Nat.lt_or_ge e 3 with hlt | hge
  · refine stream_ext (Nat.two_pow_pos e) fun i ↦ ?_
    rw [IDISA.simd_add, field_ofFields]
    rcases Nat.eq_zero_or_pos e with rfl | hpos
    · rw [pow_zero, simd_add, if_pos rfl, field_one, field_one, field_one, simd_xor]
      cases a i <;> cases b i <;> rfl
    · have he : e = 1 ∨ e = 2 := by omega
      have hone : ¬ 2 ^ e = 1 := by rcases he with rfl | rfl <;> decide
      have hnarrow : 2 ^ e < 8 := Nat.pow_lt_pow_right (m := e) (n := 3) (by decide) hlt
      obtain ⟨k, hk⟩ := Nat.exists_eq_add_of_le (show e ≤ 5 by omega)
      have hwide : 32 = 2 ^ e * 2 ^ k := by
        rw [← pow_add, ← hk]
        rfl
      have hlow (x : Stream) (i : ℕ) :
          field (2 ^ e) (simd_and x (lowBitsSet (2 ^ e) (2 ^ e - 1))) i =
            field (2 ^ e) x i &&& (2 ^ (2 ^ e - 1) - 1) := by
        rw [field_and, field_lowBitsSet (Nat.sub_le _ _)]
      have hroom (i : ℕ) : field (2 ^ e) (simd_and a (lowBitsSet (2 ^ e) (2 ^ e - 1))) i +
          field (2 ^ e) (simd_and b (lowBitsSet (2 ^ e) (2 ^ e - 1))) i < 2 ^ 2 ^ e := by
        have hhalf : 2 ^ 2 ^ e = 2 ^ (2 ^ e - 1) + 2 ^ (2 ^ e - 1) := by
          rw [← Nat.two_mul, ← pow_succ', Nat.sub_add_cancel (Nat.two_pow_pos e)]
        have hpow := Nat.two_pow_pos (2 ^ e - 1)
        have ha := Nat.and_le_right (n := field (2 ^ e) a i) (m := 2 ^ (2 ^ e - 1) - 1)
        have hb := Nat.and_le_right (n := field (2 ^ e) b i) (m := 2 ^ (2 ^ e - 1) - 1)
        rw [hlow, hlow]
        omega
      rw [simd_add, if_neg hone, if_pos hnarrow]
      dsimp only
      rw [hwide, simd_add_mul_two_pow (Nat.two_pow_pos e) hroom, field_xor, field_xor, field_and,
        field_and, field_highBit (Nat.two_pow_pos e), IDISA.simd_add, field_ofFields, hlow, hlow]
      exact add_of_xor he _ field_lt _ field_lt
  · have hwide : 2 ^ 3 ≤ 2 ^ e := Nat.pow_le_pow_right Nat.two_pos hge
    rw [simd_add, if_neg (by omega), if_neg (by omega)]

end Add

section Agree

variable {vectorWidth fw h e i : ℕ} {BENCH_GENERIC_SHIFT4 : Bool} {poison : ℕ → ℕ}
  {a b c d x y v w s : Stream}

/-- Two vectors of the same bits. -/
def Agree (vectorWidth : ℕ) (x y : Stream) : Prop := ∀ p < vectorWidth, x p = y p

theorem Agree.refl (x : Stream) : Agree vectorWidth x x := fun _ _ ↦ rfl

theorem Agree.trans {z : Stream} (hxy : Agree vectorWidth x y) (hyz : Agree vectorWidth y z) :
    Agree vectorWidth x z := fun p hp ↦ (hxy p hp).trans (hyz p hp)

theorem Agree.and (hx : Agree vectorWidth a b) (hy : Agree vectorWidth x y) :
    Agree vectorWidth (simd_and a x) (simd_and b y) := fun p hp ↦ by
  rw [simd_and, simd_and, hx p hp, hy p hp]

theorem Agree.or (hx : Agree vectorWidth a b) (hy : Agree vectorWidth x y) :
    Agree vectorWidth (simd_or a x) (simd_or b y) := fun p hp ↦ by
  rw [simd_or, simd_or, hx p hp, hy p hp]

theorem Agree.select_lo (hx : Agree vectorWidth x y) :
    Agree vectorWidth (simd_select_lo fw x) (simd_select_lo fw y) := fun p hp ↦ by
  rw [simd_select_lo, simd_select_lo, hx p hp]

theorem Agree.select_hi (hx : Agree vectorWidth x y) :
    Agree vectorWidth (simd_select_hi fw x) (simd_select_hi fw y) := fun p hp ↦ by
  rw [simd_select_hi, simd_select_hi, hx p hp]

theorem agree_iff (hdvd : 2 ^ e ∣ vectorWidth) : Agree vectorWidth x y ↔
    ∀ i < vectorWidth / 2 ^ e, field (2 ^ e) x i = field (2 ^ e) y i :=
  (fields_eq_iff hdvd (Nat.two_pow_pos e)).symm

theorem Agree.add (hdvd : 2 ^ e ∣ vectorWidth) (hx : Agree vectorWidth a b)
    (hy : Agree vectorWidth x y) :
    Agree vectorWidth (simd_add (2 ^ e) a x) (IDISA.simd_add (2 ^ e) b y) := by
  rw [simd_add_eq, agree_iff hdvd]
  intro i hi
  rw [IDISA.simd_add, IDISA.simd_add, field_ofFields, field_ofFields,
    (agree_iff hdvd).1 hx i hi, (agree_iff hdvd).1 hy i hi]

/-- The shifts of fields to their lower halves are right for the widest fields too. -/
theorem Agree.srli_half (hdvd : 2 ^ (e + 1) ∣ vectorWidth) (hx : Agree vectorWidth x y) :
    Agree vectorWidth (simd_srli vectorWidth (2 ^ (e + 1)) x (2 ^ (e + 1) / 2))
      (IDISA.simd_srli (2 ^ (e + 1)) y (2 ^ (e + 1) / 2)) := by
  have hhalf : 2 ^ (e + 1) / 2 = 2 ^ e := by rw [pow_succ, Nat.mul_div_cancel _ Nat.two_pos]
  have hlt : 2 ^ e < 2 ^ (e + 1) := Nat.pow_lt_pow_right (by decide) (Nat.lt_succ_self e)
  have hright : ∀ p < vectorWidth, simd_srli vectorWidth (2 ^ (e + 1)) x (2 ^ e) p =
      createLShr (2 ^ (e + 1)) x (2 ^ e) p := by
    refine (simd_srli_iff hdvd hlt).2 ?_
    by_cases he : e + 1 ≤ 6
    · exact Or.inl he
    · refine Or.inr fun p _ _ _ hcut ↦ ?_
      have hlane : 2 ^ e % 64 = 0 := Nat.mod_eq_zero_of_dvd (Nat.pow_dvd_pow 2 (m := 6) (by omega))
      have hmod := Nat.mod_lt p (show 0 < 64 by decide)
      omega
  rw [hhalf]
  refine Agree.trans hright ((agree_iff hdvd).2 fun i hi ↦ ?_)
  rw [field_createLShr, IDISA.simd_srli, field_ofFields, (agree_iff hdvd).1 hx i hi,
    Nat.mod_eq_of_lt ((Nat.shiftRight_le _ _).trans_lt field_lt)]

theorem Agree.sllv (hdvd : 2 ^ e ∣ vectorWidth) (hv : Agree vectorWidth v w)
    (hs : Agree vectorWidth s d) (hamt : ∀ i, field (2 ^ e) d i < 2 ^ e) :
    Agree vectorWidth (simd_sllv vectorWidth BENCH_GENERIC_SHIFT4 poison (2 ^ e) v s)
      (IDISA.simd_sllv (2 ^ e) w d) := by
  refine (agree_iff hdvd).2 fun i hi ↦ ?_
  have hfield := (agree_iff hdvd).1 hs i hi
  rw [field_simd_sllv (hfield.trans_lt (hamt i)), IDISA.simd_sllv, field_ofFields, hfield,
    (agree_iff hdvd).1 hv i hi]

theorem Agree.srlv (hdvd : 2 ^ e ∣ vectorWidth) (hv : Agree vectorWidth v w)
    (hs : Agree vectorWidth s d) (hamt : ∀ i, field (2 ^ e) d i < 2 ^ e) :
    Agree vectorWidth (simd_srlv vectorWidth BENCH_GENERIC_SHIFT4 poison (2 ^ e) v s)
      (IDISA.simd_srlv (2 ^ e) w d) := by
  refine (agree_iff hdvd).2 fun i hi ↦ ?_
  have hfield := (agree_iff hdvd).1 hs i hi
  rw [field_simd_srlv (hfield.trans_lt (hamt i)), IDISA.simd_srlv, field_ofFields, hfield,
    (agree_iff hdvd).1 hv i hi, Nat.mod_eq_of_lt ((Nat.shiftRight_le _ _).trans_lt field_lt)]

end Agree

section Stages

variable {vectorWidth h e k : ℕ} {BENCH_GENERIC_SHIFT4 : Bool} {poison : ℕ → ℕ}
  {m c d v w x y : Stream}

theorem Counted.le (hcount : Counted m h d) (i : ℕ) : field h d i ≤ h := by
  rw [hcount]
  exact Nat.sub_le _ _

/-- No amount of a stage reaches the width of its fields. -/
theorem shift_fwd_lt (hcount : Counted m h d) (hpos : 0 < h) (i : ℕ) :
    field (h * 2) (IDISA.simd_srli (h * 2) (simd_select_lo (h * 2 * 2) d) (h * 2 / 2)) i <
      h * 2 := by
  have hle := Counted.le hcount (2 * i + 1)
  rw [field_srli_half, show simd_select_lo (h * 2 * 2) d =
    simd_and (fun p ↦ decide (p % (h * 2 * 2) < h * 2 * 2 / 2)) d from rfl, field_and]
  exact (Nat.and_le_right.trans hle).trans_lt (by omega)

theorem shift_back_lt (hcount : Counted m h d) (hpos : 0 < h) (i : ℕ) :
    field (h * 2) (simd_select_lo (h * 2) (simd_select_hi (h * 2 * 2) d)) i < h * 2 := by
  have hle := Counted.le hcount (2 * i)
  rw [field_select_lo, show simd_select_hi (h * 2 * 2) d =
    simd_and (fun p ↦ decide (h * 2 * 2 - h * 2 * 2 / 2 ≤ p % (h * 2 * 2))) d from rfl, field_and]
  exact (Nat.and_le_right.trans hle).trans_lt (by omega)

theorem final_shift_lt (hcount : Counted m h d) (hpos : 0 < h) (i : ℕ) :
    field (h * 2) (simd_select_lo (h * 2) d) i < h * 2 := by
  have hle := Counted.le hcount (2 * i)
  rw [field_select_lo]
  omega

theorem agree_addDelcounts (hdvd : 2 ^ (e + 1) ∣ vectorWidth) (hd : Agree vectorWidth c d) :
    Agree vectorWidth (addDelcounts vectorWidth (2 ^ (e + 1)) c)
      (IDISA.addDelcounts (2 ^ (e + 1)) d) :=
  Agree.add hdvd hd.select_lo (Agree.srli_half hdvd hd)

theorem agree_gather (hdvd : 2 ^ (e + 1) ∣ vectorWidth) (hcount : Counted m (2 ^ e) d)
    (hd : Agree vectorWidth c d) (hw : Agree vectorWidth v w) :
    Agree vectorWidth (gather vectorWidth BENCH_GENERIC_SHIFT4 poison (2 ^ (e + 1)) v c)
      (IDISA.gather (2 ^ (e + 1)) w d) := by
  have hpos := Nat.two_pow_pos e
  exact (Agree.sllv hdvd hw.select_lo (Agree.srli_half hdvd hd.select_lo)
    (shift_fwd_lt hcount hpos)).or (Agree.srlv hdvd hw.select_hi hd.select_hi.select_lo
      (shift_back_lt hcount hpos))

theorem agree_scatter (hdvd : 2 ^ (e + 1) ∣ vectorWidth) (hcount : Counted m (2 ^ e) d)
    (hd : Agree vectorWidth c d) (hw : Agree vectorWidth v w) :
    Agree vectorWidth (scatter vectorWidth BENCH_GENERIC_SHIFT4 poison (2 ^ (e + 1)) v c)
      (IDISA.scatter (2 ^ (e + 1)) w d) := by
  have hpos := Nat.two_pow_pos e
  exact (Agree.srlv hdvd hw.select_lo (Agree.srli_half hdvd hd.select_lo)
    (shift_fwd_lt hcount hpos)).or (Agree.sllv hdvd hw.select_hi hd.select_hi.select_lo
      (shift_back_lt hcount hpos))

theorem agree_pextLoop (BENCH_GENERIC_SHIFT4 : Bool) (poison : ℕ → ℕ)
    (hdvd : 2 ^ (e + k + 1) ∣ vectorWidth) (hcount : Counted m (2 ^ e) d)
    (hd : Agree vectorWidth c d) (hw : Agree vectorWidth v w) :
    Agree vectorWidth
        (pextLoop vectorWidth BENCH_GENERIC_SHIFT4 poison (2 ^ (e + k + 1)) (2 ^ (e + 1)) v c).1
        (IDISA.pextLoop (2 ^ (e + k + 1)) (2 ^ (e + 1)) w d).1 ∧
      Agree vectorWidth
        (pextLoop vectorWidth BENCH_GENERIC_SHIFT4 poison (2 ^ (e + k + 1)) (2 ^ (e + 1)) v c).2
        (IDISA.pextLoop (2 ^ (e + k + 1)) (2 ^ (e + 1)) w d).2 ∧
      Counted m (2 ^ (e + k)) (IDISA.pextLoop (2 ^ (e + k + 1)) (2 ^ (e + 1)) w d).2 := by
  induction k generalizing e c d v w with
  | zero =>
    rw [pextLoop, IDISA.pextLoop, if_neg fun h ↦ Nat.lt_irrefl _ h.2,
      if_neg fun h ↦ Nat.lt_irrefl _ h.2]
    exact ⟨hw, hd, hcount⟩
  | succ k ih =>
    have hwidth : e + (k + 1) + 1 = e + 1 + k + 1 := by omega
    have hloop : 0 < 2 ^ (e + 1) ∧ 2 ^ (e + 1) < 2 ^ (e + (k + 1) + 1) :=
      ⟨Nat.two_pow_pos _, Nat.pow_lt_pow_right (by decide) (by omega)⟩
    have hstage : 2 ^ (e + 1) ∣ vectorWidth := (Nat.pow_dvd_pow 2 (by omega)).trans hdvd
    rw [pextLoop, IDISA.pextLoop, if_pos hloop, if_pos hloop, ← pow_succ, hwidth,
      show e + (k + 1) = e + 1 + k by omega]
    exact ih (hwidth ▸ hdvd) hcount.step (agree_addDelcounts hstage hd)
      (agree_gather hstage hcount hd hw)

theorem agree_pdepLoop (BENCH_GENERIC_SHIFT4 : Bool) (poison : ℕ → ℕ)
    (hdvd : 2 ^ (e + k + 1) ∣ vectorWidth) (hcount : Counted m (2 ^ e) d)
    (hd : Agree vectorWidth c d) (hw : Agree vectorWidth v w) :
    Agree vectorWidth
      (pdepLoop vectorWidth BENCH_GENERIC_SHIFT4 poison (2 ^ (e + k + 1)) (2 ^ (e + 1)) v c)
      (IDISA.pdepLoop (2 ^ (e + k + 1)) (2 ^ (e + 1)) w d) := by
  induction k generalizing e c d with
  | zero =>
    rw [pdepLoop, IDISA.pdepLoop, if_neg fun h ↦ Nat.lt_irrefl _ h.2,
      if_neg fun h ↦ Nat.lt_irrefl _ h.2]
    exact Agree.sllv hdvd hw hd.select_lo (final_shift_lt hcount (Nat.two_pow_pos e))
  | succ k ih =>
    have hwidth : e + (k + 1) + 1 = e + 1 + k + 1 := by omega
    have hloop : 0 < 2 ^ (e + 1) ∧ 2 ^ (e + 1) < 2 ^ (e + (k + 1) + 1) :=
      ⟨Nat.two_pow_pos _, Nat.pow_lt_pow_right (by decide) (by omega)⟩
    have hstage : 2 ^ (e + 1) ∣ vectorWidth := (Nat.pow_dvd_pow 2 (by omega)).trans hdvd
    rw [pdepLoop, IDISA.pdepLoop, if_pos hloop, if_pos hloop, ← pow_succ, hwidth]
    exact agree_scatter hstage hcount hd
      (ih (hwidth ▸ hdvd) hcount.step (agree_addDelcounts hstage hd))

/-- The extraction as compiled, with whatever poison, is the one of the fields. -/
theorem agree_simd_pext (hdvd : 2 ^ (k + 1) ∣ vectorWidth) (hv : Agree vectorWidth v w) :
    Agree vectorWidth (simd_pext vectorWidth BENCH_GENERIC_SHIFT4 poison (2 ^ (k + 1)) v m)
      (IDISA.simd_pext (2 ^ (k + 1)) w m) := by
  have hloop := agree_pextLoop (e := 0) (k := k) BENCH_GENERIC_SHIFT4 poison
    (by rwa [Nat.zero_add]) (counted_one m) (Agree.refl (simd_not m))
    ((Agree.refl m).and hv)
  rw [Nat.zero_add, Nat.zero_add, pow_one] at hloop
  rw [simd_pext, IDISA.simd_pext]
  exact Agree.srlv hdvd hloop.1 hloop.2.1.select_lo
    (final_shift_lt hloop.2.2 (Nat.two_pow_pos k))

theorem agree_simd_pdep (hdvd : 2 ^ (k + 1) ∣ vectorWidth) (hv : Agree vectorWidth v w) :
    Agree vectorWidth (simd_pdep vectorWidth BENCH_GENERIC_SHIFT4 poison (2 ^ (k + 1)) v m)
      (IDISA.simd_pdep (2 ^ (k + 1)) w m) := by
  have hloop := agree_pdepLoop (e := 0) (k := k) BENCH_GENERIC_SHIFT4 poison
    (by rwa [Nat.zero_add]) (counted_one m) (Agree.refl (simd_not m)) hv
  rw [Nat.zero_add, Nat.zero_add, pow_one] at hloop
  exact hloop.and (Agree.refl m)

end Stages

section RoundTrips

variable {k i j p : ℕ} {m v : Stream}

theorem simd_pext_apply (hj : j < 2 ^ (k + 1)) :
    IDISA.simd_pext (2 ^ (k + 1)) v m (2 ^ (k + 1) * i + j) =
      (selected m v (2 ^ (k + 1)) i).getD j false := by
  have hbit := testBit_field (w := 2 ^ (k + 1)) (x := IDISA.simd_pext (2 ^ (k + 1)) v m)
    (i := i) (j := j)
  rw [decide_eq_true hj, Bool.true_and] at hbit
  rw [← hbit, field_simd_pext, testBit_ofDigits]

theorem sourceBit_eq {W : ℕ} (hj : j < W) : sourceBit W m (W * i + j) =
    W * i + (rank m (W * i + j) - rank m (W * i)) := by
  rw [sourceBit, mul_add_div_of_lt hj, mul_add_mod_of_lt hj, rank_add_pop, Nat.add_sub_cancel_left]

/-- What is extracted by a mask comes back to its places. -/
theorem pdep_pext_apply (k : ℕ) (v m : Stream) (p : ℕ) :
    IDISA.simd_pdep (2 ^ (k + 1)) (IDISA.simd_pext (2 ^ (k + 1)) v m) m p = (m p && v p) := by
  have hpos := Nat.two_pow_pos (k + 1)
  have hmod := Nat.mod_lt p hpos
  rw [simd_pdep_apply]
  cases hm : m p
  · rfl
  · rw [← Nat.div_add_mod p (2 ^ (k + 1))] at hm ⊢
    have hrank := rank_add_pop m (2 ^ (k + 1) * (p / 2 ^ (k + 1))) (p % 2 ^ (k + 1))
    have hle := pop_le m (2 ^ (k + 1) * (p / 2 ^ (k + 1))) (p % 2 ^ (k + 1))
    rw [sourceBit_eq hmod, simd_pext_apply (by omega), selected, List.getD_eq_getElem?_getD,
      getElem?_compress hm hmod]
    rfl

/-- What is deposited by a mask comes back to the low end. -/
theorem pext_pdep_apply (k : ℕ) (v m : Stream) (p : ℕ) :
    IDISA.simd_pext (2 ^ (k + 1)) (IDISA.simd_pdep (2 ^ (k + 1)) v m) m p =
      (decide (p % 2 ^ (k + 1) < pop m (2 ^ (k + 1) * (p / 2 ^ (k + 1))) (2 ^ (k + 1))) &&
        v p) := by
  have hmod := Nat.mod_lt p (Nat.two_pow_pos (k + 1))
  obtain ⟨i, j, hj, rfl⟩ : ∃ i j, j < 2 ^ (k + 1) ∧ p = 2 ^ (k + 1) * i + j :=
    ⟨_, _, hmod, (Nat.div_add_mod p _).symm⟩
  have hlen := length_compress m (IDISA.simd_pdep (2 ^ (k + 1)) v m) (2 ^ (k + 1) * i) (2 ^ (k + 1))
  rw [rank_add_pop] at hlen
  rw [simd_pext_apply hj, selected, List.getD_eq_getElem?_getD, mul_add_div_of_lt hj,
    mul_add_mod_of_lt hj]
  cases hget : (compress m (IDISA.simd_pdep (2 ^ (k + 1)) v m) (2 ^ (k + 1) * i)
    (2 ^ (k + 1)))[j]? with
  | none =>
    have hge := List.getElem?_eq_none_iff.1 hget
    rw [decide_eq_false (by omega), Bool.false_and]
    rfl
  | some b =>
    obtain ⟨hlt, -⟩ := List.getElem?_eq_some_iff.1 hget
    obtain ⟨q, hq, hm, hrank, rfl⟩ := getElem?_compress_eq_some.1 hget
    rw [Option.getD_some, simd_pdep_apply, hm, Bool.true_and, sourceBit_eq hq, hrank,
      Nat.add_sub_cancel_left, decide_eq_true (by omega), Bool.true_and]

end RoundTrips

end Parabix.IDISA.IDISA_Builder
