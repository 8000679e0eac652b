import Parabix.RE.CodeUnitCompiler
import Parabix.RE.TernaryCompiler

namespace Parabix.RE

open Library Library.BitStream UCD Pablo

/-- The ternary operations have their values, and the tests tell what a node is made of. -/
structure TernaryBuilder.Lawful {α : Type} (pb : TernaryBuilder α) (eval : α → Stream)
    (inFile : Stream) (plain : α → Prop) : Prop
    extends toLawfulCC : pb.toCCBuilder.Lawful eval inFile plain where
  xor (a b : α) (p : ℕ) : eval (pb.createXor a b) p = (eval a p ^^ eval b p)
  ternary (mask : BitVec 8) (a b c : α) (p : ℕ) :
    eval (pb.createTernary mask a b c) p = Pablo.ternary mask (eval a p) (eval b p) (eval c p)
  andXor (a b c : α) (p : ℕ) : eval (pb.createAndXor a b c) p = (eval a p && (eval b p ^^ eval c p))
  andOr (a b c : α) (p : ℕ) : eval (pb.createAndOr a b c) p = (eval a p && (eval b p || eval c p))
  orAnd (a b c : α) (p : ℕ) : eval (pb.createOrAnd a b c) p = (eval a p || eval b p && eval c p)
  isOnes (a : α) (ha : pb.isOnes a = true) (p : ℕ) : eval a p = true
  castAnd (a : α) (x : α × α) (ha : pb.castAnd a = some x) (p : ℕ) :
    eval a p = (eval x.1 p && eval x.2 p)
  castOr (a : α) (x : α × α) (ha : pb.castOr a = some x) (p : ℕ) :
    eval a p = (eval x.1 p || eval x.2 p)
  plain_andOr (a b c : α) (ha : plain a) (hb : plain b) (hc : plain c) :
    plain (pb.createAndOr a b c)
  plain_orAnd (a b c : α) (ha : plain a) (hb : plain b) (hc : plain c) :
    plain (pb.createOrAnd a b c)
  plain_castAnd (a : α) (x : α × α) (hx : pb.castAnd a = some x) (ha : plain a) :
    plain x.1 ∧ plain x.2
  plain_castOr (a : α) (x : α × α) (hx : pb.castOr a = some x) (ha : plain a) :
    plain x.1 ∧ plain x.2

namespace Parabix_Ternary_CC_Compiler

open Parabix_CC_Compiler (getBasisVar mEncodingMask)

variable {α : Type} {pb : TernaryBuilder α} {mBasisBit : BixNum α} {eval : α → Stream}
  {inFile : Stream} {plain : α → Prop} {p : ℕ} (h : pb.Lawful eval inFile plain)

section Join

/-- The value of a list of terms under an operation. -/
def joined (eval : α → Stream) (g : Bool → Bool → Bool) (u : Bool) (p : ℕ) (terms : List α) :
    Bool := (terms.map fun a ↦ eval a p).foldr g u

variable {g : Bool → Bool → Bool} {u : Bool} {create : α → α → α} {create3 : α → α → α → α}

theorem length_joinTriples (terms : List α) :
    (joinTriples create3 terms).length = terms.length / 3 + terms.length % 3 := by
  fun_induction joinTriples create3 terms with
  | case1 a b c terms ih =>
    simp only [List.length_cons, ih]
    omega
  | case2 terms hne =>
    have hlt : terms.length < 3 := by
      by_contra hge
      rcases terms with _ | ⟨a, _ | ⟨b, _ | ⟨c, rest⟩⟩⟩
      · simp at hge
      · simp at hge
      · simp at hge
      · exact hne a b c rest rfl
    rw [List.length_reverse]
    omega

section Value

variable [Std.Commutative g] [Std.Associative g]
  (hcreate : ∀ a b p, eval (create a b) p = g (eval a p) (eval b p))
  (hcreate3 : ∀ a b c p, eval (create3 a b c) p = g (eval a p) (g (eval b p) (eval c p)))

include hcreate3

theorem joined_joinTriples (terms : List α) :
    joined eval g u p (joinTriples create3 terms) = joined eval g u p terms := by
  fun_induction joinTriples create3 terms with
  | case1 a b c terms ih =>
    unfold joined at ih ⊢
    simp only [List.map_cons, List.foldr_cons, ih, hcreate3]
    ac_rfl
  | case2 terms => exact ((List.reverse_perm terms).map _).foldr_op_eq

include hcreate

theorem joinRounds_spec (hu : ∀ b, g b u = b) {fuel : ℕ} {terms : List α} (hne : terms ≠ [])
    (hfuel : terms.length ≤ fuel) : ∃ e, joinRounds create create3 fuel terms = .ok e ∧
      ∀ p, eval e p = joined eval g u p terms := by
  induction fuel generalizing terms with
  | zero => exact absurd (List.length_eq_zero_iff.1 (by omega)) hne
  | succ fuel ih =>
    have hpos := List.length_pos_of_ne_nil hne
    have hlength := @length_joinTriples _ create3 terms
    have hvalue (p : ℕ) := joined_joinTriples (p := p) (u := u) hcreate3 terms
    unfold joinRounds
    generalize joinTriples create3 terms = rest at hlength hvalue
    rcases rest with _ | ⟨a, _ | ⟨b, _ | ⟨c, rest⟩⟩⟩
    · simp only [List.length_nil] at hlength
      omega
    · refine ⟨a, rfl, fun p ↦ ?_⟩
      rw [← hvalue]
      simp [joined, hu]
    · refine ⟨create a b, rfl, fun p ↦ ?_⟩
      rw [← hvalue]
      simp [joined, hu, hcreate]
    · simp only [List.length_cons] at hlength
      obtain ⟨e, he, heval⟩ := ih (List.cons_ne_nil a (b :: c :: rest)) (by
        simp only [List.length_cons]
        omega)
      exact ⟨e, he, fun p ↦ by rw [heval, hvalue]⟩

end Value

theorem joined_or (terms : List α) :
    joined eval or false p terms = terms.any fun a ↦ eval a p := by
  induction terms with
  | nil => rfl
  | cons a terms ih => exact congrArg (eval a p || ·) ih

theorem joined_and (terms : List α) :
    joined eval and true p terms = terms.all fun a ↦ eval a p := by
  induction terms with
  | nil => rfl
  | cons a terms ih => exact congrArg (eval a p && ·) ih

end Join

section Pattern

include h

theorem joinTerms_or (terms : List α) : ∃ e, joinTerms pb pb.createOr pb.createOr3 terms = .ok e ∧
    ∀ p, eval e p = terms.any fun a ↦ eval a p := by
  unfold joinTerms
  cases terms with
  | nil => exact ⟨_, rfl, fun p ↦ h.zeroes p⟩
  | cons a terms =>
    obtain ⟨e, he, heval⟩ := joinRounds_spec (g := or) (u := false) h.or
      (fun a b c p ↦ by rw [h.or3, Bool.or_assoc]) Bool.or_false (List.cons_ne_nil a terms) le_rfl
    refine ⟨e, he, fun p ↦ ?_⟩
    rw [heval, joined_or]

theorem joinTerms_and {terms : List α} (hne : terms ≠ []) :
    ∃ e, joinTerms pb pb.createAnd pb.createAnd3 terms = .ok e ∧
      ∀ p, eval e p = terms.all fun a ↦ eval a p := by
  obtain ⟨e, he, heval⟩ := joinRounds_spec (g := and) (u := true) h.and
    (fun a b c p ↦ by rw [h.and3, Bool.and_assoc]) Bool.and_true hne le_rfl
  refine ⟨e, by rw [joinTerms, if_neg (by simpa using hne), he], fun p ↦ ?_⟩
  rw [heval, joined_and]

theorem bit_pattern_expr_spec (pattern basis_idx : ℕ) {selected_bits : ℕ}
    (hsel : ∀ i, selected_bits.testBit i = true → basis_idx ≤ i ∧ i < mBasisBit.length) :
    ∃ e, bit_pattern_expr pb mBasisBit pattern basis_idx selected_bits = .ok e ∧
      ∀ p, eval e p = true ↔ ∀ i, selected_bits.testBit i = true →
        (value eval p mBasisBit).testBit i = pattern.testBit i := by
  unfold bit_pattern_expr
  split_ifs with hz
  · exact ⟨_, rfl, fun p ↦ by simp [hz, h.ones]⟩
  · have hmem (i : ℕ) : i ∈ (List.range' basis_idx (mBasisBit.length - basis_idx)).filter
        selected_bits.testBit ↔ selected_bits.testBit i = true := by
      rw [List.mem_filter, List.mem_range'_1]
      refine ⟨And.right, fun hi ↦ ⟨?_, hi⟩⟩
      have := hsel i hi
      omega
    have hne : patternTerms pb mBasisBit pattern basis_idx selected_bits ≠ [] := by
      obtain ⟨i, hi⟩ := Nat.exists_testBit_of_ne_zero hz
      exact List.ne_nil_of_mem (List.mem_map_of_mem ((hmem i).2 hi))
    obtain ⟨e, he, heval⟩ := joinTerms_and h hne
    refine ⟨e, he, fun p ↦ ?_⟩
    rw [heval, patternTerms, List.all_map, List.all_eq_true]
    simp only [hmem, Function.comp_apply]
    refine forall_congr' fun i ↦ imp_congr_right fun _ ↦ ?_
    rw [← Parabix_CC_Compiler.eval_getBasisVar h.toLawfulCC]
    split_ifs with hp
    · rw [hp]
    · rw [h.not, Bool.not_eq_true', Bool.eq_false_of_not_eq_true hp]

end Pattern

section Ranges

include h

theorem eval_createOrRange (a b : α) (p : ℕ) :
    eval (createOrRange pb a b) p = (eval a p || eval b p) := by
  unfold createOrRange
  cases hor : pb.castOr b with
  | some x => simp only [h.or3, h.castOr b x hor, Bool.or_assoc]
  | none =>
    cases hand : pb.castAnd b with
    | some x => simp only [h.orAnd, h.castAnd b x hand]
    | none => exact h.or a b p

theorem eval_createAndRange (a b : α) (p : ℕ) :
    eval (createAndRange pb a b) p = (eval a p && eval b p) := by
  unfold createAndRange
  cases hand : pb.castAnd b with
  | some x => simp only [h.and3, h.castAnd b x hand, Bool.and_assoc]
  | none =>
    cases hor : pb.castOr b with
    | some x => simp only [h.andOr, h.castOr b x hor]
    | none => exact h.and a b p

theorem plain_createOrRange (a b : α) (ha : plain a) (hb : plain b) :
    plain (createOrRange pb a b) := by
  unfold createOrRange
  cases hor : pb.castOr b with
  | some x =>
    have hx := h.plain_castOr b x hor hb
    exact h.plain_or3 _ _ _ ha hx.1 hx.2
  | none =>
    cases hand : pb.castAnd b with
    | some x =>
      have hx := h.plain_castAnd b x hand hb
      exact h.plain_orAnd _ _ _ ha hx.1 hx.2
    | none => exact h.plain_or _ _ ha hb

theorem plain_createAndRange (a b : α) (ha : plain a) (hb : plain b) :
    plain (createAndRange pb a b) := by
  unfold createAndRange
  cases hand : pb.castAnd b with
  | some x =>
    have hx := h.plain_castAnd b x hand hb
    exact h.plain_and3 _ _ _ ha hx.1 hx.2
  | none =>
    cases hor : pb.castOr b with
    | some x =>
      have hx := h.plain_castOr b x hor hb
      exact h.plain_andOr _ _ _ ha hx.1 hx.2
    | none => exact h.plain_and _ _ ha hb

theorem ranges_lawful : (ranges pb).Lawful eval inFile plain :=
  { h.toLawfulCC with
    or := eval_createOrRange h
    and := eval_createAndRange h
    plain_or := plain_createOrRange h
    plain_and := plain_createAndRange h }

variable (mBasisBit)

theorem eval_basisVar (i : ℕ) :
    eval (getBasisVar pb.toCCBuilder mBasisBit i) p = (value eval p mBasisBit).testBit i :=
  Parabix_CC_Compiler.eval_getBasisVar h.toLawfulCC i

variable {N x : ℕ} (hx : x < 2 ^ N)

include hx

theorem eval_GE_Range : eval (GE_Range pb mBasisBit N x) p =
    decide (x ≤ value eval p mBasisBit % 2 ^ N) :=
  Parabix_CC_Compiler.eval_GE_Range (ranges_lawful h) hx

theorem eval_LE_Range : eval (LE_Range pb mBasisBit N x) p =
    decide (value eval p mBasisBit % 2 ^ N ≤ x) :=
  Parabix_CC_Compiler.eval_LE_Range (ranges_lawful h) hx

variable {mBasisBit}

omit hx in
theorem plain_GE_Range (hplain : ∀ b ∈ mBasisBit, plain b) (N x : ℕ) :
    plain (GE_Range pb mBasisBit N x) :=
  Parabix_CC_Compiler.plain_GE_Range (ranges_lawful h) hplain N x

end Ranges

section Bits

variable {x k d lo hi : ℕ}

theorem mod_eq_zero_of_bits (hx : ∀ i < k, x.testBit i = false) : x % 2 ^ k = 0 := by
  apply Nat.eq_of_testBit_eq
  intro i
  rw [Nat.testBit_mod_two_pow, Nat.zero_testBit]
  by_cases hi : i < k
  · rw [hx i hi, Bool.and_false]
  · rw [decide_eq_false hi, Bool.false_and]

theorem mod_eq_ones_of_bits (hx : ∀ i < k, x.testBit i = true) : x % 2 ^ k = 2 ^ k - 1 := by
  apply Nat.eq_of_testBit_eq
  intro i
  rw [Nat.testBit_mod_two_pow, Nat.testBit_two_pow_sub_one]
  by_cases hi : i < k
  · rw [hx i hi, Bool.and_true]
  · rw [decide_eq_false hi, Bool.false_and]

theorem testBit_not32 (hhi : hi < 2 ^ 32) (i : ℕ) :
    (2 ^ 32 - (hi + 1)).testBit i = (decide (i < 32) && !hi.testBit i) :=
  Nat.testBit_two_pow_sub_succ hhi i

/-- The low bits that no number of the range is tested for: zeroes of the first number and ones of
the last. -/
theorem irr_bits_spec (hle : lo ≤ hi) (hhi : hi < 2 ^ 31) (hd : (lo ^^^ hi).size = d + 1)
    (hk : countForwardZeroes (lo ||| (2 ^ 32 - (hi + 1))) = k) :
    (∀ i < k, lo.testBit i = false) ∧ (∀ i < k, hi.testBit i = true) ∧ (k = d + 1 ∨ k < d) := by
  have hnot := testBit_not32 (hhi.trans (by decide))
  have hne : lo ||| (2 ^ 32 - (hi + 1)) ≠ 0 := by
    intro hzero
    have hbit := congrArg (Nat.testBit · 31) hzero
    simp only [Nat.testBit_or, hnot, Nat.testBit_lt_two_pow hhi, Nat.zero_testBit] at hbit
    simp at hbit
  have hlow := testBit_countForwardZeroes hne
  have hbelow (i : ℕ) (hi : i < k) := testBit_of_lt_countForwardZeroes (j := i) hne (by omega)
  rw [hk, Nat.testBit_or, hnot] at hlow
  simp only [Nat.testBit_or, hnot, Bool.or_eq_false_iff] at hbelow
  obtain ⟨hdiv, hb1, hb2⟩ := Parabix_CC_Compiler.split_range hle hd
  have hsize : d < 32 := by
    by_contra hge
    rw [Nat.testBit_lt_two_pow (hhi.trans_le (Nat.pow_le_pow_right (by decide) (by omega)))] at hb2
    cases hb2
  have hone (i : ℕ) (hi' : i < k) (h32 : i < 32) : hi.testBit i = true := by
    simpa [h32] using (hbelow i hi').2
  have hnext : k ≤ d + 1 := by
    by_contra hgt
    have hzero := (hbelow (d + 1) (by omega)).1
    have hquot := congrArg (Nat.testBit · 0) hdiv
    simp only [Nat.testBit_div_two_pow, Nat.zero_add] at hquot
    by_cases h32 : d + 1 < 32
    · rw [hone (d + 1) (by omega) h32, hzero] at hquot
      cases hquot
    · -- The last bit that the range tells apart is below bit 31.
      rw [show d = 31 by omega, Nat.testBit_lt_two_pow hhi] at hb2
      cases hb2
  refine ⟨fun i hi' ↦ (hbelow i hi').1, fun i hi' ↦ hone i hi' (by omega), ?_⟩
  obtain rfl | hkd := Nat.eq_or_lt_of_le hnext
  · exact .inl rfl
  · right
    refine Nat.lt_of_le_of_ne (by omega) ?_
    rintro rfl
    simp [hb1, hb2] at hlow

theorem ones_shiftRight : (2 ^ d - 1) >>> k = 2 ^ (d - k) - 1 := by
  apply Nat.eq_of_testBit_eq
  intro i
  rw [Nat.testBit_shiftRight, Nat.testBit_two_pow_sub_one, Nat.testBit_two_pow_sub_one]
  exact decide_eq_decide.2 (by omega)

theorem eq_succ_of_ones_shiftRight (h : (2 ^ d - 1) >>> k = 1) : d = k + 1 := by
  have hpos := Nat.two_pow_pos (d - k)
  rw [ones_shiftRight] at h
  have hpow : 2 ^ (d - k) = 2 ^ 1 := by omega
  have := Nat.pow_right_injective le_rfl hpow
  omega

theorem and_mask2 (x : ℕ) :
    x &&& (2 ^ d - 1) >>> k <<< k = 2 ^ k * (x % 2 ^ d / 2 ^ k) := by
  apply Nat.eq_of_testBit_eq
  intro i
  rw [Nat.testBit_and, Nat.testBit_shiftLeft, Nat.testBit_shiftRight, Nat.testBit_two_pow_sub_one,
    Nat.testBit_two_pow_mul, Nat.testBit_div_two_pow, Nat.testBit_mod_two_pow]
  by_cases hi : k ≤ i
  · rw [show k + (i - k) = i by omega, show i - k + k = i by omega]
    simp [hi, Bool.and_comm]
  · simp [hi]

theorem mask2_eq (hkd : k ≤ d) : (2 ^ d - 1) >>> k <<< k = 2 ^ d - 2 ^ k := by
  rw [ones_shiftRight, Nat.shiftLeft_eq, Nat.sub_mul, ← Nat.pow_add, Nat.sub_add_cancel hkd,
    Nat.one_mul]

theorem two_pow_mul_shiftRight (x : ℕ) : (2 ^ k * x) >>> k = x := by
  rw [Nat.shiftRight_eq_div_pow, Nat.mul_div_cancel_left _ (Nat.two_pow_pos k)]

end Bits

section Bounds

/-- The bits of the bounds below the one that tells them apart. The lowest `k` of them are zeroes
in the lower bound and ones in the upper one. -/
structure Bounds (lo hi k d : ℕ) : Prop where
  lt : k < d
  lo : ∀ i < k, lo.testBit i = false
  hi : ∀ i < k, hi.testBit i = true

variable {lo hi k d : ℕ} (b : Bounds lo hi k d)

include b

theorem Bounds.lo_eq : lo % 2 ^ d = 2 ^ k * (lo % 2 ^ d / 2 ^ k) := by
  have hmod : lo % 2 ^ d % 2 ^ k = 0 := by
    rw [Nat.mod_mod_of_dvd _ (Nat.pow_dvd_pow 2 b.lt.le), mod_eq_zero_of_bits b.lo]
  have := Nat.div_add_mod (lo % 2 ^ d) (2 ^ k)
  omega

theorem Bounds.hi_eq : hi % 2 ^ d + 1 = 2 ^ k * (hi % 2 ^ d / 2 ^ k) + 2 ^ k := by
  have hmod : hi % 2 ^ d % 2 ^ k = 2 ^ k - 1 := by
    rw [Nat.mod_mod_of_dvd _ (Nat.pow_dvd_pow 2 b.lt.le), mod_eq_ones_of_bits b.hi]
  have := Nat.div_add_mod (hi % 2 ^ d) (2 ^ k)
  have := Nat.two_pow_pos k
  omega

/-- hi + 1 = lo -/
theorem Bounds.succ_eq (h : ((hi &&& (2 ^ d - 1) >>> k <<< k) >>> k) + 1 =
    (lo &&& (2 ^ d - 1) >>> k <<< k) >>> k) : hi % 2 ^ d + 1 = lo % 2 ^ d := by
  rw [and_mask2, and_mask2, two_pow_mul_shiftRight, two_pow_mul_shiftRight] at h
  rw [b.hi_eq, b.lo_eq, ← h, Nat.mul_succ]

/-- hi with pattern xx111xx -/
theorem Bounds.hi_ones (h : (2 ^ d - 1) >>> k <<< k &&& hi = (2 ^ d - 1) >>> k <<< k) :
    hi % 2 ^ d + 1 = 2 ^ d := by
  have hle := Nat.pow_le_pow_right Nat.two_pos b.lt.le
  rw [Nat.and_comm, and_mask2, mask2_eq b.lt.le] at h
  rw [b.hi_eq, h]
  omega

/-- lo with pattern xx000xx -/
theorem Bounds.lo_zeroes (h : (2 ^ d - 1) >>> k <<< k ^^^ ((2 ^ d - 1) >>> k <<< k &&& lo) =
    (2 ^ d - 1) >>> k <<< k) : lo % 2 ^ d = 0 := by
  have hxor := congrArg ((2 ^ d - 1) >>> k <<< k ^^^ ·) h
  simp only [← Nat.xor_assoc, Nat.xor_self, Nat.zero_xor] at hxor
  rw [Nat.and_comm, and_mask2] at hxor
  rw [b.lo_eq, hxor]

omit b in
theorem sub_eq_of_mask2 {z : ℕ} (h : (2 ^ d - 1) >>> k <<< k >>> k >>> z = 1) : d = k + z + 1 := by
  rw [Nat.shiftLeft_shiftRight, ones_shiftRight] at h
  have := eq_succ_of_ones_shiftRight h
  omega

/-- lo with pattern xx100xx -/
theorem Bounds.lo_one (hne : lo % 2 ^ d ≠ 0)
    (h : (2 ^ d - 1) >>> k <<< k >>> k >>> countForwardZeroes (lo >>> k) = 1) :
    lo % 2 ^ d = 2 ^ (d - 1) := by
  have hshift : lo >>> k ≠ 0 := by
    intro hzero
    rw [Nat.shiftRight_eq_div_pow] at hzero
    have hmod := mod_eq_zero_of_bits b.lo
    rw [Nat.mod_eq_of_lt ((Nat.div_eq_zero_iff_lt (Nat.two_pow_pos k)).1 hzero)] at hmod
    simp [hmod] at hne
  have hd := sub_eq_of_mask2 h
  have hlow := testBit_countForwardZeroes hshift
  have hbelow (i : ℕ) := testBit_of_lt_countForwardZeroes (j := i) hshift
  generalize countForwardZeroes (lo >>> k) = z at hd hlow hbelow
  subst hd
  rw [Nat.testBit_shiftRight] at hlow
  have hzero : lo % 2 ^ (k + z) = 0 := by
    refine mod_eq_zero_of_bits fun i hi ↦ ?_
    by_cases hik : i < k
    · exact b.lo i hik
    · have := hbelow (i - k) (by omega)
      rwa [Nat.testBit_shiftRight, Nat.add_sub_cancel' (by omega)] at this
  rw [Parabix_CC_Compiler.mod_two_pow_succ, hzero, hlow]
  simp

/-- hi with pattern xx011xx -/
theorem Bounds.hi_zero (hhi : hi < 2 ^ 31)
    (h : (2 ^ d - 1) >>> k <<< k >>> k >>> countForwardZeroes ((2 ^ 32 - (hi + 1)) >>> k) = 1) :
    hi % 2 ^ d + 1 = 2 ^ (d - 1) := by
  have hnot := testBit_not32 (hhi.trans (by decide))
  have hk : k ≤ 31 := by
    by_contra hgt
    have hbit := b.hi 31 (by omega)
    rw [Nat.testBit_lt_two_pow hhi] at hbit
    cases hbit
  have hshift : (2 ^ 32 - (hi + 1)) >>> k ≠ 0 := by
    intro hzero
    have hbit := congrArg (Nat.testBit · (31 - k)) hzero
    simp only [Nat.testBit_shiftRight, Nat.zero_testBit, Nat.add_sub_cancel' hk, hnot,
      Nat.testBit_lt_two_pow hhi] at hbit
    simp at hbit
  have hd := sub_eq_of_mask2 h
  have hlow := testBit_countForwardZeroes hshift
  have hbelow (i : ℕ) := testBit_of_lt_countForwardZeroes (j := i) hshift
  generalize countForwardZeroes ((2 ^ 32 - (hi + 1)) >>> k) = z at hd hlow hbelow
  subst hd
  rw [Nat.testBit_shiftRight, hnot, Bool.and_eq_true, decide_eq_true_iff, Bool.not_eq_true'] at hlow
  have hones : hi % 2 ^ (k + z) = 2 ^ (k + z) - 1 := by
    refine mod_eq_ones_of_bits fun i hi' ↦ ?_
    by_cases hik : i < k
    · exact b.hi i hik
    · have hbit := hbelow (i - k) (by omega)
      rw [Nat.testBit_shiftRight, Nat.add_sub_cancel' (by omega), hnot] at hbit
      simpa [show i < 32 by omega] using hbit
  have hpos := Nat.two_pow_pos (k + z)
  rw [Parabix_CC_Compiler.mod_two_pow_succ, hones, hlow.2]
  simp
  omega

end Bounds

theorem half_le_mod_iff {V d : ℕ} (hd : 0 < d) :
    2 ^ (d - 1) ≤ V % 2 ^ d ↔ V.testBit (d - 1) = true := by
  obtain ⟨d, rfl⟩ := Nat.exists_eq_succ_of_ne_zero hd.ne'
  have hlt := Nat.mod_lt V (Nat.two_pow_pos d)
  rw [Nat.succ_eq_add_one, Nat.add_sub_cancel, Parabix_CC_Compiler.mod_two_pow_succ]
  cases V.testBit d <;> simp
  omega

/-- All the numbers that share the bits from the `d`-th on. -/
theorem aligned_iff {V lo hi d : ℕ} (hle : lo ≤ hi) (hd : (lo ^^^ hi).size = d + 1)
    (hlow : ∀ i < d + 1, lo.testBit i = false) (hhigh : ∀ i < d + 1, hi.testBit i = true) :
    V / 2 ^ (d + 1) = lo / 2 ^ (d + 1) ↔ lo ≤ V ∧ V ≤ hi := by
  obtain ⟨hdiv, -⟩ := Parabix_CC_Compiler.split_range hle hd
  have hpos := Nat.two_pow_pos (d + 1)
  have hlo := Nat.div_add_mod lo (2 ^ (d + 1))
  have hhi := Nat.div_add_mod hi (2 ^ (d + 1))
  have hV := Nat.div_add_mod V (2 ^ (d + 1))
  have hlt := Nat.mod_lt V hpos
  rw [mod_eq_zero_of_bits hlow] at hlo
  rw [mod_eq_ones_of_bits hhigh, ← hdiv] at hhi
  constructor
  · intro heq
    rw [heq] at hV
    omega
  · rintro ⟨h1, h2⟩
    have h3 := Nat.div_le_div_right (c := 2 ^ (d + 1)) h1
    have h4 := Nat.div_le_div_right (c := 2 ^ (d + 1)) h2
    omega

section Intervals

variable {lo hi n : ℕ} (hlength : mBasisBit.length = n) (hplain : ∀ b ∈ mBasisBit, plain b)

include h hlength hplain

omit hlength in
/-- The selection between the tests of the two bounds. -/
theorem eval_boundTests {k d : ℕ} (b : Bounds lo hi k d) (hne : lo % 2 ^ d ≠ 0) (hhi : hi < 2 ^ 31) :
    eval (if (2 ^ d - 1) >>> k <<< k >>> k >>> countForwardZeroes (lo >>> k) = 1 then
        pb.createSel (getBasisVar pb.toCCBuilder mBasisBit d)
          (LE_Range pb mBasisBit d (hi % 2 ^ d)) (getBasisVar pb.toCCBuilder mBasisBit (d - 1))
      else if (2 ^ d - 1) >>> k <<< k >>> k >>>
          countForwardZeroes ((2 ^ 32 - (hi + 1)) >>> k) = 1 then
        pb.createSel (getBasisVar pb.toCCBuilder mBasisBit d)
          (pb.createNot (getBasisVar pb.toCCBuilder mBasisBit (d - 1)))
          (GE_Range pb mBasisBit d (lo % 2 ^ d))
      else
        pb.createSel (getBasisVar pb.toCCBuilder mBasisBit d)
          (LE_Range pb mBasisBit d (hi % 2 ^ d)) (GE_Range pb mBasisBit d (lo % 2 ^ d))) p = true ↔
      if (value eval p mBasisBit).testBit d = true then
        value eval p mBasisBit % 2 ^ d ≤ hi % 2 ^ d
      else lo % 2 ^ d ≤ value eval p mBasisBit % 2 ^ d := by
  have hmodlt (x : ℕ) : x % 2 ^ d < 2 ^ d := Nat.mod_lt x (Nat.two_pow_pos d)
  have hbit (i : ℕ) := eval_basisVar (p := p) mBasisBit h i
  have hge := eval_GE_Range (p := p) mBasisBit h (hmodlt lo)
  have hle := eval_LE_Range (p := p) mBasisBit h (hmodlt hi)
  have hhalf := half_le_mod_iff (V := value eval p mBasisBit) (Nat.zero_lt_of_lt b.lt)
  have hplainBit := Parabix_CC_Compiler.plain_getBasisVar h.toLawfulCC hplain
  by_cases hD : (2 ^ d - 1) >>> k <<< k >>> k >>> countForwardZeroes (lo >>> k) = 1
  · rw [if_pos hD, h.sel _ _ _ (hplainBit _), hbit, hbit, hle, b.lo_one hne hD, hhalf]
    cases (value eval p mBasisBit).testBit d <;> simp
  rw [if_neg hD]
  by_cases hE : (2 ^ d - 1) >>> k <<< k >>> k >>>
      countForwardZeroes ((2 ^ 32 - (hi + 1)) >>> k) = 1
  · have hzero := b.hi_zero hhi hE
    rw [if_pos hE, h.sel _ _ _ (plain_GE_Range h hplain _ _), h.not, hbit, hbit, hge]
    cases (value eval p mBasisBit).testBit d with
    | true =>
      simp only [cond_true, if_true, Bool.not_eq_true', ← Bool.not_eq_true, ← hhalf]
      omega
    | false => simp
  · rw [if_neg hE, h.sel _ _ _ (plain_GE_Range h hplain _ _), hbit, hge, hle]
    cases (value eval p mBasisBit).testBit d <;> simp

theorem make_range_spec (hlt : lo < hi) (hhi : hi < 2 ^ n) (hn : n < 32) :
    ∃ e, make_range pb mBasisBit (2 ^ n - 1) lo hi = .ok e ∧ ∀ p, eval e p = true ↔
      lo ≤ value eval p mBasisBit ∧ value eval p mBasisBit ≤ hi := by
  have hlo : lo < 2 ^ n := hlt.trans hhi
  have hhi' : hi < 2 ^ 31 := hhi.trans_le (Nat.pow_le_pow_right (by decide) (by omega))
  have hsize : (lo ^^^ hi).size ≤ n := Nat.size_le.2 (Nat.xor_lt_two_pow hlo hhi)
  have hV (p : ℕ) : value eval p mBasisBit < 2 ^ n := hlength ▸ value_lt
  obtain ⟨d, hd⟩ : ∃ d, (lo ^^^ hi).size = d + 1 := by
    refine Nat.exists_eq_succ_of_ne_zero fun hzero ↦ ?_
    have := Nat.xor_eq_zero_iff.1 (Nat.size_eq_zero.1 hzero)
    omega
  generalize hk : countForwardZeroes (lo ||| (2 ^ 32 - (hi + 1))) = k
  obtain ⟨hlow, hhigh, hkd⟩ := irr_bits_spec hlt.le hhi' hd hk
  have hselected (i : ℕ) (hi : ((2 ^ n - 1) ^^^ (2 ^ (d + 1) - 1)).testBit i = true) :
      k ≤ i ∧ i < mBasisBit.length := by
    rw [Nat.testBit_xor, Nat.testBit_two_pow_sub_one, Nat.testBit_two_pow_sub_one] at hi
    by_cases h1 : i < n <;> by_cases h2 : i < d + 1 <;> simp [h1, h2] at hi <;> omega
  obtain ⟨common, hcommon, heval⟩ :=
    bit_pattern_expr_spec h (lo.ldiff (2 ^ (d + 1) - 1)) k hselected
  simp only [Parabix_CC_Compiler.testBit_common_iff (hV _) hlo (hd ▸ hsize)] at heval
  unfold make_range
  simp only [hk, hd, hcommon, ok_bind, Nat.succ_ne_zero, false_or, Nat.add_sub_cancel]
  obtain rfl | hkd := hkd
  · rw [if_pos rfl]
    exact ⟨common, rfl, fun p ↦ by rw [heval, aligned_iff hlt.le hd hlow hhigh]⟩
  rw [if_neg (by omega)]
  have b : Bounds lo hi k d := ⟨hkd, hlow, hhigh⟩
  have hmask (x : ℕ) : x &&& (2 ^ d - 1) = x % 2 ^ d := Nat.and_two_pow_sub_one_eq_mod x d
  have hmodlt (x : ℕ) : x % 2 ^ d < 2 ^ d := Nat.mod_lt x (Nat.two_pow_pos d)
  have hlo_eq : lo &&& (2 ^ d - 1) >>> k <<< k = lo % 2 ^ d := (and_mask2 lo).trans b.lo_eq.symm
  have hbit (p i : ℕ) := eval_basisVar (p := p) mBasisBit h i
  have hge (p : ℕ) := eval_GE_Range (p := p) mBasisBit h (hmodlt lo)
  have hle (p : ℕ) := eval_LE_Range (p := p) mBasisBit h (hmodlt hi)
  have hones (ha : pb.isOnes common = true) (p : ℕ) :
      value eval p mBasisBit / 2 ^ (d + 1) = lo / 2 ^ (d + 1) := (heval p).1 (h.isOnes _ ha p)
  simp only [hlo_eq, hmask, ← Parabix_CC_Compiler.between_iff hlt.le hd]
  by_cases hA : (hi &&& (2 ^ d - 1) >>> k <<< k) >>> k + 1 = (lo % 2 ^ d) >>> k
  · have hsucc := b.succ_eq (hlo_eq ▸ hA)
    rw [if_pos hA]
    split_ifs with hOnes
    · refine ⟨_, rfl, fun p ↦ ?_⟩
      rw [h.xor, hbit, hge]
      simp only [hones hOnes p, true_and]
      cases (value eval p mBasisBit).testBit d <;> simp
      omega
    · refine ⟨_, rfl, fun p ↦ ?_⟩
      rw [h.andXor, hbit, hge, Bool.and_eq_true, heval]
      refine and_congr_right fun _ ↦ ?_
      cases (value eval p mBasisBit).testBit d <;> simp
      omega
  rw [if_neg hA]
  by_cases hB : (2 ^ d - 1) >>> k <<< k &&& hi = (2 ^ d - 1) >>> k <<< k
  · have hall := b.hi_ones hB
    rw [if_pos hB]
    have hall' (p : ℕ) : value eval p mBasisBit % 2 ^ d ≤ hi % 2 ^ d :=
      Nat.le_of_lt_succ ((hmodlt _).trans_eq hall.symm)
    split_ifs with hOnes
    · refine ⟨_, rfl, fun p ↦ ?_⟩
      rw [h.or, hbit, hge]
      simp only [hones hOnes p, true_and]
      cases (value eval p mBasisBit).testBit d <;> simp [hall']
    · refine ⟨_, rfl, fun p ↦ ?_⟩
      rw [h.andOr, hbit, hge, Bool.and_eq_true, heval]
      refine and_congr_right fun _ ↦ ?_
      cases (value eval p mBasisBit).testBit d <;> simp [hall']
  rw [if_neg hB]
  by_cases hC : (2 ^ d - 1) >>> k <<< k ^^^ ((2 ^ d - 1) >>> k <<< k &&& lo) =
      (2 ^ d - 1) >>> k <<< k
  · have hzero := b.lo_zeroes hC
    rw [if_pos hC]
    split_ifs with hOnes
    · refine ⟨_, rfl, fun p ↦ ?_⟩
      rw [h.or, h.not, hbit, hle]
      simp only [hones hOnes p, true_and]
      cases (value eval p mBasisBit).testBit d <;> simp [hzero]
    · refine ⟨_, rfl, fun p ↦ ?_⟩
      rw [h.andOr, h.not, hbit, hle, Bool.and_eq_true, heval]
      refine and_congr_right fun _ ↦ ?_
      cases (value eval p mBasisBit).testBit d <;> simp [hzero]
  rw [if_neg hC, show d + 1 - 2 = d - 1 by omega]
  have hne : lo % 2 ^ d ≠ 0 := by
    intro hzero
    rw [Nat.and_comm, hlo_eq, hzero, Nat.xor_zero] at hC
    exact hC rfl
  refine ⟨_, rfl, fun p ↦ ?_⟩
  rw [h.and, Bool.and_eq_true, heval, eval_boundTests h hplain b hne hhi']

omit h hlength hplain in
theorem char_or_range_expr_eq (hlt : lo < hi) (mask : ℕ) :
    char_or_range_expr pb mBasisBit mask lo hi = make_range pb mBasisBit mask lo hi := by
  rw [char_or_range_expr, if_neg hlt.ne, if_pos hlt]

end Intervals

section Octets

variable {V : ℕ} {octets : List octet_pair_t}

/-- The number is in one of the octets. -/
def InOctets (octets : List octet_pair_t) (V : ℕ) : Prop :=
  ∃ o ∈ octets, V / 8 * 8 = o.1 ∧ o.2.getLsbD (V % 8) = true

theorem inOctets_append {octets' : List octet_pair_t} :
    InOctets (octets ++ octets') V ↔ InOctets octets V ∨ InOctets octets' V := by
  simp only [InOctets, List.mem_append, or_and_right, exists_or]

theorem inOctets_singleton {o : octet_pair_t} :
    InOctets [o] V ↔ V / 8 * 8 = o.1 ∧ o.2.getLsbD (V % 8) = true := by
  simp [InOctets]

theorem pushOctet_spec (octet : ℕ) (mask : BitVec 8) :
    InOctets (pushOctet octets octet mask) V ↔
      InOctets octets V ∨ V / 8 * 8 = octet ∧ mask.getLsbD (V % 8) = true := by
  unfold pushOctet
  cases hlast : octets.getLast? with
  | none =>
    rw [List.getLast?_eq_none_iff.1 hlast, inOctets_singleton]
    simp [InOctets]
  | some lst_selected =>
    obtain ⟨front, rfl⟩ := List.getLast?_eq_some_iff.1 hlast
    simp only [List.dropLast_concat]
    split_ifs with heq
    · rw [inOctets_append, inOctets_append, inOctets_singleton, inOctets_singleton, heq,
        BitVec.getLsbD_or, Bool.or_eq_true]
      tauto
    · rw [inOctets_append, inOctets_singleton]

theorem mem_pushOctet {octet : ℕ} {mask : BitVec 8} {o : octet_pair_t}
    (ho : o ∈ pushOctet octets octet mask) : o ∈ octets ∨ o.1 = octet := by
  unfold pushOctet at ho
  cases hlast : octets.getLast? with
  | none =>
    rw [hlast] at ho
    exact .inr (by rw [List.mem_singleton.1 ho])
  | some lst_selected =>
    rw [hlast] at ho
    simp only at ho
    split_ifs at ho
    all_goals
      rcases List.mem_append.1 ho with ho | ho
    · exact .inl (List.mem_of_mem_dropLast ho)
    · exact .inr (by rw [List.mem_singleton.1 ho])
    · exact .inl ho
    · exact .inr (by rw [List.mem_singleton.1 ho])

theorem getLsbD_octetMask : ∀ lo < 8, ∀ hi < 8, ∀ b < 8,
    (octetMask lo hi).getLsbD b = decide (lo ≤ b ∧ b ≤ hi) := by decide

set_option maxRecDepth 2000 in
theorem and_octet : ∀ cp < 256, cp &&& 0xFFFFFFF8 = cp / 8 * 8 := by decide

/-- The parts of a class: octets of bytes, and intervals that do not lie in one octet. -/
structure IsUnion (u : List octet_pair_t × List (ℕ × ℕ)) : Prop where
  octets : ∀ o ∈ u.1, o.1 < 256 ∧ o.1 % 8 = 0
  intervals : ∀ i ∈ u.2, i.1 < i.2 ∧ i.2 < 256

/-- The number is in one of the parts. -/
def InUnion (u : List octet_pair_t × List (ℕ × ℕ)) (V : ℕ) : Prop :=
  InOctets u.1 V ∨ ∃ i ∈ u.2, i.1 ≤ V ∧ V ≤ i.2

theorem addInterval_spec {u : List octet_pair_t × List (ℕ × ℕ)} {i : ℕ × ℕ} (hu : IsUnion u)
    (hle : i.1 ≤ i.2) (hlt : i.2 < 256) : IsUnion (addInterval u i) ∧
      ∀ V, InUnion (addInterval u i) V ↔ InUnion u V ∨ i.1 ≤ V ∧ V ≤ i.2 := by
  unfold addInterval
  simp only [and_octet i.1 (by omega), and_octet i.2 hlt]
  split_ifs with heq
  · refine ⟨⟨hu.octets, fun j hj ↦ ?_⟩, fun V ↦ ?_⟩
    · obtain hj | hj := List.mem_append.1 hj
      · exact hu.intervals j hj
      · rw [List.mem_singleton.1 hj]
        exact ⟨Nat.lt_of_le_of_ne hle fun he ↦ heq (by rw [he]), hlt⟩
    · simp only [InUnion, List.mem_append, List.mem_singleton, or_and_right, exists_or,
        exists_eq_left, or_assoc]
  · -- The whole interval lies in one octet.
    simp only [not_not] at heq
    refine ⟨⟨fun o ho ↦ ?_, hu.intervals⟩, fun V ↦ ?_⟩
    · obtain ho | ho := mem_pushOctet ho
      · exact hu.octets o ho
      · omega
    · have hmask := getLsbD_octetMask (i.1 - i.1 / 8 * 8) (by omega) (i.2 - i.1 / 8 * 8) (by omega)
        (V % 8) (Nat.mod_lt V (by decide))
      have hiff : V / 8 * 8 = i.1 / 8 * 8 ∧
          (i.1 - i.1 / 8 * 8 ≤ V % 8 ∧ V % 8 ≤ i.2 - i.1 / 8 * 8) ↔ i.1 ≤ V ∧ V ≤ i.2 := by omega
      simp only [InUnion]
      rw [pushOctet_spec, hmask, decide_eq_true_iff, hiff]
      exact or_right_comm

theorem make_octets_intervals_union_spec {is : List (ℕ × ℕ)}
    (his : ∀ i ∈ is, i.1 ≤ i.2 ∧ i.2 < 256) : IsUnion (make_octets_intervals_union is) ∧
      ∀ V, InUnion (make_octets_intervals_union is) V ↔ ∃ i ∈ is, i.1 ≤ V ∧ V ≤ i.2 := by
  have hfold (u : List octet_pair_t × List (ℕ × ℕ)) (hu : IsUnion u) :
      IsUnion (is.foldl addInterval u) ∧ ∀ V, InUnion (is.foldl addInterval u) V ↔
        InUnion u V ∨ ∃ i ∈ is, i.1 ≤ V ∧ V ≤ i.2 := by
    induction is generalizing u with
    | nil => exact ⟨hu, by simp⟩
    | cons i is ih =>
      have hi := his i List.mem_cons_self
      obtain ⟨hu', hin⟩ := addInterval_spec hu hi.1 hi.2
      obtain ⟨hu'', hin'⟩ := ih (fun j hj ↦ his j (List.mem_cons_of_mem _ hj)) _ hu'
      refine ⟨hu'', fun V ↦ ?_⟩
      rw [List.foldl_cons, hin', hin, List.exists_mem_cons_iff, or_assoc]
  obtain ⟨hu, hin⟩ := hfold ([], []) ⟨by simp, by simp⟩
  refine ⟨hu, fun V ↦ ?_⟩
  rw [make_octets_intervals_union, hin]
  simp [InUnion, InOctets]

end Octets

section OctetTests

/-- A truth table with one row selects that row. -/
theorem ternary_row : ∀ k < 8, ∀ a b c : Bool, ternary ((1 <<< k : ℕ) : BitVec 8) a b c =
    decide (4 * a.toNat + 2 * b.toNat + c.toNat = k) := by decide

theorem ternary_row_and : ∀ k < 4, ∀ a b c : Bool,
    ternary (((1 <<< k : ℕ) : BitVec 8) <<< 4) a b c =
    (a && decide (2 * b.toNat + c.toNat = k)) := by decide

theorem ternary_lookup (mask : BitVec 8) (a b c : Bool) :
    ternary mask a b c = mask.getLsbD (4 * a.toNat + 2 * b.toNat + c.toNat) := rfl

set_option maxRecDepth 4000 in
theorem octet_rows : ∀ o < 32, (8 * o &&& 0x38) >>> 3 = o % 8 ∧ (8 * o &&& 0xC0) >>> 6 = o / 8 := by
  decide

theorem bits_of_byte (V : ℕ) :
    4 * (V.testBit 2).toNat + 2 * (V.testBit 1).toNat + (V.testBit 0).toNat = V % 8 ∧
    4 * (V.testBit 5).toNat + 2 * (V.testBit 4).toNat + (V.testBit 3).toNat = V / 8 % 8 ∧
    2 * (V.testBit 7).toNat + (V.testBit 6).toNat = V / 64 % 4 := by
  simp only [Nat.toNat_testBit]
  omega

include h

theorem eval_octetHi5 {octet : ℕ} (hlt : octet < 256) (hmod : octet % 8 = 0)
    (hV : value eval p mBasisBit < 256) : eval (octetHi5 pb mBasisBit octet) p =
      decide (value eval p mBasisBit / 8 * 8 = octet) := by
  have hbit (i : ℕ) := eval_basisVar (p := p) mBasisBit h i
  obtain ⟨o, rfl⟩ : ∃ o, octet = 8 * o := ⟨octet / 8, by omega⟩
  obtain ⟨hmid, hhi⟩ := octet_rows o (by omega)
  obtain ⟨-, hmid', hhi'⟩ := bits_of_byte (value eval p mBasisBit)
  simp only [octetHi5, h.ternary, hbit, hmid, hhi]
  rw [ternary_row_and _ (by omega), ternary_row _ (by omega), hmid', hhi', ← Bool.decide_and]
  exact decide_eq_decide.2 (by omega)

/-- One octet more is tested. -/
theorem any_addOctet {octet : octet_pair_t} (hlt : octet.1 < 256) (hmod : octet.1 % 8 = 0)
    (hV : value eval p mBasisBit < 256) (terms : List α) :
    (addOctet pb mBasisBit terms octet).any (fun a ↦ eval a p) = true ↔
      terms.any (fun a ↦ eval a p) = true ∨ value eval p mBasisBit / 8 * 8 = octet.1 ∧
        octet.2.getLsbD (value eval p mBasisBit % 8) = true := by
  have hbit (i : ℕ) := eval_basisVar (p := p) mBasisBit h i
  have hhi := eval_octetHi5 h hlt hmod hV
  simp only [addOctet]
  split_ifs with hmask
  · rw [List.any_append, List.any_cons, List.any_nil, Bool.or_false, h.and, hhi, h.ternary, hbit,
      hbit, hbit, ternary_lookup, (bits_of_byte _).1, Bool.or_eq_true, Bool.and_eq_true,
      decide_eq_true_iff]
  · have hall : octet.2.getLsbD (value eval p mBasisBit % 8) = true := by
      rw [not_not.1 hmask]
      exact (show ∀ b < 8, BitVec.getLsbD (0xFF : BitVec 8) b = true by decide) _
        (Nat.mod_lt _ (by decide))
    cases hlast : terms.getLast? with
    | none =>
      rw [List.getLast?_eq_none_iff.1 hlast]
      simp [hhi, hall]
    | some back =>
      obtain ⟨front, rfl⟩ := List.getLast?_eq_some_iff.1 hlast
      simp only [List.dropLast_concat, List.any_append, List.any_cons, List.any_nil, Bool.or_false,
        h.or, hhi, hall, Bool.or_eq_true, decide_eq_true_iff, and_true, or_assoc]

theorem make_octets_expr_spec {octets : List octet_pair_t}
    (hoctets : ∀ o ∈ octets, o.1 < 256 ∧ o.1 % 8 = 0) (hV : ∀ p, value eval p mBasisBit < 256) :
    ∃ e, make_octets_expr pb mBasisBit octets = .ok e ∧
      ∀ p, eval e p = true ↔ InOctets octets (value eval p mBasisBit) := by
  have hfold (p : ℕ) (terms : List α) :
      (octets.foldl (addOctet pb mBasisBit) terms).any (fun a ↦ eval a p) = true ↔
        terms.any (fun a ↦ eval a p) = true ∨ InOctets octets (value eval p mBasisBit) := by
    induction octets generalizing terms with
    | nil => simp [InOctets]
    | cons o octets ih =>
      have ho := hoctets o List.mem_cons_self
      rw [List.foldl_cons, ih (fun o' ho' ↦ hoctets o' (List.mem_cons_of_mem _ ho')),
        any_addOctet h ho.1 ho.2 (hV p), InOctets, InOctets, List.exists_mem_cons_iff, or_assoc]
  obtain ⟨e, he, heval⟩ := joinTerms_or h (octets.foldl (addOctet pb mBasisBit) [])
  refine ⟨e, he, fun p ↦ ?_⟩
  rw [heval, hfold]
  simp

end OctetTests

section Charset

variable (hlength : mBasisBit.length = 8) (hplain : ∀ b ∈ mBasisBit, plain b)

include h hlength hplain

/-- What the compiler makes of a class of bytes whose intervals are these. -/
theorem charset_expr_spec {cc : CC} {is : List (ℕ × ℕ)} (hempty : cc.set.empty = false)
    (hintervals : cc.set.intervals = .ok is) (his : ∀ i ∈ is, i.1 ≤ i.2 ∧ i.2 < 256) :
    ∃ e, charset_expr pb mBasisBit cc = .ok e ∧ ∀ p, eval e p = true ↔
      inFile p = true ∧
        ∃ i ∈ is, i.1 ≤ value eval p mBasisBit ∧ value eval p mBasisBit ≤ i.2 := by
  have hV (p : ℕ) : value eval p mBasisBit < 256 := by
    have hvalue : value eval p mBasisBit < 2 ^ mBasisBit.length := value_lt
    rwa [hlength] at hvalue
  have hmask : mEncodingMask mBasisBit = .ok (2 ^ 8 - 1) := by
    rw [mEncodingMask, hlength, if_pos (by decide)]
  obtain ⟨hu, hin⟩ := make_octets_intervals_union_spec his
  obtain ⟨e1, he1, heval1⟩ := make_octets_expr_spec h hu.octets hV
  obtain ⟨e2, he2, hnone, hmem⟩ := Parabix_CC_Compiler.intervalsLoop_spec h.toLawfulCC
    (fun i hi ↦ char_or_range_expr_eq (hu.intervals i hi).1 _ ▸
      make_range_spec h hlength hplain (hu.intervals i hi).1 (hu.intervals i hi).2 (by decide)) none
  have hintervals2 : make_intervals_expr pb mBasisBit (2 ^ 8 - 1)
      (make_octets_intervals_union is).2 = .ok (e2.getD pb.createZeroes) := by
    rw [make_intervals_expr, he2, ok_bind, pure_eq_ok]
  simp only [charset_expr, hmask, ok_bind, hempty, Bool.false_eq_true, if_false, hintervals, he1,
    hintervals2, pure_eq_ok]
  refine ⟨_, rfl, fun p ↦ ?_⟩
  have hrest : eval (e2.getD pb.createZeroes) p = true ↔
      ∃ i ∈ (make_octets_intervals_union is).2,
        i.1 ≤ value eval p mBasisBit ∧ value eval p mBasisBit ≤ i.2 := by
    cases e2 with
    | none => simp [h.zeroes, (hnone.1 rfl).2]
    | some e2 => simpa using hmem e2 rfl p
  rw [h.inFile, h.or, Bool.and_eq_true, Bool.or_eq_true, heval1, hrest, ← hin, InUnion, and_comm]

end Charset

end Parabix_Ternary_CC_Compiler

section Agree

open Parabix_CC_Compiler (Spaced)

variable {α ι : Type} {pb : TernaryBuilder α} {mBasisBit : BixNum α} {eval : ι → α → Stream}
  {inFile : ι → Stream} {plain : α → Prop} {cc : CC}

/-- Both compilers return expressions of the same value under each assignment, and the option
chooses between the two. -/
def CompilersAgree (pb : TernaryBuilder α) (mBasisBit : BixNum α) (eval : ι → α → Stream)
    (cc : CC) : Prop :=
  ∃ e1 e2, Parabix_CC_Compiler.compileCC pb.toCCBuilder mBasisBit cc = .ok e1 ∧
    Parabix_Ternary_CC_Compiler.compileCC pb mBasisBit cc = .ok e2 ∧
    (∀ option, Parabix_CC_Compiler_Builder.compileCC option pb mBasisBit cc = .ok e1 ∨
      Parabix_CC_Compiler_Builder.compileCC option pb mBasisBit cc = .ok e2) ∧
    ∀ a p, eval a e1 p = eval a e2 p

theorem compilersAgree_iff {e1 e2 : α}
    (h1 : Parabix_CC_Compiler.compileCC pb.toCCBuilder mBasisBit cc = .ok e1)
    (h2 : Parabix_Ternary_CC_Compiler.compileCC pb mBasisBit cc = .ok e2) :
    CompilersAgree pb mBasisBit eval cc ↔ ∀ a p, eval a e1 p = eval a e2 p := by
  constructor
  · rintro ⟨e1', e2', h1', h2', -, heval⟩
    obtain rfl := Except.ok.inj (h1.symm.trans h1')
    obtain rfl := Except.ok.inj (h2.symm.trans h2')
    exact heval
  · intro heval
    refine ⟨e1, e2, h1, h2, fun option ↦ ?_, heval⟩
    unfold Parabix_CC_Compiler_Builder.compileCC
    split_ifs
    · exact .inl h1
    · exact .inr h2

section Exact

variable [Inhabited ι] (h : ∀ a, pb.Lawful (eval a) (inFile a) plain)
  (hlength : mBasisBit.length = 8) (hplain : ∀ b ∈ mBasisBit, plain b)
  (hcc : cc.set.WellFormed) (hlt : ∀ x ∈ cc.set.members, x < 256)

include h hlength hplain hcc hlt

theorem compilersAgree_of_nonempty (hnonempty : cc.set.members.Nonempty) :
    CompilersAgree pb mBasisBit eval cc ↔ ∀ a p, inFile a p = false →
      value (eval a) p mBasisBit ∈ cc.set.members → ¬Spaced cc.set.members := by
  have hempty : cc.set.empty = false := by
    cases he : cc.set.empty with
    | true => exact absurd (members_of_empty hcc he) hnonempty.ne_empty
    | false => rfl
  obtain ⟨is, his, hintervals⟩ := UnicodeSet.intervals_spec hcc.verified
  have hmem := UnicodeSet.mem_intervals_iff hcc.verified hintervals
  have hbound : ∀ i ∈ is, i.1 ≤ i.2 ∧ i.2 < 2 ^ 8 := by
    intro i hi
    have hle := (hintervals.bounds i hi).2.1
    exact ⟨hle, hlt _ ((hmem _).1 ⟨i, hi, hle, le_rfl⟩)⟩
  have hne : is ≠ [] := by
    rintro rfl
    obtain ⟨x, hx⟩ := hnonempty
    simpa using (hmem x).2 hx
  have hbinary (a : ι) := Parabix_CC_Compiler.charset_expr_spec (h a).toLawfulCC hlength hplain
    (by decide) (by decide) hempty his hbound hne
  have hternary (a : ι) :=
    Parabix_Ternary_CC_Compiler.charset_expr_spec (h a) hlength hplain hempty his hbound
  simp only [hmem] at hbinary hternary
  obtain ⟨e1, h1, -⟩ := hbinary default
  obtain ⟨e2, h2, -⟩ := hternary default
  rw [compilersAgree_iff h1 h2, ← Parabix_CC_Compiler.combine_iff hcc.verified hintervals]
  refine forall_congr' fun a ↦ forall_congr' fun p ↦ ?_
  obtain ⟨_, h1', heval1⟩ := hbinary a
  obtain rfl := Except.ok.inj (h1.symm.trans h1')
  obtain ⟨_, h2', heval2⟩ := hternary a
  obtain rfl := Except.ok.inj (h2.symm.trans h2')
  rw [Bool.eq_iff_iff, heval1, heval2, ← Bool.not_eq_true]
  tauto

/-- The compilers agree on a class of bytes, but for numbers two apart: these the binary compiler
also marks past the end of the file. -/
theorem compilers_agree_exact :
    CompilersAgree pb mBasisBit eval cc ↔ (cc.set.members = ∅ → cc.set.empty = true) ∧
      ∀ a p, inFile a p = false → value (eval a) p mBasisBit ∈ cc.set.members →
        ¬Spaced cc.set.members := by
  obtain hnone | hnonempty := cc.set.members.eq_empty_or_nonempty
  · simp only [hnone, Set.mem_empty_iff_false, false_implies, implies_true, and_true, true_implies]
    have hmask : Parabix_CC_Compiler.mEncodingMask mBasisBit = .ok (2 ^ 8 - 1) := by
      rw [Parabix_CC_Compiler.mEncodingMask, hlength, if_pos (by decide)]
    constructor
    · rintro ⟨e1, e2, he1, -⟩
      by_contra hempty
      -- The binary compiler has no expression to start from.
      obtain ⟨is, his, hintervals⟩ := UnicodeSet.intervals_spec hcc.verified
      have hnil : is = [] := by
        refine List.eq_nil_iff_forall_not_mem.2 fun i hi ↦ ?_
        have hmem := (UnicodeSet.mem_intervals_iff hcc.verified hintervals i.1).1
          ⟨i, hi, le_rfl, (hintervals.bounds i hi).2.1⟩
        simp [hnone] at hmem
      simp [Parabix_CC_Compiler.compileCC, Parabix_CC_Compiler.charset_expr, hmask, hempty, his,
        hnil] at he1
    · intro hempty
      have h1 : Parabix_CC_Compiler.compileCC pb.toCCBuilder mBasisBit cc =
          .ok pb.createZeroes := by
        rw [Parabix_CC_Compiler.compileCC, Parabix_CC_Compiler.charset_expr, hmask, ok_bind,
          hempty, if_pos rfl, pure_eq_ok]
      have h2 : Parabix_Ternary_CC_Compiler.compileCC pb mBasisBit cc = .ok pb.createZeroes := by
        rw [Parabix_Ternary_CC_Compiler.compileCC, Parabix_Ternary_CC_Compiler.charset_expr, hmask,
          ok_bind, hempty, if_pos rfl, pure_eq_ok]
      exact (compilersAgree_iff h1 h2).2 fun _ _ ↦ rfl
  · rw [compilersAgree_of_nonempty h hlength hplain hcc hlt hnonempty]
    simp only [hnonempty.ne_empty, false_implies, true_and]

end Exact

/-- Expressions that are functions of the text. -/
def TernaryBuilder.texts : TernaryBuilder (List ℕ → Stream) where
  toCCBuilder := CodeUnitBuilder.texts.toCCBuilder
  createTernary mask a b c text p := Pablo.ternary mask (a text p) (b text p) (c text p)
  createAndXor a b c text p := a text p && (b text p ^^ c text p)
  createAndOr a b c text p := a text p && (b text p || c text p)
  createOrAnd a b c text p := a text p || b text p && c text p
  isOnes _ := false
  castAnd _ := none
  castOr _ := none

theorem TernaryBuilder.texts_lawful (text : List ℕ) : TernaryBuilder.texts.Lawful
    (fun a ↦ a text) (fun p ↦ decide (p < text.length)) fun _ ↦ True where
  toLawfulCC := ((CodeUnitBuilder.texts_onTexts 8).lawful text).toLawfulCC
  xor _ _ _ := rfl
  ternary _ _ _ _ _ := rfl
  andXor _ _ _ _ := rfl
  andOr _ _ _ _ := rfl
  orAnd _ _ _ _ := rfl
  isOnes _ h := by cases h
  castAnd _ _ h := by cases h
  castOr _ _ h := by cases h
  plain_andOr _ _ _ _ _ _ := trivial
  plain_orAnd _ _ _ _ _ _ := trivial
  plain_castAnd _ _ _ _ := ⟨trivial, trivial⟩
  plain_castOr _ _ _ _ := ⟨trivial, trivial⟩

theorem compilers_agree_exact_letter :
    CompilersAgree TernaryBuilder.texts (textBasis 8) (fun text a ↦ a text) letterA ↔
      (letterA.set.members = ∅ → letterA.set.empty = true) ∧
        ∀ text p, decide (p < text.length) = false →
          value (fun a ↦ a text) p (textBasis 8) ∈ letterA.set.members →
            ¬Spaced letterA.set.members := by
  refine compilers_agree_exact TernaryBuilder.texts_lawful (by simp [textBasis])
    (fun _ _ ↦ trivial) (singleton_wellFormed _ (by decide)) ?_
  rw [letterA, members_singleton (by decide)]
  rintro x rfl
  decide

/-- On the class of 0, 2 and 4 the compilers differ at the end of the empty text. -/
theorem compilers_differ_on_evens : (∀ x ∈ zeroTwoFour.set.members, x < 256) ∧
    ¬CompilersAgree TernaryBuilder.texts (textBasis 8) (fun text a ↦ a text) zeroTwoFour := by
  have hlt : ∀ x ∈ zeroTwoFour.set.members, x < 256 := by
    intro x hx
    rw [members_zeroTwoFour] at hx
    exact hx.2.trans_lt (by decide)
  have hzero : 0 ∈ zeroTwoFour.set.members := members_zeroTwoFour ▸ ⟨rfl, Nat.zero_le _⟩
  refine ⟨hlt, fun hagree ↦ ?_⟩
  refine (compilersAgree_of_nonempty TernaryBuilder.texts_lawful (by simp [textBasis])
    (fun _ _ ↦ trivial) zeroTwoFour_wellFormed hlt ⟨0, hzero⟩).1 hagree [] 0 rfl ?_
    ⟨0, 2, le_rfl, ?_⟩
  · rwa [(CodeUnitBuilder.texts_onTexts 8).basis [] (List.forall_mem_nil _)]
  · rw [members_zeroTwoFour]
    ext x
    simp only [Set.mem_ofPred_eq]
    omega

end Agree

end Parabix.RE
