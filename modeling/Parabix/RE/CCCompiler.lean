import Mathlib.Data.Nat.Bitwise
import Mathlib.Data.Nat.Size
import Mathlib.Tactic.Ring
import Parabix.Pablo.BixNumExact
import Parabix.RE.CC

namespace Parabix.RE

open Library Library.BitStream UCD Pablo

/-- The constructors that the class compiler uses beside those of the numbers. -/
structure CCBuilder (α : Type) extends PabloBuilder α where
  createAnd3 : α → α → α → α
  createOr3 : α → α → α → α
  createInFile : α → α

namespace Parabix_CC_Compiler

variable {α : Type} (pb : CCBuilder α) (mBasisBit : BixNum α)

/-- `(1u << mEncodingBits) - 1`. -/
def mEncodingMask : Except Fault ℕ :=
  if mBasisBit.length < 32 then .ok (2 ^ mBasisBit.length - 1) else .error .poison

def getBasisVar (i : ℕ) : α := mBasisBit.getD i pb.createZeroes

section Pattern

/-- The terms of the bits from 0 up to the highest one selected. -/
def patternTerms (pattern selected_bits : ℕ) : List α :=
  (List.range selected_bits.size).map fun i ↦
    if selected_bits.testBit i then
      if pattern.testBit i then getBasisVar pb mBasisBit i
      else pb.createNot (getBasisVar pb mBasisBit i)
    else
      pb.createOnes

/-- One round of the reduction. -/
def joinPairs : List α → List α
  | a :: b :: terms => pb.createAnd a b :: joinPairs terms
  | terms => terms

def joinTerms : ℕ → List α → Except Fault α
  | 0, _ => .error .fuel
  | _ + 1, [] => .error .memory
  | _ + 1, [term] => .ok term
  | fuel + 1, terms => joinTerms fuel (joinPairs pb terms)

def bit_pattern_expr (pattern selected_bits : ℕ) : Except Fault α :=
  if selected_bits = 0 then
    .ok pb.createOnes
  else
    let terms := patternTerms pb mBasisBit pattern selected_bits
    joinTerms pb terms.length terms

end Pattern

section Ranges

/-- The comparison decided by the bit below `N + 1`, or by the lower bits. -/
def geBit (N n : ℕ) (lo_range : ℕ → α) : α :=
  let hi_bit := n &&& 2 ^ N
  let lo_bits := n - hi_bit
  if hi_bit = 0 then
    pb.createOr (getBasisVar pb mBasisBit N) (lo_range lo_bits)
  else
    pb.createAnd (getBasisVar pb mBasisBit N) (lo_range lo_bits)

def GE_Range : ℕ → ℕ → α
  | 0, _ => pb.createOnes
  | 1, n => geBit pb mBasisBit 0 n (GE_Range 0)
  | N + 2, n =>
    if (N + 2) % 2 = 0 ∧ n >>> N = 0 then
      pb.createOr3 (getBasisVar pb mBasisBit (N + 1)) (getBasisVar pb mBasisBit N) (GE_Range N n)
    else if (N + 2) % 2 = 0 ∧ n >>> N = 3 then
      pb.createAnd3 (getBasisVar pb mBasisBit (N + 1)) (getBasisVar pb mBasisBit N)
        (GE_Range N (n - 3 <<< N))
    else
      geBit pb mBasisBit (N + 1) n (GE_Range (N + 1))

/-- If an N-bit pattern is all ones, then any n-bit value is LE this pattern. -/
def LE_Range (N n : ℕ) : α :=
  if n + 1 = 2 ^ N then pb.createOnes else pb.createNot (GE_Range pb mBasisBit N (n + 1))

variable (mask : ℕ)

def make_range (n1 n2 : ℕ) : Except Fault α :=
  let diff_count := (n1 ^^^ n2).size
  if n2 < n1 ∨ mBasisBit.length < diff_count then
    .error (.fatal s!"Bad Range: [{n1},{n2}] for {mBasisBit.length}-bit encoding")
  else do
    let mask0 := 2 ^ diff_count - 1
    let common ← bit_pattern_expr pb mBasisBit (n1.ldiff mask0) (mask ^^^ mask0)
    if diff_count = 0 then
      return common
    else
      let mask1 := 2 ^ (diff_count - 1) - 1
      let lo_test := GE_Range pb mBasisBit (diff_count - 1) (n1 &&& mask1)
      let hi_test := LE_Range pb mBasisBit (diff_count - 1) (n2 &&& mask1)
      return pb.createAnd common
        (pb.createSel (getBasisVar pb mBasisBit (diff_count - 1)) hi_test lo_test)

def char_or_range_expr (lo hi : ℕ) : Except Fault α :=
  if lo = hi then
    bit_pattern_expr pb mBasisBit lo mask
  else if lo < hi then
    make_range pb mBasisBit mask lo hi
  else
    .error (.fatal s!"Invalid Character Set Range: [{lo},{hi}]")

/-- The disjunction of the tests of the intervals. -/
def intervalsLoop (char_or_range_expr : ℕ → ℕ → Except Fault α) :
    Option α → List (ℕ × ℕ) → Except Fault (Option α)
  | expr, [] => .ok expr
  | expr, (lo, hi) :: is => do
    let temp ← char_or_range_expr lo hi
    intervalsLoop char_or_range_expr (some (expr.elim temp fun expr ↦ pb.createOr expr temp)) is

/-- More than two isolated code points, each two above the one before. -/
def combine (is : List (ℕ × ℕ)) : Prop :=
  2 < is.length ∧ (∀ i ∈ is, i.1 = i.2) ∧ is.IsChain fun i j ↦ i.1 + 2 = j.1

instance (is : List (ℕ × ℕ)) : Decidable (combine is) :=
  inferInstanceAs (Decidable (_ ∧ _ ∧ _))

end Ranges

def charset_expr (cc : CC) : Except Fault α := do
  let mask ← mEncodingMask mBasisBit
  if cc.set.empty then
    return pb.createZeroes
  else
    let is ← cc.set.intervals
    match is.head?, is.getLast? with
    | some first, some last =>
      if combine is then
        let lo := first.1
        let even_odd := getBasisVar pb mBasisBit 0
        let even_odd := if lo % 2 = 0 then pb.createNot even_odd else even_odd
        let expr ← make_range pb mBasisBit mask (lo &&& (mask - 1))
          (last.1 ||| (mask ^^^ (mask - 1)))
        return pb.createAnd expr even_odd
      else
        match ← intervalsLoop pb (char_or_range_expr pb mBasisBit mask) none is with
        | some expr => return pb.createInFile expr
        | none => .error .memory
    | _, _ => .error .memory

/-- The name of the stream has no part in its value. -/
def compileCC (cc : CC) : Except Fault α := charset_expr pb mBasisBit cc

end Parabix_CC_Compiler

/-- The constructors make expressions with the values of the operations. A selection between an
expression and its own negation may be built wrongly, so a selection is relied on only where its
last operand is plain: made of plain expressions without a negation. -/
structure CCBuilder.Lawful {α : Type} (pb : CCBuilder α) (eval : α → Stream) (inFile : Stream)
    (plain : α → Prop) : Prop where
  zeroes (p : ℕ) : eval pb.createZeroes p = false
  ones (p : ℕ) : eval pb.createOnes p = true
  not (a : α) (p : ℕ) : eval (pb.createNot a) p = !eval a p
  and (a b : α) (p : ℕ) : eval (pb.createAnd a b) p = (eval a p && eval b p)
  or (a b : α) (p : ℕ) : eval (pb.createOr a b) p = (eval a p || eval b p)
  sel (a b c : α) (hc : plain c) (p : ℕ) :
    eval (pb.createSel a b c) p = bif eval a p then eval b p else eval c p
  and3 (a b c : α) (p : ℕ) : eval (pb.createAnd3 a b c) p = (eval a p && eval b p && eval c p)
  or3 (a b c : α) (p : ℕ) : eval (pb.createOr3 a b c) p = (eval a p || eval b p || eval c p)
  inFile (a : α) (p : ℕ) : eval (pb.createInFile a) p = (eval a p && inFile p)
  plain_zeroes : plain pb.createZeroes
  plain_ones : plain pb.createOnes
  plain_and (a b : α) (ha : plain a) (hb : plain b) : plain (pb.createAnd a b)
  plain_or (a b : α) (ha : plain a) (hb : plain b) : plain (pb.createOr a b)
  plain_and3 (a b c : α) (ha : plain a) (hb : plain b) (hc : plain c) :
    plain (pb.createAnd3 a b c)
  plain_or3 (a b c : α) (ha : plain a) (hb : plain b) (hc : plain c) : plain (pb.createOr3 a b c)

namespace Parabix_CC_Compiler

variable {α : Type} {pb : CCBuilder α} {mBasisBit : BixNum α} {eval : α → Stream}
  {inFile : Stream} {plain : α → Prop} {p : ℕ} (h : pb.Lawful eval inFile plain)

include h

theorem eval_getBasisVar (i : ℕ) :
    eval (getBasisVar pb mBasisBit i) p = (value eval p mBasisBit).testBit i := by
  rw [value, testBit_ofDigits, getBasisVar, List.getD_eq_getElem?_getD,
    List.getD_eq_getElem?_getD, List.getElem?_map]
  cases mBasisBit[i]? with
  | none => exact h.zeroes p
  | some b => rfl

section Pattern

omit h in
theorem length_joinPairs (terms : List α) :
    (joinPairs pb terms).length = (terms.length + 1) / 2 := by
  fun_induction joinPairs pb terms with
  | case1 a b terms ih =>
    simp only [List.length_cons, ih]
    omega
  | case2 terms hne =>
    rcases terms with _ | ⟨a, _ | ⟨b, rest⟩⟩
    · simp
    · simp
    · exact absurd rfl (hne a b rest)

theorem all_joinPairs (terms : List α) :
    (joinPairs pb terms).all (fun a ↦ eval a p) = terms.all fun a ↦ eval a p := by
  fun_induction joinPairs pb terms with
  | case1 a b terms ih => simp only [List.all_cons, ih, h.and, Bool.and_assoc]
  | case2 => rfl

theorem joinTerms_spec {fuel : ℕ} {terms : List α} (hne : terms ≠ [])
    (hfuel : terms.length ≤ fuel) :
    ∃ e, joinTerms pb fuel terms = .ok e ∧ ∀ p, eval e p = terms.all fun a ↦ eval a p := by
  induction fuel generalizing terms with
  | zero => exact absurd (List.length_eq_zero_iff.1 (by omega)) hne
  | succ fuel ih =>
    rcases terms with _ | ⟨a, _ | ⟨b, terms⟩⟩
    · exact absurd rfl hne
    · exact ⟨a, rfl, fun p ↦ by simp⟩
    · have hlen := @length_joinPairs _ pb (a :: b :: terms)
      simp only [List.length_cons] at hlen hfuel
      obtain ⟨e, he, heval⟩ := @ih (joinPairs pb (a :: b :: terms))
        (List.ne_nil_of_length_pos (by omega)) (by omega)
      exact ⟨e, he, fun p ↦ (heval p).trans (all_joinPairs h _)⟩

theorem all_patternTerms (pattern selected_bits : ℕ) :
    (patternTerms pb mBasisBit pattern selected_bits).all (fun a ↦ eval a p) = true ↔
      ∀ i, selected_bits.testBit i = true →
        (value eval p mBasisBit).testBit i = pattern.testBit i := by
  simp only [patternTerms, List.all_map, List.all_eq_true, List.mem_range, Function.comp_apply]
  refine forall_congr' fun i ↦ ?_
  by_cases hs : selected_bits.testBit i = true
  · have hlt : i < selected_bits.size := Nat.lt_size.2 (Nat.ge_two_pow_of_testBit hs)
    simp only [hs, if_true, hlt, forall_const]
    cases hp : pattern.testBit i <;> simp [h.not, eval_getBasisVar h]
  · simp [hs, h.ones]

theorem bit_pattern_expr_spec (pattern selected_bits : ℕ) :
    ∃ e, bit_pattern_expr pb mBasisBit pattern selected_bits = .ok e ∧
      ∀ p, eval e p = true ↔ ∀ i, selected_bits.testBit i = true →
        (value eval p mBasisBit).testBit i = pattern.testBit i := by
  unfold bit_pattern_expr
  split_ifs with hz
  · exact ⟨_, rfl, fun p ↦ by simp [hz, h.ones]⟩
  · obtain ⟨e, he, heval⟩ := @joinTerms_spec _ _ _ _ _ h _
      (patternTerms pb mBasisBit pattern selected_bits) (List.ne_nil_of_length_pos (by
        simp only [patternTerms, List.length_map, List.length_range]
        exact Nat.size_pos.2 (by omega))) le_rfl
    exact ⟨e, he, fun p ↦ by rw [heval, all_patternTerms h]⟩

end Pattern

section Ranges

variable {N x V : ℕ}

omit h in
/-- A comparison on one more bit. -/
theorem mod_two_pow_succ (V N : ℕ) :
    V % 2 ^ (N + 1) = V % 2 ^ N + 2 ^ N * (V.testBit N).toNat := by
  rw [Nat.pow_succ, Nat.mod_mul, Nat.testBit_eq_decide_div_mod_eq]
  rcases Nat.mod_two_eq_zero_or_one (V / 2 ^ N) with hb | hb <;> simp [hb]

omit h in
theorem le_mod_succ_iff : x ≤ V % 2 ^ (N + 1) ↔
    if x < 2 ^ N then V.testBit N = true ∨ x ≤ V % 2 ^ N
    else V.testBit N = true ∧ x - 2 ^ N ≤ V % 2 ^ N := by
  have hmod := mod_two_pow_succ V N
  have hlt := Nat.mod_lt V (Nat.two_pow_pos N)
  rw [hmod]
  cases V.testBit N <;> split_ifs <;>
    simp only [Bool.toNat_true, Bool.toNat_false, Nat.mul_zero, Nat.mul_one] <;> grind

theorem eval_geBit {lo_range : ℕ → α} (hx : x < 2 ^ (N + 1))
    (hlo : ∀ y < 2 ^ N, eval (lo_range y) p = decide (y ≤ value eval p mBasisBit % 2 ^ N)) :
    eval (geBit pb mBasisBit N x lo_range) p =
      decide (x ≤ value eval p mBasisBit % 2 ^ (N + 1)) := by
  have hpow := Nat.two_pow_pos N
  rw [Bool.eq_iff_iff, decide_eq_true_iff, le_mod_succ_iff]
  simp only [geBit, Nat.and_two_pow]
  by_cases hbit : x < 2 ^ N
  · rw [Nat.testBit_lt_two_pow hbit]
    simp [h.or, eval_getBasisVar h, hlo x hbit, hbit]
  · have htest : x.testBit N = true :=
      Nat.testBit_of_two_pow_le_and_two_pow_add_one_gt (by omega) hx
    rw [Nat.pow_succ] at hx
    simp [htest, h.and, eval_getBasisVar h, hlo (x - 2 ^ N) (by omega), hbit]

theorem eval_GE_Range : ∀ {N x : ℕ}, x < 2 ^ N →
    eval (GE_Range pb mBasisBit N x) p = decide (x ≤ value eval p mBasisBit % 2 ^ N)
  | 0, x, hx => by
    have hzero : x = 0 := by simpa using hx
    simp [GE_Range, h.ones, hzero]
  | 1, x, hx => eval_geBit h hx fun y hy ↦ eval_GE_Range hy
  | N + 2, x, hx => by
    have hpow := Nat.two_pow_pos N
    have hlt := Nat.mod_lt (value eval p mBasisBit) hpow
    unfold GE_Range
    split_ifs with hzero hthree
    · have hx' : x < 2 ^ N := by
        rw [Nat.shiftRight_eq_div_pow] at hzero
        exact (Nat.div_eq_zero_iff_lt hpow).1 hzero.2
      rw [Bool.eq_iff_iff, decide_eq_true_iff, le_mod_succ_iff, if_pos (by
        rw [Nat.pow_succ]
        omega), le_mod_succ_iff, if_pos hx']
      simp [h.or3, eval_getBasisVar h, eval_GE_Range hx', or_assoc]
    · have hx' : 3 * 2 ^ N ≤ x := by
        rw [Nat.shiftRight_eq_div_pow] at hthree
        exact (Nat.le_div_iff_mul_le hpow).1 hthree.2.ge
      have h4 : 2 ^ (N + 2) = 4 * 2 ^ N := by ring
      have h2 : 2 ^ (N + 1) = 2 * 2 ^ N := by ring
      have hshift : x - 3 <<< N = x - 2 ^ (N + 1) - 2 ^ N := by
        rw [Nat.shiftLeft_eq]
        omega
      rw [Bool.eq_iff_iff, decide_eq_true_iff, le_mod_succ_iff, if_neg (by omega),
        le_mod_succ_iff, if_neg (by omega)]
      simp [h.and3, eval_getBasisVar h, hshift, eval_GE_Range (N := N)
        (x := x - 2 ^ (N + 1) - 2 ^ N) (by omega), and_assoc]
    · exact eval_geBit h hx fun y hy ↦ eval_GE_Range hy

theorem eval_LE_Range (hx : x < 2 ^ N) :
    eval (LE_Range pb mBasisBit N x) p = decide (value eval p mBasisBit % 2 ^ N ≤ x) := by
  have hlt := Nat.mod_lt (value eval p mBasisBit) (Nat.two_pow_pos N)
  unfold LE_Range
  split_ifs with hall
  · rw [h.ones, eq_comm, decide_eq_true_iff]
    omega
  · rw [h.not, eval_GE_Range h (by omega), Bool.eq_iff_iff]
    simp [Nat.lt_add_one_iff]

section Plain

variable (hplain : ∀ b ∈ mBasisBit, plain b)

include hplain

theorem plain_getBasisVar (i : ℕ) : plain (getBasisVar pb mBasisBit i) := by
  rw [getBasisVar, List.getD_eq_getElem?_getD]
  cases hi : mBasisBit[i]? with
  | none => exact h.plain_zeroes
  | some b => exact hplain b (List.mem_of_getElem? hi)

theorem plain_geBit (N x : ℕ) {lo_range : ℕ → α} (hlo : ∀ y, plain (lo_range y)) :
    plain (geBit pb mBasisBit N x lo_range) := by
  simp only [geBit]
  split_ifs
  · exact h.plain_or _ _ (plain_getBasisVar h hplain N) (hlo _)
  · exact h.plain_and _ _ (plain_getBasisVar h hplain N) (hlo _)

theorem plain_GE_Range : ∀ N x, plain (GE_Range pb mBasisBit N x)
  | 0, _ => h.plain_ones
  | 1, x => plain_geBit h hplain 0 x (plain_GE_Range 0)
  | N + 2, x => by
    have hN := plain_getBasisVar h hplain
    unfold GE_Range
    split_ifs
    · exact h.plain_or3 _ _ _ (hN _) (hN _) (plain_GE_Range N x)
    · exact h.plain_and3 _ _ _ (hN _) (hN _) (plain_GE_Range N _)
    · exact plain_geBit h hplain (N + 1) x (plain_GE_Range (N + 1))

end Plain

end Ranges

section Intervals

variable {n1 n2 lo hi V n d : ℕ}

omit h

/-- The bits from the `d`-th on are common to two numbers of `n` bits. -/
theorem testBit_common_iff (hV : V < 2 ^ n) (hlo : lo < 2 ^ n) (hd : d ≤ n) :
    (∀ i, ((2 ^ n - 1) ^^^ (2 ^ d - 1)).testBit i = true →
      V.testBit i = (lo.ldiff (2 ^ d - 1)).testBit i) ↔ V / 2 ^ d = lo / 2 ^ d := by
  simp only [Nat.testBit_xor, Nat.testBit_two_pow_sub_one, Nat.testBit_ldiff]
  constructor
  · intro hbits
    apply Nat.eq_of_testBit_eq
    intro i
    rw [Nat.testBit_div_two_pow, Nat.testBit_div_two_pow]
    by_cases hi : i + d < n
    · simpa using hbits (i + d) (by simp [hi])
    · have hpow := Nat.pow_le_pow_right two_pos (show n ≤ i + d by omega)
      rw [Nat.testBit_lt_two_pow (hV.trans_le hpow), Nat.testBit_lt_two_pow (hlo.trans_le hpow)]
  · intro hdiv i hi
    have hdi : d ≤ i := by grind
    have hb := congrArg (fun x ↦ x.testBit (i - d)) hdiv
    simp only [Nat.testBit_div_two_pow, Nat.sub_add_cancel hdi] at hb
    simp [hb, hdi]

/-- Two numbers whose highest different bit is the `d`-th. -/
theorem split_range (hle : n1 ≤ n2) (hd : (n1 ^^^ n2).size = d + 1) :
    n1 / 2 ^ (d + 1) = n2 / 2 ^ (d + 1) ∧ n1.testBit d = false ∧ n2.testBit d = true := by
  have hdiv : n1 / 2 ^ (d + 1) = n2 / 2 ^ (d + 1) := by
    apply Nat.eq_of_testBit_eq
    intro i
    have hlt : n1 ^^^ n2 < 2 ^ (i + (d + 1)) := by
      have := Nat.lt_size_self (n1 ^^^ n2)
      rw [hd] at this
      exact this.trans_le (Nat.pow_le_pow_right two_pos (by omega))
    have hbit := Nat.testBit_lt_two_pow hlt
    rw [Nat.testBit_xor] at hbit
    rw [Nat.testBit_div_two_pow, Nat.testBit_div_two_pow]
    simpa using hbit
  have hne : n1.testBit d ≠ n2.testBit d := by
    intro heq
    have hsize : (n1 ^^^ n2).size ≤ d := by
      rw [Nat.size_le]
      apply Nat.lt_pow_two_of_testBit
      intro i hi
      rcases eq_or_lt_of_le hi with rfl | hlt
      · simp [heq]
      · have hb := congrArg (fun x ↦ x.testBit (i - (d + 1))) hdiv
        simp only [Nat.testBit_div_two_pow, Nat.sub_add_cancel hlt] at hb
        simp [hb]
    omega
  have h1 := Nat.mod_add_div n1 (2 ^ (d + 1))
  have h2 := Nat.mod_add_div n2 (2 ^ (d + 1))
  cases hb : n1.testBit d
  · refine ⟨hdiv, rfl, ?_⟩
    rw [hb] at hne
    simpa using hne.symm
  · -- the larger of the two would have the bit cleared
    rw [hb] at hne
    have hb2 : n2.testBit d = false := by simpa using hne.symm
    exfalso
    have hlt : n2 % 2 ^ (d + 1) < n1 % 2 ^ (d + 1) := by
      by_contra hge
      have hnot := le_mod_succ_iff (N := d) (x := 2 ^ d) (V := n1)
      have hnot2 := le_mod_succ_iff (N := d) (x := 2 ^ d) (V := n2)
      simp only [lt_irrefl, if_false, hb, hb2, Nat.sub_self, Nat.zero_le, and_true,
        Bool.false_eq_true, iff_true, iff_false] at hnot hnot2
      omega
    rw [hdiv] at h1
    omega

/-- Between two numbers with a common prefix: the next bit chooses the bound. -/
theorem between_iff (hle : n1 ≤ n2) (hd : (n1 ^^^ n2).size = d + 1) :
    V / 2 ^ (d + 1) = n1 / 2 ^ (d + 1) ∧
        (if V.testBit d then V % 2 ^ d ≤ n2 % 2 ^ d else n1 % 2 ^ d ≤ V % 2 ^ d) ↔
      n1 ≤ V ∧ V ≤ n2 := by
  obtain ⟨hdiv, hb1, hb2⟩ := split_range hle hd
  have hsplit (x : ℕ) : x = 2 ^ (d + 1) * (x / 2 ^ (d + 1)) + 2 ^ d * (x.testBit d).toNat +
      x % 2 ^ d := by
    have hmod := mod_two_pow_succ x d
    have hx := Nat.div_add_mod x (2 ^ (d + 1))
    omega
  have hV := hsplit V
  have h1 := hsplit n1
  have h2 := hsplit n2
  have hpow := Nat.two_pow_pos d
  have hVlt := Nat.mod_lt V hpow
  have h1lt := Nat.mod_lt n1 hpow
  have h2lt := Nat.mod_lt n2 hpow
  rw [hb1, Bool.toNat_false, Nat.mul_zero] at h1
  rw [hb2, Bool.toNat_true, Nat.mul_one, ← hdiv] at h2
  rw [Nat.pow_succ] at hV h1 h2 ⊢
  generalize V / (2 ^ d * 2) = q at hV ⊢
  generalize n1 / (2 ^ d * 2) = q' at h1 h2 ⊢
  obtain hlt | rfl | hlt := Nat.lt_trichotomy q q'
  · have hmul := Nat.mul_le_mul_left (2 ^ d * 2) (Nat.succ_le_of_lt hlt)
    rw [Nat.mul_succ] at hmul
    have hbit := Nat.mul_le_mul_left (2 ^ d) (Nat.le_of_lt_succ (V.testBit d).toNat_lt)
    exact iff_of_false (by omega) (by omega)
  · cases hb : V.testBit d <;> rw [hb] at hV <;>
      simp only [Bool.toNat_true, Bool.toNat_false, if_true, Bool.false_eq_true, if_false,
        true_and] at hV ⊢ <;> omega
  · have hmul := Nat.mul_le_mul_left (2 ^ d * 2) (Nat.succ_le_of_lt hlt)
    rw [Nat.mul_succ] at hmul
    exact iff_of_false (by omega) (by omega)

end Intervals

section Parity

omit h

theorem mask_xor {n : ℕ} (hn : 0 < n) : (2 ^ n - 1) ^^^ (2 ^ n - 1 - 1) = 1 := by
  have hpow : 2 ^ n = 2 * 2 ^ (n - 1) := (mul_pow_sub_one hn.ne' 2).symm
  have hpos := Nat.two_pow_pos (n - 1)
  apply Nat.eq_of_testBit_eq
  intro i
  rw [Nat.testBit_xor]
  cases i with
  | zero =>
    have h1 : (2 ^ n - 1) % 2 = 1 := by omega
    have h2 : (2 ^ n - 1 - 1) % 2 = 0 := by omega
    simp [h1, h2]
  | succ i =>
    have hdiv : (2 ^ n - 1 - 1) / 2 = (2 ^ n - 1) / 2 := by omega
    rw [Nat.testBit_succ, Nat.testBit_succ, hdiv, Bool.xor_self, Nat.testBit_succ]
    simp

theorem and_mask {n x : ℕ} (hn : 0 < n) (hx : x < 2 ^ n) : x &&& (2 ^ n - 1 - 1) = x - x % 2 := by
  have hpow : 2 ^ n = 2 * 2 ^ (n - 1) := (mul_pow_sub_one hn.ne' 2).symm
  have hpos := Nat.two_pow_pos (n - 1)
  apply Nat.eq_of_testBit_eq
  intro i
  rw [Nat.testBit_and]
  cases i with
  | zero =>
    have h1 : (2 ^ n - 1 - 1) % 2 = 0 := by omega
    have h2 : (x - x % 2) % 2 = 0 := by omega
    simp [h1, h2]
  | succ i =>
    have h1 : (2 ^ n - 1 - 1) / 2 = 2 ^ (n - 1) - 1 := by omega
    have h2 : (x - x % 2) / 2 = x / 2 := by omega
    rw [Nat.testBit_succ, Nat.testBit_succ, Nat.testBit_succ, h1, h2, ← Nat.testBit_and,
      Nat.and_two_pow_sub_one_eq_mod, Nat.mod_eq_of_lt (by omega)]

theorem or_one (x : ℕ) : x ||| 1 = x - x % 2 + 1 := by
  apply Nat.eq_of_testBit_eq
  intro i
  rw [Nat.testBit_or]
  cases i with
  | zero =>
    have hmod : (x - x % 2 + 1) % 2 = 1 := by omega
    simp [hmod]
  | succ i =>
    have hdiv : (x - x % 2 + 1) / 2 = x / 2 := by omega
    rw [Nat.testBit_succ, Nat.testBit_succ, Nat.testBit_succ, hdiv]
    simp

end Parity

section Charset

variable {lo hi n : ℕ} (hlength : mBasisBit.length = n) (hplain : ∀ b ∈ mBasisBit, plain b)

include h hlength hplain

theorem make_range_spec (hle : lo ≤ hi) (hhi : hi < 2 ^ n) :
    ∃ e, make_range pb mBasisBit (2 ^ n - 1) lo hi = .ok e ∧ ∀ p, eval e p = true ↔
      lo ≤ value eval p mBasisBit ∧ value eval p mBasisBit ≤ hi := by
  have hlo : lo < 2 ^ n := hle.trans_lt hhi
  have hsize : (lo ^^^ hi).size ≤ n := Nat.size_le.2 (Nat.xor_lt_two_pow hlo hhi)
  have hV (p : ℕ) : value eval p mBasisBit < 2 ^ n := hlength ▸ value_lt
  unfold make_range
  rw [if_neg (by omega)]
  obtain ⟨common, hcommon, heval⟩ := @bit_pattern_expr_spec _ _ mBasisBit _ _ _ h
    (lo.ldiff (2 ^ (lo ^^^ hi).size - 1)) ((2 ^ n - 1) ^^^ (2 ^ (lo ^^^ hi).size - 1))
  simp only [testBit_common_iff (hV _) hlo hsize] at heval
  simp only [hcommon, ok_bind]
  cases hd : (lo ^^^ hi).size with
  | zero =>
    have hzero := Nat.size_eq_zero.1 hd
    have heq : lo = hi := by simpa using hzero
    refine ⟨common, rfl, fun p ↦ ?_⟩
    rw [heval, hd, Nat.pow_zero, Nat.div_one, Nat.div_one]
    omega
  | succ d =>
    refine ⟨_, rfl, fun p ↦ ?_⟩
    have hmask (x : ℕ) : x &&& (2 ^ d - 1) < 2 ^ d := by
      rw [Nat.and_two_pow_sub_one_eq_mod]
      exact Nat.mod_lt x (Nat.two_pow_pos d)
    rw [h.and, h.sel _ _ _ (plain_GE_Range h hplain _ _), Bool.and_eq_true, heval,
      Nat.add_sub_cancel, eval_getBasisVar h, eval_LE_Range h (hmask hi),
      eval_GE_Range h (hmask lo), Nat.and_two_pow_sub_one_eq_mod, Nat.and_two_pow_sub_one_eq_mod,
      hd, ← between_iff hle hd]
    cases (value eval p mBasisBit).testBit d <;> simp

theorem char_or_range_expr_spec (hle : lo ≤ hi) (hhi : hi < 2 ^ n) :
    ∃ e, char_or_range_expr pb mBasisBit (2 ^ n - 1) lo hi = .ok e ∧ ∀ p, eval e p = true ↔
      lo ≤ value eval p mBasisBit ∧ value eval p mBasisBit ≤ hi := by
  unfold char_or_range_expr
  split_ifs with heq
  · obtain ⟨e, he, heval⟩ := @bit_pattern_expr_spec _ _ mBasisBit _ _ _ h lo (2 ^ n - 1)
    refine ⟨e, he, fun p ↦ ?_⟩
    have hV : value eval p mBasisBit < 2 ^ n := hlength ▸ value_lt
    have hcommon := testBit_common_iff (d := 0) hV (heq ▸ hhi) (Nat.zero_le n)
    simp only [Nat.pow_zero, Nat.sub_self, Nat.xor_zero, Nat.testBit_ldiff, Nat.zero_testBit,
      Bool.not_false, Bool.and_true, Nat.div_one] at hcommon
    rw [heval, hcommon]
    omega
  · exact make_range_spec h hlength hplain hle hhi
  · omega

omit hlength hplain in
theorem intervalsLoop_spec {char_or_range_expr : ℕ → ℕ → Except Fault α} {is : List (ℕ × ℕ)}
    (his : ∀ i ∈ is, ∃ e, char_or_range_expr i.1 i.2 = .ok e ∧ ∀ p, eval e p = true ↔
      i.1 ≤ value eval p mBasisBit ∧ value eval p mBasisBit ≤ i.2)
    (expr : Option α) : ∃ e, intervalsLoop pb char_or_range_expr expr is = .ok e ∧
      (e = none ↔ expr = none ∧ is = []) ∧ ∀ a ∈ e, ∀ p, eval a p = true ↔
        (∃ b ∈ expr, eval b p = true) ∨
          ∃ i ∈ is, i.1 ≤ value eval p mBasisBit ∧ value eval p mBasisBit ≤ i.2 := by
  induction is generalizing expr with
  | nil => exact ⟨expr, rfl, by simp, fun a ha p ↦ by simp [Option.mem_def.1 ha]⟩
  | cons i is ih =>
    obtain ⟨lo, hi⟩ := i
    obtain ⟨temp, htemp, heval⟩ := his (lo, hi) (by simp)
    obtain ⟨e, he, hnone, hmem⟩ := ih (fun i hi ↦ his i (List.mem_cons_of_mem _ hi))
      (some (expr.elim temp fun expr ↦ pb.createOr expr temp))
    refine ⟨e, by rw [intervalsLoop, htemp, ok_bind, he], by simp [hnone], fun a ha p ↦ ?_⟩
    rw [hmem a ha p]
    cases expr with
    | none => simp [heval]
    | some b => simp [h.or, heval, or_assoc]

omit h hlength hplain in
/-- Isolated code points two apart. -/
theorem spaced_mem_iff {V : ℕ} {i : ℕ × ℕ} {is : List (ℕ × ℕ)} (hsingle : ∀ j ∈ i :: is, j.1 = j.2)
    (hchain : (i :: is).IsChain fun j k ↦ j.1 + 2 = k.1) :
    (∃ j ∈ i :: is, j.1 ≤ V ∧ V ≤ j.2) ↔
      i.1 ≤ V ∧ V ≤ ((i :: is).getLast (List.cons_ne_nil i is)).1 ∧ V % 2 = i.1 % 2 := by
  induction is generalizing i V with
  | nil =>
    have hi := hsingle i (by simp)
    simp only [List.mem_singleton, exists_eq_left, List.getLast_singleton]
    omega
  | cons j is ih =>
    have hi := hsingle i (by simp)
    have hj := hsingle j (by simp)
    have hstep : i.1 + 2 = j.1 := (List.isChain_cons_cons.1 hchain).1
    have hrest (V : ℕ) := @ih V j (fun k hk ↦ hsingle k (List.mem_cons_of_mem _ hk))
      (List.isChain_cons_cons.1 hchain).2
    have hlast := ((hrest j.1).1 ⟨j, by simp, le_rfl, hj.le⟩).2.1
    rw [List.getLast_cons_cons, List.exists_mem_cons_iff, hrest]
    omega

/-- The range from an even code point to an odd one, for those of one parity. -/
theorem even_odd_spec {i : ℕ × ℕ} {is : List (ℕ × ℕ)} (hn : 0 < n)
    (his : ∀ j ∈ i :: is, j.1 ≤ j.2 ∧ j.2 < 2 ^ n) (hcombine : combine (i :: is)) :
    ∃ e, make_range pb mBasisBit (2 ^ n - 1) (i.1 &&& (2 ^ n - 1 - 1))
        (((i :: is).getLast (List.cons_ne_nil i is)).1 ||| ((2 ^ n - 1) ^^^ (2 ^ n - 1 - 1))) =
          .ok e ∧ ∀ p, (eval e p = true ∧ (value eval p mBasisBit) % 2 = i.1 % 2 ↔
        ∃ j ∈ i :: is, j.1 ≤ value eval p mBasisBit ∧ value eval p mBasisBit ≤ j.2) := by
  have hlast := his _ (List.getLast_mem (List.cons_ne_nil i is))
  have hfirst := his i (by simp)
  have hmem (V : ℕ) := spaced_mem_iff (V := V) hcombine.2.1 hcombine.2.2
  have hmod := ((hmem _).1 ⟨_, List.getLast_mem (List.cons_ne_nil i is), le_rfl, hlast.1⟩).2.2
  generalize ((i :: is).getLast (List.cons_ne_nil i is)) = last at hlast hmem hmod ⊢
  have hle := ((hmem i.1).1 ⟨i, by simp, le_rfl, hfirst.1⟩).2.1
  have hpow : 2 ^ n = 2 * 2 ^ (n - 1) := (mul_pow_sub_one hn.ne' 2).symm
  rw [mask_xor hn, or_one, and_mask hn (by omega)]
  obtain ⟨e, he, heval⟩ := make_range_spec h hlength hplain
    (show i.1 - i.1 % 2 ≤ last.1 - last.1 % 2 + 1 by omega) (by omega)
  refine ⟨e, he, fun p ↦ ?_⟩
  rw [heval, hmem]
  omega

/-- What the compiler makes of a class whose intervals are these. Isolated code points two apart
are tested at every position, also past the end of the file. -/
theorem charset_expr_spec {cc : CC} {is : List (ℕ × ℕ)} (hn : 0 < n) (hn' : n < 32)
    (hempty : cc.set.empty = false) (hintervals : cc.set.intervals = .ok is)
    (his : ∀ i ∈ is, i.1 ≤ i.2 ∧ i.2 < 2 ^ n) (hne : is ≠ []) :
    ∃ e, charset_expr pb mBasisBit cc = .ok e ∧ ∀ p, eval e p = true ↔
      (combine is ∨ inFile p = true) ∧
        ∃ i ∈ is, i.1 ≤ value eval p mBasisBit ∧ value eval p mBasisBit ≤ i.2 := by
  have hmask : mEncodingMask mBasisBit = .ok (2 ^ n - 1) := by
    rw [mEncodingMask, hlength, if_pos hn']
  obtain ⟨i, is, rfl⟩ := List.exists_cons_of_ne_nil hne
  simp only [charset_expr, hmask, ok_bind, hempty, Bool.false_eq_true, if_false, hintervals,
    List.head?_cons, List.getLast?_eq_some_getLast hne]
  by_cases hcombine : combine (i :: is)
  · obtain ⟨e, he, heval⟩ := even_odd_spec h hlength hplain hn his hcombine
    rw [if_pos hcombine]
    refine ⟨_, by rw [he, ok_bind, pure_eq_ok], fun p ↦ ?_⟩
    have hbit : (value eval p mBasisBit).testBit 0 = decide (value eval p mBasisBit % 2 = 1) :=
      Nat.testBit_zero _
    rw [← heval, h.and, Bool.and_eq_true]
    simp only [hcombine, true_or, true_and, and_congr_right_iff]
    intro _
    split_ifs with hlo
    · rw [h.not, eval_getBasisVar h, hbit, hlo, Bool.not_eq_true', decide_eq_false_iff_not]
      omega
    · rw [eval_getBasisVar h, hbit, decide_eq_true_iff]
      omega
  · obtain ⟨e, he, hnone, hmem⟩ := intervalsLoop_spec h (fun i hi ↦
      char_or_range_expr_spec h hlength hplain (his i hi).1 (his i hi).2) none
    rw [if_neg hcombine, he, ok_bind]
    cases e with
    | none => simp at hnone
    | some e =>
      refine ⟨_, rfl, fun p ↦ ?_⟩
      rw [h.inFile, Bool.and_eq_true, hmem e rfl]
      simp [hcombine, and_comm]

end Charset

section Spaced

omit h

/-- Three numbers or more, each two above the one before. -/
def Spaced (xs : Set ℕ) : Prop :=
  ∃ a k, 2 ≤ k ∧ xs = {x | a ≤ x ∧ x ≤ a + 2 * k ∧ x % 2 = a % 2}

theorem intervals_spaced {f : ℕ → Bool} {stop p a k : ℕ} {is : List (ℕ × ℕ)}
    (h : Intervals f stop p is) (hk : a + 2 * k < stop)
    (hf : ∀ x, f x = true ↔ a ≤ x ∧ x ≤ a + 2 * k ∧ x % 2 = a % 2) :
    is = (List.range' ((p - a + 1) / 2) (k + 1 - (p - a + 1) / 2)).map
      fun j ↦ (a + 2 * j, a + 2 * j) := by
  induction h with
  | @nil p gap =>
    have hp : a + 2 * k < p := by
      by_contra hle
      have hnone := gap (a + 2 * k) (by omega) hk
      rw [(hf _).2 (by omega)] at hnone
      cases hnone
    rw [show k + 1 - (p - a + 1) / 2 = 0 by omega]
    rfl
  | @cons p lo hi is start le lt gap run stops rest ih =>
    have hlo := (hf lo).1 (run lo le_rfl le)
    have hhi : hi = lo := by
      by_contra hne
      have := (hf (lo + 1)).1 (run (lo + 1) (by omega) (by omega))
      omega
    have hfirst : lo ≤ p + 1 ∨ lo = a := by
      by_contra hlt
      have hnone := gap (lo - 2) (by omega) (by omega)
      rw [(hf _).2 (by omega)] at hnone
      cases hnone
    rw [ih, hhi, show k + 1 - (p - a + 1) / 2 = k + 1 - (lo + 1 - a + 1) / 2 + 1 by omega,
      List.range'_succ, List.map_cons,
      show (p - a + 1) / 2 + 1 = (lo + 1 - a + 1) / 2 by omega]
    congr 2 <;> omega

/-- The compiler merges exactly the classes of numbers two apart. -/
theorem combine_iff {s : UnicodeSet} {is : List (ℕ × ℕ)} (h : Verified s.runs s.quads)
    (his : Intervals s.contains (unicodeMax + 1) 0 is) : combine is ↔ Spaced s.members := by
  have hmem := UnicodeSet.mem_intervals_iff h his
  constructor
  · rintro ⟨hlen, hsingle, hchain⟩
    obtain ⟨i, j, k, rest, rfl⟩ : ∃ i j k rest, is = i :: j :: k :: rest := by
      rcases is with _ | ⟨i, _ | ⟨j, _ | ⟨k, rest⟩⟩⟩
      · simp at hlen
      · simp at hlen
      · simp at hlen
      · exact ⟨i, j, k, rest, rfl⟩
    have hspaced (V : ℕ) := spaced_mem_iff (V := V) hsingle hchain
    have hij := (List.isChain_cons_cons.1 hchain).1
    have hjk := (List.isChain_cons_cons.1 (List.isChain_cons_cons.1 hchain).2).1
    have hthird := (hspaced k.1).1 ⟨k, by simp, le_rfl, (hsingle k (by simp)).le⟩
    have hlast := (hspaced _).1 ⟨_, List.getLast_mem (List.cons_ne_nil i (j :: k :: rest)), le_rfl,
      (hsingle _ (List.getLast_mem _)).le⟩
    generalize ((i :: j :: k :: rest).getLast (List.cons_ne_nil i _)) = last at hspaced hthird hlast
    refine ⟨i.1, (last.1 - i.1) / 2, by omega, ?_⟩
    ext x
    rw [← hmem, hspaced, Set.mem_ofPred_eq]
    omega
  · rintro ⟨a, k, hk, hxs⟩
    have hf (x : ℕ) : s.contains x = true ↔ a ≤ x ∧ x ≤ a + 2 * k ∧ x % 2 = a % 2 :=
      Set.ext_iff.1 hxs x
    have hmax : a + 2 * k < unicodeMax + 1 :=
      Nat.lt_succ_of_le (UnicodeSet.le_of_mem h ((hf (a + 2 * k)).2 (by omega)))
    obtain rfl := intervals_spaced his hmax hf
    refine ⟨by simp; omega, by simp, ?_⟩
    rw [List.isChain_map]
    refine (List.isChain_range' _ _ _).imp fun a b hab ↦ ?_
    simp only
    omega

end Spaced

end Parabix_CC_Compiler

end Parabix.RE
