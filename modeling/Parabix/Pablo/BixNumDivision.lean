import Parabix.Pablo.BixNumExact

namespace Parabix.Pablo.BixNumCompiler

open Library Library.BitStream

section Operations

variable {α : Type} (mPB : PabloBuilder α)

def UGE (value : BixNum α) (floor : ℕ) : α :=
  if floor = 0 then mPB.createOnes else UGT mPB value (floor - 1)

def ULT (value : BixNum α) (ceil : ℕ) : α := mPB.createNot (UGE mPB value ceil)

def NEQ (value : BixNum α) (floor : ℕ) : α := mPB.createNot (EQ mPB value floor)

/-- The bits above the shorter number are kept under the condition. -/
def selectLoop (cond : α) : BixNum α → BixNum α → BixNum α
  | [], _ => []
  | a :: val1, [] => mPB.createAnd cond a :: selectLoop cond val1 []
  | a :: val1, b :: val0 => mPB.createSel cond a b :: selectLoop cond val1 val0

def Select (cond : α) (val1 val0 : BixNum α) : BixNum α :=
  if val1.length < val0.length then selectLoop mPB (mPB.createNot cond) val0 val1
  else selectLoop mPB cond val1 val0

/-- The bits from the `i`-th on. -/
def selectConst (cond : α) (val0 : ℕ) (i : ℕ) : BixNum α → BixNum α
  | [] => []
  | a :: val1 =>
    (if val0.testBit i then mPB.createOr a (mPB.createNot cond) else mPB.createAnd cond a) ::
      selectConst cond val0 (i + 1) val1

def SelectConst (cond : α) (val1 : BixNum α) (val0 : ℕ) : BixNum α :=
  selectConst mPB cond val0 0 val1

/-- The extension of a number, which must not be longer already. -/
def ZeroExtendTo (value : BixNum α) (extended_size : ℕ) : Except Fault (BixNum α) :=
  if value.length ≤ extended_size then .ok (ZeroExtend mPB value extended_size)
  else .error .memory

def Truncate (value : BixNum α) (truncated_size : ℕ) : Except Fault (BixNum α) :=
  if truncated_size ≤ value.length then .ok (value.take truncated_size) else .error .memory

def HighBits (value : BixNum α) (highBitCount : ℕ) : Except Fault (BixNum α) :=
  if highBitCount ≤ value.length then .ok (value.drop (value.length - highBitCount))
  else .error .memory

def Create (value : ℕ) : BixNum α :=
  let value_bits := if 0 < value then value.log2 + 1 else 1
  (List.range value_bits).map fun i ↦
    if value.testBit i then mPB.createOnes else mPB.createZeroes

/-- The quotient bits and the last remainder, the highest bit of the dividend first. -/
def divLoop (divisor : ℕ) (R : BixNum α) : BixNum α → Except Fault (BixNum α × BixNum α)
  | [] => .ok ([], R)
  | bit :: dividend => do
    let (Q, R) ← divLoop divisor R dividend
    let R := bit :: R
    let q := UGE mPB R divisor
    let diff ← SubModularConst mPB R divisor
    return (q :: Q, Select mPB q diff R)

/-- The quotient and the remainder. -/
def Div (dividend : BixNum α) (divisor : ℕ) : Except Fault (BixNum α × BixNum α) :=
  if divisor = 0 then
    .error (.fatal "BixNum division by 0.")
  else if divisor = 1 then
    .ok (dividend, [mPB.createZeroes])
  else
    let dividend_bits := dividend.length
    let divisor_bits := divisor.log2 + 1
    if dividend_bits < divisor_bits then
      .ok (List.replicate dividend_bits mPB.createZeroes, Create mPB divisor)
    else if divisor % 2 = 0 then do
      let high ← HighBits dividend (dividend_bits - 1)
      let (quotient, remainder) ← Div high (divisor / 2)
      return (quotient, dividend.take 1 ++ remainder)
    else do
      let R := List.replicate divisor_bits mPB.createZeroes
      let (Q, R) ← divLoop mPB divisor R dividend
      let remainder ← Truncate R divisor_bits
      return (Q, remainder)
termination_by divisor

end Operations

section Condition

/-- The factors of two are split off, and the dividend has as many bits as the divisor. What is left
of both is short enough for the masks, unless the divisor is a power of two. -/
def DivReady (dividend_bits divisor : ℕ) : Prop :=
  ∃ i odd, divisor = 2 ^ i * odd ∧ odd % 2 = 1 ∧
    (divisor = 1 ∨ divisor.log2 + 1 ≤ dividend_bits) ∧
    (odd = 1 ∨ (dividend_bits - i) + (odd.log2 + 1) ≤ 30)

variable {n m : ℕ}

theorem log2_two_mul (hpos : 0 < m) : (2 * m).log2 = m.log2 + 1 := by
  rw [Nat.log2_def, if_pos (by omega), Nat.mul_div_cancel_left _ Nat.two_pos]

theorem divReady_one : DivReady n 1 := ⟨0, 1, rfl, rfl, .inl rfl, .inl rfl⟩

theorem DivReady.le (hready : DivReady n m) (hone : m ≠ 1) : m.log2 + 1 ≤ n := by
  obtain ⟨i, odd, -, -, hlong, -⟩ := hready
  exact hlong.resolve_left hone

/-- The step of the division by an even number. -/
theorem divReady_two_mul (hpos : 0 < m) :
    DivReady n (2 * m) ↔ (2 * m).log2 + 1 ≤ n ∧ DivReady (n - 1) m := by
  have hlog := log2_two_mul hpos
  constructor
  · intro hready
    have hlong := hready.le (by omega)
    obtain ⟨i, odd, hm, hodd, -, hsize⟩ := hready
    refine ⟨hlong, ?_⟩
    cases i with
    | zero =>
      rw [pow_zero, Nat.one_mul] at hm
      omega
    | succ i =>
      rw [Nat.pow_succ', Nat.mul_assoc] at hm
      exact ⟨i, odd, by omega, hodd, .inr (by omega), hsize.imp_right fun hsize ↦ by omega⟩
  · rintro ⟨hlong, i, odd, hm, hodd, -, hsize⟩
    refine ⟨i + 1, odd, ?_, hodd, .inr hlong, hsize.imp_right fun hsize ↦ by omega⟩
    rw [hm, Nat.pow_succ', Nat.mul_assoc]

theorem divReady_odd (hodd : m % 2 = 1) (hone : m ≠ 1) :
    DivReady n m ↔ m.log2 + 1 ≤ n ∧ n + (m.log2 + 1) ≤ 30 := by
  constructor
  · intro hready
    refine ⟨hready.le hone, ?_⟩
    obtain ⟨i, odd, hm, -, -, hsize⟩ := hready
    cases i with
    | zero =>
      rw [pow_zero, Nat.one_mul] at hm
      rw [hm]
      exact hsize.resolve_left (hm ▸ hone)
    | succ i =>
      rw [Nat.pow_succ', Nat.mul_assoc] at hm
      omega
  · rintro ⟨hlong, hsize⟩
    exact ⟨0, m, by rw [pow_zero, Nat.one_mul], hodd, .inr hlong, .inr hsize⟩

theorem divReady_of_le (hpos : 0 < m) (hlong : m.log2 + 1 ≤ n) (hsize : m.log2 + 1 + n ≤ 30) :
    DivReady n m := by
  induction m using Nat.strongRecOn generalizing n with
  | ind m ih =>
    rcases eq_or_ne m 1 with rfl | hone
    · exact divReady_one
    rcases Nat.mod_two_eq_zero_or_one m with heven | hodd
    · obtain ⟨e, rfl⟩ : ∃ e, m = 2 * e := ⟨m / 2, by omega⟩
      have he : 0 < e := by omega
      have hlog := log2_two_mul he
      exact (divReady_two_mul he).2 ⟨hlong, ih e (by omega) he (by omega) (by omega)⟩
    · exact (divReady_odd hodd hone).2 ⟨hlong, by omega⟩

end Condition

section Exact

variable {α : Type} {mPB : PabloBuilder α} {eval : α → Stream} (h : mPB.Lawful eval)
  {n k r : BixNum α} {c : α} {p i x : ℕ}

@[simp] theorem length_selectLoop : (selectLoop mPB c n k).length = n.length := by
  induction n generalizing k with
  | nil => cases k <;> rfl
  | cons a n ih => cases k <;> simp [selectLoop, ih]

@[simp] theorem length_select : (Select mPB c n k).length = max n.length k.length := by
  rw [Select]
  split_ifs <;> rw [length_selectLoop] <;> omega

@[simp] theorem length_selectConst : (selectConst mPB c x i n).length = n.length := by
  induction n generalizing i with
  | nil => rfl
  | cons a n ih => simp [selectConst, ih]

theorem truncate_eq (hi : i ≤ n.length) : Truncate n i = .ok (n.take i) := if_pos hi

theorem highBits_cons {a : α} : HighBits (a :: n) ((a :: n).length - 1) = .ok n := by
  rw [HighBits, if_pos (Nat.sub_le _ _), List.length_cons, Nat.add_sub_cancel,
    Nat.add_sub_cancel_left]
  rfl

theorem zeroExtendTo_eq (hi : n.length ≤ i) :
    ZeroExtendTo mPB n i = .ok (ZeroExtend mPB n i) := if_pos hi

include h

theorem eval_UGE : eval (UGE mPB n x) p = decide (x ≤ value eval p n) := by
  rw [UGE]
  split_ifs with hzero
  · rw [h.ones, decide_eq_true (by omega)]
  · rw [eval_UGT h, decide_eq_decide]
    omega

theorem eval_ULT : eval (ULT mPB n x) p = decide (value eval p n < x) := by
  rw [ULT, h.not, eval_UGE h, ← decide_not, decide_eq_decide, Nat.not_le]

theorem eval_NEQ : eval (NEQ mPB n x) p = decide (value eval p n ≠ x) := by
  rw [NEQ, h.not, eval_EQ h, ← decide_not]

theorem value_selectLoop (hle : k.length ≤ n.length) : value eval p (selectLoop mPB c n k) =
    bif eval c p then value eval p n else value eval p k := by
  induction n generalizing k with
  | nil =>
    rw [List.length_nil, Nat.le_zero, List.length_eq_zero_iff] at hle
    rw [hle, selectLoop, Bool.cond_self]
  | cons a n ih =>
    cases k with
    | nil =>
      have hrest := ih (k := []) (Nat.zero_le n.length)
      rw [selectLoop, value_cons, hrest, h.and, value_cons, value_nil]
      cases eval c p <;> rfl
    | cons b k =>
      have hrest := ih (Nat.le_of_succ_le_succ hle)
      rw [selectLoop, value_cons, hrest, h.sel, value_cons, value_cons]
      cases eval c p <;> rfl

/-- Numbers of any lengths are selected. -/
theorem value_select : value eval p (Select mPB c n k) =
    bif eval c p then value eval p n else value eval p k := by
  rw [Select]
  split_ifs with hlt
  · rw [value_selectLoop h hlt.le, h.not]
    cases eval c p <;> rfl
  · exact value_selectLoop h (Nat.le_of_not_lt hlt)

theorem value_selectConst : value eval p (SelectConst mPB c n 0) =
    bif eval c p then value eval p n else 0 := by
  have hloop (i : ℕ) : value eval p (selectConst mPB c 0 i n) =
      bif eval c p then value eval p n else 0 := by
    induction n generalizing i with
    | nil => rw [selectConst, value_nil, Bool.cond_self]
    | cons a n ih =>
      rw [selectConst, value_cons, ih, Nat.zero_testBit, if_neg Bool.false_ne_true, h.and,
        value_cons]
      cases eval c p <;> rfl
  exact hloop 0

/-- A number, shifted by a bit, is less than twice the divisor before the step. -/
theorem divLoop_spec {m : ℕ} (hpos : 0 < m) (hlt : m < 2 ^ 32)
    (hsize : k.length + n.length ≤ 30) (hzero : ∀ p, value eval p k = 0) :
    ∃ Q R, divLoop mPB m k n = .ok (Q, R) ∧ Q.length = n.length ∧
      R.length = k.length + n.length ∧ ∀ p, value eval p Q = value eval p n / m ∧
        value eval p R = value eval p n % m := by
  induction n with
  | nil =>
    refine ⟨[], k, rfl, rfl, rfl, fun p ↦ ?_⟩
    rw [hzero, value_nil, Nat.zero_div, Nat.zero_mod]
    exact ⟨rfl, rfl⟩
  | cons bit n ih =>
    rw [List.length_cons] at hsize
    obtain ⟨Q, R, hloop, hQ, hR, hvalue⟩ := ih (by omega)
    obtain ⟨diff, hdiff, hlength, hsub⟩ :=
      (subModularConst_spec h (bit :: R) hlt).2 (by rw [List.length_cons]; omega)
    refine ⟨UGE mPB (bit :: R) m :: Q,
      Select mPB (UGE mPB (bit :: R) m) diff (bit :: R), ?_, by simpa using hQ, ?_, fun p ↦ ?_⟩
    · rw [divLoop, hloop]
      simp only [ok_bind]
      rw [hdiff]
      rfl
    · rw [length_select, hlength, List.length_cons, List.length_cons]
      omega
    · obtain ⟨hquotient, hremainder⟩ := hvalue p
      have hbit := Bool.toNat_lt (eval bit p)
      have hmod := Nat.mod_lt (value eval p n) hpos
      have hsplit := Nat.div_add_mod (value eval p n) m
      have hR2 : value eval p (bit :: R) = (eval bit p).toNat + 2 * (value eval p n % m) := by
        rw [value_cons, hremainder]
      have hn2 : value eval p (bit :: n) = value eval p (bit :: R) +
          m * (2 * (value eval p n / m)) := by
        rw [value_cons, hR2, Nat.mul_left_comm]
        omega
      have hsmall : value eval p (bit :: R) < 2 * m := by omega
      have hwidth := @value_lt _ eval p (bit :: R)
      rw [hn2, Nat.add_mul_div_left _ _ hpos, Nat.add_mul_mod_self_left, value_cons, eval_UGE h,
        hquotient, value_select h, eval_UGE h]
      rcases Nat.lt_or_ge (value eval p (bit :: R)) m with hless | hmore
      · rw [decide_eq_false (by omega), Nat.div_eq_of_lt hless, Nat.mod_eq_of_lt hless]
        exact ⟨rfl, rfl⟩
      · have hdifference : (value eval p diff : ℤ) = (value eval p (bit :: R) - m : ℕ) := by
          rw [hsub p, ← Nat.cast_sub hmore]
          exact_mod_cast Nat.mod_eq_of_lt (by omega)
        have hone : value eval p (bit :: R) / m = 1 :=
          Nat.div_eq_of_lt_le (by omega) (by omega)
        rw [decide_eq_true hmore, hone, cond_true]
        refine ⟨rfl, ?_⟩
        rw [Nat.mod_eq_sub_mod hmore, Nat.mod_eq_of_lt (by omega)]
        exact_mod_cast hdifference

omit h in
theorem divLoop_ok {m : ℕ} {Q R : BixNum α} (hloop : divLoop mPB m k n = .ok (Q, R)) :
    R.length = k.length + n.length ∧ (n = [] ∨ R.length ≤ 30) := by
  induction n generalizing Q R with
  | nil =>
    cases hloop
    exact ⟨rfl, .inl rfl⟩
  | cons bit n ih =>
    obtain ⟨⟨Q', R'⟩, hrest, hstep⟩ := bind_eq_ok.1 hloop
    obtain ⟨diff, hdiff, hselect⟩ := bind_eq_ok.1 hstep
    cases hselect
    have hlength := (ih hrest).1
    have hle : (bit :: R').length ≤ 30 := addModularConst_ok hdiff
    rw [length_select, addModularConst_length hdiff, max_self]
    refine ⟨?_, .inr hle⟩
    rw [List.length_cons, hlength, List.length_cons, Nat.add_assoc]

/-- A dividend is divided under the condition. -/
theorem div_ready {m : ℕ} (hpos : 0 < m) (hlt : m < 2 ^ 32) (hready : DivReady n.length m) :
    ∃ Q R, Div mPB n m = .ok (Q, R) ∧ Q.length ≤ n.length ∧
      n.length ≤ Q.length + m.log2 ∧ R.length = m.log2 + 1 ∧
        ∀ p, value eval p Q = value eval p n / m ∧
          value eval p R = value eval p n % m := by
  induction m using Nat.strongRecOn generalizing n with
  | ind m ih =>
    rw [Div, if_neg hpos.ne']
    dsimp only
    split_ifs with hone hshort heven
    · rw [hone]
      refine ⟨n, [mPB.createZeroes], rfl, Nat.le_refl _, Nat.le_add_right _ _, rfl, fun p ↦ ?_⟩
      rw [Nat.div_one, Nat.mod_one, value_cons, h.zeroes]
      exact ⟨rfl, rfl⟩
    · exact absurd hshort (Nat.not_lt.2 (hready.le hone))
    · obtain ⟨e, rfl⟩ : ∃ e, m = 2 * e := ⟨m / 2, by omega⟩
      have he : 0 < e := by omega
      have hlog := log2_two_mul he
      obtain ⟨hlong, hhalf⟩ := (divReady_two_mul he).1 hready
      rw [Nat.mul_div_cancel_left _ Nat.two_pos]
      cases n with
      | nil => exact absurd hlong (by rw [List.length_nil]; omega)
      | cons bit high =>
        rw [List.length_cons] at hlong
        rw [List.length_cons, Nat.add_sub_cancel] at hhalf
        obtain ⟨Q, R, hdiv, hQ, hQ', hR, hvalue⟩ := ih e (by omega) he (by omega) hhalf
        refine ⟨Q, bit :: R, ?_, ?_, ?_, ?_, fun p ↦ ?_⟩
        · rw [highBits_cons, ok_bind, hdiv]
          rfl
        · rw [List.length_cons]
          omega
        · rw [List.length_cons]
          omega
        · rw [List.length_cons, hR, hlog]
        · obtain ⟨hquotient, hremainder⟩ := hvalue p
          have hbit := Bool.toNat_lt (eval bit p)
          have hshift : ((eval bit p).toNat + 2 * value eval p high) / 2 = value eval p high := by
            omega
          rw [value_cons, value_cons, ← Nat.div_div_eq_div_mul, Nat.mod_mul, hshift, hquotient,
            hremainder]
          exact ⟨rfl, by omega⟩
    · obtain ⟨hlong, hsize⟩ := (divReady_odd (by omega) hone).1 hready
      obtain ⟨Q, R, hloop, hQ, hR, hvalue⟩ := divLoop_spec h (n := n)
        (k := List.replicate (m.log2 + 1) mPB.createZeroes) hpos hlt
        (by rw [List.length_replicate]; omega) fun p ↦ value_replicate_zeroes h _
      rw [List.length_replicate] at hR
      have htruncate := @truncate_eq α R (m.log2 + 1) (by omega)
      refine ⟨Q, R.take (m.log2 + 1), ?_, hQ.le, by omega, ?_, fun p ↦ ⟨(hvalue p).1, ?_⟩⟩
      · rw [hloop]
        simp only [ok_bind, htruncate]
        rfl
      · rw [List.length_take]
        omega
      · have hless := (Nat.mod_lt (value eval p n) hpos).trans (@Nat.lt_log2_self m)
        rw [value_take, (hvalue p).2, Nat.mod_eq_of_lt hless]

/-- A dividend with as many bits as the divisor is divided, where `(1 << width) - 1` is of the type
`int` for the longest remainder. -/
theorem div_spec {m : ℕ} (hpos : 0 < m) (hlt : m < 2 ^ 32)
    (hlong : m.log2 + 1 ≤ n.length) (hsize : m.log2 + 1 + n.length ≤ 30) :
    ∃ Q R, Div mPB n m = .ok (Q, R) ∧ Q.length ≤ n.length ∧
      n.length ≤ Q.length + m.log2 ∧ R.length = m.log2 + 1 ∧
        ∀ p, value eval p Q = value eval p n / m ∧
          value eval p R = value eval p n % m :=
  div_ready h hpos hlt (divReady_of_le hpos hlong hsize)

theorem value_create (x : ℕ) : value eval p (Create mPB x) = x := by
  apply Nat.eq_of_testBit_eq
  intro j
  have hlt : x < 2 ^ (if 0 < x then x.log2 + 1 else 1) := by
    split_ifs with hpos
    · exact Nat.lt_log2_self
    · omega
  rw [value, testBit_ofDigits, Create, List.map_map, List.getD_eq_getElem?_getD,
    List.getElem?_map]
  rcases Nat.lt_or_ge j (if 0 < x then x.log2 + 1 else 1) with hj | hj
  · rw [List.getElem?_range hj, Option.map_some, Option.getD_some, Function.comp_apply]
    cases x.testBit j
    · exact h.zeroes p
    · exact h.ones p
  · rw [List.getElem?_eq_none (by rwa [List.length_range])]
    exact (Nat.testBit_lt_two_pow (hlt.trans_le (Nat.pow_le_pow_right Nat.two_pos hj))).symm

/-- Quotient and remainder are exact under the condition, and under no other. -/
theorem div_exact {m : ℕ} (hpos : 0 < m) (hlt : m < 2 ^ 32) :
    (∃ Q R, Div mPB n m = .ok (Q, R) ∧ ∀ p, value eval p Q = value eval p n / m ∧
      value eval p R = value eval p n % m) ↔ DivReady n.length m := by
  constructor
  · rintro ⟨Q, R, hdiv, hvalue⟩
    induction m using Nat.strongRecOn generalizing n Q R with
    | ind m ih =>
      rw [Div, if_neg hpos.ne'] at hdiv
      dsimp only at hdiv
      split_ifs at hdiv with hone hshort heven
      · rw [hone]
        exact divReady_one
      · cases hdiv
        have hremainder := (hvalue 0).2
        rw [value_create h] at hremainder
        exact absurd (Nat.mod_lt (value eval 0 n) hpos) (by omega)
      · obtain ⟨e, rfl⟩ : ∃ e, m = 2 * e := ⟨m / 2, by omega⟩
        have he : 0 < e := by omega
        rw [divReady_two_mul he]
        refine ⟨Nat.le_of_not_lt hshort, ?_⟩
        rw [Nat.mul_div_cancel_left _ Nat.two_pos] at hdiv
        cases n with
        | nil => exact absurd (Nat.succ_pos _) hshort
        | cons bit high =>
          rw [highBits_cons, ok_bind] at hdiv
          obtain ⟨⟨Q', R'⟩, hrest, hresult⟩ := bind_eq_ok.1 hdiv
          cases hresult
          rw [List.length_cons, Nat.add_sub_cancel]
          refine ih e (by omega) he (by omega) Q' R' hrest fun p ↦ ?_
          obtain ⟨hquotient, hremainder⟩ := hvalue p
          have hbit := Bool.toNat_lt (eval bit p)
          have hshift : ((eval bit p).toNat + 2 * value eval p high) / 2 = value eval p high := by
            omega
          rw [value_cons, ← Nat.div_div_eq_div_mul, hshift] at hquotient
          rw [List.take_succ_cons, List.take_zero, List.singleton_append, value_cons, value_cons,
            Nat.mod_mul, hshift] at hremainder
          dsimp only at hremainder
          exact ⟨hquotient, by omega⟩
      · rw [divReady_odd (by omega) hone]
        have hlong := Nat.le_of_not_lt hshort
        refine ⟨hlong, ?_⟩
        obtain ⟨⟨Q', R'⟩, hloop, -⟩ := bind_eq_ok.1 hdiv
        obtain ⟨hlength, hnil | hsize⟩ := divLoop_ok hloop
        · rw [hnil] at hlong
          exact absurd hlong (Nat.not_succ_le_zero _)
        · rw [hlength, List.length_replicate] at hsize
          omega
  · intro hready
    obtain ⟨Q, R, hdiv, -, -, -, hvalue⟩ := div_ready h hpos hlt hready
    exact ⟨Q, R, hdiv, hvalue⟩

end Exact

theorem div_exact_streams :
    ∃ Q R, Div .streams [fun _ ↦ true, fun p ↦ p == 1, fun _ ↦ true] 6 = .ok (Q, R) ∧
      ∀ p, value id p Q = value id p [fun _ ↦ true, fun p ↦ p == 1, fun _ ↦ true] / 6 ∧
        value id p R = value id p [fun _ ↦ true, fun p ↦ p == 1, fun _ ↦ true] % 6 :=
  (div_exact PabloBuilder.streams_lawful (by decide) (by decide)).2
    ⟨1, 3, rfl, rfl, .inr (by decide), .inr (by decide)⟩

/-- With fewer bits than the divisor the remainder is the divisor and not the dividend. -/
theorem div_narrow : ¬ ∃ Q R, Div .streams [fun _ ↦ true] 2 = .ok (Q, R) ∧
    ∀ p, value id p Q = value id p [fun _ ↦ true] / 2 ∧
      value id p R = value id p [fun _ ↦ true] % 2 := by
  rintro ⟨Q, R, hdiv, hvalue⟩
  have hremainder := (hvalue 0).2
  rw [Div, if_neg (by decide), if_neg (by decide)] at hdiv
  cases hdiv
  rw [value_create PabloBuilder.streams_lawful] at hremainder
  exact absurd hremainder (by decide)

end Parabix.Pablo.BixNumCompiler
