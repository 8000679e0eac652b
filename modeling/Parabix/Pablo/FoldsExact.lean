import Parabix.Pablo.Folds

namespace Parabix.Pablo

open Library.BitStream

section Meaning

/-- The sum of a scan's operands, without the positions that are scanned through. -/
def scanThru (from_ thru : Stream) : Stream := fun p ↦
  ScanStatement.ScanThru.value (from_ p) (thru p) false (sum from_ thru false p)

def matchStar (marker charClass : Stream) : Stream := fun p ↦
  ScanStatement.MatchStar.value (marker p) (charClass p) false
    (sum (fun i ↦ marker i && charClass i) charClass false p)

/-- The statements on streams that are folded mean what they are compiled to. -/
structure Documented (integer : PabloAST → Option ℕ) (ρ : Assignment) : Prop where
  advance : ∀ amount n, integer amount = some n → ∀ type x,
    ρ.binary .Advance type x (amount.eval ρ) = advance n x
  lookahead : ∀ amount n, integer amount = some n → ∀ type x,
    ρ.binary .Lookahead type x (amount.eval ρ) = fun p ↦ x (p + n)
  scanThru : ∀ type x y, ρ.binary .ScanThru type x y = scanThru x y
  matchStar : ∀ type x y, ρ.binary .MatchStar type x y = matchStar x y

end Meaning

section Scans

variable {x y : Stream}

theorem carry_of_apart (h : ∀ p, x p = false ∨ y p = false) (p : ℕ) :
    carry x y false p = false := by
  induction p with
  | zero => rfl
  | succ p ih =>
    rw [carry, ih]
    rcases h p with hx | hy
    · simp [hx]
    · simp [hy]

/-- Nothing moves that is not in what is scanned through. -/
theorem scanThru_of_apart (h : ∀ p, x p = false ∨ y p = false) : scanThru x y = x := by
  funext p
  simp only [scanThru, ScanStatement.value, sum, carry_of_apart h p]
  rcases h p with hx | hy
  · cases hy : y p <;> simp [hx]
  · simp [hy]

theorem scanThru_zeroes_left : scanThru (fun _ ↦ false) y = fun _ ↦ false :=
  scanThru_of_apart fun _ ↦ .inl rfl

theorem scanThru_zeroes_right : scanThru x (fun _ ↦ false) = x :=
  scanThru_of_apart fun _ ↦ .inr rfl

theorem scanThru_ones : scanThru x (fun _ ↦ true) = fun _ ↦ false := by
  funext p
  simp [scanThru, ScanStatement.value]

theorem scanThru_scanThru : scanThru (scanThru x y) y = scanThru x y := by
  apply scanThru_of_apart
  intro p
  cases hy : y p with
  | false => exact .inr rfl
  | true => exact .inl (by simp [scanThru, ScanStatement.value, hy])

theorem matchStar_zeroes_left : matchStar (fun _ ↦ false) y = fun _ ↦ false := by
  funext p
  have hcarry : carry (fun i ↦ false && y i) y false p = false :=
    carry_of_apart (fun _ ↦ .inl rfl) p
  simp only [matchStar, ScanStatement.value, sum, hcarry]
  simp

theorem matchStar_zeroes_right : matchStar x (fun _ ↦ false) = x := by
  funext p
  have hcarry : carry (fun i ↦ x i && false) (fun _ ↦ false) false p = false :=
    carry_of_apart (fun _ ↦ .inr rfl) p
  simp only [matchStar, ScanStatement.value, sum, hcarry]
  simp

theorem matchStar_ones : matchStar (fun _ ↦ true) y = fun _ ↦ true := by
  funext p
  simp [matchStar, ScanStatement.value]

end Scans

section Boolean

variable {block : FoldBlock} {ρ : Assignment} {e op0 op1 value : PabloAST}

theorem triviallyFoldNot_eval (h : triviallyFoldNot block value = some e) :
    e.eval ρ = fun p ↦ !value.eval ρ p := by
  cases value with
  | Not addr expr =>
    obtain rfl : expr = e := by simpa [triviallyFoldNot] using h
    simp [PabloAST.eval]
  | Zeroes type =>
    obtain rfl : .Ones type = e := by simpa [triviallyFoldNot] using h
    simp [PabloAST.eval]
  | Ones type =>
    obtain rfl : .Zeroes type = e := by simpa [triviallyFoldNot] using h
    simp [PabloAST.eval]
  | Ternary addr mask a b c =>
    unfold triviallyFoldNot at h
    split_ifs at h with hter
    obtain rfl := Option.some.inj h
    funext p
    exact ternary_xor_ff mask _ _ _
  | _ => simp [triviallyFoldNot] at h

/-- The negation of an expression, folded if possible. -/
theorem negated_eval (block : FoldBlock) (value : PabloAST) :
    ((triviallyFoldNot block value).getD (block.createNot value)).eval ρ =
      fun p ↦ !value.eval ρ p := by
  cases h : triviallyFoldNot block value with
  | none => rfl
  | some e => exact triviallyFoldNot_eval h

theorem foldOperand_eval {f : Bool → Bool → Bool} {absorbing neutral : PabloAST → Bool}
    {constant : PabloAST} (hconst : ∀ x p, f (!x) x = constant.eval ρ p)
    (habsorb : ∀ op, absorbing op → ∀ x p, f (op.eval ρ p) x = op.eval ρ p)
    (hneutral : ∀ op, neutral op → ∀ x p, f (op.eval ρ p) x = x)
    (h : foldOperand absorbing neutral constant op0 op1 = some e) :
    e.eval ρ = fun p ↦ f (op0.eval ρ p) (op1.eval ρ p) := by
  funext p
  unfold foldOperand at h
  cases hnot : op0.castNot with
  | some expr =>
    obtain ⟨addr, rfl⟩ := PabloAST.castNot_eq_some.mp hnot
    rw [hnot] at h
    simp only [Option.ite_none_right_eq_some, Option.some.injEq] at h
    obtain ⟨rfl, rfl⟩ := h
    exact (hconst _ p).symm
  | none =>
    rw [hnot] at h
    simp only at h
    split_ifs at h with hn ha
    · obtain rfl := Option.some.inj h
      exact (hneutral op0 hn _ p).symm
    · obtain rfl := Option.some.inj h
      exact (habsorb op0 ha _ p).symm

theorem triviallyFoldBinaryAndOr_eval {f : Bool → Bool → Bool}
    {absorbing neutral : PabloAST → Bool} {constant : PabloAST} (hcomm : ∀ a b, f a b = f b a)
    (hself : ∀ a, f a a = a) (hconst : ∀ x p, f (!x) x = constant.eval ρ p)
    (habsorb : ∀ op, absorbing op → ∀ x p, f (op.eval ρ p) x = op.eval ρ p)
    (hneutral : ∀ op, neutral op → ∀ x p, f (op.eval ρ p) x = x)
    (h : triviallyFoldBinaryAndOr absorbing neutral constant op0 op1 = some e) :
    e.eval ρ = fun p ↦ f (op0.eval ρ p) (op1.eval ρ p) := by
  rcases Option.or_eq_some_iff.mp h with hloop | ⟨-, hsame⟩
  · rcases Option.or_eq_some_iff.mp hloop with hfirst | ⟨-, hsecond⟩
    · exact foldOperand_eval hconst habsorb hneutral hfirst
    · rw [foldOperand_eval hconst habsorb hneutral hsecond]
      funext p
      exact hcomm _ _
  · simp only [Option.ite_none_right_eq_some, Option.some.injEq] at hsame
    obtain ⟨rfl, rfl⟩ := hsame
    funext p
    exact (hself _).symm

/-- The operands of one operand, and the other operand. -/
theorem triviallyFoldBasicBinOp_eval {basic_op : BasicOp} {a b c : PabloAST}
    (h : triviallyFoldBasicBinOp op0 op1 = some (basic_op, a, b, c)) (f : Bool → Bool → Bool)
    (hcomm : ∀ x y, f x y = f y x) (p : ℕ) :
    f (op0.eval ρ p) (op1.eval ρ p) =
      f (c.eval ρ p) (basic_op.apply (a.eval ρ p) (b.eval ρ p)) := by
  have hbasic : ∀ op k x y, isBasicBinaryOp op = some (k, x, y) →
      op.eval ρ p = k.apply (x.eval ρ p) (y.eval ρ p) := by
    intro op k x y hop
    cases op <;> simp only [isBasicBinaryOp, Option.some.injEq, Prod.mk.injEq, reduceCtorEq] at hop
    all_goals
      obtain ⟨rfl, rfl, rfl⟩ := hop
      rfl
  unfold triviallyFoldBasicBinOp at h
  cases h0 : isBasicBinaryOp op0 with
  | some t =>
    obtain ⟨k, x, y⟩ := t
    simp only [h0, Option.some.injEq, Prod.mk.injEq] at h
    obtain ⟨rfl, rfl, rfl, rfl⟩ := h
    rw [hbasic _ _ _ _ h0]
    exact hcomm _ _
  | none =>
    cases h1 : isBasicBinaryOp op1 with
    | none => simp [h0, h1] at h
    | some t =>
      obtain ⟨k, x, y⟩ := t
      simp only [h0, h1, Option.some.injEq, Prod.mk.injEq] at h
      obtain ⟨rfl, rfl, rfl, rfl⟩ := h
      rw [hbasic _ _ _ _ h1]

/-- A ternary statement made of the operands of one operand and the other operand. -/
theorem map_basicBinOp_eval {f : Bool → Bool → Bool} (hcomm : ∀ x y, f x y = f y x)
    {make : BasicOp × PabloAST × PabloAST × PabloAST → PabloAST}
    (hmake : ∀ k a b c p, (make (k, a, b, c)).eval ρ p =
      f (c.eval ρ p) (k.apply (a.eval ρ p) (b.eval ρ p)))
    (h : (triviallyFoldBasicBinOp op0 op1).map make = some e) :
    e.eval ρ = fun p ↦ f (op0.eval ρ p) (op1.eval ρ p) := by
  obtain ⟨t, hbasic, rfl⟩ := Option.map_eq_some_iff.mp h
  obtain ⟨k, a, b, c⟩ := t
  funext p
  rw [hmake, triviallyFoldBasicBinOp_eval hbasic f hcomm p]

theorem sortOperands_apply (h : Heap) (f : Bool → Bool → Bool) (hcomm : ∀ x y, f x y = f y x)
    (p : ℕ) : f ((sortOperands h op0 op1).1.eval ρ p) ((sortOperands h op0 op1).2.eval ρ p) =
      f (op0.eval ρ p) (op1.eval ρ p) := by
  unfold sortOperands
  split_ifs
  · exact hcomm _ _
  · rfl

theorem triviallyFoldAnd_eval (h : triviallyFoldAnd block op0 op1 = some e) :
    e.eval ρ = fun p ↦ op0.eval ρ p && op1.eval ρ p := by
  rcases Option.or_eq_some_iff.mp h with hfolded | ⟨-, hternary⟩
  · refine triviallyFoldBinaryAndOr_eval Bool.and_comm Bool.and_self ?_ ?_ ?_ hfolded
    · intro x p
      simp [PabloAST.eval]
    · intro op hop x p
      simp [eval_of_isZeroes hop]
    · intro op hop x p
      simp [eval_of_isOnes hop]
  · split_ifs at hternary with huse
    rw [map_basicBinOp_eval Bool.and_comm ?_ hternary]
    · funext p
      exact sortOperands_apply block.heap and Bool.and_comm p
    · intro k a b c p
      cases k with
      | And => exact congrFun (block_eval _ (f := fun x y z ↦ x && (y && z)) (by decide)) p
      | Or => exact congrFun (block_eval _ (f := fun x y z ↦ x && (y || z)) (by decide)) p
      | Xor => exact congrFun (block_eval _ (f := fun x y z ↦ x && (y ^^ z)) (by decide)) p

theorem triviallyFoldOr_eval (h : triviallyFoldOr block op0 op1 = some e) :
    e.eval ρ = fun p ↦ op0.eval ρ p || op1.eval ρ p := by
  rcases Option.or_eq_some_iff.mp h with hfolded | ⟨-, hternary⟩
  · refine triviallyFoldBinaryAndOr_eval Bool.or_comm Bool.or_self ?_ ?_ ?_ hfolded
    · intro x p
      simp [PabloAST.eval]
    · intro op hop x p
      simp [eval_of_isOnes hop]
    · intro op hop x p
      simp [eval_of_isZeroes hop]
  · split_ifs at hternary with huse
    rw [map_basicBinOp_eval Bool.or_comm ?_ hternary]
    · funext p
      exact sortOperands_apply block.heap or Bool.or_comm p
    · intro k a b c p
      cases k with
      | And => exact congrFun (block_eval _ (f := fun x y z ↦ x || (y && z)) (by decide)) p
      | Or => exact congrFun (block_eval _ (f := fun x y z ↦ x || (y || z)) (by decide)) p
      | Xor => exact congrFun (block_eval _ (f := fun x y z ↦ x || (y ^^ z)) (by decide)) p

end Boolean

section Xor

variable {block : FoldBlock} {ρ : Assignment} {e op0 op1 stmt : PabloAST} {s : XorScan}

/-- What a scan stands for. -/
def XorScan.value (ρ : Assignment) (s : XorScan) (p : ℕ) : Bool :=
  s.negated ^^ match s.expr with
    | some expr => expr.eval ρ p
    | none => s.op.1.eval ρ p ^^ s.op.2.eval ρ p

/-- A constant in one operand and a constant or a negation in the other: the other operand is taken
before it is looked at, or after. -/
def Interferes (op0 op1 : PabloAST) : Bool :=
  op0 ≠ op1 && (op0.isOnes && (op1.castNot.isSome || op1.isZeroes || op1.isOnes) ||
    op0.isZeroes && op1.castNot.isSome)

theorem foldXorOperands_eval (type : ℕ) (s : XorScan) :
    (foldXorOperands block type s).eval ρ = s.value ρ := by
  have hneg : ∀ expr : PabloAST, (if s.negated then
      (triviallyFoldNot block expr).getD (block.createNot expr) else expr).eval ρ =
        fun p ↦ s.negated ^^ expr.eval ρ p := by
    intro expr
    cases s.negated with
    | true => simpa using negated_eval block expr
    | false => simp
  unfold foldXorOperands XorScan.value
  cases s.expr with
  | some expr => exact hneg expr
  | none =>
    simp only
    by_cases hsame : s.op.1 = s.op.2
    · rw [if_pos hsame]
      funext p
      cases s.negated <;> simp [hsame, PabloAST.eval]
    · rw [if_neg hsame]
      refine (hneg _).trans (funext fun p ↦ ?_)
      exact congrArg (s.negated ^^ ·) (sortOperands_apply block.heap xor Bool.xor_comm p)

/-- The scan without the constant in front stands for the statement. -/
theorem scan_value (hinter : Interferes op0 op1 = false) (hne : op0 ≠ op1) (p : ℕ) :
    ((XorScan.first op0 op1).second).value ρ p = (op0.eval ρ p ^^ op1.eval ρ p) := by
  simp only [Interferes, hne, ne_eq, not_false_eq_true, decide_true, Bool.true_and,
    Bool.or_eq_false_iff, Bool.and_eq_false_iff] at hinter
  obtain ⟨hones, hzeroes⟩ := hinter
  unfold XorScan.first
  cases h0 : op0.castNot with
  | some x =>
    obtain ⟨i, rfl⟩ := PabloAST.castNot_eq_some.mp h0
    unfold XorScan.second
    cases h1 : op1.castNot with
    | some y =>
      obtain ⟨j, rfl⟩ := PabloAST.castNot_eq_some.mp h1
      simp [XorScan.value, PabloAST.eval]
    | none =>
      simp only
      split_ifs with hconst
      · rcases Bool.or_eq_true_iff.mp hconst with hz | ho
        · have hno : op1.isOnes = false := by
            obtain ⟨type, rfl⟩ := PabloAST.isZeroes_iff.mp hz
            rfl
          simp [XorScan.value, PabloAST.eval, eval_of_isZeroes hz, hno]
        · simp [XorScan.value, PabloAST.eval, eval_of_isOnes ho, ho]
      · simp [XorScan.value, PabloAST.eval]
  | none =>
    simp only
    split_ifs with hconst
    · unfold XorScan.second
      rcases Bool.or_eq_true_iff.mp hconst with hz | ho
      · have hno : op0.isOnes = false := by
          obtain ⟨type, rfl⟩ := PabloAST.isZeroes_iff.mp hz
          rfl
        have h1 : op1.castNot = none := by
          simpa [hz] using hzeroes
        simp only [h1, hno]
        split_ifs with hconst1
        · simp only [XorScan.value, eval_of_isZeroes hz]
          rcases Bool.or_eq_true_iff.mp hconst1 with hz1 | ho1
          · have hno1 : op1.isOnes = false := by
              obtain ⟨type, rfl⟩ := PabloAST.isZeroes_iff.mp hz1
              rfl
            simp [hno1, eval_of_isZeroes hz1]
          · simp [ho1, eval_of_isOnes ho1]
        · simp [XorScan.value, eval_of_isZeroes hz]
      · have hothers : (op1.castNot = none ∧ op1.isZeroes = false) ∧ op1.isOnes = false := by
          simpa [ho] using hones
        simp only [hothers.1.1, hothers.1.2, hothers.2, Bool.or_self, Bool.false_eq_true,
          if_false, XorScan.value, ho, eval_of_isOnes ho]
    · unfold XorScan.second
      cases h1 : op1.castNot with
      | some y =>
        obtain ⟨j, rfl⟩ := PabloAST.castNot_eq_some.mp h1
        simp [XorScan.value, PabloAST.eval]
      | none =>
        simp only
        split_ifs with hconst1
        · rcases Bool.or_eq_true_iff.mp hconst1 with hz1 | ho1
          · have hno1 : op1.isOnes = false := by
              obtain ⟨type, rfl⟩ := PabloAST.isZeroes_iff.mp hz1
              rfl
            simp [XorScan.value, hno1, eval_of_isZeroes hz1]
          · simp [XorScan.value, ho1, eval_of_isOnes ho1]
        · simp [XorScan.value]

/-- Without interference a replacement has the value of the statement. -/
theorem triviallyFoldXor_eval (hinter : Interferes op0 op1 = false)
    (h : triviallyFoldXor block stmt op0 op1 = some e) :
    e.eval ρ = fun p ↦ op0.eval ρ p ^^ op1.eval ρ p := by
  unfold triviallyFoldXor at h
  by_cases hsame : op0 = op1
  · rw [if_pos hsame] at h
    obtain rfl := Option.some.inj h
    funext p
    simp [hsame, PabloAST.eval]
  · rw [if_neg hsame] at h
    have hexpr : (foldXorOperands block op0.getType (XorScan.first op0 op1).second).eval ρ =
        fun p ↦ op0.eval ρ p ^^ op1.eval ρ p := by
      rw [foldXorOperands_eval]
      exact funext (scan_value hinter hsame)
    simp only at h
    split_ifs at h with hun hearly hequal
    · obtain rfl := Option.some.inj h
      exact hexpr
    · cases hbasic : triviallyFoldBasicBinOp op0 op1 with
      | none =>
        rw [hbasic] at h
        obtain rfl := Option.some.inj h
        exact hexpr
      | some t =>
        obtain ⟨k, a, b, c⟩ := t
        rw [hbasic] at h
        funext p
        rw [triviallyFoldBasicBinOp_eval hbasic xor Bool.xor_comm p]
        cases k with
        | And =>
          obtain rfl := Option.some.inj h
          exact congrFun (block_eval _ (f := fun x y z ↦ x ^^ (y && z)) (by decide)) p
        | Or =>
          obtain rfl := Option.some.inj h
          exact congrFun (block_eval _ (f := fun x y z ↦ x ^^ (y || z)) (by decide)) p
        | Xor =>
          obtain rfl := Option.some.inj h
          exact congrFun (block_eval _ (f := fun x y z ↦ x ^^ (y ^^ z)) (by decide)) p
    · obtain rfl := Option.some.inj h
      exact hexpr

/-- The four ways to interfere. -/
theorem interferes_cases (h : Interferes op0 op1 = true) :
    (∃ type i x, op0 = .Ones type ∧ op1 = .Not i x) ∨
    (∃ type u, op0 = .Ones type ∧ op1 = .Zeroes u) ∨
    (∃ type u, op0 = .Ones type ∧ op1 = .Ones u ∧ type ≠ u) ∨
    ∃ type i x, op0 = .Zeroes type ∧ op1 = .Not i x := by
  cases op0 with
  | Ones type =>
    cases op1 with
    | Not i x => exact .inl ⟨type, i, x, rfl, rfl⟩
    | Zeroes u => exact .inr (.inl ⟨type, u, rfl, rfl⟩)
    | Ones u =>
      refine .inr (.inr (.inl ⟨type, u, rfl, rfl, ?_⟩))
      rintro rfl
      simp [Interferes] at h
    | _ => simp [Interferes, PabloAST.isOnes, PabloAST.isZeroes, PabloAST.castNot] at h
  | Zeroes type =>
    cases op1 with
    | Not i x => exact .inr (.inr (.inr ⟨type, i, x, rfl, rfl⟩))
    | _ => simp [Interferes, PabloAST.isOnes, PabloAST.isZeroes, PabloAST.castNot] at h
  | _ => simp [Interferes, PabloAST.isOnes, PabloAST.isZeroes] at h

/-- A statement is never taken for an expression under its operands. -/
theorem equals_xor_under (h : Heap) (addr i type : ℕ) (x : PabloAST) :
    equals h x (.Xor addr (.Zeroes type) (.Not i x)) = false := by
  cases x with
  | Xor j e1 e2 =>
    have hsize : (PabloAST.Not i (.Xor j e1 e2)) ≠ e1 ∧ PabloAST.Not i (.Xor j e1 e2) ≠ e2 := by
      constructor
      all_goals
        intro heq
        have := congrArg sizeOf heq
        simp only [PabloAST.Not.sizeOf_spec, PabloAST.Xor.sizeOf_spec] at this
        omega
    have hself : PabloAST.Xor j e1 e2 ≠ .Xor addr (.Zeroes type) (.Not i (.Xor j e1 e2)) := by
      intro heq
      exact hsize.2 (PabloAST.Xor.inj heq).2.2.symm
    have hsorted : sortOperands h e1 e2 ≠
        sortOperands h (.Zeroes type) (.Not i (.Xor j e1 e2)) := by
      intro heq
      unfold sortOperands at heq
      split_ifs at heq <;> simp only [Prod.mk.injEq] at heq
      · exact hsize.2 heq.1.symm
      · exact hsize.1 heq.2.symm
      · exact hsize.1 heq.1.symm
      · exact hsize.2 heq.2.symm
    simp [equals, hself, hsorted]
  | _ => simp [equals]

/-- With interference the value of the replacement is the opposite everywhere. -/
theorem triviallyFoldXor_interferes (block : FoldBlock) (ρ : Assignment) (addr : ℕ)
    (hinter : Interferes op0 op1 = true) :
    ∃ e, triviallyFoldXor block (.Xor addr op0 op1) op0 op1 = some e ∧
      e.eval ρ = fun p ↦ !(op0.eval ρ p ^^ op1.eval ρ p) := by
  rcases interferes_cases hinter with ⟨type, i, x, rfl, rfl⟩ | ⟨type, u, rfl, rfl⟩ |
    ⟨type, u, rfl, rfl, hne⟩ | ⟨type, i, x, rfl, rfl⟩
  · refine ⟨.Not i x, ?_, by simp [PabloAST.eval]⟩
    simp [triviallyFoldXor, XorScan.first, XorScan.second, foldXorOperands, PabloAST.castNot,
      PabloAST.isOnes, PabloAST.isZeroes, equals]
  · refine ⟨.Zeroes type, ?_, by simp [PabloAST.eval]⟩
    simp [triviallyFoldXor, XorScan.first, XorScan.second, foldXorOperands, PabloAST.castNot,
      PabloAST.isOnes, PabloAST.isZeroes, equals, triviallyFoldNot]
  · refine ⟨.Ones type, ?_, by simp [PabloAST.eval]⟩
    simp [triviallyFoldXor, XorScan.first, XorScan.second, foldXorOperands, PabloAST.castNot,
      PabloAST.isOnes, PabloAST.isZeroes, equals, hne]
  · refine ⟨x, ?_, by simp [PabloAST.eval]⟩
    simp [triviallyFoldXor, XorScan.first, XorScan.second, foldXorOperands, PabloAST.castNot,
      PabloAST.isOnes, PabloAST.isZeroes, equals_xor_under, triviallyFoldNot]

end Xor

section Sel

variable {block : FoldBlock} {ρ : Assignment} {e condition trueExpr falseExpr value : PabloAST}

/-- No fold negates this expression. -/
def Unfolded (block : FoldBlock) : PabloAST → Bool
  | .Not _ _ => false
  | .Zeroes _ => false
  | .Ones _ => false
  | .Ternary _ _ _ _ _ => !block.UseTernaryOptimizations
  | _ => true

/-- The negation of the condition is used where no fold negates it. -/
def NullNegation (block : FoldBlock) (condition trueExpr falseExpr : PabloAST) : Bool :=
  Unfolded block condition && (trueExpr.isZeroes || !trueExpr.isOnes && falseExpr.isOnes)

theorem triviallyFoldNot_eq_none : triviallyFoldNot block value = none ↔ Unfolded block value := by
  cases value with
  | Ternary addr mask a b c => simp [triviallyFoldNot, Unfolded]
  | _ => simp [triviallyFoldNot, Unfolded]

theorem isZeroes_and_isOnes_of_unfolded (h : Unfolded block value) :
    value.isZeroes = false ∧ value.isOnes = false := by
  cases value with
  | Zeroes type => simp [Unfolded] at h
  | Ones type => simp [Unfolded] at h
  | _ => exact ⟨rfl, rfl⟩

/-- A statement of two operands, the second the negation of a condition. -/
theorem foldWith_negated {create : PabloAST → PabloAST → Option PabloAST} {op0 : PabloAST} :
    (∃ result, foldWith create op0 (triviallyFoldNot block condition) = .ok result) ↔
      Unfolded block condition = false := by
  cases h : triviallyFoldNot block condition with
  | none => simp [foldWith, triviallyFoldNot_eq_none.mp h]
  | some negCond =>
    have hfolded : Unfolded block condition = false := by
      rw [Bool.eq_false_iff]
      intro hun
      rw [triviallyFoldNot_eq_none.mpr hun] at h
      cases h
    simp [foldWith, hfolded]

theorem triviallyFoldSel_ok : (∃ result,
    triviallyFoldSel block condition trueExpr falseExpr = .ok result) ↔
      NullNegation block condition trueExpr falseExpr = false := by
  have hconst : condition.isZeroes ∨ condition.isOnes → Unfolded block condition = false := by
    intro hc
    rw [Bool.eq_false_iff]
    intro hun
    obtain ⟨hz, ho⟩ := isZeroes_and_isOnes_of_unfolded hun
    simp [hz, ho] at hc
  unfold triviallyFoldSel NullNegation
  split_ifs with hz ho htz hto hfz hfo
  · simp [hconst (.inl hz)]
  · simp [hconst (.inr ho)]
  · simp only [foldWith_negated, htz, Bool.true_or, Bool.and_true]
  · simp [hto, htz]
  · have hfo : falseExpr.isOnes = false := by
      obtain ⟨type, rfl⟩ := PabloAST.isZeroes_iff.mp hfz
      rfl
    simp [htz, hfo]
  · simp only [foldWith_negated, htz, hto, hfo, Bool.not_false, Bool.or_true, Bool.and_true]
  · simp [htz, hfo]

theorem triviallyFoldSel_eval
    (h : triviallyFoldSel block condition trueExpr falseExpr = .ok (some e)) :
    e.eval ρ = fun p ↦ bif condition.eval ρ p then trueExpr.eval ρ p else falseExpr.eval ρ p := by
  have hnegated : ∀ {create : PabloAST → PabloAST → Option PabloAST} {op0 : PabloAST},
      foldWith create op0 (triviallyFoldNot block condition) = .ok (some e) →
        ∃ negCond, (negCond.eval ρ = fun p ↦ !condition.eval ρ p) ∧
          create op0 negCond = some e := by
    intro create op0 hfold
    cases hn : triviallyFoldNot block condition with
    | none =>
      rw [hn] at hfold
      cases hfold
    | some negCond =>
      rw [hn] at hfold
      exact ⟨negCond, triviallyFoldNot_eval hn, Except.ok.inj hfold⟩
  unfold triviallyFoldSel at h
  split_ifs at h with hz ho htz hto hfz hfo
  · obtain rfl := Option.some.inj (Except.ok.inj h)
    simp [eval_of_isZeroes hz]
  · obtain rfl := Option.some.inj (Except.ok.inj h)
    simp [eval_of_isOnes ho]
  · obtain ⟨negCond, hvalue, hand⟩ := hnegated h
    rw [triviallyFoldAnd_eval hand]
    funext p
    simp only [hvalue, eval_of_isZeroes htz]
    cases condition.eval ρ p <;> simp
  · rw [triviallyFoldOr_eval (Except.ok.inj h)]
    funext p
    rw [eval_of_isOnes hto]
    cases condition.eval ρ p <;> simp
  · rw [triviallyFoldAnd_eval (Except.ok.inj h)]
    funext p
    rw [eval_of_isZeroes hfz]
    cases condition.eval ρ p <;> simp
  · obtain ⟨negCond, hvalue, hor⟩ := hnegated h
    rw [triviallyFoldOr_eval hor]
    funext p
    simp only [hvalue, eval_of_isOnes hfo]
    cases condition.eval ρ p <;> simp
  · cases h

end Sel

section Streams

variable {integer : PabloAST → Option ℕ} {ρ : Assignment} {e : PabloAST}

/-- An amount of zero, or nothing to shift. -/
theorem shift_eval {stmt : BinaryStatement} (shift : ℕ → Stream → Stream) {type : ℕ}
    {expr amount : PabloAST} (hzero : ∀ x, shift 0 x = x)
    (hzeroes : ∀ n, shift n (fun _ ↦ false) = fun _ ↦ false)
    (hshift : ∀ n, integer amount = some n → ∀ x, ρ.binary stmt type x (amount.eval ρ) = shift n x)
    (h : ((integer amount).bind fun n ↦ if expr.isZeroes || n = 0 then some expr else none) =
      some e) : e.eval ρ = ρ.binary stmt type (expr.eval ρ) (amount.eval ρ) := by
  obtain ⟨n, hn, hfold⟩ := Option.bind_eq_some_iff.mp h
  rw [hshift n hn]
  simp only [Option.ite_none_right_eq_some, Option.some.injEq, Bool.or_eq_true,
    decide_eq_true_eq] at hfold
  obtain ⟨hz | rfl, rfl⟩ := hfold
  · rw [eval_of_isZeroes hz, hzeroes]
  · rw [hzero]

theorem triviallyFoldScanThru_eval (hdoc : Documented integer ρ) {type : ℕ}
    {scanFrom scanThruExpr : PabloAST}
    (h : triviallyFoldScanThru type scanFrom scanThruExpr = some e) :
    e.eval ρ = scanThru (scanFrom.eval ρ) (scanThruExpr.eval ρ) := by
  unfold triviallyFoldScanThru at h
  split_ifs at h with hzero hones
  · obtain rfl := Option.some.inj h
    rcases Bool.or_eq_true_iff.mp hzero with hfrom | hthru
    · rw [eval_of_isZeroes hfrom, scanThru_zeroes_left]
    · rw [eval_of_isZeroes hthru, scanThru_zeroes_right]
  · obtain rfl := Option.some.inj h
    rw [eval_of_isOnes hones, scanThru_ones]
    rfl
  · cases hcast : castScanThru scanFrom with
    | none =>
      rw [hcast] at h
      cases h
    | some nested =>
      rw [hcast] at h
      simp only [Option.ite_none_right_eq_some, Option.some.injEq] at h
      obtain ⟨rfl, rfl⟩ := h
      have hnested : scanFrom.eval ρ = scanThru (nested.1.eval ρ) (nested.2.eval ρ) := by
        unfold castScanThru at hcast
        split at hcast
        · obtain rfl := Option.some.inj hcast
          exact hdoc.scanThru _ _ _
        · cases hcast
      rw [hnested, scanThru_scanThru]

theorem triviallyFoldMatchStar_eval {type : ℕ} {marker charClass : PabloAST}
    (h : triviallyFoldMatchStar type marker charClass = some e) :
    e.eval ρ = matchStar (marker.eval ρ) (charClass.eval ρ) := by
  unfold triviallyFoldMatchStar at h
  split_ifs at h with hzero hones
  · obtain rfl := Option.some.inj h
    rcases Bool.or_eq_true_iff.mp hzero with hmarker | hclass
    · rw [eval_of_isZeroes hmarker, matchStar_zeroes_left]
    · rw [eval_of_isZeroes hclass, matchStar_zeroes_right]
  · obtain rfl := Option.some.inj h
    rw [eval_of_isOnes hones, matchStar_ones]
    rfl

end Streams

section Exactness

variable {block : FoldBlock} {integer : PabloAST → Option ℕ} {ρ : Assignment} {stmt : PabloAST}

/-- The statements that a fold changes the value of, or for which it creates a statement with a null
operand. -/
def Mishandled (block : FoldBlock) : PabloAST → Bool
  | .Xor _ op0 op1 => Interferes op0 op1
  | .Sel _ condition trueExpr falseExpr => NullNegation block condition trueExpr falseExpr
  | _ => false

/-- The fold ends, and a replacement has the value of the statement. -/
def Faithful (ρ : Assignment) (stmt : PabloAST) (fold : Fold) : Prop :=
  ∃ result, fold = .ok result ∧ ∀ e ∈ result, e.eval ρ = stmt.eval ρ

theorem faithful_ok {result : Option PabloAST} (h : ∀ e, result = some e → e.eval ρ = stmt.eval ρ) :
    Faithful ρ stmt (.ok result) :=
  ⟨result, rfl, fun e he ↦ h e he⟩

theorem triviallyFoldXor_faithful (addr : ℕ) (op0 op1 : PabloAST) :
    Faithful ρ (.Xor addr op0 op1)
      (.ok (triviallyFoldXor block (.Xor addr op0 op1) op0 op1)) ↔ Interferes op0 op1 = false := by
  constructor
  · rintro ⟨result, hok, hvalue⟩
    obtain rfl := Except.ok.inj hok
    rw [Bool.eq_false_iff]
    intro hinter
    obtain ⟨e, hfold, heval⟩ := triviallyFoldXor_interferes block ρ addr hinter
    have hsame := congrFun ((hvalue e hfold).symm.trans heval) 0
    simp only [PabloAST.eval] at hsame
    cases h : (op0.eval ρ 0 ^^ op1.eval ρ 0) <;> simp [h] at hsame
  · intro hinter
    exact faithful_ok fun e he ↦ triviallyFoldXor_eval hinter he

theorem triviallyFoldSel_faithful (addr : ℕ) (condition trueExpr falseExpr : PabloAST) :
    Faithful ρ (.Sel addr condition trueExpr falseExpr)
      (triviallyFoldSel block condition trueExpr falseExpr) ↔
        NullNegation block condition trueExpr falseExpr = false := by
  rw [← triviallyFoldSel_ok]
  constructor
  · rintro ⟨result, hok, -⟩
    exact ⟨result, hok⟩
  · rintro ⟨result, hok⟩
    refine ⟨result, hok, ?_⟩
    intro e he
    obtain rfl : result = some e := he
    exact triviallyFoldSel_eval hok

theorem triviallyFold_faithful (hdoc : Documented integer ρ) (h : Mishandled block stmt = false) :
    Faithful ρ stmt (triviallyFold block integer stmt) := by
  cases stmt with
  | Not addr value => exact faithful_ok fun e he ↦ triviallyFoldNot_eval he
  | And addr op0 op1 => exact faithful_ok fun e he ↦ triviallyFoldAnd_eval he
  | Or addr op0 op1 => exact faithful_ok fun e he ↦ triviallyFoldOr_eval he
  | Xor addr op0 op1 => exact (triviallyFoldXor_faithful addr op0 op1).mpr h
  | Sel addr condition trueExpr falseExpr =>
    exact (triviallyFoldSel_faithful addr condition trueExpr falseExpr).mpr h
  | Binary addr binary type expr1 expr2 =>
    have hnone : Faithful ρ (.Binary addr binary type expr1 expr2) (.ok none) := by
      apply faithful_ok
      intro e he
      cases he
    cases binary with
    | Advance =>
      apply faithful_ok
      intro e he
      refine shift_eval advance (fun x ↦ ?_) (fun n ↦ ?_)
        (fun n hn x ↦ hdoc.advance _ n hn type x) he
      · funext p
        simp [advance]
      · funext p
        simp [advance]
    | Lookahead =>
      apply faithful_ok
      intro e he
      exact shift_eval (fun n x p ↦ x (p + n)) (fun _ ↦ rfl) (fun _ ↦ rfl)
        (fun n hn x ↦ hdoc.lookahead _ n hn type x) he
    | ScanThru =>
      apply faithful_ok
      intro e he
      exact (triviallyFoldScanThru_eval hdoc he).trans (hdoc.scanThru _ _ _).symm
    | MatchStar =>
      apply faithful_ok
      intro e he
      exact (triviallyFoldMatchStar_eval he).trans (hdoc.matchStar _ _ _).symm
    | _ => exact hnone
  | _ =>
    apply faithful_ok
    intro e he
    cases he

/-- A fold ends with a replacement of the same value, or with none, exactly on the statements that
are not mishandled. -/
theorem triviallyFold_exact (hdoc : Documented integer ρ) :
    Faithful ρ stmt (triviallyFold block integer stmt) ↔ Mishandled block stmt = false := by
  constructor
  · intro hfold
    cases stmt with
    | Xor addr op0 op1 => exact (triviallyFoldXor_faithful addr op0 op1).mp hfold
    | Sel addr condition trueExpr falseExpr =>
      exact (triviallyFoldSel_faithful addr condition trueExpr falseExpr).mp hfold
    | _ => rfl
  · exact triviallyFold_faithful hdoc

/-- The only integer is at address 0, with the value 3. -/
def shiftByThree : PabloAST → Option ℕ
  | .Leaf 0 _ => some 3
  | _ => none

/-- Address 1 has every second position. -/
def everySecond : Assignment where
  leaf addr p := addr == 1 && p % 2 == 0
  unary _ _ x := x
  binary stmt _ x y :=
    match stmt with
    | .Advance => advance 3 x
    | .Lookahead => fun p ↦ x (p + 3)
    | .ScanThru => scanThru x y
    | .MatchStar => matchStar x y
    | _ => x
  indexedAdvance x _ _ := x
  intrinsic _ _ x _ := x

theorem shiftByThree_eq_some {amount : PabloAST} {n : ℕ} (h : shiftByThree amount = some n) :
    n = 3 := by
  unfold shiftByThree at h
  split at h
  · exact (Option.some.inj h).symm
  · cases h

theorem documented_everySecond : Documented shiftByThree everySecond where
  advance amount n hn type x := by
    obtain rfl := shiftByThree_eq_some hn
    rfl
  lookahead amount n hn type x := by
    obtain rfl := shiftByThree_eq_some hn
    rfl
  scanThru _ _ _ := rfl
  matchStar _ _ _ := rfl

def plainBlock : FoldBlock where
  UseTernaryOptimizations := false
  heap := ⟨fun _ _ ↦ false, fun _ ↦ 7⟩
  address _ := 8

theorem triviallyFold_exact_negated :
    Documented shiftByThree everySecond ∧
      (Faithful everySecond (.Xor 3 (.Not 2 (.Leaf 1 1)) (.Ones 1))
          (triviallyFold plainBlock shiftByThree (.Xor 3 (.Not 2 (.Leaf 1 1)) (.Ones 1))) ↔
        Mishandled plainBlock (.Xor 3 (.Not 2 (.Leaf 1 1)) (.Ones 1)) = false) :=
  ⟨documented_everySecond, triviallyFold_exact documented_everySecond⟩

/-- The negation of `¬x` is given for `1 ^ ¬x`, and a plain condition is negated to null. -/
theorem triviallyFold_unfaithful :
    Documented shiftByThree everySecond ∧
      ¬ Faithful everySecond (.Xor 3 (.Ones 1) (.Not 2 (.Leaf 1 1)))
        (triviallyFold plainBlock shiftByThree (.Xor 3 (.Ones 1) (.Not 2 (.Leaf 1 1)))) ∧
      triviallyFold plainBlock shiftByThree (.Sel 3 (.Leaf 1 1) (.Zeroes 1) (.Leaf 2 1)) =
        .error .nullOperand := by
  refine ⟨documented_everySecond, ?_, rfl⟩
  intro hfold
  have hinter := (triviallyFoldXor_faithful 3 (.Ones 1) (.Not 2 (.Leaf 1 1))).mp hfold
  simp [Interferes, PabloAST.isOnes, PabloAST.castNot] at hinter

end Exactness

end Parabix.Pablo
