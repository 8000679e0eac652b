import Parabix.Library.Spread
import Parabix.Pablo.FoldsExact

namespace Parabix.Pablo

open Library Library.BitStream

/-- What a new statement on streams is looked up by in the table of expressions. -/
inductive StatementKey where
  | Unary (stmt : UnaryStatement) (expr : PabloAST)
  | Binary (stmt : BinaryStatement) (expr1 expr2 : PabloAST)
  | IndexedAdvance (expr indexStream shiftAmount : PabloAST)

/-- The integers of a kernel, and the address of the statement that the table of expressions holds
for a key, or is given for it under a name. -/
structure SymbolTable where
  getInteger : ℕ → PabloAST
  value : PabloAST → Option ℕ
  value_getInteger (n : ℕ) (h : n < 2 ^ 64) : value (getInteger n) = some n
  findOrCall : StatementKey → Option String → ℕ

/-- An expression that is an integer, with its value. -/
structure IntegerNode (table : SymbolTable) where
  node : PabloAST
  value : ℕ
  isInteger : table.value node = some value

def isInFile : PabloAST → Bool
  | .Unary _ .InFile _ _ => true
  | _ => false

section StatementConstructors

variable (table : SymbolTable)

def makeUnary (stmt : UnaryStatement) (expr : PabloAST) (pre : Option String) : PabloAST :=
  .Unary (table.findOrCall (.Unary stmt expr) pre) stmt expr.getType expr

def makeBinary (stmt : BinaryStatement) (expr1 expr2 : PabloAST) (pre : Option String) :
    PabloAST :=
  .Binary (table.findOrCall (.Binary stmt expr1 expr2) pre) stmt expr1.getType expr1 expr2

def makeIndexedAdvance (expr indexStream shiftAmount : PabloAST) (pre : Option String) :
    PabloAST :=
  .IndexedAdvance (table.findOrCall (.IndexedAdvance expr indexStream shiftAmount) pre) expr
    indexStream shiftAmount

def integerOne : IntegerNode table :=
  ⟨table.getInteger 1, 1, table.value_getInteger 1 (by decide)⟩

/-- The constructor without a name has the same body as the one with a name, here and below. -/
def createAdvance (expr : PabloAST) (shiftAmount : IntegerNode table) (pre : Option String) :
    PabloAST :=
  if expr.isZeroes || shiftAmount.value = 0 then
    expr
  else
    makeBinary table .Advance expr shiftAmount.node pre

def createLookahead (expr : PabloAST) (shiftAmount : IntegerNode table) (pre : Option String) :
    PabloAST :=
  if expr.isZeroes || shiftAmount.value = 0 then
    expr
  else
    makeBinary table .Lookahead expr shiftAmount.node pre

def createInFile (expr : PabloAST) (pre : Option String) : PabloAST :=
  if isInFile expr || expr.isZeroes then
    expr
  else
    makeUnary table .InFile expr pre

def createMatchStar (marker charclass : PabloAST) (pre : Option String) : PabloAST :=
  if marker.isZeroes || charclass.isZeroes then
    marker
  else
    makeBinary table .MatchStar marker charclass pre

def createScanThru (from_ thru : PabloAST) (pre : Option String) : PabloAST :=
  if from_.isZeroes || thru.isZeroes then
    from_
  else
    makeBinary table .ScanThru from_ thru pre

def createScanTo (from_ to_ : PabloAST) (pre : Option String) : PabloAST :=
  if from_.isZeroes || to_.isOnes then
    from_
  else
    makeBinary table .ScanTo from_ to_ pre

def createAdvanceThenScanThru (from_ thru : PabloAST) (pre : Option String) : PabloAST :=
  if from_.isZeroes then
    from_
  else if thru.isZeroes then
    createAdvance table from_ (integerOne table) pre
  else
    makeBinary table .AdvanceThenScanThru from_ thru pre

def createAdvanceThenScanTo (from_ to_ : PabloAST) (pre : Option String) : PabloAST :=
  if from_.isZeroes then
    from_
  else
    makeBinary table .AdvanceThenScanTo from_ to_ pre

/-- The index stream may be null. -/
def createIndexedAdvance (h : Heap) (fuel : ℕ) (expr : PabloAST) (indexStream : Option PabloAST)
    (shiftAmount : IntegerNode table) : Except Fault PabloAST :=
  if expr.isZeroes || shiftAmount.value = 0 then
    .ok expr
  else
    match indexStream with
    | none => .ok (createAdvance table expr shiftAmount none)
    | some indexStream =>
      if indexStream.isOnes then
        .ok (createAdvance table expr shiftAmount none)
      else if shiftAmount.value = 1 then do
        let and ← createAnd h fuel expr indexStream
        return createAdvanceThenScanTo table and indexStream none
      else
        .ok (makeIndexedAdvance table expr indexStream shiftAmount.node none)

/-- The constructor that is given a name does not restrict the markers to the index. -/
def createNamedIndexedAdvance (expr : PabloAST) (indexStream : Option PabloAST)
    (shiftAmount : IntegerNode table) (pre : String) : PabloAST :=
  if expr.isZeroes || shiftAmount.value = 0 then
    expr
  else
    match indexStream with
    | none => createAdvance table expr shiftAmount (some pre)
    | some indexStream =>
      if indexStream.isOnes then
        createAdvance table expr shiftAmount (some pre)
      else if shiftAmount.value = 1 then
        createAdvanceThenScanTo table expr indexStream (some pre)
      else
        makeIndexedAdvance table expr indexStream shiftAmount.node (some pre)

end StatementConstructors

/-- The operators on integers. -/
inductive Operator where
  | Add
  | Subtract
  | LessThan
  | Equals
deriving DecidableEq, Repr

/-- An expression whose value is an integer: a constant, as it is stored in 64 bits, of a type of
some width, whatever else is no operator, or an operator. -/
inductive ScalarAST where
  | Integer (value : BitVec 64) (intWidth : ℕ)
  | Leaf (addr intWidth : ℕ)
  | Operator (addr : ℕ) (op : Operator) (lh rh : ScalarAST)
deriving DecidableEq, Repr

namespace ScalarAST

/-- The width of the type. A comparison has one bit. -/
def intWidth : ScalarAST → ℕ
  | Integer _ intWidth => intWidth
  | Leaf _ intWidth => intWidth
  | Operator _ .Add lh _ => lh.intWidth
  | Operator _ .Subtract lh _ => lh.intWidth
  | Operator _ .LessThan _ _ => 1
  | Operator _ .Equals _ _ => 1

def castInteger : ScalarAST → Option (BitVec 64)
  | Integer value _ => some value
  | _ => none

end ScalarAST

/-- An operator on two integers of a width, as it is compiled. -/
def Operator.apply (op : Operator) (intWidth lhv rhv : ℕ) : ℕ :=
  match op with
  | .Add => (lhv + rhv) % 2 ^ intWidth
  | .Subtract => (lhv + (2 ^ intWidth - rhv)) % 2 ^ intWidth
  | .LessThan => if lhv < rhv then 1 else 0
  | .Equals => if lhv = rhv then 1 else 0

/-- A constant is cut to the width of its type. -/
def ScalarAST.eval (σ : ℕ → ℕ) : ScalarAST → ℕ
  | .Integer value intWidth => value.toNat % 2 ^ intWidth
  | .Leaf addr intWidth => σ addr % 2 ^ intWidth
  | .Operator _ op lh rh => op.apply lh.intWidth (lh.eval σ) (rh.eval σ)

section OperatorConstructors

/-- An integer is of 64 bits where nothing else is asked for. -/
def getInteger (value : BitVec 64) : ScalarAST := .Integer value 64

variable (findOrCall : Operator → ScalarAST → ScalarAST → ℕ)

def makeOperator (op : Operator) (expr1 expr2 : ScalarAST) : ScalarAST :=
  .Operator (findOrCall op expr1 expr2) op expr1 expr2

def createAdd (expr1 expr2 : ScalarAST) : ScalarAST :=
  match expr1.castInteger, expr2.castInteger with
  | some value1, some value2 => getInteger (value1 + value2)
  | some value1, none => if value1 = 0 then expr2 else makeOperator findOrCall .Add expr1 expr2
  | none, some value2 => if value2 = 0 then expr1 else makeOperator findOrCall .Add expr1 expr2
  | none, none => makeOperator findOrCall .Add expr1 expr2

/-- A zero on the left is left out too. -/
def createSubtract (expr1 expr2 : ScalarAST) : ScalarAST :=
  match expr1.castInteger, expr2.castInteger with
  | some value1, some value2 => getInteger (value1 - value2)
  | some value1, none =>
    if value1 = 0 then expr2 else makeOperator findOrCall .Subtract expr1 expr2
  | none, some value2 =>
    if value2 = 0 then expr1 else makeOperator findOrCall .Subtract expr1 expr2
  | none, none => makeOperator findOrCall .Subtract expr1 expr2

def createLessThan (expr1 expr2 : ScalarAST) : ScalarAST :=
  match expr1.castInteger, expr2.castInteger with
  | some value1, some value2 => getInteger (if value1 < value2 then 1 else 0)
  | _, _ => makeOperator findOrCall .LessThan expr1 expr2

def createEquals (expr1 expr2 : ScalarAST) : ScalarAST :=
  match expr1.castInteger, expr2.castInteger with
  | some value1, some value2 => getInteger (if value1 = value2 then 1 else 0)
  | _, _ => makeOperator findOrCall .Equals expr1 expr2

end OperatorConstructors

section Statements

/-- The value of a statement that is compiled to one addition, for a file of a length. -/
def scanStatement (stmt : ScanStatement) (length : ℕ) (x y : Stream) : Stream := fun p ↦
  stmt.value (x p) (y p) (p == length)
    (sum (fun i ↦ (stmt.addends (x i) (y i) (i == length)).1)
      (fun i ↦ (stmt.addends (x i) (y i) (i == length)).2) false p)

/-- The blocks of the statement have this value, when the end of the file is in its place. -/
theorem evaluate_eq_scanStatement {w length p : ℕ} (hw : 0 < w) (stmt : ScanStatement)
    (es : List (Operands w)) (heof : ∀ q < w * es.length, eofStream es q = (q == length))
    (hp : p < w * es.length) : ofBlocks (evaluate stmt es) p =
      scanStatement stmt length (fromStream es) (toStream es) p := by
  rw [evaluate_eq hw stmt es hp, scanStatement, heof p hp]
  congr 1
  apply sum_congr
  · intro i hi
    rw [firstAddend, heof i (by omega)]
  · intro i hi
    rw [secondAddend, heof i (by omega)]

def inFile (length : ℕ) (x : Stream) : Stream := fun p ↦ x p && decide (p < length)

/-- The markers at index positions, moved on by `n` index positions. -/
def indexedAdvance (n : ℕ) (x index : Stream) : Stream := fun p ↦
  index p && (List.range (p + 1)).any fun q ↦
    index q && x q && rank index q + n == rank index p

/-- The statements on streams mean what they are compiled to. -/
structure Compiled (table : SymbolTable) (length : ℕ) (ρ : Assignment) : Prop
    extends Documented table.value ρ where
  inFile : ∀ type x, ρ.unary .InFile type x = inFile length x
  scanTo : ∀ type x y, ρ.binary .ScanTo type x y = scanStatement .ScanTo length x y
  advanceThenScanThru : ∀ type x y,
    ρ.binary .AdvanceThenScanThru type x y = scanStatement .AdvanceThenScanThru length x y
  advanceThenScanTo : ∀ type x y,
    ρ.binary .AdvanceThenScanTo type x y = scanStatement .AdvanceThenScanTo length x y
  indexedAdvance : ∀ amount n, table.value amount = some n → ∀ x index,
    ρ.indexedAdvance x index (amount.eval ρ) = indexedAdvance n x index

end Statements

section Positions

variable {length p : ℕ} {x y : Stream}

theorem advance_zero (x : Stream) : advance 0 x = x := rfl

theorem advance_zeroes (n : ℕ) : (advance n fun _ ↦ false) = fun _ ↦ false := by
  funext p
  rw [advance, ite_self]

/-- Nothing is carried when one operand is zero at every position. -/
theorem sum_of_apart (h : ∀ p, x p = false ∨ y p = false) : sum x y false p = (x p ^^ y p) := by
  rw [sum, carry_of_apart h, Bool.xor_false]

theorem scanTo_zeroes : scanStatement .ScanTo length (fun _ ↦ false) y = fun _ ↦ false := by
  funext p
  simp only [scanStatement, ScanStatement.addends, ScanStatement.value,
    sum_of_apart fun _ ↦ .inl rfl]
  cases y p <;> cases p == length <;> rfl

theorem scanTo_ones : scanStatement .ScanTo length x (fun _ ↦ true) = x := by
  funext p
  have hsum : sum (fun i ↦ x i) (fun _ ↦ false) false p = x p := by
    rw [sum_of_apart fun _ ↦ .inr rfl, Bool.xor_false]
  simp [scanStatement, ScanStatement.addends, ScanStatement.value, hsum]

/-- The first positions after the markers that are not scanned through. -/
theorem advanceThenScanThru_apply : scanStatement .AdvanceThenScanThru length x y p =
    (!y p && carry x (fun i ↦ x i || y i) false p) := by
  simp only [scanStatement, ScanStatement.addends, ScanStatement.value, sum]
  cases x p <;> cases y p <;> simp

theorem advanceThenScanTo_apply : scanStatement .AdvanceThenScanTo length x y p =
    ((y p || p == length) &&
      carry x (fun i ↦ x i || !(y i || i == length)) false p) := by
  simp only [scanStatement, ScanStatement.addends, ScanStatement.value, sum]
  cases x p <;> cases y p <;> cases p == length <;> simp

theorem carry_zeroes (y : Stream) (p : ℕ) :
    carry (fun _ ↦ false) (fun i ↦ false || y i) false p = false :=
  carry_of_apart (fun _ ↦ .inl rfl) p

theorem advanceThenScanThru_zeroes_left :
    scanStatement .AdvanceThenScanThru length (fun _ ↦ false) y = fun _ ↦ false := by
  funext p
  rw [advanceThenScanThru_apply, carry_zeroes, Bool.and_false]

/-- A marker that has nothing to be scanned through goes to the next position. -/
theorem advanceThenScanThru_zeroes_right :
    scanStatement .AdvanceThenScanThru length x (fun _ ↦ false) = advance 1 x := by
  funext p
  rw [advanceThenScanThru_apply, advance]
  cases p with
  | zero => rfl
  | succ p =>
    rw [carry_succ, if_neg (by omega), Nat.add_sub_cancel]
    cases x p <;> simp

theorem advanceThenScanTo_zeroes :
    scanStatement .AdvanceThenScanTo length (fun _ ↦ false) y = fun _ ↦ false := by
  funext p
  rw [advanceThenScanTo_apply, carry_zeroes fun i ↦ !(y i || i == length), Bool.and_false]

end Positions

section Streams

variable {table : SymbolTable} {length : ℕ} {ρ : Assignment} {x y : PabloAST}
  {n : IntegerNode table} {pre : Option String}

theorem createAdvance_eval (hρ : Compiled table length ρ) :
    (createAdvance table x n pre).eval ρ = advance n.value (x.eval ρ) := by
  unfold createAdvance
  split_ifs with h
  · obtain h | h := (Bool.or_eq_true_iff).1 h
    · rw [eval_of_isZeroes h, advance_zeroes]
    · rw [of_decide_eq_true h, advance_zero]
  · exact hρ.advance n.node n.value n.isInteger _ _

theorem createLookahead_eval (hρ : Compiled table length ρ) :
    (createLookahead table x n pre).eval ρ = fun p ↦ x.eval ρ (p + n.value) := by
  unfold createLookahead
  split_ifs with h
  · obtain h | h := (Bool.or_eq_true_iff).1 h
    · rw [eval_of_isZeroes h]
    · rw [of_decide_eq_true h]
      rfl
  · exact hρ.lookahead n.node n.value n.isInteger _ _

theorem inFile_inFile (length : ℕ) (s : Stream) :
    inFile length (inFile length s) = inFile length s := by
  funext p
  rw [inFile, inFile, Bool.and_assoc, Bool.and_self]

theorem createInFile_eval (hρ : Compiled table length ρ) :
    (createInFile table x pre).eval ρ = inFile length (x.eval ρ) := by
  unfold createInFile
  split_ifs with h
  · obtain h | h := (Bool.or_eq_true_iff).1 h
    · cases x with
      | Unary addr stmt type e =>
        cases stmt with
        | InFile =>
          have heval : (PabloAST.Unary addr .InFile type e).eval ρ = inFile length (e.eval ρ) :=
            hρ.inFile type _
          rw [heval, inFile_inFile]
        | _ => cases h
      | _ => cases h
    · rw [eval_of_isZeroes h]
      rfl
  · exact hρ.inFile _ _

theorem createMatchStar_eval (hρ : Compiled table length ρ) :
    (createMatchStar table x y pre).eval ρ = matchStar (x.eval ρ) (y.eval ρ) := by
  unfold createMatchStar
  split_ifs with h
  · obtain h | h := (Bool.or_eq_true_iff).1 h
    · rw [eval_of_isZeroes h, matchStar_zeroes_left]
    · rw [eval_of_isZeroes h, matchStar_zeroes_right]
  · exact hρ.matchStar _ _ _

theorem createScanThru_eval (hρ : Compiled table length ρ) :
    (createScanThru table x y pre).eval ρ = scanThru (x.eval ρ) (y.eval ρ) := by
  unfold createScanThru
  split_ifs with h
  · obtain h | h := (Bool.or_eq_true_iff).1 h
    · rw [eval_of_isZeroes h, scanThru_zeroes_left]
    · rw [eval_of_isZeroes h, scanThru_zeroes_right]
  · exact hρ.scanThru _ _ _

theorem createScanTo_eval (hρ : Compiled table length ρ) :
    (createScanTo table x y pre).eval ρ =
      scanStatement .ScanTo length (x.eval ρ) (y.eval ρ) := by
  unfold createScanTo
  split_ifs with h
  · obtain h | h := (Bool.or_eq_true_iff).1 h
    · rw [eval_of_isZeroes h, scanTo_zeroes]
    · rw [eval_of_isOnes h, scanTo_ones]
  · exact hρ.scanTo _ _ _

theorem createAdvanceThenScanThru_eval (hρ : Compiled table length ρ) :
    (createAdvanceThenScanThru table x y pre).eval ρ =
      scanStatement .AdvanceThenScanThru length (x.eval ρ) (y.eval ρ) := by
  unfold createAdvanceThenScanThru
  split_ifs with hx hy
  · rw [eval_of_isZeroes hx, advanceThenScanThru_zeroes_left]
  · rw [createAdvance_eval hρ, eval_of_isZeroes hy, advanceThenScanThru_zeroes_right]
    rfl
  · exact hρ.advanceThenScanThru _ _ _

theorem createAdvanceThenScanTo_eval (hρ : Compiled table length ρ) :
    (createAdvanceThenScanTo table x y pre).eval ρ =
      scanStatement .AdvanceThenScanTo length (x.eval ρ) (y.eval ρ) := by
  unfold createAdvanceThenScanTo
  split_ifs with hx
  · rw [eval_of_isZeroes hx, advanceThenScanTo_zeroes]
  · exact hρ.advanceThenScanTo _ _ _

end Streams

section Operators

variable {findOrCall : Operator → ScalarAST → ScalarAST → ℕ} {σ : ℕ → ℕ} {e1 e2 : ScalarAST}
  {value1 value2 : BitVec 64} {w : ℕ}

theorem ScalarAST.castInteger_eq_some {e : ScalarAST} {value : BitVec 64} :
    e.castInteger = some value ↔ e = .Integer value e.intWidth := by
  cases e <;> simp [castInteger, intWidth]

theorem Operator.apply_lt (op : Operator) {lhv rhv : ℕ} (e1 e2 : ScalarAST) (addr : ℕ) :
    op.apply e1.intWidth lhv rhv < 2 ^ (ScalarAST.Operator addr op e1 e2).intWidth := by
  cases op with
  | Add => exact Nat.mod_lt _ (Nat.two_pow_pos _)
  | Subtract => exact Nat.mod_lt _ (Nat.two_pow_pos _)
  | LessThan =>
    simp only [apply, ScalarAST.intWidth]
    split_ifs <;> decide
  | Equals =>
    simp only [apply, ScalarAST.intWidth]
    split_ifs <;> decide

/-- A value fits the width of its type. -/
theorem ScalarAST.eval_lt (σ : ℕ → ℕ) (e : ScalarAST) : e.eval σ < 2 ^ e.intWidth := by
  cases e with
  | Integer value intWidth => exact Nat.mod_lt _ (Nat.two_pow_pos _)
  | Leaf addr intWidth => exact Nat.mod_lt _ (Nat.two_pow_pos _)
  | Operator addr op lh rh => exact op.apply_lt lh rh addr

theorem eval_getInteger (value : BitVec 64) : (getInteger value).eval σ = value.toNat :=
  Nat.mod_eq_of_lt value.isLt

/-- Constants of a width are folded in 64 bits: the result is the one of the width. -/
def Operator.FoldsWithin (op : Operator) (intWidth : ℕ) (value1 value2 : BitVec 64) : Prop :=
  match op with
  | .Add =>
    if intWidth ≤ 64 then (value1 + value2).toNat < 2 ^ intWidth
    else value1.toNat + value2.toNat < 2 ^ 64
  | .Subtract =>
    if intWidth ≤ 64 then (value1 - value2).toNat < 2 ^ intWidth
    else value2 ≤ value1
  | .LessThan => value1 < value2 ↔ value1.toNat % 2 ^ intWidth < value2.toNat % 2 ^ intWidth
  | .Equals => value1 = value2 ↔ value1.toNat % 2 ^ intWidth = value2.toNat % 2 ^ intWidth

/-- Two constants fold within their width, and what is subtracted from a constant zero is its own
negative. -/
def Operator.Keeps (σ : ℕ → ℕ) (op : Operator) (e1 e2 : ScalarAST) : Prop :=
  match e1.castInteger, e2.castInteger with
  | some value1, some value2 => op.FoldsWithin e1.intWidth value1 value2
  | some value1, none => op = .Subtract → value1 = 0 → 2 ^ e1.intWidth ∣ 2 * e2.eval σ
  | none, _ => True

theorem mod_eq_self_iff {a m : ℕ} (hm : 0 < m) : a = a % m ↔ a < m :=
  ⟨fun h ↦ h ▸ Nat.mod_lt a hm, fun h ↦ (Nat.mod_eq_of_lt h).symm⟩

theorem toNat_add_iff (value1 value2 : BitVec 64) (w : ℕ) :
    (value1 + value2).toNat = Operator.Add.apply w (value1.toNat % 2 ^ w) (value2.toNat % 2 ^ w) ↔
      Operator.Add.FoldsWithin w value1 value2 := by
  have h1 := value1.isLt
  have h2 := value2.isLt
  have hpos := Nat.two_pow_pos w
  rw [Operator.apply, Operator.FoldsWithin, ← Nat.add_mod]
  split_ifs with hw
  · have hdvd : 2 ^ w ∣ 2 ^ 64 := Nat.pow_dvd_pow 2 hw
    have hmod : (value1.toNat + value2.toNat) % 2 ^ w = (value1 + value2).toNat % 2 ^ w := by
      rw [BitVec.toNat_add, Nat.mod_mod_of_dvd _ hdvd]
    rw [hmod]
    exact mod_eq_self_iff hpos
  · have hroom : 2 ^ 65 ≤ 2 ^ w := Nat.pow_le_pow_right (by decide) (by omega)
    rw [Nat.mod_eq_of_lt (show value1.toNat + value2.toNat < 2 ^ w by omega), BitVec.toNat_add,
      eq_comm]
    exact mod_eq_self_iff (by decide)

theorem toNat_sub_iff (value1 value2 : BitVec 64) (w : ℕ) :
    (value1 - value2).toNat =
        Operator.Subtract.apply w (value1.toNat % 2 ^ w) (value2.toNat % 2 ^ w) ↔
      Operator.Subtract.FoldsWithin w value1 value2 := by
  have h1 := value1.isLt
  have h2 := value2.isLt
  have hpos := Nat.two_pow_pos w
  have hsub : (value1 - value2).toNat = (2 ^ 64 - value2.toNat + value1.toNat) % 2 ^ 64 :=
    BitVec.toNat_sub value1 value2
  rw [Operator.apply, Operator.FoldsWithin]
  split_ifs with hw
  · have hmod : (value1.toNat % 2 ^ w + (2 ^ w - value2.toNat % 2 ^ w)) % 2 ^ w =
        (value1 - value2).toNat % 2 ^ w := by
      obtain ⟨k, hk⟩ : 2 ^ w ∣ 2 ^ 64 := Nat.pow_dvd_pow 2 hw
      have hlt := Nat.mod_lt value2.toNat hpos
      have hdiv := Nat.div_add_mod value2.toNat (2 ^ w)
      have hle : value2.toNat / 2 ^ w < k := by
        rw [Nat.div_lt_iff_lt_mul hpos, Nat.mul_comm, ← hk]
        exact h2
      obtain ⟨l, hl⟩ : ∃ l, k = value2.toNat / 2 ^ w + 1 + l :=
        Nat.exists_eq_add_of_le hle
      -- the rest of the divisor, after the multiples in the second value
      have hrest : 2 ^ 64 - value2.toNat = 2 ^ w - value2.toNat % 2 ^ w + 2 ^ w * l := by
        rw [hk, hl, Nat.mul_add, Nat.mul_add, Nat.mul_one]
        omega
      rw [hsub, Nat.mod_mod_of_dvd _ ⟨k, hk⟩, hrest, Nat.mod_add_mod, Nat.add_right_comm,
        Nat.add_mul_mod_self_left, Nat.add_comm]
    rw [hmod]
    exact mod_eq_self_iff hpos
  · have hroom : 2 ^ 65 ≤ 2 ^ w := Nat.pow_le_pow_right (by decide) (by omega)
    rw [Nat.mod_eq_of_lt (show value1.toNat < 2 ^ w by omega),
      Nat.mod_eq_of_lt (show value2.toNat < 2 ^ w by omega), hsub, BitVec.le_def]
    by_cases hle : value2.toNat ≤ value1.toNat
    · have hfold : (2 ^ 64 - value2.toNat + value1.toNat) % 2 ^ 64 =
          value1.toNat - value2.toNat := by
        rw [show 2 ^ 64 - value2.toNat + value1.toNat = 2 ^ 64 + (value1.toNat - value2.toNat) by
          omega, Nat.add_mod_left, Nat.mod_eq_of_lt (by omega)]
      have hcompiled : (value1.toNat + (2 ^ w - value2.toNat)) % 2 ^ w =
          value1.toNat - value2.toNat := by
        rw [show value1.toNat + (2 ^ w - value2.toNat) = 2 ^ w + (value1.toNat - value2.toNat) by
          omega, Nat.add_mod_left, Nat.mod_eq_of_lt (by omega)]
      rw [hfold, hcompiled]
      exact iff_of_true rfl hle
    · have hfold := Nat.mod_lt (2 ^ 64 - value2.toNat + value1.toNat) (Nat.two_pow_pos 64)
      rw [Nat.mod_eq_of_lt (show value1.toNat + (2 ^ w - value2.toNat) < 2 ^ w by omega)]
      exact iff_of_false (by omega) hle

theorem ite_one_iff {p q : Prop} [Decidable p] [Decidable q] :
    (if p then 1 else 0 : BitVec 64).toNat = (if q then 1 else 0) ↔ (p ↔ q) := by
  by_cases hp : p <;> by_cases hq : q <;> simp [hp, hq]

theorem intWidth_of_castInteger (h : e1.castInteger = some value1) :
    e1.eval σ = value1.toNat % 2 ^ e1.intWidth := by
  rw [ScalarAST.castInteger_eq_some.1 h]
  rfl

theorem eval_eq_zero (h : e1.castInteger = some value1) (hzero : value1 = 0) : e1.eval σ = 0 := by
  rw [intWidth_of_castInteger h, hzero]
  exact Nat.zero_mod _

theorem createAdd_exact (hw : e1.intWidth = e2.intWidth) :
    (createAdd findOrCall e1 e2).eval σ = Operator.Add.apply e1.intWidth (e1.eval σ) (e2.eval σ) ↔
      Operator.Add.Keeps σ e1 e2 := by
  have hlt1 := e1.eval_lt σ
  have hlt2 := e2.eval_lt σ
  rw [createAdd, Operator.Keeps]
  cases h1 : e1.castInteger with
  | some value1 =>
    have heval1 : e1.eval σ = _ := intWidth_of_castInteger h1
    cases h2 : e2.castInteger with
    | some value2 =>
      rw [heval1, intWidth_of_castInteger h2, ← hw]
      simp only [eval_getInteger]
      exact toNat_add_iff value1 value2 _
    | none =>
      refine iff_of_true ?_ fun h ↦ by cases h
      simp only []
      split_ifs with hzero
      · rw [eval_eq_zero h1 hzero, Operator.apply, Nat.zero_add, hw, Nat.mod_eq_of_lt hlt2]
      · rfl
  | none =>
    refine iff_of_true ?_ trivial
    cases h2 : e2.castInteger with
    | some value2 =>
      simp only []
      split_ifs with hzero
      · rw [eval_eq_zero h2 hzero, Operator.apply, Nat.add_zero, Nat.mod_eq_of_lt hlt1]
      · rfl
    | none => rfl

/-- A number is its own negative if twice the number is a multiple of the modulus. -/
theorem eq_neg_iff {a m : ℕ} (h : a < m) : a = (m - a) % m ↔ m ∣ 2 * a := by
  rcases Nat.eq_zero_or_pos a with rfl | hpos
  · simp
  · rw [Nat.mod_eq_of_lt (by omega)]
    constructor
    · intro ha
      exact ⟨1, by omega⟩
    · rintro ⟨k, hk⟩
      have hk1 : k = 1 := by
        have hup : k < 2 := Nat.lt_of_mul_lt_mul_left (a := m) (by omega)
        have hlow : 0 < k := Nat.pos_of_ne_zero fun h0 ↦ by simp [h0] at hk; omega
        omega
      rw [hk1] at hk
      omega

theorem createSubtract_exact (hw : e1.intWidth = e2.intWidth) :
    (createSubtract findOrCall e1 e2).eval σ =
        Operator.Subtract.apply e1.intWidth (e1.eval σ) (e2.eval σ) ↔
      Operator.Subtract.Keeps σ e1 e2 := by
  have hlt1 := e1.eval_lt σ
  have hlt2 := e2.eval_lt σ
  rw [createSubtract, Operator.Keeps]
  cases h1 : e1.castInteger with
  | some value1 =>
    have heval1 : e1.eval σ = _ := intWidth_of_castInteger h1
    cases h2 : e2.castInteger with
    | some value2 =>
      rw [heval1, intWidth_of_castInteger h2, ← hw]
      simp only [eval_getInteger]
      exact toNat_sub_iff value1 value2 _
    | none =>
      simp only [forall_const]
      split_ifs with hzero
      · rw [eval_eq_zero h1 hzero, Operator.apply, Nat.zero_add, forall_prop_of_true hzero]
        exact eq_neg_iff (hw ▸ hlt2)
      · exact iff_of_true rfl fun h ↦ absurd h hzero
  | none =>
    refine iff_of_true ?_ trivial
    cases h2 : e2.castInteger with
    | some value2 =>
      simp only []
      split_ifs with hzero
      · rw [eval_eq_zero h2 hzero, Operator.apply, Nat.sub_zero, Nat.add_mod_right,
          Nat.mod_eq_of_lt hlt1]
      · rfl
    | none => rfl

theorem createLessThan_exact (hw : e1.intWidth = e2.intWidth) :
    (createLessThan findOrCall e1 e2).eval σ =
        Operator.LessThan.apply e1.intWidth (e1.eval σ) (e2.eval σ) ↔
      Operator.LessThan.Keeps σ e1 e2 := by
  rw [createLessThan, Operator.Keeps]
  cases h1 : e1.castInteger with
  | some value1 =>
    cases h2 : e2.castInteger with
    | some value2 =>
      rw [intWidth_of_castInteger h1, intWidth_of_castInteger h2, ← hw]
      simp only [eval_getInteger]
      exact ite_one_iff
    | none => exact iff_of_true rfl fun h ↦ by cases h
  | none => exact iff_of_true rfl trivial

theorem createEquals_exact (hw : e1.intWidth = e2.intWidth) :
    (createEquals findOrCall e1 e2).eval σ =
        Operator.Equals.apply e1.intWidth (e1.eval σ) (e2.eval σ) ↔
      Operator.Equals.Keeps σ e1 e2 := by
  rw [createEquals, Operator.Keeps]
  cases h1 : e1.castInteger with
  | some value1 =>
    cases h2 : e2.castInteger with
    | some value2 =>
      rw [intWidth_of_castInteger h1, intWidth_of_castInteger h2, ← hw]
      simp only [eval_getInteger]
      exact ite_one_iff
    | none => exact iff_of_true rfl fun h ↦ by cases h
  | none => exact iff_of_true rfl trivial

end Operators

/-- The positional constructors return nodes with the values of their statements; those of the
integer operators do so exactly where the operator keeps its value. -/
theorem statementConstructors_exact {table : SymbolTable} {length : ℕ} {ρ : Assignment}
    (hρ : Compiled table length ρ) (σ : ℕ → ℕ)
    (findOrCall : Operator → ScalarAST → ScalarAST → ℕ) :
    (∀ (x y : PabloAST) (n : IntegerNode table) (pre : Option String),
      (createAdvance table x n pre).eval ρ = advance n.value (x.eval ρ) ∧
      ((createLookahead table x n pre).eval ρ = fun p ↦ x.eval ρ (p + n.value)) ∧
      (createInFile table x pre).eval ρ = inFile length (x.eval ρ) ∧
      (createMatchStar table x y pre).eval ρ = matchStar (x.eval ρ) (y.eval ρ) ∧
      (createScanThru table x y pre).eval ρ = scanThru (x.eval ρ) (y.eval ρ) ∧
      (createScanTo table x y pre).eval ρ =
        scanStatement .ScanTo length (x.eval ρ) (y.eval ρ) ∧
      (createAdvanceThenScanThru table x y pre).eval ρ =
        scanStatement .AdvanceThenScanThru length (x.eval ρ) (y.eval ρ) ∧
      (createAdvanceThenScanTo table x y pre).eval ρ =
        scanStatement .AdvanceThenScanTo length (x.eval ρ) (y.eval ρ)) ∧
    ∀ e1 e2 : ScalarAST, e1.intWidth = e2.intWidth →
      ((createAdd findOrCall e1 e2).eval σ =
        Operator.Add.apply e1.intWidth (e1.eval σ) (e2.eval σ) ↔ Operator.Add.Keeps σ e1 e2) ∧
      ((createSubtract findOrCall e1 e2).eval σ =
        Operator.Subtract.apply e1.intWidth (e1.eval σ) (e2.eval σ) ↔
          Operator.Subtract.Keeps σ e1 e2) ∧
      ((createLessThan findOrCall e1 e2).eval σ =
        Operator.LessThan.apply e1.intWidth (e1.eval σ) (e2.eval σ) ↔
          Operator.LessThan.Keeps σ e1 e2) ∧
      ((createEquals findOrCall e1 e2).eval σ =
        Operator.Equals.apply e1.intWidth (e1.eval σ) (e2.eval σ) ↔
          Operator.Equals.Keeps σ e1 e2) := by
  constructor
  · intro x y n pre
    exact ⟨createAdvance_eval hρ, createLookahead_eval hρ, createInFile_eval hρ,
      createMatchStar_eval hρ, createScanThru_eval hρ, createScanTo_eval hρ,
      createAdvanceThenScanThru_eval hρ, createAdvanceThenScanTo_eval hρ⟩
  · intro e1 e2 hw
    exact ⟨createAdd_exact hw, createSubtract_exact hw, createLessThan_exact hw,
      createEquals_exact hw⟩

section Assignments

/-- The integers have the odd addresses. -/
def oddValue : PabloAST → Option ℕ
  | .Leaf addr _ => if addr % 2 = 1 then some (addr / 2) else none
  | _ => none

theorem oddValue_leaf (n : ℕ) : oddValue (.Leaf (2 * n + 1) 64) = some n := by
  rw [oddValue, if_pos (by omega)]
  congr 1
  omega

def oddIntegers : SymbolTable where
  getInteger n := .Leaf (2 * n + 1) 64
  value := oddValue
  value_getInteger n _ := oddValue_leaf n
  findOrCall _ _ := 0

open Classical in
/-- An integer is coded by the place of a marker. -/
noncomputable def decode (s : Stream) : ℕ := if h : ∃ p, s p = true then Nat.find h else 0

theorem decode_beq (n : ℕ) : (decode fun p ↦ p == n) = n := by
  have hex : ∃ p, (p == n) = true := ⟨n, beq_self_eq_true n⟩
  rw [decode, dif_pos hex]
  exact beq_iff_eq.1 (Nat.find_spec hex)

/-- Any streams at the even addresses, and the statements as they are compiled. -/
noncomputable def assign (length : ℕ) (streams : ℕ → Stream) : Assignment where
  leaf addr := if addr % 2 = 1 then fun p ↦ p == addr / 2 else streams (addr / 2)
  unary stmt _ x :=
    match stmt with
    | .InFile => inFile length x
    | _ => x
  binary stmt _ x y :=
    match stmt with
    | .Advance => advance (decode y) x
    | .Lookahead => fun p ↦ x (p + decode y)
    | .ScanThru => scanThru x y
    | .MatchStar => matchStar x y
    | .ScanTo => scanStatement .ScanTo length x y
    | .AdvanceThenScanThru => scanStatement .AdvanceThenScanThru length x y
    | .AdvanceThenScanTo => scanStatement .AdvanceThenScanTo length x y
    | _ => x
  indexedAdvance x index y := indexedAdvance (decode y) x index
  intrinsic _ _ x _ := x

theorem decode_amount (length : ℕ) (streams : ℕ → Stream) {n : ℕ} {amount : PabloAST}
    (h : oddIntegers.value amount = some n) : decode (amount.eval (assign length streams)) = n := by
  cases amount with
  | Leaf addr type =>
    obtain ⟨hodd, rfl⟩ : addr % 2 = 1 ∧ addr / 2 = n := by
      simpa [oddIntegers, oddValue] using h
    have heval : (PabloAST.Leaf addr type).eval (assign length streams) =
        fun p ↦ p == addr / 2 := if_pos hodd
    rw [heval, decode_beq]
  | _ => cases h

/-- There is a compiled assignment for any streams. -/
theorem compiled_assign (length : ℕ) (streams : ℕ → Stream) :
    Compiled oddIntegers length (assign length streams) where
  advance amount n hn type x := by
    rw [← decode_amount length streams hn]
    rfl
  lookahead amount n hn type x := by
    rw [← decode_amount length streams hn]
    rfl
  scanThru type x y := rfl
  matchStar type x y := rfl
  inFile type x := rfl
  scanTo type x y := rfl
  advanceThenScanThru type x y := rfl
  advanceThenScanTo type x y := rfl
  indexedAdvance amount n hn x index := by
    rw [← decode_amount length streams hn]
    rfl

end Assignments

/-- A file of 8 positions, in which every second one is marked. -/
theorem statementConstructors_exact_eight :
    Compiled oddIntegers 8 (assign 8 fun _ p ↦ p % 2 == 0) ∧
      (createScanThru oddIntegers (.Leaf 0 1) (.Leaf 2 1) none).eval
          (assign 8 fun _ p ↦ p % 2 == 0) =
        scanThru ((PabloAST.Leaf 0 1).eval (assign 8 fun _ p ↦ p % 2 == 0))
          ((PabloAST.Leaf 2 1).eval (assign 8 fun _ p ↦ p % 2 == 0)) :=
  ⟨compiled_assign 8 _, ((statementConstructors_exact (compiled_assign 8 fun _ p ↦ p % 2 == 0)
    (fun _ ↦ 1) fun _ _ _ ↦ 0).1 (.Leaf 0 1) (.Leaf 2 1) (integerOne _) none).2.2.2.2.1⟩

/-- One subtracted from zero is one, and the sum of 255 and 1 in 8 bits is 256. -/
theorem constructors_misfold :
    (createSubtract (fun _ _ _ ↦ 0) (.Integer 0 64) (.Leaf 0 64)).eval (fun _ ↦ 1) = 1 ∧
      Operator.Subtract.apply 64 ((ScalarAST.Integer 0 64).eval fun _ ↦ 1)
        ((ScalarAST.Leaf 0 64).eval fun _ ↦ 1) = 2 ^ 64 - 1 ∧
      (createAdd (fun _ _ _ ↦ 0) (.Integer 255 8) (.Integer 1 8)).eval (fun _ ↦ 1) = 256 ∧
      Operator.Add.apply 8 ((ScalarAST.Integer 255 8).eval fun _ ↦ 1)
        ((ScalarAST.Integer 1 8).eval fun _ ↦ 1) = 0 := by
  decide

section Indexed

variable {length n p : ℕ} {x index : Stream}

theorem indexedAdvance_zero : indexedAdvance 0 x index = fun p ↦ index p && x p := by
  funext p
  rw [Bool.eq_iff_iff]
  simp only [indexedAdvance, Bool.and_eq_true, List.any_eq_true, List.mem_range, beq_iff_eq,
    Nat.add_zero]
  constructor
  · rintro ⟨hp, q, -, ⟨hq, hx⟩, hrank⟩
    rw [rank_inj hq hp hrank] at hx
    exact ⟨hp, hx⟩
  · rintro ⟨hp, hx⟩
    exact ⟨hp, p, Nat.lt_succ_self p, ⟨hp, hx⟩, rfl⟩

theorem indexedAdvance_ones (n : ℕ) (x : Stream) :
    indexedAdvance n x (fun _ ↦ true) = advance n x := by
  funext p
  rw [Bool.eq_iff_iff, advance]
  simp only [indexedAdvance, rank_ones, Bool.true_and, List.any_eq_true, List.mem_range,
    Bool.and_eq_true, beq_iff_eq]
  constructor
  · rintro ⟨q, -, hx, rfl⟩
    rwa [if_neg (by omega), Nat.add_sub_cancel]
  · intro h
    split_ifs at h with hlt
    exact ⟨p - n, by omega, h, by omega⟩

theorem indexedAdvance_zeroes (n : ℕ) (index : Stream) :
    indexedAdvance n (fun _ ↦ false) index = fun _ ↦ false := by
  funext p
  simp [indexedAdvance]

/-- A marker has moved on to the next index position. -/
theorem indexedAdvance_one : indexedAdvance 1 x index p = true ↔
    index p = true ∧ ∃ q < p, index q = true ∧ x q = true ∧
      ∀ j, q < j → j < p → index j = false := by
  simp only [indexedAdvance, Bool.and_eq_true, List.any_eq_true, List.mem_range, beq_iff_eq]
  refine and_congr_right fun hp ↦ ?_
  constructor
  · rintro ⟨q, hqp, ⟨hq, hx⟩, hrank⟩
    have hne : q ≠ p := by
      rintro rfl
      omega
    refine ⟨q, by omega, hq, hx, fun j h1 h2 ↦ ?_⟩
    by_contra hj
    have hbelow := rank_lt_of_true hq h1
    have habove := rank_lt_of_true (Bool.eq_true_of_not_eq_false hj) h2
    omega
  · rintro ⟨q, hqp, hq, hx, hgap⟩
    have hstep := rank_eq_of_false (m := index) (a := q + 1) (n := p - (q + 1)) fun i hi ↦
      hgap (q + 1 + i) (by omega) (by omega)
    rw [show q + 1 + (p - (q + 1)) = p by omega, rank_succ_of_true hq] at hstep
    exact ⟨q, by omega, ⟨hq, hx⟩, hstep.symm⟩

/-- A marker has moved on to the next index position, or to the end of the file before it. -/
theorem advanceThenScanTo_iff_next : scanStatement .AdvanceThenScanTo length x index p = true ↔
    (index p || p == length) = true ∧ ∃ q < p, x q = true ∧
      ∀ j, q < j → j < p → (index j || j == length) = false := by
  rw [advanceThenScanTo_apply, Bool.and_eq_true, carry_or x fun i ↦ !(index i || i == length)]
  simp only [Bool.not_eq_true']

/-- Where a marker is followed by the end of the file, this is an index position; and where a
marker is off the index but has an index position after it, the index position before it is
marked too. -/
structure Aligned (length : ℕ) (x index : Stream) : Prop where
  ending : index length = true ∨
    ∀ q < length, x q = true → ∃ r, q < r ∧ r < length ∧ index r = true
  stray : ∀ q, x q = true → index q = false → ∀ p, q < p → index p = true →
    ∃ r < q, index r = true ∧ x r = true ∧ ∀ j, r < j → j < q → index j = false

/-- Moved to the next index position from anywhere, from an index position, and as the statement
moves a marker. -/
theorem aligned_iff : scanStatement .AdvanceThenScanTo length x index =
      scanStatement .AdvanceThenScanTo length (fun p ↦ x p && index p) index ∧
    scanStatement .AdvanceThenScanTo length (fun p ↦ x p && index p) index =
      indexedAdvance 1 x index ↔ Aligned length x index := by
  constructor
  · rintro ⟨hnamed, hunnamed⟩
    have hmoved (p : ℕ) : scanStatement .AdvanceThenScanTo length x index p = true →
        indexedAdvance 1 x index p = true := by
      rw [hnamed, hunnamed]
      exact id
    refine ⟨?_, ?_⟩
    · by_contra! hend
      obtain ⟨hend, q, hq, hx, hgap⟩ := hend
      have hp := hmoved length (advanceThenScanTo_iff_next.2 ⟨by simp, q, hq, hx, fun j h1 h2 ↦ by
        rw [Bool.eq_false_of_not_eq_true (hgap j h1 h2), Bool.false_or]
        exact beq_false_of_ne (by omega)⟩)
      exact hend (indexedAdvance_one.1 hp).1
    · intro q hx hq p hqp hp
      -- the first position after the marker to which a scan goes
      have hex : ∃ j, q < j ∧ (index j || j == length) = true := ⟨p, hqp, by rw [hp]; rfl⟩
      obtain ⟨hqj, hj⟩ := Nat.find_spec hex
      have hfirst (i : ℕ) (h1 : q < i) (h2 : i < Nat.find hex) :
          (index i || i == length) = false := by
        by_contra h
        exact Nat.find_min hex h2 ⟨h1, Bool.eq_true_of_not_eq_false h⟩
      obtain ⟨-, r, hrj, hr, hxr, hgap⟩ :=
        indexedAdvance_one.1 (hmoved _ (advanceThenScanTo_iff_next.2 ⟨hj, q, hqj, hx, hfirst⟩))
      have hrq : r < q := by
        rcases Nat.lt_trichotomy r q with hlt | rfl | hgt
        · exact hlt
        · rw [hq] at hr
          cases hr
        · have := hfirst r hgt hrj
          rw [hr] at this
          cases this
      exact ⟨r, hrq, hr, hxr, fun j h1 h2 ↦ hgap j h1 (by omega)⟩
  · intro hal
    have hto (p : ℕ) (h : scanStatement .AdvanceThenScanTo length x index p = true) :
        indexedAdvance 1 x index p = true := by
      obtain ⟨hp, q, hq, hx, hgap⟩ := advanceThenScanTo_iff_next.1 h
      have hindex (j : ℕ) (h1 : q < j) (h2 : j < p) : index j = false :=
        (Bool.or_eq_false_iff.1 (hgap j h1 h2)).1
      have hp : index p = true := by
        by_contra hoff
        rw [Bool.eq_false_of_not_eq_true hoff, Bool.false_or, beq_iff_eq] at hp
        obtain hend | hnext := hal.ending
        · exact hoff (hp ▸ hend)
        · obtain ⟨r, h1, h2, hr⟩ := hnext q (hp ▸ hq) hx
          rw [hindex r h1 (hp ▸ h2)] at hr
          cases hr
      rw [indexedAdvance_one]
      refine ⟨hp, ?_⟩
      cases hq' : index q with
      | true => exact ⟨q, hq, hq', hx, hindex⟩
      | false =>
        obtain ⟨r, hrq, hr, hxr, hbefore⟩ := hal.stray q hx hq' p hq hp
        refine ⟨r, by omega, hr, hxr, fun j h1 h2 ↦ ?_⟩
        rcases Nat.lt_trichotomy j q with hlt | rfl | hgt
        · exact hbefore j h1 hlt
        · exact hq'
        · exact hindex j hgt h2
    have hfrom (p : ℕ) (h : indexedAdvance 1 x index p = true) :
        scanStatement .AdvanceThenScanTo length (fun p ↦ x p && index p) index p = true := by
      obtain ⟨hp, q, hq, hq', hx, hgap⟩ := indexedAdvance_one.1 h
      refine advanceThenScanTo_iff_next.2 ⟨by rw [hp]; rfl, q, hq, by rw [hx, hq']; rfl, ?_⟩
      intro j h1 h2
      rw [hgap j h1 h2, Bool.false_or]
      apply beq_false_of_ne
      rintro rfl
      obtain hend | hnext := hal.ending
      · rw [hgap j h1 h2] at hend
        cases hend
      · obtain ⟨r, h3, h4, hr⟩ := hnext q h1 hx
        rw [hgap r h3 (by omega)] at hr
        cases hr
    have hless (p : ℕ)
        (h : scanStatement .AdvanceThenScanTo length (fun p ↦ x p && index p) index p = true) :
        scanStatement .AdvanceThenScanTo length x index p = true := by
      obtain ⟨hp, q, hq, hx, hgap⟩ := advanceThenScanTo_iff_next.1 h
      exact advanceThenScanTo_iff_next.2 ⟨hp, q, hq, (Bool.and_eq_true_iff.1 hx).1, hgap⟩
    constructor
    · funext p
      exact Bool.eq_iff_iff.2 ⟨fun h ↦ hfrom p (hto p h), hless p⟩
    · funext p
      exact Bool.eq_iff_iff.2 ⟨fun h ↦ hto p (hless p h), hfrom p⟩

/-- The markers that every form of an indexed advance moves alike. -/
def Alike (length n : ℕ) (x index : Stream) : Prop :=
  match n with
  | 0 => ∀ p, x p = true → index p = true
  | 1 => Aligned length x index
  | _ => True

theorem alike_zeroes (length n : ℕ) (index : Stream) : Alike length n (fun _ ↦ false) index := by
  unfold Alike
  split
  · intro p h
    cases h
  · exact ⟨.inr fun _ _ h ↦ (by cases h), fun _ h ↦ (by cases h)⟩
  · trivial

theorem alike_ones (length n : ℕ) (x : Stream) : Alike length n x fun _ ↦ true := by
  unfold Alike
  split
  · exact fun _ _ ↦ rfl
  · exact ⟨.inl rfl, fun _ _ h ↦ (by cases h)⟩
  · trivial

theorem eq_indexed_iff : x = indexedAdvance 0 x index ↔ Alike length 0 x index := by
  rw [indexedAdvance_zero]
  constructor
  · intro h p hp
    rw [h, Bool.and_eq_true] at hp
    exact hp.1
  · intro h
    funext p
    cases hx : x p with
    | false => rw [Bool.and_false]
    | true => rw [h p hx, Bool.and_self]

end Indexed

/-- Without an index, every position is one. -/
def indexValue (ρ : Assignment) : Option PabloAST → Stream
  | none => fun _ ↦ true
  | some indexStream => indexStream.eval ρ

section IndexedAdvances

variable {table : SymbolTable} {length : ℕ} {ρ : Assignment} {h : Heap} {cs : List PabloAST}
  {x i : PabloAST} {indexStream : Option PabloAST} {n : IntegerNode table} {pre : String}

/-- What the constructors make where the statement is folded to an advance, or not at all. -/
theorem evaluates_alike {run : ℕ → Except Fault PabloAST} {named : PabloAST} {s index : Stream}
    (hs : Evaluates ρ run s) (hnamed : named.eval ρ = s)
    (hstatement : s = indexedAdvance n.value (x.eval ρ) index)
    (halike : Alike length n.value (x.eval ρ) index) :
    ∃ s, Evaluates ρ run s ∧ (named.eval ρ = s ∧
      s = indexedAdvance n.value (x.eval ρ) index ↔ Alike length n.value (x.eval ρ) index) :=
  ⟨s, hs, iff_of_true ⟨hnamed, hstatement⟩ halike⟩

theorem createAnd_advances (hρ : Compiled table length ρ) (hc : CallsApart h cs)
    (hx : x.calls ⊆ cs) (hi : i.calls ⊆ cs) :
    Evaluates ρ (fun fuel ↦ do
      let and ← createAnd h fuel x i
      return createAdvanceThenScanTo table and i none)
      (scanStatement .AdvanceThenScanTo length (fun p ↦ x.eval ρ p && i.eval ρ p) (i.eval ρ)) := by
  obtain ⟨fuel, and, hrun, hand⟩ :
      Evaluates ρ (createAnd h · x i) _ := createAnd_evaluates hc hx hi
  refine ⟨fuel, createAdvanceThenScanTo table and i none, fun more hmore ↦ ?_, ?_⟩
  · simp only [hrun more hmore, ok_bind]
    rfl
  · exact (createAdvanceThenScanTo_eval hρ).trans (by rw [hand])

def plainHeap : Heap := ⟨fun _ _ ↦ false, fun _ ↦ 0⟩

theorem callsApart_nil (h : Heap) : CallsApart h [] := fun _ hx ↦ absurd hx List.not_mem_nil

/-- One marker, and the index positions behind it. -/
def markerAt (place : ℕ) (index : Stream) : ℕ → Stream := fun k p ↦
  if k = 0 then p == place else index p

end IndexedAdvances

end Parabix.Pablo
