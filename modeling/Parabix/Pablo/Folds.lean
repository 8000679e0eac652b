import Parabix.Pablo.Builder
import Parabix.Pablo.Scan

namespace Parabix.Pablo

open Library.BitStream

/-- A statement was to be created with an operand that is null. -/
inductive NullOperand where
  | nullOperand
deriving DecidableEq, Repr

/-- A fold returns a replacement, or null when there is nothing to simplify. -/
abbrev Fold := Except NullOperand (Option PabloAST)

/-- The block in which the folds create their statements, each at an address of its own. -/
structure FoldBlock where
  UseTernaryOptimizations : Bool
  heap : Heap
  address : Key → ℕ

namespace FoldBlock

variable (block : FoldBlock)

def createNot (expr : PabloAST) : PabloAST := .Not (block.address (.Not expr)) expr

def createAnd (expr1 expr2 : PabloAST) : PabloAST :=
  .And (block.address (.And expr1 expr2)) expr1 expr2

def createOr (expr1 expr2 : PabloAST) : PabloAST :=
  .Or (block.address (.Or expr1 expr2)) expr1 expr2

def createXor (expr1 expr2 : PabloAST) : PabloAST :=
  .Xor (block.address (.Xor expr1 expr2)) expr1 expr2

/-- The address of a ternary statement with this mask. -/
def ternaryAddress (mask : BitVec 8) (a b c : PabloAST) : ℕ :=
  block.address (.Ternary mask a b c)

end FoldBlock

inductive BasicOp where
  | And
  | Or
  | Xor
deriving DecidableEq, Repr

def BasicOp.apply : BasicOp → Bool → Bool → Bool
  | And => and
  | Or => or
  | Xor => xor

/-- The operation and the operands of a statement that is an And, an Or or a Xor. -/
def isBasicBinaryOp : PabloAST → Option (BasicOp × PabloAST × PabloAST)
  | .And _ expr1 expr2 => some (.And, expr1, expr2)
  | .Or _ expr1 expr2 => some (.Or, expr1, expr2)
  | .Xor _ expr1 expr2 => some (.Xor, expr1, expr2)
  | _ => none

/-- The operands of the first operand that is a basic operation, and the other operand. -/
def triviallyFoldBasicBinOp (expr1 expr2 : PabloAST) :
    Option (BasicOp × PabloAST × PabloAST × PabloAST) :=
  match isBasicBinaryOp expr1, isBasicBinaryOp expr2 with
  | some (basic_op, op0, op1), _ => some (basic_op, op0, op1, expr2)
  | none, some (basic_op, op0, op1) => some (basic_op, op0, op1, expr1)
  | none, none => none

section Folds

variable (block : FoldBlock)

def triviallyFoldNot (value : PabloAST) : Option PabloAST :=
  match value with
  | .Not _ expr => some expr
  | .Zeroes type => some (.Ones type)
  | .Ones type => some (.Zeroes type)
  | .Ternary _ mask a b c =>
    if block.UseTernaryOptimizations then
      let negated_mask := mask ^^^ 0xFF
      some (PabloBlock.createTernary (block.ternaryAddress negated_mask a b c) negated_mask a b c)
    else none
  | _ => none

/-- One of the two operands against the other: `absorbing` is the test for the constant that is the
result itself, `neutral` the one for the constant that can be left out. -/
def foldOperand (absorbing neutral : PabloAST → Bool) (constant op other : PabloAST) :
    Option PabloAST :=
  match op.castNot with
  | some expr => if expr = other then some constant else none
  | none => if neutral op then some other else if absorbing op then some op else none

def triviallyFoldBinaryAndOr (absorbing neutral : PabloAST → Bool) (constant op0 op1 : PabloAST) :
    Option PabloAST :=
  ((foldOperand absorbing neutral constant op0 op1).or
    (foldOperand absorbing neutral constant op1 op0)).or
      (if op0 = op1 then some op0 else none)

/-- The operands are put in order when the first folds decline. -/
def triviallyFoldAnd (op0 op1 : PabloAST) : Option PabloAST :=
  (triviallyFoldBinaryAndOr PabloAST.isZeroes PabloAST.isOnes (.Zeroes op0.getType) op0 op1).or
    (if block.UseTernaryOptimizations then
      let (op0, op1) := sortOperands block.heap op0 op1
      (triviallyFoldBasicBinOp op0 op1).map fun (basic_op, op0, op1, op2) ↦
        match basic_op with
        | .And => PabloBlock.createAnd3 (block.ternaryAddress 0x80 op2 op0 op1) op2 op0 op1
        | .Or => PabloBlock.createAndOr (block.ternaryAddress 0xE0 op2 op0 op1) op2 op0 op1
        | .Xor => PabloBlock.createAndXor (block.ternaryAddress 0x60 op2 op0 op1) op2 op0 op1
    else none)

def triviallyFoldOr (op0 op1 : PabloAST) : Option PabloAST :=
  (triviallyFoldBinaryAndOr PabloAST.isOnes PabloAST.isZeroes (.Ones op0.getType) op0 op1).or
    (if block.UseTernaryOptimizations then
      let (op0, op1) := sortOperands block.heap op0 op1
      (triviallyFoldBasicBinOp op0 op1).map fun (basic_op, op0, op1, op2) ↦
        match basic_op with
        | .And => PabloBlock.createOrAnd (block.ternaryAddress 0xF8 op2 op0 op1) op2 op0 op1
        | .Or => PabloBlock.createOr3 (block.ternaryAddress 0xFE op2 op0 op1) op2 op0 op1
        | .Xor => PabloBlock.createOrXor (block.ternaryAddress 0xF6 op2 op0 op1) op2 op0 op1
    else none)

/-- What the loop over the operands of a Xor has found. -/
structure XorScan where
  op : PabloAST × PabloAST
  negated : Bool
  expr : Option PabloAST
  unchanged : Bool

/-- The first round of the loop. A constant gives the other operand as it stands. -/
def XorScan.first (op0 op1 : PabloAST) : XorScan :=
  match op0.castNot with
  | some inner => ⟨(inner, op1), true, none, false⟩
  | none =>
    if op0.isZeroes || op0.isOnes then ⟨(op0, op1), op0.isOnes, some op1, false⟩
    else ⟨(op0, op1), false, none, true⟩

/-- The second round. -/
def XorScan.second (s : XorScan) : XorScan :=
  match s.op.2.castNot with
  | some inner => ⟨(s.op.1, inner), !s.negated, s.expr, false⟩
  | none =>
    if s.op.2.isZeroes || s.op.2.isOnes then
      ⟨s.op, s.negated ^^ s.op.2.isOnes, some s.op.1, false⟩
    else s

/-- The expression that is negated in the end if `negated`. -/
def foldXorOperands (type : ℕ) (s : XorScan) : PabloAST :=
  match s.expr with
  | some expr =>
    if s.negated then (triviallyFoldNot block expr).getD (block.createNot expr) else expr
  | none =>
    if s.op.1 = s.op.2 then if s.negated then .Ones type else .Zeroes type
    else
      let (op0, op1) := sortOperands block.heap s.op.1 s.op.2
      let expr := block.createXor op0 op1
      if s.negated then (triviallyFoldNot block expr).getD (block.createNot expr) else expr

def triviallyFoldXor (stmt op0 op1 : PabloAST) : Option PabloAST :=
  if op0 = op1 then some (.Zeroes op0.getType)
  else
    let s := (XorScan.first op0 op1).second
    if s.unchanged then none
    else
      let expr := foldXorOperands block op0.getType s
      if s.expr.isNone && s.op.1 = s.op.2 then some expr
      else if block.UseTernaryOptimizations && equals block.heap expr stmt then
        match triviallyFoldBasicBinOp op0 op1 with
        | some (.And, op0, op1, op2) =>
          some (PabloBlock.createXorAnd (block.ternaryAddress 0x78 op2 op0 op1) op2 op0 op1)
        | some (.Or, op0, op1, op2) =>
          some (PabloBlock.createXorOr (block.ternaryAddress 0x1E op2 op0 op1) op2 op0 op1)
        | some (.Xor, op0, op1, op2) =>
          some (PabloBlock.createXor3 (block.ternaryAddress 0x96 op2 op0 op1) op2 op0 op1)
        | none => some expr
      else some expr

def triviallyFoldAdvance (getAmount : ℕ) (expr : PabloAST) : Option PabloAST :=
  if expr.isZeroes || getAmount = 0 then some expr else none

def triviallyFoldLookAhead (getAmount : ℕ) (expr : PabloAST) : Option PabloAST :=
  if expr.isZeroes || getAmount = 0 then some expr else none

def castScanThru : PabloAST → Option (PabloAST × PabloAST)
  | .Binary _ .ScanThru _ scanFrom scanThru => some (scanFrom, scanThru)
  | _ => none

def triviallyFoldScanThru (type : ℕ) (scanFrom scanThru : PabloAST) : Option PabloAST :=
  if scanFrom.isZeroes || scanThru.isZeroes then some scanFrom
  else if scanThru.isOnes then some (.Zeroes type)
  else match castScanThru scanFrom with
    | some nested => if scanThru = nested.2 then some scanFrom else none
    | none => none

def triviallyFoldMatchStar (type : ℕ) (marker charClass : PabloAST) : Option PabloAST :=
  if marker.isZeroes || charClass.isZeroes then some marker
  else if marker.isOnes then some (.Ones type)
  else none

/-- The fold of a new statement of which the second operand may be null. -/
def foldWith (create : PabloAST → PabloAST → Option PabloAST) (op0 : PabloAST)
    (op1 : Option PabloAST) : Fold :=
  match op1 with
  | some op1 => .ok (create op0 op1)
  | none => .error .nullOperand

def triviallyFoldSel (condition trueExpr falseExpr : PabloAST) : Fold :=
  if condition.isZeroes then .ok (some falseExpr)
  else if condition.isOnes then .ok (some trueExpr)
  else if trueExpr.isZeroes then
    let negCond := triviallyFoldNot block condition
    foldWith (triviallyFoldAnd block) falseExpr negCond
  else if trueExpr.isOnes then .ok (triviallyFoldOr block condition falseExpr)
  else if falseExpr.isZeroes then .ok (triviallyFoldAnd block condition trueExpr)
  else if falseExpr.isOnes then
    let negCond := triviallyFoldNot block condition
    foldWith (triviallyFoldOr block) trueExpr negCond
  else .ok none

/-- `integer` reads the value of an Integer. -/
def triviallyFold (integer : PabloAST → Option ℕ) (stmt : PabloAST) : Fold :=
  match stmt with
  | .Not _ value => .ok (triviallyFoldNot block value)
  | .And _ op0 op1 => .ok (triviallyFoldAnd block op0 op1)
  | .Or _ op0 op1 => .ok (triviallyFoldOr block op0 op1)
  | .Xor _ op0 op1 => .ok (triviallyFoldXor block stmt op0 op1)
  | .Binary _ .Advance _ expr amount =>
    .ok ((integer amount).bind fun getAmount ↦ triviallyFoldAdvance getAmount expr)
  | .Binary _ .ScanThru type scanFrom scanThru =>
    .ok (triviallyFoldScanThru type scanFrom scanThru)
  | .Binary _ .MatchStar type marker charClass =>
    .ok (triviallyFoldMatchStar type marker charClass)
  | .Binary _ .Lookahead _ expr amount =>
    .ok ((integer amount).bind fun getAmount ↦ triviallyFoldLookAhead getAmount expr)
  | .Sel _ condition trueExpr falseExpr => triviallyFoldSel block condition trueExpr falseExpr
  | _ => .ok none

end Folds

end Parabix.Pablo
