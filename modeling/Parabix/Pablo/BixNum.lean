import Parabix.Library.Bits
import Parabix.Library.BitStream
import Parabix.Library.Fault

namespace Parabix.Pablo

open Library Library.BitStream

/-- The constructors for the boolean operations. -/
structure PabloBuilder (α : Type) where
  createZeroes : α
  createOnes : α
  createNot : α → α
  createAnd : α → α → α
  createOr : α → α → α
  createXor : α → α → α
  createSel : α → α → α → α
  createXor3 : α → α → α → α
  createMajority3 : α → α → α → α

/-- The lowest bit first. -/
abbrev BixNum (α : Type) := List α

namespace BixNumCompiler

variable {α : Type} (mPB : PabloBuilder α)

/-- `(1 << bits) - 1` in the type `int`. -/
def lowMask (bits : ℕ) : Except Fault ℕ :=
  if bits < 31 then .ok (2 ^ bits - 1)
  else if bits = 31 then .error .overflow
  else .error .poison

def ZeroExtend (value : BixNum α) (extended_size : ℕ) : BixNum α :=
  value ++ List.replicate (extended_size - value.length) mPB.createZeroes

section Loops

/-- The sum, and the carry out of its last bit. -/
def addLoop (carry : α) : BixNum α → BixNum α → BixNum α × α
  | [], _ => ([], carry)
  | a :: augend, [] =>
    let rest := addLoop (mPB.createAnd a carry) augend []
    (mPB.createXor a carry :: rest.1, rest.2)
  | a :: augend, b :: addend =>
    let rest := addLoop (mPB.createMajority3 a b carry) augend addend
    (mPB.createXor3 a b carry :: rest.1, rest.2)

def subLoop (borrow : α) : BixNum α → BixNum α → BixNum α
  | [], _ => []
  | a :: minuend, [] =>
    mPB.createXor a borrow :: subLoop (mPB.createAnd (mPB.createNot a) borrow) minuend []
  | a :: minuend, b :: subtrahend =>
    mPB.createXor3 a b borrow ::
      subLoop (mPB.createMajority3 (mPB.createNot a) b borrow) minuend subtrahend

/-- The bits from the `i`-th on. -/
def addConstLoop (addend : ℕ) (carry : α) (i : ℕ) : BixNum α → BixNum α
  | [] => []
  | a :: augend =>
    if addend.testBit i then
      mPB.createNot (mPB.createXor a carry) ::
        addConstLoop addend (mPB.createOr a carry) (i + 1) augend
    else
      mPB.createXor a carry :: addConstLoop addend (mPB.createAnd a carry) (i + 1) augend

/-- Up to the lowest bit of the addend the augend is copied. -/
def addConst (addend : ℕ) (i : ℕ) : BixNum α → BixNum α
  | [] => []
  | a :: augend =>
    if addend.testBit i then
      addConstLoop mPB addend mPB.createZeroes i (a :: augend)
    else
      a :: addConst addend (i + 1) augend

/-- The bits from the `i`-th on are compared. -/
def UGTLoop (floor : ℕ) (UGT_so_far : α) (i : ℕ) : BixNum α → α
  | [] => UGT_so_far
  | a :: value =>
    UGTLoop floor (if floor.testBit i then mPB.createAnd a UGT_so_far
      else mPB.createOr a UGT_so_far) (i + 1) value

/-- The bits from the `i`-th on are compared: those that have to be ones, and the others. -/
def EQLoop (floor : ℕ) (EQ_1 EQ_0 : α) (i : ℕ) : BixNum α → α × α
  | [] => (EQ_1, EQ_0)
  | a :: value =>
    if floor.testBit i then
      EQLoop floor (mPB.createAnd a EQ_1) EQ_0 (i + 1) value
    else
      EQLoop floor EQ_1 (mPB.createOr a EQ_0) (i + 1) value

end Loops

def EQ (value : BixNum α) (floor : ℕ) : α :=
  if floor >>> value.length ≠ 0 then mPB.createZeroes
  else
    let (EQ_1, EQ_0) := EQLoop mPB floor mPB.createOnes mPB.createZeroes 0 value
    mPB.createAnd EQ_1 (mPB.createNot EQ_0)

def UGT (value : BixNum α) (floor : ℕ) : α :=
  if floor >>> value.length ≠ 0 then mPB.createZeroes
  else UGTLoop mPB floor mPB.createZeroes 0 value

def AddModularConst (augend : BixNum α) (addend : ℕ) : Except Fault (BixNum α) := do
  let addend := addend &&& (← lowMask augend.length)
  if addend = 0 then
    return augend
  else
    return addConst mPB addend 0 augend

def AddModular (augend addend : BixNum α) : BixNum α :=
  (addLoop mPB mPB.createZeroes augend addend).1

/-- `(~x) + 1` in the type `unsigned`. -/
def negate (x : ℕ) : ℕ := (2 ^ 32 - x) % 2 ^ 32

def SubModularConst (minuend : BixNum α) (subtrahend : ℕ) : Except Fault (BixNum α) :=
  AddModularConst mPB minuend (negate subtrahend)

def SubModular (minuend subtrahend : BixNum α) : BixNum α :=
  subLoop mPB mPB.createZeroes minuend subtrahend

/-- The multiplicand is added at the `i`-th bit. -/
def mulModularStep (multiplicand : BixNum α) (multiplier : ℕ) (product : BixNum α) (i : ℕ) :
    BixNum α :=
  if multiplier.testBit i then
    product.take i ++ (addLoop mPB mPB.createZeroes (product.drop i) multiplicand).1
  else
    product

def MulModular (multiplicand : BixNum α) (multiplier : ℕ) : BixNum α :=
  let product := List.replicate multiplicand.length mPB.createZeroes
  if multiplier = 0 then
    product
  else
    let multiplier_bits := multiplier.log2 + 1
    (List.range multiplier_bits).foldl (mulModularStep mPB multiplicand multiplier) product

def AddFullConst (augend : BixNum α) (addend : ℕ) : Except Fault (BixNum α) :=
  if addend = 0 then
    .ok augend
  else
    let addend_bits := addend.log2 + 1
    AddModularConst mPB (ZeroExtend mPB augend (max augend.length addend_bits + 1)) addend

def AddFull (augend addend : BixNum α) : BixNum α :=
  let (augend, addend) :=
    if augend.length < addend.length then (addend, augend) else (augend, addend)
  let sum := addLoop mPB mPB.createZeroes augend addend
  sum.1 ++ [sum.2]

/-- The multiplicand is added at the `i`-th bit, and the carry stored above it. -/
def mulAddStep (multiplicand : BixNum α) (multiplier : ℕ) (product : BixNum α) (i : ℕ) :
    BixNum α :=
  if multiplier.testBit i then
    let size := multiplicand.length
    let sum := addLoop mPB mPB.createZeroes ((product.drop i).take size) multiplicand
    product.take i ++ sum.1 ++ sum.2 :: product.drop (size + i + 1)
  else
    product

/-- The multiplicand is subtracted at the `i`-th bit. -/
def mulSubStep (multiplicand : BixNum α) (complement : ℕ) (product : BixNum α) (i : ℕ) :
    BixNum α :=
  if complement.testBit i then
    product.take i ++ subLoop mPB mPB.createZeroes (product.drop i) multiplicand
  else
    product

def popcount (x : ℕ) : ℕ := (List.range 32).countP x.testBit

def MulFull (multiplicand : BixNum α) (multiplier : ℕ) : BixNum α :=
  let multiplier_bits := multiplier.log2 + 1
  let product := List.replicate (multiplicand.length + multiplier_bits) mPB.createZeroes
  if popcount multiplier ≤ multiplier_bits / 2 then
    (List.range multiplier_bits).foldl (mulAddStep mPB multiplicand multiplier) product
  else
    let complement := negate multiplier
    let product :=
      (List.range multiplier_bits).foldl (mulSubStep mPB multiplicand complement) product
    product.take multiplier_bits ++
      (addLoop mPB mPB.createZeroes (product.drop multiplier_bits) multiplicand).1

end BixNumCompiler

end Parabix.Pablo
