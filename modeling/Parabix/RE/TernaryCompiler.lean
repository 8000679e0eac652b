import Parabix.Library.LowestBit
import Parabix.Pablo.Expression
import Parabix.RE.CCCompiler

namespace Parabix.RE

open Library UCD Pablo

/-- The ternary operations, and the tests of the class of a node. -/
structure TernaryBuilder (α : Type) extends CCBuilder α where
  createTernary : BitVec 8 → α → α → α → α
  createAndXor : α → α → α → α
  createAndOr : α → α → α → α
  createOrAnd : α → α → α → α
  isOnes : α → Bool
  castAnd : α → Option (α × α)
  castOr : α → Option (α × α)

namespace Parabix_Ternary_CC_Compiler

open Parabix_CC_Compiler (getBasisVar intervalsLoop mEncodingMask)

variable {α : Type} (pb : TernaryBuilder α) (mBasisBit : BixNum α)

section Terms

/-- One round of the reduction. What is left over is taken from the end on. -/
def joinTriples (create3 : α → α → α → α) : List α → List α
  | a :: b :: c :: terms => create3 a b c :: joinTriples create3 terms
  | terms => terms.reverse

/-- The rounds of `joinTerms`, with the constructors of its class of terms. -/
def joinRounds (create : α → α → α) (create3 : α → α → α → α) : ℕ → List α → Except Fault α
  | 0, _ => .error .fuel
  | fuel + 1, terms =>
    match joinTriples create3 terms with
    | [] => .error .memory
    | [term] => .ok term
    | [front, back] => .ok (create front back)
    | terms => joinRounds create create3 fuel terms

def joinTerms (create : α → α → α) (create3 : α → α → α → α) (terms : List α) : Except Fault α :=
  if terms.isEmpty then .ok pb.createZeroes else joinRounds create create3 terms.length terms

/-- The terms of the bits selected, from `basis_idx` on. -/
def patternTerms (pattern basis_idx selected_bits : ℕ) : List α :=
  ((List.range' basis_idx (mBasisBit.length - basis_idx)).filter selected_bits.testBit).map fun i ↦
    if pattern.testBit i then getBasisVar pb.toCCBuilder mBasisBit i
    else pb.createNot (getBasisVar pb.toCCBuilder mBasisBit i)

def bit_pattern_expr (pattern basis_idx selected_bits : ℕ) : Except Fault α :=
  if selected_bits = 0 then
    .ok pb.createOnes
  else
    joinTerms pb pb.createAnd pb.createAnd3
      (patternTerms pb mBasisBit pattern basis_idx selected_bits)

end Terms

section Ranges

/-- The test of the lower bits is taken apart when it is a disjunction or a conjunction. -/
def createOrRange (bit lo_range : α) : α :=
  match pb.castOr lo_range, pb.castAnd lo_range with
  | some (expr1, expr2), _ => pb.createOr3 bit expr1 expr2
  | none, some (expr1, expr2) => pb.createOrAnd bit expr1 expr2
  | none, none => pb.createOr bit lo_range

def createAndRange (bit lo_range : α) : α :=
  match pb.castAnd lo_range, pb.castOr lo_range with
  | some (expr1, expr2), _ => pb.createAnd3 bit expr1 expr2
  | none, some (expr1, expr2) => pb.createAndOr bit expr1 expr2
  | none, none => pb.createAnd bit lo_range

/-- The constructors as the comparisons use them. -/
def ranges : CCBuilder α :=
  { pb.toCCBuilder with
    createOr := createOrRange pb
    createAnd := createAndRange pb }

/-- The recursion is that of the binary compiler. -/
def GE_Range (N n : ℕ) : α := Parabix_CC_Compiler.GE_Range (ranges pb) mBasisBit N n

def LE_Range (N n : ℕ) : α :=
  if n + 1 = 2 ^ N then pb.createOnes else pb.createNot (GE_Range pb mBasisBit N (n + 1))

def make_range (mask lo hi : ℕ) : Except Fault α := do
  let irr_bits := countForwardZeroes (lo ||| (2 ^ 32 - (hi + 1)))
  let diff_count := (lo ^^^ hi).size
  let mask0 := 2 ^ diff_count - 1
  let common ← bit_pattern_expr pb mBasisBit (lo.ldiff mask0) irr_bits (mask ^^^ mask0)
  if diff_count = 0 ∨ diff_count = irr_bits then
    return common
  let mask1 := 2 ^ (diff_count - 1) - 1
  let mask2 := mask1 >>> irr_bits <<< irr_bits
  let basisVar := getBasisVar pb.toCCBuilder mBasisBit (diff_count - 1)
  if ((hi &&& mask2) >>> irr_bits) + 1 = (lo &&& mask2) >>> irr_bits then
    let lo_test := GE_Range pb mBasisBit (diff_count - 1) (lo &&& mask2)
    if pb.isOnes common then
      return pb.createXor basisVar lo_test
    return pb.createAndXor common basisVar lo_test
  else if mask2 &&& hi = mask2 then
    -- hi with pattern xx111xx
    let lo_test := GE_Range pb mBasisBit (diff_count - 1) (lo &&& mask2)
    if pb.isOnes common then
      return pb.createOr basisVar lo_test
    return pb.createAndOr common basisVar lo_test
  else if mask2 ^^^ (mask2 &&& lo) = mask2 then
    -- lo with pattern xx000xx
    let hi_test := LE_Range pb mBasisBit (diff_count - 1) (hi &&& mask1)
    if pb.isOnes common then
      return pb.createOr (pb.createNot basisVar) hi_test
    return pb.createAndOr common (pb.createNot basisVar) hi_test
  let lo_test := GE_Range pb mBasisBit (diff_count - 1) (lo &&& mask1)
  let hi_test := LE_Range pb mBasisBit (diff_count - 1) (hi &&& mask1)
  let lo_zeroes := countForwardZeroes (lo >>> irr_bits)
  let hi_ones := countForwardZeroes ((2 ^ 32 - (hi + 1)) >>> irr_bits)
  let nextVar := getBasisVar pb.toCCBuilder mBasisBit (diff_count - 2)
  let sel :=
    if mask2 >>> irr_bits >>> lo_zeroes = 1 then
      -- lo with pattern xx100xx
      pb.createSel basisVar hi_test nextVar
    else if mask2 >>> irr_bits >>> hi_ones = 1 then
      -- hi with pattern xx011xx
      pb.createSel basisVar (pb.createNot nextVar) lo_test
    else
      pb.createSel basisVar hi_test lo_test
  return pb.createAnd common sel

def char_or_range_expr (mask lo hi : ℕ) : Except Fault α :=
  if lo = hi then
    Parabix_CC_Compiler.bit_pattern_expr pb.toCCBuilder mBasisBit lo mask
  else if lo < hi then
    make_range pb mBasisBit mask lo hi
  else
    .error (.fatal s!"Invalid Character Set Range: [{lo},{hi}]")

def make_intervals_expr (mask : ℕ) (intervals : List (ℕ × ℕ)) : Except Fault α := do
  let expr ← intervalsLoop pb.toCCBuilder (char_or_range_expr pb mBasisBit mask) none intervals
  return expr.getD pb.createZeroes

end Ranges

section Octets

/-- The base code point of an octet and the mask of its members. -/
abbrev octet_pair_t := ℕ × BitVec 8

/-- Adds an octet, or adds to the last one. -/
def pushOctet (octets : List octet_pair_t) (octet : ℕ) (mask : BitVec 8) : List octet_pair_t :=
  match octets.getLast? with
  | some lst_selected =>
    if octet = lst_selected.1 then
      octets.dropLast ++ [(octet, mask ||| lst_selected.2)]
    else
      octets ++ [(octet, mask)]
  | none => [(octet, mask)]

def octetMask (lo_bit hi_bit : ℕ) : BitVec 8 :=
  (List.range' lo_bit (hi_bit + 1 - lo_bit)).foldl (fun mask j ↦ mask ||| 1 <<< j) 0

/-- An interval that goes on to the loop over its octets has only one. -/
def addInterval (u : List octet_pair_t × List (ℕ × ℕ)) (i : ℕ × ℕ) :
    List octet_pair_t × List (ℕ × ℕ) :=
  let fst_octet := i.1 &&& 0xFFFFFFF8
  let lst_octet := i.2 &&& 0xFFFFFFF8
  if fst_octet ≠ lst_octet then
    (u.1, u.2 ++ [i])
  else
    (pushOctet u.1 fst_octet (octetMask (i.1 - fst_octet) (i.2 - fst_octet)), u.2)

/-- The intervals that lie within an octet, as octets, and the others. -/
def make_octets_intervals_union (cc : List (ℕ × ℕ)) : List octet_pair_t × List (ℕ × ℕ) :=
  cc.foldl addInterval ([], [])

/-- The test of the five higher bits. -/
def octetHi5 (octet : ℕ) : α :=
  let basisVar := getBasisVar pb.toCCBuilder mBasisBit
  let mid3_mask : BitVec 8 := 1 <<< ((octet &&& 0x38) >>> 3)
  let hi2_mask : BitVec 8 := 1 <<< ((octet &&& 0xC0) >>> 6)
  let mid3 := pb.createTernary mid3_mask (basisVar 5) (basisVar 4) (basisVar 3)
  pb.createTernary (hi2_mask <<< 4) mid3 (basisVar 7) (basisVar 6)

def addOctet (terms : List α) (octet : octet_pair_t) : List α :=
  let basisVar := getBasisVar pb.toCCBuilder mBasisBit
  let hi5 := octetHi5 pb mBasisBit octet.1
  if octet.2 ≠ 0xFF then
    let lo3 := pb.createTernary octet.2 (basisVar 2) (basisVar 1) (basisVar 0)
    terms ++ [pb.createAnd hi5 lo3]
  else
    match terms.getLast? with
    | none => [hi5]
    | some back => terms.dropLast ++ [pb.createOr back hi5]

def make_octets_expr (octets : List octet_pair_t) : Except Fault α :=
  joinTerms pb pb.createOr pb.createOr3 (octets.foldl (addOctet pb mBasisBit) [])

end Octets

def charset_expr (cc : CC) : Except Fault α := do
  let mask ← mEncodingMask mBasisBit
  if cc.set.empty then
    return pb.createZeroes
  let octets_intervals := make_octets_intervals_union (← cc.set.intervals)
  let expr1 ← make_octets_expr pb mBasisBit octets_intervals.1
  let expr2 ← make_intervals_expr pb mBasisBit mask octets_intervals.2
  return pb.createInFile (pb.createOr expr1 expr2)

def compileCC (cc : CC) : Except Fault α := charset_expr pb mBasisBit cc

end Parabix_Ternary_CC_Compiler

/-- The compiler that the option and the width choose. The ternary one is for bytes only. -/
def Parabix_CC_Compiler_Builder.compileCC {α : Type} (CCCOption : String) (pb : TernaryBuilder α)
    (basisBitSet : BixNum α) (cc : CC) : Except Fault α :=
  if CCCOption = "binary" ∨ basisBitSet.length ≠ 8 then
    Parabix_CC_Compiler.compileCC pb.toCCBuilder basisBitSet cc
  else
    Parabix_Ternary_CC_Compiler.compileCC pb basisBitSet cc

end Parabix.RE
