import Parabix.Library.UTF8
import Parabix.Unicode.Basis
import Parabix.Unicode.Hangul

namespace Parabix.Unicode

open Library Library.BitStream Library.UTF8 Pablo Pablo.BixNumCompiler

namespace Hangul

def isL (c : ℕ) : Bool := decide (LBase ≤ c ∧ c ≤ LBase + LCount - 1)

def isV (c : ℕ) : Bool := decide (VBase ≤ c ∧ c ≤ VBase + VCount - 1)

def isLV (c : ℕ) : Bool := (List.range (LCount * VCount)).any fun i ↦ c == SBase + i * TCount

def isT (c : ℕ) : Bool := decide (TBase + 1 ≤ c ∧ c ≤ TBase + TCount - 1)

end Hangul

open Hangul

/-- The first bits of a number are replaced, under a condition. -/
def spliceBits (cond : Stream) : BixNum Stream → BixNum Stream → BixNum Stream
  | a :: new, b :: old => PabloBuilder.streams.createSel cond a b :: spliceBits cond new old
  | _, old => old

namespace Hangul_Composition

variable (runs : Stream) (Basis : BixNum Stream) (Hangul_L Hangul_V Hangul_LV Hangul_T : Stream)

def codeUnitsPerChar : ℕ := if 8 < Basis.length then 1 else 3

def L_prefix : Stream := fun p ↦
  Hangul_L p && createLookahead Hangul_V (codeUnitsPerChar Basis) p

def V_suffix : Stream := advanceIn runs (codeUnitsPerChar Basis) ( L_prefix Basis Hangul_L Hangul_V)

def LV_sequence : Stream := fun p ↦ Hangul_LV p || V_suffix runs Basis Hangul_L Hangul_V p

def LVT_sequence : Stream := fun p ↦ LV_sequence runs Basis Hangul_L Hangul_V Hangul_LV p &&
  createLookahead Hangul_T (codeUnitsPerChar Basis) p

def T_suffix : Stream := advanceIn runs (codeUnitsPerChar Basis)
  (LVT_sequence runs Basis Hangul_L Hangul_V Hangul_LV Hangul_T)

def absorbedStart : Stream := fun p ↦ L_prefix Basis Hangul_L Hangul_V p ||
  T_suffix runs Basis Hangul_L Hangul_V Hangul_LV Hangul_T p

/-- With the two suffix bytes of UTF-8. -/
def Deletable : Stream :=
  let deletable := absorbedStart runs Basis Hangul_L Hangul_V Hangul_LV Hangul_T
  if Basis.length = 8 then fun p ↦
    deletable p || advanceIn runs 1 deletable p || advanceIn runs 2 deletable p
  else deletable

/-- The mask has all ones before the branch. -/
def mask : Stream := fun p ↦
  true ^^ Deletable runs Basis Hangul_L Hangul_V Hangul_LV Hangul_T p

def index_bits : ℕ := 5

def indexMask : ℕ := 2 ^ index_bits - 1

def shiftBack : ℕ := codeUnitsPerChar Basis - 1

def LIndex : BixNum Stream := (Basis.take index_bits).map fun bit p ↦
  advanceIn runs 1 bit p && V_suffix runs Basis Hangul_L Hangul_V p

def VIndex : Except Fault (BixNum Stream) := do
  let VIndex ← if Basis.length = 8 then
      .ok ((Basis.take index_bits).map fun bit ↦ createLookahead bit (shiftBack Basis))
    else Truncate Basis index_bits
  let difference ← SubModularConst .streams VIndex (VBase &&& indexMask)
  return SelectConst .streams (V_suffix runs Basis Hangul_L Hangul_V) difference 0

def Computed_LV : Except Fault (BixNum Stream) := do
  let VIndex ← VIndex runs Basis Hangul_L Hangul_V
  let LIndex := LIndex runs Basis Hangul_L Hangul_V
  let LV_combined := AddFull .streams (MulFull .streams LIndex VCount) VIndex
  let SIndex := MulFull .streams LV_combined TCount
  let sum ← AddFullConst .streams SIndex SBase
  return SelectConst .streams (V_suffix runs Basis Hangul_L Hangul_V) sum 0

/-- The bits of a precomposed syllable, from the last one of its bytes on. -/
def precomposedBits : BixNum Stream :=
  ((Basis.take 6).map fun bit ↦ createLookahead bit 2) ++
    ((Basis.take 6).map fun bit ↦ createLookahead bit 1) ++ Basis

def Merged_LV : Except Fault (BixNum Stream) := do
  let Computed_LV ← Computed_LV runs Basis Hangul_L Hangul_V
  if Basis.length = 8 then
    return selectBits Hangul_LV (precomposedBits Basis) Computed_LV
  else
    return Select .streams Hangul_LV Basis Computed_LV

def TIndex : Except Fault (BixNum Stream) := do
  let TIndex := (Basis.take index_bits).map fun bit ↦
    createLookahead bit (codeUnitsPerChar Basis + shiftBack Basis)
  let difference ← SubModularConst .streams TIndex (TBase &&& indexMask)
  return SelectConst .streams (LVT_sequence runs Basis Hangul_L Hangul_V Hangul_LV Hangul_T)
    difference 0

def Composed : Except Fault (BixNum Stream) := do
  let Merged_LV ← Merged_LV runs Basis Hangul_L Hangul_V Hangul_LV
  let TIndex ← TIndex runs Basis Hangul_L Hangul_V Hangul_LV Hangul_T
  return AddFull .streams Merged_LV TIndex

/-- What is left where characters are absorbed. -/
def selected : BixNum Stream := Basis.map fun bit p ↦
  bit p && mask runs Basis Hangul_L Hangul_V Hangul_LV Hangul_T p

/-- Only the low bits of the bytes change: four of the first one, and six of each suffix. -/
def updatedBytes (Composed : BixNum Stream) : BixNum Stream :=
  let LV_sequence := LV_sequence runs Basis Hangul_L Hangul_V Hangul_LV
  let LV_suffix1 := advanceIn runs 1 LV_sequence
  let LV_suffix2 := advanceIn runs 2 LV_sequence
  let updated := selected runs Basis Hangul_L Hangul_V Hangul_LV Hangul_T
  let updated := spliceBits LV_sequence ((Composed.drop 12).take 4) updated
  let updated := spliceBits LV_suffix1 (((Composed.drop 6).take 6).map (advanceIn runs 1)) updated
  spliceBits LV_suffix2 ((Composed.take 6).map (advanceIn runs 2)) updated

/-- The output basis after the branch. -/
def generatePabloMethod : Except Fault (BixNum Stream) := do
  let Composed ← Composed runs Basis Hangul_L Hangul_V Hangul_LV Hangul_T
  if Basis.length = 8 then
    let updated := updatedBytes runs Basis Hangul_L Hangul_V Hangul_LV Hangul_T Composed
    return List.zipWith (assignIn runs) Basis updated
  else
    let Composed ← ZeroExtendTo .streams Composed Basis.length
    let LV_sequence := LV_sequence runs Basis Hangul_L Hangul_V Hangul_LV
    let selected := selected runs Basis Hangul_L Hangul_V Hangul_LV Hangul_T
    return List.zipWith (assignIn runs) Basis (selectBits LV_sequence Composed selected)

/-- The branch runs for whole blocks, where there is an L or an LV, and where a bit of a sequence
is carried to. -/
structure Branches (w : ℕ) : Prop where
  blocks (p q : ℕ) (hpq : p / w = q / w) : runs p = runs q
  runs : Runs (fun _ ↦ true) (fun p ↦ Hangul_L p || Hangul_LV p)
    [( L_prefix Basis Hangul_L Hangul_V, codeUnitsPerChar Basis),
      (LVT_sequence runs Basis Hangul_L Hangul_V Hangul_LV Hangul_T, codeUnitsPerChar Basis),
      (absorbedStart runs Basis Hangul_L Hangul_V Hangul_LV Hangul_T, 1),
      (absorbedStart runs Basis Hangul_L Hangul_V Hangul_LV Hangul_T, 2),
      (LV_sequence runs Basis Hangul_L Hangul_V Hangul_LV, 1),
      (LV_sequence runs Basis Hangul_L Hangul_V Hangul_LV, 2)] runs

end Hangul_Composition

section Text

variable (enc : ℕ → List ℕ) (text : List ℕ)

/-- The first units of the characters of a class. -/
def classMarks (P : ℕ → Bool) : Stream := fun p ↦
  (List.range text.length).any fun n ↦ text[n]?.any P && p == start enc text n

/-- An L before a V. -/
def leads (n : ℕ) : Bool := text[n]?.any isL && text[n + 1]?.any isV

/-- A V after an L. -/
def follows (n : ℕ) : Bool := decide (0 < n) && leads text (n - 1)

def syllable (n : ℕ) : Bool := text[n]?.any isLV || follows text n

/-- A T after a syllable. -/
def trails (n : ℕ) : Bool := decide (0 < n) && syllable text (n - 1) && text[n]?.any isT

/-- The composed syllable in place of the V or LV. -/
def syllableAt (n : ℕ) : ℕ :=
  let LV := if text[n]?.any isLV then text.getD n 0
    else SBase + ((text.getD (n - 1) 0 - LBase) * VCount + (text.getD n 0 - VBase)) * TCount
  LV + if text[n + 1]?.any isT then text.getD (n + 1) 0 - TBase else 0

/-- The code units in place of a character. -/
def composedUnits (n : ℕ) : List ℕ :=
  if leads text n || trails text n then (enc (text.getD n 0)).map fun _ ↦ 0
  else if syllable text n then enc (syllableAt text n)
  else enc (text.getD n 0)

/-- The code units of a character, for a basis of the given size. -/
def encode (size : ℕ) : ℕ → List ℕ := if size = 8 then utf8 else fun c ↦ [c]

/-- The kernel, for a text and the streams of its classes. -/
def hangulComposition (runs : Stream) (size : ℕ) : Except Fault (BixNum Stream) :=
  Hangul_Composition.generatePabloMethod runs
    ((List.range size).map (basisOf (text.flatMap (encode size))))
    (classMarks (encode size) text isL) (classMarks (encode size) text isV)
    (classMarks (encode size) text isLV) (classMarks (encode size) text isT)

/-- The kernel composes the syllables of a text. -/
def Composes (runs : Stream) (size : ℕ) : Prop :=
  ∃ Output_Basis, hangulComposition text runs size = .ok Output_Basis ∧ Output_Basis.length = size ∧
    (List.range (text.flatMap (encode size)).length).map (fun p ↦ value id p Output_Basis) =
      (List.range text.length).flatMap (composedUnits (encode size) text)

end Text

end Parabix.Unicode
