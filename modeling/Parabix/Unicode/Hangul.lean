import Parabix.Library.Branch
import Parabix.Pablo.BixNumDivision

namespace Parabix.Unicode

open Library Library.BitStream Pablo Pablo.BixNumCompiler

namespace Hangul

def SBase : ℕ := 0xAC00

def LBase : ℕ := 0x1100

def VBase : ℕ := 0x1161

def TBase : ℕ := 0x11A7

def LCount : ℕ := 19

def VCount : ℕ := 21

def TCount : ℕ := 28

def NCount : ℕ := 588

def SCount : ℕ := 11172

def S_Index_bits : ℕ := 14

def L_Index_bits : ℕ := 5

def V_Index_bits : ℕ := 5

def T_Index_bits : ℕ := 5

/-- A precomposed syllable. -/
def Precomposed (s : ℕ) : Prop := SBase ≤ s ∧ s < SBase + SCount

instance decidablePrecomposed (s : ℕ) : Decidable (Precomposed s) :=
  inferInstanceAs (Decidable (_ ∧ _))

/-- The jamo of a precomposed syllable. -/
def decomposition (s : ℕ) : List ℕ :=
  let SIndex := s - SBase
  let LIndex := SIndex / NCount
  let VIndex := SIndex % NCount / TCount
  let TIndex := SIndex % TCount
  [LBase + LIndex, VBase + VIndex] ++ if TIndex = 0 then [] else [TBase + TIndex]

end Hangul

open Hangul

/-- The first bits of a number are assigned to variables that are zeroes before a branch. -/
def assignIndex (runs : Stream) (bits : ℕ) (index : BixNum Stream) :
    Except Fault (BixNum Stream) :=
  if bits ≤ index.length then .ok ((index.take bits).map (assignIn runs fun _ ↦ false))
  else .error .memory

/-- The bits of one of two numbers, under a condition. -/
def selectBits (cond : Stream) (val1 val0 : BixNum Stream) : BixNum Stream :=
  List.zipWith (PabloBuilder.streams.createSel cond) val1 val0

def Hangul_precomposed (basis : BixNum Stream) : Stream := fun p ↦
  UGE .streams basis SBase p && ULT .streams basis (SBase + SCount) p

namespace LVT_Indexes

variable (runs : Stream) (basis : BixNum Stream)

/-- The branch runs where a syllable starts. -/
def Branches : Prop := Runs (fun _ ↦ true) (Hangul_precomposed basis) [] runs

/-- The numbers of L, V and T. -/
def generatePabloMethod : Except Fault (BixNum Stream × BixNum Stream × BixNum Stream) := do
  let ZeroBasis := List.replicate basis.length PabloBuilder.streams.createZeroes
  let difference ← SubModularConst .streams basis SBase
  let S_Index := Select .streams (Hangul_precomposed basis) difference ZeroBasis
  let S_Index ← Truncate S_Index S_Index_bits
  let (LV_index, T_index) ← Div .streams S_Index TCount
  let LV_index ← Truncate LV_index (L_Index_bits + V_Index_bits)
  let (L_index, V_index) ← Div .streams LV_index VCount
  let L_index ← assignIndex runs L_Index_bits L_index
  let V_index ← assignIndex runs V_Index_bits V_index
  let T_index ← assignIndex runs T_Index_bits T_index
  return (L_index, V_index, T_index)

end LVT_Indexes

namespace LVT2NFD

variable (runs : Stream) (basis L_index V_index T_index : BixNum Stream)

/-- The branch runs where a syllable starts, and where a bit is carried to. -/
def Branches : Prop := Runs (fun _ ↦ true) (Hangul_precomposed basis)
  ((Hangul_precomposed basis, 1) :: (Hangul_precomposed basis, 2) ::
    (V_index.map fun bit ↦ (bit, 1)) ++ T_index.map fun bit ↦ (bit, 2)) runs

/-- The L part is at the position of the syllable, the V part one position later, and the T part,
if there is one, two positions later. -/
def generatePabloMethod : Except Fault (BixNum Stream) := do
  let LPart ← ZeroExtendTo .streams L_index 21
  let LPart ← AddModularConst .streams LPart LBase
  let V_position := advanceIn runs 1 (Hangul_precomposed basis)
  let V_index := V_index.map (advanceIn runs 1)
  let VPart ← ZeroExtendTo .streams V_index 21
  let VPart ← AddModularConst .streams VPart VBase
  let T_position := advanceIn runs 2 (Hangul_precomposed basis)
  let T_index := T_index.map (advanceIn runs 2)
  let T_position := fun p ↦ T_position p && NEQ .streams T_index 0 p
  let TPart ← ZeroExtendTo .streams T_index 21
  let TPart ← AddModularConst .streams TPart TBase
  let bits := selectBits (Hangul_precomposed basis) LPart basis
  let bits := selectBits V_position VPart bits
  let bits := selectBits T_position TPart bits
  return List.zipWith (assignIn runs) basis bits

end LVT2NFD

end Parabix.Unicode
