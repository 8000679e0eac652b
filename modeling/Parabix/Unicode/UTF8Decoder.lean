import Parabix.Library.Branch
import Parabix.Unicode.UTF8Gen

namespace Parabix.Unicode

open Library Library.BitStream

inductive BitMovementMode
  | Advance
  | LookAhead

/-- The positions of the bytes from `lo` to `hi`. -/
def compileByte (basis : Basis) (lo hi : ℕ) : Stream := fun p ↦
  decide (lo ≤ codeUnit 8 basis p) && decide (codeUnit 8 basis p ≤ hi)

namespace UTF8_Decoder

variable (mBitMovement : BitMovementMode) (UTF8_bit : Basis) (runs1 runs2 runs3 : Stream)

section Main

def ASCII : Stream := compileByte UTF8_bit 0x0 0x7F

/-- The low seven bits of the ASCII bytes, and zeros. -/
def initialBits : Basis := fun i ↦
  if i < 7 then fun p ↦ ASCII UTF8_bit p && UTF8_bit i p else fun _ ↦ false

def u8pfx : Stream := compileByte UTF8_bit 0xC0 0xFF

/-- `count` variables from the `offset`-th on take the bits too. -/
def orInto (offset count : ℕ) (Unicode_bit bits : Basis) : Basis := fun i ↦
  if offset ≤ i ∧ i < offset + count then fun p ↦ Unicode_bit i p || bits (i - offset) p
  else Unicode_bit i

/-- Bits are moved in the mode `Advance` only. -/
def moved (runs : Stream) (n : ℕ) (s : Stream) : Stream :=
  match mBitMovement with
  | .Advance => advanceIn runs n s
  | .LookAhead => s

/-- The positions whose `n`-th next byte is a suffix. -/
def isSuffix (n : ℕ) : Stream := fun p ↦
  createLookahead (UTF8_bit 7) n p && !createLookahead (UTF8_bit 6) n p

end Main

section Level1

def u8pfx2 : Stream := compileByte UTF8_bit 0xC0 0xDF

def pfx2_bit : Basis := fun i ↦ moved mBitMovement runs1 1 fun p ↦ u8pfx2 UTF8_bit p && UTF8_bit i p

def suffix : Stream := fun p ↦ UTF8_bit 7 p && !UTF8_bit 6 p

def suffix2 : Stream := isSuffix UTF8_bit 1

def scope22 : Stream :=
  match mBitMovement with
  | .LookAhead => fun p ↦ u8pfx2 UTF8_bit p && suffix2 UTF8_bit p
  | .Advance => fun p ↦ suffix UTF8_bit p && advanceIn runs1 1 (u8pfx2 UTF8_bit) p

def suffix2_bit : Basis := fun i ↦
  match mBitMovement with
  | .LookAhead => fun p ↦ suffix2 UTF8_bit p && createLookahead (UTF8_bit i) 1 p
  | .Advance => UTF8_bit i

def level1 (Unicode_bit : Basis) : Basis :=
  let Unicode_bit := orInto 6 5 Unicode_bit (pfx2_bit mBitMovement UTF8_bit runs1)
  orInto 0 6 Unicode_bit fun i p ↦
    scope22 mBitMovement UTF8_bit runs1 p && suffix2_bit mBitMovement UTF8_bit i p

/-- What the body advances. -/
def carries1 : List (Stream × ℕ) :=
  match mBitMovement with
  | .LookAhead => []
  | .Advance => (u8pfx2 UTF8_bit, 1) ::
      (List.range 5).map fun i ↦ (fun p ↦ u8pfx2 UTF8_bit p && UTF8_bit i p, 1)

end Level1

section Level2

def u8pfx34 : Stream := compileByte UTF8_bit 0xE0 0xFF

def u8pfx3 : Stream := compileByte UTF8_bit 0xE0 0xEF

def pfx3_bit : Basis := fun i ↦ moved mBitMovement runs2 2 fun p ↦ u8pfx3 UTF8_bit p && UTF8_bit i p

def suffix3 : Stream := isSuffix UTF8_bit 2

def scope32 : Stream :=
  match mBitMovement with
  | .LookAhead => fun p ↦ u8pfx3 UTF8_bit p && suffix2 UTF8_bit p
  | .Advance => fun p ↦ suffix UTF8_bit p && advanceIn runs2 1 (u8pfx3 UTF8_bit) p

def scope33 : Stream :=
  match mBitMovement with
  | .LookAhead => fun p ↦ u8pfx3 UTF8_bit p && suffix3 UTF8_bit p
  | .Advance => fun p ↦
      suffix UTF8_bit p && advanceIn runs2 1 (scope32 mBitMovement UTF8_bit runs2) p

def suffix3_bit : Basis := fun i ↦
  match mBitMovement with
  | .LookAhead => createLookahead (UTF8_bit i) 2
  | .Advance => UTF8_bit i

def scoped32bit : Basis := fun i p ↦
  scope32 mBitMovement UTF8_bit runs2 p && suffix2_bit mBitMovement UTF8_bit i p

def sfx32bit : Basis := fun i ↦
  moved mBitMovement runs2 1 (scoped32bit mBitMovement UTF8_bit runs2 i)

def sfx33bit : Basis := fun i p ↦
  scope33 mBitMovement UTF8_bit runs2 p && suffix3_bit mBitMovement UTF8_bit i p

def level2 (Unicode_bit : Basis) : Basis :=
  let Unicode_bit := orInto 12 4 Unicode_bit (pfx3_bit mBitMovement UTF8_bit runs2)
  let Unicode_bit := orInto 6 6 Unicode_bit (sfx32bit mBitMovement UTF8_bit runs2)
  orInto 0 6 Unicode_bit (sfx33bit mBitMovement UTF8_bit runs2)

def carries2 : List (Stream × ℕ) :=
  match mBitMovement with
  | .LookAhead => []
  | .Advance => (u8pfx3 UTF8_bit, 1) :: (scope32 mBitMovement UTF8_bit runs2, 1) ::
      ((List.range 4).map fun i ↦ (fun p ↦ u8pfx3 UTF8_bit p && UTF8_bit i p, 2)) ++
      (List.range 6).map fun i ↦ (scoped32bit mBitMovement UTF8_bit runs2 i, 1)

end Level2

section Level3

def u8pfx4 : Stream := compileByte UTF8_bit 0xF0 0xFF

def pfx4_bit : Basis := fun i ↦ moved mBitMovement runs3 3 fun p ↦ u8pfx4 UTF8_bit p && UTF8_bit i p

def suffix4 : Stream := isSuffix UTF8_bit 3

def scope42 : Stream :=
  match mBitMovement with
  | .Advance => fun p ↦ suffix UTF8_bit p && advanceIn runs3 1 (u8pfx4 UTF8_bit) p
  | .LookAhead => fun p ↦ u8pfx4 UTF8_bit p && suffix2 UTF8_bit p

def scope43 : Stream :=
  match mBitMovement with
  | .Advance => fun p ↦
      suffix UTF8_bit p && advanceIn runs3 1 (scope42 mBitMovement UTF8_bit runs3) p
  | .LookAhead => fun p ↦ u8pfx4 UTF8_bit p && suffix3 UTF8_bit p

def scope44 : Stream :=
  match mBitMovement with
  | .Advance => fun p ↦
      suffix UTF8_bit p && advanceIn runs3 1 (scope43 mBitMovement UTF8_bit runs3) p
  | .LookAhead => fun p ↦ u8pfx4 UTF8_bit p && suffix4 UTF8_bit p

def suffix4_bit : Basis := fun i ↦
  match mBitMovement with
  | .LookAhead => createLookahead (UTF8_bit i) 3
  | .Advance => UTF8_bit i

def scoped42bit : Basis := fun i p ↦
  scope42 mBitMovement UTF8_bit runs3 p && suffix2_bit mBitMovement UTF8_bit i p

def scoped43bit : Basis := fun i p ↦
  scope43 mBitMovement UTF8_bit runs3 p && suffix3_bit mBitMovement UTF8_bit i p

def sfx42bit : Basis := fun i ↦
  moved mBitMovement runs3 2 (scoped42bit mBitMovement UTF8_bit runs3 i)

def sfx43bit : Basis := fun i ↦
  moved mBitMovement runs3 1 (scoped43bit mBitMovement UTF8_bit runs3 i)

def sfx44bit : Basis := fun i p ↦
  scope44 mBitMovement UTF8_bit runs3 p && suffix4_bit mBitMovement UTF8_bit i p

def level3 (Unicode_bit : Basis) : Basis :=
  let Unicode_bit := orInto 18 3 Unicode_bit (pfx4_bit mBitMovement UTF8_bit runs3)
  let Unicode_bit := orInto 12 6 Unicode_bit (sfx42bit mBitMovement UTF8_bit runs3)
  let Unicode_bit := orInto 6 6 Unicode_bit (sfx43bit mBitMovement UTF8_bit runs3)
  orInto 0 6 Unicode_bit (sfx44bit mBitMovement UTF8_bit runs3)

def carries3 : List (Stream × ℕ) :=
  match mBitMovement with
  | .LookAhead => []
  | .Advance => (u8pfx4 UTF8_bit, 1) :: (scope42 mBitMovement UTF8_bit runs3, 1) ::
      (scope43 mBitMovement UTF8_bit runs3, 1) ::
      ((List.range 3).map fun i ↦ (fun p ↦ u8pfx4 UTF8_bit p && UTF8_bit i p, 3)) ++
      ((List.range 6).map fun i ↦ (scoped42bit mBitMovement UTF8_bit runs3 i, 2)) ++
      (List.range 6).map fun i ↦ (scoped43bit mBitMovement UTF8_bit runs3 i, 1)

end Level3

/-- The 21 basis bit streams of the code points. -/
def unicode_bit : Basis :=
  let Unicode_bit0 := initialBits UTF8_bit
  let Unicode_bit1 := level1 mBitMovement UTF8_bit runs1 Unicode_bit0
  let Unicode_bit2 := level2 mBitMovement UTF8_bit runs2 Unicode_bit1
  let Unicode_bit3 := level3 mBitMovement UTF8_bit runs3 Unicode_bit2
  fun i ↦ assignIn runs1 (Unicode_bit0 i)
    (assignIn runs2 (Unicode_bit1 i) (assignIn runs3 (Unicode_bit2 i) (Unicode_bit3 i)))

/-- The branches run where the code of their bodies must run. -/
structure Branches : Prop where
  level1 : Runs (fun _ ↦ true) (u8pfx UTF8_bit) (carries1 mBitMovement UTF8_bit) runs1
  level2 : Runs runs1 (u8pfx34 UTF8_bit) (carries2 mBitMovement UTF8_bit runs2) runs2
  level3 : Runs runs2 (u8pfx4 UTF8_bit) (carries3 mBitMovement UTF8_bit runs3) runs3

end UTF8_Decoder

end Parabix.Unicode
