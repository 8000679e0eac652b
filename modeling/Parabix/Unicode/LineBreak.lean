import Parabix.Unicode.UTF8Decoder

namespace Parabix.Unicode

open Library Library.BitStream

namespace UTF8_index

variable (source : Basis) (runs runs2 runs3 runs4 : Stream)

def u8pfx : Stream := compileByte source 0xC0 0xFF

section Prefixes

def u8pfx2 : Stream := compileByte source 0xC2 0xDF

def u8pfx3 : Stream := compileByte source 0xE0 0xEF

def u8pfx4 : Stream := compileByte source 0xF0 0xF4

def u8suffix : Stream := compileByte source 0x80 0xBF

end Prefixes

section Two

/-- The variable after the branch for two-byte sequences. -/
def anyscope2 : Stream := assignIn runs2 (fun _ ↦ false) (advanceIn runs2 1 (u8pfx2 source))

end Two

section Three

def u8scope32 : Stream := advanceIn runs3 1 (u8pfx3 source)

def u8scope33 : Stream := advanceIn runs3 2 (u8pfx3 source)

def nonFinal3 : Stream :=
  assignIn runs3 (u8pfx source) fun p ↦ u8pfx source p || u8scope32 source runs3 p

def anyscope3 : Stream :=
  assignIn runs3 (anyscope2 source runs2) fun p ↦
    anyscope2 source runs2 p || (u8scope32 source runs3 p || u8scope33 source runs3 p)

def E0_invalid : Stream := fun p ↦
  advanceIn runs3 1 (compileByte source 0xE0 0xE0) p && compileByte source 0x80 0x9F p

def ED_invalid : Stream := fun p ↦
  advanceIn runs3 1 (compileByte source 0xED 0xED) p && compileByte source 0xA0 0xBF p

def EF_invalid3 : Stream :=
  assignIn runs3 (fun _ ↦ false) fun p ↦ E0_invalid source runs3 p || ED_invalid source runs3 p

end Three

section Four

def u8scope42 : Stream := advanceIn runs4 1 (u8pfx4 source)

def u8scope43 : Stream := advanceIn runs4 1 (u8scope42 source runs4)

def u8scope44 : Stream := advanceIn runs4 1 (u8scope43 source runs4)

def u8scope4nonfinal : Stream := fun p ↦ u8scope42 source runs4 p || u8scope43 source runs4 p

def nonFinal4 : Stream :=
  assignIn runs4 (nonFinal3 source runs3) fun p ↦
    nonFinal3 source runs3 p || u8scope4nonfinal source runs4 p

def anyscope4 : Stream :=
  assignIn runs4 (anyscope3 source runs2 runs3) fun p ↦
    anyscope3 source runs2 runs3 p ||
      (u8scope4nonfinal source runs4 p || u8scope44 source runs4 p)

def F0_invalid : Stream := fun p ↦
  advanceIn runs4 1 (compileByte source 0xF0 0xF0) p && compileByte source 0x80 0x8F p

def F4_invalid : Stream := fun p ↦
  advanceIn runs4 1 (compileByte source 0xF4 0xF4) p && compileByte source 0x90 0xBF p

def EF_invalid4 : Stream :=
  assignIn runs4 (EF_invalid3 source runs3) fun p ↦
    EF_invalid3 source runs3 p || (F0_invalid source runs4 p || F4_invalid source runs4 p)

end Four

section Invalid

def legalpfx : Stream := fun p ↦ (u8pfx2 source p || u8pfx3 source p) || u8pfx4 source p

/-- A scope that does not have a suffix byte, or a suffix byte that is not in a scope. -/
def mismatch : Stream := fun p ↦ anyscope4 source runs2 runs3 runs4 p ^^ u8suffix source p

def pfx_invalid : Stream := fun p ↦ u8pfx source p ^^ legalpfx source p

def u8invalid : Stream := fun p ↦
  pfx_invalid source p || (mismatch source runs2 runs3 runs4 p || EF_invalid4 source runs3 runs4 p)

/-- The variable after all branches. -/
def nonFinal : Stream :=
  assignIn runs (u8pfx source) fun p ↦
    nonFinal4 source runs3 runs4 p && !u8invalid source runs2 runs3 runs4 p

end Invalid

/-- What the bodies of the branches advance. -/
def carries2 : List (Stream × ℕ) := [(u8pfx2 source, 1)]

def carries3 : List (Stream × ℕ) :=
  [(u8pfx3 source, 1), (u8pfx3 source, 2), (compileByte source 0xE0 0xE0, 1),
    (compileByte source 0xED 0xED, 1)]

def carries4 : List (Stream × ℕ) :=
  [(u8pfx4 source, 1), (u8scope42 source runs4, 1), (u8scope43 source runs4, 1),
    (compileByte source 0xF0 0xF0, 1), (compileByte source 0xF4 0xF4, 1)]

/-- The branches run where the code of their bodies must run. The outer one advances nothing but
in the inner ones. -/
structure Branches : Prop where
  pfx : Runs (fun _ ↦ true) (u8pfx source) [] runs
  two : Runs runs (u8pfx2 source) (carries2 source) runs2
  three : Runs runs (u8pfx3 source) (carries3 source) runs3
  four : Runs runs (u8pfx4 source) (carries4 source runs4) runs4

/-- A kernel with line breaks as its input processes as many items as they have. -/
def u8index (length : ℕ) (u8_LB : Option Stream) : Stream :=
  let u8final := createInFile length fun p ↦ !nonFinal source runs runs2 runs3 runs4 p
  match u8_LB with
  | some u8_LB => fun p ↦ u8final p || u8_LB p
  | none => u8final

end UTF8_index

inductive UnterminatedLineAtEOF
  | Ignore
  | Add1

/-- The position past the end of the file. -/
def createAtEOF (length : ℕ) (s : Stream) : Stream := fun p ↦ decide (p = length) && s p

namespace UnicodeLines

variable (basis : Basis) (length : ℕ) (mEOFmode : UnterminatedLineAtEOF)
  (crb it it2 it3 it4 : Stream)

/-- The items of the output streams. -/
def items : ℕ :=
  match mEOFmode with
  | .Add1 => length + 1
  | .Ignore => length

def LF : Stream := compileByte basis 0x0A 0x0A

def CR : Stream := compileByte basis 0x0D 0x0D

def LF_VT_FF_CR : Stream := compileByte basis 0x0A 0x0D

section Removed

def CR_before_LF : Stream :=
  assignIn crb (fun _ ↦ false) fun p ↦ CR basis p && createLookahead (LF basis) 1 p

def removedCRLF : Stream :=
  assignIn crb (LF_VT_FF_CR basis) fun p ↦ LF_VT_FF_CR basis p ^^ CR_before_LF basis crb p

end Removed

def NEL : Stream := fun p ↦
  advanceIn it2 1 (compileByte basis 0xC2 0xC2) p && compileByte basis 0x85 0x85 p

def LineBreak2 : Stream :=
  assignIn it2 (removedCRLF basis crb) fun p ↦ removedCRLF basis crb p || NEL basis it2 p

def E2_80 : Stream := fun p ↦
  advanceIn it3 1 (compileByte basis 0xE2 0xE2) p && compileByte basis 0x80 0x80 p

def LS_PS : Stream := fun p ↦
  advanceIn it3 1 (E2_80 basis it3) p && compileByte basis 0xA8 0xA9 p

def LineBreak3 : Stream :=
  assignIn it3 (LineBreak2 basis crb it2) fun p ↦ LineBreak2 basis crb it2 p || LS_PS basis it3 p

/-- The variable after all branches. -/
def LineBreak : Stream := assignIn it (removedCRLF basis crb) (LineBreak3 basis crb it2 it3)

def nonFinal : Stream := fun p ↦
  UTF8_index.nonFinal basis it it2 it3 it4 p || CR_before_LF basis crb p

def u8index : Stream := fun p ↦ !nonFinal basis crb it it2 it3 it4 p

def unterminatedLineAtEOF : Stream :=
  createAtEOF length (advance 1 fun p ↦ !LineBreak basis crb it it2 it3 p)

def LB : Stream :=
  match mEOFmode with
  | .Add1 => fun p ↦
    LineBreak basis crb it it2 it3 p || unterminatedLineAtEOF basis length crb it it2 it3 p
  | .Ignore => LineBreak basis crb it it2 it3

/-- The branches run where the code of their bodies must run. -/
structure Branches : Prop where
  removed : Runs (fun _ ↦ true) (CR basis) [] crb
  pfx : Runs (fun _ ↦ true) (UTF8_index.u8pfx basis) [] it
  two : Runs it (UTF8_index.u8pfx2 basis)
    ((compileByte basis 0xC2 0xC2, 1) :: UTF8_index.carries2 basis) it2
  three : Runs it (UTF8_index.u8pfx3 basis)
    ((compileByte basis 0xE2 0xE2, 1) :: (E2_80 basis it3, 1) :: UTF8_index.carries3 basis) it3
  four : Runs it (UTF8_index.u8pfx4 basis) (UTF8_index.carries4 basis it4) it4

end UnicodeLines

end Parabix.Unicode
