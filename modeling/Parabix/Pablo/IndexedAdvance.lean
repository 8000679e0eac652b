import Parabix.Library.Bits
import Parabix.Library.DelayLine
import Parabix.Library.Fault
import Parabix.Pablo.CarryManager

namespace Parabix.Pablo

open Library Library.DelayLine

/-- The fields of a block are of the size of `size_t`. -/
abbrev Pack := BitVec 64

section Fields

def pext (strm index : Pack) : Pack := ofBools 64 (select (bools index) (bools strm))

def pdep (bits index : Pack) : Pack := ofBools 64 (deposit false (bools index) (bools bits))

def popcount (index : Pack) : ℕ := (bools index).count true

/-- Shifting a word by its width or more gives poison. -/
def createShl {w : ℕ} (x : BitVec w) (n : ℕ) : Except Fault (BitVec w) :=
  if n < w then .ok (x <<< n) else .error .poison

def createLShr {w : ℕ} (x : BitVec w) (n : ℕ) : Except Fault (BitVec w) :=
  if n < w then .ok (x >>> n) else .error .poison

end Fields

section Block

variable {w : ℕ}

/-- The carry behind a field. A select does not look at the value that it does not choose. -/
def nextCarry (n ix_popcnt : ℕ) (bits carry : Pack) : Except Fault Pack :=
  if ix_popcnt < n then do
    return (← createShl bits (n - ix_popcnt)) ||| (← createLShr carry ix_popcnt)
  else
    createLShr bits (ix_popcnt - n)

/-- The fields of a stream and of its index, when `n` is less than the width of a field. -/
def advanceFields (n : ℕ) : List (Pack × Pack) → Pack → Except Fault (Pack × List Pack)
  | [], carry => .ok (carry, [])
  | (strm, index) :: ps, carry => do
    let ix_popcnt := popcount index
    let bits := pext strm index
    let adv := (← createShl bits n) ||| carry
    let (carryOut, result) ← advanceFields n ps (← nextCarry n ix_popcnt bits carry)
    return (carryOut, pdep adv index :: result)

/-- The shift amount is never less than the popcount of a field. -/
def advanceThroughCarry (n : ℕ) :
    List (Pack × Pack) → BitVec w → Except Fault (BitVec w × List Pack)
  | [], carry => .ok (carry, [])
  | (strm, index) :: ps, carry => do
    let ix_popcnt := popcount index
    let bits := pext strm index
    let adv := carry.setWidth 64
    let consumed ← createLShr carry ix_popcnt
    let made ← createShl (bits.setWidth w) (n - ix_popcnt)
    let (carryOut, result) ← advanceThroughCarry n ps (consumed ||| made)
    return (carryOut, pdep adv index :: result)

/-- The bits come from the carry in only, and go to the carry out. The carry in that the last field
leaves is never looked at. -/
def advancePastCarry : List (Pack × Pack) → Except Fault (BitVec w) → BitVec w → ℕ →
    Except Fault (BitVec w × List Pack)
  | [], _, carryOut, _ => .ok (carryOut, [])
  | (strm, index) :: ps, carry, carryOut, generated => do
    let carry ← carry
    let ix_popcnt := popcount index
    let bits := pext strm index
    let adv := carry.setWidth 64
    let made ← createShl (bits.setWidth w) generated
    let (carryOut, result) ←
      advancePastCarry ps (createLShr carry ix_popcnt) (carryOut ||| made) (generated + ix_popcnt)
    return (carryOut, pdep adv index :: result)

def bitblock_indexed_advance (fields : List (Pack × Pack)) (shiftIn : BitVec w) (n : ℕ) :
    Except Fault (BitVec w × List Pack) :=
  if n < 64 then do
    let (carry, result) ← advanceFields n fields (shiftIn.setWidth 64)
    return (carry.setWidth w, result)
  else if n ≤ w then
    advanceThroughCarry n fields shiftIn
  else
    advancePastCarry fields (.ok shiftIn) 0 0

end Block

/-- The bits of the fields of a stream. -/
def strmBits (fields : List (Pack × Pack)) : List Bool := fields.flatMap fun p ↦ bools p.1

/-- The bits of the fields of its index. -/
def indexBits (fields : List (Pack × Pack)) : List Bool := fields.flatMap fun p ↦ bools p.2

/-- A block of the streams, as the statement and the scope around it meet it. -/
structure IndexedBlock where
  /-- The condition of the scope is not zero. -/
  condition : Bool
  /-- The fields of the stream and of the index stream. -/
  fields : List (Pack × Pack)
  /-- Another statement of the scope has a carry out other than zero. -/
  otherCarry : Bool

/-- The entry of the statement in the carry frame, its position and the summary of its scope. -/
structure IndexedState (w : ℕ) where
  carries : ℕ → BitVec w
  IndexedAdvancePosition : ℕ
  /-- The explicit summary is not zero. -/
  summary : Bool

namespace IndexedState

variable {w : ℕ}

def initial (w : ℕ) : IndexedState w := ⟨fun _ ↦ 0, 0, false⟩

def store (st : IndexedState w) (i : ℕ) (x : BitVec w) : IndexedState w :=
  { st with carries := fun j ↦ if j = i then x else st.carries j }

end IndexedState

section Statement

variable {w : ℕ} (n : ℕ) (st : IndexedState w) (b : IndexedBlock)

def carryQueueBlocks (n w : ℕ) : ℕ := nearest_pow2 (1 + ceil_udiv n w)

/-- The positions are those of a `size_t`. -/
def sizeMax : ℕ := 2 ^ 64

/-- The entry of the frame and the shift for a position of the carry queue. -/
def loEntry (n w position : ℕ) : ℕ × ℕ := (position / w % carryQueueBlocks n w, position % w)

def hiEntry (n w position : ℕ) : ℕ × ℕ :=
  let endPos := (position + (w - 1)) % sizeMax
  (endPos / w % carryQueueBlocks n w, w - 1 - endPos % w)

/-- The block of the carry queue at a position. -/
def loadQueue (position : ℕ) : BitVec w :=
  let (carryBlock, lo_shift) := loEntry n w position
  let (carryEndBlock, hi_shift) := hiEntry n w position
  st.carries carryBlock >>> lo_shift ||| st.carries carryEndBlock <<< hi_shift

def storeQueue (position : ℕ) (carryOut : BitVec w) : IndexedState w :=
  let (carryBlock, lo_shift) := loEntry n w position
  let (carryEndBlock, hi_shift) := hiEntry n w position
  (st.store carryBlock (st.carries carryBlock ||| carryOut <<< lo_shift)).store
    carryEndBlock (carryOut >>> hi_shift)

/-- The result, the state and whether something was added to the summary. -/
def indexedAdvanceCarryInCarryOut (kind : SummaryKind) :
    Except Fault (List Pack × IndexedState w × Bool) :=
  if n < longAdvanceBreakpoint then do
    let (carryOut, result) ← bitblock_indexed_advance b.fields (st.carries 0) n
    return (result, st.store 0 carryOut, carryOut ≠ 0)
  else if n ≤ w then do
    let (carryOut, result) ← bitblock_indexed_advance b.fields (st.carries 0) n
    return (result, st.store 0 carryOut, kind = .ExplicitSummary ∧ (strmBits b.fields).any id)
  else do
    let carryPosition := st.IndexedAdvancePosition
    let carryIn := loadQueue n st carryPosition
    let (carryOut, result) ← bitblock_indexed_advance b.fields carryIn n
    let adv := (indexBits b.fields).count true
    let st := storeQueue n st ((carryPosition + n) % sizeMax) carryOut
    -- The summary frame is filled with ones, but not added to the summary of the scope.
    return (result, { st with IndexedAdvancePosition := (carryPosition + adv) % sizeMax }, false)

end Statement

section Scope

variable {w : ℕ} (s : Scope) (n : ℕ)

/-- The body of the scope is run for the block. -/
def enters (st : IndexedState w) (b : IndexedBlock) : Bool :=
  match s.summaryKind n w with
  | .NoSummary => true
  | .BorrowedSummary => b.condition || st.carries 0 ≠ 0
  | .ExplicitSummary => b.condition || st.summary

/-- One block. The stream is zero where the body is skipped. -/
def indexedStep (st : IndexedState w) (b : IndexedBlock) :
    Except Fault (List Pack × IndexedState w) :=
  if enters s n st b then do
    let (result, st, own) ← indexedAdvanceCarryInCarryOut n st b (s.summaryKind n w)
    return (result, { st with summary := own || (s.others ≠ 0 && b.otherCarry) })
  else
    .ok (b.fields.map fun _ ↦ 0, st)

def indexedRun : List IndexedBlock → IndexedState w → Except Fault (List Pack × IndexedState w)
  | [], st => .ok ([], st)
  | b :: bs, st => do
    let (result, st) ← indexedStep s n st b
    let (results, st) ← indexedRun bs st
    return (result ++ results, st)

end Scope

end Parabix.Pablo
