import Parabix.Library.Fault
import Parabix.Pablo.CarryManager

namespace Parabix.Pablo

open Library

/-- Where a long advance stands: in nested ifs, or in a loop. A scope is given by the number of its
other carry states, the outermost first. -/
inductive Placement where
  | ifs (others : List ℕ)
  | loop (others : ℕ)
deriving DecidableEq, Repr

namespace Placement

def nested : Placement → Prop
  | ifs others => others ≠ []
  | loop _ => True

instance (p : Placement) : Decidable p.nested := by
  cases p <;> unfold nested <;> infer_instance

def inLoop : Placement → Bool
  | ifs _ => false
  | loop _ => true

end Placement

/-- The entries of the advance in the carry frame, the explicit summaries of its scopes and the
scalars of the kernel. -/
structure LongState (w : ℕ) where
  carries : ℕ → BitVec w
  /-- A bit for each block of the advance that has a bit in it. -/
  blockSummary : BitVec w
  CarryBlockIndex : BitVec 32
  summaries : List Bool
  selector : Bool

namespace LongState

variable {w : ℕ}

def initial (w : ℕ) (p : Placement) : LongState w :=
  ⟨fun _ ↦ 0, 0, 0, match p with | .ifs others => others.map fun _ ↦ false | .loop _ => [false],
    false⟩

def store (st : LongState w) (i : ℕ) (x : BitVec w) : LongState w :=
  { st with carries := fun j ↦ if j = i then x else st.carries j }

end LongState

section Statement

variable {w : ℕ} (n : ℕ) (st : LongState w) (value : BitVec w)

/-- The entry of the block `d` blocks ago. -/
def carryIndex (blockIndex : BitVec 32) (summaryBlocks d : ℕ) : ℕ :=
  ((blockIndex - BitVec.ofNat 32 d) &&& BitVec.ofNat 32 (nearest_pow2 summaryBlocks - 1)).toNat

/-- The mask has a lane for each 64 bits of a block, and is filled one lane past its end, which is
in the vector's own storage when it has fewer than 16 lanes. Its undefined lanes meet zeros. -/
def addBlockSummary (nested : Bool) : Except Fault (LongState w × Bool) :=
  if nested then
    if w < n then
      if ceil_udiv n w / 64 < w / 64 ∧ w / 64 < 16 then
        let carry : BitVec w := if value ≠ 0 then 1 else 0
        let stream := (st.blockSummary <<< 1 ||| carry) &&&
          BitVec.ofNat w (2 ^ ceil_udiv n w - 1)
        .ok ({ st with blockSummary := stream }, stream ≠ 0)
      else
        .error .memory
    else
      .ok (st, value ≠ 0)
  else
    .ok (st, false)

/-- The block of the result, and the state. -/
def advanceBuffer (inLoop : Bool) : BitVec w × LongState w :=
  if n < w ∧ inLoop = false then
    -- A single buffer entry and the block itself.
    (value <<< n ||| st.carries 0 >>> (w - n), st.store 0 value)
  else
    let blockShift := n &&& (w - 1)
    let summaryBlocks := ceil_udiv n w
    let blockIndex := st.CarryBlockIndex
    let carryIn := st.carries (carryIndex blockIndex summaryBlocks summaryBlocks)
    let carryOut := carryIndex blockIndex summaryBlocks 0
    if blockShift = 0 then
      (carryIn, st.store carryOut value)
    else
      let carryIn2 := st.carries (carryIndex blockIndex summaryBlocks (summaryBlocks - 1))
      (carryIn2 <<< blockShift ||| carryIn >>> (w - blockShift), st.store carryOut value)

/-- The result, the state and whether something was added to the summary. -/
def longAdvanceCarryInCarryOut (nested inLoop : Bool) :
    Except Fault (BitVec w × LongState w × Bool) := do
  let (st, own) ← addBlockSummary n st value nested
  let (result, st) := advanceBuffer n st value inLoop
  return (result, st, own)

end Statement

/-- A block of the stream, as the statement and the scopes around it meet it. -/
structure LongBlock (w : ℕ) where
  value : BitVec w
  /-- What the statement is given by the iterations of the loop after the first one. -/
  more : List (BitVec w)
  /-- For each scope whether its condition, and whether another carry out of it, is not zero. -/
  scopes : List (Bool × Bool)

section Scopes

variable {w : ℕ} (n : ℕ)

/-- The scope has more than one entry in its carry state. -/
def isExplicit (w : ℕ) (others : ℕ) (innermost : Bool) : Bool :=
  others ≠ 0 || (innermost && ceil_udiv n w ≠ 1)

/-- A borrowed summary is that of the scope inside, and at last the first entry of the advance. -/
def readIfSummary (st : LongState w) : List ℕ → List Bool → Bool
  | o :: os, s :: ss => if isExplicit n w o os.isEmpty then s else readIfSummary st os ss
  | _, _ => st.carries 0 ≠ 0

/-- The bodies of nested ifs, each of which is run or skipped. -/
def runIfs (nested : Bool) : List ℕ → List Bool → List (Bool × Bool) → LongState w → BitVec w →
    Except Fault (BitVec w × LongState w × List Bool × Bool)
  | o :: os, s :: ss, (condition, otherCarry) :: cs, st, value =>
    if condition || readIfSummary n st (o :: os) (s :: ss) then do
      let (result, st, ss, nestedSummary) ← runIfs nested os ss cs st value
      let summary := nestedSummary || (o ≠ 0 && otherCarry)
      return (result, st, summary :: ss, summary)
    else
      .ok (0, st, s :: ss, false)
  | _, _, _, st, value => do
    let (result, st, own) ← longAdvanceCarryInCarryOut n st value nested false
    return (result, st, [], own)

/-- The results of the iterations in a block are collapsed. -/
def runIterations : List (BitVec w) → LongState w → Except Fault (BitVec w × LongState w × Bool)
  | [], st => .ok (0, st, false)
  | value :: values, st => do
    let (result, st, own) ← longAdvanceCarryInCarryOut n st value true true
    let (results, st, owns) ← runIterations values st
    return (result ||| results, st, own || owns)

/-- The summary of a loop is that of the selected carry pack. -/
def readLoopSummary (st : LongState w) (others : ℕ) : Bool :=
  if isExplicit n w others true then
    st.summaries.headD false
  else
    st.carries (if st.selector then 1 else 0) ≠ 0

def runLoop (others : ℕ) (st : LongState w) (b : LongBlock w) :
    Except Fault (BitVec w × LongState w) :=
  if (b.scopes.headD (false, false)).1 || readLoopSummary n st others then do
    let (result, st, own) ← runIterations n (b.value :: b.more) st
    let summary := own || (others ≠ 0 && (b.scopes.headD (false, false)).2)
    return (result, { st with summaries := [summary] })
  else
    .ok (0, { st with summaries := [false] })

def runBody (p : Placement) (st : LongState w) (b : LongBlock w) :
    Except Fault (BitVec w × LongState w) :=
  match p with
  | .ifs others => do
    let (result, st, summaries, _) ←
      runIfs n (decide (p.nested)) others st.summaries b.scopes st b.value
    return (result, { st with summaries })
  | .loop others => runLoop n others st b

/-- One block, with the update of the scalars at the end. -/
def longStep (p : Placement) (st : LongState w) (b : LongBlock w) :
    Except Fault (BitVec w × LongState w) := do
  let (result, st) ← runBody n p st b
  return (result, { st with
    CarryBlockIndex := st.CarryBlockIndex + 1
    selector := !st.selector })

def longRun (p : Placement) :
    List (LongBlock w) → LongState w → Except Fault (List (BitVec w) × LongState w)
  | [], st => .ok ([], st)
  | b :: bs, st => do
    let (result, st) ← longStep n p st b
    let (results, st) ← longRun p bs st
    return (result :: results, st)

end Scopes

end Parabix.Pablo
