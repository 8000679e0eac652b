import Parabix.UCD.Canonical
import Parabix.RE.CC

namespace Parabix.RE

open Library UCD

section Breakpoints

variable {n : ℕ}

/-- Notes that class `i` changes at `key`. The breakpoints are in the order of their keys. -/
def setBreakpoint (i key : ℕ) : List (ℕ × BitVec n) → List (ℕ × BitVec n)
  | [] => [(key, BitVec.twoPow n i)]
  | (k, v) :: bps =>
    if key < k then
      (key, BitVec.twoPow n i) :: (k, v) :: bps
    else if key = k then
      (k, v ||| BitVec.twoPow n i) :: bps
    else
      (k, v) :: setBreakpoint i key bps

def addIntervals (i : ℕ) (bps : List (ℕ × BitVec n)) (is : List (ℕ × ℕ)) :
    List (ℕ × BitVec n) :=
  is.foldl (fun bps range ↦ setBreakpoint i (range.2 + 1) (setBreakpoint i range.1 bps)) bps

/-- The classes from number `i` on. -/
def addBreakpoints : ℕ → List CC → List (ℕ × BitVec n) → Except Fault (List (ℕ × BitVec n))
  | _, [], bps => .ok bps
  | i, c :: cs, bps => do
    addBreakpoints (i + 1) cs (addIntervals i bps (← c.set.intervals))

end Breakpoints

def computeBreakpoints (CCs : List CC) : Except Fault (List (ℕ × BitVec CCs.length)) :=
  addBreakpoints 0 CCs []

/-- The state of the sweep over the breakpoints of `n` classes. -/
structure Sweep (n : ℕ) where
  exclusiveSetIDs : List (List ℕ)
  multiplexedCCs : List CC
  CC_set_to_exclusive_set_map : List (BitVec n × ℕ)
  current_exclusive_set_idx : ℕ
  multiplexed_bit_count : ℕ
  current_set : BitVec n
  range_lo : ℕ
  next_set_index : ℕ

/-- The alphabet of the classes that `makeCC()` makes. -/
def unicodeAlphabet : ℕ := 0

section Sweep

variable {n : ℕ} (m : Memory)

def Sweep.start (n : ℕ) : Sweep n where
  exclusiveSetIDs := List.replicate n []
  multiplexedCCs := []
  CC_set_to_exclusive_set_map := [(0, 0)]
  current_exclusive_set_idx := 0
  multiplexed_bit_count := 0
  current_set := 0
  range_lo := 0
  next_set_index := 1

def insertPlane (idx lo hi count bit : ℕ) (c : CC) : Except Fault CC :=
  if bit < count ∧ idx.testBit bit then do
    return ⟨← c.set.insertRange m lo hi, c.alphabet⟩
  else
    .ok c

/-- Gives the range to the planes of the set bits of `idx`, from plane `bit` on. -/
def insertRanges (idx lo hi count : ℕ) : ℕ → List CC → Except Fault (List CC)
  | _, [] => .ok []
  | bit, c :: cs => do
    let c ← insertPlane m idx lo hi count bit c
    return c :: (← insertRanges idx lo hi count (bit + 1) cs)

/-- Closes the range of a pending exclusive set before the breakpoint `key`. -/
def Sweep.close (st : Sweep n) (key : ℕ) : Except Fault (Sweep n) :=
  if 0 < st.current_exclusive_set_idx then do
    let planes ← insertRanges m st.current_exclusive_set_idx st.range_lo (key - 1)
      st.multiplexed_bit_count 0 st.multiplexedCCs
    return { st with multiplexedCCs := planes }
  else
    .ok st

/-- The exclusive set of the code points from the breakpoint on. -/
def Sweep.enter (st : Sweep n) : Sweep n :=
  match st.CC_set_to_exclusive_set_map.lookup st.current_set with
  | none =>
    -- New exclusive class; assign the next sequential integer.
    let idx := st.next_set_index
    let power := idx &&& (idx - 1) = 0
    { st with
      current_exclusive_set_idx := idx
      next_set_index := st.next_set_index + 1
      CC_set_to_exclusive_set_map := st.CC_set_to_exclusive_set_map ++ [(st.current_set, idx)]
      exclusiveSetIDs := st.exclusiveSetIDs.mapIdx fun CC1 ids ↦
        if st.current_set.getLsbD CC1 then ids ++ [idx] else ids
      multiplexed_bit_count :=
        if power then st.multiplexed_bit_count + 1 else st.multiplexed_bit_count
      multiplexedCCs :=
        if power then st.multiplexedCCs ++ [.empty unicodeAlphabet] else st.multiplexedCCs }
  | some idx => { st with current_exclusive_set_idx := idx }

def Sweep.step (st : Sweep n) (bkpt : ℕ × BitVec n) : Except Fault (Sweep n) := do
  let st ← st.close m bkpt.1
  -- Start a new range.
  let st := { st with range_lo := bkpt.1 }
  if unicodeMax < bkpt.1 then
    return st
  else
    return ({ st with current_set := st.current_set ^^^ bkpt.2 } : Sweep n).enter

end Sweep

def doMultiplexCCs (m : Memory) (CCs : List CC) : Except Fault (List (List ℕ) × List CC) := do
  let breakpoints ← computeBreakpoints CCs
  let st ← breakpoints.foldlM (Sweep.step m) (Sweep.start CCs.length)
  return (st.exclusiveSetIDs, st.multiplexedCCs)

/-- The classes of an alphabet are given by address. -/
structure MultiplexedAlphabet where
  mUnicodeSets : List ℕ
  mSourceAlphabet : Option ℕ
  mExclusiveSetIDs : List (List ℕ)
  mMultiplexedCCs : List CC

namespace MultiplexedAlphabet

variable (heap : ℕ → CC) (m : Memory)

def make (CCs : List ℕ) : Except Fault MultiplexedAlphabet :=
  if CCs.any fun c ↦ some (heap c).alphabet ≠ CCs.head?.map fun c ↦ (heap c).alphabet then
    .error (.fatal "Mismatched source alphabets for Multiplexed Alphabet")
  else do
    let (exclusiveSetIDs, multiplexedCCs) ← doMultiplexCCs m (CCs.map heap)
    return ⟨CCs, CCs.head?.map fun c ↦ (heap c).alphabet, exclusiveSetIDs, multiplexedCCs⟩

def findTargetCCIndex (a : MultiplexedAlphabet) (sourceCC : ℕ) : Except Fault ℕ :=
  match a.mUnicodeSets.findIdx? (· = sourceCC) with
  | some i => .ok i
  | none =>
    match a.mUnicodeSets.findIdx? fun c ↦ (heap c).set.equals (heap sourceCC).set with
    | some i => .ok i
    | none => .error .unreachable

/-- The union of the singletons of the exclusive sets. -/
def unionOf (this : ℕ) (ids : List ℕ) : Except Fault CC :=
  ids.foldlM (fun CC_union i ↦ do CC_union.union (← CC.ofCodepoint m i this)) (.empty this)

/-- `this` is the address of the alphabet. -/
def transformCC (this : ℕ) (a : MultiplexedAlphabet) (sourceCC : ℕ) : Except Fault CC :=
  if some (heap sourceCC).alphabet ≠ a.mSourceAlphabet then
    .error (.fatal "Mismatched source alphabets for transformCC")
  else do
    let index ← findTargetCCIndex heap a sourceCC
    unionOf m this (a.mExclusiveSetIDs.getD index [])

end MultiplexedAlphabet

end Parabix.RE
