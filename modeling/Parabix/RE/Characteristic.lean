import Mathlib.Data.PNat.Basic
import Parabix.RE.Anchors
import Parabix.RE.Syntax
import Parabix.UCD.QuadIterator

namespace Parabix

open Library Library.BitStream

namespace UCD.UnicodeSet

/-- The runs of both sets are passed up to the first quads that have a common bit. -/
def intersectsLoop : ℕ → QuadIterator → QuadIterator → Bool
  | 0, _, _ => false
  | fuel + 1, i1, i2 =>
    let n := min i1.mRemaining i2.mRemaining
    if n = 0 then false
    else if i1.mType = .Empty ∨ i2.mType = .Empty then
      intersectsLoop fuel (i1.advance n) (i2.advance n)
    else if i1.mType = .Full ∨ i2.mType = .Full then true
    else if (List.zipWith (· &&& ·) (i1.mQuadIterator.take n) (i2.mQuadIterator.take n)).any
        (· ≠ 0) then true
    else intersectsLoop fuel (i1.advance n) (i2.advance n)

def intersects (s other : UnicodeSet) : Bool :=
  intersectsLoop (unicodeQuadCount + 1) s.quadBegin other.quadBegin

end UCD.UnicodeSet

namespace RE

abbrev stateVector_t := BitVec 64

/-- The states of a search are the numbers of classes that are matched. -/
structure ccSequenceSearchObject where
  mCCseq : List CC

namespace ccSequenceSearchObject

variable (o : ccSequenceSearchObject)

def mInitState : stateVector_t := 1

def mFinalState : stateVector_t := mInitState <<< o.mCCseq.length

def mAnyState : stateVector_t := o.mFinalState - 1

/-- The classes that a symbol of `cc` can be in. The shift is that of an int. -/
def CC_matches (cc : CC) : stateVector_t :=
  o.mCCseq.zipIdx.foldl (fun CC_matches c ↦ CC_matches |||
    ((BitVec.ofBool (cc.set.intersects c.1.set)).setWidth 32 <<< (c.2 % 32)).signExtend 64) 0

/-- The required repetitions, with an error for what is returned from within. -/
def lowerLoop (search : stateVector_t → stateVector_t) :
    ℕ → stateVector_t → Except stateVector_t stateVector_t
  | 0, rslt => .ok rslt
  | i + 1, rslt =>
    let next := search rslt
    if next = rslt then .error next
    else if next &&& o.mFinalState ≠ 0 then .error next
    else lowerLoop search i next

def upperLoop (search : stateVector_t → stateVector_t) :
    ℕ → stateVector_t → Except stateVector_t stateVector_t
  | 0, rslt => .ok rslt
  | i + 1, rslt =>
    let next := search rslt ||| rslt
    if next = rslt then .error next
    else
      let rslt := rslt ||| next
      if rslt &&& o.mFinalState ≠ 0 then .error rslt else upperLoop search i rslt

/-- Without an upper bound the states grow until they are the same again. -/
def upperCount (lb ub : ℤ) : ℕ := if ub = UNBOUNDED_REP then 65 else (ub - lb).toNat

mutual

/-- A Rep of which all repetitions are made is not processed, like a node of another kind. -/
def search_from_state : RE → stateVector_t → stateVector_t
  | name _ definition, v => search_from_state definition v
  | seq elems, v => searchSeq elems v
  | alt elems, v => searchAlt elems v mInitState
  | rep rpt lb ub, v =>
    match o.lowerLoop (search_from_state rpt) lb.toNat v with
    | .error rslt => rslt
    | .ok rslt =>
      match o.upperLoop (search_from_state rpt) (upperCount lb ub) rslt with
      | .error rslt => rslt
      | .ok _ => 0
  | assertion asserted kind sense, v =>
    if kind = .LookBehind then
      let next := search_from_state asserted o.mAnyState
      let next := if sense = .Negative then ~~~next else next
      v &&& next ||| mInitState
    else 0
  | diff lh rh, v => search_from_state lh v &&& ~~~search_from_state rh v ||| mInitState
  | intersect lh rh, v => search_from_state lh v &&& search_from_state rh v
  | start, _ => mInitState
  | stop, v => v &&& o.mFinalState
  | any, v => v <<< 1 ||| mInitState
  | cc c, v => (o.CC_matches c &&& v) <<< 1 ||| mInitState
  | other _, _ => 0

def searchSeq : List RE → stateVector_t → stateVector_t
  | [], rslt => rslt
  | s :: elems, rslt =>
    let rslt := search_from_state s rslt
    if rslt &&& o.mFinalState ≠ 0 then rslt else searchSeq elems rslt

def searchAlt : List RE → stateVector_t → stateVector_t → stateVector_t
  | [], _, rslt => rslt
  | a :: elems, v, rslt => searchAlt elems v (rslt ||| search_from_state a v)

end

def search (re : RE) : Bool := o.search_from_state re mInitState &&& o.mFinalState ≠ 0

end ccSequenceSearchObject

/-- Whether the classes can be matched one after the other within an expression. -/
def CC_Sequence_Search (CC_seq : List CC) (re : RE) : Except Fault Bool :=
  if 64 ≤ CC_seq.length then .error (.fatal "CC_seq too long!")
  else .ok (ccSequenceSearchObject.search ⟨CC_seq⟩ re)

section Analysis

/-- A class, or the name of one. -/
def classOf : RE → Option CC
  | cc c => some c
  | name _ (cc c) => some c
  | _ => none

/-- The classes at the beginning of a sequence. -/
def leadingClasses : List RE → List CC
  | [] => []
  | item :: items =>
    match classOf item with
    | some c => c :: leadingClasses items
    | none => []

/-- The expressions around a characteristic one. -/
structure Characteristic where
  E1 : RE
  C : RE
  E2 : RE

/-- The items from the `i`-th one on, after those before it. -/
def analyzeFrom : ℕ → List RE → List RE → Except Fault (Option Characteristic)
  | 0, _, _ => .ok none
  | _ + 1, _, [] => .ok none
  | fuel + 1, before, item :: items =>
    let CC_seq := leadingClasses (item :: items)
    let j := CC_seq.length
    let next := analyzeFrom fuel (before ++ (item :: items).take (j + 1))
      ((item :: items).drop (j + 1))
    if 0 < j then
      let E1 := makeSeq before
      let E2 := makeSeq ((item :: items).drop j)
      let E2_E1 := makeSeq [E2, E1]
      match CC_Sequence_Search CC_seq E2_E1 with
      | .error fault => .error fault
      | .ok true => next
      | .ok false => .ok (some ⟨E1, makeSeq ((item :: items).take j), E2⟩)
    else next

def CharacteristicSubexpressionAnalysis : RE → Except Fault (Option Characteristic)
  | cc c => .ok (some ⟨makeSeq [], cc c, makeSeq []⟩)
  | seq elems => analyzeFrom elems.length [] elems
  | _ => .ok none

end Analysis

namespace RE_Block_Compiler

/-- How classes and other expressions are compiled. -/
structure Compiler where
  regions : Regions
  codeUnitAlphabet : ℕ
  ccStrm : CC → Stream
  mStarDepth : ℕ
  other : RE → Marker → Marker
  minMatchLength : RE → ℕ
  processUnboundedRep : RE → Marker → Marker

namespace Compiler

variable (c : Compiler)

def item : RE → SeqItem
  | cc x => .CC (x.alphabet = c.codeUnitAlphabet) (c.ccStrm x)
  | any => .Any
  | start => .Start
  | stop => .End
  | re => .other (c.other re) (c.minMatchLength re)

def process : RE → Marker → Marker
  | seq elems => compileSeq c.regions c.mStarDepth (elems.map c.item)
  | re => (c.item re).process c.regions

def compile (re : RE) : Marker := c.process re ⟨fun _ ↦ true, .AtNextCodeUnit⟩

/-- One of the streams, when both are aligned. -/
def createOrAligned (m1 m2 : Marker) : Marker :=
  let aligned := AlignMarkers c.regions.text m1 m2
  ⟨fun p ↦ aligned.1.stream p || aligned.2.stream p, aligned.1.position⟩

variable (repeated : RE)

def expandLowerBound (lb : ℕ) (marker : Marker) (ifGroupSize : ℕ+) : Marker :=
  if lb = 0 then marker
  else if lb = 1 then c.process repeated marker
  else
    let group := min (ifGroupSize : ℕ) lb
    let marker := (c.process repeated)^[group] marker
    if lb = group then marker
    else
      let m1 := expandLowerBound (lb - group) marker (ifGroupSize * 2)
      ⟨createIf c.regions.text marker.stream m1.stream, m1.position⟩
termination_by lb
decreasing_by
  have hpos := ifGroupSize.pos
  omega

/-- A further repetition or none. -/
def processOrNone (marker : Marker) : Marker := c.createOrAligned (c.process repeated marker) marker

def expandUpperBound (ub : ℕ) (marker : Marker) (ifGroupSize : ℕ+) : Marker :=
  if ub = 0 then marker
  else
    let group := min (ifGroupSize : ℕ) ub
    let marker := (c.processOrNone repeated)^[group] marker
    if ub = group then marker
    else
      let m1 := expandUpperBound (ub - group) marker (ifGroupSize * 2)
      ⟨createIf c.regions.text marker.stream m1.stream, m1.position⟩
termination_by ub
decreasing_by
  have hpos := ifGroupSize.pos
  omega

/-- The plain expansion. -/
def expandRep (lb : ℕ) (ub : Option ℕ) (marker : Marker) : Marker :=
  let marker := c.expandLowerBound repeated lb marker 3
  match ub with
  | none => c.processUnboundedRep repeated marker
  | some ub => if lb < ub then c.expandUpperBound repeated (ub - lb) marker 3 else marker

/-- The half iterations with at least `lb - 1` iterations before them. -/
def at_least (iteration_marks idx : Stream) (lb : ℕ) (half_mark : Stream) : Option Stream :=
  if 1 < lb then do
    let indexed : Text := ⟨c.regions.text.length, idx⟩
    let at_least_lb ←
      consecutive_matches indexed iteration_marks 1 (lb - 1) (some idx) IfInsertionGap
    let marker_fwd ← createIndexedAdvance half_mark (some idx) (lb - 1 : ℕ)
    return fun p ↦ marker_fwd p && at_least_lb p
  else some half_mark

/-- The half iterations with at most `count` iterations after those at the lower bound. -/
def at_most (iteration_marks idx : Stream) (count : ℕ) (at_lb : Stream) : Option Stream := do
  let upperLimitMask ← reachable at_lb count (some idx)
  let masked : Stream := fun p ↦ (iteration_marks p || at_lb p) && upperLimitMask p
  let fill : Stream := fun p ↦ masked p || !idx p
  return fun p ↦ matchStar at_lb fill p && masked p

/-- The repetition that is counted in matches of a characteristic subexpression. -/
def characteristicRep (x : Characteristic) (lb : ℕ) (ub : Option ℕ) (marker : Marker) :
    Option Marker := do
  let M1 := c.process x.E1 marker
  let half_mark := c.process x.C M1
  -- The assertion after the first half of an iteration.
  guard (half_mark.position = .AtEnd)
  let C_E2_E1_C := makeSeq [x.C, x.E2, x.E1, x.C]
  let iteration_marks := (c.compile C_E2_E1_C).stream
  let idx := (c.compile x.C).stream
  let at_lb ← c.at_least iteration_marks idx lb half_mark.stream
  match ub with
  | none => return c.processUnboundedRep repeated (c.process x.E2 ⟨at_lb, .AtEnd⟩)
  | some ub =>
    if ub = lb then return c.process x.E2 ⟨at_lb, .AtEnd⟩
    else
      let bounded ← at_most iteration_marks idx (ub - lb) at_lb
      return c.process x.E2 ⟨bounded, .AtEnd⟩

/-- No repetition, or what a compiled repetition of at least one gives. -/
def noneOr (marker : Marker) (at_least_one : ℕ → Option Marker) (lb : ℕ) : Option Marker :=
  if lb = 0 then do
    let at_least_one ← at_least_one 1
    let aligned := AlignMarkers c.regions.text marker at_least_one
    return ⟨fun p ↦ aligned.1.stream p || aligned.2.stream p, aligned.2.position⟩
  else at_least_one lb

/-- The path of `compileRep` for what is accepted as characteristic. -/
def compileRepCharacteristic (x : Characteristic) (lb : ℕ) (ub : Option ℕ) (marker : Marker) :
    Option Marker :=
  c.noneOr marker (fun lb ↦ c.characteristicRep repeated x lb ub marker) lb

/-- The path of `compileRep` for what is not. -/
def compileRepExpanded (lb : ℕ) (ub : Option ℕ) (marker : Marker) : Option Marker :=
  c.noneOr marker (fun lb ↦ some (c.expandRep repeated lb ub marker)) lb

end Compiler

end RE_Block_Compiler

end RE

end Parabix
