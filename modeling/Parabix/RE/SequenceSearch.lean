import Parabix.RE.Characteristic
import Parabix.RE.Expression

namespace Parabix.RE.Expression

open Library UCD
open ccSequenceSearchObject (mInitState upperCount)

section Search

variable (o : ccSequenceSearchObject)

/-- The repetitions after the required ones. A Rep of which all are made is not processed. -/
def upperLoop (search : stateVector_t → Except Fault stateVector_t) :
    ℕ → stateVector_t → Except Fault stateVector_t
  | 0, _ => .ok 0
  | i + 1, rslt => do
    let next := (← search rslt) ||| rslt
    if next = rslt then return next
    else
      let rslt := rslt ||| next
      if rslt &&& o.mFinalState ≠ 0 then return rslt else upperLoop search i rslt

/-- The required repetitions, before `upper` further ones. -/
def lowerLoop (search : stateVector_t → Except Fault stateVector_t) (upper : ℕ) :
    ℕ → stateVector_t → Except Fault stateVector_t
  | 0, rslt => upperLoop o search upper rslt
  | i + 1, rslt => do
    let next ← search rslt
    if next = rslt then return next
    else if next &&& o.mFinalState ≠ 0 then return next
    else lowerLoop search upper i next

/-- What is left of the states after an assertion. Only a lookbehind is supported. -/
def assertedStates (kind : Kind) (sense : Sense) (next : Except Fault stateVector_t)
    (v : stateVector_t) : Except Fault stateVector_t :=
  match kind with
  | .LookBehind => do
    let next ← next
    let next := if sense = .Negative then ~~~next else next
    return v &&& next ||| mInitState
  | .LookAhead => .ok 0

mutual

def search_from_state : Expression → stateVector_t → Except Fault stateVector_t
  | name _ (some definition), v => search_from_state definition v
  | name _ none, _ => .error .memory
  | capture _ capturedRE, v => search_from_state capturedRE v
  | reference _ _ _, _ => .ok 0
  | seq elems, v => searchSeq elems v
  | alt elems, v => searchAlt elems v mInitState
  | rep rpt lb ub, v =>
    lowerLoop o (search_from_state rpt) (upperCount lb ub) lb.toNat v
  | assertion asserted kind sense, v =>
    assertedStates kind sense (search_from_state asserted o.mAnyState) v
  | propertyExpression _ _ (some resolvedRE), v => search_from_state resolvedRE v
  | propertyExpression _ _ none, _ => .ok 0
  | diff lh rh, v => do
    let l ← search_from_state lh v
    let r ← search_from_state rh v
    return l &&& ~~~r ||| mInitState
  | intersect lh rh, v => do
    let l ← search_from_state lh v
    let r ← search_from_state rh v
    return l &&& r
  | start, _ => .ok mInitState
  | stop, v => .ok (v &&& o.mFinalState)
  | any _, v => .ok (v <<< 1 ||| mInitState)
  | cc c, v => .ok ((o.CC_matches c &&& v) <<< 1 ||| mInitState)
  | group _ _ _, _ => .ok 0
  | range _ _, _ => .ok 0

def searchSeq : List Expression → stateVector_t → Except Fault stateVector_t
  | [], rslt => .ok rslt
  | s :: elems, rslt => do
    let rslt ← search_from_state s rslt
    if rslt &&& o.mFinalState ≠ 0 then return rslt else searchSeq elems rslt

def searchAlt : List Expression → stateVector_t → stateVector_t → Except Fault stateVector_t
  | [], _, rslt => .ok rslt
  | a :: elems, v, rslt => do
    let next ← search_from_state a v
    searchAlt elems v (rslt ||| next)

end

def search (re : Expression) : Except Fault Bool := do
  let rslt ← search_from_state o re mInitState
  return rslt &&& o.mFinalState ≠ 0

end Search

/-- Whether the classes can be matched one after the other within an expression. -/
def CC_Sequence_Search (CC_seq : List CC) (re : Expression) : Except Fault Bool :=
  if 64 ≤ CC_seq.length then .error (.fatal "CC_seq too long!")
  else search ⟨CC_seq⟩ re

end Parabix.RE.Expression
