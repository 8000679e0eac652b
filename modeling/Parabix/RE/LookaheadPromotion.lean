import Parabix.UCD.Selection
import Parabix.RE.Boundaries
import Parabix.RE.Expression
import Parabix.RE.ToUTF8

namespace Parabix.RE.Expression

open Library Library.Powers Library.Spans UCD
open Memoization (PropertyKind Mode GroupSense)

section Constructors

def isEmptySeq : Expression → Bool
  | seq elems => elems.isEmpty
  | _ => false

def isOptionalRep : Expression → Bool
  | rep _ lb _ => lb = 0
  | _ => false

/-- A class, also behind names. -/
def defCC : Expression → Option CC
  | cc c => some c
  | name _ (some definition) => definition.defCC
  | _ => none

/-- A single alternative stands for itself. -/
def collapseAlt : List Expression → Expression
  | [e] => e
  | elems => alt elems

/-- What the loop of `makeAlt` has found. -/
structure Alternatives where
  newAlt : List Expression
  nullable : Bool
  CCs : List CC

/-- The classes come after the other elements, and the empty sequence last. -/
def Alternatives.elements (found : Alternatives) : List Expression :=
  found.newAlt ++ found.CCs.map cc ++ if found.nullable then [seq []] else []

/-- An element of an Alt inside the new one. -/
def addNested (found : Alternatives) (a : Expression) : Except Fault Alternatives :=
  match a with
  | cc c => do
    return { found with CCs := ← combineCC found.CCs c }
  | _ =>
    if a.isEmptySeq then
      .ok { found with nullable := true }
    else
      .ok { found with newAlt := found.newAlt ++ [a] }

def addAlternative (makeRep : Expression → ℤ → ℤ → Except Fault Expression)
    (found : Alternatives) (a : Expression) : Except Fault Alternatives :=
  match a with
  | alt nestedAlt => nestedAlt.foldlM addNested found
  | rep r lb ub =>
    if lb = 0 then do
      return { found with newAlt := found.newAlt ++ [← makeRep r 1 ub], nullable := true }
    else
      .ok { found with newAlt := found.newAlt ++ [a] }
  | _ => addNested found a

def makeAltWith (makeRep : Expression → ℤ → ℤ → Except Fault Expression)
    (elems : List Expression) : Except Fault Expression := do
  return collapseAlt (← elems.foldlM (addAlternative makeRep) ⟨[], false, []⟩).elements

/-- `l * lb` to `u * ub` repetitions. -/
def combineRep (re : Expression) (l u lb ub : ℤ) : Except Fault Expression := do
  return rep re (← mulInt l lb) (← ubCombine u ub)

/-- The bounds of a repetition of a repetition. -/
def repeatRep (makeRep : Expression → ℤ → ℤ → Except Fault Expression) (re : Expression)
    (l u lb ub : ℤ) : Except Fault Expression :=
  if lb = ub then
    combineRep re l u lb ub
  else if u = UNBOUNDED_REP then
    if l = 0 then
      .ok (rep re l u)
    else if l = 1 then
      .ok (rep re lb UNBOUNDED_REP)
    else if lb = 0 then
      .ok (rep (rep re l u) 0 1)
    else do
      return rep re (← mulInt l lb) UNBOUNDED_REP
  else if l < u then
    -- The fewest repetitions from which on the counts have no gaps.
    let n := (u - 2).tdiv (u - l)
    if n ≤ lb then
      combineRep re l u lb ub
    else if ub = UNBOUNDED_REP ∨ n ≤ ub then do
      let r1 ← combineRep re l u n ub
      let r2 ← makeRep (rep re l u) lb (n - 1)
      makeAltWith makeRep [r1, r2]
    else
      .ok (rep (rep re l u) lb ub)
  else
    .ok (rep (rep re l u) lb ub)

def repeatNode (makeRep : Expression → ℤ → ℤ → Except Fault Expression) (re : Expression)
    (lb ub : ℤ) : Except Fault Expression :=
  match re with
  | rep r l u => repeatRep makeRep r l u lb ub
  | assertion .. => .ok (if 0 < lb then re else seq [])
  | _ =>
    if lb = 0 ∧ ub = 0 then
      .ok (seq [])
    else if lb = 1 ∧ ub = 1 then
      .ok re
    else
      .ok (rep re lb ub)

def makeRepFuel : ℕ → Expression → ℤ → ℤ → Except Fault Expression
  | 0, _, _, _ => .error .fuel
  | fuel + 1, re, lb, ub =>
    if lb = UNBOUNDED_REP then
      .error (.fatal "repetition lower bound must be finite!")
    else if ub ≠ UNBOUNDED_REP ∧ ub < lb then
      .error (.fatal "lower bound cannot exceed upper bound")
    else if re.isEmptySet ∨ re.isEmptySeq then
      .ok re
    else
      repeatNode (makeRepFuel fuel) re lb ub

/-- A call of itself makes no further one. -/
def makeRep : Expression → ℤ → ℤ → Except Fault Expression := makeRepFuel 2

def makeAlt (elems : List Expression) : Except Fault Expression := makeAltWith makeRep elems

def makeEmptySet : Except Fault Expression := makeAlt []

def makeIntersect (same : Expression → Expression → Bool) (lh rh : Expression) :
    Except Fault Expression :=
  if same lh rh then
    .ok lh
  else if lh.isEmptySet then
    .ok lh
  else if rh.isEmptySet then
    .ok rh
  else if lh.isEmptySeq then
    if rh.isOptionalRep then .ok lh else makeEmptySet
  else if rh.isEmptySeq then
    if lh.isOptionalRep then .ok rh else makeEmptySet
  else
    match lh.defCC, rh.defCC with
    | some lh_cc, some rh_cc =>
      if lh_cc.alphabet = rh_cc.alphabet then do
        return cc (← intersectCC lh_cc rh_cc)
      else
        .ok (intersect lh rh)
    | _, _ => .ok (intersect lh rh)

/-- A range of two classes. -/
def rangeOf (m : Memory) (print : CC → String) (cc_lo cc_hi : CC) : Except Fault Expression :=
  let invalid := Fault.fatal (print cc_lo ++ " to " ++ print cc_hi ++ " are invalid range operands")
  if cc_lo.set.count = 1 ∧ cc_hi.set.count = 1 then do
    let lo_val ← cc_lo.set.codepointAt 0
    let hi_val ← cc_hi.set.codepointAt 0
    if lo_val ≤ hi_val then
      return cc (← CC.ofRange m lo_val hi_val cc_hi.alphabet)
    else
      .error invalid
  else
    .error invalid

def makeRange (m : Memory) (print : CC → String) (same : Expression → Expression → Bool) :
    Expression → Expression → Except Fault Expression
  | cc cc_lo, cc cc_hi => rangeOf m print cc_lo cc_hi
  | name _ (some definition), hi => makeRange m print same definition hi
  | lo, name _ (some definition) => makeRange m print same lo definition
  | lo, hi => if same lo hi then .ok lo else .ok (range lo hi)
termination_by lo hi => sizeOf lo + sizeOf hi

end Constructors

section Transform

variable (m : Memory) (print : CC → String) (same : Expression → Expression → Bool)

mutual

/-- The new node, if an expression is changed. The operands of an intersection and of a range are
looked into, but not those of a difference, what is repeated, and other assertions. -/
def promote : Expression → Except Fault (Option Expression)
  | alt elems => do
    let (elems1, any_changed) ← promoteElems elems
    if any_changed then return some (← makeAlt elems1) else return none
  | assertion asserted .LookAhead .Positive => do
    return some ((← promote asserted).getD asserted)
  | capture n captured => do
    return (← promote captured).map fun t ↦ capture n t
  | group mode x0 sense => do
    return (← promote x0).map fun x ↦ group mode x sense
  | intersect x0 y0 => do
    let x ← promote x0
    let y ← promote y0
    if x.isSome || y.isSome then
      return some (← makeIntersect same (x.getD x0) (y.getD y0))
    else
      return none
  | range x0 y0 => do
    let x ← promote x0
    let y ← promote y0
    if x.isSome || y.isSome then
      return some (← makeRange m print same (x.getD x0) (y.getD y0))
    else
      return none
  | seq elems => do
    return (← promoteBack elems).map makeSeq
  | _ => .ok none

def promoteElems : List Expression → Except Fault (List Expression × Bool)
  | [] => .ok ([], false)
  | e :: elems => do
    let e1 ← promote e
    let (elems1, any_changed) ← promoteElems elems
    return (e1.getD e :: elems1, e1.isSome || any_changed)

/-- The elements with a new last one, if it is changed. -/
def promoteBack : List Expression → Except Fault (Option (List Expression))
  | [] => .ok none
  | [s_last] => do
    return (← promote s_last).map fun t ↦ [t]
  | e :: elems => do
    return (← promoteBack elems).map fun elems1 ↦ e :: elems1

end

def lookaheadPromotion (r : Expression) : Except Fault Expression := do
  return (← promote m print same r).getD r

end Transform

section Condition

mutual

/-- A positive lookahead is at a final position. -/
def promotes : Expression → Bool
  | alt elems => promotesAny elems
  | assertion _ .LookAhead .Positive => true
  | capture _ captured => promotes captured
  | group _ re _ => promotes re
  | intersect lh rh => promotes lh || promotes rh
  | range lo hi => promotes lo || promotes hi
  | seq elems => promotesLast elems
  | _ => false

def promotesAny : List Expression → Bool
  | [] => false
  | e :: elems => promotes e || promotesAny elems

def promotesLast : List Expression → Bool
  | [] => false
  | [e] => promotes e
  | _ :: elems => promotesLast elems

end

mutual

/-- No operand of an intersection or a range at a final position has a lookahead to promote. -/
def separate : Expression → Bool
  | alt elems => separateAll elems
  | assertion asserted .LookAhead .Positive => separate asserted
  | capture _ captured => separate captured
  | group _ re _ => separate re
  | intersect lh rh => !(promotes lh || promotes rh)
  | range lo hi => !(promotes lo || promotes hi)
  | seq elems => separateLast elems
  | _ => true

def separateAll : List Expression → Bool
  | [] => true
  | e :: elems => separate e && separateAll elems

def separateLast : List Expression → Bool
  | [] => true
  | [e] => separate e
  | _ :: elems => separateLast elems

end

end Condition

section Reading

/-- How the leaves of an expression are read in a text, under the modes in force. -/
structure Reading (Λ : Type) where
  any : Λ → ℕ → Span
  cc : Λ → ℕ → Set ℕ → Span
  cc_empty (modes : Λ) (alphabet : ℕ) : cc modes alphabet ∅ = ⊥
  cc_union (modes : Λ) (alphabet : ℕ) (s t : Set ℕ) :
    cc modes alphabet (s ∪ t) = cc modes alphabet s ⊔ cc modes alphabet t
  property : Λ → PropertyKind → String → Span
  range : Λ → Span → Span → Span
  reference : String → ℕ → Span → Span
  start : ℕ → Prop
  stop : ℕ → Prop
  switch : Λ → Mode → GroupSense → Λ
  undefined : String → Span

variable {Λ : Type}

mutual

/-- From where to where an expression matches. -/
def read (M : Reading Λ) (modes : Λ) : Expression → Span
  | alt elems => readAlt M modes elems
  | any alphabet => M.any modes alphabet
  | assertion asserted kind sense =>
    zeroWidth (Boundaries.asserted kind sense (read M modes asserted))
  | capture _ captured => read M modes captured
  | cc c => M.cc modes c.alphabet c.set.members
  | diff lh rh => read M modes lh \ read M modes rh
  | group mode re sense => read M (M.switch modes mode sense) re
  | intersect lh rh => read M modes lh ⊓ read M modes rh
  | name _ (some definition) => read M modes definition
  | name n none => M.undefined n
  | propertyExpression _ _ (some resolvedRE) => read M modes resolvedRE
  | propertyExpression kind identifier none => M.property modes kind identifier
  | range lo hi => M.range modes (read M modes lo) (read M modes hi)
  | reference n captured i => M.reference n i (read M modes captured)
  | rep re lb ub => powers (read M modes re) (counts lb ub)
  | seq elems => readSeq M modes elems
  | start => zeroWidth M.start
  | stop => zeroWidth M.stop

def readAlt (M : Reading Λ) (modes : Λ) : List Expression → Span
  | [] => ⊥
  | e :: elems => read M modes e ⊔ readAlt M modes elems

def readSeq (M : Reading Λ) (modes : Λ) : List Expression → Span
  | [] => 1
  | e :: elems => read M modes e * readSeq M modes elems

end

section Lists

variable {M : Reading Λ} {modes : Λ} {e : Expression} {elems : List Expression}

theorem read_alt : read M modes (alt elems) = readAlt M modes elems := rfl

theorem read_seq : read M modes (seq elems) = readSeq M modes elems := rfl

theorem readAlt_nil : readAlt M modes [] = ⊥ := rfl

theorem readAlt_cons : readAlt M modes (e :: elems) = read M modes e ⊔ readAlt M modes elems := rfl

theorem readSeq_nil : readSeq M modes [] = 1 := rfl

theorem readSeq_cons : readSeq M modes (e :: elems) = read M modes e * readSeq M modes elems := rfl

end Lists

/-- The classes of a text without properties and modes. A reference matches what its capture may. -/
def textReading (text : List ℕ) : Reading Unit where
  any _ _ := (Boundaries.textMeaning text fun _ _ ↦ False).any
  cc _ := (Boundaries.textMeaning text fun _ _ ↦ False).cc
  cc_empty _ := (Boundaries.textMeaning text fun _ _ ↦ False).cc_empty
  cc_union _ := (Boundaries.textMeaning text fun _ _ ↦ False).cc_union
  property _ _ _ := ⊥
  range _ _ _ := ⊥
  reference _ _ x := x
  start p := p = 0
  stop p := p = text.length
  switch modes _ _ := modes
  undefined _ := ⊥

end Reading

end Parabix.RE.Expression
