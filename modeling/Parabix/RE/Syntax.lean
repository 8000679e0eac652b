import Mathlib.Algebra.Group.Int.Defs
import Mathlib.Algebra.Group.Nat.Defs
import Mathlib.Data.Int.Init
import Parabix.RE.CC

namespace Parabix

open Library UCD

namespace RE

inductive Kind where
  | LookBehind
  | LookAhead
deriving DecidableEq, Repr

inductive Sense where
  | Positive
  | Negative
deriving DecidableEq, Repr

end RE

/-- The kinds of expression that the constructors look into have a node of their own; `other` stands
for a node of any other kind. -/
inductive RE where
  | alt (elems : List RE)
  | any
  | assertion (asserted : RE) (kind : RE.Kind) (sense : RE.Sense)
  | cc (c : RE.CC)
  | diff (lh rh : RE)
  | intersect (lh rh : RE)
  | name (name : String) (definition : RE)
  | rep (re : RE) (lb ub : ℤ)
  | seq (elems : List RE)
  | start
  | stop
  | other (node : ℕ)

namespace RE

def Unicode : ℕ := 0

def Byte : ℕ := 1

def UTF8 : ℕ := 2

def UNBOUNDED_REP : ℤ := -1

def isEmptySet : RE → Bool
  | alt elems => elems.isEmpty
  | cc c => c.set.empty
  | _ => false

def isEmptySeq : RE → Bool
  | seq elems => elems.isEmpty
  | _ => false

/-- A single element stands for itself. -/
def collapse (node : List RE → RE) : List RE → RE
  | [e] => e
  | elems => node elems

section Seq

/-- The elements of a nested Seq, or the item itself. -/
def nestedItems : RE → List RE
  | seq nestedSeq => nestedSeq
  | item => [item]

/-- An item that is the empty set is the whole sequence. -/
def pushSeq : List RE → List RE → RE
  | newSeq, [] => collapse seq newSeq
  | newSeq, item :: items =>
    if item.isEmptySet then item else pushSeq (newSeq ++ item.nestedItems) items

def makeSeq (items : List RE) : RE := pushSeq [] items

end Seq

section Alt

/-- What the loop of `makeAlt` has found. -/
structure Alternatives where
  newAlt : List RE
  nullable : Bool
  /-- One class for each alphabet. -/
  CCs : List CC

def combineCC : List CC → CC → Except Fault (List CC)
  | [], c => .ok [c]
  | existing :: CCs, c =>
    if existing.alphabet = c.alphabet then do
      return (← existing.union c) :: CCs
    else do
      return existing :: (← combineCC CCs c)

/-- An element of an Alt inside the new one. -/
def addNested (found : Alternatives) (a : RE) : Except Fault Alternatives :=
  match a with
  | cc c => do
    return { found with CCs := ← combineCC found.CCs c }
  | _ =>
    if a.isEmptySeq then
      .ok { found with nullable := true }
    else
      .ok { found with newAlt := found.newAlt ++ [a] }

variable (makeRep : RE → ℤ → ℤ → Except Fault RE)

def addAlternative (found : Alternatives) (a : RE) : Except Fault Alternatives :=
  match a with
  | cc c => do
    return { found with CCs := ← combineCC found.CCs c }
  | alt nestedAlt => nestedAlt.foldlM addNested found
  | rep r lb ub =>
    if lb = 0 then do
      return { found with newAlt := found.newAlt ++ [← makeRep r 1 ub], nullable := true }
    else
      .ok { found with newAlt := found.newAlt ++ [a] }
  | _ =>
    if a.isEmptySeq then
      .ok { found with nullable := true }
    else
      .ok { found with newAlt := found.newAlt ++ [a] }

/-- The classes come after the other elements, and the empty sequence last. -/
def Alternatives.elements (found : Alternatives) : List RE :=
  found.newAlt ++ found.CCs.map cc ++ if found.nullable then [seq []] else []

def makeAltWith (elems : List RE) : Except Fault RE := do
  return collapse alt (← elems.foldlM (addAlternative makeRep) ⟨[], false, []⟩).elements

end Alt

section Rep

/-- A product of the type `int`. -/
def mulInt (a b : ℤ) : Except Fault ℤ :=
  if -2 ^ 31 ≤ a * b ∧ a * b < 2 ^ 31 then .ok (a * b) else .error .overflow

def ubCombine (h1 h2 : ℤ) : Except Fault ℤ :=
  if h1 = UNBOUNDED_REP ∨ h2 = UNBOUNDED_REP then .ok UNBOUNDED_REP else mulInt h1 h2

/-- `l * lb` to `u * ub` repetitions. -/
def combineRep (re : RE) (l u lb ub : ℤ) : Except Fault RE := do
  return rep re (← mulInt l lb) (← ubCombine u ub)

/-- The bounds of a repetition of a repetition. -/
def repeatRep (makeRep : RE → ℤ → ℤ → Except Fault RE) (re : RE) (l u lb ub : ℤ) :
    Except Fault RE :=
  if lb = ub then
    combineRep re l u lb ub
  else if u = UNBOUNDED_REP then
    if l = 0 then
      .ok (rep re l u)
    else if l = 1 then
      .ok (rep re lb UNBOUNDED_REP)
    else if lb = 0 then
      .ok (rep (rep re l u) 0 1)
    else do
      return rep re (← mulInt l lb) UNBOUNDED_REP
  else if l < u then
    -- The fewest repetitions from which on the counts have no gaps.
    let n := (u - 2).tdiv (u - l)
    if n ≤ lb then
      combineRep re l u lb ub
    else if ub = UNBOUNDED_REP ∨ n ≤ ub then do
      let r1 ← combineRep re l u n ub
      let r2 ← makeRep (rep re l u) lb (n - 1)
      makeAltWith makeRep [r1, r2]
    else
      .ok (rep (rep re l u) lb ub)
  else
    .ok (rep (rep re l u) lb ub)

def repeatNode (makeRep : RE → ℤ → ℤ → Except Fault RE) (re : RE) (lb ub : ℤ) :
    Except Fault RE :=
  match re with
  | rep r l u => repeatRep makeRep r l u lb ub
  | assertion .. => .ok (if 0 < lb then re else seq [])
  | _ =>
    if lb = 0 ∧ ub = 0 then
      .ok (seq [])
    else if lb = 1 ∧ ub = 1 then
      .ok re
    else
      .ok (rep re lb ub)

def makeRepFuel : ℕ → RE → ℤ → ℤ → Except Fault RE
  | 0, _, _, _ => .error .fuel
  | fuel + 1, re, lb, ub =>
    if lb = UNBOUNDED_REP then
      .error (.fatal "repetition lower bound must be finite!")
    else if ub ≠ UNBOUNDED_REP ∧ ub < lb then
      .error (.fatal "lower bound cannot exceed upper bound")
    else if re.isEmptySet ∨ re.isEmptySeq then
      .ok re
    else
      repeatNode (makeRepFuel fuel) re lb ub

/-- A call of itself makes no further one. -/
def makeRep : RE → ℤ → ℤ → Except Fault RE := makeRepFuel 2

def makeAlt (elems : List RE) : Except Fault RE := makeAltWith makeRep elems

end Rep

end RE

end Parabix
