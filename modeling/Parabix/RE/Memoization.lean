import Parabix.RE.Syntax

namespace Parabix.RE.Memoization

open UCD

section Nodes

inductive Mode where
  | CaseInsensitiveMode
  | GraphemeMode
  | CompatibilityMode
deriving DecidableEq, Repr

inductive GroupSense where
  | On
  | Off
deriving DecidableEq, Repr

inductive PropertyKind where
  | Codepoint
  | Boundary
deriving DecidableEq, Repr

inductive Operator where
  | Eq
  | NEq
deriving DecidableEq, Repr

/-- A class of symbols, whose set meets the invariants of its representation. -/
structure Class where
  set : UnicodeSet
  wellFormed : set.WellFormed
  alphabet : ℕ

/-- The expressions that are kept in memo tables, over the classes and the properties that a
reference names. -/
inductive Node (κ π : Type) where
  | alt (elems : List (Node κ π))
  | any
  | assertion (asserted : Node κ π) (kind : Kind) (sense : Sense)
  | cc (c : κ)
  | range (lo hi : Node κ π)
  | diff (lh rh : Node κ π)
  | stop
  | intersect (lh rh : Node κ π)
  | name (nameSpace name : String) (definition : Option (Node κ π))
  | propertyExpression (kind : PropertyKind) (identifier : String) (op : Operator)
      (value : String)
  | capture (name : String) (capturedRE : Option (Node κ π))
  | reference (name : String) (number : ℕ) (capture : Option (Node κ π)) (referencedProperty : π)
  | group (mode : Mode) (re : Node κ π) (sense : GroupSense)
  | rep (re : Node κ π) (lb ub : ℤ)
  | seq (elems : List (Node κ π))
  | start

abbrev Expr := Node Class ℕ

end Nodes

section Enumerations

/-! The values of the enumerations, in which they are compared. -/

def kindToNat : Kind → ℕ
  | .LookBehind => 0
  | .LookAhead => 1

def senseToNat : Sense → ℕ
  | .Positive => 0
  | .Negative => 1

def Mode.toNat : Mode → ℕ
  | .CaseInsensitiveMode => 0
  | .GraphemeMode => 1
  | .CompatibilityMode => 2

def GroupSense.toNat : GroupSense → ℕ
  | .On => 0
  | .Off => 1

def PropertyKind.toNat : PropertyKind → ℕ
  | .Codepoint => 0
  | .Boundary => 1

def Operator.toNat : Operator → ℕ
  | .Eq => 0
  | .NEq => 1

def ClassTypeId {κ π : Type} : Node κ π → ℕ
  | .alt _ => 0
  | .any => 1
  | .assertion .. => 2
  | .cc _ => 3
  | .range .. => 4
  | .diff .. => 5
  | .stop => 6
  | .intersect .. => 7
  | .name .. => 8
  | .propertyExpression .. => 9
  | .capture .. => 10
  | .reference .. => 11
  | .group .. => 12
  | .rep .. => 13
  | .seq _ => 14
  | .start => 15

end Enumerations

section Compare

/-- The comparison of two operands, the first one first; the last test is the wrong way round for
operands that are equivalent. -/
def lessOperands (lessL greaterL lessR greaterR : Bool) : Bool :=
  if lessL then true else if greaterL then false else if lessR then true else !greaterR

mutual

/-- The loop over the elements of a Seq or an Alt. -/
def lessElems : List Expr → List Expr → Bool
  | i :: is, j :: js =>
    if compare i j then true else if compare j i then false else lessElems is js
  | _, _ => false
termination_by is js => sizeOf is + sizeOf js

/-- A definition, or a captured expression, that may be missing. -/
def lessOption : Option Expr → Option Expr → Bool
  | none, rh => rh.isSome
  | some _, none => false
  | some l, some r => compare l r
termination_by lh rh => sizeOf lh + sizeOf rh

def lessThan : Expr → Expr → Bool
  | .alt l, .alt r | .seq l, .seq r =>
    if l.length ≠ r.length then l.length < r.length else lessElems l r
  | .assertion a k s, .assertion a' k' s' =>
    if k ≠ k' then kindToNat k < kindToNat k'
    else if s ≠ s' then senseToNat s < senseToNat s'
    else compare a a'
  | .cc c, .cc c' => c.set.less c'.set
  | .name ns n d, .name ns' n' d' =>
    if (ns ≠ "") ≠ (ns' ≠ "") then ns ≠ ""
    else if ns ≠ "" ∧ ns ≠ ns' then ns < ns'
    else if n ≠ n' then n < n'
    else lessOption d d'
  | .capture n c, .capture n' c' => if n ≠ n' then n < n' else lessOption c c'
  | .reference n i c _, .reference n' i' c' _ =>
    if n ≠ n' then n < n' else if i ≠ i' then i < i' else lessOption c c'
  | .group m r s, .group m' r' s' =>
    if m ≠ m' then m.toNat < m'.toNat
    else if s ≠ s' then s.toNat < s'.toNat
    else compare r r'
  | .range l r, .range l' r' | .diff l r, .diff l' r' | .intersect l r, .intersect l' r' =>
    lessOperands (compare l l') (compare l' l) (compare r r') (compare r' r)
  | .rep r l u, .rep r' l' u' =>
    if l ≠ l' then l < l' else if u ≠ u' then u < u' else compare r r'
  | .propertyExpression k i o v, .propertyExpression k' i' o' v' =>
    if k ≠ k' then k.toNat < k'.toNat
    else if i ≠ i' then i < i'
    else if o ≠ o' then o.toNat < o'.toNat
    else v < v'
  | _, _ => false
termination_by lh rh => sizeOf lh + sizeOf rh

def compare (lh rh : Expr) : Bool :=
  if ClassTypeId lh ≠ ClassTypeId rh then ClassTypeId lh < ClassTypeId rh else lessThan lh rh
termination_by sizeOf lh + sizeOf rh + 1

end

end Compare

end Parabix.RE.Memoization
