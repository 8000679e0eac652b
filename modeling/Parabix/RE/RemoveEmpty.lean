import Parabix.RE.StarNormal

namespace Parabix.RE

open Library Library.Powers Library.Encoding UCD

def INT_MAX : ℤ := 2 ^ 31 - 1

section Length

/-- A sum of lengths that stays at the greatest one. -/
def addLength (a b : ℤ) : ℤ := if b < INT_MAX - a then a + b else INT_MAX

/-- The length of so many repetitions. -/
def repeatLength (length bound : ℤ) : Except Fault ℤ :=
  if bound ≠ UNBOUNDED_REP ∧ length < INT_MAX then mulInt length bound else .ok INT_MAX

-- The alphabet that a multiplexed alphabet was made from, and any other alphabet itself.
variable (sourceAlphabet : ℕ → ℕ)

mutual

/-- The least and the greatest length in characters, for an index alphabet of Unicode. -/
def getLengthRange : RE → Except Fault (ℤ × ℤ)
  | alt elems => altLengthRange elems (INT_MAX, 0)
  | seq elems => seqLengthRange elems (0, 0)
  | rep re lb ub => do
    let range ← getLengthRange re
    let first ← repeatLength range.1 lb
    let second ← repeatLength range.2 ub
    return (first, second)
  | assertion _ _ _ => .ok (0, 0)
  | start => .ok (0, 0)
  | stop => .ok (0, 0)
  | diff lh _ => getLengthRange lh
  | intersect lh rh => do
    let r1 ← getLengthRange lh
    let r2 ← getLengthRange rh
    return (max r1.1 r2.1, min r1.2 r2.2)
  | cc c =>
    let a := sourceAlphabet c.alphabet
    .ok (if a = Byte ∨ a = UTF8 ∨ a = Unicode then (1, 1) else (1, INT_MAX))
  | any => .ok (1, 1)
  | name _ definition => getLengthRange definition
  | other _ => .ok (0, INT_MAX)

def altLengthRange : List RE → ℤ × ℤ → Except Fault (ℤ × ℤ)
  | [], range => .ok range
  | a :: elems, range => do
    let a_range ← getLengthRange a
    altLengthRange elems (min range.1 a_range.1, max range.2 a_range.2)

def seqLengthRange : List RE → ℤ × ℤ → Except Fault (ℤ × ℤ)
  | [], range => .ok range
  | re :: elems, range => do
    let tmp ← getLengthRange re
    seqLengthRange elems (addLength range.1 tmp.1, addLength range.2 tmp.2)

end

end Length

namespace RemoveEmptyTransformer

section Transform

variable (sourceAlphabet : ℕ → ℕ) (same : RE → RE → Bool)

/-- Alternatives of which a single one stands for itself. -/
def alternatives (elems : List RE) : Except Fault RE :=
  match elems with
  | [elem] => .ok elem
  | elems => makeAlt elems

mutual

/-- The new node, if an expression is changed. -/
def transform : RE → Except Fault (Option RE)
  | name _ definition => transform definition
  | rep r lb ub => do
    let s ← transform r
    if s.isNone ∧ 1 ≤ lb then return none
    else if ub = 1 then return some (s.getD r)
    else
      let new_lb := if lb = 0 then 1 else lb
      return some (← makeRep (s.getD r) new_lb ub)
  | alt elems => do
    let (elems1, any_changed) ← transformElems elems
    if any_changed then return some (← alternatives elems1) else return none
  | seq elems => do
    let rg ← getLengthRange sourceAlphabet (seq elems)
    if 0 < rg.1 then return none
    else if rg.2 = 0 then return some (← makeAlt [])
    else
      let alts ← transformItems [] elems
      return some (← alternatives alts)
  | assertion _ _ _ => do return some (← makeAlt [])
  | start => do return some (← makeAlt [])
  | stop => do return some (← makeAlt [])
  | diff x0 y0 => do
    let x ← transform x0
    let y ← transform y0
    if x.isSome || y.isSome then
      return some (← makeDiff same (x.getD x0) (y.getD y0))
    else
      return none
  | intersect x0 y0 => do
    let x ← transform x0
    let y ← transform y0
    if x.isSome || y.isSome then
      return some (← makeIntersect same (x.getD x0) (y.getD y0))
    else
      return none
  | _ => return none

/-- The elements that are not the empty set, and whether one was changed. -/
def transformElems : List RE → Except Fault (List RE × Bool)
  | [] => return ([], false)
  | e :: elems => do
    let e1 ← transform e
    let (elems1, any_changed) ← transformElems elems
    return (if (e1.getD e).isEmptySet then elems1 else e1.getD e :: elems1,
      e1.isSome || any_changed)

/-- For each item the sequence with the nonempty case of this item, after the items before it. -/
def transformItems (before : List RE) : List RE → Except Fault (List RE)
  | [] => return []
  | e :: after => do
    let e1 ← transform e
    let alts ← transformItems (before ++ [e]) after
    return if (e1.getD e).isEmptySet then alts else makeSeq (before ++ e1.getD e :: after) :: alts

end

end Transform

end RemoveEmptyTransformer

def emptyMatchElimination (sourceAlphabet : ℕ → ℕ) (same : RE → RE → Bool) (re : RE) :
    Except Fault RE := do
  return (← RemoveEmptyTransformer.transform sourceAlphabet same re).getD re

namespace RemoveEmptyTransformer

section Condition

variable (sourceAlphabet : ℕ → ℕ) (same : RE → RE → Bool) (M : Meaning (Language ℕ))

/-- The parts of an expression that are transformed with it. -/
inductive Visits : RE → RE → Prop
  | self (e : RE) : Visits e e
  | alt {elems : List RE} {e x : RE} (he : e ∈ elems) (h : Visits e x) : Visits (alt elems) x
  | seq {elems : List RE} {e x : RE} {rg : ℤ × ℤ}
    (hrg : getLengthRange sourceAlphabet (seq elems) = .ok rg) (hfirst : rg.1 ≤ 0)
    (hsecond : rg.2 ≠ 0) (he : e ∈ elems) (h : Visits e x) : Visits (seq elems) x
  | rep {r x : RE} {lb ub : ℤ} (h : Visits r x) : Visits (rep r lb ub) x
  | diff_left {x0 y0 x : RE} (h : Visits x0 x) : Visits (diff x0 y0) x
  | diff_right {x0 y0 x : RE} (h : Visits y0 x) : Visits (diff x0 y0) x
  | intersect_left {x0 y0 x : RE} (h : Visits x0 x) : Visits (intersect x0 y0) x
  | intersect_right {x0 y0 x : RE} (h : Visits y0 x) : Visits (intersect x0 y0) x
  | name {definition x : RE} (n : String) (h : Visits definition x) :
    Visits (name n definition) x

/-- A sequence that matches the empty string is not taken for one that does not; what is repeated
twice or more does not match the empty string, or nothing else; no other node matches it; and the
constructors are right. -/
def Handled : RE → Prop
  | seq elems => ∃ rg, getLengthRange sourceAlphabet (seq elems) = .ok rg ∧
    (0 < rg.1 → [] ∉ denote M (seq elems))
  | rep r lb ub => ∀ s, transform sourceAlphabet same r = .ok s → (s = none ∧ 1 ≤ lb) ∨ ub = 1 ∨
    ub ≠ 0 ∧ (lb ≤ 1 ∨ [] ∉ denote M r ∨ denote M r ≤ 1) ∧ RepSafe (s.getD r).outline (max lb 1) ub
  | diff x0 y0 => ∀ x y, transform sourceAlphabet same x0 = .ok x →
    transform sourceAlphabet same y0 = .ok y → (x.isSome || y.isSome) = true →
      DiffReady same M (x.getD x0) (y.getD y0)
  | other node => [] ∉ M.other node
  | _ => True

/-- The eliminator takes the empty string away, and nothing else. -/
def Eliminates (re : RE) : Prop :=
  ∃ r, emptyMatchElimination sourceAlphabet same re = .ok r ∧ denote M r = denote M re \ 1

end Condition

end RemoveEmptyTransformer

end Parabix.RE
