import Parabix.RE.ExpressionConstructors
import Parabix.RE.LengthRange
import Parabix.RE.UniquePrefix

namespace Parabix.RE.Expression

open Library Library.Powers Library.Spans UCD
open Memoization (PropertyKind Mode GroupSense)

section Constructors

def isName : Expression → Bool
  | name _ _ => true
  | _ => false

def makeDiff (same : Expression → Expression → Bool) (lh rh : Expression) :
    Except Fault Expression :=
  if same lh rh then
    makeEmptySet
  else if rh.isEmptySet then
    .ok lh
  else if lh.isEmptySeq then
    if rh.isEmptySeq then
      makeEmptySet
    else if rh.isOptionalRep then
      makeEmptySet
    else
      match rh with
      | cc _ | seq _ => .ok lh
      | _ => .ok (diff lh rh)
  else if lh.isEmptySet then
    .ok lh
  else
    match lh with
    | diff lh₀ rh₀ => do
      makeDiff same lh₀ (← makeAlt [rh₀, rh])
    | _ => .ok (diff lh rh)

def makeAssertion (asserted : Expression) (k : Kind) (s : Sense) : Except Fault Expression :=
  if asserted.isEmptySet then
    if s = .Negative then .ok (makeSeq []) else makeEmptySet
  else if asserted.isEmptySeq then
    if s = .Positive then .ok (makeSeq []) else makeEmptySet
  else
    .ok (assertion asserted k s)

end Constructors

section Names

/-- The names that were introduced, with their definitions. -/
abbrev NameMap := List (String × Expression)

def maxNameLength : ℕ := 50

/-- A long name is looked up as it is, but kept under its hash. -/
def nameKey (getStringHash : String → String) (n : String) : String :=
  if maxNameLength < n.utf8ByteSize then getStringHash n else n

/-- A name that is found keeps its definition. -/
def createName (getStringHash : String → String) (n : String) (defn : Expression)
    (mNameMap : NameMap) : Expression × NameMap :=
  match mNameMap.lookup n with
  | none =>
    let key := nameKey getStringHash n
    (name key (some defn),
      if (mNameMap.lookup key).isSome then mNameMap else (key, defn) :: mNameMap)
  | some found => (name n (some found), mNameMap)

/-- A name with the definition that it is introduced for. -/
def ownName (getStringHash : String → String) (n : String) (defn : Expression) (_ : Unit) :
    Expression × Unit :=
  (name (nameKey getStringHash n) (some defn), ())

end Names

/-- The transformer, and what it asks of the printer and of the nodes. -/
structure LookAheadNamer where
  mAlphabet : ℕ
  mMaxLookahead : ℕ
  alphabets : Alphabets
  PrintRE : Expression → String
  getStringHash : String → String
  canonicalName : CC → String
  memory : Memory
  /-- Whether two expressions are one node. -/
  same : Expression → Expression → Bool
  /-- The turns of the loop of `ParseUniquePrefix` that are looked at. -/
  fuel : ℕ

/-- A match of a class is not empty, and matches of two classes of an alphabet are matches of what
they share. -/
structure Reading.Plain {Λ : Type} (M : Reading Λ) : Prop where
  not_empty (modes : Λ) (alphabet : ℕ) (s : Set ℕ) (p : ℕ) : ¬ M.cc modes alphabet s p p
  inter (modes : Λ) (alphabet : ℕ) (s t : Set ℕ) :
    M.cc modes alphabet (s ∩ t) = M.cc modes alphabet s ⊓ M.cc modes alphabet t

namespace LookAheadNamer

variable (N : LookAheadNamer)

section Transform

variable {σ : Type} (create : String → Expression → σ → Expression × σ)

/-- A lookahead of variable length: its prefix and the rest, without the assertion. -/
def nameVariable (x : Expression) (s : σ) : Except Fault (Option Expression × σ) :=
  match ParseUniquePrefix N.fuel x with
  | none => .error .fuel
  | some (.error fault) => .error fault
  | some (.ok (first, suffix)) =>
    if first.isEmptySeq || suffix.isEmptySeq then
      .error (.fatal "Unsupported lookahead assertion")
    else
      let pfx := name (N.PrintRE first) (some first)
      let xfrmd := makeSeq [pfx, suffix]
      let (n, s) := create (N.PrintRE xfrmd) xfrmd s
      .ok (some n, s)

/-- The new assertion, if what it asserts is changed. -/
def newAssertion (x : Option Expression) (kind : Kind) (sense : Sense) :
    Except Fault (Option Expression) := do
  match x with
  | none => return none
  | some x => return some (← makeAssertion x kind sense)

/-- The assertion itself is named, if it is long. -/
def transformAssertion (x0 : Expression) (kind : Kind) (sense : Sense) (x : Option Expression)
    (s : σ) : Except Fault (Option Expression × σ) :=
  if kind = .LookAhead ∧ (x.getD x0).isName = false then do
    let a_range ← getLengthRange N.alphabets N.mAlphabet x0
    if a_range.1 ≠ a_range.2 then
      N.nameVariable create (x.getD x0) s
    -- The lower length is compared as an unsigned number.
    else if N.mMaxLookahead < (a_range.1 % 2 ^ 32).toNat then
      let a1 := (← newAssertion x kind sense).getD (assertion x0 kind sense)
      let (n, s) := create (N.PrintRE a1) a1 s
      return (some n, s)
    else
      return (← newAssertion x kind sense, s)
  else do
    return (← newAssertion x kind sense, s)

mutual

/-- The new node, if an expression is changed. -/
def transform : Expression → σ → Except Fault (Option Expression × σ)
  | alt elems, s => do
    let (elems1, any_changed, s) ← transformElems elems s
    if any_changed then return (some (← makeAlt elems1), s) else return (none, s)
  | assertion x0 kind sense, s => do
    let (x, s) ← transform x0 s
    N.transformAssertion create x0 kind sense x s
  | capture n captured, s => do
    let (t, s) ← transform captured s
    return (t.map (capture n), s)
  | diff x0 y0, s => do
    let (x, s) ← transform x0 s
    let (y, s) ← transform y0 s
    if x.isSome || y.isSome then
      return (some (← makeDiff N.same (x.getD x0) (y.getD y0)), s)
    else
      return (none, s)
  | group mode x0 sense, s => do
    let (x, s) ← transform x0 s
    return (x.map fun x ↦ group mode x sense, s)
  | intersect x0 y0, s => do
    let (x, s) ← transform x0 s
    let (y, s) ← transform y0 s
    if x.isSome || y.isSome then
      return (some (← makeIntersect N.same (x.getD x0) (y.getD y0)), s)
    else
      return (none, s)
  | range x0 y0, s => do
    let (x, s) ← transform x0 s
    let (y, s) ← transform y0 s
    if x.isSome || y.isSome then
      return (some (← makeRange N.memory N.canonicalName N.same (x.getD x0) (y.getD y0)), s)
    else
      return (none, s)
  | rep x0 lb ub, s => do
    let (x, s) ← transform x0 s
    match x with
    | none => return (none, s)
    | some x => return (some (← makeRep x lb ub), s)
  | seq elems, s => do
    let (elems1, any_changed, s) ← transformElems elems s
    return (if any_changed then some (makeSeq elems1) else none, s)
  | _, s => .ok (none, s)

def transformElems : List Expression → σ → Except Fault (List Expression × Bool × σ)
  | [], s => .ok ([], false, s)
  | e :: elems, s => do
    let (e1, s) ← transform e s
    let (elems1, any_changed, s) ← transformElems elems s
    return (e1.getD e :: elems1, e1.isSome || any_changed, s)

end

/-- A name is not looked into. -/
theorem transform_name (n : String) (definition : Option Expression) (s : σ) :
    N.transform create (name n definition) s = .ok (none, s) := by
  simp only [transform]

/-- The new expression, with the names that were introduced. -/
def transformRE (e : Expression) : Except Fault (Expression × NameMap) := do
  let (r, mNameMap) ← N.transform (createName N.getStringHash) e []
  return (r.getD e, mNameMap)

/-- The new node if no two lookaheads share a name. -/
def own (e : Expression) : Except Fault (Option Expression) := do
  return (← N.transform (ownName N.getStringHash) e ()).1

end Transform

section Condition

/-- No match is empty, in any plain reading. -/
def MatchesNoEmpty (e : Expression) : Prop :=
  ∀ (Λ : Type) (M : Reading Λ), M.Plain → ∀ modes p, ¬ read M modes e p p

/-- A sequence of no items is at the front of no difference from which a longer sequence is taken
that matches the empty string too. -/
def DiffRight (same : Expression → Expression → Bool) : Expression → Expression → Prop
  | lh, rh => same lh rh = true ∨ rh.isEmptySet = true ∨
    match lh with
    | diff lh₀ rh₀ => ∀ r, makeAlt [rh₀, rh] = .ok r → DiffRight same lh₀ r
    | seq [] => ∀ items, rh = seq items → items = [] ∨ MatchesNoEmpty rh
    | _ => True

/-- An operand that matches the empty string is intersected with the sequence of no items as a
repetition only. -/
def IntersectRight (same : Expression → Expression → Bool) (lh rh : Expression) : Prop :=
  same lh rh = true ∨
    (lh.isEmptySeq = true → rh.isOptionalRep = true ∨ MatchesNoEmpty rh) ∧
      (rh.isEmptySeq = true → lh.isOptionalRep = true ∨ MatchesNoEmpty lh)

/-- No lookahead is of variable length, no range has a lookahead that is changed, and the other
constructors build the changed nodes again as they should. -/
inductive Ready : Expression → Prop
  | alt {elems : List Expression} (h : ∀ e ∈ elems, Ready e) : Ready (alt elems)
  | any (alphabet : ℕ) : Ready (any alphabet)
  | assertion {x0 : Expression} (kind : Kind) (sense : Sense) (h : Ready x0)
    (hfixed : kind = .LookAhead → x0.isName = true ∨
      ∀ rg, getLengthRange N.alphabets N.mAlphabet x0 = .ok rg → rg.1 = rg.2) :
    Ready (assertion x0 kind sense)
  | capture {captured : Expression} (n : String) (h : Ready captured) : Ready (capture n captured)
  | cc (c : CC) : Ready (cc c)
  | diff {x0 y0 : Expression} (hx : Ready x0) (hy : Ready y0)
    (hnew : ∀ x y, N.own x0 = .ok x → N.own y0 = .ok y → (x.isSome || y.isSome) = true →
      DiffRight N.same (x.getD x0) (y.getD y0)) : Ready (diff x0 y0)
  | group {x0 : Expression} (mode : Mode) (sense : GroupSense) (h : Ready x0) :
    Ready (group mode x0 sense)
  | intersect {x0 y0 : Expression} (hx : Ready x0) (hy : Ready y0)
    (hnew : ∀ x y, N.own x0 = .ok x → N.own y0 = .ok y → (x.isSome || y.isSome) = true →
      IntersectRight N.same (x.getD x0) (y.getD y0)) : Ready (intersect x0 y0)
  | name (n : String) (definition : Option Expression) : Ready (name n definition)
  | propertyExpression (kind : PropertyKind) (identifier : String)
    (resolvedRE : Option Expression) : Ready (propertyExpression kind identifier resolvedRE)
  | range {x0 y0 : Expression} (hx : Ready x0) (hy : Ready y0) (hx0 : N.own x0 = .ok none)
    (hy0 : N.own y0 = .ok none) : Ready (range x0 y0)
  | reference (n : String) (captured : Expression) (i : ℕ) : Ready (reference n captured i)
  | rep {x0 : Expression} {lb ub : ℤ} (h : Ready x0)
    (hnew : ∀ x, N.own x0 = .ok (some x) → ¬ Skips x lb ub) : Ready (rep x0 lb ub)
  | seq {elems : List Expression} (h : ∀ e ∈ elems, Ready e) : Ready (seq elems)
  | start : Ready start
  | stop : Ready stop

/-- The lookaheads that get a name, as they are by then. -/
inductive Named : Expression → Expression → Prop
  | alt {elems : List Expression} {e d : Expression} (he : e ∈ elems) (h : Named e d) :
    Named (alt elems) d
  | asserted {x0 d : Expression} {kind : Kind} {sense : Sense} (h : Named x0 d) :
    Named (assertion x0 kind sense) d
  | lookahead {x0 : Expression} {x a : Option Expression} {sense : Sense} {rg : ℤ × ℤ}
    (hx : N.own x0 = .ok x) (hname : (x.getD x0).isName = false)
    (hrg : getLengthRange N.alphabets N.mAlphabet x0 = .ok rg)
    (hlong : N.mMaxLookahead < (rg.1 % 2 ^ 32).toNat)
    (ha : newAssertion x .LookAhead sense = .ok a) :
    Named (assertion x0 .LookAhead sense) (a.getD (assertion x0 .LookAhead sense))
  | capture {captured d : Expression} {n : String} (h : Named captured d) :
    Named (capture n captured) d
  | diffLeft {x0 y0 d : Expression} (h : Named x0 d) : Named (diff x0 y0) d
  | diffRight {x0 y0 d : Expression} (h : Named y0 d) : Named (diff x0 y0) d
  | group {x0 d : Expression} {mode : Mode} {sense : GroupSense} (h : Named x0 d) :
    Named (group mode x0 sense) d
  | intersectLeft {x0 y0 d : Expression} (h : Named x0 d) : Named (intersect x0 y0) d
  | intersectRight {x0 y0 d : Expression} (h : Named y0 d) : Named (intersect x0 y0) d
  | rangeLeft {x0 y0 d : Expression} (h : Named x0 d) : Named (range x0 y0) d
  | rangeRight {x0 y0 d : Expression} (h : Named y0 d) : Named (range x0 y0) d
  | rep {x0 d : Expression} {lb ub : ℤ} (h : Named x0 d) : Named (rep x0 lb ub) d
  | seq {elems : List Expression} {e d : Expression} (he : e ∈ elems) (h : Named e d) :
    Named (seq elems) d

/-- Two lookaheads that get one name are one lookahead. -/
def Apart (e : Expression) : Prop :=
  ∀ d d', N.Named e d → N.Named e d' →
    nameKey N.getStringHash (N.PrintRE d) = N.PrintRE d' → d = d'

end Condition

end LookAheadNamer

end Parabix.RE.Expression
