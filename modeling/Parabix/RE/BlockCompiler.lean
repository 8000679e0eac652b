import Mathlib.Data.Stream.Init
import Parabix.RE.Assertions
import Parabix.RE.LengthRange

namespace Parabix.RE

open Library Library.BitStream

/-- The variables of a repetition in the body of a loop. -/
structure StarVars where
  starPending : Stream
  starAccum : Stream

def StarVars.zeroes : StarVars := ⟨fun _ ↦ false, fun _ ↦ false⟩

/-- What the statements for an expression give: a marker, and the new values of the variables of the
repetitions in it. The variables after those are left for what comes next. -/
structure Processed where
  marker : Marker
  stars : List StarVars
  left : Stream' StarVars

/-- The statements for an expression, with none where it is not supported. -/
abbrev Code := Marker → Stream' StarVars → Option Processed

namespace Code

def pure (f : Marker → Marker) : Code := fun marker vars ↦ some ⟨f marker, [], vars⟩

def andThen (first second : Code) : Code := fun marker vars ↦ do
  let m ← first marker vars
  let m1 ← second m.marker m.left
  return ⟨m1.marker, m.stars ++ m1.stars, m1.left⟩

def repeated (code : Code) : ℕ → Code
  | 0 => Code.pure id
  | n + 1 => code.andThen (repeated code n)

/-- A branch on the markers. The variables of a repetition in it are not those of the loop around
it, so that the test of the loop cannot read them. -/
def createIf (t : Text) (body : Code) : Code := fun marker vars ↦ do
  let m1 ← body marker vars
  if m1.stars.isEmpty then
    some ⟨⟨RE.createIf t marker.stream m1.marker.stream, m1.marker.position⟩, [], m1.left⟩
  else none

end Code

/-- The log2 techniques for bounded repetitions are disabled. -/
structure RE_Compiler where
  regions : RE_Block_Compiler.Regions
  mCodeUnitAlphabet : ℕ
  mIndexingAlphabet : Option ℕ
  mAlphabetCompilers : ℕ → Option (CC → Stream)
  alphabets : Expression.Alphabets
  DisableMatchStar : Bool

namespace RE_Compiler

variable (c : RE_Compiler)

def text : Text := c.regions.text

/-- An expression is compiled on its own from all code units. -/
def ones : Marker := ⟨fun _ ↦ true, .AtNextCodeUnit⟩

section Leaves

def compileCC (cc : CC) : Code := fun marker vars ↦
  if cc.set.empty then some ⟨⟨fun _ ↦ false, .AtEnd⟩, [], vars⟩
  else do
    let compile ← c.mAlphabetCompilers cc.alphabet
    let ccStrm : Stream := fun p ↦ c.regions.matchable p && compile cc p
    return ⟨RE_Block_Compiler.compileCC c.regions (cc.alphabet = c.mCodeUnitAlphabet) ccStrm marker,
      [], vars⟩

/-- No name is external. With an indexing alphabet its definition has unit length. -/
def compileName (defn : Code) : Code := fun marker vars ↦
  if c.mIndexingAlphabet.isSome then do
    let nameMarker ← defn ⟨fun _ ↦ true, .AtNextChar⟩ vars
    let nextPos := if marker.position = .AtEnd
      then indexedAdvance c.text.indexStream 1 marker.stream else marker.stream
    return { nameMarker with
      marker := ⟨fun p ↦ nextPos p && nameMarker.marker.stream p, nameMarker.marker.position⟩ }
  else defn marker vars

end Leaves

section Sequences

/-- The items from the current one on, in a branch of their own when enough has been matched. -/
def compileSeqTail (items : List (Expression × Code)) (matchLenSoFar : ℤ) : Code :=
  match items with
  | [] => Code.pure id
  | (r, code) :: rest =>
    if matchLenSoFar < RE.IfInsertionGap then
      code.andThen fun marker vars ↦ do
        let length ← (Expression.minMatchLength r).toOption
        let matchLen ← (Expression.addInt matchLenSoFar length).toOption
        compileSeqTail rest matchLen marker vars
    else
      Code.createIf c.text (compileSeqTail ((r, code) :: rest) 0)
termination_by (items.length, matchLenSoFar.toNat)
decreasing_by
  · exact Prod.Lex.left _ _ (Nat.lt_succ_self _)
  · apply Prod.Lex.right
    simp only [RE.IfInsertionGap] at *
    omega

/-- There are no branches within unbounded repetitions. -/
def compileSeq (mStarDepth : ℕ) (items : List (Expression × Code)) : Code :=
  if 0 < mStarDepth then
    items.foldr (fun item code ↦ item.2.andThen code) (Code.pure id)
  else compileSeqTail c items 0

end Sequences

section Alternatives

/-- The markers of all alternatives. -/
def processAlternatives : List Code → Marker → Stream' StarVars →
    Option (List Marker × List StarVars × Stream' StarVars)
  | [], _, vars => some ([], [], vars)
  | code :: codes, base, vars => do
    let m ← code base vars
    let rest ← processAlternatives codes base m.left
    return (m.marker :: rest.1, m.stars ++ rest.2.1, rest.2.2)

/-- What has been found at one of the positions. -/
def accum (markers : List Marker) (position : Position) : Stream := fun p ↦
  markers.any fun m ↦ decide (m.position = position) && m.stream p

def combine (markers : List Marker) : Marker :=
  if markers.all fun m ↦ decide (m.position = .AtEnd) then ⟨accum markers .AtEnd, .AtEnd⟩
  else
    let index := c.text.indexStream
    ⟨fun p ↦ (indexedAdvance index 1 (accum markers .AtEnd) p ||
      ScanToIndex (accum markers .AtNextCodeUnit) index p) || accum markers .AtNextChar p,
      .AtNextChar⟩

def compileAlt (alt : List Code) : Code := fun base vars ↦ do
  let found ← processAlternatives alt base vars
  return ⟨c.combine found.1, found.2.1, found.2.2⟩

end Alternatives

section Repetitions

/-- Markers of one kind or of the other, when both are aligned. -/
def createOrAligned (m1 m2 : Marker) : Marker :=
  let aligned := AlignMarkers c.text m1 m2
  ⟨fun p ↦ aligned.1.stream p || aligned.2.stream p, aligned.1.position⟩

def expandLowerBound (code : Code) (lb : ℕ) (ifGroupSize : ℕ+) : Code :=
  let group := min (ifGroupSize : ℕ) lb
  if lb = group then Code.repeated code group
  else (Code.repeated code group).andThen
    (Code.createIf c.text (expandLowerBound code (lb - group) (ifGroupSize * 2)))
termination_by lb
decreasing_by
  have hpos := ifGroupSize.pos
  omega

/-- A further repetition or none. -/
def processOrNone (code : Code) : Code := fun marker vars ↦ do
  let a ← code marker vars
  return { a with marker := c.createOrAligned a.marker marker }

def expandUpperBound (code : Code) (ub : ℕ) (ifGroupSize : ℕ+) : Code :=
  let group := min (ifGroupSize : ℕ) ub
  if ub = group then Code.repeated (c.processOrNone code) group
  else (Code.repeated (c.processOrNone code) group).andThen
    (Code.createIf c.text (expandUpperBound code (ub - group) (ifGroupSize * 2)))
termination_by ub
decreasing_by
  have hpos := ifGroupSize.pos
  omega

/-- Whether an unbounded repetition is one MatchStar. -/
def isUnit (repeated : Expression) : Option Bool :=
  if c.DisableMatchStar then some false
  else do
    let lengths ← (Expression.getLengthRange c.alphabets c.mCodeUnitAlphabet repeated).toOption
    if lengths = (1, 1) then some true
    else
      match c.mIndexingAlphabet with
      | none => some false
      | some indexing => do
        let lengths ← (Expression.getLengthRange c.alphabets indexing repeated).toOption
        some (decide (lengths = (1, 1)))

/-- The rounds of a loop, from the stars that have been assigned in the round before. -/
def whileLoop (body : Code) : ℕ → Stream → Stream → Stream → List StarVars → Option Stream
  | 0, _, _, _, _ => none
  | fuel + 1, whileTest, whilePending, whileAccum, stars =>
    if (List.range c.text.length).any whileTest then do
      let result ← body ⟨whilePending, .AtNextChar⟩ (stars ++ₛ Stream'.const .zeroes)
      let loopComputation := NextCharacter c.text result.marker
      let whilePending : Stream := fun p ↦ loopComputation p && !whileAccum p
      let whileAccum : Stream := fun p ↦ loopComputation p || whileAccum p
      let mWhileTest : Stream :=
        result.stars.foldl (fun test star p ↦ test p || star.starPending p) fun _ ↦ false
      whileLoop body fuel (fun p ↦ mWhileTest p || whilePending p) whilePending whileAccum
        result.stars
    else some whileAccum

/-- A repetition in the body of a loop makes its rounds with those of the loop. -/
def compileStar (body : Code) : Code := fun marker vars ↦ do
  let base := NextCharacter c.text marker
  let star := vars.head
  let m1 : Stream := fun p ↦ base p || star.starPending p
  let m2 : Stream := fun p ↦ base p || star.starAccum p
  let result ← body ⟨m1, .AtNextChar⟩ vars.tail
  let loopComputation := NextCharacter c.text result.marker
  let starPending : Stream := fun p ↦ loopComputation p && !m2 p
  let starAccum : Stream := fun p ↦ loopComputation p || m2 p
  return ⟨⟨fun p ↦ base p || starAccum p, .AtNextChar⟩, ⟨starPending, starAccum⟩ :: result.stars,
    result.left⟩

/-- `body` is the code of the repeated expression within the loop. -/
def processUnboundedRep (fuel mStarDepth : ℕ) (repeated : Expression) (code body : Code) : Code :=
  fun marker vars ↦ do
    let base := NextCharacter c.text marker
    if ← c.isUnit repeated then
      let compiled ← code ones vars
      let mask : Stream := fun p ↦ compiled.marker.stream p || !c.text.indexStream p
      return { compiled with
        marker := ⟨fun p ↦ matchStar base mask p && c.text.indexStream p, .AtNextChar⟩ }
    else if 0 < mStarDepth then
      c.compileStar body marker vars
    else
      let whileAccum ← c.whileLoop body fuel base base base []
      return ⟨⟨whileAccum, .AtNextChar⟩, [], vars⟩

/-- The bounds where at least one repetition is required, or few are allowed. -/
def compileRepFrom (lb ub : ℤ) (code unbounded : Code) : Code :=
  let at_lb := c.expandLowerBound code lb.toNat IfInsertionGap.toPNat'
  if ub = UNBOUNDED_REP then at_lb.andThen unbounded
  else if lb < ub then
    at_lb.andThen (c.expandUpperBound code (ub - lb).toNat IfInsertionGap.toPNat')
  else at_lb

def compileRep (lb ub : ℤ) (code unbounded : Code) : Code :=
  if lb ≤ 2 ∧ ub = UNBOUNDED_REP ∨ ub ≠ UNBOUNDED_REP ∧ ub ≤ 2 then
    c.compileRepFrom lb ub code unbounded
  else if lb = 0 then fun marker vars ↦ do
    let at_least_one ← c.compileRepFrom 1 ub code unbounded marker vars
    let aligned := AlignMarkers c.text marker at_least_one.marker
    return { at_least_one with
      marker := ⟨fun p ↦ aligned.1.stream p || aligned.2.stream p, aligned.2.position⟩ }
  else c.compileRepFrom lb ub code unbounded

end Repetitions

section Operators

/-- A name that is not external is taken to be one character. -/
def lengthRange : Expression → Except Fault (ℤ × ℤ)
  | .name _ _ => .ok (1, 1)
  | regexp => Expression.getLengthRange c.alphabets
      (c.mIndexingAlphabet.getD c.mCodeUnitAlphabet) regexp

/-- A lookahead of one character is compiled twice. -/
def compileAssertion (asserted : Expression) (code : Code) (kind : Kind) (sense : Sense) : Code :=
  fun marker vars ↦ do
    let compiled ← code ones vars
    match kind with
    | .LookBehind =>
      return { compiled with marker :=
        RE_Block_Compiler.compileLookBehind c.text compiled.marker sense marker }
    | .LookAhead =>
      let lengths ← (c.lengthRange asserted).toOption
      if lengths.2 = 0 then
        return { compiled with marker :=
          RE_Block_Compiler.compileZeroWidth c.text compiled.marker sense marker }
      else if lengths.2 = 1 ∧ compiled.marker.position = .AtEnd then
        let lookahead ← code ones compiled.left
        return ⟨RE_Block_Compiler.compileUnitLength c.text lookahead.marker sense marker,
          compiled.stars ++ lookahead.stars, lookahead.left⟩
      else none

def createAndAligned (negated : Bool) (m1 m2 : Marker) : Marker :=
  let aligned := AlignMarkers c.text m1 m2
  ⟨fun p ↦ aligned.1.stream p && (aligned.2.stream p != negated), aligned.1.position⟩

def compileDiff (lh rh : Code) : Code := fun marker vars ↦ do
  let t1 ← lh marker vars
  let t2 ← rh marker t1.left
  return ⟨c.createAndAligned true t1.marker t2.marker, t1.stars ++ t2.stars, t2.left⟩

def alignedUnicodeLength (lh rh : Expression) : Option Bool := do
  let lhl ← (Expression.getLengthRange c.alphabets Unicode lh).toOption
  let rhl ← (Expression.getLengthRange c.alphabets Unicode rh).toOption
  return decide (lhl.1 = lhl.2 ∧ lhl.1 = rhl.1 ∧ lhl.2 = rhl.2)

def compileIntersect (lh rh : Expression) (left right : Code) : Code := fun marker vars ↦ do
  if ← c.alignedUnicodeLength lh rh then
    let t1 ← left marker vars
    let t2 ← right marker t1.left
    return ⟨c.createAndAligned false t1.marker t2.marker, t1.stars ++ t2.stars, t2.left⟩
  else none

end Operators

mutual

/-- The statements for an expression within so many unbounded repetitions. A loop makes at most as
many rounds as there is fuel. -/
def process (fuel : ℕ) : Expression → ℕ → Code
  | .name _ (some defn), mStarDepth => c.compileName (process fuel defn mStarDepth)
  | .capture _ capturedRE, mStarDepth => process fuel capturedRE mStarDepth
  | .seq elems, mStarDepth => c.compileSeq mStarDepth (processItems fuel elems mStarDepth)
  | .alt elems, mStarDepth =>
    c.compileAlt ((processItems fuel elems mStarDepth).map Prod.snd)
  | .rep re lb ub, mStarDepth =>
    c.compileRep lb ub (process fuel re mStarDepth)
      (c.processUnboundedRep fuel mStarDepth re (process fuel re mStarDepth)
        (process fuel re (mStarDepth + 1)))
  | .assertion asserted kind sense, mStarDepth =>
    c.compileAssertion asserted (process fuel asserted mStarDepth) kind sense
  | .diff lh rh, mStarDepth =>
    c.compileDiff (process fuel lh mStarDepth) (process fuel rh mStarDepth)
  | .intersect lh rh, mStarDepth =>
    c.compileIntersect lh rh (process fuel lh mStarDepth) (process fuel rh mStarDepth)
  | .start, _ => Code.pure (RE_Block_Compiler.compileStart c.regions)
  | .stop, _ => Code.pure (RE_Block_Compiler.compileEnd c.regions)
  | .cc x, _ => c.compileCC x
  | .any _, _ => Code.pure (RE_Block_Compiler.compileAny c.regions)
  | _, _ => fun _ _ ↦ none

def processItems (fuel : ℕ) : List Expression → ℕ → List (Expression × Code)
  | [], _ => []
  | re :: elems, mStarDepth =>
    (re, process fuel re mStarDepth) :: processItems fuel elems mStarDepth

end

/-- The markers of an expression from given ones, in a branch on those. -/
def compileFrom (fuel : ℕ) (re : Expression) (initialMarkers : Marker) : Option Marker :=
  (Code.createIf c.text (c.process fuel re 0) initialMarkers (Stream'.const .zeroes)).map (·.marker)

def compileRE (fuel : ℕ) (re : Expression) : Option Marker :=
  (c.process fuel re 0 ⟨c.text.indexStream, .AtNextChar⟩ (Stream'.const .zeroes)).map (·.marker)

end RE_Compiler

end Parabix.RE
