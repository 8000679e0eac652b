import Parabix.Library.Spans
import Parabix.RE.StarNormal

namespace Parabix.RE.Boundaries

open Library Library.Powers Library.Spans UCD

def makeLookBehindAssertion (r : RE) : Except Fault RE := makeAssertion r .LookBehind .Positive

def makeNegativeLookBehindAssertion (r : RE) : Except Fault RE :=
  makeAssertion r .LookBehind .Negative

def makeLookAheadAssertion (r : RE) : Except Fault RE := makeAssertion r .LookAhead .Positive

def makeNegativeLookAheadAssertion (r : RE) : Except Fault RE :=
  makeAssertion r .LookAhead .Negative

def makeSOT : RE := start

def makeEOT : RE := stop

/-- Before what follows behind something. -/
def between (behind ahead : RE) : Except Fault RE := do
  return makeSeq [← makeLookBehindAssertion behind, ← makeLookAheadAssertion ahead]

/-- Two operands that are built here are never one node. -/
def makeDiffOf (lh rh : RE) : Except Fault RE := makeDiff (fun _ _ ↦ false) lh rh

section Grapheme

/-- The values of the property Grapheme_Cluster_Break. -/
inductive GCB where
  | CR
  | LF
  | Control
  | L
  | V
  | LV
  | LVT
  | T
  | EX
  | ZWJ
  | SM
  | PP
  | RI
  | XX
deriving DecidableEq, Repr

/-- The property expressions have nodes of their own. -/
def GCB.node : GCB → ℕ
  | CR => 0
  | LF => 1
  | Control => 2
  | L => 3
  | V => 4
  | LV => 5
  | LVT => 6
  | T => 7
  | EX => 8
  | ZWJ => 9
  | SM => 10
  | PP => 11
  | RI => 12
  | XX => 13

def pictographicNode : ℕ := 14

/-- `makePropertyExpression` for a value of the property gcb. -/
def gcb (value : GCB) : RE := other value.node

def ExtendedPictographic : RE := other pictographicNode

/-- What is added to the rule GB9 for extended clusters. -/
def addExtended (extendedGraphemeClusters : Bool) (GCB_Control_CR_LF GCX_9 : RE) :
    Except Fault RE :=
  if extendedGraphemeClusters then do
    let GCX_9a := makeSeq [← makeNegativeLookBehindAssertion GCB_Control_CR_LF,
      ← makeLookAheadAssertion (gcb .SM)]
    let GCX_9b := makeSeq [← makeLookBehindAssertion (gcb .PP),
      ← makeNegativeLookAheadAssertion GCB_Control_CR_LF]
    makeAlt [GCX_9, GCX_9a, GCX_9b]
  else
    .ok GCX_9

def generateGraphemeClusterBoundaryRule (extendedGraphemeClusters : Bool) : Except Fault RE := do
  let GCB_Control_CR_LF ← makeAlt [gcb .Control, gcb .CR, gcb .LF]
  -- Break at the start and end of text.
  let GCB_1 := makeSOT
  let GCB_2 := makeEOT
  -- Do not break between a CR and LF.
  let GCB_3 ← between (gcb .CR) (gcb .LF)
  -- Otherwise, break before and after controls.
  let GCB_4 ← makeLookBehindAssertion GCB_Control_CR_LF
  let GCB_5 ← makeLookAheadAssertion GCB_Control_CR_LF
  let GCB_1_5 ← makeAlt [GCB_1, GCB_2, ← makeDiffOf (← makeAlt [GCB_4, GCB_5]) GCB_3]
  -- Do not break Hangul syllable sequences.
  let GCX_6 ← between (gcb .L) (← makeAlt [gcb .L, gcb .V, gcb .LV, gcb .LVT])
  let GCX_7 ← between (← makeAlt [gcb .LV, gcb .V]) (← makeAlt [gcb .V, gcb .T])
  let GCX_8 ← between (← makeAlt [gcb .LVT, gcb .T]) (gcb .T)
  -- Do not break before extenders or zero-width joiners.
  let GCX_9 := makeSeq [← makeNegativeLookBehindAssertion GCB_Control_CR_LF,
    ← makeLookAheadAssertion (← makeAlt [gcb .EX, gcb .ZWJ])]
  let GCX_9 ← addExtended extendedGraphemeClusters GCB_Control_CR_LF GCX_9
  let EmojiSeq :=
    makeSeq [ExtendedPictographic, ← makeRep (gcb .EX) 0 UNBOUNDED_REP, gcb .ZWJ]
  let GCX_11 ← between EmojiSeq ExtendedPictographic
  let odd_RI_seq := makeSeq [← makeNegativeLookBehindAssertion (gcb .RI),
    ← makeRep (makeSeq [gcb .RI, gcb .RI]) 0 UNBOUNDED_REP, gcb .RI]
  let GCX_12_13 ← between odd_RI_seq (gcb .RI)
  let GCX ← makeAlt [GCX_6, GCX_7, GCX_8, GCX_9, GCX_11, GCX_12_13]
  -- Otherwise, break everywhere.
  let GCB_999 ← between any any
  makeAlt [GCB_1_5, ← makeDiffOf GCB_999 GCX]

end Grapheme

section Meaning

/-- What an assertion says at a position. -/
def asserted (kind : Kind) (sense : Sense) (x : Span) (p : ℕ) : Prop :=
  let found := match kind with
    | .LookBehind => ∃ start, x start p
    | .LookAhead => ∃ stop, x p stop
  match sense with
  | .Positive => found
  | .Negative => ¬ found

/-- What is matched in a text from position to position, for the properties that the nodes stand
for. -/
def textMeaning (text : List ℕ) (property : ℕ → ℕ → Prop) : Meaning Span where
  cc _ s := step fun p ↦ ∃ c, text[p]? = some c ∧ c ∈ s
  cc_empty _ := Span.ext fun p q ↦ by simp [step]
  cc_union _ s t := by
    rw [step_sup]
    refine congrArg step (funext fun p ↦ propext ?_)
    simp only [Set.mem_union, and_or_left, exists_or]
  assertion kind sense x := zeroWidth (asserted kind sense x)
  assertion_le _ _ _ := zeroWidth_le_one
  assertion_mul_self _ _ _ := zeroWidth_mul_self
  any := step fun p ↦ p < text.length
  start := zeroWidth fun p ↦ p = 0
  stop := zeroWidth fun p ↦ p = text.length
  other node := step fun p ↦ ∃ c, text[p]? = some c ∧ property node c

end Meaning

section Rules

/-- The first rule that applies says whether there is a break. -/
def firstRule : List (Prop × Prop) → Prop
  | [] => False
  | (applies, breaks) :: rules => applies ∧ breaks ∨ ¬ applies ∧ firstRule rules

variable (text : List ℕ)

/-- The value of a property at a position. -/
def valueAt {V : Type*} (value : ℕ → V) (p : ℕ) : Option V := text[p]?.map value

def valueBefore {V : Type*} (value : ℕ → V) (p : ℕ) : Option V :=
  if p = 0 then none else valueAt text value (p - 1)

variable (value : ℕ → GCB) (pictographic : ℕ → Prop)

/-- What the nodes stand for. -/
def gcbProperty (node c : ℕ) : Prop :=
  if node = pictographicNode then pictographic c else (value c).node = node

def pictographicAt (p : ℕ) : Prop := ∃ c, text[p]? = some c ∧ pictographic c

def IsControl (v : Option GCB) : Prop := v = some .Control ∨ v = some .CR ∨ v = some .LF

/-- A pictograph, any number of extenders and a joiner are before a position. -/
def emojiBefore (p : ℕ) : Prop :=
  ∃ start, start + 2 ≤ p ∧ pictographicAt text pictographic start ∧
    (∀ i, start < i → i + 1 < p → valueAt text value i = some .EX) ∧
    valueAt text value (p - 1) = some .ZWJ

/-- An odd number of regional indicators is before a position, and not one more. -/
def oddIndicatorsBefore {V : Type*} (value : ℕ → V) (RI : V) (p : ℕ) : Prop :=
  ∃ n, 2 * n + 1 ≤ p ∧ (∀ i, p ≤ i + (2 * n + 1) → i < p → valueAt text value i = some RI) ∧
    valueBefore text value (p - (2 * n + 1)) ≠ some RI

/-- The rules GB1 to GB999 at a position. -/
def graphemeRules (extended : Bool) (p : ℕ) : List (Prop × Prop) :=
  let before := valueBefore text value p
  let after := valueAt text value p
  [(p = 0 ∧ after ≠ none, True),
   (before ≠ none ∧ after = none, True),
   (before = some .CR ∧ after = some .LF, False),
   (IsControl before, True),
   (IsControl after, True),
   (before = some .L ∧ (after = some .L ∨ after = some .V ∨ after = some .LV ∨ after = some .LVT),
     False),
   ((before = some .LV ∨ before = some .V) ∧ (after = some .V ∨ after = some .T), False),
   ((before = some .LVT ∨ before = some .T) ∧ after = some .T, False),
   (after = some .EX ∨ after = some .ZWJ, False),
   (extended ∧ after = some .SM, False),
   (extended ∧ before = some .PP, False),
   (emojiBefore text value pictographic p ∧ pictographicAt text pictographic p, False),
   (oddIndicatorsBefore text value .RI p ∧ after = some .RI, False),
   (before ≠ none ∧ after ≠ none, True)]

def graphemeBreak (extended : Bool) (p : ℕ) : Prop :=
  firstRule (graphemeRules text value pictographic extended p)

end Rules

end Parabix.RE.Boundaries
