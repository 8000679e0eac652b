import Parabix.RE.Boundaries

namespace Parabix.RE.WordBoundaries

open Library Boundaries

section Expression

/-- The values of the property Word_Break. -/
inductive WB where
  | CR
  | LF
  | Newline
  | Extend
  | ZWJ
  | Format
  | Katakana
  | Hebrew_Letter
  | ALetter
  | MidLetter
  | MidNum
  | MidNumLet
  | Numeric
  | ExtendNumLet
  | RI
  | WSegSpace
  | Single_Quote
  | Double_Quote
  | XX
deriving DecidableEq, Repr

def WB.node : WB → ℕ
  | CR => 0
  | LF => 1
  | Newline => 2
  | Extend => 3
  | ZWJ => 4
  | Format => 5
  | Katakana => 6
  | Hebrew_Letter => 7
  | ALetter => 8
  | MidLetter => 9
  | MidNum => 10
  | MidNumLet => 11
  | Numeric => 12
  | ExtendNumLet => 13
  | RI => 14
  | WSegSpace => 15
  | Single_Quote => 16
  | Double_Quote => 17
  | XX => 18

def pictographicNode : ℕ := 19

/-- `makePropertyExpression` for a value of the property wb. -/
def wb (value : WB) : RE := other value.node

def ExtendedPictographic : RE := other pictographicNode

def generateWordBoundaryRule : Except Fault RE := do
  let WB_1 := makeSOT
  let WB_2 := makeEOT
  -- Combine CR, LF, and Newline for breaking rules.
  let WB_CRLFNewline ← makeAlt [wb .CR, wb .LF, wb .Newline]
  let WBX_3 ← between (wb .CR) (wb .LF)
  let WB_3a ← makeLookBehindAssertion WB_CRLFNewline
  let WB_3b ← makeLookAheadAssertion WB_CRLFNewline
  let WBX_3c ← between (wb .ZWJ) ExtendedPictographic
  let WBX_3d ← between (wb .WSegSpace) (wb .WSegSpace)
  -- Ignore Format and Extend characters.
  let WB_4 ← makeAlt [← makeLookBehindAssertion (wb .Extend),
    ← makeLookAheadAssertion (wb .Format)]
  let WB_AHLetter ← makeAlt [wb .ALetter, wb .Hebrew_Letter]
  let WBX_5 ← between WB_AHLetter WB_AHLetter
  let WB_MidNumLetQ ← makeAlt [wb .MidNumLet, wb .Single_Quote]
  let MidLetter_MidNumLetQ ← makeAlt [wb .MidLetter, WB_MidNumLetQ]
  let WBX_6 ← between WB_AHLetter (makeSeq [MidLetter_MidNumLetQ, WB_AHLetter])
  let WBX_7 ← between (makeSeq [WB_AHLetter, MidLetter_MidNumLetQ]) WB_AHLetter
  let WB_7a ← between (wb .Hebrew_Letter) (wb .Single_Quote)
  let WB_7b ← between (wb .Hebrew_Letter) (makeSeq [wb .Double_Quote, wb .Hebrew_Letter])
  let WB_7c ← between (makeSeq [wb .Hebrew_Letter, wb .Double_Quote]) (wb .Hebrew_Letter)
  let WBX_8 ← between (wb .Numeric) (wb .Numeric)
  let WBX_9 ← between WB_AHLetter (wb .Numeric)
  let WBX_10 ← between (wb .Numeric) WB_AHLetter
  let MidNum_MidNumLetQ ← makeAlt [wb .MidNum, WB_MidNumLetQ]
  let WBX_11 ← between (makeSeq [wb .Numeric, MidNum_MidNumLetQ]) (wb .Numeric)
  let WBX_12 ← between (wb .Numeric) (makeSeq [MidNum_MidNumLetQ, wb .Numeric])
  let WBX_13 ← between (wb .Katakana) (wb .Katakana)
  let WB_ALetNumKat ← makeAlt [WB_AHLetter, wb .Numeric, wb .Katakana, wb .ExtendNumLet]
  let WBX_13a ← between WB_ALetNumKat (wb .ExtendNumLet)
  let WB_ALetNumKat_1 ← makeAlt [WB_AHLetter, wb .Numeric, wb .Katakana]
  let WBX_13b ← between (wb .ExtendNumLet) WB_ALetNumKat_1
  let odd_RI_seq := makeSeq [← makeNegativeLookBehindAssertion (wb .RI),
    ← makeRep (makeSeq [wb .RI, wb .RI]) 0 UNBOUNDED_REP, wb .RI]
  let WBX_15_16 ← between odd_RI_seq (wb .RI)
  -- Combine breaking rules.
  let WB_all ← makeAlt [WB_1, WB_2, WBX_3, WB_3a, WB_3b, WB_4]
  -- Combine the "do not break" rules.
  let WBX_all ← makeAlt [WBX_3, WBX_3c, WBX_3d, WBX_5, WBX_6, WBX_7, WB_7a, WB_7b, WB_7c, WBX_8,
    WBX_9, WBX_10, WBX_11, WBX_12, WBX_13, WBX_13a, WBX_13b, WBX_15_16]
  let WB_999 ← between any any
  makeAlt [WB_all, ← makeDiffOf WB_999 WBX_all]

end Expression

section Rules

variable (text : List ℕ) (value : ℕ → WB) (pictographic : ℕ → Prop)

def wbProperty (node c : ℕ) : Prop :=
  if node = pictographicNode then pictographic c else (value c).node = node

/-- The values before a position, the nearest one first. -/
def valuesBefore (p : ℕ) : List WB := ((text.take p).map value).reverse

/-- The values from a position on. -/
def valuesAfter (p : ℕ) : List WB := (text.drop p).map value

def isNewline : WB → Bool
  | .CR | .LF | .Newline => true
  | _ => false

def isIgnored : WB → Bool
  | .Extend | .Format | .ZWJ => true
  | _ => false

/-- The values of the rule WB4 are left out. -/
def significant (values : List WB) : List WB := values.filter (! isIgnored ·)

def isAHLetter : WB → Bool
  | .ALetter | .Hebrew_Letter => true
  | _ => false

def isMidNumLetQ : WB → Bool
  | .MidNumLet | .Single_Quote => true
  | _ => false

def isMidLetterQ (v : WB) : Bool := v = .MidLetter || isMidNumLetQ v

def isMidNumQ (v : WB) : Bool := v = .MidNum || isMidNumLetQ v

/-- The first value is of a kind. -/
def first (kind : WB → Bool) (values : List WB) : Prop := ∃ v ∈ values[0]?, kind v

/-- The second value is of a kind. -/
def second (kind : WB → Bool) (values : List WB) : Prop := ∃ v ∈ values[1]?, kind v

def oddIndicatorsFirst (values : List WB) : Prop := (values.takeWhile (· = .RI)).length % 2 = 1

/-- The contexts of the rules WB5 to WB16, which do not break. -/
def joinContexts (before after : List WB) : List Prop :=
  [ -- WB5
   first isAHLetter before ∧ first isAHLetter after,
   -- WB6
   first isAHLetter before ∧ first isMidLetterQ after ∧ second isAHLetter after,
   -- WB7
   second isAHLetter before ∧ first isMidLetterQ before ∧ first isAHLetter after,
   -- WB7a
   first (· = .Hebrew_Letter) before ∧ first (· = .Single_Quote) after,
   -- WB7b
   first (· = .Hebrew_Letter) before ∧ first (· = .Double_Quote) after ∧
     second (· = .Hebrew_Letter) after,
   -- WB7c
   second (· = .Hebrew_Letter) before ∧ first (· = .Double_Quote) before ∧
     first (· = .Hebrew_Letter) after,
   -- WB8
   first (· = .Numeric) before ∧ first (· = .Numeric) after,
   -- WB9
   first isAHLetter before ∧ first (· = .Numeric) after,
   -- WB10
   first (· = .Numeric) before ∧ first isAHLetter after,
   -- WB11
   second (· = .Numeric) before ∧ first isMidNumQ before ∧ first (· = .Numeric) after,
   -- WB12
   first (· = .Numeric) before ∧ first isMidNumQ after ∧ second (· = .Numeric) after,
   -- WB13
   first (· = .Katakana) before ∧ first (· = .Katakana) after,
   -- WB13a
   first (fun v ↦ isAHLetter v || v = .Numeric || v = .Katakana || v = .ExtendNumLet) before ∧
     first (· = .ExtendNumLet) after,
   -- WB13b
   first (· = .ExtendNumLet) before ∧
     first (fun v ↦ isAHLetter v || v = .Numeric || v = .Katakana) after,
   -- WB15 and WB16
   oddIndicatorsFirst before ∧ first (· = .RI) after]

/-- The rules WB1 to WB999 at a position. -/
def wordRules (p : ℕ) : List (Prop × Prop) :=
  let before := valuesBefore text value p
  let after := valuesAfter text value p
  [ -- WB1 and WB2
   (before = [] ∧ after ≠ [], True),
   (before ≠ [] ∧ after = [], True),
   -- WB3
   (first (· = .CR) before ∧ first (· = .LF) after, False),
   -- WB3a and WB3b
   (first isNewline before, True),
   (first isNewline after, True),
   -- WB3c
   (first (· = .ZWJ) before ∧ pictographicAt text pictographic p, False),
   -- WB3d
   (first (· = .WSegSpace) before ∧ first (· = .WSegSpace) after, False),
   -- WB4
   (first isIgnored after, False)] ++
  (joinContexts (significant before) (significant after)).map (·, False) ++
  -- WB999
  [(before ≠ [] ∧ after ≠ [], True)]

def wordBreak (p : ℕ) : Prop := firstRule (wordRules text value pictographic p)

end Rules

end Parabix.RE.WordBoundaries
