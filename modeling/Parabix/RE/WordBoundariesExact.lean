import Mathlib.Data.List.TakeWhile
import Parabix.RE.BoundariesExact
import Parabix.RE.WordBoundaries

namespace Parabix.RE.WordBoundaries

open Library Library.Spans Boundaries

section Tree

def wbs (values : List WB) : RE := alt (values.map wb)

def AHLetter : RE := wbs [.ALetter, .Hebrew_Letter]

def MidLetterQ : RE := wbs [.MidLetter, .MidNumLet, .Single_Quote]

def MidNumQ : RE := wbs [.MidNum, .MidNumLet, .Single_Quote]

/-- The contexts without a break. -/
def wordContexts : List RE :=
  [seq [behind (wb .CR), ahead (wb .LF)],
   seq [behind (wb .ZWJ), ahead ExtendedPictographic],
   seq [behind (wb .WSegSpace), ahead (wb .WSegSpace)],
   seq [behind AHLetter, ahead AHLetter],
   seq [behind AHLetter, ahead (seq [MidLetterQ, AHLetter])],
   seq [behind (seq [AHLetter, MidLetterQ]), ahead AHLetter],
   seq [behind (wb .Hebrew_Letter), ahead (wb .Single_Quote)],
   seq [behind (wb .Hebrew_Letter), ahead (seq [wb .Double_Quote, wb .Hebrew_Letter])],
   seq [behind (seq [wb .Hebrew_Letter, wb .Double_Quote]), ahead (wb .Hebrew_Letter)],
   seq [behind (wb .Numeric), ahead (wb .Numeric)],
   seq [behind AHLetter, ahead (wb .Numeric)],
   seq [behind (wb .Numeric), ahead AHLetter],
   seq [behind (seq [wb .Numeric, MidNumQ]), ahead (wb .Numeric)],
   seq [behind (wb .Numeric), ahead (seq [MidNumQ, wb .Numeric])],
   seq [behind (wb .Katakana), ahead (wb .Katakana)],
   seq [behind (wbs [.ALetter, .Hebrew_Letter, .Numeric, .Katakana, .ExtendNumLet]),
     ahead (wb .ExtendNumLet)],
   seq [behind (wb .ExtendNumLet),
     ahead (wbs [.ALetter, .Hebrew_Letter, .Numeric, .Katakana])],
   seq [behind (oddIndicators (wb .RI)), ahead (wb .RI)]]

/-- The breaks of the expression. -/
def wordBreaks : List RE :=
  [start, stop, seq [behind (wb .CR), ahead (wb .LF)], behind (wbs [.CR, .LF, .Newline]),
   ahead (wbs [.CR, .LF, .Newline]), behind (wb .Extend), ahead (wb .Format)]

theorem makeAlt_wordContexts : makeAlt wordContexts = .ok (alt wordContexts) := by
  apply makeAlt_plain
  simp [wordContexts, alternatives, isPlain]

theorem generateWordBoundaryRule_eq : generateWordBoundaryRule =
    .ok (alt (wordBreaks ++ [diff (seq [behind any, ahead any]) (alt wordContexts)])) := by
  have h1 : makeAlt [wb .CR, wb .LF, wb .Newline] = .ok (wbs [.CR, .LF, .Newline]) := rfl
  have h2 : makeAlt [behind (wb .Extend), ahead (wb .Format)] =
      .ok (alt [behind (wb .Extend), ahead (wb .Format)]) := rfl
  have h3 : makeAlt [wb .ALetter, wb .Hebrew_Letter] = .ok AHLetter := rfl
  have h4 : makeAlt [wb .MidNumLet, wb .Single_Quote] =
      .ok (wbs [.MidNumLet, .Single_Quote]) := rfl
  have h5 : makeAlt [wb .MidLetter, wbs [.MidNumLet, .Single_Quote]] = .ok MidLetterQ := rfl
  have h6 : makeAlt [wb .MidNum, wbs [.MidNumLet, .Single_Quote]] = .ok MidNumQ := rfl
  have h7 : makeAlt [AHLetter, wb .Numeric, wb .Katakana, wb .ExtendNumLet] =
      .ok (wbs [.ALetter, .Hebrew_Letter, .Numeric, .Katakana, .ExtendNumLet]) := rfl
  have h8 : makeAlt [AHLetter, wb .Numeric, wb .Katakana] =
      .ok (wbs [.ALetter, .Hebrew_Letter, .Numeric, .Katakana]) := rfl
  have h9 : makeRep (makeSeq [wb .RI, wb .RI]) 0 UNBOUNDED_REP =
      .ok (rep (seq [wb .RI, wb .RI]) 0 UNBOUNDED_REP) := rfl
  have hall : makeAlt [start, stop, seq [behind (wb .CR), ahead (wb .LF)],
      behind (wbs [.CR, .LF, .Newline]), ahead (wbs [.CR, .LF, .Newline]),
      alt [behind (wb .Extend), ahead (wb .Format)]] = .ok (alt wordBreaks) := by
    refine (makeAlt_plain ?_).trans rfl
    simp [alternatives, isPlain, behind, ahead]
  unfold generateWordBoundaryRule
  refine bind_ok h1 ?_
  refine bind_ok (between_ok rfl rfl rfl rfl) ?_
  iterate 2 refine bind_ok (makeAssertion_ok rfl rfl) ?_
  iterate 2 refine bind_ok (between_ok rfl rfl rfl rfl) ?_
  iterate 2 refine bind_ok (makeAssertion_ok rfl rfl) ?_
  refine bind_ok h2 ?_
  refine bind_ok h3 ?_
  refine bind_ok (between_ok rfl rfl rfl rfl) ?_
  refine bind_ok h4 ?_
  refine bind_ok h5 ?_
  iterate 8 refine bind_ok (between_ok rfl rfl rfl rfl) ?_
  refine bind_ok h6 ?_
  iterate 3 refine bind_ok (between_ok rfl rfl rfl rfl) ?_
  refine bind_ok h7 ?_
  refine bind_ok (between_ok rfl rfl rfl rfl) ?_
  refine bind_ok h8 ?_
  refine bind_ok (between_ok rfl rfl rfl rfl) ?_
  refine bind_ok (makeAssertion_ok rfl rfl) ?_
  refine bind_ok h9 ?_
  refine bind_ok (between_ok rfl rfl rfl rfl) ?_
  refine bind_ok hall ?_
  refine bind_ok makeAlt_wordContexts ?_
  refine bind_ok (between_ok rfl rfl rfl rfl) ?_
  refine bind_ok makeDiffOf_eq ?_
  refine (makeAlt_plain ?_).trans rfl
  simp [wordBreaks, alternatives, isPlain, behind, ahead]

end Tree

section Context

variable {text : List ℕ} {value : ℕ → WB} {pictographic : ℕ → Prop} {v : WB} {vs : List WB}
variable {r r' : RE} {kind kind' : WB → Bool} {p i : ℕ}

/-- What the nodes of the properties match in a text. -/
abbrev wordMeaning (text : List ℕ) (value : ℕ → WB) (pictographic : ℕ → Prop) : Meaning Span :=
  textMeaning text (wbProperty value pictographic)

theorem wbProperty_iff {c : ℕ} : wbProperty value pictographic v.node c ↔ value c = v := by
  have hnode : v.node ≠ pictographicNode := by cases v <;> decide
  rw [wbProperty, if_neg hnode]
  constructor
  · generalize value c = w
    cases v <;> cases w <;> simp [WB.node]
  · intro h
    rw [h]

theorem getElem?_valuesBefore (hp : p ≤ text.length) (hi : i < p) :
    (valuesBefore text value p)[i]? = valueAt text value (p - 1 - i) := by
  have hlen : ((text.take p).map value).length = p := by simp [hp]
  rw [valuesBefore, List.getElem?_reverse (by omega), hlen, List.getElem?_map,
    List.getElem?_take_of_lt (by omega), valueAt]

theorem valuesBefore_zero : valuesBefore text value 0 = [] := by simp [valuesBefore]

theorem valuesBefore_eq_nil (hp : p ≤ text.length) : valuesBefore text value p = [] ↔ p = 0 := by
  have hlen : (valuesBefore text value p).length = p := by simp [valuesBefore, hp]
  rw [← List.length_eq_zero_iff, hlen]

theorem getElem?_valuesAfter : (valuesAfter text value p)[i]? = valueAt text value (p + i) := by
  simp [valuesAfter, valueAt]

theorem valuesAfter_eq_nil (hp : p ≤ text.length) :
    valuesAfter text value p = [] ↔ p = text.length := by
  simp [valuesAfter]
  omega

/-- An expression matches one character, of a kind. -/
def IsClass (text : List ℕ) (value : ℕ → WB) (pictographic : ℕ → Prop) (r : RE)
    (kind : WB → Bool) : Prop :=
  denote (wordMeaning text value pictographic) r =
    step fun p ↦ ∃ v ∈ valueAt text value p, kind v

theorem isClass_wb : IsClass text value pictographic (wb v) (· = v) := by
  refine (denote_value fun _ ↦ wbProperty_iff).trans (congrArg step (funext fun p ↦ propext ?_))
  simp

theorem isClass_wbs (h : ∀ v, v ∈ vs ↔ kind v) :
    IsClass text value pictographic (wbs vs) kind := by
  refine (denote_values fun _ _ ↦ wbProperty_iff).trans
    (congrArg step (funext fun p ↦ propext ?_))
  simp only [h, Option.mem_def, and_comm]

theorem first_valuesBefore (hp : p ≤ text.length) :
    first kind (valuesBefore text value p) ↔
      p ≠ 0 ∧ ∃ v ∈ valueAt text value (p - 1), kind v := by
  by_cases h0 : p = 0
  · simp [h0, first, valuesBefore_zero]
  · simp [first, getElem?_valuesBefore hp (Nat.pos_of_ne_zero h0), h0]

theorem second_valuesBefore (hp : p ≤ text.length) :
    second kind (valuesBefore text value p) ↔
      2 ≤ p ∧ ∃ v ∈ valueAt text value (p - 2), kind v := by
  by_cases h2 : 2 ≤ p
  · have hget : (valuesBefore text value p)[1]? = valueAt text value (p - 1 - 1) :=
      getElem?_valuesBefore hp h2
    simp [second, hget, h2, Nat.sub_sub]
  · have hlen : (valuesBefore text value p).length ≤ 1 := by
      simp [valuesBefore]
      omega
    simp [second, h2, List.getElem?_eq_none hlen]

theorem behind_class (hp : p ≤ text.length) (h : IsClass text value pictographic r kind) :
    asserted .LookBehind .Positive (denote (wordMeaning text value pictographic) r) p ↔
      first kind (valuesBefore text value p) := by
  rw [h, behind_step, first_valuesBefore hp]

theorem ahead_class (h : IsClass text value pictographic r kind) :
    asserted .LookAhead .Positive (denote (wordMeaning text value pictographic) r) p ↔
      first kind (valuesAfter text value p) := by
  rw [h, ahead_step, first, getElem?_valuesAfter, Nat.add_zero]

theorem denote_seq_pair (h : IsClass text value pictographic r kind)
    (h' : IsClass text value pictographic r' kind') :
    denote (wordMeaning text value pictographic) (seq [r, r']) =
      (step fun p ↦ ∃ v ∈ valueAt text value p, kind v) *
        step fun p ↦ ∃ v ∈ valueAt text value p, kind' v := by
  have hr : denote (wordMeaning text value pictographic) r = _ := h
  have hr' : denote (wordMeaning text value pictographic) r' = _ := h'
  simp only [denote, denoteSeq, mul_one, hr, hr']

theorem behind_classes (hp : p ≤ text.length) (h : IsClass text value pictographic r kind)
    (h' : IsClass text value pictographic r' kind') :
    asserted .LookBehind .Positive
        (denote (wordMeaning text value pictographic) (seq [r, r'])) p ↔
      second kind (valuesBefore text value p) ∧ first kind' (valuesBefore text value p) := by
  rw [denote_seq_pair h h', behind_pair, second_valuesBefore hp, first_valuesBefore hp]
  constructor
  · intro h
    exact ⟨⟨h.1, h.2.1⟩, by omega, h.2.2⟩
  · intro h
    exact ⟨h.1.1, h.1.2, h.2.2⟩

theorem ahead_classes (h : IsClass text value pictographic r kind)
    (h' : IsClass text value pictographic r' kind') :
    asserted .LookAhead .Positive
        (denote (wordMeaning text value pictographic) (seq [r, r'])) p ↔
      first kind (valuesAfter text value p) ∧ second kind' (valuesAfter text value p) := by
  rw [denote_seq_pair h h', ahead_pair]
  simp only [first, second, getElem?_valuesAfter, Nat.add_zero]

/-- The value before a position comes first. -/
theorem valuesBefore_succ (hp : p < text.length) :
    valuesBefore text value (p + 1) = value text[p] :: valuesBefore text value p := by
  rw [valuesBefore, List.take_add_one, List.getElem?_eq_getElem hp, Option.toList_some,
    List.map_append, List.reverse_append]
  rfl

theorem oddIndicatorsFirst_cons {values : List WB} :
    oddIndicatorsFirst (v :: values) ↔ v = .RI ∧ ¬ oddIndicatorsFirst values := by
  by_cases hv : v = .RI
  · simp [oddIndicatorsFirst, hv]
    omega
  · simp [oddIndicatorsFirst, hv]

/-- How many regional indicators are before a position. -/
theorem exists_run (value : ℕ → WB) (hp : p ≤ text.length) :
    ∃ n ≤ p, (∀ i, p ≤ i + n → i < p → valueAt text value i = some .RI) ∧
      valueBefore text value (p - n) ≠ some .RI ∧
      (oddIndicatorsFirst (valuesBefore text value p) ↔ n % 2 = 1) := by
  induction p with
  | zero =>
    refine ⟨0, Nat.le_refl 0, fun i _ h ↦ absurd h (by omega), by simp [valueBefore], ?_⟩
    simp [valuesBefore_zero, oddIndicatorsFirst]
  | succ p ih =>
    obtain ⟨n, hn, hall, hbefore, hodd⟩ := ih (by omega)
    have hvalue : valueAt text value p = some (value text[p]) := by
      simp [valueAt, show p < text.length by omega]
    rw [valuesBefore_succ (by omega), oddIndicatorsFirst_cons, hodd]
    by_cases hRI : value text[p] = .RI
    · refine ⟨n + 1, by omega, fun i h1 h2 ↦ ?_, ?_, ?_⟩
      · by_cases hi : i = p
        · rw [hi, hvalue, hRI]
        · exact hall i (by omega) (by omega)
      · rwa [Nat.add_sub_add_right]
      · simp only [hRI, true_and]
        omega
    · refine ⟨0, by omega, fun i h1 h2 ↦ absurd h1 (by omega), ?_, ?_⟩
      · simpa [valueBefore, hvalue] using hRI
      · simp [hRI]

theorem oddIndicatorsBefore_iff (hp : p ≤ text.length) :
    oddIndicatorsBefore text value .RI p ↔ oddIndicatorsFirst (valuesBefore text value p) := by
  obtain ⟨n, hn, hall, hbefore, hodd⟩ := exists_run value hp
  rw [hodd]
  constructor
  · intro h
    obtain ⟨m, hm, hall', hbefore'⟩ := h
    -- Of two runs neither is longer, for a run ends before another value.
    have hvalueBefore (k : ℕ) (hk : k < p) : valueBefore text value (p - k) =
        valueAt text value (p - k - 1) := if_neg (by omega)
    have hle : ¬ n < 2 * m + 1 := fun hlt ↦
      hbefore ((hvalueBefore n (by omega)).trans (hall' _ (by omega) (by omega)))
    have hge : ¬ 2 * m + 1 < n := fun hlt ↦
      hbefore' ((hvalueBefore _ (by omega)).trans (hall _ (by omega) (by omega)))
    omega
  · intro h
    have hn2 : 2 * (n / 2) + 1 = n := by omega
    exact ⟨n / 2, by omega, fun i h1 h2 ↦ hall i (by omega) h2, by rwa [hn2]⟩

end Context

section Rules

variable {text : List ℕ} {value : ℕ → WB} {pictographic : ℕ → Prop} {p : ℕ}
variable {before after : List WB} {kind kind' : WB → Bool} {v : WB} {values : List WB}

/-- One of the rules WB5 to WB16 applies. -/
def Joined (before after : List WB) : Prop := ∃ context ∈ joinContexts before after, context

theorem isClass_AHLetter : IsClass text value pictographic AHLetter isAHLetter :=
  isClass_wbs fun v ↦ by cases v <;> decide

theorem isClass_MidLetterQ : IsClass text value pictographic MidLetterQ isMidLetterQ :=
  isClass_wbs fun v ↦ by cases v <;> decide

theorem isClass_MidNumQ : IsClass text value pictographic MidNumQ isMidNumQ :=
  isClass_wbs fun v ↦ by cases v <;> decide

theorem isClass_newline : IsClass text value pictographic (wbs [.CR, .LF, .Newline]) isNewline :=
  isClass_wbs fun v ↦ by cases v <;> decide

theorem ahead_pictographic :
    asserted .LookAhead .Positive
        (denote (wordMeaning text value pictographic) ExtendedPictographic) p ↔
      pictographicAt text pictographic p := by
  apply Iff.trans ahead_step
  simp [wbProperty, pictographicAt]

theorem wordContexts_iff (hp : p ≤ text.length) :
    denote (wordMeaning text value pictographic) (alt wordContexts) p p ↔
      (first (· = .CR) (valuesBefore text value p) ∧ first (· = .LF) (valuesAfter text value p)) ∨
      (first (· = .ZWJ) (valuesBefore text value p) ∧ pictographicAt text pictographic p) ∨
      (first (· = .WSegSpace) (valuesBefore text value p) ∧
        first (· = .WSegSpace) (valuesAfter text value p)) ∨
      Joined (valuesBefore text value p) (valuesAfter text value p) := by
  have hodd : asserted .LookBehind .Positive
      (denote (wordMeaning text value pictographic) (oddIndicators (wb .RI))) p ↔
        oddIndicatorsFirst (valuesBefore text value p) :=
    (behind_oddIndicators (denote_value fun _ ↦ wbProperty_iff)).trans (oddIndicatorsBefore_iff hp)
  have hbehind (v : WB) : asserted .LookBehind .Positive
      (denote (wordMeaning text value pictographic) (wb v)) p ↔
        first (· = v) (valuesBefore text value p) := behind_class hp isClass_wb
  have hahead (v : WB) : asserted .LookAhead .Positive
      (denote (wordMeaning text value pictographic) (wb v)) p ↔
        first (· = v) (valuesAfter text value p) := ahead_class isClass_wb
  have hletter : IsClass text value pictographic
      (wbs [.ALetter, .Hebrew_Letter, .Numeric, .Katakana]) fun v ↦
        isAHLetter v || v = .Numeric || v = .Katakana :=
    isClass_wbs fun v ↦ by cases v <;> decide
  have hletter' : IsClass text value pictographic
      (wbs [.ALetter, .Hebrew_Letter, .Numeric, .Katakana, .ExtendNumLet]) fun v ↦
        isAHLetter v || v = .Numeric || v = .Katakana || v = .ExtendNumLet :=
    isClass_wbs fun v ↦ by cases v <;> decide
  simp only [wordContexts, denote_alt_cons, denote_alt_nil, or_false, behind, ahead,
    denote_assertions, Joined, joinContexts, List.mem_cons, List.not_mem_nil, exists_eq_or_imp,
    exists_eq_left, hodd, hbehind, hahead, ahead_pictographic, behind_class hp isClass_AHLetter,
    ahead_class isClass_AHLetter, behind_class hp hletter', ahead_class hletter,
    ahead_classes isClass_MidLetterQ isClass_AHLetter, ahead_classes isClass_MidNumQ isClass_wb,
    ahead_classes isClass_wb isClass_wb, behind_classes hp isClass_AHLetter isClass_MidLetterQ,
    behind_classes hp isClass_wb isClass_MidNumQ, behind_classes hp isClass_wb isClass_wb,
    and_assoc]

theorem denote_wordTree (hp : p ≤ text.length) :
    denote (wordMeaning text value pictographic)
        (alt (wordBreaks ++ [diff (seq [behind any, ahead any]) (alt wordContexts)])) p p ↔
      p = 0 ∨ p = text.length ∨
      (first (· = .CR) (valuesBefore text value p) ∧ first (· = .LF) (valuesAfter text value p)) ∨
      first isNewline (valuesBefore text value p) ∨ first isNewline (valuesAfter text value p) ∨
      first (· = .Extend) (valuesBefore text value p) ∨
      first (· = .Format) (valuesAfter text value p) ∨
      (p ≠ 0 ∧ p ≠ text.length) ∧
        ¬ denote (wordMeaning text value pictographic) (alt wordContexts) p p := by
  have hstart : denote (wordMeaning text value pictographic) start p p ↔ p = 0 := by
    simp [denote, textMeaning]
  have hstop : denote (wordMeaning text value pictographic) stop p p ↔ p = text.length := by
    simp [denote, textMeaning]
  generalize alt wordContexts = contexts
  simp only [wordBreaks, List.cons_append, List.nil_append, denote_alt_cons, denote_alt_nil,
    or_false, denote_diff, hstart, hstop, behind, ahead, denote_assertion, denote_assertions,
    behind_class hp isClass_newline, ahead_class isClass_newline, behind_class hp isClass_wb,
    ahead_class isClass_wb, behind_any hp, ahead_any hp]

theorem first_nil : ¬ first kind [] := by simp [first]

theorem first_cons : first kind (v :: values) ↔ kind v := by simp [first]

theorem not_joined_of_before (h : isIgnored v ∨ v = .WSegSpace) : ¬ Joined (v :: values) after := by
  cases v <;>
    simp_all [isIgnored, Joined, joinContexts, first_cons, isAHLetter, isMidLetterQ, isMidNumQ,
      isMidNumLetQ, oddIndicatorsFirst]

theorem not_joined_of_after (h : isIgnored v ∨ v = .WSegSpace) :
    ¬ Joined before (v :: values) := by
  cases v <;>
    simp_all [isIgnored, Joined, joinContexts, first_cons, isAHLetter, isMidLetterQ, isMidNumQ,
      isMidNumLetQ]

theorem significant_cons (h : ¬ isIgnored v) :
    significant (v :: values) = v :: significant values := by
  simp [significant, h]

/-- The characters of the rule WB4 that are near a position are not in the way of the rules after
it: no break is put before one or behind one, and where there is none the rules WB5 to WB16 apply
to the characters as they stand as they do with the others left out. -/
def Unhindered (text : List ℕ) (value : ℕ → WB) (pictographic : ℕ → Prop) (p : ℕ) : Prop :=
  let before := valuesBefore text value p
  let after := valuesAfter text value p
  before = [] ∨ after = [] ∨ first isNewline before ∨ first isNewline after ∨
  (first isIgnored after ∧ first (· = .ZWJ) before ∧ ¬ first (· = .Format) after ∧
    pictographicAt text pictographic p) ∨
  (¬ first isIgnored after ∧ first isIgnored before ∧
    (first (· = .ZWJ) before ∧ pictographicAt text pictographic p ∨
      ¬ Joined (significant before) (significant after))) ∨
  (¬ first isIgnored after ∧ ¬ first isIgnored before ∧
    (Joined before after ↔ Joined (significant before) (significant after)))

/-- The break of the expression and the break of the rules, between two characters. -/
theorem interior_exact (b a : WB) (bs as : List WB) (pictograph : Prop) :
    ((b = .CR ∧ a = .LF ∨ isNewline b ∨ isNewline a ∨ b = .Extend ∨ a = .Format ∨
        ¬ (b = .CR ∧ a = .LF ∨ b = .ZWJ ∧ pictograph ∨ b = .WSegSpace ∧ a = .WSegSpace ∨
          Joined (b :: bs) (a :: as))) ↔
      ¬ (b = .CR ∧ a = .LF) ∧
        (isNewline b ∨ ¬ isNewline b ∧ (isNewline a ∨ ¬ isNewline a ∧
          ¬ (b = .ZWJ ∧ pictograph) ∧ ¬ (b = .WSegSpace ∧ a = .WSegSpace) ∧ ¬ isIgnored a ∧
            ¬ Joined (significant (b :: bs)) (significant (a :: as))))) ↔
    ¬ (b = .CR ∧ a = .LF) ∧
      (isNewline b ∨ isNewline a ∨ isIgnored a ∧ b = .ZWJ ∧ ¬ a = .Format ∧ pictograph ∨
        ¬ isIgnored a ∧ isIgnored b ∧ (b = .ZWJ ∧ pictograph ∨
          ¬ Joined (significant (b :: bs)) (significant (a :: as))) ∨
        ¬ isIgnored a ∧ ¬ isIgnored b ∧ (Joined (b :: bs) (a :: as) ↔
          Joined (significant (b :: bs)) (significant (a :: as)))) := by
  by_cases hcrlf : b = .CR ∧ a = .LF
  · simp [hcrlf]
  by_cases hb : isNewline b
  · simp [hcrlf, hb]
  by_cases ha : isNewline a
  · simp [hcrlf, ha]
  simp only [hcrlf, hb, ha, Bool.false_eq_true, false_or, not_false_eq_true, true_and]
  have hspace : b = .WSegSpace ∧ a = .WSegSpace → ¬ Joined (b :: bs) (a :: as) ∧
      ¬ Joined (significant (b :: bs)) (significant (a :: as)) := by
    rintro ⟨rfl, rfl⟩
    exact ⟨not_joined_of_before (.inr rfl),
      by rw [significant_cons (by decide)]; exact not_joined_of_before (.inr rfl)⟩
  by_cases hia : isIgnored a
  · have hjoin : ¬ Joined (b :: bs) (a :: as) := not_joined_of_after (.inl hia)
    have hne : a ≠ .WSegSpace := by
      rintro rfl
      cases hia
    have hexcl : b = .ZWJ → b ≠ .Extend := by
      rintro rfl
      decide
    simp only [hia, hjoin, hne, not_true_eq_false, false_and, and_false, or_false, iff_false]
    simp only [not_or, not_not]
    constructor
    · rintro ⟨-, hformat, hZWJ, hpict⟩
      exact ⟨trivial, hZWJ, hformat, hpict⟩
    · rintro ⟨-, hZWJ, hformat, hpict⟩
      exact ⟨hexcl hZWJ, hformat, hZWJ, hpict⟩
  · have hne : a ≠ .Format := by
      rintro rfl
      exact hia rfl
    by_cases hib : isIgnored b
    · have hjoin : ¬ Joined (b :: bs) (a :: as) := not_joined_of_before (.inl hib)
      have hneb : b ≠ .WSegSpace := by
        rintro rfl
        cases hib
      have hexcl : b = .ZWJ → b ≠ .Extend := by
        rintro rfl
        decide
      simp only [hia, hib, hjoin, hne, hneb, false_and, false_or, or_false, Bool.false_eq_true,
        not_true_eq_false, not_false_eq_true, true_and]
      by_cases hpict : b = .ZWJ ∧ pictograph
      · simp only [eq_true hpict, hexcl hpict.1, not_true_eq_false, false_and, or_false, true_or]
      · simp only [hpict, not_false_eq_true, or_true, true_and, false_or, true_iff]
    · have hneb : b ≠ .ZWJ ∧ b ≠ .Extend := by
        constructor <;> rintro rfl <;> exact hib rfl
      simp only [hia, hib, hne, hneb.1, hneb.2, false_and, false_or, Bool.false_eq_true,
        not_false_eq_true, true_and]
      by_cases hboth : b = .WSegSpace ∧ a = .WSegSpace
      · obtain ⟨hbare, hrest⟩ := hspace hboth
        simp only [eq_true hboth, hbare, hrest, true_or, not_true_eq_false, false_and]
      · simp only [hboth, false_or, not_false_eq_true, true_and, not_iff_not]

/-- Where the expression matches, the rules break, but for the breaks that it puts between a CR and
an LF and at a character that the rule WB4 leaves out, for the rules that it does not apply across
such a character, and for the only position of an empty text. -/
theorem generateWordBoundaryRule_exact (text : List ℕ) (value : ℕ → WB)
    (pictographic : ℕ → Prop) :
    ∃ r, generateWordBoundaryRule = .ok r ∧ ∀ p ≤ text.length,
      ((denote (textMeaning text (wbProperty value pictographic)) r p p ↔
          wordBreak text value pictographic p) ↔
        text ≠ [] ∧
          ¬ (first (· = .CR) (valuesBefore text value p) ∧
            first (· = .LF) (valuesAfter text value p)) ∧
          Unhindered text value pictographic p) := by
  refine ⟨_, generateWordBoundaryRule_eq, fun p hp ↦ ?_⟩
  have hbefore : valuesBefore text value p = [] ↔ p = 0 := valuesBefore_eq_nil hp
  have hafter : valuesAfter text value p = [] ↔ p = text.length := valuesAfter_eq_nil hp
  have hzero : valuesBefore text value p = [] ∧ valuesAfter text value p = [] ↔ text = [] := by
    rw [hbefore, hafter, ← List.length_eq_zero_iff]
    omega
  rw [denote_wordTree hp, wordContexts_iff hp, wordBreak, wordRules, Unhindered]
  simp only [← hbefore, ← hafter, ne_eq]
  generalize valuesBefore text value p = before at *
  generalize valuesAfter text value p = after at *
  cases before with
  | nil =>
    cases after with
    | nil => simp [firstRule, first, joinContexts, ← hzero]
    | cons a as => simp [firstRule, ← hzero, first_nil]
  | cons b bs =>
    cases after with
    | nil => simp [firstRule, ← hzero, first_nil]
    | cons a as =>
      have htext : text ≠ [] := by simp [← hzero]
      have hsame := interior_exact b a bs as (pictographicAt text pictographic p)
      simpa only [List.cons_append, List.nil_append, firstRule, firstRule_no_breaks, first_cons,
        htext, reduceCtorEq, and_false, false_or, not_false_eq_true, true_and, ne_eq, and_true,
        or_false, not_true_eq_false, decide_eq_true_eq, Joined] using hsame

/-- The classes of CR, LF, a combining mark and the small letters. -/
def sampleValue (c : ℕ) : WB :=
  if c = 13 then .CR else if c = 10 then .LF else if c = 0x301 then .Extend
  else if 97 ≤ c ∧ c ≤ 122 then .ALetter else .XX

theorem generateWordBoundaryRule_exact_letters :
    ∃ r, generateWordBoundaryRule = .ok r ∧
      ((denote (textMeaning [97, 98] (wbProperty sampleValue fun _ ↦ False)) r 1 1 ↔
          wordBreak [97, 98] sampleValue (fun _ ↦ False) 1) ↔
        [97, 98] ≠ ([] : List ℕ) ∧
          ¬ (first (· = .CR) (valuesBefore [97, 98] sampleValue 1) ∧
            first (· = .LF) (valuesAfter [97, 98] sampleValue 1)) ∧
          Unhindered [97, 98] sampleValue (fun _ ↦ False) 1) := by
  obtain ⟨r, hr, hall⟩ := generateWordBoundaryRule_exact [97, 98] sampleValue (fun _ ↦ False)
  exact ⟨r, hr, hall 1 (by simp)⟩

/-- There are breaks between a CR and an LF, and between a letter and a mark on it. -/
theorem generateWordBoundaryRule_breaks :
    ∃ r, generateWordBoundaryRule = .ok r ∧
      (denote (textMeaning [13, 10] (wbProperty sampleValue fun _ ↦ False)) r 1 1 ∧
        ¬ wordBreak [13, 10] sampleValue (fun _ ↦ False) 1) ∧
      denote (textMeaning [97, 0x301] (wbProperty sampleValue fun _ ↦ False)) r 1 1 ∧
        ¬ wordBreak [97, 0x301] sampleValue (fun _ ↦ False) 1 := by
  have hnewline : valuesBefore [13, 10] sampleValue 1 = [.CR] ∧
      valuesAfter [13, 10] sampleValue 1 = [.LF] := by decide
  have hmark : valuesBefore [97, 0x301] sampleValue 1 = [.ALetter] ∧
      valuesAfter [97, 0x301] sampleValue 1 = [.Extend] := by decide
  refine ⟨_, generateWordBoundaryRule_eq, ⟨?_, ?_⟩, ?_, ?_⟩
  · apply (denote_wordTree (by simp)).2
    simp [hnewline, first_cons]
  · simp [wordBreak, wordRules, hnewline, first_cons, firstRule]
  · apply (denote_wordTree (by simp)).2
    rw [wordContexts_iff (by simp), hmark.1, hmark.2]
    have hjoin : ¬ Joined [.ALetter] [.Extend] := not_joined_of_after (.inl rfl)
    simp [first_cons, hjoin]
  · simp [wordBreak, wordRules, hmark, first_cons, firstRule, isNewline, isIgnored,
      firstRule_no_breaks]

end Rules

end Parabix.RE.WordBoundaries
