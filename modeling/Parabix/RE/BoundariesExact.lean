import Parabix.RE.Boundaries

namespace Parabix.RE.Boundaries

open Library Library.Powers Library.Spans

section Context

variable {text : List ℕ} {property : ℕ → ℕ → Prop} {V : Type*} {value : ℕ → V} {A : ℕ → Prop}
variable {x y : Span} {r e : RE} {elems : List RE} {k : Kind} {s : Sense} {p q n : ℕ}

theorem denote_alt_cons :
    denote (textMeaning text property) (alt (e :: elems)) p q ↔
      denote (textMeaning text property) e p q ∨
        denote (textMeaning text property) (alt elems) p q := by
  simp only [denote, denoteAlt, sup_apply]

theorem denote_alt_nil : denote (textMeaning text property) (alt []) p q ↔ False := by
  simp only [denote, denoteAlt, bot_apply]

theorem denote_diff {lh rh : RE} :
    denote (textMeaning text property) (diff lh rh) p q ↔
      denote (textMeaning text property) lh p q ∧ ¬ denote (textMeaning text property) rh p q := by
  simp only [denote, sdiff_apply]

theorem denote_assertion :
    denote (textMeaning text property) (assertion r k s) p p ↔
      asserted k s (denote (textMeaning text property) r) p := by
  simp only [denote]
  exact zeroWidth_self

/-- Two assertions at one position. -/
theorem denote_assertions {r' : RE} {k' : Kind} {s' : Sense} :
    denote (textMeaning text property) (seq [assertion r k s, assertion r' k' s']) p p ↔
      asserted k s (denote (textMeaning text property) r) p ∧
        asserted k' s' (denote (textMeaning text property) r') p := by
  simp only [denote, denoteSeq, mul_one]
  apply Iff.trans (zeroWidth_mul _)
  apply and_congr_right'
  exact zeroWidth_self

theorem asserted_behind :
    asserted .LookBehind .Positive x p ↔ ∃ start, x start p := Iff.rfl

theorem asserted_notBehind :
    asserted .LookBehind .Negative x p ↔ ¬ asserted .LookBehind .Positive x p := Iff.rfl

theorem asserted_notAhead :
    asserted .LookAhead .Negative x p ↔ ¬ asserted .LookAhead .Positive x p := Iff.rfl

theorem behind_step : asserted .LookBehind .Positive (step A) p ↔ p ≠ 0 ∧ A (p - 1) := by
  constructor
  · intro h
    obtain ⟨start, rfl, hA⟩ := h
    exact ⟨by omega, by simpa using hA⟩
  · intro h
    exact ⟨p - 1, by omega, h.2⟩

theorem ahead_step : asserted .LookAhead .Positive (step A) p ↔ A p := by
  constructor
  · intro h
    obtain ⟨stop, -, hA⟩ := h
    exact hA
  · intro h
    exact ⟨p + 1, rfl, h⟩

theorem behind_valueAt {v : V} :
    asserted .LookBehind .Positive (step fun i ↦ valueAt text value i = some v) p ↔
      valueBefore text value p = some v := by
  rw [behind_step, valueBefore]
  by_cases hp : p = 0 <;> simp [hp]

theorem valueBefore_eq_none (hp : p ≤ text.length) : valueBefore text value p = none ↔ p = 0 := by
  rw [valueBefore]
  by_cases h0 : p = 0
  · simp [h0]
  · simp [h0, valueAt]
    omega

theorem valueAt_eq_none (hp : p ≤ text.length) :
    valueAt text value p = none ↔ p = text.length := by
  simp [valueAt]
  omega

theorem behind_any (hp : p ≤ text.length) :
    asserted .LookBehind .Positive (denote (textMeaning text property) any) p ↔ p ≠ 0 := by
  apply Iff.trans behind_step
  exact and_iff_left_of_imp fun h ↦ by omega

theorem ahead_any (hp : p ≤ text.length) :
    asserted .LookAhead .Positive (denote (textMeaning text property) any) p ↔
      p ≠ text.length := by
  apply Iff.trans ahead_step
  omega

theorem behind_pair {B : ℕ → Prop} :
    asserted .LookBehind .Positive (step A * step B) p ↔ 2 ≤ p ∧ A (p - 2) ∧ B (p - 1) := by
  constructor
  · intro h
    obtain ⟨start, m, ⟨rfl, hA⟩, rfl, hB⟩ := h
    exact ⟨by omega, by simpa using hA, by simpa using hB⟩
  · intro h
    exact ⟨p - 2, p - 1, ⟨by omega, h.2.1⟩, by omega, h.2.2⟩

theorem ahead_pair {B : ℕ → Prop} :
    asserted .LookAhead .Positive (step A * step B) p ↔ A p ∧ B (p + 1) := by
  constructor
  · intro h
    obtain ⟨stop, m, ⟨rfl, hA⟩, rfl, hB⟩ := h
    exact ⟨hA, hB⟩
  · intro h
    exact ⟨p + 2, p + 1, ⟨rfl, h.1⟩, rfl, h.2⟩

section Values

variable {node : V → ℕ} {v : V} {vs : List V}

theorem denote_value (h : ∀ c, property (node v) c ↔ value c = v) :
    denote (textMeaning text property) (other (node v)) =
      step fun p ↦ valueAt text value p = some v := by
  refine congrArg step (funext fun p ↦ propext ?_)
  simp only [h, valueAt, Option.map_eq_some_iff]

theorem denote_values (h : ∀ v c, property (node v) c ↔ value c = v) :
    denote (textMeaning text property) (alt (vs.map fun v ↦ other (node v))) =
      step fun p ↦ ∃ v ∈ vs, valueAt text value p = some v := by
  induction vs with
  | nil =>
    apply Span.ext
    intro p q
    simp [denote, step]
  | cons v vs ih =>
    have hcons : denote (textMeaning text property)
        (alt ((v :: vs).map fun v ↦ other (node v))) =
          denote (textMeaning text property) (other (node v)) ⊔
            denote (textMeaning text property) (alt (vs.map fun v ↦ other (node v))) := by
      simp only [List.map_cons, denote, denoteAlt]
    rw [hcons, denote_value (h v), ih, step_sup]
    refine congrArg step (funext fun p ↦ propext ?_)
    simp only [List.mem_cons, exists_eq_or_imp]

end Values

/-- An odd number of indicators, and not one more before them. -/
theorem behind_oddIndicators {RI : V}
    (hr : denote (textMeaning text property) r = step fun i ↦ valueAt text value i = some RI) :
    asserted .LookBehind .Positive (denote (textMeaning text property)
        (seq [assertion r .LookBehind .Negative, rep (seq [r, r]) 0 UNBOUNDED_REP, r])) p ↔
      oddIndicatorsBefore text value RI p := by
  have hseq : denote (textMeaning text property)
      (seq [assertion r .LookBehind .Negative, rep (seq [r, r]) 0 UNBOUNDED_REP, r]) =
        zeroWidth (asserted .LookBehind .Negative (denote (textMeaning text property) r)) *
          (powers ((step fun i ↦ valueAt text value i = some RI) ^ 2) (counts 0 UNBOUNDED_REP) *
            step fun i ↦ valueAt text value i = some RI) := by
    simp only [denote, denoteSeq, hr, mul_one, pow_two]
    rfl
  have hnot (start : ℕ) : asserted .LookBehind .Negative (denote (textMeaning text property) r)
      start ↔ valueBefore text value start ≠ some RI := by
    rw [asserted_notBehind, hr, behind_valueAt]
  have hrun (start n : ℕ) :
      (((step fun i ↦ valueAt text value i = some RI) ^ 2) ^ n *
        step fun i ↦ valueAt text value i = some RI) start p ↔
      p = start + (2 * n + 1) ∧
        ∀ i, start ≤ i → i < p → valueAt text value i = some RI := by
    rw [← pow_mul, ← pow_succ]
    exact step_pow
  rw [asserted_behind, oddIndicatorsBefore, hseq]
  constructor
  · intro h
    obtain ⟨start, h⟩ := h
    obtain ⟨hbefore, m, hpowers, hlast⟩ := (zeroWidth_mul _).1 h
    obtain ⟨n, -, hn⟩ := powers_apply.1 hpowers
    obtain ⟨hp, hall⟩ := (hrun start n).1 ⟨m, hn, hlast⟩
    have hstart : p - (2 * n + 1) = start := by omega
    refine ⟨n, by omega, fun i h1 h2 ↦ hall i (by omega) h2, ?_⟩
    rw [hstart]
    exact (hnot start).1 hbefore
  · intro h
    obtain ⟨n, hp, hall, hbefore⟩ := h
    obtain ⟨m, hn, hlast⟩ := (hrun (p - (2 * n + 1)) n).2
      ⟨by omega, fun i h1 h2 ↦ hall i (by omega) h2⟩
    refine ⟨p - (2 * n + 1), (zeroWidth_mul _).2 ⟨(hnot _).2 hbefore, m, ?_, hlast⟩⟩
    exact powers_apply.2 ⟨n, ⟨by omega, Or.inl rfl⟩, hn⟩

end Context

section Constructors

/-- An element that an alternation takes as it is. -/
def isPlain : RE → Bool
  | seq (_ :: _) | assertion _ _ _ | diff _ _ | any | start | stop | other _ => true
  | _ => false

/-- The elements of an alternation, or the element itself. -/
def alternatives : RE → List RE
  | alt elems => elems
  | e => [e]

variable {e : RE} {elems : List RE} {found : Alternatives} {makeRep : RE → ℤ → ℤ → Except Fault RE}

theorem addNested_plain (h : isPlain e) :
    addNested found e = .ok { found with newAlt := found.newAlt ++ [e] } := by
  cases e with
  | seq elems => cases elems with
    | nil => cases h
    | cons _ _ => rfl
  | _ => first | rfl | cases h

theorem foldlM_addNested_plain (h : ∀ e ∈ elems, isPlain e) :
    elems.foldlM addNested found = .ok { found with newAlt := found.newAlt ++ elems } := by
  induction elems generalizing found with
  | nil => simp [pure, Except.pure]
  | cons e elems ih =>
    rw [List.foldlM_cons, addNested_plain (h e List.mem_cons_self)]
    refine (ih fun a ha ↦ h a (List.mem_cons_of_mem e ha)).trans ?_
    simp

theorem addAlternative_plain (h : ∀ a ∈ alternatives e, isPlain a) :
    addAlternative makeRep found e =
      .ok { found with newAlt := found.newAlt ++ alternatives e } := by
  cases e with
  | alt elems => exact foldlM_addNested_plain h
  | seq elems => cases elems with
    | nil => cases h _ List.mem_cons_self
    | cons _ _ => rfl
  | _ => first | rfl | cases h _ List.mem_cons_self

theorem foldlM_addAlternative_plain (h : ∀ e ∈ elems, ∀ a ∈ alternatives e, isPlain a) :
    elems.foldlM (addAlternative makeRep) found =
      .ok { found with newAlt := found.newAlt ++ elems.flatMap alternatives } := by
  induction elems generalizing found with
  | nil => simp [pure, Except.pure]
  | cons e elems ih =>
    rw [List.foldlM_cons, addAlternative_plain (h e List.mem_cons_self)]
    refine (ih fun a ha ↦ h a (List.mem_cons_of_mem e ha)).trans ?_
    simp

theorem makeAlt_plain (h : ∀ e ∈ elems, ∀ a ∈ alternatives e, isPlain a) :
    makeAlt elems = .ok (collapse alt (elems.flatMap alternatives)) := by
  rw [makeAlt, makeAltWith, foldlM_addAlternative_plain h]
  simp [Alternatives.elements, bind, Except.bind, pure, Except.pure]
end Constructors

section Tree

def behind (r : RE) : RE := assertion r .LookBehind .Positive

def notBehind (r : RE) : RE := assertion r .LookBehind .Negative

def ahead (r : RE) : RE := assertion r .LookAhead .Positive

def notAhead (r : RE) : RE := assertion r .LookAhead .Negative

def gcbs (values : List GCB) : RE := alt (values.map gcb)

def emojiSequence : RE := seq [ExtendedPictographic, rep (gcb .EX) 0 UNBOUNDED_REP, gcb .ZWJ]

def oddIndicators (r : RE) : RE := seq [notBehind r, rep (seq [r, r]) 0 UNBOUNDED_REP, r]

/-- The contexts of the rules GB9, GB9a and GB9b. -/
def extenderContexts (extended : Bool) : List RE :=
  seq [notBehind (gcbs [.Control, .CR, .LF]), ahead (gcbs [.EX, .ZWJ])] ::
    if extended then
      [seq [notBehind (gcbs [.Control, .CR, .LF]), ahead (gcb .SM)],
       seq [behind (gcb .PP), notAhead (gcbs [.Control, .CR, .LF])]]
    else []

/-- The contexts without a break. -/
def graphemeContexts (extended : Bool) : List RE :=
  [seq [behind (gcb .L), ahead (gcbs [.L, .V, .LV, .LVT])],
   seq [behind (gcbs [.LV, .V]), ahead (gcbs [.V, .T])],
   seq [behind (gcbs [.LVT, .T]), ahead (gcb .T)]] ++
  extenderContexts extended ++
  [seq [behind emojiSequence, ahead ExtendedPictographic],
   seq [behind (oddIndicators (gcb .RI)), ahead (gcb .RI)]]

theorem bind_ok {α β : Type} {x : Except Fault α} {a : α} {f : α → Except Fault β}
    {r : Except Fault β} (h : x = .ok a) (hf : f a = r) : (x >>= f) = r := by
  rw [h]
  exact hf

theorem makeAssertion_ok {a : RE} {k : Kind} {s : Sense} (ha : a.isEmptySet = false)
    (ha' : a.isEmptySeq = false) : makeAssertion a k s = .ok (assertion a k s) := by
  simp only [makeAssertion, ha, ha', Bool.false_eq_true, if_false]

theorem between_ok {a b : RE} (ha : a.isEmptySet = false) (ha' : a.isEmptySeq = false)
    (hb : b.isEmptySet = false) (hb' : b.isEmptySeq = false) :
    between a b = .ok (seq [behind a, ahead b]) :=
  bind_ok (makeAssertion_ok ha ha') (bind_ok (makeAssertion_ok hb hb') rfl)

theorem makeDiffOf_eq {e e' : RE} {l l' : List RE} :
    makeDiffOf (seq (e :: l)) (alt (e' :: l')) =
      .ok (diff (seq (e :: l)) (alt (e' :: l'))) := rfl

theorem addExtended_ok (extended : Bool) :
    addExtended extended (gcbs [.Control, .CR, .LF])
        (seq [notBehind (gcbs [.Control, .CR, .LF]), ahead (gcbs [.EX, .ZWJ])]) =
      .ok (collapse alt (extenderContexts extended)) := by
  cases extended
  · rfl
  · refine bind_ok (makeAssertion_ok rfl rfl) ?_
    iterate 3 refine bind_ok (makeAssertion_ok rfl rfl) ?_
    refine (makeAlt_plain ?_).trans rfl
    simp [alternatives, isPlain, makeSeq, pushSeq, isEmptySet, nestedItems, collapse]

theorem generateGraphemeClusterBoundaryRule_eq (extended : Bool) :
    generateGraphemeClusterBoundaryRule extended = .ok (alt [start, stop,
      diff (alt [behind (gcbs [.Control, .CR, .LF]), ahead (gcbs [.Control, .CR, .LF])])
        (seq [behind (gcb .CR), ahead (gcb .LF)]),
      diff (seq [behind any, ahead any]) (alt (graphemeContexts extended))]) := by
  have hcontrol : makeAlt [gcb .Control, gcb .CR, gcb .LF] =
      .ok (gcbs [.Control, .CR, .LF]) := rfl
  have hbreaks : makeAlt [behind (gcbs [.Control, .CR, .LF]), ahead (gcbs [.Control, .CR, .LF])] =
      .ok (alt [behind (gcbs [.Control, .CR, .LF]), ahead (gcbs [.Control, .CR, .LF])]) := rfl
  have hdiff : makeDiffOf
      (alt [behind (gcbs [.Control, .CR, .LF]), ahead (gcbs [.Control, .CR, .LF])])
      (seq [behind (gcb .CR), ahead (gcb .LF)]) = .ok (diff
        (alt [behind (gcbs [.Control, .CR, .LF]), ahead (gcbs [.Control, .CR, .LF])])
        (seq [behind (gcb .CR), ahead (gcb .LF)])) := rfl
  have hall : makeAlt [start, stop, diff
      (alt [behind (gcbs [.Control, .CR, .LF]), ahead (gcbs [.Control, .CR, .LF])])
      (seq [behind (gcb .CR), ahead (gcb .LF)])] = .ok (alt [start, stop, diff
        (alt [behind (gcbs [.Control, .CR, .LF]), ahead (gcbs [.Control, .CR, .LF])])
        (seq [behind (gcb .CR), ahead (gcb .LF)])]) := rfl
  have hcontexts : makeAlt [seq [behind (gcb .L), ahead (gcbs [.L, .V, .LV, .LVT])],
      seq [behind (gcbs [.LV, .V]), ahead (gcbs [.V, .T])],
      seq [behind (gcbs [.LVT, .T]), ahead (gcb .T)], collapse alt (extenderContexts extended),
      seq [behind emojiSequence, ahead ExtendedPictographic],
      seq [behind (oddIndicators (gcb .RI)), ahead (gcb .RI)]] =
        .ok (alt (graphemeContexts extended)) := by
    cases extended
    · refine (makeAlt_plain ?_).trans rfl
      simp [alternatives, isPlain, extenderContexts, collapse]
    · refine (makeAlt_plain ?_).trans rfl
      simp [alternatives, isPlain, extenderContexts, collapse]
  unfold generateGraphemeClusterBoundaryRule
  refine bind_ok hcontrol ?_
  refine bind_ok (between_ok rfl rfl rfl rfl) ?_
  iterate 2 refine bind_ok (makeAssertion_ok rfl rfl) ?_
  refine bind_ok hbreaks ?_
  refine bind_ok hdiff ?_
  refine bind_ok hall ?_
  refine bind_ok rfl ?_
  refine bind_ok (between_ok rfl rfl rfl rfl) ?_
  iterate 2 refine bind_ok rfl ?_
  refine bind_ok (between_ok rfl rfl rfl rfl) ?_
  refine bind_ok rfl ?_
  refine bind_ok (between_ok rfl rfl rfl rfl) ?_
  refine bind_ok (makeAssertion_ok rfl rfl) ?_
  refine bind_ok rfl ?_
  refine bind_ok (makeAssertion_ok rfl rfl) ?_
  refine bind_ok (addExtended_ok extended) ?_
  refine bind_ok rfl ?_
  refine bind_ok (between_ok rfl rfl rfl rfl) ?_
  refine bind_ok (makeAssertion_ok rfl rfl) ?_
  refine bind_ok rfl ?_
  refine bind_ok (between_ok rfl rfl rfl rfl) ?_
  refine bind_ok hcontexts ?_
  refine bind_ok (between_ok rfl rfl rfl rfl) ?_
  refine bind_ok makeDiffOf_eq ?_
  exact (makeAlt_plain (by simp [alternatives, isPlain])).trans rfl

end Tree

section Rules

variable {applies breaks : Prop} {rules : List (Prop × Prop)}

theorem firstRule_of_not_applies (h : ¬ applies) :
    firstRule ((applies, breaks) :: rules) ↔ firstRule rules := by
  simp [firstRule, h]

/-- Rules that do not break come before other ones. -/
theorem firstRule_no_breaks {contexts : List Prop} :
    firstRule (contexts.map (·, False) ++ rules) ↔
      ¬ (∃ context ∈ contexts, context) ∧ firstRule rules := by
  induction contexts with
  | nil => simp
  | cons context contexts ih =>
    simp only [List.map_cons, List.cons_append, firstRule, and_false, false_or, ih,
      List.mem_cons, exists_eq_or_imp, not_or, and_assoc]

end Rules

section Grapheme

variable {text : List ℕ} {value : ℕ → GCB} {pictographic : ℕ → Prop} {v : GCB} {vs : List GCB}
variable {p : ℕ} {extended : Bool}

/-- What the nodes of the properties match in a text. -/
abbrev graphemeMeaning (text : List ℕ) (value : ℕ → GCB) (pictographic : ℕ → Prop) : Meaning Span :=
  textMeaning text (gcbProperty value pictographic)

theorem gcbProperty_iff {c : ℕ} : gcbProperty value pictographic v.node c ↔ value c = v := by
  have hnode : v.node ≠ pictographicNode := by cases v <;> decide
  rw [gcbProperty, if_neg hnode]
  constructor
  · generalize value c = w
    cases v <;> cases w <;> simp [GCB.node]
  · intro h
    rw [h]

theorem denote_gcb :
    denote (graphemeMeaning text value pictographic) (gcb v) =
      step fun p ↦ valueAt text value p = some v := denote_value fun _ ↦ gcbProperty_iff

theorem denote_pictographic :
    denote (graphemeMeaning text value pictographic) ExtendedPictographic =
      step (pictographicAt text pictographic) := by
  refine congrArg step (funext fun p ↦ propext ?_)
  simp [gcbProperty, pictographicAt]

theorem denote_gcbs :
    denote (graphemeMeaning text value pictographic) (gcbs vs) =
      step fun p ↦ ∃ v ∈ vs, valueAt text value p = some v :=
  denote_values fun _ _ ↦ gcbProperty_iff

theorem behind_gcb :
    asserted .LookBehind .Positive (denote (graphemeMeaning text value pictographic) (gcb v)) p ↔
      valueBefore text value p = some v := by
  rw [denote_gcb, behind_valueAt]

theorem ahead_gcb :
    asserted .LookAhead .Positive (denote (graphemeMeaning text value pictographic) (gcb v)) p ↔
      valueAt text value p = some v := by
  rw [denote_gcb, ahead_step]

theorem behind_gcbs :
    asserted .LookBehind .Positive
        (denote (graphemeMeaning text value pictographic) (gcbs vs)) p ↔
      ∃ v ∈ vs, valueBefore text value p = some v := by
  rw [denote_gcbs, behind_step, valueBefore]
  by_cases hp : p = 0 <;> simp [hp]

theorem ahead_gcbs :
    asserted .LookAhead .Positive
        (denote (graphemeMeaning text value pictographic) (gcbs vs)) p ↔
      ∃ v ∈ vs, valueAt text value p = some v := by
  rw [denote_gcbs, ahead_step]

theorem ahead_pictographic :
    asserted .LookAhead .Positive
        (denote (graphemeMeaning text value pictographic) ExtendedPictographic) p ↔
      pictographicAt text pictographic p := by
  rw [denote_pictographic, ahead_step]

theorem behind_emojiSequence :
    asserted .LookBehind .Positive
        (denote (graphemeMeaning text value pictographic) emojiSequence) p ↔
      emojiBefore text value pictographic p := by
  have hseq : denote (graphemeMeaning text value pictographic) emojiSequence =
      step (pictographicAt text pictographic) *
        (powers (step fun i ↦ valueAt text value i = some .EX) (counts 0 UNBOUNDED_REP) *
          step fun i ↦ valueAt text value i = some .ZWJ) := by
    simp only [emojiSequence, denote, denoteSeq, denote_pictographic, denote_gcb, mul_one]
  rw [asserted_behind, emojiBefore, hseq]
  refine exists_congr fun first ↦ ?_
  rw [step_mul]
  constructor
  · intro h
    obtain ⟨hfirst, m, hpowers, hjoiner⟩ := h
    obtain ⟨n, -, hn⟩ := powers_apply.1 hpowers
    obtain ⟨rfl, hall⟩ := step_pow.1 hn
    obtain ⟨rfl, hjoiner⟩ := hjoiner
    exact ⟨by omega, hfirst, fun i h1 h2 ↦ hall i (by omega) (by omega), hjoiner⟩
  · intro h
    obtain ⟨hp, hfirst, hall, hjoiner⟩ := h
    refine ⟨hfirst, p - 1, powers_apply.2 ⟨p - 2 - first, ⟨by omega, Or.inl rfl⟩, ?_⟩, ?_⟩
    · exact step_pow.2 ⟨by omega, fun i h1 h2 ↦ hall i (by omega) (by omega)⟩
    · exact ⟨by omega, hjoiner⟩

theorem emojiBefore.before (h : emojiBefore text value pictographic p) :
    valueBefore text value p = some .ZWJ := by
  obtain ⟨first, hp, -, -, hjoiner⟩ := h
  rw [valueBefore, if_neg (by omega)]
  exact hjoiner

theorem oddIndicatorsBefore.before {V : Type*} {value : ℕ → V} {RI : V}
    (h : oddIndicatorsBefore text value RI p) : valueBefore text value p = some RI := by
  obtain ⟨n, hp, hall, -⟩ := h
  rw [valueBefore, if_neg (by omega)]
  exact hall (p - 1) (by omega) (by omega)

/-- The rules GB6 to GB13 without a guard, but the guards of the expression. -/
theorem graphemeContexts_iff :
    denote (graphemeMeaning text value pictographic) (alt (graphemeContexts extended)) p p ↔
      (valueBefore text value p = some .L ∧ (valueAt text value p = some .L ∨
        valueAt text value p = some .V ∨ valueAt text value p = some .LV ∨
        valueAt text value p = some .LVT)) ∨
      ((valueBefore text value p = some .LV ∨ valueBefore text value p = some .V) ∧
        (valueAt text value p = some .V ∨ valueAt text value p = some .T)) ∨
      ((valueBefore text value p = some .LVT ∨ valueBefore text value p = some .T) ∧
        valueAt text value p = some .T) ∨
      (¬ IsControl (valueBefore text value p) ∧
        (valueAt text value p = some .EX ∨ valueAt text value p = some .ZWJ)) ∨
      (extended ∧ ¬ IsControl (valueBefore text value p) ∧ valueAt text value p = some .SM) ∨
      (extended ∧ valueBefore text value p = some .PP ∧ ¬ IsControl (valueAt text value p)) ∨
      (emojiBefore text value pictographic p ∧ pictographicAt text pictographic p) ∨
      (oddIndicatorsBefore text value .RI p ∧ valueAt text value p = some .RI) := by
  have hodd : asserted .LookBehind .Positive
      (denote (graphemeMeaning text value pictographic) (oddIndicators (gcb .RI))) p ↔
        oddIndicatorsBefore text value .RI p := behind_oddIndicators denote_gcb
  cases extended <;>
    simp only [graphemeContexts, extenderContexts, behind, notBehind, ahead, notAhead,
      denote_alt_cons, denote_alt_nil, denote_assertions, asserted_notBehind,
      asserted_notAhead, List.cons_append, List.nil_append, if_true, if_false, Bool.false_eq_true,
      false_and, true_and, false_or, or_false] <;>
    simp only [hodd, behind_gcb, ahead_gcb, behind_gcbs, ahead_gcbs,
      ahead_pictographic, behind_emojiSequence, List.mem_cons, List.not_mem_nil, or_false,
      exists_eq_or_imp, exists_eq_left, IsControl]

theorem denote_graphemeTree (hp : p ≤ text.length) :
    denote (graphemeMeaning text value pictographic) (alt [start, stop,
      diff (alt [behind (gcbs [.Control, .CR, .LF]), ahead (gcbs [.Control, .CR, .LF])])
        (seq [behind (gcb .CR), ahead (gcb .LF)]),
      diff (seq [behind any, ahead any]) (alt (graphemeContexts extended))]) p p ↔
    p = 0 ∨ p = text.length ∨
      ((IsControl (valueBefore text value p) ∨ IsControl (valueAt text value p)) ∧
        ¬ (valueBefore text value p = some .CR ∧ valueAt text value p = some .LF)) ∨
      (p ≠ 0 ∧ p ≠ text.length) ∧
        ¬ denote (graphemeMeaning text value pictographic)
          (alt (graphemeContexts extended)) p p := by
  have hstart : denote (graphemeMeaning text value pictographic) start p p ↔ p = 0 := by
    simp [denote, textMeaning]
  have hstop : denote (graphemeMeaning text value pictographic) stop p p ↔ p = text.length := by
    simp [denote, textMeaning]
  generalize alt (graphemeContexts extended) = contexts
  simp only [denote_alt_cons, denote_alt_nil, or_false, denote_diff, hstart, hstop, behind,
    ahead, denote_assertion, denote_assertions, behind_gcb, ahead_gcb, behind_gcbs, ahead_gcbs,
    behind_any hp, ahead_any hp, List.mem_cons, List.not_mem_nil, exists_eq_or_imp,
    exists_eq_left, IsControl]

/-- Where the expression matches, the rules break, but for a break that it puts between a CR and
an LF, and at the only position of an empty text. -/
theorem generateGraphemeClusterBoundaryRule_exact (text : List ℕ) (value : ℕ → GCB)
    (pictographic : ℕ → Prop) (extended : Bool) :
    ∃ r, generateGraphemeClusterBoundaryRule extended = .ok r ∧ ∀ p ≤ text.length,
      ((denote (textMeaning text (gcbProperty value pictographic)) r p p ↔
          graphemeBreak text value pictographic extended p) ↔
        text ≠ [] ∧
          ¬ (valueBefore text value p = some .CR ∧ valueAt text value p = some .LF)) := by
  refine ⟨_, generateGraphemeClusterBoundaryRule_eq extended, fun p hp ↦ ?_⟩
  have hbefore : valueBefore text value p = none ↔ p = 0 := valueBefore_eq_none hp
  have hafter : valueAt text value p = none ↔ p = text.length := valueAt_eq_none hp
  have hemoji : emojiBefore text value pictographic p → valueBefore text value p = some .ZWJ :=
    emojiBefore.before
  have hodd : oddIndicatorsBefore text value .RI p → valueBefore text value p = some .RI :=
    oddIndicatorsBefore.before
  rw [denote_graphemeTree hp, graphemeContexts_iff, graphemeBreak, graphemeRules]
  generalize valueBefore text value p = before at *
  generalize valueAt text value p = after at *
  by_cases h0 : p = 0
  · have hb : before = none := hbefore.2 h0
    by_cases hend : p = text.length
    · have htext : text = [] := List.length_eq_zero_iff.1 (by omega)
      have ha : after = none := hafter.2 hend
      simp [firstRule, IsControl, htext, h0, hb, ha]
    · have htext : text ≠ [] := fun h ↦ hend (by simp [h, h0])
      have ha : after ≠ none := fun h ↦ hend (hafter.1 h)
      simp [firstRule, htext, h0, hb, ha]
  · have hb : before ≠ none := fun h ↦ h0 (hbefore.1 h)
    have htext : text ≠ [] := fun h ↦ h0 (by simpa [h] using hp)
    by_cases hend : p = text.length
    · have ha : after = none := hafter.2 hend
      simp [firstRule, htext, hb, ha, hend]
    · have ha : after ≠ none := fun h ↦ hend (hafter.1 h)
      simp only [h0, hend, hb, ha, false_and, and_false, false_or, ne_eq, not_false_eq_true,
        and_self, true_and, htext, firstRule_of_not_applies]
      by_cases hcrlf : before = some .CR ∧ after = some .LF
      · obtain ⟨rfl, rfl⟩ := hcrlf
        have hnoemoji : ¬ emojiBefore text value pictographic p := fun h ↦ by simpa using hemoji h
        have hnoodd : ¬ oddIndicatorsBefore text value .RI p := fun h ↦ by simpa using hodd h
        simp [IsControl, firstRule, hnoemoji, hnoodd]
      · rw [firstRule_of_not_applies hcrlf]
        simp only [hcrlf, not_false_eq_true, and_true, iff_true]
        by_cases hcontrol : IsControl before
        · simp [hcontrol, firstRule]
        · rw [firstRule_of_not_applies hcontrol]
          by_cases hcontrol' : IsControl after
          · simp [hcontrol', firstRule]
          · rw [firstRule_of_not_applies hcontrol']
            simp only [hcontrol, hcontrol', false_or, not_false_eq_true, true_and, and_true]
            simp only [firstRule, and_false, false_or, or_false, not_or, and_true]

/-- The classes of CR and LF, and no others. -/
def newlineValue (c : ℕ) : GCB := if c = 13 then .CR else if c = 10 then .LF else .XX

theorem generateGraphemeClusterBoundaryRule_exact_newline :
    ∃ r, generateGraphemeClusterBoundaryRule true = .ok r ∧
      ((denote (textMeaning [97, 13] (gcbProperty newlineValue fun _ ↦ False)) r 1 1 ↔
          graphemeBreak [97, 13] newlineValue (fun _ ↦ False) true 1) ↔
        [97, 13] ≠ ([] : List ℕ) ∧
          ¬ (valueBefore [97, 13] newlineValue 1 = some .CR ∧
            valueAt [97, 13] newlineValue 1 = some .LF)) := by
  obtain ⟨r, hr, hall⟩ :=
    generateGraphemeClusterBoundaryRule_exact [97, 13] newlineValue (fun _ ↦ False) true
  exact ⟨r, hr, hall 1 (by simp)⟩

/-- There is a break between a CR and an LF. -/
theorem generateGraphemeClusterBoundaryRule_breaks_newline :
    ∃ r, generateGraphemeClusterBoundaryRule false = .ok r ∧
      denote (textMeaning [13, 10] (gcbProperty newlineValue fun _ ↦ False)) r 1 1 ∧
      ¬ graphemeBreak [13, 10] newlineValue (fun _ ↦ False) false 1 := by
  have hbefore : valueBefore [13, 10] newlineValue 1 = some .CR := by decide
  have hafter : valueAt [13, 10] newlineValue 1 = some .LF := by decide
  refine ⟨_, generateGraphemeClusterBoundaryRule_eq false, ?_, ?_⟩
  · apply (denote_graphemeTree (by simp)).2
    rw [graphemeContexts_iff, hbefore, hafter]
    have hnoemoji : ¬ emojiBefore [13, 10] newlineValue (fun _ ↦ False) 1 := fun h ↦ by
      simpa [hbefore] using h.before
    have hnoodd : ¬ oddIndicatorsBefore [13, 10] newlineValue .RI 1 := fun h ↦ by
      simpa [hbefore] using h.before
    simp [IsControl, hnoemoji, hnoodd]
  · simp [graphemeBreak, graphemeRules, hbefore, hafter, firstRule, IsControl]

end Grapheme

end Parabix.RE.Boundaries
