import Parabix.RE.RepetitionExact

namespace Parabix.RE

open Library Library.Powers UCD

section Alt

variable {K : Type*} [CompleteBooleanAlgebra K] [Monoid K] [IsQuantale K] {M : Meaning K}
  {e re : RE} {elems : List RE} {ub : ℤ} {found found' : Alternatives}

/-- An alternative that may be left out can be had at least once. -/
def Optional (e : RE) : Prop := ∀ re ub, e = rep re 0 ub → ub ≠ 0 ∧ RepSafe re.outline 1 ub

theorem bounds_one (hb : Bounds 0 ub) (hub : ub ≠ 0) : Bounds 1 ub := by
  have hle := hb.le
  exact ⟨by decide, by decide, by omega, hb.lt'⟩

theorem Optional.altReady (h : Optional e) (he : e.Valid) : AltReady M makeRep e := by
  rintro re ub rfl
  obtain ⟨hub, hsafe⟩ := h re ub rfl
  cases he with
  | rep hre hb => exact makeRep_repeats hre (bounds_one hb hub) hsafe

/-- No call for at least one repetition goes wrong without an error. -/
theorem optional_of_makeRep_eq_ok {r : RE} (hre : re.Valid) (hb : Bounds 0 ub)
    (h : makeRep re 1 ub = .ok r) : ub ≠ 0 ∧ RepSafe re.outline 1 ub := by
  have hub : ub ≠ 0 := by
    rintro rfl
    rw [makeRep, makeRepFuel, if_neg (by decide), if_pos (by decide)] at h
    cases h
  refine ⟨hub, ?_⟩
  cases hre with
  | rep _ hb₀ =>
    exact safe_of_makeRep_eq_ok hb₀ (bounds_one hb hub) h fun hzero ↦ Int.one_ne_zero hzero.2.1
  | @alt elems _ => cases elems <;> simp [outline, RepSafe]
  | @seq elems _ => cases elems <;> simp [outline, RepSafe]
  | @cc c _ => by_cases hset : c.set.empty <;> simp [outline, RepSafe, hset]
  | _ => simp [outline, RepSafe]

theorem makeRep_eq_ok_of_mem (h : elems.foldlM (addAlternative makeRep) found = .ok found')
    (hmem : rep re 0 ub ∈ elems) : ∃ r, makeRep re 1 ub = .ok r := by
  induction elems generalizing found with
  | nil => cases hmem
  | cons e elems ih =>
    rw [List.foldlM_cons] at h
    obtain ⟨found₁, hfirst, hrest⟩ := bind_eq_ok.1 h
    obtain rfl | hmem := List.mem_cons.1 hmem
    · rw [addAlternative, if_pos rfl] at hfirst
      obtain ⟨r, hr, -⟩ := bind_eq_ok.1 hfirst
      exact ⟨r, hr⟩
    · exact ih hrest hmem

theorem makeAlt_spec (hv : ∀ e ∈ elems, e.Valid) (h : ∀ e ∈ elems, Optional e) :
    ∃ r, makeAlt elems = .ok r ∧ r.Valid ∧ denote M r = denoteAlt M elems :=
  makeAltWith_spec hv fun e he ↦ (h e he).altReady (hv e he)

/-- The constructors denote the union and the concatenation, except where an alternative is
repeated zero times at most, or where its repetition leaves the type `int`. -/
theorem makeAlt_makeSeq_exact (M : Meaning K) (hv : ∀ e ∈ elems, e.Valid) :
    ((∃ r, makeAlt elems = .ok r ∧ r.Valid ∧ denote M r = denoteAlt M elems) ∧
      (makeSeq elems).Valid ∧ denote M (makeSeq elems) = denoteSeq M elems) ↔
        ∀ e ∈ elems, Optional e := by
  constructor
  · rintro ⟨⟨r, hr, -⟩, -⟩ e he re ub rfl
    obtain ⟨found, hfound, -⟩ := bind_eq_ok.1 hr
    obtain ⟨r', hr'⟩ := makeRep_eq_ok_of_mem hfound he
    cases hv _ he with
    | rep hre hb => exact optional_of_makeRep_eq_ok hre hb hr'
  · intro h
    exact ⟨makeAlt_spec hv h, valid_makeSeq hv, denote_makeSeq hv⟩

/-- What the constructor of alternatives returns is right. -/
theorem makeAlt_returns {r : RE} (hv : ∀ e ∈ elems, e.Valid) (h : makeAlt elems = .ok r) :
    r.Valid ∧ denote M r = denoteAlt M elems := by
  have hready : ∀ e ∈ elems, Optional e := by
    rintro e he re ub rfl
    obtain ⟨found, hfound, -⟩ := bind_eq_ok.1 h
    obtain ⟨r', hr'⟩ := makeRep_eq_ok_of_mem hfound he
    cases hv _ he with
    | rep hre hb => exact optional_of_makeRep_eq_ok hre hb hr'
  obtain ⟨r', hr', hvalid, hdenote⟩ := makeAlt_spec (M := M) hv hready
  obtain rfl : r = r' := Except.ok.inj (h.symm.trans hr')
  exact ⟨hvalid, hdenote⟩

/-- What the constructor of repetitions returns is right, but for repetitions from zero of the empty
set, and for no repetition of what is repeated without an upper bound. -/
theorem makeRep_returns {r : RE} {lb : ℤ} (hre : re.Valid) (hb : Bounds lb ub)
    (h : makeRep re lb ub = .ok r) :
    r.Valid ∧ (re.isEmptySet = true ∧ lb = 0 ∧ r = re ∨
      (∃ r' l, re = rep r' l UNBOUNDED_REP) ∧ lb = 0 ∧ ub = 0 ∨
        denote M r = powers (denote M re) (counts lb ub)) := by
  have hright (hsafe : RepSafe re.outline lb ub) :
      r.Valid ∧ denote M r = powers (denote M re) (counts lb ub) := by
    obtain ⟨r', hr', hvalid, hdenote⟩ := makeRep_repeats (M := M) hre hb hsafe
    obtain rfl : r = r' := Except.ok.inj (h.symm.trans hr')
    exact ⟨hvalid, hdenote⟩
  by_cases hsafe : RepSafe re.outline lb ub
  · exact ⟨(hright hsafe).1, .inr (.inr (hright hsafe).2)⟩
  by_cases hset : re.isEmptySet = true
  · rw [makeRep, makeRepFuel_eq 1 hb, if_pos (.inl hset), Except.ok.injEq] at h
    rw [outline_nothing_iff.2 hset] at hsafe
    exact ⟨h ▸ hre, .inl ⟨hset, not_not.1 hsafe, h.symm⟩⟩
  cases hre with
  | @rep r' l u hr' hb₀ =>
    have hzero : u = UNBOUNDED_REP ∧ lb = 0 ∧ ub = 0 := by
      by_contra hzero
      exact hsafe (safe_of_makeRep_eq_ok hb₀ hb h hzero)
    obtain ⟨rfl, rfl, rfl⟩ := hzero
    have hfits : Combines l UNBOUNDED_REP 0 0 := ⟨by simp [FitsInt], fun h ↦ absurd rfl h⟩
    rw [makeRep, makeRepFuel_rep 1 hb, repeatRep, if_pos rfl, combineRep_ok hfits,
      Except.ok.injEq] at h
    exact ⟨h ▸ .rep hr' (bounds_combine hb₀ hb hfits), .inr (.inl ⟨⟨r', l, rfl⟩, rfl, rfl⟩)⟩
  | @alt elems _ =>
    cases elems with
    | nil => exact absurd rfl hset
    | cons => exact absurd trivial hsafe
  | @cc c _ =>
    have hne : ¬c.set.empty = true := hset
    rw [outline, if_neg hne] at hsafe
    exact absurd trivial hsafe
  | @seq elems _ => cases elems <;> exact absurd trivial hsafe
  | _ => exact absurd trivial hsafe

/-- `a{0,2}`, `b`, the empty string or `c`, and `d`. -/
theorem makeAlt_makeSeq_exact_letters :
    (∃ r, makeAlt [rep (letter 97) 0 2, letter 98, alt [seq [], letter 99], seq [letter 100]] =
        .ok r ∧ r.Valid ∧ denote words r = denoteAlt words
          [rep (letter 97) 0 2, letter 98, alt [seq [], letter 99], seq [letter 100]]) ∧
      denote words (makeSeq [rep (letter 97) 0 2, letter 98, alt [seq [], letter 99],
          seq [letter 100]]) = denoteSeq words
            [rep (letter 97) 0 2, letter 98, alt [seq [], letter 99], seq [letter 100]] := by
  have hletter (cp : ℕ) (h : cp ≤ unicodeMax) := letter_valid h
  have hv : ∀ e ∈ [rep (letter 97) 0 2, letter 98, alt [seq [], letter 99], seq [letter 100]],
      e.Valid := by
    simp only [List.forall_mem_cons, List.not_mem_nil, false_imp_iff, implies_true, and_true]
    refine ⟨.rep (hletter 97 (by decide)) ⟨by decide, by decide, .inr (by decide), by decide⟩,
      hletter 98 (by decide), .alt ?_, .seq ?_⟩
    · simp only [List.forall_mem_cons, List.not_mem_nil, false_imp_iff, implies_true, and_true]
      exact ⟨.seq (List.forall_mem_nil _), hletter 99 (by decide)⟩
    · simp only [List.forall_mem_cons, List.not_mem_nil, false_imp_iff, implies_true, and_true]
      exact hletter 100 (by decide)
  obtain ⟨halt, -, hseq⟩ := (makeAlt_makeSeq_exact words hv).2 (by
    simp only [List.forall_mem_cons, List.not_mem_nil, false_imp_iff, implies_true, and_true]
    refine ⟨?_, ?_, ?_, ?_⟩
    · rintro re ub h
      cases h
      have hclass : (letter 97).outline = .solid := by
        rw [letter, outline, if_neg (by decide)]
      rw [hclass]
      exact ⟨by decide, trivial⟩
    all_goals
      rintro re ub h
      cases h)
  exact ⟨halt, hseq⟩

/-- An alternative that is repeated zero times stops the constructor, though another constructor
returns it. -/
theorem makeAlt_repeated_never : (rep (letter 97) 0 0).Valid ∧
    makeRep (rep (letter 97) 2 3) 0 0 = .ok (rep (letter 97) 0 0) ∧
      ¬∃ r, makeAlt [rep (letter 97) 0 0] = .ok r ∧
        denote words r = denoteAlt words [rep (letter 97) 0 0] := by
  refine ⟨.rep (letter_valid (by decide)) ⟨by decide, by decide, .inr (by decide), by decide⟩, rfl,
    ?_⟩
  rintro ⟨r, hr, -⟩
  cases hr

end Alt

end Parabix.RE
