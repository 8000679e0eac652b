import Parabix.RE.Repetition

namespace Parabix.RE

open Library Library.Powers UCD

section Converse

variable {K : Type*} [CompleteBooleanAlgebra K] [Monoid K] [IsQuantale K] {M : Meaning K}
  {re : RE} {l u lb ub : ℤ}

theorem mulInt_eq_ok {a b c : ℤ} (h : mulInt a b = .ok c) : FitsInt a b := by
  rw [mulInt] at h
  split_ifs at h with hfits
  exact hfits

theorem combineRep_eq_ok {r : RE} (h : combineRep re l u lb ub = .ok r) : Combines l u lb ub := by
  simp only [combineRep, bind_eq_ok] at h
  obtain ⟨a, ha, b, hb, _⟩ := h
  refine ⟨mulInt_eq_ok ha, fun hu hub ↦ ?_⟩
  rw [ubCombine, if_neg (by simp [hu, hub])] at hb
  exact mulInt_eq_ok hb

/-- With no repetition at all the constructor for alternatives stops. -/
theorem makeAltWith_none {r1 r : RE} {l1 u1 : ℤ} (hl : l1 ≠ 0) :
    makeAltWith (makeRepFuel 1) [rep r1 l1 u1, rep r 0 0] =
      .error (.fatal "lower bound cannot exceed upper bound") := by
  have hrep : makeRepFuel 1 r 1 0 = .error (.fatal "lower bound cannot exceed upper bound") := by
    rw [makeRepFuel, if_neg (by decide), if_pos (by decide)]
  simp only [makeAltWith, List.foldlM_cons, addAlternative, if_neg hl, if_true, hrep, ok_bind,
    error_bind]

theorem safe_of_makeRep_eq_ok {r' : RE} (hb : Bounds l u) (hb' : Bounds lb ub)
    (hr' : makeRep (rep re l u) lb ub = .ok r')
    (hzero : ¬(u = UNBOUNDED_REP ∧ lb = 0 ∧ ub = 0)) : RepSafe (.rep re.outline l u) lb ub := by
  have hlb := hb'.nonneg
  rw [makeRep, makeRepFuel_rep 1 hb', repeatRep] at hr'
  rw [RepSafe]
  by_cases heq : lb = ub
  · subst heq
    rw [if_pos rfl] at hr' ⊢
    exact ⟨combineRep_eq_ok hr', fun hu h0 ↦ hzero ⟨hu, h0, h0⟩⟩
  rw [if_neg heq] at hr' ⊢
  by_cases hu : u = UNBOUNDED_REP
  · rw [if_pos hu] at hr' ⊢
    intro h2 h0
    rw [if_neg (by omega), if_neg (by omega), if_neg h0] at hr'
    obtain ⟨a, ha, _⟩ := bind_eq_ok.1 hr'
    exact mulInt_eq_ok ha
  rw [if_neg hu] at hr' ⊢
  by_cases hlt : l < u
  · rw [if_pos hlt] at hr' ⊢
    obtain ⟨n, hn⟩ : ∃ n, n = (u - 2).tdiv (u - l) := ⟨_, rfl⟩
    simp only [← hn] at hr' ⊢
    split_ifs at hr' ⊢ with h1 h2
    · exact combineRep_eq_ok hr'
    · obtain ⟨hl, hsmall⟩ := fewest_pos hb hlt (hn ▸ by omega)
      have hl' := hb.lt
      have hu' := hb.lt'
      obtain ⟨r1, he1, hr'⟩ := bind_eq_ok.1 hr'
      obtain ⟨r2, he2, hr'⟩ := bind_eq_ok.1 hr'
      have hcombines := combineRep_eq_ok he1
      have hb₂ : Bounds lb (n - 1) := ⟨hlb, by omega, .inr (by omega), by omega⟩
      rw [makeRepFuel_rep 0 hb₂, repeatRep] at he2
      refine ⟨?_, hcombines, ?_⟩
      · intro hone
        rw [combineRep_ok hcombines, Except.ok.injEq] at he1
        have h0 : lb = 0 := by omega
        have hnone : Combines l u 0 0 := ⟨by simp [FitsInt], fun _ _ ↦ by simp [FitsInt]⟩
        rw [h0, hone, if_pos (by decide), show (1 : ℤ) - 1 = 0 from rfl, combineRep_ok hnone,
          Except.ok.injEq, Int.mul_zero, combinedUB, if_neg (not_or.2 ⟨hu, by decide⟩),
          Int.mul_zero] at he2
        rw [← he1, ← he2, makeAltWith_none (Int.mul_ne_zero (by omega) (by omega))] at hr'
        cases hr'
      · intro hlast
        rw [if_pos hlast, ← hlast] at he2
        exact combineRep_eq_ok he2
  · rw [if_neg hlt]
    trivial

omit [IsQuantale K] in
theorem safe_of_repeats_rep (hb : Bounds l u) (hb' : Bounds lb ub)
    (h : Repeats M (rep re l u) lb ub (makeRep (rep re l u) lb ub)) :
    RepSafe (.rep re.outline l u) lb ub ∨
      u = UNBOUNDED_REP ∧ lb = 0 ∧ ub = 0 ∧ denote M re ≤ 1 := by
  obtain ⟨r', hr', _, hdenote⟩ := h
  by_cases hzero : u = UNBOUNDED_REP ∧ lb = 0 ∧ ub = 0
  · obtain ⟨rfl, rfl, rfl⟩ := hzero
    refine .inr ⟨rfl, rfl, rfl, ?_⟩
    rw [makeRep, makeRepFuel_rep 1 hb', repeatRep, if_pos rfl] at hr'
    rw [combineRep_ok (combineRep_eq_ok hr'), Except.ok.injEq] at hr'
    rw [← hr', show counts 0 0 = Set.Icc 0 0 from counts_nat 0 0, Set.Icc_self,
      powers_singleton, pow_zero, denote] at hdenote
    have hone : 1 ∈ counts (l * 0) (combinedUB UNBOUNDED_REP 0) := ⟨by simp, .inl rfl⟩
    exact (pow_one (denote M re)).ge.trans ((pow_le_powers hone).trans hdenote.le)
  · exact .inl (safe_of_makeRep_eq_ok hb hb' hr' hzero)

/-- The constructor returns an expression for the repetitions except of the empty set no times, of
an unbounded repetition no times, of a repetition whose counts are split at 1, and where a bound
leaves the type `int`. -/
theorem makeRep_exact [Nontrivial K] (M : Meaning K) (hre : re.Valid) (hb : Bounds lb ub) :
    Repeats M re lb ub (makeRep re lb ub) ↔ RepSafe re.outline lb ub ∨
      ∃ r l, re = rep r l UNBOUNDED_REP ∧ lb = 0 ∧ ub = 0 ∧ denote M r ≤ 1 := by
  constructor
  · intro h
    by_cases hset : re.isEmptySet = true
    · left
      rw [outline_nothing_iff.2 hset]
      intro h0
      subst h0
      obtain ⟨r', hr', _, hdenote⟩ := h
      rw [makeRep, makeRepFuel_eq 1 hb, if_pos (.inl hset), Except.ok.injEq] at hr'
      rw [← hr', denote_emptySet hre hset] at hdenote
      have hone : (1 : K) ≤ ⊥ := (one_le_powers (mem_counts_lb hb)).trans hdenote.ge
      have hbot (x : K) : x = ⊥ := by
        rw [← mul_one x, le_bot_iff.1 hone, Quantale.mul_bot]
      obtain ⟨x, y, hne⟩ := exists_pair_ne K
      exact hne ((hbot x).trans (hbot y).symm)
    · cases hre with
      | @rep r l u hr hb₀ =>
        obtain hsafe | ⟨rfl, h0, h0', hle⟩ := safe_of_repeats_rep hb₀ hb h
        · exact .inl hsafe
        · exact .inr ⟨r, l, rfl, h0, h0', hle⟩
      | @alt elems _ =>
        left
        cases elems with
        | nil => exact absurd rfl hset
        | cons => trivial
      | @cc c _ =>
        have hne : ¬c.set.empty = true := hset
        left
        rw [outline, if_neg hne]
        trivial
      | @seq elems _ =>
        left
        cases elems <;> trivial
      | _ => exact .inl trivial
  · intro h
    obtain hsafe | ⟨r, l, rfl, rfl, rfl, hle⟩ := h
    · exact makeRep_repeats hre hb hsafe
    · cases hre with
      | rep hr hb₀ =>
        have hfits : Combines l UNBOUNDED_REP 0 0 := ⟨by simp [FitsInt], fun h ↦ absurd rfl h⟩
        rw [makeRep, makeRepFuel_rep 1 hb, repeatRep, if_pos rfl, combineRep_ok hfits]
        refine ⟨_, rfl, .rep hr (bounds_combine hb₀ hb hfits), ?_⟩
        rw [show counts 0 0 = Set.Icc 0 0 from counts_nat 0 0, Set.Icc_self, powers_singleton,
          pow_zero, denote]
        exact powers_of_le_one hle ⟨by simp, .inl rfl⟩

end Converse

section Example

def zeroed : Memory := ⟨fun _ ↦ ⟨.Empty, 0⟩, fun _ ↦ 0⟩

/-- The class of one code point. -/
def letter (cp : ℕ) : RE := cc ⟨.singleton zeroed cp, Unicode⟩

theorem letter_valid {cp : ℕ} (h : cp ≤ unicodeMax) : (letter cp).Valid :=
  .cc (singleton_wellFormed zeroed h)

/-- `a{2,3}` two to four times is `a{4,12}`. -/
theorem makeRep_exact_rep : Repeats words (rep (letter 97) 2 3) 2 4
    (makeRep (rep (letter 97) 2 3) 2 4) := by
  have hb : Bounds 2 3 := ⟨by decide, by decide, .inr (by decide), by decide⟩
  have hb' : Bounds 2 4 := ⟨by decide, by decide, .inr (by decide), by decide⟩
  refine (makeRep_exact words (.rep (letter_valid (by decide)) hb) hb').2 (.inl ?_)
  simp [RepSafe, outline, Combines, FitsInt, UNBOUNDED_REP]

/-- `a{2,3}` at most once, and the empty set at most once. -/
theorem makeRep_optional :
    makeRep (rep (letter 97) 2 3) 0 1 =
      .error (.fatal "lower bound cannot exceed upper bound") ∧
    ¬Repeats words (rep (letter 97) 2 3) 0 1 (makeRep (rep (letter 97) 2 3) 0 1) ∧
    ¬Repeats words (alt []) 0 1 (makeRep (alt []) 0 1) := by
  refine ⟨rfl, ?_, ?_⟩
  · rintro ⟨r, hr, -⟩
    cases hr
  · rintro ⟨r, hr, -, hdenote⟩
    cases hr
    have hzero : 0 ∈ counts 0 1 := ⟨le_rfl, .inr (by decide)⟩
    have hone : (1 : Language ℕ) ≤ ⊥ := (one_le_powers hzero).trans hdenote.ge
    exact hone (show [] ∈ (1 : Language ℕ) from rfl)

end Example

end Parabix.RE
