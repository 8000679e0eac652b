import Parabix.RE.Outline

namespace Parabix.RE

open Library UCD

section Shape

variable {a : ℕ} {re : RE} {l u lb ub : ℤ}

/-- The constructor returns a tidy expression over the alphabet, with the given outline. -/
def Shaped (a : ℕ) (result : Except Fault RE) (o : Outline) : Prop :=
  ∃ r, result = .ok r ∧ Over a r ∧ Tidy r ∧ r.outline = o

theorem shaped_rep (hre : Over a re) (hb : Bounds lb ub) (ht : Tidy (rep re l u)) :
    Shaped a (.ok (rep re lb ub)) (.rep re.outline lb ub) :=
  ⟨_, rfl, .rep hre hb, ht, rfl⟩

theorem shaped_rep_rep (hre : Over a re) (hb : Bounds l u) (hb' : Bounds lb ub)
    (ht : Tidy (rep re l u)) :
    Shaped a (.ok (rep (rep re l u) lb ub)) (.rep (.rep re.outline l u) lb ub) :=
  ⟨_, rfl, .rep (.rep hre hb) hb', ⟨ht, nofun, nofun⟩, rfl⟩

theorem shaped_combineRep (hre : Over a re) (hb : Bounds l u) (hb' : Bounds lb ub)
    (ht : Tidy (rep re l u)) (h : Combines l u lb ub) :
    Shaped a (combineRep re l u lb ub) (.rep re.outline (l * lb) (combinedUB u ub)) := by
  rw [combineRep_ok h]
  exact shaped_rep hre (bounds_combine hb hb' h) ht

/-- Fewer repetitions than those from which on there are no gaps. -/
theorem shaped_below {makeRep : RE → ℤ → ℤ → Except Fault RE} (hre : Over a re) (hb : Bounds l u)
    (hb' : Bounds lb ub) (ht : Tidy (rep re l u)) (hu : u ≠ UNBOUNDED_REP) (hlt : l < u)
    (hub : ub ≠ UNBOUNDED_REP) (hn : ub < (u - 2).tdiv (u - l))
    (hsafe : lb = ub → Combines l u lb lb) :
    ∃ i l' u', (l' = 0 → lb = 0 ∨ l = 0) ∧
      Shaped a (repeatRep makeRep re l u lb ub) (.rep i l' u') := by
  have hle := hb'.le.resolve_left hub
  by_cases heq : lb = ub
  · subst heq
    refine ⟨re.outline, l * lb, combinedUB u lb, fun h ↦ (Int.mul_eq_zero.1 h).symm, ?_⟩
    rw [repeatRep, if_pos rfl]
    exact shaped_combineRep hre hb hb' ht (hsafe rfl)
  · have h1 : ¬(u - 2).tdiv (u - l) ≤ lb := by omega
    have h2 : ¬(ub = UNBOUNDED_REP ∨ (u - 2).tdiv (u - l) ≤ ub) := by omega
    refine ⟨.rep re.outline l u, lb, ub, fun h ↦ .inl h, ?_⟩
    rw [repeatRep, if_neg heq, if_neg hu, if_pos hlt]
    simp only [if_neg h1, if_neg h2]
    exact shaped_rep_rep hre hb hb' ht

theorem altKeeps_of_ne {makeRep : RE → ℤ → ℤ → Except Fault RE} {r : RE} {i : Outline}
    (h : r.outline = .rep i lb ub) (hlb : lb ≠ 0) : AltKeeps a makeRep r := by
  rintro r' ub' rfl
  rw [outline, Outline.rep.injEq] at h
  exact absurd h.2.1.symm hlb

/-- The split at the fewest repetitions from which on there are no gaps. -/
theorem shaped_split (hre : Over a re) (hb : Bounds l u) (hb' : Bounds lb ub)
    (ht : Tidy (rep re l u)) (hu : u ≠ UNBOUNDED_REP) (hlt : l < u) {n : ℤ}
    (hn : n = (u - 2).tdiv (u - l)) (hlb : lb < n) (hub : ub = UNBOUNDED_REP ∨ n ≤ ub)
    (hne : n ≠ 1) (hsafe : Combines l u n ub) (hsafe' : lb = n - 1 → Combines l u lb lb) :
    Shaped a (do
      let r1 ← combineRep re l u n ub
      let r2 ← makeRepFuel 1 (rep re l u) lb (n - 1)
      makeAltWith (makeRepFuel 1) [r1, r2]) .solid := by
  have h0 := hb'.nonneg
  have hu' := hb.lt'
  have hl' := hb.lt
  obtain ⟨hl, hsmall⟩ := fewest_pos hb hlt (hn ▸ by omega)
  rw [← hn] at hsmall
  have hfinite : n - 1 ≠ UNBOUNDED_REP := by rw [UNBOUNDED_REP]; omega
  have hbn : Bounds n ub := ⟨by omega, by omega, hub, hb'.lt'⟩
  have hbelow (k : ℤ) (h1 : 0 ≤ k) (h2 : k ≤ n - 1) : Bounds k (n - 1) :=
    ⟨h1, by omega, .inr h2, by omega⟩
  obtain ⟨r1, he1, hover1, htidy1, ho1⟩ := shaped_combineRep hre hb hbn ht hsafe
  have hpos : l * n ≠ 0 := Int.mul_ne_zero (by omega) (by omega)
  have hrec (k : ℤ) (h1 : 0 ≤ k) (h2 : k ≤ n - 1) (h3 : k = n - 1 → Combines l u k k) :
      ∃ i l' u', (l' = 0 → k = 0 ∨ l = 0) ∧
        Shaped a (makeRepFuel 1 (rep re l u) k (n - 1)) (.rep i l' u') := by
    rw [makeRepFuel_rep 0 (hbelow k h1 h2)]
    exact shaped_below hre hb (hbelow k h1 h2) ht hu hlt hfinite (by omega) h3
  obtain ⟨i, l', u', hzero, r2, he2, hover2, htidy2, ho2⟩ := hrec lb h0 (by omega) hsafe'
  have hkeeps2 : AltKeeps a (makeRepFuel 1) r2 := by
    by_cases hl0 : l' = 0
    · have hlb0 : lb = 0 := (hzero hl0).resolve_right (by omega)
      have hlast : lb ≠ n - 1 := by omega
      rw [makeRepFuel_rep 0 (hbelow lb h0 (by omega)), repeatRep, if_neg hlast, if_neg hu,
        if_pos hlt] at he2
      simp only [← hn, if_neg (show ¬n ≤ lb by omega),
        if_neg (show ¬(n - 1 = UNBOUNDED_REP ∨ n ≤ n - 1) by omega), Except.ok.injEq] at he2
      intro r ub' hr2
      rw [← he2] at hr2
      cases hr2
      obtain ⟨i₁, l₁, u₁, -, r₁, he₁, hover₁, -, ho₁⟩ := hrec 1 (by decide) (by omega) fun _ ↦
        ⟨by rw [FitsInt]; omega, fun _ _ ↦ by rw [FitsInt]; omega⟩
      refine ⟨r₁, he₁, hover₁, ?_⟩
      rw [isEmptySeq_iff_outline, ho₁]
      rintro ⟨⟩
    · exact altKeeps_of_ne ho2 hl0
  obtain ⟨e, he, hover, htidy, ho⟩ := @makeAltWith_outline a [r1, r2] (makeRepFuel 1)
    (by simp [hover1, hover2]) (by simp [htidy1, htidy2])
    (by simp [altKeeps_of_ne ho1 hpos, hkeeps2])
  refine ⟨e, ?_, hover, htidy, ?_⟩
  · rw [he1, ok_bind, he2, ok_bind, he]
  · rw [ho, List.map_cons, List.map_cons, List.map_nil, ho1, ho2, List.foldl_cons,
      List.foldl_cons, Outline.altStep, if_neg hpos]
    rfl

theorem shaped_unbounded {makeRep : RE → ℤ → ℤ → Except Fault RE} (hre : Over a re)
    (hb : Bounds l UNBOUNDED_REP) (hb' : Bounds lb ub) (ht : Tidy (rep re l UNBOUNDED_REP))
    (hne : lb ≠ ub) (hsafe : 2 ≤ l → lb ≠ 0 → FitsInt l lb) :
    Shaped a (repeatRep makeRep re l UNBOUNDED_REP lb ub)
      (Outline.makeRep (.rep re.outline l UNBOUNDED_REP) lb ub) := by
  have hl := hb.nonneg
  have hlb := hb'.nonneg
  rw [repeatRep, Outline.makeRep, if_neg hne, if_neg hne, if_pos rfl, if_pos rfl]
  split_ifs with h0 h1 hz
  · exact shaped_rep hre hb ht
  · exact shaped_rep hre (bounds_unbounded hlb hb'.lt) ht
  · exact shaped_rep_rep hre hb ⟨le_rfl, by decide, .inr (by decide), by decide⟩ ht
  · have hfits := hsafe (by omega) hz
    rw [mulInt_ok hfits, ok_bind, pure_eq_ok]
    exact shaped_rep hre (bounds_unbounded (Int.mul_nonneg hl hlb) hfits.2) ht

theorem shaped_repeatRep (hre : Over a re) (hb : Bounds l u) (hb' : Bounds lb ub)
    (ht : Tidy (rep re l u)) (hsafe : RepSafe (.rep re.outline l u) lb ub) :
    Shaped a (repeatRep (makeRepFuel 1) re l u lb ub)
      (Outline.makeRep (.rep re.outline l u) lb ub) := by
  have hlb := hb'.nonneg
  rw [RepSafe] at hsafe
  by_cases heq : lb = ub
  · subst heq
    rw [if_pos rfl] at hsafe
    rw [repeatRep, Outline.makeRep, if_pos rfl, if_pos rfl]
    exact shaped_combineRep hre hb hb' ht hsafe.1
  rw [if_neg heq] at hsafe
  by_cases hu : u = UNBOUNDED_REP
  · subst hu
    rw [if_pos rfl] at hsafe
    exact shaped_unbounded hre hb hb' ht heq hsafe
  rw [if_neg hu] at hsafe
  by_cases hlt : l < u
  · rw [if_pos hlt] at hsafe
    rw [repeatRep, Outline.makeRep, if_neg heq, if_neg heq, if_neg hu, if_neg hu, if_pos hlt,
      if_pos hlt]
    simp only at hsafe ⊢
    split_ifs at hsafe ⊢ with h1 h2
    · exact shaped_combineRep hre hb hb' ht hsafe
    · exact shaped_split hre hb hb' ht hu hlt rfl (by omega) h2 hsafe.1 hsafe.2.1 hsafe.2.2
    · exact shaped_rep_rep hre hb hb' ht
  · rw [repeatRep, Outline.makeRep, if_neg heq, if_neg heq, if_neg hu, if_neg hu, if_neg hlt,
      if_neg hlt]
    exact shaped_rep_rep hre hb hb' ht

/-- A repetition of an expression of any other kind. -/
theorem shaped_plain (hre : Over a re) (ht : Tidy re) (hb : Bounds lb ub)
    (ho : re.outline = .solid) : Shaped a
      (if lb = 0 ∧ ub = 0 then .ok (seq []) else if lb = 1 ∧ ub = 1 then .ok re
        else .ok (rep re lb ub)) (Outline.makeRep .solid lb ub) := by
  rw [Outline.makeRep]
  split_ifs with h0 h1
  · exact ⟨_, rfl, over_emptySeq, by simp [Tidy], rfl⟩
  · exact ⟨_, rfl, hre, ht, ho⟩
  · refine ⟨_, rfl, .rep hre hb, ?_, by rw [outline, ho]⟩
    rw [Tidy, ho]
    exact ⟨ht, by rintro ⟨⟩, by rintro ⟨⟩⟩

/-- Outside the defects the result has the outline that that of the operand gives. -/
theorem makeRep_shaped (hre : Over a re) (ht : Tidy re) (hb : Bounds lb ub)
    (hsafe : RepSafe re.outline lb ub) :
    Shaped a (makeRep re lb ub) (re.outline.makeRep lb ub) := by
  rw [makeRep, makeRepFuel_eq 1 hb]
  by_cases hset : re.isEmptySet = true
  · have ho := outline_nothing_iff.2 hset
    rw [if_pos (.inl hset), ho]
    exact ⟨re, rfl, hre, ht, ho⟩
  by_cases hseq : re.isEmptySeq = true
  · have ho := isEmptySeq_iff_outline.1 hseq
    rw [if_pos (.inr hseq), ho]
    exact ⟨re, rfl, hre, ht, ho⟩
  rw [if_neg (by simp [hset, hseq])]
  cases hre with
  | rep hr hb₀ => exact shaped_repeatRep hr hb₀ hb ht hsafe
  | cc hc =>
    rw [hc.outline]
    exact shaped_plain (.cc hc) ht hb hc.outline
  | @alt elems h =>
    cases elems with
    | nil => exact absurd rfl hset
    | cons => exact shaped_plain (.alt h) ht hb rfl
  | @seq elems h =>
    cases elems with
    | nil => exact absurd rfl hseq
    | cons => exact shaped_plain (.seq h) ht hb rfl
  | name n h => exact shaped_plain (.name n h) ht hb rfl

end Shape

end Parabix.RE
