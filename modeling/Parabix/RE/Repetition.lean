import Parabix.RE.Constructors

namespace Parabix.RE

open Library Library.Powers UCD

section Counts

variable {l u lb ub : ℤ}

theorem counts_nat (a b : ℕ) : counts a b = Set.Icc a b := by
  ext n
  simp only [counts, Set.mem_ofPred_eq, Set.mem_Icc, UNBOUNDED_REP]
  omega

theorem counts_unbounded (a : ℕ) : counts a UNBOUNDED_REP = Set.Ici a := by
  ext n
  simp [counts]

theorem Bounds.cases (h : Bounds lb ub) :
    ∃ a : ℕ, lb = a ∧ (ub = UNBOUNDED_REP ∨ ∃ b : ℕ, ub = b ∧ a ≤ b) := by
  obtain ⟨a, rfl⟩ := Int.eq_ofNat_of_zero_le h.nonneg
  refine ⟨a, rfl, ?_⟩
  obtain hub | hle := h.le
  · exact .inl hub
  · obtain ⟨b, rfl⟩ := Int.eq_ofNat_of_zero_le (h.nonneg.trans hle)
    exact .inr ⟨b, rfl, by omega⟩

theorem nat_ne_unbounded (a : ℕ) : (a : ℤ) ≠ UNBOUNDED_REP := by
  rw [UNBOUNDED_REP]
  omega

/-- The upper bound of `combineRep`. -/
def combinedUB (u ub : ℤ) : ℤ :=
  if u = UNBOUNDED_REP ∨ ub = UNBOUNDED_REP then UNBOUNDED_REP else u * ub

/-- Repetitions of `l` to `u` leave no gap from `lb` of them on. -/
def Gapless (l u lb ub : ℤ) : Prop :=
  ∀ k : ℤ, lb ≤ k → (ub = UNBOUNDED_REP ∨ k < ub) → l * (k + 1) ≤ u * k + 1

/-- The bounds of repetitions of a repetition can be multiplied. -/
theorem multiples_counts (hb : Bounds l u) (hb' : Bounds lb ub)
    (hzero : u = UNBOUNDED_REP → lb ≠ 0) (hgap : u ≠ UNBOUNDED_REP → Gapless l u lb ub)
    (hpos : ub = UNBOUNDED_REP → u ≠ 0) :
    multiples (counts l u) (counts lb ub) = counts (l * lb) (combinedUB u ub) := by
  obtain ⟨l, rfl, hu⟩ := hb.cases
  obtain ⟨lb, rfl, hub⟩ := hb'.cases
  rw [combinedUB, ← Int.natCast_mul]
  obtain rfl | ⟨u, rfl, hlu⟩ := hu
  · have hlb : 0 < lb := by
      have := hzero rfl
      omega
    rw [if_pos (.inl rfl), counts_unbounded, counts_unbounded]
    apply multiples_Ici hlb
    · exact ⟨le_rfl, by simpa using hb'.le⟩
    · intro k hk
      exact Int.ofNat_le.1 hk.1
  · have hgap := hgap (nat_ne_unbounded u)
    rw [counts_nat]
    obtain rfl | ⟨ub, rfl, hle⟩ := hub
    · rw [if_pos (.inr rfl), counts_unbounded, counts_unbounded]
      apply multiples_Icc_Ici hlu
      · have := hpos rfl
        omega
      · intro k hk
        have := hgap k (by omega) (.inl rfl)
        exact_mod_cast this
    · rw [if_neg (by simp [nat_ne_unbounded]), ← Int.natCast_mul, counts_nat, counts_nat]
      apply multiples_Icc hlu hle
      intro k h1 h2
      have := hgap k (by omega) (.inr (by omega))
      exact_mod_cast this

/-- From `n` repetitions on there are no gaps. -/
theorem gapless_of_le (hb : Bounds l u) (hlt : l < u) (hn : (u - 2).tdiv (u - l) ≤ lb)
    (hnonneg : 0 ≤ lb) : Gapless l u lb ub := by
  intro k hk _
  have hl := hb.nonneg
  have hlast : u - 2 < (u - l) * (k + 1) := by
    by_cases h2 : 2 ≤ u
    · rw [Int.tdiv_eq_ediv_of_nonneg (by omega)] at hn
      have := Int.lt_mul_ediv_self_add (x := u - 2) (k := u - l) (by omega)
      have hmul : (u - l) * ((u - 2) / (u - l)) ≤ (u - l) * k :=
        Int.mul_le_mul_of_nonneg_left (by omega) (by omega)
      rw [Int.mul_add]
      omega
    · have hmul : 0 ≤ (u - l) * k := Int.mul_nonneg (by omega) (by omega)
      rw [Int.mul_add]
      omega
  have hexpand : (u - l) * (k + 1) = u * k + u - l * (k + 1) := by
    rw [Int.sub_mul, Int.mul_add u]
    omega
  omega

end Counts

section Outline

/-- What the constructors see of an expression. -/
inductive Outline where
  | nothing
  | empty
  | solid
  | rep (inner : Outline) (lb ub : ℤ)

def outline : RE → Outline
  | alt [] => .nothing
  | cc c => if c.set.empty then .nothing else .solid
  | seq [] => .empty
  | rep re lb ub => .rep re.outline lb ub
  | _ => .solid

def FitsInt (a b : ℤ) : Prop := -2 ^ 31 ≤ a * b ∧ a * b < 2 ^ 31

/-- The products of `combineRep` are of the type `int`. -/
def Combines (l u lb ub : ℤ) : Prop :=
  FitsInt l lb ∧ (u ≠ UNBOUNDED_REP → ub ≠ UNBOUNDED_REP → FitsInt u ub)

/-- `makeRep` returns the repetitions within the bounds. -/
def RepSafe : Outline → ℤ → ℤ → Prop
  | .nothing, lb, _ => lb ≠ 0
  | .empty, _, _ => True
  | .solid, _, _ => True
  | .rep _ l u, lb, ub =>
    if lb = ub then
      Combines l u lb ub ∧ (u = UNBOUNDED_REP → lb ≠ 0)
    else if u = UNBOUNDED_REP then
      2 ≤ l → lb ≠ 0 → FitsInt l lb
    else if l < u then
      let n := (u - 2).tdiv (u - l)
      if n ≤ lb then
        Combines l u lb ub
      else if ub = UNBOUNDED_REP ∨ n ≤ ub then
        n ≠ 1 ∧ Combines l u n ub ∧ (lb = n - 1 → Combines l u lb lb)
      else
        True
    else
      True

end Outline

section Repeats

variable {K : Type*} [CompleteBooleanAlgebra K] [Monoid K] [IsQuantale K] {M : Meaning K}
  {re : RE} {l u lb ub : ℤ}

theorem mulInt_ok {a b : ℤ} (h : FitsInt a b) : mulInt a b = .ok (a * b) := if_pos h

theorem ubCombine_ok {a b : ℤ} (h : a ≠ UNBOUNDED_REP → b ≠ UNBOUNDED_REP → FitsInt a b) :
    ubCombine a b = .ok (combinedUB a b) := by
  rw [ubCombine, combinedUB]
  split_ifs with hor
  · rfl
  · rw [not_or] at hor
    exact mulInt_ok (h hor.1 hor.2)

theorem combineRep_ok (h : Combines l u lb ub) :
    combineRep re l u lb ub = .ok (rep re (l * lb) (combinedUB u ub)) := by
  rw [combineRep, mulInt_ok h.1, ok_bind, ubCombine_ok h.2, ok_bind, pure_eq_ok]

theorem bounds_combine (hb : Bounds l u) (hb' : Bounds lb ub) (h : Combines l u lb ub) :
    Bounds (l * lb) (combinedUB u ub) := by
  have hl := hb.nonneg
  have hlb := hb'.nonneg
  rw [combinedUB]
  refine ⟨Int.mul_nonneg hl hlb, h.1.2, ?_, ?_⟩
  · split_ifs with hor
    · exact .inl rfl
    · rw [not_or] at hor
      have h1 := hb.le.resolve_left hor.1
      have h2 := hb'.le.resolve_left hor.2
      exact .inr (Int.mul_le_mul h1 h2 hlb (by omega))
  · split_ifs with hor
    · rw [UNBOUNDED_REP]
      omega
    · rw [not_or] at hor
      exact (h.2 hor.1 hor.2).2

/-- A repetition of a repetition as one, where the sums of counts are the counts. -/
theorem repeats_of_counts {lb' ub' : ℤ} (hre : re.Valid) (hb : Bounds lb' ub')
    (h : multiples (counts l u) (counts lb ub) = counts lb' ub') :
    Repeats M (rep re l u) lb ub (.ok (rep re lb' ub')) := by
  refine ⟨_, rfl, .rep hre hb, ?_⟩
  rw [denote, denote, powers_powers, h]

omit [IsQuantale K] in
theorem repeats_self (hre : re.Valid) (hb : Bounds lb ub) :
    Repeats M re lb ub (.ok (rep re lb ub)) :=
  ⟨_, rfl, .rep hre hb, by rw [denote]⟩

theorem repeats_combine (hre : re.Valid) (hb : Bounds l u) (hb' : Bounds lb ub)
    (h : Combines l u lb ub) (hzero : u = UNBOUNDED_REP → lb ≠ 0)
    (hgap : u ≠ UNBOUNDED_REP → Gapless l u lb ub) (hpos : ub = UNBOUNDED_REP → u ≠ 0) :
    Repeats M (rep re l u) lb ub (combineRep re l u lb ub) := by
  rw [combineRep_ok h]
  exact repeats_of_counts hre (bounds_combine hb hb' h) (multiples_counts hb hb' hzero hgap hpos)

/-- The same number of repetitions leaves no gap. -/
theorem repeats_combine_same (hre : re.Valid) (hb : Bounds l u) (hb' : Bounds lb lb)
    (h : Combines l u lb lb) (hzero : u = UNBOUNDED_REP → lb ≠ 0) :
    Repeats M (rep re l u) lb lb (combineRep re l u lb lb) := by
  have hlb := hb'.nonneg
  apply repeats_combine hre hb hb' h hzero
  · intro _ k h1 h2
    rw [UNBOUNDED_REP] at h2
    omega
  · intro h
    rw [UNBOUNDED_REP] at h
    omega

theorem multiples_Ici_zero {t : Set ℕ} (h0 : 0 ∈ t) (h1 : 1 ∈ t) (l : ℕ) :
    multiples (Set.Ici l) t = {0} ∪ Set.Ici l := by
  have hsplit : t = {0} ∪ t \ {0} := by
    rw [Set.union_sdiff_cancel]
    simpa using h0
  have hleast : ∀ k ∈ t \ {0}, 1 ≤ k := fun k hk ↦ Nat.one_le_iff_ne_zero.2 hk.2
  have hone : 1 ∈ t \ {0} := ⟨h1, by simp⟩
  rw [hsplit, multiples_union, multiples_zero, multiples_Ici Nat.one_pos hone hleast, Nat.mul_one]

theorem bounds_unbounded (hlb : 0 ≤ lb) (hlt : lb < 2 ^ 31) : Bounds lb UNBOUNDED_REP :=
  ⟨hlb, hlt, .inl rfl, by decide⟩

theorem multiples_unbounded_pos (hb : Bounds l UNBOUNDED_REP) (hb' : Bounds lb ub) (h0 : lb ≠ 0) :
    multiples (counts l UNBOUNDED_REP) (counts lb ub) = counts (l * lb) UNBOUNDED_REP :=
  multiples_counts hb hb' (fun _ ↦ h0) (fun h ↦ absurd rfl h) fun _ h ↦ by cases h

/-- A repetition without an upper bound that may be left out. -/
theorem multiples_unbounded_optional (hb : Bounds l UNBOUNDED_REP) (hb' : Bounds 0 ub)
    (hne : 0 ≠ ub) :
    multiples (counts l UNBOUNDED_REP) (counts 0 ub) = {0} ∪ counts l UNBOUNDED_REP := by
  obtain ⟨k, rfl⟩ := Int.eq_ofNat_of_zero_le hb.nonneg
  have hle := hb'.le
  have hzero : ub = UNBOUNDED_REP ∨ (0 : ℤ) ≤ ub := by omega
  have hone : ub = UNBOUNDED_REP ∨ (1 : ℤ) ≤ ub := by omega
  rw [counts_unbounded]
  apply multiples_Ici_zero
  · exact ⟨le_rfl, hzero⟩
  · exact ⟨by decide, hone⟩

theorem multiples_unbounded_zero (hb' : Bounds lb ub) (hne : lb ≠ ub) :
    multiples (counts 0 UNBOUNDED_REP) (counts lb ub) = counts 0 UNBOUNDED_REP := by
  have hb : Bounds 0 UNBOUNDED_REP := bounds_unbounded le_rfl (by decide)
  by_cases hz : lb = 0
  · subst hz
    rw [multiples_unbounded_optional hb hb' hne]
    ext n
    simp [counts]
  · rw [multiples_unbounded_pos hb hb' hz, Int.zero_mul]

theorem multiples_unbounded_one (hb' : Bounds lb ub) (hne : lb ≠ ub) :
    multiples (counts 1 UNBOUNDED_REP) (counts lb ub) = counts lb UNBOUNDED_REP := by
  have hb : Bounds 1 UNBOUNDED_REP := bounds_unbounded (by decide) (by decide)
  by_cases hz : lb = 0
  · subst hz
    rw [multiples_unbounded_optional hb hb' hne]
    ext n
    simp only [counts, Set.mem_union, Set.mem_singleton_iff, Set.mem_ofPred_eq, true_or, and_true]
    omega
  · rw [multiples_unbounded_pos hb hb' hz, Int.one_mul]

/-- Repetitions without an upper bound. -/
theorem repeats_unbounded {makeRep : RE → ℤ → ℤ → Except Fault RE} (hre : re.Valid)
    (hb : Bounds l UNBOUNDED_REP) (hb' : Bounds lb ub) (hne : lb ≠ ub)
    (hsafe : 2 ≤ l → lb ≠ 0 → FitsInt l lb) :
    Repeats M (rep re l UNBOUNDED_REP) lb ub
      (repeatRep makeRep re l UNBOUNDED_REP lb ub) := by
  have hl := hb.nonneg
  have hlb := hb'.nonneg
  rw [repeatRep, if_neg hne, if_pos rfl]
  split_ifs with h0 h1 hz
  · subst h0
    exact repeats_of_counts hre hb (multiples_unbounded_zero hb' hne)
  · subst h1
    exact repeats_of_counts hre (bounds_unbounded hlb hb'.lt) (multiples_unbounded_one hb' hne)
  · subst hz
    have hone : Bounds 0 1 := ⟨le_rfl, by decide, .inr (by decide), by decide⟩
    refine ⟨_, rfl, .rep (.rep hre hb) hone, ?_⟩
    rw [denote, denote, powers_powers, powers_powers, multiples_unbounded_optional hb hb' hne,
      multiples_unbounded_optional hb hone (by decide)]
  · have hfits := hsafe (by omega) hz
    rw [mulInt_ok hfits, ok_bind, pure_eq_ok]
    exact repeats_of_counts hre (bounds_unbounded (Int.mul_nonneg hl hlb) hfits.2)
      (multiples_unbounded_pos hb hb' hz)

/-- Fewer repetitions than those from which on there are no gaps. -/
theorem repeats_below {makeRep : RE → ℤ → ℤ → Except Fault RE} (hre : re.Valid)
    (hb : Bounds l u) (hb' : Bounds lb ub) (hu : u ≠ UNBOUNDED_REP) (hlt : l < u)
    (hub : ub ≠ UNBOUNDED_REP) (hn : ub < (u - 2).tdiv (u - l))
    (hsafe : lb = ub → Combines l u lb lb) :
    Repeats M (rep re l u) lb ub (repeatRep makeRep re l u lb ub) := by
  have hle := hb'.le.resolve_left hub
  by_cases heq : lb = ub
  · subst heq
    rw [repeatRep, if_pos rfl]
    exact repeats_combine_same hre hb hb' (hsafe rfl) fun h ↦ absurd h hu
  · have h1 : ¬(u - 2).tdiv (u - l) ≤ lb := by omega
    have h2 : ¬(ub = UNBOUNDED_REP ∨ (u - 2).tdiv (u - l) ≤ ub) := by omega
    rw [repeatRep, if_neg heq, if_neg hu, if_pos hlt]
    simp only [if_neg h1, if_neg h2]
    exact repeats_self (.rep hre hb) hb'

theorem makeRepFuel_eq (fuel : ℕ) (hb : Bounds lb ub) : makeRepFuel (fuel + 1) re lb ub =
    if re.isEmptySet ∨ re.isEmptySeq then .ok re else repeatNode (makeRepFuel fuel) re lb ub := by
  have h1 := hb.nonneg
  have h2 := hb.le
  rw [makeRepFuel, if_neg (by rw [UNBOUNDED_REP]; omega), if_neg (by omega)]

theorem makeRepFuel_rep (fuel : ℕ) (hb : Bounds lb ub) : makeRepFuel (fuel + 1) (rep re l u) lb ub =
    repeatRep (makeRepFuel fuel) re l u lb ub := by
  rw [makeRepFuel_eq fuel hb, if_neg (by simp [isEmptySet, isEmptySeq]), repeatNode]

theorem counts_split {n : ℤ} (h1 : lb ≤ n) (h2 : ub = UNBOUNDED_REP ∨ n - 1 ≤ ub)
    (h3 : n - 1 ≠ UNBOUNDED_REP) : counts lb ub = counts n ub ∪ counts lb (n - 1) := by
  ext k
  simp only [counts, Set.mem_union, Set.mem_ofPred_eq]
  omega

/-- The fewest repetitions without gaps, where there are more than none. -/
theorem fewest_pos (hb : Bounds l u) (hlt : l < u) (hn : 0 < (u - 2).tdiv (u - l)) :
    0 < l ∧ (u - 2).tdiv (u - l) ≤ u - 2 := by
  have hl := hb.nonneg
  have h2 : 2 ≤ u := by
    by_contra h
    obtain rfl : u = 1 := by omega
    obtain rfl : l = 0 := by omega
    exact absurd hn (by decide)
  rw [Int.tdiv_eq_ediv_of_nonneg (by omega)] at hn ⊢
  constructor
  · by_contra h
    rw [show l = 0 by omega, Int.sub_zero, Int.ediv_eq_zero_of_lt (by omega) (by omega)] at hn
    omega
  · exact Int.ediv_le_self _ (by omega)

omit [IsQuantale K] in
theorem altReady_of_ne {makeRep : RE → ℤ → ℤ → Except Fault RE} (h : lb ≠ 0) :
    AltReady M makeRep (rep re lb ub) := by
  intro r ub' he
  cases he
  exact absurd rfl h

/-- The split at the fewest repetitions from which on there are no gaps. -/
theorem repeats_split (hre : re.Valid) (hb : Bounds l u) (hb' : Bounds lb ub)
    (hu : u ≠ UNBOUNDED_REP) (hlt : l < u) {n : ℤ} (hn : n = (u - 2).tdiv (u - l)) (hlb : lb < n)
    (hub : ub = UNBOUNDED_REP ∨ n ≤ ub) (hne : n ≠ 1) (hsafe : Combines l u n ub)
    (hsafe' : lb = n - 1 → Combines l u lb lb) :
    Repeats M (rep re l u) lb ub (do
      let r1 ← combineRep re l u n ub
      let r2 ← makeRepFuel 1 (rep re l u) lb (n - 1)
      makeAltWith (makeRepFuel 1) [r1, r2]) := by
  have h0 := hb'.nonneg
  have hu' := hb.lt'
  have hl' := hb.lt
  obtain ⟨hl, hsmall⟩ := fewest_pos hb hlt (hn ▸ by omega)
  rw [← hn] at hsmall
  have hfinite : n - 1 ≠ UNBOUNDED_REP := by rw [UNBOUNDED_REP]; omega
  have hbn : Bounds n ub := ⟨by omega, by omega, hub, hb'.lt'⟩
  have hbelow (a : ℤ) (h1 : 0 ≤ a) (h2 : a ≤ n - 1) : Bounds a (n - 1) :=
    ⟨h1, by omega, .inr h2, by omega⟩
  obtain ⟨r1, he1, hv1, hd1⟩ := repeats_combine (M := M) hre hb hbn hsafe (fun h ↦ absurd h hu)
    (fun _ ↦ gapless_of_le hb hlt (by omega) (by omega)) (fun _ ↦ by omega)
  have hready1 : AltReady M (makeRepFuel 1) r1 := by
    rw [combineRep_ok hsafe, Except.ok.injEq] at he1
    rw [← he1]
    exact altReady_of_ne (Int.mul_ne_zero (by omega) (by omega))
  have hrec (a : ℤ) (h1 : 0 ≤ a) (h2 : a ≤ n - 1) (h3 : a = n - 1 → Combines l u a a) :
      Repeats M (rep re l u) a (n - 1) (makeRepFuel 1 (rep re l u) a (n - 1)) := by
    rw [makeRepFuel_rep 0 (hbelow a h1 h2)]
    exact repeats_below hre hb (hbelow a h1 h2) hu hlt hfinite (by omega) h3
  obtain ⟨r2, he2, hv2, hd2⟩ := hrec lb h0 (by omega) hsafe'
  have hready2 : AltReady M (makeRepFuel 1) r2 := by
    rw [makeRepFuel_rep 0 (hbelow lb h0 (by omega)), repeatRep] at he2
    by_cases hlast : lb = n - 1
    · rw [if_pos hlast, ← hlast, combineRep_ok (hsafe' hlast), Except.ok.injEq] at he2
      rw [← he2]
      exact altReady_of_ne (Int.mul_ne_zero (by omega) (by omega))
    · rw [if_neg hlast, if_neg hu, if_pos hlt] at he2
      simp only [← hn, if_neg (show ¬n ≤ lb by omega),
        if_neg (show ¬(n - 1 = UNBOUNDED_REP ∨ n ≤ n - 1) by omega), Except.ok.injEq] at he2
      intro r ub' hr2
      rw [← he2] at hr2
      cases hr2
      apply hrec 1 (by decide) (by omega)
      intro _
      exact ⟨by rw [FitsInt]; omega, fun _ _ ↦ by rw [FitsInt]; omega⟩
  obtain ⟨e, he, hv, hd⟩ := @makeAltWith_spec _ _ _ M [r1, r2] (makeRepFuel 1) (by simp [hv1, hv2])
    (by simp [hready1, hready2])
  refine ⟨e, ?_, hv, ?_⟩
  · rw [he1, ok_bind, he2, ok_bind, he]
  · have hsplit : counts lb ub = counts n ub ∪ counts lb (n - 1) :=
      counts_split hlb.le (by omega) hfinite
    rw [hd, denoteAlt, denoteAlt_singleton, hd1, hd2, hsplit, powers_union]

theorem repeats_rep (hre : re.Valid) (hb : Bounds l u) (hb' : Bounds lb ub)
    (hsafe : RepSafe (.rep re.outline l u) lb ub) :
    Repeats M (rep re l u) lb ub (makeRep (rep re l u) lb ub) := by
  have hl := hb.nonneg
  have hlb := hb'.nonneg
  rw [makeRep, makeRepFuel_rep 1 hb']
  rw [RepSafe] at hsafe
  by_cases heq : lb = ub
  · subst heq
    rw [if_pos rfl] at hsafe
    rw [repeatRep, if_pos rfl]
    exact repeats_combine_same hre hb hb' hsafe.1 hsafe.2
  rw [if_neg heq] at hsafe
  by_cases hu : u = UNBOUNDED_REP
  · subst hu
    rw [if_pos rfl] at hsafe
    exact repeats_unbounded hre hb hb' heq hsafe
  rw [if_neg hu] at hsafe
  by_cases hlt : l < u
  · rw [if_pos hlt] at hsafe
    rw [repeatRep, if_neg heq, if_neg hu, if_pos hlt]
    simp only at hsafe ⊢
    split_ifs at hsafe ⊢ with h1 h2
    · exact repeats_combine hre hb hb' hsafe (fun h ↦ absurd h hu)
        (fun _ ↦ gapless_of_le hb hlt h1 hlb) fun _ ↦ by omega
    · exact repeats_split hre hb hb' hu hlt rfl (by omega) h2 hsafe.1 hsafe.2.1 hsafe.2.2
    · exact repeats_self (.rep hre hb) hb'
  · rw [repeatRep, if_neg heq, if_neg hu, if_neg hlt]
    exact repeats_self (.rep hre hb) hb'

omit [IsQuantale K] in
/-- A repetition of an expression of any other kind. -/
theorem repeats_plain (hre : re.Valid) (hb : Bounds lb ub) : Repeats M re lb ub
    (if lb = 0 ∧ ub = 0 then .ok (seq []) else if lb = 1 ∧ ub = 1 then .ok re
      else .ok (rep re lb ub)) := by
  split_ifs with h0 h1
  · obtain ⟨rfl, rfl⟩ := h0
    refine ⟨_, rfl, .seq (List.forall_mem_nil _), ?_⟩
    rw [show counts 0 0 = Set.Icc 0 0 from counts_nat 0 0, Set.Icc_self, powers_singleton, pow_zero,
      denote, denoteSeq]
  · obtain ⟨rfl, rfl⟩ := h1
    refine ⟨_, rfl, hre, ?_⟩
    rw [show counts 1 1 = Set.Icc 1 1 from counts_nat 1 1, Set.Icc_self, powers_singleton, pow_one]
  · exact repeats_self hre hb

theorem mem_counts_lb (hb : Bounds lb ub) : lb.toNat ∈ counts lb ub := by
  have h1 := hb.nonneg
  have h2 := hb.le
  simp only [counts, Set.mem_ofPred_eq]
  omega

theorem repeats_emptySet (hre : re.Valid) (h : re.isEmptySet = true) (hb : Bounds lb ub)
    (hlb : lb ≠ 0) : Repeats M re lb ub (.ok re) := by
  refine ⟨re, rfl, hre, ?_⟩
  have hnot : 0 ∉ counts lb ub := by
    intro hzero
    have := hb.nonneg
    exact hlb (le_antisymm hzero.1 this)
  rw [denote_emptySet hre h, powers_idem (Quantale.bot_mul) (mem_counts_lb hb) hnot]

omit [IsQuantale K] in
theorem repeats_emptySeq (hre : re.Valid) (h : re.isEmptySeq = true) (hb : Bounds lb ub) :
    Repeats M re lb ub (.ok re) := by
  refine ⟨re, rfl, hre, ?_⟩
  rw [denote_emptySeq h, powers_one (mem_counts_lb hb)]

theorem repeats_assertion {asserted : RE} (kind : Kind) (sense : Sense)
    (hre : (assertion asserted kind sense).Valid) (hb : Bounds lb ub) :
    Repeats M (assertion asserted kind sense) lb ub
      (.ok (if 0 < lb then assertion asserted kind sense else seq [])) := by
  have hmem := mem_counts_lb hb
  have hlb := hb.nonneg
  split_ifs with hpos
  · refine ⟨_, rfl, hre, ?_⟩
    have hnot : 0 ∉ counts lb ub := by
      intro hzero
      have := hzero.1
      omega
    rw [denote, powers_idem (M.assertion_mul_self ..) hmem hnot]
  · refine ⟨_, rfl, .seq (List.forall_mem_nil _), ?_⟩
    rw [show lb.toNat = 0 by omega] at hmem
    simp only [denote, denoteSeq, powers_of_le_one (M.assertion_le ..) hmem]

theorem outline_nothing_iff : re.outline = .nothing ↔ re.isEmptySet = true := by
  cases re with
  | alt elems => cases elems <;> simp [outline, isEmptySet]
  | cc c => simp [outline, isEmptySet]
  | seq elems => cases elems <;> simp [outline, isEmptySet]
  | _ => simp [outline, isEmptySet]

/-- Outside the defects the expression for the repetitions is returned. -/
theorem makeRep_repeats (hre : re.Valid) (hb : Bounds lb ub) (hsafe : RepSafe re.outline lb ub) :
    Repeats M re lb ub (makeRep re lb ub) := by
  rw [makeRep, makeRepFuel_eq 1 hb]
  by_cases hset : re.isEmptySet = true
  · rw [if_pos (.inl hset)]
    rw [outline_nothing_iff.2 hset] at hsafe
    exact repeats_emptySet hre hset hb hsafe
  by_cases hseq : re.isEmptySeq = true
  · rw [if_pos (.inr hseq)]
    exact repeats_emptySeq hre hseq hb
  rw [if_neg (by simp [hset, hseq])]
  cases hre with
  | @rep r l u hr hb₀ =>
    rw [repeatNode, ← makeRepFuel_rep 1 hb]
    exact repeats_rep hr hb₀ hb hsafe
  | assertion kind sense h => exact repeats_assertion kind sense (.assertion kind sense h) hb
  | _ => exact repeats_plain (by constructor <;> assumption) hb

end Repeats

end Parabix.RE
