import Parabix.RE.StarNormal

namespace Parabix.RE

open Library Library.Powers Library.Encoding UCD

/-- The new node for an expression, if it is changed. -/
abbrev Transformed := Except Fault (Option RE)

/-- The functions that a transformation may override. Those for nodes with parts are given what
becomes of the parts. -/
structure RE_Transformer where
  transformAny : Transformed
  transformCC : CC → Transformed
  transformName : String → RE → Transformed → Transformed
  transformStart : Transformed
  transformEnd : Transformed
  transformSeq : List (RE × Transformed) → Transformed
  transformRep : RE → Transformed → ℤ → ℤ → Transformed
  transformAssertion : RE → Transformed → Kind → Sense → Transformed
  transformOther : ℕ → Transformed

namespace RE_Transformer

/-- The elements of the new node, and whether one was changed. -/
def changed : List (RE × Transformed) → Except Fault (List RE × Bool)
  | [] => return ([], false)
  | (e, t) :: items => do
    let e1 ← t
    let (elems1, any_changed) ← changed items
    return (e1.getD e :: elems1, e1.isSome || any_changed)

def defaultSeq (items : List (RE × Transformed)) : Transformed := do
  let (elems1, any_changed) ← changed items
  if any_changed then return some (makeSeq elems1) else return none

def defaultRep (_ : RE) (t : Transformed) (lb ub : ℤ) : Transformed := do
  match ← t with
  | none => return none
  | some x => return some (← makeRep x lb ub)

def defaultAssertion (_ : RE) (t : Transformed) (k : Kind) (s : Sense) : Transformed := do
  match ← t with
  | none => return none
  | some x => return some (← makeAssertion x k s)

/-- What a transformation does that overrides nothing. A Name is not looked into. -/
def base : RE_Transformer where
  transformAny := .ok none
  transformCC _ := .ok none
  transformName _ _ _ := .ok none
  transformStart := .ok none
  transformEnd := .ok none
  transformSeq := defaultSeq
  transformRep := defaultRep
  transformAssertion := defaultAssertion
  transformOther _ := .ok none

section Transform

variable (T : RE_Transformer) (same : RE → RE → Bool)

mutual

def transform : RE → Transformed
  | alt elems => do
    let (elems1, any_changed) ← changed (transformItems elems)
    if any_changed then return some (← makeAlt elems1) else return none
  | any => T.transformAny
  | assertion asserted k s => T.transformAssertion asserted (transform asserted) k s
  | cc c => T.transformCC c
  | diff x0 y0 => do
    let x ← transform x0
    let y ← transform y0
    if x.isSome || y.isSome then
      return some (← makeDiff same (x.getD x0) (y.getD y0))
    else
      return none
  | intersect x0 y0 => do
    let x ← transform x0
    let y ← transform y0
    if x.isSome || y.isSome then
      return some (← makeIntersect same (x.getD x0) (y.getD y0))
    else
      return none
  | name n definition => T.transformName n definition (transform definition)
  | rep re lb ub => T.transformRep re (transform re) lb ub
  | seq elems => T.transformSeq (transformItems elems)
  | start => T.transformStart
  | stop => T.transformEnd
  | other node => T.transformOther node

def transformItems : List RE → List (RE × Transformed)
  | [] => []
  | e :: elems => (e, transform e) :: transformItems elems

end

def transformRE (re : RE) : Except Fault RE := do
  return (← T.transform same re).getD re

theorem transformItems_eq (elems : List RE) :
    T.transformItems same elems = elems.map fun e ↦ (e, T.transform same e) := by
  induction elems with
  | nil => rfl
  | cons e elems ih => rw [transformItems, ih, List.map_cons]

end Transform

section Languages

/-- A function of languages that the operations of expressions commute with. -/
structure Commutes (Φ : Language ℕ → Language ℕ) : Prop where
  bot : Φ ⊥ = ⊥
  one : Φ 1 = 1
  sup (x y : Language ℕ) : Φ (x ⊔ y) = Φ x ⊔ Φ y
  sdiff (x y : Language ℕ) : Φ (x \ y) = Φ x \ Φ y
  inf (x y : Language ℕ) : Φ (x ⊓ y) = Φ x ⊓ Φ y
  mul (x y : Language ℕ) : Φ (x * y) = Φ x * Φ y
  powers (x : Language ℕ) (s : Set ℕ) : Φ (powers x s) = powers (Φ x) s

theorem commutes_id : Commutes id :=
  ⟨rfl, rfl, fun _ _ ↦ rfl, fun _ _ ↦ rfl, fun _ _ ↦ rfl, fun _ _ ↦ rfl, fun _ _ ↦ rfl⟩

variable {T : RE_Transformer} {same : RE → RE → Bool} {M : Meaning (Language ℕ)}
variable {Φ : Language ℕ → Language ℕ} {e lh rh : RE} {elems : List RE} {lb ub : ℤ}

/-- The new node, or the old one, has the meaning that `Φ` makes of that of the old one. -/
def Makes (M : Meaning (Language ℕ)) (Φ : Language ℕ → Language ℕ) (e : RE) (t : Transformed) :
    Prop :=
  ∃ o, t = .ok o ∧ (o.getD e).Valid ∧ denote M (o.getD e) = Φ (denote M e)

theorem makes_none (hv : e.Valid) (h : denote M e = Φ (denote M e)) : Makes M Φ e (.ok none) :=
  ⟨none, rfl, hv, h⟩

theorem makes_some {r : RE} (hv : r.Valid) (h : denote M r = Φ (denote M e)) :
    Makes M Φ e (.ok (some r)) := ⟨some r, rfl, hv, h⟩

theorem changed_spec (hΦ : Commutes Φ) (h : ∀ e ∈ elems, Makes M Φ e (T.transform same e)) :
    ∃ elems1 any_changed, changed (T.transformItems same elems) = .ok (elems1, any_changed) ∧
      (∀ e ∈ elems1, e.Valid) ∧ denoteAlt M elems1 = Φ (denoteAlt M elems) ∧
        denoteSeq M elems1 = Φ (denoteSeq M elems) ∧ (any_changed = false → elems1 = elems) := by
  induction elems with
  | nil =>
    refine ⟨[], false, rfl, List.forall_mem_nil _, ?_, ?_, fun _ ↦ rfl⟩
    · rw [denoteAlt, hΦ.bot]
    · rw [denoteSeq, hΦ.one]
  | cons e elems ih =>
    obtain ⟨⟨o, ho, hvalid, hdenote⟩, helems⟩ := List.forall_mem_cons.1 h
    obtain ⟨elems1, any_changed, htransform, hvalid1, halt, hseq, hsame⟩ := ih helems
    refine ⟨o.getD e :: elems1, o.isSome || any_changed, ?_, ?_, ?_, ?_, fun hnone ↦ ?_⟩
    · rw [transformItems, changed, ho, ok_bind, htransform, ok_bind]
      rfl
    · exact List.forall_mem_cons.2 ⟨hvalid, hvalid1⟩
    · rw [denoteAlt, denoteAlt, hdenote, halt, hΦ.sup]
    · rw [denoteSeq, denoteSeq, hdenote, hseq, hΦ.mul]
    · rw [Bool.or_eq_false_iff] at hnone
      rw [hsame hnone.2, Option.isNone_iff_eq_none.1 (Option.isSome_eq_false_iff.1 hnone.1)]
      rfl

theorem makes_alt (hΦ : Commutes Φ) (hv : (alt elems).Valid)
    (h : ∀ e ∈ elems, Makes M Φ e (T.transform same e))
    (hnew : ∀ elems1, changed (T.transformItems same elems) = .ok (elems1, true) →
      ∀ e ∈ elems1, Optional e) : Makes M Φ (alt elems) (T.transform same (alt elems)) := by
  obtain ⟨elems1, any_changed, htransform, hvalid1, halt, -, hsame⟩ := changed_spec hΦ h
  rw [transform, htransform, ok_bind]
  cases any_changed with
  | false =>
    refine makes_none hv ?_
    rw [denote, ← halt, hsame rfl]
  | true =>
    obtain ⟨r, hr, hvr, hdenote⟩ := makeAlt_spec (M := M) hvalid1 (hnew elems1 htransform)
    simp only [if_true, hr, ok_bind, pure_eq_ok]
    refine makes_some hvr ?_
    rw [hdenote, halt, denote]

theorem makes_defaultSeq (hΦ : Commutes Φ) (hv : (seq elems).Valid)
    (h : ∀ e ∈ elems, Makes M Φ e (T.transform same e)) :
    Makes M Φ (seq elems) (defaultSeq (T.transformItems same elems)) := by
  obtain ⟨elems1, any_changed, htransform, hvalid1, -, hseq, hsame⟩ := changed_spec hΦ h
  rw [defaultSeq, htransform, ok_bind]
  cases any_changed with
  | false =>
    refine makes_none hv ?_
    rw [denote, ← hseq, hsame rfl]
  | true =>
    refine makes_some (valid_makeSeq hvalid1) ?_
    rw [denote_makeSeq hvalid1, hseq, denote]

theorem makes_diff (hΦ : Commutes Φ) (hsame : ∀ a b, same a b = true → a = b)
    (hM : ∀ a s, M.cc a s = letters s) (hv : (diff lh rh).Valid)
    (hl : Makes M Φ lh (T.transform same lh)) (hr : Makes M Φ rh (T.transform same rh))
    (hnew : ∀ x y, T.transform same lh = .ok x → T.transform same rh = .ok y →
      (x.isSome || y.isSome) = true → DiffReady same M (x.getD lh) (y.getD rh)) :
    Makes M Φ (diff lh rh) (T.transform same (diff lh rh)) := by
  obtain ⟨x, hx, hvx, hdx⟩ := hl
  obtain ⟨y, hy, hvy, hdy⟩ := hr
  have hdenote : denote M (x.getD lh) \ denote M (y.getD rh) = Φ (denote M (diff lh rh)) := by
    rw [hdx, hdy, denote, hΦ.sdiff]
  rw [transform, hx, ok_bind, hy, ok_bind]
  cases hchanged : x.isSome || y.isSome with
  | false =>
    rw [Bool.or_eq_false_iff, Option.isSome_eq_false_iff, Option.isSome_eq_false_iff,
      Option.isNone_iff_eq_none, Option.isNone_iff_eq_none] at hchanged
    rw [hchanged.1, hchanged.2] at hdenote
    exact makes_none hv hdenote
  | true =>
    obtain ⟨r, hr, hd⟩ := (makeDiff_iff hsame hM hvx hvy).2 (hnew x y hx hy hchanged)
    simp only [if_true, hr, ok_bind, pure_eq_ok]
    exact makes_some (RE_Star_Normal.makeDiff_valid hvx hvy hr) (hd.trans hdenote)

theorem makes_intersect (hΦ : Commutes Φ) (hsame : ∀ a b, same a b = true → a = b)
    (hM : ∀ a s, M.cc a s = letters s) (hv : (intersect lh rh).Valid)
    (hl : Makes M Φ lh (T.transform same lh)) (hr : Makes M Φ rh (T.transform same rh))
    (hnew : ∀ x y, T.transform same lh = .ok x → T.transform same rh = .ok y →
      (x.isSome || y.isSome) = true → IntersectReady same M (x.getD lh) (y.getD rh)) :
    Makes M Φ (intersect lh rh) (T.transform same (intersect lh rh)) := by
  obtain ⟨x, hx, hvx, hdx⟩ := hl
  obtain ⟨y, hy, hvy, hdy⟩ := hr
  have hdenote : denote M (x.getD lh) ⊓ denote M (y.getD rh) = Φ (denote M (intersect lh rh)) := by
    rw [hdx, hdy, denote, hΦ.inf]
  rw [transform, hx, ok_bind, hy, ok_bind]
  cases hchanged : x.isSome || y.isSome with
  | false =>
    rw [Bool.or_eq_false_iff, Option.isSome_eq_false_iff, Option.isSome_eq_false_iff,
      Option.isNone_iff_eq_none, Option.isNone_iff_eq_none] at hchanged
    rw [hchanged.1, hchanged.2] at hdenote
    exact makes_none hv hdenote
  | true =>
    obtain ⟨r, hr, hd⟩ := (makeIntersect_iff hsame hM hvx hvy).2 (hnew x y hx hy hchanged)
    simp only [if_true, hr, ok_bind, pure_eq_ok]
    exact makes_some (RE_Star_Normal.makeIntersect_valid hvx hvy hr) (hd.trans hdenote)

theorem makes_defaultRep {t : Transformed} (hΦ : Commutes Φ) (hv : (rep e lb ub).Valid)
    (h : Makes M Φ e t) (hnew : ∀ x, t = .ok (some x) → RepSafe x.outline lb ub) :
    Makes M Φ (rep e lb ub) (defaultRep e t lb ub) := by
  obtain ⟨o, rfl, hvo, hdenote⟩ := h
  rw [defaultRep, ok_bind]
  cases o with
  | none =>
    refine makes_none hv ?_
    rw [denote, hΦ.powers]
    exact congrArg (powers · _) hdenote
  | some x =>
    cases hv with
    | rep _ hb =>
      obtain ⟨r, hr, hvr, hd⟩ := makeRep_repeats (M := M) hvo hb (hnew x rfl)
      simp only [Option.getD_some] at hr hd hdenote
      simp only [hr, ok_bind, pure_eq_ok]
      refine makes_some hvr ?_
      rw [hd, hdenote, denote, hΦ.powers]

theorem makes_defaultAssertion {t : Transformed} {k : Kind} {s : Sense} (hM : Strings M)
    (hv : (assertion e k s).Valid) (h : Makes M Φ e t)
    (hkeep : M.assertion k s (Φ (denote M e)) = Φ (M.assertion k s (denote M e))) :
    Makes M Φ (assertion e k s) (defaultAssertion e t k s) := by
  obtain ⟨o, rfl, hvo, hdenote⟩ := h
  rw [defaultAssertion, ok_bind]
  cases o with
  | none =>
    refine makes_none hv ?_
    rw [denote, ← hkeep]
    exact congrArg (M.assertion k s) hdenote
  | some x =>
    obtain ⟨r, hr, hvr, hd⟩ := RE_Star_Normal.makeAssertion_spec hM hvo k s
    simp only [Option.getD_some] at hr hd hdenote
    simp only [hr, ok_bind, pure_eq_ok]
    refine makes_some hvr ?_
    rw [hd, hdenote, hkeep, denote]

end Languages

end RE_Transformer

end Parabix.RE
