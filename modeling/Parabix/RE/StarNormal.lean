import Parabix.RE.SetOperations

namespace Parabix.RE

open Library Library.Powers Library.Encoding UCD

mutual

def isNullable : RE → Bool
  | seq elems => allNullable elems
  | alt elems => anyNullable elems
  | rep re lb _ => lb = 0 || isNullable re
  | intersect lh rh => isNullable lh && isNullable rh
  | _ => false

def allNullable : List RE → Bool
  | [] => true
  | e :: elems => isNullable e && allNullable elems

def anyNullable : List RE → Bool
  | [] => false
  | e :: elems => isNullable e || anyNullable elems

end

def makeAssertion (asserted : RE) (k : Kind) (s : Sense) : Except Fault RE :=
  if asserted.isEmptySet then
    if s = .Negative then .ok (makeSeq []) else makeAlt []
  else if asserted.isEmptySeq then
    if s = .Positive then .ok (makeSeq []) else makeAlt []
  else
    .ok (assertion asserted k s)

namespace RE_Star_Normal

/-- What an item of a sequence adds to the alternatives of a star. -/
def starItem : RE → List RE
  | rep re lb _ => if lb = 0 then [re] else []
  | r => if r.isEmptySeq then [] else [r]

/-- A sequence that is replaced. -/
def star_rule (re : RE) : Except Fault (Option RE) :=
  match re with
  | seq items =>
    if isNullable re then do
      return some (← makeAlt (items.flatMap starItem))
    else
      return none
  | _ => return none

/-- What is repeated any number of times is replaced. -/
def repeated (lb ub : ℤ) (e : RE) : Except Fault (Option RE) :=
  if lb = 0 ∧ ub = UNBOUNDED_REP then star_rule e else .ok none

section Transform

variable (same : RE → RE → Bool)

mutual

/-- The new node, if an expression is changed. -/
def transform : RE → Except Fault (Option RE)
  | alt elems => do
    let (elems1, any_changed) ← transformElems elems
    if any_changed then return some (← makeAlt elems1) else return none
  | seq elems => do
    let (elems1, any_changed) ← transformElems elems
    if any_changed then return some (makeSeq elems1) else return none
  | assertion x0 k s => do
    match ← transform x0 with
    | none => return none
    | some x => return some (← makeAssertion x k s)
  | diff x0 y0 => do
    let x ← transform x0
    let y ← transform y0
    if x.isSome || y.isSome then
      return some (← makeDiff same (x.getD x0) (y.getD y0))
    else
      return none
  | intersect x0 y0 => do
    let x ← transform x0
    let y ← transform y0
    if x.isSome || y.isSome then
      return some (← makeIntersect same (x.getD x0) (y.getD y0))
    else
      return none
  | rep e0 lb ub => do
    let e ← transform e0
    let starred ← repeated lb ub (e.getD e0)
    match starred.or e with
    | none => return none
    | some e => return some (← makeRep e lb ub)
  | _ => return none

def transformElems : List RE → Except Fault (List RE × Bool)
  | [] => return ([], false)
  | e :: elems => do
    let e1 ← transform e
    let (elems1, any_changed) ← transformElems elems
    return (e1.getD e :: elems1, e1.isSome || any_changed)

end

def convertToStarNormalForm (re : RE) : Except Fault RE := do
  return (← transform same re).getD re

end Transform

section Condition

variable (same : RE → RE → Bool) (M : Meaning (Language ℕ))

/-- The items of a sequence that is replaced: none is repeated at least once or not at all. -/
structure Starred (items : List RE) : Prop where
  bounds (re : RE) (lb ub : ℤ) (h : rep re lb ub ∈ items) : lb = 0 ∧ ub ≠ 0
  alternatives (e : RE) (h : e ∈ items.flatMap starItem) : Optional e

/-- The constructors that build the changed nodes again do it right, and so does the rule for the
sequences in a star. -/
inductive Ready : RE → Prop
  | alt {elems : List RE} (h : ∀ e ∈ elems, Ready e)
    (hnew : ∀ elems1, transformElems same elems = .ok (elems1, true) → ∀ e ∈ elems1, Optional e) :
    Ready (alt elems)
  | any : Ready any
  | assertion {x0 : RE} (k : Kind) (s : Sense) (h : Ready x0) : Ready (assertion x0 k s)
  | cc (c : CC) : Ready (cc c)
  | diff {x0 y0 : RE} (hx : Ready x0) (hy : Ready y0)
    (hnew : ∀ x y, transform same x0 = .ok x → transform same y0 = .ok y →
      (x.isSome || y.isSome) = true → DiffReady same M (x.getD x0) (y.getD y0)) :
    Ready (diff x0 y0)
  | intersect {x0 y0 : RE} (hx : Ready x0) (hy : Ready y0)
    (hnew : ∀ x y, transform same x0 = .ok x → transform same y0 = .ok y →
      (x.isSome || y.isSome) = true → IntersectReady same M (x.getD x0) (y.getD y0)) :
    Ready (intersect x0 y0)
  | name (n : String) (definition : RE) : Ready (name n definition)
  | rep {e0 : RE} {lb ub : ℤ} (h : Ready e0)
    (hstar : ∀ e items, transform same e0 = .ok e → lb = 0 → ub = UNBOUNDED_REP →
      e.getD e0 = seq items → isNullable (seq items) = true → Starred items)
    (hnew : ∀ e starred e1, transform same e0 = .ok e →
      repeated lb ub (e.getD e0) = .ok starred → starred.or e = some e1 →
        RepSafe e1.outline lb ub) :
    Ready (rep e0 lb ub)
  | seq {elems : List RE} (h : ∀ e ∈ elems, Ready e) : Ready (seq elems)
  | start : Ready start
  | stop : Ready stop
  | other (node : ℕ) : Ready (other node)

end Condition

end RE_Star_Normal

/-- The leaves match strings: a class its symbols, and an assertion of what always or never matches
the empty string or nothing. -/
structure Strings (M : Meaning (Language ℕ)) : Prop where
  cc (a : ℕ) (s : Set ℕ) : M.cc a s = letters s
  negative_bot (k : Kind) : M.assertion k .Negative ⊥ = 1
  positive_bot (k : Kind) : M.assertion k .Positive ⊥ = ⊥
  positive_one (k : Kind) : M.assertion k .Positive 1 = 1
  negative_one (k : Kind) : M.assertion k .Negative 1 = ⊥

section Nullable

variable {K : Type*} [CompleteBooleanAlgebra K] [Monoid K] [IsQuantale K] {M : Meaning K}
  {e : RE} {elems : List RE}

theorem allNullable_iff : allNullable elems = true ↔ ∀ e ∈ elems, isNullable e = true := by
  induction elems with
  | nil => simp [allNullable]
  | cons e elems ih => rw [allNullable, Bool.and_eq_true, ih, List.forall_mem_cons]

theorem anyNullable_iff : anyNullable elems = true ↔ ∃ e ∈ elems, isNullable e = true := by
  induction elems with
  | nil => simp [anyNullable]
  | cons e elems ih =>
    rw [anyNullable, Bool.or_eq_true, ih]
    simp only [List.mem_cons, exists_eq_or_imp]

theorem one_le_denoteSeq (h : ∀ e ∈ elems, 1 ≤ denote M e) : 1 ≤ denoteSeq M elems := by
  induction elems with
  | nil => exact (denoteSeq.eq_1 M).ge
  | cons e elems ih =>
    obtain ⟨he, helems⟩ := List.forall_mem_cons.1 h
    rw [denoteSeq]
    exact (one_mul (1 : K)).ge.trans (mul_le_mul' he (ih helems))

omit [IsQuantale K] in
theorem denote_le_denoteAlt (h : e ∈ elems) : denote M e ≤ denoteAlt M elems := by
  induction elems with
  | nil => cases h
  | cons e' elems ih =>
    rw [denoteAlt]
    rcases List.mem_cons.1 h with rfl | h
    · exact le_sup_left
    · exact (ih h).trans le_sup_right

omit [IsQuantale K] in
theorem denoteAlt_le {x : K} (h : ∀ e ∈ elems, denote M e ≤ x) : denoteAlt M elems ≤ x := by
  induction elems with
  | nil =>
    rw [denoteAlt]
    exact bot_le
  | cons e elems ih =>
    obtain ⟨he, helems⟩ := List.forall_mem_cons.1 h
    rw [denoteAlt]
    exact sup_le he (ih helems)

/-- An expression that is nullable matches the empty string. -/
theorem one_le_denote (hv : e.Valid) (h : isNullable e = true) : 1 ≤ denote M e := by
  induction hv with
  | @seq elems _ ih =>
    rw [isNullable, allNullable_iff] at h
    rw [denote]
    exact one_le_denoteSeq fun e he ↦ ih e he (h e he)
  | @alt elems _ ih =>
    rw [isNullable, anyNullable_iff] at h
    obtain ⟨e, he, hnull⟩ := h
    rw [denote]
    exact (ih e he hnull).trans (denote_le_denoteAlt he)
  | @rep re lb ub _ hb ih =>
    rw [isNullable, Bool.or_eq_true, decide_eq_true_iff] at h
    rw [denote]
    rcases h with rfl | h
    · exact one_le_powers (mem_counts_lb hb)
    · have hpow : (1 : K) ≤ denote M re ^ lb.toNat := one_le_pow_of_one_le' (ih h) _
      exact hpow.trans (pow_le_powers (mem_counts_lb hb))
  | intersect _ _ ihl ihr =>
    rw [isNullable, Bool.and_eq_true] at h
    rw [denote]
    exact le_inf (ihl h.1) (ihr h.2)
  | _ => rw [isNullable] at h <;> cases h

end Nullable

namespace RE_Star_Normal

section Star

variable {K : Type*} [CompleteBooleanAlgebra K] [Monoid K] [IsQuantale K] {M : Meaning K}
  {e : RE} {items : List RE}

theorem counts_star : counts 0 UNBOUNDED_REP = Set.univ :=
  Set.eq_univ_of_forall fun n ↦ ⟨Int.natCast_nonneg n, .inl rfl⟩

theorem denoteSeq_le {x : K} (hmul : x * x ≤ x) (hone : 1 ≤ x)
    (h : ∀ e ∈ items, denote M e ≤ x) : denoteSeq M items ≤ x := by
  induction items with
  | nil =>
    rw [denoteSeq]
    exact hone
  | cons e items ih =>
    obtain ⟨he, hitems⟩ := List.forall_mem_cons.1 h
    rw [denoteSeq]
    exact (mul_le_mul' he (ih hitems)).trans hmul

/-- An item of a nullable sequence is found in it. -/
theorem denote_le_denoteSeq (hone : ∀ e ∈ items, 1 ≤ denote M e) (h : e ∈ items) :
    denote M e ≤ denoteSeq M items := by
  induction items with
  | nil => cases h
  | cons e' items ih =>
    obtain ⟨he, hitems⟩ := List.forall_mem_cons.1 hone
    rw [denoteSeq]
    rcases List.mem_cons.1 h with rfl | h
    · exact (mul_one (denote M e)).ge.trans (mul_le_mul' le_rfl (one_le_denoteSeq hitems))
    · exact (one_mul (denote M e)).ge.trans (mul_le_mul' he (ih hitems h))

/-- The star of a sequence of nullable items is the star of the alternatives. -/
theorem star_items (hv : ∀ e ∈ items, e.Valid) (hnull : ∀ e ∈ items, isNullable e = true)
    (hbounds : ∀ re lb ub, rep re lb ub ∈ items → lb = 0 ∧ ub ≠ 0) :
    powers (denoteAlt M (items.flatMap starItem)) Set.univ =
      powers (denoteSeq M items) Set.univ := by
  have hone (e : RE) (he : e ∈ items) : 1 ≤ denote M e := one_le_denote (hv e he) (hnull e he)
  apply le_antisymm
  · refine powers_le_powers_univ (denoteAlt_le fun e he ↦ ?_) _
    obtain ⟨item, hitem, he⟩ := List.mem_flatMap.1 he
    have hle : denote M item ≤ powers (denoteSeq M items) Set.univ :=
      (denote_le_denoteSeq hone hitem).trans (le_powers_univ _)
    refine le_trans ?_ hle
    cases item with
    | rep re lb ub =>
      obtain ⟨rfl, hub⟩ := hbounds re lb ub hitem
      rw [starItem, if_pos rfl, List.mem_singleton] at he
      have hv' := hv _ hitem
      cases hv' with
      | rep _ hb =>
        have hmem : 1 ∈ counts 0 ub := by
          have hle := hb.le
          refine ⟨by decide, ?_⟩
          omega
        rw [he, denote]
        exact (pow_one (denote M re)).ge.trans (pow_le_powers hmem)
    | _ =>
      rw [starItem] at he
      · split_ifs at he with hempty
        · cases he
        · rw [List.mem_singleton.1 he]
      · intro _ _ _ h
        cases h
  · refine powers_le_powers_univ (denoteSeq_le (powers_univ_mul_self _).le
      (one_le_powers (Set.mem_univ 0)) fun e he ↦ ?_) _
    have hitem (x : RE) (hx : x ∈ starItem e) :
        denote M x ≤ powers (denoteAlt M (items.flatMap starItem)) Set.univ :=
      (denote_le_denoteAlt (List.mem_flatMap.2 ⟨e, he, hx⟩)).trans (le_powers_univ _)
    cases e with
    | rep re lb ub =>
      obtain ⟨rfl, hub⟩ := hbounds re lb ub he
      rw [denote]
      exact powers_le_powers_univ (hitem re (by rw [starItem, if_pos rfl]; simp)) _
    | _ =>
      rw [starItem] at hitem
      · split_ifs at hitem with hempty
        · rw [denote_emptySeq hempty]
          exact one_le_powers (Set.mem_univ 0)
        · exact hitem _ (List.mem_singleton_self _)
      · intro _ _ _ h
        cases h

end Star

section Exact

variable {same : RE → RE → Bool} {M : Meaning (Language ℕ)} {e : RE} {elems : List RE}

/-- The new node, or the old one, has the meaning of the old one. -/
def Keeps (M : Meaning (Language ℕ)) (e : RE) (result : Except Fault (Option RE)) : Prop :=
  ∃ o, result = .ok o ∧ (o.getD e).Valid ∧ denote M (o.getD e) = denote M e

theorem keeps_unchanged (hv : e.Valid) : Keeps M e (.ok none) := ⟨none, rfl, hv, rfl⟩

theorem transformElems_spec (h : ∀ e ∈ elems, Keeps M e (transform same e)) :
    ∃ elems1 any_changed, transformElems same elems = .ok (elems1, any_changed) ∧
      (∀ e ∈ elems1, e.Valid) ∧ denoteAlt M elems1 = denoteAlt M elems ∧
        denoteSeq M elems1 = denoteSeq M elems := by
  induction elems with
  | nil => exact ⟨[], false, rfl, List.forall_mem_nil _, rfl, rfl⟩
  | cons e elems ih =>
    obtain ⟨⟨o, ho, hvalid, hdenote⟩, helems⟩ := List.forall_mem_cons.1 h
    obtain ⟨elems1, any_changed, htransform, hvalid1, halt, hseq⟩ := ih helems
    refine ⟨o.getD e :: elems1, o.isSome || any_changed, ?_, ?_, ?_, ?_⟩
    · rw [transformElems, ho, ok_bind, htransform, ok_bind]
      rfl
    · exact List.forall_mem_cons.2 ⟨hvalid, hvalid1⟩
    · rw [denoteAlt, denoteAlt, hdenote, halt]
    · rw [denoteSeq, denoteSeq, hdenote, hseq]

theorem makeAssertion_spec (hM : Strings M) (hv : e.Valid) (k : Kind) (s : Sense) :
    ∃ r, makeAssertion e k s = .ok r ∧ r.Valid ∧ denote M r = M.assertion k s (denote M e) := by
  have hseq : (seq []).Valid := .seq (List.forall_mem_nil _)
  have halt : (alt []).Valid := .alt (List.forall_mem_nil _)
  rw [makeAssertion]
  split_ifs with hset hs hempty hs
  · refine ⟨seq [], rfl, hseq, ?_⟩
    rw [denote_emptySet hv hset, hs, hM.negative_bot, denote_emptySeq rfl]
  · cases s with
    | Negative => exact absurd rfl hs
    | Positive =>
      refine ⟨alt [], rfl, halt, ?_⟩
      rw [denote_emptySet hv hset, hM.positive_bot, denote_emptySet halt rfl]
  · refine ⟨seq [], rfl, hseq, ?_⟩
    rw [denote_emptySeq hempty, hs, hM.positive_one, denote_emptySeq rfl]
  · cases s with
    | Positive => exact absurd rfl hs
    | Negative =>
      refine ⟨alt [], rfl, halt, ?_⟩
      rw [denote_emptySeq hempty, hM.negative_one, denote_emptySet halt rfl]
  · exact ⟨assertion e k s, rfl, .assertion k s hv, by rw [denote]⟩

/-- The alternatives that replace a sequence in a star. -/
theorem star_rule_spec (hv : e.Valid) (hstar : ∀ items, e = seq items →
    isNullable (seq items) = true → Starred items) :
    ∃ o, star_rule e = .ok o ∧ (o.getD e).Valid ∧
      powers (denote M (o.getD e)) Set.univ = powers (denote M e) Set.univ := by
  cases e with
  | seq items =>
    rw [star_rule]
    split_ifs with hnull
    · obtain ⟨hbounds, halternatives⟩ := hstar items rfl hnull
      cases hv with
      | seq hitems =>
        have hvalid : ∀ x ∈ items.flatMap starItem, x.Valid := by
          intro x hx
          obtain ⟨item, hitem, hx⟩ := List.mem_flatMap.1 hx
          have hvitem := hitems item hitem
          cases hvitem with
          | @rep re lb ub hre _ =>
            rw [starItem] at hx
            split_ifs at hx with hlb
            · exact List.mem_singleton.1 hx ▸ hre
            · cases hx
          | _ =>
            rw [starItem] at hx
            · split_ifs at hx with hempty
              · cases hx
              · exact List.mem_singleton.1 hx ▸ hitems _ hitem
            · intro _ _ _ h
              cases h
        obtain ⟨r, hr, hvr, hdenote⟩ := makeAlt_spec (M := M) hvalid halternatives
        refine ⟨some r, by rw [hr, ok_bind, pure_eq_ok], hvr, ?_⟩
        rw [isNullable, allNullable_iff] at hnull
        rw [Option.getD_some, hdenote, star_items hitems hnull hbounds, denote]
    · exact ⟨none, rfl, hv, rfl⟩
  | _ => exact ⟨none, rfl, hv, rfl⟩

theorem makeDiff_valid {l r x : RE} (hl : l.Valid) (hr : r.Valid)
    (h : makeDiff same l r = .ok x) : x.Valid := by
  have halt : (alt []).Valid := .alt (List.forall_mem_nil _)
  fun_induction makeDiff same l r with
  | case1 | case3 | case4 =>
    obtain rfl : alt [] = x := Except.ok.inj h
    exact halt
  | case2 | case5 | case6 | case8 =>
    obtain rfl := Except.ok.inj h
    exact hl
  | case7 | case10 =>
    obtain rfl := Except.ok.inj h
    exact .diff hl hr
  | case9 rh _ lh₀ rh₀ _ _ _ ih =>
    obtain ⟨r, hr', h⟩ := bind_eq_ok.1 h
    cases hl with
    | diff hl₀ hr₀ => exact ih r hl₀ (makeAlt_pair (M := words) hr₀ hr hr').1 h

theorem makeIntersect_valid {l r x : RE} (hl : l.Valid) (hr : r.Valid)
    (h : makeIntersect same l r = .ok x) : x.Valid := by
  have halt : (alt []).Valid := .alt (List.forall_mem_nil _)
  have hinter : (intersect l r).Valid := .intersect hl hr
  rw [makeIntersect] at h
  split_ifs at h
  all_goals first
    | exact Except.ok.inj h ▸ hl
    | exact Except.ok.inj h ▸ hr
    | exact Except.ok.inj (denote_makeEmptySet.symm.trans h) ▸ halt
    | skip
  cases hlcc : l.defCC with
  | none =>
    rw [hlcc] at h
    exact Except.ok.inj h ▸ hinter
  | some c =>
    cases hrcc : r.defCC with
    | none =>
      rw [hlcc, hrcc] at h
      exact Except.ok.inj h ▸ hinter
    | some d =>
      rw [hlcc, hrcc] at h
      dsimp only at h
      split_ifs at h
      · obtain ⟨u, hu, h⟩ := bind_eq_ok.1 h
        obtain ⟨s, hs, hset, -, -⟩ := intersection_produces
          (defCC_denote (M := words) hlcc hl).1.verified
          (defCC_denote (M := words) hrcc hr).1.verified
        rw [intersectCC, hs, ok_bind, pure_eq_ok] at hu
        obtain rfl := Except.ok.inj hu
        exact Except.ok.inj h ▸ .cc hset
      · exact Except.ok.inj h ▸ hinter

theorem repeated_spec {lb ub : ℤ} (hv : e.Valid) (hstar : ∀ items, lb = 0 → ub = UNBOUNDED_REP →
    e = seq items → isNullable (seq items) = true → Starred items) :
    ∃ o, repeated lb ub e = .ok o ∧ (o.getD e).Valid ∧
      powers (denote M (o.getD e)) (counts lb ub) = powers (denote M e) (counts lb ub) := by
  rw [repeated]
  split_ifs with h
  · obtain ⟨rfl, rfl⟩ := h
    rw [counts_star]
    exact star_rule_spec hv fun items ↦ hstar items rfl rfl
  · exact ⟨none, rfl, hv, rfl⟩

theorem transform_spec (hsame : ∀ a b, same a b = true → a = b) (hM : Strings M) (hv : e.Valid)
    (h : Ready same M e) : Keeps M e (transform same e) := by
  induction hv with
  | @alt elems hvalid ih =>
    cases h with
    | alt h hnew =>
      obtain ⟨elems1, any_changed, htransform, hvalid1, halt, _⟩ :=
        transformElems_spec fun e he ↦ ih e he (h e he)
      rw [transform, htransform, ok_bind]
      cases any_changed with
      | false => exact keeps_unchanged (.alt hvalid)
      | true =>
        obtain ⟨r, hr, hvr, hdenote⟩ := makeAlt_spec (M := M) hvalid1 (hnew elems1 htransform)
        refine ⟨some r, ?_, hvr, ?_⟩
        · simp only [if_true, hr, ok_bind, pure_eq_ok]
        · rw [Option.getD_some, hdenote, halt, denote]
  | @seq elems hvalid ih =>
    cases h with
    | seq h =>
      obtain ⟨elems1, any_changed, htransform, hvalid1, _, hseq⟩ :=
        transformElems_spec fun e he ↦ ih e he (h e he)
      rw [transform, htransform, ok_bind]
      cases any_changed with
      | false => exact keeps_unchanged (.seq hvalid)
      | true =>
        refine ⟨some (makeSeq elems1), rfl, valid_makeSeq hvalid1, ?_⟩
        rw [Option.getD_some, denote_makeSeq hvalid1, hseq, denote]
  | @assertion x0 k s hvalid ih =>
    cases h with
    | assertion _ _ h =>
      obtain ⟨o, ho, hvo, hdenote⟩ := ih h
      rw [transform, ho, ok_bind]
      cases o with
      | none => exact keeps_unchanged (.assertion k s hvalid)
      | some x =>
        obtain ⟨r, hr, hvr, hdenote'⟩ := makeAssertion_spec hM hvo k s
        rw [Option.getD_some] at hr hdenote hdenote'
        refine ⟨some r, ?_, hvr, ?_⟩
        · simp only [hr, ok_bind, pure_eq_ok]
        · rw [Option.getD_some, hdenote', hdenote, denote]
  | @diff x0 y0 hvx hvy ihx ihy =>
    cases h with
    | diff hx hy hnew =>
      obtain ⟨x, hx, hvx1, hdx⟩ := ihx hx
      obtain ⟨y, hy, hvy1, hdy⟩ := ihy hy
      rw [transform, hx, ok_bind, hy, ok_bind]
      cases hchanged : x.isSome || y.isSome with
      | false => exact keeps_unchanged (.diff hvx hvy)
      | true =>
        obtain ⟨r, hr, hdenote⟩ :=
          (makeDiff_iff hsame hM.cc hvx1 hvy1).2 (hnew x y hx hy hchanged)
        refine ⟨some r, ?_, makeDiff_valid hvx1 hvy1 hr, ?_⟩
        · simp only [if_true, hr, ok_bind, pure_eq_ok]
        · rw [Option.getD_some, hdenote, hdx, hdy, denote]
  | @intersect x0 y0 hvx hvy ihx ihy =>
    cases h with
    | intersect hx hy hnew =>
      obtain ⟨x, hx, hvx1, hdx⟩ := ihx hx
      obtain ⟨y, hy, hvy1, hdy⟩ := ihy hy
      rw [transform, hx, ok_bind, hy, ok_bind]
      cases hchanged : x.isSome || y.isSome with
      | false => exact keeps_unchanged (.intersect hvx hvy)
      | true =>
        obtain ⟨r, hr, hdenote⟩ :=
          (makeIntersect_iff hsame hM.cc hvx1 hvy1).2 (hnew x y hx hy hchanged)
        refine ⟨some r, ?_, makeIntersect_valid hvx1 hvy1 hr, ?_⟩
        · simp only [if_true, hr, ok_bind, pure_eq_ok]
        · rw [Option.getD_some, hdenote, hdx, hdy, denote]
  | @rep e0 lb ub hv0 hb ih =>
    cases h with
    | rep h hstar hnew =>
      obtain ⟨o, ho, hvo, hdenote⟩ := ih h
      obtain ⟨starred, hstarred, hvs, hpowers⟩ :=
        repeated_spec (M := M) hvo fun items ↦ hstar o items ho
      rw [transform, ho, ok_bind, hstarred, ok_bind]
      cases hor : starred.or o with
      | none => exact keeps_unchanged (.rep hv0 hb)
      | some e1 =>
        have he1 : starred.getD (o.getD e0) = e1 := by
          cases starred with
          | none =>
            rw [Option.none_or] at hor
            rw [hor]
            rfl
          | some x => exact Option.some_inj.1 hor
        rw [he1] at hvs hpowers
        obtain ⟨r, hr, hvr, hdenote'⟩ :=
          makeRep_repeats (M := M) hvs hb (hnew o starred e1 ho hstarred hor)
        refine ⟨some r, ?_, hvr, ?_⟩
        · simp only [hr, ok_bind, pure_eq_ok]
        · rw [Option.getD_some, hdenote', hpowers, hdenote, denote]
  | any => exact keeps_unchanged .any
  | cc hc => exact keeps_unchanged (.cc hc)
  | name n hdef _ => exact keeps_unchanged (.name n hdef)
  | start => exact keeps_unchanged .start
  | stop => exact keeps_unchanged .stop
  | other node => exact keeps_unchanged (.other node)

end Exact

end RE_Star_Normal

open RE_Star_Normal

section Example

theorem mul_self_of_le_one {x : Language ℕ} (h : x ≤ 1) : x * x = x := by
  by_cases hnil : [] ∈ x
  · have hone : x = 1 := by
      rw [← inf_eq_right.2 h, one_inf_of_mem hnil]
    rw [hone, one_mul]
  · have hbot : x = ⊥ := by
      rw [← inf_eq_right.2 h, one_inf_of_not_mem hnil]
    rw [hbot, Quantale.bot_mul]

/-- The strings that an expression matches at the beginning of a text, and an assertion of the
strings before or after the empty one. -/
def strings : Meaning (Language ℕ) where
  cc _ s := letters s
  cc_empty _ := letters_empty
  cc_union _ s t := letters_union s t
  assertion _ s x := if s = .Positive then 1 ⊓ x else 1 \ x
  assertion_le _ s x := by
    split_ifs
    · exact inf_le_left
    · exact sdiff_le
  assertion_mul_self _ s x := by
    split_ifs
    · exact mul_self_of_le_one inf_le_left
    · exact mul_self_of_le_one sdiff_le
  any := letters Set.univ
  start := 1
  stop := 1
  other _ := ⊥

theorem strings_strings : Strings strings where
  cc _ _ := rfl
  negative_bot _ := one_sdiff_of_not_mem not_mem_bot
  positive_bot _ := inf_bot_eq _
  positive_one _ := inf_idem _
  negative_one _ := sdiff_self

theorem ready_optional {re : RE} (h : Ready sameAnchor strings re)
    (hkept : RE_Star_Normal.transform sameAnchor re = .ok none) :
    Ready sameAnchor strings (rep re 0 1) := by
  refine .rep h (fun e items _ _ hub ↦ absurd hub (by decide)) fun e starred e1 he hs hor ↦ ?_
  rw [hkept] at he
  obtain rfl := Except.ok.inj he
  rw [repeated, if_neg (by decide)] at hs
  obtain rfl := Except.ok.inj hs
  cases hor

end Example

end Parabix.RE
