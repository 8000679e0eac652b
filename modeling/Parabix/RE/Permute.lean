import Parabix.RE.Boundaries
import Parabix.RE.RepetitionExact

namespace Parabix.RE

open Library Library.Powers Library.Spans UCD

section Expand

variable (same : RE → RE → Bool)

/-- What is before the position behind an ordering: the item, and other matches up to there. -/
def permAssertion (anyAlt : RE) (perm_size : ℕ) (perm : RE) : Except Fault RE := do
  let negated ← makeDiff same anyAlt perm
  let r := makeSeq [perm, ← makeRep negated 0 (perm_size - 1)]
  Boundaries.makeLookBehindAssertion r

/-- The new node for a Permute of the items. They are not transformed: an item that is a Permute
itself stays as it is. -/
def transformPermute (p : List RE) : Except Fault RE := do
  let anyAlt ← makeAlt p
  let first ← makeRep anyAlt p.length p.length
  return makeSeq (first :: (← p.mapM (permAssertion same anyAlt p.length)))

end Expand

section Condition

/-- What a Permute stands for: the items in any order. -/
def orderings {K : Type*} [CompleteBooleanAlgebra K] [Monoid K] (M : Meaning K) (items : List RE) :
    K :=
  ⨆ (order : List RE) (_ : order.Perm items), denoteSeq M order

/-- As many matches as there are items, and a match of each item with fewer matches of the others
behind it. -/
structure Met (M : Meaning Span) (items : List RE) (p q : ℕ) : Prop where
  run : (denoteAlt M items ^ items.length) p q
  each (e : RE) (he : e ∈ items) : ∃ start stop, denote M e start stop ∧
    ∃ k < items.length, ((denoteAlt M items \ denote M e) ^ k) stop q

/-- What is left of the union of the items without this one is built as the empty set. -/
def LostItem (same : RE → RE → Bool) (anyAlt e : RE) : Prop :=
  ∃ negated, makeDiff same anyAlt e = .ok negated ∧ negated.isEmptySet = true

def Lost (same : RE → RE → Bool) (items : List RE) : Prop :=
  ∃ anyAlt, makeAlt items = .ok anyAlt ∧ ∃ e ∈ items, LostItem same anyAlt e

/-- There are items. If they are lost, no ordering matches; otherwise the items that are met match
in an order. -/
structure Ordered (same : RE → RE → Bool) (M : Meaning Span) (items : List RE) : Prop where
  nonempty : items ≠ []
  lost (h : Lost same items) : orderings M items = ⊥
  met (h : ¬ Lost same items) (p q : ℕ) (hpq : Met M items p q) : orderings M items p q

end Condition

section Difference

variable {K : Type*} [CompleteBooleanAlgebra K] [Monoid K] [IsQuantale K] {M : Meaning K}
  {same : RE → RE → Bool} {lh rh d : RE}

/-- What a difference comes out as: nothing is taken away, nothing is left, or the difference is
right, unless there is no more than the empty sequence to take away from. -/
def Remains (M : Meaning K) (lh rh d : RE) : Prop :=
  denote M rh = ⊥ ∨ d.isEmptySet = true ∨ (∀ r l u, d ≠ rep r l u) ∧
    (denote M d = denote M lh \ denote M rh ∨ denote M lh ≤ 1 ∧ denote M d ≤ 1)

theorem makeDiff_remains (hl : lh.Valid) (hr : rh.Valid) (h : makeDiff same lh rh = .ok d) :
    d.Valid ∧ Remains M lh rh d := by
  have hnothing : (alt []).Valid := .alt (List.forall_mem_nil _)
  have hnode (lh rh : RE) : Remains M lh rh (diff lh rh) := by
    refine .inr (.inr ⟨fun _ _ _ heq ↦ ?_, .inl (by rw [denote])⟩)
    cases heq
  have hone {lh rh : RE} (hseq : lh.isEmptySeq = true) : Remains M lh rh lh := by
    obtain rfl := eq_of_isEmptySeq hseq
    have hle : denote M (seq []) ≤ 1 := by rw [denote, denoteSeq]
    refine .inr (.inr ⟨fun _ _ _ heq ↦ ?_, .inr ⟨hle, hle⟩⟩)
    cases heq
  fun_induction makeDiff same lh rh generalizing d with
  | case1 =>
    obtain rfl := Except.ok.inj h
    exact ⟨hnothing, .inr (.inl rfl)⟩
  | case2 lh rh _ hset =>
    obtain rfl := Except.ok.inj h
    exact ⟨hl, .inl (denote_emptySet hr hset)⟩
  | case3 =>
    obtain rfl := Except.ok.inj h
    exact ⟨hnothing, .inr (.inl rfl)⟩
  | case4 =>
    obtain rfl := Except.ok.inj h
    exact ⟨hnothing, .inr (.inl rfl)⟩
  | case5 lh hseq =>
    obtain rfl := Except.ok.inj h
    exact ⟨hl, hone hseq⟩
  | case6 lh hseq =>
    obtain rfl := Except.ok.inj h
    exact ⟨hl, hone hseq⟩
  | case7 =>
    obtain rfl := Except.ok.inj h
    exact ⟨.diff hl hr, hnode _ _⟩
  | case8 lh rh _ _ _ hset =>
    obtain rfl := Except.ok.inj h
    exact ⟨hl, .inr (.inl hset)⟩
  | case9 rh _ lh₀ rh₀ _ _ _ ih =>
    cases hl with
    | diff hl₀ hr₀ =>
      obtain ⟨a, ha, h⟩ := bind_eq_ok.1 h
      have hpair : ∀ e ∈ [rh₀, rh], e.Valid :=
        List.forall_mem_cons.2 ⟨hr₀, List.forall_mem_singleton.2 hr⟩
      obtain ⟨hav, hdenote⟩ := makeAlt_returns (M := M) hpair ha
      rw [denoteAlt, denoteAlt_singleton] at hdenote
      obtain ⟨hd, hremains⟩ := ih a hl₀ hav h
      refine ⟨hd, ?_⟩
      rw [Remains, hdenote, sup_eq_bot_iff, ← sdiff_sdiff] at hremains
      obtain ⟨-, hnone⟩ | hset | ⟨hrep, hright | ⟨hle, hle'⟩⟩ := hremains
      · exact .inl hnone
      · exact .inr (.inl hset)
      · exact .inr (.inr ⟨hrep, .inl (by rw [hright, denote])⟩)
      · exact .inr (.inr ⟨hrep, .inr ⟨by rw [denote]; exact sdiff_le.trans hle, hle'⟩⟩)
  | case10 =>
    obtain rfl := Except.ok.inj h
    exact ⟨.diff hl hr, hnode _ _⟩

end Difference

section Orderings

variable {M : Meaning Span} {items order : List RE} {e : RE} {A : Span} {p q : ℕ}

theorem orderings_apply :
    orderings M items p q ↔ ∃ order : List RE, order.Perm items ∧ denoteSeq M order p q := by
  simp only [orderings, iSup_apply, exists_prop]

theorem denote_le_alt (he : e ∈ items) : denote M e ≤ denoteAlt M items := by
  induction items with
  | nil => cases he
  | cons item items ih =>
    rw [denoteAlt]
    obtain rfl | he := List.mem_cons.1 he
    · exact le_sup_left
    · exact (ih he).trans le_sup_right

theorem denoteSeq_le_pow (h : ∀ e ∈ order, denote M e ≤ A) :
    denoteSeq M order ≤ A ^ order.length := by
  induction order with
  | nil => rw [denoteSeq, List.length_nil, pow_zero]
  | cons e order ih =>
    obtain ⟨he, horder⟩ := List.forall_mem_cons.1 h
    rw [denoteSeq, List.length_cons, pow_succ']
    exact mul_le_mul' he (ih horder)

/-- The matches of a sequence from the last one of `x` on, if there is one. -/
theorem last_or_none (h : ∀ e ∈ order, denote M e ≤ A) (x : Span) (hm : denoteSeq M order p q) :
    (∃ start stop, x start stop ∧ ∃ k < order.length, ((A \ x) ^ k) stop q) ∨
      ((A \ x) ^ order.length) p q := by
  induction order generalizing p with
  | nil =>
    rw [denoteSeq] at hm
    exact .inr (by rwa [List.length_nil, pow_zero])
  | cons e order ih =>
    obtain ⟨he, horder⟩ := List.forall_mem_cons.1 h
    rw [denoteSeq] at hm
    obtain ⟨m, hfirst, hm⟩ := hm
    obtain ⟨start, stop, hx, k, hk, hrest⟩ | hrest := ih horder hm
    · exact .inl ⟨start, stop, hx, k, Nat.lt_succ_of_lt hk, hrest⟩
    · by_cases hx : x p m
      · exact .inl ⟨p, m, hx, order.length, Nat.lt_succ_self _, hrest⟩
      · rw [List.length_cons, pow_succ']
        exact .inr ⟨m, ⟨he p m hfirst, hx⟩, hrest⟩

theorem last_of_mem (h : ∀ e ∈ order, denote M e ≤ A) (hmem : e ∈ order)
    (hm : denoteSeq M order p q) : ∃ start stop, denote M e start stop ∧
      ∃ k < order.length, ((A \ denote M e) ^ k) stop q := by
  induction order generalizing p with
  | nil => cases hmem
  | cons e' order ih =>
    rw [denoteSeq] at hm
    obtain ⟨m, hfirst, hm⟩ := hm
    have horder := (List.forall_mem_cons.1 h).2
    have hlater (hlast : ∃ start stop, denote M e start stop ∧
        ∃ k < order.length, ((A \ denote M e) ^ k) stop q) : ∃ start stop, denote M e start stop ∧
          ∃ k < order.length + 1, ((A \ denote M e) ^ k) stop q := by
      obtain ⟨start, stop, hx, k, hk, hrest⟩ := hlast
      exact ⟨start, stop, hx, k, Nat.lt_succ_of_lt hk, hrest⟩
    obtain rfl | hmem := List.mem_cons.1 hmem
    · obtain hlast | hrest := last_or_none horder (denote M e) hm
      · exact hlater hlast
      · exact ⟨p, m, hfirst, order.length, Nat.lt_succ_self _, hrest⟩
    · exact hlater (ih horder hmem hm)

/-- The items of every ordering are met. -/
theorem met_of_orderings (h : orderings M items p q) : Met M items p q := by
  obtain ⟨order, hperm, hm⟩ := orderings_apply.1 h
  have hle : ∀ e ∈ order, denote M e ≤ denoteAlt M items := fun e he ↦
    denote_le_alt (hperm.mem_iff.1 he)
  constructor
  · rw [← hperm.length_eq]
    exact denoteSeq_le_pow hle p q hm
  · intro e he
    rw [← hperm.length_eq]
    exact last_of_mem hle (hperm.mem_iff.2 he) hm

end Orderings

section Exact

variable {M : Meaning Span} {same : RE → RE → Bool} {items : List RE} {e anyAlt r : RE} {n : ℕ}

/-- A lookbehind is read as what ends at a position. -/
def Behind (M : Meaning Span) : Prop :=
  ∀ x, M.assertion .LookBehind .Positive x = zeroWidth fun p ↦ ∃ start, x start p

theorem makeLookBehind_returns (hM : Behind M) (he : e.Valid)
    (h : Boundaries.makeLookBehindAssertion e = .ok r) :
    r.Valid ∧ denote M r = zeroWidth fun p ↦ ∃ start, denote M e start p := by
  rw [Boundaries.makeLookBehindAssertion, makeAssertion,
    if_neg (by decide : ¬ Sense.Positive = .Negative), if_pos rfl] at h
  split_ifs at h with hset hseq
  · obtain rfl : alt [] = r := Except.ok.inj h
    refine ⟨.alt fun _ h ↦ absurd h List.not_mem_nil, Span.ext fun p q ↦ ?_⟩
    simp [zeroWidth, denote, denoteAlt, denote_emptySet he hset]
  · obtain rfl : seq [] = r := Except.ok.inj h
    refine ⟨.seq fun _ h ↦ absurd h List.not_mem_nil, Span.ext fun p q ↦ ?_⟩
    simp [zeroWidth, denote, denoteSeq, denote_emptySeq hseq]
  · obtain rfl := Except.ok.inj h
    exact ⟨.assertion _ _ he, by rw [denote, hM]⟩

theorem mem_counts_iff {k : ℕ} (hn : 0 < n) : k ∈ counts 0 ((n : ℤ) - 1) ↔ k < n := by
  simp only [counts, Set.mem_ofPred_eq, UNBOUNDED_REP]
  omega

/-- What is left of the union of the items is repeated as it should be, if the item matches at all
and something is left. -/
theorem repeated_remains {negated x : RE} (hn : 0 < n) (hn' : n < 2 ^ 31) (hv : negated.Valid)
    (hset : ¬ negated.isEmptySet = true) (hremains : Remains M anyAlt e negated)
    (h : makeRep negated 0 (n - 1) = .ok x) : x.Valid ∧ (denote M e = ⊥ ∨
      denote M x = powers (denote M anyAlt \ denote M e) (counts 0 (n - 1))) := by
  have hb : Bounds 0 ((n : ℤ) - 1) := ⟨by decide, by decide, by omega, by omega⟩
  obtain ⟨hx, hrep⟩ := makeRep_returns (M := M) hv hb h
  refine ⟨hx, ?_⟩
  obtain hnone | hset' | ⟨hnode, hright⟩ := hremains
  · exact .inl hnone
  · exact absurd hset' hset
  · obtain ⟨hset', -⟩ | ⟨⟨r', l, hnegated⟩, -⟩ | hpowers := hrep
    · exact absurd hset' hset
    · exact absurd hnegated (hnode r' l _)
    · rw [hpowers]
      obtain hright | ⟨hle, hle'⟩ := hright
      · exact .inr (by rw [hright])
      · -- The empty sequence may be repeated, whatever is taken from it.
        have hzero : 0 ∈ counts 0 ((n : ℤ) - 1) := (mem_counts_iff hn).2 hn
        rw [powers_of_le_one hle' hzero, powers_of_le_one (sdiff_le.trans hle) hzero]
        exact .inr rfl

theorem permAssertion_returns (hM : Behind M) (hn : 0 < n) (hn' : n < 2 ^ 31)
    (hany : anyAlt.Valid) (he : e.Valid) (h : permAssertion same anyAlt n e = .ok r) :
    r.Valid ∧ (LostItem same anyAlt e → denote M r = ⊥) ∧
      (¬ LostItem same anyAlt e → denote M r = zeroWidth fun q ↦
        ∃ start stop, denote M e start stop ∧
          ∃ k < n, ((denote M anyAlt \ denote M e) ^ k) stop q) := by
  obtain ⟨negated, hnegated, h⟩ := bind_eq_ok.1 h
  obtain ⟨x, hx, hassert⟩ := bind_eq_ok.1 h
  obtain ⟨hv, hremains⟩ := makeDiff_remains (M := M) hany he hnegated
  have hpair {x : RE} (hx : x.Valid) : ∀ i ∈ [e, x], i.Valid :=
    List.forall_mem_cons.2 ⟨he, List.forall_mem_singleton.2 hx⟩
  have hmatch {x : RE} (hx : x.Valid) :
      denote M (makeSeq [e, x]) = denote M e * denote M x := by
    rw [denote_makeSeq (hpair hx), denoteSeq, denoteSeq_singleton]
  by_cases hset : negated.isEmptySet = true
  · have hb : Bounds 0 ((n : ℤ) - 1) := ⟨by decide, by decide, by omega, by omega⟩
    rw [makeRep, makeRepFuel_eq 1 hb, if_pos (.inl hset)] at hx
    obtain rfl := Except.ok.inj hx
    obtain ⟨hr, hbehind⟩ := makeLookBehind_returns hM (valid_makeSeq (hpair hv)) hassert
    refine ⟨hr, fun _ ↦ ?_, fun h ↦ absurd ⟨negated, hnegated, hset⟩ h⟩
    rw [hbehind, hmatch hv, denote_emptySet hv hset, Quantale.mul_bot]
    exact Span.ext fun p q ↦ by simp [zeroWidth]
  · obtain ⟨hxv, hright⟩ := repeated_remains hn hn' hv hset hremains hx
    obtain ⟨hr, hbehind⟩ := makeLookBehind_returns hM (valid_makeSeq (hpair hxv)) hassert
    refine ⟨hr, fun h ↦ ?_, fun _ ↦ ?_⟩
    · obtain ⟨negated', hnegated', hset'⟩ := h
      obtain rfl := Except.ok.inj (hnegated.symm.trans hnegated')
      exact absurd hset' hset
    · rw [hbehind, hmatch hxv]
      congr 1
      funext q
      obtain hnone | hpowers := hright
      · simp [hnone]
      · simp only [hpowers, mul_apply, powers_apply, mem_counts_iff hn]

/-- The assertions say of each item that it is met, and nothing holds where one is lost. -/
theorem mapM_permAssertion {l assertions : List RE} (hM : Behind M) (hn : 0 < n)
    (hn' : n < 2 ^ 31) (hany : anyAlt.Valid) (hl : ∀ e ∈ l, e.Valid)
    (h : l.mapM (permAssertion same anyAlt n) = .ok assertions) :
    (∀ a ∈ assertions, a.Valid) ∧
      ((∃ e ∈ l, LostItem same anyAlt e) → denoteSeq M assertions = ⊥) ∧
      ((¬ ∃ e ∈ l, LostItem same anyAlt e) →
        denoteSeq M assertions = zeroWidth fun q ↦ ∀ e ∈ l, ∃ start stop, denote M e start stop ∧
          ∃ k < n, ((denote M anyAlt \ denote M e) ^ k) stop q) := by
  induction l generalizing assertions with
  | nil =>
    obtain rfl : [] = assertions := Except.ok.inj h
    refine ⟨List.forall_mem_nil _, fun h ↦ ?_, fun _ ↦ Span.ext fun p q ↦ ?_⟩
    · obtain ⟨e, he, -⟩ := h
      cases he
    · simp [denoteSeq, zeroWidth]
  | cons e l ih =>
    obtain ⟨he, hl⟩ := List.forall_mem_cons.1 hl
    rw [List.mapM_cons] at h
    obtain ⟨a, ha, h⟩ := bind_eq_ok.1 h
    obtain ⟨rest, hrest, h⟩ := bind_eq_ok.1 h
    obtain rfl := Except.ok.inj h
    obtain ⟨hav, hnone, hbehind⟩ := permAssertion_returns hM hn hn' hany he ha
    obtain ⟨hrv, hlost, hmet⟩ := ih hl hrest
    refine ⟨List.forall_mem_cons.2 ⟨hav, hrv⟩, fun h ↦ ?_, fun h ↦ ?_⟩
    · rw [denoteSeq]
      obtain hfirst | hlater := (List.exists_mem_cons_iff _ _ _).1 h
      · rw [hnone hfirst, Quantale.bot_mul]
      · rw [hlost hlater, Quantale.mul_bot]
    · obtain ⟨hfirst, hlater⟩ := not_or.1 (mt (List.exists_mem_cons_iff _ _ _).2 h)
      rw [denoteSeq, hbehind hfirst, hmet hlater]
      refine Span.ext fun p q ↦ ?_
      rw [zeroWidth_mul, zeroWidth, zeroWidth, List.forall_mem_cons]
      constructor
      · rintro ⟨hfirst, rfl, hl⟩
        exact ⟨rfl, hfirst, hl⟩
      · rintro ⟨rfl, hfirst, hl⟩
        exact ⟨hfirst, rfl, hl⟩

theorem mul_zeroWidth {A : ℕ → Prop} {x : Span} {p q : ℕ} :
    (x * zeroWidth A) p q ↔ x p q ∧ A q := by
  constructor
  · rintro ⟨m, hx, rfl, hA⟩
    exact ⟨hx, hA⟩
  · rintro ⟨hx, hA⟩
    exact ⟨q, hx, rfl, hA⟩

/-- What the new node matches. -/
theorem transformPermute_returns (hM : Behind M) (hne : items ≠ []) (hlen : items.length < 2 ^ 31)
    (hv : ∀ e ∈ items, e.Valid) (h : transformPermute same items = .ok r) :
    (Lost same items → denote M r = ⊥) ∧
      (¬ Lost same items → ∀ p q, denote M r p q ↔ Met M items p q) := by
  obtain ⟨anyAlt, hany, h⟩ := bind_eq_ok.1 h
  obtain ⟨first, hfirst, h⟩ := bind_eq_ok.1 h
  obtain ⟨assertions, hassertions, h⟩ := bind_eq_ok.1 h
  obtain rfl := Except.ok.inj h
  have hpos : 0 < items.length := List.length_pos_iff.2 hne
  obtain ⟨hanyv, hanyAlt⟩ := makeAlt_returns (M := M) hv hany
  have hb : Bounds (items.length : ℤ) items.length := ⟨by omega, by omega, .inr le_rfl, by omega⟩
  obtain ⟨hfirstv, hrun⟩ := makeRep_returns (M := M) hanyv hb hfirst
  have hcounts : counts (items.length : ℤ) items.length = {items.length} := by
    ext k
    simp only [counts, Set.mem_ofPred_eq, Set.mem_singleton_iff, UNBOUNDED_REP]
    omega
  have hrun : denote M first = denoteAlt M items ^ items.length := by
    obtain ⟨-, h0, -⟩ | ⟨-, h0, -⟩ | hrun := hrun
    · omega
    · omega
    · rw [hrun, hcounts, powers_singleton, hanyAlt]
  obtain ⟨hav, hlost, hmet⟩ := mapM_permAssertion hM hpos hlen hanyv hv hassertions
  have hdenote : denote M (makeSeq (first :: assertions)) =
      denoteAlt M items ^ items.length * denoteSeq M assertions := by
    rw [denote_makeSeq (List.forall_mem_cons.2 ⟨hfirstv, hav⟩), denoteSeq, hrun]
  rw [hdenote]
  have hlost_iff : Lost same items ↔ ∃ e ∈ items, LostItem same anyAlt e := by
    constructor
    · rintro ⟨anyAlt', hany', hlost⟩
      obtain rfl := Except.ok.inj (hany.symm.trans hany')
      exact hlost
    · exact fun hlost ↦ ⟨anyAlt, hany, hlost⟩
  constructor
  · intro h
    rw [hlost (hlost_iff.1 h), Quantale.mul_bot]
  · intro h p q
    rw [hmet fun h' ↦ h (hlost_iff.2 h'), mul_zeroWidth, hanyAlt]
    exact ⟨fun h ↦ ⟨h.1, h.2⟩, fun h ↦ ⟨h.run, h.each⟩⟩

theorem behind_textMeaning (text : List ℕ) (property : ℕ → ℕ → Prop) :
    Behind (Boundaries.textMeaning text property) := fun _ ↦ rfl

end Exact

section Example

end Example

end Parabix.RE
