import Parabix.RE.ConstructorsExact

namespace Parabix.RE

open Library Library.Powers Library.Encoding UCD

def intersectCC (a b : CC) : Except Fault CC := do
  return ⟨← a.set.intersection b.set, a.alphabet⟩

def makeEmptySet : Except Fault RE := makeAlt []

/-- A repetition that may be left out. -/
def isOptionalRep : RE → Bool
  | rep _ lb _ => lb = 0
  | _ => false

/-- A class, also behind names. -/
def defCC : RE → Option CC
  | cc c => some c
  | name _ definition => definition.defCC
  | _ => none

section Operations

-- Whether two expressions are one node.
variable (same : RE → RE → Bool)

def makeDiff (lh rh : RE) : Except Fault RE :=
  if same lh rh then
    makeEmptySet
  else if rh.isEmptySet then
    .ok lh
  else if lh.isEmptySeq then
    if rh.isEmptySeq then
      makeEmptySet
    else if rh.isOptionalRep then
      makeEmptySet
    else
      match rh with
      | cc _ | seq _ => .ok lh
      | _ => .ok (diff lh rh)
  else if lh.isEmptySet then
    .ok lh
  else
    match lh with
    | diff lh₀ rh₀ => do
      makeDiff lh₀ (← makeAlt [rh₀, rh])
    | _ => .ok (diff lh rh)

def makeIntersect (lh rh : RE) : Except Fault RE :=
  if same lh rh then
    .ok lh
  else if lh.isEmptySet then
    .ok lh
  else if rh.isEmptySet then
    .ok rh
  else if lh.isEmptySeq then
    if rh.isOptionalRep then .ok lh else makeEmptySet
  else if rh.isEmptySeq then
    if lh.isOptionalRep then .ok rh else makeEmptySet
  else
    match lh.defCC, rh.defCC with
    | some lh_cc, some rh_cc =>
      if lh_cc.alphabet = rh_cc.alphabet then do
        return cc (← intersectCC lh_cc rh_cc)
      else
        .ok (intersect lh rh)
    | _, _ => .ok (intersect lh rh)

end Operations

section Condition

variable (same : RE → RE → Bool) (M : Meaning (Language ℕ))

/-- The left operand is not a sequence of no items from which a longer one is taken that matches
the empty string too. -/
def DiffReady : RE → RE → Prop
  | lh, rh => same lh rh = true ∨ rh.isEmptySet = true ∨
    match lh with
    | diff lh₀ rh₀ => ∃ r, makeAlt [rh₀, rh] = .ok r ∧ DiffReady lh₀ r
    | seq [] => ∀ items, rh = seq items → items = [] ∨ [] ∉ denote M rh
    | _ => True

/-- An operand that matches the empty string is intersected with the sequence of no items as a
repetition only. -/
def IntersectReady (lh rh : RE) : Prop :=
  same lh rh = true ∨
    (lh.isEmptySeq = true → [] ∈ denote M rh → rh.isOptionalRep = true) ∧
      (rh.isEmptySeq = true → [] ∈ denote M lh → lh.isOptionalRep = true)

end Condition

section Strings

variable {x y : Language ℕ}

theorem one_sdiff_of_mem (h : [] ∈ x) : (1 : Language ℕ) \ x = ⊥ := by
  ext w
  refine ⟨fun hw ↦ ?_, fun hw ↦ absurd hw not_mem_bot⟩
  obtain rfl : w = [] := hw.1
  exact absurd h hw.2

theorem one_sdiff_of_not_mem (h : [] ∉ x) : (1 : Language ℕ) \ x = 1 := by
  ext w
  refine ⟨fun hw ↦ hw.1, fun hw ↦ ⟨hw, ?_⟩⟩
  obtain rfl : w = [] := hw
  exact h

theorem one_inf_of_mem (h : [] ∈ x) : (1 : Language ℕ) ⊓ x = 1 := by
  ext w
  refine ⟨fun hw ↦ hw.1, fun hw ↦ ⟨hw, ?_⟩⟩
  obtain rfl : w = [] := hw
  exact h

theorem one_inf_of_not_mem (h : [] ∉ x) : (1 : Language ℕ) ⊓ x = ⊥ := by
  ext w
  refine ⟨fun hw ↦ ?_, fun hw ↦ absurd hw not_mem_bot⟩
  obtain rfl : w = [] := hw.1
  exact absurd hw.2 h

theorem one_ne_bot : (1 : Language ℕ) ≠ ⊥ := by
  intro h
  have hnil : ([] : List ℕ) ∈ (1 : Language ℕ) := rfl
  rw [h] at hnil
  exact not_mem_bot hnil

theorem nil_not_mem_letters (s : Set ℕ) : [] ∉ letters s := by
  rintro ⟨a, _, h⟩
  cases h

theorem letters_inter (s t : Set ℕ) : letters (s ∩ t) = letters s ⊓ letters t := by
  ext v
  constructor
  · rintro ⟨a, ⟨hs, ht⟩, rfl⟩
    exact ⟨⟨a, hs, rfl⟩, ⟨a, ht, rfl⟩⟩
  · rintro ⟨⟨a, hs, rfl⟩, ⟨b, ht, hb⟩⟩
    obtain rfl : a = b := by simpa using hb
    exact ⟨a, ⟨hs, ht⟩, rfl⟩

end Strings

section Exact

variable {same : RE → RE → Bool} {M : Meaning (Language ℕ)} {lh rh r : RE}

theorem nil_mem_optionalRep (h : rh.isOptionalRep = true) (hv : rh.Valid) :
    [] ∈ denote M rh := by
  cases rh with
  | rep re lb ub =>
    obtain rfl : lb = 0 := of_decide_eq_true h
    cases hv with
    | rep _ hb =>
      have hzero : (0 : ℕ) ∈ counts 0 ub :=
        ⟨Int.le_refl 0, hb.le.imp id fun hle ↦ by exact_mod_cast hle⟩
      have hle := pow_le_powers (a := denote M re) hzero
      rw [pow_zero] at hle
      rw [denote]
      exact hle rfl
  | _ => cases h

/-- What the constructor of alternatives returns is right. -/
theorem makeAlt_pair {a b : RE} (ha : a.Valid) (hb : b.Valid) (h : makeAlt [a, b] = .ok r) :
    r.Valid ∧ denote M r = denote M a ⊔ denote M b := by
  have hv : ∀ e ∈ [a, b], e.Valid := by
    intro e he
    rcases List.mem_pair.1 he with rfl | rfl
    · exact ha
    · exact hb
  obtain ⟨hvalid, hdenote⟩ := makeAlt_returns (M := M) hv h
  refine ⟨hvalid, ?_⟩
  rw [hdenote, denoteAlt, denoteAlt_singleton]

theorem denote_makeEmptySet : makeEmptySet = .ok (alt []) := rfl

/-- A constructor returns an expression of a meaning. -/
def Gives (M : Meaning (Language ℕ)) (result : Except Fault RE) (x : Language ℕ) : Prop :=
  ∃ e, result = .ok e ∧ denote M e = x

theorem gives_ok_iff {e : RE} {x : Language ℕ} : Gives M (.ok e) x ↔ denote M e = x := by
  refine ⟨fun h ↦ ?_, fun h ↦ ⟨e, rfl, h⟩⟩
  obtain ⟨e', he, h⟩ := h
  obtain rfl := Except.ok.inj he
  exact h

theorem gives_emptySet_iff {x : Language ℕ} : Gives M makeEmptySet x ↔ x = ⊥ := by
  rw [denote_makeEmptySet, gives_ok_iff, denote, denoteAlt, eq_comm]

theorem eq_of_isEmptySeq (h : lh.isEmptySeq = true) : lh = seq [] := by
  cases lh with
  | seq elems => rw [List.isEmpty_iff.1 h]
  | _ => cases h

theorem diffReady_emptySeq (hnot : ¬ same (seq []) rh = true)
    (hset : ¬ rh.isEmptySet = true) : DiffReady same M (seq []) rh ↔
      ∀ items, rh = seq items → items = [] ∨ [] ∉ denote M rh := by
  unfold DiffReady
  exact ⟨fun h ↦ (h.resolve_left hnot).resolve_left hset, fun h ↦ .inr (.inr h)⟩

/-- Without a sequence of no items or a difference on the left there is nothing to ask for. -/
theorem diffReady_of_plain (hseq : ¬ lh.isEmptySeq = true)
    (hdiff : ∀ lh₀ rh₀, lh ≠ diff lh₀ rh₀) : DiffReady same M lh rh := by
  unfold DiffReady
  refine .inr (.inr ?_)
  split
  · exact absurd rfl (hdiff _ _)
  · exact absurd rfl hseq
  · exact trivial

theorem makeDiff_iff (hsame : ∀ a b, same a b = true → a = b)
    (hM : ∀ a s, M.cc a s = letters s) (hl : lh.Valid) (hr : rh.Valid) :
    Gives M (makeDiff same lh rh) (denote M lh \ denote M rh) ↔ DiffReady same M lh rh := by
  fun_induction makeDiff same lh rh with
  | case1 lh rh heq =>
    rw [gives_emptySet_iff, hsame lh rh heq, sdiff_self]
    refine iff_of_true rfl ?_
    unfold DiffReady
    exact .inl (hsame lh rh heq ▸ heq)
  | case2 lh rh _ hset =>
    rw [gives_ok_iff, denote_emptySet hr hset, sdiff_bot]
    refine iff_of_true rfl ?_
    unfold DiffReady
    exact .inr (.inl hset)
  | case3 lh rh hnot hset hseq hseq' =>
    obtain rfl := eq_of_isEmptySeq hseq
    obtain rfl := eq_of_isEmptySeq hseq'
    rw [gives_emptySet_iff, sdiff_self, diffReady_emptySeq hnot hset]
    exact iff_of_true rfl fun items hitems ↦ .inl (RE.seq.inj hitems).symm
  | case4 lh rh hnot hset hseq _ hrep =>
    obtain rfl := eq_of_isEmptySeq hseq
    rw [gives_emptySet_iff, denote_emptySeq hseq, one_sdiff_of_mem (nil_mem_optionalRep hrep hr),
      diffReady_emptySeq hnot hset]
    refine iff_of_true rfl fun items hitems ↦ ?_
    rw [hitems] at hrep
    cases hrep
  | case5 lh hseq c hnot hset _ _ =>
    obtain rfl := eq_of_isEmptySeq hseq
    rw [gives_ok_iff, denote_emptySeq hseq, denote, hM,
      one_sdiff_of_not_mem (nil_not_mem_letters _), diffReady_emptySeq hnot hset]
    refine iff_of_true rfl fun items hitems ↦ ?_
    cases hitems
  | case6 lh hseq elems hnot hset hseq' _ =>
    obtain rfl := eq_of_isEmptySeq hseq
    rw [gives_ok_iff, denote_emptySeq hseq, diffReady_emptySeq hnot hset]
    by_cases hnil : [] ∈ denote M (seq elems)
    · rw [one_sdiff_of_mem hnil]
      refine iff_of_false one_ne_bot fun h ↦ ?_
      rcases h elems rfl with rfl | hnone
      · exact hseq' rfl
      · exact hnone hnil
    · rw [one_sdiff_of_not_mem hnil]
      exact iff_of_true rfl fun _ _ ↦ .inr hnil
  | case7 lh rh hnot hset hseq _ _ _ hitems =>
    obtain rfl := eq_of_isEmptySeq hseq
    rw [gives_ok_iff, denote, diffReady_emptySeq hnot hset]
    exact iff_of_true rfl fun items h ↦ (hitems items h).elim
  | case8 lh rh _ _ hseq hset =>
    rw [gives_ok_iff, denote_emptySet hl hset, bot_sdiff]
    refine iff_of_true rfl (diffReady_of_plain hseq ?_)
    rintro lh₀ rh₀ rfl
    cases hset
  | case9 rh hset lh₀ rh₀ hnot _ _ ih =>
    cases hl with
    | diff hl₀ hr₀ =>
      have hready : DiffReady same M (diff lh₀ rh₀) rh ↔
          ∃ r, makeAlt [rh₀, rh] = .ok r ∧ DiffReady same M lh₀ r := by
        rw [DiffReady]
        exact ⟨fun h ↦ (h.resolve_left hnot).resolve_left hset, fun h ↦ .inr (.inr h)⟩
      rw [hready]
      constructor
      · rintro ⟨e, he, hdenote⟩
        obtain ⟨r, hr', he⟩ := bind_eq_ok.1 he
        obtain ⟨hvalid, hr''⟩ := makeAlt_pair (M := M) hr₀ hr hr'
        refine ⟨r, hr', (ih r hl₀ hvalid).1 ⟨e, he, ?_⟩⟩
        rw [hdenote, denote, hr'', sdiff_sdiff]
      · rintro ⟨r, hr', h⟩
        obtain ⟨hvalid, hr''⟩ := makeAlt_pair (M := M) hr₀ hr hr'
        obtain ⟨e, he, hdenote⟩ := (ih r hl₀ hvalid).2 h
        refine ⟨e, bind_eq_ok.2 ⟨r, hr', he⟩, ?_⟩
        rw [hdenote, denote, hr'', sdiff_sdiff]
  | case10 lh rh _ _ hseq _ hdiff =>
    rw [gives_ok_iff, denote]
    exact iff_of_true rfl (diffReady_of_plain hseq hdiff)

theorem defCC_denote {c : CC} (h : lh.defCC = some c) (hv : lh.Valid) :
    c.set.WellFormed ∧ denote M lh = M.cc c.alphabet c.set.members := by
  fun_induction defCC lh with
  | case1 c' =>
    obtain rfl := Option.some_inj.1 h
    cases hv with
    | cc hc => exact ⟨hc, by rw [denote]⟩
  | case2 n definition ih =>
    cases hv with
    | name _ hv =>
      rw [denote]
      exact ih h hv
  | case3 => cases h

theorem intersectCC_spec {c d : CC} (hc : c.set.WellFormed) (hd : d.set.WellFormed) :
    ∃ u, intersectCC c d = .ok u ∧ u.alphabet = c.alphabet ∧
      u.set.members = c.set.members ∩ d.set.members := by
  obtain ⟨s, hs, -, -, hmembers⟩ := intersection_produces hc.verified hd.verified
  exact ⟨⟨s, c.alphabet⟩, by rw [intersectCC, hs, ok_bind, pure_eq_ok], rfl, hmembers⟩

theorem not_isEmptySeq_of_isEmptySet (h : lh.isEmptySet = true) : ¬ lh.isEmptySeq = true := by
  cases lh with
  | alt elems => exact Bool.false_ne_true
  | cc c => exact Bool.false_ne_true
  | _ => cases h

theorem not_isEmptySeq_of_isOptionalRep (h : lh.isOptionalRep = true) :
    ¬ lh.isEmptySeq = true := by
  cases lh with
  | rep re lb ub => exact Bool.false_ne_true
  | _ => cases h

theorem nil_mem_emptySeq (h : lh.isEmptySeq = true) : [] ∈ denote M lh := by
  rw [denote_emptySeq h]
  rfl

/-- The shortcut for a sequence of no items on one side. -/
theorem intersect_emptySeq_iff (hseq : lh.isEmptySeq = true) (hr : rh.Valid) :
    Gives M (if rh.isOptionalRep then .ok lh else makeEmptySet) (1 ⊓ denote M rh) ↔
      ([] ∈ denote M rh → rh.isOptionalRep = true) := by
  split_ifs with hrep
  · rw [gives_ok_iff, denote_emptySeq hseq, one_inf_of_mem (nil_mem_optionalRep hrep hr)]
    exact iff_of_true rfl fun _ ↦ hrep
  · rw [gives_emptySet_iff]
    by_cases hnil : [] ∈ denote M rh
    · rw [one_inf_of_mem hnil]
      exact iff_of_false one_ne_bot fun h ↦ hrep (h hnil)
    · rw [one_inf_of_not_mem hnil]
      exact iff_of_true rfl fun h ↦ absurd h hnil

theorem makeIntersect_iff (hsame : ∀ a b, same a b = true → a = b)
    (hM : ∀ a s, M.cc a s = letters s) (hl : lh.Valid) (hr : rh.Valid) :
    Gives M (makeIntersect same lh rh) (denote M lh ⊓ denote M rh) ↔
      IntersectReady same M lh rh := by
  rw [makeIntersect, IntersectReady]
  by_cases heq : same lh rh = true
  · rw [if_pos heq, gives_ok_iff, hsame lh rh heq, inf_idem]
    exact iff_of_true rfl (.inl (hsame lh rh heq ▸ heq))
  rw [if_neg heq]
  by_cases hset : lh.isEmptySet = true
  · rw [if_pos hset, gives_ok_iff, denote_emptySet hl hset, bot_inf_eq]
    exact iff_of_true rfl (.inr ⟨fun h ↦ absurd h (not_isEmptySeq_of_isEmptySet hset),
      fun _ h ↦ absurd h not_mem_bot⟩)
  rw [if_neg hset]
  by_cases hset' : rh.isEmptySet = true
  · rw [if_pos hset', gives_ok_iff, denote_emptySet hr hset', inf_bot_eq]
    exact iff_of_true rfl (.inr ⟨fun _ h ↦ absurd h not_mem_bot,
      fun h ↦ absurd h (not_isEmptySeq_of_isEmptySet hset')⟩)
  rw [if_neg hset']
  by_cases hseq : lh.isEmptySeq = true
  · rw [if_pos hseq, denote_emptySeq hseq, intersect_emptySeq_iff hseq hr]
    refine ⟨fun h ↦ .inr ⟨fun _ ↦ h, fun hr' _ ↦ ?_⟩, fun h ↦ (h.resolve_left heq).1 hseq⟩
    exact absurd hr' (not_isEmptySeq_of_isOptionalRep (h (nil_mem_emptySeq hr')))
  rw [if_neg hseq]
  by_cases hseq' : rh.isEmptySeq = true
  · rw [if_pos hseq', denote_emptySeq hseq', inf_comm, intersect_emptySeq_iff hseq' hl]
    exact ⟨fun h ↦ .inr ⟨fun hl' ↦ absurd hl' hseq, fun _ ↦ h⟩,
      fun h ↦ (h.resolve_left heq).2 hseq'⟩
  · rw [if_neg hseq']
    refine iff_of_true ?_ (.inr ⟨fun h ↦ absurd h hseq, fun h ↦ absurd h hseq'⟩)
    cases hlcc : lh.defCC with
    | none => exact ⟨intersect lh rh, rfl, by rw [denote]⟩
    | some c =>
      cases hrcc : rh.defCC with
      | none => exact ⟨intersect lh rh, rfl, by rw [denote]⟩
      | some d =>
        obtain ⟨hc, hlh⟩ := defCC_denote (M := M) hlcc hl
        obtain ⟨hd, hrh⟩ := defCC_denote (M := M) hrcc hr
        by_cases halphabet : c.alphabet = d.alphabet
        · obtain ⟨u, hu, _, hmembers⟩ := intersectCC_spec hc hd
          refine ⟨cc u, ?_, ?_⟩
          · dsimp only
            rw [if_pos halphabet, hu, ok_bind, pure_eq_ok]
          · rw [denote, hM, hmembers, letters_inter, hlh, hrh, hM, hM]
        · exact ⟨intersect lh rh, if_neg halphabet, by rw [denote]⟩

/-- The differences and intersections of what two expressions match, and when the constructors
return them. -/
theorem makeDiff_makeIntersect_exact (same : RE → RE → Bool)
    (hsame : ∀ a b, same a b = true → a = b) (M : Meaning (Language ℕ))
    (hM : ∀ a s, M.cc a s = letters s) (l r : RE) (hl : l.Valid) (hr : r.Valid) :
    (Gives M (makeDiff same l r) (denote M l \ denote M r) ↔ DiffReady same M l r) ∧
      (Gives M (makeIntersect same l r) (denote M l ⊓ denote M r) ↔
        IntersectReady same M l r) :=
  ⟨makeDiff_iff hsame hM hl hr, makeIntersect_iff hsame hM hl hr⟩

/-- Two nodes are one only if both are leaves of a kind. -/
def sameAnchor (a b : RE) : Bool :=
  match a, b with
  | .start, .start => true
  | .stop, .stop => true
  | _, _ => false

theorem sameAnchor_eq (a b : RE) (h : sameAnchor a b = true) : a = b := by
  cases a <;> cases b <;> first | rfl | cases h

/-- The empty string and a letter. -/
theorem makeDiff_makeIntersect_exact_letter :
    (Gives words (makeDiff sameAnchor (seq []) (letter 97))
      (denote words (seq []) \ denote words (letter 97)) ↔
        DiffReady sameAnchor words (seq []) (letter 97)) ∧
      (Gives words (makeIntersect sameAnchor (seq []) (letter 97))
        (denote words (seq []) ⊓ denote words (letter 97)) ↔
          IntersectReady sameAnchor words (seq []) (letter 97)) :=
  makeDiff_makeIntersect_exact sameAnchor sameAnchor_eq words (fun _ _ ↦ rfl) (seq []) (letter 97)
    (.seq (List.forall_mem_nil _)) (letter_valid (by decide))

/-- A sequence of an optional letter is not taken away from the empty string, and two sequences of
no items have no intersection. -/
theorem makeDiff_makeIntersect_nullable :
    ¬ Gives words (makeDiff sameAnchor (seq []) (seq [rep (letter 97) 0 1, rep (letter 98) 0 1]))
      (denote words (seq []) \ denote words (seq [rep (letter 97) 0 1, rep (letter 98) 0 1])) ∧
    ¬ Gives words (makeIntersect sameAnchor (seq []) (seq []))
      (denote words (seq []) ⊓ denote words (seq [])) := by
  constructor
  · rw [show makeDiff sameAnchor (seq []) (seq [rep (letter 97) 0 1, rep (letter 98) 0 1]) =
      .ok (seq []) from rfl, gives_ok_iff, denote_emptySeq rfl]
    have hoptional (cp : ℕ) (hcp : cp ≤ unicodeMax) :
        [] ∈ denote words (rep (letter cp) 0 1) :=
      nil_mem_optionalRep rfl (.rep (letter_valid hcp)
        ⟨by decide, by decide, .inr (by decide), by decide⟩)
    have hnil : [] ∈ denote words (seq [rep (letter 97) 0 1, rep (letter 98) 0 1]) := by
      rw [denote, denoteSeq, denoteSeq_singleton]
      exact ⟨[], hoptional 97 (by decide), [], hoptional 98 (by decide), rfl⟩
    rw [one_sdiff_of_mem hnil]
    exact one_ne_bot
  · rw [show makeIntersect sameAnchor (seq []) (seq []) = makeEmptySet from rfl,
      gives_emptySet_iff, denote_emptySeq rfl, inf_idem]
    exact one_ne_bot

end Exact

end Parabix.RE
