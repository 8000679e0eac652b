import Parabix.RE.SequenceSearchExact

namespace Parabix.RE.Expression

open Library Library.Powers Library.Spans UCD
open Memoization (PropertyKind)

section Parse

def resolveToCC : Expression → Option CC
  | cc c => some c
  | propertyExpression _ _ (some resolvedRE) => resolveToCC resolvedRE
  | name _ (some definition) => resolveToCC definition
  | capture _ capturedRE => resolveToCC capturedRE
  | reference _ captured _ => resolveToCC captured
  | _ => none

/-- An Assertion or a boundary, which is skipped. -/
def isZeroWidth : Expression → Bool
  | assertion _ _ _ => true
  | propertyExpression .Boundary _ _ => true
  | _ => false

/-- The loop over the items from the `i`-th one on, if it ends. The next item is never turned to. -/
def prefixLoop (elems : List Expression) (suffix1 : Expression) (i : ℕ) :
    ℕ → List CC → Option (Except Fault (Expression × Expression))
  | 0, _ => none
  | fuel + 1, prefixCCs =>
    if h : i < elems.length - 1 then
      let item := elems[i]
      match resolveToCC item with
      | some cc1 =>
        match CC_Sequence_Search (prefixCCs ++ [cc1]) suffix1 with
        | .error fault => some (.error fault)
        | .ok false => some (.ok (makeSeq (elems.take (i + 1)), makeSeq (elems.drop (i + 1))))
        | .ok true =>
          if isZeroWidth item then prefixLoop elems suffix1 i fuel (prefixCCs ++ [cc1])
          else some (.ok (makeSeq [], seq elems))
      | none =>
        if isZeroWidth item then prefixLoop elems suffix1 i fuel prefixCCs
        else some (.ok (makeSeq [], seq elems))
    else some (.ok (makeSeq [], seq elems))

/-- A sequence of classes that is found at the beginning only, and what comes behind it. -/
def ParseUniquePrefix (fuel : ℕ) : Expression → Option (Except Fault (Expression × Expression))
  | seq [] => some (.ok (makeSeq [], seq []))
  | seq [item] => some (.ok (makeSeq [], seq [item]))
  | seq (start :: item :: elems) => some (.ok (start, makeSeq (item :: elems)))
  | seq (front :: item :: elems) =>
    prefixLoop (front :: item :: elems) (makeSeq (item :: elems)) 0 fuel []
  | r => some (.ok (makeSeq [], r))

end Parse

section Condition

/-- The item that the loop does not get past. -/
inductive Stuck : Expression → Prop
  | intro {front item : Expression} {elems : List Expression} (hzero : isZeroWidth front = true)
    (hcc : resolveToCC front = none) : Stuck (seq (front :: item :: elems))

/-- The first item is a class only once, and the search for it in the others is right. -/
def Searched (re : Expression) : Prop :=
  ∀ front rest c, re = seq (front :: rest) → resolveToCC front = some c →
    (isZeroWidth front = true → CC_Sequence_Search [c] (makeSeq rest) ≠ .ok true) ∧
      (CC_Sequence_Search [c] (makeSeq rest) = .ok false → Finds [c] (makeSeq rest))

/-- A sequence of classes that is not empty. -/
def IsClasses (re : Expression) : Prop :=
  ∃ items, items ≠ [] ∧ (∀ x ∈ items, resolveToCC x ≠ none) ∧ re = makeSeq items

end Condition

section Termination

variable {front item : Expression} {elems : List Expression} {suffix1 : Expression}
variable {prefixCCs : List CC} {fuel : ℕ}

theorem prefixLoop_none (hcc : resolveToCC front = none) :
    prefixLoop (front :: item :: elems) suffix1 0 (fuel + 1) prefixCCs =
      if isZeroWidth front then prefixLoop (front :: item :: elems) suffix1 0 fuel prefixCCs
      else some (.ok (makeSeq [], seq (front :: item :: elems))) := by
  have h : 0 < (front :: item :: elems).length - 1 := Nat.zero_lt_succ _
  rw [prefixLoop, dif_pos h]
  simp only [List.getElem_cons_zero, hcc]

theorem prefixLoop_error {c : CC} {fault : Fault} (hcc : resolveToCC front = some c)
    (hs : CC_Sequence_Search (prefixCCs ++ [c]) suffix1 = .error fault) :
    prefixLoop (front :: item :: elems) suffix1 0 (fuel + 1) prefixCCs = some (.error fault) := by
  have h : 0 < (front :: item :: elems).length - 1 := Nat.zero_lt_succ _
  rw [prefixLoop, dif_pos h]
  simp only [List.getElem_cons_zero, hcc, hs]

theorem prefixLoop_unique {c : CC} (hcc : resolveToCC front = some c)
    (hs : CC_Sequence_Search (prefixCCs ++ [c]) suffix1 = .ok false) :
    prefixLoop (front :: item :: elems) suffix1 0 (fuel + 1) prefixCCs =
      some (.ok (makeSeq [front], makeSeq (item :: elems))) := by
  have h : 0 < (front :: item :: elems).length - 1 := Nat.zero_lt_succ _
  rw [prefixLoop, dif_pos h]
  simp only [List.getElem_cons_zero, hcc, hs]
  rfl

theorem prefixLoop_found {c : CC} (hcc : resolveToCC front = some c)
    (hs : CC_Sequence_Search (prefixCCs ++ [c]) suffix1 = .ok true) :
    prefixLoop (front :: item :: elems) suffix1 0 (fuel + 1) prefixCCs =
      if isZeroWidth front then
        prefixLoop (front :: item :: elems) suffix1 0 fuel (prefixCCs ++ [c])
      else some (.ok (makeSeq [], seq (front :: item :: elems))) := by
  have h : 0 < (front :: item :: elems).length - 1 := Nat.zero_lt_succ _
  rw [prefixLoop, dif_pos h]
  simp only [List.getElem_cons_zero, hcc, hs]

theorem prefixLoop_stuck (hzero : isZeroWidth front = true) (hcc : resolveToCC front = none) :
    prefixLoop (front :: item :: elems) suffix1 0 fuel prefixCCs = none := by
  induction fuel with
  | zero => rfl
  | succ fuel ih => rw [prefixLoop_none hcc, if_pos hzero, ih]

theorem search_long (h : 64 ≤ prefixCCs.length) :
    CC_Sequence_Search prefixCCs suffix1 = .error (.fatal "CC_seq too long!") := if_pos h

/-- The loop goes on with a class until the sequence of the classes is too long. -/
theorem prefixLoop_ends {c : CC} (hcc : resolveToCC front = some c)
    (h : 64 < fuel + prefixCCs.length) (hlength : prefixCCs.length < 64) :
    (prefixLoop (front :: item :: elems) suffix1 0 fuel prefixCCs).isSome = true := by
  induction fuel generalizing prefixCCs with
  | zero => omega
  | succ fuel ih =>
    have hnext : (prefixCCs ++ [c]).length = prefixCCs.length + 1 := List.length_append
    cases hs : CC_Sequence_Search (prefixCCs ++ [c]) suffix1 with
    | error fault =>
      rw [prefixLoop_error hcc hs]
      rfl
    | ok found =>
      cases found with
      | false =>
        rw [prefixLoop_unique hcc hs]
        rfl
      | true =>
        rw [prefixLoop_found hcc hs]
        split_ifs
        · have hshort : ¬ 64 ≤ (prefixCCs ++ [c]).length := by
            intro hlong
            rw [search_long hlong] at hs
            cases hs
          exact ih (by omega) (by omega)
        · rfl

theorem parse_terminates_iff (re : Expression) :
    (∃ fuel, (ParseUniquePrefix fuel re).isSome = true) ↔ ¬ Stuck re := by
  constructor
  · rintro ⟨fuel, h⟩ hstuck
    cases hstuck with
    | intro hzero hcc =>
      rw [ParseUniquePrefix] at h
      · rw [prefixLoop_stuck hzero hcc] at h
        cases h
      · rintro rfl
        cases hzero
  · intro hstuck
    refine ⟨65, ?_⟩
    fun_cases ParseUniquePrefix 65 re with
    | case4 front item elems hstart =>
      cases hcc : resolveToCC front with
      | some c => exact prefixLoop_ends hcc (by decide) (by decide)
      | none =>
        have hzero : ¬ isZeroWidth front = true := fun hzero ↦ hstuck (.intro hzero hcc)
        rw [prefixLoop_none hcc, if_neg hzero]
        rfl
    | _ => rfl

end Termination

section Meaning

variable {e front item : Expression} {elems items newSeq : List Expression} {c : CC}
variable {suffix1 u s : Expression} {prefixCCs : List CC} {fuel : ℕ}

/-- An item that stands for a class matches its characters only. -/
theorem resolve_spec (hv : e.Valid) (h : resolveToCC e = some c) :
    c.set.WellFormed ∧ ∀ M : Interpretation Span, denote M e ≤ M.cc c.alphabet c.set.members := by
  induction hv with
  | cc hc =>
    obtain rfl := Option.some.inj h
    exact ⟨hc, fun _ ↦ le_rfl⟩
  | capture _ _ ih => exact ih h
  | @name definition _ _ ih =>
    cases definition with
    | none => cases h
    | some definition => exact ih definition rfl h
  | @propertyExpression resolvedRE _ _ _ ih =>
    cases resolvedRE with
    | none => cases h
    | some resolvedRE => exact ih resolvedRE rfl h
  | reference n i _ ih => exact (ih h).imp_right fun hle M ↦ (M.reference_le n i _).trans (hle M)
  | _ => cases h

theorem nestedItems_of_resolve (h : resolveToCC e ≠ none) : e.nestedItems = [e] := by
  cases e with
  | seq elems => exact absurd rfl h
  | _ => rfl

theorem pushSeq_resolved (h : ∀ x ∈ items, resolveToCC x ≠ none) :
    (∃ x ∈ items, pushSeq newSeq items = x) ∨
      pushSeq newSeq items = collapseSeq (newSeq ++ items) := by
  induction items generalizing newSeq with
  | nil => exact .inr (by rw [pushSeq, List.append_nil])
  | cons item items ih =>
    obtain ⟨hitem, hitems⟩ := List.forall_mem_cons.1 h
    rw [pushSeq, nestedItems_of_resolve hitem]
    split_ifs
    · exact .inl ⟨item, List.mem_cons_self .., rfl⟩
    · obtain ⟨x, hx, heq⟩ | heq := @ih (newSeq ++ [item]) hitems
      · exact .inl ⟨x, List.mem_cons_of_mem _ hx, heq⟩
      · rw [List.append_assoc] at heq
        exact .inr heq

theorem makeSeq_resolved (h : resolveToCC e ≠ none) : makeSeq [e] = e := by
  obtain ⟨x, hx, heq⟩ | heq := @pushSeq_resolved [e] [] (List.forall_mem_singleton.2 h)
  · exact heq.trans (List.mem_singleton.1 hx)
  · exact heq

/-- A sequence of classes is a class, or has more than one item. -/
theorem IsClasses.cases (h : IsClasses e) :
    resolveToCC e ≠ none ∨ ∃ x y l, e = seq (x :: y :: l) := by
  obtain ⟨items, hne, hitems, rfl⟩ := h
  obtain ⟨x, hx, heq⟩ | heq := @pushSeq_resolved items [] hitems
  · rw [makeSeq, heq]
    exact .inl (hitems x hx)
  · rw [makeSeq, heq, List.nil_append]
    cases items with
    | nil => exact absurd rfl hne
    | cons x l =>
      cases l with
      | nil => exact .inl (hitems x (List.mem_cons_self ..))
      | cons y l => exact .inr ⟨x, y, l, rfl⟩

theorem not_isClasses_nil : ¬ IsClasses (makeSeq []) := by
  intro h
  obtain hcc | ⟨x, y, l, heq⟩ := h.cases
  · exact hcc rfl
  · cases heq

theorem not_isClasses_start : ¬ IsClasses start := by
  intro h
  obtain hcc | ⟨x, y, l, heq⟩ := h.cases
  · exact hcc rfl
  · cases heq

/-- What is returned is the first item and the others, or nothing and all. -/
theorem prefixLoop_ok (h : prefixLoop (front :: item :: elems) suffix1 0 fuel prefixCCs =
      some (.ok (u, s))) :
    (resolveToCC front ≠ none ∧ u = makeSeq [front] ∧ s = makeSeq (item :: elems)) ∨
      u = makeSeq [] ∧ s = seq (front :: item :: elems) := by
  have hnone (heq : (some (.ok (makeSeq [], seq (front :: item :: elems))) :
      Option (Except Fault (Expression × Expression))) = some (.ok (u, s))) :
      u = makeSeq [] ∧ s = seq (front :: item :: elems) := by
    obtain ⟨rfl, rfl⟩ := Prod.mk.inj (Except.ok.inj (Option.some.inj heq))
    exact ⟨rfl, rfl⟩
  induction fuel generalizing prefixCCs with
  | zero => cases h
  | succ fuel ih =>
    cases hcc : resolveToCC front with
    | none =>
      rw [prefixLoop_none hcc] at h
      split_ifs at h
      · simpa only [hcc] using ih h
      · exact .inr (hnone h)
    | some c =>
      cases hs : CC_Sequence_Search (prefixCCs ++ [c]) suffix1 with
      | error fault =>
        rw [prefixLoop_error hcc hs] at h
        cases h
      | ok found =>
        cases found with
        | false =>
          rw [prefixLoop_unique hcc hs] at h
          obtain ⟨rfl, rfl⟩ := Prod.mk.inj (Except.ok.inj (Option.some.inj h))
          exact .inl ⟨Option.some_ne_none c, rfl, rfl⟩
        | true =>
          rw [prefixLoop_found hcc hs] at h
          split_ifs at h
          · simpa only [hcc] using ih h
          · exact .inr (hnone h)

/-- If the loop is left at the class itself, it was not found in the other items. -/
theorem prefixLoop_searched (hcc : resolveToCC front = some c)
    (hzero : isZeroWidth front = true → CC_Sequence_Search [c] suffix1 ≠ .ok true)
    (h : prefixLoop (front :: item :: elems) suffix1 0 fuel [] = some (.ok (u, s)))
    (hu : u ≠ makeSeq []) : CC_Sequence_Search [c] suffix1 = .ok false := by
  cases fuel with
  | zero => cases h
  | succ fuel =>
    cases hs : CC_Sequence_Search ([] ++ [c]) suffix1 with
    | error fault =>
      rw [prefixLoop_error hcc hs] at h
      cases h
    | ok found =>
      cases found with
      | false => exact hs
      | true =>
        rw [prefixLoop_found hcc hs] at h
        split_ifs at h with hz
        · exact absurd hs (hzero hz)
        · exact absurd (Prod.mk.inj (Except.ok.inj (Option.some.inj h))).1.symm hu

end Meaning

section Exact

variable {t : List ℕ} {M : Interpretation Span} {front : Expression} {rest : List Expression}
variable {c : CC} {p q : ℕ}

theorem WithinText.classes (hM : WithinText t M) : Classes M := by
  intro a
  refine le_bot_iff.1 fun p q h ↦ ?_
  obtain ⟨-, x, -, hx⟩ := hM.cc_le a ∅ p q h
  exact hx

/-- Behind a class that is not found in the other items, no match has a character of it. -/
theorem not_denote_of_search (hM : WithinText t M) (hfront : front.Valid)
    (hrest : ∀ e ∈ rest, e.Valid) (hcc : resolveToCC front = some c)
    (hs : CC_Sequence_Search [c] (makeSeq rest) = .ok false) (h : Finds [c] (makeSeq rest))
    (hmatch : denote M (seq (front :: rest)) p q) (p' q' : ℕ) (hp : p < p') (hq : q' ≤ q) :
    ¬ denote M front p' q' := by
  intro hagain
  obtain ⟨hwf, hle⟩ := resolve_spec hfront hcc
  obtain ⟨m, hfirst, hothers⟩ := hmatch
  obtain ⟨rfl, -⟩ := hM.cc_le _ _ _ _ (hle M _ _ hfirst)
  obtain ⟨rfl, x, hx, hxc⟩ := hM.cc_le _ _ _ _ (hle M _ _ hagain)
  have hmatched : Matched t [c] [c].length (p' + 1) := (Matched.zero p').succ hx rfl hxc
  change denoteSeq M rest _ _ at hothers
  rw [← denote_makeSeq hM.classes hrest] at hothers
  exact not_matched_of_search hM (List.forall_mem_singleton.2 hwf) (valid_makeSeq hrest) h hs
    hothers (Nat.succ_le_succ hp) hq hmatched

end Exact

section Example

end Example

end Parabix.RE.Expression
