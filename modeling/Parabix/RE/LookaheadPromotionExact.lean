import Parabix.RE.ExpressionConstructors

namespace Parabix.RE.Expression

open Library Library.Powers Library.Spans UCD
open Memoization (PropertyKind Mode GroupSense)

section Starts

/-- Where something is matched. -/
def starts (x : Span) : Set ℕ := {p | ∃ q, x p q}

variable {x y y' : Span}

theorem starts_sup : starts (x ⊔ y) = starts x ∪ starts y := Set.ext fun _ ↦ exists_or

/-- What follows matters by its starts only. -/
theorem starts_mul_congr (h : starts y = starts y') : starts (x * y) = starts (x * y') := by
  have hstep {y y' : Span} (h : starts y ⊆ starts y') : starts (x * y) ⊆ starts (x * y') := by
    rintro p ⟨q, m, hx, hy⟩
    obtain ⟨q', hy'⟩ := h ⟨q, hy⟩
    exact ⟨q', m, hx, hy'⟩
  exact (hstep h.subset).antisymm (hstep h.superset)

/-- A lookahead matches where what it asserts starts. -/
theorem starts_lookahead :
    starts (zeroWidth (Boundaries.asserted .LookAhead .Positive x)) = starts x := by
  ext p
  constructor
  · rintro ⟨_, rfl, h⟩
    exact h
  · exact fun h ↦ ⟨p, rfl, h⟩

end Starts

section Promotion

variable {m : Memory} {print : CC → String} {same : Expression → Expression → Bool}

mutual

theorem promote_eq_none (e : Expression) (h : promotes e = false) :
    promote m print same e = .ok none := by
  cases e with
  | alt elems =>
    rw [promote, promoteElems_eq elems h]
    rfl
  | assertion asserted kind sense =>
    cases kind <;> cases sense
    · rfl
    · rfl
    · cases h
    · rfl
  | capture n captured =>
    rw [promote, promote_eq_none captured h]
    rfl
  | group mode re sense =>
    rw [promote, promote_eq_none re h]
    rfl
  | intersect lh rh =>
    rw [promotes, Bool.or_eq_false_iff] at h
    rw [promote, promote_eq_none lh h.1, ok_bind, promote_eq_none rh h.2]
    rfl
  | range lo hi =>
    rw [promotes, Bool.or_eq_false_iff] at h
    rw [promote, promote_eq_none lo h.1, ok_bind, promote_eq_none hi h.2]
    rfl
  | seq elems =>
    rw [promote, promoteBack_eq_none elems h]
    rfl
  | _ => rfl

theorem promoteElems_eq (elems : List Expression) (h : promotesAny elems = false) :
    promoteElems m print same elems = .ok (elems, false) := by
  cases elems with
  | nil => rfl
  | cons e elems =>
    rw [promotesAny, Bool.or_eq_false_iff] at h
    rw [promoteElems, promote_eq_none e h.1, ok_bind, promoteElems_eq elems h.2]
    rfl

theorem promoteBack_eq_none (elems : List Expression) (h : promotesLast elems = false) :
    promoteBack m print same elems = .ok none := by
  cases elems with
  | nil => rfl
  | cons e elems =>
    cases elems with
    | nil =>
      rw [promoteBack, promote_eq_none e h]
      rfl
    | cons e' elems =>
      rw [promoteBack, promoteBack_eq_none (e' :: elems) h]
      · rfl
      · exact List.cons_ne_nil e' elems

end

/-- The new expression matches from the same positions as the old one. -/
def Keeps (r e : Expression) : Prop :=
  r.Valid ∧ ∀ {Λ : Type} (M : Reading Λ) (modes : Λ),
    starts (read M modes r) = starts (read M modes e)

theorem keeps_self {e : Expression} (hv : e.Valid) : Keeps e e := ⟨hv, fun _ _ ↦ rfl⟩

mutual

theorem promote_keeps {o : Option Expression} (e : Expression) (hv : e.Valid)
    (hs : separate e = true) (h : promote m print same e = .ok o) : Keeps (o.getD e) e := by
  cases e with
  | alt elems =>
    cases hv with
    | alt hv =>
      rw [promote] at h
      obtain ⟨⟨elems1, any_changed⟩, helems, h⟩ := bind_eq_ok.1 h
      obtain ⟨hv1, hstarts⟩ := promoteElems_keeps elems hv hs helems
      dsimp only at h
      split_ifs at h
      · obtain ⟨r, hr, h⟩ := bind_eq_ok.1 h
        obtain rfl := Except.ok.inj h
        obtain ⟨hvr, hr⟩ := makeAlt_right hv1 hr
        refine ⟨hvr, fun M modes ↦ ?_⟩
        rw [Option.getD_some, hr, hstarts, read]
      · obtain rfl := Except.ok.inj h
        exact keeps_self (.alt hv)
  | assertion asserted kind sense =>
    cases hv with
    | assertion _ _ hv =>
      cases kind <;> cases sense
      · obtain rfl := Except.ok.inj h
        exact keeps_self (.assertion _ _ hv)
      · obtain rfl := Except.ok.inj h
        exact keeps_self (.assertion _ _ hv)
      · rw [promote] at h
        obtain ⟨o', ho', h⟩ := bind_eq_ok.1 h
        obtain rfl := Except.ok.inj h
        obtain ⟨hvr, hstarts⟩ := promote_keeps asserted hv hs ho'
        refine ⟨hvr, fun M modes ↦ ?_⟩
        rw [read, starts_lookahead]
        exact hstarts M modes
      · obtain rfl := Except.ok.inj h
        exact keeps_self (.assertion _ _ hv)
  | capture n captured =>
    cases hv with
    | capture _ hv =>
      rw [promote] at h
      obtain ⟨o', ho', h⟩ := bind_eq_ok.1 h
      obtain rfl := Except.ok.inj h
      obtain ⟨hvr, hstarts⟩ := promote_keeps captured hv hs ho'
      cases o' with
      | none => exact keeps_self (.capture n hv)
      | some t => exact ⟨.capture n hvr, hstarts⟩
  | group mode re sense =>
    cases hv with
    | group _ _ hv =>
      rw [promote] at h
      obtain ⟨o', ho', h⟩ := bind_eq_ok.1 h
      obtain rfl := Except.ok.inj h
      obtain ⟨hvr, hstarts⟩ := promote_keeps re hv hs ho'
      cases o' with
      | none => exact keeps_self (.group mode sense hv)
      | some t => exact ⟨.group mode sense hvr, fun M modes ↦ hstarts M (M.switch modes mode sense)⟩
  | intersect lh rh =>
    have hnone : promote m print same (intersect lh rh) = .ok none :=
      promote_eq_none (intersect lh rh) (by simpa [separate, promotes] using hs)
    obtain rfl := Except.ok.inj (hnone.symm.trans h)
    exact keeps_self hv
  | range lo hi =>
    have hnone : promote m print same (range lo hi) = .ok none :=
      promote_eq_none (range lo hi) (by simpa [separate, promotes] using hs)
    obtain rfl := Except.ok.inj (hnone.symm.trans h)
    exact keeps_self hv
  | seq elems =>
    cases hv with
    | seq hv =>
      rw [promote] at h
      obtain ⟨o', ho', h⟩ := bind_eq_ok.1 h
      obtain rfl := Except.ok.inj h
      cases o' with
      | none => exact keeps_self (.seq hv)
      | some elems1 =>
        obtain ⟨hv1, hstarts⟩ := promoteBack_keeps elems hv hs ho'
        refine ⟨valid_makeSeq hv1, fun M modes ↦ ?_⟩
        rw [Option.map_some, Option.getD_some, read_makeSeq hv1, hstarts, read]
  | _ =>
    obtain rfl := Except.ok.inj h
    exact keeps_self hv

theorem promoteElems_keeps {elems1 : List Expression} {any_changed : Bool}
    (elems : List Expression) (hv : ∀ e ∈ elems, e.Valid) (hs : separateAll elems = true)
    (h : promoteElems m print same elems = .ok (elems1, any_changed)) :
    (∀ e ∈ elems1, e.Valid) ∧ ∀ {Λ : Type} (M : Reading Λ) (modes : Λ),
      starts (readAlt M modes elems1) = starts (readAlt M modes elems) := by
  cases elems with
  | nil =>
    obtain ⟨rfl, -⟩ := Prod.mk.inj (Except.ok.inj h)
    exact ⟨List.forall_mem_nil _, fun _ _ ↦ rfl⟩
  | cons e elems =>
    rw [separateAll, Bool.and_eq_true] at hs
    rw [promoteElems] at h
    obtain ⟨e1, he1, h⟩ := bind_eq_ok.1 h
    obtain ⟨⟨rest, c⟩, hrest, h⟩ := bind_eq_ok.1 h
    obtain ⟨rfl, -⟩ := Prod.mk.inj (Except.ok.inj h)
    obtain ⟨hve, hv⟩ := List.forall_mem_cons.1 hv
    obtain ⟨hv1, hstart⟩ := promote_keeps e hve hs.1 he1
    obtain ⟨hvrest, hstarts⟩ := promoteElems_keeps elems hv hs.2 hrest
    refine ⟨List.forall_mem_cons.2 ⟨hv1, hvrest⟩, fun M modes ↦ ?_⟩
    rw [readAlt, readAlt, starts_sup, starts_sup, hstart, hstarts]

theorem promoteBack_keeps {elems1 : List Expression} (elems : List Expression)
    (hv : ∀ e ∈ elems, e.Valid) (hs : separateLast elems = true)
    (h : promoteBack m print same elems = .ok (some elems1)) :
    (∀ e ∈ elems1, e.Valid) ∧ ∀ {Λ : Type} (M : Reading Λ) (modes : Λ),
      starts (readSeq M modes elems1) = starts (readSeq M modes elems) := by
  cases elems with
  | nil => cases h
  | cons e elems =>
    obtain ⟨hve, hv⟩ := List.forall_mem_cons.1 hv
    cases elems with
    | nil =>
      rw [promoteBack] at h
      obtain ⟨o, ho, h⟩ := bind_eq_ok.1 h
      obtain ⟨t, rfl, rfl⟩ := Option.map_eq_some_iff.1 (Except.ok.inj h)
      obtain ⟨hvt, hstart⟩ := promote_keeps e hve hs ho
      refine ⟨List.forall_mem_singleton.2 hvt, fun M modes ↦ ?_⟩
      rw [readSeq_singleton, readSeq_singleton]
      exact hstart M modes
    | cons e' elems =>
      rw [promoteBack] at h
      · obtain ⟨o, ho, h⟩ := bind_eq_ok.1 h
        obtain ⟨rest, rfl, rfl⟩ := Option.map_eq_some_iff.1 (Except.ok.inj h)
        obtain ⟨hvrest, hstarts⟩ := promoteBack_keeps (e' :: elems) hv hs ho
        refine ⟨List.forall_mem_cons.2 ⟨hve, hvrest⟩, fun M modes ↦ ?_⟩
        rw [readSeq, readSeq]
        exact starts_mul_congr (hstarts M modes)
      · exact List.cons_ne_nil e' elems

end

/-- The promotion of final lookaheads keeps the positions where a match starts, in every text, where
no operand of an intersection or a range at a final position has a lookahead to promote. -/
theorem lookaheadPromotion_keeps (m : Memory) (print : CC → String)
    (same : Expression → Expression → Bool) (e r : Expression) (hv : e.Valid)
    (hs : separate e = true) (h : lookaheadPromotion m print same e = .ok r) (Λ : Type)
    (M : Reading Λ) (modes : Λ) : starts (read M modes r) = starts (read M modes e) := by
  obtain ⟨o, ho, h⟩ := bind_eq_ok.1 h
  obtain rfl := Except.ok.inj h
  exact (promote_keeps e hv hs ho).2 M modes

end Promotion

section Example

/-- `b(?=a)` is promoted to `ba`. -/
theorem lookaheadPromotion_keeps_letters :
    starts (read (textReading [98, 97]) () (seq [cc (codepoint 98), cc (codepoint 97)])) =
      starts (read (textReading [98, 97]) ()
        (seq [cc (codepoint 98), assertion (cc (codepoint 97)) .LookAhead .Positive])) := by
  have hv (cp : ℕ) (h : cp ≤ unicodeMax) : (cc (codepoint cp)).Valid := .cc (codepoint_wellFormed h)
  have hvalid : ∀ e ∈ [cc (codepoint 98), assertion (cc (codepoint 97)) .LookAhead .Positive],
      e.Valid :=
    List.forall_mem_cons.2 ⟨hv 98 (by decide),
      List.forall_mem_singleton.2 (.assertion _ _ (hv 97 (by decide)))⟩
  exact lookaheadPromotion_keeps zeroed (fun _ ↦ "") (fun _ _ ↦ false) _ _ (.seq hvalid) rfl rfl
    Unit (textReading [98, 97]) ()

/-- `(?=a)` and `b*` both match the empty string before `a`, but `a` and `b*` match nothing. -/
theorem lookaheadPromotion_loses :
    lookaheadPromotion zeroed (fun _ ↦ "") (fun _ _ ↦ false)
        (intersect (assertion (cc (codepoint 97)) .LookAhead .Positive)
          (rep (cc (codepoint 98)) 0 UNBOUNDED_REP)) =
      .ok (intersect (cc (codepoint 97)) (rep (cc (codepoint 98)) 0 UNBOUNDED_REP)) ∧
    starts (read (textReading [97]) ()
        (intersect (cc (codepoint 97)) (rep (cc (codepoint 98)) 0 UNBOUNDED_REP))) ≠
      starts (read (textReading [97]) ()
        (intersect (assertion (cc (codepoint 97)) .LookAhead .Positive)
          (rep (cc (codepoint 98)) 0 UNBOUNDED_REP))) := by
  refine ⟨rfl, fun heq ↦ ?_⟩
  have hb : 98 ≤ unicodeMax := by decide
  have ha : 97 ≤ unicodeMax := by decide
  have hbefore : 0 ∈ starts (read (textReading [97]) ()
      (intersect (assertion (cc (codepoint 97)) .LookAhead .Positive)
        (rep (cc (codepoint 98)) 0 UNBOUNDED_REP))) := by
    have hletter : read (textReading [97]) () (cc (codepoint 97)) 0 1 :=
      ⟨rfl, 97, rfl, by rw [members_codepoint ha]; rfl⟩
    exact ⟨0, ⟨rfl, 1, hletter⟩, powers_apply.2 ⟨0, ⟨Int.le_refl 0, .inl rfl⟩, rfl⟩⟩
  rw [← heq] at hbefore
  obtain ⟨q, ⟨rfl, -⟩, hstar⟩ := hbefore
  -- One letter is matched, and it is no `b`.
  obtain ⟨n, -, hn⟩ := powers_apply.1 hstar
  obtain ⟨hlen, hall⟩ := step_pow.1 hn
  obtain ⟨c, hc, hmem⟩ := hall 0 (Nat.le_refl 0) Nat.one_pos
  rw [members_codepoint hb] at hmem
  obtain rfl : c = 98 := hmem
  cases hc

end Example

end Parabix.RE.Expression
