import Parabix.RE.Boundaries

namespace Parabix.RE.LineAnchors

open Library Library.Powers Library.Spans

section Analysis

/-- The end of a sequence at which an anchor is looked for. -/
inductive Side where
  | front
  | back
deriving DecidableEq, Repr

def Side.anchor : Side → RE
  | front => start
  | back => stop

mutual

/-- The two analyses differ in the anchor and in the item of a sequence that they look at. -/
def hasAnchor (side : Side) : RE → Bool
  | alt elems => allHaveAnchor side elems
  | seq elems => edgeHasAnchor side elems
  | rep re _ _ => hasAnchor side re
  | diff lh _ => hasAnchor side lh
  | intersect lh rh => hasAnchor side lh && hasAnchor side rh
  | start => side = .front
  | stop => side = .back
  | _ => false

def allHaveAnchor (side : Side) : List RE → Bool
  | [] => true
  | e :: elems => hasAnchor side e && allHaveAnchor side elems

/-- The item at the front or at the back. -/
def edgeHasAnchor (side : Side) : List RE → Bool
  | [] => false
  | e :: elems =>
    match side, elems with
    | .back, _ :: _ => edgeHasAnchor side elems
    | _, _ => hasAnchor side e

end

def hasStartAnchor : RE → Bool := hasAnchor .front

def hasEndAnchor : RE → Bool := hasAnchor .back

def edge : Side → List RE → Option RE
  | .front, elems => elems.head?
  | .back, elems => elems.getLast?

/-- The parts of an expression in which an anchor is looked for. -/
inductive Inspects (side : Side) : RE → RE → Prop
  | self (e : RE) : Inspects side e e
  | alt {elems : List RE} {e x : RE} (he : e ∈ elems) (h : Inspects side e x) :
    Inspects side (alt elems) x
  | seq {elems : List RE} {e x : RE} (he : e ∈ edge side elems) (h : Inspects side e x) :
    Inspects side (seq elems) x
  | rep {re x : RE} {lb ub : ℤ} (h : Inspects side re x) : Inspects side (rep re lb ub) x
  | diff {lh rh x : RE} (h : Inspects side lh x) : Inspects side (diff lh rh) x
  | intersect_left {lh rh x : RE} (h : Inspects side lh x) : Inspects side (intersect lh rh) x
  | intersect_right {lh rh x : RE} (h : Inspects side rh x) : Inspects side (intersect lh rh) x

theorem Inspects.trans {side : Side} {a b c : RE} (hab : Inspects side a b)
    (hbc : Inspects side b c) : Inspects side a c := by
  induction hab with
  | self => exact hbc
  | alt he _ ih => exact .alt he (ih hbc)
  | seq he _ ih => exact .seq he (ih hbc)
  | rep _ ih => exact .rep (ih hbc)
  | diff _ ih => exact .diff (ih hbc)
  | intersect_left _ ih => exact .intersect_left (ih hbc)
  | intersect_right _ ih => exact .intersect_right (ih hbc)

theorem allHaveAnchor_iff {side : Side} {elems : List RE} :
    allHaveAnchor side elems = true ↔ ∀ e ∈ elems, hasAnchor side e = true := by
  induction elems with
  | nil => simp [allHaveAnchor]
  | cons e elems ih => rw [allHaveAnchor, Bool.and_eq_true, ih, List.forall_mem_cons]

theorem edgeHasAnchor_iff {side : Side} {elems : List RE} :
    edgeHasAnchor side elems = true ↔ ∃ e ∈ edge side elems, hasAnchor side e = true := by
  induction elems with
  | nil => cases side <;> simp [edgeHasAnchor, edge]
  | cons e elems ih =>
    cases side with
    | front => simp [edgeHasAnchor, edge]
    | back =>
      cases elems with
      | nil => simp [edgeHasAnchor, edge]
      | cons e' elems =>
        rw [edgeHasAnchor, ih]
        simp [edge]

end Analysis

section Lines

variable (text : List ℕ) (isBreak : ℕ → Prop)

def lineStart (p : ℕ) : Prop := p = 0 ∨ ∃ c, text[p - 1]? = some c ∧ isBreak c

def lineEnd (p : ℕ) : Prop := p = text.length ∨ ∃ c, text[p]? = some c ∧ isBreak c

/-- What is matched in a text of lines, with any meaning for the nodes of other kinds. -/
def lineMeaning (others : ℕ → Span) : Meaning Span :=
  { Boundaries.textMeaning text fun _ _ ↦ False with
    start := zeroWidth (lineStart text isBreak)
    stop := zeroWidth (lineEnd text isBreak)
    other := others }

/-- A match is at a line start, or at a line end. -/
def AtLine : Side → Span → Prop
  | .front, x => ∀ p q, x p q → lineStart text isBreak p
  | .back, x => ∀ p q, x p q → lineEnd text isBreak q

end Lines

/-- Every match in any text is at the line start or end that an expression is said to have. -/
def Sound (side : Side) (re : RE) : Prop :=
  hasAnchor side re = true → ∀ (text : List ℕ) (isBreak : ℕ → Prop) (others : ℕ → Span),
    AtLine text isBreak side (denote (lineMeaning text isBreak others) re)

section Exact

variable {side : Side} {text : List ℕ} {isBreak : ℕ → Prop} {others : ℕ → Span} {x y : Span}
variable {re : RE} {elems : List RE} {lb ub : ℤ} {s : Set ℕ}

theorem AtLine.mono (hy : AtLine text isBreak side y) (h : x ≤ y) : AtLine text isBreak side x := by
  cases side with
  | front => exact fun p q hx ↦ hy p q (h p q hx)
  | back => exact fun p q hx ↦ hy p q (h p q hx)

theorem AtLine.mul_left (hx : AtLine text isBreak .front x) :
    AtLine text isBreak .front (x * y) := by
  rintro p q ⟨m, hm, -⟩
  exact hx p m hm

theorem AtLine.mul_right (hy : AtLine text isBreak .back y) :
    AtLine text isBreak .back (x * y) := by
  rintro p q ⟨m, -, hm⟩
  exact hy m q hm

theorem AtLine.pow (hx : AtLine text isBreak side x) {n : ℕ} (hn : 0 < n) :
    AtLine text isBreak side (x ^ n) := by
  obtain ⟨n, rfl⟩ := Nat.exists_eq_succ_of_ne_zero hn.ne'
  cases side with
  | front =>
    rw [Nat.succ_eq_add_one, pow_succ']
    exact hx.mul_left
  | back =>
    rw [Nat.succ_eq_add_one, pow_succ]
    exact hx.mul_right

theorem AtLine.powers (hx : AtLine text isBreak side x) (h0 : ∀ n ∈ s, 0 < n) :
    AtLine text isBreak side (powers x s) := by
  have hpow (n : ℕ) (hn : n ∈ s) := hx.pow (h0 n hn)
  cases side with
  | front =>
    intro p q hp
    obtain ⟨n, hn, hp⟩ := powers_apply.1 hp
    exact hpow n hn p q hp
  | back =>
    intro p q hp
    obtain ⟨n, hn, hp⟩ := powers_apply.1 hp
    exact hpow n hn p q hp

theorem atLine_denoteAlt {M : Meaning Span}
    (h : ∀ e ∈ elems, AtLine text isBreak side (denote M e)) :
    AtLine text isBreak side (denoteAlt M elems) := by
  induction elems with
  | nil => cases side <;> exact fun p q hp ↦ hp.elim
  | cons e elems ih =>
    obtain ⟨he, helems⟩ := List.forall_mem_cons.1 h
    rw [denoteAlt]
    cases side with
    | front => exact fun p q hp ↦ hp.elim (he p q) (ih helems p q)
    | back => exact fun p q hp ↦ hp.elim (he p q) (ih helems p q)

theorem atLine_denoteSeq {M : Meaning Span} {e : RE} (he : e ∈ edge side elems)
    (h : AtLine text isBreak side (denote M e)) : AtLine text isBreak side (denoteSeq M elems) := by
  cases side with
  | front =>
    obtain ⟨rest, rfl⟩ := List.head?_eq_some_iff.1 he
    rw [denoteSeq]
    exact h.mul_left
  | back =>
    obtain ⟨rest, rfl⟩ := List.getLast?_eq_some_iff.1 he
    rw [denoteSeq_append, denoteSeq_singleton]
    exact h.mul_right

/-- No anchored part is repeated from zero times on. -/
def NoneOptional (side : Side) (re : RE) : Prop :=
  ∀ x lb ub, Inspects side re (rep x lb ub) → hasAnchor side x = true → lb ≠ 0

theorem sound_of_noneOptional (hv : re.Valid) (h : NoneOptional side re) : Sound side re := by
  intro hanchor text isBreak others
  have hpart {x : RE} (hx : Inspects side re x) : NoneOptional side x :=
    fun y lb ub hy ↦ h y lb ub (hx.trans hy)
  induction hv with
  | @alt elems _ ih =>
    rw [hasAnchor, allHaveAnchor_iff] at hanchor
    rw [denote]
    refine atLine_denoteAlt fun e he ↦ ?_
    have hinspects : Inspects side (RE.alt elems) e := .alt he (.self e)
    exact ih e he (hpart hinspects) (hanchor e he) fun hx ↦ hpart (hinspects.trans hx)
  | @seq elems _ ih =>
    rw [hasAnchor, edgeHasAnchor_iff] at hanchor
    obtain ⟨e, he, hanchor⟩ := hanchor
    have hmem : e ∈ elems := by
      cases side with
      | front => exact List.mem_of_head? he
      | back => exact List.mem_of_getLast? he
    have hinspects : Inspects side (RE.seq elems) e := .seq he (.self e)
    rw [denote]
    exact atLine_denoteSeq he
      (ih e hmem (hpart hinspects) hanchor fun hx ↦ hpart (hinspects.trans hx))
  | @rep y lb ub _ hb ih =>
    rw [hasAnchor] at hanchor
    have hinspects : Inspects side (RE.rep y lb ub) y := .rep (.self y)
    have hlb := h y lb ub (.self _) hanchor
    have hnonneg := hb.nonneg
    rw [denote]
    apply (ih (hpart hinspects) hanchor fun hx ↦ hpart (hinspects.trans hx)).powers
    intro n hn
    have hle := hn.1
    omega
  | @diff lh rh _ _ ihl _ =>
    rw [hasAnchor] at hanchor
    have hinspects : Inspects side (RE.diff lh rh) lh := .diff (.self lh)
    rw [denote]
    exact (ihl (hpart hinspects) hanchor fun hx ↦ hpart (hinspects.trans hx)).mono sdiff_le
  | @intersect lh rh _ _ ihl _ =>
    rw [hasAnchor, Bool.and_eq_true] at hanchor
    have hinspects : Inspects side (RE.intersect lh rh) lh := .intersect_left (.self lh)
    rw [denote]
    exact (ihl (hpart hinspects) hanchor.1 fun hx ↦ hpart (hinspects.trans hx)).mono inf_le_left
  | start =>
    obtain rfl : side = .front := of_decide_eq_true hanchor
    rw [denote]
    exact fun p q hp ↦ hp.2
  | stop =>
    obtain rfl : side = .back := of_decide_eq_true hanchor
    rw [denote]
    rintro p q ⟨rfl, hp⟩
    exact hp
  | _ => cases hanchor

/-- In the text `aa` nothing starts or ends a line between the characters. -/
theorem not_sound_optional (hb : Bounds 0 ub) (hanchor : hasAnchor side re = true) :
    ¬ Sound side (rep re 0 ub) := by
  intro h
  have hat := h hanchor [97, 97] (fun _ ↦ False) fun _ ↦ ⊥
  have hempty : denote (lineMeaning [97, 97] (fun _ ↦ False) fun _ ↦ ⊥) (rep re 0 ub) 1 1 := by
    rw [denote, powers_apply]
    exact ⟨0, ⟨by decide, hb.le.imp_right fun hle ↦ by simpa using hle⟩, rfl⟩
  cases side with
  | front =>
    have hstart := hat 1 1 hempty
    simp [lineStart] at hstart
  | back =>
    have hend := hat 1 1 hempty
    simp [lineEnd] at hend

theorem Inspects.valid {x : RE} (h : Inspects side re x) (hv : re.Valid) : x.Valid := by
  induction h with
  | self => exact hv
  | alt he _ ih =>
    cases hv with
    | alt hv => exact ih (hv _ he)
  | @seq elems e _ he _ ih =>
    cases hv with
    | seq hv =>
      apply ih (hv e _)
      cases side with
      | front => exact List.mem_of_head? he
      | back => exact List.mem_of_getLast? he
  | rep _ ih =>
    cases hv with
    | rep hv _ => exact ih hv
  | diff _ ih =>
    cases hv with
    | diff hl _ => exact ih hl
  | intersect_left _ ih =>
    cases hv with
    | intersect hl _ => exact ih hl
  | intersect_right _ ih =>
    cases hv with
    | intersect _ hr => exact ih hr

theorem sound_parts_iff (hv : re.Valid) :
    (∀ x, Inspects side re x → Sound side x) ↔ NoneOptional side re := by
  constructor
  · rintro h x lb ub hx hanchor rfl
    cases hx.valid hv with
    | rep _ hb => exact not_sound_optional hb hanchor (h _ hx)
  · intro h x hx
    exact sound_of_noneOptional (hx.valid hv) fun y lb ub hy ↦ h y lb ub (hx.trans hy)

end Exact

section Example

end Example

end Parabix.RE.LineAnchors
