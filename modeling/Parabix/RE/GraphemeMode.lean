import Parabix.UCD.Selection
import Parabix.RE.Boundaries
import Parabix.RE.StarNormal

namespace Parabix

open Library Library.Powers Library.Spans UCD

/-- Expressions with groups that switch the grapheme mode. -/
inductive ModedRE where
  | cc (c : RE.CC)
  | range (node : ℕ)
  | any
  /-- The Name that is called `.`. -/
  | dot
  | seq (elems : List ModedRE)
  | alt (elems : List ModedRE)
  | rep (re : ModedRE) (lb ub : ℤ)
  | group (on : Bool) (re : ModedRE)

namespace RE.GraphemeMode

section Transform

/-- The property expression for the boundary. -/
def GCB : RE := other 0

/-- Ranges have nodes of their own. -/
def rangeNode (node : ℕ) : RE := other (node + 1)

/-- Any character, and all that follow without a boundary. -/
def transformDot : Except Fault RE := do
  let nonGCB ← Boundaries.makeDiffOf (makeSeq []) GCB
  return makeSeq [any, ← makeRep (makeSeq [nonGCB, any]) 0 UNBOUNDED_REP, GCB]

def atSingleChar : ModedRE → Bool
  | .cc c => c.set.count = 1
  | _ => false

/-- The classes of a sequence stay as they are. -/
def transformItem (i : ModedRE) (t : Except Fault (RE × Bool)) : Except Fault (RE × Bool) :=
  match i with
  | .cc c => .ok (cc c, false)
  | _ => t

mutual

/-- The new expression, and whether it is another node. -/
def transform (mGraphemeMode : Bool) : ModedRE → Except Fault (RE × Bool)
  | .cc c =>
    -- A sequence with the empty set is this set.
    if mGraphemeMode then .ok (makeSeq [cc c, GCB], !c.set.empty) else .ok (cc c, false)
  | .range node =>
    if mGraphemeMode then .ok (makeSeq [rangeNode node, GCB], true)
    else .ok (rangeNode node, false)
  | .any => .ok (any, false)
  | .dot =>
    if mGraphemeMode then do return (← transformDot, true) else .ok (name "." any, false)
  | .seq elems => do
    let (list, changed) ← transformSeq mGraphemeMode false elems
    if changed then return (makeSeq list, true) else return (seq list, false)
  | .alt elems => do
    let (elems1, any_changed) ← transformElems mGraphemeMode elems
    if any_changed then return (← makeAlt elems1, true) else return (alt elems1, false)
  | .rep re lb ub => do
    let (x, changed) ← transform mGraphemeMode re
    if changed then return (← makeRep x lb ub, true) else return (rep x lb ub, false)
  | .group on re => do
    let (t, _) ← transform on re
    return (t, true)

def transformElems (mGraphemeMode : Bool) : List ModedRE → Except Fault (List RE × Bool)
  | [] => .ok ([], false)
  | e :: elems => do
    let (e1, changed) ← transform mGraphemeMode e
    let (elems1, any_changed) ← transformElems mGraphemeMode elems
    return (e1 :: elems1, changed || any_changed)

/-- The loop over the items of a sequence. -/
def transformSeq (mGraphemeMode afterSingleChar : Bool) :
    List ModedRE → Except Fault (List RE × Bool)
  | [] => if afterSingleChar && mGraphemeMode then .ok ([GCB], true) else .ok ([], false)
  | i :: items => do
    let (t, changed) ← transformItem i (transform mGraphemeMode i)
    let (list, any_changed) ← transformSeq mGraphemeMode (atSingleChar i) items
    if afterSingleChar && mGraphemeMode && !atSingleChar i then
      return (GCB :: t :: list, true)
    else
      return (t :: list, changed || any_changed)

end

def resolveGraphemeMode (re : ModedRE) (inGraphemeMode : Bool) : Except Fault RE := do
  return (← transform inGraphemeMode re).1

end Transform

section Meaning

/-- What is matched in a text whose boundaries are given. -/
def graphemeMeaning (text : List ℕ) (property : ℕ → ℕ → Prop) (boundary : ℕ → Prop) :
    Meaning Span :=
  { Boundaries.textMeaning text property with
    other := fun node ↦
      if node = 0 then zeroWidth boundary
      else step fun p ↦ ∃ c, text[p]? = some c ∧ property node c }

/-- All matches but the empty ones end at a boundary. -/
def EndsAtBoundary (r : RE) : Prop :=
  ∀ text property boundary p q,
    denote (graphemeMeaning text property boundary) r p q → p < q → boundary q

end Meaning

section Ends

/-- A match is empty, or has an open end, or ends at a boundary. -/
def Ends (boundary : ℕ → Prop) (passed opened : Prop) (x : Span) : Prop :=
  ∀ p q, x p q → p = q ∧ passed ∨ p < q ∧ opened ∨ p ≤ q ∧ boundary q

variable {boundary : ℕ → Prop} {e o e' o' : Prop} {x y : Span} {A : ℕ → Prop}

theorem Ends.mono (h : Ends boundary e o x) (hle : y ≤ x) (he : e → e') (ho : o → o') :
    Ends boundary e' o' y := by
  intro p q hy
  obtain ⟨hpq, h⟩ | ⟨hpq, h⟩ | h := h p q (hle p q hy)
  · exact .inl ⟨hpq, he h⟩
  · exact .inr (.inl ⟨hpq, ho h⟩)
  · exact .inr (.inr h)

theorem ends_bot : Ends boundary e o ⊥ := fun _ _ h ↦ absurd h id

theorem ends_one (he : e) : Ends boundary e o 1 := fun _ _ h ↦ .inl ⟨h, he⟩

theorem ends_step (ho : o) : Ends boundary e o (step A) := by
  rintro p q ⟨rfl, -⟩
  exact .inr (.inl ⟨Nat.lt_succ_self p, ho⟩)

theorem ends_zeroWidth : Ends boundary e o (zeroWidth boundary) := by
  rintro p q ⟨rfl, hp⟩
  exact .inr (.inr ⟨Nat.le_refl p, hp⟩)

theorem Ends.sup (hx : Ends boundary e o x) (hy : Ends boundary e' o' y) :
    Ends boundary (e ∨ e') (o ∨ o') (x ⊔ y) := by
  intro p q hxy
  obtain h | h := hxy
  · exact (hx.mono le_rfl .inl .inl) p q h
  · exact (hy.mono le_rfl .inr .inr) p q h

/-- The end of a product is that of the second factor, unless this passes. -/
theorem Ends.mul (hx : Ends boundary e o x) (hy : Ends boundary e' o' y) :
    Ends boundary (e ∧ e') (o' ∨ o ∧ e') (x * y) := by
  rintro p q ⟨m, hxm, hym⟩
  have hpm : p ≤ m := by
    obtain h | h | h := hx p m hxm <;> omega
  obtain ⟨rfl, he'⟩ | ⟨hmq, ho'⟩ | ⟨hmq, hq⟩ := hy m q hym
  · obtain ⟨h, he⟩ | ⟨h, ho⟩ | h := hx p m hxm
    · exact .inl ⟨h, he, he'⟩
    · exact .inr (.inl ⟨h, .inr ⟨ho, he'⟩⟩)
    · exact .inr (.inr h)
  · exact .inr (.inl ⟨Nat.lt_of_le_of_lt hpm hmq, .inl ho'⟩)
  · exact .inr (.inr ⟨hpm.trans hmq, hq⟩)

theorem Ends.pow (hx : Ends boundary e o x) (n : ℕ) : Ends boundary (n = 0 ∨ e) o (x ^ n) := by
  induction n with
  | zero => exact ends_one (.inl rfl)
  | succ n ih =>
    rw [pow_succ]
    refine (ih.mul hx).mono le_rfl (fun h ↦ .inr h.2) ?_
    rintro (h | h)
    · exact h
    · exact h.1

theorem Ends.powers (hx : Ends boundary e o x) {lb ub : ℤ} :
    Ends boundary (lb ≤ 0 ∨ e) o (powers x (counts lb ub)) := by
  intro p q h
  obtain ⟨n, hn, h⟩ := powers_apply.1 h
  refine (hx.pow n).mono le_rfl ?_ id p q h
  rintro (rfl | he)
  · exact .inl hn.1
  · exact .inr he

end Ends

section Forward

variable {text : List ℕ} {property : ℕ → ℕ → Prop} {boundary : ℕ → Prop} {r : RE}

/-- The matches that do not run backwards. -/
def forward : Span := fun p q ↦ p ≤ q

theorem one_le_forward : (1 : Span) ≤ forward := fun _ _ h ↦ Nat.le_of_eq h

theorem forward_mul_self : forward * forward ≤ forward := by
  rintro p q ⟨m, hpm, hmq⟩
  exact Nat.le_trans hpm hmq

theorem step_le_forward {A : ℕ → Prop} : step A ≤ forward := by
  rintro p q ⟨rfl, -⟩
  exact Nat.le_succ p

theorem denote_le_forward (hv : r.Valid) :
    denote (graphemeMeaning text property boundary) r ≤ forward := by
  induction hv with
  | alt _ ih =>
    rw [denote]
    exact denoteAlt_le ih
  | any => exact step_le_forward
  | assertion kind sense _ _ =>
    rw [denote]
    exact (Meaning.assertion_le _ _ _ _).trans one_le_forward
  | cc _ => exact step_le_forward
  | diff _ _ ih _ =>
    rw [denote]
    exact sdiff_le.trans ih
  | intersect _ _ ih _ =>
    rw [denote]
    exact inf_le_left.trans ih
  | name _ _ ih =>
    rw [denote]
    exact ih
  | @rep re lb ub _ _ ih =>
    rw [denote, powers_le_iff]
    intro n hn
    clear hn
    induction n with
    | zero => exact one_le_forward
    | succ n ihn =>
      rw [pow_succ]
      exact (mul_le_mul' ihn ih).trans forward_mul_self
  | seq _ ih =>
    rw [denote]
    exact RE_Star_Normal.denoteSeq_le forward_mul_self one_le_forward ih
  | start | stop => exact zeroWidth_le_one.trans one_le_forward
  | other node =>
    by_cases hnode : node = 0
    · have hdenote : denote (graphemeMeaning text property boundary) (other node) =
          zeroWidth boundary := if_pos hnode
      rw [hdenote]
      exact zeroWidth_le_one.trans one_le_forward
    · have hdenote : denote (graphemeMeaning text property boundary) (other node) =
          step fun p ↦ ∃ c, text[p]? = some c ∧ property node c := if_neg hnode
      rw [hdenote]
      exact step_le_forward

end Forward

end RE.GraphemeMode

end Parabix
