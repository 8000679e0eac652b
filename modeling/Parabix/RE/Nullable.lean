import Parabix.RE.LengthRangeExact

namespace Parabix.RE.Expression

open Library Library.Powers Library.Encoding UCD
open Memoization (PropertyKind Mode GroupSense)

section Predicates

mutual

/-- A nullable expression matches the empty string everywhere. -/
def isNullable : Expression → Bool
  | seq elems => allNullable elems
  | alt elems => anyNullable elems
  | rep re lb _ => lb = 0 || isNullable re
  | intersect lh rh => isNullable lh && isNullable rh
  | group _ re _ => isNullable re
  | _ => false

def allNullable : List Expression → Bool
  | [] => true
  | e :: elems => isNullable e && allNullable elems

def anyNullable : List Expression → Bool
  | [] => false
  | e :: elems => isNullable e || anyNullable elems

end

mutual

/-- The definition of a Name is looked into even if there is none. -/
def matchesEmptyString : Expression → Except Fault Bool
  | alt elems => anyMatchesEmptyString elems
  | seq elems => allMatchEmptyString elems
  | rep re lb _ => if lb = 0 then .ok true else matchesEmptyString re
  | start => .ok true
  | stop => .ok true
  | assertion _ _ sense => .ok (sense = .Negative)
  | diff lh rh => do
    let left ← matchesEmptyString lh
    if left then
      let right ← matchesEmptyString rh
      return !right
    else return false
  | intersect lh rh => do
    let left ← matchesEmptyString lh
    if left then matchesEmptyString rh else return false
  | group _ re _ => matchesEmptyString re
  | name _ (some definition) => matchesEmptyString definition
  | name _ none => .error .memory
  | capture _ capturedRE => matchesEmptyString capturedRE
  | _ => .ok false

def anyMatchesEmptyString : List Expression → Except Fault Bool
  | [] => .ok false
  | e :: elems => do
    let found ← matchesEmptyString e
    if found then return true else anyMatchesEmptyString elems

def allMatchEmptyString : List Expression → Except Fault Bool
  | [] => .ok true
  | e :: elems => do
    let found ← matchesEmptyString e
    if found then allMatchEmptyString elems else return false

end

end Predicates

section Condition

variable (M : Interpretation (Language ℕ))

/-- The parts that `isNullable` asks. -/
inductive NullableAsks : Expression → Expression → Prop
  | self (e : Expression) : NullableAsks e e
  | alt {elems : List Expression} {e x : Expression} (he : e ∈ elems) (h : NullableAsks e x) :
    NullableAsks (alt elems) x
  | group {re x : Expression} (mode : Mode) (sense : GroupSense) (h : NullableAsks re x) :
    NullableAsks (group mode re sense) x
  | intersect_left {lh x : Expression} (rh : Expression) (h : NullableAsks lh x) :
    NullableAsks (intersect lh rh) x
  | intersect_right {rh x : Expression} (lh : Expression) (h : NullableAsks rh x) :
    NullableAsks (intersect lh rh) x
  | rep {re x : Expression} (lb ub : ℤ) (h : NullableAsks re x) : NullableAsks (rep re lb ub) x
  | seq {elems : List Expression} {e x : Expression} (he : e ∈ elems) (h : NullableAsks e x) :
    NullableAsks (seq elems) x

/-- The parts that `matchesEmptyString` asks. -/
inductive EmptyAsks : Expression → Expression → Prop
  | self (e : Expression) : EmptyAsks e e
  | alt {elems : List Expression} {e x : Expression} (he : e ∈ elems) (h : EmptyAsks e x) :
    EmptyAsks (alt elems) x
  | capture {capturedRE x : Expression} (n : String) (h : EmptyAsks capturedRE x) :
    EmptyAsks (capture n capturedRE) x
  | diff_left {lh x : Expression} (rh : Expression) (h : EmptyAsks lh x) :
    EmptyAsks (diff lh rh) x
  | diff_right {rh x : Expression} (lh : Expression) (h : EmptyAsks rh x) :
    EmptyAsks (diff lh rh) x
  | group {re x : Expression} (mode : Mode) (sense : GroupSense) (h : EmptyAsks re x) :
    EmptyAsks (group mode re sense) x
  | intersect_left {lh x : Expression} (rh : Expression) (h : EmptyAsks lh x) :
    EmptyAsks (intersect lh rh) x
  | intersect_right {rh x : Expression} (lh : Expression) (h : EmptyAsks rh x) :
    EmptyAsks (intersect lh rh) x
  | name {definition x : Expression} (n : String) (h : EmptyAsks definition x) :
    EmptyAsks (name n (some definition)) x
  | rep {re x : Expression} (lb ub : ℤ) (h : EmptyAsks re x) : EmptyAsks (rep re lb ub) x
  | seq {elems : List Expression} {e x : Expression} (he : e ∈ elems) (h : EmptyAsks e x) :
    EmptyAsks (seq elems) x

/-- A part of a kind that is never said to be nullable does not match the empty string. -/
def NullableReady : Expression → Prop
  | seq _ => True
  | alt _ => True
  | rep _ _ _ => True
  | intersect _ _ => True
  | group _ _ _ => True
  | e => [] ∉ denote M e

/-- Names are defined, anchors match the empty string, negative assertions do and positive ones do
not, and neither do the other leaves. -/
def EmptyReady : Expression → Prop
  | alt _ => True
  | seq _ => True
  | rep _ _ _ => True
  | start => [] ∈ M.start
  | stop => [] ∈ M.stop
  | assertion a k s => [] ∈ M.assertion k s (denote M a) ↔ s = .Negative
  | diff _ _ => True
  | intersect _ _ => True
  | group _ _ _ => True
  | name _ definition => definition ≠ none
  | capture _ _ => True
  | e => [] ∉ denote M e

end Condition

section Exact

variable {M : Interpretation (Language ℕ)} {e x y : Expression} {elems : List Expression}

theorem NullableAsks.trans (h : NullableAsks e x) (hx : NullableAsks x y) : NullableAsks e y := by
  induction h with
  | self => exact hx
  | alt he _ ih => exact .alt he (ih hx)
  | group m s _ ih => exact .group m s (ih hx)
  | intersect_left rh _ ih => exact .intersect_left rh (ih hx)
  | intersect_right lh _ ih => exact .intersect_right lh (ih hx)
  | rep lb ub _ ih => exact .rep lb ub (ih hx)
  | seq he _ ih => exact .seq he (ih hx)

theorem NullableAsks.valid (h : NullableAsks e x) (hv : e.Valid) : x.Valid := by
  induction h with
  | self => exact hv
  | alt he _ ih =>
    cases hv with
    | alt hv => exact ih (hv _ he)
  | group _ _ _ ih =>
    cases hv with
    | group _ _ hv => exact ih hv
  | intersect_left _ _ ih =>
    cases hv with
    | intersect hl _ => exact ih hl
  | intersect_right _ _ ih =>
    cases hv with
    | intersect _ hr => exact ih hr
  | rep _ _ _ ih =>
    cases hv with
    | rep hv _ => exact ih hv
  | seq he _ ih =>
    cases hv with
    | seq hv => exact ih (hv _ he)

theorem EmptyAsks.trans (h : EmptyAsks e x) (hx : EmptyAsks x y) : EmptyAsks e y := by
  induction h with
  | self => exact hx
  | alt he _ ih => exact .alt he (ih hx)
  | capture n _ ih => exact .capture n (ih hx)
  | diff_left rh _ ih => exact .diff_left rh (ih hx)
  | diff_right lh _ ih => exact .diff_right lh (ih hx)
  | group m s _ ih => exact .group m s (ih hx)
  | intersect_left rh _ ih => exact .intersect_left rh (ih hx)
  | intersect_right lh _ ih => exact .intersect_right lh (ih hx)
  | name n _ ih => exact .name n (ih hx)
  | rep lb ub _ ih => exact .rep lb ub (ih hx)
  | seq he _ ih => exact .seq he (ih hx)

theorem EmptyAsks.valid (h : EmptyAsks e x) (hv : e.Valid) : x.Valid := by
  induction h with
  | self => exact hv
  | alt he _ ih =>
    cases hv with
    | alt hv => exact ih (hv _ he)
  | capture _ _ ih =>
    cases hv with
    | capture _ hv => exact ih hv
  | diff_left _ _ ih =>
    cases hv with
    | diff hl _ => exact ih hl
  | diff_right _ _ ih =>
    cases hv with
    | diff _ hr => exact ih hr
  | group _ _ _ ih =>
    cases hv with
    | group _ _ hv => exact ih hv
  | intersect_left _ _ ih =>
    cases hv with
    | intersect hl _ => exact ih hl
  | intersect_right _ _ ih =>
    cases hv with
    | intersect _ hr => exact ih hr
  | name _ _ ih =>
    cases hv with
    | name _ hv => exact ih (hv _ rfl)
  | rep _ _ _ ih =>
    cases hv with
    | rep hv _ => exact ih hv
  | seq he _ ih =>
    cases hv with
    | seq hv => exact ih (hv _ he)

theorem nil_mem_iff {l : Language ℕ} : [] ∈ l ↔ 1 ≤ l := by
  constructor
  · intro h w hw
    rwa [Language.mem_one w |>.1 hw]
  · exact fun h ↦ h rfl

theorem nil_mem_mul_iff {l k : Language ℕ} : [] ∈ l * k ↔ [] ∈ l ∧ [] ∈ k := by
  rw [Language.mem_mul]
  constructor
  · rintro ⟨u, hu, v, hv, huv⟩
    obtain ⟨rfl, rfl⟩ := List.append_eq_nil_iff.1 huv
    exact ⟨hu, hv⟩
  · exact fun h ↦ ⟨[], h.1, [], h.2, rfl⟩

theorem nil_mem_pow_iff {l : Language ℕ} {n : ℕ} : [] ∈ l ^ n ↔ n = 0 ∨ [] ∈ l := by
  induction n with
  | zero => exact iff_of_true rfl (.inl rfl)
  | succ n ih =>
    rw [pow_succ, nil_mem_mul_iff, ih]
    have hne : n + 1 ≠ 0 := n.succ_ne_zero
    tauto

theorem nil_mem_rep_iff {l : Language ℕ} {lb ub : ℤ} (hb : Bounds lb ub) :
    [] ∈ powers l (counts lb ub) ↔ lb = 0 ∨ [] ∈ l := by
  have hlb := mem_counts_lb hb
  have hnonneg := hb.nonneg
  rw [WithoutEmpty.mem_powers]
  constructor
  · rintro ⟨n, hn, hpow⟩
    have hle := hn.1
    exact (nil_mem_pow_iff.1 hpow).imp_left fun h0 ↦ by omega
  · rintro (h0 | hl)
    · exact ⟨lb.toNat, hlb, nil_mem_pow_iff.2 (.inl (by omega))⟩
    · exact ⟨lb.toNat, hlb, nil_mem_pow_iff.2 (.inr hl)⟩

theorem nil_mem_denoteAlt_iff : [] ∈ denoteAlt M elems ↔ ∃ e ∈ elems, [] ∈ denote M e := by
  induction elems with
  | nil => simp [denoteAlt, not_mem_bot]
  | cons e elems ih => rw [denoteAlt, mem_sup, ih, List.exists_mem_cons_iff]

theorem nil_mem_denoteSeq_iff : [] ∈ denoteSeq M elems ↔ ∀ e ∈ elems, [] ∈ denote M e := by
  induction elems with
  | nil => exact iff_of_true rfl (List.forall_mem_nil _)
  | cons e elems ih => rw [denoteSeq, nil_mem_mul_iff, ih, List.forall_mem_cons]

theorem allNullable_iff : allNullable elems = true ↔ ∀ e ∈ elems, isNullable e = true := by
  induction elems with
  | nil => simp [allNullable]
  | cons e elems ih => rw [allNullable, Bool.and_eq_true, ih, List.forall_mem_cons]

theorem anyNullable_iff : anyNullable elems = true ↔ ∃ e ∈ elems, isNullable e = true := by
  induction elems with
  | nil => simp [anyNullable]
  | cons e elems ih => rw [anyNullable, Bool.or_eq_true, ih, List.exists_mem_cons_iff]

theorem isNullable_iff (hv : e.Valid) (h : ∀ x, NullableAsks e x → NullableReady M x) :
    isNullable e = true ↔ [] ∈ denote M e := by
  induction hv with
  | @seq elems _ ih =>
    rw [isNullable, allNullable_iff, denote, nil_mem_denoteSeq_iff]
    exact forall₂_congr fun e he ↦ ih e he fun x hx ↦ h x (.seq he hx)
  | @alt elems _ ih =>
    rw [isNullable, anyNullable_iff, denote, nil_mem_denoteAlt_iff]
    exact exists_congr fun e ↦ and_congr_right fun he ↦ ih e he fun x hx ↦ h x (.alt he hx)
  | @rep re lb ub _ hb ih =>
    rw [isNullable, Bool.or_eq_true, decide_eq_true_iff, denote, nil_mem_rep_iff hb,
      ih fun x hx ↦ h x (.rep lb ub hx)]
  | @intersect lh rh _ _ ihl ihr =>
    rw [isNullable, Bool.and_eq_true, ihl fun x hx ↦ h x (.intersect_left rh hx),
      ihr fun x hx ↦ h x (.intersect_right lh hx)]
    exact Iff.rfl
  | @group re m s _ ih =>
    rw [isNullable, ih fun x hx ↦ h x (.group m s hx), denote, nil_mem_iff, nil_mem_iff,
      M.one_le_group]
  | _ => exact iff_of_false Bool.false_ne_true (h _ (.self _))

theorem nullableReady_of_iff (h : isNullable e = true ↔ [] ∈ denote M e) : NullableReady M e := by
  cases e with
  | seq | alt | rep | intersect | group => trivial
  | _ => exact fun hnil ↦ Bool.false_ne_true (h.2 hnil)

/-- The answer is given, and tells whether the empty string is matched. -/
def Tells (l : Language ℕ) (answer : Except Fault Bool) : Prop :=
  ∃ b, answer = .ok b ∧ (b = true ↔ [] ∈ l)

theorem Tells.yes {l : Language ℕ} (h : [] ∈ l) : Tells l (.ok true) :=
  ⟨true, rfl, iff_of_true rfl h⟩

theorem Tells.no {l : Language ℕ} (h : [] ∉ l) : Tells l (.ok false) :=
  ⟨false, rfl, iff_of_false Bool.false_ne_true h⟩

theorem anyMatchesEmptyString_tells
    (h : ∀ e ∈ elems, Tells (denote M e) (matchesEmptyString e)) :
    Tells (denoteAlt M elems) (anyMatchesEmptyString elems) := by
  induction elems with
  | nil => exact .no not_mem_bot
  | cons e elems ih =>
    obtain ⟨⟨found, hfound, hiff⟩, helems⟩ := List.forall_mem_cons.1 h
    obtain ⟨rest, hrest, hiff'⟩ := ih helems
    rw [anyMatchesEmptyString, hfound, ok_bind, denoteAlt]
    cases found with
    | true => exact .yes (.inl (hiff.1 rfl))
    | false =>
      refine ⟨rest, hrest, ?_⟩
      rw [mem_sup, hiff', ← hiff]
      simp

theorem allMatchEmptyString_tells
    (h : ∀ e ∈ elems, Tells (denote M e) (matchesEmptyString e)) :
    Tells (denoteSeq M elems) (allMatchEmptyString elems) := by
  induction elems with
  | nil => exact .yes rfl
  | cons e elems ih =>
    obtain ⟨⟨found, hfound, hiff⟩, helems⟩ := List.forall_mem_cons.1 h
    obtain ⟨rest, hrest, hiff'⟩ := ih helems
    rw [allMatchEmptyString, hfound, ok_bind, denoteSeq]
    cases found with
    | true =>
      refine ⟨rest, hrest, ?_⟩
      rw [nil_mem_mul_iff, hiff', ← hiff]
      simp
    | false => exact .no fun hnil ↦ Bool.false_ne_true (hiff.2 (nil_mem_mul_iff.1 hnil).1)

theorem matchesEmptyString_diff {lh rh : Expression}
    (hl : Tells (denote M lh) (matchesEmptyString lh))
    (hr : Tells (denote M rh) (matchesEmptyString rh)) :
    Tells (denote M (diff lh rh)) (matchesEmptyString (diff lh rh)) := by
  obtain ⟨left, hleft, hiff⟩ := hl
  obtain ⟨right, hright, hiff'⟩ := hr
  rw [matchesEmptyString, hleft, ok_bind, denote]
  cases left with
  | false => exact .no fun hnil ↦ Bool.false_ne_true (hiff.2 hnil.1)
  | true =>
    rw [if_pos rfl, hright, ok_bind]
    cases right with
    | false => exact .yes ⟨hiff.1 rfl, fun hnil ↦ Bool.false_ne_true (hiff'.2 hnil)⟩
    | true => exact .no fun hnil ↦ hnil.2 (hiff'.1 rfl)

theorem matchesEmptyString_intersect {lh rh : Expression}
    (hl : Tells (denote M lh) (matchesEmptyString lh))
    (hr : Tells (denote M rh) (matchesEmptyString rh)) :
    Tells (denote M (intersect lh rh)) (matchesEmptyString (intersect lh rh)) := by
  obtain ⟨left, hleft, hiff⟩ := hl
  obtain ⟨right, hright, hiff'⟩ := hr
  rw [matchesEmptyString, hleft, ok_bind, denote]
  cases left with
  | false => exact .no fun hnil ↦ Bool.false_ne_true (hiff.2 hnil.1)
  | true => exact ⟨right, hright, hiff'.trans ⟨fun h ↦ ⟨hiff.1 rfl, h⟩, fun h ↦ h.2⟩⟩

theorem matchesEmptyString_tells (hv : e.Valid) (h : ∀ x, EmptyAsks e x → EmptyReady M x) :
    Tells (denote M e) (matchesEmptyString e) := by
  induction hv with
  | @seq elems _ ih =>
    exact allMatchEmptyString_tells fun e he ↦ ih e he fun x hx ↦ h x (.seq he hx)
  | @alt elems _ ih =>
    exact anyMatchesEmptyString_tells fun e he ↦ ih e he fun x hx ↦ h x (.alt he hx)
  | @rep re lb ub _ hb ih =>
    obtain ⟨b, hb', hiff⟩ := ih fun x hx ↦ h x (.rep lb ub hx)
    rw [matchesEmptyString, denote]
    split_ifs with hlb
    · exact .yes ((nil_mem_rep_iff hb).2 (.inl hlb))
    · refine ⟨b, hb', ?_⟩
      rw [nil_mem_rep_iff hb, hiff]
      exact (or_iff_right hlb).symm
  | @diff lh rh _ _ ihl ihr =>
    exact matchesEmptyString_diff (ihl fun x hx ↦ h x (.diff_left rh hx))
      (ihr fun x hx ↦ h x (.diff_right lh hx))
  | @intersect lh rh _ _ ihl ihr =>
    exact matchesEmptyString_intersect (ihl fun x hx ↦ h x (.intersect_left rh hx))
      (ihr fun x hx ↦ h x (.intersect_right lh hx))
  | @group re m s _ ih =>
    obtain ⟨b, hb', hiff⟩ := ih fun x hx ↦ h x (.group m s hx)
    refine ⟨b, hb', ?_⟩
    rw [hiff, denote, nil_mem_iff, nil_mem_iff, M.one_le_group]
  | @name definition n _ ih =>
    cases definition with
    | none => exact absurd rfl (h _ (.self _))
    | some definition => exact ih definition rfl fun x hx ↦ h x (.name n hx)
  | capture n _ ih => exact ih fun x hx ↦ h x (.capture n hx)
  | start => exact .yes (h _ (.self _))
  | stop => exact .yes (h _ (.self _))
  | @assertion a k s _ _ =>
    have hself : [] ∈ M.assertion k s (denote M a) ↔ s = .Negative := h _ (.self _)
    exact ⟨decide (s = .Negative), rfl, decide_eq_true_iff.trans hself.symm⟩
  | _ => exact .no (h _ (.self _))

theorem emptyReady_of_tells (h : Tells (denote M e) (matchesEmptyString e)) : EmptyReady M e := by
  obtain ⟨b, hb, hiff⟩ := h
  cases e with
  | alt | seq | rep | diff | intersect | group | capture => trivial
  | name n definition =>
    rintro rfl
    cases hb
  | start =>
    obtain rfl := Except.ok.inj hb
    exact hiff.1 rfl
  | stop =>
    obtain rfl := Except.ok.inj hb
    exact hiff.1 rfl
  | assertion a k s =>
    obtain rfl := Except.ok.inj hb
    exact hiff.symm.trans decide_eq_true_iff
  | _ =>
    obtain rfl := Except.ok.inj hb
    exact fun hnil ↦ Bool.false_ne_true (hiff.2 hnil)

end Exact

section Example

end Example

end Parabix.RE.Expression
