import Parabix.RE.ClassOverlap
import Parabix.RE.Memoization
import Parabix.RE.Meaning
import Parabix.RE.RepetitionExact

namespace Parabix.RE

open Library Library.Powers UCD
open Memoization (PropertyKind Mode GroupSense)

/-- An expression of any kind, with what names, properties, captures and references stand for. -/
inductive Expression where
  | alt (elems : List Expression)
  | any (alphabet : ℕ)
  | assertion (asserted : Expression) (kind : Kind) (sense : Sense)
  | capture (name : String) (capturedRE : Expression)
  | cc (c : CC)
  | diff (lh rh : Expression)
  | group (mode : Mode) (re : Expression) (sense : GroupSense)
  | intersect (lh rh : Expression)
  | name (name : String) (definition : Option Expression)
  | propertyExpression (kind : PropertyKind) (identifier : String) (resolvedRE : Option Expression)
  | range (lo hi : Expression)
  | reference (name : String) (capture : Expression) (number : ℕ)
  | rep (re : Expression) (lb ub : ℤ)
  | seq (elems : List Expression)
  | start
  | stop

namespace Expression

section Seq

def isEmptySet : Expression → Bool
  | alt elems => elems.isEmpty
  | cc c => c.set.empty
  | _ => false

/-- A single item stands for itself. -/
def collapseSeq : List Expression → Expression
  | [e] => e
  | elems => seq elems

/-- The elements of a nested Seq, or the item itself. -/
def nestedItems : Expression → List Expression
  | seq nestedSeq => nestedSeq
  | item => [item]

/-- An item that is the empty set is the whole sequence. -/
def pushSeq : List Expression → List Expression → Expression
  | newSeq, [] => collapseSeq newSeq
  | newSeq, item :: items =>
    if item.isEmptySet then item else pushSeq (newSeq ++ item.nestedItems) items

def makeSeq (items : List Expression) : Expression := pushSeq [] items

end Seq

section Denote

variable {K : Type*} [CompleteBooleanAlgebra K] [Monoid K]

/-- What the leaves of an expression match. An assertion matches nothing but the empty string, a
mode changes nothing about the empty string, and a reference is for what a capture has matched. -/
structure Interpretation (K : Type*) [CompleteBooleanAlgebra K] [Monoid K] where
  any : ℕ → K
  assertion : Kind → Sense → K → K
  assertion_le (k : Kind) (s : Sense) (x : K) : assertion k s x ≤ 1
  cc : ℕ → Set ℕ → K
  group : Mode → GroupSense → K → K
  one_le_group (m : Mode) (s : GroupSense) (x : K) : 1 ≤ group m s x ↔ 1 ≤ x
  property : PropertyKind → String → K
  range : K → K → K
  reference : String → ℕ → K → K
  reference_le (n : String) (i : ℕ) (x : K) : reference n i x ≤ x
  start : K
  start_le : start ≤ 1
  stop : K
  stop_le : stop ≤ 1
  undefined : String → K

mutual

def denote (M : Interpretation K) : Expression → K
  | alt elems => denoteAlt M elems
  | any alphabet => M.any alphabet
  | assertion asserted kind sense => M.assertion kind sense (denote M asserted)
  | capture _ capturedRE => denote M capturedRE
  | cc c => M.cc c.alphabet c.set.members
  | diff lh rh => denote M lh \ denote M rh
  | group mode re sense => M.group mode sense (denote M re)
  | intersect lh rh => denote M lh ⊓ denote M rh
  | name _ (some definition) => denote M definition
  | name n none => M.undefined n
  | propertyExpression _ _ (some resolvedRE) => denote M resolvedRE
  | propertyExpression kind identifier none => M.property kind identifier
  | range lo hi => M.range (denote M lo) (denote M hi)
  | reference n captured i => M.reference n i (denote M captured)
  | rep re lb ub => powers (denote M re) (counts lb ub)
  | seq elems => denoteSeq M elems
  | start => M.start
  | stop => M.stop

def denoteAlt (M : Interpretation K) : List Expression → K
  | [] => ⊥
  | e :: elems => denote M e ⊔ denoteAlt M elems

def denoteSeq (M : Interpretation K) : List Expression → K
  | [] => 1
  | e :: elems => denote M e * denoteSeq M elems

end

end Denote

/-- The sets of the classes are well formed, and the bounds of the repetitions are in order. -/
inductive Valid : Expression → Prop
  | alt {elems : List Expression} (h : ∀ e ∈ elems, Valid e) : Valid (alt elems)
  | any (alphabet : ℕ) : Valid (any alphabet)
  | assertion {asserted : Expression} (kind : Kind) (sense : Sense) (h : Valid asserted) :
      Valid (assertion asserted kind sense)
  | capture {capturedRE : Expression} (n : String) (h : Valid capturedRE) :
      Valid (capture n capturedRE)
  | cc {c : CC} (h : c.set.WellFormed) : Valid (cc c)
  | diff {lh rh : Expression} (hl : Valid lh) (hr : Valid rh) : Valid (diff lh rh)
  | group {re : Expression} (mode : Mode) (sense : GroupSense) (h : Valid re) :
      Valid (group mode re sense)
  | intersect {lh rh : Expression} (hl : Valid lh) (hr : Valid rh) : Valid (intersect lh rh)
  | name {definition : Option Expression} (n : String) (h : ∀ d ∈ definition, Valid d) :
      Valid (name n definition)
  | propertyExpression {resolvedRE : Option Expression} (kind : PropertyKind)
      (identifier : String) (h : ∀ r ∈ resolvedRE, Valid r) :
      Valid (propertyExpression kind identifier resolvedRE)
  | range {lo hi : Expression} (hlo : Valid lo) (hhi : Valid hi) : Valid (range lo hi)
  | reference {capture : Expression} (n : String) (i : ℕ) (h : Valid capture) :
      Valid (reference n capture i)
  | rep {re : Expression} {lb ub : ℤ} (h : Valid re) (hb : Bounds lb ub) : Valid (rep re lb ub)
  | seq {elems : List Expression} (h : ∀ e ∈ elems, Valid e) : Valid (seq elems)
  | start : Valid start
  | stop : Valid stop

section Lists

variable {K : Type*} [CompleteBooleanAlgebra K] [Monoid K] {M : Interpretation K}
  {e : Expression} {elems rest : List Expression} {x : K}

theorem denoteSeq_append : denoteSeq M (elems ++ rest) = denoteSeq M elems * denoteSeq M rest := by
  induction elems with
  | nil => rw [List.nil_append, denoteSeq, one_mul]
  | cons e elems ih => rw [List.cons_append, denoteSeq, denoteSeq, ih, mul_assoc]

theorem denoteSeq_singleton : denoteSeq M [e] = denote M e := by
  rw [denoteSeq, denoteSeq, mul_one]

theorem denote_collapseSeq : denote M (collapseSeq elems) = denoteSeq M elems := by
  rw [collapseSeq.eq_def]
  split
  · rw [denoteSeq_singleton]
  · rw [denote]

theorem denoteSeq_nestedItems : denoteSeq M e.nestedItems = denote M e := by
  cases e with
  | seq => rw [nestedItems, denote]
  | _ => exact denoteSeq_singleton

theorem valid_collapseSeq (h : ∀ e ∈ elems, e.Valid) : (collapseSeq elems).Valid := by
  rw [collapseSeq.eq_def]
  split
  · exact h _ (List.mem_singleton_self _)
  · exact .seq h

theorem valid_nestedItems (h : e.Valid) : ∀ x ∈ e.nestedItems, x.Valid := by
  cases h with
  | seq h => exact h
  | _ => exact List.forall_mem_singleton.2 (by constructor <;> assumption)

theorem valid_pushSeq (h : ∀ e ∈ elems, e.Valid) (hrest : ∀ e ∈ rest, e.Valid) :
    (pushSeq elems rest).Valid := by
  induction rest generalizing elems with
  | nil => exact valid_collapseSeq h
  | cons item items ih =>
    obtain ⟨hitem, hitems⟩ := List.forall_mem_cons.1 hrest
    rw [pushSeq]
    split_ifs
    · exact hitem
    · exact ih (List.forall_mem_append.2 ⟨h, valid_nestedItems hitem⟩) hitems

theorem valid_makeSeq (h : ∀ e ∈ elems, e.Valid) : (makeSeq elems).Valid :=
  valid_pushSeq (List.forall_mem_nil _) h

variable [IsQuantale K]

theorem denote_pushSeq (hempty : ∀ e ∈ rest, e.isEmptySet = true → denote M e = ⊥) :
    denote M (pushSeq elems rest) = denoteSeq M elems * denoteSeq M rest := by
  induction rest generalizing elems with
  | nil => rw [pushSeq, denote_collapseSeq, denoteSeq, mul_one]
  | cons item items ih =>
    obtain ⟨hitem, hitems⟩ := List.forall_mem_cons.1 hempty
    rw [pushSeq, denoteSeq]
    split_ifs with h
    · rw [hitem h, Quantale.bot_mul, Quantale.mul_bot]
    · rw [ih hitems, denoteSeq_append, denoteSeq_nestedItems, mul_assoc]

end Lists

section Empty

variable {K : Type*} [CompleteBooleanAlgebra K] [Monoid K] {M : Interpretation K}
  {e : Expression} {elems : List Expression}

/-- A class of no symbols matches nothing. -/
def Classes (M : Interpretation K) : Prop := ∀ a, M.cc a ∅ = ⊥

theorem denote_emptySet (hM : Classes M) (hv : e.Valid) (h : e.isEmptySet = true) :
    denote M e = ⊥ := by
  cases hv with
  | @alt elems _ => rw [List.isEmpty_iff.1 h, denote, denoteAlt]
  | cc hc => rw [denote, members_of_empty hc h, hM]
  | _ => cases h

theorem denote_makeSeq [IsQuantale K] (hM : Classes M) (hv : ∀ e ∈ elems, e.Valid) :
    denote M (makeSeq elems) = denoteSeq M elems := by
  rw [makeSeq, denote_pushSeq fun e he ↦ denote_emptySet hM (hv e he), denoteSeq, one_mul]

end Empty

section Size

variable {elems rest : List Expression}

theorem sizeOf_nestedItems (e : Expression) : sizeOf e.nestedItems ≤ 2 + sizeOf e := by
  cases e with
  | seq elems =>
    simp only [nestedItems, seq.sizeOf_spec]
    omega
  | _ =>
    simp only [nestedItems, List.cons.sizeOf_spec, List.nil.sizeOf_spec]
    omega

theorem sizeOf_append (elems rest : List Expression) :
    sizeOf (elems ++ rest) + 1 = sizeOf elems + sizeOf rest := by
  induction elems with
  | nil =>
    simp only [List.nil_append, List.nil.sizeOf_spec]
    omega
  | cons e elems ih =>
    simp only [List.cons_append, List.cons.sizeOf_spec]
    omega

theorem sizeOf_collapseSeq (elems : List Expression) :
    sizeOf (collapseSeq elems) ≤ 1 + sizeOf elems := by
  rw [collapseSeq.eq_def]
  split
  · simp only [List.cons.sizeOf_spec, List.nil.sizeOf_spec]
    omega
  · exact (seq.sizeOf_spec _).le

theorem sizeOf_pushSeq : sizeOf (pushSeq elems rest) ≤ sizeOf elems + sizeOf rest := by
  induction rest generalizing elems with
  | nil =>
    have hle := sizeOf_collapseSeq elems
    rw [pushSeq]
    simp only [List.nil.sizeOf_spec]
    omega
  | cons item items ih =>
    have hitem := sizeOf_nestedItems item
    have hpush := @ih (elems ++ item.nestedItems)
    have happend := sizeOf_append elems item.nestedItems
    rw [pushSeq]
    simp only [List.cons.sizeOf_spec]
    split_ifs <;> omega

theorem sizeOf_makeSeq_lt (e : Expression) (rest : List Expression) :
    sizeOf (makeSeq rest) < sizeOf (seq (e :: rest)) := by
  have hpush := @sizeOf_pushSeq [] rest
  simp only [makeSeq, seq.sizeOf_spec, List.cons.sizeOf_spec, List.nil.sizeOf_spec] at hpush ⊢
  omega

end Size

section Codepoint

variable {cp cp' : ℕ}

/-- The class of one code point. -/
def codepoint (cp : ℕ) : CC := ⟨.singleton zeroed cp, Unicode⟩

theorem codepoint_wellFormed (h : cp ≤ unicodeMax) : (codepoint cp).set.WellFormed :=
  singleton_wellFormed zeroed h

theorem members_codepoint (h : cp ≤ unicodeMax) : (codepoint cp).set.members = {cp} :=
  members_singleton h

theorem intersects_codepoint (h : cp ≤ unicodeMax) (h' : cp' ≤ unicodeMax) :
    (codepoint cp).set.intersects (codepoint cp').set = decide (cp = cp') := by
  rw [Bool.eq_iff_iff, decide_eq_true_eq,
    intersects_iff (codepoint_wellFormed h) (codepoint_wellFormed h'), members_codepoint h,
    members_codepoint h', Set.singleton_inter_nonempty, Set.mem_singleton_iff]

end Codepoint

end Expression

end Parabix.RE
