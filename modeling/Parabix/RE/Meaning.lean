import Mathlib.Order.CompleteBooleanAlgebra
import Mathlib.Order.ConditionallyCompleteLattice.Basic
import Mathlib.Order.CompletePartialOrder
import Parabix.Library.Encoding
import Parabix.RE.Syntax

namespace Parabix.RE

open Library Library.Powers Library.Encoding UCD

section Denote

variable {K : Type*} [CompleteBooleanAlgebra K] [Monoid K]

/-- What the leaves of an expression match: sets of strings, relations of positions in a text, or
any other quantale. -/
structure Meaning (K : Type*) [CompleteBooleanAlgebra K] [Monoid K] where
  cc : ℕ → Set ℕ → K
  cc_empty (alphabet : ℕ) : cc alphabet ∅ = ⊥
  cc_union (alphabet : ℕ) (s t : Set ℕ) : cc alphabet (s ∪ t) = cc alphabet s ⊔ cc alphabet t
  assertion : Kind → Sense → K → K
  assertion_le (k : Kind) (s : Sense) (x : K) : assertion k s x ≤ 1
  assertion_mul_self (k : Kind) (s : Sense) (x : K) :
    assertion k s x * assertion k s x = assertion k s x
  any : K
  start : K
  stop : K
  other : ℕ → K

/-- The numbers of repetitions within the bounds. -/
def counts (lb ub : ℤ) : Set ℕ := {n | lb ≤ n ∧ (ub = UNBOUNDED_REP ∨ (n : ℤ) ≤ ub)}

mutual

def denote (M : Meaning K) : RE → K
  | alt elems => denoteAlt M elems
  | any => M.any
  | assertion asserted kind sense => M.assertion kind sense (denote M asserted)
  | cc c => M.cc c.alphabet c.set.members
  | diff lh rh => denote M lh \ denote M rh
  | intersect lh rh => denote M lh ⊓ denote M rh
  | name _ definition => denote M definition
  | rep re lb ub => powers (denote M re) (counts lb ub)
  | seq elems => denoteSeq M elems
  | start => M.start
  | stop => M.stop
  | other node => M.other node

def denoteAlt (M : Meaning K) : List RE → K
  | [] => ⊥
  | e :: elems => denote M e ⊔ denoteAlt M elems

def denoteSeq (M : Meaning K) : List RE → K
  | [] => 1
  | e :: elems => denote M e * denoteSeq M elems

end

@[simp] theorem denote_alt (M : Meaning K) (elems : List RE) :
    denote M (alt elems) = denoteAlt M elems :=
  rfl

@[simp] theorem denote_seq (M : Meaning K) (elems : List RE) :
    denote M (seq elems) = denoteSeq M elems :=
  rfl

@[simp] theorem denoteAlt_nil (M : Meaning K) : denoteAlt M [] = ⊥ := rfl

@[simp] theorem denoteAlt_cons (M : Meaning K) (e : RE) (elems : List RE) :
    denoteAlt M (e :: elems) = denote M e ⊔ denoteAlt M elems :=
  rfl

@[simp] theorem denoteSeq_nil (M : Meaning K) : denoteSeq M [] = 1 := rfl

@[simp] theorem denoteSeq_cons (M : Meaning K) (e : RE) (elems : List RE) :
    denoteSeq M (e :: elems) = denote M e * denoteSeq M elems :=
  rfl

/-- The words of code points or of code units that an expression of classes matches. -/
def words : Meaning (Language ℕ) where
  cc _ s := letters s
  cc_empty _ := letters_empty
  cc_union _ s t := letters_union s t
  assertion _ _ _ := ⊥
  assertion_le _ _ _ := bot_le
  assertion_mul_self _ _ _ := Quantale.bot_mul
  any := letters Set.univ
  start := ⊥
  stop := ⊥
  other _ := ⊥

end Denote

section Valid

/-- The bounds of a repetition are of the type `int` and in order. -/
structure Bounds (lb ub : ℤ) : Prop where
  nonneg : 0 ≤ lb
  lt : lb < 2 ^ 31
  le : ub = UNBOUNDED_REP ∨ lb ≤ ub
  lt' : ub < 2 ^ 31

/-- The sets of the classes are well formed, and the bounds of the repetitions are in order. -/
inductive Valid : RE → Prop
  | alt {elems : List RE} (h : ∀ e ∈ elems, Valid e) : Valid (alt elems)
  | any : Valid any
  | assertion {asserted : RE} (kind : Kind) (sense : Sense) (h : Valid asserted) :
      Valid (assertion asserted kind sense)
  | cc {c : CC} (h : c.set.WellFormed) : Valid (cc c)
  | diff {lh rh : RE} (hl : Valid lh) (hr : Valid rh) : Valid (diff lh rh)
  | intersect {lh rh : RE} (hl : Valid lh) (hr : Valid rh) : Valid (intersect lh rh)
  | name {definition : RE} (n : String) (h : Valid definition) : Valid (name n definition)
  | rep {re : RE} {lb ub : ℤ} (h : Valid re) (hb : Bounds lb ub) : Valid (rep re lb ub)
  | seq {elems : List RE} (h : ∀ e ∈ elems, Valid e) : Valid (seq elems)
  | start : Valid start
  | stop : Valid stop
  | other (node : ℕ) : Valid (other node)

end Valid

section Lists

variable {K : Type*} [CompleteBooleanAlgebra K] [Monoid K] {M : Meaning K} {e : RE}
  {elems rest : List RE}

theorem denoteAlt_append : denoteAlt M (elems ++ rest) = denoteAlt M elems ⊔ denoteAlt M rest := by
  induction elems with
  | nil => simp
  | cons e elems ih => rw [List.cons_append, denoteAlt_cons, denoteAlt_cons, ih, sup_assoc]

theorem denoteSeq_append : denoteSeq M (elems ++ rest) = denoteSeq M elems * denoteSeq M rest := by
  induction elems with
  | nil => simp
  | cons e elems ih => rw [List.cons_append, denoteSeq_cons, denoteSeq_cons, ih, mul_assoc]

@[simp] theorem denoteAlt_singleton : denoteAlt M [e] = denote M e := by simp

@[simp] theorem denoteSeq_singleton : denoteSeq M [e] = denote M e := by simp

theorem denote_emptySet (hv : Valid e) (h : e.isEmptySet = true) : denote M e = ⊥ := by
  cases e with
  | alt elems =>
    have helems : elems = [] := List.isEmpty_iff.1 h
    rw [denote_alt, helems, denoteAlt_nil]
  | cc c =>
    cases hv with
    | cc hc => rw [denote, members_of_empty hc h, M.cc_empty]
  | _ => cases h

theorem denote_emptySeq (h : e.isEmptySeq = true) : denote M e = 1 := by
  cases e with
  | seq elems =>
    have helems : elems = [] := List.isEmpty_iff.1 h
    rw [denote_seq, helems, denoteSeq_nil]
  | _ => cases h

theorem denote_collapse_seq : denote M (collapse seq elems) = denoteSeq M elems := by
  match elems with
  | [] => rfl
  | [e] => rw [collapse, denoteSeq_singleton]
  | e :: e' :: rest => rfl

theorem denoteSeq_nestedItems (e : RE) : denoteSeq M e.nestedItems = denote M e := by
  cases e with
  | seq nestedSeq => rw [nestedItems, denote_seq]
  | _ => exact denoteSeq_singleton

theorem denote_collapse_alt : denote M (collapse alt elems) = denoteAlt M elems := by
  match elems with
  | [] => rfl
  | [e] => rw [collapse, denoteAlt_singleton]
  | e :: e' :: rest => rfl

end Lists

section Seq

variable {K : Type*} [CompleteBooleanAlgebra K] [Monoid K] [IsQuantale K] {M : Meaning K}
  {items newSeq : List RE}

theorem denoteSeq_bot {e : RE} (hmem : e ∈ items) (h : denote M e = ⊥) : denoteSeq M items = ⊥ := by
  induction items with
  | nil => cases hmem
  | cons item items ih =>
    rw [denoteSeq_cons]
    obtain rfl | hmem := List.mem_cons.1 hmem
    · rw [h, Quantale.bot_mul]
    · rw [ih hmem, Quantale.mul_bot]

theorem denote_pushSeq (hv : ∀ e ∈ items, Valid e) :
    denote M (pushSeq newSeq items) = denoteSeq M newSeq * denoteSeq M items := by
  induction items generalizing newSeq with
  | nil => rw [pushSeq, denote_collapse_seq, denoteSeq_nil, mul_one]
  | cons item items ih =>
    rw [pushSeq]
    split_ifs with hempty
    · have hbot := denote_emptySet (M := M) (hv item (List.mem_cons_self ..)) hempty
      rw [hbot, denoteSeq_bot (List.mem_cons_self ..) hbot, Quantale.mul_bot]
    · rw [ih fun e he ↦ hv e (List.mem_cons_of_mem _ he), denoteSeq_append, denoteSeq_nestedItems,
        denoteSeq_cons, mul_assoc]

theorem denote_makeSeq (hv : ∀ e ∈ items, Valid e) :
    denote M (makeSeq items) = denoteSeq M items := by
  rw [makeSeq, denote_pushSeq hv, denoteSeq_nil, one_mul]

theorem valid_collapse {node : List RE → RE} (hnode : Valid (node items))
    (hv : ∀ e ∈ items, Valid e) : Valid (collapse node items) := by
  match items with
  | [] => exact hnode
  | [e] => exact hv e (List.mem_singleton_self e)
  | e :: e' :: rest => exact hnode

theorem valid_pushSeq (hn : ∀ e ∈ newSeq, Valid e) (hv : ∀ e ∈ items, Valid e) :
    Valid (pushSeq newSeq items) := by
  induction items generalizing newSeq with
  | nil => exact valid_collapse (.seq hn) hn
  | cons item items ih =>
    have hitem := hv item (List.mem_cons_self ..)
    rw [pushSeq]
    split_ifs
    · exact hitem
    · apply ih _ fun e he ↦ hv e (List.mem_cons_of_mem _ he)
      intro e he
      obtain he | he := List.mem_append.1 he
      · exact hn e he
      · cases hitem with
        | seq h => exact h e he
        | _ =>
          obtain rfl := List.mem_singleton.1 he
          exact hv _ (List.mem_cons_self ..)

theorem valid_makeSeq (hv : ∀ e ∈ items, Valid e) : Valid (makeSeq items) :=
  valid_pushSeq (fun _ h ↦ nomatch h) hv

end Seq

end Parabix.RE
