import Mathlib.Data.List.Chain
import Mathlib.Logic.Relation
import Mathlib.Tactic.Common

/-!
Sequences of items with classes, in which the items of class zero stay where they are and the
others between them are put in the order of their classes by exchanges of neighbours.
-/

namespace Parabix.Library

variable {α : Type*} (cls : α → ℕ)

/-- Two neighbours that have to be exchanged. -/
def Reorderable (a b : α) : Prop := 0 < cls b ∧ cls b < cls a

instance decidableReorderable (a b : α) : Decidable (Reorderable cls a b) :=
  inferInstanceAs (Decidable (_ ∧ _))

/-- An exchange of neighbours. -/
inductive Exchange : List α → List α → Prop
  | mk (x : List α) (a b : α) (y : List α) (hab : Reorderable cls a b) :
    Exchange (x ++ a :: b :: y) (x ++ b :: a :: y)

def InOrder (s : List α) : Prop := s.IsChain fun a b ↦ ¬ Reorderable cls a b

/-- Exchanges of neighbours order a sequence. -/
def IsOrdering (s t : List α) : Prop := Relation.ReflTransGen (Exchange cls) s t ∧ InOrder cls t

/-- An item is put before the last items of a greater class. The last item stands first here. -/
def push : List α → α → List α
  | [], c => [c]
  | b :: xs, c => if Reorderable cls b c then b :: push xs c else c :: b :: xs

/-- The items of a sequence are put one after the other behind other ones. -/
def pushAll (xs s : List α) : List α := s.foldl (push cls) xs

/-- The ordered sequence. -/
def ordering (s : List α) : List α := (pushAll cls [] s).reverse

section Push

variable {cls} {a b c : α} {xs s t : List α}

/-- Items that have to be exchanged can be put in either order. -/
theorem push_comm (hab : Reorderable cls a b) (xs : List α) :
    push cls (push cls xs a) b = push cls (push cls xs b) a := by
  have hba : ¬ Reorderable cls b a := fun hba ↦ Nat.lt_asymm hab.2 hba.2
  induction xs with
  | nil => rw [push, push, push, push, if_pos hab, push, if_neg hba]
  | cons x xs ih =>
    by_cases hxa : Reorderable cls x a
    · have hxb : Reorderable cls x b := ⟨hab.1, hab.2.trans hxa.2⟩
      rw [push, if_pos hxa, push, if_pos hxb, push, if_pos hxb, push, if_pos hxa, ih]
    · have hleft : push cls (push cls (x :: xs) a) b = a :: push cls (x :: xs) b := by
        rw [push, if_neg hxa, push, if_pos hab]
      rw [hleft]
      by_cases hxb : Reorderable cls x b
      · rw [push, if_pos hxb, push, if_neg hxa]
      · rw [push, if_neg hxb, push, if_neg hba]

theorem pushAll_append (xs s t : List α) :
    pushAll cls xs (s ++ t) = pushAll cls (pushAll cls xs s) t := List.foldl_append ..

theorem pushAll_exchange (h : Exchange cls s t) (xs : List α) :
    pushAll cls xs s = pushAll cls xs t := by
  cases h with
  | mk x a b y hab =>
    rw [pushAll_append, pushAll_append]
    exact congrArg (fun xs ↦ pushAll cls xs y) (push_comm hab _)

theorem pushAll_exchanges (h : Relation.ReflTransGen (Exchange cls) s t) (xs : List α) :
    pushAll cls xs s = pushAll cls xs t := by
  induction h with
  | refl => rfl
  | tail _ hstep ih => exact ih.trans (pushAll_exchange hstep xs)

/-- An ordered sequence is left as it is. -/
theorem pushAll_ordered (h : InOrder cls (xs.reverse ++ s)) :
    pushAll cls xs s = s.reverse ++ xs := by
  induction s generalizing xs with
  | nil => rfl
  | cons c s ih =>
    have hpush : push cls xs c = c :: xs := by
      cases xs with
      | nil => rfl
      | cons b xs =>
        rw [push, if_neg]
        rw [InOrder, List.reverse_cons, List.append_assoc, List.singleton_append,
          List.isChain_append] at h
        exact (List.isChain_cons_cons.1 h.2.1).1
    have hrest : pushAll cls (c :: xs) s = s.reverse ++ c :: xs :=
      ih (by rwa [List.reverse_cons, List.append_assoc, List.singleton_append])
    rw [pushAll] at hrest ⊢
    rw [List.foldl_cons, hpush, hrest, List.reverse_cons, List.append_assoc,
      List.singleton_append]

theorem ordering_of_ordered (h : InOrder cls s) : ordering cls s = s := by
  rw [ordering, pushAll_ordered (by simpa using h), List.append_nil, List.reverse_reverse]

theorem Exchange.append_right (h : Exchange cls s t) (u : List α) :
    Exchange cls (s ++ u) (t ++ u) := by
  cases h with
  | mk x a b y hab =>
    have hmoved := Exchange.mk x a b (y ++ u) hab
    rwa [← List.cons_append, ← List.cons_append, ← List.append_assoc, ← List.cons_append,
      ← List.cons_append, ← List.append_assoc] at hmoved

/-- The item is exchanged with the last ones of a greater class. -/
theorem exchanges_push (xs : List α) (c : α) :
    Relation.ReflTransGen (Exchange cls) (xs.reverse ++ [c]) (push cls xs c).reverse := by
  induction xs with
  | nil => exact .refl
  | cons b xs ih =>
    rw [push]
    split_ifs with hbc
    · have hfirst : Exchange cls ((b :: xs).reverse ++ [c]) (xs.reverse ++ [c] ++ [b]) := by
        have hswap := Exchange.mk xs.reverse b c [] hbc
        rwa [List.reverse_cons, List.append_assoc, List.append_assoc]
      rw [@List.reverse_cons _ b (push cls xs c)]
      exact .head hfirst (ih.lift (· ++ [b]) fun _ _ hstep ↦ hstep.append_right [b])
    · rw [List.reverse_cons (a := c)]

theorem exchanges_pushAll (xs s : List α) :
    Relation.ReflTransGen (Exchange cls) (xs.reverse ++ s) (pushAll cls xs s).reverse := by
  induction s generalizing xs with
  | nil =>
    rw [List.append_nil]
    exact .refl
  | cons c s ih =>
    have hfirst : Relation.ReflTransGen (Exchange cls) (xs.reverse ++ [c] ++ s)
        ((push cls xs c).reverse ++ s) :=
      (exchanges_push xs c).lift (· ++ s) fun _ _ hstep ↦ hstep.append_right s
    rw [List.append_assoc, List.singleton_append] at hfirst
    exact hfirst.trans (ih _)

theorem ordered_reverse :
    InOrder cls xs.reverse ↔ xs.IsChain fun b a ↦ ¬ Reorderable cls a b := List.isChain_reverse

theorem ordered_push (h : InOrder cls xs.reverse) (c : α) :
    InOrder cls (push cls xs c).reverse := by
  rw [ordered_reverse] at h ⊢
  induction xs with
  | nil => exact List.isChain_singleton c
  | cons b xs ih =>
    rw [push]
    split_ifs with hbc
    · have hcb : ¬ Reorderable cls c b := fun hcb ↦ Nat.lt_asymm hbc.2 hcb.2
      have hrest := ih h.tail
      cases xs with
      | nil => exact List.isChain_cons_cons.2 ⟨hcb, hrest⟩
      | cons x xs =>
        rw [push] at hrest ⊢
        split_ifs at hrest ⊢ with hxc
        · exact List.isChain_cons_cons.2 ⟨(List.isChain_cons_cons.1 h).1, hrest⟩
        · exact List.isChain_cons_cons.2 ⟨hcb, hrest⟩
    · exact List.isChain_cons_cons.2 ⟨hbc, h⟩

theorem ordered_pushAll (h : InOrder cls xs.reverse) (s : List α) :
    InOrder cls (pushAll cls xs s).reverse := by
  induction s generalizing xs with
  | nil => exact h
  | cons c s ih => exact ih (ordered_push h c)

/-- A sequence has one ordering. -/
theorem isOrdering_iff : IsOrdering cls s t ↔ t = ordering cls s := by
  constructor
  · rintro ⟨hst, ht⟩
    rw [ordering, pushAll_exchanges hst, ← ordering, ordering_of_ordered ht]
  · rintro rfl
    exact ⟨exchanges_pushAll [] s, @ordered_pushAll _ _ [] List.isChain_nil s⟩

end Push

end Parabix.Library
