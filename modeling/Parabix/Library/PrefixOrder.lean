import Mathlib.Data.List.Lex
import Mathlib.Order.Lattice

/-!
Comparisons of words of which none is a proper prefix of another, so that words one after the other
are compared word by word.
-/

namespace Parabix.Library

variable {α : Type} [LinearOrder α] {a b : α} {u v u' v' : List α}
  {less greater less' greater' : Bool}

/-- Two comparisons order two words, and what follows the words matters only where they are the
same. -/
structure Compares (less greater : Bool) (u v : List α) : Prop where
  less_iff : less = true ↔ u < v
  greater_iff : greater = true ↔ v < u
  lt_iff (x y : List α) : u ++ x < v ++ y ↔ u < v ∨ u = v ∧ x < y
  gt_iff (x y : List α) : v ++ y < u ++ x ↔ v < u ∨ u = v ∧ y < x
  eq_of_append (x y : List α) (h : u ++ x = v ++ y) : u = v

/-- The second comparison is made only where the first one does not decide. -/
def decides (less greater less' : Bool) : Bool :=
  if less then true else if greater then false else less'

namespace Compares

theorem nil : Compares false false ([] : List α) [] where
  less_iff := by simp
  greater_iff := by simp
  lt_iff x y := by simp
  gt_iff x y := by simp
  eq_of_append _ _ _ := rfl

theorem cons (a : α) (h : Compares less greater u v) : Compares less greater (a :: u) (a :: v) where
  less_iff := by rw [h.less_iff, List.cons_lt_cons_self]
  greater_iff := by rw [h.greater_iff, List.cons_lt_cons_self]
  lt_iff x y := by
    rw [List.cons_append, List.cons_append, List.cons_lt_cons_self, List.cons_lt_cons_self,
      h.lt_iff, List.cons.injEq, eq_self, true_and]
  gt_iff x y := by
    rw [List.cons_append, List.cons_append, List.cons_lt_cons_self, List.cons_lt_cons_self,
      h.gt_iff, List.cons.injEq, eq_self, true_and]
  eq_of_append x y heq := by
    rw [List.cons_append, List.cons_append, List.cons.injEq] at heq
    rw [h.eq_of_append x y heq.2]

/-- The first letters decide. -/
theorem head (hne : a ≠ b) (u v : List α) :
    Compares (decide (a < b)) (decide (b < a)) (a :: u) (b :: v) where
  less_iff := by simp [List.cons_lt_cons_iff, hne]
  greater_iff := by simp [List.cons_lt_cons_iff, hne.symm]
  lt_iff x y := by simp [List.cons_lt_cons_iff, hne]
  gt_iff x y := by simp [List.cons_lt_cons_iff, hne, hne.symm]
  eq_of_append x y heq := by
    rw [List.cons_append, List.cons_append, List.cons.injEq] at heq
    exact absurd heq.1 hne

theorem letter (a b : α) : Compares (decide (a < b)) (decide (b < a)) [a] [b] := by
  by_cases h : a = b
  · rw [h, decide_eq_false (lt_irrefl b)]
    exact nil.cons b
  · exact head h [] []

/-- The first letters are compared, and the rest only where they are the same. -/
theorem field {p q : Prop} [Decidable p] [Decidable q] (hp : p ↔ a ≠ b) (hq : q ↔ b ≠ a)
    (hless : less = decide (a < b)) (hgreater : greater = decide (b < a))
    (h : a = b → Compares less' greater' u v) :
    Compares (if p then less else less') (if q then greater else greater') (a :: u) (b :: v) := by
  by_cases heq : a = b
  · rw [if_neg (fun hne ↦ hp.1 hne heq), if_neg (fun hne ↦ hq.1 hne heq.symm), heq]
    exact (h heq).cons b
  · rw [if_pos (hp.2 heq), if_pos (hq.2 (Ne.symm heq)), hless, hgreater]
    exact head heq u v

theorem eq_iff (h : Compares less greater u v) : u = v ↔ less = false ∧ greater = false := by
  rw [← Bool.not_eq_true, ← Bool.not_eq_true, h.less_iff, h.greater_iff]
  constructor
  · rintro rfl
    exact ⟨lt_irrefl u, lt_irrefl u⟩
  · rintro ⟨hlt, hgt⟩
    exact le_antisymm (not_lt.1 hgt) (not_lt.1 hlt)

theorem append_eq_append_iff (h : Compares less greater u v) (x y : List α) :
    u ++ x = v ++ y ↔ u = v ∧ x = y := by
  constructor
  · intro heq
    obtain rfl := h.eq_of_append x y heq
    exact ⟨rfl, List.append_cancel_left heq⟩
  · rintro ⟨rfl, rfl⟩
    rfl

theorem append (h : Compares less greater u v) (h' : Compares less' greater' u' v') :
    Compares (decides less greater less') (decides greater less greater') (u ++ u') (v ++ v') where
  less_iff := by
    rw [h.lt_iff, ← h.less_iff, h.eq_iff, ← h'.less_iff, decides]
    cases less <;> cases greater <;> simp
  greater_iff := by
    rw [h.gt_iff, ← h.greater_iff, h.eq_iff, ← h'.greater_iff, decides]
    cases less <;> cases greater <;> simp
  lt_iff x y := by
    rw [List.append_assoc, List.append_assoc, h.lt_iff, h.lt_iff, h'.lt_iff,
      h.append_eq_append_iff, and_or_left, or_assoc, and_assoc]
  gt_iff x y := by
    rw [List.append_assoc, List.append_assoc, h.gt_iff, h.gt_iff, h'.gt_iff,
      h.append_eq_append_iff, and_or_left, or_assoc, and_assoc]
  eq_of_append x y heq := by
    rw [List.append_assoc, List.append_assoc] at heq
    obtain ⟨hfirst, hrest⟩ := (h.append_eq_append_iff _ _).1 heq
    rw [hfirst, h'.eq_of_append x y hrest]

end Compares

end Parabix.Library
