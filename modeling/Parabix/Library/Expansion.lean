import Mathlib.Order.WellFounded
import Mathlib.Tactic.Common

/-!
Sequences of letters of which some are replaced by words, and the letters of these words again.
-/

namespace Parabix.Library

variable {α : Type*}

/-- A letter is followed by those of the word that replaces it. -/
def Derives (step : α → Option (List α)) (d c : α) : Prop := ∃ l, step c = some l ∧ d ∈ l

/-- The letters are replaced until no letter is replaced any more. -/
inductive Expands (step : α → Option (List α)) : List α → List α → Prop
  | nil : Expands step [] []
  | keep {c : α} {s t : List α} (hc : step c = none) (ht : Expands step s t) :
    Expands step (c :: s) (c :: t)
  | replace {c : α} {l u s t : List α} (hc : step c = some l) (hu : Expands step l u)
    (ht : Expands step s t) : Expands step (c :: s) (u ++ t)

/-- A letter is found in the sequence or in the words behind an expanded sequence. -/
inductive Meets (step : α → Option (List α)) : List α → List α → α → Prop
  | head (c : α) (s : List α) : Meets step (c :: s) [] c
  | inside {c d : α} {l w : List α} (s : List α) (hc : step c = some l) (hd : Meets step l w d) :
    Meets step (c :: s) w d
  | later {c d : α} {s u w : List α} (hc : Expands step [c] u) (hd : Meets step s w d) :
    Meets step (c :: s) (u ++ w) d

namespace Expands

variable {step step' : α → Option (List α)} {s t u v : List α} {c : α}

theorem unique (h : Expands step s t) (h' : Expands step s u) : t = u := by
  induction h generalizing u with
  | nil =>
    cases h'
    rfl
  | keep hc _ ih =>
    cases h' with
    | keep _ h' => rw [ih h']
    | replace hc' _ _ => exact absurd (hc.symm.trans hc') (by simp)
  | replace hc _ _ ihl ih =>
    cases h' with
    | keep hc' _ => exact absurd (hc'.symm.trans hc) (by simp)
    | replace hc' hl h' =>
      obtain rfl := Option.some_inj.1 (hc.symm.trans hc')
      rw [ihl hl, ih h']

theorem append (h : Expands step s t) (h' : Expands step u v) :
    Expands step (s ++ u) (t ++ v) := by
  induction h with
  | nil => exact h'
  | keep hc _ ih => exact .keep hc ih
  | replace hc hl _ _ ih =>
    rw [List.append_assoc]
    exact .replace hc hl ih

theorem of_append (h : Expands step (s ++ u) v) :
    ∃ t w, Expands step s t ∧ Expands step u w ∧ v = t ++ w := by
  induction s generalizing v with
  | nil => exact ⟨[], v, .nil, h, rfl⟩
  | cons c s ih =>
    cases h with
    | keep hc h =>
      obtain ⟨t, w, ht, hw, rfl⟩ := ih h
      exact ⟨c :: t, w, .keep hc ht, hw, rfl⟩
    | replace hc hl h =>
      obtain ⟨t, w, ht, hw, rfl⟩ := ih h
      exact ⟨_, w, .replace hc hl ht, hw, (List.append_assoc ..).symm⟩

/-- Nothing is replaced in an expanded sequence. -/
theorem final (h : Expands step s t) : ∀ c ∈ t, step c = none := by
  induction h with
  | nil => exact fun c hc ↦ absurd hc List.not_mem_nil
  | keep hc _ ih =>
    intro d hd
    rcases List.mem_cons.1 hd with rfl | hd
    · exact hc
    · exact ih d hd
  | replace _ _ _ ihl ih => exact fun d hd ↦ (List.mem_append.1 hd).elim (ihl d) (ih d)

theorem refl (h : ∀ c ∈ s, step c = none) : Expands step s s := by
  induction s with
  | nil => exact .nil
  | cons c s ih =>
    exact .keep (h c List.mem_cons_self) (ih fun d hd ↦ h d (List.mem_cons_of_mem _ hd))

/-- Some replacements are made first. -/
theorem of_part (h : Expands step s t) (hstep : ∀ c l, step c = some l → step' c = some l)
    (h' : Expands step' s u) : Expands step' t u := by
  induction h generalizing u with
  | nil => exact h'
  | @keep c s t hc _ ih =>
    obtain ⟨v, w, hv, hw, rfl⟩ := Expands.of_append (s := [c]) h'
    exact Expands.append (s := [c]) hv (ih hw)
  | replace hc _ _ ihl ih =>
    have hc' := hstep _ _ hc
    cases h' with
    | keep hnone _ => exact absurd (hnone.symm.trans hc') (by simp)
    | replace hsome hl h' =>
      obtain rfl := Option.some_inj.1 (hc'.symm.trans hsome)
      exact (ihl hl).append (ih h')

/-- The replacements of acyclic ones end. -/
theorem exists_of_wellFounded (hwf : WellFounded (Derives step)) (s : List α) :
    ∃ t, Expands step s t := by
  have hletter (c : α) : ∃ t, Expands step [c] t := by
    induction c using hwf.induction with
    | _ c ih =>
      cases hc : step c with
      | none => exact ⟨[c], .keep hc .nil⟩
      | some l =>
        have hword (w : List α) (hw : ∀ d ∈ w, d ∈ l) : ∃ u, Expands step w u := by
          induction w with
          | nil => exact ⟨[], .nil⟩
          | cons d w ihw =>
            obtain ⟨t, ht⟩ := ih d ⟨l, hc, hw d List.mem_cons_self⟩
            obtain ⟨u, hu⟩ := ihw fun e he ↦ hw e (List.mem_cons_of_mem _ he)
            exact ⟨t ++ u, ht.append hu⟩
        obtain ⟨u, hu⟩ := hword l fun d hd ↦ hd
        exact ⟨u ++ [], .replace hc hu .nil⟩
  induction s with
  | nil => exact ⟨[], .nil⟩
  | cons c s ih =>
    obtain ⟨t, ht⟩ := hletter c
    obtain ⟨u, hu⟩ := ih
    exact ⟨t ++ u, ht.append hu⟩

end Expands

end Parabix.Library
