import Parabix.UCD.Normalization

namespace Parabix.UCD

open Library Unicode DecompositionOptions

namespace NFD_Engine

variable {E : NFD_Engine}

section Appends

variable {s t u l : List ℕ} {c : ℕ}

/-- A character is appended, whatever depth is left for the calls. -/
def Appends1 (E : NFD_Engine) (s : List ℕ) (c : ℕ) (t : List ℕ) : Prop :=
  ∃ fuel₀, ∀ fuel ≥ fuel₀, E.NFD_append1 fuel s c = .ok t

def Appends (E : NFD_Engine) (s l t : List ℕ) : Prop :=
  ∃ fuel₀, ∀ fuel ≥ fuel₀, E.NFD_append fuel s l = .ok t

theorem Appends.nil (s : List ℕ) : E.Appends s [] s := ⟨0, fun _ _ ↦ rfl⟩

theorem Appends.cons (h : E.Appends1 s c t) (h' : E.Appends t l u) : E.Appends s (c :: l) u := by
  obtain ⟨fuel₁, h₁⟩ := h
  obtain ⟨fuel₂, h₂⟩ := h'
  refine ⟨max fuel₁ fuel₂, fun fuel hfuel ↦ ?_⟩
  rw [NFD_append, List.foldlM_cons, h₁ fuel (le_of_max_le_left hfuel), ok_bind]
  exact h₂ fuel (le_of_max_le_right hfuel)

/-- A call that calls itself with a smaller depth for a string. -/
theorem Appends.call (h : E.Appends s l t) {r : List ℕ}
    (hcall : ∀ fuel, E.NFD_append1 (fuel + 1) r c = E.NFD_append fuel s l) :
    E.Appends1 r c t := by
  obtain ⟨fuel₀, h⟩ := h
  refine ⟨fuel₀ + 1, fun fuel hfuel ↦ ?_⟩
  obtain ⟨k, rfl⟩ := Nat.exists_eq_add_of_le' (Nat.le_of_succ_le hfuel)
  obtain ⟨j, hj⟩ : ∃ j, k + fuel₀ = j + 1 := ⟨k + fuel₀ - 1, by omega⟩
  rw [hj, hcall, h j (by omega)]

end Appends

section Steps

variable {xs l : List ℕ} {b c : ℕ}

theorem reordering_needed_iff :
    E.reordering_needed (b :: xs).reverse c = true ↔ Reorderable E.ccc b c := by
  rw [reordering_needed, List.getLast?_reverse, List.head?_cons]
  simp only [Reorderable]
  split_ifs with hc
  · exact ⟨fun h ↦ h.elim, fun h ↦ absurd hc h.1.ne'⟩
  · rw [decide_eq_true_iff]
    exact ⟨fun h ↦ ⟨Nat.pos_of_ne_zero hc, h⟩, fun h ↦ h.2⟩

theorem canonicalStep_none (h : E.canonicalStep c = none) :
    ¬ Hangul.Precomposed c ∧ ¬ E.canonicalMapped c = true := by
  rw [canonicalStep] at h
  split_ifs at h with hp hm
  exact ⟨hp, hm⟩

/-- The last character does not have to be reordered. -/
def Stays (E : NFD_Engine) (xs : List ℕ) (c : ℕ) : Prop :=
  ∀ b ∈ xs.head?, ¬ Reorderable E.ccc b c

theorem Stays.reordering (h : E.Stays xs c) : ¬ E.reordering_needed xs.reverse c = true := by
  cases xs with
  | nil => exact Bool.false_ne_true
  | cons b xs => exact fun hb ↦ h b rfl (reordering_needed_iff.1 hb)

theorem engineStep_none (h : E.engineStep c = none) :
    E.canonicalStep c = none ∧ E.mappedStep c = none := by
  rw [engineStep, Option.or_eq_none_iff] at h
  exact h

/-- A character that is not mapped is put last. -/
theorem appends1_last (hc : E.engineStep c = none) (h : E.Stays xs c) :
    E.Appends1 xs.reverse c (c :: xs).reverse := by
  obtain ⟨hcanonical, hmapped⟩ := engineStep_none hc
  obtain ⟨hp, hm⟩ := canonicalStep_none hcanonical
  rw [mappedStep] at hmapped
  split_ifs at hmapped with hfold hk
  refine ⟨1, fun fuel hfuel ↦ ?_⟩
  obtain ⟨fuel, rfl⟩ : ∃ k, fuel = k + 1 := ⟨fuel - 1, by omega⟩
  rw [NFD_append1, if_neg hp, if_neg hm, if_neg h.reordering, if_neg hfold, if_neg hk,
    List.reverse_cons]

/-- A mapped character that stays is replaced by what it is mapped to. -/
theorem appends1_mapped (hnone : E.canonicalStep c = none) (hc : E.mappedStep c = some l)
    (h : E.Stays xs c) {t : List ℕ} (hl : E.Appends xs.reverse l t) :
    E.Appends1 xs.reverse c t := by
  obtain ⟨hp, hm⟩ := canonicalStep_none hnone
  refine hl.call fun fuel ↦ ?_
  rw [mappedStep] at hc
  rw [NFD_append1, if_neg hp, if_neg hm, if_neg h.reordering]
  split_ifs at hc with hfold hk
  · rw [if_pos hfold, ← Option.some_inj.1 hc]
    rfl
  · rw [if_neg hfold, if_pos hk, ← Option.some_inj.1 hc]
    rfl

theorem stays_push {x : ℕ} (hx : Reorderable E.ccc b x)
    (h : InOrder E.ccc (b :: xs).reverse) : E.Stays (push E.ccc xs x) b := by
  have hordered := ordered_push h x
  rw [push, if_pos hx, ordered_reverse] at hordered
  intro y hy
  cases hpush : push E.ccc xs x with
  | nil =>
    rw [hpush] at hy
    cases hy
  | cons z zs =>
    rw [hpush] at hy hordered
    obtain rfl := Option.some_inj.1 hy
    exact (List.isChain_cons_cons.1 hordered).1

/-- A character that is not mapped is put where it belongs. -/
theorem appends1_push (hc : E.engineStep c = none) (hfinal : ∀ b ∈ xs, E.engineStep b = none)
    (h : InOrder E.ccc xs.reverse) : E.Appends1 xs.reverse c (push E.ccc xs c).reverse := by
  induction xs with
  | nil => exact appends1_last hc fun b hb ↦ absurd hb (Option.not_mem_none b)
  | cons b xs ih =>
    by_cases hbc : Reorderable E.ccc b c
    · have hrest : InOrder E.ccc xs.reverse := by
        rw [ordered_reverse] at h ⊢
        exact h.tail
      have hfirst := ih (fun b hb ↦ hfinal b (List.mem_cons_of_mem _ hb)) hrest
      have hsecond := appends1_last (hfinal b List.mem_cons_self) (stays_push hbc h)
      have hboth := Appends.cons hfirst (.cons hsecond (.nil _))
      obtain ⟨hp, hm⟩ := canonicalStep_none (engineStep_none hc).1
      rw [push, if_pos hbc]
      refine hboth.call fun fuel ↦ ?_
      rw [NFD_append1, if_neg hp, if_neg hm, if_pos (reordering_needed_iff.2 hbc),
        List.getLastD_eq_getLast?, List.getLast?_reverse, List.dropLast_reverse]
      rfl
    · rw [push, if_neg hbc]
      exact appends1_last hc fun x hx ↦ (Option.some_inj.1 hx) ▸ hbc

end Steps

section Reaches

variable {step step' : ℕ → Option (List ℕ)} {s t l : List ℕ} {a c x : ℕ}

theorem reaches_of_mem (hc : c ∈ s) : Reaches step s c := ⟨c, hc, .refl⟩

theorem Reaches.mono (h : Reaches step s c) (hst : ∀ a ∈ s, a ∈ t) : Reaches step t c := by
  obtain ⟨a, ha, hac⟩ := h
  exact ⟨a, hst a ha, hac⟩

theorem Reaches.of_step (h : Reaches step l x) (hc : step c = some l) (hs : c ∈ s) :
    Reaches step s x := by
  obtain ⟨a, ha, hax⟩ := h
  exact ⟨c, hs, .head ⟨l, hc, ha⟩ hax⟩

theorem Reaches.of_closed {P : ℕ → Prop} (h : Reaches step s c) (hs : ∀ a ∈ s, P a)
    (hstep : ∀ a l, P a → step a = some l → ∀ b ∈ l, P b) : P c := by
  obtain ⟨a, ha, hac⟩ := h
  induction hac with
  | refl => exact hs a ha
  | tail _ hb ih =>
    obtain ⟨l, hl, hb⟩ := hb
    exact hstep _ l ih hl _ hb

/-- Only the steps of the reached characters matter. -/
theorem expands_congr (h : Expands step s t) (hstep : ∀ c, Reaches step s c → step c = step' c) :
    Expands step' s t := by
  induction h with
  | nil => exact .nil
  | keep hc _ ih =>
    refine .keep ((hstep _ (reaches_of_mem List.mem_cons_self)).symm.trans hc) (ih fun d hd ↦ ?_)
    exact hstep d (hd.mono fun a ha ↦ List.mem_cons_of_mem _ ha)
  | replace hc _ _ ihl ih =>
    refine .replace ((hstep _ (reaches_of_mem List.mem_cons_self)).symm.trans hc)
      (ihl fun d hd ↦ ?_) (ih fun d hd ↦ ?_)
    · exact hstep d (hd.of_step hc List.mem_cons_self)
    · exact hstep d (hd.mono fun a ha ↦ List.mem_cons_of_mem _ ha)

end Reaches

section Engine

variable {s e xs : List ℕ} {c : ℕ}

theorem pushAll_starters (h : ∀ j ∈ s, E.ccc j = 0) :
    pushAll E.ccc xs s = s.reverse ++ xs := by
  induction s generalizing xs with
  | nil => rfl
  | cons c s ih =>
    have hpush : push E.ccc xs c = c :: xs := by
      have hc : E.ccc c = 0 := h c List.mem_cons_self
      cases xs with
      | nil => rfl
      | cons b xs => rw [push, if_neg fun hb ↦ hb.1.ne' hc]
    have hrest : pushAll E.ccc (c :: xs) s = s.reverse ++ c :: xs :=
      ih fun j hj ↦ h j (List.mem_cons_of_mem _ hj)
    rw [pushAll] at hrest ⊢
    rw [List.foldl_cons, hpush, hrest, List.reverse_cons, List.append_assoc,
      List.singleton_append]

theorem mem_push {b : ℕ} (hb : b ∈ push E.ccc xs c) : b = c ∨ b ∈ xs := by
  induction xs with
  | nil => exact .inl (List.mem_singleton.1 hb)
  | cons x xs ih =>
    rw [push] at hb
    split_ifs at hb with hxc
    · rcases List.mem_cons.1 hb with rfl | hb
      · exact .inr List.mem_cons_self
      · exact (ih hb).imp id fun hb ↦ List.mem_cons_of_mem _ hb
    · exact List.mem_cons.1 hb

theorem mem_pushAll {b : ℕ} (hb : b ∈ pushAll E.ccc xs s) : b ∈ s ∨ b ∈ xs := by
  induction s generalizing xs with
  | nil => exact .inr hb
  | cons c s ih =>
    rcases ih hb with hs | hpush
    · exact .inl (List.mem_cons_of_mem _ hs)
    · rcases mem_push hpush with rfl | hxs
      · exact .inl List.mem_cons_self
      · exact .inr hxs

theorem mem_takeWhile_push {b : ℕ} (hb : b ∈ (push E.ccc xs c).takeWhile fun x ↦ E.ccc x ≠ 0) :
    E.ccc c ≠ 0 ∧ (b = c ∨ b ∈ xs.takeWhile fun x ↦ E.ccc x ≠ 0) := by
  induction xs with
  | nil =>
    rw [push, List.takeWhile_cons] at hb
    split_ifs at hb with hc
    · exact ⟨of_decide_eq_true hc, .inl (List.mem_singleton.1 hb)⟩
    · exact absurd hb List.not_mem_nil
  | cons x xs ih =>
    rw [push] at hb
    split_ifs at hb with hxc
    · have hx : E.ccc x ≠ 0 := (hxc.1.trans hxc.2).ne'
      rw [List.takeWhile_cons, if_pos (decide_eq_true hx)] at hb ⊢
      rcases List.mem_cons.1 hb with rfl | hb
      · exact ⟨hxc.1.ne', .inr List.mem_cons_self⟩
      · exact ⟨hxc.1.ne', (ih hb).2.imp id fun hb ↦ List.mem_cons_of_mem _ hb⟩
    · rw [List.takeWhile_cons] at hb
      split_ifs at hb with hc
      · exact ⟨of_decide_eq_true hc, List.mem_cons.1 hb⟩
      · exact absurd hb List.not_mem_nil

/-- The last marks of an ordered string are those of the string. -/
theorem mem_lastMarks {w : List ℕ} {b : ℕ}
    (hb : b ∈ (pushAll E.ccc [] w).takeWhile fun x ↦ E.ccc x ≠ 0) : b ∈ E.lastMarks w := by
  induction w using List.reverseRecOn with
  | nil => exact hb
  | append_singleton w c ih =>
    rw [pushAll_append] at hb
    obtain ⟨hc, hmem⟩ := mem_takeWhile_push (c := c) hb
    rw [lastMarks, List.reverse_append, List.reverse_singleton, List.singleton_append,
      List.takeWhile_cons, if_pos (decide_eq_true hc)]
    rcases hmem with rfl | hmem
    · exact List.mem_cons_self
    · exact List.mem_cons_of_mem _ (ih hmem)

/-- A mark in its place is not reordered before it is mapped. -/
theorem stays_of_lastMarks {w : List ℕ}
    (h : E.ccc c ≠ 0 → ∀ x ∈ E.lastMarks w, E.ccc x ≤ E.ccc c) :
    E.Stays (pushAll E.ccc [] w) c := by
  intro b hb hbc
  have hb₀ : E.ccc b ≠ 0 := (hbc.1.trans hbc.2).ne'
  have hmem : b ∈ (pushAll E.ccc [] w).takeWhile fun x ↦ E.ccc x ≠ 0 := by
    cases hxs : pushAll E.ccc [] w with
    | nil =>
      rw [hxs] at hb
      exact absurd hb (Option.not_mem_none b)
    | cons x xs =>
      rw [hxs] at hb
      obtain rfl := Option.some_inj.1 hb
      rw [List.takeWhile_cons, if_pos (decide_eq_true hb₀)]
      exact List.mem_cons_self
  exact absurd hbc.2 (Nat.not_lt.2 (h hbc.1.ne' b (mem_lastMarks hmem)))

/-- Where no mapped mark has to be moved, everything that a string is mapped to is put where it
belongs. -/
theorem appends_expansion {w : List ℕ}
    (hjamo : ∀ c, Reaches E.engineStep s c → Hangul.Precomposed c →
      ∀ j ∈ Hangul.decomposition c, E.engineStep j = none ∧ E.ccc j = 0)
    (hplace : ∀ v c, Meets E.engineStep s v c → E.canonicalStep c = none →
      E.mappedStep c ≠ none → E.ccc c ≠ 0 → ∀ x ∈ E.lastMarks (w ++ v), E.ccc x ≤ E.ccc c)
    (h : Expands E.engineStep s e) (hw : ∀ x ∈ w, E.engineStep x = none) :
    E.Appends (ordering E.ccc w) s (ordering E.ccc (w ++ e)) := by
  induction h generalizing w with
  | nil =>
    rw [List.append_nil]
    exact .nil _
  | @keep c s t hc ht ih =>
    have hcons (a : ℕ) (ha : a ∈ s) : a ∈ c :: s := List.mem_cons_of_mem _ ha
    have hfinal (x : ℕ) (hx : x ∈ w ++ [c]) : E.engineStep x = none :=
      (List.mem_append.1 hx).elim (hw x) fun hxc ↦ List.mem_singleton.1 hxc ▸ hc
    have hlast : E.Appends1 (ordering E.ccc w) c (ordering E.ccc (w ++ [c])) := by
      rw [ordering, ordering, pushAll_append]
      exact appends1_push hc (fun b hb ↦ (mem_pushAll hb).elim (hw b)
        fun hnil ↦ absurd hnil List.not_mem_nil) (@ordered_pushAll _ _ [] List.isChain_nil w)
    have hrest := ih (w := w ++ [c]) (fun d hd ↦ hjamo d (hd.mono hcons)) (fun v d hd ↦ by
      rw [List.append_assoc]
      exact hplace _ d (.later (.keep hc .nil) hd)) hfinal
    rw [List.append_assoc] at hrest
    exact .cons hlast hrest
  | @replace c l u s t hc hu ht ihl ih =>
    have hcons (a : ℕ) (ha : a ∈ s) : a ∈ c :: s := List.mem_cons_of_mem _ ha
    have hreached : Reaches E.engineStep (c :: s) c := reaches_of_mem List.mem_cons_self
    have hword : E.Appends (ordering E.ccc w) l (ordering E.ccc (w ++ u)) :=
      ihl (fun d hd ↦ hjamo d (hd.of_step hc List.mem_cons_self))
        (fun v d hd ↦ hplace v d (.inside s hc hd)) hw
    have hfirst : E.Appends1 (ordering E.ccc w) c (ordering E.ccc (w ++ u)) := by
      rw [engineStep] at hc
      cases hcanonical : E.canonicalStep c with
      | some m =>
        rw [hcanonical, Option.some_or] at hc
        obtain rfl := Option.some_inj.1 hc
        rw [canonicalStep] at hcanonical
        split_ifs at hcanonical with hp hm
        · have hplain := hjamo c hreached hp
          obtain rfl := Option.some_inj.1 hcanonical
          have hsame := hu.unique (.refl fun j hj ↦ (hplain j hj).1)
          refine ⟨1, fun fuel hfuel ↦ ?_⟩
          obtain ⟨fuel, rfl⟩ : ∃ k, fuel = k + 1 := ⟨fuel - 1, by omega⟩
          rw [NFD_append1, if_pos hp, hsame, ordering, ordering, pushAll_append,
            pushAll_starters fun j hj ↦ (hplain j hj).2, List.reverse_append,
            List.reverse_reverse]
        · obtain rfl := Option.some_inj.1 hcanonical
          refine hword.call fun fuel ↦ ?_
          rw [NFD_append1, if_neg hp, if_pos hm]
          rfl
      | none =>
        rw [hcanonical, Option.none_or] at hc
        refine appends1_mapped hcanonical hc (stays_of_lastMarks fun hmark ↦ ?_) hword
        have hmet := hplace [] c (.head c s) hcanonical
          (by rw [hc]; exact Option.some_ne_none l) hmark
        rwa [List.append_nil] at hmet
    have hunit : Expands E.engineStep [c] u := List.append_nil u ▸ .replace hc hu .nil
    have hrest := ih (w := w ++ u) (fun d hd ↦ hjamo d (hd.mono hcons)) (fun v d hd ↦ by
      rw [List.append_assoc]
      exact hplace _ d (.later hunit hd)) fun x hx ↦
        (List.mem_append.1 hx).elim (hw x) (hu.final x)
    rw [List.append_assoc] at hrest
    exact .cons hfirst hrest

end Engine

section Folding

variable {s d d' n e r : List ℕ} {c : ℕ}

theorem engineStep_of_canonical {l : List ℕ} (h : E.canonicalStep c = some l) :
    E.engineStep c = some l := by
  rw [engineStep, h, Option.some_or]

theorem Settled.mono {marks marks' : List ℕ} (h : E.Settled marks d)
    (hsub : ∀ a ∈ marks', a ∈ marks) : E.Settled marks' d := by
  induction d generalizing marks marks' with
  | nil => exact trivial
  | cons c d ih =>
    rw [Settled] at h ⊢
    split_ifs at h ⊢ with hc
    · exact h
    · refine ⟨fun a ha ↦ h.1 a (hsub a ha), ih h.2 fun a ha ↦ ?_⟩
      exact (List.mem_cons.1 ha).elim (fun hac ↦ hac ▸ List.mem_cons_self)
        fun ha ↦ List.mem_cons_of_mem _ (hsub a ha)

theorem Settled.neighbours {marks x y : List ℕ} {a b : ℕ}
    (hmapped : E.mappedStep a ≠ none ∨ E.mappedStep b ≠ none) (hapos : E.ccc a ≠ 0)
    (hbpos : E.ccc b ≠ 0) (h : E.Settled marks (x ++ a :: b :: y)) : E.ccc a ≤ E.ccc b := by
  induction x generalizing marks with
  | nil =>
    rw [List.nil_append, Settled, if_neg hapos, Settled, if_neg hbpos] at h
    exact h.2.1 a List.mem_cons_self hmapped
  | cons c x ih =>
    rw [List.cons_append, Settled] at h
    split_ifs at h with hc
    · exact ih h
    · exact ih h.2

theorem Settled.exchange {marks x y : List ℕ} {a b : ℕ} (hab : Reorderable E.ccc a b)
    (ha : E.mappedStep a = none) (hb : E.mappedStep b = none)
    (h : E.Settled marks (x ++ a :: b :: y)) :
    E.Settled marks (x ++ b :: a :: y) := by
  induction x generalizing marks with
  | nil =>
    have hbpos : E.ccc b ≠ 0 := hab.1.ne'
    have hapos : E.ccc a ≠ 0 := (hab.1.trans hab.2).ne'
    rw [List.nil_append, Settled, if_neg hapos, Settled, if_neg hbpos] at h
    obtain ⟨hfirst, hmarks, hrest⟩ := h
    rw [List.nil_append, Settled, if_neg hbpos, Settled, if_neg hapos]
    refine ⟨fun m hm ↦ hmarks m (List.mem_cons_of_mem _ hm), fun m hm hne ↦ ?_, ?_⟩
    · rcases List.mem_cons.1 hm with rfl | hm
      · exact hne.elim (absurd hb) (absurd ha)
      · exact hfirst m hm hne
    · refine hrest.mono fun m hm ↦ ?_
      simp only [List.mem_cons] at hm ⊢
      tauto
  | cons c x ih =>
    rw [List.cons_append, Settled] at h ⊢
    split_ifs at h ⊢ with hc
    · exact ih h
    · exact ⟨h.1, ih h.2⟩

theorem exchange_mem (h : Exchange E.ccc d d') : ∀ c, c ∈ d' ↔ c ∈ d := by
  cases h with
  | mk x a b y hab =>
    intro c
    simp only [List.mem_append, List.mem_cons]
    tauto

/-- An exchange of characters is one of what they are mapped to. -/
theorem expands_exchange (h : Exchange E.ccc d d')
    (hfinal : ∀ c ∈ d, E.canonicalStep c = none) (hsettled : E.Settled [] d)
    (he : Expands E.engineStep d e) :
    E.Settled [] d' ∧ ∃ e', Expands E.engineStep d' e' ∧ Exchange E.ccc e e' := by
  cases h with
  | mk x a b y hab =>
    have hmema : a ∈ x ++ a :: b :: y := by simp
    have hmemb : b ∈ x ++ a :: b :: y := by simp
    have hnone (c : ℕ) (hc : c ∈ x ++ a :: b :: y) (hmapped : E.mappedStep c = none) :
        E.engineStep c = none := by
      rw [engineStep, hfinal c hc, Option.none_or, hmapped]
    have hplain : ¬ (E.mappedStep a ≠ none ∨ E.mappedStep b ≠ none) := by
      intro hmapped
      have hle := hsettled.neighbours hmapped (hab.1.trans hab.2).ne' hab.1.ne'
      exact absurd hab.2 (Nat.not_lt.2 hle)
    obtain ⟨ha, hb⟩ := not_or.1 hplain
    rw [not_ne_iff] at ha hb
    refine ⟨hsettled.exchange hab ha hb, ?_⟩
    obtain ⟨t, w, ht, hw, rfl⟩ := he.of_append
    cases hw with
    | replace hc _ _ => exact absurd ((hnone a hmema ha).symm.trans hc) (by simp)
    | keep _ hw =>
      cases hw with
      | replace hc _ _ => exact absurd ((hnone b hmemb hb).symm.trans hc) (by simp)
      | @keep _ _ u _ hu =>
        have hswapped := Expands.keep (hnone b hmemb hb) (.keep (hnone a hmema ha) hu)
        exact ⟨t ++ b :: a :: u, ht.append hswapped, .mk t a b u hab⟩

theorem expands_exchanges (h : Relation.ReflTransGen (Exchange E.ccc) d n)
    (hfinal : ∀ c ∈ d, E.canonicalStep c = none)
    (hsettled : E.Settled [] d) (he : Expands E.engineStep d e) :
    ∃ e', Expands E.engineStep n e' ∧ Relation.ReflTransGen (Exchange E.ccc) e e' := by
  induction h using Relation.ReflTransGen.head_induction_on generalizing e with
  | refl => exact ⟨e, he, .refl⟩
  | head hstep _ ih =>
    have hmem := exchange_mem hstep
    obtain ⟨hsettled', e₁, he₁, hexchange⟩ :=
      expands_exchange hstep hfinal hsettled he
    obtain ⟨e₂, he₂, hrest⟩ := ih (fun c hc ↦ hfinal c ((hmem c).1 hc))
      hsettled' he₁
    exact ⟨e₂, he₂, .head hexchange hrest⟩

/-- The characters that are folded once are mapped by the engine in the same way. -/
theorem expands_folded (hfold : hasOption E.mOptions CaseFold = true)
    (hfinal : ∀ c ∈ n, E.canonicalStep c = none)
    (honce : ∀ c ∈ n, ∀ x, Reaches E.fullStep (E.fold c) x → E.canonicalStep x = none →
      E.selfCaseFold x = true)
    (he : Expands E.fullStep (n.flatMap E.fold) e) : Expands E.engineStep n e := by
  induction n generalizing e with
  | nil =>
    rw [he.unique .nil]
    exact .nil
  | cons c n ih =>
    rw [List.flatMap_cons] at he
    obtain ⟨t, w, ht, hw, rfl⟩ := he.of_append
    have hsame : Expands E.engineStep (E.fold c) t := by
      refine expands_congr ht fun x hx ↦ ?_
      cases hx' : E.canonicalStep x with
      | some l => rw [fullStep, engineStep, hx', Option.some_or, Option.some_or]
      | none =>
        have hself := honce c List.mem_cons_self x hx hx'
        rw [fullStep, engineStep, hx', mappedStep, hself, Bool.not_true, Bool.and_false,
          if_neg Bool.false_ne_true]
    have hletter : Expands E.engineStep [c] t := by
      cases hself : E.selfCaseFold c with
      | true => rwa [fold, if_pos hself] at hsame
      | false =>
        have hmapped : E.engineStep c = some (E.fold c) := by
          rw [engineStep, hfinal c List.mem_cons_self, Option.none_or, mappedStep, hfold, hself,
            fold, hself]
          rfl
        exact List.append_nil t ▸ .replace hmapped hsame .nil
    exact hletter.append (ih (fun d hd ↦ hfinal d (List.mem_cons_of_mem _ hd))
      (fun d hd ↦ honce d (List.mem_cons_of_mem _ hd)) hw)

end Folding

section Exact

variable {s : List ℕ}

theorem acyclic_canonical (h : E.Acyclic) : WellFounded (Derives E.canonicalStep) :=
  Subrelation.wf (fun {_ _} hd ↦ .inl hd) h

theorem acyclic_full (h : E.Acyclic) : WellFounded (Derives E.fullStep) := by
  refine Subrelation.wf (fun {d c} hd ↦ ?_) h
  obtain ⟨l, hl, hdl⟩ := hd
  rw [fullStep] at hl
  cases hc : E.canonicalStep c with
  | some m =>
    rw [hc, Option.some_or] at hl
    exact .inl ⟨l, hl, hdl⟩
  | none =>
    rw [hc, Option.none_or] at hl
    split_ifs at hl with hk
    rw [← Option.some_inj.1 hl] at hdl
    simp only [Bool.and_eq_true, Bool.not_eq_true'] at hk
    exact .inr (.inr ⟨hk.2, hdl⟩)

theorem acyclic_engine (h : E.Acyclic) : WellFounded (Derives E.engineStep) := by
  refine Subrelation.wf (fun {d c} hd ↦ ?_) h
  obtain ⟨l, hl, hdl⟩ := hd
  rw [engineStep] at hl
  cases hc : E.canonicalStep c with
  | some m =>
    rw [hc, Option.some_or] at hl
    exact .inl ⟨l, hl, hdl⟩
  | none =>
    rw [hc, Option.none_or, mappedStep] at hl
    simp only [Bool.and_eq_true, Bool.not_eq_true'] at hl
    split_ifs at hl with hf hk
    · rw [← Option.some_inj.1 hl] at hdl
      exact .inr (.inl ⟨hf.2, hdl⟩)
    · rw [← Option.some_inj.1 hl] at hdl
      exact .inr (.inr ⟨hk.2, hdl⟩)

theorem InPlace.decompose {e : List ℕ} (h : E.InPlace s) (he : Expands E.engineStep s e) :
    ∃ fuel₀, ∀ fuel ≥ fuel₀, E.decompose fuel s = .ok (ordering E.ccc e) :=
  appends_expansion (w := []) h.jamo h.greatest he fun _ hx ↦ absurd hx List.not_mem_nil

/-- Cases are folded, and the only character that is folded is a mark of the greatest class. -/
def subscriptEngine : NFD_Engine where
  mOptions := CaseFold
  canonicalMapped _ := false
  decompMapping c := [c]
  ccc c := if c = 0x301 then 53 else if c = 0x345 then 57 else 0
  selfNFKD _ := true
  caseFold c := if c = 0x345 then [0x3B9] else [c]
  selfCaseFold c := c != 0x345

/-- The jamo stand before the precomposed syllables. -/
theorem decomposition_bound {j c : ℕ} (hc : Hangul.Precomposed c)
    (hj : j ∈ Hangul.decomposition c) : 0x1100 ≤ j ∧ j < 0x1200 ∧ ¬ Hangul.Precomposed j := by
  have hupper : c < 0xAC00 + 11172 := hc.2
  have hrange : 0x1100 ≤ j ∧ j < 0x1200 := by
    rw [Hangul.decomposition, List.mem_append, List.mem_pair] at hj
    rcases hj with (rfl | rfl) | hj
    · refine ⟨Nat.le_add_right _ _, ?_⟩
      change 0x1100 + (c - 0xAC00) / 588 < 0x1200
      omega
    · refine ⟨Nat.le_add_right_of_le (by decide), ?_⟩
      change 0x1161 + (c - 0xAC00) % 588 / 28 < 0x1200
      omega
    · split_ifs at hj with ht
      · exact absurd hj List.not_mem_nil
      · rw [List.mem_singleton.1 hj]
        refine ⟨Nat.le_add_right_of_le (by decide), ?_⟩
        change 0x11A7 + (c - 0xAC00) % 28 < 0x1200
        omega
  refine ⟨hrange.1, hrange.2, fun hp ↦ ?_⟩
  exact absurd (hp.1.trans hrange.2.le) (by decide)

theorem subscriptEngine_acyclic : subscriptEngine.Acyclic := by
  have hstarter (c : ℕ) (hp : ¬ Hangul.Precomposed c) (hc : c ≠ 0x345) : Acc (fun d c ↦
      (∃ l, subscriptEngine.canonicalStep c = some l ∧ d ∈ l) ∨
      (subscriptEngine.selfCaseFold c = false ∧ d ∈ subscriptEngine.caseFold c) ∨
      subscriptEngine.selfNFKD c = false ∧ d ∈ subscriptEngine.decompMapping c) c := by
    refine .intro c fun d hd ↦ ?_
    rcases hd with ⟨l, hl, _⟩ | ⟨hself, _⟩ | ⟨hself, _⟩
    · rw [canonicalStep, if_neg hp] at hl
      exact absurd hl (by simp [subscriptEngine])
    · exact absurd hself (by simpa [subscriptEngine] using hc)
    · exact absurd hself (by simp [subscriptEngine])
  refine ⟨fun c ↦ .intro c fun d hd ↦ ?_⟩
  rcases hd with ⟨l, hl, hd⟩ | ⟨hself, hd⟩ | ⟨hself, _⟩
  · rw [canonicalStep] at hl
    split_ifs at hl with hp hm
    · rw [← Option.some_inj.1 hl] at hd
      have hbound := decomposition_bound hp hd
      exact hstarter d hbound.2.2 (Nat.ne_of_gt (Nat.lt_of_lt_of_le (by decide) hbound.1))
    · exact absurd hm Bool.false_ne_true
  · obtain rfl : c = 0x345 := by simpa [subscriptEngine] using hself
    obtain rfl : d = 0x3B9 := by simpa [subscriptEngine] using hd
    exact hstarter _ (by decide) (by decide)
  · exact absurd hself (by simp [subscriptEngine])

theorem subscriptEngine_mapped {c : ℕ} (h : subscriptEngine.mappedStep c ≠ none) : c = 0x345 := by
  by_contra hc
  exact h (by simp [mappedStep, subscriptEngine, hc, hasOption, NFKD, CaseFold])

end Exact

end NFD_Engine

end Parabix.UCD
