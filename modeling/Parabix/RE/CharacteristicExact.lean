import Parabix.Library.CountedRun
import Parabix.RE.Anchors
import Parabix.RE.BoundedRepetition
import Parabix.RE.Characteristic

namespace Parabix.RE.RE_Block_Compiler

open Library Library.BitStream

variable {f g : Marker → Marker} {t : Text} {r : Regions} {s : Stream} {position : Position}
variable {items : List SeqItem}

section Pointwise

/-- A compiled expression moves its markers one by one. -/
structure Pointwise (f : Marker → Marker) : Prop where
  position : ∀ s s' position, (f ⟨s, position⟩).position = (f ⟨s', position⟩).position
  marks : ∀ position, Additive fun s ↦ (f ⟨s, position⟩).stream

/-- All markers are in the text. -/
def InText (t : Text) (m : Marker) : Prop := ∀ p, m.stream p = true → p < t.length

theorem pointwise_id : Pointwise id where
  position _ _ _ := rfl
  marks _ := additive_id

theorem Pointwise.eq_mk (hf : Pointwise f) (m : Marker) :
    f m = ⟨(f m).stream, (f ⟨fun _ ↦ false, m.position⟩).position⟩ := by
  rw [← hf.position m.stream]

theorem Pointwise.comp (hg : Pointwise g) (hf : Pointwise f) : Pointwise (g ∘ f) := by
  refine ⟨fun s s' position ↦ ?_, fun position ↦ ?_⟩
  · rw [Function.comp_apply, hf.eq_mk, Function.comp_apply, hf.eq_mk ⟨s', position⟩]
    exact hg.position _ _ _
  · have hcomp := (hg.marks (f ⟨fun _ ↦ false, position⟩).position).comp (hf.marks position)
    have heq : (fun s ↦ ((g ∘ f) ⟨s, position⟩).stream) =
        (fun s ↦ (g ⟨s, (f ⟨fun _ ↦ false, position⟩).position⟩).stream) ∘
          fun s ↦ (f ⟨s, position⟩).stream := by
      funext s
      rw [Function.comp_apply, hf.eq_mk]
      rfl
    rwa [heq]

theorem Pointwise.iterate (hf : Pointwise f) (n : ℕ) : Pointwise f^[n] := by
  induction n with
  | zero => exact pointwise_id
  | succ n ih => exact ih.comp hf

/-- A branch on the markers that are there makes no difference. -/
theorem Pointwise.createIf (hf : Pointwise f) {m : Marker} (hm : InText t m) :
    createIf t m.stream (f m).stream = (f m).stream := by
  unfold RE.createIf
  split_ifs with hany
  · rfl
  · have hnone : m.stream = fun _ ↦ false := by
      funext p
      rw [Bool.eq_false_iff]
      intro hp
      exact hany (List.any_eq_true.2 ⟨p, List.mem_range.2 (hm p hp), hp⟩)
    have hzeroes := (hf.marks m.position).apply_zeroes
    rw [← hnone] at hzeroes
    exact (hzeroes.trans hnone).symm

end Pointwise

section Items

theorem additive_nextCharacter : Additive fun s ↦ NextCharacter t ⟨s, position⟩ := by
  cases position with
  | AtEnd =>
    apply Additive.of_rel (R := fun p q ↦ t.indexStream q = true ∧ t.indexStream p = true ∧
      rank t.indexStream p + 1 = rank t.indexStream q)
    intro s q
    simp only [NextCharacter, indexedAdvance_iff]
    constructor
    · intro h
      obtain ⟨hq, p, hp, hs, hrank⟩ := h
      exact ⟨p, hs, hq, hp, hrank⟩
    · intro h
      obtain ⟨p, hs, hq, hp, hrank⟩ := h
      exact ⟨hq, p, hp, hs, hrank⟩
  | AtNextCodeUnit =>
    apply Additive.of_rel (R := fun p q ↦ t.indexStream q = true ∧ p ≤ q ∧
      ∀ j, p ≤ j → j < q → t.indexStream j = false)
    intro s q
    simp only [NextCharacter, scanToIndex_iff]
    constructor
    · intro h
      obtain ⟨hq, p, hp, hs, hall⟩ := h
      exact ⟨p, hs, hq, hp, hall⟩
    · intro h
      obtain ⟨p, hs, hq, hp, hall⟩ := h
      exact ⟨hq, p, hp, hs, hall⟩
  | AtNextChar => exact additive_id

theorem additive_nextCodeUnit : Additive fun s ↦ NextCodeUnitStream ⟨s, position⟩ := by
  cases position with
  | AtEnd =>
    apply Additive.of_rel (R := fun p q ↦ q = p + 1)
    intro s q
    simp only [NextCodeUnitStream, advance]
    constructor
    · intro h
      split_ifs at h with hq
      exact ⟨q - 1, h, by omega⟩
    · intro h
      obtain ⟨p, hs, rfl⟩ := h
      simpa using hs
  | AtNextCodeUnit => exact additive_id
  | AtNextChar => exact additive_id

theorem pointwise_compileCC (codeUnit : Bool) (ccStrm : Stream) :
    Pointwise (compileCC r codeUnit ccStrm) := by
  refine ⟨fun _ _ _ ↦ rfl, fun position ↦ ?_⟩
  cases codeUnit with
  | false => exact additive_nextCharacter.and ccStrm
  | true => exact additive_nextCodeUnit.and ccStrm

theorem pointwise_compileAny : Pointwise (compileAny r) :=
  ⟨fun _ _ _ ↦ rfl, fun _ ↦ additive_nextCharacter.and r.matchable⟩

theorem pointwise_compileEnd : Pointwise (compileEnd r) := by
  refine ⟨fun s s' position ↦ ?_, fun position ↦ ?_⟩
  · simp only [compileEnd]
    split_ifs <;> rfl
  · by_cases hend : position = .AtEnd
    · simp only [compileEnd, hend, if_true]
      exact additive_id.and fun p ↦ r.regionFollow (p + 1)
    · simp only [compileEnd, hend, if_false, Bool.and_comm (r.regionFollow _)]
      exact additive_nextCharacter.and r.regionFollow

theorem pointwise_processAll (h : ∀ item ∈ items, Pointwise (item.process r)) :
    Pointwise (processAll r items) := by
  induction items with
  | nil => exact pointwise_id
  | cons item items ih =>
    exact (ih fun i hi ↦ h i (List.mem_cons_of_mem _ hi)).comp (h item List.mem_cons_self)

/-- The branches of a sequence make no difference. -/
theorem compileSeqTail_eq (h : ∀ item ∈ items, Pointwise (item.process r))
    (htext : ∀ item ∈ items, ∀ m, InText r.text (item.process r m)) (n : ℕ) (m : Marker)
    (hm : IfInsertionGap ≤ n → InText r.text m) :
    compileSeqTail r items n m = processAll r items m := by
  induction items generalizing n m with
  | nil =>
    rw [compileSeqTail]
    rfl
  | cons item items ih =>
    have hnext (n : ℕ) : compileSeqTail r items n (item.process r m) =
        processAll r (item :: items) m :=
      ih (fun i hi ↦ h i (List.mem_cons_of_mem _ hi))
        (fun i hi ↦ htext i (List.mem_cons_of_mem _ hi)) n _
        fun _ ↦ htext item List.mem_cons_self m
    rw [compileSeqTail]
    split_ifs with hgap
    · exact hnext _
    · have hstart : compileSeqTail r (item :: items) 0 m = processAll r (item :: items) m := by
        rw [compileSeqTail, if_pos (by decide)]
        exact hnext _
      simp only [hstart]
      rw [(pointwise_processAll h).createIf (hm (Nat.le_of_not_lt hgap))]

theorem compileSeq_eq (h : ∀ item ∈ items, Pointwise (item.process r))
    (htext : ∀ item ∈ items, ∀ m, InText r.text (item.process r m)) (mStarDepth : ℕ) (m : Marker) :
    compileSeq r mStarDepth items m = processAll r items m := by
  unfold compileSeq
  split_ifs
  · rfl
  · exact compileSeqTail_eq h htext 0 m fun hle ↦ absurd hle (by decide)

end Items

section Sequences

variable {l l' items before rest : List RE} {e : RE} {x : Characteristic}

/-- A sequence has no sequence in it, and no empty set. -/
def Flat (l : List RE) : Prop := ∀ e ∈ l, e.isEmptySet = false ∧ e.nestedItems = [e]

theorem nestedItems_collapse (h : Flat l) : (collapse seq l).nestedItems = l := by
  cases l with
  | nil => rfl
  | cons e l =>
    cases l with
    | nil => exact (h e List.mem_cons_self).2
    | cons => rfl

theorem isEmptySet_collapse (h : Flat l) : (collapse seq l).isEmptySet = false := by
  cases l with
  | nil => rfl
  | cons e l =>
    cases l with
    | nil => exact (h e List.mem_cons_self).1
    | cons => rfl

theorem pushSeq_eq (h : ∀ e ∈ items, e.isEmptySet = false) :
    pushSeq before items = collapse seq (before ++ items.flatMap nestedItems) := by
  induction items generalizing before with
  | nil => rw [pushSeq, List.flatMap_nil, List.append_nil]
  | cons e items ih =>
    rw [pushSeq, h e List.mem_cons_self, if_neg Bool.false_ne_true,
      ih fun i hi ↦ h i (List.mem_cons_of_mem _ hi), List.flatMap_cons, List.append_assoc]

theorem makeSeq_flat (h : Flat l) : makeSeq l = collapse seq l := by
  rw [makeSeq, pushSeq_eq fun e he ↦ (h e he).1, List.nil_append]
  have hitems : l.flatMap nestedItems = l := by
    induction l with
    | nil => rfl
    | cons e l ih =>
      rw [List.flatMap_cons, (h e List.mem_cons_self).2,
        ih fun i hi ↦ h i (List.mem_cons_of_mem _ hi), List.singleton_append]
  rw [hitems]

theorem classOf_leading (he : e ∈ items.take (leadingClasses items).length) :
    (classOf e).isSome = true := by
  induction items with
  | nil => cases he
  | cons item items ih =>
    rw [leadingClasses] at he
    cases hclass : classOf item with
    | none =>
      rw [hclass] at he
      cases he
    | some c =>
      simp only [hclass, List.length_cons, List.take_succ_cons] at he
      rcases List.mem_cons.1 he with rfl | he
      · rw [hclass]
        rfl
      · exact ih he

/-- The items of a sequence are those of the three expressions. -/
theorem analyzeFrom_splits {fuel : ℕ} (h : analyzeFrom fuel before rest = .ok (some x)) :
    ∃ e1 c e2, before ++ rest = e1 ++ c ++ e2 ∧ c ≠ [] ∧ (∀ e ∈ c, (classOf e).isSome = true) ∧
      x = ⟨makeSeq e1, makeSeq c, makeSeq e2⟩ := by
  induction fuel generalizing before rest with
  | zero => cases h
  | succ fuel ih =>
    cases rest with
    | nil => cases h
    | cons item items =>
      obtain ⟨j, hj⟩ : ∃ j, j = (leadingClasses (item :: items)).length := ⟨_, rfl⟩
      have hnext : analyzeFrom fuel (before ++ (item :: items).take (j + 1))
          ((item :: items).drop (j + 1)) = .ok (some x) → _ := ih
      rw [List.append_assoc, List.take_append_drop] at hnext
      rw [analyzeFrom] at h
      simp only [← hj] at h
      split_ifs at h with hpos
      · cases hsearch : CC_Sequence_Search (leadingClasses (item :: items))
          (makeSeq [makeSeq ((item :: items).drop j), makeSeq before]) with
        | error fault =>
          rw [hsearch] at h
          cases h
        | ok found =>
          rw [hsearch] at h
          cases found with
          | true => exact hnext h
          | false =>
            refine ⟨before, (item :: items).take j, (item :: items).drop j, ?_, ?_, ?_, ?_⟩
            · rw [List.append_assoc, List.take_append_drop]
            · rw [Ne, List.take_eq_nil_iff]
              simp [hpos.ne']
            · intro e he
              rw [hj] at he
              exact classOf_leading he
            · exact (Option.some.inj (Except.ok.inj h)).symm
      · exact hnext h

theorem analysis_splits {repeated : RE}
    (h : CharacteristicSubexpressionAnalysis repeated = .ok (some x)) :
    ∃ e1 c e2, repeated.nestedItems = e1 ++ c ++ e2 ∧ c ≠ [] ∧
      (∀ e ∈ c, (classOf e).isSome = true) ∧
        (Flat c → x = ⟨makeSeq e1, makeSeq c, makeSeq e2⟩) := by
  cases repeated with
  | cc a =>
    refine ⟨[], [cc a], [], rfl, by simp, by simp [classOf], fun hflat ↦ ?_⟩
    rw [makeSeq_flat hflat]
    exact (Option.some.inj (Except.ok.inj h)).symm
  | seq elems =>
    obtain ⟨e1, c, e2, hsplit, hne, hclass, hx⟩ := analyzeFrom_splits h
    exact ⟨e1, c, e2, hsplit, hne, hclass, fun _ ↦ hx⟩
  | _ => cases h

end Sequences

namespace Compiler

variable {c : Compiler} {l l' : List RE} {e : RE}

section Process

/-- The markers that the items give one after the other. -/
def run (c : Compiler) (l : List RE) (m : Marker) : Marker :=
  processAll c.regions (l.map c.item) m

/-- Each item moves its markers one by one, within the text. -/
structure Moves (c : Compiler) (l : List RE) : Prop where
  pointwise : ∀ e ∈ l, Pointwise ((c.item e).process c.regions)
  inText : ∀ e ∈ l, ∀ m, InText c.regions.text ((c.item e).process c.regions m)
  flat : Flat l

theorem Moves.mono (h : Moves c l) (hl : ∀ e ∈ l', e ∈ l) : Moves c l' :=
  ⟨fun e he ↦ h.pointwise e (hl e he), fun e he ↦ h.inText e (hl e he),
    fun e he ↦ h.flat e (hl e he)⟩

theorem run_append (m : Marker) : c.run (l ++ l') m = c.run l' (c.run l m) := by
  rw [run, run, run, List.map_append, processAll, processAll, processAll, List.foldl_append]

theorem Moves.run_pointwise (h : Moves c l) : Pointwise (c.run l) := by
  apply pointwise_processAll
  intro item hitem
  obtain ⟨e, he, rfl⟩ := List.mem_map.1 hitem
  exact h.pointwise e he

theorem Moves.run_inText (h : Moves c l) (hne : l ≠ []) (m : Marker) :
    InText c.regions.text (c.run l m) := by
  rw [← List.dropLast_append_getLast hne, run_append]
  exact h.inText _ (List.getLast_mem hne) _

theorem Moves.process_seq (h : Moves c l) (m : Marker) : c.process (seq l) m = c.run l m := by
  rw [process, run]
  refine compileSeq_eq (fun item hitem ↦ ?_) (fun item hitem ↦ ?_) _ m
  · obtain ⟨e, he, rfl⟩ := List.mem_map.1 hitem
    exact h.pointwise e he
  · obtain ⟨e, he, rfl⟩ := List.mem_map.1 hitem
    exact h.inText e he

theorem process_item (he : e.nestedItems = [e]) (m : Marker) : c.process e m = c.run [e] m := by
  cases e with
  | seq elems =>
    have hsize := congrArg sizeOf he
    simp only [nestedItems, List.cons.sizeOf_spec, List.nil.sizeOf_spec, seq.sizeOf_spec] at hsize
    omega
  | _ => rfl

theorem Moves.process_collapse (h : Moves c l) (m : Marker) :
    c.process (collapse seq l) m = c.run l m := by
  cases l with
  | nil => exact h.process_seq m
  | cons e l =>
    cases l with
    | nil => exact process_item (h.flat e List.mem_cons_self).2 m
    | cons => exact h.process_seq m

theorem Moves.process_makeSeq (h : Moves c l) (m : Marker) :
    c.process (makeSeq l) m = c.run l m := by
  rw [makeSeq_flat h.flat, h.process_collapse]

theorem Moves.process_repeated {repeated : RE} (h : Moves c repeated.nestedItems) (m : Marker) :
    c.process repeated m = c.run repeated.nestedItems m := by
  by_cases hitem : repeated.nestedItems = [repeated]
  · rw [hitem]
    exact process_item hitem m
  · cases repeated with
    | seq elems => exact h.process_seq m
    | _ => exact absurd rfl hitem

end Process

section Classes

/-- A class is marked at its last positions, and found from everywhere where it is found at all. -/
structure FindsClass (f : Marker → Marker) : Prop where
  position : ∀ m, (f m).position = .AtEnd
  within : ∀ m p, (f m).stream p = true → (f ⟨fun _ ↦ true, .AtNextCodeUnit⟩).stream p = true

theorem findsClass_compileCC {r : Regions} {codeUnit : Bool} {ccStrm : Stream}
    (h : codeUnit = false → ∀ p, ccStrm p = true → r.text.indexStream p = true) :
    FindsClass (compileCC r codeUnit ccStrm) := by
  refine ⟨fun _ ↦ rfl, fun m p hp ↦ ?_⟩
  rw [compileCC, Bool.and_eq_true] at hp ⊢
  refine ⟨?_, hp.2⟩
  cases codeUnit with
  | true => rfl
  | false =>
    exact scanToIndex_iff.2 ⟨h rfl p hp.2, p, le_rfl, rfl, fun j h1 h2 ↦ absurd h1 (by omega)⟩

variable (h : Moves c l) (hclass : ∀ e ∈ l, FindsClass ((c.item e).process c.regions))
variable (hne : l ≠ [])

include hclass hne in
theorem run_position (m : Marker) : (c.run l m).position = .AtEnd := by
  rw [← List.dropLast_append_getLast hne, run_append]
  exact (hclass _ (List.getLast_mem hne)).position _

include h hclass hne in
theorem run_within (m : Marker) {p : ℕ} (hp : (c.run l m).stream p = true) :
    (c.run l ⟨fun _ ↦ true, .AtNextCodeUnit⟩).stream p = true := by
  cases l with
  | nil => exact absurd rfl hne
  | cons e l =>
    have hfirst := hclass e List.mem_cons_self
    obtain ⟨f, hf⟩ : ∃ f, f = (c.item e).process c.regions := ⟨_, rfl⟩
    rw [← hf] at hfirst
    have hrun (m : Marker) : c.run (e :: l) m = c.run l ⟨(f m).stream, .AtEnd⟩ := by
      rw [← hfirst.position m, hf]
      rfl
    rw [hrun] at hp ⊢
    have hmoves : Moves c l := h.mono fun i hi ↦ List.mem_cons_of_mem e hi
    have hrest := hmoves.run_pointwise
    exact (hrest.marks .AtEnd).mono (hfirst.within m) hp

end Classes

section Iterations

variable {e1 c0 e2 : List RE} {idx s : Stream} {lb ub n : ℕ} {marker : Marker}

theorem eq_mk_of_position {m : Marker} (hm : m.position = position) : m = ⟨m.stream, position⟩ := by
  rw [← hm]

/-- The second half of an iteration and the first half of the next one. -/
def iteration (c : Compiler) (e1 c0 e2 : List RE) (s : Stream) : Stream :=
  (c.run (e2 ++ e1 ++ c0) ⟨s, .AtEnd⟩).stream

/-- What is known of the three expressions of a repetition. -/
structure Splits (c : Compiler) (e1 c0 e2 : List RE) : Prop where
  moves : Moves c (e1 ++ c0 ++ e2)
  ne_nil : c0 ≠ []
  findsClass : ∀ e ∈ c0, FindsClass ((c.item e).process c.regions)

variable (h : Splits c e1 c0 e2)

include h

theorem Splits.moves_C : Moves c c0 :=
  h.moves.mono fun e he ↦ by simp [he]

theorem Splits.moves_E2 : Moves c e2 :=
  h.moves.mono fun e he ↦ by simp [he]

theorem Splits.moves_iteration : Moves c (e2 ++ e1 ++ c0) :=
  h.moves.mono fun e he ↦ by
    simp only [List.mem_append] at he ⊢
    tauto

/-- The sequence of a match, the rest of its iteration and the next match. -/
theorem Splits.makeSeq_parts : makeSeq [makeSeq c0, makeSeq e2, makeSeq e1, makeSeq c0] =
    collapse seq (c0 ++ (e2 ++ (e1 ++ c0))) := by
  have hE1 : Flat e1 := fun e he ↦ h.moves.flat e (by simp [he])
  have hC := h.moves_C.flat
  have hE2 := h.moves_E2.flat
  rw [makeSeq_flat hE1, makeSeq_flat hC, makeSeq_flat hE2, makeSeq, pushSeq_eq]
  · simp only [List.flatMap_cons, List.flatMap_nil, nestedItems_collapse hE1,
      nestedItems_collapse hC, nestedItems_collapse hE2, List.nil_append, List.append_nil]
  · intro e he
    simp only [List.mem_cons, List.not_mem_nil, or_false] at he
    rcases he with rfl | rfl | rfl | rfl
    · exact isEmptySet_collapse hC
    · exact isEmptySet_collapse hE2
    · exact isEmptySet_collapse hE1
    · exact isEmptySet_collapse hC

theorem Splits.position_append (l : List RE) (m : Marker) :
    (c.run (l ++ c0) m).position = .AtEnd := by
  rw [run_append]
  exact run_position h.findsClass h.ne_nil _

theorem Splits.run_iteration (s : Stream) :
    c.run (e2 ++ e1 ++ c0) ⟨s, .AtEnd⟩ = ⟨c.iteration e1 c0 e2 s, .AtEnd⟩ :=
  eq_mk_of_position (h.position_append _ _)

theorem Splits.iteration_additive : Additive (c.iteration e1 c0 e2) :=
  h.moves_iteration.run_pointwise.marks .AtEnd

/-- One more repetition. -/
theorem Splits.run_repeated (s : Stream) : c.run (e1 ++ c0 ++ e2) (c.run e2 ⟨s, .AtEnd⟩) =
    c.run e2 ⟨c.iteration e1 c0 e2 s, .AtEnd⟩ := by
  have hnext : c.run (e1 ++ c0) (c.run e2 ⟨s, .AtEnd⟩) = c.run (e2 ++ e1 ++ c0) ⟨s, .AtEnd⟩ := by
    rw [List.append_assoc, ← run_append]
  rw [run_append, hnext, h.run_iteration]

theorem Splits.run_first (marker : Marker) : c.run (e1 ++ c0 ++ e2) marker =
    c.run e2 ⟨(c.run (e1 ++ c0) marker).stream, .AtEnd⟩ := by
  rw [run_append, eq_mk_of_position (h.position_append e1 marker)]

theorem Splits.iterate_repeated (marker : Marker) (n : ℕ) :
    (c.run (e1 ++ c0 ++ e2))^[n + 1] marker =
      c.run e2 ⟨(c.iteration e1 c0 e2)^[n] (c.run (e1 ++ c0) marker).stream, .AtEnd⟩ := by
  induction n with
  | zero => exact h.run_first marker
  | succ n ih =>
    rw [Function.iterate_succ_apply', ih, h.run_repeated, Function.iterate_succ_apply']

end Iterations

section Expansion

variable {e1 c0 e2 : List RE} {s : Stream} {marker : Marker} {repeated : RE}

theorem inText_iterate (hf : ∀ m, InText t (f m)) {n : ℕ} (hn : 0 < n) (m : Marker) :
    InText t (f^[n] m) := by
  obtain ⟨n, rfl⟩ := Nat.exists_eq_succ_of_ne_zero hn.ne'
  rw [Function.iterate_succ_apply']
  exact hf _

theorem expandLowerBound_eq (hf : Pointwise (c.process repeated))
    (htext : ∀ m, InText c.regions.text (c.process repeated m)) (lb : ℕ) (marker : Marker)
    (ifGroupSize : ℕ+) :
    c.expandLowerBound repeated lb marker ifGroupSize = (c.process repeated)^[lb] marker := by
  induction lb using Nat.strong_induction_on generalizing marker ifGroupSize with
  | _ lb ih =>
    have hpos := ifGroupSize.pos
    rw [expandLowerBound]
    by_cases h0 : lb = 0
    · rw [if_pos h0, h0]
      rfl
    · by_cases h1 : lb = 1
      · rw [if_neg h0, if_pos h1, h1]
        rfl
      · rw [if_neg h0, if_neg h1]
        simp only
        obtain ⟨group, hgroup⟩ : ∃ group, group = min (ifGroupSize : ℕ) lb := ⟨_, rfl⟩
        rw [← hgroup]
        by_cases hlast : lb = group
        · rw [if_pos hlast, ← hlast]
        · rw [if_neg hlast, ih (lb - group) (by omega)]
          have hsplit : (c.process repeated)^[lb] marker =
              (c.process repeated)^[lb - group] ((c.process repeated)^[group] marker) := by
            rw [← Function.iterate_add_apply, Nat.sub_add_cancel (by omega)]
          rw [hsplit, (hf.iterate _).createIf (inText_iterate htext (by omega) marker)]

/-- A further repetition or none, of markers at a position that a repetition gives again. -/
def orNone (c : Compiler) (repeated : RE) (position : Position) (s : Stream) : Stream := fun p ↦
  (c.process repeated ⟨s, position⟩).stream p || s p

variable (hf : Pointwise (c.process repeated))
variable (htext : ∀ m, InText c.regions.text (c.process repeated m))
variable (hpos : ∀ s, (c.process repeated ⟨s, position⟩).position = position)

include hpos in
theorem processOrNone_eq (s : Stream) :
    c.processOrNone repeated ⟨s, position⟩ = ⟨c.orNone repeated position s, position⟩ := by
  rw [processOrNone, createOrAligned, eq_mk_of_position (hpos s)]
  cases position <;> rfl

include hpos in
theorem iterate_processOrNone (s : Stream) (n : ℕ) : (c.processOrNone repeated)^[n] ⟨s, position⟩ =
    ⟨(c.orNone repeated position)^[n] s, position⟩ := by
  induction n with
  | zero => rfl
  | succ n ih =>
    rw [Function.iterate_succ_apply', ih, processOrNone_eq hpos, Function.iterate_succ_apply']

include hf in
theorem orNone_additive : Additive (c.orNone repeated position) :=
  (hf.marks position).or additive_id

include htext in
theorem inText_orNone (n : ℕ) (hs : InText c.regions.text ⟨s, position⟩) :
    InText c.regions.text ⟨(c.orNone repeated position)^[n] s, position⟩ := by
  induction n with
  | zero => exact hs
  | succ n ih =>
    intro p hp
    simp only [Function.iterate_succ_apply', orNone, Bool.or_eq_true] at hp
    rcases hp with hp | hp
    · exact htext _ p hp
    · exact ih p hp

include hf htext hpos in
theorem expandUpperBound_eq (ub : ℕ) (s : Stream) (hs : InText c.regions.text ⟨s, position⟩)
    (ifGroupSize : ℕ+) : c.expandUpperBound repeated ub ⟨s, position⟩ ifGroupSize =
      ⟨(c.orNone repeated position)^[ub] s, position⟩ := by
  induction ub using Nat.strong_induction_on generalizing s ifGroupSize with
  | _ ub ih =>
    have hsize := ifGroupSize.pos
    rw [expandUpperBound]
    by_cases h0 : ub = 0
    · rw [if_pos h0, h0]
      rfl
    · rw [if_neg h0]
      simp only
      obtain ⟨group, hgroup⟩ : ∃ group, group = min (ifGroupSize : ℕ) ub := ⟨_, rfl⟩
      rw [← hgroup, iterate_processOrNone hpos]
      by_cases hlast : ub = group
      · rw [if_pos hlast, ← hlast]
      · have hgroupText := inText_orNone htext group hs
        rw [if_neg hlast, ih (ub - group) (by omega) _ hgroupText]
        have hsplit : (c.orNone repeated position)^[ub] s =
            (c.orNone repeated position)^[ub - group] ((c.orNone repeated position)^[group] s) := by
          rw [← Function.iterate_add_apply, Nat.sub_add_cancel (by omega)]
        have hmoves : Pointwise fun m ↦
            ⟨(c.orNone repeated position)^[ub - group] m.stream, m.position⟩ :=
          ⟨fun _ _ _ ↦ rfl, fun _ ↦ (orNone_additive hf).iterate _⟩
        have hbranch := hmoves.createIf hgroupText
        simp only at hbranch
        rw [hsplit, hbranch]

end Expansion

section Exact

variable {e1 c0 e2 : List RE} {idx s : Stream} {lb n : ℕ} {ub : Option ℕ} {marker : Marker}
variable {repeated : RE} {x : Characteristic}

/-- No match of the characteristic subexpression ends within an iteration from one match of it to
the next one. -/
def EndsAtNext (c : Compiler) (x : Characteristic) : Prop :=
  ∀ p q, (c.compile x.C).stream p = true →
    (c.process x.C (c.process x.E1 (c.process x.E2 ⟨single p, .AtEnd⟩))).stream q = true →
      p < q ∧ ∀ j, p < j → j < q → (c.compile x.C).stream j = false

/-- The steps of an iteration, counted in matches of the characteristic subexpression. -/
theorem Splits.counted (h : Splits c e1 c0 e2)
    (hidx : idx = (c.run c0 ⟨fun _ ↦ true, .AtNextCodeUnit⟩).stream)
    (hnext : ∀ p q, idx p = true → c.iteration e1 c0 e2 (single p) q = true →
      p < q ∧ ∀ j, p < j → j < q → idx j = false) :
    Counted idx (c.iteration e1 c0 e2) := by
  refine ⟨h.iteration_additive, fun p q hp hq ↦ ?_⟩
  obtain ⟨hlt, hbetween⟩ := hnext p q hp hq
  have hend : idx q = true := by
    rw [iteration, run_append] at hq
    rw [hidx]
    exact run_within h.moves_C h.findsClass h.ne_nil _ hq
  have hconst : rank idx (p + 1 + (q - (p + 1))) = rank idx (p + 1) :=
    rank_eq_of_false fun i hi ↦ hbetween _ (by omega) (by omega)
  rw [Nat.add_sub_cancel' hlt, rank_succ_of_true hp] at hconst
  exact ⟨hend, hconst.symm⟩

variable (h : Splits c e1 c0 e2) (hcount : Counted idx (c.iteration e1 c0 e2))
variable (hs : ∀ p, s p = true → idx p = true)

include h hcount hs

theorem Splits.at_least_eq (hlb : 0 < lb) :
    c.at_least (c.iteration e1 c0 e2 idx) idx lb s = some ((c.iteration e1 c0 e2)^[lb - 1] s) := by
  rw [at_least]
  by_cases hone : 1 < lb
  · rw [if_pos hone]
    have hfound : Found ⟨c.regions.text.length, idx⟩ .indexed (c.iteration e1 c0 e2 idx) := by
      refine ⟨fun p hp ↦ ?_, fun p hp ↦ ?_, fun hunit ↦ by cases hunit⟩
      · obtain ⟨i, hi, hp⟩ := (hcount.additive idx p).1 hp
        exact (hcount.step i p hi hp).1
      · exact h.moves_iteration.run_inText (by simp [h.ne_nil]) _ p hp
    obtain ⟨repeated, hcall, hruns⟩ : ∃ repeated, consecutive_matches ⟨c.regions.text.length, idx⟩
        (c.iteration e1 c0 e2 idx) 1 (lb - 1) (some idx) IfInsertionGap = some repeated ∧
          ∀ q, repeated q = true ↔ EndsRun idx (c.iteration e1 c0 e2 idx) (lb - 1) q :=
      consecutive_matches_spec hfound Nat.one_pos (by omega) fun q ↦ hfound.endsRun_one
    obtain ⟨adv, hadv, hspec⟩ : ∃ adv, createIndexedAdvance s (some idx) (lb - 1 : ℕ) = some adv ∧
        ∀ q, adv q = true ↔ idx q = true ∧ ∃ p, idx p = true ∧ s p = true ∧
          rank idx p + (lb - 1) = rank idx q :=
      @createIndexedAdvance_spec ⟨0, idx⟩ .indexed s (lb - 1) fun _ ↦ hs
    simp only [hcall, hadv, Option.bind_eq_bind, Option.bind_some]
    refine congrArg some (funext fun q ↦ Bool.eq_iff_iff.2 ?_)
    rw [Bool.and_eq_true, hspec, hruns, hcount.advance_iff hs, indexedAdvance_iff]
  · rw [if_neg hone]
    have hlast : lb - 1 = 0 := by omega
    rw [hlast]
    rfl

omit h in
theorem at_most_eq (count : ℕ) : ∃ bounded,
    at_most (c.iteration e1 c0 e2 idx) idx count s = some bounded ∧
      ∀ q, bounded q = true ↔ ∃ k ≤ count, (c.iteration e1 c0 e2)^[k] s q = true := by
  obtain ⟨reach, hreach, hspec⟩ : ∃ reach, reachable s count (some idx) = some reach ∧
      ∀ q, reach q = true ↔ Reached idx s count q :=
    @reachable_spec ⟨0, idx⟩ .indexed s count hs
  refine ⟨_, by rw [at_most, hreach]; rfl, fun q ↦ ?_⟩
  rw [Bool.and_eq_true]
  apply hcount.star_iff hs hspec
  · intro q
    rw [Bool.and_eq_true, Bool.or_eq_true]
  · intro q
    rw [Bool.or_eq_true, Bool.not_eq_true']

omit hcount hs in
theorem Splits.orNone_run (n : ℕ) (hrepeated : c.process repeated = c.run (e1 ++ c0 ++ e2)) :
    (c.orNone repeated (c.run e2 ⟨s, .AtEnd⟩).position)^[n] (c.run e2 ⟨s, .AtEnd⟩).stream =
      (c.run e2 ⟨(fun s p ↦ c.iteration e1 c0 e2 s p || s p)^[n] s, .AtEnd⟩).stream := by
  induction n with
  | zero => rfl
  | succ n ih =>
    rw [Function.iterate_succ_apply', ih, Function.iterate_succ_apply']
    obtain ⟨u, hu⟩ : ∃ u, u = (fun s p ↦ c.iteration e1 c0 e2 s p || s p)^[n] s := ⟨_, rfl⟩
    rw [← hu]
    have hE2 := h.moves_E2.run_pointwise
    funext q
    apply Bool.eq_iff_iff.2
    rw [(hE2.marks .AtEnd).apply_or, orNone, Bool.or_eq_true, hrepeated, hE2.position s u,
      ← eq_mk_of_position rfl, h.run_repeated]

end Exact

section Repetition

variable {e1 c0 e2 : List RE} {lb : ℕ} {ub : Option ℕ} {marker : Marker} {repeated : RE}
variable {x : Characteristic}

/-- The path for a characteristic subexpression, for at least one repetition. -/
theorem Splits.characteristicRep_eq (h : Splits c e1 c0 e2)
    (hitems : repeated.nestedItems = e1 ++ c0 ++ e2) (hx : x = ⟨makeSeq e1, makeSeq c0, makeSeq e2⟩)
    (hnext : c.EndsAtNext x) (hlb : 0 < lb) (hub : ∀ u ∈ ub, lb ≤ u) (marker : Marker) :
    c.characteristicRep repeated x lb ub marker = some (c.expandRep repeated lb ub marker) := by
  have hrepeated : c.process repeated = c.run (e1 ++ c0 ++ e2) := by
    funext m
    rw [Moves.process_repeated (by rw [hitems]; exact h.moves), hitems]
  have hE1 : c.process x.E1 = c.run e1 := by
    funext m
    rw [hx]
    exact (h.moves.mono fun e he ↦ by simp [he]).process_makeSeq m
  have hC : c.process x.C = c.run c0 := by
    funext m
    rw [hx]
    exact h.moves_C.process_makeSeq m
  have hE2 : c.process x.E2 = c.run e2 := by
    funext m
    rw [hx]
    exact h.moves_E2.process_makeSeq m
  obtain ⟨idx, hidx⟩ : ∃ idx, idx = (c.run c0 ⟨fun _ ↦ true, .AtNextCodeUnit⟩).stream := ⟨_, rfl⟩
  have hcompile : (c.compile x.C).stream = idx := by rw [compile, hC, hidx]
  have hcount : Counted idx (c.iteration e1 c0 e2) := by
    refine h.counted hidx fun p q hp hq ↦ ?_
    rw [iteration, run_append, run_append, ← hE1, ← hC, ← hE2] at hq
    rw [← hcompile] at hp ⊢
    exact hnext p q hp hq
  have hmarks : (c.compile (makeSeq [x.C, x.E2, x.E1, x.C])).stream =
      c.iteration e1 c0 e2 idx := by
    have hone : c.run c0 ⟨fun _ ↦ true, .AtNextCodeUnit⟩ = ⟨idx, .AtEnd⟩ := by
      rw [hidx]
      exact eq_mk_of_position (run_position h.findsClass h.ne_nil _)
    rw [hx, h.makeSeq_parts, compile, Moves.process_collapse (h.moves.mono ?_), run_append, hone,
      ← List.append_assoc, iteration]
    intro e he
    simp only [List.mem_append] at he ⊢
    tauto
  obtain ⟨half, hhalf⟩ : ∃ half, half = (c.run (e1 ++ c0) marker).stream := ⟨_, rfl⟩
  have hhalf_mark : c.process x.C (c.process x.E1 marker) = ⟨half, .AtEnd⟩ := by
    rw [hC, hE1, ← run_append, hhalf]
    exact eq_mk_of_position (h.position_append e1 marker)
  have hhalf_index : ∀ p, half p = true → idx p = true := by
    intro p hp
    rw [hhalf, run_append] at hp
    rw [hidx]
    exact run_within h.moves_C h.findsClass h.ne_nil _ hp
  obtain ⟨at_lb, hat_lb⟩ : ∃ at_lb, at_lb = (c.iteration e1 c0 e2)^[lb - 1] half := ⟨_, rfl⟩
  have hat_least := h.at_least_eq hcount hhalf_index hlb
  have hat_lb_index : ∀ p, at_lb p = true → idx p = true := by
    intro p hp
    rw [hat_lb] at hp
    exact hcount.index_iterate hhalf_index _ hp
  have hpointwise : Pointwise (c.process repeated) := by
    rw [hrepeated]
    exact h.moves.run_pointwise
  have htext : ∀ m, InText c.regions.text (c.process repeated m) := by
    intro m
    rw [hrepeated]
    exact h.moves.run_inText (by simp [h.ne_nil]) m
  have hlower : c.expandLowerBound repeated lb marker 3 = c.run e2 ⟨at_lb, .AtEnd⟩ := by
    obtain ⟨n, rfl⟩ := Nat.exists_eq_succ_of_ne_zero hlb.ne'
    rw [expandLowerBound_eq hpointwise htext, hrepeated, Nat.succ_eq_add_one, h.iterate_repeated,
      hat_lb, hhalf, Nat.succ_sub_one]
  have hlower_text : InText c.regions.text (c.run e2 ⟨at_lb, .AtEnd⟩) := by
    rw [← hlower, expandLowerBound_eq hpointwise htext]
    exact inText_iterate htext hlb marker
  cases ub with
  | none =>
    simp only [characteristicRep, expandRep, hhalf_mark, hmarks, hcompile, hat_least, ← hat_lb,
      hlower, hE2, guard, if_true]
    rfl
  | some u =>
    simp only [characteristicRep, expandRep, hhalf_mark, hmarks, hcompile, hat_least, ← hat_lb,
      hlower, hE2, guard, if_true]
    by_cases heq : u = lb
    · subst heq
      simp
    · have hlt : lb < u := Nat.lt_of_le_of_ne (hub u rfl) (Ne.symm heq)
      obtain ⟨bounded, hbounded, hspec⟩ := at_most_eq hcount hat_lb_index (u - lb)
      have hfound : bounded = (fun s p ↦ c.iteration e1 c0 e2 s p || s p)^[u - lb] at_lb := by
        funext q
        rw [Bool.eq_iff_iff, hspec, h.iteration_additive.iterate_or]
      have hposition (s : Stream) : (c.process repeated
          ⟨s, (c.run e2 ⟨at_lb, .AtEnd⟩).position⟩).position =
            (c.run e2 ⟨at_lb, .AtEnd⟩).position := by
        rw [hrepeated, h.run_first]
        exact h.moves_E2.run_pointwise.position _ _ _
      have hupper := expandUpperBound_eq hpointwise htext hposition (u - lb)
        (c.run e2 ⟨at_lb, .AtEnd⟩).stream hlower_text 3
      rw [h.orNone_run _ hrepeated, ← hfound] at hupper
      have hlast : c.run e2 ⟨bounded, .AtEnd⟩ =
          ⟨(c.run e2 ⟨bounded, .AtEnd⟩).stream, (c.run e2 ⟨at_lb, .AtEnd⟩).position⟩ :=
        eq_mk_of_position (h.moves_E2.run_pointwise.position _ _ _)
      rw [← hlast, ← eq_mk_of_position rfl] at hupper
      simp [heq, hlt, hbounded, hupper]

/-- What is promised of the items of a repeated expression: none of them is a Start anchor, those
of other kinds move their markers one by one, all of them within the text; and each class that may
be counted is found as such. -/
structure Compiles (c : Compiler) (l : List RE) : Prop where
  start : start ∉ l
  other : ∀ e ∈ l, ∀ process matchLen, c.item e = .other process matchLen → Pointwise process
  inText : ∀ e ∈ l, ∀ m, InText c.regions.text ((c.item e).process c.regions m)
  flat : Flat l
  classes : ∀ e ∈ l, (classOf e).isSome = true → FindsClass ((c.item e).process c.regions)

theorem Compiles.moves (h : Compiles c l) : Moves c l := by
  refine ⟨fun e he ↦ ?_, h.inText, h.flat⟩
  cases e with
  | cc a => exact pointwise_compileCC _ _
  | any => exact pointwise_compileAny
  | stop => exact pointwise_compileEnd
  | start => exact absurd he h.start
  | _ => exact h.other _ he _ _ rfl

end Repetition

section Examples

/-- The class of one letter. -/
def letter (codepoint : ℕ) : CC :=
  ⟨UCD.UnicodeSet.singleton ⟨fun _ ↦ ⟨.Empty, 0⟩, fun _ ↦ 0⟩ codepoint, Byte⟩

/-- The expressions of letters on a text, within an unbounded repetition. An expression of another
kind is `ab|b`. -/
def letterCompiler (text : List ℕ) : Compiler where
  regions := ⟨⟨text.length, fun _ ↦ true⟩, fun p ↦ p == 0, fun p ↦ p == text.length,
    fun p ↦ decide (p < text.length)⟩
  codeUnitAlphabet := Byte
  ccStrm x p := text[p]?.any x.contains
  mStarDepth := 1
  other _ m :=
    let a : Stream := fun p ↦ text[p]? == some 97
    let b : Stream := fun p ↦ text[p]? == some 98
    let next : Stream := fun p ↦ NextCodeUnitStream m p && a p
    ⟨fun p ↦ (advance 1 next p && b p) || (NextCodeUnitStream m p && b p), .AtEnd⟩
  minMatchLength _ := 1
  processUnboundedRep _ m := m

/-- `ab|b` -/
def abOrB : RE := alt [seq [cc (letter 97), cc (letter 98)], cc (letter 98)]

theorem letterCompiler_compiles (text : List ℕ) {l : List RE}
    (h : ∀ e ∈ l, e = cc (letter 97) ∨ e = cc (letter 98) ∨ e = abOrB) :
    Compiles (letterCompiler text) l := by
  have hlength {x : CC} {p : ℕ} (hp : (letterCompiler text).ccStrm x p = true) :
      p < text.length := by
    by_contra hle
    simp [letterCompiler, List.getElem?_eq_none (Nat.le_of_not_lt hle)] at hp
  refine ⟨fun hstart ↦ ?_, fun e he process matchLen hitem ↦ ?_, fun e he m p hp ↦ ?_,
    fun e he ↦ ?_, fun e he hclass ↦ ?_⟩
  · rcases h start hstart with heq | heq | heq <;> cases heq
  · rcases h e he with rfl | rfl | rfl
    · cases hitem
    · cases hitem
    · cases hitem
      refine ⟨fun _ _ _ ↦ rfl, fun position ↦ ?_⟩
      have hfirst : Additive fun s ↦ advance 1 fun p ↦
          NextCodeUnitStream ⟨s, position⟩ p && text[p]? == some 97 :=
        (@additive_nextCodeUnit .AtEnd).comp
          (additive_nextCodeUnit.and fun p ↦ text[p]? == some 97)
      exact (hfirst.and fun p ↦ text[p]? == some 98).or
        (additive_nextCodeUnit.and fun p ↦ text[p]? == some 98)
  · rcases h e he with rfl | rfl | rfl
    · exact hlength (Bool.and_eq_true_iff.1 hp).2
    · exact hlength (Bool.and_eq_true_iff.1 hp).2
    · have hb : (text[p]? == some 98) = true := by
        rcases Bool.or_eq_true_iff.1 hp with hp | hp
        · exact (Bool.and_eq_true_iff.1 hp).2
        · exact (Bool.and_eq_true_iff.1 hp).2
      exact (List.getElem?_eq_some_iff.1 (beq_iff_eq.1 hb)).1
  · rcases h e he with rfl | rfl | rfl <;> exact ⟨by decide, rfl⟩
  · rcases h e he with rfl | rfl | rfl
    · exact findsClass_compileCC fun hunit ↦ absurd hunit (by simp [letterCompiler, letter])
    · exact findsClass_compileCC fun hunit ↦ absurd hunit (by simp [letterCompiler, letter])
    · cases hclass

end Examples

end Compiler

end Parabix.RE.RE_Block_Compiler
