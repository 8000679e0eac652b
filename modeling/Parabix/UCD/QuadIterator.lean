import Parabix.UCD.UnicodeSet

namespace Parabix.UCD

open Library Library.RunLength

/-- A cursor over the quads of a set. The two iterators are the parts of the
buffers not yet passed; the run under the cursor heads `mRunIterator`. -/
structure QuadIterator where
  mRunIterator : List run_t
  mQuadIterator : List BitQuad
  mType : RunType
  mRemaining : ℕ
deriving DecidableEq, Repr

def UnicodeSet.quadBegin (s : UnicodeSet) : QuadIterator :=
  match s.runs with
  | [] => ⟨[], s.quads, .Empty, 0⟩
  | r :: rs => ⟨r :: rs, s.quads, typeOf r, lengthOf r⟩

namespace QuadIterator

def quad (it : QuadIterator) : Except Fault BitQuad :=
  match it.mQuadIterator with
  | [] => .error .memory
  | q :: _ => .ok q

def advanceLoop : List run_t → List BitQuad → RunType → ℕ → ℕ → QuadIterator
  | [], qs, type, remaining, _ => ⟨[], qs, type, remaining⟩
  | r :: rs, qs, type, remaining, n =>
    if n = 0 then
      ⟨r :: rs, qs, type, remaining⟩
    else if n < remaining then
      ⟨r :: rs, if type = .Mixed then qs.drop n else qs, type, remaining - n⟩
    else
      let qs := if type = .Mixed then qs.drop remaining else qs
      match rs with
      | [] => ⟨[], qs, .Empty, 0⟩
      | r' :: rs' => advanceLoop (r' :: rs') qs (typeOf r') (lengthOf r') (n - remaining)

def advance (it : QuadIterator) (n : ℕ) : QuadIterator :=
  advanceLoop it.mRunIterator it.mQuadIterator it.mType it.mRemaining n

/-- The quads from the cursor on. -/
def cells (it : QuadIterator) : List BitQuad :=
  decode fill (⟨it.mType, it.mRemaining⟩ :: it.mRunIterator.tail) it.mQuadIterator

/-- A cursor inside a run, or past the end. -/
structure Valid (it : QuadIterator) : Prop where
  remaining : if it.mRunIterator = [] then it.mType = .Empty ∧ it.mRemaining = 0
    else 0 < it.mRemaining
  pos : ∀ r ∈ it.mRunIterator.tail, 0 < r.length
  literals : literals fill (⟨it.mType, it.mRemaining⟩ :: it.mRunIterator.tail) =
    it.mQuadIterator.length
  proper : ∀ q ∈ it.mQuadIterator, kindOf q = .Mixed

theorem length_cells {it : QuadIterator} (h : it.Valid) :
    it.cells.length = it.mRemaining + total it.mRunIterator.tail := by
  rw [cells, length_decode h.literals.le, total_cons]

theorem remaining_le {it : QuadIterator} (h : it.Valid) : it.mRemaining ≤ it.cells.length := by
  rw [length_cells h]
  exact Nat.le_add_right _ _

theorem remaining_pos {it : QuadIterator} (h : it.Valid) (hc : it.cells ≠ []) :
    0 < it.mRemaining := by
  have hr := h.remaining
  split at hr
  · rename_i hnil
    refine absurd (List.length_eq_zero_iff.mp ?_) hc
    rw [length_cells h, hr.2, hnil]
    rfl
  · exact hr

/-- All quads up to the end of the run under the cursor are of its kind. -/
theorem kindOf_take {it : QuadIterator} (h : it.Valid) {n : ℕ} (hn : n ≤ it.mRemaining) :
    ∀ q ∈ it.cells.take n, kindOf q = it.mType := by
  intro q hq
  rw [cells] at hq
  cases ht : it.mType with
  | Mixed =>
    have hl := h.literals
    simp only [ht, literals_cons, fill_mixed, Option.isNone_none, if_true] at hl
    rw [ht, decode_cons_none fill_mixed, List.take_append_of_le_length
      (by simp only [List.length_take]; omega)] at hq
    exact h.proper q (List.mem_of_mem_take (List.mem_of_mem_take hq))
  | Empty =>
    rw [ht, decode_cons_some fill_empty, List.take_append_of_le_length (by simpa using hn)] at hq
    rw [List.eq_of_mem_replicate (List.mem_of_mem_take hq)]
    rfl
  | Full =>
    rw [ht, decode_cons_some fill_full, List.take_append_of_le_length (by simpa using hn)] at hq
    rw [List.eq_of_mem_replicate (List.mem_of_mem_take hq)]
    rfl

theorem quad_eq {it : QuadIterator} (h : it.Valid) (ht : it.mType = .Mixed)
    (hr : 0 < it.mRemaining) : ∃ q cs, it.quad = .ok q ∧ it.cells = q :: cs := by
  have hl := h.literals
  simp only [ht, literals_cons, fill_mixed, Option.isNone_none, if_true] at hl
  obtain ⟨q, qs, hq⟩ : ∃ q qs, it.mQuadIterator = q :: qs := by
    cases hm : it.mQuadIterator with
    | nil => rw [hm, List.length_nil] at hl; omega
    | cons q qs => exact ⟨q, qs, rfl⟩
  obtain ⟨m, hm⟩ : ∃ m, it.mRemaining = m + 1 := ⟨it.mRemaining - 1, by omega⟩
  have hc : it.cells.head? = some q := by
    rw [cells, ht, decode_cons_none fill_mixed, hq, hm, List.take_succ_cons, List.cons_append,
      List.head?_cons]
  exact ⟨q, it.cells.tail, by rw [quad, hq], List.eq_cons_of_mem_head? hc⟩

theorem advanceLoop_spec {rs : List run_t} {qs : List BitQuad} {type : RunType}
    {remaining n : ℕ} (h : Valid ⟨rs, qs, type, remaining⟩)
    (hn : n ≤ (cells ⟨rs, qs, type, remaining⟩).length) :
    (advanceLoop rs qs type remaining n).Valid ∧
      (advanceLoop rs qs type remaining n).cells =
        (cells ⟨rs, qs, type, remaining⟩).drop n := by
  induction rs generalizing qs type remaining n with
  | nil =>
    have hr := h.remaining
    simp only [if_true] at hr
    rw [length_cells h] at hn
    simp only [hr.2, List.tail_nil, total_nil] at hn
    rw [show n = 0 by omega]
    exact ⟨h, rfl⟩
  | cons r rs ih =>
    have hl := h.literals
    simp only [List.tail_cons] at hl
    unfold advanceLoop
    by_cases h0 : n = 0
    · rw [if_pos h0, h0]
      exact ⟨h, rfl⟩
    rw [if_neg h0]
    by_cases hlt : n < remaining
    · rw [if_pos hlt]
      refine ⟨⟨?_, h.pos, ?_, ?_⟩, ?_⟩
      · simp only [reduceCtorEq, if_false]; omega
      · cases type <;> simp [fill] at hl ⊢ <;> omega
      · intro q hq
        split at hq
        · exact h.proper q (List.mem_of_mem_drop hq)
        · exact h.proper q hq
      · simp only [cells, List.tail_cons]
        rw [drop_decode_cons hlt.le _ hl.le]
    rw [if_neg hlt]
    -- The cursor leaves its run; the rest of the code space starts with `rs`.
    have hdrop : (cells ⟨r :: rs, qs, type, remaining⟩).drop n =
        (decode fill rs (if type = .Mixed then qs.drop remaining else qs)).drop
          (n - remaining) := by
      rw [cells, List.tail_cons, show n = remaining + (n - remaining) by omega,
        ← List.drop_drop, drop_decode_cons le_rfl _ hl.le, Nat.sub_self,
        Nat.add_sub_cancel_left]
      cases type <;> simp [decode, fill]
    have hlit : RunLength.literals fill rs =
        (if type = .Mixed then qs.drop remaining else qs).length := by
      cases type <;> simp [fill] at hl ⊢ <;> omega
    have hproper : ∀ q ∈ (if type = .Mixed then qs.drop remaining else qs),
        kindOf q = .Mixed := by
      intro q hq
      split at hq
      · exact h.proper q (List.mem_of_mem_drop hq)
      · exact h.proper q hq
    rw [length_cells h] at hn
    cases rs with
    | nil =>
      simp only [List.tail_cons, total_nil] at hn
      rw [hdrop]
      refine ⟨⟨by simp, by simp, ?_, hproper⟩, ?_⟩
      · simpa [fill] using hlit
      · simp [cells, decode, fill]
    | cons r' rs' =>
      rcases r' with ⟨k, m⟩
      have hpos := h.pos
      simp only [List.tail_cons, List.mem_cons, forall_eq_or_imp] at hpos hn
      have hv : Valid ⟨⟨k, m⟩ :: rs', if type = .Mixed then qs.drop remaining else qs, k, m⟩ :=
        ⟨by simpa using hpos.1, hpos.2, hlit, hproper⟩
      rw [hdrop]
      refine ih hv ?_
      have hlen := length_cells hv
      simp only [total_cons, List.tail_cons, typeOf_eq, lengthOf_eq] at hn hlen ⊢
      omega

theorem advance_valid {it : QuadIterator} (h : it.Valid) {n : ℕ} (hn : n ≤ it.cells.length) :
    (it.advance n).Valid := (advanceLoop_spec h hn).1

theorem cells_advance {it : QuadIterator} (h : it.Valid) {n : ℕ} (hn : n ≤ it.cells.length) :
    (it.advance n).cells = it.cells.drop n := (advanceLoop_spec h hn).2

/-- A short step stays in the run. -/
theorem advance_within {it : QuadIterator} (h : it.Valid) {n : ℕ} (hn : n < it.mRemaining) :
    (it.advance n).mType = it.mType ∧ (it.advance n).mRemaining = it.mRemaining - n := by
  rcases it with ⟨rs, qs, type, remaining⟩
  have hr := h.remaining
  cases rs with
  | nil =>
    simp only [if_true] at hr
    exact absurd hn (by simp [hr.2])
  | cons r rs =>
    unfold advance advanceLoop
    by_cases h0 : n = 0
    · rw [if_pos h0, h0]
      exact ⟨rfl, rfl⟩
    · rw [if_neg h0, if_pos hn]
      exact ⟨rfl, rfl⟩

end QuadIterator

theorem UnicodeSet.quadBegin_valid {s : UnicodeSet} (h : Verified s.runs s.quads) :
    s.quadBegin.Valid ∧ s.quadBegin.cells = s.cells := by
  unfold quadBegin
  split
  · rename_i hr
    have ht := h.total
    rw [hr] at ht
    cases ht
  · rename_i r rs hr
    have hpos := h.pos
    have hlit := h.literals
    rw [hr] at hpos hlit
    simp only [List.mem_cons, forall_eq_or_imp] at hpos
    refine ⟨⟨by simpa using hpos.1, hpos.2, hlit, h.proper⟩, ?_⟩
    rw [QuadIterator.cells, UnicodeSet.cells, hr]
    rfl

end Parabix.UCD
