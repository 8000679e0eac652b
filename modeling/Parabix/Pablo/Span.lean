import Parabix.Library.Bits
import Parabix.Library.Spread
import Parabix.Pablo.Borrow

namespace Parabix.Pablo

open Library Library.BitStream

variable {w : ℕ}

/-- The statements that are compiled to one subtraction. -/
inductive SpanStatement where
  | SpanUpTo
  | InclusiveSpan
  | ExclusiveSpan
deriving DecidableEq, Repr

/-- One block of a statement on starts and ends: the borrow out and the value. -/
def compileSpan (stmt : SpanStatement) (starts ends borrowIn : BitVec w) : BitVec w × BitVec w :=
  let (borrowOut, difference) := bitblock_subtract_with_borrow ends starts borrowIn
  match stmt with
  | .SpanUpTo => (borrowOut, difference)
  | .InclusiveSpan => (borrowOut, ends ||| difference)
  | .ExclusiveSpan => (borrowOut, ~~~starts &&& difference)

/-- The blocks of a statement, one after the other. -/
def compileSpans (stmt : SpanStatement) : List (BitVec w × BitVec w) → BitVec w → List (BitVec w)
  | [], _ => []
  | (starts, ends) :: es, borrowIn =>
    let (borrowOut, value) := compileSpan stmt starts ends borrowIn
    value :: compileSpans stmt es borrowOut

/-- The value of a statement at the top level of a kernel. -/
def evaluateSpan (stmt : SpanStatement) (es : List (BitVec w × BitVec w)) : List (BitVec w) :=
  compileSpans stmt es 0

theorem length_evaluateSpan (stmt : SpanStatement) (es : List (BitVec w × BitVec w)) :
    (evaluateSpan stmt es).length = es.length := by
  have hlength (borrowIn : BitVec w) : (compileSpans stmt es borrowIn).length = es.length := by
    induction es generalizing borrowIn with
    | nil => rfl
    | cons e es ih => rw [compileSpans, List.length_cons, List.length_cons, ih]
  exact hlength 0

section Streams

def startStream (es : List (BitVec w × BitVec w)) : Stream := ofBlocks (es.map Prod.fst)

def endStream (es : List (BitVec w × BitVec w)) : Stream := ofBlocks (es.map Prod.snd)

/-- Starts and ends take turns, a start first, and no end is before its start. -/
def Alternating (starts ends : Stream) : Prop :=
  ∀ p, rank ends p ≤ rank starts p ∧ rank starts p ≤ rank ends p + 1

/-- The end of the span from `s`: as many ends are before it as starts before `s`. -/
def EndsAt (starts ends : Stream) (s e : ℕ) : Prop :=
  ends e = true ∧ rank ends e = rank starts s

/-- The positions that a statement marks for the span from `s`; a span that is never closed
has no end to stop at. -/
def SpanStatement.Marks (starts ends : Stream) (s p : ℕ) : SpanStatement → Prop
  | .SpanUpTo => s ≤ p ∧ ∀ e, EndsAt starts ends s e → p < e
  | .InclusiveSpan => s ≤ p ∧ ∀ e, EndsAt starts ends s e → p ≤ e
  | .ExclusiveSpan => s < p ∧ ∀ e, EndsAt starts ends s e → p < e

end Streams

section Blocks

variable {starts ends : BitVec w} {isOpen : ℕ → Bool}

/-- A block of the difference: its bits tell which spans are open after them. -/
theorem toNat_open (h : ∀ j < w, (starts.getLsbD j).toNat + (isOpen j).toNat =
      (ends.getLsbD j).toNat + (isOpen (j + 1)).toNat)
    {r : BitVec w} (hr : ∀ j < w, r.getLsbD j = isOpen (j + 1)) {n : ℕ} (hn : n ≤ w) :
    r.toNat % 2 ^ n + starts.toNat % 2 ^ n + (isOpen 0).toNat =
      ends.toNat % 2 ^ n + 2 ^ n * (isOpen n).toNat := by
  have hmod (x : BitVec w) (n : ℕ) :
      x.toNat % 2 ^ (n + 1) = x.toNat % 2 ^ n + 2 ^ n * (x.getLsbD n).toNat := by
    rw [Nat.pow_succ, Nat.mod_mul, BitVec.getLsbD, Nat.toNat_testBit]
  induction n with
  | zero => simp [Nat.mod_one]
  | succ n ih =>
    have hsum := ih (Nat.le_of_succ_le hn)
    have hscaled := congrArg (fun x ↦ 2 ^ n * x) (h n hn)
    simp only [Nat.mul_add] at hscaled
    rw [hmod, hmod, hmod, hr n hn, Nat.pow_succ, Nat.mul_assoc, Nat.two_mul, Nat.mul_add]
    omega

theorem span_block (hw : 0 < w) (h : ∀ j < w, (starts.getLsbD j).toNat + (isOpen j).toNat =
      (ends.getLsbD j).toNat + (isOpen (j + 1)).toNat) :
    ∃ r, bitblock_subtract_with_borrow ends starts (carryBlock w (isOpen 0)) =
        (carryBlock w (isOpen w), r) ∧ ∀ j < w, r.getLsbD j = isOpen (j + 1) := by
  obtain ⟨r, hr⟩ : ∃ r : BitVec w, ∀ j < w, r.getLsbD j = isOpen (j + 1) :=
    ⟨ofBools w ((List.range w).map fun j ↦ isOpen (j + 1)), fun j hj ↦ by
      rw [getLsbD_ofBools _ hj, List.getD_eq_getElem?_getD]
      simp [hj]⟩
  have hsum := toNat_open h hr le_rfl
  rw [Nat.mod_eq_of_lt r.isLt, Nat.mod_eq_of_lt starts.isLt, Nat.mod_eq_of_lt ends.isLt] at hsum
  have hdiff := @toNat_difference w ends starts (isOpen 0) hw
  have hd := (bitblock_subtract_with_borrow ends starts (carryBlock w (isOpen 0))).2.isLt
  have hrlt := r.isLt
  have heq : (bitblock_subtract_with_borrow ends starts (carryBlock w (isOpen 0))).2 = r := by
    apply BitVec.eq_of_toNat_eq
    generalize isOpen w = after at hsum
    generalize decide (ends.toNat < starts.toNat + (isOpen 0).toNat) = borrow at hdiff
    cases after <;> cases borrow <;> simp only [Bool.toNat_true, Bool.toNat_false] at hsum hdiff <;>
      omega
  have hlast : isOpen w = r.msb := by
    rw [BitVec.msb_eq_getLsbD_last, hr (w - 1) (by omega), Nat.sub_add_cancel hw]
  refine ⟨r, Prod.ext ?_ heq, hr⟩
  rw [borrowOut_eq hw, heq, hlast]

end Blocks

section Run

variable {es : List (BitVec w × BitVec w)} {isOpen : ℕ → Bool}

/-- What a statement makes of a position: of its start and its end, and of whether a span is
open after it. -/
def SpanStatement.value (starts ends isOpen : Bool) : SpanStatement → Bool
  | .SpanUpTo => isOpen
  | .InclusiveSpan => ends || isOpen
  | .ExclusiveSpan => !starts && isOpen

theorem compileSpan_block (hw : 0 < w) (stmt : SpanStatement) {starts ends : BitVec w}
    (h : ∀ j < w, (starts.getLsbD j).toNat + (isOpen j).toNat =
      (ends.getLsbD j).toNat + (isOpen (j + 1)).toNat) :
    (compileSpan stmt starts ends (carryBlock w (isOpen 0))).1 = carryBlock w (isOpen w) ∧
      ∀ j < w, (compileSpan stmt starts ends (carryBlock w (isOpen 0))).2.getLsbD j =
        stmt.value (starts.getLsbD j) (ends.getLsbD j) (isOpen (j + 1)) := by
  obtain ⟨r, hr, hbits⟩ := span_block hw h
  simp only [compileSpan, hr]
  cases stmt with
  | SpanUpTo => exact ⟨rfl, hbits⟩
  | InclusiveSpan =>
    refine ⟨rfl, fun j hj ↦ ?_⟩
    rw [BitVec.getLsbD_or, hbits j hj, SpanStatement.value]
  | ExclusiveSpan =>
    refine ⟨rfl, fun j hj ↦ ?_⟩
    rw [BitVec.getLsbD_and, BitVec.getLsbD_not, hbits j hj, decide_eq_true hj, Bool.true_and,
      SpanStatement.value]

theorem compileSpans_apply (hw : 0 < w) (stmt : SpanStatement)
    (h : ∀ p < w * es.length, (startStream es p).toNat + (isOpen p).toNat =
      (endStream es p).toNat + (isOpen (p + 1)).toNat) {p : ℕ} (hp : p < w * es.length) :
    ofBlocks (compileSpans stmt es (carryBlock w (isOpen 0))) p =
      stmt.value (startStream es p) (endStream es p) (isOpen (p + 1)) := by
  induction es generalizing isOpen p with
  | nil => exact absurd hp (Nat.not_lt_zero p)
  | cons e es ih =>
    obtain ⟨starts, ends⟩ := e
    rw [List.length_cons, Nat.mul_succ] at h hp
    have hblock (j : ℕ) (hj : j < w) := h j (by omega)
    simp only [startStream, endStream, List.map_cons] at h hblock ⊢
    have hfirst (j : ℕ) (hj : j < w) : (starts.getLsbD j).toNat + (isOpen j).toNat =
        (ends.getLsbD j).toNat + (isOpen (j + 1)).toNat := by
      have hj' := hblock j hj
      rwa [ofBlocks_cons_lt hj, ofBlocks_cons_lt hj] at hj'
    obtain ⟨hout, hvalue⟩ := compileSpan_block hw stmt hfirst
    rw [compileSpans]
    by_cases hlt : p < w
    · rw [ofBlocks_cons_lt hlt, ofBlocks_cons_lt hlt, ofBlocks_cons_lt hlt, hvalue p hlt]
    · obtain ⟨q, rfl⟩ : ∃ q, p = w + q := ⟨p - w, by omega⟩
      rw [ofBlocks_cons_add hw, ofBlocks_cons_add hw, ofBlocks_cons_add hw, hout]
      refine @ih (fun p ↦ isOpen (w + p)) (fun j hj ↦ ?_) q (by omega)
      have hj' := h (w + j) (by omega)
      rwa [ofBlocks_cons_add hw, ofBlocks_cons_add hw] at hj'

end Run

section Spans

variable {starts ends : Stream} {s p : ℕ}

/-- A span is open before a position iff more starts than ends are before it. -/
theorem open_succ (h : Alternating starts ends) (p : ℕ) :
    (starts p).toNat + (decide (rank ends p < rank starts p)).toNat =
      (ends p).toNat + (decide (rank ends (p + 1) < rank starts (p + 1))).toNat := by
  have hp := h p
  have hsucc := h (p + 1)
  rw [rank_succ, rank_succ] at hsucc ⊢
  by_cases h1 : rank ends p < rank starts p <;>
    by_cases h2 : rank ends p + (ends p).toNat < rank starts p + (starts p).toNat <;>
    simp only [h1, h2, decide_true, decide_false, Bool.toNat_true, Bool.toNat_false] <;> omega

/-- A span is open after a position iff the position is in one that ends later. -/
theorem open_iff : rank ends (p + 1) < rank starts (p + 1) ↔
    ∃ s, starts s = true ∧ SpanStatement.SpanUpTo.Marks starts ends s p := by
  constructor
  · intro hlt
    obtain ⟨s, hs, hstart, hrank⟩ := exists_rank_eq hlt
    refine ⟨s, hstart, Nat.le_of_lt_succ hs, ?_⟩
    rintro e ⟨hend, he⟩
    by_contra hle
    have hbefore := rank_lt_of_true hend (show e < p + 1 by omega)
    omega
  · rintro ⟨s, hstart, hs, hends⟩
    by_contra hle
    have hbefore := rank_lt_of_true hstart (show s < p + 1 by omega)
    obtain ⟨e, he, hend, hrank⟩ := exists_rank_eq (m := ends) (n := p + 1) (r := rank starts s)
      (by omega)
    have hlt := hends e ⟨hend, hrank⟩
    omega

theorem marks_inclusive_iff (h : Alternating starts ends) :
    (∃ s, starts s = true ∧ SpanStatement.InclusiveSpan.Marks starts ends s p) ↔
      ends p = true ∨ rank ends (p + 1) < rank starts (p + 1) := by
  constructor
  · rintro ⟨s, hstart, hs, hends⟩
    by_cases hend : ends p = true
    · exact .inl hend
    · refine .inr (open_iff.2 ⟨s, hstart, hs, fun e he ↦ lt_of_le_of_ne (hends e he) ?_⟩)
      rintro rfl
      exact hend he.1
  · rintro (hend | hopen)
    · have hle := (h (p + 1)).1
      rw [rank_succ_of_true hend] at hle
      obtain ⟨s, hs, hstart, hrank⟩ := exists_rank_eq hle
      exact ⟨s, hstart, Nat.le_of_lt_succ hs, fun e he ↦
        (rank_inj hend he.1 (hrank.symm.trans he.2.symm)).le⟩
    · obtain ⟨s, hstart, hs, hends⟩ := open_iff.1 hopen
      exact ⟨s, hstart, hs, fun e he ↦ (hends e he).le⟩

theorem marks_exclusive_iff (h : Alternating starts ends) :
    (∃ s, starts s = true ∧ SpanStatement.ExclusiveSpan.Marks starts ends s p) ↔
      starts p = false ∧ rank ends (p + 1) < rank starts (p + 1) := by
  constructor
  · rintro ⟨s, hstart, hs, hends⟩
    refine ⟨?_, open_iff.2 ⟨s, hstart, hs.le, hends⟩⟩
    by_contra hp
    -- a second start comes only after the end of the first
    have hp' : starts p = true := by simpa using hp
    have hturn := (h (p + 1)).2
    have hbefore := rank_lt_of_true hstart hs
    rw [rank_succ_of_true hp'] at hturn
    obtain ⟨e, he, hend, hrank⟩ := exists_rank_eq (show rank starts s < rank ends (p + 1) by omega)
    have hlt := hends e ⟨hend, hrank⟩
    omega
  · rintro ⟨hp, hopen⟩
    obtain ⟨s, hstart, hs, hends⟩ := open_iff.1 hopen
    refine ⟨s, hstart, lt_of_le_of_ne hs ?_, hends⟩
    rintro rfl
    rw [hp] at hstart
    cases hstart

end Spans

/-- The statements mark the spans of alternating starts and ends, however the streams are cut
into blocks. -/
theorem spans_exact (hw : 0 < w) (es : List (BitVec w × BitVec w))
    (h : Alternating (startStream es) (endStream es)) (stmt : SpanStatement) {p : ℕ}
    (hp : p < w * es.length) : ofBlocks (evaluateSpan stmt es) p = true ↔
      ∃ s, startStream es s = true ∧ stmt.Marks (startStream es) (endStream es) s p := by
  have hzero : (0 : BitVec w) = carryBlock w (decide (rank (endStream es) 0 <
      rank (startStream es) 0)) := by
    apply BitVec.eq_of_toNat_eq
    rw [toNat_carryBlock hw]
    rfl
  rw [evaluateSpan, hzero, @compileSpans_apply w es
    (fun p ↦ decide (rank (endStream es) p < rank (startStream es) p)) hw stmt
    (fun p _ ↦ open_succ h p) p hp]
  cases stmt with
  | SpanUpTo => rw [SpanStatement.value, decide_eq_true_iff, open_iff]
  | InclusiveSpan =>
    rw [SpanStatement.value, Bool.or_eq_true, decide_eq_true_iff, marks_inclusive_iff h]
  | ExclusiveSpan =>
    rw [SpanStatement.value, Bool.and_eq_true, Bool.not_eq_true', decide_eq_true_iff,
      marks_exclusive_iff h]

/-- No start and no end is behind the last block. -/
theorem alternating_of_le {es : List (BitVec w × BitVec w)}
    (h : ∀ p ≤ w * es.length, rank (endStream es) p ≤ rank (startStream es) p ∧
      rank (startStream es) p ≤ rank (endStream es) p + 1) :
    Alternating (startStream es) (endStream es) := by
  intro p
  by_cases hp : p ≤ w * es.length
  · exact h p hp
  · obtain ⟨n, rfl⟩ := Nat.exists_eq_add_of_le (Nat.le_of_not_le hp)
    have hstarts : rank (startStream es) (w * es.length + n) = rank (startStream es) _ :=
      rank_eq_of_false fun i _ ↦ ofBlocks_ge (by rw [List.length_map]; omega)
    have hends : rank (endStream es) (w * es.length + n) = rank (endStream es) _ :=
      rank_eq_of_false fun i _ ↦ ofBlocks_ge (by rw [List.length_map]; omega)
    rw [hstarts, hends]
    exact h _ le_rfl

/-- A span over two blocks, and one that stays open. -/
theorem spans_exact_bytes :
    ofBlocks (evaluateSpan .InclusiveSpan [((0x20 : BitVec 8), (0 : BitVec 8)), (0x10, 0x04)]) 9 =
      true ↔ ∃ s, startStream [((0x20 : BitVec 8), (0 : BitVec 8)), (0x10, 0x04)] s = true ∧
        SpanStatement.InclusiveSpan.Marks
          (startStream [((0x20 : BitVec 8), (0 : BitVec 8)), (0x10, 0x04)])
          (endStream [((0x20 : BitVec 8), (0 : BitVec 8)), (0x10, 0x04)]) s 9 :=
  spans_exact (by decide) _ (alternating_of_le (by decide +kernel)) _ (by decide)

end Parabix.Pablo
