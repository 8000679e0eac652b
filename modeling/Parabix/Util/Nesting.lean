import Mathlib.Data.Nat.Log
import Parabix.Library.Brackets
import Parabix.Pablo.BixNumExact
import Parabix.Pablo.Scan
import Parabix.Pablo.Span

namespace Parabix.Util

open Library Library.BitStream Pablo

/-- A kernel run over a file: the width and number of the blocks that cover it and its end. -/
structure Run where
  width : ℕ
  blocks : ℕ
  length : ℕ
  width_pos : 0 < width
  covers : length < width * blocks

namespace Run

variable (run : Run)

def EOFbit : Stream := fun p ↦ p == run.length

def block (s : Stream) (b : ℕ) : BitVec run.width :=
  ofBools run.width ((List.range run.width).map fun j ↦ s (run.width * b + j))

def createAtEOF (s : Stream) : Stream := fun p ↦ s p && run.EOFbit p

def createAdvanceThenScanTo (from_ to_ : Stream) : Stream :=
  ofBlocks (evaluate .AdvanceThenScanTo ((List.range run.blocks).map fun b ↦
    ⟨run.block from_ b, run.block to_ b, run.block run.EOFbit b⟩))

def createInclusiveSpan (starts ends : Stream) : Stream :=
  ofBlocks (evaluateSpan .InclusiveSpan ((List.range run.blocks).map fun b ↦
    (run.block starts b, run.block ends b)))

def any (s : Stream) : Bool := (List.range (run.width * run.blocks)).any s

end Run

/-- The variables of the kernel. -/
structure Nesting where
  nestingDepth : BixNum Stream
  closed : Stream
  errs : Stream
  pendingL : Stream

namespace NestingDepth

variable (run : Run) (mMaxDepth : ℕ) (LBrak RBrak : Stream)

def mNestingDepthBits : ℕ := Nat.clog 2 (mMaxDepth + 1)

/-- The statements before the loop. -/
def firstRound : Nesting :=
  let pb := PabloBuilder.streams
  let all_brackets := pb.createOr LBrak RBrak
  let bscan := run.createAdvanceThenScanTo LBrak all_brackets
  let span := run.createInclusiveSpan LBrak bscan
  { nestingDepth := span :: List.replicate (mNestingDepthBits mMaxDepth - 1) pb.createZeroes
    closed := pb.createAnd bscan RBrak
    errs := run.createAtEOF bscan
    pendingL := pb.createAnd bscan LBrak }

def whileBody (vars : Nesting) : Nesting :=
  let wb := PabloBuilder.streams
  let unmatchedR := wb.createAnd RBrak (wb.createNot vars.closed)
  let inPlay := wb.createOr vars.pendingL unmatchedR
  let bscan := run.createAdvanceThenScanTo vars.pendingL inPlay
  let span := run.createInclusiveSpan vars.pendingL bscan
  let nesting := BixNumCompiler.AddModular wb vars.nestingDepth [span]
  let atMaxDepth := BixNumCompiler.EQ wb nesting mMaxDepth
  let nextPending := wb.createAnd bscan LBrak
  let tooDeep := wb.createAnd nextPending atMaxDepth
  { nestingDepth := nesting
    closed := wb.createOr vars.closed (wb.createAnd bscan RBrak)
    errs := wb.createOr (wb.createOr vars.errs tooDeep) (run.createAtEOF bscan)
    pendingL := wb.createAnd nextPending (wb.createNot tooDeep) }

/-- The carries of the loop are kept for each iteration, so that an iteration runs over all
blocks. -/
def whileLoop : ℕ → Nesting → Except Fault Nesting
  | 0, _ => .error .fuel
  | fuel + 1, vars =>
    if run.any vars.pendingL then
      whileLoop fuel (whileBody run mMaxDepth LBrak RBrak vars)
    else
      .ok vars

/-- The nesting depth and the errors. -/
def generatePabloMethod (fuel : ℕ) : Except Fault (BixNum Stream × Stream) := do
  let pb := PabloBuilder.streams
  let vars ← whileLoop run mMaxDepth LBrak RBrak fuel (firstRound run mMaxDepth LBrak RBrak)
  let unmatchedR_err := pb.createAnd RBrak (pb.createNot vars.closed)
  return (vars.nestingDepth, pb.createOr vars.errs unmatchedR_err)

end NestingDepth

section Statements

variable {run : Run} {t : Brackets} {p : ℕ}

namespace Run

theorem getLsbD_block {s : Stream} {b j : ℕ} (hj : j < run.width) :
    (run.block s b).getLsbD j = s (run.width * b + j) := by
  rw [block, getLsbD_ofBools _ hj, List.getD_eq_getElem?_getD, List.getElem?_map,
    List.getElem?_range hj]
  rfl

/-- The stream of an operand, put together again from its blocks. -/
theorem ofBlocks_operand {β : Type} {s : Stream} {es : ℕ → β} {operand : β → BitVec run.width}
    (h : ∀ b, operand (es b) = run.block s b) (hp : p < run.width * run.blocks) :
    ofBlocks (((List.range run.blocks).map es).map operand) p = s p := by
  have hb : p / run.width < run.blocks := Nat.div_lt_of_lt_mul hp
  rw [ofBlocks, List.getD_eq_getElem?_getD, List.getElem?_map, List.getElem?_map,
    List.getElem?_range hb, Option.map_some, Option.map_some, Option.getD_some, h,
    getLsbD_block (Nat.mod_lt p run.width_pos), Nat.div_add_mod]

theorem eq_false_of_any {s : Stream} (h : run.any s = false) (hp : p < run.width * run.blocks) :
    s p = false := by
  rw [any, List.any_eq_false] at h
  exact Bool.not_eq_true _ ▸ h p (List.mem_range.2 hp)

end Run

/-- A text whose brackets are all before the end of the file. -/
def Within (run : Run) (t : Brackets) : Prop :=
  ∀ p, t.left p = true ∨ t.right p = true → p < run.length

theorem Within.reduce (h : Within run t) : Within run t.reduce := by
  intro p hp
  rw [Brackets.left_reduce, Brackets.right_reduce, Bool.and_eq_true, Bool.and_eq_true] at hp
  exact h p (hp.imp And.left And.left)

theorem Within.reduced (h : Within run t) (i : ℕ) : Within run (t.reduced i) := by
  induction i with
  | zero => exact h
  | succ i ih => exact ih.reduce

theorem Within.ge (h : Within run t) (hp : run.length ≤ p) :
    t.left p = false ∧ t.right p = false := by
  constructor
  · by_contra hl
    exact absurd (h p (.inl (Bool.of_not_eq_false hl))) (Nat.not_lt.2 hp)
  · by_contra hr
    exact absurd (h p (.inr (Bool.of_not_eq_false hr))) (Nat.not_lt.2 hp)

/-- A bracket, or the end of the file, right after a left bracket. -/
def scanned (run : Run) (t : Brackets) : Stream :=
  fun p ↦ (t.left p || t.right p || run.EOFbit p) && t.afterLeft p

/-- A left bracket and what follows it, up to the next bracket. -/
def spanned (run : Run) (t : Brackets) : Stream :=
  fun p ↦ decide (p ≤ run.length) && (t.left p || t.afterLeft p)

theorem createAdvanceThenScanTo_eq (h : Within run t) :
    run.createAdvanceThenScanTo t.left (fun p ↦ t.left p || t.right p) = scanned run t := by
  funext p
  rw [Run.createAdvanceThenScanTo, scanned]
  generalize hes : List.map _ (List.range run.blocks) = es
  have hlength : es.length = run.blocks := by rw [← hes, List.length_map, List.length_range]
  by_cases hp : p < run.width * run.blocks
  · have hfrom {q : ℕ} (hq : q ≤ p) : fromStream es q = t.left q := by
      rw [← hes, fromStream]
      refine Run.ofBlocks_operand ?_ (hq.trans_lt hp)
      exact fun _ ↦ rfl
    have hto {q : ℕ} (hq : q ≤ p) : toStream es q = (t.left q || t.right q) := by
      rw [← hes, toStream]
      refine Run.ofBlocks_operand (s := fun q ↦ t.left q || t.right q) ?_ (hq.trans_lt hp)
      exact fun _ ↦ rfl
    have heof {q : ℕ} (hq : q ≤ p) : eofStream es q = run.EOFbit q := by
      rw [← hes, eofStream]
      refine Run.ofBlocks_operand ?_ (hq.trans_lt hp)
      exact fun _ ↦ rfl
    rw [Bool.eq_iff_iff, advanceThenScanTo_iff run.width_pos (by rwa [hlength]),
      Bool.and_eq_true, Brackets.afterLeft_iff, hto le_rfl, heof le_rfl]
    refine and_congr_right fun hstop ↦ exists_congr fun q ↦ and_congr_right fun hq ↦ ?_
    rw [hfrom hq.le]
    refine and_congr_right fun _ ↦ forall_congr' fun j ↦ imp_congr_right fun _ ↦
      imp_congr_right fun hj ↦ ?_
    -- A scan does not go on behind the end of the file.
    have hle : p ≤ run.length := by
      by_contra hlt
      rw [(h.ge (Nat.lt_of_not_le hlt).le).1, (h.ge (Nat.lt_of_not_le hlt).le).2, Run.EOFbit,
        beq_false_of_ne (by omega)] at hstop
      cases hstop
    rw [hto hj.le, heof hj.le, Run.EOFbit, beq_false_of_ne (by omega), Bool.or_false,
      Bool.not_eq_true', Bool.or_eq_false_iff]
  · have hlt := run.covers
    have hge := h.ge (show run.length ≤ p by omega)
    rw [ofBlocks_ge (by rw [length_evaluate, hlength]; omega), hge.1, hge.2, Run.EOFbit,
      beq_false_of_ne (by omega)]
    rfl

theorem createInclusiveSpan_eq (h : Within run t) :
    run.createInclusiveSpan t.left (scanned run t) = spanned run t := by
  funext p
  rw [Run.createInclusiveSpan, spanned]
  generalize hes : List.map _ (List.range run.blocks) = es
  have hlength : es.length = run.blocks := by rw [← hes, List.length_map, List.length_range]
  have hstep (q : ℕ) : (t.left q).toNat + (decide (q ≤ run.length) && t.afterLeft q).toNat =
      (scanned run t q).toNat + (decide (q + 1 ≤ run.length) && t.afterLeft (q + 1)).toNat := by
    rw [scanned, Brackets.afterLeft, Run.EOFbit]
    rcases Nat.lt_trichotomy q run.length with hq | rfl | hq
    · rw [decide_eq_true hq.le, decide_eq_true (Nat.succ_le_of_lt hq), beq_false_of_ne hq.ne]
      have hdisjoint := t.disjoint q
      cases hl : t.left q <;> cases hr : t.right q <;> simp_all [Nat.add_comm]
    · rw [(h.ge le_rfl).1, decide_eq_true le_rfl, decide_eq_false (Nat.not_succ_le_self _)]
      simp
    · rw [(h.ge hq.le).1, (h.ge hq.le).2, decide_eq_false (by omega), decide_eq_false (by omega),
        beq_false_of_ne hq.ne']
      rfl
  by_cases hp : p < run.width * run.blocks
  · have hstart {q : ℕ} (hq : q < run.width * run.blocks) : startStream es q = t.left q := by
      rw [← hes, startStream]
      refine Run.ofBlocks_operand ?_ hq
      exact fun _ ↦ rfl
    have hend {q : ℕ} (hq : q < run.width * run.blocks) : endStream es q = scanned run t q := by
      rw [← hes, endStream]
      refine Run.ofBlocks_operand ?_ hq
      exact fun _ ↦ rfl
    have happly := @compileSpans_apply run.width es
      (fun q ↦ decide (q ≤ run.length) && t.afterLeft q) run.width_pos .InclusiveSpan
      (fun q hq ↦ by rw [hlength] at hq; rw [hstart hq, hend hq, hstep]) p (by rwa [hlength])
    have hzero : carryBlock run.width (decide (0 ≤ run.length) && t.afterLeft 0) = 0 := by
      rw [Brackets.afterLeft, Bool.and_false]
      apply BitVec.eq_of_toNat_eq
      rw [toNat_carryBlock run.width_pos]
      rfl
    rw [hzero, hstart hp, hend hp] at happly
    rw [evaluateSpan, happly, SpanStatement.value, scanned, Brackets.afterLeft, Run.EOFbit]
    rcases Nat.lt_trichotomy p run.length with hq | rfl | hq
    · rw [decide_eq_true hq.le, decide_eq_true (Nat.succ_le_of_lt hq), beq_false_of_ne hq.ne]
      cases t.left p <;> cases t.right p <;> cases t.afterLeft p <;> rfl
    · rw [(h.ge le_rfl).1, decide_eq_true le_rfl, decide_eq_false (Nat.not_succ_le_self _)]
      simp
    · rw [(h.ge hq.le).1, (h.ge hq.le).2, decide_eq_false (by omega), decide_eq_false (by omega),
        beq_false_of_ne hq.ne']
      rfl
  · have hlt := run.covers
    rw [ofBlocks_ge (by rw [length_evaluateSpan, hlength]; omega), decide_eq_false (by omega),
      Bool.false_and]

end Statements

section Rounds

variable {run : Run} {t : Brackets} {m c : ℕ} {vars : Nesting}

/-- The round that finds the brackets which are too deep: with one stream for the depth, two levels
count as none. -/
def limit (m : ℕ) : ℕ := if m = 1 then 3 else m

theorem le_limit (m : ℕ) : m ≤ limit m := by
  rw [limit]
  split_ifs <;> omega

theorem limit_pos (hm : 1 ≤ m) : 1 < limit m := by
  rw [limit]
  split_ifs <;> omega

theorem mod_eq_iff (hm : 1 ≤ m) (hc : 2 ≤ c) (hle : c ≤ limit m) :
    c % 2 ^ NestingDepth.mNestingDepthBits m = m ↔ c = limit m := by
  rw [limit] at hle ⊢
  rw [NestingDepth.mNestingDepthBits]
  split_ifs at hle ⊢ with h
  · subst h
    rw [show Nat.clog 2 (1 + 1) = 1 from rfl]
    omega
  · have hlt : m < 2 ^ Nat.clog 2 (m + 1) :=
      Nat.lt_of_succ_le (Nat.le_pow_clog Nat.one_lt_two (m + 1))
    rw [Nat.mod_eq_of_lt (hle.trans_lt hlt)]

/-- The levels that have been counted at a position. -/
def counted (run : Run) (t : Brackets) (c p : ℕ) : ℕ :=
  (List.range c).countP fun i ↦ spanned run (t.reduced i) p

theorem counted_succ (c p : ℕ) :
    counted run t (c + 1) p = counted run t c p + (spanned run (t.reduced c) p).toNat := by
  rw [counted, List.range_succ, List.countP_append, List.countP_singleton, counted]
  cases spanned run (t.reduced c) p <;> rfl

theorem counted_left (h : Within run t) {p : ℕ} (hp : (t.reduced c).left p = true) :
    counted run t c p = c := by
  have hle := (h.reduced c p (.inl hp)).le
  rw [counted, List.countP_eq_length.2, List.length_range]
  intro i hi
  rw [spanned, ((t.left_reduced c p).1 hp).2 i (List.mem_range.1 hi), decide_eq_true hle,
    Bool.or_true, Bool.and_true]

/-- What the variables are after a number of rounds. -/
structure After (run : Run) (t : Brackets) (m c : ℕ) (vars : Nesting) : Prop where
  length : vars.nestingDepth.length = NestingDepth.mNestingDepthBits m
  depth (p : ℕ) : value id p vars.nestingDepth =
    counted run t c p % 2 ^ NestingDepth.mNestingDepthBits m
  closed (p : ℕ) : vars.closed p = (t.right p && !(t.reduced c).right p)
  errs (p : ℕ) : vars.errs p = true ↔
    (p = run.length ∧ ∃ i < c, (t.reduced i).afterLeft p = true) ∨
      (t.reduced c).left p = true ∧ c = limit m
  pendingL (p : ℕ) : vars.pendingL p = ((t.reduced c).left p && decide (c < limit m))

theorem After.inPlay (hvars : After run t m c vars) (hc : c < limit m) :
    vars.pendingL = (t.reduced c).left ∧
      PabloBuilder.streams.createOr vars.pendingL (PabloBuilder.streams.createAnd t.right
        (PabloBuilder.streams.createNot vars.closed)) =
      fun p ↦ (t.reduced c).left p || (t.reduced c).right p := by
  have hpending : vars.pendingL = (t.reduced c).left := funext fun p ↦ by
    rw [hvars.pendingL, decide_eq_true hc, Bool.and_true]
  refine ⟨hpending, funext fun p ↦ ?_⟩
  have hright := (t.right_reduced c p).1
  rw [hpending]
  simp only [PabloBuilder.streams, hvars.closed p]
  cases hr : (t.reduced c).right p with
  | true => rw [(hright hr).1]; rfl
  | false => cases t.right p <;> rfl

theorem whileBody_eq (h : Within run t) (hvars : After run t m c vars) (hc : c < limit m) :
    NestingDepth.whileBody run m t.left t.right vars =
      let wb := PabloBuilder.streams
      let bscan := scanned run (t.reduced c)
      let nesting :=
        BixNumCompiler.AddModular wb vars.nestingDepth [spanned run (t.reduced c)]
      let tooDeep := wb.createAnd (wb.createAnd bscan t.left) (BixNumCompiler.EQ wb nesting m)
      { nestingDepth := nesting
        closed := wb.createOr vars.closed (wb.createAnd bscan t.right)
        errs := wb.createOr (wb.createOr vars.errs tooDeep) (run.createAtEOF bscan)
        pendingL := wb.createAnd (wb.createAnd bscan t.left) (wb.createNot tooDeep) } := by
  obtain ⟨hpending, hplay⟩ := hvars.inPlay hc
  rw [NestingDepth.whileBody, hplay, hpending, createAdvanceThenScanTo_eq (h.reduced c),
    createInclusiveSpan_eq (h.reduced c)]

theorem scanned_left (h : Within run t) {p : ℕ} :
    (scanned run (t.reduced c) p && t.left p) = (t.reduced (c + 1)).left p := by
  have hleft := (t.left_reduced c p).1
  have hright := (t.right_reduced c p).1
  have hdisjoint := t.disjoint p
  rw [scanned, Brackets.reduced, Brackets.left_reduce, Run.EOFbit]
  cases hl : t.left p with
  | false =>
    rw [Bool.and_false]
    cases hc : (t.reduced c).left p with
    | false => rfl
    | true =>
      rw [(hleft hc).1] at hl
      cases hl
  | true =>
    have hne := (h p (.inl hl)).ne
    rw [Bool.and_true, beq_false_of_ne hne, Bool.or_false]
    cases hc : (t.reduced c).right p with
    | false => rw [Bool.or_false]
    | true =>
      rw [hdisjoint hl] at hright
      cases (hright hc).1

theorem scanned_right (h : Within run t) {p : ℕ} (hr : t.right p = true) :
    (scanned run (t.reduced c) p || !(t.reduced c).right p) =
      !(t.reduced (c + 1)).right p := by
  have hleft := (t.left_reduced c p).1
  have hdisjoint := t.disjoint p
  have hl : (t.reduced c).left p = false := by
    by_contra hl
    rw [hdisjoint (hleft (Bool.of_not_eq_false hl)).1] at hr
    cases hr
  rw [scanned, Brackets.reduced, Brackets.right_reduce, Run.EOFbit, hl,
    beq_false_of_ne (h p (.inr hr)).ne]
  cases (t.reduced c).right p <;> cases (t.reduced c).afterLeft p <;> rfl

theorem scanned_EOF (h : Within run t) :
    scanned run (t.reduced c) run.length = (t.reduced c).afterLeft run.length := by
  rw [scanned, ((h.reduced c).ge le_rfl).1, ((h.reduced c).ge le_rfl).2, Run.EOFbit, beq_self_eq_true]
  rfl

theorem createAtEOF_iff (h : Within run t) {p : ℕ} :
    run.createAtEOF (scanned run (t.reduced c)) p = true ↔
      p = run.length ∧ (t.reduced c).afterLeft p = true := by
  rw [Run.createAtEOF, Run.EOFbit, Bool.and_eq_true, beq_iff_eq, and_comm]
  refine and_congr_right fun hp ↦ ?_
  rw [hp, scanned_EOF h]

theorem After.first (h : Within run t) (hm : 1 ≤ m) :
    After run t m 1 (NestingDepth.firstRound run m t.left t.right) := by
  have hbits : 0 < NestingDepth.mNestingDepthBits m :=
    Nat.clog_pos Nat.one_lt_two (Nat.succ_le_succ hm)
  have hscan : run.createAdvanceThenScanTo t.left
      (PabloBuilder.streams.createOr t.left t.right) = scanned run t :=
    createAdvanceThenScanTo_eq h
  rw [NestingDepth.firstRound, hscan, createInclusiveSpan_eq h]
  refine ⟨?_, fun p ↦ ?_, fun p ↦ ?_, fun p ↦ ?_, fun p ↦ ?_⟩
  · rw [List.length_cons, List.length_replicate]
    omega
  · rw [value_cons, value_replicate_zeroes PabloBuilder.streams_lawful, id,
      counted_succ]
    have hlt := (Bool.toNat_lt (spanned run t p)).trans_le
      (Nat.pow_le_pow_right Nat.two_pos hbits)
    rw [counted, List.range_zero, List.countP_nil, Nat.mul_zero, Nat.zero_add, Nat.add_zero]
    exact (Nat.mod_eq_of_lt hlt).symm
  · have hclosed := @scanned_right run t 0 h p
    simp only [PabloBuilder.streams]
    cases hr : t.right p with
    | false => exact Bool.and_false _
    | true =>
      rw [Brackets.reduced, hr, Bool.not_true, Bool.or_false] at hclosed
      rw [hclosed rfl, Bool.and_true, Bool.true_and]
  · have heof := @createAtEOF_iff run t 0 h p
    refine heof.trans ?_
    constructor
    · rintro ⟨hp, hafter⟩
      exact .inl ⟨hp, 0, Nat.one_pos, hafter⟩
    · rintro (⟨hp, i, hi, hafter⟩ | ⟨-, hlimit⟩)
      · rw [Nat.lt_one_iff.1 hi] at hafter
        exact ⟨hp, hafter⟩
      · exact absurd hlimit (limit_pos hm).ne
  · rw [decide_eq_true (limit_pos hm), Bool.and_true]
    exact scanned_left (c := 0) h

theorem After.step (h : Within run t) (hm : 1 ≤ m) (hvars : After run t m c vars)
    (hpos : 1 ≤ c) (hc : c < limit m) :
    After run t m (c + 1) (NestingDepth.whileBody run m t.left t.right vars) := by
  rw [whileBody_eq h hvars hc]
  have hnesting := BixNumCompiler.addModular_spec PabloBuilder.streams_lawful vars.nestingDepth
    [spanned run (t.reduced c)]
  have hdepth (p : ℕ) : value id p (BixNumCompiler.AddModular .streams vars.nestingDepth
      [spanned run (t.reduced c)]) =
        counted run t (c + 1) p % 2 ^ NestingDepth.mNestingDepthBits m := by
    have hsum := hnesting.2 p
    beta_reduce at hsum
    rw [hsum, hvars.length, hvars.depth, value_cons, value_nil, Nat.mod_add_mod, counted_succ]
    rfl
  -- The only left brackets that are compared with the maximum are those of the round.
  have hdeep (p : ℕ) : ((t.reduced (c + 1)).left p && BixNumCompiler.EQ .streams
      (BixNumCompiler.AddModular .streams vars.nestingDepth [spanned run (t.reduced c)]) m p) =
        ((t.reduced (c + 1)).left p && decide (c + 1 = limit m)) := by
    cases hl : (t.reduced (c + 1)).left p with
    | false => rfl
    | true =>
      have heq := BixNumCompiler.eval_EQ PabloBuilder.streams_lawful
        (n := BixNumCompiler.AddModular .streams vars.nestingDepth [spanned run (t.reduced c)])
        (x := m) (p := p)
      rw [id, hdepth, counted_left h hl] at heq
      rw [heq, Bool.true_and, Bool.true_and, decide_eq_decide, mod_eq_iff hm (by omega) hc]
  refine ⟨?_, hdepth, fun p ↦ ?_, fun p ↦ ?_, fun p ↦ ?_⟩
  · rw [← hvars.length]
    exact hnesting.1
  · have hclosed := @scanned_right run t c h p
    simp only [PabloBuilder.streams, hvars.closed]
    cases hr : t.right p with
    | false => exact Bool.and_false _
    | true => rw [← hclosed hr, Bool.true_and, Bool.true_and, Bool.and_true, Bool.or_comm]
  · have hold := hvars.errs p
    have heof := @createAtEOF_iff run t c h p
    have hround : (scanned run (t.reduced c) p && t.left p && BixNumCompiler.EQ .streams
        (BixNumCompiler.AddModular .streams vars.nestingDepth [spanned run (t.reduced c)]) m p) =
          true ↔ (t.reduced (c + 1)).left p = true ∧ c + 1 = limit m := by
      rw [scanned_left h, hdeep, Bool.and_eq_true, decide_eq_true_iff]
    rw [or_iff_left (fun hlast ↦ hc.ne hlast.2)] at hold
    refine Bool.or_eq_true_iff.trans ?_
    rw [heof]
    refine (or_congr_left (Bool.or_eq_true_iff.trans (or_congr hold hround))).trans ?_
    constructor
    · rintro ((⟨hp, i, hi, hafter⟩ | hround) | ⟨hp, hafter⟩)
      · exact .inl ⟨hp, i, Nat.lt_succ_of_lt hi, hafter⟩
      · exact .inr hround
      · exact .inl ⟨hp, c, Nat.lt_succ_self c, hafter⟩
    · rintro (⟨hp, i, hi, hafter⟩ | hround)
      · rcases Nat.lt_succ_iff_lt_or_eq.1 hi with hlt | rfl
        · exact .inl (.inl ⟨hp, i, hlt, hafter⟩)
        · exact .inr ⟨hp, hafter⟩
      · exact .inl (.inr hround)
  · change (scanned run (t.reduced c) p && t.left p && !(scanned run (t.reduced c) p && t.left p &&
      BixNumCompiler.EQ .streams (BixNumCompiler.AddModular .streams vars.nestingDepth
        [spanned run (t.reduced c)]) m p)) = _
    rw [scanned_left h, hdeep]
    cases (t.reduced (c + 1)).left p with
    | false => rfl
    | true =>
      rw [Bool.true_and, Bool.true_and, Bool.true_and, ← decide_not, decide_eq_decide]
      omega

/-- Without left brackets a round changes nothing. -/
theorem After.idle (hvars : After run t m c vars) (hc : c < limit m)
    (hidle : ∀ p, (t.reduced c).left p = false) : After run t m (c + 1) vars := by
  have hquiet (p : ℕ) : (t.reduced c).afterLeft p = false :=
    (Brackets.reduced_idle hidle 0 p).2.1
  have hnext (p : ℕ) := Brackets.reduced_idle hidle 1 p
  refine ⟨hvars.length, fun p ↦ ?_, fun p ↦ ?_, fun p ↦ ?_, fun p ↦ ?_⟩
  · rw [hvars.depth, counted_succ, spanned, hidle, hquiet, Bool.or_false, Bool.and_false]
    rfl
  · rw [hvars.closed, (hnext p).2.2]
  · rw [hvars.errs, hidle, (hnext p).1]
    simp only [Bool.false_eq_true, false_and, or_false]
    refine and_congr_right fun _ ↦ ?_
    constructor
    · rintro ⟨i, hi, hafter⟩
      exact ⟨i, Nat.lt_succ_of_lt hi, hafter⟩
    · rintro ⟨i, hi, hafter⟩
      rcases Nat.lt_succ_iff_lt_or_eq.1 hi with hlt | rfl
      · exact ⟨i, hlt, hafter⟩
      · rw [hquiet] at hafter
        cases hafter
  · rw [hvars.pendingL, hidle, (hnext p).1]
    rfl

theorem whileLoop_spec (h : Within run t) (hm : 1 ≤ m) {fuel : ℕ} (hfuel : limit m < c + fuel)
    (hpos : 1 ≤ c) (hle : c ≤ limit m) (hvars : After run t m c vars) : ∃ vars',
      NestingDepth.whileLoop run m t.left t.right fuel vars = .ok vars' ∧
        After run t m (limit m) vars' := by
  induction fuel generalizing c vars with
  | zero => omega
  | succ fuel ih =>
    rw [NestingDepth.whileLoop]
    split_ifs with hany
    · have hlt : c < limit m := by
        refine lt_of_le_of_ne hle fun heq ↦ ?_
        obtain ⟨p, -, hp⟩ := List.any_eq_true.1 hany
        rw [hvars.pendingL, decide_eq_false (Nat.not_lt.2 heq.ge), Bool.and_false] at hp
        cases hp
      exact ih (by omega) (Nat.le_add_left 1 c) hlt (hvars.step h hm hpos hlt)
    · refine ⟨vars, rfl, ?_⟩
      have hdone (k : ℕ) (hk : c + k ≤ limit m) : After run t m (c + k) vars := by
        induction k with
        | zero => exact hvars
        | succ k ihk =>
          have hk' : c + k < limit m := hk
          have hround := ihk hk'.le
          have hidle (p : ℕ) : (t.reduced (c + k)).left p = false := by
            by_contra hl
            rw [Bool.not_eq_false] at hl
            have hlt := ((h.reduced (c + k)) p (.inl hl)).trans run.covers
            have hp := Run.eq_false_of_any (Bool.not_eq_true _ ▸ hany) hlt
            rw [hround.pendingL, hl, decide_eq_true hk'] at hp
            cases hp
          exact hround.idle hk' hidle
      obtain ⟨k, hk⟩ := Nat.exists_eq_add_of_le hle
      rw [hk]
      exact hdone k hk.ge


/-- The outputs in terms of the text after the last round. -/
theorem generatePabloMethod_spec (h : Within run t) (hm : 1 ≤ m) {fuel : ℕ}
    (hfuel : limit m ≤ fuel) : ∃ depth errs,
      NestingDepth.generatePabloMethod run m t.left t.right fuel = .ok (depth, errs) ∧
      (∀ p, value id p depth =
        counted run t (limit m) p % 2 ^ NestingDepth.mNestingDepthBits m) ∧
      ∀ p, errs p = true ↔ (p = run.length ∧ ∃ i < limit m, (t.reduced i).afterLeft p = true) ∨
        (t.reduced (limit m)).left p = true ∨ (t.reduced (limit m)).right p = true := by
  have hpos := limit_pos hm
  obtain ⟨vars, hvars, hafter⟩ := whileLoop_spec h hm (show limit m < 1 + fuel by omega) le_rfl
    hpos.le (After.first h hm)
  refine ⟨_, _, by rw [NestingDepth.generatePabloMethod, hvars]; rfl, hafter.depth, fun p ↦ ?_⟩
  have hright : (t.right p && !vars.closed p) = (t.reduced (limit m)).right p := by
    have hsub := (t.right_reduced (limit m) p).1
    rw [hafter.closed]
    cases hr : (t.reduced (limit m)).right p with
    | true => rw [(hsub hr).1]; rfl
    | false => cases t.right p <;> rfl
  refine Bool.or_eq_true_iff.trans ?_
  refine (or_congr (hafter.errs p) (Bool.eq_iff_iff.1 hright)).trans ?_
  rw [or_assoc, and_iff_left rfl]

end Rounds

section Property

variable {run : Run} {t : Brackets} {m n p : ℕ}

/-- A right bracket that closes no left one. -/
def Unmatched (t : Brackets) (p : ℕ) : Prop := t.right p = true ∧ ∀ l, ¬t.Matches l p

/-- A left bracket with as many open brackets around it. -/
def TooDeep (t : Brackets) (m p : ℕ) : Prop := t.left p = true ∧ m ≤ t.depth p

/-- A left bracket that is never closed. -/
def Unclosed (t : Brackets) (p : ℕ) : Prop := t.left p = true ∧ ∀ r, ¬t.Matches p r

/-- The depth counts the pairs around a position where the brackets nest, and the errors tell
where they do not. -/
structure Reports (t : Brackets) (m n : ℕ) (depth : BixNum Stream) (errs : Stream) : Prop where
  depth (hright : ∀ p, ¬Unmatched t p) (hdeep : ∀ p, ¬TooDeep t m p)
    (hleft : ∀ p, ¬Unclosed t p) (p : ℕ) :
    value id p depth = (t.around p).ncard ∧ errs p = false
  any : (∃ p, errs p = true) ↔ (∃ p, Unmatched t p) ∨ (∃ p, TooDeep t m p) ∨ ∃ p, Unclosed t p
  unmatched (p : ℕ) (h : Unmatched t p) : errs p = true
  tooDeep (h : ∃ p, TooDeep t m p) : ∃ p, TooDeep t m p ∧ errs p = true
  unclosed (h : ∃ p, Unclosed t p) : errs n = true

theorem unmatched_iff : Unmatched t p ↔ t.right p = true ∧ t.depth p = 0 := by
  rw [Unmatched]
  exact and_congr_right Brackets.unmatched_iff

theorem exists_tooDeep_iff (h : Within run t) :
    (∃ p, TooDeep t m p) ↔ m < t.deepest run.length := by
  rw [Brackets.lt_deepest_iff]
  refine exists_congr fun p ↦ ?_
  rw [TooDeep, iff_and_self]
  exact fun hp ↦ h p (.inl hp.1)

theorem unclosed_iff (h : Within run t) : Unclosed t p ↔ t.OpenAt p run.length := by
  constructor
  · rintro ⟨hl, hr⟩
    exact (Brackets.not_closed_iff hl (h p (.inl hl))).1 fun r _ ↦ hr r
  · intro hopen
    refine ⟨hopen.left, fun r hm ↦ ?_⟩
    exact (Brackets.not_closed_iff hopen.left hopen.lt).2 hopen r (h r (.inr hm.right)) hm

theorem exists_unclosed_iff (h : Within run t) :
    (∃ p, Unclosed t p) ↔ 0 < t.depth run.length := by
  constructor
  · rintro ⟨p, hp⟩
    exact (Nat.zero_le _).trans_lt ((unclosed_iff h).1 hp).depth_lt
  · intro hpos
    obtain ⟨l, hopen, -⟩ := Brackets.exists_openAt hpos
    exact ⟨l, (unclosed_iff h).2 hopen⟩

/-- Every round before the one in which a left bracket is still there has counted it. -/
theorem le_depth_of_left_reduced {c : ℕ} (hp : (t.reduced c).left p = true) : c ≤ t.depth p := by
  have hdepth := t.depth_reduced c p
  rw [List.countP_eq_length.2 fun i hi ↦ ((t.left_reduced c p).1 hp).2 i (List.mem_range.1 hi),
    List.length_range] at hdepth
  omega

theorem exists_left_reduced_iff (h : Within run t) {c : ℕ} :
    (∃ p, (t.reduced c).left p = true) ↔ c < t.deepest run.length := by
  have hdeep := @Brackets.lt_deepest_iff (t.reduced c) run.length 0
  rw [Brackets.deepest_reduced, Nat.sub_pos_iff_lt] at hdeep
  rw [hdeep]
  refine exists_congr fun p ↦ ?_
  rw [and_iff_left (Nat.zero_le _), iff_and_self]
  exact fun hp ↦ h.reduced c p (.inl hp)

theorem right_reduced_of_unmatched {c : ℕ} (hp : Unmatched t p) :
    (t.reduced c).right p = true := by
  rw [unmatched_iff] at hp
  have hdepth := t.depth_reduced c p
  rw [hp.2, Nat.add_eq_zero_iff, List.countP_eq_zero] at hdepth
  refine (t.right_reduced c p).2 ⟨hp.1, fun i hi ↦ ?_⟩
  exact Bool.not_eq_true _ ▸ hdepth.2 i (List.mem_range.2 hi)

/-- In a text that nests every bracket is gone after the last round. -/
theorem right_reduced_false {c : ℕ} (hright : ∀ p, ¬Unmatched t p)
    (hdeep : t.deepest p ≤ c) : (t.reduced c).right p = false := by
  by_contra hr
  rw [Bool.not_eq_false] at hr
  obtain ⟨hleft, hafter⟩ := (t.right_reduced c p).1 hr
  have hdepth := t.depth_reduced c p
  have hle := (t.reduced c).depth_le_deepest p
  rw [Brackets.deepest_reduced, Nat.sub_eq_zero_of_le hdeep] at hle
  rw [List.countP_eq_zero.2 fun i hi ↦ by rw [hafter i (List.mem_range.1 hi)]; decide] at hdepth
  exact hright p (unmatched_iff.2 ⟨hleft, by omega⟩)

theorem around_ge (h : Within run t) (hp : run.length ≤ p) : (t.around p).ncard = 0 := by
  have hempty : t.around p = ∅ := by
    ext lr
    rw [Brackets.around, Set.mem_ofPred_eq, Set.mem_empty_iff_false, iff_false]
    rintro ⟨hm, -, hle⟩
    have := h lr.2 (.inr hm.right)
    omega
  rw [hempty, Set.ncard_empty]

/-- Where the brackets are balanced, every level around a position has been counted once. -/
theorem counted_eq (h : Within run t) {c : ℕ} (hdeep : t.deepest run.length ≤ c)
    (hn : t.depth run.length = 0) (p : ℕ) : counted run t c p = (t.around p).ncard := by
  rcases Nat.lt_or_ge p run.length with hp | hp
  · have hleft : (t.reduced c).left p = false := by
      by_contra hl
      have := (exists_left_reduced_iff h).1 ⟨p, Bool.of_not_eq_false hl⟩
      omega
    have hdepth := t.depth_reduced c p
    have hle := (t.reduced c).depth_le_deepest p
    rw [Brackets.deepest_reduced, Nat.sub_eq_zero_of_le ((t.deepest_mono hp.le).trans hdeep)] at hle
    rw [Brackets.ncard_around hn hp, ← hdepth, Nat.le_zero.1 hle, Nat.zero_add]
    have hcount := t.count_reduced c p
    rw [hleft, Bool.not_false, Bool.and_true] at hcount
    rw [← hcount, counted]
    refine List.countP_congr fun i _ ↦ ?_
    rw [spanned, decide_eq_true hp.le, Bool.true_and]
  · rw [around_ge h hp, counted, List.countP_eq_zero]
    intro i hi
    have hdepth := t.depth_reduced (i + 1) run.length
    rw [hn, Nat.add_eq_zero_iff, List.countP_eq_zero] at hdepth
    have hafter := hdepth.2 i (List.mem_range.2 (Nat.lt_succ_self i))
    rw [spanned, ((h.reduced i).ge hp).1, Bool.false_or]
    rcases hp.lt_or_eq with hlt | rfl
    · rw [decide_eq_false (Nat.not_le_of_lt hlt), Bool.false_and]
      exact Bool.false_ne_true
    · rwa [decide_eq_true le_rfl, Bool.true_and]

theorem ncard_around_le (h : Within run t) (hn : t.depth run.length = 0) (p : ℕ) :
    (t.around p).ncard ≤ t.deepest run.length := by
  rcases Nat.lt_or_ge p run.length with hp | hp
  · rw [Brackets.ncard_around hn hp]
    refine le_trans ?_ (t.deepest_mono (Nat.succ_le_of_lt hp))
    cases hl : t.left p with
    | true => exact (Brackets.depth_left hl).symm.le.trans (t.depth_le_deepest (p + 1))
    | false => exact (t.depth_le_deepest p).trans (t.deepest_mono (Nat.le_succ p))
  · rw [around_ge h hp]
    exact Nat.zero_le _

/-- The errors of the kernel, in terms of the text after the last round. -/
def Marked (run : Run) (t : Brackets) (m p : ℕ) : Prop :=
  (p = run.length ∧ ∃ i < limit m, (t.reduced i).afterLeft p = true) ∨
    (t.reduced (limit m)).left p = true ∨ (t.reduced (limit m)).right p = true

theorem marked_length (h : Within run t) : Marked run t m run.length ↔
    ∃ i < limit m, (t.reduced i).afterLeft run.length = true := by
  have hge := (h.reduced (limit m)).ge le_rfl
  rw [Marked, hge.1, hge.2]
  simp

theorem marked_left (h : Within run t) (hp : t.left p = true) :
    Marked run t m p ↔ (t.reduced (limit m)).left p = true := by
  have hne := (h p (.inl hp)).ne
  have hright : (t.reduced (limit m)).right p = false := by
    by_contra hr
    have := ((t.right_reduced (limit m) p).1 (Bool.of_not_eq_false hr)).1
    rw [t.disjoint p hp] at this
    cases this
  rw [Marked, hright, or_iff_right (fun hlast ↦ hne hlast.1), or_iff_left Bool.false_ne_true]

theorem marked_tooDeep_iff (h : Within run t) :
    ((∃ p, TooDeep t m p) → ∃ p, TooDeep t m p ∧ Marked run t m p) ↔
      ¬(m = 1 ∧ (t.deepest run.length = 2 ∨ t.deepest run.length = 3)) := by
  have hmarked : (∃ p, TooDeep t m p ∧ Marked run t m p) ↔ limit m < t.deepest run.length := by
    rw [← exists_left_reduced_iff h]
    refine exists_congr fun p ↦ ?_
    constructor
    · rintro ⟨hp, hmark⟩
      exact (marked_left h hp.1).1 hmark
    · intro hleft
      have hp := ((t.left_reduced _ p).1 hleft).1
      exact ⟨⟨hp, (le_limit m).trans (le_depth_of_left_reduced hleft)⟩, (marked_left h hp).2 hleft⟩
  rw [hmarked, exists_tooDeep_iff h, limit]
  split_ifs <;> omega

theorem marked_unclosed_iff (h : Within run t) :
    ((∃ p, Unclosed t p) → Marked run t m run.length) ↔
      ((∃ p, Unclosed t p) → ∃ p, Unclosed t p ∧
        ∀ q, p < q → q ≤ run.length → t.depth q ≤ t.depth p + limit m) := by
  rw [marked_length h, Brackets.afterLeft_reduced_iff]
  refine imp_congr_right fun _ ↦ exists_congr fun p ↦ ?_
  rw [unclosed_iff h]

/-- A text whose brackets nest within the maximum. -/
theorem nests (h : Within run t) (hdeep : ∀ p, ¬TooDeep t m p) (hleft : ∀ p, ¬Unclosed t p) :
    t.deepest run.length ≤ m ∧ t.depth run.length = 0 := by
  constructor
  · by_contra hlt
    obtain ⟨l, hl⟩ := (exists_tooDeep_iff h).2 (Nat.lt_of_not_le hlt)
    exact hdeep l hl
  · by_contra hpos
    obtain ⟨l, hl⟩ := (exists_unclosed_iff h).2 (Nat.pos_of_ne_zero hpos)
    exact hleft l hl

theorem not_marked (h : Within run t) (hright : ∀ p, ¬Unmatched t p)
    (hlimit : t.deepest run.length ≤ limit m) (hdepth : t.depth run.length = 0) :
    ¬Marked run t m p := by
  rintro (⟨rfl, i, -, hafter⟩ | hl | hr)
  · have hpos := Brackets.depth_pos_of_afterLeft hafter
    have hround := t.depth_reduced i run.length
    omega
  · exact Nat.not_lt.2 hlimit ((exists_left_reduced_iff h).1 ⟨p, hl⟩)
  · have hlt := h.reduced _ p (.inr hr)
    rw [right_reduced_false hright ((t.deepest_mono hlt.le).trans hlimit)] at hr
    cases hr

theorem reports_iff (h : Within run t) {depth : BixNum Stream} {errs : Stream}
    (hdepth : ∀ p, value id p depth =
      counted run t (limit m) p % 2 ^ NestingDepth.mNestingDepthBits m)
    (herrs : ∀ p, errs p = true ↔ Marked run t m p) : Reports t m run.length depth errs ↔
      ¬(m = 1 ∧ (t.deepest run.length = 2 ∨ t.deepest run.length = 3)) ∧
      ((∃ p, Unclosed t p) → ∃ p, Unclosed t p ∧
        ∀ q, p < q → q ≤ run.length → t.depth q ≤ t.depth p + limit m) := by
  rw [← marked_tooDeep_iff h, ← marked_unclosed_iff h]
  simp only [← herrs]
  constructor
  · intro hreports
    exact ⟨hreports.tooDeep, hreports.unclosed⟩
  · rintro ⟨htooDeep, hunclosed⟩
    have hunmatched (p : ℕ) (hp : Unmatched t p) : errs p = true :=
      (herrs p).2 (.inr (.inr (right_reduced_of_unmatched hp)))
    refine ⟨fun hright hdeep hleft p ↦ ⟨?_, ?_⟩, ?_, hunmatched, htooDeep, hunclosed⟩
    · obtain ⟨hdeepest, hn⟩ := nests h hdeep hleft
      have hbits : m < 2 ^ NestingDepth.mNestingDepthBits m :=
        Nat.lt_of_succ_le (Nat.le_pow_clog Nat.one_lt_two (m + 1))
      have hle := (ncard_around_le h hn p).trans hdeepest
      rw [hdepth, counted_eq h (hdeepest.trans (le_limit m)) hn,
        Nat.mod_eq_of_lt (hle.trans_lt hbits)]
    · obtain ⟨hdeepest, hn⟩ := nests h hdeep hleft
      exact Bool.not_eq_true _ ▸ fun hp ↦
        not_marked h hright (hdeepest.trans (le_limit m)) hn ((herrs p).1 hp)
    · constructor
      · rintro ⟨p, hp⟩
        by_contra hnone
        rw [not_or, not_or, not_exists, not_exists, not_exists] at hnone
        obtain ⟨hdeepest, hn⟩ := nests h hnone.2.1 hnone.2.2
        exact not_marked h hnone.1 (hdeepest.trans (le_limit m)) hn ((herrs p).1 hp)
      · rintro (⟨p, hp⟩ | hp | hp)
        · exact ⟨p, hunmatched p hp⟩
        · obtain ⟨q, -, hq⟩ := htooDeep hp
          exact ⟨q, hq⟩
        · exact ⟨run.length, hunclosed hp⟩

/-- A run over one block of eight positions. -/
def shortRun (length : ℕ) (h : length < 8) : Run := ⟨8, 1, length, by decide, h⟩

/-- Left brackets, and then as many right ones. -/
def nested (n : ℕ) : Brackets where
  left p := decide (p < n)
  right p := decide (n ≤ p) && decide (p < 2 * n)
  disjoint p h := by
    rw [decide_eq_false (Nat.not_le.2 (of_decide_eq_true h)), Bool.false_and]

theorem within_nested {n : ℕ} (h : 2 * n < 8) : Within (shortRun (2 * n) h) (nested n) := by
  intro p hp
  rw [nested, decide_eq_true_iff, Bool.and_eq_true, decide_eq_true_iff, decide_eq_true_iff] at hp
  change p < 2 * n
  omega

end Property

end Parabix.Util
