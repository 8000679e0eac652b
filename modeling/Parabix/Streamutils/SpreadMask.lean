import Mathlib.Tactic.IntervalCases
import Parabix.Library.Placement
import Parabix.Pablo.BixNumExact
import Parabix.Streamutils.FilterByMask
import Parabix.Streamutils.StreamExpand

namespace Parabix.Streamutils

open Library Library.BitStream IDISA Unicode Pablo

inductive InsertPosition
  | Before
  | After
  deriving DecidableEq

/-- In the final stride the pipeline zeroes an input behind its items. -/
def finalInput (items : ℕ) (s : Stream) : Stream := fun p ↦ decide (p < items) && s p

namespace UnitInsertionExtractionMasks

variable (bw : ℕ) (insertion_mask : BixNum Stream) (items : ℕ)

def fileExtentMask : Stream := fun p ↦ decide (p < items)

def simd_lomask : Stream := fun p ↦ p % 2 == 0

def simd_himask : Stream := fun p ↦ p % 2 == 1

def mask01 : InsertPosition → Stream
  | .Before => simd_himask
  | .After => simd_lomask

/-- A position has a number to insert if a bit of it is set. -/
def insertionMask : Stream := fun p ↦ insertion_mask.any fun bit ↦ bit p

/-- The two blocks of the extraction mask for a block of the input. -/
def extract_mask (pos : InsertPosition) (blk : ℕ) : ℕ → Stream :=
  let insertion_mask := loadInputStreamBlock bw (insertionMask insertion_mask) blk
  let fileExtentMask := loadInputStreamBlock bw (fileExtentMask items) blk
  match pos with
  | .Before => fun
    | 0 => esimd_mergel 1 insertion_mask fileExtentMask
    | _ => esimd_mergeh bw 1 insertion_mask fileExtentMask
  | .After => fun
    | 0 => esimd_mergel 1 fileExtentMask insertion_mask
    | _ => esimd_mergeh bw 1 fileExtentMask insertion_mask

def stream01 (pos : InsertPosition) : Stream := storeOutputStreamBlock bw 2 fun _ _ ↦ mask01 pos

def valid01 (pos : InsertPosition) : Stream :=
  storeOutputStreamBlock bw 2 (extract_mask bw insertion_mask items pos)

end UnitInsertionExtractionMasks

namespace SpreadMaskStep

def lookahead (n : ℕ) (s : Stream) : Stream := fun p ↦ s (p + n)

def HighBits (value : BixNum Stream) (highBitCount : ℕ) : BixNum Stream :=
  value.drop (value.length - highBitCount)

/-- The counts of the positions of which one has been inserted, divided by two. -/
def generatePabloMethod (pos : InsertPosition) (insert_counts : BixNum Stream) : BixNum Stream :=
  let has_insert := [BixNumCompiler.UGT .streams insert_counts 0]
  let remaining_to_insert := BixNumCompiler.SubModular .streams insert_counts has_insert
  let remaining_bits := insert_counts.length - 1
  let divided_counts := HighBits insert_counts remaining_bits
  let divided_remaining := HighBits remaining_to_insert remaining_bits
  List.zipWith (fun count remaining ↦ match pos with
    | .Before => PabloBuilder.streams.createOr remaining (lookahead 1 count)
    | .After => PabloBuilder.streams.createOr count (advance 1 remaining))
    divided_counts divided_remaining

theorem length_generatePabloMethod (pos : InsertPosition) (n : BixNum Stream) :
    (generatePabloMethod pos n).length = n.length - 1 := by
  simp only [generatePabloMethod, HighBits, BixNumCompiler.SubModular, List.length_zipWith,
    List.length_drop, BixNumCompiler.length_subLoop]
  omega

end SpreadMaskStep

/-- What the pipeline leaves open: how the calls of the kernels cut their input, for the widths and
the lengths of the stream sets, and what the buffers have before. -/
structure Calls (v : Vectors) where
  buffer : ℕ → ℕ → BitVec v.fieldWidth
  filterStrides : ℕ → ℕ → List ℕ
  filter_covers : ∀ steps items, items ≤
    v.blockWidth * ((filterStrides steps items).sum * FilterByMaskKernel.BLOCKS_PER_STRIDE)
  countStrides : ℕ → ℕ → List ℕ
  count_covers : ∀ steps items, items ≤
    v.blockWidth * ((countStrides steps items).sum * StreamExpand.StreamExpandStrideSize)
  maskStrides : ℕ → ℕ → List ℕ
  mask_covers : ∀ steps items, items ≤
    v.blockWidth * ((maskStrides steps items).sum * StreamExpand.StreamExpandStrideSize)

section Pipeline

variable (v : Vectors) (calls : Calls v) (pos : InsertPosition)

def UnitInsertionSpreadMask (insertion_mask : BixNum Stream) (items : ℕ) : List Bool :=
  let steps := insertion_mask.length
  let insertion_mask := insertion_mask.map (finalInput items)
  FilterByMaskKernel v (calls.buffer steps)
    (UnitInsertionExtractionMasks.valid01 v.blockWidth insertion_mask items pos) (2 * items)
    (UnitInsertionExtractionMasks.stream01 v.blockWidth pos) (calls.filterStrides steps (2 * items))

/-- The positions of the mask, and their counts at the ones. -/
def spreadCounts (bixNumInsertCount : BixNum Stream) (spread1_mask : List Bool) : BixNum Stream :=
  let steps := bixNumInsertCount.length
  (List.range steps).map (SpreadByMask v.fieldWidth v.fieldsPerBlock .None (ofBits spread1_mask)
    (fun i ↦ bixNumInsertCount.getD i (ofBits [])) 0 (calls.countStrides steps spread1_mask.length))

/-- The mask that is computed with one bit less for each level of the recursion. -/
def InsertionSpreadMask (bixNumInsertCount : BixNum Stream) (items : ℕ) : List Bool :=
  let steps := bixNumInsertCount.length
  if steps ≤ 1 then
    UnitInsertionSpreadMask v calls pos bixNumInsertCount items
  else
    let spread1_mask := UnitInsertionSpreadMask v calls pos bixNumInsertCount items
    let spread_counts := spreadCounts v calls bixNumInsertCount spread1_mask
    let reduced_counts := SpreadMaskStep.generatePabloMethod pos
      (spread_counts.map (finalInput spread1_mask.length))
    let submask := InsertionSpreadMask reduced_counts spread1_mask.length
    (List.range submask.length).map (SpreadByMask v.fieldWidth v.fieldsPerBlock .None
      (ofBits submask) (fun _ ↦ ofBits spread1_mask) 0
      (calls.maskStrides steps submask.length) 0)
termination_by bixNumInsertCount.length
decreasing_by
  simp only [SpreadMaskStep.length_generatePabloMethod, List.length_map, spreadCounts,
    List.length_range]
  omega

end Pipeline

/-- Every kernel may have one call for all of its input. -/
instance instInhabitedCalls (v : Vectors) : Inhabited (Calls v) := by
  have hcovers (strideSize items : ℕ) (hsize : 0 < strideSize) :
      items ≤ v.blockWidth * ([items].sum * strideSize) := by
    rw [List.sum_singleton]
    exact (Nat.le_mul_of_pos_right items hsize).trans (Nat.le_mul_of_pos_left _ v.blockWidth_pos)
  exact ⟨{
    buffer := fun _ _ ↦ 0
    filterStrides := fun _ items ↦ [items]
    filter_covers := fun _ items ↦ hcovers _ items (by decide)
    countStrides := fun _ items ↦ [items]
    count_covers := fun _ items ↦ hcovers _ items (by decide)
    maskStrides := fun _ items ↦ [items]
    mask_covers := fun _ items ↦ hcovers _ items (by decide) }⟩

section Counts

/-- An item and the zeros that are inserted for it. -/
def spreadCode : InsertPosition → ℕ → List Bool
  | .Before, count => List.replicate count false ++ [true]
  | .After, count => true :: List.replicate count false

/-- An item and one inserted position, if there is anything to insert. -/
def unitCode (pos : InsertPosition) (count : ℕ) : List Bool := spreadCode pos (min count 1)

/-- The counts of the positions of an item after the unit insertion. -/
def unitCounts (pos : InsertPosition) (count : ℕ) : List ℕ := place 0 (unitCode pos count) [count]

/-- The counts that are left to insert. -/
def halves (count : ℕ) : List ℕ := if count = 0 then [0] else [count / 2, (count - 1) / 2]

variable {pos : InsertPosition} {count : ℕ}

theorem count_spreadCode : (spreadCode pos count).count true = 1 := by
  cases pos <;> simp [spreadCode, List.count_replicate]

theorem length_unitCode : (unitCode pos count).length = (halves count).length := by
  rw [unitCode, halves]
  cases pos <;> split_ifs with hzero <;> simp [spreadCode, hzero] <;> omega

theorem unitCode_succ (n : ℕ) : unitCode pos (n + 1) = spreadCode pos 1 := by
  rw [unitCode, Nat.min_eq_right (Nat.le_add_left 1 n)]

/-- The zeros of the two halves and the inserted position make up the count. -/
theorem place_halves (pos : InsertPosition) (count : ℕ) :
    place false ((halves count).flatMap (spreadCode pos)) (unitCode pos count) =
      spreadCode pos count := by
  cases count with
  | zero => cases pos <;> rfl
  | succ n =>
    have hsplit : n + 1 = (n + 1) / 2 + 1 + n / 2 := by omega
    rw [unitCode_succ, halves, if_neg (Nat.succ_ne_zero n), Nat.add_sub_cancel, List.flatMap_cons,
      List.flatMap_singleton]
    cases pos with
    | Before =>
      rw [spreadCode, spreadCode, List.append_assoc, place_replicate_false, spreadCode, spreadCode]
      conv_rhs => rw [hsplit]
      simp [place_replicate_false, List.replicate_add]
    | After =>
      conv_rhs => rw [spreadCode, hsplit]
      have hend : place false (List.replicate (n / 2) false) [] =
          List.replicate (n / 2) false := by
        simpa using place_replicate_false (z := false) (m := []) (l := []) (n / 2)
      simp [spreadCode, place_replicate_false, List.replicate_add, hend]

end Counts

section UnitInsertion

open UnitInsertionExtractionMasks

variable {pos : InsertPosition} {c items : ℕ} {n : BixNum Stream}

/-- The two positions for an item, and whether they are taken. -/
def slot (pos : InsertPosition) (n : BixNum Stream) (items : ℕ) : ℕ → Stream :=
  match pos with
  | .Before => fun
    | 0 => insertionMask n
    | _ => fileExtentMask items
  | .After => fun
    | 0 => fileExtentMask items
    | _ => insertionMask n

theorem valid01_apply (hc : 0 < c) (p : ℕ) {l : ℕ} (hl : l < 2) :
    valid01 (2 * c) n items pos (2 * p + l) = slot pos n items l p := by
  refine storeOutputStreamBlock_merge (fun b j i hj _ l hl ↦ ?_) p hl hc
  cases pos with
  | Before =>
    have hpair := @merge_pair c (insertionMask n) (fileExtentMask items) b j i hj l hl
    interval_cases j <;> interval_cases l <;> exact hpair
  | After =>
    have hpair := @merge_pair c (fileExtentMask items) (insertionMask n) b j i hj l hl
    interval_cases j <;> interval_cases l <;> exact hpair

theorem stream01_apply (p : ℕ) : stream01 (2 * c) pos p = mask01 pos p := by
  have hmod : p % (2 * c) % 2 = p % 2 := Nat.mod_mul_right_mod p 2 c
  rw [stream01, storeOutputStreamBlock]
  cases pos <;> simp only [mask01, simd_himask, simd_lomask, hmod]

theorem insertionMask_apply (p : ℕ) :
    insertionMask n p = decide (value id p n ≠ 0) := by
  rw [insertionMask]
  induction n with
  | nil => rfl
  | cons b n ih =>
    rw [List.any_cons, ih, value_cons]
    cases hb : b p <;> simp [hb]

theorem value_finalInput {p : ℕ} : value id p (n.map (finalInput items)) =
    if p < items then value id p n else 0 := by
  induction n with
  | nil => simp
  | cons b n ih =>
    rw [List.map_cons, value_cons, ih, value_cons]
    simp only [id, finalInput]
    split_ifs with hp
    · rw [decide_eq_true hp, Bool.true_and]
    · rw [decide_eq_false hp]
      rfl

/-- The bits of the two positions of every item that are taken. -/
theorem compress_valid01 (hc : 0 < c) (n : BixNum Stream) :
    compress (valid01 (2 * c) (n.map (finalInput items)) items pos) (mask01 pos) 0 (2 * items) =
      ((List.range items).map (value id · n)).flatMap (unitCode pos) := by
  rw [← flatMap_compress, List.flatMap_map]
  refine List.flatMap_congr fun p hp ↦ ?_
  have hitem : fileExtentMask items p = true := decide_eq_true (List.mem_range.1 hp)
  have hvalue := @value_finalInput items n p
  rw [if_pos (List.mem_range.1 hp)] at hvalue
  have hlow := @valid01_apply pos c items (n.map (finalInput items)) hc p 0 (by decide)
  have hhigh := @valid01_apply pos c items (n.map (finalInput items)) hc p 1 (by decide)
  rw [compress_succ, compress_succ, compress_zero, hhigh, Nat.add_zero, ← Nat.add_zero (2 * p), hlow]
  have hparity : 2 * p % 2 = 0 ∧ (2 * p + 1) % 2 = 1 := by omega
  rcases Nat.eq_zero_or_pos (value id p n) with hzero | hsome
  · cases pos <;>
      simp [slot, hitem, insertionMask_apply, hvalue, hzero, unitCode, spreadCode, mask01,
        simd_himask, simd_lomask, hparity]
  · have hone : min (value id p n) 1 = 1 := Nat.min_eq_right hsome
    cases pos <;>
      simp [slot, hitem, insertionMask_apply, hvalue, hsome.ne', unitCode, spreadCode, mask01,
        simd_himask, simd_lomask, hparity, hone]

theorem unitInsertionSpreadMask_eq (v : Vectors) (calls : Calls v) (n : BixNum Stream) :
    UnitInsertionSpreadMask v calls pos n items =
      ((List.range items).map (value id · n)).flatMap (unitCode pos) := by
  obtain ⟨c, hc, hbw⟩ : ∃ c, 0 < c ∧ v.blockWidth = 2 * c := by
    refine ⟨2 ^ v.logFieldWidth * 2 ^ v.logFields,
      Nat.mul_pos (Nat.two_pow_pos _) (Nat.two_pow_pos _), ?_⟩
    rw [Vectors.blockWidth, Vectors.fieldWidth, Vectors.fieldsPerBlock]
    ring
  rw [UnitInsertionSpreadMask, filterByMaskKernel_eq v _ _ _ (calls.filter_covers _ _), hbw,
    ← compress_valid01 hc]
  exact compress_congr (fun _ _ ↦ rfl) fun p _ _ ↦ stream01_apply _

end UnitInsertion

section Step

open SpreadMaskStep

variable {n k : BixNum Stream} {p : ℕ}

theorem value_zipWith_or {f : Stream → Stream → Stream} (e₁ e₂ : Stream → Stream)
    (hf : ∀ a b, f a b p = (e₁ a p || e₂ b p)) (hlen : n.length = k.length) :
    value id p (List.zipWith f n k) = value e₁ p n ||| value e₂ p k := by
  induction n generalizing k with
  | nil =>
    obtain rfl := List.length_eq_zero_iff.1 hlen.symm
    exact (Nat.zero_or 0).symm
  | cons a n ih =>
    cases k with
    | nil => cases hlen
    | cons b k =>
      have hbit (e : Stream → Stream) (a : Stream) (n : BixNum Stream) :
          value e p (a :: n) = Nat.bit (e a p) (value e p n) := rfl
      rw [List.zipWith_cons_cons, hbit, hbit, hbit, ih (Nat.succ.inj hlen), Nat.lor_bit, id, hf]

theorem value_remaining (n : BixNum Stream) (p : ℕ) :
    value id p (BixNumCompiler.SubModular .streams n [BixNumCompiler.UGT .streams n 0]) =
      value id p n - 1 := by
  have hlaw := PabloBuilder.streams_lawful
  have hsub := (BixNumCompiler.subModular_spec hlaw n [BixNumCompiler.UGT .streams n 0]).2 p
  have hlt := @value_lt _ id p n
  have hpow : ((2 ^ n.length : ℕ) : ℤ) = 2 ^ n.length := by push_cast; rfl
  rw [value_cons, value_nil, BixNumCompiler.eval_UGT hlaw, Nat.mul_zero, Nat.add_zero] at hsub
  rcases Nat.eq_zero_or_pos (value id p n) with hzero | hpos
  · rw [hzero] at hsub ⊢
    simpa using hsub
  · rw [decide_eq_true hpos, Bool.toNat_true, Int.emod_eq_of_lt (by omega) (by omega)] at hsub
    omega

theorem value_highBits (n : BixNum Stream) (hlen : 0 < n.length) (e : Stream → Stream) :
    value e p (HighBits n (n.length - 1)) = value e p n / 2 := by
  rw [HighBits, value_drop, show n.length - (n.length - 1) = 1 by omega, pow_one]

/-- What is inserted before a position comes from the position itself and from the item behind. -/
theorem value_step_before (hlen : 0 < n.length) (p : ℕ) :
    value id p (generatePabloMethod .Before n) =
      value id (p + 1) n / 2 ||| (value id p n - 1) / 2 := by
  have hsub : (BixNumCompiler.SubModular .streams n [BixNumCompiler.UGT .streams n 0]).length =
      n.length := BixNumCompiler.length_subLoop
  rw [generatePabloMethod, value_zipWith_or (fun s p ↦ s (p + 1)) id
    (fun a b ↦ Bool.or_comm _ _) (by simp [HighBits, hsub]), value_highBits n hlen, ← hsub,
    value_highBits _ (hsub ▸ hlen), value_remaining]
  rfl

theorem value_step_after (hlen : 0 < n.length) (p : ℕ) :
    value id p (generatePabloMethod .After n) =
      value id p n / 2 ||| (if p = 0 then 0 else (value id (p - 1) n - 1) / 2) := by
  have hsub : (BixNumCompiler.SubModular .streams n [BixNumCompiler.UGT .streams n 0]).length =
      n.length := BixNumCompiler.length_subLoop
  have hadvance (k : BixNum Stream) : value (advance 1) p k =
      if p = 0 then 0 else value id (p - 1) k := by
    induction k with
    | nil => simp
    | cons b k ih =>
      rw [value_cons, ih, value_cons, advance]
      cases p <;> simp
  rw [generatePabloMethod, value_zipWith_or id (advance 1)
    (fun a b ↦ rfl) (by simp [HighBits, hsub]), value_highBits n hlen, ← hsub,
    value_highBits _ (hsub ▸ hlen), hadvance, value_remaining]
  split_ifs <;> simp

variable {C : List ℕ}

/-- The first position of an item has no count before it is divided. -/
theorem unitCounts_head (C : List ℕ) : (C.flatMap (unitCounts .Before)).getD 0 0 = 0 := by
  cases C with
  | nil => rfl
  | cons count C => cases count <;> simp [unitCounts, unitCode, spreadCode]

theorem halves_before (C : List ℕ) (p : ℕ) :
    (C.flatMap (unitCounts .Before)).getD (p + 1) 0 / 2 |||
        ((C.flatMap (unitCounts .Before)).getD p 0 - 1) / 2 =
      (C.flatMap halves).getD p 0 := by
  induction C generalizing p with
  | nil => simp
  | cons count C ih =>
    have hhead := unitCounts_head C
    cases count with
    | zero =>
      have hcounts : unitCounts .Before 0 = [0] := rfl
      have hhalves : halves 0 = [0] := rfl
      rw [List.flatMap_cons, List.flatMap_cons, hcounts, hhalves, List.singleton_append,
        List.singleton_append, List.getD_cons_succ]
      cases p with
      | zero =>
        rw [hhead]
        simp
      | succ p => exact ih p
    | succ c =>
      have hcounts : unitCounts .Before (c + 1) = [0, c + 1] := by
        simp [unitCounts, unitCode_succ, spreadCode]
      have hhalves : halves (c + 1) = [(c + 1) / 2, c / 2] := rfl
      rw [List.flatMap_cons, List.flatMap_cons, hcounts, hhalves]
      cases p with
      | zero => simp
      | succ p =>
        cases p with
        | zero =>
          simp only [List.cons_append, List.nil_append, List.getD_cons_succ, List.getD_cons_zero,
            hhead, Nat.zero_div, Nat.zero_or, Nat.add_sub_cancel]
        | succ p => exact ih p

theorem halves_after (C : List ℕ) (p : ℕ) :
    (C.flatMap (unitCounts .After)).getD p 0 / 2 |||
        (((0 :: C.flatMap (unitCounts .After)).getD p 0 - 1) / 2) =
      (C.flatMap halves).getD p 0 := by
  induction C generalizing p with
  | nil => cases p <;> simp
  | cons count C ih =>
    cases count with
    | zero =>
      have hcounts : unitCounts .After 0 = [0] := rfl
      have hhalves : halves 0 = [0] := rfl
      rw [List.flatMap_cons, List.flatMap_cons, hcounts, hhalves, List.singleton_append,
        List.singleton_append]
      cases p with
      | zero => simp
      | succ p => exact ih p
    | succ c =>
      have hcounts : unitCounts .After (c + 1) = [c + 1, 0] := by
        simp [unitCounts, unitCode_succ, spreadCode]
      have hhalves : halves (c + 1) = [(c + 1) / 2, c / 2] := rfl
      rw [List.flatMap_cons, List.flatMap_cons, hcounts, hhalves]
      cases p with
      | zero => simp
      | succ p =>
        cases p with
        | zero =>
          simp only [List.cons_append, List.nil_append, List.getD_cons_succ, List.getD_cons_zero,
            Nat.zero_div, Nat.zero_or, Nat.add_sub_cancel]
        | succ p => exact ih p

/-- The counts of the inserted and the original positions are the halves. -/
theorem value_step {pos : InsertPosition} (hlen : 0 < n.length)
    (hcounts : ∀ p, value id p n = (C.flatMap (unitCounts pos)).getD p 0) (p : ℕ) :
    value id p (generatePabloMethod pos n) = (C.flatMap halves).getD p 0 := by
  cases pos with
  | Before => rw [value_step_before hlen, hcounts, hcounts, halves_before]
  | After =>
    rw [value_step_after hlen, hcounts, hcounts, ← halves_after]
    cases p <;> simp

end Step

section Recursion

theorem count_unitCode (pos : InsertPosition) (C : List ℕ) :
    (C.flatMap (unitCode pos)).count true = C.length := by
  induction C with
  | nil => rfl
  | cons count C ih =>
    rw [List.flatMap_cons, List.count_append, ih, unitCode, count_spreadCode, List.length_cons,
      Nat.add_comm]

theorem flatMap_unitCounts (pos : InsertPosition) (C : List ℕ) :
    C.flatMap (unitCounts pos) = place 0 (C.flatMap (unitCode pos)) C := by
  have hplace := place_flatMap (z := 0) (f := unitCode pos) (g := fun count ↦ [count])
    (fun count ↦ count_spreadCode) C
  rw [List.flatMap_singleton'] at hplace
  exact hplace.symm

theorem count_halves (pos : InsertPosition) (l : List ℕ) :
    (l.flatMap (spreadCode pos)).count true = l.length := by
  induction l with
  | nil => rfl
  | cons count l ih =>
    rw [List.flatMap_cons, List.count_append, ih, count_spreadCode, List.length_cons, Nat.add_comm]

variable {v : Vectors} {pos : InsertPosition} {items : ℕ} {n : BixNum Stream}

theorem spreadByMask_eq (v : Vectors) (mask : Stream) (toSpread : StreamSet) {strides : List ℕ}
    {items : ℕ} (hcovers : items ≤ v.blockWidth * (strides.sum * StreamExpand.StreamExpandStrideSize))
    (i : ℕ) {p : ℕ} (hp : p < items) :
    SpreadByMask v.fieldWidth v.fieldsPerBlock .None mask toSpread 0 strides i p =
      spread mask (toSpread i) p := by
  have hspread : SpreadByMask v.fieldWidth v.fieldsPerBlock .None mask toSpread 0 strides i p =
      spread mask (toSpread (0 + i)) p := spreadByMask_apply v.fits i (hp.trans_le hcovers)
  rwa [Nat.zero_add] at hspread

theorem length_spreadCounts (calls : Calls v) (mask : List Bool) :
    (spreadCounts v calls n mask).length = n.length := by
  rw [spreadCounts, List.length_map, List.length_range]

/-- The counts are at the ones of the mask. -/
theorem value_spreadCounts (calls : Calls v) {mask : List Bool} {p : ℕ} (hp : p < mask.length) :
    value id p (spreadCounts v calls n mask) =
      if ofBits mask p then value id (rank (ofBits mask) p) n else 0 := by
  have hbits : (spreadCounts v calls n mask).map (fun s ↦ s p) =
      n.map fun s ↦ ofBits mask p && s (rank (ofBits mask) p) := by
    refine List.ext_getElem (by simp [spreadCounts]) fun i hi hi' ↦ ?_
    have hin : i < n.length := by simpa using hi'
    simp only [spreadCounts, List.getElem_map, List.getElem_range,
      spreadByMask_eq v _ _ (calls.count_covers _ _) i hp, spread, List.getD_eq_getElem _ _ hin]
  rw [value, value]
  simp only [id]
  rw [hbits]
  cases ofBits mask p
  · simp [ofDigits_replicate_false]
  · simp

/-- For each input position in order there is a one, with as many zeros before or after it as its
count says, and nothing after the last item. -/
theorem insertionSpreadMask_eq (v : Vectors) (calls : Calls v) (pos : InsertPosition)
    (n : BixNum Stream) (items : ℕ) :
    InsertionSpreadMask v calls pos n items =
      (List.range items).flatMap fun p ↦ spreadCode pos (value id p n) := by
  rw [InsertionSpreadMask]
  split_ifs with hsteps
  · rw [unitInsertionSpreadMask_eq, List.flatMap_map]
    refine List.flatMap_congr fun p _ ↦ ?_
    have hlt := @value_lt _ id p n
    have hone := Nat.pow_le_pow_right Nat.two_pos hsteps
    rw [unitCode, Nat.min_eq_left (by omega)]
  · obtain ⟨C, hC⟩ : ∃ C, C = (List.range items).map (value id · n) := ⟨_, rfl⟩
    obtain ⟨mask, hmask⟩ : ∃ mask, mask = C.flatMap (unitCode pos) := ⟨_, rfl⟩
    have hunit : UnitInsertionSpreadMask v calls pos n items = mask := by
      rw [hmask, hC, unitInsertionSpreadMask_eq]
    have hlength : mask.length = (C.flatMap halves).length := by
      simp only [hmask, List.length_flatMap, length_unitCode]
    obtain ⟨counts, hcounts⟩ : ∃ counts,
      counts = (spreadCounts v calls n mask).map (finalInput mask.length) := ⟨_, rfl⟩
    have hvalues (p : ℕ) : value id p counts = (C.flatMap (unitCounts pos)).getD p 0 := by
      rw [hcounts, value_finalInput, flatMap_unitCounts, ← hmask, getD_place]
      split_ifs with hp hone hone
      · have hrank : rank (ofBits mask) p < items := by
          have hones : rank (ofBits mask) mask.length = items := by
            rw [rank_ofBits_length, hmask, count_unitCode, hC, List.length_map, List.length_range]
          exact hones ▸ rank_lt_of_true hone hp
        have hget : C.getD (rank (ofBits mask) p) 0 = value id (rank (ofBits mask) p) n := by
          rw [hC, List.getD_eq_getElem _ _ (by simpa using hrank), List.getElem_map,
            List.getElem_range]
        rw [value_spreadCounts calls hp, if_pos hone, hget]
      · rw [value_spreadCounts calls hp, if_neg hone]
      · have hpast : ofBits mask p = false := List.getD_eq_default _ _ (Nat.le_of_not_lt hp)
        exact absurd (hpast.symm.trans hone) Bool.false_ne_true
      · rfl
    have hlen : counts.length = n.length := by
      rw [hcounts, List.length_map, length_spreadCounts]
    have hreduced (p : ℕ) : value id p (SpreadMaskStep.generatePabloMethod pos counts) =
        (C.flatMap halves).getD p 0 := value_step (by omega) hvalues p
    have hsub : InsertionSpreadMask v calls pos (SpreadMaskStep.generatePabloMethod pos counts)
        mask.length = (C.flatMap halves).flatMap (spreadCode pos) := by
      rw [insertionSpreadMask_eq]
      simp only [hreduced]
      rw [hlength, ← List.flatMap_map (f := fun p ↦ (C.flatMap halves).getD p 0), map_getD_range]
    have hfinal : place false ((C.flatMap halves).flatMap (spreadCode pos)) mask =
        C.flatMap (spreadCode pos) := by
      rw [hmask, List.flatMap_assoc, place_flatMap]
      · simp only [place_halves]
      · intro count
        rw [count_halves, length_unitCode]
    have hcodes : ((List.range items).flatMap fun p ↦ spreadCode pos (value id p n)) =
        C.flatMap (spreadCode pos) := by rw [hC, List.flatMap_map]
    simp only [hunit, ← hcounts, hsub]
    rw [hcodes, ← hfinal]
    refine List.ext_getElem (by simp) fun p hp hp' ↦ ?_
    have hin : p < ((C.flatMap halves).flatMap (spreadCode pos)).length := by simpa using hp
    rw [List.getElem_map, List.getElem_range, spreadByMask_eq v _ _ (calls.mask_covers _ _) 0 hin,
      spread_ofBits, List.getD_eq_getElem _ _ hp']
termination_by n.length
decreasing_by
  rw [SpreadMaskStep.length_generatePabloMethod]
  omega

end Recursion

end Parabix.Streamutils
