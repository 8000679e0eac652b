import Parabix.IDISA.Moves
import Parabix.IDISA.Vectors
import Parabix.Streamutils.StreamExpand

namespace Parabix.Streamutils

open Library Library.BitStream IDISA Unicode

namespace FilterByMaskKernel

/-- The strides are of sixteen blocks. -/
def BLOCKS_PER_STRIDE : ℕ := 16

/-- The output as fields, counted from its first one. -/
structure State (mFW : ℕ) where
  producedOffset : ℕ
  pendingData : BitVec mFW
  filteredOutput : ℕ → BitVec mFW

section Kernel

variable (v : Vectors) (extractionMask input : Stream)

/-- The place of a field in the output, of which `producedBlock` blocks were produced before. -/
def fieldNo (producedBlock producedOffset : ℕ) : ℕ :=
  let outputBlock := producedOffset >>> Nat.log2 v.blockWidth
  let fieldIndex := (producedOffset &&& (v.blockWidth - 1)) >>> Nat.log2 v.fieldWidth
  (producedBlock + outputBlock) * v.fieldsPerBlock + fieldIndex

/-- The selected items of a field go behind the pending ones, and what is too much is pending. -/
def extractField (producedBlock : ℕ) (extractionMask input : Stream) (s : State v.fieldWidth)
    (i : ℕ) : State v.fieldWidth :=
  let pendingOffset := s.producedOffset &&& (v.fieldWidth - 1)
  let newItemCount := field v.fieldWidth (simd_popcount v.fieldWidth extractionMask) i
  let pendingSpace := v.fieldWidth - pendingOffset
  let maskedSpace := pendingSpace &&& (v.fieldWidth - 1)
  let compressed := BitVec.ofNat v.fieldWidth
    (field v.fieldWidth (simd_pext v.fieldWidth input extractionMask) i)
  let combined := s.pendingData ||| compressed <<< pendingOffset
  -- A shift by the full field width is avoided.
  let overFlow := if maskedSpace = 0 then 0 else compressed >>> maskedSpace
  { producedOffset := s.producedOffset + newItemCount
    pendingData := if pendingSpace ≤ newItemCount then overFlow else combined
    filteredOutput := Function.update s.filteredOutput (fieldNo v producedBlock s.producedOffset)
      combined }

def processBlock (producedBlock : ℕ) (s : State v.fieldWidth) (blockNo : ℕ) : State v.fieldWidth :=
  let extractionMask := loadInputStreamBlock v.blockWidth extractionMask blockNo
  let input := loadInputStreamBlock v.blockWidth input blockNo
  if StreamExpand.bitblock_any v.blockWidth extractionMask then
    (List.range v.fieldsPerBlock).foldl (extractField v producedBlock extractionMask input) s
  else
    s

/-- One call, for the blocks of `numOfStrides` strides. In the final one the pending items are
written. -/
def generateMultiBlockLogic (isFinal : Bool) (inputBlock produced numOfStrides : ℕ)
    (pendingData : BitVec v.fieldWidth) (filteredOutput : ℕ → BitVec v.fieldWidth) :
    State v.fieldWidth :=
  let producedBlock := produced / v.blockWidth
  let s := (List.range' inputBlock (numOfStrides * BLOCKS_PER_STRIDE)).foldl
    (processBlock v extractionMask input producedBlock)
    { producedOffset := produced &&& (v.blockWidth - 1)
      pendingData
      filteredOutput }
  if isFinal ∧ s.producedOffset &&& (v.fieldWidth - 1) ≠ 0 then
    { s with filteredOutput :=
        Function.update s.filteredOutput (fieldNo v producedBlock s.producedOffset) s.pendingData }
  else
    s

/-- The calls for the segments of the input, of which the last one is final. The output is produced
at the rate of the population of the mask. -/
def segments (inputBlock produced : ℕ) (pendingData : BitVec v.fieldWidth)
    (filteredOutput : ℕ → BitVec v.fieldWidth) : List ℕ → ℕ → BitVec v.fieldWidth
  | [] => filteredOutput
  | numOfStrides :: rest =>
    let numOfBlocks := numOfStrides * BLOCKS_PER_STRIDE
    let s := generateMultiBlockLogic v extractionMask input rest.isEmpty inputBlock produced
      numOfStrides pendingData filteredOutput
    segments (inputBlock + numOfBlocks)
      (produced + pop extractionMask (v.blockWidth * inputBlock) (v.blockWidth * numOfBlocks))
      s.pendingData s.filteredOutput rest

end Kernel

end FilterByMaskKernel

/-- The items that one stream has at the ones of a mask of as many items; the buffer of the output
has any contents before. -/
def FilterByMaskKernel (v : Vectors) (buffer : ℕ → BitVec v.fieldWidth) (mask : Stream) (items : ℕ)
    (input : Stream) (strides : List ℕ) : List Bool :=
  let output := FilterByMaskKernel.segments v mask input 0 0 0 buffer strides
  (List.range (rank mask items)).map fun p ↦
    (output (p / v.fieldWidth)).getLsbD (p % v.fieldWidth)

namespace FilterByMaskKernel

section Fields

variable {v : Vectors} {producedBlock : ℕ} {bits l : List Bool} {s : State v.fieldWidth}

/-- The fields of the output, one after the other. -/
theorem fieldNo_eq {r offset : ℕ} (h : v.blockWidth * producedBlock + offset = r) :
    fieldNo v producedBlock offset = r / v.fieldWidth := by
  have hdiv := Nat.div_add_mod offset v.blockWidth
  have hlogBlock : Nat.log2 v.blockWidth = v.logFieldWidth + 1 + v.logFields := by
    rw [v.blockWidth_eq, Nat.log2_two_pow]
  have hlogField : Nat.log2 v.fieldWidth = v.logFieldWidth + 1 := Nat.log2_two_pow
  have hsplit : r = v.fieldWidth * ((producedBlock + offset / v.blockWidth) * v.fieldsPerBlock) +
      offset % v.blockWidth := by
    rw [← h, ← hdiv, Nat.mul_add_mod, Nat.mod_mod, Nat.mul_add_div v.blockWidth_pos,
      Nat.div_eq_of_lt (Nat.mod_lt _ v.blockWidth_pos), Vectors.blockWidth]
    ring
  rw [fieldNo, v.and_blockWidth, hlogBlock, hlogField, Nat.shiftRight_eq_div_pow,
    Nat.shiftRight_eq_div_pow, ← v.blockWidth_eq, ← Vectors.fieldWidth, hsplit,
    Nat.mul_add_div v.fieldWidth_pos]

/-- The items up to the last full field are written, and those behind it are pending. -/
structure Holds (v : Vectors) (producedBlock : ℕ) (bits : List Bool) (s : State v.fieldWidth) :
    Prop where
  count : v.blockWidth * producedBlock + s.producedOffset = bits.length
  pending : Spells s.pendingData (bits.drop (v.fieldWidth * (bits.length / v.fieldWidth)))
  written : ∀ j < bits.length / v.fieldWidth,
    Spells (s.filteredOutput j) (bits.drop (v.fieldWidth * j))

theorem Holds.pendingOffset (h : Holds v producedBlock bits s) :
    s.producedOffset % v.fieldWidth = bits.length % v.fieldWidth := by
  rw [← h.count, Vectors.blockWidth, Nat.mul_assoc, Nat.mul_add_mod]

/-- A full word stays as it is when items follow. -/
theorem spells_append {w : ℕ} {x : BitVec w} (h : Spells x bits) (hfull : w ≤ bits.length) :
    Spells x (bits ++ l) := by
  intro k hk
  rw [h k hk, List.getD_append _ _ _ _ (by omega)]

theorem Holds.extractField {extractionMask input : Stream} {i : ℕ}
    (h : Holds v producedBlock bits s) :
    Holds v producedBlock (bits ++ selected extractionMask input v.fieldWidth i)
      (extractField v producedBlock extractionMask input s i) := by
  obtain ⟨l, hl⟩ : ∃ l, l = selected extractionMask input v.fieldWidth i := ⟨_, rfl⟩
  have hlen : l.length ≤ v.fieldWidth := hl ▸ length_selected_le
  have hcount : field v.fieldWidth (simd_popcount v.fieldWidth extractionMask) i = l.length := by
    rw [hl, length_selected, simd_popcount, field_ofFields, pop]
    exact Nat.mod_eq_of_lt ((rank_le _ _).trans_lt Nat.lt_two_pow_self)
  have hcompressed : BitVec.ofNat v.fieldWidth
      (field v.fieldWidth (simd_pext v.fieldWidth input extractionMask) i) =
        ofBools v.fieldWidth l := by
    rw [hl, Vectors.fieldWidth, field_simd_pext, ofBools]
  have hpos := v.fieldWidth_pos
  have hdiv := Nat.div_add_mod bits.length v.fieldWidth
  have hmod := Nat.mod_lt bits.length hpos
  have hdrop (j : ℕ) (hj : v.fieldWidth * j ≤ bits.length) :
      (bits ++ l).drop (v.fieldWidth * j) = bits.drop (v.fieldWidth * j) ++ l :=
    List.drop_append_of_le_length hj
  have hcombined : Spells (s.pendingData ||| ofBools v.fieldWidth l <<<
      (bits.length % v.fieldWidth))
        ((bits ++ l).drop (v.fieldWidth * (bits.length / v.fieldWidth))) := by
    rw [hdrop _ (by omega), BitVec.or_comm]
    refine h.pending.append ?_ (spells_ofBools _ l)
    rw [List.length_drop]
    omega
  have hold (j : ℕ) (hj : j < bits.length / v.fieldWidth) (x : BitVec v.fieldWidth) :
      Spells (Function.update s.filteredOutput (bits.length / v.fieldWidth) x j)
        ((bits ++ l).drop (v.fieldWidth * j)) := by
    have hnext : v.fieldWidth * (j + 1) ≤ v.fieldWidth * (bits.length / v.fieldWidth) :=
      Nat.mul_le_mul_left _ hj
    rw [Nat.mul_succ] at hnext
    rw [Function.update_of_ne hj.ne, hdrop j (by omega)]
    refine spells_append (h.written j hj) ?_
    rw [List.length_drop]
    omega
  rw [FilterByMaskKernel.extractField, v.and_fieldWidth, v.and_fieldWidth, h.pendingOffset, hcount,
    hcompressed, fieldNo_eq h.count, ← hl]
  by_cases hfilled : v.fieldWidth - bits.length % v.fieldWidth ≤ l.length
  · have hnext : (bits ++ l).length / v.fieldWidth = bits.length / v.fieldWidth + 1 := by
      rw [List.length_append, Nat.div_eq_iff hpos, Nat.succ_mul, Nat.mul_comm]
      omega
    refine ⟨?_, ?_, fun j hj ↦ ?_⟩
    · rw [List.length_append, ← h.count, Nat.add_assoc]
    · have hrest : (bits ++ l).drop (v.fieldWidth * (bits.length / v.fieldWidth + 1)) =
          l.drop (v.fieldWidth - bits.length % v.fieldWidth) := by
        rw [Nat.mul_succ, List.drop_append, List.drop_of_length_le (by omega),
          List.nil_append]
        congr 1
        omega
      rw [hnext, hrest]
      simp only [if_pos hfilled]
      by_cases hzero : bits.length % v.fieldWidth = 0
      · rw [hzero, Nat.sub_zero, Nat.mod_self, if_pos rfl, List.drop_of_length_le hlen]
        exact spells_zero 0
      · rw [Nat.mod_eq_of_lt (show v.fieldWidth - bits.length % v.fieldWidth < v.fieldWidth by omega),
          if_neg (by omega)]
        exact (spells_ofBools _ l).drop hlen _
    · rw [hnext] at hj
      rcases Nat.lt_succ_iff_lt_or_eq.1 hj with hlt | rfl
      · exact hold j hlt _
      · simpa only [Function.update_self] using hcombined
  · have hsame : (bits ++ l).length / v.fieldWidth = bits.length / v.fieldWidth := by
      rw [List.length_append, Nat.div_eq_iff hpos, Nat.mul_comm]
      omega
    refine ⟨?_, ?_, fun j hj ↦ ?_⟩
    · rw [List.length_append, ← h.count, Nat.add_assoc]
    · rw [hsame]
      simp only [if_neg hfilled]
      exact hcombined
    · exact hold j (hsame ▸ hj) _

end Fields

section Blocks

variable {v : Vectors} {producedBlock inputBlock : ℕ} {bits : List Bool} {mask input : Stream}
  {s : State v.fieldWidth}

theorem rank_of_not_any {m : Stream} {n : ℕ} (h : StreamExpand.bitblock_any n m = false) :
    ∀ p < n, m p = false := by
  intro p hp
  rw [StreamExpand.bitblock_any, List.any_eq_false] at h
  exact Bool.eq_false_iff.2 (h p (List.mem_range.2 hp))

theorem Holds.processBlock (h : Holds v producedBlock bits s) (blockNo : ℕ) :
    Holds v producedBlock (bits ++ compress mask input (v.blockWidth * blockNo) v.blockWidth)
      (processBlock v mask input producedBlock s blockNo) := by
  rw [FilterByMaskKernel.processBlock, compress_shift]
  split_ifs with hany
  · have hfields (n : ℕ) : Holds v producedBlock
        (bits ++ compress (loadInputStreamBlock v.blockWidth mask blockNo)
          (loadInputStreamBlock v.blockWidth input blockNo) 0 (v.fieldWidth * n))
        ((List.range n).foldl (FilterByMaskKernel.extractField v producedBlock
          (loadInputStreamBlock v.blockWidth mask blockNo)
          (loadInputStreamBlock v.blockWidth input blockNo)) s) := by
      induction n with
      | zero =>
        rw [Nat.mul_zero, compress_zero, List.append_nil]
        exact h
      | succ n ih =>
        rw [List.range_succ, List.foldl_append, Nat.mul_succ, compress_append, Nat.zero_add,
          ← List.append_assoc]
        exact ih.extractField
    exact hfields v.fieldsPerBlock
  · rw [compress_of_false, List.append_nil]
    · exact h
    · intro p hp
      rw [Nat.zero_add]
      exact rank_of_not_any (Bool.eq_false_iff.2 hany) p hp

/-- The blocks of one call, from the selected items of the blocks before. -/
theorem Holds.blocks (h : Holds v producedBlock
    (compress mask input 0 (v.blockWidth * inputBlock)) s) (n : ℕ) :
    Holds v producedBlock (compress mask input 0 (v.blockWidth * (inputBlock + n)))
      ((List.range' inputBlock n).foldl (FilterByMaskKernel.processBlock v mask input producedBlock)
        s) := by
  induction n with
  | zero => exact h
  | succ n ih =>
    rw [List.range'_concat, List.foldl_append, Nat.one_mul, ← Nat.add_assoc, Nat.mul_succ,
      compress_append, Nat.zero_add]
    exact ih.processBlock _

/-- What a call that is not the final one leaves. -/
structure Pending (v : Vectors) (bits : List Bool) (pendingData : BitVec v.fieldWidth)
    (filteredOutput : ℕ → BitVec v.fieldWidth) : Prop where
  pending : Spells pendingData (bits.drop (v.fieldWidth * (bits.length / v.fieldWidth)))
  written : ∀ j < bits.length / v.fieldWidth,
    Spells (filteredOutput j) (bits.drop (v.fieldWidth * j))

/-- After the final call the fields have all items. -/
def Written (v : Vectors) (bits : List Bool) (filteredOutput : ℕ → BitVec v.fieldWidth) : Prop :=
  ∀ p < bits.length, (filteredOutput (p / v.fieldWidth)).getLsbD (p % v.fieldWidth) =
    bits.getD p false

theorem written_of_fields {filteredOutput : ℕ → BitVec v.fieldWidth}
    (h : ∀ j, v.fieldWidth * j < bits.length →
      Spells (filteredOutput j) (bits.drop (v.fieldWidth * j))) :
    Written v bits filteredOutput := by
  intro p hp
  have hdiv := Nat.div_add_mod p v.fieldWidth
  rw [h _ (by omega) _ (Nat.mod_lt p v.fieldWidth_pos), List.getD_eq_getElem?_getD,
    List.getElem?_drop, hdiv, List.getD_eq_getElem?_getD]

theorem generateMultiBlockLogic_holds (isFinal : Bool) (numOfStrides : ℕ) {produced : ℕ}
    {pendingData : BitVec v.fieldWidth} {filteredOutput : ℕ → BitVec v.fieldWidth}
    (hproduced : produced = rank mask (v.blockWidth * inputBlock))
    (h : Pending v (compress mask input 0 (v.blockWidth * inputBlock)) pendingData filteredOutput)
    {bits : List Bool} (hbits : bits = compress mask input 0
      (v.blockWidth * (inputBlock + numOfStrides * BLOCKS_PER_STRIDE)))
    {s : State v.fieldWidth} (hs : s = generateMultiBlockLogic v mask input isFinal inputBlock
      produced numOfStrides pendingData filteredOutput) :
    (isFinal = false → Pending v bits s.pendingData s.filteredOutput) ∧
      (isFinal = true → Written v bits s.filteredOutput) := by
  have hlen := length_compress mask input 0 (v.blockWidth * inputBlock)
  rw [rank_zero, Nat.zero_add, Nat.zero_add] at hlen
  have hstart : Holds v (produced / v.blockWidth)
      (compress mask input 0 (v.blockWidth * inputBlock))
      ⟨produced &&& (v.blockWidth - 1), pendingData, filteredOutput⟩ := by
    refine ⟨?_, h.pending, h.written⟩
    rw [v.and_blockWidth, Nat.div_add_mod, hproduced, hlen]
  have hend := hstart.blocks (numOfStrides * BLOCKS_PER_STRIDE)
  rw [← hbits] at hend
  rw [generateMultiBlockLogic] at hs
  generalize (List.range' inputBlock (numOfStrides * BLOCKS_PER_STRIDE)).foldl _ _ = r at hs hend
  have hpos := v.fieldWidth_pos
  have hdiv := Nat.div_add_mod bits.length v.fieldWidth
  have hfull (j : ℕ) (hj : v.fieldWidth * j < bits.length) : j ≤ bits.length / v.fieldWidth :=
    (Nat.le_div_iff_mul_le hpos).2 (by rw [Nat.mul_comm]; exact hj.le)
  simp only [v.and_fieldWidth, hend.pendingOffset, fieldNo_eq hend.count] at hs
  split_ifs at hs with hlast
  · refine ⟨fun hmore ↦ absurd hlast.1 (by rw [hmore]; decide), fun _ ↦ ?_⟩
    refine written_of_fields fun j hj ↦ ?_
    rw [hs]
    rcases Nat.lt_or_eq_of_le (hfull j hj) with hlt | rfl
    · simpa only [Function.update_of_ne hlt.ne] using hend.written j hlt
    · simpa only [Function.update_self] using hend.pending
  · refine ⟨fun _ ↦ ⟨hs ▸ hend.pending, hs ▸ hend.written⟩, fun hfinal ↦ ?_⟩
    refine written_of_fields fun j hj ↦ ?_
    rw [hs]
    refine hend.written j ((Nat.lt_or_eq_of_le (hfull j hj)).resolve_right fun heq ↦ ?_)
    rw [heq] at hj
    exact hlast ⟨hfinal, by omega⟩

end Blocks

section Segments

variable {v : Vectors} {mask input : Stream}

theorem segments_written {inputBlock produced : ℕ} {pendingData : BitVec v.fieldWidth}
    {filteredOutput : ℕ → BitVec v.fieldWidth} {strides : List ℕ} (hstrides : strides ≠ [])
    (hproduced : produced = rank mask (v.blockWidth * inputBlock))
    (h : Pending v (compress mask input 0 (v.blockWidth * inputBlock)) pendingData filteredOutput) :
    Written v (compress mask input 0
        (v.blockWidth * (inputBlock + strides.sum * BLOCKS_PER_STRIDE)))
      (segments v mask input inputBlock produced pendingData filteredOutput strides) := by
  induction strides generalizing inputBlock produced pendingData filteredOutput with
  | nil => exact absurd rfl hstrides
  | cons numOfStrides rest ih =>
    have hcall := generateMultiBlockLogic_holds rest.isEmpty numOfStrides hproduced h rfl rfl
    have hnext : produced + pop mask (v.blockWidth * inputBlock)
        (v.blockWidth * (numOfStrides * BLOCKS_PER_STRIDE)) =
          rank mask (v.blockWidth * (inputBlock + numOfStrides * BLOCKS_PER_STRIDE)) := by
      rw [hproduced, ← rank_add_pop, Nat.mul_add]
    rw [segments, List.sum_cons]
    cases rest with
    | nil => exact hcall.2 rfl
    | cons next rest =>
      rw [Nat.add_mul, ← Nat.add_assoc]
      exact ih (List.cons_ne_nil next rest) hnext (hcall.1 rfl)

end Segments

end FilterByMaskKernel

/-- The selected items, for any segmentation of the mask. -/
theorem filterByMaskKernel_eq (v : Vectors) (buffer : ℕ → BitVec v.fieldWidth) (mask : Stream)
    {items : ℕ} (input : Stream) {strides : List ℕ} (hitems : items ≤
      v.blockWidth * (strides.sum * FilterByMaskKernel.BLOCKS_PER_STRIDE)) :
    FilterByMaskKernel v buffer mask items input strides = compress mask input 0 items := by
  rw [FilterByMaskKernel]
  rcases eq_or_ne strides [] with rfl | hstrides
  · obtain rfl : items = 0 := by simpa using hitems
    rfl
  · have hempty : FilterByMaskKernel.Pending v (compress mask input 0 (v.blockWidth * 0)) 0 buffer :=
      ⟨by simpa using spells_zero 0, fun j hj ↦ absurd hj (by simp)⟩
    have hwritten := FilterByMaskKernel.segments_written hstrides (rank_zero mask).symm hempty
    obtain ⟨rest, hrest⟩ := Nat.exists_eq_add_of_le hitems
    have hlen := length_compress mask input 0 items
    rw [rank_zero, Nat.zero_add, Nat.zero_add] at hlen
    rw [Nat.zero_add, hrest, compress_append] at hwritten
    refine List.ext_getElem (by rw [List.length_map, List.length_range, hlen]) fun p hp hp' ↦ ?_
    rw [List.getElem_map, List.getElem_range, hwritten p (by rw [List.length_append]; omega),
      List.getD_append _ _ _ _ hp', List.getD_eq_getElem _ _ hp']

end Parabix.Streamutils
