import Parabix.IDISA.Moves
import Parabix.Library.EachFrom
import Parabix.Unicode.DepositMask

namespace Parabix.Streamutils

open Library Library.BitStream IDISA Unicode

/-- A set of streams. -/
abbrev StreamSet := ℕ → Stream

inductive StreamExpandOptimization
  | None
  | NullCheck
  deriving DecidableEq

namespace StreamExpand

/-- The strides are of four blocks. -/
def StreamExpandStrideSize : ℕ := 4

section Block

variable (fw count : ℕ) (deposit_mask : Stream) (pendingOffset : ℕ) (pending source : Stream)

/-- A full block of source bits from the offset on, as far as the source has been loaded. -/
def toExpand : Stream :=
  let pendingItems := fw * count - pendingOffset
  let field_offset_lo := (pendingItems + (fw - 1)) / fw
  let bit_offset := simd_fill fw (pendingOffset % fw)
  let field_offset_hi := pendingItems / fw
  -- A shift by the full field width is avoided.
  let shift_fwd := ofFields fw fun i ↦ (fw - field fw bit_offset i) % fw
  let A := simd_srlv fw (mvmd_dsll fw count source pending field_offset_lo) bit_offset
  let B := simd_sllv fw (mvmd_dsll fw count source pending field_offset_hi) shift_fwd
  simd_or A B

def partialSum : Stream := hsimd_partial_sum fw count (simd_popcount fw deposit_mask)

def blockPopCount : ℕ := field fw (partialSum fw count deposit_mask) (count - 1)

/-- The source bits distributed to the output fields. -/
def expanded : Stream :=
  let full_source_block := toExpand fw count pendingOffset pending source
  let partialSum := mvmd_slli fw (partialSum fw count deposit_mask) 1
  let source_field_lo := ofFields fw fun i ↦ field fw partialSum i / fw
  let source_field_hi := ofFields fw fun i ↦ (field fw partialSum i + (fw - 1)) % 2 ^ fw / fw
  let source_shift_lo := ofFields fw fun i ↦ field fw partialSum i &&& (fw - 1)
  let source_shift_hi := ofFields fw fun i ↦ (fw - field fw source_shift_lo i) &&& (fw - 1)
  let C := simd_srlv fw (mvmd_shuffle fw count full_source_block source_field_lo) source_shift_lo
  let D := simd_sllv fw (mvmd_shuffle fw count full_source_block source_field_hi) source_shift_hi
  simd_or C D

end Block

section Kernel

variable (fw count : ℕ) (mOptimization : StreamExpandOptimization) (marker : Stream)
  (source : StreamSet) (streamBase : ℕ)

def bitblock_any (bw : ℕ) (a : Stream) : Bool := (List.range bw).any a

/-- The blocks of the output for the next `numOfBlocks` blocks of the marker. Source blocks are
counted from the one in which the processed items end. -/
def expandLoop (markerBlock sourceBlock : ℕ) :
    ℕ → (blockNo pendingOffset : ℕ) → (pendingData : StreamSet) → List StreamSet
  | 0, _, _, _ => []
  | numOfBlocks + 1, blockNo, pendingOffset, pendingData =>
    let deposit_mask := loadInputStreamBlock (fw * count) marker (markerBlock + blockNo)
    if mOptimization = .NullCheck ∧ bitblock_any (fw * count) deposit_mask = false then
      (fun _ _ ↦ false) ::
        expandLoop markerBlock sourceBlock numOfBlocks (blockNo + 1) pendingOffset pendingData
    else
      let newPendingOffset := pendingOffset + blockPopCount fw count deposit_mask
      let srcBlockNo := newPendingOffset / (fw * count)
      let sourceData : StreamSet := fun i ↦
        loadInputStreamBlock (fw * count) (source (streamBase + i)) (sourceBlock + srcBlockNo)
      (fun i ↦ expanded fw count deposit_mask (pendingOffset % (fw * count)) (pendingData i)
          (sourceData i)) ::
        expandLoop markerBlock sourceBlock numOfBlocks (blockNo + 1) newPendingOffset sourceData

/-- One call, for the blocks of `numOfStrides` strides. -/
def generateMultiBlockLogic (markerBlock processedSourceItems numOfStrides : ℕ) : List StreamSet :=
  let sourceBlock := processedSourceItems / (fw * count)
  let pendingData : StreamSet := fun i ↦
    loadInputStreamBlock (fw * count) (source (streamBase + i)) sourceBlock
  expandLoop fw count mOptimization marker source streamBase markerBlock sourceBlock
    (numOfStrides * StreamExpandStrideSize) 0 (processedSourceItems % (fw * count)) pendingData

/-- The calls for the segments of the input. The source is processed at the rate of the population
of the marker. -/
def segments (markerBlock processedSourceItems : ℕ) : List ℕ → List StreamSet
  | [] => []
  | numOfStrides :: rest =>
    let numOfBlocks := numOfStrides * StreamExpandStrideSize
    generateMultiBlockLogic fw count mOptimization marker source streamBase markerBlock
        processedSourceItems numOfStrides ++
      segments (markerBlock + numOfBlocks)
        (processedSourceItems +
          pop marker (fw * count * markerBlock) (fw * count * numOfBlocks)) rest

end Kernel

end StreamExpand

/-- The streams of which these are the blocks. -/
def ofBlocks (bw : ℕ) (blocks : List StreamSet) : StreamSet :=
  fun i p ↦ blocks.getD (p / bw) (fun _ _ ↦ false) i (p % bw)

/-- Each block of the input is deposited by the block of the mask. -/
def FieldDeposit (bw mFieldWidth : ℕ) (depositMask : Stream) (input : StreamSet) : StreamSet :=
  fun j ↦ storeOutputStreamBlock bw 1 fun blk _ ↦
    simd_pdep mFieldWidth (loadInputStreamBlock bw (input j) blk)
      (loadInputStreamBlock bw depositMask blk)

/-- Expanded in segments, and deposited. -/
def SpreadByMask (fw count : ℕ) (opt : StreamExpandOptimization) (mask : Stream)
    (toSpread : StreamSet) (streamOffset : ℕ) (strides : List ℕ) : StreamSet :=
  FieldDeposit (fw * count) fw mask
    (ofBlocks (fw * count) (StreamExpand.segments fw count opt mask toSpread streamOffset 0 0 strides))

namespace StreamExpand

section Block

variable {e t po x i j : ℕ} {deposit_mask pending source : Stream}

/-- The pending block, and the source block after it. -/
def window (bw : ℕ) (pending source : Stream) : Stream := fun p ↦
  if p < bw then pending p else source (p - bw)

theorem ceil_sub_div {w c r : ℕ} (hc : 0 < c) (hr : r < w) : (w * c - r + (w - 1)) / w = c := by
  obtain ⟨c, rfl⟩ := Nat.exists_eq_succ_of_ne_zero hc.ne'
  rw [Nat.mul_succ]
  by_cases hzero : r = 0
  · rw [show w * c + w - r + (w - 1) = w * (c + 1) + (w - 1) by rw [Nat.mul_succ]; omega,
      mul_add_div_of_lt (by omega)]
  · rw [show w * c + w - r + (w - 1) = w * (c + 1) + (w - 1 - r) by rw [Nat.mul_succ]; omega,
      mul_add_div_of_lt (by omega)]

theorem floor_sub_div {w c r : ℕ} (hc : 0 < c) (hr : r < w) :
    (w * c - r) / w = if r = 0 then c else c - 1 := by
  obtain ⟨c, rfl⟩ := Nat.exists_eq_succ_of_ne_zero hc.ne'
  split_ifs with hzero
  · rw [hzero, Nat.sub_zero, Nat.mul_div_cancel_left _ (by omega)]
  · rw [Nat.succ_sub_one, show w * (c + 1) - r = w * c + (w - r) by rw [Nat.mul_succ]; omega,
      mul_add_div_of_lt (by omega)]

/-- The fields of the window, from a field of the pending block on. -/
theorem dsll_apply {w n q shift : ℕ} (hi : i < 2 ^ t) (hq : q ≤ 2 ^ t) (hshift : shift = 2 ^ t - q)
    (hn : n = q + i) (hwidth : 2 ^ t + 2 ^ t ≤ 2 ^ w) (hj : j < w) :
    mvmd_dsll w (2 ^ t) source pending shift (w * i + j) =
      window (w * 2 ^ t) pending source (w * n + j) := by
  have hfield := @field_dsll _ _ _ shift source pending hi (by omega) hwidth
  rw [window]
  split_ifs at hfield with hlow
  · have hlt : w * n + j < w * 2 ^ t := by
      have := Nat.mul_le_mul_left w (show n + 1 ≤ 2 ^ t by omega)
      rw [Nat.mul_succ] at this
      omega
    rw [if_pos hlt, apply_of_field hfield hj]
    congr 3
    omega
  · have hle : w * 2 ^ t ≤ w * n := Nat.mul_le_mul_left w (by omega)
    rw [if_neg (by omega), apply_of_field hfield hj]
    congr 1
    rw [show i - shift = n - 2 ^ t by omega, Nat.mul_sub]
    omega

theorem toExpand_apply (hwidth : 2 ^ t + 2 ^ t ≤ 2 ^ 2 ^ (e + 1)) (hpo : po < 2 ^ (e + 1) * 2 ^ t)
    (hx : x < 2 ^ (e + 1) * 2 ^ t) : toExpand (2 ^ (e + 1)) (2 ^ t) po pending source x =
      window (2 ^ (e + 1) * 2 ^ t) pending source (po + x) := by
  have hfw : 0 < 2 ^ (e + 1) := Nat.two_pow_pos _
  have hlt : 2 ^ (e + 1) < 2 ^ 2 ^ (e + 1) := Nat.lt_two_pow_self
  generalize 2 ^ (e + 1) = w at *
  obtain ⟨i, j, hi, hj, rfl⟩ : ∃ i j, i < 2 ^ t ∧ j < w ∧ x = w * i + j :=
    ⟨x / w, x % w, Nat.div_lt_of_lt_mul hx, Nat.mod_lt x hfw, (Nat.div_add_mod x w).symm⟩
  have hpodiv := Nat.div_add_mod po w
  have hr : po % w < w := Nat.mod_lt po hfw
  have hq : po / w < 2 ^ t := Nat.div_lt_of_lt_mul hpo
  have hitems : w * 2 ^ t - po = w * (2 ^ t - po / w) - po % w := by
    rw [Nat.mul_sub]
    omega
  have hoffset : field w (simd_fill w (po % w)) i = po % w := field_fill (hr.trans hlt)
  rw [toExpand]
  rw [hitems, ceil_sub_div (by omega) hr, floor_sub_div (by omega) hr]
  have hwindow : po + (w * i + j) = w * (po / w + i) + (po % w + j) := by
    rw [Nat.mul_add]
    omega
  refine join_apply hj hoffset ?_ (fun hin ↦ ?_) (fun hpast ↦ ?_) fun hzero ↦ ?_
  · rw [field_ofFields, hoffset]
    exact Nat.mod_eq_of_lt ((Nat.mod_lt _ hfw).trans hlt)
  · rw [dsll_apply hi hq.le rfl rfl hwidth hin, hwindow]
  · rw [if_neg (by omega), dsll_apply hi (show po / w + 1 ≤ 2 ^ t from hq) (by omega) rfl hwidth
      (by omega), hwindow]
    congr 1
    rw [Nat.mul_add, Nat.mul_add, Nat.mul_add]
    omega
  · rw [if_pos hzero, dsll_apply hi hq.le rfl rfl hwidth hj, hwindow, hzero, Nat.zero_add]

theorem field_partialSum (hfits : 2 ^ (e + 1) * 2 ^ t < 2 ^ 2 ^ (e + 1)) (hi : i < 2 ^ t) :
    field (2 ^ (e + 1)) (mvmd_slli (2 ^ (e + 1)) (partialSum (2 ^ (e + 1)) (2 ^ t) deposit_mask) 1) i =
      rank deposit_mask (2 ^ (e + 1) * i) := by
  rw [field_slli]
  split_ifs with hzero
  · rw [show i = 0 by omega, Nat.mul_zero, rank_zero]
  · rw [partialSum, field_hsimd_partial_sum hfits (by omega), show i - 1 + 1 = i by omega]

theorem blockPopCount_eq (hfits : 2 ^ (e + 1) * 2 ^ t < 2 ^ 2 ^ (e + 1)) :
    blockPopCount (2 ^ (e + 1)) (2 ^ t) deposit_mask =
      rank deposit_mask (2 ^ (e + 1) * 2 ^ t) := by
  have hpos := Nat.two_pow_pos t
  rw [blockPopCount, partialSum, field_hsimd_partial_sum hfits (by omega), Nat.sub_add_cancel hpos]

/-- Every field has its source bits at the low end, as many as the mask has ones in it. -/
theorem expanded_apply (hfits : 2 ^ (e + 1) * 2 ^ t < 2 ^ 2 ^ (e + 1)) (hi : i < 2 ^ t)
    (hj : j < pop deposit_mask (2 ^ (e + 1) * i) (2 ^ (e + 1))) :
    expanded (2 ^ (e + 1)) (2 ^ t) deposit_mask po pending source (2 ^ (e + 1) * i + j) =
      toExpand (2 ^ (e + 1)) (2 ^ t) po pending source
        (rank deposit_mask (2 ^ (e + 1) * i) + j) := by
  have hfw : 0 < 2 ^ (e + 1) := Nat.two_pow_pos _
  have hlt : 2 ^ (e + 1) < 2 ^ 2 ^ (e + 1) := Nat.lt_two_pow_self
  have hroom := two_mul_le hfits
  have hpop := pop_le deposit_mask (2 ^ (e + 1) * i) (2 ^ (e + 1))
  have hsum := @field_partialSum _ _ _ deposit_mask hfits hi
  have hand (n : ℕ) : n &&& (2 ^ (e + 1) - 1) = n % 2 ^ (e + 1) := Nat.and_two_pow_sub_one_eq_mod _ _
  -- The source bits of all fields are in the block.
  have hin : rank deposit_mask (2 ^ (e + 1) * i) + j < 2 ^ (e + 1) * 2 ^ t := by
    have hend := rank_le deposit_mask (2 ^ (e + 1) * i + 2 ^ (e + 1))
    have hle := Nat.mul_le_mul_left (2 ^ (e + 1)) (Nat.succ_le_of_lt hi)
    rw [Nat.mul_succ] at hle
    rw [rank_add_pop] at hend
    omega
  rw [expanded]
  generalize mvmd_slli (2 ^ (e + 1)) (partialSum (2 ^ (e + 1)) (2 ^ t) deposit_mask) 1 = sums at *
  generalize toExpand (2 ^ (e + 1)) (2 ^ t) po pending source = full
  generalize rank deposit_mask (2 ^ (e + 1) * i) = o at *
  generalize 2 ^ (e + 1) = w at *
  have hdiv := Nat.div_add_mod o w
  have hr : o % w < w := Nat.mod_lt o hfw
  have hmod (n : ℕ) : n % w % 2 ^ w = n % w := Nat.mod_eq_of_lt ((Nat.mod_lt n hfw).trans hlt)
  -- A field that is used has its number kept.
  have hshuffle {index : Stream} {n k : ℕ} (hindex : field w index i = n) (hn : w * n + k ≤ o + j)
      (hk : k < w) : mvmd_shuffle w (2 ^ t) full index (w * i + k) = full (w * n + k) := by
    have hcount : n < 2 ^ t := by
      by_contra hge
      have := Nat.mul_le_mul_left w (Nat.le_of_not_lt hge)
      omega
    have hfield : field w (mvmd_shuffle w (2 ^ t) full index) i = field w full n := by
      rw [field_shuffle, hindex, Nat.mod_eq_of_lt hcount]
    exact apply_of_field hfield hk
  have hquotient (n : ℕ) (hn : n < 2 ^ w) : n / w % 2 ^ w = n / w :=
    Nat.mod_eq_of_lt ((Nat.div_le_self n w).trans_lt hn)
  have hsplit : w ≤ w * 2 ^ t := Nat.le_mul_of_pos_right w (Nat.two_pow_pos t)
  have hup : (o + (w - 1)) % 2 ^ w = o + (w - 1) := Nat.mod_eq_of_lt (by omega)
  refine join_apply (o := o) (by omega) ?_ ?_ (fun hlow ↦ ?_) (fun hpast ↦ ?_) fun hzero ↦ ?_
  · rw [field_ofFields, hsum, hand, hmod]
  · rw [field_ofFields, field_ofFields, hsum, hand, hmod, hand, hmod]
  · rw [hshuffle (n := o / w) (by rw [field_ofFields, hsum, hquotient o (by omega)]) (by omega) hlow]
    congr 1
    omega
  · have hnext : (o + (w - 1)) / w = o / w + 1 := by
      rw [show o + (w - 1) = w * (o / w + 1) + (o % w - 1) by rw [Nat.mul_succ]; omega,
        mul_add_div_of_lt (by omega)]
    have hplace : w * (o / w + 1) + (o % w + j - w) = o + j := by
      rw [Nat.mul_succ]
      omega
    rw [hshuffle (n := o / w + 1) (by
      rw [field_ofFields, hsum, hup, hquotient _ (by omega), hnext]) hplace.le (by omega), hplace]
  · have hsame : (o + (w - 1)) / w = o / w := by
      rw [show o + (w - 1) = w * (o / w) + (w - 1) by omega, mul_add_div_of_lt (by omega)]
    rw [hshuffle (n := o / w) (by
      rw [field_ofFields, hsum, hup, hquotient _ (by omega), hsame]) (by omega) (by omega)]
    congr 1
    omega

/-- Under the mask the block has the source bits from the offset on. -/
theorem expanded_sourceBit {q : ℕ} (hfits : 2 ^ (e + 1) * 2 ^ t < 2 ^ 2 ^ (e + 1))
    (hpo : po < 2 ^ (e + 1) * 2 ^ t) (hq : q < 2 ^ (e + 1) * 2 ^ t) (hm : deposit_mask q = true) :
    expanded (2 ^ (e + 1)) (2 ^ t) deposit_mask po pending source
        (sourceBit (2 ^ (e + 1)) deposit_mask q) =
      window (2 ^ (e + 1) * 2 ^ t) pending source (po + rank deposit_mask q) := by
  have hfw : 0 < 2 ^ (e + 1) := Nat.two_pow_pos _
  have hdiv := Nat.div_add_mod q (2 ^ (e + 1))
  have hmod := Nat.mod_lt q hfw
  have hi : q / 2 ^ (e + 1) < 2 ^ t := Nat.div_lt_of_lt_mul hq
  have hj : pop deposit_mask (2 ^ (e + 1) * (q / 2 ^ (e + 1))) (q % 2 ^ (e + 1)) <
      pop deposit_mask (2 ^ (e + 1) * (q / 2 ^ (e + 1))) (2 ^ (e + 1)) := by
    apply rank_lt_of_true _ hmod
    rwa [hdiv]
  have hrank : rank deposit_mask (2 ^ (e + 1) * (q / 2 ^ (e + 1))) +
      pop deposit_mask (2 ^ (e + 1) * (q / 2 ^ (e + 1))) (q % 2 ^ (e + 1)) = rank deposit_mask q := by
    rw [← rank_add_pop, hdiv]
  have hroom := two_mul_le hfits
  have hwidth : 2 ^ t + 2 ^ t ≤ 2 ^ 2 ^ (e + 1) := by
    have := Nat.le_mul_of_pos_left (2 ^ t) hfw
    omega
  have hlt := (rank_le deposit_mask q).trans_lt hq
  rw [sourceBit, expanded_apply hfits hi hj, hrank, toExpand_apply hwidth hpo hlt]

end Block

section Loop

variable {e t : ℕ} {mOptimization : StreamExpandOptimization} {marker : Stream}
  {source : StreamSet} {streamBase : ℕ}

/-- Blocks from which the mask takes the source bits, from block `first` of the mask on. -/
def Deposits (fw bw : ℕ) (marker : Stream) (source : StreamSet) (streamBase : ℕ)
    (blocks : List StreamSet) (first : ℕ) : Prop :=
  ∀ k block, blocks[k]? = some block → ∀ i, ∀ q < bw, marker (bw * (first + k) + q) = true →
    block i (sourceBit fw (loadInputStreamBlock bw marker (first + k)) q) =
      source (streamBase + i) (rank marker (bw * (first + k) + q))

/-- The mask takes the source bits from the block that it has the number of. -/
def TakesSource (fw bw : ℕ) (marker : Stream) (source : StreamSet) (streamBase k : ℕ)
    (block : StreamSet) : Prop :=
  ∀ i, ∀ q < bw, marker (bw * k + q) = true →
    block i (sourceBit fw (loadInputStreamBlock bw marker k) q) =
      source (streamBase + i) (rank marker (bw * k + q))

theorem deposits_iff {fw bw first : ℕ} {blocks : List StreamSet} :
    Deposits fw bw marker source streamBase blocks first ↔
      EachFrom (TakesSource fw bw marker source streamBase) first blocks := Iff.rfl

theorem Deposits.cons {fw bw first : ℕ} {block : StreamSet} {blocks : List StreamSet}
    (hblock : TakesSource fw bw marker source streamBase first block)
    (h : Deposits fw bw marker source streamBase blocks (first + 1)) :
    Deposits fw bw marker source streamBase (block :: blocks) first :=
  deposits_iff.2 ((deposits_iff.1 h).cons hblock)

theorem Deposits.append {fw bw first : ℕ} {blocks rest : List StreamSet}
    (h : Deposits fw bw marker source streamBase blocks first)
    (hrest : Deposits fw bw marker source streamBase rest (first + blocks.length)) :
    Deposits fw bw marker source streamBase (blocks ++ rest) first :=
  deposits_iff.2 ((deposits_iff.1 h).append (deposits_iff.1 hrest))

/-- A block without ones takes nothing from the source. -/
theorem rank_of_not_any {bw first : ℕ}
    (hnone : bitblock_any bw (loadInputStreamBlock bw marker first) = false) :
    pop marker (bw * first) bw = 0 ∧ ∀ q < bw, marker (bw * first + q) = false := by
  have hfalse (q : ℕ) (hq : q < bw) : marker (bw * first + q) = false := by
    rw [bitblock_any, List.any_eq_false] at hnone
    exact Bool.eq_false_iff.2 (hnone q (List.mem_range.2 hq))
  refine ⟨?_, hfalse⟩
  rw [pop, rank, Nat.count_iff_forall_not]
  intro q hq
  rw [hfalse q hq]
  exact Bool.false_ne_true

theorem length_expandLoop {fw count mb sb n blockNo pt : ℕ} {pendingData : StreamSet} :
    (expandLoop fw count mOptimization marker source streamBase mb sb n blockNo pt
      pendingData).length = n := by
  induction n generalizing blockNo pt pendingData with
  | zero => rfl
  | succ n ih =>
    rw [expandLoop]
    split_ifs
    · rw [List.length_cons, ih]
    · rw [List.length_cons, ih]

/-- The window of a block has the source bits from the processed ones on. -/
theorem window_eq {bw sb pt P r : ℕ} {s : Stream} (hbw : 0 < bw) (hr : r < P) (hP : P ≤ bw) :
    window bw (loadInputStreamBlock bw s (sb + pt / bw))
        (loadInputStreamBlock bw s (sb + (pt + P) / bw)) (pt % bw + r) =
      s (bw * sb + pt + r) := by
  have hdiv := Nat.div_add_mod pt bw
  have hmod := Nat.mod_lt pt hbw
  rw [window]
  split_ifs with hin
  · rw [loadInputStreamBlock, Nat.mul_add]
    congr 1
    omega
  · have hnext : (pt + P) / bw = pt / bw + 1 := by
      rw [show pt + P = bw * (pt / bw + 1) + (pt % bw + P - bw) by rw [Nat.mul_succ]; omega,
        mul_add_div_of_lt (by omega)]
    rw [loadInputStreamBlock, hnext, Nat.mul_add, Nat.mul_succ]
    congr 1
    omega

/-- The block that is expanded has the source bits of the ones of its mask. -/
theorem expanded_block {blk sb pt q : ℕ} {s : Stream} (hfits : 2 ^ (e + 1) * 2 ^ t < 2 ^ 2 ^ (e + 1))
    (hoffset : 2 ^ (e + 1) * 2 ^ t * sb + pt = rank marker (2 ^ (e + 1) * 2 ^ t * blk))
    (hq : q < 2 ^ (e + 1) * 2 ^ t) (hm : marker (2 ^ (e + 1) * 2 ^ t * blk + q) = true) :
    expanded (2 ^ (e + 1)) (2 ^ t) (loadInputStreamBlock (2 ^ (e + 1) * 2 ^ t) marker blk)
        (pt % (2 ^ (e + 1) * 2 ^ t))
        (loadInputStreamBlock (2 ^ (e + 1) * 2 ^ t) s (sb + pt / (2 ^ (e + 1) * 2 ^ t)))
        (loadInputStreamBlock (2 ^ (e + 1) * 2 ^ t) s (sb + (pt + blockPopCount (2 ^ (e + 1)) (2 ^ t)
          (loadInputStreamBlock (2 ^ (e + 1) * 2 ^ t) marker blk)) / (2 ^ (e + 1) * 2 ^ t)))
        (sourceBit (2 ^ (e + 1)) (loadInputStreamBlock (2 ^ (e + 1) * 2 ^ t) marker blk) q) =
      s (rank marker (2 ^ (e + 1) * 2 ^ t * blk + q)) := by
  have hbw : 0 < 2 ^ (e + 1) * 2 ^ t := Nat.mul_pos (Nat.two_pow_pos _) (Nat.two_pow_pos _)
  have hlt : rank (loadInputStreamBlock (2 ^ (e + 1) * 2 ^ t) marker blk) q <
      rank (loadInputStreamBlock (2 ^ (e + 1) * 2 ^ t) marker blk) (2 ^ (e + 1) * 2 ^ t) :=
    rank_lt_of_true hm hq
  rw [expanded_sourceBit hfits (Nat.mod_lt _ hbw) hq hm, blockPopCount_eq hfits,
    window_eq hbw hlt (rank_le _ _), hoffset, rank_add]
  rfl

theorem expandLoop_deposits (hfits : 2 ^ (e + 1) * 2 ^ t < 2 ^ 2 ^ (e + 1)) {mb sb n blockNo pt : ℕ}
    {pendingData : StreamSet}
    (hpending : ∀ i, pendingData i = loadInputStreamBlock (2 ^ (e + 1) * 2 ^ t)
      (source (streamBase + i)) (sb + pt / (2 ^ (e + 1) * 2 ^ t)))
    (hoffset : 2 ^ (e + 1) * 2 ^ t * sb + pt =
      rank marker (2 ^ (e + 1) * 2 ^ t * (mb + blockNo))) :
    Deposits (2 ^ (e + 1)) (2 ^ (e + 1) * 2 ^ t) marker source streamBase
      (expandLoop (2 ^ (e + 1)) (2 ^ t) mOptimization marker source streamBase mb sb n blockNo pt
        pendingData) (mb + blockNo) := by
  have hbw : 0 < 2 ^ (e + 1) * 2 ^ t := Nat.mul_pos (Nat.two_pow_pos _) (Nat.two_pow_pos _)
  have hcount (m : Stream) := @blockPopCount_eq _ _ m hfits
  induction n generalizing blockNo pt pendingData with
  | zero => exact fun k block hk ↦ nomatch hk
  | succ n ih =>
    have hafter : rank marker (2 ^ (e + 1) * 2 ^ t * (mb + (blockNo + 1))) =
        rank marker (2 ^ (e + 1) * 2 ^ t * (mb + blockNo)) +
          pop marker (2 ^ (e + 1) * 2 ^ t * (mb + blockNo)) (2 ^ (e + 1) * 2 ^ t) := by
      rw [← rank_add_pop, ← Nat.add_assoc mb, Nat.mul_succ]
    rw [expandLoop]
    split_ifs with hnull
    · obtain ⟨hpop, hnone⟩ := rank_of_not_any hnull.2
      refine Deposits.cons (fun i q hq hm ↦ ?_) (ih hpending ?_)
      · rw [hnone q hq] at hm
        exact absurd hm Bool.false_ne_true
      · rw [hoffset, hafter, hpop]
        rfl
    · refine Deposits.cons (fun i q hq hm ↦ ?_) (ih (fun i ↦ rfl) ?_)
      · rw [hpending]
        exact expanded_block hfits hoffset hq hm
      · rw [hcount, ← Nat.add_assoc, hoffset, hafter]
        rfl

theorem generateMultiBlockLogic_deposits (hfits : 2 ^ (e + 1) * 2 ^ t < 2 ^ 2 ^ (e + 1))
    (markerBlock numOfStrides : ℕ) :
    Deposits (2 ^ (e + 1)) (2 ^ (e + 1) * 2 ^ t) marker source streamBase
      (generateMultiBlockLogic (2 ^ (e + 1)) (2 ^ t) mOptimization marker source streamBase
        markerBlock (rank marker (2 ^ (e + 1) * 2 ^ t * markerBlock)) numOfStrides)
      markerBlock := by
  have hbw : 0 < 2 ^ (e + 1) * 2 ^ t := Nat.mul_pos (Nat.two_pow_pos _) (Nat.two_pow_pos _)
  refine expandLoop_deposits hfits (fun i ↦ ?_) (Nat.div_add_mod _ _)
  rw [Nat.mod_div_self]
  rfl

/-- The calls for all segments. -/
theorem segments_deposits (hfits : 2 ^ (e + 1) * 2 ^ t < 2 ^ 2 ^ (e + 1)) (strides : List ℕ)
    (markerBlock : ℕ) :
    let blocks := segments (2 ^ (e + 1)) (2 ^ t) mOptimization marker source streamBase markerBlock
      (rank marker (2 ^ (e + 1) * 2 ^ t * markerBlock)) strides
    blocks.length = strides.sum * StreamExpandStrideSize ∧
      Deposits (2 ^ (e + 1)) (2 ^ (e + 1) * 2 ^ t) marker source streamBase blocks markerBlock := by
  induction strides generalizing markerBlock with
  | nil => exact ⟨rfl, fun k block hk ↦ nomatch hk⟩
  | cons numOfStrides rest ih =>
    have hprocessed : rank marker (2 ^ (e + 1) * 2 ^ t * markerBlock) +
        pop marker (2 ^ (e + 1) * 2 ^ t * markerBlock)
          (2 ^ (e + 1) * 2 ^ t * (numOfStrides * StreamExpandStrideSize)) =
        rank marker (2 ^ (e + 1) * 2 ^ t *
          (markerBlock + numOfStrides * StreamExpandStrideSize)) := by
      rw [← rank_add_pop, ← Nat.mul_add]
    obtain ⟨hlength, hrest⟩ := ih (markerBlock + numOfStrides * StreamExpandStrideSize)
    have hcall : (generateMultiBlockLogic (2 ^ (e + 1)) (2 ^ t) mOptimization marker source
        streamBase markerBlock (rank marker (2 ^ (e + 1) * 2 ^ t * markerBlock))
        numOfStrides).length = numOfStrides * StreamExpandStrideSize := length_expandLoop
    rw [segments, hprocessed]
    constructor
    · rw [List.length_append, hcall, hlength, List.sum_cons, Nat.add_mul]
    · refine (generateMultiBlockLogic_deposits hfits markerBlock numOfStrides).append ?_
      rw [hcall]
      exact hrest

end Loop

end StreamExpand

section Spread

variable {e t p n : ℕ} {opt : StreamExpandOptimization} {mask : Stream} {toSpread : StreamSet}
  {streamOffset : ℕ} {strides : List ℕ}

theorem spreadByMask_apply (hfits : 2 ^ (e + 1) * 2 ^ t < 2 ^ 2 ^ (e + 1)) (i : ℕ)
    (hp : p < 2 ^ (e + 1) * 2 ^ t * (strides.sum * StreamExpand.StreamExpandStrideSize)) :
    SpreadByMask (2 ^ (e + 1)) (2 ^ t) opt mask toSpread streamOffset strides i p =
      spread mask (toSpread (streamOffset + i)) p := by
  have hbw : 0 < 2 ^ (e + 1) * 2 ^ t := Nat.mul_pos (Nat.two_pow_pos _) (Nat.two_pow_pos _)
  obtain ⟨hlength, hdeposits⟩ := @StreamExpand.segments_deposits _ _ opt mask toSpread streamOffset
    hfits strides 0
  rw [Nat.mul_zero, rank_zero] at hlength hdeposits
  rw [SpreadByMask, FieldDeposit, storeOutputStreamBlock, simd_pdep_apply]
  generalize StreamExpand.segments (2 ^ (e + 1)) (2 ^ t) opt mask toSpread streamOffset 0 0 strides =
    blocks at *
  generalize 2 ^ (e + 1) * 2 ^ t = bw at *
  rw [Nat.div_one]
  have hk : p / bw < blocks.length := hlength ▸ Nat.div_lt_of_lt_mul hp
  have hq : p % bw < bw := Nat.mod_lt p hbw
  have hmask : loadInputStreamBlock bw mask (p / bw) (p % bw) = mask p := by
    rw [loadInputStreamBlock, Nat.div_add_mod]
  rw [hmask]
  cases hm : mask p
  · rw [spread_of_false hm, Bool.false_and]
  · have hsource : sourceBit (2 ^ (e + 1)) (loadInputStreamBlock bw mask (p / bw)) (p % bw) < bw := by
      have hdiv := Nat.div_add_mod (p % bw) (2 ^ (e + 1))
      have hle := pop_le (loadInputStreamBlock bw mask (p / bw))
        (2 ^ (e + 1) * (p % bw / 2 ^ (e + 1))) (p % bw % 2 ^ (e + 1))
      rw [sourceBit]
      omega
    have hbit := hdeposits (p / bw) _ (List.getElem?_eq_getElem hk) i (p % bw) hq
    rw [Nat.zero_add, Nat.div_add_mod] at hbit
    rw [spread_of_true hm, Bool.true_and, ← hbit hm, loadInputStreamBlock, ofBlocks,
      mul_add_div_of_lt hsource, mul_add_mod_of_lt hsource, List.getD_eq_getElem _ _ hk]

/-- On the blocks that any segmentation processes the `n`-th one of the mask takes the `n`-th source
bit and the other positions are zero, with and without the check for blocks without ones, and
filtering by the mask gives the source bits back. -/
theorem spreadByMask_exact (hfits : 2 ^ (e + 1) * 2 ^ t < 2 ^ 2 ^ (e + 1)) (mask : Stream)
    (toSpread : StreamSet) (streamOffset : ℕ) (strides : List ℕ) :
    let processed := 2 ^ (e + 1) * 2 ^ t * (strides.sum * StreamExpand.StreamExpandStrideSize)
    let output opt := SpreadByMask (2 ^ (e + 1)) (2 ^ t) opt mask toSpread streamOffset strides
    (∀ opt i, ∀ p < processed, output opt i p = spread mask (toSpread (streamOffset + i)) p) ∧
      (∀ i, ∀ p < processed, output .NullCheck i p = output .None i p) ∧
      ∀ opt i, ∀ n ≤ processed, compress mask (output opt i) 0 n =
        (List.range (rank mask n)).map (toSpread (streamOffset + i)) := by
  refine ⟨fun opt i p hp ↦ spreadByMask_apply hfits i hp, fun i p hp ↦ ?_, fun opt i n hn ↦ ?_⟩
  · exact (spreadByMask_apply hfits i hp).trans (spreadByMask_apply hfits i hp).symm
  · rw [← compress_spread]
    apply compress_congr (fun _ _ ↦ rfl)
    intro p hp _
    rw [Nat.zero_add]
    exact spreadByMask_apply hfits i (hp.trans_le hn)

theorem spreadByMask_exact_third :
    SpreadByMask (2 ^ 6) (2 ^ 2) .NullCheck (fun p ↦ p % 3 == 0) (fun i p ↦ p == i) 1 [1, 2] 1 6 =
      true :=
  ((spreadByMask_exact (e := 5) (t := 2) (by decide) (fun p ↦ p % 3 == 0) (fun i p ↦ p == i) 1
    [1, 2]).1 .NullCheck 1 6 (by decide)).trans (by decide)

end Spread

end Parabix.Streamutils
