import Mathlib.Data.PNat.Basic
import Parabix.Streamutils.MergeExact

namespace Parabix.Streamutils

open Library Library.BitStream Unicode
open IDISA (simd_and simd_any)
open ElemSpread (hsimd_signmask testBit_metaMask)

namespace UntilNkernel

inductive Mode
  | ZeroAfterN
  | TerminateAtN
  | ReportAcceptedLengthAtAndBeforeN
  deriving DecidableEq

def packSize : ℕ := 64

/-- What a call leaves: the kernel state, the memory of the output, and the produced item count if
it signals termination. -/
structure Call where
  observed : ℕ
  uptoN : Stream
  produced : Option ℕ

section Kernel

def CreateAssert (EnableAsserts : Bool) (p : Bool) (message : String) : Except Fault Unit :=
  if EnableAsserts && !p then .error (.fatal message) else .ok ()

def storeOutputBlock (bw blk : ℕ) (value uptoN : Stream) : Stream := fun p ↦
  if p / bw = blk then value (p % bw) else uptoN p

def CreateMemZero (bw blk numOfBlocks : ℕ) (uptoN : Stream) : Stream := fun p ↦
  if blk ≤ p / bw ∧ p / bw < blk + numOfBlocks then false else uptoN p

def CreatePopcount (w x : ℕ) : ℕ := rank x.testBit w

/-- The ones up to a position, which is included. -/
def bitblock_mask_to (EnableAsserts : Bool) (bw position : ℕ) : Except Fault Stream :=
  (CreateAssert EnableAsserts (decide (position < bw)) "position exceeds block width").bind fun _ ↦
    let bitField := (2 ^ packSize - 1) >>> (packSize - 1 - position % packSize)
    .ok (ofFields packSize fun i ↦
      if i = position / packSize then bitField
      else if packSize * i < position then 2 ^ packSize - 1 else 0)

/-- The lowest bit that is left is the one to find. -/
def findNthBit : ℕ → ℕ → ℕ
  | 0, remainingBits => remainingBits
  | nextRemainingBitsToFind + 1, remainingBits =>
    if nextRemainingBitsToFind = 0 then remainingBits
    else findNthBit nextRemainingBitsToFind (resetLowestBit remainingBits)

variable (packsPerBlock : ℕ) (mMode : Mode) (mUseInOut EnableAsserts : Bool) (N : ℕ)
  (bits : Stream)

/-- A bit for every pack of the blocks that is not empty. The blocks are copied on the way. -/
def iteratorLoop (firstBlock baseBlockIndex : ℕ) : ℕ → ℕ → ℕ → Stream → ℕ × Stream
  | 0, _, groupMask, uptoN => (groupMask, uptoN)
  | blocksToDo + 1, localIndex, groupMask, uptoN =>
    let bw := packsPerBlock * packSize
    let blockIndex := baseBlockIndex + localIndex
    let inputValue := loadInputStreamBlock bw bits (firstBlock + blockIndex)
    let inputPackValue := simd_any packSize inputValue
    let iteratorMask := hsimd_signmask packSize packsPerBlock inputPackValue
    iteratorLoop firstBlock baseBlockIndex blocksToDo (localIndex + 1)
      (groupMask ||| iteratorMask <<< (localIndex * packsPerBlock) % 2 ^ packSize)
      (if mUseInOut then uptoN
        else storeOutputBlock bw (firstBlock + blockIndex) inputValue uptoN)

/-- The ones observed in the marked packs, and the block and the offset of the one that is the
`N`-th. -/
def processGroup (firstBlock baseBlockIndex observed groupMarkers : ℕ) :
    Except Fault (ℕ × Option (ℕ × ℕ)) :=
  if groupMarkers = 0 then .ok (observed, none)
  else
    let groupIndex := countForwardZeroes groupMarkers
    let blockIndex2 := baseBlockIndex + groupIndex / packsPerBlock
    let packOffset := groupIndex % packsPerBlock
    let groupValue :=
      loadInputStreamBlock (packsPerBlock * packSize) bits (firstBlock + blockIndex2)
    let packBits := field packSize groupValue packOffset
    let observedUpTo := observed + CreatePopcount packSize packBits
    if observedUpTo < N then
      processGroup firstBlock baseBlockIndex observedUpTo (resetLowestBit groupMarkers)
    else
      (CreateAssert EnableAsserts (decide (observed < N))
        "N must be greater than observed count!").bind fun _ ↦
          let remainingBits := findNthBit (N - observed) packBits
          let packPosition := countForwardZeroes remainingBits
          let basePosition := packOffset * packSize
          .ok (N, some (blockIndex2, basePosition ||| packPosition))
termination_by groupMarkers
decreasing_by exact resetLowestBit_lt ‹_›

/-- The iterations of a call, of as many blocks as a pack has bits for. -/
def strideLoop (firstBlock : ℕ) : ℕ → ℕ → ℕ → ℕ → Stream →
    Except Fault (ℕ × Stream × Option (ℕ × ℕ))
  | 0, _, _, _, _ => .error .fuel
  | fuel + 1, baseBlockIndex, blocksRemaining, observed, uptoN =>
    let maximumBlocksPerIteration := packSize / packsPerBlock
    let blocksToDo := min blocksRemaining maximumBlocksPerIteration
    let groups := iteratorLoop packsPerBlock mUseInOut bits firstBlock baseBlockIndex blocksToDo 0 0
      uptoN
    (processGroup packsPerBlock EnableAsserts N bits firstBlock baseBlockIndex observed
      groups.1).bind fun r ↦
        if r.2.isSome then .ok (r.1, groups.2, r.2)
        else if blocksRemaining ≤ maximumBlocksPerIteration then .ok (r.1, groups.2, none)
        else strideLoop firstBlock fuel (baseBlockIndex + maximumBlocksPerIteration)
          (blocksRemaining - maximumBlocksPerIteration) r.1 groups.2

def foundNthBit (firstBlock numOfBlocks available : ℕ) (blockIndex2 blockOffset : ℕ)
    (uptoN : Stream) : Except Fault Call :=
  let bw := packsPerBlock * packSize
  let priorProducedItemCount := bw * firstBlock
  let inputValue2 := loadInputStreamBlock bw bits (firstBlock + blockIndex2)
  let masked : Except Fault Stream :=
    if !mUseInOut && decide (mMode = .ZeroAfterN ∨ mMode = .TerminateAtN) then
      (bitblock_mask_to EnableAsserts bw blockOffset).bind fun mask ↦
        .ok (storeOutputBlock bw (firstBlock + blockIndex2) (simd_and inputValue2 mask) uptoN)
    else .ok uptoN
  masked.bind fun uptoN ↦
    if mMode = .TerminateAtN ∨ mMode = .ReportAcceptedLengthAtAndBeforeN then
      let positionOfNthItem :=
        blockIndex2 <<< Nat.log2 bw + (blockOffset + 1) + priorProducedItemCount
      (CreateAssert EnableAsserts (decide (positionOfNthItem < available))
        "position of n-th item exceeds available items!").bind fun _ ↦
          .ok ⟨N, uptoN, some positionOfNthItem⟩
    else
      let nextBlk := blockIndex2 + 1
      .ok ⟨N, if nextBlk < numOfBlocks then
        CreateMemZero bw (firstBlock + nextBlk) (numOfBlocks - nextBlk) uptoN else uptoN, none⟩

/-- One call, for at least one stride. -/
def generateMultiBlockLogic (firstBlock available : ℕ) (numOfStrides blocksPerStride : ℕ+)
    (observed : ℕ) (uptoN : Stream) : Except Fault Call :=
  let numOfBlocks : ℕ := (numOfStrides * blocksPerStride : ℕ+)
  if mMode ≠ .TerminateAtN ∧ ¬ observed < N then
    .ok ⟨observed, CreateMemZero (packsPerBlock * packSize) firstBlock numOfBlocks uptoN, none⟩
  else
    (strideLoop packsPerBlock mUseInOut EnableAsserts N bits firstBlock numOfBlocks 0 numOfBlocks
      observed uptoN).bind fun r ↦
        r.2.2.elim (.ok ⟨r.1, r.2.1, none⟩) fun nth ↦
          foundNthBit packsPerBlock mMode mUseInOut EnableAsserts N bits firstBlock numOfBlocks
            available nth.1 nth.2 r.2.1

/-- The calls for the segments of a stream, up to the signal of termination. A call has its strides
available, as far as the stream goes. -/
def segments (length : ℕ) (blocksPerStride : ℕ+) :
    List ℕ+ → ℕ → ℕ → Stream → Except Fault Call
  | [], _, observed, uptoN => .ok ⟨observed, uptoN, none⟩
  | numOfStrides :: rest, firstBlock, observed, uptoN =>
    let nextBlock := firstBlock + (numOfStrides * blocksPerStride : ℕ+)
    let available := min length (packsPerBlock * packSize * nextBlock)
    (generateMultiBlockLogic packsPerBlock mMode mUseInOut EnableAsserts N bits firstBlock available
      numOfStrides blocksPerStride observed uptoN).bind fun c ↦
        if c.produced.isSome then .ok c
        else segments length blocksPerStride rest nextBlock c.observed c.uptoN

/-- The output of the modes that terminate is the memory of the input, unless that is disabled. -/
def useInOut (DisableInOutAttributes : Bool) : Bool :=
  decide (mMode ≠ .ZeroAfterN) && !DisableInOutAttributes

/-- A run of the kernel, on whatever is in the memory of the output. -/
def run (DisableInOutAttributes : Bool) (length : ℕ) (blocksPerStride : ℕ+) (strides : List ℕ+)
    (memory : Stream) : Except Fault Call :=
  let mUseInOut := useInOut mMode DisableInOutAttributes
  segments packsPerBlock mMode mUseInOut EnableAsserts N bits length blocksPerStride strides 0 0
    (if mUseInOut then bits else memory)

end Kernel

section Bits

variable {i j n p q w x k blk position : ℕ} {bits m : Stream}

theorem CreateAssert_of {b : Bool} (EnableAsserts : Bool) (hb : b = true) (message : String) :
    CreateAssert EnableAsserts b message = .ok () := by
  rw [CreateAssert, hb, Bool.not_true, Bool.and_false, if_neg Bool.false_ne_true]

theorem bitblock_mask_to_ok {bw : ℕ} (EnableAsserts : Bool) (hposition : position < bw) :
    ∃ mask, bitblock_mask_to EnableAsserts bw position = .ok mask ∧
      ∀ x, mask x = decide (x ≤ position) := by
  have hpos : 0 < packSize := by decide
  refine ⟨_, by rw [bitblock_mask_to, CreateAssert_of _ (decide_eq_true hposition)]; rfl, ?_⟩
  intro x
  generalize packSize = w at hpos
  have hx := Nat.div_add_mod x w
  have hxmod := Nat.mod_lt x hpos
  have hp := Nat.div_add_mod position w
  have hpmod := Nat.mod_lt position hpos
  rw [ofFields]
  rcases Nat.lt_trichotomy (x / w) (position / w) with hlt | heq | hgt
  · have hnext := Nat.mul_le_mul_left w hlt
    rw [Nat.mul_succ] at hnext
    rw [if_neg hlt.ne, if_pos (by omega), Nat.testBit_two_pow_sub_one]
    exact decide_eq_decide.2 (by omega)
  · rw [if_pos heq, Nat.testBit_shiftRight, Nat.testBit_two_pow_sub_one]
    rw [heq] at hx
    exact decide_eq_decide.2 (by omega)
  · have hnext := Nat.mul_le_mul_left w hgt
    rw [Nat.mul_succ] at hnext
    rw [if_neg hgt.ne', if_neg (by omega), Nat.zero_testBit, decide_eq_false (by omega)]

theorem rank_resetLowestBit (hn : n ≠ 0) (hq : countForwardZeroes n < q) :
    rank n.testBit q = rank (resetLowestBit n).testBit q + 1 := by
  induction q with
  | zero => exact absurd hq (Nat.not_lt_zero _)
  | succ q ih =>
    rw [rank_succ, rank_succ, testBit_resetLowestBit hn]
    rcases Nat.lt_succ_iff_lt_or_eq.1 hq with hlt | rfl
    · rw [ih hlt, decide_eq_true hlt, Bool.true_and]
      omega
    · have hbelow {m : ℕ} (hm : ∀ i < countForwardZeroes n, m.testBit i = false) :
          rank m.testBit (countForwardZeroes n) = 0 := by
        have hrank := rank_eq_of_false (m := m.testBit) (a := 0) fun i hi ↦
          (Nat.zero_add i).symm ▸ hm i hi
        rwa [Nat.zero_add, rank_zero] at hrank
      rw [hbelow fun i hi ↦ testBit_of_lt_countForwardZeroes hn hi, hbelow fun i hi ↦ ?_,
        testBit_countForwardZeroes hn, decide_eq_false (Nat.lt_irrefl _)]
      · rfl
      · rw [testBit_resetLowestBit hn, decide_eq_false (by omega), Bool.false_and]

/-- The bit that is found has as many set bits below it. -/
theorem findNthBit_apply (hn : n < rank x.testBit w) :
    x.testBit (countForwardZeroes (findNthBit (n + 1) x)) = true ∧
      rank x.testBit (countForwardZeroes (findNthBit (n + 1) x)) = n := by
  induction n generalizing x with
  | zero =>
    obtain ⟨p, -, hp, -⟩ := exists_rank_eq hn
    have hx : x ≠ 0 := by
      rintro rfl
      rw [Nat.zero_testBit] at hp
      exact Bool.noConfusion hp
    have hrank := rank_eq_of_false (m := x.testBit) (a := 0) (n := countForwardZeroes x) fun i hi ↦
      (Nat.zero_add i).symm ▸ testBit_of_lt_countForwardZeroes hx hi
    rw [Nat.zero_add, rank_zero] at hrank
    rw [findNthBit, if_pos rfl]
    exact ⟨testBit_countForwardZeroes hx, hrank⟩
  | succ n ih =>
    obtain ⟨p, hpw, hp, -⟩ := exists_rank_eq hn
    have hx : x ≠ 0 := by
      rintro rfl
      rw [Nat.zero_testBit] at hp
      exact Bool.noConfusion hp
    have hlow : countForwardZeroes x < w := by
      refine (Nat.le_of_not_lt fun hlt ↦ ?_).trans_lt hpw
      rw [testBit_of_lt_countForwardZeroes hx hlt] at hp
      exact Bool.noConfusion hp
    have hrest := rank_resetLowestBit hx hlow
    obtain ⟨hbit, hrank⟩ := ih (x := resetLowestBit x) (by omega)
    rw [testBit_resetLowestBit hx, Bool.and_eq_true, decide_eq_true_eq] at hbit
    rw [findNthBit, if_neg (Nat.succ_ne_zero n)]
    exact ⟨hbit.2, by rw [rank_resetLowestBit hx hbit.1, hrank]⟩

theorem field_load (P blk j : ℕ) (bits : Stream) :
    field packSize (loadInputStreamBlock (P * packSize) bits blk) j =
      field packSize bits (P * blk + j) := by
  apply Nat.eq_of_testBit_eq
  intro i
  rw [testBit_field, testBit_field, loadInputStreamBlock]
  congr 2
  ring

/-- The ones up to the end of a pack. -/
theorem rank_pack (bits : Stream) (g : ℕ) : rank bits (packSize * (g + 1)) =
    rank bits (packSize * g) + CreatePopcount packSize (field packSize bits g) := by
  rw [Nat.mul_succ, IDISA.rank_add_pop, CreatePopcount]
  congr 1
  refine rank_congr fun j hj ↦ ?_
  rw [testBit_field, decide_eq_true hj, Bool.true_and]

end Bits

section Groups

variable {P N firstBlock baseBlockIndex observed lo hi n l groupMask groupMarkers p : ℕ}
  {mUseInOut : Bool} {bits uptoN : Stream}

/-- The marks of the packs from `lo` on and before `hi` that are not empty. -/
def Marked (bits : Stream) (firstPack lo hi groupMarkers : ℕ) : Prop :=
  ∀ j, groupMarkers.testBit j = true ↔
    lo ≤ j ∧ j < hi ∧ ∃ i < packSize, bits (packSize * (firstPack + j) + i) = true

theorem Marked.mask (h : Marked bits (P * (firstBlock + baseBlockIndex)) 0 (P * l) groupMask)
    (hroom : P * (l + 1) ≤ packSize) :
    Marked bits (P * (firstBlock + baseBlockIndex)) 0 (P * (l + 1))
      (groupMask ||| hsimd_signmask packSize P (simd_any packSize
        (loadInputStreamBlock (P * packSize) bits (firstBlock + (baseBlockIndex + l)))) <<<
          (l * P) % 2 ^ packSize) := by
  intro j
  have hnext : P * (l + 1) = P * l + P := Nat.mul_succ P l
  have hplace (i : ℕ) (hle : P * l ≤ j) :
      packSize * (P * (firstBlock + (baseBlockIndex + l)) + (j - P * l)) + i =
        packSize * (P * (firstBlock + baseBlockIndex) + j) + i := by
    rw [Nat.mul_add P firstBlock, Nat.mul_add P baseBlockIndex, Nat.mul_add P firstBlock]
    congr 2
    omega
  rw [Nat.testBit_or, Bool.or_eq_true, h j, Nat.testBit_mod_two_pow, Bool.and_eq_true,
    Nat.testBit_shiftLeft, Bool.and_eq_true, decide_eq_true_eq, decide_eq_true_eq,
    testBit_metaMask (by decide), Nat.mul_comm l P]
  constructor
  · rintro (⟨hlo, hlt, hany⟩ | ⟨hlt, hle, hin, i, hi, hone⟩)
    · exact ⟨hlo, by omega, hany⟩
    · exact ⟨Nat.zero_le j, by omega, i, hi, by rwa [hplace i hle] at hone⟩
  · rintro ⟨hlo, hlt, i, hi, hone⟩
    by_cases hold : j < P * l
    · exact Or.inl ⟨hlo, hold, i, hi, hone⟩
    · have hle := Nat.le_of_not_lt hold
      exact Or.inr ⟨by omega, hle, by omega, i, hi, by rwa [hplace i hle]⟩

theorem iteratorLoop_marked (mUseInOut : Bool) (uptoN : Stream)
    (h : Marked bits (P * (firstBlock + baseBlockIndex)) 0 (P * l) groupMask)
    (hroom : P * (l + n) ≤ packSize) :
    Marked bits (P * (firstBlock + baseBlockIndex)) 0 (P * (l + n))
      (iteratorLoop P mUseInOut bits firstBlock baseBlockIndex n l groupMask uptoN).1 := by
  induction n generalizing l groupMask uptoN with
  | zero => exact h
  | succ n ih =>
    have hone : P * (l + 1) ≤ P * (l + (n + 1)) := Nat.mul_le_mul_left P (by omega)
    rw [← Nat.add_assoc, Nat.add_right_comm]
    exact ih _ (h.mask (hone.trans hroom)) (by rwa [Nat.add_right_comm])

/-- The output is right up to a position, or its memory is that of the input. -/
def Copied (mUseInOut : Bool) (bits : Stream) (n : ℕ) (uptoN : Stream) : Prop :=
  (mUseInOut = true → uptoN = bits) ∧ ∀ p < n, uptoN p = bits p

theorem iteratorLoop_copied (n groupMask : ℕ)
    (h : Copied mUseInOut bits (P * packSize * (firstBlock + baseBlockIndex + l)) uptoN) :
    Copied mUseInOut bits (P * packSize * (firstBlock + baseBlockIndex + (l + n)))
      (iteratorLoop P mUseInOut bits firstBlock baseBlockIndex n l groupMask uptoN).2 := by
  induction n generalizing l groupMask uptoN with
  | zero => exact h
  | succ n ih =>
    rw [show l + (n + 1) = l + 1 + n by omega]
    refine ih _ ⟨fun hmode ↦ ?_, fun p hp ↦ ?_⟩
    · rw [if_pos hmode]
      exact h.1 hmode
    · cases hmode : mUseInOut
      · rw [if_neg Bool.false_ne_true, storeOutputBlock]
        split_ifs with hblock
        · rw [loadInputStreamBlock, ← hblock, Nat.div_add_mod]
        · refine h.2 p ?_
          have hpos : 0 < P * packSize := Nat.pos_of_mul_pos_right (Nat.zero_lt_of_lt hp)
          have hlt := Nat.div_lt_of_lt_mul hp
          rw [Nat.mul_comm, ← Nat.div_lt_iff_lt_mul hpos]
          omega
      · rw [if_pos rfl, h.1 hmode]

theorem Marked.zero {G i j : ℕ} (h : Marked bits G lo hi groupMarkers) (hlo : lo ≤ j) (hhi : j < hi)
    (hnot : groupMarkers.testBit j = false) (hi : i < packSize) :
    bits (packSize * (G + j) + i) = false := by
  by_contra hone
  have hmark := (h j).2 ⟨hlo, hhi, i, hi, Bool.eq_true_of_not_eq_false hone⟩
  rw [hnot] at hmark
  exact Bool.noConfusion hmark

theorem rank_of_unmarked {G : ℕ} (hle : lo ≤ hi)
    (hzero : ∀ j, lo ≤ j → j < hi → ∀ i < packSize, bits (packSize * (G + j) + i) = false) :
    rank bits (packSize * (G + hi)) = rank bits (packSize * (G + lo)) := by
  induction hi, hle using Nat.le_induction with
  | base => rfl
  | succ hi hle ih =>
    rw [← Nat.add_assoc, Nat.mul_succ, rank_eq_of_false (hzero hi hle (Nat.lt_succ_self hi)),
      ih fun j hj hlt ↦ hzero j hj (Nat.lt_succ_of_lt hlt)]

/-- The `N`-th one is at the offset of a block of a call. -/
def NthAt (bits : Stream) (P N firstBlock blockIndex2 blockOffset : ℕ) : Prop :=
  blockOffset < P * packSize ∧
    bits (P * packSize * (firstBlock + blockIndex2) + blockOffset) = true ∧
    rank bits (P * packSize * (firstBlock + blockIndex2) + blockOffset) + 1 = N

theorem packOffset_or {packOffset packPosition : ℕ} (hlt : packPosition < packSize) :
    packOffset * packSize ||| packPosition = packOffset * packSize + packPosition := by
  rw [show packOffset * packSize = packOffset <<< 6 by rw [Nat.shiftLeft_eq]; rfl]
  exact (Nat.shiftLeft_add_eq_or_of_lt hlt packOffset).symm

/-- The pack in which the count reaches `N` has the `N`-th one. -/
theorem nthAt_findNthBit {j : ℕ} (hP : 0 < P) (hlt : observed < N)
    (hobserved : observed = rank bits (packSize * (P * (firstBlock + baseBlockIndex) + j)))
    (hreach : N ≤ observed + CreatePopcount packSize
      (field packSize bits (P * (firstBlock + baseBlockIndex) + j))) :
    NthAt bits P N firstBlock (baseBlockIndex + j / P)
      (j % P * packSize ||| countForwardZeroes (findNthBit (N - observed)
        (field packSize bits (P * (firstBlock + baseBlockIndex) + j)))) := by
  obtain ⟨n, hn⟩ : ∃ n, N - observed = n + 1 := ⟨N - observed - 1, by omega⟩
  obtain ⟨hbit, hrank⟩ := findNthBit_apply (w := packSize) (n := n)
    (x := field packSize bits (P * (firstBlock + baseBlockIndex) + j))
    (by rw [← CreatePopcount]; omega)
  rw [hn]
  generalize countForwardZeroes (findNthBit (n + 1)
    (field packSize bits (P * (firstBlock + baseBlockIndex) + j))) = t at *
  rw [testBit_field, Bool.and_eq_true, decide_eq_true_eq] at hbit
  obtain ⟨ht, hone⟩ := hbit
  have hdiv := Nat.div_add_mod j P
  have hmod := Nat.mod_lt j hP
  have hplace : P * packSize * (firstBlock + (baseBlockIndex + j / P)) +
      (j % P * packSize + t) = packSize * (P * (firstBlock + baseBlockIndex) + j) + t := by
    conv_rhs => rw [← hdiv]
    ring
  rw [packOffset_or ht]
  refine ⟨?_, ?_, ?_⟩
  · have hnext := Nat.mul_le_mul_right packSize (show j % P + 1 ≤ P from hmod)
    rw [Nat.succ_mul] at hnext
    omega
  · rw [hplace, hone]
  · have hbelow : rank (field packSize bits (P * (firstBlock + baseBlockIndex) + j)).testBit t =
        IDISA.pop bits (packSize * (P * (firstBlock + baseBlockIndex) + j)) t := by
      refine rank_congr fun i hi ↦ ?_
      rw [testBit_field, decide_eq_true (hi.trans ht), Bool.true_and]
    rw [hplace, IDISA.rank_add_pop, ← hobserved, ← hbelow, hrank]
    omega

theorem processGroup_spec (EnableAsserts : Bool) (hP : 0 < P) (hlt : observed < N) (hle : lo ≤ hi)
    (h : Marked bits (P * (firstBlock + baseBlockIndex)) lo hi groupMarkers)
    (hobserved : observed = rank bits (packSize * (P * (firstBlock + baseBlockIndex) + lo))) :
    (rank bits (packSize * (P * (firstBlock + baseBlockIndex) + hi)) < N →
      processGroup P EnableAsserts N bits firstBlock baseBlockIndex observed groupMarkers =
        .ok (rank bits (packSize * (P * (firstBlock + baseBlockIndex) + hi)), none)) ∧
    (N ≤ rank bits (packSize * (P * (firstBlock + baseBlockIndex) + hi)) →
      ∃ nth, processGroup P EnableAsserts N bits firstBlock baseBlockIndex observed groupMarkers =
          .ok (N, some nth) ∧
        P * (nth.1 - baseBlockIndex) < hi ∧ baseBlockIndex ≤ nth.1 ∧
        NthAt bits P N firstBlock nth.1 nth.2) := by
  induction groupMarkers using Nat.strongRecOn generalizing lo observed with
  | ind groupMarkers ih =>
    rw [processGroup]
    by_cases hnone : groupMarkers = 0
    · rw [if_pos hnone]
      have hsame := rank_of_unmarked hle fun j hlo hhi i ↦
        h.zero hlo hhi (by rw [hnone, Nat.zero_testBit])
      rw [← hobserved] at hsame
      rw [hsame]
      exact ⟨fun _ ↦ rfl, fun hreach ↦ absurd hlt (Nat.not_lt.2 hreach)⟩
    · obtain ⟨hlo, hhi, -⟩ := (h _).1 (testBit_countForwardZeroes hnone)
      have hblock : P * (firstBlock + (baseBlockIndex + countForwardZeroes groupMarkers / P)) +
          countForwardZeroes groupMarkers % P =
            P * (firstBlock + baseBlockIndex) + countForwardZeroes groupMarkers := by
        conv_rhs => rw [← Nat.div_add_mod (countForwardZeroes groupMarkers) P]
        ring
      have hbefore := rank_of_unmarked (G := P * (firstBlock + baseBlockIndex)) hlo
        fun j hj hjlt i ↦ h.zero hj (hjlt.trans hhi) (testBit_of_lt_countForwardZeroes hnone hjlt)
      rw [← hobserved] at hbefore
      have hafter := rank_pack bits
        (P * (firstBlock + baseBlockIndex) + countForwardZeroes groupMarkers)
      rw [hbefore, Nat.add_assoc] at hafter
      rw [if_neg hnone]
      dsimp only
      rw [field_load, hblock]
      split_ifs with hmore
      · have hnext : Marked bits (P * (firstBlock + baseBlockIndex))
            (countForwardZeroes groupMarkers + 1) hi (resetLowestBit groupMarkers) := by
          intro j
          rw [testBit_resetLowestBit hnone, Bool.and_eq_true, decide_eq_true_eq, h j]
          constructor
          · rintro ⟨hgt, -, hjhi, hany⟩
            exact ⟨hgt, hjhi, hany⟩
          · rintro ⟨hgt, hjhi, hany⟩
            exact ⟨hgt, by omega, hjhi, hany⟩
        exact ih _ (resetLowestBit_lt hnone) hmore hhi hnext hafter.symm
      · have hreach := Nat.le_of_not_lt hmore
        refine ⟨fun hfew ↦ ?_, fun _ ↦ ?_⟩
        · have hmono := rank_mono bits (Nat.mul_le_mul_left packSize
            (Nat.add_le_add_left (show countForwardZeroes groupMarkers + 1 ≤ hi from hhi)
              (P * (firstBlock + baseBlockIndex))))
          omega
        · rw [CreateAssert_of _ (decide_eq_true hlt)]
          refine ⟨_, rfl, ?_, Nat.le_add_right _ _, nthAt_findNthBit hP hlt hbefore.symm hreach⟩
          rw [Nat.add_sub_cancel_left]
          exact (Nat.mul_div_le _ _).trans_lt hhi

end Groups

section Loop

variable {k N firstBlock blocksRemaining observed fuel : ℕ} {mUseInOut : Bool} {bits uptoN : Stream}

theorem mul_maximumBlocks (hk : k ≤ 6) : 2 ^ k * (packSize / 2 ^ k) = packSize :=
  Nat.mul_div_cancel' (Nat.pow_dvd_pow 2 hk)

/-- An iteration goes through its packs, or ends in the one with the `N`-th one. -/
theorem iteration_spec {todo : ℕ} (EnableAsserts : Bool) (baseBlockIndex : ℕ)
    (hroom : 2 ^ k * todo ≤ packSize) (hlt : observed < N)
    (hobserved : observed = rank bits (2 ^ k * packSize * (firstBlock + baseBlockIndex)))
    (h : Copied mUseInOut bits (2 ^ k * packSize * (firstBlock + baseBlockIndex)) uptoN) :
    ∃ groups, iteratorLoop (2 ^ k) mUseInOut bits firstBlock baseBlockIndex todo 0 0 uptoN =
        groups ∧
      Copied mUseInOut bits (2 ^ k * packSize * (firstBlock + baseBlockIndex + todo)) groups.2 ∧
      (rank bits (2 ^ k * packSize * (firstBlock + baseBlockIndex + todo)) < N →
        processGroup (2 ^ k) EnableAsserts N bits firstBlock baseBlockIndex observed groups.1 =
          .ok (rank bits (2 ^ k * packSize * (firstBlock + baseBlockIndex + todo)), none)) ∧
      (N ≤ rank bits (2 ^ k * packSize * (firstBlock + baseBlockIndex + todo)) →
        ∃ nth, processGroup (2 ^ k) EnableAsserts N bits firstBlock baseBlockIndex observed
            groups.1 = .ok (N, some nth) ∧
          nth.1 < baseBlockIndex + todo ∧ NthAt bits (2 ^ k) N firstBlock nth.1 nth.2) := by
  have hpacks (n : ℕ) : packSize * (2 ^ k * (firstBlock + baseBlockIndex) + 2 ^ k * n) =
      2 ^ k * packSize * (firstBlock + baseBlockIndex + n) := by ring
  have hzero : Marked bits (2 ^ k * (firstBlock + baseBlockIndex)) 0 (2 ^ k * 0) 0 := by
    intro j
    rw [Nat.zero_testBit]
    exact iff_of_false Bool.false_ne_true fun hj ↦ absurd hj.2.1 (Nat.not_lt_zero j)
  have hmarked := iteratorLoop_marked (n := todo) mUseInOut uptoN hzero
    (by rwa [Nat.zero_add])
  have hcopied := iteratorLoop_copied (l := 0) todo 0 h
  rw [Nat.zero_add] at hmarked hcopied
  obtain ⟨hfew, hreach⟩ := processGroup_spec EnableAsserts (Nat.two_pow_pos k) hlt
    (Nat.zero_le _) hmarked (by rw [hobserved, ← Nat.mul_zero (2 ^ k), hpacks]; rfl)
  rw [hpacks] at hfew hreach
  refine ⟨_, rfl, hcopied, hfew, fun hN ↦ ?_⟩
  obtain ⟨nth, hok, hin, hbase, hnth⟩ := hreach hN
  exact ⟨nth, hok, (Nat.sub_lt_iff_lt_add' hbase).1 (Nat.lt_of_mul_lt_mul_left hin), hnth⟩

/-- The loop ends with all blocks copied, or where the `N`-th one is, with its block copied. -/
theorem strideLoop_spec (EnableAsserts : Bool) (baseBlockIndex : ℕ) (hk : k ≤ 6)
    (hfuel : blocksRemaining ≤ fuel) (hsome : 0 < blocksRemaining) (hlt : observed < N)
    (hobserved : observed = rank bits (2 ^ k * packSize * (firstBlock + baseBlockIndex)))
    (h : Copied mUseInOut bits (2 ^ k * packSize * (firstBlock + baseBlockIndex)) uptoN) :
    (rank bits (2 ^ k * packSize * (firstBlock + baseBlockIndex + blocksRemaining)) < N →
      ∃ uptoN', strideLoop (2 ^ k) mUseInOut EnableAsserts N bits firstBlock fuel baseBlockIndex
          blocksRemaining observed uptoN = .ok (rank bits
            (2 ^ k * packSize * (firstBlock + baseBlockIndex + blocksRemaining)), uptoN', none) ∧
        Copied mUseInOut bits
          (2 ^ k * packSize * (firstBlock + baseBlockIndex + blocksRemaining)) uptoN') ∧
    (N ≤ rank bits (2 ^ k * packSize * (firstBlock + baseBlockIndex + blocksRemaining)) →
      ∃ uptoN' nth, strideLoop (2 ^ k) mUseInOut EnableAsserts N bits firstBlock fuel baseBlockIndex
          blocksRemaining observed uptoN = .ok (N, uptoN', some nth) ∧
        NthAt bits (2 ^ k) N firstBlock nth.1 nth.2 ∧
        nth.1 < baseBlockIndex + blocksRemaining ∧
        Copied mUseInOut bits (2 ^ k * packSize * (firstBlock + nth.1 + 1)) uptoN') := by
  have hP : 0 < 2 ^ k := Nat.two_pow_pos k
  have hmax := mul_maximumBlocks hk
  have hpack : 0 < packSize := by decide
  have hmaxpos : 0 < packSize / 2 ^ k := Nat.pos_of_mul_pos_left (hmax.symm ▸ hpack)
  induction fuel generalizing baseBlockIndex blocksRemaining observed uptoN with
  | zero => omega
  | succ fuel ih =>
    rw [strideLoop]
    generalize htodo : min blocksRemaining (packSize / 2 ^ k) = todo
    have hroom : 2 ^ k * todo ≤ packSize :=
      (Nat.mul_le_mul_left _ (by omega)).trans hmax.le
    obtain ⟨groups, hgroups, hcopied, hfew, hreach⟩ :=
      iteration_spec EnableAsserts baseBlockIndex hroom hlt hobserved h
    rw [hgroups]
    by_cases hN : N ≤ rank bits (2 ^ k * packSize * (firstBlock + baseBlockIndex + todo))
    · obtain ⟨nth, hok, hblock, hnth⟩ := hreach hN
      have hend : nth.1 < baseBlockIndex + blocksRemaining :=
        hblock.trans_le (Nat.add_le_add_left (htodo ▸ Nat.min_le_left _ _) _)
      have hcovered : firstBlock + nth.1 + 1 ≤ firstBlock + baseBlockIndex + todo := by omega
      rw [hok]
      refine ⟨fun hnot ↦ ?_, fun _ ↦ ⟨_, nth, rfl, hnth, hend, hcopied.1, fun p hp ↦ ?_⟩⟩
      · have hmono := rank_mono bits (Nat.mul_le_mul_left (2 ^ k * packSize)
          (show firstBlock + baseBlockIndex + todo ≤
            firstBlock + baseBlockIndex + blocksRemaining by omega))
        omega
      · exact hcopied.2 p (hp.trans_le (Nat.mul_le_mul_left _ hcovered))
    · rw [hfew (Nat.lt_of_not_le hN)]
      dsimp only [Except.bind]
      rw [Option.isSome_none, if_neg Bool.false_ne_true]
      split_ifs with hlast
      · obtain rfl : todo = blocksRemaining := htodo.symm.trans (Nat.min_eq_left hlast)
        exact ⟨fun _ ↦ ⟨_, rfl, hcopied⟩, fun hnot ↦ absurd hnot hN⟩
      · obtain rfl : todo = packSize / 2 ^ k :=
          htodo.symm.trans (Nat.min_eq_right (Nat.le_of_not_le hlast))
        clear hfew hreach
        have hnext := @ih (blocksRemaining - packSize / 2 ^ k) _ _
          (baseBlockIndex + packSize / 2 ^ k) (by omega) (by omega) (Nat.lt_of_not_le hN)
          (by rw [Nat.add_assoc]) (by rwa [Nat.add_assoc] at hcopied)
        rw [show firstBlock + (baseBlockIndex + packSize / 2 ^ k) +
          (blocksRemaining - packSize / 2 ^ k) = firstBlock + baseBlockIndex + blocksRemaining
            by omega, show baseBlockIndex + packSize / 2 ^ k +
              (blocksRemaining - packSize / 2 ^ k) = baseBlockIndex + blocksRemaining by omega]
          at hnext
        exact hnext

end Loop

section Calls

variable {k n p q N firstBlock numOfBlocks available observed blk off : ℕ}
  {mUseInOut EnableAsserts : Bool} {bits uptoN memory : Stream}

/-- The stream without the ones after the `N`-th one. -/
def firstN (N : ℕ) (bits : Stream) : Stream := fun p ↦ bits p && decide (rank bits p < N)

theorem firstN_of_lt (h : rank bits n < N) (hp : p ≤ n) : firstN N bits p = bits p := by
  rw [firstN, decide_eq_true ((rank_mono bits hp).trans_lt h), Bool.and_true]

theorem firstN_of_le (h : N ≤ rank bits n) (hp : n ≤ p) : firstN N bits p = false := by
  rw [firstN, decide_eq_false (Nat.not_lt.2 (h.trans (rank_mono bits hp))), Bool.and_false]

theorem NthAt.reached (h : NthAt bits (2 ^ k) N firstBlock blk off) :
    N ≤ rank bits (2 ^ k * packSize * (firstBlock + blk) + off + 1) := by
  rw [rank_succ_of_true h.2.1]
  exact h.2.2.ge

theorem NthAt.firstN_of_le (h : NthAt bits (2 ^ k) N firstBlock blk off)
    (hp : p ≤ 2 ^ k * packSize * (firstBlock + blk) + off) : firstN N bits p = bits p :=
  firstN_of_lt (show rank bits _ < N by have := h.2.2; omega) hp

/-- The block of the `N`-th one is masked. -/
theorem NthAt.stored (h : NthAt bits (2 ^ k) N firstBlock blk off) {mask : Stream}
    (hmask : ∀ x, mask x = decide (x ≤ off))
    (hcopied : ∀ p < 2 ^ k * packSize * (firstBlock + blk + 1), uptoN p = bits p) (p : ℕ) :
    storeOutputBlock (2 ^ k * packSize) (firstBlock + blk) (simd_and
      (loadInputStreamBlock (2 ^ k * packSize) bits (firstBlock + blk)) mask) uptoN p =
        if p / (2 ^ k * packSize) ≤ firstBlock + blk then firstN N bits p else uptoN p := by
  have hpos : 0 < 2 ^ k * packSize := Nat.mul_pos (Nat.two_pow_pos k) (by decide)
  have hfirst := fun hp ↦ h.firstN_of_le (p := p) hp
  have hreached := h.reached
  have hdiv := Nat.div_add_mod p (2 ^ k * packSize)
  have hmod := Nat.mod_lt p hpos
  generalize 2 ^ k * packSize = W at *
  rw [storeOutputBlock]
  rcases Nat.lt_trichotomy (p / W) (firstBlock + blk) with hlt | heq | hgt
  · have hnext := Nat.mul_le_mul_left W hlt
    rw [Nat.mul_succ] at hnext
    have hblock : W * (firstBlock + blk) ≤ W * (firstBlock + blk + 1) :=
      Nat.mul_le_mul_left W (Nat.le_succ _)
    rw [if_neg hlt.ne, if_pos hlt.le, hcopied p (by omega), hfirst (by omega)]
  · rw [if_pos heq, if_pos heq.le, simd_and, hmask, loadInputStreamBlock, ← heq, hdiv]
    rw [heq] at hdiv
    by_cases hin : p % W ≤ off
    · rw [decide_eq_true hin, Bool.and_true, hfirst (by omega)]
    · rw [decide_eq_false hin, Bool.and_false, UntilNkernel.firstN_of_le hreached (by omega)]
  · rw [if_neg hgt.ne', if_neg (by omega)]

/-- The blocks behind it are zero. -/
theorem foundNthBit_zero (EnableAsserts : Bool) (numOfBlocks available : ℕ)
    (h : NthAt bits (2 ^ k) N firstBlock blk off)
    (hcopied : ∀ p < 2 ^ k * packSize * (firstBlock + blk + 1), uptoN p = bits p) :
    ∃ uptoN', foundNthBit (2 ^ k) .ZeroAfterN false EnableAsserts N bits firstBlock numOfBlocks
        available blk off uptoN = .ok ⟨N, uptoN', none⟩ ∧
      ∀ p < 2 ^ k * packSize * (firstBlock + numOfBlocks), uptoN' p = firstN N bits p := by
  obtain ⟨mask, hok, hmask⟩ := bitblock_mask_to_ok EnableAsserts h.1
  have hstored := h.stored hmask hcopied
  have hreached := h.reached
  have hpos : 0 < 2 ^ k * packSize := Nat.mul_pos (Nat.two_pow_pos k) (by decide)
  refine ⟨_, by rw [foundNthBit, hok]; rfl, fun p hp ↦ ?_⟩
  have hdiv := Nat.div_add_mod p (2 ^ k * packSize)
  have hblock : p / (2 ^ k * packSize) < firstBlock + numOfBlocks := Nat.div_lt_of_lt_mul hp
  have hoff := h.1
  have hafter (hgt : ¬ p / (2 ^ k * packSize) ≤ firstBlock + blk) : firstN N bits p = false := by
    refine UntilNkernel.firstN_of_le hreached ?_
    have hnext := Nat.mul_le_mul_left (2 ^ k * packSize)
      (show firstBlock + blk + 1 ≤ p / (2 ^ k * packSize) by omega)
    rw [Nat.mul_succ] at hnext
    omega
  split_ifs with hmore
  · rw [CreateMemZero, hstored]
    split_ifs with hzero hle
    · exact (hafter (by omega)).symm
    · rfl
    · omega
  · rw [hstored, if_pos (by omega)]

theorem log2_blockWidth (k : ℕ) : Nat.log2 (2 ^ k * packSize) = k + 6 := by
  rw [show 2 ^ k * packSize = 2 ^ (k + 6) from (pow_add 2 k 6).symm, Nat.log2_two_pow]

/-- The produced item count is set behind the `N`-th one. -/
theorem foundNthBit_terminate (EnableAsserts : Bool) (numOfBlocks available : ℕ)
    (h : NthAt bits (2 ^ k) N firstBlock blk off)
    (hcopied : Copied mUseInOut bits (2 ^ k * packSize * (firstBlock + blk + 1)) uptoN) :
    ∃ uptoN', (∀ p ≤ 2 ^ k * packSize * (firstBlock + blk) + off, uptoN' p = bits p) ∧
      foundNthBit (2 ^ k) .TerminateAtN mUseInOut EnableAsserts N bits firstBlock numOfBlocks
        available blk off uptoN =
          (CreateAssert EnableAsserts
            (decide (2 ^ k * packSize * (firstBlock + blk) + off + 1 < available))
            "position of n-th item exceeds available items!").bind fun _ ↦
              .ok ⟨N, uptoN', some (2 ^ k * packSize * (firstBlock + blk) + off + 1)⟩ := by
  have hposition : blk <<< Nat.log2 (2 ^ k * packSize) + (off + 1) +
      2 ^ k * packSize * firstBlock = 2 ^ k * packSize * (firstBlock + blk) + off + 1 := by
    rw [log2_blockWidth, Nat.shiftLeft_eq, pow_add, show 2 ^ 6 = packSize from rfl]
    ring
  have hmode : (Mode.TerminateAtN = Mode.ZeroAfterN ∨ Mode.TerminateAtN = Mode.TerminateAtN) :=
    Or.inr rfl
  rw [foundNthBit, decide_eq_true hmode, Bool.and_true]
  dsimp only
  rw [hposition]
  cases hinOut : mUseInOut
  · obtain ⟨mask, hok, hmask⟩ := bitblock_mask_to_ok EnableAsserts h.1
    have hstored := h.stored hmask hcopied.2
    rw [hok]
    refine ⟨_, fun p hp ↦ ?_, rfl⟩
    have hblock : p / (2 ^ k * packSize) ≤ firstBlock + blk :=
      (Nat.div_le_div_right hp).trans_eq (mul_add_div_of_lt h.1)
    rw [hstored, if_pos hblock, h.firstN_of_le hp]
  · exact ⟨_, fun p _ ↦ congrFun (hcopied.1 hinOut) p, rfl⟩

variable {numOfStrides blocksPerStride : ℕ+}

/-- A call that zeroes the ones after the `N`-th one. -/
theorem call_zero (hk : k ≤ 6) (EnableAsserts : Bool) (available : ℕ)
    (numOfStrides blocksPerStride : ℕ+)
    (hobserved : observed = min N (rank bits (2 ^ k * packSize * firstBlock)))
    (hright : ∀ p < 2 ^ k * packSize * firstBlock, uptoN p = firstN N bits p) :
    ∃ uptoN', generateMultiBlockLogic (2 ^ k) .ZeroAfterN false EnableAsserts N bits firstBlock
        available numOfStrides blocksPerStride observed uptoN =
          .ok ⟨min N (rank bits (2 ^ k * packSize *
            (firstBlock + (numOfStrides * blocksPerStride : ℕ+)))), uptoN', none⟩ ∧
      ∀ p < 2 ^ k * packSize * (firstBlock + (numOfStrides * blocksPerStride : ℕ+)),
        uptoN' p = firstN N bits p := by
  have hsome := (numOfStrides * blocksPerStride).pos
  rw [generateMultiBlockLogic]
  generalize ((numOfStrides * blocksPerStride : ℕ+) : ℕ) = numOfBlocks at *
  have hmono : rank bits (2 ^ k * packSize * firstBlock) ≤
      rank bits (2 ^ k * packSize * (firstBlock + numOfBlocks)) :=
    rank_mono bits (Nat.mul_le_mul_left _ (Nat.le_add_right _ _))
  by_cases hlt : observed < N
  · have hfew : rank bits (2 ^ k * packSize * firstBlock) < N := by omega
    have hcopied : Copied false bits (2 ^ k * packSize * (firstBlock + 0)) uptoN :=
      ⟨fun h ↦ absurd h Bool.false_ne_true, fun p hp ↦ (hright p hp).trans
        (firstN_of_lt hfew hp.le)⟩
    have hstart : observed = rank bits (2 ^ k * packSize * (firstBlock + 0)) := by
      rw [Nat.add_zero]
      omega
    obtain ⟨hnone, hfound⟩ := strideLoop_spec EnableAsserts 0 hk le_rfl hsome hlt hstart hcopied
    rw [Nat.add_zero, Nat.zero_add] at *
    rw [if_neg fun h ↦ h.2 hlt]
    by_cases hN : N ≤ rank bits (2 ^ k * packSize * (firstBlock + numOfBlocks))
    · obtain ⟨uptoN', nth, hok, hnth, -, hcopied'⟩ := hfound hN
      obtain ⟨uptoN'', hok', hright'⟩ :=
        foundNthBit_zero EnableAsserts numOfBlocks available hnth hcopied'.2
      rw [hok, Nat.min_eq_left hN]
      exact ⟨uptoN'', hok', hright'⟩
    · have hstill := Nat.lt_of_not_le hN
      obtain ⟨uptoN', hok, hcopied'⟩ := hnone hstill
      rw [hok, Nat.min_eq_right hstill.le]
      exact ⟨uptoN', rfl, fun p hp ↦ (hcopied'.2 p hp).trans (firstN_of_lt hstill hp.le).symm⟩
  · rw [if_pos ⟨by decide, hlt⟩, Nat.min_eq_left (by omega), show observed = N by omega]
    refine ⟨_, rfl, fun p hp ↦ ?_⟩
    have hdiv := Nat.div_add_mod p (2 ^ k * packSize)
    have hblock : p / (2 ^ k * packSize) < firstBlock + numOfBlocks := Nat.div_lt_of_lt_mul hp
    rw [CreateMemZero]
    split_ifs with hzero
    · have hge := Nat.mul_le_mul_left (2 ^ k * packSize) hzero.1
      exact (firstN_of_le (n := 2 ^ k * packSize * firstBlock) (by omega) (by omega)).symm
    · refine hright p ?_
      have hpos : 0 < 2 ^ k * packSize := Nat.mul_pos (Nat.two_pow_pos k) (by decide)
      rw [Nat.mul_comm, ← Nat.div_lt_iff_lt_mul hpos]
      omega

/-- A call that terminates at the `N`-th one, or copies its blocks. -/
theorem call_terminate (hk : k ≤ 6) (EnableAsserts : Bool) (available : ℕ)
    (numOfStrides blocksPerStride : ℕ+) (hlt : observed < N)
    (hobserved : observed = rank bits (2 ^ k * packSize * firstBlock))
    (hcopied : Copied mUseInOut bits (2 ^ k * packSize * firstBlock) uptoN) :
    (rank bits (2 ^ k * packSize * (firstBlock + (numOfStrides * blocksPerStride : ℕ+))) < N →
      ∃ uptoN', generateMultiBlockLogic (2 ^ k) .TerminateAtN mUseInOut EnableAsserts N bits
          firstBlock available numOfStrides blocksPerStride observed uptoN =
            .ok ⟨rank bits (2 ^ k * packSize *
              (firstBlock + (numOfStrides * blocksPerStride : ℕ+))), uptoN', none⟩ ∧
        Copied mUseInOut bits
          (2 ^ k * packSize * (firstBlock + (numOfStrides * blocksPerStride : ℕ+))) uptoN') ∧
    (N ≤ rank bits (2 ^ k * packSize * (firstBlock + (numOfStrides * blocksPerStride : ℕ+))) →
      ∃ uptoN', ∃ q < 2 ^ k * packSize * (firstBlock + (numOfStrides * blocksPerStride : ℕ+)),
        bits q = true ∧ rank bits q + 1 = N ∧ (∀ p ≤ q, uptoN' p = bits p) ∧
        generateMultiBlockLogic (2 ^ k) .TerminateAtN mUseInOut EnableAsserts N bits
          firstBlock available numOfStrides blocksPerStride observed uptoN =
            (CreateAssert EnableAsserts (decide (q + 1 < available))
              "position of n-th item exceeds available items!").bind fun _ ↦
                .ok ⟨N, uptoN', some (q + 1)⟩) := by
  have hsome := (numOfStrides * blocksPerStride).pos
  rw [generateMultiBlockLogic]
  generalize ((numOfStrides * blocksPerStride : ℕ+) : ℕ) = numOfBlocks at *
  obtain ⟨hnone, hfound⟩ :=
    strideLoop_spec EnableAsserts 0 hk le_rfl hsome hlt hobserved hcopied
  rw [Nat.add_zero, Nat.zero_add] at *
  rw [if_neg fun h ↦ h.1 rfl]
  refine ⟨fun hfew ↦ ?_, fun hN ↦ ?_⟩
  · obtain ⟨uptoN', hok, hcopied'⟩ := hnone hfew
    rw [hok]
    exact ⟨uptoN', rfl, hcopied'⟩
  · obtain ⟨uptoN', nth, hok, hnth, hblock, hcopied'⟩ := hfound hN
    obtain ⟨uptoN'', hright, hok'⟩ :=
      foundNthBit_terminate EnableAsserts numOfBlocks available hnth hcopied'
    rw [hok]
    refine ⟨uptoN'', _, ?_, hnth.2.1, hnth.2.2, hright, hok'⟩
    have hnext := Nat.mul_le_mul_left (2 ^ k * packSize)
      (show firstBlock + nth.1 + 1 ≤ firstBlock + numOfBlocks by omega)
    rw [Nat.mul_succ] at hnext
    exact (Nat.add_lt_add_left hnth.1 _).trans_le hnext

end Calls

section Runs

variable {k q N length firstBlock observed : ℕ} {mUseInOut EnableAsserts : Bool}
  {bits uptoN : Stream} {blocksPerStride : ℕ+}

/-- The blocks of the calls of a run, and the ends of the calls. -/
def blocks (blocksPerStride : ℕ+) (strides : List ℕ+) : ℕ :=
  (strides.map fun numOfStrides ↦ ((numOfStrides * blocksPerStride : ℕ+) : ℕ)).sum

def callEnds (bw : ℕ) (blocksPerStride : ℕ+) : ℕ → List ℕ+ → List ℕ
  | _, [] => []
  | firstBlock, numOfStrides :: rest =>
    let nextBlock := firstBlock + (numOfStrides * blocksPerStride : ℕ+)
    bw * nextBlock :: callEnds bw blocksPerStride nextBlock rest

theorem lt_of_mem_callEnds {bw e : ℕ} (hbw : 0 < bw) (strides : List ℕ+)
    (he : e ∈ callEnds bw blocksPerStride firstBlock strides) : bw * firstBlock < e := by
  induction strides generalizing firstBlock with
  | nil => cases he
  | cons numOfStrides rest ih =>
    have hsome := (numOfStrides * blocksPerStride).pos
    have hnext : bw * firstBlock < bw * (firstBlock + (numOfStrides * blocksPerStride : ℕ+)) :=
      Nat.mul_lt_mul_of_pos_left (by omega) hbw
    rcases List.mem_cons.1 he with rfl | hrest
    · exact hnext
    · exact hnext.trans (ih hrest)

/-- In a call that reaches behind a position, none of the later calls ends there. -/
theorem lt_min_iff_not_mem_callEnds {bw nextBlock : ℕ} (hbw : 0 < bw) (strides : List ℕ+)
    (hin : q < length) (hq : q < bw * nextBlock) :
    q + 1 < min length (bw * nextBlock) ↔ q + 1 ≠ length ∧
      q + 1 ∉ bw * nextBlock :: callEnds bw blocksPerStride nextBlock strides := by
  have hlater : q + 1 ∉ callEnds bw blocksPerStride nextBlock strides := fun he ↦
    absurd (lt_of_mem_callEnds hbw strides he) (Nat.not_lt.2 hq)
  rw [List.mem_cons, not_or, and_iff_left hlater]
  omega

theorem settles_assert {c : Call} {P : Call → Prop} (EnableAsserts b : Bool) (message : String)
    (hc : P c) : Settles (EnableAsserts = true → b = true) P
      ((CreateAssert EnableAsserts b message).bind fun _ ↦ .ok c) := by
  cases EnableAsserts
  · exact (Settles.ok hc).congr (iff_of_true trivial fun h ↦ Bool.noConfusion h)
  · cases b
    · exact ⟨fun h ↦ Bool.noConfusion (h rfl), fun _ ↦ ⟨_, rfl⟩⟩
    · exact (Settles.ok hc).congr (iff_of_true trivial fun _ ↦ rfl)

theorem segments_zero (hk : k ≤ 6) (EnableAsserts : Bool) (length : ℕ) (blocksPerStride : ℕ+)
    (strides : List ℕ+) (uptoN : Stream)
    (hobserved : observed = min N (rank bits (2 ^ k * packSize * firstBlock)))
    (hright : ∀ p < 2 ^ k * packSize * firstBlock, uptoN p = firstN N bits p) :
    ∃ c, segments (2 ^ k) .ZeroAfterN false EnableAsserts N bits length blocksPerStride strides
        firstBlock observed uptoN = .ok c ∧ c.produced = none ∧
      ∀ p < 2 ^ k * packSize * (firstBlock + blocks blocksPerStride strides),
        c.uptoN p = firstN N bits p := by
  induction strides generalizing firstBlock observed uptoN with
  | nil => exact ⟨_, rfl, rfl, hright⟩
  | cons numOfStrides rest ih =>
    obtain ⟨uptoN', hok, hright'⟩ := call_zero hk EnableAsserts
      (min length (2 ^ k * packSize * (firstBlock + (numOfStrides * blocksPerStride : ℕ+))))
      numOfStrides blocksPerStride hobserved hright
    rw [segments, hok, blocks, List.map_cons, List.sum_cons, ← blocks, ← Nat.add_assoc]
    exact ih uptoN' rfl hright'

/-- A run that terminates at the `N`-th one, unless it comes at the end of the file or of a call
and this is asserted not to happen, or copies its blocks. -/
theorem segments_terminate (hk : k ≤ 6) (EnableAsserts : Bool) (blocksPerStride : ℕ+)
    (strides : List ℕ+) (hlength : ∀ p, length ≤ p → bits p = false) (hlt : observed < N)
    (hobserved : observed = rank bits (2 ^ k * packSize * firstBlock))
    (hcopied : Copied mUseInOut bits (2 ^ k * packSize * firstBlock) uptoN) :
    (rank bits (2 ^ k * packSize * (firstBlock + blocks blocksPerStride strides)) < N →
      ∃ c, segments (2 ^ k) .TerminateAtN mUseInOut EnableAsserts N bits length blocksPerStride
          strides firstBlock observed uptoN = .ok c ∧ c.produced = none ∧
        ∀ p < 2 ^ k * packSize * (firstBlock + blocks blocksPerStride strides),
          c.uptoN p = bits p) ∧
    (N ≤ rank bits (2 ^ k * packSize * (firstBlock + blocks blocksPerStride strides)) →
      ∃ q, bits q = true ∧ rank bits q + 1 = N ∧
        Settles (EnableAsserts = true → q + 1 ≠ length ∧
            q + 1 ∉ callEnds (2 ^ k * packSize) blocksPerStride firstBlock strides)
          (fun c ↦ c.produced = some (q + 1) ∧ ∀ p ≤ q, c.uptoN p = bits p)
          (segments (2 ^ k) .TerminateAtN mUseInOut EnableAsserts N bits length blocksPerStride
            strides firstBlock observed uptoN)) := by
  induction strides generalizing firstBlock observed uptoN with
  | nil =>
    refine ⟨fun _ ↦ ⟨_, rfl, rfl, hcopied.2⟩, fun hN ↦ absurd hlt (Nat.not_lt.2 ?_)⟩
    exact hN.trans_eq hobserved.symm
  | cons numOfStrides rest ih =>
    have hbw : 0 < 2 ^ k * packSize := Nat.mul_pos (Nat.two_pow_pos k) (by decide)
    obtain ⟨hnone, hfound⟩ := call_terminate hk EnableAsserts
      (min length (2 ^ k * packSize * (firstBlock + (numOfStrides * blocksPerStride : ℕ+))))
      numOfStrides blocksPerStride hlt hobserved hcopied
    rw [segments, blocks, List.map_cons, List.sum_cons, ← blocks, ← Nat.add_assoc, callEnds]
    by_cases hN : N ≤ rank bits
        (2 ^ k * packSize * (firstBlock + (numOfStrides * blocksPerStride : ℕ+)))
    · obtain ⟨uptoN', q, hq, hone, hrank, hright, hok⟩ := hfound hN
      have hin : q < length := by
        by_contra hout
        rw [hlength q (Nat.le_of_not_lt hout)] at hone
        exact Bool.noConfusion hone
      rw [hok]
      refine ⟨fun hfew ↦ ?_, fun _ ↦ ⟨q, hone, hrank, ?_⟩⟩
      · have hmono := rank_mono bits (Nat.mul_le_mul_left (2 ^ k * packSize)
          (Nat.le_add_right (firstBlock + (numOfStrides * blocksPerStride : ℕ+))
            (blocks blocksPerStride rest)))
        exact absurd (hN.trans hmono) (Nat.not_le.2 hfew)
      · refine ((settles_assert EnableAsserts _ _ rfl).bind fun c hc ↦ ?_).congr
          ((and_iff_left trivial).trans (imp_congr_right fun _ ↦ ?_))
        · subst hc
          exact Settles.ok ⟨rfl, hright⟩
        · rw [decide_eq_true_eq]
          exact lt_min_iff_not_mem_callEnds hbw rest hin hq
    · obtain ⟨uptoN', hok, hcopied'⟩ := hnone (Nat.lt_of_not_le hN)
      obtain ⟨hrest, hrest'⟩ := ih (Nat.lt_of_not_le hN) rfl hcopied'
      rw [hok]
      refine ⟨hrest, fun hmore ↦ ?_⟩
      obtain ⟨q, hone, hrank, hsettles⟩ := hrest' hmore
      refine ⟨q, hone, hrank, hsettles.congr (imp_congr_right fun _ ↦ and_congr_right' ?_)⟩
      rw [List.mem_cons, not_or]
      refine (and_iff_right fun hend ↦ hN ?_).symm
      rw [← hend, rank_succ_of_true hone]
      exact hrank.ge

/-- The run terminates behind the `N`-th one, or with fewer ones not at all, and the stream is
passed through up to there. -/
structure TerminatesAfter (N : ℕ) (bits : Stream) (total : ℕ) (c : Call) : Prop where
  reached : ∀ q < total, bits q = true → rank bits q + 1 = N → c.produced = some (q + 1)
  passed : rank bits total < N → c.produced = none
  output : ∀ p < c.produced.getD total, c.uptoN p = bits p

theorem copied_start (mUseInOut : Bool) (bits memory : Stream) :
    Copied mUseInOut bits (2 ^ k * packSize * 0) (if mUseInOut then bits else memory) :=
  ⟨fun h ↦ if_pos h, fun p hp ↦ absurd hp (Nat.not_lt_zero p)⟩

/-- Without asserts the modes do what they say. The assertion that the produced item count is less
than the available one fails for an `N`-th one at the end of the file or of a call. -/
theorem run_exact (hk : k ≤ 6) (hN : 0 < N) (hlength : ∀ p, length ≤ p → bits p = false)
    (DisableInOutAttributes EnableAsserts : Bool) (blocksPerStride : ℕ+) (strides : List ℕ+)
    (memory : Stream) :
    (∃ c, run (2 ^ k) .ZeroAfterN EnableAsserts N bits DisableInOutAttributes length blocksPerStride
        strides memory = .ok c ∧ c.produced = none ∧
      ∀ p < 2 ^ k * packSize * blocks blocksPerStride strides, c.uptoN p = firstN N bits p) ∧
    ((∃ c, run (2 ^ k) .TerminateAtN EnableAsserts N bits DisableInOutAttributes length
        blocksPerStride strides memory = .ok c ∧
      TerminatesAfter N bits (2 ^ k * packSize * blocks blocksPerStride strides) c) ↔
      (EnableAsserts = true → ∀ q < 2 ^ k * packSize * blocks blocksPerStride strides,
        bits q = true → rank bits q + 1 = N → q + 1 ≠ length ∧
          q + 1 ∉ callEnds (2 ^ k * packSize) blocksPerStride 0 strides)) := by
  have hstart : 0 = rank bits (2 ^ k * packSize * 0) := (rank_zero bits).symm
  have hmono {p : ℕ} (hp : p < 2 ^ k * packSize * blocks blocksPerStride strides) :
      rank bits (p + 1) ≤ rank bits (2 ^ k * packSize * blocks blocksPerStride strides) :=
    rank_mono bits hp
  constructor
  · have hrun := segments_zero hk EnableAsserts length blocksPerStride strides memory
      (hstart ▸ (Nat.min_zero N).symm) fun p hp ↦ absurd hp (Nat.not_lt_zero p)
    rwa [Nat.zero_add] at hrun
  obtain ⟨hnone, hfound⟩ := segments_terminate hk EnableAsserts blocksPerStride strides hlength hN
    hstart (copied_start (useInOut .TerminateAtN DisableInOutAttributes) bits memory)
  rw [Nat.zero_add] at hnone hfound
  by_cases hfew : rank bits (2 ^ k * packSize * blocks blocksPerStride strides) < N
  · obtain ⟨c, hok, hproduced, hcopied⟩ := hnone hfew
    have hno {q : ℕ} (hq : q < 2 ^ k * packSize * blocks blocksPerStride strides)
        (hone : bits q = true) (hrank : rank bits q + 1 = N) : False := by
      have hle := hmono hq
      rw [rank_succ_of_true hone] at hle
      omega
    refine iff_of_true ⟨c, hok, fun q hq hone hrank ↦ (hno hq hone hrank).elim, fun _ ↦ hproduced,
      fun p hp ↦ ?_⟩ fun _ q hq hone hrank ↦ (hno hq hone hrank).elim
    rw [hproduced] at hp
    exact hcopied p hp
  · obtain ⟨q, hone, hrank, hsettles⟩ := hfound (Nat.le_of_not_lt hfew)
    have hq : q < 2 ^ k * packSize * blocks blocksPerStride strides := by
      by_contra hle
      have hbelow := rank_mono bits (Nat.le_of_not_lt hle)
      omega
    have hsame {q' : ℕ} (hone' : bits q' = true) (hrank' : rank bits q' + 1 = N) : q' = q :=
      rank_inj hone' hone (by omega)
    have hright : Settles _ (TerminatesAfter N bits
        (2 ^ k * packSize * blocks blocksPerStride strides)) _ := hsettles.imp fun _ c hc ↦ by
      refine ⟨fun q' _ hone' hrank' ↦ ?_, fun h ↦ absurd h hfew, fun p hp ↦ ?_⟩
      · rw [hsame hone' hrank']
        exact hc.1
      · rw [hc.1] at hp
        exact hc.2 p (Nat.le_of_lt_succ hp)
    refine hright.iff.trans (imp_congr_right fun _ ↦ ⟨fun h q' _ hone' hrank' ↦ ?_, fun h ↦ ?_⟩)
    · rw [hsame hone' hrank']
      exact h
    · exact h q hq hone hrank

/-- The ones after the second one are zeroed in a later call. -/
theorem run_exact_second :
    ∃ c, run (2 ^ 2) .ZeroAfterN true 2 (fun p ↦ decide (p < 500) && p % 200 == 0) false 512 1
        [1, 1] (fun _ ↦ true) = .ok c ∧ c.produced = none ∧
      ∀ p < 2 ^ 2 * packSize * blocks 1 [1, 1],
        c.uptoN p = firstN 2 (fun p ↦ decide (p < 500) && p % 200 == 0) p :=
  (run_exact (by decide) (by decide) (fun p hp ↦ by
    rw [decide_eq_false (by omega), Bool.false_and]) false true 1 [1, 1] _).1

/-- With asserts the run fails at a first one at the end of a call. -/
theorem run_asserts_last :
    ¬ ∃ c, run (2 ^ 2) .TerminateAtN true 1 (· == 255) false 256 1 [1] (fun _ ↦ false) = .ok c ∧
      TerminatesAfter 1 (· == 255) (2 ^ 2 * packSize * blocks 1 [1]) c := by
  have hone : ((255 : ℕ) == 255) = true := beq_self_eq_true 255
  have hzero : rank (· == 255) 255 = 0 := by
    have hrank := rank_eq_of_false (m := (· == 255)) (a := 0) (n := 255) fun i hi ↦
      beq_eq_false_iff_ne.2 (by omega)
    rwa [Nat.zero_add, rank_zero] at hrank
  have hlength (p : ℕ) (hp : 256 ≤ p) : (p == 255) = false := beq_eq_false_iff_ne.2 (by omega)
  obtain ⟨-, hfound⟩ := segments_terminate (k := 2) (N := 1) (by decide) true 1 [1] hlength
    Nat.one_pos (rank_zero _).symm
    (copied_start (useInOut .TerminateAtN false) (· == 255) fun _ ↦ false)
  obtain ⟨q, hq, -, hsettles⟩ := hfound (by
    refine Nat.le_of_eq ?_
    rw [show 2 ^ 2 * packSize * (0 + blocks 1 [1]) = 255 + 1 from rfl, rank_succ, hzero]
    rfl)
  obtain rfl := beq_iff_eq.1 hq
  obtain ⟨e, he⟩ := hsettles.2 fun h ↦ (h rfl).1 rfl
  rintro ⟨c, hok, -⟩
  rw [run, he] at hok
  cases hok

end Runs

end UntilNkernel

end Parabix.Streamutils
