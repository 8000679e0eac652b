import Parabix.Library.LowestBit
import Parabix.Library.WordStore
import Parabix.Streamutils.SpreadMask

namespace Parabix.Streamutils

open Library Library.BitStream IDISA Unicode Pablo

namespace InsertionSpreadMaskKernel

def ScanWordWidth : ℕ := 64

/-- The loop variables, and the words of the output. -/
structure State where
  bn_processed : ℕ
  sm_produced : ℕ
  sm_pending : BitVec ScanWordWidth
  spread_mask : ℕ → BitVec ScanWordWidth

section Kernel

def initializeLoopVars (initialProcessed initialProduced : ℕ)
    (spread_mask : ℕ → BitVec ScanWordWidth) : State :=
  let sm_offset := initialProduced % ScanWordWidth
  let sm_base := initialProduced - sm_offset
  let sm_initial := spread_mask (sm_base / ScanWordWidth)
  let offset_mask := (1 : BitVec ScanWordWidth) <<< sm_offset - 1
  { bn_processed := initialProcessed
    sm_produced := initialProduced
    sm_pending := sm_initial &&& offset_mask
    spread_mask }

/-- The words behind the one that is filled. -/
def fillLoop (sm_word wordsToFill : ℕ) (final_pending : BitVec ScanWordWidth)
    (spread_mask : ℕ → BitVec ScanWordWidth) : ℕ → BitVec ScanWordWidth :=
  (List.range wordsToFill).foldl (fun spread_mask fillCounter ↦
    let nextScanWord := fillCounter + 1
    let toStore :=
      if nextScanWord = wordsToFill then final_pending else BitVec.allOnes ScanWordWidth
    Function.update spread_mask (sm_word + nextScanWord) toStore) spread_mask

/-- `wordPrologueLogic` and `finalize` append ones up to a position of the input. -/
def fillTo (position : ℕ) (s : State) : State :=
  let inputAdvance := position - s.bn_processed
  let sm_word := s.sm_produced / ScanWordWidth
  let sm_offset := s.sm_produced % ScanWordWidth
  let offset_mask := (1 : BitVec ScanWordWidth) <<< sm_offset - 1
  -- We may fill the current pending scanword.
  let pending_filled := s.sm_pending ||| ~~~offset_mask
  let updated_produced := s.sm_produced + inputAdvance
  let final_word := updated_produced / ScanWordWidth
  let final_offset := updated_produced % ScanWordWidth
  let final_mask := (1 : BitVec ScanWordWidth) <<< final_offset - 1
  let wordsToFill := final_word - sm_word
  if sm_word = final_word then
    let pending_filled := final_mask &&& pending_filled
    { bn_processed := position
      sm_produced := updated_produced
      sm_pending := pending_filled
      spread_mask := Function.update s.spread_mask sm_word pending_filled }
  else
    { bn_processed := position
      sm_produced := updated_produced
      sm_pending := final_mask
      spread_mask := fillLoop sm_word wordsToFill final_mask
        (Function.update s.spread_mask sm_word pending_filled) }

def theBit (mask : BitVec ScanWordWidth) (posInScanWord : ℕ) : BitVec ScanWordWidth :=
  mask >>> posInScanWord &&& 1

/-- The number in the index words at a position. -/
def insertAmount (masks : List (BitVec ScanWordWidth)) (posInScanWord : ℕ) : ℕ :=
  (masks.zipIdx.map fun mask ↦ (theBit mask.1 posInScanWord).toNat <<< mask.2).sum

/-- What is pending after the inserted zeros and the one, and what is stored before. -/
def insertItem (pos : InsertPosition) (pendingAfterAdvance : BitVec ScanWordWidth)
    (new_offset insertAmt : ℕ) : BitVec ScanWordWidth × BitVec ScanWordWidth :=
  let totalInsert := insertAmt + 1
  match pos with
  | .After =>
    -- Generate a 1 bit followed by insertAmt zeroes.
    let newPending := pendingAfterAdvance ||| (1 : BitVec ScanWordWidth) <<< new_offset
    let updatedOffset := totalInsert + new_offset
    let pack_filled := ScanWordWidth ≤ updatedOffset
    (if pack_filled then 0 else newPending, newPending)
  | .Before =>
    -- Generate insertAmt zeroes followed by a 1 bit.
    let bitOffset := new_offset + insertAmt
    let overflow := ScanWordWidth ≤ bitOffset
    let placedBit := (1 : BitVec ScanWordWidth) <<< (bitOffset % ScanWordWidth)
    let currentPending :=
      if overflow then pendingAfterAdvance else pendingAfterAdvance ||| placedBit
    let updatedOffset := totalInsert + new_offset
    let pack_filled := ScanWordWidth ≤ updatedOffset
    let pendingAfterInsert := if pack_filled then placedBit else currentPending
    let zero_pending := xor (decide pack_filled) (decide overflow)
    (if zero_pending then 0 else pendingAfterInsert, currentPending)

def generateProcessingLogic (pos : InsertPosition) (masks : List (BitVec ScanWordWidth))
    (absItemPos : ℕ) (s : State) : State :=
  let sm_offset := s.sm_produced % ScanWordWidth
  let sm_base := s.sm_produced - sm_offset
  let sm_word_ptr := sm_base / ScanWordWidth
  let advanceAmt := absItemPos - s.bn_processed
  let advanceAmt_mask := (1 : BitVec ScanWordWidth) <<< advanceAmt - 1
  let advanced_mask := advanceAmt_mask <<< sm_offset
  let pending_updated := s.sm_pending ||| advanced_mask
  -- We may have filled the word; write it out in case we move on.
  let spread_mask := Function.update s.spread_mask sm_word_ptr pending_updated
  let producedAfterAdvance := s.sm_produced + advanceAmt
  let sm_word_advance := ScanWordWidth ≤ producedAfterAdvance - sm_base
  let new_offset := producedAfterAdvance % ScanWordWidth
  let new_mask := (1 : BitVec ScanWordWidth) <<< new_offset - 1
  let pendingAfterAdvance := if sm_word_advance then new_mask else pending_updated
  let sm_word_ptr := if sm_word_advance then sm_word_ptr + 1 else sm_word_ptr
  let insertAmt := insertAmount masks (absItemPos % ScanWordWidth)
  let inserted := insertItem pos pendingAfterAdvance new_offset insertAmt
  { bn_processed := absItemPos + 1
    sm_produced := producedAfterAdvance + (insertAmt + 1)
    sm_pending := inserted.1
    spread_mask := Function.update spread_mask sm_word_ptr inserted.2 }

end Kernel

section Scan

variable (scanwordsPerBlock : ℕ) (pos : InsertPosition) (bixNumInsertCount : BixNum Stream)

/-- The word of a stream at a position. -/
def scanWord (position : ℕ) (s : Stream) : ℕ := field ScanWordWidth s (position / ScanWordWidth)

/-- The scan word that is the `wordsToSkip`-th one of a stride. -/
def processWord (priorProcessed : ℕ) (s : State) (wordsToSkip : ℕ) : State :=
  let wordBasePosition := priorProcessed + wordsToSkip * ScanWordWidth
  let indexWord := bixNumInsertCount.map (scanWord wordBasePosition)
  let scanWord := indexWord.foldl (· ||| ·) 0
  (setBits scanWord).foldl (fun s indexInWord ↦
      generateProcessingLogic pos (indexWord.map (BitVec.ofNat ScanWordWidth))
        (wordBasePosition + indexInWord) s)
    (fillTo wordBasePosition s)

/-- The words of a stride in which a bit of a count is set. -/
def generateIndexComputation (priorProcessed words : ℕ) : ℕ :=
  ofDigits ((List.range words).map fun word ↦
    bixNumInsertCount.any fun s ↦ scanWord (priorProcessed + word * ScanWordWidth) s ≠ 0)

def strideLogic (priorProcessed words : ℕ) (s : State) : State :=
  (setBits (generateIndexComputation bixNumInsertCount priorProcessed words)).foldl
    (processWord pos bixNumInsertCount priorProcessed) s

/-- The strides are of as many blocks as a meta mask has bits for. -/
def multiStrideLoop (baseProcessed numOfBlocks : ℕ) : ℕ → ℕ → State → State
  | 0, _, s => s
  | fuel + 1, priorBlocksDone, s =>
    let maxStrideBlocks := 64 / scanwordsPerBlock
    let blocksRemaining := numOfBlocks - priorBlocksDone
    let blocksToDo :=
      if maxStrideBlocks ≤ blocksRemaining then maxStrideBlocks else blocksRemaining
    let finalBlocksDone := priorBlocksDone + blocksToDo
    let s := strideLogic pos bixNumInsertCount
      (priorBlocksDone * (ScanWordWidth * scanwordsPerBlock) + baseProcessed)
      (blocksToDo * scanwordsPerBlock) s
    if finalBlocksDone = numOfBlocks then
      s
    else
      multiStrideLoop baseProcessed numOfBlocks fuel finalBlocksDone s

/-- The segments of the input, of which each one is finalized: the items that are available are
those of its blocks, as far as there are any. -/
def segments (items : ℕ) : ℕ → (ℕ → BitVec ScanWordWidth) × ℕ → List ℕ →
    (ℕ → BitVec ScanWordWidth) × ℕ
  | _, output, [] => output
  | blockNo, output, numOfBlocks :: rest =>
    let blockWidth := ScanWordWidth * scanwordsPerBlock
    let processed := blockWidth * blockNo
    let avail := min items (blockWidth * (blockNo + numOfBlocks))
    let s := fillTo avail (multiStrideLoop scanwordsPerBlock pos bixNumInsertCount processed
      numOfBlocks numOfBlocks 0 (initializeLoopVars processed output.2 output.1))
    segments items (blockNo + numOfBlocks) (s.spread_mask, s.sm_produced) rest

end Scan

end InsertionSpreadMaskKernel

/-- The mask that the kernel leaves in a buffer with any contents before. -/
def InsertionSpreadMaskKernel (scanwordsPerBlock : ℕ) (buffer : ℕ → BitVec 64)
    (pos : InsertPosition) (bixNumInsertCount : BixNum Stream) (items : ℕ) (strides : List ℕ) :
    List Bool :=
  let output := InsertionSpreadMaskKernel.segments scanwordsPerBlock pos
    (bixNumInsertCount.map (finalInput items)) items 0 (buffer, 0) strides
  written output.1 output.2

end Parabix.Streamutils
