import Parabix.Streamutils.StreamExpand

namespace Parabix.Streamutils

open Library.BitStream IDISA Unicode

/-- The selected bits of each field are moved to its low end. -/
def FieldCompress (bw mFW : ℕ) (extractionMask : Stream) (input : StreamSet) : StreamSet :=
  fun j ↦ storeOutputStreamBlock bw 1 fun blk _ ↦
    simd_pext mFW (loadInputStreamBlock bw (input j) blk)
      (loadInputStreamBlock bw extractionMask blk)

namespace StreamCompress

/-- The strides are of four blocks. -/
def StreamCompressStrideSize : ℕ := 4

section Block

variable (fw count : ℕ)

/-- The fields to move in each step, and those that receive a field of their own number. -/
def movementSteps (finalFieldNo : Stream) : (steps step : ℕ) → (fieldNo : Stream) →
    List (Stream × Stream)
  | 0, _, _ => []
  | steps + 1, step, fieldNo =>
    let mov := 2 ^ step
    let movSplat := simd_fill fw mov
    let fieldMovement := simd_sub fw finalFieldNo fieldNo
    let fieldsToMove := simd_eq fw movSplat (simd_and movSplat fieldMovement)
    let receivingFields := mvmd_srli fw count fieldsToMove mov
    let newFieldNos := simd_if receivingFields (mvmd_srli fw count fieldNo mov) fieldNo
    let combine := simd_and (simd_eq fw fieldNo newFieldNos) receivingFields
    (fieldsToMove, combine) :: movementSteps finalFieldNo steps (step + 1) newFieldNos

/-- What is determined for a block by its mask and the number of pending items. -/
structure Control where
  offsets : Stream
  currentFieldMask : Stream
  pendingFieldIdx : ℕ
  movement : List (Stream × Stream)
  updatedFieldIdx : ℕ
  pendingSpaceFilled : Bool
  shftBack : ℕ
  doesFit : Bool
  pendingItems : ℕ

def control (extractionMask : Stream) (pendingItems : ℕ) : Control :=
  let partialSum := hsimd_partial_sum fw count (simd_popcount fw extractionMask)
  let newPendingItems := field fw partialSum (count - 1)
  let pendingOffset := pendingItems % fw
  let splatPending := simd_fill fw pendingOffset
  let pendingFieldIdx := pendingItems / fw
  let offsets := simd_and (simd_add fw (mvmd_slli fw partialSum 1) splatPending)
    (simd_fill fw (fw - 1))
  let initialFieldNo := simd_srli fw (simd_add fw partialSum splatPending) (Nat.log2 fw)
  -- Fields that are shifted in have the number zero, so that the numbers begin with one.
  let fieldNo := simd_add fw initialFieldNo (simd_fill fw 1)
  let finalFieldNo := simd_add fw (simd_fill fw (field fw fieldNo 0)) (ofFields fw fun i ↦ i)
  let updatedFieldIdx := (pendingFieldIdx + field fw initialFieldNo 0) % 2 ^ fw
  let nextPendingItems := (pendingItems + newPendingItems) % 2 ^ fw
  let doesFit := decide (nextPendingItems < fw * count)
  { offsets
    currentFieldMask := simd_sllv fw (fun _ ↦ true) offsets
    pendingFieldIdx
    movement := movementSteps fw count finalFieldNo (Nat.log2 count) 0 fieldNo
    updatedFieldIdx
    pendingSpaceFilled := decide (updatedFieldIdx = count)
    shftBack := count - updatedFieldIdx
    doesFit
    pendingItems := if doesFit then nextPendingItems else nextPendingItems - fw * count }

def moveFields : (step : ℕ) → (outputFields : Stream) → List (Stream × Stream) → Stream
  | _, outputFields, [] => outputFields
  | step, outputFields, (fieldsToMove, combine) :: movement =>
    let unmoved := simd_and outputFields combine
    let data_to_move := simd_and outputFields fieldsToMove
    let fields_back := mvmd_srli fw count data_to_move (2 ^ step)
    let cleared := simd_xor outputFields data_to_move
    moveFields (step + 1) (simd_or fields_back (simd_or unmoved cleared)) movement

/-- The pending output with the items of the block, and the fields of the items after them. -/
def packBlock (poison : Stream) (c : Control) (sourceBlock pendingData : Stream) :
    Stream × Stream :=
  let alignedBits := simd_rotl fw sourceBlock c.offsets
  let currentFieldBits := simd_and alignedBits c.currentFieldMask
  let nextFieldBits := simd_xor currentFieldBits alignedBits
  let firstField := field fw currentFieldBits 0
  let vec1 := ofFields fw fun i ↦ if i = c.pendingFieldIdx then firstField else 0
  let pendingOutput := simd_or pendingData vec1
  let outputFields := simd_or (mvmd_srli fw count currentFieldBits 1) nextFieldBits
  let outputFields := moveFields fw count 0 outputFields c.movement
  let shiftedField := if c.pendingSpaceFilled then fun _ ↦ false
    else mvmd_sll fw count poison outputFields c.updatedFieldIdx
  (simd_or pendingOutput shiftedField, mvmd_srl fw count poison outputFields c.shftBack)

end Block

/-- The blocks of the output are counted from its first one. -/
structure State where
  outputOffset : ℕ
  pendingItems : ℕ
  pendingData : StreamSet
  compressedOutput : ℕ → StreamSet

section Kernel

variable (fw count : ℕ) (poison extractionMask : Stream) (source : StreamSet)

/-- The block of the pending output may be written again for the next block of the input. -/
def compressLoop : (numOfBlocks inputOffset : ℕ) → State → State
  | 0, _, s => s
  | numOfBlocks + 1, inputOffset, s =>
    let c := control fw count (loadInputStreamBlock (fw * count) extractionMask inputOffset)
      s.pendingItems
    let packed i := packBlock fw count poison c
      (loadInputStreamBlock (fw * count) (source i) inputOffset) (s.pendingData i)
    compressLoop numOfBlocks (inputOffset + 1)
      { outputOffset := if c.doesFit then s.outputOffset else s.outputOffset + 1
        pendingItems := c.pendingItems
        pendingData := fun i ↦ if c.doesFit then (packed i).1 else (packed i).2
        compressedOutput :=
          Function.update s.compressedOutput s.outputOffset fun i ↦ (packed i).1 }

/-- One call, for the blocks of `numOfStrides` strides. -/
def generateMultiBlockLogic (inputBlock produced numOfStrides : ℕ) (pendingData : StreamSet)
    (compressedOutput : ℕ → StreamSet) : State :=
  let pendingItemCount := produced % 2 ^ fw &&& (fw * count - 1)
  let s := compressLoop fw count poison extractionMask source
    (numOfStrides * StreamCompressStrideSize) inputBlock
    { outputOffset := produced / (fw * count)
      pendingItems := pendingItemCount
      pendingData
      compressedOutput }
  -- The last block may be filled exactly, and no block after it is written.
  if s.pendingItems ≠ 0 then
    { s with compressedOutput := Function.update s.compressedOutput s.outputOffset s.pendingData }
  else
    s

/-- The calls for the segments of the input. The output is produced at the rate of the population
of the mask. -/
def segments (inputBlock produced : ℕ) (s : State) : List ℕ → State × ℕ
  | [] => (s, produced)
  | numOfStrides :: rest =>
    let numOfBlocks := numOfStrides * StreamCompressStrideSize
    segments (inputBlock + numOfBlocks)
      (produced + pop extractionMask (fw * count * inputBlock) (fw * count * numOfBlocks))
      (generateMultiBlockLogic fw count poison extractionMask source inputBlock produced
        numOfStrides s.pendingData s.compressedOutput) rest

end Kernel

end StreamCompress

/-- The streams of the blocks that were stored. -/
def ofStored (bw : ℕ) (output : ℕ → StreamSet) : StreamSet := fun i p ↦ output (p / bw) i (p % bw)

/-- Compressed within the fields, and then in segments. The output has `before` in the places
that are not written. -/
def FilterByMask (fw count : ℕ) (poison : Stream) (before : ℕ → StreamSet) (mask : Stream)
    (inputs : StreamSet) (streamOffset : ℕ) (strides : List ℕ) : StreamCompress.State × ℕ :=
  let compressed := FieldCompress (fw * count) fw mask fun i ↦ inputs (streamOffset + i)
  StreamCompress.segments fw count poison mask compressed 0 0
    { outputOffset := 0
      pendingItems := 0
      pendingData := fun _ _ ↦ false
      compressedOutput := before } strides

end Parabix.Streamutils
