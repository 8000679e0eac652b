import Parabix.IDISA.Expand
import Parabix.Library.LowestBit
import Parabix.Streamutils.StreamExpand

namespace Parabix.Streamutils

open Library Library.BitStream IDISA Unicode

section Packs

variable (elemWidth maskWidth : ℕ)

/-- The vector of the items of a stream of `elemWidth` bits from `item` on. -/
def loadPack (source : Stream) (item : ℕ) : Stream := fun j ↦ source (elemWidth * item + j)

/-- The mask of a pack has a bit for each of its items. Masks are integers of whole bytes. -/
def loadMask (mask : Stream) (maskBase maskNo : ℕ) : Stream := fun j ↦
  mask (maskBase + 8 * ((maskWidth + 7) / 8) * maskNo + j)

/-- The number of items of the source that have been taken, from the first item of a pack on, and
the pack that was loaded last. -/
structure Pending where
  sourceOffset : ℕ
  pendingData : Stream

/-- The items of the source from the offset on, as many as the mask has ones, are the last ones of
the pending pack and the first ones of the new pack. -/
def alignedLoad (sourcePack : ℕ → Stream) (mask : Stream) (s : Pending) : Pending × Stream :=
  let maskPopCount := rank mask maskWidth
  let pendingPackNo := s.sourceOffset / maskWidth
  let pendingElemsDone := s.sourceOffset &&& (maskWidth - 1)
  let pendingElemsToKeep := (maskWidth - pendingElemsDone) &&& (maskWidth - 1)
  let updatedSourceOffset := s.sourceOffset + maskPopCount
  let nextPackNo := updatedSourceOffset / maskWidth
  let nextPackElems := updatedSourceOffset &&& (maskWidth - 1)
  -- A pack is loaded only if there are new items in it.
  let packToLoad := if nextPackElems = 0 then pendingPackNo else nextPackNo
  let newPack := sourcePack packToLoad
  ({ sourceOffset := updatedSourceOffset, pendingData := newPack },
    mvmd_dsll elemWidth maskWidth newPack s.pendingData pendingElemsToKeep)

def unalignedLoad (sourcePtr : ℕ → Stream) (mask : Stream) (s : Pending) : Pending × Stream :=
  ({ s with sourceOffset := s.sourceOffset + rank mask maskWidth }, sourcePtr s.sourceOffset)

/-- The packs of a source from the one in which the processed items end, and the state of the loads
at the start of a call. -/
def sourcePack (source : Stream) (processedSourceItems packNo : ℕ) : Stream :=
  loadPack elemWidth source
    (processedSourceItems - processedSourceItems % maskWidth + maskWidth * packNo)

def initialPending (source : Stream) (processedSourceItems : ℕ) : Pending where
  sourceOffset := processedSourceItems % maskWidth
  pendingData := sourcePack elemWidth maskWidth source processedSourceItems 0

end Packs

namespace ElemMerge

section Kernel

variable (elemWidth maskWidth : ℕ) (mask source1 source2 : Stream)

def elemMergeLoop (maskBase : ℕ) (sourcePack1 sourcePack2 : ℕ → Stream) :
    (numOfIterations maskNo : ℕ) → (s1 s2 : Pending) → List Stream
  | 0, _, _, _ => []
  | numOfIterations + 1, maskNo, s1, s2 =>
    let mask1 := loadMask maskWidth mask maskBase maskNo
    let mask2 := simd_not mask1
    let load1 := alignedLoad elemWidth maskWidth sourcePack1 mask1 s1
    let load2 := alignedLoad elemWidth maskWidth sourcePack2 mask2 s2
    simd_or (mvmd_expand elemWidth maskWidth load1.2 mask1)
        (mvmd_expand elemWidth maskWidth load2.2 mask2) ::
      elemMergeLoop maskBase sourcePack1 sourcePack2 numOfIterations (maskNo + 1) load1.1 load2.1

/-- One call, for the packs of `numOfStrides` blocks. -/
def generateMultiBlockLogic (processedMaskItems processed1 processed2 numOfStrides : ℕ) :
    List Stream :=
  elemMergeLoop elemWidth maskWidth mask processedMaskItems
    (sourcePack elemWidth maskWidth source1 processed1)
    (sourcePack elemWidth maskWidth source2 processed2)
    (numOfStrides * (elemWidth * maskWidth / maskWidth)) 0
    (initialPending elemWidth maskWidth source1 processed1)
    (initialPending elemWidth maskWidth source2 processed2)

/-- The calls for the segments of the mask. The sources are processed at the rates of its ones and
of its zeros. -/
def segments (processedMaskItems processed1 processed2 : ℕ) : List ℕ → List Stream
  | [] => []
  | numOfStrides :: rest =>
    let maskItems := elemWidth * maskWidth * numOfStrides
    generateMultiBlockLogic elemWidth maskWidth mask source1 source2 processedMaskItems processed1
        processed2 numOfStrides ++
      segments (processedMaskItems + maskItems)
        (processed1 + pop mask processedMaskItems maskItems)
        (processed2 + pop (fun p ↦ !mask p) processedMaskItems maskItems) rest

end Kernel

end ElemMerge

namespace ElemSpread

section Kernel

variable (elemWidth maskWidth : ℕ) (UnalignedLoads : Bool) (mask source : Stream)

/-- The sign bits of `count` fields. -/
def hsimd_signmask (fw count : ℕ) (a : Stream) : ℕ :=
  ofDigits ((List.range count).map fun i ↦ a (fw * i + (fw - 1)))

/-- The packs with a nonempty mask are filled, one after the other. -/
def scanPackLoop (maskOf : ℕ → Stream) (load : Stream → Pending → Pending × Stream) (metaMask : ℕ)
    (s : Pending) (spread : ℕ → Stream) : Pending × (ℕ → Stream) :=
  if metaMask = 0 then
    (s, spread)
  else
    let nextNonEmptyMaskNo := countForwardZeroes metaMask
    let mask := maskOf nextNonEmptyMaskNo
    let spreadable := load mask s
    scanPackLoop maskOf load (resetLowestBit metaMask) spreadable.1
      (Function.update spread nextNonEmptyMaskNo
        (mvmd_expand elemWidth maskWidth spreadable.2 mask))
termination_by metaMask
decreasing_by exact resetLowestBit_lt ‹_›

/-- The blocks of the output, each of `elemWidth` packs. They are zero before they are filled. -/
def blockAtATimeLoop (maskBlock : ℕ) (load : Stream → Pending → Pending × Stream) :
    (numOfBlocks blockNo : ℕ) → (s : Pending) → List (ℕ → Stream)
  | 0, _, _ => []
  | numOfBlocks + 1, blockNo, s =>
    let maskVector := loadInputStreamBlock (elemWidth * maskWidth) mask (maskBlock + blockNo)
    let metaMask := hsimd_signmask maskWidth elemWidth (simd_any maskWidth maskVector)
    let maskBase := elemWidth * maskWidth * (maskBlock + blockNo)
    let packs := scanPackLoop elemWidth maskWidth (loadMask maskWidth mask maskBase) load metaMask s
      fun _ _ ↦ false
    packs.2 :: blockAtATimeLoop maskBlock load numOfBlocks (blockNo + 1) packs.1

def generateMultiBlockLogic (maskBlock processedSourceItems numOfStrides : ℕ) :
    List (ℕ → Stream) :=
  if UnalignedLoads then
    let sourcePtr offset := loadPack elemWidth source (processedSourceItems + offset)
    blockAtATimeLoop elemWidth maskWidth mask maskBlock (unalignedLoad maskWidth sourcePtr)
      numOfStrides 0 { sourceOffset := 0, pendingData := fun _ ↦ false }
  else
    blockAtATimeLoop elemWidth maskWidth mask maskBlock
      (alignedLoad elemWidth maskWidth (sourcePack elemWidth maskWidth source processedSourceItems))
      numOfStrides 0 (initialPending elemWidth maskWidth source processedSourceItems)

def segments (maskBlock processedSourceItems : ℕ) : List ℕ → List (ℕ → Stream)
  | [] => []
  | numOfStrides :: rest =>
    generateMultiBlockLogic elemWidth maskWidth UnalignedLoads mask source maskBlock
        processedSourceItems numOfStrides ++
      segments (maskBlock + numOfStrides)
        (processedSourceItems +
          pop mask (elemWidth * maskWidth * maskBlock) (elemWidth * maskWidth * numOfStrides)) rest

end Kernel

end ElemSpread

namespace StreamMerge

/-- The strides are of four blocks. -/
def StreamMergeStrideSize : ℕ := 4

section Kernel

variable (fw count : ℕ) (marker : Stream) (source1 source2 : StreamSet) (streamBase : ℕ)

def mergeLoop (markerBlock sourceBlock1 sourceBlock2 : ℕ) : (numOfBlocks blockNo : ℕ) →
    (pendingOffset1 pendingOffset2 : ℕ) → (pendingData1 pendingData2 : StreamSet) → List StreamSet
  | 0, _, _, _, _, _ => []
  | numOfBlocks + 1, blockNo, pendingOffset1, pendingOffset2, pendingData1, pendingData2 =>
    let mask1 := loadInputStreamBlock (fw * count) marker (markerBlock + blockNo)
    let mask2 := simd_not mask1
    let newPendingOffset1 := pendingOffset1 + StreamExpand.blockPopCount fw count mask1
    let newPendingOffset2 := pendingOffset2 + StreamExpand.blockPopCount fw count mask2
    let sourceData1 : StreamSet := fun i ↦ loadInputStreamBlock (fw * count)
      (source1 (streamBase + i)) (sourceBlock1 + newPendingOffset1 / (fw * count))
    let sourceData2 : StreamSet := fun i ↦ loadInputStreamBlock (fw * count)
      (source2 (streamBase + i)) (sourceBlock2 + newPendingOffset2 / (fw * count))
    let expanded1 i := StreamExpand.expanded fw count mask1 (pendingOffset1 % (fw * count))
      (pendingData1 i) (sourceData1 i)
    let expanded2 i := StreamExpand.expanded fw count mask2 (pendingOffset2 % (fw * count))
      (pendingData2 i) (sourceData2 i)
    (fun i ↦ simd_or (simd_pdep fw (expanded1 i) mask1) (simd_pdep fw (expanded2 i) mask2)) ::
      mergeLoop markerBlock sourceBlock1 sourceBlock2 numOfBlocks (blockNo + 1) newPendingOffset1
        newPendingOffset2 sourceData1 sourceData2

def generateMultiBlockLogic (markerBlock processed1 processed2 numOfStrides : ℕ) :
    List StreamSet :=
  let sourceBlock1 := processed1 / (fw * count)
  let sourceBlock2 := processed2 / (fw * count)
  mergeLoop fw count marker source1 source2 streamBase markerBlock sourceBlock1 sourceBlock2
    (numOfStrides * StreamMergeStrideSize) 0 (processed1 % (fw * count))
    (processed2 % (fw * count))
    (fun i ↦ loadInputStreamBlock (fw * count) (source1 (streamBase + i)) sourceBlock1)
    fun i ↦ loadInputStreamBlock (fw * count) (source2 (streamBase + i)) sourceBlock2

def segments (markerBlock processed1 processed2 : ℕ) : List ℕ → List StreamSet
  | [] => []
  | numOfStrides :: rest =>
    let numOfBlocks := numOfStrides * StreamMergeStrideSize
    generateMultiBlockLogic fw count marker source1 source2 streamBase markerBlock processed1
        processed2 numOfStrides ++
      segments (markerBlock + numOfBlocks)
        (processed1 + pop marker (fw * count * markerBlock) (fw * count * numOfBlocks))
        (processed2 +
          pop (fun p ↦ !marker p) (fw * count * markerBlock) (fw * count * numOfBlocks)) rest

end Kernel

end StreamMerge

/-- The items of a sequence of packs. -/
def ofPacks (elemWidth maskWidth : ℕ) (packs : List Stream) (p : ℕ) : ℕ :=
  field elemWidth (packs.getD (p / maskWidth) fun _ ↦ false) (p % maskWidth)

/-- The items of a sequence of blocks of packs. -/
def ofPackBlocks (elemWidth maskWidth : ℕ) (blocks : List (ℕ → Stream)) (p : ℕ) : ℕ :=
  field elemWidth (blocks.getD (p / maskWidth / elemWidth) (fun _ _ ↦ false)
    (p / maskWidth % elemWidth)) (p % maskWidth)

end Parabix.Streamutils
