import Parabix.IDISA.Moves

namespace Parabix.Util

open Library Library.BitStream IDISA

/-- The builder of kernels for vectors that consist of words of 32 bits. -/
structure KernelBuilder where
  BitBlockWidth : ℕ
  width_pos : 0 < BitBlockWidth
  words : 32 ∣ BitBlockWidth

/-- The bytes of a stream, by their positions. -/
abbrev ByteStream := ℕ → BitVec 8

namespace KernelBuilder

variable (b : KernelBuilder)

/-- The bytes of a vector. -/
def PACK_SIZE : ℕ := b.BitBlockWidth / 8

theorem PACK_SIZE_pos : 0 < b.PACK_SIZE := by
  have hpos := b.width_pos
  have hwords := b.words
  rw [PACK_SIZE]
  omega

/-- The position of a pack, of which a block of bytes has eight. -/
def packPosition (processed packIndex blockOffset : ℕ) : ℕ :=
  processed + b.BitBlockWidth * blockOffset + b.PACK_SIZE * packIndex

def loadInputStreamPack (input : ByteStream) (processed packIndex blockOffset : ℕ) : Stream :=
  ofFields 8 fun i ↦
    if i < b.PACK_SIZE then (input (b.packPosition processed packIndex blockOffset + i)).toNat else 0

def storeOutputStreamPack (output : ByteStream) (produced packIndex blockOffset : ℕ)
    (pack : Stream) : ByteStream := fun p ↦
  let start := b.packPosition produced packIndex blockOffset
  if start ≤ p ∧ p < start + b.PACK_SIZE then BitVec.ofNat 8 (field 8 pack (p - start))
  else output p

/-- The fields of two vectors by the numbers of a mask. -/
def CreateShuffleVector (v1 v2 : Stream) (mask : ℕ → ℕ) : Stream :=
  ofFields 8 fun i ↦
    if mask i < b.PACK_SIZE then field 8 v1 (mask i) else field 8 v2 (mask i - b.PACK_SIZE)

end KernelBuilder

/-- The item counts of a kernel and its output. -/
structure KernelState where
  processed : ℕ
  produced : ℕ
  output : ByteStream

/-- The calls of a kernel for full strides, one for each segment, before the final one. -/
structure Segments (strides : ℕ) where
  numOfStrides : List ℕ
  pos : ∀ n ∈ numOfStrides, 0 < n
  sum_eq : numOfStrides.sum = strides

variable (b : KernelBuilder)

namespace expand3_4Kernel

/-- 0, 1, 2, 2, 3, 4, 5, 5, ... -/
def expand3_4_index : ℕ → ℕ
  | 0 => 0
  | i + 1 => if i % 4 ≠ 2 then expand3_4_index i + 1 else expand3_4_index i

def expand3_4_offset : ℕ → ℕ
  | 0 => b.PACK_SIZE
  | 1 => 3 * b.PACK_SIZE / 4
  | 2 => b.PACK_SIZE / 2
  | _ => b.PACK_SIZE / 4

def expand_3_4_shuffle (j i : ℕ) : ℕ := expand3_4_offset b j + expand3_4_index i

variable (undefPack : Stream) (sourceStream : ByteStream) (processed produced : ℕ)

def storeExpanded (baseOutputOffset index : ℕ) (expanded : Stream) (out : ByteStream) :
    ByteStream :=
  let outputOffset := baseOutputOffset + index
  b.storeOutputStreamPack out produced (outputOffset &&& 7) (outputOffset >>> 3) expanded

/-- One of the three packs: the pack that is carried over, and the output. -/
def expandPack (strideOffset : ℕ) (s : Stream × ByteStream) (index : ℕ) : Stream × ByteStream :=
  let inputOffset := strideOffset * 3 + index
  let input := b.loadInputStreamPack sourceStream processed (inputOffset &&& 7) (inputOffset >>> 3)
  let expanded := b.CreateShuffleVector s.1 input (expand_3_4_shuffle b index)
  (input, storeExpanded b produced (strideOffset * 4) index expanded s.2)

/-- Three packs of input make four of output. -/
def expandPacks (strideOffset : ℕ) (out : ByteStream) : ByteStream :=
  let s := (List.range 3).foldl (expandPack b sourceStream processed produced strideOffset)
    (undefPack, out)
  let expanded := b.CreateShuffleVector s.1 undefPack (expand_3_4_shuffle b 3)
  storeExpanded b produced (strideOffset * 4) 3 expanded s.2

def expand_3_4_loop (numOfBlocks strideOffset : ℕ) (out : ByteStream) : ByteStream :=
  let out := expandPacks b undefPack sourceStream processed produced strideOffset out
  if strideOffset + 1 < numOfBlocks then expand_3_4_loop numOfBlocks (strideOffset + 1) out
  else out
termination_by numOfBlocks - strideOffset

def generateMultiBlockLogic (s : KernelState) (numOfStrides : ℕ) : KernelState :=
  { processed := s.processed + 3 * b.BitBlockWidth * numOfStrides
    produced := s.produced + 4 * b.BitBlockWidth * numOfStrides
    output := expand_3_4_loop b undefPack sourceStream s.processed s.produced (numOfStrides * 8) 0
      s.output }

/-- The final call makes one stride of what is left. -/
def run {strides : ℕ} (segments : Segments strides) (output : ByteStream) : ByteStream :=
  let s := segments.numOfStrides.foldl (generateMultiBlockLogic b undefPack sourceStream)
    ⟨0, 0, output⟩
  (generateMultiBlockLogic b undefPack sourceStream s 1).output

end expand3_4Kernel

/-- The calls of a kernel that does its work block by block, for as many items. -/
def BlockOrientedKernel.run (doBlock : ℕ → ByteStream → ByteStream)
    (finalBlock : ℕ → ℕ → ByteStream → ByteStream) {items : ℕ}
    (segments : Segments (items / b.BitBlockWidth)) (output : ByteStream) : ByteStream :=
  let doBlocks (s : ℕ × ByteStream) (_ : ℕ) := (s.1 + b.BitBlockWidth, doBlock s.1 s.2)
  let s := segments.numOfStrides.foldl (fun s numOfBlocks ↦ (List.range numOfBlocks).foldl doBlocks s)
    (0, output)
  finalBlock s.1 (items - s.1) s.2

namespace radix64Kernel

def simd_slli (fw : ℕ) (a : Stream) (shift : ℕ) : Stream :=
  ofFields fw fun i ↦ field fw a i <<< shift

def processPackData (bytepack : Stream) : Stream :=
  let right_6_result := simd_srli 32 (simd_and bytepack (simd_fill 32 0x00C00000)) 6
  let left_8_result := simd_slli 32 (simd_and bytepack (simd_fill 32 0x003F0000)) 8
  let mid := simd_or right_6_result left_8_result
  let right_4_result := simd_srli 32 (simd_and bytepack (simd_fill 32 0x0000F000)) 4
  let mid := simd_or mid right_4_result
  let left_10_result := simd_slli 32 (simd_and bytepack (simd_fill 32 0x00000F00)) 10
  let mid := simd_or mid left_10_result
  let right_2_result := simd_srli 32 (simd_and bytepack (simd_fill 32 0x000000FC)) 2
  let mid := simd_or mid right_2_result
  let left_12_result := simd_slli 32 (simd_and bytepack (simd_fill 32 0x00000003)) 12
  simd_or mid left_12_result

variable (expandedStream : ByteStream)

def processPack (base : ℕ) (out : ByteStream) (i : ℕ) : ByteStream :=
  let bytepack := b.loadInputStreamPack expandedStream base i 0
  b.storeOutputStreamPack out base i 0 (processPackData bytepack)

def generateDoBlockMethod (base : ℕ) (out : ByteStream) : ByteStream :=
  (List.range 8).foldl (processPack b expandedStream base) out

/-- What is left after a pack is a signed number. -/
def radix64_loop (base idx : ℕ) (loopRemain : ℤ) (out : ByteStream) : ByteStream :=
  let out := processPack b expandedStream base out idx
  let remainAfterLoop := loopRemain - b.PACK_SIZE
  if 0 < remainAfterLoop then radix64_loop base (idx + 1) remainAfterLoop out else out
termination_by loopRemain.toNat
decreasing_by
  have := b.PACK_SIZE_pos
  omega

def generateFinalBlockMethod (base remainingBytes : ℕ) (out : ByteStream) : ByteStream :=
  if remainingBytes = 0 then out else radix64_loop b expandedStream base 0 remainingBytes out

def run {items : ℕ} (segments : Segments (items / b.BitBlockWidth)) (output : ByteStream) :
    ByteStream :=
  BlockOrientedKernel.run b (generateDoBlockMethod b expandedStream)
    (generateFinalBlockMethod b expandedStream) segments output

end radix64Kernel

namespace base64Kernel

def simd_ugt (fw : ℕ) (a b : Stream) : Stream :=
  ofFields fw fun i ↦ if field fw b i < field fw a i then 2 ^ fw - 1 else 0

def processPackData (bytepack : Stream) : Stream :=
  let mask_gt_25 := simd_ugt 8 bytepack (simd_fill 8 25)
  let mask_gt_51 := simd_ugt 8 bytepack (simd_fill 8 51)
  let mask_eq_62 := simd_eq 8 bytepack (simd_fill 8 62)
  let mask_eq_63 := simd_eq 8 bytepack (simd_fill 8 63)
  let t0_25 := simd_add 8 bytepack (simd_fill 8 'A'.toNat)
  let t0_51 := simd_add 8 t0_25 (simd_and mask_gt_25 (simd_fill 8 6))
  let t0_61 := simd_sub 8 t0_51 (simd_and mask_gt_51 (simd_fill 8 75))
  let t0_62 := simd_sub 8 t0_61 (simd_and mask_eq_62 (simd_fill 8 15))
  simd_sub 8 t0_62 (simd_and mask_eq_63 (simd_fill 8 12))

variable (radix64stream : ByteStream)

def processPack (base : ℕ) (out : ByteStream) (i : ℕ) : ByteStream :=
  let bytepack := b.loadInputStreamPack radix64stream base i 0
  b.storeOutputStreamPack out base i 0 (processPackData bytepack)

def generateDoBlockMethod (base : ℕ) (out : ByteStream) : ByteStream :=
  (List.range 8).foldl (processPack b radix64stream base) out

def base64_loop (base idx loopRemain : ℕ) (out : ByteStream) : ByteStream :=
  let out := processPack b radix64stream base out idx
  if b.PACK_SIZE < loopRemain then base64_loop base (idx + 1) (loopRemain - b.PACK_SIZE) out
  else out
termination_by loopRemain
decreasing_by
  have := b.PACK_SIZE_pos
  omega

def PADDING : BitVec 8 := BitVec.ofNat 8 '='.toNat

/-- The padding bytes are written at the end of the block's items. -/
def doPadding (base remainingBytes : ℕ) (out : ByteStream) : ByteStream :=
  let remainMod4 := remainingBytes &&& 3
  let padBytes := (4 - remainMod4) &&& 3
  if padBytes = 0 then
    out
  else
    let out := Function.update out (base + remainingBytes) PADDING
    if remainMod4 = 3 then out else Function.update out (base + (remainingBytes + 1)) PADDING

def generateFinalBlockMethod (base remainingBytes : ℕ) (out : ByteStream) : ByteStream :=
  if remainingBytes = 0 then
    out
  else
    doPadding base remainingBytes (base64_loop b radix64stream base 0 remainingBytes out)

def run {items : ℕ} (segments : Segments (items / b.BitBlockWidth)) (output : ByteStream) :
    ByteStream :=
  BlockOrientedKernel.run b (generateDoBlockMethod b radix64stream)
    (generateFinalBlockMethod b radix64stream) segments output

end base64Kernel

/-- The items of a stream; the bytes behind them read as zeros. -/
def items (count : ℕ) (s : ByteStream) : ByteStream := fun p ↦ if p < count then s p else 0

/-- The number of expanded items by the rates 3 and 4. -/
def expandedItems (length : ℕ) : ℕ := (4 * length + 2) / 3

/-- The number of items rounded up to a multiple. -/
def roundUpTo (k count : ℕ) : ℕ := (count + (k - 1)) / k * k

/-- How the calls of the three kernels cut a sequence of bytes. -/
structure Cut (length : ℕ) where
  expanding : Segments (length / (3 * b.BitBlockWidth))
  radix64 : Segments (expandedItems length / b.BitBlockWidth)
  base64 : Segments (expandedItems length / b.BitBlockWidth)

/-- The pipeline from the bytes to their encoding. The buffers and the undefined vector have any
contents. -/
def base64Pipeline (text : List (BitVec 8)) (cut : Cut b text.length) (undefPack : Stream)
    (buffer : ℕ → ByteStream) : List (BitVec 8) :=
  let count := expandedItems text.length
  let ByteStream := items text.length fun p ↦ text.getD p 0
  let Expanded3_4Out := expand3_4Kernel.run b undefPack ByteStream cut.expanding (buffer 0)
  let Radix64out := radix64Kernel.run b (items count Expanded3_4Out) cut.radix64 (buffer 1)
  let base64 := base64Kernel.run b (items count Radix64out) cut.base64 (buffer 2)
  (List.range (roundUpTo 4 count)).map base64

end Parabix.Util
