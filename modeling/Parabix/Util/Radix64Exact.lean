import Mathlib.Tactic.IntervalCases
import Parabix.Library.Base64
import Parabix.Util.Radix64

namespace Parabix.Util

open Library Library.BitStream Library.Base64 IDISA

/-- The first bytes of a stream, up to its item count, are those of another one. -/
def Filled (count : ℕ) (f mem : ByteStream) (n : ℕ) : Prop := ∀ p < n, p < count → mem p = f p

variable {b : KernelBuilder} {count n base : ℕ} {f out : ByteStream}

theorem Filled.mono {m : ℕ} (h : Filled count f out n) (hm : m ≤ n) : Filled count f out m :=
  fun p hp hcount ↦ h p (by omega) hcount

namespace KernelBuilder

theorem width_eq (b : KernelBuilder) : b.BitBlockWidth = 8 * b.PACK_SIZE := by
  have hwords := b.words
  rw [PACK_SIZE]
  omega

theorem four_dvd (b : KernelBuilder) : 4 ∣ b.PACK_SIZE := by
  have hwords := b.words
  rw [PACK_SIZE]
  omega

theorem packPosition_zero (processed i : ℕ) :
    b.packPosition processed i 0 = processed + b.PACK_SIZE * i := by
  rw [packPosition, Nat.mul_zero, Nat.add_zero]

/-- The packs of the blocks, one after the other. -/
theorem packPosition_split (processed offset : ℕ) :
    b.packPosition processed (offset &&& 7) (offset >>> 3) = processed + b.PACK_SIZE * offset := by
  have hmask : offset &&& 7 = offset % 8 := Nat.and_two_pow_sub_one_eq_mod offset 3
  rw [packPosition, hmask, Nat.shiftRight_eq_div_pow, width_eq, Nat.add_assoc, Nat.mul_comm 8,
    Nat.mul_assoc, ← Nat.mul_add, Nat.div_add_mod]

theorem field_load {input : ByteStream} {processed packIndex blockOffset i : ℕ}
    (hi : i < b.PACK_SIZE) :
    field 8 (b.loadInputStreamPack input processed packIndex blockOffset) i =
      (input (b.packPosition processed packIndex blockOffset + i)).toNat := by
  rw [loadInputStreamPack, field_ofFields, if_pos hi]
  exact Nat.mod_eq_of_lt (BitVec.isLt _)

/-- A pack is stored behind the bytes that are there. -/
theorem filled_store {produced packIndex blockOffset : ℕ} {pack : Stream}
    (h : Filled count f out n) (hn : b.packPosition produced packIndex blockOffset = n)
    (hpack : ∀ i < b.PACK_SIZE, n + i < count → BitVec.ofNat 8 (field 8 pack i) = f (n + i)) :
    Filled count f (b.storeOutputStreamPack out produced packIndex blockOffset pack)
      (n + b.PACK_SIZE) := by
  intro p hp hcount
  rw [storeOutputStreamPack, hn]
  by_cases hin : n ≤ p
  · have hpos : n + (p - n) = p := by omega
    rw [if_pos ⟨hin, hp⟩, hpack (p - n) (by omega) (by omega), hpos]
  · rw [if_neg (by omega)]
    exact h p (by omega) hcount

end KernelBuilder

namespace expand3_4Kernel

theorem expand3_4_index_eq (i : ℕ) : expand3_4_index i = 3 * (i / 4) + min (i % 4) 2 := by
  induction i with
  | zero => rfl
  | succ i ih =>
    rw [expand3_4_index, ih]
    split_ifs <;> omega

theorem expand3_4_offset_eq {j : ℕ} (hj : j < 4) :
    expand3_4_offset b j = b.PACK_SIZE - j * (b.PACK_SIZE / 4) := by
  have hfour := b.four_dvd
  interval_cases j <;> simp only [expand3_4_offset] <;> omega

/-- The third byte of a group of three is there twice. -/
def expansion (source : ByteStream) : ByteStream := fun p ↦ source (3 * (p / 4) + min (p % 4) 2)

variable {source : ByteStream} {t j : ℕ}

/-- The carried pack, from the second of three packs on. -/
def Carries (b : KernelBuilder) (source : ByteStream) (start j : ℕ) (carryOver : Stream) : Prop :=
  0 < j → ∀ i < b.PACK_SIZE,
    field 8 carryOver i = (source (start + b.PACK_SIZE * j + i - b.PACK_SIZE)).toNat

theorem expanded_field {start outStart : ℕ} {carryOver input : Stream}
    (hstart : 4 * start = 3 * outStart) (hfour : 4 ∣ outStart) (hj : j < 4)
    (hcarry : Carries b source start j carryOver)
    (hinput : j < 3 → ∀ i < b.PACK_SIZE,
      field 8 input i = (source (start + b.PACK_SIZE * j + i)).toNat)
    (i : ℕ) (hi : i < b.PACK_SIZE) :
    BitVec.ofNat 8 (field 8 (b.CreateShuffleVector carryOver input (expand_3_4_shuffle b j)) i) =
      expansion source (outStart + b.PACK_SIZE * j + i) := by
  obtain ⟨q, hq⟩ := b.four_dvd
  obtain ⟨g, rfl⟩ := hfour
  have hquarter : b.PACK_SIZE / 4 = q := by omega
  have hindex : expand_3_4_shuffle b j i = 4 * q - j * q + (3 * (i / 4) + min (i % 4) 2) := by
    rw [expand_3_4_shuffle, expand3_4_offset_eq hj, expand3_4_index_eq, hquarter, hq]
  have hplace : 3 * ((4 * g + 4 * q * j + i) / 4) + min ((4 * g + 4 * q * j + i) % 4) 2 =
      start + 3 * (q * j) + (3 * (i / 4) + min (i % 4) 2) := by
    rw [Nat.mul_assoc]
    omega
  have hle : j * q ≤ 3 * q := Nat.mul_le_mul_right q (by omega)
  have hcomm : q * j = j * q := Nat.mul_comm q j
  rw [expansion, hq, hplace, KernelBuilder.CreateShuffleVector, field_ofFields, hindex]
  obtain ⟨e, he, hlt⟩ : ∃ e, 3 * (i / 4) + min (i % 4) 2 = e ∧ e < 3 * q := ⟨_, rfl, by omega⟩
  rw [he]
  clear hplace hindex he
  split_ifs with hold
  · have hpos : 0 < j := by
      by_contra hzero
      obtain rfl : j = 0 := by omega
      omega
    rw [hcarry hpos _ hold, hq, Nat.mod_eq_of_lt (BitVec.isLt _), BitVec.ofNat_toNat,
      BitVec.setWidth_eq]
    congr 1
    rw [Nat.mul_assoc]
    omega
  · have hthree : j < 3 := by
      by_contra hlast
      obtain rfl : j = 3 := by omega
      omega
    rw [hinput hthree _ (by omega), hq, Nat.mod_eq_of_lt (BitVec.isLt _), BitVec.ofNat_toNat,
      BitVec.setWidth_eq]
    congr 1
    rw [Nat.mul_assoc]
    omega

/-- A pack is stored behind those that are there, for all four packs of the output. -/
theorem storeExpanded_filled {processed produced : ℕ} {carryOver input : Stream}
    (hrate : 4 * processed = 3 * produced) (hfour : 4 ∣ produced) (hj : j < 4)
    (hcarry : Carries b source (processed + b.PACK_SIZE * (t * 3)) j carryOver)
    (hinput : j < 3 → ∀ i < b.PACK_SIZE, field 8 input i =
      (source (processed + b.PACK_SIZE * (t * 3) + b.PACK_SIZE * j + i)).toNat)
    (hout : Filled count (expansion source) out (produced + b.PACK_SIZE * (t * 4 + j))) :
    Filled count (expansion source) (storeExpanded b produced (t * 4) j
        (b.CreateShuffleVector carryOver input (expand_3_4_shuffle b j)) out)
      (produced + b.PACK_SIZE * (t * 4 + (j + 1))) := by
  have hstart : 4 * (processed + b.PACK_SIZE * (t * 3)) =
      3 * (produced + b.PACK_SIZE * (t * 4)) := by
    rw [Nat.mul_add, hrate]
    ring
  have hdvd : 4 ∣ produced + b.PACK_SIZE * (t * 4) :=
    Nat.dvd_add hfour (Nat.dvd_mul_right_of_dvd b.four_dvd _)
  have hnext : produced + b.PACK_SIZE * (t * 4 + (j + 1)) =
      produced + b.PACK_SIZE * (t * 4 + j) + b.PACK_SIZE := by ring
  rw [hnext]
  refine KernelBuilder.filled_store hout (KernelBuilder.packPosition_split _ _) fun i hi _ ↦ ?_
  rw [expanded_field hstart hdvd hj hcarry hinput i hi, Nat.mul_add, ← Nat.add_assoc produced]

/-- One pack is stored, and the pack that was read is carried over. -/
theorem expandPack_filled {processed produced : ℕ} {s : Stream × ByteStream}
    (hrate : 4 * processed = 3 * produced) (hfour : 4 ∣ produced) (hj : j < 3)
    (hcarry : Carries b source (processed + b.PACK_SIZE * (t * 3)) j s.1)
    (hout : Filled count (expansion source) s.2 (produced + b.PACK_SIZE * (t * 4 + j))) :
    Carries b source (processed + b.PACK_SIZE * (t * 3)) (j + 1)
        (expandPack b source processed produced t s j).1 ∧
      Filled count (expansion source) (expandPack b source processed produced t s j).2
        (produced + b.PACK_SIZE * (t * 4 + (j + 1))) := by
  have hload : ∀ i < b.PACK_SIZE, field 8 (b.loadInputStreamPack source processed
      ((t * 3 + j) &&& 7) ((t * 3 + j) >>> 3)) i =
        (source (processed + b.PACK_SIZE * (t * 3) + b.PACK_SIZE * j + i)).toNat := by
    intro i hi
    rw [KernelBuilder.field_load hi, KernelBuilder.packPosition_split, Nat.mul_add,
      ← Nat.add_assoc processed]
  refine ⟨fun _ i hi ↦ ?_,
    storeExpanded_filled hrate hfour (hj.trans (Nat.lt_succ_self 3)) hcarry (fun _ ↦ hload) hout⟩
  rw [expandPack, hload i hi, Nat.mul_succ b.PACK_SIZE j]
  congr 2
  omega

variable (undefPack : Stream)

theorem expandPacks_filled {processed produced : ℕ} (hrate : 4 * processed = 3 * produced)
    (hfour : 4 ∣ produced)
    (hout : Filled count (expansion source) out (produced + b.PACK_SIZE * (t * 4))) :
    Filled count (expansion source) (expandPacks b undefPack source processed produced t out)
      (produced + b.PACK_SIZE * ((t + 1) * 4)) := by
  have hnone : Carries b source (processed + b.PACK_SIZE * (t * 3)) 0 undefPack :=
    fun hzero ↦ absurd hzero (Nat.lt_irrefl 0)
  have hfirst := expandPack_filled (s := (undefPack, out)) hrate hfour (by decide) hnone hout
  have hsecond := expandPack_filled hrate hfour (by decide) hfirst.1 hfirst.2
  have hthird := expandPack_filled hrate hfour (by decide) hsecond.1 hsecond.2
  rw [Nat.succ_mul]
  exact storeExpanded_filled hrate hfour (by decide) hthird.1
    (fun hlt ↦ absurd hlt (Nat.lt_irrefl 3)) hthird.2

theorem expand_3_4_loop_filled {processed produced numOfBlocks t : ℕ} {out : ByteStream}
    (hrate : 4 * processed = 3 * produced) (hfour : 4 ∣ produced) (ht : t < numOfBlocks)
    (hout : Filled count (expansion source) out (produced + b.PACK_SIZE * (t * 4))) :
    Filled count (expansion source)
      (expand_3_4_loop b undefPack source processed produced numOfBlocks t out)
      (produced + b.PACK_SIZE * (numOfBlocks * 4)) := by
  have hpacks := expandPacks_filled undefPack hrate hfour hout
  rw [expand_3_4_loop]
  split_ifs with hnext
  · exact expand_3_4_loop_filled hrate hfour hnext hpacks
  · have hlast : numOfBlocks = t + 1 := by omega
    rwa [hlast]
termination_by numOfBlocks - t

/-- The item counts after as many strides, and the output up to there. -/
structure Expanded (b : KernelBuilder) (source : ByteStream) (count strides : ℕ) (s : KernelState) :
    Prop where
  processed : s.processed = 3 * b.BitBlockWidth * strides
  produced : s.produced = 4 * b.BitBlockWidth * strides
  output : Filled count (expansion source) s.output s.produced

theorem Expanded.step {strides k : ℕ} {s : KernelState} (h : Expanded b source count strides s)
    (hk : 0 < k) : Expanded b source count (strides + k)
      (generateMultiBlockLogic b undefPack source s k) := by
  refine ⟨?_, ?_, ?_⟩
  · rw [generateMultiBlockLogic, h.processed, Nat.mul_add]
  · rw [generateMultiBlockLogic, h.produced, Nat.mul_add]
  · have hrate : 4 * s.processed = 3 * s.produced := by
      rw [h.processed, h.produced]
      ring
    have hfour : 4 ∣ s.produced := by
      rw [h.produced, Nat.mul_assoc]
      exact Nat.dvd_mul_right 4 _
    have hplace : s.produced + 4 * b.BitBlockWidth * k =
        s.produced + b.PACK_SIZE * (k * 8 * 4) := by
      rw [b.width_eq]
      ring
    rw [generateMultiBlockLogic, hplace]
    refine expand_3_4_loop_filled undefPack hrate hfour (by omega) ?_
    rw [Nat.zero_mul, Nat.mul_zero, Nat.add_zero]
    exact h.output

theorem Expanded.fold {strides : ℕ} {s : KernelState} {numOfStrides : List ℕ}
    (h : Expanded b source count strides s) (hpos : ∀ k ∈ numOfStrides, 0 < k) :
    Expanded b source count (strides + numOfStrides.sum)
      (numOfStrides.foldl (generateMultiBlockLogic b undefPack source) s) := by
  induction numOfStrides generalizing strides s with
  | nil => exact h
  | cons k rest ih =>
    rw [List.sum_cons, ← Nat.add_assoc]
    exact ih (h.step undefPack (hpos k List.mem_cons_self)) fun m hm ↦
      hpos m (List.mem_cons_of_mem k hm)

/-- All expanded items of a source are there after the final call. -/
theorem run_apply {length p : ℕ} (segments : Segments (length / (3 * b.BitBlockWidth)))
    (hp : p < expandedItems length) :
    run b undefPack source segments out p = expansion source p := by
  have hstart : Expanded b source (expandedItems length) 0 ⟨0, 0, out⟩ :=
    ⟨rfl, rfl, fun q hq ↦ absurd hq (Nat.not_lt_zero q)⟩
  have hfull := hstart.fold undefPack segments.pos
  have hend := hfull.step undefPack Nat.one_pos
  refine hend.output p ?_ hp
  have hlength : length < 3 * b.BitBlockWidth * (length / (3 * b.BitBlockWidth) + 1) :=
    Nat.lt_mul_div_succ length (Nat.mul_pos (by decide) b.width_pos)
  rw [hend.produced, segments.sum_eq, Nat.zero_add, Nat.mul_assoc]
  rw [Nat.mul_assoc] at hlength
  rw [expandedItems] at hp
  omega

end expand3_4Kernel

/-- A call for full blocks fills them, and what the segments leave is for the final block. -/
theorem BlockOrientedKernel.run_eq (doBlock : ℕ → ByteStream → ByteStream)
    (finalBlock : ℕ → ℕ → ByteStream → ByteStream) {items : ℕ}
    (segments : Segments (items / b.BitBlockWidth))
    (hblock : ∀ base out, 4 ∣ base → Filled count f out base →
      Filled count f (doBlock base out) (base + b.BitBlockWidth)) :
    ∃ base filled, base = b.BitBlockWidth * (items / b.BitBlockWidth) ∧
      Filled count f filled base ∧
        BlockOrientedKernel.run b doBlock finalBlock segments out =
          finalBlock base (items - base) filled := by
  have hfour : 4 ∣ b.BitBlockWidth := Nat.dvd_trans (by decide) b.words
  have hblocks (n done : ℕ) (s : ℕ × ByteStream) (hs : s.1 = b.BitBlockWidth * done)
      (hfilled : Filled count f s.2 s.1) :
      ∃ s', s' = (List.range n).foldl (fun s _ ↦ (s.1 + b.BitBlockWidth, doBlock s.1 s.2)) s ∧
        s'.1 = b.BitBlockWidth * (done + n) ∧ Filled count f s'.2 s'.1 := by
    induction n with
    | zero => exact ⟨s, rfl, hs, hfilled⟩
    | succ n ih =>
      obtain ⟨s', hfold, hplace, hs'⟩ := ih
      refine ⟨(s'.1 + b.BitBlockWidth, doBlock s'.1 s'.2), ?_, ?_, ?_⟩
      · rw [List.range_succ, List.foldl_append, ← hfold]
        rfl
      · rw [hplace, ← Nat.add_assoc, Nat.mul_succ]
      · exact hblock s'.1 s'.2 (hplace ▸ Nat.dvd_mul_right_of_dvd hfour _) hs'
  have hsegments (numOfStrides : List ℕ) (done : ℕ) (s : ℕ × ByteStream)
      (hs : s.1 = b.BitBlockWidth * done) (hfilled : Filled count f s.2 s.1) :
      ∃ s', s' = numOfStrides.foldl (fun s n ↦ (List.range n).foldl
          (fun s _ ↦ (s.1 + b.BitBlockWidth, doBlock s.1 s.2)) s) s ∧
        s'.1 = b.BitBlockWidth * (done + numOfStrides.sum) ∧ Filled count f s'.2 s'.1 := by
    induction numOfStrides generalizing done s with
    | nil => exact ⟨s, rfl, hs, hfilled⟩
    | cons n rest ih =>
      obtain ⟨s', hfold, hplace, hs'⟩ := hblocks n done s hs hfilled
      obtain ⟨s'', hfold', hplace', hs''⟩ := ih (done + n) s' hplace hs'
      refine ⟨s'', ?_, ?_, hs''⟩
      · rw [hfold', hfold]
        rfl
      · rw [hplace', List.sum_cons, Nat.add_assoc]
  obtain ⟨s', hfold, hplace, hs'⟩ := hsegments segments.numOfStrides 0 (0, out) rfl
    fun p hp ↦ absurd hp (Nat.not_lt_zero p)
  refine ⟨s'.1, s'.2, ?_, hs', ?_⟩
  · rw [hplace, segments.sum_eq, Nat.zero_add]
  · rw [hfold]
    rfl

section Words

variable {x : Stream} {k q c : ℕ}

theorem fill_apply {w : ℕ} (hq : q < w) : simd_fill w c (w * k + q) = c.testBit q := by
  rw [simd_fill, ofFields, mul_add_mod_of_lt hq]

theorem fill_apply_zero {w : ℕ} (hw : 0 < w) : simd_fill w c (w * k) = c.testBit 0 :=
  fill_apply hw

theorem srli_apply {w shift : ℕ} (hq : q < w) :
    simd_srli w x shift (w * k + q) = (decide (shift + q < w) && x (w * k + (shift + q))) := by
  rw [simd_srli, ofFields, mul_add_div_of_lt hq, mul_add_mod_of_lt hq, Nat.testBit_shiftRight,
    testBit_field]

theorem slli_apply {w shift : ℕ} (hq : q < w) : radix64Kernel.simd_slli w x shift (w * k + q) =
    (decide (shift ≤ q) && x (w * k + (q - shift))) := by
  have hlt : q - shift < w := by omega
  rw [radix64Kernel.simd_slli, ofFields, mul_add_div_of_lt hq, mul_add_mod_of_lt hq,
    Nat.testBit_shiftLeft, testBit_field, decide_eq_true hlt, Bool.true_and]

end Words

namespace radix64Kernel

/-- The bit of a word of three bytes that a bit of its four sextets is. -/
def sourceBit (q : ℕ) : ℕ :=
  let place := 6 * (q / 8) + (5 - q % 8)
  8 * (place / 8) + (7 - place % 8)

theorem processPackData_apply {x : Stream} {k q : ℕ} (hq : q < 32) :
    processPackData x (32 * k + q) = (decide (q % 8 < 6) && x (32 * k + sourceBit q)) := by
  simp only [processPackData, simd_or, srli_apply hq, slli_apply hq, simd_and]
  interval_cases q <;> simp [fill_apply, fill_apply_zero, sourceBit, Nat.testBit]

/-- A byte of the four is the sextet of the text with its number. -/
theorem byte_eq_sextet {text : List (BitVec 8)} {input : ByteStream} {pack : Stream} {start i : ℕ}
    (hfour : 4 ∣ start)
    (hinput : ∀ p < count, input p = expand3_4Kernel.expansion (fun p ↦ text.getD p 0) p)
    (hpack : ∀ m ≤ i, field 8 pack m = (input (start + m)).toNat) (hi : start + i < count) :
    BitVec.ofNat 8 (field 8 (processPackData pack) i) =
      BitVec.ofNat 8 (sextet text (start + i)) := by
  obtain ⟨g, rfl⟩ := hfour
  apply BitVec.eq_of_getLsbD_eq
  intro j hj
  have hword : 8 * i + j = 32 * (i / 4) + (8 * (i % 4) + j) := by omega
  have hrow : (8 * (i % 4) + j) / 8 = i % 4 := mul_add_div_of_lt hj
  have hbit : (8 * (i % 4) + j) % 8 = j := mul_add_mod_of_lt hj
  rw [BitVec.getLsbD_ofNat, BitVec.getLsbD_ofNat, testBit_field, testBit_sextet, decide_eq_true hj,
    Bool.true_and, Bool.true_and, Bool.true_and, hword, processPackData_apply (by omega), hbit]
  by_cases hsix : j < 6
  · rw [decide_eq_true hsix, Bool.true_and, Bool.true_and]
    obtain ⟨place, hplace⟩ : ∃ place, place = 6 * (i % 4) + (5 - j) := ⟨_, rfl⟩
    have hsource : sourceBit (8 * (i % 4) + j) = 8 * (place / 8) + (7 - place % 8) := by
      rw [sourceBit, hrow, hbit, hplace]
    have hbyte : 32 * (i / 4) + sourceBit (8 * (i % 4) + j) =
        8 * (4 * (i / 4) + place / 8) + (7 - place % 8) := by omega
    have hthird : 3 * ((4 * g + (4 * (i / 4) + place / 8)) / 4) +
        min ((4 * g + (4 * (i / 4) + place / 8)) % 4) 2 =
          (6 * (4 * g + i) + (5 - j)) / 8 := by omega
    have hmsb : (6 * (4 * g + i) + (5 - j)) % 8 = place % 8 := by omega
    have hdigit : 7 - place % 8 < 8 := by omega
    have hpick := congrArg (·.testBit (7 - place % 8))
      (hpack (4 * (i / 4) + place / 8) (by omega))
    simp only [testBit_field, decide_eq_true hdigit, Bool.true_and] at hpick
    rw [hbyte, hpick, hinput _ (by omega), expand3_4Kernel.expansion, hthird, Base64.bit, hmsb,
      BitVec.getMsbD_eq_getLsbD, decide_eq_true (by omega), Bool.true_and]
    rfl
  · rw [decide_eq_false hsix, Bool.false_and, Bool.false_and]

end radix64Kernel

section Packs

variable {input : ByteStream} {data : Stream → Stream} {i : ℕ}

/-- What the kernels do with one pack: the bytes are read, changed and stored at their places. -/
theorem processPack_filled (hfour : 4 ∣ base)
    (hdata : ∀ start pack, 4 ∣ start →
      (∀ i < b.PACK_SIZE, field 8 pack i = (input (start + i)).toNat) →
      ∀ i < b.PACK_SIZE, start + i < count → BitVec.ofNat 8 (field 8 (data pack) i) = f (start + i))
    (hout : Filled count f out (base + b.PACK_SIZE * i)) :
    Filled count f (b.storeOutputStreamPack out base i 0 (data (b.loadInputStreamPack input base i 0)))
      (base + b.PACK_SIZE * (i + 1)) := by
  rw [Nat.mul_succ, ← Nat.add_assoc]
  refine KernelBuilder.filled_store hout (KernelBuilder.packPosition_zero _ _) fun j hj hcount ↦ ?_
  refine hdata _ _ (Nat.dvd_add hfour (Nat.dvd_mul_right_of_dvd b.four_dvd _)) (fun m hm ↦ ?_) j hj
    hcount
  rw [KernelBuilder.field_load hm, KernelBuilder.packPosition_zero]

/-- The eight packs of a block. -/
theorem packs_filled {processPack : ByteStream → ℕ → ByteStream}
    (hstep : ∀ out i, Filled count f out (base + b.PACK_SIZE * i) →
      Filled count f (processPack out i) (base + b.PACK_SIZE * (i + 1)))
    (hout : Filled count f out base) :
    Filled count f ((List.range 8).foldl processPack out) (base + b.BitBlockWidth) := by
  have hpacks (n : ℕ) :
      Filled count f ((List.range n).foldl processPack out) (base + b.PACK_SIZE * n) := by
    induction n with
    | zero => exact hout
    | succ n ih =>
      rw [List.range_succ, List.foldl_append]
      exact hstep _ n ih
  rw [b.width_eq, Nat.mul_comm 8]
  exact hpacks 8

end Packs

section Kernels

variable {input : ByteStream} {items remaining idx : ℕ}

namespace radix64Kernel

theorem radix64_loop_filled {loopRemain : ℤ} {idx : ℕ} {out : ByteStream}
    (hstep : ∀ out i, Filled count f out (base + b.PACK_SIZE * i) →
      Filled count f (processPack b input base out i) (base + b.PACK_SIZE * (i + 1)))
    (hremain : loopRemain = remaining - b.PACK_SIZE * idx)
    (hout : Filled count f out (base + b.PACK_SIZE * idx)) :
    Filled count f (radix64_loop b input base idx loopRemain out) (base + remaining) := by
  have hnext := hstep out idx hout
  rw [radix64_loop]
  split_ifs with hmore
  · refine radix64_loop_filled hstep ?_ hnext
    rw [hremain]
    push_cast
    ring
  · refine hnext.mono ?_
    rw [Nat.mul_succ]
    rw [hremain] at hmore
    have hcast : ((b.PACK_SIZE * idx : ℕ) : ℤ) = b.PACK_SIZE * idx := Nat.cast_mul _ _
    omega
termination_by loopRemain.toNat
decreasing_by
  have hpos := b.PACK_SIZE_pos
  omega

theorem run_apply {p : ℕ} (segments : Segments (items / b.BitBlockWidth))
    (hdata : ∀ start pack, 4 ∣ start →
      (∀ i < b.PACK_SIZE, field 8 pack i = (input (start + i)).toNat) →
      ∀ i < b.PACK_SIZE, start + i < items →
        BitVec.ofNat 8 (field 8 (processPackData pack) i) = f (start + i))
    (hp : p < items) : run b input segments out p = f p := by
  have hstep (base : ℕ) (hfour : 4 ∣ base) (out : ByteStream) (i : ℕ)
      (hout : Filled items f out (base + b.PACK_SIZE * i)) :
      Filled items f (processPack b input base out i) (base + b.PACK_SIZE * (i + 1)) :=
    processPack_filled hfour hdata hout
  obtain ⟨base, filled, hbase, hfilled, hrun⟩ := BlockOrientedKernel.run_eq 
    (generateDoBlockMethod b input) (generateFinalBlockMethod b input) segments
    fun base out hfour hout ↦ packs_filled (hstep base hfour) hout
  have hfour : 4 ∣ base :=
    hbase ▸ Nat.dvd_mul_right_of_dvd (Nat.dvd_trans (by decide) b.words) _
  rw [run, hrun, generateFinalBlockMethod]
  split_ifs with hnone
  · exact hfilled p (by omega) hp
  · have hremain : ((items - base : ℕ) : ℤ) = (items - base : ℕ) - b.PACK_SIZE * (0 : ℕ) := by
      rw [Nat.cast_zero, mul_zero, sub_zero]
    exact radix64_loop_filled (hstep base hfour) hremain hfilled p (by omega) hp

end radix64Kernel

namespace base64Kernel

theorem base64_loop_filled {loopRemain idx : ℕ} {out : ByteStream}
    (hstep : ∀ out i, Filled count f out (base + b.PACK_SIZE * i) →
      Filled count f (processPack b input base out i) (base + b.PACK_SIZE * (i + 1)))
    (hremain : loopRemain + b.PACK_SIZE * idx = remaining)
    (hout : Filled count f out (base + b.PACK_SIZE * idx)) :
    Filled count f (base64_loop b input base idx loopRemain out) (base + remaining) := by
  have hnext := hstep out idx hout
  rw [base64_loop]
  split_ifs with hmore
  · refine base64_loop_filled hstep ?_ hnext
    rw [Nat.mul_succ]
    omega
  · refine hnext.mono ?_
    rw [Nat.mul_succ]
    omega
termination_by loopRemain
decreasing_by
  have hpos := b.PACK_SIZE_pos
  omega

/-- The last group of four items is filled up. -/
theorem doPadding_apply {p : ℕ} (hgroup : remaining % 4 ≠ 1) :
    doPadding base remaining out p =
      if base + remaining ≤ p ∧ p < base + remaining + (4 - remaining % 4) % 4 then PADDING
      else out p := by
  have hmask (n : ℕ) : n &&& 3 = n % 4 := Nat.and_two_pow_sub_one_eq_mod n 2
  simp only [doPadding, hmask]
  split_ifs with hnone hthree hin hin hin
  · omega
  · rfl
  · rw [show p = base + remaining by omega, Function.update_self]
  · exact Function.update_of_ne (by omega) _ _
  · by_cases hlast : p = base + (remaining + 1)
    · rw [hlast, Function.update_self]
    · rw [Function.update_of_ne hlast, show p = base + remaining by omega, Function.update_self]
  · rw [Function.update_of_ne (by omega), Function.update_of_ne (by omega)]

/-- The characters and the padding of the encoding. -/
theorem run_apply {p : ℕ} (segments : Segments (items / b.BitBlockWidth)) (hgroup : items % 4 ≠ 1)
    (hdata : ∀ start pack, 4 ∣ start →
      (∀ i < b.PACK_SIZE, field 8 pack i = (input (start + i)).toNat) →
      ∀ i < b.PACK_SIZE, start + i < items →
        BitVec.ofNat 8 (field 8 (processPackData pack) i) = f (start + i))
    (hp : p < items + (4 - items % 4) % 4) :
    run b input segments out p = if p < items then f p else PADDING := by
  have hstep (base : ℕ) (hfour : 4 ∣ base) (out : ByteStream) (i : ℕ)
      (hout : Filled items f out (base + b.PACK_SIZE * i)) :
      Filled items f (processPack b input base out i) (base + b.PACK_SIZE * (i + 1)) :=
    processPack_filled hfour hdata hout
  obtain ⟨base, filled, hbase, hfilled, hrun⟩ := BlockOrientedKernel.run_eq
    (generateDoBlockMethod b input) (generateFinalBlockMethod b input) segments
    fun base out hfour hout ↦ packs_filled (hstep base hfour) hout
  have hfour : 4 ∣ base :=
    hbase ▸ Nat.dvd_mul_right_of_dvd (Nat.dvd_trans (by decide) b.words) _
  have hle : base ≤ items := hbase ▸ Nat.mul_div_le items _
  rw [run, hrun, generateFinalBlockMethod]
  split_ifs with hnone hitem hitem
  · exact hfilled p (by omega) hitem
  · omega
  · rw [doPadding_apply (by omega), if_neg (by omega)]
    have hremain : items - base + b.PACK_SIZE * 0 = items - base := Nat.add_zero _
    exact base64_loop_filled (hstep base hfour) hremain hfilled p (by omega) hitem
  · rw [doPadding_apply (by omega), if_pos (by omega)]

/-- A constant in the fields of a condition. -/
theorem field_and_fill {x w i : ℕ} {c : ℕ → Prop} [DecidablePred c] (hx : x < 2 ^ w) :
    field w (simd_and (ofFields w fun i ↦ if c i then 2 ^ w - 1 else 0) (simd_fill w x)) i =
      if c i then x else 0 := by
  apply Nat.eq_of_testBit_eq
  intro j
  rw [testBit_field]
  by_cases hj : j < w
  · rw [simd_and, fill_apply hj, ofFields, mul_add_div_of_lt hj, mul_add_mod_of_lt hj,
      decide_eq_true hj, Bool.true_and]
    split_ifs
    · rw [Nat.testBit_two_pow_sub_one, decide_eq_true hj, Bool.true_and]
    · rw [Nat.zero_testBit, Bool.false_and]
  · rw [decide_eq_false hj, Bool.false_and]
    split_ifs
    · exact (Nat.testBit_lt_two_pow (hx.trans_le (Nat.pow_le_pow_right Nat.two_pos (by omega)))).symm
    · exact (Nat.zero_testBit j).symm

/-- The sum of the offsets of the ranges that a number has reached. -/
def translate (v : ℕ) : ℕ :=
  (((((v + 65) % 256 + if 25 < v then 6 else 0) % 256 + 256 - if 51 < v then 75 else 0) % 256 + 256 -
    if v = 62 then 15 else 0) % 256 + 256 - if v = 63 then 12 else 0) % 256

theorem translate_eq_symbol : ∀ v < 64, BitVec.ofNat 8 (translate v) = symbol v := by
  decide +kernel

theorem processPackData_eq_symbol {v i : ℕ} {pack : Stream} (hv : v < 64)
    (hpack : field 8 pack i = v) :
    BitVec.ofNat 8 (field 8 (processPackData pack) i) = symbol v := by
  rw [← translate_eq_symbol v hv]
  congr 1
  simp only [processPackData, simd_ugt, simd_eq, simd_sub, simd_add, field_ofFields]
  rw [field_and_fill (by decide), field_and_fill (by decide), field_and_fill (by decide),
    field_and_fill (by decide)]
  rw [field_fill (by decide), field_fill (by decide), field_fill (by decide), field_fill (by decide),
    field_fill (by decide), hpack]
  rfl

end base64Kernel

end Kernels

section Pipeline

theorem roundUpTo_four (count : ℕ) : roundUpTo 4 count = count + (4 - count % 4) % 4 := by
  rw [roundUpTo]
  omega

theorem items_apply {count p : ℕ} {s : ByteStream} (hp : p < count) : items count s p = s p :=
  if_pos hp

theorem items_text (text : List (BitVec 8)) :
    (items text.length fun p ↦ text.getD p 0) = fun p ↦ text.getD p 0 := by
  funext p
  by_cases hp : p < text.length
  · exact items_apply hp
  · rw [items, if_neg hp, List.getD_eq_default _ _ (Nat.le_of_not_lt hp)]

/-- The three kernels give the encoding of all bytes, wherever their calls cut them. -/
theorem base64Pipeline_eq (b : KernelBuilder) (text : List (BitVec 8)) (cut : Cut b text.length)
    (undefPack : Stream) (buffer : ℕ → ByteStream) :
    base64Pipeline b text cut undefPack buffer = encode text := by
  have hgroup : expandedItems text.length % 4 ≠ 1 := sextets_mod_four text.length
  obtain ⟨expanded, hexpanded⟩ : ∃ s, s = items (expandedItems text.length)
    (expand3_4Kernel.run b undefPack (fun p ↦ text.getD p 0) cut.expanding (buffer 0)) := ⟨_, rfl⟩
  obtain ⟨radix64, hradix64⟩ : ∃ s, s = items (expandedItems text.length)
    (radix64Kernel.run b expanded cut.radix64 (buffer 1)) := ⟨_, rfl⟩
  have hgroups (p : ℕ) (hp : p < expandedItems text.length) :
      expanded p = expand3_4Kernel.expansion (fun p ↦ text.getD p 0) p := by
    rw [hexpanded, items_apply hp, expand3_4Kernel.run_apply undefPack cut.expanding hp]
  have hsextets (p : ℕ) (hp : p < expandedItems text.length) :
      radix64 p = BitVec.ofNat 8 (sextet text p) := by
    rw [hradix64, items_apply hp]
    refine radix64Kernel.run_apply (f := fun p ↦ BitVec.ofNat 8 (sextet text p)) cut.radix64
      (fun start pack hfour hpack i hi hcount ↦ ?_) hp
    exact radix64Kernel.byte_eq_sextet hfour hgroups (fun m hm ↦ hpack m (by omega)) hcount
  have hcharacters (p : ℕ)
      (hp : p < expandedItems text.length + (4 - expandedItems text.length % 4) % 4) :
      base64Kernel.run b radix64 cut.base64 (buffer 2) p =
        if p < expandedItems text.length then symbol (sextet text p) else base64Kernel.PADDING := by
    refine base64Kernel.run_apply (f := fun p ↦ symbol (sextet text p)) cut.base64 hgroup
      (fun start pack hfour hpack i hi hcount ↦ ?_) hp
    refine base64Kernel.processPackData_eq_symbol (sextet_lt text _) ?_
    rw [hpack i hi, hsextets _ hcount, BitVec.toNat_ofNat]
    exact Nat.mod_eq_of_lt ((sextet_lt text _).trans (by decide))
  simp only [base64Pipeline, items_text]
  rw [← hexpanded, ← hradix64, roundUpTo_four, List.range_add, List.map_append, List.map_map, encode]
  congr 1
  · refine List.map_congr_left fun p hp ↦ ?_
    rw [List.mem_range] at hp
    rw [hcharacters p (by omega), if_pos hp]
  · rw [List.eq_replicate_iff, List.length_map, List.length_range]
    refine ⟨rfl, fun x hx ↦ ?_⟩
    obtain ⟨p, hp, rfl⟩ := List.mem_map.1 hx
    rw [List.mem_range] at hp
    rw [Function.comp_apply, hcharacters _ (by omega), if_neg (by omega)]
    rfl

end Pipeline

end Parabix.Util
