import Parabix.Library.WordStore
import Parabix.Streamutils.SpreadMask

namespace Parabix.Streamutils

open Library Library.BitStream IDISA Unicode Pablo

namespace UnitInsertionSpreadMaskKernel

open UnitInsertionExtractionMasks

def pack_width : ℕ := 64

/-- The word of the output that is being filled, and what is known of its bits. -/
structure State where
  spread_mask : ℕ → BitVec pack_width
  spread_mask_pack_ptr : ℕ
  pending : BitVec pack_width
  offset : ℕ
  produced : ℕ

/-- The bits of a pack go behind the pending ones. -/
def appendPack (spread_pack : BitVec pack_width) (newbits : ℕ) (s : State) : State :=
  let pending := s.pending ||| spread_pack <<< s.offset
  -- We may have filled the pack; write it out in case we move on.
  let spread_mask := Function.update s.spread_mask s.spread_mask_pack_ptr pending
  let Rshift := (pack_width - s.offset) % pack_width
  let pack_overflow := spread_pack >>> Rshift
  let offset := s.offset + newbits
  let produced := s.produced + newbits
  let pack_filled := pack_width ≤ offset
  { spread_mask
    spread_mask_pack_ptr :=
      if pack_filled then s.spread_mask_pack_ptr + 1 else s.spread_mask_pack_ptr
    pending := if pack_filled then pack_overflow else pending
    offset := produced % pack_width
    produced }

section Kernel

variable (packs_per_block : ℕ) (pos : InsertPosition) (insertion_mask : BixNum Stream) (items : ℕ)

def blockWidth : ℕ := pack_width * packs_per_block

/-- A pack of one of the two blocks of the extraction mask. -/
def processPack (extract_mask : Stream) (s : State) (i : ℕ) : State :=
  let extracted := simd_pext pack_width (mask01 pos) extract_mask
  let newbits := field pack_width (simd_popcount pack_width extract_mask) i
  appendPack (BitVec.ofNat pack_width (field pack_width extracted i)) newbits s

/-- The output and the number of its items after a block of the input. -/
def generateDoBlockMethod (output : (ℕ → BitVec pack_width) × ℕ) (blockNo : ℕ) :
    (ℕ → BitVec pack_width) × ℕ :=
  let produced := output.2
  let offset := produced % pack_width
  let produced_base := produced - offset
  let spread_mask_pack_ptr := produced_base / pack_width
  let initial_pending := output.1 spread_mask_pack_ptr
  let pending_bit_mask := (1 : BitVec pack_width) <<< offset - 1
  let pending := initial_pending &&& pending_bit_mask
  let extract_mask := extract_mask (blockWidth packs_per_block) insertion_mask items pos blockNo
  let s := [0, 1].foldl (fun s blk ↦
    (List.range packs_per_block).foldl (processPack pos (extract_mask blk)) s)
    { spread_mask := output.1, spread_mask_pack_ptr, pending, offset, produced }
  (Function.update s.spread_mask s.spread_mask_pack_ptr s.pending, s.produced)

/-- The blocks of one segment after the other. -/
def segments : ℕ → (ℕ → BitVec pack_width) × ℕ → List ℕ → (ℕ → BitVec pack_width) × ℕ
  | _, output, [] => output
  | blockNo, output, numOfBlocks :: rest =>
    segments (blockNo + numOfBlocks)
      ((List.range' blockNo numOfBlocks).foldl
        (generateDoBlockMethod packs_per_block pos insertion_mask items) output) rest

end Kernel

end UnitInsertionSpreadMaskKernel

/-- The mask that the kernel leaves in a buffer with any contents before. -/
def UnitInsertionSpreadMaskKernel (packs_per_block : ℕ) (buffer : ℕ → BitVec 64)
    (pos : InsertPosition) (insertion_mask : BixNum Stream) (items : ℕ) (strides : List ℕ) :
    List Bool :=
  let output := UnitInsertionSpreadMaskKernel.segments packs_per_block pos
    (insertion_mask.map (finalInput items)) items 0 (buffer, 0) strides
  written output.1 output.2

namespace UnitInsertionSpreadMaskKernel

open UnitInsertionExtractionMasks

section Packs

variable (m x : Stream) (packsPerBlock : ℕ)

/-- The number of bits that come before a pack. -/
def before (q : ℕ) : ℕ := rank m (pack_width * q)

/-- A pack of which all bits are taken goes into a word of its own. -/
def Full (q : ℕ) : Prop := before m q % pack_width = 0 ∧ before m (q + 1) = before m q + pack_width

/-- The pending word has the bits of a full pack of the block, which is stored already. -/
def Dirt (block q : ℕ) : Prop :=
  ∃ full < q, full / packsPerBlock = block ∧ Full m full ∧
    before m q < before m (full + 1) + pack_width

/-- A bit of a full pack comes again in the word behind it, if the same block gives a bit there. -/
def Stale (p : ℕ) : Prop :=
  ∃ full, Full m full ∧ before m (full + 1) ≤ p ∧ p < before m (full + 1) + pack_width ∧
    p < before m ((full / packsPerBlock + 1) * packsPerBlock) ∧ x p = true

variable {m x packsPerBlock} {block q q' p i : ℕ}

theorem before_mono (h : q ≤ q') : before m q ≤ before m q' :=
  rank_mono m (Nat.mul_le_mul_left _ h)

theorem length_pack : before m (q + 1) = before m q + (selected m x pack_width q).length := by
  rw [before, before, Nat.mul_succ, ← length_compress m x, selected]

theorem Full.getD (h : Full m q) (hi : i < pack_width) :
    (selected m x pack_width q).getD i false = x (pack_width * q + i) := by
  have hcount : rank (fun j ↦ m (pack_width * q + j)) pack_width = pack_width := by
    have hnext := h.2
    rw [before, before, Nat.mul_succ, rank_add] at hnext
    omega
  have hall : ∀ j < pack_width, m (pack_width * q + j) = true := by
    intro j hj
    by_contra hm
    have hlt := rank_lt_of_true (m := fun j ↦ !m (pack_width * q + j)) (by simpa using hm) hj
    have hnot := rank_not (fun j ↦ m (pack_width * q + j)) pack_width
    omega
  rw [selected, compress_of_true hall]
  simp [List.getD_eq_getElem?_getD, hi]

/-- In a block only full packs leave bits behind. -/
theorem dirt_succ (hblock : q / packsPerBlock = block) :
    Dirt m packsPerBlock block (q + 1) ↔
      if pack_width ≤ before m q % pack_width + (before m (q + 1) - before m q) then
        before m q % pack_width = 0
      else Dirt m packsPerBlock block q := by
  have hle : before m (q + 1) ≤ before m q + pack_width := by
    have hlen := length_selected_le (m := m) (v := m) (h := pack_width) (i := q)
    have hnext := length_pack (m := m) (x := m) (q := q)
    omega
  have hmono : before m q ≤ before m (q + 1) := before_mono (Nat.le_succ q)
  split_ifs with hfilled
  · constructor
    · intro h
      obtain ⟨full, hlt, -, hfull, hword⟩ := h
      have hstart := hfull.1
      have hnext := hfull.2
      rcases Nat.lt_succ_iff_lt_or_eq.1 hlt with hbefore | rfl
      · have hmono' : before m (full + 1) ≤ before m q := before_mono (by omega)
        rw [pack_width] at *
        omega
      · exact hstart
    · intro h
      have hfull : Full m q := ⟨h, by omega⟩
      exact ⟨q, Nat.lt_succ_self q, hblock, hfull, Nat.lt_add_of_pos_right (by decide)⟩
  · constructor
    · intro h
      obtain ⟨full, hlt, hsame, hfull, hword⟩ := h
      have hnext := hfull.2
      rcases Nat.lt_succ_iff_lt_or_eq.1 hlt with hbefore | rfl
      · exact ⟨full, hbefore, hsame, hfull, by omega⟩
      · omega
    · intro h
      obtain ⟨full, hlt, hsame, hfull, hword⟩ := h
      have hstart := hfull.1
      have hnext := hfull.2
      have hmono' : before m (full + 1) ≤ before m q := before_mono (by omega)
      refine ⟨full, by omega, hsame, hfull, ?_⟩
      rw [pack_width] at *
      omega

theorem stale_iff (hpacks : 0 < packsPerBlock) (hp : before m q ≤ p) (hp' : p < before m (q + 1)) :
    Stale m x packsPerBlock p ↔
      p / pack_width = before m q / pack_width ∧
        Dirt m packsPerBlock (q / packsPerBlock) q ∧ x p = true := by
  constructor
  · intro h
    obtain ⟨full, hfull, hle, hlt, hblock, hx⟩ := h
    have hbefore : full < q := by
      by_contra hcon
      have hmono : before m (q + 1) ≤ before m (full + 1) := before_mono (by omega)
      omega
    have hend : q < (full / packsPerBlock + 1) * packsPerBlock := by
      by_contra hcon
      have hmono := before_mono (m := m) (Nat.le_of_not_lt hcon)
      omega
    have hsame : full / packsPerBlock = q / packsPerBlock := by
      apply Nat.le_antisymm (Nat.div_le_div_right hbefore.le)
      exact Nat.lt_succ_iff.1 ((Nat.div_lt_iff_lt_mul hpacks).2 hend)
    have hmono : before m (full + 1) ≤ before m q := before_mono (by omega)
    have hstart := hfull.1
    have hnext := hfull.2
    rw [pack_width] at *
    exact ⟨by omega, ⟨full, hbefore, hsame, hfull, by rw [pack_width]; omega⟩, hx⟩
  · intro h
    obtain ⟨hword, ⟨full, hbefore, hsame, hfull, hlt⟩, hx⟩ := h
    have hmono : before m (full + 1) ≤ before m q := before_mono (by omega)
    have hend : q + 1 ≤ (full / packsPerBlock + 1) * packsPerBlock := by
      rw [hsame]
      exact (Nat.div_lt_iff_lt_mul hpacks).1 (Nat.lt_succ_self _)
    have hmono' := before_mono (m := m) hend
    have hstart := hfull.1
    have hnext := hfull.2
    refine ⟨full, hfull, by omega, ?_, by omega, hx⟩
    rw [pack_width] at *
    omega

/-- The bits of a pack are those of the whole mask from where it begins. -/
theorem getD_pack {count : ℕ} (hq : q < count) (hi : i < before m (q + 1) - before m q) :
    (compress m x 0 (pack_width * count)).getD (before m q + i) false =
      (selected m x pack_width q).getD i false := by
  have hlen := length_pack (m := m) (x := x) (q := q)
  obtain ⟨rest, rfl⟩ := Nat.exists_eq_add_of_le (show q + 1 ≤ count by omega)
  have hsplit : pack_width * (q + 1 + rest) = pack_width * q + (pack_width + pack_width * rest) := by
    ring
  have hstart := length_compress m x 0 (pack_width * q)
  rw [rank_zero, Nat.zero_add, Nat.zero_add] at hstart
  rw [hsplit, compress_append, compress_append, Nat.zero_add,
    List.getD_append_right _ _ _ _ (by rw [hstart, before]; omega), hstart, before,
    Nat.add_sub_cancel_left, List.getD_append _ _ _ _ (by rw [selected] at hlen; omega), selected]

theorem not_dirt_start : ¬ Dirt m packsPerBlock block (packsPerBlock * block) := by
  intro h
  obtain ⟨full, hlt, hblock, -⟩ := h
  have hdiv := Nat.div_lt_of_lt_mul hlt
  omega

end Packs

section Append

open scoped Classical

variable {m x : Stream} {packsPerBlock count : ℕ} {block q q' p i : ℕ} {s : State}

/-- What is stored for a bit of the mask. -/
noncomputable def stored (m x : Stream) (packsPerBlock count p : ℕ) : Bool :=
  (compress m x 0 (pack_width * count)).getD p false || decide (Stale m x packsPerBlock p)

/-- The state before a pack of a block. -/
structure Ready (m x : Stream) (packsPerBlock count block q : ℕ) (s : State) : Prop where
  produced : s.produced = before m q
  offset : s.offset = before m q % pack_width
  pack_ptr : s.spread_mask_pack_ptr = before m q / pack_width
  holds : Holds (stored m x packsPerBlock count) (before m q)
    (fun i ↦ decide (Dirt m packsPerBlock block q) && x i) s.spread_mask s.pending

theorem Ready.appendPack (hx : ∀ p, x (p % pack_width) = x p) (hpacks : 0 < packsPerBlock)
    (h : Ready m x packsPerBlock count block q s) (hq : q < count)
    (hblock : q / packsPerBlock = block) :
    Ready m x packsPerBlock count block (q + 1)
      (appendPack (ofBools pack_width (selected m x pack_width q))
        (selected m x pack_width q).length s) := by
  have hlen := length_pack (m := m) (x := x) (q := q)
  have hle : (selected m x pack_width q).length ≤ pack_width := length_selected_le
  have hbits (i : ℕ) (hi : i < (selected m x pack_width q).length) :
      (compress m x 0 (pack_width * count)).getD (before m q + i) false =
        (selected m x pack_width q).getD i false := getD_pack hq (by omega)
  have hholds := h.holds.append (by decide) hle
    (C := fun p ↦ (compress m x 0 (pack_width * count)).getD p false)
    (y := ofBools pack_width (selected m x pack_width q)) (fun i hi ↦ ?_) (fun i hi ↦ ?_)
  · rw [← hlen] at hholds
    refine ⟨by simp only [UnitInsertionSpreadMaskKernel.appendPack, h.produced, hlen], ?_, ?_, ?_⟩
    · simp only [UnitInsertionSpreadMaskKernel.appendPack, h.produced, hlen]
    · simp only [UnitInsertionSpreadMaskKernel.appendPack, h.offset, h.pack_ptr]
      rw [pack_width] at *
      split_ifs <;> omega
    · simp only [UnitInsertionSpreadMaskKernel.appendPack, h.offset, h.pack_ptr]
      refine ⟨hholds.stored, hholds.low, fun k hk hk' ↦ (hholds.high k hk hk').trans ?_⟩
      have hdirt := dirt_succ (m := m) hblock
      rw [hlen, Nat.add_sub_cancel_left] at hdirt
      by_cases hfilled : pack_width ≤ before m q % pack_width +
          (selected m x pack_width q).length
      · simp only [if_pos hfilled] at hdirt ⊢
        rw [decide_eq_decide.2 hdirt]
        by_cases hzero : before m q % pack_width = 0
        · have hfull : Full m q := ⟨hzero, by omega⟩
          rw [hbits k (by omega), hfull.getD hk, ← hx, Nat.mul_add_mod, hx]
        · rw [decide_eq_false hzero, Bool.false_and, Bool.false_and]
      · simp only [if_neg hfilled] at hdirt ⊢
        rw [decide_eq_decide.2 hdirt]
  · rw [getLsbD_ofBools _ hi]
    by_cases hlt : i < (selected m x pack_width q).length
    · rw [decide_eq_true hlt, Bool.true_and, hbits i hlt]
    · rw [decide_eq_false hlt, Bool.false_and, List.getD_eq_default _ _ (Nat.le_of_not_lt hlt)]
  · have hstale := stale_iff (x := x) hpacks (Nat.le_add_right (before m q) i)
      (show before m q + i < before m (q + 1) by omega)
    rw [hblock] at hstale
    rw [stored, hx]
    simp only [hstale, Bool.decide_and, Bool.decide_eq_true]

end Append

section Blocks

open scoped Classical

variable {packs : ℕ} {pos : InsertPosition} {n : BixNum Stream} {items count blockNo : ℕ}
variable {output : (ℕ → BitVec pack_width) × ℕ} {s : State}

/-- The extraction mask of all blocks. -/
def validMask (packs : ℕ) (pos : InsertPosition) (n : BixNum Stream) (items : ℕ) : Stream :=
  valid01 (blockWidth packs) n items pos

theorem mask01_mod (p : ℕ) : mask01 pos (p % pack_width) = mask01 pos p := by
  have hmod : p % pack_width % 2 = p % 2 := Nat.mod_mod_of_dvd p (by decide)
  cases pos <;> simp only [mask01, simd_himask, simd_lomask, hmod]

theorem mask01_add (a p : ℕ) : mask01 pos (pack_width * a + p) = mask01 pos p := by
  rw [← mask01_mod, Nat.mul_add_mod, mask01_mod]

theorem validMask_pack {blk i t : ℕ} (hblk : blk < 2) (hi : i < packs) (ht : t < pack_width) :
    validMask packs pos n items (pack_width * (packs * (2 * blockNo + blk) + i) + t) =
      extract_mask (blockWidth packs) n items pos blockNo blk (pack_width * i + t) := by
  have hlt : pack_width * i + t < blockWidth packs := by
    have hle := Nat.mul_le_mul_left pack_width hi
    rw [Nat.mul_succ] at hle
    rw [blockWidth]
    omega
  have heq : pack_width * (packs * (2 * blockNo + blk) + i) + t =
      blockWidth packs * (2 * blockNo + blk) + (pack_width * i + t) := by
    rw [blockWidth]
    ring
  rw [heq, validMask, valid01, storeOutputStreamBlock_apply hblk hlt]

theorem selected_pack {blk i : ℕ} (hblk : blk < 2) (hi : i < packs) :
    selected (extract_mask (blockWidth packs) n items pos blockNo blk) (mask01 pos) pack_width i =
      selected (validMask packs pos n items) (mask01 pos) pack_width
        (packs * (2 * blockNo + blk) + i) := by
  rw [selected, selected, compress_shift, compress_shift (validMask packs pos n items)]
  refine compress_congr (fun t ht ↦ ?_) fun t ht _ ↦ ?_
  · rw [Nat.zero_add, validMask_pack hblk hi ht]
  · rw [mask01_add, mask01_add]

theorem processPack_eq {extract_mask : Stream} {i : ℕ} :
    processPack pos extract_mask s i =
      appendPack (ofBools pack_width (selected extract_mask (mask01 pos) pack_width i))
        (selected extract_mask (mask01 pos) pack_width i).length s := by
  have hcount : field pack_width (simd_popcount pack_width extract_mask) i =
      (selected extract_mask (mask01 pos) pack_width i).length := by
    rw [length_selected, simd_popcount, field_ofFields, pop]
    exact Nat.mod_eq_of_lt ((rank_le _ _).trans_lt Nat.lt_two_pow_self)
  have hbits : field pack_width (simd_pext pack_width (mask01 pos) extract_mask) i =
      ofDigits (selected extract_mask (mask01 pos) pack_width i) :=
    field_simd_pext 5 i extract_mask (mask01 pos)
  rw [processPack, hcount, hbits, ofBools]

theorem Ready.foldl {blk : ℕ} (hblk : blk < 2) (hcount : packs * (2 * (blockNo + 1)) ≤ count)
    (h : Ready (validMask packs pos n items) (mask01 pos) (packs * 2) count blockNo
      (packs * (2 * blockNo + blk)) s) :
    Ready (validMask packs pos n items) (mask01 pos) (packs * 2) count blockNo
      (packs * (2 * blockNo + blk + 1)) ((List.range packs).foldl
        (processPack pos (extract_mask (blockWidth packs) n items pos blockNo blk)) s) := by
  have hall : ∀ i ≤ packs, Ready (validMask packs pos n items) (mask01 pos) (packs * 2) count
      blockNo (packs * (2 * blockNo + blk) + i) ((List.range i).foldl
        (processPack pos (extract_mask (blockWidth packs) n items pos blockNo blk)) s) := by
    intro i
    induction i with
    | zero => exact fun _ ↦ h
    | succ i ih =>
      intro hi
      have hblock : packs * (2 * blockNo + blk) + i = packs * 2 * blockNo + (packs * blk + i) := by
        ring
      have hlt : packs * blk + i < packs * 2 := by
        have hle := Nat.mul_le_mul_left packs (show blk ≤ 1 by omega)
        omega
      have hend : packs * (2 * (blockNo + 1)) = packs * 2 * blockNo + packs * 2 := by ring
      rw [List.range_succ, List.foldl_append, List.foldl_cons, List.foldl_nil, processPack_eq,
        selected_pack hblk hi]
      have hstep := (ih (by omega)).appendPack mask01_mod (by omega) (by omega)
        (by rw [hblock, mul_add_div_of_lt hlt])
      exact hstep
  have hlast := hall packs le_rfl
  rwa [← Nat.mul_succ] at hlast

/-- The bits that the blocks have given are stored. -/
def Done (m x : Stream) (packsPerBlock count blockNo : ℕ) (output : (ℕ → BitVec pack_width) × ℕ) :
    Prop :=
  output.2 = before m (packsPerBlock * blockNo) ∧
    ∀ p < output.2, bitAt output.1 p = stored m x packsPerBlock count p

theorem Done.block (hcount : packs * (2 * (blockNo + 1)) ≤ count)
    (h : Done (validMask packs pos n items) (mask01 pos) (packs * 2) count blockNo output) :
    Done (validMask packs pos n items) (mask01 pos) (packs * 2) count (blockNo + 1)
      (generateDoBlockMethod packs pos n items output blockNo) := by
  obtain ⟨hproduced, hbits⟩ := h
  have hbase : (output.2 - output.2 % pack_width) / pack_width = output.2 / pack_width := by
    have hdiv := Nat.div_add_mod output.2 pack_width
    rw [← hdiv, Nat.mul_add_mod, Nat.mod_mod, Nat.add_sub_cancel, Nat.mul_div_cancel_left _
      (by decide), hdiv]
  have hfirst : packs * (2 * blockNo + 0) = packs * 2 * blockNo := by ring
  have hlast : packs * (2 * blockNo + 1 + 1) = packs * 2 * (blockNo + 1) := by ring
  have hstart : Ready (validMask packs pos n items) (mask01 pos) (packs * 2) count blockNo
      (packs * (2 * blockNo + 0))
      { spread_mask := output.1
        spread_mask_pack_ptr := (output.2 - output.2 % pack_width) / pack_width
        pending := output.1 ((output.2 - output.2 % pack_width) / pack_width) &&&
          ((1 : BitVec pack_width) <<< (output.2 % pack_width) - 1)
        offset := output.2 % pack_width
        produced := output.2 } := by
    rw [hfirst]
    refine ⟨hproduced, by rw [hproduced], by rw [hbase, hproduced], ?_⟩
    have hreload := holds_reload (by decide) hbits
    rw [hbase, ← hproduced]
    refine ⟨hreload.stored, hreload.low, fun k hk hk' ↦ (hreload.high k hk hk').trans ?_⟩
    rw [decide_eq_false not_dirt_start, Bool.false_and]
  have hend := (hstart.foldl (by decide) hcount).foldl (by decide) hcount
  rw [hlast] at hend
  refine ⟨hend.produced, fun p hp ↦ ?_⟩
  have hstore := hend.holds.store (by decide) (p := p)
  rw [← hend.pack_ptr, ← hend.produced] at hstore
  exact hstore hp

theorem Done.segments {strides : List ℕ}
    (hcount : packs * (2 * (blockNo + strides.sum)) ≤ count)
    (h : Done (validMask packs pos n items) (mask01 pos) (packs * 2) count blockNo output) :
    Done (validMask packs pos n items) (mask01 pos) (packs * 2) count (blockNo + strides.sum)
      (segments packs pos n items blockNo output strides) := by
  induction strides generalizing blockNo output with
  | nil => exact h
  | cons numOfBlocks rest ih =>
    rw [List.sum_cons, ← Nat.add_assoc] at hcount ⊢
    have hblocks : ∀ k ≤ numOfBlocks, Done (validMask packs pos n items) (mask01 pos) (packs * 2)
        count (blockNo + k) ((List.range' blockNo k).foldl
          (generateDoBlockMethod packs pos n items) output) := by
      intro k
      induction k with
      | zero => exact fun _ ↦ h
      | succ k ihk =>
        intro hk
        rw [List.range'_1_concat, List.foldl_append, List.foldl_cons, List.foldl_nil]
        have hle : packs * (2 * (blockNo + k + 1)) ≤ count :=
          (Nat.mul_le_mul_left packs (by omega)).trans hcount
        have hstep := (ihk (by omega)).block hle
        exact hstep
    exact ih hcount (hblocks numOfBlocks le_rfl)

end Blocks

end UnitInsertionSpreadMaskKernel

open UnitInsertionExtractionMasks UnitInsertionSpreadMaskKernel

variable {packs items : ℕ} {pos : InsertPosition} {n : BixNum Stream} {strides : List ℕ}

/-- The mask of the codes of all positions. -/
def unitMask (pos : InsertPosition) (n : BixNum Stream) (items : ℕ) : List Bool :=
  ((List.range items).map (value id · n)).flatMap (unitCode pos)

theorem slot_of_le {p l : ℕ} (hp : items ≤ p) :
    slot pos (n.map (finalInput items)) items l p = false := by
  have hinsert : insertionMask (n.map (finalInput items)) p = false := by
    simp [insertionMask_apply, value_finalInput, Nat.not_lt.2 hp]
  have hextent : fileExtentMask items p = false := decide_eq_false (Nat.not_lt.2 hp)
  cases pos <;> rcases l with - | l <;> assumption

theorem compress_validMask (hpacks : 0 < packs) {N : ℕ} (hN : 2 * items ≤ N) :
    compress (validMask packs pos (n.map (finalInput items)) items) (mask01 pos) 0 N =
      unitMask pos n items := by
  have hwidth : blockWidth packs = 2 * (32 * packs) := by
    rw [blockWidth, pack_width]
    ring
  obtain ⟨rest, rfl⟩ := Nat.exists_eq_add_of_le hN
  have hend : compress (valid01 (2 * (32 * packs)) (n.map (finalInput items)) items pos)
      (mask01 pos) (0 + 2 * items) rest = [] := by
    refine compress_of_false fun i _ ↦ ?_
    have hsplit : 0 + 2 * items + i = 2 * (items + i / 2) + i % 2 := by omega
    rw [hsplit, valid01_apply (by omega) _ (Nat.mod_lt i Nat.two_pos)]
    exact slot_of_le (Nat.le_add_right _ _)
  rw [validMask, hwidth, compress_append, hend, List.append_nil, compress_valid01 (by omega),
    unitMask]

/-- The kernel gives the mask, unless bits of a full pack come again in the next word. -/
theorem unitInsertionSpreadMaskKernel_exact (buffer : ℕ → BitVec 64) (hpacks : 0 < packs)
    (hstrides : items ≤ blockWidth packs * strides.sum) :
    UnitInsertionSpreadMaskKernel packs buffer pos n items strides = unitMask pos n items ↔
      ∀ p < (unitMask pos n items).length,
        Stale (validMask packs pos (n.map (finalInput items)) items) (mask01 pos) (packs * 2) p →
          (unitMask pos n items).getD p false = true := by
  classical
  obtain ⟨count, hcount⟩ : ∃ count, count = packs * (2 * (0 + strides.sum)) := ⟨_, rfl⟩
  have hwidth : pack_width * count = 2 * (blockWidth packs * strides.sum) := by
    rw [hcount, blockWidth]
    ring
  have hmask : compress (validMask packs pos (n.map (finalInput items)) items) (mask01 pos) 0
      (pack_width * count) = unitMask pos n items := compress_validMask hpacks (by omega)
  have hempty : Done (validMask packs pos (n.map (finalInput items)) items) (mask01 pos) (packs * 2)
      count 0 (buffer, 0) := by
    refine ⟨?_, fun p hp ↦ absurd hp (Nat.not_lt_zero p)⟩
    rw [before, Nat.mul_zero, Nat.mul_zero, rank_zero]
  obtain ⟨hproduced, hbits⟩ := hempty.segments hcount.ge
  have hlength : (unitMask pos n items).length = before
      (validMask packs pos (n.map (finalInput items)) items) (packs * 2 * (0 + strides.sum)) := by
    have hlen := length_compress (validMask packs pos (n.map (finalInput items)) items)
      (mask01 pos) 0 (pack_width * count)
    rw [hmask, rank_zero, Nat.zero_add, Nat.zero_add] at hlen
    rw [hlen, hcount, before, Nat.mul_assoc]
  rw [hproduced, ← hlength] at hbits
  rw [UnitInsertionSpreadMaskKernel, hproduced, ← hlength, written_eq_iff rfl]
  refine forall₂_congr fun p hp ↦ ?_
  rw [hbits p hp, stored, hmask]
  by_cases hstale : Stale (validMask packs pos (n.map (finalInput items)) items) (mask01 pos)
    (packs * 2) p
  · simp [hstale]
  · simp [hstale]

end Parabix.Streamutils
