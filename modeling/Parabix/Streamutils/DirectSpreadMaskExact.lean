import Parabix.Streamutils.ScanSpreadMaskExact

namespace Parabix.Streamutils

open Library Library.BitStream IDISA Unicode Pablo

namespace InsertionSpreadMaskKernel

section Words

variable {N : BixNum Stream} {base j : ℕ}

theorem toNat_theBit {mask : BitVec ScanWordWidth} :
    (theBit mask j).toNat = (mask.getLsbD j).toNat := by
  have hone : (1 : BitVec ScanWordWidth).toNat = 1 := rfl
  rw [theBit, BitVec.toNat_and, BitVec.toNat_ushiftRight, hone, Nat.and_one_is_mod,
    Nat.shiftRight_eq_div_pow, BitVec.getLsbD, Nat.toNat_testBit]

theorem insertAmount_eq (masks : List (BitVec ScanWordWidth)) :
    insertAmount masks j = ofDigits (masks.map (BitVec.getLsbD · j)) := by
  have hall (i : ℕ) : ((masks.zipIdx i).map fun mask ↦
      (theBit mask.1 j).toNat <<< mask.2).sum =
        2 ^ i * ofDigits (masks.map (BitVec.getLsbD · j)) := by
    induction masks generalizing i with
    | nil => rfl
    | cons mask masks ih =>
      rw [List.zipIdx_cons, List.map_cons, List.sum_cons, ih, List.map_cons, ofDigits_cons,
        toNat_theBit, Nat.shiftLeft_eq, pow_succ]
      ring
  rw [insertAmount, hall 0, pow_zero, Nat.one_mul]

theorem testBit_scanWord (hj : j < ScanWordWidth) (hbase : ScanWordWidth ∣ base) (s : Stream) :
    (scanWord base s).testBit j = s (base + j) := by
  rw [scanWord, testBit_field, decide_eq_true hj, Bool.true_and, Nat.mul_div_cancel' hbase]

/-- The count at a position is read from the scan words. -/
theorem insertAmount_scanWord (hj : j < ScanWordWidth) (hbase : ScanWordWidth ∣ base) :
    insertAmount ((N.map (scanWord base)).map (BitVec.ofNat ScanWordWidth)) j =
      value id (base + j) N := by
  rw [insertAmount_eq, value, List.map_map, List.map_map]
  refine congrArg ofDigits (List.map_congr_left fun s _ ↦ ?_)
  rw [Function.comp_apply, Function.comp_apply, BitVec.getLsbD_ofNat, decide_eq_true hj,
    Bool.true_and, testBit_scanWord hj hbase]
  rfl

theorem testBit_foldl_or (words : List ℕ) (z : ℕ) :
    (words.foldl (· ||| ·) z).testBit j = (z.testBit j || words.any (Nat.testBit · j)) := by
  induction words generalizing z with
  | nil => simp
  | cons word words ih => rw [List.foldl_cons, ih, Nat.testBit_or, List.any_cons, Bool.or_assoc]

theorem value_ne_zero_iff {p : ℕ} : value id p N ≠ 0 ↔ N.any (· p) = true := by
  induction N with
  | nil => simp
  | cons s N ih =>
    rw [value_cons, List.any_cons, Bool.or_eq_true, ← ih, id_eq]
    cases s p <;> simp

theorem testBit_scanWords (hj : j < ScanWordWidth) (hbase : ScanWordWidth ∣ base) :
    ((N.map (scanWord base)).foldl (· ||| ·) 0).testBit j = true ↔ value id (base + j) N ≠ 0 := by
  rw [testBit_foldl_or, Nat.zero_testBit, Bool.false_or, value_ne_zero_iff, List.any_map]
  refine Iff.of_eq (congrArg (· = true) (congrArg N.any (funext fun s ↦ ?_)))
  exact testBit_scanWord hj hbase s

theorem scanWord_ne_zero_iff (hbase : ScanWordWidth ∣ base) :
    (N.any fun s ↦ scanWord base s ≠ 0) = true ↔
      ∃ j < ScanWordWidth, value id (base + j) N ≠ 0 := by
  simp only [value_ne_zero_iff, List.any_eq_true, decide_eq_true_eq]
  constructor
  · intro h
    obtain ⟨s, hs, hne⟩ := h
    obtain ⟨j, hj⟩ := Nat.exists_testBit_of_ne_zero hne
    have hlt : j < ScanWordWidth := by
      rw [scanWord, testBit_field, Bool.and_eq_true, decide_eq_true_eq] at hj
      exact hj.1
    exact ⟨j, hlt, s, hs, by rwa [testBit_scanWord hlt hbase] at hj⟩
  · intro h
    obtain ⟨j, hj, s, hs, hbit⟩ := h
    refine ⟨s, hs, fun hzero ↦ ?_⟩
    rw [← testBit_scanWord hj hbase s, hzero, Nat.zero_testBit] at hbit
    cases hbit

end Words

section Strides

variable {buffer : ℕ → BitVec ScanWordWidth} {pos : InsertPosition} {N : BixNum Stream}
variable {items base x y scanBase : ℕ} {s : State}

/-- The input is processed up to a position, which is in some scan word. -/
def Reached (buffer : ℕ → BitVec ScanWordWidth) (pos : InsertPosition) (N : BixNum Stream)
    (items y : ℕ) (s : State) : Prop :=
  ∃ scanBase, Scanned buffer pos (value id · N) items scanBase y s

theorem Scanned.skip {c : ℕ → ℕ} (h : Scanned buffer pos c items scanBase x s) (hxy : x ≤ y)
    (hzeros : ∀ i, x ≤ i → i < y → c i = 0) : Scanned buffer pos c items scanBase y s := by
  obtain ⟨z, hz, hzx, hitems, hready, hbefore⟩ := h
  refine ⟨z, hz, hzx.trans hxy, hitems, hready, fun i h1 h2 ↦ ?_⟩
  rcases Nat.lt_or_ge i x with hlt | hle
  · exact hbefore i h1 hlt
  · exact hzeros i hle h2

/-- A scan word in which there is something to insert. -/
theorem Reached.processWord {priorProcessed wordsToSkip : ℕ}
    (h : Reached buffer pos N items (priorProcessed + wordsToSkip * ScanWordWidth) s)
    (hbase : ScanWordWidth ∣ priorProcessed)
    (hend : ∀ p, items ≤ p → value id p N = 0)
    (hitems : priorProcessed + wordsToSkip * ScanWordWidth ≤ items) :
    Reached buffer pos N items (priorProcessed + (wordsToSkip + 1) * ScanWordWidth)
      (processWord pos N priorProcessed s wordsToSkip) := by
  obtain ⟨base, heq⟩ : ∃ base, base = priorProcessed + wordsToSkip * ScanWordWidth := ⟨_, rfl⟩
  have hdvd : ScanWordWidth ∣ base := by
    rw [heq]
    exact Nat.dvd_add hbase (Nat.dvd_mul_left _ _)
  obtain ⟨scanBase, x, hx, hxy, hxitems, hready, hzeros⟩ := h
  rw [← heq] at hxy hzeros hitems
  have hfill := hready.fillTo hitems hxy hzeros
  have hall : ∀ j ≤ ScanWordWidth, Scanned buffer pos (value id · N) items base (base + j)
      (((List.range j).filter
        ((N.map (scanWord base)).foldl (· ||| ·) 0).testBit).foldl (fun s indexInWord ↦
          generateProcessingLogic pos ((N.map (scanWord base)).map (BitVec.ofNat ScanWordWidth))
            (base + indexInWord) s) (fillTo base s)) := by
    intro j
    induction j with
    | zero =>
      intro _
      exact ⟨base, le_rfl, le_rfl, hitems, hfill, fun i h1 h2 ↦ by omega⟩
    | succ j ih =>
      intro hj
      have ih := ih (by omega)
      have hplace : (base + j) / ScanWordWidth = base / ScanWordWidth ∧
          (base + j) % ScanWordWidth = j := by
        obtain ⟨q, rfl⟩ := hdvd
        rw [mul_add_div_of_lt hj, mul_add_mod_of_lt hj, Nat.mul_div_cancel_left _ (by decide)]
        exact ⟨rfl, rfl⟩
      rw [List.range_succ, List.filter_append, List.foldl_append]
      by_cases hbit : ((N.map (scanWord base)).foldl (· ||| ·) 0).testBit j = true
      · have hcount := (testBit_scanWords (N := N) hj hdvd).1 hbit
        rw [List.filter_singleton, hbit]
        refine ih.item ?_ ?_ ?_
        · by_contra hle
          exact hcount (hend _ (by omega))
        · rw [hplace.1, Nat.mul_div_cancel' hdvd]
        · rw [hplace.2]
          exact insertAmount_scanWord hj hdvd
      · have hcount := (testBit_scanWords (N := N) hj hdvd).not.1 hbit
        rw [List.filter_singleton, Bool.eq_false_of_not_eq_true hbit]
        exact ih.skip (by omega) fun i h1 h2 ↦ by
          obtain rfl : i = base + j := by omega
          exact not_not.1 hcount
  refine ⟨base, ?_⟩
  have hlt : (N.map (scanWord base)).foldl (· ||| ·) 0 < 2 ^ ScanWordWidth := by
    apply Nat.lt_pow_two_of_testBit
    intro i hi
    rw [testBit_foldl_or, Nat.zero_testBit, Bool.false_or, List.any_map]
    apply List.any_eq_false.2
    intro s _
    rw [Function.comp_apply, scanWord, testBit_field, decide_eq_false (by omega)]
    simp
  have hword := hall ScanWordWidth le_rfl
  rw [← setBits_eq_filter hlt] at hword
  rw [Nat.succ_mul, ← Nat.add_assoc, ← heq, InsertionSpreadMaskKernel.processWord, ← heq]
  exact hword

/-- The scan words of a stride. -/
theorem Reached.strideLogic {priorProcessed words : ℕ}
    (h : Reached buffer pos N items priorProcessed s) (hbase : ScanWordWidth ∣ priorProcessed)
    (hend : ∀ p, items ≤ p → value id p N = 0) :
    Reached buffer pos N items (priorProcessed + words * ScanWordWidth)
      (strideLogic pos N priorProcessed words s) := by
  have hall : ∀ j ≤ words, Reached buffer pos N items (priorProcessed + j * ScanWordWidth)
      (((List.range j).filter (generateIndexComputation N priorProcessed words).testBit).foldl
        (InsertionSpreadMaskKernel.processWord pos N priorProcessed) s) := by
    intro j
    induction j with
    | zero =>
      intro _
      rw [Nat.zero_mul]
      exact h
    | succ j ih =>
      intro hj
      have ih := ih (by omega)
      have hdvd : ScanWordWidth ∣ priorProcessed + j * ScanWordWidth :=
        Nat.dvd_add hbase (Nat.dvd_mul_left _ _)
      have hindex : (generateIndexComputation N priorProcessed words).testBit j =
          N.any fun s ↦ scanWord (priorProcessed + j * ScanWordWidth) s ≠ 0 := by
        rw [generateIndexComputation, testBit_ofDigits,
          List.getD_eq_getElem _ _ (by simpa using Nat.lt_of_succ_le hj)]
        simp
      rw [List.range_succ, List.filter_append, List.foldl_append, List.filter_singleton, hindex]
      by_cases hword : (N.any fun s ↦ scanWord (priorProcessed + j * ScanWordWidth) s ≠ 0) = true
      · obtain ⟨k, hk, hcount⟩ := (scanWord_ne_zero_iff hdvd).1 hword
        rw [hword]
        refine ih.processWord hbase hend ?_
        by_contra hle
        exact hcount (hend _ (by omega))
      · have hzeros := (scanWord_ne_zero_iff hdvd).not.1 hword
        rw [Bool.eq_false_of_not_eq_true hword]
        obtain ⟨scanBase, hscanned⟩ := ih
        refine ⟨scanBase, hscanned.skip ?_ fun i h1 h2 ↦ ?_⟩
        · rw [Nat.succ_mul]
          omega
        · rw [Nat.succ_mul] at h2
          by_contra hne
          obtain ⟨k, rfl⟩ := Nat.exists_eq_add_of_le h1
          exact hzeros ⟨k, by omega, hne⟩
  have hlt : generateIndexComputation N priorProcessed words < 2 ^ words := by
    have hdigits := ofDigits_lt ((List.range words).map fun word ↦
      N.any fun s ↦ scanWord (priorProcessed + word * ScanWordWidth) s ≠ 0)
    rwa [List.length_map, List.length_range] at hdigits
  rw [InsertionSpreadMaskKernel.strideLogic, setBits_eq_filter hlt]
  exact hall words le_rfl

/-- The strides of a segment. -/
theorem Reached.multiStrideLoop {packs numOfBlocks : ℕ} (hpacks : 0 < packs) (hle : packs ≤ 64)
    (hbase : ScanWordWidth ∣ base) (hend : ∀ p, items ≤ p → value id p N = 0) (fuel : ℕ) {done : ℕ}
    {s : State} (hdone : done ≤ numOfBlocks) (hfuel : numOfBlocks ≤ done + fuel)
    (h : Reached buffer pos N items (done * (ScanWordWidth * packs) + base) s) :
    Reached buffer pos N items (numOfBlocks * (ScanWordWidth * packs) + base)
      (multiStrideLoop packs pos N base numOfBlocks fuel done s) := by
  induction fuel generalizing done s with
  | zero =>
    obtain rfl : done = numOfBlocks := by omega
    exact h
  | succ fuel ih =>
    have hmax : 0 < 64 / packs := Nat.div_pos hle hpacks
    rw [InsertionSpreadMaskKernel.multiStrideLoop]
    obtain ⟨todo, htodo⟩ : ∃ todo, todo = if 64 / packs ≤ numOfBlocks - done then 64 / packs
      else numOfBlocks - done := ⟨_, rfl⟩
    rw [← htodo]
    have hbounds : todo ≤ numOfBlocks - done ∧ (done < numOfBlocks → 0 < todo) := by
      split_ifs at htodo <;> omega
    have hdvd : ScanWordWidth ∣ done * (ScanWordWidth * packs) + base :=
      Nat.dvd_add ((Nat.dvd_mul_right _ _).mul_left _) hbase
    have hstride := @Reached.strideLogic _ _ _ _ s _ (todo * packs) h hdvd hend
    have hplace : done * (ScanWordWidth * packs) + base + todo * packs * ScanWordWidth =
        (done + todo) * (ScanWordWidth * packs) + base := by ring
    rw [hplace] at hstride
    split_ifs with hlast
    · rwa [hlast] at hstride
    · exact ih (by omega) (by omega) hstride

end Strides

section Segments

open scoped Classical

variable {buffer : ℕ → BitVec ScanWordWidth} {pos : InsertPosition} {N : BixNum Stream}
variable {packs items blockNo numOfBlocks : ℕ} {output : (ℕ → BitVec ScanWordWidth) × ℕ}

theorem fillTo_last {position n k : ℕ} {s : State} (hn : s.sm_produced = n)
    (hk : position - s.bn_processed = k) :
    (fillTo position s).spread_mask ((n + k) / ScanWordWidth) = (fillTo position s).sm_pending := by
  have hle : n / ScanWordWidth ≤ (n + k) / ScanWordWidth := Nat.div_le_div_right (by omega)
  rw [fillTo, hn, hk]
  by_cases hsame : n / ScanWordWidth = (n + k) / ScanWordWidth
  · simp only [if_pos hsame]
    rw [← hsame, Function.update_self]
  · simp only [if_neg hsame]
    rw [fillLoop_apply (by omega), if_neg (by omega), if_pos (by omega)]

/-- The output when the blocks before one are processed. -/
structure Done (buffer : ℕ → BitVec ScanWordWidth) (pos : InsertPosition) (N : BixNum Stream)
    (packs items blockNo : ℕ) (output : (ℕ → BitVec ScanWordWidth) × ℕ) : Prop where
  produced : output.2 =
    before (value id · N) items (min items (ScanWordWidth * packs * blockNo))
  bits : ∀ p < output.2, bitAt output.1 p = stored buffer pos (value id · N) items p
  untouched : ∀ u, output.2 / ScanWordWidth < u → output.1 u = buffer u

theorem Done.reached (h : Done buffer pos N packs items blockNo output)
    (hend : ∀ p, items ≤ p → value id p N = 0) :
    Reached buffer pos N items (ScanWordWidth * packs * blockNo)
      (initializeLoopVars (ScanWordWidth * packs * blockNo) output.2 output.1) := by
  obtain ⟨x, hx⟩ : ∃ x, x = min items (ScanWordWidth * packs * blockNo) := ⟨_, rfl⟩
  have hproduced := h.produced
  rw [← hx] at hproduced
  have hptr : (output.2 - output.2 % ScanWordWidth) / ScanWordWidth =
      output.2 / ScanWordWidth := by
    have hdiv := Nat.div_add_mod output.2 ScanWordWidth
    rw [← Nat.mul_div_cancel_left (output.2 / ScanWordWidth) (show 0 < ScanWordWidth by decide)]
    exact congrArg (· / ScanWordWidth) (by omega)
  refine ⟨x, x, le_rfl, by omega, by omega, ⟨fun y hy ↦ ?_, hproduced, ?_, fun u hu ↦ ?_⟩,
    fun i h1 h2 ↦ hend i (by omega)⟩
  · simp only [initializeLoopVars]
    omega
  · have hholds := holds_reload (show 0 < ScanWordWidth by decide) h.bits
    rw [← hptr] at hholds
    rw [← hproduced]
    refine ⟨hholds.stored, hholds.low, fun k hk hk' ↦ (hholds.high k hk hk').trans ?_⟩
    rw [decide_eq_false not_junk_self, Bool.false_and]
  · rw [← hproduced] at hu
    exact h.untouched u hu

/-- A segment is processed. -/
theorem Done.segment (h : Done buffer pos N packs items blockNo output) (hpacks : 0 < packs)
    (hle : packs ≤ 64) (hend : ∀ p, items ≤ p → value id p N = 0) :
    let s := fillTo (min items (ScanWordWidth * packs * (blockNo + numOfBlocks)))
      (multiStrideLoop packs pos N (ScanWordWidth * packs * blockNo) numOfBlocks numOfBlocks 0
        (initializeLoopVars (ScanWordWidth * packs * blockNo) output.2 output.1))
    Done buffer pos N packs items (blockNo + numOfBlocks) (s.spread_mask, s.sm_produced) := by
  have hbegin : Reached buffer pos N items (0 * (ScanWordWidth * packs) +
      ScanWordWidth * packs * blockNo)
      (initializeLoopVars (ScanWordWidth * packs * blockNo) output.2 output.1) := by
    rw [Nat.zero_mul, Nat.zero_add]
    exact h.reached hend
  have hloop := hbegin.multiStrideLoop hpacks hle (Nat.dvd_mul_right _ _ |>.mul_right _) hend
    numOfBlocks (Nat.zero_le numOfBlocks) (by omega)
  have hplace : numOfBlocks * (ScanWordWidth * packs) + ScanWordWidth * packs * blockNo =
      ScanWordWidth * packs * (blockNo + numOfBlocks) := by ring
  rw [hplace] at hloop
  obtain ⟨scanBase, x, -, hxy, hxitems, hready, hzeros⟩ := hloop
  obtain ⟨avail, havail⟩ : ∃ avail,
    avail = min items (ScanWordWidth * packs * (blockNo + numOfBlocks)) := ⟨_, rfl⟩
  have hxavail : x ≤ avail := by omega
  have hfilled := hready.fillTo (y := avail) (by omega) hxavail
    fun i h1 h2 ↦ hzeros i h1 (by omega)
  have hlast := fillTo_last hready.produced (hready.processed avail (by omega))
  rw [← before_eq_of_zeros (by omega) hxavail fun i h1 h2 ↦ hzeros i h1 (by omega)] at hlast
  rw [← havail]
  refine ⟨?_, fun p hp ↦ ?_, fun u hu ↦ ?_⟩
  · rw [← havail]
    exact hfilled.produced
  · simp only [hfilled.produced] at hp
    have hstore := hfilled.holds.store (by decide) hp
    rwa [← hlast, Function.update_eq_self] at hstore
  · simp only [hfilled.produced] at hu
    exact hfilled.untouched u hu

theorem stored_eq_iff {c : ℕ → ℕ} {p : ℕ} :
    stored buffer pos c items p = (insertMask pos c items).getD p false ↔
      (Passed c items p → bitAt buffer p = (insertMask pos c items).getD p false) ∧
      (¬ Passed c items p → StaleEnd pos c items p →
        (insertMask pos c items).getD p false = true) := by
  rw [stored]
  by_cases hpassed : Passed c items p
  · simp [hpassed]
  · by_cases hstale : StaleEnd pos c items p
    · simp [hpassed, hstale]
    · simp [hpassed, hstale]

theorem Done.segments {strides : List ℕ} (h : Done buffer pos N packs items blockNo output)
    (hpacks : 0 < packs) (hle : packs ≤ 64) (hend : ∀ p, items ≤ p → value id p N = 0) :
    Done buffer pos N packs items (blockNo + strides.sum)
      (segments packs pos N items blockNo output strides) := by
  induction strides generalizing blockNo output with
  | nil => exact h
  | cons numOfBlocks rest ih =>
    rw [List.sum_cons, ← Nat.add_assoc]
    exact ih (h.segment hpacks hle hend)

end Segments

end InsertionSpreadMaskKernel

open InsertionSpreadMaskKernel

section Direct

variable {packs items : ℕ} {pos : InsertPosition} {n : BixNum Stream} {strides : List ℕ}

section Congr

variable {c c' : ℕ → ℕ} (h : ∀ y < items, c y = c' y)

include h

theorem insertMask_congr : insertMask pos c items = insertMask pos c' items := by
  have hcounts : (List.range items).map c = (List.range items).map c' :=
    List.map_congr_left fun y hy ↦ h y (List.mem_range.1 hy)
  rw [insertMask, hcounts, insertMask]

theorem before_congr (x : ℕ) : before c items x = before c' items x := by
  induction x with
  | zero => rfl
  | succ x ih =>
    rw [before, before, ih]
    split_ifs with hx
    · rw [h x hx]
    · rfl

theorem passed_congr (p : ℕ) : Passed c items p ↔ Passed c' items p := by
  simp only [Passed, before_congr h]

theorem endsLater_congr (z : ℕ) : EndsLater c items z ↔ EndsLater c' items z := by
  simp only [EndsLater, before_congr h]
  refine and_congr_right fun hz ↦ ?_
  rw [h z hz]

theorem staleEnd_congr (p : ℕ) : StaleEnd pos c items p ↔ StaleEnd pos c' items p := by
  simp only [StaleEnd, before_congr h, endsLater_congr h]

end Congr

/-- The kernel gives the mask, unless a word that it does not store has other bits in the buffer, or
the last bit of a position comes again. -/
theorem insertionSpreadMaskKernel_exact (buffer : ℕ → BitVec ScanWordWidth) (hpacks : 0 < packs)
    (hle : packs ≤ 64) (hstrides : items ≤ 64 * packs * strides.sum) :
    InsertionSpreadMaskKernel packs buffer pos n items strides =
        insertMask pos (value id · n) items ↔
      ∀ p < (insertMask pos (value id · n) items).length,
        (Passed (value id · n) items p →
          bitAt buffer p = (insertMask pos (value id · n) items).getD p false) ∧
        (¬ Passed (value id · n) items p → StaleEnd pos (value id · n) items p →
          (insertMask pos (value id · n) items).getD p false = true) := by
  have hcounts (y : ℕ) (hy : y < items) :
      value id y (n.map (finalInput items)) = value id y n := by
    rw [value_finalInput, if_pos hy]
  have hend (p : ℕ) (hp : items ≤ p) : value id p (n.map (finalInput items)) = 0 := by
    rw [value_finalInput, if_neg (Nat.not_lt.2 hp)]
  have hempty : Done buffer pos (n.map (finalInput items)) packs items 0 (buffer, 0) := by
    refine ⟨?_, fun p hp ↦ absurd hp (Nat.not_lt_zero p), fun _ _ ↦ rfl⟩
    rw [Nat.mul_zero, Nat.min_zero]
    rfl
  have hdone := @Done.segments _ _ _ _ _ _ _ strides hempty hpacks hle hend
  have hproduced := hdone.produced
  have hall : items ≤ ScanWordWidth * packs * strides.sum := hstrides
  rw [Nat.zero_add, Nat.min_eq_left hall,
    ← @length_insertMask_take pos _ _ _ le_rfl, insertMask_congr hcounts] at hproduced
  obtain ⟨output, houtput⟩ : ∃ output, output = segments packs pos (n.map (finalInput items)) items
    0 (buffer, 0) strides := ⟨_, rfl⟩
  rw [← houtput] at hdone hproduced
  have hkernel : InsertionSpreadMaskKernel packs buffer pos n items strides =
      written output.1 output.2 := by
    rw [houtput]
    rfl
  rw [hkernel, written_eq_iff hproduced.symm, hproduced]
  refine forall₂_congr fun p hp ↦ ?_
  rw [hdone.bits p (hp.trans_eq hproduced.symm), ← insertMask_congr hcounts, stored_eq_iff,
    passed_congr hcounts, staleEnd_congr hcounts]

/-- The counts of all inserted zeros are given by both kernels, up to what the words that they fill
are left with. -/
theorem directSpreadMaskKernels_exact (buffer : ℕ → BitVec 64) (hpacks : 0 < packs)
    (hle : packs ≤ 64) (hstrides : items ≤ 64 * packs * strides.sum) :
    (UnitInsertionSpreadMaskKernel packs buffer pos n items strides = unitMask pos n items ↔
      ∀ p < (unitMask pos n items).length,
        UnitInsertionSpreadMaskKernel.Stale
            (UnitInsertionSpreadMaskKernel.validMask packs pos (n.map (finalInput items)) items)
            (UnitInsertionExtractionMasks.mask01 pos) (packs * 2) p →
          (unitMask pos n items).getD p false = true) ∧
    (InsertionSpreadMaskKernel packs buffer pos n items strides =
        insertMask pos (value id · n) items ↔
      ∀ p < (insertMask pos (value id · n) items).length,
        (Passed (value id · n) items p →
          bitAt buffer p = (insertMask pos (value id · n) items).getD p false) ∧
        (¬ Passed (value id · n) items p → StaleEnd pos (value id · n) items p →
          (insertMask pos (value id · n) items).getD p false = true)) :=
  ⟨unitInsertionSpreadMaskKernel_exact buffer hpacks hstrides,
    insertionSpreadMaskKernel_exact buffer hpacks hle hstrides⟩

theorem directSpreadMaskKernels_exact_second :
    UnitInsertionSpreadMaskKernel 1 (fun _ ↦ 0) .After [fun p ↦ decide (p = 1)] 2 [1] =
        [true, true, false] ∧
      InsertionSpreadMaskKernel 1 (fun _ ↦ 0) .After [fun p ↦ decide (p = 1)] 2 [1] =
        [true, true, false] := by
  have hexact := @directSpreadMaskKernels_exact 1 2 .After [fun p ↦ decide (p = 1)] [1] (fun _ ↦ 0)
    Nat.one_pos (by decide) (by decide)
  have hlength : (unitMask .After [fun p ↦ decide (p = 1)] 2).length = 3 := rfl
  have hlength' : (insertMask .After (value id · [fun p ↦ decide (p = 1)]) 2).length = 3 := rfl
  rw [hlength, hlength'] at hexact
  refine ⟨hexact.1.2 fun p hp hstale ↦ ?_,
    hexact.2.2 fun p hp ↦ ⟨fun hpassed ↦ ?_, fun _ hstale ↦ ?_⟩⟩
  · obtain ⟨full, hfull, hle, -⟩ := hstale
    have hpack := hfull.2
    rw [UnitInsertionSpreadMaskKernel.pack_width] at hpack
    omega
  · obtain ⟨y, -, hbegin, -⟩ := hpassed
    rw [ScanWordWidth, Nat.div_eq_of_lt (show p < 64 by omega)] at hbegin
    omega
  · obtain ⟨-, z, y, -, -, -, hp', -⟩ := hstale
    omega

/-- A full pack comes again behind itself, and the one behind 127 zeros is pending for the wrong
word. -/
theorem directSpreadMaskKernels_break :
    UnitInsertionSpreadMaskKernel 1 (fun _ ↦ 0) .After [fun p ↦ decide (p ≠ 32)] 34 [1] ≠
        unitMask .After [fun p ↦ decide (p ≠ 32)] 34 ∧
      InsertionSpreadMaskKernel 1 (fun _ ↦ 0) .Before (List.replicate 7 fun _ ↦ true) 1 [1] ≠
        insertMask .Before (value id · (List.replicate 7 fun _ ↦ true)) 1 := by
  constructor
  · intro h
    have hexact := (unitInsertionSpreadMaskKernel_exact (fun _ ↦ 0) Nat.one_pos (by decide)).1 h 66
      (by decide +kernel)
    have hstale : (unitMask .After [fun p ↦ decide (p ≠ 32)] 34).getD 66 false = true := by
      apply hexact
      refine ⟨0, ⟨?_, ?_⟩, ?_, ?_, ?_, ?_⟩ <;> decide +kernel
    have hbit : (unitMask .After [fun p ↦ decide (p ≠ 32)] 34).getD 66 false = false := by
      decide +kernel
    rw [hbit] at hstale
    cases hstale
  · intro h
    have hlength : (insertMask .Before (value id · (List.replicate 7 fun _ ↦ true)) 1).length =
      128 := by decide +kernel
    have hexact := ((insertionSpreadMaskKernel_exact (fun _ ↦ 0) Nat.one_pos (by decide)
      (by decide)).1 h 127 (by rw [hlength]; decide)).1
    have hpassed : Passed (value id · (List.replicate 7 fun _ ↦ true)) 1 127 :=
      ⟨0, by decide, by decide, by decide⟩
    have hbit : (insertMask .Before (value id · (List.replicate 7 fun _ ↦ true)) 1).getD 127 false =
      true := by decide +kernel
    have hbuffer : bitAt (fun _ ↦ (0 : BitVec ScanWordWidth)) 127 = false := by decide
    have hfound := hexact hpassed
    rw [hbit, hbuffer] at hfound
    cases hfound

end Direct

end Parabix.Streamutils
