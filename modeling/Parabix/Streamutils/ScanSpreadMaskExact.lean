import Parabix.Streamutils.ScanSpreadMask
import Parabix.Streamutils.UnitSpreadMask

namespace Parabix.Streamutils

open Library Library.BitStream IDISA Unicode Pablo

namespace InsertionSpreadMaskKernel

section Fill

variable {sm_word wordsToFill u j : ℕ} {final_pending : BitVec ScanWordWidth}
variable {words : ℕ → BitVec ScanWordWidth} {pending : BitVec ScanWordWidth} {s : State}
variable {X dirt : ℕ → Bool} {n k position : ℕ}

theorem fillLoop_apply (h : 0 < wordsToFill) :
    fillLoop sm_word wordsToFill final_pending words u =
      if sm_word < u ∧ u < sm_word + wordsToFill then BitVec.allOnes ScanWordWidth
      else if u = sm_word + wordsToFill then final_pending else words u := by
  have hall : ∀ j ≤ wordsToFill, (List.range j).foldl
      (fun (spread_mask : ℕ → BitVec ScanWordWidth) fillCounter ↦
        Function.update spread_mask (sm_word + (fillCounter + 1))
          (if fillCounter + 1 = wordsToFill then final_pending
            else BitVec.allOnes ScanWordWidth)) words u =
      if sm_word < u ∧ u ≤ sm_word + j then
        if u = sm_word + wordsToFill then final_pending else BitVec.allOnes ScanWordWidth
      else words u := by
    intro j
    induction j with
    | zero =>
      intro _
      rw [if_neg (by omega)]
      rfl
    | succ j ih =>
      intro hj
      rw [List.range_succ, List.foldl_append, List.foldl_cons, List.foldl_nil,
        Function.update_apply, ih (by omega)]
      by_cases hu : u = sm_word + (j + 1)
      · have hin : sm_word < u ∧ u ≤ sm_word + (j + 1) := by omega
        have hlast : j + 1 = wordsToFill ↔ u = sm_word + wordsToFill := by omega
        rw [if_pos hu, if_pos hin]
        simp only [hlast]
      · have hin : sm_word < u ∧ u ≤ sm_word + j ↔ sm_word < u ∧ u ≤ sm_word + (j + 1) := by omega
        rw [if_neg hu]
        simp only [hin]
  have hlast := hall wordsToFill le_rfl
  rw [fillLoop, hlast]
  split_ifs <;> first | rfl | omega

theorem getLsbD_filled (h : Holds X n dirt words pending) (hj : j < ScanWordWidth)
    (hX : n % ScanWordWidth ≤ j → X (ScanWordWidth * (n / ScanWordWidth) + j) = true) :
    (pending ||| ~~~((1 : BitVec ScanWordWidth) <<< (n % ScanWordWidth) - 1)).getLsbD j =
      X (ScanWordWidth * (n / ScanWordWidth) + j) := by
  have hmod := Nat.mod_lt n (show 0 < ScanWordWidth by decide)
  rw [BitVec.getLsbD_or, BitVec.getLsbD_not, getLsbD_mask hmod hj, decide_eq_true hj,
    Bool.true_and]
  by_cases hlow : j < n % ScanWordWidth
  · rw [h.low j hlow, decide_eq_true hlow, Bool.not_true, Bool.or_false]
  · rw [hX (by omega), decide_eq_false hlow, Bool.not_false, Bool.or_true]

/-- Ones are appended up to a position, whatever is pending behind the last bit. -/
theorem fillTo_holds (h : Holds X n dirt s.spread_mask s.sm_pending) (hn : s.sm_produced = n)
    (hk : position - s.bn_processed = k) (hX : ∀ i < k, X (n + i) = true) :
    Holds X (n + k) (fun _ ↦ false) (fillTo position s).spread_mask
      (fillTo position s).sm_pending := by
  have hpos : 0 < ScanWordWidth := by decide
  have hdiv := Nat.div_add_mod n ScanWordWidth
  have hmod := Nat.mod_lt n hpos
  have hdiv' := Nat.div_add_mod (n + k) ScanWordWidth
  have hmod' := Nat.mod_lt (n + k) hpos
  have hle : n / ScanWordWidth ≤ (n + k) / ScanWordWidth := Nat.div_le_div_right (by omega)
  have hones (p : ℕ) (hp : n ≤ p) (hp' : p < n + k) : X p = true := by
    have hget := hX (p - n) (by omega)
    rwa [Nat.add_sub_cancel' hp] at hget
  rw [fillTo, hn, hk]
  by_cases hsame : n / ScanWordWidth = (n + k) / ScanWordWidth
  · simp only [if_pos hsame]
    refine ⟨fun p hp ↦ ?_, fun j hj ↦ ?_, fun j hj hj' ↦ ?_⟩
    · rw [← hsame] at hp
      rw [bitAt_update_of_ne (Nat.div_lt_of_lt_mul hp).ne, h.stored p hp]
    · rw [BitVec.getLsbD_and, getLsbD_mask hmod' (by omega), decide_eq_true hj, Bool.true_and,
        ← hsame]
      rw [← hsame] at hdiv'
      exact getLsbD_filled h (by omega) fun hj' ↦ hones _ (by omega) (by omega)
    · rw [BitVec.getLsbD_and, getLsbD_mask hmod' hj, decide_eq_false (by omega), Bool.false_and]
  · have hlt : n / ScanWordWidth < (n + k) / ScanWordWidth := by omega
    simp only [if_neg hsame]
    refine ⟨fun p hp ↦ ?_, fun j hj ↦ ?_, fun j hj hj' ↦ ?_⟩
    · have hp' := Nat.div_add_mod p ScanWordWidth
      have hpmod := Nat.mod_lt p hpos
      have hword : p / ScanWordWidth < (n + k) / ScanWordWidth := Nat.div_lt_of_lt_mul hp
      rw [bitAt, fillLoop_apply (by omega)]
      by_cases hbehind : n / ScanWordWidth < p / ScanWordWidth
      · have hnext := Nat.mul_le_mul_left ScanWordWidth hbehind
        rw [Nat.mul_succ] at hnext
        rw [if_pos (by omega), BitVec.getLsbD_allOnes, decide_eq_true hpmod,
          hones p (by omega) (by omega)]
      · rw [if_neg (by omega), if_neg (by omega)]
        by_cases heq : p / ScanWordWidth = n / ScanWordWidth
        · rw [heq] at hp' ⊢
          rw [Function.update_self, ← hp', Nat.mul_add_mod, Nat.mod_mod]
          refine getLsbD_filled h hpmod fun hj' ↦ hones _ (by omega) ?_
          have hnext := Nat.mul_le_mul_left ScanWordWidth hlt
          rw [Nat.mul_succ] at hnext
          omega
        · rw [Function.update_of_ne heq, ← bitAt]
          refine h.stored p ?_
          have hprev : p / ScanWordWidth < n / ScanWordWidth := by omega
          have hnext := Nat.mul_le_mul_left ScanWordWidth hprev
          rw [Nat.mul_succ] at hnext
          omega
    · rw [getLsbD_mask hmod' (by omega), decide_eq_true hj]
      have hnext := Nat.mul_le_mul_left ScanWordWidth hlt
      rw [Nat.mul_succ] at hnext
      exact (hones _ (by omega) (by omega)).symm
    · rw [getLsbD_mask hmod' hj, decide_eq_false (by omega)]

theorem fillTo_untouched (hn : s.sm_produced = n) (hk : position - s.bn_processed = k)
    (hu : (n + k) / ScanWordWidth < u) : (fillTo position s).spread_mask u = s.spread_mask u := by
  have hle : n / ScanWordWidth ≤ (n + k) / ScanWordWidth := Nat.div_le_div_right (by omega)
  rw [fillTo, hn, hk]
  by_cases hsame : n / ScanWordWidth = (n + k) / ScanWordWidth
  · simp only [if_pos hsame]
    exact Function.update_of_ne (by omega) _ _
  · simp only [if_neg hsame]
    rw [fillLoop_apply (by omega), if_neg (by omega), if_neg (by omega)]
    exact Function.update_of_ne (by omega) _ _

end Fill

section Insert

variable {X dirt : ℕ → Bool} {n a c i j : ℕ} {words : ℕ → BitVec ScanWordWidth}
variable {pending : BitVec ScanWordWidth}

/-- Fewer ones than a word has are appended. -/
theorem advance_holds (h : Holds X n dirt words pending) (ha : a < ScanWordWidth)
    (hX : ∀ i < a, X (n + i) = true) :
    Holds X (n + a) (fun i ↦ !decide (ScanWordWidth ≤ n % ScanWordWidth + a) && dirt i)
      (Function.update words (n / ScanWordWidth)
        (pending ||| ((1 : BitVec ScanWordWidth) <<< a - 1) <<< (n % ScanWordWidth)))
      (if ScanWordWidth ≤ n % ScanWordWidth + a then
        (1 : BitVec ScanWordWidth) <<< ((n + a) % ScanWordWidth) - 1
      else pending ||| ((1 : BitVec ScanWordWidth) <<< a - 1) <<< (n % ScanWordWidth)) := by
  have hpos : 0 < ScanWordWidth := by decide
  have hmod := Nat.mod_lt n hpos
  have happend := h.append hpos (C := fun _ ↦ true) (y := (1 : BitVec ScanWordWidth) <<< a - 1)
    ha.le (fun i hi ↦ by rw [getLsbD_mask ha hi, Bool.and_true])
    (fun i hi ↦ by rw [hX i hi, Bool.true_or])
  by_cases hfilled : ScanWordWidth ≤ n % ScanWordWidth + a
  · simp only [if_pos hfilled] at happend ⊢
    have hzero : n % ScanWordWidth ≠ 0 := by omega
    have hshift : (ScanWordWidth - n % ScanWordWidth) % ScanWordWidth =
        ScanWordWidth - n % ScanWordWidth := Nat.mod_eq_of_lt (by omega)
    have hnext : (n + a) % ScanWordWidth = n % ScanWordWidth + a - ScanWordWidth := by
      rw [Nat.add_mod, Nat.mod_eq_of_lt ha, Nat.mod_eq_sub_mod hfilled,
        Nat.mod_eq_of_lt (by omega)]
    have hmask : ((1 : BitVec ScanWordWidth) <<< a - 1) >>>
        ((ScanWordWidth - n % ScanWordWidth) % ScanWordWidth) =
          (1 : BitVec ScanWordWidth) <<< ((n + a) % ScanWordWidth) - 1 := by
      apply BitVec.eq_of_getLsbD_eq
      intro j hj
      rw [BitVec.getLsbD_ushiftRight, hshift, getLsbD_mask (Nat.mod_lt _ hpos) hj, hnext]
      by_cases hlt : ScanWordWidth - n % ScanWordWidth + j < ScanWordWidth
      · rw [getLsbD_mask ha hlt]
        exact decide_eq_decide.2 (by omega)
      · rw [BitVec.getLsbD_of_ge _ _ (by omega), decide_eq_false (by omega)]
    rw [hmask] at happend
    refine ⟨happend.stored, happend.low, fun j hj hj' ↦ (happend.high j hj hj').trans ?_⟩
    rw [decide_eq_false hzero, decide_eq_true hfilled]
    rfl
  · simp only [if_neg hfilled] at happend ⊢
    refine ⟨happend.stored, happend.low, fun j hj hj' ↦ (happend.high j hj hj').trans ?_⟩
    rw [decide_eq_false hfilled]
    rfl

theorem getLsbD_one_shiftLeft (hj : j < ScanWordWidth) :
    ((1 : BitVec ScanWordWidth) <<< i).getLsbD j = decide (j = i) := by
  rw [BitVec.getLsbD_shiftLeft, decide_eq_true hj, Bool.true_and]
  have hone (k : ℕ) : (1 : BitVec ScanWordWidth).getLsbD k = decide (k = 0) := by
    simp [ScanWordWidth, BitVec.getLsbD_one]
  rw [hone]
  by_cases hi : j < i
  · simp [hi, hi.ne]
  · simp only [hi, decide_false, Bool.not_false, Bool.true_and]
    exact decide_eq_decide.2 (by omega)

/-- What the mask has for an inserted item, and what the buffer has in the words that are passed. -/
structure Inserted (X dirt : ℕ → Bool) (words : ℕ → BitVec ScanWordWidth) (n c : ℕ)
    (C : ℕ → Bool) : Prop where
  first : ∀ j ≤ c, (n + j) / ScanWordWidth = n / ScanWordWidth →
    X (n + j) = (C j || dirt ((n + j) % ScanWordWidth))
  passed : ∀ j ≤ c, n / ScanWordWidth < (n + j) / ScanWordWidth →
    (n + j) / ScanWordWidth < (n + (c + 1)) / ScanWordWidth → X (n + j) = bitAt words (n + j)
  last : ∀ j ≤ c, n / ScanWordWidth < (n + j) / ScanWordWidth →
    (n + j) / ScanWordWidth = (n + (c + 1)) / ScanWordWidth → X (n + j) = C j

theorem Inserted.holds {C dirt' : ℕ → Bool} {stored pending' : BitVec ScanWordWidth}
    (h : Holds X n dirt words pending) (hX : Inserted X dirt words n c C)
    (hlow : ∀ k < n % ScanWordWidth, stored.getLsbD k = pending.getLsbD k)
    (hfirst : ∀ k < ScanWordWidth, n % ScanWordWidth ≤ k → k ≤ n % ScanWordWidth + c →
      stored.getLsbD k = (C (k - n % ScanWordWidth) || dirt k))
    (hsame : n % ScanWordWidth + (c + 1) < ScanWordWidth → pending' = stored ∧
      ∀ k < ScanWordWidth, n % ScanWordWidth + c < k → stored.getLsbD k = dirt' k)
    (hnext : ScanWordWidth ≤ n % ScanWordWidth + (c + 1) → ∀ k < ScanWordWidth,
      pending'.getLsbD k = if k < (n + (c + 1)) % ScanWordWidth then
        C (ScanWordWidth * ((n + (c + 1)) / ScanWordWidth) + k - n) else dirt' k) :
    Holds X (n + (c + 1)) dirt' (Function.update words (n / ScanWordWidth) stored) pending' := by
  have hpos : 0 < ScanWordWidth := by decide
  have hdiv := Nat.div_add_mod n ScanWordWidth
  have hmod := Nat.mod_lt n hpos
  have hdiv' := Nat.div_add_mod (n + (c + 1)) ScanWordWidth
  have hmod' := Nat.mod_lt (n + (c + 1)) hpos
  -- The bits of the word in which the item begins.
  have hword (k : ℕ) (hk : k < ScanWordWidth) (hkc : k ≤ n % ScanWordWidth + c) :
      stored.getLsbD k = X (ScanWordWidth * (n / ScanWordWidth) + k) := by
    by_cases hkn : k < n % ScanWordWidth
    · rw [hlow k hkn, h.low k hkn]
    · have hplace : ScanWordWidth * (n / ScanWordWidth) + k = n + (k - n % ScanWordWidth) := by
        omega
      have hin := hX.first (k - n % ScanWordWidth) (by omega)
        (by rw [← hplace, mul_add_div_of_lt hk])
      rw [hfirst k hk (by omega) hkc, hplace, hin, ← hplace, mul_add_mod_of_lt hk]
  by_cases hfilled : n % ScanWordWidth + (c + 1) < ScanWordWidth
  · have heq : n + (c + 1) = ScanWordWidth * (n / ScanWordWidth) +
        (n % ScanWordWidth + (c + 1)) := by omega
    have hword' : (n + (c + 1)) / ScanWordWidth = n / ScanWordWidth := by
      rw [heq, mul_add_div_of_lt hfilled]
    have hoffset : (n + (c + 1)) % ScanWordWidth = n % ScanWordWidth + (c + 1) := by
      rw [heq, mul_add_mod_of_lt hfilled]
    obtain ⟨rfl, hhigh⟩ := hsame hfilled
    refine ⟨fun p hp ↦ ?_, fun k hk ↦ ?_, fun k hk hk' ↦ hhigh k hk (by omega)⟩
    · rw [hword'] at hp
      rw [bitAt_update_of_ne (Nat.div_lt_of_lt_mul hp).ne, h.stored p hp]
    · rw [hword']
      exact hword k (by omega) (by omega)
  · have hlt : n / ScanWordWidth < (n + (c + 1)) / ScanWordWidth := by
      rw [Nat.lt_div_iff_mul_lt hpos, Nat.mul_comm]
      omega
    have hnext := hnext (Nat.le_of_not_lt hfilled)
    have hbegin := Nat.mul_le_mul_left ScanWordWidth hlt
    rw [Nat.mul_succ] at hbegin
    refine ⟨fun p hp ↦ ?_, fun k hk ↦ ?_, fun k hk hk' ↦ ?_⟩
    · have hp' := Nat.div_add_mod p ScanWordWidth
      have hpmod := Nat.mod_lt p hpos
      have hple : p / ScanWordWidth < (n + (c + 1)) / ScanWordWidth := Nat.div_lt_of_lt_mul hp
      rcases Nat.lt_trichotomy (p / ScanWordWidth) (n / ScanWordWidth) with hbefore | heq | hbehind
      · have hend := Nat.mul_le_mul_left ScanWordWidth hbefore
        rw [Nat.mul_succ] at hend
        rw [bitAt_update_of_ne hbefore.ne, h.stored p (by omega)]
      · rw [bitAt_update_self heq, hword _ hpmod (by omega), ← heq, hp']
      · have hend := Nat.mul_le_mul_left ScanWordWidth hbehind
        rw [Nat.mul_succ] at hend
        have hplace : n + (p - n) = p := by omega
        have hin := hX.passed (p - n) (by omega) (by rwa [hplace]) (by rwa [hplace])
        rw [bitAt_update_of_ne hbehind.ne', ← hplace, hin]
    · have hplace : n + (ScanWordWidth * ((n + (c + 1)) / ScanWordWidth) + k - n) =
          ScanWordWidth * ((n + (c + 1)) / ScanWordWidth) + k := by omega
      have hin := hX.last (ScanWordWidth * ((n + (c + 1)) / ScanWordWidth) + k - n) (by omega)
        (by rw [hplace, mul_add_div_of_lt (by omega)]; exact hlt)
        (by rw [hplace, mul_add_div_of_lt (by omega)])
      rw [hnext k (by omega), if_pos hk, ← hin, hplace]
    · rw [hnext k hk, if_neg (by omega)]

theorem insertItem_after (h : Holds X n (fun _ ↦ false) words pending)
    (hX : Inserted X (fun _ ↦ false) words n c fun j ↦ decide (j = 0)) :
    Holds X (n + (c + 1)) (fun _ ↦ false)
      (Function.update words (n / ScanWordWidth)
        (insertItem .After pending (n % ScanWordWidth) c).2)
      (insertItem .After pending (n % ScanWordWidth) c).1 := by
  have hdiv := Nat.div_add_mod n ScanWordWidth
  have hmod := Nat.mod_lt n (show 0 < ScanWordWidth by decide)
  refine hX.holds h (fun k hk ↦ ?_) (fun k hk hk' _ ↦ ?_) (fun hsame ↦ ⟨?_, fun k hk hk' ↦ ?_⟩)
    fun hnext k hk ↦ ?_
  · simp only [insertItem]
    rw [BitVec.getLsbD_or, getLsbD_one_shiftLeft (by omega), decide_eq_false hk.ne, Bool.or_false]
  · simp only [insertItem]
    rw [BitVec.getLsbD_or, getLsbD_one_shiftLeft hk, h.high k hk hk', Bool.false_or, Bool.or_false]
    exact decide_eq_decide.2 (by omega)
  · simp only [insertItem]
    rw [if_neg (by omega)]
  · simp only [insertItem]
    rw [BitVec.getLsbD_or, getLsbD_one_shiftLeft hk, h.high k hk (by omega), Bool.false_or,
      decide_eq_false (by omega)]
  · have hlt : n / ScanWordWidth < (n + (c + 1)) / ScanWordWidth := by
      rw [Nat.lt_div_iff_mul_lt (by decide), Nat.mul_comm]
      omega
    have hbegin := Nat.mul_le_mul_left ScanWordWidth hlt
    rw [Nat.mul_succ] at hbegin
    simp only [insertItem]
    rw [if_pos (by omega), decide_eq_false (by omega), BitVec.ofNat_eq_ofNat,
      BitVec.getLsbD_zero, ite_self]

theorem insertItem_before (h : Holds X n dirt words pending)
    (hX : Inserted X dirt words n c fun j ↦ decide (j = c)) :
    Holds X (n + (c + 1))
      (fun k ↦ if n % ScanWordWidth + (c + 1) < ScanWordWidth then dirt k
        else decide (ScanWordWidth ≤ n % ScanWordWidth + c) &&
          decide ((n % ScanWordWidth + c) % ScanWordWidth = 63) && decide (k = 63))
      (Function.update words (n / ScanWordWidth)
        (insertItem .Before pending (n % ScanWordWidth) c).2)
      (insertItem .Before pending (n % ScanWordWidth) c).1 := by
  have hpos : 0 < ScanWordWidth := by decide
  have hdiv := Nat.div_add_mod n ScanWordWidth
  have hmod := Nat.mod_lt n hpos
  have hbit (k : ℕ) (hk : k < ScanWordWidth) :
      (insertItem .Before pending (n % ScanWordWidth) c).2.getLsbD k =
        (pending.getLsbD k || decide (k = n % ScanWordWidth + c)) := by
    simp only [insertItem]
    by_cases hover : ScanWordWidth ≤ n % ScanWordWidth + c
    · rw [if_pos hover, decide_eq_false (by omega), Bool.or_false]
    · rw [if_neg hover, BitVec.getLsbD_or, getLsbD_one_shiftLeft hk,
        Nat.mod_eq_of_lt (Nat.lt_of_not_le hover)]
  refine hX.holds h (fun k hk ↦ ?_) (fun k hk hk' _ ↦ ?_) (fun hsame ↦ ⟨?_, fun k hk hk' ↦ ?_⟩)
    fun hnext k hk ↦ ?_
  · rw [hbit k (by omega), decide_eq_false (by omega), Bool.or_false]
  · rw [hbit k hk, h.high k hk hk', Bool.or_comm]
    exact congrArg (· || dirt k) (decide_eq_decide.2 (by omega))
  · have hfilled : ¬ ScanWordWidth ≤ c + 1 + n % ScanWordWidth := by omega
    have hover : ¬ ScanWordWidth ≤ n % ScanWordWidth + c := by omega
    simp only [insertItem, hfilled, hover, decide_false, Bool.xor_false, Bool.false_eq_true,
      if_false]
  · rw [hbit k hk, h.high k hk (by omega), decide_eq_false (by omega), Bool.or_false,
      if_pos hsame]
  · have hfilled : ScanWordWidth ≤ c + 1 + n % ScanWordWidth := by omega
    have hlast : (n % ScanWordWidth + c) % ScanWordWidth = (n + c) % ScanWordWidth := by
      rw [Nat.mod_add_mod]
    have hlast' := Nat.div_add_mod (n + c) ScanWordWidth
    have hlastmod := Nat.mod_lt (n + c) hpos
    simp only [if_neg (Nat.not_lt.2 hnext)]
    by_cases hover : ScanWordWidth ≤ n % ScanWordWidth + c
    · have hpending : (insertItem .Before pending (n % ScanWordWidth) c).1 =
          (1 : BitVec ScanWordWidth) <<< ((n + c) % ScanWordWidth) := by
        simp only [insertItem, hfilled, hover, decide_true, Bool.xor_self, Bool.false_eq_true,
          if_false, if_true, hlast]
      rw [hpending, getLsbD_one_shiftLeft hk, hlast, decide_eq_true hover, Bool.true_and]
      rw [← Nat.add_assoc]
      by_cases hfull : (n + c) % ScanWordWidth = 63
      · have hzero : (n + c + 1) % ScanWordWidth = 0 := by
          rw [Nat.add_mod, hfull]
          rfl
        rw [hzero, if_neg (Nat.not_lt_zero k), hfull, decide_eq_true rfl, Bool.true_and]
      · have hlt : (n + c) % ScanWordWidth + 1 < ScanWordWidth := by
          rw [ScanWordWidth] at *
          omega
        have hsplit : n + c + 1 = ScanWordWidth * ((n + c) / ScanWordWidth) +
            ((n + c) % ScanWordWidth + 1) := by omega
        have hoffset : (n + c + 1) % ScanWordWidth = (n + c) % ScanWordWidth + 1 := by
          rw [hsplit, mul_add_mod_of_lt hlt]
        have hword : (n + c + 1) / ScanWordWidth = (n + c) / ScanWordWidth := by
          rw [hsplit, mul_add_div_of_lt hlt]
        rw [hoffset, hword, decide_eq_false hfull, Bool.false_and]
        split_ifs with hkl
        · exact decide_eq_decide.2 (by omega)
        · exact decide_eq_false (by omega)
    · have hpending : (insertItem .Before pending (n % ScanWordWidth) c).1 = 0 := by
        simp only [insertItem, hfilled, hover, decide_true, decide_false, Bool.xor_false, if_true]
      have hzero : (n + (c + 1)) % ScanWordWidth = 0 := by
        have hsum : n + (c + 1) = ScanWordWidth * (n / ScanWordWidth + 1) := by
          rw [Nat.mul_succ]
          omega
        rw [hsum, Nat.mul_mod_right]
      rw [hpending, hzero, if_neg (Nat.not_lt_zero k), decide_eq_false hover]
      simp

end Insert

section Items

/-- The mask of the codes of all positions. -/
def insertMask (pos : InsertPosition) (c : ℕ → ℕ) (items : ℕ) : List Bool :=
  ((List.range items).map c).flatMap (spreadCode pos)

/-- The number of bits that come before a position. -/
def before (c : ℕ → ℕ) (items : ℕ) : ℕ → ℕ
  | 0 => 0
  | x + 1 => before c items x + if x < items then c x + 1 else 0

variable (buffer : ℕ → BitVec ScanWordWidth) (pos : InsertPosition) (c : ℕ → ℕ) (items : ℕ)

/-- A word of the output lies between those in which the bits of a position begin and end. -/
def Passed (p : ℕ) : Prop :=
  ∃ y < items, before c items y / ScanWordWidth < p / ScanWordWidth ∧
    p / ScanWordWidth < before c items (y + 1) / ScanWordWidth

/-- The last bit of a position ends a word that is not the one in which its bits begin. -/
def EndsLater (z : ℕ) : Prop :=
  z < items ∧ before c items z / ScanWordWidth < (before c items z + c z) / ScanWordWidth ∧
    (before c items z + c z) % ScanWordWidth = 63

/-- The last bit of a position of the scan word is pending for the wrong word. -/
def Junk (scanBase x : ℕ) : Prop :=
  pos = .Before ∧ ∃ z, scanBase ≤ z ∧ z < x ∧ EndsLater c items z ∧
    before c items x / ScanWordWidth = before c items (z + 1) / ScanWordWidth

/-- The last bit of a position comes again at the end of the next word, if a later position of the
same scan word gives a bit there. -/
def StaleEnd (p : ℕ) : Prop :=
  pos = .Before ∧ ∃ z y, z < y ∧ z / ScanWordWidth = y / ScanWordWidth ∧ EndsLater c items z ∧
    p = before c items (z + 1) + 63 ∧ before c items y ≤ p ∧ p < before c items (y + 1)

variable {buffer pos c items} {x y p j scanBase : ℕ}

theorem before_succ (hy : y < items) :
    before c items (y + 1) = before c items y + (c y + 1) := by
  rw [before, if_pos hy]

theorem before_mono : Monotone (before c items) :=
  monotone_nat_of_le_succ fun x ↦ by
    rw [before]
    exact Nat.le_add_right _ _

theorem before_eq_of_zeros (hy : y ≤ items) (hxy : x ≤ y) (h : ∀ i, x ≤ i → i < y → c i = 0) :
    before c items y = before c items x + (y - x) := by
  induction y with
  | zero => simp [Nat.le_zero.1 hxy]
  | succ y ih =>
    rcases Nat.lt_or_eq_of_le hxy with hlt | rfl
    · rw [before_succ (by omega), ih (by omega) (by omega) fun i h1 h2 ↦ h i h1 (by omega),
        h y (by omega) (by omega)]
      omega
    · omega

theorem length_insertMask_take (hy : y ≤ items) :
    (insertMask pos c y).length = before c items y := by
  induction y with
  | zero => rfl
  | succ y ih =>
    rw [before_succ hy, ← ih (by omega), insertMask, insertMask, List.range_succ, List.map_append,
      List.flatMap_append, List.length_append]
    cases pos <;> simp [spreadCode]

theorem getD_insertMask (hy : y < items) (hj : j ≤ c y) :
    (insertMask pos c items).getD (before c items y + j) false =
      (spreadCode pos (c y)).getD j false := by
  have hlen := @length_insertMask_take pos c items y hy.le
  have hcode : (spreadCode pos (c y)).length = c y + 1 := by cases pos <;> simp [spreadCode]
  obtain ⟨rest, rfl⟩ := Nat.exists_eq_add_of_le (show y + 1 ≤ items by omega)
  have hsplit : insertMask pos c (y + 1 + rest) = insertMask pos c y ++ (spreadCode pos (c y) ++
      ((List.range rest).map fun i ↦ c (y + 1 + i)).flatMap (spreadCode pos)) := by
    rw [insertMask, List.range_add, List.range_succ]
    simp [insertMask, Function.comp_def]
  rw [hsplit, ← hlen, List.getD_append_right _ _ _ _ (Nat.le_add_right _ _),
    Nat.add_sub_cancel_left, List.getD_append _ _ _ _ (by omega)]

/-- The bits of two positions are not at one place. -/
theorem eq_of_before {y' : ℕ} (h : before c items y ≤ p) (h' : p < before c items (y + 1))
    (hy : before c items y' ≤ p) (hy' : p < before c items (y' + 1)) : y' = y := by
  by_contra hne
  rcases Nat.lt_or_gt_of_ne hne with hlt | hlt
  · have hmono := @before_mono c items _ _ (show y' + 1 ≤ y by omega)
    omega
  · have hmono := @before_mono c items _ _ (show y + 1 ≤ y' by omega)
    omega

theorem passed_iff (hy : y < items) (hj : j ≤ c y) :
    Passed c items (before c items y + j) ↔
      before c items y / ScanWordWidth < (before c items y + j) / ScanWordWidth ∧
        (before c items y + j) / ScanWordWidth < before c items (y + 1) / ScanWordWidth := by
  have hnext := before_succ (c := c) hy
  constructor
  · intro h
    obtain ⟨y', hy', hbegin, hend⟩ := h
    obtain rfl := eq_of_before (y := y) (p := before c items y + j) (by omega) (by omega)
      (Nat.le_of_lt (Nat.lt_of_div_lt_div hbegin)) (Nat.lt_of_div_lt_div hend)
    exact ⟨hbegin, hend⟩
  · intro h
    exact ⟨y, hy, h⟩

theorem EndsLater.before_succ_mod (h : EndsLater c items y) :
    before c items (y + 1) % ScanWordWidth = 0 := by
  rw [before_succ h.1, ← Nat.add_assoc, Nat.add_mod, h.2.2]
  rfl

theorem staleEnd_iff (hy : y < items) (hj : j ≤ c y) :
    StaleEnd pos c items (before c items y + j) ↔
      (before c items y + j) / ScanWordWidth = before c items y / ScanWordWidth ∧
        (before c items y + j) % ScanWordWidth = 63 ∧
          Junk pos c items (ScanWordWidth * (y / ScanWordWidth)) y := by
  have hnext := before_succ (c := c) hy
  have hscan := Nat.div_add_mod y ScanWordWidth
  constructor
  · intro h
    obtain ⟨hpos, z, y', hlt, hsame, hlater, heq, hbegin, hend⟩ := h
    obtain rfl := eq_of_before (y := y) (p := before c items y + j) (by omega) (by omega) hbegin
      hend
    have hmono := @before_mono c items _ _ (show z + 1 ≤ y' by omega)
    have hzero := hlater.before_succ_mod
    have hz := Nat.div_add_mod z ScanWordWidth
    rw [hsame] at hz
    rw [ScanWordWidth] at *
    have hword : before c items y' / 64 = before c items (z + 1) / 64 := by omega
    exact ⟨by omega, by omega, hpos, z, by omega, hlt, hlater, hword⟩
  · intro h
    obtain ⟨hword, hoffset, hpos, z, hbase, hlt, hlater, hsame⟩ := h
    have hmono := @before_mono c items _ _ (show z + 1 ≤ y by omega)
    have hzero := hlater.before_succ_mod
    refine ⟨hpos, z, y, hlt, ?_, hlater, ?_, by omega, by omega⟩
    · rw [ScanWordWidth] at *
      omega
    · rw [ScanWordWidth] at *
      omega

theorem junk_of_zeros (hxy : x ≤ y) (h : ∀ i, x ≤ i → i < y → c i = 0) :
    Junk pos c items scanBase y ↔ Junk pos c items scanBase x ∧
      before c items y / ScanWordWidth = before c items x / ScanWordWidth := by
  have hmono := @before_mono c items _ _ hxy
  constructor
  · intro hjunk
    obtain ⟨hpos, z, hbase, hlt, hlater, hsame⟩ := hjunk
    have hzx : z < x := by
      by_contra hle
      have hbegin := hlater.2.1
      rw [h z (by omega) hlt, Nat.add_zero] at hbegin
      exact Nat.lt_irrefl _ hbegin
    have hmono' := @before_mono c items _ _ (show z + 1 ≤ x by omega)
    have heq : before c items x / ScanWordWidth = before c items y / ScanWordWidth := by
      apply Nat.le_antisymm (Nat.div_le_div_right hmono)
      rw [hsame]
      exact Nat.div_le_div_right hmono'
    exact ⟨⟨hpos, z, hbase, hzx, hlater, heq.trans hsame⟩, heq.symm⟩
  · intro hjunk
    obtain ⟨⟨hpos, z, hbase, hlt, hlater, hsame⟩, heq⟩ := hjunk
    exact ⟨hpos, z, hbase, by omega, hlater, heq.trans hsame⟩

theorem not_junk_self : ¬ Junk pos c items x x := by
  intro h
  obtain ⟨-, z, hbase, hlt, -⟩ := h
  omega

theorem not_junk_after : ¬ Junk .After c items scanBase x := by
  intro h
  cases h.1

theorem junk_succ (hpos : pos = .Before) (hy : y < items) (hbase : scanBase ≤ y) :
    Junk pos c items scanBase (y + 1) ↔
      if before c items y % ScanWordWidth + (c y + 1) < ScanWordWidth then
        Junk pos c items scanBase y
      else ScanWordWidth ≤ before c items y % ScanWordWidth + c y ∧
        (before c items y % ScanWordWidth + c y) % ScanWordWidth = 63 := by
  have hnext := before_succ (c := c) hy
  have hlast : (before c items y % ScanWordWidth + c y) % ScanWordWidth =
      (before c items y + c y) % ScanWordWidth := Nat.mod_add_mod _ _ _
  rw [hlast]
  split_ifs with hsame
  · have hword : before c items (y + 1) / ScanWordWidth = before c items y / ScanWordWidth := by
      rw [ScanWordWidth] at *
      omega
    constructor
    · intro h
      obtain ⟨-, z, hz, hlt, hlater, heq⟩ := h
      rcases Nat.lt_succ_iff_lt_or_eq.1 hlt with hlt' | rfl
      · exact ⟨hpos, z, hz, hlt', hlater, by rw [← hword, heq]⟩
      · have hbegin := hlater.2.1
        rw [ScanWordWidth] at *
        omega
    · intro h
      obtain ⟨-, z, hz, hlt, hlater, heq⟩ := h
      exact ⟨hpos, z, hz, by omega, hlater, by rw [hword, heq]⟩
  · constructor
    · intro h
      obtain ⟨-, z, hz, hlt, hlater, heq⟩ := h
      rcases Nat.lt_succ_iff_lt_or_eq.1 hlt with hlt' | rfl
      · have hmono := @before_mono c items _ _ (show z + 1 ≤ y by omega)
        have hword := Nat.div_le_div_right (c := ScanWordWidth) hmono
        rw [← heq] at hword
        rw [ScanWordWidth] at *
        omega
      · have hbegin := hlater.2.1
        refine ⟨?_, hlater.2.2⟩
        rw [ScanWordWidth] at *
        omega
    · intro h
      refine ⟨hpos, y, hbase, Nat.lt_succ_self y, ⟨hy, ?_, h.2⟩, rfl⟩
      have hbegin := h.1
      rw [ScanWordWidth] at *
      omega

end Items

section Scan

open scoped Classical

variable {buffer : ℕ → BitVec ScanWordWidth} {pos : InsertPosition} {c : ℕ → ℕ} {items : ℕ}
variable {x y p j scanBase : ℕ} {s : State} {masks : List (BitVec ScanWordWidth)}

/-- What is stored for a bit of the mask. -/
noncomputable def stored (buffer : ℕ → BitVec ScanWordWidth) (pos : InsertPosition) (c : ℕ → ℕ)
    (items p : ℕ) : Bool :=
  if Passed c items p then bitAt buffer p
  else (insertMask pos c items).getD p false || decide (StaleEnd pos c items p)

/-- The state when the input is processed up to a position. -/
structure Ready (buffer : ℕ → BitVec ScanWordWidth) (pos : InsertPosition) (c : ℕ → ℕ)
    (items scanBase x : ℕ) (s : State) : Prop where
  processed : ∀ y ≤ items, y - s.bn_processed = y - x
  produced : s.sm_produced = before c items x
  holds : Holds (stored buffer pos c items) (before c items x)
    (fun k ↦ decide (Junk pos c items scanBase x) && decide (k = 63)) s.spread_mask s.sm_pending
  untouched : ∀ u, before c items x / ScanWordWidth < u → s.spread_mask u = buffer u

/-- What is not processed has nothing to insert. -/
def Scanned (buffer : ℕ → BitVec ScanWordWidth) (pos : InsertPosition) (c : ℕ → ℕ)
    (items scanBase y : ℕ) (s : State) : Prop :=
  ∃ x, scanBase ≤ x ∧ x ≤ y ∧ x ≤ items ∧ Ready buffer pos c items scanBase x s ∧
    ∀ i, x ≤ i → i < y → c i = 0

theorem stored_zero (hy : y < items) (hc : c y = 0) :
    stored buffer pos c items (before c items y) = true := by
  have hpassed : ¬ Passed c items (before c items y) := by
    intro h
    have hin := (passed_iff (j := 0) hy (Nat.zero_le _)).1 h
    exact Nat.lt_irrefl _ hin.1
  have hbit := @getD_insertMask pos c items y 0 hy (Nat.zero_le _)
  rw [Nat.add_zero] at hbit
  rw [stored, if_neg hpassed, hbit, hc]
  cases pos <;> rfl

theorem stored_zeros (hy : y ≤ items) (h : ∀ i, x ≤ i → i < y → c i = 0) :
    ∀ i < y - x, stored buffer pos c items (before c items x + i) = true := by
  intro i hi
  have hplace := @before_eq_of_zeros c items x (x + i) (by omega)
    (by omega) fun k h1 h2 ↦ h k h1 (by omega)
  rw [Nat.add_sub_cancel_left] at hplace
  rw [← hplace]
  exact stored_zero (by omega) (h (x + i) (by omega) (by omega))

/-- The ones up to a position are appended. -/
theorem Ready.fillTo (h : Ready buffer pos c items scanBase x s) (hy : y ≤ items) (hxy : x ≤ y)
    (hzeros : ∀ i, x ≤ i → i < y → c i = 0) :
    Ready buffer pos c items y y (fillTo y s) := by
  have hplace := before_eq_of_zeros hy hxy hzeros
  have hadvance := h.processed y hy
  have hholds := fillTo_holds h.holds h.produced hadvance (stored_zeros hy hzeros)
  rw [← hplace] at hholds
  refine ⟨?_, ?_, ⟨hholds.stored, hholds.low, fun k hk hk' ↦ (hholds.high k hk hk').trans ?_⟩,
    fun u hu ↦ ?_⟩
  · intro z _
    rw [InsertionSpreadMaskKernel.fillTo]
    simp only
    split_ifs <;> rfl
  · rw [InsertionSpreadMaskKernel.fillTo]
    simp only
    split_ifs <;> simp only [h.produced, hadvance, hplace]
  · rw [decide_eq_false not_junk_self, Bool.false_and]
  · have hle : before c items x / ScanWordWidth ≤ before c items y / ScanWordWidth :=
      Nat.div_le_div_right (before_mono hxy)
    rw [fillTo_untouched h.produced hadvance (by rwa [← hplace]), h.untouched u (by omega)]

theorem generateProcessingLogic_eq {n a : ℕ} (hn : s.sm_produced = n) (ha : y - s.bn_processed = a)
    (hmasks : insertAmount masks (y % ScanWordWidth) = c y) (hlt : a < ScanWordWidth) :
    generateProcessingLogic pos masks y s =
      let pending_updated :=
        s.sm_pending ||| ((1 : BitVec ScanWordWidth) <<< a - 1) <<< (n % ScanWordWidth)
      let inserted := insertItem pos
        (if ScanWordWidth ≤ n % ScanWordWidth + a then
          (1 : BitVec ScanWordWidth) <<< ((n + a) % ScanWordWidth) - 1
        else pending_updated) ((n + a) % ScanWordWidth) (c y)
      { bn_processed := y + 1
        sm_produced := n + a + (c y + 1)
        sm_pending := inserted.1
        spread_mask := Function.update
          (Function.update s.spread_mask (n / ScanWordWidth) pending_updated)
          ((n + a) / ScanWordWidth) inserted.2 } := by
  have hpos : 0 < ScanWordWidth := by decide
  have hdiv := Nat.div_add_mod n ScanWordWidth
  have hmod := Nat.mod_lt n hpos
  have hptr : (n - n % ScanWordWidth) / ScanWordWidth = n / ScanWordWidth := by
    rw [← Nat.mul_div_cancel_left (n / ScanWordWidth) hpos]
    exact congrArg (· / ScanWordWidth) (by omega)
  have hfilled : ScanWordWidth ≤ n + a - (n - n % ScanWordWidth) ↔
      ScanWordWidth ≤ n % ScanWordWidth + a := by omega
  have hnext : (if ScanWordWidth ≤ n % ScanWordWidth + a then n / ScanWordWidth + 1
      else n / ScanWordWidth) = (n + a) / ScanWordWidth := by
    rw [ScanWordWidth] at *
    split_ifs <;> omega
  simp only [generateProcessingLogic, hn, ha, hmasks, hptr, hfilled, hnext]

/-- What is stored for the bits of a position. -/
theorem inserted_stored (hy : y < items) {words : ℕ → BitVec ScanWordWidth}
    (hwords : ∀ u, before c items y / ScanWordWidth < u → words u = buffer u) :
    Inserted (stored buffer pos c items)
      (fun k ↦ decide (Junk pos c items (ScanWordWidth * (y / ScanWordWidth)) y) && decide (k = 63))
      words (before c items y) (c y) fun j ↦ (spreadCode pos (c y)).getD j false := by
  have hnext := before_succ (c := c) hy
  refine ⟨fun j hj hsame ↦ ?_, fun j hj hbegin hend ↦ ?_, fun j hj hbegin hend ↦ ?_⟩
  · have hpassed : ¬ Passed c items (before c items y + j) := by
      rw [passed_iff hy hj, hsame]
      exact fun h ↦ Nat.lt_irrefl _ h.1
    rw [stored, if_neg hpassed, getD_insertMask hy hj]
    congr 1
    rw [← Bool.decide_and]
    apply decide_eq_decide.2
    rw [staleEnd_iff hy hj]
    constructor
    · intro h
      exact ⟨h.2.2, h.2.1⟩
    · intro h
      exact ⟨hsame, h.2, h.1⟩
  · rw [stored, if_pos ((passed_iff hy hj).2 ⟨hbegin, by rwa [hnext]⟩), bitAt, bitAt,
      hwords _ hbegin]
  · have hpassed : ¬ Passed c items (before c items y + j) := by
      rw [passed_iff hy hj, hend, hnext]
      exact fun h ↦ Nat.lt_irrefl _ h.2
    have hstale : ¬ StaleEnd pos c items (before c items y + j) := by
      rw [staleEnd_iff hy hj]
      exact fun h ↦ hbegin.ne' h.1
    rw [stored, if_neg hpassed, getD_insertMask hy hj, decide_eq_false hstale, Bool.or_false]

theorem getD_spreadCode_after {j k : ℕ} :
    (spreadCode .After k).getD j false = decide (j = 0) := by
  cases j with
  | zero => rfl
  | succ j => simp [spreadCode]

theorem getD_spreadCode_before {j k : ℕ} :
    (spreadCode .Before k).getD j false = decide (j = k) := by
  rw [spreadCode]
  by_cases hlt : j < k
  · rw [List.getD_append _ _ _ _ (by simpa using hlt), decide_eq_false hlt.ne]
    simp
  · obtain ⟨i, rfl⟩ := Nat.exists_eq_add_of_le (Nat.le_of_not_lt hlt)
    rw [List.getD_append_right _ _ _ _ (by simp), List.length_replicate, Nat.add_sub_cancel_left]
    cases i <;> simp

/-- An item of a scan word is processed. -/
theorem Scanned.item (h : Scanned buffer pos c items scanBase y s) (hy : y < items)
    (hbase : scanBase = ScanWordWidth * (y / ScanWordWidth))
    (hmasks : insertAmount masks (y % ScanWordWidth) = c y) :
    Scanned buffer pos c items scanBase (y + 1) (generateProcessingLogic pos masks y s) := by
  obtain ⟨x, hx, hxy, -, hready, hzeros⟩ := h
  have hpos : 0 < ScanWordWidth := by decide
  have hdiv := Nat.div_add_mod y ScanWordWidth
  have hmod := Nat.mod_lt y hpos
  have hlt : y - x < ScanWordWidth := by omega
  have hplace := before_eq_of_zeros hy.le hxy hzeros
  have hnext := before_succ (c := c) hy
  have hadvance := hready.processed y hy.le
  have hholds := advance_holds hready.holds hlt (stored_zeros hy.le hzeros)
  have hle : before c items x / ScanWordWidth ≤ before c items y / ScanWordWidth :=
    Nat.div_le_div_right (before_mono hxy)
  have hjunk : (fun k ↦ !decide (ScanWordWidth ≤ before c items x % ScanWordWidth + (y - x)) &&
      (decide (Junk pos c items scanBase x) && decide (k = 63))) =
      fun k ↦ decide (Junk pos c items scanBase y) && decide (k = 63) := by
    have hword : ¬ ScanWordWidth ≤ before c items x % ScanWordWidth + (y - x) ↔
        before c items y / ScanWordWidth = before c items x / ScanWordWidth := by
      rw [hplace]
      rw [ScanWordWidth] at *
      omega
    funext k
    rw [← Bool.and_assoc, ← decide_not, ← Bool.decide_and]
    congr 1
    apply decide_eq_decide.2
    rw [junk_of_zeros hxy hzeros, hword, and_comm]
  rw [hjunk, ← hplace] at hholds
  rw [generateProcessingLogic_eq hready.produced hadvance hmasks hlt, ← hplace]
  refine ⟨y + 1, by omega, le_rfl, hy, ⟨fun _ _ ↦ rfl, hnext.symm, ?_, fun u hu ↦ ?_⟩,
    fun i h1 h2 ↦ by omega⟩
  · have hinserted := @inserted_stored buffer pos c items y hy
      (Function.update s.spread_mask (before c items x / ScanWordWidth)
        (s.sm_pending ||| ((1 : BitVec ScanWordWidth) <<< (y - x) - 1) <<<
          (before c items x % ScanWordWidth)))
      fun u hu ↦ by rw [Function.update_of_ne (by omega), hready.untouched u (by omega)]
    rw [← hbase] at hinserted
    rw [hnext]
    cases pos with
    | After =>
      have hclean (x : ℕ) : (fun k ↦ decide (Junk .After c items scanBase x) && decide (k = 63)) =
          fun _ ↦ false := by
        funext k
        rw [decide_eq_false not_junk_after, Bool.false_and]
      simp only [getD_spreadCode_after, hclean] at hinserted hholds ⊢
      exact insertItem_after hholds hinserted
    | Before =>
      simp only [getD_spreadCode_before] at hinserted
      have hitem := insertItem_before hholds hinserted
      refine ⟨hitem.stored, hitem.low, fun k hk hk' ↦ (hitem.high k hk hk').trans ?_⟩
      have hsucc := @junk_succ .Before c items y scanBase rfl hy (hx.trans hxy)
      simp only [hsucc]
      split_ifs
      · rfl
      · rw [← Bool.decide_and]
  · rw [hnext] at hu
    have hstep : before c items y / ScanWordWidth ≤
        (before c items y + (c y + 1)) / ScanWordWidth :=
      Nat.div_le_div_right (by omega)
    simp only
    rw [Function.update_of_ne (by omega), Function.update_of_ne (by omega),
      hready.untouched u (by omega)]

end Scan

end InsertionSpreadMaskKernel

end Parabix.Streamutils
