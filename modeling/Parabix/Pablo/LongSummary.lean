import Parabix.Pablo.LongBuffer

namespace Parabix.Pablo

open Library Library.BitStream

section BlockSummary

variable {w n d s : ℕ} {st st' : LongState w} {value : BitVec w} {own : Bool}
  {xs : List (BitVec w)}

/-- The mask of the block summary is within a block. -/
def Room (n w : ℕ) : Prop := w < n → ceil_udiv n w / 64 < w / 64 ∧ w / 64 < 16

/-- The bit `i` of the block summary is that of `i` blocks before the last one. -/
def Marked (n : ℕ) (blockSummary : BitVec w) (xs : List (BitVec w)) : Prop :=
  w < n → ∀ i < ceil_udiv n w, blockSummary.getLsbD i = true ↔
    i < xs.length ∧ xs.getD (xs.length - 1 - i) 0 ≠ 0

theorem marked_initial (n : ℕ) : Marked n (0 : BitVec w) [] := by
  intro _ i _
  simp

theorem inFlight_iff : inFlight n xs ↔
    ∃ i < ceil_udiv n w, i < xs.length ∧ xs.getD (xs.length - 1 - i) 0 ≠ 0 := by
  constructor
  · rintro ⟨t, hle, hne⟩
    have ht : t < xs.length := by
      by_contra h
      exact hne (List.getD_eq_default _ _ (by omega))
    refine ⟨xs.length - 1 - t, by omega, by omega, ?_⟩
    rwa [show xs.length - 1 - (xs.length - 1 - t) = t by omega]
  · rintro ⟨i, hi, hlen, hne⟩
    exact ⟨_, by omega, hne⟩

theorem marked_idle {bs : BitVec w} (h : Marked n bs xs) (hnot : ¬inFlight n xs) :
    Marked n bs (xs ++ [0]) := by
  have hzero (i : ℕ) (hi : i < ceil_udiv n w) (hlen : i < xs.length) :
      xs.getD (xs.length - 1 - i) 0 = 0 := by
    by_contra hne
    exact hnot (inFlight_iff.2 ⟨i, hi, hlen, hne⟩)
  intro hw i hi
  rw [h hw i hi, List.length_append, List.length_singleton, Nat.add_sub_cancel]
  constructor
  · rintro ⟨hlen, hne⟩
    exact absurd (hzero i hi hlen) hne
  · rintro ⟨hlen, hne⟩
    cases i with
    | zero => 
      rw [List.getD_append_right _ _ _ _ (by omega)] at hne
      simp at hne
    | succ i =>
      rw [List.getD_append _ _ _ _ (by omega), show xs.length - (i + 1) = xs.length - 1 - i by omega]
        at hne
      exact absurd (hzero i (by omega) (by omega)) hne

theorem inFlight_idle (hnot : ¬inFlight n xs) : ¬inFlight n (xs ++ [0]) := by
  rintro ⟨t, hle, hne⟩
  rw [List.length_append, List.length_singleton] at hle
  by_cases hlt : t < xs.length
  · rw [List.getD_append _ _ _ _ hlt] at hne
    exact hnot ⟨t, by omega, hne⟩
  · rw [List.getD_append_right _ _ _ _ (by omega)] at hne
    cases t - xs.length <;> simp at hne

theorem BufferSize.single (hsize : BufferSize n w d s) (hle : n ≤ w) : ceil_udiv n w = 1 := by
  rcases Nat.lt_or_eq_of_le hle with hlt | rfl
  · exact (hsize.small hlt).2.2.2.1
  · have hblocks := hsize.blocks
    have hpos : 0 < n := Nat.zero_lt_of_lt hsize.lt
    rw [← hsize.mod, ← hsize.div, Nat.mod_self, if_pos rfl, Nat.div_self hpos] at hblocks
    exact hblocks

theorem addBlockSummary_ok (n : ℕ) (st : LongState w) (value : BitVec w) {nested : Bool}
    (hroom : nested = true → Room n w) : ∃ bs own,
      addBlockSummary n st value nested = .ok ({ st with blockSummary := bs }, own) := by
  cases nested with
  | false => exact ⟨st.blockSummary, false, rfl⟩
  | true =>
    by_cases hw : w < n
    · rw [addBlockSummary, if_pos rfl, if_pos hw, if_pos (hroom rfl hw)]
      exact ⟨_, _, rfl⟩
    · rw [addBlockSummary, if_pos rfl, if_neg hw]
      exact ⟨st.blockSummary, _, rfl⟩

/-- The block summary with a bit for one block more. -/
def pushSummary (n : ℕ) (bs value : BitVec w) : BitVec w :=
  (bs <<< 1 ||| if value ≠ 0 then 1 else 0) &&& BitVec.ofNat w (2 ^ ceil_udiv n w - 1)

theorem getLsbD_pushSummary (bs : BitVec w) (hlt : ceil_udiv n w < w) (i : ℕ) :
    (pushSummary n bs value).getLsbD i = true ↔
      i < ceil_udiv n w ∧ if i = 0 then value ≠ 0 else bs.getLsbD (i - 1) = true := by
  have hmask : (BitVec.ofNat w (2 ^ ceil_udiv n w - 1)).getLsbD i = decide (i < ceil_udiv n w) := by
    rw [BitVec.getLsbD_ofNat, Nat.testBit_two_pow_sub_one, Bool.and_eq_right_iff_imp]
    intro h
    have := of_decide_eq_true h
    exact decide_eq_true (by omega)
  rw [pushSummary, BitVec.getLsbD_and, hmask, BitVec.getLsbD_or, BitVec.getLsbD_shiftLeft]
  by_cases hi : i < ceil_udiv n w
  · cases i with
    | zero =>
      by_cases hv : value = 0#w <;> simp [hi, hv, show 0 < w by omega]
    | succ i =>
      by_cases hv : value = 0#w <;> simp [hi, hv, show i + 1 < w by omega]
  · simp [hi]

theorem marked_push {bs : BitVec w} (hlt : ceil_udiv n w < w) (hmarked : Marked n bs xs) :
    Marked n (pushSummary n bs value) (xs ++ [value]) := by
  intro hw i hi
  rw [getLsbD_pushSummary bs hlt, List.length_append, List.length_singleton, Nat.add_sub_cancel]
  cases i with
  | zero =>
    rw [List.getD_append_right _ _ _ _ (by omega)]
    simp [hi]
  | succ i =>
    have hprev := hmarked hw i (by omega)
    rw [if_neg (Nat.succ_ne_zero i), Nat.add_sub_cancel, hprev]
    constructor
    · rintro ⟨_, hlen, hne⟩
      rw [List.getD_append _ _ _ _ (by omega)]
      refine ⟨by omega, ?_⟩
      rwa [show xs.length - (i + 1) = xs.length - 1 - i by omega]
    · rintro ⟨hlen, hne⟩
      rw [List.getD_append _ _ _ _ (by omega)] at hne
      refine ⟨hi, by omega, ?_⟩
      rwa [show xs.length - (i + 1) = xs.length - 1 - i by omega] at hne

theorem pushSummary_ne_zero (bs : BitVec w) (hlt : ceil_udiv n w < w) :
    pushSummary n bs value ≠ 0 ↔ ∃ i < ceil_udiv n w, (pushSummary n bs value).getLsbD i = true := by
  constructor
  · intro hne
    by_contra hnot
    apply hne
    apply BitVec.eq_of_getLsbD_eq
    intro i _
    rw [show (0 : BitVec w).getLsbD i = false from BitVec.getLsbD_zero, Bool.eq_false_iff]
    intro hi
    exact hnot ⟨i, ((getLsbD_pushSummary bs hlt i).1 hi).1, hi⟩
  · rintro ⟨i, _, hi⟩ hzero
    rw [hzero] at hi
    simp at hi

/-- The block summary has a bit for each block in flight, and is added to the carry summary. -/
theorem addBlockSummary_spec (hsize : BufferSize n w d s) (hroom : Room n w)
    (hmarked : Marked n st.blockSummary xs)
    (h : addBlockSummary n st value true = .ok (st', own)) :
    Marked n st'.blockSummary (xs ++ [value]) ∧ (own = true ↔ inFlight n (xs ++ [value])) := by
  rw [addBlockSummary, if_pos rfl] at h
  by_cases hw : w < n
  · have hm := hroom hw
    have hlt : ceil_udiv n w < w := by
      have := hm.1
      omega
    rw [if_pos hw, if_pos hm, Except.ok.injEq, Prod.mk.injEq] at h
    obtain ⟨rfl, rfl⟩ := h
    have hpush : Marked n (pushSummary n st.blockSummary value) (xs ++ [value]) :=
      marked_push hlt hmarked
    refine ⟨hpush, ?_⟩
    rw [decide_eq_true_iff, inFlight_iff]
    refine (pushSummary_ne_zero st.blockSummary hlt).trans (exists_congr fun i ↦ ?_)
    exact and_congr_right fun hi ↦ hpush hw i hi
  · rw [if_neg hw, Except.ok.injEq, Prod.mk.injEq] at h
    obtain ⟨rfl, rfl⟩ := h
    refine ⟨fun hgt ↦ absurd hgt hw, ?_⟩
    rw [decide_eq_true_iff, inFlight_iff, hsize.single (by omega)]
    constructor
    · intro hv
      refine ⟨0, by omega, by simp, ?_⟩
      rw [List.getD_append_right _ _ _ _ (by simp)]
      simpa using hv
    · rintro ⟨i, hi, _, hne⟩
      have hlast : (xs ++ [value]).length - 1 - i = xs.length := by
        rw [List.length_append, List.length_singleton]
        omega
      rw [hlast, List.getD_append_right _ _ _ _ (Nat.le_refl _), Nat.sub_self] at hne
      exact hne

end BlockSummary

end Parabix.Pablo
