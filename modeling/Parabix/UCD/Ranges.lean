import Mathlib.Order.Interval.Set.Defs
import Parabix.UCD.RangeMembers

namespace Parabix.UCD

open Library Library.RunLength

variable {lo hi : ℕ} {m : Memory}

theorem loQuad_full (h : lo % 32 = 0) : loQuad lo = fullQuadMask := by
  rw [loQuad, and_quadLimit, h, BitVec.shiftLeft_zero]

theorem hiQuad_full (h : hi % 32 = 31) : hiQuad hi = fullQuadMask := by
  rw [hiQuad, and_quadLimit, h]
  exact BitVec.ushiftRight_zero _

/-- The quads of a range: those of its ends, and Full ones between them. -/
theorem decode_rangeBody (hle : lo ≤ hi) :
    decode fill (UnicodeSet.rangeBody lo hi).1 (UnicodeSet.rangeBody lo hi).2 =
      if lo / 32 = hi / 32 then [loQuad lo &&& hiQuad hi]
      else loQuad lo :: (List.replicate (hi / 32 - lo / 32 - 1) fullQuadMask ++ [hiQuad hi]) := by
  have hd : lo / 32 ≤ hi / 32 := Nat.div_le_div_right hle
  simp only [UnicodeSet.rangeBody, and_quadLimit, quadBits]
  rw [show quadLimit = 31 from rfl]
  by_cases heq : lo / 32 = hi / 32
  · rw [if_pos heq, if_pos heq]
    split_ifs with hfull
    · simp [decode, fill, loQuad_full hfull.1, hiQuad_full hfull.2]
    · simp [decode, fill]
  · rw [if_neg heq, if_neg heq]
    obtain ⟨n, hn⟩ : ∃ n, hi / 32 - lo / 32 = n + 1 := ⟨hi / 32 - lo / 32 - 1, by omega⟩
    rw [hn]
    have hlo := fun h : lo % 32 = 0 ↦ loQuad_full h
    have hhi := fun h : hi % 32 = 31 ↦ hiQuad_full h
    by_cases h0 : lo % 32 = 0 <;> by_cases h1 : hi % 32 = 31 <;> rcases n with _ | n <;>
      simp [h0, h1, hlo, hhi, decode, fill, List.replicate_succ, ← List.replicate_succ']

theorem cells_range (hle : lo ≤ hi) : (UnicodeSet.range m lo hi).cells =
    List.replicate (lo / 32) 0 ++
      decode fill (UnicodeSet.rangeBody lo hi).1 (UnicodeSet.rangeBody lo hi).2 ++
      List.replicate (unicodeQuadCount - (hi / 32 + 1)) 0 := by
  obtain ⟨-, -, -, -, hl, -⟩ := rangeBody_spec hle
  have hpad (n : ℕ) (qs : List BitQuad) :
      decode fill (if n ≠ 0 then [⟨.Empty, n⟩] else []) qs = List.replicate n 0 := by
    split_ifs with h
    · simp [decode, fill]
    · simp only [ne_eq, not_not] at h
      simp [h]
  have hlit (n : ℕ) : literals fill (if n ≠ 0 then [⟨.Empty, n⟩] else []) = 0 := by
    split_ifs <;> simp
  rw [UnicodeSet.cells, UnicodeSet.range, runs_construct, quads_construct, UnicodeSet.padded,
    decode_append, decode_append, hpad, hpad, hlit, List.drop_zero]
  rfl

theorem getD_replicate_zero (n i : ℕ) : (List.replicate n (0 : BitQuad))[i]?.getD 0 = 0 := by
  rw [List.getElem?_replicate]
  split_ifs <;> rfl

theorem quadAt_range (hle : lo ≤ hi) (i : ℕ) :
    (UnicodeSet.range m lo hi).quadAt i = rangeQuad lo hi i := by
  have hd : lo / 32 ≤ hi / 32 := Nat.div_le_div_right hle
  rw [UnicodeSet.quadAt, cells_range hle, decode_rangeBody hle, rangeQuad,
    List.getD_eq_getElem?_getD, List.append_assoc]
  by_cases hlo : i < lo / 32
  · rw [List.getElem?_append_left (by simpa using hlo), if_pos (.inl hlo)]
    simp [hlo]
  rw [List.getElem?_append_right (by simpa using hlo), List.length_replicate]
  obtain ⟨k, rfl⟩ : ∃ k, i = lo / 32 + k := ⟨i - lo / 32, by omega⟩
  rw [Nat.add_sub_cancel_left]
  by_cases heq : lo / 32 = hi / 32
  · rw [if_pos heq]
    cases k with
    | zero => simp [heq]
    | succ k =>
      rw [if_pos (.inr (by omega)), List.cons_append, List.getElem?_cons_succ]
      exact getD_replicate_zero _ _
  rw [if_neg heq]
  cases k with
  | zero => simp [heq, hd]
  | succ k =>
    obtain ⟨n, hn⟩ : ∃ n, hi / 32 = lo / 32 + (n + 1) := ⟨hi / 32 - lo / 32 - 1, by omega⟩
    rw [List.cons_append, List.getElem?_cons_succ, hn,
      show lo / 32 + (n + 1) - lo / 32 - 1 = n by omega, List.append_assoc]
    obtain hk | rfl | hk := Nat.lt_trichotomy k n
    · rw [List.getElem?_append_left (by simpa using hk)]
      rw [if_neg (by omega), if_neg (by omega), if_neg (by omega), full_and]
      simp [hk]
    · rw [List.getElem?_append_right (by simp)]
      simp
    · rw [List.getElem?_append_right (by simpa using hk.le), List.length_replicate,
        show k - n = k - n - 1 + 1 by omega, List.cons_append, List.getElem?_cons_succ,
        if_pos (.inr (by omega))]
      exact getD_replicate_zero _ _

/-- The members of a range are the code points between its ends. -/
theorem members_range (hle : lo ≤ hi) (h : hi ≤ unicodeMax) :
    (UnicodeSet.range m lo hi).members = Set.Icc lo hi := by
  ext x
  rw [UnicodeSet.mem_iff_quadAt (range_wellFormed m hle h).verified, quadAt_range hle,
    getLsbD_rangeQuad, decide_eq_true_eq, Set.mem_Icc]

end Parabix.UCD
