import Parabix.IDISA.Pext

namespace Parabix.IDISA

open Library Library.BitStream

section Operations

/-- The bits of every two fields are moved apart. -/
def scatter (fw : ℕ) (w delcounts : Stream) : Stream :=
  let pext_shift_fwd_amts := simd_srli fw (simd_select_lo (fw * 2) delcounts) (fw / 2)
  let pext_shift_back_amts := simd_select_lo fw (simd_select_hi (fw * 2) delcounts)
  simd_or (simd_srlv fw (simd_select_lo (fw * 2) w) pext_shift_fwd_amts)
    (simd_sllv fw (simd_select_hi (fw * 2) w) pext_shift_back_amts)

/-- The deletion counts are stacked on the way to the full width, where the final shift back is
reversed, and taken from the stack on the way back. -/
def pdepLoop (fieldwidth fw : ℕ) (v delcounts : Stream) : Stream :=
  if 0 < fw ∧ fw < fieldwidth then
    scatter fw (pdepLoop fieldwidth (fw * 2) v (addDelcounts fw delcounts)) delcounts
  else
    simd_sllv fieldwidth v (simd_select_lo fieldwidth delcounts)
termination_by fieldwidth - fw

def simd_pdep (fieldwidth : ℕ) (v deposit_mask : Stream) : Stream :=
  simd_and (pdepLoop fieldwidth 2 v (simd_not deposit_mask)) deposit_mask

end Operations

section Pdep

variable {W h i j t : ℕ} {m v w delcounts : Stream}

/-- How many ones a mask has among the `n` positions from `a` on. -/
def pop (m : Stream) (a n : ℕ) : ℕ := rank (fun j ↦ m (a + j)) n

theorem pop_le (m : Stream) (a n : ℕ) : pop m a n ≤ n := rank_le _ _

theorem pop_add (m : Stream) (a n k : ℕ) : pop m a (n + k) = pop m a n + pop m (a + n) k := by
  rw [pop, rank_add, pop, pop]
  simp only [Nat.add_assoc]

theorem rank_add_pop (m : Stream) (a n : ℕ) : rank m (a + n) = rank m a + pop m a n :=
  rank_add m a n

/-- The deletion counts of the fields. -/
def Counted (m : Stream) (h : ℕ) (delcounts : Stream) : Prop :=
  ∀ i, field h delcounts i = h - pop m (h * i) h

theorem counted_one (m : Stream) : Counted m 1 (simd_not m) := by
  intro i
  rw [field_one, simd_not, pop, rank_succ, rank_zero, Nat.one_mul, Nat.add_zero]
  cases m i <;> rfl

theorem Counted.step (hcount : Counted m h delcounts) :
    Counted m (h * 2) (addDelcounts (h * 2) delcounts) := by
  intro i
  have hlo := pop_le m (h * (2 * i)) h
  have hhi := pop_le m (h * (2 * i + 1)) h
  have hlt : h * 2 < 2 ^ (h * 2) := Nat.lt_two_pow_self
  have hsum : pop m (h * 2 * i) (h * 2) = pop m (h * (2 * i)) h + pop m (h * (2 * i + 1)) h := by
    rw [Nat.mul_two, pop_add]
    congr 2 <;> ring
  rw [field_addDelcounts, hcount, hcount, hsum, Nat.mod_eq_of_lt (by omega)]
  omega

/-- The source bit for the next one of the mask, counted in the field of `W` bits. -/
def sourceBit (W : ℕ) (m : Stream) (p : ℕ) : ℕ := W * (p / W) + pop m (W * (p / W)) (p % W)

theorem sourceBit_add {a n : ℕ} (hsame : (a + n) / W = a / W) :
    sourceBit W m (a + n) = sourceBit W m a + pop m a n := by
  have ha := Nat.div_add_mod a W
  have hmod : (a + n) % W = a % W + n := by
    have := Nat.div_add_mod (a + n) W
    rw [hsame] at this
    omega
  rw [sourceBit, sourceBit, hsame, hmod, pop_add, ha, Nat.add_assoc]

/-- The source bits for a field of `h * 2` bits stand in the middle of it, those for the lower half
below the middle and those for the upper half from there on. -/
def Scattered (W : ℕ) (m v : Stream) (h : ℕ) (w : Stream) : Prop :=
  ∀ i t, t < pop m (h * 2 * i) (h * 2) →
    w (h * 2 * i + (h - pop m (h * 2 * i) h + t)) = v (sourceBit W m (h * 2 * i) + t)

/-- The bits of the lower half of a field. -/
theorem Scattered.lower (hw : Scattered W m v (h * 2) w) (hcount : Counted m h delcounts)
    (ht : t < pop m (h * 2 * (2 * i)) (h * 2)) :
    scatter (h * 2) w delcounts (h * 2 * (2 * i) + (h - pop m (h * 2 * (2 * i)) h + t)) =
      v (sourceBit W m (h * 2 * (2 * i)) + t) := by
  have hlo := pop_le m (h * 2 * (2 * i)) h
  have hhi := pop_le m (h * 2 * (2 * i) + h) h
  have hsum : pop m (h * 2 * (2 * i)) (h * 2) =
      pop m (h * 2 * (2 * i)) h + pop m (h * 2 * (2 * i) + h) h := by
    rw [Nat.mul_two, pop_add]
  have hamount : field h delcounts (2 * (2 * i) + 1) = h - pop m (h * 2 * (2 * i) + h) h := by
    rw [hcount]
    congr 2
    ring
  have hj : h - pop m (h * 2 * (2 * i)) h + t < h * 2 := by omega
  have hplace : h * 2 * (2 * i) = h * 2 * 2 * i := by ring
  have hsource := hw i t (by rw [← hplace, Nat.mul_two (h * 2), pop_add]; omega)
  rw [← hplace] at hsource
  rw [← hsource, scatter, simd_or, simd_srlv_apply hj, simd_sllv_apply hj, field_shift_fwd, hamount]
  have hshifted : h - pop m (h * 2 * (2 * i)) h + t + (h - pop m (h * 2 * (2 * i) + h) h) =
      h * 2 - pop m (h * 2 * (2 * i)) (h * 2) + t := by omega
  have hin : h * 2 - pop m (h * 2 * (2 * i)) (h * 2) + t < h * 2 := by
    have := pop_le m (h * 2 * (2 * i)) (h * 2)
    omega
  rw [hshifted, decide_eq_true hin, Bool.true_and, select_lo_lower hin,
    select_hi_lower (by omega), Bool.and_false, Bool.or_false]

/-- The bits of the upper half of a field. -/
theorem Scattered.upper (hw : Scattered W m v (h * 2) w) (hcount : Counted m h delcounts)
    (hsame : (h * 2 * (2 * i) + h * 2) / W = h * 2 * (2 * i) / W)
    (ht : t < pop m (h * 2 * (2 * i + 1)) (h * 2)) :
    scatter (h * 2) w delcounts (h * 2 * (2 * i + 1) + (h - pop m (h * 2 * (2 * i + 1)) h + t)) =
      v (sourceBit W m (h * 2 * (2 * i + 1)) + t) := by
  have hnext : h * 2 * (2 * i + 1) = h * 2 * (2 * i) + h * 2 := by ring
  have hlo := pop_le m (h * 2 * (2 * i + 1)) h
  have hsum : pop m (h * 2 * (2 * i + 1)) (h * 2) =
      pop m (h * 2 * (2 * i + 1)) h + pop m (h * 2 * (2 * i + 1) + h) h := by
    rw [Nat.mul_two, pop_add]
  have hhi := pop_le m (h * 2 * (2 * i + 1) + h) h
  have hamount : field h delcounts (2 * (2 * i + 1)) = h - pop m (h * 2 * (2 * i + 1)) h := by
    rw [hcount]
    congr 2
    ring
  have hj : h - pop m (h * 2 * (2 * i + 1)) h + t < h * 2 := by omega
  have hin : t < h * 2 := by omega
  have hplace : h * 2 * (2 * i) = h * 2 * 2 * i := by ring
  have hbefore := pop_le m (h * 2 * (2 * i)) (h * 2)
  have hsource := hw i (pop m (h * 2 * (2 * i)) (h * 2) + t) (by
    rw [← hplace, Nat.mul_two (h * 2), pop_add, ← hnext]
    omega)
  have hmiddle : h * 2 * 2 * i + (h * 2 - pop m (h * 2 * 2 * i) (h * 2) +
      (pop m (h * 2 * (2 * i)) (h * 2) + t)) = h * 2 * (2 * i + 1) + t := by
    rw [← hplace, hnext]
    omega
  rw [hmiddle, ← hplace, ← Nat.add_assoc, ← sourceBit_add hsame, ← hnext] at hsource
  rw [← hsource, scatter, simd_or, simd_srlv_apply hj, simd_sllv_apply hj, field_shift_back,
    hamount, decide_eq_true (Nat.le_add_right _ _), Bool.true_and, Nat.add_sub_cancel_left,
    select_hi_upper hin]
  have hnone (y : ℕ) :
      (decide (y < h * 2) && simd_select_lo (h * 2 * 2) w (h * 2 * (2 * i + 1) + y)) = false := by
    by_cases hy : y < h * 2
    · rw [select_lo_upper hy, Bool.and_false]
    · rw [decide_eq_false hy, Bool.false_and]
  rw [hnone, Bool.false_or]

theorem Scattered.step (hw : Scattered W m v (h * 2) w) (hcount : Counted m h delcounts)
    (hpos : 0 < h) (hdvd : h * 2 * 2 ∣ W) :
    Scattered W m v h (scatter (h * 2) w delcounts) := by
  intro i t ht
  obtain ⟨c, rfl⟩ := hdvd
  obtain ⟨i, rfl | rfl⟩ := i.even_or_odd'
  · exact hw.lower hcount ht
  · refine hw.upper hcount ?_ ht
    have hplace : h * 2 * (2 * i) = h * 2 * 2 * i := by ring
    have hfour : 0 < h * 2 * 2 := by omega
    have hlt : h * 2 < h * 2 * 2 := by omega
    rw [hplace, ← Nat.div_div_eq_div_mul (h * 2 * 2 * i + h * 2) (h * 2 * 2),
      ← Nat.div_div_eq_div_mul (h * 2 * 2 * i) (h * 2 * 2), mul_add_div_of_lt hlt,
      Nat.mul_div_cancel_left _ hfour]

/-- At the full width the bits are moved up from the low end. -/
theorem scattered_sllv (hcount : Counted m h delcounts) :
    Scattered (h * 2) m v h (simd_sllv (h * 2) v (simd_select_lo (h * 2) delcounts)) := by
  intro i t ht
  have hlo := pop_le m (h * 2 * i) h
  have hhi := pop_le m (h * 2 * i + h) h
  have hsum : pop m (h * 2 * i) (h * 2) = pop m (h * 2 * i) h + pop m (h * 2 * i + h) h := by
    rw [Nat.mul_two, pop_add]
  have hpos : 0 < h * 2 := by omega
  have hamount : field h delcounts (2 * i) = h - pop m (h * 2 * i) h := by
    rw [hcount]
    congr 2
    ring
  rw [simd_sllv_apply (by omega), field_select_lo, hamount, decide_eq_true (Nat.le_add_right _ _),
    Bool.true_and, Nat.add_sub_cancel_left, sourceBit, Nat.mul_div_cancel_left _ hpos,
    Nat.mul_mod_right]
  rfl

theorem scattered_pdepLoop (k : ℕ) (hcount : Counted m h delcounts) (hpos : 0 < h) :
    Scattered (h * 2 ^ k * 2) m v h (pdepLoop (h * 2 ^ k * 2) (h * 2) v delcounts) := by
  induction k generalizing h delcounts with
  | zero =>
    rw [pow_zero, Nat.mul_one, pdepLoop, if_neg (by omega)]
    exact scattered_sllv hcount
  | succ k ih =>
    have hwidth : h * 2 ^ (k + 1) = h * 2 * 2 ^ k := by ring
    have hlt : h * 2 < h * 2 ^ (k + 1) * 2 := by
      have hle := Nat.le_mul_of_pos_right (h * 2) (Nat.two_pow_pos k)
      omega
    rw [pdepLoop, if_pos ⟨by omega, hlt⟩, hwidth]
    exact (ih hcount.step (by omega)).step hcount hpos ⟨2 ^ k, by ring⟩

/-- In each field the ones of the mask take the source bits from its low end on, in order. -/
theorem simd_pdep_apply (k : ℕ) (v m : Stream) (p : ℕ) :
    simd_pdep (2 ^ (k + 1)) v m p = (m p && v (sourceBit (2 ^ (k + 1)) m p)) := by
  have hw := scattered_pdepLoop k (v := v) (counted_one m) Nat.one_pos
  rw [Nat.one_mul, Nat.one_mul, ← pow_succ] at hw
  rw [simd_pdep, simd_and, Bool.and_comm]
  cases hm : m p
  · rfl
  · rw [Bool.true_and, Bool.true_and]
    have hone (q : ℕ) : pop m q 1 = (m q).toNat := by
      rw [pop, rank_succ, rank_zero, Nat.add_zero, Nat.zero_add]
    obtain ⟨i, rfl | rfl⟩ := p.even_or_odd'
    · have hsum := pop_add m (2 * i) 1 1
      rw [hone, hm, Bool.toNat_true] at hsum
      have hbit := hw i 0 (by rw [Nat.one_mul, hsum]; omega)
      rwa [Nat.one_mul, hone, hm, Bool.toNat_true, Nat.sub_self] at hbit
    · have hsum := pop_add m (2 * i) 1 1
      rw [hone (2 * i + 1), hm, Bool.toNat_true] at hsum
      have hle := pop_le m (2 * i) 1
      have hbit := hw i (pop m (2 * i) 1) (by rw [Nat.one_mul, hsum]; omega)
      have hsame : (2 * i + 1) / 2 ^ (k + 1) = 2 * i / 2 ^ (k + 1) := by
        rw [pow_succ', ← Nat.div_div_eq_div_mul, ← Nat.div_div_eq_div_mul]
        congr 1
        omega
      rwa [Nat.one_mul, Nat.sub_add_cancel hle, ← sourceBit_add hsame] at hbit

end Pdep

end Parabix.IDISA
