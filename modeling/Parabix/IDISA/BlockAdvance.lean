import Parabix.IDISA.Shifts

namespace Parabix.IDISA.IDISA_Builder

open Library Library.BitStream

/-- The type of what is shifted in and out, a vector or an integer of at most the bits of a
lane. -/
inductive ShiftTy (laneWidth : ℕ) where
  | bitBlock
  | integer (bits : ℕ) (room : bits ≤ laneWidth)

/-- An integer is extended to the lowest lane of a vector, and cut from it. -/
def castShift {laneWidth : ℕ} (shiftTy : ShiftTy laneWidth) (x : Stream) : Stream :=
  match shiftTy with
  | .bitBlock => x
  | .integer bits _ => fun p ↦ decide (p < bits) && x p

section Operations

variable (blockWidth laneWidth : ℕ) (shiftTy : ShiftTy laneWidth)

/-- What is shifted out, and the shifted vector. -/
def bitblock_advance (a shiftin : Stream) (shift : ℕ) : Stream × Stream :=
  if shift = 0 then (fun _ ↦ false, a)
  else
    let shiftin := castShift shiftTy shiftin
    if shift = blockWidth then (castShift shiftTy a, shiftin)
    else if shift % 8 = 0 then
      let shifted := simd_or (mvmd_slli blockWidth 8 a (shift / 8)) shiftin
      let shiftout := mvmd_srli blockWidth 8 a ((blockWidth - shift) / 8)
      (castShift shiftTy shiftout, shifted)
    else
      let shiftback := simd_srli blockWidth laneWidth a (laneWidth - shift % laneWidth)
      let shiftfwd := simd_slli blockWidth laneWidth a (shift % laneWidth)
      if shift < laneWidth then
        let shiftout := mvmd_srli blockWidth laneWidth shiftback (blockWidth / laneWidth - 1)
        let shifted :=
          simd_or (simd_or shiftfwd shiftin) (mvmd_slli blockWidth laneWidth shiftback 1)
        (castShift shiftTy shiftout, shifted)
      else
        let shiftout := simd_or shiftback (mvmd_srli blockWidth laneWidth shiftfwd 1)
        let shifted := simd_or shiftin
          (mvmd_slli blockWidth laneWidth shiftfwd ((blockWidth - shift) / laneWidth))
        if shift + laneWidth < blockWidth then
          let shiftout :=
            mvmd_srli blockWidth laneWidth shiftout ((blockWidth - shift) / laneWidth)
          let shifted := simd_or shifted
            (mvmd_slli blockWidth laneWidth shiftback (shift / laneWidth + 1))
          (castShift shiftTy shiftout, shifted)
        else (castShift shiftTy shiftout, shifted)

variable (s : Stream) (shift : ℕ)

/-- The blocks of a stream. -/
def blockAt (k : ℕ) : Stream := fun p ↦ s (blockWidth * k + p)

/-- What comes in for a block is what the block before shifted out. -/
def shiftInto : ℕ → Stream
  | 0 => fun _ ↦ false
  | k + 1 => (bitblock_advance blockWidth laneWidth shiftTy (blockAt blockWidth s k)
      (shiftInto k) shift).1

def advancedBlocks : Stream := fun p ↦
  (bitblock_advance blockWidth laneWidth shiftTy (blockAt blockWidth s (p / blockWidth))
    (shiftInto blockWidth laneWidth shiftTy s shift (p / blockWidth)) shift).2 (p % blockWidth)

end Operations

section Step

variable {e laneWidth blockWidth shift p : ℕ} {shiftTy : ShiftTy laneWidth} {a shiftin : Stream}

/-- The amounts that a type has room for. -/
def ShiftTy.Holds : ShiftTy laneWidth → ℕ → Prop
  | .bitBlock, _ => True
  | .integer bits _, shift => shift ≤ bits

/-- The amounts whose branch shifts the lanes by the right number. -/
def RightBranch (blockWidth laneWidth shift : ℕ) : Prop :=
  shift = blockWidth ∨ 8 ∣ shift ∨ shift < laneWidth ∨
    (blockWidth - shift) / laneWidth = shift / laneWidth

theorem castShift_integer {bits : ℕ} (room : bits ≤ laneWidth) (x : Stream) (p : ℕ) :
    castShift (.integer bits room) x p = (decide (p < bits) && x p) := rfl

theorem castShift_apply (hholds : shiftTy.Holds shift) {x : Stream}
    (hx : shift ≤ p → x p = false) : castShift shiftTy x p = x p := by
  cases shiftTy with
  | bitBlock => rfl
  | integer bits room =>
    rw [castShift_integer]
    by_cases hp : p < bits
    · rw [decide_eq_true hp, Bool.true_and]
    · rw [decide_eq_false hp, Bool.false_and, hx (hholds.trans (Nat.not_lt.1 hp))]

theorem castShift_congr {x y : Stream} (h : x p = y p) :
    castShift shiftTy x p = castShift shiftTy y p := by
  cases shiftTy with
  | bitBlock => exact h
  | integer bits => rw [castShift_integer, castShift_integer, h]

/-- The doubled vector is shifted by the amount. -/
structure Shifts (blockWidth shift : ℕ) (shiftTy : ShiftTy laneWidth) (a shiftin : Stream)
    (result : Stream × Stream) : Prop where
  shifted : ∀ p < blockWidth, result.2 p = (castShift shiftTy shiftin p ||
    (decide (shift ≤ p) && a (p - shift)))
  shiftout : ∀ p < blockWidth, result.1 p =
    castShift shiftTy (fun p ↦ decide (p < shift) && a (blockWidth + p - shift)) p

/-- The bits of a lane that leave it, and those that stay. -/
theorem shiftback_apply {r : ℕ} (he : e ≤ 6) (hr : 0 < r) (hlt : r < 2 ^ e) (p : ℕ) :
    simd_srli blockWidth (2 ^ e) a (2 ^ e - r) p =
      (decide (p % 2 ^ e < r) && a (p + 2 ^ e - r)) := by
  rw [simd_srli_eq_createLShr he (by omega), createLShr, Nat.add_sub_assoc hlt.le]
  congr 1
  exact decide_eq_decide.2 (by omega)

theorem shiftfwd_apply {r : ℕ} (he : e ≤ 6) (hlt : r < 2 ^ e) (p : ℕ) :
    simd_slli blockWidth (2 ^ e) a r p = (decide (r ≤ p % 2 ^ e) && a (p - r)) :=
  congrFun (simd_slli_eq_createShl he hlt) p

theorem shifts_block : Shifts blockWidth blockWidth shiftTy a shiftin
    (castShift shiftTy a, castShift shiftTy shiftin) where
  shifted p hp := by
    rw [decide_eq_false (Nat.not_le.2 hp), Bool.false_and, Bool.or_false]
  shiftout p hp := castShift_congr (by
    rw [decide_eq_true hp, Bool.true_and, Nat.add_sub_cancel_left])

theorem shifts_bytes (hdvd : 32 ∣ blockWidth) (hle : shift ≤ blockWidth) (hbyte : 8 ∣ shift) :
    Shifts blockWidth shift shiftTy a shiftin
      (castShift shiftTy (mvmd_srli blockWidth 8 a ((blockWidth - shift) / 8)),
        simd_or (mvmd_slli blockWidth 8 a (shift / 8)) (castShift shiftTy shiftin)) := by
  have hbytes : 2 ^ 3 ∣ blockWidth := (by decide : 2 ^ 3 ∣ 32).trans hdvd
  refine ⟨fun p hp ↦ ?_, fun p hp ↦ castShift_congr ?_⟩
  · have hmove : mvmd_slli blockWidth 8 a (shift / 8) p = _ :=
      mvmd_slli_apply (e := 3) hdvd hbytes (by omega) hp
    change simd_or _ _ p = _
    rw [simd_or, hmove, show 2 ^ 3 * (shift / 8) = shift by omega, Bool.or_comm]
  · have hmove : mvmd_srli blockWidth 8 a ((blockWidth - shift) / 8) p = _ :=
      mvmd_srli_apply (e := 3) hdvd hbytes (by omega) hp
    rw [hmove, show 2 ^ 3 * ((blockWidth - shift) / 8) = blockWidth - shift by omega,
      show p + (blockWidth - shift) = blockWidth + p - shift by omega]
    congr 1
    exact decide_eq_decide.2 (by omega)

theorem shifts_lane (he : e ≤ 6) (hdvd : 32 ∣ blockWidth) (hlane : 2 ^ e ∣ blockWidth)
    (hzero : 0 < shift) (hlt : shift < 2 ^ e) :
    Shifts blockWidth shift shiftTy a shiftin
      (castShift shiftTy (mvmd_srli blockWidth (2 ^ e)
        (simd_srli blockWidth (2 ^ e) a (2 ^ e - shift)) (blockWidth / 2 ^ e - 1)),
        simd_or (simd_or (simd_slli blockWidth (2 ^ e) a shift) (castShift shiftTy shiftin))
          (mvmd_slli blockWidth (2 ^ e)
            (simd_srli blockWidth (2 ^ e) a (2 ^ e - shift)) 1)) := by
  obtain ⟨lanes, rfl⟩ := hlane
  have hpos := Nat.two_pow_pos e
  refine ⟨fun p hp ↦ ?_, fun p hp ↦ castShift_congr ?_⟩
  · have hsome : 0 < lanes := Nat.pos_of_mul_pos_left (Nat.zero_lt_of_lt hp)
    have hroom : 2 ^ e * 1 ≤ 2 ^ e * lanes := Nat.mul_le_mul_left _ hsome
    have hmod := Nat.mod_le p (2 ^ e)
    change simd_or (simd_or _ _) _ p = _
    rw [simd_or, simd_or, mvmd_slli_apply hdvd (Nat.dvd_mul_right _ _) hroom hp, Nat.mul_one,
      shiftback_apply he hzero hlt, shiftfwd_apply he hlt, Bool.or_right_comm, Bool.or_comm]
    congr 1
    by_cases hstay : shift ≤ p % 2 ^ e
    · rw [decide_eq_true hstay, decide_eq_true (hstay.trans hmod), Bool.true_and]
      by_cases hnext : 2 ^ e ≤ p
      · rw [← Nat.mod_eq_sub_mod hnext, decide_eq_false (Nat.not_lt.2 hstay), Bool.false_and,
          Bool.and_false, Bool.or_false]
      · rw [decide_eq_false hnext, Bool.false_and, Bool.or_false]
    · rw [decide_eq_false hstay, Bool.false_and, Bool.false_or]
      by_cases hnext : 2 ^ e ≤ p
      · rw [← Nat.mod_eq_sub_mod hnext, decide_eq_true hnext,
          decide_eq_true (Nat.not_le.1 hstay), decide_eq_true (show shift ≤ p by omega),
          Bool.true_and, Bool.true_and, Bool.true_and, Nat.sub_add_cancel hnext]
      · rw [Nat.mod_eq_of_lt (Nat.not_le.1 hnext)] at hstay
        rw [decide_eq_false hnext, decide_eq_false hstay, Bool.false_and, Bool.false_and]
  · have hsome : 0 < lanes := Nat.pos_of_mul_pos_left (Nat.zero_lt_of_lt hp)
    obtain ⟨n, rfl⟩ := Nat.exists_eq_add_of_le' hsome
    have hroom : 2 ^ e * n ≤ 2 ^ e * (n + 1) := Nat.mul_le_mul_left _ (Nat.le_succ n)
    rw [Nat.mul_div_cancel_left _ hpos, Nat.add_sub_cancel,
      mvmd_srli_apply hdvd (Nat.dvd_mul_right _ _) hroom hp, shiftback_apply he hzero hlt,
      Nat.add_mul_mod_self_left, Nat.mul_succ]
    by_cases hlow : p < 2 ^ e
    · rw [Nat.mod_eq_of_lt hlow, decide_eq_true (show p + 2 ^ e * n < 2 ^ e * n + 2 ^ e by omega),
        Bool.true_and, show p + 2 ^ e * n + 2 ^ e - shift = 2 ^ e * n + 2 ^ e + p - shift by omega]
    · rw [decide_eq_false (show ¬ p + 2 ^ e * n < 2 ^ e * n + 2 ^ e by omega),
        decide_eq_false (show ¬ p < shift by omega), Bool.false_and, Bool.false_and]

section Lanes

variable {L q r j : ℕ}

/-- The bits that stay in their lane, `q` lanes up, and those that go on to the next one. -/
theorem lanes_up (hpos : 0 < L) (hr : r < L) (p : ℕ) :
    (decide (L * q ≤ p) && (decide (r ≤ (p - L * q) % L) && a (p - L * q - r)) ||
      decide (L * (q + 1) ≤ p) && (decide ((p - L * (q + 1)) % L < r) &&
        a (p - L * (q + 1) + L - r))) =
      (decide (L * q + r ≤ p) && a (p - (L * q + r))) := by
  have hdiv := Nat.div_add_mod p L
  have hmod := Nat.mod_lt p hpos
  have hsucc : L * (q + 1) = L * q + L := Nat.mul_succ L q
  rcases Nat.lt_or_ge (p / L) q with hlow | hge
  · have hmul : L * (p / L + 1) ≤ L * q := Nat.mul_le_mul_left L hlow
    rw [Nat.mul_succ] at hmul
    rw [decide_eq_false (show ¬ L * q ≤ p by omega),
      decide_eq_false (show ¬ L * (q + 1) ≤ p by omega),
      decide_eq_false (show ¬ L * q + r ≤ p by omega), Bool.false_and, Bool.false_and,
      Bool.false_and, Bool.or_false]
  · have hmul : L * q ≤ L * (p / L) := Nat.mul_le_mul_left L hge
    have hin : L * q ≤ p := by omega
    rw [Nat.sub_mul_mod hin, decide_eq_true hin, Bool.true_and]
    by_cases hstay : r ≤ p % L
    · have hnext : (decide (L * (q + 1) ≤ p) && (decide ((p - L * (q + 1)) % L < r) &&
          a (p - L * (q + 1) + L - r))) = false := by
        rw [Bool.and_eq_false_imp, decide_eq_true_eq]
        intro hle
        rw [Nat.sub_mul_mod hle, decide_eq_false (Nat.not_lt.2 hstay), Bool.false_and]
      rw [hnext, decide_eq_true hstay, decide_eq_true (show L * q + r ≤ p by omega),
        Bool.or_false, Nat.sub_sub]
    · rw [decide_eq_false hstay, Bool.false_and, Bool.false_or]
      by_cases hle : L * (q + 1) ≤ p
      · rw [Nat.sub_mul_mod hle, decide_eq_true hle, decide_eq_true (Nat.not_le.1 hstay),
          decide_eq_true (show L * q + r ≤ p by omega), Bool.true_and, Bool.true_and,
          Bool.true_and, show p - L * (q + 1) + L - r = p - (L * q + r) by omega]
      · have hsame : p / L = q := by
          refine Nat.le_antisymm (Nat.not_lt.1 fun hlt ↦ hle ?_) hge
          have hup : L * (q + 1) ≤ L * (p / L) := Nat.mul_le_mul_left L hlt
          omega
        rw [hsame] at hdiv
        rw [decide_eq_false hle, decide_eq_false (show ¬ L * q + r ≤ p by omega), Bool.false_and,
          Bool.false_and]

theorem lanes_down (hpos : 0 < L) (hr : r < L) (p : ℕ) :
    (decide (p + L * j < L * (q + 1 + j)) && (decide ((p + L * j) % L < r) &&
        a (p + L * j + L - r) ||
      decide (p + L * j + L * 1 < L * (q + 1 + j)) &&
        (decide (r ≤ (p + L * j + L * 1) % L) && a (p + L * j + L * 1 - r)))) =
      (decide (p < L * q + r) && a (L * (q + 1 + j) + p - (L * q + r))) := by
  have hdiv := Nat.div_add_mod p L
  have hmod := Nat.mod_lt p hpos
  have hwidth : L * (q + 1 + j) = L * q + L + L * j := by ring
  rw [Nat.add_mul_mod_self_left, Nat.add_mul_mod_self_left, Nat.add_mul_mod_self_left,
    Nat.mul_one, hwidth,
    show L * q + L + L * j + p - (L * q + r) = p + L * j + L - r by omega]
  rcases Nat.lt_trichotomy (p / L) q with hlow | hsame | hhigh
  · have hmul : L * (p / L + 1) ≤ L * q := Nat.mul_le_mul_left L hlow
    rw [Nat.mul_succ] at hmul
    rw [decide_eq_true (show p + L * j < L * q + L + L * j by omega),
      decide_eq_true (show p + L * j + L < L * q + L + L * j by omega),
      decide_eq_true (show p < L * q + r by omega), Bool.true_and, Bool.true_and, Bool.true_and,
      ← Bool.and_or_distrib_right]
    by_cases hstay : r ≤ p % L
    · rw [decide_eq_true hstay, Bool.or_true, Bool.true_and]
    · rw [decide_eq_true (Nat.not_le.1 hstay), Bool.true_or, Bool.true_and]
  · rw [hsame] at hdiv
    rw [decide_eq_true (show p + L * j < L * q + L + L * j by omega),
      decide_eq_false (show ¬ p + L * j + L < L * q + L + L * j by omega), Bool.true_and,
      Bool.false_and, Bool.or_false]
    congr 1
    exact decide_eq_decide.2 (by omega)
  · have hmul : L * (q + 1) ≤ L * (p / L) := Nat.mul_le_mul_left L hhigh
    rw [Nat.mul_succ] at hmul
    rw [decide_eq_false (show ¬ p + L * j < L * q + L + L * j by omega),
      decide_eq_false (show ¬ p < L * q + r by omega), Bool.false_and, Bool.false_and]

end Lanes

/-- The lanes moved up and down with the number of lanes of the amount. -/
theorem shifts_lanes (he : e ≤ 6) (hdvd : 32 ∣ blockWidth) (hlane : 2 ^ e ∣ blockWidth)
    (hrest : 0 < shift % 2 ^ e) (hlt : shift < blockWidth) (hle : 2 ^ e ≤ shift)
    (hright : (blockWidth - shift) / 2 ^ e = shift / 2 ^ e) :
    shift + 2 ^ e < blockWidth ∧ Shifts blockWidth shift shiftTy a shiftin
      (castShift shiftTy (mvmd_srli blockWidth (2 ^ e)
        (simd_or (simd_srli blockWidth (2 ^ e) a (2 ^ e - shift % 2 ^ e))
          (mvmd_srli blockWidth (2 ^ e)
            (simd_slli blockWidth (2 ^ e) a (shift % 2 ^ e)) 1))
        ((blockWidth - shift) / 2 ^ e)),
        simd_or (simd_or (castShift shiftTy shiftin) (mvmd_slli blockWidth (2 ^ e)
            (simd_slli blockWidth (2 ^ e) a (shift % 2 ^ e)) ((blockWidth - shift) / 2 ^ e)))
          (mvmd_slli blockWidth (2 ^ e)
            (simd_srli blockWidth (2 ^ e) a (2 ^ e - shift % 2 ^ e)) (shift / 2 ^ e + 1))) := by
  have hpos := Nat.two_pow_pos e
  have hr := Nat.mod_lt shift hpos
  have hdiv := Nat.div_add_mod shift (2 ^ e)
  have hsome : 0 < shift / 2 ^ e := Nat.div_pos hle hpos
  obtain ⟨c, rfl⟩ := hlane
  generalize shift / 2 ^ e = q at *
  generalize shift % 2 ^ e = r at *
  obtain rfl : shift = 2 ^ e * q + r := hdiv.symm
  have hq : q < c := by
    by_contra hge
    exact absurd (Nat.mul_le_mul_left (2 ^ e) (Nat.not_lt.1 hge)) (by omega)
  obtain ⟨m, rfl⟩ := Nat.exists_eq_add_of_le hq
  have hwidth : 2 ^ e * (q.succ + m) = 2 ^ e * q + 2 ^ e + 2 ^ e * m := by
    rw [Nat.mul_add, Nat.mul_succ]
  -- the lanes above the amount are as many as those of the amount
  obtain rfl : m = q := by
    rw [← hright, hwidth, show 2 ^ e * q + 2 ^ e + 2 ^ e * m - (2 ^ e * q + r) =
      2 ^ e * m + (2 ^ e - r) by omega, mul_add_div_of_lt (by omega)]
  have hlanes : 2 ^ e * 1 ≤ 2 ^ e * m := Nat.mul_le_mul_left _ hsome
  rw [hright]
  refine ⟨by omega, fun p hp ↦ ?_, fun p hp ↦ castShift_congr ?_⟩
  · change simd_or (simd_or _ _) _ p = _
    rw [simd_or, simd_or, mvmd_slli_apply hdvd (Nat.dvd_mul_right _ _) (by omega) hp,
      mvmd_slli_apply hdvd (Nat.dvd_mul_right _ _) (by rw [Nat.mul_succ]; omega) hp,
      shiftfwd_apply he hr, shiftback_apply he hrest hr, Bool.or_assoc, lanes_up hpos hr]
  · rw [mvmd_srli_apply hdvd (Nat.dvd_mul_right _ _) (by omega) hp, ← lanes_down hpos hr]
    by_cases hin : p + 2 ^ e * m < 2 ^ e * (m + 1 + m)
    · rw [simd_or, mvmd_srli_apply hdvd (Nat.dvd_mul_right _ _) (by omega) hin,
        shiftfwd_apply he hr, shiftback_apply he hrest hr]
    · rw [decide_eq_false hin, Bool.false_and, Bool.false_and]

/-- Every branch but one shifts the doubled vector. -/
theorem shifts_advance {shiftTy : ShiftTy (2 ^ (e + 3))} (he : e ≤ 3) (hdvd : 32 ∣ blockWidth)
    (hlane : 2 ^ (e + 3) ∣ blockWidth) (hzero : 0 < shift) (hle : shift ≤ blockWidth)
    (hright : RightBranch blockWidth (2 ^ (e + 3)) shift) : Shifts blockWidth shift shiftTy a
      shiftin (bitblock_advance blockWidth (2 ^ (e + 3)) shiftTy a shiftin shift) := by
  have hbytes : 8 ∣ 2 ^ (e + 3) := Nat.pow_dvd_pow 2 (m := 3) (by omega)
  rw [bitblock_advance, if_neg hzero.ne']
  by_cases hblock : shift = blockWidth
  · subst hblock
    rw [if_pos rfl]
    exact shifts_block
  rw [if_neg hblock]
  by_cases hbyte : 8 ∣ shift
  · rw [if_pos (Nat.mod_eq_zero_of_dvd hbyte)]
    exact shifts_bytes hdvd hle hbyte
  rw [if_neg fun h ↦ hbyte (Nat.dvd_of_mod_eq_zero h)]
  by_cases hsmall : shift < 2 ^ (e + 3)
  · rw [if_pos hsmall, Nat.mod_eq_of_lt hsmall]
    exact shifts_lane (by omega) hdvd hlane hzero hsmall
  have hrest : 0 < shift % 2 ^ (e + 3) :=
    Nat.pos_of_ne_zero fun h ↦ hbyte (hbytes.trans (Nat.dvd_of_mod_eq_zero h))
  obtain ⟨hroom, hshifts⟩ : _ ∧ Shifts blockWidth shift shiftTy a shiftin _ := shifts_lanes
    (show e + 3 ≤ 6 by omega) hdvd hlane hrest (Nat.lt_of_le_of_ne hle hblock)
    (Nat.not_lt.1 hsmall) (((hright.resolve_left hblock).resolve_left hbyte).resolve_left hsmall)
  rw [if_neg hsmall, if_pos hroom]
  exact hshifts

end Step

section Run

variable {e blockWidth shift : ℕ} {shiftTy : ShiftTy (2 ^ (e + 3))} {s : Stream}

/-- What comes in for a block is the beginning of the block in the shifted stream. -/
theorem shiftInto_apply (hshifts : ∀ a shiftin, Shifts blockWidth shift shiftTy a shiftin
      (bitblock_advance blockWidth (2 ^ (e + 3)) shiftTy a shiftin shift))
    (hholds : shiftTy.Holds shift) (hle : shift ≤ blockWidth) (k : ℕ) :
    ∀ p < blockWidth, shiftInto blockWidth (2 ^ (e + 3)) shiftTy s shift k p =
      (decide (p < shift) && advance shift s (blockWidth * k + p)) := by
  cases k with
  | zero =>
    intro p _
    rw [shiftInto, Nat.mul_zero, Nat.zero_add, advance]
    by_cases hp : p < shift
    · rw [if_pos hp, Bool.and_false]
    · rw [decide_eq_false hp, Bool.false_and]
  | succ k =>
    intro p hp
    rw [shiftInto, (hshifts _ _).shiftout p hp, castShift_apply hholds fun hge ↦ by
      rw [decide_eq_false (Nat.not_lt.2 hge), Bool.false_and], advance, Nat.mul_succ,
      if_neg (by omega), blockAt]
    congr 2
    omega

theorem advancedBlocks_eq (hshifts : ∀ a shiftin, Shifts blockWidth shift shiftTy a shiftin
      (bitblock_advance blockWidth (2 ^ (e + 3)) shiftTy a shiftin shift))
    (hholds : shiftTy.Holds shift) (hpos : 0 < blockWidth) (hle : shift ≤ blockWidth) :
    advancedBlocks blockWidth (2 ^ (e + 3)) shiftTy s shift = advance shift s := by
  funext p
  have hmod := Nat.mod_lt p hpos
  have hdiv := Nat.div_add_mod p blockWidth
  have hinto := shiftInto_apply (s := s) hshifts hholds hle (p / blockWidth) _ hmod
  rw [advancedBlocks, (hshifts _ _).shifted _ hmod, castShift_apply hholds fun hge ↦ by
    rw [hinto, decide_eq_false (Nat.not_lt.2 hge), Bool.false_and], hinto, hdiv, advance, blockAt]
  by_cases hlow : p % blockWidth < shift
  · rw [decide_eq_true hlow, decide_eq_false (Nat.not_le.2 hlow), Bool.true_and, Bool.false_and,
      Bool.or_false]
  · rw [decide_eq_false hlow, decide_eq_true (Nat.not_lt.1 hlow), Bool.false_and, Bool.true_and,
      Bool.false_or, if_neg (by omega)]
    congr 1
    omega

theorem advancedBlocks_zero :
    advancedBlocks blockWidth (2 ^ (e + 3)) shiftTy s 0 = advance 0 s := by
  funext p
  rw [advancedBlocks, bitblock_advance, if_pos rfl, advance, if_neg (Nat.not_lt_zero p),
    Nat.sub_zero]
  exact congrArg s (Nat.div_add_mod p blockWidth)

/-- The last branch moves the bits that stay in their lanes by the lanes above the amount. -/
theorem lanes_shifted {p : ℕ} {a shiftin : Stream} (he : e ≤ 3) (hdvd : 32 ∣ blockWidth)
    (hlane : 2 ^ (e + 3) ∣ blockWidth) (hlt : shift < blockWidth) (hbyte : ¬ 8 ∣ shift)
    (hwide : 2 ^ (e + 3) ≤ shift) (hp : p < blockWidth) :
    (bitblock_advance blockWidth (2 ^ (e + 3)) shiftTy a shiftin shift).2 p =
      (castShift shiftTy shiftin p ||
        decide (2 ^ (e + 3) * ((blockWidth - shift) / 2 ^ (e + 3)) ≤ p) &&
          (decide (shift % 2 ^ (e + 3) ≤
            (p - 2 ^ (e + 3) * ((blockWidth - shift) / 2 ^ (e + 3))) % 2 ^ (e + 3)) &&
            a (p - 2 ^ (e + 3) * ((blockWidth - shift) / 2 ^ (e + 3)) - shift % 2 ^ (e + 3))) ||
        decide (shift + 2 ^ (e + 3) < blockWidth) &&
          (decide (2 ^ (e + 3) * (shift / 2 ^ (e + 3) + 1) ≤ p) &&
            (decide ((p - 2 ^ (e + 3) * (shift / 2 ^ (e + 3) + 1)) % 2 ^ (e + 3) <
              shift % 2 ^ (e + 3)) &&
              a (p - 2 ^ (e + 3) * (shift / 2 ^ (e + 3) + 1) + 2 ^ (e + 3) -
                shift % 2 ^ (e + 3))))) := by
  have hbytes : 8 ∣ 2 ^ (e + 3) := Nat.pow_dvd_pow 2 (m := 3) (by omega)
  have hpos := Nat.two_pow_pos (e + 3)
  have hr := Nat.mod_lt shift hpos
  have hrest : 0 < shift % 2 ^ (e + 3) :=
    Nat.pos_of_ne_zero fun h ↦ hbyte (hbytes.trans (Nat.dvd_of_mod_eq_zero h))
  have hdown : 2 ^ (e + 3) * ((blockWidth - shift) / 2 ^ (e + 3)) ≤ blockWidth - shift :=
    Nat.mul_div_le _ _
  have hmod : ¬ shift % 8 = 0 := fun h ↦ hbyte (Nat.dvd_of_mod_eq_zero h)
  have hfwd := mvmd_slli_apply (a := simd_slli blockWidth (2 ^ (e + 3)) a (shift % 2 ^ (e + 3)))
    hdvd hlane (hdown.trans (Nat.sub_le _ _)) hp
  rw [bitblock_advance, if_neg (by omega), if_neg (by omega), if_neg hmod,
    if_neg (Nat.not_lt.2 hwide)]
  split_ifs with hroom
  · have hdiv := Nat.div_add_mod shift (2 ^ (e + 3))
    have hup : 2 ^ (e + 3) * (shift / 2 ^ (e + 3) + 1) ≤ blockWidth := by
      rw [Nat.mul_succ]
      omega
    change simd_or (simd_or _ _) _ p = _
    rw [simd_or, simd_or, hfwd, mvmd_slli_apply hdvd hlane hup hp,
      shiftfwd_apply (show e + 3 ≤ 6 by omega) hr,
      shiftback_apply (show e + 3 ≤ 6 by omega) hrest hr, decide_eq_true hroom, Bool.true_and]
  · change simd_or _ _ p = _
    rw [simd_or, hfwd, shiftfwd_apply (show e + 3 ≤ 6 by omega) hr, decide_eq_false hroom,
      Bool.false_and, Bool.or_false]

/-- Out of a block of zeros nothing comes but what is shifted in. -/
theorem advance_zeros {p : ℕ} {shiftin : Stream} (he : e ≤ 3) (hdvd : 32 ∣ blockWidth)
    (hlane : 2 ^ (e + 3) ∣ blockWidth) (hzero : 0 < shift) (hle : shift ≤ blockWidth)
    (hp : p < blockWidth) :
    (bitblock_advance blockWidth (2 ^ (e + 3)) shiftTy (fun _ ↦ false) shiftin shift).2 p =
      castShift shiftTy shiftin p := by
  by_cases hright : RightBranch blockWidth (2 ^ (e + 3)) shift
  · rw [(shifts_advance he hdvd hlane hzero hle hright).shifted p hp, Bool.and_false,
      Bool.or_false]
  · simp only [RightBranch, not_or] at hright
    obtain ⟨hblock, hbyte, hwide, -⟩ := hright
    rw [lanes_shifted he hdvd hlane (Nat.lt_of_le_of_ne hle hblock) hbyte (Nat.not_lt.1 hwide) hp]
    simp only [Bool.and_false, Bool.or_false]

/-- A bit is lost for which the type has no room. -/
theorem holds_of_advance (he : e ≤ 3) (hdvd : 32 ∣ blockWidth) (hlane : 2 ^ (e + 3) ∣ blockWidth)
    (hzero : 0 < shift) (hle : shift ≤ blockWidth)
    (h : ∀ s, advancedBlocks blockWidth (2 ^ (e + 3)) shiftTy s shift = advance shift s) :
    shiftTy.Holds shift := by
  cases shiftTy with
  | bitBlock => trivial
  | integer bits room =>
    by_contra hmore
    have hbits : bits < shift := Nat.not_le.1 hmore
    have hbit := congrFun (h (· == blockWidth - shift + bits)) (blockWidth * 1 + bits)
    have hblock : blockAt blockWidth (· == blockWidth - shift + bits) 1 = fun _ ↦ false := by
      funext p
      rw [blockAt, beq_eq_false_iff_ne]
      omega
    rw [advancedBlocks, mul_add_div_of_lt (by omega), mul_add_mod_of_lt (by omega), hblock,
      advance_zeros he hdvd hlane hzero hle (by omega), castShift_integer,
      decide_eq_false (Nat.lt_irrefl bits), Bool.false_and, advance, if_neg (by omega)] at hbit
    exact beq_eq_false_iff_ne.1 hbit.symm (by omega)

/-- The first bit comes to another lane. -/
theorem rightBranch_of_advance (he : e ≤ 3) (hdvd : 32 ∣ blockWidth)
    (hlane : 2 ^ (e + 3) ∣ blockWidth) (hle : shift ≤ blockWidth)
    (h : advancedBlocks blockWidth (2 ^ (e + 3)) shiftTy (· == 0) shift =
      advance shift (· == 0)) :
    RightBranch blockWidth (2 ^ (e + 3)) shift := by
  by_contra hwrong
  simp only [RightBranch, not_or] at hwrong
  obtain ⟨hblock, hbyte, hwide, hlanes⟩ := hwrong
  have hpos := Nat.two_pow_pos (e + 3)
  have hr := Nat.mod_lt shift hpos
  have hdiv := Nat.div_add_mod shift (2 ^ (e + 3))
  have hdown : 2 ^ (e + 3) * ((blockWidth - shift) / 2 ^ (e + 3)) ≤ blockWidth - shift :=
    Nat.mul_div_le _ _
  have hp : 2 ^ (e + 3) * ((blockWidth - shift) / 2 ^ (e + 3)) + shift % 2 ^ (e + 3) <
      blockWidth := by omega
  have hbit := congrFun h
    (2 ^ (e + 3) * ((blockWidth - shift) / 2 ^ (e + 3)) + shift % 2 ^ (e + 3))
  rw [advancedBlocks, Nat.div_eq_of_lt hp, Nat.mod_eq_of_lt hp,
    lanes_shifted he hdvd hlane (Nat.lt_of_le_of_ne hle hblock) hbyte (Nat.not_lt.1 hwide) hp,
    decide_eq_true (Nat.le_add_right _ _), Nat.add_sub_cancel_left, Nat.mod_mod, Nat.sub_self,
    decide_eq_true (le_refl _), show blockAt blockWidth (· == 0) 0 0 = true from rfl,
    Bool.and_true, Bool.and_true, Bool.or_true, Bool.true_or, advance] at hbit
  split_ifs at hbit with hlow
  have hsame : 2 ^ (e + 3) * ((blockWidth - shift) / 2 ^ (e + 3)) + shift % 2 ^ (e + 3) -
    shift = 0 := beq_iff_eq.1 hbit.symm
  exact hlanes (Nat.eq_of_mul_eq_mul_left hpos (by omega))

end Run

section Exact

/-- The blocks of a stream are advanced by every amount that the type of the carry has room for,
except by those above the width of a lane, not a number of bytes and less than the block, whose
lanes are not as many as those above the amount. -/
theorem advancedBlocks_exact {e blockWidth shift : ℕ} (he : e ≤ 3) (hdvd : 32 ∣ blockWidth)
    (hlane : 2 ^ (e + 3) ∣ blockWidth) (hpos : 0 < blockWidth) (hle : shift ≤ blockWidth)
    (shiftTy : ShiftTy (2 ^ (e + 3))) :
    (∀ s, advancedBlocks blockWidth (2 ^ (e + 3)) shiftTy s shift = advance shift s) ↔
      shift = 0 ∨ shiftTy.Holds shift ∧ RightBranch blockWidth (2 ^ (e + 3)) shift := by
  rcases Nat.eq_zero_or_pos shift with rfl | hzero
  · exact iff_of_true (fun s ↦ advancedBlocks_zero) (Or.inl rfl)
  rw [or_iff_right hzero.ne']
  constructor
  · intro h
    exact ⟨holds_of_advance he hdvd hlane hzero hle h,
      rightBranch_of_advance he hdvd hlane hle (h _)⟩
  · rintro ⟨hholds, hright⟩ s
    exact advancedBlocks_eq (fun _ _ ↦ shifts_advance he hdvd hlane hzero hle hright) hholds hpos
      hle

/-- By five bits, in blocks of 256. -/
theorem advancedBlocks_exact_five :
    advancedBlocks 256 (2 ^ 6) .bitBlock (· == 255) 5 = advance 5 (· == 255) :=
  (advancedBlocks_exact (e := 3) (by decide) (by decide) (by decide) (by decide) (by decide)
    .bitBlock).2 (Or.inr ⟨trivial, Or.inr (Or.inr (Or.inl (by decide)))⟩) _

/-- By 65 bits the first bit comes to the third lane. -/
theorem advance_to_third_lane :
    advancedBlocks 256 (2 ^ 6) .bitBlock (· == 0) 65 ≠ advance 65 (· == 0) := by
  intro h
  rcases rightBranch_of_advance (e := 3) (by decide) (by decide) (by decide)
    (by decide) h with hblock | hbyte | hlane | hlanes
  · exact absurd hblock (by decide)
  · exact absurd hbyte (by decide)
  · exact absurd hlane (by decide)
  · exact absurd hlanes (by decide)

end Exact

end Parabix.IDISA.IDISA_Builder
