import Parabix.IDISA.Extraction

namespace Parabix.Streamutils

open Library Library.BitStream
open IDISA (simd_and simd_or simd_xor simd_not pop pop_le pop_add rank_add_pop selected)
open IDISA.IDISA_Builder (simd_slli simd_srli createShl createLShr mod_sub_of_le mod_add_of_lt
  mod_room simd_slli_iff simd_srli_iff simd_slli_wide simd_srli_wide simd_pext simd_pdep
  simd_pext_apply pdep_pext_apply pext_pdep_apply Agree agree_simd_pext agree_simd_pdep)

section Operations

variable (slli srli : Stream → ℕ → Stream) (fw : ℕ)

/-- Every bit is xored with those below it in its field. -/
def parallelPrefixXor (lookright : ℕ) (mp : Stream) : Stream :=
  if 0 < lookright ∧ lookright < fw then
    parallelPrefixXor (lookright * 2) (simd_xor mp (slli mp lookright))
  else mp
termination_by fw - lookright

def moveMasks (shift : ℕ) (m mk : Stream) : List Stream :=
  if 0 < shift ∧ shift < fw then
    let mp := parallelPrefixXor slli fw 1 mk
    let mv := simd_and mp m
    mv :: moveMasks (shift * 2) (simd_or (simd_xor m mv) (srli mv shift))
      (simd_and mk (simd_not mp))
  else []
termination_by fw - shift

def moves : ℕ → List Stream → Stream → Stream
  | _, [], s => s
  | i, mv :: mvs, s =>
    let t := simd_and s mv
    moves (i + 1) mvs (simd_or (simd_xor s t) (srli t (2 ^ i)))

variable {slli srli fw} in
theorem parallelPrefixXor_of {lookright : ℕ} {mp : Stream}
    (hloop : 0 < lookright ∧ lookright < fw) : parallelPrefixXor slli fw lookright mp =
      parallelPrefixXor slli fw (lookright * 2) (simd_xor mp (slli mp lookright)) := by
  rw [parallelPrefixXor, if_pos hloop]

variable {slli srli fw} in
theorem parallelPrefixXor_end {lookright : ℕ} {mp : Stream}
    (hloop : ¬ (0 < lookright ∧ lookright < fw)) :
    parallelPrefixXor slli fw lookright mp = mp := by
  rw [parallelPrefixXor, if_neg hloop]

variable {slli srli fw} in
theorem moveMasks_of {shift : ℕ} {m mk : Stream} (hloop : 0 < shift ∧ shift < fw) :
    moveMasks slli srli fw shift m mk = simd_and (parallelPrefixXor slli fw 1 mk) m ::
      moveMasks slli srli fw (shift * 2)
        (simd_or (simd_xor m (simd_and (parallelPrefixXor slli fw 1 mk) m))
          (srli (simd_and (parallelPrefixXor slli fw 1 mk) m) shift))
        (simd_and mk (simd_not (parallelPrefixXor slli fw 1 mk))) := by
  rw [moveMasks, if_pos hloop]

variable {slli srli fw} in
theorem moveMasks_end {shift : ℕ} {m mk : Stream} (hloop : ¬ (0 < shift ∧ shift < fw)) :
    moveMasks slli srli fw shift m mk = [] := by
  rw [moveMasks, if_neg hloop]

variable (vectorWidth : ℕ)

def parallel_prefix_deletion_masks (del_mask : Stream) : List Stream :=
  moveMasks (simd_slli vectorWidth fw) (simd_srli vectorWidth fw) fw 1 (simd_not del_mask)
    (simd_slli vectorWidth fw del_mask 1)

def apply_parallel_prefix_deletion (del_mask : Stream) (mv : List Stream) (strm : Stream) :
    Stream :=
  moves (simd_srli vectorWidth fw) 0 mv (simd_and strm (simd_not del_mask))

/-- A stream with the bits of a mask deleted. -/
def parallel_prefix_deletion (del_mask strm : Stream) : Stream :=
  apply_parallel_prefix_deletion fw vectorWidth del_mask
    (parallel_prefix_deletion_masks fw vectorWidth del_mask) strm

end Operations

section Parity

variable {fw e : ℕ} {mk : Stream}

def odd (n : ℕ) : Bool := decide (n % 2 = 1)

theorem odd_add_toNat (n : ℕ) (b : Bool) : odd (n + b.toNat) = (odd n ^^ b) := by
  have hlt := Nat.mod_lt n (show 0 < 2 by decide)
  cases b
  · rw [Bool.toNat_false, Nat.add_zero, Bool.xor_false]
  · rw [Bool.toNat_true, Bool.xor_true, odd, odd, ← decide_not]
    exact decide_eq_decide.2 (by omega)

theorem odd_add_xor (a n : ℕ) : (odd (a + n) ^^ odd a) = odd n := by
  rcases Nat.mod_two_eq_zero_or_one a with ha | ha <;>
    rcases Nat.mod_two_eq_zero_or_one n with hn | hn <;> simp [odd, Nat.add_mod, ha, hn]

/-- The parity of the bits among the last `n` ones up to `x` in its field. -/
def windowParity (fw n : ℕ) (mk : Stream) (x : ℕ) : Bool :=
  odd (rank mk (x + 1)) ^^ odd (rank mk (max (fw * (x / fw)) (x + 1 - n)))

theorem windowParity_one : windowParity fw 1 mk = mk := by
  funext x
  have hle : fw * (x / fw) ≤ x := Nat.mul_div_le x fw
  rw [windowParity, Nat.add_sub_cancel, max_eq_right hle, rank_succ, odd_add_toNat, Bool.xor_comm,
    ← Bool.xor_assoc, Bool.xor_self, Bool.false_xor]

theorem xor_xor_cancel (a b c : Bool) : ((a ^^ b) ^^ (b ^^ c)) = (a ^^ c) := by
  rw [Bool.xor_assoc, ← Bool.xor_assoc b, Bool.xor_self, Bool.false_xor]

/-- A window is doubled by the one before it. -/
theorem windowParity_double {n : ℕ} (hn : 0 < n) (hlt : n < fw) :
    simd_xor (windowParity fw n mk) (createShl fw (windowParity fw n mk) n) =
      windowParity fw (n * 2) mk := by
  funext x
  have hdiv := Nat.div_add_mod x fw
  rw [simd_xor, createShl]
  by_cases hin : n ≤ x % fw
  · have hsame : (x - n) / fw = x / fw := by
      rw [show x - n = fw * (x / fw) + (x % fw - n) by omega,
        mul_add_div_of_lt (by have := Nat.mod_lt x (show 0 < fw by omega); omega)]
    rw [decide_eq_true hin, Bool.true_and, windowParity, windowParity, windowParity, hsame,
      max_eq_right (show fw * (x / fw) ≤ x + 1 - n by omega), show x - n + 1 = x + 1 - n by omega,
      show x + 1 - n - n = x + 1 - n * 2 by omega, xor_xor_cancel]
  · rw [decide_eq_false hin, Bool.false_and, Bool.xor_false, windowParity, windowParity,
      max_eq_left (show x + 1 - n ≤ fw * (x / fw) by omega),
      max_eq_left (show x + 1 - n * 2 ≤ fw * (x / fw) by omega)]

theorem parallelPrefixXor_eq {t : ℕ} (mk : Stream) (hle : t ≤ e) :
    parallelPrefixXor (createShl (2 ^ e)) (2 ^ e) (2 ^ t) (windowParity (2 ^ e) (2 ^ t) mk) =
      windowParity (2 ^ e) (2 ^ e) mk := by
  by_cases hloop : 0 < 2 ^ t ∧ 2 ^ t < 2 ^ e
  · have hlt : t < e := (Nat.pow_lt_pow_iff_right (by decide)).1 hloop.2
    rw [parallelPrefixXor_of hloop, windowParity_double hloop.1 hloop.2, ← pow_succ]
    exact parallelPrefixXor_eq mk hlt
  · have hge : e ≤ t := by
      by_contra hlt
      exact hloop ⟨Nat.two_pow_pos t, Nat.pow_lt_pow_right (by decide) (Nat.not_le.1 hlt)⟩
    rw [parallelPrefixXor_end hloop, Nat.le_antisymm hle hge]
termination_by e - t

end Parity

section Deleted

variable {fw e i j k p x : ℕ} {del mk : Stream}

/-- How many bits of its field are deleted below a bit. -/
def deleted (fw : ℕ) (del : Stream) (x : ℕ) : ℕ := pop del (fw * (x / fw)) (x % fw)

theorem deleted_le : deleted fw del x ≤ x % fw := pop_le _ _ _

theorem deleted_start : deleted fw del (fw * i) = 0 := by
  rw [deleted, Nat.mul_mod_right]
  exact rank_zero _

theorem deleted_succ (hj : j + 1 < fw) : deleted fw del (fw * i + (j + 1)) =
    deleted fw del (fw * i + j) + (del (fw * i + j)).toNat := by
  rw [deleted, deleted, mul_add_div_of_lt hj, mul_add_mod_of_lt hj, mul_add_div_of_lt (by omega),
    mul_add_mod_of_lt (by omega)]
  exact rank_succ _ _

/-- The marks behind every `2 ^ k`-th deleted bit. -/
def keptMarks (fw : ℕ) (del : Stream) (k : ℕ) : Stream := fun x ↦
  decide (0 < x % fw) && del (x - 1) && decide (2 ^ k ∣ deleted fw del x)

/-- There are as many of them as multiples among the deleted bits. -/
theorem rank_keptMarks (del : Stream) (k i : ℕ) (hj : j < fw) :
    rank (keptMarks fw del k) (fw * i + j + 1) =
      rank (keptMarks fw del k) (fw * i) + deleted fw del (fw * i + j) / 2 ^ k := by
  have hpos : 0 < fw := by omega
  induction j with
  | zero =>
    simp only [Nat.add_zero]
    rw [rank_succ, keptMarks, Nat.mul_mod_right, deleted_start, Nat.zero_div]
    rfl
  | succ j ih =>
    rw [← Nat.add_assoc, rank_succ, ih (by omega), Nat.add_assoc (fw * i), keptMarks,
      mul_add_mod_of_lt hj, decide_eq_true (Nat.succ_pos j), Bool.true_and,
      show fw * i + (j + 1) - 1 = fw * i + j by omega, deleted_succ hj, Nat.add_assoc]
    congr 1
    cases del (fw * i + j)
    · rfl
    · rw [Bool.true_and, Bool.toNat_true, Nat.succ_div]
      by_cases hdvd : 2 ^ k ∣ deleted fw del (fw * i + j) + 1
      · rw [decide_eq_true hdvd, if_pos hdvd]
        rfl
      · rw [decide_eq_false hdvd, if_neg hdvd]
        rfl

/-- The parity of the marks is a binary digit of the number of the deleted bits. -/
theorem windowParity_keptMarks (hpos : 0 < fw) (k : ℕ) :
    windowParity fw fw (keptMarks fw del k) = fun x ↦ (deleted fw del x).testBit k := by
  funext x
  have hdiv := Nat.div_add_mod x fw
  have hmod := Nat.mod_lt x hpos
  have hrank := rank_keptMarks del k (x / fw) hmod
  rw [hdiv] at hrank
  rw [windowParity, max_eq_left (by omega), hrank, odd_add_xor,
    Nat.testBit_eq_decide_div_mod_eq, odd]

end Deleted

section Moves

variable {fw e k p x : ℕ} {del strm m s : Stream}

theorem deleted_add (hle : x ≤ p) (hsame : p / fw = x / fw) :
    deleted fw del p = deleted fw del x + pop del x (p - x) := by
  have hx := Nat.div_add_mod x fw
  have hp := Nat.div_add_mod p fw
  rw [hsame] at hp
  have hsum := pop_add del (fw * (x / fw)) (x % fw) (p - x)
  rw [hx, show x % fw + (p - x) = p % fw by omega] at hsum
  rw [deleted, deleted, hsame, hsum]

/-- A bit moved down by the lower digits of its number leaves the deleted bits of the higher ones
below it. -/
theorem deleted_div (hsame : p / fw = x / fw) (hmoved : x + deleted fw del p % 2 ^ k = p) :
    deleted fw del x / 2 ^ k = deleted fw del p / 2 ^ k := by
  have hadd : deleted fw del p = _ := deleted_add (show x ≤ p by omega) hsame
  have hle := pop_le del x (p - x)
  have hdiv := Nat.div_add_mod (deleted fw del p) (2 ^ k)
  refine Nat.le_antisymm (Nat.div_le_div_right (by omega)) ?_
  rw [Nat.le_div_iff_mul_le (Nat.two_pow_pos k), Nat.mul_comm]
  omega

/-- The bits that are kept are moved down by the lower `k` digits of their numbers of deleted
bits. -/
def Moved (fw : ℕ) (del strm : Stream) (k : ℕ) (s : Stream) : Prop :=
  ∀ x, s x = true ↔ ∃ p, p / fw = x / fw ∧ del p = false ∧ strm p = true ∧
    x + deleted fw del p % 2 ^ k = p

theorem moved_zero : Moved fw del strm 0 (simd_and strm (simd_not del)) := by
  intro x
  simp only [pow_zero, Nat.mod_one, Nat.add_zero, simd_and, simd_not, Bool.and_eq_true,
    Bool.not_eq_true']
  constructor
  · rintro ⟨hs, hdel⟩
    exact ⟨x, rfl, hdel, hs, rfl⟩
  · rintro ⟨p, -, hdel, hs, rfl⟩
    exact ⟨hs, hdel⟩

theorem same_field_add {n : ℕ} (hpos : 0 < fw) (hsame : (x + n) / fw = x / fw) :
    x % fw + n < fw := by
  have hx := Nat.div_add_mod x fw
  have hy := Nat.div_add_mod (x + n) fw
  have hlt := Nat.mod_lt (x + n) hpos
  rw [hsame] at hy
  omega

/-- The next digit is set for the bits under the parity of the marks. -/
theorem Moved.step {t : Stream} (hpos : 0 < fw) (hs : Moved fw del strm k s)
    (ht : ∀ x, t x = (s x && (deleted fw del x).testBit k)) :
    Moved fw del strm (k + 1) (simd_or (simd_xor s t) (createLShr fw t (2 ^ k))) := by
  have hdigit (p : ℕ) : deleted fw del p % 2 ^ (k + 1) =
      deleted fw del p % 2 ^ k + 2 ^ k * ((deleted fw del p).testBit k).toNat := by
    rw [Nat.mod_pow_succ, ← Nat.toNat_testBit]
  have hbit {p x : ℕ} (hsame : p / fw = x / fw) (hmoved : x + deleted fw del p % 2 ^ k = p) :
      (deleted fw del x).testBit k = (deleted fw del p).testBit k := by
    rw [Nat.testBit_eq_decide_div_mod_eq, Nat.testBit_eq_decide_div_mod_eq,
      deleted_div hsame hmoved]
  intro x
  rw [simd_or, simd_xor, createLShr, ht, ht, Bool.or_eq_true, Bool.and_eq_true, decide_eq_true_eq,
    Bool.and_eq_true]
  constructor
  · rintro (hstay | ⟨hin, hx, hset⟩)
    · have hx : s x = true := by
        cases hsx : s x
        · rw [hsx, Bool.false_and, Bool.false_xor] at hstay
          exact absurd hstay Bool.false_ne_true
        · rfl
      rw [hx, Bool.true_and, Bool.true_xor, Bool.not_eq_true'] at hstay
      obtain ⟨p, hsame, hdel, hp, hmoved⟩ := (hs x).1 hx
      refine ⟨p, hsame, hdel, hp, ?_⟩
      rw [hdigit, ← hbit hsame hmoved, hstay, Bool.toNat_false, Nat.mul_zero, Nat.add_zero, hmoved]
    · obtain ⟨p, hsame, hdel, hp, hmoved⟩ := (hs _).1 hx
      have hup : (x + 2 ^ k) / fw = x / fw := by
        rw [← Nat.div_add_mod x fw, Nat.add_assoc, mul_add_div_of_lt hin,
          mul_add_div_of_lt (Nat.mod_lt x hpos)]
      refine ⟨p, hsame.trans hup, hdel, hp, ?_⟩
      rw [hdigit, ← hbit (hsame.trans rfl) hmoved, hset, Bool.toNat_true, Nat.mul_one]
      omega
  · rintro ⟨p, hsame, hdel, hp, hmoved⟩
    rw [hdigit] at hmoved
    cases hset : (deleted fw del p).testBit k
    · rw [hset, Bool.toNat_false, Nat.mul_zero, Nat.add_zero] at hmoved
      have hx : s x = true := (hs x).2 ⟨p, hsame, hdel, hp, hmoved⟩
      rw [hx, hbit hsame hmoved, hset]
      exact Or.inl rfl
    · rw [hset, Bool.toNat_true, Nat.mul_one] at hmoved
      have hup : (x + 2 ^ k) / fw = x / fw := Nat.le_antisymm
        ((Nat.div_le_div_right (by omega)).trans_eq hsame)
        (Nat.div_le_div_right (Nat.le_add_right _ _))
      have hmore : x + 2 ^ k + deleted fw del p % 2 ^ k = p := by omega
      have hx : s (x + 2 ^ k) = true := (hs _).2 ⟨p, hsame.trans hup.symm, hdel, hp, hmore⟩
      exact Or.inr ⟨same_field_add hpos hup, hx,
        (hbit (hsame.trans hup.symm) hmore).trans hset⟩

theorem keptMarks_step (k : ℕ) : simd_and (keptMarks fw del k)
    (simd_not fun x ↦ (deleted fw del x).testBit k) = keptMarks fw del (k + 1) := by
  funext x
  rw [simd_and, simd_not, keptMarks, keptMarks, Bool.and_assoc, Nat.testBit_eq_decide_div_mod_eq,
    ← decide_not, ← Bool.decide_and]
  congr 1
  refine decide_eq_decide.2 ?_
  rw [pow_succ]
  constructor
  · rintro ⟨⟨c, hc⟩, heven⟩
    rw [hc, Nat.mul_div_cancel_left _ (Nat.two_pow_pos k)] at heven
    rw [hc]
    exact Nat.mul_dvd_mul_left _ (Nat.dvd_of_mod_eq_zero (by omega))
  · rintro ⟨c, hc⟩
    rw [hc, Nat.mul_assoc, Nat.mul_div_cancel_left _ (Nat.two_pow_pos k)]
    exact ⟨Nat.dvd_mul_right _ _, by omega⟩

theorem keptMarks_zero : createShl fw del 1 = keptMarks fw del 0 := by
  funext x
  rw [createShl, keptMarks, pow_zero, decide_eq_true (Nat.one_dvd _), Bool.and_true]
  rfl

/-- The mask is moved with the bits. -/
theorem stage_le {n : ℕ} {mp : Stream} (hm : ∀ x, s x = true → m x = true) (x : ℕ)
    (hx : simd_or (simd_xor s (simd_and s (simd_and mp m)))
      (createLShr fw (simd_and s (simd_and mp m)) n) x = true) :
    simd_or (simd_xor m (simd_and mp m)) (createLShr fw (simd_and mp m) n) x = true := by
  have hone := hm x
  have htwo := hm (x + n)
  simp only [simd_or, simd_xor, simd_and, createLShr] at hx ⊢
  revert hx hone htwo
  generalize s x = a, m x = b, mp x = c, s (x + n) = a', m (x + n) = b', mp (x + n) = c',
    decide (x % fw + n < fw) = d
  revert a b c a' b' c' d
  decide

/-- Every stage moves the bits by the next digit of their numbers. -/
theorem moves_moveMasks {k : ℕ} {m s : Stream} (hk : k ≤ e) (hm : ∀ x, s x = true → m x = true)
    (hs : Moved (2 ^ e) del strm k s) :
    Moved (2 ^ e) del strm e (moves (createLShr (2 ^ e)) k
      (moveMasks (createShl (2 ^ e)) (createLShr (2 ^ e)) (2 ^ e) (2 ^ k) m
        (keptMarks (2 ^ e) del k)) s) := by
  by_cases hloop : 0 < 2 ^ k ∧ 2 ^ k < 2 ^ e
  · have hlt : k < e := (Nat.pow_lt_pow_iff_right (by decide)).1 hloop.2
    have hparity : parallelPrefixXor (createShl (2 ^ e)) (2 ^ e) 1 (keptMarks (2 ^ e) del k) =
        fun x ↦ (deleted (2 ^ e) del x).testBit k := by
      have hwindows := parallelPrefixXor_eq (keptMarks (2 ^ e) del k) (Nat.zero_le e)
      rwa [pow_zero, windowParity_one, windowParity_keptMarks (Nat.two_pow_pos e)] at hwindows
    have ht (x : ℕ) : simd_and s (simd_and (fun x ↦ (deleted (2 ^ e) del x).testBit k) m) x =
        (s x && (deleted (2 ^ e) del x).testBit k) := by
      rw [simd_and, simd_and]
      cases hsx : s x
      · rfl
      · rw [hm x hsx, Bool.and_true]
    rw [moveMasks_of hloop, hparity, keptMarks_step, ← pow_succ, moves]
    exact moves_moveMasks hlt (stage_le hm) (hs.step (Nat.two_pow_pos e) ht)
  · have hge : e ≤ k := by
      by_contra hlt
      exact hloop ⟨Nat.two_pow_pos k, Nat.pow_lt_pow_right (by decide) (Nat.not_le.1 hlt)⟩
    rw [Nat.le_antisymm hk hge] at hs
    rw [moveMasks_end hloop]
    exact hs
termination_by e - k

/-- The bits moved down by all their deleted bits are those extracted. -/
theorem moved_pext {v : Stream} (hs : Moved (2 ^ (k + 1)) (simd_not m) v (k + 1) s) :
    s = IDISA.simd_pext (2 ^ (k + 1)) v m := by
  funext x
  obtain ⟨i, j, hj, rfl⟩ : ∃ i j, j < 2 ^ (k + 1) ∧ x = 2 ^ (k + 1) * i + j :=
    ⟨_, _, Nat.mod_lt x (Nat.two_pow_pos _), (Nat.div_add_mod x _).symm⟩
  have hcount {q : ℕ} (hq : q < 2 ^ (k + 1)) :
      rank m (2 ^ (k + 1) * i + q) + deleted (2 ^ (k + 1)) (simd_not m) (2 ^ (k + 1) * i + q) =
        rank m (2 ^ (k + 1) * i) + q := by
    have hnot : pop m (2 ^ (k + 1) * i) q + pop (simd_not m) (2 ^ (k + 1) * i) q = q :=
      rank_not (fun j ↦ m (2 ^ (k + 1) * i + j)) q
    rw [deleted, mul_add_div_of_lt hq, mul_add_mod_of_lt hq, rank_add_pop]
    omega
  rw [simd_pext_apply hj, List.getD_eq_getElem?_getD, Bool.eq_iff_iff, hs]
  have hsome : (((selected m v (2 ^ (k + 1)) i)[j]?).getD false = true ↔
      (selected m v (2 ^ (k + 1)) i)[j]? = some true) := by
    cases (selected m v (2 ^ (k + 1)) i)[j]? <;> simp
  rw [hsome, selected, getElem?_compress_eq_some]
  constructor
  · rintro ⟨p, hsame, hdel, hv, hmoved⟩
    rw [mul_add_div_of_lt hj] at hsame
    obtain ⟨q, hq, rfl⟩ : ∃ q, q < 2 ^ (k + 1) ∧ p = 2 ^ (k + 1) * i + q :=
      ⟨p % _, Nat.mod_lt p (Nat.two_pow_pos _), by rw [← hsame, Nat.div_add_mod]⟩
    have hlt : deleted (2 ^ (k + 1)) (simd_not m) (2 ^ (k + 1) * i + q) ≤ _ := deleted_le
    rw [mul_add_mod_of_lt hq] at hlt
    rw [Nat.mod_eq_of_lt (hlt.trans_lt hq)] at hmoved
    have hrank := hcount hq
    rw [simd_not, Bool.not_eq_false'] at hdel
    exact ⟨q, hq, hdel, by omega, hv⟩
  · rintro ⟨q, hq, hm, hrank, hv⟩
    have hlt : deleted (2 ^ (k + 1)) (simd_not m) (2 ^ (k + 1) * i + q) ≤ _ := deleted_le
    rw [mul_add_mod_of_lt hq] at hlt
    have hrank' := hcount hq
    refine ⟨2 ^ (k + 1) * i + q, by rw [mul_add_div_of_lt hq, mul_add_div_of_lt hj], ?_, hv, ?_⟩
    · rw [simd_not, hm]
      rfl
    · rw [Nat.mod_eq_of_lt (hlt.trans_lt hq)]
      omega

theorem simd_not_not (x : Stream) : simd_not (simd_not x) = x :=
  funext fun _ ↦ Bool.not_not _

/-- The deletion by shifts of fields is the extraction. -/
theorem moves_eq_pext (k : ℕ) (v m : Stream) :
    moves (createLShr (2 ^ (k + 1))) 0 (moveMasks (createShl (2 ^ (k + 1)))
      (createLShr (2 ^ (k + 1))) (2 ^ (k + 1)) 1 m (createShl (2 ^ (k + 1)) (simd_not m) 1))
        (simd_and v m) = IDISA.simd_pext (2 ^ (k + 1)) v m := by
  have hstart : Moved (2 ^ (k + 1)) (simd_not m) v 0 _ := moved_zero
  rw [simd_not_not] at hstart
  have hmoves := moves_moveMasks (Nat.zero_le (k + 1)) (fun x hx ↦ (Bool.and_eq_true_iff.1 hx).2)
    hstart
  rw [pow_zero, ← keptMarks_zero] at hmoves
  exact moved_pext hmoves

end Moves

section Agreement

variable {vectorWidth e k : ℕ} {x y : Stream}

/-- The shifts by amounts below the width of the fields give the same bits of two vectors. -/
def ShiftsAgree (vectorWidth fw : ℕ) (shift shift' : Stream → ℕ → Stream) : Prop :=
  ∀ x y n, n < fw → Agree vectorWidth x y → Agree vectorWidth (shift x n) (shift' y n)

theorem agree_xor {a b : Stream} (hx : Agree vectorWidth a b) (hy : Agree vectorWidth x y) :
    Agree vectorWidth (simd_xor a x) (simd_xor b y) := fun p hp ↦ by
  rw [simd_xor, simd_xor, hx p hp, hy p hp]

theorem agree_not (hx : Agree vectorWidth x y) :
    Agree vectorWidth (simd_not x) (simd_not y) := fun p hp ↦ by
  rw [simd_not, simd_not, hx p hp]

theorem agree_parallelPrefixXor {fw : ℕ} {slli slli' : Stream → ℕ → Stream} {x y : Stream}
    (lookright : ℕ) (hslli : ShiftsAgree vectorWidth fw slli slli')
    (hx : Agree vectorWidth x y) :
    Agree vectorWidth (parallelPrefixXor slli fw lookright x)
      (parallelPrefixXor slli' fw lookright y) := by
  by_cases hloop : 0 < lookright ∧ lookright < fw
  · rw [parallelPrefixXor_of hloop, parallelPrefixXor_of hloop]
    exact agree_parallelPrefixXor _ hslli (agree_xor hx (hslli _ _ _ hloop.2 hx))
  · rw [parallelPrefixXor_end hloop, parallelPrefixXor_end hloop]
    exact hx
termination_by fw - lookright

theorem agree_moves {i e : ℕ} {slli slli' srli srli' : Stream → ℕ → Stream} {m n mk nk s t : Stream}
    (hslli : ShiftsAgree vectorWidth (2 ^ e) slli slli')
    (hsrli : ShiftsAgree vectorWidth (2 ^ e) srli srli') (hm : Agree vectorWidth m n)
    (hmk : Agree vectorWidth mk nk) (hs : Agree vectorWidth s t) :
    Agree vectorWidth (moves srli i (moveMasks slli srli (2 ^ e) (2 ^ i) m mk) s)
      (moves srli' i (moveMasks slli' srli' (2 ^ e) (2 ^ i) n nk) t) := by
  by_cases hloop : 0 < 2 ^ i ∧ 2 ^ i < 2 ^ e
  · have hmp := agree_parallelPrefixXor 1 hslli hmk
    have hmv := hmp.and hm
    have ht := hs.and hmv
    have hlt : i < e := (Nat.pow_lt_pow_iff_right (by decide)).1 hloop.2
    rw [moveMasks_of hloop, moveMasks_of hloop, ← pow_succ]
    exact agree_moves hslli hsrli ((agree_xor hm hmv).or (hsrli _ _ _ hloop.2 hmv))
      (hmk.and (agree_not hmp)) ((agree_xor hs ht).or (hsrli _ _ _ hloop.2 ht))
  · rw [moveMasks_end hloop, moveMasks_end hloop]
    exact hs
termination_by e - i

/-- The shifts as compiled are those of the fields for the native widths, and for a single
field. -/
theorem simd_slli_agrees (hdvd : 2 ^ e ∣ vectorWidth) (he : e ≤ 6 ∨ vectorWidth = 2 ^ e) :
    ShiftsAgree vectorWidth (2 ^ e) (simd_slli vectorWidth (2 ^ e)) (createShl (2 ^ e)) := by
  intro x y n hn hx
  refine Agree.trans ((simd_slli_iff hdvd hn).2 ?_) fun p hp ↦ ?_
  · refine he.imp_right fun hone p hp hle hlow _ ↦ ?_
    rw [Nat.mod_eq_of_lt (hone ▸ hp)] at hlow
    omega
  · rw [createShl, createShl, hx _ (by omega)]

theorem simd_srli_agrees (hdvd : 2 ^ e ∣ vectorWidth) (he : e ≤ 6 ∨ vectorWidth = 2 ^ e) :
    ShiftsAgree vectorWidth (2 ^ e) (simd_srli vectorWidth (2 ^ e)) (createLShr (2 ^ e)) := by
  intro x y n hn hx
  refine Agree.trans ((simd_srli_iff hdvd hn).2 ?_) fun p hp ↦ ?_
  · refine he.imp_right fun hone p hp hlt hhigh _ ↦ ?_
    rw [Nat.mod_eq_of_lt (hone ▸ hp)] at hhigh
    omega
  · have hroom := mod_room hdvd (Nat.zero_lt_of_lt hp) p
    rw [Nat.mod_eq_of_lt hp] at hroom
    rw [createLShr, createLShr]
    by_cases hin : p % 2 ^ e + n < 2 ^ e
    · rw [hx _ (by omega)]
    · rw [decide_eq_false hin, Bool.false_and, Bool.false_and]

theorem parallel_prefix_deletion_agrees (hdvd : 2 ^ (k + 1) ∣ vectorWidth)
    (he : k + 1 ≤ 6 ∨ vectorWidth = 2 ^ (k + 1)) (v m : Stream) :
    Agree vectorWidth (parallel_prefix_deletion (2 ^ (k + 1)) vectorWidth (simd_not m) v)
      (IDISA.simd_pext (2 ^ (k + 1)) v m) := by
  have hslli := simd_slli_agrees hdvd he
  have hone : 1 < 2 ^ (k + 1) := Nat.one_lt_two_pow (Nat.succ_ne_zero k)
  rw [← moves_eq_pext, parallel_prefix_deletion, apply_parallel_prefix_deletion,
    parallel_prefix_deletion_masks, simd_not_not]
  exact agree_moves (i := 0) hslli (simd_srli_agrees hdvd he) (Agree.refl m)
    (hslli _ _ _ hone (Agree.refl _)) (Agree.refl _)

end Agreement

section Wide

variable {vectorWidth e : ℕ} {x m mk s : Stream}

/-- Shifted zeros are zeros. -/
theorem slli_zeros {n : ℕ} (hdvd : 2 ^ e ∣ vectorWidth) (he : 6 < e) (hn : 0 < n ∧ n < 2 ^ e)
    (hx : Agree vectorWidth x fun _ ↦ false) :
    Agree vectorWidth (simd_slli vectorWidth (2 ^ e) x n) fun _ ↦ false := fun p hp ↦ by
  rw [simd_slli_wide hdvd he hn.1 hn.2 hp, hx _ (by omega), Bool.and_false]

theorem srli_zeros {n p : ℕ} (hdvd : 2 ^ e ∣ vectorWidth) (he : 6 < e) (hn : 0 < n ∧ n < 2 ^ e)
    (hx : Agree vectorWidth x fun _ ↦ false) (hp : p < vectorWidth) :
    simd_srli vectorWidth (2 ^ e) x n p = false := by
  have hroom := mod_room hdvd (Nat.zero_lt_of_lt hp) p
  rw [Nat.mod_eq_of_lt hp] at hroom
  rw [simd_srli_wide hdvd he hn.1 hn.2 hp, Bool.and_eq_false_imp, decide_eq_true_eq]
  intro hin
  exact hx _ (by omega)

theorem parallelPrefixXor_zeros {lookright : ℕ} {mp : Stream} (hdvd : 2 ^ e ∣ vectorWidth)
    (he : 6 < e) (hx : Agree vectorWidth mp fun _ ↦ false) :
    Agree vectorWidth (parallelPrefixXor (simd_slli vectorWidth (2 ^ e)) (2 ^ e) lookright mp)
      fun _ ↦ false := by
  by_cases hloop : 0 < lookright ∧ lookright < 2 ^ e
  · rw [parallelPrefixXor_of hloop]
    exact parallelPrefixXor_zeros hdvd he (agree_xor hx (slli_zeros hdvd he hloop hx))
  · rw [parallelPrefixXor_end hloop]
    exact hx
termination_by 2 ^ e - lookright

/-- Without marks nothing is moved. -/
theorem moves_stop {i : ℕ} {m mk s : Stream} (hdvd : 2 ^ e ∣ vectorWidth) (he : 6 < e)
    (hmore : 2 ^ e < vectorWidth) (hmk : Agree vectorWidth mk fun _ ↦ false)
    (hs : s (2 ^ e) = false) :
    moves (simd_srli vectorWidth (2 ^ e)) i (moveMasks (simd_slli vectorWidth (2 ^ e))
      (simd_srli vectorWidth (2 ^ e)) (2 ^ e) (2 ^ i) m mk) s (2 ^ e) = false := by
  by_cases hloop : 0 < 2 ^ i ∧ 2 ^ i < 2 ^ e
  · have hlt : i < e := (Nat.pow_lt_pow_iff_right (by decide)).1 hloop.2
    have hmp : Agree vectorWidth (parallelPrefixXor (simd_slli vectorWidth (2 ^ e)) (2 ^ e) 1 mk)
        fun _ ↦ false := parallelPrefixXor_zeros hdvd he hmk
    have ht : Agree vectorWidth (simd_and s (simd_and (parallelPrefixXor
        (simd_slli vectorWidth (2 ^ e)) (2 ^ e) 1 mk) m)) fun _ ↦ false := fun p hp ↦ by
      rw [simd_and, simd_and, hmp p hp, Bool.false_and, Bool.and_false]
    rw [moveMasks_of hloop, ← pow_succ, moves]
    refine moves_stop hdvd he hmore (fun p hp ↦ ?_) ?_
    · rw [simd_and, hmk p hp, Bool.false_and]
    · rw [simd_or, simd_xor, hs, ht _ hmore, srli_zeros hdvd he hloop ht hmore]
      rfl
  · rw [moveMasks_end hloop, moves]
    exact hs
termination_by e - i

/-- The parity of a bit at the start of the second field. -/
theorem parallelPrefixXor_second {lookright : ℕ} {mp : Stream} (hdvd : 2 ^ e ∣ vectorWidth)
    (he : 6 < e) (hmore : 2 ^ e < vectorWidth) (hlow : ∀ x < 2 ^ e, mp x = false)
    (hone : mp (2 ^ e) = true) :
    parallelPrefixXor (simd_slli vectorWidth (2 ^ e)) (2 ^ e) lookright mp (2 ^ e) = true := by
  by_cases hloop : 0 < lookright ∧ lookright < 2 ^ e
  · rw [parallelPrefixXor_of hloop]
    refine parallelPrefixXor_second hdvd he hmore (fun x hx ↦ ?_) ?_
    · rw [simd_xor, simd_slli_wide hdvd he hloop.1 hloop.2 (hx.trans hmore), hlow x hx,
        hlow _ (by omega), Bool.and_false]
      rfl
    · rw [simd_xor, simd_slli_wide hdvd he hloop.1 hloop.2 hmore, hone, hlow _ (by omega),
        Bool.and_false]
      rfl
  · rw [parallelPrefixXor_end hloop]
    exact hone
termination_by 2 ^ e - lookright

/-- The mark of the last bit of a field comes to the next one. -/
theorem marks_second (hdvd : 2 ^ e ∣ vectorWidth) (he : 6 < e) :
    Agree vectorWidth (simd_slli vectorWidth (2 ^ e) (· == 2 ^ e - 1) 1) (· == 2 ^ e) := by
  have hwide : 2 ^ 7 ≤ 2 ^ e := Nat.pow_le_pow_right Nat.two_pos he
  have hlane : 2 ^ e % 64 = 0 := Nat.mod_eq_zero_of_dvd (Nat.pow_dvd_pow 2 (m := 6) he.le)
  intro p hp
  rw [simd_slli_wide hdvd he Nat.one_pos (by omega) hp]
  by_cases hsecond : p = 2 ^ e
  · rw [decide_eq_true (Or.inr ⟨by omega, by omega⟩), Bool.true_and, hsecond]
    exact (beq_self_eq_true _).trans (beq_self_eq_true _).symm
  · refine Eq.trans ?_ (beq_eq_false_iff_ne.2 hsecond).symm
    rw [Bool.and_eq_false_imp, decide_eq_true_eq]
    intro hin
    exact beq_eq_false_iff_ne.2 (by omega)

/-- A bit deleted at the end of a field moves the first bit of the next one out of it. -/
theorem deletion_second (hdvd : 2 ^ e ∣ vectorWidth) (he : 6 < e) (hmore : 2 ^ e < vectorWidth) :
    parallel_prefix_deletion (2 ^ e) vectorWidth (· == 2 ^ e - 1) (· == 2 ^ e) (2 ^ e) = false := by
  have hwide : 2 ^ 7 ≤ 2 ^ e := Nat.pow_le_pow_right Nat.two_pos he
  have hone : 0 < 1 ∧ 1 < 2 ^ e := ⟨Nat.one_pos, by omega⟩
  have hmk := marks_second hdvd he
  have hmp : parallelPrefixXor (simd_slli vectorWidth (2 ^ e)) (2 ^ e) 1
      (simd_slli vectorWidth (2 ^ e) (· == 2 ^ e - 1) 1) (2 ^ e) = true :=
    parallelPrefixXor_second hdvd he hmore
      (fun x hx ↦ (hmk x (hx.trans hmore)).trans (beq_eq_false_iff_ne.2 hx.ne))
      ((hmk _ hmore).trans (beq_self_eq_true _))
  have hkept : (2 ^ e == 2 ^ e - 1) = false := beq_eq_false_iff_ne.2 (by omega)
  have hnext : (2 ^ e + 1 == 2 ^ e) = false := beq_eq_false_iff_ne.2 (by omega)
  rw [parallel_prefix_deletion, apply_parallel_prefix_deletion, parallel_prefix_deletion_masks,
    moveMasks_of hone, moves]
  refine moves_stop (i := 1) hdvd he hmore (fun p hp ↦ ?_) ?_
  · rw [simd_and, simd_not, hmk p hp]
    by_cases hsecond : p = 2 ^ e
    · rw [hsecond, hmp]
      exact Bool.and_false _
    · exact Bool.and_eq_false_imp.2 fun h ↦ absurd (beq_iff_eq.1 h) hsecond
  · rw [simd_or, simd_xor, pow_zero, simd_srli_wide hdvd he hone.1 hone.2 hmore]
    simp only [simd_and, simd_not, hmp, hkept, hnext, beq_self_eq_true, Bool.not_false,
      Bool.and_true, Bool.xor_self, Bool.false_and, Bool.and_false, Bool.or_false]

theorem pext_second {k : ℕ} :
    IDISA.simd_pext (2 ^ (k + 1)) (· == 2 ^ (k + 1)) (simd_not (· == 2 ^ (k + 1) - 1))
      (2 ^ (k + 1)) = true := by
  have hpos := Nat.two_pow_pos (k + 1)
  have hkept : (2 ^ (k + 1) == 2 ^ (k + 1) - 1) = false := beq_eq_false_iff_ne.2 (by omega)
  have hfirst : 2 ^ (k + 1) * 1 + 0 = 2 ^ (k + 1) := Nat.mul_one _
  have hbit := simd_pext_apply (k := k) (i := 1) (m := simd_not (· == 2 ^ (k + 1) - 1))
    (v := (· == 2 ^ (k + 1))) hpos
  rw [hfirst] at hbit
  have hget : (compress (simd_not (· == 2 ^ (k + 1) - 1)) (· == 2 ^ (k + 1)) (2 ^ (k + 1) * 1)
      (2 ^ (k + 1)))[0]? = some true := by
    refine getElem?_compress_eq_some.2 ⟨0, hpos, ?_, rfl, ?_⟩
    · rw [hfirst, simd_not, hkept]
      rfl
    · rw [hfirst]
      exact beq_self_eq_true _
  rw [hbit, selected, List.getD_eq_getElem?_getD, hget]
  rfl

end Wide

section Exact

variable {vectorWidth k : ℕ}

/-- The bits that a mask selects are extracted to the low ends of the fields and deposited from
them, whatever a shift by the whole width would give. The deletion of the other bits is the
extraction for the fields of up to 64 bits and for a single field; with several wider fields a
bit may be moved into another one. -/
theorem deletion_exact (hdvd : 2 ^ (k + 1) ∣ vectorWidth) (hpos : 0 < vectorWidth)
    (BENCH_GENERIC_SHIFT4 : Bool) (poison : ℕ → ℕ) :
    (∀ v m, ∀ i < vectorWidth / 2 ^ (k + 1),
      field (2 ^ (k + 1)) (simd_pext vectorWidth BENCH_GENERIC_SHIFT4 poison (2 ^ (k + 1)) v m) i =
        ofDigits (selected m v (2 ^ (k + 1)) i)) ∧
    (∀ v m, ∀ p < vectorWidth,
      simd_pdep vectorWidth BENCH_GENERIC_SHIFT4 poison (2 ^ (k + 1)) v m p =
        (m p && v (IDISA.sourceBit (2 ^ (k + 1)) m p))) ∧
    (∀ v m, ∀ p < vectorWidth,
      simd_pdep vectorWidth BENCH_GENERIC_SHIFT4 poison (2 ^ (k + 1))
        (simd_pext vectorWidth BENCH_GENERIC_SHIFT4 poison (2 ^ (k + 1)) v m) m p =
          (m p && v p)) ∧
    (∀ v m, ∀ p < vectorWidth,
      simd_pext vectorWidth BENCH_GENERIC_SHIFT4 poison (2 ^ (k + 1))
        (simd_pdep vectorWidth BENCH_GENERIC_SHIFT4 poison (2 ^ (k + 1)) v m) m p =
          (decide (p % 2 ^ (k + 1) <
            pop m (2 ^ (k + 1) * (p / 2 ^ (k + 1))) (2 ^ (k + 1))) && v p)) ∧
    ((∀ v m, ∀ p < vectorWidth,
      parallel_prefix_deletion (2 ^ (k + 1)) vectorWidth (simd_not m) v p =
        simd_pext vectorWidth BENCH_GENERIC_SHIFT4 poison (2 ^ (k + 1)) v m p) ↔
      2 ^ (k + 1) ≤ 64 ∨ vectorWidth = 2 ^ (k + 1)) := by
  have hpext (v m : Stream) : Agree vectorWidth (simd_pext vectorWidth BENCH_GENERIC_SHIFT4
      poison (2 ^ (k + 1)) v m) (IDISA.simd_pext (2 ^ (k + 1)) v m) :=
    agree_simd_pext hdvd (Agree.refl v)
  have hpdep (v m : Stream) : Agree vectorWidth (simd_pdep vectorWidth BENCH_GENERIC_SHIFT4
      poison (2 ^ (k + 1)) v m) (IDISA.simd_pdep (2 ^ (k + 1)) v m) :=
    agree_simd_pdep hdvd (Agree.refl v)
  have hnarrow : 2 ^ (k + 1) ≤ 64 ↔ k + 1 ≤ 6 :=
    Nat.pow_le_pow_iff_right (a := 2) (m := 6) (by decide)
  refine ⟨fun v m i hi ↦ ?_, fun v m p hp ↦ ?_, fun v m p hp ↦ ?_, fun v m p hp ↦ ?_, ?_, ?_⟩
  · rw [(IDISA.IDISA_Builder.agree_iff hdvd).1 (hpext v m) i hi, IDISA.field_simd_pext]
  · rw [hpdep v m p hp, IDISA.simd_pdep_apply]
  · rw [agree_simd_pdep hdvd (hpext v m) p hp, pdep_pext_apply]
  · rw [agree_simd_pext hdvd (hpdep v m) p hp, pext_pdep_apply]
  · intro h
    rw [hnarrow]
    by_contra hwide
    rw [not_or, not_le] at hwide
    have hmore : 2 ^ (k + 1) < vectorWidth :=
      Nat.lt_of_le_of_ne (Nat.le_of_dvd hpos hdvd) (Ne.symm hwide.2)
    have hbit := h (· == 2 ^ (k + 1)) (simd_not (· == 2 ^ (k + 1) - 1)) _ hmore
    rw [simd_not_not, deletion_second hdvd hwide.1 hmore, hpext _ _ _ hmore, pext_second] at hbit
    exact absurd hbit Bool.false_ne_true
  · intro hright v m p hp
    rw [hnarrow] at hright
    rw [parallel_prefix_deletion_agrees hdvd hright v m p hp, hpext v m p hp]

/-- The bytes of a vector without the bits of a mask. -/
theorem deletion_exact_bytes :
    parallel_prefix_deletion (2 ^ 3) 128 (simd_not (· % 3 == 0)) (fun _ ↦ true) 9 =
      simd_pext 128 false (fun _ ↦ 0) (2 ^ 3) (fun _ ↦ true) (· % 3 == 0) 9 :=
  (deletion_exact (k := 2) (by decide) (by decide) false fun _ ↦ 0).2.2.2.2.2
    (Or.inl (by decide)) _ _ 9 (by decide)

/-- With two fields of 128 bits, the first bit of the second one gets lost. -/
theorem deletion_leaves_field :
    parallel_prefix_deletion (2 ^ 7) 256 (simd_not (simd_not (· == 127))) (· == 128) 128 = false ∧
      simd_pext 256 false (fun _ ↦ 0) (2 ^ 7) (· == 128) (simd_not (· == 127)) 128 = true := by
  refine ⟨?_, ?_⟩
  · rw [simd_not_not]
    exact deletion_second (e := 7) (by decide) (by decide) (by decide)
  · rw [agree_simd_pext (k := 6) (by decide) (Agree.refl _) 128 (by decide)]
    exact pext_second (k := 6)

end Exact

end Parabix.Streamutils
