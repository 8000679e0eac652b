import Mathlib.Data.List.GetD
import Mathlib.Tactic.Common

namespace Parabix.Library.BitStream

/-- Bits by their position. -/
abbrev Stream := ℕ → Bool

section Blocks

variable {w : ℕ}

/-- The stream of a sequence of blocks, with zeros after the last one. -/
def ofBlocks (xs : List (BitVec w)) : Stream := fun p ↦ (xs.getD (p / w) 0).getLsbD (p % w)

theorem ofBlocks_cons_lt {x : BitVec w} {xs : List (BitVec w)} {p : ℕ} (hp : p < w) :
    ofBlocks (x :: xs) p = x.getLsbD p := by
  rw [ofBlocks, Nat.div_eq_of_lt hp, Nat.mod_eq_of_lt hp, List.getD_cons_zero]

theorem ofBlocks_cons_add (hw : 0 < w) (x : BitVec w) (xs : List (BitVec w)) (p : ℕ) :
    ofBlocks (x :: xs) (w + p) = ofBlocks xs p := by
  rw [ofBlocks, ofBlocks, Nat.add_div_left p hw, Nat.add_mod_left, List.getD_cons_succ]

theorem ofBlocks_ge {xs : List (BitVec w)} {p : ℕ} (h : w * xs.length ≤ p) :
    ofBlocks xs p = false := by
  rcases Nat.eq_zero_or_pos w with rfl | hw
  · simp [ofBlocks]
  · have hd : xs.length ≤ p / w := (Nat.le_div_iff_mul_le hw).mpr (by rwa [Nat.mul_comm])
    rw [ofBlocks, List.getD_eq_default _ _ hd]
    exact BitVec.getLsbD_zero

/-- Sequences of equally many blocks are equal iff their streams are. -/
theorem ofBlocks_inj (hw : 0 < w) {xs ys : List (BitVec w)} (hl : xs.length = ys.length) :
    xs = ys ↔ ∀ p < w * xs.length, ofBlocks xs p = ofBlocks ys p := by
  refine ⟨fun h _ _ ↦ by rw [h], fun h ↦ ?_⟩
  induction xs generalizing ys with
  | nil => exact (List.length_eq_zero_iff.mp hl.symm).symm
  | cons x xs ih =>
    cases ys with
    | nil => cases hl
    | cons y ys =>
      rw [List.length_cons, Nat.mul_succ] at h
      congr 1
      · apply BitVec.eq_of_getLsbD_eq
        intro i hi
        have hx := h i (by omega)
        rwa [ofBlocks_cons_lt hi, ofBlocks_cons_lt hi] at hx
      · apply ih (Nat.succ.inj hl)
        intro p hp
        have hx := h (w + p) (by omega)
        rwa [ofBlocks_cons_add hw, ofBlocks_cons_add hw] at hx

end Blocks

section Advance

/-- A stream shifted forward, with zeros shifted in. -/
def advance (n : ℕ) (s : Stream) : Stream := fun p ↦ if p < n then false else s (p - n)

variable {w : ℕ}

/-- A block of a shifted sequence of blocks: the end of one block and the start of the next. -/
def advanceBlock (n : ℕ) (xs : List (BitVec w)) (k : ℕ) : BitVec w :=
  (if k < n / w then 0 else xs.getD (k - n / w) 0 <<< (n % w)) |||
    if k < n / w + 1 then 0 else xs.getD (k - n / w - 1) 0 >>> (w - n % w)

def advanceBlocks (n : ℕ) (xs : List (BitVec w)) : List (BitVec w) :=
  (List.range xs.length).map (advanceBlock n xs)

@[simp] theorem length_advanceBlocks (n : ℕ) (xs : List (BitVec w)) :
    (advanceBlocks n xs).length = xs.length := by
  rw [advanceBlocks, List.length_map, List.length_range]

theorem getLsbD_advanceBlock (hw : 0 < w) (n : ℕ) (xs : List (BitVec w)) (k : ℕ) {i : ℕ}
    (hi : i < w) : (advanceBlock n xs k).getLsbD i = advance n (ofBlocks xs) (w * k + i) := by
  obtain ⟨d, hd⟩ : ∃ d, n / w = d := ⟨_, rfl⟩
  obtain ⟨r, hr⟩ : ∃ r, n % w = r := ⟨_, rfl⟩
  have hrw : r < w := hr ▸ Nat.mod_lt n hw
  have hn : n = w * d + r := by rw [← hd, ← hr, Nat.div_add_mod]
  rw [advanceBlock, hd, hr, BitVec.getLsbD_or]
  unfold advance ofBlocks
  by_cases hkd : k < d
  · have hle := Nat.mul_le_mul_left w (Nat.succ_le_of_lt hkd)
    rw [Nat.mul_succ] at hle
    rw [if_pos hkd, if_pos (Nat.lt_succ_of_lt hkd),
      if_pos (show w * k + i < n by omega)]
    simp
  · obtain ⟨e, rfl⟩ : ∃ e, k = d + e := ⟨k - d, by omega⟩
    rw [Nat.mul_add, if_neg hkd, Nat.add_sub_cancel_left]
    by_cases hir : r ≤ i
    · -- the bit comes from the later of the two blocks
      have hsh : w * d + w * e + i - n = i - r + w * e := by omega
      have hz : (if d + e < d + 1 then (0 : BitVec w) else xs.getD (e - 1) 0 >>> (w - r)).getLsbD i
          = false := by
        split_ifs
        · exact BitVec.getLsbD_zero
        · rw [BitVec.getLsbD_ushiftRight]
          exact BitVec.getLsbD_of_ge _ _ (by omega)
      rw [hz, Bool.or_false, if_neg (show ¬w * d + w * e + i < n by omega), hsh,
        Nat.add_mul_div_left _ _ hw, Nat.add_mul_mod_self_left, Nat.div_eq_of_lt (by omega),
        Nat.mod_eq_of_lt (by omega), Nat.zero_add, BitVec.getLsbD_shiftLeft, decide_eq_true hi,
        decide_eq_false (show ¬i < r by omega)]
      rfl
    · have hz : (xs.getD e 0 <<< r).getLsbD i = false := by
        rw [BitVec.getLsbD_shiftLeft, decide_eq_true (show i < r by omega)]
        simp
      rw [hz, Bool.false_or]
      cases e with
      | zero =>
        rw [if_pos (show d + 0 < d + 1 by omega),
          if_pos (show w * d + w * 0 + i < n by omega)]
        exact BitVec.getLsbD_zero
      | succ e =>
        have hsh : w * d + (w * e + w) + i - n = w - r + i + w * e := by omega
        rw [Nat.mul_succ, if_neg (show ¬d + (e + 1) < d + 1 by omega),
          if_neg (show ¬w * d + (w * e + w) + i < n by omega), hsh, Nat.add_mul_div_left _ _ hw,
          Nat.add_mul_mod_self_left, Nat.div_eq_of_lt (by omega), Nat.mod_eq_of_lt (by omega),
          Nat.zero_add, BitVec.getLsbD_ushiftRight, Nat.add_sub_cancel]

theorem ofBlocks_advanceBlocks (hw : 0 < w) (n : ℕ) (xs : List (BitVec w)) {p : ℕ}
    (hp : p < w * xs.length) :
    ofBlocks (advanceBlocks n xs) p = advance n (ofBlocks xs) p := by
  have hk : p / w < xs.length := Nat.div_lt_of_lt_mul hp
  have hi : p % w < w := Nat.mod_lt p hw
  rw [ofBlocks, List.getD_eq_getElem _ _ (by rw [length_advanceBlocks]; exact hk)]
  simp only [advanceBlocks, List.getElem_map, List.getElem_range]
  rw [getLsbD_advanceBlock hw n xs _ hi, Nat.div_add_mod]

end Advance

section Carry

variable {a b t : Stream} {c : Bool}

/-- The carry into each position of a sum. -/
def carry (a b : Stream) (c : Bool) : Stream
  | 0 => c
  | p + 1 => Bool.atLeastTwo (a p) (b p) (carry a b c p)

/-- The sum of two streams. -/
def sum (a b : Stream) (c : Bool) : Stream := fun p ↦ a p ^^ (b p ^^ carry a b c p)

theorem carry_succ (a b : Stream) (c : Bool) (p : ℕ) :
    carry a b c (p + 1) = Bool.atLeastTwo (a p) (b p) (carry a b c p) :=
  rfl

/-- A sum can be continued from any position, with the carry into it. -/
theorem carry_add (a b : Stream) (c : Bool) (n p : ℕ) : carry a b c (n + p) =
    carry (fun i ↦ a (n + i)) (fun i ↦ b (n + i)) (carry a b c n) p := by
  induction p with
  | zero => rfl
  | succ p ih => rw [← Nat.add_assoc, carry_succ, carry_succ, ih]

theorem carry_congr {a' b' : Stream} {n : ℕ} (ha : ∀ i < n, a i = a' i) (hb : ∀ i < n, b i = b' i)
    (c : Bool) : carry a b c n = carry a' b' c n := by
  induction n with
  | zero => rfl
  | succ n ih =>
    rw [carry_succ, carry_succ, ha n (Nat.lt_succ_self n), hb n (Nat.lt_succ_self n),
      ih (fun i hi ↦ ha i (by omega)) fun i hi ↦ hb i (by omega)]

theorem sum_congr {a' b' : Stream} {p : ℕ} (ha : ∀ i ≤ p, a i = a' i) (hb : ∀ i ≤ p, b i = b' i)
    (c : Bool) : sum a b c p = sum a' b' c p := by
  rw [sum, sum, ha p (Nat.le_refl p), hb p (Nat.le_refl p),
    carry_congr (fun i hi ↦ ha i (Nat.le_of_lt hi)) fun i hi ↦ hb i (Nat.le_of_lt hi)]

/-- Adding `a` to a stream that covers it: each run of `t` after a bit of `a` is crossed. -/
theorem carry_or (a t : Stream) (p : ℕ) : carry a (fun i ↦ a i || t i) false p = true ↔
    ∃ q < p, a q = true ∧ ∀ j, q < j → j < p → t j = true := by
  induction p with
  | zero => simp [carry]
  | succ p ih =>
    rw [carry_succ]
    constructor
    · intro h
      cases ha : a p with
      | true => exact ⟨p, Nat.lt_succ_self p, ha, fun j h1 h2 ↦ absurd h2 (by omega)⟩
      | false =>
        simp only [ha, Bool.false_or, Bool.atLeastTwo_false_left, Bool.and_eq_true] at h
        obtain ⟨q, hq, haq, hall⟩ := ih.mp h.2
        refine ⟨q, by omega, haq, fun j h1 h2 ↦ ?_⟩
        rcases Nat.lt_succ_iff_lt_or_eq.mp h2 with h3 | rfl
        · exact hall j h1 h3
        · exact h.1
    · rintro ⟨q, hq, haq, hall⟩
      rcases Nat.lt_succ_iff_lt_or_eq.mp hq with hlt | rfl
      · have hc := ih.mpr ⟨q, hlt, haq, fun j h1 h2 ↦ hall j h1 (by omega)⟩
        rw [hc, hall p hlt (Nat.lt_succ_self p)]
        simp
      · rw [haq]
        simp

/-- A carry crosses a run of `t` from each bit of `a` in it, as long as no bit of `a` lies
where a carry leaves a run. -/
theorem carry_eq_of_apart {n : ℕ}
    (h : ∀ p < n, a p = true → t p = false → ∀ q < p, a q = true →
      ¬∀ j, q ≤ j → j < p → t j = true) {p : ℕ} (hp : p ≤ n) :
    carry a t false p = true ↔ ∃ q < p, a q = true ∧ ∀ j, q ≤ j → j < p → t j = true := by
  induction p with
  | zero => simp [carry]
  | succ p ih =>
    have ih' := ih (by omega)
    rw [carry_succ]
    cases ht : t p with
    | true =>
      simp only [Bool.atLeastTwo_true_mid, Bool.or_eq_true, ih']
      constructor
      · intro hor
        rcases hor with ha | ⟨q, hq, haq, hall⟩
        · refine ⟨p, Nat.lt_succ_self p, ha, fun j h1 h2 ↦ ?_⟩
          rwa [show j = p by omega]
        · refine ⟨q, by omega, haq, fun j h1 h2 ↦ ?_⟩
          rcases Nat.lt_succ_iff_lt_or_eq.mp h2 with h3 | rfl
          · exact hall j h1 h3
          · exact ht
      · rintro ⟨q, hq, haq, hall⟩
        rcases Nat.lt_succ_iff_lt_or_eq.mp hq with hlt | rfl
        · exact .inr ⟨q, hlt, haq, fun j h1 h2 ↦ hall j h1 (by omega)⟩
        · exact .inl haq
    | false =>
      simp only [Bool.atLeastTwo_false_mid, Bool.and_eq_true, ih']
      constructor
      · rintro ⟨ha, q, hq, haq, hall⟩
        exact absurd hall (h p (by omega) ha ht q hq haq)
      · rintro ⟨q, hq, haq, hall⟩
        have hlast := hall p (by omega) (Nat.lt_succ_self p)
        rw [ht] at hlast
        cases hlast

end Carry

section Add

variable {w : ℕ}

/-- A carry as a block: only its first bit may be set. -/
def carryBlock (w : ℕ) (c : Bool) : BitVec w := BitVec.setWidth w (BitVec.ofBool c)

theorem carry_getLsbD (x y : BitVec w) (c : Bool) (p : ℕ) :
    carry x.getLsbD y.getLsbD c p = BitVec.carry p x y c := by
  induction p with
  | zero => rw [BitVec.carry_zero, carry]
  | succ p ih => rw [BitVec.carry_succ, carry, ih]

theorem getLsbD_add_carryBlock (x y : BitVec w) (c : Bool) {p : ℕ} (hp : p < w) :
    (x + y + carryBlock w c).getLsbD p = sum x.getLsbD y.getLsbD c p := by
  rw [carryBlock, BitVec.getLsbD_add_add_bool hp, sum, carry_getLsbD]

end Add

end Parabix.Library.BitStream
