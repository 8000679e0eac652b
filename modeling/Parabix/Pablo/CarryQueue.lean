import Mathlib.Data.Nat.ModEq
import Parabix.Pablo.IndexedFields

namespace Parabix.Pablo

open Library Library.DelayLine

section Geometry

/-- The queue of an advance by more than a block: `n` is `m` blocks and `r` bits more. -/
structure QueueSize (n w m r : ℕ) : Prop where
  amount : n = w * m + r
  pos : 0 < r
  le : r ≤ w
  blocks : ceil_udiv n w = m + 1
  room : m + 2 ≤ carryQueueBlocks n w
  dvd : w * carryQueueBlocks n w ∣ sizeMax

theorem queueSize {n j w : ℕ} (hn : 0 < n) (hmax : n ≤ 2 ^ 31) (hj : j ≤ 31) (hw : w = 2 ^ j) :
    ∃ m r, QueueSize n w m r := by
  have hpos : 0 < w := hw ▸ Nat.two_pow_pos j
  have hle : w ≤ 2 ^ 31 := hw ▸ Nat.pow_le_pow_right (by omega) hj
  have hdiv := Nat.div_add_mod (n - 1) w
  have hmod := Nat.mod_lt (n - 1) hpos
  have hblocks : ceil_udiv n w = (n - 1) / w + 1 := by
    subst hw
    exact ceil_udiv_eq hn (by omega)
  generalize (n - 1) / w = m at hdiv hblocks
  refine ⟨m, (n - 1) % w + 1, by omega, by omega, by omega, hblocks, ?_, ?_⟩
  · have := le_nearest_pow2 (1 + ceil_udiv n w)
    rw [carryQueueBlocks]
    omega
  · obtain ⟨t, ht⟩ := nearest_pow2_eq_pow (1 + ceil_udiv n w)
    have hlt := nearest_pow2_lt (v := 1 + ceil_udiv n w) (by omega)
    have hmul : w * nearest_pow2 (1 + ceil_udiv n w) ≤ w * (2 * (m + 2)) :=
      Nat.mul_le_mul_left _ (by omega)
    have hbound : w * (2 * (m + 2)) = 2 * (w * m) + 4 * w := by
      rw [Nat.mul_left_comm, Nat.mul_add, Nat.mul_add]
      omega
    have hprod : w * nearest_pow2 (1 + ceil_udiv n w) = 2 ^ (j + t) := by
      rw [ht, hw, Nat.pow_add]
    have hsmall : 2 ^ (j + t) < 2 ^ 64 := by omega
    rw [carryQueueBlocks, hprod, sizeMax]
    exact Nat.pow_dvd_pow _ (Nat.le_of_lt ((Nat.pow_lt_pow_iff_right (by omega)).1 hsmall))

variable {n w m r : ℕ}

theorem loEntry_mod (h : QueueSize n w m r) (p : ℕ) :
    loEntry n w (p % sizeMax) = (p / w % carryQueueBlocks n w, p % w) := by
  obtain ⟨c, hc⟩ := h.dvd
  rw [Nat.mul_assoc] at hc
  rw [loEntry, hc, Nat.mod_mul_right_div_self, Nat.mod_mod_of_dvd _ (Nat.dvd_mul_right ..),
    Nat.mod_mod_of_dvd _ (Nat.dvd_mul_right ..)]

/-- The last bit of a block from bit `s` of block `b` on is in the next block, unless `s` is 0. -/
theorem end_cases {w b s : ℕ} (hs : s < w) :
    (w * b + s + (w - 1)) / w = (if s = 0 then b else b + 1) ∧
      w - 1 - (w * b + s + (w - 1)) % w = if s = 0 then 0 else w - s := by
  split_ifs with h0
  · subst h0
    rw [Nat.add_zero, Nat.mul_add_div (by omega), Nat.mul_add_mod, Nat.div_eq_of_lt (by omega),
      Nat.mod_eq_of_lt (by omega)]
    omega
  · rw [show w * b + s + (w - 1) = w * (b + 1) + (s - 1) by rw [Nat.mul_add]; omega,
      Nat.mul_add_div (by omega), Nat.mul_add_mod, Nat.div_eq_of_lt (by omega),
      Nat.mod_eq_of_lt (by omega)]
    omega

theorem loEntry_eq (h : QueueSize n w m r) {b s : ℕ} (hs : s < w) :
    loEntry n w ((w * b + s) % sizeMax) = (b % carryQueueBlocks n w, s) := by
  rw [loEntry_mod h, Nat.mul_add_div (by omega), Nat.mul_add_mod, Nat.div_eq_of_lt hs,
    Nat.mod_eq_of_lt hs, Nat.add_zero]

theorem hiEntry_eq (h : QueueSize n w m r) {b s : ℕ} (hs : s < w) :
    hiEntry n w ((w * b + s) % sizeMax) =
      ((if s = 0 then b else b + 1) % carryQueueBlocks n w, if s = 0 then 0 else w - s) := by
  have hlo := loEntry_mod h (w * b + s + (w - 1))
  obtain ⟨h1, h2⟩ := end_cases (b := b) hs
  simp only [loEntry, Prod.mk.injEq] at hlo
  rw [hiEntry, Nat.mod_add_mod, hlo.1, hlo.2, h1, h2]

end Geometry

section Queue

variable {n w m r : ℕ} {st : IndexedState w}

/-- The bit of the queue at a position. -/
def queueBit (n : ℕ) (st : IndexedState w) (x : ℕ) : Bool :=
  (st.carries (x / w % carryQueueBlocks n w)).getLsbD (x % w)

theorem queueBit_eq (n : ℕ) (st : IndexedState w) {d e : ℕ} (he : e < w) :
    queueBit n st (w * d + e) = (st.carries (d % carryQueueBlocks n w)).getLsbD e := by
  rw [queueBit, Nat.mul_add_div (by omega), Nat.mul_add_mod, Nat.div_eq_of_lt he,
    Nat.mod_eq_of_lt he, Nat.add_zero]

theorem exists_block {w : ℕ} (hw : 0 < w) (x : ℕ) : ∃ d e, x = w * d + e ∧ e < w :=
  ⟨x / w, x % w, (Nat.div_add_mod x w).symm, Nat.mod_lt x hw⟩

theorem getLsbD_loadQueue (h : QueueSize n w m r) (st : IndexedState w) {p k : ℕ} (hk : k < w) :
    (loadQueue n st (p % sizeMax)).getLsbD k = queueBit n st (p + k) := by
  obtain ⟨b, s, rfl, hs⟩ := exists_block (by omega : 0 < w) p
  simp only [loadQueue, loEntry_eq h hs, hiEntry_eq h hs]
  rw [BitVec.getLsbD_or, BitVec.getLsbD_ushiftRight, BitVec.getLsbD_shiftLeft]
  by_cases hin : s + k < w
  · rw [Nat.add_assoc, queueBit_eq n st hin]
    split_ifs with h0
    · subst h0
      simp [hk]
    · simp [show k < w - s by omega]
  · rw [show w * b + s + k = w * (b + 1) + (s + k - w) by rw [Nat.mul_add]; omega,
      queueBit_eq n st (by omega), BitVec.getLsbD_of_ge _ _ (by omega), if_neg (by omega),
      if_neg (by omega)]
    simp [hk, show ¬ k < w - s by omega, show k - (w - s) = s + k - w by omega]

theorem queueBit_storeQueue (h : QueueSize n w m r) (st : IndexedState w) (c : BitVec w)
    {b s d e : ℕ} (hs : s < w) (he : e < w) :
    queueBit n (storeQueue n st ((w * b + s) % sizeMax) c) (w * d + e) =
      if d % carryQueueBlocks n w = (if s = 0 then b else b + 1) % carryQueueBlocks n w then
        c.getLsbD ((if s = 0 then 0 else w - s) + e)
      else if d % carryQueueBlocks n w = b % carryQueueBlocks n w then
        queueBit n st (w * d + e) || (!decide (e < s) && c.getLsbD (e - s))
      else
        queueBit n st (w * d + e) := by
  rw [queueBit_eq n _ he, queueBit_eq n st he]
  simp only [storeQueue, loEntry_eq h hs, hiEntry_eq h hs, IndexedState.store]
  by_cases hhi : d % carryQueueBlocks n w =
      (if s = 0 then b else b + 1) % carryQueueBlocks n w
  · rw [if_pos hhi, if_pos hhi, BitVec.getLsbD_ushiftRight]
  · rw [if_neg hhi, if_neg hhi]
    by_cases hlo : d % carryQueueBlocks n w = b % carryQueueBlocks n w
    · rw [if_pos hlo, if_pos hlo, BitVec.getLsbD_or, BitVec.getLsbD_shiftLeft, hlo]
      simp [he]
    · rw [if_neg hlo, if_neg hlo]

/-- The queue holds the `n` bits in flight from position `p` on, and zeros behind them up to the end
of the block. -/
structure InQueue (n : ℕ) (st : IndexedState w) (p : ℕ) (q : List Bool) : Prop where
  length : q.length = n
  bits : ∀ k < n, queueBit n st (p + k) = q.getD k false
  clean : ∀ x, p + n ≤ x → x / w = (p + n) / w → (p + n) % w ≠ 0 → queueBit n st x = false

/-- The last block that is written is the one that is read first, one turn of the queue later. -/
def Overrun (n w position : ℕ) : Prop :=
  carryQueueBlocks n w = ceil_udiv n w + 1 ∧ w * ceil_udiv n w < position % w + n

theorem mul_add_le_iff {w a b d e : ℕ} (hb : b < w) (he : e < w) :
    w * a + b ≤ w * d + e ↔ a < d ∨ a = d ∧ b ≤ e := by
  obtain hlt | rfl | hgt := Nat.lt_trichotomy a d
  · have := Nat.mul_le_mul_left w hlt
    rw [Nat.mul_succ] at this
    exact ⟨fun _ ↦ .inl hlt, fun _ ↦ by omega⟩
  · omega
  · have := Nat.mul_le_mul_left w hgt
    rw [Nat.mul_succ] at this
    constructor <;> intro <;> omega

theorem mod_ne_of_lt {Q b d : ℕ} (h1 : d < b) (h2 : b < d + Q) : d % Q ≠ b % Q := by
  intro h
  have hmod : (b - d) % Q = 0 := Nat.sub_mod_eq_zero_of_mod_eq h.symm
  rw [Nat.mod_eq_of_lt (by omega)] at hmod
  omega

variable {p : ℕ} {q l : List Bool} {c : BitVec w}

/-- The block and the bit `n` positions on. -/
theorem QueueSize.add (h : QueueSize n w m r) {a f : ℕ} (hf : f < w) :
    ∃ b s, w * a + f + n = w * b + s ∧ s < w ∧
      (b = a + m ∧ s = f + r ∨ b = a + m + 1 ∧ s + w = f + r) := by
  have hn := h.amount
  have hpos := h.pos
  have hle := h.le
  by_cases hlt : f + r < w
  · exact ⟨a + m, f + r, by rw [Nat.mul_add]; omega, hlt, .inl ⟨rfl, rfl⟩⟩
  · refine ⟨a + m + 1, f + r - w, ?_, by omega, .inr ⟨rfl, by omega⟩⟩
    rw [Nat.mul_add, Nat.mul_add]
    omega

/-- What is in flight stays, but for the bits that an overrun takes. -/
theorem InQueue.store_old (h : QueueSize n w m r) (hq : InQueue n st p q) (hc : Spells c l)
    (hsafe : Overrun n w p → ∀ k, l.length ≤ k → k < w - p % w → q.getD k false = false)
    {i : ℕ} (hi : l.length ≤ i) (hin : i < n) :
    queueBit n (storeQueue n st ((p + n) % sizeMax) c) (p + i) = q.getD i false := by
  have hw : 0 < w := by
    have := h.pos
    have := h.le
    omega
  have hroom := h.room
  obtain ⟨a, f, rfl, hf⟩ := exists_block hw p
  obtain ⟨b, s, hX, hs, hbs⟩ := h.add (a := a) hf
  obtain ⟨d, e, hy, he⟩ := exists_block hw (w * a + f + i)
  have hbelow : ¬ w * b + s ≤ w * d + e := by omega
  have habove : w * a + f ≤ w * d + e := by omega
  rw [mul_add_le_iff hs he] at hbelow
  rw [mul_add_le_iff hf he] at habove
  rw [← hq.bits i hin, hX, hy, queueBit_storeQueue h st c hs he]
  by_cases hhi : d % carryQueueBlocks n w =
      (if s = 0 then b else b + 1) % carryQueueBlocks n w
  · have hfar : d + carryQueueBlocks n w ≤ if s = 0 then b else b + 1 := by
      by_contra hnear
      refine mod_ne_of_lt (Q := carryQueueBlocks n w) ?_ (by omega) hhi
      split_ifs <;> omega
    have hs0 : s ≠ 0 := by
      rintro rfl
      rw [if_pos rfl] at hfar
      omega
    rw [if_neg hs0] at hfar
    obtain rfl : d = a := by omega
    have hover : Overrun n w (w * d + f) := by
      have hblocks := h.blocks
      have hn := h.amount
      refine ⟨by omega, ?_⟩
      rw [Nat.mul_add_mod, Nat.mod_eq_of_lt hf, hblocks, Nat.mul_add]
      omega
    have hzero := hsafe hover i hi (by rw [Nat.mul_add_mod, Nat.mod_eq_of_lt hf]; omega)
    rw [if_pos hhi, if_neg hs0, hc.getLsbD_of_le (by omega), ← hy, hq.bits i hin, hzero]
  · rw [if_neg hhi]
    split_ifs with hlo
    · have hdb : d = b := by
        by_contra hne
        exact mod_ne_of_lt (by omega) (by omega) hlo
      have hes : e < s := by omega
      simp [hes]
    · rfl

/-- What goes in is behind it. -/
theorem InQueue.store_new (h : QueueSize n w m r) (hq : InQueue n st p q) (hl : l.length ≤ w)
    (hc : Spells c l) {o : ℕ} (ho : o < l.length) :
    queueBit n (storeQueue n st ((p + n) % sizeMax) c) (p + n + o) = l.getD o false := by
  have hclean := hq.clean (p + n + o) (by omega)
  have hroom := h.room
  obtain ⟨b, s, hX, hs⟩ := exists_block (by omega : 0 < w) (p + n)
  rw [hX] at hclean ⊢
  rw [Nat.mul_add_div (by omega), Nat.mul_add_mod, Nat.div_eq_of_lt hs, Nat.mod_eq_of_lt hs,
    Nat.add_zero] at hclean
  by_cases hin : s + o < w
  · rw [Nat.add_assoc, Nat.mul_add_div (by omega), Nat.div_eq_of_lt hin] at hclean
    rw [Nat.add_assoc, queueBit_storeQueue h st c hs hin]
    by_cases hs0 : s = 0
    · subst hs0
      rw [if_pos rfl, if_pos rfl, if_pos rfl, ← hc o (by omega), Nat.zero_add, Nat.zero_add]
    · rw [if_neg hs0, if_neg (mod_ne_of_lt (by omega) (by omega)), if_pos rfl,
        hclean rfl hs0, Nat.add_sub_cancel_left, hc o (by omega)]
      simp
  · have hs0 : s ≠ 0 := by omega
    rw [show w * b + s + o = w * (b + 1) + (s + o - w) by rw [Nat.mul_add]; omega,
      queueBit_storeQueue h st c hs (by omega), if_neg hs0, if_neg hs0, if_pos rfl,
      show w - s + (s + o - w) = o by omega, hc o (by omega)]

theorem InQueue.store_clean (h : QueueSize n w m r) (hq : InQueue n st p q) (hl : l.length ≤ w)
    (hc : Spells c l) {x : ℕ} (hx : p + n + l.length ≤ x)
    (hdiv : x / w = (p + n + l.length) / w) (hne : (p + n + l.length) % w ≠ 0) :
    queueBit n (storeQueue n st ((p + n) % sizeMax) c) x = false := by
  have hw : 0 < w := by
    have := h.pos
    have := h.le
    omega
  have hroom := h.room
  have hclean := hq.clean x (by omega)
  obtain ⟨b, s, hX, hs⟩ := exists_block hw (p + n)
  obtain ⟨d, e, rfl, he⟩ := exists_block hw x
  rw [hX] at hx hdiv hne hclean ⊢
  rw [Nat.mul_add_div hw, Nat.div_eq_of_lt he, Nat.add_zero] at hdiv hclean
  rw [Nat.mul_add_div hw, Nat.mul_add_mod, Nat.div_eq_of_lt hs, Nat.mod_eq_of_lt hs,
    Nat.add_zero] at hclean
  rw [queueBit_storeQueue h st c hs he]
  rw [Nat.add_assoc] at hx hdiv hne
  by_cases hin : s + l.length < w
  · rw [Nat.mul_add_div hw, Nat.div_eq_of_lt hin, Nat.add_zero] at hdiv
    subst hdiv
    by_cases hs0 : s = 0
    · subst hs0
      rw [if_pos rfl, if_pos rfl, if_pos rfl]
      exact hc.getLsbD_of_le (by omega)
    · rw [if_neg hs0, if_neg (mod_ne_of_lt (by omega) (by omega)), if_pos rfl, hclean rfl hs0,
        hc.getLsbD_of_le (by omega)]
      simp
  · have hsum : s + l.length = w + (s + l.length - w) := by omega
    have hs0 : s ≠ 0 := by
      rintro rfl
      have : l.length = w := by omega
      rw [Nat.zero_add, this, Nat.mul_add_mod, Nat.mod_self] at hne
      exact hne rfl
    rw [hsum, ← Nat.add_assoc, ← Nat.mul_add_one, Nat.mul_add_div hw,
      Nat.div_eq_of_lt (by omega), Nat.add_zero] at hdiv
    subst hdiv
    rw [if_neg hs0, if_pos rfl, if_neg hs0]
    rw [hsum, ← Nat.add_assoc, ← Nat.mul_add_one] at hx
    exact hc.getLsbD_of_le (by omega)

theorem InQueue.store (h : QueueSize n w m r) (hq : InQueue n st p q) (hl : l.length ≤ w)
    (hc : Spells c l)
    (hsafe : Overrun n w p → ∀ k, l.length ≤ k → k < w - p % w → q.getD k false = false) :
    InQueue n (storeQueue n st ((p + n) % sizeMax) c) (p + l.length) ((q ++ l).drop l.length) where
  length := by simp [hq.length]
  bits := by
    intro k hk
    have hlen := hq.length
    rw [List.getD_eq_getElem?_getD, List.getElem?_drop, ← List.getD_eq_getElem?_getD, Nat.add_assoc]
    by_cases hin : l.length + k < n
    · rw [InQueue.store_old h hq hc hsafe (by omega) hin, List.getD_append _ _ _ _ (by omega)]
    · rw [show p + (l.length + k) = p + n + (l.length + k - n) by omega,
        InQueue.store_new h hq hl hc (by omega), List.getD_append_right _ _ _ _ (by omega), hlen]
  clean := by
    intro x hx hdiv hne
    rw [Nat.add_right_comm] at hx hdiv hne
    exact InQueue.store_clean h hq hl hc hx hdiv hne

theorem inQueue_initial (n w : ℕ) :
    InQueue n (IndexedState.initial w) 0 (List.replicate n false) where
  length := by simp
  bits := by
    intro k hk
    rw [List.getD_replicate _ hk]
    exact BitVec.getLsbD_zero
  clean := fun x _ _ _ ↦ BitVec.getLsbD_zero

end Queue

end Parabix.Pablo
