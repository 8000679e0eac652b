import Mathlib.Data.Nat.ModEq
import Parabix.Library.BitStream
import Parabix.Pablo.LongAdvance

namespace Parabix.Pablo

open Library Library.BitStream

section Sizes

/-- The circular buffer of an advance by `n`: `d` whole blocks and `s` bits. -/
structure BufferSize (n w d s : ℕ) : Prop where
  div : n / w = d
  mod : n % w = s
  lt : s < w
  blocks : ceil_udiv n w = if s = 0 then d else d + 1
  pos : 0 < ceil_udiv n w
  shift : n &&& (w - 1) = s
  pow : ∃ t < 32, nearest_pow2 (ceil_udiv n w) = 2 ^ t

theorem bufferSize {n j w : ℕ} (hn : 0 < n) (hj : 0 < j) (hw : w = 2 ^ j)
    (hmax : n + w ≤ 2 ^ 32) : BufferSize n w (n / w) (n % w) := by
  have hpos : 0 < w := hw ▸ Nat.two_pow_pos j
  have htwo : 2 ≤ w := hw ▸ Nat.pow_le_pow_right (show 0 < 2 by omega) hj
  have hblocks : ceil_udiv n w = (n - 1) / w + 1 := by
    subst hw
    exact ceil_udiv_eq hn hmax
  have hmod := Nat.mod_lt n hpos
  have hdiv := Nat.div_add_mod n w
  have hceil : (n - 1) / w + 1 = if n % w = 0 then n / w else n / w + 1 := by
    generalize n / w = d at hdiv ⊢
    generalize n % w = s at hdiv hmod ⊢
    split_ifs with h0
    · obtain ⟨e, rfl⟩ : ∃ e, d = e + 1 := ⟨d - 1, by cases d <;> simp_all⟩
      rw [Nat.mul_add_one] at hdiv
      rw [show n - 1 = w * e + (w - 1) by omega, Nat.mul_add_div hpos,
        Nat.div_eq_of_lt (by omega)]
    · rw [show n - 1 = w * d + (s - 1) by omega, Nat.mul_add_div hpos,
        Nat.div_eq_of_lt (by omega)]
  refine ⟨rfl, rfl, hmod, hblocks.trans hceil, hblocks ▸ Nat.succ_pos _, ?_, ?_⟩
  · rw [hw]
    exact Nat.and_two_pow_sub_one_eq_mod n j
  · obtain ⟨t, ht⟩ := nearest_pow2_eq_pow (ceil_udiv n w)
    refine ⟨t, ?_, ht⟩
    have hle : (n - 1) / w ≤ (n - 1) / 2 := Nat.div_le_div_left htwo (by omega)
    generalize (n - 1) / w = m at hblocks hle
    have hlt : nearest_pow2 (ceil_udiv n w) < 2 ^ 32 := by
      by_cases h2 : 2 ≤ ceil_udiv n w
      · have := nearest_pow2_lt h2
        omega
      · rw [nearest_pow2, if_pos (by omega)]
        omega
    rw [ht] at hlt
    exact (Nat.pow_lt_pow_iff_right (by omega)).1 hlt

variable {n w d s : ℕ}

/-- The entries of the circular buffer that are used. -/
abbrev bufferBlocks (n w : ℕ) : ℕ := nearest_pow2 (ceil_udiv n w)

theorem carryIndex_eq (h : BufferSize n w d s) (x : ℕ) {e : ℕ} (he : e ≤ bufferBlocks n w) :
    carryIndex (BitVec.ofNat 32 x) (ceil_udiv n w) e = (x + bufferBlocks n w - e) %
      bufferBlocks n w := by
  obtain ⟨t, ht, hpow⟩ := h.pow
  simp only [bufferBlocks, hpow] at he ⊢
  have hdvd : 2 ^ t ∣ 2 ^ 32 := Nat.pow_dvd_pow _ (Nat.le_of_lt ht)
  have hpos := Nat.two_pow_pos t
  have hle : 2 ^ t ≤ 2 ^ 32 := Nat.le_of_dvd (by decide) hdvd
  have hwrap (a c : ℕ) : a + 2 ^ 32 * c ≡ a [MOD 2 ^ t] := by
    obtain ⟨m, hm⟩ := hdvd
    rw [hm, Nat.mul_assoc]
    exact Nat.add_mul_mod_self_left _ _ _
  have hcong : 2 ^ 32 - e % 2 ^ 32 + x % 2 ^ 32 ≡ x + 2 ^ t - e [MOD 2 ^ t] := by
    apply Nat.ModEq.add_right_cancel' e
    calc 2 ^ 32 - e % 2 ^ 32 + x % 2 ^ 32 + e
        ≡ 2 ^ 32 - e % 2 ^ 32 + x % 2 ^ 32 + e + 2 ^ 32 * (x / 2 ^ 32) [MOD 2 ^ t] :=
          (hwrap _ _).symm
      _ = x + 2 ^ 32 * (1 + e / 2 ^ 32) := by omega
      _ ≡ x [MOD 2 ^ t] := hwrap _ _
      _ ≡ x + 2 ^ t [MOD 2 ^ t] := (Nat.add_mod_right _ _).symm
      _ = x + 2 ^ t - e + e := by omega
  rw [carryIndex, hpow, BitVec.toNat_and, BitVec.toNat_sub, BitVec.toNat_ofNat, BitVec.toNat_ofNat,
    BitVec.toNat_ofNat, Nat.mod_eq_of_lt (show 2 ^ t - 1 < 2 ^ 32 by omega),
    Nat.and_two_pow_sub_one_eq_mod, Nat.mod_mod_of_dvd _ hdvd]
  exact hcong

theorem blocks_le (n w : ℕ) : ceil_udiv n w ≤ bufferBlocks n w := le_nearest_pow2 _

theorem bufferBlocks_pos (n w : ℕ) : 0 < bufferBlocks n w := nearest_pow2_pos _

end Sizes

section Circular

variable {b t x e : ℕ}

/-- Of the last `b` blocks no two are in one entry. -/
theorem mod_ne_mod (hlt : t < x) (hle : x < t + b) : t % b ≠ x % b := by
  intro h
  have hdvd := (Nat.modEq_iff_dvd' (Nat.le_of_lt hlt)).1 h
  have := Nat.le_of_dvd (by omega) hdvd
  omega

theorem add_sub_mod (hx : e ≤ x) : (x + b - e) % b = (x - e) % b := by
  rw [show x + b - e = x - e + b by omega, Nat.add_mod_right]

end Circular

section Kept

variable {w : ℕ}

/-- The blocks that were met, a skipped one as zeros. -/
def inputs (pre : List (Option (BitVec w))) : List (BitVec w) := pre.map fun x ↦ x.getD 0

@[simp] theorem length_inputs (pre : List (Option (BitVec w))) :
    (inputs pre).length = pre.length := List.length_map _

@[simp] theorem inputs_append (pre post : List (Option (BitVec w))) :
    inputs (pre ++ post) = inputs pre ++ inputs post := List.map_append

theorem inputs_getD {pre : List (Option (BitVec w))} {t : ℕ} {x : Option (BitVec w)}
    (h : pre[t]? = some x) : (inputs pre).getD t 0 = x.getD 0 := by
  simp [inputs, List.getD_eq_getElem?_getD, h]

/-- A bit of an earlier block has not been shifted out. -/
def inFlight (n : ℕ) (xs : List (BitVec w)) : Prop :=
  ∃ t, xs.length ≤ t + ceil_udiv n w ∧ xs.getD t 0 ≠ 0

/-- What the entries of the circular buffer hold, by the blocks that were met: `none` is a block at
which the statement was skipped. -/
structure Kept (n : ℕ) (carries : ℕ → BitVec w) (pre : List (Option (BitVec w))) : Prop where
  run : ∀ t v, pre[t]? = some (some v) → pre.length ≤ t + bufferBlocks n w →
    carries (t % bufferBlocks n w) = v
  fresh : ∀ e < bufferBlocks n w, pre.length ≤ e → carries e = 0
  idle : bufferBlocks n w = ceil_udiv n w → ∀ t, pre[t]? = some none →
    pre.length ≤ t + bufferBlocks n w → carries (t % bufferBlocks n w) = 0

variable {n : ℕ} {carries : ℕ → BitVec w} {pre : List (Option (BitVec w))}

theorem Kept.initial (n : ℕ) : Kept n (fun _ ↦ (0 : BitVec w)) [] :=
  ⟨fun _ _ h ↦ by simp at h, fun _ _ _ ↦ rfl, fun _ _ h ↦ by simp at h⟩

theorem getElem?_push {α : Type*} {l : List α} {a : α} {t : ℕ} {x : α}
    (h : (l ++ [a])[t]? = some x) : t < l.length ∧ l[t]? = some x ∨ t = l.length ∧ a = x := by
  rcases Nat.lt_trichotomy t l.length with hlt | rfl | hgt
  · rw [List.getElem?_append_left hlt] at h
    exact .inl ⟨hlt, h⟩
  · simp only [List.getElem?_concat_length, Option.some.injEq] at h
    exact .inr ⟨rfl, h⟩
  · rw [List.getElem?_eq_none (by simp; omega)] at h
    cases h

theorem Kept.push_run (h : Kept n carries pre) {carries' : ℕ → BitVec w} {v : BitVec w}
    (hsame : ∀ i, i ≠ pre.length % bufferBlocks n w → carries' i = carries i)
    (hstore : carries' (pre.length % bufferBlocks n w) = v) :
    Kept n carries' (pre ++ [some v]) := by
  constructor
  · intro t u ht hle
    rw [List.length_append, List.length_singleton] at hle
    rcases getElem?_push ht with ⟨hlt, ht⟩ | ⟨rfl, hu⟩
    · rw [hsame _ (mod_ne_mod hlt (by omega))]
      exact h.run t u ht (by omega)
    · rw [hstore]
      exact Option.some.inj hu
  · intro e he hle
    rw [List.length_append, List.length_singleton] at hle
    have := Nat.mod_le pre.length (bufferBlocks n w)
    rw [hsame _ (by omega)]
    exact h.fresh e he (by omega)
  · intro hS t ht hle
    rw [List.length_append, List.length_singleton] at hle
    rcases getElem?_push ht with ⟨hlt, ht⟩ | ⟨rfl, hu⟩
    · rw [hsame _ (mod_ne_mod hlt (by omega))]
      exact h.idle hS t ht (by omega)
    · cases hu

theorem Kept.push_idle (h : Kept n carries pre) (hnot : ¬inFlight n (inputs pre)) :
    Kept n carries (pre ++ [none]) := by
  have hlen : (pre ++ [none]).length = pre.length + 1 := by simp
  constructor
  · intro t u ht hle
    rcases getElem?_push ht with ⟨hlt, ht⟩ | ⟨rfl, hu⟩
    · exact h.run t u ht (by omega)
    · cases hu
  · intro e he hle
    exact h.fresh e he (by omega)
  · intro hS t ht hle
    rcases getElem?_push ht with ⟨hlt, ht⟩ | ⟨rfl, hu⟩
    · exact h.idle hS t ht (by omega)
    · -- the entry of the skipped block is that of the block `n` bits back
      have hpos := bufferBlocks_pos n w
      by_cases hlt : pre.length < bufferBlocks n w
      · rw [Nat.mod_eq_of_lt hlt]
        exact h.fresh _ hlt (Nat.le_refl _)
      · have hback : pre.length - bufferBlocks n w < pre.length := by omega
        have hentry : pre.length % bufferBlocks n w =
            (pre.length - bufferBlocks n w) % bufferBlocks n w := Nat.mod_eq_sub_mod (by omega)
        rw [hentry]
        obtain ⟨x, hx⟩ : ∃ x, pre[pre.length - bufferBlocks n w]? = some x :=
          ⟨_, List.getElem?_eq_getElem hback⟩
        cases x with
        | none => exact h.idle hS _ hx (by omega)
        | some v =>
          rw [h.run _ v hx (by omega)]
          by_contra hv
          refine hnot ⟨pre.length - bufferBlocks n w, ?_, ?_⟩
          · rw [length_inputs]
            omega
          · rw [inputs_getD hx]
            exact hv

/-- What is made of an entry `e` blocks back, where nothing is made of zeros. -/
theorem Kept.read (h : Kept n carries pre) {f : BitVec w → BitVec w} (hf : f 0 = 0) {e : ℕ}
    (hpos : 0 < e) (hle : e ≤ bufferBlocks n w)
    (hidle : ∀ t, pre[t]? = some none → t + e = pre.length →
      f (carries (t % bufferBlocks n w)) = 0) :
    f (carries ((pre.length + bufferBlocks n w - e) % bufferBlocks n w)) =
      if pre.length < e then 0 else f ((inputs pre).getD (pre.length - e) 0) := by
  split_ifs with hlt
  · rw [Nat.mod_eq_of_lt (by omega), h.fresh _ (by omega) (by omega), hf]
  · rw [add_sub_mod (by omega)]
    obtain ⟨x, hx⟩ : ∃ x, pre[pre.length - e]? = some x :=
      ⟨_, List.getElem?_eq_getElem (by omega)⟩
    rw [inputs_getD hx]
    cases x with
    | none => rw [hidle _ hx (by omega), Option.getD_none, hf]
    | some v => rw [h.run _ v hx (by omega), Option.getD_some]

/-- The bits that are shifted in from the entry of a skipped block are zeros. -/
def Unspoiled (n : ℕ) (carries : ℕ → BitVec w) (pre : List (Option (BitVec w))) : Prop :=
  (∀ t, pre[t]? = some none → t + ceil_udiv n w = pre.length →
    if n % w = 0 then carries (t % bufferBlocks n w) = 0
    else carries (t % bufferBlocks n w) >>> (w - n % w) = 0) ∧
  (n % w ≠ 0 → ∀ t, pre[t]? = some none → t + (ceil_udiv n w - 1) = pre.length →
    carries (t % bufferBlocks n w) <<< (n % w) = 0)

theorem Kept.unspoiled (h : Kept n carries pre) (hS : bufferBlocks n w = ceil_udiv n w) :
    Unspoiled n carries pre := by
  constructor
  · intro t ht hk
    rw [h.idle hS t ht (by omega)]
    split_ifs
    · rfl
    · exact BitVec.zero_ushiftRight
  · intro _ t ht hk
    have := bufferBlocks_pos n w
    rw [h.idle hS t ht (by omega)]
    exact BitVec.zero_shiftLeft _

end Kept

section Result

variable {w n : ℕ} {st : LongState w} {carries : ℕ → BitVec w}
  {pre : List (Option (BitVec w))} {value : BitVec w}

theorem advanceBlock_append (n : ℕ) {xs ys : List (BitVec w)} {k : ℕ} (hk : k < xs.length) :
    advanceBlock n (xs ++ ys) k = advanceBlock n xs k := by
  rw [advanceBlock, advanceBlock,
    List.getD_append _ _ _ _ (Nat.lt_of_le_of_lt (Nat.sub_le _ _) hk),
    List.getD_append _ _ _ _ (Nat.lt_of_le_of_lt (Nat.sub_le _ _)
      (Nat.lt_of_le_of_lt (Nat.sub_le _ _) hk))]

variable {d s : ℕ}

/-- The end of a block that is a shift back. -/
theorem Kept.read_upper (hsize : BufferSize n w d s) (hkept : Kept n carries pre)
    (value : BitVec w) (hunspoiled : Unspoiled n carries pre) (hs : s ≠ 0) :
    carries ((pre.length + bufferBlocks n w - ceil_udiv n w) % bufferBlocks n w) >>> (w - s) =
      if pre.length < d + 1 then 0
      else (inputs pre ++ [value]).getD (pre.length - d - 1) 0 >>> (w - s) := by
  have hblocks := hsize.blocks
  rw [if_neg hs] at hblocks
  have hread := hkept.read (f := (· >>> (w - s))) BitVec.zero_ushiftRight hsize.pos
    (blocks_le n w) (fun t ht hk ↦ by
      have hzero := hunspoiled.1 t ht hk
      rwa [hsize.mod, if_neg hs] at hzero)
  rw [hread, hblocks]
  split_ifs with hlt
  · rfl
  · rw [List.getD_append _ _ _ _ (by rw [length_inputs]; omega), Nat.sub_sub]

/-- The start of the block after it. -/
theorem Kept.read_lower (hsize : BufferSize n w d s) (hkept : Kept n carries pre)
    (value : BitVec w) (hunspoiled : Unspoiled n carries pre) (hs : s ≠ 0) (hd : 0 < d) :
    carries ((pre.length + bufferBlocks n w - (ceil_udiv n w - 1)) % bufferBlocks n w) <<< s =
      if pre.length < d then 0 else (inputs pre ++ [value]).getD (pre.length - d) 0 <<< s := by
  have hblocks := hsize.blocks
  rw [if_neg hs] at hblocks
  have hle := blocks_le n w
  have hread := hkept.read (f := (· <<< s)) (BitVec.zero_shiftLeft s)
    (show 0 < ceil_udiv n w - 1 by omega) (by omega) (fun t ht hk ↦ by
      have hzero := hunspoiled.2 (by rwa [hsize.mod]) t ht hk
      rwa [hsize.mod] at hzero)
  rw [hread, hblocks, Nat.add_sub_cancel]
  split_ifs with hlt
  · rfl
  · rw [List.getD_append _ _ _ _ (by rw [length_inputs]; omega)]

/-- A whole block, where the shift is by blocks. -/
theorem Kept.read_whole (hsize : BufferSize n w d 0) (hkept : Kept n carries pre)
    (value : BitVec w) (hunspoiled : Unspoiled n carries pre) :
    carries ((pre.length + bufferBlocks n w - ceil_udiv n w) % bufferBlocks n w) =
      if pre.length < d then 0 else (inputs pre ++ [value]).getD (pre.length - d) 0 := by
  have hblocks := hsize.blocks
  rw [if_pos rfl] at hblocks
  have hpos := hsize.pos
  have hread := hkept.read (f := id) rfl hpos (blocks_le n w) (fun t ht hk ↦ by
    have hzero := hunspoiled.1 t ht hk
    rwa [hsize.mod, if_pos rfl] at hzero)
  rw [id, id] at hread
  rw [hread, hblocks]
  split_ifs with hlt
  · rfl
  · rw [List.getD_append _ _ _ _ (by rw [length_inputs]; omega)]

theorem advanceBlock_size (hsize : BufferSize n w d s) (xs : List (BitVec w)) (k : ℕ) :
    advanceBlock n xs k = (if k < d then 0 else xs.getD (k - d) 0 <<< s) |||
      if k < d + 1 then 0 else xs.getD (k - d - 1) 0 >>> (w - s) := by
  rw [advanceBlock, hsize.div, hsize.mod]

/-- An advance by less than a block has a single entry. -/
theorem BufferSize.small (hsize : BufferSize n w d s) (hlt : n < w) :
    d = 0 ∧ s = n ∧ s ≠ 0 ∧ ceil_udiv n w = 1 ∧ bufferBlocks n w = 1 := by
  have hd : d = 0 := hsize.div.symm.trans (Nat.div_eq_of_lt hlt)
  have hs : s = n := hsize.mod.symm.trans (Nat.mod_eq_of_lt hlt)
  have hblocks := hsize.blocks
  have hpos := hsize.pos
  have hne : s ≠ 0 := by
    intro h0
    rw [if_pos h0] at hblocks
    omega
  rw [if_neg hne] at hblocks
  have hone : ceil_udiv n w = 1 := by omega
  exact ⟨hd, hs, hne, hone, by rw [bufferBlocks, hone]; rfl⟩

/-- Only an advance by less than a block, in a loop, reads the entry that it stores. -/
theorem advanceBuffer_eq (st : LongState w) (value : BitVec w) (inLoop : Bool)
    (hsize : BufferSize n w d s)
    (hindex : st.CarryBlockIndex = BitVec.ofNat 32 pre.length) (hkept : Kept n st.carries pre)
    (hunspoiled : Unspoiled n st.carries pre)
    (hself : n < w → inLoop = true → st.carries 0 <<< n = value <<< n) :
    advanceBuffer n st value inLoop =
      (advanceBlock n (inputs pre ++ [value]) pre.length,
        st.store (pre.length % bufferBlocks n w) value) := by
  have hlast : (inputs pre ++ [value]).getD pre.length 0 = value := by
    rw [List.getD_append_right _ _ _ _ (by rw [length_inputs]), length_inputs, Nat.sub_self]
    rfl
  have hle := blocks_le n w
  have hpos := hsize.pos
  have hin := carryIndex_eq hsize pre.length hle
  have hin2 := carryIndex_eq hsize pre.length
    (show ceil_udiv n w - 1 ≤ bufferBlocks n w by omega)
  have hout := carryIndex_eq hsize pre.length (Nat.zero_le (bufferBlocks n w))
  rw [Nat.sub_zero, Nat.add_mod_right] at hout
  rw [advanceBlock_size hsize]
  by_cases hlt : n < w
  · obtain ⟨hd, hs, hne, hk, hS⟩ := hsize.small hlt
    have hupper := hkept.read_upper hsize value hunspoiled hne
    rw [hd] at hupper ⊢
    rw [← hupper, if_neg (Nat.not_lt_zero _), Nat.sub_zero, hlast]
    simp only [hk, hS, Nat.mod_one, hs] at hin hin2 hout ⊢
    cases inLoop with
    | false => rw [advanceBuffer, if_pos ⟨hlt, rfl⟩]
    | true =>
      rw [advanceBuffer, if_neg (by simp)]
      simp only [hsize.shift, hindex, hk, hin, hin2]
      rw [if_neg hne, hs, hself hlt rfl]
  · rw [advanceBuffer, if_neg (fun h ↦ hlt h.1)]
    simp only [hsize.shift, hindex, hin, hin2, hout]
    by_cases hs : s = 0
    · subst hs
      rw [if_pos rfl, hkept.read_whole hsize value hunspoiled]
      simp [BitVec.ushiftRight_eq_zero]
    · have hd : 0 < d := by
        rw [← hsize.div]
        exact Nat.div_pos (by omega) (Nat.zero_lt_of_lt hsize.lt)
      rw [if_neg hs, hkept.read_lower hsize value hunspoiled hs hd,
        hkept.read_upper hsize value hunspoiled hs]

/-- Nothing is shifted out when nothing is in flight. -/
theorem advanceBlock_idle (hsize : BufferSize n w d s) {xs : List (BitVec w)}
    (hnot : ¬inFlight n xs) : advanceBlock n (xs ++ [0]) xs.length = 0 := by
  have hpos := hsize.pos
  have hzero (e : ℕ) (he : e ≤ ceil_udiv n w) : (xs ++ [0]).getD (xs.length - e) 0 = 0 := by
    by_cases hlt : xs.length - e < xs.length
    · rw [List.getD_append _ _ _ _ hlt]
      by_contra hne
      exact hnot ⟨_, by omega, hne⟩
    · rw [List.getD_append_right _ _ _ _ (by omega), show xs.length - e - xs.length = 0 by omega]
      rfl
  have hblocks := hsize.blocks
  rw [advanceBlock_size hsize, Nat.sub_sub]
  split_ifs at hblocks with hs
  · rw [hzero d (by omega), hs]
    simp [BitVec.ushiftRight_eq_zero]
  · rw [hzero d (by omega), hzero (d + 1) (by omega)]
    simp

end Result

end Parabix.Pablo
