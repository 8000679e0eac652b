import Parabix.IDISA.Pext
import Parabix.Library.CodedText

namespace Parabix.Unicode

open Library Library.BitStream IDISA

section Kernels

/-- The fields of the lower halves of two vectors in turn. -/
def esimd_mergel (fw : ℕ) (a b : Stream) : Stream := fun p ↦
  if p / fw % 2 = 0 then a (fw * (p / fw / 2) + p % fw) else b (fw * (p / fw / 2) + p % fw)

/-- The fields of the upper halves of two vectors of `bw` bits in turn. -/
def esimd_mergeh (bw fw : ℕ) (a b : Stream) : Stream :=
  esimd_mergel fw (fun p ↦ a (bw / 2 + p)) fun p ↦ b (bw / 2 + p)

def loadInputStreamBlock (bw : ℕ) (s : Stream) (blk : ℕ) : Stream := fun p ↦ s (bw * blk + p)

/-- A stream of which `k` blocks are stored for every block of the input. -/
def storeOutputStreamBlock (bw k : ℕ) (output : ℕ → ℕ → Stream) : Stream :=
  fun p ↦ output (p / bw / k) (p / bw % k) (p % bw)

/-- Every `k`-th bit is set. -/
def splatHighBit (k : ℕ) : Stream := fun p ↦ p % k == k - 1

/-- The bits that were compressed to the low end of the fields are joined. -/
def streamCompress (fw : ℕ) (extractionMask source : Stream) (numFields : ℕ) : List Bool :=
  (List.range numFields).flatMap fun i ↦
    (List.range (rank (fun j ↦ extractionMask (fw * i + j)) fw)).map fun j ↦ source (fw * i + j)

end Kernels

section Blocks

variable {bw fw k b i j : ℕ} {m v : Stream}

theorem storeOutputStreamBlock_apply {output : ℕ → ℕ → Stream} (hj : j < k) (hi : i < bw) :
    storeOutputStreamBlock bw k output (bw * (k * b + j) + i) = output b j i := by
  rw [storeOutputStreamBlock, mul_add_div_of_lt hi, mul_add_mod_of_lt hi, mul_add_div_of_lt hj,
    mul_add_mod_of_lt hj]

theorem selected_shift (m v : Stream) (a fw i : ℕ) :
    selected (fun p ↦ m (fw * a + p)) (fun p ↦ v (fw * a + p)) fw i = selected m v fw (a + i) := by
  rw [selected, selected, compress_shift, compress_shift m, Nat.mul_add]
  simp only [Nat.add_assoc]

/-- The bits at the low end of a compressed field are the selected ones. -/
theorem map_simd_pext (k i : ℕ) (m v : Stream) :
    (List.range (selected m v (2 ^ (k + 1)) i).length).map
        (fun j ↦ simd_pext (2 ^ (k + 1)) v m (2 ^ (k + 1) * i + j)) =
      selected m v (2 ^ (k + 1)) i := by
  have hlen := length_selected_le (m := m) (v := v) (h := 2 ^ (k + 1)) (i := i)
  apply List.ext_getElem (by simp)
  intro j h1 h2
  have hbit := testBit_field (w := 2 ^ (k + 1)) (x := simd_pext (2 ^ (k + 1)) v m) (i := i) (j := j)
  rw [field_simd_pext, testBit_ofDigits, decide_eq_true (by omega), Bool.true_and,
    List.getD_eq_getElem _ _ h2] at hbit
  rw [List.getElem_map, List.getElem_range, hbit]

theorem length_selected (m v : Stream) (fw i : ℕ) :
    (selected m v fw i).length = rank (fun j ↦ m (fw * i + j)) fw := by
  have hlen := length_compress m v (fw * i) fw
  rw [rank_add] at hlen
  exact Nat.add_left_cancel hlen

theorem splatHighBit_add (hk : k ∣ bw) (q p : ℕ) :
    splatHighBit k (bw * q + p) = splatHighBit k p := by
  obtain ⟨c, rfl⟩ := hk
  rw [splatHighBit, Nat.mul_assoc, Nat.mul_add_mod, splatHighBit]

/-- A field of the stored blocks is a field of one block. -/
theorem selected_store {c : ℕ} {output : ℕ → ℕ → Stream} (hj : j < k) (hi : i < c) :
    selected (storeOutputStreamBlock (fw * c) k output) (splatHighBit k) fw (c * (k * b + j) + i) =
      selected (output b j) (fun p ↦ splatHighBit k (fw * c * (k * b + j) + p)) fw i := by
  rw [← selected_shift]
  apply compress_congr
  · intro l hl
    have hbit : fw * i + l < fw * c := by
      have := Nat.mul_le_mul_left fw (Nat.succ_le_of_lt hi)
      rw [Nat.mul_succ] at this
      omega
    rw [← Nat.mul_assoc, storeOutputStreamBlock_apply hj hbit]
  · intro l _ _
    rw [Nat.mul_assoc]

/-- Compressing the fields of the stored blocks and joining them compresses the stream. -/
theorem streamCompress_store {c e : ℕ} {output : ℕ → ℕ → Stream} (hk : 0 < k) (hc : 0 < c)
    (hdvd : k ∣ 2 ^ (e + 1) * c) (numFields : ℕ) :
    streamCompress (2 ^ (e + 1)) (storeOutputStreamBlock (2 ^ (e + 1) * c) k output)
        (storeOutputStreamBlock (2 ^ (e + 1) * c) k fun b j ↦
          simd_pext (2 ^ (e + 1)) (splatHighBit k) (output b j)) numFields =
      compress (storeOutputStreamBlock (2 ^ (e + 1) * c) k output) (splatHighBit k) 0
        (2 ^ (e + 1) * numFields) := by
  rw [streamCompress, ← flatMap_compress]
  congr 1
  funext i
  obtain ⟨b, j, t, hj, ht, rfl⟩ : ∃ b j t, j < k ∧ t < c ∧ i = c * (k * b + j) + t :=
    ⟨i / c / k, i / c % k, i % c, Nat.mod_lt _ hk, Nat.mod_lt _ hc, by
      rw [Nat.div_add_mod, Nat.div_add_mod]⟩
  have hselected := @selected_store (2 ^ (e + 1)) _ b _ _ _ output hj ht
  have hsplat : (fun p ↦ splatHighBit k (2 ^ (e + 1) * c * (k * b + j) + p)) = splatHighBit k :=
    funext fun p ↦ splatHighBit_add hdvd _ p
  rw [hsplat] at hselected
  rw [← selected, ← length_selected _ (splatHighBit k), hselected]
  refine (List.map_congr_left fun l hl ↦ ?_).trans (map_simd_pext e t _ _)
  have hlen := length_selected_le (m := output b j) (v := splatHighBit k) (h := 2 ^ (e + 1)) (i := t)
  have hbit : 2 ^ (e + 1) * t + l < 2 ^ (e + 1) * c := by
    have := Nat.mul_le_mul_left (2 ^ (e + 1)) (Nat.succ_le_of_lt ht)
    rw [Nat.mul_succ] at this
    have := List.mem_range.1 hl
    omega
  rw [show 2 ^ (e + 1) * (c * (k * b + j) + t) + l =
    2 ^ (e + 1) * c * (k * b + j) + (2 ^ (e + 1) * t + l) by ring,
    storeOutputStreamBlock_apply hj hbit]

/-- The bits of `k` streams are stored in turn. -/
theorem storeOutputStreamBlock_merge {c l : ℕ} {output : ℕ → ℕ → Stream} {f : ℕ → Stream}
    (houtput : ∀ b j i, j < k → i < c → ∀ l < k,
      output b j (k * i + l) = f l (k * c * b + (c * j + i)))
    (n : ℕ) (hl : l < k) (hc : 0 < c) :
    storeOutputStreamBlock (k * c) k output (k * n + l) = f l n := by
  have hk : 0 < k := Nat.zero_lt_of_lt hl
  obtain ⟨b, j, i, hj, hi, rfl⟩ : ∃ b j i, j < k ∧ i < c ∧ n = k * c * b + (c * j + i) := by
    refine ⟨n / c / k, n / c % k, n % c, Nat.mod_lt _ hk, Nat.mod_lt _ hc, ?_⟩
    have h1 := Nat.div_add_mod n c
    have h2 := Nat.div_add_mod (n / c) k
    calc n = c * (k * (n / c / k) + n / c % k) + n % c := by rw [h2, h1]
      _ = k * c * (n / c / k) + (c * (n / c % k) + n % c) := by ring
  have hbit : k * i + l < k * c := by
    have := Nat.mul_le_mul_left k (Nat.succ_le_of_lt hi)
    rw [Nat.mul_succ] at this
    omega
  have hplace : k * (k * c * b + (c * j + i)) + l = k * c * (k * b + j) + (k * i + l) := by ring
  rw [hplace, storeOutputStreamBlock_apply hj hbit, houtput b j i hj hi l hl]

theorem esimd_mergel_one_even {x y : Stream} : esimd_mergel 1 x y (2 * i) = x i := by
  rw [esimd_mergel, Nat.div_one, Nat.mul_mod_right, if_pos rfl, Nat.mod_one, Nat.one_mul,
    Nat.mul_div_cancel_left _ Nat.two_pos, Nat.add_zero]

theorem esimd_mergel_one_odd {x y : Stream} : esimd_mergel 1 x y (2 * i + 1) = y i := by
  rw [esimd_mergel, Nat.div_one, if_neg (by omega), Nat.mod_one, Nat.one_mul,
    show (2 * i + 1) / 2 = i by omega, Nat.add_zero]

/-- The bits of two streams in turn, in two blocks for each one of them. -/
theorem merge_pair {c : ℕ} (x y : Stream) (b j i : ℕ) (hj : j < 2) (l : ℕ) (hl : l < 2) :
    (if j = 0 then esimd_mergel 1 (loadInputStreamBlock (2 * c) x b)
        (loadInputStreamBlock (2 * c) y b)
      else esimd_mergeh (2 * c) 1 (loadInputStreamBlock (2 * c) x b)
        (loadInputStreamBlock (2 * c) y b)) (2 * i + l) =
      (if l = 0 then x else y) (2 * c * b + (c * j + i)) := by
  have hhalf : 2 * c / 2 = c := Nat.mul_div_cancel_left c Nat.two_pos
  obtain rfl | rfl : j = 0 ∨ j = 1 := by omega
  · rw [Nat.mul_zero, Nat.zero_add]
    obtain rfl | rfl : l = 0 ∨ l = 1 := by omega
    · exact esimd_mergel_one_even
    · exact esimd_mergel_one_odd
  · simp only [if_neg Nat.one_ne_zero, esimd_mergeh, hhalf, Nat.mul_one]
    obtain rfl | rfl : l = 0 ∨ l = 1 := by omega
    · exact esimd_mergel_one_even
    · exact esimd_mergel_one_odd

end Blocks

section Slots

variable {α β : Type*} {enc : α → List β} {text : List α} {m : Stream} {k n : ℕ}

/-- Of the `k` slots of a character the last ones are selected, as many as its code has units. -/
def SelectsUnits (enc : α → List β) (text : List α) (k : ℕ) (m : Stream) : Prop :=
  ∀ n c, text[n]? = some c → 0 < (enc c).length ∧ (enc c).length ≤ k ∧
    ∀ j < k, m (k * n + j) = decide (k - (enc c).length ≤ j)

/-- The last unit is marked. -/
def finalUnit (code : List β) : List Bool := List.replicate (code.length - 1) false ++ [true]

theorem compress_slots {c : α} (hpos : 0 < (enc c).length) (hle : (enc c).length ≤ k)
    (hm : ∀ j < k, m (k * n + j) = decide (k - (enc c).length ≤ j)) :
    compress m (splatHighBit k) (k * n) k = finalUnit (enc c) := by
  obtain ⟨w, hw⟩ : ∃ w, (enc c).length = w + 1 := ⟨_, (Nat.sub_add_cancel hpos).symm⟩
  obtain ⟨e, rfl⟩ : ∃ e, k = e + w + 1 := ⟨k - (w + 1), by omega⟩
  have hskip : compress m (splatHighBit (e + w + 1)) ((e + w + 1) * n) e = [] := by
    apply compress_of_false
    intro j hj
    rw [hm j (by omega), decide_eq_false (by omega)]
  have hunits : compress m (splatHighBit (e + w + 1)) ((e + w + 1) * n + e) (w + 1) =
      (List.range (w + 1)).map fun j ↦ splatHighBit (e + w + 1) ((e + w + 1) * n + e + j) := by
    apply compress_of_true
    intro j hj
    rw [Nat.add_assoc, hm (e + j) (by omega), decide_eq_true (by omega)]
  have hsplat (j : ℕ) (hj : j < w + 1) :
      splatHighBit (e + w + 1) ((e + w + 1) * n + e + j) = (j == w) := by
    rw [splatHighBit, Nat.add_assoc, mul_add_mod_of_lt (by omega), Bool.eq_iff_iff, beq_iff_eq,
      beq_iff_eq]
    omega
  rw [Nat.add_assoc, compress_append, ← Nat.add_assoc, hskip, hunits, finalUnit, hw,
    List.range_succ, List.map_append, List.map_singleton, hsplat w (by omega), beq_self_eq_true,
    List.nil_append, Nat.add_sub_cancel]
  congr 1
  rw [List.map_congr_left (g := fun _ ↦ false), List.map_const', List.length_range]
  intro j hj
  have hlt := List.mem_range.1 hj
  rw [hsplat j (by omega), beq_eq_false_iff_ne]
  exact hlt.ne

/-- Of every character the last unit is marked. -/
theorem SelectsUnits.compress (h : SelectsUnits enc text k m) :
    compress m (splatHighBit k) 0 (k * text.length) = text.flatMap fun c ↦ finalUnit (enc c) := by
  have hpre (n : ℕ) (hn : n ≤ text.length) : BitStream.compress m (splatHighBit k) 0 (k * n) =
      (text.take n).flatMap fun c ↦ finalUnit (enc c) := by
    induction n with
    | zero => rfl
    | succ n ih =>
      have hc := List.getElem?_eq_getElem hn
      obtain ⟨hpos, hle, hm⟩ := h n _ hc
      rw [Nat.mul_succ, compress_append, ih (by omega), Nat.zero_add, compress_slots hpos hle hm,
        List.take_add_one, hc, List.flatMap_append]
      simp
  rw [hpre _ le_rfl, List.take_length]

/-- The fields that all characters take are compressed to the marks of their last units. -/
theorem SelectsUnits.streamCompress {e c : ℕ} {output : ℕ → ℕ → Stream}
    (h : SelectsUnits enc text k (storeOutputStreamBlock (2 ^ (e + 1) * c) k output))
    (hpast : ∀ p, k * text.length ≤ p →
      storeOutputStreamBlock (2 ^ (e + 1) * c) k output p = false)
    (hk : 0 < k) (hc : 0 < c) (hdvd : k ∣ 2 ^ (e + 1) * c) :
    streamCompress (2 ^ (e + 1)) (storeOutputStreamBlock (2 ^ (e + 1) * c) k output)
        (storeOutputStreamBlock (2 ^ (e + 1) * c) k fun b j ↦
          simd_pext (2 ^ (e + 1)) (splatHighBit k) (output b j))
        ((k * text.length + 2 ^ (e + 1) - 1) / 2 ^ (e + 1)) =
      text.flatMap fun c ↦ finalUnit (enc c) := by
  have hfields : k * text.length ≤
      2 ^ (e + 1) * ((k * text.length + 2 ^ (e + 1) - 1) / 2 ^ (e + 1)) := by
    have := Nat.div_add_mod (k * text.length + 2 ^ (e + 1) - 1) (2 ^ (e + 1))
    have := Nat.mod_lt (k * text.length + 2 ^ (e + 1) - 1) (Nat.two_pow_pos (e + 1))
    omega
  obtain ⟨rest, hrest⟩ := Nat.exists_eq_add_of_le hfields
  rw [streamCompress_store hk hc hdvd, hrest, compress_append, h.compress, compress_of_false,
    List.append_nil]
  intro i _
  exact hpast _ (by omega)

theorem length_finalUnit {code : List β} (h : 0 < code.length) :
    (finalUnit code).length = code.length := by
  rw [finalUnit, List.length_append, List.length_replicate, List.length_singleton]
  omega

/-- The marks of the last units, joined. -/
theorem finalUnit_marks (h : ∀ c ∈ text, 0 < (enc c).length) :
    MarksOne enc text (fun c ↦ (enc c).length - 1)
      fun p ↦ (text.flatMap fun c ↦ finalUnit (enc c)).getD p false := by
  intro n c hc
  have hpos := h c (List.mem_of_getElem? hc)
  refine ⟨Nat.sub_lt hpos Nat.one_pos, fun d hd ↦ ?_⟩
  have hstart : start enc text n = start (fun c ↦ finalUnit (enc c)) text n :=
    start_congr (fun c hc ↦ (length_finalUnit (h c hc)).symm) n
  beta_reduce
  rw [hstart, List.getD_eq_getElem?_getD, getElem?_flatMap hc (by rwa [length_finalUnit hpos]),
    finalUnit]
  by_cases hlast : d < (enc c).length - 1
  · rw [List.getElem?_append_left (by simpa using hlast), List.getElem?_replicate, if_pos hlast,
      beq_eq_false_iff_ne.2 hlast.ne]
    rfl
  · rw [show d = (enc c).length - 1 by omega, List.getElem?_append_right (by simp)]
    simp

end Slots

end Parabix.Unicode
