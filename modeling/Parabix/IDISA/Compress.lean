import Parabix.IDISA.Expand
import Parabix.Library.Compaction
import Parabix.Library.Fault

namespace Parabix.IDISA

open Library Library.BitStream

/-- An integer has a bit for each field, and a vector a field for each. -/
inductive SelectMask where
  | integer (bits : Stream)
  | vector (fields : Stream)

section Operations

variable (fw count : ℕ)

def UnsupportedFieldWidthError (FieldWidth : ℕ) (op_name : String) : Fault :=
  .fatal (op_name ++ ": Unsupported field width: " ++ toString FieldWidth)

/-- All ones in the fields that an integer selects. The shifted one has 64 bits. -/
def selectedFields (bits : Stream) : Stream :=
  if count ≤ fw then
    let seq := ofFields fw fun i ↦ 2 ^ i % 2 ^ 64
    simd_eq fw (simd_and (simd_fill fw (field fw bits 0)) seq) seq
  else
    simd_any fw (esimd_bitspread fw bits)

def compressLoop (shiftAmount : ℕ) (deletion_totals selected : Stream) : Stream :=
  if 0 < shiftAmount ∧ shiftAmount < count then
    let shift_splat := simd_fill fw shiftAmount
    let shift_select := simd_and deletion_totals shift_splat
    let shift_mask := simd_eq fw shift_select shift_splat
    let to_shift := simd_and shift_mask selected
    let shifted := mvmd_srli fw count to_shift shiftAmount
    compressLoop (shiftAmount * 2) (simd_sub fw deletion_totals shift_select)
      (simd_or shifted (simd_xor selected to_shift))
  else
    selected
termination_by count - shiftAmount

/-- The fields of a vector that have all ones in the mask, at the low places. -/
def compressFields (v select_mask : Stream) : Stream :=
  let selected := simd_and v select_mask
  let deletion_counts := simd_add fw (simd_fill fw 1) select_mask
  let deletion_totals := hsimd_partial_sum fw count deletion_counts
  compressLoop fw count 1 deletion_totals selected

def IDISA_Builder.mvmd_compress (v : Stream) (select_mask : SelectMask) : Except Fault Stream :=
  if fw < 8 then
    throw (UnsupportedFieldWidthError fw "mvmd_compress")
  else
    pure <| match select_mask with
      | .integer bits => compressFields fw count v (selectedFields fw count bits)
      | .vector fields => compressFields fw count v fields

/-- The error names the other operation. -/
def IDISA_Builder.mvmd_expand (v : Stream) (select_mask : SelectMask) : Except Fault Stream :=
  if fw < 8 then
    throw (UnsupportedFieldWidthError fw "mvmd_compress")
  else
    pure <| match select_mask with
      | .integer bits => Parabix.IDISA.mvmd_expand fw count v bits
      | .vector fields => expandFields fw count v fields

end Operations

section Compress

variable {fw t k i c p q : ℕ} {m v select_mask totals selected : Stream}

/-- The zeros of a mask up to a place. -/
def deleted (m : Stream) (p : ℕ) : ℕ := rank (fun q ↦ !m q) (p + 1)

theorem deleted_add (m : Stream) (q n : ℕ) : deleted m q ≤ deleted m (q + n) ∧
    deleted m (q + n) ≤ deleted m q + n := by
  have hadd := rank_add (fun p ↦ !m p) (q + 1) n
  have hle := rank_le (fun p ↦ !m (q + 1 + p)) n
  rw [deleted, deleted, Nat.add_right_comm, hadd]
  omega

theorem rank_add_deleted (hm : m p = true) : rank m p + deleted m p = p := by
  have hnot := rank_not m p
  rw [deleted, rank_succ, hm]
  simpa using hnot

/-- A selected field is numbered by the steps still to be made wherever it stands. -/
theorem deleted_place (hm : m p = true) :
    deleted m (Compaction.place (rank m) (deleted m) k p) / 2 ^ k = deleted m p / 2 ^ k := by
  have hle := Compaction.place_le (s := k) (rank_add_deleted hm)
  obtain ⟨n, hn⟩ := Nat.exists_eq_add_of_le hle
  have hnear := deleted_add m (Compaction.place (rank m) (deleted m) k p) n
  rw [← hn] at hnear
  have hplace : Compaction.place (rank m) (deleted m) k p =
    rank m p + 2 ^ k * (deleted m p / 2 ^ k) := rfl
  have hdiv := Nat.div_add_mod (deleted m p) (2 ^ k)
  have hsum := rank_add_deleted hm
  apply Nat.le_antisymm (Nat.div_le_div_right hnear.1)
  rw [Nat.le_div_iff_mul_le (Nat.two_pow_pos k), Nat.mul_comm]
  omega

/-- The steps for the bits below `k` have been made: every selected field stands at its place, and
everything else is zero. -/
structure Compacting (fw t : ℕ) (m v : Stream) (k : ℕ) (totals selected : Stream) : Prop where
  remaining (q : ℕ) (hq : q < 2 ^ t) (hfits : deleted m q < 2 ^ fw) :
    field fw totals q = 2 ^ k * (deleted m q / 2 ^ k)
  place (q : ℕ) (hq : q < 2 ^ t) (c : ℕ) (hc : c < fw) : selected (fw * q + c) = true ↔
    ∃ p < 2 ^ t, m p = true ∧ Compaction.place (rank m) (deleted m) k p = q ∧
      v (fw * p + c) = true

/-- The vectors after one step. -/
def compressStep (fw count shiftAmount : ℕ) (totals selected : Stream) : Stream × Stream :=
  let shift_select := simd_and totals (simd_fill fw shiftAmount)
  let to_shift := simd_and (simd_eq fw shift_select (simd_fill fw shiftAmount)) selected
  (simd_sub fw totals shift_select,
    simd_or (mvmd_srli fw count to_shift shiftAmount) (simd_xor selected to_shift))

theorem compressLoop_eq {count shiftAmount : ℕ} (h : 0 < shiftAmount ∧ shiftAmount < count) :
    compressLoop fw count shiftAmount totals selected =
      compressLoop fw count (shiftAmount * 2) (compressStep fw count shiftAmount totals selected).1
        (compressStep fw count shiftAmount totals selected).2 := by
  rw [compressLoop, if_pos h]
  rfl

theorem mvmd_srli_apply {count shift : ℕ} {a : Stream} (hc : c < fw) :
    mvmd_srli fw count a shift (fw * i + c) =
      (decide (i + shift < count) && a (fw * (i + shift) + c)) := by
  rw [mvmd_srli, ofFields, mul_add_div_of_lt hc, mul_add_mod_of_lt hc]
  split_ifs with h
  · rw [testBit_field, decide_eq_true hc, decide_eq_true h]
  · rw [Nat.zero_testBit, decide_eq_false h, Bool.false_and]

/-- A field has moved in from above, or it has stayed. -/
theorem compressStep_apply {count shift : ℕ} (hc : c < fw) :
    (compressStep fw count shift totals selected).2 (fw * i + c) = true ↔
      i + shift < count ∧ selected (fw * (i + shift) + c) = true ∧
          field fw (simd_and totals (simd_fill fw shift)) (i + shift) =
            field fw (simd_fill fw shift) (i + shift) ∨
        selected (fw * i + c) = true ∧
          field fw (simd_and totals (simd_fill fw shift)) i ≠ field fw (simd_fill fw shift) i := by
  simp only [compressStep, simd_or, mvmd_srli_apply hc, simd_xor]
  rw [simd_and, simd_and, simd_eq_apply hc, simd_eq_apply hc]
  cases selected (fw * i + c) <;> simp [and_comm]

theorem two_pow_mul_and (k y : ℕ) : 2 ^ k * y &&& 2 ^ k = 2 ^ k * (y % 2) := by
  rw [Nat.and_two_pow, Nat.testBit_two_pow_mul, decide_eq_true le_rfl, Bool.true_and, Nat.sub_self,
    Nat.testBit_zero, Nat.mul_comm]
  rcases Nat.mod_two_eq_zero_or_one y with h | h
  · rw [h]
    rfl
  · rw [h]
    rfl

theorem Compacting.select (h : Compacting fw t m v k totals selected) (hpow : 2 ^ k < 2 ^ fw)
    (hq : q < 2 ^ t) (hfits : deleted m q < 2 ^ fw) :
    field fw (simd_and totals (simd_fill fw (2 ^ k))) q = 2 ^ k * (deleted m q / 2 ^ k % 2) := by
  rw [field_and, field_fill hpow, h.remaining q hq hfits, two_pow_mul_and]

/-- The field at the place of a selected one moves if the bit of its number is set. -/
theorem Compacting.moving_iff (h : Compacting fw t m v k totals selected) (hk : k < fw)
    (hp : p < 2 ^ t) (hm : m p = true) (hfits : deleted m p < 2 ^ fw)
    (hplace : Compaction.place (rank m) (deleted m) k p = q) :
    field fw (simd_and totals (simd_fill fw (2 ^ k))) q = field fw (simd_fill fw (2 ^ k)) q ↔
      deleted m p / 2 ^ k % 2 = 1 := by
  have hpow : 2 ^ k < 2 ^ fw := Nat.pow_lt_pow_right Nat.one_lt_two hk
  have hq : q ≤ p := hplace ▸ Compaction.place_le (rank_add_deleted hm)
  obtain ⟨n, hn⟩ := Nat.exists_eq_add_of_le hq
  have hnear := (deleted_add m q n).1
  rw [← hn] at hnear
  rw [h.select hpow (hq.trans_lt hp) (hnear.trans_lt hfits), field_fill hpow,
    Nat.mul_eq_left (Nat.two_pow_pos k).ne', ← hplace, deleted_place hm]

theorem Compacting.step (hk : k < fw)
    (hfits : ∀ p < 2 ^ t, m p = true → deleted m p < 2 ^ fw)
    (h : Compacting fw t m v k totals selected) :
    Compacting fw t m v (k + 1) (compressStep fw (2 ^ t) (2 ^ k) totals selected).1
      (compressStep fw (2 ^ t) (2 ^ k) totals selected).2 := by
  have hpow : 2 ^ k < 2 ^ fw := Nat.pow_lt_pow_right Nat.one_lt_two hk
  constructor
  · intro q hq hfits
    have hdef : (compressStep fw (2 ^ t) (2 ^ k) totals selected).1 =
      simd_sub fw totals (simd_and totals (simd_fill fw (2 ^ k))) := rfl
    have hsplit := two_pow_mul_div (deleted m q) k
    have hle := Nat.mul_div_le (deleted m q) (2 ^ k)
    rw [hdef, simd_sub, field_ofFields, h.select hpow hq hfits, h.remaining q hq hfits, hsplit,
      show 2 ^ (k + 1) * (deleted m q / 2 ^ (k + 1)) + 2 ^ k * (deleted m q / 2 ^ k % 2) + 2 ^ fw -
        2 ^ k * (deleted m q / 2 ^ k % 2) = 2 ^ (k + 1) * (deleted m q / 2 ^ (k + 1)) + 2 ^ fw by
        omega,
      Nat.add_mod_right, Nat.mod_eq_of_lt (by omega)]
  · intro q hq c hc
    rw [compressStep_apply hc]
    constructor
    · rintro (⟨habove, hone, hmove⟩ | ⟨hone, hstay⟩)
      · obtain ⟨p, hp, hm, hplace, hv⟩ := (h.place _ habove c hc).1 hone
        have hbit := (h.moving_iff hk hp hm (hfits p hp hm) hplace).1 hmove
        rw [Compaction.place_of_moving hbit] at hplace
        exact ⟨p, hp, hm, Nat.add_right_cancel hplace, hv⟩
      · obtain ⟨p, hp, hm, hplace, hv⟩ := (h.place q hq c hc).1 hone
        have hbit := mt (h.moving_iff hk hp hm (hfits p hp hm) hplace).2 hstay
        rw [Compaction.place_of_staying (Nat.mod_two_ne_one.1 hbit)] at hplace
        exact ⟨p, hp, hm, hplace, hv⟩
    · rintro ⟨p, hp, hm, hplace, hv⟩
      rcases Nat.mod_two_eq_zero_or_one (deleted m p / 2 ^ k) with hbit | hbit
      · rw [← Compaction.place_of_staying hbit] at hplace
        refine .inr ⟨(h.place q hq c hc).2 ⟨p, hp, hm, hplace, hv⟩, ?_⟩
        rw [Ne, h.moving_iff hk hp hm (hfits p hp hm) hplace, hbit]
        exact Nat.zero_ne_one
      · have hmoved := Compaction.place_of_moving (d := rank m) hbit
        rw [hplace] at hmoved
        have habove : q + 2 ^ k < 2 ^ t :=
          (hmoved ▸ Compaction.place_le (rank_add_deleted hm)).trans_lt hp
        exact .inl ⟨habove, (h.place _ habove c hc).2 ⟨p, hp, hm, hmoved, hv⟩,
          (h.moving_iff hk hp hm (hfits p hp hm) hmoved).2 hbit⟩

theorem Compacting.steps (hfits : ∀ p < 2 ^ t, m p = true → deleted m p < 2 ^ fw) (n : ℕ)
    (hfw : k + n ≤ fw) (ht : k + n ≤ t) (h : Compacting fw t m v k totals selected) :
    ∃ totals' selected', Compacting fw t m v (k + n) totals' selected' ∧
      compressLoop fw (2 ^ t) (2 ^ k) totals selected =
        compressLoop fw (2 ^ t) (2 ^ (k + n)) totals' selected' := by
  induction n generalizing k totals selected with
  | zero => exact ⟨totals, selected, h, rfl⟩
  | succ n ih =>
    have hlt : k < t := by omega
    have hloop := @compressLoop_eq fw totals selected _ _
      ⟨Nat.two_pow_pos k, Nat.pow_lt_pow_right Nat.one_lt_two hlt⟩
    rw [show k + (n + 1) = k + 1 + n by omega] at hfw ht ⊢
    rw [hloop, ← pow_succ]
    exact ih hfw ht (h.step (by omega) hfits)

theorem compressLoop_last (totals selected : Stream) :
    compressLoop fw (2 ^ t) (2 ^ t) totals selected = selected := by
  rw [compressLoop, if_neg fun hloop ↦ hloop.2.ne rfl]

/-- The selected fields stand in their order at the low places, and the other places are zero. -/
def Compresses (fw count : ℕ) (v m out : Stream) : Prop :=
  ∀ i < count, field fw out i = (compress m (field fw v) 0 count).getD i 0

theorem getD_compress_testBit (c : ℕ) (count : ℕ) (hc : c < fw) :
    ((compress m (field fw v) 0 count).getD i 0).testBit c = true ↔
      ∃ p < count, m p = true ∧ rank m p = i ∧ v (fw * p + c) = true := by
  rw [List.getD_eq_getElem?_getD]
  cases hget : (compress m (field fw v) 0 count)[i]? with
  | none =>
    refine ⟨fun h ↦ absurd h (by simp), ?_⟩
    rintro ⟨p, hp, hm, hrank, -⟩
    have hsome : (compress m (field fw v) 0 count)[i]? = some (field fw v p) :=
      getElem?_compress_eq_some.2 ⟨p, hp, by rwa [Nat.zero_add], by simpa using hrank,
        by rw [Nat.zero_add]⟩
    rw [hget] at hsome
    cases hsome
  | some x =>
    obtain ⟨p, hp, hm, hrank, rfl⟩ := getElem?_compress_eq_some.1 hget
    rw [Nat.zero_add] at hm hrank ⊢
    rw [rank_zero, Nat.zero_add] at hrank
    rw [Option.getD_some, testBit_field, decide_eq_true hc, Bool.true_and]
    refine ⟨fun hv ↦ ⟨p, hp, hm, hrank, hv⟩, ?_⟩
    rintro ⟨p', -, hm', hrank', hv⟩
    rwa [← rank_inj hm' hm (hrank'.trans hrank.symm)]

theorem compresses_iff {count : ℕ} {out : Stream} : Compresses fw count v m out ↔
    ∀ i < count, ∀ c < fw, out (fw * i + c) = true ↔
      ∃ p < count, m p = true ∧ rank m p = i ∧ v (fw * p + c) = true := by
  refine forall₂_congr fun i hi ↦ ?_
  constructor
  · intro h c hc
    rw [← getD_compress_testBit c count hc, ← h, testBit_field, decide_eq_true hc, Bool.true_and]
  · intro h
    apply Nat.eq_of_testBit_eq
    intro c
    by_cases hc : c < fw
    · rw [Bool.eq_iff_iff, getD_compress_testBit c count hc, ← h c hc, testBit_field,
        decide_eq_true hc, Bool.true_and]
    · have hlt : (compress m (field fw v) 0 count).getD i 0 < 2 ^ fw := by
        rw [List.getD_eq_getElem?_getD]
        cases hget : (compress m (field fw v) 0 count)[i]? with
        | none => exact Nat.two_pow_pos fw
        | some x =>
          obtain ⟨p, -, -, -, rfl⟩ := getElem?_compress_eq_some.1 hget
          exact field_lt
      rw [testBit_field, decide_eq_false hc, Bool.false_and, Nat.testBit_lt_two_pow
        (hlt.trans_le (Nat.pow_le_pow_right Nat.two_pos (Nat.le_of_not_lt hc)))]

/-- At first every selected field stands where it was. -/
theorem compacting_initial (hpos : 0 < fw)
    (hmask : ∀ i < 2 ^ t, ∀ c < fw, select_mask (fw * i + c) = m i) :
    Compacting fw t m v 0
      (hsimd_partial_sum fw (2 ^ t) (simd_add fw (simd_fill fw 1) select_mask))
      (simd_and v select_mask) := by
  have hone : 1 < 2 ^ fw := Nat.one_lt_two.trans_le (Nat.le_self_pow hpos.ne' 2)
  have hdeletion (i : ℕ) (hi : i < 2 ^ t) : field fw (simd_add fw (simd_fill fw 1) select_mask) i =
      (!m i).toNat := by
    have hfield : field fw select_mask i = if m i then 2 ^ fw - 1 else 0 := by
      apply Nat.eq_of_testBit_eq
      intro c
      rw [testBit_field]
      by_cases hc : c < fw
      · rw [decide_eq_true hc, Bool.true_and, hmask i hi c hc]
        cases m i <;> simp [hc]
      · rw [decide_eq_false hc, Bool.false_and]
        cases m i <;> simp [hc]
    rw [simd_add, field_ofFields, field_fill hone, hfield]
    cases m i with
    | false => exact Nat.mod_eq_of_lt hone
    | true =>
      rw [if_pos rfl, show 1 + (2 ^ fw - 1) = 2 ^ fw by omega, Nat.mod_self]
      rfl
  have htotals (q : ℕ) (hq : q < 2 ^ t) : field fw (hsimd_partial_sum fw (2 ^ t)
      (simd_add fw (simd_fill fw 1) select_mask)) q = deleted m q % 2 ^ fw := by
    have hloop := @partialSumLoop_fields fw _ _ _ (rank fun p ↦ !m p)
      (simd_add fw (simd_fill fw 1) select_mask) Nat.one_pos (rank_mono _) (fun i hi ↦ ?_) hq
    · rwa [rank_zero, Nat.sub_zero] at hloop
    · rw [hdeletion i hi, Nat.add_sub_cancel, rank_succ, Nat.add_sub_cancel_left,
        Nat.mod_eq_of_lt ((Bool.toNat_lt _).trans_le (Nat.le_self_pow hpos.ne' 2))]
  constructor
  · intro q hq hfits
    rw [htotals q hq, Nat.mod_eq_of_lt hfits, pow_zero, Nat.one_mul, Nat.div_one]
  · intro q hq c hc
    rw [simd_and, hmask q hq c hc, Bool.and_eq_true]
    constructor
    · rintro ⟨hv, hm⟩
      exact ⟨q, hq, hm, Compaction.place_zero (rank_add_deleted hm), hv⟩
    · rintro ⟨p, -, hm, hplace, hv⟩
      rw [Compaction.place_zero (rank_add_deleted hm)] at hplace
      exact hplace ▸ ⟨hv, hm⟩

theorem compressFields_compresses (hpos : 0 < fw) (hfw : t ≤ fw)
    (hmask : ∀ i < 2 ^ t, ∀ c < fw, select_mask (fw * i + c) = m i) :
    Compresses fw (2 ^ t) v m (compressFields fw (2 ^ t) v select_mask) := by
  have hcount : 2 ^ t ≤ 2 ^ fw := Nat.pow_le_pow_right Nat.two_pos hfw
  have hdeleted (p : ℕ) (hp : p < 2 ^ t) (hm : m p = true) : deleted m p < 2 ^ t := by
    have hsum := rank_add_deleted hm
    omega
  obtain ⟨totals, selected, hlast, hloop⟩ := @Compacting.steps fw t 0 m v _ _
    (fun p hp hm ↦ (hdeleted p hp hm).trans_le hcount) t (by omega) (by omega)
    (compacting_initial hpos hmask)
  rw [Nat.zero_add] at hlast hloop
  rw [compressLoop_last, pow_zero] at hloop
  rw [compresses_iff, compressFields, hloop]
  intro i hi c hc
  refine (hlast.place i hi c hc).trans (exists_congr fun p ↦ ?_)
  refine and_congr_right fun hp ↦ and_congr_right fun hm ↦ ?_
  rw [Compaction.place_of_lt (hdeleted p hp hm)]

theorem selectedFields_apply {bits : Stream} (hpos : 0 < fw) (hshift : fw ≤ 64 ∨ t ≤ 6)
    (hi : i < 2 ^ t) (hc : c < fw) : selectedFields fw (2 ^ t) bits (fw * i + c) = bits i := by
  rw [selectedFields]
  split_ifs with hcount
  · have hlt : i < 64 := by
      rcases hshift with hfw | ht
      · omega
      · have hpow : 2 ^ t ≤ 2 ^ 6 := Nat.pow_le_pow_right Nat.two_pos ht
        omega
    have hseq : field fw (ofFields fw fun i ↦ 2 ^ i % 2 ^ 64) i = 2 ^ i := by
      rw [field_ofFields, Nat.mod_eq_of_lt (Nat.pow_lt_pow_right Nat.one_lt_two hlt),
        Nat.mod_eq_of_lt (Nat.pow_lt_pow_right Nat.one_lt_two (hi.trans_le hcount))]
    have hbit : (field fw bits 0).testBit i = bits i := by
      rw [testBit_field, decide_eq_true (hi.trans_le hcount), Bool.true_and, Nat.mul_zero,
        Nat.zero_add]
    simp only [simd_eq_apply hc, field_and, hseq, field_fill field_lt, Nat.and_two_pow, hbit]
    have hne : 0 ≠ 2 ^ i := (Nat.two_pow_pos i).ne
    cases bits i with
    | false => simp [hne]
    | true => simp
  · rw [simd_any_apply hc, field_bitspread hpos]
    cases bits i <;> rfl

/-- The low fields stand in their order at the selected places, and the other places are zero. -/
def Expands (fw count : ℕ) (v m out : Stream) : Prop :=
  ∀ i < count, field fw out i = if m i then field fw v (rank m i) else 0

/-- A mask selects the fields of its set bits, or those with all ones. -/
def SelectMask.Selects (fw count : ℕ) (m : Stream) : SelectMask → Prop
  | .integer bits => ∀ i < count, bits i = m i
  | .vector fields => ∀ i < count, field fw fields i = if m i then 2 ^ fw - 1 else 0

/-- Expanding what has been compressed leaves the selected fields. -/
theorem Compresses.expands {count : ℕ} {compressed out : Stream}
    (hcompressed : Compresses fw count v m compressed)
    (hout : Expands fw count compressed m out) (hi : i < count) :
    field fw out i = if m i then field fw v i else 0 := by
  rw [hout i hi]
  refine ite_congr rfl (fun hm ↦ ?_) fun _ ↦ rfl
  have hget : (compress m (field fw v) 0 count)[rank m i]? = some (field fw v i) :=
    getElem?_compress_eq_some.2 ⟨i, hi, by rwa [Nat.zero_add], by simp, by rw [Nat.zero_add]⟩
  rw [hcompressed _ ((rank_le m i).trans_lt hi), List.getD_eq_getElem?_getD, hget, Option.getD_some]

theorem mvmd_compress_compresses (hfw : 8 ≤ fw) (ht : t ≤ fw) (hshift : fw ≤ 64 ∨ t ≤ 6)
    (v m : Stream) : ∃ out, IDISA_Builder.mvmd_compress fw (2 ^ t) v (.integer m) = .ok out ∧
      Compresses fw (2 ^ t) v m out := by
  have hpos : 0 < fw := by omega
  rw [IDISA_Builder.mvmd_compress, if_neg (Nat.not_lt.2 hfw)]
  exact ⟨_, rfl, compressFields_compresses hpos ht fun _ hi _ hc ↦
    selectedFields_apply hpos hshift hi hc⟩

theorem mvmd_compress_vector (hfw : 8 ≤ fw) (ht : t ≤ fw) {fields : Stream}
    (hfields : ∀ i < 2 ^ t, field fw fields i = if m i then 2 ^ fw - 1 else 0) (v : Stream) :
    ∃ out, IDISA_Builder.mvmd_compress fw (2 ^ t) v (.vector fields) = .ok out ∧
      Compresses fw (2 ^ t) v m out := by
  rw [IDISA_Builder.mvmd_compress, if_neg (Nat.not_lt.2 hfw)]
  refine ⟨_, rfl, compressFields_compresses (by omega) ht fun i hi c hc ↦ ?_⟩
  have hbit := congrArg (·.testBit c) (hfields i hi)
  simp only [testBit_field, decide_eq_true hc, Bool.true_and] at hbit
  rw [hbit]
  cases m i <;> simp [hc]

theorem mvmd_expand_expands (hfw : 8 ≤ fw) (ht : t ≤ fw) (v m : Stream) :
    ∃ out, IDISA_Builder.mvmd_expand fw (2 ^ t) v (.integer m) = .ok out ∧
      Expands fw (2 ^ t) v m out := by
  rw [IDISA_Builder.mvmd_expand, if_neg (Nat.not_lt.2 hfw)]
  exact ⟨_, rfl, fun _ hi ↦ field_mvmd_expand (by omega) ht m hi⟩

theorem mvmd_expand_vector (hfw : 8 ≤ fw) (ht : t ≤ fw) {fields : Stream}
    (hfields : ∀ i < 2 ^ t, field fw fields i = (m i).toNat) (v : Stream) :
    ∃ out, IDISA_Builder.mvmd_expand fw (2 ^ t) v (.vector fields) = .ok out ∧
      Expands fw (2 ^ t) v m out := by
  rw [IDISA_Builder.mvmd_expand, if_neg (Nat.not_lt.2 hfw)]
  exact ⟨_, rfl, fun _ hi ↦ field_expandFields (by omega) ht hfields hi⟩

end Compress

end Parabix.IDISA
