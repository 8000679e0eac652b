import Parabix.Library.Fault
import Parabix.Library.UTF8
import Parabix.UCD.UnicodeSet

namespace Parabix.UCD

open Library Library.UTF8

structure UTF_Encoder where
  mCodeUnitBits : ℕ

namespace UTF_Encoder

def encoded_length (encoder : UTF_Encoder) (cp : ℕ) : ℕ :=
  if encoder.mCodeUnitBits = 8 then
    if cp ≤ 0x7F then 1
    else if cp ≤ 0x7FF then 2
    else if cp ≤ 0xFFFF then 3
    else 4
  else if encoder.mCodeUnitBits = 16 then
    if cp ≤ 0xFFFF then 1 else 2
  else 1

def max_codepoint_of_length (encoder : UTF_Encoder) (length : ℕ) : Except Fault ℕ :=
  if encoder.mCodeUnitBits = 8 then
    if length = 1 then .ok 0x7F
    else if length = 2 then .ok 0x7FF
    else if length = 3 then .ok 0xFFFF
    else if length = 4 then .ok 0x10FFFF
    else .error (.fatal "length == 4")
  else if encoder.mCodeUnitBits = 16 then
    if length = 1 then .ok 0xFFFF
    else if length = 2 then .ok 0x10FFFF
    else .error (.fatal "length == 2")
  else .ok 0x10FFFF

/-- The first of several code units. -/
def firstCodeUnit (length cp : ℕ) : ℕ :=
  match length with
  | 1 => cp
  | 2 => 0xC0 ||| cp >>> 6
  | 3 => 0xE0 ||| cp >>> 12
  | _ => 0xF0 ||| cp >>> 18

def nthCodeUnit (encoder : UTF_Encoder) (cp n : ℕ) : Except Fault ℕ :=
  let length := encoder.encoded_length cp
  if encoder.mCodeUnitBits = 8 then
    if n = 1 then .ok (firstCodeUnit length cp)
    -- Beyond the last code unit the shift is too wide.
    else if length < n then .error .poison
    else .ok (0x80 ||| cp >>> (6 * (length - n)) &&& 0x3F)
  else if encoder.mCodeUnitBits = 16 then
    if length = 1 then
      if n = 1 then .ok cp else .error (.fatal "n == 1")
    else if n = 1 then .ok (0xD800 ||| (cp - 0x10000) >>> 10)
    else .ok (0xDC00 ||| (cp - 0x10000) &&& 0x3FF)
  else if n = 1 then .ok cp
  else .error (.fatal "n == 1")

end UTF_Encoder

section UTF8

variable {cp n : ℕ}

theorem encoded_length_eq (cp : ℕ) : UTF_Encoder.encoded_length ⟨8⟩ cp = width cp := by
  unfold UTF_Encoder.encoded_length width
  simp only [if_true]
  split_ifs <;> omega

/-- The largest code point of a length is followed by one of the next length. -/
theorem max_codepoint_spec {lo hi : ℕ} (h : width lo < width hi) :
    ∃ m, UTF_Encoder.max_codepoint_of_length ⟨8⟩ (width lo) = .ok m ∧ lo ≤ m ∧ m < hi ∧
      width m = width lo ∧ width lo < width (m + 1) := by
  have hlast : ∃ m, UTF_Encoder.max_codepoint_of_length ⟨8⟩ (width lo) = .ok m ∧ lo ≤ m ∧
      width m = width lo ∧ width lo < width (m + 1) := by
    have hfour : width lo ≠ 4 := by
      have := width_le hi
      omega
    unfold width at hfour ⊢
    split_ifs at hfour ⊢ with h1 h2 h3
    · exact ⟨0x7F, rfl, by omega, rfl, by decide⟩
    · exact ⟨0x7FF, rfl, by omega, rfl, by decide⟩
    · exact ⟨0xFFFF, rfl, by omega, rfl, by decide⟩
    · exact absurd rfl hfour
  obtain ⟨m, hm, hle, hwidth, hnext⟩ := hlast
  refine ⟨m, hm, hle, ?_, hwidth, hnext⟩
  by_contra hge
  have := width_mono (Nat.le_of_not_lt hge)
  omega

theorem firstCodeUnit_eq (h : cp ≤ unicodeMax) :
    UTF_Encoder.firstCodeUnit (width cp) cp = lead (width cp) + cp / 64 ^ (width cp - 1) := by
  have hmax : cp < 0x110000 := Nat.lt_succ_of_le h
  have hmark (i a k : ℕ) (hk : cp >>> k < 2 ^ i) :
      2 ^ i * a ||| cp >>> k = 2 ^ i * a + cp / 2 ^ k := by
    rw [← Nat.two_pow_add_eq_or_of_lt hk, Nat.shiftRight_eq_div_pow]
  have hlt (k b : ℕ) (hb : cp < 2 ^ k * b) : cp >>> k < b := by
    rw [Nat.shiftRight_eq_div_pow]
    exact Nat.div_lt_of_lt_mul hb
  unfold width
  split_ifs with h1 h2 h3
  · simp [UTF_Encoder.firstCodeUnit, lead]
  · exact hmark 6 3 6 (hlt 6 _ (by omega))
  · exact hmark 5 7 12 (hlt 12 _ (by omega))
  · exact hmark 4 15 18 (hlt 18 _ (by omega))

theorem nthCodeUnit_one (h : cp ≤ unicodeMax) : UTF_Encoder.nthCodeUnit ⟨8⟩ cp 1 =
    .ok (lead (width cp) + cp / 64 ^ (width cp - 1)) := by
  simp only [UTF_Encoder.nthCodeUnit, if_true, encoded_length_eq, firstCodeUnit_eq h]

theorem nthCodeUnit_rest (h1 : n ≠ 1) (hn : n ≤ width cp) : UTF_Encoder.nthCodeUnit ⟨8⟩ cp n =
    .ok (0x80 + cp / 64 ^ (width cp - n) % 64) := by
  have hmask : cp >>> (6 * (width cp - n)) &&& 0x3F = cp / 64 ^ (width cp - n) % 64 := by
    rw [show 0x3F = 2 ^ 6 - 1 from rfl, Nat.and_two_pow_sub_one_eq_mod,
      Nat.shiftRight_eq_div_pow, Nat.pow_mul]
  have hlt : cp / 64 ^ (width cp - n) % 64 < 2 ^ 7 :=
    (Nat.mod_lt _ (by decide)).trans (by decide)
  simp only [UTF_Encoder.nthCodeUnit, if_true, encoded_length_eq, if_neg h1, if_neg hn.not_gt,
    hmask]
  exact congrArg Except.ok (Nat.two_pow_add_eq_or_of_lt hlt 1).symm

end UTF8

end Parabix.UCD
