import Mathlib.Tactic.IntervalCases
import Parabix.Unicode.UTF8Decoder
import Parabix.Unicode.UTF8Gen

namespace Parabix.Unicode

open Library Library.BitStream Library.UTF8

namespace UTF8_Decoder

variable {mode : BitMovementMode} {UTF8_bit : Basis} {runs1 runs2 runs3 : Stream}

section Branches

/-- The bits that `orInto` adds. -/
def part (offset count : ℕ) (bits : Basis) : Basis := fun i ↦
  if offset ≤ i ∧ i < offset + count then bits (i - offset) else fun _ ↦ false

theorem orInto_eq (offset count : ℕ) (U bits : Basis) (i : ℕ) :
    orInto offset count U bits i = fun p ↦ U i p || part offset count bits i p := by
  rw [orInto, part]
  split_ifs
  · rfl
  · funext p
    rw [Bool.or_false]

theorem covered_part {offset count : ℕ} {bits : Basis} {runs : Stream}
    (h : ∀ i < count, Covered (bits i) runs) (i : ℕ) : Covered (part offset count bits i) runs := by
  rw [part]
  split_ifs with hi
  · exact h _ (by omega)
  · exact covered_zero runs

def added1 (mode : BitMovementMode) (UTF8_bit : Basis) (runs1 : Stream) : Basis := fun i p ↦
  part 6 5 (pfx2_bit mode UTF8_bit runs1) i p ||
    part 0 6 (fun i p ↦ scope22 mode UTF8_bit runs1 p && suffix2_bit mode UTF8_bit i p) i p

def added2 (mode : BitMovementMode) (UTF8_bit : Basis) (runs2 : Stream) : Basis := fun i p ↦
  (part 12 4 (pfx3_bit mode UTF8_bit runs2) i p || part 6 6 (sfx32bit mode UTF8_bit runs2) i p) ||
    part 0 6 (sfx33bit mode UTF8_bit runs2) i p

def added3 (mode : BitMovementMode) (UTF8_bit : Basis) (runs3 : Stream) : Basis := fun i p ↦
  ((part 18 3 (pfx4_bit mode UTF8_bit runs3) i p ||
    part 12 6 (sfx42bit mode UTF8_bit runs3) i p) ||
      part 6 6 (sfx43bit mode UTF8_bit runs3) i p) || part 0 6 (sfx44bit mode UTF8_bit runs3) i p

theorem level1_eq (U : Basis) (i : ℕ) : level1 mode UTF8_bit runs1 U i =
    fun p ↦ U i p || added1 mode UTF8_bit runs1 i p := by
  funext p
  simp only [level1, orInto_eq, added1, Bool.or_assoc]

theorem level2_eq (U : Basis) (i : ℕ) : level2 mode UTF8_bit runs2 U i =
    fun p ↦ U i p || added2 mode UTF8_bit runs2 i p := by
  funext p
  simp only [level2, orInto_eq, added2, Bool.or_assoc]

theorem level3_eq (U : Basis) (i : ℕ) : level3 mode UTF8_bit runs3 U i =
    fun p ↦ U i p || added3 mode UTF8_bit runs3 i p := by
  funext p
  simp only [level3, orInto_eq, added3, Bool.or_assoc]

/-- Where every level adds bits only where it runs, the branches change nothing. -/
theorem unicode_bit_eq (h : Branches mode UTF8_bit runs1 runs2 runs3)
    (h1 : ∀ i, Covered (added1 mode UTF8_bit runs1 i) runs1)
    (h2 : ∀ i, Covered (added2 mode UTF8_bit runs2 i) runs2)
    (h3 : ∀ i, Covered (added3 mode UTF8_bit runs3 i) runs3) (i : ℕ) :
    unicode_bit mode UTF8_bit runs1 runs2 runs3 i = fun p ↦
      initialBits UTF8_bit i p || (added1 mode UTF8_bit runs1 i p ||
        (added2 mode UTF8_bit runs2 i p || added3 mode UTF8_bit runs3 i p)) := by
  have h32 := (h3 i).trans h.level3.covered
  have hlevel2 := (h2 i).or h32
  have hlevel1 := (h1 i).or (hlevel2.trans h.level2.covered)
  simp only [unicode_bit, level3_eq, level2_eq, level1_eq]
  rw [(h3 i).assignIn_eq fun _ ↦ rfl, hlevel2.assignIn_eq fun p ↦ Bool.or_assoc _ _ _,
    hlevel1.assignIn_eq fun p ↦ by simp only [Bool.or_assoc]]
  simp only [Bool.or_assoc]

theorem covered_compileByte {lo hi lo' hi' : ℕ} (hlo : lo' ≤ lo) (hhi : hi ≤ hi') :
    Covered (compileByte UTF8_bit lo hi) (compileByte UTF8_bit lo' hi') := by
  intro p hp
  simp only [compileByte, Bool.and_eq_true, decide_eq_true_eq] at hp ⊢
  omega

variable (h : Branches mode UTF8_bit runs1 runs2 runs3)

include h

theorem covered_u8pfx2 : Covered (u8pfx2 UTF8_bit) runs1 :=
  h.level1.covered_condition (fun _ _ ↦ rfl) (covered_compileByte (by decide) (by decide))

theorem covered_u8pfx3 : Covered (u8pfx3 UTF8_bit) runs2 :=
  h.level2.covered_condition
    (h.level1.covered_condition (fun _ _ ↦ rfl) (covered_compileByte (by decide) (by decide)))
    (covered_compileByte (by decide) (by decide))

theorem covered_u8pfx4 : Covered (u8pfx4 UTF8_bit) runs3 :=
  h.level3.covered_condition (h.level2.covered_condition
    (h.level1.covered_condition (fun _ _ ↦ rfl) (covered_compileByte (by decide) (by decide)))
    (covered_compileByte (by decide) (by decide))) fun _ hp ↦ hp

theorem covered_pfx2_bit {i : ℕ} (hi : i < 5) :
    Covered (pfx2_bit mode UTF8_bit runs1 i) runs1 := by
  cases mode with
  | Advance =>
    exact h.level1.covered_advanceIn
      (.tail _ (List.mem_map.2 ⟨i, List.mem_range.2 hi, rfl⟩))
  | LookAhead => exact (covered_u8pfx2 h).and_left _

theorem covered_scope22 : Covered (scope22 mode UTF8_bit runs1) runs1 := by
  cases mode with
  | Advance => exact (h.level1.covered_advanceIn (.head _)).and_right _
  | LookAhead => exact (covered_u8pfx2 h).and_left _

theorem covered_added1 (i : ℕ) : Covered (added1 mode UTF8_bit runs1 i) runs1 :=
  (covered_part (fun _ hi ↦ covered_pfx2_bit h hi) i).or
    (covered_part (fun _ _ ↦ (covered_scope22 h).and_left _) i)

theorem covered_pfx3_bit {i : ℕ} (hi : i < 4) :
    Covered (pfx3_bit mode UTF8_bit runs2 i) runs2 := by
  cases mode with
  | Advance =>
    exact h.level2.covered_advanceIn (List.mem_append_left _
      (.tail _ (.tail _ (List.mem_map.2 ⟨i, List.mem_range.2 hi, rfl⟩))))
  | LookAhead => exact (covered_u8pfx3 h).and_left _

theorem covered_scope32 : Covered (scope32 mode UTF8_bit runs2) runs2 := by
  cases mode with
  | Advance => exact (h.level2.covered_advanceIn (.head _)).and_right _
  | LookAhead => exact (covered_u8pfx3 h).and_left _

theorem covered_scope33 : Covered (scope33 mode UTF8_bit runs2) runs2 := by
  cases mode with
  | Advance => exact (h.level2.covered_advanceIn (.tail _ (.head _))).and_right _
  | LookAhead => exact (covered_u8pfx3 h).and_left _

theorem covered_sfx32bit {i : ℕ} (hi : i < 6) :
    Covered (sfx32bit mode UTF8_bit runs2 i) runs2 := by
  cases mode with
  | Advance =>
    exact h.level2.covered_advanceIn
      (List.mem_append_right _ (List.mem_map.2 ⟨i, List.mem_range.2 hi, rfl⟩))
  | LookAhead => exact (covered_scope32 h).and_left _

theorem covered_added2 (i : ℕ) : Covered (added2 mode UTF8_bit runs2 i) runs2 :=
  ((covered_part (fun _ hi ↦ covered_pfx3_bit h hi) i).or
    (covered_part (fun _ hi ↦ covered_sfx32bit h hi) i)).or
    (covered_part (fun _ _ ↦ (covered_scope33 h).and_left _) i)

theorem covered_pfx4_bit {i : ℕ} (hi : i < 3) :
    Covered (pfx4_bit mode UTF8_bit runs3 i) runs3 := by
  cases mode with
  | Advance =>
    exact h.level3.covered_advanceIn (List.mem_append_left _ (List.mem_append_left _
      (.tail _ (.tail _ (.tail _ (List.mem_map.2 ⟨i, List.mem_range.2 hi, rfl⟩))))))
  | LookAhead => exact (covered_u8pfx4 h).and_left _

theorem covered_scope42 : Covered (scope42 mode UTF8_bit runs3) runs3 := by
  cases mode with
  | Advance => exact (h.level3.covered_advanceIn (.head _)).and_right _
  | LookAhead => exact (covered_u8pfx4 h).and_left _

theorem covered_scope43 : Covered (scope43 mode UTF8_bit runs3) runs3 := by
  cases mode with
  | Advance => exact (h.level3.covered_advanceIn (.tail _ (.head _))).and_right _
  | LookAhead => exact (covered_u8pfx4 h).and_left _

theorem covered_scope44 : Covered (scope44 mode UTF8_bit runs3) runs3 := by
  cases mode with
  | Advance => exact (h.level3.covered_advanceIn (.tail _ (.tail _ (.head _)))).and_right _
  | LookAhead => exact (covered_u8pfx4 h).and_left _

theorem covered_sfx42bit {i : ℕ} (hi : i < 6) :
    Covered (sfx42bit mode UTF8_bit runs3 i) runs3 := by
  cases mode with
  | Advance =>
    exact h.level3.covered_advanceIn (List.mem_append_left _
      (List.mem_append_right _ (List.mem_map.2 ⟨i, List.mem_range.2 hi, rfl⟩)))
  | LookAhead => exact (covered_scope42 h).and_left _

theorem covered_sfx43bit {i : ℕ} (hi : i < 6) :
    Covered (sfx43bit mode UTF8_bit runs3 i) runs3 := by
  cases mode with
  | Advance =>
    exact h.level3.covered_advanceIn
      (List.mem_append_right _ (List.mem_map.2 ⟨i, List.mem_range.2 hi, rfl⟩))
  | LookAhead => exact (covered_scope43 h).and_left _

theorem covered_added3 (i : ℕ) : Covered (added3 mode UTF8_bit runs3 i) runs3 :=
  (((covered_part (fun _ hi ↦ covered_pfx4_bit h hi) i).or
    (covered_part (fun _ hi ↦ covered_sfx42bit h hi) i)).or
    (covered_part (fun _ hi ↦ covered_sfx43bit h hi) i)).or
    (covered_part (fun _ _ ↦ (covered_scope44 h).and_left _) i)

theorem unicode_bit_apply (i p : ℕ) : unicode_bit mode UTF8_bit runs1 runs2 runs3 i p =
    (initialBits UTF8_bit i p || (added1 mode UTF8_bit runs1 i p ||
      (added2 mode UTF8_bit runs2 i p || added3 mode UTF8_bit runs3 i p))) := by
  rw [unicode_bit_eq h (covered_added1 h) (covered_added2 h) (covered_added3 h)]

end Branches

section Marked

variable {text : List ℕ} {x : Stream} {e k w i n cp : ℕ} {R : ℕ → Bool}

def byte (cp d : ℕ) : ℕ := (utf8 cp).getD d 0

/-- The code units are the bytes of the text. -/
def HoldsBytes (text : List ℕ) (UTF8_bit : Basis) : Prop :=
  ∀ n cp d, text[n]? = some cp → d < width cp →
    codeUnit 8 UTF8_bit (start utf8 text n + d) = byte cp d

/-- Only the `e`-th bytes of the characters of `w` bytes are marked, as the character has it. -/
def Marked (text : List ℕ) (x : Stream) (e w : ℕ) (R : ℕ → Bool) : Prop :=
  OnUnits utf8 text x fun cp d ↦ d == e && width cp == w && R cp

theorem Marked.advance (hx : Marked text x e w R) (hk : e + k < w) :
    Marked text (advance k x) (e + k) w R := by
  have hadvance := OnUnits.advance hx (k := k) fun cp _ d _ hq ↦ by
    simp only [Bool.and_eq_true, beq_iff_eq] at hq
    rw [length_utf8]
    omega
  intro n cp d hc hd
  rw [hadvance n cp d hc hd]
  beta_reduce
  rw [← Bool.and_assoc, ← Bool.and_assoc]
  congr 2
  rw [Bool.eq_iff_iff, Bool.and_eq_true, decide_eq_true_iff, beq_iff_eq, beq_iff_eq]
  omega

/-- A mark is kept where what it is met with is known at its place. -/
theorem Marked.and {y : Stream} {S : ℕ → Bool} (hx : Marked text x e w R)
    (hy : ∀ n cp, text[n]? = some cp → width cp = w → y (start utf8 text n + e) = S cp) :
    Marked text (fun p ↦ x p && y p) e w fun cp ↦ R cp && S cp := by
  intro n cp d hc hd
  beta_reduce
  rw [hx n cp d hc hd]
  by_cases he : d = e
  · by_cases hw : width cp = w
    · rw [he, hy n cp hc hw, Bool.and_assoc]
    · simp only [beq_eq_false_iff_ne.2 hw, Bool.and_false, Bool.false_and]
  · simp only [beq_eq_false_iff_ne.2 he, Bool.false_and]

/-- The bytes after the first one are suffixes. -/
theorem suffix_bits {d : ℕ} (hd : d < width cp) (hpos : 0 < d) :
    ((byte cp d).testBit 7 && !(byte cp d).testBit 6) = true := by
  obtain ⟨d, rfl⟩ := Nat.exists_eq_succ_of_ne_zero hpos.ne'
  have hbyte := getElem?_utf8_succ hd
  rw [byte, List.getD_eq_getElem?_getD, Nat.succ_eq_add_one, hbyte, Option.getD_some,
    testBit_suffix, testBit_suffix]
  rfl

variable (hbytes : HoldsBytes text UTF8_bit)

include hbytes

theorem bit_apply (hc : text[n]? = some cp) (hw : w < width cp) (hi : i < 8) :
    UTF8_bit i (start utf8 text n + w) = (byte cp w).testBit i := by
  rw [← hbytes n cp w hc hw, testBit_codeUnit _ _ hi]

theorem lookahead_apply {j : ℕ} (hc : text[n]? = some cp) (hw : w + j < width cp) (hi : i < 8) :
    createLookahead (UTF8_bit i) j (start utf8 text n + w) = (byte cp (w + j)).testBit i := by
  rw [createLookahead, Nat.add_assoc, bit_apply hbytes hc hw hi]

theorem compileByte_apply {lo hi d : ℕ} (hc : text[n]? = some cp) (hd : d < width cp) :
    compileByte UTF8_bit lo hi (start utf8 text n + d) =
      (decide (lo ≤ byte cp d) && decide (byte cp d ≤ hi)) := by
  rw [compileByte, hbytes n cp d hc hd]

theorem suffix_apply {d : ℕ} (hc : text[n]? = some cp) (hd : d < width cp) (hpos : 0 < d) :
    suffix UTF8_bit (start utf8 text n + d) = true := by
  rw [suffix, bit_apply hbytes hc hd (by decide), bit_apply hbytes hc hd (by decide)]
  exact suffix_bits hd hpos

theorem isSuffix_apply {j : ℕ} (hc : text[n]? = some cp) (hj : j < width cp) (hpos : 0 < j) :
    isSuffix UTF8_bit j (start utf8 text n + 0) = true := by
  rw [isSuffix, lookahead_apply hbytes hc (by omega) (by decide),
    lookahead_apply hbytes hc (by omega) (by decide), Nat.zero_add]
  exact suffix_bits hj hpos

theorem Marked.suffix (hx : Marked text x e w R) (hpos : 0 < e) (he : e < w) :
    Marked text (fun p ↦ suffix UTF8_bit p && x p) e w R := by
  have hand := hx.and (S := fun _ ↦ true)
    fun n cp hc hw ↦ suffix_apply hbytes hc (by omega) hpos
  simpa only [Bool.and_comm (x _), Bool.and_true] using hand

theorem Marked.isSuffix {j : ℕ} (hx : Marked text x 0 w R) (hpos : 0 < j) (hj : j < w) :
    Marked text (fun p ↦ x p && isSuffix UTF8_bit j p) 0 w R := by
  have hand := hx.and (S := fun _ ↦ true)
    fun n cp hc hw ↦ isSuffix_apply hbytes hc (by omega) hpos
  simpa only [Bool.and_true] using hand

/-- In the mode `Advance` a scope is the one before it, moved to the next byte. -/
theorem marked_nextSuffix {runs : Stream} (hx : Marked text x e w R) (hcovered : Covered x runs)
    (hroom : e + 1 < w) :
    Marked text (fun p ↦ suffix UTF8_bit p && advanceIn runs 1 x p) (e + 1) w R := by
  rw [hcovered.advanceIn_eq]
  exact (hx.advance (k := 1) hroom).suffix hbytes (Nat.succ_pos e) hroom

theorem Marked.bit (hx : Marked text x e w fun _ ↦ true) (he : e < w) (hi : i < 8) :
    Marked text (fun p ↦ x p && UTF8_bit i p) e w fun cp ↦ (byte cp e).testBit i := by
  have hand := hx.and (S := fun cp ↦ (byte cp e).testBit i)
    fun n cp hc hw ↦ bit_apply hbytes hc (by omega) hi
  simpa only [Bool.true_and] using hand

theorem Marked.lookahead {j : ℕ} (hx : Marked text x 0 w fun _ ↦ true) (hj : j < w)
    (hi : i < 8) : Marked text (fun p ↦ x p && createLookahead (UTF8_bit i) j p) 0 w
      fun cp ↦ (byte cp j).testBit i := by
  have hand := hx.and (y := createLookahead (UTF8_bit i) j) (S := fun cp ↦ (byte cp j).testBit i)
    fun n cp hc hw ↦ by rw [lookahead_apply hbytes hc (by omega) hi, Nat.zero_add]
  simpa only [Bool.true_and] using hand

/-- A bit of a later suffix, which is looked ahead for twice. -/
theorem marked_suffixBit {j : ℕ} (hx : Marked text x 0 w fun _ ↦ true) (hpos : 0 < j) (hj : j < w)
    (hi : i < 8) :
    Marked text (fun p ↦ x p && (isSuffix UTF8_bit j p && createLookahead (UTF8_bit i) j p)) 0 w
      fun cp ↦ (byte cp j).testBit i := by
  have hbit := (hx.isSuffix hbytes hpos hj).lookahead hbytes hj hi
  simp only [Bool.and_assoc] at hbit
  exact hbit

variable (htext : ∀ cp ∈ text, cp < 2 ^ 21)

include htext

theorem marked_class {lo hi : ℕ} (h : ∀ cp d, cp < 2 ^ 21 → d < width cp →
    (lo ≤ byte cp d ∧ byte cp d ≤ hi ↔ d = 0 ∧ width cp = w)) :
    Marked text (compileByte UTF8_bit lo hi) 0 w fun _ ↦ true := by
  intro n cp d hc hd
  rw [length_utf8] at hd
  rw [compileByte_apply hbytes hc hd, Bool.eq_iff_iff]
  simpa using h cp d (htext cp (List.mem_of_getElem? hc)) hd

theorem marked_ASCII : Marked text (ASCII UTF8_bit) 0 1 fun _ ↦ true :=
  marked_class hbytes htext fun cp d hcp hd ↦ by
    have := byte_class hcp hd
    rw [byte]
    omega

theorem marked_u8pfx2 : Marked text (u8pfx2 UTF8_bit) 0 2 fun _ ↦ true :=
  marked_class hbytes htext fun cp d hcp hd ↦ by
    have := byte_class hcp hd
    rw [byte]
    omega

theorem marked_u8pfx3 : Marked text (u8pfx3 UTF8_bit) 0 3 fun _ ↦ true :=
  marked_class hbytes htext fun cp d hcp hd ↦ by
    have := byte_class hcp hd
    rw [byte]
    omega

theorem marked_u8pfx4 : Marked text (u8pfx4 UTF8_bit) 0 4 fun _ ↦ true :=
  marked_class hbytes htext fun cp d hcp hd ↦ by
    have := byte_class hcp hd
    rw [byte]
    omega

end Marked

section Designated

/-- Bits of a character come to its `d`-th byte, or stay at the first one. -/
def designated : BitMovementMode → ℕ → ℕ
  | .Advance, d => d
  | .LookAhead, _ => 0

variable {text : List ℕ} {i : ℕ} (hbytes : HoldsBytes text UTF8_bit)
  (htext : ∀ cp ∈ text, cp < 2 ^ 21) (h : Branches mode UTF8_bit runs1 runs2 runs3)

include hbytes htext h

theorem marked_pfx2_bit (hi : i < 8) : Marked text (pfx2_bit mode UTF8_bit runs1 i)
    (designated mode 1) 2 fun cp ↦ (byte cp 0).testBit i := by
  have hpfx := (marked_u8pfx2 hbytes htext).bit hbytes (by decide) hi
  cases mode with
  | Advance =>
    rw [pfx2_bit, moved, ((covered_u8pfx2 h).and_left _).advanceIn_eq]
    exact hpfx.advance (by decide)
  | LookAhead => exact hpfx

theorem marked_scope22 :
    Marked text (scope22 mode UTF8_bit runs1) (designated mode 1) 2 fun _ ↦ true := by
  have hpfx := marked_u8pfx2 hbytes htext
  cases mode with
  | Advance => exact marked_nextSuffix hbytes hpfx (covered_u8pfx2 h) (by decide)
  | LookAhead => exact hpfx.isSuffix hbytes (by decide) (by decide)

theorem marked_sfx22bit (hi : i < 8) :
    Marked text (fun p ↦ scope22 mode UTF8_bit runs1 p && suffix2_bit mode UTF8_bit i p)
      (designated mode 1) 2 fun cp ↦ (byte cp 1).testBit i := by
  have hscope := marked_scope22 hbytes htext h
  cases mode with
  | Advance => exact hscope.bit hbytes (by decide) hi
  | LookAhead => exact marked_suffixBit (j := 1) hbytes hscope (by decide) (by decide) hi

theorem marked_pfx3_bit (hi : i < 8) : Marked text (pfx3_bit mode UTF8_bit runs2 i)
    (designated mode 2) 3 fun cp ↦ (byte cp 0).testBit i := by
  have hpfx := (marked_u8pfx3 hbytes htext).bit hbytes (by decide) hi
  cases mode with
  | Advance =>
    rw [pfx3_bit, moved, ((covered_u8pfx3 h).and_left _).advanceIn_eq]
    exact hpfx.advance (by decide)
  | LookAhead => exact hpfx

/-- The second bytes of three, or the first ones before them. -/
theorem marked_scope32 : Marked text (scope32 mode UTF8_bit runs2)
    (designated mode 1) 3 fun _ ↦ true := by
  have hpfx := marked_u8pfx3 hbytes htext
  cases mode with
  | Advance => exact marked_nextSuffix hbytes hpfx (covered_u8pfx3 h) (by decide)
  | LookAhead => exact hpfx.isSuffix hbytes (by decide) (by decide)

theorem marked_scope33 :
    Marked text (scope33 mode UTF8_bit runs2) (designated mode 2) 3 fun _ ↦ true := by
  have hscope := marked_scope32 hbytes htext h
  cases mode with
  | Advance => exact marked_nextSuffix hbytes hscope (covered_scope32 h) (by decide)
  | LookAhead => exact (marked_u8pfx3 hbytes htext).isSuffix hbytes (by decide) (by decide)

theorem marked_sfx32bit (hi : i < 8) : Marked text (sfx32bit mode UTF8_bit runs2 i)
    (designated mode 2) 3 fun cp ↦ (byte cp 1).testBit i := by
  have hscope := marked_scope32 hbytes htext h
  have hcovered : Covered (scoped32bit mode UTF8_bit runs2 i) runs2 :=
    (covered_scope32 h).and_left _
  cases mode with
  | Advance =>
    rw [sfx32bit, moved, hcovered.advanceIn_eq]
    exact (hscope.bit hbytes (by decide) hi).advance (by decide)
  | LookAhead => exact marked_suffixBit (j := 1) hbytes hscope (by decide) (by decide) hi

theorem marked_sfx33bit (hi : i < 8) : Marked text (sfx33bit mode UTF8_bit runs2 i)
    (designated mode 2) 3 fun cp ↦ (byte cp 2).testBit i := by
  have hscope := marked_scope33 hbytes htext h
  cases mode with
  | Advance => exact hscope.bit hbytes (by decide) hi
  | LookAhead => exact hscope.lookahead hbytes (by decide) hi

theorem marked_pfx4_bit (hi : i < 8) : Marked text (pfx4_bit mode UTF8_bit runs3 i)
    (designated mode 3) 4 fun cp ↦ (byte cp 0).testBit i := by
  have hpfx := (marked_u8pfx4 hbytes htext).bit hbytes (by decide) hi
  cases mode with
  | Advance =>
    rw [pfx4_bit, moved, ((covered_u8pfx4 h).and_left _).advanceIn_eq]
    exact hpfx.advance (by decide)
  | LookAhead => exact hpfx

theorem marked_scope42 : Marked text (scope42 mode UTF8_bit runs3)
    (designated mode 1) 4 fun _ ↦ true := by
  have hpfx := marked_u8pfx4 hbytes htext
  cases mode with
  | Advance => exact marked_nextSuffix hbytes hpfx (covered_u8pfx4 h) (by decide)
  | LookAhead => exact hpfx.isSuffix hbytes (by decide) (by decide)

theorem marked_scope43 : Marked text (scope43 mode UTF8_bit runs3)
    (designated mode 2) 4 fun _ ↦ true := by
  have hscope := marked_scope42 hbytes htext h
  cases mode with
  | Advance => exact marked_nextSuffix hbytes hscope (covered_scope42 h) (by decide)
  | LookAhead => exact (marked_u8pfx4 hbytes htext).isSuffix hbytes (by decide) (by decide)

theorem marked_scope44 :
    Marked text (scope44 mode UTF8_bit runs3) (designated mode 3) 4 fun _ ↦ true := by
  have hscope := marked_scope43 hbytes htext h
  cases mode with
  | Advance => exact marked_nextSuffix hbytes hscope (covered_scope43 h) (by decide)
  | LookAhead => exact (marked_u8pfx4 hbytes htext).isSuffix hbytes (by decide) (by decide)

theorem marked_sfx42bit (hi : i < 8) : Marked text (sfx42bit mode UTF8_bit runs3 i)
    (designated mode 3) 4 fun cp ↦ (byte cp 1).testBit i := by
  have hscope := marked_scope42 hbytes htext h
  have hcovered : Covered (scoped42bit mode UTF8_bit runs3 i) runs3 :=
    (covered_scope42 h).and_left _
  cases mode with
  | Advance =>
    rw [sfx42bit, moved, hcovered.advanceIn_eq]
    exact (hscope.bit hbytes (by decide) hi).advance (by decide)
  | LookAhead => exact marked_suffixBit (j := 1) hbytes hscope (by decide) (by decide) hi

theorem marked_sfx43bit (hi : i < 8) : Marked text (sfx43bit mode UTF8_bit runs3 i)
    (designated mode 3) 4 fun cp ↦ (byte cp 2).testBit i := by
  have hscope := marked_scope43 hbytes htext h
  have hcovered : Covered (scoped43bit mode UTF8_bit runs3 i) runs3 :=
    (covered_scope43 h).and_left _
  cases mode with
  | Advance =>
    rw [sfx43bit, moved, hcovered.advanceIn_eq]
    exact (hscope.bit hbytes (by decide) hi).advance (by decide)
  | LookAhead => exact hscope.lookahead hbytes (by decide) hi

theorem marked_sfx44bit (hi : i < 8) : Marked text (sfx44bit mode UTF8_bit runs3 i)
    (designated mode 3) 4 fun cp ↦ (byte cp 3).testBit i := by
  have hscope := marked_scope44 hbytes htext h
  cases mode with
  | Advance => exact hscope.bit hbytes (by decide) hi
  | LookAhead => exact hscope.lookahead hbytes (by decide) hi

variable {n cp w : ℕ} (hc : text[n]? = some cp)

omit hbytes htext h in
include hc in
theorem Marked.designated {x : Stream} {R : ℕ → Bool}
    (hx : Marked text x (designated mode (w - 1)) w R) :
    x (start utf8 text n + UTF8_Decoder.designated mode (width cp - 1)) =
      (width cp == w && R cp) := by
  have hpos := width_pos cp
  have hlt : UTF8_Decoder.designated mode (width cp - 1) < (utf8 cp).length := by
    rw [length_utf8]
    cases mode
    · exact Nat.sub_lt hpos Nat.one_pos
    · exact hpos
  rw [hx n cp _ hc hlt]
  by_cases hw : width cp = w
  · simp only [hw, beq_self_eq_true, Bool.true_and]
  · simp only [beq_eq_false_iff_ne.2 hw, Bool.and_false, Bool.false_and]

omit hbytes htext h in
include hc in
theorem part_designated {offset count : ℕ} {bits : Basis} {R : ℕ → ℕ → Bool}
    (hbits : ∀ j < count, Marked text (bits j) (designated mode (w - 1)) w (R j)) :
    part offset count bits i (start utf8 text n + UTF8_Decoder.designated mode (width cp - 1)) =
      (decide (offset ≤ i ∧ i < offset + count) && (width cp == w && R (i - offset) cp)) := by
  rw [part]
  split_ifs with hi
  · rw [(hbits _ (by omega)).designated hc, decide_eq_true hi, Bool.true_and]
  · rw [decide_eq_false hi, Bool.false_and]

omit hbytes htext h in
theorem testBit_byte_suffix {d : ℕ} (hd : d + 1 < width cp) (hi : i < 6) :
    (byte cp (d + 1)).testBit i = cp.testBit (6 * (width cp - 1 - (d + 1)) + i) := by
  rw [byte, List.getD_eq_getElem?_getD, getElem?_utf8_succ hd, Option.getD_some, testBit_suffix,
    if_pos hi]

omit hbytes htext h in
/-- A part that has the bits of a code point from the offset on. -/
theorem bits_of_part (offset count : ℕ) {b : ℕ}
    (hb : ∀ j < count, b.testBit j = cp.testBit (offset + j)) :
    (decide (offset ≤ i ∧ i < offset + count) && b.testBit (i - offset)) =
      (decide (offset ≤ i ∧ i < offset + count) && cp.testBit i) := by
  by_cases hi : offset ≤ i ∧ i < offset + count
  · rw [hb _ (by omega), Nat.add_sub_cancel' hi.1]
  · rw [decide_eq_false hi, Bool.false_and, Bool.false_and]

include hc

/-- At its designated byte every character has the bits of its code point. -/
theorem unicode_bit_designated (hi : i < 21) :
    unicode_bit mode UTF8_bit runs1 runs2 runs3 i
      (start utf8 text n + designated mode (width cp - 1)) = cp.testBit i := by
  have hcp := htext cp (List.mem_of_getElem? hc)
  have hASCII : initialBits UTF8_bit i (start utf8 text n + designated mode (width cp - 1)) =
      (decide (i < 7) && (width cp == 1 && (byte cp 0).testBit i)) := by
    rw [initialBits]
    split_ifs with h7
    · have hplace : designated mode (1 - 1) = 0 := by cases mode <;> rfl
      have hbit : Marked text (fun p ↦ ASCII UTF8_bit p && UTF8_bit i p) (designated mode (1 - 1)) 1
          fun cp ↦ (byte cp 0).testBit i := by
        rw [hplace]
        exact (marked_ASCII hbytes htext).bit hbytes (by decide) (by omega)
      rw [decide_eq_true h7, Bool.true_and]
      exact hbit.designated hc
    · rw [decide_eq_false h7, Bool.false_and]
  have hzero := fun i ↦ testBit_of_width (i := i) hcp
  have hsuffix := fun d hd i hi ↦ @testBit_byte_suffix i cp d hd hi
  obtain ⟨free, m, hmark, hfree, hcases⟩ := lead_spec hcp
  have hlead (i : ℕ) : (byte cp 0).testBit i =
      if i < free then cp.testBit (6 * (width cp - 1) + i) else m.testBit (i - free) := by
    rw [byte, List.getD_eq_getElem?_getD, getElem?_utf8_zero, Option.getD_some,
      testBit_lead hmark hfree]
  rw [unicode_bit_apply h, hASCII, added1, added2, added3,
    part_designated (w := 2) hc fun j hj ↦ marked_pfx2_bit hbytes htext h (i := j) (by omega),
    part_designated (w := 2) hc fun j hj ↦ marked_sfx22bit hbytes htext h (i := j) (by omega),
    part_designated (w := 3) hc fun j hj ↦ marked_pfx3_bit hbytes htext h (i := j) (by omega),
    part_designated (w := 3) hc fun j hj ↦ marked_sfx32bit hbytes htext h (i := j) (by omega),
    part_designated (w := 3) hc fun j hj ↦ marked_sfx33bit hbytes htext h (i := j) (by omega),
    part_designated (w := 4) hc fun j hj ↦ marked_pfx4_bit hbytes htext h (i := j) (by omega),
    part_designated (w := 4) hc fun j hj ↦ marked_sfx42bit hbytes htext h (i := j) (by omega),
    part_designated (w := 4) hc fun j hj ↦ marked_sfx43bit hbytes htext h (i := j) (by omega),
    part_designated (w := 4) hc fun j hj ↦ marked_sfx44bit hbytes htext h (i := j) (by omega)]
  have hlt (hbit : cp.testBit i = true) : i < [7, 11, 16, 21].getD (width cp - 1) 0 := by
    by_contra hge
    rw [hzero i (Nat.le_of_not_lt hge)] at hbit
    cases hbit
  clear hmark hfree hASCII hzero
  generalize width cp = w at *
  rcases hcases with ⟨rfl, rfl, rfl⟩ | ⟨rfl, rfl, rfl⟩ | ⟨rfl, rfl, rfl⟩ | ⟨rfl, rfl, rfl⟩
  -- In each case the parts of the characters of the other widths are empty.
  all_goals simp only [Nat.reduceBEq, Bool.false_and, Bool.true_and, Bool.and_false, Bool.or_false,
    Bool.false_or]
  · have hone := bits_of_part (i := i) 0 7 fun j hj ↦ by rw [hlead, if_pos hj]
    simp only [Nat.zero_le, true_and, Nat.zero_add, Nat.sub_zero] at hone
    rw [hone]
    cases hbit : cp.testBit i with
    | false => rw [Bool.and_false]
    | true =>
      have hi : i < 7 := hlt hbit
      rw [Bool.and_true, decide_eq_true hi]
  · rw [bits_of_part 6 5 fun j hj ↦ by rw [hlead, if_pos hj],
      bits_of_part 0 6 fun j hj ↦ by rw [hsuffix 0 (by decide) j hj]]
    cases hbit : cp.testBit i with
    | false => simp only [Bool.and_false, Bool.or_false]
    | true =>
      have hi : i < 11 := hlt hbit
      simp only [Bool.and_true, Bool.or_eq_true, decide_eq_true_eq]
      omega
  · rw [bits_of_part 12 4 fun j hj ↦ by rw [hlead, if_pos hj],
      bits_of_part 6 6 fun j hj ↦ by rw [hsuffix 0 (by decide) j hj],
      bits_of_part 0 6 fun j hj ↦ by rw [hsuffix 1 (by decide) j hj]]
    cases hbit : cp.testBit i with
    | false => simp only [Bool.and_false, Bool.or_false]
    | true =>
      have hi : i < 16 := hlt hbit
      simp only [Bool.and_true, Bool.or_eq_true, decide_eq_true_eq]
      omega
  · rw [bits_of_part 18 3 fun j hj ↦ by rw [hlead, if_pos hj],
      bits_of_part 12 6 fun j hj ↦ by rw [hsuffix 0 (by decide) j hj],
      bits_of_part 6 6 fun j hj ↦ by rw [hsuffix 1 (by decide) j hj],
      bits_of_part 0 6 fun j hj ↦ by rw [hsuffix 2 (by decide) j hj]]
    cases hbit : cp.testBit i with
    | false => simp only [Bool.and_false, Bool.or_false]
    | true =>
      simp only [Bool.and_true, Bool.or_eq_true, decide_eq_true_eq]
      omega

end Designated

theorem branches_always (mode : BitMovementMode) (UTF8_bit : Basis) :
    Branches mode UTF8_bit (fun _ ↦ true) (fun _ ↦ true) fun _ ↦ true :=
  ⟨runs_always _ _, runs_always _ _, runs_always _ _⟩

end UTF8_Decoder

section RoundTrip

/-- The assembled bytes are the encoded characters, and they are decoded to the bits of the code
points, wherever the branches of the decoder run. -/
theorem U21_to_UTF8_decoded {text : List ℕ} (htext : ∀ cp ∈ text, cp < 0x110000) {bw e : ℕ}
    (hbw : 0 < bw) (hfields : 2 ^ (e + 1) ∣ bw) (hunits : 4 ∣ bw) :
    codeUnits 8 (U21_to_UTF8 bw (2 ^ (e + 1)) (basisOf text) text.length) = text.flatMap utf8 ∧
    ∀ mode runs1 runs2 runs3, UTF8_Decoder.Branches mode
        (U21_to_UTF8 bw (2 ^ (e + 1)) (basisOf text) text.length).1 runs1 runs2 runs3 →
      ∀ n cp, text[n]? = some cp → ∀ i < 21,
        UTF8_Decoder.unicode_bit mode
            (U21_to_UTF8 bw (2 ^ (e + 1)) (basisOf text) text.length).1 runs1 runs2 runs3 i
            (start utf8 text n + UTF8_Decoder.designated mode (width cp - 1)) =
          cp.testBit i := by
  obtain ⟨c, rfl⟩ := hfields
  have hc : 0 < c := Nat.pos_of_ne_zero fun h ↦ by simp [h] at hbw
  have hsmall (cp : ℕ) (hcp : cp ∈ text) : cp < 2 ^ 21 :=
    (htext cp hcp).trans (by decide)
  refine ⟨codeUnits_U21_to_UTF8 hunits hc hsmall, fun mode runs1 runs2 runs3 h n cp hn i hi ↦ ?_⟩
  have hbytes : UTF8_Decoder.HoldsBytes text
      (U21_to_UTF8 (2 ^ (e + 1) * c) (2 ^ (e + 1)) (basisOf text) text.length).1 := by
    intro n cp d hn hd
    have hunit := U21_to_UTF8_deposited hunits hc hsmall hn hd
    rw [UTF8_Decoder.byte, List.getD_eq_getElem?_getD, hunit, Option.getD_some]
  exact UTF8_Decoder.unicode_bit_designated hbytes hsmall h hn hi

theorem U21_to_UTF8_decoded_e_acute :
    codeUnits 8 (U21_to_UTF8 64 64 (basisOf [0xE9]) 1) = [0xC3, 0xA9] ∧
    ∀ i < 21, UTF8_Decoder.unicode_bit .Advance (U21_to_UTF8 64 64 (basisOf [0xE9]) 1).1
      (fun _ ↦ true) (fun _ ↦ true) (fun _ ↦ true) i 1 = (0xE9).testBit i := by
  have h := @U21_to_UTF8_decoded [0xE9] (by decide) 64 5 (by decide) (by decide) (by decide)
  exact ⟨h.1, h.2 .Advance _ _ _ (UTF8_Decoder.branches_always _ _) 0 0xE9 rfl⟩

end RoundTrip

end Parabix.Unicode
