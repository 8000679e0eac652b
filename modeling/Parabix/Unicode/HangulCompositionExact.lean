import Parabix.Unicode.HangulComposition
import Parabix.Unicode.HangulExact

namespace Parabix.Unicode

open Library Library.BitStream Library.UTF8 Pablo Pablo.BixNumCompiler Hangul

namespace Hangul_Composition

section Arithmetic

variable {runs : Stream} {Basis : BixNum Stream} {Hangul_L Hangul_V Hangul_LV Hangul_T : Stream}
  {p : ℕ}

/-- The low bits of a character are its number in its class. -/
theorem index_spec {index : BixNum Stream} {cond : Stream} {base : ℕ}
    (hindex : index.length = 5) (hbase : base < 32) :
    ∃ difference, SubModularConst .streams index base = .ok difference ∧
      (SelectConst .streams cond difference 0).length = 5 ∧
      ∀ p, value id p (SelectConst .streams cond difference 0) =
        bif cond p then (value id p index + (32 - base)) % 32 else 0 := by
  obtain ⟨difference, hsub, hlength, hvalue⟩ := (subModularConst_spec PabloBuilder.streams_lawful
    index (x := base) (by omega)).2 (by omega)
  refine ⟨difference, hsub, ?_, fun p ↦ ?_⟩
  · rw [SelectConst, length_selectConst, hlength, hindex]
  · have hdifference := hvalue p
    rw [hindex] at hdifference
    rw [value_selectConst PabloBuilder.streams_lawful, id_eq]
    cases cond p
    · rfl
    · rw [cond_true, cond_true]
      omega

theorem codeUnits_cases (hlength : Basis.length = 8 ∨ Basis.length = 21) :
    Basis.length = 8 ∧ codeUnitsPerChar Basis = 3 ∧ shiftBack Basis = 2 ∨
      Basis.length = 21 ∧ codeUnitsPerChar Basis = 1 ∧ shiftBack Basis = 0 := by
  rcases hlength with h | h
  · exact .inl ⟨h, by rw [codeUnitsPerChar, h]; rfl, by rw [shiftBack, codeUnitsPerChar, h]; rfl⟩
  · exact .inr ⟨h, by rw [codeUnitsPerChar, h]; rfl, by rw [shiftBack, codeUnitsPerChar, h]; rfl⟩

theorem value_low_ahead (k : ℕ) :
    value id p ((Basis.take index_bits).map fun bit ↦ createLookahead bit k) =
      value id (p + k) Basis % 32 := by
  rw [@value_map _ p (fun bit ↦ createLookahead bit k) (p + k) fun _ _ ↦ rfl, value_take]
  rfl

theorem length_low (hlength : Basis.length = 8 ∨ Basis.length = 21) (f : Stream → Stream) :
    ((Basis.take index_bits).map f).length = 5 := by
  rw [List.length_map, List.length_take_of_le]
  · rfl
  · rw [index_bits]
    omega

theorem VBase_low : VBase &&& indexMask = 1 := by decide

theorem TBase_low : TBase &&& indexMask = 7 := by decide

theorem VIndex_spec (hlength : Basis.length = 8 ∨ Basis.length = 21) :
    ∃ index, VIndex runs Basis Hangul_L Hangul_V = .ok index ∧ index.length = 5 ∧
      ∀ p, value id p index = bif V_suffix runs Basis Hangul_L Hangul_V p then
        (value id (p + shiftBack Basis) Basis % 32 + 31) % 32 else 0 := by
  rcases codeUnits_cases hlength with ⟨h8, -, hshift⟩ | ⟨h21, -, hshift⟩
  · obtain ⟨difference, hsub, hlen, hvalue⟩ := @index_spec _
      (V_suffix runs Basis Hangul_L Hangul_V) 1
      (length_low hlength fun bit ↦ createLookahead bit (shiftBack Basis)) (by decide)
    refine ⟨_, ?_, hlen, fun p ↦ ?_⟩
    · rw [VIndex, if_pos h8, ok_bind, VBase_low]
      beta_reduce
      rw [hsub]
      rfl
    · rw [hvalue, value_low_ahead]
  · obtain ⟨difference, hsub, hlen, hvalue⟩ := @index_spec (Basis.take index_bits)
      (V_suffix runs Basis Hangul_L Hangul_V) 1
      (List.length_take_of_le (by rw [index_bits]; omega)) (by decide)
    refine ⟨_, ?_, hlen, fun p ↦ ?_⟩
    · rw [VIndex, if_neg (by omega), truncate_eq (by rw [index_bits]; omega), ok_bind, VBase_low]
      beta_reduce
      rw [hsub]
      rfl
    · rw [hvalue, value_take, hshift]
      rfl

theorem TIndex_spec (hlength : Basis.length = 8 ∨ Basis.length = 21) :
    ∃ index, TIndex runs Basis Hangul_L Hangul_V Hangul_LV Hangul_T = .ok index ∧
      index.length = 5 ∧ ∀ p, value id p index =
        bif LVT_sequence runs Basis Hangul_L Hangul_V Hangul_LV Hangul_T p then
          (value id (p + (codeUnitsPerChar Basis + shiftBack Basis)) Basis % 32 + 25) % 32
        else 0 := by
  obtain ⟨difference, hsub, hlen, hvalue⟩ := @index_spec _
    (LVT_sequence runs Basis Hangul_L Hangul_V Hangul_LV Hangul_T) 7
    (length_low hlength fun bit ↦
      createLookahead bit (codeUnitsPerChar Basis + shiftBack Basis)) (by decide)
  refine ⟨_, ?_, hlen, fun p ↦ ?_⟩
  · rw [TIndex, TBase_low, hsub]
    rfl
  · rw [hvalue, value_low_ahead]

theorem Computed_LV_spec (hlength : Basis.length = 8 ∨ Basis.length = 21) :
    ∃ computed, Computed_LV runs Basis Hangul_L Hangul_V = .ok computed ∧
      computed.length = 17 ∧ ∀ p, value id p computed =
        bif V_suffix runs Basis Hangul_L Hangul_V p then
          SBase + (value id p (LIndex runs Basis Hangul_L Hangul_V) * VCount +
            (value id (p + shiftBack Basis) Basis % 32 + 31) % 32) * TCount
        else 0 := by
  have hlawful := PabloBuilder.streams_lawful
  obtain ⟨VIndex, hVIndex, hlengthV, hvalueV⟩ :=
    @VIndex_spec runs Basis Hangul_L Hangul_V hlength
  have hlog21 : VCount.log2 = 4 := by decide
  have hlog28 : TCount.log2 = 4 := by decide
  have hlengthL : (LIndex runs Basis Hangul_L Hangul_V).length = 5 := length_low hlength _
  obtain ⟨hlengthM, hvalueM⟩ :=
    mulFull_spec hlawful (LIndex runs Basis Hangul_L Hangul_V) (x := VCount) (by decide) (by decide)
  obtain ⟨hlengthA, hvalueA⟩ := addFull_spec hlawful
    (MulFull .streams (LIndex runs Basis Hangul_L Hangul_V) VCount) VIndex
  obtain ⟨hlengthS, hvalueS⟩ := mulFull_spec hlawful
    (AddFull .streams (MulFull .streams (LIndex runs Basis Hangul_L Hangul_V) VCount) VIndex)
    (x := TCount) (by decide) (by decide)
  rw [hlengthL, hlog21] at hlengthM
  rw [hlengthM, hlengthV] at hlengthA
  rw [hlengthA, hlog28] at hlengthS
  obtain ⟨SIndex, hSIndex⟩ : ∃ SIndex, SIndex = MulFull .streams (AddFull .streams
    (MulFull .streams (LIndex runs Basis Hangul_L Hangul_V) VCount) VIndex) TCount := ⟨_, rfl⟩
  rw [← hSIndex] at hlengthS hvalueS
  replace hlengthS : SIndex.length = 16 := hlengthS.trans (by decide)
  have hextended : (ZeroExtend .streams SIndex 17).length = 17 := by
    rw [ZeroExtend, List.length_append, List.length_replicate, hlengthS]
  obtain ⟨sum, hsum, hlengthsum, hvaluesum⟩ :=
    (addModularConst_spec hlawful (ZeroExtend .streams SIndex 17) SBase).2 (by omega)
  have hfull : AddFullConst .streams SIndex SBase = .ok sum := by
    rw [← hsum, AddFullConst, if_neg (by decide), hlengthS]
    rfl
  refine ⟨SelectConst .streams (V_suffix runs Basis Hangul_L Hangul_V) sum 0, ?_, ?_, fun p ↦ ?_⟩
  · rw [Computed_LV, hVIndex, ok_bind]
    dsimp only
    rw [← hSIndex, hfull]
    rfl
  · rw [SelectConst, length_selectConst, hlengthsum, hextended]
  · have hsmall := @value_lt _ id p SIndex
    have hS := hvalueS p
    have hA := hvalueA p
    have hM := hvalueM p
    have hsump := hvaluesum p
    beta_reduce at hS hA hM hsump
    rw [hlengthS] at hsmall
    rw [value_zeroExtend hlawful, hextended] at hsump
    rw [value_selectConst hlawful, id_eq]
    cases hsuffix : V_suffix runs Basis Hangul_L Hangul_V p with
    | false => rfl
    | true =>
      have hV := hvalueV p
      rw [hsuffix, cond_true] at hV
      have hbase : SBase < 2 ^ 16 := by decide
      rw [cond_true, cond_true, hsump, Nat.mod_eq_of_lt (by omega), hS, hA, hM, hV, Nat.add_comm]

theorem selectBits_take {cond : Stream} {n k : BixNum Stream} :
    selectBits cond n k = selectBits cond (n.take k.length) k := by
  induction n generalizing k with
  | nil => rw [List.take_nil]
  | cons bit n ih =>
    cases k with
    | nil => rfl
    | cons bit' k => exact congrArg _ ih

/-- The bits of the three bytes of a precomposed syllable. -/
def precomposedAt (Basis : BixNum Stream) (p : ℕ) : ℕ :=
  value id (p + 2) Basis % 64 + 64 * (value id (p + 1) Basis % 64) +
    4096 * (value id p Basis % 32)

theorem value_precomposedBits (h8 : Basis.length = 8) :
    value id p ((precomposedBits Basis).take 17) = precomposedAt Basis p := by
  have hahead (k : ℕ) : value id p ((Basis.take 6).map fun bit ↦ createLookahead bit k) =
      value id (p + k) Basis % 64 := by
    rw [@value_map _ p (fun bit ↦ createLookahead bit k) (p + k) fun _ _ ↦ rfl, value_take]
    rfl
  have hlen (f : Stream → Stream) : ((Basis.take 6).map f).length = 6 := by
    rw [List.length_map, List.length_take_of_le (by omega)]
  rw [value_take, precomposedBits, List.append_assoc, value_append, value_append, hahead, hahead,
    hlen, hlen, precomposedAt]
  have hbyte := @value_lt _ id p Basis
  rw [h8] at hbyte
  omega

/-- In UTF-8 the syllable has 18 bits. -/
theorem Composed_spec (h8 : Basis.length = 8) :
    ∃ composed, Composed runs Basis Hangul_L Hangul_V Hangul_LV Hangul_T = .ok composed ∧
      composed.length = 18 ∧ ∀ p, value id p composed =
        (bif Hangul_LV p then precomposedAt Basis p
        else bif V_suffix runs Basis Hangul_L Hangul_V p then
          SBase + (value id p (LIndex runs Basis Hangul_L Hangul_V) * VCount +
            (value id (p + 2) Basis % 32 + 31) % 32) * TCount
        else 0) +
        bif LVT_sequence runs Basis Hangul_L Hangul_V Hangul_LV Hangul_T p then
          (value id (p + 5) Basis % 32 + 25) % 32 else 0 := by
  obtain ⟨computed, hcomputed, hlengthC, hvalueC⟩ :=
    @Computed_LV_spec runs Basis Hangul_L Hangul_V (.inl h8)
  obtain ⟨TIndex, hTIndex, hlengthT, hvalueT⟩ :=
    @TIndex_spec runs Basis Hangul_L Hangul_V Hangul_LV Hangul_T (.inl h8)
  have hunits : codeUnitsPerChar Basis = 3 ∧ shiftBack Basis = 2 := by
    rcases codeUnits_cases (.inl h8) with h | h
    · exact h.2
    · omega
  have hmerged : Merged_LV runs Basis Hangul_L Hangul_V Hangul_LV =
      .ok (selectBits Hangul_LV ((precomposedBits Basis).take 17) computed) := by
    rw [Merged_LV, hcomputed, ok_bind, if_pos h8, selectBits_take, hlengthC]
    rfl
  have hlengthP : ((precomposedBits Basis).take 17).length = computed.length := by
    rw [hlengthC, List.length_take_of_le]
    rw [precomposedBits, List.length_append, List.length_append, List.length_map, List.length_map,
      List.length_take_of_le (by omega), h8]
    decide
  obtain ⟨hlength, hvalue⟩ := addFull_spec PabloBuilder.streams_lawful
    (selectBits Hangul_LV ((precomposedBits Basis).take 17) computed) TIndex
  refine ⟨_, ?_, ?_, fun p ↦ (hvalue p).trans ?_⟩
  · rw [Composed, hmerged, ok_bind, hTIndex]
    rfl
  · rw [hlength, length_selectBits hlengthP, hlengthC, hlengthT]
    rfl
  · beta_reduce
    rw [value_selectBits hlengthP, value_precomposedBits h8, hvalueC, hvalueT, hunits.1, hunits.2]

/-- On 21 streams the syllable has 22 bits, which are more than it is extended to. -/
theorem generatePabloMethod_21 (h21 : Basis.length = 21) :
    generatePabloMethod runs Basis Hangul_L Hangul_V Hangul_LV Hangul_T = .error .memory := by
  obtain ⟨computed, hcomputed, hlengthC, -⟩ :=
    @Computed_LV_spec runs Basis Hangul_L Hangul_V (.inr h21)
  obtain ⟨TIndex, hTIndex, hlengthT, -⟩ :=
    @TIndex_spec runs Basis Hangul_L Hangul_V Hangul_LV Hangul_T (.inr h21)
  have h8 : Basis.length ≠ 8 := by omega
  have hmerged : Merged_LV runs Basis Hangul_L Hangul_V Hangul_LV =
      .ok (Select .streams Hangul_LV Basis computed) := by
    rw [Merged_LV, hcomputed, ok_bind, if_neg h8]
    rfl
  have hlength : (AddFull .streams (Select .streams Hangul_LV Basis computed) TIndex).length =
      22 := by
    rw [(addFull_spec PabloBuilder.streams_lawful _ _).1, length_select, h21, hlengthC, hlengthT]
    rfl
  have hextend : ZeroExtendTo .streams
      (AddFull .streams (Select .streams Hangul_LV Basis computed) TIndex) Basis.length =
        .error .memory := by
    rw [ZeroExtendTo, if_neg (by omega)]
  rw [generatePabloMethod, Composed, hmerged, ok_bind, hTIndex]
  dsimp only [ok_bind, pure_eq_ok]
  rw [if_neg h8, hextend]
  rfl

end Arithmetic

end Hangul_Composition

section Splice

variable {cond : Stream} {new old : BixNum Stream} {p : ℕ}

theorem length_spliceBits : (spliceBits cond new old).length = old.length := by
  induction new generalizing old with
  | nil => rfl
  | cons a new ih =>
    cases old with
    | nil => rfl
    | cons b old => rw [spliceBits, List.length_cons, List.length_cons, ih]

theorem value_spliceBits (hlength : new.length ≤ old.length) :
    value id p (spliceBits cond new old) = bif cond p then
      value id p new + 2 ^ new.length * (value id p old / 2 ^ new.length) else value id p old := by
  induction new generalizing old with
  | nil =>
    have hnone : spliceBits cond [] old = old := rfl
    rw [hnone, value_nil, List.length_nil, pow_zero, Nat.div_one, Nat.one_mul, Nat.zero_add,
      Bool.cond_self]
  | cons a new ih =>
    cases old with
    | nil => exact absurd hlength (Nat.not_succ_le_zero _)
    | cons b old =>
      have hrest := ih (Nat.le_of_succ_le_succ hlength)
      have hbit := Bool.toNat_lt (b p)
      rw [spliceBits, value_cons, hrest, PabloBuilder.streams_lawful.sel, value_cons, value_cons]
      cases hcond : cond p with
      | false => rw [id_eq, hcond, cond_false, cond_false]; rfl
      | true =>
        have hhalf : ((id b p).toNat + 2 * value id p old) / 2 = value id p old := by
          rw [id_eq]
          omega
        rw [id_eq, hcond, cond_true, cond_true, cond_true, List.length_cons, Nat.pow_succ',
          ← Nat.div_div_eq_div_mul, hhalf, Nat.mul_add, Nat.mul_assoc, ← Nat.add_assoc]

end Splice

section Marks

variable {text : List ℕ} {x y : Stream} {P Q : ℕ → Bool} {n c d k : ℕ}

/-- A stream of marks at the first bytes of characters, and nowhere else. -/
def MarksAt (text : List ℕ) (x : Stream) (P : ℕ → Bool) : Prop :=
  ∀ q, x q = true ↔ ∃ n < text.length, P n = true ∧ q = start utf8 text n

/-- The marked characters have three bytes. -/
def Wide (text : List ℕ) (P : ℕ → Bool) : Prop :=
  ∀ n, P n = true → ∃ c, text[n]? = some c ∧ width c = 3

theorem Wide.start_succ (hP : Wide text P) (hn : P n = true) :
    start utf8 text (n + 1) = start utf8 text n + 3 := by
  obtain ⟨c, hc, hw⟩ := hP n hn
  rw [Library.start_succ hc, length_utf8, hw]

theorem Wide.lt (hP : Wide text P) (hn : P n = true) : n < text.length := by
  obtain ⟨c, hc, -⟩ := hP n hn
  exact (List.getElem?_eq_some_iff.1 hc).1

theorem classMarks_at (P : ℕ → Bool) :
    MarksAt text (classMarks utf8 text P) fun n ↦ text[n]?.any P := by
  intro q
  simp only [classMarks, List.any_eq_true, List.mem_range, Bool.and_eq_true, beq_iff_eq]

theorem any_lt {P : ℕ → Bool} (h : text[n]?.any P = true) : n < text.length := by
  by_contra hge
  rw [List.getElem?_eq_none (Nat.le_of_not_lt hge)] at h
  exact Bool.false_ne_true h

/-- Bits moved by less than a character stay in it. -/
theorem MarksAt.advance_apply (h : MarksAt text x P) (hP : Wide text P) (hk : k < 3)
    (hc : text[n]? = some c) (hd : d < width c) :
    advance k x (start utf8 text n + d) = (decide (d = k) && P n) := by
  rw [Bool.eq_iff_iff, Bool.and_eq_true, decide_eq_true_iff, advance]
  constructor
  · intro hx
    split_ifs at hx with hlt
    obtain ⟨m, hm, hPm, hq⟩ := (h _).1 hx
    obtain ⟨b, hb, hw⟩ := hP m hPm
    have hkb : k < (utf8 b).length := by
      rw [length_utf8]
      omega
    have hplace : start utf8 text n + d = start utf8 text m + k := by omega
    obtain ⟨rfl, -, rfl⟩ := place_unique hc (length_utf8 c ▸ hd) hb hkb hplace
    exact ⟨rfl, hPm⟩
  · rintro ⟨rfl, hPn⟩
    rw [if_neg (by omega), Nat.add_sub_cancel]
    exact (h _).2 ⟨n, (List.getElem?_eq_some_iff.1 hc).1, hPn, rfl⟩

theorem MarksAt.apply (h : MarksAt text x P) (hP : Wide text P) (hc : text[n]? = some c)
    (hd : d < width c) : x (start utf8 text n + d) = (decide (d = 0) && P n) := by
  have hmoved := h.advance_apply hP (k := 0) (by decide) hc hd
  rwa [advance, if_neg (Nat.not_lt_zero _), Nat.sub_zero] at hmoved

theorem MarksAt.or (h : MarksAt text x P) (h' : MarksAt text y Q) :
    MarksAt text (fun p ↦ x p || y p) fun n ↦ P n || Q n := by
  intro q
  beta_reduce
  rw [Bool.or_eq_true, h q, h' q]
  constructor
  · rintro (⟨n, hn, hPn, rfl⟩ | ⟨n, hn, hQn, rfl⟩)
    · exact ⟨n, hn, by rw [hPn, Bool.true_or], rfl⟩
    · exact ⟨n, hn, by rw [hQn, Bool.or_true], rfl⟩
  · rintro ⟨n, hn, hor, rfl⟩
    exact (Bool.or_eq_true_iff.1 hor).imp (fun hPn ↦ ⟨n, hn, hPn, rfl⟩) fun hQn ↦ ⟨n, hn, hQn, rfl⟩

/-- The character after a marked one of three bytes is looked at. -/
theorem MarksAt.and_ahead (h : MarksAt text x P) (hP : Wide text P) (h' : MarksAt text y Q)
    (hQ : ∀ n, Q n = true → n < text.length) :
    MarksAt text (fun p ↦ x p && createLookahead y 3 p) fun n ↦ P n && Q (n + 1) := by
  intro q
  beta_reduce
  rw [Bool.and_eq_true, h q, createLookahead, h' (q + 3)]
  constructor
  · rintro ⟨⟨n, hn, hPn, rfl⟩, m, hm, hQm, hq⟩
    rw [← hP.start_succ hPn] at hq
    have hsame : n + 1 = m := start_inj (by omega) hm.le hq
    exact ⟨n, hn, by rw [hPn, hsame, hQm, Bool.true_and], rfl⟩
  · rintro ⟨n, hn, hboth, rfl⟩
    rw [Bool.and_eq_true] at hboth
    exact ⟨⟨n, hn, hboth.1, rfl⟩, n + 1, hQ _ hboth.2, hboth.2, (hP.start_succ hboth.1).symm⟩

/-- A mark is moved to the next character. -/
theorem MarksAt.advance_next (h : MarksAt text x P) (hP : Wide text P)
    (hnext : ∀ n, P n = true → n + 1 < text.length) :
    MarksAt text (advance 3 x) fun n ↦ decide (0 < n) && P (n - 1) := by
  intro q
  rw [advance]
  constructor
  · intro hx
    split_ifs at hx with hlt
    obtain ⟨n, hn, hPn, hq⟩ := (h _).1 hx
    refine ⟨n + 1, hnext n hPn, ?_, ?_⟩
    · beta_reduce
      rw [decide_eq_true (Nat.succ_pos n), Bool.true_and, Nat.add_sub_cancel, hPn]
    · rw [hP.start_succ hPn]
      omega
  · rintro ⟨n, hn, hboth, rfl⟩
    rw [Bool.and_eq_true, decide_eq_true_iff] at hboth
    obtain ⟨m, rfl⟩ : ∃ m, n = m + 1 := ⟨n - 1, by omega⟩
    rw [Nat.add_sub_cancel] at hboth
    rw [hP.start_succ hboth.2, if_neg (by omega), Nat.add_sub_cancel]
    exact (h _).2 ⟨m, Nat.lt_of_succ_lt hn, hboth.2, rfl⟩

end Marks

section Classes

variable {text : List ℕ} {n c : ℕ}

/-- What is used of the code point of a composable character: where it is, and its low bits. -/
theorem isL_iff : isL c = true ↔ 0x1100 ≤ c ∧ c ≤ 0x1112 := decide_eq_true_iff

theorem isV_iff : isV c = true ↔ 0x1161 ≤ c ∧ c ≤ 0x1175 := decide_eq_true_iff

theorem isT_iff : isT c = true ↔ 0x11A8 ≤ c ∧ c ≤ 0x11C2 := decide_eq_true_iff

theorem isLV_bounds (h : isLV c = true) : 0xAC00 ≤ c ∧ c ≤ 0xAC00 + 398 * 28 := by
  rw [isLV, List.any_eq_true] at h
  obtain ⟨i, hi, hc⟩ := h
  have hlt : i < 399 := List.mem_range.1 hi
  have hvalue : c = 0xAC00 + i * 28 := beq_iff_eq.1 hc
  omega

theorem width_three (h : 0x800 ≤ c) (h' : c < 0x10000) : width c = 3 := by
  rw [width, if_neg (by omega), if_neg (by omega), if_pos h']

theorem wide_any {P : ℕ → Bool} (hP : ∀ c, P c = true → 0x800 ≤ c ∧ c < 0x10000) :
    Wide text fun n ↦ text[n]?.any P := by
  intro n hn
  rw [Option.any_eq_true] at hn
  obtain ⟨c, hc, hPc⟩ := hn
  exact ⟨c, hc, width_three (hP c hPc).1 (hP c hPc).2⟩

theorem wide_L : Wide text fun n ↦ text[n]?.any isL := wide_any fun c hc ↦ by
  rw [isL_iff] at hc
  omega

theorem wide_V : Wide text fun n ↦ text[n]?.any isV := wide_any fun c hc ↦ by
  rw [isV_iff] at hc
  omega

theorem wide_T : Wide text fun n ↦ text[n]?.any isT := wide_any fun c hc ↦ by
  rw [isT_iff] at hc
  omega

theorem wide_LV : Wide text fun n ↦ text[n]?.any isLV := wide_any fun c hc ↦ by
  have := isLV_bounds hc
  omega

theorem wide_leads : Wide text (leads text) := fun n hn ↦
  wide_L n (Bool.and_eq_true_iff.1 hn).1

theorem follows_V (h : follows text n = true) : text[n]?.any isV = true := by
  rw [follows, leads, Bool.and_eq_true, Bool.and_eq_true, decide_eq_true_iff] at h
  obtain ⟨hpos, -, hV⟩ := h
  rwa [Nat.sub_add_cancel hpos] at hV

theorem wide_syllable : Wide text (syllable text) := by
  intro n hn
  rcases Bool.or_eq_true_iff.1 hn with hLV | hV
  · exact wide_LV n hLV
  · exact wide_V n (follows_V hV)

theorem wide_trails : Wide text (trails text) := fun n hn ↦
  wide_T n (Bool.and_eq_true_iff.1 hn).2

theorem wide_absorbed : Wide text fun n ↦ leads text n || trails text n := fun n hn ↦
  (Bool.or_eq_true_iff.1 hn).elim (wide_leads n) (wide_trails n)

/-- A character that a syllable is in the place of is not absorbed. -/
theorem not_absorbed (h : syllable text n = true) :
    (leads text n || trails text n) = false := by
  have hclass : ∃ c, text[n]? = some c ∧ (isLV c = true ∨ isV c = true) := by
    rcases Bool.or_eq_true_iff.1 h with hLV | hV
    · obtain ⟨c, hc, hLV⟩ := (Option.any_eq_true _ _).1 hLV
      exact ⟨c, hc, .inl hLV⟩
    · obtain ⟨c, hc, hV⟩ := (Option.any_eq_true _ _).1 (follows_V hV)
      exact ⟨c, hc, .inr hV⟩
  obtain ⟨c, hc, hclass⟩ := hclass
  have hbounds : isL c = false ∧ isT c = false := by
    rw [Bool.eq_false_iff, Bool.eq_false_iff, ne_eq, ne_eq, isL_iff, isT_iff]
    rcases hclass with hLV | hV
    · have := isLV_bounds hLV
      omega
    · rw [isV_iff] at hV
      omega
  rw [leads, trails, hc, Option.any_some, Option.any_some, hbounds.1, hbounds.2, Bool.false_and,
    Bool.and_false]
  rfl

end Classes

section Kernel

open Hangul_Composition

/-- The basis bit streams of the bytes of a text. -/
def textBasis (text : List ℕ) : BixNum Stream := (List.range 8).map (basisOf (text.flatMap utf8))

def textBranches (runs : Stream) (text : List ℕ) (w : ℕ) : Prop :=
  Branches runs (textBasis text) (classMarks utf8 text isL) (classMarks utf8 text isV)
    (classMarks utf8 text isLV) (classMarks utf8 text isT) w

variable {runs : Stream} {text : List ℕ} {w n c d : ℕ} (htext : ∀ cp ∈ text, cp < 0x110000)
  (h : textBranches runs text w)

theorem length_textBasis : (textBasis text).length = 8 := by
  rw [textBasis, List.length_map, List.length_range]

theorem codeUnits_textBasis : codeUnitsPerChar (textBasis text) = 3 := by
  rw [codeUnitsPerChar, length_textBasis]
  rfl

theorem value_textBasis (htext : ∀ cp ∈ text, cp < 0x110000) (hc : text[n]? = some c)
    (hd : d < width c) :
    value id (start utf8 text n + d) (textBasis text) = (utf8 c).getD d 0 := by
  have hbytes : ∀ u ∈ text.flatMap utf8, u < 2 ^ 8 := by
    intro u hu
    obtain ⟨cp, hcp, hin⟩ := List.mem_flatMap.1 hu
    exact utf8_byte_lt ((htext cp hcp).trans (by decide)) hin
  rw [textBasis, value_basisOf hbytes, List.getD_eq_getElem?_getD,
    getElem?_flatMap hc (length_utf8 c ▸ hd), ← List.getD_eq_getElem?_getD]

theorem L_prefix_at : MarksAt text
    ( L_prefix (textBasis text) (classMarks utf8 text isL) (classMarks utf8 text isV))
    (leads text) := by
  have hboth := (classMarks_at isL).and_ahead wide_L (@classMarks_at text isV)
    fun n hn ↦ any_lt hn
  unfold L_prefix
  rw [codeUnits_textBasis]
  exact hboth

include h

theorem covered_leading : Covered
    ( L_prefix (textBasis text) (classMarks utf8 text isL) (classMarks utf8 text isV)) runs := by
  intro p hp
  refine h.runs.condition p rfl ?_
  rw [(Bool.and_eq_true_iff.1 hp).1, Bool.true_or]

theorem V_suffix_at : MarksAt text
    (V_suffix runs (textBasis text) (classMarks utf8 text isL) (classMarks utf8 text isV))
    (follows text) := by
  have hnext := (@L_prefix_at text).advance_next wide_leads fun n hn ↦
    any_lt (Bool.and_eq_true_iff.1 hn).2
  rw [V_suffix, (covered_leading h).advanceIn_eq, codeUnits_textBasis]
  exact hnext

theorem LV_sequence_at : MarksAt text (LV_sequence runs (textBasis text)
    (classMarks utf8 text isL) (classMarks utf8 text isV) (classMarks utf8 text isLV))
    (syllable text) :=
  (classMarks_at isLV).or (V_suffix_at h)

theorem covered_LV_sequence : Covered (LV_sequence runs (textBasis text)
    (classMarks utf8 text isL) (classMarks utf8 text isV) (classMarks utf8 text isLV)) runs := by
  have hLV : Covered (classMarks utf8 text isLV) runs := fun p hp ↦
    h.runs.condition p rfl (by rw [hp, Bool.or_true])
  refine hLV.or (h.runs.covered_advanceIn List.mem_cons_self)

theorem LVT_sequence_at : MarksAt text (LVT_sequence runs (textBasis text)
    (classMarks utf8 text isL) (classMarks utf8 text isV) (classMarks utf8 text isLV)
    (classMarks utf8 text isT)) fun n ↦ syllable text n && text[n + 1]?.any isT := by
  have hboth := (LV_sequence_at h).and_ahead wide_syllable (classMarks_at isT)
    fun n hn ↦ any_lt hn
  unfold LVT_sequence
  rw [codeUnits_textBasis]
  exact hboth

theorem T_suffix_at : MarksAt text (T_suffix runs (textBasis text)
    (classMarks utf8 text isL) (classMarks utf8 text isV) (classMarks utf8 text isLV)
    (classMarks utf8 text isT)) (trails text) := by
  have hnext := (LVT_sequence_at h).advance_next
    (fun n hn ↦ wide_syllable n (Bool.and_eq_true_iff.1 hn).1)
    fun n hn ↦ any_lt (Bool.and_eq_true_iff.1 hn).2
  have hcovered : Covered (LVT_sequence runs (textBasis text) (classMarks utf8 text isL)
      (classMarks utf8 text isV) (classMarks utf8 text isLV) (classMarks utf8 text isT)) runs :=
    (covered_LV_sequence h).and_left _
  rw [T_suffix, hcovered.advanceIn_eq, codeUnits_textBasis]
  have hsame : (fun n ↦ decide (0 < n) && (syllable text (n - 1) && text[n - 1 + 1]?.any isT)) =
      trails text := by
    funext n
    rw [trails, Bool.and_assoc]
    cases n with
    | zero => rfl
    | succ n => rw [Nat.add_sub_cancel]
  rwa [hsame] at hnext

theorem absorbedStart_at : MarksAt text (absorbedStart runs (textBasis text)
    (classMarks utf8 text isL) (classMarks utf8 text isV) (classMarks utf8 text isLV)
    (classMarks utf8 text isT)) fun n ↦ leads text n || trails text n :=
  L_prefix_at.or (T_suffix_at h)

theorem covered_absorbedStart : Covered (absorbedStart runs (textBasis text)
    (classMarks utf8 text isL) (classMarks utf8 text isV) (classMarks utf8 text isLV)
    (classMarks utf8 text isT)) runs :=
  (covered_leading h).or
    (h.runs.covered_advanceIn (List.mem_cons_of_mem _ List.mem_cons_self))

/-- All bytes of the absorbed characters are marked. -/
theorem Deletable_apply (hc : text[n]? = some c) (hd : d < width c) :
    Deletable runs (textBasis text) (classMarks utf8 text isL) (classMarks utf8 text isV)
      (classMarks utf8 text isLV) (classMarks utf8 text isT) (start utf8 text n + d) =
        (leads text n || trails text n) := by
  have hat := absorbedStart_at h
  have hcovered := covered_absorbedStart h
  have hfirst := hat.apply wide_absorbed hc hd
  have hsecond := hat.advance_apply wide_absorbed (k := 1) (by decide) hc hd
  have hthird := hat.advance_apply wide_absorbed (k := 2) (by decide) hc hd
  beta_reduce at hfirst hsecond hthird
  rw [Deletable, if_pos length_textBasis]
  rw [hcovered.advanceIn_eq, hcovered.advanceIn_eq, hfirst, hsecond, hthird]
  cases habsorbed : leads text n || trails text n with
  | false => rw [Bool.and_false, Bool.and_false, Bool.and_false]; rfl
  | true =>
    obtain ⟨b, hb, hw⟩ := wide_absorbed n habsorbed
    obtain rfl : c = b := Option.some_inj.1 (hc.symm.trans hb)
    rcases d with _ | _ | _ | d
    · rfl
    · rfl
    · rfl
    · omega

omit h in
theorem utf8_three (hlow : 0x800 ≤ c) (hhigh : c < 0x10000) :
    utf8 c = [0xE0 + c / 64 ^ 2, 0x80 + c / 64 % 64, 0x80 + c % 64] := by
  rw [utf8, if_neg (by omega), if_neg (by omega), if_pos hhigh]

omit h in
/-- Of three positions up to one that a bit is carried to, the middle ones are in a block with one
of the outer ones. -/
theorem same_block (hw : 3 ≤ w) (s : ℕ) : (s + 2) / w = s / w ∨ (s + 2) / w = (s + 3) / w := by
  have hpos : 0 < w := by omega
  have hmod := Nat.mod_lt s hpos
  have hsplit := Nat.div_add_mod s w
  rcases Nat.lt_or_ge (s % w + 2) w with hlt | hge
  · refine .inl ?_
    rw [← hsplit, Nat.add_assoc, Nat.mul_add_div hpos, Nat.div_eq_of_lt hlt, hsplit, Nat.add_zero]
  · obtain ⟨r, hr⟩ := Nat.exists_eq_add_of_le hge
    have hnext : w * (s / w + 1) = w * (s / w) + w := Nat.mul_succ w (s / w)
    have htwo : s + 2 = w * (s / w + 1) + r := by omega
    have hthree : s + 3 = w * (s / w + 1) + (r + 1) := by omega
    refine .inr ?_
    rw [htwo, hthree, Nat.mul_add_div hpos, Nat.mul_add_div hpos,
      Nat.div_eq_of_lt (show r < w by omega), Nat.div_eq_of_lt (show r + 1 < w by omega)]

include htext in
/-- The number of the L is found at the V. -/
theorem LIndex_at (hw : 3 ≤ w) (hn : follows text n = true) :
    value id (start utf8 text n)
      (LIndex runs (textBasis text) (classMarks utf8 text isL) (classMarks utf8 text isV)) =
        text.getD (n - 1) 0 - LBase := by
  have hfollows := hn
  rw [follows, Bool.and_eq_true, decide_eq_true_iff] at hn
  obtain ⟨m, rfl⟩ : ∃ m, n = m + 1 := ⟨n - 1, by omega⟩
  rw [Nat.add_sub_cancel] at hn ⊢
  have hlead : text[m]?.any isL = true := (Bool.and_eq_true_iff.1 hn.2).1
  obtain ⟨l, hl, hisL⟩ := (Option.any_eq_true _ _).1 hlead
  have hbounds := isL_iff.1 hisL
  have hnext := wide_leads.start_succ hn.2
  have hprefix := (L_prefix_at _).2 ⟨m, wide_leads.lt hn.2, hn.2, rfl⟩
  have hsuffix := (V_suffix_at h _).2 ⟨m + 1, any_lt (follows_V hfollows), hfollows, rfl⟩
  have hruns : runs (start utf8 text m + 2) = true := by
    have hstart := covered_leading h _ hprefix
    have hend : runs (start utf8 text (m + 1)) = true :=
      h.runs.covered_advanceIn List.mem_cons_self _ hsuffix
    rw [hnext] at hend
    rcases same_block hw (start utf8 text m) with hsame | hsame
    · rwa [h.blocks _ _ hsame]
    · rwa [h.blocks _ _ hsame]
  have hbit (bit : Stream) (_ : bit ∈ (textBasis text).take index_bits) :
      (advanceIn runs 1 bit (start utf8 text (m + 1)) && V_suffix runs (textBasis text)
        (classMarks utf8 text isL) (classMarks utf8 text isV) (start utf8 text (m + 1))) =
          bit (start utf8 text m + 2) := by
    rw [hsuffix, Bool.and_true, hnext, advanceIn, advance, if_neg (by omega), Nat.add_sub_assoc
      (by decide), hruns, Bool.true_and]
  have hlast := value_textBasis (n := m) (d := 2) htext hl
    (by rw [width_three (by omega) (by omega)]; decide)
  rw [utf8_three (by omega) (by omega)] at hlast
  have hbyte : value id (start utf8 text m + 2) (textBasis text) = 0x80 + l % 64 := hlast
  have hlow : (2 : ℕ) ^ index_bits = 32 := rfl
  rw [LIndex, value_map hbit, value_take, hbyte, hlow, List.getD_eq_getElem?_getD, hl,
    Option.getD_some, LBase]
  omega

omit h in
theorem syllableAt_bounds (hn : syllable text n = true) :
    0xAC00 ≤ syllableAt text n ∧ syllableAt text n < 0x10000 := by
  have htail : (if text[n + 1]?.any isT then text.getD (n + 1) 0 - TBase else 0) ≤ 27 := by
    split_ifs with hT
    · obtain ⟨t, ht, hisT⟩ := (Option.any_eq_true _ _).1 hT
      have hbounds := isT_iff.1 hisT
      rw [List.getD_eq_getElem?_getD, ht, Option.getD_some, TBase]
      omega
    · exact Nat.zero_le _
  rw [syllableAt]
  generalize (if text[n + 1]?.any isT then text.getD (n + 1) 0 - TBase else 0) = tail at htail ⊢
  split_ifs with hLV
  · obtain ⟨c, hc, hisLV⟩ := (Option.any_eq_true _ _).1 hLV
    have hbounds := isLV_bounds hisLV
    rw [List.getD_eq_getElem?_getD, hc, Option.getD_some]
    omega
  · rw [syllable, Bool.eq_false_iff.2 hLV, Bool.false_or] at hn
    obtain ⟨v, hv, hisV⟩ := (Option.any_eq_true _ _).1 (follows_V hn)
    rw [follows, Bool.and_eq_true, leads, Bool.and_eq_true] at hn
    obtain ⟨l, hl, hisL⟩ := (Option.any_eq_true _ _).1 hn.2.1
    have hboundsL := isL_iff.1 hisL
    have hboundsV := isV_iff.1 hisV
    rw [List.getD_eq_getElem?_getD, hl, Option.getD_some, List.getD_eq_getElem?_getD, hv,
      Option.getD_some, SBase, LBase, VBase, VCount, TCount]
    omega

include htext in
/-- The syllable is found at its first byte. -/
theorem Composed_at (hw : 3 ≤ w) :
    ∃ composed, Composed runs (textBasis text) (classMarks utf8 text isL)
      (classMarks utf8 text isV) (classMarks utf8 text isLV) (classMarks utf8 text isT) =
        .ok composed ∧ composed.length = 18 ∧ ∀ n, syllable text n = true →
          value id (start utf8 text n) composed = syllableAt text n := by
  obtain ⟨composed, hcomposed, hlength, hvalue⟩ :=
    @Composed_spec runs (textBasis text) (classMarks utf8 text isL) (classMarks utf8 text isV)
      (classMarks utf8 text isLV) (classMarks utf8 text isT) length_textBasis
  refine ⟨composed, hcomposed, hlength, fun n hn ↦ ?_⟩
  obtain ⟨c, hc, hwidth⟩ := wide_syllable n hn
  have hpos := width_pos c
  have hLV := (classMarks_at isLV).apply wide_LV hc hpos
  have hV := (V_suffix_at h).apply (fun n hn ↦ wide_V n (follows_V hn)) hc hpos
  have hLVT := (LVT_sequence_at h).apply
    (fun n hn ↦ wide_syllable n (Bool.and_eq_true_iff.1 hn).1) hc hpos
  have hbyte (d : ℕ) (hd : d < 3) := value_textBasis htext hc (hwidth.symm ▸ hd : d < width c)
  have hlow : 0x800 ≤ c ∧ c < 0x10000 := by
    rw [width] at hwidth
    split_ifs at hwidth <;> omega
  rw [utf8_three hlow.1 hlow.2] at hbyte
  have hbyte0 : value id (start utf8 text n) (textBasis text) = 0xE0 + c / 64 ^ 2 :=
    hbyte 0 (by decide)
  have hbyte1 : value id (start utf8 text n + 1) (textBasis text) = 0x80 + c / 64 % 64 :=
    hbyte 1 (by decide)
  have hbyte2 : value id (start utf8 text n + 2) (textBasis text) = 0x80 + c % 64 :=
    hbyte 2 (by decide)
  simp only [Nat.add_zero, decide_true, Bool.true_and] at hLV hV hLVT
  rw [hvalue, hLV, hV, hLVT, hn, Bool.true_and, syllableAt, precomposedAt, hbyte0, hbyte1, hbyte2]
  congr 1
  · cases hisLV : text[n]?.any isLV with
    | true =>
      obtain ⟨b, hb, hisLV⟩ := (Option.any_eq_true _ _).1 hisLV
      obtain rfl : c = b := Option.some_inj.1 (hc.symm.trans hb)
      have hbounds := isLV_bounds hisLV
      rw [cond_true, if_pos rfl, List.getD_eq_getElem?_getD, hc, Option.getD_some]
      omega
    | false =>
      rw [syllable, hisLV, Bool.false_or] at hn
      obtain ⟨v, hv, hisV⟩ := (Option.any_eq_true _ _).1 (follows_V hn)
      obtain rfl : c = v := Option.some_inj.1 (hc.symm.trans hv)
      have hbounds := isV_iff.1 hisV
      have hindex : (0x80 + c % 64) % 32 + 31 = c - VBase + 32 := by
        rw [VBase]
        omega
      have hsmall : c - VBase < 32 := by
        rw [VBase]
        omega
      rw [cond_false, hn, cond_true, if_neg Bool.false_ne_true, LIndex_at htext h hw hn, hindex,
        Nat.add_mod_right, Nat.mod_eq_of_lt hsmall, List.getD_eq_getElem?_getD (i := n), hc,
        Option.getD_some]
  · cases hisT : text[n + 1]?.any isT with
    | true =>
      obtain ⟨t, ht, hT⟩ := (Option.any_eq_true _ _).1 hisT
      have hbounds := isT_iff.1 hT
      have hlast := value_textBasis (d := 2) htext ht
        (by rw [width_three (by omega) (by omega)]; decide)
      rw [utf8_three (by omega) (by omega), wide_syllable.start_succ hn] at hlast
      have hbyte5 : value id (start utf8 text n + 5) (textBasis text) = 0x80 + t % 64 := hlast
      rw [cond_true, if_pos rfl, hbyte5, List.getD_eq_getElem?_getD, ht, Option.getD_some, TBase]
      omega
    | false => rw [cond_false, if_neg Bool.false_ne_true]

/-- What the branch leaves of a character where no syllable is. -/
theorem value_selected (hc : text[n]? = some c) (hd : d < width c) :
    value id (start utf8 text n + d) (selected runs (textBasis text) (classMarks utf8 text isL)
      (classMarks utf8 text isV) (classMarks utf8 text isLV) (classMarks utf8 text isT)) =
        if leads text n || trails text n then 0
        else value id (start utf8 text n + d) (textBasis text) := by
  have hdeleted := Deletable_apply h hc hd
  split_ifs with habsorbed
  · refine value_eq_zero fun bit hbit ↦ ?_
    obtain ⟨source, -, rfl⟩ := List.mem_map.1 hbit
    unfold mask
    beta_reduce
    rw [hdeleted, habsorbed]
    exact Bool.and_false _
  · refine value_map fun bit _ ↦ ?_
    unfold mask
    rw [hdeleted, Bool.eq_false_iff.2 habsorbed]
    exact Bool.and_true _

omit h in
theorem runs_of_start {outer condition x : Stream} {carries : List (Stream × ℕ)} {s : ℕ}
    (h : Runs outer condition carries runs) (hone : (x, 1) ∈ carries) (htwo : (x, 2) ∈ carries)
    (hcovered : Covered x runs) (hx : x s = true) (hd : d < 3) : runs (s + d) = true := by
  rcases d with _ | _ | _ | d
  · exact hcovered s hx
  · exact h.carry _ hone s (hcovered s hx) hx
  · exact h.carry _ htwo s (hcovered s hx) hx
  · omega

/-- The branch runs at all bytes of the characters that it changes. -/
theorem runs_of_changed (hc : text[n]? = some c) (hd : d < width c)
    (hn : (leads text n || trails text n) = true ∨ syllable text n = true) :
    runs (start utf8 text n + d) = true := by
  have hlt : n < text.length := (List.getElem?_eq_some_iff.1 hc).1
  have hthree : d < 3 := by
    have hwide : ∃ b, text[n]? = some b ∧ width b = 3 :=
      hn.elim (wide_absorbed n) (wide_syllable n)
    obtain ⟨b, hb, hw⟩ := hwide
    obtain rfl : c = b := Option.some_inj.1 (hc.symm.trans hb)
    omega
  rcases hn with habsorbed | hsyllable
  · exact runs_of_start h.runs (by simp) (by simp) (covered_absorbedStart h)
      ((absorbedStart_at h _).2 ⟨n, hlt, habsorbed, rfl⟩) hthree
  · exact runs_of_start h.runs (by simp) (by simp) (covered_LV_sequence h)
      ((LV_sequence_at h _).2 ⟨n, hlt, hsyllable, rfl⟩) hthree

omit h in
/-- The bits of a part of the syllable are moved to one of its later bytes. -/
theorem value_moved {part : BixNum Stream} {s k : ℕ} (hruns : runs s = true) :
    value id (s + k) (part.map (advanceIn runs k)) = value id s part := by
  refine value_map fun bit _ ↦ ?_
  rw [advanceIn, advance, if_neg (by omega), Nat.add_sub_cancel, hruns, Bool.true_and]

include htext in
/-- At the bytes of a character. -/
theorem value_updatedBytes {composed : BixNum Stream} (hlength : composed.length = 18)
    (hvalue : ∀ n, syllable text n = true →
      value id (start utf8 text n) composed = syllableAt text n)
    (hc : text[n]? = some c) (hd : d < width c) :
    value id (start utf8 text n + d) (updatedBytes runs (textBasis text)
      (classMarks utf8 text isL) (classMarks utf8 text isV) (classMarks utf8 text isLV)
      (classMarks utf8 text isT) composed) = (composedUnits utf8 text n).getD d 0 := by
  have hcovered := covered_LV_sequence h
  have hat := LV_sequence_at h
  have hselected : (selected runs (textBasis text) (classMarks utf8 text isL)
      (classMarks utf8 text isV) (classMarks utf8 text isLV) (classMarks utf8 text isT)).length =
        8 := by
    rw [selected, List.length_map, length_textBasis]
  have hlength0 : ((composed.drop 12).take 4).length = 4 := by
    rw [List.length_take, List.length_drop, hlength]
    rfl
  have hlength1 : (((composed.drop 6).take 6).map (advanceIn runs 1)).length = 6 := by
    rw [List.length_map, List.length_take, List.length_drop, hlength]
    rfl
  have hlength2 : ((composed.take 6).map (advanceIn runs 2)).length = 6 := by
    rw [List.length_map, List.length_take, hlength]
    rfl
  rw [updatedBytes, value_spliceBits (by rw [length_spliceBits, length_spliceBits]; omega),
    value_spliceBits (by rw [length_spliceBits]; omega), value_spliceBits (by omega),
    hlength0, hlength1, hlength2, hcovered.advanceIn_eq, hcovered.advanceIn_eq,
    hat.apply wide_syllable hc hd, hat.advance_apply wide_syllable (by decide) hc hd,
    hat.advance_apply wide_syllable (by decide) hc hd, value_selected h hc hd,
    value_textBasis htext hc hd, composedUnits]
  have hchar : text.getD n 0 = c := by rw [List.getD_eq_getElem?_getD, hc, Option.getD_some]
  cases hsyllable : syllable text n with
  | false =>
    rw [Bool.and_false, Bool.and_false, Bool.and_false, cond_false, cond_false, cond_false,
      if_neg Bool.false_ne_true, hchar]
    split_ifs with habsorbed
    · rw [List.getD_eq_getElem?_getD, List.getElem?_map]
      cases (utf8 c)[d]? <;> rfl
    · rfl
  | true =>
    obtain ⟨b, hb, hwidth⟩ := wide_syllable n hsyllable
    obtain rfl : c = b := Option.some_inj.1 (hc.symm.trans hb)
    have hlow : 0x800 ≤ c ∧ c < 0x10000 := by
      rw [width] at hwidth
      split_ifs at hwidth <;> omega
    have hbounds := syllableAt_bounds hsyllable
    have hruns := runs_of_changed h hc (width_pos c) (.inr hsyllable)
    rw [Nat.add_zero] at hruns
    rw [not_absorbed hsyllable, if_neg Bool.false_ne_true, if_neg Bool.false_ne_true, if_pos rfl,
      Bool.and_true, Bool.and_true, Bool.and_true, utf8_three hlow.1 hlow.2,
      utf8_three (by omega) hbounds.2]
    rcases d with _ | _ | _ | d
    · rw [Nat.add_zero, value_take, value_drop, hvalue n hsyllable]
      simp only [decide_true, zero_ne_one, OfNat.zero_ne_ofNat, decide_false, cond_true, cond_false,
        List.getD_cons_zero]
      omega
    · rw [Nat.zero_add, value_moved hruns, value_take, value_drop, hvalue n hsyllable]
      simp only [decide_true, one_ne_zero, OfNat.one_ne_ofNat, decide_false, cond_true, cond_false,
        List.getD_cons_zero, List.getD_cons_succ]
      omega
    · simp only [Nat.zero_add, Nat.reduceAdd]
      rw [value_moved hruns, value_take, hvalue n hsyllable]
      simp only [decide_true, OfNat.ofNat_ne_one, OfNat.ofNat_ne_zero, decide_false, cond_true,
        cond_false, List.getD_cons_zero, List.getD_cons_succ]
      omega
    · omega

include htext in
theorem generatePabloMethod_at (hw : 3 ≤ w) : ∃ out,
    generatePabloMethod runs (textBasis text) (classMarks utf8 text isL)
      (classMarks utf8 text isV) (classMarks utf8 text isLV) (classMarks utf8 text isT) = .ok out ∧
      out.length = 8 ∧ ∀ n c d, text[n]? = some c → d < width c →
        value id (start utf8 text n + d) out = (composedUnits utf8 text n).getD d 0 := by
  obtain ⟨composed, hcomposed, hlength, hvalue⟩ := Composed_at htext h hw
  have hupdated : (updatedBytes runs (textBasis text) (classMarks utf8 text isL)
      (classMarks utf8 text isV) (classMarks utf8 text isLV) (classMarks utf8 text isT)
        composed).length = (textBasis text).length := by
    rw [updatedBytes, length_spliceBits, length_spliceBits, length_spliceBits, selected,
      List.length_map]
  refine ⟨List.zipWith (assignIn runs) (textBasis text) (updatedBytes runs (textBasis text)
    (classMarks utf8 text isL) (classMarks utf8 text isV) (classMarks utf8 text isLV)
      (classMarks utf8 text isT) composed), ?_, ?_, fun n c d hc hd ↦ ?_⟩
  · rw [generatePabloMethod, hcomposed, ok_bind, if_pos length_textBasis]
    rfl
  · rw [List.length_zipWith, hupdated, Nat.min_self, length_textBasis]
  · rw [value_assigned hupdated]
    cases hruns : runs (start utf8 text n + d) with
    | true => exact value_updatedBytes htext h hlength hvalue hc hd
    | false =>
      have hidle := mt (runs_of_changed h hc hd) (Bool.eq_false_iff.1 hruns)
      rw [not_or] at hidle
      rw [cond_false, value_textBasis htext hc hd, composedUnits, if_neg hidle.1, if_neg hidle.2,
        List.getD_eq_getElem?_getD (l := text), hc, Option.getD_some]

end Kernel

section Result

variable {text : List ℕ} {n : ℕ}

theorem length_composedUnits {c : ℕ} (hc : text[n]? = some c) :
    (composedUnits utf8 text n).length = width c := by
  have hchar : text.getD n 0 = c := by rw [List.getD_eq_getElem?_getD, hc, Option.getD_some]
  rw [composedUnits]
  split_ifs with habsorbed hsyllable
  · rw [List.length_map, hchar, length_utf8]
  · obtain ⟨b, hb, hwidth⟩ := wide_syllable n hsyllable
    obtain rfl : c = b := Option.some_inj.1 (hc.symm.trans hb)
    have hbounds := syllableAt_bounds hsyllable
    rw [length_utf8, width_three (by omega) hbounds.2, hwidth]
  · rw [hchar, length_utf8]

/-- The units of a text, character by character. -/
theorem map_range_units {β : Type} (f : ℕ → β) (g : ℕ → List β) (h : ∀ n c, text[n]? = some c →
    (List.range (width c)).map (fun d ↦ f (start utf8 text n + d)) = g n) :
    (List.range (text.flatMap utf8).length).map f = (List.range text.length).flatMap g := by
  have hprefix (k : ℕ) (hk : k ≤ text.length) :
      (List.range (start utf8 text k)).map f = (List.range k).flatMap g := by
    induction k with
    | zero => rfl
    | succ k ih =>
      have hc := List.getElem?_eq_getElem (show k < text.length from hk)
      rw [start_succ hc, length_utf8, List.range_add, List.map_append, ih (Nat.le_of_succ_le hk),
        List.map_map, List.range_succ, List.flatMap_append, List.flatMap_singleton, ← h k _ hc]
      rfl
  rw [← start_length, hprefix _ (Nat.le_refl _)]

/-- The kernel composes the syllables of a text exactly where the basis is that of its bytes: a
syllable that is composed on 21 streams is one bit too long to be extended to them. -/
theorem hangulComposition_exact (text : List ℕ) (htext : ∀ cp ∈ text, cp < 0x110000) (size : ℕ)
    (hsize : size = 8 ∨ size = 21) (runs : Stream) {w : ℕ} (hw : 3 ≤ w)
    (h : Hangul_Composition.Branches runs
      ((List.range size).map (basisOf (text.flatMap (encode size))))
      (classMarks (encode size) text isL) (classMarks (encode size) text isV)
      (classMarks (encode size) text isLV) (classMarks (encode size) text isT) w) :
    Composes text runs size ↔ size = 8 := by
  constructor
  · rintro ⟨out, hout, -⟩
    refine hsize.resolve_right fun h21 ↦ ?_
    rw [hangulComposition, Hangul_Composition.generatePabloMethod_21
      (by rw [List.length_map, List.length_range, h21])] at hout
    cases hout
  · rintro rfl
    obtain ⟨out, hout, hlength, hvalue⟩ := generatePabloMethod_at htext h hw
    refine ⟨out, hout, hlength, map_range_units _ _ fun n c hc ↦ ?_⟩
    have hencode : encode 8 = utf8 := rfl
    rw [hencode]
    refine List.ext_getElem? fun d ↦ ?_
    have hunits := length_composedUnits hc
    by_cases hd : d < width c
    · rw [List.getElem?_map, List.getElem?_range hd, Option.map_some, hvalue n c d hc hd,
        List.getD_eq_getElem?_getD, List.getElem?_eq_getElem (hunits.symm ▸ hd), Option.getD_some]
    · rw [List.getElem?_eq_none (by rw [List.length_map, List.length_range]; omega),
        List.getElem?_eq_none (hunits.symm ▸ Nat.le_of_not_lt hd)]

theorem hangulComposition_exact_ga :
    Composes [0x1100, 0x1161] (fun _ ↦ true) 8 :=
  (hangulComposition_exact [0x1100, 0x1161] (by decide) 8 (.inl rfl) (fun _ ↦ true) (Nat.le_refl 3)
    ⟨fun _ _ _ ↦ rfl, (runs_always _ _).mono fun _ h ↦ h⟩).2 rfl

/-- No syllable is composed on 21 streams. -/
theorem hangulComposition_fails_ga : ¬ Composes [0x1100, 0x1161] (fun _ ↦ true) 21 := by
  rintro ⟨out, hout, -⟩
  rw [hangulComposition, Hangul_Composition.generatePabloMethod_21
    (by rw [List.length_map, List.length_range])] at hout
  cases hout

end Result

end Parabix.Unicode
