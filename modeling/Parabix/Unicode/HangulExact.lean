import Parabix.Unicode.Basis
import Parabix.Unicode.Hangul

namespace Parabix.Unicode

open Library Library.BitStream Pablo Pablo.BixNumCompiler Hangul

section Numbers

variable {runs cond : Stream} {n k index : BixNum Stream} {p bits : ℕ}

theorem value_eq_zero (h : ∀ bit ∈ n, bit p = false) : value id p n = 0 := by
  induction n with
  | nil => rfl
  | cons bit n ih =>
    rw [value_cons, ih fun bit hbit ↦ h bit (List.mem_cons_of_mem _ hbit), id_eq,
      h bit List.mem_cons_self]
    rfl

theorem eq_false_of_value (h : value id p n = 0) {bit : Stream} (hbit : bit ∈ n) :
    bit p = false := by
  induction n with
  | nil => exact absurd hbit List.not_mem_nil
  | cons first n ih =>
    rw [value_cons, id_eq] at h
    rcases List.mem_cons.1 hbit with rfl | hrest
    · cases hfirst : bit p
      · rfl
      · rw [hfirst, Bool.toNat_true] at h
        omega
    · exact ih (by omega) hrest

/-- Bits are computed one by one. -/
theorem value_map {f : Stream → Stream} {q : ℕ} (h : ∀ bit ∈ n, f bit p = bit q) :
    value id p (n.map f) = value id q n := by
  induction n with
  | nil => rfl
  | cons bit n ih =>
    have hrest := ih fun bit hbit ↦ h bit (List.mem_cons_of_mem _ hbit)
    rw [List.map_cons, value_cons, value_cons, hrest, id_eq, id_eq, h bit List.mem_cons_self]

theorem assignIndex_spec (hbits : bits ≤ index.length) :
    ∃ r, assignIndex runs bits index = .ok r ∧ r.length = bits ∧ ∀ p, value id p r =
      bif runs p then value id p index % 2 ^ bits else 0 := by
  refine ⟨_, if_pos hbits, ?_, fun p ↦ ?_⟩
  · rw [List.length_map, List.length_take_of_le hbits]
  · cases hruns : runs p with
    | false =>
      refine value_eq_zero fun bit hbit ↦ ?_
      obtain ⟨source, -, rfl⟩ := List.mem_map.1 hbit
      rw [assignIn, hruns, cond_false]
    | true =>
      rw [value_map fun bit _ ↦ by rw [assignIn, hruns, cond_true], value_take, cond_true]

theorem value_selectBits (hlength : n.length = k.length) :
    value id p (selectBits cond n k) = bif cond p then value id p n else value id p k := by
  induction n generalizing k with
  | nil =>
    cases k with
    | nil => rw [selectBits, List.zipWith_nil_left, value_nil, Bool.cond_self]
    | cons bit k => cases hlength
  | cons bit n ih =>
    cases k with
    | nil => cases hlength
    | cons bit' k =>
      have hrest := ih (Nat.succ.inj hlength)
      rw [selectBits] at hrest
      rw [selectBits, List.zipWith_cons_cons, value_cons, value_cons, value_cons, hrest,
        PabloBuilder.streams_lawful.sel]
      cases hcond : cond p <;> simp [hcond]

theorem length_selectBits (hlength : n.length = k.length) :
    (selectBits cond n k).length = k.length := by
  rw [selectBits, List.length_zipWith, hlength, Nat.min_self]

theorem value_assigned (hlength : n.length = k.length) :
    value id p (List.zipWith (assignIn runs) k n) =
      bif runs p then value id p n else value id p k := by
  rw [← value_selectBits hlength, selectBits, List.zipWith_comm]
  rfl

theorem Hangul_precomposed_iff :
    Hangul_precomposed n p = true ↔ Precomposed (value id p n) := by
  have hge := eval_UGE PabloBuilder.streams_lawful (n := n) (p := p) (x := SBase)
  have hlt := eval_ULT PabloBuilder.streams_lawful (n := n) (p := p) (x := SBase + SCount)
  rw [id_eq] at hge hlt
  rw [Hangul_precomposed, hge, hlt, Bool.and_eq_true, decide_eq_true_iff, decide_eq_true_iff]
  rfl

end Numbers

section Indexes

variable {runs : Stream} {basis L_index V_index T_index : BixNum Stream} {p : ℕ}

/-- The number of the syllable at a position, zero where there is none. -/
def SIndexAt (basis : BixNum Stream) (p : ℕ) : ℕ :=
  bif Hangul_precomposed basis p then value id p basis - SBase else 0

theorem SIndexAt_lt : SIndexAt basis p < SCount := by
  have hcount : 0 < SCount := Nat.succ_pos _
  rw [SIndexAt]
  cases h : Hangul_precomposed basis p with
  | false => exact hcount
  | true =>
    obtain ⟨hge, hlt⟩ := Hangul_precomposed_iff.1 h
    rw [cond_true]
    omega

/-- The numbers of the parts of the syllables. -/
structure Indexed (basis L_index V_index T_index : BixNum Stream) : Prop where
  length_L : L_index.length = L_Index_bits
  length_V : V_index.length = V_Index_bits
  length_T : T_index.length = T_Index_bits
  L (p : ℕ) : value id p L_index = SIndexAt basis p / NCount
  V (p : ℕ) : value id p V_index = SIndexAt basis p % NCount / TCount
  T (p : ℕ) : value id p T_index = SIndexAt basis p % TCount

theorem SIndexAt_spec (hlength : basis.length = 21) :
    ∃ difference, SubModularConst .streams basis SBase = .ok difference ∧
      let selected := Select .streams (Hangul_precomposed basis) difference
        (List.replicate basis.length PabloBuilder.streams.createZeroes)
      selected.length = 21 ∧
        ∀ p, value id p (selected.take S_Index_bits) = SIndexAt basis p := by
  have hlawful := PabloBuilder.streams_lawful
  obtain ⟨difference, hsub, hdifference, hvalue⟩ :=
    (subModularConst_spec hlawful basis (x := SBase) (by decide)).2 (by omega)
  refine ⟨difference, hsub, ?_, fun p ↦ ?_⟩
  · rw [length_select, hdifference, List.length_replicate, hlength, Nat.max_self]
  · have hlt : SIndexAt basis p < 2 ^ S_Index_bits := SIndexAt_lt.trans (by decide)
    rw [value_take, ← Nat.mod_eq_of_lt hlt]
    congr 1
    rw [value_select hlawful, SIndexAt, value_replicate_zeroes hlawful, id_eq]
    cases hp : Hangul_precomposed basis p with
    | false => rw [cond_false, cond_false]
    | true =>
      have hsmall := (Nat.sub_le _ SBase).trans_lt (@value_lt _ id p basis)
      have hdiff := hvalue p
      rw [← Nat.cast_sub (Hangul_precomposed_iff.1 hp).1] at hdiff
      have hmod : value id p difference = (value id p basis - SBase) % 2 ^ basis.length := by
        exact_mod_cast hdiff
      rw [cond_true, cond_true, hmod, Nat.mod_eq_of_lt hsmall]

theorem divided_spec {S_Index : BixNum Stream} (hlength : S_Index.length = S_Index_bits)
    (hS : ∀ p, value id p S_Index = SIndexAt basis p) :
    ∃ LV_index T_index L_index V_index, Div .streams S_Index TCount = .ok (LV_index, T_index) ∧
      Div .streams (LV_index.take (L_Index_bits + V_Index_bits)) VCount =
        .ok (L_index, V_index) ∧ L_Index_bits + V_Index_bits ≤ LV_index.length ∧
        L_Index_bits ≤ L_index.length ∧ V_Index_bits ≤ V_index.length ∧
        T_Index_bits ≤ T_index.length ∧ ∀ p,
          value id p L_index = SIndexAt basis p / NCount ∧
            value id p V_index = SIndexAt basis p % NCount / TCount ∧
              value id p T_index = SIndexAt basis p % TCount := by
  have hlawful := PabloBuilder.streams_lawful
  have hlog28 : TCount.log2 = 4 := by decide
  have hbits : S_Index_bits = 14 ∧ L_Index_bits = 5 ∧ V_Index_bits = 5 ∧ T_Index_bits = 5 := by
    decide
  have hlog21 : VCount.log2 = 4 := by decide
  obtain ⟨LV_index, T_index, hdiv, -, hLV, hT, hLVT⟩ := div_spec hlawful (n := S_Index)
    (m := TCount) (by decide) (by decide) (by omega) (by omega)
  have hten : (LV_index.take (L_Index_bits + V_Index_bits)).length = 10 :=
    List.length_take_of_le (by omega)
  obtain ⟨L_index, V_index, hdiv', -, hL, hV, hvalue⟩ := div_spec hlawful
    (n := LV_index.take (L_Index_bits + V_Index_bits)) (m := VCount) (by decide) (by decide)
    (by omega) (by omega)
  refine ⟨LV_index, T_index, L_index, V_index, hdiv, hdiv', by omega, by omega, by omega, by omega,
    fun p ↦ ?_⟩
  have hlt : SIndexAt basis p / TCount < 2 ^ (L_Index_bits + V_Index_bits) := by
    have hlt : SIndexAt basis p < 11172 := SIndexAt_lt
    rw [TCount, hbits.2.1, hbits.2.2.1]
    omega
  obtain ⟨hvalueL, hvalueV⟩ := hvalue p
  obtain ⟨hvalueLV, hvalueT⟩ := hLVT p
  rw [value_take, hvalueLV, hS, Nat.mod_eq_of_lt hlt] at hvalueL hvalueV
  exact ⟨hvalueL.trans (Nat.div_div_eq_div_mul _ _ _),
    hvalueV.trans (Nat.mod_mul_right_div_self _ TCount VCount).symm, hvalueT.trans (by rw [hS])⟩

/-- Where the branch does not run there is no syllable. -/
theorem assigned_eq {bits : ℕ} {f : ℕ → ℕ} (h : LVT_Indexes.Branches runs basis)
    (hindex : ∀ p, value id p L_index = f (SIndexAt basis p)) (hzero : f 0 = 0)
    (hsmall : ∀ k < SCount, f k < 2 ^ bits)
    (hlength : bits ≤ L_index.length) :
    ∃ r, assignIndex runs bits L_index = .ok r ∧ r.length = bits ∧
      ∀ p, value id p r = f (SIndexAt basis p) := by
  obtain ⟨r, hr, hrlength, hvalue⟩ := @assignIndex_spec runs _ _ hlength
  refine ⟨r, hr, hrlength, fun p ↦ ?_⟩
  rw [hvalue, hindex, Nat.mod_eq_of_lt (hsmall _ SIndexAt_lt)]
  cases hp : Hangul_precomposed basis p with
  | false => rw [SIndexAt, hp, cond_false, hzero, Bool.cond_self]
  | true => rw [h.condition p rfl hp, cond_true]

theorem lvt_indexes_spec (hlength : basis.length = 21) (h : LVT_Indexes.Branches runs basis) :
    ∃ L_index V_index T_index,
      LVT_Indexes.generatePabloMethod runs basis = .ok (L_index, V_index, T_index) ∧
        Indexed basis L_index V_index T_index := by
  obtain ⟨difference, hsub, hselected, hS⟩ := SIndexAt_spec hlength
  obtain ⟨LV, T, L, V, hdiv, hdiv', hlengthLV, hlengthL, hlengthV, hlengthT, hvalue⟩ :=
    divided_spec (List.length_take_of_le (hselected ▸ by decide)) hS
  have htruncate := truncate_eq (hselected ▸ by decide : S_Index_bits ≤ (Select .streams
    (Hangul_precomposed basis) difference
      (List.replicate basis.length PabloBuilder.streams.createZeroes)).length)
  obtain ⟨L_index, hL, hlenL, hvalueL⟩ := assigned_eq (f := fun k ↦ k / NCount) h
    (fun p ↦ (hvalue p).1) rfl (fun k hk ↦ by
      rw [SCount] at hk
      rw [NCount, L_Index_bits]
      omega) hlengthL
  obtain ⟨V_index, hV, hlenV, hvalueV⟩ := assigned_eq (f := fun k ↦ k % NCount / TCount) h
    (fun p ↦ (hvalue p).2.1) rfl (fun k _ ↦ by
      rw [NCount, TCount, V_Index_bits]
      omega) hlengthV
  obtain ⟨T_index, hT, hlenT, hvalueT⟩ := assigned_eq (f := fun k ↦ k % TCount) h
    (fun p ↦ (hvalue p).2.2) rfl (fun k _ ↦ by
      rw [TCount, T_Index_bits]
      omega) hlengthT
  refine ⟨L_index, V_index, T_index, ?_, hlenL, hlenV, hlenT, hvalueL, hvalueV, hvalueT⟩
  rw [LVT_Indexes.generatePabloMethod, hsub, ok_bind]
  dsimp only
  rw [htruncate, ok_bind, hdiv, ok_bind]
  dsimp only
  rw [truncate_eq hlengthLV, ok_bind, hdiv', ok_bind]
  dsimp only
  rw [hL, ok_bind, hV, ok_bind, hT]
  rfl

end Indexes

section Parts

variable {runs : Stream} {basis L_index V_index T_index index : BixNum Stream} {p k base : ℕ}

/-- Bits that are zeroes where no syllable starts are carried to where the branch runs. -/
theorem covered_index (h : Covered (Hangul_precomposed basis) runs) {f : ℕ → ℕ}
    (hindex : ∀ p, value id p index = f (SIndexAt basis p)) (hzero : f 0 = 0)
    {bit : Stream} (hbit : bit ∈ index) : Covered bit runs := by
  refine fun p hp ↦ h p ?_
  cases hstart : Hangul_precomposed basis p with
  | true => rfl
  | false =>
    have hnone : value id p index = 0 := by rw [hindex, SIndexAt, hstart, cond_false, hzero]
    rw [eq_false_of_value hnone hbit] at hp
    exact absurd hp Bool.false_ne_true

theorem value_advanced (h : ∀ bit ∈ index, Covered bit runs) :
    value id p (index.map (advanceIn runs k)) = if p < k then 0 else value id (p - k) index := by
  split_ifs with hlt
  · refine value_eq_zero fun bit hbit ↦ ?_
    obtain ⟨source, hsource, rfl⟩ := List.mem_map.1 hbit
    rw [(h source hsource).advanceIn_eq, advance, if_pos hlt]
  · refine value_map fun bit hbit ↦ ?_
    rw [(h bit hbit).advanceIn_eq, advance, if_neg hlt]

/-- A part is encoded in 21 bits. -/
theorem part_spec (hindex : index.length = 5) (hbase : base < 2 ^ 20) :
    ∃ part, ZeroExtendTo .streams index 21 = .ok (ZeroExtend .streams index 21) ∧
      AddModularConst .streams (ZeroExtend .streams index 21) base = .ok part ∧
        part.length = 21 ∧ ∀ p, value id p part = base + value id p index := by
  have hlawful := PabloBuilder.streams_lawful
  have hlength : (ZeroExtend .streams index 21).length = 21 := by
    rw [ZeroExtend, List.length_append, List.length_replicate, hindex]
  obtain ⟨part, hpart, hlen, hvalue⟩ :=
    (addModularConst_spec hlawful (ZeroExtend .streams index 21) base).2 (by omega)
  refine ⟨part, zeroExtendTo_eq (by omega), hpart, hlen.trans hlength, fun p ↦ ?_⟩
  have hlt := @value_lt _ id p index
  rw [hindex] at hlt
  rw [hvalue]
  beta_reduce
  rw [value_zeroExtend hlawful, hlength, Nat.mod_eq_of_lt (by omega), Nat.add_comm]

/-- The parts of the syllables, one, two and three positions long. -/
def partAt (basis : BixNum Stream) (p : ℕ) : ℕ :=
  if 2 ≤ p ∧ Precomposed (value id (p - 2) basis) ∧ SIndexAt basis (p - 2) % TCount ≠ 0 then
    TBase + SIndexAt basis (p - 2) % TCount
  else if 1 ≤ p ∧ Precomposed (value id (p - 1) basis) then
    VBase + SIndexAt basis (p - 1) % NCount / TCount
  else if Precomposed (value id p basis) then LBase + SIndexAt basis p / NCount
  else value id p basis

/-- The positions of a later part are those of the syllables, moved. -/
theorem advanced_iff (h : Covered (Hangul_precomposed basis) runs) :
    advanceIn runs k (Hangul_precomposed basis) p = true ↔
      k ≤ p ∧ Precomposed (value id (p - k) basis) := by
  rw [h.advanceIn_eq, advance]
  split_ifs with hlt
  · exact ⟨fun hfalse ↦ hfalse.elim, fun hle ↦ absurd hle.1 (by omega)⟩
  · rw [Hangul_precomposed_iff]
    exact ⟨fun hp ↦ ⟨by omega, hp⟩, fun hp ↦ hp.2⟩

theorem lvt2nfd_spec (hlength : basis.length = 21)
    (hindex : Indexed basis L_index V_index T_index)
    (h : LVT2NFD.Branches runs basis V_index T_index) :
    ∃ out, LVT2NFD.generatePabloMethod runs basis L_index V_index T_index = .ok out ∧
      out.length = 21 ∧ ∀ p, value id p out = partAt basis p := by
  have hcovered : Covered (Hangul_precomposed basis) runs := fun p hp ↦ h.condition p rfl hp
  have hcoveredV : ∀ bit ∈ V_index, Covered bit runs := fun bit hbit ↦
    covered_index (f := fun k ↦ k % NCount / TCount) hcovered hindex.V rfl hbit
  have hcoveredT : ∀ bit ∈ T_index, Covered bit runs := fun bit hbit ↦
    covered_index (f := fun k ↦ k % TCount) hcovered hindex.T rfl hbit
  obtain ⟨LPart, hextL, haddL, hlengthL, hvalueL⟩ :=
    @part_spec _ LBase hindex.length_L (by decide)
  obtain ⟨VPart, hextV, haddV, hlengthV, hvalueV⟩ :=
    @part_spec (V_index.map (advanceIn runs 1)) VBase
      ((List.length_map _).trans hindex.length_V) (by decide)
  obtain ⟨TPart, hextT, haddT, hlengthT, hvalueT⟩ :=
    @part_spec (T_index.map (advanceIn runs 2)) TBase
      ((List.length_map _).trans hindex.length_T) (by decide)
  obtain ⟨V_position, hV_position⟩ :
    ∃ s, s = advanceIn runs 1 (Hangul_precomposed basis) := ⟨_, rfl⟩
  obtain ⟨T_position, hT_position⟩ :
    ∃ s, s = fun p ↦ advanceIn runs 2 (Hangul_precomposed basis) p &&
      NEQ .streams (T_index.map (advanceIn runs 2)) 0 p := ⟨_, rfl⟩
  have hL := @length_selectBits (Hangul_precomposed basis) _ _ (hlengthL.trans hlength.symm)
  have hVL := @length_selectBits V_position _ _ (hlengthV.trans (hL.trans hlength).symm)
  have hTV := @length_selectBits T_position _ _
    (hlengthT.trans (hVL.trans (hL.trans hlength)).symm)
  refine ⟨List.zipWith (assignIn runs) basis (selectBits T_position TPart (selectBits V_position
    VPart (selectBits (Hangul_precomposed basis) LPart basis))), ?_, ?_, fun p ↦ ?_⟩
  · rw [LVT2NFD.generatePabloMethod, hextL, ok_bind, haddL, ok_bind]
    dsimp only
    rw [hextV, ok_bind, haddV, ok_bind, hextT, ok_bind, haddT, ok_bind, hV_position,
      hT_position]
    rfl
  · rw [List.length_zipWith, hTV, hVL, hL, hlength, Nat.min_self]
  · rw [value_assigned (hTV.trans (hVL.trans hL)),
      value_selectBits (hlengthT.trans (hVL.trans (hL.trans hlength)).symm),
      value_selectBits (hlengthV.trans (hL.trans hlength).symm),
      value_selectBits (hlengthL.trans hlength.symm), hvalueT, hvalueV, hvalueL,
      value_advanced hcoveredT, value_advanced hcoveredV, hindex.L, hindex.V, hindex.T]
    have hLp := @Hangul_precomposed_iff basis p
    have hVp : V_position p = true ↔ 1 ≤ p ∧ Precomposed (value id (p - 1) basis) := by
      rw [hV_position]
      exact advanced_iff hcovered
    have hTp : T_position p = true ↔ 2 ≤ p ∧ Precomposed (value id (p - 2) basis) ∧
        SIndexAt basis (p - 2) % TCount ≠ 0 := by
      have hneq := eval_NEQ PabloBuilder.streams_lawful (n := T_index.map (advanceIn runs 2))
        (p := p) (x := 0)
      rw [value_advanced hcoveredT, hindex.T, id_eq] at hneq
      rw [hT_position, Bool.and_eq_true, advanced_iff hcovered, hneq, decide_eq_true_iff,
        and_assoc]
      refine and_congr_right fun hle ↦ and_congr_right fun _ ↦ ?_
      rw [if_neg (by omega)]
    have hcarry (k : ℕ) (hk : (Hangul_precomposed basis, k) ∈ (Hangul_precomposed basis, 1) ::
        (Hangul_precomposed basis, 2) :: (V_index.map fun bit ↦ (bit, 1))) (hle : k ≤ p)
        (hp : Precomposed (value id (p - k) basis)) : runs p = true := by
      have hstart := Hangul_precomposed_iff.2 hp
      have hmoved := h.carry (Hangul_precomposed basis, k) (List.mem_append_left _ hk) (p - k)
        (hcovered _ hstart) hstart
      rwa [Nat.sub_add_cancel hle] at hmoved
    rw [partAt]
    cases hruns : runs p with
    | false =>
      have hnone := Bool.false_ne_true
      rw [← hruns] at hnone
      have htwo := hcarry 2 (List.mem_cons_of_mem _ List.mem_cons_self)
      rw [cond_false, if_neg fun hT ↦ hnone (htwo hT.1 hT.2.1),
        if_neg fun hV ↦ hnone (hcarry 1 List.mem_cons_self hV.1 hV.2),
        if_neg fun hL ↦ hnone (hcovered p (hLp.2 hL))]
    | true =>
      rw [cond_true]
      by_cases hT : 2 ≤ p ∧ Precomposed (value id (p - 2) basis) ∧
          SIndexAt basis (p - 2) % TCount ≠ 0
      · rw [if_pos hT, hTp.2 hT, cond_true, if_neg (by omega)]
      rw [if_neg hT, Bool.eq_false_iff.2 (mt hTp.1 hT), cond_false]
      by_cases hV : 1 ≤ p ∧ Precomposed (value id (p - 1) basis)
      · rw [if_pos hV, hVp.2 hV, cond_true, if_neg (by omega)]
      rw [if_neg hV, Bool.eq_false_iff.2 (mt hVp.1 hV), cond_false]
      by_cases hL : Precomposed (value id p basis)
      · rw [if_pos hL, hLp.2 hL, cond_true]
      · rw [if_neg hL, Bool.eq_false_iff.2 (mt hLp.1 hL), cond_false]

end Parts

section Syllables

variable {basis out : BixNum Stream} {p q i : ℕ}

theorem decomposition_eq (hp : Precomposed (value id p basis)) :
    decomposition (value id p basis) =
      [LBase + SIndexAt basis p / NCount, VBase + SIndexAt basis p % NCount / TCount] ++
        if SIndexAt basis p % TCount = 0 then [] else [TBase + SIndexAt basis p % TCount] := by
  have hindex : SIndexAt basis p = value id p basis - SBase := by
    rw [SIndexAt, Hangul_precomposed_iff.2 hp, cond_true]
  rw [decomposition, hindex]

theorem one_lt_decomposition (s : ℕ) : 1 < (decomposition s).length := by
  rw [decomposition, List.length_append]
  exact Nat.lt_add_right _ Nat.one_lt_two

theorem two_lt_decomposition (hp : Precomposed (value id p basis)) :
    2 < (decomposition (value id p basis)).length ↔ SIndexAt basis p % TCount ≠ 0 := by
  rw [decomposition_eq hp]
  split_ifs with hT
  · exact ⟨fun hlt ↦ absurd hlt (Nat.lt_irrefl 2), fun hne ↦ absurd hT hne⟩
  · exact ⟨fun _ ↦ hT, fun _ ↦ Nat.lt_succ_self 2⟩

theorem not_precomposed_zero : ¬ Precomposed 0 := by decide

/-- Two syllables are so far from each other that their parts are at different positions. -/
theorem partAt_of_syllable
    (hpad : ∀ p, Precomposed (value id p basis) → ∀ i, 0 < i →
      i < (decomposition (value id p basis)).length → value id (p + i) basis = 0)
    (hp : Precomposed (value id p basis)) {d : ℕ}
    (hd : (decomposition (value id p basis))[i]? = some d) : partAt basis (p + i) = d := by
  have hapart (q k : ℕ) (hq : Precomposed (value id q basis)) (hk : 0 < k)
      (hlt : k < (decomposition (value id q basis)).length) : q + k ≠ p := by
    rintro rfl
    rw [hpad q hq k hk hlt] at hp
    exact not_precomposed_zero hp
  rw [decomposition_eq hp] at hd
  rw [partAt]
  rcases i with _ | _ | i
  · have hT : ¬ (2 ≤ p ∧ Precomposed (value id (p - 2) basis) ∧
        SIndexAt basis (p - 2) % TCount ≠ 0) := fun hT ↦
      hapart (p - 2) 2 hT.2.1 Nat.two_pos ((two_lt_decomposition hT.2.1).2 hT.2.2) (by omega)
    have hV : ¬ (1 ≤ p ∧ Precomposed (value id (p - 1) basis)) := fun hV ↦
      hapart (p - 1) 1 hV.2 Nat.one_pos (one_lt_decomposition _) (by omega)
    rw [Nat.add_zero, if_neg hT, if_neg hV, if_pos hp]
    exact Option.some_inj.1 hd
  · have hT : ¬ (2 ≤ p + 1 ∧ Precomposed (value id (p + 1 - 2) basis) ∧
        SIndexAt basis (p + 1 - 2) % TCount ≠ 0) := fun hT ↦
      hapart (p + 1 - 2) 1 hT.2.1 Nat.one_pos (one_lt_decomposition _) (by omega)
    have hV : 1 ≤ p + 1 ∧ Precomposed (value id (p + 1 - 1) basis) := ⟨by omega, hp⟩
    rw [if_neg hT, if_pos hV, Nat.add_sub_cancel]
    exact Option.some_inj.1 hd
  · by_cases hzero : SIndexAt basis p % TCount = 0
    · rw [if_pos hzero] at hd
      cases hd
    · rw [if_neg hzero] at hd
      cases i with
      | zero =>
        have hT : 2 ≤ p + 2 ∧ Precomposed (value id (p + 2 - 2) basis) ∧
            SIndexAt basis (p + 2 - 2) % TCount ≠ 0 := ⟨by omega, hp, hzero⟩
        rw [if_pos hT, Nat.add_sub_cancel]
        exact Option.some_inj.1 hd
      | succ i => cases hd

theorem partAt_of_other (hq : ∀ p i, Precomposed (value id p basis) →
    i < (decomposition (value id p basis)).length → q ≠ p + i) :
    partAt basis q = value id q basis := by
  have hT : ¬ (2 ≤ q ∧ Precomposed (value id (q - 2) basis) ∧
      SIndexAt basis (q - 2) % TCount ≠ 0) := fun hT ↦
    hq (q - 2) 2 hT.2.1 ((two_lt_decomposition hT.2.1).2 hT.2.2) (by omega)
  have hV : ¬ (1 ≤ q ∧ Precomposed (value id (q - 1) basis)) := fun hV ↦
    hq (q - 1) 1 hV.2 (one_lt_decomposition _) (by omega)
  have hL : ¬ Precomposed (value id q basis) := fun hL ↦
    hq q 0 hL (Nat.zero_lt_one.trans (one_lt_decomposition _)) (Nat.add_zero q).symm
  rw [partAt, if_neg hT, if_neg hV, if_neg hL]

/-- The branches may run block by block, in blocks of any width. -/
theorem branches_byBlocks {w : ℕ} (hw : 2 ≤ w) (basis V_index T_index : BixNum Stream) :
    LVT_Indexes.Branches (byBlocks w (Hangul_precomposed basis) []) basis ∧
      LVT2NFD.Branches (byBlocks w (Hangul_precomposed basis)
        ((Hangul_precomposed basis, 1) :: (Hangul_precomposed basis, 2) ::
          (V_index.map fun bit ↦ (bit, 1)) ++ T_index.map fun bit ↦ (bit, 2)))
        basis V_index T_index := by
  refine ⟨runs_byBlocks (by omega) fun c hc ↦ absurd hc List.not_mem_nil,
    runs_byBlocks (by omega) fun c hc ↦ ?_⟩
  simp only [List.cons_append, List.mem_cons, List.mem_append, List.mem_map] at hc
  rcases hc with rfl | rfl | ⟨bit, -, rfl⟩ | ⟨bit, -, rfl⟩
  · exact Nat.le_of_succ_le hw
  · exact hw
  · exact Nat.le_of_succ_le hw
  · exact hw

/-- Every syllable with its zeroes becomes its jamo, and every other position keeps its code point,
wherever the branches run. -/
theorem decomposeHangul_exact (basis : BixNum Stream) (hlength : basis.length = 21)
    (hpad : ∀ p, Precomposed (value id p basis) → ∀ i, 0 < i →
      i < (decomposition (value id p basis)).length → value id (p + i) basis = 0)
    (runs1 : Stream) (h1 : LVT_Indexes.Branches runs1 basis) :
    ∃ L_index V_index T_index,
      LVT_Indexes.generatePabloMethod runs1 basis = .ok (L_index, V_index, T_index) ∧
      ∀ runs2, LVT2NFD.Branches runs2 basis V_index T_index → ∃ NFD_Basis,
        LVT2NFD.generatePabloMethod runs2 basis L_index V_index T_index = .ok NFD_Basis ∧
        NFD_Basis.length = 21 ∧
        (∀ p i d, Precomposed (value id p basis) →
          (decomposition (value id p basis))[i]? = some d → value id (p + i) NFD_Basis = d) ∧
        ∀ q, (∀ p i, Precomposed (value id p basis) →
          i < (decomposition (value id p basis)).length → q ≠ p + i) →
            value id q NFD_Basis = value id q basis := by
  obtain ⟨L_index, V_index, T_index, hindexes, hindex⟩ := lvt_indexes_spec hlength h1
  refine ⟨L_index, V_index, T_index, hindexes, fun runs2 h2 ↦ ?_⟩
  obtain ⟨NFD_Basis, hbasis, hlen, hvalue⟩ := lvt2nfd_spec hlength hindex h2
  refine ⟨NFD_Basis, hbasis, hlen, fun p i d hp hd ↦ ?_, fun q hq ↦ ?_⟩
  · rw [hvalue, partAt_of_syllable hpad hp hd]
  · rw [hvalue, partAt_of_other hq]

/-- The basis bit streams of numbers of `w` bits. -/
theorem value_basisOf {w : ℕ} {units : List ℕ} (h : ∀ u ∈ units, u < 2 ^ w) (p : ℕ) :
    value id p ((List.range w).map (basisOf units)) = units.getD p 0 := by
  rw [← codeUnit_basisOf h p, codeUnit, value, List.map_map]
  rfl

theorem decomposeHangul_exact_gag :
    let basis := (List.range 21).map (basisOf [0xAC01, 0, 0])
    ∃ L_index V_index T_index, LVT_Indexes.generatePabloMethod
      (byBlocks 64 (Hangul_precomposed basis) []) basis = .ok (L_index, V_index, T_index) ∧
      ∀ runs, LVT2NFD.Branches runs basis V_index T_index → ∃ NFD_Basis,
        LVT2NFD.generatePabloMethod runs basis L_index V_index T_index = .ok NFD_Basis ∧
          value id 0 NFD_Basis = 0x1100 ∧ value id 1 NFD_Basis = 0x1161 ∧
            value id 2 NFD_Basis = 0x11A8 := by
  intro basis
  have hbasis (p : ℕ) : value id p basis = [0xAC01, 0, 0].getD p 0 := value_basisOf (by decide) p
  have hfirst : Precomposed (value id 0 basis) := by
    rw [hbasis]
    decide
  obtain ⟨L_index, V_index, T_index, hindexes, hall⟩ := decomposeHangul_exact basis rfl
    (fun p hp i hi hlt ↦ by
      rw [hbasis] at hp hlt
      rw [hbasis]
      cases p with
      | zero =>
        rcases i with _ | _ | _ | i
        · exact absurd hi (Nat.lt_irrefl 0)
        · rfl
        · rfl
        · rw [Nat.zero_add, List.getD_eq_getElem?_getD]
          rfl
      | succ p =>
        refine absurd hp ?_
        rcases p with _ | _ | p
        · decide
        · decide
        · exact not_precomposed_zero)
    _ (branches_byBlocks (w := 64) (by decide) basis [] []).1
  refine ⟨L_index, V_index, T_index, hindexes, fun runs hruns ↦ ?_⟩
  obtain ⟨NFD_Basis, hout, -, hparts, -⟩ := hall runs hruns
  refine ⟨NFD_Basis, hout, hparts 0 0 _ hfirst ?_, hparts 0 1 _ hfirst ?_, hparts 0 2 _ hfirst ?_⟩
  all_goals
    rw [hbasis]
    rfl

end Syllables

end Parabix.Unicode
