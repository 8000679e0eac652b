import Parabix.IDISA.Compress

namespace Parabix.IDISA

open Library Library.BitStream

section Operations

/-- An index from 16 on yields a zero lane. -/
def tbl1 (table index_vector : Stream) : Stream := ofFields 8 fun i ↦
  if field 8 index_vector i < 16 then field 8 table (field 8 index_vector i) else 0

/-- The numbers of the set bits, and then an index that is out of range. -/
def byteCompressTable (m : ℕ) : Stream :=
  let lanes := (List.range 8).filter m.testBit
  ofFields 8 fun i ↦ (lanes ++ List.replicate (16 - lanes.length) 16).getD i 0

/-- The bytes of a field get those of another one. -/
def setLanes (bytesPerField src dst : ℕ) (lanes : ℕ → ℕ) : ℕ → ℕ := fun lane ↦
  if lane / bytesPerField = dst then src * bytesPerField + lane % bytesPerField else lanes lane

def permuteField (bytesPerField : ℕ) (isExpand : Bool) (m : ℕ) (s : (ℕ → ℕ) × ℕ) (f : ℕ) :
    (ℕ → ℕ) × ℕ :=
  if m.testBit f then
    let src := if isExpand then s.2 else f
    let dst := if isExpand then f else s.2
    (setLanes bytesPerField src dst s.1, s.2 + 1)
  else
    s

def fieldPermuteTable (fw : ℕ) (isExpand : Bool) (m : ℕ) : Stream :=
  ofFields 8 ((List.range (128 / fw)).foldl (permuteField (fw / 8) isExpand m) (fun _ ↦ 16, 0)).1

def fieldPermute (fw : ℕ) (a select_mask : Stream) (isExpand : Bool) : Stream :=
  let idx := field 32 select_mask 0 &&& (2 ^ (128 / fw) - 1)
  tbl1 a (fieldPermuteTable fw isExpand idx)

def CreatePopcount (w x : ℕ) : ℕ := rank x.testBit w

def compressBytes (a : Stream) (byteMask : ℕ) : Stream :=
  let lowMaskByte := byteMask % 2 ^ 8
  let highMaskByte := (byteMask >>> 8) % 2 ^ 8
  let lowIdx := byteCompressTable lowMaskByte
  let highIdx := simd_add 8 (byteCompressTable highMaskByte) (simd_fill 8 8)
  let lowCompressed := tbl1 a lowIdx
  let highCompressed := tbl1 a highIdx
  let countLow := CreatePopcount 8 lowMaskByte
  let identityVec := ofFields 8 fun i ↦ i
  let shiftIdx := simd_sub 8 identityVec (simd_fill 8 countLow)
  let shiftedHigh := tbl1 highCompressed shiftIdx
  let totalCount := CreatePopcount 16 byteMask
  let zeroMask := ofFields 8 fun i ↦
    if field 8 identityVec i < field 8 (simd_fill 8 totalCount) i then 2 ^ 8 - 1 else 0
  simd_and (simd_or lowCompressed shiftedHigh) zeroMask

/-- The lanes of the bits that are set, from the two bytes of a mask. -/
def byteMaskToLaneMask (byteMask i : ℕ) : Bool :=
  (byteMask >>> (8 * (i / 8))) % 2 ^ 8 &&& 2 ^ (i % 8) != 0

def expandBytes (a : Stream) (byteMask : ℕ) : Stream :=
  let isSelected := byteMaskToLaneMask byteMask
  let ones := ofFields 8 fun i ↦ (isSelected i).toNat
  let inclusiveRank := hsimd_partial_sum 8 16 ones
  let rank := simd_sub 8 inclusiveRank ones
  let gatherIdx := ofFields 8 fun i ↦ if isSelected i then field 8 rank i else 16
  tbl1 a gatherIdx

/-- The select mask is an integer here, which is extended or truncated. -/
def IDISA_ARM_Builder.mvmd_compress (BENCH_GENERIC_COMPRESS : Bool) (bitBlockWidth fw : ℕ)
    (a select_mask : Stream) : Except Fault Stream :=
  if !BENCH_GENERIC_COMPRESS && bitBlockWidth == 128 && (fw == 16 || fw == 32 || fw == 64) then
    pure (fieldPermute fw a select_mask false)
  else if !BENCH_GENERIC_COMPRESS && bitBlockWidth == 128 && fw == 8 then
    pure (compressBytes a (field 16 select_mask 0))
  else
    IDISA_Builder.mvmd_compress fw (bitBlockWidth / fw) a (.integer select_mask)

def IDISA_ARM_Builder.mvmd_expand (BENCH_GENERIC_EXPAND : Bool) (bitBlockWidth fw : ℕ)
    (a select_mask : Stream) : Except Fault Stream :=
  if !BENCH_GENERIC_EXPAND && bitBlockWidth == 128 && (fw == 16 || fw == 32 || fw == 64) then
    pure (fieldPermute fw a select_mask true)
  else if !BENCH_GENERIC_EXPAND && bitBlockWidth == 128 && fw == 8 then
    pure (expandBytes a (field 16 select_mask 0))
  else
    IDISA_Builder.mvmd_expand fw (bitBlockWidth / fw) a (.integer select_mask)

end Operations

section Lookups

variable {fw t i c n bytes src dst : ℕ} {isExpand : Bool} {a index m : Stream} {x : ℕ}

theorem tbl1_apply (hc : c < 8) : tbl1 a index (8 * i + c) =
    (decide (field 8 index i < 16) && a (8 * field 8 index i + c)) := by
  rw [tbl1, ofFields, mul_add_div_of_lt hc, mul_add_mod_of_lt hc]
  split_ifs with h
  · rw [testBit_field, decide_eq_true hc, decide_eq_true h, Bool.true_and]
  · rw [Nat.zero_testBit, decide_eq_false h, Bool.false_and]

theorem setLanes_apply {lanes : ℕ → ℕ} (hc : c < bytes) :
    setLanes bytes src dst lanes (bytes * i + c) =
      if i = dst then src * bytes + c else lanes (bytes * i + c) := by
  rw [setLanes, mul_add_div_of_lt hc, mul_add_mod_of_lt hc]

/-- The table after the first `n` fields. -/
def permuted (bytes : ℕ) (isExpand : Bool) (x n : ℕ) : (ℕ → ℕ) × ℕ :=
  (List.range n).foldl (permuteField bytes isExpand x) (fun _ ↦ 16, 0)

theorem permuted_succ (bytes : ℕ) (isExpand : Bool) (x n : ℕ) :
    permuted bytes isExpand x (n + 1) =
      permuteField bytes isExpand x (permuted bytes isExpand x n) n := by
  rw [permuted, List.range_succ, List.foldl_append]
  rfl

theorem permuted_rank (bytes : ℕ) (isExpand : Bool) (x n : ℕ) :
    (permuted bytes isExpand x n).2 = rank x.testBit n := by
  induction n with
  | zero => rfl
  | succ n ih =>
    rw [permuted_succ, permuteField, rank_succ]
    cases x.testBit n with
    | false => rw [if_neg Bool.false_ne_true, ih, Bool.toNat_false, Nat.add_zero]
    | true => rw [if_pos rfl, ih, Bool.toNat_true]

theorem permuted_compress (hc : c < bytes) (x n i : ℕ) :
    (∃ p < n, x.testBit p = true ∧ rank x.testBit p = i ∧
        (permuted bytes false x n).1 (bytes * i + c) = p * bytes + c) ∨
      rank x.testBit n ≤ i ∧ (permuted bytes false x n).1 (bytes * i + c) = 16 := by
  induction n with
  | zero => exact .inr ⟨Nat.zero_le i, rfl⟩
  | succ n ih =>
    rw [permuted_succ, permuteField, permuted_rank]
    cases hbit : x.testBit n with
    | false =>
      rw [if_neg Bool.false_ne_true, rank_succ_of_false hbit]
      refine ih.imp_left ?_
      rintro ⟨p, hp, h⟩
      exact ⟨p, Nat.lt_succ_of_lt hp, h⟩
    | true =>
      simp only [if_pos, Bool.false_eq_true, if_false, setLanes_apply hc, rank_succ_of_true hbit]
      rcases ih with ⟨p, hp, hone, hrank, hlane⟩ | ⟨hle, hlane⟩
      · refine .inl ⟨p, Nat.lt_succ_of_lt hp, hone, hrank, ?_⟩
        rw [if_neg (hrank ▸ (rank_lt_of_true hone hp).ne), hlane]
      · rcases hle.eq_or_lt with heq | hlt
        · exact .inl ⟨n, Nat.lt_succ_self n, hbit, heq, if_pos heq.symm⟩
        · exact .inr ⟨hlt, by rw [if_neg hlt.ne', hlane]⟩

theorem permuted_expand (hc : c < bytes) (x n i : ℕ) :
    (permuted bytes true x n).1 (bytes * i + c) =
      if i < n ∧ x.testBit i = true then rank x.testBit i * bytes + c else 16 := by
  induction n with
  | zero => rfl
  | succ n ih =>
    rw [permuted_succ, permuteField, permuted_rank]
    cases hbit : x.testBit n with
    | false =>
      rw [if_neg Bool.false_ne_true, ih]
      have hne (h : i = n) (hone : x.testBit i = true) : False := by
        rw [h, hbit] at hone
        cases hone
      refine if_congr ?_ rfl rfl
      constructor
      · exact fun h ↦ ⟨Nat.lt_succ_of_lt h.1, h.2⟩
      · exact fun h ↦ ⟨(Nat.lt_succ_iff_lt_or_eq.1 h.1).resolve_right fun heq ↦ hne heq h.2, h.2⟩
    | true =>
      simp only [if_true, setLanes_apply hc, ih]
      by_cases heq : i = n
      · rw [if_pos heq, if_pos ⟨heq.le.trans_lt (Nat.lt_succ_self n), heq ▸ hbit⟩, heq]
      · rw [if_neg heq]
        refine if_congr (and_congr_left fun _ ↦ ?_) rfl rfl
        omega

/-- The bits of an index number that has been cut off. -/
theorem testBit_index {count p : ℕ} (hcount : count ≤ 32) (hp : p < count) :
    (field 32 m 0 &&& (2 ^ count - 1)).testBit p = m p := by
  rw [Nat.testBit_and, testBit_field, Nat.testBit_two_pow_sub_one, decide_eq_true hp,
    decide_eq_true (hp.trans_le hcount), Bool.true_and, Bool.and_true, Nat.mul_zero, Nat.zero_add]

theorem lane_lt {count p b : ℕ} (hfields : bytes * count = 16) (hp : p < count) (hb : b < bytes) :
    p * bytes + b < 16 := by
  have hmul := Nat.mul_le_mul_left bytes (Nat.succ_le_of_lt hp)
  rw [hfields, Nat.mul_succ] at hmul
  rw [Nat.mul_comm]
  omega

theorem lane_bit (hbytes : fw = 8 * bytes) (p c : ℕ) :
    8 * (p * bytes + c / 8) + c % 8 = fw * p + c := by
  have hdiv := Nat.div_add_mod c 8
  rw [hbytes, Nat.mul_add, Nat.mul_comm p, ← Nat.mul_assoc]
  omega

/-- The bytes of a field, by their bits. -/
theorem fieldPermute_apply (hbytes : fw = 8 * bytes) :
    fieldPermute fw a m isExpand (fw * i + c) =
      let lane := (permuted bytes isExpand (field 32 m 0 &&& (2 ^ (128 / fw) - 1)) (128 / fw)).1
        (bytes * i + c / 8) % 2 ^ 8
      decide (lane < 16) && a (8 * lane + c % 8) := by
  have hlane : fw / 8 = bytes := by omega
  rw [← lane_bit hbytes, Nat.mul_comm i, fieldPermute, tbl1_apply (Nat.mod_lt c (by decide)),
    fieldPermuteTable, field_ofFields, hlane]
  rfl

theorem fieldPermute_compresses (hbytes : fw = 8 * bytes) (hpos : 0 < bytes)
    (hwidth : fw * 2 ^ t = 128) : Compresses fw (2 ^ t) a m (fieldPermute fw a m false) := by
  have hfields : bytes * 2 ^ t = 16 := by
    rw [hbytes, Nat.mul_assoc] at hwidth
    omega
  have hcount : 128 / fw = 2 ^ t := by
    rw [← hwidth, Nat.mul_div_cancel_left _ (by omega)]
  have hle : 2 ^ t ≤ 16 := hfields ▸ Nat.le_mul_of_pos_left _ hpos
  have hbits (p : ℕ) (hp : p < 2 ^ t) := @testBit_index m _ p (hle.trans (by decide)) hp
  have hrank (p : ℕ) (hp : p ≤ 2 ^ t) :
      rank (field 32 m 0 &&& (2 ^ 2 ^ t - 1)).testBit p = rank m p :=
    rank_congr fun q hq ↦ hbits q (hq.trans_le hp)
  rw [compresses_iff]
  intro i hi c hc
  have hb : c / 8 < bytes := by omega
  rw [fieldPermute_apply hbytes, hcount]
  rcases permuted_compress hb (field 32 m 0 &&& (2 ^ 2 ^ t - 1)) (2 ^ t) i with
    ⟨p, hp, hone, hplace, hlane⟩ | ⟨hnone, hlane⟩
  · have hlt := lane_lt hfields hp hb
    rw [hbits p hp] at hone
    rw [hrank p hp.le] at hplace
    simp only [hlane, Nat.mod_eq_of_lt (hlt.trans (by decide : 16 < 2 ^ 8)), decide_eq_true hlt,
      Bool.true_and, lane_bit hbytes]
    refine ⟨fun hv ↦ ⟨p, hp, hone, hplace, hv⟩, ?_⟩
    rintro ⟨p', -, hone', hplace', hv⟩
    rwa [← rank_inj hone' hone (hplace'.trans hplace.symm)]
  · rw [hrank _ le_rfl] at hnone
    simp only [hlane]
    refine ⟨fun h ↦ absurd h Bool.false_ne_true, ?_⟩
    rintro ⟨p, hp, hone, hplace, -⟩
    have hlt := rank_lt_of_true hone hp
    omega

theorem fieldPermute_expands (hbytes : fw = 8 * bytes) (hpos : 0 < bytes)
    (hwidth : fw * 2 ^ t = 128) : Expands fw (2 ^ t) a m (fieldPermute fw a m true) := by
  have hfields : bytes * 2 ^ t = 16 := by
    rw [hbytes, Nat.mul_assoc] at hwidth
    omega
  have hcount : 128 / fw = 2 ^ t := by
    rw [← hwidth, Nat.mul_div_cancel_left _ (by omega)]
  have hle : 2 ^ t ≤ 16 := hfields ▸ Nat.le_mul_of_pos_left _ hpos
  have hbits (p : ℕ) (hp : p < 2 ^ t) := @testBit_index m _ p (hle.trans (by decide)) hp
  intro i hi
  have hrank : rank (field 32 m 0 &&& (2 ^ 2 ^ t - 1)).testBit i = rank m i :=
    rank_congr fun q hq ↦ hbits q (hq.trans hi)
  have hvalue (c : ℕ) (hc : c < fw) : fieldPermute fw a m true (fw * i + c) =
      (m i && a (fw * rank m i + c)) := by
    have hb : c / 8 < bytes := by omega
    rw [fieldPermute_apply hbytes, hcount, permuted_expand hb, hbits i hi, hrank]
    cases m i with
    | false =>
      rw [if_neg (by simp)]
      rfl
    | true =>
      have hlt := lane_lt hfields ((rank_le m i).trans_lt hi) hb
      rw [if_pos ⟨hi, rfl⟩]
      simp only [Nat.mod_eq_of_lt (hlt.trans (by decide : 16 < 2 ^ 8)), decide_eq_true hlt,
        Bool.true_and, lane_bit hbytes]
  cases hm : m i with
  | false =>
    rw [if_neg Bool.false_ne_true]
    exact field_eq_zero fun c hc ↦ by rw [hvalue c hc, hm, Bool.false_and]
  | true =>
    rw [if_pos rfl]
    apply Nat.eq_of_testBit_eq
    intro c
    rw [testBit_field, testBit_field]
    by_cases hc : c < fw
    · rw [hvalue c hc, hm, Bool.true_and]
    · rw [decide_eq_false hc, Bool.false_and, Bool.false_and]

end Lookups

section Bytes

variable {i c p x : ℕ} {a m : Stream}

/-- A lane of the table has the number of the set bit with its rank, or there is none. -/
theorem byteCompressTable_lane (x : ℕ) (hi : i < 16) :
    (∃ p < 8, x.testBit p = true ∧ rank x.testBit p = i ∧ field 8 (byteCompressTable x) i = p) ∨
      rank x.testBit 8 ≤ i ∧ field 8 (byteCompressTable x) i = 16 := by
  have hlanes : (List.range 8).filter x.testBit = compress x.testBit id 0 8 := by
    rw [compress, List.map_id, List.range_eq_range']
  have hlen := length_compress x.testBit id 0 8
  rw [rank_zero, Nat.zero_add, Nat.zero_add] at hlen
  simp only [byteCompressTable, field_ofFields, hlanes]
  by_cases hlt : i < rank x.testBit 8
  · obtain ⟨p, hp, hone, hrank⟩ := exists_rank_eq hlt
    have hget : (compress x.testBit id 0 8)[i]? = some p :=
      getElem?_compress_eq_some.2 ⟨p, hp, by rwa [Nat.zero_add], by simpa using hrank,
        by rw [Nat.zero_add, id]⟩
    refine .inl ⟨p, hp, hone, hrank, ?_⟩
    rw [List.getD_append _ _ _ _ (hlen ▸ hlt), List.getD_eq_getElem?_getD, hget, Option.getD_some,
      Nat.mod_eq_of_lt (hp.trans (by decide))]
  · have hge := Nat.le_of_not_lt hlt
    refine .inr ⟨hge, ?_⟩
    rw [List.getD_append_right _ _ _ _ (hlen.symm ▸ hge),
      List.getD_replicate _ (by rw [hlen]; omega)]
    rfl

theorem tbl1_low (hc : c < 8) (hi : i < 16) : tbl1 a (byteCompressTable x) (8 * i + c) = true ↔
    ∃ p < 8, x.testBit p = true ∧ rank x.testBit p = i ∧ a (8 * p + c) = true := by
  rw [tbl1_apply hc]
  rcases byteCompressTable_lane x hi with ⟨p, hp, hone, hrank, hlane⟩ | ⟨hnone, hlane⟩
  · rw [hlane, decide_eq_true (hp.trans (by decide)), Bool.true_and]
    refine ⟨fun ha ↦ ⟨p, hp, hone, hrank, ha⟩, ?_⟩
    rintro ⟨p', -, hone', hrank', ha⟩
    rwa [← rank_inj hone' hone (hrank'.trans hrank.symm)]
  · rw [hlane]
    refine ⟨fun h ↦ absurd h Bool.false_ne_true, ?_⟩
    rintro ⟨p, hp, hone, hrank, -⟩
    exact absurd (rank_lt_of_true hone hp) (by omega)

/-- The indexes for the upper half are above those for the lower one by eight. -/
theorem tbl1_high (hc : c < 8) (hi : i < 16) :
    tbl1 a (simd_add 8 (byteCompressTable x) (simd_fill 8 8)) (8 * i + c) = true ↔
      ∃ p < 8, x.testBit p = true ∧ rank x.testBit p = i ∧ a (8 * (8 + p) + c) = true := by
  rw [tbl1_apply hc, simd_add, field_ofFields, field_fill (by decide)]
  rcases byteCompressTable_lane x hi with ⟨p, hp, hone, hrank, hlane⟩ | ⟨hnone, hlane⟩
  · rw [hlane, Nat.mod_eq_of_lt (by omega), decide_eq_true (by omega), Bool.true_and,
      Nat.add_comm p]
    refine ⟨fun ha ↦ ⟨p, hp, hone, hrank, ha⟩, ?_⟩
    rintro ⟨p', -, hone', hrank', ha⟩
    rwa [← rank_inj hone' hone (hrank'.trans hrank.symm)]
  · rw [hlane]
    refine ⟨fun h ↦ absurd h Bool.false_ne_true, ?_⟩
    rintro ⟨p, hp, hone, hrank, -⟩
    exact absurd (rank_lt_of_true hone hp) (by omega)

theorem shiftIdx_lane {n : ℕ} (hn : n ≤ 8) (hi : i < 16) :
    field 8 (simd_sub 8 (ofFields 8 fun i ↦ i) (simd_fill 8 n)) i =
      if n ≤ i then i - n else i + 2 ^ 8 - n := by
  have hn' : n < 2 ^ 8 := by omega
  rw [simd_sub, field_ofFields, field_ofFields, field_fill hn',
    Nat.mod_eq_of_lt (show i < 2 ^ 8 by omega)]
  split_ifs with h
  · rw [show i + 2 ^ 8 - n = i - n + 2 ^ 8 by omega, Nat.add_mod_right,
      Nat.mod_eq_of_lt (by omega)]
  · exact Nat.mod_eq_of_lt (by omega)

/-- The ones in the two halves of a mask of 16 bits. -/
theorem rank_halves (x p : ℕ) (hp : p ≤ 8) : rank x.testBit p = rank (x % 2 ^ 8).testBit p ∧
    rank x.testBit (8 + p) = rank (x % 2 ^ 8).testBit 8 + rank ((x >>> 8) % 2 ^ 8).testBit p := by
  have hlow (p : ℕ) (hp : p ≤ 8) : rank x.testBit p = rank (x % 2 ^ 8).testBit p :=
    rank_congr fun q hq ↦ by
      rw [Nat.testBit_mod_two_pow, decide_eq_true (hq.trans_le hp), Bool.true_and]
  refine ⟨hlow p hp, ?_⟩
  rw [rank_add, hlow 8 le_rfl]
  congr 1
  apply rank_congr
  intro q hq
  rw [Nat.testBit_mod_two_pow, decide_eq_true (hq.trans_le hp), Bool.true_and,
    Nat.testBit_shiftRight]

theorem compressBytes_compresses : Compresses 8 (2 ^ 4) a m (compressBytes a (field 16 m 0)) := by
  have hbits (p : ℕ) (hp : p < 16) : (field 16 m 0).testBit p = m p := by
    rw [testBit_field, decide_eq_true hp, Bool.true_and, Nat.mul_zero, Nat.zero_add]
  have hrank (p : ℕ) (hp : p ≤ 16) : rank (field 16 m 0).testBit p = rank m p :=
    rank_congr fun q hq ↦ hbits q (hq.trans_le hp)
  generalize field 16 m 0 = x at hbits hrank
  have hlow (p : ℕ) (hp : p < 8) : (x % 2 ^ 8).testBit p = m p := by
    rw [Nat.testBit_mod_two_pow, decide_eq_true hp, Bool.true_and, hbits p (by omega)]
  have hhigh (p : ℕ) (hp : p < 8) : (x >>> 8 % 2 ^ 8).testBit p = m (8 + p) := by
    rw [Nat.testBit_mod_two_pow, decide_eq_true hp, Bool.true_and, Nat.testBit_shiftRight,
      hbits (8 + p) (by omega)]
  have hhalves (p : ℕ) (hp : p ≤ 8) : rank m p = rank (x % 2 ^ 8).testBit p ∧
      rank m (8 + p) = rank (x % 2 ^ 8).testBit 8 + rank (x >>> 8 % 2 ^ 8).testBit p := by
    rw [← hrank p (by omega), ← hrank (8 + p) (by omega)]
    exact rank_halves x p hp
  have hcount : rank (x % 2 ^ 8).testBit 8 ≤ 8 := rank_le _ _
  rw [compresses_iff]
  intro i hi c hc
  have hvalid : ofFields 8 (fun i ↦ if field 8 (ofFields 8 fun i ↦ i) i <
      field 8 (simd_fill 8 (CreatePopcount 16 x)) i then 2 ^ 8 - 1 else 0) (8 * i + c) =
        decide (i < rank m 16) := by
    have htotal : CreatePopcount 16 x < 2 ^ 8 := (rank_le _ 16).trans_lt (by decide)
    rw [ofFields, mul_add_div_of_lt hc, mul_add_mod_of_lt hc, field_ofFields, field_fill htotal,
      Nat.mod_eq_of_lt (by omega), CreatePopcount, hrank 16 le_rfl]
    split_ifs with h
    · rw [Nat.testBit_two_pow_sub_one, decide_eq_true hc, decide_eq_true h]
    · rw [Nat.zero_testBit, decide_eq_false h]
  have hshifted : tbl1 (tbl1 a (simd_add 8 (byteCompressTable (x >>> 8 % 2 ^ 8)) (simd_fill 8 8)))
      (simd_sub 8 (ofFields 8 fun i ↦ i) (simd_fill 8 (CreatePopcount 8 (x % 2 ^ 8))))
        (8 * i + c) = true ↔ ∃ p < 8, m (8 + p) = true ∧ rank m (8 + p) = i ∧
          a (8 * (8 + p) + c) = true := by
    rw [tbl1_apply hc, CreatePopcount, shiftIdx_lane hcount hi]
    split_ifs with hle
    · rw [decide_eq_true (by omega), Bool.true_and, tbl1_high hc (by omega)]
      refine exists_congr fun p ↦ and_congr_right fun hp ↦ ?_
      rw [hhigh p hp, (hhalves p hp.le).2]
      refine and_congr_right fun _ ↦ and_congr_left fun _ ↦ ?_
      omega
    · rw [decide_eq_false (by omega), Bool.false_and]
      refine ⟨fun h ↦ absurd h Bool.false_ne_true, ?_⟩
      rintro ⟨p, hp, -, hplace, -⟩
      rw [(hhalves p hp.le).2] at hplace
      omega
  rw [compressBytes, simd_and, hvalid, Bool.and_eq_true, decide_eq_true_eq, simd_or,
    Bool.or_eq_true, tbl1_low hc hi, hshifted]
  constructor
  · rintro ⟨⟨p, hp, hone, hplace, ha⟩ | ⟨p, hp, hone, hplace, ha⟩, -⟩
    · rw [hlow p hp] at hone
      rw [← (hhalves p hp.le).1] at hplace
      exact ⟨p, by omega, hone, hplace, ha⟩
    · exact ⟨8 + p, by omega, hone, hplace, ha⟩
  · rintro ⟨p, hp, hone, hplace, ha⟩
    refine ⟨?_, hplace ▸ rank_lt_of_true hone hp⟩
    by_cases hlt : p < 8
    · exact .inl ⟨p, hlt, by rwa [hlow p hlt], by rwa [← (hhalves p hlt.le).1], ha⟩
    · obtain ⟨q, rfl⟩ := Nat.exists_eq_add_of_le (Nat.le_of_not_lt hlt)
      exact .inr ⟨q, by omega, hone, hplace, ha⟩

theorem byteMaskToLaneMask_eq (hi : i < 16) :
    byteMaskToLaneMask (field 16 m 0) i = m i := by
  have hbit : ((field 16 m 0 >>> (8 * (i / 8))) % 2 ^ 8).testBit (i % 8) = m i := by
    rw [Nat.testBit_mod_two_pow, decide_eq_true (Nat.mod_lt i (by decide)), Bool.true_and,
      Nat.testBit_shiftRight, Nat.div_add_mod, testBit_field, decide_eq_true hi, Bool.true_and,
      Nat.mul_zero, Nat.zero_add]
  rw [byteMaskToLaneMask, Nat.and_two_pow, hbit]
  cases m i <;> simp

theorem expandBytes_expands : Expands 8 (2 ^ 4) a m (expandBytes a (field 16 m 0)) := by
  have hone (i : ℕ) (hi : i < 16) :
      field 8 (ofFields 8 fun i ↦ (byteMaskToLaneMask (field 16 m 0) i).toNat) i =
        (m i).toNat := by
    rw [field_ofFields, byteMaskToLaneMask_eq hi, Nat.mod_eq_of_lt]
    exact (Bool.toNat_lt _).trans (by decide)
  intro i hi
  have hsum : field 8 (hsimd_partial_sum 8 16
      (ofFields 8 fun i ↦ (byteMaskToLaneMask (field 16 m 0) i).toNat)) i =
        rank m (i + 1) % 2 ^ 8 := by
    have hloop := @partialSumLoop_fields 8 16 1 i (rank m)
      (ofFields 8 fun i ↦ (byteMaskToLaneMask (field 16 m 0) i).toNat) Nat.one_pos (rank_mono _)
      (fun i hi ↦ ?_) hi
    · rwa [rank_zero, Nat.sub_zero] at hloop
    · rw [hone i hi, Nat.add_sub_cancel, rank_succ, Nat.add_sub_cancel_left, Nat.mod_eq_of_lt]
      exact (Bool.toNat_lt _).trans (by decide)
  have hle := rank_le m i
  rw [expandBytes, tbl1, field_ofFields]
  simp only [field_ofFields, simd_sub, hsum, byteMaskToLaneMask_eq hi, rank_succ]
  cases hm : m i with
  | false => rfl
  | true =>
    rw [if_pos rfl, if_pos rfl, Bool.toNat_true, Nat.mod_eq_of_lt (by omega : rank m i + 1 < 2 ^ 8),
      show 1 % 2 ^ 8 = 1 from rfl, show rank m i + 1 + 2 ^ 8 - 1 = rank m i + 2 ^ 8 by omega,
      Nat.add_mod_right, Nat.mod_mod, Nat.mod_eq_of_lt (show rank m i < 2 ^ 8 by omega),
      if_pos (by omega), Nat.mod_eq_of_lt field_lt]

end Bytes

section Overrides

variable {fw t : ℕ} {a m : Stream}

theorem field_bytes (h : fw = 16 ∨ fw = 32 ∨ fw = 64) : fw = 8 * (fw / 8) ∧ 0 < fw / 8 := by
  omega

theorem arm_compress (hfw : 8 ≤ fw) (ht : t ≤ fw) (hshift : fw ≤ 64 ∨ t ≤ 6)
    (BENCH_GENERIC_COMPRESS : Bool) (a m : Stream) : ∃ out,
      IDISA_ARM_Builder.mvmd_compress BENCH_GENERIC_COMPRESS (fw * 2 ^ t) fw a m = .ok out ∧
        Compresses fw (2 ^ t) a m out := by
  rw [IDISA_ARM_Builder.mvmd_compress]
  split_ifs with hfields hbyte
  · simp only [Bool.and_eq_true, Bool.or_eq_true, beq_iff_eq, or_assoc] at hfields
    obtain ⟨hbytes, hpos⟩ := field_bytes hfields.2
    exact ⟨_, rfl, fieldPermute_compresses hbytes hpos hfields.1.2⟩
  · simp only [Bool.and_eq_true, beq_iff_eq] at hbyte
    obtain ⟨⟨-, hwidth⟩, rfl⟩ := hbyte
    have ht4 : t = 4 := Nat.pow_right_injective le_rfl (show 2 ^ t = 2 ^ 4 by omega)
    subst ht4
    exact ⟨_, rfl, compressBytes_compresses⟩
  · rw [Nat.mul_div_cancel_left _ (by omega)]
    exact mvmd_compress_compresses hfw ht hshift a m

theorem arm_expand (hfw : 8 ≤ fw) (ht : t ≤ fw) (BENCH_GENERIC_EXPAND : Bool) (a m : Stream) :
    ∃ out, IDISA_ARM_Builder.mvmd_expand BENCH_GENERIC_EXPAND (fw * 2 ^ t) fw a m = .ok out ∧
      Expands fw (2 ^ t) a m out := by
  rw [IDISA_ARM_Builder.mvmd_expand]
  split_ifs with hfields hbyte
  · simp only [Bool.and_eq_true, Bool.or_eq_true, beq_iff_eq, or_assoc] at hfields
    obtain ⟨hbytes, hpos⟩ := field_bytes hfields.2
    exact ⟨_, rfl, fieldPermute_expands hbytes hpos hfields.1.2⟩
  · simp only [Bool.and_eq_true, beq_iff_eq] at hbyte
    obtain ⟨⟨-, hwidth⟩, rfl⟩ := hbyte
    have ht4 : t = 4 := Nat.pow_right_injective le_rfl (show 2 ^ t = 2 ^ 4 by omega)
    subst ht4
    exact ⟨_, rfl, expandBytes_expands⟩
  · rw [Nat.mul_div_cancel_left _ (by omega)]
    exact mvmd_expand_expands hfw ht a m

/-- The selected fields move to the low places and back, and the table lookups do the same. -/
theorem compress_expand_exact (hfw : 8 ≤ fw) (ht : t ≤ fw) (hshift : fw ≤ 64 ∨ t ≤ 6)
    (v m : Stream) : ∃ compressed expanded restored,
      (IDISA_Builder.mvmd_compress fw (2 ^ t) v (.integer m) = .ok compressed ∧
        Compresses fw (2 ^ t) v m compressed) ∧
      (IDISA_Builder.mvmd_expand fw (2 ^ t) v (.integer m) = .ok expanded ∧
        Expands fw (2 ^ t) v m expanded) ∧
      (IDISA_Builder.mvmd_expand fw (2 ^ t) compressed (.integer m) = .ok restored ∧
        ∀ i < 2 ^ t, field fw restored i = if m i then field fw v i else 0) ∧
      (∀ fields, (∀ i < 2 ^ t, field fw fields i = if m i then 2 ^ fw - 1 else 0) →
        ∃ out, IDISA_Builder.mvmd_compress fw (2 ^ t) v (.vector fields) = .ok out ∧
          Compresses fw (2 ^ t) v m out) ∧
      (∀ fields, (∀ i < 2 ^ t, field fw fields i = (m i).toNat) →
        ∃ out, IDISA_Builder.mvmd_expand fw (2 ^ t) v (.vector fields) = .ok out ∧
          Expands fw (2 ^ t) v m out) ∧
      ∀ bench, (∃ out, IDISA_ARM_Builder.mvmd_compress bench (fw * 2 ^ t) fw v m = .ok out ∧
          ∀ i < 2 ^ t, field fw out i = field fw compressed i) ∧
        ∃ out, IDISA_ARM_Builder.mvmd_expand bench (fw * 2 ^ t) fw v m = .ok out ∧
          ∀ i < 2 ^ t, field fw out i = field fw expanded i := by
  obtain ⟨compressed, hcompress, hcompressed⟩ := mvmd_compress_compresses hfw ht hshift v m
  obtain ⟨expanded, hexpand, hexpanded⟩ := mvmd_expand_expands hfw ht v m
  obtain ⟨restored, hrestore, hrestored⟩ := mvmd_expand_expands hfw ht compressed m
  refine ⟨compressed, expanded, restored, ⟨hcompress, hcompressed⟩, ⟨hexpand, hexpanded⟩,
    ⟨hrestore, fun i hi ↦ hcompressed.expands hrestored hi⟩,
    fun fields hfields ↦ mvmd_compress_vector hfw ht hfields v,
    fun fields hfields ↦ mvmd_expand_vector hfw ht hfields v, fun bench ↦ ⟨?_, ?_⟩⟩
  · obtain ⟨out, hout, harm⟩ := arm_compress hfw ht hshift bench v m
    exact ⟨out, hout, fun i hi ↦ (harm i hi).trans (hcompressed i hi).symm⟩
  · obtain ⟨out, hout, harm⟩ := arm_expand hfw ht bench v m
    exact ⟨out, hout, fun i hi ↦ (harm i hi).trans (hexpanded i hi).symm⟩

/-- The first and the third of four fields. -/
theorem compress_expand_exact_words : ∃ compressed restored,
    IDISA_Builder.mvmd_compress 32 (2 ^ 2) (ofFields 32 fun i ↦ i + 5)
        (.integer fun i ↦ i % 2 == 0) = .ok compressed ∧
      (∀ i < 4, field 32 compressed i = [5, 7].getD i 0) ∧
      IDISA_Builder.mvmd_expand 32 (2 ^ 2) compressed (.integer fun i ↦ i % 2 == 0) =
        .ok restored ∧
      ∀ i < 4, field 32 restored i = if i % 2 == 0 then i + 5 else 0 := by
  obtain ⟨compressed, -, restored, ⟨hcompress, hcompressed⟩, -, ⟨hrestore, hrestored⟩, -⟩ :=
    @compress_expand_exact 32 2 (by decide) (by decide) (.inl (by decide))
      (ofFields 32 fun i ↦ i + 5) fun i ↦ i % 2 == 0
  refine ⟨compressed, restored, hcompress, fun i hi ↦ ?_, hrestore, fun i hi ↦ ?_⟩
  · have hlist : compress (fun i ↦ i % 2 == 0) (field 32 (ofFields 32 fun i ↦ i + 5)) 0 4 =
      [5, 7] := by decide
    exact (hcompressed i hi).trans (congrArg (·.getD i 0) hlist)
  · rw [hrestored i hi, field_ofFields, Nat.mod_eq_of_lt (show i + 5 < 2 ^ 32 by omega)]

/-- In fields without room for the step, every field above its amount moves down. -/
theorem compressFields_narrow {select_mask v : Stream} (hpos : 0 < fw)
    (hmask : ∀ p, select_mask p = true) {i c : ℕ} (hi : i + 2 ^ fw < 2 ^ (fw + 1)) (hc : c < fw)
    (hv : v (fw * (i + 2 ^ fw) + c) = true) :
    compressFields fw (2 ^ (fw + 1)) v select_mask (fw * i + c) = true := by
  have hinitial := @compacting_initial fw (fw + 1) (fun _ ↦ true) v select_mask hpos
    fun _ _ _ _ ↦ hmask _
  have hrank (q : ℕ) : rank (fun _ ↦ true) q = q := by
    have hnot := rank_not (fun _ ↦ true) q
    have hnone := @rank_eq_of_false (fun _ ↦ !true) 0 q fun _ _ ↦ rfl
    rw [Nat.zero_add, rank_zero] at hnone
    omega
  have hdeleted (q : ℕ) : deleted (fun _ ↦ true) q = 0 := by
    have hsum := @rank_add_deleted q (fun _ ↦ true) rfl
    rw [hrank] at hsum
    omega
  obtain ⟨totals, selected, hlast, hloop⟩ := hinitial.steps
    (fun q _ _ ↦ hdeleted q ▸ Nat.two_pow_pos fw) fw (by omega) (by omega)
  rw [Nat.zero_add] at hlast hloop
  have hnext := @compressLoop_eq fw totals selected (2 ^ (fw + 1)) (2 ^ fw)
    ⟨Nat.two_pow_pos fw, Nat.pow_lt_pow_right Nat.one_lt_two (Nat.lt_succ_self fw)⟩
  rw [← pow_succ, compressLoop_last] at hnext
  have hzero (q : ℕ) : field fw (simd_fill fw (2 ^ fw)) q = 0 := by
    rw [simd_fill, field_ofFields, Nat.mod_self]
  rw [pow_zero] at hloop
  rw [compressFields, hloop, hnext, compressStep_apply hc]
  refine .inl ⟨hi, (hlast.place _ hi c hc).2 ⟨_, hi, rfl, ?_, hv⟩, ?_⟩
  · rw [Compaction.place, hdeleted, hrank, Nat.zero_div, Nat.mul_zero, Nat.add_zero]
  · rw [field_and, hzero, Nat.and_zero]

/-- With an even number of movements that is never used up, nothing is kept. -/
theorem expandStep_discards {shift : ℕ} {movements pending result : Stream}
    (hmovements : field 8 movements 0 = 254) (hshift : shift = 1 ∨ shift = 0)
    (hresult : result (8 * 0 + 0) ≠ true) :
    field 8 (expandStep 8 shift movements pending result).1 0 = 254 ∧
      (expandStep 8 shift movements pending result).2.2 (8 * 0 + 0) ≠ true := by
  have hselect : field 8 (simd_and movements (simd_fill 8 shift)) 0 = 0 := by
    rcases hshift with rfl | rfl
    · rw [field_and, hmovements, field_fill (by decide)]
      rfl
    · rw [field_and, field_fill (by decide), Nat.and_zero]
  have hdef : (expandStep 8 shift movements pending result).1 =
    simd_xor movements (simd_and movements (simd_fill 8 shift)) := rfl
  have hfirst : field 8 (expandStep 8 shift movements pending result).1 0 = 254 := by
    rw [hdef, field_xor, hselect, hmovements]
    rfl
  refine ⟨hfirst, ?_⟩
  rw [Ne, expandStep_kept (by decide), hfirst, hselect]
  rintro (hone | ⟨-, h⟩)
  · exact hresult hone
  · exact absurd h (by decide)

theorem expandFields_ones :
    expandFields 8 2 (fun _ ↦ true) (fun _ ↦ true) (8 * 0 + 0) = false := by
  have hones (i : ℕ) : field 8 (simd_xor (fun _ ↦ true) (simd_fill 8 1)) i = 254 := by
    rw [field_xor, field_fill (by decide), show field 8 (fun _ ↦ true) i = 255 from rfl]
    rfl
  have hsums : field 8 (hsimd_partial_sum 8 2 (simd_xor (fun _ ↦ true) (simd_fill 8 1))) 0 =
      254 := by
    rw [hsimd_partial_sum, partialSumLoop, if_pos (by decide), partialSumLoop, if_neg (by decide),
      simd_add, field_ofFields, field_slli, hones, if_pos (by decide)]
    rfl
  obtain ⟨hfirst, hkept⟩ := @expandStep_discards (2 / 2) _ (fun _ ↦ true) (fun _ ↦ false) hsums
    (.inl rfl) Bool.false_ne_true
  obtain ⟨-, hlast⟩ := @expandStep_discards (2 / 2 / 2) _ (expandStep 8 (2 / 2)
    (hsimd_partial_sum 8 2 (simd_xor (fun _ ↦ true) (simd_fill 8 1))) (fun _ ↦ true)
      fun _ ↦ false).2.1 _ hfirst (.inr rfl) hkept
  rw [expandFields, expandLoop_eq (by decide), expandLoop_eq (by decide), expandLoop,
    if_neg (by decide), simd_and, Bool.eq_false_iff.2 hlast, Bool.false_and]

/-- The shifted one has no bits for the fields from 64 on, which a mask without ones selects. -/
theorem selectedFields_wide {i c : ℕ} (hc : c < 128) :
    selectedFields 128 128 (fun _ ↦ false) (128 * i + c) = decide (64 ≤ i) := by
  have hseq : field 128 (ofFields 128 fun i ↦ 2 ^ i % 2 ^ 64) i = 0 ↔ 64 ≤ i := by
    rw [field_ofFields, Nat.mod_eq_of_lt ((Nat.mod_lt _ (Nat.two_pow_pos 64)).trans (by decide)),
      ← Nat.dvd_iff_mod_eq_zero, Nat.pow_dvd_pow_iff_le_right Nat.one_lt_two]
  have hnone : field 128 (fun _ ↦ false) 0 = 0 := field_eq_zero fun _ _ ↦ rfl
  rw [selectedFields, if_pos le_rfl, simd_eq_apply hc, field_and, hnone,
    field_fill (Nat.two_pow_pos 128), Nat.zero_and, decide_eq_decide, ← hseq, eq_comm]

/-- A vector of all ones selects nothing when expanding, byte fields cannot count 512 of them, and
128 fields are more than the shifted one has bits for. -/
theorem compress_expand_lose_fields :
    (∃ mask out, SelectMask.Selects 8 2 (fun _ ↦ true) mask ∧
        IDISA_Builder.mvmd_expand 8 2 (fun _ ↦ true) mask = .ok out ∧
          ¬Expands 8 2 (fun _ ↦ true) (fun _ ↦ true) out) ∧
      (∃ out, IDISA_Builder.mvmd_compress 8 512 (fun p ↦ p == 2048) (.integer fun _ ↦ true) =
          .ok out ∧ ¬Compresses 8 512 (fun p ↦ p == 2048) (fun _ ↦ true) out) ∧
      ∃ out, IDISA_Builder.mvmd_compress 128 128 (fun _ ↦ true) (.integer fun _ ↦ false) =
          .ok out ∧ ¬Compresses 128 128 (fun _ ↦ true) (fun _ ↦ false) out := by
  refine ⟨⟨.vector fun _ ↦ true, _, fun _ _ ↦ rfl, rfl, fun h ↦ ?_⟩, ⟨_, rfl, fun h ↦ ?_⟩,
    ⟨_, rfl, fun h ↦ ?_⟩⟩
  · have hfield : field 8 (expandFields 8 2 (fun _ ↦ true) fun _ ↦ true) 0 =
        field 8 (fun _ ↦ true) (rank (fun _ ↦ true) 0) := h 0 (by decide)
    have hbit := apply_of_field hfield (show 0 < 8 by decide)
    exact absurd (expandFields_ones.symm.trans hbit) Bool.false_ne_true
  · have hmoved := @compressFields_narrow 8 (selectedFields 8 512 fun _ ↦ true) (fun p ↦ p == 2048)
      (by decide) (fun p ↦ ?_) 0 0 (by decide) (by decide) (by decide)
    · obtain ⟨p, -, -, hrank, hv⟩ := (compresses_iff.1 h 0 (by decide) 0 (by decide)).1 hmoved
      have hp : p = 256 := by
        rw [beq_iff_eq] at hv
        omega
      have hone := @rank_lt_of_true (fun _ ↦ true) p 0 rfl (by omega)
      rw [rank_zero] at hone
      omega
    · rw [selectedFields, if_neg (by decide), ← Nat.div_add_mod p 8,
        simd_any_apply (Nat.mod_lt p (by decide)), field_bitspread (by decide)]
      rfl
  · have hcompressed := @compressFields_compresses 128 7 (fun i ↦ decide (64 ≤ i))
      (fun _ ↦ true) (selectedFields 128 128 fun _ ↦ false) (by decide) (by decide)
      fun i _ c hc ↦ selectedFields_wide hc
    have hnone := @rank_eq_of_false (fun i ↦ decide (64 ≤ i)) 0 64 fun i hi ↦ by
      rw [Nat.zero_add, decide_eq_false (Nat.not_le.2 hi)]
    rw [Nat.zero_add, rank_zero] at hnone
    have hmoved := (compresses_iff.1 hcompressed 0 (by decide) 0 (by decide)).2
      ⟨64, by decide, rfl, hnone, rfl⟩
    obtain ⟨p, -, hone, -⟩ := (compresses_iff.1 h 0 (by decide) 0 (by decide)).1 hmoved
    exact absurd hone Bool.false_ne_true

end Overrides

end Parabix.IDISA
