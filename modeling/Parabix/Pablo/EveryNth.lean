import Mathlib.Tactic.Ring
import Parabix.IDISA.Moves
import Parabix.IDISA.Vectors

namespace Parabix.Pablo

open Library.BitStream IDISA

namespace EveryNth

/-- The fields of `b` and then those of `a`, from `shift` fields before the first one of `a` on. -/
def mvmd_dslli (fw count : ℕ) (a b : Stream) (shift : ℕ) : Stream := ofFields fw fun i ↦
  if i + count - shift < count then field fw b (i + count - shift)
  else field fw a (i + count - shift - count)

/-- A field with a one for each multiple of `n`. -/
def mask (fw n : ℕ) : ℕ :=
  (List.range ((fw + (n - 1)) / n)).foldl (fun mask _ ↦ mask <<< n ||| 1) 0

variable (v : Vectors) (n : ℕ)

/-- A block of the statement, and how many ones are pending, as a remainder. -/
def compileBlock (to_count : Stream) (pending : ℕ) : Stream × ℕ :=
  let fw := v.fieldWidth
  let vmask := mask fw n
  let fieldCounts := simd_popcount fw to_count
  let sumCounts := hsimd_partial_sum fw v.fieldsPerBlock fieldCounts
  let splatPending := simd_fill fw pending
  let sumCountPend := simd_add fw sumCounts splatPending
  let splatN := simd_fill fw n
  let finalSumCounts := mvmd_dslli fw v.fieldsPerBlock sumCountPend splatPending 1
  let shift := ofFields fw fun i ↦
    (field fw splatN i - field fw finalSumCounts i % field fw splatN i) % field fw splatN i
  let splatMask := simd_fill fw vmask
  let finalNthMask := simd_sllv fw splatMask shift
  (simd_pdep fw finalNthMask to_count, field fw sumCountPend (v.fieldsPerBlock - 1) % n)

/-- A block of the statement, for any number of fields of any width. -/
def compileFields (fw count n : ℕ) (to_count : Stream) (pending : ℕ) : Stream × ℕ :=
  let vmask := mask fw n
  let fieldCounts := simd_popcount fw to_count
  let sumCounts := hsimd_partial_sum fw count fieldCounts
  let splatPending := simd_fill fw pending
  let sumCountPend := simd_add fw sumCounts splatPending
  let splatN := simd_fill fw n
  let finalSumCounts := mvmd_dslli fw count sumCountPend splatPending 1
  let shift := ofFields fw fun i ↦
    (field fw splatN i - field fw finalSumCounts i % field fw splatN i) % field fw splatN i
  let splatMask := simd_fill fw vmask
  let finalNthMask := simd_sllv fw splatMask shift
  (simd_pdep fw finalNthMask to_count, field fw sumCountPend (count - 1) % n)

/-- Nothing is counted after the end of the file. -/
def toCount (length : ℕ) (expr : Stream) : Stream := fun p ↦ decide (p ≤ length) && expr p

def loadBlock (expr : Stream) (blk : ℕ) : Stream := fun p ↦ expr (v.blockWidth * blk + p)

def pendingAt (to_count : Stream) : ℕ → ℕ
  | 0 => 0
  | blk + 1 => (compileBlock v n (loadBlock v to_count blk) (pendingAt to_count blk)).2

/-- The pending ones before a block of `count` fields. -/
def pendingFields (fw count n : ℕ) (to_count : Stream) : ℕ → ℕ
  | 0 => 0
  | blk + 1 => (compileFields fw count n (fun p ↦ to_count (fw * count * blk + p))
      (pendingFields fw count n to_count blk)).2

end EveryNth

open EveryNth

/-- The blocks of the statement, one after the other. -/
def everyNth (v : Vectors) (length : ℕ) (expr : Stream) (n : ℕ) : Stream := fun p ↦
  let to_count := toCount length expr
  let blk := p / v.blockWidth
  (compileBlock v n (loadBlock v to_count blk) (pendingAt v n to_count blk)).1 (p % v.blockWidth)

/-- The statement in blocks of `count` fields. -/
def everyNthFields (fw count length : ℕ) (expr : Stream) (n : ℕ) : Stream := fun p ↦
  let to_count := toCount length expr
  let blk := p / (fw * count)
  (compileFields fw count n (fun q ↦ to_count (fw * count * blk + q))
    (pendingFields fw count n to_count blk)).1 (p % (fw * count))

theorem everyNth_eq (v : Vectors) (length n : ℕ) (expr : Stream) :
    everyNth v length expr n = everyNthFields v.fieldWidth v.fieldsPerBlock length expr n := by
  have hpending (blk : ℕ) : pendingAt v n (toCount length expr) blk =
      pendingFields v.fieldWidth v.fieldsPerBlock n (toCount length expr) blk := by
    induction blk with
    | zero => rfl
    | succ blk ih =>
      rw [pendingAt, ih]
      rfl
  funext p
  simp only [everyNth, hpending]
  rfl

section Mask

variable {fw n j k : ℕ}

theorem testBit_foldl_mask (hn : 0 < n) (k j : ℕ) :
    ((List.range k).foldl (fun mask _ ↦ mask <<< n ||| 1) 0).testBit j =
      (decide (j < n * k) && decide (j % n = 0)) := by
  induction k generalizing j with
  | zero => simp
  | succ k ih =>
    rw [List.range_succ, List.foldl_append, List.foldl_cons, List.foldl_nil, Nat.testBit_or,
      Nat.testBit_shiftLeft, ih, Bool.eq_iff_iff, Nat.mul_succ]
    simp only [Bool.or_eq_true, Bool.and_eq_true, decide_eq_true_eq,
      Nat.testBit_one_eq_true_iff_self_eq_zero]
    by_cases hlow : j < n
    · rw [Nat.mod_eq_of_lt hlow]
      omega
    · rw [Nat.mod_eq_sub_mod (Nat.le_of_not_lt hlow)]
      omega

theorem testBit_mask (hn : 0 < n) (hj : j < fw) :
    (mask fw n).testBit j = decide (j % n = 0) := by
  have hcovers : fw ≤ n * ((fw + (n - 1)) / n) := by
    have hdiv := Nat.div_add_mod (fw + (n - 1)) n
    have hmod := Nat.mod_lt (fw + (n - 1)) hn
    omega
  rw [mask, testBit_foldl_mask hn, decide_eq_true (by omega), Bool.true_and]

/-- The ones with a number that is a multiple of `n`, by the shift of a field. -/
theorem shift_iff (hn : 0 < n) (f k : ℕ) :
    ((n - f % n) % n ≤ k ∧ (k - (n - f % n) % n) % n = 0) ↔ (f + k) % n = 0 := by
  have hlt := Nat.mod_lt f hn
  rw [Nat.add_mod, ← Nat.add_mod_mod]
  rcases Nat.eq_zero_or_pos (f % n) with hzero | hpos
  · rw [hzero, Nat.sub_zero, Nat.mod_self, Nat.sub_zero, Nat.zero_add, Nat.mod_mod, Nat.mod_mod]
    exact and_iff_right (Nat.zero_le k)
  · rw [Nat.mod_eq_of_lt (show n - f % n < n by omega), Nat.mod_mod, Nat.add_mod_mod]
    constructor
    · rintro ⟨hle, hmod⟩
      have hsum : f % n + k = n + (k - (n - f % n)) := by omega
      rw [hsum, Nat.add_mod_left, hmod]
    · intro hmod
      have hle : n - f % n ≤ k := by
        by_contra hsmall
        rw [Nat.mod_eq_of_lt (by omega)] at hmod
        omega
      have hsum : f % n + k = n + (k - (n - f % n)) := by omega
      rw [hsum, Nat.add_mod_left] at hmod
      exact ⟨hle, hmod⟩

end Mask

section Blocks

variable {fw count n pending i k : ℕ} {m : Stream}

theorem lt_two_pow_of_le (hn : n ≤ fw) : n < 2 ^ fw := hn.trans_lt Nat.lt_two_pow_self

/-- The counts up to a field fit, with what is pending. -/
theorem rank_add_pending_lt (hroom : fw * count + fw ≤ 2 ^ fw) (hn : n ≤ fw)
    (hpending : pending < n) (hi : i < count) : rank m (fw * (i + 1)) + pending < 2 ^ fw := by
  have hrank := (rank_le m (fw * (i + 1))).trans (Nat.mul_le_mul_left fw hi)
  omega

theorem field_sumCountPend (hroom : fw * count + fw ≤ 2 ^ fw) (hn : n ≤ fw)
    (hpending : pending < n) (hi : i < count) :
    field fw (simd_add fw (hsimd_partial_sum fw count (simd_popcount fw m))
      (simd_fill fw pending)) i = rank m (fw * (i + 1)) + pending := by
  have hsum : field fw (hsimd_partial_sum fw count (simd_popcount fw m)) i =
      rank m (fw * (i + 1)) :=
    field_hsimd_partial_sum (by omega) hi
  rw [simd_add, field_ofFields, hsum, field_fill (hpending.trans (lt_two_pow_of_le hn)),
    Nat.mod_eq_of_lt (rank_add_pending_lt hroom hn hpending hi)]

/-- The ones before a field. -/
theorem field_finalSumCounts {a b : Stream} (hroom : fw * count + fw ≤ 2 ^ fw) (hn : n ≤ fw)
    (hpending : pending < n) (ha : ∀ i < count, field fw a i = rank m (fw * (i + 1)) + pending)
    (hb : ∀ i, field fw b i = pending) (hi : i < count) :
    field fw (mvmd_dslli fw count a b 1) i = rank m (fw * i) + pending := by
  rw [mvmd_dslli, field_ofFields]
  cases i with
  | zero =>
    rw [if_pos (by omega), hb, Nat.mul_zero, rank_zero, Nat.zero_add,
      Nat.mod_eq_of_lt (hpending.trans (lt_two_pow_of_le hn))]
  | succ i =>
    have hplace : i + 1 + count - 1 - count = i := by omega
    rw [if_neg (by omega), hplace, ha i (by omega),
      Nat.mod_eq_of_lt (rank_add_pending_lt hroom hn hpending (by omega))]

theorem compileFields_snd (hroom : fw * count + fw ≤ 2 ^ fw) (hcount : 0 < count) (hn : n ≤ fw)
    (hpending : pending < n) :
    (compileFields fw count n m pending).2 = (rank m (fw * count) + pending) % n := by
  rw [compileFields, field_sumCountPend hroom hn hpending (by omega), Nat.sub_add_cancel hcount]

/-- A one is kept if the ones before it, with those pending, are a multiple of `n`. -/
theorem compileFields_fst (hfw : fw = 2 ^ (k + 1)) (hroom : fw * count + fw ≤ 2 ^ fw)
    (hn : n ≤ fw) (hpending : pending < n) {r : ℕ} (hr : r < fw * count) :
    (compileFields fw count n m pending).1 r =
      (m r && decide ((rank m r + pending) % n = 0)) := by
  obtain ⟨i, hi⟩ : ∃ i, i = r / fw := ⟨_, rfl⟩
  obtain ⟨c, hc⟩ : ∃ c, c = pop m (fw * i) (r % fw) := ⟨_, rfl⟩
  have hpos : 0 < fw := Nat.pos_of_ne_zero fun h0 ↦ by rw [h0] at hr; omega
  have hfield : i < count := hi ▸ Nat.div_lt_of_lt_mul hr
  have hn0 : 0 < n := Nat.zero_lt_of_lt hpending
  have hclt : c < fw := hc ▸ (pop_le m _ _).trans_lt (Nat.mod_lt r hpos)
  have hrank : rank m r = rank m (fw * i) + c := by
    rw [hc, ← rank_add_pop, hi, Nat.div_add_mod]
  have hsource : sourceBit fw m r = fw * i + c := by rw [sourceBit, ← hi, ← hc]
  have hsums := @field_finalSumCounts fw count n pending i m _ _ hroom hn hpending
    (fun i hi ↦ field_sumCountPend hroom hn hpending hi)
    (fun i ↦ field_fill (hpending.trans (lt_two_pow_of_le hn))) hfield
  have hpdep (x : Stream) : simd_pdep fw x m r = (m r && x (sourceBit fw m r)) := by
    rw [hfw]
    exact simd_pdep_apply _ x m r
  have hshift := shift_iff hn0 (rank m (fw * i) + pending) c
  have hlt : (n - (rank m (fw * i) + pending) % n) % n < 2 ^ fw :=
    (Nat.mod_lt _ hn0).trans (lt_two_pow_of_le hn)
  rw [compileFields]
  simp only []
  rw [hpdep, hsource, simd_sllv_apply hclt, field_ofFields, hsums,
    field_fill (lt_two_pow_of_le hn), Nat.mod_eq_of_lt hlt]
  congr 1
  rw [simd_fill, ofFields, mul_add_mod_of_lt (by omega), testBit_mask hn0 (by omega), hrank,
    Nat.add_right_comm, ← Bool.decide_and, decide_eq_decide]
  exact hshift

end Blocks

section Stream

variable {fw count k n length p : ℕ} {expr : Stream}

theorem pendingFields_eq (hroom : fw * count + fw ≤ 2 ^ fw) (hcount : 0 < count) (hn : n ≤ fw)
    (hpos : 0 < n) (m : Stream) (blk : ℕ) :
    pendingFields fw count n m blk = rank m (fw * count * blk) % n := by
  induction blk with
  | zero => rw [Nat.mul_zero, rank_zero, Nat.zero_mod]; rfl
  | succ blk ih =>
    have hlt : pendingFields fw count n m blk < n := ih ▸ Nat.mod_lt _ hpos
    rw [pendingFields, compileFields_snd hroom hcount hn hlt, ih, Nat.add_mod_mod, Nat.mul_succ,
      rank_add, Nat.add_comm]

/-- Of the ones of a stream those are kept whose number is a multiple of `n`, however the blocks
cut it, up to the end of the file. -/
theorem everyNthFields_apply (hfw : fw = 2 ^ (k + 1)) (hroom : fw * count + fw ≤ 2 ^ fw)
    (hcount : 0 < count) (hn : n ≤ fw) (hpos : 0 < n) (p : ℕ) :
    everyNthFields fw count length expr n p =
      (toCount length expr p && decide (rank (toCount length expr) p % n = 0)) := by
  have hblock : 0 < fw * count := Nat.mul_pos (hfw ▸ Nat.two_pow_pos _) hcount
  have hmod := Nat.mod_lt p hblock
  have hpending := pendingFields_eq hroom hcount hn hpos (toCount length expr) (p / (fw * count))
  rw [everyNthFields, compileFields_fst hfw hroom hn (hpending ▸ Nat.mod_lt _ hpos) hmod, hpending,
    Nat.add_mod_mod]
  conv_rhs => rw [← Nat.div_add_mod p (fw * count), rank_add]
  rw [Nat.add_comm (rank (toCount length expr) (fw * count * (p / (fw * count))))]

theorem toCount_of_le {q : ℕ} (hq : q ≤ length) : toCount length expr q = expr q := by
  rw [toCount, decide_eq_true hq, Bool.true_and]

theorem rank_toCount (hp : p ≤ length) : rank (toCount length expr) p = rank expr p :=
  rank_congr fun _ hq ↦ toCount_of_le (by omega)

/-- The fields of a block of powers of two have room for the counts. -/
theorem fields_room (v : Vectors) :
    v.fieldWidth * v.fieldsPerBlock + v.fieldWidth ≤ 2 ^ v.fieldWidth := by
  have hroom := two_mul_le v.fits
  rw [← Vectors.fieldWidth, ← Vectors.fieldsPerBlock] at hroom
  have hone : v.fieldWidth ≤ v.fieldWidth * v.fieldsPerBlock :=
    Nat.le_mul_of_pos_right _ (Nat.two_pow_pos _)
  omega

theorem everyNth_apply {v : Vectors} (hn : n ≤ v.fieldWidth) (hpos : 0 < n) (hp : p ≤ length) :
    everyNth v length expr n p = (expr p && decide (rank expr p % n = 0)) := by
  have hwidth : v.fieldWidth = 2 ^ (v.logFieldWidth + 1) := rfl
  rw [everyNth_eq, everyNthFields_apply hwidth (fields_room v) (Nat.two_pow_pos _) hn hpos,
    toCount_of_le hp, rank_toCount hp]

/-- In blocks of any number of fields of 64 bits, those ones are marked up to the end of the file
whose number is a multiple of `n`. -/
theorem everyNth_marks {n count : ℕ} (hpos : 0 < n) (hn : n < 64) (hcount : 0 < count)
    (hwidth : 64 * count < 2 ^ 32) (length : ℕ) (expr : Stream) (p : ℕ) :
    everyNthFields 64 count length expr n p = true ↔
      p ≤ length ∧ expr p = true ∧ n ∣ rank expr p := by
  rw [everyNthFields_apply (show 64 = 2 ^ (5 + 1) from rfl) (by omega) hcount (by omega) hpos]
  by_cases hp : p ≤ length
  · rw [toCount_of_le hp, rank_toCount hp, Bool.and_eq_true, decide_eq_true_eq,
      Nat.dvd_iff_mod_eq_zero]
    exact (and_iff_right hp).symm
  · rw [toCount, decide_eq_false hp, Bool.false_and, Bool.false_and]
    exact iff_of_false Bool.false_ne_true fun h ↦ hp h.1

/-- Every third one, in blocks of 192 positions. -/
theorem everyNth_marks_third : everyNthFields 64 3 400 (fun _ ↦ true) 3 300 = true ↔
    300 ≤ 400 ∧ (fun _ ↦ true : Stream) 300 = true ∧ 3 ∣ rank (fun _ ↦ true) 300 :=
  everyNth_marks (by decide) (by decide) (by decide) (by decide) 400 _ 300

/-- A one at the end of the file is counted. -/
theorem everyNth_marks_end : everyNthFields 64 2 3 (· == 3) 1 3 = true ∧ ¬ 3 < 3 := by
  rw [everyNthFields_apply (show 64 = 2 ^ (5 + 1) from rfl) (by decide) (by decide) (by decide)
    (by decide)]
  decide

end Stream

end Parabix.Pablo
