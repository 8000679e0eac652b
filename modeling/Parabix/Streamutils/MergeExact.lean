import Parabix.Library.EachFrom
import Parabix.Streamutils.Merge
import Parabix.Streamutils.StreamExpand

namespace Parabix.Streamutils

open Library Library.BitStream IDISA Unicode

section Packs

variable {t w i n : ℕ} {mask source : Stream} {s : Pending}

theorem field_loadPack (source : Stream) (item i : ℕ) :
    field w (loadPack w source item) i = field w source (item + i) := by
  rw [field, field]
  refine congrArg ofDigits (List.map_congr_left fun j _ ↦ ?_)
  rw [loadPack, Nat.mul_add, Nat.add_assoc]

theorem field_sourcePack {processed r : ℕ} (p : ℕ) :
    field w (sourcePack w n source processed p) r =
      field w source (processed - processed % n + n * p + r) := field_loadPack _ _ _

/-- The masks of packs of at least eight items follow one another. -/
theorem loadMask_eq (mask : Stream) (maskBase maskNo : ℕ) :
    loadMask (2 ^ (t + 3)) mask maskBase maskNo =
      fun j ↦ mask (maskBase + 2 ^ (t + 3) * maskNo + j) := by
  have hbytes : 8 * ((2 ^ (t + 3) + 7) / 8) = 2 ^ (t + 3) := by
    rw [show 2 ^ (t + 3) = 8 * 2 ^ t by ring, mul_add_div_of_lt (by decide)]
  unfold loadMask
  rw [hbytes]

/-- A way to load the next items of a source, for as many as the mask has ones. The invariant
says how many items have been taken. -/
structure Loads (w n : ℕ) (source : Stream) (load : Stream → Pending → Pending × Stream)
    (taken : ℕ → Pending → Prop) : Prop where
  next (mask : Stream) (k : ℕ) (s : Pending) (h : taken k s) :
    taken (k + rank mask n) (load mask s).1
  items (mask : Stream) (k : ℕ) (s : Pending) (h : taken k s) (i : ℕ) (hi : i < rank mask n) :
    field w (load mask s).2 i = field w source (k + i)

/-- Items of the pending pack that are still to be taken are in the pack that was loaded. -/
def AlignedTaken (w n : ℕ) (source : Stream) (processed k : ℕ) (s : Pending) : Prop :=
  k = processed - processed % n + s.sourceOffset ∧
    (s.sourceOffset % n = 0 ∨ s.pendingData = sourcePack w n source processed (s.sourceOffset / n))

theorem alignedLoad_loads (hwidth : 2 ^ t + 2 ^ t ≤ 2 ^ w) (source : Stream) (processed : ℕ) :
    Loads w (2 ^ t) source
      (alignedLoad w (2 ^ t) (sourcePack w (2 ^ t) source processed))
      (AlignedTaken w (2 ^ t) source processed) := by
  have hpos := Nat.two_pow_pos t
  have hand (m : ℕ) : m &&& (2 ^ t - 1) = m % 2 ^ t := Nat.and_two_pow_sub_one_eq_mod _ _
  constructor
  · rintro mask k s ⟨rfl, -⟩
    refine ⟨Nat.add_assoc _ _ _, ?_⟩
    simp only [alignedLoad, hand]
    split_ifs with hnone
    · exact .inl hnone
    · exact .inr rfl
  · rintro mask k s ⟨rfl, hpending⟩ i hi
    have hle := rank_le mask (2 ^ t)
    have hr : s.sourceOffset % 2 ^ t < 2 ^ t := Nat.mod_lt _ hpos
    have hdiv := Nat.div_add_mod s.sourceOffset (2 ^ t)
    simp only [alignedLoad, hand]
    rw [field_dsll (by omega) (Nat.mod_lt _ hpos).le hwidth]
    generalize s.sourceOffset % 2 ^ t = r at *
    generalize s.sourceOffset / 2 ^ t = q at *
    rw [← hdiv]
    by_cases hzero : r = 0
    · -- All items are in the pack that is loaded.
      have hpack : (if (2 ^ t * q + r + rank mask (2 ^ t)) % 2 ^ t = 0 then q
          else (2 ^ t * q + r + rank mask (2 ^ t)) / 2 ^ t) = q := by
        rw [hzero, Nat.add_zero]
        split_ifs with hnone
        · rfl
        · have hlt : rank mask (2 ^ t) < 2 ^ t := by
            refine hle.lt_of_ne fun heq ↦ hnone ?_
            rw [heq, Nat.mul_add_mod, Nat.mod_self]
          exact mul_add_div_of_lt hlt
      rw [hpack, hzero, Nat.sub_zero, Nat.mod_self, if_neg (Nat.not_lt_zero i), Nat.sub_zero,
        Nat.add_zero, field_sourcePack, Nat.add_assoc]
    · rw [Nat.mod_eq_of_lt (show 2 ^ t - r < 2 ^ t by omega)]
      by_cases hkept : i < 2 ^ t - r
      · rw [if_pos hkept, hpending.resolve_left hzero, field_sourcePack]
        congr 1
        omega
      · have hnext : (2 ^ t * q + r + rank mask (2 ^ t)) =
            2 ^ t * (q + 1) + (r + rank mask (2 ^ t) - 2 ^ t) := by
          rw [Nat.mul_succ]
          omega
        have hlt : r + rank mask (2 ^ t) - 2 ^ t < 2 ^ t := by omega
        rw [if_neg hkept, hnext, mul_add_mod_of_lt hlt, if_neg (by omega), mul_add_div_of_lt hlt,
          field_sourcePack, Nat.mul_succ]
        congr 1
        omega

theorem initialPending_taken (hn : 0 < n) (source : Stream) (processed : ℕ) :
    AlignedTaken w n source processed processed (initialPending w n source processed) := by
  refine ⟨(Nat.sub_add_cancel (Nat.mod_le _ _)).symm, .inr ?_⟩
  rw [initialPending, Nat.div_eq_of_lt (Nat.mod_lt _ hn)]

theorem unalignedLoad_loads (source : Stream) (processed : ℕ) :
    Loads w n source (unalignedLoad n fun offset ↦ loadPack w source (processed + offset))
      fun k s ↦ k = processed + s.sourceOffset where
  next := by
    rintro mask k s rfl
    exact Nat.add_assoc _ _ _
  items := by
    rintro mask k s rfl i -
    exact field_loadPack _ _ _

/-- Every field at a one of the mask has the next item of the source. -/
theorem Loads.expand {load : Stream → Pending → Pending × Stream} {taken : ℕ → Pending → Prop}
    {k : ℕ} (h : Loads w (2 ^ t) source load taken) (hwidth : 2 ^ t < 2 ^ w) (htaken : taken k s)
    (hi : i < 2 ^ t) : field w (mvmd_expand w (2 ^ t) (load mask s).2 mask) i =
      if mask i then field w source (k + rank mask i) else 0 := by
  have hlt : t < w := (Nat.pow_lt_pow_iff_right Nat.one_lt_two).1 hwidth
  rw [field_mvmd_expand (Nat.zero_lt_of_lt hlt) hlt.le mask hi]
  refine ite_congr rfl (fun hm ↦ ?_) fun _ ↦ rfl
  exact h.items mask k s htaken _ (rank_lt_of_true hm hi)

end Packs

namespace ElemMerge

variable {t w : ℕ} {mask source1 source2 : Stream}

/-- The items that a merged stream has. -/
def merged (w : ℕ) (mask source1 source2 : Stream) (p : ℕ) : ℕ :=
  if mask p then field w source1 (rank mask p) else field w source2 (rank (fun p ↦ !mask p) p)

def MergedPack (w n : ℕ) (mask source1 source2 : Stream) (k : ℕ) (pack : Stream) : Prop :=
  ∀ i < n, field w pack i = merged w mask source1 source2 (n * k + i)

theorem elemMergeLoop_each {taken1 taken2 : ℕ → Pending → Prop} {pack1 pack2 : ℕ → Stream}
    (h1 : Loads w (2 ^ (t + 3)) source1 (alignedLoad w (2 ^ (t + 3)) pack1) taken1)
    (h2 : Loads w (2 ^ (t + 3)) source2 (alignedLoad w (2 ^ (t + 3)) pack2) taken2)
    (hwidth : 2 ^ (t + 3) < 2 ^ w) {first n maskNo : ℕ} {s1 s2 : Pending}
    (hs1 : taken1 (rank mask (2 ^ (t + 3) * (first + maskNo))) s1)
    (hs2 : taken2 (rank (fun p ↦ !mask p) (2 ^ (t + 3) * (first + maskNo))) s2) :
    EachFrom (MergedPack w (2 ^ (t + 3)) mask source1 source2) (first + maskNo)
      (elemMergeLoop w (2 ^ (t + 3)) mask (2 ^ (t + 3) * first) pack1 pack2 n maskNo s1 s2) := by
  have hload (maskNo : ℕ) : loadMask (2 ^ (t + 3)) mask (2 ^ (t + 3) * first) maskNo =
      fun j ↦ mask (2 ^ (t + 3) * (first + maskNo) + j) := by
    rw [loadMask_eq, Nat.mul_add]
  induction n generalizing maskNo s1 s2 with
  | zero => exact .nil
  | succ n ih =>
    have hnot : simd_not (fun j ↦ mask (2 ^ (t + 3) * (first + maskNo) + j)) =
      fun j ↦ !mask (2 ^ (t + 3) * (first + maskNo) + j) := rfl
    have hnext (m : Stream) : rank m (2 ^ (t + 3) * (first + (maskNo + 1))) =
        rank m (2 ^ (t + 3) * (first + maskNo)) +
          rank (fun j ↦ m (2 ^ (t + 3) * (first + maskNo) + j)) (2 ^ (t + 3)) := by
      rw [← rank_add, ← Nat.add_assoc first, Nat.mul_succ]
    rw [elemMergeLoop, hload, hnot]
    refine .cons (fun i hi ↦ ?_) (ih ?_ ?_)
    · rw [field_or, h1.expand hwidth hs1 hi, h2.expand hwidth hs2 hi, merged, rank_add,
        rank_add (fun p ↦ !mask p)]
      cases mask (2 ^ (t + 3) * (first + maskNo) + i) <;> simp
    · rw [hnext]
      exact h1.next _ _ _ hs1
    · rw [hnext]
      exact h2.next _ _ _ hs2

theorem length_elemMergeLoop {maskBase n maskNo : ℕ} {pack1 pack2 : ℕ → Stream} {s1 s2 : Pending} :
    (elemMergeLoop w t mask maskBase pack1 pack2 n maskNo s1 s2).length = n := by
  induction n generalizing maskNo s1 s2 with
  | zero => rfl
  | succ n ih => rw [elemMergeLoop, List.length_cons, ih]

/-- The calls for all segments. -/
theorem segments_each (hwidth : 2 ^ (t + 3) + 2 ^ (t + 3) ≤ 2 ^ w) (strides : List ℕ) (blk : ℕ) :
    let packs := segments w (2 ^ (t + 3)) mask source1 source2 (w * 2 ^ (t + 3) * blk)
      (rank mask (w * 2 ^ (t + 3) * blk)) (rank (fun p ↦ !mask p) (w * 2 ^ (t + 3) * blk)) strides
    packs.length = strides.sum * w ∧
      EachFrom (MergedPack w (2 ^ (t + 3)) mask source1 source2) (w * blk) packs := by
  have hE := Nat.two_pow_pos (t + 3)
  induction strides generalizing blk with
  | nil => exact ⟨(Nat.zero_mul w).symm, .nil⟩
  | cons numOfStrides rest ih =>
    have hprocessed (m : Stream) : rank m (w * 2 ^ (t + 3) * blk) +
        pop m (w * 2 ^ (t + 3) * blk) (w * 2 ^ (t + 3) * numOfStrides) =
        rank m (w * 2 ^ (t + 3) * (blk + numOfStrides)) := by
      rw [← rank_add_pop, ← Nat.mul_add]
    have hbase : w * 2 ^ (t + 3) * blk = 2 ^ (t + 3) * (w * blk) := by ring
    obtain ⟨hlength, hrest⟩ := ih (blk + numOfStrides)
    have hcall : (generateMultiBlockLogic w (2 ^ (t + 3)) mask source1 source2
        (w * 2 ^ (t + 3) * blk) (rank mask (w * 2 ^ (t + 3) * blk))
        (rank (fun p ↦ !mask p) (w * 2 ^ (t + 3) * blk)) numOfStrides).length =
          numOfStrides * w := by
      rw [generateMultiBlockLogic, length_elemMergeLoop, Nat.mul_div_cancel _ hE]
    rw [segments, hprocessed, hprocessed, ← Nat.mul_add]
    constructor
    · rw [List.length_append, hcall, hlength, List.sum_cons, Nat.add_mul]
    · refine EachFrom.append ?_ ?_
      · rw [generateMultiBlockLogic, hbase]
        exact elemMergeLoop_each (alignedLoad_loads hwidth _ _) (alignedLoad_loads hwidth _ _)
          (by omega) (initialPending_taken hE _ _) (initialPending_taken hE _ _)
      · rw [hcall, Nat.mul_comm numOfStrides, ← Nat.mul_add]
        exact hrest

theorem segments_apply (hwidth : 2 ^ (t + 3) + 2 ^ (t + 3) ≤ 2 ^ w) (strides : List ℕ) {p : ℕ}
    (hp : p < w * 2 ^ (t + 3) * strides.sum) :
    ofPacks w (2 ^ (t + 3)) (segments w (2 ^ (t + 3)) mask source1 source2 0 0 0 strides) p =
      merged w mask source1 source2 p := by
  have hsegments := @segments_each _ _ mask source1 source2 hwidth
    strides 0
  simp only [Nat.mul_zero, rank_zero] at hsegments
  obtain ⟨hlength, heach⟩ := hsegments
  have hk : p / 2 ^ (t + 3) < strides.sum * w := by
    apply Nat.div_lt_of_lt_mul
    calc p < w * 2 ^ (t + 3) * strides.sum := hp
      _ = 2 ^ (t + 3) * (strides.sum * w) := by ring
  have hitem := heach.getD (d := fun _ ↦ false) (hlength ▸ hk) (p % 2 ^ (t + 3))
    (Nat.mod_lt p (Nat.two_pow_pos _))
  rwa [Nat.div_add_mod] at hitem

end ElemMerge

namespace ElemSpread

variable {t w : ℕ} {mask source : Stream}

/-- The items that a spread stream has. -/
def spreadItem (w : ℕ) (mask source : Stream) (p : ℕ) : ℕ :=
  if mask p then field w source (rank mask p) else 0

/-- The scan is before pack `k`: the packs from there on with a nonempty mask are still to be
filled. -/
structure Scanned (w n : ℕ) (mask source : Stream) (first k metaMask : ℕ) (spread : ℕ → Stream) :
    Prop where
  remaining (j : ℕ) (h : metaMask.testBit j = true) : k ≤ j ∧ j < w
  empty (j : ℕ) (hk : k ≤ j) (hw : j < w) (h : metaMask.testBit j = false) (i : ℕ) (hi : i < n) :
    mask (n * (first + j) + i) = false
  filled (j : ℕ) (hk : j < k) (i : ℕ) (hi : i < n) :
    field w (spread j) i = spreadItem w mask source (n * (first + j) + i)
  zero (j : ℕ) (hk : k ≤ j) (i : ℕ) : field w (spread j) i = 0

/-- Packs up to the next one with a nonempty mask take nothing, and they are zero. -/
theorem Scanned.skip {n first k c metaMask : ℕ} {spread : ℕ → Stream}
    (h : Scanned w n mask source first k metaMask spread) (hkc : k ≤ c) (hc : c ≤ w)
    (hnone : ∀ j < c, metaMask.testBit j = false) :
    Scanned w n mask source first c metaMask spread ∧
      rank mask (n * (first + c)) = rank mask (n * (first + k)) := by
  obtain ⟨hremaining, hempty, hfilled, hzero⟩ := h
  refine ⟨⟨fun j hj ↦ ⟨?_, (hremaining j hj).2⟩, fun j hj ↦ hempty j (hkc.trans hj),
    fun j hj i hi ↦ ?_, fun j hj ↦ hzero j (hkc.trans hj)⟩, ?_⟩
  · by_contra hlt
    rw [hnone j (Nat.lt_of_not_le hlt)] at hj
    exact Bool.false_ne_true hj
  · by_cases hk : j < k
    · exact hfilled j hk i hi
    · rw [hzero j (Nat.le_of_not_lt hk), spreadItem,
        hempty j (Nat.le_of_not_lt hk) (by omega) (hnone j hj) i hi]
      rfl
  · obtain ⟨l, rfl⟩ := Nat.exists_eq_add_of_le hkc
    rw [← Nat.add_assoc, Nat.mul_add]
    refine rank_eq_of_false fun i hi ↦ ?_
    have hn : 0 < n := Nat.pos_of_ne_zero fun hn ↦ by simp [hn] at hi
    have hl : i / n < l := Nat.div_lt_of_lt_mul hi
    rw [← Nat.div_add_mod i n, ← Nat.add_assoc, ← Nat.mul_add, Nat.add_assoc first]
    generalize i / n = x at *
    exact hempty (k + x) (by omega) (by omega) (hnone _ (by omega)) _ (Nat.mod_lt i hn)

theorem scanPackLoop_filled {load : Stream → Pending → Pending × Stream}
    {taken : ℕ → Pending → Prop} (hload : Loads w (2 ^ t) source load taken)
    (hwidth : 2 ^ t < 2 ^ w) {first k metaMask : ℕ} {maskOf spread : ℕ → Stream} {s : Pending}
    (hmask : ∀ j, maskOf j = fun i ↦ mask (2 ^ t * (first + j) + i)) (hk : k ≤ w)
    (htaken : taken (rank mask (2 ^ t * (first + k))) s)
    (hscanned : Scanned w (2 ^ t) mask source first k metaMask spread) :
    taken (rank mask (2 ^ t * (first + w))) (scanPackLoop w (2 ^ t) maskOf load metaMask s spread).1 ∧
      ∀ j < w, ∀ i < 2 ^ t, field w ((scanPackLoop w (2 ^ t) maskOf load metaMask s spread).2 j) i =
        spreadItem w mask source (2 ^ t * (first + j) + i) := by
  induction metaMask using Nat.strongRecOn generalizing k s spread with
  | ind metaMask ih =>
    rw [scanPackLoop]
    split_ifs with hdone
    · obtain ⟨hend, hrank⟩ := hscanned.skip hk le_rfl fun j _ ↦ by rw [hdone, Nat.zero_testBit]
      exact ⟨hrank ▸ htaken, hend.filled⟩
    · have hbit := testBit_countForwardZeroes hdone
      obtain ⟨hkc, hcw⟩ := hscanned.remaining _ hbit
      obtain ⟨⟨hremaining, hempty, hfilled, hzero⟩, hrank⟩ := hscanned.skip hkc hcw.le
        fun j hj ↦ testBit_of_lt_countForwardZeroes hdone hj
      have hreset (j : ℕ) := testBit_resetLowestBit (j := j) hdone
      rw [← hrank] at htaken
      generalize countForwardZeroes metaMask = c at *
      refine ih (resetLowestBit metaMask) (resetLowestBit_lt hdone) hcw ?_
        ⟨fun j hj ↦ ?_, fun j hj hw hnot i hi ↦ ?_, fun j hj i hi ↦ ?_, fun j hj i ↦ ?_⟩
      · rw [Nat.add_succ, Nat.mul_succ, rank_add, ← hmask]
        exact hload.next _ _ _ htaken
      · rw [hreset, Bool.and_eq_true, decide_eq_true_eq] at hj
        exact ⟨hj.1, (hremaining j hj.2).2⟩
      · rw [hreset, decide_eq_true (show c < j from hj), Bool.true_and] at hnot
        exact hempty j (by omega) hw hnot i hi
      · rcases Nat.lt_succ_iff_lt_or_eq.1 hj with hbefore | rfl
        · rw [Function.update_of_ne hbefore.ne]
          exact hfilled j hbefore i hi
        · rw [Function.update_self, hload.expand hwidth htaken hi, spreadItem, hmask, rank_add]
      · rw [Function.update_of_ne (by omega)]
        exact hzero j (by omega) i

/-- The masks that are not empty, by their number in the block. -/
theorem testBit_metaMask {n blk j : ℕ} (hn : 0 < n) :
    (hsimd_signmask n w (simd_any n (loadInputStreamBlock (w * n) mask blk))).testBit j = true ↔
      j < w ∧ ∃ i < n, mask (n * (w * blk + j) + i) = true := by
  have hload (i : ℕ) : loadInputStreamBlock (w * n) mask blk (n * j + i) =
      mask (n * (w * blk + j) + i) := by
    rw [loadInputStreamBlock]
    congr 1
    ring
  rw [hsimd_signmask, testBit_ofDigits]
  by_cases hj : j < w
  · rw [List.getD_eq_getElem _ _ (by simpa using hj), List.getElem_map, List.getElem_range,
      simd_any_apply (by omega), decide_eq_true_eq]
    simp only [hj, true_and, ← hload]
    constructor
    · intro hne
      by_contra hnone
      simp only [not_exists, not_and, Bool.not_eq_true] at hnone
      exact hne (field_eq_zero hnone)
    · rintro ⟨i, hi, hbit⟩ hzero
      exact Bool.false_ne_true ((apply_of_field_eq_zero hzero hi).symm.trans hbit)
  · rw [List.getD_eq_default _ _ (by simpa using hj)]
    simp [hj]

def SpreadBlock (w n : ℕ) (mask source : Stream) (blk : ℕ) (packs : ℕ → Stream) : Prop :=
  ∀ j < w, ∀ i < n, field w (packs j) i = spreadItem w mask source (n * (w * blk + j) + i)

theorem blockAtATimeLoop_each {load : Stream → Pending → Pending × Stream}
    {taken : ℕ → Pending → Prop} (hload : Loads w (2 ^ (t + 3)) source load taken)
    (hwidth : 2 ^ (t + 3) < 2 ^ w) {maskBlock n blockNo : ℕ} {s : Pending}
    (htaken : taken (rank mask (2 ^ (t + 3) * (w * (maskBlock + blockNo)))) s) :
    EachFrom (SpreadBlock w (2 ^ (t + 3)) mask source) (maskBlock + blockNo)
      (blockAtATimeLoop w (2 ^ (t + 3)) mask maskBlock load n blockNo s) := by
  induction n generalizing blockNo s with
  | zero => exact .nil
  | succ n ih =>
    have hpos := Nat.two_pow_pos (t + 3)
    have hmask (j : ℕ) : loadMask (2 ^ (t + 3)) mask (w * 2 ^ (t + 3) * (maskBlock + blockNo)) j =
        fun i ↦ mask (2 ^ (t + 3) * (w * (maskBlock + blockNo) + j) + i) := by
      rw [loadMask_eq, show w * 2 ^ (t + 3) * (maskBlock + blockNo) + 2 ^ (t + 3) * j =
        2 ^ (t + 3) * (w * (maskBlock + blockNo) + j) by ring]
    have hscanned : Scanned w (2 ^ (t + 3)) mask source (w * (maskBlock + blockNo)) 0
        (hsimd_signmask (2 ^ (t + 3)) w (simd_any (2 ^ (t + 3))
          (loadInputStreamBlock (w * 2 ^ (t + 3)) mask (maskBlock + blockNo)))) fun _ _ ↦ false := by
      refine ⟨fun j hj ↦ ⟨Nat.zero_le j, ((testBit_metaMask hpos).1 hj).1⟩,
        fun j _ hw hnot i hi ↦ ?_, fun j hj ↦ absurd hj (Nat.not_lt_zero j),
        fun j _ i ↦ field_eq_zero fun _ _ ↦ rfl⟩
      by_contra hbit
      exact Bool.false_ne_true (hnot.symm.trans
        ((testBit_metaMask hpos).2 ⟨hw, i, hi, Bool.not_eq_false _ ▸ hbit⟩))
    obtain ⟨hnext, hfilled⟩ := scanPackLoop_filled hload hwidth hmask (Nat.zero_le w) htaken hscanned
    rw [blockAtATimeLoop]
    refine .cons hfilled (ih ?_)
    rwa [← Nat.add_assoc, Nat.mul_succ]

theorem length_blockAtATimeLoop {load : Stream → Pending → Pending × Stream}
    {maskBlock n blockNo : ℕ} {s : Pending} :
    (blockAtATimeLoop w t mask maskBlock load n blockNo s).length = n := by
  induction n generalizing blockNo s with
  | zero => rfl
  | succ n ih => rw [blockAtATimeLoop, List.length_cons, ih]

theorem generateMultiBlockLogic_each (hwidth : 2 ^ (t + 3) + 2 ^ (t + 3) ≤ 2 ^ w)
    (UnalignedLoads : Bool) (blk numOfStrides : ℕ) :
    let blocks := generateMultiBlockLogic w (2 ^ (t + 3)) UnalignedLoads mask source blk
      (rank mask (w * 2 ^ (t + 3) * blk)) numOfStrides
    blocks.length = numOfStrides ∧
      EachFrom (SpreadBlock w (2 ^ (t + 3)) mask source) blk blocks := by
  have hpos := Nat.two_pow_pos (t + 3)
  have hbase : w * 2 ^ (t + 3) * blk = 2 ^ (t + 3) * (w * (blk + 0)) := by ring
  rw [generateMultiBlockLogic]
  cases UnalignedLoads with
  | true =>
    refine ⟨length_blockAtATimeLoop, ?_⟩
    refine blockAtATimeLoop_each (unalignedLoad_loads source _) (by omega) ?_
    rw [hbase]
    rfl
  | false =>
    refine ⟨length_blockAtATimeLoop, ?_⟩
    refine blockAtATimeLoop_each (alignedLoad_loads hwidth source _) (by omega) ?_
    rw [← hbase]
    exact initialPending_taken hpos source _

/-- The calls for all segments. -/
theorem segments_each (hwidth : 2 ^ (t + 3) + 2 ^ (t + 3) ≤ 2 ^ w) (UnalignedLoads : Bool)
    (strides : List ℕ) (blk : ℕ) :
    let blocks := segments w (2 ^ (t + 3)) UnalignedLoads mask source blk
      (rank mask (w * 2 ^ (t + 3) * blk)) strides
    blocks.length = strides.sum ∧
      EachFrom (SpreadBlock w (2 ^ (t + 3)) mask source) blk blocks := by
  induction strides generalizing blk with
  | nil => exact ⟨rfl, .nil⟩
  | cons numOfStrides rest ih =>
    have hprocessed : rank mask (w * 2 ^ (t + 3) * blk) +
        pop mask (w * 2 ^ (t + 3) * blk) (w * 2 ^ (t + 3) * numOfStrides) =
        rank mask (w * 2 ^ (t + 3) * (blk + numOfStrides)) := by
      rw [← rank_add_pop, ← Nat.mul_add]
    obtain ⟨hlength, hrest⟩ := ih (blk + numOfStrides)
    obtain ⟨hcall, heach⟩ := @generateMultiBlockLogic_each _ _ mask source hwidth UnalignedLoads blk
      numOfStrides
    rw [segments, hprocessed]
    exact ⟨by rw [List.length_append, hcall, hlength, List.sum_cons],
      heach.append (hcall.symm ▸ hrest)⟩

theorem segments_apply (hwidth : 2 ^ (t + 3) + 2 ^ (t + 3) ≤ 2 ^ w) (UnalignedLoads : Bool)
    (strides : List ℕ) {p : ℕ} (hp : p < w * 2 ^ (t + 3) * strides.sum) :
    ofPackBlocks w (2 ^ (t + 3))
        (segments w (2 ^ (t + 3)) UnalignedLoads mask source 0 0 strides) p =
      spreadItem w mask source p := by
  have hsegments := @segments_each _ _ mask source hwidth UnalignedLoads strides 0
  simp only [Nat.mul_zero, rank_zero] at hsegments
  obtain ⟨hlength, heach⟩ := hsegments
  have hk : p / 2 ^ (t + 3) / w < strides.sum := by
    apply Nat.div_lt_of_lt_mul
    apply Nat.div_lt_of_lt_mul
    calc p < w * 2 ^ (t + 3) * strides.sum := hp
      _ = 2 ^ (t + 3) * (w * strides.sum) := by ring
  have hw : 0 < w := Nat.pos_of_ne_zero fun hw ↦ by simp [hw] at hp
  have hitem := heach.getD (d := fun _ _ ↦ false) (hlength ▸ hk) (p / 2 ^ (t + 3) % w)
    (Nat.mod_lt _ hw) (p % 2 ^ (t + 3)) (Nat.mod_lt p (Nat.two_pow_pos _))
  rwa [Nat.div_add_mod, Nat.div_add_mod] at hitem

end ElemSpread

namespace StreamMerge

variable {e t : ℕ} {marker : Stream} {source1 source2 : StreamSet} {streamBase : ℕ}

/-- The bits that the merged streams have. -/
def merged (marker : Stream) (source1 source2 : StreamSet) (streamBase i p : ℕ) : Bool :=
  if marker p then source1 (streamBase + i) (rank marker p)
  else source2 (streamBase + i) (rank (fun p ↦ !marker p) p)

def MergedBlock (bw : ℕ) (marker : Stream) (source1 source2 : StreamSet) (streamBase blk : ℕ)
    (block : StreamSet) : Prop :=
  ∀ i, ∀ q < bw, block i q = merged marker source1 source2 streamBase i (bw * blk + q)

/-- A block of one of the sources takes the bits at the ones of its mask. -/
theorem toMerge_apply {mask s : Stream} {blk sb pt q : ℕ}
    (hfits : 2 ^ (e + 1) * 2 ^ t < 2 ^ 2 ^ (e + 1))
    (hoffset : 2 ^ (e + 1) * 2 ^ t * sb + pt = rank mask (2 ^ (e + 1) * 2 ^ t * blk))
    (hq : q < 2 ^ (e + 1) * 2 ^ t) :
    simd_pdep (2 ^ (e + 1)) (StreamExpand.expanded (2 ^ (e + 1)) (2 ^ t)
        (loadInputStreamBlock (2 ^ (e + 1) * 2 ^ t) mask blk) (pt % (2 ^ (e + 1) * 2 ^ t))
        (loadInputStreamBlock (2 ^ (e + 1) * 2 ^ t) s (sb + pt / (2 ^ (e + 1) * 2 ^ t)))
        (loadInputStreamBlock (2 ^ (e + 1) * 2 ^ t) s (sb + (pt + StreamExpand.blockPopCount
          (2 ^ (e + 1)) (2 ^ t) (loadInputStreamBlock (2 ^ (e + 1) * 2 ^ t) mask blk)) /
            (2 ^ (e + 1) * 2 ^ t))))
        (loadInputStreamBlock (2 ^ (e + 1) * 2 ^ t) mask blk) q =
      (mask (2 ^ (e + 1) * 2 ^ t * blk + q) && s (rank mask (2 ^ (e + 1) * 2 ^ t * blk + q))) := by
  rw [simd_pdep_apply, loadInputStreamBlock]
  cases hm : mask (2 ^ (e + 1) * 2 ^ t * blk + q) with
  | false => rw [Bool.false_and, Bool.false_and]
  | true =>
    rw [Bool.true_and, Bool.true_and]
    exact StreamExpand.expanded_block hfits hoffset hq hm

theorem mergeLoop_each (hfits : 2 ^ (e + 1) * 2 ^ t < 2 ^ 2 ^ (e + 1))
    {mb sb1 sb2 n blockNo pt1 pt2 : ℕ} {pendingData1 pendingData2 : StreamSet}
    (hpending1 : ∀ i, pendingData1 i = loadInputStreamBlock (2 ^ (e + 1) * 2 ^ t)
      (source1 (streamBase + i)) (sb1 + pt1 / (2 ^ (e + 1) * 2 ^ t)))
    (hpending2 : ∀ i, pendingData2 i = loadInputStreamBlock (2 ^ (e + 1) * 2 ^ t)
      (source2 (streamBase + i)) (sb2 + pt2 / (2 ^ (e + 1) * 2 ^ t)))
    (hoffset1 : 2 ^ (e + 1) * 2 ^ t * sb1 + pt1 =
      rank marker (2 ^ (e + 1) * 2 ^ t * (mb + blockNo)))
    (hoffset2 : 2 ^ (e + 1) * 2 ^ t * sb2 + pt2 =
      rank (fun p ↦ !marker p) (2 ^ (e + 1) * 2 ^ t * (mb + blockNo))) :
    EachFrom (MergedBlock (2 ^ (e + 1) * 2 ^ t) marker source1 source2 streamBase) (mb + blockNo)
      (mergeLoop (2 ^ (e + 1)) (2 ^ t) marker source1 source2 streamBase mb sb1 sb2 n blockNo pt1 pt2
        pendingData1 pendingData2) := by
  induction n generalizing blockNo pt1 pt2 pendingData1 pendingData2 with
  | zero => exact .nil
  | succ n ih =>
    have hnot : simd_not (loadInputStreamBlock (2 ^ (e + 1) * 2 ^ t) marker (mb + blockNo)) =
      loadInputStreamBlock (2 ^ (e + 1) * 2 ^ t) (fun p ↦ !marker p) (mb + blockNo) := rfl
    have hafter {m : Stream} {sb pt : ℕ} (h : 2 ^ (e + 1) * 2 ^ t * sb + pt =
        rank m (2 ^ (e + 1) * 2 ^ t * (mb + blockNo))) :
        2 ^ (e + 1) * 2 ^ t * sb + (pt + StreamExpand.blockPopCount (2 ^ (e + 1)) (2 ^ t)
          (loadInputStreamBlock (2 ^ (e + 1) * 2 ^ t) m (mb + blockNo))) =
        rank m (2 ^ (e + 1) * 2 ^ t * (mb + (blockNo + 1))) := by
      rw [← Nat.add_assoc, h, ← Nat.add_assoc mb, Nat.mul_succ, rank_add,
        StreamExpand.blockPopCount_eq hfits]
      rfl
    rw [mergeLoop, hnot]
    refine .cons (fun i q hq ↦ ?_) (ih (fun i ↦ rfl) (fun i ↦ rfl) (hafter hoffset1)
      (hafter hoffset2))
    rw [simd_or]
    beta_reduce
    rw [hpending1, hpending2, toMerge_apply hfits hoffset1 hq,
      toMerge_apply hfits hoffset2 hq, merged]
    cases marker (2 ^ (e + 1) * 2 ^ t * (mb + blockNo) + q) <;> simp

theorem length_mergeLoop {fw count mb sb1 sb2 n blockNo pt1 pt2 : ℕ}
    {pendingData1 pendingData2 : StreamSet} :
    (mergeLoop fw count marker source1 source2 streamBase mb sb1 sb2 n blockNo pt1 pt2 pendingData1
      pendingData2).length = n := by
  induction n generalizing blockNo pt1 pt2 pendingData1 pendingData2 with
  | zero => rfl
  | succ n ih => rw [mergeLoop, List.length_cons, ih]

/-- The calls for all segments. -/
theorem segments_each (hfits : 2 ^ (e + 1) * 2 ^ t < 2 ^ 2 ^ (e + 1)) (strides : List ℕ)
    (blk : ℕ) :
    let blocks := segments (2 ^ (e + 1)) (2 ^ t) marker source1 source2 streamBase blk
      (rank marker (2 ^ (e + 1) * 2 ^ t * blk))
      (rank (fun p ↦ !marker p) (2 ^ (e + 1) * 2 ^ t * blk)) strides
    blocks.length = strides.sum * StreamMergeStrideSize ∧
      EachFrom (MergedBlock (2 ^ (e + 1) * 2 ^ t) marker source1 source2 streamBase) blk
        blocks := by
  induction strides generalizing blk with
  | nil => exact ⟨(Nat.zero_mul _).symm, .nil⟩
  | cons numOfStrides rest ih =>
    have hprocessed (m : Stream) : rank m (2 ^ (e + 1) * 2 ^ t * blk) +
        pop m (2 ^ (e + 1) * 2 ^ t * blk)
          (2 ^ (e + 1) * 2 ^ t * (numOfStrides * StreamMergeStrideSize)) =
        rank m (2 ^ (e + 1) * 2 ^ t * (blk + numOfStrides * StreamMergeStrideSize)) := by
      rw [← rank_add_pop, ← Nat.mul_add]
    have hcall : (generateMultiBlockLogic (2 ^ (e + 1)) (2 ^ t) marker source1 source2 streamBase blk
        (rank marker (2 ^ (e + 1) * 2 ^ t * blk))
        (rank (fun p ↦ !marker p) (2 ^ (e + 1) * 2 ^ t * blk)) numOfStrides).length =
          numOfStrides * StreamMergeStrideSize := length_mergeLoop
    obtain ⟨hlength, hrest⟩ := ih (blk + numOfStrides * StreamMergeStrideSize)
    rw [segments, hprocessed, hprocessed]
    refine ⟨by rw [List.length_append, hcall, hlength, List.sum_cons, Nat.add_mul],
      EachFrom.append ?_ (hcall.symm ▸ hrest)⟩
    refine mergeLoop_each hfits (fun i ↦ ?_) (fun i ↦ ?_) (Nat.div_add_mod _ _)
      (Nat.div_add_mod _ _)
    · rw [Nat.mod_div_self]
      rfl
    · rw [Nat.mod_div_self]
      rfl

theorem segments_apply (hfits : 2 ^ (e + 1) * 2 ^ t < 2 ^ 2 ^ (e + 1)) (strides : List ℕ)
    (i : ℕ) {p : ℕ} (hp : p < 2 ^ (e + 1) * 2 ^ t * (strides.sum * StreamMergeStrideSize)) :
    ofBlocks (2 ^ (e + 1) * 2 ^ t) (segments (2 ^ (e + 1)) (2 ^ t) marker source1 source2 streamBase
      0 0 0 strides) i p = merged marker source1 source2 streamBase i p := by
  have hsegments := @segments_each _ _ marker source1 source2 streamBase hfits
    strides 0
  simp only [Nat.mul_zero, rank_zero] at hsegments
  obtain ⟨hlength, heach⟩ := hsegments
  have hbw : 0 < 2 ^ (e + 1) * 2 ^ t := Nat.mul_pos (Nat.two_pow_pos _) (Nat.two_pow_pos _)
  have hbit := heach.getD (d := fun _ _ ↦ false) (hlength ▸ Nat.div_lt_of_lt_mul hp) i
    (p % (2 ^ (e + 1) * 2 ^ t)) (Nat.mod_lt p hbw)
  rwa [Nat.div_add_mod] at hbit

end StreamMerge

end Parabix.Streamutils
