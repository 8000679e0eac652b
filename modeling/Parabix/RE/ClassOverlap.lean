import Parabix.RE.Characteristic

namespace Parabix.UCD

open Library Library.RunLength

namespace UnicodeSet

/-- The runs of both sets are passed up to the first quads that show a member of the first set
only. -/
def subsetLoop : ℕ → QuadIterator → QuadIterator → Bool
  | 0, _, _ => true
  | fuel + 1, i1, i2 =>
    let n := min i1.mRemaining i2.mRemaining
    if n = 0 then true
    else if i1.mType = .Empty ∨ i2.mType = .Full then subsetLoop fuel (i1.advance n) (i2.advance n)
    else if i1.mType = .Full ∨ i2.mType = .Empty then false
    else if (List.zipWith (fun q1 q2 ↦ q1 &&& ~~~q2) (i1.mQuadIterator.take n)
        (i2.mQuadIterator.take n)).any (· ≠ 0) then false
    else subsetLoop fuel (i1.advance n) (i2.advance n)

def subset (s other : UnicodeSet) : Bool :=
  subsetLoop (unicodeQuadCount + 1) s.quadBegin other.quadBegin

end UnicodeSet

section Pairs

variable {i1 i2 : QuadIterator} {s t : UnicodeSet} {n x : ℕ} {f : BitQuad → BitQuad → BitQuad}

theorem QuadIterator.take_cells (h : i1.Valid) (ht : i1.mType = .Mixed)
    (hn : n ≤ i1.mRemaining) : i1.cells.take n = i1.mQuadIterator.take n := by
  have hl := h.literals
  simp only [ht, literals_cons, fill_mixed, Option.isNone_none, if_true] at hl
  rw [cells, ht, decode_cons_none fill_mixed, List.take_append_of_le_length, List.take_take,
    Nat.min_eq_left hn]
  simp only [List.length_take]
  omega

/-- Some cells of two sets that stand at one place have a common bit. -/
def Meet (f : BitQuad → BitQuad → BitQuad) (xs ys : List BitQuad) : Prop :=
  ∃ q ∈ List.zipWith f xs ys, q ≠ 0

theorem meet_iff_take_drop {xs ys : List BitQuad} (n : ℕ) :
    Meet f xs ys ↔ Meet f (xs.take n) (ys.take n) ∨ Meet f (xs.drop n) (ys.drop n) := by
  have hsplit : List.zipWith f xs ys = List.zipWith f (xs.take n) (ys.take n) ++
      List.zipWith f (xs.drop n) (ys.drop n) := by
    rw [← List.take_zipWith, ← List.drop_zipWith, List.take_append_drop]
  simp only [Meet, hsplit, List.mem_append, or_and_right, exists_or]

theorem not_meet {xs ys : List BitQuad} (h : ∀ q1 ∈ xs, ∀ q2 ∈ ys, f q1 q2 = 0) :
    ¬ Meet f xs ys := by
  rintro ⟨q, hq, hne⟩
  obtain ⟨k, hk, rfl⟩ := List.mem_iff_getElem.1 hq
  rw [List.getElem_zipWith] at hne
  exact hne (h _ (List.getElem_mem _) _ (List.getElem_mem _))

theorem meet_of_forall {xs ys : List BitQuad} (hx : xs ≠ []) (hy : ys ≠ [])
    (h : ∀ q1 ∈ xs, ∀ q2 ∈ ys, f q1 q2 ≠ 0) : Meet f xs ys := by
  obtain ⟨x, xs, rfl⟩ := List.exists_cons_of_ne_nil hx
  obtain ⟨y, ys, rfl⟩ := List.exists_cons_of_ne_nil hy
  exact ⟨f x y, List.mem_cons_self .., h x (List.mem_cons_self ..) y (List.mem_cons_self ..)⟩

/-- Both cursors are within the same number of cells from the end. -/
structure Together (i1 i2 : QuadIterator) (fuel : ℕ) : Prop where
  left : i1.Valid
  right : i2.Valid
  length : i1.cells.length = i2.cells.length
  fuel : i1.cells.length < fuel

namespace Together

variable {fuel : ℕ} (h : Together i1 i2 (fuel + 1))

include h in
theorem nil (hn : min i1.mRemaining i2.mRemaining = 0) : i1.cells = [] := by
  by_contra hne
  have hp1 := QuadIterator.remaining_pos h.left hne
  have hp2 := QuadIterator.remaining_pos h.right fun he ↦
    hne (List.length_eq_zero_iff.mp (by rw [h.length, he, List.length_nil]))
  omega

include h in
theorem advance (hn : min i1.mRemaining i2.mRemaining ≠ 0) :
    Together (i1.advance (min i1.mRemaining i2.mRemaining))
      (i2.advance (min i1.mRemaining i2.mRemaining)) fuel := by
  have hle1 := QuadIterator.remaining_le h.left
  have hle2 := QuadIterator.remaining_le h.right
  have hfuel := h.fuel
  refine ⟨QuadIterator.advance_valid h.left (by omega), QuadIterator.advance_valid h.right
    (by omega), ?_, ?_⟩
  · rw [QuadIterator.cells_advance h.left (by omega), QuadIterator.cells_advance h.right
      (by omega), List.length_drop, List.length_drop, h.length]
  · rw [QuadIterator.cells_advance h.left (by omega), List.length_drop]
    omega

include h in
theorem meet_iff : Meet f i1.cells i2.cells ↔
    Meet f (i1.cells.take (min i1.mRemaining i2.mRemaining))
        (i2.cells.take (min i1.mRemaining i2.mRemaining)) ∨
      Meet f (i1.advance (min i1.mRemaining i2.mRemaining)).cells
        (i2.advance (min i1.mRemaining i2.mRemaining)).cells := by
  have hle1 := QuadIterator.remaining_le h.left
  have hle2 := QuadIterator.remaining_le h.right
  rw [QuadIterator.cells_advance h.left (by omega), QuadIterator.cells_advance h.right (by omega)]
  exact meet_iff_take_drop _

include h in
theorem take_ne_nil (hn : min i1.mRemaining i2.mRemaining ≠ 0) :
    i1.cells.take (min i1.mRemaining i2.mRemaining) ≠ [] ∧
      i2.cells.take (min i1.mRemaining i2.mRemaining) ≠ [] := by
  have hle1 := QuadIterator.remaining_le h.left
  have hle2 := QuadIterator.remaining_le h.right
  constructor
  · apply List.ne_nil_of_length_pos
    rw [List.length_take]
    omega
  · apply List.ne_nil_of_length_pos
    rw [List.length_take]
    omega

include h in
theorem kindOf_left {q : BitQuad} (hq : q ∈ i1.cells.take (min i1.mRemaining i2.mRemaining)) :
    kindOf q = i1.mType := QuadIterator.kindOf_take h.left (Nat.min_le_left _ _) q hq

include h in
theorem kindOf_right {q : BitQuad} (hq : q ∈ i2.cells.take (min i1.mRemaining i2.mRemaining)) :
    kindOf q = i2.mType := QuadIterator.kindOf_take h.right (Nat.min_le_right _ _) q hq

include h in
theorem any_iff (h1 : i1.mType = .Mixed) (h2 : i2.mType = .Mixed) :
    (List.zipWith f (i1.mQuadIterator.take (min i1.mRemaining i2.mRemaining))
      (i2.mQuadIterator.take (min i1.mRemaining i2.mRemaining))).any (· ≠ 0) = true ↔
    Meet f (i1.cells.take (min i1.mRemaining i2.mRemaining))
      (i2.cells.take (min i1.mRemaining i2.mRemaining)) := by
  rw [QuadIterator.take_cells h.left h1 (Nat.min_le_left _ _),
    QuadIterator.take_cells h.right h2 (Nat.min_le_right _ _), List.any_eq_true]
  simp [Meet]

end Together

theorem fullQuadMask_eq : fullQuadMask = BitVec.allOnes 32 := rfl

theorem mixed_of_ne {k : RunType} (h1 : k ≠ .Empty) (h2 : k ≠ .Full) : k = .Mixed := by
  cases k with
  | Mixed => rfl
  | Empty => exact absurd rfl h1
  | Full => exact absurd rfl h2

theorem intersectsLoop_iff {fuel : ℕ} (h : Together i1 i2 fuel) :
    UnicodeSet.intersectsLoop fuel i1 i2 = true ↔ Meet (· &&& ·) i1.cells i2.cells := by
  induction fuel generalizing i1 i2 with
  | zero => exact absurd h.fuel (Nat.not_lt_zero _)
  | succ fuel ih =>
    unfold UnicodeSet.intersectsLoop
    by_cases hn : min i1.mRemaining i2.mRemaining = 0
    · simp [hn, Meet, h.nil hn]
    simp only [if_neg hn]
    rw [h.meet_iff]
    by_cases hempty : i1.mType = .Empty ∨ i2.mType = .Empty
    · rw [if_pos hempty, ih (h.advance hn)]
      refine (or_iff_right (not_meet fun q1 hq1 q2 hq2 ↦ ?_)).symm
      rcases hempty with he | he
      · rw [(kindOf_eq_empty_iff q1).1 ((h.kindOf_left hq1).trans he)]
        exact BitVec.zero_and
      · rw [(kindOf_eq_empty_iff q2).1 ((h.kindOf_right hq2).trans he)]
        exact BitVec.and_zero
    rw [if_neg hempty]
    rw [not_or] at hempty
    by_cases hfull : i1.mType = .Full ∨ i2.mType = .Full
    · rw [if_pos hfull]
      obtain ⟨hne1, hne2⟩ := h.take_ne_nil hn
      refine iff_of_true rfl (.inl (meet_of_forall hne1 hne2 fun q1 hq1 q2 hq2 hzero ↦ ?_))
      rcases hfull with he | he
      · rw [(kindOf_eq_full_iff q1).1 ((h.kindOf_left hq1).trans he), fullQuadMask_eq,
          BitVec.allOnes_and] at hzero
        exact hempty.2 ((h.kindOf_right hq2).symm.trans ((kindOf_eq_empty_iff q2).2 hzero))
      · rw [(kindOf_eq_full_iff q2).1 ((h.kindOf_right hq2).trans he), fullQuadMask_eq,
          BitVec.and_allOnes] at hzero
        exact hempty.1 ((h.kindOf_left hq1).symm.trans ((kindOf_eq_empty_iff q1).2 hzero))
    rw [if_neg hfull]
    rw [not_or] at hfull
    have hany := h.any_iff (f := (· &&& ·)) (mixed_of_ne hempty.1 hfull.1)
      (mixed_of_ne hempty.2 hfull.2)
    split_ifs with hmeet
    · exact iff_of_true rfl (.inl (hany.1 hmeet))
    · rw [ih (h.advance hn)]
      exact (or_iff_right fun hm ↦ hmeet (hany.2 hm)).symm

theorem subsetLoop_iff {fuel : ℕ} (h : Together i1 i2 fuel) :
    UnicodeSet.subsetLoop fuel i1 i2 = true ↔
      ¬ Meet (fun q1 q2 ↦ q1 &&& ~~~q2) i1.cells i2.cells := by
  induction fuel generalizing i1 i2 with
  | zero => exact absurd h.fuel (Nat.not_lt_zero _)
  | succ fuel ih =>
    unfold UnicodeSet.subsetLoop
    by_cases hn : min i1.mRemaining i2.mRemaining = 0
    · simp [hn, Meet, h.nil hn]
    simp only [if_neg hn]
    rw [h.meet_iff]
    by_cases hwithin : i1.mType = .Empty ∨ i2.mType = .Full
    · rw [if_pos hwithin, ih (h.advance hn), not_or]
      refine (and_iff_right (not_meet fun q1 hq1 q2 hq2 ↦ ?_)).symm
      rcases hwithin with he | he
      · rw [(kindOf_eq_empty_iff q1).1 ((h.kindOf_left hq1).trans he)]
        exact BitVec.zero_and
      · rw [(kindOf_eq_full_iff q2).1 ((h.kindOf_right hq2).trans he), fullQuadMask_eq,
          BitVec.not_allOnes]
        exact BitVec.and_zero
    rw [if_neg hwithin]
    rw [not_or] at hwithin
    by_cases hbeyond : i1.mType = .Full ∨ i2.mType = .Empty
    · rw [if_pos hbeyond]
      obtain ⟨hne1, hne2⟩ := h.take_ne_nil hn
      refine iff_of_false (by decide) (not_not.2 (.inl (meet_of_forall hne1 hne2
        fun q1 hq1 q2 hq2 hzero ↦ ?_)))
      rcases hbeyond with he | he
      · rw [(kindOf_eq_full_iff q1).1 ((h.kindOf_left hq1).trans he), fullQuadMask_eq,
          BitVec.allOnes_and] at hzero
        refine hwithin.2 ((h.kindOf_right hq2).symm.trans ((kindOf_eq_full_iff q2).2 ?_))
        rw [← BitVec.not_not (b := q2), hzero]
        rfl
      · rw [(kindOf_eq_empty_iff q2).1 ((h.kindOf_right hq2).trans he)] at hzero
        refine hwithin.1 ((h.kindOf_left hq1).symm.trans ((kindOf_eq_empty_iff q1).2 ?_))
        simpa using hzero
    rw [if_neg hbeyond]
    rw [not_or] at hbeyond
    have hany := h.any_iff (f := fun q1 q2 ↦ q1 &&& ~~~q2) (mixed_of_ne hwithin.1 hbeyond.1)
      (mixed_of_ne hbeyond.2 hwithin.2)
    split_ifs with hmeet
    · exact iff_of_false (by decide) (not_not.2 (.inl (hany.1 hmeet)))
    · rw [ih (h.advance hn), not_or]
      exact (and_iff_right fun hm ↦ hmeet (hany.2 hm)).symm

/-- Cells meet where one bit of them does. -/
theorem meet_cells_iff {p : Bool → Bool → Bool} (hs : s.WellFormed) (ht : t.WellFormed)
    (hf : ∀ q1 q2 : BitQuad, ∀ b < 32, (f q1 q2).getLsbD b = p (q1.getLsbD b) (q2.getLsbD b)) :
    Meet f s.cells t.cells ↔
      ∃ x, x < unicodeQuadCount * 32 ∧ p (s.contains x) (t.contains x) = true := by
  have hls : s.cells.length = unicodeQuadCount := hs.verified.length_cells
  have hlt : t.cells.length = unicodeQuadCount := ht.verified.length_cells
  have hcontains {u : UnicodeSet} (hu : u.WellFormed) (k : ℕ) (hk : k < u.cells.length) {b : ℕ}
      (hb : b < 32) : u.contains (32 * k + b) = u.cells[k].getLsbD b := by
    rw [UnicodeSet.contains_eq hu.verified, Nat.mul_add_div (by decide), Nat.div_eq_of_lt hb,
      Nat.add_zero, Nat.mul_add_mod, Nat.mod_eq_of_lt hb, List.getElem?_eq_getElem hk,
      Option.getD_some]
  constructor
  · rintro ⟨q, hq, hne⟩
    obtain ⟨k, hk, rfl⟩ := List.mem_iff_getElem.1 hq
    rw [List.length_zipWith] at hk
    obtain ⟨b, hb, hbit⟩ : ∃ b < 32, ((List.zipWith f s.cells t.cells)[k]).getLsbD b = true := by
      by_contra hnone
      apply hne
      apply BitVec.eq_of_getLsbD_eq
      intro b hb
      exact (eq_false_of_ne_true fun hbit ↦ hnone ⟨b, hb, hbit⟩).trans BitVec.getLsbD_zero.symm
    rw [List.getElem_zipWith, hf _ _ b hb] at hbit
    refine ⟨32 * k + b, by omega, ?_⟩
    rw [hcontains hs k (by omega) hb, hcontains ht k (by omega) hb]
    exact hbit
  · rintro ⟨x, hx, hbit⟩
    have hk : x / 32 < unicodeQuadCount := Nat.div_lt_of_lt_mul (by omega)
    have hb : x % 32 < 32 := Nat.mod_lt _ (by decide)
    have hlen : x / 32 < (List.zipWith f s.cells t.cells).length := by
      rw [List.length_zipWith]
      omega
    refine ⟨_, List.getElem_mem hlen, fun hzero ↦ ?_⟩
    rw [← Nat.div_add_mod x 32, hcontains hs _ (by omega) hb, hcontains ht _ (by omega) hb,
      ← hf _ _ _ hb, ← List.getElem_zipWith (h := hlen), hzero] at hbit
    exact Bool.false_ne_true (BitVec.getLsbD_zero.symm.trans hbit)

theorem together_quadBegin (hs : s.WellFormed) (ht : t.WellFormed) :
    Together s.quadBegin t.quadBegin (unicodeQuadCount + 1) := by
  obtain ⟨hv1, hc1⟩ := UnicodeSet.quadBegin_valid hs.verified
  obtain ⟨hv2, hc2⟩ := UnicodeSet.quadBegin_valid ht.verified
  have hls : s.cells.length = unicodeQuadCount := hs.verified.length_cells
  have hlt : t.cells.length = unicodeQuadCount := ht.verified.length_cells
  exact ⟨hv1, hv2, by rw [hc1, hc2, hls, hlt], by rw [hc1, hls]; exact Nat.lt_succ_self _⟩

theorem lt_of_mem (hs : s.WellFormed) (h : x ∈ s.members) : x < unicodeQuadCount * 32 := by
  have hle := UnicodeSet.le_of_mem hs.verified h
  have hcount : unicodeMax < unicodeQuadCount * 32 := by decide
  omega

theorem intersects_iff (hs : s.WellFormed) (ht : t.WellFormed) :
    s.intersects t = true ↔ (s.members ∩ t.members).Nonempty := by
  rw [UnicodeSet.intersects, intersectsLoop_iff (together_quadBegin hs ht),
    (UnicodeSet.quadBegin_valid hs.verified).2, (UnicodeSet.quadBegin_valid ht.verified).2,
    meet_cells_iff (p := (· && ·)) hs ht fun q1 q2 b _ ↦ BitVec.getLsbD_and]
  constructor
  · rintro ⟨x, -, hx⟩
    exact ⟨x, Bool.and_eq_true_iff.1 hx⟩
  · rintro ⟨x, hx⟩
    exact ⟨x, lt_of_mem hs hx.1, Bool.and_eq_true_iff.2 hx⟩

theorem subset_iff (hs : s.WellFormed) (ht : t.WellFormed) :
    s.subset t = true ↔ s.members ⊆ t.members := by
  rw [UnicodeSet.subset, subsetLoop_iff (together_quadBegin hs ht),
    (UnicodeSet.quadBegin_valid hs.verified).2, (UnicodeSet.quadBegin_valid ht.verified).2,
    meet_cells_iff (p := fun a b ↦ a && !b) hs ht fun q1 q2 b hb ↦ by
      rw [BitVec.getLsbD_and, BitVec.getLsbD_not, decide_eq_true hb, Bool.true_and]]
  constructor
  · intro h x hx
    by_contra hnot
    refine h ⟨x, lt_of_mem hs hx, ?_⟩
    rw [Bool.and_eq_true_iff, Bool.not_eq_true']
    exact ⟨hx, eq_false_of_ne_true hnot⟩
  · rintro h ⟨x, -, hx⟩
    rw [Bool.and_eq_true_iff, Bool.not_eq_true'] at hx
    exact Bool.false_ne_true (hx.2.symm.trans (h hx.1))

end Pairs

end Parabix.UCD
