import Mathlib.Data.Set.SymmDiff
import Mathlib.Order.ConditionallyCompleteLattice.Basic
import Parabix.UCD.Constructors
import Parabix.UCD.Merge

namespace Parabix.UCD

open Library Library.RunLength

section Actions

def intersectionAction (t1 t2 : RunType) : Action :=
  if t1 = .Full ∧ t2 = .Full then .run .Full false
  else if t1 = .Empty ∨ t2 = .Empty then .run .Empty false
  else if t1 = .Full then .right (fun q ↦ q) false
  else if t2 = .Full then .left (fun q ↦ q) false
  else .both (fun q1 q2 ↦ q1 &&& q2) fun _ _ ↦ false

def unionAction (t1 t2 : RunType) : Action :=
  if t1 = .Empty ∧ t2 = .Empty then .run .Empty false
  else if t1 = .Full ∨ t2 = .Full then .run .Full false
  else if t1 = .Empty then .right (fun q ↦ q) false
  else if t2 = .Empty then .left (fun q ↦ q) false
  else .both (fun q1 q2 ↦ q1 ||| q2) fun _ _ ↦ false

def differenceAction (t1 t2 : RunType) : Action :=
  if t1 = .Empty ∨ t2 = .Full then .run .Empty false
  else if t1 = .Full then
    if t2 = .Empty then .run .Full false else .right (fun q ↦ ~~~q) false
  else if t2 = .Empty then .left (fun q ↦ q) false
  else .both (fun q1 q2 ↦ q1 &&& ~~~q2) fun _ _ ↦ false

def symmetricDifferenceAction (t1 t2 : RunType) : Action :=
  if t1 ≠ .Mixed ∧ t2 ≠ .Mixed then .run (if t1 = t2 then .Empty else .Full) false
  else if t1 = .Empty then .right (fun q ↦ q) false
  else if t2 = .Empty then .left (fun q ↦ q) false
  else if t1 = .Full then .right (fun q ↦ ~~~q) false
  else if t2 = .Full then .left (fun q ↦ ~~~q) false
  else .both (fun q1 q2 ↦ q1 ^^^ q2) fun _ _ ↦ false

def insertAction (t1 t2 : RunType) : Action :=
  if t1 = .Empty ∧ t2 = .Empty then .run .Empty false
  else if t1 = .Full ∨ t2 = .Full then .run .Full (t1 ≠ .Full)
  else if t1 = .Empty then .right (fun q ↦ q) true
  else if t2 = .Empty then .left (fun q ↦ q) false
  else .both (fun q1 q2 ↦ q1 ||| q2) fun q1 q2 ↦ q2 &&& ~~~q1 ≠ 0

end Actions

namespace UnicodeSet

def complementType : RunType → RunType
  | .Empty => .Full
  | .Mixed => .Mixed
  | .Full => .Empty

def complementRuns (runs : List run_t) : List run_t :=
  runs.map fun r ↦ ⟨complementType (typeOf r), lengthOf r⟩

def complementQuads (quads : List BitQuad) : List BitQuad := quads.map fun q ↦ ~~~q

def complement (s : UnicodeSet) : UnicodeSet :=
  ofVectors (complementRuns s.runs) (complementQuads s.quads)

def binary (action : RunType → RunType → Action) (s other : UnicodeSet) :
    Except Fault UnicodeSet := do
  let acc ← mergeSets action s other
  return ofVectors acc.runs acc.quads

def intersection : UnicodeSet → UnicodeSet → Except Fault UnicodeSet := binary intersectionAction

def union : UnicodeSet → UnicodeSet → Except Fault UnicodeSet := binary unionAction

def difference : UnicodeSet → UnicodeSet → Except Fault UnicodeSet := binary differenceAction

def symmetricDifference : UnicodeSet → UnicodeSet → Except Fault UnicodeSet :=
  binary symmetricDifferenceAction

def insertSet (m : Memory) (self other : UnicodeSet) : Except Fault UnicodeSet := do
  let acc ← mergeSets insertAction self other
  if acc.changed then assign m self acc.runs acc.quads else return self

def invertRuns (s : UnicodeSet) : UnicodeSet :=
  if s.mRunCapacity = 0 then
    { s with mRuns := complementRuns s.runs, mRunCapacity := s.mRunLength }
  else
    { s with mRuns := complementRuns s.runs ++ s.mRuns.drop s.mRunLength }

def invertQuads (s : UnicodeSet) : UnicodeSet :=
  if s.mQuadLength = 0 then
    s
  else if s.mQuadCapacity = 0 then
    { s with mQuads := complementQuads s.quads, mQuadCapacity := s.mQuadLength }
  else
    { s with mQuads := complementQuads s.quads ++ s.mQuads.drop s.mQuadLength }

def invert (s : UnicodeSet) : UnicodeSet := invertQuads (invertRuns s)

end UnicodeSet

section Computes

theorem intersectionAction_computes (t1 t2 : RunType) :
    (intersectionAction t1 t2).Computes (fun q1 q2 ↦ q1 &&& q2) (fun _ _ ↦ false) t1 t2 := by
  cases t1 <;> cases t2 <;>
    simp [intersectionAction, Action.Computes, kindOf_eq_empty_iff, kindOf_eq_full_iff] <;>
    rintro _ q2 rfl - <;> simp

theorem unionAction_computes (t1 t2 : RunType) :
    (unionAction t1 t2).Computes (fun q1 q2 ↦ q1 ||| q2) (fun _ _ ↦ false) t1 t2 := by
  cases t1 <;> cases t2 <;>
    simp [unionAction, Action.Computes, kindOf_eq_empty_iff, kindOf_eq_full_iff] <;>
    rintro _ q2 rfl - <;> simp

theorem differenceAction_computes (t1 t2 : RunType) :
    (differenceAction t1 t2).Computes (fun q1 q2 ↦ q1 &&& ~~~q2) (fun _ _ ↦ false) t1 t2 := by
  cases t1 <;> cases t2 <;>
    simp [differenceAction, Action.Computes, kindOf_eq_empty_iff, kindOf_eq_full_iff] <;>
    rintro _ q2 rfl - <;> simp

theorem symmetricDifferenceAction_computes (t1 t2 : RunType) :
    (symmetricDifferenceAction t1 t2).Computes (fun q1 q2 ↦ q1 ^^^ q2) (fun _ _ ↦ false)
      t1 t2 := by
  cases t1 <;> cases t2 <;>
    simp [symmetricDifferenceAction, Action.Computes, kindOf_eq_empty_iff, kindOf_eq_full_iff]
      <;> rintro _ q2 rfl - <;> simp

theorem insertAction_computes (t1 t2 : RunType) :
    (insertAction t1 t2).Computes (fun q1 q2 ↦ q1 ||| q2) (fun q1 q2 ↦ q2 &&& ~~~q1 ≠ 0)
      t1 t2 := by
  cases t1 <;> cases t2 <;>
    simp [insertAction, Action.Computes, kindOf_eq_empty_iff, kindOf_eq_full_iff,
      kindOf_eq_mixed_iff] <;>
    intro q1 q2 h1 h2 <;> simp_all [not_eq_empty_iff]

end Computes

section Members

variable {s t r : UnicodeSet} {g : BitQuad → BitQuad → BitQuad} {p : Bool → Bool → Bool}

theorem contains_zipWith (hs : Verified s.runs s.quads) (ht : Verified t.runs t.quads)
    (hr : Verified r.runs r.quads) (hc : r.cells = List.zipWith g s.cells t.cells)
    (hg : ∀ q1 q2 : BitQuad, ∀ b < 32,
      (g q1 q2).getLsbD b = p (q1.getLsbD b) (q2.getLsbD b)) {x : ℕ} (hx : x ≤ unicodeMax) :
    r.contains x = p (s.contains x) (t.contains x) := by
  have hls : s.cells.length = unicodeQuadCount := hs.length_cells
  have hlt : t.cells.length = unicodeQuadCount := ht.length_cells
  have hi : x / 32 < unicodeQuadCount := by
    simp only [unicodeMax, unicodeQuadCount, quadBits] at hx ⊢
    omega
  rw [UnicodeSet.contains_eq hr, UnicodeSet.contains_eq hs, UnicodeSet.contains_eq ht, hc,
    List.getElem?_zipWith, List.getElem?_eq_getElem (by omega),
    List.getElem?_eq_getElem (by omega)]
  exact hg _ _ _ (Nat.mod_lt _ (by decide))

theorem members_zipWith (hs : Verified s.runs s.quads) (ht : Verified t.runs t.quads)
    (hr : Verified r.runs r.quads) (hc : r.cells = List.zipWith g s.cells t.cells)
    (hg : ∀ q1 q2 : BitQuad, ∀ b < 32,
      (g q1 q2).getLsbD b = p (q1.getLsbD b) (q2.getLsbD b)) :
    r.members = {x | x ≤ unicodeMax ∧ p (s.contains x) (t.contains x) = true} := by
  ext x
  constructor
  · intro hx
    have hle := UnicodeSet.le_of_mem hr hx
    exact ⟨hle, by rw [← contains_zipWith hs ht hr hc hg hle]; exact hx⟩
  · rintro ⟨hle, hx⟩
    rw [← contains_zipWith hs ht hr hc hg hle] at hx
    exact hx

theorem binary_produces {action : RunType → RunType → Action}
    {c : BitQuad → BitQuad → Bool} (ha : ∀ t1 t2, (action t1 t2).Computes g c t1 t2)
    (hs : Verified s.runs s.quads) (ht : Verified t.runs t.quads)
    (hg : ∀ q1 q2 : BitQuad, ∀ b < 32,
      (g q1 q2).getLsbD b = p (q1.getLsbD b) (q2.getLsbD b)) :
    Produces (UnicodeSet.binary action s t)
      {x | x ≤ unicodeMax ∧ p (s.contains x) (t.contains x) = true} := by
  obtain ⟨acc, he, hh⟩ := mergeSets_spec ha hs ht
  have hls : s.cells.length = unicodeQuadCount := hs.length_cells
  have hlt : t.cells.length = unicodeQuadCount := ht.length_cells
  have hv : Verified acc.runs acc.quads := hh.toPrefix.verified (by simp [hls, hlt])
  refine ⟨.ofVectors acc.runs acc.quads, ?_, UnicodeSet.wellFormed_ofVectors hv, ?_, ?_⟩
  · simp only [UnicodeSet.binary, he, ok_bind, pure_eq_ok]
  · simpa using (verify_eq_ok_iff _ _).mpr hv
  · exact members_zipWith hs ht (by simpa using hv)
      (by rw [UnicodeSet.cells_ofVectors, hh.toPrefix.decode]) hg

end Members

section Complement

theorem fill_complementType (k : RunType) :
    fill (UnicodeSet.complementType k) = (fill k).map fun q ↦ ~~~q := by
  cases k <;> rfl

theorem kindOf_not (q : BitQuad) (h : kindOf q = .Mixed) : kindOf (~~~q) = .Mixed := by
  rw [kindOf_eq_mixed_iff] at h ⊢
  refine ⟨fun he ↦ h.2 ((not_eq_empty_iff q).mp he), fun he ↦ h.1 ?_⟩
  rw [← BitVec.not_not (b := q), he]
  rfl

theorem Verified.complement {rs : List run_t} {qs : List BitQuad} (h : Verified rs qs) :
    Verified (UnicodeSet.complementRuns rs) (UnicodeSet.complementQuads qs) where
  pos r hr := by
    obtain ⟨r', hr', rfl⟩ := List.mem_map.mp hr
    exact h.pos r' hr'
  total := (total_map _ rs).trans h.total
  literals := by
    rw [UnicodeSet.complementQuads, List.length_map, ← h.literals]
    exact literals_map fill_complementType rs
  proper q hq := by
    obtain ⟨q', hq', rfl⟩ := List.mem_map.mp hq
    exact kindOf_not q' (h.proper q' hq')

theorem decode_complement (rs : List run_t) (qs : List BitQuad) :
    decode fill (UnicodeSet.complementRuns rs) (UnicodeSet.complementQuads qs) =
      (decode fill rs qs).map fun q ↦ ~~~q :=
  decode_map fill_complementType rs qs

variable {s r : UnicodeSet}

theorem members_complement (hs : Verified s.runs s.quads)
    (hr : r.runs = UnicodeSet.complementRuns s.runs)
    (hq : r.quads = UnicodeSet.complementQuads s.quads) :
    r.members = {x | x ≤ unicodeMax} \ s.members := by
  have hv : Verified r.runs r.quads := by
    rw [hr, hq]
    exact hs.complement
  have hc : r.cells = List.zipWith (fun q1 _ ↦ ~~~q1) s.cells s.cells := by
    rw [zipWith_fst _ rfl, UnicodeSet.cells, hr, hq, decode_complement]
    rfl
  rw [members_zipWith (p := fun a _ ↦ !a) hs hs hv hc fun q1 _ b hb ↦ by
    rw [BitVec.getLsbD_not, decide_eq_true hb, Bool.true_and]]
  ext x
  simp [UnicodeSet.members]

theorem complement_produces (hs : Verified s.runs s.quads) :
    Produces (.ok s.complement) ({x | x ≤ unicodeMax} \ s.members) := by
  have hv := hs.complement
  refine ⟨_, rfl, UnicodeSet.wellFormed_ofVectors hv, ?_, ?_⟩
  · rw [verify_eq_ok_iff]
    simpa [UnicodeSet.complement] using hv
  · exact members_complement hs (by simp [UnicodeSet.complement])
      (by simp [UnicodeSet.complement])

theorem invertRuns_eq (h : s.WellFormed) : ∃ b c,
    s.invertRuns = { s with mRuns := b, mRunCapacity := c } ∧
      b.take s.mRunLength = UnicodeSet.complementRuns s.runs ∧
      s.mRunLength ≤ c ∧ c ≤ b.length := by
  have hle := h.run_le
  have hl : (UnicodeSet.complementRuns s.runs).length = s.mRunLength := by
    simp [UnicodeSet.complementRuns, UnicodeSet.runs, hle]
  unfold UnicodeSet.invertRuns
  by_cases hc : s.mRunCapacity = 0
  · refine ⟨_, _, if_pos hc, ?_, le_rfl, hl.ge⟩
    rw [← hl, List.take_length]
  · obtain ⟨h1, h2⟩ := h.run_capacity.resolve_left hc
    refine ⟨_, s.mRunCapacity, if_neg hc, ?_, h1, ?_⟩
    · rw [← hl, List.take_left]
    · rw [List.length_append, hl, List.length_drop]
      omega

theorem invertQuads_eq (h : s.mQuadLength ≤ s.mQuads.length)
    (hc : s.mQuadCapacity = 0 ∨
      s.mQuadLength ≤ s.mQuadCapacity ∧ s.mQuadCapacity ≤ s.mQuads.length) : ∃ b c,
    s.invertQuads = { s with mQuads := b, mQuadCapacity := c } ∧
      b.take s.mQuadLength = UnicodeSet.complementQuads s.quads ∧
      (c = 0 ∨ s.mQuadLength ≤ c ∧ c ≤ b.length) ∧ s.mQuadLength ≤ b.length := by
  have hl : (UnicodeSet.complementQuads s.quads).length = s.mQuadLength := by
    simp [UnicodeSet.complementQuads, UnicodeSet.quads, h]
  unfold UnicodeSet.invertQuads
  by_cases h0 : s.mQuadLength = 0
  · refine ⟨s.mQuads, s.mQuadCapacity, if_pos h0, ?_, hc, h⟩
    rw [h0, List.take_zero, List.length_eq_zero_iff.mp (hl.trans h0)]
  by_cases hc0 : s.mQuadCapacity = 0
  · refine ⟨_, _, by rw [if_neg h0, if_pos hc0], ?_, .inr ⟨le_rfl, hl.ge⟩, hl.ge⟩
    rw [← hl, List.take_length]
  · obtain ⟨h1, h2⟩ := hc.resolve_left hc0
    refine ⟨_, s.mQuadCapacity, by rw [if_neg h0, if_neg hc0], ?_, .inr ⟨h1, ?_⟩, ?_⟩
    · rw [← hl, List.take_left]
    all_goals
      rw [List.length_append, hl, List.length_drop]
      omega

theorem invert_eq (h : s.WellFormed) : s.invert.WellFormed ∧
    s.invert.runs = UnicodeSet.complementRuns s.runs ∧
    s.invert.quads = UnicodeSet.complementQuads s.quads := by
  obtain ⟨rb, rc, hre, hrt, hrc, hrb⟩ := invertRuns_eq h
  obtain ⟨qb, qc, hqe, hqt, hqc, hqb⟩ := invertQuads_eq (s := s.invertRuns)
    (by rw [hre]; exact h.quad_le) (by rw [hre]; exact h.quad_capacity)
  rw [hre] at hqe hqt hqc hqb
  have hi : s.invert = ⟨rb, qb, s.mRunLength, s.mQuadLength, rc, qc⟩ := by
    rw [UnicodeSet.invert, hre]
    exact hqe
  have hr : s.invert.runs = UnicodeSet.complementRuns s.runs := by
    rw [hi]
    exact hrt
  have hq : s.invert.quads = UnicodeSet.complementQuads s.quads := by
    rw [hi]
    exact hqt
  have hv : Verified s.invert.runs s.invert.quads := by
    rw [hr, hq]
    exact h.verified.complement
  refine ⟨⟨hv, ?_, ?_, ?_, ?_⟩, hr, hq⟩ <;> rw [hi]
  · exact hrc.trans hrb
  · exact hqb
  · exact .inr ⟨hrc, hrb⟩
  · exact hqc

theorem invert_produces (h : s.WellFormed) :
    Produces (.ok s.invert) ({x | x ≤ unicodeMax} \ s.members) := by
  obtain ⟨hw, hr, hq⟩ := invert_eq h
  exact ⟨_, rfl, hw, (verify_eq_ok_iff _ _).mpr hw.verified, members_complement h.verified hr hq⟩

end Complement

section Pointwise

variable {a b : UnicodeSet}

theorem intersection_produces (ha : Verified a.runs a.quads) (hb : Verified b.runs b.quads) :
    Produces (a.intersection b) (a.members ∩ b.members) := by
  have h := binary_produces (p := and) intersectionAction_computes ha hb
    fun q1 q2 i _ ↦ BitVec.getLsbD_and
  have hm : {x | x ≤ unicodeMax ∧ (a.contains x && b.contains x) = true} =
      a.members ∩ b.members := by
    ext x
    have hle := fun hx : x ∈ a.members ↦ UnicodeSet.le_of_mem ha hx
    simpa [UnicodeSet.members] using fun h1 _ ↦ hle h1
  rwa [hm] at h

theorem union_members (ha : Verified a.runs a.quads) (hb : Verified b.runs b.quads) :
    {x | x ≤ unicodeMax ∧ (a.contains x || b.contains x) = true} = a.members ∪ b.members := by
  ext x
  have hla := fun hx : x ∈ a.members ↦ UnicodeSet.le_of_mem ha hx
  have hlb := fun hx : x ∈ b.members ↦ UnicodeSet.le_of_mem hb hx
  simpa [UnicodeSet.members] using fun h ↦ h.elim hla hlb

theorem union_produces (ha : Verified a.runs a.quads) (hb : Verified b.runs b.quads) :
    Produces (a.union b) (a.members ∪ b.members) := by
  have h := binary_produces (p := or) unionAction_computes ha hb
    fun q1 q2 i _ ↦ BitVec.getLsbD_or
  rwa [union_members ha hb] at h

theorem difference_produces (ha : Verified a.runs a.quads) (hb : Verified b.runs b.quads) :
    Produces (a.difference b) (a.members \ b.members) := by
  have h := binary_produces (p := fun x y ↦ x && !y) differenceAction_computes ha hb
    fun q1 q2 i hi ↦ by
      rw [BitVec.getLsbD_and, BitVec.getLsbD_not, decide_eq_true hi, Bool.true_and]
  have hm : {x | x ≤ unicodeMax ∧ (a.contains x && !b.contains x) = true} =
      a.members \ b.members := by
    ext x
    have hle := fun hx : x ∈ a.members ↦ UnicodeSet.le_of_mem ha hx
    simpa [UnicodeSet.members] using fun h1 _ ↦ hle h1
  rwa [hm] at h

theorem symmetricDifference_produces (ha : Verified a.runs a.quads)
    (hb : Verified b.runs b.quads) :
    Produces (a.symmetricDifference b) (symmDiff a.members b.members) := by
  have h := binary_produces (p := xor) symmetricDifferenceAction_computes ha hb
    fun q1 q2 i _ ↦ BitVec.getLsbD_xor
  have hm : {x | x ≤ unicodeMax ∧ (a.contains x ^^ b.contains x) = true} =
      symmDiff a.members b.members := by
    ext x
    have hla := fun hx : x ∈ a.members ↦ UnicodeSet.le_of_mem ha hx
    have hlb := fun hx : x ∈ b.members ↦ UnicodeSet.le_of_mem hb hx
    simp only [UnicodeSet.members, Set.mem_ofPred_eq, Set.mem_symmDiff] at hla hlb ⊢
    cases h1 : a.contains x <;> cases h2 : b.contains x <;> simp_all
  rwa [hm] at h

/-- Nothing changed means that every quad of the other set lies in this one. -/
theorem insertSet_unchanged {xs ys : List BitQuad} (hl : xs.length = ys.length)
    (h : (List.zipWith (fun q1 q2 ↦ decide (q2 &&& ~~~q1 ≠ 0)) xs ys).any id = false) :
    List.zipWith (fun q1 q2 ↦ q1 ||| q2) xs ys = xs := by
  induction xs generalizing ys with
  | nil => rfl
  | cons x xs ih =>
    cases ys with
    | nil => simp at hl
    | cons y ys =>
      simp only [List.zipWith_cons_cons, List.any_cons, Bool.or_eq_false_iff, id_eq] at h
      rw [List.zipWith_cons_cons, ih (Nat.succ.inj hl) h.2]
      have hz : y &&& ~~~x = 0 := by simpa using h.1
      congr 1
      apply BitVec.eq_of_getLsbD_eq
      intro i hi
      have hb := congrArg (fun v ↦ v.getLsbD i) hz
      simp only [BitVec.getLsbD_and, BitVec.getLsbD_not, hi, decide_true, Bool.true_and,
        BitVec.ofNat_eq_ofNat, BitVec.getLsbD_zero] at hb
      rw [BitVec.getLsbD_or]
      cases hx : x.getLsbD i <;> simp_all

theorem insertSet_produces (m : Memory) (ha : a.WellFormed) (hb : Verified b.runs b.quads) :
    Produces (a.insertSet m b) (a.members ∪ b.members) := by
  obtain ⟨acc, he, hh⟩ := mergeSets_spec insertAction_computes ha.verified hb
  have hla : a.cells.length = unicodeQuadCount := ha.verified.length_cells
  have hlb : b.cells.length = unicodeQuadCount := hb.length_cells
  have hor : ∀ q1 q2 : BitQuad, ∀ i < 32,
      (q1 ||| q2).getLsbD i = (q1.getLsbD i || q2.getLsbD i) := fun _ _ _ _ ↦ BitVec.getLsbD_or
  rw [← union_members ha.verified hb]
  simp only [UnicodeSet.insertSet, he, ok_bind]
  cases hc : acc.changed with
  | true =>
    have hv : Verified acc.runs acc.quads := hh.toPrefix.verified (by simp [hla, hlb])
    obtain ⟨t, hte, htr, htq, htw⟩ :=
      assign_eq m ha.run_capacity_le ha.quad_capacity_le acc.runs acc.quads
    replace htw := htw hv
    refine ⟨t, hte, htw, (verify_eq_ok_iff _ _).mpr htw.verified, ?_⟩
    exact members_zipWith ha.verified hb htw.verified
      (by rw [UnicodeSet.cells, htr, htq, hh.toPrefix.decode]) hor
  | false =>
    refine ⟨a, rfl, ha, (verify_eq_ok_iff _ _).mpr ha.verified, ?_⟩
    rw [hh.changed] at hc
    exact members_zipWith ha.verified hb ha.verified
      (insertSet_unchanged (hla.trans hlb.symm) hc).symm hor

end Pointwise

end Parabix.UCD
