import Mathlib.Data.List.Lex
import Mathlib.Data.Prod.Lex
import Parabix.UCD.Constructors

namespace Parabix.UCD

open Library Library.RunLength

/-- The value of a run type in its enumeration. -/
def RunType.toNat : RunType → ℕ
  | .Empty => 0
  | .Mixed => 1
  | .Full => 2

theorem RunType.toNat_inj {a b : RunType} (h : a.toNat = b.toNat) : a = b := by
  cases a <;> cases b <;> first | rfl | cases h

/-- Runs are compared as pairs. -/
def runLess (a b : run_t) : Bool :=
  (typeOf a).toNat < (typeOf b).toNat ||
    ((typeOf a).toNat = (typeOf b).toNat && lengthOf a < lengthOf b)

def quadLess (a b : BitQuad) : Bool := a.toNat < b.toNat

/-- A comparison loop: the first difference decides. -/
def lessLoop {α : Type} (lt : α → α → Bool) : List α → List α → Option Bool
  | a :: as, b :: bs =>
    if lt a b then some true else if lt b a then some false else lessLoop lt as bs
  | _, _ => none

namespace UnicodeSet

def equals (s other : UnicodeSet) : Bool :=
  if s.mRunLength ≠ other.mRunLength ∨ s.mQuadLength ≠ other.mQuadLength then
    false
  else
    s.quads = other.quads && s.runs = other.runs

def less (s other : UnicodeSet) : Bool :=
  if s.mRunLength ≠ other.mRunLength then
    s.mRunLength < other.mRunLength
  else if s.mQuadLength ≠ other.mQuadLength then
    s.mQuadLength < other.mQuadLength
  else
    match lessLoop runLess s.runs other.runs with
    | some b => b
    | none => (lessLoop quadLess s.quads other.quads).getD false

def firstType (s : UnicodeSet) : Option RunType := s.mRuns.head?.map typeOf

def empty (s : UnicodeSet) : Bool := s.mRunLength = 1 && s.firstType = some .Empty

def full (s : UnicodeSet) : Bool := s.mRunLength = 1 && s.firstType = some .Full

end UnicodeSet

section Order

/-- What the comparison loops compare: first the runs, then the quads. -/
abbrev Key := ℕ ×ₗ ℕ ×ₗ List (ℕ ×ₗ ℕ) ×ₗ List ℕ

def runKey (r : run_t) : ℕ ×ₗ ℕ := toLex (r.kind.toNat, r.length)

def UnicodeSet.key (s : UnicodeSet) : Key :=
  toLex (s.mRunLength, toLex (s.mQuadLength,
    toLex (s.runs.map runKey, s.quads.map BitVec.toNat)))

theorem runLess_eq (a b : run_t) : runLess a b = decide (runKey a < runKey b) := by
  rw [Bool.eq_iff_iff]
  simp only [runLess, Bool.or_eq_true, Bool.and_eq_true, decide_eq_true_eq]
  rw [runKey, runKey, Prod.Lex.toLex_lt_toLex]
  rfl

theorem quadLess_eq (a b : BitQuad) : quadLess a b = decide (a.toNat < b.toNat) := rfl

theorem runKey_inj : Function.Injective runKey := by
  intro a b h
  rcases a with ⟨k, n⟩
  rcases b with ⟨k', n'⟩
  simp only [runKey, EmbeddingLike.apply_eq_iff_eq, Prod.mk.injEq] at h
  rw [RunType.toNat_inj h.1, h.2]

variable {α β : Type} [LinearOrder β] {lt : α → α → Bool} {f : α → β}

/-- The loop compares lists of one length lexicographically. -/
theorem lessLoop_eq (h : ∀ a b, lt a b = decide (f a < f b)) {as bs : List α}
    (hl : as.length = bs.length) : lessLoop lt as bs =
      if as.map f = bs.map f then none else some (decide (as.map f < bs.map f)) := by
  induction as generalizing bs with
  | nil =>
    cases bs with
    | nil => rfl
    | cons b bs => cases hl
  | cons a as ih =>
    cases bs with
    | nil => cases hl
    | cons b bs =>
      simp only [List.length_cons, Nat.add_right_cancel_iff] at hl
      simp only [lessLoop, h, decide_eq_true_eq, ih hl, List.map_cons, List.cons.injEq,
        List.cons_lt_cons_iff]
      rcases lt_trichotomy (f a) (f b) with hab | hab | hab
      · simp [hab, hab.ne]
      · simp [hab]
      · simp [hab, hab.ne', hab.not_gt]

variable {s t : UnicodeSet}

theorem UnicodeSet.WellFormed.length_runs (h : s.WellFormed) : s.runs.length = s.mRunLength :=
  List.length_take_of_le h.run_le

theorem UnicodeSet.WellFormed.length_quads (h : s.WellFormed) : s.quads.length = s.mQuadLength :=
  List.length_take_of_le h.quad_le

theorem key_eq_iff (hs : s.WellFormed) (ht : t.WellFormed) :
    s.key = t.key ↔ s.runs = t.runs ∧ s.quads = t.quads := by
  have hq : Function.Injective (BitVec.toNat : BitQuad → ℕ) := fun a b h ↦ BitVec.eq_of_toNat_eq h
  simp only [UnicodeSet.key, EmbeddingLike.apply_eq_iff_eq, Prod.mk.injEq,
    runKey_inj.list_map.eq_iff, hq.list_map.eq_iff]
  refine ⟨fun h ↦ h.2.2, fun h ↦ ⟨?_, ?_, h⟩⟩
  · rw [← hs.length_runs, ← ht.length_runs, h.1]
  · rw [← hs.length_quads, ← ht.length_quads, h.2]

theorem equals_iff (hs : s.WellFormed) (ht : t.WellFormed) :
    s.equals t = true ↔ s.runs = t.runs ∧ s.quads = t.quads := by
  unfold UnicodeSet.equals
  split_ifs with h
  · refine iff_of_false (by simp) fun he ↦ ?_
    rw [← hs.length_runs, ← ht.length_runs, ← hs.length_quads, ← ht.length_quads, he.1, he.2] at h
    simp at h
  · simp [and_comm]

theorem less_iff (hs : s.WellFormed) (ht : t.WellFormed) : s.less t = true ↔ s.key < t.key := by
  simp only [UnicodeSet.key, Prod.Lex.toLex_lt_toLex]
  unfold UnicodeSet.less
  by_cases hr : s.mRunLength = t.mRunLength
  · by_cases hq : s.mQuadLength = t.mQuadLength
    · have hlr : s.runs.length = t.runs.length := by rw [hs.length_runs, ht.length_runs, hr]
      have hlq : s.quads.length = t.quads.length := by rw [hs.length_quads, ht.length_quads, hq]
      rw [lessLoop_eq runLess_eq hlr, lessLoop_eq quadLess_eq hlq]
      by_cases he : s.runs.map runKey = t.runs.map runKey
      · by_cases he' : s.quads.map BitVec.toNat = t.quads.map BitVec.toNat
        · simp [hr, hq, he, he']
        · simp [hr, hq, he, he']
      · simp [hr, hq, he]
    · simp [hr, hq]
  · simp [hr]

theorem equals_iff_key (hs : s.WellFormed) (ht : t.WellFormed) :
    s.equals t = true ↔ s.key = t.key := by
  rw [equals_iff hs ht, key_eq_iff hs ht]

end Order

section Canonical

variable {s t : UnicodeSet}

/-- A canonical encoding is determined by the members. -/
theorem equals_iff_members (hs : s.WellFormed) (ht : t.WellFormed) (cs : Canonical s.runs)
    (ct : Canonical t.runs) : s.equals t = true ↔ s.members = t.members := by
  have hmem : s.members = t.members ↔ ∀ x, s.contains x = t.contains x := by
    simp [Set.ext_iff, UnicodeSet.members, Bool.coe_iff_coe]
  rw [equals_iff hs ht, hmem, ← UnicodeSet.cells_eq_iff hs.verified ht.verified]
  constructor
  · intro h
    rw [UnicodeSet.cells, UnicodeSet.cells, h.1, h.2]
  · intro h
    exact decode_inj cs ct (Prefix.of_verified hs.verified).kinds.symm
      (Prefix.of_verified ht.verified).kinds.symm hs.verified.literals ht.verified.literals h

/-- The set of one run. -/
def oneRun (type : RunType) : UnicodeSet := .ofVectors [⟨type, unicodeQuadCount⟩] []

theorem literals_oneRun {type : RunType} (h : type ≠ .Mixed) (n : ℕ) :
    literals fill [(⟨type, n⟩ : run_t)] = 0 := by
  cases type
  · rfl
  · exact absurd rfl h
  · rfl

theorem oneRun_wellFormed {t : RunType} (h : t ≠ .Mixed) : (oneRun t).WellFormed := by
  refine UnicodeSet.wellFormed_ofVectors ⟨?_, ?_, literals_oneRun h _, ?_⟩
  · intro r hr
    rw [List.mem_singleton.1 hr]
    exact (by decide : 0 < unicodeQuadCount)
  · rw [total_cons, total_nil, Nat.add_zero]
  · intro q hq
    cases hq

theorem oneRun_canonical (type : RunType) : Canonical (oneRun type).runs := by
  simpa [oneRun] using
    ⟨by simp [unicodeQuadCount, unicodeMax, quadBits], List.isChain_singleton _⟩

/-- A single run is recognised by its type. -/
theorem one_run_iff (hs : s.WellFormed) {type : RunType} (h : type ≠ .Mixed) :
    (s.mRunLength = 1 ∧ s.firstType = some type) ↔ s.equals (oneRun type) = true := by
  have hone := oneRun_wellFormed h
  rw [equals_iff hs hone, oneRun, UnicodeSet.runs_ofVectors, UnicodeSet.quads_ofVectors]
  constructor
  · rintro ⟨hl, ht⟩
    obtain ⟨r, hr⟩ := List.length_eq_one_iff.mp (hs.length_runs.trans hl)
    have htake : s.runs = s.mRuns.take 1 := by rw [UnicodeSet.runs, hl]
    have hkind : r.kind = type := by
      cases hm : s.mRuns with
      | nil => simp [htake, hm] at hr
      | cons r' rs =>
        simp only [htake, hm, List.take_succ_cons, List.take_zero, List.cons.injEq, and_true] at hr
        simpa [UnicodeSet.firstType, hm, hr] using ht
    have htot := hs.verified.total
    have hlit := hs.verified.literals
    rw [hr] at htot hlit
    rcases r with ⟨k, n⟩
    simp only [total_cons, total_nil, Nat.add_zero] at htot hkind
    subst hkind htot
    exact ⟨hr, List.length_eq_zero_iff.mp (hlit.symm.trans (literals_oneRun h _))⟩
  · rintro ⟨hr, _⟩
    have hl : s.mRunLength = 1 := by rw [← hs.length_runs, hr, List.length_singleton]
    refine ⟨hl, ?_⟩
    rw [UnicodeSet.runs, hl] at hr
    cases hm : s.mRuns with
    | nil => simp [hm] at hr
    | cons r' rs =>
      simp only [hm, List.take_succ_cons, List.take_zero, List.cons.injEq, and_true] at hr
      simp [UnicodeSet.firstType, hm, hr]

theorem getElem?_oneRun {type : RunType} {a : BitQuad} (h : fill type = some a) {x : ℕ}
    (hx : x ≤ unicodeMax) : (oneRun type).cells[x / 32]? = some a := by
  rw [oneRun, UnicodeSet.cells_ofVectors, decode_cons_some h, decode_nil, List.append_nil,
    List.getElem?_replicate]
  exact if_pos (index_lt hx)

theorem members_oneRun_empty : (oneRun .Empty).members = ∅ := by
  have hv := (oneRun_wellFormed (t := .Empty) (by decide)).verified
  rw [Set.eq_empty_iff_forall_notMem]
  intro x hx
  have hle := UnicodeSet.le_of_mem hv hx
  have hc : (oneRun .Empty).contains x = true := hx
  rw [UnicodeSet.contains_eq hv, getElem?_oneRun fill_empty hle] at hc
  simp at hc

theorem members_oneRun_full : (oneRun .Full).members = {x | x ≤ unicodeMax} := by
  have hv := (oneRun_wellFormed (t := .Full) (by decide)).verified
  ext x
  refine ⟨UnicodeSet.le_of_mem hv, fun hle ↦ ?_⟩
  change (oneRun .Full).contains x = true
  rw [UnicodeSet.contains_eq hv, getElem?_oneRun fill_full hle]
  exact getLsbD_fullQuadMask (Nat.mod_lt _ (by decide))

theorem empty_iff (hs : s.WellFormed) (cs : Canonical s.runs) :
    s.empty = true ↔ s.members = ∅ := by
  rw [← members_oneRun_empty, ← equals_iff_members hs (oneRun_wellFormed (by decide)) cs
    (oneRun_canonical _), ← one_run_iff hs (by decide)]
  simp [UnicodeSet.empty]

theorem full_iff (hs : s.WellFormed) (cs : Canonical s.runs) :
    s.full = true ↔ s.members = {x | x ≤ unicodeMax} := by
  rw [← members_oneRun_full, ← equals_iff_members hs (oneRun_wellFormed (by decide)) cs
    (oneRun_canonical _), ← one_run_iff hs (by decide)]
  simp [UnicodeSet.full]

end Canonical

end Parabix.UCD
