import Mathlib.Data.List.GetD
import Mathlib.Data.Set.Basic
import Mathlib.Order.ConditionallyCompleteLattice.Basic
import Parabix.Library.Fault
import Parabix.Library.RunLength

namespace Parabix.UCD

open Library Library.RunLength

inductive RunType where
  | Empty
  | Mixed
  | Full
deriving DecidableEq, Repr

abbrev BitQuad := BitVec 32

abbrev run_t := Run RunType

def unicodeMax : ℕ := 0x10FFFF

def quadBits : ℕ := 32

def quadLimit : ℕ := quadBits - 1

def unicodeQuadCount : ℕ := (unicodeMax + 1) / quadBits

def fullQuadMask : BitQuad := BitVec.allOnes 32

def typeOf (r : run_t) : RunType := r.kind

def lengthOf (r : run_t) : ℕ := r.length

@[simp] theorem typeOf_eq (r : run_t) : typeOf r = r.kind := rfl

@[simp] theorem lengthOf_eq (r : run_t) : lengthOf r = r.length := rfl

/-- The quad that an Empty or Full run stands for. Mixed quads are stored. -/
def fill : RunType → Option BitQuad
  | .Empty => some 0
  | .Mixed => none
  | .Full => some fullQuadMask

@[simp] theorem fill_empty : fill .Empty = some 0 := rfl

@[simp] theorem fill_mixed : fill .Mixed = none := rfl

@[simp] theorem fill_full : fill .Full = some fullQuadMask := rfl

def kindOf (q : BitQuad) : RunType :=
  if q = 0 then .Empty else if q = fullQuadMask then .Full else .Mixed

section Quad

theorem kindOf_eq_mixed_iff (q : BitQuad) : kindOf q = .Mixed ↔ q ≠ 0 ∧ q ≠ fullQuadMask := by
  unfold kindOf
  split_ifs <;> simp_all

theorem kindOf_eq_empty_iff (q : BitQuad) : kindOf q = .Empty ↔ q = 0#32 := by
  unfold kindOf
  split_ifs <;> simp_all

theorem kindOf_eq_full_iff (q : BitQuad) : kindOf q = .Full ↔ q = fullQuadMask := by
  unfold kindOf
  split_ifs with h0 h1
  · simp only [h0, false_iff]
    decide
  · simp [h1]
  · simp [h1]

@[simp] theorem full_and (q : BitQuad) : fullQuadMask &&& q = q := BitVec.allOnes_and

@[simp] theorem and_full (q : BitQuad) : q &&& fullQuadMask = q := BitVec.and_allOnes

@[simp] theorem full_or (q : BitQuad) : fullQuadMask ||| q = fullQuadMask := BitVec.allOnes_or

@[simp] theorem or_full (q : BitQuad) : q ||| fullQuadMask = fullQuadMask := BitVec.or_allOnes

@[simp] theorem full_xor (q : BitQuad) : fullQuadMask ^^^ q = ~~~q := BitVec.allOnes_xor

@[simp] theorem xor_full (q : BitQuad) : q ^^^ fullQuadMask = ~~~q := BitVec.xor_allOnes

@[simp] theorem not_full : ~~~fullQuadMask = 0#32 := rfl

@[simp] theorem ofNat_full : 4294967295#32 = fullQuadMask := rfl

theorem not_eq_empty_iff (q : BitQuad) : ~~~q = 0#32 ↔ q = fullQuadMask := by
  constructor
  · intro h
    rw [← BitVec.not_not (b := q), h]
    rfl
  · rintro rfl
    rfl

end Quad

/-- Skipping part of a run drops as many cells. -/
theorem drop_decode_cons {k : RunType} {n j : ℕ} (hj : j ≤ n) (rs : List run_t)
    {qs : List BitQuad} (hl : literals fill (⟨k, n⟩ :: rs) ≤ qs.length) :
    (decode fill (⟨k, n⟩ :: rs) qs).drop j =
      decode fill (⟨k, n - j⟩ :: rs) (if k = .Mixed then qs.drop j else qs) := by
  cases k with
  | Mixed =>
    simp only [literals_cons, fill_mixed, Option.isNone_none, if_true] at hl
    rw [decode_cons_none fill_mixed, decode_cons_none fill_mixed, if_pos rfl,
      List.drop_append_of_le_length (by simp only [List.length_take]; omega), List.drop_drop,
      List.drop_take, Nat.add_sub_cancel' hj]
  | Empty | Full =>
    simp only [decode, fill, reduceCtorEq, if_false]
    rw [List.drop_append_of_le_length (by simpa using hj), List.drop_replicate]

/-- The run that holds a quad, with the index of its first quad. -/
def runAt : List run_t → ℕ → ℕ × run_t
  | [], _ => (0, ⟨.Empty, 0⟩)
  | r :: rs, i => if i < r.length then (0, r) else
    let out := runAt rs (i - r.length)
    (r.length + out.1, out.2)

theorem runAt_eq {pre post : List run_t} {r : run_t} {i : ℕ} (hle : total pre ≤ i)
    (hlt : i < total pre + r.length) : runAt (pre ++ r :: post) i = (total pre, r) := by
  induction pre generalizing i with
  | nil => simp [runAt, show i < r.length by simpa using hlt]
  | cons p pre ih =>
    simp only [total_cons] at hle hlt
    rw [List.cons_append, runAt, if_neg (by omega), ih (by omega) (by omega)]
    rfl

/-- The first cells of a run. -/
theorem take_decode_cons {k : RunType} {n j : ℕ} (hj : j ≤ n) (rs : List run_t)
    {qs qs' : List BitQuad} (hl : literals fill (⟨k, n⟩ :: rs) ≤ qs.length)
    (hq : k = .Mixed → qs'.take j = qs.take j) :
    (decode fill (⟨k, n⟩ :: rs) qs).take j = decode fill [⟨k, j⟩] qs' := by
  cases k with
  | Mixed =>
    simp only [literals_cons, fill_mixed, Option.isNone_none, if_true] at hl
    rw [decode_cons_none fill_mixed, decode_cons_none fill_mixed, decode_nil, List.append_nil,
      List.take_append_of_le_length (by simp only [List.length_take]; omega), List.take_take,
      min_eq_left hj, hq rfl]
  | Empty | Full =>
    simp only [decode, fill, List.append_nil]
    rw [List.take_append_of_le_length (by simpa using hj), List.take_replicate, min_eq_left hj]

/-- A run buffer and a quad buffer, each with the length in use. A capacity of
zero marks a buffer that belongs to a predefined set and is never written. -/
structure UnicodeSet where
  mRuns : List run_t
  mQuads : List BitQuad
  mRunLength : ℕ
  mQuadLength : ℕ
  mRunCapacity : ℕ
  mQuadCapacity : ℕ
deriving DecidableEq, Repr

namespace UnicodeSet

def runs (s : UnicodeSet) : List run_t := s.mRuns.take s.mRunLength

def quads (s : UnicodeSet) : List BitQuad := s.mQuads.take s.mQuadLength

/-- All the quads of the code space, in order. -/
def cells (s : UnicodeSet) : List BitQuad := decode fill s.runs s.quads

/-- The set that owns exactly these runs and quads. -/
def ofVectors (runs : List run_t) (quads : List BitQuad) : UnicodeSet :=
  ⟨runs, quads, runs.length, quads.length, runs.length, quads.length⟩

@[simp] theorem runs_ofVectors (rs : List run_t) (qs : List BitQuad) :
    (ofVectors rs qs).runs = rs := by simp [ofVectors, runs]

@[simp] theorem quads_ofVectors (rs : List run_t) (qs : List BitQuad) :
    (ofVectors rs qs).quads = qs := by simp [ofVectors, quads]

@[simp] theorem cells_ofVectors (rs : List run_t) (qs : List BitQuad) :
    (ofVectors rs qs).cells = decode fill rs qs := by simp [cells]

end UnicodeSet

section Verify

def verifyRuns : List run_t → ℕ → ℕ → Except Fault (ℕ × ℕ)
  | [], sum, mixedQuads => .ok (sum, mixedQuads)
  | r :: rs, sum, mixedQuads =>
    if lengthOf r = 0 then
      .error (.fatal "zero-length quad found")
    else
      verifyRuns rs (sum + lengthOf r)
        (if typeOf r = .Mixed then mixedQuads + lengthOf r else mixedQuads)

def verify (runs : List run_t) (quads : List BitQuad) : Except Fault Bool :=
  match verifyRuns runs 0 0 with
  | .error e => .error e
  | .ok (sum, mixedQuads) =>
    if sum ≠ unicodeQuadCount then
      .error (.fatal s!"found {sum} quads but expected {unicodeQuadCount}")
    else if mixedQuads ≠ quads.length then
      .error (.fatal s!"found {quads.length} mixed quad(s) but expected {mixedQuads}")
    else if quads.any (fun q ↦ q = 0 || q = fullQuadMask) then
      .error (.fatal "Empty or Full quad found in Mixed quad array")
    else
      .ok true

/-- What `verify` accepts. -/
structure Verified (runs : List run_t) (quads : List BitQuad) : Prop where
  pos : ∀ r ∈ runs, 0 < r.length
  total : total runs = unicodeQuadCount
  literals : literals fill runs = quads.length
  proper : ∀ q ∈ quads, kindOf q = .Mixed

theorem verifyRuns_eq_ok_iff (rs : List run_t) (sum mixedQuads : ℕ) (p : ℕ × ℕ) :
    verifyRuns rs sum mixedQuads = .ok p ↔
      (∀ r ∈ rs, 0 < r.length) ∧ p = (sum + total rs, mixedQuads + literals fill rs) := by
  induction rs generalizing sum mixedQuads with
  | nil => simp [verifyRuns, eq_comm]
  | cons r rs ih =>
    rcases r with ⟨k, n⟩
    by_cases hn : n = 0
    · simp [verifyRuns, lengthOf, hn]
    · cases k <;> simp [verifyRuns, lengthOf, typeOf, hn, ih, fill, Nat.pos_of_ne_zero hn,
        Nat.add_assoc]

theorem verify_eq_ok_iff (runs : List run_t) (quads : List BitQuad) :
    verify runs quads = .ok true ↔ Verified runs quads := by
  unfold verify
  split
  · rename_i e he
    refine ⟨fun h ↦ by simp at h, fun h ↦ ?_⟩
    have hok := (verifyRuns_eq_ok_iff runs 0 0 _).mpr ⟨h.pos, rfl⟩
    rw [he] at hok
    cases hok
  · rename_i sum mixedQuads he
    obtain ⟨hpos, hp⟩ := (verifyRuns_eq_ok_iff runs 0 0 _).mp he
    simp only [Nat.zero_add, Prod.mk.injEq] at hp
    obtain ⟨rfl, rfl⟩ := hp
    by_cases ht : total runs = unicodeQuadCount
    · by_cases hl : literals fill runs = quads.length
      · by_cases hq : quads.any (fun q ↦ q = 0 || q = fullQuadMask)
        · simp only [ht, hl, hq, ne_eq, not_true_eq_false, if_false, if_true, reduceCtorEq,
            false_iff]
          intro h
          obtain ⟨q, hm, hb⟩ := List.any_eq_true.mp hq
          have hp := (kindOf_eq_mixed_iff q).mp (h.proper q hm)
          simp only [Bool.or_eq_true, decide_eq_true_eq] at hb
          exact hb.elim hp.1 hp.2
        · simp only [ht, hl, hq, ne_eq, not_true_eq_false, if_false, Bool.false_eq_true]
          refine ⟨fun _ ↦ ⟨hpos, ht, hl, fun q hm ↦ (kindOf_eq_mixed_iff q).mpr ?_⟩, fun _ ↦ trivial⟩
          simp only [List.any_eq_true, not_exists, not_and, Bool.or_eq_true,
            decide_eq_true_eq, not_or] at hq
          exact hq q hm
      · simp only [ht, ne_eq, not_true_eq_false, if_false, not_false_eq_true, if_true,
          hl, reduceCtorEq, false_iff]
        exact fun h ↦ hl h.literals
    · simp only [ht, ne_eq, not_false_eq_true, if_true, reduceCtorEq, false_iff]
      exact fun h ↦ ht h.total

end Verify

/-- A set whose buffers hold what their lengths say and pass `verify`. -/
structure UnicodeSet.WellFormed (s : UnicodeSet) : Prop where
  verified : Verified s.runs s.quads
  run_le : s.mRunLength ≤ s.mRuns.length
  quad_le : s.mQuadLength ≤ s.mQuads.length
  run_capacity : s.mRunCapacity = 0 ∨
    s.mRunLength ≤ s.mRunCapacity ∧ s.mRunCapacity ≤ s.mRuns.length
  quad_capacity : s.mQuadCapacity = 0 ∨
    s.mQuadLength ≤ s.mQuadCapacity ∧ s.mQuadCapacity ≤ s.mQuads.length

theorem UnicodeSet.WellFormed.run_capacity_le {s : UnicodeSet} (h : s.WellFormed) :
    s.mRunCapacity ≤ s.mRuns.length := by
  have := h.run_capacity
  omega

theorem UnicodeSet.WellFormed.quad_capacity_le {s : UnicodeSet} (h : s.WellFormed) :
    s.mQuadCapacity ≤ s.mQuads.length := by
  have := h.quad_capacity
  omega

theorem UnicodeSet.wellFormed_ofVectors {rs : List run_t} {qs : List BitQuad}
    (h : Verified rs qs) : (ofVectors rs qs).WellFormed where
  verified := by simpa using h
  run_le := le_rfl
  quad_le := le_rfl
  run_capacity := .inr ⟨le_rfl, le_rfl⟩
  quad_capacity := .inr ⟨le_rfl, le_rfl⟩

section Contains

def containsFrom (quads : List BitQuad) (bit : ℕ) : List run_t → ℕ → ℕ → Bool
  | [], _, _ => false
  | r :: rs, quadIndex, offset =>
    if offset < lengthOf r then
      if typeOf r = .Mixed then
        (quads.getD (quadIndex + offset) 0 &&& (1#32 <<< bit)) != 0
      else
        typeOf r == .Full
    else
      containsFrom quads bit rs
        (if typeOf r = .Mixed then quadIndex + lengthOf r else quadIndex) (offset - lengthOf r)

def UnicodeSet.contains (s : UnicodeSet) (cp : ℕ) : Bool :=
  containsFrom s.quads (cp &&& quadLimit) s.runs 0 (cp / quadBits)

/-- The code points of a set. -/
def UnicodeSet.members (s : UnicodeSet) : Set ℕ := {x | s.contains x = true}

@[simp] theorem and_quadLimit (cp : ℕ) : cp &&& quadLimit = cp % 32 :=
  Nat.and_two_pow_sub_one_eq_mod cp 5

theorem getLsbD_bit (k : ℕ) {b : ℕ} (hb : b < 32) :
    (1#32 <<< k).getLsbD b = decide (b = k) := by
  rw [BitVec.getLsbD_shiftLeft]
  by_cases h : b < k
  · simp [h, Nat.ne_of_lt h]
  · simp only [hb, decide_true, h, decide_false, Bool.not_false, Bool.true_and,
      BitVec.getLsbD_one]
    by_cases he : b = k
    · simp [he]
    · simp [he]
      omega

theorem test_bit (q : BitQuad) {b : ℕ} (hb : b < 32) :
    ((q &&& (1#32 <<< b)) != 0) = q.getLsbD b := by
  cases hq : q.getLsbD b with
  | true =>
    rw [bne_iff_ne]
    intro h0
    have h := congrArg (fun v ↦ v.getLsbD b) h0
    simp [hq, getLsbD_bit b hb] at h
  | false =>
    rw [bne_eq_false_iff_eq]
    apply BitVec.eq_of_getLsbD_eq
    intro i hi
    rw [BitVec.getLsbD_and, getLsbD_bit b hi]
    by_cases h : i = b
    · simp [h, hq]
    · simp [h]

theorem getLsbD_fullQuadMask {b : ℕ} (hb : b < 32) : fullQuadMask.getLsbD b = true := by
  rw [fullQuadMask, BitVec.getLsbD_allOnes, decide_eq_true hb]

theorem containsFrom_eq (quads : List BitQuad) {bit : ℕ} (hb : bit < 32) (rs : List run_t)
    (quadIndex offset : ℕ) (h : literals fill rs ≤ (quads.drop quadIndex).length) :
    containsFrom quads bit rs quadIndex offset =
      ((decode fill rs (quads.drop quadIndex))[offset]?.getD 0).getLsbD bit := by
  induction rs generalizing quadIndex offset with
  | nil => simp [containsFrom]
  | cons r rs ih =>
    rcases r with ⟨k, n⟩
    cases k with
    | Mixed =>
      simp only [literals_cons, fill, Option.isNone_none, if_true] at h
      rw [decode_cons_none fill_mixed]
      by_cases ho : offset < n
      · simp only [containsFrom, lengthOf, typeOf, ho, if_true]
        rw [test_bit _ hb, List.getElem?_append_left (by simp only [List.length_take]; omega),
          List.getElem?_take, if_pos ho, List.getElem?_drop, List.getD_eq_getElem?_getD]
      · simp only [containsFrom, lengthOf, typeOf, ho, if_true, if_false]
        rw [ih _ _ (by rw [← List.drop_drop, List.length_drop]; omega),
          List.getElem?_append_right (by simp only [List.length_take]; omega),
          List.length_take, min_eq_left (by omega), List.drop_drop]
    | Empty | Full =>
      simp only [literals_cons, fill, Option.isNone_some, Bool.false_eq_true, if_false,
        Nat.zero_add] at h
      first | rw [decode_cons_some fill_empty] | rw [decode_cons_some fill_full]
      by_cases ho : offset < n
      · simp only [containsFrom, lengthOf, typeOf, ho, if_true, reduceCtorEq, if_false]
        rw [List.getElem?_append_left (by simpa using ho), List.getElem?_replicate, if_pos ho]
        simp [getLsbD_fullQuadMask hb]
      · simp only [containsFrom, lengthOf, typeOf, ho, if_false, reduceCtorEq]
        rw [ih _ _ h, List.getElem?_append_right (by simp; omega), List.length_replicate]

theorem UnicodeSet.contains_eq {s : UnicodeSet} (h : Verified s.runs s.quads) (cp : ℕ) :
    s.contains cp = (s.cells[cp / 32]?.getD 0).getLsbD (cp % 32) := by
  rw [contains, and_quadLimit, containsFrom_eq _ (Nat.mod_lt _ (by decide)) _ _ _
    (by simpa using h.literals.le), List.drop_zero]
  rfl

theorem Verified.length_cells {rs : List run_t} {qs : List BitQuad} (h : Verified rs qs) :
    (decode fill rs qs).length = unicodeQuadCount := by
  rw [length_decode h.literals.le, h.total]

theorem UnicodeSet.not_contains_of_gt {s : UnicodeSet} (h : Verified s.runs s.quads) {cp : ℕ}
    (hcp : unicodeMax < cp) : s.contains cp = false := by
  rw [contains_eq h, List.getElem?_eq_none]
  · simp
  · have hl : s.cells.length = unicodeQuadCount := h.length_cells
    rw [hl]
    simp only [unicodeQuadCount, unicodeMax, quadBits] at hcp ⊢
    omega

/-- Two verified sets have the same members iff all their quads agree. -/
theorem UnicodeSet.cells_eq_iff {s t : UnicodeSet} (hs : Verified s.runs s.quads)
    (ht : Verified t.runs t.quads) : s.cells = t.cells ↔ ∀ x, s.contains x = t.contains x := by
  have hls : s.cells.length = unicodeQuadCount := hs.length_cells
  have hlt : t.cells.length = unicodeQuadCount := ht.length_cells
  constructor
  · intro h x
    rw [contains_eq hs, contains_eq ht, h]
  · intro h
    apply List.ext_getElem (by rw [hls, hlt])
    intro i hi hi'
    apply BitVec.eq_of_getLsbD_eq
    intro b hb
    have hx := h (32 * i + b)
    rw [contains_eq hs, contains_eq ht, show (32 * i + b) / 32 = i by omega,
      show (32 * i + b) % 32 = b by omega, List.getElem?_eq_getElem hi,
      List.getElem?_eq_getElem hi'] at hx
    simpa using hx

theorem UnicodeSet.le_of_mem {s : UnicodeSet} (h : Verified s.runs s.quads) {x : ℕ}
    (hx : x ∈ s.members) : x ≤ unicodeMax := by
  by_contra hlt
  have hc := not_contains_of_gt h (not_le.mp hlt)
  simp only [members, Set.mem_ofPred_eq, hc, Bool.false_eq_true] at hx

/-- The quad of the set at an index of the code space. -/
def UnicodeSet.quadAt (s : UnicodeSet) (i : ℕ) : BitQuad := s.cells.getD i 0

theorem UnicodeSet.mem_iff_quadAt {s : UnicodeSet} (h : Verified s.runs s.quads) (x : ℕ) :
    x ∈ s.members ↔ (s.quadAt (x / 32)).getLsbD (x % 32) = true := by
  rw [quadAt, List.getD_eq_getElem?_getD, ← contains_eq h]
  rfl

/-- A verified set has the given members iff its quads have the bits they ask for. -/
theorem UnicodeSet.members_eq_iff {s : UnicodeSet} (h : Verified s.runs s.quads)
    {cells : List BitQuad} (hl : cells.length = unicodeQuadCount) {xs : Set ℕ}
    (hle : ∀ x ∈ xs, x ≤ unicodeMax)
    (hx : ∀ x ≤ unicodeMax, x ∈ xs ↔ (cells.getD (x / 32) 0).getLsbD (x % 32) = true) :
    s.members = xs ↔ s.cells = cells := by
  have hls : s.cells.length = unicodeQuadCount := h.length_cells
  constructor
  · rintro rfl
    apply List.ext_getElem (hls.trans hl.symm)
    intro i hi hi'
    apply BitVec.eq_of_getLsbD_eq
    intro b hb
    have hmax : 32 * i + b ≤ unicodeMax := by
      rw [hl] at hi'
      simp only [unicodeQuadCount, unicodeMax, quadBits] at hi' ⊢
      omega
    have hiff := (mem_iff_quadAt h (32 * i + b)).symm.trans (hx _ hmax)
    rw [show (32 * i + b) / 32 = i by omega, show (32 * i + b) % 32 = b by omega, quadAt,
      List.getD_eq_getElem _ _ hi, List.getD_eq_getElem _ _ hi', Bool.coe_iff_coe] at hiff
    exact hiff
  · intro hc
    ext x
    constructor
    · intro hm
      rw [hx x (le_of_mem h hm), ← hc]
      exact (mem_iff_quadAt h x).mp hm
    · intro hm
      have hb := (hx x (hle x hm)).mp hm
      rw [← hc] at hb
      exact (mem_iff_quadAt h x).mpr hb

end Contains

end Parabix.UCD
