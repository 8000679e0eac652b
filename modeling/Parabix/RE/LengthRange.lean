import Parabix.RE.Expression
import Parabix.RE.RemoveEmptyExact
import Parabix.UCD.Encoder

namespace Parabix

open Library Library.Powers Library.Encoding Library.UTF8 UCD

namespace UCD.UnicodeSet

def front (s : UnicodeSet) : Except Fault (ℕ × ℕ) := do
  let it ← s.begin
  return (it.mMinCodePoint, it.mMaxCodePoint)

/-- The loop over the set keeps the last interval. -/
def back (s : UnicodeSet) : Except Fault (ℕ × ℕ) := do
  let first ← s.front
  let is ← s.intervals
  return is.getLast?.getD first

end UCD.UnicodeSet

namespace RE.Expression

open Memoization (PropertyKind Mode GroupSense)

/-- What is asked of the alphabets of classes. -/
structure Alphabets where
  isCodeUnit : ℕ → Bool
  /-- The alphabet that a multiplexed alphabet was made from, and any other alphabet itself. -/
  sourceAlphabet : ℕ → ℕ

section Lengths

/-- A sum of the type `int`. -/
def addInt (a b : ℤ) : Except Fault ℤ :=
  if -2 ^ 31 ≤ a + b ∧ a + b < 2 ^ 31 then .ok (a + b) else .error .overflow

variable (A : Alphabets) (indexAlphabet : ℕ)

def ccLengthRange (c : CC) : Except Fault (ℤ × ℤ) :=
  let alphabet := A.sourceAlphabet c.alphabet
  if A.isCodeUnit alphabet then .ok (1, 1)
  else if indexAlphabet = alphabet then .ok (1, 1)
  else if indexAlphabet = UTF8 ∧ alphabet = Unicode then do
    let front ← c.set.front
    let back ← c.set.back
    return (UTF_Encoder.encoded_length ⟨8⟩ front.1, UTF_Encoder.encoded_length ⟨8⟩ back.2)
  else .ok (1, INT_MAX)

/-- The lengths of one character of an alphabet. -/
def characterLengthRange (alphabet : ℕ) : ℤ × ℤ :=
  if indexAlphabet = alphabet then (1, 1)
  else if indexAlphabet = UTF8 then (1, 4)
  else (1, INT_MAX)

mutual

def getLengthRange : Expression → Except Fault (ℤ × ℤ)
  | alt elems => altLengthRange elems (INT_MAX, 0)
  | seq elems => seqLengthRange elems (0, 0)
  | rep re lb ub => do
    let range ← getLengthRange re
    let first ← repeatLength range.1 lb
    let second ← repeatLength range.2 ub
    return (first, second)
  | assertion _ _ _ => .ok (0, 0)
  | start => .ok (0, 0)
  | stop => .ok (0, 0)
  | diff lh _ => getLengthRange lh
  | intersect lh rh => do
    let r1 ← getLengthRange lh
    let r2 ← getLengthRange rh
    return (max r1.1 r2.1, min r1.2 r2.2)
  | cc c => ccLengthRange A indexAlphabet c
  | any alphabet => .ok (characterLengthRange indexAlphabet alphabet)
  | propertyExpression .Boundary _ _ => .ok (0, 0)
  | propertyExpression .Codepoint _ (some resolved) =>
    if indexAlphabet = Unicode then .ok (1, 1) else getLengthRange resolved
  | propertyExpression .Codepoint _ none => .ok (characterLengthRange indexAlphabet Unicode)
  | name _ (some defn) => getLengthRange defn
  | name _ none => .ok (0, INT_MAX)
  | capture _ capturedRE => getLengthRange capturedRE
  | reference _ captured _ => getLengthRange captured
  | group _ _ _ => .ok (0, INT_MAX)
  | range _ _ => .ok (0, INT_MAX)

def altLengthRange : List Expression → ℤ × ℤ → Except Fault (ℤ × ℤ)
  | [], rg => .ok rg
  | a :: elems, rg => do
    let a_range ← getLengthRange a
    altLengthRange elems (min rg.1 a_range.1, max rg.2 a_range.2)

def seqLengthRange : List Expression → ℤ × ℤ → Except Fault (ℤ × ℤ)
  | [], rg => .ok rg
  | re :: elems, rg => do
    let tmp ← getLengthRange re
    seqLengthRange elems (addLength rg.1 tmp.1, addLength rg.2 tmp.2)

end

theorem getLengthRange_diff (lh rh : Expression) :
    getLengthRange A indexAlphabet (diff lh rh) = getLengthRange A indexAlphabet lh := by
  rw [getLengthRange]

mutual

/-- The definition of a Name is read even if there is none. -/
def minMatchLength : Expression → Except Fault ℤ
  | alt elems => altMinLength elems INT_MAX
  | seq elems => seqMinLength elems 0
  | rep re lb _ =>
    if lb = 0 then .ok 0
    else do
      let length ← minMatchLength re
      mulInt lb length
  | assertion _ _ _ => .ok 0
  | diff lh _ => minMatchLength lh
  | intersect lh rh => do
    let l ← minMatchLength lh
    let r ← minMatchLength rh
    return min l r
  | any _ => .ok 1
  | cc _ => .ok 1
  | name _ (some defn) => minMatchLength defn
  | name _ none => .error .memory
  | capture _ capturedRE => minMatchLength capturedRE
  | reference _ captured _ => minMatchLength captured
  | _ => .ok 0

def altMinLength : List Expression → ℤ → Except Fault ℤ
  | [], minAltLength => .ok minAltLength
  | re :: elems, minAltLength => do
    let length ← minMatchLength re
    altMinLength elems (min minAltLength length)

def seqMinLength : List Expression → ℤ → Except Fault ℤ
  | [], minSeqLength => .ok minSeqLength
  | re :: elems, minSeqLength => do
    let length ← minMatchLength re
    seqMinLength elems (← addInt minSeqLength length)

end

mutual

/-- The lengths of alternatives are compared in characters. -/
def isFixedLength : Expression → Except Fault Bool
  | alt elems => do
    let range ← getLengthRange A Unicode (alt elems)
    return range.1 = range.2
  | seq elems => allFixedLength elems
  | rep re lb ub => if lb = ub then isFixedLength re else .ok false
  | diff lh _ => isFixedLength lh
  | intersect lh rh => do
    let fixed ← isFixedLength lh
    if fixed then return true else isFixedLength rh
  | group _ re _ => isFixedLength re
  | name _ (some defn) => isFixedLength defn
  | name _ none => .error .memory
  | capture _ capturedRE => isFixedLength capturedRE
  | reference _ captured _ => isFixedLength captured
  | _ => .ok true

def allFixedLength : List Expression → Except Fault Bool
  | [] => .ok true
  | e :: elems => do
    let fixed ← isFixedLength e
    if fixed then allFixedLength elems else return false

end

end Lengths

section Condition

variable (A : Alphabets) (index : ℕ) (M : Interpretation (Language ℕ))

/-- The strings are those of an index alphabet: a code unit and a symbol of that alphabet are of
length one, and a character is as long as its code in UTF-8. -/
structure Indexed : Prop where
  any_pos (a : ℕ) : ∀ w ∈ M.any a, 1 ≤ w.length
  any_same : ∀ w ∈ M.any index, w.length = 1
  any_utf8 (h : index = UTF8) (a : ℕ) : ∀ w ∈ M.any a, w.length ≤ 4
  boundary (n : String) : M.property .Boundary n ≤ 1
  cc_pos (a : ℕ) (s : Set ℕ) : ∀ w ∈ M.cc a s, 1 ≤ w.length
  cc_unit (a : ℕ) (h : A.isCodeUnit (A.sourceAlphabet a) = true ∨ index = A.sourceAlphabet a)
    (s : Set ℕ) : ∀ w ∈ M.cc a s, w.length = 1
  cc_utf8 (h : index = UTF8) (s : Set ℕ) : ∀ w ∈ M.cc Unicode s, ∃ x ∈ s, w.length = width x
  codepoint_pos (n : String) : ∀ w ∈ M.property .Codepoint n, 1 ≤ w.length
  codepoint_unicode (h : index = Unicode) (n : String) :
    ∀ w ∈ M.property .Codepoint n, w.length = 1
  codepoint_utf8 (h : index = UTF8) (n : String) : ∀ w ∈ M.property .Codepoint n, w.length ≤ 4
  range_unicode (h : index = Unicode) (x y : Language ℕ) : ∀ w ∈ M.range x y, w.length = 1

/-- The parts whose lengths are looked at. -/
inductive Inspects : Expression → Expression → Prop
  | self (e : Expression) : Inspects e e
  | alt {elems : List Expression} {e x : Expression} (he : e ∈ elems) (h : Inspects e x) :
    Inspects (alt elems) x
  | capture {capturedRE x : Expression} (n : String) (h : Inspects capturedRE x) :
    Inspects (capture n capturedRE) x
  | diff {lh x : Expression} (rh : Expression) (h : Inspects lh x) : Inspects (diff lh rh) x
  | intersect_left {lh x : Expression} (rh : Expression) (h : Inspects lh x) :
    Inspects (intersect lh rh) x
  | intersect_right {rh x : Expression} (lh : Expression) (h : Inspects rh x) :
    Inspects (intersect lh rh) x
  | name {defn x : Expression} (n : String) (h : Inspects defn x) :
    Inspects (name n (some defn)) x
  | property {resolved x : Expression} (n : String) (hindex : index ≠ Unicode)
    (h : Inspects resolved x) : Inspects (propertyExpression .Codepoint n (some resolved)) x
  | reference {captured x : Expression} (n : String) (i : ℕ) (h : Inspects captured x) :
    Inspects (reference n captured i) x
  | rep {re x : Expression} (lb ub : ℤ) (h : Inspects re x) : Inspects (rep re lb ub) x
  | seq {elems : List Expression} {e x : Expression} (he : e ∈ elems) (h : Inspects e x) :
    Inspects (seq elems) x

/-- The strings that an expression matches are within the range of lengths. -/
def RangeRight (e : Expression) : Prop :=
  ∃ rg, getLengthRange A index e = .ok rg ∧
    ∀ w ∈ denote M e, rg.1 ≤ (w.length : ℤ) ∧ Within rg.2 w

/-- The product of a length and a bound is of the type `int`, where one is computed. -/
def RepeatFits (length bound : ℤ) : Prop :=
  bound ≠ UNBOUNDED_REP → length < INT_MAX → FitsInt length bound

/-- No product overflows, the greatest length is not repeated from zero times on, and a class of a
multiplexed alphabet and a resolved property have the lengths that are taken for theirs. -/
def RangeReady : Expression → Prop
  | rep re lb ub => ∀ range, getLengthRange A index re = .ok range →
    (lb = 0 → range.1 ≠ INT_MAX) ∧ RepeatFits range.1 lb ∧ RepeatFits range.2 ub
  | cc c => index = UTF8 → A.isCodeUnit Unicode = false →
    A.sourceAlphabet c.alphabet = Unicode → c.alphabet ≠ Unicode →
      ∀ first last, c.set.front = .ok first → c.set.back = .ok last →
        ∀ w ∈ M.cc c.alphabet c.set.members,
          width first.1 ≤ w.length ∧ w.length ≤ width last.2
  | propertyExpression .Boundary _ (some resolved) => denote M resolved ≤ 1
  | propertyExpression .Codepoint _ (some resolved) =>
    index = Unicode → ∀ w ∈ denote M resolved, w.length = 1
  | _ => True

/-- The parts whose least lengths are looked at. -/
inductive MinInspects : Expression → Expression → Prop
  | self (e : Expression) : MinInspects e e
  | alt {elems : List Expression} {e x : Expression} (he : e ∈ elems) (h : MinInspects e x) :
    MinInspects (alt elems) x
  | capture {capturedRE x : Expression} (n : String) (h : MinInspects capturedRE x) :
    MinInspects (capture n capturedRE) x
  | diff {lh x : Expression} (rh : Expression) (h : MinInspects lh x) : MinInspects (diff lh rh) x
  | intersect_left {lh x : Expression} (rh : Expression) (h : MinInspects lh x) :
    MinInspects (intersect lh rh) x
  | intersect_right {rh x : Expression} (lh : Expression) (h : MinInspects rh x) :
    MinInspects (intersect lh rh) x
  | name {defn x : Expression} (n : String) (h : MinInspects defn x) :
    MinInspects (name n (some defn)) x
  | reference {captured x : Expression} (n : String) (i : ℕ) (h : MinInspects captured x) :
    MinInspects (reference n captured i) x
  | rep {re x : Expression} {lb : ℤ} (ub : ℤ) (hlb : lb ≠ 0) (h : MinInspects re x) :
    MinInspects (rep re lb ub) x
  | seq {elems : List Expression} {e x : Expression} (he : e ∈ elems) (h : MinInspects e x) :
    MinInspects (seq elems) x

/-- The sums of the least lengths of the items are of the type `int`. -/
def SumsFit : List Expression → ℤ → Prop
  | [], _ => True
  | e :: elems, total => ∀ length, minMatchLength e = .ok length →
    (-2 ^ 31 ≤ total + length ∧ total + length < 2 ^ 31) ∧ SumsFit elems (total + length)

/-- No sum and no product of least lengths overflows, and the Names are defined. -/
def MinReady : Expression → Prop
  | seq elems => SumsFit elems 0
  | rep re lb _ => lb ≠ 0 → ∀ length, minMatchLength re = .ok length → FitsInt lb length
  | name _ none => False
  | _ => True

/-- The parts that must be of one length. -/
inductive FixedInspects : Expression → Expression → Prop
  | self (e : Expression) : FixedInspects e e
  | capture {capturedRE x : Expression} (n : String) (h : FixedInspects capturedRE x) :
    FixedInspects (capture n capturedRE) x
  | diff {lh x : Expression} (rh : Expression) (h : FixedInspects lh x) :
    FixedInspects (diff lh rh) x
  | group {re x : Expression} (mode : Mode) (sense : GroupSense) (h : FixedInspects re x) :
    FixedInspects (group mode re sense) x
  | intersect_left {lh x : Expression} (rh : Expression) (h : FixedInspects lh x) :
    FixedInspects (intersect lh rh) x
  | intersect_right {rh x : Expression} (lh : Expression) (h : FixedInspects rh x) :
    FixedInspects (intersect lh rh) x
  | name {defn x : Expression} (n : String) (h : FixedInspects defn x) :
    FixedInspects (name n (some defn)) x
  | reference {captured x : Expression} (n : String) (i : ℕ) (h : FixedInspects captured x) :
    FixedInspects (reference n captured i) x
  | rep {re x : Expression} (lb : ℤ) (h : FixedInspects re x) : FixedInspects (rep re lb lb) x
  | seq {elems : List Expression} {e x : Expression} (he : e ∈ elems) (h : FixedInspects e x) :
    FixedInspects (seq elems) x

def OneLength (x : Language ℕ) : Prop := ∀ v ∈ x, ∀ w ∈ x, v.length = w.length

/-- The range of alternatives is right, and is not that of the unbounded lengths; classes are of
characters or of code units. -/
def FixedReady : Expression → Prop
  | alt elems => (∀ y, Inspects Unicode (alt elems) y → RangeReady A Unicode M y) ∧
    ∀ rg, getLengthRange A Unicode (alt elems) = .ok rg → rg.1 = rg.2 → rg.2 ≠ INT_MAX
  | any alphabet => Unicode = alphabet
  | cc c => A.isCodeUnit (A.sourceAlphabet c.alphabet) = true ∨
    Unicode = A.sourceAlphabet c.alphabet
  | group mode re sense =>
    OneLength (denote M re) → OneLength (M.group mode sense (denote M re))
  | propertyExpression _ _ (some resolved) => OneLength (denote M resolved)
  | _ => True

end Condition

section Classes

variable {s : UnicodeSet} {x : ℕ} {is : List (ℕ × ℕ)} {f : ℕ → Bool} {stop p : ℕ}

theorem last_le (h : Intervals f stop p is) : ∀ i ∈ is, ∀ l ∈ is.getLast?, i.2 ≤ l.2 := by
  induction h with
  | nil => exact fun i hi ↦ absurd hi List.not_mem_nil
  | @cons p lo hi is _ hle _ _ _ _ rest ih =>
    intro i hi l hl
    cases is with
    | nil =>
      obtain rfl := List.mem_singleton.1 hi
      obtain rfl := Option.some.inj hl
      exact le_rfl
    | cons next is =>
      rw [List.getLast?_cons_cons] at hl
      obtain rfl | hi := List.mem_cons.1 hi
      · have hnext := rest.bounds next (List.mem_cons_self ..)
        have hlast := ih next (List.mem_cons_self ..) l hl
        simp only
        omega
      · exact ih i hi l hl

/-- The members of a class lie between its first and its last code. -/
theorem front_back_spec (h : s.WellFormed) : ∃ first last, s.front = .ok first ∧
    s.back = .ok last ∧ ∀ x ∈ s.members, first.1 ≤ x ∧ x ≤ last.2 := by
  obtain ⟨is, his, hintervals⟩ := UnicodeSet.intervals_spec h.verified
  have hcollect := his
  rw [UnicodeSet.intervals] at hcollect
  obtain ⟨it, hbegin, hcollect⟩ := bind_eq_ok.1 hcollect
  have hfront : s.front = .ok (it.mMinCodePoint, it.mMaxCodePoint) := by
    rw [UnicodeSet.front, hbegin, ok_bind, pure_eq_ok]
  refine ⟨_, is.getLast?.getD (it.mMinCodePoint, it.mMaxCodePoint), hfront, ?_, fun x hx ↦ ?_⟩
  · rw [UnicodeSet.back, hfront, ok_bind, his, ok_bind, pure_eq_ok]
  · obtain ⟨i, hi, hle, hle'⟩ := (UnicodeSet.mem_intervals_iff h.verified hintervals x).2 hx
    constructor
    · unfold Iterator.collect at hcollect
      split_ifs at hcollect with hend
      · obtain rfl := Except.ok.inj hcollect
        cases hi
      · obtain ⟨it', -, hcollect⟩ := bind_eq_ok.1 hcollect
        obtain ⟨rest, -, hcollect⟩ := bind_eq_ok.1 hcollect
        obtain rfl := Except.ok.inj hcollect
        cases hintervals with
        | cons _ hlohi _ _ _ _ hrest =>
          obtain rfl | hi := List.mem_cons.1 hi
          · exact hle
          · have hbound := hrest.bounds i hi
            simp only
            omega
    · cases hlast : is.getLast? with
      | none =>
        rw [List.getLast?_eq_none_iff.1 hlast] at hi
        cases hi
      | some l =>
        have hil := last_le hintervals i hi l hlast
        simp only [Option.getD_some]
        omega

end Classes

end RE.Expression

end Parabix
