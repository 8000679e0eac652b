import Parabix.UCD.Canonical
import Parabix.UCD.Comparison

namespace Parabix.UCD

open Library Library.RunLength

/-- The ends of a range are not Mixed quads next to each other. -/
def RangeIsMaximal (lo hi : ℕ) : Prop :=
  ¬(hi / 32 = lo / 32 + 1 ∧ lo % 32 ≠ 0 ∧ hi % 32 ≠ 31)

/-- The sets that the constructors and the public operations give. In a guarded run every
step keeps the runs maximal. -/
inductive Reachable (guarded : Prop) : UnicodeSet → Prop
  | emptySet : Reachable guarded .emptySet
  | singleton (m : Memory) {cp : ℕ} (hmax : cp ≤ unicodeMax) :
    Reachable guarded (.singleton m cp)
  | range (m : Memory) {lo hi : ℕ} (hle : lo ≤ hi) (hmax : hi ≤ unicodeMax)
    (hg : guarded → RangeIsMaximal lo hi) : Reachable guarded (.range m lo hi)
  | ofIntervals {is : List (ℕ × ℕ)} (ho : Ordered is) : Reachable guarded (.ofIntervals is)
  | predefined {rs : List run_t} {qs : List BitQuad} (hv : Verified rs qs)
    (hg : guarded → Canonical rs) : Reachable guarded (.predefined rs qs)
  | copy {s : UnicodeSet} (hs : Reachable guarded s) : Reachable guarded s.copy
  | insert (m : Memory) {s t : UnicodeSet} {cp : ℕ} (hs : Reachable guarded s)
    (hmax : cp ≤ unicodeMax) (hg : guarded → InsertEndsWell s cp ∧ InsertKeepsRuns s cp)
    (he : s.insert m cp = .ok t) : Reachable guarded t
  | insertRange (m : Memory) {s t : UnicodeSet} {lo hi : ℕ} (hs : Reachable guarded s)
    (hle : lo ≤ hi) (hmax : hi ≤ unicodeMax)
    (hg : guarded → RangeEndsWell s lo hi ∧ RangeKeepsRuns s lo hi)
    (he : s.insertRange m lo hi = .ok t) : Reachable guarded t
  | insertSet (m : Memory) {s other t : UnicodeSet} (hs : Reachable guarded s)
    (ho : Reachable guarded other) (he : s.insertSet m other = .ok t) : Reachable guarded t
  | invert {s : UnicodeSet} (hs : Reachable guarded s) : Reachable guarded s.invert
  | complement {s : UnicodeSet} (hs : Reachable guarded s) : Reachable guarded s.complement
  | intersection {s other t : UnicodeSet} (hs : Reachable guarded s)
    (ho : Reachable guarded other) (he : s.intersection other = .ok t) : Reachable guarded t
  | union {s other t : UnicodeSet} (hs : Reachable guarded s)
    (ho : Reachable guarded other) (he : s.union other = .ok t) : Reachable guarded t
  | difference {s other t : UnicodeSet} (hs : Reachable guarded s)
    (ho : Reachable guarded other) (he : s.difference other = .ok t) : Reachable guarded t
  | symmetricDifference {s other t : UnicodeSet} (hs : Reachable guarded s)
    (ho : Reachable guarded other) (he : s.symmetricDifference other = .ok t) :
    Reachable guarded t

section Reachable

variable {a b c : UnicodeSet}

/-- A guarded run stays among the well-formed sets with maximal runs. -/
theorem Reachable.canonical (h : Reachable True a) : a.WellFormed ∧ Canonical a.runs := by
  induction h with
  | emptySet => exact ⟨emptySet_wellFormed, emptySet_canonical⟩
  | singleton m hmax => exact ⟨singleton_wellFormed m hmax, singleton_canonical m _⟩
  | range m hle hmax hg =>
    exact ⟨range_wellFormed m hle hmax, range_canonical m hle (hg trivial)⟩
  | ofIntervals ho =>
    obtain ⟨rs, qs, he, hc⟩ := ofIntervals_covers ho
    rw [he]
    refine ⟨UnicodeSet.wellFormed_ofVectors hc.verified, ?_⟩
    rw [UnicodeSet.runs_ofVectors]
    exact hc.canonical
  | predefined hv hg =>
    refine ⟨predefined_wellFormed hv, ?_⟩
    rw [UnicodeSet.runs, UnicodeSet.predefined, List.take_length]
    exact hg trivial
  | copy hs ih =>
    refine ⟨copy_wellFormed ih.1, ?_⟩
    rw [runs_copy]
    exact ih.2
  | insert m hs hmax hg he ih =>
    exact insert_canonical m ih.1 ih.2 hmax (hg trivial).1 (hg trivial).2 he
  | insertRange m hs hle hmax hg he ih =>
    exact insertRange_canonical m ih.1 ih.2 hle hmax (hg trivial).1 (hg trivial).2 he
  | insertSet m hs ho he ihs iho =>
    exact insertSet_canonical m ihs.1 iho.1.verified ihs.2 he
  | invert hs ih =>
    obtain ⟨hw, hr, -⟩ := invert_eq ih.1
    refine ⟨hw, ?_⟩
    rw [hr]
    exact complementRuns_canonical ih.2
  | complement hs ih =>
    obtain ⟨t, he, hw, -, -⟩ := complement_produces ih.1.verified
    rw [Except.ok.injEq] at he
    refine ⟨he ▸ hw, ?_⟩
    rw [UnicodeSet.complement, UnicodeSet.runs_ofVectors]
    exact complementRuns_canonical ih.2
  | intersection hs ho he ihs iho =>
    exact binary_canonical intersectionAction_computes ihs.1.verified iho.1.verified he
  | union hs ho he ihs iho =>
    exact binary_canonical unionAction_computes ihs.1.verified iho.1.verified he
  | difference hs ho he ihs iho =>
    exact binary_canonical differenceAction_computes ihs.1.verified iho.1.verified he
  | symmetricDifference hs ho he ihs iho =>
    exact binary_canonical symmetricDifferenceAction_computes ihs.1.verified iho.1.verified he

/-- The set of 1 to 32, in two runs of one Mixed quad. -/
def splitRange : UnicodeSet := .range ⟨fun _ ↦ ⟨.Empty, 0⟩, fun _ ↦ 0⟩ 1 32

end Reachable

end Parabix.UCD
