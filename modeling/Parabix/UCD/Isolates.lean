import Parabix.UCD.Comparison
import Parabix.UCD.InsertMembers
import Parabix.UCD.Intervals
import Parabix.UCD.Operators

namespace Parabix.UCD

open Library Library.RunLength

def UnicodeSet.insertIsolate (m : Memory) (theIsolates : UnicodeSet) (range : ℕ × ℕ) :
    Except Fault UnicodeSet :=
  if range.1 = range.2 then theIsolates.insert m range.1 else .ok theIsolates

/-- The code points of the set whose neighbours are not in it. -/
def UnicodeSet.isolates (m : Memory) (s : UnicodeSet) : Except Fault UnicodeSet := do
  (← s.intervals).foldlM (insertIsolate m) UnicodeSet.emptySet

section Owned

variable {s t : UnicodeSet} {m : Memory} {cp : ℕ}

/-- The set owns its buffers: only a buffer of quads that holds none may be missing. -/
structure Owned (s : UnicodeSet) : Prop where
  runs : s.mRunCapacity ≠ 0
  quads : s.mQuadCapacity = 0 → s.mQuadLength = 0

theorem owned_emptySet : Owned UnicodeSet.emptySet := ⟨by decide, fun _ ↦ rfl⟩

theorem Owned.insertQuad {i : ℕ} {q : BitQuad} (h : Owned s)
    (he : s.insertQuad m i q = .ok t) : Owned t := by
  unfold UnicodeSet.insertQuad at he
  simp only [] at he
  split_ifs at he with hcap
  · obtain ⟨_, -, he⟩ := bind_eq_ok.1 he
    obtain ⟨_, -, he⟩ := bind_eq_ok.1 he
    obtain ⟨_, -, he⟩ := bind_eq_ok.1 he
    cases he
    exact ⟨h.runs, fun h0 ↦ absurd h0 (Nat.succ_ne_zero _)⟩
  · obtain ⟨_, -, he⟩ := bind_eq_ok.1 he
    obtain ⟨_, -, he⟩ := bind_eq_ok.1 he
    cases he
    exact ⟨h.runs, fun h0 ↦ absurd h0 (by simp only; omega)⟩

theorem Owned.insertOwned {i : ℕ} {q : BitQuad} {b : Bool} (h : Owned s)
    (he : s.insertOwned i q = .ok (t, b)) : Owned t := by
  obtain ⟨_, -, he⟩ := bind_eq_ok.1 he
  obtain ⟨_, -, he⟩ := bind_eq_ok.1 he
  split_ifs at he
  · cases he
    exact ⟨h.runs, h.quads⟩
  · obtain ⟨_, -, he⟩ := bind_eq_ok.1 he
    cases he
    exact ⟨h.runs, fun h0 ↦ by simp only [h.quads h0]⟩

theorem Owned.openGap {k n : ℕ} (h : Owned s) (he : s.openGap m k n = .ok t) : Owned t := by
  unfold UnicodeSet.openGap at he
  simp only [] at he
  split_ifs at he with hcap
  · obtain ⟨_, -, he⟩ := bind_eq_ok.1 he
    obtain ⟨_, -, he⟩ := bind_eq_ok.1 he
    cases he
    exact ⟨by simp only; omega, h.quads⟩
  · obtain ⟨_, -, he⟩ := bind_eq_ok.1 he
    cases he
    exact ⟨h.runs, h.quads⟩

theorem Owned.splitRun {p : Place} {k : RunType} (h : Owned s)
    (he : s.splitRun m p k = .ok t) : Owned t := by
  unfold UnicodeSet.splitRun at he
  split_ifs at he with hone
  all_goals
    obtain ⟨u, hu, he⟩ := bind_eq_ok.1 he
  · cases he
    exact ⟨h.runs, h.quads⟩
  all_goals
    obtain ⟨_, -, he⟩ := bind_eq_ok.1 he
    cases he
    exact ⟨(h.openGap hu).runs, (h.openGap hu).quads⟩

theorem Owned.quadCapacity_ne_zero (h : Owned s) {i : ℕ} (w : Around s i)
    (hk : w.kind = .Mixed) : s.mQuadCapacity ≠ 0 := by
  intro hcap
  have hnone : w.preQuads ++ w.runQuads ++ w.postQuads = [] := by
    rw [← w.quads, UnicodeSet.quads, h.quads hcap, List.take_zero]
  have hruns : w.runQuads = [] := by simp_all
  have hlit := w.run.literals
  have hlt := w.offset_lt
  rw [hk, hruns, literals_cons, List.length_nil] at hlit
  simp [fill] at hlit
  omega

/-- A set that owns its buffers adds every code point. -/
theorem Owned.insertEndsWell (h : Owned s) (hw : s.WellFormed) (hmax : cp ≤ unicodeMax) :
    InsertEndsWell s cp := by
  obtain ⟨w⟩ : Nonempty (Around s (cp / 32)) := exists_around hw (index_lt hmax)
  simp only [InsertEndsWell, w.runAt_eq, typeOf_eq, lengthOf_eq, h.runs, and_false,
    not_false_eq_true, implies_true, and_true]
  cases hk : w.kind with
  | Full => trivial
  | Empty => trivial
  | Mixed => exact h.quadCapacity_ne_zero w hk

theorem Owned.insert (h : Owned s) (hw : s.WellFormed) (hmax : cp ≤ unicodeMax)
    (he : s.insert m cp = .ok t) : Owned t := by
  obtain ⟨w⟩ : Nonempty (Around s (cp / 32)) := exists_around hw (index_lt hmax)
  rw [w.insert_eq m hmax] at he
  cases hk : w.kind with
  | Full =>
    rw [hk] at he
    cases he
    exact h
  | Empty =>
    rw [hk] at he
    obtain ⟨u, hu, he⟩ := bind_eq_ok.1 he
    exact (h.insertQuad hu).splitRun he
  | Mixed =>
    rw [hk, if_neg (h.quadCapacity_ne_zero w hk)] at he
    obtain ⟨⟨u, full⟩, hu, he⟩ := bind_eq_ok.1 he
    cases full with
    | true => exact (h.insertOwned hu).splitRun he
    | false =>
      cases he
      exact h.insertOwned hu

theorem Owned.insert_spec (h : Owned s) (hw : s.WellFormed) (m : Memory) (hmax : cp ≤ unicodeMax) :
    ∃ t, s.insert m cp = .ok t ∧ Owned t ∧ t.WellFormed ∧ t.members = s.members ∪ {cp} := by
  obtain ⟨t, he, ht, -, hm⟩ := (insert_produces_iff m hw hmax).2 (h.insertEndsWell hw hmax)
  exact ⟨t, he, h.insert hw hmax he, ht, hm⟩

end Owned

section Isolates

variable {s : UnicodeSet} {m : Memory}

theorem foldlM_insertIsolate {is : List (ℕ × ℕ)} (his : ∀ i ∈ is, i.1 ≤ unicodeMax)
    (h : Owned s) (hw : s.WellFormed) :
    ∃ t, is.foldlM (UnicodeSet.insertIsolate m) s = .ok t ∧
      t.WellFormed ∧ t.members = s.members ∪ {x | (x, x) ∈ is} := by
  induction is generalizing s with
  | nil => exact ⟨s, rfl, hw, by simp⟩
  | cons i is ih =>
    obtain ⟨lo, hi⟩ := i
    have hrest : ∀ i ∈ is, i.1 ≤ unicodeMax := fun i hi ↦ his i (List.mem_cons_of_mem _ hi)
    rw [List.foldlM_cons, UnicodeSet.insertIsolate]
    by_cases heq : lo = hi
    · obtain ⟨u, hu, hou, hwu, hmu⟩ := h.insert_spec hw m (his _ List.mem_cons_self)
      obtain ⟨t, ht, hwt, hmt⟩ := ih hrest hou hwu
      refine ⟨t, by rw [if_pos heq, hu, ok_bind, ht], hwt, ?_⟩
      subst heq
      rw [hmt, hmu]
      ext x
      simp only [Set.mem_union, Set.mem_singleton_iff, Set.mem_ofPred_eq, List.mem_cons,
        Prod.mk.injEq, and_self, or_assoc]
    · obtain ⟨t, ht, hwt, hmt⟩ := ih hrest h hw
      refine ⟨t, by rw [if_neg heq, ok_bind, ht], hwt, ?_⟩
      rw [hmt]
      ext x
      have hne : ¬(x = lo ∧ x = hi) := fun hx ↦ heq (hx.1.symm.trans hx.2)
      simp [hne]

theorem isolates_spec (m : Memory) (h : s.WellFormed) : ∃ t, s.isolates m = .ok t ∧
    t.WellFormed ∧ t.members = {x | x ∈ s.members ∧ x ≤ unicodeMax ∧
      (x = 0 ∨ x - 1 ∉ s.members) ∧ (x = unicodeMax ∨ x + 1 ∉ s.members)} := by
  obtain ⟨is, his, hint⟩ := UnicodeSet.intervals_spec h.verified
  have hmax : ∀ i ∈ is, i.1 ≤ unicodeMax := by
    intro i hi
    have := hint.bounds i hi
    omega
  obtain ⟨t, ht, hw, hm⟩ := foldlM_insertIsolate (m := m) hmax owned_emptySet emptySet_wellFormed
  refine ⟨t, by rw [UnicodeSet.isolates, his, ok_bind, ht], hw, ?_⟩
  rw [hm, show UnicodeSet.emptySet.members = ∅ from members_oneRun_empty, Set.empty_union]
  ext x
  simp only [Set.mem_ofPred_eq, hint.singleton_iff (Nat.zero_le x), UnicodeSet.members,
    Nat.add_right_cancel_iff, Bool.not_eq_true, Nat.lt_succ_iff]
  exact and_left_comm

/-- The gaps of one code point. -/
theorem negatedIsolates_spec (m : Memory) (h : s.WellFormed) :
    ∃ t, s.complement.isolates m = .ok t ∧ t.WellFormed ∧ ∀ x, x ∈ t.members ↔
      x ∉ s.members ∧ x ≤ unicodeMax ∧ (x = 0 ∨ x - 1 ∈ s.members) ∧
        (x = unicodeMax ∨ x + 1 ∈ s.members) := by
  obtain ⟨_, ⟨⟩, hc, -, hmc⟩ := complement_produces h.verified
  obtain ⟨t, ht, hw, hm⟩ := isolates_spec m hc
  refine ⟨t, ht, hw, fun x ↦ ?_⟩
  rw [hm, hmc]
  simp only [Set.mem_sdiff, Set.mem_ofPred_eq]
  have hbelow (hx : x ≤ unicodeMax) : x - 1 ≤ unicodeMax := (Nat.sub_le x 1).trans hx
  have habove (hx : x ≤ unicodeMax) : x = unicodeMax ∨ x + 1 ≤ unicodeMax := by omega
  have hgap {y : ℕ} (hy : y ≤ unicodeMax) :
      ¬(y ≤ unicodeMax ∧ y ∉ s.members) ↔ y ∈ s.members := by
    rw [not_and, not_not, imp_iff_right hy]
  constructor
  · rintro ⟨⟨hx, hmem⟩, -, hleft, hright⟩
    refine ⟨hmem, hx, hleft.imp_right (hgap (hbelow hx)).1, ?_⟩
    obtain hlast | hle := habove hx
    · exact .inl hlast
    · exact hright.imp_right (hgap hle).1
  · rintro ⟨hmem, hx, hleft, hright⟩
    refine ⟨⟨hx, hmem⟩, hx, hleft.imp_right (hgap (hbelow hx)).2, ?_⟩
    exact hright.imp_right fun hnext hnot ↦ hnot.2 hnext

end Isolates

end Parabix.UCD
