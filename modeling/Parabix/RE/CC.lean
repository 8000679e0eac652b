import Parabix.UCD.Operators
import Parabix.UCD.Comparison
import Parabix.UCD.Intervals

namespace Parabix.RE

open Library Library.RunLength UCD

/-- A class of the symbols of an alphabet. Alphabets are compared by address. -/
structure CC where
  set : UnicodeSet
  alphabet : ℕ
deriving DecidableEq, Repr

namespace CC

/-- The members of a class. -/
def contains (c : CC) (cp : ℕ) : Bool := c.set.contains cp

def empty (alphabet : ℕ) : CC := ⟨.emptySet, alphabet⟩

/-- The constructor asserts that the code point exists. -/
def ofCodepoint (m : Memory) (codepoint alphabet : ℕ) : Except Fault CC :=
  if codepoint ≤ unicodeMax then
    .ok ⟨.singleton m codepoint, alphabet⟩
  else
    .error (.fatal "codepoint <= UNICODE_MAX")

def copy (c : CC) : CC := ⟨c.set.copy, c.alphabet⟩

def union (cc1 cc2 : CC) : Except Fault CC :=
  if cc1.set.empty then
    .ok cc2.copy
  else if cc2.set.empty then
    .ok cc1.copy
  else do
    return ⟨← cc1.set.union cc2.set, cc1.alphabet⟩

end CC

section Members

variable {s : UnicodeSet} {m : Memory}

theorem members_emptySet : UnicodeSet.emptySet.members = ∅ := members_oneRun_empty

theorem members_of_empty (h : s.WellFormed) (he : s.empty = true) : s.members = ∅ := by
  have hone := oneRun_wellFormed (t := .Empty) (by decide)
  have heq : s.equals (oneRun .Empty) = true := by
    rw [← one_run_iff h (by decide)]
    simpa [UnicodeSet.empty] using he
  obtain ⟨hr, hq⟩ := (equals_iff h hone).1 heq
  rw [← members_oneRun_empty]
  ext x
  simp only [UnicodeSet.members, UnicodeSet.contains, hr, hq]

theorem members_copy (h : s.WellFormed) : s.copy.members = s.members := by
  ext x
  simp only [UnicodeSet.members, UnicodeSet.contains, runs_copy, quads_copy h]

theorem decode_pad (n : ℕ) (qs : List BitQuad) :
    decode fill (if n ≠ 0 then [⟨.Empty, n⟩] else []) qs = List.replicate n 0 := by
  split_ifs with h
  · simp [decode, fill]
  · simp only [ne_eq, not_not] at h
    simp [h]

theorem cells_singleton (cp : ℕ) : (UnicodeSet.singleton m cp).cells =
    List.replicate (cp / 32) 0 ++
      1#32 <<< (cp % 32) :: List.replicate (unicodeQuadCount - (cp / 32 + 1)) 0 := by
  have hlit (n : ℕ) : literals fill (if n ≠ 0 then [⟨.Empty, n⟩] else []) = 0 := by
    split_ifs <;> simp
  rw [UnicodeSet.cells, UnicodeSet.singleton, runs_construct, quads_construct,
    UnicodeSet.padded, and_quadLimit, decode_append, decode_append, decode_pad, decode_pad,
    hlit]
  simp [decode, fill, quadBits]

theorem members_singleton {cp : ℕ} (h : cp ≤ unicodeMax) :
    (UnicodeSet.singleton m cp).members = {cp} := by
  have hv := (singleton_wellFormed m h).verified
  ext x
  have hb : x % 32 < 32 := Nat.mod_lt _ (by decide)
  simp only [UnicodeSet.members, Set.mem_ofPred_eq, Set.mem_singleton_iff]
  rw [UnicodeSet.contains_eq hv, cells_singleton]
  obtain hlt | heq | hgt := Nat.lt_trichotomy (x / 32) (cp / 32)
  · rw [List.getElem?_append_left (by simpa using hlt), List.getElem?_replicate, if_pos hlt]
    simp
    omega
  · rw [heq, List.getElem?_append_right (by simp)]
    simp only [List.length_replicate, Nat.sub_self, List.getElem?_cons_zero, Option.getD_some]
    rw [getLsbD_bit _ hb, decide_eq_true_eq]
    omega
  · rw [List.getElem?_append_right (by simpa using hgt.le), List.length_replicate,
      show x / 32 - cp / 32 = (x / 32 - cp / 32 - 1) + 1 by omega, List.getElem?_cons_succ,
      List.getElem?_replicate]
    split_ifs <;> simp <;> omega

end Members

section Union

variable {c d : CC} {m : Memory}

theorem CC.empty_wellFormed (alphabet : ℕ) : (CC.empty alphabet).set.WellFormed :=
  emptySet_wellFormed

theorem CC.union_spec (hc : c.set.WellFormed) (hd : d.set.WellFormed)
    (ha : c.alphabet = d.alphabet) :
    ∃ u, c.union d = .ok u ∧ u.set.WellFormed ∧ u.alphabet = c.alphabet ∧
      u.set.members = c.set.members ∪ d.set.members := by
  unfold CC.union
  split_ifs with h1 h2
  · refine ⟨_, rfl, copy_wellFormed hd, ha.symm, ?_⟩
    rw [CC.copy, members_copy hd, members_of_empty hc h1, Set.empty_union]
  · refine ⟨_, rfl, copy_wellFormed hc, rfl, ?_⟩
    rw [CC.copy, members_copy hc, members_of_empty hd h2, Set.union_empty]
  · obtain ⟨s, he, hs, -, hm⟩ := union_produces hc.verified hd.verified
    exact ⟨⟨s, c.alphabet⟩, by rw [he, ok_bind, pure_eq_ok], hs, rfl, hm⟩

end Union

end Parabix.RE
