import Parabix.UCD.Comparison
import Parabix.UCD.Intervals
import Parabix.UCD.Ranges

namespace Parabix.UCD

open Library Library.RunLength

/-- The set with these cells, followed by a last one. -/
def Shows (cells : List BitQuad) (mask : BitQuad) (S : Set ℕ) : Prop :=
  ∀ x, x ∈ S ↔ ((cells ++ [mask]).getD (x / 32) 0).getLsbD (x % 32) = true

namespace Shows

variable {cells : List BitQuad} {mask : BitQuad} {S : Set ℕ} {lo hi : ℕ}

theorem nil : Shows [] 0 ∅ := by
  intro x
  rw [List.nil_append]
  cases x / 32 <;> simp

theorem mem_iff (h : Shows cells 0 S) (x : ℕ) :
    x ∈ S ↔ (cells.getD (x / 32) 0).getLsbD (x % 32) = true := by
  rw [h x]
  rcases Nat.lt_or_ge (x / 32) cells.length with hlt | hge
  · rw [List.getD_append _ _ _ _ hlt]
  · rw [List.getD_eq_default _ _ hge, List.getD_append_right _ _ _ _ hge]
    cases x / 32 - cells.length <;> simp

theorem push (h : Shows cells mask S) : Shows (cells ++ [mask]) 0 S := by
  intro x
  rw [h x]
  rcases Nat.lt_or_ge (x / 32) (cells ++ [mask]).length with hlt | hge
  · rw [List.getD_append _ _ _ _ hlt]
  · rw [List.getD_eq_default _ _ hge, List.getD_append_right _ _ _ _ hge]
    cases x / 32 - (cells ++ [mask]).length <;> simp

/-- Bits are added to the last cell. -/
theorem or (h : Shows cells mask S) (q : BitQuad) :
    Shows cells (mask ||| q) (S ∪ {x | x / 32 = cells.length ∧ q.getLsbD (x % 32) = true}) := by
  intro x
  rw [Set.mem_union, h x, Set.mem_ofPred_eq]
  rcases Nat.lt_trichotomy (x / 32) cells.length with hlt | heq | hgt
  · rw [List.getD_append _ _ _ _ hlt, List.getD_append _ _ _ _ hlt]
    simp [hlt.ne]
  · rw [List.getD_append_right _ _ _ _ heq.ge, List.getD_append_right _ _ _ _ heq.ge, heq]
    simp
  · have hge (q : BitQuad) : (cells ++ [q]).length ≤ x / 32 := by
      rw [List.length_append]
      exact hgt
    rw [List.getD_eq_default _ _ (hge _), List.getD_eq_default _ _ (hge _)]
    simp [hgt.ne']

theorem set (h : Shows cells 0 S) (q : BitQuad) :
    Shows cells q (S ∪ {x | x / 32 = cells.length ∧ q.getLsbD (x % 32) = true}) := by
  have hor := h.or q
  rwa [show (0 : BitQuad) ||| q = q from BitVec.zero_or] at hor

theorem zeros (h : Shows cells 0 S) (n : ℕ) : Shows (cells ++ List.replicate n 0) 0 S := by
  induction n with
  | zero => rwa [List.replicate_zero, List.append_nil]
  | succ n ih =>
    rw [List.replicate_succ', ← List.append_assoc]
    exact ih.push

theorem fulls (h : Shows cells 0 S) (n : ℕ) : Shows (cells ++ List.replicate n fullQuadMask) 0
    (S ∪ {x | cells.length ≤ x / 32 ∧ x / 32 < cells.length + n}) := by
  induction n with
  | zero =>
    rw [List.replicate_zero, List.append_nil]
    intro x
    rw [← h x, Set.mem_union, Set.mem_ofPred_eq]
    exact or_iff_left (by omega)
  | succ n ih =>
    have hnext := (ih.set fullQuadMask).push
    rw [List.append_assoc, ← List.replicate_succ'] at hnext
    intro x
    rw [← hnext x, List.length_append, List.length_replicate]
    simp only [Set.mem_union, Set.mem_ofPred_eq, or_assoc, and_true,
      getLsbD_fullQuadMask (Nat.mod_lt x (by decide : 0 < 32))]
    exact or_congr_right (by omega)

/-- An interval inside the last cell. -/
theorem interval_one (h : Shows cells mask S) (hlo : lo / 32 = cells.length)
    (hhi : hi / 32 = cells.length) :
    Shows cells (mask ||| (loQuad lo &&& hiQuad hi)) (S ∪ Set.Icc lo hi) := by
  intro x
  rw [← h.or (loQuad lo &&& hiQuad hi) x, Set.mem_union, Set.mem_union, Set.mem_ofPred_eq,
    Set.mem_Icc, BitVec.getLsbD_and, getLsbD_loQuad lo (Nat.mod_lt x (by decide)),
    getLsbD_hiQuad, Bool.and_eq_true, decide_eq_true_eq, decide_eq_true_eq]
  exact or_congr_right (by omega)

/-- An interval that begins in the last cell and ends after it. -/
theorem interval_more (h : Shows cells mask S) (hlo : lo / 32 = cells.length)
    (hhi : cells.length < hi / 32) :
    Shows (cells ++ [mask ||| loQuad lo] ++
      List.replicate (hi / 32 - (cells.length + 1)) fullQuadMask) (hiQuad hi)
      (S ∪ Set.Icc lo hi) := by
  have hall := ((h.or (loQuad lo)).push.fulls (hi / 32 - (cells.length + 1))).set
    (hiQuad hi)
  intro x
  rw [← hall x]
  simp only [Set.mem_union, Set.mem_ofPred_eq, Set.mem_Icc, or_assoc, List.length_append,
    List.length_singleton, List.length_replicate, getLsbD_hiQuad,
    getLsbD_loQuad lo (Nat.mod_lt x (by decide : 0 < 32)), decide_eq_true_eq]
  exact or_congr_right (by omega)

end Shows

section Convert

variable {lo hi p : ℕ} {rs : List run_t} {qs : List BitQuad} {mask : BitQuad} {S : Set ℕ}
  {is : List (ℕ × ℕ)}

theorem Covers.cells_appendRun (h : Covers rs qs p) {type : RunType} {a : BitQuad}
    (ha : fill type = some a) (k : ℕ) :
    decode fill (UCD.appendRun type k rs) qs = decode fill rs qs ++ List.replicate k a := by
  obtain ⟨cs, hp, -⟩ := h.encodes
  rw [(hp.appendRun ha k).decode, hp.decode]

theorem Covers.cells_appendQuad (h : Covers rs qs p) (q : BitQuad) :
    decode fill (UCD.appendQuad q qs rs).2 (UCD.appendQuad q qs rs).1 =
      decode fill rs qs ++ [q] := by
  obtain ⟨cs, hp, -⟩ := h.encodes
  rw [(hp.appendQuad q).decode, hp.decode]

theorem Covers.length_cells (h : Covers rs qs p) : (decode fill rs qs).length = p := by
  obtain ⟨cs, hp, hlen⟩ := h.encodes
  rw [hp.decode, hlen]

/-- The mask is empty unless the interval begins in its cell. -/
theorem convertInterval_shows (hp : p ≤ lo / 32) (hd : lo / 32 ≤ hi / 32) (h : Covers rs qs p)
    (hshow : Shows (decode fill rs qs) mask S) (hmask : p = lo / 32 ∨ mask = 0) :
    Shows (decode fill (UnicodeSet.convertInterval lo hi p mask rs qs).2.2
      (UnicodeSet.convertInterval lo hi p mask rs qs).2.1)
      (UnicodeSet.convertInterval lo hi p mask rs qs).1 (S ∪ Set.Icc lo hi) := by
  have hempty := h.appendRun fill_empty (lo / 32 - p)
  rw [Nat.add_sub_cancel' hp] at hempty
  have hshow' : Shows (decode fill (appendRun .Empty (lo / 32 - p) rs) qs) mask S := by
    rw [h.cells_appendRun fill_empty]
    rcases hmask with rfl | rfl
    · rwa [Nat.sub_self, List.replicate_zero, List.append_nil]
    · exact hshow.zeros _
  have hlen := hempty.length_cells
  by_cases heq : lo / quadBits = hi / quadBits
  · simp only [UnicodeSet.convertInterval, heq, if_true]
    have hsame : hi / 32 = lo / 32 := heq.symm
    have hone := hshow'.interval_one hlen.symm (hsame.trans hlen.symm)
    rw [← hsame] at hone
    exact hone
  · simp only [UnicodeSet.convertInterval, heq, if_false]
    have hmore : lo / 32 < hi / 32 := Nat.lt_of_le_of_ne hd heq
    have hquad := hempty.appendQuad (mask ||| loQuad lo)
    have hhi : (decode fill (appendRun .Empty (lo / 32 - p) rs) qs).length < hi / 32 := by
      rwa [hlen]
    have hall := hshow'.interval_more hlen.symm hhi
    rw [hlen, ← hempty.cells_appendQuad] at hall
    exact (hquad.cells_appendRun fill_full _).symm ▸ hall

/-- The code points of a list of intervals. -/
def listed (is : List (ℕ × ℕ)) : Set ℕ := {x | ∃ i ∈ is, i.1 ≤ x ∧ x ≤ i.2}

theorem listed_cons : listed ((lo, hi) :: is) = Set.Icc lo hi ∪ listed is := by
  ext x
  simp [listed]

theorem convertIntervals_shows (ho : Ordered is) (hp : ∀ q ∈ is.head?, p ≤ q.1 / 32)
    (h : Covers rs qs p) (hshow : Shows (decode fill rs qs) mask S)
    (hmask : (∃ q ∈ is.head?, p = q.1 / 32) ∨ mask = 0) :
    Shows (decode fill (UnicodeSet.convertIntervals is p mask rs qs).2.1
      (UnicodeSet.convertIntervals is p mask rs qs).2.2) 0 (S ∪ listed is) := by
  induction is generalizing p mask rs qs S with
  | nil =>
    obtain ⟨q, hq, -⟩ | rfl := hmask
    · cases hq
    · rw [show listed [] = ∅ by simp [listed], Set.union_empty]
      exact hshow
  | cons i rest ih =>
    obtain ⟨lo, hi⟩ := i
    have hb := ho.bounds (lo, hi) (List.mem_cons_self ..)
    have hd : lo / 32 ≤ hi / 32 := Nat.div_le_div_right hb.1
    have hlo : p ≤ lo / 32 := hp (lo, hi) rfl
    have hlomask : p = lo / 32 ∨ mask = 0 := by
      refine hmask.imp_left fun hhead ↦ ?_
      obtain ⟨q, hq, hpq⟩ := hhead
      cases hq
      exact hpq
    have hc := convertInterval_covers hlo hd mask h
    have hs := convertInterval_shows hlo hd h hshow hlomask
    have htail : Ordered rest :=
      ⟨fun q hq ↦ ho.bounds q (List.mem_cons_of_mem _ hq), ho.chain.tail⟩
    rw [listed_cons, ← Set.union_assoc]
    cases rest with
    | nil =>
      have hpush := hs.push
      rw [← hc.cells_appendQuad] at hpush
      rw [show listed [] = ∅ by simp [listed], Set.union_empty]
      exact hpush
    | cons i' rest =>
      obtain ⟨lo', hi'⟩ := i'
      have hlt : hi < lo' := (List.isChain_cons_cons.1 ho.chain).1
      have hd' : hi / 32 ≤ lo' / 32 := Nat.div_le_div_right hlt.le
      rw [UnicodeSet.convertIntervals]
      by_cases heq : hi / quadBits = lo' / quadBits
      · simp only [heq, if_true]
        have hsame : hi / 32 = lo' / 32 := heq
        refine ih htail ?_ (hsame ▸ hc) hs (.inl ⟨(lo', hi'), rfl, rfl⟩)
        intro q hq
        cases hq
        exact Nat.le_refl _
      · simp only [heq, if_false]
        have hpush := hs.push
        rw [← hc.cells_appendQuad] at hpush
        refine ih htail ?_ (hc.appendQuad _) hpush (.inr rfl)
        intro q hq
        cases hq
        exact Nat.lt_of_le_of_ne hd' heq

/-- The list constructor lists the members of its set, in maximal runs. -/
theorem ofIntervals_spec (ho : Ordered is) : (UnicodeSet.ofIntervals is).WellFormed ∧
    Canonical (UnicodeSet.ofIntervals is).runs ∧
      (UnicodeSet.ofIntervals is).members = listed is := by
  obtain ⟨rs, qs, hset, hcov⟩ := ofIntervals_covers ho
  have hspec := convertIntervals_spec 0 ho (fun q _ ↦ Nat.zero_le _) (Nat.zero_le _) Covers.nil
  have hshow := convertIntervals_shows ho (fun q _ ↦ Nat.zero_le _) Covers.nil Shows.nil (.inr rfl)
  rw [Set.empty_union] at hshow
  have hcells : Shows (UnicodeSet.ofIntervals is).cells 0 (listed is) := by
    rcases hc : UnicodeSet.convertIntervals is 0 0 [] [] with ⟨p, rs, qs⟩
    rw [hc] at hshow hspec
    simp only [UnicodeSet.ofIntervals, hc]
    split_ifs
    · rw [UnicodeSet.cells_ofVectors, hspec.2.cells_appendRun fill_empty]
      exact hshow.zeros _
    · rw [UnicodeSet.cells_ofVectors]
      exact hshow
  have hwell : (UnicodeSet.ofIntervals is).WellFormed := by
    rw [hset]
    exact UnicodeSet.wellFormed_ofVectors hcov.verified
  refine ⟨hwell, ?_, ?_⟩
  · rw [hset, UnicodeSet.runs_ofVectors]
    exact hcov.canonical
  · ext x
    rw [hcells.mem_iff, UnicodeSet.mem_iff_quadAt hwell.verified, UnicodeSet.quadAt]

end Convert

section Rebuild

variable {s : UnicodeSet} {is : List (ℕ × ℕ)}

theorem ordered_of_intervals (his : Intervals s.contains (unicodeMax + 1) 0 is) : Ordered is where
  bounds i hi := ⟨(his.bounds i hi).2.1, Nat.le_of_lt_succ (his.bounds i hi).2.2⟩
  chain := his.chain

/-- A set that is built again from its own intervals has maximal runs. -/
theorem rebuild_equals_iff (h : s.WellFormed)
    (his : Intervals s.contains (unicodeMax + 1) 0 is) :
    (UnicodeSet.ofIntervals is).equals s = true ↔ Canonical s.runs := by
  obtain ⟨hwell, hcanonical, hmembers⟩ := ofIntervals_spec (ordered_of_intervals his)
  have hsame : (UnicodeSet.ofIntervals is).members = s.members := by
    rw [hmembers]
    ext x
    exact UnicodeSet.mem_intervals_iff h.verified his x
  constructor
  · intro heq
    rw [← ((equals_iff hwell h).1 heq).1]
    exact hcanonical
  · intro hruns
    exact (equals_iff_members hwell h hcanonical hruns).2 hsame

end Rebuild

end Parabix.UCD
