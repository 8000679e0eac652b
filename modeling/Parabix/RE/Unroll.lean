import Parabix.RE.ConstructorsExact

namespace Parabix.RE

open Library Library.Powers UCD

section Operations

def reducedLB (lb : ℤ) : ℤ := if lb = 0 then lb else lb - 1

def reducedUB (ub : ℤ) : ℤ := if ub = UNBOUNDED_REP then ub else ub - 1

/-- One copy of the repeated expression is joined with the other repetitions. -/
def unroll (join : RE → RE → List RE) (e : RE) (lb ub : ℤ) : Except Fault RE :=
  if ub = 0 then
    makeAlt []
  else do
    let reduced ← makeRep e (reducedLB lb) (reducedUB ub)
    let unrolled := makeSeq (join e reduced)
    if lb = 0 then
      makeAlt [makeSeq [], unrolled]
    else
      return unrolled

def unrollFirst : RE → ℤ → ℤ → Except Fault RE := unroll fun e reduced ↦ [e, reduced]

def unrollLast : RE → ℤ → ℤ → Except Fault RE := unroll fun e reduced ↦ [reduced, e]

/-- There is a copy to take out. The other repetitions of a repetition can be had, or there are none
of an unbounded one; and so can those of a repetition alone in a sequence, which is what remains of
the copy. -/
structure UnrollReady (e : RE) (lb ub : ℤ) : Prop where
  ub_ne : ub ≠ 0
  nested : ∀ re l u, e = rep re l u → RepSafe (.rep re.outline l u) (reducedLB lb) (reducedUB ub) ∨
    u = UNBOUNDED_REP ∧ reducedLB lb = 0 ∧ reducedUB ub = 0
  alone : ∀ re u, e = seq [rep re 0 u] → lb = 0 → ub = 1 → u ≠ 0 ∧ RepSafe re.outline 1 u

end Operations

section Reduced

variable {K : Type*} [CompleteBooleanAlgebra K] [Monoid K] [IsQuantale K] {M : Meaning K}
  {e re reduced r : RE} {l u lb ub : ℤ}

theorem bounds_reduced (hb : Bounds lb ub) : Bounds (reducedLB lb) (reducedUB ub) := by
  obtain ⟨hnonneg, hlt, hle, hlt'⟩ := hb
  simp only [reducedLB, reducedUB]
  rw [UNBOUNDED_REP] at hle ⊢
  refine ⟨?_, ?_, ?_, ?_⟩
  · split_ifs <;> omega
  · split_ifs <;> omega
  · rw [UNBOUNDED_REP]
    split_ifs <;> omega
  · split_ifs <;> omega

/-- One more than the other repetitions, or none where that is allowed. -/
theorem counts_reduced (hb : Bounds lb ub) (hub : ub ≠ 0) : counts lb ub =
    Nat.succ '' counts (reducedLB lb) (reducedUB ub) ∪ if lb = 0 then {0} else ∅ := by
  obtain ⟨hnonneg, hlt, hle, hlt'⟩ := hb
  ext n
  simp only [counts, reducedLB, reducedUB]
  rw [UNBOUNDED_REP] at hle ⊢
  rw [Set.mem_union, Set.mem_image, Set.mem_ofPred_eq]
  constructor
  · rintro ⟨hlow, hhigh⟩
    cases n with
    | zero =>
      right
      rw [if_pos (by omega)]
      rfl
    | succ n =>
      refine .inl ⟨n, ⟨?_, ?_⟩, rfl⟩
      · split_ifs <;> omega
      · split_ifs <;> omega
  · rintro (⟨k, ⟨hlow, hhigh⟩, rfl⟩ | hzero)
    · constructor
      · split_ifs at hlow <;> omega
      · split_ifs at hhigh <;> omega
    · split_ifs at hzero with hlb
      · rw [Set.mem_singleton_iff.1 hzero]
        exact ⟨hlb.le, by omega⟩
      · exact hzero.elim

theorem mul_powers (a : K) (s : Set ℕ) : a * powers a s = powers a (Nat.succ '' s) := by
  have hone := powers_mul a {1} s
  rw [powers_singleton, pow_one] at hone
  rw [hone]
  congr 1
  ext n
  simp [Nat.add_comm 1, eq_comm]

theorem powers_mul_one (a : K) (s : Set ℕ) : powers a s * a = powers a (Nat.succ '' s) := by
  have hone := powers_mul a s {1}
  rw [powers_singleton, pow_one] at hone
  rw [hone]
  congr 1
  ext n
  simp [eq_comm]

/-- With the copy taken out the other repetitions are the right ones, though without it they may not
be: no copy of the empty set is left over, and an unbounded repetition takes up more of its own. -/
structure Completes (M : Meaning K) (e : RE) (lb ub : ℤ) (reduced : RE) : Prop where
  valid : reduced.Valid
  first : denote M e * denote M reduced =
    denote M e * powers (denote M e) (counts (reducedLB lb) (reducedUB ub))
  last : denote M reduced * denote M e =
    powers (denote M e) (counts (reducedLB lb) (reducedUB ub)) * denote M e

omit [IsQuantale K] in
theorem Completes.of_repeats
    (h : Repeats M e (reducedLB lb) (reducedUB ub) (.ok reduced)) : Completes M e lb ub reduced := by
  obtain ⟨r, hr, hvalid, hdenote⟩ := h
  cases hr
  exact ⟨hvalid, by rw [hdenote], by rw [hdenote]⟩

/-- An unbounded repetition takes up all more of its own. -/
theorem unbounded_completes (hr : re.Valid) (hb : Bounds l UNBOUNDED_REP)
    (hlb : reducedLB lb = 0) (hub : reducedUB ub = 0) :
    Completes M (rep re l UNBOUNDED_REP) lb ub (rep re 0 UNBOUNDED_REP) := by
  obtain ⟨k, rfl⟩ := Int.eq_ofNat_of_zero_le hb.nonneg
  have hnone : powers (denote M (rep re k UNBOUNDED_REP)) (counts 0 0) = 1 := by
    rw [show counts 0 0 = Set.Icc 0 0 from counts_nat 0 0, Set.Icc_self, powers_singleton, pow_zero]
  have hall : counts 0 UNBOUNDED_REP = Set.Ici 0 := counts_unbounded 0
  refine ⟨.rep hr ⟨Int.le_refl 0, by decide, .inl rfl, hb.lt'⟩, ?_, ?_⟩
  · rw [hlb, hub, hnone, mul_one, denote, denote, powers_mul, hall, counts_unbounded]
    refine congrArg (powers (denote M re)) (Set.ext fun n ↦ ⟨?_, fun hn ↦ ?_⟩)
    · rintro ⟨i, hi, j, -, rfl⟩
      exact Nat.le_add_right_of_le hi
    · exact ⟨n, hn, 0, Nat.le_refl 0, rfl⟩
  · rw [hlb, hub, hnone, one_mul, denote, denote, powers_mul, hall, counts_unbounded]
    refine congrArg (powers (denote M re)) (Set.ext fun n ↦ ⟨?_, fun hn ↦ ?_⟩)
    · rintro ⟨i, -, j, hj, rfl⟩
      exact Nat.le_add_left_of_le hj
    · exact ⟨0, Nat.le_refl 0, n, hn, (Nat.zero_add n).symm⟩

theorem makeRep_completes (he : e.Valid) (hb : Bounds lb ub)
    (hready : ∀ re l u, e = rep re l u →
      RepSafe (.rep re.outline l u) (reducedLB lb) (reducedUB ub) ∨
        u = UNBOUNDED_REP ∧ reducedLB lb = 0 ∧ reducedUB ub = 0) :
    ∃ reduced, makeRep e (reducedLB lb) (reducedUB ub) = .ok reduced ∧
      Completes M e lb ub reduced := by
  have hb' := bounds_reduced hb
  by_cases hset : e.isEmptySet = true
  · refine ⟨e, ?_, he, ?_, ?_⟩
    · rw [makeRep, makeRepFuel_eq 1 hb', if_pos (.inl hset)]
    · rw [denote_emptySet he hset, Quantale.bot_mul, Quantale.bot_mul]
    · rw [denote_emptySet he hset, Quantale.mul_bot, Quantale.mul_bot]
  have hsafe (h : RepSafe e.outline (reducedLB lb) (reducedUB ub)) :
      ∃ reduced, makeRep e (reducedLB lb) (reducedUB ub) = .ok reduced ∧
        Completes M e lb ub reduced := by
    obtain ⟨reduced, hreduced, hrest⟩ := makeRep_repeats (M := M) he hb' h
    exact ⟨reduced, hreduced, .of_repeats ⟨reduced, rfl, hrest⟩⟩
  cases he with
  | @rep r l u hr hb₀ =>
    obtain h | ⟨rfl, hlb, hub⟩ := hready r l u rfl
    · exact hsafe h
    · have hfits : Combines l UNBOUNDED_REP 0 0 := ⟨by simp [FitsInt], fun h ↦ absurd rfl h⟩
      refine ⟨rep r 0 UNBOUNDED_REP, ?_, unbounded_completes hr hb₀ hlb hub⟩
      rw [makeRep, makeRepFuel_rep 1 hb', hlb, hub, repeatRep, if_pos rfl, combineRep_ok hfits,
        Int.mul_zero, combinedUB, if_pos (.inl rfl)]
  | @alt elems _ =>
    cases elems with
    | nil => exact absurd rfl hset
    | cons => exact hsafe trivial
  | @cc c _ =>
    have hne : ¬c.set.empty = true := hset
    apply hsafe
    rw [outline, if_neg hne]
    trivial
  | @seq elems _ => cases elems <;> exact hsafe trivial
  | _ => exact hsafe trivial

/-- No other call of the constructor returns. -/
theorem ready_of_makeRep_eq_ok (he : e.Valid) (hb : Bounds lb ub)
    (h : makeRep e (reducedLB lb) (reducedUB ub) = .ok reduced) : ∀ re l u, e = rep re l u →
      RepSafe (.rep re.outline l u) (reducedLB lb) (reducedUB ub) ∨
        u = UNBOUNDED_REP ∧ reducedLB lb = 0 ∧ reducedUB ub = 0 := by
  rintro re l u rfl
  cases he with
  | rep hr hb₀ =>
    by_cases hzero : u = UNBOUNDED_REP ∧ reducedLB lb = 0 ∧ reducedUB ub = 0
    · exact .inr hzero
    · exact .inl (safe_of_makeRep_eq_ok hb₀ (bounds_reduced hb) h hzero)

end Reduced

section Alone

variable {e re reduced : RE} {items newSeq : List RE} {l u ub : ℤ}

theorem pushSeq_eq_rep (h : pushSeq newSeq items = rep re l u) :
    newSeq ++ items.flatMap nestedItems = [rep re l u] := by
  induction items generalizing newSeq with
  | nil =>
    rw [List.flatMap_nil, List.append_nil]
    rw [pushSeq] at h
    cases newSeq with
    | nil => cases h
    | cons e rest =>
      cases rest with
      | nil => exact congrArg (fun x ↦ [x]) h
      | cons => cases h
  | cons item items ih =>
    rw [pushSeq] at h
    split_ifs at h with hempty
    · rw [h] at hempty
      cases hempty
    · rw [List.flatMap_cons, ← List.append_assoc]
      exact ih h

theorem eq_seq_of_nestedItems (h : e.nestedItems = items) (hne : ∀ x, items ≠ [x]) :
    e = seq items := by
  cases e with
  | seq nestedSeq => exact congrArg seq h
  | _ => exact absurd h.symm (hne _)

/-- A repetition that may be left out stays one. -/
theorem makeRep_rep_zero (hub : Bounds 0 ub) (h : makeRep (rep re 0 u) 0 ub = .ok (seq [])) :
    False := by
  have hcombine (lb : ℤ) : combineRep re 0 u lb ub ≠ .ok (seq []) := by
    intro heq
    rw [combineRep_ok (combineRep_eq_ok heq)] at heq
    cases heq
  rw [makeRep, makeRepFuel_rep 1 hub, repeatRep] at h
  by_cases heq : 0 = ub
  · rw [if_pos heq] at h
    exact hcombine 0 h
  rw [if_neg heq] at h
  by_cases hu : u = UNBOUNDED_REP
  · rw [if_pos hu, if_pos rfl] at h
    cases h
  rw [if_neg hu] at h
  by_cases hlt : 0 < u
  · have hnone : (u - 2).tdiv (u - 0) ≤ 0 := by
      obtain rfl | htwo : u = 1 ∨ 2 ≤ u := by omega
      · decide
      · rw [Int.sub_zero, Int.tdiv_eq_ediv_of_nonneg (by omega),
          Int.ediv_eq_zero_of_lt (by omega) (by omega)]
    rw [if_pos hlt, if_pos hnone] at h
    exact hcombine 0 h
  · rw [if_neg hlt] at h
    cases h

/-- What is left of a copy is a repetition only where it is alone in a sequence. -/
theorem alone_of_makeRep (hub : Bounds 0 ub) (h : makeRep e 0 ub = .ok reduced)
    (hitems : e.nestedItems = [] ∧ reduced.nestedItems = [rep re 0 u] ∨
      e.nestedItems = [rep re 0 u] ∧ reduced.nestedItems = []) :
    e = seq [rep re 0 u] ∧ ub = 0 := by
  obtain ⟨hnone, hone⟩ | ⟨hone, hnone⟩ := hitems
  · rw [eq_seq_of_nestedItems hnone fun x ↦ (List.cons_ne_nil x []).symm] at h
    rw [makeRep, makeRepFuel_eq 1 hub, if_pos (.inr rfl)] at h
    cases h
    cases hone
  · rw [eq_seq_of_nestedItems hnone fun x ↦ (List.cons_ne_nil x []).symm] at h
    cases e with
    | rep re' l u' =>
      cases hone
      exact (makeRep_rep_zero hub h).elim
    | seq nestedSeq =>
      cases show nestedSeq = [rep re 0 u] from hone
      refine ⟨rfl, ?_⟩
      rw [makeRep, makeRepFuel_eq 1 hub, if_neg (by simp [isEmptySet, isEmptySeq])] at h
      change (if _ then _ else _) = _ at h
      split_ifs at h with hzero hone'
      · exact hzero.2
      · exact absurd hone'.1 (by decide)
      · cases h
    | _ => cases hone

end Alone

section Exact

variable {K : Type*} [CompleteBooleanAlgebra K] [Monoid K] [IsQuantale K] {M : Meaning K}
  {join : RE → RE → List RE} {e re reduced : RE} {u lb ub : ℤ}

/-- The copy comes before the other repetitions or after them. -/
def Joins (join : RE → RE → List RE) : Prop :=
  (∀ e reduced, join e reduced = [e, reduced]) ∨ ∀ e reduced, join e reduced = [reduced, e]

theorem Joins.valid (hjoin : Joins join) (he : e.Valid) (hr : reduced.Valid) :
    ∀ x ∈ join e reduced, x.Valid := by
  obtain h | h := hjoin <;> rw [h] <;> simp [he, hr]

theorem Joins.denoteSeq (hjoin : Joins join) (h : Completes M e lb ub reduced) :
    RE.denoteSeq M (join e reduced) =
      powers (denote M e) (Nat.succ '' counts (reducedLB lb) (reducedUB ub)) := by
  obtain hfirst | hlast := hjoin
  · rw [hfirst, RE.denoteSeq, denoteSeq_singleton, h.first, mul_powers]
  · rw [hlast, RE.denoteSeq, denoteSeq_singleton, h.last, powers_mul_one]

theorem Joins.alone (hjoin : Joins join) (hub : Bounds 0 ub) (h : makeRep e 0 ub = .ok reduced)
    (hrep : makeSeq (join e reduced) = rep re 0 u) : e = seq [rep re 0 u] ∧ ub = 0 := by
  have hitems := pushSeq_eq_rep hrep
  obtain hfirst | hlast := hjoin
  · rw [hfirst, List.nil_append, List.flatMap_cons, List.flatMap_singleton,
      List.append_eq_singleton_iff] at hitems
    exact alone_of_makeRep hub h hitems
  · rw [hlast, List.nil_append, List.flatMap_cons, List.flatMap_singleton,
      List.append_eq_singleton_iff] at hitems
    exact alone_of_makeRep hub h (hitems.symm.imp And.symm And.symm)

theorem Joins.makeSeq_alone (hjoin : Joins join) :
    makeSeq (join (seq [rep re 0 u]) (seq [])) = rep re 0 u := by
  obtain h | h := hjoin <;> rw [h] <;> rfl

theorem unroll_exact [Nontrivial K] (M : Meaning K) (hjoin : Joins join) (he : e.Valid)
    (hb : Bounds lb ub) :
    (∃ r, unroll join e lb ub = .ok r ∧ r.Valid ∧ denote M r = denote M (rep e lb ub)) ↔
      UnrollReady e lb ub := by
  constructor
  · rintro ⟨r, hr, -, hdenote⟩
    have hub : ub ≠ 0 := by
      rintro rfl
      have hle := hb.le.resolve_left (by decide)
      have hone : (1 : K) ≤ ⊥ := by
        cases hr
        have hzero : 0 ∈ counts lb 0 := ⟨hle, .inr (Int.le_refl 0)⟩
        exact (one_le_powers hzero).trans hdenote.ge
      have hbot (x : K) : x = ⊥ := by rw [← mul_one x, le_bot_iff.1 hone, Quantale.mul_bot]
      obtain ⟨x, y, hne⟩ := exists_pair_ne K
      exact hne ((hbot x).trans (hbot y).symm)
    rw [unroll, if_neg hub] at hr
    obtain ⟨reduced, hreduced, hr⟩ := bind_eq_ok.1 hr
    refine ⟨hub, ready_of_makeRep_eq_ok he hb hreduced, ?_⟩
    rintro re u rfl rfl rfl
    have hnone : makeRep (seq [rep re 0 u]) 0 0 = .ok (seq []) := rfl
    rw [show reducedLB 0 = 0 from rfl, show reducedUB 1 = 0 from rfl, hnone] at hreduced
    cases hreduced
    dsimp only at hr
    rw [if_pos rfl, hjoin.makeSeq_alone] at hr
    obtain ⟨found, hfound, -⟩ := bind_eq_ok.1 hr
    obtain ⟨r', hr'⟩ := makeRep_eq_ok_of_mem hfound
      (List.mem_cons_of_mem _ (List.mem_singleton_self _))
    cases he with
    | seq h =>
      cases h _ (List.mem_singleton_self _) with
      | rep hre hb₀ => exact optional_of_makeRep_eq_ok hre hb₀ hr'
  · rintro ⟨hub, hnested, halone⟩
    obtain ⟨reduced, hreduced, hcompletes⟩ := makeRep_completes (M := M) he hb hnested
    have hvalid := valid_makeSeq (hjoin.valid he hcompletes.valid)
    have hdenote := (denote_makeSeq (M := M) (hjoin.valid he hcompletes.valid)).trans
      (hjoin.denoteSeq hcompletes)
    rw [unroll, if_neg hub, hreduced, ok_bind, denote, counts_reduced hb hub]
    by_cases hlb : lb = 0
    · subst hlb
      have hoptional : ∀ x ∈ [makeSeq [], makeSeq (join e reduced)], Optional x := by
        intro x hx re u hre
        obtain rfl | hx := List.mem_cons.1 hx
        · cases hre
        · rw [List.mem_singleton.1 hx] at hre
          obtain ⟨hseq, hzero⟩ := hjoin.alone (bounds_reduced hb) hreduced hre
          refine halone re u hseq rfl ?_
          rw [reducedUB] at hzero
          split_ifs at hzero with hunbounded
          · exact absurd hzero hub
          · omega
      have hall : ∀ x ∈ [makeSeq [], makeSeq (join e reduced)], x.Valid := by
        intro x hx
        obtain rfl | hx := List.mem_cons.1 hx
        · exact valid_makeSeq (List.forall_mem_nil _)
        · rw [List.mem_singleton.1 hx]
          exact hvalid
      obtain ⟨r, hr, hvalid', hdenote'⟩ := makeAltWith_spec (M := M) hall
        fun x hx ↦ (hoptional x hx).altReady (hall x hx)
      refine ⟨r, hr, hvalid', ?_⟩
      rw [hdenote', denoteAlt, denoteAlt_singleton, hdenote, if_pos rfl, powers_union,
        powers_singleton, pow_zero, sup_comm, denote_makeSeq (List.forall_mem_nil _),
        RE.denoteSeq]
    · dsimp only
      rw [if_neg hlb, if_neg hlb, Set.union_empty]
      exact ⟨_, rfl, hvalid, hdenote⟩

end Exact

/-- One copy of the repeated expression is taken out in front or at the end under the condition, and
under no other, for every meaning of the leaves. -/
theorem unrollFirst_unrollLast_exact {K : Type*} [CompleteBooleanAlgebra K] [Monoid K]
    [IsQuantale K] [Nontrivial K] (M : Meaning K) {e : RE} {lb ub : ℤ} (he : e.Valid)
    (hb : Bounds lb ub) :
    ((∃ r, unrollFirst e lb ub = .ok r ∧ r.Valid ∧ denote M r = denote M (rep e lb ub)) ↔
      UnrollReady e lb ub) ∧
    ((∃ r, unrollLast e lb ub = .ok r ∧ r.Valid ∧ denote M r = denote M (rep e lb ub)) ↔
      UnrollReady e lb ub) :=
  ⟨unroll_exact M (.inl fun _ _ ↦ rfl) he hb, unroll_exact M (.inr fun _ _ ↦ rfl) he hb⟩

/-- `a{0,3}` is unrolled. -/
theorem unrollFirst_exact_letter : ∃ r, unrollFirst (letter 97) 0 3 = .ok r ∧ r.Valid ∧
    denote words r = denote words (rep (letter 97) 0 3) := by
  refine (unrollFirst_unrollLast_exact words (letter_valid (by decide))
    ⟨by decide, by decide, .inr (by decide), by decide⟩).1.2 ⟨by decide, ?_, ?_⟩
  · rintro re l u h
    cases h
  · rintro re u h
    cases h

/-- A repetition zero times becomes the empty set, and `(a{2,3}){0,2}` stops the constructor. -/
theorem unrollFirst_never :
    (¬ ∃ r, unrollFirst (letter 97) 0 0 = .ok r ∧ denote words r =
      denote words (rep (letter 97) 0 0)) ∧
    unrollFirst (rep (letter 97) 2 3) 0 2 =
      .error (.fatal "lower bound cannot exceed upper bound") := by
  refine ⟨?_, rfl⟩
  rintro ⟨r, hr, hdenote⟩
  cases hr
  have hzero : 0 ∈ counts 0 0 := ⟨le_rfl, .inr (by decide)⟩
  have hone : (1 : Language ℕ) ≤ ⊥ := (one_le_powers hzero).trans hdenote.ge
  exact hone (show [] ∈ (1 : Language ℕ) from rfl)

end Parabix.RE
