import Parabix.UCD.InsertMembers
import Parabix.UCD.Operators
import Parabix.UCD.RangeMembers

namespace Parabix.UCD

open Library Library.RunLength

section Operators

variable {s t r : UnicodeSet} {g : BitQuad → BitQuad → BitQuad}
  {c : BitQuad → BitQuad → Bool} {action : RunType → RunType → Action}

theorem binary_canonical (ha : ∀ t1 t2, (action t1 t2).Computes g c t1 t2)
    (hs : Verified s.runs s.quads) (ht : Verified t.runs t.quads)
    (he : UnicodeSet.binary action s t = .ok r) : r.WellFormed ∧ Canonical r.runs := by
  obtain ⟨acc, hm, hh⟩ := mergeSets_spec ha hs ht
  have hls : s.cells.length = unicodeQuadCount := hs.length_cells
  have hlt : t.cells.length = unicodeQuadCount := ht.length_cells
  simp only [UnicodeSet.binary, hm, ok_bind, pure_eq_ok, Except.ok.injEq] at he
  subst he
  refine ⟨UnicodeSet.wellFormed_ofVectors (hh.toPrefix.verified (by simp [hls, hlt])), ?_⟩
  simpa using hh.canonical

theorem insertSet_canonical (m : Memory) (hs : s.WellFormed) (ht : Verified t.runs t.quads)
    (hc : Canonical s.runs) (he : s.insertSet m t = .ok r) : r.WellFormed ∧ Canonical r.runs := by
  obtain ⟨r', he', hw, -, -⟩ := insertSet_produces m hs ht
  rw [he, Except.ok.injEq] at he'
  subst he'
  refine ⟨hw, ?_⟩
  obtain ⟨acc, hm, hh⟩ := mergeSets_spec insertAction_computes hs.verified ht
  simp only [UnicodeSet.insertSet, hm, ok_bind] at he
  cases hch : acc.changed with
  | true =>
    obtain ⟨r', he', hr', -, -⟩ :=
      assign_eq m hs.run_capacity_le hs.quad_capacity_le acc.runs acc.quads
    simp only [hch, if_true, he', Except.ok.injEq] at he
    rw [← he, hr']
    exact hh.canonical
  | false =>
    simp only [hch, Bool.false_eq_true, if_false, pure_eq_ok, Except.ok.injEq] at he
    rw [← he]
    exact hc

theorem complementType_injective : Function.Injective UnicodeSet.complementType := by
  intro a b h
  cases a <;> cases b <;> first | rfl | cases h

theorem complementRuns_canonical {rs : List run_t} (h : Canonical rs) :
    Canonical (UnicodeSet.complementRuns rs) := h.map complementType_injective

end Operators

section Insert

variable {s t : UnicodeSet} {cp : ℕ}

/-- The quad of `cp` keeps its kind, or no neighbour has the kind that it gets. -/
def InsertKeepsRuns (s : UnicodeSet) (cp : ℕ) : Prop :=
  kindOf (s.quadWith cp) = kindOf (s.quadAt (cp / 32)) ∨
  ∀ j < unicodeQuadCount, j + 1 = cp / 32 ∨ j = cp / 32 + 1 →
    kindOf (s.quadAt j) ≠ kindOf (s.quadWith cp)

theorem kinds_eq (h : Verified s.runs s.quads) : kinds s.runs = s.cells.map kindOf :=
  (Prefix.of_verified h).kinds

theorem kindOf_quadAt {i : ℕ} {k : RunType} (hk : (s.cells.map kindOf)[i]? = some k) :
    kindOf (s.quadAt i) = k := by
  rw [List.getElem?_map, Option.map_eq_some_iff] at hk
  obtain ⟨q, hq, rfl⟩ := hk
  rw [UnicodeSet.quadAt, List.getD_eq_getElem?_getD, hq, Option.getD_some]

theorem canonical_stretch {k : RunType} {n : ℕ} {rs : List run_t} (j : ℕ)
    (h : Canonical (⟨k, n⟩ :: rs)) : Canonical ((if j ≠ 0 then [⟨k, j⟩] else []) ++ rs) := by
  split_ifs with hj
  · refine ⟨?_, ?_⟩
    · simp only [List.cons_append, List.nil_append, List.mem_cons, forall_eq_or_imp]
      exact ⟨Nat.pos_of_ne_zero hj, h.tail.pos⟩
    · have hc := h.chain
      cases rs with
      | nil => simp
      | cons r rs => simpa using hc
  · exact h.tail

theorem kinds_stretch (k : RunType) (j : ℕ) :
    kinds (if j ≠ 0 then [(⟨k, j⟩ : run_t)] else []) = List.replicate j k := by
  split_ifs with hj
  · simp
  · rw [not_not.mp hj]
    rfl

/-- A quad has the kind of its run. -/
theorem kindOf_eq_runAt (hv : Verified s.runs s.quads) {i : ℕ} (hi : i < unicodeQuadCount) :
    kindOf (s.quadAt i) = (runAt s.runs i).2.kind := by
  rw [← hv.total] at hi
  obtain ⟨pre, r, post, hs, hle, hlt⟩ := exists_run hi
  have hat : runAt s.runs i = (total pre, r) := by
    rw [hs]
    exact runAt_eq hle hlt
  apply kindOf_quadAt
  rw [hat, ← kinds_eq hv, hs, kinds_append, kinds_cons,
    List.getElem?_append_right (by rw [length_kinds]; exact hle), length_kinds,
    List.getElem?_append_left (by rw [List.length_replicate]; omega), List.getElem?_replicate]
  exact if_pos (by omega)

/-- Cutting a quad out of its run keeps the runs maximal, if its new kind is not that of
a neighbour. -/
theorem Around.canonical_cutRun {i : ℕ} (w : Around s i) (hv : Verified s.runs s.quads)
    (hc : Canonical s.runs) {type : RunType}
    (hne : ∀ j < unicodeQuadCount, j + 1 = i ∨ j = i + 1 → kindOf (s.quadAt j) ≠ type) :
    Canonical (w.pre ++ cutRun w.kind w.length w.offset type ++ w.post) := by
  have hoff := w.offset_lt
  have hi : i = total w.pre + w.offset := by
    have hle := w.le
    unfold Around.offset
    omega
  have hlen : (s.cells.map kindOf).length = unicodeQuadCount := by
    rw [List.length_map]
    exact hv.length_cells
  have hk : s.cells.map kindOf = (kinds w.pre ++ List.replicate w.offset w.kind) ++
      w.kind :: (List.replicate (w.length - (w.offset + 1)) w.kind ++ kinds w.post) := by
    obtain ⟨n, hn⟩ : ∃ n, w.length = w.offset + (n + 1) := ⟨w.length - w.offset - 1, by omega⟩
    rw [← kinds_eq hv, w.inRun.runs, kinds_append, kinds_cons, hn,
      show w.offset + (n + 1) - (w.offset + 1) = n by omega, List.replicate_add,
      List.replicate_succ]
    simp
  have hl : (kinds w.pre ++ List.replicate w.offset w.kind).length = i := by
    rw [List.length_append, length_kinds, List.length_replicate]
    exact hi.symm
  rw [w.inRun.runs] at hc
  have hleft := canonical_of_split (j := w.offset) hc
  have hright := canonical_stretch (w.length - (w.offset + 1)) hc.right
  have hquad : Canonical [(⟨type, 1⟩ : run_t)] := ⟨by simp, List.isChain_singleton _⟩
  have hall := hleft.append (hquad.append hright ?_) ?_
  · simpa [cutRun] using hall
  · -- the quad and what follows it
    intro k hkm k' hk'
    simp only [kinds_cons, kinds_nil, List.replicate_one, List.append_nil, List.getLast?_singleton,
      Option.mem_def, Option.some.injEq, kinds_append, kinds_stretch] at hkm hk'
    subst hkm
    have hget : (s.cells.map kindOf)[i + 1]? = some k' := by
      rw [hk, List.getElem?_append_right (by omega), hl, Nat.add_sub_cancel_left,
        List.getElem?_cons_succ, ← List.head?_eq_getElem?]
      exact hk'
    have hlt := (List.getElem?_eq_some_iff.mp hget).1
    rw [← kindOf_quadAt hget]
    exact (hne (i + 1) (by omega) (.inr rfl)).symm
  · -- what comes before the quad
    intro k hkm k' hk'
    simp only [kinds_append, kinds_cons, kinds_stretch, List.replicate_one, List.cons_append,
      List.head?_cons, Option.mem_def, Option.some.injEq] at hkm hk'
    subst hk'
    rw [List.getLast?_eq_getElem?, hl] at hkm
    have hlt := (List.getElem?_eq_some_iff.mp hkm).1
    have hget : (s.cells.map kindOf)[i - 1]? = some k := by
      rw [hk, List.getElem?_append_left hlt]
      exact hkm
    have hpos := (List.getElem?_eq_some_iff.mp hget).1
    rw [← kindOf_quadAt hget]
    exact hne (i - 1) (by omega) (.inl (by omega))

theorem insert_canonical (m : Memory) (h : s.WellFormed) (hc : Canonical s.runs)
    (hmax : cp ≤ unicodeMax) (hw : InsertEndsWell s cp) (hk : InsertKeepsRuns s cp)
    (he : s.insert m cp = .ok t) : t.WellFormed ∧ Canonical t.runs := by
  obtain ⟨w⟩ : Nonempty (Around s (cp / 32)) := exists_around h (index_lt hmax)
  have hadds : ∀ t' rs, s.insert m cp = .ok t' → Adds s cp t' rs → Canonical rs →
      t.WellFormed ∧ Canonical t.runs := by
    intro t' rs he' ha hr
    rw [he', Except.ok.injEq] at he
    subst he
    exact ⟨ha.wellFormed, ha.runs ▸ hr⟩
  have hcut : ∀ type, kindOf (s.quadWith cp) = type → kindOf (s.quadAt (cp / 32)) ≠ type →
      Canonical (w.pre ++ cutRun w.kind w.length w.offset type ++ w.post) := by
    intro type hnew hold
    apply w.canonical_cutRun h.verified hc
    rw [← hnew] at hold ⊢
    exact hk.resolve_left fun heq ↦ hold heq.symm
  have hquad : kindOf (s.quadAt (cp / 32)) = w.kind := by
    rw [kindOf_eq_runAt (i := cp / 32) h.verified (index_lt hmax), w.runAt_eq]
  simp only [InsertEndsWell, w.runAt_eq, typeOf_eq, lengthOf_eq] at hw
  cases hkind : w.kind with
  | Full =>
    obtain ⟨he', ha⟩ := w.insert_full m hmax h hkind
    exact hadds s _ he' ha hc
  | Empty =>
    rw [hkind] at hw hquad
    obtain ⟨t', he', -, ha⟩ := w.insert_empty m h hmax hkind
    have hz := (kindOf_eq_empty_iff _).mp hquad
    refine hadds t' _ he' (ha hw) (hcut .Mixed ?_ (by rw [hquad]; decide))
    rw [UnicodeSet.quadWith, hz, BitVec.zero_or]
    exact kindOf_bit (Nat.mod_lt _ (by decide))
  | Mixed =>
    rw [hkind] at hw hquad
    by_cases hf : s.quadWith cp = fullQuadMask
    · obtain ⟨t', he', -, ha⟩ := w.insert_mixed_full m h hmax hkind hw.1 hf
      refine hadds t' _ he' (ha (hw.2 hf)) (hcut .Full ?_ (by rw [hquad]; decide))
      rw [hf]
      exact (kindOf_eq_full_iff _).mpr rfl
    · obtain ⟨t', he', ha⟩ := w.insert_mixed m h hmax hkind hw.1 hf
      exact hadds t' _ he' ha hc

end Insert

section Range

variable {s t : UnicodeSet} {lo hi : ℕ}

/-- If the quad of `hi` ends its run, it does not get the kind of the quad after it. -/
def RangeKeepsRuns (s : UnicodeSet) (lo hi : ℕ) : Prop :=
  let q := hi / 32
  q + 1 = (runAt s.runs q).1 + lengthOf (runAt s.runs q).2 → q + 1 < unicodeQuadCount →
    kindOf (rangeQuad lo hi q ||| s.quadAt q) ≠ kindOf (s.quadAt (q + 1))

/-- The rest of the old runs can follow the new ones, if the last new quad differs in kind
from the first old one. -/
theorem finish_canonical {i : ℕ} {cs : List BitQuad} {p : Splice} (h : Spliced s i cs p)
    (hc : Canonical s.runs) (hne : p.length = 0 → ∀ q ∈ cs.getLast?,
      ∀ k ∈ (kinds p.ri).head?, kindOf q ≠ k) : Canonical (s.finish p).1 := by
  obtain ⟨pre, n, hs, -, -⟩ := h.remains.run
  have hleft := h.canonical hc
  rw [hs] at hc
  have hri := hc.right
  refine (appendRun_canonical hleft).append hri.tail fun k hk k' hk' ↦ ?_
  obtain ⟨h0, he⟩ | ⟨hp, rs, m, -, he⟩ | ⟨hp, -, he⟩ := appendRun_cases p.type p.length p.runs <;>
    rw [he] at hk
  · rw [h.built.kinds, List.getLast?_map, Option.mem_def, Option.map_eq_some_iff] at hk
    obtain ⟨q, hq, rfl⟩ := hk
    exact hne h0 q hq k' hk'
  all_goals
    rw [getLast?_kinds _ (by simp only; omega), Option.mem_def, Option.some.injEq] at hk
    exact hk ▸ (hri.head_kinds_ne k' hk').symm

theorem head?_kinds_remains (hv : Verified s.runs s.quads) {i : ℕ} {p : Splice}
    (h : Remains s i p) (h0 : p.length = 0) {k : RunType} (hk : k ∈ (kinds p.ri).head?) :
    kindOf (s.quadAt i) = k ∧ i < unicodeQuadCount := by
  obtain ⟨pre, n, hs, hle, ht⟩ := h.run
  have hkinds := kinds_eq hv
  rw [hs, kinds_append, kinds_cons, ← List.append_assoc] at hkinds
  have hlen : (kinds pre ++ List.replicate n p.type).length = i := by
    rw [List.length_append, length_kinds, List.length_replicate]
    omega
  have hget : (s.cells.map kindOf)[i]? = some k := by
    rw [← hkinds, List.getElem?_append_right hlen.le, hlen, Nat.sub_self,
      ← List.head?_eq_getElem?]
    exact hk
  refine ⟨kindOf_quadAt hget, ?_⟩
  have hlt := (List.getElem?_eq_some_iff.mp hget).1
  have hl : s.cells.length = unicodeQuadCount := hv.length_cells
  rwa [List.length_map, hl] at hlt

/-- The quad of `hi` was written last. -/
theorem finish_canonical_of_last (hv : Verified s.runs s.quads) {cs : List BitQuad} {p : Splice}
    (h : Spliced s (hi / 32 + 1) cs p) (hc : Canonical s.runs)
    (hlast : cs.getLast? = some (rangeQuad lo hi (hi / 32) ||| s.quadAt (hi / 32)))
    (hk : RangeKeepsRuns s lo hi) : Canonical (s.finish p).1 := by
  refine finish_canonical h hc fun h0 q hq k hm ↦ ?_
  obtain ⟨rfl, hlt⟩ := head?_kinds_remains hv h.remains h0 hm
  rw [hlast, Option.mem_def, Option.some.injEq] at hq
  obtain ⟨pre, n, hs, hle, ht⟩ := h.remains.run
  have hn : 0 < n := hv.pos ⟨p.type, n⟩ (by simp [hs])
  have hat : runAt s.runs (hi / 32) = (total pre, ⟨p.type, n⟩) := by
    rw [hs]
    exact runAt_eq (by omega) (by simp only; omega)
  rw [← hq]
  apply hk _ hlt
  simp only [hat, lengthOf_eq]
  omega

theorem rangeQuad_hi (hle : lo ≤ hi) : rangeQuad lo hi (hi / 32) =
    if lo / 32 = hi / 32 then loQuad lo &&& hiQuad hi else hiQuad hi := by
  have hd : lo / 32 ≤ hi / 32 := Nat.div_le_div_right hle
  unfold rangeQuad
  rw [if_neg (by omega), if_pos rfl]
  by_cases h : lo / 32 = hi / 32
  · rw [if_pos h.symm, if_pos h]
  · rw [if_neg (Ne.symm h), if_neg h, full_and]

theorem spliceRange_canonical (hv : Verified s.runs s.quads) (hc : Canonical s.runs)
    (hle : lo ≤ hi) (hmax : hi ≤ unicodeMax) (hw : RangeEndsWell s lo hi)
    (hk : RangeKeepsRuns s lo hi) :
    ∃ out, s.spliceRange lo hi = .ok out ∧ Canonical out.1 := by
  have hd : lo / 32 ≤ hi / 32 := Nat.div_le_div_right hle
  have hq := rangeQuad_hi hle
  rcases Nat.eq_or_lt_of_le hd with heq | hlt
  · obtain ⟨p, ho, hsp⟩ := spliceRange_near hv hle hmax heq
    rw [if_pos heq] at hq
    refine ⟨_, ho, finish_canonical_of_last hv (heq ▸ hsp) hc ?_ hk⟩
    rw [List.getLast?_concat, hq]
  · have hne := Nat.ne_of_lt hlt
    rw [if_neg hne] at hq
    by_cases hrep : (runAt s.runs (hi / 32)).2.kind ≠ .Mixed ∨
        (runAt s.runs (hi / 32)).1 + (runAt s.runs (hi / 32)).2.length = hi / 32 + 1
    · obtain ⟨p, ho, hsp⟩ := spliceRange_replace hv hle hmax hlt hrep
      refine ⟨_, ho, finish_canonical_of_last hv hsp hc ?_ hk⟩
      rw [List.getLast?_concat, hq]
      split_ifs with hm
      · have hend := hrep.resolve_left fun h ↦ h hm
        have hsub : QuadSubset (s.quadAt (hi / 32)) (hiQuad hi) := by
          simp only [RangeEndsWell, hne, typeOf_eq, hm, ne_eq, not_true_eq_false, lengthOf_eq, hend,
            Nat.lt_irrefl, false_and, or_false, false_or, true_and] at hw
          exact hw
        rw [BitVec.or_comm, hsub]
      · rfl
    · simp only [ne_eq, not_or, not_not] at hrep
      have hlt' : hi / 32 + 1 <
          (runAt s.runs (hi / 32)).1 + (runAt s.runs (hi / 32)).2.length := by
        have htotal : hi / 32 < total s.runs := by
          rw [hv.total]
          exact index_lt hmax
        obtain ⟨pre, r, post, hs, hle', hltr⟩ := exists_run htotal
        have hat : runAt s.runs (hi / 32) = (total pre, r) := by
          rw [hs]
          exact runAt_eq hle' hltr
        rw [hat] at hrep ⊢
        simp only at hrep ⊢
        omega
      obtain ⟨out, ho, -, hsp⟩ := spliceRange_shift hv hle hmax hlt hrep.1 hlt'
      have hor : hi / 32 = (runAt s.runs (hi / 32)).1 ∨ hi / 32 = lo / 32 + 1 := by
        simp only [RangeEndsWell, hne, typeOf_eq, hrep.1, ne_eq, not_true_eq_false, lengthOf_eq,
          Nat.ne_of_lt hlt', hlt', false_and, false_or, true_and] at hw
        exact hw.1
      obtain ⟨p, rfl, htype, hp⟩ := hsp hor
      refine ⟨_, ho, finish_canonical hp hc fun h0 q hq k hm ↦ ?_⟩
      -- the run goes on as a Mixed run, and a Mixed quad was written last
      obtain ⟨pre, n, hs, -, -⟩ := hp.remains.run
      rw [hs] at hc
      have hkm := hc.right.head_kinds_ne k hm
      rw [htype] at hkm
      have hkq : kindOf q = .Mixed := by
        split_ifs at hq with hfull <;>
          simp only [List.getLast?_append, List.getLast?_cons_cons, List.getLast?_singleton,
            Option.some_or, Option.mem_def, Option.some.injEq] at hq
        · rw [← hq, kindOf_eq_runAt (i := hi / 32) hv (index_lt hmax)]
          exact hrep.1
        · rw [← hq]
          exact kindOf_hiQuad_or hfull
      rw [hkq]
      exact hkm.symm

theorem insertRange_canonical (m : Memory) (h : s.WellFormed) (hc : Canonical s.runs)
    (hle : lo ≤ hi) (hmax : hi ≤ unicodeMax) (hw : RangeEndsWell s lo hi)
    (hk : RangeKeepsRuns s lo hi) (he : s.insertRange m lo hi = .ok t) :
    t.WellFormed ∧ Canonical t.runs := by
  obtain ⟨t', he', hwf, -, -⟩ := insertRange_produces m h hle hmax hw
  rw [he, Except.ok.injEq] at he'
  subst he'
  refine ⟨hwf, ?_⟩
  obtain ⟨out, ho, hco⟩ := spliceRange_canonical h.verified hc hle hmax hw hk
  obtain ⟨t', hte, htr, -, -⟩ := assign_eq m h.run_capacity_le h.quad_capacity_le out.1 out.2
  have hres : s.insertRange m lo hi = .ok t' := by
    rw [UnicodeSet.insertRange, if_neg (not_lt.mpr hle), if_neg (not_lt.mpr hmax), ho]
    exact hte
  rw [hres, Except.ok.injEq] at he
  rw [← he, htr]
  exact hco

end Range

end Parabix.UCD
