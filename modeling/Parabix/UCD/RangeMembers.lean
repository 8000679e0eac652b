import Parabix.UCD.InsertRange

namespace Parabix.UCD

open Library Library.RunLength

/-- The members of a range within one quad. -/
def rangeQuad (lo hi i : ℕ) : BitQuad :=
  if i < lo / 32 ∨ hi / 32 < i then
    0
  else
    (if i = lo / 32 then loQuad lo else fullQuadMask) &&&
      if i = hi / 32 then hiQuad hi else fullQuadMask

/-- The bits of `a` are bits of `b`. -/
def QuadSubset (a b : BitQuad) : Prop := a ||| b = b

/-- The inputs on which the quad of `hi` is merged as it should be: the range ends in its
first quad, or in a run that is not Mixed, or in the last quad of a Mixed run with no old
member above `hi`. In any other quad of a Mixed run the result is right only by
coincidence, when this quad and the next one are alike or hold the range already. -/
def RangeEndsWell (s : UnicodeSet) (lo hi : ℕ) : Prop :=
  let q := hi / 32
  let start := (runAt s.runs q).1
  let run := (runAt s.runs q).2
  lo / 32 = q ∨ typeOf run ≠ .Mixed ∨
  (q + 1 = start + lengthOf run ∧ QuadSubset (s.quadAt q) (hiQuad hi)) ∨
  (q + 1 < start + lengthOf run ∧ (q = start ∨ q = lo / 32 + 1) ∧
    if hiQuad hi ||| s.quadAt (q + 1) = fullQuadMask then
      s.quadAt q = s.quadAt (q + 1)
    else
      QuadSubset (hiQuad hi) (s.quadAt q) ∧ QuadSubset (hiQuad hi) (s.quadAt (q + 1)))

section Target

variable {s : UnicodeSet} {lo hi : ℕ}

theorem getLsbD_rangeQuad {x : ℕ} :
    (rangeQuad lo hi (x / 32)).getLsbD (x % 32) = decide (lo ≤ x ∧ x ≤ hi) := by
  have hb : x % 32 < 32 := Nat.mod_lt _ (by decide)
  unfold rangeQuad
  split_ifs with h
  · simp
    omega
  all_goals
    rw [BitVec.getLsbD_and]
    simp only [getLsbD_loQuad lo hb, getLsbD_hiQuad, getLsbD_fullQuadMask hb, Bool.true_and,
      Bool.and_true, ← Bool.decide_and, decide_eq_decide, eq_comm (a := true), decide_eq_true_eq]
    omega

/-- The quads that the set should have afterwards. -/
def rangeCells (s : UnicodeSet) (lo hi : ℕ) : List BitQuad :=
  s.cells.mapIdx fun i q ↦ rangeQuad lo hi i ||| q

theorem members_range_iff {t : UnicodeSet} (hs : Verified s.runs s.quads)
    (ht : Verified t.runs t.quads) (hmax : hi ≤ unicodeMax) :
    t.members = s.members ∪ {x | lo ≤ x ∧ x ≤ hi} ↔ t.cells = rangeCells s lo hi := by
  have hls : s.cells.length = unicodeQuadCount := hs.length_cells
  refine UnicodeSet.members_eq_iff ht (by simp [rangeCells, hls]) (fun x hx ↦ ?_) fun x hx ↦ ?_
  · exact hx.elim (UnicodeSet.le_of_mem hs) fun h ↦ h.2.trans hmax
  · have hi := index_lt hx
    rw [Set.mem_union, UnicodeSet.mem_iff_quadAt hs, rangeCells, List.getD_eq_getElem?_getD,
      List.getElem?_mapIdx, List.getElem?_eq_getElem (by rw [hls]; exact hi), Option.map_some,
      Option.getD_some, BitVec.getLsbD_or, getLsbD_rangeQuad, UnicodeSet.quadAt,
      List.getD_eq_getElem _ _ (by rw [hls]; exact hi)]
    simp [or_comm]

variable {cs : List BitQuad} {f : ℕ → BitQuad}

theorem mapIdx_zero (h : ∀ i < cs.length, f i = 0#32) :
    cs.mapIdx (fun i q ↦ f i ||| q) = cs := by
  apply List.ext_getElem (by simp)
  intro i _ hi
  simp [h i hi]

theorem mapIdx_full (h : ∀ i < cs.length, f i = fullQuadMask) :
    cs.mapIdx (fun i q ↦ f i ||| q) = List.replicate cs.length fullQuadMask := by
  apply List.ext_getElem (by simp)
  intro i hi _
  simp [h i (by simpa using hi)]

theorem mapIdx_split (f : ℕ → BitQuad) {l : ℕ} (hl : l < cs.length) :
    cs.mapIdx (fun i q ↦ f i ||| q) = (cs.take l).mapIdx (fun i q ↦ f i ||| q) ++
      [f l ||| cs.getD l 0] ++ (cs.drop (l + 1)).mapIdx (fun i q ↦ f (i + (l + 1)) ||| q) := by
  conv_lhs => rw [← List.take_append_drop l cs, List.drop_eq_getElem_cons hl]
  rw [List.mapIdx_append, List.mapIdx_cons, List.length_take_of_le hl.le,
    List.getD_eq_getElem _ _ hl]
  simp [Nat.add_assoc, Nat.add_comm 1 l]

theorem rangeCells_near (hs : Verified s.runs s.quads) (hmax : hi ≤ unicodeMax)
    (h : lo / 32 = hi / 32) : rangeCells s lo hi = s.cells.take (lo / 32) ++
      [(loQuad lo &&& hiQuad hi) ||| s.quadAt (lo / 32)] ++ s.cells.drop (lo / 32 + 1) := by
  have hls : s.cells.length = unicodeQuadCount := hs.length_cells
  have hi' : hi / 32 < s.cells.length := by
    rw [hls]
    exact index_lt hmax
  have hq : rangeQuad lo hi (lo / 32) = loQuad lo &&& hiQuad hi := by
    simp [rangeQuad, h]
  rw [rangeCells, mapIdx_split _ (h ▸ hi'), mapIdx_zero, mapIdx_zero, hq, UnicodeSet.quadAt]
  · exact fun i _ ↦ if_pos (.inr (by omega))
  · intro i hi
    rw [List.length_take] at hi
    exact if_pos (.inl (by omega))

/-- The quads up to the one before the quad of `hi`. -/
def rangePrefix (s : UnicodeSet) (lo hi : ℕ) : List BitQuad :=
  s.cells.take (lo / 32) ++ [loQuad lo ||| s.quadAt (lo / 32)] ++
    List.replicate (hi / 32 - lo / 32 - 1) fullQuadMask

theorem rangeCells_far (hs : Verified s.runs s.quads) (hmax : hi ≤ unicodeMax)
    (h : lo / 32 < hi / 32) : rangeCells s lo hi = rangePrefix s lo hi ++
      [hiQuad hi ||| s.quadAt (hi / 32)] ++ s.cells.drop (hi / 32 + 1) := by
  have hls : s.cells.length = unicodeQuadCount := hs.length_cells
  have hi' : hi / 32 < s.cells.length := by
    rw [hls]
    exact index_lt hmax
  have hql : rangeQuad lo hi (lo / 32) = loQuad lo := by
    simp [rangeQuad, Nat.ne_of_lt h, not_lt.mpr h.le]
  have hqh : rangeQuad lo hi (hi / 32) = hiQuad hi := by
    simp [rangeQuad, Nat.ne_of_gt h, not_lt.mpr h.le]
  have hd : hi / 32 - (lo / 32 + 1) < (s.cells.drop (lo / 32 + 1)).length := by
    rw [List.length_drop]
    omega
  have hlen : ((s.cells.drop (lo / 32 + 1)).take (hi / 32 - (lo / 32 + 1))).length =
      hi / 32 - (lo / 32 + 1) := List.length_take_of_le hd.le
  have hadd : hi / 32 - (lo / 32 + 1) + (lo / 32 + 1) = hi / 32 := by omega
  have hadd' : lo / 32 + 1 + (hi / 32 - (lo / 32 + 1)) = hi / 32 := by omega
  rw [rangeCells, mapIdx_split _ (h.trans hi'), mapIdx_zero,
    mapIdx_split (fun i ↦ rangeQuad lo hi (i + (lo / 32 + 1))) hd, mapIdx_full, mapIdx_zero, hlen,
    hadd, List.drop_drop, hql, hqh]
  · simp only [rangePrefix, UnicodeSet.quadAt, List.getD_eq_getElem?_getD, List.getElem?_drop,
      hadd', List.append_assoc, Nat.sub_sub]
    rw [show lo / 32 + 1 + (hi / 32 - (lo / 32 + 1) + 1) = hi / 32 + 1 by omega]
  · exact fun i _ ↦ if_pos (.inr (by omega))
  · intro i hi
    rw [hlen] at hi
    simp only [rangeQuad]
    rw [if_neg (by omega), if_neg (by omega), if_neg (by omega), and_full]
  · intro i hi
    rw [List.length_take] at hi
    exact if_pos (.inl (by omega))

end Target

section Outcome

variable {s : UnicodeSet} {lo hi : ℕ}

theorem insertRange_produces_iff (m : Memory) (h : s.WellFormed) (hle : lo ≤ hi)
    (hmax : hi ≤ unicodeMax) {out : List run_t × List BitQuad}
    (ho : s.spliceRange lo hi = .ok out) :
    Produces (s.insertRange m lo hi) (s.members ∪ {x | lo ≤ x ∧ x ≤ hi}) ↔
      Verified out.1 out.2 ∧ decode fill out.1 out.2 = rangeCells s lo hi := by
  obtain ⟨t, hte, htr, htq, htw⟩ :=
    assign_eq m h.run_capacity_le h.quad_capacity_le out.1 out.2
  have he : s.insertRange m lo hi = .ok t := by
    rw [UnicodeSet.insertRange, if_neg (not_lt.mpr hle), if_neg (not_lt.mpr hmax), ho]
    exact hte
  have hc : t.cells = decode fill out.1 out.2 := by rw [UnicodeSet.cells, htr, htq]
  rw [he]
  constructor
  · rintro ⟨t', ht', hw, -, hm⟩
    cases ht'
    have hv := hw.verified
    rw [members_range_iff h.verified hv hmax, hc] at hm
    rw [htr, htq] at hv
    exact ⟨hv, hm⟩
  · rintro ⟨hv, hm⟩
    have hw := htw hv
    exact ⟨t, rfl, hw, (verify_eq_ok_iff _ _).mpr hw.verified,
      (members_range_iff h.verified hw.verified hmax).mpr (hc.trans hm)⟩

/-- The state after the first quad of the range. -/
theorem seekLo_mergeLo (hv : Verified s.runs s.quads) (hle : lo ≤ hi) (hmax : hi ≤ unicodeMax) :
    ∃ p p', UnicodeSet.seekLo s.quads s.runs [] 0 (lo / quadBits) (hi / quadBits) = .ok p ∧
      s.mergeLo lo hi p = .ok p' ∧ p'.hi_index = hi / 32 - lo / 32 ∧
      Spliced s (lo / 32 + 1) (s.cells.take (lo / 32) ++
        [(if lo / 32 = hi / 32 then loQuad lo &&& hiQuad hi else loQuad lo) |||
          s.quadAt (lo / 32)]) p' := by
  have hd : lo / 32 ≤ hi / 32 := Nat.div_le_div_right hle
  have hlt : lo / 32 < total s.runs := by
    rw [hv.total]
    exact index_lt (hle.trans hmax)
  obtain ⟨p, he, hp, hl, hi'⟩ := seekLo_spec hv (List.nil_append s.runs).symm hlt hd
  simp only [total_nil, Nat.zero_add] at hp
  have heq : p.hi_index = 0 ↔ lo / 32 = hi / 32 := by omega
  refine ⟨p, _, he, mergeLo_eq hp.remains hl lo hi, hi', ?_⟩
  simp only [heq]
  exact hp.push hl _

theorem spliceRange_near (hv : Verified s.runs s.quads) (hle : lo ≤ hi) (hmax : hi ≤ unicodeMax)
    (h : lo / 32 = hi / 32) : ∃ p, s.spliceRange lo hi = .ok (s.finish p) ∧
      Spliced s (lo / 32 + 1) (s.cells.take (lo / 32) ++
        [(loQuad lo &&& hiQuad hi) ||| s.quadAt (lo / 32)]) p := by
  obtain ⟨p, p', he, he', hi', hp⟩ := seekLo_mergeLo hv hle hmax
  rw [if_pos h] at hp
  refine ⟨p', ?_, hp⟩
  simp only [UnicodeSet.spliceRange, he, he', ok_bind, hi', h, Nat.sub_self, ne_eq,
    not_true_eq_false, if_false, pure_eq_ok]

/-- The state before the quad of `hi`: the cursor is at most `hi_index` quads before the end
of that quad, in its run. -/
theorem spliceRange_far (hv : Verified s.runs s.quads) (hle : lo ≤ hi) (hmax : hi ≤ unicodeMax)
    (h : lo / 32 < hi / 32) : ∃ p p' q pre n,
      UnicodeSet.seekLo s.quads s.runs [] 0 (lo / quadBits) (hi / quadBits) = .ok p ∧
      s.mergeLo lo hi p = .ok p' ∧ p'.hi_index ≠ 0 ∧
      UnicodeSet.seekHi p'.ri { p' with runs := appendRun .Full (p'.hi_index - 1) p'.runs } =
        .ok q ∧
      Spliced s (max (lo / 32 + 1) (total pre)) (rangePrefix s lo hi) q ∧
      s.runs = pre ++ ⟨q.type, n⟩ :: q.ri ∧ 0 < q.hi_index ∧ q.hi_index ≤ q.length ∧
      max (lo / 32 + 1) (total pre) + q.length = total pre + n ∧
      max (lo / 32 + 1) (total pre) + q.hi_index = hi / 32 + 1 := by
  obtain ⟨p, p', he, he', hi', hp⟩ := seekLo_mergeLo hv hle hmax
  rw [if_neg (Nat.ne_of_lt h)] at hp
  obtain ⟨pre, n, hs, hpi, ht⟩ := hp.remains.run
  have htot := hv.total
  rw [hs, total_append, total_cons] at htot
  simp only at htot
  have hlt : hi / 32 < unicodeQuadCount := index_lt hmax
  have hp2 : Spliced s (lo / 32 + 1) (rangePrefix s lo hi)
      { p' with runs := appendRun .Full (p'.hi_index - 1) p'.runs } := by
    refine ⟨?_, ⟨hp.remains.decode, hp.remains.literals, hp.remains.run⟩,
      fun hc ↦ appendRun_canonical (hp.canonical hc)⟩
    have hb := hp.built.appendRun fill_full (p'.hi_index - 1)
    rw [rangePrefix, ← hi']
    exact hb
  obtain ⟨q, pre', n', hq, hsp, -, hs', -, ht', hl, hj, hpos⟩ :=
    seekHi_spec (p := { p' with runs := appendRun .Full (p'.hi_index - 1) p'.runs }) rfl hs hpi
      ht hp2 (by simp only; omega)
  simp only at hj
  exact ⟨p, p', q, pre', n', he, he', by omega, hq, hsp, hs', hpos (by simp only; omega), hl, ht',
    by omega⟩

/-- The quad of `hi` is replaced by the end of the range. This is a merge when its run is
not Mixed. -/
theorem spliceRange_replace (hv : Verified s.runs s.quads) (hle : lo ≤ hi)
    (hmax : hi ≤ unicodeMax) (h : lo / 32 < hi / 32)
    (hc : (runAt s.runs (hi / 32)).2.kind ≠ .Mixed ∨
      (runAt s.runs (hi / 32)).1 + (runAt s.runs (hi / 32)).2.length = hi / 32 + 1) :
    ∃ p, s.spliceRange lo hi = .ok (s.finish p) ∧ Spliced s (hi / 32 + 1) (rangePrefix s lo hi ++
      [if (runAt s.runs (hi / 32)).2.kind = .Mixed then hiQuad hi
        else hiQuad hi ||| s.quadAt (hi / 32)]) p := by
  obtain ⟨p, p', q, pre, n, he, he', h0, hq, hsp, hs, hpos, hl, hend, hj⟩ :=
    spliceRange_far hv hle hmax h
  have hat : runAt s.runs (hi / 32) = (total pre, ⟨q.type, n⟩) := by
    rw [hs]
    exact runAt_eq (by omega) (by simp only; omega)
  rw [hat] at hc ⊢
  simp only at hc ⊢
  obtain ⟨p'', hm, hf⟩ := mergeHi_eq (s := s) hi hq hpos hl (hc.imp_right fun hc ↦ by omega)
  have hskip : Spliced s (hi / 32) (rangePrefix s lo hi) (q.skip (q.hi_index - 1)) := by
    have hr := hsp.remains.pass (n := q.hi_index - 1) (by omega) q.runs q.quads q.hi_index
    rw [show max (lo / 32 + 1) (total pre) + (q.hi_index - 1) = hi / 32 by omega] at hr
    exact ⟨hsp.built, hr, hsp.canonical⟩
  have hlen : 0 < (q.skip (q.hi_index - 1)).length := by
    simp only [Splice.skip]
    omega
  refine ⟨(q.skip (q.hi_index - 1)).push (if q.type = .Full then fullQuadMask else hiQuad hi),
    ?_, ?_⟩
  · simp only [UnicodeSet.spliceRange, he, he', ok_bind, h0, ne_eq, not_false_eq_true, if_true, hm,
      pure_eq_ok, hf]
  · have hpush := hskip.push hlen (if q.type = .Full then fullQuadMask else hiQuad hi)
    convert hpush using 3
    cases ht : q.type with
    | Empty =>
      have hz : s.quadAt (hi / 32) = 0#32 := hskip.remains.quadAt_fill hlen (by
        simp only [Splice.skip, ht]
        rfl)
      simp [hz]
    | Mixed => simp
    | Full =>
      have hz : s.quadAt (hi / 32) = fullQuadMask := hskip.remains.quadAt_fill hlen (by
        simp only [Splice.skip, ht]
        rfl)
      simp [hz]

theorem kindOf_hiQuad_or {q : BitQuad} (h : hiQuad hi ||| q ≠ fullQuadMask) :
    kindOf (hiQuad hi ||| q) = .Mixed := by
  rw [kindOf_eq_mixed_iff]
  refine ⟨fun h0 ↦ ?_, h⟩
  have hb := congrArg (fun v ↦ v.getLsbD 0) h0
  simp only [BitVec.getLsbD_or, getLsbD_hiQuad, Nat.zero_le, decide_true, Bool.true_or] at hb
  cases hb

/-- The range is merged with the quad after the quad of `hi`. The vectors only fit together
when just one quad was skipped. -/
theorem spliceRange_shift (hv : Verified s.runs s.quads) (hle : lo ≤ hi)
    (hmax : hi ≤ unicodeMax) (h : lo / 32 < hi / 32)
    (ht : (runAt s.runs (hi / 32)).2.kind = .Mixed)
    (hlt : hi / 32 + 1 < (runAt s.runs (hi / 32)).1 + (runAt s.runs (hi / 32)).2.length) :
    ∃ out, s.spliceRange lo hi = .ok out ∧
      (Verified out.1 out.2 → hi / 32 = (runAt s.runs (hi / 32)).1 ∨ hi / 32 = lo / 32 + 1) ∧
      (hi / 32 = (runAt s.runs (hi / 32)).1 ∨ hi / 32 = lo / 32 + 1 →
        ∃ p, out = s.finish p ∧ p.type = .Mixed ∧ Spliced s (hi / 32 + 2) (rangePrefix s lo hi ++
          (if hiQuad hi ||| s.quadAt (hi / 32 + 1) = fullQuadMask then
            [fullQuadMask, s.quadAt (hi / 32)]
          else
            [s.quadAt (hi / 32), hiQuad hi ||| s.quadAt (hi / 32 + 1)])) p) := by
  obtain ⟨p, p', q, pre, n, he, he', h0, hq, hsp, hs, hpos, hl, hend, hj⟩ :=
    spliceRange_far hv hle hmax h
  have hat : runAt s.runs (hi / 32) = (total pre, ⟨q.type, n⟩) := by
    rw [hs]
    exact runAt_eq (by omega) (by simp only; omega)
  rw [hat] at ht hlt ⊢
  simp only at ht hlt ⊢
  obtain ⟨p'', hm, hf⟩ := mergeHi_mixed_eq hi hq hsp ht (by omega)
  rw [hj] at hf
  refine ⟨s.finish p'', ?_, ?_, ?_⟩
  · simp only [UnicodeSet.spliceRange, he, he', ok_bind, h0, ne_eq, not_false_eq_true, if_true, hm,
      pure_eq_ok]
  · intro hvo
    have hlit := hvo.literals
    have hrem := hsp.remains.literals
    rw [literals_cons_eq, if_pos ht, List.length_drop] at hrem
    rw [hf] at hlit
    have hquad := literals_appendQuad (hiQuad hi ||| s.quadAt (hi / 32 + 1)) q.quads
      (q.quads ++ (s.quads.drop q.qi).take q.hi_index) q.runs
    have hbuilt := hsp.built.literals
    simp only [literals_append, literals_appendRun, if_true, List.length_append,
      List.length_drop, List.length_take] at hlit hquad
    omega
  · intro hone
    have h1 : q.hi_index = 1 := by omega
    have hmax' : max (lo / 32 + 1) (total pre) = hi / 32 := by omega
    rw [hmax'] at hsp
    have hk := hsp.remains.kindOf_quadAt hv ht (by omega)
    rw [hf, h1, hsp.remains.take_one ht (by omega)]
    split_ifs with hfull
    · rw [hfull, ← push_full_finish ht (by omega) hk]
      have hpush := (hsp.push (by omega) fullQuadMask).push
        (by simp only [Splice.push]; omega) (s.quadAt (hi / 32))
      exact ⟨_, rfl, ht, by simpa using hpush⟩
    · have hkv := kindOf_hiQuad_or hfull
      rw [← push_push_finish ht (by omega) hk hkv]
      have hpush := (hsp.push (by omega) (s.quadAt (hi / 32))).push
        (by simp only [Splice.push]; omega) (hiQuad hi ||| s.quadAt (hi / 32 + 1))
      exact ⟨_, rfl, ht, by simpa using hpush⟩

theorem length_rangePrefix (hv : Verified s.runs s.quads) (hmax : hi ≤ unicodeMax)
    (h : lo / 32 < hi / 32) : (rangePrefix s lo hi).length = hi / 32 := by
  have hls : s.cells.length = unicodeQuadCount := hv.length_cells
  have hlt : hi / 32 < unicodeQuadCount := index_lt hmax
  simp only [rangePrefix, List.length_append, List.length_take, List.length_singleton,
    List.length_replicate]
  omega

theorem rangeEndsWell_iff_of_replace (hv : Verified s.runs s.quads) (hle : lo ≤ hi)
    (hmax : hi ≤ unicodeMax) (h : lo / 32 < hi / 32)
    (hc : (runAt s.runs (hi / 32)).2.kind ≠ .Mixed ∨
      (runAt s.runs (hi / 32)).1 + (runAt s.runs (hi / 32)).2.length = hi / 32 + 1) :
    ∃ out, s.spliceRange lo hi = .ok out ∧
      (Verified out.1 out.2 ∧ decode fill out.1 out.2 = rangeCells s lo hi ↔
        RangeEndsWell s lo hi) := by
  obtain ⟨p, ho, hsp⟩ := spliceRange_replace hv hle hmax h hc
  have hp := finish_covers hv hsp
  have hls : s.cells.length = unicodeQuadCount := hv.length_cells
  have hlt : hi / 32 < unicodeQuadCount := index_lt hmax
  have hver : Verified (s.finish p).1 (s.finish p).2 := hp.verified (by
    simp only [List.length_append, length_rangePrefix hv hmax h, List.length_singleton,
      List.length_drop, hls]
    omega)
  have hne := Nat.ne_of_lt h
  refine ⟨_, ho, ?_⟩
  rw [hp.decode, rangeCells_far hv hmax h]
  by_cases hk : (runAt s.runs (hi / 32)).2.kind = .Mixed
  · have hend := hc.resolve_left fun hne ↦ hne hk
    simp only [hk, if_true, hver, true_and, List.append_cancel_left_eq,
      List.append_cancel_right_eq, List.cons.injEq, and_true, RangeEndsWell, hne, false_or,
      typeOf_eq, ne_eq, not_true_eq_false, lengthOf_eq, hend, Nat.lt_irrefl, false_and, or_false,
      QuadSubset]
    rw [BitVec.or_comm, eq_comm]
  · simp [hk, hver, RangeEndsWell]

theorem rangeEndsWell_iff_of_shift (hv : Verified s.runs s.quads) (hle : lo ≤ hi)
    (hmax : hi ≤ unicodeMax) (h : lo / 32 < hi / 32)
    (ht : (runAt s.runs (hi / 32)).2.kind = .Mixed)
    (hlt : hi / 32 + 1 < (runAt s.runs (hi / 32)).1 + (runAt s.runs (hi / 32)).2.length)
    (hlt' : hi / 32 + 1 < unicodeQuadCount) :
    ∃ out, s.spliceRange lo hi = .ok out ∧
      (Verified out.1 out.2 ∧ decode fill out.1 out.2 = rangeCells s lo hi ↔
        RangeEndsWell s lo hi) := by
  obtain ⟨out, ho, hone, hsp⟩ := spliceRange_shift hv hle hmax h ht hlt
  have hls : s.cells.length = unicodeQuadCount := hv.length_cells
  refine ⟨out, ho, ?_⟩
  have hdrop : s.cells.drop (hi / 32 + 1) =
      [s.quadAt (hi / 32 + 1)] ++ s.cells.drop (hi / 32 + 2) := by
    rw [List.drop_eq_getElem_cons (by rw [hls]; exact hlt'), UnicodeSet.quadAt,
      List.getD_eq_getElem _ _ (by rw [hls]; exact hlt')]
    rfl
  have hwell : RangeEndsWell s lo hi ↔
      (hi / 32 = (runAt s.runs (hi / 32)).1 ∨ hi / 32 = lo / 32 + 1) ∧
      if hiQuad hi ||| s.quadAt (hi / 32 + 1) = fullQuadMask then
        s.quadAt (hi / 32) = s.quadAt (hi / 32 + 1)
      else
        QuadSubset (hiQuad hi) (s.quadAt (hi / 32)) ∧
          QuadSubset (hiQuad hi) (s.quadAt (hi / 32 + 1)) := by
    simp only [RangeEndsWell, typeOf_eq, ht, Nat.ne_of_lt h, Nat.ne_of_lt hlt, hlt, lengthOf_eq,
      false_or, ne_eq, not_true_eq_false, false_and, true_and]
  rw [hwell]
  constructor
  · rintro ⟨hver, hd⟩
    have hor := hone hver
    obtain ⟨p, rfl, -, hp⟩ := hsp hor
    refine ⟨hor, ?_⟩
    rw [(finish_covers hv hp).decode, rangeCells_far hv hmax h, hdrop] at hd
    split_ifs at hd ⊢ with hfull <;>
      simp only [List.append_assoc, List.append_cancel_left_eq, List.cons_append, List.nil_append,
        List.cons.injEq, and_true] at hd
    · exact hd.2
    · exact ⟨hd.1.symm, hd.2⟩
  · rintro ⟨hor, hq⟩
    obtain ⟨p, rfl, -, hp⟩ := hsp hor
    have hpre := finish_covers hv hp
    refine ⟨hpre.verified ?_, ?_⟩
    · split_ifs <;>
      · simp only [List.length_append, length_rangePrefix hv hmax h, List.length_cons,
          List.length_nil, List.length_drop, hls]
        omega
    · rw [hpre.decode, rangeCells_far hv hmax h, hdrop]
      split_ifs at hq ⊢ with hfull
      · simp [hq, hfull]
      · have h1 : hiQuad hi ||| s.quadAt (hi / 32) = s.quadAt (hi / 32) := hq.1
        have h2 : hiQuad hi ||| s.quadAt (hi / 32 + 1) = s.quadAt (hi / 32 + 1) := hq.2
        simp [h1, h2]

/-- What is spliced together is a set with the range exactly when the range ends well. -/
theorem spliceRange_ends (h : s.WellFormed) (hle : lo ≤ hi) (hmax : hi ≤ unicodeMax) :
    ∃ out, s.spliceRange lo hi = .ok out ∧
      (Verified out.1 out.2 ∧ decode fill out.1 out.2 = rangeCells s lo hi ↔
        RangeEndsWell s lo hi) := by
  have hv := h.verified
  have hd : lo / 32 ≤ hi / 32 := Nat.div_le_div_right hle
  rcases Nat.eq_or_lt_of_le hd with heq | hlt
  · obtain ⟨p, ho, hsp⟩ := spliceRange_near hv hle hmax heq
    have hp := finish_covers hv hsp
    rw [← rangeCells_near hv hmax heq] at hp
    refine ⟨_, ho, fun _ ↦ .inl heq, fun _ ↦ ⟨hp.verified ?_, hp.decode⟩⟩
    rw [rangeCells, List.length_mapIdx]
    exact hv.length_cells
  · have htotal : hi / 32 < total s.runs := by
      rw [hv.total]
      exact index_lt hmax
    obtain ⟨pre, r, post, hs, hle', hlt'⟩ := exists_run htotal
    have hat : runAt s.runs (hi / 32) = (total pre, r) := by
      rw [hs]
      exact runAt_eq hle' hlt'
    have htot := hv.total
    rw [hs, total_append, total_cons] at htot
    by_cases hk : r.kind = .Mixed ∧ hi / 32 + 1 ≠ total pre + r.length
    · obtain ⟨hm, hne⟩ := hk
      exact rangeEndsWell_iff_of_shift hv hle hmax hlt (by rw [hat]; exact hm)
        (by rw [hat]; simp only; omega) (by omega)
    · refine rangeEndsWell_iff_of_replace hv hle hmax hlt ?_
      rw [hat]
      by_cases hm : r.kind = .Mixed
      · exact .inr (by_contra fun hne ↦ hk ⟨hm, fun he ↦ hne he.symm⟩)
      · exact .inl hm

theorem insertRange_produces (m : Memory) (h : s.WellFormed) (hle : lo ≤ hi)
    (hmax : hi ≤ unicodeMax) (hw : RangeEndsWell s lo hi) :
    Produces (s.insertRange m lo hi) (s.members ∪ {x | lo ≤ x ∧ x ≤ hi}) := by
  obtain ⟨out, ho, hiff⟩ := spliceRange_ends h hle hmax
  exact (insertRange_produces_iff m h hle hmax ho).2 (hiff.2 hw)

theorem insertRange_exact (m : Memory) (h : s.WellFormed) (hle : lo ≤ hi)
    (hmax : hi ≤ unicodeMax) :
    Produces (s.insertRange m lo hi) (s.members ∪ {x | lo ≤ x ∧ x ≤ hi}) ↔
      RangeEndsWell s lo hi := by
  obtain ⟨out, ho, hiff⟩ := spliceRange_ends h hle hmax
  rw [insertRange_produces_iff m h hle hmax ho, hiff]

theorem insertRange_exact_emptySet : Produces
    (UnicodeSet.emptySet.insertRange ⟨fun _ ↦ ⟨.Empty, 0⟩, fun _ ↦ 0⟩ 0 32)
    (UnicodeSet.emptySet.members ∪ {x | 0 ≤ x ∧ x ≤ 32}) ↔
      RangeEndsWell UnicodeSet.emptySet 0 32 :=
  insertRange_exact _ emptySet_wellFormed (by decide) (by decide)

/-- The set of 0 and 33: two Mixed quads and an Empty run. -/
def lostMember : UnicodeSet :=
  .ofVectors [⟨.Mixed, 2⟩, ⟨.Empty, 34814⟩] [1, 2]

/-- Inserting [0, 32] into {0, 33} loses 33. -/
theorem insertRange_loses_member : lostMember.WellFormed ∧
    ¬Produces (lostMember.insertRange ⟨fun _ ↦ ⟨.Empty, 0⟩, fun _ ↦ 0⟩ 0 32)
      (lostMember.members ∪ {x | 0 ≤ x ∧ x ≤ 32}) := by
  constructor
  · exact UnicodeSet.wellFormed_ofVectors ⟨by simp,
      by simp [unicodeQuadCount, unicodeMax, quadBits], by simp, by simp [kindOf, fullQuadMask]⟩
  · rintro ⟨t, he, -, -, hm⟩
    have hmem : 33 ∈ lostMember.members := by
      change lostMember.contains 33 = true
      decide
    have ht : 33 ∈ t.members := by
      rw [hm]
      exact .inl hmem
    have hres : lostMember.insertRange ⟨fun _ ↦ ⟨.Empty, 0⟩, fun _ ↦ 0⟩ 0 32 =
        .ok ⟨[⟨.Full, 1⟩, ⟨.Mixed, 1⟩, ⟨.Empty, 34814⟩], [1, 2], 3, 1, 3, 2⟩ := by
      rfl
    rw [hres] at he
    cases he
    change UnicodeSet.contains _ 33 = true at ht
    revert ht
    decide

end Outcome

end Parabix.UCD
