import Parabix.Pablo.IndexedAdvance

namespace Parabix.Pablo

open Library Library.DelayLine

section Fields

variable {n : ℕ} {strm index : Pack} {q : List Bool}

theorem popcount_le (index : Pack) : popcount index ≤ 64 := by
  have := List.count_le_length (a := true) (l := bools index)
  rwa [length_bools] at this

theorem spells_pext (strm index : Pack) :
    Spells (pext strm index) (select (bools index) (bools strm)) := spells_ofBools _ _

theorem length_select_bools (strm index : Pack) :
    (select (bools index) (bools strm)).length = popcount index := length_select (by simp)

/-- The bits at the index positions are the first ones of the queue. -/
theorem bools_pdep {x : Pack} (h : ∀ k < popcount index, x.getLsbD k = q.getD k false) :
    bools (pdep x index) = deposit false (bools index) q := by
  rw [pdep, bools_ofBools (by simp)]
  apply deposit_congr
  intro k hk
  rw [getD_bools, h k hk]

theorem createShl_eq {w : ℕ} {x : BitVec w} (h : n < w) : createShl x n = .ok (x <<< n) :=
  if_pos h

theorem createLShr_eq {w : ℕ} {x : BitVec w} (h : n < w) : createLShr x n = .ok (x >>> n) :=
  if_pos h

end Fields

section Block

variable {w n : ℕ}

@[simp] theorem strmBits_nil : strmBits [] = [] := rfl

@[simp] theorem strmBits_cons (p : Pack × Pack) (fields : List (Pack × Pack)) :
    strmBits (p :: fields) = bools p.1 ++ strmBits fields := rfl

@[simp] theorem indexBits_nil : indexBits [] = [] := rfl

@[simp] theorem indexBits_cons (p : Pack × Pack) (fields : List (Pack × Pack)) :
    indexBits (p :: fields) = bools p.2 ++ indexBits fields := rfl

theorem strmBits_append (xs ys : List (Pack × Pack)) :
    strmBits (xs ++ ys) = strmBits xs ++ strmBits ys := List.flatMap_append

theorem indexBits_append (xs ys : List (Pack × Pack)) :
    indexBits (xs ++ ys) = indexBits xs ++ indexBits ys := List.flatMap_append

theorem length_indexBits (fields : List (Pack × Pack)) :
    (indexBits fields).length = 64 * fields.length := by
  induction fields with
  | nil => rfl
  | cons p ps ih =>
    simp only [indexBits_cons, List.length_append, length_bools, List.length_cons, ih]
    omega

theorem length_strmBits (fields : List (Pack × Pack)) :
    (strmBits fields).length = (indexBits fields).length := by
  induction fields with
  | nil => rfl
  | cons p ps ih => simp [ih]

theorem count_indexBits_le (fields : List (Pack × Pack)) :
    (indexBits fields).count true ≤ 64 * fields.length := by
  rw [← length_indexBits]
  exact List.count_le_length

/-- What a loop over the fields of a block has to leave. -/
structure Advances (n : ℕ) (fields : List (Pack × Pack)) (q : List Bool) (carryOut : BitVec w)
    (result : List Pack) : Prop where
  carry : Spells carryOut (flight (indexBits fields) (strmBits fields) q)
  result : result.flatMap bools = output false (indexBits fields) (strmBits fields) q

theorem Advances.cons {p : Pack × Pack} {fields : List (Pack × Pack)} {q : List Bool}
    {carryOut : BitVec w} {result : List Pack} {x : Pack}
    (hx : ∀ k < popcount p.2, x.getLsbD k =
      (q ++ select (bools p.2) (bools p.1)).getD k false)
    (h : Advances n fields (flight (bools p.2) (bools p.1) q) carryOut result) :
    Advances n (p :: fields) q carryOut (pdep x p.2 :: result) where
  carry := by
    rw [indexBits_cons, strmBits_cons, flight_append (by simp)]
    exact h.carry
  result := by
    rw [indexBits_cons, strmBits_cons, List.flatMap_cons, output_append (by simp), h.result,
      bools_pdep hx]
    rfl

theorem nextCarry_spec (hn : 0 < n) (hlt : n < 64) {carry : Pack} {q : List Bool}
    (hq : q.length = n) (hc : Spells carry q) (strm index : Pack) :
    ∃ next, nextCarry n (popcount index) (pext strm index) carry = .ok next ∧
      Spells next (flight (bools index) (bools strm) q) := by
  have hle := popcount_le index
  have hbits := spells_pext strm index
  have hlen := length_select_bools strm index
  have hcount : (bools index).count true = popcount index := rfl
  unfold nextCarry
  split_ifs with hsmall
  · rw [createShl_eq (by omega), ok_bind, createLShr_eq (by omega), ok_bind, pure_eq_ok]
    refine ⟨_, rfl, ?_⟩
    rw [flight, hcount, List.drop_append_of_le_length (by omega)]
    exact (hc.drop (by omega) _).append (by rw [List.length_drop, hq]) hbits
  · rw [createLShr_eq (by omega)]
    refine ⟨_, rfl, ?_⟩
    rw [flight, hcount, List.drop_append, List.drop_eq_nil_of_le (by omega), List.nil_append, hq]
    exact hbits.drop (by omega) _

theorem advanceFields_spec (hn : 0 < n) (hlt : n < 64) (fields : List (Pack × Pack)) {carry : Pack}
    {q : List Bool} (hq : q.length = n) (hc : Spells carry q) :
    ∃ carryOut result, advanceFields n fields carry = .ok (carryOut, result) ∧
      Advances n fields q carryOut result := by
  induction fields generalizing carry q with
  | nil => exact ⟨carry, [], rfl, by simpa [flight] using hc, rfl⟩
  | cons p fields ih =>
    obtain ⟨strm, index⟩ := p
    have hle := popcount_le index
    have hbits := spells_pext strm index
    have hlen := length_select_bools strm index
    have hadv := hc.append hq hbits
    obtain ⟨next, he, hs⟩ := nextCarry_spec hn hlt hq hc strm index
    obtain ⟨carryOut, result, he', h⟩ := ih (by rw [length_flight (by simp), hq]) hs
    refine ⟨carryOut, pdep (pext strm index <<< n ||| carry) index :: result, ?_, ?_⟩
    · rw [advanceFields, createShl_eq hlt, ok_bind, he, ok_bind, he', ok_bind]
      rfl
    · exact h.cons fun k hk ↦ hadv k (by simp only at hk; omega)

theorem advanceThroughCarry_spec (hn : 64 ≤ n) (hle : n ≤ w) {fields : List (Pack × Pack)}
    (hsafe : ∀ p ∈ fields, n - popcount p.2 < w ∧ popcount p.2 < w) {carry : BitVec w}
    {q : List Bool} (hq : q.length = n) (hc : Spells carry q) :
    ∃ carryOut result, advanceThroughCarry n fields carry = .ok (carryOut, result) ∧
      Advances n fields q carryOut result := by
  induction fields generalizing carry q with
  | nil => exact ⟨carry, [], rfl, by simpa [flight] using hc, rfl⟩
  | cons p fields ih =>
    obtain ⟨strm, index⟩ := p
    obtain ⟨hshl, hshr⟩ := hsafe _ (List.mem_cons_self ..)
    simp only at hshl hshr
    have hpop := popcount_le index
    have hlen := length_select_bools strm index
    have hbits := (spells_pext strm index).setWidth (by omega) w
    have hnext : Spells (carry >>> popcount index |||
        (pext strm index).setWidth w <<< (n - popcount index))
        (flight (bools index) (bools strm) q) := by
      rw [BitVec.or_comm, flight, List.drop_append_of_le_length (by
        have : (bools index).count true = popcount index := rfl
        omega)]
      exact (hc.drop (by omega) _).append (by rw [List.length_drop, hq]) hbits
    obtain ⟨carryOut, result, he', h⟩ :=
      ih (fun p hp ↦ hsafe p (List.mem_cons_of_mem _ hp)) (by rw [length_flight (by simp), hq]) hnext
    refine ⟨carryOut, pdep (carry.setWidth 64) index :: result, ?_, h.cons fun k hk ↦ ?_⟩
    · rw [advanceThroughCarry, createLShr_eq hshr, ok_bind, createShl_eq hshl, ok_bind, he', ok_bind]
      rfl
    · simp only at hk
      rw [BitVec.getLsbD_setWidth, decide_eq_true (by omega), Bool.true_and, hc k (by omega),
        List.getD_append _ _ _ _ (by omega)]

theorem advancePastCarry_spec (fields : List (Pack × Pack)) {carry : Except Fault (BitVec w)}
    {carryOut : BitVec w} {u v : List Bool} (hu : u.length ≤ w)
    (hc : fields ≠ [] → ∃ c, carry = .ok c ∧ Spells c u)
    (hroom : v.length + 64 * fields.length ≤ w) (hv : Spells carryOut v) :
    ∃ carryOut' result, advancePastCarry fields carry carryOut v.length = .ok (carryOut', result) ∧
      Spells carryOut' (v ++ select (indexBits fields) (strmBits fields)) ∧
      result.flatMap bools = deposit false (indexBits fields) u := by
  induction fields generalizing carry carryOut u v with
  | nil => exact ⟨carryOut, [], rfl, by simpa [select] using hv, rfl⟩
  | cons p fields ih =>
    obtain ⟨strm, index⟩ := p
    obtain ⟨c, rfl, hcu⟩ := hc (List.cons_ne_nil _ _)
    simp only [List.length_cons] at hroom
    have hpop := popcount_le index
    have hlen := length_select_bools strm index
    have hbits := (spells_pext strm index).setWidth (by omega) w
    have hnext := hv.append rfl hbits
    rw [BitVec.or_comm] at hnext
    have hshr : fields ≠ [] → ∃ c', createLShr c (popcount index) = .ok c' ∧
        Spells c' (u.drop (popcount index)) := by
      intro hne
      have hpos := List.length_pos_iff.2 hne
      exact ⟨_, createLShr_eq (by omega), hcu.drop hu _⟩
    obtain ⟨carryOut', result, he, hs, hr⟩ := ih (by rw [List.length_drop]; omega) hshr
      (by rw [List.length_append, hlen]; omega) hnext
    refine ⟨carryOut', pdep (c.setWidth 64) index :: result, ?_, ?_, ?_⟩
    · rw [List.length_append, hlen] at he
      have hshl : createShl ((pext strm index).setWidth w) v.length =
          .ok ((pext strm index).setWidth w <<< v.length) := createShl_eq (by omega)
      rw [advancePastCarry, ok_bind]
      simp only [hshl, ok_bind, he]
      rfl
    · rw [List.append_assoc] at hs
      simpa only [indexBits_cons, strmBits_cons, select_append, length_bools] using hs
    · rw [List.flatMap_cons, hr, indexBits_cons, deposit_append]
      congr 1
      apply bools_pdep
      intro k hk
      rw [BitVec.getLsbD_setWidth, decide_eq_true (by omega), Bool.true_and, hcu k (by omega)]

end Block

end Parabix.Pablo
