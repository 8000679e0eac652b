import Parabix.Pablo.CarryQueue

namespace Parabix.Pablo

open Library Library.DelayLine

section Statement

variable {n w : ℕ} {st : IndexedState w} {q : List Bool}

/-- The state of the statement holds what is in flight. -/
def Refines (n : ℕ) (st : IndexedState w) (q : List Bool) : Prop :=
  if w < n then
    ∃ p, st.IndexedAdvancePosition = p % sizeMax ∧ InQueue n st p q
  else
    q.length = n ∧ Spells (st.carries 0) q

theorem Refines.setSummary (h : Refines n st q) (x : Bool) :
    Refines n { st with summary := x } q := by
  unfold Refines at h ⊢
  split_ifs at h ⊢
  · obtain ⟨p, hp, hq⟩ := h
    exact ⟨p, hp, hq.length, hq.bits, hq.clean⟩
  · exact h

/-- No shift is by the width of a block, and no overrun takes a marker. -/
structure SafeFields (n : ℕ) (st : IndexedState w) (q : List Bool) (fields : List (Pack × Pack)) :
    Prop where
  shift : 64 ≤ n → n ≤ w → ∀ p ∈ fields, n - popcount p.2 < w ∧ popcount p.2 < w
  overrun : w < n → Overrun n w st.IndexedAdvancePosition →
    ∀ k, (indexBits fields).count true ≤ k → k < w - st.IndexedAdvancePosition % w →
      q.getD k false = false

theorem getD_take {k c : ℕ} (hk : k < c) : (q.take c).getD k false = q.getD k false := by
  rw [List.getD_eq_getElem?_getD, List.getElem?_take_of_lt hk, ← List.getD_eq_getElem?_getD]

theorem loadQueue_spells {m r p : ℕ} (h : QueueSize n w m r) (hlt : w < n)
    (hq : InQueue n st p q) : Spells (loadQueue n st (p % sizeMax)) (q.take w) := by
  intro k hk
  rw [getLsbD_loadQueue h st hk, hq.bits k (by omega), getD_take hk]

theorem longStatement_spec {j : ℕ} (hj : j ≤ 31) (hw : w = 2 ^ j) (hmax : n ≤ 2 ^ 31)
    (hlt : w < n) (h64 : 64 ≤ w) {b : IndexedBlock} (hb : 64 * b.fields.length = w)
    (kind : SummaryKind) (h : Refines n st q) (hsafe : SafeFields n st q b.fields) :
    ∃ result st', indexedAdvanceCarryInCarryOut n st b kind = .ok (result, st', false) ∧
      Refines n st' (flight (indexBits b.fields) (strmBits b.fields) q) ∧
      result.flatMap bools = output false (indexBits b.fields) (strmBits b.fields) q := by
  obtain ⟨m, r, hsize⟩ := queueSize (by omega) hmax hj hw
  rw [Refines, if_pos hlt] at h
  obtain ⟨p, hp, hq⟩ := h
  have hlen := hq.length
  have hcount := count_indexBits_le b.fields
  have hselect := length_select (length_strmBits b.fields)
  have hload : Spells (loadQueue n st (p % sizeMax)) (q.take w) := loadQueue_spells hsize hlt hq
  have hempty : Spells (0 : BitVec w) [] := by simpa using spells_zero (w := w) 0
  obtain ⟨carryOut, result, he, hc, hr⟩ := advancePastCarry_spec b.fields
    (by simp) (fun _ ↦ ⟨_, rfl, hload⟩) (by simp; omega) hempty
  rw [List.nil_append] at hc
  have hdvd : w ∣ sizeMax := Nat.dvd_trans (Nat.dvd_mul_right ..) hsize.dvd
  have hpos : st.IndexedAdvancePosition % w = p % w := by
    rw [hp, Nat.mod_mod_of_dvd _ hdvd]
  have hover : Overrun n w p ↔ Overrun n w st.IndexedAdvancePosition := by
    rw [Overrun, Overrun, hpos]
  have hstore := hq.store hsize (by omega) hc fun ho k h1 h2 ↦
    hsafe.overrun hlt (hover.1 ho) k (by rwa [← hselect]) (by rwa [hpos])
  refine ⟨result, { storeQueue n st ((st.IndexedAdvancePosition + n) % sizeMax) carryOut with
    IndexedAdvancePosition := (st.IndexedAdvancePosition + (indexBits b.fields).count true) %
      sizeMax }, ?_, ?_, ?_⟩
  · have hbits : bitblock_indexed_advance b.fields
        (loadQueue n st st.IndexedAdvancePosition) n = .ok (carryOut, result) := by
      rw [bitblock_indexed_advance, if_neg (by omega), if_neg (by omega), hp]
      exact he
    rw [indexedAdvanceCarryInCarryOut, if_neg (by rw [longAdvanceBreakpoint]; omega),
      if_neg (by omega)]
    simp only [hbits, ok_bind]
    rfl
  · rw [Refines, if_pos hlt]
    refine ⟨p + (indexBits b.fields).count true, by simp only [hp, Nat.mod_add_mod], ?_⟩
    rw [hselect, ← Nat.mod_add_mod, ← hp] at hstore
    exact ⟨hstore.length, hstore.bits, hstore.clean⟩
  · rw [hr, output]
    apply deposit_congr
    intro k hk
    rw [getD_take (by omega), List.getD_append _ _ _ _ (by omega)]

theorem statement_spec {j : ℕ} (hj : j ≤ 31) (hw : w = 2 ^ j) (hn : 0 < n) (hmax : n ≤ 2 ^ 31)
    (h64 : 64 ≤ w) {b : IndexedBlock} (hb : 64 * b.fields.length = w) (kind : SummaryKind)
    (h : Refines n st q) (hsafe : SafeFields n st q b.fields) :
    ∃ result st' own, indexedAdvanceCarryInCarryOut n st b kind = .ok (result, st', own) ∧
      Refines n st' (flight (indexBits b.fields) (strmBits b.fields) q) ∧
      result.flatMap bools = output false (indexBits b.fields) (strmBits b.fields) q ∧
      (n < 64 → own = false → ∀ x ∈ flight (indexBits b.fields) (strmBits b.fields) q, x = false) := by
  by_cases hlong : w < n
  · obtain ⟨result, st', he, h', hr⟩ := longStatement_spec hj hw hmax hlong h64 hb kind h hsafe
    exact ⟨result, st', false, he, h', hr, fun _ ↦ by omega⟩
  · rw [Refines, if_neg hlong] at h
    obtain ⟨hq, hc⟩ := h
    have hlen : (flight (indexBits b.fields) (strmBits b.fields) q).length = n := by
      rw [length_flight (length_strmBits b.fields), hq]
    by_cases hshort : n < 64
    · obtain ⟨carryOut, result, he, hadv⟩ := advanceFields_spec hn hshort b.fields hq
        (hc.setWidth (by omega) 64)
      have hcarry := hadv.carry.setWidth (v := w) (by rw [hlen]; omega)
      refine ⟨result, st.store 0 (carryOut.setWidth w), carryOut.setWidth w ≠ 0, ?_, ?_,
        hadv.result, fun _ hzero ↦ ?_⟩
      · rw [indexedAdvanceCarryInCarryOut, if_pos (by rw [longAdvanceBreakpoint]; omega),
          bitblock_indexed_advance, if_pos hshort, he]
        rfl
      · rw [Refines, if_neg hlong]
        exact ⟨hlen, hcarry⟩
      · simp only [ne_eq, decide_not, Bool.not_eq_false', decide_eq_true_eq] at hzero
        exact (hcarry.eq_zero_iff (by rw [hlen]; omega)).1 hzero
    · obtain ⟨carryOut, result, he, hadv⟩ := advanceThroughCarry_spec (by omega) (by omega)
        (hsafe.shift (by omega) (by omega)) hq hc
      refine ⟨result, st.store 0 carryOut, kind = .ExplicitSummary ∧ (strmBits b.fields).any id, ?_, ?_,
        hadv.result, fun h ↦ absurd h hshort⟩
      · rw [indexedAdvanceCarryInCarryOut, if_neg (by rw [longAdvanceBreakpoint]; omega),
          if_pos (by omega), bitblock_indexed_advance, if_neg hshort, if_pos (by omega), he]
        rfl
      · rw [Refines, if_neg hlong]
        exact ⟨hlen, hadv.carry⟩

end Statement

section Scope

variable {w : ℕ} {s : Scope} {n : ℕ} {st : IndexedState w} {q : List Bool} {b : IndexedBlock}

/-- Where the body is skipped, there are no markers for it. -/
def GuardedRun (s : Scope) (n : ℕ) : List IndexedBlock → IndexedState w → Prop
  | [], _ => True
  | b :: bs, st =>
    (enters s n st b = false → ∀ x ∈ select (indexBits b.fields) (strmBits b.fields), x = false) ∧
      ∀ result st', indexedStep s n st b = .ok (result, st') → GuardedRun s n bs st'

/-- The body is not skipped at an index position while a marker is in flight. -/
def SafeBlock (s : Scope) (n : ℕ) (st : IndexedState w) (q : List Bool) (b : IndexedBlock) : Prop :=
  if enters s n st b then
    SafeFields n st q b.fields
  else
    n < 64 ∨ (indexBits b.fields).count true = 0 ∨ ∀ x ∈ q, x = false

def SafeRun (s : Scope) (n : ℕ) : List IndexedBlock → IndexedState w → List Bool → Prop
  | [], _, _ => True
  | b :: bs, st, q => SafeBlock s n st q b ∧ ∀ result st', indexedStep s n st b = .ok (result, st') →
      SafeRun s n bs st' (flight (indexBits b.fields) (strmBits b.fields) q)

/-- The state of the statement and the summary of its scope stand for what is in flight. -/
structure Tracks (s : Scope) (n : ℕ) (st : IndexedState w) (q : List Bool) : Prop where
  refines : Refines n st q
  summary : n < 64 → s.summaryKind n w = .ExplicitSummary → st.summary = false →
    ∀ x ∈ q, x = false

theorem Tracks.length (h : Tracks s n st q) : q.length = n := by
  have hr := h.refines
  unfold Refines at hr
  split_ifs at hr
  · obtain ⟨p, -, hq⟩ := hr
    exact hq.length
  · exact hr.1

/-- With a short form nothing is in flight when the body is skipped. -/
theorem Tracks.skipped (h64 : 64 ≤ w) (h : Tracks s n st q) (he : enters s n st b = false)
    (hlt : n < 64) : ∀ x ∈ q, x = false := by
  unfold enters at he
  cases hk : s.summaryKind n w with
  | NoSummary => simp [hk] at he
  | BorrowedSummary =>
    simp only [hk, Bool.or_eq_false_iff, decide_eq_false_iff_not, ne_eq, not_not] at he
    have hr := h.refines
    rw [Refines, if_neg (by omega)] at hr
    exact (hr.2.eq_zero_iff (by omega)).1 he.2
  | ExplicitSummary =>
    simp only [hk, Bool.or_eq_false_iff] at he
    exact h.summary hlt hk he.2

theorem condition_of_skipped (he : enters s n st b = false) : b.condition = false := by
  unfold enters at he
  cases hk : s.summaryKind n w <;> simp only [hk, Bool.or_eq_false_iff] at he
  · cases he
  · exact he.1
  · exact he.1

theorem flatMap_bools_zeros (fields : List (Pack × Pack)) :
    (fields.map fun _ ↦ (0 : Pack)).flatMap bools =
      List.replicate (indexBits fields).length false := by
  rw [length_indexBits]
  induction fields with
  | nil => rfl
  | cons p fields ih =>
    rw [List.map_cons, List.flatMap_cons, ih, bools_zero, List.replicate_append_replicate,
      List.length_cons, Nat.mul_add, Nat.add_comm]

variable {j : ℕ}

theorem step_spec (hj : j ≤ 31) (hw : w = 2 ^ j) (hn : 0 < n) (hmax : n ≤ 2 ^ 31) (h64 : 64 ≤ w)
    (hb : 64 * b.fields.length = w)
    (hguard : enters s n st b = false →
      ∀ x ∈ select (indexBits b.fields) (strmBits b.fields), x = false)
    (h : Tracks s n st q) (hsafe : SafeBlock s n st q b) :
    ∃ result st', indexedStep s n st b = .ok (result, st') ∧
      Tracks s n st' (flight (indexBits b.fields) (strmBits b.fields) q) ∧
      result.flatMap bools = output false (indexBits b.fields) (strmBits b.fields) q := by
  unfold SafeBlock at hsafe
  unfold indexedStep
  split_ifs at hsafe ⊢ with he
  · obtain ⟨result, st', own, hs, hr, ho, hsum⟩ :=
      statement_spec hj hw hn hmax h64 hb (s.summaryKind n w) h.refines hsafe
    refine ⟨result, { st' with summary := own || (s.others ≠ 0 && b.otherCarry) },
      by rw [hs]; rfl, ⟨hr.setSummary _, fun hlt _ hz ↦ ?_⟩, ho⟩
    exact hsum hlt (Bool.or_eq_false_iff.1 hz).1
  · have hskip : enters s n st b = false := by simpa using he
    have hin := hguard hskip
    have hlen := length_strmBits b.fields
    have hsame : output false (indexBits b.fields) (strmBits b.fields) q =
        List.replicate (indexBits b.fields).length false ∧
          flight (indexBits b.fields) (strmBits b.fields) q = q := by
      obtain hcount | hzero : (indexBits b.fields).count true = 0 ∨ ∀ x ∈ q, x = false := by
        obtain hlt | hcount | hzero := hsafe
        · exact .inr (h.skipped h64 hskip hlt)
        · exact .inl hcount
        · exact .inr hzero
      · exact output_blank hcount hlen
      · obtain rfl : q = List.replicate n false := by
          rw [← h.length]
          exact List.eq_replicate_iff.2 ⟨rfl, hzero⟩
        exact output_idle hin hlen
    refine ⟨_, st, rfl, ?_, ?_⟩
    · rw [hsame.2]
      exact h
    · rw [hsame.1]
      exact flatMap_bools_zeros b.fields

theorem run_spec (hj : j ≤ 31) (hw : w = 2 ^ j) (hn : 0 < n) (hmax : n ≤ 2 ^ 31) (h64 : 64 ≤ w)
    {bs : List IndexedBlock} (hb : ∀ b ∈ bs, 64 * b.fields.length = w)
    (hguard : GuardedRun s n bs st) (h : Tracks s n st q) (hsafe : SafeRun s n bs st q) :
    ∃ result st', indexedRun s n bs st = .ok (result, st') ∧
      result.flatMap bools = output false (indexBits (bs.flatMap IndexedBlock.fields))
        (strmBits (bs.flatMap IndexedBlock.fields)) q := by
  induction bs generalizing st q with
  | nil => exact ⟨[], st, rfl, rfl⟩
  | cons b bs ih =>
    obtain ⟨result, st₁, he, ht, ho⟩ := step_spec hj hw hn hmax h64 (hb b (List.mem_cons_self ..))
      hguard.1 h hsafe.1
    obtain ⟨results, st₂, he', ho'⟩ := ih (fun b hm ↦ hb b (List.mem_cons_of_mem _ hm))
      (hguard.2 result st₁ he) ht (hsafe.2 result st₁ he)
    refine ⟨result ++ results, st₂, by rw [indexedRun, he, ok_bind]; simp only [he']; rfl, ?_⟩
    rw [List.flatMap_append, ho, ho', List.flatMap_cons, indexBits_append, strmBits_append,
      output_append (length_strmBits _)]

theorem tracks_initial (s : Scope) (n w : ℕ) :
    Tracks s n (IndexedState.initial w) (List.replicate n false) where
  refines := by
    unfold Refines
    split_ifs
    · exact ⟨0, rfl, inQueue_initial n w⟩
    · exact ⟨by simp, spells_zero n⟩
  summary := fun _ _ _ x hx ↦ List.eq_of_mem_replicate hx

/-- Markers come with a condition that is not zero. -/
theorem guardedRun_of_condition {bs : List IndexedBlock} (h : ∀ b ∈ bs, b.condition = false →
    ∀ x ∈ select (indexBits b.fields) (strmBits b.fields), x = false) (st : IndexedState w) :
    GuardedRun s n bs st := by
  induction bs generalizing st with
  | nil => trivial
  | cons b bs ih =>
    refine ⟨fun he ↦ h b (List.mem_cons_self ..) (condition_of_skipped he), fun _ st' _ ↦ ?_⟩
    exact ih (fun b hb ↦ h b (List.mem_cons_of_mem _ hb)) st'

/-- The short form needs no condition. -/
theorem safeRun_of_short (hn : n < 64) (h64 : 64 ≤ w) (bs : List IndexedBlock)
    (st : IndexedState w) (q : List Bool) : SafeRun s n bs st q := by
  induction bs generalizing st q with
  | nil => trivial
  | cons b bs ih =>
    refine ⟨?_, fun _ st' _ ↦ ih st' _⟩
    unfold SafeBlock
    split_ifs
    · exact ⟨fun h ↦ by omega, fun h ↦ by omega⟩
    · exact .inl hn

/-- Nor does the carry queue at the top level, when it has a block to spare. -/
theorem safeRun_of_room (hs : ¬ s.nested) (hn : w < n)
    (hroom : carryQueueBlocks n w ≠ ceil_udiv n w + 1) (bs : List IndexedBlock)
    (st : IndexedState w) (q : List Bool) : SafeRun s n bs st q := by
  induction bs generalizing st q with
  | nil => trivial
  | cons b bs ih =>
    refine ⟨?_, fun _ st' _ ↦ ih st' _⟩
    have henters : enters s n st b = true := by
      rw [enters, Scope.summaryKind, if_neg hs]
    rw [SafeBlock, if_pos henters]
    exact ⟨fun _ h ↦ by omega, fun _ h ↦ absurd h.1 hroom⟩

end Scope

/-- The run places each marker `n` index positions on. -/
def Places (s : Scope) (n w : ℕ) (bs : List IndexedBlock) : Prop :=
  ∃ result st, indexedRun s n bs (IndexedState.initial w) = .ok (result, st) ∧
    Shifted false n (indexBits (bs.flatMap IndexedBlock.fields))
      (strmBits (bs.flatMap IndexedBlock.fields)) (result.flatMap bools)

/-- Compiled block by block, at the top level and in an if, each marker is put `n` index positions
on, in every run in which no block takes a marker away. -/
theorem indexedAdvance_exact (ifDepth others j n : ℕ) (hj : 6 ≤ j) (hj' : j ≤ 31) (hn : 0 < n)
    (hmax : n ≤ 2 ^ 31) (bs : List IndexedBlock) (hb : ∀ b ∈ bs, 64 * b.fields.length = 2 ^ j)
    (hguard : GuardedRun ⟨ifDepth, 0, others⟩ n bs (IndexedState.initial (2 ^ j)))
    (hsafe : SafeRun ⟨ifDepth, 0, others⟩ n bs (IndexedState.initial (2 ^ j))
      (List.replicate n false)) :
    Places ⟨ifDepth, 0, others⟩ n (2 ^ j) bs := by
  have h64 : 64 ≤ 2 ^ j := Nat.pow_le_pow_right (n := 2) (by omega) hj
  obtain ⟨result, st, he, ho⟩ :=
    run_spec hj' rfl hn hmax h64 hb hguard (tracks_initial _ n _) hsafe
  refine ⟨result, st, he, ?_⟩
  rw [ho]
  exact delayed_shifted false n (length_strmBits _)

theorem indexedAdvance_exact_short : Places ⟨1, 0, 1⟩ 2 (2 ^ 6)
    [⟨true, [(5, 7)], false⟩, ⟨false, [(0, 0)], false⟩, ⟨false, [(0, 6)], false⟩] :=
  indexedAdvance_exact 1 1 6 2 (by decide) (by decide) (by decide) (by decide) _ (by simp)
    (guardedRun_of_condition (by
      intro b hb hc
      simp only [List.mem_cons, List.not_mem_nil, or_false] at hb
      obtain rfl | rfl | rfl := hb
      · cases hc
      · decide
      · decide) _)
    (safeRun_of_short (by decide) (by decide) _ _ _)

theorem not_places {s : Scope} {n w : ℕ} {bs : List IndexedBlock} (result : List Pack) (k : ℕ)
    (he : (indexedRun s n bs (IndexedState.initial w)).map Prod.fst = .ok result)
    (hk : k + n < (indexBits (bs.flatMap IndexedBlock.fields)).count true)
    (hne : (select (indexBits (bs.flatMap IndexedBlock.fields))
      (result.flatMap bools)).getD (k + n) false ≠
        (select (indexBits (bs.flatMap IndexedBlock.fields))
          (strmBits (bs.flatMap IndexedBlock.fields))).getD k false) : ¬ Places s n w bs := by
  rintro ⟨result', st, he', h⟩
  rw [he'] at he
  obtain rfl : result' = result := Except.ok.inj he
  exact hne (h.place k hk)

/-- The second marker is overrun in the carry queue at the top level. The one marker is still in
flight when the summary of the if is zero, which does not see the carry, or not the queue. -/
theorem indexedAdvance_loses_markers :
    ¬ Places ⟨0, 0, 0⟩ 192 64 [⟨true, [(3, BitVec.allOnes 64)], false⟩,
      ⟨true, [(0, BitVec.allOnes 64)], false⟩, ⟨true, [(0, BitVec.allOnes 64)], false⟩,
      ⟨true, [(0, 1)], false⟩, ⟨true, [(0, 0)], false⟩, ⟨true, [(0, 1)], false⟩] ∧
    ¬ Places ⟨1, 0, 1⟩ 64 128 [⟨true, [(1, 1), (0, 0)], false⟩, ⟨false, [(0, 0), (0, 0)], false⟩,
      ⟨false, [(0, BitVec.allOnes 64), (0, 1)], false⟩] ∧
    ¬ Places ⟨1, 0, 0⟩ 65 64 [⟨true, [(1, 1)], false⟩, ⟨false, [(0, BitVec.allOnes 64)], false⟩,
      ⟨false, [(0, 1)], false⟩] := by
  refine ⟨not_places [0, 0, 0, 1, 0, 0] 1 ?_ ?_ ?_, not_places [0, 0, 0, 0, 0, 0] 0 ?_ ?_ ?_,
    not_places [0, 0, 0] 0 ?_ ?_ ?_⟩
  all_goals decide +kernel

end Parabix.Pablo
