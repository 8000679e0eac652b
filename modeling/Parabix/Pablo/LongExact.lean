import Parabix.Pablo.LongSummary

namespace Parabix.Pablo

open Library Library.BitStream

section Statement

variable {w n d s : ℕ} {st : LongState w} {pre : List (Option (BitVec w))}

/-- The state after the statement. -/
def LongState.stored (st : LongState w) (n k : ℕ) (value bs : BitVec w) : LongState w :=
  { st.store (k % bufferBlocks n w) value with blockSummary := bs }

theorem Kept.stored (h : Kept n st.carries pre) (value bs : BitVec w) :
    Kept n (st.stored n pre.length value bs).carries (pre ++ [some value]) :=
  h.push_run (fun _ hi ↦ if_neg hi) (if_pos rfl)

theorem longAdvance_eq {st₁ st₂ : LongState w} {nested inLoop own : Bool} {value result : BitVec w}
    (hadd : addBlockSummary n st value nested = .ok (st₁, own))
    (hbuffer : advanceBuffer n st₁ value inLoop = (result, st₂)) :
    longAdvanceCarryInCarryOut n st value nested inLoop = .ok (result, st₂, own) := by
  rw [longAdvanceCarryInCarryOut, hadd]
  simp only [bind, Except.bind, hbuffer]
  rfl

theorem longAdvance_ok (hsize : BufferSize n w d s)
    (hindex : st.CarryBlockIndex = BitVec.ofNat 32 pre.length) (hkept : Kept n st.carries pre)
    (hunspoiled : Unspoiled n st.carries pre) (value : BitVec w) (nested inLoop : Bool)
    (hroom : nested = true → Room n w)
    (hself : n < w → inLoop = true → st.carries 0 <<< n = value <<< n) :
    ∃ bs own, longAdvanceCarryInCarryOut n st value nested inLoop =
        .ok (advanceBlock n (inputs pre ++ [value]) pre.length,
          st.stored n pre.length value bs, own) ∧
      addBlockSummary n st value nested = .ok ({ st with blockSummary := bs }, own) := by
  obtain ⟨bs, own, hadd⟩ := addBlockSummary_ok n st value hroom
  have hbuffer := advanceBuffer_eq { st with blockSummary := bs } value inLoop hsize hindex
    hkept hunspoiled hself
  exact ⟨bs, own, longAdvance_eq hadd hbuffer, hadd⟩

end Statement

section Ifs

variable {w n d s : ℕ} {st st' : LongState w} {xs : List (BitVec w)} {others : List ℕ}
  {summaries : List Bool} {scopes : List (Bool × Bool)} {value : BitVec w} {own : Bool}

/-- Every body down to the statement is run. -/
def entersIfs (n : ℕ) (st : LongState w) : List ℕ → List Bool → List (Bool × Bool) → Bool
  | o :: os, s :: ss, (condition, _) :: cs =>
    (condition || readIfSummary n st (o :: os) (s :: ss)) && entersIfs n st os ss cs
  | _, _, _ => true

/-- No summary is zero while a bit is in flight. -/
def Covered (n : ℕ) (st : LongState w) (xs : List (BitVec w)) : List ℕ → List Bool → Prop
  | o :: os, s :: ss =>
    (readIfSummary n st (o :: os) (s :: ss) = false → ¬inFlight n xs) ∧ Covered n st xs os ss
  | _, _ => True

theorem covered_idle (hnot : ¬inFlight n xs) (others : List ℕ) (summaries : List Bool) :
    Covered n st xs others summaries := by
  induction others generalizing summaries with
  | nil => trivial
  | cons o os ih =>
    cases summaries with
    | nil => trivial
    | cons s ss => exact ⟨fun _ ↦ hnot, ih ss⟩

/-- A summary that is zero is that of one of the scopes, or the entry of a single block. -/
theorem readIfSummary_false (hlen : summaries.length = others.length) (hne : others ≠ [])
    (h : readIfSummary n st others summaries = false) :
    false ∈ summaries ∨ ceil_udiv n w = 1 ∧ st.carries 0 = 0 := by
  induction others generalizing summaries with
  | nil => exact absurd rfl hne
  | cons o os ih =>
    cases summaries with
    | nil => cases hlen
    | cons s ss =>
      rw [readIfSummary] at h
      split_ifs at h with hexplicit
      · exact .inl (h ▸ List.mem_cons_self ..)
      · cases os with
        | nil =>
          have hss : ss = [] := List.length_eq_zero_iff.1 (Nat.succ.inj hlen)
          subst hss
          refine .inr ⟨?_, by simpa [readIfSummary] using h⟩
          by_contra hk
          apply hexplicit
          simp [isExplicit, hk]
        | cons o' os' =>
          rcases ih (Nat.succ.inj hlen) (List.cons_ne_nil _ _) h with hmem | hborrowed
          · exact .inl (List.mem_cons_of_mem _ hmem)
          · exact .inr hborrowed

theorem covered_of_own (hlen : summaries.length = others.length)
    (hall : inFlight n xs → ∀ s ∈ summaries, s = true)
    (hborrowed : ceil_udiv n w = 1 → st.carries 0 = 0 → ¬inFlight n xs) :
    Covered n st xs others summaries := by
  induction others generalizing summaries with
  | nil => trivial
  | cons o os ih =>
    cases summaries with
    | nil => trivial
    | cons s ss =>
      refine ⟨fun hread hin ↦ ?_, ih (Nat.succ.inj hlen) fun hin u hu ↦
        hall hin u (List.mem_cons_of_mem _ hu)⟩
      rcases readIfSummary_false hlen (List.cons_ne_nil _ _) hread with hmem | ⟨hk, hzero⟩
      · exact absurd (hall hin _ hmem) (by simp)
      · exact hborrowed hk hzero hin

theorem not_inFlight_of_skipped (hcovered : Covered n st xs others summaries)
    (h : entersIfs n st others summaries scopes = false) : ¬inFlight n xs := by
  induction others generalizing summaries scopes with
  | nil => simp [entersIfs] at h
  | cons o os ih =>
    match summaries, scopes, hcovered with
    | [], _, _ => simp [entersIfs] at h
    | _ :: _, [], _ => simp [entersIfs] at h
    | s :: ss, (condition, _) :: cs, ⟨hread, hcovered⟩ =>
      rw [entersIfs, Bool.and_eq_false_iff, Bool.or_eq_false_iff] at h
      rcases h with ⟨_, hfalse⟩ | hinner
      · exact hread hfalse
      · exact ih hcovered hinner

theorem runIfs_skipped {nested : Bool} (hlen : summaries.length = others.length)
    (h : entersIfs n st others summaries scopes = false) : ∃ summaries' nestedSummary,
      runIfs n nested others summaries scopes st value = .ok (0, st, summaries', nestedSummary) ∧
        summaries'.length = others.length := by
  induction others generalizing summaries scopes with
  | nil => simp [entersIfs] at h
  | cons o os ih =>
    match summaries, scopes, hlen with
    | [], _, _ => simp [entersIfs] at h
    | _ :: _, [], _ => simp [entersIfs] at h
    | s :: ss, (condition, otherCarry) :: cs, hlen =>
      rw [entersIfs] at h
      rw [runIfs]
      cases hrun : condition || readIfSummary n st (o :: os) (s :: ss) with
      | false => exact ⟨_, _, rfl, hlen⟩
      | true =>
        rw [hrun, Bool.true_and] at h
        obtain ⟨ss', sm, hinner, hlen'⟩ := ih (Nat.succ.inj hlen) h
        rw [hinner]
        exact ⟨_, _, rfl, congrArg Nat.succ hlen'⟩

theorem runIfs_entered {nested : Bool} {result : BitVec w}
    (hsum : summaries.length = others.length) (hcond : scopes.length = others.length)
    (h : entersIfs n st others summaries scopes = true)
    (hstatement : longAdvanceCarryInCarryOut n st value nested false = .ok (result, st', own)) :
    ∃ summaries' nestedSummary,
      runIfs n nested others summaries scopes st value =
        .ok (result, st', summaries', nestedSummary) ∧
      summaries'.length = others.length ∧
      (own = true → nestedSummary = true ∧ ∀ s ∈ summaries', s = true) := by
  induction others generalizing summaries scopes with
  | nil =>
    refine ⟨[], own, ?_, rfl, fun hown ↦ ⟨hown, by simp⟩⟩
    simp only [runIfs, hstatement]
    rfl
  | cons o os ih =>
    match summaries, scopes, hsum, hcond with
    | s :: ss, (condition, otherCarry) :: cs, hsum, hcond =>
      rw [entersIfs, Bool.and_eq_true] at h
      obtain ⟨ss', sm, hinner, hlen', hown⟩ := ih (Nat.succ.inj hsum) (Nat.succ.inj hcond) h.2
      rw [runIfs, if_pos h.1, hinner]
      refine ⟨_, _, rfl, congrArg Nat.succ hlen', fun htrue ↦ ?_⟩
      obtain ⟨hsm, hall⟩ := hown htrue
      rw [hsm, Bool.true_or]
      refine ⟨rfl, fun u hu ↦ ?_⟩
      rcases List.mem_cons.1 hu with rfl | hu
      · rfl
      · exact hall u hu

end Ifs

section Loop

variable {w n d s : ℕ} {st st₀ : LongState w} {pre : List (Option (BitVec w))}

/-- With an entry to spare the block is not stored where the statement reads. -/
theorem advanceBuffer_congr (st : LongState w) (hsize : BufferSize n w d s)
    (hS : bufferBlocks n w ≠ ceil_udiv n w)
    (hindex : st.CarryBlockIndex = BitVec.ofNat 32 pre.length)
    (hindex₀ : st₀.CarryBlockIndex = BitVec.ofNat 32 pre.length)
    (hsame : ∀ i, i ≠ pre.length % bufferBlocks n w → st.carries i = st₀.carries i)
    (value value₀ : BitVec w) :
    advanceBuffer n st value true =
      ((advanceBuffer n st₀ value₀ true).1, st.store (pre.length % bufferBlocks n w) value) := by
  have hle := blocks_le n w
  have hpos := hsize.pos
  have hone : ceil_udiv n w ≠ 1 := by
    intro h
    rw [bufferBlocks, h] at hS
    exact hS rfl
  have hread (e : ℕ) (he : 0 < e) (hlt : e < bufferBlocks n w) :
      st.carries (carryIndex (BitVec.ofNat 32 pre.length) (ceil_udiv n w) e) =
        st₀.carries (carryIndex (BitVec.ofNat 32 pre.length) (ceil_udiv n w) e) := by
    apply hsame
    rw [carryIndex_eq hsize _ (Nat.le_of_lt hlt), ← Nat.add_mod_right pre.length]
    exact mod_ne_mod (by omega) (by omega)
  have hin := hread (ceil_udiv n w) hpos (by omega)
  have hin2 := hread (ceil_udiv n w - 1) (by omega) (by omega)
  have hout := carryIndex_eq hsize pre.length (Nat.zero_le (bufferBlocks n w))
  rw [Nat.sub_zero, Nat.add_mod_right] at hout
  have hloop : ¬(n < w ∧ true = false) := by simp
  simp only [advanceBuffer, if_neg hloop, hindex, hindex₀, hin, hin2, hout]
  split_ifs
  · rfl
  · rfl

theorem runIterations_cons {st₁ st₂ : LongState w} {value first rest : BitVec w}
    {more : List (BitVec w)} {own owns : Bool}
    (hfirst : longAdvanceCarryInCarryOut n st value true true = .ok (first, st₁, own))
    (hrest : runIterations n more st₁ = .ok (rest, st₂, owns)) :
    runIterations n (value :: more) st = .ok (first ||| rest, st₂, own || owns) := by
  rw [runIterations, hfirst]
  simp only [bind, Except.bind, hrest]
  rfl

/-- Each iteration in a block has the same result, and the last one is stored. -/
theorem runIterations_ok (hsize : BufferSize n w d s) (hroom : Room n w)
    (hS : bufferBlocks n w ≠ ceil_udiv n w)
    (hindex₀ : st₀.CarryBlockIndex = BitVec.ofNat 32 pre.length) (value₀ : BitVec w)
    (more : List (BitVec w)) (value : BitVec w)
    (hindex : st.CarryBlockIndex = BitVec.ofNat 32 pre.length)
    (hsame : ∀ i, i ≠ pre.length % bufferBlocks n w → st.carries i = st₀.carries i) :
    ∃ st' own, runIterations n (value :: more) st =
        .ok ((advanceBuffer n st₀ value₀ true).1, st', own) ∧
      st'.CarryBlockIndex = st.CarryBlockIndex ∧
      (∀ i, i ≠ pre.length % bufferBlocks n w → st'.carries i = st₀.carries i) ∧
      st'.carries (pre.length % bufferBlocks n w) = more.getLastD value := by
  induction more generalizing value st with
  | nil =>
    obtain ⟨bs, own, hadd⟩ := addBlockSummary_ok n st value (fun _ ↦ hroom)
    have hfirst := longAdvance_eq hadd (advanceBuffer_congr { st with blockSummary := bs } hsize hS
      hindex hindex₀ hsame value value₀)
    have hrun := runIterations_cons hfirst (runIterations.eq_1 n _)
    rw [show (0 : BitVec w) = 0#w from rfl, BitVec.or_zero] at hrun
    exact ⟨_, _, hrun, rfl, fun i hi ↦ (if_neg hi).trans (hsame i hi), if_pos rfl⟩
  | cons next more ih =>
    obtain ⟨bs, own, hadd⟩ := addBlockSummary_ok n st value (fun _ ↦ hroom)
    have hfirst := longAdvance_eq hadd (advanceBuffer_congr { st with blockSummary := bs } hsize hS
      hindex hindex₀ hsame value value₀)
    obtain ⟨st', owns, hrest, hindex', hsame', hlast⟩ := ih next
      (show (LongState.store { st with blockSummary := bs }
        (pre.length % bufferBlocks n w) value).CarryBlockIndex = _ from hindex)
      (fun i hi ↦ (if_neg hi).trans (hsame i hi))
    have hrun := runIterations_cons hfirst hrest
    rw [BitVec.or_self] at hrun
    rw [List.getLastD_cons]
    exact ⟨st', _, hrun, hindex', hsame', hlast⟩

end Loop

end Parabix.Pablo
