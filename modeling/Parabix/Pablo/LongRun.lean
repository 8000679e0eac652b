import Parabix.Pablo.LongExact

namespace Parabix.Pablo

open Library Library.BitStream

section Run

variable {w : ℕ} (n : ℕ) (p : Placement)

/-- The statement is run in this block. -/
def reaches (st : LongState w) (b : LongBlock w) : Bool :=
  match p with
  | .ifs others => entersIfs n st others st.summaries b.scopes
  | .loop others => (b.scopes.headD (false, false)).1 || readLoopSummary n st others

/-- The iterations of a loop give one block. -/
def LongBlock.input (b : LongBlock w) : BitVec w :=
  match p with
  | .ifs _ => b.value
  | .loop _ => b.more.foldl (· ||| ·) b.value

def LongBlock.WellScoped (b : LongBlock w) : Prop :=
  match p with
  | .ifs others => b.scopes.length = others.length
  | .loop _ => b.scopes.length = 1

/-- What is met of a block: nothing where the statement is skipped. -/
def met (st : LongState w) (b : LongBlock w) : Option (BitVec w) :=
  if reaches n p st b then some (b.input p) else none

/-- A property of the blocks of a run, of the blocks before and of the state. -/
def Along (P : List (Option (BitVec w)) → LongState w → LongBlock w → Prop) :
    List (Option (BitVec w)) → LongState w → List (LongBlock w) → Prop
  | _, _, [] => True
  | pre, st, b :: bs => P pre st b ∧ ∀ result st', longStep n p st b = .ok (result, st') →
    Along P (pre ++ [met n p st b]) st' bs

/-- A body is skipped only for blocks with nothing in them. -/
def GuardedBlock (_ : List (Option (BitVec w))) (st : LongState w) (b : LongBlock w) : Prop :=
  reaches n p st b = false → b.input p = 0

/-- What keeps the circular buffer right: `room` for the mask of the summary, entries without the
blocks of an earlier round, and in a loop an entry to spare for each further iteration and a
summary of all that is in flight. -/
structure SafeLongBlock (pre : List (Option (BitVec w))) (st : LongState w) (b : LongBlock w) :
    Prop where
  room : reaches n p st b = true → p.nested → Room n w
  unspoiled : reaches n p st b = true → bufferBlocks n w ≠ ceil_udiv n w →
    Unspoiled n st.carries pre
  self : reaches n p st b = true → p.inLoop = true → n < w →
    st.carries 0 <<< n = b.value <<< n
  more : reaches n p st b = true → p.inLoop = true → b.more ≠ [] →
    bufferBlocks n w ≠ ceil_udiv n w ∧ b.more.getLastD b.value = b.input p
  summary : reaches n p st b = false → p.inLoop = true → ¬inFlight n (inputs pre)

/-- The state after the blocks of a run. -/
structure LongInv (st : LongState w) (pre : List (Option (BitVec w))) : Prop where
  index : st.CarryBlockIndex = BitVec.ofNat 32 pre.length
  kept : Kept n st.carries pre
  scopes : ∀ others, p = .ifs others → st.summaries.length = others.length ∧
    (others ≠ [] → Marked n st.blockSummary (inputs pre)) ∧
    Covered n st (inputs pre) others st.summaries

end Run

section Step

variable {w n d s : ℕ} {p : Placement} {st : LongState w} {pre : List (Option (BitVec w))}
  {b : LongBlock w}

theorem index_succ (k : ℕ) : BitVec.ofNat 32 k + 1 = BitVec.ofNat 32 (k + 1) := by
  rw [BitVec.ofNat_add]
  rfl

theorem Kept.not_inFlight (h : Kept n st.carries pre) (hk : ceil_udiv n w = 1)
    (hzero : st.carries 0 = 0) : ¬inFlight n (inputs pre) := by
  have hS : bufferBlocks n w = 1 := by rw [bufferBlocks, hk]; rfl
  rintro ⟨t, hle, hne⟩
  rw [length_inputs, hk] at hle
  cases hx : pre[t]? with
  | none =>
    rw [inputs, List.getD_eq_getElem?_getD, List.getElem?_map, hx] at hne
    exact hne rfl
  | some x =>
    rw [inputs_getD hx] at hne
    cases x with
    | none => exact hne rfl
    | some v =>
      have hrun := h.run t v hx (by omega)
      rw [hS, Nat.mod_one, hzero] at hrun
      exact hne hrun.symm

theorem SafeLongBlock.reads (hsafe : SafeLongBlock n p pre st b) (hinv : LongInv n p st pre)
    (hreaches : reaches n p st b = true) : Unspoiled n st.carries pre := by
  by_cases hS : bufferBlocks n w = ceil_udiv n w
  · exact hinv.kept.unspoiled hS
  · exact hsafe.unspoiled hreaches hS

theorem longStep_eq {result : BitVec w} {st' : LongState w}
    (h : runBody n p st b = .ok (result, st')) : longStep n p st b = .ok (result, { st' with
      CarryBlockIndex := st'.CarryBlockIndex + 1
      selector := !st'.selector }) := by
  rw [longStep, h]
  rfl

theorem not_inFlight_of_not_reaches (hinv : LongInv n p st pre) (hsafe : SafeLongBlock n p pre st b)
    (hreaches : reaches n p st b = false) : ¬inFlight n (inputs pre) := by
  cases p with
  | ifs others => exact not_inFlight_of_skipped (hinv.scopes others rfl).2.2 hreaches
  | loop others => exact hsafe.summary hreaches rfl

/-- The body of a block where the statement is skipped. -/
theorem runBody_skipped (hinv : LongInv n p st pre) (hreaches : reaches n p st b = false) :
    ∃ summaries, runBody n p st b = .ok (0, { st with summaries }) ∧
      ∀ others, p = .ifs others → summaries.length = others.length := by
  cases p with
  | ifs others =>
    obtain ⟨summaries, nestedSummary, hrun, hlen⟩ :=
      runIfs_skipped (hinv.scopes others rfl).1 hreaches
    refine ⟨summaries, ?_, fun _ h ↦ Placement.ifs.inj h ▸ hlen⟩
    rw [runBody, hrun]
    rfl
  | loop others =>
    refine ⟨[false], ?_, fun _ h ↦ nomatch h⟩
    rw [runBody, runLoop, if_neg (Bool.not_eq_true _ ▸ hreaches)]

theorem longStep_skipped (hsize : BufferSize n w d s) (hinv : LongInv n p st pre)
    (hsafe : SafeLongBlock n p pre st b) (hreaches : reaches n p st b = false) :
    ∃ st', longStep n p st b = .ok (advanceBlock n (inputs pre ++ [0]) pre.length, st') ∧
      LongInv n p st' (pre ++ [none]) := by
  have hnot := not_inFlight_of_not_reaches hinv hsafe hreaches
  obtain ⟨summaries, hrun, hlen⟩ := runBody_skipped hinv hreaches
  have hidle := advanceBlock_idle hsize hnot
  rw [length_inputs] at hidle
  rw [hidle]
  refine ⟨_, longStep_eq hrun, ?_, hinv.kept.push_idle hnot, fun others hp ↦ ⟨hlen others hp, ?_, ?_⟩⟩
  · rw [List.length_append, List.length_singleton, ← index_succ, ← hinv.index]
  · intro hne
    rw [inputs_append]
    exact marked_idle ((hinv.scopes others hp).2.1 hne) hnot
  · rw [inputs_append]
    exact covered_idle (inFlight_idle hnot) _ _

/-- One block, where the statement is run in ifs. -/
theorem longStep_ifs {others : List ℕ} (hsize : BufferSize n w d s)
    (hinv : LongInv n (.ifs others) st pre) (hsafe : SafeLongBlock n (.ifs others) pre st b)
    (hscoped : b.WellScoped (.ifs others)) (hreaches : reaches n (.ifs others) st b = true) :
    ∃ st', longStep n (.ifs others) st b =
        .ok (advanceBlock n (inputs pre ++ [b.value]) pre.length, st') ∧
      LongInv n (.ifs others) st' (pre ++ [some b.value]) := by
  obtain ⟨hlen, hmarked, _⟩ := hinv.scopes others rfl
  have hnested : decide (Placement.ifs others).nested = true → others ≠ [] := of_decide_eq_true
  obtain ⟨bs, own, hstatement, hadd⟩ := longAdvance_ok hsize hinv.index hinv.kept
    (hsafe.reads hinv hreaches) b.value (decide (Placement.ifs others).nested) false
    (fun h ↦ hsafe.room hreaches (hnested h)) (fun _ h ↦ nomatch h)
  obtain ⟨summaries, nestedSummary, hrun, hlen', hown⟩ :=
    runIfs_entered hlen hscoped hreaches hstatement
  have hbody : runBody n (.ifs others) st b =
      .ok (advanceBlock n (inputs pre ++ [b.value]) pre.length,
        { st.stored n pre.length b.value bs with summaries }) := by
    rw [runBody, hrun]
    rfl
  have hkept := hinv.kept.stored b.value bs
  refine ⟨_, longStep_eq hbody, ?_, hkept, fun others' hp ↦ ?_⟩
  · rw [List.length_append, List.length_singleton, ← index_succ, ← hinv.index]
    rfl
  · cases hp
    rw [inputs_append]
    by_cases hne : others = []
    · subst hne
      exact ⟨hlen', fun h ↦ absurd rfl h, trivial⟩
    · rw [decide_eq_true (show (Placement.ifs others).nested from hne)] at hadd
      obtain ⟨hmarked', hown'⟩ := addBlockSummary_spec hsize (hsafe.room hreaches hne)
        (hmarked hne) hadd
      refine ⟨hlen', fun _ ↦ hmarked', covered_of_own hlen' ?_ ?_⟩
      · intro hin
        exact (hown (hown'.2 hin)).2
      · intro hk hzero
        have hnot := hkept.not_inFlight hk hzero
        rwa [inputs_append] at hnot

/-- The iterations of a loop in a block. -/
theorem iterations_ok {others : ℕ} (hsize : BufferSize n w d s)
    (hinv : LongInv n (.loop others) st pre) (hsafe : SafeLongBlock n (.loop others) pre st b)
    (hreaches : reaches n (.loop others) st b = true) : ∃ st' own,
      runIterations n (b.value :: b.more) st =
        .ok (advanceBlock n (inputs pre ++ [b.input (.loop others)]) pre.length, st', own) ∧
      st'.CarryBlockIndex = st.CarryBlockIndex ∧
      Kept n st'.carries (pre ++ [some (b.input (.loop others))]) := by
  have hroom := hsafe.room hreaches trivial
  by_cases hmore : b.more = []
  · have hinput : b.input (.loop others) = b.value := by rw [LongBlock.input, hmore]; rfl
    obtain ⟨bs, own, hstatement, _⟩ := longAdvance_ok hsize hinv.index hinv.kept
      (hsafe.reads hinv hreaches) b.value true true (fun _ ↦ hroom)
      (fun hlt _ ↦ hsafe.self hreaches rfl hlt)
    have hrun := runIterations_cons hstatement (runIterations.eq_1 n _)
    rw [show (0 : BitVec w) = 0#w from rfl, BitVec.or_zero] at hrun
    rw [hinput, hmore]
    exact ⟨_, _, hrun, rfl, hinv.kept.stored b.value bs⟩
  · obtain ⟨hS, hlast⟩ := hsafe.more hreaches rfl hmore
    have hlt : ¬n < w := by
      intro hlt
      obtain ⟨_, _, _, hk, hone⟩ := hsize.small hlt
      exact hS (hone.trans hk.symm)
    have hresult := advanceBuffer_eq st (b.input (.loop others)) true hsize hinv.index hinv.kept
      (hsafe.reads hinv hreaches) (fun h ↦ absurd h hlt)
    obtain ⟨st', own, hrun, hindex, hsame, hstored⟩ := runIterations_ok hsize hroom hS hinv.index
      (b.input (.loop others)) b.more b.value hinv.index (fun _ _ ↦ rfl)
    rw [hresult] at hrun
    exact ⟨st', own, hrun, hindex, hinv.kept.push_run hsame (hstored.trans hlast)⟩

/-- One block, where the statement is run in a loop. -/
theorem longStep_loop {others : ℕ} (hsize : BufferSize n w d s)
    (hinv : LongInv n (.loop others) st pre) (hsafe : SafeLongBlock n (.loop others) pre st b)
    (hreaches : reaches n (.loop others) st b = true) :
    ∃ st', longStep n (.loop others) st b =
        .ok (advanceBlock n (inputs pre ++ [b.input (.loop others)]) pre.length, st') ∧
      LongInv n (.loop others) st' (pre ++ [some (b.input (.loop others))]) := by
  obtain ⟨st₁, own, hrun, hindex, hkept⟩ := iterations_ok hsize hinv hsafe hreaches
  have hbody : ∃ summaries, runBody n (.loop others) st b =
      .ok (advanceBlock n (inputs pre ++ [b.input (.loop others)]) pre.length,
        { st₁ with summaries }) := by
    rw [reaches] at hreaches
    rw [runBody, runLoop, if_pos hreaches, hrun]
    exact ⟨_, rfl⟩
  obtain ⟨summaries, hbody⟩ := hbody
  refine ⟨_, longStep_eq hbody, ?_, hkept, by rintro _ ⟨⟩⟩
  rw [List.length_append, List.length_singleton, ← index_succ, ← hinv.index, ← hindex]

theorem longStep_ok (hsize : BufferSize n w d s) (hinv : LongInv n p st pre)
    (hscoped : b.WellScoped p) (hguard : GuardedBlock n p pre st b)
    (hsafe : SafeLongBlock n p pre st b) : ∃ st',
      longStep n p st b = .ok (advanceBlock n (inputs pre ++ [b.input p]) pre.length, st') ∧
      LongInv n p st' (pre ++ [met n p st b]) ∧ (met n p st b).getD 0 = b.input p := by
  cases hreaches : reaches n p st b with
  | false =>
    obtain ⟨st', hstep, hinv'⟩ := longStep_skipped hsize hinv hsafe hreaches
    rw [met, hreaches, hguard hreaches]
    exact ⟨st', hstep, hinv', rfl⟩
  | true =>
    rw [met, hreaches]
    cases p with
    | ifs others =>
      obtain ⟨st', hstep, hinv'⟩ := longStep_ifs hsize hinv hsafe hscoped hreaches
      exact ⟨st', hstep, hinv', rfl⟩
    | loop others =>
      obtain ⟨st', hstep, hinv'⟩ := longStep_loop hsize hinv hsafe hreaches
      exact ⟨st', hstep, hinv', rfl⟩

end Step

section Exact

variable {w n : ℕ} {p : Placement}

theorem longInv_initial (n : ℕ) (p : Placement) : LongInv n p (.initial w p) [] := by
  refine ⟨rfl, .initial n, fun others hp ↦ ?_⟩
  subst hp
  have hnot : ¬inFlight n (inputs ([] : List (Option (BitVec w)))) := by
    rintro ⟨t, _, hne⟩
    exact hne rfl
  exact ⟨List.length_map _, fun _ ↦ marked_initial n, covered_idle hnot _ _⟩

theorem longRun_ok {d s : ℕ} (hsize : BufferSize n w d s) {bs : List (LongBlock w)}
    {st : LongState w} {pre : List (Option (BitVec w))} (hinv : LongInv n p st pre)
    (hscoped : ∀ b ∈ bs, b.WellScoped p) (hguard : Along n p (GuardedBlock n p) pre st bs)
    (hsafe : Along n p (SafeLongBlock n p) pre st bs) : ∃ results st',
      longRun n p bs st = .ok (results, st') ∧ results.length = bs.length ∧
      ∀ k < bs.length, results.getD k 0 =
        advanceBlock n (inputs pre ++ bs.map (·.input p)) (pre.length + k) := by
  induction bs generalizing st pre with
  | nil => exact ⟨[], st, longRun.eq_1 .., rfl, fun k hk ↦ absurd hk (Nat.not_lt_zero k)⟩
  | cons b bs ih =>
    obtain ⟨st', hstep, hinv', hmet⟩ := longStep_ok hsize hinv (hscoped b (List.mem_cons_self ..))
      hguard.1 hsafe.1
    obtain ⟨results, st'', hrun, hlen, hall⟩ := ih hinv'
      (fun u hu ↦ hscoped u (List.mem_cons_of_mem _ hu)) (hguard.2 _ _ hstep) (hsafe.2 _ _ hstep)
    refine ⟨advanceBlock n (inputs pre ++ [b.input p]) pre.length :: results, st'', ?_,
      congrArg Nat.succ hlen, fun k hk ↦ ?_⟩
    · rw [longRun, hstep]
      simp only [bind, Except.bind, hrun]
      rfl
    · have happend : inputs (pre ++ [met n p st b]) = inputs pre ++ [b.input p] := by
        rw [inputs_append]
        exact congrArg _ (congrArg (fun x ↦ [x]) hmet)
      rw [List.map_cons, List.append_cons _ _ (bs.map _)]
      cases k with
      | zero =>
        have hlt : pre.length < (inputs pre ++ [b.input p]).length := by simp
        rw [List.getD_cons_zero, Nat.add_zero, advanceBlock_append n hlt]
      | succ k =>
        have hnext := hall k (Nat.lt_of_succ_lt_succ hk)
        rw [happend, List.length_append, List.length_singleton, Nat.add_assoc, Nat.add_comm 1 k]
          at hnext
        exact hnext

/-- Until an entry is read that no longer holds its block, the stream is shifted forward. -/
theorem longAdvance_exact {j : ℕ} (p : Placement) (hj : 0 < j) (hw : w = 2 ^ j)
    (hlong : longAdvanceBreakpoint ≤ n) (hmax : n + w ≤ 2 ^ 32) (bs : List (LongBlock w))
    (hscoped : ∀ b ∈ bs, b.WellScoped p)
    (hguard : Along n p (GuardedBlock n p) [] (.initial w p) bs)
    (hsafe : Along n p (SafeLongBlock n p) [] (.initial w p) bs) : ∃ results st,
      longRun n p bs (.initial w p) = .ok (results, st) ∧ results.length = bs.length ∧
      ∀ q < w * bs.length,
        ofBlocks results q = advance n (ofBlocks (bs.map (·.input p))) q := by
  have hsize := bufferSize (Nat.lt_of_lt_of_le (by decide) hlong) hj hw hmax
  obtain ⟨results, st, hrun, hlen, hall⟩ :=
    longRun_ok hsize (longInv_initial n p) hscoped hguard hsafe
  refine ⟨results, st, hrun, hlen, fun q hq ↦ ?_⟩
  have hpos : 0 < w := hw ▸ Nat.two_pow_pos j
  rw [ofBlocks, hall _ (Nat.div_lt_of_lt_mul hq)]
  simp only [inputs, List.map_nil, List.nil_append, List.length_nil, Nat.zero_add]
  rw [getLsbD_advanceBlock hpos _ _ _ (Nat.mod_lt q hpos), Nat.div_add_mod]

/-- A property of all blocks of a run, whatever came before. -/
theorem along_of_forall {P : List (Option (BitVec w)) → LongState w → LongBlock w → Prop}
    {bs : List (LongBlock w)} (h : ∀ b ∈ bs, ∀ pre st, P pre st b)
    (pre : List (Option (BitVec w))) (st : LongState w) : Along n p P pre st bs := by
  induction bs generalizing pre st with
  | nil => trivial
  | cons b bs ih =>
    refine ⟨h b (List.mem_cons_self ..) pre st, fun result st' _ ↦ ?_⟩
    exact ih (fun u hu ↦ h u (List.mem_cons_of_mem _ hu)) _ _

/-- In ifs no entry is to spare only when the buffer has exactly the blocks of the advance, and then
it is right. -/
theorem safeLongBlock_ifs {others : List ℕ} (hS : bufferBlocks n w = ceil_udiv n w)
    (hroom : others ≠ [] → Room n w) (pre : List (Option (BitVec w))) (st : LongState w)
    (b : LongBlock w) : SafeLongBlock n (.ifs others) pre st b where
  room _ := hroom
  unspoiled _ hne := absurd hS hne
  self _ h := nomatch h
  more _ h := nomatch h
  summary _ h := nomatch h

theorem entersIfs_of_conditions {others : List ℕ} {summaries : List Bool} {st : LongState w}
    {scopes : List (Bool × Bool)} (h : ∀ c ∈ scopes, c.1 = true) :
    entersIfs n st others summaries scopes = true := by
  induction scopes generalizing others summaries with
  | nil => simp [entersIfs]
  | cons c cs ih =>
    have hcs := fun u hu ↦ h u (List.mem_cons_of_mem _ hu)
    cases others with
    | nil => simp [entersIfs]
    | cons o os =>
      cases summaries with
      | nil => simp [entersIfs]
      | cons s ss =>
        rw [entersIfs, h c (List.mem_cons_self ..), Bool.true_or, Bool.true_and]
        exact ih hcs

theorem guardedBlock_ifs {others : List ℕ} {b : LongBlock w}
    (h : b.value = 0 ∨ ∀ c ∈ b.scopes, c.1 = true) (pre : List (Option (BitVec w)))
    (st : LongState w) : GuardedBlock n (.ifs others) pre st b := by
  intro hskipped
  rcases h with hzero | hconditions
  · exact hzero
  · rw [reaches, entersIfs_of_conditions hconditions] at hskipped
    cases hskipped

/-- At the top level no block is skipped. -/
theorem safeRun_top (n : ℕ) {pre : List (Option (BitVec w))} (hpre : none ∉ pre)
    (st : LongState w) (bs : List (LongBlock w)) :
    Along n (.ifs []) (SafeLongBlock n (.ifs [])) pre st bs := by
  induction bs generalizing pre st with
  | nil => trivial
  | cons b bs ih =>
    have hnone (t : ℕ) : pre[t]? ≠ some none := fun h ↦ hpre (List.mem_of_getElem? h)
    constructor
    · exact {
        room := fun _ h ↦ absurd rfl h
        unspoiled := fun _ _ ↦ ⟨fun t ht ↦ absurd ht (hnone t), fun _ t ht ↦ absurd ht (hnone t)⟩
        self := fun _ h ↦ nomatch h
        more := fun _ h ↦ nomatch h
        summary := fun _ h ↦ nomatch h }
    · intro _ st' _
      apply ih
      simp [met, reaches, entersIfs, hpre]

theorem longAdvance_exact_if : ∃ results st,
    longRun 128 (.ifs [1]) [⟨5, [], [(true, false)]⟩, ⟨0, [], [(false, false)]⟩]
        (.initial 64 (.ifs [1])) = .ok (results, st) ∧ results.length = 2 ∧
      ∀ q < 64 * 2, ofBlocks results q = advance 128 (ofBlocks [(5 : BitVec 64), 0]) q := by
  refine @longAdvance_exact 64 128 6 (.ifs [1]) (by decide) rfl (by decide) (by decide)
    [⟨5, [], [(true, false)]⟩, ⟨0, [], [(false, false)]⟩] (by simp [LongBlock.WellScoped])
    (along_of_forall ?_ _ _) (along_of_forall ?_ _ _)
  · intro b hb
    exact guardedBlock_ifs (by revert b; simp)
  · intro b _ pre st
    have hS : bufferBlocks 128 64 = ceil_udiv 128 64 := by decide
    have hroom : Room 128 64 := fun _ ↦ by decide
    exact safeLongBlock_ifs hS (fun _ ↦ hroom) pre st b

/-- A block, six in which the body is skipped, and a block in which it is run again. -/
def staleBlocks : List (LongBlock 64) :=
  ⟨5, [], [(true, false)]⟩ :: List.replicate 6 ⟨0, [], [(false, false)]⟩ ++
    [⟨1, [], [(true, false)]⟩]

/-- The first block is shifted out twice: three blocks are kept in four entries, and an entry that
is not written while the body is skipped keeps the block of the round before. -/
theorem longAdvance_repeats_block :
    (∀ b ∈ staleBlocks, b.WellScoped (.ifs [0])) ∧
    Along 192 (.ifs [0]) (GuardedBlock 192 (.ifs [0])) [] (.initial 64 (.ifs [0])) staleBlocks ∧
    ¬∃ results st, longRun 192 (.ifs [0]) staleBlocks (.initial 64 (.ifs [0])) =
        .ok (results, st) ∧ results.length = 8 ∧ ∀ q < 64 * 8, ofBlocks results q =
          advance 192 (ofBlocks (staleBlocks.map (·.input (.ifs [0])))) q := by
  refine ⟨by simp [staleBlocks, LongBlock.WellScoped], along_of_forall ?_ _ _, ?_⟩
  · intro b hb
    exact guardedBlock_ifs (by revert b; simp [staleBlocks])
  · have hrun : (longRun 192 (.ifs [0]) staleBlocks (.initial 64 (.ifs [0]))).map (·.1) =
        .ok [0, 0, 0, 5, 0, 0, 0, 5] := by decide +kernel
    rintro ⟨results, st, hok, _, hall⟩
    rw [hok] at hrun
    have hresults : results = [0, 0, 0, 5, 0, 0, 0, 5] := Except.ok.inj hrun
    have hbit := hall (64 * 7) (by decide)
    rw [hresults] at hbit
    exact absurd hbit (by decide +kernel)

end Exact

end Parabix.Pablo
