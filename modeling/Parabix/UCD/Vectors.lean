import Parabix.Library.Buffer
import Parabix.UCD.UnicodeSet

namespace Parabix.UCD

open Library Library.RunLength

/-- The call returns a set that `verify` accepts, with these members. -/
def Produces (result : Except Fault UnicodeSet) (members : Set ℕ) : Prop :=
  ∃ s, result = .ok s ∧ s.WellFormed ∧ verify s.runs s.quads = .ok true ∧ s.members = members

section Append

def appendRun (type : RunType) (length : ℕ) (runs : List run_t) : List run_t :=
  if length = 0 then
    runs
  else
    match runs.getLast? with
    | some back =>
      if typeOf back = type then runs.dropLast ++ [⟨type, back.length + length⟩]
      else runs ++ [⟨type, length⟩]
    | none => runs ++ [⟨type, length⟩]

def appendQuad (quad : BitQuad) (quads : List BitQuad) (runs : List run_t) :
    List BitQuad × List run_t :=
  if quad = 0 then
    (quads, appendRun .Empty 1 runs)
  else if quad = fullQuadMask then
    (quads, appendRun .Full 1 runs)
  else
    (quads ++ [quad], appendRun .Mixed 1 runs)

/-- An appended run is dropped, merged into the last run, or pushed. -/
theorem appendRun_cases (type : RunType) (length : ℕ) (rs : List run_t) :
    (length = 0 ∧ appendRun type length rs = rs) ∨
    (0 < length ∧ ∃ pre m, rs = pre ++ [⟨type, m⟩] ∧
      appendRun type length rs = pre ++ [⟨type, m + length⟩]) ∨
    (0 < length ∧ (∀ b ∈ rs.getLast?, b.kind ≠ type) ∧
      appendRun type length rs = rs ++ [⟨type, length⟩]) := by
  by_cases hl : length = 0
  · exact .inl ⟨hl, by simp [appendRun, hl]⟩
  refine .inr ?_
  rcases List.eq_nil_or_concat rs with rfl | ⟨pre, b, rfl⟩
  · exact .inr ⟨by omega, by simp, by simp [appendRun, hl]⟩
  · by_cases hb : b.kind = type
    · refine .inl ⟨by omega, pre, b.length, ?_, ?_⟩
      · rw [← hb, List.concat_eq_append]
      · simp [appendRun, hl, typeOf, hb]
    · exact .inr ⟨by omega, by simpa using hb, by simp [appendRun, hl, typeOf, hb]⟩

theorem appendRun_appendRun (type : RunType) (a b : ℕ) (rs : List run_t) :
    appendRun type b (appendRun type a rs) = appendRun type (a + b) rs := by
  obtain ⟨ha, he⟩ | ⟨ha, pre, m, rfl, he⟩ | ⟨ha, hne, he⟩ := appendRun_cases type a rs <;>
    rw [he]
  · rw [ha, Nat.zero_add]
  · by_cases hb : b = 0
    · simp [appendRun, hb, Nat.ne_of_gt ha]
    · simp [appendRun, hb, Nat.ne_of_gt ha, Nat.add_assoc]
  · have hr := appendRun_cases type (a + b) rs
    by_cases hb : b = 0
    · rw [← he, hb, Nat.add_zero, he]
      simp [appendRun]
    · obtain ⟨h0, -⟩ | ⟨-, pre, m, rfl, -⟩ | ⟨-, -, he'⟩ := hr
      · omega
      · exact absurd rfl (hne ⟨type, m⟩ (by simp))
      · rw [he']
        simp [appendRun, hb]

theorem appendRun_pos {type : RunType} {length : ℕ} {rs : List run_t}
    (h : ∀ r ∈ rs, 0 < r.length) : ∀ r ∈ appendRun type length rs, 0 < r.length := by
  obtain ⟨-, he⟩ | ⟨hl, pre, m, rfl, he⟩ | ⟨hl, -, he⟩ := appendRun_cases type length rs <;>
    rw [he] <;> intro r hr
  · exact h r hr
  · simp only [List.mem_append, List.mem_singleton] at hr
    rcases hr with hr | rfl
    · exact h r (by simp [hr])
    · exact Nat.lt_of_lt_of_le hl (Nat.le_add_left _ _)
  · simp only [List.mem_append, List.mem_singleton] at hr
    rcases hr with hr | rfl
    · exact h r hr
    · exact hl

@[simp] theorem total_appendRun (type : RunType) (length : ℕ) (rs : List run_t) :
    total (appendRun type length rs) = total rs + length := by
  obtain ⟨hl, he⟩ | ⟨-, pre, m, rfl, he⟩ | ⟨-, -, he⟩ := appendRun_cases type length rs <;>
    rw [he]
  · omega
  · simp [Nat.add_assoc]
  · simp

@[simp] theorem literals_appendRun (type : RunType) (length : ℕ) (rs : List run_t) :
    literals fill (appendRun type length rs) =
      literals fill rs + if type = .Mixed then length else 0 := by
  obtain ⟨hl, he⟩ | ⟨-, pre, m, rfl, he⟩ | ⟨-, -, he⟩ := appendRun_cases type length rs <;>
    rw [he] <;> cases type <;> simp [fill] <;> omega

/-- Merging into the last run is invisible in the decoded quads. -/
theorem decode_appendRun (type : RunType) (length : ℕ) (rs : List run_t) (qs : List BitQuad) :
    decode fill (appendRun type length rs) qs = decode fill (rs ++ [⟨type, length⟩]) qs := by
  obtain ⟨hl, he⟩ | ⟨-, pre, m, rfl, he⟩ | ⟨-, -, he⟩ := appendRun_cases type length rs <;>
    rw [he]
  · rw [decode_append]
    cases type <;> simp [decode, fill, hl]
  · rw [List.append_assoc, List.singleton_append, decode_append, decode_append, decode_merge]

/-- A quad adds as many stored quads as its run needs. -/
theorem literals_appendQuad (q : BitQuad) (qs qs' : List BitQuad) (rs : List run_t) :
    literals fill (appendQuad q qs rs).2 + qs'.length =
      literals fill rs + (appendQuad q qs' rs).1.length := by
  unfold appendQuad
  split_ifs <;> simp only [literals_appendRun, List.length_append, List.length_singleton,
    reduceCtorEq, if_true, if_false] <;> omega

theorem appendRun_canonical {type : RunType} {length : ℕ} {rs : List run_t}
    (h : Canonical rs) : Canonical (appendRun type length rs) := by
  refine ⟨appendRun_pos h.pos, ?_⟩
  obtain ⟨-, he⟩ | ⟨-, pre, m, rfl, he⟩ | ⟨-, hne, he⟩ := appendRun_cases type length rs <;>
    rw [he]
  · exact h.chain
  · have hc := h.chain
    rw [List.isChain_append] at hc ⊢
    refine ⟨hc.1, List.isChain_singleton _, ?_⟩
    simpa using hc.2.2
  · rw [List.isChain_append]
    exact ⟨h.chain, List.isChain_singleton _, by simpa using hne⟩

theorem appendQuad_canonical (q : BitQuad) (qs : List BitQuad) {rs : List run_t}
    (h : Canonical rs) : Canonical (appendQuad q qs rs).2 := by
  simp only [appendQuad]
  split_ifs <;> simp only [appendRun_canonical h]

end Append

/-- The pair of vectors under construction: some prefix of the code space. -/
structure Prefix (runs : List run_t) (quads : List BitQuad) (cells : List BitQuad) : Prop where
  pos : ∀ r ∈ runs, 0 < r.length
  literals : literals fill runs = quads.length
  proper : ∀ q ∈ quads, kindOf q = .Mixed
  decode : decode fill runs quads = cells

namespace Prefix

variable {rs : List run_t} {qs cs : List BitQuad}

theorem nil : Prefix [] [] [] := ⟨by simp, rfl, by simp, rfl⟩

theorem length (h : Prefix rs qs cs) : cs.length = total rs := by
  rw [← h.decode, length_decode h.literals.le]

theorem verified (h : Prefix rs qs cs) (hc : cs.length = unicodeQuadCount) : Verified rs qs :=
  ⟨h.pos, by rw [← h.length, hc], h.literals, h.proper⟩

theorem of_verified (h : Verified rs qs) : Prefix rs qs (RunLength.decode fill rs qs) :=
  ⟨h.pos, h.literals, h.proper, rfl⟩

theorem kinds (h : Prefix rs qs cs) : RunLength.kinds rs = cs.map kindOf := by
  rw [← h.decode]
  refine (map_decode (fun k a ha ↦ ?_) h.literals.le fun q hq k hk ↦ ?_).symm
  · cases k <;> cases ha <;> rfl
  · cases k <;> cases hk
    exact h.proper q hq

theorem append {rs' : List run_t} {qs' cs' : List BitQuad} (h : Prefix rs qs cs)
    (h' : Prefix rs' qs' cs') : Prefix (rs ++ rs') (qs ++ qs') (cs ++ cs') where
  pos r hr := (List.mem_append.mp hr).elim (h.pos r) (h'.pos r)
  literals := by rw [literals_append, h.literals, h'.literals, List.length_append]
  proper q hq := (List.mem_append.mp hq).elim (h.proper q) (h'.proper q)
  decode := by rw [decode_append_append h.literals, h.decode, h'.decode]

/-- The stored quads can be divided where the runs are. -/
theorem split {rs' : List run_t} (h : Prefix (rs ++ rs') qs cs) :
    ∃ a b ca cb, qs = a ++ b ∧ cs = ca ++ cb ∧ Prefix rs a ca ∧ Prefix rs' b cb := by
  have hl := h.literals
  rw [literals_append] at hl
  have ha : RunLength.literals fill rs = (qs.take (RunLength.literals fill rs)).length := by
    rw [List.length_take]
    omega
  have hb : RunLength.literals fill rs' = (qs.drop (RunLength.literals fill rs)).length := by
    rw [List.length_drop]
    omega
  refine ⟨_, _, _, _, (List.take_append_drop (RunLength.literals fill rs) qs).symm, ?_,
    ⟨fun r hr ↦ h.pos r (by simp [hr]), ha, fun q hq ↦ h.proper q (List.mem_of_mem_take hq), rfl⟩,
    ⟨fun r hr ↦ h.pos r (by simp [hr]), hb, fun q hq ↦ h.proper q (List.mem_of_mem_drop hq), rfl⟩⟩
  rw [← h.decode, ← decode_append_append ha, List.take_append_drop]

theorem appendRun (h : Prefix rs qs cs) {type : RunType} {a : BitQuad}
    (ha : fill type = some a) (n : ℕ) :
    Prefix (appendRun type n rs) qs (cs ++ List.replicate n a) where
  pos := appendRun_pos h.pos
  literals := by
    have : type ≠ .Mixed := by rintro rfl; simp [fill] at ha
    rw [literals_appendRun, if_neg this, h.literals, Nat.add_zero]
  proper := h.proper
  decode := by
    rw [decode_appendRun, decode_append, h.decode, decode_cons_some ha, decode_nil,
      List.append_nil]

theorem appendQuad (h : Prefix rs qs cs) (q : BitQuad) :
    Prefix (appendQuad q qs rs).2 (appendQuad q qs rs).1 (cs ++ [q]) := by
  by_cases h0 : q = 0
  · have := h.appendRun fill_empty 1
    simpa [UCD.appendQuad, h0] using this
  by_cases h1 : q = fullQuadMask
  · have := h.appendRun fill_full 1
    rw [UCD.appendQuad, if_neg h0, if_pos h1, h1]
    exact this
  simp only [UCD.appendQuad, h0, h1, if_false]
  refine ⟨appendRun_pos h.pos, ?_, ?_, ?_⟩
  · simp [h.literals]
  · intro r hr
    simp only [List.mem_append, List.mem_singleton] at hr
    rcases hr with hr | rfl
    · exact h.proper r hr
    · exact (kindOf_eq_mixed_iff r).mpr ⟨h0, h1⟩
  · rw [decode_appendRun, decode_append_append h.literals, h.decode]
    rfl

end Prefix

section Assign

/-- What freshly allocated buffers hold. -/
structure Memory where
  runs : ℕ → run_t
  quads : ℕ → BitQuad

def assignRuns (m : Memory) (self : UnicodeSet) (runs : List run_t) :
    Except Fault UnicodeSet := do
  let n := runs.length
  let self := if self.mRunCapacity < n then
      { self with mRuns := Buffer.allocate m.runs n, mRunCapacity := n }
    else self
  let mRuns ← Buffer.copy self.mRuns 0 runs 0 n
  return { self with mRuns, mRunLength := n }

def assignQuads (m : Memory) (self : UnicodeSet) (quads : List BitQuad) :
    Except Fault UnicodeSet := do
  let n := quads.length
  if n = 0 then
    return { self with mQuadLength := n }
  let self := if self.mQuadCapacity < n then
      { self with mQuads := Buffer.allocate m.quads n, mQuadCapacity := n }
    else self
  let mQuads ← Buffer.copy self.mQuads 0 quads 0 n
  return { self with mQuads, mQuadLength := n }

def assign (m : Memory) (self : UnicodeSet) (runs : List run_t) (quads : List BitQuad) :
    Except Fault UnicodeSet := do
  let self ← assignRuns m self runs
  assignQuads m self quads

variable {s : UnicodeSet} (m : Memory)

theorem assignRuns_eq (h : s.mRunCapacity ≤ s.mRuns.length) (rs : List run_t) :
    ∃ b c, assignRuns m s rs =
        .ok { s with mRuns := b, mRunLength := rs.length, mRunCapacity := c } ∧
      b.take rs.length = rs ∧ rs.length ≤ c ∧ c ≤ b.length := by
  by_cases hc : s.mRunCapacity < rs.length
  · refine ⟨rs, rs.length, ?_, List.take_length, le_rfl, le_rfl⟩
    simp only [assignRuns, hc, if_true]
    rw [Buffer.copy_eq (by simp) (by simp)]
    simp [Buffer.allocate]
  · refine ⟨rs ++ s.mRuns.drop rs.length, s.mRunCapacity, ?_, List.take_left, by omega, ?_⟩
    · simp only [assignRuns, hc, if_false]
      rw [Buffer.copy_eq (by omega) (by simp)]
      simp
    · simp only [List.length_append, List.length_drop]
      omega

theorem assignQuads_eq (h : s.mQuadCapacity ≤ s.mQuads.length) (qs : List BitQuad) :
    ∃ b c, assignQuads m s qs =
        .ok { s with mQuads := b, mQuadLength := qs.length, mQuadCapacity := c } ∧
      b.take qs.length = qs ∧ (c = 0 ∧ qs = [] ∨ qs.length ≤ c) ∧ c ≤ b.length := by
  by_cases h0 : qs.length = 0
  · have hq : qs = [] := List.length_eq_zero_iff.mp h0
    refine ⟨s.mQuads, s.mQuadCapacity, ?_, by simp [hq], .inr (by omega), h⟩
    simp [assignQuads, h0]
  by_cases hc : s.mQuadCapacity < qs.length
  · refine ⟨qs, qs.length, ?_, List.take_length, .inr le_rfl, le_rfl⟩
    simp only [assignQuads, h0, hc, if_true, if_false]
    rw [Buffer.copy_eq (by simp) (by simp)]
    simp [Buffer.allocate]
  · refine ⟨qs ++ s.mQuads.drop qs.length, s.mQuadCapacity, ?_, List.take_left,
      .inr (by omega), ?_⟩
    · simp only [assignQuads, h0, hc, if_false]
      rw [Buffer.copy_eq (by omega) (by simp)]
      simp
    · simp only [List.length_append, List.length_drop]
      omega

theorem assign_eq (hr : s.mRunCapacity ≤ s.mRuns.length)
    (hq : s.mQuadCapacity ≤ s.mQuads.length) (rs : List run_t) (qs : List BitQuad) :
    ∃ t, assign m s rs qs = .ok t ∧ t.runs = rs ∧ t.quads = qs ∧
      (Verified rs qs → t.WellFormed) := by
  obtain ⟨rb, rc, hre, hrt, hrc, hrb⟩ := assignRuns_eq m hr rs
  obtain ⟨qb, qc, hqe, hqt, hqc, hqb⟩ := assignQuads_eq m
    (s := { s with mRuns := rb, mRunLength := rs.length, mRunCapacity := rc }) hq qs
  refine ⟨⟨rb, qb, rs.length, qs.length, rc, qc⟩, ?_, hrt, hqt, fun hv ↦ ⟨?_, ?_, ?_, ?_, ?_⟩⟩
  · simp only [assign, hre]
    exact hqe
  · simpa only [UnicodeSet.runs, UnicodeSet.quads, hrt, hqt] using hv
  · exact hrc.trans hrb
  · have hl := congrArg List.length hqt
    simp only [List.length_take] at hl ⊢
    omega
  · exact .inr ⟨hrc, hrb⟩
  · exact hqc.imp (fun h ↦ h.1) fun h ↦ ⟨h, hqb⟩

end Assign

end Parabix.UCD
