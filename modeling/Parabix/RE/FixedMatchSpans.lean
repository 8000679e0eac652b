import Parabix.Library.Fault
import Parabix.Library.IndexedRun

namespace Parabix.RE

open Library Library.BitStream

/-- The spans of matches of one length, whose marks come an offset after their ends. Both numbers
are unsigned of 32 bits. -/
structure FixedMatchSpansKernel where
  mMatchLength : ℕ
  mOffset : ℕ
  length_lt : mMatchLength < 2 ^ 32
  offset_lt : mOffset < 2 ^ 32

namespace FixedMatchSpansKernel

section Kernel

variable (BlockSize : ℕ) (kernel : FixedMatchSpansKernel)

def round_up_to_blocksize (lgth : ℕ) : ℕ :=
  let lookahead_blocks := (BlockSize - 1 + lgth) % 2 ^ 32 / BlockSize
  lookahead_blocks * BlockSize

/-- The attribute of the input does not depend on the offset. -/
def maxLookAhead : ℕ := round_up_to_blocksize BlockSize kernel.mMatchLength

/-- An amount of 0 makes no statement. One beyond the attribute of the input is an error when the
kernel is compiled. -/
def createLookahead (marks : Stream) (amount : ℕ) : Except Fault Stream :=
  if amount = 0 then
    .ok marks
  else if kernel.maxLookAhead BlockSize < amount then
    .error (.fatal ("MatchMarks must have a lookahead attribute of at least " ++ toString amount))
  else
    .ok fun p ↦ marks (p + amount)

/-- The loop: the number of consecutive positions, and the positions. -/
def consecutiveLoop (i consecutiveCount : ℕ) (consecutive : Stream) : ℕ × Stream :=
  if 0 < i ∧ i ≤ kernel.mMatchLength / 2 then
    consecutiveLoop (i * 2) (consecutiveCount + i) fun p ↦ consecutive p || advance i consecutive p
  else
    (consecutiveCount, consecutive)
termination_by kernel.mMatchLength - i

/-- All consecutive positions within the match length of any start. -/
def consecutive (starts : Stream) : Stream :=
  let (consecutiveCount, consecutive) := kernel.consecutiveLoop 1 1 starts
  if consecutiveCount < kernel.mMatchLength then
    fun p ↦ consecutive p || advance (kernel.mMatchLength - consecutiveCount) consecutive p
  else
    consecutive

def generatePabloMethod (marks : Stream) : Except Fault Stream := do
  let amount := (kernel.mMatchLength + kernel.mOffset + (2 ^ 32 - 1)) % 2 ^ 32
  let starts ← kernel.createLookahead BlockSize marks amount
  return kernel.consecutive starts

end Kernel

section Spans

variable {BlockSize p : ℕ} {kernel : FixedMatchSpansKernel} {marks s : Stream}

/-- The positions of the spans of the marks: `mMatchLength` positions up to the offset before a
mark, for the marks that have as many positions before them. -/
def Spanned (kernel : FixedMatchSpansKernel) (marks : Stream) (p : ℕ) : Prop :=
  ∃ m : ℕ, marks m = true ∧ (kernel.mMatchLength + kernel.mOffset - 1 : ℤ) ≤ m ∧
    (m - kernel.mOffset - kernel.mMatchLength + 1 : ℤ) ≤ p ∧ (p : ℤ) ≤ m - kernel.mOffset

/-- Doubling: the counter is the number of positions that are covered already. -/
theorem consecutiveLoop_spec {i : ℕ} {c : Stream} (hi : 0 < i) (hle : i ≤ kernel.mMatchLength)
    (hc : ∀ p, c p = true ↔ Reached (fun _ ↦ true) s (i - 1) p) :
    ∃ n d, kernel.consecutiveLoop i i c = (n, d) ∧ 0 < n ∧ n ≤ kernel.mMatchLength ∧
      kernel.mMatchLength < n * 2 ∧ ∀ p, d p = true ↔ Reached (fun _ ↦ true) s (n - 1) p := by
  rw [consecutiveLoop]
  split_ifs with hloop
  · have hnext : ∀ p, (c p || advance i c p) = true ↔
        Reached (fun _ ↦ true) s (i * 2 - 1) p := by
      intro p
      rw [or_advance_reached (by omega) hc, show i - 1 + i = i * 2 - 1 by omega]
    rw [← Nat.mul_two]
    exact consecutiveLoop_spec (by omega) (by omega) hnext
  · exact ⟨i, c, rfl, hi, hle, by omega, hc⟩
termination_by kernel.mMatchLength - i

/-- The last step overlaps what is covered, since this is more than half of the length. -/
theorem consecutive_spec (hL : 1 ≤ kernel.mMatchLength) (starts : Stream) (p : ℕ) :
    kernel.consecutive starts p = true ↔
      ∃ q ≤ p, starts q = true ∧ p ≤ q + (kernel.mMatchLength - 1) := by
  have hone : ∀ p, starts p = true ↔ Reached (fun _ ↦ true) starts (1 - 1) p :=
    fun p ↦ (reached_zero fun _ _ ↦ rfl).symm
  obtain ⟨n, d, hloop, hn, hle, hhalf, hd⟩ := consecutiveLoop_spec Nat.one_pos hL hone
  rw [← reached_ones, consecutive, hloop]
  dsimp only
  split_ifs with hlt
  · rw [or_advance_reached (by omega) hd,
      show n - 1 + (kernel.mMatchLength - n) = kernel.mMatchLength - 1 by omega]
  · rw [hd, show n = kernel.mMatchLength by omega]

/-- The starts of the matches are so far before their marks. -/
theorem spanned_iff (hL : 1 ≤ kernel.mMatchLength) :
    Spanned kernel marks p ↔
      ∃ q ≤ p, marks (q + (kernel.mMatchLength + kernel.mOffset - 1)) = true ∧
        p ≤ q + (kernel.mMatchLength - 1) := by
  constructor
  · rintro ⟨m, hm, hle, hlow, hhigh⟩
    refine ⟨m - (kernel.mMatchLength + kernel.mOffset - 1), by omega, ?_, by omega⟩
    rwa [Nat.sub_add_cancel (by omega)]
  · rintro ⟨q, hq, hm, hp⟩
    exact ⟨_, hm, by omega, by omega, by omega⟩

theorem createLookahead_eq_ok {n : ℕ} {starts : Stream} :
    kernel.createLookahead BlockSize marks n = .ok starts ↔
      n ≤ kernel.maxLookAhead BlockSize ∧ starts = fun p ↦ marks (p + n) := by
  rw [createLookahead]
  split_ifs with hzero hfar
  · simp only [hzero, Nat.zero_le, true_and, Nat.add_zero, Except.ok.injEq]
    exact eq_comm
  · simp [hfar]
  · simp only [Nat.not_lt.1 hfar, true_and, Except.ok.injEq]
    exact eq_comm

/-- The spans are right exactly when the start of a match is not further before its mark than the
attribute of the input lets the kernel look ahead. -/
theorem matchSpans_exact (BlockSize : ℕ) (kernel : FixedMatchSpansKernel)
    (hL : 1 ≤ kernel.mMatchLength) :
    (∀ marks : Stream, ∃ spans, kernel.generatePabloMethod BlockSize marks = .ok spans ∧
        ∀ p, spans p = true ↔ Spanned kernel marks p) ↔
      kernel.mMatchLength + kernel.mOffset - 1 ≤
        round_up_to_blocksize BlockSize kernel.mMatchLength := by
  obtain ⟨amount, hamount⟩ :
      ∃ n, (kernel.mMatchLength + kernel.mOffset + (2 ^ 32 - 1)) % 2 ^ 32 = n := ⟨_, rfl⟩
  constructor
  · intro hall
    -- the only mark is the one that position 0 looks at
    obtain ⟨spans, hrun, hspans⟩ := hall fun p ↦ p == amount
    rw [generatePabloMethod, hamount, bind_eq_ok] at hrun
    obtain ⟨starts, hahead, hspan⟩ := hrun
    obtain ⟨hroom, hstarts⟩ := createLookahead_eq_ok.1 hahead
    have hfirst : spans 0 = true := by
      rw [← Except.ok.inj hspan, consecutive_spec hL, hstarts]
      exact ⟨0, le_rfl, by simp, Nat.zero_le _⟩
    obtain ⟨m, hm, hle, -, -⟩ := (hspans 0).1 hfirst
    rw [beq_iff_eq] at hm
    have hroom' : amount ≤ round_up_to_blocksize BlockSize kernel.mMatchLength := hroom
    omega
  · intro hroom marks
    have hlt : kernel.mMatchLength + kernel.mOffset - 1 < 2 ^ 32 := by
      have hmul : round_up_to_blocksize BlockSize kernel.mMatchLength ≤
          (BlockSize - 1 + kernel.mMatchLength) % 2 ^ 32 := Nat.div_mul_le_self _ _
      omega
    have hexact : amount = kernel.mMatchLength + kernel.mOffset - 1 := by omega
    have hahead : kernel.createLookahead BlockSize marks amount =
        .ok fun p ↦ marks (p + amount) := createLookahead_eq_ok.2 ⟨hexact ▸ hroom, rfl⟩
    refine ⟨kernel.consecutive fun p ↦ marks (p + amount), ?_, fun p ↦ ?_⟩
    · rw [generatePabloMethod, hamount, hahead]
      rfl
    · rw [consecutive_spec hL, spanned_iff hL, hexact]

/-- Two matches of five positions that overlap, with their marks at their ends. -/
theorem matchSpans_exact_five :
    ∃ spans, generatePabloMethod 256 ⟨5, 0, by decide, by decide⟩
        (fun p ↦ p == 9 || p == 12) = .ok spans ∧
      ∀ p, spans p = true ↔
        Spanned ⟨5, 0, by decide, by decide⟩ (fun p ↦ p == 9 || p == 12) p :=
  (matchSpans_exact 256 ⟨5, 0, by decide, by decide⟩ (by decide)).2 (by decide) _

/-- A match of a whole block is looked ahead for by one position more than a block. -/
theorem matchSpans_too_far :
    ¬ ∀ (BlockSize : ℕ) (kernel : FixedMatchSpansKernel), 1 ≤ kernel.mMatchLength →
      ∀ marks : Stream, ∃ spans, kernel.generatePabloMethod BlockSize marks = .ok spans ∧
        ∀ p, spans p = true ↔ Spanned kernel marks p := by
  intro h
  obtain ⟨spans, hrun, -⟩ := h 256 ⟨256, 2, by decide, by decide⟩ (by decide) fun _ ↦ false
  rw [generatePabloMethod, bind_eq_ok] at hrun
  obtain ⟨starts, hahead, -⟩ := hrun
  exact absurd (createLookahead_eq_ok.1 hahead).1 (by decide)

end Spans

end FixedMatchSpansKernel

end Parabix.RE
