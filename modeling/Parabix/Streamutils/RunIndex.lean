import Parabix.IDISA.Pext
import Parabix.Library.EachFrom
import Parabix.Library.IndexedRun
import Parabix.Pablo.StatementBuilder

namespace Parabix.Streamutils

open Library Library.BitStream
open IDISA (simd_and simd_or simd_not)
open Pablo (inFile MatchStarAt matchStarAt_iff)

namespace RunIndex

inductive Kind
  | RunOf0
  | RunOf1
  deriving DecidableEq

inductive Numbering
  | RunOnly
  | RunPlus1
  deriving DecidableEq

section Operations

/-- A field that is repeated all over the stream. -/
def createRepeat (value fieldWidth : ℕ) : Stream := fun p ↦ value.testBit (p % fieldWidth)

def even : ℕ → Stream
  | 0 => createRepeat 0x55 8
  | 1 => createRepeat 0x33 8
  | 2 => createRepeat 0x0F 8
  | 3 => createRepeat 0x00FF 16
  | 4 => createRepeat 0x0000FFFF 32
  | _ => createRepeat 0x00000000FFFFFFFF 64

/-- The stream with its advances by `1`, `2`, up to the half of `2 ^ i`. -/
def smeared : ℕ → Stream → Stream
  | 0, idx => idx
  | j + 1, idx => simd_or (smeared j idx) (advance (1 <<< j) (smeared j idx))

variable (mRunKind : Kind) (mNumbering : Numbering) (mIndexCount : ℕ)

def runMarks (length : ℕ) (runMarksVar : Stream) : Stream :=
  if mRunKind = .RunOf0 then inFile length (simd_not runMarksVar) else runMarksVar

def runStart (runMarks : Stream) : Stream := simd_and runMarks (simd_not (advance 1 runMarks))

/-- The positions whose phase is not that of the start of their run. -/
def phaseChanged (runMarks : Stream) (i : ℕ) : Stream :=
  let odd := simd_not (even i)
  let evenStart := simd_and (even i) (runStart runMarks)
  let oddStart := simd_and odd (runStart runMarks)
  simd_or (simd_and (Pablo.matchStar evenStart runMarks) odd)
    (simd_and (Pablo.matchStar oddStart runMarks) (even i))

def idx (runMarks : Stream) (i : ℕ) (selectZero : Stream) : Stream :=
  smeared i (if mNumbering = .RunOnly then simd_and (phaseChanged runMarks i) selectZero
    else phaseChanged runMarks i)

/-- The bits of the index from the `i`-th on, and the overflow. -/
def rounds (runMarks : Stream) : ℕ → ℕ → Stream → Stream → Option Stream →
    List Stream × Option Stream
  | 0, _, _, _, overflow => ([], overflow)
  | n + 1, i, selectZero, outputEnable, overflow =>
    let idx := idx mNumbering runMarks i selectZero
    let runIndex := simd_and idx outputEnable
    let more := i < mIndexCount - 1
    let rest := rounds runMarks n (i + 1)
      (if more then simd_and selectZero (simd_not idx) else selectZero)
      (if more then simd_and outputEnable (advance (1 <<< i) outputEnable) else outputEnable)
      (overflow.map fun overflow ↦ simd_and overflow (advance (1 <<< i) overflow))
    (runIndex :: rest.1, rest.2)

def generatePabloMethod (mOverflow : Bool) (length : ℕ) (runMarksVar : Stream) :
    List Stream × Option Stream :=
  let runMarks := runMarks mRunKind length runMarksVar
  rounds mNumbering mIndexCount runMarks mIndexCount 0 runMarks runMarks
    (if mOverflow then some (simd_and (advance 1 runMarks) runMarks) else none)

end Operations

section Phase

variable {i j p q s value : ℕ} {x m c marks : Stream}

theorem createRepeat_apply (hij : i < j)
    (hvalue : ∀ r < 2 ^ j, value.testBit r = !r.testBit i) (p : ℕ) :
    createRepeat value (2 ^ j) p = !p.testBit i := by
  rw [createRepeat, hvalue _ (Nat.mod_lt p (Nat.two_pow_pos j)), Nat.testBit_mod_two_pow,
    decide_eq_true hij, Bool.true_and]

/-- The even positions of a round are those without its bit. -/
theorem even_apply (hi : i < 5) (p : ℕ) : even i p = !p.testBit i := by
  rcases (show i = 0 ∨ i = 1 ∨ i = 2 ∨ i = 3 ∨ i = 4 by omega) with
    rfl | rfl | rfl | rfl | rfl
  · exact createRepeat_apply (j := 3) (by decide) (by decide) p
  · exact createRepeat_apply (j := 3) (by decide) (by decide) p
  · exact createRepeat_apply (j := 3) (by decide) (by decide) p
  · exact createRepeat_apply (j := 4) (by decide) (by decide) p
  · exact createRepeat_apply (j := 5) (by decide) (by decide) p

theorem matchStar_apply : Pablo.matchStar m c p = true ↔ MatchStarAt m c p := by
  rw [matchStarAt_iff, Pablo.matchStar, Pablo.ScanStatement.value, sum]
  cases m p <;> cases c p <;> simp

/-- The smeared stream reaches `2 ^ i - 1` positions further. -/
theorem smeared_apply (i : ℕ) (x : Stream) (p : ℕ) :
    smeared i x p = true ↔ ∃ u < 2 ^ i, u ≤ p ∧ x (p - u) = true := by
  induction i generalizing p with
  | zero =>
    rw [smeared]
    constructor
    · intro h
      exact ⟨0, Nat.one_pos, Nat.zero_le p, h⟩
    · rintro ⟨u, hu, -, h⟩
      rw [pow_zero, Nat.lt_one_iff] at hu
      rwa [hu] at h
  | succ i ih =>
    rw [smeared, simd_or, Bool.or_eq_true, ih, advance, Nat.one_shiftLeft, pow_succ]
    constructor
    · rintro (⟨u, hu, hle, h⟩ | h)
      · exact ⟨u, by omega, hle, h⟩
      · by_cases hlt : p < 2 ^ i
        · rw [if_pos hlt] at h
          exact absurd h Bool.false_ne_true
        · rw [if_neg hlt, ih] at h
          obtain ⟨u, hu, hle, h⟩ := h
          exact ⟨2 ^ i + u, by omega, by omega, by rwa [Nat.sub_add_eq]⟩
    · rintro ⟨u, hu, hle, h⟩
      by_cases hlow : u < 2 ^ i
      · exact Or.inl ⟨u, hlow, hle, h⟩
      · right
        rw [if_neg (by omega), ih]
        refine ⟨u - 2 ^ i, by omega, by omega, ?_⟩
        rwa [show p - 2 ^ i - (u - 2 ^ i) = p - u by omega]

theorem runStart_iff :
    runStart marks q = true ↔ marks q = true ∧ (0 < q → marks (q - 1) = false) := by
  rw [runStart, simd_and, simd_not, Bool.and_eq_true, Bool.not_eq_true', advance]
  refine and_congr_right' ?_
  split_ifs with hq
  · exact iff_of_true rfl fun h ↦ absurd h (by omega)
  · exact ⟨fun h _ ↦ h, fun h ↦ h (by omega)⟩

/-- In a run the span of its start reaches every position. -/
theorem matchStar_start (h : RunFrom marks s p) (m : Stream) :
    Pablo.matchStar (simd_and m (runStart marks)) marks p = m s := by
  rw [Bool.eq_iff_iff, matchStar_apply]
  constructor
  · rintro ⟨q, hq, hone, hall⟩
    rw [simd_and, Bool.and_eq_true, runStart_iff] at hone
    have hrun : RunFrom marks q p := by
      refine ⟨hq, fun j hj hjp ↦ ?_, hone.2.2⟩
      rcases Nat.eq_or_lt_of_le hjp with rfl | hlt
      · exact h.self
      · exact hall j hj hlt
    rw [h.start_eq hrun]
    exact hone.1
  · intro hs
    refine ⟨s, h.le, ?_, fun j hj hjp ↦ h.ones j hj hjp.le⟩
    rw [simd_and, Bool.and_eq_true, runStart_iff]
    exact ⟨hs, h.ones s le_rfl h.le, h.first⟩

theorem phaseChanged_apply (hi : i < 5) (h : RunFrom marks s p) :
    phaseChanged marks i p = (s.testBit i ^^ p.testBit i) := by
  rw [phaseChanged, simd_or, simd_and, simd_and, matchStar_start h, matchStar_start h, simd_not,
    simd_not, even_apply hi, even_apply hi]
  cases s.testBit i <;> cases p.testBit i <;> rfl

/-- A distance of whole periods changes the phase by its next bit. -/
theorem testBit_add_mul (s k i : ℕ) :
    (s.testBit i ^^ (s + 2 ^ i * k).testBit i) = decide (k % 2 = 1) := by
  rw [Nat.testBit_eq_decide_div_mod_eq, Nat.testBit_eq_decide_div_mod_eq,
    Nat.add_mul_div_left _ _ (Nat.two_pow_pos i)]
  rcases Nat.mod_two_eq_zero_or_one (s / 2 ^ i) with hs | hs <;>
    rcases Nat.mod_two_eq_zero_or_one k with hk | hk <;> simp [Nat.add_mod, hs, hk]

end Phase

section Rounds

variable {i n p s : ℕ} {marks selectZero outputEnable overflow : Stream}

/-- What holds before the round of the `i`-th bit. The start of a run may have been lost. -/
structure Round (marks : Stream) (i : ℕ) (selectZero outputEnable : Stream) : Prop where
  zero_in : ∀ p, selectZero p = true → ∃ s, RunFrom marks s p ∧ 2 ^ i ∣ p - s
  zero_of : ∀ s p, RunFrom marks s p → s < p → 2 ^ i ∣ p - s → selectZero p = true
  enable : ∀ p, outputEnable p = true ↔ Beyond marks (2 ^ i - 1) p

theorem Round.start (marks : Stream) : Round marks 0 marks marks := by
  refine ⟨fun p hp ↦ ?_, fun s p h _ _ ↦ h.self, fun p ↦ beyond_zero_iff.symm⟩
  obtain ⟨s, hs⟩ := exists_runFrom hp
  exact ⟨s, hs, Nat.one_dvd _⟩

/-- Where the bit is enabled, it is that of the distance. -/
theorem Round.idx_apply (h : Round marks i selectZero outputEnable) (hi : i < 5)
    (hrun : RunFrom marks s p) (hfar : 2 ^ i ≤ p - s + 1) :
    idx .RunOnly marks i selectZero p = (p - s).testBit i := by
  have hpos := Nat.two_pow_pos i
  have hle := hrun.le
  have hdiv := Nat.div_add_mod (p - s) (2 ^ i)
  have hmod := Nat.mod_lt (p - s) hpos
  rw [idx, if_pos rfl, Bool.eq_iff_iff, smeared_apply, Nat.testBit_eq_decide_div_mod_eq,
    decide_eq_true_eq]
  constructor
  · rintro ⟨u, hu, -, hone⟩
    rw [simd_and, Bool.and_eq_true] at hone
    have hback := hrun.earlier (show s ≤ p - u by omega) (Nat.sub_le p u)
    obtain ⟨s', hs', k, hk⟩ := h.zero_in _ hone.2
    rw [← hback.start_eq hs'] at hk
    have hphase := hone.1
    rw [phaseChanged_apply hi hback, show p - u = s + 2 ^ i * k by omega, testBit_add_mul,
      decide_eq_true_eq] at hphase
    rw [show p - s = 2 ^ i * k + u by omega, mul_add_div_of_lt hu]
    exact hphase
  · intro hodd
    have hone : 0 < (p - s) / 2 ^ i := Nat.pos_of_ne_zero fun hzero ↦ by
      rw [hzero] at hodd
      exact absurd hodd (by decide)
    have hmore := Nat.mul_le_mul_left (2 ^ i) hone
    refine ⟨(p - s) % 2 ^ i, hmod, by omega, ?_⟩
    have hplace : p - (p - s) % 2 ^ i = s + 2 ^ i * ((p - s) / 2 ^ i) := by omega
    have hback := hrun.earlier (show s ≤ p - (p - s) % 2 ^ i by omega) (Nat.sub_le p _)
    rw [simd_and, phaseChanged_apply hi hback, h.zero_of s _ hback (by omega) ?_, Bool.and_true,
      hplace, testBit_add_mul, hodd]
    · rfl
    · rw [hplace, Nat.add_sub_cancel_left]
      exact Nat.dvd_mul_right _ _

theorem two_pow_succ_dvd_iff (d : ℕ) :
    2 ^ (i + 1) ∣ d ↔ 2 ^ i ∣ d ∧ d.testBit i = false := by
  rw [Nat.testBit_eq_decide_div_mod_eq, decide_eq_false_iff_not, pow_succ]
  constructor
  · rintro ⟨c, rfl⟩
    rw [Nat.mul_assoc]
    refine ⟨Nat.dvd_mul_right _ _, ?_⟩
    rw [Nat.mul_div_cancel_left _ (Nat.two_pow_pos i)]
    omega
  · rintro ⟨⟨c, rfl⟩, heven⟩
    rw [Nat.mul_div_cancel_left _ (Nat.two_pow_pos i)] at heven
    exact Nat.mul_dvd_mul_left _ (Nat.dvd_of_mod_eq_zero (by omega))

theorem Round.next (h : Round marks i selectZero outputEnable) (hi : i < 5) :
    Round marks (i + 1)
      (simd_and selectZero (simd_not (idx .RunOnly marks i selectZero)))
      (simd_and outputEnable (advance (1 <<< i) outputEnable)) := by
  have hpos := Nat.two_pow_pos i
  have hfar {s p : ℕ} (hlt : s < p) (hdvd : 2 ^ i ∣ p - s) : 2 ^ i ≤ p - s + 1 :=
    Nat.le_succ_of_le (Nat.le_of_dvd (Nat.sub_pos_of_lt hlt) hdvd)
  refine ⟨fun p hp ↦ ?_, fun s p hrun hlt hdvd ↦ ?_, fun p ↦ ?_⟩
  · rw [simd_and, simd_not, Bool.and_eq_true, Bool.not_eq_true'] at hp
    obtain ⟨s, hrun, hdvd⟩ := h.zero_in p hp.1
    refine ⟨s, hrun, ?_⟩
    rcases Nat.eq_or_lt_of_le hrun.le with rfl | hlt
    · rw [Nat.sub_self]
      exact Nat.dvd_zero _
    · rw [two_pow_succ_dvd_iff, ← h.idx_apply hi hrun (hfar hlt hdvd)]
      exact ⟨hdvd, hp.2⟩
  · obtain ⟨hdvd, hzero⟩ := (two_pow_succ_dvd_iff _).1 hdvd
    rw [simd_and, simd_not, h.zero_of s p hrun hlt hdvd, h.idx_apply hi hrun (hfar hlt hdvd),
      hzero]
    rfl
  · have hadd := beyond_add (n := 2 ^ i) (by omega) h.enable p
    rw [show 2 ^ i - 1 + 2 ^ i = 2 ^ (i + 1) - 1 by rw [pow_succ]; omega] at hadd
    rw [← hadd, simd_and, Nat.one_shiftLeft]

/-- A bit of the index: it is that of the distance from the start in every run, and zero outside
the runs. -/
def IndexBit (marks : Stream) (i : ℕ) (x : Stream) : Prop :=
  (∀ p, marks p = false → x p = false) ∧
    ∀ s p, RunFrom marks s p → x p = (p - s).testBit i

theorem Round.indexBit (h : Round marks i selectZero outputEnable) (hi : i < 5) :
    IndexBit marks i (simd_and (idx .RunOnly marks i selectZero) outputEnable) := by
  refine ⟨fun p hp ↦ ?_, fun s p hrun ↦ ?_⟩
  · rw [simd_and, Bool.and_eq_false_imp]
    intro _
    by_contra hone
    obtain ⟨s, hrun, -⟩ := (h.enable p).1 (Bool.eq_true_of_not_eq_false hone)
    rw [hrun.self] at hp
    exact Bool.noConfusion hp
  · rw [simd_and]
    have henable := (h.enable p).trans hrun.beyond_iff
    by_cases hfar : 2 ^ i - 1 ≤ p - s
    · rw [henable.2 hfar, Bool.and_true, h.idx_apply hi hrun (by omega)]
    · rw [Bool.eq_false_of_not_eq_true fun hone ↦ hfar (henable.1 hone), Bool.and_false,
        Nat.testBit_lt_two_pow (by omega)]

variable {mIndexCount : ℕ}

theorem indexBits_rounds (h : Round marks i selectZero outputEnable) (hn : i + n = mIndexCount)
    (hcount : mIndexCount ≤ 5) (overflow : Option Stream) :
    (rounds .RunOnly mIndexCount marks n i selectZero outputEnable overflow).1.length = n ∧
      EachFrom (IndexBit marks) i
        (rounds .RunOnly mIndexCount marks n i selectZero outputEnable overflow).1 := by
  induction n generalizing i selectZero outputEnable overflow with
  | zero => exact ⟨rfl, EachFrom.nil⟩
  | succ n ih =>
    have hi : i < 5 := by omega
    rw [rounds]
    by_cases hmore : i < mIndexCount - 1
    · have hrest := ih (h.next hi) (by omega)
        (overflow.map fun overflow ↦ simd_and overflow (advance (1 <<< i) overflow))
      rw [if_pos hmore, if_pos hmore]
      exact ⟨congrArg Nat.succ hrest.1, hrest.2.cons (h.indexBit hi)⟩
    · obtain rfl : n = 0 := by omega
      exact ⟨rfl, EachFrom.nil.cons (h.indexBit hi)⟩

theorem overflow_rounds (mNumbering : Numbering)
    (hoverflow : ∀ p, overflow p = true ↔ Beyond marks (2 ^ i) p) :
    ∃ overflow', (rounds mNumbering mIndexCount marks n i selectZero outputEnable
        (some overflow)).2 = some overflow' ∧
      ∀ p, overflow' p = true ↔ Beyond marks (2 ^ (i + n)) p := by
  induction n generalizing i selectZero outputEnable overflow with
  | zero => exact ⟨overflow, rfl, hoverflow⟩
  | succ n ih =>
    have hnext (p : ℕ) : simd_and overflow (advance (1 <<< i) overflow) p = true ↔
        Beyond marks (2 ^ (i + 1)) p := by
      rw [pow_succ, Nat.mul_two, ← beyond_add (Nat.le_succ _) hoverflow, simd_and,
        Nat.one_shiftLeft]
    rw [← Nat.add_assoc, Nat.add_right_comm]
    exact ih hnext

/-- The index has the bits of the distance of every position of a run from its start, and the
overflow marks those that have more bits. -/
theorem generatePabloMethod_exact (mRunKind : Kind) {K : ℕ} (hK : K ≤ 5) (length : ℕ)
    (runMarksVar : Stream) (mOverflow : Bool) :
    (generatePabloMethod mRunKind .RunOnly K mOverflow length runMarksVar).1.length = K ∧
    EachFrom (IndexBit (runMarks mRunKind length runMarksVar)) 0
      (generatePabloMethod mRunKind .RunOnly K mOverflow length runMarksVar).1 ∧
    ∃ overflow, (generatePabloMethod mRunKind .RunOnly K true length runMarksVar).2 =
        some overflow ∧
      ∀ p, overflow p = true ↔ Beyond (runMarks mRunKind length runMarksVar) (2 ^ K) p := by
  obtain ⟨hlen, heach⟩ := indexBits_rounds (Round.start (runMarks mRunKind length runMarksVar))
    (Nat.zero_add K) hK
    (if mOverflow then some (simd_and (advance 1 (runMarks mRunKind length runMarksVar))
      (runMarks mRunKind length runMarksVar)) else none)
  have hfirst (p : ℕ) : simd_and (advance 1 (runMarks mRunKind length runMarksVar))
      (runMarks mRunKind length runMarksVar) p = true ↔
        Beyond (runMarks mRunKind length runMarksVar) (2 ^ 0) p := by
    rw [simd_and, Bool.and_comm]
    exact beyond_add (by decide) (fun _ ↦ beyond_zero_iff.symm) p
  obtain ⟨overflow, hsome, hbeyond⟩ := overflow_rounds (n := K) .RunOnly hfirst
  rw [Nat.zero_add] at hbeyond
  exact ⟨hlen, heach, overflow, hsome, hbeyond⟩

/-- The highest bit of the index 7 in a run from position 2 on. -/
theorem generatePabloMethod_exact_seven :
    ((generatePabloMethod .RunOf1 .RunOnly 3 false 20 (fun p ↦ decide (2 ≤ p ∧ p < 14))).1.getD 2
      fun _ ↦ false) 9 = true := by
  have hexact := generatePabloMethod_exact .RunOf1 (show 3 ≤ 5 by decide) 20
    (fun p ↦ decide (2 ≤ p ∧ p < 14)) false
  have hrun : RunFrom (runMarks .RunOf1 20 fun p ↦ decide (2 ≤ p ∧ p < 14)) 2 9 := by
    refine ⟨by decide, fun j hj hj9 ↦ ?_, fun _ ↦ by decide⟩
    exact decide_eq_true ⟨hj, by omega⟩
  have hbit : IndexBit _ 2 _ := hexact.2.1.getD (d := fun _ ↦ false) (hexact.1.symm ▸ by decide)
  exact hbit.2 2 9 hrun

end Rounds

end RunIndex

end Parabix.Streamutils
