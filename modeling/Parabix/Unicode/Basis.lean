import Parabix.Library.Bits
import Parabix.Library.CodedText
import Parabix.Library.UTF8

namespace Parabix.Unicode

open Library Library.BitStream

/-- Basis bit streams. -/
abbrev Basis := ℕ → Stream

section Operations

variable (length : ℕ) (s : Stream) (n : ℕ)

/-- The positions before the end of the file. -/
def createInFile : Stream := fun p ↦ decide (p < length) && s p

def createLookahead : Stream := fun p ↦ s (p + n)

end Operations

section Text

/-- The basis bit streams of a sequence of numbers. -/
def basisOf (text : List ℕ) : Basis := fun i p ↦ (text.getD p 0).testBit i

/-- The code unit of `w` bits at a position. -/
def codeUnit (w : ℕ) (basis : Basis) (p : ℕ) : ℕ := ofDigits ((List.range w).map fun i ↦ basis i p)

def codeUnits (w : ℕ) (output : Basis × ℕ) : List ℕ :=
  (List.range output.2).map (codeUnit w output.1)

theorem testBit_codeUnit {w i : ℕ} (basis : Basis) (p : ℕ) (hi : i < w) :
    (codeUnit w basis p).testBit i = basis i p := by
  rw [codeUnit, testBit_ofDigits, List.getD_eq_getElem _ _ (by simpa using hi)]
  simp

/-- The units are known by their bits. -/
theorem codeUnit_eq {w x p : ℕ} {basis : Basis} (hx : x < 2 ^ w)
    (h : ∀ i < w, basis i p = x.testBit i) : codeUnit w basis p = x := by
  have hlt := ofDigits_lt ((List.range w).map fun i ↦ basis i p)
  rw [List.length_map, List.length_range] at hlt
  apply Nat.eq_of_testBit_eq
  intro i
  by_cases hi : i < w
  · rw [testBit_codeUnit _ _ hi, h i hi]
  · have hle := Nat.pow_le_pow_right Nat.two_pos (Nat.le_of_not_lt hi)
    rw [codeUnit, Nat.testBit_lt_two_pow (hlt.trans_le hle),
      Nat.testBit_lt_two_pow (hx.trans_le hle)]

theorem basisOf_apply {text : List ℕ} {n cp : ℕ} (hc : text[n]? = some cp) (i : ℕ) :
    basisOf text i n = cp.testBit i := by
  rw [basisOf, List.getD_eq_getElem?_getD, hc, Option.getD_some]

theorem codeUnit_basisOf {w : ℕ} {units : List ℕ} (h : ∀ u ∈ units, u < 2 ^ w) (p : ℕ) :
    codeUnit w (basisOf units) p = units.getD p 0 := by
  refine codeUnit_eq ?_ fun i _ ↦ rfl
  cases hp : units[p]? with
  | none =>
    rw [List.getD_eq_getElem?_getD, hp]
    exact Nat.two_pow_pos w
  | some u =>
    rw [List.getD_eq_getElem?_getD, hp]
    exact h u (List.mem_of_getElem? hp)

end Text

section Starts

open Library.UTF8

variable {text : List ℕ} {n : ℕ}

theorem start_strictMono {m : ℕ} (hmn : m < n) (hn : n ≤ text.length) :
    start utf8 text m < start utf8 text n := by
  have hm : m < text.length := by omega
  have hsucc := @start_succ _ _ utf8 _ _ _ (List.getElem?_eq_getElem hm)
  have hmono : start utf8 text (m + 1) ≤ start utf8 text n := start_mono hmn
  have hpos := width_pos text[m]
  rw [length_utf8] at hsucc
  omega

theorem start_inj {m : ℕ} (hm : m ≤ text.length) (hn : n ≤ text.length)
    (h : start utf8 text m = start utf8 text n) : m = n := by
  rcases Nat.lt_trichotomy m n with hlt | heq | hgt
  · exact absurd h (start_strictMono hlt hn).ne
  · exact heq
  · exact absurd h.symm (start_strictMono hgt hm).ne

theorem start_le_length (hn : n ≤ text.length) :
    start utf8 text n ≤ (text.flatMap utf8).length := by
  rw [← start_length]
  exact start_mono hn

/-- A position before the start of a character lies in an earlier one. -/
theorem exists_earlier {q : ℕ} (hn : n ≤ text.length) (hq : q < start utf8 text n) :
    ∃ m c d, text[m]? = some c ∧ d < width c ∧ m < n ∧ q = start utf8 text m + d := by
  obtain ⟨m, c, d, hm, hd, rfl⟩ := exists_place (hq.trans_le (start_le_length hn))
  refine ⟨m, c, d, hm, by rwa [length_utf8] at hd, ?_, rfl⟩
  by_contra hge
  have hmono : start utf8 text n ≤ start utf8 text m := start_mono (Nat.le_of_not_lt hge)
  omega

end Starts

section Initial

variable {α β : Type*} {enc : α → List β} {text : List α} {length : ℕ} {final : Stream}

/-- After the last unit of a character the next one starts. -/
theorem initial_marks (h : MarksOne enc text (fun c ↦ (enc c).length - 1) final)
    (hlength : length = (text.flatMap enc).length) :
    MarksOne enc text (fun _ ↦ 0)
      (createInFile length fun p ↦ !advance 1 (fun p ↦ !final p) p) := by
  intro n c hc
  have hpos : 0 < (enc c).length := Nat.lt_of_le_of_lt (Nat.zero_le _) (h n c hc).1
  refine ⟨hpos, fun d hd ↦ ?_⟩
  have hin : start enc text n + d < length := hlength ▸ start_add_lt hc hd
  beta_reduce
  rw [createInFile, decide_eq_true hin, Bool.true_and]
  cases d with
  | succ d =>
    have hnot := (h n c hc).2 d (by omega)
    have hne : d ≠ (enc c).length - 1 := by omega
    rw [beq_eq_false_iff_ne.2 hne] at hnot
    rw [advance, if_neg (by omega), ← Nat.add_assoc, Nat.add_sub_cancel, hnot]
    rfl
  | zero =>
    cases n with
    | zero => rfl
    | succ n =>
      obtain ⟨hn, -⟩ := List.getElem?_eq_some_iff.1 hc
      have hprev := List.getElem?_eq_getElem (l := text) (i := n) (by omega)
      obtain ⟨hlt, hmark⟩ := h n _ hprev
      have hlast := hmark _ hlt
      beta_reduce at hlt hlast
      rw [beq_self_eq_true, ← Nat.add_sub_assoc (by omega), ← start_succ hprev] at hlast
      have hbefore : start enc text (n + 1) ≠ 0 := by
        rw [start_succ hprev]
        omega
      rw [Nat.add_zero, advance, if_neg (by omega), hlast]
      rfl

end Initial

end Parabix.Unicode
