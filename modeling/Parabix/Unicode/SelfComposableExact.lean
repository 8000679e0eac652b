import Mathlib.Algebra.Order.Group.Nat
import Parabix.Unicode.SelfComposable

namespace Parabix.Unicode

open Library Library.BitStream Library.UTF8 IDISA Pablo

section Scans

variable {m t : Stream} {p : ℕ}

theorem scan_matchStar : scan .MatchStar m t p = true ↔ MatchStarAt m t p := by
  rw [matchStarAt_iff]
  simp only [scan, ScanStatement.value, ScanStatement.addends, sum]
  cases m p <;> cases t p <;> simp

theorem scan_advanceThenScanThru :
    scan .AdvanceThenScanThru m t p = true ↔ AdvanceThenScanThruAt m t p := by
  rw [AdvanceThenScanThruAt, ← carry_or m t p]
  simp only [scan, ScanStatement.value, ScanStatement.addends, sum]
  cases m p <;> cases t p <;> simp

/-- From markers in the class a scan moves on. -/
theorem scan_scanThru (h : ∀ q, m q = true → t q = true) :
    scan .ScanThru m t p = true ↔ AdvanceThenScanThruAt m t p := by
  have hadd : (fun i ↦ m i || t i) = t := funext fun i ↦ by
    cases hm : m i
    · rfl
    · rw [h i hm, Bool.or_true]
  have hcarry := carry_or m t p
  rw [hadd] at hcarry
  rw [AdvanceThenScanThruAt, ← hcarry]
  have hin := h p
  simp only [scan, ScanStatement.value, ScanStatement.addends, sum]
  cases hm : m p <;> cases ht : t p <;> simp_all

end Scans

section Starts

variable {text : List ℕ} {x y s : Stream} {P Q : ℕ → Bool} {n k d : ℕ}

/-- A stream of marks at the first bytes of characters. -/
structure Marks (text : List ℕ) (x : Stream) (P : ℕ → Bool) : Prop where
  first (n : ℕ) (hn : n ≤ text.length) : x (start utf8 text n) = P n
  inner (n c d : ℕ) (hc : text[n]? = some c) (hpos : 0 < d) (hd : d < width c) :
    x (start utf8 text n + d) = false

/-- The bytes of characters that are not their first ones. -/
structure Suffixes (text : List ℕ) (s : Stream) : Prop where
  first (n : ℕ) (hn : n ≤ text.length) : s (start utf8 text n) = false
  inner (n c d : ℕ) (hc : text[n]? = some c) (hpos : 0 < d) (hd : d < width c) :
    s (start utf8 text n + d) = true

theorem Marks.exists_first {q : ℕ} (h : Marks text x P) (hn : n ≤ text.length)
    (hq : q < start utf8 text n) (hx : x q = true) :
    ∃ m < n, q = start utf8 text m ∧ P m = true := by
  obtain ⟨m, c, d, hm, hd, hlt, rfl⟩ := exists_earlier hn hq
  rcases Nat.eq_zero_or_pos d with rfl | hpos
  · exact ⟨m, hlt, rfl, (h.first m (by omega)) ▸ hx⟩
  · rw [h.inner m c d hm hpos hd] at hx
    exact absurd hx Bool.false_ne_true

theorem Marks.and (h : Marks text x P) (hy : ∀ n ≤ text.length, P n = true →
    y (start utf8 text n) = Q n) : Marks text (fun p ↦ x p && y p) fun n ↦ P n && Q n := by
  refine ⟨fun n hn ↦ ?_, fun n c d hc hpos hd ↦ ?_⟩
  · rw [h.first n hn]
    cases hP : P n
    · rfl
    · rw [hy n hn hP]
  · rw [h.inner n c d hc hpos hd, Bool.false_and]

theorem Marks.or (h : Marks text x P) (hy : Marks text y Q) :
    Marks text (fun p ↦ x p || y p) fun n ↦ P n || Q n := by
  refine ⟨fun n hn ↦ ?_, fun n c d hc hpos hd ↦ ?_⟩
  · rw [h.first n hn, hy.first n hn]
  · rw [h.inner n c d hc hpos hd, hy.inner n c d hc hpos hd, Bool.false_or]

/-- All bytes between two characters are in a class if all first bytes are. -/
theorem between_iff (hs : Suffixes text s) (hy : Marks text y Q) {m : ℕ} (hn : n ≤ text.length) :
    (∀ j, start utf8 text m ≤ j → j < start utf8 text n → (s j || y j) = true) ↔
      ∀ j, m ≤ j → j < n → Q j = true := by
  constructor
  · intro hall j hmj hjn
    have hin := hall (start utf8 text j) (start_mono hmj) (start_strictMono hjn hn)
    rwa [hs.first j (by omega), Bool.false_or, hy.first j (by omega)] at hin
  · intro hall j hmj hjn
    obtain ⟨i, c, d, hi, hd, hin, rfl⟩ := exists_earlier hn hjn
    rcases Nat.eq_zero_or_pos d with rfl | hpos
    · rw [Nat.add_zero, hy.first i (by omega), hall i ?_ hin, Bool.or_true]
      by_contra hlt
      have := start_strictMono (Nat.lt_of_not_le hlt) (show m ≤ text.length by
        by_contra hbig
        have : start utf8 text n ≤ start utf8 text m := start_mono (by omega)
        omega)
      omega
    · rw [hs.inner i c d hi hpos hd, Bool.true_or]

theorem Marks.matchStar (h : Marks text x P) (hs : Suffixes text s) (hy : Marks text y Q)
    (hn : n ≤ text.length) :
    scan .MatchStar x (fun p ↦ s p || y p) (start utf8 text n) = true ↔
      ∃ m ≤ n, P m = true ∧ ∀ j, m ≤ j → j < n → Q j = true := by
  rw [scan_matchStar, MatchStarAt]
  constructor
  · rintro ⟨q, hq, hx, hall⟩
    rcases Nat.eq_or_lt_of_le hq with rfl | hlt
    · exact ⟨n, Nat.le_refl n, h.first n hn ▸ hx, fun j hj hlt ↦ absurd hlt (by omega)⟩
    · obtain ⟨m, hmn, rfl, hP⟩ := h.exists_first hn hlt hx
      exact ⟨m, Nat.le_of_lt hmn, hP, (between_iff hs hy hn).1 hall⟩
  · rintro ⟨m, hmn, hP, hall⟩
    exact ⟨start utf8 text m, start_mono hmn, (h.first m (by omega)).trans hP,
      (between_iff hs hy hn).2 hall⟩

/-- After a marked character the scan goes through the characters of the class. -/
theorem Marks.advanceThenScanThru (h : Marks text x P) (hs : Suffixes text s)
    (hy : Marks text y Q) (hn : n ≤ text.length) :
    AdvanceThenScanThruAt x (fun p ↦ s p || y p) (start utf8 text n) ↔
      Q n = false ∧ ∃ m < n, P m = true ∧ ∀ j, m < j → j < n → Q j = true := by
  have hafter {m : ℕ} (hmn : m < n) :
      (∀ j, start utf8 text m < j → j < start utf8 text n → (s j || y j) = true) ↔
        ∀ j, m < j → j < n → Q j = true := by
    have hm := List.getElem?_eq_getElem (show m < text.length by omega)
    have hsucc := @start_succ _ _ utf8 _ _ _ hm
    rw [length_utf8] at hsucc
    have hiff := @between_iff text y s Q n hs hy (m + 1) hn
    constructor
    · intro hall j hmj hjn
      refine hiff.1 (fun i hi hin ↦ hall i ?_ hin) j hmj hjn
      have := width_pos text[m]
      omega
    · intro hall j hmj hjn
      by_cases hsame : j < start utf8 text (m + 1)
      · obtain ⟨d, rfl⟩ := Nat.exists_eq_add_of_le (Nat.le_of_lt hmj)
        rw [hs.inner m _ d hm (by omega) (by omega), Bool.true_or]
      · exact hiff.2 (fun i hi hin ↦ hall i hi hin) j (Nat.le_of_not_lt hsame) hjn
  rw [AdvanceThenScanThruAt]
  simp only [hs.first n hn, hy.first n hn, Bool.false_or]
  refine and_congr_right fun _ ↦ ⟨?_, ?_⟩
  · rintro ⟨q, hq, hx, hall⟩
    obtain ⟨m, hmn, rfl, hP⟩ := h.exists_first hn hq hx
    exact ⟨m, hmn, hP, (hafter hmn).1 hall⟩
  · rintro ⟨m, hmn, hP, hall⟩
    exact ⟨start utf8 text m, start_strictMono hmn hn, (h.first m (by omega)).trans hP,
      (hafter hmn).2 hall⟩

/-- Marks are counted by their characters. -/
theorem Marks.rank_start (h : Marks text x P) (hn : n ≤ text.length) :
    rank x (start utf8 text n) = rank P n := by
  induction n with
  | zero => rfl
  | succ n ih =>
    have hc := List.getElem?_eq_getElem (show n < text.length by omega)
    have hin : rank (fun d ↦ x (start utf8 text n + d)) (width text[n]) = (P n).toNat := by
      obtain ⟨w, hw⟩ : ∃ w, width text[n] = w + 1 :=
        ⟨_, (Nat.sub_add_cancel (width_pos text[n])).symm⟩
      have hrest : rank (fun d ↦ x (start utf8 text n + d)) (1 + w) =
          rank (fun d ↦ x (start utf8 text n + d)) 1 :=
        rank_eq_of_false fun i hi ↦ h.inner n _ (1 + i) hc (by omega) (by omega)
      rw [hw, Nat.add_comm, hrest, rank_succ, rank_zero, Nat.zero_add, Nat.add_zero,
        h.first n (by omega)]
    rw [start_succ hc, length_utf8, rank_add, ih (by omega), hin, rank_succ]

end Starts

section Spans

variable {text : List ℕ} {a aa n m : ℕ}

/-- The characters of a text that are a given one, by their numbers. -/
def isChar (text : List ℕ) (c : ℕ) : ℕ → Bool := fun n ↦ text[n]? == some c

theorem isChar_iff {c : ℕ} : isChar text c n = true ↔ text[n]? = some c := beq_iff_eq

theorem charMarks_marks (text : List ℕ) (c : ℕ) :
    Marks text (charMarks text c) (isChar text c) := by
  have hiff (p : ℕ) : charMarks text c p = true ↔
      ∃ m < text.length, text[m]? = some c ∧ p = start utf8 text m := by
    simp only [charMarks, List.any_eq_true, List.mem_range, Bool.and_eq_true, beq_iff_eq]
  refine ⟨fun n hn ↦ ?_, fun n b d hb hpos hd ↦ ?_⟩
  · rw [Bool.eq_iff_iff, hiff, isChar_iff]
    constructor
    · rintro ⟨m, hm, hc, hp⟩
      rwa [start_inj hn hm.le hp]
    · intro hc
      exact ⟨n, (List.getElem?_eq_some_iff.1 hc).1, hc, rfl⟩
  · rw [Bool.eq_false_iff, ne_eq, hiff]
    rintro ⟨m, hm, hc, hp⟩
    have hfirst : 0 < (utf8 c).length := length_utf8 c ▸ width_pos c
    have := place_unique hb (length_utf8 b ▸ hd) hc hfirst hp
    omega

/-- How many As a span has after a character, if it has `k` before it. -/
def spanNext (a aa k : ℕ) : Option ℕ → ℕ
  | none => 0
  | some c => if c = a then k + 1 else if c = aa then k else 0

/-- How many As are before a character in its span, from `k` on at the start of the text. -/
def spanCount (a aa : ℕ) (k : ℕ) (text : List ℕ) : ℕ → ℕ
  | 0 => k
  | n + 1 => spanNext a aa (spanCount a aa k text n) text[n]?

theorem spanCount_of_A (h : isChar text a n = true) :
    spanCount a aa 0 text (n + 1) = spanCount a aa 0 text n + 1 := by
  rw [spanCount, isChar_iff.1 h, spanNext, if_pos rfl]

theorem spanCount_of_AA (hne : a ≠ aa) (h : isChar text aa n = true) :
    spanCount a aa 0 text (n + 1) = spanCount a aa 0 text n := by
  rw [spanCount, isChar_iff.1 h, spanNext, if_neg hne.symm, if_pos rfl]

theorem spanCount_of_other (hA : isChar text a n = false) (hAA : isChar text aa n = false) :
    spanCount a aa 0 text (n + 1) = 0 := by
  rw [spanCount]
  cases hc : text[n]? with
  | none => rfl
  | some c =>
    rw [isChar, hc, beq_eq_false_iff_ne, ne_eq, Option.some_inj] at hA hAA
    rw [spanNext, if_neg hA, if_neg hAA]

theorem not_both (hne : a ≠ aa) (h : isChar text a n = true) : isChar text aa n = false := by
  rw [isChar, isChar_iff.1 h, beq_eq_false_iff_ne, ne_eq, Option.some_inj]
  exact hne

/-- A run of AAs does not change the count. -/
theorem spanCount_run (hne : a ≠ aa) (hmn : m ≤ n)
    (hrun : ∀ j, m ≤ j → j < n → isChar text aa j = true) :
    spanCount a aa 0 text n = spanCount a aa 0 text m := by
  induction n, hmn using Nat.le_induction with
  | base => rfl
  | succ n hmn ih =>
    rw [spanCount_of_AA hne (hrun n hmn (Nat.lt_succ_self n)),
      ih fun j hj hlt ↦ hrun j hj (Nat.lt_succ_of_lt hlt)]

/-- In a span the As are counted from its first one on. -/
theorem rank_of_span (hne : a ≠ aa) (hmn : m ≤ n) (hfirst : spanCount a aa 0 text m = 0)
    (hspan : ∀ j, m ≤ j → j < n → (isChar text a j || isChar text aa j) = true) :
    rank (isChar text a) n = rank (isChar text a) m + spanCount a aa 0 text n := by
  induction n, hmn using Nat.le_induction with
  | base => rw [hfirst, Nat.add_zero]
  | succ n hmn ih =>
    have hlast := hspan n hmn (Nat.lt_succ_self n)
    have hprev := ih fun j hj hlt ↦ hspan j hj (Nat.lt_succ_of_lt hlt)
    cases hA : isChar text a n with
    | true => rw [rank_succ_of_true hA, hprev, spanCount_of_A hA, Nat.add_assoc]
    | false =>
      rw [hA, Bool.false_or] at hlast
      rw [rank_succ_of_false hA, hprev, spanCount_of_AA hne hlast]

/-- A count in a span comes from its first A. -/
theorem exists_first_A (hne : a ≠ aa) (hpos : 0 < spanCount a aa 0 text n) :
    ∃ m < n, isChar text a m = true ∧ spanCount a aa 0 text m = 0 ∧
      ∀ j, m ≤ j → j < n → (isChar text a j || isChar text aa j) = true := by
  induction n with
  | zero => exact absurd hpos (Nat.lt_irrefl 0)
  | succ n ih =>
    have hextend (hn : (isChar text a n || isChar text aa n) = true)
        (hprev : 0 < spanCount a aa 0 text n) : ∃ m < n + 1, isChar text a m = true ∧
          spanCount a aa 0 text m = 0 ∧
            ∀ j, m ≤ j → j < n + 1 → (isChar text a j || isChar text aa j) = true := by
      obtain ⟨m, hm, hA, hzero, hspan⟩ := ih hprev
      refine ⟨m, Nat.lt_succ_of_lt hm, hA, hzero, fun j hj hlt ↦ ?_⟩
      rcases Nat.lt_succ_iff_lt_or_eq.1 hlt with hlt | rfl
      · exact hspan j hj hlt
      · exact hn
    cases hA : isChar text a n with
    | true =>
      rcases Nat.eq_zero_or_pos (spanCount a aa 0 text n) with hzero | hprev
      · refine ⟨n, Nat.lt_succ_self n, hA, hzero, fun j hj hlt ↦ ?_⟩
        obtain rfl : j = n := by omega
        rw [hA, Bool.true_or]
      · exact hextend (by rw [hA, Bool.true_or]) hprev
    | false =>
      cases hAA : isChar text aa n with
      | true =>
        rw [spanCount_of_AA hne hAA] at hpos
        exact hextend (by rw [hAA, Bool.or_true]) hpos
      | false =>
        rw [spanCount_of_other hA hAA] at hpos
        exact absurd hpos (Nat.lt_irrefl 0)

/-- The character before is one of a span. -/
def continues (text : List ℕ) (a aa n : ℕ) : Bool :=
  decide (0 < n) && (isChar text a (n - 1) || isChar text aa (n - 1))

theorem spanCount_of_not_continues (h : continues text a aa n = false) :
    spanCount a aa 0 text n = 0 := by
  cases n with
  | zero => rfl
  | succ n =>
    rw [continues, decide_eq_true (Nat.succ_pos n), Bool.true_and, Nat.add_sub_cancel,
      Bool.or_eq_false_iff] at h
    exact spanCount_of_other h.1 h.2

/-- AAs without an A before them in their span go back to the start of the span. -/
theorem exists_run_start (hne : a ≠ aa) (hAA : isChar text aa n = true)
    (hzero : spanCount a aa 0 text n = 0) :
    ∃ m ≤ n, (isChar text aa m && !continues text a aa m) = true ∧
      ∀ j, m < j → j ≤ n → isChar text aa j = true := by
  induction n with
  | zero => exact ⟨0, Nat.le_refl 0, by rw [hAA]; rfl, fun j hj hle ↦ absurd hle (by omega)⟩
  | succ n ih =>
    cases hcontinues : continues text a aa (n + 1) with
    | false =>
      have hfirst : (isChar text aa (n + 1) && !continues text a aa (n + 1)) = true := by
        rw [hAA, hcontinues]
        rfl
      exact ⟨n + 1, Nat.le_refl _, hfirst, fun j hj hle ↦ absurd hle (by omega)⟩
    | true =>
      rw [continues, decide_eq_true (Nat.succ_pos n), Bool.true_and,
        Nat.add_sub_cancel] at hcontinues
      cases hA : isChar text a n with
      | true =>
        rw [spanCount_of_A hA] at hzero
        exact absurd hzero (Nat.succ_ne_zero _)
      | false =>
        rw [hA, Bool.false_or] at hcontinues
        rw [spanCount_of_AA hne hcontinues] at hzero
        obtain ⟨m, hm, hstart, hrun⟩ := ih hcontinues hzero
        refine ⟨m, Nat.le_succ_of_le hm, hstart, fun j hj hle ↦ ?_⟩
        rcases Nat.eq_or_lt_of_le hle with rfl | hlt
        · exact hAA
        · exact hrun j hj (Nat.le_of_lt_succ hlt)

/-- An odd count in a run of AAs comes from the odd A before the run. -/
theorem exists_odd_A (hne : a ≠ aa) (hAA : isChar text aa n = true)
    (hodd : spanCount a aa 0 text n % 2 = 1) :
    ∃ m ≤ n, (isChar text aa m && (decide (0 < m) && (isChar text a (m - 1) &&
      decide (spanCount a aa 0 text (m - 1) % 2 = 0)))) = true ∧
        ∀ j, m ≤ j → j < n → isChar text aa j = true := by
  induction n with
  | zero => exact absurd hodd Nat.zero_ne_one
  | succ n ih =>
    cases hA : isChar text a n with
    | true =>
      rw [spanCount_of_A hA] at hodd
      refine ⟨n + 1, Nat.le_refl _, ?_, fun j hj hlt ↦ absurd hlt (by omega)⟩
      rw [hAA, Nat.add_sub_cancel, hA, decide_eq_true (Nat.succ_pos n), decide_eq_true (by omega)]
      rfl
    | false =>
      cases hprev : isChar text aa n with
      | true =>
        rw [spanCount_of_AA hne hprev] at hodd
        obtain ⟨m, hm, hstart, hrun⟩ := ih hprev hodd
        refine ⟨m, Nat.le_succ_of_le hm, hstart, fun j hj hlt ↦ ?_⟩
        rcases Nat.lt_succ_iff_lt_or_eq.1 hlt with hlt | rfl
        · exact hrun j hj hlt
        · exact hprev
      | false =>
        rw [spanCount_of_other hA hprev] at hodd
        exact absurd hodd (by decide)

end Spans

namespace SelfComposableLogic

section Marked

variable {v : Vectors} {text : List ℕ} {a aa n : ℕ} {A_ahead AA_ahead : Stream}

/-- The bytes of the text. -/
def bytes (text : List ℕ) : List ℕ := text.flatMap utf8

theorem suffixes (htext : ∀ cp ∈ text, cp < 0x110000) :
    Suffixes text (suffix (basisOf (bytes text))) := by
  have hbyte (n c d : ℕ) (hc : text[n]? = some c) (hd : d < width c) :
      suffix (basisOf (bytes text)) (start utf8 text n + d) = decide (0 < d) := by
    obtain ⟨u, hu⟩ : ∃ u, (utf8 c)[d]? = some u :=
      ⟨_, List.getElem?_eq_getElem (length_utf8 c ▸ hd)⟩
    have hget := @getElem?_flatMap _ _ utf8 _ _ _ _ hc (length_utf8 c ▸ hd)
    rw [hu] at hget
    have hclass := byte_class (htext c (List.mem_of_getElem? hc) |>.trans (by decide)) hd
    have hvalue : (utf8 c).getD d 0 = u := by rw [List.getD_eq_getElem?_getD, hu, Option.getD_some]
    simp only [hvalue] at hclass
    have hbits := And.intro (basisOf_apply hget 7) (basisOf_apply hget 6)
    rw [suffix, bytes, hbits.1, hbits.2, Nat.testBit_eq_decide_div_mod_eq,
      Nat.testBit_eq_decide_div_mod_eq, ← decide_not, ← Bool.decide_and, decide_eq_decide]
    omega
  refine ⟨fun n hn ↦ ?_, fun n c d hc hpos hd ↦ by rw [hbyte n c d hc hd, decide_eq_true hpos]⟩
  rcases Nat.lt_or_eq_of_le hn with hlt | rfl
  · have hfirst := hbyte n _ 0 (List.getElem?_eq_getElem hlt) (width_pos _)
    simpa using hfirst
  · have hend : (bytes text).getD (start utf8 text text.length) 0 = 0 := by
      rw [start_length]
      exact List.getD_eq_default _ _ le_rfl
    rw [suffix, basisOf, hend, Nat.zero_testBit, Bool.false_and]

variable (htext : ∀ cp ∈ text, cp < 0x110000) (hne : a ≠ aa)

include htext in
theorem follow_apply (hn : n ≤ text.length) :
    A_or_AA_follow (basisOf (bytes text)) (charMarks text a) (charMarks text aa)
      (start utf8 text n) = continues text a aa n := by
  have hs := suffixes htext
  have hnone : Marks text (fun _ ↦ false) fun _ ↦ false :=
    ⟨fun _ _ ↦ rfl, fun _ _ _ _ _ _ ↦ rfl⟩
  have hscan := ((charMarks_marks text a).or (charMarks_marks text aa)).advanceThenScanThru hs
    hnone hn
  simp only [Bool.or_false, true_and] at hscan
  rw [Bool.eq_iff_iff, A_or_AA_follow, scan_advanceThenScanThru, hscan, continues, Bool.and_eq_true,
    decide_eq_true_iff]
  constructor
  · rintro ⟨m, hmn, hm, hall⟩
    have hlast : n = m + 1 := by
      by_contra hgap
      exact absurd (hall (m + 1) (Nat.lt_succ_self m) (by omega)) Bool.false_ne_true
    rw [hlast, Nat.add_sub_cancel]
    exact ⟨Nat.succ_pos m, hm⟩
  · rintro ⟨hpos, hm⟩
    exact ⟨n - 1, by omega, hm, fun j hj hlt ↦ absurd hlt (by omega)⟩

include htext in
theorem AA_run_start_marks :
    Marks text (AA_run_start (basisOf (bytes text)) (charMarks text a) (charMarks text aa))
      fun n ↦ isChar text aa n && !continues text a aa n :=
  (charMarks_marks text aa).and fun n hn _ ↦ by rw [follow_apply htext hn]

include htext in
theorem AA_run_follow_iff (hn : n ≤ text.length) :
    AA_run_follow (basisOf (bytes text)) (charMarks text a) (charMarks text aa)
        (start utf8 text n) = true ↔
      isChar text aa n = false ∧ ∃ m < n, (isChar text aa m && !continues text a aa m) = true ∧
        ∀ j, m < j → j < n → isChar text aa j = true := by
  rw [AA_run_follow, scan_scanThru]
  · exact (AA_run_start_marks htext).advanceThenScanThru (suffixes htext)
      (charMarks_marks text aa) hn
  · intro q hq
    rw [AA_run_start, Bool.and_eq_true] at hq
    rw [AA_run_continue, hq.1, Bool.or_true]

include htext hne in
/-- The first A of a span. -/
theorem A_run_start_marks :
    Marks text (A_run_start (basisOf (bytes text)) (charMarks text a) (charMarks text aa))
      fun n ↦ isChar text a n && decide (spanCount a aa 0 text n = 0) := by
  refine (charMarks_marks text a).and fun n hn hA ↦ ?_
  rw [follow_apply htext hn, Bool.eq_iff_iff, Bool.or_eq_true, AA_run_follow_iff htext hn,
    Bool.not_eq_true', decide_eq_true_iff]
  constructor
  · rintro (⟨-, m, hmn, hstart, hrun⟩ | hfree)
    · rw [Bool.and_eq_true, Bool.not_eq_true'] at hstart
      rw [spanCount_run hne hmn.le fun j hj hlt ↦ ?_, spanCount_of_not_continues hstart.2]
      rcases Nat.eq_or_lt_of_le hj with rfl | hgt
      · exact hstart.1
      · exact hrun j hgt hlt
    · exact spanCount_of_not_continues hfree
  · intro hzero
    cases hcontinues : continues text a aa n with
    | false => exact .inr rfl
    | true =>
      refine .inl ⟨not_both hne hA, ?_⟩
      rw [continues, Bool.and_eq_true, decide_eq_true_iff] at hcontinues
      obtain ⟨k, rfl⟩ : ∃ k, n = k + 1 := ⟨n - 1, by omega⟩
      rw [Nat.add_sub_cancel, Bool.or_eq_true] at hcontinues
      have hprev : isChar text a k = false := by
        rw [Bool.eq_false_iff]
        intro hA
        rw [spanCount_of_A hA] at hzero
        exact Nat.succ_ne_zero _ hzero
      have hAA := hcontinues.2.resolve_left (by rw [hprev]; exact Bool.false_ne_true)
      rw [spanCount_of_AA hne hAA] at hzero
      obtain ⟨m, hm, hstart, hrun⟩ := exists_run_start hne hAA hzero
      exact ⟨m, Nat.lt_succ_of_le hm, hstart, fun j hj hlt ↦ hrun j hj (Nat.le_of_lt_succ hlt)⟩

/-- The As by their numbers in the whole text. -/
theorem A1_marks (v : Vectors) (text : List ℕ) (a : ℕ) :
    Marks text (A1 v (bytes text).length (charMarks text a))
      fun n ↦ isChar text a n && decide (rank (isChar text a) n % 2 = 0) := by
  have hmarks := charMarks_marks text a
  have hwidth : 2 ≤ v.fieldWidth := Nat.le_self_pow (Nat.succ_ne_zero _) 2
  have heach (p : ℕ) (hp : p ≤ (bytes text).length) :
      A1 v (bytes text).length (charMarks text a) p =
        (charMarks text a p && decide (rank (charMarks text a) p % 2 = 0)) :=
    everyNth_apply hwidth Nat.two_pos hp
  refine ⟨fun n hn ↦ ?_, fun n c d hc hpos hd ↦ ?_⟩
  · rw [heach _ (start_le_length hn), hmarks.first n hn, hmarks.rank_start hn]
  · have hin := start_add_lt hc (length_utf8 c ▸ hd)
    rw [heach _ hin.le, hmarks.inner n c d hc hpos hd, Bool.false_and]

theorem A2_marks (v : Vectors) (text : List ℕ) (a : ℕ) :
    Marks text (A2 v (bytes text).length (charMarks text a))
      fun n ↦ isChar text a n && decide (rank (isChar text a) n % 2 = 1) := by
  have hmarks := charMarks_marks text a
  have hA1 := A1_marks v text a
  refine ⟨fun n hn ↦ ?_, fun n c d hc hpos hd ↦ ?_⟩
  · rw [A2, hmarks.first n hn, hA1.first n hn]
    rcases Nat.mod_two_eq_zero_or_one (rank (isChar text a) n) with hmod | hmod <;>
      cases isChar text a n <;> simp [hmod]
  · rw [A2, hmarks.inner n c d hc hpos hd, hA1.inner n c d hc hpos hd, Bool.false_xor]

include htext hne in
/-- A run of a parity is a span whose first A has it. -/
theorem runs_iff {parity : ℕ} {x : Stream} (hA : isChar text a n = true)
    (hx : Marks text x fun n ↦ isChar text a n && decide (rank (isChar text a) n % 2 = parity))
    (hn : n ≤ text.length) :
    scan .MatchStar (fun p ↦ A_run_start (basisOf (bytes text)) (charMarks text a)
        (charMarks text aa) p && x p)
      (run_continue (basisOf (bytes text)) (charMarks text a) (charMarks text aa))
      (start utf8 text n) = true ↔
        (rank (isChar text a) n + spanCount a aa 0 text n) % 2 = parity := by
  have hcontinue : run_continue (basisOf (bytes text)) (charMarks text a) (charMarks text aa) =
      fun p ↦ suffix (basisOf (bytes text)) p || (charMarks text a p || charMarks text aa p) :=
    funext fun p ↦ Bool.or_assoc _ _ _
  have hstart := (A_run_start_marks htext hne).and fun n hn _ ↦ hx.first n hn
  rw [hcontinue, hstart.matchStar (suffixes htext)
    ((charMarks_marks text a).or (charMarks_marks text aa)) hn]
  constructor
  · rintro ⟨m, hmn, hm, hspan⟩
    simp only [Bool.and_eq_true, decide_eq_true_eq] at hm
    have hrank := rank_of_span hne hmn hm.1.2 hspan
    omega
  · intro hparity
    rcases Nat.eq_zero_or_pos (spanCount a aa 0 text n) with hzero | hpos
    · refine ⟨n, Nat.le_refl n, ?_, fun j hj hlt ↦ absurd hlt (by omega)⟩
      rw [hzero, Nat.add_zero] at hparity
      simp only [hA, hzero, hparity, decide_true, Bool.and_self]
    · obtain ⟨m, hmn, hm, hfirst, hspan⟩ := exists_first_A hne hpos
      have hrank := rank_of_span hne hmn.le hfirst hspan
      have hsame : rank (isChar text a) m % 2 = parity := by omega
      refine ⟨m, hmn.le, ?_, hspan⟩
      simp only [hm, hfirst, hsame, decide_true, Bool.and_self]

include htext hne in
/-- The As of each parity are counted from the first A of their span. -/
theorem parity_marks {parity : ℕ} {x y : Stream} (hparity : parity < 2)
    (hx : Marks text x fun n ↦ isChar text a n && decide (rank (isChar text a) n % 2 = parity))
    (hy : Marks text y fun n ↦
      isChar text a n && decide (rank (isChar text a) n % 2 = 1 - parity)) :
    Marks text (fun p ↦
      A1_runs v (bytes text).length (basisOf (bytes text)) (charMarks text a)
        (charMarks text aa) p &&
          x p ||
        A2_runs v (bytes text).length (basisOf (bytes text)) (charMarks text a)
          (charMarks text aa) p && y p)
      fun n ↦ isChar text a n && decide (spanCount a aa 0 text n % 2 = parity) := by
  refine ⟨fun n hn ↦ ?_, fun n c d hc hpos hd ↦ ?_⟩
  · rw [hx.first n hn, hy.first n hn]
    cases hA : isChar text a n with
    | false => simp only [Bool.false_and, Bool.and_false, Bool.or_self]
    | true =>
      rw [Bool.eq_iff_iff]
      simp only [Bool.true_and, Bool.or_eq_true, Bool.and_eq_true, decide_eq_true_eq]
      rw [A1_runs, A2_runs, runs_iff htext hne hA (A1_marks v text a) hn,
        runs_iff htext hne hA (A2_marks v text a) hn]
      omega
  · rw [hx.inner n c d hc hpos hd, hy.inner n c d hc hpos hd, Bool.and_false, Bool.and_false,
      Bool.or_self]

include htext hne in
theorem A_odd_marks (v : Vectors) :
    Marks text (A_odd v (bytes text).length (basisOf (bytes text)) (charMarks text a)
      (charMarks text aa)) fun n ↦ isChar text a n && decide (spanCount a aa 0 text n % 2 = 0) :=
  parity_marks htext hne Nat.two_pos (A1_marks v text a) (A2_marks v text a)

include htext hne in
theorem A_even_marks (v : Vectors) :
    Marks text (A_even v (bytes text).length (basisOf (bytes text)) (charMarks text a)
      (charMarks text aa)) fun n ↦ isChar text a n && decide (spanCount a aa 0 text n % 2 = 1) :=
  parity_marks htext hne Nat.one_lt_two (A2_marks v text a) (A1_marks v text a)

/-- The character after a marked one of the given length. -/
theorem advance_marks {x : Stream} {P : ℕ → Bool} {w : ℕ} (hx : Marks text x P)
    (hP : ∀ n, P n = true → text[n]? = some a) (hw : w = width a) (hn : n ≤ text.length) :
    advance w x (start utf8 text n) = (decide (0 < n) && P (n - 1)) := by
  have hwpos : 0 < w := hw ▸ width_pos a
  have hsucc (m : ℕ) (hm : P m = true) : start utf8 text (m + 1) = start utf8 text m + w := by
    rw [start_succ (hP m hm), length_utf8, hw]
  have hiff : advance w x (start utf8 text n) = true ↔
      ∃ q, q + w = start utf8 text n ∧ x q = true := by
    rw [advance]
    split_ifs with hlt
    · refine ⟨fun h ↦ h.elim, ?_⟩
      rintro ⟨q, hq, -⟩
      omega
    · constructor
      · exact fun h ↦ ⟨_, Nat.sub_add_cancel (Nat.le_of_not_lt hlt), h⟩
      · rintro ⟨q, hq, h⟩
        rwa [← hq, Nat.add_sub_cancel]
  rw [Bool.eq_iff_iff, hiff, Bool.and_eq_true, decide_eq_true_iff]
  constructor
  · rintro ⟨q, hq, hxq⟩
    obtain ⟨m, hmn, rfl, hPm⟩ := hx.exists_first hn (by omega) hxq
    have hnext := start_inj (show m + 1 ≤ text.length by omega) hn ((hsucc m hPm).trans hq)
    rw [← hnext, Nat.add_sub_cancel]
    exact ⟨Nat.succ_pos m, hPm⟩
  · rintro ⟨hpos, hPn⟩
    refine ⟨start utf8 text (n - 1), ?_, (hx.first _ (by omega)).trans hPn⟩
    rw [← hsucc _ hPn, Nat.sub_add_cancel hpos]

include htext hne in
theorem AA1_marks (v : Vectors) :
    Marks text (AA1 v (bytes text).length (basisOf (bytes text)) (width a) (charMarks text a)
      (charMarks text aa)) fun n ↦ isChar text aa n && (decide (0 < n) && (isChar text a (n - 1) &&
        decide (spanCount a aa 0 text (n - 1) % 2 = 0))) := by
  refine (charMarks_marks text aa).and fun n hn _ ↦ ?_
  refine advance_marks (A_odd_marks htext hne v) (fun n hP ↦ ?_) rfl hn
  rw [Bool.and_eq_true] at hP
  exact isChar_iff.1 hP.1

include htext hne in
theorem A_odd_AA_run_iff (v : Vectors) (hAA : isChar text aa n = true) (hn : n ≤ text.length) :
    A_odd_AA_run v (bytes text).length (basisOf (bytes text)) (width a) (charMarks text a)
      (charMarks text aa) (start utf8 text n) = true ↔ spanCount a aa 0 text n % 2 = 1 := by
  have hiff := (AA1_marks htext hne v).matchStar (suffixes htext) (charMarks_marks text aa) hn
  refine hiff.trans ⟨?_, exists_odd_A hne hAA⟩
  rintro ⟨m, hmn, hm, hrun⟩
  simp only [Bool.and_eq_true, decide_eq_true_eq] at hm
  obtain ⟨k, rfl⟩ : ∃ k, m = k + 1 := ⟨m - 1, by omega⟩
  rw [Nat.add_sub_cancel] at hm
  rw [spanCount_run hne hmn hrun, spanCount_of_A hm.2.2.1]
  omega

/-- What the streams of the characters ahead say at a character of the pair. -/
structure Ahead (text : List ℕ) (a aa : ℕ) (A_ahead AA_ahead : Stream) : Prop where
  A (n c : ℕ) (hc : text[n]? = some c) (hpair : c = a ∨ c = aa) :
    A_ahead (start utf8 text n) = isChar text a (n + 1)
  AA (n c : ℕ) (hc : text[n]? = some c) (hpair : c = a ∨ c = aa) :
    AA_ahead (start utf8 text n) = isChar text aa (n + 1)

variable (hahead : Ahead text a aa A_ahead AA_ahead)

include htext hne hahead in
theorem A_to_delete_marks (v : Vectors) :
    Marks text (A_to_delete v (bytes text).length (basisOf (bytes text)) (charMarks text a)
      (charMarks text aa) A_ahead) fun n ↦
        isChar text a n && decide (spanCount a aa 0 text n % 2 = 0) && isChar text a (n + 1) := by
  refine (A_odd_marks htext hne v).and fun n _ hn ↦ ?_
  rw [Bool.and_eq_true] at hn
  exact hahead.A n a (isChar_iff.1 hn.1) (.inl rfl)

include htext hne hahead in
theorem A_to_convert_to_AA_marks (v : Vectors) :
    Marks text (A_to_convert_to_AA v (bytes text).length (basisOf (bytes text)) (charMarks text a)
      (charMarks text aa) AA_ahead) fun n ↦
        isChar text a n && decide (spanCount a aa 0 text n % 2 = 1) ||
          isChar text a n && decide (spanCount a aa 0 text n % 2 = 0) &&
            isChar text aa (n + 1) := by
  refine (A_even_marks htext hne v).or ((A_odd_marks htext hne v).and fun n _ hn ↦ ?_)
  rw [Bool.and_eq_true] at hn
  exact hahead.AA n a (isChar_iff.1 hn.1) (.inl rfl)

include htext hne hahead in
/-- The last AA after an odd A. -/
theorem A_odd_AA_final_marks (v : Vectors) :
    Marks text (A_odd_AA_final v (bytes text).length (basisOf (bytes text)) (width a)
      (charMarks text a) (charMarks text aa) AA_ahead) fun n ↦
        isChar text aa n && decide (spanCount a aa 0 text n % 2 = 1) &&
          !isChar text aa (n + 1) := by
  have hmarks := charMarks_marks text aa
  refine ⟨fun n hn ↦ ?_, fun n c d hc hpos hd ↦ ?_⟩
  · rw [A_odd_AA_final, hmarks.first n hn]
    cases hAA : isChar text aa n with
    | false => rw [Bool.and_false, Bool.false_and, Bool.false_and, Bool.false_and]
    | true =>
      have hrun := A_odd_AA_run_iff htext hne v hAA hn
      rw [hahead.AA n aa (isChar_iff.1 hAA) (.inr rfl), Bool.and_true, Bool.true_and]
      congr 1
      rw [Bool.eq_iff_iff, hrun, decide_eq_true_iff]
  · rw [A_odd_AA_final, hmarks.inner n c d hc hpos hd, Bool.and_false, Bool.false_and]

include htext hne hahead in
theorem AA_to_delete_marks (v : Vectors) :
    Marks text (AA_to_delete v (bytes text).length (basisOf (bytes text)) (width a)
      (charMarks text a) (charMarks text aa) A_ahead AA_ahead) fun n ↦
        isChar text aa n && decide (spanCount a aa 0 text n % 2 = 1) && !isChar text aa (n + 1) &&
          isChar text a (n + 1) := by
  refine (A_odd_AA_final_marks htext hne hahead v).and fun n _ hn ↦ ?_
  rw [Bool.and_eq_true, Bool.and_eq_true] at hn
  exact hahead.A n aa (isChar_iff.1 hn.1.1) (.inr rfl)

include htext hne hahead in
theorem AA_to_convert_to_A_marks (v : Vectors) :
    Marks text (AA_to_convert_to_A v (bytes text).length (basisOf (bytes text)) (width a)
      (charMarks text a) (charMarks text aa) A_ahead AA_ahead) fun n ↦
        isChar text aa n && decide (spanCount a aa 0 text n % 2 = 1) && !isChar text aa (n + 1) &&
          !isChar text a (n + 1) := by
  refine (A_odd_AA_final_marks htext hne hahead v).and fun n _ hn ↦ ?_
  rw [Bool.and_eq_true, Bool.and_eq_true] at hn
  rw [hahead.A n aa (isChar_iff.1 hn.1.1) (.inr rfl)]

theorem deleteBytes_iff {marked deleted : Stream} {first last p : ℕ} :
    deleteBytes marked deleted first last p = true ↔ deleted p = true ∨
      ∃ i, first ≤ i ∧ i < last + 1 ∧ advance (i - 1) marked p = true := by
  have hloop (k : ℕ) : (List.range' first k).foldl (fun deleted i p ↦
      deleted p || advance (i - 1) marked p) deleted p = true ↔ deleted p = true ∨
        ∃ i, first ≤ i ∧ i < first + k ∧ advance (i - 1) marked p = true := by
    induction k with
    | zero =>
      refine ⟨.inl, fun h ↦ h.resolve_right ?_⟩
      rintro ⟨i, hfirst, hlast, -⟩
      omega
    | succ k ih =>
      rw [List.range'_concat, List.foldl_append, List.foldl_cons, List.foldl_nil, Bool.or_eq_true,
        ih, Nat.one_mul, or_assoc]
      refine or_congr_right ⟨?_, ?_⟩
      · rintro (⟨i, hfirst, hlast, hi⟩ | hi)
        · exact ⟨i, hfirst, by omega, hi⟩
        · exact ⟨first + k, by omega, by omega, hi⟩
      · rintro ⟨i, hfirst, hlast, hi⟩
        rcases Nat.lt_or_eq_of_le (show i ≤ first + k by omega) with hlt | rfl
        · exact .inl ⟨i, hfirst, hlt, hi⟩
        · exact .inr hi
  rw [deleteBytes, hloop]
  refine or_congr_right (exists_congr fun i ↦ ?_)
  constructor
  · rintro ⟨hfirst, hlast, hi⟩
    exact ⟨hfirst, by omega, hi⟩
  · rintro ⟨hfirst, hlast, hi⟩
    exact ⟨hfirst, by omega, hi⟩

/-- A mark that is moved inside its character. -/
theorem advance_in_char {x : Stream} {P : ℕ → Bool} {c d k : ℕ} (hx : Marks text x P)
    (hlen : ∀ n c, text[n]? = some c → P n = true → k < width c) (hc : text[n]? = some c)
    (hd : d < width c) :
    advance k x (start utf8 text n + d) = true ↔ d = k ∧ P n = true := by
  have hn : n < text.length := (List.getElem?_eq_some_iff.1 hc).1
  have hnext : start utf8 text n + d < start utf8 text (n + 1) := by
    rw [start_succ hc, length_utf8]
    omega
  rw [advance]
  split_ifs with hlt
  · refine ⟨fun h ↦ h.elim, ?_⟩
    rintro ⟨rfl, -⟩
    omega
  · constructor
    · intro h
      obtain ⟨m, hmn, hm, hP⟩ := hx.exists_first hn (show start utf8 text n + d - k <
        start utf8 text (n + 1) by omega) h
      have hcm := List.getElem?_eq_getElem (show m < text.length by omega)
      have hk := hlen m _ hcm hP
      obtain ⟨rfl, -, rfl⟩ := place_unique hc (length_utf8 c ▸ hd) hcm (length_utf8 _ ▸ hk)
        (by omega)
      exact ⟨rfl, hP⟩
    · rintro ⟨rfl, hP⟩
      rw [Nat.add_sub_cancel, hx.first n hn.le, hP]

include htext hne hahead in
/-- All bytes of a deleted character are deleted, and no others. -/
theorem A_or_AA_to_delete_apply (v : Vectors) {c d : ℕ} (hc : text[n]? = some c)
    (hd : d < width c) :
    A_or_AA_to_delete v (bytes text).length (basisOf (bytes text)) (width a) (width aa)
        (charMarks text a) (charMarks text aa) A_ahead AA_ahead (start utf8 text n + d) =
      (isChar text a n && decide (spanCount a aa 0 text n % 2 = 0) && isChar text a (n + 1) ||
        isChar text aa n && decide (spanCount a aa 0 text n % 2 = 1) &&
          !isChar text aa (n + 1) && isChar text a (n + 1)) := by
  have hA := A_to_delete_marks htext hne hahead v
  have hAA := AA_to_delete_marks htext hne hahead v
  generalize hPA : (fun n ↦ isChar text a n && decide (spanCount a aa 0 text n % 2 = 0) &&
    isChar text a (n + 1)) = PA at hA
  generalize hPAA : (fun n ↦ isChar text aa n && decide (spanCount a aa 0 text n % 2 = 1) &&
    !isChar text aa (n + 1) && isChar text a (n + 1)) = PAA at hAA
  have hcharA (m e : ℕ) (he : text[m]? = some e) (hm : PA m = true) : e = a := by
    rw [← hPA, Bool.and_eq_true, Bool.and_eq_true] at hm
    exact Option.some_inj.1 (he.symm.trans (isChar_iff.1 hm.1.1))
  have hcharAA (m e : ℕ) (he : text[m]? = some e) (hm : PAA m = true) : e = aa := by
    rw [← hPAA, Bool.and_eq_true, Bool.and_eq_true, Bool.and_eq_true] at hm
    exact Option.some_inj.1 (he.symm.trans (isChar_iff.1 hm.1.1.1))
  have hboth := hA.or hAA
  have hlenBoth (k : ℕ) (hk : k < min (width a) (width aa)) (m e : ℕ) (he : text[m]? = some e)
      (hm : (PA m || PAA m) = true) : k < width e := by
    rcases Bool.or_eq_true_iff.1 hm with hm | hm
    · rw [hcharA m e he hm]
      omega
    · rw [hcharAA m e he hm]
      omega
  have hfirst (q : ℕ) (hq : q < width c) (k : ℕ) (hk : k < min (width a) (width aa)) :
      advance k (to_delete v (bytes text).length (basisOf (bytes text)) (width a)
        (charMarks text a) (charMarks text aa) A_ahead AA_ahead) (start utf8 text n + q) = true ↔
          q = k ∧ (PA n || PAA n) = true :=
    advance_in_char hboth (hlenBoth k hk) hc hq
  have hzero : ∀ x : Stream, advance 0 x = x := fun x ↦ funext fun p ↦ by
    rw [advance, if_neg (Nat.not_lt_zero p), Nat.sub_zero]
  have hmin : 0 < min (width a) (width aa) := by
    have := width_pos a
    have := width_pos aa
    omega
  -- The common bytes of both characters.
  have hcommon : deleteBytes (to_delete v (bytes text).length (basisOf (bytes text)) (width a)
        (charMarks text a) (charMarks text aa) A_ahead AA_ahead)
      (to_delete v (bytes text).length (basisOf (bytes text)) (width a)
        (charMarks text a) (charMarks text aa) A_ahead AA_ahead) 2 (min (width a) (width aa))
      (start utf8 text n + d) = true ↔
        d < min (width a) (width aa) ∧ (PA n || PAA n) = true := by
    have hself := hfirst d hd 0 hmin
    rw [hzero] at hself
    rw [deleteBytes_iff, hself]
    constructor
    · rintro (⟨rfl, hP⟩ | ⟨i, htwo, hlast, hi⟩)
      · exact ⟨hmin, hP⟩
      · rw [hfirst d hd _ (by omega)] at hi
        exact ⟨by omega, hi.2⟩
    · rintro ⟨hdmin, hP⟩
      rcases Nat.eq_zero_or_pos d with hd0 | hdpos
      · exact .inl ⟨hd0, hP⟩
      · exact .inr ⟨d + 1, by omega, by omega, (hfirst d hd _ (by omega)).2 ⟨rfl, hP⟩⟩
  have hrest {x : Stream} {P : ℕ → Bool} {w : ℕ} (hx : Marks text x P)
      (hw : ∀ m e, text[m]? = some e → P m = true → width e = w) :
      (∃ i, min (width a) (width aa) + 1 ≤ i ∧ i < w + 1 ∧
        advance (i - 1) x (start utf8 text n + d) = true) ↔
          min (width a) (width aa) ≤ d ∧ d < w ∧ P n = true := by
    have hmove (k : ℕ) (hk : k < w) : advance k x (start utf8 text n + d) = true ↔
        d = k ∧ P n = true :=
      advance_in_char hx (fun m e he hm ↦ by rw [hw m e he hm]; exact hk) hc hd
    constructor
    · rintro ⟨i, hlow, hhigh, hi⟩
      rw [hmove _ (by omega)] at hi
      exact ⟨by omega, by omega, hi.2⟩
    · rintro ⟨hlow, hhigh, hP⟩
      exact ⟨d + 1, by omega, by omega, (hmove _ (by omega)).2 ⟨rfl, hP⟩⟩
  have hrestA := hrest hA fun m e he hm ↦ by rw [hcharA m e he hm]
  have hrestAA := hrest hAA fun m e he hm ↦ by rw [hcharAA m e he hm]
  have hgoal : (PA n || PAA n) =
      (isChar text a n && decide (spanCount a aa 0 text n % 2 = 0) && isChar text a (n + 1) ||
        isChar text aa n && decide (spanCount a aa 0 text n % 2 = 1) &&
          !isChar text aa (n + 1) && isChar text a (n + 1)) := by rw [← hPA, ← hPAA]
  have hwidthA (hP : PA n = true) : width c = width a := by rw [hcharA n c hc hP]
  have hwidthAA (hP : PAA n = true) : width c = width aa := by rw [hcharAA n c hc hP]
  rw [← hgoal, Bool.eq_iff_iff, A_or_AA_to_delete]
  split_ifs with hlonger hlonger'
  · rw [deleteBytes_iff, hcommon, hrestA, Bool.or_eq_true]
    constructor
    · rintro (⟨-, hP⟩ | ⟨-, -, hP⟩)
      · exact hP
      · exact .inl hP
    · intro hP
      by_cases hdmin : d < min (width a) (width aa)
      · exact .inl ⟨hdmin, hP⟩
      · rcases hP with hP | hP
        · have := hwidthA hP
          exact .inr ⟨by omega, by omega, hP⟩
        · have := hwidthAA hP
          clear hrestA hrestAA
          exact absurd hdmin (by omega)
  · rw [deleteBytes_iff, hcommon, hrestAA, Bool.or_eq_true]
    constructor
    · rintro (⟨-, hP⟩ | ⟨-, -, hP⟩)
      · exact hP
      · exact .inr hP
    · intro hP
      by_cases hdmin : d < min (width a) (width aa)
      · exact .inl ⟨hdmin, hP⟩
      · rcases hP with hP | hP
        · have := hwidthA hP
          clear hrestA hrestAA
          exact absurd hdmin (by omega)
        · have := hwidthAA hP
          exact .inr ⟨by omega, by omega, hP⟩
  · rw [hcommon, Bool.or_eq_true]
    refine ⟨fun h ↦ h.2, fun hP ↦ ⟨?_, hP⟩⟩
    rcases hP with hP | hP
    · have := hwidthA hP
      omega
    · have := hwidthAA hP
      omega

end Marked

end SelfComposableLogic

section Composition

variable {a aa k w : ℕ}

/-- A span of the given weight, composed. -/
def composedSpan (a aa w : ℕ) : List ℕ := List.replicate (w / 2) aa ++ List.replicate (w % 2) a

/-- Each maximal span of As and AAs is composed by its weight, of which `w` comes from before. -/
def compose (a aa : ℕ) : (w : ℕ) → List ℕ → List ℕ
  | w, [] => composedSpan a aa w
  | w, c :: text =>
    if c = a then compose a aa (w + 1) text
    else if c = aa then compose a aa (w + 2) text
    else composedSpan a aa w ++ c :: compose a aa 0 text

theorem compose_add_two (w : ℕ) (text : List ℕ) :
    compose a aa (w + 2) text = aa :: compose a aa w text := by
  have hspan (w : ℕ) : composedSpan a aa (w + 2) = aa :: composedSpan a aa w := by
    rw [composedSpan, show (w + 2) / 2 = w / 2 + 1 by omega, show (w + 2) % 2 = w % 2 by omega,
      List.replicate_succ, List.cons_append, composedSpan]
  induction text generalizing w with
  | nil => exact hspan w
  | cons c text ih =>
    rw [compose, compose]
    split_ifs
    · exact ih (w + 1)
    · exact ih (w + 2)
    · rw [hspan, List.cons_append]

/-- A span of n As and m AAs between other characters. -/
theorem compose_span {pre span post : List ℕ} (hspan : ∀ c ∈ span, c = a ∨ c = aa) (hne : a ≠ aa)
    (hpre : ∀ c ∈ pre.getLast?, c ≠ a ∧ c ≠ aa) (hpost : ∀ c ∈ post.head?, c ≠ a ∧ c ≠ aa) :
    compose a aa 0 (pre ++ (span ++ post)) =
      compose a aa 0 pre ++ (composedSpan a aa (span.count a + 2 * span.count aa) ++
        compose a aa 0 post) := by
  have hends (w : ℕ) : compose a aa w post = composedSpan a aa w ++ compose a aa 0 post := by
    cases post with
    | nil => exact (List.append_nil _).symm
    | cons c post =>
      have hc := hpost c rfl
      rw [compose, compose, if_neg hc.1, if_neg hc.2, if_neg hc.1, if_neg hc.2]
      rfl
  have hmiddle (w : ℕ) : compose a aa w (span ++ post) =
      composedSpan a aa (w + (span.count a + 2 * span.count aa)) ++ compose a aa 0 post := by
    induction span generalizing w with
    | nil => exact hends w
    | cons c span ih =>
      have hrest := ih fun c hc ↦ hspan c (List.mem_cons_of_mem _ hc)
      rcases hspan c List.mem_cons_self with rfl | rfl
      · rw [List.cons_append, compose, if_pos rfl, hrest, List.count_cons_self,
          List.count_cons_of_ne hne]
        congr 2
        omega
      · rw [List.cons_append, compose, if_neg hne.symm, if_pos rfl, hrest, List.count_cons_self,
          List.count_cons_of_ne hne.symm]
        congr 2
        omega
  have hwhole (w : ℕ) (hw : pre = [] → w = 0) : compose a aa w (pre ++ (span ++ post)) =
      compose a aa w pre ++ (composedSpan a aa (span.count a + 2 * span.count aa) ++
        compose a aa 0 post) := by
    induction pre generalizing w with
    | nil =>
      rw [hw rfl, List.nil_append, hmiddle, Nat.zero_add]
      rfl
    | cons c pre ih =>
      have hlast : ∀ d ∈ pre.getLast?, d ≠ a ∧ d ≠ aa := by
        intro d hd
        cases pre with
        | nil => cases hd
        | cons e pre => exact hpre d (by rwa [List.getLast?_cons_cons])
      have hsingle (hin : c = a ∨ c = aa) : pre ≠ [] := by
        rintro rfl
        have hc := hpre c rfl
        exact hin.elim hc.1 hc.2
      rw [List.cons_append, compose, compose]
      split_ifs with hA hAA
      · exact ih hlast _ fun hnil ↦ absurd hnil (hsingle (.inl hA))
      · exact ih hlast _ fun hnil ↦ absurd hnil (hsingle (.inr hAA))
      · rw [ih hlast 0 fun _ ↦ rfl, List.append_assoc, List.cons_append]
  exact hwhole 0 fun _ ↦ rfl

/-- What becomes of an odd A, or of an AA in the run behind it, before the next character. -/
def openEnd (a aa : ℕ) (next : Option ℕ) : List ℕ :=
  if next = some a then [] else if next = some aa then [aa] else [a]

/-- What becomes of a character that has `k` As before it in its span. -/
def composed (a aa k c : ℕ) (next : Option ℕ) : List ℕ :=
  if c = a then if k % 2 = 0 then openEnd a aa next else [aa]
  else if c = aa then if k % 2 = 0 then [aa] else openEnd a aa next
  else [c]

def composeFrom (a aa : ℕ) : (k : ℕ) → List ℕ → List ℕ
  | _, [] => []
  | k, c :: text => composed a aa k c text.head? ++ composeFrom a aa (spanNext a aa k (some c)) text

/-- Before every character the weight of what is not yet composed is the parity of the As. -/
theorem composeFrom_eq (hne : a ≠ aa) (text : List ℕ) :
    (k % 2 = 0 → composeFrom a aa k text = compose a aa 0 text) ∧
      (k % 2 = 1 → openEnd a aa text.head? ++ composeFrom a aa k text = compose a aa 1 text) := by
  induction text generalizing k with
  | nil =>
    refine ⟨fun _ ↦ rfl, fun _ ↦ ?_⟩
    simp [openEnd, composeFrom, compose, composedSpan]
  | cons c text ih =>
    rw [composeFrom, compose, compose, composed, spanNext, List.head?_cons]
    by_cases hA : c = a
    · subst hA
      have hnext := ih (k := k + 1)
      rw [if_pos rfl, if_pos rfl, if_pos rfl, if_pos rfl]
      refine ⟨fun heven ↦ ?_, fun hodd ↦ ?_⟩
      · rw [if_pos heven, hnext.2 (by omega)]
      · rw [if_neg (by omega), hnext.1 (by omega), openEnd, if_pos rfl, compose_add_two]
        rfl
    · by_cases hAA : c = aa
      · subst hAA
        have hnext := ih (k := k)
        rw [if_neg hA, if_pos rfl, if_neg hA, if_pos rfl, if_neg hA, if_pos rfl, if_neg hA,
          if_pos rfl]
        refine ⟨fun heven ↦ ?_, fun hodd ↦ ?_⟩
        · rw [if_pos heven, hnext.1 heven, compose_add_two]
          rfl
        · rw [if_neg (by omega), hnext.2 hodd, openEnd, if_neg (by simpa using hA), if_pos rfl,
            compose_add_two]
          rfl
      · have hnext := ih (k := 0)
        rw [if_neg hA, if_neg hAA, if_neg hA, if_neg hAA, if_neg hA, if_neg hAA, if_neg hA,
          if_neg hAA, hnext.1 rfl]
        refine ⟨fun _ ↦ rfl, fun _ ↦ ?_⟩
        rw [openEnd, if_neg (by simpa using hA), if_neg (by simpa using hAA)]
        rfl

/-- Character by character, with the number of As before each one. -/
theorem flatMap_composed (k : ℕ) (text : List ℕ) :
    ((List.range text.length).flatMap fun n ↦
      composed a aa (spanCount a aa k text n) (text.getD n 0) text[n + 1]?) =
        composeFrom a aa k text := by
  have hshift (c : ℕ) (text : List ℕ) (k n : ℕ) : spanCount a aa k (c :: text) (n + 1) =
      spanCount a aa (spanNext a aa k (some c)) text n := by
    induction n with
    | zero => rfl
    | succ n ih => rw [spanCount, ih, List.getElem?_cons_succ, spanCount]
  induction text generalizing k with
  | nil => rfl
  | cons c text ih =>
    rw [List.length_cons, List.range_succ_eq_map, List.flatMap_cons, List.flatMap_map, composeFrom,
      ← ih]
    congr 1
    · rw [List.getElem?_cons_succ, ← List.head?_eq_getElem?]
      rfl
    · refine List.flatMap_congr fun n _ ↦ ?_
      rw [hshift, List.getD_cons_succ, List.getElem?_cons_succ]

end Composition

section Results

open SelfComposableLogic

variable {v : Vectors} {text : List ℕ} {a aa n c d : ℕ} {A_ahead AA_ahead : Stream}

/-- The results for the bytes of a text. -/
def resultsOf (v : Vectors) (text : List ℕ) (a aa : ℕ) (A_ahead AA_ahead : Stream) : SCResults :=
  SelfComposableLogic v (bytes text).length (basisOf (bytes text)) (width a) (width aa)
    (charMarks text a) (charMarks text aa) A_ahead AA_ahead

variable (htext : ∀ cp ∈ text, cp < 0x110000) (hne : a ≠ aa)
  (hahead : Ahead text a aa A_ahead AA_ahead)

include htext hne hahead in
/-- The marks at the bytes of a character. -/
theorem results_apply (hc : text[n]? = some c) (hd : d < width c) :
    let k := spanCount a aa 0 text n
    let results := resultsOf v text a aa A_ahead AA_ahead
    results.A_to_convert_to_AA (start utf8 text n + d) = decide (d = 0 ∧ c = a ∧
        (k % 2 = 1 ∨ text[n + 1]? = some aa)) ∧
      results.AA_to_convert_to_A (start utf8 text n + d) = decide (d = 0 ∧ c = aa ∧ k % 2 = 1 ∧
        text[n + 1]? ≠ some aa ∧ text[n + 1]? ≠ some a) ∧
      results.A_or_AA_to_delete (start utf8 text n + d) = decide (text[n + 1]? = some a ∧
        (c = a ∧ k % 2 = 0 ∨ c = aa ∧ k % 2 = 1)) := by
  intro k results
  have hn : n < text.length := (List.getElem?_eq_some_iff.1 hc).1
  have hA : isChar text a n = decide (c = a) := by
    rw [isChar, hc, Bool.eq_iff_iff, beq_iff_eq, Option.some_inj, decide_eq_true_iff]
  have hAA : isChar text aa n = decide (c = aa) := by
    rw [isChar, hc, Bool.eq_iff_iff, beq_iff_eq, Option.some_inj, decide_eq_true_iff]
  have hnext (e : ℕ) : isChar text e (n + 1) = decide (text[n + 1]? = some e) := by
    rw [isChar, Bool.eq_iff_iff, beq_iff_eq, decide_eq_true_iff]
  have hdelete := A_or_AA_to_delete_apply htext hne hahead v hc hd
  have hconvertA := A_to_convert_to_AA_marks htext hne hahead v
  have hconvertAA := AA_to_convert_to_A_marks htext hne hahead v
  refine ⟨?_, ?_, ?_⟩
  · rcases Nat.eq_zero_or_pos d with rfl | hpos
    · refine (hconvertA.first n hn.le).trans ?_
      rw [hA, hnext, Bool.eq_iff_iff]
      simp only [Bool.or_eq_true, Bool.and_eq_true, decide_eq_true_eq]
      constructor
      · rintro (⟨hc, hk⟩ | ⟨⟨hc, -⟩, hAA⟩)
        · exact ⟨trivial, hc, .inl hk⟩
        · exact ⟨trivial, hc, .inr hAA⟩
      · rintro ⟨-, hc, hk | hAA⟩
        · exact .inl ⟨hc, hk⟩
        · rcases Nat.mod_two_eq_zero_or_one k with hk | hk
          · exact .inr ⟨⟨hc, hk⟩, hAA⟩
          · exact .inl ⟨hc, hk⟩
    · refine (hconvertA.inner n c d hc hpos hd).trans (decide_eq_false ?_).symm
      omega
  · rcases Nat.eq_zero_or_pos d with rfl | hpos
    · refine (hconvertAA.first n hn.le).trans ?_
      rw [hAA, hnext, hnext, Bool.eq_iff_iff]
      simp only [Bool.and_eq_true, Bool.not_eq_true', decide_eq_true_eq, decide_eq_false_iff_not]
      tauto
    · refine (hconvertAA.inner n c d hc hpos hd).trans (decide_eq_false ?_).symm
      omega
  · refine hdelete.trans ?_
    rw [hA, hAA, hnext, hnext, Bool.eq_iff_iff]
    simp only [Bool.or_eq_true, Bool.and_eq_true, Bool.not_eq_true', decide_eq_true_eq,
      decide_eq_false_iff_not]
    constructor
    · rintro (⟨⟨hc, hk⟩, hA⟩ | ⟨⟨⟨hc, hk⟩, -⟩, hA⟩)
      · exact ⟨hA, .inl ⟨hc, hk⟩⟩
      · exact ⟨hA, .inr ⟨hc, hk⟩⟩
    · rintro ⟨hA, ⟨hc, hk⟩ | ⟨hc, hk⟩⟩
      · exact .inl ⟨⟨hc, hk⟩, hA⟩
      · refine .inr ⟨⟨⟨hc, hk⟩, fun hAA ↦ hne ?_⟩, hA⟩
        exact Option.some_inj.1 (hA.symm.trans hAA)

theorem filterMap_getElem? {α : Type*} (l : List α) :
    (List.range l.length).filterMap (fun d ↦ l[d]?) = l := by
  induction l with
  | nil => rfl
  | cons x l ih =>
    rw [List.length_cons, List.range_succ_eq_map, List.filterMap_cons, List.filterMap_map]
    exact congrArg (x :: ·) ih

include htext hne hahead in
theorem applyMarks_eq : applyMarks text a aa (resultsOf v text a aa A_ahead AA_ahead) =
    bytes (compose a aa 0 text) := by
  have hcompose := (composeFrom_eq (k := 0) hne text).1 rfl
  rw [← flatMap_composed] at hcompose
  rw [applyMarks, bytes, ← hcompose, List.flatMap_assoc]
  refine List.flatMap_congr fun n hn ↦ ?_
  have hlt := List.mem_range.1 hn
  obtain ⟨c, hc⟩ : ∃ c, text[n]? = some c := ⟨_, List.getElem?_eq_getElem hlt⟩
  have hvalue : text.getD n 0 = c := by rw [List.getD_eq_getElem?_getD, hc, Option.getD_some]
  have hfirst := results_apply (v := v) htext hne hahead hc (width_pos c)
  have heach (d : ℕ) (hd : d ∈ List.range (utf8 c).length) :=
    (results_apply (v := v) htext hne hahead hc (length_utf8 c ▸ List.mem_range.1 hd)).2.2
  have hbytes (deleted : Bool) (h : ∀ d ∈ List.range (utf8 c).length,
      (resultsOf v text a aa A_ahead AA_ahead).A_or_AA_to_delete (start utf8 text n + d) =
        deleted) :
      ((List.range (utf8 c).length).filterMap fun d ↦
        if (resultsOf v text a aa A_ahead AA_ahead).A_or_AA_to_delete (start utf8 text n + d)
          then none else (utf8 c)[d]?) = if deleted then [] else utf8 c := by
    cases deleted with
    | true =>
      rw [if_pos rfl, List.filterMap_eq_nil_iff]
      intro d hd
      rw [h d hd, if_pos rfl]
    | false =>
      rw [if_neg Bool.false_ne_true]
      refine (List.filterMap_congr fun d hd ↦ ?_).trans (filterMap_getElem? (utf8 c))
      rw [h d hd, if_neg Bool.false_ne_true]
  simp only [Nat.add_zero, true_and] at hfirst
  obtain ⟨k, hk⟩ : ∃ k, k = spanCount a aa 0 text n := ⟨_, rfl⟩
  obtain ⟨next, hnext⟩ : ∃ next, next = text[n + 1]? := ⟨_, rfl⟩
  rw [← hk, ← hnext] at hfirst
  simp only [← hk, ← hnext] at heach
  simp only [hvalue, hfirst.1, hfirst.2.1, hbytes _ heach]
  rw [← hk, ← hnext, composed, openEnd]
  have hsome : (some a : Option ℕ) ≠ some aa := fun h ↦ hne (Option.some_inj.1 h)
  rcases Nat.mod_two_eq_zero_or_one k with heven | hodd
  · by_cases hA : c = a
    · subst hA
      by_cases hnextA : next = some c
      · simp [heven, hnextA, hne]
      · by_cases hnextAA : next = some aa <;> simp [heven, hnextA, hnextAA, hne, hne.symm]
    · by_cases hAA : c = aa <;> simp [heven, hA, hAA, hne.symm]
  · by_cases hA : c = a
    · simp [hodd, hA]
    · by_cases hAA : c = aa
      · subst hAA
        by_cases hnextA : next = some a
        · simp [hodd, hnextA, hne, hne.symm]
        · by_cases hnextAA : next = some c <;> simp [hodd, hnextA, hnextAA, hne.symm]
      · simp [hodd, hA, hAA]

/-- Applied to the bytes of any text, the marks turn each maximal span of `n` As and `m` AAs into
the AAs and As of the weight `n + 2 * m`. Other characters have no marks, and a deleted character
is deleted as a whole. -/
theorem selfComposableLogic_exact (v : Vectors) (text : List ℕ) {a aa : ℕ}
    (A_ahead AA_ahead : Stream) (htext : ∀ cp ∈ text, cp < 0x110000) (hne : a ≠ aa)
    (hahead : Ahead text a aa A_ahead AA_ahead) :
    let results := resultsOf v text a aa A_ahead AA_ahead
    applyMarks text a aa results = bytes (compose a aa 0 text) ∧
    (∀ pre span post, text = pre ++ (span ++ post) → (∀ c ∈ span, c = a ∨ c = aa) →
      (∀ c ∈ pre.getLast?, c ≠ a ∧ c ≠ aa) → (∀ c ∈ post.head?, c ≠ a ∧ c ≠ aa) →
        applyMarks text a aa results = bytes (compose a aa 0 pre ++
          (composedSpan a aa (span.count a + 2 * span.count aa) ++ compose a aa 0 post))) ∧
    ∀ n c d, text[n]? = some c → d < width c →
      (c ≠ a → c ≠ aa → results.A_to_convert_to_AA (start utf8 text n + d) = false ∧
        results.AA_to_convert_to_A (start utf8 text n + d) = false ∧
          results.A_or_AA_to_delete (start utf8 text n + d) = false) ∧
      (0 < d → results.A_to_convert_to_AA (start utf8 text n + d) = false ∧
        results.AA_to_convert_to_A (start utf8 text n + d) = false) ∧
      results.A_or_AA_to_delete (start utf8 text n + d) =
        results.A_or_AA_to_delete (start utf8 text n) ∧
      ((results.A_to_convert_to_AA (start utf8 text n) ||
          results.AA_to_convert_to_A (start utf8 text n)) = true →
        results.A_or_AA_to_delete (start utf8 text n + d) = false) := by
  intro results
  have happly := applyMarks_eq (v := v) htext hne hahead
  refine ⟨happly, fun pre span post hsplit hspan hpre hpost ↦ ?_, fun n c d hc hd ↦ ?_⟩
  · rw [← compose_span hspan hne hpre hpost, ← hsplit]
    exact happly
  · obtain ⟨hAA, hA, hdelete⟩ := results_apply (v := v) htext hne hahead hc hd
    obtain ⟨hAA', hA', hdelete'⟩ := results_apply (v := v) htext hne hahead hc (width_pos c)
    rw [Nat.add_zero] at hAA' hA' hdelete'
    refine ⟨fun hca hcaa ↦ ?_, fun hpos ↦ ?_, hdelete.trans hdelete'.symm, fun hconverted ↦ ?_⟩
    · exact ⟨hAA.trans (decide_eq_false fun h ↦ hca h.2.1),
        hA.trans (decide_eq_false fun h ↦ hcaa h.2.1),
        hdelete.trans (decide_eq_false fun h ↦ h.2.elim (fun h ↦ hca h.1) fun h ↦ hcaa h.1)⟩
    · exact ⟨hAA.trans (decide_eq_false fun h ↦ hpos.ne' h.1),
        hA.trans (decide_eq_false fun h ↦ hpos.ne' h.1)⟩
    · refine hdelete.trans (decide_eq_false ?_)
      rintro ⟨hnext, hcase⟩
      have hsome : text[n + 1]? ≠ some aa := fun h ↦ hne (Option.some_inj.1 (hnext.symm.trans h))
      rcases Bool.or_eq_true_iff.1 hconverted with h | h
      · obtain ⟨-, hca, hk⟩ := of_decide_eq_true (hAA'.symm.trans h)
        have hodd := hk.resolve_right hsome
        rcases hcase with ⟨-, heven⟩ | ⟨hcaa, -⟩
        · omega
        · exact hne (hca.symm.trans hcaa)
      · obtain ⟨-, -, -, -, hnone⟩ := of_decide_eq_true (hA'.symm.trans h)
        exact hnone hnext

theorem selfComposableLogic_exact_pair :
    let text := [0x1611E, 0x16121]
    let results := resultsOf ⟨5, 2, by decide⟩ text 0x1611E 0x16121
      (fun p ↦ charMarks text 0x1611E (p + 4)) fun p ↦ charMarks text 0x16121 (p + 4)
    applyMarks text 0x1611E 0x16121 results = bytes [0x16121, 0x1611E] := by
  refine (selfComposableLogic_exact ⟨5, 2, by decide⟩ [0x1611E, 0x16121] _ _ (by decide)
    (by decide) ⟨fun n c hc _ ↦ ?_, fun n c hc _ ↦ ?_⟩).1
  all_goals
    rcases n with _ | _ | n
    · rfl
    · rfl
    · cases hc

end Results

end Parabix.Unicode
