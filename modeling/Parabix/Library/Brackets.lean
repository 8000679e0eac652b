import Mathlib.Data.Set.Card
import Parabix.Library.Spread

/-!
Texts with left and right brackets, and the text that is left of one when its innermost pairs are
taken out: a left bracket then stands for the one before it.
-/

namespace Parabix.Library

open BitStream

structure Brackets where
  left : Stream
  right : Stream
  disjoint (p : ℕ) : left p = true → right p = false

namespace Brackets

variable (t : Brackets)

/-- The left brackets before a position that have not been closed. -/
def depth : ℕ → ℕ
  | 0 => 0
  | p + 1 => if t.left p then depth p + 1 else if t.right p then depth p - 1 else depth p

def deepest : ℕ → ℕ
  | 0 => 0
  | p + 1 => max (deepest p) (t.depth (p + 1))

/-- The last bracket before a position is a left one. -/
def afterLeft : Stream
  | 0 => false
  | p + 1 => t.left p || !t.right p && afterLeft p

/-- The left brackets after left brackets, and the right brackets after right ones. -/
def reduce : Brackets where
  left p := t.left p && t.afterLeft p
  right p := t.right p && !t.afterLeft p
  disjoint p h := by
    rw [Bool.and_eq_true] at h
    rw [h.2, Bool.not_true, Bool.and_false]

/-- The text after a number of rounds. -/
def reduced : ℕ → Brackets
  | 0 => t
  | i + 1 => (reduced i).reduce

/-- A left bracket and the right one that closes it. -/
structure Matches (l r : ℕ) : Prop where
  left : t.left l = true
  right : t.right r = true
  lt : l < r
  inside (q : ℕ) (hl : l < q) (hr : q ≤ r) : t.depth l < t.depth q
  closed : t.depth (r + 1) = t.depth l

/-- A left bracket that is not closed before a position. -/
structure OpenAt (l p : ℕ) : Prop where
  left : t.left l = true
  lt : l < p
  inside (q : ℕ) (hl : l < q) (hr : q ≤ p) : t.depth l < t.depth q

variable {t} {i l l' p q r n M : ℕ}

section Depth

theorem depth_succ (t : Brackets) (p : ℕ) : t.depth (p + 1) =
    if t.left p then t.depth p + 1 else if t.right p then t.depth p - 1 else t.depth p :=
  rfl

theorem deepest_succ (t : Brackets) (p : ℕ) :
    t.deepest (p + 1) = max (t.deepest p) (t.depth (p + 1)) :=
  rfl

theorem afterLeft_succ (t : Brackets) (p : ℕ) :
    t.afterLeft (p + 1) = (t.left p || !t.right p && t.afterLeft p) :=
  rfl

theorem depth_left (h : t.left p = true) : t.depth (p + 1) = t.depth p + 1 := by
  rw [depth_succ, if_pos h]

theorem depth_right (h : t.right p = true) : t.depth (p + 1) = t.depth p - 1 := by
  have hleft : ¬t.left p = true := fun hl ↦ by
    rw [t.disjoint p hl] at h
    cases h
  rw [depth_succ, if_neg hleft, if_pos h]

theorem depth_other (hl : t.left p = false) (hr : t.right p = false) :
    t.depth (p + 1) = t.depth p := by
  rw [depth_succ, if_neg (by simp [hl]), if_neg (by simp [hr])]

theorem le_depth_succ (t : Brackets) (p : ℕ) : t.depth p ≤ t.depth (p + 1) + 1 := by
  rw [depth_succ]
  split_ifs <;> omega

theorem depth_pos_of_afterLeft (h : t.afterLeft p = true) : 0 < t.depth p := by
  induction p with
  | zero => cases h
  | succ p ih =>
    rw [afterLeft_succ] at h
    cases hl : t.left p with
    | true =>
      rw [depth_left hl]
      exact Nat.succ_pos _
    | false =>
      rw [hl, Bool.false_or, Bool.and_eq_true, Bool.not_eq_true'] at h
      rw [depth_other hl h.1]
      exact ih h.2

theorem depth_le_deepest (t : Brackets) (p : ℕ) : t.depth p ≤ t.deepest p := by
  cases p with
  | zero => exact le_rfl
  | succ p => exact le_max_right _ _

theorem deepest_mono (t : Brackets) : Monotone t.deepest :=
  monotone_nat_of_le_succ fun _ ↦ le_max_left _ _

/-- After a right bracket, or before any bracket, the text has been deeper or has no depth. -/
theorem depth_lt_deepest (h : t.afterLeft p = false) :
    t.depth p < t.deepest p ∨ t.depth p = 0 := by
  induction p with
  | zero => exact .inr rfl
  | succ p ih =>
    rw [afterLeft_succ, Bool.or_eq_false_iff] at h
    have hle := t.depth_le_deepest p
    rw [deepest_succ]
    cases hr : t.right p with
    | true =>
      rw [depth_right hr]
      omega
    | false =>
      rw [hr, Bool.not_false, Bool.true_and] at h
      rw [depth_other h.1 hr]
      have := ih h.2
      omega

end Depth

theorem afterLeft_iff : t.afterLeft p = true ↔
    ∃ q < p, t.left q = true ∧ ∀ j, q < j → j < p → t.left j = false ∧ t.right j = false := by
  induction p with
  | zero => simp [afterLeft]
  | succ p ih =>
    rw [afterLeft_succ, Bool.or_eq_true, Bool.and_eq_true, Bool.not_eq_true', ih]
    constructor
    · rintro (hl | ⟨hr, q, hq, hl, hquiet⟩)
      · exact ⟨p, Nat.lt_succ_self p, hl, fun j h1 h2 ↦ by omega⟩
      · by_cases hp : t.left p = true
        · exact ⟨p, Nat.lt_succ_self p, hp, fun j h1 h2 ↦ by omega⟩
        · refine ⟨q, Nat.lt_succ_of_lt hq, hl, fun j h1 h2 ↦ ?_⟩
          rcases Nat.lt_succ_iff_lt_or_eq.1 h2 with hlt | rfl
          · exact hquiet j h1 hlt
          · exact ⟨Bool.not_eq_true _ ▸ hp, hr⟩
    · rintro ⟨q, hq, hl, hquiet⟩
      rcases Nat.lt_succ_iff_lt_or_eq.1 hq with hlt | rfl
      · exact .inr ⟨(hquiet p hlt (Nat.lt_succ_self p)).2, q, hlt, hl,
          fun j h1 h2 ↦ hquiet j h1 (Nat.lt_succ_of_lt h2)⟩
      · exact .inl hl

section Reduce

@[simp] theorem left_reduce (t : Brackets) (p : ℕ) :
    t.reduce.left p = (t.left p && t.afterLeft p) := rfl

@[simp] theorem right_reduce (t : Brackets) (p : ℕ) :
    t.reduce.right p = (t.right p && !t.afterLeft p) := rfl

theorem depth_reduce (t : Brackets) (p : ℕ) :
    t.reduce.depth p + (t.afterLeft p).toNat = t.depth p := by
  induction p with
  | zero => rfl
  | succ p ih =>
    have hpos := @depth_pos_of_afterLeft t p
    rw [depth_succ, depth_succ, afterLeft_succ, left_reduce, right_reduce]
    cases hl : t.left p with
    | true =>
      rw [t.disjoint p hl]
      cases ha : t.afterLeft p <;> simp [ha] at ih ⊢ <;> omega
    | false =>
      cases hr : t.right p <;> cases ha : t.afterLeft p <;> simp [ha] at ih hpos ⊢ <;> omega

theorem deepest_reduce (t : Brackets) (p : ℕ) : t.reduce.deepest p = t.deepest p - 1 := by
  induction p with
  | zero => rfl
  | succ p ih =>
    have hdepth := t.depth_reduce p
    have hsucc := t.depth_reduce (p + 1)
    have hle := t.depth_le_deepest p
    rw [deepest_succ, deepest_succ, ih]
    rw [afterLeft_succ] at hsucc
    cases hl : t.left p with
    | true =>
      rw [hl, Bool.true_or, Bool.toNat_true, depth_left hl] at hsucc
      rw [depth_left hl]
      cases ha : t.afterLeft p with
      | true =>
        have := depth_pos_of_afterLeft ha
        omega
      | false =>
        have := depth_lt_deepest ha
        omega
    | false =>
      have hdeep : t.depth (p + 1) ≤ t.depth p := by
        rw [depth_succ, if_neg (by simp [hl])]
        split_ifs <;> omega
      have hdeep' : t.reduce.depth (p + 1) ≤ t.reduce.depth p := by
        rw [depth_succ, if_neg (by simp [hl])]
        split_ifs <;> omega
      have hreduced := t.reduce.depth_le_deepest p
      rw [ih] at hreduced
      omega

theorem deepest_reduced (t : Brackets) (i p : ℕ) : (t.reduced i).deepest p = t.deepest p - i := by
  induction i with
  | zero => rfl
  | succ i ih => rw [reduced, deepest_reduce, ih, Nat.sub_sub]

/-- Every round in which the last bracket is a left one takes out one that is open. -/
theorem depth_reduced (t : Brackets) (M p : ℕ) : (t.reduced M).depth p +
    (List.range M).countP (fun i ↦ (t.reduced i).afterLeft p) = t.depth p := by
  induction M with
  | zero => rfl
  | succ M ih =>
    have hstep := (t.reduced M).depth_reduce p
    rw [List.range_succ, List.countP_append, reduced]
    cases ha : (t.reduced M).afterLeft p <;> simp [ha] at hstep ⊢ <;> omega

theorem left_reduced (t : Brackets) (M p : ℕ) : (t.reduced M).left p = true ↔
    t.left p = true ∧ ∀ i < M, (t.reduced i).afterLeft p = true := by
  induction M with
  | zero => simp [reduced]
  | succ M ih =>
    rw [reduced, left_reduce, Bool.and_eq_true, ih, Nat.forall_lt_succ_right, and_assoc]

theorem right_reduced (t : Brackets) (M p : ℕ) : (t.reduced M).right p = true ↔
    t.right p = true ∧ ∀ i < M, (t.reduced i).afterLeft p = false := by
  induction M with
  | zero => simp [reduced]
  | succ M ih =>
    rw [reduced, right_reduce, Bool.and_eq_true, ih, Nat.forall_lt_succ_right, and_assoc,
      Bool.not_eq_true']

/-- Without left brackets nothing changes any more. -/
theorem reduced_idle (h : ∀ p, (t.reduced i).left p = false) (k p : ℕ) :
    (t.reduced (i + k)).left p = false ∧ (t.reduced (i + k)).afterLeft p = false ∧
      (t.reduced (i + k)).right p = (t.reduced i).right p := by
  have hafter {s : Brackets} (hs : ∀ p, s.left p = false) (p : ℕ) : s.afterLeft p = false := by
    induction p with
    | zero => rfl
    | succ p ih => rw [afterLeft, hs, ih, Bool.and_false, Bool.or_false]
  induction k generalizing p with
  | zero => exact ⟨h p, hafter h p, rfl⟩
  | succ k ih =>
    have hleft (p : ℕ) : (t.reduced (i + (k + 1))).left p = false := by
      rw [← Nat.add_assoc, reduced, left_reduce, (ih p).1, Bool.false_and]
    refine ⟨hleft p, hafter hleft p, ?_⟩
    rw [← Nat.add_assoc, reduced, right_reduce, (ih p).2.1, (ih p).2.2, Bool.not_false,
      Bool.and_true]

/-- A position is also counted in the round that takes its own left bracket out. -/
theorem count_reduced (t : Brackets) (M p : ℕ) :
    (List.range M).countP (fun i ↦ (t.reduced i).left p || (t.reduced i).afterLeft p) =
      (List.range M).countP (fun i ↦ (t.reduced i).afterLeft p) +
        (t.left p && !(t.reduced M).left p).toNat := by
  induction M with
  | zero => cases h : t.left p <;> simp [reduced, h]
  | succ M ih =>
    rw [List.range_succ, List.countP_append, List.countP_append, ih]
    have hleft := (t.left_reduced M p).1
    simp only [List.countP_singleton, reduced, left_reduce]
    cases hl : (t.reduced M).left p with
    | true =>
      rw [(hleft hl).1]
      cases (t.reduced M).afterLeft p <;> simp
    | false => cases (t.reduced M).afterLeft p <;> simp [Nat.add_right_comm]

end Reduce

section Open

theorem OpenAt.succ (h : t.OpenAt l p) (hlt : t.depth l < t.depth (p + 1)) :
    t.OpenAt l (p + 1) := by
  refine ⟨h.left, Nat.lt_succ_of_lt h.lt, fun q hl hq ↦ ?_⟩
  rcases hq.lt_or_eq with hq | rfl
  · exact h.inside q hl (Nat.le_of_lt_succ hq)
  · exact hlt

theorem openAt_succ_self (h : t.left l = true) : t.OpenAt l (l + 1) := by
  refine ⟨h, Nat.lt_succ_self l, fun q hl hq ↦ ?_⟩
  rw [show q = l + 1 by omega, depth_left h]
  exact Nat.lt_succ_self _

theorem OpenAt.depth_lt (h : t.OpenAt l p) : t.depth l < t.depth p := h.inside p h.lt le_rfl

/-- There is an open bracket at every level. -/
theorem exists_openAt {d : ℕ} (h : d < t.depth p) : ∃ l, t.OpenAt l p ∧ t.depth l = d := by
  induction p with
  | zero => cases h
  | succ p ih =>
    by_cases hd : d < t.depth p
    · obtain ⟨l, hl, rfl⟩ := ih hd
      exact ⟨l, hl.succ h, rfl⟩
    · cases hl : t.left p with
      | true =>
        rw [depth_left hl] at h
        exact ⟨p, openAt_succ_self hl, by omega⟩
      | false =>
        have hle : t.depth (p + 1) ≤ t.depth p := by
          rw [depth_succ, if_neg (by simp [hl])]
          split_ifs <;> omega
        omega

/-- An open bracket stays open, or it is closed. -/
theorem OpenAt.add (h : t.OpenAt l p) (k : ℕ) :
    t.OpenAt l (p + k) ∨ ∃ r, p ≤ r ∧ r < p + k ∧ t.Matches l r := by
  induction k with
  | zero => exact .inl h
  | succ k ih =>
    rcases ih with hopen | ⟨r, hr, hlt, hm⟩
    · by_cases hlt : t.depth l < t.depth (p + k + 1)
      · exact .inl (hopen.succ hlt)
      · have hin := hopen.depth_lt
        have hle := t.le_depth_succ (p + k)
        have hright : t.right (p + k) = true := by
          by_contra hr
          rw [Bool.not_eq_true] at hr
          cases hl : t.left (p + k) with
          | true =>
            rw [depth_left hl] at hlt
            omega
          | false =>
            rw [depth_other hl hr] at hlt
            exact hlt hin
        exact .inr ⟨p + k, Nat.le_add_right _ _, Nat.lt_succ_self _, hopen.left, hright, hopen.lt,
          hopen.inside, by omega⟩
    · exact .inr ⟨r, hr, Nat.lt_succ_of_lt hlt, hm⟩

theorem Matches.unique (h : t.Matches l r) {r' : ℕ} (h' : t.Matches l r') : r = r' := by
  have hle {r r' : ℕ} (h : t.Matches l r) (h' : t.Matches l r') : r ≤ r' := by
    by_contra hlt
    have hin := h.inside (r' + 1) (by have := h'.lt; omega) (by omega)
    rw [h'.closed] at hin
    exact lt_irrefl _ hin
  exact Nat.le_antisymm (hle h h') (hle h' h)

theorem not_closed_iff (hl : t.left l = true) (hn : l < n) :
    (∀ r < n, ¬t.Matches l r) ↔ t.OpenAt l n := by
  obtain ⟨k, rfl⟩ := Nat.exists_eq_add_of_le (Nat.succ_le_of_lt hn)
  constructor
  · intro h
    rcases (openAt_succ_self hl).add k with hopen | ⟨r, -, hr, hm⟩
    · exact hopen
    · exact absurd hm (h r hr)
  · intro h r hr hm
    have hin := h.inside (r + 1) (Nat.lt_succ_of_lt hm.lt) hr
    rw [hm.closed] at hin
    exact lt_irrefl _ hin

theorem unmatched_iff (hr : t.right r = true) : (∀ l, ¬t.Matches l r) ↔ t.depth r = 0 := by
  constructor
  · intro h
    by_contra hpos
    obtain ⟨l, hopen, hd⟩ := exists_openAt (show t.depth r - 1 < t.depth r by omega)
    exact h l ⟨hopen.left, hr, hopen.lt, hopen.inside, by rw [depth_right hr, hd]⟩
  · intro h l hm
    have hin := hm.inside r hm.lt le_rfl
    omega

theorem lt_deepest_iff {m : ℕ} : m < t.deepest n ↔ ∃ l < n, t.left l = true ∧ m ≤ t.depth l := by
  induction n with
  | zero => simp [deepest]
  | succ n ih =>
    rw [deepest_succ, lt_max_iff, ih]
    constructor
    · rintro (⟨l, hl, h⟩ | hlt)
      · exact ⟨l, Nat.lt_succ_of_lt hl, h⟩
      · cases hleft : t.left n with
        | true =>
          rw [depth_left hleft] at hlt
          exact ⟨n, Nat.lt_succ_self n, hleft, by omega⟩
        | false =>
          have hle : t.depth (n + 1) ≤ t.depth n := by
            rw [depth_succ, if_neg (by simp [hleft])]
            split_ifs <;> omega
          obtain ⟨l, hl, h⟩ := ih.1 ((hlt.trans_le hle).trans_le (t.depth_le_deepest n))
          exact ⟨l, Nat.lt_succ_of_lt hl, h⟩
    · rintro ⟨l, hl, hleft, hle⟩
      rcases (Nat.lt_succ_iff_lt_or_eq.1 hl) with hlt | rfl
      · exact .inl ⟨l, hlt, hleft, hle⟩
      · rw [depth_left hleft]
        exact .inr (Nat.lt_succ_of_le hle)

end Open

section Pairs

/-- The pairs of brackets around a position. -/
def around (t : Brackets) (p : ℕ) : Set (ℕ × ℕ) :=
  {lr | t.Matches lr.1 lr.2 ∧ lr.1 ≤ p ∧ p ≤ lr.2}

/-- Where every left bracket is closed, the depth is the number of pairs around a position. -/
theorem ncard_around (hn : t.depth n = 0) (hp : p < n) :
    (t.around p).ncard = t.depth p + (t.left p).toNat := by
  have hinj : Set.InjOn (fun lr : ℕ × ℕ ↦ t.depth lr.1) (t.around p) := by
    have hle {a b : ℕ × ℕ} (ha : a ∈ t.around p) (hb : b ∈ t.around p)
        (h : t.depth a.1 = t.depth b.1) : b.1 ≤ a.1 := by
      by_contra hlt
      have hin := ha.1.inside b.1 (Nat.lt_of_not_le hlt) (hb.2.1.trans ha.2.2)
      omega
    intro a ha b hb h
    have hfst := Nat.le_antisymm (hle hb ha h.symm) (hle ha hb h)
    have hm := hb.1
    rw [← hfst] at hm
    exact Prod.ext hfst (ha.1.unique hm)
  have himage : (fun lr : ℕ × ℕ ↦ t.depth lr.1) '' t.around p =
      (Finset.range (t.depth p + (t.left p).toNat) : Set ℕ) := by
    ext d
    rw [Finset.coe_range, Set.mem_Iio, Set.mem_image]
    constructor
    · rintro ⟨lr, ⟨hm, hl, hr⟩, rfl⟩
      rcases hl.lt_or_eq with hlt | heq
      · exact (hm.inside p hlt hr).trans_le (Nat.le_add_right _ _)
      · have hleft := hm.left
        rw [heq] at hleft ⊢
        rw [hleft]
        exact Nat.lt_succ_self _
    · intro hd
      have hclosed {k : ℕ} (hk : k ≤ n) (hpk : p ≤ k) {l : ℕ} (hl : l ≤ p) (h : t.OpenAt l k) :
          ∃ lr ∈ t.around p, t.depth lr.1 = t.depth l := by
        obtain ⟨j, rfl⟩ := Nat.exists_eq_add_of_le hk
        rcases h.add j with hopen | ⟨r, hr, -, hm⟩
        · have := hopen.depth_lt
          omega
        · exact ⟨(l, r), ⟨hm, hl, hpk.trans hr⟩, rfl⟩
      by_cases hlt : d < t.depth p
      · obtain ⟨l, hopen, rfl⟩ := exists_openAt hlt
        exact hclosed hp.le le_rfl hopen.lt.le hopen
      · cases hleft : t.left p with
        | true =>
          rw [hleft, Bool.toNat_true] at hd
          obtain rfl : d = t.depth p := by omega
          exact hclosed hp (Nat.le_succ p) le_rfl (openAt_succ_self hleft)
        | false =>
          rw [hleft] at hd
          exact absurd hd hlt
  rw [← hinj.ncard_image, himage, Set.ncard_coe_finset, Finset.card_range]

end Pairs

section Innermost

theorem reduced_succ (t : Brackets) (i : ℕ) : t.reduced (i + 1) = t.reduce.reduced i := by
  induction i with
  | zero => rfl
  | succ i ih => rw [reduced, ih, reduced]

theorem exists_of_afterLeft (h : t.afterLeft p = true) :
    ∃ l < p, t.left l = true ∧ ∀ q, l < q → q ≤ p → t.depth q = t.depth l + 1 := by
  induction p with
  | zero => cases h
  | succ p ih =>
    rw [afterLeft_succ] at h
    cases hl : t.left p with
    | true =>
      refine ⟨p, Nat.lt_succ_self p, hl, fun q hp hq ↦ ?_⟩
      rw [show q = p + 1 by omega, depth_left hl]
    | false =>
      rw [hl, Bool.false_or, Bool.and_eq_true, Bool.not_eq_true'] at h
      obtain ⟨l, hlp, hleft, hdepth⟩ := ih h.2
      refine ⟨l, Nat.lt_succ_of_lt hlp, hleft, fun q hlq hq ↦ ?_⟩
      rcases hq.lt_or_eq with hq | rfl
      · exact hdepth q hlq (Nat.le_of_lt_succ hq)
      · rw [depth_other hl h.1]
        exact hdepth p hlp le_rfl

/-- The last bracket after a left one is a right one. -/
theorem exists_of_not_afterLeft (h : t.afterLeft p = false) (hl : t.left l = true) (hp : l < p) :
    ∃ r, l < r ∧ r < p ∧ t.right r = true ∧ t.depth p = t.depth (r + 1) := by
  induction p with
  | zero => cases hp
  | succ p ih =>
    rw [afterLeft_succ, Bool.or_eq_false_iff] at h
    have hlp : l < p := by
      rcases (Nat.lt_succ_iff_lt_or_eq.1 hp) with hlt | rfl
      · exact hlt
      · rw [hl] at h
        cases h.1
    cases hr : t.right p with
    | true => exact ⟨p, hlp, Nat.lt_succ_self p, hr, rfl⟩
    | false =>
      rw [hr, Bool.not_false, Bool.true_and] at h
      obtain ⟨r, hlr, hrp, hright, hdepth⟩ := ih h.2 hlp
      exact ⟨r, hlr, Nat.lt_succ_of_lt hrp, hright, by rw [depth_other h.1 hr, hdepth]⟩

/-- The first bracket after an open left one, unless the left one is the last bracket. -/
theorem exists_next (h : t.afterLeft p = false) (hl : t.left l = true) (hp : l < p) :
    ∃ b, l < b ∧ b < p ∧ (t.left b = true ∨ t.right b = true) ∧ t.afterLeft b = true ∧
      t.depth b = t.depth l + 1 := by
  obtain ⟨r, hlr, hrp, hright, -⟩ := exists_of_not_afterLeft h hl hp
  have hex : ∃ b, l < b ∧ (t.left b = true ∨ t.right b = true) := ⟨r, hlr, .inr hright⟩
  classical
  obtain ⟨hlb, hb⟩ := Nat.find_spec hex
  have hle : Nat.find hex ≤ r := Nat.find_min' hex ⟨hlr, .inr hright⟩
  have hquiet (q : ℕ) (hlq : l < q) (hq : q < Nat.find hex) :
      t.left q = false ∧ t.right q = false := by
    have hmin := Nat.find_min hex hq
    rw [not_and, not_or, Bool.not_eq_true, Bool.not_eq_true] at hmin
    exact hmin hlq
  have hafter (k : ℕ) (hk : l + 1 + k ≤ Nat.find hex) :
      t.afterLeft (l + 1 + k) = true ∧ t.depth (l + 1 + k) = t.depth l + 1 := by
    induction k with
    | zero =>
      rw [Nat.add_zero, afterLeft, hl, Bool.true_or, depth_left hl]
      exact ⟨rfl, rfl⟩
    | succ k ih =>
      obtain ⟨hleft, hright⟩ := hquiet (l + 1 + k) (by omega) (by omega)
      obtain ⟨ha, hd⟩ := ih (by omega)
      rw [← Nat.add_assoc, afterLeft, hleft, hright, ha, depth_other hleft hright, hd]
      exact ⟨rfl, rfl⟩
  obtain ⟨k, hk⟩ := Nat.exists_eq_add_of_le (Nat.succ_le_of_lt hlb)
  have hlast := hafter k (by omega)
  rw [← Nat.succ_eq_add_one, ← hk] at hlast
  exact ⟨Nat.find hex, hlb, hle.trans_lt hrp, hb, hlast.1, hlast.2⟩

/-- The last bracket is a left one in one of the first rounds iff an open bracket has fewer levels
in it. -/
theorem afterLeft_reduced_iff (t : Brackets) (M n : ℕ) :
    (∃ i < M, (t.reduced i).afterLeft n = true) ↔
      ∃ l, t.OpenAt l n ∧ ∀ q, l < q → q ≤ n → t.depth q ≤ t.depth l + M := by
  induction M generalizing t with
  | zero =>
    constructor
    · rintro ⟨i, hi, -⟩
      exact absurd hi (Nat.not_lt_zero i)
    · rintro ⟨l, hopen, hle⟩
      exact absurd hopen.depth_lt (Nat.not_lt.2 (hle n hopen.lt le_rfl))
  | succ M ih =>
    have hsplit : (∃ i < M + 1, (t.reduced i).afterLeft n = true) ↔
        t.afterLeft n = true ∨ ∃ i < M, (t.reduce.reduced i).afterLeft n = true := by
      constructor
      · rintro ⟨i, hi, h⟩
        cases i with
        | zero => exact .inl h
        | succ i => exact .inr ⟨i, Nat.lt_of_succ_lt_succ hi, by rwa [← reduced_succ]⟩
      · rintro (h | ⟨i, hi, h⟩)
        · exact ⟨0, Nat.succ_pos M, h⟩
        · exact ⟨i + 1, Nat.succ_lt_succ hi, by rwa [reduced_succ]⟩
    rw [hsplit, ih]
    constructor
    · rintro (h | ⟨b, hopen, hle⟩)
      · obtain ⟨l, hl, hleft, hdepth⟩ := exists_of_afterLeft h
        refine ⟨l, ⟨hleft, hl, fun q hlq hq ↦ ?_⟩, fun q hlq hq ↦ ?_⟩
        · rw [hdepth q hlq hq]
          exact Nat.lt_succ_self _
        · rw [hdepth q hlq hq]
          omega
      · have hb := hopen.left
        rw [left_reduce, Bool.and_eq_true] at hb
        obtain ⟨l, hl, hleft, hdepth⟩ := exists_of_afterLeft hb.2
        have hreduce := t.depth_reduce b
        rw [hb.2, Bool.toNat_true, hdepth b hl le_rfl] at hreduce
        have hlt := hopen.lt
        refine ⟨l, ⟨hleft, hl.trans hlt, fun q hlq hq ↦ ?_⟩, fun q hlq hq ↦ ?_⟩
        · by_cases hqb : q ≤ b
          · rw [hdepth q hlq hqb]
            exact Nat.lt_succ_self _
          · have hin := hopen.inside q (Nat.lt_of_not_le hqb) hq
            have := t.depth_reduce q
            omega
        · by_cases hqb : q ≤ b
          · rw [hdepth q hlq hqb]
            omega
          · have hin := hle q (Nat.lt_of_not_le hqb) hq
            have := t.depth_reduce q
            have := Bool.toNat_lt (t.afterLeft q)
            omega
    · rintro ⟨l, hopen, hle⟩
      cases hlast : t.afterLeft n with
      | true => exact .inl rfl
      | false =>
        right
        obtain ⟨b, hlb, hbn, hb, hafter, hdepth⟩ := exists_next hlast hopen.left hopen.lt
        have hleft : t.left b = true := by
          rcases hb with hb | hb
          · exact hb
          · have hin := hopen.inside (b + 1) (by omega) (by omega)
            rw [depth_right hb] at hin
            omega
        have hreduce := t.depth_reduce b
        rw [hafter, Bool.toNat_true] at hreduce
        refine ⟨b, ⟨by rw [left_reduce, hleft, hafter]; rfl, hbn, fun q hbq hq ↦ ?_⟩,
          fun q hbq hq ↦ ?_⟩
        · have hq' := t.depth_reduce q
          have hin := hopen.inside q (hlb.trans hbq) hq
          cases ha : t.afterLeft q with
          | false =>
            rw [ha, Bool.toNat_false] at hq'
            omega
          | true =>
            -- The left bracket that is taken out is open inside the other one.
            obtain ⟨x, hx, hxleft, hxdepth⟩ := exists_of_afterLeft ha
            have hbx : b ≤ x := by
              by_contra hlt
              have hb' := hxdepth (b + 1) (by omega) hbq
              have hb'' := hxdepth b (by omega) hbq.le
              rw [depth_left hleft] at hb'
              omega
            have hin' := hopen.inside x (by omega) (by omega)
            have hxq := hxdepth q hx le_rfl
            rw [ha, Bool.toNat_true] at hq'
            omega
        · have hq' := t.depth_reduce q
          have hbound := hle q (hlb.trans hbq) hq
          cases ha : t.afterLeft q with
          | true =>
            rw [ha, Bool.toNat_true] at hq'
            omega
          | false =>
            obtain ⟨y, hby, hyq, hright, hydepth⟩ := exists_of_not_afterLeft ha hleft hbq
            have hbound' := hle y (by omega) (by omega)
            have hin := hopen.inside y (by omega) (by omega)
            rw [depth_right hright] at hydepth
            rw [ha, Bool.toNat_false] at hq'
            omega

end Innermost

end Brackets

end Parabix.Library
