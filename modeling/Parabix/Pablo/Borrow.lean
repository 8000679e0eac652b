import Mathlib.Algebra.Order.Ring.Nat
import Parabix.Library.BitStream
import Parabix.Library.Fault

namespace Parabix.Pablo

open Library.BitStream

variable {w : ℕ}

/-- Full subtraction of blocks: the borrow out and the difference. -/
def bitblock_subtract_with_borrow (a b borrowIn : BitVec w) : BitVec w × BitVec w :=
  let difference := a - b - borrowIn
  (difference >>> (w - 1), difference)

/-- The blocks of two streams, one after the other; the borrow out of a block is the
borrow into the next. -/
def subtractBlocks : List (BitVec w × BitVec w) → BitVec w → List (BitVec w × BitVec w)
  | [], _ => []
  | (a, b) :: es, borrowIn =>
    let result := bitblock_subtract_with_borrow a b borrowIn
    result :: subtractBlocks es result.1

/-- The number that a sequence of blocks spells, the lowest block first. -/
def number : List (BitVec w) → ℕ
  | [] => 0
  | x :: xs => x.toNat + 2 ^ w * number xs

/-- Each block borrows just when its minuend is too small. -/
def BorrowsExactly : List (BitVec w × BitVec w) → BitVec w → Prop
  | [], _ => True
  | (a, b) :: es, borrowIn =>
    let borrowOut := (bitblock_subtract_with_borrow a b borrowIn).1
    (borrowOut ≠ 0 ↔ a.toNat < b.toNat + borrowIn.toNat) ∧ BorrowsExactly es borrowOut

/-- The blocks are subtracted as the numbers of the whole streams are. -/
def SubtractsExactly (es : List (BitVec w × BitVec w)) : Prop :=
  number ((subtractBlocks es 0).map Prod.snd) =
      (number (es.map Prod.fst) + 2 ^ (w * es.length) - number (es.map Prod.snd)) %
        2 ^ (w * es.length) ∧
    BorrowsExactly es 0

/-- The difference of two blocks is one of a signed number of their width. -/
def DifferenceFits (a b : BitVec w) (borrow : Bool) : Prop :=
  b.toNat + borrow.toNat ≤ a.toNat + 2 ^ (w - 1) ∧
    a.toNat < b.toNat + borrow.toNat + 2 ^ (w - 1)

/-- The lower blocks of the minuend are too small. -/
def borrowInto (es : List (BitVec w × BitVec w)) (borrow : Bool) (i : ℕ) : Bool :=
  decide (number ((es.take i).map Prod.fst) < number ((es.take i).map Prod.snd) + borrow.toNat)

section Number

theorem number_lt (xs : List (BitVec w)) : number xs < 2 ^ (w * xs.length) := by
  induction xs with
  | nil => simp [number]
  | cons x xs ih =>
    have hx := x.isLt
    have hle := Nat.mul_le_mul_left (2 ^ w) (Nat.succ_le_of_lt ih)
    rw [Nat.mul_succ] at hle
    rw [number, List.length_cons, Nat.mul_succ, Nat.add_comm (w * _), Nat.pow_add]
    omega

variable {a b : BitVec w} {es : List (BitVec w × BitVec w)} {borrow : Bool}

@[simp] theorem borrowInto_zero : borrowInto es borrow 0 = borrow := by
  cases borrow <;> rfl

/-- The first block passes a borrow on to the others. -/
theorem borrowInto_cons (i : ℕ) : borrowInto ((a, b) :: es) borrow (i + 1) =
    borrowInto es (decide (a.toNat < b.toNat + borrow.toNat)) i := by
  have ha := a.isLt
  have hb := b.isLt
  have hc := borrow.toNat_lt
  simp only [borrowInto, List.take_succ_cons, List.map_cons, number, decide_eq_decide]
  generalize number ((es.take i).map Prod.fst) = m
  generalize number ((es.take i).map Prod.snd) = n
  obtain hlt | rfl | hlt := Nat.lt_trichotomy m n
  · have hle := Nat.mul_le_mul_left (2 ^ w) (Nat.succ_le_of_lt hlt)
    rw [Nat.mul_succ] at hle
    exact iff_of_true (by omega) (by omega)
  · by_cases hab : a.toNat < b.toNat + borrow.toNat
    · rw [decide_eq_true hab]
      exact iff_of_true (by omega) (by simp)
    · rw [decide_eq_false hab]
      exact iff_of_false (by omega) (by simp)
  · have hle := Nat.mul_le_mul_left (2 ^ w) (Nat.succ_le_of_lt hlt)
    have hd := Bool.toNat_le (decide (a.toNat < b.toNat + borrow.toNat))
    rw [Nat.mul_succ] at hle
    refine iff_of_false (by omega) ?_
    by_cases hab : a.toNat < b.toNat + borrow.toNat
    · rw [decide_eq_true hab]
      simp only [Bool.toNat_true]
      omega
    · rw [decide_eq_false hab]
      simp only [Bool.toNat_false]
      omega

end Number

section Block

variable {a b : BitVec w} {borrow : Bool}

theorem toNat_carryBlock (hw : 0 < w) (borrow : Bool) :
    (carryBlock w borrow).toNat = borrow.toNat := by
  have hlt : borrow.toNat < 2 ^ w :=
    lt_of_lt_of_le borrow.toNat_lt (Nat.pow_le_pow_right Nat.two_pos hw)
  rw [carryBlock, BitVec.toNat_setWidth, BitVec.toNat_ofBool, Nat.mod_eq_of_lt hlt]

theorem toNat_sub_eq (a b : BitVec w) :
    (a - b).toNat = if b.toNat ≤ a.toNat then a.toNat - b.toNat else 2 ^ w + a.toNat - b.toNat := by
  have ha := a.isLt
  have hb := b.isLt
  rw [BitVec.toNat_sub]
  split_ifs with hle
  · have hsum : 2 ^ w - b.toNat + a.toNat = a.toNat - b.toNat + 2 ^ w := by omega
    rw [hsum, Nat.add_mod_right, Nat.mod_eq_of_lt (by omega)]
  · rw [Nat.mod_eq_of_lt (by omega)]
    omega

/-- A block is subtracted as its number is, and borrows what it lacks. -/
theorem toNat_difference (hw : 0 < w) :
    (bitblock_subtract_with_borrow a b (carryBlock w borrow)).2.toNat + b.toNat + borrow.toNat =
      a.toNat + 2 ^ w * (decide (a.toNat < b.toNat + borrow.toNat)).toNat := by
  have ha := a.isLt
  have hb := b.isLt
  have hc := borrow.toNat_lt
  simp only [bitblock_subtract_with_borrow, toNat_sub_eq, toNat_carryBlock hw]
  by_cases hlt : a.toNat < b.toNat + borrow.toNat
  · rw [decide_eq_true hlt, Bool.toNat_true]
    split_ifs <;> omega
  · rw [decide_eq_false hlt, Bool.toNat_false]
    split_ifs <;> omega

theorem borrowOut_eq (hw : 0 < w) (borrowIn : BitVec w) :
    (bitblock_subtract_with_borrow a b borrowIn).1 =
      carryBlock w (bitblock_subtract_with_borrow a b borrowIn).2.msb := by
  simp only [bitblock_subtract_with_borrow]
  generalize a - b - borrowIn = d
  have hd := d.isLt
  have hpow : 2 ^ w = 2 ^ (w - 1) + 2 ^ (w - 1) := by
    rw [← Nat.two_mul, ← Nat.pow_succ', Nat.succ_eq_add_one, Nat.sub_add_cancel hw]
  apply BitVec.eq_of_toNat_eq
  rw [toNat_carryBlock hw, BitVec.msb_eq_decide, BitVec.toNat_ushiftRight,
    Nat.shiftRight_eq_div_pow]
  by_cases hle : 2 ^ (w - 1) ≤ d.toNat
  · rw [decide_eq_true hle, Nat.div_eq_of_lt_le (k := 1) (by omega) (by omega)]
    rfl
  · rw [decide_eq_false hle, Nat.div_eq_of_lt (by omega)]
    rfl

/-- The borrow out is right iff the difference fits a signed number. -/
theorem msb_difference_iff (hw : 0 < w) :
    (bitblock_subtract_with_borrow a b (carryBlock w borrow)).2.msb =
      decide (a.toNat < b.toNat + borrow.toNat) ↔ DifferenceFits a b borrow := by
  have hdiff := @toNat_difference w a b borrow hw
  have hd := (bitblock_subtract_with_borrow a b (carryBlock w borrow)).2.isLt
  have hpow : 2 ^ w = 2 ^ (w - 1) + 2 ^ (w - 1) := by
    rw [← Nat.two_mul, ← Nat.pow_succ', Nat.succ_eq_add_one, Nat.sub_add_cancel hw]
  rw [BitVec.msb_eq_decide, decide_eq_decide, DifferenceFits]
  by_cases hlt : a.toNat < b.toNat + borrow.toNat
  · rw [decide_eq_true hlt, Bool.toNat_true] at hdiff
    simp only [hlt, iff_true]
    omega
  · rw [decide_eq_false hlt, Bool.toNat_false] at hdiff
    simp only [hlt, iff_false]
    omega

end Block

section Streams

theorem length_subtractBlocks (es : List (BitVec w × BitVec w)) (borrowIn : BitVec w) :
    (subtractBlocks es borrowIn).length = es.length := by
  induction es generalizing borrowIn with
  | nil => rfl
  | cons e es ih => rw [subtractBlocks, List.length_cons, ih, List.length_cons]

variable {es : List (BitVec w × BitVec w)} {borrow : Bool}

/-- The difference of the whole streams, and the borrow out of them. -/
theorem number_differences (hw : 0 < w)
    (h : ∀ i (hi : i < es.length), DifferenceFits es[i].1 es[i].2 (borrowInto es borrow i)) :
    number ((subtractBlocks es (carryBlock w borrow)).map Prod.snd) +
        number (es.map Prod.snd) + borrow.toNat =
      number (es.map Prod.fst) +
        2 ^ (w * es.length) * (borrowInto es borrow es.length).toNat := by
  induction es generalizing borrow with
  | nil => cases borrow <;> rfl
  | cons e es ih =>
    obtain ⟨a, b⟩ := e
    have hfits := h 0 (Nat.succ_pos _)
    simp only [List.getElem_cons_zero, borrowInto_zero] at hfits
    have hout := borrowOut_eq (a := a) (b := b) hw (carryBlock w borrow)
    rw [(msb_difference_iff hw).2 hfits] at hout
    have hrest := ih fun i hi ↦ by
      have hi' := h (i + 1) (Nat.succ_lt_succ hi)
      rwa [List.getElem_cons_succ, borrowInto_cons] at hi'
    have hdiff := @toNat_difference w a b borrow hw
    have hscaled := congrArg (fun x ↦ 2 ^ w * x) hrest
    simp only [Nat.mul_add, ← Nat.mul_assoc] at hscaled
    simp only [subtractBlocks, hout, List.map_cons, number, List.length_cons, borrowInto_cons,
      Nat.mul_succ, Nat.pow_add, Nat.mul_comm (2 ^ (w * es.length))]
    omega

theorem borrowsExactly_iff (hw : 0 < w) : BorrowsExactly es (carryBlock w borrow) ↔
    ∀ i (hi : i < es.length), DifferenceFits es[i].1 es[i].2 (borrowInto es borrow i) := by
  induction es generalizing borrow with
  | nil => simp [BorrowsExactly]
  | cons e es ih =>
    obtain ⟨a, b⟩ := e
    have hout := borrowOut_eq (a := a) (b := b) hw (carryBlock w borrow)
    have hzero (d : Bool) : carryBlock w d ≠ 0 ↔ d = true := by
      rw [Ne, ← BitVec.toNat_inj, toNat_carryBlock hw]
      cases d <;> simp
    have hfirst : ((bitblock_subtract_with_borrow a b (carryBlock w borrow)).1 ≠ 0 ↔
        a.toNat < b.toNat + (carryBlock w borrow).toNat) ↔ DifferenceFits a b borrow := by
      rw [← msb_difference_iff hw, hout, hzero, toNat_carryBlock hw]
      by_cases hlt : a.toNat < b.toNat + borrow.toNat <;> simp [hlt]
    rw [BorrowsExactly, hfirst]
    constructor
    · rintro ⟨hfits, hrest⟩ i hi
      rw [hout, (msb_difference_iff hw).2 hfits, ih] at hrest
      cases i with
      | zero => simpa using hfits
      | succ i => simpa [borrowInto_cons] using hrest i (Nat.lt_of_succ_lt_succ hi)
    · intro h
      have hfits : DifferenceFits a b borrow := by simpa using h 0 (Nat.succ_pos _)
      refine ⟨hfits, ?_⟩
      rw [hout, (msb_difference_iff hw).2 hfits, ih]
      intro i hi
      simpa [borrowInto_cons] using h (i + 1) (Nat.succ_lt_succ hi)

/-- The chained blocks subtract the whole streams iff the difference of no block leaves the
range of the signed numbers: the top bit of a difference is its sign only there. -/
theorem subtract_exact (hw : 0 < w) (es : List (BitVec w × BitVec w)) : SubtractsExactly es ↔
    ∀ i (hi : i < es.length), DifferenceFits es[i].1 es[i].2 (borrowInto es false i) := by
  have hzero : (0 : BitVec w) = carryBlock w false := by
    apply BitVec.eq_of_toNat_eq
    rw [toNat_carryBlock hw]
    rfl
  rw [SubtractsExactly, hzero, borrowsExactly_iff hw, and_iff_right_iff_imp]
  intro h
  have hnumber := number_differences hw h
  have hlt := number_lt ((subtractBlocks es (carryBlock w false)).map Prod.snd)
  have hb := number_lt (es.map Prod.snd)
  rw [List.length_map] at hb
  rw [List.length_map, length_subtractBlocks] at hlt
  rw [Bool.toNat_false, Nat.add_zero] at hnumber
  cases hout : borrowInto es false es.length with
  | false =>
    rw [hout, Bool.toNat_false, Nat.mul_zero, Nat.add_zero] at hnumber
    rw [← hnumber, Nat.add_right_comm, Nat.add_sub_cancel, Nat.add_mod_right, Nat.mod_eq_of_lt hlt]
  | true =>
    rw [hout, Bool.toNat_true, Nat.mul_one] at hnumber
    rw [← hnumber, Nat.add_sub_cancel, Nat.mod_eq_of_lt hlt]

theorem subtract_exact_bytes : SubtractsExactly [((200 : BitVec 8), 100), (3, 2)] ↔
    ∀ i (hi : i < [((200 : BitVec 8), (100 : BitVec 8)), (3, 2)].length),
      DifferenceFits [((200 : BitVec 8), (100 : BitVec 8)), (3, 2)][i].1
        [((200 : BitVec 8), (100 : BitVec 8)), (3, 2)][i].2
        (borrowInto [((200 : BitVec 8), 100), (3, 2)] false i) :=
  subtract_exact (by decide) _

/-- Nothing is subtracted from a block whose last position is marked, and the block borrows. -/
theorem subtract_borrows_wrongly :
    ¬SubtractsExactly [(1#64 <<< 63, 0#64), (0#64, 0#64)] := by
  intro h
  exact absurd (h.2.1.1 (by decide)) (by decide)

end Streams

end Parabix.Pablo
