import Mathlib.Data.List.GetD
import Mathlib.Tactic.Common

namespace Parabix.Library.DelayLine

variable {α : Type}

/-- The entries at the index positions. -/
def select : List Bool → List α → List α
  | true :: is, x :: xs => x :: select is xs
  | false :: is, _ :: xs => select is xs
  | _, _ => []

/-- The entries of a queue put at the index positions, and `d` elsewhere. -/
def deposit (d : α) : List Bool → List α → List α
  | [], _ => []
  | false :: is, q => d :: deposit d is q
  | true :: is, q => q.headD d :: deposit d is q.tail

section Select

variable {is js : List Bool} {xs ys : List α}

@[simp] theorem select_nil (xs : List α) : select [] xs = [] := by cases xs <;> rfl

theorem select_false (x : α) : select (false :: is) (x :: xs) = select is xs := rfl

theorem select_true (x : α) : select (true :: is) (x :: xs) = x :: select is xs := rfl

theorem length_select (h : xs.length = is.length) : (select is xs).length = is.count true := by
  induction is generalizing xs with
  | nil => simp
  | cons i is ih =>
    cases xs with
    | nil => simp at h
    | cons x xs =>
      simp only [List.length_cons, Nat.add_right_cancel_iff] at h
      cases i <;> simp [select_false, select_true, ih h]

theorem select_append (h : xs.length = is.length) :
    select (is ++ js) (xs ++ ys) = select is xs ++ select js ys := by
  induction is generalizing xs with
  | nil =>
    obtain rfl : xs = [] := by simpa using h
    simp
  | cons i is ih =>
    cases xs with
    | nil => simp at h
    | cons x xs =>
      simp only [List.length_cons, Nat.add_right_cancel_iff] at h
      cases i <;> simp [select_false, select_true, ih h]

end Select

section Deposit

variable {d : α} {is js : List Bool} {q q' : List α}

theorem deposit_false (q : List α) : deposit d (false :: is) q = d :: deposit d is q := rfl

theorem deposit_true (q : List α) :
    deposit d (true :: is) q = q.headD d :: deposit d is q.tail :=
  rfl

@[simp] theorem length_deposit (d : α) (is : List Bool) (q : List α) :
    (deposit d is q).length = is.length := by
  induction is generalizing q with
  | nil => rfl
  | cons i is ih => cases i <;> simp [deposit_false, deposit_true, ih]

theorem deposit_append (d : α) (is js : List Bool) (q : List α) :
    deposit d (is ++ js) q = deposit d is q ++ deposit d js (q.drop (is.count true)) := by
  induction is generalizing q with
  | nil => simp [deposit]
  | cons i is ih => cases i <;> simp [deposit_false, deposit_true, ih]

theorem headD_eq_getD (q : List α) : q.headD d = q.getD 0 d := by cases q <;> rfl

theorem getD_tail (q : List α) (k : ℕ) : q.tail.getD k d = q.getD (k + 1) d := by
  cases q <;> simp

/-- Only as many entries are read as there are index positions. -/
theorem deposit_congr (h : ∀ k < is.count true, q.getD k d = q'.getD k d) :
    deposit d is q = deposit d is q' := by
  induction is generalizing q q' with
  | nil => rfl
  | cons i is ih =>
    cases i with
    | false => rw [deposit_false, deposit_false, ih (by simpa using h)]
    | true =>
      have h0 : q.headD d = q'.headD d := by
        rw [headD_eq_getD, headD_eq_getD]
        exact h 0 (by simp)
      have htail : ∀ k < is.count true, q.tail.getD k d = q'.tail.getD k d := by
        intro k hk
        rw [getD_tail, getD_tail]
        exact h (k + 1) (by simpa using hk)
      rw [deposit_true, deposit_true, h0, ih htail]

theorem deposit_replicate (d : α) (is : List Bool) (n : ℕ) :
    deposit d is (List.replicate n d) = List.replicate is.length d := by
  induction is generalizing n with
  | nil => rfl
  | cons i is ih =>
    cases i with
    | false => simp [deposit_false, ih, List.replicate_succ]
    | true =>
      have htail : (List.replicate n d).tail = List.replicate (n - 1) d := by simp
      have hhead : (List.replicate n d).headD d = d := by cases n <;> rfl
      rw [deposit_true, htail, hhead, ih, List.length_cons, List.replicate_succ]

/-- What is deposited is selected again. -/
theorem select_deposit (h : is.count true ≤ q.length) :
    select is (deposit d is q) = q.take (is.count true) := by
  induction is generalizing q with
  | nil => simp
  | cons i is ih =>
    cases i with
    | false => simpa [deposit_false, select_false] using ih (by simpa using h)
    | true =>
      cases q with
      | nil => simp at h
      | cons x q => simpa [deposit_true, select_true] using ih (by simpa using h)

/-- Nothing is deposited off the index. -/
theorem deposit_off {p : ℕ} (hp : is.getD p false = false) : (deposit d is q).getD p d = d := by
  induction is generalizing q p with
  | nil => simp [deposit]
  | cons i is ih =>
    cases p with
    | zero =>
      obtain rfl : i = false := by simpa using hp
      rfl
    | succ p =>
      have hp' : is.getD p false = false := by simpa using hp
      cases i
      · simpa [deposit_false] using ih (q := q) hp'
      · simpa [deposit_true] using ih (q := q.tail) hp'

end Deposit

section Line

variable (d : α)

/-- What comes out of a line of entries in flight, when entries go in. -/
def output (is : List Bool) (xs q : List α) : List α := deposit d is (q ++ select is xs)

/-- The entries in flight afterwards. -/
def flight (is : List Bool) (xs q : List α) : List α := (q ++ select is xs).drop (is.count true)

variable {d} {is js : List Bool} {xs ys q : List α}

theorem length_flight (h : xs.length = is.length) : (flight is xs q).length = q.length := by
  simp [flight, length_select h]

theorem flight_append (h : xs.length = is.length) :
    flight (is ++ js) (xs ++ ys) q = flight js ys (flight is xs q) := by
  have hl := length_select h
  simp only [flight, select_append h, List.count_append, ← List.drop_drop]
  have hcount : is.count true ≤ (q ++ select is xs).length := by
    rw [List.length_append]
    omega
  rw [← List.append_assoc, List.drop_append_of_le_length hcount]

theorem output_append (h : xs.length = is.length) :
    output d (is ++ js) (xs ++ ys) q = output d is xs q ++ output d js ys (flight is xs q) := by
  have hl := length_select h
  rw [output, deposit_append, select_append h, ← List.append_assoc]
  congr 1
  · apply deposit_congr
    intro k hk
    rw [List.getD_append]
    rw [List.length_append]
    omega
  · rw [output, flight, List.drop_append_of_le_length]
    rw [List.length_append]
    omega

/-- Nothing happens on an idle line. -/
theorem output_idle {n : ℕ} (h : ∀ x ∈ select is xs, x = d) (hl : xs.length = is.length) :
    output d is xs (List.replicate n d) = List.replicate is.length d ∧
      flight is xs (List.replicate n d) = List.replicate n d := by
  have hs : select is xs = List.replicate (is.count true) d := by
    rw [← length_select hl]
    exact List.eq_replicate_iff.2 ⟨rfl, h⟩
  constructor
  · rw [output, hs, List.replicate_append_replicate, deposit_replicate]
  · rw [flight, hs, List.replicate_append_replicate, List.drop_replicate, Nat.add_sub_cancel]

/-- Nothing goes in or out without an index position. -/
theorem output_blank (h : is.count true = 0) (hl : xs.length = is.length) :
    output d is xs q = List.replicate is.length d ∧ flight is xs q = q := by
  have hs : select is xs = [] := List.eq_nil_of_length_eq_zero (by rw [length_select hl, h])
  constructor
  · rw [output, ← deposit_replicate d is 0]
    apply deposit_congr
    intro k hk
    omega
  · rw [flight, h, hs, List.append_nil, List.drop_zero]

end Line

section Delayed

variable (d : α) (n : ℕ) (is : List Bool) (xs : List α)

/-- The stream with each entry moved `n` index positions on. -/
def delayed : List α := output d is xs (List.replicate n d)

variable {is xs}

/-- The entry at index position `k + n` is the one that was at index position `k`. -/
theorem select_delayed (h : xs.length = is.length) :
    select is (delayed d n is xs) =
      (List.replicate n d ++ select is xs).take (is.count true) := by
  apply select_deposit
  rw [List.length_append, length_select h]
  omega

/-- Each entry is `n` index positions on, and there is nothing else. -/
structure Shifted (is : List Bool) (xs out : List α) : Prop where
  length : out.length = is.length
  off : ∀ p, is.getD p false = false → out.getD p d = d
  start : ∀ k < n, (select is out).getD k d = d
  place : ∀ k, k + n < is.count true → (select is out).getD (k + n) d = (select is xs).getD k d

theorem delayed_shifted (h : xs.length = is.length) : Shifted d n is xs (delayed d n is xs) where
  length := length_deposit ..
  off _ hp := deposit_off hp
  start k hk := by
    rw [select_delayed d n h, List.getD_eq_getElem?_getD, List.getElem?_take]
    split_ifs
    · rw [List.getElem?_append_left (by simpa using hk)]
      simp [hk]
    · rfl
  place k hk := by
    rw [select_delayed d n h, List.getD_eq_getElem?_getD, List.getElem?_take_of_lt hk,
      List.getElem?_append_right (by simp), List.length_replicate, Nat.add_sub_cancel,
      ← List.getD_eq_getElem?_getD]

end Delayed

end Parabix.Library.DelayLine
