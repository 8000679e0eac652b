import Mathlib.Data.Nat.Count
import Mathlib.Tactic.Common
import Parabix.Library.BitStream

namespace Parabix.Library.BitStream

variable {α : Type*} {m : Stream} {x y : ℕ → α} {a n p : ℕ}

/-- How many ones a stream has below a position. -/
def rank (m : Stream) (p : ℕ) : ℕ := Nat.count (fun q ↦ m q = true) p

section Rank

@[simp] theorem rank_zero (m : Stream) : rank m 0 = 0 := Nat.count_zero _

theorem rank_succ (m : Stream) (p : ℕ) : rank m (p + 1) = rank m p + (m p).toNat := by
  rw [rank, rank, Nat.count_succ]
  cases m p <;> rfl

theorem rank_succ_of_true (h : m p = true) : rank m (p + 1) = rank m p + 1 := by
  rw [rank_succ, h, Bool.toNat_true]

theorem rank_succ_of_false (h : m p = false) : rank m (p + 1) = rank m p := by
  rw [rank_succ, h, Bool.toNat_false, Nat.add_zero]

@[simp] theorem rank_ones (p : ℕ) : rank (fun _ ↦ true) p = p := by
  induction p with
  | zero => rfl
  | succ p ih => rw [rank_succ_of_true rfl, ih]

theorem rank_add (m : Stream) (a n : ℕ) :
    rank m (a + n) = rank m a + rank (fun i ↦ m (a + i)) n := Nat.count_add _ a n

theorem rank_mono (m : Stream) : Monotone (rank m) := Nat.count_monotone _

theorem rank_le (m : Stream) (p : ℕ) : rank m p ≤ p := Nat.count_le _

theorem rank_lt_of_true (h : m p = true) (hp : p < n) : rank m p < rank m n :=
  Nat.count_strict_mono h hp

theorem rank_eq_of_false (h : ∀ i < n, m (a + i) = false) : rank m (a + n) = rank m a := by
  induction n with
  | zero => rfl
  | succ n ih =>
    rw [← Nat.add_assoc, rank_succ_of_false (h n (Nat.lt_succ_self n)),
      ih fun i hi ↦ h i (Nat.lt_succ_of_lt hi)]

theorem exists_rank_eq {r : ℕ} (h : r < rank m n) : ∃ p < n, m p = true ∧ rank m p = r := by
  induction n with
  | zero => exact absurd h (Nat.not_lt_zero r)
  | succ n ih =>
    by_cases hr : r < rank m n
    · obtain ⟨p, hp, hone⟩ := ih hr
      exact ⟨p, hp.trans (Nat.lt_succ_self n), hone⟩
    · cases hm : m n with
      | false => exact absurd (rank_succ_of_false hm ▸ h) hr
      | true =>
        rw [rank_succ_of_true hm] at h
        exact ⟨n, Nat.lt_succ_self n, hm, by omega⟩

/-- Ones with equally many ones below are the same. -/
theorem rank_inj {q : ℕ} (hp : m p = true) (hq : m q = true) (h : rank m p = rank m q) : p = q := by
  rcases Nat.lt_trichotomy p q with hlt | heq | hgt
  · exact absurd h (rank_lt_of_true hp hlt).ne
  · exact heq
  · exact absurd h.symm (rank_lt_of_true hq hgt).ne

theorem rank_congr {m' : Stream} (h : ∀ i < n, m i = m' i) : rank m n = rank m' n := by
  induction n with
  | zero => rfl
  | succ n ih =>
    rw [rank_succ, rank_succ, h n (Nat.lt_succ_self n), ih fun i hi ↦ h i (Nat.lt_succ_of_lt hi)]

/-- The zeros of a stream are the ones of its complement. -/
theorem rank_not (m : Stream) (p : ℕ) : rank m p + rank (fun i ↦ !m i) p = p := by
  induction p with
  | zero => rfl
  | succ p ih =>
    rw [rank_succ, rank_succ]
    cases m p <;> simp <;> omega

end Rank

/-- The items at the ones of a mask, of the `n` positions from `a` on. -/
def compress (m : Stream) (x : ℕ → α) (a n : ℕ) : List α := ((List.range' a n).filter m).map x

section Compress

@[simp] theorem compress_zero (m : Stream) (x : ℕ → α) (a : ℕ) : compress m x a 0 = [] := rfl

theorem compress_append (m : Stream) (x : ℕ → α) (a n k : ℕ) :
    compress m x a (n + k) = compress m x a n ++ compress m x (a + n) k := by
  rw [compress, ← List.range'_append_1, List.filter_append, List.map_append, compress, compress]

theorem compress_succ (m : Stream) (x : ℕ → α) (a n : ℕ) :
    compress m x a (n + 1) = compress m x a n ++ if m (a + n) then [x (a + n)] else [] := by
  rw [compress_append]
  congr 1
  unfold compress
  cases h : m (a + n) <;> simp [h]

theorem length_compress (m : Stream) (x : ℕ → α) (a n : ℕ) :
    rank m a + (compress m x a n).length = rank m (a + n) := by
  induction n with
  | zero => rfl
  | succ n ih =>
    rw [compress_succ, List.length_append, ← Nat.add_assoc, ih, ← Nat.add_assoc, rank_succ]
    cases m (a + n) <;> simp

theorem compress_congr {m' : Stream} (hm : ∀ i < n, m (a + i) = m' (a + i))
    (hx : ∀ i < n, m (a + i) = true → x (a + i) = y (a + i)) :
    compress m x a n = compress m' y a n := by
  induction n with
  | zero => rfl
  | succ n ih =>
    rw [compress_succ, compress_succ, ← hm n (Nat.lt_succ_self n),
      ih (fun i hi ↦ hm i (Nat.lt_succ_of_lt hi)) fun i hi ↦ hx i (Nat.lt_succ_of_lt hi)]
    split_ifs with h
    · rw [hx n (Nat.lt_succ_self n) h]
    · rfl

/-- The positions from `a` on are counted from zero. -/
theorem compress_shift (m : Stream) (x : ℕ → α) (a n : ℕ) :
    compress m x a n = compress (fun i ↦ m (a + i)) (fun i ↦ x (a + i)) 0 n := by
  induction n with
  | zero => rfl
  | succ n ih => rw [compress_succ, compress_succ, ih, Nat.zero_add]

theorem compress_of_false (h : ∀ i < n, m (a + i) = false) : compress m x a n = [] := by
  induction n with
  | zero => rfl
  | succ n ih =>
    rw [compress_succ, ih fun i hi ↦ h i (Nat.lt_succ_of_lt hi), h n (Nat.lt_succ_self n)]
    rfl

theorem compress_of_true (h : ∀ i < n, m (a + i) = true) :
    compress m x a n = (List.range n).map fun i ↦ x (a + i) := by
  induction n with
  | zero => rfl
  | succ n ih =>
    rw [compress_succ, ih fun i hi ↦ h i (Nat.lt_succ_of_lt hi), h n (Nat.lt_succ_self n),
      List.range_succ, List.map_append]
    rfl

/-- The item at a one has the place that the ones before it leave. -/
theorem getElem?_compress (hp : m (a + p) = true) (hn : p < n) :
    (compress m x a n)[rank m (a + p) - rank m a]? = some (x (a + p)) := by
  have hlen := length_compress m x a p
  obtain ⟨k, rfl⟩ := Nat.exists_eq_add_of_lt hn
  rw [Nat.add_right_comm, compress_append, compress_succ, hp, List.append_assoc,
    List.getElem?_append_right (by omega), if_pos rfl,
    show rank m (a + p) - rank m a - (compress m x a p).length = 0 by omega]
  rfl

theorem getElem?_compress_eq_some {b : ℕ} {v : α} : (compress m x a n)[b]? = some v ↔
    ∃ p < n, m (a + p) = true ∧ rank m (a + p) = rank m a + b ∧ x (a + p) = v := by
  have hlen := length_compress m x a n
  constructor
  · intro h
    obtain ⟨hb, -⟩ := List.getElem?_eq_some_iff.1 h
    obtain ⟨q, hq, hm, hrank⟩ := exists_rank_eq (show rank m a + b < rank m (a + n) by omega)
    have hle : a ≤ q := by
      by_contra hlt
      have := rank_lt_of_true hm (Nat.lt_of_not_le hlt)
      omega
    obtain ⟨p, rfl⟩ := Nat.exists_eq_add_of_le hle
    have hget := getElem?_compress (x := x) hm (show p < n by omega)
    rw [hrank, Nat.add_sub_cancel_left, h] at hget
    exact ⟨p, by omega, hm, hrank, (Option.some_inj.1 hget).symm⟩
  · rintro ⟨p, hp, hm, hrank, rfl⟩
    have hget := getElem?_compress (x := x) hm hp
    rwa [hrank, Nat.add_sub_cancel_left] at hget

/-- A sequence with each item at the place of its one. -/
theorem map_range_rank (h : ∀ p < n, m p = true → y (rank m p) = x p) :
    (List.range (rank m n)).map y = compress m x 0 n := by
  induction n with
  | zero => rfl
  | succ n ih =>
    have hn := ih fun p hp ↦ h p (hp.trans (Nat.lt_succ_self n))
    rw [compress_succ, ← hn, Nat.zero_add, rank_succ]
    cases hm : m n with
    | false => simp
    | true => simp [List.range_succ, h n (Nat.lt_succ_self n) hm]

/-- Cut into parts of `w` positions. -/
theorem flatMap_compress (m : Stream) (x : ℕ → α) (w k : ℕ) :
    ((List.range k).flatMap fun i ↦ compress m x (w * i) w) = compress m x 0 (w * k) := by
  induction k with
  | zero => rfl
  | succ k ih =>
    rw [List.range_succ, List.flatMap_append, ih, Nat.mul_succ, compress_append, Nat.zero_add]
    simp

end Compress

/-- The `n`-th one of the mask takes the `n`-th bit, and the other positions are zero. -/
def spread (m s : Stream) : Stream := fun p ↦ m p && s (rank m p)

section Spread

theorem spread_of_true {s : Stream} (h : m p = true) : spread m s p = s (rank m p) := by
  rw [spread, h, Bool.true_and]

theorem spread_of_false {s : Stream} (h : m p = false) : spread m s p = false := by
  rw [spread, h, Bool.false_and]

/-- What was spread by a mask is found again under it. -/
theorem compress_spread (m s : Stream) (n : ℕ) :
    compress m (spread m s) 0 n = (List.range (rank m n)).map s := by
  induction n with
  | zero => rfl
  | succ n ih =>
    rw [compress_succ, ih, Nat.zero_add, rank_succ]
    cases h : m n
    · simp
    · simp [List.range_succ, spread_of_true h]

end Spread

end Parabix.Library.BitStream
