import Parabix.Library.Fault
import Mathlib.Data.List.Basic

namespace Parabix.Library.Buffer

variable {α : Type}

/-- A fresh buffer. Its cells hold what the memory happened to hold. -/
def allocate (junk : ℕ → α) (n : ℕ) : List α := (List.range n).map junk

def load (b : List α) (i : ℕ) : Except Fault α :=
  match b[i]? with
  | some a => .ok a
  | none => .error .memory

def store (b : List α) (i : ℕ) (a : α) : Except Fault (List α) :=
  if i < b.length then .ok (b.set i a) else .error .memory

/-- Copies `n` cells of `src` from `j` on over the cells of `dst` from `i` on.
Source and target may be one buffer. -/
def copy (dst : List α) (i : ℕ) (src : List α) (j n : ℕ) : Except Fault (List α) :=
  if n = 0 then
    .ok dst
  else if i + n ≤ dst.length ∧ j + n ≤ src.length then
    .ok (dst.take i ++ (src.drop j).take n ++ dst.drop (i + n))
  else
    .error .memory

@[simp] theorem length_allocate (junk : ℕ → α) (n : ℕ) : (allocate junk n).length = n := by
  simp [allocate]

theorem load_eq {b : List α} {i : ℕ} {a : α} (h : b[i]? = some a) : load b i = .ok a := by
  simp only [load, h]

theorem store_eq {b : List α} {i : ℕ} (h : i < b.length) (a : α) :
    store b i a = .ok (b.set i a) := if_pos h

theorem copy_eq {dst src : List α} {i j n : ℕ} (hi : i + n ≤ dst.length)
    (hj : j + n ≤ src.length) :
    copy dst i src j n = .ok (dst.take i ++ (src.drop j).take n ++ dst.drop (i + n)) := by
  by_cases hn : n = 0
  · simp [copy, hn]
  · rw [copy, if_neg hn, if_pos ⟨hi, hj⟩]

/-- What a completed copy tells: the cells before the target are untouched. -/
theorem of_copy_eq_ok {dst src b : List α} {i j n : ℕ} (h : copy dst i src j n = .ok b) :
    b.length = dst.length ∧ b.take i = dst.take i ∧ (n = 0 ∨ i + n ≤ dst.length) := by
  unfold copy at h
  split_ifs at h with hn hr
  · cases h
    exact ⟨rfl, rfl, .inl hn⟩
  · cases h
    refine ⟨by simp; omega, ?_, .inr hr.1⟩
    rw [List.append_assoc, List.take_left' (List.length_take_of_le (by omega))]

theorem of_store_eq_ok {b b' : List α} {i : ℕ} {x : α} (h : store b i x = .ok b') :
    i < b.length ∧ b' = b.set i x := by
  unfold store at h
  split_ifs at h with hi
  cases h
  exact ⟨hi, rfl⟩

variable {a c rest tail : List α}

/-- Copying the first cells. -/
theorem copy_front (dst : List α) (h : a.length ≤ dst.length) :
    copy dst 0 (a ++ tail) 0 a.length = .ok (a ++ dst.drop a.length) := by
  rw [copy_eq (by omega) (by simp)]
  simp

/-- Copying the cells after `a` to a place `n` cells further on. -/
theorem copy_behind {n : ℕ} (h : n + c.length ≤ rest.length) :
    copy (a ++ rest) (a.length + n) (a ++ c ++ tail) a.length c.length =
      .ok (a ++ rest.take n ++ c ++ rest.drop (n + c.length)) := by
  rw [copy_eq (by simp only [List.length_append]; omega) (by simp),
    List.take_length_add_append, List.append_assoc a c tail, List.drop_left, List.take_left,
    Nat.add_assoc, List.drop_length_add_append]

/-- Closing a gap of one cell. -/
theorem copy_over {x : α} :
    copy (a ++ x :: (c ++ tail)) a.length (a ++ x :: (c ++ tail)) (a.length + 1) c.length =
      .ok (a ++ c ++ (x :: (c ++ tail)).drop c.length) := by
  rw [copy_eq (by simp; omega) (by simp; omega), List.take_left,
    List.drop_length_add_append, List.drop_length_add_append]
  simp

theorem store_middle {x y : α} :
    store (a ++ x :: tail) a.length y = .ok (a ++ y :: tail) := by
  rw [store_eq (by simp)]
  simp

theorem load_middle {x : α} : load (a ++ x :: tail) a.length = .ok x :=
  load_eq (by simp)

end Parabix.Library.Buffer
