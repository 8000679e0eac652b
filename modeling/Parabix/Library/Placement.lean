import Parabix.Library.Spread

/-!
Lists placed at the ones of a mask, with a filler at its zeros.
-/

namespace Parabix.Library.BitStream

variable {α : Type*} {z : α} {m m' : List Bool} {l l' : List α}

/-- The stream of a list of bits. -/
def ofBits (m : List Bool) : Stream := fun p ↦ m.getD p false

def place (z : α) : List Bool → List α → List α
  | [], _ => []
  | false :: m, l => z :: place z m l
  | true :: m, l => l.headD z :: place z m l.tail

@[simp] theorem place_nil (l : List α) : place z [] l = [] := rfl

@[simp] theorem place_false (m : List Bool) (l : List α) :
    place z (false :: m) l = z :: place z m l := rfl

@[simp] theorem place_true (m : List Bool) (a : α) (l : List α) :
    place z (true :: m) (a :: l) = a :: place z m l := rfl

@[simp] theorem length_place : (place z m l).length = m.length := by
  induction m generalizing l with
  | nil => rfl
  | cons b m ih => cases b <;> simp [place, ih]

theorem place_replicate_false (n : ℕ) :
    place z (List.replicate n false ++ m) l = List.replicate n z ++ place z m l := by
  induction n with
  | zero => rfl
  | succ n ih => rw [List.replicate_succ, List.cons_append, place_false, ih]; rfl

/-- The items for the ones of the first part are used up when the second part begins. -/
theorem place_append (h : m.count true = l.length) :
    place z (m ++ m') (l ++ l') = place z m l ++ place z m' l' := by
  induction m generalizing l with
  | nil =>
    obtain rfl := List.length_eq_zero_iff.1 h.symm
    rfl
  | cons b m ih =>
    cases b with
    | false =>
      rw [List.count_cons_of_ne (by decide)] at h
      rw [List.cons_append, place_false, place_false, ih h, List.cons_append]
    | true =>
      rw [List.count_cons_self] at h
      cases l with
      | nil => exact absurd h (Nat.succ_ne_zero _)
      | cons a l =>
        rw [List.cons_append, List.cons_append, place_true, place_true, ih (Nat.succ.inj h),
          List.cons_append]

/-- Part by part, with as many items for each part as its mask has ones. -/
theorem place_flatMap {β : Type*} {f : β → List Bool} {g : β → List α}
    (h : ∀ b, (f b).count true = (g b).length) (bs : List β) :
    place z (bs.flatMap f) (bs.flatMap g) = bs.flatMap fun b ↦ place z (f b) (g b) := by
  induction bs with
  | nil => rfl
  | cons b bs ih =>
    rw [List.flatMap_cons, List.flatMap_cons, List.flatMap_cons, place_append (h b), ih]

theorem getD_place (p : ℕ) : (place z m l).getD p z =
    if ofBits m p then l.getD (rank (ofBits m) p) z else z := by
  induction m generalizing l p with
  | nil => rfl
  | cons b m ih =>
    cases p with
    | zero => cases b <;> cases l <;> rfl
    | succ p =>
      have hrank : rank (ofBits (b :: m)) (p + 1) = b.toNat + rank (ofBits m) p := by
        rw [Nat.add_comm, rank_add, rank_succ, rank_zero, Nat.zero_add]
        congr 2
        funext q
        rw [ofBits, Nat.add_comm, List.getD_cons_succ, ofBits]
      have hbit : ofBits (b :: m) (p + 1) = ofBits m p := List.getD_cons_succ
      rw [hrank, hbit]
      cases b with
      | false => rw [place_false, List.getD_cons_succ, ih, Bool.toNat_false, Nat.zero_add]
      | true =>
        rw [place, List.getD_cons_succ, ih, Bool.toNat_true, Nat.add_comm]
        cases l <;> rfl

/-- Bits that are spread by a mask are placed at its ones. -/
theorem spread_ofBits (l : List Bool) (p : ℕ) :
    spread (ofBits m) (ofBits l) p = (place false m l).getD p false := by
  rw [getD_place, spread]
  cases ofBits m p <;> rfl

theorem map_getD_range (l : List α) : (List.range l.length).map (l.getD · z) = l := by
  refine List.ext_getElem (by simp) fun p hp hp' ↦ ?_
  rw [List.getElem_map, List.getElem_range, List.getD_eq_getElem _ _ hp']

theorem rank_ofBits_length (m : List Bool) : rank (ofBits m) m.length = m.count true := by
  induction m with
  | nil => rfl
  | cons b m ih =>
    have hshift : (fun i ↦ ofBits (b :: m) (1 + i)) = ofBits m := by
      funext q
      rw [ofBits, Nat.add_comm, List.getD_cons_succ, ofBits]
    rw [List.length_cons, Nat.add_comm, rank_add, hshift, ih, rank_succ, rank_zero]
    cases b
    · rw [List.count_cons_of_ne (by decide)]
      exact Nat.zero_add _
    · rw [List.count_cons_self, Nat.add_comm]
      rfl

end Parabix.Library.BitStream
