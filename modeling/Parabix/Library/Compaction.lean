import Mathlib.Order.Monotone.Defs
import Mathlib.Tactic.Ring

/-!
Items at the places 0, 1, 2, … that move back to their destinations by powers of two, from the
lowest bit of the distance on.
-/

namespace Parabix.Library.Compaction

variable {d m : ℕ → ℕ} {s t j k p ρ : ℕ}

/-- The place of an item with destination `d j`, before the step for bit `s` of its distance. -/
def place (d m : ℕ → ℕ) (s j : ℕ) : ℕ := d j + 2 ^ s * (m j / 2 ^ s)

theorem place_zero (h : d j + m j = j) : place d m 0 j = j := by
  rw [place, pow_zero, Nat.one_mul, Nat.div_one, h]

theorem place_of_lt (h : m j < 2 ^ t) : place d m t j = d j := by
  rw [place, Nat.div_eq_of_lt h, Nat.mul_zero, Nat.add_zero]

/-- An item moves if the bit of its distance is set. -/
theorem place_eq_add (d m : ℕ → ℕ) (s j : ℕ) :
    place d m s j = place d m (s + 1) j + 2 ^ s * (m j / 2 ^ s % 2) := by
  have hdiv := Nat.div_add_mod (m j / 2 ^ s) 2
  rw [place, place, pow_succ, ← Nat.div_div_eq_div_mul]
  calc d j + 2 ^ s * (m j / 2 ^ s)
      = d j + 2 ^ s * (2 * (m j / 2 ^ s / 2) + m j / 2 ^ s % 2) := by rw [hdiv]
    _ = _ := by ring

theorem place_of_moving (h : m j / 2 ^ s % 2 = 1) :
    place d m s j = place d m (s + 1) j + 2 ^ s := by
  rw [place_eq_add, h, Nat.mul_one]

theorem place_of_staying (h : m j / 2 ^ s % 2 = 0) :
    place d m s j = place d m (s + 1) j := by
  rw [place_eq_add, h, Nat.mul_zero, Nat.add_zero]

theorem place_le (h : d j + m j = j) : place d m s j ≤ j := by
  have hle := Nat.mul_div_le (m j) (2 ^ s)
  rw [place]
  omega

/-- What moves to the place of an item that stays has the same destination. -/
theorem same_destination (hd : Monotone d) (hm : Monotone m) (hj : m j / 2 ^ s % 2 = 0)
    (hk : m k / 2 ^ s % 2 = 1) (hρ : ρ < 2 ^ s)
    (hmeet : place d m s j + 2 ^ s = place d m s k + ρ) : d j = d k := by
  have hdiv {a b : ℕ} (h : a ≤ b) : 2 ^ s * (m a / 2 ^ s) ≤ 2 ^ s * (m b / 2 ^ s) :=
    Nat.mul_le_mul_left _ (Nat.div_le_div_right (hm h))
  rw [place, place] at hmeet
  rcases Nat.le_total j k with hle | hge
  · have hnext : m j / 2 ^ s + 1 ≤ m k / 2 ^ s := by
      have := Nat.div_le_div_right (c := 2 ^ s) (hm hle)
      omega
    have hmul := Nat.mul_le_mul_left (2 ^ s) hnext
    rw [Nat.mul_succ] at hmul
    have := hd hle
    omega
  · have hnext : m k / 2 ^ s + 1 ≤ m j / 2 ^ s := by
      have := Nat.div_le_div_right (c := 2 ^ s) (hm hge)
      omega
    have hmul := Nat.mul_le_mul_left (2 ^ s) hnext
    rw [Nat.mul_succ] at hmul
    have := hd hge
    omega

/-- The place of an item, or one that an item has left with its number, less than `2 ^ s`
before. -/
structure Near (d m : ℕ → ℕ) (s p j : ℕ) : Prop where
  intro ::
  le : place d m s j ≤ p
  lt : p < place d m s j + 2 ^ s

theorem Near.of_place (h : place d m s j = p) : Near d m s p j :=
  ⟨h.le, h ▸ Nat.lt_add_of_pos_right (Nat.two_pow_pos s)⟩

/-- The bit of the distance of a place to the destination of the item. -/
theorem Near.bit (h : Near d m s p j) : (p - d j) / 2 ^ s = m j / 2 ^ s := by
  obtain ⟨hle, hlt⟩ := h
  rw [place] at hle hlt
  obtain ⟨ρ, hρ⟩ := Nat.exists_eq_add_of_le hle
  rw [show p - d j = 2 ^ s * (m j / 2 ^ s) + ρ by omega, Nat.mul_add_div (Nat.two_pow_pos s),
    Nat.div_eq_of_lt (show ρ < 2 ^ s by omega), Nat.add_zero]

theorem Near.dest_le (h : Near d m s p j) : d j ≤ p := (Nat.le_add_right _ _).trans h.le

theorem Near.moved (h : Near d m s (p + 2 ^ s) j) (hmove : m j / 2 ^ s % 2 = 1) :
    Near d m (s + 1) p j := by
  obtain ⟨hle, hlt⟩ := h
  have hplace := place_of_moving (d := d) hmove
  have hpow : 2 ^ (s + 1) = 2 ^ s + 2 ^ s := by rw [pow_succ, Nat.mul_two]
  exact ⟨by omega, by omega⟩

theorem Near.kept (h : Near d m s p j) : Near d m (s + 1) p j := by
  obtain ⟨hle, hlt⟩ := h
  have hplace := place_eq_add d m s j
  have hbit : 2 ^ s * (m j / 2 ^ s % 2) ≤ 2 ^ s * 1 :=
    Nat.mul_le_mul_left _ (Nat.le_of_lt_succ (Nat.mod_lt _ Nat.two_pos))
  have hpow : 2 ^ (s + 1) = 2 ^ s + 2 ^ s := by rw [pow_succ, Nat.mul_two]
  exact ⟨by omega, by omega⟩

end Parabix.Library.Compaction
