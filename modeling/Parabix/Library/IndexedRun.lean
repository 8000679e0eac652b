import Mathlib.Order.Lattice
import Parabix.Library.Spread

namespace Parabix.Library.BitStream

variable {m c s : Stream} {p q r i j k n : ℕ}

theorem le_of_rank_le (hq : m q = true) (h : rank m p ≤ rank m q) : p ≤ q := by
  by_contra hlt
  have hstrict := rank_lt_of_true hq (Nat.lt_of_not_le hlt)
  omega

theorem lt_of_rank_lt (h : rank m p < rank m q) : p < q := by
  by_contra hle
  have hmono := rank_mono m (Nat.le_of_not_lt hle)
  omega

/-- Each position of the index up to `q` can be reached from `q` by its rank. -/
theorem exists_back (hq : m q = true) (hr : r ≤ rank m q) : ∃ p ≤ q, m p = true ∧ rank m p = r := by
  have hlt : r < rank m (q + 1) := by
    have hs := rank_succ_of_true hq
    omega
  obtain ⟨p, hp, hm, hrank⟩ := exists_rank_eq hlt
  exact ⟨p, Nat.le_of_lt_succ hp, hm, hrank⟩

section Advance

/-- Each marker on the index moves to the position of the index that comes `n` positions after. -/
def indexedAdvance (m : Stream) (n : ℕ) (s : Stream) : Stream := fun q ↦
  m q && (List.range (q + 1)).any fun p ↦ m p && s p && rank m p + n == rank m q

theorem indexedAdvance_iff : indexedAdvance m n s q = true ↔
    m q = true ∧ ∃ p, m p = true ∧ s p = true ∧ rank m p + n = rank m q := by
  simp only [indexedAdvance, Bool.and_eq_true, List.any_eq_true, List.mem_range, beq_iff_eq]
  constructor
  · rintro ⟨hq, p, -, ⟨hp, hs⟩, hrank⟩
    exact ⟨hq, p, hp, hs, hrank⟩
  · rintro ⟨hq, p, hp, hs, hrank⟩
    have hle : p ≤ q := le_of_rank_le hq (by omega)
    exact ⟨hq, p, Nat.lt_succ_of_le hle, ⟨hp, hs⟩, hrank⟩

theorem indexedAdvance_ones : indexedAdvance (fun _ ↦ true) n s = advance n s := by
  funext q
  apply Bool.eq_iff_iff.mpr
  rw [indexedAdvance_iff]
  simp only [rank_ones, true_and, advance]
  constructor
  · rintro ⟨p, hp, rfl⟩
    simpa using hp
  · intro h
    by_cases hq : q < n
    · simp [hq] at h
    · exact ⟨q - n, by simpa [hq] using h, by omega⟩

end Advance

section Runs

/-- At `q` a run of `n` positions of the index ends that are all in the class. -/
def EndsRun (m c : Stream) (n q : ℕ) : Prop :=
  m q = true ∧ n ≤ rank m q + 1 ∧ ∀ p, m p = true → p ≤ q → rank m q < rank m p + n → c p = true

theorem endsRun_one (hc : ∀ p, c p = true → m p = true) : EndsRun m c 1 q ↔ c q = true := by
  constructor
  · rintro ⟨hq, -, hall⟩
    exact hall q hq le_rfl (Nat.lt_succ_self _)
  · intro h
    refine ⟨hc q h, by omega, fun p hp hpq hrank ↦ ?_⟩
    have hmono := rank_mono m hpq
    rwa [rank_inj hp (hc q h) (by omega)]

/-- A run is lengthened by one that ends not more than its length before. -/
theorem endsRun_add (hij : i ≤ j) : EndsRun m c (j + i) q ↔
    EndsRun m c j q ∧ ∃ p, m p = true ∧ EndsRun m c j p ∧ rank m p + i = rank m q := by
  constructor
  · rintro ⟨hq, hlen, hall⟩
    rcases Nat.eq_zero_or_pos j with hj | hj
    · obtain rfl : i = 0 := by omega
      subst hj
      exact ⟨⟨hq, hlen, hall⟩, q, hq, ⟨hq, hlen, hall⟩, rfl⟩
    · obtain ⟨p, hpq, hp, hrank⟩ := exists_back hq (r := rank m q - i) (by omega)
      refine ⟨⟨hq, by omega, fun r hr hrq hlt ↦ hall r hr hrq (by omega)⟩, p, hp,
        ⟨hp, by omega, fun r hr hrp hlt ↦ hall r hr (hrp.trans hpq) (by omega)⟩, by omega⟩
  · rintro ⟨⟨hq, hlen, hall⟩, p, hp, ⟨-, hlen', hall'⟩, hrank⟩
    refine ⟨hq, by omega, fun r hr hrq hlt ↦ ?_⟩
    by_cases hnear : rank m q < rank m r + j
    · exact hall r hr hrq hnear
    · exact hall' r hr (le_of_rank_le hp (by omega)) (by omega)

end Runs

section Reach

/-- A marker on the index stands at most `n` of its positions before. -/
def Reached (m s : Stream) (n q : ℕ) : Prop :=
  m q = true ∧ ∃ p, m p = true ∧ s p = true ∧ rank m p ≤ rank m q ∧ rank m q ≤ rank m p + n

theorem reached_zero (hs : ∀ p, s p = true → m p = true) : Reached m s 0 q ↔ s q = true := by
  constructor
  · rintro ⟨hq, p, hp, hsp, h1, h2⟩
    rwa [← rank_inj hp hq (by omega)]
  · intro h
    exact ⟨hs q h, q, hs q h, h, le_rfl, le_rfl⟩

theorem reached_add (hij : i ≤ j + 1) : Reached m s (j + i) q ↔
    Reached m s j q ∨ m q = true ∧ ∃ p, m p = true ∧ Reached m s j p ∧ rank m p + i = rank m q := by
  constructor
  · rintro ⟨hq, p, hp, hsp, hle, hge⟩
    by_cases hnear : rank m q ≤ rank m p + j
    · exact .inl ⟨hq, p, hp, hsp, hle, hnear⟩
    · obtain ⟨r, -, hr, hrank⟩ := exists_back hq (r := rank m q - i) (by omega)
      exact .inr ⟨hq, r, hr, ⟨hr, p, hp, hsp, by omega, by omega⟩, by omega⟩
  · rintro (⟨hq, p, hp, hsp, hle, hge⟩ | ⟨hq, r, hr, ⟨-, p, hp, hsp, hle, hge⟩, hrank⟩)
    · exact ⟨hq, p, hp, hsp, hle, by omega⟩
    · exact ⟨hq, p, hp, hsp, by omega, by omega⟩

theorem reached_ones : Reached (fun _ ↦ true) s n q ↔ ∃ p ≤ q, s p = true ∧ q ≤ p + n := by
  simp only [Reached, rank_ones, true_and]
  constructor
  · rintro ⟨p, hs, hle, hge⟩
    exact ⟨p, hle, hs, hge⟩
  · rintro ⟨p, hle, hs, hge⟩
    exact ⟨p, hs, hle, hge⟩

/-- What is reached within `j` positions, and its advance by not more than is covered with it. -/
theorem or_advance_reached (hij : i ≤ j + 1)
    (hc : ∀ q, c q = true ↔ Reached (fun _ ↦ true) s j q) (q : ℕ) :
    (c q || advance i c q) = true ↔ Reached (fun _ ↦ true) s (j + i) q := by
  have hadv : advance i c q = true ↔ ∃ p, c p = true ∧ p + i = q := by
    have h := @indexedAdvance_iff (fun _ ↦ true) c q i
    simpa [indexedAdvance_ones] using h
  rw [Bool.or_eq_true, reached_add hij, hadv]
  simp only [hc, rank_ones, true_and]

end Reach

section Star

/-- Whether a marker is carried into a position through a class. -/
def carriedThrough (s c : Stream) : Stream
  | 0 => false
  | q + 1 => c q && (s q || carriedThrough s c q)

/-- All positions from a marker up to the first one behind it that is not in the class. -/
def matchStar (s c : Stream) : Stream := fun q ↦ s q || carriedThrough s c q

/-- Each marker moves to the first position of the stream at or after it. -/
def scanTo (s m : Stream) : Stream := fun q ↦ m q && matchStar s (fun p ↦ !m p) q

theorem matchStar_iff_exists : matchStar s c q = true ↔
    ∃ p ≤ q, s p = true ∧ ∀ j, p ≤ j → j < q → c j = true := by
  induction q with
  | zero => simp [matchStar, carriedThrough]
  | succ q ih =>
    have hsucc : matchStar s c (q + 1) = true ↔
        s (q + 1) = true ∨ c q = true ∧ matchStar s c q = true := by
      simp [matchStar, carriedThrough]
    rw [hsucc, ih]
    constructor
    · rintro (h | ⟨hc, p, hp, hs, hall⟩)
      · exact ⟨q + 1, le_rfl, h, fun j h1 h2 ↦ absurd h2 (by omega)⟩
      · refine ⟨p, Nat.le_succ_of_le hp, hs, fun j h1 h2 ↦ ?_⟩
        rcases Nat.lt_succ_iff_lt_or_eq.mp h2 with hlt | rfl
        · exact hall j h1 hlt
        · exact hc
    · rintro ⟨p, hp, hs, hall⟩
      rcases Nat.le_succ_iff.mp hp with hle | rfl
      · exact .inr ⟨hall q hle (Nat.lt_succ_self q), p, hle, hs,
          fun j h1 h2 ↦ hall j h1 (Nat.lt_succ_of_lt h2)⟩
      · exact .inl hs

end Star

section Runs

variable {x : Stream} {a b n : ℕ}

/-- The run of a stream in which a position is begins at `a`. -/
structure RunFrom (m : Stream) (a p : ℕ) : Prop where
  le : a ≤ p
  ones : ∀ j, a ≤ j → j ≤ p → m j = true
  first : 0 < a → m (a - 1) = false

theorem exists_runFrom (hp : m p = true) : ∃ a, RunFrom m a p := by
  induction p with
  | zero =>
    refine ⟨0, le_rfl, fun j _ hj ↦ ?_, fun h ↦ absurd h (Nat.lt_irrefl 0)⟩
    rwa [Nat.le_zero.1 hj]
  | succ p ih =>
    cases hm : m p with
    | true =>
      obtain ⟨a, hle, hones, hfirst⟩ := ih hm
      refine ⟨a, Nat.le_succ_of_le hle, fun j hj hjp ↦ ?_, hfirst⟩
      rcases Nat.le_succ_iff.1 hjp with hlt | rfl
      · exact hones j hj hlt
      · exact hp
    | false =>
      refine ⟨p + 1, le_rfl, fun j hj hjp ↦ ?_, fun _ ↦ hm⟩
      rwa [Nat.le_antisymm hjp hj]

theorem RunFrom.start_le (h : RunFrom m a p) (hb : RunFrom m b p) : b ≤ a := by
  by_contra hlt
  have hzero := hb.first (by omega)
  rw [h.ones _ (by omega) (by have := hb.le; omega)] at hzero
  exact absurd hzero Bool.noConfusion

theorem RunFrom.start_eq (h : RunFrom m a p) (hb : RunFrom m b p) : a = b :=
  Nat.le_antisymm (hb.start_le h) (h.start_le hb)

theorem RunFrom.self (h : RunFrom m a p) : m p = true := h.ones p h.le le_rfl

theorem RunFrom.earlier (h : RunFrom m a p) (hq : a ≤ q) (hqp : q ≤ p) : RunFrom m a q :=
  ⟨hq, fun j hj hjq ↦ h.ones j hj (hjq.trans hqp), h.first⟩

/-- The positions of runs that are at least `b` behind their starts. -/
def Beyond (m : Stream) (b p : ℕ) : Prop := ∃ a, RunFrom m a p ∧ b ≤ p - a

theorem RunFrom.beyond_iff (h : RunFrom m a p) : Beyond m b p ↔ b ≤ p - a := by
  constructor
  · rintro ⟨a', ha', hle⟩
    rwa [h.start_eq ha']
  · intro hle
    exact ⟨a, h, hle⟩

theorem beyond_zero_iff : Beyond m 0 p ↔ m p = true := by
  constructor
  · rintro ⟨a, h, -⟩
    exact h.self
  · intro h
    obtain ⟨a, ha⟩ := exists_runFrom h
    exact ⟨a, ha, Nat.zero_le _⟩

/-- What is in the stream and in its advance is as much further from the starts. -/
theorem beyond_add (hn : n ≤ b + 1) (hx : ∀ p, x p = true ↔ Beyond m b p) (p : ℕ) :
    (x p && advance n x p) = true ↔ Beyond m (b + n) p := by
  rw [Bool.and_eq_true, hx, advance]
  constructor
  · rintro ⟨⟨a, ha, hle⟩, hback⟩
    by_cases hlt : p < n
    · rw [if_pos hlt] at hback
      exact absurd hback Bool.false_ne_true
    rw [if_neg hlt, hx] at hback
    obtain ⟨c, hc, hfar⟩ := hback
    have hap := ha.le
    have hin : a ≤ p - n := by
      by_contra hout
      have hzero := ha.first (by omega)
      rw [show a - 1 = p - n by omega, hc.self] at hzero
      exact absurd hzero Bool.noConfusion
    have hsame := (ha.earlier hin (Nat.sub_le p n)).start_eq hc
    exact ⟨a, ha, by omega⟩
  · rintro ⟨a, ha, hle⟩
    have hap := ha.le
    refine ⟨⟨a, ha, by omega⟩, ?_⟩
    rcases Nat.eq_zero_or_pos n with rfl | hpos
    · rw [if_neg (Nat.not_lt_zero p), Nat.sub_zero, hx]
      exact ⟨a, ha, by omega⟩
    · rw [if_neg (by omega), hx]
      exact ⟨a, ha.earlier (by omega) (Nat.sub_le p n), by omega⟩

end Runs

end Parabix.Library.BitStream
