import Parabix.Library.IndexedRun

/-!
Repeated steps of markers that are counted in positions of an index.
-/

namespace Parabix.Library.BitStream

def single (p : ℕ) : Stream := fun q ↦ q == p

/-- What becomes of a stream is found from one bit at a time. -/
def Additive (f : Stream → Stream) : Prop :=
  ∀ s q, f s q = true ↔ ∃ p, s p = true ∧ f (single p) q = true

variable {f g : Stream → Stream} {s t m : Stream} {p q n : ℕ}

section Additive

theorem single_iff : single p q = true ↔ q = p := beq_iff_eq

theorem additive_id : Additive id := by
  intro s q
  constructor
  · intro h
    exact ⟨q, h, single_iff.2 rfl⟩
  · intro h
    obtain ⟨p, hp, hq⟩ := h
    rwa [id_eq, single_iff.1 hq]

theorem Additive.of_rel {R : ℕ → ℕ → Prop} (h : ∀ s q, f s q = true ↔ ∃ p, s p = true ∧ R p q) :
    Additive f := by
  intro s q
  rw [h]
  refine exists_congr fun p ↦ and_congr_right fun _ ↦ ?_
  rw [h]
  constructor
  · intro hr
    exact ⟨p, single_iff.2 rfl, hr⟩
  · intro hr
    obtain ⟨i, hi, hr⟩ := hr
    rwa [← single_iff.1 hi]

theorem Additive.comp (hg : Additive g) (hf : Additive f) : Additive (g ∘ f) := by
  apply Additive.of_rel (R := fun p q ↦ g (f (single p)) q = true)
  intro s q
  rw [Function.comp_apply, hg]
  constructor
  · intro h
    obtain ⟨i, hi, hq⟩ := h
    obtain ⟨p, hp, hpi⟩ := (hf s i).1 hi
    exact ⟨p, hp, (hg _ q).2 ⟨i, hpi, hq⟩⟩
  · intro h
    obtain ⟨p, hp, hq⟩ := h
    obtain ⟨i, hi, hq⟩ := (hg _ q).1 hq
    exact ⟨i, (hf s i).2 ⟨p, hp, hi⟩, hq⟩

theorem Additive.iterate (hf : Additive f) (n : ℕ) : Additive f^[n] := by
  induction n with
  | zero => exact additive_id
  | succ n ih => exact ih.comp hf

theorem Additive.or (hf : Additive f) (hg : Additive g) : Additive fun s p ↦ f s p || g s p := by
  apply Additive.of_rel (R := fun p q ↦ f (single p) q = true ∨ g (single p) q = true)
  intro s q
  rw [Bool.or_eq_true, hf, hg, ← exists_or]
  exact exists_congr fun p ↦ and_or_left.symm

theorem Additive.and (hf : Additive f) (t : Stream) : Additive fun s p ↦ f s p && t p := by
  apply Additive.of_rel (R := fun p q ↦ f (single p) q = true ∧ t q = true)
  intro s q
  rw [Bool.and_eq_true, hf, ← exists_and_right]
  exact exists_congr fun p ↦ and_assoc

theorem Additive.apply_zeroes (hf : Additive f) : f (fun _ ↦ false) = fun _ ↦ false := by
  funext q
  rw [Bool.eq_false_iff]
  intro h
  obtain ⟨p, hp, -⟩ := (hf _ q).1 h
  cases hp

theorem Additive.apply_or (hf : Additive f) :
    f (fun p ↦ s p || t p) q = true ↔ f s q = true ∨ f t q = true := by
  rw [hf, hf s, hf t, ← exists_or]
  refine exists_congr fun p ↦ ?_
  rw [Bool.or_eq_true, or_and_right]

theorem Additive.mono (hf : Additive f) (h : ∀ p, s p = true → t p = true) (hq : f s q = true) :
    f t q = true := by
  obtain ⟨p, hp, hpq⟩ := (hf s q).1 hq
  exact (hf t q).2 ⟨p, h p hp, hpq⟩

/-- Steps that may be left out. -/
theorem Additive.iterate_or (hf : Additive f) {n : ℕ} :
    (fun s p ↦ f s p || s p)^[n] s q = true ↔ ∃ k ≤ n, f^[k] s q = true := by
  induction n generalizing q with
  | zero => simp
  | succ n ih =>
    simp only [Function.iterate_succ_apply', Bool.or_eq_true]
    rw [hf, ih]
    constructor
    · intro h
      rcases h with h | h
      · obtain ⟨p, hp, hq⟩ := h
        obtain ⟨k, hk, hp⟩ := ih.1 hp
        refine ⟨k + 1, by omega, ?_⟩
        rw [Function.iterate_succ_apply', hf]
        exact ⟨p, hp, hq⟩
      · obtain ⟨k, hk, hq⟩ := h
        exact ⟨k, by omega, hq⟩
    · intro h
      obtain ⟨k, hk, hq⟩ := h
      rcases Nat.eq_or_lt_of_le hk with rfl | hlt
      · rw [Function.iterate_succ_apply', hf] at hq
        obtain ⟨p, hp, hq⟩ := hq
        exact .inl ⟨p, ih.2 ⟨n, le_rfl, hp⟩, hq⟩
      · exact .inr ⟨k, by omega, hq⟩

end Additive

/-- Each marker on the index goes on to the next position of the index, or ends. -/
structure Counted (m : Stream) (f : Stream → Stream) : Prop where
  additive : Additive f
  step : ∀ p q, m p = true → f (single p) q = true → m q = true ∧ rank m p + 1 = rank m q

section Counted

variable (h : Counted m f) (hs : ∀ p, s p = true → m p = true)

include h hs

theorem Counted.index_iterate (n : ℕ) (hq : f^[n] s q = true) : m q = true := by
  induction n generalizing q with
  | zero => exact hs q hq
  | succ n ih =>
    rw [Function.iterate_succ_apply', h.additive] at hq
    obtain ⟨p, hp, hq⟩ := hq
    exact (h.step p q (ih hp) hq).1

/-- A run of steps ends where all positions of the index since its beginning are the ends of
steps. -/
theorem Counted.iterate_iff : f^[n] s q = true ↔ m q = true ∧
    (∃ p, m p = true ∧ s p = true ∧ rank m p + n = rank m q) ∧
      ∀ r, m r = true → r ≤ q → rank m q < rank m r + n → f m r = true := by
  induction n generalizing q with
  | zero =>
    constructor
    · intro hq
      refine ⟨hs q hq, ⟨q, hs q hq, hq, rfl⟩, fun r _ hrq hlt ↦ ?_⟩
      have hmono := rank_mono m hrq
      omega
    · intro hq
      obtain ⟨hq, ⟨p, hp, hsp, hrank⟩, -⟩ := hq
      rwa [← rank_inj hp hq hrank]
  | succ n ih =>
    rw [Function.iterate_succ_apply', h.additive]
    constructor
    · intro hq
      obtain ⟨p, hp, hq⟩ := hq
      obtain ⟨hmp, ⟨a, ha, hsa, hrank⟩, hall⟩ := ih.1 hp
      obtain ⟨hmq, hnext⟩ := h.step p q hmp hq
      refine ⟨hmq, ⟨a, ha, hsa, by omega⟩, fun r hr hrq hlt ↦ ?_⟩
      rcases Nat.eq_or_lt_of_le hrq with rfl | hbefore
      · exact (h.additive m r).2 ⟨p, hmp, hq⟩
      · have hstrict := rank_lt_of_true hr hbefore
        exact hall r hr (le_of_rank_le hmp (by omega)) (by omega)
    · intro hq
      obtain ⟨hmq, ⟨a, ha, hsa, hrank⟩, hall⟩ := hq
      obtain ⟨p, hmp, hstep⟩ := (h.additive m q).1 (hall q hmq le_rfl (by omega))
      obtain ⟨-, hnext⟩ := h.step p q hmp hstep
      refine ⟨p, ih.2 ⟨hmp, ⟨a, ha, hsa, by omega⟩, fun r hr hrp hlt ↦ ?_⟩, hstep⟩
      have hmono := rank_mono m hrp
      exact hall r hr (le_of_rank_le hmq (by omega)) (by omega)

/-- A number of steps is found by an advance and a run that ends there. -/
theorem Counted.advance_iff : f^[n] s q = true ↔
    indexedAdvance m n s q = true ∧ EndsRun m (f m) n q := by
  rw [h.iterate_iff hs, indexedAdvance_iff, EndsRun]
  constructor
  · intro hq
    obtain ⟨hq, hbegin, hall⟩ := hq
    obtain ⟨p, hp, hsp, hrank⟩ := hbegin
    exact ⟨⟨hq, p, hp, hsp, hrank⟩, hq, by omega, hall⟩
  · intro hq
    obtain ⟨⟨hq, hbegin⟩, -, -, hall⟩ := hq
    exact ⟨hq, hbegin, hall⟩

/-- All runs of at most `n` steps are found by one that goes from end to end as long as the
positions of the index are within reach. -/
theorem Counted.star_iff {reach masked fill : Stream}
    (hreach : ∀ q, reach q = true ↔ Reached m s n q)
    (hmasked : ∀ q, masked q = true ↔ (f m q = true ∨ s q = true) ∧ reach q = true)
    (hfill : ∀ q, fill q = true ↔ masked q = true ∨ m q = false) :
    matchStar s fill q = true ∧ masked q = true ↔ ∃ k ≤ n, f^[k] s q = true := by
  constructor
  · intro hq
    obtain ⟨hstar, hmask⟩ := hq
    obtain ⟨p, hpq, hsp, hall⟩ := matchStar_iff_exists.1 hstar
    -- The last marker before the end.
    obtain ⟨b, ⟨hbq, hsb⟩, hmax⟩ : ∃ b, (b ≤ q ∧ s b = true) ∧ ∀ i, i ≤ q ∧ s i = true → i ≤ b := by
      classical
      have hfound : ∃ i ≤ q, s i = true := ⟨p, hpq, hsp⟩
      refine ⟨Nat.findGreatest (fun i ↦ s i = true) q, ⟨Nat.findGreatest_le q, ?_⟩, fun i hi ↦ ?_⟩
      · exact Nat.findGreatest_spec (P := fun i ↦ s i = true) hpq hsp
      · exact Nat.le_findGreatest hi.1 hi.2
    have hpb := hmax p ⟨hpq, hsp⟩
    obtain ⟨hends, hwithin⟩ := (hmasked q).1 hmask
    obtain ⟨hmq, a, hma, hsa, hle, hge⟩ := (hreach q).1 hwithin
    have hab := hmax a ⟨le_of_rank_le hmq hle, hsa⟩
    have hnear := rank_mono m hab
    have hbefore := rank_mono m hbq
    refine ⟨rank m q - rank m b, by omega, (h.iterate_iff hs).2 ⟨hmq, ⟨b, hs b hsb, hsb, by omega⟩,
      fun r hr hrq hlt ↦ ?_⟩⟩
    have hbr : b < r := lt_of_rank_lt (m := m) (by omega)
    have hmark : masked r = true := by
      rcases Nat.eq_or_lt_of_le hrq with rfl | hrq
      · exact hmask
      · exact ((hfill r).1 (hall r (by omega) hrq)).resolve_right fun hfalse ↦ by
          rw [hr] at hfalse
          cases hfalse
    refine ((hmasked r).1 hmark).1.resolve_right fun hsr ↦ ?_
    have hlast := hmax r ⟨hrq, hsr⟩
    omega
  · intro hq
    obtain ⟨k, hk, hq⟩ := hq
    obtain ⟨hmq, ⟨p, hp, hsp, hrank⟩, hall⟩ := (h.iterate_iff hs).1 hq
    have hpq : p ≤ q := le_of_rank_le hmq (by omega)
    have hmark (r : ℕ) (hr : m r = true) (hpr : p ≤ r) (hrq : r ≤ q) : masked r = true := by
      have hafter := rank_mono m hpr
      have hbefore := rank_mono m hrq
      refine (hmasked r).2 ⟨?_, (hreach r).2 ⟨hr, p, hp, hsp, hafter, by omega⟩⟩
      rcases Nat.eq_or_lt_of_le hpr with rfl | hlt
      · exact .inr hsp
      · have hstrict := rank_lt_of_true hp hlt
        exact .inl (hall r hr hrq (by omega))
    refine ⟨matchStar_iff_exists.2 ⟨p, hpq, hsp, fun j hpj hjq ↦ (hfill j).2 ?_⟩,
      hmark q hmq hpq le_rfl⟩
    cases hj : m j with
    | false => exact .inr rfl
    | true => exact .inl (hmark j hj hpj hjq.le)

end Counted

end Parabix.Library.BitStream
