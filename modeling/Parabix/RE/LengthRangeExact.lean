import Parabix.RE.LengthRange

namespace Parabix.RE.Expression

open Library Library.Powers Library.Encoding Library.UTF8 UCD
open Memoization (PropertyKind Mode GroupSense)

section Bounds

variable {x y : Language ℕ} {a b c : ℤ} {w : List ℕ} {n k : ℕ} {s : Set ℕ} {rg rg' : ℤ × ℤ}

/-- The least length of the strings of a language. -/
structure Shortest (x : Language ℕ) (n : ℤ) : Prop where
  nonneg : 0 ≤ n
  le : n ≤ INT_MAX
  within : ∀ w ∈ x, n ≤ (w.length : ℤ)

theorem Shortest.mono (hy : Shortest y a) (h : x ≤ y) : Shortest x a :=
  ⟨hy.nonneg, hy.le, fun w hw ↦ hy.within w (h hw)⟩

theorem Shortest.of_le (hx : Shortest x b) (ha : 0 ≤ a) (h : a ≤ b) : Shortest x a :=
  ⟨ha, h.trans hx.le, fun w hw ↦ h.trans (hx.within w hw)⟩

theorem Shortest.zero : Shortest x 0 := ⟨le_rfl, by decide, fun _ _ ↦ Int.natCast_nonneg _⟩

theorem Shortest.bot : Shortest ⊥ INT_MAX :=
  ⟨by decide, le_rfl, fun _ hw ↦ absurd hw not_mem_bot⟩

theorem Shortest.sup (hx : Shortest x a) (hy : Shortest y b) : Shortest (x ⊔ y) (min a b) := by
  refine ⟨le_min hx.nonneg hy.nonneg, (min_le_left a b).trans hx.le, fun w hw ↦ ?_⟩
  rcases hw with hw | hw
  · exact (min_le_left a b).trans (hx.within w hw)
  · exact (min_le_right a b).trans (hy.within w hw)

theorem Shortest.inf (hx : Shortest x a) (hy : Shortest y b) : Shortest (x ⊓ y) (max a b) :=
  ⟨hx.nonneg.trans (le_max_left a b), max_le hx.le hy.le,
    fun w hw ↦ max_le (hx.within w hw.1) (hy.within w hw.2)⟩

theorem Shortest.mul (hx : Shortest x a) (hy : Shortest y b) (hc : 0 ≤ c) (hle : c ≤ INT_MAX)
    (hab : c ≤ a + b) : Shortest (x * y) c := by
  refine ⟨hc, hle, fun w hw ↦ ?_⟩
  obtain ⟨u, hu, v, hv, rfl⟩ := Language.mem_mul.1 hw
  have hlu := hx.within u hu
  have hlv := hy.within v hv
  rw [List.length_append]
  push_cast
  omega

theorem Shortest.add (hx : Shortest x a) (hy : Shortest y b) :
    Shortest (x * y) (addLength a b) := by
  have ha := hx.nonneg
  have hb := hy.nonneg
  have hmax : (0 : ℤ) ≤ INT_MAX := by decide
  unfold addLength
  split_ifs with hlt
  · exact hx.mul hy (by omega) (by omega) le_rfl
  · exact hx.mul hy hmax le_rfl (by omega)

theorem le_length_of_mem_pow (hx : ∀ v ∈ x, k ≤ v.length) (h : w ∈ x ^ n) : n * k ≤ w.length := by
  induction n generalizing w with
  | zero => exact (Nat.zero_mul k).trans_le (Nat.zero_le _)
  | succ n ih =>
    rw [pow_succ'] at h
    obtain ⟨u, hu, v, hv, rfl⟩ := Language.mem_mul.1 h
    have hlu := hx u hu
    have hlv := ih hv
    rw [List.length_append, Nat.succ_mul]
    omega

theorem Shortest.powers (hx : Shortest x a) (hc : 0 ≤ c) (hle : c ≤ INT_MAX)
    (h : ∀ n ∈ s, c ≤ n * a) : Shortest (powers x s) c := by
  refine ⟨hc, hle, fun w hw ↦ ?_⟩
  obtain ⟨n, hn, hw⟩ := WithoutEmpty.mem_powers.1 hw
  have ha := hx.nonneg
  have hlen : n * a.toNat ≤ w.length := by
    refine le_length_of_mem_pow (fun v hv ↦ ?_) hw
    have hle := hx.within v hv
    omega
  have hcast : ((n * a.toNat : ℕ) : ℤ) = n * a := by
    push_cast
    rw [Int.toNat_of_nonneg ha]
  have hbound := h n hn
  omega

theorem Shortest.times {lb ub : ℤ} (hb : Bounds lb ub) (hx : Shortest x a)
    (h : lb * a ≤ INT_MAX) : Shortest (Powers.powers x (counts lb ub)) (lb * a) :=
  hx.powers (Int.mul_nonneg hb.nonneg hx.nonneg) h fun _ hn ↦
    Int.mul_le_mul_of_nonneg_right hn.1 hx.nonneg

theorem Shortest.rep {lb ub first : ℤ} (hb : Bounds lb ub) (hx : Shortest x a)
    (hzero : lb = 0 → a ≠ INT_MAX) (h : repeatLength a lb = .ok first) :
    Shortest (Powers.powers x (counts lb ub)) first := by
  have hnonneg := hb.nonneg
  unfold repeatLength at h
  split_ifs at h with hbounded
  · obtain ⟨rfl, hle⟩ := mulInt_eq h
    rw [mul_comm] at hle ⊢
    exact hx.times hb hle
  · obtain rfl := Except.ok.inj h
    have hunbounded : lb ≠ UNBOUNDED_REP := fun h ↦ absurd (h ▸ hnonneg) (by decide)
    have ha : a = INT_MAX := le_antisymm hx.le (not_lt.1 fun hlt ↦ hbounded ⟨hunbounded, hlt⟩)
    have hlb : 1 ≤ lb := by
      have hne : lb ≠ 0 := fun h0 ↦ hzero h0 ha
      omega
    refine hx.powers (by decide) le_rfl fun n hn ↦ ?_
    have hn1 : (1 : ℤ) ≤ n := hlb.trans hn.1
    rw [ha]
    exact (one_mul INT_MAX).ge.trans (Int.mul_le_mul_of_nonneg_right hn1 (by decide))

/-- The lengths of a language are within a range. -/
structure Lengths (x : Language ℕ) (rg : ℤ × ℤ) : Prop where
  shortest : Shortest x rg.1
  longest : Longest x rg.2

theorem Lengths.mono (hy : Lengths y rg) (h : x ≤ y) : Lengths x rg :=
  ⟨hy.shortest.mono h, hy.longest.mono h⟩

theorem Lengths.of_le_one (h : x ≤ 1) : Lengths x (0, 0) := ⟨.zero, .of_le_one h⟩

theorem Lengths.greatest : Lengths x (0, INT_MAX) := ⟨.zero, .greatest⟩

theorem Lengths.inf (hx : Lengths x rg) (hy : Lengths y rg') :
    Lengths (x ⊓ y) (max rg.1 rg'.1, min rg.2 rg'.2) := by
  refine ⟨hx.shortest.inf hy.shortest, ?_⟩
  rcases Int.le_total rg.2 rg'.2 with hle | hle
  · simp only [min_eq_left hle]
    exact hx.longest.mono inf_le_left
  · simp only [min_eq_right hle]
    exact hy.longest.mono inf_le_right

theorem Lengths.of_between (lo hi : ℕ) (hlo : lo ≤ 4) (hhi : hi ≤ 4)
    (h : ∀ w ∈ x, lo ≤ w.length ∧ w.length ≤ hi) : Lengths x (lo, hi) := by
  have hmax : (4 : ℤ) ≤ INT_MAX := by decide
  refine ⟨⟨by omega, by omega, fun w hw ↦ ?_⟩, ⟨by omega, by omega, fun w hw ↦ .inr ?_⟩⟩
  · exact Int.ofNat_le.2 (h w hw).1
  · exact Int.ofNat_le.2 (h w hw).2

theorem Lengths.one (h : ∀ w ∈ x, w.length = 1) : Lengths x (1, 1) :=
  .of_between 1 1 (by decide) (by decide) fun w hw ↦ ⟨(h w hw).ge, (h w hw).le⟩

theorem Lengths.pos (h : ∀ w ∈ x, 1 ≤ w.length) : Lengths x (1, INT_MAX) :=
  ⟨⟨by decide, by decide, fun w hw ↦ Int.ofNat_le.2 (h w hw)⟩, .greatest⟩

theorem Lengths.character {index alphabet : ℕ} (hpos : ∀ w ∈ x, 1 ≤ w.length)
    (hsame : index = alphabet → ∀ w ∈ x, w.length = 1)
    (hutf8 : index = UTF8 → ∀ w ∈ x, w.length ≤ 4) :
    Lengths x (characterLengthRange index alphabet) := by
  unfold characterLengthRange
  split_ifs with hindex hutf
  · exact .one (hsame hindex)
  · exact .of_between 1 4 (by decide) (by decide) fun w hw ↦
      ⟨hpos w hw, hutf8 hutf w hw⟩
  · exact .pos hpos

end Bounds

section Exact

variable {A : Alphabets} {index : ℕ} {M : Interpretation (Language ℕ)} {e x y : Expression}
variable {elems : List Expression} {rg : ℤ × ℤ} {c : CC}

theorem Inspects.trans (h : Inspects index e x) (hx : Inspects index x y) : Inspects index e y := by
  induction h with
  | self => exact hx
  | alt he _ ih => exact .alt he (ih hx)
  | capture n _ ih => exact .capture n (ih hx)
  | diff rh _ ih => exact .diff rh (ih hx)
  | intersect_left rh _ ih => exact .intersect_left rh (ih hx)
  | intersect_right lh _ ih => exact .intersect_right lh (ih hx)
  | name n _ ih => exact .name n (ih hx)
  | property n hindex _ ih => exact .property n hindex (ih hx)
  | reference n i _ ih => exact .reference n i (ih hx)
  | rep lb ub _ ih => exact .rep lb ub (ih hx)
  | seq he _ ih => exact .seq he (ih hx)

theorem Inspects.valid (h : Inspects index e x) (hv : e.Valid) : x.Valid := by
  induction h with
  | self => exact hv
  | alt he _ ih =>
    cases hv with
    | alt hv => exact ih (hv _ he)
  | capture n _ ih =>
    cases hv with
    | capture _ hv => exact ih hv
  | diff rh _ ih =>
    cases hv with
    | diff hl _ => exact ih hl
  | intersect_left rh _ ih =>
    cases hv with
    | intersect hl _ => exact ih hl
  | intersect_right lh _ ih =>
    cases hv with
    | intersect _ hr => exact ih hr
  | name n _ ih =>
    cases hv with
    | name _ hv => exact ih (hv _ rfl)
  | property n _ _ ih =>
    cases hv with
    | propertyExpression _ _ hv => exact ih (hv _ rfl)
  | reference n i _ ih =>
    cases hv with
    | reference _ _ hv => exact ih hv
  | rep lb ub _ ih =>
    cases hv with
    | rep hv _ => exact ih hv
  | seq he _ ih =>
    cases hv with
    | seq hv => exact ih (hv _ he)

/-- The range is computed and holds the lengths. -/
def Ranged (A : Alphabets) (index : ℕ) (M : Interpretation (Language ℕ)) (e : Expression) : Prop :=
  ∃ rg, getLengthRange A index e = .ok rg ∧ Lengths (denote M e) rg

theorem Ranged.right (h : Ranged A index M e) : RangeRight A index M e := by
  obtain ⟨rg, hrg, hlengths⟩ := h
  exact ⟨rg, hrg, fun w hw ↦ ⟨hlengths.shortest.within w hw, hlengths.longest.within w hw⟩⟩

theorem altLengthRange_lengths (h : ∀ e ∈ elems, Ranged A index M e) {x : Language ℕ}
    (hx : Lengths x rg) : ∃ rg', altLengthRange A index elems rg = .ok rg' ∧
      Lengths (x ⊔ denoteAlt M elems) rg' := by
  induction elems generalizing rg x with
  | nil =>
    refine ⟨rg, rfl, ?_⟩
    rwa [denoteAlt, sup_bot_eq]
  | cons e elems ih =>
    obtain ⟨⟨a_range, ha, hlengths⟩, helems⟩ := List.forall_mem_cons.1 h
    rw [altLengthRange, ha, ok_bind, denoteAlt, ← sup_assoc]
    exact ih helems ⟨hx.shortest.sup hlengths.shortest, hx.longest.sup hlengths.longest⟩

theorem seqLengthRange_lengths (h : ∀ e ∈ elems, Ranged A index M e) {x : Language ℕ}
    (hx : Lengths x rg) : ∃ rg', seqLengthRange A index elems rg = .ok rg' ∧
      Lengths (x * denoteSeq M elems) rg' := by
  induction elems generalizing rg x with
  | nil =>
    refine ⟨rg, rfl, ?_⟩
    rwa [denoteSeq, mul_one]
  | cons e elems ih =>
    obtain ⟨⟨tmp, htmp, hlengths⟩, helems⟩ := List.forall_mem_cons.1 h
    rw [seqLengthRange, htmp, ok_bind, denoteSeq, ← mul_assoc]
    exact ih helems ⟨hx.shortest.add hlengths.shortest, hx.longest.add hlengths.longest⟩

theorem repeatLength_eq_ok {length bound : ℤ} (h : RepeatFits length bound) :
    ∃ product, repeatLength length bound = .ok product := by
  unfold repeatLength
  split_ifs with hbounded
  · exact ⟨_, mulInt_ok (h hbounded.1 hbounded.2)⟩
  · exact ⟨_, rfl⟩

theorem repeatFits_of_eq_ok {length bound product : ℤ}
    (h : repeatLength length bound = .ok product) : RepeatFits length bound := by
  intro hbound hlength
  rw [repeatLength, if_pos ⟨hbound, hlength⟩] at h
  exact mulInt_eq_ok h

theorem ranged_rep {re : Expression} {lb ub : ℤ} (hb : Bounds lb ub) (h : Ranged A index M re)
    (hready : RangeReady A index M (rep re lb ub)) : Ranged A index M (rep re lb ub) := by
  obtain ⟨range, hrange, hlengths⟩ := h
  obtain ⟨hzero, hfits1, hfits2⟩ := hready range hrange
  obtain ⟨first, hfirst⟩ := repeatLength_eq_ok hfits1
  obtain ⟨second, hsecond⟩ := repeatLength_eq_ok hfits2
  refine ⟨(first, second), ?_, hlengths.shortest.rep hb hzero hfirst,
    hlengths.longest.rep hb hsecond⟩
  rw [getLengthRange, hrange, ok_bind, hfirst, ok_bind, hsecond, ok_bind, pure_eq_ok]

theorem ranged_cc (hM : Indexed A index M) (hc : c.set.WellFormed)
    (h : RangeReady A index M (cc c)) : Ranged A index M (cc c) := by
  unfold Ranged
  rw [getLengthRange, ccLengthRange, denote]
  split_ifs with hunit hsame hutf8
  · exact ⟨_, rfl, .one (hM.cc_unit _ (.inl hunit) _)⟩
  · exact ⟨_, rfl, .one (hM.cc_unit _ (.inr hsame) _)⟩
  · obtain ⟨first, last, hfirst, hlast, hmembers⟩ := front_back_spec hc
    rw [hfirst, ok_bind, hlast, ok_bind, encoded_length_eq, encoded_length_eq]
    refine ⟨_, rfl, .of_between _ _ (width_le _) (width_le _) fun w hw ↦ ?_⟩
    by_cases hunicode : c.alphabet = Unicode
    · rw [hunicode] at hw
      obtain ⟨x, hx, hlen⟩ := hM.cc_utf8 hutf8.1 _ w hw
      have hbetween := hmembers x hx
      rw [hlen]
      exact ⟨width_mono hbetween.1, width_mono hbetween.2⟩
    · rw [hutf8.2, Bool.not_eq_true] at hunit
      exact h hutf8.1 hunit hutf8.2 hunicode first last hfirst hlast w hw
  · exact ⟨_, rfl, .pos (hM.cc_pos _ _)⟩

theorem ranged (hM : Indexed A index M) (hv : e.Valid)
    (h : ∀ x, Inspects index e x → RangeReady A index M x) : Ranged A index M e := by
  induction hv with
  | @alt elems hvalid ih =>
    have hparts (e : Expression) (he : e ∈ elems) : Ranged A index M e :=
      ih e he fun x hx ↦ h x (.alt he hx)
    have hnone : Lengths ⊥ (INT_MAX, 0) := ⟨.bot, .of_le_one bot_le⟩
    obtain ⟨rg, hrg, hlengths⟩ := altLengthRange_lengths hparts hnone
    exact ⟨rg, hrg, by rwa [bot_sup_eq] at hlengths⟩
  | @seq elems hvalid ih =>
    have hparts (e : Expression) (he : e ∈ elems) : Ranged A index M e :=
      ih e he fun x hx ↦ h x (.seq he hx)
    obtain ⟨rg, hrg, hlengths⟩ := seqLengthRange_lengths hparts (.of_le_one (le_refl 1))
    exact ⟨rg, hrg, by rwa [one_mul] at hlengths⟩
  | @rep re lb ub hre hb ih =>
    exact ranged_rep hb (ih fun x hx ↦ h x (.rep lb ub hx)) (h _ (.self _))
  | assertion k s hvalid ih => exact ⟨(0, 0), rfl, .of_le_one (M.assertion_le _ _ _)⟩
  | start => exact ⟨(0, 0), rfl, .of_le_one M.start_le⟩
  | stop => exact ⟨(0, 0), rfl, .of_le_one M.stop_le⟩
  | @diff lh rh _ _ ihl _ =>
    obtain ⟨rg, hrg, hlengths⟩ := ihl fun x hx ↦ h x (.diff rh hx)
    rw [← getLengthRange_diff A index lh rh] at hrg
    exact ⟨rg, hrg, hlengths.mono sdiff_le⟩
  | @intersect lh rh _ _ ihl ihr =>
    obtain ⟨r1, hr1, hl⟩ := ihl fun x hx ↦ h x (.intersect_left rh hx)
    obtain ⟨r2, hr2, hr⟩ := ihr fun x hx ↦ h x (.intersect_right lh hx)
    refine ⟨_, ?_, hl.inf hr⟩
    rw [getLengthRange, hr1, ok_bind, hr2, ok_bind, pure_eq_ok]
  | cc hc => exact ranged_cc hM hc (h _ (.self _))
  | any alphabet =>
    refine ⟨_, rfl, .character (hM.any_pos alphabet) (fun hsame ↦ ?_) (hM.any_utf8 · alphabet)⟩
    exact hsame ▸ hM.any_same
  | @propertyExpression resolvedRE kind n _ ih =>
    have hself := h _ (.self _)
    cases kind with
    | Boundary =>
      refine ⟨(0, 0), by cases resolvedRE <;> rfl, .of_le_one ?_⟩
      cases resolvedRE with
      | none => exact hM.boundary n
      | some resolved => exact hself
    | Codepoint =>
      cases resolvedRE with
      | none =>
        exact ⟨_, rfl, .character (hM.codepoint_pos n) (hM.codepoint_unicode · n)
          (hM.codepoint_utf8 · n)⟩
      | some resolved =>
        unfold Ranged
        rw [getLengthRange, denote]
        split_ifs with hindex
        · exact ⟨_, rfl, .one (hself hindex)⟩
        · exact ih resolved rfl fun x hx ↦ h x (.property n hindex hx)
  | @name definition n _ ih =>
    cases definition with
    | none => exact ⟨_, rfl, .greatest⟩
    | some defn =>
      obtain ⟨rg, hrg, hlengths⟩ := ih defn rfl fun x hx ↦ h x (.name n hx)
      exact ⟨rg, hrg, hlengths⟩
  | capture n _ ih =>
    obtain ⟨rg, hrg, hlengths⟩ := ih fun x hx ↦ h x (.capture n hx)
    exact ⟨rg, hrg, hlengths⟩
  | reference n i _ ih =>
    obtain ⟨rg, hrg, hlengths⟩ := ih fun x hx ↦ h x (.reference n i hx)
    exact ⟨rg, hrg, hlengths.mono (M.reference_le n i _)⟩
  | group => exact ⟨_, rfl, .greatest⟩
  | range => exact ⟨_, rfl, .greatest⟩

theorem RangeRight.of_eq_ok (hM : RangeRight A index M e) (h : getLengthRange A index e = .ok rg) :
    ∀ w ∈ denote M e, rg.1 ≤ (w.length : ℤ) ∧ Within rg.2 w := by
  obtain ⟨rg', hrg', hright⟩ := hM
  obtain rfl := Except.ok.inj (hrg'.symm.trans h)
  exact hright

theorem rangeReady_rep {re : Expression} {lb ub : ℤ} (hb : Bounds lb ub)
    (h : RangeRight A index M (rep re lb ub)) : RangeReady A index M (rep re lb ub) := by
  intro range hrange
  obtain ⟨rg, hrg, hright⟩ := h
  rw [getLengthRange, hrange, ok_bind] at hrg
  obtain ⟨first, hfirst, hrg⟩ := bind_eq_ok.1 hrg
  obtain ⟨second, hsecond, hrg⟩ := bind_eq_ok.1 hrg
  obtain rfl := Except.ok.inj hrg
  refine ⟨fun hlb hmax ↦ ?_, repeatFits_of_eq_ok hfirst, repeatFits_of_eq_ok hsecond⟩
  subst hlb
  have hzero : 0 ∈ counts 0 ub := ⟨by decide, hb.le⟩
  have hnil : [] ∈ denote M (rep re 0 ub) := by
    rw [denote]
    have hone : 1 ≤ powers (denote M re) (counts 0 ub) := one_le_powers hzero
    exact hone rfl
  rw [hmax, repeatLength, if_neg fun h ↦ absurd h.2 (lt_irrefl _)] at hfirst
  obtain rfl := Except.ok.inj hfirst
  have hle : INT_MAX ≤ 0 := (hright [] hnil).1
  exact absurd hle (by decide)

theorem rangeReady_cc (h : RangeRight A index M (cc c)) :
    RangeReady A index M (cc c) := by
  intro hindex hunit hsource _ first last hfirst hlast w hw
  have hrange : getLengthRange A index (cc c) = .ok (width first.1, width last.2) := by
    rw [getLengthRange, ccLengthRange, hsource, hunit, hindex]
    rw [if_neg Bool.false_ne_true, if_neg (by decide), if_pos ⟨rfl, rfl⟩, hfirst, ok_bind, hlast,
      ok_bind, encoded_length_eq, encoded_length_eq, pure_eq_ok]
  obtain ⟨hlo, hhi⟩ := h.of_eq_ok hrange w (by rwa [denote])
  have hle : (width last.2 : ℤ) < INT_MAX :=
    (Int.ofNat_le.2 (width_le last.2)).trans_lt (by decide)
  exact ⟨Int.ofNat_le.1 hlo, Int.ofNat_le.1 (hhi.resolve_left hle.ne)⟩

theorem rangeReady_of_right (hv : e.Valid) (h : RangeRight A index M e) :
    RangeReady A index M e := by
  cases hv with
  | rep _ hb => exact rangeReady_rep hb h
  | cc => exact rangeReady_cc h
  | @propertyExpression resolvedRE kind n _ =>
    cases resolvedRE with
    | none => cases kind <;> trivial
    | some resolved =>
      cases kind with
      | Boundary =>
        intro w hw
        have hrange : getLengthRange A index (propertyExpression .Boundary n (some resolved)) =
            .ok (0, 0) := rfl
        have hle := (h.of_eq_ok hrange w hw).2.resolve_left (by decide)
        exact List.length_eq_zero_iff.1 (by omega)
      | Codepoint =>
        intro hindex w hw
        have hrange : getLengthRange A index (propertyExpression .Codepoint n (some resolved)) =
            .ok (1, 1) := by
          rw [getLengthRange, if_pos hindex]
        obtain ⟨hlo, hhi⟩ := h.of_eq_ok hrange w hw
        have hle := hhi.resolve_left (by decide)
        simp only at hlo hle
        omega
  | _ => trivial

theorem rangeRight_iff (hM : Indexed A index M) (hv : e.Valid) :
    (∀ x, Inspects index e x → RangeRight A index M x) ↔
      ∀ x, Inspects index e x → RangeReady A index M x := by
  constructor
  · exact fun h x hx ↦ rangeReady_of_right (hx.valid hv) (h x hx)
  · exact fun h x hx ↦ (ranged hM (hx.valid hv) fun y hy ↦ h y (hx.trans hy)).right

end Exact

section Least

variable {A : Alphabets} {index : ℕ} {M : Interpretation (Language ℕ)} {e x y : Expression}
variable {elems : List Expression} {n m : ℤ}

theorem altMinLength_shortest
    (h : ∀ e ∈ elems, ∀ n, minMatchLength e = .ok n → Shortest (denote M e) n) {x : Language ℕ}
    (hx : Shortest x n) (hm : altMinLength elems n = .ok m) :
    Shortest (x ⊔ denoteAlt M elems) m := by
  induction elems generalizing n x with
  | nil =>
    obtain rfl := Except.ok.inj hm
    rwa [denoteAlt, sup_bot_eq]
  | cons e elems ih =>
    obtain ⟨he, helems⟩ := List.forall_mem_cons.1 h
    rw [altMinLength] at hm
    obtain ⟨length, hlength, hm⟩ := bind_eq_ok.1 hm
    rw [denoteAlt, ← sup_assoc]
    exact ih helems (hx.sup (he length hlength)) hm

theorem addInt_eq {a b c : ℤ} (h : addInt a b = .ok c) : c = a + b ∧ c ≤ INT_MAX := by
  unfold addInt at h
  split_ifs at h with hfits
  obtain rfl := Except.ok.inj h
  exact ⟨rfl, Int.le_of_lt_add_one hfits.2⟩

theorem seqMinLength_shortest
    (h : ∀ e ∈ elems, ∀ n, minMatchLength e = .ok n → Shortest (denote M e) n) {x : Language ℕ}
    (hx : Shortest x n) (hm : seqMinLength elems n = .ok m) :
    Shortest (x * denoteSeq M elems) m := by
  induction elems generalizing n x with
  | nil =>
    obtain rfl := Except.ok.inj hm
    rwa [denoteSeq, mul_one]
  | cons e elems ih =>
    obtain ⟨he, helems⟩ := List.forall_mem_cons.1 h
    rw [seqMinLength] at hm
    obtain ⟨length, hlength, hm⟩ := bind_eq_ok.1 hm
    obtain ⟨total, htotal, hm⟩ := bind_eq_ok.1 hm
    obtain ⟨rfl, hle⟩ := addInt_eq htotal
    have hy := he length hlength
    rw [denoteSeq, ← mul_assoc]
    exact ih helems (hx.mul hy (Int.add_nonneg hx.nonneg hy.nonneg) hle le_rfl) hm

theorem Shortest.one {x : Language ℕ} (h : ∀ w ∈ x, 1 ≤ w.length) : Shortest x 1 :=
  ⟨by decide, by decide, fun w hw ↦ Int.ofNat_le.2 (h w hw)⟩

/-- Where the least length is computed, no match is shorter. -/
theorem minMatchLength_shortest (hM : Indexed A index M) (hv : e.Valid)
    (hn : minMatchLength e = .ok n) : Shortest (denote M e) n := by
  induction hv generalizing n with
  | @alt elems hvalid ih =>
    have hshortest := altMinLength_shortest (fun e he _ ↦ ih e he) (.bot) hn
    rwa [bot_sup_eq] at hshortest
  | @seq elems hvalid ih =>
    have hshortest := seqMinLength_shortest (fun e he _ ↦ ih e he) (.zero (x := 1)) hn
    rwa [one_mul] at hshortest
  | @rep re lb ub hre hb ih =>
    rw [minMatchLength] at hn
    split_ifs at hn
    · obtain rfl := Except.ok.inj hn
      exact .zero
    · obtain ⟨length, hlength, hn⟩ := bind_eq_ok.1 hn
      obtain ⟨rfl, hle⟩ := mulInt_eq hn
      exact (ih hlength).times hb hle
  | diff _ _ ihl _ => exact (ihl hn).mono sdiff_le
  | intersect _ _ ihl ihr =>
    rw [minMatchLength] at hn
    obtain ⟨l, hl, hn⟩ := bind_eq_ok.1 hn
    obtain ⟨r, hr, hn⟩ := bind_eq_ok.1 hn
    obtain rfl := Except.ok.inj hn
    have hleft := ihl hl
    exact (hleft.of_le (le_min hleft.nonneg (ihr hr).nonneg) (min_le_left l r)).mono inf_le_left
  | any alphabet =>
    obtain rfl := Except.ok.inj hn
    exact .one (hM.any_pos alphabet)
  | cc _ =>
    obtain rfl := Except.ok.inj hn
    exact .one (hM.cc_pos _ _)
  | @name definition _ _ ih =>
    cases definition with
    | none => cases hn
    | some defn => exact ih defn rfl hn
  | capture _ _ ih => exact ih hn
  | reference label i _ ih => exact (ih hn).mono (M.reference_le label i _)
  | _ =>
    obtain rfl := Except.ok.inj hn
    exact .zero

theorem altMinLength_eq_ok_iff :
    (∃ m, altMinLength elems n = .ok m) ↔ ∀ e ∈ elems, ∃ m, minMatchLength e = .ok m := by
  induction elems generalizing n with
  | nil => exact iff_of_true ⟨n, rfl⟩ (List.forall_mem_nil _)
  | cons e elems ih =>
    rw [altMinLength, List.forall_mem_cons]
    constructor
    · rintro ⟨m, hm⟩
      obtain ⟨length, hlength, hm⟩ := bind_eq_ok.1 hm
      exact ⟨⟨length, hlength⟩, ih.1 ⟨m, hm⟩⟩
    · rintro ⟨⟨length, hlength⟩, helems⟩
      rw [hlength, ok_bind]
      exact ih.2 helems

theorem seqMinLength_eq_ok_iff : (∃ m, seqMinLength elems n = .ok m) ↔
    (∀ e ∈ elems, ∃ m, minMatchLength e = .ok m) ∧ SumsFit elems n := by
  induction elems generalizing n with
  | nil => exact iff_of_true ⟨n, rfl⟩ ⟨List.forall_mem_nil _, trivial⟩
  | cons e elems ih =>
    rw [seqMinLength, List.forall_mem_cons, SumsFit]
    constructor
    · rintro ⟨m, hm⟩
      obtain ⟨length, hlength, hm⟩ := bind_eq_ok.1 hm
      obtain ⟨total, htotal, hm⟩ := bind_eq_ok.1 hm
      unfold addInt at htotal
      split_ifs at htotal with hfits
      obtain rfl := Except.ok.inj htotal
      obtain ⟨helems, hsums⟩ := ih.1 ⟨m, hm⟩
      refine ⟨⟨⟨length, hlength⟩, helems⟩, fun length' hlength' ↦ ?_⟩
      obtain rfl := Except.ok.inj (hlength.symm.trans hlength')
      exact ⟨hfits, hsums⟩
    · rintro ⟨⟨⟨length, hlength⟩, helems⟩, hsums⟩
      obtain ⟨hfits, hrest⟩ := hsums length hlength
      rw [hlength, ok_bind, addInt, if_pos hfits, ok_bind]
      exact ih.2 ⟨helems, hrest⟩

theorem minMatchLength_eq_ok (h : ∀ x, MinInspects e x → MinReady x) (hv : e.Valid) :
    ∃ n, minMatchLength e = .ok n := by
  induction hv with
  | alt _ ih => exact altMinLength_eq_ok_iff.2 fun e he ↦ ih e he fun x hx ↦ h x (.alt he hx)
  | seq _ ih =>
    exact seqMinLength_eq_ok_iff.2 ⟨fun e he ↦ ih e he fun x hx ↦ h x (.seq he hx), h _ (.self _)⟩
  | @rep re lb ub hre hb ih =>
    rw [minMatchLength]
    split_ifs with hlb
    · exact ⟨0, rfl⟩
    · obtain ⟨length, hlength⟩ := ih fun x hx ↦ h x (.rep ub hlb hx)
      have hfits : FitsInt lb length := h _ (.self _) hlb length hlength
      exact ⟨_, by rw [hlength, ok_bind, mulInt_ok hfits]⟩
  | @diff lh rh _ _ ihl _ => exact ihl fun x hx ↦ h x (.diff rh hx)
  | @intersect lh rh _ _ ihl ihr =>
    obtain ⟨l, hl⟩ := ihl fun x hx ↦ h x (.intersect_left rh hx)
    obtain ⟨r, hr⟩ := ihr fun x hx ↦ h x (.intersect_right lh hx)
    exact ⟨_, by rw [minMatchLength, hl, ok_bind, hr, ok_bind, pure_eq_ok]⟩
  | @name definition n _ ih =>
    cases definition with
    | none => exact (h _ (.self _)).elim
    | some defn => exact ih defn rfl fun x hx ↦ h x (.name n hx)
  | capture n _ ih => exact ih fun x hx ↦ h x (.capture n hx)
  | reference n i _ ih => exact ih fun x hx ↦ h x (.reference n i hx)
  | _ => exact ⟨_, rfl⟩

theorem minMatchLength_part (h : ∃ n, minMatchLength e = .ok n) (hx : MinInspects e x) :
    ∃ n, minMatchLength x = .ok n := by
  induction hx with
  | self => exact h
  | alt he _ ih => exact ih (altMinLength_eq_ok_iff.1 h _ he)
  | seq he _ ih => exact ih ((seqMinLength_eq_ok_iff.1 h).1 _ he)
  | rep ub hlb _ ih =>
    obtain ⟨n, hn⟩ := h
    rw [minMatchLength, if_neg hlb] at hn
    obtain ⟨length, hlength, -⟩ := bind_eq_ok.1 hn
    exact ih ⟨length, hlength⟩
  | diff _ _ ih => exact ih h
  | intersect_left _ _ ih =>
    obtain ⟨n, hn⟩ := h
    rw [minMatchLength] at hn
    obtain ⟨l, hl, -⟩ := bind_eq_ok.1 hn
    exact ih ⟨l, hl⟩
  | intersect_right _ _ ih =>
    obtain ⟨n, hn⟩ := h
    rw [minMatchLength] at hn
    obtain ⟨l, -, hn⟩ := bind_eq_ok.1 hn
    obtain ⟨r, hr, -⟩ := bind_eq_ok.1 hn
    exact ih ⟨r, hr⟩
  | name _ _ ih => exact ih h
  | capture _ _ ih => exact ih h
  | reference _ _ _ ih => exact ih h

theorem minReady_of_eq_ok (h : ∃ n, minMatchLength e = .ok n) : MinReady e := by
  obtain ⟨n, hn⟩ := h
  cases e with
  | seq elems => exact (seqMinLength_eq_ok_iff.1 ⟨n, hn⟩).2
  | rep re lb ub =>
    intro hlb length hlength
    rw [minMatchLength, if_neg hlb, hlength, ok_bind] at hn
    exact mulInt_eq_ok hn
  | name m definition =>
    cases definition with
    | none => cases hn
    | some defn => trivial
  | _ => trivial

/-- The least length is computed and right if nothing overflows. -/
theorem minMatchLength_iff (hM : Indexed A index M) (hv : e.Valid) :
    (∃ n, minMatchLength e = .ok n ∧ ∀ w ∈ denote M e, n ≤ (w.length : ℤ)) ↔
      ∀ x, MinInspects e x → MinReady x := by
  constructor
  · rintro ⟨n, hn, -⟩ x hx
    exact minReady_of_eq_ok (minMatchLength_part ⟨n, hn⟩ hx)
  · intro h
    obtain ⟨n, hn⟩ := minMatchLength_eq_ok h hv
    exact ⟨n, hn, (minMatchLength_shortest hM hv hn).within⟩

end Least

section Fixed

variable {A : Alphabets} {M : Interpretation (Language ℕ)} {e x y : Expression}
variable {elems : List Expression} {l k : Language ℕ} {n : ℕ}

theorem OneLength.mono (hk : OneLength k) (h : l ≤ k) : OneLength l :=
  fun v hv w hw ↦ hk v (h hv) w (h hw)

theorem OneLength.of_length (h : ∀ w ∈ l, w.length = n) : OneLength l :=
  fun v hv w hw ↦ (h v hv).trans (h w hw).symm

theorem OneLength.of_le_one (h : l ≤ 1) : OneLength l :=
  .of_length fun _ hw ↦ List.length_eq_zero_iff.2 (h hw)

theorem OneLength.mul (hl : OneLength l) (hk : OneLength k) : OneLength (l * k) := by
  intro v hv w hw
  obtain ⟨v1, hv1, v2, hv2, rfl⟩ := Language.mem_mul.1 hv
  obtain ⟨w1, hw1, w2, hw2, rfl⟩ := Language.mem_mul.1 hw
  rw [List.length_append, List.length_append, hl v1 hv1 w1 hw1, hk v2 hv2 w2 hw2]

theorem OneLength.pow (hl : OneLength l) (n : ℕ) : OneLength (l ^ n) := by
  induction n with
  | zero => exact .of_le_one le_rfl
  | succ n ih =>
    rw [pow_succ]
    exact ih.mul hl

theorem OneLength.repeated {lb : ℤ} (hb : Bounds lb lb) (hl : OneLength l) :
    OneLength (powers l (counts lb lb)) := by
  have hnonneg := hb.nonneg
  have hcast : lb = (lb.toNat : ℤ) := by omega
  rw [hcast, counts_nat, Set.Icc_self, powers_singleton]
  exact hl.pow _

theorem OneLength.of_range {rg : ℤ × ℤ} (h : Lengths l rg) (heq : rg.1 = rg.2)
    (hmax : rg.2 ≠ INT_MAX) : OneLength l := by
  intro v hv w hw
  have hv1 := h.shortest.within v hv
  have hv2 := (h.longest.within v hv).resolve_left hmax
  have hw1 := h.shortest.within w hw
  have hw2 := (h.longest.within w hw).resolve_left hmax
  omega

theorem allFixedLength_seq
    (h : ∀ e ∈ elems, isFixedLength A e = .ok true → OneLength (denote M e))
    (hfixed : allFixedLength A elems = .ok true) : OneLength (denoteSeq M elems) := by
  induction elems with
  | nil => exact .of_le_one le_rfl
  | cons e elems ih =>
    obtain ⟨he, helems⟩ := List.forall_mem_cons.1 h
    rw [allFixedLength] at hfixed
    obtain ⟨fixed, hfirst, hfixed⟩ := bind_eq_ok.1 hfixed
    cases fixed with
    | false => cases hfixed
    | true => exact (he hfirst).mul (ih helems hfixed)

theorem oneLength_of_isFixedLength (hM : Indexed A Unicode M) (hv : e.Valid)
    (h : ∀ x, FixedInspects e x → FixedReady A M x) (hfixed : isFixedLength A e = .ok true) :
    OneLength (denote M e) := by
  induction hv with
  | @alt elems hvalid ih =>
    obtain ⟨hready, hmax⟩ := h _ (.self _)
    obtain ⟨rg, hrg, hlengths⟩ := ranged hM (.alt hvalid) hready
    rw [isFixedLength, hrg, ok_bind] at hfixed
    have heq : rg.1 = rg.2 := of_decide_eq_true (Except.ok.inj hfixed)
    exact .of_range hlengths heq (hmax rg hrg heq)
  | @seq elems hvalid ih =>
    exact allFixedLength_seq (fun e he ↦ ih e he fun x hx ↦ h x (.seq he hx)) hfixed
  | @rep re lb ub hre hb ih =>
    rw [isFixedLength] at hfixed
    split_ifs at hfixed with heq
    · subst heq
      exact (ih (fun x hx ↦ h x (.rep lb hx)) hfixed).repeated hb
    · cases hfixed
  | @diff lh rh _ _ ihl _ => exact (ihl (fun x hx ↦ h x (.diff rh hx)) hfixed).mono sdiff_le
  | @intersect lh rh _ _ ihl ihr =>
    rw [isFixedLength] at hfixed
    obtain ⟨fixed, hleft, hfixed⟩ := bind_eq_ok.1 hfixed
    cases fixed with
    | true => exact (ihl (fun x hx ↦ h x (.intersect_left rh hx)) hleft).mono inf_le_left
    | false => exact (ihr (fun x hx ↦ h x (.intersect_right lh hx)) hfixed).mono inf_le_right
  | any alphabet =>
    have hsame : Unicode = alphabet := h _ (.self _)
    exact .of_length (hsame ▸ hM.any_same)
  | cc _ => exact .of_length (hM.cc_unit _ (h _ (.self _)) _)
  | group mode sense _ ih =>
    have hgroup := h _ (.self _)
    exact hgroup (ih (fun x hx ↦ h x (.group mode sense hx)) hfixed)
  | @propertyExpression resolvedRE kind n _ _ =>
    cases resolvedRE with
    | some resolved => exact h _ (.self _)
    | none =>
      cases kind with
      | Boundary => exact .of_le_one (hM.boundary n)
      | Codepoint => exact .of_length (hM.codepoint_unicode rfl n)
  | @name definition n _ ih =>
    cases definition with
    | none => cases hfixed
    | some defn => exact ih defn rfl (fun x hx ↦ h x (.name n hx)) hfixed
  | capture n _ ih => exact ih (fun x hx ↦ h x (.capture n hx)) hfixed
  | reference n i _ ih =>
    exact (ih (fun x hx ↦ h x (.reference n i hx)) hfixed).mono (M.reference_le n i _)
  | range => exact .of_length (hM.range_unicode rfl _ _)
  | assertion k s => exact .of_le_one (M.assertion_le _ _ _)
  | start => exact .of_le_one M.start_le
  | stop => exact .of_le_one M.stop_le

end Fixed

section Example

theorem asserted_le (_ : Kind) (s : Sense) (x : Language ℕ) :
    (if s = .Positive then 1 ⊓ x else 1 \ x) ≤ 1 := by
  split_ifs
  · exact inf_le_left
  · exact sdiff_le

/-- Strings of code points. -/
def unicodeStrings : Interpretation (Language ℕ) where
  any _ := letters {x | x ≤ unicodeMax}
  assertion _ s x := if s = .Positive then 1 ⊓ x else 1 \ x
  assertion_le := asserted_le
  cc _ s := letters s
  group _ _ x := x
  one_le_group _ _ _ := Iff.rfl
  property kind _ := if kind = .Boundary then 1 else letters Set.univ
  range _ _ := letters Set.univ
  reference _ _ x := x
  reference_le _ _ _ := le_rfl
  start := 1
  start_le := le_rfl
  stop := 1
  stop_le := le_rfl
  undefined _ := ⊥

/-- No alphabet is one of code units or multiplexed. -/
def plainAlphabets : Alphabets := ⟨fun _ ↦ false, id⟩

theorem length_of_mem_letters {s : Set ℕ} : ∀ w ∈ letters s, w.length = 1 := by
  rintro w ⟨a, -, rfl⟩
  rfl

theorem indexed_unicodeStrings : Indexed plainAlphabets Unicode unicodeStrings where
  any_pos _ w hw := (length_of_mem_letters w hw).ge
  any_same := length_of_mem_letters
  any_utf8 h := absurd h (by decide)
  boundary _ := le_rfl
  cc_pos _ _ w hw := (length_of_mem_letters w hw).ge
  cc_unit _ _ _ := length_of_mem_letters
  cc_utf8 h := absurd h (by decide)
  codepoint_pos _ w hw := (length_of_mem_letters w hw).ge
  codepoint_unicode _ _ := length_of_mem_letters
  codepoint_utf8 h := absurd h (by decide)
  range_unicode _ _ _ := length_of_mem_letters

end Example

end Parabix.RE.Expression
