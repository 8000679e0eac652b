import Parabix.Library.WithoutEmpty
import Parabix.RE.RemoveEmpty
import Parabix.RE.StarNormal

namespace Parabix.RE

open Library Library.Powers Library.Encoding Library.WithoutEmpty UCD

/-- The leaves match strings: a class its symbols, and an anchor nothing but the empty string. -/
structure Plain (M : Meaning (Language ℕ)) : Prop where
  cc (a : ℕ) (s : Set ℕ) : M.cc a s = letters s
  any : M.any = letters Set.univ
  start : M.start ≤ 1
  stop : M.stop ≤ 1

section Length

variable {sourceAlphabet : ℕ → ℕ} {M : Meaning (Language ℕ)} {e : RE} {elems : List RE}
  {rg range : ℤ × ℤ} {a b : ℤ} {v w : List ℕ}

/-- A length within the greatest one, if that is known. -/
def Within (n : ℤ) (w : List ℕ) : Prop := n = INT_MAX ∨ (w.length : ℤ) ≤ n

/-- The greatest length of the strings of a language. -/
structure Longest (x : Language ℕ) (n : ℤ) : Prop where
  nonneg : 0 ≤ n
  le : n ≤ INT_MAX
  within : ∀ w ∈ x, Within n w

theorem Longest.mono {x y : Language ℕ} (hy : Longest y a) (h : x ≤ y) : Longest x a :=
  ⟨hy.nonneg, hy.le, fun w hw ↦ hy.within w (h hw)⟩

theorem Longest.sup {x y : Language ℕ} (hx : Longest x a) (hy : Longest y b) :
    Longest (x ⊔ y) (max a b) := by
  have hxle := hx.le
  have hyle := hy.le
  refine ⟨hx.nonneg.trans (Int.le_max_left _ _), Int.max_le.mpr ⟨hxle, hyle⟩, fun w hw ↦ ?_⟩
  rcases hw with hw | hw
  · rcases hx.within w hw with h | h
    · exact .inl (by omega)
    · exact .inr (by omega)
  · rcases hy.within w hw with h | h
    · exact .inl (by omega)
    · exact .inr (by omega)

theorem Longest.greatest {x : Language ℕ} : Longest x INT_MAX :=
  ⟨by decide, Int.le_refl _, fun _ _ ↦ .inl rfl⟩

theorem Longest.of_le_one {x : Language ℕ} (h : x ≤ 1) : Longest x 0 := by
  refine ⟨Int.le_refl 0, by decide, fun w hw ↦ .inr ?_⟩
  obtain rfl : w = [] := h hw
  simp

theorem Longest.letters (s : Set ℕ) : Longest (letters s) 1 := by
  refine ⟨by decide, by decide, fun w hw ↦ .inr ?_⟩
  obtain ⟨a, -, rfl⟩ := hw
  simp

theorem Longest.le_one {x : Language ℕ} (h : Longest x 0) : x ≤ 1 := by
  intro w hw
  have hlen := (h.within w hw).resolve_left (by decide)
  exact List.length_eq_zero_iff.mp (by omega)

theorem Longest.add {x y : Language ℕ} (hx : Longest x a) (hy : Longest y b) :
    Longest (x * y) (addLength a b) := by
  have ha := hx.nonneg
  have hb := hy.nonneg
  unfold addLength
  split_ifs with hlt
  · refine ⟨by omega, by omega, fun w hw ↦ ?_⟩
    obtain ⟨u, hu, v, hv, rfl⟩ := Language.mem_mul.mp hw
    have hlu := (hx.within u hu).resolve_left (by omega)
    have hlv := (hy.within v hv).resolve_left (by omega)
    right
    rw [List.length_append]
    push_cast
    omega
  · exact .greatest

theorem mulInt_eq {c : ℤ} (h : mulInt a b = .ok c) : c = a * b ∧ c ≤ INT_MAX := by
  unfold mulInt at h
  split_ifs at h with hfits
  obtain rfl := Except.ok.inj h
  exact ⟨rfl, Int.le_of_lt_add_one hfits.2⟩

theorem Longest.rep {x : Language ℕ} {lb ub second : ℤ} (hb : Bounds lb ub) (hx : Longest x a)
    (h : repeatLength a ub = .ok second) : Longest (powers x (counts lb ub)) second := by
  unfold repeatLength at h
  split_ifs at h with hbounded
  · obtain ⟨rfl, hle⟩ := mulInt_eq h
    have hub : 0 ≤ ub := by
      have hle := hb.le.resolve_left hbounded.1
      have hnn := hb.nonneg
      omega
    refine ⟨Int.mul_nonneg hx.nonneg hub, hle, fun w hw ↦ .inr ?_⟩
    obtain ⟨n, hn, hw⟩ := mem_powers.mp hw
    have hnu : (n : ℤ) ≤ ub := hn.2.resolve_left hbounded.1
    have hnat : ∀ v ∈ x, v.length ≤ a.toNat := by
      intro v hv
      have hle := (hx.within v hv).resolve_left (by omega)
      omega
    have hlen := length_le_of_mem_pow hnat hw
    have ha := hx.nonneg
    have hcast : ((n * a.toNat : ℕ) : ℤ) = n * a := by
      push_cast
      rw [Int.toNat_of_nonneg ha]
    have hprod : (n : ℤ) * a ≤ a * ub := by
      rw [mul_comm]
      exact Int.mul_le_mul_of_nonneg_left hnu ha
    omega
  · obtain rfl := Except.ok.inj h
    exact .greatest

theorem seqLengthRange_longest
    (h : ∀ e ∈ elems, ∀ rg, getLengthRange sourceAlphabet e = .ok rg → Longest (denote M e) rg.2)
    {x : Language ℕ} (hx : Longest x range.2)
    (hrg : seqLengthRange sourceAlphabet elems range = .ok rg) :
    Longest (x * denoteSeq M elems) rg.2 := by
  induction elems generalizing range x with
  | nil =>
    obtain rfl := Except.ok.inj hrg
    rwa [denoteSeq, mul_one]
  | cons e elems ih =>
    obtain ⟨he, helems⟩ := List.forall_mem_cons.1 h
    rw [seqLengthRange] at hrg
    obtain ⟨tmp, htmp, hrg⟩ := bind_eq_ok.1 hrg
    rw [denoteSeq, ← mul_assoc]
    exact ih helems (hx.add (he tmp htmp)) hrg

theorem altLengthRange_longest
    (h : ∀ e ∈ elems, ∀ rg, getLengthRange sourceAlphabet e = .ok rg → Longest (denote M e) rg.2)
    {x : Language ℕ} (hx : Longest x range.2)
    (hrg : altLengthRange sourceAlphabet elems range = .ok rg) :
    Longest (x ⊔ denoteAlt M elems) rg.2 := by
  induction elems generalizing range x with
  | nil =>
    obtain rfl := Except.ok.inj hrg
    rwa [denoteAlt, sup_bot_eq]
  | cons e elems ih =>
    obtain ⟨he, helems⟩ := List.forall_mem_cons.1 h
    rw [altLengthRange] at hrg
    obtain ⟨a_range, ha, hrg⟩ := bind_eq_ok.1 hrg
    rw [denoteAlt, ← sup_assoc]
    refine ih helems ?_ hrg
    exact hx.sup (he a_range ha)

theorem getLengthRange_longest (hM : Plain M) (hv : e.Valid)
    (hrg : getLengthRange sourceAlphabet e = .ok rg) : Longest (denote M e) rg.2 := by
  induction hv generalizing rg with
  | @alt elems hvalid ih =>
    rw [denote, ← bot_sup_eq (denoteAlt M elems)]
    exact altLengthRange_longest (fun e he rg ↦ ih e he)
      ⟨Int.le_refl 0, by decide, fun w hw ↦ absurd hw not_mem_bot⟩ hrg
  | @seq elems hvalid ih =>
    rw [denote, ← one_mul (denoteSeq M elems)]
    exact seqLengthRange_longest (fun e he rg ↦ ih e he) (.of_le_one (le_refl 1)) hrg
  | @rep re lb ub hre hb ih =>
    rw [getLengthRange] at hrg
    obtain ⟨range, hrange, hrg⟩ := bind_eq_ok.1 hrg
    obtain ⟨first, hfirst, hrg⟩ := bind_eq_ok.1 hrg
    obtain ⟨second, hsecond, hrg⟩ := bind_eq_ok.1 hrg
    obtain rfl := Except.ok.inj hrg
    rw [denote]
    exact (ih hrange).rep hb hsecond
  | assertion k s hvalid ih =>
    obtain rfl := Except.ok.inj hrg
    rw [denote]
    exact .of_le_one (M.assertion_le _ _ _)
  | start =>
    obtain rfl := Except.ok.inj hrg
    rw [denote]
    exact .of_le_one hM.start
  | stop =>
    obtain rfl := Except.ok.inj hrg
    rw [denote]
    exact .of_le_one hM.stop
  | diff hl hr ihl ihr =>
    rw [denote]
    exact (ihl hrg).mono sdiff_le
  | intersect hl hr ihl ihr =>
    rw [getLengthRange] at hrg
    obtain ⟨r1, hr1, hrg⟩ := bind_eq_ok.1 hrg
    obtain ⟨r2, hr2, hrg⟩ := bind_eq_ok.1 hrg
    obtain rfl := Except.ok.inj hrg
    rw [denote]
    rcases Int.le_total r1.2 r2.2 with hle | hle
    · simp only [min_eq_left hle]
      exact (ihl hr1).mono inf_le_left
    · simp only [min_eq_right hle]
      exact (ihr hr2).mono inf_le_right
  | @cc c hc =>
    obtain rfl := Except.ok.inj hrg
    rw [denote, hM.cc]
    split_ifs
    · exact .letters _
    · exact .greatest
  | any =>
    obtain rfl := Except.ok.inj hrg
    rw [denote, hM.any]
    exact .letters _
  | name n hvalid ih =>
    rw [denote]
    exact ih hrg
  | other node =>
    obtain rfl := Except.ok.inj hrg
    exact .greatest

end Length

namespace RemoveEmptyTransformer

section Parts

variable {sourceAlphabet : ℕ → ℕ} {same : RE → RE → Bool} {M : Meaning (Language ℕ)} {e r : RE}
  {elems before : List RE} {lb ub : ℤ}

/-- The new node, or the old one, has the meaning of the old one without the empty string. -/
def Without (M : Meaning (Language ℕ)) (e : RE) (result : Except Fault (Option RE)) : Prop :=
  ∃ o, result = .ok o ∧ (o.getD e).Valid ∧ denote M (o.getD e) = denote M e \ 1

theorem without_unchanged (hv : e.Valid) (hnil : [] ∉ denote M e) : Without M e (.ok none) :=
  ⟨none, rfl, hv, (sdiff_one_of_nil_not_mem hnil).symm⟩

theorem without_emptySet (h : denote M e ≤ 1) : Without M e (.ok (some (alt []))) := by
  refine ⟨some (alt []), rfl, .alt (List.forall_mem_nil _), ?_⟩
  rw [Option.getD_some, denote, denoteAlt, sdiff_one_of_le_one h]

theorem optional_of_nil_not_mem (hv : e.Valid) (hnil : [] ∉ denote M e) : Optional e := by
  rintro re ub rfl
  exact absurd (nil_mem_optionalRep rfl hv) hnil

theorem alternatives_spec (hv : ∀ e ∈ elems, e.Valid) (hnil : ∀ e ∈ elems, [] ∉ denote M e) :
    ∃ r, alternatives elems = .ok r ∧ r.Valid ∧ denote M r = denoteAlt M elems := by
  unfold alternatives
  split
  · exact ⟨_, rfl, hv _ (List.mem_singleton_self _), denoteAlt_singleton.symm⟩
  · exact makeAlt_spec hv fun e he ↦ optional_of_nil_not_mem (hv e he) (hnil e he)

theorem transformElems_spec
    (h : ∀ e ∈ elems, Without M e (transform sourceAlphabet same e)) :
    ∃ elems1 any_changed, transformElems sourceAlphabet same elems = .ok (elems1, any_changed) ∧
      (∀ e ∈ elems1, e.Valid) ∧ (∀ e ∈ elems1, [] ∉ denote M e) ∧
        denoteAlt M elems1 = denoteAlt M elems \ 1 ∧
          (any_changed = false → [] ∉ denoteAlt M elems) := by
  induction elems with
  | nil =>
    refine ⟨[], false, rfl, List.forall_mem_nil _, List.forall_mem_nil _, ?_, fun _ ↦ not_mem_bot⟩
    rw [denoteAlt, bot_sdiff]
  | cons e elems ih =>
    obtain ⟨⟨o, ho, hvalid, hdenote⟩, helems⟩ := List.forall_mem_cons.1 h
    obtain ⟨elems1, any_changed, htransform, hvalid1, hnil1, halt, hsame⟩ := ih helems
    refine ⟨_, _, by rw [transformElems, ho, ok_bind, htransform, ok_bind]; rfl, ?_, ?_, ?_, ?_⟩
    · split_ifs
      · exact hvalid1
      · exact List.forall_mem_cons.2 ⟨hvalid, hvalid1⟩
    · split_ifs
      · exact hnil1
      · refine List.forall_mem_cons.2 ⟨?_, hnil1⟩
        rw [hdenote]
        exact nil_not_mem_sdiff_one
    · rw [denoteAlt, sup_sdiff, ← hdenote, ← halt]
      split_ifs with hempty
      · rw [denote_emptySet hvalid hempty, bot_sup_eq]
      · rw [denoteAlt]
    · intro hchanged
      obtain ⟨hnone, hrest⟩ := Bool.or_eq_false_iff.1 hchanged
      obtain rfl : o = none := by simpa using hnone
      rintro (hnil | hnil)
      · rw [Option.getD_none] at hdenote
        rw [hdenote] at hnil
        exact nil_not_mem_sdiff_one hnil
      · exact hsame hrest hnil

theorem nil_not_mem_mul {x y z : Language ℕ} (h : [] ∉ y) : [] ∉ x * (y * z) := by
  intro hnil
  obtain ⟨a, -, b, hb, hab⟩ := Language.mem_mul.1 hnil
  obtain ⟨-, rfl⟩ := List.append_eq_nil_iff.1 hab
  obtain ⟨c, hc, d, -, hcd⟩ := Language.mem_mul.1 hb
  obtain ⟨rfl, -⟩ := List.append_eq_nil_iff.1 hcd
  exact h hc

/-- The alternatives are the strings with a part that is not empty in one of the items. -/
theorem transformItems_spec (hbefore : ∀ e ∈ before, e.Valid) (hv : ∀ e ∈ elems, e.Valid)
    (h : ∀ e ∈ elems, Without M e (transform sourceAlphabet same e)) :
    ∃ alts, transformItems sourceAlphabet same before elems = .ok alts ∧
      (∀ e ∈ alts, e.Valid) ∧ (∀ e ∈ alts, [] ∉ denote M e) ∧
        denoteAlt M alts = denoteSeq M before * (denoteSeq M elems \ 1) := by
  induction elems generalizing before with
  | nil =>
    refine ⟨[], rfl, List.forall_mem_nil _, List.forall_mem_nil _, ?_⟩
    rw [denoteAlt, denoteSeq, sdiff_self, Quantale.mul_bot]
  | cons e after ih =>
    obtain ⟨⟨o, ho, hvalid, hdenote⟩, hafter⟩ := List.forall_mem_cons.1 h
    obtain ⟨hve, hvafter⟩ := List.forall_mem_cons.1 hv
    have hbefore' : ∀ x ∈ before ++ [e], x.Valid := by
      intro x hx
      rcases List.mem_append.1 hx with hx | hx
      · exact hbefore x hx
      · rwa [List.mem_singleton.1 hx]
    obtain ⟨alts, halts, hvalts, hnil, halt⟩ := ih hbefore' hvafter hafter
    have hitems : ∀ x ∈ before ++ o.getD e :: after, x.Valid := by
      intro x hx
      rcases List.mem_append.1 hx with hx | hx
      · exact hbefore x hx
      · exact List.forall_mem_cons.2 ⟨hvalid, hvafter⟩ x hx
    have hseq : denote M (makeSeq (before ++ o.getD e :: after)) =
        denoteSeq M before * ((denote M e \ 1) * denoteSeq M after) := by
      rw [denote_makeSeq hitems, denoteSeq_append, denoteSeq, hdenote]
    refine ⟨_, by rw [transformItems, ho, ok_bind, halts, ok_bind]; rfl, ?_, ?_, ?_⟩
    · split_ifs
      · exact hvalts
      · exact List.forall_mem_cons.2 ⟨valid_makeSeq hitems, hvalts⟩
    · split_ifs
      · exact hnil
      · refine List.forall_mem_cons.2 ⟨?_, hnil⟩
        rw [hseq]
        exact nil_not_mem_mul nil_not_mem_sdiff_one
    · rw [denoteSeq_append, denoteSeq_singleton, mul_assoc] at halt
      rw [denoteSeq, mul_sdiff_one, Quantale.mul_sup_distrib, ← halt, ← hseq]
      split_ifs with hempty
      · rw [denote_emptySet hvalid hempty] at hdenote
        rw [hseq, ← hdenote, Quantale.bot_mul, Quantale.mul_bot, bot_sup_eq]
      · rw [denoteAlt]

end Parts

section Repetition

variable {sourceAlphabet : ℕ → ℕ} {same : RE → RE → Bool} {M : Meaning (Language ℕ)} {r : RE}
  {x : Language ℕ} {lb ub : ℤ}

theorem newBound (hb : Bounds lb ub) : (if lb = 0 then 1 else lb) = max lb 1 := by
  have hlb := hb.nonneg
  split_ifs <;> omega

theorem bounds_new (hb : Bounds lb ub) (hub : ub ≠ 0) : Bounds (max lb 1) ub := by
  have hnn := hb.nonneg
  have hlt := hb.lt
  have hle := hb.le
  exact ⟨by omega, by omega, by omega, hb.lt'⟩

theorem counts_new_pos : ∀ n ∈ counts (max lb 1) ub, 0 < n := by
  intro n hn
  have hle := hn.1
  omega

/-- What is repeated is empty nowhere or once at most, or there is nothing else. -/
theorem powers_new (hb : Bounds lb ub) (h : lb ≤ 1 ∨ [] ∉ x ∨ x ≤ 1) :
    powers (x \ 1) (counts (max lb 1) ub) = powers x (counts lb ub) \ 1 := by
  have hnn := hb.nonneg
  rcases Int.lt_or_le 1 lb with hlb | hlb
  · have hmax : max lb 1 = lb := by omega
    have hpos : ∀ n ∈ counts lb ub, 0 < n := hmax ▸ counts_new_pos
    rw [hmax]
    rcases h.resolve_left (by omega) with hnil | hone
    · exact (powers_sdiff_one_of_nil_not_mem hpos hnil).symm
    · exact (powers_sdiff_one_of_le_one hpos hone).symm
  · refine (powers_sdiff_one (fun n hn k hk hkn ↦ ?_) fun n hn ↦ ⟨?_, counts_new_pos n hn⟩).symm
    · refine ⟨by omega, ?_⟩
      rcases hn.2 with hub | hub
      · exact .inl hub
      · exact .inr (by omega)
    · have hle := hn.1
      exact ⟨by omega, hn.2⟩

theorem powers_counts_one (hb : Bounds lb 1) : powers x (counts lb 1) \ 1 = x \ 1 := by
  have hle := hb.le.resolve_left (by decide)
  rw [← powers_new hb (.inl hle), show max lb 1 = ((1 : ℕ) : ℤ) by omega,
    show (1 : ℤ) = ((1 : ℕ) : ℤ) from rfl, counts_nat, Set.Icc_self, powers_singleton, pow_one]

theorem rep_spec (hv : r.Valid) (hb : Bounds lb ub)
    (hr : Without M r (transform sourceAlphabet same r))
    (h : Handled sourceAlphabet same M (rep r lb ub)) :
    Without M (rep r lb ub) (transform sourceAlphabet same (rep r lb ub)) := by
  obtain ⟨s, hs, hvalid, hdenote⟩ := hr
  have hcond := h s hs
  rw [transform, hs, ok_bind, newBound hb]
  split_ifs with hsame hone
  · obtain ⟨hnone, hlb⟩ := hsame
    obtain rfl : s = none := by simpa using hnone
    apply without_unchanged (.rep hv hb)
    rw [Option.getD_none] at hdenote
    rw [denote, mem_powers]
    rintro ⟨n, hn, hnil⟩
    have hle := hn.1
    refine nil_not_mem_pow (by omega) ?_ hnil
    rw [hdenote]
    exact nil_not_mem_sdiff_one
  · subst hone
    refine ⟨some (s.getD r), rfl, hvalid, ?_⟩
    rw [Option.getD_some, hdenote, denote, powers_counts_one hb]
  · have hchanged : ¬ (s = none ∧ 1 ≤ lb) := by
      rintro ⟨rfl, hlb⟩
      exact hsame ⟨rfl, hlb⟩
    obtain ⟨hub, hempty, hsafe⟩ := (hcond.resolve_left hchanged).resolve_left hone
    obtain ⟨e, he, hve, hpowers⟩ :=
      makeRep_repeats (M := M) hvalid (bounds_new hb hub) hsafe
    refine ⟨some e, by simp only [he, ok_bind, pure_eq_ok], hve, ?_⟩
    rw [Option.getD_some, hpowers, hdenote, denote, powers_new hb hempty]

end Repetition

section Exact

variable {sourceAlphabet : ℕ → ℕ} {same : RE → RE → Bool} {M : Meaning (Language ℕ)} {e : RE}

theorem transform_without (hsame : ∀ a b, same a b = true → a = b) (hM : Plain M) (hv : e.Valid)
    (h : ∀ x, Visits sourceAlphabet e x → Handled sourceAlphabet same M x) :
    Without M e (transform sourceAlphabet same e) := by
  induction hv with
  | @alt elems hvalid ih =>
    obtain ⟨elems1, any_changed, htransform, hvalid1, hnil, halt, hunchanged⟩ :=
      transformElems_spec fun e he ↦ ih e he fun x hx ↦ h x (.alt he hx)
    rw [transform, htransform, ok_bind]
    cases any_changed with
    | false =>
      refine without_unchanged (.alt hvalid) ?_
      rw [denote]
      exact hunchanged rfl
    | true =>
      obtain ⟨r, hr, hvr, hdenote⟩ := alternatives_spec hvalid1 hnil
      refine ⟨some r, ?_, hvr, ?_⟩
      · simp only [if_true, hr, ok_bind, pure_eq_ok]
      · rw [Option.getD_some, hdenote, halt, denote]
  | @seq elems hvalid ih =>
    obtain ⟨rg, hrg, hfirst⟩ := h _ (.self _)
    rw [transform, hrg, ok_bind]
    split_ifs with hpos hzero
    · exact without_unchanged (.seq hvalid) (hfirst hpos)
    · apply without_emptySet
      have hlongest := getLengthRange_longest hM (.seq hvalid) hrg
      rw [hzero] at hlongest
      exact hlongest.le_one
    · obtain ⟨alts, halts, hvalts, hnil, halt⟩ :=
        transformItems_spec (List.forall_mem_nil _) hvalid fun e he ↦
          ih e he fun x hx ↦ h x (.seq hrg (by omega) hzero he hx)
      obtain ⟨r, hr, hvr, hdenote⟩ := alternatives_spec hvalts hnil
      refine ⟨some r, ?_, hvr, ?_⟩
      · rw [halts, ok_bind, hr, ok_bind, pure_eq_ok]
      · rw [Option.getD_some, hdenote, halt, denoteSeq, one_mul, denote]
  | @rep re lb ub hre hb ih =>
    exact rep_spec hre hb (ih fun x hx ↦ h x (.rep hx)) (h _ (.self _))
  | assertion k s hvalid ih =>
    apply without_emptySet
    rw [denote]
    exact M.assertion_le _ _ _
  | start =>
    apply without_emptySet
    rw [denote]
    exact hM.start
  | stop =>
    apply without_emptySet
    rw [denote]
    exact hM.stop
  | @diff x0 y0 hvx hvy ihx ihy =>
    obtain ⟨x, hx, hvx1, hdx⟩ := ihx fun x hx ↦ h x (.diff_left hx)
    obtain ⟨y, hy, hvy1, hdy⟩ := ihy fun x hx ↦ h x (.diff_right hx)
    have hdiff : denote M (x.getD x0) \ denote M (y.getD y0) = denote M (diff x0 y0) \ 1 := by
      rw [hdx, hdy, denote, sdiff_sdiff_one]
    rw [transform, hx, ok_bind, hy, ok_bind]
    cases hchanged : x.isSome || y.isSome with
    | false =>
      obtain ⟨hxnone, hynone⟩ := Bool.or_eq_false_iff.1 hchanged
      obtain rfl : x = none := by simpa using hxnone
      obtain rfl : y = none := by simpa using hynone
      apply without_unchanged (.diff hvx hvy)
      rw [Option.getD_none, Option.getD_none, ← denote] at hdiff
      rw [hdiff]
      exact nil_not_mem_sdiff_one
    | true =>
      obtain ⟨r, hr, hdenote⟩ :=
        (makeDiff_iff hsame hM.cc hvx1 hvy1).2 (h _ (.self _) x y hx hy hchanged)
      refine ⟨some r, ?_, RE_Star_Normal.makeDiff_valid hvx1 hvy1 hr, ?_⟩
      · simp only [if_true, hr, ok_bind, pure_eq_ok]
      · rw [Option.getD_some, hdenote, hdiff]
  | @intersect x0 y0 hvx hvy ihx ihy =>
    obtain ⟨x, hx, hvx1, hdx⟩ := ihx fun x hx ↦ h x (.intersect_left hx)
    obtain ⟨y, hy, hvy1, hdy⟩ := ihy fun x hx ↦ h x (.intersect_right hx)
    have hinter : denote M (x.getD x0) ⊓ denote M (y.getD y0) =
        denote M (intersect x0 y0) \ 1 := by
      rw [hdx, hdy, denote, inf_sdiff]
    rw [transform, hx, ok_bind, hy, ok_bind]
    cases hchanged : x.isSome || y.isSome with
    | false =>
      obtain ⟨hxnone, hynone⟩ := Bool.or_eq_false_iff.1 hchanged
      obtain rfl : x = none := by simpa using hxnone
      obtain rfl : y = none := by simpa using hynone
      apply without_unchanged (.intersect hvx hvy)
      rw [Option.getD_none, Option.getD_none, ← denote] at hinter
      rw [hinter]
      exact nil_not_mem_sdiff_one
    | true =>
      have hready : IntersectReady same M (x.getD x0) (y.getD y0) := by
        refine .inr ⟨fun _ hnil ↦ ?_, fun _ hnil ↦ ?_⟩
        · rw [hdy] at hnil
          exact absurd hnil nil_not_mem_sdiff_one
        · rw [hdx] at hnil
          exact absurd hnil nil_not_mem_sdiff_one
      obtain ⟨r, hr, hdenote⟩ := (makeIntersect_iff hsame hM.cc hvx1 hvy1).2 hready
      refine ⟨some r, ?_, RE_Star_Normal.makeIntersect_valid hvx1 hvy1 hr, ?_⟩
      · simp only [if_true, hr, ok_bind, pure_eq_ok]
      · rw [Option.getD_some, hdenote, hinter]
  | any =>
    apply without_unchanged .any
    rw [denote, hM.any]
    exact nil_not_mem_letters _
  | cc hc =>
    apply without_unchanged (.cc hc)
    rw [denote, hM.cc]
    exact nil_not_mem_letters _
  | @name definition n hdef ih =>
    obtain ⟨o, ho, hvo, hdenote⟩ := ih fun x hx ↦ h x (.name n hx)
    rw [transform, ho]
    cases o with
    | none =>
      apply without_unchanged (.name n hdef)
      rw [Option.getD_none] at hdenote
      rw [denote, hdenote]
      exact nil_not_mem_sdiff_one
    | some r =>
      refine ⟨some r, rfl, hvo, ?_⟩
      rw [Option.getD_some] at hdenote ⊢
      rw [hdenote, denote]
  | other node =>
    apply without_unchanged (.other node)
    rw [denote]
    exact h _ (.self _)

theorem Visits.trans {x y : RE} (h : Visits sourceAlphabet e x) (hx : Visits sourceAlphabet x y) :
    Visits sourceAlphabet e y := by
  induction h with
  | self => exact hx
  | alt he _ ih => exact .alt he (ih hx)
  | seq hrg hfirst hsecond he _ ih => exact .seq hrg hfirst hsecond he (ih hx)
  | rep _ ih => exact .rep (ih hx)
  | diff_left _ ih => exact .diff_left (ih hx)
  | diff_right _ ih => exact .diff_right (ih hx)
  | intersect_left _ ih => exact .intersect_left (ih hx)
  | intersect_right _ ih => exact .intersect_right (ih hx)
  | name n _ ih => exact .name n (ih hx)

theorem Visits.valid {x : RE} (h : Visits sourceAlphabet e x) (hv : e.Valid) : x.Valid := by
  induction h with
  | self => exact hv
  | alt he _ ih =>
    cases hv with
    | alt hvalid => exact ih (hvalid _ he)
  | seq _ _ _ he _ ih =>
    cases hv with
    | seq hvalid => exact ih (hvalid _ he)
  | rep _ ih =>
    cases hv with
    | rep hvalid _ => exact ih hvalid
  | diff_left _ ih =>
    cases hv with
    | diff hl _ => exact ih hl
  | diff_right _ ih =>
    cases hv with
    | diff _ hr => exact ih hr
  | intersect_left _ ih =>
    cases hv with
    | intersect hl _ => exact ih hl
  | intersect_right _ ih =>
    cases hv with
    | intersect _ hr => exact ih hr
  | name n _ ih =>
    cases hv with
    | name _ hvalid => exact ih hvalid

theorem eliminates_of_without (h : Without M e (transform sourceAlphabet same e)) :
    Eliminates sourceAlphabet same M e := by
  obtain ⟨o, ho, -, hdenote⟩ := h
  exact ⟨o.getD e, by rw [emptyMatchElimination, ho, ok_bind, pure_eq_ok], hdenote⟩

theorem safe_of_makeRep {r e : RE} {lb ub : ℤ} (hv : r.Valid) (hb : Bounds lb ub) (hlb : 1 ≤ lb)
    (h : makeRep r lb ub = .ok e) : RepSafe r.outline lb ub := by
  cases hv with
  | rep _ hb₀ =>
    refine safe_of_makeRep_eq_ok hb₀ hb h fun hzero ↦ ?_
    have hlb0 := hzero.2.1
    omega
  | @alt elems _ =>
    cases elems with
    | nil => exact (Int.lt_of_lt_of_le Int.zero_lt_one hlb).ne'
    | cons => trivial
  | @seq elems _ => cases elems <;> trivial
  | @cc c _ =>
    rw [outline]
    split_ifs
    · exact (Int.lt_of_lt_of_le Int.zero_lt_one hlb).ne'
    · trivial
  | _ => trivial

theorem handled_rep {r : RE} {lb ub : ℤ} (hb : Bounds lb ub)
    (hr : Without M r (transform sourceAlphabet same r))
    (h : Eliminates sourceAlphabet same M (rep r lb ub)) :
    Handled sourceAlphabet same M (rep r lb ub) := by
  intro s hs
  obtain ⟨s', hs', hvalid, hdenote⟩ := hr
  obtain rfl := Except.ok.inj (hs.symm.trans hs')
  by_cases hsame : s = none ∧ 1 ≤ lb
  · exact .inl hsame
  by_cases hone : ub = 1
  · exact .inr (.inl hone)
  obtain ⟨e, he, hlanguage⟩ := h
  have hnone : ¬ (s.isNone = true ∧ 1 ≤ lb) := by
    rwa [Option.isNone_iff_eq_none]
  rw [emptyMatchElimination, transform, hs, ok_bind, newBound hb, if_neg hnone, if_neg hone] at he
  obtain ⟨o, ho, he⟩ := bind_eq_ok.1 he
  obtain ⟨e', hmake, ho⟩ := bind_eq_ok.1 ho
  obtain rfl := Except.ok.inj ho
  obtain rfl : e' = e := Except.ok.inj he
  have hub : ub ≠ 0 := by
    rintro rfl
    have hlb : max lb 1 ≠ UNBOUNDED_REP := by
      rw [UNBOUNDED_REP]
      omega
    have hbounds : (0 : ℤ) ≠ UNBOUNDED_REP ∧ 0 < max lb 1 := ⟨by decide, by omega⟩
    rw [makeRep, makeRepFuel, if_neg hlb, if_pos hbounds] at hmake
    cases hmake
  have hsafe := safe_of_makeRep hvalid (bounds_new hb hub) (Int.le_max_right _ _) hmake
  refine .inr (.inr ⟨hub, ?_, hsafe⟩)
  obtain ⟨e'', he'', -, hpowers⟩ := makeRep_repeats (M := M) hvalid (bounds_new hb hub) hsafe
  obtain rfl := Except.ok.inj (hmake.symm.trans he'')
  by_cases hlb : lb ≤ 1
  · exact .inl hlb
  by_cases hnil : [] ∈ denote M r
  · refine .inr (.inr (le_one_of_powers_sdiff_one (mem_counts_lb hb) (fun k hk ↦ ?_) hnil ?_))
    · have hle := hk.1
      omega
    · have hmax : max lb 1 = lb := by omega
      rw [hpowers, hdenote, denote, hmax] at hlanguage
      exact hlanguage
  · exact .inr (.inl hnil)

/-- Where every part is right, every part is handled. -/
theorem handled_of_eliminates (hsame : ∀ a b, same a b = true → a = b) (hM : Plain M)
    (hv : e.Valid)
    (h : ∀ x, Visits sourceAlphabet e x → Eliminates sourceAlphabet same M x) :
    ∀ x, Visits sourceAlphabet e x → Handled sourceAlphabet same M x := by
  induction hv with
  | @alt elems hvalid ih =>
    intro x hx
    cases hx with
    | self => trivial
    | alt he hx => exact ih _ he (fun y hy ↦ h y (.alt he hy)) x hx
  | @seq elems hvalid ih =>
    intro x hx
    cases hx with
    | seq hrg hfirst hsecond he hx =>
      exact ih _ he (fun y hy ↦ h y (.seq hrg hfirst hsecond he hy)) x hx
    | self =>
      obtain ⟨r, hr, hdenote⟩ := h _ (.self _)
      rw [emptyMatchElimination, transform] at hr
      obtain ⟨o, ho, hr⟩ := bind_eq_ok.1 hr
      obtain ⟨rg, hrg, ho⟩ := bind_eq_ok.1 ho
      refine ⟨rg, hrg, fun hpos hnil ↦ ?_⟩
      rw [if_pos hpos] at ho
      obtain rfl := Except.ok.inj ho
      obtain rfl := Except.ok.inj hr
      rw [Option.getD_none] at hdenote
      rw [hdenote] at hnil
      exact nil_not_mem_sdiff_one hnil
  | @rep re lb ub hre hb ih =>
    intro x hx
    have hparts := ih fun y hy ↦ h y (.rep hy)
    cases hx with
    | rep hx => exact hparts x hx
    | self =>
      exact handled_rep hb (transform_without hsame hM hre hparts) (h _ (.self _))
  | @diff x0 y0 hvx hvy ihx ihy =>
    intro x hx
    have hxparts := ihx fun y hy ↦ h y (.diff_left hy)
    have hyparts := ihy fun y hy ↦ h y (.diff_right hy)
    cases hx with
    | diff_left hx => exact hxparts x hx
    | diff_right hx => exact hyparts x hx
    | self =>
      intro x y hx hy hchanged
      obtain ⟨x', hx', hvx1, hdx⟩ := transform_without hsame hM hvx hxparts
      obtain ⟨y', hy', hvy1, hdy⟩ := transform_without hsame hM hvy hyparts
      obtain rfl := Except.ok.inj (hx.symm.trans hx')
      obtain rfl := Except.ok.inj (hy.symm.trans hy')
      obtain ⟨r, hr, hdenote⟩ := h _ (.self _)
      rw [emptyMatchElimination, transform, hx, ok_bind, hy, ok_bind, if_pos hchanged] at hr
      obtain ⟨o, ho, hr⟩ := bind_eq_ok.1 hr
      obtain ⟨r', hmake, ho⟩ := bind_eq_ok.1 ho
      obtain rfl := Except.ok.inj ho
      obtain rfl : r' = r := Except.ok.inj hr
      refine (makeDiff_iff hsame hM.cc hvx1 hvy1).1 ⟨r', hmake, ?_⟩
      rw [hdenote, hdx, hdy, denote, sdiff_sdiff_one]
  | intersect hvx hvy ihx ihy =>
    intro x hx
    cases hx with
    | intersect_left hx => exact ihx (fun y hy ↦ h y (.intersect_left hy)) x hx
    | intersect_right hx => exact ihy (fun y hy ↦ h y (.intersect_right hy)) x hx
    | self => trivial
  | name n hdef ih =>
    intro x hx
    cases hx with
    | name _ hx => exact ih (fun y hy ↦ h y (.name n hy)) x hx
    | self => trivial
  | other node =>
    intro x hx
    cases hx
    obtain ⟨r, hr, hdenote⟩ := h _ (.self _)
    obtain rfl : RE.other node = r := Except.ok.inj hr
    intro hnil
    rw [denote] at hdenote
    rw [hdenote] at hnil
    exact nil_not_mem_sdiff_one hnil
  | _ =>
    intro x hx
    cases hx
    trivial

end Exact

end RemoveEmptyTransformer

open RemoveEmptyTransformer

section Example

theorem plain_strings : Plain strings where
  cc _ _ := rfl
  any := rfl
  start := le_refl 1
  stop := le_refl 1

end Example

end Parabix.RE
