import Parabix.RE.ToUTF8

namespace Parabix.RE

open Library Library.UTF8 Library.Encoding UCD

section Results

variable {m : Memory} {lo hi : ℕ} {c : CC} {l k : Language ℕ} {x y : Except Fault RE}

/-- A solid expression of code units that matches the given words. -/
def Realizes (result : Except Fault RE) (l : Language ℕ) : Prop :=
  ∃ r, result = .ok r ∧ Over UTF8 r ∧ Tidy r ∧ r.outline = .solid ∧ denote words r = l

theorem ofRange_over (hle : lo ≤ hi) (hmax : hi ≤ unicodeMax) : ∃ c,
    CC.ofRange m lo hi UTF8 = .ok c ∧ c.Over UTF8 ∧ c.set.members = Set.Icc lo hi := by
  have hmembers := members_range (m := m) hle hmax
  refine ⟨⟨.range m lo hi, UTF8⟩, ?_, ⟨range_wellFormed m hle hmax, rfl, ?_⟩, hmembers⟩
  · rw [CC.ofRange, if_neg (not_not.2 hle), if_neg (not_not.2 hmax)]
  · rw [hmembers]
    exact ⟨lo, le_rfl, hle⟩

theorem ofCodepoint_over (hmax : lo ≤ unicodeMax) : ∃ c,
    CC.ofCodepoint m lo UTF8 = .ok c ∧ c.Over UTF8 ∧ c.set.members = Set.Icc lo lo := by
  have hmembers := members_singleton (m := m) hmax
  refine ⟨⟨.singleton m lo, UTF8⟩, if_pos hmax, ⟨singleton_wellFormed m hmax, rfl, ?_⟩, ?_⟩
  · rw [hmembers]
    exact Set.singleton_nonempty lo
  · rw [hmembers, Set.Icc_self]

theorem tidy_cc : Tidy (cc c) := trivial

theorem realizes_cc (hc : c.Over UTF8) : Realizes (.ok (cc c)) (letters c.set.members) :=
  ⟨_, rfl, .cc hc, trivial, hc.outline, by rw [denote]; rfl⟩

theorem realizes_seq (hc : c.Over UTF8) (hx : Realizes x l) :
    Realizes (do return makeSeq [cc c, ← x]) (letters c.set.members * l) := by
  obtain ⟨r, hr, hover, htidy, ho, hd⟩ := hx
  have hitems : ∀ e ∈ [cc c, r], Over UTF8 e := by simp [Over.cc hc, hover]
  obtain ⟨ht, hout⟩ := @makeSeq_outline [cc c, r] (by simp [htidy, tidy_cc])
  refine ⟨_, by rw [hr, ok_bind, pure_eq_ok], over_makeSeq hitems, ht, ?_, ?_⟩
  · rw [hout, List.map_cons, List.map_cons, List.map_nil, hc.outline, ho]
    rfl
  · rw [denote_makeSeq fun e he ↦ (hitems e he).valid, denoteSeq, denoteSeq_singleton, hd, denote]
    rfl

theorem altReady_of_solid {r : RE} (ho : r.outline = .solid) : AltReady words makeRep r := by
  rintro r' ub rfl
  rw [outline] at ho
  cases ho

theorem altKeeps_of_solid {r : RE} (ho : r.outline = .solid) : AltKeeps UTF8 makeRep r := by
  rintro r' ub rfl
  rw [outline] at ho
  cases ho

theorem realizes_alt (hx : Realizes x l) (hy : Realizes y k) :
    Realizes (do let a ← x; let b ← y; makeAlt [a, b]) (l ⊔ k) := by
  obtain ⟨r, hr, hover, htidy, ho, hd⟩ := hx
  obtain ⟨r', hr', hover', htidy', ho', hd'⟩ := hy
  have helems : ∀ e ∈ [r, r'], Over UTF8 e := by simp [hover, hover']
  obtain ⟨e, he, hover₁, ht, hout⟩ := @makeAltWith_outline _ _ makeRep helems
    (by simp [htidy, htidy']) (by simp [altKeeps_of_solid ho, altKeeps_of_solid ho'])
  obtain ⟨e', he', -, hd₁⟩ := @makeAltWith_spec _ _ _ words _ makeRep
    (fun e he ↦ (helems e he).valid) (by simp [altReady_of_solid ho, altReady_of_solid ho'])
  obtain rfl : e = e' := Except.ok.inj (he.symm.trans he')
  refine ⟨e, by rw [hr, ok_bind, hr', ok_bind, makeAlt, he], hover₁, ht, ?_, ?_⟩
  · rw [hout, List.map_cons, List.map_cons, List.map_nil, ho, ho']
    rfl
  · rw [hd₁, denoteAlt, denoteAlt_singleton, hd, hd']

end Results

section Units

/-- The digit of a code point that its unit at `index` holds. -/
def digit (index q : ℕ) : ℕ := if index = 1 then q else q % 64

def mark (index lgth : ℕ) : ℕ := if index = 1 then lead lgth else 0x80

/-- The unit at `index`, from what is above the digits of the later units. -/
def unit (index lgth q : ℕ) : ℕ := mark index lgth + digit index q

/-- The units from `index` on. -/
def unitsFrom (index lgth cp : ℕ) : List ℕ :=
  unit index lgth (cp / 64 ^ (lgth - index)) :: continuation (lgth - index) cp

/-- The words of the units from `index` on of the code points of a range. -/
def rangeUnits (index lgth lo hi : ℕ) : Language ℕ :=
  {w | ∃ cp, lo ≤ cp ∧ cp ≤ hi ∧ unitsFrom index lgth cp = w}

variable {index lgth lo hi cp p q r k : ℕ}

theorem mem_rangeUnits {w : List ℕ} : w ∈ rangeUnits index lgth lo hi ↔
    ∃ cp, lo ≤ cp ∧ cp ≤ hi ∧ unitsFrom index lgth cp = w := Iff.rfl

theorem utf8_eq_unitsFrom (cp : ℕ) : utf8 cp = unitsFrom 1 (width cp) cp := utf8_eq cp

theorem continuation_eq_unitsFrom (h : index < lgth) (h1 : 0 < index) (cp : ℕ) :
    continuation (lgth - index) cp = unitsFrom (index + 1) lgth cp := by
  have hne : index + 1 ≠ 1 := by omega
  obtain ⟨j, hj⟩ : ∃ j, lgth - index = j + 1 := ⟨lgth - index - 1, by omega⟩
  rw [hj, continuation, unitsFrom, unit, mark, digit, if_neg hne, if_neg hne,
    show lgth - (index + 1) = j by omega]

theorem nthCodeUnit_eq (hmax : cp ≤ unicodeMax) (hw : width cp = lgth) (h1 : 0 < index)
    (hle : index ≤ lgth) :
    mEncoder.nthCodeUnit cp index = .ok (unit index lgth (cp / 64 ^ (lgth - index))) := by
  subst hw
  by_cases h : index = 1
  · subst h
    exact nthCodeUnit_one hmax
  · rw [unit, mark, digit, if_neg h, if_neg h]
    exact nthCodeUnit_rest h hle

/-- Between the ends the units at `index` go up by one where the digit does: the digits above are
those of both ends, or the range is one of all digits. -/
def Climbs (index p r : ℕ) : Prop :=
  index = 1 ∨ p / 64 = r / 64 ∨ p % 64 = 0 ∧ r % 64 = 63

theorem Climbs.unit_mem (h : Climbs index p r) (hpq : p ≤ q) (hqr : q ≤ r) :
    unit index lgth p ≤ unit index lgth q ∧ unit index lgth q ≤ unit index lgth r := by
  rw [Climbs] at h
  simp only [unit, digit]
  split_ifs with h1 <;> omega

theorem exists_unit (hpr : p ≤ r) (hlo : unit index lgth p ≤ k) (hhi : k ≤ unit index lgth r) :
    ∃ q, p ≤ q ∧ q ≤ r ∧ unit index lgth q = k := by
  refine ⟨p + (k - unit index lgth p), Nat.le_add_right _ _, ?_⟩
  simp only [unit, digit] at hlo hhi ⊢
  by_cases h1 : index = 1
  · simp only [if_pos h1] at hlo hhi ⊢
    omega
  · simp only [if_neg h1] at hlo hhi ⊢
    omega

theorem Climbs.eq_of_unit_eq (h : Climbs index p r) (hpr : p ≤ r)
    (heq : unit index lgth r = unit index lgth p) : p = r := by
  rw [Climbs] at h
  simp only [unit, digit] at heq
  split_ifs at heq with h1 <;> omega

/-- The digits below a full digit, and below a digit 0. -/
theorem low_digits {M : ℕ} (hM : 0 < M) (hlo : lo % (M * 64) = 0)
    (hhi : hi % (M * 64) = M * 64 - 1) :
    lo / M % 64 = 0 ∧ lo % M = 0 ∧ hi / M % 64 = 63 ∧ hi % M = M - 1 := by
  rw [Nat.mod_mul] at hlo hhi
  have hdigit : lo / M % 64 = 0 := by
    by_contra hne
    have : 0 < M * (lo / M % 64) := Nat.mul_pos hM (Nat.pos_of_ne_zero hne)
    omega
  have hlt : hi % M < M := Nat.mod_lt _ hM
  have hfull : hi / M % 64 = 63 := by
    by_contra hne
    have hsmall : hi / M % 64 ≤ 62 := by omega
    have := Nat.mul_le_mul_left M hsmall
    omega
  rw [hfull] at hhi
  exact ⟨hdigit, by omega, hfull, by omega⟩

/-- A range that `rangeCodeUnits` is called with: its code points are of one length, and they share
the units before `index`, or the range is one of all digits from there on. -/
structure Stretch (index lgth lo hi : ℕ) : Prop where
  pos : 0 < index
  le_lgth : index ≤ lgth
  le : lo ≤ hi
  max : hi ≤ unicodeMax
  width_lo : width lo = lgth
  width_hi : width hi = lgth
  ends : index = 1 ∨ lo / (64 ^ (lgth - index) * 64) = hi / (64 ^ (lgth - index) * 64) ∨
    lo % (64 ^ (lgth - index) * 64) = 0 ∧
      hi % (64 ^ (lgth - index) * 64) = 64 ^ (lgth - index) * 64 - 1

namespace Stretch

variable (h : Stretch index lgth lo hi)
include h

theorem width_eq (hlo : lo ≤ cp) (hhi : cp ≤ hi) : width cp = lgth :=
  le_antisymm ((width_mono hhi).trans h.width_hi.le) (h.width_lo.ge.trans (width_mono hlo))

theorem climbs : Climbs index (lo / 64 ^ (lgth - index)) (hi / 64 ^ (lgth - index)) := by
  obtain h1 | hsame | ⟨hlo, hhi⟩ := h.ends
  · exact .inl h1
  · rw [← Nat.div_div_eq_div_mul, ← Nat.div_div_eq_div_mul] at hsame
    exact .inr (.inl hsame)
  · obtain ⟨h0, -, h63, -⟩ := low_digits (Nat.pow_pos (by decide)) hlo hhi
    exact .inr (.inr ⟨h0, h63⟩)

theorem div_le : lo / 64 ^ (lgth - index) ≤ hi / 64 ^ (lgth - index) := Nat.div_le_div_right h.le

theorem nthCodeUnit_lo :
    mEncoder.nthCodeUnit lo index = .ok (unit index lgth (lo / 64 ^ (lgth - index))) :=
  nthCodeUnit_eq (h.le.trans h.max) h.width_lo h.pos h.le_lgth

theorem nthCodeUnit_hi :
    mEncoder.nthCodeUnit hi index = .ok (unit index lgth (hi / 64 ^ (lgth - index))) :=
  nthCodeUnit_eq h.max h.width_hi h.pos h.le_lgth

/-- A part of a stretch that is not one of all digits is a stretch. -/
theorem part {lo' hi' : ℕ} (hne : ¬(lo % 64 ^ (lgth - index) = 0 ∧
    hi % 64 ^ (lgth - index) = 64 ^ (lgth - index) - 1)) (hlo : lo ≤ lo') (hle : lo' ≤ hi')
    (hhi : hi' ≤ hi) : Stretch index lgth lo' hi' := by
  refine ⟨h.pos, h.le_lgth, hle, hhi.trans h.max, h.width_eq hlo (hle.trans hhi),
    h.width_eq (hlo.trans hle) hhi, ?_⟩
  obtain h1 | hsame | ⟨h0, h63⟩ := h.ends
  · exact .inl h1
  · refine .inr (.inl ?_)
    have h1 := Nat.div_le_div_right (c := 64 ^ (lgth - index) * 64) hlo
    have h2 := Nat.div_le_div_right (c := 64 ^ (lgth - index) * 64) hle
    have h3 := Nat.div_le_div_right (c := 64 ^ (lgth - index) * 64) hhi
    omega
  · obtain ⟨-, hlow, -, hhigh⟩ := low_digits (Nat.pow_pos (by decide)) h0 h63
    exact absurd ⟨hlow, hhigh⟩ hne

/-- The later units of a stretch whose ends agree on the unit at `index`, or hold all digits from
there on. -/
theorem next (hlt : index < lgth)
    (hends : lo / 64 ^ (lgth - index) = hi / 64 ^ (lgth - index) ∨
      lo % 64 ^ (lgth - index) = 0 ∧ hi % 64 ^ (lgth - index) = 64 ^ (lgth - index) - 1) :
    Stretch (index + 1) lgth lo hi := by
  have hpow : 64 ^ (lgth - (index + 1)) * 64 = 64 ^ (lgth - index) := by
    rw [← Nat.pow_succ]
    congr 1
    omega
  refine ⟨Nat.succ_pos _, hlt, h.le, h.max, h.width_lo, h.width_hi, .inr ?_⟩
  rwa [hpow]

/-- The words of one unit, then of the later ones. -/
theorem letters_mul_rangeUnits (hlt : index < lgth)
    (hends : lo / 64 ^ (lgth - index) = hi / 64 ^ (lgth - index) ∨
      lo % 64 ^ (lgth - index) = 0 ∧ hi % 64 ^ (lgth - index) = 64 ^ (lgth - index) - 1) :
    letters (Set.Icc (unit index lgth (lo / 64 ^ (lgth - index)))
      (unit index lgth (hi / 64 ^ (lgth - index)))) * rangeUnits (index + 1) lgth lo hi =
      rangeUnits index lgth lo hi := by
  have hM : 0 < 64 ^ (lgth - index) := Nat.pow_pos (by decide)
  have hle := h.div_le
  have hclimbs := h.climbs
  have hmod : ∀ x y, x % 64 ^ (lgth - index) = y % 64 ^ (lgth - index) →
      continuation (lgth - index) x = continuation (lgth - index) y :=
    fun _ _ ↦ continuation_mod _
  ext w
  simp only [Language.mem_mul, mem_letters, mem_rangeUnits, Set.mem_Icc,
    ← continuation_eq_unitsFrom hlt h.pos]
  simp only [unitsFrom]
  generalize 64 ^ (lgth - index) = M at *
  constructor
  · rintro ⟨_, ⟨k, ⟨hk1, hk2⟩, rfl⟩, _, ⟨cp, h1, h2, rfl⟩, rfl⟩
    obtain ⟨q, hq1, hq2, rfl⟩ := exists_unit hle hk1 hk2
    have hlt' : cp % M < M := Nat.mod_lt _ hM
    have hdiv : (M * q + cp % M) / M = q := by
      rw [Nat.mul_add_div hM, Nat.div_eq_of_lt hlt', Nat.add_zero]
    have hlow : (M * q + cp % M) % M = cp % M := by
      rw [Nat.mul_add_mod, Nat.mod_mod]
    have hmem : lo ≤ M * q + cp % M ∧ M * q + cp % M ≤ hi := by
      have hlo := Nat.div_add_mod lo M
      have hhi := Nat.div_add_mod hi M
      have h1q := Nat.mul_le_mul_left M hq1
      have hq3 := Nat.mul_le_mul_left M hq2
      obtain heq | ⟨h0, h63⟩ := hends
      · have hcp : cp / M = q := by
          have := Nat.div_le_div_right (c := M) h1
          have := Nat.div_le_div_right (c := M) h2
          omega
        have := Nat.div_add_mod cp M
        rw [hcp] at this
        omega
      · omega
    refine ⟨M * q + cp % M, hmem.1, hmem.2, ?_⟩
    rw [hdiv, hmod _ cp hlow]
    rfl
  · rintro ⟨cp, h1, h2, rfl⟩
    have hunit := @Climbs.unit_mem _ lgth _ _ _ hclimbs (Nat.div_le_div_right (c := M) h1)
      (Nat.div_le_div_right (c := M) h2)
    exact ⟨_, ⟨_, hunit, rfl⟩, _, ⟨cp, h1, h2, rfl⟩, rfl⟩

/-- The words of the last unit. -/
theorem letters_eq_rangeUnits (hlast : index = lgth) :
    letters (Set.Icc (unit index lgth (lo / 64 ^ (lgth - index)))
      (unit index lgth (hi / 64 ^ (lgth - index)))) = rangeUnits index lgth lo hi := by
  have hclimbs := h.climbs
  have hle := h.le
  subst hlast
  simp only [Nat.sub_self, Nat.pow_zero, Nat.div_one] at hclimbs
  ext w
  simp only [mem_letters, mem_rangeUnits, Set.mem_Icc, unitsFrom, Nat.sub_self, Nat.pow_zero,
    Nat.div_one, continuation]
  constructor
  · rintro ⟨k, ⟨hk1, hk2⟩, rfl⟩
    obtain ⟨q, hq1, hq2, rfl⟩ := exists_unit hle hk1 hk2
    exact ⟨q, hq1, hq2, rfl⟩
  · rintro ⟨cp, h1, h2, rfl⟩
    exact ⟨_, hclimbs.unit_mem h1 h2, rfl⟩

end Stretch

/-- The words of a range split in two. -/
theorem rangeUnits_split {mid : ℕ} (hlo : lo < mid) (hhi : mid ≤ hi) :
    rangeUnits index lgth mid hi ⊔ rangeUnits index lgth lo (mid - 1) =
      rangeUnits index lgth lo hi := by
  ext w
  rw [mem_sup]
  constructor
  · rintro (⟨cp, h1, h2, hw⟩ | ⟨cp, h1, h2, hw⟩)
    · exact ⟨cp, by omega, h2, hw⟩
    · exact ⟨cp, h1, by omega, hw⟩
  · rintro ⟨cp, h1, h2, hw⟩
    by_cases hmid : mid ≤ cp
    · exact .inl ⟨cp, hmid, h2, hw⟩
    · exact .inr ⟨cp, h1, by omega, hw⟩

end Units

section Masks

variable {j x : ℕ}

theorem suffix_mask_eq (j : ℕ) : 1 <<< (j * 6) - 1 = 2 ^ (j * 6) - 1 := by
  rw [Nat.one_shiftLeft]

theorem pow_eq (j : ℕ) : 64 ^ j = 2 ^ (j * 6) := by
  rw [Nat.mul_comm, Nat.pow_mul]

theorem and_suffix_mask : x &&& (1 <<< (j * 6) - 1) = x % 64 ^ j := by
  rw [suffix_mask_eq, pow_eq, Nat.and_two_pow_sub_one_eq_mod]

/-- With the low digits cleared. -/
theorem complement_and (hj : j ≤ 5) (hx : x < 2 ^ 32) :
    complement (1 <<< (j * 6) - 1) &&& x = 64 ^ j * (x / 64 ^ j) := by
  rw [suffix_mask_eq, pow_eq]
  obtain ⟨k, hk⟩ : ∃ k, k = j * 6 := ⟨_, rfl⟩
  have hmask : 2 ^ k - 1 < 2 ^ 32 := by
    have := Nat.pow_le_pow_right (n := 2) (by decide) (show k ≤ 32 by omega)
    have := Nat.pow_pos (n := k) (show 0 < 2 by decide)
    omega
  rw [← hk]
  apply Nat.eq_of_testBit_eq
  intro i
  rw [complement, Nat.sub_sub, Nat.add_comm 1, Nat.testBit_and,
    Nat.testBit_two_pow_sub_succ hmask, Nat.testBit_two_pow_sub_one, Nat.testBit_two_pow_mul,
    Nat.testBit_div_two_pow]
  by_cases hik : i < k
  · simp [hik]
  · rw [decide_eq_false hik, decide_eq_true (not_lt.1 hik), Nat.sub_add_cancel (not_lt.1 hik)]
    by_cases hi : i < 32
    · simp [hi]
    · have hsmall : x < 2 ^ i := hx.trans_le (Nat.pow_le_pow_right (by decide) (not_lt.1 hi))
      simp [Nat.testBit_lt_two_pow hsmall]

/-- With the low digits all 63. -/
theorem or_suffix_mask : x ||| (1 <<< (j * 6) - 1) = 64 ^ j * (x / 64 ^ j) + (64 ^ j - 1) := by
  rw [suffix_mask_eq, pow_eq]
  obtain ⟨k, hk⟩ : ∃ k, k = j * 6 := ⟨_, rfl⟩
  have hmask : 2 ^ k - 1 < 2 ^ k := Nat.sub_lt (Nat.pow_pos (by decide)) (by decide)
  rw [← hk, Nat.two_pow_add_eq_or_of_lt hmask]
  apply Nat.eq_of_testBit_eq
  intro i
  rw [Nat.testBit_or, Nat.testBit_or, Nat.testBit_two_pow_sub_one, Nat.testBit_two_pow_mul,
    Nat.testBit_div_two_pow]
  by_cases hik : i < k
  · simp [hik]
  · rw [decide_eq_true (not_lt.1 hik), Nat.sub_add_cancel (not_lt.1 hik), Bool.true_and]

end Masks

section Recursion

variable {m : Memory} {index lgth lo hi fuel : ℕ}

/-- The code units of a stretch. -/
def Splits (m : Memory) (fuel index lgth lo hi : ℕ) : Prop :=
  Realizes (rangeCodeUnitsFuel m lgth fuel lo hi index) (rangeUnits index lgth lo hi)

theorem Stretch.unit_le (h : Stretch index lgth lo hi) :
    unit index lgth (hi / 64 ^ (lgth - index)) ≤ unicodeMax := by
  have hw := h.width_hi
  have hmax := h.max
  simp only [unit, mark, digit, unicodeMax] at hmax ⊢
  split_ifs with h1
  · subst h1
    unfold width at hw
    split_ifs at hw <;> subst hw <;> simp only [lead] <;> omega
  · omega

theorem splits_last (h : Stretch index lgth lo hi) (hlast : index = lgth) :
    Splits m (fuel + 1) index lgth lo hi := by
  obtain ⟨c, hc, hover, hmembers⟩ :=
    ofRange_over (m := m) (h.climbs.unit_mem le_rfl h.div_le).2 h.unit_le
  rw [Splits, rangeCodeUnitsFuel, h.nthCodeUnit_hi, h.nthCodeUnit_lo, ok_bind, ok_bind,
    if_pos hlast, hc, ok_bind, pure_eq_ok, ← h.letters_eq_rangeUnits hlast, ← hmembers]
  exact realizes_cc hover

/-- Both ends agree on the unit at `index`. -/
theorem splits_same (h : Stretch index lgth lo hi) (hlt : index < lgth)
    (hsame : lo / 64 ^ (lgth - index) = hi / 64 ^ (lgth - index))
    (hnext : Splits m fuel (index + 1) lgth lo hi) : Splits m (fuel + 1) index lgth lo hi := by
  obtain ⟨c, hc, hover, hmembers⟩ := ofCodepoint_over (m := m) h.unit_le
  rw [Splits, rangeCodeUnitsFuel, h.nthCodeUnit_hi, h.nthCodeUnit_lo, ok_bind, ok_bind,
    if_neg hlt.ne, if_pos (by rw [hsame]), hc, ok_bind,
    ← h.letters_mul_rangeUnits hlt (.inl hsame), hsame, ← hmembers]
  exact realizes_seq hover hnext

/-- The split of a range whose ends differ in the unit at `index`. -/
theorem rangeCodeUnitsFuel_eq (h : Stretch index lgth lo hi) (hlt : index < lgth)
    (hne : lo / 64 ^ (lgth - index) ≠ hi / 64 ^ (lgth - index)) :
    rangeCodeUnitsFuel m lgth (fuel + 1) lo hi index =
      if hi % 64 ^ (lgth - index) ≠ 64 ^ (lgth - index) - 1 then do
        let hi_floor := 64 ^ (lgth - index) * (hi / 64 ^ (lgth - index))
        let above ← rangeCodeUnitsFuel m lgth fuel hi_floor hi index
        let below ← rangeCodeUnitsFuel m lgth fuel lo (hi_floor - 1) index
        makeAlt [above, below]
      else if lo % 64 ^ (lgth - index) ≠ 0 then do
        let low_ceil := 64 ^ (lgth - index) * (lo / 64 ^ (lgth - index)) + (64 ^ (lgth - index) - 1)
        let above ← rangeCodeUnitsFuel m lgth fuel (low_ceil + 1) hi index
        let below ← rangeCodeUnitsFuel m lgth fuel lo low_ceil index
        makeAlt [above, below]
      else do
        let c ← CC.ofRange m (unit index lgth (lo / 64 ^ (lgth - index)))
          (unit index lgth (hi / 64 ^ (lgth - index))) UTF8
        return makeSeq [cc c, ← rangeCodeUnitsFuel m lgth fuel lo hi (index + 1)] := by
  have hunit : ¬unit index lgth (hi / 64 ^ (lgth - index)) =
      unit index lgth (lo / 64 ^ (lgth - index)) :=
    fun heq ↦ hne (h.climbs.eq_of_unit_eq h.div_le heq)
  have hj : lgth - index ≤ 5 := by
    have := h.width_lo ▸ width_le lo
    omega
  have hhi : hi < 2 ^ 32 := lt_of_le_of_lt h.max (by decide)
  rw [rangeCodeUnitsFuel, h.nthCodeUnit_hi, h.nthCodeUnit_lo, ok_bind, ok_bind, if_neg hlt.ne,
    if_neg hunit]
  simp only [and_suffix_mask, complement_and hj hhi, or_suffix_mask]
  rw [suffix_mask_eq, ← pow_eq]

/-- The range holds all later units. -/
theorem splits_full (h : Stretch index lgth lo hi) (hlt : index < lgth)
    (hlo : lo % 64 ^ (lgth - index) = 0)
    (hhi : hi % 64 ^ (lgth - index) = 64 ^ (lgth - index) - 1)
    (hnext : Splits m fuel (index + 1) lgth lo hi) : Splits m (fuel + 1) index lgth lo hi := by
  by_cases hsame : lo / 64 ^ (lgth - index) = hi / 64 ^ (lgth - index)
  · exact splits_same h hlt hsame hnext
  · obtain ⟨c, hc, hover, hmembers⟩ :=
      ofRange_over (m := m) (h.climbs.unit_mem le_rfl h.div_le).2 h.unit_le
    rw [Splits, rangeCodeUnitsFuel_eq h hlt hsame, if_neg (not_not.2 hhi), if_neg (not_not.2 hlo),
      hc, ok_bind, ← h.letters_mul_rangeUnits hlt (.inr ⟨hlo, hhi⟩), ← hmembers]
    exact realizes_seq hover hnext

theorem div_mul_bounds {M : ℕ} (hM : 0 < M) (hne : lo / M ≠ hi / M) (hle : lo ≤ hi) :
    lo < M * (hi / M) ∧ M * (hi / M) ≤ hi ∧ lo ≤ M * (lo / M) + (M - 1) ∧
      M * (lo / M) + (M - 1) + 1 ≤ hi := by
  have hdiv := Nat.div_le_div_right (c := M) hle
  have hstep := Nat.mul_le_mul_left M (show lo / M + 1 ≤ hi / M by omega)
  have hlo := Nat.div_add_mod lo M
  have hlt := Nat.mod_lt lo hM
  have hhi := Nat.div_add_mod hi M
  rw [Nat.mul_add, Nat.mul_one] at hstep
  omega

/-- The later units are split with this much fuel or more. -/
def SplitsNext (m : Memory) (fuel index lgth : ℕ) : Prop :=
  ∀ fuel', fuel ≤ fuel' → ∀ lo hi, Stretch (index + 1) lgth lo hi →
    Splits m fuel' (index + 1) lgth lo hi

/-- The range ends with all later units. -/
theorem splits_high (h : Stretch index lgth lo hi) (hlt : index < lgth)
    (hhi : hi % 64 ^ (lgth - index) = 64 ^ (lgth - index) - 1)
    (hnext : SplitsNext m fuel index lgth) : Splits m (fuel + 2) index lgth lo hi := by
  by_cases hsame : lo / 64 ^ (lgth - index) = hi / 64 ^ (lgth - index)
  · exact splits_same h hlt hsame (hnext _ (by omega) _ _ (h.next hlt (.inl hsame)))
  by_cases hlo : lo % 64 ^ (lgth - index) = 0
  · exact splits_full h hlt hlo hhi (hnext _ (by omega) _ _ (h.next hlt (.inr ⟨hlo, hhi⟩)))
  rw [Splits, rangeCodeUnitsFuel_eq h hlt hsame, if_neg (not_not.2 hhi), if_pos hlo]
  have hM : 0 < 64 ^ (lgth - index) := Nat.pow_pos (by decide)
  obtain ⟨-, -, hceil, hceil'⟩ := div_mul_bounds hM hsame h.le
  have hpart {lo' hi' : ℕ} := @Stretch.part _ _ _ _ h lo' hi' fun hall ↦ hlo hall.1
  obtain ⟨low_ceil, hlow⟩ : ∃ c, c =
      64 ^ (lgth - index) * (lo / 64 ^ (lgth - index)) + (64 ^ (lgth - index) - 1) := ⟨_, rfl⟩
  rw [← hlow] at hceil hceil'
  have habove := hpart (hceil.trans (Nat.le_succ _)) hceil' le_rfl
  have hbelow := hpart le_rfl hceil ((Nat.le_succ _).trans hceil')
  have hzero : (low_ceil + 1) % 64 ^ (lgth - index) = 0 := by
    rw [hlow, Nat.add_assoc, Nat.sub_add_cancel hM, Nat.mul_add_mod, Nat.mod_self]
  have hsame' : lo / 64 ^ (lgth - index) = low_ceil / 64 ^ (lgth - index) := by
    rw [hlow, Nat.mul_add_div hM, Nat.div_eq_of_lt (Nat.sub_lt hM (by decide)), Nat.add_zero]
  rw [← rangeUnits_split (Nat.lt_succ_of_le hceil) hceil', ← hlow]
  exact realizes_alt
    (splits_full habove hlt hzero hhi (hnext _ le_rfl _ _ (habove.next hlt (.inr ⟨hzero, hhi⟩))))
    (splits_same hbelow hlt hsame' (hnext _ le_rfl _ _ (hbelow.next hlt (.inl hsame'))))

theorem splits_any (h : Stretch index lgth lo hi) (hlt : index < lgth)
    (hnext : SplitsNext m fuel index lgth) : Splits m (fuel + 3) index lgth lo hi := by
  have hmono : SplitsNext m (fuel + 1) index lgth := fun fuel' hle ↦ hnext fuel' (by omega)
  by_cases hsame : lo / 64 ^ (lgth - index) = hi / 64 ^ (lgth - index)
  · exact splits_same h hlt hsame (hnext _ (by omega) _ _ (h.next hlt (.inl hsame)))
  by_cases hhi : hi % 64 ^ (lgth - index) = 64 ^ (lgth - index) - 1
  · exact splits_high h hlt hhi hmono
  rw [Splits, rangeCodeUnitsFuel_eq h hlt hsame, if_pos hhi]
  have hM : 0 < 64 ^ (lgth - index) := Nat.pow_pos (by decide)
  obtain ⟨hfloor, hfloor', -, -⟩ := div_mul_bounds hM hsame h.le
  have hpart {lo' hi' : ℕ} := @Stretch.part _ _ _ _ h lo' hi' fun hall ↦ hhi hall.2
  obtain ⟨hi_floor, hfl⟩ : ∃ f, f = 64 ^ (lgth - index) * (hi / 64 ^ (lgth - index)) := ⟨_, rfl⟩
  rw [← hfl] at hfloor hfloor'
  have habove := hpart hfloor.le hfloor' le_rfl
  have hbelow := hpart le_rfl (Nat.le_sub_one_of_lt hfloor) ((Nat.sub_le _ _).trans hfloor')
  have hsame' : hi_floor / 64 ^ (lgth - index) = hi / 64 ^ (lgth - index) := by
    rw [hfl, Nat.mul_div_cancel_left _ hM]
  have hall : (hi_floor - 1) % 64 ^ (lgth - index) = 64 ^ (lgth - index) - 1 := by
    obtain ⟨q, hq⟩ : ∃ q, hi / 64 ^ (lgth - index) = q + 1 :=
      Nat.exists_eq_succ_of_ne_zero fun h0 ↦ by rw [h0, Nat.mul_zero] at hfl; omega
    rw [hfl, hq, Nat.mul_add, Nat.mul_one, Nat.add_sub_assoc hM, Nat.mul_add_mod,
      Nat.mod_eq_of_lt (Nat.sub_lt hM (by decide))]
  rw [← rangeUnits_split hfloor hfloor', ← hfl]
  exact realizes_alt
    (splits_same habove hlt hsame' (hnext _ (by omega) _ _ (habove.next hlt (.inl hsame'))))
    (splits_high hbelow hlt hall hnext)

/-- `rangeCodeUnits` matches the units from `index` on of the code points of the range. -/
theorem splits (h : Stretch index lgth lo hi) (hfuel : 3 * (lgth - index) + 3 ≤ fuel) :
    Splits m fuel index lgth lo hi := by
  obtain ⟨j, hj⟩ : ∃ j, j = lgth - index := ⟨_, rfl⟩
  induction j generalizing index lo hi fuel with
  | zero =>
    obtain ⟨fuel, rfl⟩ : ∃ f, fuel = f + 1 := ⟨fuel - 1, by omega⟩
    exact splits_last h (by have := h.le_lgth; omega)
  | succ j ih =>
    obtain ⟨fuel, rfl⟩ : ∃ f, fuel = f + 3 := ⟨fuel - 3, by omega⟩
    refine splits_any h (by omega) fun fuel' hle lo hi hstretch ↦ ?_
    exact ih hstretch (by omega) (by omega)

end Recursion

section Range

variable {m : Memory} {lo hi : ℕ}

/-- The encodings of the code points of a range. -/
def rangeWords (lo hi : ℕ) : Language ℕ := encoded utf8 (letters (Set.Icc lo hi))

theorem mem_rangeWords {w : List ℕ} :
    w ∈ rangeWords lo hi ↔ ∃ cp, lo ≤ cp ∧ cp ≤ hi ∧ utf8 cp = w := by
  simp only [rangeWords, mem_encoded, mem_letters, Set.mem_Icc]
  constructor
  · rintro ⟨_, ⟨cp, ⟨h1, h2⟩, rfl⟩, rfl⟩
    exact ⟨cp, h1, h2, by simp⟩
  · rintro ⟨cp, h1, h2, rfl⟩
    exact ⟨_, ⟨cp, ⟨h1, h2⟩, rfl⟩, by simp⟩

theorem rangeCodeUnits_realizes (hle : lo ≤ hi) (hmax : hi ≤ unicodeMax)
    (hw : width lo = width hi) :
    Realizes (rangeCodeUnits m lo hi 1 (width hi)) (rangeWords lo hi) := by
  have hstretch : Stretch 1 (width hi) lo hi :=
    ⟨Nat.one_pos, width_pos hi, hle, hmax, hw, rfl, .inl rfl⟩
  have hwords : rangeWords lo hi = rangeUnits 1 (width hi) lo hi := by
    ext w
    rw [mem_rangeWords, mem_rangeUnits]
    refine exists_congr fun cp ↦ and_congr_right fun h1 ↦ and_congr_right fun h2 ↦ ?_
    rw [utf8_eq_unitsFrom, hstretch.width_eq h1 h2]
  rw [hwords]
  exact splits hstretch (by have := width_pos hi; omega)

theorem rangeWords_split {mid : ℕ} (hlo : lo ≤ mid) (hhi : mid < hi) :
    rangeWords lo mid ⊔ rangeWords (mid + 1) hi = rangeWords lo hi := by
  rw [rangeWords, rangeWords, ← encoded_sup, ← letters_union, rangeWords]
  congr 2
  ext x
  simp only [Set.mem_union, Set.mem_Icc]
  omega

/-- `rangeToUTF8` matches the encodings of the code points of the range. -/
theorem rangeToUTF8Fuel_realizes {fuel : ℕ} (hle : lo ≤ hi) (hmax : hi ≤ unicodeMax)
    (hfuel : width hi - width lo < fuel) :
    Realizes (rangeToUTF8Fuel m fuel lo hi) (rangeWords lo hi) := by
  induction fuel generalizing lo hi with
  | zero => omega
  | succ fuel ih =>
    have hlo : mEncoder.encoded_length lo = width lo := encoded_length_eq lo
    have hhi : mEncoder.encoded_length hi = width hi := encoded_length_eq hi
    rw [rangeToUTF8Fuel]
    simp only [hlo, hhi]
    have hmono := width_mono hle
    split_ifs with hlt
    · obtain ⟨mid, hmid, h1, h2, hw, hw'⟩ := max_codepoint_spec hlt
      have hfirst := ih h1 (h2.le.trans hmax) (by omega)
      have hrest := ih (show mid + 1 ≤ hi from h2) hmax (by omega)
      rw [show mEncoder.max_codepoint_of_length (width lo) = .ok mid from hmid, ok_bind,
        ← rangeWords_split h1 h2]
      exact realizes_alt hfirst hrest
    · exact rangeCodeUnits_realizes hle hmax (by omega)

theorem rangeToUTF8_realizes (hle : lo ≤ hi) (hmax : hi ≤ unicodeMax) :
    Realizes (rangeToUTF8 m lo hi) (rangeWords lo hi) := by
  have h1 := width_pos lo
  have h2 := width_le hi
  exact rangeToUTF8Fuel_realizes hle hmax (by omega)

end Range

end Parabix.RE
