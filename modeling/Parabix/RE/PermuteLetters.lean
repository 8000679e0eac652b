import Parabix.RE.Permute

namespace Parabix.RE

open Library Library.Powers Library.Spans UCD

-- The parser makes a Permute of letters only. Two nodes that are made in turn are never one.

section Expand

variable {cps : List ℕ} {cp : ℕ} {u : CC} {items : List RE} {anyAlt e : RE} {n : ℕ}

theorem letter_not_emptySet (h : cp ≤ unicodeMax) : ¬ (letter cp).isEmptySet = true := by
  intro hset
  have hcp := denote_emptySet (M := words) (letter_valid h) hset
  rw [letter, denote, members_singleton h] at hcp
  have hmem : [cp] ∈ Encoding.letters {cp} := ⟨cp, rfl, rfl⟩
  exact hcp.le hmem

theorem foldlM_letters (hu : u.set.WellFormed) (halphabet : u.alphabet = Unicode)
    (h : ∀ cp ∈ cps, cp ≤ unicodeMax) : ∃ u',
      (cps.map letter).foldlM (addAlternative makeRep) ⟨[], false, [u]⟩ = .ok ⟨[], false, [u']⟩ ∧
        u'.set.WellFormed ∧ u'.set.members = u.set.members ∪ {x | x ∈ cps} := by
  induction cps generalizing u with
  | nil => exact ⟨u, rfl, hu, by simp⟩
  | cons cp cps ih =>
    obtain ⟨hcp, hcps⟩ := List.forall_mem_cons.1 h
    have hone : (⟨.singleton zeroed cp, Unicode⟩ : CC).set.WellFormed :=
      singleton_wellFormed zeroed hcp
    obtain ⟨u₁, hu₁, hwf, halphabet₁, hmembers⟩ := CC.union_spec hu hone halphabet
    obtain ⟨u', hu', hwf', hmembers'⟩ := ih hwf (halphabet₁.trans halphabet) hcps
    refine ⟨u', ?_, hwf', ?_⟩
    · rw [List.map_cons, List.foldlM_cons, letter, addAlternative, combineCC, if_pos halphabet, hu₁]
      exact hu'
    · rw [hmembers', hmembers, members_singleton hcp]
      ext x
      simp only [Set.mem_union, Set.mem_singleton_iff, Set.mem_ofPred_eq, List.mem_cons, or_assoc]

/-- The union of letters is one class. -/
theorem makeAlt_letters (hne : cps ≠ []) (h : ∀ cp ∈ cps, cp ≤ unicodeMax) :
    ∃ u, makeAlt (cps.map letter) = .ok (cc u) ∧ u.set.WellFormed ∧
      u.set.members = {x | x ∈ cps} := by
  cases cps with
  | nil => exact absurd rfl hne
  | cons cp cps =>
    obtain ⟨hcp, hcps⟩ := List.forall_mem_cons.1 h
    obtain ⟨u, hu, hwf, hmembers⟩ :=
      @foldlM_letters cps ⟨.singleton zeroed cp, Unicode⟩ (singleton_wellFormed zeroed hcp) rfl hcps
    refine ⟨u, ?_, hwf, ?_⟩
    · rw [makeAlt, makeAltWith, List.map_cons, List.foldlM_cons]
      change (do return collapse alt (← (cps.map letter).foldlM (addAlternative makeRep)
        ⟨[], false, [⟨.singleton zeroed cp, Unicode⟩]⟩).elements) = _
      rw [hu]
      rfl
    · rw [hmembers, members_singleton hcp]
      ext x
      simp

theorem makeDiff_letter (hu : ¬ (cc u).isEmptySet = true) (h : cp ≤ unicodeMax) :
    makeDiff (fun _ _ ↦ false) (cc u) (letter cp) = .ok (diff (cc u) (letter cp)) := by
  have hseq : ¬ (cc u).isEmptySeq = true := Bool.false_ne_true
  have hletter := letter_not_emptySet h
  rw [letter] at hletter ⊢
  rw [makeDiff, if_neg Bool.false_ne_true, if_neg hletter, if_neg hseq, if_neg hu]
  intro lh₀ rh₀ heq
  cases heq

theorem makeLookBehind_ok (e : RE) : ∃ r, Boundaries.makeLookBehindAssertion e = .ok r := by
  rw [Boundaries.makeLookBehindAssertion, makeAssertion]
  split_ifs <;> exact ⟨_, rfl⟩

theorem mapM_ok {f : RE → Except Fault RE} (h : ∀ e ∈ items, ∃ r, f e = .ok r) :
    ∃ rs, items.mapM f = .ok rs := by
  induction items with
  | nil => exact ⟨[], rfl⟩
  | cons e items ih =>
    obtain ⟨⟨r, hr⟩, hitems⟩ := List.forall_mem_cons.1 h
    obtain ⟨rs, hrs⟩ := ih hitems
    exact ⟨r :: rs, by rw [List.mapM_cons, hr, ok_bind, hrs, ok_bind]; rfl⟩

theorem permAssertion_letter (hu : ¬ (cc u).isEmptySet = true) (h : cp ≤ unicodeMax) (hn : 0 < n)
    (hn' : n < 2 ^ 31) :
    ∃ r, permAssertion (fun _ _ ↦ false) (cc u) n (letter cp) = .ok r := by
  have hb : Bounds 0 ((n : ℤ) - 1) := ⟨by decide, by decide, by omega, by omega⟩
  have hrep : ∃ x, makeRep (diff (cc u) (letter cp)) 0 (n - 1) = .ok x := by
    rw [makeRep, makeRepFuel_eq 1 hb, if_neg (by simp [isEmptySet, isEmptySeq]), repeatNode]
    · split_ifs <;> exact ⟨_, rfl⟩
    · simp
    · simp
  obtain ⟨x, hx⟩ := hrep
  obtain ⟨r, hr⟩ := makeLookBehind_ok (makeSeq [letter cp, x])
  exact ⟨r, by rw [permAssertion, makeDiff_letter hu h, ok_bind, hx, ok_bind, hr]⟩

theorem transformPermute_ok (hne : cps ≠ []) (h : ∀ cp ∈ cps, cp ≤ unicodeMax)
    (hlen : cps.length < 2 ^ 31) :
    (∃ r, transformPermute (fun _ _ ↦ false) (cps.map letter) = .ok r) ∧
      ¬ Lost (fun _ _ ↦ false) (cps.map letter) := by
  obtain ⟨u, hu, hwf, hmembers⟩ := makeAlt_letters hne h
  have hset : ¬ (cc u).isEmptySet = true := by
    intro hset
    obtain ⟨cp, hcp⟩ := List.exists_mem_of_ne_nil cps hne
    have hmem : cp ∈ u.set.members := by rwa [hmembers]
    rw [members_of_empty hwf hset] at hmem
    exact hmem
  have hpos : 0 < cps.length := List.length_pos_iff.2 hne
  have hb : Bounds (cps.length : ℤ) cps.length := ⟨by omega, by omega, .inr le_rfl, by omega⟩
  have hrep : ∃ x, makeRep (cc u) cps.length cps.length = .ok x := by
    rw [makeRep, makeRepFuel_eq 1 hb, if_neg (by simpa [isEmptySeq] using hset), repeatNode]
    · split_ifs <;> exact ⟨_, rfl⟩
    · simp
    · simp
  constructor
  · obtain ⟨x, hx⟩ := hrep
    obtain ⟨rs, hrs⟩ := @mapM_ok (cps.map letter)
      (permAssertion (fun _ _ ↦ false) (cc u) cps.length)
      (List.forall_mem_map.2 fun cp hcp ↦ permAssertion_letter hset (h cp hcp) hpos hlen)
    refine ⟨makeSeq (x :: rs), ?_⟩
    rw [transformPermute, hu, ok_bind, List.length_map, hx, ok_bind, hrs]
    rfl
  · rintro ⟨anyAlt, hany, e, he, negated, hnegated, hempty⟩
    obtain rfl := Except.ok.inj (hu.symm.trans hany)
    obtain ⟨cp, hcp, rfl⟩ := List.mem_map.1 he
    rw [makeDiff_letter hset (h cp hcp)] at hnegated
    obtain rfl := Except.ok.inj hnegated
    cases hempty

end Expand

section Words

variable {text w cps : List ℕ} {property : ℕ → ℕ → Prop} {cp p q : ℕ}

theorem denote_text_letter (h : cp ≤ unicodeMax) :
    denote (Boundaries.textMeaning text property) (letter cp) p q ↔
      q = p + 1 ∧ text[p]? = some cp := by
  rw [letter, denote, members_singleton h]
  simp [Boundaries.textMeaning, step]

/-- A sequence of letters is matched where they are in the text. -/
theorem denoteSeq_letters (h : ∀ cp ∈ w, cp ≤ unicodeMax) :
    denoteSeq (Boundaries.textMeaning text property) (w.map letter) p q ↔
      q = p + w.length ∧ ∀ i < w.length, text[p + i]? = w[i]? := by
  induction w generalizing p with
  | nil => simp [eq_comm]
  | cons cp w ih =>
    obtain ⟨hcp, hw⟩ := List.forall_mem_cons.1 h
    rw [List.map_cons, denoteSeq, mul_apply]
    simp only [denote_text_letter hcp, ih hw, List.length_cons]
    constructor
    · rintro ⟨m, ⟨rfl, hfirst⟩, rfl, hrest⟩
      refine ⟨by omega, fun i hi ↦ ?_⟩
      cases i with
      | zero => simpa using hfirst
      | succ i =>
        have hlater := hrest i (by omega)
        rw [List.getElem?_cons_succ, ← hlater]
        congr 1
        omega
    · rintro ⟨rfl, hall⟩
      refine ⟨p + 1, ⟨rfl, by simpa using hall 0 (by omega)⟩, by omega, fun i hi ↦ ?_⟩
      have hlater := hall (i + 1) (by omega)
      rw [List.getElem?_cons_succ] at hlater
      rw [← hlater]
      congr 1
      omega

theorem orderings_letters : orderings (Boundaries.textMeaning text property) (cps.map letter) p q ↔
    ∃ w : List ℕ, w.Perm cps ∧
      denoteSeq (Boundaries.textMeaning text property) (w.map letter) p q := by
  rw [orderings_apply]
  constructor
  · rintro ⟨order, hperm, hm⟩
    have hcomp := congrFun (congrFun (List.eq_map_comp_perm letter) order) cps
    obtain ⟨w, rfl, hw⟩ := (iff_of_eq hcomp).2 hperm
    exact ⟨w, hw, hm⟩
  · rintro ⟨w, hw, hm⟩
    exact ⟨w.map letter, hw.map letter, hm⟩

theorem denoteAlt_letters (h : ∀ cp ∈ cps, cp ≤ unicodeMax) :
    denoteAlt (Boundaries.textMeaning text property) (cps.map letter) =
      step fun p ↦ ∃ cp ∈ cps, text[p]? = some cp := by
  induction cps with
  | nil => exact Span.ext fun p q ↦ by simp [step]
  | cons cp cps ih =>
    obtain ⟨hcp, hcps⟩ := List.forall_mem_cons.1 h
    refine Span.ext fun p q ↦ ?_
    rw [List.map_cons, denoteAlt, ih hcps, sup_apply, denote_text_letter hcp]
    simp [step, and_or_left]

/-- The letters that are met are those of a word of the same length. -/
theorem word_of_met (h : ∀ cp ∈ cps, cp ≤ unicodeMax)
    (hmet : Met (Boundaries.textMeaning text property) (cps.map letter) p q) :
    ∃ w : List ℕ, w.length = cps.length ∧ (∀ x ∈ w, x ∈ cps) ∧ (∀ x ∈ cps, x ∈ w) ∧
      denoteSeq (Boundaries.textMeaning text property) (w.map letter) p q := by
  obtain ⟨hrun, heach⟩ := hmet
  rw [denoteAlt_letters h] at hrun heach
  rw [List.length_map] at hrun heach
  obtain ⟨rfl, hletters⟩ := step_pow.1 hrun
  let w := (text.drop p).take cps.length
  have hget (i : ℕ) (hi : i < cps.length) : w[i]? = text[p + i]? := by
    rw [List.getElem?_take_of_lt hi, List.getElem?_drop]
  have hfrom (i : ℕ) (hi : i < cps.length) : ∃ cp ∈ cps, w[i]? = some cp := by
    rw [hget i hi]
    exact hletters (p + i) (by omega) (by omega)
  have hlength : w.length = cps.length := by
    refine le_antisymm (List.length_take_le _ _) (Nat.le_of_not_lt fun hlt ↦ ?_)
    obtain ⟨cp, -, hcp⟩ := hfrom w.length hlt
    rw [List.getElem?_eq_none (le_refl w.length)] at hcp
    cases hcp
  have hsub : ∀ x ∈ w, x ∈ cps := by
    intro x hx
    obtain ⟨i, hi⟩ := List.mem_iff_getElem?.1 hx
    obtain ⟨cp, hcp, hw⟩ := hfrom i (hlength ▸ (List.getElem?_eq_some_iff.1 hi).1)
    rw [hi] at hw
    exact Option.some.inj hw ▸ hcp
  refine ⟨w, hlength, hsub, fun x hx ↦ ?_, ?_⟩
  · -- Fewer than all the letters come behind the last one of these.
    obtain ⟨start, stop, hx', k, hk, hrest⟩ := heach (letter x) (List.mem_map_of_mem hx)
    obtain ⟨rfl, htext⟩ := (denote_text_letter (h x hx)).1 hx'
    have hle := pow_le_pow_left' (sdiff_le (a := step fun p ↦ ∃ cp ∈ cps, text[p]? = some cp)
      (b := denote (Boundaries.textMeaning text property) (letter x))) k
    have hbehind := (step_pow.1 (hle _ _ hrest)).1
    have hi : w[cps.length - 1 - k]? = some x := by
      rw [hget _ (by omega), ← htext]
      congr 1
      omega
    exact List.mem_of_getElem? hi
  · rw [denoteSeq_letters fun x hx ↦ h x (hsub x hx), hlength]
    exact ⟨rfl, fun i hi ↦ (hget i hi).symm⟩

theorem met_of_word (hlength : w.length = cps.length) (hsub : ∀ x ∈ w, x ∈ cps)
    (hall : ∀ x ∈ cps, x ∈ w)
    (hm : denoteSeq (Boundaries.textMeaning text property) (w.map letter) p q) :
    Met (Boundaries.textMeaning text property) (cps.map letter) p q := by
  have hle : ∀ e ∈ w.map letter, denote (Boundaries.textMeaning text property) e ≤
      denoteAlt (Boundaries.textMeaning text property) (cps.map letter) :=
    List.forall_mem_map.2 fun x hx ↦ denote_le_alt (List.mem_map_of_mem (hsub x hx))
  have hlength' : (w.map letter).length = (cps.map letter).length := by simpa using hlength
  constructor
  · rw [← hlength']
    exact denoteSeq_le_pow hle p q hm
  · intro e he
    obtain ⟨x, hx, rfl⟩ := List.mem_map.1 he
    rw [← hlength']
    exact last_of_mem hle (List.mem_map_of_mem (hall x hx)) hm

/-- A text of the letters, with one of them as often as there are letters missing. -/
theorem orderings_of_padded (h : ∀ cp ∈ cps, cp ≤ unicodeMax) {x : ℕ} (hx : x ∈ cps)
    (heq : ∀ text, ∀ p q, Met (Boundaries.textMeaning text property) (cps.map letter) p q →
      orderings (Boundaries.textMeaning text property) (cps.map letter) p q) :
    (cps.dedup ++ List.replicate (cps.length - cps.dedup.length) x).Perm cps := by
  have hdedup : cps.dedup.length ≤ cps.length := (List.dedup_sublist cps).length_le
  generalize hw : cps.dedup ++ List.replicate (cps.length - cps.dedup.length) x = w
  have hlength : w.length = cps.length := by
    rw [← hw, List.length_append, List.length_replicate]
    omega
  have hsub : ∀ y ∈ w, y ∈ cps := by
    intro y hy
    rw [← hw, List.mem_append, List.mem_dedup] at hy
    obtain hy | hy := hy
    · exact hy
    · exact List.eq_of_mem_replicate hy ▸ hx
  have hall : ∀ y ∈ cps, y ∈ w := fun y hy ↦ by
    rw [← hw]
    exact List.mem_append_left _ (List.mem_dedup.2 hy)
  have hm : denoteSeq (Boundaries.textMeaning w property) (w.map letter) 0 w.length := by
    rw [denoteSeq_letters fun y hy ↦ h y (hsub y hy)]
    exact ⟨by omega, fun i _ ↦ by rw [Nat.zero_add]⟩
  have hmet := met_of_word hlength hsub hall hm
  obtain ⟨w', hperm, hm'⟩ := orderings_letters.1 (heq w 0 w.length hmet)
  rw [denoteSeq_letters fun y hy ↦ h y (hperm.mem_iff.1 hy)] at hm'
  have hsame : w = w' := by
    refine List.ext_getElem? fun i ↦ ?_
    by_cases hi : i < w'.length
    · rw [← hm'.2 i hi, Nat.zero_add]
    · rw [List.getElem?_eq_none (Nat.le_of_not_lt hi), List.getElem?_eq_none (by omega)]
  exact hsame ▸ hperm

/-- With a letter twice and another one, some text has the letters in other numbers. -/
theorem nodup_or_same_iff (h : ∀ cp ∈ cps, cp ≤ unicodeMax) :
    (∀ text, ∀ p q, Met (Boundaries.textMeaning text property) (cps.map letter) p q →
      orderings (Boundaries.textMeaning text property) (cps.map letter) p q) ↔
      cps.Nodup ∨ ∀ a ∈ cps, ∀ b ∈ cps, a = b := by
  constructor
  · intro heq
    by_contra hneither
    obtain ⟨hdup, hsame⟩ := not_or.1 hneither
    push Not at hsame
    obtain ⟨a, ha, b, hb, hab⟩ := hsame
    have hcount := (orderings_of_padded h ha heq).count_eq a
    rw [← (orderings_of_padded h hb heq).count_eq a, List.count_append, List.count_append,
      List.count_replicate_self, List.count_replicate, if_neg (by simpa using hab.symm)] at hcount
    have hfull : cps.dedup.length = cps.length :=
      le_antisymm (List.dedup_sublist cps).length_le (by omega)
    exact hdup (List.dedup_eq_self.1 ((List.dedup_sublist cps).eq_of_length hfull))
  · intro hcps text p q hmet
    obtain ⟨w, hlength, hsub, hall, hm⟩ := word_of_met h hmet
    refine orderings_letters.2 ⟨w, ?_, hm⟩
    obtain hnodup | hsame := hcps
    · exact ((List.subperm_of_subset hnodup hall).perm_of_length_le hlength.le).symm
    · cases cps with
      | nil => exact List.eq_nil_of_length_eq_zero hlength ▸ List.Perm.refl _
      | cons a cps =>
        have hone : ∀ x ∈ a :: cps, x = a := fun x hx ↦ hsame x hx a (List.mem_cons_self ..)
        have hw : w = List.replicate (a :: cps).length a :=
          List.eq_replicate_iff.2 ⟨hlength, fun x hx ↦ hone x (hsub x hx)⟩
        have hcps : a :: cps = List.replicate (a :: cps).length a :=
          List.eq_replicate_iff.2 ⟨rfl, hone⟩
        rw [hw, ← hcps]

end Words

section Exact

end Exact

end Parabix.RE
