import Parabix.Library.Bits
import Parabix.RE.MultiplexExact

namespace Parabix.RE

open Library UCD

section Number

/-- The binary number whose bit `k` is set iff `c` is in plane `k`. -/
def number (planes : List CC) (c : ℕ) : ℕ := ofDigits (planes.map fun P ↦ P.contains c)

theorem testBit_number (planes : List CC) (c k : ℕ) :
    (number planes c).testBit k = (planes[k]?.map fun P ↦ P.contains c).getD false := by
  rw [number, testBit_ofDigits, List.getD_eq_getElem?_getD, List.getElem?_map]

variable {n : ℕ} {f : ℕ → ℕ → Bool} {st : Sweep n}

/-- The planes spell the number of the exclusive set of a code point. -/
theorem Sweep.Done.number_eq (h : st.Done f) {e : BitVec n × ℕ}
    (he : e ∈ st.CC_set_to_exclusive_set_map) {c : ℕ} (hc : c ≤ unicodeMax)
    (hs : Signs f e.1 c) : number st.multiplexedCCs c = e.2 := by
  apply Nat.eq_of_testBit_eq
  intro k
  rw [testBit_number]
  cases hk : st.multiplexedCCs[k]? with
  | none =>
    have hlen : st.multiplexedCCs.length ≤ k := List.getElem?_eq_none_iff.1 hk
    have hlt : e.2 < 2 ^ k := by
      have hnext := h.table.lt_next he
      have hbits := h.bits
      have hpow := Nat.pow_le_pow_right (n := 2) (by omega) hlen
      omega
    rw [Nat.testBit_lt_two_pow hlt]
    rfl
  | some P =>
    have hP := (h.planes k P hk).2 c
    simp only [Option.map_some, Option.getD_some]
    rw [Bool.eq_iff_iff, hP]
    constructor
    · rintro ⟨_, e', he', hbit, hs'⟩
      rwa [h.table.unique he he' hs hs']
    · intro hbit
      exact ⟨by omega, e, he, hbit, hs⟩

theorem Sweep.Done.exists_signs (h : st.Done f) {c : ℕ} (hc : c ≤ unicodeMax) :
    ∃ v : BitVec n, (v, number st.multiplexedCCs c) ∈ st.CC_set_to_exclusive_set_map ∧
      Signs f v c := by
  obtain ⟨⟨v, id⟩, he, hs⟩ := h.table.known c (by omega)
  rw [h.number_eq he hc hs]
  exact ⟨v, he, hs⟩

theorem Sweep.Done.mem_ids_iff (h : st.Done f) {i c : ℕ} (hi : i < n) (hc : c ≤ unicodeMax) :
    number st.multiplexedCCs c ∈ st.exclusiveSetIDs.getD i [] ↔ f i c = true := by
  obtain ⟨v, he, hs⟩ := h.exists_signs hc
  rw [h.ids.2 i hi, ← hs i hi]
  constructor
  · rintro ⟨w, hw, hbit⟩
    have heq : w = v := congrArg Prod.fst (h.table.inj_ids hw he rfl)
    rwa [← heq]
  · exact fun hbit ↦ ⟨v, he, hbit⟩

theorem Sweep.Done.number_eq_iff (h : st.Done f) {c d : ℕ} (hc : c ≤ unicodeMax)
    (hd : d ≤ unicodeMax) :
    number st.multiplexedCCs c = number st.multiplexedCCs d ↔ ∀ i < n, f i c = f i d := by
  obtain ⟨v, hv, hsv⟩ := h.exists_signs hc
  constructor
  · intro heq i hi
    obtain ⟨w, hw, hsw⟩ := h.exists_signs hd
    have hvw : v = w := congrArg Prod.fst (h.table.inj_ids hv hw heq)
    rw [← hsv i hi, ← hsw i hi, hvw]
  · intro hsame
    refine (h.number_eq hv hd fun i hi ↦ ?_).symm
    rw [hsv i hi, hsame i hi]

/-- The numbers of a class are the numbers of its members. -/
theorem Sweep.Done.mem_ids (h : st.Done f) {i id : ℕ} (hi : i < n) :
    id ∈ st.exclusiveSetIDs.getD i [] ↔
      ∃ c ≤ unicodeMax, f i c = true ∧ number st.multiplexedCCs c = id := by
  constructor
  · intro hid
    obtain ⟨v, hv, hbit⟩ := (h.ids.2 i hi id).1 hid
    have hne : id ≠ 0 := by
      intro h0
      have heq : (0 : BitVec n) = v :=
        congrArg Prod.fst (h.table.inj_ids h.table.zero hv h0.symm)
      rw [← heq] at hbit
      simp at hbit
    obtain ⟨c, -, hc, hs⟩ := h.table.seen _ hv hne
    exact ⟨c, hc, by rw [← hs i hi]; exact hbit, h.number_eq hv hc hs⟩
  · rintro ⟨c, hc, hf, hid⟩
    rw [← hid]
    exact (h.mem_ids_iff hi hc).2 hf

/-- The sets are numbered in the order of their first code points. -/
theorem Sweep.Done.number_le (h : st.Done f) {c : ℕ} (hc : c ≤ unicodeMax) :
    number st.multiplexedCCs c ≤ c + 1 := by
  obtain ⟨v, he, hs⟩ := h.exists_signs hc
  exact h.table.early c (by omega) _ he hs

/-- All the numbers up to that of a code point are taken. -/
theorem Sweep.Done.taken (h : st.Done f) {c id : ℕ} (hc : c ≤ unicodeMax)
    (hid : id ≤ number st.multiplexedCCs c) (h0 : id ≠ 0) :
    ∃ d ≤ unicodeMax, number st.multiplexedCCs d = id := by
  obtain ⟨v, he, -⟩ := h.exists_signs hc
  have hlt := h.table.lt_next he
  have hmem : id ∈ st.CC_set_to_exclusive_set_map.map Prod.snd := by
    rw [h.table.ids, List.mem_range]
    exact Nat.lt_of_le_of_lt hid hlt
  obtain ⟨e, hm, rfl⟩ := List.mem_map.1 hmem
  obtain ⟨d, -, hd, hs⟩ := h.table.seen e hm h0
  exact ⟨d, hd, h.number_eq hm hd hs⟩

theorem Sweep.Done.number_zero_iff (h : st.Done f) {c : ℕ} (hc : c ≤ unicodeMax) :
    number st.multiplexedCCs c = 0 ↔ ∀ i < n, f i c = false := by
  have hz := h.table.zero
  constructor
  · intro h0 i hi
    obtain ⟨v, hv, hs⟩ := h.exists_signs hc
    rw [h0] at hv
    have hv0 : v = 0 := congrArg Prod.fst (h.table.inj_ids hv hz rfl)
    rw [← hs i hi, hv0]
    exact BitVec.getLsbD_zero
  · intro hno
    refine h.number_eq hz hc fun i hi ↦ ?_
    rw [hno i hi]
    exact BitVec.getLsbD_zero

end Number

section Exhausting

/-- Each code point is in some class, and no two are in the same classes. -/
def Exhausting (n : ℕ) (f : ℕ → ℕ → Bool) : Prop :=
  (∀ c ≤ unicodeMax, ∃ i < n, f i c = true) ∧
    ∀ c ≤ unicodeMax, ∀ d ≤ unicodeMax, (∀ i < n, f i c = f i d) → c = d

variable {n : ℕ} {f : ℕ → ℕ → Bool} {st : Sweep n}

/-- Each code point opens an exclusive set of its own. -/
theorem Sweep.Done.number_of_exhausting (h : st.Done f) (hex : Exhausting n f) {c : ℕ}
    (hc : c ≤ unicodeMax) : number st.multiplexedCCs c = c + 1 := by
  induction c using Nat.strong_induction_on with
  | _ c ih =>
    have hle := h.number_le hc
    by_contra hne
    have h0 : number st.multiplexedCCs c ≠ 0 := by
      intro h0
      obtain ⟨i, hi, hf⟩ := hex.1 c hc
      rw [(h.number_zero_iff hc).1 h0 i hi] at hf
      cases hf
    -- The number would be that of an earlier code point.
    have hd := ih (number st.multiplexedCCs c - 1) (by omega) (by omega)
    have heq : number st.multiplexedCCs (number st.multiplexedCCs c - 1) =
        number st.multiplexedCCs c := by omega
    have := hex.2 _ (by omega) c hc ((h.number_eq_iff (by omega) hc).1 heq)
    omega

/-- When the number of the last code point is that of an exhausting list, so are all. -/
theorem Sweep.Done.number_of_last (h : st.Done f)
    (hlast : number st.multiplexedCCs unicodeMax = unicodeMax + 1) (k : ℕ) {c : ℕ}
    (hk : c + k = unicodeMax) : number st.multiplexedCCs c = c + 1 := by
  induction k using Nat.strong_induction_on generalizing c with
  | _ k ih =>
    obtain ⟨d, hd, hnum⟩ := h.taken (Nat.le_refl _)
      (show c + 1 ≤ number st.multiplexedCCs unicodeMax by rw [hlast]; omega) (by omega)
    have hle := h.number_le hd
    by_cases hcd : d = c
    · rw [← hcd, hnum, hcd]
    · have := ih (unicodeMax - d) (by omega) (c := d) (by omega)
      omega

theorem Sweep.Done.exhausting_iff (h : st.Done f) :
    Exhausting n f ↔ number st.multiplexedCCs unicodeMax = unicodeMax + 1 := by
  constructor
  · exact fun hex ↦ h.number_of_exhausting hex (Nat.le_refl _)
  · intro hlast
    have hall (c : ℕ) (hc : c ≤ unicodeMax) : number st.multiplexedCCs c = c + 1 :=
      h.number_of_last hlast (unicodeMax - c) (by omega)
    constructor
    · intro c hc
      by_contra hno
      have h0 := (h.number_zero_iff hc).2 fun i hi ↦ by
        by_contra hf
        exact hno ⟨i, hi, by simpa using hf⟩
      rw [hall c hc] at h0
      omega
    · intro c hc d hd hsame
      have heq := (h.number_eq_iff hc hd).2 hsame
      rw [hall c hc, hall d hd] at heq
      omega

/-- All the numbers of a class are code points, but for the last class of an exhausting list. -/
theorem Sweep.Done.ids_le_iff (h : st.Done f) {i : ℕ} (hi : i < n) :
    (∀ id ∈ st.exclusiveSetIDs.getD i [], id ≤ unicodeMax) ↔
      ¬ (Exhausting n f ∧ f i unicodeMax = true) := by
  rw [h.exhausting_iff]
  constructor
  · rintro hle ⟨hlast, hf⟩
    have := hle _ ((h.mem_ids hi).2 ⟨unicodeMax, Nat.le_refl _, hf, rfl⟩)
    omega
  · intro hno id hid
    obtain ⟨c, hc, hf, rfl⟩ := (h.mem_ids hi).1 hid
    have hle := h.number_le hc
    by_contra hgt
    have hcmax : c = unicodeMax := by omega
    subst hcmax
    exact hno ⟨by omega, hf⟩

end Exhausting

section Union

variable {m : Memory}

theorem ofCodepoint_spec (m : Memory) (this : ℕ) {id : ℕ} (h : id ≤ unicodeMax) :
    ∃ d, CC.ofCodepoint m id this = .ok d ∧ d.set.WellFormed ∧ d.alphabet = this ∧
      d.set.members = {id} :=
  ⟨⟨.singleton m id, this⟩, by rw [CC.ofCodepoint, if_pos h], singleton_wellFormed m h, rfl,
    members_singleton h⟩

/-- The union is built iff all the numbers are code points. -/
theorem unionOf_exact (m : Memory) (this : ℕ) (ids : List ℕ) (c : CC) (hc : c.set.WellFormed)
    (ha : c.alphabet = this) :
    (∃ t, ids.foldlM (fun CC_union i ↦ do CC_union.union (← CC.ofCodepoint m i this)) c = .ok t ∧
      t.set.WellFormed ∧ t.alphabet = this ∧ t.set.members = c.set.members ∪ {x | x ∈ ids}) ↔
    ∀ id ∈ ids, id ≤ unicodeMax := by
  induction ids generalizing c with
  | nil => exact ⟨by simp, fun _ ↦ ⟨c, rfl, hc, ha, by simp⟩⟩
  | cons id ids ih =>
    rw [List.foldlM_cons, List.forall_mem_cons]
    by_cases hid : id ≤ unicodeMax
    · obtain ⟨d, hd, hdw, hda, hdm⟩ := ofCodepoint_spec m this hid
      obtain ⟨u, hu, huw, hua, hum⟩ := CC.union_spec hc hdw (ha.trans hda.symm)
      rw [hd, ok_bind, hu, ok_bind]
      have hsets : c.set.members ∪ {x | x ∈ id :: ids} = u.set.members ∪ {x | x ∈ ids} := by
        rw [hum, hdm, Set.union_assoc]
        congr 1
        ext x
        simp
      rw [hsets, ih u huw (hua.trans ha)]
      exact ⟨fun h ↦ ⟨hid, h⟩, fun h ↦ h.2⟩
    · rw [CC.ofCodepoint, if_neg hid, error_bind, error_bind]
      constructor
      · rintro ⟨_, he, _⟩
        cases he
      · exact fun h ↦ absurd h.1 hid

end Union

section Alphabet

variable (heap : ℕ → CC) (m : Memory) (this : ℕ) (CCs : List ℕ)

/-- The numbers of the code points tell the classes apart, and nothing else. -/
structure ExactCode (a : MultiplexedAlphabet) : Prop where
  mem_ids : ∀ i (hi : i < CCs.length), ∀ c ≤ unicodeMax,
    (heap CCs[i]).contains c = true ↔
      number a.mMultiplexedCCs c ∈ a.mExclusiveSetIDs.getD i []
  number_eq : ∀ c ≤ unicodeMax, ∀ d ≤ unicodeMax,
    number a.mMultiplexedCCs c = number a.mMultiplexedCCs d ↔
      ∀ p ∈ CCs, (heap p).contains c = (heap p).contains d

/-- The class that `sourceCC` is transformed to holds the numbers of its members. -/
def Denotes (a : MultiplexedAlphabet) (sourceCC : ℕ) : Prop :=
  ∃ t, a.transformCC heap m this sourceCC = .ok t ∧ t.set.WellFormed ∧ t.alphabet = this ∧
    t.set.members = number a.mMultiplexedCCs '' (heap sourceCC).set.members ∧
    ∀ c ≤ unicodeMax, t.contains (number a.mMultiplexedCCs c) = (heap sourceCC).contains c

variable {heap m this CCs}

theorem doMultiplexCCs_done (m : Memory) {CCs : List CC} (hwf : ∀ c ∈ CCs, c.set.WellFormed) :
    ∃ st : Sweep CCs.length, st.Done (member CCs) ∧
      doMultiplexCCs m CCs = .ok (st.exclusiveSetIDs, st.multiplexedCCs) := by
  obtain ⟨bps, hb, hm⟩ := computeBreakpoints_spec hwf
  have hend (i : ℕ) (hi : i < CCs.length) : member CCs i (unicodeMax + 1) = false := by
    rw [member, List.getElem?_eq_getElem hi]
    exact UnicodeSet.not_contains_of_gt (hwf _ (List.getElem_mem hi)).verified
      (Nat.le_refl _)
  obtain ⟨st, he, hdone⟩ := Sweep.run_done m hend (Sweep.start_inv _ _) (Nat.zero_le _) hm
  refine ⟨st, hdone, ?_⟩
  rw [doMultiplexCCs, hb, ok_bind, he, ok_bind, pure_eq_ok]

/-- The alphabet that is built from the end of the sweep. -/
def Sweep.alphabet {n : ℕ} (heap : ℕ → CC) (CCs : List ℕ) (st : Sweep n) : MultiplexedAlphabet :=
  ⟨CCs, CCs.head?.map fun c ↦ (heap c).alphabet, st.exclusiveSetIDs, st.multiplexedCCs⟩

variable {st : Sweep (CCs.map heap).length} {α : ℕ}

theorem make_eq (ha : ∀ p ∈ CCs, (heap p).alphabet = α)
    (h : doMultiplexCCs m (CCs.map heap) = .ok (st.exclusiveSetIDs, st.multiplexedCCs)) :
    MultiplexedAlphabet.make heap m CCs = .ok (st.alphabet heap CCs) := by
  have hany : ¬ (CCs.any fun c ↦ some (heap c).alphabet ≠ CCs.head?.map fun c ↦
      (heap c).alphabet) = true := by
    cases CCs with
    | nil => simp
    | cons p ps =>
      simp only [List.any_eq_true, decide_eq_true_eq, not_exists, not_and, List.head?_cons,
        Option.map_some, ne_eq, not_not, Option.some.injEq]
      intro q hq
      rw [ha q hq, ha p (List.mem_cons_self ..)]
  rw [MultiplexedAlphabet.make, if_neg hany, h, ok_bind]
  rfl

theorem findTargetCCIndex_eq (heap : ℕ → CC) (a : MultiplexedAlphabet) {p : ℕ}
    (hp : p ∈ a.mUnicodeSets) :
    ∃ i, ∃ hi : i < a.mUnicodeSets.length, a.mUnicodeSets[i] = p ∧
      a.findTargetCCIndex heap p = .ok i := by
  cases h : a.mUnicodeSets.findIdx? (· = p) with
  | none =>
    rw [List.findIdx?_eq_none_iff] at h
    simpa using h p hp
  | some i =>
    obtain ⟨hi, heq, -⟩ := List.findIdx?_eq_some_iff_getElem.1 h
    refine ⟨i, hi, by simpa using heq, ?_⟩
    rw [MultiplexedAlphabet.findTargetCCIndex, h]

theorem member_map {i : ℕ} (hi : i < CCs.length) (c : ℕ) :
    member (CCs.map heap) i c = (heap CCs[i]).contains c := by
  simp [member, hi]

theorem alphabet_exactCode (h : st.Done (member (CCs.map heap))) :
    ExactCode heap CCs (st.alphabet heap CCs) where
  mem_ids i hi c hc := by
    rw [← member_map hi]
    exact (h.mem_ids_iff (by simpa using hi) hc).symm
  number_eq c hc d hd := by
    have heq := h.number_eq_iff hc hd
    simp only [List.length_map] at heq
    refine heq.trans ⟨fun hsame p hp ↦ ?_, fun hsame i hi ↦ ?_⟩
    · obtain ⟨i, hi, rfl⟩ := List.mem_iff_getElem.1 hp
      rw [← member_map hi, ← member_map hi, hsame i hi]
    · rw [member_map hi, member_map hi, hsame _ (List.getElem_mem hi)]

theorem transformCC_eq (st : Sweep (CCs.map heap).length) (m : Memory) (this : ℕ)
    (ha : ∀ p ∈ CCs, (heap p).alphabet = α) {p : ℕ} (hp : p ∈ CCs) :
    ∃ i, ∃ hi : i < CCs.length, CCs[i] = p ∧
      (st.alphabet heap CCs).transformCC heap m this p =
        MultiplexedAlphabet.unionOf m this (st.exclusiveSetIDs.getD i []) := by
  obtain ⟨i, hi, heq, hfind⟩ := findTargetCCIndex_eq heap (st.alphabet heap CCs) hp
  refine ⟨i, hi, heq, ?_⟩
  have hhead : some (heap p).alphabet = (st.alphabet heap CCs).mSourceAlphabet := by
    cases CCs with
    | nil => cases hp
    | cons q qs =>
      rw [ha p hp, ← ha q (List.mem_cons_self ..)]
      rfl
  rw [MultiplexedAlphabet.transformCC, if_neg (not_not.2 hhead), hfind, ok_bind]
  rfl

/-- The members of a transformed class are the numbers of its exclusive sets. -/
theorem ids_eq_image (h : st.Done (member (CCs.map heap))) (hwf : ∀ p ∈ CCs,
    (heap p).set.WellFormed) {i : ℕ} (hi : i < CCs.length) :
    {x | x ∈ st.exclusiveSetIDs.getD i []} =
      number st.multiplexedCCs '' (heap CCs[i]).set.members := by
  have hi' : i < (CCs.map heap).length := by simpa using hi
  ext id
  rw [Set.mem_ofPred_eq, h.mem_ids hi', Set.mem_image]
  constructor
  · rintro ⟨c, _, hf, hid⟩
    rw [member_map hi] at hf
    exact ⟨c, hf, hid⟩
  · rintro ⟨c, hmem, hid⟩
    have hc : (heap CCs[i]).contains c = true := hmem
    refine ⟨c, ?_, by rw [member_map hi]; exact hc, hid⟩
    by_contra hgt
    rw [CC.contains, UnicodeSet.not_contains_of_gt (hwf _ (List.getElem_mem hi)).verified
      (by omega)] at hc
    cases hc

theorem denotes_iff (h : st.Done (member (CCs.map heap)))
    (hwf : ∀ p ∈ CCs, (heap p).set.WellFormed) (ha : ∀ p ∈ CCs, (heap p).alphabet = α) {p : ℕ}
    (hp : p ∈ CCs) :
    Denotes heap m this (st.alphabet heap CCs) p ↔
      ¬ (Exhausting CCs.length (member (CCs.map heap)) ∧
        (heap p).contains unicodeMax = true) := by
  obtain ⟨i, hi, rfl, htransform⟩ := transformCC_eq st m this ha hp
  have hi' : i < (CCs.map heap).length := by simpa using hi
  have hunion := unionOf_exact m this (st.exclusiveSetIDs.getD i []) (.empty this)
    (CC.empty_wellFormed this) rfl
  have hle := h.ids_le_iff hi'
  simp only [List.length_map, member_map hi] at hle
  have hempty : (CC.empty this).set.members = ∅ := members_emptySet
  rw [hempty, Set.empty_union, ids_eq_image h hwf hi] at hunion
  rw [← hle, ← hunion, Denotes, htransform]
  constructor
  · rintro ⟨t, he, hw, hta, hm, _⟩
    exact ⟨t, he, hw, hta, hm⟩
  · rintro ⟨t, he, hw, hta, hm⟩
    refine ⟨t, he, hw, hta, hm, fun c hc ↦ ?_⟩
    have hid := h.mem_ids_iff hi' hc
    have hiff : number st.multiplexedCCs c ∈ t.set.members ↔
        number st.multiplexedCCs c ∈ st.exclusiveSetIDs.getD i [] := by
      rw [hm, ← ids_eq_image h hwf hi]
      rfl
    rw [Bool.eq_iff_iff, ← member_map hi, ← hid]
    exact hiff

/-- A class of listed code points. -/
def listed (m : Memory) (ids : List ℕ) : CC :=
  (MultiplexedAlphabet.unionOf m unicodeAlphabet ids).toOption.getD (.empty unicodeAlphabet)

theorem listed_spec (m : Memory) {ids : List ℕ} (h : ∀ id ∈ ids, id ≤ unicodeMax) :
    (listed m ids).set.WellFormed ∧ (listed m ids).alphabet = unicodeAlphabet ∧
      (listed m ids).set.members = {x | x ∈ ids} := by
  have hunion := unionOf_exact m unicodeAlphabet ids (.empty unicodeAlphabet)
    (CC.empty_wellFormed unicodeAlphabet) rfl
  obtain ⟨t, he, hw, ha, hm⟩ := hunion.2 h
  have hempty : (CC.empty unicodeAlphabet).set.members = ∅ := members_emptySet
  rw [hempty, Set.empty_union] at hm
  have hl : listed m ids = t := by
    rw [listed, MultiplexedAlphabet.unionOf, he]
    rfl
  rw [hl]
  exact ⟨hw, ha, hm⟩

/-- The code points with bit `k` in their successor. -/
def successorBit (m : Memory) (k : ℕ) : CC :=
  listed m ((List.range (unicodeMax + 1)).filter fun c ↦ (c + 1).testBit k)

theorem successorBit_spec (m : Memory) (k : ℕ) :
    (successorBit m k).set.WellFormed ∧ (successorBit m k).alphabet = unicodeAlphabet ∧
      ∀ c ≤ unicodeMax, (successorBit m k).contains c = (c + 1).testBit k := by
  have hle : ∀ id ∈ (List.range (unicodeMax + 1)).filter fun c ↦ (c + 1).testBit k,
      id ≤ unicodeMax := by
    intro id hid
    have := List.mem_range.1 (List.mem_filter.1 hid).1
    omega
  obtain ⟨hw, ha, hm⟩ := listed_spec m hle
  refine ⟨hw, ha, fun c hc ↦ ?_⟩
  have hiff : c ∈ (successorBit m k).set.members ↔ (c + 1).testBit k = true := by
    rw [successorBit, hm]
    simp only [Set.mem_ofPred_eq, List.mem_filter, List.mem_range]
    exact ⟨fun h ↦ h.2, fun h ↦ ⟨by omega, h⟩⟩
  rw [Bool.eq_iff_iff]
  exact hiff

theorem successorBit_exhausting (m : Memory) :
    Exhausting 21 (member ((List.range 21).map (successorBit m))) := by
  have hmember (i : ℕ) (hi : i < 21) (c : ℕ) (hc : c ≤ unicodeMax) :
      member ((List.range 21).map (successorBit m)) i c = (c + 1).testBit i := by
    rw [member_map (by simpa using hi), List.getElem_range]
    exact (successorBit_spec m i).2.2 c hc
  have hhigh (c : ℕ) (hc : c ≤ unicodeMax) (i : ℕ) (hi : 21 ≤ i) :
      (c + 1).testBit i = false := by
    apply Nat.testBit_lt_two_pow
    have hpow := Nat.pow_le_pow_right (n := 2) (by omega) hi
    simp only [unicodeMax] at hc
    omega
  constructor
  · intro c hc
    by_contra hno
    have h0 : c + 1 = 0 := by
      apply Nat.eq_of_testBit_eq
      intro i
      rw [Nat.zero_testBit]
      by_cases hi : i < 21
      · rw [← hmember i hi c hc]
        by_contra hf
        exact hno ⟨i, hi, by simpa using hf⟩
      · exact hhigh c hc i (by omega)
    omega
  · intro c hc d hd hsame
    have heq : c + 1 = d + 1 := by
      apply Nat.eq_of_testBit_eq
      intro i
      by_cases hi : i < 21
      · rw [← hmember i hi c hc, ← hmember i hi d hd, hsame i hi]
      · rw [hhigh c hc i (by omega), hhigh d hd i (by omega)]
    omega

end Alphabet

end Parabix.RE
