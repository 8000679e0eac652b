import Parabix.RE.ExactCode

namespace Parabix.RE

open Library UCD

namespace MultiplexedAlphabet

variable (heap : ℕ → CC)

/-- One turn of the inner loop: the class at the index `cp` joins the union. -/
def addSource (a : MultiplexedAlphabet) (CC_union : CC) (cp : ℕ) : Except Fault CC :=
  match a.mUnicodeSets[cp]? with
  | none => .error .memory
  | some p => (heap p).union CC_union

/-- Without classes the alphabet of the source is not set. -/
def invertCC (this : ℕ) (a : MultiplexedAlphabet) (transformedCC : CC) : Except Fault CC :=
  if transformedCC.alphabet ≠ this then
    .error (.fatal "invertCC applied to non-transformed CC")
  else
    match a.mSourceAlphabet with
    | none => .error .poison
    | some source => do
      let is ← transformedCC.set.intervals
      is.foldlM (fun CC_union i ↦
        (List.range' i.1 (i.2 + 1 - i.1)).foldlM (a.addSource heap) CC_union) (.empty source)

end MultiplexedAlphabet

section Invert

variable {heap : ℕ → CC} {a : MultiplexedAlphabet} {α : ℕ}

open MultiplexedAlphabet

theorem addSource_spec (hwf : ∀ p ∈ a.mUnicodeSets, (heap p).set.WellFormed)
    (ha : ∀ p ∈ a.mUnicodeSets, (heap p).alphabet = α) {u : CC} (hu : u.set.WellFormed)
    (hua : u.alphabet = α) {j p : ℕ} (hj : a.mUnicodeSets[j]? = some p) :
    ∃ t, a.addSource heap u j = .ok t ∧ t.set.WellFormed ∧ t.alphabet = α ∧
      t.set.members = (heap p).set.members ∪ u.set.members := by
  have hp := List.mem_of_getElem? hj
  obtain ⟨t, he, ht, hta, hm⟩ := CC.union_spec (hwf p hp) hu ((ha p hp).trans hua.symm)
  refine ⟨t, ?_, ht, hta.trans (ha p hp), hm⟩
  simp only [addSource, hj]
  exact he

/-- The classes at the indices of the list. -/
def sources (heap : ℕ → CC) (CCs js : List ℕ) : Set ℕ :=
  {c | ∃ j ∈ js, ∃ p, CCs[j]? = some p ∧ c ∈ (heap p).set.members}

theorem foldlM_addSource (hwf : ∀ p ∈ a.mUnicodeSets, (heap p).set.WellFormed)
    (ha : ∀ p ∈ a.mUnicodeSets, (heap p).alphabet = α) {u : CC} (hu : u.set.WellFormed)
    (hua : u.alphabet = α) {js : List ℕ} (hjs : ∀ j ∈ js, j < a.mUnicodeSets.length) :
    ∃ t, js.foldlM (a.addSource heap) u = .ok t ∧ t.set.WellFormed ∧ t.alphabet = α ∧
      t.set.members = u.set.members ∪ sources heap a.mUnicodeSets js := by
  induction js generalizing u with
  | nil => exact ⟨u, rfl, hu, hua, by simp [sources]⟩
  | cons j js ih =>
    rw [List.forall_mem_cons] at hjs
    obtain ⟨hlt, hjs⟩ := hjs
    obtain ⟨v, hv, hvw, hva, hvm⟩ :=
      addSource_spec hwf ha hu hua (List.getElem?_eq_getElem hlt)
    obtain ⟨t, ht, htw, hta, htm⟩ := ih hvw hva hjs
    refine ⟨t, by rw [List.foldlM_cons, hv, ok_bind, ht], htw, hta, ?_⟩
    rw [htm, hvm]
    ext c
    simp only [sources, Set.mem_union, Set.mem_ofPred_eq, List.exists_mem_cons_iff,
      List.getElem?_eq_getElem hlt, Option.some.injEq, exists_eq_left']
    tauto

theorem lt_of_foldlM_addSource {js : List ℕ} {u t : CC}
    (h : js.foldlM (a.addSource heap) u = .ok t) : ∀ j ∈ js, j < a.mUnicodeSets.length := by
  induction js generalizing u with
  | nil => simp
  | cons j js ih =>
    rw [List.foldlM_cons, bind_eq_ok] at h
    obtain ⟨v, hv, h⟩ := h
    refine List.forall_mem_cons.2 ⟨?_, ih h⟩
    by_contra hge
    rw [addSource, List.getElem?_eq_none (by omega)] at hv
    cases hv

/-- The code points of the intervals, in the order of the two loops. -/
def codes (is : List (ℕ × ℕ)) : List ℕ := is.flatMap fun i ↦ List.range' i.1 (i.2 + 1 - i.1)

theorem mem_codes_iff {m : CC} (h : m.set.WellFormed) {is : List (ℕ × ℕ)}
    (his : Intervals m.set.contains (unicodeMax + 1) 0 is) (j : ℕ) :
    j ∈ codes is ↔ j ∈ m.set.members := by
  rw [← UnicodeSet.mem_intervals_iff h.verified his j, codes, List.mem_flatMap]
  refine exists_congr fun i ↦ and_congr_right fun hi ↦ ?_
  have hle := (his.bounds i hi).2.1
  rw [List.mem_range'_1]
  omega

theorem foldlM_codes (f : CC → ℕ → Except Fault CC) (is : List (ℕ × ℕ)) (u : CC) :
    is.foldlM (fun u i ↦ (List.range' i.1 (i.2 + 1 - i.1)).foldlM f u) u =
      (codes is).foldlM f u := by
  induction is generalizing u with
  | nil => rfl
  | cons i is ih =>
    rw [codes, List.flatMap_cons, List.foldlM_append, List.foldlM_cons]
    exact bind_congr fun v ↦ ih v

/-- The inverse is built iff the codes are indices of classes, and is the union of these. -/
theorem invertCC_spec (this : ℕ) (hwf : ∀ p ∈ a.mUnicodeSets, (heap p).set.WellFormed)
    (ha : ∀ p ∈ a.mUnicodeSets, (heap p).alphabet = α) (hsource : a.mSourceAlphabet = some α)
    {m : CC} (hm : m.set.WellFormed) (hma : m.alphabet = this) :
    (∀ t, a.invertCC heap this m = .ok t →
      ∀ j ∈ m.set.members, j < a.mUnicodeSets.length) ∧
    ((∀ j ∈ m.set.members, j < a.mUnicodeSets.length) →
      ∃ t, a.invertCC heap this m = .ok t ∧ t.set.WellFormed ∧ t.alphabet = α ∧
        t.set.members =
          {c | ∃ j ∈ m.set.members, ∃ p, a.mUnicodeSets[j]? = some p ∧
            c ∈ (heap p).set.members}) := by
  obtain ⟨is, he, his⟩ := UnicodeSet.intervals_spec hm.verified
  have hmem := mem_codes_iff hm his
  have heq : a.invertCC heap this m = (codes is).foldlM (a.addSource heap) (.empty α) := by
    rw [invertCC, if_neg (not_not.2 hma), hsource]
    simp only [he, ok_bind]
    exact foldlM_codes _ _ _
  rw [heq]
  constructor
  · intro t ht j hj
    exact lt_of_foldlM_addSource ht j ((hmem j).2 hj)
  · intro hlt
    obtain ⟨t, ht, htw, hta, htm⟩ := foldlM_addSource hwf ha (CC.empty_wellFormed α) rfl
      fun j hj ↦ hlt j ((hmem j).1 hj)
    refine ⟨t, ht, htw, hta, ?_⟩
    have hempty : (CC.empty α).set.members = ∅ := members_emptySet
    rw [htm, hempty, Set.empty_union]
    ext c
    simp only [sources, Set.mem_ofPred_eq, hmem]

end Invert

section Exact

variable (heap : ℕ → CC) (mem : Memory) (this : ℕ) (CCs : List ℕ)

/-- The inverse of a class of codes holds the code points with these codes. -/
def Inverts (a : MultiplexedAlphabet) (m : CC) : Prop :=
  ∃ t, a.invertCC heap this m = .ok t ∧ t.set.WellFormed ∧ some t.alphabet = a.mSourceAlphabet ∧
    t.set.members = {c | c ≤ unicodeMax ∧ number a.mMultiplexedCCs c ∈ m.set.members}

/-- A class comes back from its codes. -/
def ComesBack (a : MultiplexedAlphabet) (cc : ℕ) : Prop :=
  ∃ m t, a.transformCC heap mem this cc = .ok m ∧ a.invertCC heap this m = .ok t ∧
    t.set.WellFormed ∧ t.alphabet = (heap cc).alphabet ∧ t.set.members = (heap cc).set.members

/-- Each code of `S` is the index of a class whose members have codes of `S`, and these
classes hold all that has a code of `S`. -/
structure InvertReady (code : ℕ → ℕ) (S : Set ℕ) : Prop where
  nonempty : CCs ≠ []
  inside : ∀ j ∈ S, ∃ p, CCs[j]? = some p ∧ ∀ c ∈ (heap p).set.members, code c ∈ S
  covered : ∀ c ≤ unicodeMax, code c ∈ S →
    ∃ j ∈ S, ∃ p, CCs[j]? = some p ∧ c ∈ (heap p).set.members

/-- The code of each exclusive set is the index of a class that is this set. -/
def IndexedByCode (code : ℕ → ℕ) : Prop :=
  CCs ≠ [] ∧ ∀ c ≤ unicodeMax, code c ≠ 0 → code c ≤ unicodeMax →
    ∃ p, CCs[code c]? = some p ∧ (heap p).set.members = {d | d ≤ unicodeMax ∧ code d = code c}

/-- The codes of the members of a class are indices of classes inside it, and these cover it. -/
structure SelfCoded (code : ℕ → ℕ) (cc : Set ℕ) : Prop where
  inside : ∀ c ∈ cc, ∃ p, CCs[code c]? = some p ∧ (heap p).set.members ⊆ cc
  covered : ∀ c ∈ cc, ∃ d ∈ cc, ∃ p, CCs[code d]? = some p ∧ c ∈ (heap p).set.members

variable {heap mem this CCs} {st : Sweep (CCs.map heap).length} {α : ℕ}

theorem inverts_iff (hwf : ∀ p ∈ CCs, (heap p).set.WellFormed)
    (ha : ∀ p ∈ CCs, (heap p).alphabet = α) {m : CC} (hm : m.set.WellFormed)
    (hma : m.alphabet = this) :
    Inverts heap this (st.alphabet heap CCs) m ↔
      InvertReady heap CCs (number st.multiplexedCCs) m.set.members := by
  obtain rfl | hne := eq_or_ne CCs []
  · refine iff_of_false ?_ fun h ↦ h.nonempty rfl
    rintro ⟨t, ht, -⟩
    simp [MultiplexedAlphabet.invertCC, Sweep.alphabet, hma] at ht
  have hsource : (st.alphabet heap CCs).mSourceAlphabet = some α := by
    cases CCs with
    | nil => exact absurd rfl hne
    | cons p ps => exact congrArg some (ha p (List.mem_cons_self ..))
  obtain ⟨hok, hbuilt⟩ := invertCC_spec (a := st.alphabet heap CCs) this hwf ha hsource hm hma
  constructor
  · rintro ⟨t, ht, -, -, hmembers⟩
    have hlt := hok t ht
    obtain ⟨t', ht', -, -, hm'⟩ := hbuilt hlt
    rw [ht, Except.ok.injEq] at ht'
    subst ht'
    rw [hm'] at hmembers
    refine ⟨hne, fun j hj ↦ ?_, fun c hc hcode ↦ ?_⟩
    · refine ⟨_, List.getElem?_eq_getElem (hlt j hj), fun c hc ↦ ?_⟩
      have hin := hmembers.subset ⟨j, hj, _, List.getElem?_eq_getElem (hlt j hj), hc⟩
      exact hin.2
    · exact hmembers.superset ⟨hc, hcode⟩
  · intro hready
    obtain ⟨t, ht, htw, hta, htm⟩ := hbuilt fun j hj ↦ by
      obtain ⟨p, hp, -⟩ := hready.inside j hj
      exact (List.getElem?_eq_some_iff.1 hp).1
    refine ⟨t, ht, htw, by rw [hsource, hta], ?_⟩
    rw [htm]
    ext c
    constructor
    · rintro ⟨j, hj, p, hp, hc⟩
      obtain ⟨q, hq, hcode⟩ := hready.inside j hj
      obtain rfl : p = q := Option.some.inj (hp.symm.trans hq)
      exact ⟨UnicodeSet.le_of_mem (hwf p (List.mem_of_getElem? hp)).verified hc, hcode c hc⟩
    · rintro ⟨hc, hcode⟩
      exact hready.covered c hc hcode

theorem invertReady_image (hwf : ∀ p ∈ CCs, (heap p).set.WellFormed) {code : ℕ → ℕ} {cc : Set ℕ}
    (hne : CCs ≠ []) (hcc : ∀ c ∈ cc, c ≤ unicodeMax)
    (hcode : ∀ c ≤ unicodeMax, code c ∈ code '' cc ↔ c ∈ cc) :
    InvertReady heap CCs code (code '' cc) ↔ SelfCoded heap CCs code cc := by
  constructor
  · intro h
    refine ⟨fun c hc ↦ ?_, fun c hc ↦ ?_⟩
    · obtain ⟨p, hp, hin⟩ := h.inside _ (Set.mem_image_of_mem code hc)
      refine ⟨p, hp, fun d hd ↦ ?_⟩
      have hdmax := UnicodeSet.le_of_mem (hwf p (List.mem_of_getElem? hp)).verified hd
      exact (hcode d hdmax).1 (hin d hd)
    · obtain ⟨j, ⟨d, hd, rfl⟩, p, hp, hin⟩ :=
        h.covered c (hcc c hc) (Set.mem_image_of_mem code hc)
      exact ⟨d, hd, p, hp, hin⟩
  · intro h
    refine ⟨hne, ?_, fun c hc hin ↦ ?_⟩
    · rintro _ ⟨c, hc, rfl⟩
      obtain ⟨p, hp, hsub⟩ := h.inside c hc
      exact ⟨p, hp, fun d hd ↦ Set.mem_image_of_mem code (hsub hd)⟩
    · obtain ⟨d, hd, p, hp, hc⟩ := h.covered c ((hcode c hc).1 hin)
      exact ⟨code d, Set.mem_image_of_mem code hd, p, hp, hc⟩

theorem le_of_unionOf {ids : List ℕ} {u t : CC}
    (h : ids.foldlM (fun CC_union i ↦ do CC_union.union (← CC.ofCodepoint mem i this)) u = .ok t) :
    ∀ id ∈ ids, id ≤ unicodeMax := by
  induction ids generalizing u with
  | nil => simp
  | cons id ids ih =>
    rw [List.foldlM_cons, bind_eq_ok] at h
    obtain ⟨v, hv, h⟩ := h
    refine List.forall_mem_cons.2 ⟨?_, ih h⟩
    by_contra hgt
    rw [CC.ofCodepoint, if_neg hgt, error_bind] at hv
    cases hv

/-- A class that is transformed at all is transformed to its codes. -/
theorem denotes_of_transformCC (h : st.Done (member (CCs.map heap)))
    (hwf : ∀ p ∈ CCs, (heap p).set.WellFormed) (ha : ∀ p ∈ CCs, (heap p).alphabet = α) {p : ℕ}
    (hp : p ∈ CCs) {m : CC}
    (hm : (st.alphabet heap CCs).transformCC heap mem this p = .ok m) :
    Denotes heap mem this (st.alphabet heap CCs) p := by
  rw [denotes_iff h hwf ha hp]
  obtain ⟨i, hi, rfl, htransform⟩ := transformCC_eq st mem this ha hp
  rw [htransform] at hm
  have hle := (h.ids_le_iff (show i < (CCs.map heap).length by simpa using hi)).1 (le_of_unionOf hm)
  rw [member_map hi] at hle
  simpa using hle

theorem comesBack_iff (h : st.Done (member (CCs.map heap)))
    (hwf : ∀ p ∈ CCs, (heap p).set.WellFormed) (ha : ∀ p ∈ CCs, (heap p).alphabet = α) {p : ℕ}
    (hp : p ∈ CCs) :
    ComesBack heap mem this (st.alphabet heap CCs) p ↔
      ¬ (Exhausting CCs.length (member (CCs.map heap)) ∧
          (heap p).contains unicodeMax = true) ∧
        SelfCoded heap CCs (number st.multiplexedCCs) (heap p).set.members := by
  have hne : CCs ≠ [] := List.ne_nil_of_mem hp
  have hle (c : ℕ) (hc : c ∈ (heap p).set.members) : c ≤ unicodeMax :=
    UnicodeSet.le_of_mem (hwf p hp).verified hc
  have hsource : some (heap p).alphabet = (st.alphabet heap CCs).mSourceAlphabet := by
    cases CCs with
    | nil => cases hp
    | cons q qs => exact congrArg some ((ha p hp).trans (ha q (List.mem_cons_self ..)).symm)
  -- What a transformed class is inverted to, in terms of the list.
  have hback {m : CC} (hm : m.set.WellFormed) (hma : m.alphabet = this)
      (hmembers : m.set.members = number st.multiplexedCCs '' (heap p).set.members)
      (hcontains : ∀ c ≤ unicodeMax,
        m.contains (number st.multiplexedCCs c) = (heap p).contains c) :
      {c | c ≤ unicodeMax ∧ number st.multiplexedCCs c ∈ m.set.members} =
          (heap p).set.members ∧
        (Inverts heap this (st.alphabet heap CCs) m ↔
          SelfCoded heap CCs (number st.multiplexedCCs) (heap p).set.members) := by
    have hcode (c : ℕ) (hc : c ≤ unicodeMax) :
        number st.multiplexedCCs c ∈ m.set.members ↔ c ∈ (heap p).set.members :=
      Bool.eq_iff_iff.1 (hcontains c hc)
    constructor
    · ext c
      exact ⟨fun hc ↦ (hcode c hc.1).1 hc.2, fun hc ↦ ⟨hle c hc, (hcode c (hle c hc)).2 hc⟩⟩
    · rw [inverts_iff hwf ha hm hma, hmembers]
      refine invertReady_image hwf hne hle fun c hc ↦ ?_
      rw [← hmembers]
      exact hcode c hc
  constructor
  · rintro ⟨m, t, hm, ht, htw, hta, htm⟩
    have hdenotes := denotes_of_transformCC h hwf ha hp hm
    refine ⟨(denotes_iff h hwf ha hp).1 hdenotes, ?_⟩
    obtain ⟨m', hm', hmw, hma, hmembers, hcontains⟩ := hdenotes
    obtain rfl : m = m' := Except.ok.inj (hm.symm.trans hm')
    obtain ⟨hset, hiff⟩ := hback hmw hma hmembers hcontains
    exact hiff.1 ⟨t, ht, htw, by rw [hta, hsource], by rw [htm]; exact hset.symm⟩
  · rintro ⟨hlast, hself⟩
    obtain ⟨m, hm, hmw, hma, hmembers, hcontains⟩ := (denotes_iff h hwf ha hp).2 hlast
    obtain ⟨hset, hiff⟩ := hback hmw hma hmembers hcontains
    obtain ⟨t, ht, htw, hta, htm⟩ := hiff.2 hself
    exact ⟨m, t, hm, ht, htw, Option.some.inj (hta.trans hsource.symm), htm.trans hset⟩

/-- The inverse is right on all classes of assigned codes iff the list is in the order of the codes. -/
theorem inverts_assigned_iff (mem : Memory) (hwf : ∀ p ∈ CCs, (heap p).set.WellFormed)
    (ha : ∀ p ∈ CCs, (heap p).alphabet = α) :
    (∀ m : CC, m.set.WellFormed → m.alphabet = this →
        (∀ j ∈ m.set.members, j ≠ 0 ∧ ∃ c ≤ unicodeMax, number st.multiplexedCCs c = j) →
          Inverts heap this (st.alphabet heap CCs) m) ↔
      IndexedByCode heap CCs (number st.multiplexedCCs) := by
  constructor
  · intro hall
    constructor
    · refine ((inverts_iff hwf ha (CC.empty_wellFormed this) rfl).1
        (hall (.empty this) (CC.empty_wellFormed this) rfl ?_)).nonempty
      have hempty : (CC.empty this).set.members = ∅ := members_emptySet
      simp [hempty]
    · intro c hc h0 hmax
      obtain ⟨m, -, hmw, hma, hmm⟩ := ofCodepoint_spec mem this hmax
      have hready := (inverts_iff hwf ha hmw hma).1 (hall m hmw hma fun j hj ↦ by
        rw [hmm] at hj
        exact ⟨hj ▸ h0, c, hc, hj.symm⟩)
      rw [hmm] at hready
      obtain ⟨p, hp, hin⟩ := hready.inside _ rfl
      refine ⟨p, hp, ?_⟩
      ext d
      constructor
      · intro hd
        exact ⟨UnicodeSet.le_of_mem (hwf p (List.mem_of_getElem? hp)).verified hd, hin d hd⟩
      · rintro ⟨hd, hcode⟩
        obtain ⟨j, rfl, q, hq, hdq⟩ := hready.covered d hd hcode
        obtain rfl : p = q := Option.some.inj (hp.symm.trans hq)
        exact hdq
  · rintro ⟨hne, hindexed⟩ m hm hma hassigned
    rw [inverts_iff hwf ha hm hma]
    have hmax (j : ℕ) (hj : j ∈ m.set.members) : j ≤ unicodeMax :=
      UnicodeSet.le_of_mem hm.verified hj
    refine ⟨hne, fun j hj ↦ ?_, fun c hc hcode ↦ ?_⟩
    · obtain ⟨h0, c, hc, rfl⟩ := hassigned j hj
      obtain ⟨p, hp, hset⟩ := hindexed c hc h0 (hmax _ hj)
      refine ⟨p, hp, fun d hd ↦ ?_⟩
      rw [hset] at hd
      rwa [hd.2]
    · obtain ⟨p, hp, hset⟩ := hindexed c hc (hassigned _ hcode).1 (hmax _ hcode)
      exact ⟨_, hcode, p, hp, by rw [hset]; exact ⟨hc, rfl⟩⟩

end Exact

section Example

def blank : Memory := ⟨fun _ ↦ ⟨.Empty, 0⟩, fun _ ↦ 0⟩

end Example

end Parabix.RE
