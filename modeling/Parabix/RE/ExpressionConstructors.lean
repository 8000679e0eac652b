import Parabix.RE.LookaheadPromotion

namespace Parabix.RE.Expression

open Library Library.Powers Library.Spans UCD

section Sequences

variable {Λ : Type} {M : Reading Λ} {modes : Λ} {e : Expression} {elems rest : List Expression}

theorem readAlt_append :
    readAlt M modes (elems ++ rest) = readAlt M modes elems ⊔ readAlt M modes rest := by
  induction elems with
  | nil => rw [List.nil_append, readAlt_nil, bot_sup_eq]
  | cons e elems ih => rw [List.cons_append, readAlt_cons, readAlt_cons, ih, sup_assoc]

theorem readAlt_singleton : readAlt M modes [e] = read M modes e := by
  rw [readAlt_cons, readAlt_nil, sup_bot_eq]

theorem read_collapseAlt : read M modes (collapseAlt elems) = readAlt M modes elems := by
  rw [collapseAlt.eq_def]
  split
  · rw [readAlt_singleton]
  · rw [read_alt]

theorem readSeq_append :
    readSeq M modes (elems ++ rest) = readSeq M modes elems * readSeq M modes rest := by
  induction elems with
  | nil => rw [List.nil_append, readSeq_nil, one_mul]
  | cons e elems ih => rw [List.cons_append, readSeq_cons, readSeq_cons, ih, mul_assoc]

theorem readSeq_singleton : readSeq M modes [e] = read M modes e := by
  rw [readSeq_cons, readSeq_nil, mul_one]

theorem readSeq_nestedItems : readSeq M modes e.nestedItems = read M modes e := by
  cases e with
  | seq => rw [nestedItems, read_seq]
  | _ => exact readSeq_singleton

theorem read_emptySeq (h : e.isEmptySeq = true) : read M modes e = 1 := by
  cases e with
  | seq elems => rw [List.isEmpty_iff.1 h, read_seq, readSeq_nil]
  | _ => cases h

theorem read_emptySet (hv : e.Valid) (h : e.isEmptySet = true) : read M modes e = ⊥ := by
  cases hv with
  | @alt elems _ => rw [List.isEmpty_iff.1 h, read_alt, readAlt_nil]
  | cc hc => rw [read, members_of_empty hc h, M.cc_empty]
  | _ => cases h

theorem read_pushSeq (hv : ∀ e ∈ rest, e.Valid) :
    read M modes (pushSeq elems rest) = readSeq M modes elems * readSeq M modes rest := by
  induction rest generalizing elems with
  | nil =>
    rw [pushSeq, collapseSeq.eq_def, readSeq_nil, mul_one]
    split
    · rw [readSeq_singleton]
    · rw [read_seq]
  | cons item items ih =>
    obtain ⟨hitem, hitems⟩ := List.forall_mem_cons.1 hv
    rw [pushSeq, readSeq_cons]
    split_ifs with h
    · rw [read_emptySet hitem h, Quantale.bot_mul, Quantale.mul_bot]
    · rw [ih hitems, readSeq_append, readSeq_nestedItems, mul_assoc]

theorem read_makeSeq (hv : ∀ e ∈ elems, e.Valid) :
    read M modes (makeSeq elems) = readSeq M modes elems := by
  rw [makeSeq, read_pushSeq hv, readSeq_nil, one_mul]

theorem valid_emptySeq : (seq []).Valid := .seq (List.forall_mem_nil _)

end Sequences

section Alternatives

variable {e : Expression} {elems : List Expression} {found found' : Alternatives}
  {makeRep : Expression → ℤ → ℤ → Except Fault Expression}

structure Alternatives.Valid (found : Alternatives) : Prop where
  newAlt : ∀ e ∈ found.newAlt, e.Valid
  CCs : ∀ d ∈ found.CCs, d.set.WellFormed

theorem Alternatives.Valid.elements (h : found.Valid) : ∀ e ∈ found.elements, e.Valid := by
  intro e he
  simp only [Alternatives.elements, List.mem_append, List.mem_map] at he
  obtain (he | ⟨d, hd, rfl⟩) | he := he
  · exact h.newAlt e he
  · exact .cc (h.CCs d hd)
  · split_ifs at he
    · obtain rfl := List.mem_singleton.1 he
      exact valid_emptySeq
    · cases he

/-- A turn of the loop adds what the element matches. -/
def Adds (found found' : Alternatives) (e : Expression) : Prop :=
  found'.Valid ∧ ∀ {Λ : Type} (M : Reading Λ) (modes : Λ),
    readAlt M modes found'.elements = readAlt M modes found.elements ⊔ read M modes e

theorem readAlt_elements {Λ : Type} (M : Reading Λ) (modes : Λ) (found : Alternatives) :
    readAlt M modes found.elements = readAlt M modes found.newAlt ⊔
      readAlt M modes (found.CCs.map cc) ⊔ if found.nullable then 1 else ⊥ := by
  rw [Alternatives.elements, readAlt_append, readAlt_append]
  split_ifs
  · rw [readAlt_singleton, read_seq, readSeq_nil]
  · rw [readAlt_nil]

theorem combineCC_adds {CCs CCs' : List CC} {c : CC} (hCCs : ∀ d ∈ CCs, d.set.WellFormed)
    (hc : c.set.WellFormed) (h : combineCC CCs c = .ok CCs') :
    (∀ d ∈ CCs', d.set.WellFormed) ∧ ∀ {Λ : Type} (M : Reading Λ) (modes : Λ),
      readAlt M modes (CCs'.map cc) =
        readAlt M modes (CCs.map cc) ⊔ M.cc modes c.alphabet c.set.members := by
  induction CCs generalizing CCs' with
  | nil =>
    obtain rfl := Except.ok.inj h
    refine ⟨List.forall_mem_singleton.2 hc, fun M modes ↦ ?_⟩
    rw [List.map_singleton, readAlt_singleton, read, List.map_nil, readAlt, bot_sup_eq]
  | cons existing CCs ih =>
    obtain ⟨hexisting, hrest⟩ := List.forall_mem_cons.1 hCCs
    rw [combineCC] at h
    split_ifs at h with halphabet
    · obtain ⟨u, hu, huw, hua, hmembers⟩ := CC.union_spec hexisting hc halphabet
      rw [hu, ok_bind] at h
      obtain rfl := Except.ok.inj h
      refine ⟨List.forall_mem_cons.2 ⟨huw, hrest⟩, fun M modes ↦ ?_⟩
      rw [List.map_cons, List.map_cons, readAlt, readAlt, read, read, hmembers, M.cc_union,
        hua, halphabet]
      ac_rfl
    · obtain ⟨CCs₁, h₁, h⟩ := bind_eq_ok.1 h
      obtain rfl := Except.ok.inj h
      obtain ⟨hwf, hspans⟩ := ih hrest h₁
      refine ⟨List.forall_mem_cons.2 ⟨hexisting, hwf⟩, fun M modes ↦ ?_⟩
      rw [List.map_cons, List.map_cons, readAlt, readAlt, hspans, sup_assoc]

theorem adds_push (hfound : found.Valid) (he : e.Valid) :
    Adds found { found with newAlt := found.newAlt ++ [e] } e := by
  refine ⟨⟨List.forall_mem_append.2 ⟨hfound.newAlt, List.forall_mem_singleton.2 he⟩,
    hfound.CCs⟩, fun M modes ↦ ?_⟩
  rw [readAlt_elements, readAlt_elements, readAlt_append, readAlt_singleton]
  ac_rfl

theorem addNested_adds (hfound : found.Valid) (he : e.Valid)
    (h : addNested found e = .ok found') : Adds found found' e := by
  have hother (h : (if e.isEmptySeq then Except.ok { found with nullable := true }
      else .ok { found with newAlt := found.newAlt ++ [e] } : Except Fault Alternatives) =
        .ok found') :
      Adds found found' e := by
    split_ifs at h with hempty
    · obtain rfl := Except.ok.inj h
      refine ⟨⟨hfound.newAlt, hfound.CCs⟩, fun M modes ↦ ?_⟩
      rw [readAlt_elements, readAlt_elements, read_emptySeq hempty]
      cases found.nullable <;> simp [sup_assoc]
    · obtain rfl := Except.ok.inj h
      exact adds_push hfound he
  cases he with
  | @cc c hc =>
    obtain ⟨CCs', hCCs', h⟩ := bind_eq_ok.1 h
    obtain rfl := Except.ok.inj h
    obtain ⟨hwf, hspans⟩ := combineCC_adds hfound.CCs hc hCCs'
    refine ⟨⟨hfound.newAlt, hwf⟩, fun M modes ↦ ?_⟩
    rw [readAlt_elements, readAlt_elements, hspans, read]
    ac_rfl
  | _ => exact hother h

theorem foldlM_adds {add : Alternatives → Expression → Except Fault Alternatives}
    (hadd : ∀ e ∈ elems, ∀ found found', found.Valid → add found e = .ok found' →
      Adds found found' e)
    (hfound : found.Valid) (h : elems.foldlM add found = .ok found') :
    found'.Valid ∧ ∀ {Λ : Type} (M : Reading Λ) (modes : Λ),
      readAlt M modes found'.elements =
        readAlt M modes found.elements ⊔ readAlt M modes elems := by
  induction elems generalizing found with
  | nil =>
    obtain rfl := Except.ok.inj h
    refine ⟨hfound, fun M modes ↦ ?_⟩
    rw [readAlt, sup_bot_eq]
  | cons e elems ih =>
    rw [List.foldlM_cons] at h
    obtain ⟨found₁, h₁, h⟩ := bind_eq_ok.1 h
    obtain ⟨he, helems⟩ := List.forall_mem_cons.1 hadd
    obtain ⟨hfound₁, hspans⟩ := he found found₁ hfound h₁
    obtain ⟨hfound', hspans'⟩ := ih helems hfound₁ h
    refine ⟨hfound', fun M modes ↦ ?_⟩
    rw [hspans', hspans, readAlt, sup_assoc]

/-- What is built for an alternative that may be left out is right. -/
def RestRight (makeRep : Expression → ℤ → ℤ → Except Fault Expression) : Prop :=
  ∀ r ub x, r.Valid → Bounds 0 ub → makeRep r 1 ub = .ok x → x.Valid ∧
    ∀ {Λ : Type} (M : Reading Λ) (modes : Λ),
      read M modes x = powers (read M modes r) (counts 1 ub)

theorem addAlternative_adds (hrep : RestRight makeRep) (hfound : found.Valid) (he : e.Valid)
    (h : addAlternative makeRep found e = .ok found') : Adds found found' e := by
  cases he with
  | @alt elems hv =>
    obtain ⟨hvalid, hspans⟩ := foldlM_adds
      (fun e he found found' hfound h ↦ addNested_adds hfound (hv e he) h) hfound h
    exact ⟨hvalid, fun M modes ↦ by rw [hspans, read]⟩
  | @rep r lb ub hr hb =>
    rw [addAlternative] at h
    split_ifs at h with h0
    · subst h0
      obtain ⟨x, hx, h⟩ := bind_eq_ok.1 h
      obtain rfl := Except.ok.inj h
      obtain ⟨hxv, hright⟩ := hrep r ub x hr hb hx
      refine ⟨⟨List.forall_mem_append.2 ⟨hfound.newAlt, List.forall_mem_singleton.2 hxv⟩,
        hfound.CCs⟩, fun M modes ↦ ?_⟩
      rw [readAlt_elements, readAlt_elements, readAlt_append, readAlt_singleton, read, hright,
        powers_counts_zero _ hb.le, if_pos rfl]
      cases found.nullable
      · simp only [Bool.false_eq_true, if_false, sup_bot_eq]
        ac_rfl
      · rw [if_pos rfl, ← sup_idem (1 : Span)]
        ac_rfl
    · obtain rfl := Except.ok.inj h
      exact adds_push hfound (.rep hr hb)
  | _ => exact addNested_adds hfound (by constructor <;> assumption) h

theorem makeAltWith_returns {r : Expression} (hrep : RestRight makeRep)
    (hv : ∀ e ∈ elems, e.Valid) (h : makeAltWith makeRep elems = .ok r) :
    r.Valid ∧ ∀ {Λ : Type} (M : Reading Λ) (modes : Λ),
      read M modes r = readAlt M modes elems := by
  obtain ⟨found, hfound, h⟩ := bind_eq_ok.1 h
  obtain rfl := Except.ok.inj h
  have hnew : Alternatives.Valid ⟨[], false, []⟩ :=
    ⟨List.forall_mem_nil _, List.forall_mem_nil _⟩
  obtain ⟨hvalid, hspans⟩ := foldlM_adds
    (fun e he found found' hfound h ↦ addAlternative_adds hrep hfound (hv e he) h) hnew hfound
  constructor
  · have helements := hvalid.elements
    rw [collapseAlt.eq_def]
    split
    · rename_i e heq
      exact helements e (by rw [heq]; exact List.mem_singleton_self e)
    · exact .alt helements
  · intro Λ M modes
    have hnone : readAlt M modes (Alternatives.elements ⟨[], false, []⟩) = ⊥ := by
      rw [Alternatives.elements, if_neg Bool.false_ne_true]
      exact readAlt.eq_1 M modes
    rw [read_collapseAlt, hspans, hnone, bot_sup_eq]

end Alternatives

section Repetitions

variable {re r : Expression} {l u lb ub : ℤ}
  {makeRep : Expression → ℤ → ℤ → Except Fault Expression}

/-- The empty set is not repeated no times, and neither is a repetition without an upper bound. -/
def Skips (re : Expression) (lb ub : ℤ) : Prop :=
  re.isEmptySet = true ∧ lb = 0 ∨ (∃ r l, re = rep r l UNBOUNDED_REP) ∧ lb = 0 ∧ ub = 0

def RepRight (makeRep : Expression → ℤ → ℤ → Except Fault Expression) : Prop :=
  ∀ re lb ub r, re.Valid → Bounds lb ub → makeRep re lb ub = .ok r → r.Valid ∧
    (¬ Skips re lb ub → ∀ {Λ : Type} (M : Reading Λ) (modes : Λ),
      read M modes r = powers (read M modes re) (counts lb ub))

/-- A repetition of a repetition as one, where the sums of counts are the counts. -/
theorem read_rep_of_counts {lb' ub' : ℤ}
    (h : multiples (counts l u) (counts lb ub) = counts lb' ub') {Λ : Type} (M : Reading Λ)
    (modes : Λ) :
    read M modes (rep re lb' ub') = powers (read M modes (rep re l u)) (counts lb ub) := by
  rw [read, read, powers_powers, h]

theorem combineRep_returns (hre : re.Valid) (hb : Bounds l u) (hb' : Bounds lb ub)
    (h : combineRep re l u lb ub = .ok r) :
    r.Valid ∧ ((u = UNBOUNDED_REP → lb ≠ 0) → (u ≠ UNBOUNDED_REP → Gapless l u lb ub) →
      (ub = UNBOUNDED_REP → u ≠ 0) → ∀ {Λ : Type} (M : Reading Λ) (modes : Λ),
        read M modes r = powers (read M modes (rep re l u)) (counts lb ub)) := by
  obtain ⟨a, ha, h⟩ := bind_eq_ok.1 h
  obtain ⟨b, hb₁, h⟩ := bind_eq_ok.1 h
  obtain rfl := Except.ok.inj h
  have hfits : Combines l u lb ub := by
    refine ⟨mulInt_eq_ok ha, fun hu hub ↦ ?_⟩
    rw [ubCombine, if_neg (by simp [hu, hub])] at hb₁
    exact mulInt_eq_ok hb₁
  obtain rfl := Except.ok.inj ((mulInt_ok hfits.1).symm.trans ha)
  obtain rfl := Except.ok.inj ((ubCombine_ok hfits.2).symm.trans hb₁)
  exact ⟨.rep hre (bounds_combine hb hb' hfits), fun hzero hgap hpos ↦
    read_rep_of_counts (multiples_counts hb hb' hzero hgap hpos)⟩

/-- Repetitions without an upper bound. -/
theorem repeatUnbounded_returns (hre : re.Valid) (hb : Bounds l UNBOUNDED_REP)
    (hb' : Bounds lb ub) (hne : lb ≠ ub)
    (h : repeatRep makeRep re l UNBOUNDED_REP lb ub = .ok r) :
    r.Valid ∧ ∀ {Λ : Type} (M : Reading Λ) (modes : Λ),
      read M modes r = powers (read M modes (rep re l UNBOUNDED_REP)) (counts lb ub) := by
  have hl := hb.nonneg
  have hlb := hb'.nonneg
  rw [repeatRep, if_neg hne, if_pos rfl] at h
  split_ifs at h with h0 h1 hz
  · obtain rfl := Except.ok.inj h
    subst h0
    exact ⟨.rep hre hb, read_rep_of_counts (multiples_unbounded_zero hb' hne)⟩
  · obtain rfl := Except.ok.inj h
    subst h1
    exact ⟨.rep hre (bounds_unbounded hlb hb'.lt),
      read_rep_of_counts (multiples_unbounded_one hb' hne)⟩
  · obtain rfl := Except.ok.inj h
    subst hz
    refine ⟨.rep (.rep hre hb) ⟨le_rfl, by decide, .inr (by decide), by decide⟩, fun M modes ↦ ?_⟩
    rw [read, read, powers_powers, powers_powers, multiples_unbounded_optional hb hb' hne,
      multiples_unbounded_optional hb ⟨le_rfl, by decide, .inr (by decide), by decide⟩ (by decide)]
  · obtain ⟨a, ha, h⟩ := bind_eq_ok.1 h
    obtain rfl := Except.ok.inj h
    have hfits := mulInt_eq_ok ha
    obtain rfl := Except.ok.inj ((mulInt_ok hfits).symm.trans ha)
    exact ⟨.rep hre (bounds_unbounded (Int.mul_nonneg hl hlb) hfits.2),
      read_rep_of_counts (multiples_unbounded_pos hb hb' hz)⟩

theorem not_skips_rep (hu : u ≠ UNBOUNDED_REP) : ¬ Skips (rep re l u) lb ub := by
  rintro (⟨hset, -⟩ | ⟨⟨r, l', heq⟩, -⟩)
  · cases hset
  · cases heq
    exact hu rfl

/-- The split at the fewest repetitions from which on there are no gaps. -/
theorem repeatSplit_returns (hrep : RepRight makeRep) (halt : RestRight makeRep) (hre : re.Valid)
    (hb : Bounds l u) (hb' : Bounds lb ub) (hu : u ≠ UNBOUNDED_REP) (hlt : l < u) {n : ℤ}
    (hn : n = (u - 2).tdiv (u - l)) (hlb : lb < n) (hub : ub = UNBOUNDED_REP ∨ n ≤ ub)
    (h : (do
      let r1 ← combineRep re l u n ub
      let r2 ← makeRep (rep re l u) lb (n - 1)
      makeAltWith makeRep [r1, r2]) = .ok r) :
    r.Valid ∧ ∀ {Λ : Type} (M : Reading Λ) (modes : Λ),
      read M modes r = powers (read M modes (rep re l u)) (counts lb ub) := by
  have h0 := hb'.nonneg
  have hu' := hb.lt'
  have hl := hb.nonneg
  obtain ⟨-, hsmall⟩ := fewest_pos hb hlt (hn ▸ by omega)
  rw [← hn] at hsmall
  have hfinite : n - 1 ≠ UNBOUNDED_REP := by rw [UNBOUNDED_REP]; omega
  have hbn : Bounds n ub := ⟨by omega, by omega, hub, hb'.lt'⟩
  have hbelow : Bounds lb (n - 1) := ⟨h0, by omega, .inr (by omega), by omega⟩
  obtain ⟨r1, hr1, h⟩ := bind_eq_ok.1 h
  obtain ⟨r2, hr2, h⟩ := bind_eq_ok.1 h
  obtain ⟨hv1, hs1⟩ := combineRep_returns hre hb hbn hr1
  obtain ⟨hv2, hs2⟩ := hrep _ _ _ _ (.rep hre hb) hbelow hr2
  have hgap : Gapless l u n ub := gapless_of_le hb hlt (by omega) (by omega)
  obtain ⟨hv, hs⟩ := makeAltWith_returns halt
    (List.forall_mem_cons.2 ⟨hv1, List.forall_mem_singleton.2 hv2⟩) h
  refine ⟨hv, fun M modes ↦ ?_⟩
  have hsplit : counts lb ub = counts n ub ∪ counts lb (n - 1) :=
    counts_split hlb.le (by omega) hfinite
  rw [hs, readAlt, readAlt_singleton, hs1 (fun h ↦ absurd h hu) (fun _ ↦ hgap) fun _ ↦ by omega,
    hs2 (not_skips_rep hu), hsplit, powers_union]

theorem repeatRep_returns (hrep : RepRight makeRep) (halt : RestRight makeRep) (hre : re.Valid)
    (hb : Bounds l u) (hb' : Bounds lb ub) (h : repeatRep makeRep re l u lb ub = .ok r) :
    r.Valid ∧ (¬ Skips (rep re l u) lb ub → ∀ {Λ : Type} (M : Reading Λ) (modes : Λ),
      read M modes r = powers (read M modes (rep re l u)) (counts lb ub)) := by
  have hl := hb.nonneg
  have hlb := hb'.nonneg
  have hnode : (rep (rep re l u) lb ub).Valid ∧
      (¬ Skips (rep re l u) lb ub → ∀ {Λ : Type} (M : Reading Λ) (modes : Λ),
        read M modes (rep (rep re l u) lb ub) =
          powers (read M modes (rep re l u)) (counts lb ub)) :=
    ⟨.rep (.rep hre hb) hb', fun _ Λ M modes ↦ by rw [read]⟩
  by_cases heq : lb = ub
  · subst heq
    rw [repeatRep, if_pos rfl] at h
    obtain ⟨hv, hs⟩ := combineRep_returns hre hb hb' h
    refine ⟨hv, fun hskips ↦ hs ?_ ?_ ?_⟩
    · rintro rfl rfl
      exact hskips (.inr ⟨⟨re, l, rfl⟩, rfl, rfl⟩)
    · intro _ k h1 h2
      rw [UNBOUNDED_REP] at h2
      omega
    · intro h
      rw [UNBOUNDED_REP] at h
      omega
  by_cases hu : u = UNBOUNDED_REP
  · subst hu
    obtain ⟨hv, hs⟩ := repeatUnbounded_returns hre hb hb' heq h
    exact ⟨hv, fun _ ↦ hs⟩
  rw [repeatRep, if_neg heq, if_neg hu] at h
  split_ifs at h with hlt
  · simp only at h
    split_ifs at h with h1 h2
    · obtain ⟨hv, hs⟩ := combineRep_returns hre hb hb' h
      exact ⟨hv, fun _ ↦ hs (fun h ↦ absurd h hu) (fun _ ↦ gapless_of_le hb hlt h1 hlb)
        fun _ ↦ by omega⟩
    · obtain ⟨hv, hs⟩ := repeatSplit_returns hrep halt hre hb hb' hu hlt rfl (by omega) h2 h
      exact ⟨hv, fun _ ↦ hs⟩
    · obtain rfl := Except.ok.inj h
      exact hnode
  · obtain rfl := Except.ok.inj h
    exact hnode

/-- A repetition of an expression of any other kind. -/
theorem repeatPlain_returns (hre : re.Valid) (hb : Bounds lb ub)
    (h : (if lb = 0 ∧ ub = 0 then .ok (seq []) else if lb = 1 ∧ ub = 1 then .ok re
      else .ok (rep re lb ub) : Except Fault Expression) = .ok r) :
    r.Valid ∧ ∀ {Λ : Type} (M : Reading Λ) (modes : Λ),
      read M modes r = powers (read M modes re) (counts lb ub) := by
  split_ifs at h with h0 h1
  · obtain ⟨rfl, rfl⟩ := h0
    obtain rfl := Except.ok.inj h
    refine ⟨valid_emptySeq, fun M modes ↦ ?_⟩
    rw [show counts 0 0 = Set.Icc 0 0 from counts_nat 0 0, Set.Icc_self, powers_singleton, pow_zero,
      read, readSeq]
  · obtain ⟨rfl, rfl⟩ := h1
    obtain rfl := Except.ok.inj h
    refine ⟨hre, fun M modes ↦ ?_⟩
    rw [show counts 1 1 = Set.Icc 1 1 from counts_nat 1 1, Set.Icc_self, powers_singleton, pow_one]
  · obtain rfl := Except.ok.inj h
    exact ⟨.rep hre hb, fun M modes ↦ by rw [read]⟩

theorem repeatAssertion_returns {asserted : Expression} {kind : Kind} {sense : Sense}
    (hv : (assertion asserted kind sense).Valid) (hb : Bounds lb ub)
    (h : (if 0 < lb then assertion asserted kind sense else seq []) = r) :
    r.Valid ∧ ∀ {Λ : Type} (M : Reading Λ) (modes : Λ),
      read M modes r = powers (read M modes (assertion asserted kind sense)) (counts lb ub) := by
  have hmem := mem_counts_lb hb
  have hlb := hb.nonneg
  split_ifs at h with hpos
  · subst h
    refine ⟨hv, fun M modes ↦ ?_⟩
    have hnot : 0 ∉ counts lb ub := by
      intro hzero
      have := hzero.1
      omega
    rw [read, powers_idem zeroWidth_mul_self hmem hnot]
  · subst h
    refine ⟨valid_emptySeq, fun M modes ↦ ?_⟩
    rw [show lb.toNat = 0 by omega] at hmem
    rw [read, read, readSeq, powers_of_le_one zeroWidth_le_one hmem]

/-- Without the empty set and the empty sequence. -/
theorem repeatNode_returns (hrep : RepRight makeRep) (halt : RestRight makeRep) (hre : re.Valid)
    (hb : Bounds lb ub) (h : repeatNode makeRep re lb ub = .ok r) :
    r.Valid ∧ (¬ Skips re lb ub → ∀ {Λ : Type} (M : Reading Λ) (modes : Λ),
      read M modes r = powers (read M modes re) (counts lb ub)) := by
  cases hre with
  | rep hre hb₀ => exact repeatRep_returns hrep halt hre hb₀ hb h
  | assertion kind sense hv =>
    obtain ⟨hr, hs⟩ := repeatAssertion_returns (.assertion kind sense hv) hb (Except.ok.inj h)
    exact ⟨hr, fun _ ↦ hs⟩
  | _ =>
    obtain ⟨hr, hs⟩ := repeatPlain_returns (by constructor <;> assumption) hb h
    exact ⟨hr, fun _ ↦ hs⟩

/-- A lower bound of one is finite, and within the upper bound if that is not zero. -/
theorem RepRight.rest (fuel : ℕ) (h : RepRight (makeRepFuel fuel)) :
    RestRight (makeRepFuel fuel) := by
  intro r ub x hr hb hx
  by_cases hub : ub = 0
  · subst hub
    cases fuel with
    | zero => cases hx
    | succ fuel =>
      rw [makeRepFuel, if_neg (by decide), if_pos (by decide)] at hx
      cases hx
  · have hle := hb.le
    obtain ⟨hv, hs⟩ := h r 1 ub x hr ⟨by decide, by decide, by omega, hb.lt'⟩ hx
    refine ⟨hv, hs ?_⟩
    rintro (⟨-, h⟩ | ⟨-, h, -⟩) <;> exact absurd h (by decide)

theorem makeRepFuel_right (fuel : ℕ) : RepRight (makeRepFuel fuel) := by
  induction fuel with
  | zero =>
    intro re lb ub r _ _ h
    cases h
  | succ fuel ih =>
    intro re lb ub r hv hb h
    have hlb := hb.nonneg
    rw [makeRepFuel] at h
    split_ifs at h with hlow hhigh hempty
    · obtain rfl := Except.ok.inj h
      refine ⟨hv, fun hskips Λ M modes ↦ ?_⟩
      obtain hset | hseq := hempty
      · have hnot : 0 ∉ counts lb ub := fun hzero ↦
          hskips (.inl ⟨hset, le_antisymm hzero.1 hlb⟩)
        rw [read_emptySet hv hset, powers_idem Quantale.bot_mul (mem_counts_lb hb) hnot]
      · rw [read_emptySeq hseq, powers_one (mem_counts_lb hb)]
    · exact repeatNode_returns ih (ih.rest fuel) hv hb h

/-- What the constructor of repetitions returns is right, unless it skips the bounds. -/
theorem makeRep_right : RepRight Expression.makeRep := makeRepFuel_right 2

/-- What the constructor of alternatives returns is right. -/
theorem makeAlt_right {elems : List Expression} (hv : ∀ e ∈ elems, e.Valid)
    (h : makeAlt elems = .ok r) : r.Valid ∧ ∀ {Λ : Type} (M : Reading Λ) (modes : Λ),
      read M modes r = readAlt M modes elems :=
  makeAltWith_returns ((makeRepFuel_right 2).rest 2) hv h

end Repetitions

end Parabix.RE.Expression
