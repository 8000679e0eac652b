import Parabix.RE.Meaning

namespace Parabix.RE

open Library Library.Powers UCD

section Alt

variable {K : Type*} [CompleteBooleanAlgebra K] [Monoid K] {M : Meaning K} {e : RE}
  {elems : List RE} {CCs : List CC} {c : CC} {found : Alternatives}
  {makeRep : RE → ℤ → ℤ → Except Fault RE}

theorem combineCC_spec (M : Meaning K) (hCCs : ∀ d ∈ CCs, d.set.WellFormed)
    (hc : c.set.WellFormed) : ∃ CCs', combineCC CCs c = .ok CCs' ∧
      (∀ d ∈ CCs', d.set.WellFormed) ∧
      denoteAlt M (CCs'.map cc) = denoteAlt M (CCs.map cc) ⊔ denote M (cc c) := by
  induction CCs with
  | nil => exact ⟨[c], rfl, by simpa using hc, by simp [denoteAlt]⟩
  | cons existing CCs ih =>
    have hexisting := hCCs existing (List.mem_cons_self ..)
    have hrest := fun d hd ↦ hCCs d (List.mem_cons_of_mem _ hd)
    rw [combineCC]
    split_ifs with halphabet
    · obtain ⟨u, hu, hset, halph, hmembers⟩ := CC.union_spec hexisting hc halphabet
      refine ⟨u :: CCs, by rw [hu, ok_bind, pure_eq_ok], ?_, ?_⟩
      · intro d hd
        obtain rfl | hd := List.mem_cons.1 hd
        · exact hset
        · exact hrest d hd
      · simp only [List.map_cons, denoteAlt, denote, hmembers, M.cc_union, halph, halphabet]
        ac_rfl
    · obtain ⟨CCs', he, hwf, hdenote⟩ := ih hrest
      refine ⟨existing :: CCs', by rw [he, ok_bind, pure_eq_ok], ?_, ?_⟩
      · intro d hd
        obtain rfl | hd := List.mem_cons.1 hd
        · exact hexisting
        · exact hwf d hd
      · rw [List.map_cons, List.map_cons, denoteAlt, denoteAlt, hdenote, sup_assoc]

/-- What was found is valid. -/
structure Alternatives.Valid (found : Alternatives) : Prop where
  newAlt : ∀ e ∈ found.newAlt, e.Valid
  CCs : ∀ d ∈ found.CCs, d.set.WellFormed

theorem Alternatives.Valid.elements (h : found.Valid) : ∀ e ∈ found.elements, e.Valid := by
  intro e he
  simp only [Alternatives.elements, List.mem_append, List.mem_map] at he
  obtain (he | ⟨d, hd, rfl⟩) | he := he
  · exact h.newAlt e he
  · exact .cc (h.CCs d hd)
  · split_ifs at he
    · obtain rfl := List.mem_singleton.1 he
      exact .seq fun _ h ↦ nomatch h
    · cases he

theorem denote_elements : denoteAlt M found.elements = denoteAlt M found.newAlt ⊔
    denoteAlt M (found.CCs.map cc) ⊔ if found.nullable then 1 else ⊥ := by
  rw [Alternatives.elements, denoteAlt_append, denoteAlt_append]
  split_ifs
  · rw [denoteAlt_singleton, denote, denoteSeq]
  · rw [denoteAlt]

/-- A step of the loop adds the meaning of the element. -/
def Adds (M : Meaning K) (found : Alternatives) (e : RE) (result : Except Fault Alternatives) :
    Prop :=
  ∃ found', result = .ok found' ∧ found'.Valid ∧
    denoteAlt M found'.elements = denoteAlt M found.elements ⊔ denote M e

theorem adds_cc (hfound : found.Valid) (hc : c.set.WellFormed) :
    Adds M found (cc c) (do return { found with CCs := ← combineCC found.CCs c }) := by
  obtain ⟨CCs', he, hwf, hdenote⟩ := combineCC_spec M hfound.CCs hc
  refine ⟨{ found with CCs := CCs' }, by rw [he, ok_bind, pure_eq_ok], ⟨hfound.newAlt, hwf⟩, ?_⟩
  rw [denote_elements, denote_elements, hdenote]
  ac_rfl

theorem adds_emptySeq (hfound : found.Valid) (he : e.isEmptySeq = true) :
    Adds M found e (.ok { found with nullable := true }) := by
  refine ⟨_, rfl, ⟨hfound.newAlt, hfound.CCs⟩, ?_⟩
  rw [denote_elements, denote_elements, denote_emptySeq he, if_pos rfl]
  cases found.nullable <;> simp

theorem adds_push (hfound : found.Valid) (he : e.Valid) :
    Adds M found e (.ok { found with newAlt := found.newAlt ++ [e] }) := by
  refine ⟨_, rfl, ⟨?_, hfound.CCs⟩, ?_⟩
  · intro x hx
    obtain hx | hx := List.mem_append.1 hx
    · exact hfound.newAlt x hx
    · obtain rfl := List.mem_singleton.1 hx
      exact he
  · rw [denote_elements, denote_elements, denoteAlt_append, denoteAlt_singleton]
    ac_rfl

theorem adds_other (hfound : found.Valid) (he : e.Valid) : Adds M found e
    (if e.isEmptySeq then .ok { found with nullable := true }
      else .ok { found with newAlt := found.newAlt ++ [e] }) := by
  split_ifs with hempty
  · exact adds_emptySeq hfound hempty
  · exact adds_push hfound he

theorem addNested_spec (hfound : found.Valid) (he : e.Valid) :
    Adds M found e (addNested found e) := by
  cases he with
  | cc hc => exact adds_cc hfound hc
  | _ => exact adds_other hfound (by constructor <;> assumption)

/-- The constructor returns an expression for the repetitions within the bounds. -/
def Repeats (M : Meaning K) (r : RE) (lb ub : ℤ) (result : Except Fault RE) : Prop :=
  ∃ r', result = .ok r' ∧ r'.Valid ∧ denote M r' = powers (denote M r) (counts lb ub)

theorem powers_counts_zero (a : K) {ub : ℤ} (h : ub = UNBOUNDED_REP ∨ 0 ≤ ub) :
    powers a (counts 0 ub) = powers a (counts 1 ub) ⊔ 1 := by
  have hset : counts 0 ub \ {0} = counts 1 ub := by
    ext n
    simp only [counts, Set.mem_sdiff, Set.mem_ofPred_eq, Set.mem_singleton_iff]
    omega
  have hzero : 0 ∈ counts 0 ub := ⟨le_rfl, by simpa using h⟩
  rw [powers_eq_sup_one hzero, hset]

/-- What an element asks of `makeRep`. -/
def AltReady (M : Meaning K) (makeRep : RE → ℤ → ℤ → Except Fault RE) (e : RE) : Prop :=
  ∀ r ub, e = rep r 0 ub → Repeats M r 1 ub (makeRep r 1 ub)

theorem addNested_foldlM (hfound : found.Valid) (hv : ∀ e ∈ elems, e.Valid) : ∃ found',
    elems.foldlM addNested found = .ok found' ∧ found'.Valid ∧
      denoteAlt M found'.elements = denoteAlt M found.elements ⊔ denoteAlt M elems := by
  induction elems generalizing found with
  | nil => exact ⟨found, rfl, hfound, by simp [denoteAlt]⟩
  | cons e elems ih =>
    obtain ⟨found₁, h₁, hv₁, hd₁⟩ := addNested_spec (M := M) hfound (hv e (List.mem_cons_self ..))
    obtain ⟨found₂, h₂, hv₂, hd₂⟩ := ih hv₁ fun x hx ↦ hv x (List.mem_cons_of_mem _ hx)
    refine ⟨found₂, by rw [List.foldlM_cons, h₁, ok_bind, h₂], hv₂, ?_⟩
    rw [hd₂, hd₁, denoteAlt, sup_assoc]

theorem addAlternative_spec (hfound : found.Valid) (he : e.Valid)
    (hready : AltReady M makeRep e) : Adds M found e (addAlternative makeRep found e) := by
  cases he with
  | cc hc => exact adds_cc hfound hc
  | alt h =>
    obtain ⟨found', hf, hvf, hdf⟩ := addNested_foldlM (M := M) hfound h
    exact ⟨found', hf, hvf, by rw [hdf, denote]⟩
  | @rep r lb ub hr hb =>
    rw [addAlternative]
    split_ifs with h0
    · subst h0
      obtain ⟨r', hr', hv', hd'⟩ := hready r ub rfl
      refine ⟨{ found with newAlt := found.newAlt ++ [r'], nullable := true },
        by rw [hr', ok_bind, pure_eq_ok], ⟨?_, hfound.CCs⟩, ?_⟩
      · intro x hx
        obtain hx | hx := List.mem_append.1 hx
        · exact hfound.newAlt x hx
        · obtain rfl := List.mem_singleton.1 hx
          exact hv'
      · rw [denote_elements, denote_elements, denoteAlt_append, denoteAlt_singleton, hd', denote,
          powers_counts_zero _ hb.le, if_pos rfl]
        cases found.nullable
        · simp only [Bool.false_eq_true, if_false, sup_bot_eq]
          ac_rfl
        · rw [if_pos rfl, ← sup_idem (1 : K)]
          ac_rfl
    · exact adds_push hfound (.rep hr hb)
  | _ => exact adds_other hfound (by constructor <;> assumption)

theorem foldlM_addAlternative (hfound : found.Valid) (hv : ∀ e ∈ elems, e.Valid)
    (hready : ∀ e ∈ elems, AltReady M makeRep e) : ∃ found',
    elems.foldlM (addAlternative makeRep) found = .ok found' ∧ found'.Valid ∧
      denoteAlt M found'.elements = denoteAlt M found.elements ⊔ denoteAlt M elems := by
  induction elems generalizing found with
  | nil => exact ⟨found, rfl, hfound, by simp [denoteAlt]⟩
  | cons e elems ih =>
    obtain ⟨found₁, h₁, hv₁, hd₁⟩ := addAlternative_spec hfound (hv e (List.mem_cons_self ..))
      (hready e (List.mem_cons_self ..))
    obtain ⟨found₂, h₂, hv₂, hd₂⟩ := ih hv₁ (fun x hx ↦ hv x (List.mem_cons_of_mem _ hx))
      fun x hx ↦ hready x (List.mem_cons_of_mem _ hx)
    refine ⟨found₂, by rw [List.foldlM_cons, h₁, ok_bind, h₂], hv₂, ?_⟩
    rw [hd₂, hd₁, denoteAlt, sup_assoc]

theorem makeAltWith_spec (hv : ∀ e ∈ elems, e.Valid)
    (hready : ∀ e ∈ elems, AltReady M makeRep e) : ∃ e', makeAltWith makeRep elems = .ok e' ∧
      e'.Valid ∧ denote M e' = denoteAlt M elems := by
  have hnone : Alternatives.Valid ⟨[], false, []⟩ := ⟨fun _ h ↦ (nomatch h), fun _ h ↦ (nomatch h)⟩
  obtain ⟨found, hf, hvf, hdf⟩ := foldlM_addAlternative hnone hv hready
  refine ⟨collapse alt found.elements, by rw [makeAltWith, hf, ok_bind, pure_eq_ok],
    valid_collapse (.alt hvf.elements) hvf.elements, ?_⟩
  rw [denote_collapse_alt, hdf]
  simp [Alternatives.elements]

end Alt

end Parabix.RE
