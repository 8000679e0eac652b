import Parabix.RE.RemoveEmpty
import Parabix.RE.Transformer

namespace Parabix.RE

open Library Library.Powers Library.Encoding UCD RE_Transformer
open RemoveEmptyTransformer (alternatives)

namespace VariableAltPromotor

/-- Alternatives by their length, in the order of the lengths. -/
abbrev FixedLengthAlts := List (ℤ × List RE)

def addFixed (length : ℤ) (e : RE) : FixedLengthAlts → FixedLengthAlts
  | [] => [(length, [e])]
  | (l, group) :: groups =>
    if length < l then (length, [e]) :: (l, group) :: groups
    else if length = l then (l, group ++ [e]) :: groups
    else (l, group) :: addFixed length e groups

section Promotion

-- The ranges of `getLengthRange` for a length alphabet.
variable (getLengthRange : RE → Except Fault (ℤ × ℤ))

def factorLoop : List RE → List RE → FixedLengthAlts → Except Fault (List RE × FixedLengthAlts)
  | [], newAlts, groups => .ok (newAlts, groups)
  | e :: elems, newAlts, groups => do
    let rg ← getLengthRange e
    if rg.1 = rg.2 then factorLoop elems newAlts (addFixed rg.1 e groups)
    else factorLoop elems (newAlts ++ [e]) groups

/-- One alternative for each length. -/
def fixedAlts : FixedLengthAlts → Except Fault (List RE)
  | [] => .ok []
  | (_, group) :: groups => do
    let fixedAlt ← alternatives group
    let rest ← fixedAlts groups
    return fixedAlt :: rest

def LengthFactorAlts (elems : List RE) : Except Fault (List RE) := do
  let (newAlts, groups) ← factorLoop getLengthRange elems [] []
  return newAlts ++ (← fixedAlts groups)

/-- The alternatives of a group before those of what follows. -/
def products (a1 : List RE) : RE → List RE
  | alt alt_tail => a1.flatMap fun a ↦ alt_tail.map fun t ↦ makeSeq [a, t]
  | AoS_tail => a1.map fun a ↦ makeSeq [a, AoS_tail]

def SeqOfAlt2AltOfSeq : List (List RE) → Except Fault RE
  | [] => .ok (makeSeq [])
  | a1 :: SofA => do
    let AoS_tail ← SeqOfAlt2AltOfSeq SofA
    alternatives (products a1 AoS_tail)

def altGroup : RE → Except Fault (List RE)
  | alt elems => LengthFactorAlts getLengthRange elems
  | e => .ok [e]

/-- The items of a sequence are not transformed themselves. -/
def promoteSeq (elems : List RE) : Transformed := do
  let altGroups ← elems.mapM (altGroup getLengthRange)
  return some (← SeqOfAlt2AltOfSeq altGroups)

def promotor : RE_Transformer :=
  { base with transformSeq := fun items ↦ promoteSeq getLengthRange (items.map Prod.fst) }

def variableAltPromotion (same : RE → RE → Bool) (r : RE) : Except Fault RE :=
  (promotor getLengthRange).transformRE same r

end Promotion

section Condition

/-- More than one alternative can be had as they are. -/
def Joins (elems : List RE) : Prop := elems.length ≠ 1 → ∀ e ∈ elems, Optional e

def Distributes : List (List RE) → Prop
  | [] => True
  | a1 :: SofA => Distributes SofA ∧
    ∀ AoS_tail, SeqOfAlt2AltOfSeq SofA = .ok AoS_tail → Joins (products a1 AoS_tail)

/-- The lengths of the alternatives are found, and those of one length can be joined. -/
structure Factors (getLengthRange : RE → Except Fault (ℤ × ℤ)) (elems : List RE) : Prop where
  lengths : ∀ e ∈ elems, ∃ rg, getLengthRange e = .ok rg
  groups : ∀ newAlts groups, factorLoop getLengthRange elems [] [] = .ok (newAlts, groups) →
    ∀ group ∈ groups, Joins group.2

variable (getLengthRange : RE → Except Fault (ℤ × ℤ)) (same : RE → RE → Bool)
variable (M : Meaning (Language ℕ))

/-- The constructors that build the nodes again do it right. -/
inductive Ready : RE → Prop
  | alt {elems : List RE} (h : ∀ e ∈ elems, Ready e)
    (hnew : ∀ elems1, changed ((promotor getLengthRange).transformItems same elems) =
      .ok (elems1, true) → ∀ e ∈ elems1, Optional e) : Ready (alt elems)
  | any : Ready any
  | assertion {asserted : RE} (k : Kind) (s : Sense) (h : Ready asserted) :
    Ready (assertion asserted k s)
  | cc (c : CC) : Ready (cc c)
  | diff {x0 y0 : RE} (hx : Ready x0) (hy : Ready y0)
    (hnew : ∀ x y, (promotor getLengthRange).transform same x0 = .ok x →
      (promotor getLengthRange).transform same y0 = .ok y → (x.isSome || y.isSome) = true →
        DiffReady same M (x.getD x0) (y.getD y0)) : Ready (diff x0 y0)
  | intersect {x0 y0 : RE} (hx : Ready x0) (hy : Ready y0)
    (hnew : ∀ x y, (promotor getLengthRange).transform same x0 = .ok x →
      (promotor getLengthRange).transform same y0 = .ok y → (x.isSome || y.isSome) = true →
        IntersectReady same M (x.getD x0) (y.getD y0)) : Ready (intersect x0 y0)
  | name (n : String) (definition : RE) : Ready (name n definition)
  | rep {re : RE} {lb ub : ℤ} (h : Ready re)
    (hnew : ∀ x, (promotor getLengthRange).transform same re = .ok (some x) →
      RepSafe x.outline lb ub) : Ready (rep re lb ub)
  | seq {elems : List RE} (halts : ∀ alts, RE.alt alts ∈ elems → Factors getLengthRange alts)
    (hgroups : ∀ altGroups, elems.mapM (altGroup getLengthRange) = .ok altGroups →
      Distributes altGroups) : Ready (seq elems)
  | start : Ready start
  | stop : Ready stop
  | other (node : ℕ) : Ready (other node)

end Condition

section Exact

variable {getLengthRange : RE → Except Fault (ℤ × ℤ)} {same : RE → RE → Bool}
variable {M : Meaning (Language ℕ)} {e re : RE} {elems a1 newAlts : List RE} {length : ℤ}
variable {groups : FixedLengthAlts} {SofA : List (List RE)}

def denoteGroups (M : Meaning (Language ℕ)) (groups : FixedLengthAlts) : Language ℕ :=
  denoteAlt M (groups.flatMap Prod.snd)

theorem denoteGroups_addFixed :
    denoteGroups M (addFixed length e groups) = denoteGroups M groups ⊔ denote M e := by
  induction groups with
  | nil => simp [addFixed, denoteGroups, denoteAlt]
  | cons group groups ih =>
    rw [addFixed.eq_def]
    simp only [denoteGroups] at ih ⊢
    split_ifs with hlt heq
    · simp only [List.flatMap_cons, denoteAlt_append, denoteAlt_singleton]
      ac_rfl
    · simp only [List.flatMap_cons, denoteAlt_append, denoteAlt_singleton]
      ac_rfl
    · simp only [List.flatMap_cons, denoteAlt_append, ih]
      ac_rfl

theorem valid_addFixed (he : e.Valid) (hg : ∀ group ∈ groups, ∀ x ∈ group.2, x.Valid) :
    ∀ group ∈ addFixed length e groups, ∀ x ∈ group.2, x.Valid := by
  have hone : ∀ x ∈ [e], x.Valid := by simpa using he
  induction groups with
  | nil => simpa [addFixed] using he
  | cons group groups ih =>
    obtain ⟨hgroup, hgroups⟩ := List.forall_mem_cons.1 hg
    rw [addFixed.eq_def]
    simp only
    split_ifs
    · exact List.forall_mem_cons.2 ⟨hone, hg⟩
    · exact List.forall_mem_cons.2 ⟨List.forall_mem_append.2 ⟨hgroup, hone⟩, hgroups⟩
    · exact List.forall_mem_cons.2 ⟨hgroup, ih hgroups⟩

theorem factorLoop_spec (hv : ∀ e ∈ elems, e.Valid)
    (hlengths : ∀ e ∈ elems, ∃ rg, getLengthRange e = .ok rg) (hn : ∀ e ∈ newAlts, e.Valid)
    (hg : ∀ group ∈ groups, ∀ x ∈ group.2, x.Valid) :
    ∃ newAlts' groups', factorLoop getLengthRange elems newAlts groups = .ok (newAlts', groups') ∧
      (∀ e ∈ newAlts', e.Valid) ∧ (∀ group ∈ groups', ∀ x ∈ group.2, x.Valid) ∧
        denoteAlt M newAlts' ⊔ denoteGroups M groups' =
          denoteAlt M newAlts ⊔ denoteGroups M groups ⊔ denoteAlt M elems := by
  induction elems generalizing newAlts groups with
  | nil => exact ⟨newAlts, groups, rfl, hn, hg, by rw [denoteAlt, sup_bot_eq]⟩
  | cons e elems ih =>
    obtain ⟨he, helems⟩ := List.forall_mem_cons.1 hv
    obtain ⟨⟨rg, hrg⟩, hrest⟩ := List.forall_mem_cons.1 hlengths
    have hone : ∀ x ∈ [e], x.Valid := List.forall_mem_singleton.2 he
    rw [factorLoop, hrg, ok_bind]
    split_ifs
    · obtain ⟨newAlts', groups', hloop, hn', hg', hdenote⟩ :=
        ih helems hrest hn (valid_addFixed he hg)
      refine ⟨newAlts', groups', hloop, hn', hg', ?_⟩
      rw [hdenote, denoteGroups_addFixed, denoteAlt]
      ac_rfl
    · obtain ⟨newAlts', groups', hloop, hn', hg', hdenote⟩ :=
        ih helems hrest (List.forall_mem_append.2 ⟨hn, hone⟩) hg
      refine ⟨newAlts', groups', hloop, hn', hg', ?_⟩
      rw [hdenote, denoteAlt_append, denoteAlt_singleton, denoteAlt]
      ac_rfl

theorem alternatives_joins (hv : ∀ e ∈ elems, e.Valid) (h : Joins elems) :
    ∃ r, alternatives elems = .ok r ∧ r.Valid ∧ denote M r = denoteAlt M elems := by
  unfold alternatives
  split
  · exact ⟨_, rfl, hv _ (List.mem_singleton_self _), denoteAlt_singleton.symm⟩
  · rename_i hne
    refine makeAlt_spec hv (h fun hlen ↦ ?_)
    obtain ⟨x, rfl⟩ := List.length_eq_one_iff.1 hlen
    exact hne x rfl

theorem fixedAlts_spec (hg : ∀ group ∈ groups, ∀ x ∈ group.2, x.Valid)
    (hjoins : ∀ group ∈ groups, Joins group.2) :
    ∃ alts, fixedAlts groups = .ok alts ∧ (∀ e ∈ alts, e.Valid) ∧
      denoteAlt M alts = denoteGroups M groups := by
  induction groups with
  | nil => exact ⟨[], rfl, List.forall_mem_nil _, rfl⟩
  | cons group groups ih =>
    obtain ⟨hgroup, hgroups⟩ := List.forall_mem_cons.1 hg
    obtain ⟨hjoin, hjoins⟩ := List.forall_mem_cons.1 hjoins
    obtain ⟨r, hr, hvr, hdr⟩ := alternatives_joins (M := M) hgroup hjoin
    obtain ⟨alts, halts, hva, hda⟩ := ih hgroups hjoins
    refine ⟨r :: alts, ?_, List.forall_mem_cons.2 ⟨hvr, hva⟩, ?_⟩
    · rw [fixedAlts, hr, ok_bind, halts, ok_bind, pure_eq_ok]
    · rw [denoteAlt, hdr, hda, denoteGroups, denoteGroups, List.flatMap_cons, denoteAlt_append]

theorem lengthFactorAlts_spec (hv : ∀ e ∈ elems, e.Valid) (h : Factors getLengthRange elems) :
    ∃ alts, LengthFactorAlts getLengthRange elems = .ok alts ∧ (∀ e ∈ alts, e.Valid) ∧
      denoteAlt M alts = denoteAlt M elems := by
  obtain ⟨newAlts, groups, hloop, hn, hg, hdenote⟩ :=
    factorLoop_spec (M := M) hv h.lengths (List.forall_mem_nil _) (List.forall_mem_nil _)
  obtain ⟨alts, halts, hva, hda⟩ := fixedAlts_spec (M := M) hg (h.groups _ _ hloop)
  refine ⟨newAlts ++ alts, ?_, List.forall_mem_append.2 ⟨hn, hva⟩, ?_⟩
  · rw [LengthFactorAlts, hloop, ok_bind]
    simp only [halts, ok_bind, pure_eq_ok]
  · rw [denoteAlt_append, hda, hdenote]
    simp [denoteGroups, denoteAlt]

theorem denote_pair {x y : RE} (hx : x.Valid) (hy : y.Valid) :
    (makeSeq [x, y]).Valid ∧ denote M (makeSeq [x, y]) = denote M x * denote M y := by
  have hv : ∀ e ∈ [x, y], e.Valid := by simp [hx, hy]
  refine ⟨valid_makeSeq hv, ?_⟩
  rw [denote_makeSeq hv, denoteSeq, denoteSeq_singleton]

theorem products_before {t : RE} (hv : ∀ e ∈ a1, e.Valid) (ht : t.Valid) :
    (∀ e ∈ a1.map fun a ↦ makeSeq [a, t], e.Valid) ∧
      denoteAlt M (a1.map fun a ↦ makeSeq [a, t]) = denoteAlt M a1 * denote M t := by
  induction a1 with
  | nil => exact ⟨List.forall_mem_nil _, (Quantale.bot_mul).symm⟩
  | cons a a1 ih =>
    obtain ⟨ha, ha1⟩ := List.forall_mem_cons.1 hv
    obtain ⟨hvalid, hdenote⟩ := ih ha1
    obtain ⟨hpair, hdpair⟩ := denote_pair (M := M) ha ht
    refine ⟨List.forall_mem_cons.2 ⟨hpair, hvalid⟩, ?_⟩
    rw [List.map_cons, denoteAlt, hdpair, hdenote, denoteAlt, Quantale.sup_mul_distrib]

theorem products_after {a : RE} {alt_tail : List RE} (ha : a.Valid) (hv : ∀ e ∈ alt_tail, e.Valid) :
    (∀ e ∈ alt_tail.map fun t ↦ makeSeq [a, t], e.Valid) ∧
      denoteAlt M (alt_tail.map fun t ↦ makeSeq [a, t]) = denote M a * denoteAlt M alt_tail := by
  induction alt_tail with
  | nil => exact ⟨List.forall_mem_nil _, (Quantale.mul_bot).symm⟩
  | cons t alt_tail ih =>
    obtain ⟨ht, hrest⟩ := List.forall_mem_cons.1 hv
    obtain ⟨hvalid, hdenote⟩ := ih hrest
    obtain ⟨hpair, hdpair⟩ := denote_pair (M := M) ha ht
    refine ⟨List.forall_mem_cons.2 ⟨hpair, hvalid⟩, ?_⟩
    rw [List.map_cons, denoteAlt, hdpair, hdenote, denoteAlt, Quantale.mul_sup_distrib]

theorem products_spec {AoS_tail : RE} (hv : ∀ e ∈ a1, e.Valid) (ht : AoS_tail.Valid) :
    (∀ e ∈ products a1 AoS_tail, e.Valid) ∧
      denoteAlt M (products a1 AoS_tail) = denoteAlt M a1 * denote M AoS_tail := by
  cases ht with
  | @alt alt_tail htail =>
    rw [products, denote]
    induction a1 with
    | nil => exact ⟨List.forall_mem_nil _, (Quantale.bot_mul).symm⟩
    | cons a a1 ih =>
      obtain ⟨ha, ha1⟩ := List.forall_mem_cons.1 hv
      obtain ⟨hvalid, hdenote⟩ := ih ha1
      obtain ⟨hpairs, hdpairs⟩ := products_after (M := M) ha htail
      refine ⟨?_, ?_⟩
      · rw [List.flatMap_cons]
        exact List.forall_mem_append.2 ⟨hpairs, hvalid⟩
      · rw [List.flatMap_cons, denoteAlt_append, hdpairs, hdenote, denoteAlt,
          Quantale.sup_mul_distrib]
  | _ => exact products_before hv (by constructor <;> assumption)

/-- The product of the meanings of the groups. -/
def denoteProduct (M : Meaning (Language ℕ)) : List (List RE) → Language ℕ
  | [] => 1
  | a1 :: SofA => denoteAlt M a1 * denoteProduct M SofA

theorem seqOfAlt2AltOfSeq_spec (hv : ∀ a1 ∈ SofA, ∀ e ∈ a1, e.Valid) (h : Distributes SofA) :
    ∃ r, SeqOfAlt2AltOfSeq SofA = .ok r ∧ r.Valid ∧ denote M r = denoteProduct M SofA := by
  induction SofA with
  | nil =>
    refine ⟨makeSeq [], rfl, valid_makeSeq (List.forall_mem_nil _), ?_⟩
    rw [denote_makeSeq (List.forall_mem_nil _)]
    rfl
  | cons a1 SofA ih =>
    obtain ⟨ha1, hrest⟩ := List.forall_mem_cons.1 hv
    obtain ⟨AoS_tail, htail, hvt, hdt⟩ := ih hrest h.1
    obtain ⟨hvp, hdp⟩ := products_spec (M := M) ha1 hvt
    obtain ⟨r, hr, hvr, hdr⟩ := alternatives_joins (M := M) hvp (h.2 AoS_tail htail)
    refine ⟨r, ?_, hvr, ?_⟩
    · rw [SeqOfAlt2AltOfSeq, htail, ok_bind, hr]
    · rw [hdr, hdp, hdt, denoteProduct]

theorem altGroup_spec (he : e.Valid) (h : ∀ alts, e = alt alts → Factors getLengthRange alts) :
    ∃ group, altGroup getLengthRange e = .ok group ∧ (∀ x ∈ group, x.Valid) ∧
      denoteAlt M group = denote M e := by
  cases he with
  | @alt elems hv =>
    obtain ⟨alts, halts, hva, hda⟩ := lengthFactorAlts_spec (M := M) hv (h elems rfl)
    exact ⟨alts, halts, hva, by rw [hda, denote]⟩
  | _ =>
    refine ⟨[_], rfl, List.forall_mem_singleton.2 ?_, denoteAlt_singleton⟩
    constructor <;> assumption

theorem altGroups_spec (hv : ∀ e ∈ elems, e.Valid)
    (h : ∀ alts, alt alts ∈ elems → Factors getLengthRange alts) :
    ∃ altGroups, elems.mapM (altGroup getLengthRange) = .ok altGroups ∧
      (∀ a1 ∈ altGroups, ∀ e ∈ a1, e.Valid) ∧
        denoteProduct M altGroups = denoteSeq M elems := by
  induction elems with
  | nil => exact ⟨[], rfl, List.forall_mem_nil _, rfl⟩
  | cons e elems ih =>
    obtain ⟨he, helems⟩ := List.forall_mem_cons.1 hv
    obtain ⟨group, hgroup, hvg, hdg⟩ := altGroup_spec (M := M) he fun alts heq ↦
        h alts (heq ▸ List.mem_cons_self ..)
    obtain ⟨altGroups, hgroups, hvgs, hdgs⟩ :=
      ih helems fun alts hmem ↦ h alts (List.mem_cons_of_mem _ hmem)
    refine ⟨group :: altGroups, ?_, List.forall_mem_cons.2 ⟨hvg, hvgs⟩, ?_⟩
    · rw [List.mapM_cons, hgroup, ok_bind, hgroups, ok_bind, pure_eq_ok]
    · rw [denoteProduct, denoteSeq, hdg, hdgs]

theorem makes_promoteSeq (hv : ∀ e ∈ elems, e.Valid)
    (halts : ∀ alts, alt alts ∈ elems → Factors getLengthRange alts)
    (hgroups : ∀ altGroups, elems.mapM (altGroup getLengthRange) = .ok altGroups →
      Distributes altGroups) : Makes M id (seq elems) (promoteSeq getLengthRange elems) := by
  obtain ⟨altGroups, hmap, hvg, hdg⟩ := altGroups_spec (M := M) hv halts
  obtain ⟨r, hr, hvr, hdr⟩ := seqOfAlt2AltOfSeq_spec (M := M) hvg (hgroups altGroups hmap)
  rw [promoteSeq, hmap, ok_bind, hr, ok_bind, pure_eq_ok]
  exact makes_some hvr (by rw [hdr, hdg, id, denote])

theorem makes_promotion (hM : Strings M) (hsame : ∀ a b, same a b = true → a = b) (hv : re.Valid)
    (h : Ready getLengthRange same M re) :
    Makes M id re ((promotor getLengthRange).transform same re) := by
  induction hv with
  | @alt elems hvalid ih =>
    cases h with
    | alt h hnew => exact makes_alt commutes_id (.alt hvalid) (fun e he ↦ ih e he (h e he)) hnew
  | @seq elems hvalid ih =>
    cases h with
    | seq halts hgroups =>
      rw [transform, transformItems_eq]
      simp only [promotor, List.map_map, Function.comp_def, List.map_id']
      exact makes_promoteSeq hvalid halts hgroups
  | @assertion asserted k s hvalid ih =>
    cases h with
    | assertion _ _ h => exact makes_defaultAssertion hM (.assertion k s hvalid) (ih h) rfl
  | @diff x0 y0 hvx hvy ihx ihy =>
    cases h with
    | diff hx hy hnew =>
      exact makes_diff commutes_id hsame hM.cc (.diff hvx hvy) (ihx hx) (ihy hy) hnew
  | @intersect x0 y0 hvx hvy ihx ihy =>
    cases h with
    | intersect hx hy hnew =>
      exact makes_intersect commutes_id hsame hM.cc (.intersect hvx hvy) (ihx hx) (ihy hy) hnew
  | @rep e0 lb ub hv0 hb ih =>
    cases h with
    | rep h hnew => exact makes_defaultRep commutes_id (.rep hv0 hb) (ih h) hnew
  | any => exact makes_none .any rfl
  | cc hc => exact makes_none (.cc hc) rfl
  | name n hdef _ => exact makes_none (.name n hdef) rfl
  | start => exact makes_none .start rfl
  | stop => exact makes_none .stop rfl
  | other node => exact makes_none (.other node) rfl

end Exact

end VariableAltPromotor

open VariableAltPromotor

theorem forall_mem_two {α : Type*} {p : α → Prop} {x y : α} (h : p x ∧ p y) : ∀ e ∈ [x, y], p e :=
  List.forall_mem_cons.2 ⟨h.1, List.forall_mem_singleton.2 h.2⟩

end Parabix.RE
