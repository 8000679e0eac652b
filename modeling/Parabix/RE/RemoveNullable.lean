import Parabix.RE.LineAnchors
import Parabix.RE.Transformer

namespace Parabix.RE

open Library Library.Powers Library.Spans UCD RE_Transformer
open LineAnchors (Side)

/-- The items of a sequence from the one at the front on, or from the one at the back. -/
def ordered {α : Type*} : Side → List α → List α
  | .front, items => items
  | .back, items => items.reverse

namespace NullableRemover

section Transform

/-- The items that become nullable are left out, up to the first one that does not. The loop does
not look for the end of the sequence. -/
def skipNullable (side : Side) : List (RE × Transformed) → Bool → Transformed
  | [], _ => .error .memory
  | (item, t) :: items, skipped => do
    let e ← t
    if isNullable (e.getD item) then skipNullable side items true
    else if !skipped && e.isNone then return none
    else return some (makeSeq (ordered side (e.getD item :: items.map Prod.fst)))

def removeSeq (side : Side) (items : List (RE × Transformed)) : Transformed :=
  if isNullable (seq (items.map Prod.fst)) then .ok none
  else skipNullable side (ordered side items) false

def removeRep (side : Side) (r : RE) (t : Transformed) (lb ub : ℤ) : Transformed :=
  if lb = 0 || isNullable r then .ok (some (makeSeq []))
  else do
    let s ← t
    if s.isNone && lb = ub then return none
    else if lb = 1 then return some (s.getD r)
    else if lb = 2 then return some (makeSeq (ordered side [s.getD r, r]))
    else return some (makeSeq (ordered side [s.getD r, ← makeRep r (lb - 1) (lb - 1)]))

/-- The two transformations differ in the side from which a sequence is passed. -/
def remover (side : Side) : RE_Transformer :=
  { base with
    transformSeq := removeSeq side
    transformRep := removeRep side
    transformAssertion := fun _ _ _ _ ↦ .ok none }

end Transform

end NullableRemover

open NullableRemover

def removeNullablePrefix (same : RE → RE → Bool) (r : RE) : Except Fault RE :=
  (remover .front).transformRE same r

def removeNullableSuffix (same : RE → RE → Bool) (r : RE) : Except Fault RE :=
  (remover .back).transformRE same r

namespace NullableRemover

section Condition

variable (side : Side) (same : RE → RE → Bool)

/-- An item that is left out. -/
def Passed (e : RE) : Prop :=
  ∃ o, (remover side).transform same e = .ok o ∧ isNullable (o.getD e) = true

/-- No operand of a difference or an intersection is changed, and the constructors of the other
nodes are right. -/
inductive Ready : RE → Prop
  | alt {elems : List RE} (h : ∀ e ∈ elems, Ready e)
    (hnew : ∀ elems1, changed ((remover side).transformItems same elems) = .ok (elems1, true) →
      ∀ e ∈ elems1, Optional e) : Ready (alt elems)
  | any : Ready any
  | assertion (asserted : RE) (k : Kind) (s : Sense) : Ready (assertion asserted k s)
  | cc (c : CC) : Ready (cc c)
  | diff {lh rh : RE} (hl : (remover side).transform same lh = .ok none)
    (hr : (remover side).transform same rh = .ok none) : Ready (diff lh rh)
  | intersect {lh rh : RE} (hl : (remover side).transform same lh = .ok none)
    (hr : (remover side).transform same rh = .ok none) : Ready (intersect lh rh)
  | name (n : String) (definition : RE) : Ready (name n definition)
  | rep {r : RE} {lb ub : ℤ} (h : isNullable (rep r lb ub) = false → Ready r)
    (hnew : 3 ≤ lb → RepSafe r.outline (lb - 1) (lb - 1)) : Ready (rep r lb ub)
  | seq {elems : List RE} (h : isNullable (seq elems) = false → ∀ before e after,
      ordered side elems = before ++ e :: after → (∀ x ∈ before, Passed side same x) → Ready e) :
    Ready (seq elems)
  | start : Ready start
  | stop : Ready stop
  | other (node : ℕ) : Ready (other node)

end Condition

section Reach

variable {side : Side} {x x' y y' : Span} {a b : ℕ}

/-- Where the matches end, for what is left out at the front, or where they begin. -/
def reach : Side → Span → Set ℕ
  | .front, x => {q | ∃ p, x p q}
  | .back, x => {p | ∃ q, x p q}

/-- What is followed by other things on the way from a side. -/
def followed {K : Type*} [Mul K] : Side → K → K → K
  | .front, x, y => x * y
  | .back, x, y => y * x

theorem reach_one : reach side 1 = Set.univ := by
  cases side with
  | front => exact Set.eq_univ_of_forall fun q ↦ ⟨q, rfl⟩
  | back => exact Set.eq_univ_of_forall fun p ↦ ⟨p, rfl⟩

theorem reach_mono (h : x ≤ y) : reach side x ⊆ reach side y := by
  cases side with
  | front => exact fun q hq ↦ hq.imp fun p hp ↦ h p q hp
  | back => exact fun p hp ↦ hp.imp fun q hq ↦ h p q hq

theorem reach_of_one_le (h : 1 ≤ x) : reach side x = Set.univ :=
  Set.univ_subset_iff.1 (reach_one.symm.subset.trans (reach_mono h))

theorem reach_sup : reach side (x ⊔ y) = reach side x ∪ reach side y := by
  cases side with
  | front => exact Set.ext fun q ↦ exists_or
  | back => exact Set.ext fun p ↦ exists_or

theorem reach_followed_front :
    reach .front (followed .front x y) = {q | ∃ m ∈ reach .front x, y m q} := by
  apply Set.ext
  intro q
  constructor
  · rintro ⟨p, m, hx, hy⟩
    exact ⟨m, ⟨p, hx⟩, hy⟩
  · rintro ⟨m, ⟨p, hx⟩, hy⟩
    exact ⟨p, m, hx, hy⟩

theorem reach_followed_back :
    reach .back (followed .back x y) = {p | ∃ m ∈ reach .back x, y p m} := by
  apply Set.ext
  intro p
  constructor
  · rintro ⟨q, m, hy, hx⟩
    exact ⟨m, ⟨q, hx⟩, hy⟩
  · rintro ⟨m, ⟨q, hx⟩, hy⟩
    exact ⟨q, m, hy, hx⟩

/-- How far spans reach that follow others depends on how far these reach. -/
theorem reach_followed (h : reach side x = reach side x') :
    reach side (followed side x y) = reach side (followed side x' y) := by
  cases side with
  | front => rw [reach_followed_front, reach_followed_front, h]
  | back => rw [reach_followed_back, reach_followed_back, h]

theorem followed_one : followed side 1 y = y := by
  cases side with
  | front => exact one_mul y
  | back => exact mul_one y

theorem reach_followed_of_univ (h : reach side x = Set.univ) :
    reach side (followed side x y) = reach side y := by
  rw [reach_followed (h.trans reach_one.symm), followed_one]

theorem reach_followed_subset : reach side (followed side x y) ⊆ reach side y := by
  cases side with
  | front =>
    rintro q ⟨p, m, -, hy⟩
    exact ⟨m, hy⟩
  | back =>
    rintro p ⟨q, m, hy, -⟩
    exact ⟨m, hy⟩

theorem followed_pow : followed side (x ^ a) (x ^ b) = x ^ (a + b) := by
  cases side with
  | front => exact (pow_add x a b).symm
  | back => exact (pow_add x b a).symm.trans (congrArg (x ^ ·) (Nat.add_comm b a))

/-- The least number of repetitions reaches as far as all numbers. -/
theorem reach_powers {n : ℕ} {s : Set ℕ} (hn : n ∈ s) (h : ∀ k ∈ s, n ≤ k) :
    reach side (powers x s) = reach side (x ^ n) := by
  apply Set.Subset.antisymm
  · have hpow (k : ℕ) (hk : k ∈ s) : reach side (x ^ k) ⊆ reach side (x ^ n) := by
      rw [← Nat.sub_add_cancel (h k hk), ← @followed_pow side]
      exact reach_followed_subset
    cases side with
    | front =>
      rintro q ⟨p, hp⟩
      obtain ⟨k, hk, hkp⟩ := powers_apply.1 hp
      exact hpow k hk ⟨p, hkp⟩
    | back =>
      rintro p ⟨q, hq⟩
      obtain ⟨k, hk, hkq⟩ := powers_apply.1 hq
      exact hpow k hk ⟨q, hkq⟩
  · exact reach_mono (pow_le_powers hn)

end Reach

section Nullable

variable {e item : RE} {elems items newSeq : List RE}

theorem isNullable_collapse_seq : isNullable (collapse seq items) = allNullable items := by
  rw [collapse.eq_def]
  split
  · rw [allNullable, allNullable, Bool.and_true]
  · rw [isNullable]

theorem allNullable_eq_false_iff :
    allNullable elems = false ↔ ∃ e ∈ elems, isNullable e = false := by
  rw [← Bool.not_eq_true, allNullable_iff, not_forall]
  simp only [not_forall, exists_prop, Bool.not_eq_true]

theorem not_isNullable_emptySet (h : e.isEmptySet = true) : isNullable e = false := by
  cases e with
  | alt elems => rw [List.isEmpty_iff.1 h, isNullable, anyNullable]
  | cc c => rfl
  | _ => cases h

theorem not_allNullable_nestedItems (h : isNullable item = false) :
    ∃ x ∈ item.nestedItems, isNullable x = false := by
  cases item with
  | seq nestedSeq =>
    rw [isNullable] at h
    exact allNullable_eq_false_iff.1 h
  | _ => exact ⟨_, List.mem_singleton_self _, h⟩

theorem not_isNullable_pushSeq
    (h : (∃ e ∈ newSeq, isNullable e = false) ∨ ∃ e ∈ items, isNullable e = false) :
    isNullable (pushSeq newSeq items) = false := by
  induction items generalizing newSeq with
  | nil =>
    obtain h | ⟨e, he, -⟩ := h
    · rw [pushSeq, isNullable_collapse_seq]
      exact allNullable_eq_false_iff.2 h
    · cases he
  | cons item items ih =>
    rw [pushSeq]
    split_ifs with hempty
    · exact not_isNullable_emptySet hempty
    · apply ih
      obtain ⟨e, he, hnull⟩ | ⟨e, he, hnull⟩ := h
      · exact .inl ⟨e, List.mem_append_left _ he, hnull⟩
      · obtain rfl | he := List.mem_cons.1 he
        · obtain ⟨x, hx, hxnull⟩ := not_allNullable_nestedItems hnull
          exact .inl ⟨x, List.mem_append_right _ hx, hxnull⟩
        · exact .inr ⟨e, he, hnull⟩

theorem not_isNullable_makeSeq (he : e ∈ items) (h : isNullable e = false) :
    isNullable (makeSeq items) = false := not_isNullable_pushSeq (.inr ⟨e, he, h⟩)

/-- What has been found makes no alternative nullable. -/
def NoneNullable (found : Alternatives) : Prop :=
  found.nullable = false ∧ ∀ e ∈ found.newAlt, isNullable e = false

theorem NoneNullable.push {found : Alternatives} (h : NoneNullable found)
    (he : isNullable e = false) : NoneNullable { found with newAlt := found.newAlt ++ [e] } :=
  ⟨h.1, List.forall_mem_append.2 ⟨h.2, List.forall_mem_singleton.2 he⟩⟩

theorem not_isEmptySeq (h : isNullable e = false) : e.isEmptySeq = false := by
  cases e with
  | seq items =>
    cases items with
    | nil => cases h
    | cons => rfl
  | _ => rfl

theorem NoneNullable.addNested {found found' : Alternatives} (h : NoneNullable found)
    (he : isNullable e = false) (hadd : addNested found e = .ok found') : NoneNullable found' := by
  have hseq := not_isEmptySeq he
  cases e with
  | cc c =>
    obtain ⟨CCs, -, hfound⟩ := bind_eq_ok.1 hadd
    obtain rfl := Except.ok.inj hfound
    exact h
  | _ =>
    simp only [RE.addNested, hseq, Bool.false_eq_true, if_false] at hadd
    obtain rfl := Except.ok.inj hadd
    exact h.push he

theorem NoneNullable.foldlM {f : Alternatives → RE → Except Fault Alternatives}
    (hf : ∀ e ∈ elems, ∀ found found', NoneNullable found → f found e = .ok found' →
      NoneNullable found') {found found' : Alternatives} (h : NoneNullable found)
    (hfold : elems.foldlM f found = .ok found') : NoneNullable found' := by
  induction elems generalizing found with
  | nil =>
    obtain rfl := Except.ok.inj hfold
    exact h
  | cons e elems ih =>
    rw [List.foldlM_cons] at hfold
    obtain ⟨found1, hfirst, hrest⟩ := bind_eq_ok.1 hfold
    obtain ⟨he, helems⟩ := List.forall_mem_cons.1 hf
    exact ih helems (he _ _ h hfirst) hrest

theorem anyNullable_eq_false_iff :
    anyNullable elems = false ↔ ∀ e ∈ elems, isNullable e = false := by
  rw [← Bool.not_eq_true, anyNullable_iff]
  simp only [not_exists, not_and, Bool.not_eq_true]

theorem NoneNullable.addAlternative {found found' : Alternatives} (h : NoneNullable found)
    (he : isNullable e = false) (hadd : addAlternative makeRep found e = .ok found') :
    NoneNullable found' := by
  have hseq := not_isEmptySeq he
  cases e with
  | cc c =>
    obtain ⟨CCs, -, hfound⟩ := bind_eq_ok.1 hadd
    obtain rfl := Except.ok.inj hfound
    exact h
  | alt nestedAlt =>
    rw [isNullable, anyNullable_eq_false_iff] at he
    exact h.foldlM (fun e hmem _ _ hfound ↦ hfound.addNested (he e hmem)) hadd
  | rep r lb ub =>
    have hlb : lb ≠ 0 := by
      rintro rfl
      cases he
    rw [RE.addAlternative, if_neg hlb] at hadd
    obtain rfl := Except.ok.inj hadd
    exact h.push he
  | _ =>
    simp only [RE.addAlternative, hseq, Bool.false_eq_true, if_false] at hadd
    obtain rfl := Except.ok.inj hadd
    exact h.push he

theorem not_isNullable_makeAlt {r : RE} (h : ∀ e ∈ elems, isNullable e = false)
    (hr : makeAlt elems = .ok r) : isNullable r = false := by
  rw [makeAlt, makeAltWith] at hr
  obtain ⟨found, hfold, hr⟩ := bind_eq_ok.1 hr
  obtain rfl := Except.ok.inj hr
  have hnone : NoneNullable found :=
    NoneNullable.foldlM (fun e he _ _ hfound ↦ hfound.addAlternative (h e he))
      ⟨rfl, List.forall_mem_nil _⟩ hfold
  have helements : ∀ e ∈ found.elements, isNullable e = false := by
    rw [Alternatives.elements, hnone.1]
    simp only [Bool.false_eq_true, if_false, List.append_nil]
    exact List.forall_mem_append.2 ⟨hnone.2, List.forall_mem_map.2 fun c _ ↦ rfl⟩
  rw [collapse.eq_def]
  split
  · rename_i e heq
    exact helements e (heq ▸ List.mem_singleton_self e)
  · rw [isNullable]
    exact anyNullable_eq_false_iff.2 helements

end Nullable

section Exact

variable {side : Side} {same : RE → RE → Bool} {M : Meaning Span} {e r re t : RE}
variable {elems items rest : List RE} {lb ub : ℤ}

/-- The new node, or the old one, reaches as far, and is nullable only if the old one is. -/
def Removes (side : Side) (M : Meaning Span) (e : RE) (t : Transformed) : Prop :=
  ∃ o, t = .ok o ∧ (o.getD e).Valid ∧ reach side (denote M (o.getD e)) = reach side (denote M e) ∧
    (isNullable e = false → isNullable (o.getD e) = false)

theorem removes_none (hv : e.Valid) : Removes side M e (.ok none) := ⟨none, rfl, hv, rfl, id⟩

theorem removes_some (hv : r.Valid) (h : reach side (denote M r) = reach side (denote M e))
    (hnull : isNullable e = false → isNullable r = false) : Removes side M e (.ok (some r)) :=
  ⟨some r, rfl, hv, h, hnull⟩

theorem changed_reach (h : ∀ e ∈ elems, Removes side M e ((remover side).transform same e)) :
    ∃ elems1 any_changed,
      changed ((remover side).transformItems same elems) = .ok (elems1, any_changed) ∧
        (∀ e ∈ elems1, e.Valid) ∧
          reach side (denoteAlt M elems1) = reach side (denoteAlt M elems) ∧
            ((∀ e ∈ elems, isNullable e = false) → ∀ e ∈ elems1, isNullable e = false) := by
  induction elems with
  | nil => exact ⟨[], false, rfl, List.forall_mem_nil _, rfl, fun _ ↦ List.forall_mem_nil _⟩
  | cons e elems ih =>
    obtain ⟨⟨o, ho, hvalid, hreach, hnull⟩, helems⟩ := List.forall_mem_cons.1 h
    obtain ⟨elems1, any_changed, htransform, hvalid1, halt, hnull1⟩ := ih helems
    refine ⟨o.getD e :: elems1, o.isSome || any_changed, ?_, ?_, ?_, fun hnone ↦ ?_⟩
    · rw [transformItems, changed, ho, ok_bind, htransform, ok_bind]
      rfl
    · exact List.forall_mem_cons.2 ⟨hvalid, hvalid1⟩
    · rw [denoteAlt, denoteAlt, reach_sup, reach_sup, hreach, halt]
    · obtain ⟨he, hrest⟩ := List.forall_mem_cons.1 hnone
      exact List.forall_mem_cons.2 ⟨hnull he, hnull1 hrest⟩

theorem removes_alt (hv : (alt elems).Valid)
    (h : ∀ e ∈ elems, Removes side M e ((remover side).transform same e))
    (hnew : ∀ elems1, changed ((remover side).transformItems same elems) = .ok (elems1, true) →
      ∀ e ∈ elems1, Optional e) :
    Removes side M (alt elems) ((remover side).transform same (alt elems)) := by
  obtain ⟨elems1, any_changed, htransform, hvalid1, halt, hnull⟩ := changed_reach h
  rw [transform, htransform, ok_bind]
  cases any_changed with
  | false => exact removes_none hv
  | true =>
    obtain ⟨r, hr, hvr, hdenote⟩ := makeAlt_spec (M := M) hvalid1 (hnew elems1 htransform)
    simp only [if_true, hr, ok_bind, pure_eq_ok]
    refine removes_some hvr ?_ fun hnone ↦ ?_
    · rw [hdenote, halt, denote]
    · rw [isNullable, anyNullable_eq_false_iff] at hnone
      exact not_isNullable_makeAlt (hnull hnone) hr

theorem mem_ordered {α : Type*} {x : α} {xs : List α} : x ∈ ordered side xs ↔ x ∈ xs := by
  cases side with
  | front => exact Iff.rfl
  | back => exact List.mem_reverse

theorem ordered_ordered {α : Type*} {xs : List α} : ordered side (ordered side xs) = xs := by
  cases side with
  | front => rfl
  | back => exact List.reverse_reverse xs

theorem map_ordered {α β : Type*} {f : α → β} {xs : List α} :
    (ordered side xs).map f = ordered side (xs.map f) := by
  cases side with
  | front => rfl
  | back => exact List.map_reverse

theorem denoteSeq_ordered :
    denoteSeq M (ordered side (e :: items)) =
      followed side (denote M e) (denoteSeq M (ordered side items)) := by
  cases side with
  | front => rfl
  | back =>
    rw [ordered, List.reverse_cons, denoteSeq_append, denoteSeq_singleton]
    rfl

theorem makeSeq_ordered (he : e.Valid) (hitems : ∀ x ∈ items, x.Valid) :
    (makeSeq (ordered side (e :: items))).Valid ∧
      denote M (makeSeq (ordered side (e :: items))) =
        followed side (denote M e) (denoteSeq M (ordered side items)) := by
  have hv : ∀ x ∈ ordered side (e :: items), x.Valid :=
    fun x hx ↦ List.forall_mem_cons.2 ⟨he, hitems⟩ x (mem_ordered.1 hx)
  exact ⟨valid_makeSeq hv, (denote_makeSeq hv).trans denoteSeq_ordered⟩

theorem not_isNullable_ordered (h : isNullable e = false) :
    isNullable (makeSeq (ordered side (e :: items))) = false :=
  not_isNullable_makeSeq (mem_ordered.2 (List.mem_cons_self ..)) h

theorem skipNullable_spec {skipped : Bool} (hv : ∀ e ∈ items, e.Valid)
    (h : ∀ before e after, items = before ++ e :: after → (∀ x ∈ before, Passed side same x) →
      Removes side M e ((remover side).transform same e))
    (hnull : ∃ e ∈ items, isNullable e = false) :
    ∃ o, skipNullable side (items.map fun e ↦ (e, (remover side).transform same e)) skipped =
        .ok o ∧ ∀ r, o = some r → r.Valid ∧ isNullable r = false ∧
          reach side (denote M r) = reach side (denoteSeq M (ordered side items)) := by
  induction items generalizing skipped with
  | nil =>
    obtain ⟨e, he, -⟩ := hnull
    cases he
  | cons e items ih =>
    obtain ⟨he, hitems⟩ := List.forall_mem_cons.1 hv
    obtain ⟨o, ho, hvo, hreach, hkept⟩ := h [] e items rfl (List.forall_mem_nil _)
    rw [List.map_cons, skipNullable, ho, ok_bind, List.map_map, Function.comp_def]
    simp only [List.map_id']
    have hfollowed (x : Span) : reach side (followed side (denote M (o.getD e)) x) =
        reach side (followed side (denote M e) x) := reach_followed hreach
    split_ifs with hnullable hskipped
    · have hrest : ∃ e ∈ items, isNullable e = false := by
        obtain ⟨x, hx, hxnull⟩ := hnull
        obtain rfl | hx := List.mem_cons.1 hx
        · rw [hkept hxnull] at hnullable
          cases hnullable
        · exact ⟨x, hx, hxnull⟩
      obtain ⟨o', ho', hr⟩ := ih hitems (fun before x after hsplit hbefore ↦
        h (e :: before) x after (congrArg (e :: ·) hsplit)
          (List.forall_mem_cons.2 ⟨⟨o, ho, hnullable⟩, hbefore⟩)) hrest
      refine ⟨o', ho', fun r hor ↦ ?_⟩
      obtain ⟨hvr, hnr, hreachr⟩ := hr r hor
      refine ⟨hvr, hnr, ?_⟩
      have huniv : reach side (denote M e) = Set.univ :=
        hreach.symm.trans (reach_of_one_le (one_le_denote hvo hnullable))
      rw [hreachr, denoteSeq_ordered, reach_followed_of_univ huniv]
    · exact ⟨none, rfl, fun r hr ↦ by cases hr⟩
    · refine ⟨_, rfl, fun r hr ↦ ?_⟩
      obtain rfl := Option.some.inj hr
      obtain ⟨hvseq, hdenote⟩ := @makeSeq_ordered side M _ _ hvo hitems
      refine ⟨hvseq, not_isNullable_ordered (eq_false_of_ne_true hnullable), ?_⟩
      rw [hdenote, hfollowed, denoteSeq_ordered]

theorem removes_seq (hv : (seq elems).Valid)
    (h : isNullable (seq elems) = false → ∀ before e after,
      ordered side elems = before ++ e :: after → (∀ x ∈ before, Passed side same x) →
        Removes side M e ((remover side).transform same e)) :
    Removes side M (seq elems) ((remover side).transform same (seq elems)) := by
  rw [transform, transformItems_eq]
  simp only [remover]
  rw [removeSeq, List.map_map, Function.comp_def]
  simp only [List.map_id']
  split_ifs with hnullable
  · exact removes_none hv
  · rw [Bool.not_eq_true] at hnullable
    have hvalid : ∀ e ∈ ordered side elems, e.Valid := by
      cases hv with
      | seq hv => exact fun e he ↦ hv e (mem_ordered.1 he)
    have hnull : ∃ e ∈ ordered side elems, isNullable e = false := by
      rw [isNullable] at hnullable
      obtain ⟨e, he, hnull⟩ := allNullable_eq_false_iff.1 hnullable
      exact ⟨e, mem_ordered.2 he, hnull⟩
    obtain ⟨o, ho, hr⟩ := @skipNullable_spec side same M _ false hvalid (h hnullable) hnull
    rw [map_ordered] at ho
    simp only [remover] at ho
    rw [ho]
    cases o with
    | none => exact removes_none hv
    | some r =>
      obtain ⟨hvr, hnr, hreach⟩ := hr r rfl
      refine removes_some hvr ?_ fun _ ↦ hnr
      rw [hreach, ordered_ordered, denote]

theorem reach_rep (hb : Bounds lb ub) :
    reach side (denote M (rep re lb ub)) = reach side (denote M re ^ lb.toNat) := by
  have hnonneg := hb.nonneg
  rw [denote]
  apply reach_powers
  · refine ⟨by omega, hb.le.imp_right fun hle ↦ by omega⟩
  · intro k hk
    have hle := hk.1
    omega

/-- One repetition is changed, and the others are a repetition of their own. -/
theorem removes_first {first : RE} (hv : (rep re lb ub).Valid) (hlb : 1 ≤ lb) (hfirst : first.Valid)
    (hreach : reach side (denote M first) = reach side (denote M re))
    (hnull : isNullable first = false) (ht : t.Valid)
    (hdenote : denote M t = denote M re ^ (lb - 1).toNat) :
    Removes side M (rep re lb ub) (.ok (some (makeSeq (ordered side [first, t])))) := by
  cases hv with
  | rep hre hb =>
    obtain ⟨hvseq, hseq⟩ := @makeSeq_ordered side M _ _ hfirst
      (List.forall_mem_singleton.2 ht)
    have hcount : lb.toNat = 1 + (lb - 1).toNat := by omega
    refine removes_some hvseq ?_ fun _ ↦ not_isNullable_ordered hnull
    rw [hseq, reach_followed hreach, denoteSeq_ordered, hdenote, reach_rep hb, hcount,
      ← @followed_pow side, pow_one]
    cases side with
    | front => exact congrArg (fun x ↦ reach .front (_ * x)) (mul_one _)
    | back => exact congrArg (fun x ↦ reach .back (x * _)) (one_mul _)

theorem removes_rep (hv : (rep re lb ub).Valid)
    (h : isNullable (rep re lb ub) = false →
      Removes side M re ((remover side).transform same re))
    (hnew : 3 ≤ lb → RepSafe re.outline (lb - 1) (lb - 1)) :
    Removes side M (rep re lb ub) ((remover side).transform same (rep re lb ub)) := by
  have hrep := hv
  rw [transform]
  change Removes side M _ (removeRep side re ((remover side).transform same re) lb ub)
  rw [removeRep]
  cases hv with
  | rep hre hb =>
    have hnonneg := hb.nonneg
    cases hnullable : isNullable (rep re lb ub) with
    | true =>
      rw [isNullable] at hnullable
      rw [if_pos hnullable]
      refine removes_some (valid_makeSeq (List.forall_mem_nil _)) ?_ fun hnone ↦ ?_
      · rw [denote_makeSeq (List.forall_mem_nil _), denoteSeq, reach_one,
          reach_of_one_le (one_le_denote hrep (by rwa [isNullable]))]
      · rw [isNullable, hnullable] at hnone
        cases hnone
    | false =>
      obtain ⟨o, ho, hvo, hreach, hkept⟩ := h hnullable
      rw [isNullable] at hnullable
      rw [hnullable, if_neg Bool.false_ne_true, ho, ok_bind]
      rw [Bool.or_eq_false_iff, decide_eq_false_iff_not] at hnullable
      obtain ⟨hlb, hre0⟩ := hnullable
      split_ifs with hsame hone htwo
      · exact removes_none hrep
      · refine removes_some hvo ?_ fun _ ↦ hkept hre0
        rw [hreach, reach_rep hb, hone]
        exact congrArg (reach side) (pow_one _).symm
      · refine removes_first hrep (by omega) hvo hreach (hkept hre0) hre ?_
        rw [htwo]
        exact (pow_one _).symm
      · have hb' : Bounds (lb - 1) (lb - 1) :=
          ⟨by omega, by have := hb.lt; omega, .inr le_rfl, by have := hb.lt; omega⟩
        obtain ⟨r, hr, hvr, hdenote⟩ := makeRep_repeats (M := M) hre hb' (hnew (by omega))
        rw [hr, ok_bind]
        refine removes_first hrep (by omega) hvo hreach (hkept hre0) hvr ?_
        have hcast : lb - 1 = ((lb - 1).toNat : ℤ) := by omega
        rw [hdenote, hcast, counts_nat, Set.Icc_self, powers_singleton, Int.toNat_natCast]

theorem removes (hv : re.Valid) (h : Ready side same re) :
    Removes side M re ((remover side).transform same re) := by
  induction hv with
  | @alt elems hvalid ih =>
    cases h with
    | alt h hnew => exact removes_alt (.alt hvalid) (fun e he ↦ ih e he (h e he)) hnew
  | @seq elems hvalid ih =>
    cases h with
    | seq h =>
      refine removes_seq (.seq hvalid) fun hnull before e after hsplit hbefore ↦ ?_
      have hmem : e ∈ before ++ e :: after := List.mem_append_right _ (List.mem_cons_self ..)
      exact ih e (mem_ordered.1 (hsplit.symm ▸ hmem)) (h hnull before e after hsplit hbefore)
  | @rep r lb ub hr hb ih =>
    cases h with
    | rep h hnew => exact removes_rep (.rep hr hb) (fun hnull ↦ ih (h hnull)) hnew
  | @diff lh rh hvl hvr _ _ =>
    cases h with
    | diff hl hr =>
      rw [transform, hl, ok_bind, hr, ok_bind]
      exact removes_none (.diff hvl hvr)
  | @intersect lh rh hvl hvr _ _ =>
    cases h with
    | intersect hl hr =>
      rw [transform, hl, ok_bind, hr, ok_bind]
      exact removes_none (.intersect hvl hvr)
  | assertion k s hvalid => exact removes_none (.assertion k s hvalid)
  | any => exact removes_none .any
  | cc hc => exact removes_none (.cc hc)
  | name n hdef => exact removes_none (.name n hdef)
  | start => exact removes_none .start
  | stop => exact removes_none .stop
  | other node => exact removes_none (.other node)

end Exact

end NullableRemover

section Example

open LineAnchors

theorem ready_optional_letter (side : Side) :
    Ready side sameAnchor (seq [rep (letter 97) 0 1, letter 98]) := by
  refine .seq fun _ before e after hsplit _ ↦ ?_
  have hmem : e ∈ before ++ e :: after := List.mem_append_right _ (List.mem_cons_self ..)
  rw [← hsplit, mem_ordered] at hmem
  rcases List.mem_pair.1 hmem with rfl | rfl
  · refine .rep (fun h ↦ ?_) fun hlb ↦ ?_
    · cases h
    · exact absurd hlb (by decide)
  · exact .cc _

end Example

end Parabix.RE
