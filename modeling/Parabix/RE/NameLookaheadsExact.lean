import Parabix.RE.NameLookaheads

namespace Parabix.RE.Expression

open Library Library.Powers Library.Spans UCD
open Memoization (PropertyKind Mode GroupSense)

section Constructors

variable {same : Expression → Expression → Bool} {lh rh d : Expression}

theorem eq_of_isEmptySeq (h : lh.isEmptySeq = true) : lh = seq [] := by
  cases lh with
  | seq elems => rw [List.isEmpty_iff.1 h]
  | _ => cases h

theorem one_le_optionalRep (h : lh.isOptionalRep = true) (hv : lh.Valid) {Λ : Type}
    (M : Reading Λ) (modes : Λ) : 1 ≤ read M modes lh := by
  cases hv with
  | @rep re lb ub hre hb =>
    obtain rfl : lb = 0 := of_decide_eq_true h
    have hzero : (0 : ℕ) ∈ counts 0 ub :=
      ⟨Int.le_refl 0, hb.le.imp id fun hle ↦ by exact_mod_cast hle⟩
    rw [read]
    exact one_le_powers hzero
  | _ => cases h

theorem one_sdiff_of_not_empty {x : Span} (h : ∀ p, ¬ x p p) : (1 : Span) \ x = 1 := by
  refine Span.ext fun p q ↦ ⟨fun hpq ↦ hpq.1, fun hpq ↦ ⟨hpq, ?_⟩⟩
  obtain rfl : p = q := hpq
  exact h p

theorem one_inf_of_not_empty {x : Span} (h : ∀ p, ¬ x p p) : (1 : Span) ⊓ x = ⊥ := by
  refine Span.ext fun p q ↦ ⟨fun hpq ↦ ?_, fun hpq ↦ hpq.elim⟩
  obtain ⟨hone, hx⟩ := hpq
  obtain rfl : p = q := hone
  exact h p hx

theorem valid_emptySet : (alt []).Valid := .alt (List.forall_mem_nil _)

theorem makeDiff_right (hsame : ∀ a b, same a b = true → a = b) (hl : lh.Valid) (hr : rh.Valid)
    (hright : LookAheadNamer.DiffRight same lh rh) (h : makeDiff same lh rh = .ok d) :
    d.Valid ∧ ∀ {Λ : Type} (M : Reading Λ), M.Plain → ∀ modes,
      read M modes d = read M modes lh \ read M modes rh := by
  fun_induction makeDiff same lh rh generalizing d with
  | case1 lh rh heq =>
    obtain rfl : alt [] = d := Except.ok.inj h
    refine ⟨valid_emptySet, fun M _ modes ↦ ?_⟩
    rw [hsame lh rh heq, sdiff_self, read, readAlt]
  | case2 lh rh _ hset =>
    obtain rfl := Except.ok.inj h
    refine ⟨hl, fun M _ modes ↦ ?_⟩
    rw [read_emptySet hr hset, sdiff_bot]
  | case3 lh rh _ _ hseq hseq' =>
    obtain rfl : alt [] = d := Except.ok.inj h
    refine ⟨valid_emptySet, fun M _ modes ↦ ?_⟩
    rw [read_emptySeq hseq, read_emptySeq hseq', sdiff_self, read, readAlt]
  | case4 lh rh _ _ hseq _ hrep =>
    obtain rfl : alt [] = d := Except.ok.inj h
    refine ⟨valid_emptySet, fun M _ modes ↦ ?_⟩
    rw [read_emptySeq hseq, sdiff_eq_bot_iff.2 (one_le_optionalRep hrep hr M modes), read, readAlt]
  | case5 lh hseq c =>
    obtain rfl := Except.ok.inj h
    refine ⟨hl, fun M hM modes ↦ ?_⟩
    rw [read_emptySeq hseq, read, one_sdiff_of_not_empty (hM.not_empty modes _ _)]
  | case6 lh hseq elems hnot hset hseq' _ =>
    obtain rfl := Except.ok.inj h
    obtain rfl := eq_of_isEmptySeq hseq
    refine ⟨hl, fun M hM modes ↦ ?_⟩
    rw [LookAheadNamer.DiffRight] at hright
    obtain hempty | hnone := ((hright.resolve_left hnot).resolve_left hset) elems rfl
    · subst hempty
      exact absurd rfl hseq'
    · rw [read_emptySeq hseq, one_sdiff_of_not_empty (hnone _ M hM modes)]
  | case7 =>
    obtain rfl := Except.ok.inj h
    exact ⟨.diff hl hr, fun M _ modes ↦ by rw [read]⟩
  | case8 lh rh _ _ _ hset =>
    obtain rfl := Except.ok.inj h
    refine ⟨hl, fun M _ modes ↦ ?_⟩
    rw [read_emptySet hl hset, bot_sdiff]
  | case9 rh hset lh₀ rh₀ hnot _ _ ih =>
    cases hl with
    | diff hl₀ hr₀ =>
      obtain ⟨a, ha, h⟩ := bind_eq_ok.1 h
      rw [LookAheadNamer.DiffRight] at hright
      have hright' := ((hright.resolve_left hnot).resolve_left hset) a ha
      obtain ⟨hav, hread⟩ := makeAlt_right
        (List.forall_mem_cons.2 ⟨hr₀, List.forall_mem_singleton.2 hr⟩) ha
      obtain ⟨hd, hdiff⟩ := ih a hl₀ hav hright' h
      refine ⟨hd, fun M hM modes ↦ ?_⟩
      rw [hdiff M hM, hread, readAlt, readAlt_singleton, read, sdiff_sdiff]
  | case10 =>
    obtain rfl := Except.ok.inj h
    exact ⟨.diff hl hr, fun M _ modes ↦ by rw [read]⟩

theorem read_defCC {c : CC} (h : lh.defCC = some c) (hv : lh.Valid) :
    c.set.WellFormed ∧ ∀ {Λ : Type} (M : Reading Λ) (modes : Λ),
      read M modes lh = M.cc modes c.alphabet c.set.members := by
  fun_induction defCC lh with
  | case1 c' =>
    obtain rfl := Option.some_inj.1 h
    cases hv with
    | cc hc => exact ⟨hc, fun M modes ↦ by rw [read]⟩
  | case2 n definition ih =>
    cases hv with
    | name _ hv =>
      obtain ⟨hc, hread⟩ := ih h (hv definition rfl)
      exact ⟨hc, fun M modes ↦ by rw [read, hread]⟩
  | case3 => cases h

/-- The shortcut for a sequence of no items on one side. -/
theorem inf_emptySeq_right (hr : rh.Valid)
    (hright : rh.isOptionalRep = true ∨ LookAheadNamer.MatchesNoEmpty rh)
    (h : (if rh.isOptionalRep then .ok (seq []) else makeEmptySet) = .ok d) :
    d.Valid ∧ ∀ {Λ : Type} (M : Reading Λ), M.Plain → ∀ modes,
      read M modes d = 1 ⊓ read M modes rh := by
  split_ifs at h with hrep
  · obtain rfl := Except.ok.inj h
    refine ⟨valid_emptySeq, fun M _ modes ↦ ?_⟩
    rw [inf_eq_left.2 (one_le_optionalRep hrep hr M modes), read, readSeq]
  · obtain rfl : alt [] = d := Except.ok.inj h
    refine ⟨valid_emptySet, fun M hM modes ↦ ?_⟩
    rw [one_inf_of_not_empty ((hright.resolve_left hrep) _ M hM modes), read, readAlt]

theorem intersectCC_right {c₁ c₂ : CC} (h₁ : lh.defCC = some c₁) (h₂ : rh.defCC = some c₂)
    (hl : lh.Valid) (hr : rh.Valid) (halphabet : c₁.alphabet = c₂.alphabet)
    (h : (do return cc (← intersectCC c₁ c₂)) = .ok d) :
    d.Valid ∧ ∀ {Λ : Type} (M : Reading Λ), M.Plain → ∀ modes,
      read M modes d = read M modes lh ⊓ read M modes rh := by
  obtain ⟨hc₁, hread₁⟩ := read_defCC h₁ hl
  obtain ⟨hc₂, hread₂⟩ := read_defCC h₂ hr
  obtain ⟨s, hs, hwf, -, hmembers⟩ := intersection_produces hc₁.verified hc₂.verified
  rw [intersectCC, hs, ok_bind, pure_eq_ok, ok_bind] at h
  obtain rfl := Except.ok.inj h
  refine ⟨.cc hwf, fun M hM modes ↦ ?_⟩
  rw [hread₁, hread₂, read, hmembers, hM.inter, halphabet]

theorem makeIntersect_right (hsame : ∀ a b, same a b = true → a = b) (hl : lh.Valid)
    (hr : rh.Valid) (hright : LookAheadNamer.IntersectRight same lh rh)
    (h : makeIntersect same lh rh = .ok d) :
    d.Valid ∧ ∀ {Λ : Type} (M : Reading Λ), M.Plain → ∀ modes,
      read M modes d = read M modes lh ⊓ read M modes rh := by
  rw [makeIntersect] at h
  by_cases heq : same lh rh = true
  · rw [if_pos heq] at h
    obtain rfl := Except.ok.inj h
    exact ⟨hl, fun M _ modes ↦ by rw [hsame lh rh heq, inf_idem]⟩
  rw [if_neg heq] at h
  by_cases hset : lh.isEmptySet = true
  · rw [if_pos hset] at h
    obtain rfl := Except.ok.inj h
    exact ⟨hl, fun M _ modes ↦ by rw [read_emptySet hl hset, bot_inf_eq]⟩
  rw [if_neg hset] at h
  by_cases hset' : rh.isEmptySet = true
  · rw [if_pos hset'] at h
    obtain rfl := Except.ok.inj h
    exact ⟨hr, fun M _ modes ↦ by rw [read_emptySet hr hset', inf_bot_eq]⟩
  rw [if_neg hset'] at h
  obtain ⟨hleft, hright⟩ := hright.resolve_left heq
  by_cases hseq : lh.isEmptySeq = true
  · rw [if_pos hseq] at h
    obtain rfl := eq_of_isEmptySeq hseq
    obtain ⟨hd, hread⟩ := inf_emptySeq_right hr (hleft hseq) h
    exact ⟨hd, fun M hM modes ↦ by rw [hread M hM, read_emptySeq hseq]⟩
  rw [if_neg hseq] at h
  by_cases hseq' : rh.isEmptySeq = true
  · rw [if_pos hseq'] at h
    obtain rfl := eq_of_isEmptySeq hseq'
    obtain ⟨hd, hread⟩ := inf_emptySeq_right hl (hright hseq') h
    exact ⟨hd, fun M hM modes ↦ by rw [hread M hM, read_emptySeq hseq', inf_comm]⟩
  rw [if_neg hseq'] at h
  have hnode : (intersect lh rh).Valid ∧ ∀ {Λ : Type} (M : Reading Λ), M.Plain → ∀ modes,
      read M modes (intersect lh rh) = read M modes lh ⊓ read M modes rh :=
    ⟨.intersect hl hr, fun M _ modes ↦ by rw [read]⟩
  split at h
  · rename_i c₁ c₂ h₁ h₂
    split_ifs at h with halphabet
    · exact intersectCC_right h₁ h₂ hl hr halphabet h
    · obtain rfl := Except.ok.inj h
      exact hnode
  · obtain rfl := Except.ok.inj h
    exact hnode

/-- Positions where nothing is matched are those where not nothing is. -/
theorem asserted_bot (kind : Kind) (sense : Sense) :
    zeroWidth (Boundaries.asserted kind sense ⊥) = if sense = .Negative then 1 else ⊥ := by
  refine Span.ext fun p q ↦ ?_
  cases kind <;> cases sense <;> simp [zeroWidth, Boundaries.asserted]

theorem asserted_one (kind : Kind) (sense : Sense) :
    zeroWidth (Boundaries.asserted kind sense 1) = if sense = .Positive then 1 else ⊥ := by
  refine Span.ext fun p q ↦ ?_
  cases kind <;> cases sense <;> simp [zeroWidth, Boundaries.asserted]

theorem makeAssertion_right {kind : Kind} {sense : Sense} (hl : lh.Valid)
    (h : makeAssertion lh kind sense = .ok d) :
    d.Valid ∧ ∀ {Λ : Type} (M : Reading Λ) (modes : Λ),
      read M modes d = zeroWidth (Boundaries.asserted kind sense (read M modes lh)) := by
  rw [makeAssertion] at h
  split_ifs at h with hset hsense hseq hsense
  · obtain rfl : seq [] = d := Except.ok.inj h
    refine ⟨valid_emptySeq, fun M modes ↦ ?_⟩
    rw [read_emptySet hl hset, asserted_bot, if_pos hsense, read, readSeq]
  · obtain rfl : alt [] = d := Except.ok.inj h
    refine ⟨valid_emptySet, fun M modes ↦ ?_⟩
    rw [read_emptySet hl hset, asserted_bot, if_neg hsense, read, readAlt]
  · obtain rfl : seq [] = d := Except.ok.inj h
    refine ⟨valid_emptySeq, fun M modes ↦ ?_⟩
    rw [read_emptySeq hseq, asserted_one, if_pos hsense, read, readSeq]
  · obtain rfl : alt [] = d := Except.ok.inj h
    refine ⟨valid_emptySet, fun M modes ↦ ?_⟩
    rw [read_emptySeq hseq, asserted_one, if_neg hsense, read, readAlt]
  · obtain rfl := Except.ok.inj h
    exact ⟨.assertion kind sense hl, fun M modes ↦ by rw [read]⟩

end Constructors

section ReadsAs

/-- The new expression has the matches of the old one in every plain reading. -/
def ReadsAs (r e : Expression) : Prop :=
  r.Valid ∧ ∀ {Λ : Type} (M : Reading Λ), M.Plain → ∀ modes, read M modes r = read M modes e

variable {r e x0 y0 x y : Expression} {elems1 elems : List Expression}

theorem readsAs_self (hv : e.Valid) : ReadsAs e e := ⟨hv, fun _ _ _ ↦ rfl⟩

theorem ReadsAs.valid_of_forall₂ (h : List.Forall₂ ReadsAs elems1 elems) :
    ∀ r ∈ elems1, r.Valid := by
  induction h with
  | nil => exact List.forall_mem_nil _
  | cons hr _ ih => exact List.forall_mem_cons.2 ⟨hr.1, ih⟩

theorem ReadsAs.readAlt (h : List.Forall₂ ReadsAs elems1 elems) {Λ : Type} (M : Reading Λ)
    (hM : M.Plain) (modes : Λ) : readAlt M modes elems1 = readAlt M modes elems := by
  induction h with
  | nil => rfl
  | cons hr _ ih => rw [Expression.readAlt, Expression.readAlt, hr.2 M hM, ih]

theorem ReadsAs.readSeq (h : List.Forall₂ ReadsAs elems1 elems) {Λ : Type} (M : Reading Λ)
    (hM : M.Plain) (modes : Λ) : readSeq M modes elems1 = readSeq M modes elems := by
  induction h with
  | nil => rfl
  | cons hr _ ih => rw [Expression.readSeq, Expression.readSeq, hr.2 M hM, ih]

theorem ReadsAs.alt (h : List.Forall₂ ReadsAs elems1 elems) (hr : makeAlt elems1 = .ok r) :
    ReadsAs r (alt elems) := by
  obtain ⟨hv, hread⟩ := makeAlt_right (ReadsAs.valid_of_forall₂ h) hr
  exact ⟨hv, fun M hM modes ↦ by rw [hread, ReadsAs.readAlt h M hM, read]⟩

theorem ReadsAs.seq (h : List.Forall₂ ReadsAs elems1 elems) :
    ReadsAs (makeSeq elems1) (seq elems) := by
  have hv := ReadsAs.valid_of_forall₂ h
  exact ⟨valid_makeSeq hv, fun M hM modes ↦ by rw [read_makeSeq hv, ReadsAs.readSeq h M hM, read]⟩

theorem ReadsAs.capture {n : String} (h : ReadsAs x x0) : ReadsAs (capture n x) (capture n x0) :=
  ⟨.capture n h.1, fun M hM modes ↦ by rw [read, read, h.2 M hM]⟩

theorem ReadsAs.group {mode : Mode} {sense : GroupSense} (h : ReadsAs x x0) :
    ReadsAs (group mode x sense) (group mode x0 sense) :=
  ⟨.group mode sense h.1, fun M hM modes ↦ by rw [read, read, h.2 M hM]⟩

theorem ReadsAs.rep {lb ub : ℤ} (h : ReadsAs x x0) (hb : Bounds lb ub) (hskips : ¬ Skips x lb ub)
    (hr : makeRep x lb ub = .ok r) : ReadsAs r (rep x0 lb ub) := by
  obtain ⟨hv, hread⟩ := makeRep_right x lb ub r h.1 hb hr
  exact ⟨hv, fun M hM modes ↦ by rw [hread hskips, h.2 M hM, read]⟩

theorem ReadsAs.diff {same : Expression → Expression → Bool}
    (hsame : ∀ a b, same a b = true → a = b) (hx : ReadsAs x x0) (hy : ReadsAs y y0)
    (hright : LookAheadNamer.DiffRight same x y) (hr : makeDiff same x y = .ok r) :
    ReadsAs r (diff x0 y0) := by
  obtain ⟨hv, hread⟩ := makeDiff_right hsame hx.1 hy.1 hright hr
  exact ⟨hv, fun M hM modes ↦ by rw [hread M hM, hx.2 M hM, hy.2 M hM, read]⟩

theorem ReadsAs.intersect {same : Expression → Expression → Bool}
    (hsame : ∀ a b, same a b = true → a = b) (hx : ReadsAs x x0) (hy : ReadsAs y y0)
    (hright : LookAheadNamer.IntersectRight same x y) (hr : makeIntersect same x y = .ok r) :
    ReadsAs r (intersect x0 y0) := by
  obtain ⟨hv, hread⟩ := makeIntersect_right hsame hx.1 hy.1 hright hr
  exact ⟨hv, fun M hM modes ↦ by rw [hread M hM, hx.2 M hM, hy.2 M hM, read]⟩

theorem ReadsAs.assertion {kind : Kind} {sense : Sense} (h : ReadsAs x x0)
    (hr : makeAssertion x kind sense = .ok r) : ReadsAs r (assertion x0 kind sense) := by
  obtain ⟨hv, hread⟩ := makeAssertion_right h.1 hr
  exact ⟨hv, fun M hM modes ↦ by rw [hread, h.2 M hM, read]⟩

/-- A name is read as its definition. -/
theorem ReadsAs.name {n : String} (h : ReadsAs r e) : ReadsAs (name n (some r)) e :=
  ⟨.name n fun d hd ↦ Option.some.inj hd ▸ h.1, fun M hM modes ↦ by rw [read, h.2 M hM]⟩

end ReadsAs

namespace LookAheadNamer

variable {N : LookAheadNamer}

section Own

variable {e x0 : Expression} {o x : Option Expression} {kind : Kind} {sense : Sense} {s s' : Unit}

theorem own_eq (h : N.transform (ownName N.getStringHash) e s = .ok (o, s')) :
    N.own e = .ok o := by
  rw [own, show () = s from rfl, h]
  rfl

theorem newAssertion_reads (hv : (assertion x0 kind sense).Valid) (h : ReadsAs (x.getD x0) x0)
    (ho : newAssertion x kind sense = .ok o) :
    ReadsAs (o.getD (assertion x0 kind sense)) (assertion x0 kind sense) := by
  cases x with
  | none =>
    obtain rfl := Except.ok.inj ho
    exact readsAs_self hv
  | some x =>
    obtain ⟨r, hr, ho⟩ := bind_eq_ok.1 ho
    obtain rfl := Except.ok.inj ho
    exact h.assertion hr

/-- Where the loop of the unique prefix is not turned to. -/
def Fixed (N : LookAheadNamer) (kind : Kind) (x0 : Expression) (x : Option Expression) : Prop :=
  kind = .LookAhead → (x.getD x0).isName = false →
    ∀ rg, getLengthRange N.alphabets N.mAlphabet x0 = .ok rg → rg.1 = rg.2

end Own

section Kept

variable {P : Expression → Prop} {e x0 y0 d : Expression} {o x y : Option Expression}
  {elems elems1 : List Expression} {any_changed : Bool} {m m' : NameMap}

/-- The definitions are lookaheads to be named, under their names. -/
def Known (N : LookAheadNamer) (P : Expression → Prop) (m : NameMap) : Prop :=
  ∀ k d, (k, d) ∈ m → P d ∧ nameKey N.getStringHash (N.PrintRE d) = k

theorem known_nil : N.Known P [] := fun _ _ h ↦ absurd h List.not_mem_nil

theorem Known.cons (hm : N.Known P m) (hd : P d) :
    N.Known P ((nameKey N.getStringHash (N.PrintRE d), d) :: m) := by
  intro k d' h
  obtain h | h := List.mem_cons.1 h
  · obtain ⟨rfl, rfl⟩ := Prod.mk.inj h
    exact ⟨hd, rfl⟩
  · exact hm k d' h

/-- Names of different lookaheads differ. -/
def Distinct (N : LookAheadNamer) (P : Expression → Prop) : Prop :=
  ∀ d d', P d → P d' → nameKey N.getStringHash (N.PrintRE d) = N.PrintRE d' → d = d'

/-- A name that is found has the definition that it would be introduced for. -/
theorem createName_own (hP : N.Distinct P) (hm : N.Known P m) (hd : P d) :
    (createName N.getStringHash (N.PrintRE d) d m).1 =
        (ownName N.getStringHash (N.PrintRE d) d ()).1 ∧
      N.Known P (createName N.getStringHash (N.PrintRE d) d m).2 := by
  rw [createName]
  cases hfound : m.lookup (N.PrintRE d) with
  | none =>
    refine ⟨rfl, ?_⟩
    dsimp only
    split_ifs
    · exact hm
    · exact hm.cons hd
  | some found =>
    obtain ⟨before, after, rfl, -⟩ := List.lookup_eq_some_iff.1 hfound
    obtain ⟨hfound, hkey⟩ := hm _ found (List.mem_append_right before List.mem_cons_self)
    obtain rfl := hP found d hfound hd hkey
    exact ⟨by rw [ownName, hkey], hm⟩

/-- The map adds nothing to the new node, and it has the matches of the old one. -/
structure Kept (N : LookAheadNamer) (P : Expression → Prop) (e : Expression)
    (o : Option Expression) (m' : NameMap) : Prop where
  own : N.transform (ownName N.getStringHash) e () = .ok (o, ())
  reads : ReadsAs (o.getD e) e
  known : N.Known P m'

structure KeptElems (N : LookAheadNamer) (P : Expression → Prop) (elems elems1 : List Expression)
    (any_changed : Bool) (m' : NameMap) : Prop where
  own : N.transformElems (ownName N.getStringHash) elems () = .ok (elems1, any_changed, ())
  reads : List.Forall₂ ReadsAs elems1 elems
  known : N.Known P m'

/-- A node is built again if one of its operands is changed. -/
theorem remake {σ τ : Type} {changed : Bool} {node : Except Fault Expression} {s s' : σ} (t : τ)
    (h : (if changed then do return (some (← node), s) else return (none, s) :
      Except Fault (Option Expression × σ)) = .ok (o, s')) :
    (if changed then do return (some (← node), t) else return (none, t) :
      Except Fault (Option Expression × τ)) = .ok (o, t) ∧ s' = s ∧
      (o = none ∨ changed = true ∧ ∃ r, node = .ok r ∧ o = some r) := by
  split_ifs at h ⊢ with hany
  · obtain ⟨r, hr, h⟩ := bind_eq_ok.1 h
    obtain ⟨rfl, rfl⟩ := Prod.mk.inj (Except.ok.inj h)
    rw [hr]
    exact ⟨rfl, rfl, .inr ⟨hany, r, rfl, rfl⟩⟩
  · obtain ⟨rfl, rfl⟩ := Prod.mk.inj (Except.ok.inj h)
    exact ⟨rfl, rfl, .inl rfl⟩

/-- An assertion is built again, or the assertion that it would be is named. -/
theorem transformAssertion_kept {kind : Kind} {sense : Sense} (hP : N.Distinct P)
    (hv : (assertion x0 kind sense).Valid) (hfixed : N.Fixed kind x0 x) (hx : N.Kept P x0 x m)
    (hnamed : ∀ d, N.Named (assertion x0 kind sense) d → P d)
    (h : N.transformAssertion (createName N.getStringHash) x0 kind sense x m = .ok (o, m')) :
    N.transformAssertion (ownName N.getStringHash) x0 kind sense x () = .ok (o, ()) ∧
      ReadsAs (o.getD (assertion x0 kind sense)) (assertion x0 kind sense) ∧ N.Known P m' := by
  rw [transformAssertion] at h ⊢
  by_cases hahead : kind = .LookAhead ∧ (x.getD x0).isName = false
  · rw [if_pos hahead] at h ⊢
    obtain ⟨rg, hrg, h⟩ := bind_eq_ok.1 h
    have heq := not_not.2 (hfixed hahead.1 hahead.2 rg hrg)
    rw [if_neg heq] at h
    rw [hrg, ok_bind, if_neg heq]
    split_ifs at h with hlong
    · obtain ⟨a, ha, h⟩ := bind_eq_ok.1 h
      have hd : P (a.getD (assertion x0 kind sense)) := by
        obtain ⟨rfl, hname⟩ := hahead
        exact hnamed _ (.lookahead (own_eq hx.own) hname hrg hlong ha)
      obtain ⟨hown, hknown⟩ := createName_own hP hx.known hd
      obtain ⟨ho, hm'⟩ := Prod.mk.inj (Except.ok.inj h)
      have ho := (congrArg some hown).symm.trans ho
      refine ⟨?_, ?_, hm' ▸ hknown⟩
      · rw [if_pos hlong, ha, ok_bind, ← ho]
        rfl
      · rw [← ho]
        exact (newAssertion_reads hv hx.reads ha).name
    · obtain ⟨a, ha, h⟩ := bind_eq_ok.1 h
      obtain ⟨rfl, rfl⟩ := Prod.mk.inj (Except.ok.inj h)
      rw [if_neg hlong, ha]
      exact ⟨rfl, newAssertion_reads hv hx.reads ha, hx.known⟩
  · rw [if_neg hahead] at h ⊢
    obtain ⟨a, ha, h⟩ := bind_eq_ok.1 h
    obtain ⟨rfl, rfl⟩ := Prod.mk.inj (Except.ok.inj h)
    rw [ha]
    exact ⟨rfl, newAssertion_reads hv hx.reads ha, hx.known⟩

section Nodes

variable {kind : Kind} {sense : Sense} {m₁ m₂ : NameMap}

theorem KeptElems.alt (hv : (alt elems).Valid) (hkept : N.KeptElems P elems elems1 any_changed m₁)
    (h : (if any_changed then do return (some (← makeAlt elems1), m₁) else return (none, m₁) :
      Except Fault (Option Expression × NameMap)) = .ok (o, m')) : N.Kept P (alt elems) o m' := by
  obtain ⟨hown, rfl, ho⟩ := remake () h
  refine ⟨?_, ?_, hkept.known⟩
  · rw [transform, hkept.own]
    exact hown
  · obtain rfl | ⟨-, r, hr, rfl⟩ := ho
    · exact readsAs_self hv
    · exact .alt hkept.reads hr

theorem KeptElems.seq (hv : (seq elems).Valid)
    (hkept : N.KeptElems P elems elems1 any_changed m₁) :
    N.Kept P (seq elems) (if any_changed then some (makeSeq elems1) else none) m₁ := by
  refine ⟨?_, ?_, hkept.known⟩
  · rw [transform, hkept.own]
    rfl
  · split_ifs
    · exact .seq hkept.reads
    · exact readsAs_self hv

theorem Kept.assertion (hP : N.Distinct P) (hv : (assertion x0 kind sense).Valid)
    (hfixed : N.Fixed kind x0 x) (hkept : N.Kept P x0 x m₁)
    (hnamed : ∀ d, N.Named (assertion x0 kind sense) d → P d)
    (h : N.transformAssertion (createName N.getStringHash) x0 kind sense x m₁ = .ok (o, m')) :
    N.Kept P (assertion x0 kind sense) o m' := by
  obtain ⟨hown, hreads, hknown⟩ := transformAssertion_kept hP hv hfixed hkept hnamed h
  refine ⟨?_, hreads, hknown⟩
  rw [transform, hkept.own, ok_bind]
  exact hown

theorem Kept.capture {n : String} (hv : (capture n x0).Valid) (hkept : N.Kept P x0 x m₁) :
    N.Kept P (capture n x0) (x.map (capture n)) m₁ := by
  refine ⟨?_, ?_, hkept.known⟩
  · rw [transform, hkept.own]
    rfl
  · cases x with
    | none => exact readsAs_self hv
    | some x => exact hkept.reads.capture

theorem Kept.diff (hsame : ∀ a b, N.same a b = true → a = b) (hv : (diff x0 y0).Valid)
    (hx : N.Kept P x0 x m₁) (hy : N.Kept P y0 y m₂)
    (hnew : (x.isSome || y.isSome) = true → DiffRight N.same (x.getD x0) (y.getD y0))
    (h : (if x.isSome || y.isSome then do
        return (some (← makeDiff N.same (x.getD x0) (y.getD y0)), m₂)
      else return (none, m₂) : Except Fault (Option Expression × NameMap)) = .ok (o, m')) :
    N.Kept P (diff x0 y0) o m' := by
  obtain ⟨hown, rfl, ho⟩ := remake () h
  refine ⟨?_, ?_, hy.known⟩
  · rw [transform, hx.own, ok_bind]
    dsimp only
    rw [hy.own]
    exact hown
  · obtain rfl | ⟨hany, r, hr, rfl⟩ := ho
    · exact readsAs_self hv
    · exact .diff hsame hx.reads hy.reads (hnew hany) hr

theorem Kept.group {mode : Mode} {sense : GroupSense} (hv : (group mode x0 sense).Valid)
    (hkept : N.Kept P x0 x m₁) :
    N.Kept P (group mode x0 sense) (x.map fun x ↦ group mode x sense) m₁ := by
  refine ⟨?_, ?_, hkept.known⟩
  · rw [transform, hkept.own]
    rfl
  · cases x with
    | none => exact readsAs_self hv
    | some x => exact hkept.reads.group

theorem Kept.intersect (hsame : ∀ a b, N.same a b = true → a = b) (hv : (intersect x0 y0).Valid)
    (hx : N.Kept P x0 x m₁) (hy : N.Kept P y0 y m₂)
    (hnew : (x.isSome || y.isSome) = true → IntersectRight N.same (x.getD x0) (y.getD y0))
    (h : (if x.isSome || y.isSome then do
        return (some (← makeIntersect N.same (x.getD x0) (y.getD y0)), m₂)
      else return (none, m₂) : Except Fault (Option Expression × NameMap)) = .ok (o, m')) :
    N.Kept P (intersect x0 y0) o m' := by
  obtain ⟨hown, rfl, ho⟩ := remake () h
  refine ⟨?_, ?_, hy.known⟩
  · rw [transform, hx.own, ok_bind]
    dsimp only
    rw [hy.own]
    exact hown
  · obtain rfl | ⟨hany, r, hr, rfl⟩ := ho
    · exact readsAs_self hv
    · exact .intersect hsame hx.reads hy.reads (hnew hany) hr

theorem Kept.range (hv : (range x0 y0).Valid) (hx : N.Kept P x0 none m₁)
    (hy : N.Kept P y0 none m₂) : N.Kept P (range x0 y0) none m₂ := by
  refine ⟨?_, readsAs_self hv, hy.known⟩
  rw [transform, hx.own, ok_bind]
  dsimp only
  rw [hy.own]
  rfl

theorem Kept.rep_none {lb ub : ℤ} (hv : (rep x0 lb ub).Valid) (hkept : N.Kept P x0 none m₁) :
    N.Kept P (rep x0 lb ub) none m₁ := by
  refine ⟨?_, readsAs_self hv, hkept.known⟩
  rw [transform, hkept.own]
  rfl

theorem Kept.rep {lb ub : ℤ} {x r : Expression} (hb : Bounds lb ub)
    (hkept : N.Kept P x0 (some x) m₁) (hskips : ¬ Skips x lb ub) (hr : makeRep x lb ub = .ok r) :
    N.Kept P (rep x0 lb ub) (some r) m₁ := by
  refine ⟨?_, .rep hkept.reads hb hskips hr, hkept.known⟩
  rw [transform, hkept.own, ok_bind]
  dsimp only
  rw [hr]
  rfl

end Nodes

mutual

theorem transform_kept (hP : N.Distinct P) (hsame : ∀ a b, N.same a b = true → a = b)
    (e : Expression) (hv : e.Valid) (hready : N.Ready e)
    (hnamed : ∀ d, N.Named e d → P d) {o : Option Expression} {m m' : NameMap}
    (hm : N.Known P m) (h : N.transform (createName N.getStringHash) e m = .ok (o, m')) :
    N.Kept P e o m' := by
  cases hready with
  | @alt elems hready =>
    rw [transform] at h
    obtain ⟨⟨elems1, any_changed, m₁⟩, helems, h⟩ := bind_eq_ok.1 h
    cases hv with
    | alt hv =>
      exact (transformElems_kept hP hsame elems hv hready
        (fun e he d hd ↦ hnamed d (.alt he hd)) hm helems).alt (.alt hv) h
  | @assertion x0 kind sense hready hfixed =>
    rw [transform] at h
    obtain ⟨⟨x, m₁⟩, hx, h⟩ := bind_eq_ok.1 h
    have hfixed' : N.Fixed kind x0 x := by
      intro hkind hname
      obtain hname0 | hrg := hfixed hkind
      · cases x0 with
        | name n definition =>
          rw [transform_name] at hx
          obtain ⟨rfl, -⟩ := Prod.mk.inj (Except.ok.inj hx)
          cases hname
        | _ => cases hname0
      · exact hrg
    cases hv with
    | assertion _ _ hv =>
      have hkept := transform_kept hP hsame x0 hv hready
        (fun d hd ↦ hnamed d (.asserted hd)) hm hx
      exact hkept.assertion hP (.assertion kind sense hv) hfixed' hnamed h
  | @capture captured n hready =>
    rw [transform] at h
    obtain ⟨⟨t, m₁⟩, ht, h⟩ := bind_eq_ok.1 h
    obtain ⟨rfl, rfl⟩ := Prod.mk.inj (Except.ok.inj h)
    cases hv with
    | capture _ hv =>
      exact (transform_kept hP hsame captured hv hready
        (fun d hd ↦ hnamed d (.capture hd)) hm ht).capture (.capture n hv)
  | @diff x0 y0 hx0 hy0 hnew =>
    rw [transform] at h
    obtain ⟨⟨x, m₁⟩, hx, h⟩ := bind_eq_ok.1 h
    obtain ⟨⟨y, m₂⟩, hy, h⟩ := bind_eq_ok.1 h
    cases hv with
    | diff hxv hyv =>
      have hkx := transform_kept hP hsame x0 hxv hx0
        (fun d hd ↦ hnamed d (.diffLeft hd)) hm hx
      have hky := transform_kept hP hsame y0 hyv hy0
        (fun d hd ↦ hnamed d (.diffRight hd)) hkx.known hy
      exact .diff hsame (.diff hxv hyv) hkx hky (hnew x y (own_eq hkx.own) (own_eq hky.own)) h
  | @group x0 mode sense hready =>
    rw [transform] at h
    obtain ⟨⟨x, m₁⟩, hx, h⟩ := bind_eq_ok.1 h
    obtain ⟨rfl, rfl⟩ := Prod.mk.inj (Except.ok.inj h)
    cases hv with
    | group _ _ hv =>
      exact (transform_kept hP hsame x0 hv hready
        (fun d hd ↦ hnamed d (.group hd)) hm hx).group (.group mode sense hv)
  | @intersect x0 y0 hx0 hy0 hnew =>
    rw [transform] at h
    obtain ⟨⟨x, m₁⟩, hx, h⟩ := bind_eq_ok.1 h
    obtain ⟨⟨y, m₂⟩, hy, h⟩ := bind_eq_ok.1 h
    cases hv with
    | intersect hxv hyv =>
      have hkx := transform_kept hP hsame x0 hxv hx0
        (fun d hd ↦ hnamed d (.intersectLeft hd)) hm hx
      have hky := transform_kept hP hsame y0 hyv hy0
        (fun d hd ↦ hnamed d (.intersectRight hd)) hkx.known hy
      exact .intersect hsame (.intersect hxv hyv) hkx hky
        (hnew x y (own_eq hkx.own) (own_eq hky.own)) h
  | @range x0 y0 hx0 hy0 hx0' hy0' =>
    rw [transform] at h
    obtain ⟨⟨x, m₁⟩, hx, h⟩ := bind_eq_ok.1 h
    obtain ⟨⟨y, m₂⟩, hy, h⟩ := bind_eq_ok.1 h
    cases hv with
    | range hxv hyv =>
      have hkx := transform_kept hP hsame x0 hxv hx0
        (fun d hd ↦ hnamed d (.rangeLeft hd)) hm hx
      have hky := transform_kept hP hsame y0 hyv hy0
        (fun d hd ↦ hnamed d (.rangeRight hd)) hkx.known hy
      obtain rfl : x = none := Except.ok.inj ((own_eq hkx.own).symm.trans hx0')
      obtain rfl : y = none := Except.ok.inj ((own_eq hky.own).symm.trans hy0')
      obtain ⟨rfl, rfl⟩ := Prod.mk.inj (Except.ok.inj h)
      exact hkx.range (.range hxv hyv) hky
  | @rep x0 lb ub hready hnew =>
    rw [transform] at h
    obtain ⟨⟨x, m₁⟩, hx, h⟩ := bind_eq_ok.1 h
    cases hv with
    | rep hv hb =>
      have hkept := transform_kept hP hsame x0 hv hready (fun d hd ↦ hnamed d (.rep hd)) hm hx
      cases x with
      | none =>
        obtain ⟨rfl, rfl⟩ := Prod.mk.inj (Except.ok.inj h)
        exact hkept.rep_none (.rep hv hb)
      | some x =>
        obtain ⟨r, hr, h⟩ := bind_eq_ok.1 h
        obtain ⟨rfl, rfl⟩ := Prod.mk.inj (Except.ok.inj h)
        exact hkept.rep hb (hnew x (own_eq hkept.own)) hr
  | @seq elems hready =>
    rw [transform] at h
    obtain ⟨⟨elems1, any_changed, m₁⟩, helems, h⟩ := bind_eq_ok.1 h
    obtain ⟨rfl, rfl⟩ := Prod.mk.inj (Except.ok.inj h)
    cases hv with
    | seq hv =>
      exact (transformElems_kept hP hsame elems hv hready
        (fun e he d hd ↦ hnamed d (.seq he hd)) hm helems).seq (.seq hv)
  | _ =>
    -- No operand is left to be changed.
    obtain ⟨rfl, rfl⟩ := Prod.mk.inj (Except.ok.inj h)
    exact ⟨rfl, readsAs_self hv, hm⟩

theorem transformElems_kept (hP : N.Distinct P) (hsame : ∀ a b, N.same a b = true → a = b)
    (elems : List Expression) (hv : ∀ e ∈ elems, e.Valid) (hready : ∀ e ∈ elems, N.Ready e)
    (hnamed : ∀ e ∈ elems, ∀ d, N.Named e d → P d) {elems1 : List Expression}
    {any_changed : Bool} {m m' : NameMap} (hm : N.Known P m)
    (h : N.transformElems (createName N.getStringHash) elems m = .ok (elems1, any_changed, m')) :
    N.KeptElems P elems elems1 any_changed m' := by
  cases elems with
  | nil =>
    rw [transformElems] at h
    cases h
    exact ⟨rfl, .nil, hm⟩
  | cons e elems =>
    obtain ⟨hve, hv⟩ := List.forall_mem_cons.1 hv
    obtain ⟨hre, hready⟩ := List.forall_mem_cons.1 hready
    obtain ⟨hne, hnamed⟩ := List.forall_mem_cons.1 hnamed
    rw [transformElems] at h
    obtain ⟨⟨e1, m₁⟩, he, h⟩ := bind_eq_ok.1 h
    obtain ⟨⟨rest, any_rest, m₂⟩, hrest, h⟩ := bind_eq_ok.1 h
    have hkept := transform_kept hP hsame e hve hre hne hm he
    have hkepts := transformElems_kept hP hsame elems hv hready hnamed hkept.known hrest
    cases h
    refine ⟨?_, .cons hkept.reads hkepts.reads, hkepts.known⟩
    rw [transformElems, hkept.own, ok_bind]
    dsimp only
    rw [hkepts.own]
    rfl

end

end Kept

section Example

theorem textReading_plain (text : List ℕ) : (textReading text).Plain where
  not_empty _ _ _ p h := absurd h.1 p.succ_ne_self.symm
  inter _ _ s t := by
    refine Span.ext fun p q ↦ ⟨?_, ?_⟩
    · rintro ⟨hq, c, hc, hs, ht⟩
      exact ⟨⟨hq, c, hc, hs⟩, ⟨hq, c, hc, ht⟩⟩
    · rintro ⟨⟨hq, c, hc, hs⟩, -, c', hc', ht⟩
      obtain rfl := Option.some.inj (hc.symm.trans hc')
      exact ⟨hq, c, hc, hs, ht⟩

/-- What is printed for `a`, for `ab*` when `a` has a name, and for `(?!.)`. -/
def printed : Expression → String
  | cc _ => "CC \"Unicode_61\" "
  | seq _ => "(Seq[Internal[CC \"Unicode_61\" ],Rep(CC \"Unicode_62\" ,0,Unbounded)])"
  | _ => "NegativeLookAheadAssertion(Any(Unicode))"

def printedNamer : LookAheadNamer :=
  ⟨Unicode, 0, ⟨fun _ ↦ false, id⟩, printed, fun _ ↦ "hash", fun _ ↦ "", zeroed,
    fun _ _ ↦ false, 1⟩

/-- The letter `a` is not found in `b*`. -/
theorem ParseUniquePrefix_star :
    ParseUniquePrefix 1 (seq [cc (codepoint 97), rep (cc (codepoint 98)) 0 UNBOUNDED_REP]) =
      some (.ok (cc (codepoint 97), rep (cc (codepoint 98)) 0 UNBOUNDED_REP)) := by
  have hsearch : CC_Sequence_Search [codepoint 97]
      (makeSeq [rep (cc (codepoint 98)) 0 UNBOUNDED_REP]) = .ok false := by
    rw [show makeSeq [rep (cc (codepoint 98)) 0 UNBOUNDED_REP] =
      rep (cc (codepoint 98)) 0 UNBOUNDED_REP from rfl]
    simp only [CC_Sequence_Search, search, search_from_state, ccSequenceSearchObject.CC_matches,
      List.zipIdx_cons, List.zipIdx_nil, List.foldl_cons, List.foldl_nil,
      intersects_codepoint (by decide : 98 ≤ unicodeMax) (by decide : 97 ≤ unicodeMax)]
    rfl
  have hresolved : resolveToCC (cc (codepoint 97)) ≠ none := Option.some_ne_none _
  have hloop := @prefixLoop_unique (cc (codepoint 97)) (rep (cc (codepoint 98)) 0 UNBOUNDED_REP)
    [] (makeSeq [rep (cc (codepoint 98)) 0 UNBOUNDED_REP]) [] 0 (codepoint 97) rfl hsearch
  rw [makeSeq_resolved hresolved] at hloop
  exact hloop

end Example

end LookAheadNamer

end Parabix.RE.Expression
