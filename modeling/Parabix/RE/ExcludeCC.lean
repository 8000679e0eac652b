import Parabix.Library.Avoiding
import Parabix.RE.ClassOverlap
import Parabix.RE.RemoveEmptyExact
import Parabix.RE.Transformer

namespace Parabix.RE

open Library Library.Powers Library.Encoding Library.Avoiding UCD RE_Transformer

/-- The members of a class that are not in another one. -/
def subtractCC (a b : CC) : Except Fault CC := do
  return ⟨← a.set.difference b.set, a.alphabet⟩

namespace CC_Remover

section Transform

variable (same : RE → RE → Bool) (mExcludedCC : CC)

def transformCC (c : CC) : Transformed :=
  if c.alphabet ≠ mExcludedCC.alphabet then .ok none
  else if c.set.subset mExcludedCC.set then do
    return some (← makeAlt [])
  else if mExcludedCC.set.intersects c.set then do
    return some (cc (← subtractCC c mExcludedCC))
  else .ok none

def transformAny : Transformed := do
  return some (← makeDiff same any (cc mExcludedCC))

/-- A Name for anything stays one. -/
def transformName (n : String) (definition : RE) (t : Transformed) : Transformed :=
  match definition with
  | any => do
    return some (← makeDiff same (name n any) (cc mExcludedCC))
  | _ => t

def transformAssertion (mProcessAsserted : Bool) (asserted : RE) (t : Transformed) (k : Kind)
    (s : Sense) : Transformed :=
  if mProcessAsserted then defaultAssertion asserted t k s else .ok none

def remover (mProcessAsserted : Bool) : RE_Transformer :=
  { base with
    transformAny := transformAny same mExcludedCC
    transformCC := transformCC mExcludedCC
    transformName := transformName same mExcludedCC
    transformAssertion := transformAssertion mProcessAsserted }

end Transform

end CC_Remover

open CC_Remover

def exclude_CC (same : RE → RE → Bool) (re : RE) (toExclude : CC) (processAsserted : Bool) :
    Except Fault RE :=
  (remover same toExclude processAsserted).transformRE same re

namespace CC_Remover

section Condition

variable (same : RE → RE → Bool) (M : Meaning (Language ℕ)) (mExcludedCC : CC)
variable (mProcessAsserted : Bool)

/-- The meaning of an expression without the words that have an excluded character. -/
def excluding (l : Language ℕ) : Language ℕ := avoiding mExcludedCC.set.members l

/-- The nodes that are left as they are match nothing that is excluded, and the constructors that
build the other ones again do it right. -/
inductive Ready : RE → Prop
  | alt {elems : List RE} (h : ∀ e ∈ elems, Ready e)
    (hnew : ∀ elems1,
      changed ((remover same mExcludedCC mProcessAsserted).transformItems same elems) =
        .ok (elems1, true) → ∀ e ∈ elems1, Optional e) : Ready (alt elems)
  | any : Ready any
  | assertion {asserted : RE} {k : Kind} {s : Sense}
    (h : mProcessAsserted = true → Ready asserted)
    (hkeep : mProcessAsserted = true →
      M.assertion k s (excluding mExcludedCC (denote M asserted)) =
        M.assertion k s (denote M asserted)) : Ready (assertion asserted k s)
  | cc {c : CC} (h : c.alphabet ≠ mExcludedCC.alphabet →
      Disjoint c.set.members mExcludedCC.set.members) : Ready (cc c)
  | diff {x0 y0 : RE} (hx : Ready x0) (hy : Ready y0)
    (hnew : ∀ x y, (remover same mExcludedCC mProcessAsserted).transform same x0 = .ok x →
      (remover same mExcludedCC mProcessAsserted).transform same y0 = .ok y →
        (x.isSome || y.isSome) = true → DiffReady same M (x.getD x0) (y.getD y0)) :
    Ready (diff x0 y0)
  | intersect {x0 y0 : RE} (hx : Ready x0) (hy : Ready y0)
    (hnew : ∀ x y, (remover same mExcludedCC mProcessAsserted).transform same x0 = .ok x →
      (remover same mExcludedCC mProcessAsserted).transform same y0 = .ok y →
        (x.isSome || y.isSome) = true → IntersectReady same M (x.getD x0) (y.getD y0)) :
    Ready (intersect x0 y0)
  | name (n : String) {definition : RE} (h : Ready definition) : Ready (name n definition)
  | rep {re : RE} {lb ub : ℤ} (h : Ready re)
    (hnew : ∀ x, (remover same mExcludedCC mProcessAsserted).transform same re = .ok (some x) →
      RepSafe x.outline lb ub) : Ready (rep re lb ub)
  | seq {elems : List RE} (h : ∀ e ∈ elems, Ready e) : Ready (seq elems)
  | start : Ready start
  | stop : Ready stop
  | other {node : ℕ} (h : excluding mExcludedCC (M.other node) = M.other node) :
    Ready (other node)

end Condition

section Exact

variable {same : RE → RE → Bool} {M : Meaning (Language ℕ)} {mExcludedCC c : CC}
variable {mProcessAsserted : Bool} {re e : RE}

theorem commutes_excluding : Commutes (excluding mExcludedCC) :=
  ⟨avoiding_bot, avoiding_of_le_one le_rfl, fun _ _ ↦ avoiding_sup, fun _ _ ↦ avoiding_sdiff,
    fun _ _ ↦ avoiding_inf, fun _ _ ↦ avoiding_mul, fun _ ↦ avoiding_powers⟩

theorem subtractCC_spec {a b : CC} (ha : a.set.WellFormed) (hb : b.set.WellFormed) :
    ∃ d, subtractCC a b = .ok d ∧ d.set.WellFormed ∧ d.alphabet = a.alphabet ∧
      d.set.members = a.set.members \ b.set.members := by
  obtain ⟨s, hs, hwf, -, hmembers⟩ := difference_produces ha.verified hb.verified
  refine ⟨⟨s, a.alphabet⟩, ?_, hwf, rfl, hmembers⟩
  rw [subtractCC, hs, ok_bind, pure_eq_ok]

theorem makes_transformCC (hM : Plain M) (hset : mExcludedCC.set.WellFormed)
    (hc : c.set.WellFormed) (h : c.alphabet ≠ mExcludedCC.alphabet →
      Disjoint c.set.members mExcludedCC.set.members) :
    Makes M (excluding mExcludedCC) (cc c) (transformCC mExcludedCC c) := by
  have hdenote : excluding mExcludedCC (denote M (cc c)) =
      letters (c.set.members \ mExcludedCC.set.members) := by
    rw [denote, hM.cc, excluding, avoiding_letters]
  have hkeep (hdisjoint : Disjoint c.set.members mExcludedCC.set.members) :
      denote M (cc c) = excluding mExcludedCC (denote M (cc c)) := by
    rw [hdenote, hdisjoint.sdiff_eq_left, denote, hM.cc]
  unfold transformCC
  split_ifs with halphabet hsubset hintersects
  · exact makes_none (.cc hc) (hkeep (h halphabet))
  · have hnothing : c.set.members \ mExcludedCC.set.members = ∅ :=
      Set.sdiff_eq_empty.2 ((subset_iff hc hset).1 hsubset)
    refine makes_some (r := alt []) (.alt (List.forall_mem_nil _)) ?_
    rw [hdenote, hnothing, letters_empty]
    rfl
  · obtain ⟨d, hd, hwf, hadd, hmembers⟩ := subtractCC_spec hc hset
    rw [hd]
    refine makes_some (r := cc d) (.cc hwf) ?_
    rw [hdenote, denote, hM.cc, hmembers]
  · refine makes_none (.cc hc) (hkeep ?_)
    rw [intersects_iff hset hc, Set.not_nonempty_iff_eq_empty, Set.inter_comm] at hintersects
    exact Set.disjoint_iff_inter_eq_empty.2 hintersects

theorem makes_without (hM : Plain M) (hsame : ∀ a b, same a b = true → a = b)
    (hset : mExcludedCC.set.WellFormed) (he : e.Valid) (hany : denote M e = M.any)
    (h : DiffReady same M e (cc mExcludedCC)) :
    Makes M (excluding mExcludedCC) e
      (makeDiff same e (cc mExcludedCC) >>= fun r ↦ pure (some r)) := by
  obtain ⟨r, hr, hdenote⟩ := (makeDiff_iff hsame hM.cc he (.cc hset)).2 h
  rw [hr]
  refine makes_some (RE_Star_Normal.makeDiff_valid he (.cc hset) hr) ?_
  rw [hdenote, hany, denote, hM.cc, hM.any, letters_sdiff]
  rfl

theorem makes_transformName (hM : Plain M) (hsame : ∀ a b, same a b = true → a = b)
    (hset : mExcludedCC.set.WellFormed) {n : String} {definition : RE} (hv : definition.Valid)
    {t : Transformed} (h : Makes M (excluding mExcludedCC) definition t) :
    Makes M (excluding mExcludedCC) (name n definition)
      (transformName same mExcludedCC n definition t) := by
  unfold transformName
  split
  · exact makes_without hM hsame hset (.name n .any) rfl (.inr (.inr trivial))
  · obtain ⟨o, rfl, hvo, hdenote⟩ := h
    cases o with
    | none => exact makes_none (.name n hv) hdenote
    | some r => exact makes_some hvo hdenote

theorem makes_excluded (hM : Plain M) (hstrings : Strings M)
    (hsame : ∀ a b, same a b = true → a = b) (hset : mExcludedCC.set.WellFormed) (hv : re.Valid)
    (h : Ready same M mExcludedCC mProcessAsserted re) :
    Makes M (excluding mExcludedCC) re
      ((remover same mExcludedCC mProcessAsserted).transform same re) := by
  induction hv with
  | @alt elems hvalid ih =>
    cases h with
    | alt h hnew =>
      exact makes_alt commutes_excluding (.alt hvalid) (fun e he ↦ ih e he (h e he)) hnew
  | @seq elems hvalid ih =>
    cases h with
    | seq h => exact makes_defaultSeq commutes_excluding (.seq hvalid) fun e he ↦ ih e he (h e he)
  | @assertion asserted k s hvalid ih =>
    have hzero : excluding mExcludedCC (M.assertion k s (denote M asserted)) =
        M.assertion k s (denote M asserted) := avoiding_of_le_one (M.assertion_le _ _ _)
    cases h with
    | assertion h hkeep =>
      rw [transform]
      simp only [remover, transformAssertion]
      split_ifs with hprocess
      · apply makes_defaultAssertion hstrings (.assertion k s hvalid) (ih (h hprocess))
        rw [hkeep hprocess, hzero]
      · exact makes_none (.assertion k s hvalid) hzero.symm
  | @diff x0 y0 hvx hvy ihx ihy =>
    cases h with
    | diff hx hy hnew =>
      exact makes_diff commutes_excluding hsame hM.cc (.diff hvx hvy) (ihx hx) (ihy hy) hnew
  | @intersect x0 y0 hvx hvy ihx ihy =>
    cases h with
    | intersect hx hy hnew =>
      exact makes_intersect commutes_excluding hsame hM.cc (.intersect hvx hvy) (ihx hx) (ihy hy)
        hnew
  | @rep e0 lb ub hv0 hb ih =>
    cases h with
    | rep h hnew => exact makes_defaultRep commutes_excluding (.rep hv0 hb) (ih h) hnew
  | any => exact makes_without hM hsame hset .any rfl (.inr (.inr trivial))
  | cc hc =>
    cases h with
    | cc h => exact makes_transformCC hM hset hc h
  | name n hdef ih =>
    cases h with
    | name _ h => exact makes_transformName hM hsame hset hdef (ih h)
  | start => exact makes_none .start (avoiding_of_le_one hM.start).symm
  | stop => exact makes_none .stop (avoiding_of_le_one hM.stop).symm
  | other node =>
    cases h with
    | other h => exact makes_none (.other node) h.symm

end Exact

end CC_Remover

end Parabix.RE
