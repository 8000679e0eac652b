import Parabix.RE.FirstSymbol
import Parabix.UCD.Ranges

namespace Parabix.RE.Expression

open Library Library.Powers Library.Encoding UCD
open LineAnchors (Side)
open NullableRemover (followed mem_ordered)
open Memoization (PropertyKind Mode GroupSense)

section Condition

/-- The classes and `Any` are for single characters. -/
structure Characters (M : Interpretation (Language ℕ)) : Prop where
  any_le (a : ℕ) : M.any a ≤ letters {x | x ≤ unicodeMax}
  cc_le (a : ℕ) (s : Set ℕ) : M.cc a s ≤ letters s

/-- The characters at which the strings of a language begin, or end. -/
def edgeChars : Side → Language ℕ → Set ℕ
  | .front, l => {a | ∃ w, a :: w ∈ l}
  | .back, l => {a | ∃ w, w ++ [a] ∈ l}

variable (M : Interpretation (Language ℕ)) (side : Side)

/-- What has no class matches the empty string only, the loop over a sequence does not stop at an
item that may be empty, and a difference keeps no character of the class that is subtracted. -/
inductive EdgeReady : Expression → Prop
  | alt {elems : List Expression} (h : ∀ e ∈ elems, EdgeReady e) : EdgeReady (alt elems)
  | any (alphabet : ℕ) : EdgeReady (any alphabet)
  | cc (c : CC) : EdgeReady (cc c)
  | diff {lh rh : Expression} (hl : EdgeReady lh)
    (h : ∀ a ∈ edgeChars side (denote M (diff lh rh)),
      ∃ r, edge side rh = .ok (some r) ∧ a ∉ r.set.members) : EdgeReady (diff lh rh)
  | empty {e : Expression} (h : denote M e ≤ 1) : EdgeReady e
  | intersect {lh rh : Expression} (hl : EdgeReady lh) (hr : EdgeReady rh) :
    EdgeReady (intersect lh rh)
  | name {definition : Expression} (n : String) (h : EdgeReady definition) :
    EdgeReady (name n (some definition))
  | rep {re : Expression} (lb ub : ℤ) (h : EdgeReady re) : EdgeReady (rep re lb ub)
  | seq {elems : List Expression} (h : ∀ before e after, ordered side elems = before ++ e :: after →
      (∀ x ∈ before, isNullable x = true) → EdgeReady e)
    (hstop : ∀ before e after, ordered side elems = before ++ e :: after → isNullable e = false →
      [] ∈ denote M e → denoteSeq M (ordered side after) ≤ 1) : EdgeReady (seq elems)
  | undefined (n : String) : EdgeReady (name n none)

/-- What is not looked into is of one character at most, and where two characters meet, the classes
on both sides are found. -/
inductive FollowReady : Expression → Prop
  | alt {elems : List Expression} (h : ∀ e ∈ elems, FollowReady e) : FollowReady (alt elems)
  | name {definition : Expression} (n : String) (h : FollowReady definition) :
    FollowReady (name n (some definition))
  | rep {re : Expression} (lb ub : ℤ) (h : FollowReady re)
    (hseam : ¬ denote M re ≤ 1 → EdgeReady M .back re ∧ EdgeReady M .front re) :
    FollowReady (rep re lb ub)
  | seq {re_first : Expression} {rest : List Expression} (hfirst : FollowReady re_first)
    (hrest : FollowReady (makeSeq rest))
    (hseam : ¬ denote M re_first ≤ 1 → ¬ denoteSeq M rest ≤ 1 →
      EdgeReady M .back re_first ∧ EdgeReady M .front (makeSeq rest)) :
    FollowReady (seq (re_first :: rest))
  | short {e : Expression} (h : ∀ w ∈ denote M e, w.length ≤ 1) : FollowReady e
  | undefined (n : String) : FollowReady (name n none)

end Condition

section Chars

variable {side : Side} {l k : Language ℕ} {a : ℕ} {n : ℕ} {s : Set ℕ}

theorem edgeChars_mono (h : l ≤ k) : edgeChars side l ⊆ edgeChars side k := by
  cases side with
  | front => exact fun a ha ↦ ha.imp fun w hw ↦ h hw
  | back => exact fun a ha ↦ ha.imp fun w hw ↦ h hw

theorem edgeChars_le_one (h : l ≤ 1) : edgeChars side l = ∅ := by
  refine Set.eq_empty_of_forall_notMem fun a ha ↦ ?_
  cases side with
  | front =>
    obtain ⟨w, hw⟩ := ha
    cases h hw
  | back =>
    obtain ⟨w, hw⟩ := ha
    exact List.append_ne_nil_of_right_ne_nil w (List.cons_ne_nil a []) (h hw)

theorem le_one_of_edgeChars (h : edgeChars side l = ∅) : l ≤ 1 := by
  intro w hw
  cases side with
  | front =>
    cases w with
    | nil => rfl
    | cons a w => exact (Set.eq_empty_iff_forall_notMem.1 h a ⟨w, hw⟩).elim
  | back =>
    rcases List.eq_nil_or_concat w with rfl | ⟨w, a, rfl⟩
    · rfl
    · rw [List.concat_eq_append] at hw
      exact (Set.eq_empty_iff_forall_notMem.1 h a ⟨w, hw⟩).elim

theorem edgeChars_sup : edgeChars side (l ⊔ k) = edgeChars side l ∪ edgeChars side k := by
  cases side with
  | front => exact Set.ext fun a ↦ exists_or
  | back => exact Set.ext fun a ↦ exists_or

theorem edgeChars_letters : edgeChars side (letters s) ⊆ s := by
  cases side with
  | front =>
    rintro a ⟨w, b, hb, hw⟩
    exact (List.cons.inj hw).1 ▸ hb
  | back =>
    rintro a ⟨w, b, hb, hw⟩
    obtain ⟨-, heq⟩ := List.append_inj' (hw.trans (List.nil_append [b]).symm) rfl
    exact (List.singleton_inj.1 heq) ▸ hb

/-- A match of two parts begins in the first one, if that is not empty. -/
theorem mem_edgeChars_followed (h : a ∈ edgeChars side (followed side l k)) :
    a ∈ edgeChars side l ∨ [] ∈ l ∧ a ∈ edgeChars side k := by
  cases side with
  | front =>
    obtain ⟨w, hw⟩ := h
    obtain ⟨u, hu, v, hv, huv⟩ := Language.mem_mul.1 hw
    cases u with
    | nil => exact .inr ⟨hu, w, huv ▸ hv⟩
    | cons b u =>
      obtain ⟨rfl, -⟩ := List.cons.inj huv
      exact .inl ⟨u, hu⟩
  | back =>
    obtain ⟨w, hw⟩ := h
    obtain ⟨v, hv, u, hu, huv⟩ := Language.mem_mul.1 hw
    rcases List.eq_nil_or_concat u with rfl | ⟨u, b, rfl⟩
    · refine .inr ⟨hu, w, ?_⟩
      rwa [← huv, List.append_nil]
    · rw [List.concat_eq_append] at hu huv
      rw [← List.append_assoc] at huv
      obtain ⟨-, heq⟩ := List.append_inj' huv rfl
      exact .inl ⟨u, List.singleton_inj.1 heq ▸ hu⟩

theorem followed_le_one (hl : l ≤ 1) (hk : k ≤ 1) : followed side l k ≤ 1 := by
  cases side with
  | front => exact (mul_le_mul' hl hk).trans (mul_one 1).le
  | back => exact (mul_le_mul' hk hl).trans (mul_one 1).le

theorem edgeChars_pow : edgeChars side (l ^ n) ⊆ edgeChars side l := by
  induction n with
  | zero =>
    rw [pow_zero, edgeChars_le_one le_rfl]
    exact Set.empty_subset _
  | succ n ih =>
    have hpow : l ^ (n + 1) = followed side l (l ^ n) := by
      cases side with
      | front => exact pow_succ' l n
      | back => exact pow_succ l n
    rw [hpow]
    exact fun a ha ↦ (mem_edgeChars_followed ha).elim id fun h ↦ ih h.2

theorem edgeChars_powers : edgeChars side (powers l s) ⊆ edgeChars side l := by
  intro a ha
  cases side with
  | front =>
    obtain ⟨w, hw⟩ := ha
    obtain ⟨n, -, hw⟩ := WithoutEmpty.mem_powers.1 hw
    have hpow : a ∈ edgeChars .front (l ^ n) := ⟨w, hw⟩
    exact edgeChars_pow hpow
  | back =>
    obtain ⟨w, hw⟩ := ha
    obtain ⟨n, -, hw⟩ := WithoutEmpty.mem_powers.1 hw
    have hpow : a ∈ edgeChars .back (l ^ n) := ⟨w, hw⟩
    exact edgeChars_pow hpow

theorem powers_le_one (h : l ≤ 1) : powers l s ≤ 1 :=
  powers_le_iff.2 fun n _ ↦ Left.pow_le_one_of_le h n

end Chars

section Edges

variable {M : Interpretation (Language ℕ)} {side : Side} {e : Expression}
variable {elems items : List Expression} {a b found r o : Option CC} {c : CC} {l : Language ℕ}

def classMembers : Option CC → Set ℕ
  | none => ∅
  | some c => c.set.members

def WellFormed (o : Option CC) : Prop := ∀ c ∈ o, c.set.WellFormed

theorem union_eq_ok {c d u : CC} (hc : c.set.WellFormed) (hd : d.set.WellFormed)
    (h : c.union d = .ok u) :
    u.set.WellFormed ∧ u.set.members = c.set.members ∪ d.set.members := by
  unfold CC.union at h
  split_ifs at h with h1 h2
  · obtain rfl := Except.ok.inj h
    refine ⟨copy_wellFormed hd, ?_⟩
    rw [CC.copy, members_copy hd, members_of_empty hc h1, Set.empty_union]
  · obtain rfl := Except.ok.inj h
    refine ⟨copy_wellFormed hc, ?_⟩
    rw [CC.copy, members_copy hc, members_of_empty hd h2, Set.union_empty]
  · obtain ⟨s, hs, hwf, -, hmembers⟩ := union_produces hc.verified hd.verified
    rw [hs, ok_bind, pure_eq_ok] at h
    obtain rfl := Except.ok.inj h
    exact ⟨hwf, hmembers⟩

theorem combine_spec (ha : WellFormed a) (hb : WellFormed b) (h : combine a b = .ok r) :
    WellFormed r ∧ classMembers r = classMembers a ∪ classMembers b ∧
      (r = none → a = none ∧ b = none) := by
  cases a with
  | none =>
    obtain rfl := Except.ok.inj h
    exact ⟨hb, (Set.empty_union _).symm, fun hr ↦ ⟨rfl, hr⟩⟩
  | some c =>
    cases b with
    | none =>
      obtain rfl := Except.ok.inj h
      exact ⟨ha, (Set.union_empty _).symm, fun hr ↦ ⟨hr, rfl⟩⟩
    | some d =>
      obtain ⟨u, hu, h⟩ := bind_eq_ok.1 h
      obtain rfl := Except.ok.inj h
      obtain ⟨hwf, hmembers⟩ := union_eq_ok (ha c rfl) (hb d rfl) hu
      refine ⟨fun c' hc' ↦ ?_, hmembers, fun hr ↦ by cases hr⟩
      obtain rfl := Option.some.inj hc'
      exact hwf

theorem edges_eq : edges side elems = elems.map fun e ↦ (e, edge side e) := by
  induction elems with
  | nil => rfl
  | cons e elems ih => rw [edges, ih, List.map_cons]

theorem edgeItems_wellFormed (h : ∀ e ∈ items, ∀ o, edge side e = .ok o → WellFormed o)
    (hfound : WellFormed found)
    (hr : edgeItems (items.map fun e ↦ (e, edge side e)) found = .ok r) : WellFormed r := by
  induction items generalizing found with
  | nil =>
    obtain rfl := Except.ok.inj hr
    exact hfound
  | cons e items ih =>
    obtain ⟨he, hitems⟩ := List.forall_mem_cons.1 h
    rw [List.map_cons, edgeItems] at hr
    obtain ⟨c, hc, hr⟩ := bind_eq_ok.1 hr
    obtain ⟨found1, hcombine, hr⟩ := bind_eq_ok.1 hr
    have hwf := (combine_spec hfound (he c hc) hcombine).1
    split_ifs at hr
    · exact ih hitems hwf hr
    · obtain rfl := Except.ok.inj hr
      exact hwf

theorem altClasses_wellFormed (h : ∀ e ∈ items, ∀ o, edge side e = .ok o → WellFormed o)
    (hfound : WellFormed found)
    (hr : altClasses (items.map fun e ↦ (e, edge side e)) found = .ok r) : WellFormed r := by
  induction items generalizing found with
  | nil =>
    obtain rfl := Except.ok.inj hr
    exact hfound
  | cons e items ih =>
    obtain ⟨he, hitems⟩ := List.forall_mem_cons.1 h
    rw [List.map_cons, altClasses] at hr
    obtain ⟨c, hc, hr⟩ := bind_eq_ok.1 hr
    obtain ⟨found1, hcombine, hr⟩ := bind_eq_ok.1 hr
    exact ih hitems (combine_spec hfound (he c hc) hcombine).1 hr

theorem wellFormed_some (h : c.set.WellFormed) : WellFormed (some c) := by
  intro c' hc'
  obtain rfl := Option.some.inj hc'
  exact h

theorem wellFormed_none : WellFormed none := fun _ h ↦ by cases h

/-- Both operands have classes, or one has none. -/
theorem operationClass_cases {lh rh : Except Fault (Option CC)} {f : CC → CC → Except Fault CC}
    (h : operationClass f lh rh = .ok o) : (lh = .ok none ∧ o = none) ∨
      ∃ c, lh = .ok (some c) ∧ ((rh = .ok none ∧ o = none) ∨
        ∃ d u, rh = .ok (some d) ∧ f c d = .ok u ∧ o = some u) := by
  obtain ⟨left, hleft, h⟩ := bind_eq_ok.1 h
  cases left with
  | none => exact .inl ⟨hleft, (Except.ok.inj h).symm⟩
  | some c =>
    obtain ⟨right, hright, h⟩ := bind_eq_ok.1 h
    cases right with
    | none => exact .inr ⟨c, hleft, .inl ⟨hright, (Except.ok.inj h).symm⟩⟩
    | some d =>
      obtain ⟨u, hu, h⟩ := bind_eq_ok.1 h
      exact .inr ⟨c, hleft, .inr ⟨d, u, hright, hu, (Except.ok.inj h).symm⟩⟩

theorem subtractCC_eq_ok {c d u : CC} (hc : c.set.WellFormed) (hd : d.set.WellFormed)
    (h : subtractCC c d = .ok u) :
    u.set.WellFormed ∧ u.set.members = c.set.members \ d.set.members := by
  obtain ⟨u', hu', hwf, -, hmembers⟩ := CC_Remover.subtractCC_spec hc hd
  obtain rfl := Except.ok.inj (hu'.symm.trans h)
  exact ⟨hwf, hmembers⟩

theorem intersectCC_eq_ok {c d u : CC} (hc : c.set.WellFormed) (hd : d.set.WellFormed)
    (h : intersectCC c d = .ok u) :
    u.set.WellFormed ∧ u.set.members = c.set.members ∩ d.set.members := by
  obtain ⟨s, hs, hwf, -, hmembers⟩ := intersection_produces hc.verified hd.verified
  rw [intersectCC, hs, ok_bind, pure_eq_ok] at h
  obtain rfl := Except.ok.inj h
  exact ⟨hwf, hmembers⟩

theorem edge_wellFormed (hv : e.Valid) (h : edge side e = .ok o) : WellFormed o := by
  induction hv generalizing o with
  | @alt elems _ ih =>
    rw [edge, edges_eq] at h
    exact altClasses_wellFormed (fun e he _ ↦ ih e he) wellFormed_none h
  | @seq elems _ ih =>
    rw [edge, edges_eq, ← NullableRemover.map_ordered] at h
    exact edgeItems_wellFormed (fun e he _ ↦ ih e (mem_ordered.1 he)) wellFormed_none h
  | any =>
    obtain rfl := Except.ok.inj h
    exact wellFormed_some (range_wellFormed zeroed (Nat.zero_le _) le_rfl)
  | cc hc =>
    obtain rfl := Except.ok.inj h
    exact wellFormed_some hc
  | rep _ _ ih => exact ih h
  | @name definition n _ ih =>
    cases definition with
    | none => cases h
    | some definition => exact ih definition rfl h
  | diff _ _ ihl ihr =>
    rw [edge] at h
    obtain ⟨-, rfl⟩ | ⟨c, hc, ⟨-, rfl⟩ | ⟨d, u, hd, hu, rfl⟩⟩ := operationClass_cases h
    · exact wellFormed_none
    · exact wellFormed_none
    · exact wellFormed_some (subtractCC_eq_ok (ihl hc c rfl) (ihr hd d rfl) hu).1
  | intersect _ _ ihl ihr =>
    rw [edge] at h
    obtain ⟨-, rfl⟩ | ⟨c, hc, ⟨-, rfl⟩ | ⟨d, u, hd, hu, rfl⟩⟩ := operationClass_cases h
    · exact wellFormed_none
    · exact wellFormed_none
    · exact wellFormed_some (intersectCC_eq_ok (ihl hc c rfl) (ihr hd d rfl) hu).1
  | _ =>
    obtain rfl := Except.ok.inj h
    exact wellFormed_none

/-- The class, if there is one, has the characters at which the strings begin or end, and without a
class there is the empty string only. -/
def Reads (side : Side) (o : Option CC) (l : Language ℕ) : Prop :=
  (o = none → l ≤ 1) ∧ edgeChars side l ⊆ classMembers o

theorem reads_of_le_one (h : l ≤ 1) : Reads side o l := by
  refine ⟨fun _ ↦ h, ?_⟩
  rw [edgeChars_le_one h]
  exact Set.empty_subset _

theorem reads_some (h : edgeChars side l ⊆ c.set.members) : Reads side (some c) l :=
  ⟨fun hc ↦ absurd hc (Option.some_ne_none c), h⟩

theorem denoteSeq_ordered :
    denoteSeq M (ordered side (e :: items)) =
      followed side (denote M e) (denoteSeq M (ordered side items)) := by
  cases side with
  | front => rfl
  | back =>
    rw [ordered, List.reverse_cons, denoteSeq_append, denoteSeq_singleton]
    rfl

theorem followed_bot {x : Language ℕ} : followed side ⊥ x = ⊥ := by
  cases side with
  | front => exact Quantale.bot_mul
  | back => exact Quantale.mul_bot

theorem edgeItems_reads (hv : ∀ e ∈ items, e.Valid)
    (h : ∀ before e after, items = before ++ e :: after → (∀ x ∈ before, isNullable x = true) →
      ∀ o, edge side e = .ok o → Reads side o (denote M e))
    (hstop : ∀ before e after, items = before ++ e :: after → isNullable e = false →
      [] ∈ denote M e → denoteSeq M (ordered side after) ≤ 1)
    (hfound : WellFormed found)
    (hr : edgeItems (items.map fun e ↦ (e, edge side e)) found = .ok r) :
    (r = none → found = none ∧ denoteSeq M (ordered side items) ≤ 1) ∧
      classMembers found ∪ edgeChars side (denoteSeq M (ordered side items)) ⊆ classMembers r := by
  induction items generalizing found with
  | nil =>
    obtain rfl := Except.ok.inj hr
    have hone : denoteSeq M (ordered side []) ≤ 1 := by cases side <;> exact le_rfl
    refine ⟨fun hr ↦ ⟨hr, hone⟩, ?_⟩
    rw [edgeChars_le_one hone, Set.union_empty]
  | cons e items ih =>
    obtain ⟨hve, hvitems⟩ := List.forall_mem_cons.1 hv
    rw [List.map_cons, edgeItems] at hr
    obtain ⟨c, hc, hr⟩ := bind_eq_ok.1 hr
    obtain ⟨found1, hcombine, hr⟩ := bind_eq_ok.1 hr
    obtain ⟨hwf, hmembers, hnone⟩ := combine_spec hfound (edge_wellFormed hve hc) hcombine
    obtain ⟨hle, hchars⟩ := h [] e items rfl (List.forall_mem_nil _) c hc
    rw [denoteSeq_ordered]
    split_ifs at hr with hnullable
    · obtain ⟨hrest, hsubset⟩ := ih hvitems
        (fun before x after hsplit hbefore ↦ h (e :: before) x after (congrArg (e :: ·) hsplit)
          (List.forall_mem_cons.2 ⟨hnullable, hbefore⟩))
        (fun before x after hsplit ↦ hstop (e :: before) x after (congrArg (e :: ·) hsplit)) hwf hr
      refine ⟨fun hr ↦ ?_, ?_⟩
      · obtain ⟨hfound1, hone⟩ := hrest hr
        obtain ⟨hfound, hcnone⟩ := hnone hfound1
        exact ⟨hfound, followed_le_one (hle hcnone) hone⟩
      · rw [hmembers] at hsubset
        rintro a (ha | ha)
        · exact hsubset (.inl (.inl ha))
        · obtain ha | ⟨-, ha⟩ := mem_edgeChars_followed ha
          · exact hsubset (.inl (.inr (hchars ha)))
          · exact hsubset (.inr ha)
    · obtain rfl := Except.ok.inj hr
      have hstopped := hstop [] e items rfl (eq_false_of_ne_true hnullable)
      refine ⟨fun hr ↦ ?_, ?_⟩
      · obtain ⟨hfound, hcnone⟩ := hnone hr
        refine ⟨hfound, ?_⟩
        by_cases hnil : [] ∈ denote M e
        · exact followed_le_one (hle hcnone) (hstopped hnil)
        · have hbot : denote M e = ⊥ := by
            rw [eq_bot_iff]
            intro w hw
            obtain rfl : w = [] := hle hcnone hw
            exact absurd hw hnil
          rw [hbot, followed_bot]
          exact bot_le
      · rw [hmembers]
        rintro a (ha | ha)
        · exact .inl ha
        · obtain ha | ⟨hnil, ha⟩ := mem_edgeChars_followed ha
          · exact .inr (hchars ha)
          · rw [edgeChars_le_one (hstopped hnil)] at ha
            cases ha

theorem altClasses_reads (hv : ∀ e ∈ items, e.Valid)
    (h : ∀ e ∈ items, ∀ o, edge side e = .ok o → Reads side o (denote M e))
    (hfound : WellFormed found)
    (hr : altClasses (items.map fun e ↦ (e, edge side e)) found = .ok r) :
    (r = none → found = none ∧ denoteAlt M items ≤ 1) ∧
      classMembers found ∪ edgeChars side (denoteAlt M items) ⊆ classMembers r := by
  induction items generalizing found with
  | nil =>
    obtain rfl := Except.ok.inj hr
    refine ⟨fun hr ↦ ⟨hr, bot_le⟩, ?_⟩
    rw [denoteAlt, edgeChars_le_one bot_le, Set.union_empty]
  | cons e items ih =>
    obtain ⟨hve, hvitems⟩ := List.forall_mem_cons.1 hv
    obtain ⟨he, hitems⟩ := List.forall_mem_cons.1 h
    rw [List.map_cons, altClasses] at hr
    obtain ⟨c, hc, hr⟩ := bind_eq_ok.1 hr
    obtain ⟨found1, hcombine, hr⟩ := bind_eq_ok.1 hr
    obtain ⟨hwf, hmembers, hnone⟩ := combine_spec hfound (edge_wellFormed hve hc) hcombine
    obtain ⟨hle, hchars⟩ := he c hc
    obtain ⟨hrest, hsubset⟩ := ih hvitems hitems hwf hr
    refine ⟨fun hr ↦ ?_, ?_⟩
    · obtain ⟨hfound1, hone⟩ := hrest hr
      obtain ⟨hfound, hcnone⟩ := hnone hfound1
      exact ⟨hfound, sup_le (hle hcnone) hone⟩
    · rw [hmembers] at hsubset
      rw [denoteAlt, edgeChars_sup]
      rintro a (ha | ha | ha)
      · exact hsubset (.inl (.inl ha))
      · exact hsubset (.inl (.inr (hchars ha)))
      · exact hsubset (.inr ha)

theorem edge_reads (hM : Characters M) (hv : e.Valid) (h : EdgeReady M side e)
    (ho : edge side e = .ok o) : Reads side o (denote M e) := by
  induction h generalizing o with
  | @alt elems _ ih =>
    cases hv with
    | alt hv =>
      rw [edge, edges_eq] at ho
      obtain ⟨hnone, hsubset⟩ :=
        altClasses_reads hv (fun e he o ↦ ih e he (hv e he)) wellFormed_none ho
      exact ⟨fun ho ↦ (hnone ho).2, fun a ha ↦ hsubset (.inr ha)⟩
  | @seq elems _ hstop ih =>
    cases hv with
    | seq hv =>
      rw [edge, edges_eq, ← NullableRemover.map_ordered] at ho
      have hitems : ∀ e ∈ ordered side elems, e.Valid := fun e he ↦ hv e (mem_ordered.1 he)
      obtain ⟨hnone, hsubset⟩ := edgeItems_reads (M := M) hitems
        (fun before e after hsplit hbefore o ↦ ih before e after hsplit hbefore
          (hitems e (hsplit ▸ List.mem_append_right _ (List.mem_cons_self ..))))
        hstop wellFormed_none ho
      rw [NullableRemover.ordered_ordered] at hnone hsubset
      exact ⟨fun ho ↦ (hnone ho).2, fun a ha ↦ hsubset (.inr ha)⟩
  | any alphabet =>
    obtain rfl := Except.ok.inj ho
    refine reads_some ?_
    rw [members_range (Nat.zero_le _) le_rfl]
    exact ((edgeChars_mono (hM.any_le alphabet)).trans edgeChars_letters).trans
      fun x hx ↦ ⟨Nat.zero_le x, hx⟩
  | cc c =>
    obtain rfl := Except.ok.inj ho
    exact reads_some ((edgeChars_mono (hM.cc_le _ _)).trans edgeChars_letters)
  | empty h => exact reads_of_le_one h
  | rep lb ub _ ih =>
    cases hv with
    | rep hv _ =>
      obtain ⟨hnone, hsubset⟩ := ih hv ho
      exact ⟨fun ho ↦ powers_le_one (hnone ho), edgeChars_powers.trans hsubset⟩
  | name n _ ih =>
    cases hv with
    | name _ hv => exact ih (hv _ rfl) ho
  | undefined n => cases ho
  | @diff lh rh _ hready ihl =>
    cases hv with
    | diff hvl hvr =>
      rw [edge] at ho
      have hsdiff : denote M (diff lh rh) ≤ denote M lh := sdiff_le
      obtain ⟨hc, rfl⟩ | ⟨c, hc, hrest⟩ := operationClass_cases ho
      · exact reads_of_le_one (hsdiff.trans ((ihl hvl hc).1 rfl))
      · obtain ⟨hd, rfl⟩ | ⟨d, u, hd, hu, rfl⟩ := hrest
        · have hnochar : edgeChars side (denote M (diff lh rh)) = ∅ := by
            refine Set.eq_empty_of_forall_notMem fun a ha ↦ ?_
            obtain ⟨r, hr, -⟩ := hready a ha
            cases hd.symm.trans hr
          exact reads_of_le_one (le_one_of_edgeChars hnochar)
        · refine reads_some fun a ha ↦ ?_
          obtain ⟨r, hr, hnot⟩ := hready a ha
          obtain rfl := Option.some.inj (Except.ok.inj (hd.symm.trans hr))
          rw [(subtractCC_eq_ok (edge_wellFormed hvl hc c rfl) (edge_wellFormed hvr hd d rfl) hu).2]
          exact ⟨(ihl hvl hc).2 (edgeChars_mono hsdiff ha), hnot⟩
  | @intersect lh rh _ _ ihl ihr =>
    cases hv with
    | intersect hvl hvr =>
      rw [edge] at ho
      obtain ⟨hc, rfl⟩ | ⟨c, hc, hrest⟩ := operationClass_cases ho
      · exact reads_of_le_one (inf_le_left.trans ((ihl hvl hc).1 rfl))
      · obtain ⟨hd, rfl⟩ | ⟨d, u, hd, hu, rfl⟩ := hrest
        · exact reads_of_le_one (inf_le_right.trans ((ihr hvr hd).1 rfl))
        · refine reads_some fun a ha ↦ ?_
          rw [(intersectCC_eq_ok (edge_wellFormed hvl hc c rfl) (edge_wellFormed hvr hd d rfl)
            hu).2]
          exact ⟨(ihl hvl hc).2 (edgeChars_mono inf_le_left ha),
            (ihr hvr hd).2 (edgeChars_mono inf_le_right ha)⟩

end Edges

section Follow

variable {M : Interpretation (Language ℕ)} {same : CC → CC → Bool} {e : Expression}
variable {elems rest : List Expression} {follows follows' : FollowMap} {e1 e2 : Option CC}
variable {c d : CC} {s : Set ℕ} {l k : Language ℕ}

/-- The characters that are in a class of the map. -/
def following (follows : FollowMap) : Set ℕ :=
  {b | ∃ entry ∈ follows, b ∈ entry.2.set.members}

def FollowMap.WellFormed (follows : FollowMap) : Prop :=
  ∀ entry ∈ follows, entry.2.set.WellFormed

theorem following_cons {entry : CC × CC} :
    following (entry :: follows) = entry.2.set.members ∪ following follows :=
  Set.ext fun _ ↦ List.exists_mem_cons_iff ..

theorem addFollow_spec (hwf : follows.WellFormed) (hd : d.set.WellFormed)
    (h : addFollow same c d follows = .ok follows') :
    follows'.WellFormed ∧ following follows' = following follows ∪ d.set.members := by
  induction follows generalizing follows' with
  | nil =>
    obtain rfl := Except.ok.inj h
    refine ⟨List.forall_mem_singleton.2 hd, ?_⟩
    rw [following_cons, Set.union_comm]
  | cons entry follows ih =>
    obtain ⟨hentry, hfollows⟩ := List.forall_mem_cons.1 hwf
    rw [addFollow] at h
    split_ifs at h
    · obtain ⟨u, hu, h⟩ := bind_eq_ok.1 h
      obtain rfl := Except.ok.inj h
      obtain ⟨hu', hmembers⟩ := union_eq_ok hentry hd hu
      refine ⟨List.forall_mem_cons.2 ⟨hu', hfollows⟩, ?_⟩
      rw [following_cons, following_cons, hmembers, Set.union_right_comm]
    · obtain ⟨follows1, hadd, h⟩ := bind_eq_ok.1 h
      obtain rfl := Except.ok.inj h
      obtain ⟨hwf1, hfollowing⟩ := ih hfollows hadd
      refine ⟨List.forall_mem_cons.2 ⟨hentry, hwf1⟩, ?_⟩
      rw [following_cons, following_cons, hfollowing, Set.union_assoc]

theorem seam_spec (hwf : follows.WellFormed) (he2 : WellFormed e2)
    (h : seam same e1 e2 follows = .ok follows') :
    follows'.WellFormed ∧ following follows ⊆ following follows' ∧
      (e1 ≠ none → classMembers e2 ⊆ following follows') := by
  cases e1 with
  | none =>
    obtain rfl := Except.ok.inj h
    exact ⟨hwf, subset_rfl, fun hne ↦ absurd rfl hne⟩
  | some c =>
    cases e2 with
    | none =>
      obtain rfl := Except.ok.inj h
      exact ⟨hwf, subset_rfl, fun _ ↦ Set.empty_subset _⟩
    | some d =>
      obtain ⟨hwf', hfollowing⟩ := addFollow_spec hwf (he2 d rfl) h
      rw [hfollowing]
      exact ⟨hwf', Set.subset_union_left, fun _ ↦ Set.subset_union_right⟩

/-- Nothing is taken out of the map, and certain characters are in it afterwards. -/
def Follows (same : CC → CC → Bool) (e : Expression) (s : Set ℕ) : Prop :=
  ∀ follows follows', follows.WellFormed → follow same e follows = .ok follows' →
    follows'.WellFormed ∧ following follows ⊆ following follows' ∧ s ⊆ following follows'

theorem followAll_spec {t : Expression → Set ℕ} (h : ∀ e ∈ elems, Follows same e (t e))
    (hwf : follows.WellFormed) (hr : followAll same elems follows = .ok follows') :
    follows'.WellFormed ∧ following follows ⊆ following follows' ∧
      ∀ e ∈ elems, t e ⊆ following follows' := by
  induction elems generalizing follows with
  | nil =>
    rw [followAll] at hr
    obtain rfl := Except.ok.inj hr
    exact ⟨hwf, subset_rfl, List.forall_mem_nil _⟩
  | cons e elems ih =>
    obtain ⟨he, helems⟩ := List.forall_mem_cons.1 h
    rw [followAll] at hr
    obtain ⟨follows1, hfirst, hr⟩ := bind_eq_ok.1 hr
    obtain ⟨hwf1, hgrows1, hhas1⟩ := he _ _ hwf hfirst
    obtain ⟨hwf', hgrows, hhas⟩ := ih helems hwf1 hr
    exact ⟨hwf', hgrows1.trans hgrows, List.forall_mem_cons.2 ⟨hhas1.trans hgrows, hhas⟩⟩

theorem Follows.unchanged (h : ∀ follows, follow same e follows = .ok follows) :
    Follows same e ∅ := by
  intro follows follows' hwf hr
  obtain rfl := Except.ok.inj ((h follows).symm.trans hr)
  exact ⟨hwf, subset_rfl, Set.empty_subset _⟩

/-- The classes at a place between two parts, and then the parts. -/
theorem follows_seam {x y : Expression} {s t : Set ℕ} (hx : Follows same x s)
    (hy : Follows same y t) (hv : y.Valid) (hwf : follows.WellFormed)
    (hr : (do
      let e1 ← final x
      let e2 ← first y
      let follows ← seam same e1 e2 follows
      let follows ← follow same x follows
      follow same y follows) = Except.ok follows') :
    ∃ e1 e2, final x = .ok e1 ∧ first y = .ok e2 ∧ follows'.WellFormed ∧
      following follows ⊆ following follows' ∧ (e1 ≠ none → classMembers e2 ⊆ following follows') ∧
        s ⊆ following follows' ∧ t ⊆ following follows' := by
  obtain ⟨e1, he1, hr⟩ := bind_eq_ok.1 hr
  obtain ⟨e2, he2, hr⟩ := bind_eq_ok.1 hr
  obtain ⟨follows1, hseam, hr⟩ := bind_eq_ok.1 hr
  obtain ⟨follows2, hfirst, hr⟩ := bind_eq_ok.1 hr
  obtain ⟨hwf1, hgrows1, hhas1⟩ := seam_spec hwf (edge_wellFormed hv he2) hseam
  obtain ⟨hwf2, hgrows2, hhas2⟩ := hx _ _ hwf1 hfirst
  obtain ⟨hwf3, hgrows3, hhas3⟩ := hy _ _ hwf2 hr
  exact ⟨e1, e2, he1, he2, hwf3, hgrows1.trans (hgrows2.trans hgrows3),
    fun hne ↦ (hhas1 hne).trans (hgrows2.trans hgrows3), hhas2.trans hgrows3, hhas3⟩

theorem follows_rep {re : Expression} {lb ub : ℤ} (h : Follows same re s) (hv : re.Valid)
    (hwf : follows.WellFormed) (hr : follow same (rep re lb ub) follows = .ok follows') :
    ∃ e1 e2, final re = .ok e1 ∧ first re = .ok e2 ∧ follows'.WellFormed ∧
      following follows ⊆ following follows' ∧ (e1 ≠ none → classMembers e2 ⊆ following follows') ∧
        s ⊆ following follows' := by
  rw [follow] at hr
  obtain ⟨e1, he1, hr⟩ := bind_eq_ok.1 hr
  obtain ⟨e2, he2, hr⟩ := bind_eq_ok.1 hr
  obtain ⟨follows1, hseam, hr⟩ := bind_eq_ok.1 hr
  obtain ⟨hwf1, hgrows1, hhas1⟩ := seam_spec hwf (edge_wellFormed hv he2) hseam
  obtain ⟨hwf2, hgrows2, hhas2⟩ := h _ _ hwf1 hr
  exact ⟨e1, e2, he1, he2, hwf2, hgrows1.trans hgrows2, fun hne ↦ (hhas1 hne).trans hgrows2, hhas2⟩

/-- Every call adds to the map only. -/
theorem follows_grow (hv : e.Valid) : Follows same e ∅ := by
  induction hn : sizeOf e using Nat.strong_induction_on generalizing e with
  | _ n ih =>
    subst hn
    cases hv with
    | @name definition n hd =>
      cases definition with
      | none =>
        intro follows follows' _ hr
        rw [follow] at hr
        cases hr
      | some definition =>
        intro follows follows' hwf hr
        rw [follow] at hr
        exact ih _ (by simp_wf; omega) (hd definition rfl) rfl _ _ hwf hr
    | @seq elems hvs =>
      cases elems with
      | nil => exact .unchanged fun follows ↦ by rw [follow]
      | cons re_first rest =>
        obtain ⟨hvf, hvrest⟩ := List.forall_mem_cons.1 hvs
        intro follows follows' hwf hr
        have hvmake := valid_makeSeq hvrest
        have hfirst : Follows same re_first ∅ := ih _ (by simp_wf; omega) hvf rfl
        have hrest : Follows same (makeSeq rest) ∅ := ih _ (sizeOf_makeSeq_lt _ _) hvmake rfl
        rw [follow] at hr
        obtain ⟨-, -, -, -, hwf', hgrows, -⟩ := follows_seam hfirst hrest hvmake hwf hr
        exact ⟨hwf', hgrows, Set.empty_subset _⟩
    | @alt elems hvs =>
      intro follows follows' hwf hr
      rw [follow] at hr
      have hparts (e : Expression) (he : e ∈ elems) : Follows same e ∅ := by
        have hlt := List.sizeOf_lt_of_mem he
        exact ih _ (by simp_wf; omega) (hvs e he) rfl
      obtain ⟨hwf', hgrows, -⟩ := followAll_spec hparts hwf hr
      exact ⟨hwf', hgrows, Set.empty_subset _⟩
    | @rep re lb ub hre hb =>
      intro follows follows' hwf hr
      have hparts : Follows same re ∅ := ih _ (by simp_wf; omega) hre rfl
      obtain ⟨-, -, -, -, hwf', hgrows, -⟩ := follows_rep hparts hre hwf hr
      exact ⟨hwf', hgrows, Set.empty_subset _⟩
    | _ => exact .unchanged fun follows ↦ by rw [follow] <;> simp

/-- The characters of the strings behind the first one. -/
def tailChars (l : Language ℕ) : Set ℕ := {b | ∃ w ∈ l, b ∈ w.tail}

theorem tailChars_mul {b : ℕ} (h : b ∈ tailChars (l * k)) :
    b ∈ tailChars l ∨ b ∈ tailChars k ∨ ¬ l ≤ 1 ∧ b ∈ edgeChars .front k := by
  obtain ⟨w, hw, hb⟩ := h
  obtain ⟨u, hu, v, hv, rfl⟩ := Language.mem_mul.1 hw
  cases u with
  | nil => exact .inr (.inl ⟨v, hv, hb⟩)
  | cons a u =>
    obtain hb | hb := List.mem_append.1 hb
    · exact .inl ⟨a :: u, hu, hb⟩
    · cases v with
      | nil => cases hb
      | cons c v =>
        obtain rfl | hb := List.mem_cons.1 hb
        · exact .inr (.inr ⟨fun hle ↦ absurd (hle hu) (List.cons_ne_nil a u), v, hv⟩)
        · exact .inr (.inl ⟨c :: v, hv, hb⟩)

theorem tailChars_powers {b : ℕ} (h : b ∈ tailChars (powers l s)) :
    b ∈ tailChars l ∨ ¬ l ≤ 1 ∧ b ∈ edgeChars .front l := by
  obtain ⟨w, hw, hb⟩ := h
  obtain ⟨n, -, hw⟩ := WithoutEmpty.mem_powers.1 hw
  have hpow : b ∈ tailChars (l ^ n) := ⟨w, hw, hb⟩
  clear hw hb
  induction n with
  | zero =>
    obtain ⟨w, hw, hb⟩ := hpow
    rw [pow_zero] at hw
    obtain rfl : w = [] := hw
    cases hb
  | succ n ih =>
    rw [pow_succ'] at hpow
    obtain hb | hb | ⟨hle, hb⟩ := tailChars_mul hpow
    · exact .inl hb
    · exact ih hb
    · exact .inr ⟨hle, edgeChars_pow hb⟩

theorem tailChars_denoteAlt {b : ℕ} (h : b ∈ tailChars (denoteAlt M elems)) :
    ∃ e ∈ elems, b ∈ tailChars (denote M e) := by
  obtain ⟨w, hw, hb⟩ := h
  induction elems with
  | nil => exact absurd hw not_mem_bot
  | cons e elems ih =>
    obtain hw | hw := hw
    · exact ⟨e, List.mem_cons_self .., w, hw, hb⟩
    · obtain ⟨x, hx, hbx⟩ := ih hw
      exact ⟨x, List.mem_cons_of_mem _ hx, hbx⟩

theorem Characters.classes (hM : Characters M) : Classes M := fun a ↦
  le_bot_iff.1 ((hM.cc_le a ∅).trans letters_empty.le)

theorem not_le_one_of_mem {b : ℕ} (h : b ∈ edgeChars .front l) : ¬ l ≤ 1 := by
  intro hle
  rw [edgeChars_le_one hle] at h
  cases h

/-- After the call every character behind the first one of a match is in a class of the map. -/
theorem follows_tails (hM : Characters M) (hv : e.Valid) (h : FollowReady M e) :
    Follows same e (tailChars (denote M e)) := by
  induction h with
  | @alt elems _ ih =>
    cases hv with
    | alt hvs =>
      intro follows follows' hwf hr
      rw [follow] at hr
      obtain ⟨hwf', hgrows, hhas⟩ := followAll_spec (fun e he ↦ ih e he (hvs e he)) hwf hr
      refine ⟨hwf', hgrows, fun b hb ↦ ?_⟩
      obtain ⟨e, he, hb⟩ := tailChars_denoteAlt hb
      exact hhas e he hb
  | name n _ ih =>
    cases hv with
    | name _ hd =>
      intro follows follows' hwf hr
      rw [follow] at hr
      exact ih (hd _ rfl) _ _ hwf hr
  | undefined n =>
    intro follows follows' _ hr
    rw [follow] at hr
    cases hr
  | @rep re lb ub _ hseam ih =>
    cases hv with
    | rep hre hb =>
      intro follows follows' hwf hr
      obtain ⟨e1, e2, he1, he2, hwf', hgrows, hedge, htails⟩ := follows_rep (ih hre) hre hwf hr
      refine ⟨hwf', hgrows, fun b hb ↦ ?_⟩
      obtain hb | ⟨hle, hb⟩ := tailChars_powers hb
      · exact htails hb
      · obtain ⟨hback, hfront⟩ := hseam hle
        have hne : e1 ≠ none := fun hnone ↦ hle ((edge_reads hM hre hback he1).1 hnone)
        exact hedge hne ((edge_reads hM hre hfront he2).2 hb)
  | @seq re_first rest _ _ hseam ihfirst ihrest =>
    cases hv with
    | seq hvs =>
      obtain ⟨hvf, hvrest⟩ := List.forall_mem_cons.1 hvs
      have hvmake := valid_makeSeq hvrest
      have hdenote : denote M (makeSeq rest) = denoteSeq M rest := denote_makeSeq hM.classes hvrest
      intro follows follows' hwf hr
      rw [follow] at hr
      obtain ⟨e1, e2, he1, he2, hwf', hgrows, hedge, htails, htails'⟩ :=
        follows_seam (ihfirst hvf) (ihrest hvmake) hvmake hwf hr
      refine ⟨hwf', hgrows, fun b hb ↦ ?_⟩
      rw [denote, denoteSeq, ← hdenote] at hb
      obtain hb | hb | ⟨hle, hb⟩ := tailChars_mul hb
      · exact htails hb
      · exact htails' hb
      · obtain ⟨hback, hfront⟩ := hseam hle (hdenote ▸ not_le_one_of_mem hb)
        have hne : e1 ≠ none := fun hnone ↦ hle ((edge_reads hM hvf hback he1).1 hnone)
        exact hedge hne ((edge_reads hM hvmake hfront he2).2 hb)
  | short h =>
    intro follows follows' hwf hr
    obtain ⟨hwf', hgrows, -⟩ := follows_grow hv _ _ hwf hr
    refine ⟨hwf', hgrows, ?_⟩
    rintro b ⟨w, hw, hb⟩
    have hlen := h w hw
    have hpos := List.length_pos_of_mem hb
    rw [List.length_tail] at hpos
    omega

end Follow

section Example

theorem characters_unicodeStrings : Characters unicodeStrings := ⟨fun _ ↦ le_rfl, fun _ _ ↦ le_rfl⟩

theorem follow_cc (same : CC → CC → Bool) (c : CC) (follows : FollowMap) :
    follow same (cc c) follows = .ok follows := by
  rw [follow] <;> simp

theorem follow_capture (same : CC → CC → Bool) (n : String) (re : Expression)
    (follows : FollowMap) : follow same (capture n re) follows = .ok follows := by
  rw [follow] <;> simp

theorem codepoint_short (cp : ℕ) : ∀ w ∈ denote unicodeStrings (cc (codepoint cp)), w.length ≤ 1 :=
  fun w hw ↦ (length_of_mem_letters w hw).le

end Example

end Parabix.RE.Expression
