import Parabix.Library.Spans
import Parabix.RE.ClassOverlap
import Parabix.RE.Expression

namespace Parabix.RE.Expression

open Library Library.Powers Library.Spans UCD

section Numbers

/-- The numbers of classes that are matched behind a symbol. That all are matched stays known. -/
def shifted (n : ℕ) (A : ℕ → Prop) (S : Set ℕ) : Set ℕ :=
  {i | i = 0 ∨ (∃ j ∈ S, A j ∧ i = j + 1) ∨ i = n ∧ n ∈ S}

/-- One more repetition, or none. -/
def oneMore (f : Set ℕ → Set ℕ) (S : Set ℕ) : Set ℕ := f S ∪ S

/-- The numbers of further repetitions. -/
def Further (lb ub : ℤ) (k : ℕ) : Prop := ub = UNBOUNDED_REP ∨ (k : ℤ) ≤ ub - lb

variable (Cs : List CC)

mutual

/-- The numbers of classes that can be matched behind an expression, one after the other, if those
in a set can be matched before it. -/
def numbers : Expression → Set ℕ → Set ℕ
  | alt elems, S => numbersAlt elems S
  | any _, S => shifted Cs.length (fun _ ↦ True) S
  | assertion asserted .LookBehind .Positive, S =>
    {i | i = 0 ∨ i ∈ S ∧ (i ∈ numbers asserted (Set.Iio Cs.length) ∨ Cs.length ∈ S)}
  | assertion _ .LookBehind .Negative, S => insert 0 S
  | assertion _ .LookAhead _, S => S
  | capture _ capturedRE, S => numbers capturedRE S
  | cc c, S => shifted Cs.length (fun j ↦ ∃ C, Cs[j]? = some C ∧ c.set.intersects C.set = true) S
  | diff lh _, S => insert 0 (numbers lh S)
  | group _ _ _, _ => Set.univ
  | intersect lh rh, S => numbers lh S ∩ numbers rh S
  | name _ (some definition), S => numbers definition S
  | name _ none, _ => Set.univ
  | propertyExpression _ _ (some resolvedRE), S => numbers resolvedRE S
  | propertyExpression _ _ none, _ => Set.univ
  | range _ _, _ => Set.univ
  | reference _ captured _, S => numbers captured S
  | rep re lb ub, S =>
    {i | ∃ k, Further lb ub k ∧ i ∈ (oneMore (numbers re))^[k] ((numbers re)^[lb.toNat] S)}
  | seq elems, S => numbersSeq elems S
  | start, S => {i | i = 0 ∨ i = Cs.length ∧ Cs.length ∈ S}
  | stop, S => {i | i = Cs.length ∧ Cs.length ∈ S}

def numbersAlt : List Expression → Set ℕ → Set ℕ
  | [], S => {i | i = 0 ∨ i = Cs.length ∧ Cs.length ∈ S}
  | e :: elems, S => numbers e S ∪ numbersAlt elems S

def numbersSeq : List Expression → Set ℕ → Set ℕ
  | [], S => S
  | e :: elems, S => numbersSeq elems (numbers e S)

end

end Numbers

section Text

variable (t : List ℕ) (Cs : List CC)

/-- The first `i` classes are those of the `i` characters before a position. -/
inductive Matched : ℕ → ℕ → Prop
  | zero (p : ℕ) : Matched 0 p
  | succ {i p a : ℕ} {C : CC} (h : Matched i p) (ha : t[p]? = some a) (hC : Cs[i]? = some C)
    (hmem : a ∈ C.set.members) : Matched (i + 1) (p + 1)

/-- All numbers of classes that are matched from position `b` on are in a set, and so is that of all
classes if they were matched before. -/
structure Covers (b p : ℕ) (S : Set ℕ) : Prop where
  found : ∀ q ≤ p, b + Cs.length ≤ q → Matched t Cs Cs.length q → Cs.length ∈ S
  matched : p < t.length → ∀ i, b + i ≤ p → Matched t Cs i p → i ∈ S

/-- Classes and `Any` are for one character, a start and an end are those of the text, and where a
lookbehind holds, a match of what it asserts ends. -/
structure WithinText (M : Interpretation Span) : Prop where
  any_le (a : ℕ) : M.any a ≤ step fun p ↦ p < t.length
  cc_le (a : ℕ) (s : Set ℕ) : M.cc a s ≤ step fun p ↦ ∃ x ∈ t[p]?, x ∈ s
  lookbehind (x : Span) : M.assertion .LookBehind .Positive x ≤
    zeroWidth fun p ↦ ∃ q ≤ p, x q p
  start_le : M.start ≤ zeroWidth fun p ↦ p = 0
  stop_le : M.stop ≤ zeroWidth fun p ↦ t.length ≤ p

end Text

section Found

variable {Cs : List CC} {e : Expression} {elems : List Expression} {S : Set ℕ}

theorem found_iterate {f : Set ℕ → Set ℕ} (hf : ∀ S, Cs.length ∈ S → Cs.length ∈ f S)
    (h : Cs.length ∈ S) (k : ℕ) : Cs.length ∈ f^[k] S :=
  Function.Iterate.rec (fun S ↦ Cs.length ∈ S) h hf k

theorem found_numbersAlt (h : Cs.length ∈ S) : Cs.length ∈ numbersAlt Cs elems S := by
  induction elems with
  | nil => exact .inr ⟨rfl, h⟩
  | cons e elems ih => exact .inr ih

theorem found_numbersSeq (helems : ∀ e ∈ elems, ∀ S, Cs.length ∈ S → Cs.length ∈ numbers Cs e S)
    (h : Cs.length ∈ S) : Cs.length ∈ numbersSeq Cs elems S := by
  induction elems generalizing S with
  | nil => exact h
  | cons e elems ih =>
    obtain ⟨he, helems⟩ := List.forall_mem_cons.1 helems
    exact ih helems (he S h)

/-- That all classes are matched is not forgotten. -/
theorem found_numbers (hv : e.Valid) : ∀ S, Cs.length ∈ S → Cs.length ∈ numbers Cs e S := by
  induction hv with
  | alt => exact fun S h ↦ found_numbersAlt h
  | any => exact fun S h ↦ .inr (.inr ⟨rfl, h⟩)
  | assertion kind sense =>
    intro S h
    cases kind with
    | LookBehind =>
      cases sense with
      | Positive => exact .inr ⟨h, .inr h⟩
      | Negative => exact .inr h
    | LookAhead =>
      rw [numbers]
      exact h
  | capture _ _ ih => exact ih
  | cc => exact fun S h ↦ .inr (.inr ⟨rfl, h⟩)
  | diff _ _ ih => exact fun S h ↦ .inr (ih S h)
  | group => exact fun S _ ↦ Set.mem_univ _
  | intersect _ _ ihl ihr => exact fun S h ↦ ⟨ihl S h, ihr S h⟩
  | @name definition _ _ ih =>
    cases definition with
    | none => exact fun S _ ↦ Set.mem_univ _
    | some definition => exact ih definition rfl
  | @propertyExpression resolvedRE _ _ _ ih =>
    cases resolvedRE with
    | none => exact fun S _ ↦ Set.mem_univ _
    | some resolvedRE => exact ih resolvedRE rfl
  | range => exact fun S _ ↦ Set.mem_univ _
  | reference _ _ _ ih => exact ih
  | @rep re lb ub _ hb ih =>
    intro S h
    exact ⟨0, hb.le.imp_right fun hle ↦ by omega, found_iterate ih h _⟩
  | seq _ ih => exact fun S h ↦ found_numbersSeq ih h
  | start => exact fun S h ↦ .inr ⟨rfl, h⟩
  | stop => exact fun S h ↦ ⟨rfl, h⟩

end Found

section Covers

variable {t : List ℕ} {Cs : List CC} {e : Expression} {elems : List Expression}
variable {M : Interpretation Span} {x y : Span} {f g : Set ℕ → Set ℕ} {S T : Set ℕ} {i b p q : ℕ}

theorem Matched.le_length (h : Matched t Cs i p) : i ≤ Cs.length := by
  cases h with
  | zero => exact Nat.zero_le _
  | succ _ _ hC => exact (List.getElem?_eq_some_iff.1 hC).1

theorem Covers.mono (h : Covers t Cs b p S) (hle : S ⊆ T) : Covers t Cs b p T :=
  ⟨fun q hq hb hmatched ↦ hle (h.found q hq hb hmatched),
    fun hp i hb hi ↦ hle (h.matched hp i hb hi)⟩

/-- Whatever is matched is in a set that is made of those before it. -/
def Steps (t : List ℕ) (Cs : List CC) (x : Span) (f : Set ℕ → Set ℕ) : Prop :=
  ∀ b S p q, Covers t Cs b p S → x p q → Covers t Cs b q (f S)

theorem Steps.mono (h : Steps t Cs x f) (hle : ∀ S, f S ⊆ g S) : Steps t Cs x g :=
  fun b S p q hS hx ↦ (h b S p q hS hx).mono (hle S)

theorem Steps.mul (hx : Steps t Cs x f) (hy : Steps t Cs y g) : Steps t Cs (x * y) (g ∘ f) := by
  rintro b S p q hS ⟨m, hxm, hym⟩
  exact hy b _ m q (hx b S p m hS hxm) hym

theorem steps_one : Steps t Cs 1 id := by
  rintro b S p q hS rfl
  exact hS

theorem steps_of_le_one (h : x ≤ 1) (hle : ∀ S, S ⊆ f S) : Steps t Cs x f := by
  intro b S p q hS hx
  obtain rfl : p = q := h p q hx
  exact hS.mono (hle S)

theorem Steps.pow (h : Steps t Cs x f) (k : ℕ) : Steps t Cs (x ^ k) f^[k] := by
  induction k with
  | zero =>
    rw [pow_zero]
    exact steps_one
  | succ k ih =>
    rw [pow_succ', Function.iterate_succ]
    exact h.mul ih

theorem steps_univ (x : Span) : Steps t Cs x fun _ ↦ Set.univ :=
  fun _ _ _ _ _ _ ↦ ⟨fun _ _ _ _ ↦ Set.mem_univ _, fun _ _ _ _ ↦ Set.mem_univ _⟩

theorem steps_shifted {A : ℕ → Prop} {B : ℕ → Prop} (hx : x ≤ step B)
    (hlength : ∀ p, B p → p < t.length)
    (hA : ∀ p a i C, B p → t[p]? = some a → Cs[i]? = some C → a ∈ C.set.members → A i) :
    Steps t Cs x (shifted Cs.length A) := by
  intro b S p q hS hpq
  obtain ⟨rfl, hB⟩ := hx p q hpq
  have hmatched : ∀ i, b + i ≤ p + 1 → Matched t Cs i (p + 1) → i ∈ shifted Cs.length A S := by
    intro i hb hi
    cases hi with
    | zero => exact .inl rfl
    | @succ j _ a C h ha hC hmem =>
      have hj := hS.matched (hlength p hB) j (Nat.le_of_succ_le_succ hb) h
      exact .inr (.inl ⟨j, hj, hA p a j C hB ha hC hmem, rfl⟩)
  refine ⟨fun q hq hb hfound ↦ ?_, fun _ ↦ hmatched⟩
  rcases Nat.le_succ_iff.1 hq with hle | rfl
  · exact .inr (.inr ⟨rfl, hS.found q hle hb hfound⟩)
  · exact hmatched _ hb hfound

/-- At the start of the text no class is matched. -/
theorem steps_start (hx : x ≤ zeroWidth fun p ↦ p = 0) :
    Steps t Cs x fun S ↦ {i | i = 0 ∨ i = Cs.length ∧ Cs.length ∈ S} := by
  intro b S p q hS hpq
  obtain ⟨rfl, rfl⟩ := hx p q hpq
  refine ⟨fun q hq hb hfound ↦ .inr ⟨rfl, hS.found q hq hb hfound⟩, fun _ i _ hi ↦ ?_⟩
  cases hi
  exact .inl rfl

/-- At the end of the text nothing follows. -/
theorem steps_stop (hx : x ≤ zeroWidth fun p ↦ t.length ≤ p) :
    Steps t Cs x fun S ↦ {i | i = Cs.length ∧ Cs.length ∈ S} := by
  intro b S p q hS hpq
  obtain ⟨rfl, hp⟩ := hx p q hpq
  exact ⟨fun q hq hb hfound ↦ ⟨rfl, hS.found q hq hb hfound⟩, fun hlt ↦ absurd hlt hp.not_gt⟩

/-- The numbers behind a lookbehind are among those at the end of what it asserts. -/
theorem steps_lookbehind (hx : Steps t Cs x f)
    (hy : y ≤ zeroWidth fun p ↦ ∃ q ≤ p, x q p) :
    Steps t Cs y fun S ↦
      {i | i = 0 ∨ i ∈ S ∧ (i ∈ f (Set.Iio Cs.length) ∨ Cs.length ∈ S)} := by
  intro b S p q hS hpq
  obtain ⟨rfl, m, hm, hxm⟩ := hy p q hpq
  refine ⟨fun q hq hb hfound ↦ ?_, fun hp i hb hi ↦ .inr ⟨hS.matched hp i hb hi, ?_⟩⟩
  · have hmem := hS.found q hq hb hfound
    exact .inr ⟨hmem, .inr hmem⟩
  · by_cases hmem : Cs.length ∈ S
    · exact .inr hmem
    · have hnot (q : ℕ) (hq : q ≤ m) (hb : b + Cs.length ≤ q) : ¬ Matched t Cs Cs.length q :=
        fun hfound ↦ hmem (hS.found q (hq.trans hm) hb hfound)
      have hcovers : Covers t Cs b m (Set.Iio Cs.length) := by
        refine ⟨fun q hq hb hfound ↦ absurd hfound (hnot q hq hb), fun _ j hb hj ↦ ?_⟩
        refine hj.le_length.lt_of_ne fun heq ↦ ?_
        rw [heq] at hb hj
        exact hnot m le_rfl hb hj
      exact .inl ((hx b _ m p hcovers hxm).matched hp i hb hi)

theorem steps_numbersAlt (h : ∀ e ∈ elems, Steps t Cs (denote M e) (numbers Cs e)) :
    Steps t Cs (denoteAlt M elems) (numbersAlt Cs elems) := by
  induction elems with
  | nil => exact fun b S p q _ hx ↦ hx.elim
  | cons e elems ih =>
    obtain ⟨he, helems⟩ := List.forall_mem_cons.1 h
    rintro b S p q hS (hx | hx)
    · exact (he b S p q hS hx).mono Set.subset_union_left
    · exact (ih helems b S p q hS hx).mono Set.subset_union_right

theorem steps_numbersSeq (h : ∀ e ∈ elems, Steps t Cs (denote M e) (numbers Cs e)) :
    Steps t Cs (denoteSeq M elems) (numbersSeq Cs elems) := by
  induction elems with
  | nil => exact steps_one
  | cons e elems ih =>
    obtain ⟨he, helems⟩ := List.forall_mem_cons.1 h
    exact he.mul (ih helems)

theorem steps_powers {lb ub : ℤ} (h : Steps t Cs x f) :
    Steps t Cs (powers x (counts lb ub)) fun S ↦
      {i | ∃ k, Further lb ub k ∧ i ∈ (oneMore f)^[k] (f^[lb.toNat] S)} := by
  intro b S p q hS hx
  obtain ⟨k, ⟨hlb, hub⟩, hpow⟩ := powers_apply.1 hx
  have hfurther : Further lb ub (k - lb.toNat) := hub.imp_right fun hle ↦ by omega
  have hmore : Steps t Cs x (oneMore f) := h.mono fun S ↦ Set.subset_union_left
  have hsplit : lb.toNat + (k - lb.toNat) = k := by omega
  rw [← hsplit, pow_add] at hpow
  exact (((h.pow lb.toNat).mul (hmore.pow _)) b S p q hS hpow).mono fun i hi ↦ ⟨_, hfurther, hi⟩

/-- Behind an expression the numbers are those that can be. -/
theorem steps_numbers (hM : WithinText t M) (hCs : ∀ C ∈ Cs, C.set.WellFormed) (hv : e.Valid) :
    Steps t Cs (denote M e) (numbers Cs e) := by
  induction hv with
  | alt _ ih => exact steps_numbersAlt ih
  | any a => exact steps_shifted (hM.any_le a) (fun p hp ↦ hp) fun _ _ _ _ _ _ _ _ ↦ trivial
  | assertion kind sense _ ih =>
    cases kind with
    | LookBehind =>
      cases sense with
      | Positive => exact steps_lookbehind ih (hM.lookbehind _)
      | Negative => exact steps_of_le_one (M.assertion_le _ _ _) fun S ↦ Set.subset_insert 0 S
    | LookAhead =>
      refine steps_of_le_one (M.assertion_le _ _ _) fun S ↦ ?_
      rw [numbers]
  | capture _ _ ih => exact ih
  | @cc c hc =>
    refine steps_shifted (hM.cc_le _ _) (fun p hp ↦ ?_) fun p a i C hp ha hC hmem ↦ ?_
    · obtain ⟨x, hx, -⟩ := hp
      exact (List.getElem?_eq_some_iff.1 hx).1
    · obtain ⟨x, hx, hxc⟩ := hp
      obtain rfl : a = x := Option.some.inj (ha.symm.trans hx)
      exact ⟨C, hC, (intersects_iff hc (hCs C (List.mem_of_getElem? hC))).2 ⟨a, hxc, hmem⟩⟩
  | diff _ _ ih => exact fun b S p q hS hx ↦ (ih b S p q hS hx.1).mono (Set.subset_insert 0 _)
  | group => exact steps_univ _
  | intersect _ _ ihl ihr =>
    intro b S p q hS hx
    have hl := ihl b S p q hS hx.1
    have hr := ihr b S p q hS hx.2
    exact ⟨fun m hm hb hfound ↦ ⟨hl.found m hm hb hfound, hr.found m hm hb hfound⟩,
      fun hq i hb hi ↦ ⟨hl.matched hq i hb hi, hr.matched hq i hb hi⟩⟩
  | @name definition _ _ ih =>
    cases definition with
    | none => exact steps_univ _
    | some definition => exact ih definition rfl
  | @propertyExpression resolvedRE _ _ _ ih =>
    cases resolvedRE with
    | none => exact steps_univ _
    | some resolvedRE => exact ih resolvedRE rfl
  | range => exact steps_univ _
  | reference n i _ ih =>
    exact fun b S p q hS hx ↦ ih b S p q hS (M.reference_le n i _ p q hx)
  | rep _ _ ih => exact steps_powers ih
  | seq _ ih => exact steps_numbersSeq ih
  | start => exact steps_start hM.start_le
  | stop => exact steps_stop hM.stop_le

/-- Where the matches begin nothing is matched. -/
theorem covers_zero : Covers t Cs b b {0} := by
  refine ⟨fun q hq hb _ ↦ ?_, fun _ i hb _ ↦ ?_⟩
  · exact Nat.le_zero.1 (Nat.le_of_add_le_add_left (hb.trans hq))
  · exact Nat.le_zero.1 (Nat.le_of_add_le_add_left hb)

/-- Characters of the classes, one after the other, are a match of all. -/
theorem matched_of_forall {u w v : List ℕ}
    (h : List.Forall₂ (fun a (C : CC) ↦ a ∈ C.set.members) w Cs) (ht : t = u ++ w ++ v) :
    Matched t Cs Cs.length (u.length + w.length) := by
  have hlength := h.length_eq
  have htake (i : ℕ) (hi : i ≤ Cs.length) : Matched t Cs i (u.length + i) := by
    induction i with
    | zero => exact .zero _
    | succ i ih =>
      have hw : i < w.length := by omega
      refine (ih (by omega)).succ ?_ (List.getElem?_eq_getElem hi)
        (h.get hw hi)
      rw [ht, List.append_assoc, List.getElem?_append_right (by omega),
        List.getElem?_append_left (by omega), Nat.add_sub_cancel_left,
        List.getElem?_eq_getElem hw]
      rfl
  rw [hlength]
  exact htake _ le_rfl

end Covers

end Parabix.RE.Expression
