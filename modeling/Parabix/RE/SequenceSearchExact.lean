import Mathlib.Data.Set.Card
import Mathlib.Order.Interval.Finset.Nat
import Parabix.RE.PartialMatches
import Parabix.RE.SequenceSearch

namespace Parabix.RE.Expression

open Library Library.Powers Library.Spans UCD
open ccSequenceSearchObject (mInitState upperCount)

section Condition

variable (Cs : List CC) (re : Expression)

/-- The loops of a Rep end before all repetitions are made. -/
def Stops (f : Set ℕ → Set ℕ) (lb ub : ℤ) (S : Set ℕ) : Prop :=
  ub = UNBOUNDED_REP ∨ (∃ j < lb.toNat, f^[j + 1] S = f^[j] S) ∨
    (∃ j, Further lb ub (j + 1) ∧
      (oneMore f)^[j + 1] (f^[lb.toNat] S) = (oneMore f)^[j] (f^[lb.toNat] S)) ∨
    ∃ k, Further lb ub k ∧ Cs.length ∈ (oneMore f)^[k] (f^[lb.toNat] S)

/-- No number is lost on the way through an expression, up to one behind which nothing comes. -/
inductive Handled : Bool → Expression → Set ℕ → Prop
  | alt {last : Bool} {elems : List Expression} {S : Set ℕ} (h : ∀ e ∈ elems, Handled last e S) :
    Handled last (alt elems) S
  | any {last : Bool} {S : Set ℕ} (a : ℕ) : Handled last (any a) S
  | capture {last : Bool} {re : Expression} {S : Set ℕ} (n : String) (h : Handled last re S) :
    Handled last (capture n re) S
  | cc {last : Bool} {S : Set ℕ} (c : CC) (h : Cs.length ≤ 32) : Handled last (cc c) S
  | diff {last : Bool} {lh rh : Expression} {S : Set ℕ} (hl : Handled last lh S)
    (hr : Handled false rh S) (hfound : Cs.length ∉ numbers Cs rh S)
    (hkept : last = false → ∀ i ∈ numbers Cs rh S, i ∈ numbers Cs lh S → i = 0) :
    Handled last (diff lh rh) S
  | intersect {last : Bool} {lh rh : Expression} {S : Set ℕ} (hl : Handled last lh S)
    (hr : Handled last rh S)
    (hfound : last = false → (Cs.length ∈ numbers Cs lh S ↔ Cs.length ∈ numbers Cs rh S)) :
    Handled last (intersect lh rh) S
  | lookbehind {last : Bool} {asserted : Expression} {S : Set ℕ} (sense : Sense)
    (h : Handled false asserted (Set.Iio Cs.length))
    (hfound : Cs.length ∉ numbers Cs asserted (Set.Iio Cs.length))
    (hkept : sense = .Negative →
      ∀ i ∈ S, i ∈ numbers Cs asserted (Set.Iio Cs.length) → i = 0) :
    Handled last (assertion asserted .LookBehind sense) S
  | name {last : Bool} {definition : Expression} {S : Set ℕ} (n : String)
    (h : Handled last definition S) : Handled last (name n (some definition)) S
  | propertyExpression {last : Bool} {resolvedRE : Expression} {S : Set ℕ}
    (kind : Memoization.PropertyKind) (identifier : String) (h : Handled last resolvedRE S) :
    Handled last (propertyExpression kind identifier (some resolvedRE)) S
  | rep {last : Bool} {re : Expression} {lb ub : ℤ} {S : Set ℕ}
    (hlower : ∀ k < lb.toNat, Handled false re ((numbers Cs re)^[k] S))
    (hupper : ∀ k, Further lb ub (k + 1) →
      Handled false re ((oneMore (numbers Cs re))^[k] ((numbers Cs re)^[lb.toNat] S)))
    (hstop : last = false → Stops Cs (numbers Cs re) lb ub S) : Handled last (rep re lb ub) S
  | seq {last : Bool} {elems : List Expression} {S : Set ℕ}
    (h : ∀ before e after, elems = before ++ e :: after →
      Cs.length ∉ numbersSeq Cs before S →
        Handled (last && after.isEmpty) e (numbersSeq Cs before S)) :
    Handled last (seq elems) S
  | start {last : Bool} {S : Set ℕ} : Handled last start S
  | stop {last : Bool} {S : Set ℕ} : Handled last stop S
  | undefined {last : Bool} {S : Set ℕ} (n : String) : Handled last (name n none) S
  | unprocessed {e : Expression} {S : Set ℕ} (h : Cs.length ∉ numbers Cs e S) : Handled true e S

/-- An expression that is processed, which is to find the empty sequence. -/
inductive Processed : Expression → Prop
  | alt (elems : List Expression) : Processed (alt elems)
  | any (a : ℕ) : Processed (any a)
  | capture {re : Expression} (n : String) (h : Processed re) : Processed (capture n re)
  | cc (c : CC) : Processed (cc c)
  | diff (lh rh : Expression) : Processed (diff lh rh)
  | intersect {lh rh : Expression} (hl : Processed lh) (hr : Processed rh) :
    Processed (intersect lh rh)
  | lookbehind (asserted : Expression) (sense : Sense) :
    Processed (assertion asserted .LookBehind sense)
  | name (n : String) {definition : Expression} (h : Processed definition) :
    Processed (name n (some definition))
  | nil : Processed (seq [])
  | propertyExpression (kind : Memoization.PropertyKind) (identifier : String)
    {resolvedRE : Expression} (h : Processed resolvedRE) :
    Processed (propertyExpression kind identifier (some resolvedRE))
  | optional (re : Expression) {ub : ℤ} (h : ub ≠ 0) : Processed (rep re 0 ub)
  | rep {re : Expression} {lb : ℤ} (ub : ℤ) (hlb : 0 < lb) (h : Processed re) :
    Processed (rep re lb ub)
  | seq {e : Expression} (elems : List Expression) (h : Processed e) : Processed (seq (e :: elems))
  | start : Processed start
  | stop : Processed stop
  | undefined (n : String) : Processed (name n none)

/-- Where no occurrence is missed. -/
def Finds : Prop := Cs ≠ [] ∧ Handled Cs true re {0} ∨ Cs = [] ∧ Processed re

end Condition

section States

variable {Cs : List CC} {v next r : stateVector_t} {S T : Set ℕ} {i n : ℕ}

/-- The bits of a state vector are the numbers of a set. -/
def States (v : stateVector_t) (S : Set ℕ) : Prop := ∀ i, v.getLsbD i = true ↔ i ∈ S

theorem States.or (hv : States v S) (hr : States r T) : States (v ||| r) (S ∪ T) := by
  intro i
  rw [BitVec.getLsbD_or, Bool.or_eq_true, hv, hr, Set.mem_union]

theorem States.and (hv : States v S) (hr : States r T) : States (v &&& r) (S ∩ T) := by
  intro i
  rw [BitVec.getLsbD_and, Bool.and_eq_true, hv, hr, Set.mem_inter_iff]

theorem bit_zero : (0 : stateVector_t).getLsbD i = false := BitVec.getLsbD_zero

theorem States.eq_iff (hv : States v S) (hr : States r T) : v = r ↔ S = T := by
  constructor
  · rintro rfl
    exact Set.ext fun i ↦ (hv i).symm.trans (hr i)
  · rintro rfl
    exact BitVec.eq_of_getLsbD_eq fun i _ ↦ Bool.eq_iff_iff.2 ((hv i).trans (hr i).symm)

theorem states_mInitState : States mInitState {0} := by
  intro i
  simp [mInitState, eq_comm]

theorem states_mFinalState (h : Cs.length < 64) :
    States (ccSequenceSearchObject.mFinalState ⟨Cs⟩) {Cs.length} := by
  intro i
  rw [ccSequenceSearchObject.mFinalState, BitVec.getLsbD_shiftLeft, Set.mem_singleton_iff]
  have hinit := states_mInitState (i - Cs.length)
  rw [Set.mem_singleton_iff] at hinit
  rw [Bool.and_eq_true, hinit]
  simp only [Bool.and_eq_true, decide_eq_true_eq, Bool.not_eq_true', decide_eq_false_iff_not]
  omega

theorem states_mAnyState (h : Cs.length < 64) :
    States (ccSequenceSearchObject.mAnyState ⟨Cs⟩) (Set.Iio Cs.length) := by
  intro i
  have hpow : 2 ^ Cs.length < 2 ^ 64 := Nat.pow_lt_pow_right (by omega) h
  have hpos := Nat.two_pow_pos Cs.length
  have hnat : (ccSequenceSearchObject.mAnyState ⟨Cs⟩).toNat = 2 ^ Cs.length - 1 := by
    simp only [ccSequenceSearchObject.mAnyState, ccSequenceSearchObject.mFinalState, mInitState,
      BitVec.toNat_sub, BitVec.toNat_shiftLeft, BitVec.ofNat_eq_ofNat, BitVec.toNat_ofNat,
      Nat.shiftLeft_eq]
    omega
  rw [BitVec.getLsbD, hnat, Nat.testBit_two_pow_sub_one, decide_eq_true_eq, Set.mem_Iio]

theorem found_iff (h : Cs.length < 64) :
    v &&& ccSequenceSearchObject.mFinalState ⟨Cs⟩ ≠ 0 ↔ v.getLsbD Cs.length = true := by
  have hfinal := states_mFinalState h
  constructor
  · intro hne
    by_contra hnot
    refine hne (BitVec.eq_of_getLsbD_eq fun i _ ↦ ?_)
    rw [BitVec.getLsbD_and, bit_zero, Bool.and_eq_false_iff]
    by_cases hi : i = Cs.length
    · rw [hi]
      exact .inl (eq_false_of_ne_true hnot)
    · exact .inr (eq_false_of_ne_true fun hbit ↦ hi ((hfinal i).1 hbit))
  · intro hbit hzero
    have hand : (v &&& ccSequenceSearchObject.mFinalState ⟨Cs⟩).getLsbD Cs.length = true := by
      rw [BitVec.getLsbD_and, hbit, (hfinal _).2 rfl, Bool.and_true]
    rw [hzero, bit_zero] at hand
    cases hand

theorem getLsbD_foldl {α : Type*} (l : List α) (g : α → stateVector_t) (v : stateVector_t) :
    (l.foldl (fun found c ↦ found ||| g c) v).getLsbD i =
      (v.getLsbD i || l.any fun c ↦ (g c).getLsbD i) := by
  induction l generalizing v with
  | nil => exact (Bool.or_false _).symm
  | cons c l ih => rw [List.foldl_cons, ih, BitVec.getLsbD_or, List.any_cons, Bool.or_assoc]

/-- Up to 32 classes the shift is by the number of the class. -/
theorem getLsbD_CC_matches (c : CC) (h : Cs.length ≤ 32) (hi : i < Cs.length) :
    (ccSequenceSearchObject.CC_matches ⟨Cs⟩ c).getLsbD i = true ↔
      ∃ C, Cs[i]? = some C ∧ c.set.intersects C.set = true := by
  rw [ccSequenceSearchObject.CC_matches, getLsbD_foldl, bit_zero, Bool.false_or,
    List.any_eq_true]
  have hbit (b : Bool) (k : ℕ) (hk : k < 32) :
      (((BitVec.ofBool b).setWidth 32 <<< (k % 32)).signExtend 64).getLsbD i = true ↔
        b = true ∧ i = k := by
    rw [Nat.mod_eq_of_lt hk, BitVec.getLsbD_signExtend, if_pos (by omega),
      BitVec.getLsbD_shiftLeft, BitVec.getLsbD_setWidth, BitVec.getLsbD_ofBool]
    simp only [Bool.and_eq_true, decide_eq_true_eq, Bool.not_eq_true', decide_eq_false_iff_not]
    constructor
    · rintro ⟨hlt, hle, h0, hzero, hb⟩
      exact ⟨hb, by omega⟩
    · rintro ⟨hb, rfl⟩
      exact ⟨by omega, by omega, by omega, by omega, hb⟩
  constructor
  · rintro ⟨x, hx, hmatch⟩
    have hget := List.mem_zipIdx_iff_getElem?.1 hx
    have hlt : x.2 < Cs.length := (List.getElem?_eq_some_iff.1 hget).1
    obtain ⟨hinter, rfl⟩ := (hbit _ _ (by omega)).1 hmatch
    exact ⟨x.1, hget, hinter⟩
  · rintro ⟨C, hC, hinter⟩
    exact ⟨(C, i), List.mem_zipIdx_iff_getElem?.2 hC, (hbit _ _ (by omega)).2 ⟨hinter, rfl⟩⟩

end States

section Answers

variable {Cs : List CC} {v next r : stateVector_t} {S T A : Set ℕ} {i n : ℕ}
variable {f : Set ℕ → Set ℕ} {s : stateVector_t → Except Fault stateVector_t} {last : Bool}

/-- The classes are found, or the states are the numbers of a set. Behind the last expression they
need not be. -/
def Answers (Cs : List CC) : Bool → Set ℕ → stateVector_t → Prop
  | false, S, r =>
    r.getLsbD Cs.length = true ∧ Cs.length ∈ S ∨ States r S ∧ S ⊆ Set.Iio Cs.length
  | true, S, r => Cs.length ∈ S → r.getLsbD Cs.length = true

theorem not_mem_of_subset (h : S ⊆ Set.Iio Cs.length) : Cs.length ∉ S :=
  fun hmem ↦ lt_irrefl Cs.length (h hmem)

theorem answers_found (hr : r.getLsbD Cs.length = true) (hS : Cs.length ∈ S) :
    Answers Cs last S r := by
  cases last with
  | false => exact .inl ⟨hr, hS⟩
  | true => exact fun _ ↦ hr

theorem answers_states (hr : States r S) (hS : S ⊆ Set.Iio Cs.length) : Answers Cs last S r := by
  cases last with
  | false => exact .inr ⟨hr, hS⟩
  | true => exact fun hmem ↦ absurd hmem (not_mem_of_subset hS)

theorem Answers.found (h : Answers Cs last S r) (hS : Cs.length ∈ S) :
    r.getLsbD Cs.length = true := by
  cases last with
  | false => exact h.elim (fun h ↦ h.1) fun h ↦ absurd hS (not_mem_of_subset h.2)
  | true => exact h hS

/-- The search makes of the numbers of a set those of another one. -/
def Searches (Cs : List CC) (s : stateVector_t → Except Fault stateVector_t) (last : Bool)
    (S T : Set ℕ) : Prop :=
  ∀ v r, States v S → S ⊆ Set.Iio Cs.length → s v = .ok r → Answers Cs last T r

/-- The further repetitions find the classes, end at a set that does not grow, or are all made. -/
theorem upperLoop_spec (hn : Cs.length < 64) (hv : States v A) (hA : A ⊆ Set.Iio Cs.length)
    (hs : ∀ k < n, Searches Cs s false ((oneMore f)^[k] A) (f ((oneMore f)^[k] A)))
    (hr : upperLoop ⟨Cs⟩ s n v = .ok r) :
    (r.getLsbD Cs.length = true ∧ ∃ j ≤ n, Cs.length ∈ (oneMore f)^[j] A) ∨
      (∃ j < n, (oneMore f)^[j + 1] A = (oneMore f)^[j] A ∧ States r ((oneMore f)^[j] A) ∧
        (oneMore f)^[j] A ⊆ Set.Iio Cs.length) ∨
      (oneMore f)^[n] A ⊆ Set.Iio Cs.length ∧
        ∀ j < n, (oneMore f)^[j + 1] A ≠ (oneMore f)^[j] A := by
  induction n generalizing v A with
  | zero => exact .inr (.inr ⟨hA, fun j hj ↦ absurd hj (Nat.not_lt_zero j)⟩)
  | succ n ih =>
    rw [upperLoop] at hr
    obtain ⟨next, hnext, hr⟩ := bind_eq_ok.1 hr
    dsimp only at hr
    have hanswers := hs 0 (Nat.zero_lt_succ n) v next hv hA hnext
    have hbit : v.getLsbD Cs.length = false :=
      eq_false_of_ne_true fun hbit ↦ not_mem_of_subset hA ((hv _).1 hbit)
    obtain ⟨hfound, hmem⟩ | ⟨hstates, hsub⟩ := hanswers
    · have hor : (v ||| (next ||| v)).getLsbD Cs.length = true := by
        rw [BitVec.getLsbD_or, BitVec.getLsbD_or, hfound, Bool.true_or, Bool.or_true]
      have hne : ¬ next ||| v = v := by
        intro heq
        rw [heq, BitVec.or_self, hbit] at hor
        cases hor
      rw [if_neg hne, if_pos ((found_iff hn).2 hor)] at hr
      obtain rfl := Except.ok.inj hr
      exact .inl ⟨hor, 1, Nat.le_add_left 1 n, .inl hmem⟩
    · have hor : States (next ||| v) (oneMore f A) := hstates.or hv
      have hsub' : oneMore f A ⊆ Set.Iio Cs.length := Set.union_subset hsub hA
      split_ifs at hr with heq hf
      · obtain rfl : v = r := heq.symm.trans (Except.ok.inj hr)
        have hfix : oneMore f A = A := (hor.eq_iff hv).1 heq
        exact .inr (.inl ⟨0, Nat.zero_lt_succ n, hfix, hv, hA⟩)
      · have hbit' := (found_iff hn).1 hf
        rw [BitVec.getLsbD_or, hbit, Bool.false_or] at hbit'
        exact absurd ((hor _).1 hbit') (not_mem_of_subset hsub')
      · have hv' : States (v ||| (next ||| v)) (oneMore f A) := by
          have h := hv.or hor
          have hunion : A ∪ oneMore f A = oneMore f A :=
            Set.union_eq_right.2 Set.subset_union_right
          rwa [hunion] at h
        have hgrows : oneMore f A ≠ A := fun hfix ↦ heq ((hor.eq_iff hv).2 hfix)
        obtain ⟨hbit, j, hj, hmem⟩ | ⟨j, hj, hfix, hstates⟩ | ⟨hend, hne⟩ :=
          ih hv' hsub' (fun k hk ↦ hs (k + 1) (Nat.succ_lt_succ hk)) hr
        · exact .inl ⟨hbit, j + 1, Nat.succ_le_succ hj, hmem⟩
        · exact .inr (.inl ⟨j + 1, Nat.succ_lt_succ hj, hfix, hstates⟩)
        · refine .inr (.inr ⟨hend, fun j hj ↦ ?_⟩)
          cases j with
          | zero => exact hgrows
          | succ j => exact hne j (Nat.lt_of_succ_lt_succ hj)

/-- The required repetitions find the classes, or end at a set that does not change, or are followed
by the further ones. -/
theorem lowerLoop_spec {upper : ℕ} (hn : Cs.length < 64) (hv : States v A)
    (hA : A ⊆ Set.Iio Cs.length) (hs : ∀ k < n, Searches Cs s false (f^[k] A) (f (f^[k] A)))
    (hr : lowerLoop ⟨Cs⟩ s upper n v = .ok r) :
    (r.getLsbD Cs.length = true ∧ ∃ j ≤ n, Cs.length ∈ f^[j] A) ∨
      (∃ j < n, f^[j + 1] A = f^[j] A ∧ States r (f^[j] A) ∧ f^[j] A ⊆ Set.Iio Cs.length) ∨
      (∃ v', States v' (f^[n] A) ∧ f^[n] A ⊆ Set.Iio Cs.length ∧
        upperLoop ⟨Cs⟩ s upper v' = .ok r) ∧ ∀ j < n, f^[j + 1] A ≠ f^[j] A := by
  induction n generalizing v A with
  | zero => exact .inr (.inr ⟨⟨v, hv, hA, hr⟩, fun j hj ↦ absurd hj (Nat.not_lt_zero j)⟩)
  | succ n ih =>
    rw [lowerLoop] at hr
    obtain ⟨next, hnext, hr⟩ := bind_eq_ok.1 hr
    have hanswers := hs 0 (Nat.zero_lt_succ n) v next hv hA hnext
    obtain ⟨hfound, hmem⟩ | ⟨hstates, hsub⟩ := hanswers
    · split_ifs at hr with heq hf
      · obtain rfl := Except.ok.inj hr
        exact .inl ⟨hfound, 1, Nat.le_add_left 1 n, hmem⟩
      · obtain rfl := Except.ok.inj hr
        exact .inl ⟨hfound, 1, Nat.le_add_left 1 n, hmem⟩
      · exact absurd ((found_iff hn).2 hfound) hf
    · split_ifs at hr with heq hf
      · obtain rfl := Except.ok.inj hr
        have hfix : f A = A := (hstates.eq_iff hv).1 heq
        exact .inr (.inl ⟨0, Nat.zero_lt_succ n, hfix, heq ▸ hv, hA⟩)
      · exact absurd ((hstates _).1 ((found_iff hn).1 hf)) (not_mem_of_subset hsub)
      · have hchanges : f A ≠ A := fun hfix ↦ heq ((hstates.eq_iff hv).2 hfix)
        obtain ⟨hbit, j, hj, hmem⟩ | ⟨j, hj, hfix, hstates⟩ | ⟨hend, hne⟩ :=
          ih hstates hsub (fun k hk ↦ hs (k + 1) (Nat.succ_lt_succ hk)) hr
        · exact .inl ⟨hbit, j + 1, Nat.succ_le_succ hj, hmem⟩
        · exact .inr (.inl ⟨j + 1, Nat.succ_lt_succ hj, hfix, hstates⟩)
        · refine .inr (.inr ⟨hend, fun j hj ↦ ?_⟩)
          cases j with
          | zero => exact hchanges
          | succ j => exact hne j (Nat.lt_of_succ_lt_succ hj)

theorem iterate_eq_of_fixed {j k : ℕ} (h : f^[j + 1] A = f^[j] A) (hjk : j ≤ k) :
    f^[k] A = f^[j] A := by
  rw [Function.iterate_succ_apply'] at h
  rw [← Nat.sub_add_cancel hjk, Function.iterate_add_apply, Function.iterate_fixed h]

theorem iterate_oneMore_mono : Monotone fun k ↦ (oneMore f)^[k] A := by
  apply monotone_nat_of_le_succ
  intro k
  rw [Function.iterate_succ_apply']
  exact Set.subset_union_right

/-- A set cannot grow more often than there are numbers. -/
theorem le_of_grows (hend : (oneMore f)^[n] A ⊆ Set.Iio i)
    (hne : ∀ j < n, (oneMore f)^[j + 1] A ≠ (oneMore f)^[j] A) : n ≤ i := by
  have hsub (k : ℕ) (hk : k ≤ n) : (oneMore f)^[k] A ⊆ Set.Iio i :=
    (iterate_oneMore_mono hk).trans hend
  have hfin : (Set.Iio i).Finite := Set.finite_lt_nat i
  have hcard (k : ℕ) (hk : k ≤ n) : k ≤ ((oneMore f)^[k] A).ncard := by
    induction k with
    | zero => exact Nat.zero_le _
    | succ k ih =>
      have hgrows : (oneMore f)^[k] A ⊂ (oneMore f)^[k + 1] A :=
        LE.le.ssubset_of_ne (iterate_oneMore_mono (Nat.le_succ k))
          fun heq ↦ hne k (by omega) heq.symm
      have hfinite := hfin.subset (hsub (k + 1) hk)
      exact (ih (by omega)).trans_lt (Set.ncard_lt_ncard hgrows hfinite)
  have hle := Set.ncard_le_ncard hend hfin
  rw [← Finset.coe_range, Set.ncard_coe_finset, Finset.card_range] at hle
  exact (hcard n le_rfl).trans hle

theorem further_of_lt_upperCount {lb ub : ℤ} {k : ℕ} (h : k < upperCount lb ub) :
    Further lb ub (k + 1) := by
  rw [upperCount] at h
  split_ifs at h with hub
  · exact .inl hub
  · refine .inr ?_
    push_cast
    omega

theorem le_upperCount {lb ub : ℤ} {k : ℕ} (hub : ub ≠ UNBOUNDED_REP) (h : Further lb ub k) :
    k ≤ upperCount lb ub := by
  obtain h | h := h
  · exact absurd h hub
  · rw [upperCount, if_neg hub]
    omega

theorem Further.of_le {lb ub : ℤ} {j k : ℕ} (h : Further lb ub k) (hjk : j ≤ k) :
    Further lb ub j := h.imp_right fun hle ↦ by omega

theorem further_zero {lb ub : ℤ} (hb : Bounds lb ub) : Further lb ub 0 :=
  hb.le.imp_right fun hle ↦ by
    push_cast
    omega

/-- Sets that are the same again are those of all further repetitions. -/
theorem further_eq_of_fixed {lb ub : ℤ} {j : ℕ} (hj : Further lb ub j)
    (h : (oneMore f)^[j + 1] A = (oneMore f)^[j] A) :
    {i | ∃ k, Further lb ub k ∧ i ∈ (oneMore f)^[k] A} = (oneMore f)^[j] A := by
  apply Set.Subset.antisymm
  · rintro i ⟨k, -, hi⟩
    obtain hle | hle := le_total j k
    · rwa [iterate_eq_of_fixed h hle] at hi
    · exact iterate_oneMore_mono hle hi
  · exact fun i hi ↦ ⟨j, hj, hi⟩

theorem answers_rep {lb ub : ℤ} (hn : Cs.length < 64) (hb : Bounds lb ub)
    (hf : ∀ S, Cs.length ∈ S → Cs.length ∈ f S) (hv : States v S) (hS : S ⊆ Set.Iio Cs.length)
    (hlower : ∀ k < lb.toNat, Searches Cs s false (f^[k] S) (f (f^[k] S)))
    (hupper : ∀ k, Further lb ub (k + 1) → Searches Cs s false
      ((oneMore f)^[k] (f^[lb.toNat] S)) (f ((oneMore f)^[k] (f^[lb.toNat] S))))
    (hstop : last = false → Stops Cs f lb ub S)
    (hr : lowerLoop ⟨Cs⟩ s (upperCount lb ub) lb.toNat v = .ok r) :
    Answers Cs last {i | ∃ k, Further lb ub k ∧ i ∈ (oneMore f)^[k] (f^[lb.toNat] S)} r := by
  obtain ⟨hbit, j, hj, hmem⟩ | ⟨j, hj, hfix, hstates, hsub⟩ | ⟨⟨v', hv', hsub, hr⟩, hlowerne⟩ :=
    lowerLoop_spec hn hv hS hlower hr
  · refine answers_found hbit ⟨0, further_zero hb, ?_⟩
    rw [Function.iterate_zero_apply, ← Nat.sub_add_cancel hj, Function.iterate_add_apply]
    exact found_iterate hf hmem _
  · have hend : f^[lb.toNat] S = f^[j] S := iterate_eq_of_fixed hfix hj.le
    have hone : oneMore f (f^[j] S) = f^[j] S := by
      rw [oneMore, ← Function.iterate_succ_apply' f, hfix, Set.union_self]
    rw [hend, further_eq_of_fixed (further_zero hb) hone]
    exact answers_states hstates hsub
  · obtain ⟨hbit, j, hj, hmem⟩ | ⟨j, hj, hfix, hstates, hsub⟩ | ⟨hend, hne⟩ :=
      upperLoop_spec hn hv' hsub (fun k hk ↦ hupper k (further_of_lt_upperCount hk)) hr
    · refine answers_found hbit ⟨j, ?_, hmem⟩
      cases j with
      | zero => exact further_zero hb
      | succ j => exact further_of_lt_upperCount hj
    · rw [further_eq_of_fixed ((further_of_lt_upperCount hj).of_le (Nat.le_succ j)) hfix]
      exact answers_states hstates hsub
    · have hbounded : ub ≠ UNBOUNDED_REP := by
        intro hub
        have hle := le_of_grows hend hne
        rw [upperCount, if_pos hub] at hle
        omega
      have hnot (k : ℕ) (hk : Further lb ub k) :
          Cs.length ∉ (oneMore f)^[k] (f^[lb.toNat] S) :=
        fun hmem ↦ not_mem_of_subset hend (iterate_oneMore_mono (le_upperCount hbounded hk) hmem)
      cases last with
      | true =>
        rintro ⟨k, hk, hmem⟩
        exact absurd hmem (hnot k hk)
      | false =>
        obtain hub | ⟨j, hj, hfix⟩ | ⟨j, hj, hfix⟩ | ⟨k, hk, hmem⟩ := hstop rfl
        · exact absurd hub hbounded
        · exact absurd hfix (hlowerne j hj)
        · exact absurd hfix (hne j (le_upperCount hbounded hj))
        · exact absurd hmem (hnot k hk)

end Answers

section Search

variable {Cs : List CC} {v l r rslt : stateVector_t} {S T U : Set ℕ} {last : Bool}
variable {e lh rh asserted : Expression} {elems : List Expression}

theorem answers_of_le (hr : States r T) (hT : T ⊆ Set.Iic Cs.length) : Answers Cs last T r := by
  by_cases hmem : Cs.length ∈ T
  · exact answers_found ((hr _).2 hmem) hmem
  · refine answers_states hr fun i hi ↦ Set.mem_Iio.2 ((hT hi).lt_of_ne fun heq ↦ hmem ?_)
    rwa [← heq]

/-- If all classes cannot be matched, the states are those of the numbers. -/
theorem Answers.states (h : Answers Cs false T r) (hT : Cs.length ∉ T) : States r T :=
  h.elim (fun hfound ↦ absurd hfound.2 hT) fun hstates ↦ hstates.1

theorem Answers.subset (h : Answers Cs false T r) (hT : Cs.length ∉ T) : T ⊆ Set.Iio Cs.length :=
  h.elim (fun hfound ↦ absurd hfound.2 hT) fun hstates ↦ hstates.2

theorem Answers.mem (h : Answers Cs false T r) (hr : r.getLsbD Cs.length = true) :
    Cs.length ∈ T :=
  h.elim (fun hfound ↦ hfound.2) fun hstates ↦ (hstates.1 _).1 hr

theorem Answers.or (hl : Answers Cs last T l) (hr : Answers Cs last U r) :
    Answers Cs last (T ∪ U) (l ||| r) := by
  have hbit (h : Cs.length ∈ T ∪ U) : (l ||| r).getLsbD Cs.length = true := by
    rw [BitVec.getLsbD_or, Bool.or_eq_true]
    exact h.imp hl.found hr.found
  cases last with
  | true => exact hbit
  | false =>
    by_cases hmem : Cs.length ∈ T ∪ U
    · exact .inl ⟨hbit hmem, hmem⟩
    · rw [Set.mem_union, not_or] at hmem
      exact .inr ⟨(hl.states hmem.1).or (hr.states hmem.2),
        Set.union_subset (hl.subset hmem.1) (hr.subset hmem.2)⟩

theorem subset_Iic (h : S ⊆ Set.Iio Cs.length) : insert 0 S ⊆ Set.Iic Cs.length :=
  Set.insert_subset (Nat.zero_le _) (h.trans Set.Iio_subset_Iic_self)

theorem States.insert_zero (h : States v S) : States (v ||| mInitState) (insert 0 S) := by
  have hor := h.or states_mInitState
  rwa [Set.union_singleton] at hor

theorem States.sdiff (hl : States l T) (hr : States r U) : States (l &&& ~~~r) (T \ U) := by
  intro i
  rw [BitVec.getLsbD_and, Bool.and_eq_true, hl, Set.mem_sdiff, BitVec.getLsbD_not,
    Bool.and_eq_true, Bool.not_eq_true', ← Bool.not_eq_true, hr, decide_eq_true_eq]
  refine and_congr_right fun hi ↦ and_iff_right ?_
  exact BitVec.lt_of_getLsbD ((hl i).2 hi)

/-- A shift by one passes over one character. -/
theorem answers_shifted {A : ℕ → Prop} (hn : Cs.length < 64) (hS : S ⊆ Set.Iio Cs.length)
    (hv : States v {j | j ∈ S ∧ A j}) :
    Answers Cs last (shifted Cs.length A S) (v <<< 1 ||| mInitState) := by
  have hshift : States (v <<< 1) {i | ∃ j ∈ S, A j ∧ i = j + 1} := by
    intro i
    rw [BitVec.getLsbD_shiftLeft]
    simp only [Bool.and_eq_true, decide_eq_true_eq, Bool.not_eq_true', decide_eq_false_iff_not]
    constructor
    · rintro ⟨⟨hi, hpos⟩, hbit⟩
      obtain ⟨hmem, hA⟩ := (hv _).1 hbit
      exact ⟨i - 1, hmem, hA, by omega⟩
    · rintro ⟨j, hj, hA, rfl⟩
      have hlt : j < Cs.length := hS hj
      exact ⟨⟨by omega, by omega⟩, (hv j).2 ⟨hj, hA⟩⟩
  have heq : shifted Cs.length A S = insert 0 {i | ∃ j ∈ S, A j ∧ i = j + 1} := by
    apply Set.ext
    intro i
    refine or_congr_right (or_iff_left ?_)
    exact fun h ↦ not_mem_of_subset hS h.2
  rw [heq]
  refine answers_of_le hshift.insert_zero (Set.insert_subset (Nat.zero_le _) ?_)
  rintro i ⟨j, hj, -, rfl⟩
  exact hS hj

theorem insert_zero_sdiff (h : ∀ i ∈ U, i ∈ T → i = 0) : insert 0 (T \ U) = insert 0 T := by
  apply Set.Subset.antisymm
  · exact Set.insert_subset_insert Set.sdiff_subset
  · rintro i (rfl | hi)
    · exact .inl rfl
    · by_cases hU : i ∈ U
      · exact .inl (h i hU hi)
      · exact .inr ⟨hi, hU⟩

theorem zero_subset_Iic : ({0} : Set ℕ) ⊆ Set.Iic Cs.length :=
  Set.singleton_subset_iff.2 (Nat.zero_le Cs.length)

theorem answers_diff (hl : Answers Cs last T l) (hr : States r U) (hU : Cs.length ∉ U)
    (hkept : last = false → ∀ i ∈ U, i ∈ T → i = 0) :
    Answers Cs last (insert 0 T) (l &&& ~~~r ||| mInitState) := by
  have hbit (h : Cs.length ∈ insert 0 T) :
      (l &&& ~~~r ||| mInitState).getLsbD Cs.length = true := by
    rw [BitVec.getLsbD_or, Bool.or_eq_true]
    obtain hzero | hmem := h
    · exact .inr ((states_mInitState _).2 hzero)
    · have hlbit := hl.found hmem
      have hrbit : r.getLsbD Cs.length = false := eq_false_of_ne_true fun h ↦ hU ((hr _).1 h)
      refine .inl ?_
      rw [BitVec.getLsbD_and, BitVec.getLsbD_not, hlbit, hrbit, Bool.true_and, Bool.not_false,
        Bool.and_true]
      exact decide_eq_true (BitVec.lt_of_getLsbD hlbit)
  by_cases hmem : Cs.length ∈ insert 0 T
  · exact answers_found (hbit hmem) hmem
  · cases last with
    | true => exact hbit
    | false =>
      rw [Set.mem_insert_iff, not_or] at hmem
      have hstates := ((hl.states hmem.2).sdiff hr).insert_zero
      rw [insert_zero_sdiff (hkept rfl)] at hstates
      exact answers_of_le hstates (subset_Iic (hl.subset hmem.2))

theorem answers_intersect (hl : Answers Cs last T l) (hr : Answers Cs last U r)
    (hfound : last = false → (Cs.length ∈ T ↔ Cs.length ∈ U)) :
    Answers Cs last (T ∩ U) (l &&& r) := by
  have hbit (h : Cs.length ∈ T ∩ U) : (l &&& r).getLsbD Cs.length = true := by
    rw [BitVec.getLsbD_and, hl.found h.1, hr.found h.2, Bool.and_true]
  cases last with
  | true => exact hbit
  | false =>
    by_cases hmem : Cs.length ∈ T
    · exact answers_found (hbit ⟨hmem, (hfound rfl).1 hmem⟩) ⟨hmem, (hfound rfl).1 hmem⟩
    · have hmem' : Cs.length ∉ U := fun h ↦ hmem ((hfound rfl).2 h)
      exact .inr ⟨(hl.states hmem).and (hr.states hmem'),
        Set.inter_subset_left.trans (hl.subset hmem)⟩

theorem zero_mem_numbersAlt : 0 ∈ numbersAlt Cs elems S := by
  induction elems with
  | nil => exact .inl rfl
  | cons e elems ih => exact .inr ih

theorem answers_lookbehind {sense : Sense} (hv : States v S) (hS : S ⊆ Set.Iio Cs.length)
    (hr : States r (numbers Cs asserted (Set.Iio Cs.length)))
    (hkept : sense = .Negative →
      ∀ i ∈ S, i ∈ numbers Cs asserted (Set.Iio Cs.length) → i = 0) :
    Answers Cs last (numbers Cs (assertion asserted .LookBehind sense) S)
      (v &&& (if sense = .Negative then ~~~r else r) ||| mInitState) := by
  cases sense with
  | Positive =>
    have hstates := (hv.and hr).insert_zero
    have heq : numbers Cs (assertion asserted .LookBehind .Positive) S =
        insert 0 (S ∩ numbers Cs asserted (Set.Iio Cs.length)) := by
      apply Set.ext
      intro i
      refine or_congr_right (and_congr_right fun _ ↦ or_iff_left ?_)
      exact not_mem_of_subset hS
    rw [heq]
    exact answers_of_le hstates (subset_Iic (Set.inter_subset_left.trans hS))
  | Negative =>
    have hstates := (hv.sdiff hr).insert_zero
    rw [insert_zero_sdiff fun i hi hmem ↦ hkept rfl i hmem hi] at hstates
    exact answers_of_le hstates (subset_Iic hS)

theorem searchAlt_spec (hS : S ⊆ Set.Iio Cs.length) (hv : States v S)
    (h : ∀ e ∈ elems, Searches Cs (search_from_state ⟨Cs⟩ e) last S (numbers Cs e S))
    (hT : 0 ∈ T) (hrslt : Answers Cs last T rslt)
    (hr : searchAlt ⟨Cs⟩ elems v rslt = .ok r) :
    Answers Cs last (T ∪ numbersAlt Cs elems S) r := by
  induction elems generalizing T rslt with
  | nil =>
    obtain rfl := Except.ok.inj hr
    have heq : T ∪ numbersAlt Cs [] S = T := by
      refine Set.union_eq_left.2 fun i hi ↦ ?_
      obtain rfl | hfound := hi
      · exact hT
      · exact absurd hfound.2 (not_mem_of_subset hS)
    rwa [heq]
  | cons e elems ih =>
    obtain ⟨he, helems⟩ := List.forall_mem_cons.1 h
    rw [searchAlt] at hr
    obtain ⟨next, hnext, hr⟩ := bind_eq_ok.1 hr
    have hanswers := ih helems (.inl hT) (hrslt.or (he v next hv hS hnext)) hr
    rwa [Set.union_assoc] at hanswers

theorem searchSeq_spec (hn : Cs.length < 64) (hvalid : ∀ e ∈ elems, e.Valid)
    (hS : S ⊆ Set.Iio Cs.length) (hv : States v S)
    (h : ∀ before e after, elems = before ++ e :: after →
      Cs.length ∉ numbersSeq Cs before S →
        Searches Cs (search_from_state ⟨Cs⟩ e) (last && after.isEmpty) (numbersSeq Cs before S)
          (numbers Cs e (numbersSeq Cs before S)))
    (hr : searchSeq ⟨Cs⟩ elems v = .ok r) : Answers Cs last (numbersSeq Cs elems S) r := by
  induction elems generalizing S v with
  | nil =>
    obtain rfl := Except.ok.inj hr
    exact answers_states hv hS
  | cons e elems ih =>
    obtain ⟨he, helems⟩ := List.forall_mem_cons.1 hvalid
    rw [searchSeq] at hr
    obtain ⟨next, hnext, hr⟩ := bind_eq_ok.1 hr
    have hanswers := h [] e elems rfl (not_mem_of_subset hS) v next hv hS hnext
    cases elems with
    | nil =>
      rw [List.isEmpty_nil, Bool.and_true] at hanswers
      have heq : next = r := by
        split_ifs at hr
        · exact Except.ok.inj hr
        · exact Except.ok.inj hr
      rwa [heq] at hanswers
    | cons e' elems =>
      rw [List.isEmpty_cons, Bool.and_false] at hanswers
      split_ifs at hr with hfound
      · obtain rfl := Except.ok.inj hr
        have hbit := (found_iff hn).1 hfound
        have hmem : Cs.length ∈ numbersSeq Cs (e' :: elems) (numbers Cs e S) :=
          found_numbersSeq (fun x hx ↦ found_numbers (helems x hx)) (hanswers.mem hbit)
        exact answers_found hbit hmem
      · obtain hfound' | hstates := hanswers
        · exact absurd ((found_iff hn).2 hfound'.1) hfound
        · exact ih helems hstates.2 hstates.1 (fun before x after hsplit ↦
            h (e :: before) x after (congrArg (e :: ·) hsplit)) hr

/-- The search does not lose any number on the way through an expression that it handles. -/
theorem answers_of_handled (hn : Cs.length < 64) (h : Handled Cs last e S) (hvalid : e.Valid) :
    Searches Cs (search_from_state ⟨Cs⟩ e) last S (numbers Cs e S) := by
  induction h with
  | alt _ ih =>
    intro v r hv hS hr
    cases hvalid with
    | alt hvs =>
      have hanswers := searchAlt_spec hS hv (fun e he ↦ ih e he (hvs e he))
        (Set.mem_singleton 0)
        (answers_of_le states_mInitState zero_subset_Iic) hr
      rwa [Set.union_eq_right.2 (Set.singleton_subset_iff.2 zero_mem_numbersAlt)] at hanswers
  | any a =>
    intro v r hv hS hr
    obtain rfl := Except.ok.inj hr
    exact answers_shifted hn hS fun i ↦ (hv i).trans (and_iff_left trivial).symm
  | capture n _ ih =>
    cases hvalid with
    | capture _ hre => exact ih hre
  | cc c hlength =>
    intro v r hv hS hr
    obtain rfl := Except.ok.inj hr
    refine answers_shifted hn hS fun i ↦ ?_
    rw [BitVec.getLsbD_and, Bool.and_eq_true, hv, and_comm]
    exact and_congr_right fun hi ↦ getLsbD_CC_matches c hlength (hS hi)
  | @diff last lh rh S _ _ hfound hkept ihl ihr =>
    intro v r hv hS hr
    cases hvalid with
    | diff hvl hvr =>
      obtain ⟨l, hl, hr⟩ := bind_eq_ok.1 hr
      obtain ⟨x, hx, hr⟩ := bind_eq_ok.1 hr
      obtain rfl := Except.ok.inj hr
      have hlh := ihl hvl v l hv hS hl
      have hrh := (ihr hvr v x hv hS hx).states hfound
      exact answers_diff hlh hrh hfound hkept
  | @intersect last lh rh S _ _ hfound ihl ihr =>
    intro v r hv hS hr
    cases hvalid with
    | intersect hvl hvr =>
      obtain ⟨l, hl, hr⟩ := bind_eq_ok.1 hr
      obtain ⟨x, hx, hr⟩ := bind_eq_ok.1 hr
      obtain rfl := Except.ok.inj hr
      exact answers_intersect (ihl hvl v l hv hS hl) (ihr hvr v x hv hS hx) hfound
  | @lookbehind last asserted S sense _ hfound hkept ih =>
    intro v r hv hS hr
    cases hvalid with
    | assertion _ _ ha =>
      obtain ⟨next, hnext, hr⟩ := bind_eq_ok.1 hr
      have hstates := (ih ha _ next (states_mAnyState hn) subset_rfl hnext).states hfound
      obtain rfl := Except.ok.inj hr
      exact answers_lookbehind hv hS hstates hkept
  | name n _ ih =>
    cases hvalid with
    | name _ hd => exact ih (hd _ rfl)
  | propertyExpression kind identifier _ ih =>
    cases hvalid with
    | propertyExpression _ _ hd => exact ih (hd _ rfl)
  | @rep last re lb ub S _ _ hstop ihlower ihupper =>
    intro v r hv hS hr
    cases hvalid with
    | rep hre hb =>
      exact answers_rep hn hb (found_numbers hre) hv hS (fun k hk ↦ ihlower k hk hre)
        (fun k hk ↦ ihupper k hk hre) hstop hr
  | seq _ ih =>
    intro v r hv hS hr
    cases hvalid with
    | seq hvs =>
      exact searchSeq_spec hn hvs hS hv (fun before e after hsplit hmem ↦
        ih before e after hsplit hmem (hvs e (hsplit ▸ List.mem_append_right _
          (List.mem_cons_self ..)))) hr
  | @start last S =>
    intro v r hv hS hr
    obtain rfl := Except.ok.inj hr
    have heq : numbers Cs start S = {0} := by
      apply Set.ext
      intro i
      exact or_iff_left fun h ↦ not_mem_of_subset hS h.2
    rw [heq]
    exact answers_of_le states_mInitState zero_subset_Iic
  | @stop last S =>
    intro v r hv hS hr
    obtain rfl := Except.ok.inj hr
    have hand := hv.and (states_mFinalState hn)
    have heq : S ∩ {Cs.length} = numbers Cs stop S := by
      apply Set.ext
      intro i
      rw [numbers, Set.mem_inter_iff, Set.mem_singleton_iff, Set.mem_ofPred_eq]
      exact ⟨fun h ↦ ⟨h.2, h.2 ▸ h.1⟩, fun h ↦ ⟨h.1 ▸ h.2, h.1⟩⟩
    rw [heq] at hand
    exact answers_of_le hand fun i hi ↦ hi.1.le
  | undefined n =>
    intro v r _ _ hr
    cases hr
  | unprocessed h => exact fun v r _ _ _ hmem ↦ absurd hmem h

end Search

section Empty

variable {v r rslt : stateVector_t} {e : Expression} {elems : List Expression} {ub : ℤ}

theorem initial_bit (v : stateVector_t) : (v ||| mInitState).getLsbD 0 = true := by
  rw [BitVec.getLsbD_or, Bool.or_eq_true]
  exact .inr ((states_mInitState 0).2 rfl)

theorem found_empty (h : v.getLsbD 0 = true) :
    v &&& ccSequenceSearchObject.mFinalState ⟨[]⟩ ≠ 0 := (@found_iff [] v (by decide)).2 h

theorem searchAlt_empty (hrslt : rslt.getLsbD 0 = true)
    (hr : searchAlt ⟨[]⟩ elems v rslt = .ok r) : r.getLsbD 0 = true := by
  induction elems generalizing rslt with
  | nil =>
    obtain rfl := Except.ok.inj hr
    exact hrslt
  | cons e elems ih =>
    rw [searchAlt] at hr
    obtain ⟨next, -, hr⟩ := bind_eq_ok.1 hr
    refine ih ?_ hr
    rw [BitVec.getLsbD_or, hrslt, Bool.true_or]

theorem upperCount_zero_ne (hub : ub ≠ 0) (hle : ub = UNBOUNDED_REP ∨ 0 ≤ ub) :
    upperCount 0 ub ≠ 0 := by
  rw [upperCount]
  split_ifs with h
  · exact Nat.succ_ne_zero 64
  · have hpos := hle.resolve_left h
    omega

/-- The first iteration of the loops finds the empty sequence. -/
theorem upperLoop_empty {step : stateVector_t → Except Fault stateVector_t} {k : ℕ}
    (hv : v.getLsbD 0 = true) (hr : lowerLoop ⟨[]⟩ step (k + 1) 0 v = .ok r) :
    r.getLsbD 0 = true := by
  rw [lowerLoop, upperLoop] at hr
  obtain ⟨next, -, hr⟩ := bind_eq_ok.1 hr
  dsimp only at hr
  have hbit : (v ||| (next ||| v)).getLsbD 0 = true := by
    rw [BitVec.getLsbD_or, hv, Bool.true_or]
  rw [if_pos (found_empty hbit)] at hr
  split_ifs at hr with heq
  · obtain rfl : v = r := heq.symm.trans (Except.ok.inj hr)
    exact hv
  · obtain rfl := Except.ok.inj hr
    exact hbit

theorem lowerLoop_empty {step : stateVector_t → Except Fault stateVector_t} {count k : ℕ}
    (hstep : ∀ next, step v = .ok next → next.getLsbD 0 = true)
    (hr : lowerLoop ⟨[]⟩ step count (k + 1) v = .ok r) : r.getLsbD 0 = true := by
  rw [lowerLoop] at hr
  obtain ⟨next, hnext, hr⟩ := bind_eq_ok.1 hr
  have hbit := hstep next hnext
  rw [if_pos (found_empty hbit)] at hr
  split_ifs at hr
  · obtain rfl := Except.ok.inj hr
    exact hbit
  · obtain rfl := Except.ok.inj hr
    exact hbit

/-- The empty sequence is found. -/
theorem bit_of_processed (h : Processed e) (hvalid : e.Valid) :
    ∀ v r, v.getLsbD 0 = true → search_from_state ⟨[]⟩ e v = .ok r → r.getLsbD 0 = true := by
  induction h with
  | alt elems => exact fun v r _ hr ↦ searchAlt_empty ((states_mInitState 0).2 rfl) hr
  | any a =>
    intro v r _ hr
    obtain rfl := Except.ok.inj hr
    exact initial_bit _
  | capture n _ ih =>
    cases hvalid with
    | capture _ hre => exact ih hre
  | cc c =>
    intro v r _ hr
    obtain rfl := Except.ok.inj hr
    exact initial_bit _
  | diff lh rh =>
    intro v r _ hr
    obtain ⟨l, -, hr⟩ := bind_eq_ok.1 hr
    obtain ⟨x, -, hr⟩ := bind_eq_ok.1 hr
    obtain rfl := Except.ok.inj hr
    exact initial_bit _
  | intersect _ _ ihl ihr =>
    intro v r hv hr
    cases hvalid with
    | intersect hvl hvr =>
      obtain ⟨l, hl, hr⟩ := bind_eq_ok.1 hr
      obtain ⟨x, hx, hr⟩ := bind_eq_ok.1 hr
      obtain rfl := Except.ok.inj hr
      rw [BitVec.getLsbD_and, ihl hvl v l hv hl, ihr hvr v x hv hx, Bool.and_true]
  | lookbehind asserted sense =>
    intro v r _ hr
    obtain ⟨next, -, hr⟩ := bind_eq_ok.1 hr
    obtain rfl := Except.ok.inj hr
    exact initial_bit _
  | name n _ ih =>
    cases hvalid with
    | name _ hd => exact ih (hd _ rfl)
  | nil =>
    intro v r hv hr
    obtain rfl := Except.ok.inj hr
    exact hv
  | propertyExpression kind identifier _ ih =>
    cases hvalid with
    | propertyExpression _ _ hd => exact ih (hd _ rfl)
  | @optional re ub hub =>
    intro v r hv hr
    cases hvalid with
    | rep _ hb =>
      obtain ⟨k, hk⟩ := Nat.exists_eq_succ_of_ne_zero (upperCount_zero_ne hub hb.le)
      rw [search_from_state, hk, Int.toNat_zero] at hr
      exact upperLoop_empty hv hr
  | @rep re lb ub hlb _ ih =>
    intro v r hv hr
    cases hvalid with
    | rep hre hb =>
      obtain ⟨k, hk⟩ : ∃ k, lb.toNat = k + 1 := Nat.exists_eq_succ_of_ne_zero (by omega)
      rw [search_from_state, hk] at hr
      exact lowerLoop_empty (fun next hnext ↦ ih hre v next hv hnext) hr
  | seq elems _ ih =>
    intro v r hv hr
    cases hvalid with
    | seq hvs =>
      rw [search_from_state, searchSeq] at hr
      obtain ⟨next, hnext, hr⟩ := bind_eq_ok.1 hr
      have hbit := ih (hvs _ (List.mem_cons_self ..)) v next hv hnext
      rw [if_pos (found_empty hbit)] at hr
      obtain rfl := Except.ok.inj hr
      exact hbit
  | start =>
    intro v r _ hr
    obtain rfl := Except.ok.inj hr
    exact (states_mInitState 0).2 rfl
  | stop =>
    intro v r hv hr
    obtain rfl := Except.ok.inj hr
    have hfinal := (@states_mFinalState [] (by decide) 0).2 rfl
    rw [BitVec.getLsbD_and, hv, hfinal, Bool.and_true]
  | undefined n =>
    intro v r _ hr
    cases hr

end Empty

section Exact

variable {t : List ℕ} {M : Interpretation Span} {CC_seq : List CC} {re : Expression} {b p q : ℕ}

/-- Where the search does not find the classes, they are not matched within what is matched. -/
theorem not_matched_of_search (hM : WithinText t M) (hCs : ∀ C ∈ CC_seq, C.set.WellFormed)
    (hv : re.Valid) (h : Finds CC_seq re) (hr : CC_Sequence_Search CC_seq re = .ok false)
    (hmatch : denote M re b q) (hb : b + CC_seq.length ≤ p) (hp : p ≤ q) :
    ¬ Matched t CC_seq CC_seq.length p := by
  intro hfound
  rw [CC_Sequence_Search] at hr
  split_ifs at hr with hlength
  obtain ⟨rslt, hrslt, hr⟩ := bind_eq_ok.1 hr
  have hnot : ¬ rslt &&& ccSequenceSearchObject.mFinalState ⟨CC_seq⟩ ≠ 0 :=
    of_decide_eq_false (Except.ok.inj hr)
  rw [found_iff (Nat.lt_of_not_le hlength)] at hnot
  obtain ⟨hne, hhandled⟩ | ⟨rfl, hprocessed⟩ := h
  · have hpos := List.length_pos_of_ne_nil hne
    have hanswers := answers_of_handled (Nat.lt_of_not_le hlength) hhandled hv mInitState rslt
      states_mInitState (Set.singleton_subset_iff.2 hpos) hrslt
    have hcovers := steps_numbers hM hCs hv b {0} b q covers_zero hmatch
    exact hnot (hanswers (hcovers.found p hp hb hfound))
  · exact hnot (bit_of_processed hprocessed hv mInitState rslt ((states_mInitState 0).2 rfl) hrslt)

end Exact

section Example

/-- What is matched within a text without references to what is not given. -/
def spans (t : List ℕ) : Interpretation Span where
  any _ := step fun p ↦ p < t.length
  assertion
    | .LookBehind, .Positive, x => zeroWidth fun p ↦ ∃ q ≤ p, x q p
    | .LookBehind, .Negative, x => zeroWidth fun p ↦ ¬ ∃ q ≤ p, x q p
    | .LookAhead, .Positive, x => zeroWidth fun p ↦ ∃ q, x p q
    | .LookAhead, .Negative, x => zeroWidth fun p ↦ ¬ ∃ q, x p q
  assertion_le k s x := by
    cases k with
    | LookBehind => cases s <;> exact zeroWidth_le_one
    | LookAhead => cases s <;> exact zeroWidth_le_one
  cc _ s := step fun p ↦ ∃ x ∈ t[p]?, x ∈ s
  group _ _ x := x
  one_le_group _ _ _ := Iff.rfl
  property _ _ := ⊥
  range _ _ := ⊥
  reference _ _ x := x
  reference_le _ _ _ := le_rfl
  start := zeroWidth fun p ↦ p = 0
  start_le := zeroWidth_le_one
  stop := zeroWidth fun p ↦ t.length ≤ p
  stop_le := zeroWidth_le_one
  undefined _ := ⊥

theorem withinText_spans (t : List ℕ) : WithinText t (spans t) :=
  ⟨fun _ ↦ le_rfl, fun _ _ ↦ le_rfl, fun _ ↦ le_rfl, le_rfl, le_rfl⟩

theorem spans_cc {t : List ℕ} {p cp : ℕ} (hcp : cp ≤ unicodeMax) (h : t[p]? = some cp) :
    denote (spans t) (cc (codepoint cp)) p (p + 1) := by
  refine ⟨rfl, cp, h, ?_⟩
  rw [members_codepoint hcp]
  rfl

theorem forall₂_codepoint {w : List ℕ} (h : ∀ x ∈ w, x ≤ unicodeMax) :
    List.Forall₂ (fun a (C : CC) ↦ a ∈ C.set.members) w (w.map codepoint) := by
  rw [List.forall₂_map_right_iff, List.forall₂_same]
  intro x hx
  rw [members_codepoint (h x hx)]
  rfl

theorem CC_matches_letters (cp : ℕ) (hcp : cp ≤ unicodeMax) :
    ccSequenceSearchObject.CC_matches ⟨[codepoint 97, codepoint 98]⟩ (codepoint cp) =
      if cp = 97 then 1 else if cp = 98 then 2 else 0 := by
  rw [ccSequenceSearchObject.CC_matches]
  simp only [List.zipIdx_cons, List.zipIdx_nil, List.foldl_cons, List.foldl_nil,
    intersects_codepoint hcp (by decide : 97 ≤ unicodeMax),
    intersects_codepoint hcp (by decide : 98 ≤ unicodeMax)]
  split_ifs with h h'
  · rw [h]
    decide
  · rw [h']
    decide
  · rw [decide_eq_false h, decide_eq_false h']
    decide

end Example

end Parabix.RE.Expression
