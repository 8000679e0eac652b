import Mathlib.Data.Finset.Card
import Mathlib.Data.Finset.Range
import Mathlib.Data.List.Forall2
import Parabix.Library.Increments
import Parabix.Library.Spans
import Parabix.RE.BlockCompiler

namespace Parabix.RE.RE_Compiler

open Library Library.BitStream Library.Spans Library.Powers
open Library.Increments (Variables Step Incremental Idle Loops)
open RE_Block_Compiler (Character Stands Settled stands_iff stands_nextCharacter
  stands_alignMarkers stands_nextCodeUnit alignMarkers_position)

variable {c : RE_Compiler} {t : Text} {m m1 m2 : Marker} {s s' P Acc test : Stream}
  {position : Position} {p q k l n : ℕ} {x y : Span} {front : Bool} {code code' body : Code}
  {V V' : List StarVars}

section Markers

/-- The positions at which a character starts. -/
abbrev Place (t : Text) : Type := {p : ℕ // ∃ q, Character t p q}

/-- The positions that a marker stands before. -/
def marked (t : Text) (m : Marker) : Set (Place t) := {p | Stands t m p.1}

theorem mem_marked {p : Place t} : p ∈ marked t m ↔ Stands t m p.1 := Iff.rfl

/-- The markers are at the ends of characters. A marker for the next code unit may be inside of a
character, if there is one before it. -/
structure Placed (t : Text) (m : Marker) : Prop where
  settled : Settled t m
  index : m.position ≠ .AtNextCodeUnit → ∀ q < t.length, m.stream q = true → t.indexStream q = true

theorem end_ne : Position.AtEnd ≠ .AtNextCodeUnit := by decide

theorem nextChar_ne : Position.AtNextChar ≠ .AtNextCodeUnit := by decide

theorem placed_of_index (hpos : position ≠ .AtNextCodeUnit)
    (h : ∀ q < t.length, s q = true → t.indexStream q = true) : Placed t ⟨s, position⟩ :=
  ⟨fun hunit ↦ absurd hunit hpos, fun _ ↦ h⟩

theorem placed_zeroes : Placed t ⟨fun _ ↦ false, position⟩ :=
  ⟨fun _ _ _ _ _ _ _ hr ↦ absurd hr Bool.false_ne_true,
    fun _ _ _ hs ↦ absurd hs Bool.false_ne_true⟩

theorem stands_bit (hc : Character t p q) :
    Stands t m p ↔ ∃ i, RE_Block_Compiler.bitAt m.position p q = some i ∧ m.stream i = true :=
  stands_iff hc

/-- All characters are in the text. -/
def Bounded (t : Text) : Prop := ∀ q, t.indexStream q = true → q < t.length

theorem Character.start_eq (h : Character t p q) {r : ℕ} (hr : t.indexStream r = true)
    (hp : p ≤ r + 1) (hq : r + 1 ≤ q) : r + 1 = p := by
  by_contra hne
  have hin := h.inside r (by omega) (by omega)
  rw [hr] at hin
  cases hin

theorem Character.first_unique (h : Character t p q) {p' : ℕ} (h' : Character t p' q) :
    p = p' := by
  have hle {p p' : ℕ} (h : Character t p q) (h' : Character t p' q) : p' ≤ p := by
    by_contra hlt
    obtain ⟨r, rfl⟩ := Nat.exists_eq_succ_of_ne_zero (show p' ≠ 0 by omega)
    have hfirst := Character.start_eq h (h'.first r rfl) (by omega) h'.le
    omega
  exact (hle h' h).antisymm (hle h h')

/-- Each end of a character has its start. -/
theorem exists_character (hq : t.indexStream q = true) : ∃ p, Character t p q := by
  induction q with
  | zero =>
    exact ⟨0, le_rfl, hq, fun j h1 h2 ↦ absurd h2 (by omega), fun j hj ↦ absurd hj (by omega)⟩
  | succ q _ =>
    obtain ⟨n, hn⟩ : ∃ n, n = q + 1 := ⟨_, rfl⟩
    have hback (d : ℕ) (hd : d ≤ q + 1) (hin : ∀ j, q + 1 - d ≤ j → j < q + 1 →
        t.indexStream j = false) : ∃ p, Character t p (q + 1) := by
      obtain ⟨e, he⟩ : ∃ e, q + 1 - d = e := ⟨_, rfl⟩
      induction e generalizing d with
      | zero =>
        exact ⟨0, Nat.zero_le _, hq, fun j _ hj ↦ hin j (by omega) hj,
          fun j hj ↦ absurd hj (by omega)⟩
      | succ e ih =>
        by_cases hlast : t.indexStream e = true
        · refine ⟨e + 1, by omega, hq, fun j h1 h2 ↦ hin j (by omega) h2, fun j hj ↦ ?_⟩
          obtain rfl : e = j := by omega
          exact hlast
        · refine ih (d + 1) (by omega) (fun j h1 h2 ↦ ?_) (by omega)
          by_cases hj : j = e
          · rw [hj]
            exact Bool.eq_false_of_not_eq_true hlast
          · exact hin j (by omega) h2
    exact hback 0 (Nat.zero_le _) fun j h1 h2 ↦ absurd h1 (by omega)

theorem placed_nextCharacter (h : Placed t m) : Placed t ⟨NextCharacter t m, .AtNextChar⟩ := by
  refine placed_of_index nextChar_ne fun q hq hs ↦ ?_
  cases hpos : m.position with
  | AtEnd =>
    simp only [NextCharacter, hpos] at hs
    exact (indexedAdvance_iff.1 hs).1
  | AtNextCodeUnit =>
    simp only [NextCharacter, hpos] at hs
    exact (RE_Block_Compiler.scanToIndex_iff.1 hs).1
  | AtNextChar =>
    simp only [NextCharacter, hpos] at hs
    exact h.index (hpos ▸ nextChar_ne) q hq hs

theorem marked_nextCharacter (h : Placed t m) :
    marked t ⟨NextCharacter t m, .AtNextChar⟩ = marked t m := by
  ext ⟨p, q, hc⟩
  exact stands_nextCharacter h.settled hc

theorem placed_nextCodeUnit (hb : Bounded t) (h : Placed t m) (hpos : m.position = .AtEnd) :
    Placed t ⟨NextCodeUnitStream m, .AtNextCodeUnit⟩ := by
  refine ⟨fun _ p q hc r hpr hrq hr ↦ ?_, fun hne ↦ absurd rfl hne⟩
  simp only [NextCodeUnitStream, hpos, advance] at hr ⊢
  split_ifs at hr with hzero
  obtain ⟨r, rfl⟩ := Nat.exists_eq_succ_of_ne_zero (show r ≠ 0 by omega)
  have hlength := hb q hc.last
  have hindex := h.index (hpos ▸ end_ne) r (by omega) hr
  have hp := Character.start_eq hc hindex hpr hrq
  rw [← hp, if_neg hzero]
  exact hr

/-- Aligned markers stand where they stood. -/
theorem alignMarkers_spec (hb : Bounded t) (h1 : Placed t m1) (h2 : Placed t m2) :
    ∃ s1 s2 position, AlignMarkers t m1 m2 = (⟨s1, position⟩, ⟨s2, position⟩) ∧
      Placed t ⟨s1, position⟩ ∧ Placed t ⟨s2, position⟩ ∧
      marked t ⟨s1, position⟩ = marked t m1 ∧ marked t ⟨s2, position⟩ = marked t m2 := by
  have hposition : (AlignMarkers t m1 m2).1.position = (AlignMarkers t m1 m2).2.position :=
    alignMarkers_position
  have hplaced : Placed t (AlignMarkers t m1 m2).1 ∧ Placed t (AlignMarkers t m1 m2).2 := by
    rw [AlignMarkers]
    cases hp1 : m1.position with
    | AtEnd =>
      cases hp2 : m2.position with
      | AtEnd => exact ⟨h1, h2⟩
      | AtNextCodeUnit => exact ⟨placed_nextCodeUnit hb h1 hp1, h2⟩
      | AtNextChar => exact ⟨placed_nextCharacter h1, h2⟩
    | AtNextCodeUnit =>
      cases hp2 : m2.position with
      | AtEnd => exact ⟨h1, placed_nextCodeUnit hb h2 hp2⟩
      | AtNextCodeUnit => exact ⟨h1, h2⟩
      | AtNextChar => exact ⟨placed_nextCharacter h1, h2⟩
    | AtNextChar =>
      cases hp2 : m2.position with
      | AtEnd => exact ⟨h1, placed_nextCharacter h2⟩
      | AtNextCodeUnit => exact ⟨h1, placed_nextCharacter h2⟩
      | AtNextChar => exact ⟨h1, h2⟩
  have hstands (p : Place t) := stands_alignMarkers h1.settled h2.settled p.2.choose_spec
  have hmarked : marked t (AlignMarkers t m1 m2).1 = marked t m1 ∧
      marked t (AlignMarkers t m1 m2).2 = marked t m2 :=
    ⟨Set.ext fun p ↦ (hstands p).1, Set.ext fun p ↦ (hstands p).2⟩
  generalize AlignMarkers t m1 m2 = aligned at hposition hplaced hmarked ⊢
  obtain ⟨⟨s1, position⟩, s2, position'⟩ := aligned
  obtain rfl : position = position' := hposition
  exact ⟨s1, s2, position, rfl, hplaced.1, hplaced.2, hmarked⟩

theorem marked_or : marked t ⟨fun i ↦ s i || s' i, position⟩ =
    marked t ⟨s, position⟩ ∪ marked t ⟨s', position⟩ := by
  ext ⟨p, q, hc⟩
  change Stands t _ p ↔ Stands t _ p ∨ Stands t _ p
  simp only [stands_iff hc]
  cases RE_Block_Compiler.bitAt position p q <;> simp

theorem marked_and : marked t ⟨fun i ↦ s i && s' i, position⟩ =
    marked t ⟨s, position⟩ ∩ marked t ⟨s', position⟩ := by
  ext ⟨p, q, hc⟩
  exact RE_Block_Compiler.stands_and hc

theorem marked_and_not : marked t ⟨fun i ↦ s i && !s' i, position⟩ =
    marked t ⟨s, position⟩ \ marked t ⟨s', position⟩ := by
  ext ⟨p, q, hc⟩
  exact RE_Block_Compiler.stands_and_not hc

theorem marked_zeroes : marked t ⟨fun _ ↦ false, position⟩ = ∅ := by
  ext ⟨p, q, hc⟩
  change Stands t _ p ↔ False
  rw [stands_iff hc]
  simp

theorem Placed.or (h : Placed t ⟨s, position⟩) (h' : Placed t ⟨s', position⟩) :
    Placed t ⟨fun i ↦ s i || s' i, position⟩ := by
  refine ⟨fun hpos p q hc r hp hq hr ↦ ?_, fun hpos q hq hs ↦ ?_⟩
  · rcases Bool.or_eq_true_iff.1 hr with hr | hr
    · exact Bool.or_eq_true_iff.2 (.inl (h.settled hpos p q hc r hp hq hr))
    · exact Bool.or_eq_true_iff.2 (.inr (h'.settled hpos p q hc r hp hq hr))
  · rcases Bool.or_eq_true_iff.1 hs with hs | hs
    · exact h.index hpos q hq hs
    · exact h'.index hpos q hq hs

/-- No marker is where no bit of the text is. -/
theorem marked_eq_empty (hb : Bounded t) (h : (List.range t.length).any m.stream = false) :
    marked t m = ∅ := by
  ext ⟨p, q, hc⟩
  refine iff_of_false (fun hm ↦ ?_) id
  obtain ⟨i, hi, hs⟩ := (stands_bit hc).1 hm
  have hlength := hb q hc.last
  have hle := hc.le
  have hlt : i < t.length := by
    cases hpos : m.position with
    | AtEnd =>
      rw [hpos, RE_Block_Compiler.bitAt] at hi
      split_ifs at hi
      obtain rfl := Option.some.inj hi
      omega
    | AtNextCodeUnit =>
      rw [hpos, RE_Block_Compiler.bitAt] at hi
      obtain rfl := Option.some.inj hi
      omega
    | AtNextChar =>
      rw [hpos, RE_Block_Compiler.bitAt] at hi
      obtain rfl := Option.some.inj hi
      omega
  exact List.any_eq_false.1 h i (List.mem_range.2 hlt) hs

end Markers

section Relations

/-- What is matched between the starts of characters. -/
def within (t : Text) (x : Span) : Place t → Place t → Prop := fun p q ↦ x p.1 q.1

/-- What is matched up to the start of a character is matched from the start of one. -/
def Followed (t : Text) (x : Span) : Prop :=
  ∀ p q, x p q → (∃ r, Character t q r) → ∃ r, Character t p r

theorem Followed.mono (h : Followed t y) (hle : x ≤ y) : Followed t x :=
  fun p q hx ↦ h p q (hle p q hx)

theorem followed_one : Followed t 1 := by
  rintro p q rfl hq
  exact hq

theorem Followed.mul (hx : Followed t x) (hy : Followed t y) : Followed t (x * y) := by
  rintro p q ⟨m, hm, hq⟩ hplace
  exact hx p m hm (hy m q hq hplace)

theorem Followed.sup (hx : Followed t x) (hy : Followed t y) : Followed t (x ⊔ y) := by
  rintro p q (h | h) hplace
  · exact hx p q h hplace
  · exact hy p q h hplace

theorem Followed.pow (hx : Followed t x) (n : ℕ) : Followed t (x ^ n) := by
  induction n with
  | zero =>
    rw [pow_zero]
    exact followed_one
  | succ n ih =>
    rw [pow_succ]
    exact ih.mul hx

theorem Followed.powers (hx : Followed t x) (S : Set ℕ) : Followed t (Powers.powers x S) := by
  intro p q h hplace
  obtain ⟨n, -, hn⟩ := powers_apply.1 h
  exact hx.pow n p q hn hplace

theorem within_one : within t 1 = Eq := by
  funext p q
  exact propext Subtype.ext_iff.symm

theorem within_mul (hy : Followed t y) :
    within t (x * y) = Relation.Comp (within t x) (within t y) := by
  funext p q
  refine propext ⟨?_, ?_⟩
  · rintro ⟨m, hm, hq⟩
    exact ⟨⟨m, hy m q.1 hq q.2⟩, hm, hq⟩
  · rintro ⟨m, hm, hq⟩
    exact ⟨m.1, hm, hq⟩

theorem within_sup : within t (x ⊔ y) = within t x ⊔ within t y := rfl

theorem within_star (hx : Followed t x) :
    within t (Powers.powers x Set.univ) = Relation.ReflTransGen (within t x) := by
  funext p q
  refine propext ⟨fun h ↦ ?_, fun h ↦ ?_⟩
  · obtain ⟨n, -, hn⟩ := powers_apply.1 h
    induction n generalizing q with
    | zero =>
      obtain rfl : p = q := Subtype.ext hn
      exact .refl
    | succ n ih =>
      rw [pow_succ] at hn
      obtain ⟨r, hr, hq⟩ := hn
      have hplace := hx r q.1 hq q.2
      exact (ih ⟨r, hplace⟩ (powers_apply.2 ⟨n, trivial, hr⟩) hr).tail hq
  · induction h with
    | refl => exact powers_apply.2 ⟨0, trivial, rfl⟩
    | tail _ hq ih =>
      obtain ⟨n, -, hn⟩ := powers_apply.1 ih
      refine powers_apply.2 ⟨n + 1, trivial, ?_⟩
      rw [pow_succ]
      exact ⟨_, hn, hq⟩

theorem image_eq (A : Set (Place t)) : Increments.image Eq A = A := by
  ext p
  constructor
  · rintro ⟨q, hq, rfl⟩
    exact hq
  · intro hp
    exact ⟨p, hp, rfl⟩

end Relations

section Realizes

/-- The places that the variables of a repetition stand for. -/
def places (t : Text) (v : StarVars) : Variables (Place t) :=
  ⟨marked t ⟨v.starPending, .AtNextChar⟩, marked t ⟨v.starAccum, .AtNextChar⟩⟩

/-- The variables are at the last code units of characters. -/
def Kept (t : Text) (V : List StarVars) : Prop :=
  ∀ v ∈ V, Placed t ⟨v.starPending, .AtNextChar⟩ ∧ Placed t ⟨v.starAccum, .AtNextChar⟩

/-- All that is pending has been found in the last round. -/
structure Grown (v v' : StarVars) : Prop where
  accum (p : ℕ) : v.starAccum p = true → v'.starAccum p = true
  pending (p : ℕ) : v'.starPending p = true → v'.starAccum p = true ∧ v.starAccum p = false

/-- An expression that begins with an anchor needs markers at the starts of all regions. -/
def Entered (c : RE_Compiler) (front : Bool) (m : Marker) : Prop :=
  front = true → ∀ p : Place c.text, c.regions.regionStart p.1 = true → p ∈ marked c.text m

theorem entered_false : Entered c false m := fun h ↦ absurd h Bool.false_ne_true

/-- The code has made a step. -/
structure Made (t : Text) (step : Step (Place t)) (m : Marker) (V : List StarVars) (m' : Marker)
    (V' : List StarVars) : Prop where
  placed : Placed t m'
  kept : Kept t V'
  grown : List.Forall₂ Grown V V'
  step : step (marked t m) (V.map (places t)) (marked t m') (V'.map (places t))

/-- The code finds what an expression matches, in the rounds of a loop if it has repetitions
there. -/
structure Realizes (c : RE_Compiler) (front : Bool) (code : Code) (x : Span) (k : ℕ) : Prop where
  followed : Followed c.text x
  steps : ∃ step, Incremental (within c.text x) k step ∧ ∀ m V rest, V.length = k →
    Placed c.text m → Kept c.text V → Entered c front m →
      ∃ m' V', code m (V ++ₛ rest) = some ⟨m', V', rest⟩ ∧ Made c.text step m V m' V'

theorem Realizes.enter (h : Realizes c false code x k) (front : Bool) :
    Realizes c front code x k := by
  obtain ⟨step, hstep, hcode⟩ := h.steps
  exact ⟨h.followed, step, hstep, fun m V rest hV hm hkept _ ↦
    hcode m V rest hV hm hkept entered_false⟩

/-- Code that needs no variables. -/
theorem Realizes.of_exact (hx : Followed c.text x)
    (h : ∀ m vars, Placed c.text m → Entered c front m → ∃ m', code m vars = some ⟨m', [], vars⟩ ∧
      Placed c.text m' ∧ marked c.text m' = Increments.image (within c.text x) (marked c.text m)) :
    Realizes c front code x 0 := by
  refine ⟨hx, _, Increments.incremental_exact _, fun m V rest hV hm _ hfront ↦ ?_⟩
  obtain rfl := List.length_eq_zero_iff.1 hV
  obtain ⟨m', hcode, hplaced, hmarked⟩ := h m rest hm hfront
  exact ⟨m', [], hcode, hplaced, fun v hv ↦ absurd hv List.not_mem_nil, .nil, rfl, rfl, hmarked⟩

theorem Realizes.exact (h : Realizes c front code x 0) (vars : Stream' StarVars)
    (hm : Placed c.text m) (hfront : Entered c front m) :
    ∃ m', code m vars = some ⟨m', [], vars⟩ ∧ Placed c.text m' ∧
      marked c.text m' = Increments.image (within c.text x) (marked c.text m) := by
  obtain ⟨step, hstep, hcode⟩ := h.steps
  obtain ⟨m', V', hcall, hmade⟩ :=
    hcode m [] vars rfl hm (fun v hv ↦ absurd hv List.not_mem_nil) hfront
  obtain rfl := List.forall₂_nil_left_iff.1 hmade.grown
  exact ⟨m', hcall, hmade.placed, (hstep.exact hmade.step).2⟩

theorem realizes_pure {f : Marker → Marker} (hx : Followed c.text x)
    (h : ∀ m, Placed c.text m → Entered c front m → Placed c.text (f m) ∧
      marked c.text (f m) = Increments.image (within c.text x) (marked c.text m)) :
    Realizes c front (Code.pure f) x 0 :=
  .of_exact hx fun m _ hm hfront ↦ ⟨f m, rfl, h m hm hfront⟩

theorem realizes_id : Realizes c front (Code.pure id) 1 0 := by
  refine realizes_pure followed_one fun m hm _ ↦ ⟨hm, ?_⟩
  rw [within_one, image_eq]
  rfl

/-- The variables of the first of two parts come before those of the second. -/
theorem Kept.split {V : List StarVars} (hkept : Kept t V) (hV : V.length = k + l) :
    ∃ V1 V2, V = V1 ++ V2 ∧ V1.length = k ∧ V2.length = l ∧ Kept t V1 ∧ Kept t V2 := by
  refine ⟨V.take k, V.drop k, (List.take_append_drop k V).symm, ?_, ?_,
    fun v hv ↦ hkept v (List.mem_of_mem_take hv), fun v hv ↦ hkept v (List.mem_of_mem_drop hv)⟩
  · rw [List.length_take]
    omega
  · rw [List.length_drop]
    omega

theorem Kept.append {V V' : List StarVars} (h : Kept t V) (h' : Kept t V') : Kept t (V ++ V') := by
  intro v hv
  exact (List.mem_append.1 hv).elim (h v) (h' v)

theorem Realizes.andThen (h : Realizes c front code x k) (h' : Realizes c false code' y l) :
    Realizes c front (code.andThen code') (x * y) (k + l) := by
  obtain ⟨step, hstep, hcode⟩ := h.steps
  obtain ⟨step', hstep', hcode'⟩ := h'.steps
  refine ⟨h.followed.mul h'.followed, step.comp k step', ?_,
    fun m V rest hV hm hkept hfront ↦ ?_⟩
  · rw [within_mul h'.followed]
    exact hstep.comp hstep'
  · obtain ⟨V1, V2, rfl, hV1, hV2, hkept1, hkept2⟩ := hkept.split hV
    obtain ⟨m1, V1', hcall, hmade⟩ := hcode m V1 (V2 ++ₛ rest) hV1 hm hkept1 hfront
    obtain ⟨m2, V2', hcall', hmade'⟩ :=
      hcode' m1 V2 rest hV2 hmade.placed hkept2 entered_false
    refine ⟨m2, V1' ++ V2', ?_, hmade'.placed, hmade.kept.append hmade'.kept,
      List.rel_append hmade.grown hmade'.grown, _, _, _, _, _, List.map_append, List.map_append,
      (List.length_map _).trans hV1, hmade.step, hmade'.step⟩
    rw [Code.andThen, Stream'.append_append_stream, hcall]
    simp [hcall']

theorem Realizes.repeated (h : Realizes c false code x k) (front : Bool) (n : ℕ) :
    Realizes c front (code.repeated n) (x ^ n) (n * k) := by
  induction n generalizing front with
  | zero =>
    rw [pow_zero, Nat.zero_mul]
    exact realizes_id
  | succ n ih =>
    rw [pow_succ', Nat.succ_mul, Nat.add_comm (n * k)]
    exact (h.enter front).andThen (ih false)

/-- A branch on the markers makes no difference. -/
theorem Realizes.createIf (hb : Bounded c.text) (h : Realizes c front code x 0) :
    Realizes c front (code.createIf c.text) x 0 := by
  refine .of_exact h.followed fun m vars hm hfront ↦ ?_
  obtain ⟨m', hcall, hplaced, hmarked⟩ := h.exact vars hm hfront
  refine ⟨⟨RE.createIf c.text m.stream m'.stream, m'.position⟩, ?_, ?_⟩
  · rw [Code.createIf, hcall]
    rfl
  · rw [RE.createIf]
    split_ifs with hany
    · exact ⟨hplaced, hmarked⟩
    · have hempty := marked_eq_empty hb (Bool.eq_false_of_not_eq_true hany)
      refine ⟨placed_zeroes, ?_⟩
      rw [marked_zeroes, hempty, Increments.image_empty]

end Realizes

section Bounds

/-- Few repetitions are made one after the other, and more of them in branches. -/
theorem Realizes.expandLowerBound (hb : Bounded c.text) (h : Realizes c false code x k)
    (front : Bool) (lb : ℕ) (ifGroupSize : ℕ+) (hk : k = 0 ∨ lb ≤ ifGroupSize) :
    Realizes c front (c.expandLowerBound code lb ifGroupSize) (x ^ lb) (lb * k) := by
  induction lb using Nat.strongRecOn generalizing front ifGroupSize with
  | ind lb ih =>
    rw [RE_Compiler.expandLowerBound]
    split_ifs with hgroup
    · rw [← hgroup]
      exact h.repeated front lb
    · have hpos := ifGroupSize.pos
      have hmin : min (ifGroupSize : ℕ) lb = ifGroupSize := by omega
      obtain rfl : k = 0 := by omega
      have hrest := ih (lb - ifGroupSize) (by omega) false (ifGroupSize * 2) (.inl rfl)
      have hall := (h.repeated front ifGroupSize).andThen (hrest.createIf hb)
      rw [← pow_add, Nat.add_sub_cancel' (by omega)] at hall
      rw [hmin]
      exact hall

/-- Markers of both kinds. -/
theorem createOrAligned_spec (hb : Bounded c.text) (h1 : Placed c.text m1)
    (h2 : Placed c.text m2) : Placed c.text (c.createOrAligned m1 m2) ∧
      marked c.text (c.createOrAligned m1 m2) = marked c.text m1 ∪ marked c.text m2 := by
  obtain ⟨s1, s2, position, haligned, hs1, hs2, hmarked1, hmarked2⟩ := alignMarkers_spec hb h1 h2
  rw [createOrAligned, haligned]
  refine ⟨hs1.or hs2, ?_⟩
  rw [marked_or, hmarked1, hmarked2]

/-- What was found, or no repetition. -/
theorem Realizes.orNone (h : Realizes c front code x k) (combined : Marker → Marker → Marker)
    (hcall : ∀ m vars result, code m vars = some result →
      code' m vars = some { result with marker := combined m result.marker })
    (hcombined : ∀ m m', Placed c.text m → Placed c.text m' → Placed c.text (combined m m') ∧
      marked c.text (combined m m') = marked c.text m' ∪ marked c.text m) :
    Realizes c front code' (x ⊔ 1) k := by
  obtain ⟨step, hstep, hcode⟩ := h.steps
  refine ⟨h.followed.sup followed_one, step.sup k (.exact Eq), ?_,
    fun m V rest hV hm hkept hfront ↦ ?_⟩
  · rw [within_sup, within_one]
    exact hstep.sup (Increments.incremental_exact Eq)
  · obtain ⟨m', V', hm', hmade⟩ := hcode m V rest hV hm hkept hfront
    obtain ⟨hplaced, hmarked⟩ := hcombined m m' hm hmade.placed
    exact ⟨_, V', hcall m _ _ hm', hplaced, hmade.kept, hmade.grown, _, [], _, _, _, [],
      (List.append_nil _).symm, (List.append_nil _).symm, (List.length_map _).trans hV, hmarked,
      hmade.step, rfl, rfl, (image_eq _).symm⟩

theorem Realizes.processOrNone (hb : Bounded c.text) (h : Realizes c false code x k) :
    Realizes c false (c.processOrNone code) (x ⊔ 1) k := by
  refine h.orNone (fun m m' ↦ c.createOrAligned m' m) (fun m vars result hm ↦ ?_)
    fun m m' hm hm' ↦ createOrAligned_spec hb hm' hm
  rw [RE_Compiler.processOrNone, hm]
  rfl

theorem Realizes.expandUpperBound (hb : Bounded c.text) (h : Realizes c false code x k)
    (front : Bool) (ub : ℕ) (ifGroupSize : ℕ+) (hk : k = 0 ∨ ub ≤ ifGroupSize) :
    Realizes c front (c.expandUpperBound code ub ifGroupSize) ((x ⊔ 1) ^ ub) (ub * k) := by
  induction ub using Nat.strongRecOn generalizing front ifGroupSize with
  | ind ub ih =>
    rw [RE_Compiler.expandUpperBound]
    split_ifs with hgroup
    · rw [← hgroup]
      exact (h.processOrNone hb).repeated front ub
    · have hpos := ifGroupSize.pos
      have hmin : min (ifGroupSize : ℕ) ub = ifGroupSize := by omega
      obtain rfl : k = 0 := by omega
      have hrest := ih (ub - ifGroupSize) (by omega) false (ifGroupSize * 2) (.inl rfl)
      have hall := ((h.processOrNone hb).repeated front ifGroupSize).andThen (hrest.createIf hb)
      rw [← pow_add, Nat.add_sub_cancel' (by omega)] at hall
      rw [hmin]
      exact hall

end Bounds

section Stars

theorem marked_next_or {s : Stream} (hm : Placed t m) :
    marked t ⟨fun p ↦ NextCharacter t m p || s p, .AtNextChar⟩ =
      marked t m ∪ marked t ⟨s, .AtNextChar⟩ := by
  rw [marked_or, marked_nextCharacter hm]

/-- A repetition in the body of a loop. -/
theorem Realizes.compileStar (h : Realizes c false body x k) (front : Bool) :
    Realizes c front (c.compileStar body) (powers x Set.univ) (k + 1) := by
  obtain ⟨step, hstep, hcode⟩ := h.steps
  refine ⟨h.followed.powers Set.univ, step.star, ?_, fun m V rest hV hm hkept hfront ↦ ?_⟩
  · rw [within_star h.followed]
    exact hstep.star
  · obtain ⟨v, W, rfl⟩ := List.exists_cons_of_length_eq_add_one hV
    obtain ⟨hpending, haccum⟩ := hkept v List.mem_cons_self
    have hbase := placed_nextCharacter hm
    have hm2 := hbase.or haccum
    obtain ⟨m', W', hcall, hmade⟩ := hcode _ W rest (Nat.succ.inj hV) (hbase.or hpending)
      (fun w hw ↦ hkept w (List.mem_cons_of_mem v hw)) entered_false
    have hloop := placed_nextCharacter hmade.placed
    have hfound := hloop.or hm2
    refine ⟨_, ⟨fun p ↦ NextCharacter c.text m' p && !(NextCharacter c.text m p || v.starAccum p),
        fun p ↦ NextCharacter c.text m' p || (NextCharacter c.text m p || v.starAccum p)⟩ :: W', ?_,
      hbase.or hfound, ?_, .cons ⟨fun p hp ↦ ?_, fun p hp ↦ ?_⟩ hmade.grown,
      ⟨places c.text v, W.map (places c.text), marked c.text m', W'.map (places c.text), rfl, ?_,
        ?_, ?_⟩⟩
    · rw [RE_Compiler.compileStar]
      simp only [Stream'.cons_append_stream, Stream'.head_cons, Stream'.tail_cons, hcall]
      rfl
    · intro w hw
      rcases List.mem_cons.1 hw with rfl | hw
      · exact ⟨placed_of_index nextChar_ne fun q hq hs ↦
          hloop.index nextChar_ne q hq (Bool.and_eq_true_iff.1 hs).1, hfound⟩
      · exact hmade.kept w hw
    · simp only [Bool.or_eq_true]
      exact .inr (.inr hp)
    · simp only [Bool.and_eq_true, Bool.not_eq_true', Bool.or_eq_false_iff] at hp
      simp only [Bool.or_eq_true]
      exact ⟨.inl hp.1, hp.2.2⟩
    · have hstep' := hmade.step
      rw [marked_next_or hm] at hstep'
      exact hstep'
    · rw [List.map_cons]
      congr 1
      simp only [places]
      rw [marked_and_not, marked_next_or hmade.placed, marked_next_or hm,
        marked_nextCharacter hmade.placed]
    · rw [marked_next_or hm, marked_next_or hmade.placed, marked_next_or hm]
      rfl

end Stars

section Loops

/-- How many positions of the text are not in a stream. -/
def missing (t : Text) (s : Stream) : ℕ := ((Finset.range t.length).filter fun p ↦ s p = false).card

theorem missing_le : missing t s ≤ t.length := by
  refine (Finset.card_filter_le _ _).trans ?_
  rw [Finset.card_range]

theorem missing_mono (h : ∀ p, s p = true → s' p = true) : missing t s' ≤ missing t s := by
  refine Finset.card_le_card fun p hp ↦ ?_
  simp only [Finset.mem_filter] at hp ⊢
  refine ⟨hp.1, Bool.eq_false_of_not_eq_true fun hs ↦ ?_⟩
  exact absurd (h p hs) (by rw [hp.2]; exact Bool.false_ne_true)

theorem missing_lt (h : ∀ p, s p = true → s' p = true) {p : ℕ} (hp : p < t.length)
    (hs : s p = false) (hs' : s' p = true) : missing t s' < missing t s := by
  refine Finset.card_lt_card (Finset.ssubset_iff_subset_ne.2 ⟨fun i hi ↦ ?_, fun heq ↦ ?_⟩)
  · simp only [Finset.mem_filter] at hi ⊢
    refine ⟨hi.1, Bool.eq_false_of_not_eq_true fun hs ↦ ?_⟩
    exact absurd (h i hs) (by rw [hi.2]; exact Bool.false_ne_true)
  · have hmem : p ∈ (Finset.range t.length).filter fun p ↦ s' p = false := by
      rw [heq]
      exact Finset.mem_filter.2 ⟨Finset.mem_range.2 hp, hs⟩
    rw [(Finset.mem_filter.1 hmem).2] at hs'
    exact Bool.false_ne_true hs'

/-- How many positions the variables of repetitions can still find. -/
def unfound (t : Text) (V : List StarVars) : ℕ := (V.map fun v ↦ missing t v.starAccum).sum

theorem unfound_le : unfound t V ≤ V.length * t.length := by
  induction V with
  | nil => exact Nat.zero_le _
  | cons v V ih =>
    have hle := missing_le (t := t) (s := v.starAccum)
    simp only [unfound, List.map_cons, List.sum_cons, List.length_cons, Nat.succ_mul] at ih ⊢
    omega

/-- Where something is pending something has been found. -/
theorem unfound_grown (h : List.Forall₂ Grown V V') : unfound t V' ≤ unfound t V ∧
    ((∃ v ∈ V', ∃ p < t.length, v.starPending p = true) → unfound t V' < unfound t V) := by
  induction h with
  | nil =>
    refine ⟨le_rfl, ?_⟩
    rintro ⟨v, hv, -⟩
    exact absurd hv List.not_mem_nil
  | @cons v v' V V' hv _ ih =>
    have hmono := missing_mono (t := t) hv.accum
    simp only [unfound, List.map_cons, List.sum_cons] at ih ⊢
    refine ⟨by omega, ?_⟩
    rintro ⟨w, hw, p, hp, hpending⟩
    rcases List.mem_cons.1 hw with rfl | hw
    · obtain ⟨hafter, hbefore⟩ := hv.pending p hpending
      have hlt := missing_lt hv.accum hp hbefore hafter
      omega
    · have hlt := ih.2 ⟨w, hw, p, hp, hpending⟩
      omega

/-- A loop goes on while anything is pending. -/
def Tests (test P : Stream) (V : List StarVars) : Prop :=
  ∀ p, test p = true ↔ P p = true ∨ ∃ v ∈ V, v.starPending p = true

theorem tests_stars : Tests (fun p ↦
    V.foldl (fun test star p ↦ test p || star.starPending p) (fun _ ↦ false) p || P p) P V := by
  have hfold (V : List StarVars) (s : Stream) (p : ℕ) :
      V.foldl (fun test star p ↦ test p || star.starPending p) s p = true ↔
        s p = true ∨ ∃ v ∈ V, v.starPending p = true := by
    induction V generalizing s with
    | nil => simp
    | cons v V ih =>
      rw [List.foldl_cons, ih]
      simp [or_assoc]
  intro p
  rw [Bool.or_eq_true, hfold]
  simp [or_comm]

/-- Nothing is pending where the test fails. -/
theorem Tests.idle (hb : Bounded t) (h : Tests test P V)
    (hnone : (List.range t.length).any test = false) :
    marked t ⟨P, .AtNextChar⟩ = ∅ ∧ Idle (V.map (places t)) := by
  have hout (p : ℕ) (hp : p < t.length) : ¬ test p = true :=
    List.any_eq_false.1 hnone p (List.mem_range.2 hp)
  have hempty (s : Stream) (hs : ∀ p, s p = true → test p = true) :
      marked t ⟨s, .AtNextChar⟩ = ∅ :=
    marked_eq_empty hb (List.any_eq_false.2 fun p hp hsp ↦
      hout p (List.mem_range.1 hp) (hs p hsp))
  refine ⟨hempty P fun p hp ↦ (h p).2 (.inl hp), fun w hw ↦ ?_⟩
  obtain ⟨v, hv, rfl⟩ := List.mem_map.1 hw
  exact hempty v.starPending fun p hp ↦ (h p).2 (.inr ⟨v, hv, hp⟩)

theorem Tests.finds (h : Tests test P V) (hany : (List.range t.length).any test = true) :
    ∃ p < t.length, P p = true ∨ ∃ v ∈ V, v.starPending p = true := by
  obtain ⟨p, hp, htest⟩ := List.any_eq_true.1 hany
  exact ⟨p, List.mem_range.1 hp, (h p).1 htest⟩

/-- With enough fuel a loop ends: a round after which something is pending has found something. -/
theorem whileLoop_ends (hb : Bounded c.text) {step : Step (Place c.text)}
    (hcode : ∀ m V rest, V.length = k → Placed c.text m → Kept c.text V →
      ∃ m' V', body m (V ++ₛ rest) = some ⟨m', V', rest⟩ ∧ Made c.text step m V m' V')
    (hV : V.length = k) (hkept : Kept c.text V) (hP : Placed c.text ⟨P, .AtNextChar⟩)
    (hAcc : Placed c.text ⟨Acc, .AtNextChar⟩) (htest : Tests test P V) {fuel : ℕ} (hpos : 0 < fuel)
    (hfuel : (List.range c.text.length).any test = true →
      missing c.text Acc + unfound c.text V + 1 < fuel) :
    ∃ B, c.whileLoop body fuel test P Acc V = some B ∧ Placed c.text ⟨B, .AtNextChar⟩ ∧
      Loops step (marked c.text ⟨P, .AtNextChar⟩) (marked c.text ⟨Acc, .AtNextChar⟩)
        (V.map (places c.text)) (marked c.text ⟨B, .AtNextChar⟩) := by
  induction fuel generalizing test P Acc V with
  | zero => exact absurd hpos (Nat.lt_irrefl 0)
  | succ fuel ih =>
    by_cases hany : (List.range c.text.length).any test = true
    · obtain ⟨m', V', hcall, hmade⟩ := hcode _ V (Stream'.const .zeroes) hV hP hkept
      have hloop := placed_nextCharacter hmade.placed
      have hAcc' := hloop.or hAcc
      have hP' := placed_of_index (s := fun p ↦ NextCharacter c.text m' p && !Acc p) nextChar_ne
        fun q hq hs ↦ hloop.index nextChar_ne q hq (Bool.and_eq_true_iff.1 hs).1
      have hgrown (p : ℕ) (hp : Acc p = true) : (NextCharacter c.text m' p || Acc p) = true := by
        rw [hp, Bool.or_true]
      have hmono := missing_mono (t := c.text) hgrown
      obtain ⟨hunfound, hpending⟩ := unfound_grown (t := c.text) hmade.grown
      have hround := hfuel hany
      obtain ⟨B, hB, hplaced, hloops⟩ := ih (hmade.grown.length_eq.symm.trans hV) hmade.kept hP'
        hAcc' tests_stars (by omega) fun hmore ↦ by
          obtain ⟨p, hp, hfound | hfound⟩ := tests_stars.finds hmore
          · rw [Bool.and_eq_true, Bool.not_eq_true'] at hfound
            have hlt := missing_lt hgrown hp hfound.2 (by rw [hfound.1, Bool.true_or])
            omega
          · obtain ⟨v, hv, hp'⟩ := hfound
            have hlt := hpending ⟨v, hv, p, hp, hp'⟩
            omega
      refine ⟨B, ?_, hplaced, .round hmade.step ?_⟩
      · rw [whileLoop, if_pos hany, hcall]
        exact hB
      · rw [marked_and_not, marked_or, marked_nextCharacter hmade.placed] at hloops
        exact hloops
    · have hnone := Bool.eq_false_of_not_eq_true hany
      obtain ⟨hempty, hidle⟩ := htest.idle hb hnone
      refine ⟨Acc, ?_, hAcc, .done hempty hidle⟩
      rw [whileLoop, hnone]
      rfl

theorem replicate_append_const (k : ℕ) (v : StarVars) :
    List.replicate k v ++ₛ Stream'.const v = Stream'.const v := by
  induction k with
  | zero => rfl
  | succ k ih =>
    rw [List.replicate_succ, Stream'.cons_append_stream, ih]
    exact (Stream'.const_eq v).symm

/-- A loop finds all repetitions, with those within its body. -/
theorem Realizes.whileLoop (hb : Bounded c.text) (h : Realizes c false body x k) {fuel : ℕ}
    (hfuel : (k + 1) * c.text.length + 2 ≤ fuel)
    (hm : Placed c.text m) : ∃ B, c.whileLoop body fuel (NextCharacter c.text m)
        (NextCharacter c.text m) (NextCharacter c.text m) [] = some B ∧
      Placed c.text ⟨B, .AtNextChar⟩ ∧ marked c.text ⟨B, .AtNextChar⟩ =
        Increments.image (within c.text (powers x Set.univ)) (marked c.text m) := by
  obtain ⟨step, hstep, hcode⟩ := h.steps
  have hbase := placed_nextCharacter hm
  have hzeroes : Kept c.text (List.replicate k StarVars.zeroes) := by
    intro v hv
    obtain rfl := List.eq_of_mem_replicate hv
    exact ⟨placed_zeroes, placed_zeroes⟩
  have htest : Tests (NextCharacter c.text m) (NextCharacter c.text m)
      (List.replicate k StarVars.zeroes) := by
    intro p
    refine ⟨.inl, ?_⟩
    rintro (hp | ⟨v, hv, hp⟩)
    · exact hp
    · obtain rfl := List.eq_of_mem_replicate hv
      exact absurd hp Bool.false_ne_true
  have hmissing := missing_le (t := c.text) (s := NextCharacter c.text m)
  have hunfound := unfound_le (t := c.text) (V := List.replicate k StarVars.zeroes)
  rw [List.length_replicate] at hunfound
  rw [Nat.succ_mul] at hfuel
  obtain ⟨B, hB, hplaced, hloops⟩ := whileLoop_ends hb
    (fun m V rest hV hm hkept ↦ hcode m V rest hV hm hkept entered_false)
    List.length_replicate hzeroes hbase hbase htest (show 0 < fuel by omega) fun _ ↦ by omega
  refine ⟨B, ?_, hplaced, ?_⟩
  · obtain ⟨fuel, rfl⟩ := Nat.exists_eq_succ_of_ne_zero (show fuel ≠ 0 by omega)
    rw [RE_Compiler.whileLoop, replicate_append_const] at hB
    rw [RE_Compiler.whileLoop, Stream'.nil_append_stream]
    exact hB
  · rw [within_star h.followed]
    have hnone : (List.replicate k StarVars.zeroes).map (places c.text) =
        List.replicate k Increments.none := by
      rw [List.map_replicate]
      simp only [places, StarVars.zeroes, marked_zeroes]
      rfl
    rw [hnone, marked_nextCharacter hm] at hloops
    exact hstep.loops hloops

end Loops

end Parabix.RE.RE_Compiler
