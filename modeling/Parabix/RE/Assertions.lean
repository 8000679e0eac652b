import Parabix.RE.Anchors
import Parabix.RE.Syntax

namespace Parabix.RE.RE_Block_Compiler

open Library.BitStream

/-- The markers of a name that is compiled elsewhere: `offset` characters after the last matched
character, or after the first. -/
structure ExternalStream where
  stream : Stream
  offset : ℕ
  minLength : ℕ
  maxLength : ℕ
  fromFirst : Bool

/-- An asserted expression, compiled from every code unit, with its greatest length, and its
external stream if it is a name that has one. -/
structure Asserted where
  compiled : Marker
  maxLength : ℕ
  external : Option ExternalStream

/-- The greatest of the lengths in characters. -/
def Asserted.lengthRange (a : Asserted) : ℕ :=
  match a.external with
  | some ext => ext.maxLength
  | none => a.maxLength

def createLookahead (expr : Stream) (amount : ℕ) : Stream := fun p ↦ expr (p + amount)

def createNotIf (sense : Sense) (expr : Stream) : Stream := fun p ↦
  if sense = .Negative then !expr p else expr p

section Compile

variable (t : Text)

def compileLookBehind (lookback : Marker) (sense : Sense) (marker : Marker) : Marker :=
  let aligned := AlignMarkers t marker lookback
  let lb : Stream := fun p ↦
    if sense = .Negative then !aligned.2.stream p && t.indexStream p else aligned.2.stream p
  ⟨fun p ↦ aligned.1.stream p && lb p, aligned.1.position⟩

def compileZeroWidth (lookahead : Marker) (sense : Sense) (marker : Marker) : Marker :=
  let aligned := AlignMarkers t marker lookahead
  let la := createNotIf sense aligned.2.stream
  ⟨fun p ↦ aligned.1.stream p && la p, aligned.1.position⟩

def compileUnitLength (lookahead : Marker) (sense : Sense) (marker : Marker) : Marker :=
  let la : Stream := fun p ↦
    if sense = .Negative then !lookahead.stream p && t.indexStream p else lookahead.stream p
  let following := NextCharacter t marker
  ⟨fun p ↦ following p && la p, .AtNextChar⟩

/-- A lookahead of an external name. The lengths of what is not marked from its first character on
must be the same. -/
def compileExternal (ext : ExternalStream) (sense : Sense) (marker : Marker) : Option Marker :=
  if ext.fromFirst then
    if marker.position = .AtNextChar ∧ ext.offset = 0 then
      some ⟨fun p ↦ marker.stream p && ext.stream p, marker.position⟩
    else
      let ahead := if marker.position = .AtNextChar then ext.offset else ext.offset + 1
      let extLookahead := createNotIf sense (createLookahead ext.stream ahead)
      some ⟨fun p ↦ marker.stream p && extLookahead p, marker.position⟩
  else if ext.minLength = ext.maxLength then
    let following := NextCharacter t marker
    let ahead := ext.minLength + ext.offset - 1
    let extLookahead := createNotIf sense (createLookahead ext.stream ahead)
    some ⟨fun p ↦ following p && extLookahead p, .AtNextChar⟩
  else none

/-- There is no result where a lookahead is not supported. -/
def compileAssertion (a : Asserted) (kind : Kind) (sense : Sense) (marker : Marker) :
    Option Marker :=
  match kind with
  | .LookBehind => some (compileLookBehind t a.compiled sense marker)
  | .LookAhead =>
    if a.lengthRange = 0 then some (compileZeroWidth t a.compiled sense marker)
    else if a.lengthRange = 1 ∧ a.compiled.position = .AtEnd then
      some (compileUnitLength t a.compiled sense marker)
    else a.external.bind fun ext ↦ compileExternal t ext sense marker

end Compile

variable {t : Text} {m m1 m2 marker : Marker} {s s' : Stream} {position : Position}
  {p q i : ℕ}

section Bits

theorem Character.unique (h : Character t p q) (h' : Character t p i) : q = i := by
  rcases Nat.lt_trichotomy q i with hlt | rfl | hlt
  · have hlast := h.last
    rw [h'.inside q h.le hlt] at hlast
    cases hlast
  · rfl
  · have hlast := h'.last
    rw [h.inside i h'.le hlt] at hlast
    cases hlast

/-- The bit of a marker that stands before the character from `p` to `q`. -/
def bitAt (position : Position) (p q : ℕ) : Option ℕ :=
  match position with
  | .AtEnd => if p = 0 then none else some (p - 1)
  | .AtNextCodeUnit => some p
  | .AtNextChar => some q

theorem stands_iff (hc : Character t p q) : Stands t ⟨s, position⟩ p ↔
    ∃ i, bitAt position p q = some i ∧ s i = true := by
  cases position with
  | AtEnd =>
    simp only [Stands, bitAt]
    constructor
    · rintro ⟨i, rfl, hi⟩
      exact ⟨i, by simp, hi⟩
    · rintro ⟨i, hi, hs⟩
      split_ifs at hi with hp
      obtain rfl := Option.some.inj hi
      exact ⟨p - 1, by omega, hs⟩
  | AtNextCodeUnit => simp [Stands, bitAt]
  | AtNextChar =>
    simp only [Stands, bitAt, Option.some.injEq, exists_eq_left']
    constructor
    · rintro ⟨i, hi, hs⟩
      rwa [hc.unique hi]
    · intro hs
      exact ⟨q, hc, hs⟩

theorem stands_and (hc : Character t p q) : Stands t ⟨fun i ↦ s i && s' i, position⟩ p ↔
    Stands t ⟨s, position⟩ p ∧ Stands t ⟨s', position⟩ p := by
  simp only [stands_iff hc]
  cases bitAt position p q <;> simp

theorem stands_and_not (hc : Character t p q) : Stands t ⟨fun i ↦ s i && !s' i, position⟩ p ↔
    Stands t ⟨s, position⟩ p ∧ ¬ Stands t ⟨s', position⟩ p := by
  simp only [stands_iff hc]
  cases bitAt position p q <;> simp

end Bits

section Align

/-- A marker inside of a character has one before the character. -/
def Settled (t : Text) (m : Marker) : Prop :=
  m.position = .AtNextCodeUnit → ∀ p q, Character t p q → ∀ r, p ≤ r → r ≤ q →
    m.stream r = true → m.stream p = true

theorem rank_character (h : Character t (p + 1) q) :
    rank t.indexStream p + 1 = rank t.indexStream q := by
  have hle := h.le
  have hconst : rank t.indexStream (p + 1 + (q - (p + 1))) = rank t.indexStream (p + 1) :=
    rank_eq_of_false fun i hi ↦ h.inside (p + 1 + i) (by omega) (by omega)
  rw [Nat.add_sub_cancel' hle] at hconst
  rw [hconst, rank_succ_of_true (h.first p rfl)]

/-- Markers move to the last code units of the characters they stand before. -/
theorem stands_nextCharacter (hset : Settled t m) (hc : Character t p q) :
    Stands t ⟨NextCharacter t m, .AtNextChar⟩ p ↔ Stands t m p := by
  rw [stands_iff hc]
  simp only [bitAt, Option.some.injEq, exists_eq_left', NextCharacter]
  cases hpos : m.position with
  | AtEnd =>
    simp only [Stands, hpos, indexedAdvance_iff]
    constructor
    · rintro ⟨-, i, hi, hm, hrank⟩
      have hp : p ≠ 0 := by
        rintro rfl
        have hzero : rank t.indexStream (0 + q) = rank t.indexStream 0 :=
          rank_eq_of_false fun j hj ↦ hc.inside (0 + j) (by omega) (by omega)
        rw [Nat.zero_add, rank_zero] at hzero
        omega
      obtain ⟨j, rfl⟩ := Nat.exists_eq_succ_of_ne_zero hp
      have hj := rank_character hc
      exact ⟨j, rfl, rank_inj hi (hc.first j rfl) (by omega) ▸ hm⟩
    · rintro ⟨j, rfl, hm⟩
      exact ⟨hc.last, j, hc.first j rfl, hm, rank_character hc⟩
  | AtNextCodeUnit =>
    simp only [Stands, hpos, scanToIndex_iff]
    constructor
    · rintro ⟨-, i, hiq, hm, hall⟩
      by_cases hpi : p ≤ i
      · exact hset hpos p q hc i hpi hiq hm
      · have hle := hc.le
        have hfirst := hc.first (p - 1) (by omega)
        rw [hall (p - 1) (by omega) (by omega)] at hfirst
        cases hfirst
    · intro hm
      exact ⟨hc.last, p, hc.le, hm, hc.inside⟩
  | AtNextChar =>
    have hm : m = ⟨m.stream, .AtNextChar⟩ := by rw [← hpos]
    rw [hm, stands_iff hc]
    simp [bitAt]

theorem stands_nextCodeUnit (hpos : m.position ≠ .AtNextChar) :
    Stands t ⟨NextCodeUnitStream m, .AtNextCodeUnit⟩ p ↔ Stands t m p := by
  simp only [Stands, NextCodeUnitStream]
  cases h : m.position with
  | AtEnd =>
    simp only [advance]
    constructor
    · intro hm
      split_ifs at hm with hp
      exact ⟨p - 1, by omega, hm⟩
    · rintro ⟨j, rfl, hm⟩
      simpa using hm
  | AtNextCodeUnit => rfl
  | AtNextChar => exact absurd h hpos

theorem alignMarkers_position : (AlignMarkers t m1 m2).1.position =
    (AlignMarkers t m1 m2).2.position := by
  unfold AlignMarkers
  cases h1 : m1.position <;> cases h2 : m2.position <;> simp [h1, h2]

/-- Aligned markers stand where they stood. -/
theorem stands_alignMarkers (h1 : Settled t m1) (h2 : Settled t m2) (hc : Character t p q) :
    (Stands t (AlignMarkers t m1 m2).1 p ↔ Stands t m1 p) ∧
      (Stands t (AlignMarkers t m1 m2).2 p ↔ Stands t m2 p) := by
  have hend1 : m1.position = .AtEnd → m1.position ≠ .AtNextChar := fun h ↦ by simp [h]
  have hend2 : m2.position = .AtEnd → m2.position ≠ .AtNextChar := fun h ↦ by simp [h]
  unfold AlignMarkers
  cases hp1 : m1.position with
  | AtEnd =>
    cases hp2 : m2.position with
    | AtEnd => exact ⟨Iff.rfl, Iff.rfl⟩
    | AtNextCodeUnit => exact ⟨stands_nextCodeUnit (hend1 hp1), Iff.rfl⟩
    | AtNextChar => exact ⟨stands_nextCharacter h1 hc, Iff.rfl⟩
  | AtNextCodeUnit =>
    cases hp2 : m2.position with
    | AtEnd => exact ⟨Iff.rfl, stands_nextCodeUnit (hend2 hp2)⟩
    | AtNextCodeUnit => exact ⟨Iff.rfl, Iff.rfl⟩
    | AtNextChar => exact ⟨stands_nextCharacter h1 hc, Iff.rfl⟩
  | AtNextChar =>
    cases hp2 : m2.position with
    | AtEnd => exact ⟨Iff.rfl, stands_nextCharacter h2 hc⟩
    | AtNextCodeUnit => exact ⟨Iff.rfl, stands_nextCharacter h2 hc⟩
    | AtNextChar => exact ⟨Iff.rfl, Iff.rfl⟩

end Align

section Meaning

variable {a : Asserted} {matched : ℕ → ℕ → Prop} {kind : Kind} {sense : Sense}

/-- The asserted expression is matched up to a position, or from it on. -/
def Asserts (kind : Kind) (matched : ℕ → ℕ → Prop) (p : ℕ) : Prop :=
  match kind with
  | .LookBehind => ∃ start, matched start p
  | .LookAhead => ∃ stop, matched p stop

/-- What is compiled elsewhere is right: the markers stand where matches end; a match has no
character, or one, as the greatest length says; an external stream is marked `offset` characters
after the first or the last character of a match, where characters are code units. -/
structure Describes (t : Text) (a : Asserted) (matched : ℕ → ℕ → Prop) : Prop where
  ends (p q : ℕ) (hc : Character t p q) :
    Stands t a.compiled p ↔ ∃ start, matched start p
  settled : Settled t a.compiled
  zeroWidth (h : a.lengthRange = 0) (p stop : ℕ) (hp : matched p stop) : p = stop
  unitLength (h : a.lengthRange = 1) (hend : a.compiled.position = .AtEnd) (p q : ℕ)
    (hc : Character t p q) : a.compiled.stream q = true ↔ ∃ stop, matched p stop
  units (ext : ExternalStream) (h : a.external = some ext) (p : ℕ) : t.indexStream p = true
  fromFirst (ext : ExternalStream) (h : a.external = some ext) (hfirst : ext.fromFirst = true)
    (p : ℕ) : ext.stream (p + ext.offset) = true ↔ ∃ stop, matched p stop
  fromLast (ext : ExternalStream) (h : a.external = some ext) (hlast : ext.fromFirst = false)
    (hlength : ext.minLength = ext.maxLength) (p : ℕ) :
      ext.stream (p + (ext.minLength + ext.offset - 1)) = true ↔ ∃ stop, matched p stop

/-- The results of both senses share no marker and have all of them together, and the markers of the
positive sense are those that the assertion holds at. -/
def Divides (t : Text) (holds : ℕ → Prop) (marker : Marker) (positive negative : Option Marker) :
    Prop :=
  ∃ pos neg, positive = some pos ∧ negative = some neg ∧ ∀ p q, Character t p q →
    ¬ (Stands t pos p ∧ Stands t neg p) ∧
    (Stands t pos p ∨ Stands t neg p ↔ Stands t marker p) ∧
    (Stands t pos p ↔ Stands t marker p ∧ holds p)

/-- A lookbehind is right where the markers are not at the next code units, or a rejected one stands
before a character of one code unit. A lookahead is right for what is matched within a character;
for an external name of one length; and for one that is marked from its first character on, where
the markers are at the ends of what was matched, or at the next characters with an offset. -/
def Supported (t : Text) (a : Asserted) (kind : Kind) (marker : Marker) (holds : ℕ → Prop) : Prop :=
  match kind with
  | .LookBehind => (AlignMarkers t marker a.compiled).1.position = .AtNextCodeUnit →
    ∀ p q, Character t p q → Stands t marker p → ¬ holds p → p = q
  | .LookAhead => a.lengthRange = 0 ∨ a.lengthRange = 1 ∧ a.compiled.position = .AtEnd ∨
    ∃ ext, a.external = some ext ∧
      if ext.fromFirst then
        match marker.position with
        | .AtEnd => True
        | .AtNextCodeUnit => ∀ p, Stands t marker p →
          ext.stream (p + (ext.offset + 1)) = ext.stream (p + ext.offset)
        | .AtNextChar => ext.offset ≠ 0 ∨ ∀ p, ¬ Stands t marker p
      else ext.minLength = ext.maxLength

/-- Both results in one: a marker is kept for the sense in which the assertion holds or not. -/
theorem divides_iff {holds : ℕ → Prop} {pos neg : Marker} :
    Divides t holds marker (some pos) (some neg) ↔ ∀ p q, Character t p q →
      (Stands t pos p ↔ Stands t marker p ∧ holds p) ∧
        (Stands t neg p ↔ Stands t marker p ∧ ¬ holds p) := by
  constructor
  · rintro ⟨pos', neg', hpos, hneg, h⟩ p q hc
    obtain rfl := Option.some.inj hpos
    obtain rfl := Option.some.inj hneg
    obtain ⟨hapart, hunion, hpositive⟩ := h p q hc
    refine ⟨hpositive, ?_⟩
    constructor
    · intro hn
      exact ⟨hunion.mp (.inr hn), fun hholds ↦
        hapart ⟨hpositive.mpr ⟨hunion.mp (.inr hn), hholds⟩, hn⟩⟩
    · rintro ⟨hm, hnot⟩
      exact (hunion.mpr hm).resolve_left fun hp ↦ hnot (hpositive.mp hp).2
  · intro h
    refine ⟨pos, neg, rfl, rfl, fun p q hc ↦ ?_⟩
    obtain ⟨hp, hn⟩ := h p q hc
    rw [hp, hn]
    tauto

end Meaning

section Senses

variable {a : Asserted} {matched : ℕ → ℕ → Prop} {holds : ℕ → Prop}

/-- One marker with the markers of what is asserted, kept or negated. -/
theorem divides_streams (position : Position) (s la : Stream)
    (hs : ∀ p q, Character t p q → (Stands t ⟨s, position⟩ p ↔ Stands t marker p))
    (hla : ∀ p q, Character t p q → Stands t marker p → (Stands t ⟨la, position⟩ p ↔ holds p)) :
    Divides t holds marker (some ⟨fun i ↦ s i && createNotIf .Positive la i, position⟩)
      (some ⟨fun i ↦ s i && createNotIf .Negative la i, position⟩) := by
  rw [divides_iff]
  intro p q hc
  have hpos : Stands t ⟨fun i ↦ s i && createNotIf .Positive la i, position⟩ p ↔
      Stands t ⟨s, position⟩ p ∧ Stands t ⟨la, position⟩ p := stands_and hc
  have hneg : Stands t ⟨fun i ↦ s i && createNotIf .Negative la i, position⟩ p ↔
      Stands t ⟨s, position⟩ p ∧ ¬ Stands t ⟨la, position⟩ p := stands_and_not hc
  rw [hpos, hneg, hs p q hc]
  constructor
  · exact and_congr_right fun hm ↦ hla p q hc hm
  · exact and_congr_right fun hm ↦ not_congr (hla p q hc hm)

/-- The index has the last code units of characters. -/
theorem stands_and_not_index (hposition : position ≠ .AtNextCodeUnit) (hc : Character t p q) :
    Stands t ⟨fun i ↦ s i && (!s' i && t.indexStream i), position⟩ p ↔
      Stands t ⟨s, position⟩ p ∧ ¬ Stands t ⟨s', position⟩ p := by
  have hindex : ∀ i, bitAt position p q = some i → t.indexStream i = true := by
    intro i hi
    cases position with
    | AtEnd =>
      simp only [bitAt] at hi
      split_ifs at hi with hp
      obtain rfl := Option.some.inj hi
      exact hc.first (p - 1) (by omega)
    | AtNextCodeUnit => exact absurd rfl hposition
    | AtNextChar =>
      obtain rfl := Option.some.inj hi
      exact hc.last
  rw [← stands_and_not hc]
  simp only [stands_iff hc]
  refine exists_congr fun i ↦ and_congr_right fun hi ↦ ?_
  rw [hindex i hi, Bool.and_true]

theorem compileLookBehind_iff (hset : Settled t marker) (hdesc : Describes t a matched) :
    Divides t (Asserts .LookBehind matched) marker
      (some (compileLookBehind t a.compiled .Positive marker))
      (some (compileLookBehind t a.compiled .Negative marker)) ↔
        ((AlignMarkers t marker a.compiled).1.position = .AtNextCodeUnit → ∀ p q,
          Character t p q → Stands t marker p → ¬ Asserts .LookBehind matched p → p = q) := by
  obtain ⟨A, hA⟩ : ∃ A, (AlignMarkers t marker a.compiled).1 = A := ⟨_, rfl⟩
  obtain ⟨B, hB⟩ : ∃ B, (AlignMarkers t marker a.compiled).2 = B := ⟨_, rfl⟩
  have hposition : B.position = A.position := by
    rw [← hA, ← hB]
    exact alignMarkers_position.symm
  have hstands : ∀ p q, Character t p q → (Stands t ⟨A.stream, A.position⟩ p ↔ Stands t marker p) ∧
      (Stands t ⟨B.stream, A.position⟩ p ↔ Asserts .LookBehind matched p) := by
    intro p q hc
    obtain ⟨h1, h2⟩ := stands_alignMarkers hset hdesc.settled hc
    rw [hA] at h1
    rw [hB, hdesc.ends p q hc] at h2
    exact ⟨h1, hposition ▸ h2⟩
  have hpos : ∀ p q, Character t p q → (Stands t (compileLookBehind t a.compiled .Positive marker) p ↔
      Stands t marker p ∧ Asserts .LookBehind matched p) := by
    intro p q hc
    obtain ⟨h1, h2⟩ := hstands p q hc
    simp only [compileLookBehind, hA, hB, reduceCtorEq, if_false]
    rw [stands_and hc, h1, h2]
  rw [divides_iff]
  by_cases hunit : A.position = .AtNextCodeUnit
  · have hneg : ∀ p q, Character t p q →
        (Stands t (compileLookBehind t a.compiled .Negative marker) p ↔
          (Stands t marker p ∧ ¬ Asserts .LookBehind matched p) ∧ p = q) := by
      intro p q hc
      obtain ⟨h1, h2⟩ := hstands p q hc
      have hindex : t.indexStream p = true ↔ p = q := by
        constructor
        · intro hp
          by_contra hne
          rw [hc.inside p le_rfl (Nat.lt_of_le_of_ne hc.le hne)] at hp
          cases hp
        · rintro rfl
          exact hc.last
      rw [hunit] at h1 h2
      simp only [Stands] at h1 h2
      simp only [compileLookBehind, hA, hB, if_true, Stands, hunit, Bool.and_eq_true,
        Bool.not_eq_true', hindex, ← h1, ← h2, Bool.not_eq_true, and_assoc]
    constructor
    · intro h _ p q hc hm hnot
      exact ((hneg p q hc).mp ((h p q hc).2.mpr ⟨hm, hnot⟩)).2
    · intro h p q hc
      refine ⟨hpos p q hc, (hneg p q hc).trans ⟨fun hp ↦ hp.1, fun hp ↦ ⟨hp, ?_⟩⟩⟩
      exact h (hA ▸ hunit) p q hc hp.1 hp.2
  · refine iff_of_true (fun p q hc ↦ ⟨hpos p q hc, ?_⟩) fun h ↦ absurd (hA ▸ h) hunit
    obtain ⟨h1, h2⟩ := hstands p q hc
    simp only [compileLookBehind, hA, hB, if_true]
    rw [stands_and_not_index hunit hc, h1, h2]

theorem compileZeroWidth_divides (hset : Settled t marker) (hdesc : Describes t a matched)
    (hzero : a.lengthRange = 0) :
    Divides t (Asserts .LookAhead matched) marker
      (some (compileZeroWidth t a.compiled .Positive marker))
      (some (compileZeroWidth t a.compiled .Negative marker)) := by
  apply divides_streams
  · intro p q hc
    exact (stands_alignMarkers hset hdesc.settled hc).1
  · intro p q hc _
    rw [alignMarkers_position]
    refine (stands_alignMarkers hset hdesc.settled hc).2.trans ((hdesc.ends p q hc).trans ?_)
    constructor
    · rintro ⟨start, hmatch⟩
      obtain rfl := hdesc.zeroWidth hzero _ _ hmatch
      exact ⟨start, hmatch⟩
    · rintro ⟨stop, hmatch⟩
      obtain rfl := hdesc.zeroWidth hzero _ _ hmatch
      exact ⟨p, hmatch⟩

theorem compileUnitLength_divides (hset : Settled t marker) (hdesc : Describes t a matched)
    (hunit : a.lengthRange = 1) (hend : a.compiled.position = .AtEnd) :
    Divides t (Asserts .LookAhead matched) marker
      (some (compileUnitLength t a.compiled .Positive marker))
      (some (compileUnitLength t a.compiled .Negative marker)) := by
  rw [divides_iff]
  intro p q hc
  have hla : Stands t ⟨a.compiled.stream, .AtNextChar⟩ p ↔ Asserts .LookAhead matched p := by
    rw [stands_iff hc]
    simpa [bitAt, Asserts] using hdesc.unitLength hunit hend p q hc
  simp only [compileUnitLength, reduceCtorEq, if_false, if_true]
  rw [stands_and hc, stands_and_not_index (by decide) hc, stands_nextCharacter hset hc, hla]
  exact ⟨Iff.rfl, Iff.rfl⟩

end Senses

section External

variable {a : Asserted} {matched : ℕ → ℕ → Prop} {ext : ExternalStream}

theorem Describes.unit (hdesc : Describes t a matched) (hext : a.external = some ext)
    (hc : Character t p q) : q = p := by
  by_contra hne
  have hinside := hc.inside p le_rfl (Nat.lt_of_le_of_ne hc.le (Ne.symm hne))
  rw [hdesc.units ext hext p] at hinside
  cases hinside

theorem Describes.character (hdesc : Describes t a matched) (hext : a.external = some ext) (p : ℕ) :
    Character t p p :=
  ⟨le_rfl, hdesc.units ext hext p, fun _ h1 h2 ↦ absurd h1 (Nat.not_le_of_lt h2),
    fun j _ ↦ hdesc.units ext hext j⟩

theorem compileExternal_fromLast (hset : Settled t marker) (hdesc : Describes t a matched)
    (hext : a.external = some ext) (hlast : ext.fromFirst = false) :
    Divides t (Asserts .LookAhead matched) marker (compileExternal t ext .Positive marker)
      (compileExternal t ext .Negative marker) ↔ ext.minLength = ext.maxLength := by
  by_cases hlength : ext.minLength = ext.maxLength
  · refine iff_of_true ?_ hlength
    simp only [compileExternal, hlast, Bool.false_eq_true, if_false, if_pos hlength]
    apply divides_streams
    · intro p q hc
      exact stands_nextCharacter hset hc
    · intro p q hc _
      rw [stands_iff hc]
      obtain rfl := hdesc.unit hext hc
      simpa [bitAt, createLookahead, Asserts] using hdesc.fromLast ext hext hlast hlength q
  · refine iff_of_false ?_ hlength
    simp only [compileExternal, hlast, Bool.false_eq_true, if_false, if_neg hlength]
    rintro ⟨pos, neg, hpos, -⟩
    cases hpos

theorem compileExternal_fromFirst (hdesc : Describes t a matched) (hext : a.external = some ext)
    (hfirst : ext.fromFirst = true) :
    Divides t (Asserts .LookAhead matched) marker (compileExternal t ext .Positive marker)
      (compileExternal t ext .Negative marker) ↔
        match marker.position with
        | .AtEnd => True
        | .AtNextCodeUnit => ∀ p, Stands t marker p →
          ext.stream (p + (ext.offset + 1)) = ext.stream (p + ext.offset)
        | .AtNextChar => ext.offset ≠ 0 ∨ ∀ p, ¬ Stands t marker p := by
  have hholds : ∀ p, ext.stream (p + ext.offset) = true ↔ Asserts .LookAhead matched p :=
    hdesc.fromFirst ext hext hfirst
  cases hpos : marker.position with
  | AtEnd =>
    refine iff_of_true ?_ trivial
    simp only [compileExternal, hfirst, hpos, if_true, reduceCtorEq, false_and, if_false]
    apply divides_streams
    · intro p q hc
      rw [← hpos]
    · intro p q hc hm
      simp only [Stands, hpos] at hm
      obtain ⟨j, rfl, -⟩ := hm
      have hshift : j + 1 + ext.offset = j + (ext.offset + 1) := by omega
      rw [← hholds, hshift, stands_iff hc]
      simp [bitAt, createLookahead]
  | AtNextCodeUnit =>
    simp only [compileExternal, hfirst, hpos, if_true, reduceCtorEq, false_and, if_false]
    constructor
    · intro h p hm
      have hc := hdesc.character hext p
      have hp := (divides_iff.mp h p p hc).1
      rw [stands_and hc, ← hpos, ← hholds] at hp
      have hla : Stands t ⟨createLookahead ext.stream (ext.offset + 1), .AtNextCodeUnit⟩ p ↔
          ext.stream (p + (ext.offset + 1)) = true := Iff.rfl
      rw [hpos] at hp
      have hm' : Stands t ⟨marker.stream, .AtNextCodeUnit⟩ p := by rwa [← hpos]
      apply Bool.eq_iff_iff.mpr
      rw [← hla]
      constructor
      · intro hahead
        exact (hp.mp ⟨hm', hahead⟩).2
      · intro hoffset
        exact (hp.mpr ⟨hm, hoffset⟩).2
    · intro h
      apply divides_streams
      · intro p q hc
        rw [← hpos]
      · intro p q hc hm
        rw [← hholds, ← h p hm]
        rfl
  | AtNextChar =>
    by_cases hoffset : ext.offset = 0
    · simp only [compileExternal, hfirst, hpos, if_true, hoffset, and_self, ne_eq, not_true_eq_false,
        false_or]
      constructor
      · intro h p hm
        have hc := hdesc.character hext p
        have hboth := divides_iff.mp h p p hc
        rw [hboth.1] at hboth
        by_cases hp : Asserts .LookAhead matched p
        · exact (hboth.2.mp ⟨hm, hp⟩).2 hp
        · exact hp (hboth.2.mpr ⟨hm, hp⟩).2
      · intro h
        rw [divides_iff]
        intro p q hc
        have hnone : ¬ Stands t ⟨fun i ↦ marker.stream i && ext.stream i, .AtNextChar⟩ p := by
          rw [stands_and hc, ← hpos]
          exact fun hp ↦ h p hp.1
        simp [h p, hnone]
    · refine iff_of_true ?_ (.inl hoffset)
      simp only [compileExternal, hfirst, hpos, if_true, hoffset, and_false, if_false]
      apply divides_streams
      · intro p q hc
        rw [← hpos]
      · intro p q hc _
        rw [stands_iff hc, ← hholds]
        obtain rfl := hdesc.unit hext hc
        simp [bitAt, createLookahead]

end External

section Exact

/-- The results for both senses divide the markers exactly where the assertion is supported. -/
theorem compileAssertion_exact (a : Asserted) (matched : ℕ → ℕ → Prop) (kind : Kind)
    (hdesc : Describes t a matched) (hset : Settled t marker) :
    Divides t (Asserts kind matched) marker (compileAssertion t a kind .Positive marker)
        (compileAssertion t a kind .Negative marker) ↔
      Supported t a kind marker (Asserts kind matched) := by
  cases kind with
  | LookBehind => exact compileLookBehind_iff hset hdesc
  | LookAhead =>
    simp only [compileAssertion, Supported]
    by_cases hzero : a.lengthRange = 0
    · rw [if_pos hzero, if_pos hzero]
      exact iff_of_true (compileZeroWidth_divides hset hdesc hzero) (.inl hzero)
    rw [if_neg hzero, if_neg hzero]
    by_cases hunit : a.lengthRange = 1 ∧ a.compiled.position = .AtEnd
    · rw [if_pos hunit, if_pos hunit]
      exact iff_of_true (compileUnitLength_divides hset hdesc hunit.1 hunit.2) (.inr (.inl hunit))
    rw [if_neg hunit, if_neg hunit]
    cases hext : a.external with
    | none =>
      refine iff_of_false ?_ ?_
      · rintro ⟨pos, neg, hpos, -⟩
        cases hpos
      · rintro (h | h | ⟨ext, h, -⟩)
        · exact hzero h
        · exact hunit h
        · cases h
    | some ext =>
      simp only [Option.bind_some, hzero, hunit, false_or, Option.some.injEq, exists_eq_left']
      cases hfirst : ext.fromFirst with
      | true =>
        simp only [if_true]
        exact compileExternal_fromFirst hdesc hext hfirst
      | false =>
        simp only [Bool.false_eq_true, if_false]
        exact compileExternal_fromLast hset hdesc hext hfirst

section Example

/-- Four code units that are characters. -/
def fourUnits : Text := ⟨4, fun _ ↦ true⟩

/-- A letter at the positions 1 and 3, marked from its first character on. -/
def externalLetter : Asserted where
  compiled := ⟨fun p ↦ p == 2 || p == 4, .AtNextCodeUnit⟩
  maxLength := 1
  external := some ⟨fun p ↦ p == 1 || p == 3, 0, 1, 1, true⟩

def letterMatched (p stop : ℕ) : Prop := (p = 1 ∨ p = 3) ∧ stop = p + 1

theorem describes_externalLetter : Describes fourUnits externalLetter letterMatched where
  ends p q hc := by
    simp only [Stands, externalLetter, letterMatched, Bool.or_eq_true, beq_iff_eq]
    constructor
    · rintro (rfl | rfl)
      · exact ⟨1, .inl rfl, rfl⟩
      · exact ⟨3, .inr rfl, rfl⟩
    · rintro ⟨start, rfl | rfl, rfl⟩
      · exact .inl rfl
      · exact .inr rfl
  settled hpos p q hc r hpr hrq hr := by
    obtain rfl : r = p := by
      by_contra hne
      have hinside := hc.inside p le_rfl (by omega)
      cases hinside
    exact hr
  zeroWidth h := by cases h
  unitLength h hend := by cases hend
  units _ _ _ := rfl
  fromFirst ext h _ p := by
    obtain rfl := Option.some.inj h
    simp [letterMatched]
  fromLast ext h hlast := by
    obtain rfl := Option.some.inj h
    cases hlast

theorem compileAssertion_exact_letter :
    Describes fourUnits externalLetter letterMatched ∧
      Settled fourUnits ⟨fun _ ↦ true, .AtEnd⟩ ∧
      (Divides fourUnits (Asserts .LookAhead letterMatched) ⟨fun _ ↦ true, .AtEnd⟩
        (compileAssertion fourUnits externalLetter .LookAhead .Positive ⟨fun _ ↦ true, .AtEnd⟩)
        (compileAssertion fourUnits externalLetter .LookAhead .Negative ⟨fun _ ↦ true, .AtEnd⟩) ↔
          Supported fourUnits externalLetter .LookAhead ⟨fun _ ↦ true, .AtEnd⟩
            (Asserts .LookAhead letterMatched)) := by
  have hset : Settled fourUnits ⟨fun _ ↦ true, .AtEnd⟩ := fun hpos ↦ by cases hpos
  exact ⟨describes_externalLetter, hset, compileAssertion_exact externalLetter letterMatched
    .LookAhead describes_externalLetter hset⟩

/-- At the next characters a negative lookahead of a name that is marked from its first character on
keeps the markers that it has to reject. -/
theorem compileAssertion_forgets :
    Describes fourUnits externalLetter letterMatched ∧
      Settled fourUnits ⟨fun _ ↦ true, .AtNextChar⟩ ∧
      ¬ Divides fourUnits (Asserts .LookAhead letterMatched) ⟨fun _ ↦ true, .AtNextChar⟩
        (compileAssertion fourUnits externalLetter .LookAhead .Positive ⟨fun _ ↦ true, .AtNextChar⟩)
        (compileAssertion fourUnits externalLetter .LookAhead .Negative
          ⟨fun _ ↦ true, .AtNextChar⟩) := by
  refine ⟨describes_externalLetter, (fun hpos ↦ by cases hpos), ?_⟩
  rintro ⟨pos, neg, hpos, hneg, h⟩
  obtain rfl := Option.some.inj hpos
  obtain rfl := Option.some.inj hneg
  have hc : Character fourUnits 1 1 :=
    ⟨le_rfl, rfl, fun _ h1 h2 ↦ absurd h1 (Nat.not_le_of_lt h2), fun _ _ ↦ rfl⟩
  exact (h 1 1 hc).1 ⟨⟨1, hc, rfl⟩, ⟨1, hc, rfl⟩⟩

end Example

end Exact

end Parabix.RE.RE_Block_Compiler
