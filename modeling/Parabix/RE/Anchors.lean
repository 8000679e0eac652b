import Mathlib.Order.Lattice
import Parabix.RE.BoundedRepetition

namespace Parabix.RE.RE_Block_Compiler

open Library.BitStream

/-- The positions at which regions start, those of the characters that follow a region, and those
inside of the regions. -/
structure Regions where
  text : Text
  regionStart : Stream
  regionFollow : Stream
  matchable : Stream

/-- An item of a sequence, any other kind of item with the way it is compiled. -/
inductive SeqItem where
  | CC (codeUnit : Bool) (ccStrm : Stream)
  | Any
  | Start
  | End
  | other (process : Marker → Marker) (minMatchLength : ℕ)

def SeqItem.minMatchLength : SeqItem → ℕ
  | CC _ _ => 1
  | Any => 1
  | Start => 0
  | End => 0
  | other _ minMatchLength => minMatchLength

section Compile

variable (r : Regions)

def compileCC (codeUnit : Bool) (ccStrm : Stream) (marker : Marker) : Marker :=
  let nextPos := if codeUnit then NextCodeUnitStream marker else NextCharacter r.text marker
  ⟨fun p ↦ nextPos p && ccStrm p, .AtEnd⟩

def compileAny (marker : Marker) : Marker :=
  let nextPos := NextCharacter r.text marker
  ⟨fun p ↦ nextPos p && r.matchable p, .AtEnd⟩

def compileStart (_ : Marker) : Marker := ⟨r.regionStart, .AtNextCodeUnit⟩

def compileEnd (marker : Marker) : Marker :=
  if marker.position = .AtEnd then
    let last : Stream := fun p ↦ r.regionFollow (p + 1)
    ⟨fun p ↦ marker.stream p && last p, .AtEnd⟩
  else
    let nextPos := NextCharacter r.text marker
    ⟨fun p ↦ r.regionFollow p && nextPos p, .AtNextChar⟩

def SeqItem.process : SeqItem → Marker → Marker
  | CC codeUnit ccStrm => compileCC r codeUnit ccStrm
  | Any => compileAny r
  | Start => compileStart r
  | End => compileEnd r
  | other process _ => process

/-- The markers that an item of a sequence is compiled with, after the items before it. -/
def processAll (seq : List SeqItem) (marker : Marker) : Marker :=
  seq.foldl (fun marker item ↦ item.process r marker) marker

/-- The items from the current one on, in a branch of their own when enough has been matched. -/
def compileSeqTail (items : List SeqItem) (matchLenSoFar : ℕ) (marker : Marker) : Marker :=
  match items with
  | [] => marker
  | current :: rest =>
    if matchLenSoFar < IfInsertionGap then
      compileSeqTail rest (matchLenSoFar + current.minMatchLength) (current.process r marker)
    else
      let m1 := compileSeqTail (current :: rest) 0 marker
      ⟨createIf r.text marker.stream m1.stream, m1.position⟩
termination_by (items.length, matchLenSoFar)
decreasing_by
  · exact Prod.Lex.left _ _ (Nat.lt_succ_self _)
  · apply Prod.Lex.right
    simp only [IfInsertionGap] at *
    omega

/-- There are no branches within unbounded repetitions. -/
def compileSeq (mStarDepth : ℕ) (seq : List SeqItem) (marker : Marker) : Marker :=
  if 0 < mStarDepth then processAll r seq marker else compileSeqTail r seq 0 marker

end Compile

variable {r : Regions} {t : Text} {m : Marker} {items seq : List SeqItem} {item : SeqItem}
  {s index : Stream} {p q n i : ℕ}

section Characters

/-- A character takes the code units from `p` to `q`. -/
structure Character (t : Text) (p q : ℕ) : Prop where
  le : p ≤ q
  last : t.indexStream q = true
  inside (j : ℕ) : p ≤ j → j < q → t.indexStream j = false
  first (j : ℕ) : p = j + 1 → t.indexStream j = true

/-- A marker stands before the code unit `p`. -/
def Stands (t : Text) (m : Marker) (p : ℕ) : Prop :=
  match m.position with
  | .AtEnd => ∃ q, p = q + 1 ∧ m.stream q = true
  | .AtNextCodeUnit => m.stream p = true
  | .AtNextChar => ∃ q, Character t p q ∧ m.stream q = true

/-- What follows a region is a character of one code unit. -/
def FollowsAreUnits (r : Regions) : Prop :=
  ∀ p, r.regionFollow p = true → Character r.text p p

theorem Character.eq_of_unit (h : Character t p q) (hunit : Character t q q) : p = q := by
  by_contra hne
  have hlt : p < q := Nat.lt_of_le_of_ne h.le hne
  have hlast := hunit.first (q - 1) (by omega)
  rw [h.inside (q - 1) (by omega) (by omega)] at hlast
  cases hlast

theorem Character.unit_eq (hunit : Character t p p) (h : Character t p q) : q = p := by
  by_contra hne
  have hlt : p < q := Nat.lt_of_le_of_ne h.le (Ne.symm hne)
  have hlast := hunit.last
  rw [h.inside p le_rfl hlt] at hlast
  cases hlast

theorem scanToIndex_iff : ScanToIndex s index q = true ↔
    index q = true ∧ ∃ p ≤ q, s p = true ∧ ∀ j, p ≤ j → j < q → index j = false := by
  simp only [ScanToIndex, scanTo, Bool.or_eq_true, Bool.and_eq_true, matchStar_iff_exists,
    Bool.not_eq_true']
  constructor
  · rintro (⟨hs, hq⟩ | ⟨hq, p, hpq, ⟨-, hs⟩, hall⟩)
    · exact ⟨hq, q, le_rfl, hs, fun j h1 h2 ↦ absurd h1 (Nat.not_le_of_lt h2)⟩
    · exact ⟨hq, p, hpq, hs, hall⟩
  · rintro ⟨hq, p, hpq, hs, hall⟩
    rcases Nat.eq_or_lt_of_le hpq with rfl | hlt
    · exact .inl ⟨hs, hq⟩
    · exact .inr ⟨hq, p, hpq, ⟨hall p le_rfl hlt, hs⟩, hall⟩

/-- Before a character of one code unit nothing is scanned. -/
theorem scanToIndex_unit (hunit : Character t p p) : ScanToIndex s t.indexStream p = s p := by
  apply Bool.eq_iff_iff.mpr
  rw [scanToIndex_iff]
  constructor
  · rintro ⟨-, j, hj, hs, hall⟩
    rcases Nat.eq_or_lt_of_le hj with rfl | hlt
    · exact hs
    · have hlast := hunit.first (p - 1) (by omega)
      rw [hall (p - 1) (by omega) (by omega)] at hlast
      cases hlast
  · intro hs
    exact ⟨hunit.last, p, le_rfl, hs, fun j h1 h2 ↦ absurd h1 (Nat.not_le_of_lt h2)⟩

end Characters

section Anchors

theorem stands_compileStart : Stands r.text (compileStart r m) p ↔ r.regionStart p = true :=
  Iff.rfl

/-- An End anchor keeps the markers before what follows a region. -/
theorem stands_compileEnd (hfollow : FollowsAreUnits r) :
    Stands r.text (compileEnd r m) p ↔ Stands r.text m p ∧ r.regionFollow p = true := by
  unfold compileEnd
  cases hpos : m.position with
  | AtEnd =>
    simp only [Stands, hpos, if_true, Bool.and_eq_true]
    constructor
    · rintro ⟨q, rfl, hm, hf⟩
      exact ⟨⟨q, rfl, hm⟩, hf⟩
    · rintro ⟨⟨q, rfl, hm⟩, hf⟩
      exact ⟨q, rfl, hm, hf⟩
  | AtNextCodeUnit =>
    simp only [Stands, hpos, reduceCtorEq, if_false, NextCharacter, Bool.and_eq_true]
    constructor
    · rintro ⟨q, hchar, hf, hscan⟩
      have hunit := hfollow q hf
      obtain rfl := hchar.eq_of_unit hunit
      exact ⟨by rwa [scanToIndex_unit hunit] at hscan, hf⟩
    · rintro ⟨hm, hf⟩
      have hunit := hfollow p hf
      exact ⟨p, hunit, hf, by rwa [scanToIndex_unit hunit]⟩
  | AtNextChar =>
    simp only [Stands, hpos, reduceCtorEq, if_false, NextCharacter, Bool.and_eq_true]
    constructor
    · rintro ⟨q, hchar, hf, hm⟩
      obtain rfl := hchar.eq_of_unit (hfollow q hf)
      exact ⟨⟨p, hchar, hm⟩, hf⟩
    · rintro ⟨⟨q, hchar, hm⟩, hf⟩
      have hunit := hfollow p hf
      obtain rfl := hunit.unit_eq hchar
      exact ⟨q, hunit, hf, hm⟩

end Anchors

section Sequences

/-- The boundary that an anchor asks for. -/
def SeqItem.boundary (r : Regions) : SeqItem → Option Stream
  | .Start => some r.regionStart
  | .End => some r.regionFollow
  | _ => none

/-- The markers after an anchor are those before it that stand at its boundary. -/
def Filters (r : Regions) (boundary : Stream) (before after : Marker) : Prop :=
  ∀ p, Stands r.text after p ↔ Stands r.text before p ∧ boundary p = true

theorem filters_compileStart : Filters r r.regionStart m (compileStart r m) ↔
    ∀ p, r.regionStart p = true → Stands r.text m p := by
  constructor
  · intro h p hp
    exact ((h p).mp (stands_compileStart.mpr hp)).1
  · intro h p
    rw [stands_compileStart]
    exact ⟨fun hp ↦ ⟨h p hp, hp⟩, fun hp ↦ hp.2⟩

/-- An anchor at any place of a sequence filters the markers that the items before it give, unless
it is a Start anchor and some region does not start at one of them. -/
theorem anchor_exact (hfollow : FollowsAreUnits r) {boundary : Stream}
    (hitem : seq[i]? = some item) (hboundary : item.boundary r = some boundary) :
    Filters r boundary (processAll r (seq.take i) m) (processAll r (seq.take (i + 1)) m) ↔
      (item = .Start →
        ∀ p, r.regionStart p = true → Stands r.text (processAll r (seq.take i) m) p) := by
  have hnext : processAll r (seq.take (i + 1)) m =
      item.process r (processAll r (seq.take i) m) := by
    rw [List.take_add_one, hitem]
    simp [processAll]
  rw [hnext]
  cases item with
  | Start =>
    obtain rfl := Option.some.inj hboundary
    simp only [SeqItem.process, forall_const]
    exact filters_compileStart
  | End =>
    obtain rfl := Option.some.inj hboundary
    simp only [SeqItem.process, reduceCtorEq, false_implies, iff_true]
    intro p
    exact stands_compileEnd hfollow
  | _ => cases hboundary

/-- Two lines, `ab` and `b`. -/
def twoLines : Regions where
  text := ⟨4, fun _ ↦ true⟩
  regionStart p := p == 0 || p == 3
  regionFollow p := p == 2 || p == 4
  matchable p := p != 2 && p < 4

theorem followsAreUnits_twoLines : FollowsAreUnits twoLines :=
  fun _ _ ↦ ⟨le_rfl, rfl, fun _ h1 h2 ↦ absurd h1 (Nat.not_le_of_lt h2), fun _ _ ↦ rfl⟩

theorem anchor_exact_at_end :
    FollowsAreUnits twoLines ∧ (Filters twoLines twoLines.regionFollow
      (processAll twoLines [.Any] ⟨fun _ ↦ true, .AtNextChar⟩)
      (processAll twoLines [.Any, .End] ⟨fun _ ↦ true, .AtNextChar⟩) ↔
        (SeqItem.End = .Start → ∀ p, twoLines.regionStart p = true →
          Stands twoLines.text (processAll twoLines [.Any] ⟨fun _ ↦ true, .AtNextChar⟩) p)) := by
  have hitem : [SeqItem.Any, .End][1]? = some .End := rfl
  exact ⟨followsAreUnits_twoLines, anchor_exact followsAreUnits_twoLines hitem rfl⟩

/-- After an item that is nowhere in the text, a Start anchor marks both lines, and the item behind
it is found. -/
theorem compileStart_unfiltered :
    FollowsAreUnits twoLines ∧
      ¬ Filters twoLines twoLines.regionStart
        (processAll twoLines [.CC true fun _ ↦ false] ⟨fun _ ↦ true, .AtNextChar⟩)
        (processAll twoLines [.CC true fun _ ↦ false, .Start] ⟨fun _ ↦ true, .AtNextChar⟩) ∧
      (compileSeq twoLines 0 [.CC true fun _ ↦ false, .Start, .CC true fun p ↦ p == 1 || p == 3]
        ⟨fun _ ↦ true, .AtNextChar⟩).stream 3 = true := by
  refine ⟨followsAreUnits_twoLines, ?_, ?_⟩
  · intro h
    obtain ⟨q, -, hq⟩ := ((h 0).mp rfl).1
    simp [processAll, SeqItem.process, compileCC] at hq
  · simp [compileSeq, compileSeqTail, SeqItem.process, SeqItem.minMatchLength, compileCC,
      compileStart, NextCodeUnitStream, IfInsertionGap, twoLines]

end Sequences

end Parabix.RE.RE_Block_Compiler
