import Parabix.RE.BlockCompilerSteps
import Parabix.RE.Boundaries

namespace Parabix.RE.RE_Compiler

open Library Library.BitStream Library.Spans Library.Powers
open Library.Increments (Incremental)
open RE_Block_Compiler (Character Stands Settled FollowsAreUnits stands_iff
  stands_nextCharacter stands_nextCodeUnit)

variable {c : RE_Compiler} {t : Text} {m m1 m2 : Marker} {position : Position} {p q k l : ℕ}
  {x y : Span} {front : Bool} {code code' : Code} {A B : Set ℕ} {symbol : ℕ → ℕ → ℕ}
  {ms : List Marker} {codes : List Code}

section Classes

/-- A character of a set, which is given by the last code units of its characters. -/
def character (t : Text) (A : Set ℕ) : Span := fun p q ↦
  ∃ last, Character t p last ∧ last ∈ A ∧ q = last + 1

/-- All code units are characters. -/
def Units (t : Text) : Prop := ∀ q < t.length, t.indexStream q = true

/-- What the compilers of the alphabets find is at the last code units of characters. -/
def Reads (c : RE_Compiler) (symbol : ℕ → ℕ → ℕ) : Prop :=
  ∀ cc : CC, cc.set.WellFormed → ∀ compile, c.mAlphabetCompilers cc.alphabet = some compile →
    ∀ q, compile cc q = true ↔ c.text.indexStream q = true ∧ symbol cc.alphabet q ∈ cc.set.members

/-- Code that goes on by a character of a set. The markers are at the ends of the characters. -/
def Classifies (c : RE_Compiler) (code : Code) (A : Set ℕ) : Prop :=
  ∀ m vars, Placed c.text m → ∃ f : Stream, code m vars = some ⟨⟨f, .AtEnd⟩, [], vars⟩ ∧
    (∀ q < c.text.length, f q = true → c.text.indexStream q = true) ∧
    ∀ p q, Character c.text p q → (f q = true ↔ Stands c.text m p ∧ q ∈ A)

theorem followed_character : Followed t (character t A) := by
  rintro p q ⟨last, hc, -, -⟩ -
  exact ⟨last, hc⟩

theorem Classifies.realizes (h : Classifies c code A) :
    Realizes c front code (character c.text A) 0 := by
  refine .of_exact followed_character fun m vars hm _ ↦ ?_
  obtain ⟨f, hcall, hindex, hf⟩ := h m vars hm
  refine ⟨_, hcall, placed_of_index end_ne hindex, ?_⟩
  ext ⟨p', r, hr⟩
  constructor
  · rintro ⟨q, rfl, hq⟩
    obtain ⟨p, hp⟩ := exists_character (hr.first q rfl)
    obtain ⟨hstands, hA⟩ := (hf p q hp).1 hq
    exact ⟨⟨p, q, hp⟩, hstands, q, hp, hA, rfl⟩
  · rintro ⟨⟨p, _⟩, hstands, q, hp, hA, heq⟩
    exact ⟨q, heq, (hf p q hp).2 ⟨hstands, hA⟩⟩

theorem nextCharacter_iff (hm : Settled t m) (hc : Character t p q) :
    NextCharacter t m q = true ↔ Stands t m p := by
  rw [← stands_nextCharacter hm hc, stands_iff hc]
  simp [RE_Block_Compiler.bitAt]

theorem Units.eq (hu : Units t) (hb : Bounded t) (hc : Character t p q) : p = q := by
  by_contra hne
  have hlt := Nat.lt_of_le_of_ne hc.le hne
  have hlength := hb q hc.last
  have hin := hc.inside p le_rfl hlt
  rw [hu p (by omega)] at hin
  cases hin

theorem nextCodeUnit_iff (hu : Units t) (hb : Bounded t) (hc : Character t p q) :
    NextCodeUnitStream m q = true ↔ Stands t m p := by
  obtain rfl := hu.eq hb hc
  by_cases hpos : m.position = .AtNextChar
  · have hm : m = ⟨m.stream, .AtNextChar⟩ := by rw [← hpos]
    rw [hm, stands_iff hc]
    simp [RE_Block_Compiler.bitAt, NextCodeUnitStream]
  · exact stands_nextCodeUnit hpos

theorem classifies_cc (hb : Bounded c.text) (hr : Reads c symbol) {cc : CC}
    (hcc : cc.set.WellFormed) (hcompiler : (c.mAlphabetCompilers cc.alphabet).isSome = true)
    (hu : cc.alphabet = c.mCodeUnitAlphabet → Units c.text) :
    Classifies c (c.compileCC cc)
      {q | c.regions.matchable q = true ∧ symbol cc.alphabet q ∈ cc.set.members} := by
  intro m vars hm
  obtain ⟨compile, hcompile⟩ := Option.isSome_iff_exists.1 hcompiler
  rw [RE_Compiler.compileCC, hcompile]
  split_ifs with hempty
  · refine ⟨_, rfl, fun q _ h ↦ absurd h Bool.false_ne_true, fun p q _ ↦ ?_⟩
    rw [members_of_empty hcc hempty]
    simp
  · refine ⟨_, rfl, fun q _ hq ↦ ?_, fun p q hc ↦ ?_⟩
    · simp only [Bool.and_eq_true] at hq
      exact ((hr cc hcc compile hcompile q).1 hq.2.2).1
    · have hnext : (if cc.alphabet = c.mCodeUnitAlphabet then NextCodeUnitStream m
          else NextCharacter c.text m) q = true ↔ Stands c.text m p := by
        split_ifs with hunit
        · exact nextCodeUnit_iff (hu hunit) hb hc
        · exact nextCharacter_iff hm.settled hc
      simp only [Bool.and_eq_true, decide_eq_true_eq]
      rw [hr cc hcc compile hcompile q]
      simp only [hc.last, true_and, Set.mem_ofPred_eq]
      exact and_congr_left fun _ ↦ hnext

theorem classifies_any :
    Classifies c (Code.pure (RE_Block_Compiler.compileAny c.regions))
      {q | c.regions.matchable q = true} := by
  intro m vars hm
  refine ⟨_, rfl, fun q hq hs ↦ ?_, fun p q hc ↦ ?_⟩
  · exact (placed_nextCharacter hm).index nextChar_ne q hq (Bool.and_eq_true_iff.1 hs).1
  · rw [Bool.and_eq_true]
    exact and_congr_left fun _ ↦ nextCharacter_iff hm.settled hc

/-- With an indexing alphabet a name is for characters that are code units. -/
theorem Classifies.name (hb : Bounded c.text) (h : Classifies c code A)
    (hu : c.mIndexingAlphabet.isSome = true → Units c.text) :
    Classifies c (c.compileName code) A := by
  intro m vars hm
  by_cases hindexing : c.mIndexingAlphabet.isSome = true
  · have hunits := hu hindexing
    obtain ⟨f, hcall, hindex, hf⟩ := h ⟨fun _ ↦ true, .AtNextChar⟩ vars
      (placed_of_index nextChar_ne fun q hq _ ↦ hunits q hq)
    refine ⟨_, by rw [compileName, if_pos hindexing, hcall]; rfl, fun q hq _ ↦ hunits q hq,
      fun p q hc ↦ ?_⟩
    have hall : Stands c.text ⟨fun _ ↦ true, .AtNextChar⟩ p := ⟨q, hc, rfl⟩
    have hnext : (if m.position = .AtEnd then indexedAdvance c.text.indexStream 1 m.stream
        else m.stream) q = true ↔ Stands c.text m p := by
      split_ifs with hpos
      · rw [← nextCharacter_iff hm.settled hc, NextCharacter, hpos]
      · rw [← nextCodeUnit_iff hunits hb hc, NextCodeUnitStream]
        cases hposition : m.position with
        | AtEnd => exact absurd hposition hpos
        | AtNextCodeUnit => rfl
        | AtNextChar => rfl
    rw [Bool.and_eq_true, hf p q hc]
    exact ⟨fun h ↦ ⟨hnext.1 h.1, h.2.2⟩, fun h ↦ ⟨hnext.2 h.1, hall, h.2⟩⟩
  · obtain ⟨f, hcall, hrest⟩ := h m vars hm
    exact ⟨f, by rw [compileName, if_neg hindexing, hcall], hrest⟩

end Classes

section Alternatives

theorem accum_iff : accum ms position p = true ↔
    ∃ m ∈ ms, m.position = position ∧ m.stream p = true := by
  simp [accum]

theorem placed_accum (position : Position) (h : ∀ m ∈ ms, Placed t m) :
    Placed t ⟨accum ms position, position⟩ := by
  refine ⟨fun hpos p q hc r hp hq hr ↦ ?_, fun hpos q hq hs ↦ ?_⟩
  · obtain ⟨m, hm, hposition, hr⟩ := accum_iff.1 hr
    exact accum_iff.2 ⟨m, hm, hposition, (h m hm).settled (hposition.trans hpos) p q hc r hp hq hr⟩
  · obtain ⟨m, hm, hposition, hs⟩ := accum_iff.1 hs
    exact (h m hm).index (hposition ▸ hpos) q hq hs

theorem mem_marked_accum {p : Place t} : p ∈ marked t ⟨accum ms position, position⟩ ↔
    ∃ m ∈ ms, m.position = position ∧ p ∈ marked t m := by
  obtain ⟨p, q, hc⟩ := p
  refine (stands_bit hc).trans ?_
  simp only [accum_iff]
  constructor
  · rintro ⟨i, hi, m, hm, rfl, hs⟩
    exact ⟨m, hm, rfl, (stands_bit hc).2 ⟨i, hi, hs⟩⟩
  · rintro ⟨m, hm, rfl, hs⟩
    obtain ⟨i, hi, hs⟩ := (stands_bit hc).1 hs
    exact ⟨i, hi, m, hm, rfl, hs⟩

/-- The markers of all alternatives are combined. -/
theorem combine_spec (h : ∀ m ∈ ms, Placed c.text m) : Placed c.text (c.combine ms) ∧
    ∀ p, p ∈ marked c.text (c.combine ms) ↔ ∃ m ∈ ms, p ∈ marked c.text m := by
  rw [combine]
  split_ifs with hall
  · refine ⟨placed_accum .AtEnd h, fun p ↦ ?_⟩
    rw [mem_marked_accum]
    have hend : ∀ m ∈ ms, m.position = .AtEnd := fun m hm ↦
      of_decide_eq_true (List.all_eq_true.1 hall m hm)
    refine exists_congr fun m ↦ and_congr_right fun hm ↦ ?_
    exact and_iff_right (hend m hm)
  · have hend := placed_accum .AtEnd h
    have hunit := placed_accum .AtNextCodeUnit h
    have hnext := placed_accum .AtNextChar h
    refine ⟨((placed_nextCharacter hend).or (placed_nextCharacter hunit)).or hnext, fun p ↦ ?_⟩
    have hmarked : marked c.text ⟨fun p ↦ (NextCharacter c.text ⟨accum ms .AtEnd, .AtEnd⟩ p ||
        NextCharacter c.text ⟨accum ms .AtNextCodeUnit, .AtNextCodeUnit⟩ p) ||
          accum ms .AtNextChar p, .AtNextChar⟩ =
        marked c.text ⟨accum ms .AtEnd, .AtEnd⟩ ∪
          marked c.text ⟨accum ms .AtNextCodeUnit, .AtNextCodeUnit⟩ ∪
            marked c.text ⟨accum ms .AtNextChar, .AtNextChar⟩ := by
      rw [marked_or, marked_or, marked_nextCharacter hend, marked_nextCharacter hunit]
    refine (Set.ext_iff.1 hmarked p).trans ?_
    simp only [Set.mem_union, mem_marked_accum]
    constructor
    · rintro ((⟨m, hm, -, hp⟩ | ⟨m, hm, -, hp⟩) | ⟨m, hm, -, hp⟩) <;> exact ⟨m, hm, hp⟩
    · rintro ⟨m, hm, hp⟩
      cases hpos : m.position with
      | AtEnd => exact .inl (.inl ⟨m, hm, hpos, hp⟩)
      | AtNextCodeUnit => exact .inl (.inr ⟨m, hm, hpos, hp⟩)
      | AtNextChar => exact .inr ⟨m, hm, hpos, hp⟩

/-- The code of each alternative finds what it matches. -/
structure RealizesAll (c : RE_Compiler) (front : Bool) (codes : List Code) (x : Span) (k : ℕ) :
    Prop where
  followed : Followed c.text x
  steps : ∃ step, Incremental (within c.text x) k step ∧ ∀ m V rest, V.length = k →
    Placed c.text m → Kept c.text V → Entered c front m →
      ∃ ms V', processAlternatives codes m (V ++ₛ rest) = some (ms, V', rest) ∧
        (∀ m' ∈ ms, Placed c.text m') ∧ Made c.text step m V (c.combine ms) V'

theorem RealizesAll.alt (h : RealizesAll c front codes x k) :
    Realizes c front (c.compileAlt codes) x k := by
  obtain ⟨step, hstep, hcode⟩ := h.steps
  refine ⟨h.followed, step, hstep, fun m V rest hV hm hkept hfront ↦ ?_⟩
  obtain ⟨ms, V', hcall, -, hmade⟩ := hcode m V rest hV hm hkept hfront
  refine ⟨c.combine ms, V', ?_, hmade⟩
  rw [compileAlt, hcall]
  rfl

theorem realizesAll_nil : RealizesAll c front [] ⊥ 0 := by
  refine ⟨fun p q h ↦ h.elim, _, Increments.incremental_exact _, fun m V rest hV hm _ _ ↦ ?_⟩
  obtain rfl := List.length_eq_zero_iff.1 hV
  obtain ⟨hplaced, hmarked⟩ : Placed c.text (c.combine []) ∧
      ∀ p, p ∈ marked c.text (c.combine []) ↔ ∃ m ∈ [], p ∈ marked c.text m :=
    combine_spec fun m hm ↦ absurd hm List.not_mem_nil
  refine ⟨[], [], rfl, fun m hm ↦ absurd hm List.not_mem_nil, hplaced,
    fun v hv ↦ absurd hv List.not_mem_nil, .nil, rfl, rfl, ?_⟩
  ext p
  refine (hmarked p).trans ⟨?_, ?_⟩
  · rintro ⟨m, hm, -⟩
    exact absurd hm List.not_mem_nil
  · rintro ⟨q, -, hq⟩
    exact hq.elim

theorem RealizesAll.cons (h : Realizes c front code x k) (h' : RealizesAll c front codes y l) :
    RealizesAll c front (code :: codes) (x ⊔ y) (k + l) := by
  obtain ⟨step, hstep, hcode⟩ := h.steps
  obtain ⟨step', hstep', hcode'⟩ := h'.steps
  refine ⟨h.followed.sup h'.followed, step.sup k step', hstep.sup hstep',
    fun m V rest hV hm hkept hfront ↦ ?_⟩
  obtain ⟨V1, V2, rfl, hV1, hV2, hkept1, hkept2⟩ := hkept.split hV
  obtain ⟨m1, V1', hcall, hmade⟩ := hcode m V1 (V2 ++ₛ rest) hV1 hm hkept1 hfront
  obtain ⟨ms, V2', hcall', hplaced, hmade'⟩ := hcode' m V2 rest hV2 hm hkept2 hfront
  have hall : ∀ m' ∈ m1 :: ms, Placed c.text m' := by
    intro m' hm'
    rcases List.mem_cons.1 hm' with rfl | hm'
    · exact hmade.placed
    · exact hplaced m' hm'
  obtain ⟨hcombined, hmarked⟩ := combine_spec hall
  refine ⟨m1 :: ms, V1' ++ V2', ?_, hall, hcombined, hmade.kept.append hmade'.kept,
    List.rel_append hmade.grown hmade'.grown, _, _, _, _, _, _, List.map_append, List.map_append,
    (List.length_map _).trans hV1, ?_, hmade.step, hmade'.step⟩
  · rw [processAlternatives, Stream'.append_append_stream, hcall]
    simp [hcall']
  · ext p
    rw [hmarked, Set.mem_union, (combine_spec hplaced).2]
    simp

/-- Alternatives that are classes are a class. -/
def ClassifyAll (c : RE_Compiler) (codes : List Code) (A : Set ℕ) : Prop :=
  ∀ m vars, Placed c.text m → ∃ fs : List Stream,
    processAlternatives codes m vars = some (fs.map fun f ↦ ⟨f, .AtEnd⟩, [], vars) ∧
    (∀ f ∈ fs, ∀ q < c.text.length, f q = true → c.text.indexStream q = true) ∧
    ∀ p q, Character c.text p q → ((∃ f ∈ fs, f q = true) ↔ Stands c.text m p ∧ q ∈ A)

theorem ClassifyAll.alt (h : ClassifyAll c codes A) : Classifies c (c.compileAlt codes) A := by
  intro m vars hm
  obtain ⟨fs, hcall, hindex, hfs⟩ := h m vars hm
  have hfound (q : ℕ) : accum (fs.map fun f ↦ ⟨f, .AtEnd⟩) .AtEnd q = true ↔
      ∃ f ∈ fs, f q = true := by
    rw [accum_iff]
    simp
  refine ⟨_, ?_, fun q hq hs ↦ ?_, fun p q hc ↦ (hfound q).trans (hfs p q hc)⟩
  · rw [compileAlt, hcall]
    simp [combine]
  · obtain ⟨f, hf, hs⟩ := (hfound q).1 hs
    exact hindex f hf q hq hs

theorem classifyAll_nil : ClassifyAll c [] ∅ := by
  intro m vars _
  exact ⟨[], rfl, fun f hf ↦ absurd hf List.not_mem_nil, fun p q _ ↦ by simp⟩

theorem Classifies.consAll (h : Classifies c code A) (h' : ClassifyAll c codes B) :
    ClassifyAll c (code :: codes) (A ∪ B) := by
  intro m vars hm
  obtain ⟨f, hcall, hindex, hf⟩ := h m vars hm
  obtain ⟨fs, hcall', hindex', hfs⟩ := h' m vars hm
  refine ⟨f :: fs, ?_, List.forall_mem_cons.2 ⟨hindex, hindex'⟩, fun p q hc ↦ ?_⟩
  · rw [processAlternatives, hcall]
    simp [hcall']
  · rw [List.exists_mem_cons_iff, hf p q hc, hfs p q hc, Set.mem_union, and_or_left]

end Alternatives

section MatchStar

/-- A class is repeated by one MatchStar. -/
theorem matchStar_iff (hb : Bounded c.text) {base f : Stream}
    (hbase : ∀ q < c.text.length, base q = true → c.text.indexStream q = true)
    (hf : ∀ p q, Character c.text p q → (f q = true ↔ q ∈ A)) (hc : Character c.text p q) :
    matchStar base (fun i ↦ f i || !c.text.indexStream i) q = true ↔
      ∃ start, Stands c.text ⟨base, .AtNextChar⟩ start ∧
        powers (character c.text A) Set.univ start p := by
  rw [matchStar_iff_exists]
  constructor
  · rintro ⟨q0, hle, hs, hmask⟩
    have hlength := hb q hc.last
    obtain ⟨p0, hc0⟩ := exists_character (hbase q0 (by omega) hs)
    induction hn : q - q0 using Nat.strongRecOn generalizing p q with
    | ind n ih =>
      rcases Nat.eq_or_lt_of_le hle with rfl | hlt
      · obtain rfl : p0 = p := Character.first_unique hc0 hc
        exact ⟨p0, ⟨q0, hc0, hs⟩, powers_apply.2 ⟨0, trivial, rfl⟩⟩
      · have hp : q0 < p := by
          by_contra hge
          have hin := hc.inside q0 (by omega) hlt
          rw [hc0.last] at hin
          cases hin
        obtain ⟨r, rfl⟩ := Nat.exists_eq_succ_of_ne_zero (show p ≠ 0 by omega)
        have hrq := hc.le
        have hr := hc.first r rfl
        obtain ⟨p1, hc1⟩ := exists_character hr
        obtain ⟨start, hstart, hreach⟩ := ih (r - q0) (by omega) hc1 (by omega)
          (fun j h1 h2 ↦ hmask j h1 (by omega)) (hb r hr) rfl
        refine ⟨start, hstart, ?_⟩
        have hstep := hmask r (by omega) (by omega)
        rw [hr, Bool.not_true, Bool.or_false, hf p1 r hc1] at hstep
        obtain ⟨n, -, hn⟩ := powers_apply.1 hreach
        refine powers_apply.2 ⟨n + 1, trivial, ?_⟩
        rw [pow_succ]
        exact ⟨p1, hn, r, hc1, hstep, rfl⟩
  · rintro ⟨start, hstart, hreach⟩
    obtain ⟨n, -, hn⟩ := powers_apply.1 hreach
    induction n generalizing p q with
    | zero =>
      obtain rfl : start = p := hn
      obtain ⟨q0, hc0, hs⟩ := hstart
      obtain rfl := hc.unique hc0
      exact ⟨q, le_rfl, hs, fun j h1 h2 ↦ absurd h1 (by omega)⟩
    | succ n ih =>
      rw [pow_succ] at hn
      obtain ⟨p1, hn, last, hc1, hA, rfl⟩ := hn
      obtain ⟨q0, hle, hs, hmask⟩ := ih hc1 (powers_apply.2 ⟨n, trivial, hn⟩) hn
      have hlq := hc.le
      refine ⟨q0, by omega, hs, fun j h1 h2 ↦ ?_⟩
      rcases Nat.lt_trichotomy j last with hlt | rfl | hlt
      · exact hmask j h1 hlt
      · rw [(hf p1 j hc1).2 hA, Bool.true_or]
      · rw [hc.inside j (by omega) h2, Bool.not_false, Bool.or_true]

end MatchStar

section Anchors

theorem Units.placed (hu : Units t) (hb : Bounded t) (m : Marker) : Placed t m := by
  refine ⟨fun _ p q hc r hp hq hr ↦ ?_, fun _ q hq _ ↦ hu q hq⟩
  obtain rfl := hu.eq hb hc
  obtain rfl : r = p := by omega
  exact hr

/-- What is not matched does not move the markers. -/
theorem image_zeroWidth {S : ℕ → Prop} {C : Set (Place t)} :
    Increments.image (within t (zeroWidth S)) C = {p | p ∈ C ∧ S p.1} := by
  ext p
  constructor
  · rintro ⟨q, hq, heq, hS⟩
    obtain rfl : q = p := Subtype.ext heq
    exact ⟨hq, hS⟩
  · rintro ⟨hp, hS⟩
    exact ⟨p, hp, rfl, hS⟩

theorem followed_zeroWidth {S : ℕ → Prop} : Followed t (zeroWidth S) :=
  followed_one.mono zeroWidth_le_one

/-- Regions start at characters, and what follows them is a character of one code unit. -/
structure Regular (r : RE_Block_Compiler.Regions) : Prop where
  bounded : Bounded r.text
  start (p : ℕ) : r.regionStart p = true → ∃ q, Character r.text p q
  follow : FollowsAreUnits r

theorem realizes_start (hr : Regular c.regions) :
    Realizes c true (Code.pure (RE_Block_Compiler.compileStart c.regions))
      (zeroWidth fun p ↦ c.regions.regionStart p = true) 0 := by
  refine realizes_pure followed_zeroWidth fun m hm hfront ↦ ⟨⟨fun _ p q hc r hp hq hs ↦ ?_,
    fun h ↦ absurd rfl h⟩, ?_⟩
  · obtain ⟨q', hc'⟩ := hr.start r hs
    obtain rfl : r = p := by
      by_contra hne
      have hfirst : c.text.indexStream (r - 1) = true := hc'.first (r - 1) (by omega)
      rw [hc.inside (r - 1) (by omega) (by omega)] at hfirst
      cases hfirst
    exact hs
  · rw [image_zeroWidth]
    ext p
    exact ⟨fun hp ↦ ⟨hfront rfl p hp, hp⟩, fun hp ↦ hp.2⟩

theorem realizes_stop (hr : Regular c.regions) :
    Realizes c front (Code.pure (RE_Block_Compiler.compileEnd c.regions))
      (zeroWidth fun p ↦ c.regions.regionFollow p = true) 0 := by
  refine realizes_pure followed_zeroWidth fun m hm _ ↦ ⟨?_, ?_⟩
  · rw [RE_Block_Compiler.compileEnd]
    split_ifs with hpos
    · exact placed_of_index end_ne fun q hq hs ↦
        hm.index (hpos ▸ end_ne) q hq (Bool.and_eq_true_iff.1 hs).1
    · exact placed_of_index nextChar_ne fun q hq hs ↦
        (placed_nextCharacter hm).index nextChar_ne q hq (Bool.and_eq_true_iff.1 hs).2
  · rw [image_zeroWidth]
    ext p
    exact RE_Block_Compiler.stands_compileEnd hr.follow

end Anchors

section Assertions

theorem placed_ones : Placed t ones := ⟨fun _ _ _ _ _ _ _ _ ↦ rfl, fun h ↦ absurd rfl h⟩

theorem entered_ones : Entered c front ones := fun _ _ _ ↦ rfl

/-- What is compiled on its own stands where something that is matched ends. -/
theorem Realizes.compiled (h : Realizes c true code x 0) (vars : Stream' StarVars) :
    ∃ m', code ones vars = some ⟨m', [], vars⟩ ∧ Placed c.text m' ∧
      ∀ p : Place c.text, Stands c.text m' p.1 ↔ ∃ start, x start p.1 := by
  obtain ⟨m', hcall, hplaced, hmarked⟩ := h.exact vars placed_ones entered_ones
  refine ⟨m', hcall, hplaced, fun p ↦ (Set.ext_iff.1 hmarked p).trans ⟨?_, ?_⟩⟩
  · rintro ⟨start, -, hx⟩
    exact ⟨start.1, hx⟩
  · rintro ⟨start, hx⟩
    exact ⟨⟨start, h.followed start p.1 hx p.2⟩, rfl, hx⟩

/-- Code that keeps some of the markers. -/
theorem realizes_zeroWidth {S : ℕ → Prop} (h : ∀ m vars, Placed c.text m →
    ∃ m', code m vars = some ⟨m', [], vars⟩ ∧ Placed c.text m' ∧
      ∀ p, p ∈ marked c.text m' ↔ p ∈ marked c.text m ∧ S p.1) :
    Realizes c front code (zeroWidth S) 0 := by
  refine .of_exact followed_zeroWidth fun m vars hm _ ↦ ?_
  obtain ⟨m', hcall, hplaced, hmarked⟩ := h m vars hm
  refine ⟨m', hcall, hplaced, ?_⟩
  rw [image_zeroWidth]
  exact Set.ext hmarked

theorem Placed.and {s s' : Stream} (h : Placed t ⟨s, position⟩) (h' : Placed t ⟨s', position⟩) :
    Placed t ⟨fun i ↦ s i && s' i, position⟩ := by
  refine ⟨fun hpos p q hc r hp hq hr ↦ ?_, fun hpos q hq hs ↦ ?_⟩
  · rw [Bool.and_eq_true] at hr ⊢
    exact ⟨h.settled hpos p q hc r hp hq hr.1, h'.settled hpos p q hc r hp hq hr.2⟩
  · exact h.index hpos q hq (Bool.and_eq_true_iff.1 hs).1

theorem createAndAligned_spec (hb : Bounded c.text) (negated : Bool) (h1 : Placed c.text m1)
    (h2 : Placed c.text m2) (hu : negated = true → Units c.text) :
    Placed c.text (c.createAndAligned negated m1 m2) ∧
      ∀ p, p ∈ marked c.text (c.createAndAligned negated m1 m2) ↔
        p ∈ marked c.text m1 ∧ (p ∈ marked c.text m2 ↔ negated = false) := by
  obtain ⟨s1, s2, position, haligned, hs1, hs2, hmarked1, hmarked2⟩ := alignMarkers_spec hb h1 h2
  rw [createAndAligned, haligned, ← hmarked1, ← hmarked2]
  cases negated with
  | true =>
    refine ⟨(hu rfl).placed hb _, fun p ↦ ?_⟩
    have hand : p ∈ marked c.text ⟨fun i ↦ s1 i && !s2 i, position⟩ ↔ _ :=
      Set.ext_iff.1 marked_and_not p
    simpa using hand
  | false =>
    simp only [Bool.bne_false]
    refine ⟨hs1.and hs2, fun p ↦ ?_⟩
    have hand : p ∈ marked c.text ⟨fun i ↦ s1 i && s2 i, position⟩ ↔ _ :=
      Set.ext_iff.1 marked_and p
    simpa using hand

theorem marked_and_not_index (hu : Units t) (hb : Bounded t) {s s' : Stream} :
    marked t ⟨fun i ↦ s i && (!s' i && t.indexStream i), position⟩ =
      marked t ⟨s, position⟩ \ marked t ⟨s', position⟩ := by
  rw [← marked_and_not]
  ext ⟨p, q, hc⟩
  refine (stands_iff hc).trans (Iff.trans ?_ (stands_iff hc).symm)
  refine exists_congr fun i ↦ and_congr_right fun hi ↦ ?_
  have hlength := hb q hc.last
  have hle := hc.le
  have hindex : i < t.length := by
    cases position with
    | AtEnd =>
      rw [RE_Block_Compiler.bitAt] at hi
      split_ifs at hi
      obtain rfl := Option.some.inj hi
      omega
    | AtNextCodeUnit =>
      obtain rfl := Option.some.inj hi
      omega
    | AtNextChar =>
      obtain rfl := Option.some.inj hi
      omega
  rw [hu i hindex, Bool.and_true]

theorem realizes_lookBehind (hb : Bounded c.text) (e : Expression) (sense : Sense)
    (h : Realizes c true code x 0) (hu : sense = .Negative → Units c.text) :
    Realizes c front (c.compileAssertion e code .LookBehind sense)
      (zeroWidth (Boundaries.asserted .LookBehind sense x)) 0 := by
  refine realizes_zeroWidth fun m vars hm ↦ ?_
  obtain ⟨m', hcall, hplaced, hmarked⟩ := h.compiled vars
  obtain ⟨s1, s2, position, haligned, hs1, hs2, hmarked1, hmarked2⟩ :=
    alignMarkers_spec hb hm hplaced
  have hfound (p : Place c.text) : p ∈ marked c.text ⟨s2, position⟩ ↔ ∃ start, x start p.1 := by
    rw [hmarked2]
    exact hmarked p
  refine ⟨RE_Block_Compiler.compileLookBehind c.text m' sense m,
    by rw [compileAssertion, hcall]; rfl, ?_⟩
  rw [RE_Block_Compiler.compileLookBehind, haligned, ← hmarked1]
  cases sense with
  | Positive =>
    refine ⟨hs1.and hs2, fun p ↦ (Set.ext_iff.1 marked_and p).trans ?_⟩
    exact and_congr_right fun _ ↦ hfound p
  | Negative =>
    have hunits := hu rfl
    refine ⟨hunits.placed hb _, fun p ↦ (Set.ext_iff.1 (marked_and_not_index hunits hb) p).trans ?_⟩
    exact and_congr_right fun _ ↦ not_congr (hfound p)

/-- A lookahead of what takes no characters. -/
theorem realizes_zeroWidth_lookAhead (hb : Bounded c.text) {e : Expression} (sense : Sense) {lo : ℤ}
    (h : Realizes c true code x 0) (hlength : c.lengthRange e = .ok (lo, 0)) (hx : x ≤ 1)
    (hu : sense = .Negative → Units c.text) :
    Realizes c front (c.compileAssertion e code .LookAhead sense)
      (zeroWidth (Boundaries.asserted .LookAhead sense x)) 0 := by
  refine realizes_zeroWidth fun m vars hm ↦ ?_
  obtain ⟨m', hcall, hplaced, hmarked⟩ := h.compiled vars
  have hfound (p : Place c.text) : p ∈ marked c.text m' ↔ ∃ stop, x p.1 stop := by
    refine (hmarked p).trans ⟨?_, ?_⟩
    · rintro ⟨q, hq⟩
      obtain rfl : q = p.1 := hx _ _ hq
      exact ⟨_, hq⟩
    · rintro ⟨q, hq⟩
      obtain rfl : p.1 = q := hx _ _ hq
      exact ⟨_, hq⟩
  have hequal : RE_Block_Compiler.compileZeroWidth c.text m' sense m =
      c.createAndAligned (decide (sense = .Negative)) m m' := by
    cases sense <;> simp [RE_Block_Compiler.compileZeroWidth, createAndAligned,
      RE_Block_Compiler.createNotIf]
  obtain ⟨hboth, hstands⟩ := createAndAligned_spec hb (decide (sense = .Negative)) hm hplaced
    fun h ↦ hu (of_decide_eq_true h)
  refine ⟨_, ?_, hboth, fun p ↦ (hstands p).trans (and_congr_right fun _ ↦ ?_)⟩
  · rw [compileAssertion, hcall, hlength, ← hequal]
    rfl
  · rw [hfound]
    cases sense with
    | Positive => exact iff_true_right rfl
    | Negative => exact iff_false_right (by decide)

/-- A lookahead of one character of a set. -/
theorem realizes_unitLength {e : Expression} (sense : Sense) {lo : ℤ} (h : Classifies c code A)
    (hlength : c.lengthRange e = .ok (lo, 1)) :
    Realizes c front (c.compileAssertion e code .LookAhead sense)
      (zeroWidth (Boundaries.asserted .LookAhead sense (character c.text A))) 0 := by
  refine realizes_zeroWidth fun m vars hm ↦ ?_
  obtain ⟨f, hcall, -, hf⟩ := h ones vars placed_ones
  have hnext := placed_nextCharacter hm
  have hfound (p q : ℕ) (hc : Character c.text p q) : Stands c.text ⟨f, .AtNextChar⟩ p ↔
      ∃ stop, character c.text A p stop := by
    rw [stands_iff hc]
    simp only [RE_Block_Compiler.bitAt, Option.some.injEq, exists_eq_left']
    refine (hf p q hc).trans ⟨fun hq ↦ ⟨q + 1, q, hc, hq.2, rfl⟩, ?_⟩
    rintro ⟨stop, last, hc', hA, -⟩
    obtain rfl := hc.unique hc'
    exact ⟨rfl, hA⟩
  refine ⟨RE_Block_Compiler.compileUnitLength c.text ⟨f, .AtEnd⟩ sense m, ?_, ?_, ?_⟩
  · rw [compileAssertion, hcall, hlength]
    simp [Except.toOption, hcall]
  · rw [RE_Block_Compiler.compileUnitLength]
    exact placed_of_index nextChar_ne fun q hq hs ↦
      hnext.index nextChar_ne q hq (Bool.and_eq_true_iff.1 hs).1
  · rintro ⟨p, q, hc⟩
    have hmarked : Stands c.text ⟨NextCharacter c.text m, .AtNextChar⟩ p ↔ Stands c.text m p :=
      stands_nextCharacter hm.settled hc
    rw [RE_Block_Compiler.compileUnitLength]
    cases sense with
    | Positive =>
      have hand : Stands c.text ⟨fun i ↦ NextCharacter c.text m i && f i, .AtNextChar⟩ p ↔ _ :=
        RE_Block_Compiler.stands_and hc
      rw [hmarked, hfound p q hc] at hand
      exact hand
    | Negative =>
      have hand : Stands c.text ⟨fun i ↦ NextCharacter c.text m i &&
          (!f i && c.text.indexStream i), .AtNextChar⟩ p ↔ _ :=
        RE_Block_Compiler.stands_and_not_index nextChar_ne hc
      rw [hmarked, hfound p q hc] at hand
      exact hand

end Assertions

section Differences

/-- Matches that end together start together. -/
def Aligned (x y : Span) : Prop := ∀ p p' q, x p q → y p' q → p = p'

/-- What one side matches, with or without what the other one matches. -/
def both (negated : Bool) (x y : Span) : Span := fun p q ↦ x p q ∧ (y p q ↔ negated = false)

theorem both_true : both true x y = x \ y :=
  Span.ext fun _ _ ↦ and_congr_right fun _ ↦ iff_false_right (by decide)

theorem both_false : both false x y = x ⊓ y :=
  Span.ext fun _ _ ↦ and_congr_right fun _ ↦ iff_true_right rfl

theorem realizes_both {code'' : Code} (hb : Bounded c.text) (h : Realizes c front code x 0)
    (h' : Realizes c front code' y 0) (haligned : Aligned x y) (negated : Bool)
    (hu : negated = true → Units c.text)
    (hcall : ∀ m vars m1 m2, code m vars = some ⟨m1, [], vars⟩ →
      code' m vars = some ⟨m2, [], vars⟩ →
        code'' m vars = some ⟨c.createAndAligned negated m1 m2, [], vars⟩) :
    Realizes c front code'' (both negated x y) 0 := by
  refine .of_exact (h.followed.mono fun p q hpq ↦ hpq.1) fun m vars hm hfront ↦ ?_
  obtain ⟨m1, hcall1, hplaced1, hmarked1⟩ := h.exact vars hm hfront
  obtain ⟨m2, hcall2, hplaced2, hmarked2⟩ := h'.exact vars hm hfront
  obtain ⟨hplaced, hstands⟩ := createAndAligned_spec hb negated hplaced1 hplaced2 hu
  refine ⟨_, hcall m vars m1 m2 hcall1 hcall2, hplaced, Set.ext fun p ↦ (hstands p).trans ?_⟩
  rw [hmarked1, hmarked2]
  constructor
  · rintro ⟨⟨q, hq, hx⟩, hiff⟩
    refine ⟨q, hq, hx, fun hy ↦ hiff.1 ⟨q, hq, hy⟩, fun hneg ↦ ?_⟩
    obtain ⟨q', hq', hy⟩ := hiff.2 hneg
    obtain rfl : q = q' := Subtype.ext (haligned _ _ _ hx hy)
    exact hy
  · rintro ⟨q, hq, hx, hiff⟩
    refine ⟨⟨q, hq, hx⟩, ?_, fun hneg ↦ ⟨q, hq, hiff.2 hneg⟩⟩
    rintro ⟨q', hq', hy⟩
    obtain rfl : q = q' := Subtype.ext (haligned _ _ _ hx hy)
    exact hiff.1 hy

theorem realizes_diff (hb : Bounded c.text) (hu : Units c.text) (h : Realizes c front code x 0)
    (h' : Realizes c front code' y 0) (haligned : Aligned x y) :
    Realizes c front (c.compileDiff code code') (x \ y) 0 := by
  rw [← both_true]
  refine realizes_both hb h h' haligned true (fun _ ↦ hu) fun m vars m1 m2 h1 h2 ↦ ?_
  rw [compileDiff, h1]
  simp [h2]

theorem realizes_intersect (hb : Bounded c.text) {lh rh : Expression}
    (hlength : c.alignedUnicodeLength lh rh = some true) (h : Realizes c front code x 0)
    (h' : Realizes c front code' y 0) (haligned : Aligned x y) :
    Realizes c front (c.compileIntersect lh rh code code') (x ⊓ y) 0 := by
  rw [← both_false]
  refine realizes_both hb h h' haligned false (fun h ↦ absurd h Bool.false_ne_true)
    fun m vars m1 m2 h1 h2 ↦ ?_
  rw [compileIntersect, hlength]
  simp [h1, h2]

theorem character_both (negated : Bool) : character t {q | q ∈ A ∧ (q ∈ B ↔ negated = false)} =
    both negated (character t A) (character t B) := by
  refine Span.ext fun p q ↦ ⟨?_, ?_⟩
  · rintro ⟨last, hc, ⟨hA, hB⟩, rfl⟩
    refine ⟨⟨last, hc, hA, rfl⟩, ?_, fun hneg ↦ ⟨last, hc, hB.2 hneg, rfl⟩⟩
    rintro ⟨last', hc', hB', -⟩
    obtain rfl := hc.unique hc'
    exact hB.1 hB'
  · rintro ⟨⟨last, hc, hA, rfl⟩, hiff⟩
    refine ⟨last, hc, ⟨hA, fun hB ↦ hiff.1 ⟨last, hc, hB, rfl⟩, fun hneg ↦ ?_⟩, rfl⟩
    obtain ⟨last', hc', hB, -⟩ := hiff.2 hneg
    obtain rfl := hc.unique hc'
    exact hB

/-- Classes on both sides give a class. -/
theorem Classifies.both {code'' : Code} (h : Classifies c code A) (h' : Classifies c code' B)
    (negated : Bool) (hcall : ∀ m vars m1 m2, code m vars = some ⟨m1, [], vars⟩ →
      code' m vars = some ⟨m2, [], vars⟩ →
        code'' m vars = some ⟨c.createAndAligned negated m1 m2, [], vars⟩) :
    Classifies c code'' {q | q ∈ A ∧ (q ∈ B ↔ negated = false)} := by
  intro m vars hm
  obtain ⟨f, hf, hindex, hfound⟩ := h m vars hm
  obtain ⟨f', hf', -, hfound'⟩ := h' m vars hm
  refine ⟨fun q ↦ f q && (f' q != negated), hcall m vars _ _ hf hf', fun q hq hs ↦ ?_,
    fun p q hc ↦ ?_⟩
  · exact hindex q hq (Bool.and_eq_true_iff.1 hs).1
  · have h1 := hfound p q hc
    have h2 := hfound' p q hc
    simp only [Bool.and_eq_true, bne_iff_ne, Set.mem_ofPred_eq, h1]
    cases negated with
    | true =>
      simp only [Bool.not_eq_true, ne_eq, Bool.true_eq_false, iff_false]
      rw [← Bool.not_eq_true, h2]
      tauto
    | false =>
      simp only [ne_eq, Bool.not_eq_false, iff_true, h2]
      tauto

end Differences

end Parabix.RE.RE_Compiler
