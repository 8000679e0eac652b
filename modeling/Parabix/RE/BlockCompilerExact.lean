import Mathlib.Order.Filter.AtTopBot.Basic
import Mathlib.Order.Filter.Finite
import Parabix.RE.BlockCompilerOperators

namespace Parabix.RE.RE_Compiler

open Filter Library Library.BitStream Library.Spans Library.Powers
open RE_Block_Compiler (Character Stands)

variable {c : RE_Compiler} {t : Text} {m : Marker} {x : Span} {k l : ℕ} {loop front : Bool}
  {code body unbounded : Code} {A B : Set ℕ} {symbol : ℕ → ℕ → ℕ} {e re : Expression}
  {M : Expression.Interpretation Span} {elems : List Expression} {lb ub : ℤ} {fuel depth : ℕ}

section Sequences

/-- The least length of an item is known, and the sum with that of what was matched is no
overflow. -/
def Fits (e : Expression) : Prop :=
  ∃ length, Expression.minMatchLength e = .ok length ∧ 0 ≤ length ∧
    length + RE.IfInsertionGap < 2 ^ 31

variable {items : Expression → Code} {ks : Expression → ℕ}

theorem realizes_all (hfirst : ∀ e ∈ elems.head?, Realizes c front (items e) (e.denote M) (ks e))
    (hrest : ∀ e ∈ elems.tail, Realizes c false (items e) (e.denote M) (ks e)) :
    Realizes c front ((elems.map fun e ↦ (e, items e)).foldr
      (fun item code ↦ item.2.andThen code) (Code.pure id)) (Expression.denoteSeq M elems)
      (elems.map ks).sum := by
  induction elems generalizing front with
  | nil => exact realizes_id
  | cons e elems ih =>
    refine (hfirst e rfl).andThen (ih (fun e he ↦ hrest e ?_) fun e he ↦ hrest e ?_)
    · exact List.mem_of_mem_head? he
    · exact List.mem_of_mem_tail he

/-- The branches of a sequence make no difference. -/
theorem realizes_seqTail (hb : Bounded c.text) (front : Bool) (matchLen : ℤ)
    (hfits : ∀ e ∈ elems, Fits e)
    (hfirst : ∀ e ∈ elems.head?, Realizes c front (items e) (e.denote M) 0)
    (hrest : ∀ e ∈ elems.tail, Realizes c false (items e) (e.denote M) 0)
    (hn : 0 ≤ matchLen) : Realizes c front
      (c.compileSeqTail (elems.map fun e ↦ (e, items e)) matchLen)
      (Expression.denoteSeq M elems) 0 := by
  induction elems generalizing front matchLen with
  | nil =>
    rw [List.map_nil, compileSeqTail]
    exact realizes_id
  | cons e elems ih =>
    obtain ⟨length, hlength, hnonneg, hmax⟩ := hfits e List.mem_cons_self
    have hshort {matchLen : ℤ} (hn : 0 ≤ matchLen) (hgap : matchLen < RE.IfInsertionGap) :
        Realizes c front (c.compileSeqTail ((e :: elems).map fun e ↦ (e, items e)) matchLen)
          (Expression.denoteSeq M (e :: elems)) 0 := by
      have hadd : Expression.addInt matchLen length = .ok (matchLen + length) :=
        if_pos ⟨by omega, by omega⟩
      rw [List.map_cons, compileSeqTail, if_pos hgap]
      have hnext := ih false (matchLen + length) (fun e he ↦ hfits e (List.mem_cons_of_mem _ he))
        (fun e he ↦ hrest e (List.mem_of_mem_head? he))
        (fun e he ↦ hrest e (List.mem_of_mem_tail he)) (by omega)
      have hcode : (fun marker vars ↦ do
          let length ← (Expression.minMatchLength e).toOption
          let matchLen ← (Expression.addInt matchLen length).toOption
          c.compileSeqTail (elems.map fun e ↦ (e, items e)) matchLen marker vars) =
            c.compileSeqTail (elems.map fun e ↦ (e, items e)) (matchLen + length) := by
        rw [hlength]
        simp only [Except.toOption, Option.bind_eq_bind, Option.bind_some, hadd]
      rw [hcode]
      exact (hfirst e rfl).andThen hnext
    by_cases hgap : matchLen < RE.IfInsertionGap
    · exact hshort hn hgap
    · rw [List.map_cons, compileSeqTail, if_neg hgap]
      exact (hshort le_rfl (by decide)).createIf hb

theorem processItems_eq (fuel : ℕ) (elems : List Expression) (depth : ℕ) :
    c.processItems fuel elems depth = elems.map fun e ↦ (e, c.process fuel e depth) := by
  induction elems with
  | nil => rw [processItems, List.map_nil]
  | cons e elems ih => rw [processItems, ih, List.map_cons]

theorem realizesAll_items (h : ∀ e ∈ elems, Realizes c front (items e) (e.denote M) (ks e)) :
    RealizesAll c front (elems.map items) (Expression.denoteAlt M elems) (elems.map ks).sum := by
  induction elems with
  | nil => exact realizesAll_nil
  | cons e elems ih =>
    exact .cons (h e List.mem_cons_self) (ih fun e he ↦ h e (List.mem_cons_of_mem _ he))

end Sequences

section Repetitions

/-- At least so many, and at most so many more. -/
theorem Realizes.repFrom (hb : Bounded c.text) (h : Realizes c false code x k) (hlb : 0 ≤ lb)
    (hle : lb ≤ ub) (hk : k = 0 ∨ ub ≤ 3) :
    Realizes c front (c.compileRepFrom lb ub code unbounded) (powers x (counts lb ub))
      (ub.toNat * k) := by
  have hbounded : ub ≠ UNBOUNDED_REP := by
    rw [UNBOUNDED_REP]
    omega
  have hat := h.expandLowerBound hb front lb.toNat 3 (hk.imp_right fun h ↦ by
    change lb.toNat ≤ 3
    omega)
  have hcounts : counts lb ub = {i | ∃ j ∈ Set.Iic (ub - lb).toNat, i = lb.toNat + j} := by
    ext i
    simp only [counts, Set.mem_ofPred_eq, Set.mem_Iic, hbounded, false_or]
    refine ⟨fun hi ↦ ⟨i - lb.toNat, by omega, by omega⟩, ?_⟩
    rintro ⟨j, hj, rfl⟩
    omega
  rw [hcounts, ← pow_mul_powers, ← sup_one_pow, compileRepFrom, if_neg hbounded]
  split_ifs with hlt
  · have hup := h.expandUpperBound hb false (ub - lb).toNat 3 (hk.imp_right fun h ↦ by
      change (ub - lb).toNat ≤ 3
      omega)
    have hsum : lb.toNat * k + (ub - lb).toNat * k = ub.toNat * k := by
      rw [← Nat.add_mul]
      congr 1
      omega
    rw [← hsum]
    exact hat.andThen hup
  · obtain rfl : lb = ub := by omega
    rw [sub_self, Int.toNat_zero, pow_zero, mul_one]
    exact hat

/-- At least so many, and any number more. -/
theorem Realizes.repUnbounded (hb : Bounded c.text) (h : Realizes c false code x k)
    (hunbounded : Realizes c false unbounded (powers x Set.univ) l) (hlb : 0 ≤ lb)
    (hk : k = 0 ∨ lb ≤ 3) :
    Realizes c front (c.compileRep lb UNBOUNDED_REP code unbounded)
      (powers x (counts lb UNBOUNDED_REP)) (lb.toNat * k + l) := by
  have hfrom : Realizes c front (c.compileRepFrom lb UNBOUNDED_REP code unbounded)
      (powers x (counts lb UNBOUNDED_REP)) (lb.toNat * k + l) := by
    have hcounts : counts lb UNBOUNDED_REP = {i | ∃ j ∈ Set.univ, i = lb.toNat + j} := by
      ext i
      simp only [counts, Set.mem_ofPred_eq, true_or, and_true, Set.mem_univ, true_and]
      refine ⟨fun hi ↦ ⟨i - lb.toNat, by omega⟩, ?_⟩
      rintro ⟨j, rfl⟩
      omega
    rw [hcounts, ← pow_mul_powers, compileRepFrom, if_pos rfl]
    refine (h.expandLowerBound hb front lb.toNat 3 (hk.imp_right fun h ↦ ?_)).andThen hunbounded
    change lb.toNat ≤ 3
    omega
  rw [compileRep]
  split_ifs with hfew hzero
  · exact hfrom
  · exact absurd (.inl ⟨by omega, rfl⟩) hfew
  · exact hfrom

theorem Realizes.repBounded (hb : Bounded c.text) (h : Realizes c false code x k) (hlb : 0 ≤ lb)
    (hle : lb ≤ ub) (hk : k = 0 ∨ ub ≤ 3) :
    Realizes c front (c.compileRep lb ub code unbounded) (powers x (counts lb ub))
      (ub.toNat * k) := by
  rw [compileRep]
  split_ifs with hfew hzero
  · exact h.repFrom hb hlb hle hk
  · subst hzero
    have hpositive : 0 ∈ counts 0 ub := ⟨le_rfl, .inr hle⟩
    have hone : counts 0 ub \ {0} = counts 1 ub := by
      ext i
      simp only [counts, Set.mem_sdiff, Set.mem_ofPred_eq, Set.mem_singleton_iff]
      omega
    rw [powers_eq_sup_one hpositive, hone]
    have hle : 1 ≤ ub := by
      rw [UNBOUNDED_REP] at hfew
      omega
    have hsome : Realizes c front (c.compileRepFrom 1 ub code unbounded) _ _ :=
      h.repFrom hb (by decide) hle hk
    refine hsome.orNone (fun m m' ↦ ⟨fun p ↦ (AlignMarkers c.text m m').1.stream p ||
        (AlignMarkers c.text m m').2.stream p, (AlignMarkers c.text m m').2.position⟩)
      (fun m vars result hm ↦ ?_) fun m m' hm hm' ↦ ?_
    · rw [hm]
      rfl
    · obtain ⟨s1, s2, position, haligned, hs1, hs2, hmarked1, hmarked2⟩ :=
        alignMarkers_spec hb hm hm'
      simp only [haligned]
      refine ⟨hs1.or hs2, ?_⟩
      rw [marked_or, hmarked1, hmarked2, Set.union_comm]
  · exact h.repFrom hb hlb hle hk

/-- One MatchStar for any number of characters of a set. -/
theorem realizes_matchStar (hb : Bounded c.text) (hunit : c.isUnit re = some true)
    (h : Classifies c code A) : Realizes c front (c.processUnboundedRep fuel depth re code body)
      (powers (character c.text A) Set.univ) 0 := by
  refine .of_exact (followed_character.powers Set.univ) fun m vars hm _ ↦ ?_
  obtain ⟨f, hcall, -, hf⟩ := h ones vars placed_ones
  have hbase := placed_nextCharacter hm
  have hindex : ∀ q < c.text.length, NextCharacter c.text m q = true →
      c.text.indexStream q = true := hbase.index nextChar_ne
  have hstar {p q : ℕ} (hc : Character c.text p q) := matchStar_iff hb hindex
    (fun p q hc ↦ (hf p q hc).trans ⟨fun h ↦ h.2, fun h ↦ ⟨rfl, h⟩⟩) hc
  refine ⟨⟨fun p ↦ matchStar (NextCharacter c.text m) (fun i ↦ f i || !c.text.indexStream i) p &&
      c.text.indexStream p, .AtNextChar⟩, ?_, ?_, ?_⟩
  · rw [processUnboundedRep, hunit]
    simp [hcall]
  · exact placed_of_index nextChar_ne fun q _ hs ↦ (Bool.and_eq_true_iff.1 hs).2
  · ext ⟨p, q, hc⟩
    rw [mem_marked, RE_Block_Compiler.stands_iff hc]
    simp only [RE_Block_Compiler.bitAt, Option.some.injEq, exists_eq_left', Bool.and_eq_true,
      hc.last, and_true, hstar hc]
    constructor
    · rintro ⟨r, hr, hreach⟩
      obtain ⟨s, hs⟩ := followed_character.powers Set.univ r p hreach ⟨q, hc⟩
      refine ⟨⟨r, s, hs⟩, ?_, hreach⟩
      rw [← marked_nextCharacter hm]
      exact hr
    · rintro ⟨r, hr, hreach⟩
      rw [← marked_nextCharacter hm] at hr
      exact ⟨r.1, hr, hreach⟩

/-- A loop of its own, or rounds with the loop around it. -/
theorem Realizes.unboundedRep (hb : Bounded c.text) (hunit : c.isUnit re = some false)
    (h : Realizes c false body x k) (hfuel : (k + 1) * c.text.length + 2 ≤ fuel) :
    Realizes c front (c.processUnboundedRep fuel depth re code body) (powers x Set.univ)
      (if 0 < depth then k + 1 else 0) := by
  split_ifs with hdepth
  · obtain ⟨hfollowed, step, hstep, hcode⟩ := h.compileStar front
    refine ⟨hfollowed, step, hstep, fun m V rest hV hm hkept hfront ↦ ?_⟩
    obtain ⟨m', V', hcall, hmade⟩ := hcode m V rest hV hm hkept hfront
    refine ⟨m', V', ?_, hmade⟩
    rw [processUnboundedRep, hunit]
    simp [hdepth, hcall]
  · refine .of_exact (h.followed.powers Set.univ) fun m vars hm _ ↦ ?_
    obtain ⟨B, hcall, hplaced, hmarked⟩ := h.whileLoop hb hfuel hm
    refine ⟨⟨B, .AtNextChar⟩, ?_, hplaced, hmarked⟩
    rw [processUnboundedRep, hunit]
    simp [hdepth, hcall]

end Repetitions

section Meaning

theorem asserted_le (kind : Kind) (sense : Sense) (x : Span) :
    zeroWidth (Boundaries.asserted kind sense x) ≤ 1 := zeroWidth_le_one

/-- What the leaves of an expression match in the regions of a text, where the characters have
symbols in the alphabets. What has no code matches nothing. -/
def meaning (c : RE_Compiler) (symbol : ℕ → ℕ → ℕ) : Expression.Interpretation Span where
  any _ := character c.text {q | c.regions.matchable q = true}
  assertion kind sense x := zeroWidth (Boundaries.asserted kind sense x)
  assertion_le := asserted_le
  cc alphabet s := character c.text {q | c.regions.matchable q = true ∧ symbol alphabet q ∈ s}
  group _ _ x := x
  one_le_group _ _ x := Iff.refl (x ≥ 1)
  property _ _ := ⊥
  range _ _ := ⊥
  reference _ _ _ := ⊥
  reference_le _ _ _ := bot_le
  start := zeroWidth fun p ↦ c.regions.regionStart p = true
  start_le := zeroWidth_le_one
  stop := zeroWidth fun p ↦ c.regions.regionFollow p = true
  stop_le := zeroWidth_le_one
  undefined _ := ⊥

/-- Expressions that are for a character of one set. -/
inductive Classy (c : RE_Compiler) : Expression → Prop
  | cc {x : CC} (hset : x.set.WellFormed)
      (hcompiler : (c.mAlphabetCompilers x.alphabet).isSome = true)
      (hunits : x.alphabet = c.mCodeUnitAlphabet → Units c.text) : Classy c (.cc x)
  | any (alphabet : ℕ) : Classy c (.any alphabet)
  | capture {e : Expression} (n : String) (h : Classy c e) : Classy c (.capture n e)
  | name {e : Expression} (n : String) (h : Classy c e)
      (hunits : c.mIndexingAlphabet.isSome = true → Units c.text) : Classy c (.name n (some e))
  | alt {elems : List Expression} (h : ∀ e ∈ elems, Classy c e) : Classy c (.alt elems)
  | diff {lh rh : Expression} (hl : Classy c lh) (hr : Classy c rh) : Classy c (.diff lh rh)
  | intersect {lh rh : Expression} (hlength : c.alignedUnicodeLength lh rh = some true)
      (hl : Classy c lh) (hr : Classy c rh) : Classy c (.intersect lh rh)

/-- What is supported within a loop or not, at the front of what is compiled or not, with the number
of the repetitions that make their rounds with those of the loop around them: no such repetitions in
branches, in assertions, or on the sides of a difference; a Start anchor at the front only; on both
sides of a difference as many characters; one kind of lookahead; no negative lookbehind and no names
for an indexing alphabet where characters have several code units. -/
inductive Supported (c : RE_Compiler) (M : Expression.Interpretation Span) :
    Bool → Bool → Expression → ℕ → Prop
  | classy {loop front : Bool} {e : Expression} (h : Classy c e) : Supported c M loop front e 0
  | start {loop : Bool} : Supported c M loop true .start 0
  | stop {loop front : Bool} : Supported c M loop front .stop 0
  | capture {loop front : Bool} {e : Expression} {k : ℕ} (n : String)
      (h : Supported c M loop front e k) : Supported c M loop front (.capture n e) k
  | name {loop front : Bool} {e : Expression} {k : ℕ} (n : String)
      (hindexing : c.mIndexingAlphabet = none) (h : Supported c M loop front e k) :
      Supported c M loop front (.name n (some e)) k
  | seq {loop front : Bool} {elems : List Expression} (ks : Expression → ℕ)
      (hfirst : ∀ e ∈ elems.head?, Supported c M loop front e (ks e))
      (hrest : ∀ e ∈ elems.tail, Supported c M loop false e (ks e))
      (hfits : loop = false → ∀ e ∈ elems, Fits e) :
      Supported c M loop front (.seq elems) (elems.map ks).sum
  | alt {loop front : Bool} {elems : List Expression} (ks : Expression → ℕ)
      (h : ∀ e ∈ elems, Supported c M loop front e (ks e)) :
      Supported c M loop front (.alt elems) (elems.map ks).sum
  | rep {loop front : Bool} {re : Expression} {lb ub : ℤ} {k : ℕ} (hlb : 0 ≤ lb) (hle : lb ≤ ub)
      (h : Supported c M loop false re k) (hk : k = 0 ∨ ub ≤ 3) :
      Supported c M loop front (.rep re lb ub) (ub.toNat * k)
  | classStar {loop front : Bool} {re : Expression} {lb : ℤ} (hlb : 0 ≤ lb) (h : Classy c re)
      (hunit : c.isUnit re = some true) : Supported c M loop front (.rep re lb UNBOUNDED_REP) 0
  | star {loop front : Bool} {re : Expression} {lb : ℤ} {j k : ℕ} (hlb : 0 ≤ lb)
      (hunit : c.isUnit re = some false) (hbase : Supported c M loop false re j)
      (h : Supported c M true false re k) (hj : j = 0 ∨ lb ≤ 3) :
      Supported c M loop front (.rep re lb UNBOUNDED_REP)
        (lb.toNat * j + if loop then k + 1 else 0)
  | lookBehind {loop front : Bool} {e : Expression} (sense : Sense)
      (h : Supported c M loop true e 0)
      (hunits : sense = .Negative → Units c.text) :
      Supported c M loop front (.assertion e .LookBehind sense) 0
  | zeroWidth {loop front : Bool} {e : Expression} {lo : ℤ} (sense : Sense)
      (h : Supported c M loop true e 0) (hlength : c.lengthRange e = .ok (lo, 0))
      (hle : e.denote M ≤ 1) (hunits : sense = .Negative → Units c.text) :
      Supported c M loop front (.assertion e .LookAhead sense) 0
  | unitLength {loop front : Bool} {e : Expression} {lo : ℤ} (sense : Sense) (h : Classy c e)
      (hlength : c.lengthRange e = .ok (lo, 1)) :
      Supported c M loop front (.assertion e .LookAhead sense) 0
  | diff {loop front : Bool} {lh rh : Expression} (hl : Supported c M loop front lh 0)
      (hr : Supported c M loop front rh 0) (haligned : Aligned (lh.denote M) (rh.denote M))
      (hunits : Units c.text) : Supported c M loop front (.diff lh rh) 0
  | intersect {loop front : Bool} {lh rh : Expression}
      (hlength : c.alignedUnicodeLength lh rh = some true) (hl : Supported c M loop front lh 0)
      (hr : Supported c M loop front rh 0) (haligned : Aligned (lh.denote M) (rh.denote M)) :
      Supported c M loop front (.intersect lh rh) 0

end Meaning

section Classes

theorem character_union : character t (A ∪ B) = character t A ⊔ character t B := by
  refine Span.ext fun p q ↦ ⟨?_, ?_⟩
  · rintro ⟨last, hc, hA | hB, rfl⟩
    · exact .inl ⟨last, hc, hA, rfl⟩
    · exact .inr ⟨last, hc, hB, rfl⟩
  · rintro (⟨last, hc, hA, rfl⟩ | ⟨last, hc, hB, rfl⟩)
    · exact ⟨last, hc, .inl hA, rfl⟩
    · exact ⟨last, hc, .inr hB, rfl⟩

theorem character_empty : character t ∅ = ⊥ :=
  Span.ext fun _ _ ↦ ⟨fun h ↦ h.choose_spec.2.1, fun h ↦ h.elim⟩

/-- The code for a class goes on by its characters. -/
theorem Classy.classifies (hb : Bounded c.text) (hr : Reads c symbol) (h : Classy c e) :
    ∃ A, e.denote (meaning c symbol) = character c.text A ∧
      ∀ fuel depth, Classifies c (c.process fuel e depth) A := by
  induction h with
  | cc hset hcompiler hunits =>
    refine ⟨_, rfl, fun fuel depth ↦ ?_⟩
    rw [process]
    exact classifies_cc hb hr hset hcompiler hunits
  | any alphabet =>
    refine ⟨_, rfl, fun fuel depth ↦ ?_⟩
    rw [process]
    exact classifies_any
  | capture n _ ih =>
    obtain ⟨A, hA, hcode⟩ := ih
    refine ⟨A, hA, fun fuel depth ↦ ?_⟩
    rw [process]
    exact hcode fuel depth
  | name n _ hunits ih =>
    obtain ⟨A, hA, hcode⟩ := ih
    refine ⟨A, hA, fun fuel depth ↦ ?_⟩
    rw [process]
    exact (hcode fuel depth).name hb hunits
  | @alt elems _ ih =>
    have hall : ∃ A, Expression.denoteAlt (meaning c symbol) elems = character c.text A ∧
        ∀ fuel depth, ClassifyAll c (elems.map fun e ↦ c.process fuel e depth) A := by
      induction elems with
      | nil => exact ⟨∅, character_empty.symm, fun _ _ ↦ classifyAll_nil⟩
      | cons e elems ihelems =>
        obtain ⟨A, hA, hcode⟩ := ih e List.mem_cons_self
        obtain ⟨B, hB, hcodes⟩ := ihelems (fun e he ↦ ‹∀ e ∈ _, Classy c e› e
          (List.mem_cons_of_mem _ he)) fun e he ↦ ih e (List.mem_cons_of_mem _ he)
        refine ⟨A ∪ B, ?_, fun fuel depth ↦ (hcode fuel depth).consAll (hcodes fuel depth)⟩
        rw [Expression.denoteAlt, hA, hB, character_union]
    obtain ⟨A, hA, hcode⟩ := hall
    refine ⟨A, hA, fun fuel depth ↦ ?_⟩
    rw [process, processItems_eq, List.map_map]
    exact (hcode fuel depth).alt
  | diff _ _ ihl ihr =>
    obtain ⟨A, hA, hcode⟩ := ihl
    obtain ⟨B, hB, hcode'⟩ := ihr
    refine ⟨_, ?_, fun fuel depth ↦ (hcode fuel depth).both (hcode' fuel depth) true ?_⟩
    · rw [Expression.denote, hA, hB, character_both, both_true]
    · intro m vars m1 m2 h1 h2
      rw [process, compileDiff, h1]
      simp [h2]
  | intersect hlength _ _ ihl ihr =>
    obtain ⟨A, hA, hcode⟩ := ihl
    obtain ⟨B, hB, hcode'⟩ := ihr
    refine ⟨_, ?_, fun fuel depth ↦ (hcode fuel depth).both (hcode' fuel depth) false ?_⟩
    · rw [Expression.denote, hA, hB, character_both, both_false]
    · intro m vars m1 m2 h1 h2
      rw [process, compileIntersect, hlength]
      simp [h1, h2]

end Classes

section Expressions

theorem eventually_forall_mem {P : Expression → ℕ → Prop}
    (h : ∀ e ∈ elems, ∀ᶠ n in atTop, P e n) : ∀ᶠ n in atTop, ∀ e ∈ elems, P e n :=
  (eventually_all_finite elems.finite_toSet).2 h

/-- With enough fuel the code for a supported expression finds what it matches. Outside of loops it
needs no variables. -/
theorem Supported.realizes (hregions : Regular c.regions) (hr : Reads c symbol)
    (h : Supported c (meaning c symbol) loop front e k) : (loop = false → k = 0) ∧
      ∀ᶠ fuel in atTop, ∀ depth, (0 < depth ↔ loop = true) →
        Realizes c front (c.process fuel e depth) (e.denote (meaning c symbol)) k := by
  have hb : Bounded c.text := hregions.bounded
  induction h with
  | classy h =>
    obtain ⟨A, hA, hcode⟩ := h.classifies hb hr
    refine ⟨fun _ ↦ rfl, .of_forall fun fuel depth _ ↦ ?_⟩
    rw [hA]
    exact (hcode fuel depth).realizes
  | start =>
    refine ⟨fun _ ↦ rfl, .of_forall fun fuel depth _ ↦ ?_⟩
    rw [process]
    exact realizes_start hregions
  | stop =>
    refine ⟨fun _ ↦ rfl, .of_forall fun fuel depth _ ↦ ?_⟩
    rw [process]
    exact realizes_stop hregions
  | capture n _ ih =>
    refine ⟨ih.1, ih.2.mono fun fuel hcode depth hdepth ↦ ?_⟩
    rw [process]
    exact hcode depth hdepth
  | name n hindexing _ ih =>
    refine ⟨ih.1, ih.2.mono fun fuel hcode depth hdepth ↦ ?_⟩
    have hname (code : Code) : c.compileName code = code := by
      funext marker vars
      rw [compileName, hindexing]
      rfl
    rw [process, hname]
    exact hcode depth hdepth
  | @seq loop front elems ks _ _ hfits ihfirst ihrest =>
    have hzero (hloop : loop = false) : (elems.map ks).sum = 0 := by
      refine List.sum_eq_zero_iff_forall_eq_nat.2 fun k hk ↦ ?_
      obtain ⟨e, he, rfl⟩ := List.mem_map.1 hk
      cases elems with
      | nil => exact absurd he List.not_mem_nil
      | cons e' elems =>
        rcases List.mem_cons.1 he with rfl | he
        · exact (ihfirst e rfl).1 hloop
        · exact (ihrest e he).1 hloop
    refine ⟨hzero, ?_⟩
    filter_upwards [eventually_forall_mem fun e he ↦ (ihfirst e (Option.mem_toList.1 he)).2,
      eventually_forall_mem fun e he ↦ (ihrest e he).2] with fuel hfirst hrest depth hdepth
    rw [process, processItems_eq, compileSeq]
    split_ifs with hpos
    · exact realizes_all (fun e he ↦ hfirst e (Option.mem_toList.2 he) depth hdepth)
        fun e he ↦ hrest e he depth hdepth
    · have hloop : loop = false := Bool.eq_false_of_not_eq_true fun h ↦ hpos (hdepth.2 h)
      rw [hzero hloop]
      refine realizes_seqTail hb front 0 (hfits hloop) (fun e he ↦ ?_) (fun e he ↦ ?_) le_rfl
      · rw [← (ihfirst e he).1 hloop]
        exact hfirst e (Option.mem_toList.2 he) depth hdepth
      · rw [← (ihrest e he).1 hloop]
        exact hrest e he depth hdepth
  | @alt loop front elems ks _ ih =>
    refine ⟨fun hloop ↦ List.sum_eq_zero_iff_forall_eq_nat.2 fun k hk ↦ ?_, ?_⟩
    · obtain ⟨e, he, rfl⟩ := List.mem_map.1 hk
      exact (ih e he).1 hloop
    · filter_upwards [eventually_forall_mem fun e he ↦ (ih e he).2] with fuel hcode depth hdepth
      rw [process, processItems_eq, List.map_map]
      exact (realizesAll_items fun e he ↦ hcode e he depth hdepth).alt
  | rep hlb hle _ hk ih =>
    refine ⟨fun hloop ↦ by rw [ih.1 hloop, Nat.mul_zero],
      ih.2.mono fun fuel hcode depth hdepth ↦ ?_⟩
    rw [process]
    exact (hcode depth hdepth).repBounded hb hlb hle hk
  | classStar hlb h hunit =>
    obtain ⟨A, hA, hcode⟩ := h.classifies hb hr
    refine ⟨fun _ ↦ rfl, .of_forall fun fuel depth _ ↦ ?_⟩
    rw [process, Expression.denote, hA]
    exact (hcode fuel depth).realizes.repUnbounded hb
      (realizes_matchStar hb hunit (hcode fuel depth))
      hlb (.inl rfl)
  | @star loop front re lb j k hlb hunit _ _ hj ihbase ih =>
    refine ⟨fun hloop ↦ ?_, ?_⟩
    · rw [ihbase.1 hloop, hloop, Nat.mul_zero]
      rfl
    · filter_upwards [ihbase.2, ih.2, eventually_ge_atTop ((k + 1) * c.text.length + 2)]
        with fuel hbase hbody hfuel depth hdepth
      have hloop : (if loop = true then k + 1 else 0) = if 0 < depth then k + 1 else 0 := by
        simp only [hdepth]
      rw [process, hloop]
      refine (hbase depth hdepth).repUnbounded hb ?_ hlb hj
      exact (hbody (depth + 1) (iff_of_true (Nat.succ_pos depth) rfl)).unboundedRep hb hunit hfuel
  | lookBehind sense _ hunits ih =>
    refine ⟨fun _ ↦ rfl, ih.2.mono fun fuel hcode depth hdepth ↦ ?_⟩
    rw [process]
    exact realizes_lookBehind hb _ sense (hcode depth hdepth) hunits
  | zeroWidth sense _ hlength hle hunits ih =>
    refine ⟨fun _ ↦ rfl, ih.2.mono fun fuel hcode depth hdepth ↦ ?_⟩
    rw [process]
    exact realizes_zeroWidth_lookAhead hb sense (hcode depth hdepth) hlength hle hunits
  | unitLength sense h hlength =>
    obtain ⟨A, hA, hcode⟩ := h.classifies hb hr
    refine ⟨fun _ ↦ rfl, .of_forall fun fuel depth _ ↦ ?_⟩
    rw [process, Expression.denote, hA]
    exact realizes_unitLength sense (hcode fuel depth) hlength
  | diff _ _ haligned hunits ihl ihr =>
    refine ⟨fun _ ↦ rfl, ?_⟩
    filter_upwards [ihl.2, ihr.2] with fuel hl hr depth hdepth
    rw [process]
    exact realizes_diff hb hunits (hl depth hdepth) (hr depth hdepth) haligned
  | intersect hlength _ _ haligned ihl ihr =>
    refine ⟨fun _ ↦ rfl, ?_⟩
    filter_upwards [ihl.2, ihr.2] with fuel hl hr depth hdepth
    rw [process]
    exact realizes_intersect hb hlength (hl depth hdepth) (hr depth hdepth) haligned

end Expressions

section Examples

/-- A text of letters, and a position behind it. -/
def letters (text : List ℕ) : RE_Compiler where
  regions := ⟨⟨text.length + 1, fun p ↦ decide (p < text.length + 1)⟩, fun p ↦ p == 0,
    fun p ↦ p == text.length, fun p ↦ decide (p < text.length)⟩
  mCodeUnitAlphabet := Byte
  mIndexingAlphabet := none
  mAlphabetCompilers a := if a = Byte then
    some fun x p ↦ decide (p < text.length + 1) && x.contains (text.getD p 0) else none
  alphabets := ⟨(· == Byte), id⟩
  DisableMatchStar := true

def byte (codepoint : ℕ) : Expression := .cc ⟨(Expression.codepoint codepoint).set, Byte⟩

/-- `(a*)*` -/
def nested : Expression := .rep (.rep (byte 97) 0 UNBOUNDED_REP) 0 UNBOUNDED_REP

theorem letters_character {text : List ℕ} {p : ℕ} (hp : p < text.length + 1) :
    Character (letters text).text p p :=
  ⟨le_rfl, decide_eq_true hp, fun j h1 h2 ↦ absurd h1 (by omega),
    fun j hj ↦ decide_eq_true (by omega)⟩

theorem letters_regular (text : List ℕ) : Regular (letters text).regions where
  bounded q hq := of_decide_eq_true hq
  start p hp := ⟨p, letters_character (by rw [beq_iff_eq.1 hp]; omega)⟩
  follow p hp := letters_character (by rw [beq_iff_eq.1 hp]; omega)

theorem letters_reads (text : List ℕ) : Reads (letters text) fun _ q ↦ text.getD q 0 := by
  intro cc _ compile hcompile q
  change (if cc.alphabet = Byte then _ else none) = some compile at hcompile
  split_ifs at hcompile with halphabet
  obtain rfl := Option.some.inj hcompile
  exact Bool.and_eq_true_iff

theorem letters_units (text : List ℕ) : Units (letters text).text := fun _ hq ↦ decide_eq_true hq

theorem nested_supported (text : List ℕ) {M : Expression.Interpretation Span} :
    Supported (letters text) M false true nested 0 := by
  have hbyte (loop : Bool) : Supported (letters text) M loop false (byte 97) 0 :=
    .classy (.cc (Expression.codepoint_wellFormed (by decide)) rfl fun _ ↦ letters_units text)
  have hstar (loop : Bool) : Supported (letters text) M loop false
      (.rep (byte 97) 0 UNBOUNDED_REP) (0 * 0 + if loop then 0 + 1 else 0) :=
    .star le_rfl rfl (hbyte loop) (hbyte true) (.inl rfl)
  exact .star le_rfl rfl (hstar false) (hstar true) (.inl rfl)

end Examples

end Parabix.RE.RE_Compiler
