import Parabix.RE.CCCompiler
import Parabix.UCD.Isolates

namespace Parabix.RE

open Library Library.BitStream UCD Pablo

/-- The constructors over streams of code units. -/
structure CodeUnitBuilder (α β : Type) extends CCBuilder α where
  /-- A stream of one value, of so many bits. -/
  createRepeat : ℕ → ℕ → β
  createLessThan : β → β → α
  createEquals : β → β → α

namespace Direct_CC_Compiler

variable {α β : Type} (pb : CodeUnitBuilder α β) (codeUnitStream : β) (codeUnitWidth : ℕ)

def maxCodeVal : ℕ :=
  let topBit := 2 ^ (codeUnitWidth - 1)
  (topBit - 1) ||| topBit

def addInterval (ccStrm : α) (interval : ℕ × ℕ) : α :=
  let lo := interval.1
  let hi := interval.2
  let lessThan (n : ℕ) := pb.createLessThan codeUnitStream (pb.createRepeat codeUnitWidth n)
  if lo = hi then
    pb.createOr ccStrm (pb.createEquals codeUnitStream (pb.createRepeat codeUnitWidth lo))
  else if lo = 0 then
    -- All code units.
    if hi = maxCodeVal codeUnitWidth then pb.createOnes
    else pb.createOr ccStrm (lessThan (hi + 1))
  else if hi = maxCodeVal codeUnitWidth then
    pb.createOr ccStrm (pb.createNot (lessThan lo))
  else
    pb.createOr ccStrm (pb.createAnd (pb.createNot (lessThan lo)) (lessThan (hi + 1)))

def addIsolate (toExclude : α) (interval : ℕ × ℕ) : α :=
  pb.createOr toExclude
    (pb.createEquals codeUnitStream (pb.createRepeat codeUnitWidth interval.1))

/-- The width of the units is known for the alphabets of code units. -/
def compileCCfromCodeUnitStream (m : Memory) (codeUnitBits : ℕ → Option ℕ) (cc : CC) :
    Except Fault α :=
  match codeUnitBits cc.alphabet with
  | none => .error
      (.fatal "compileCCfromCodeUnitStream must be applied to a CC with a CodeUnitAlphabet")
  | some codeUnitWidth => do
    let negatedIsolates ← cc.set.complement.isolates m
    let withNegatedIsolates ← cc.set.union negatedIsolates
    let ccStrm := (← withNegatedIsolates.intervals).foldl
      (addInterval pb codeUnitStream codeUnitWidth) pb.createZeroes
    if negatedIsolates.empty then
      return pb.createInFile ccStrm
    else
      let toExclude := (← negatedIsolates.intervals).foldl
        (addIsolate pb codeUnitStream codeUnitWidth) pb.createZeroes
      return pb.createInFile (pb.createAnd ccStrm (pb.createNot toExclude))

end Direct_CC_Compiler

/-- The constructors over code units make expressions with these values. -/
structure CodeUnitBuilder.Lawful {α β : Type} (pb : CodeUnitBuilder α β) (eval : α → Stream)
    (units : β → ℕ → ℕ) (inFile : Stream) (plain : α → Prop) : Prop
    extends toLawfulCC : pb.toCCBuilder.Lawful eval inFile plain where
  repeated (width n p : ℕ) : units (pb.createRepeat width n) p = n % 2 ^ width
  lessThan (a b : β) (p : ℕ) : eval (pb.createLessThan a b) p = decide (units a p < units b p)
  equals (a b : β) (p : ℕ) : eval (pb.createEquals a b) p = decide (units a p = units b p)

namespace Direct_CC_Compiler

section Exact

variable {α β : Type} {pb : CodeUnitBuilder α β} {codeUnitStream : β} {eval : α → Stream}
  {units : β → ℕ → ℕ} {inFile : Stream} {plain : α → Prop} {w : ℕ}
  (h : pb.Lawful eval units inFile plain)

theorem maxCodeVal_eq (hw : 0 < w) : maxCodeVal w = 2 ^ w - 1 := by
  have hpow : 2 ^ w = 2 * 2 ^ (w - 1) := (mul_pow_sub_one hw.ne' 2).symm
  have hpos := Nat.two_pow_pos (w - 1)
  have hor := Nat.two_pow_add_eq_or_of_lt (i := w - 1) (show 2 ^ (w - 1) - 1 < 2 ^ (w - 1) by omega) 1
  rw [Nat.mul_one] at hor
  rw [maxCodeVal, Nat.or_comm, ← hor]
  omega

include h

theorem eval_addInterval (hw : 0 < w) (hunits : ∀ p, units codeUnitStream p < 2 ^ w) (ccStrm : α)
    {i : ℕ × ℕ} (hle : i.1 ≤ i.2) (hlt : i.2 < 2 ^ w) (p : ℕ) :
    eval (addInterval pb codeUnitStream w ccStrm i) p = true ↔
      eval ccStrm p = true ∨
        i.1 ≤ units codeUnitStream p ∧ units codeUnitStream p ≤ i.2 := by
  have hV := hunits p
  have hmax := maxCodeVal_eq hw
  have hmod {n : ℕ} (hn : n < 2 ^ w) : units (pb.createRepeat w n) p = n := by
    rw [h.repeated, Nat.mod_eq_of_lt hn]
  simp only [addInterval]
  split_ifs with heq hzero hall hall
  · rw [h.or, h.equals, hmod (by omega), Bool.or_eq_true, decide_eq_true_iff]
    refine or_congr_right ?_
    omega
  · simp only [h.ones, true_iff]
    omega
  · rw [h.or, h.lessThan, hmod (by omega), Bool.or_eq_true, decide_eq_true_iff]
    refine or_congr_right ?_
    omega
  · rw [h.or, h.not, h.lessThan, hmod (by omega), Bool.or_eq_true, Bool.not_eq_true',
      decide_eq_false_iff_not]
    refine or_congr_right ?_
    omega
  · rw [h.or, h.and, h.not, h.lessThan, h.lessThan, hmod (by omega), hmod (by omega),
      Bool.or_eq_true, Bool.and_eq_true, Bool.not_eq_true', decide_eq_false_iff_not,
      decide_eq_true_iff]
    refine or_congr_right ?_
    omega

theorem eval_foldl_addInterval (hw : 0 < w) (hunits : ∀ p, units codeUnitStream p < 2 ^ w)
    {is : List (ℕ × ℕ)} (his : ∀ i ∈ is, i.1 ≤ i.2 ∧ i.2 < 2 ^ w) (ccStrm : α) (p : ℕ) :
    eval (is.foldl (addInterval pb codeUnitStream w) ccStrm) p = true ↔ eval ccStrm p = true ∨
      ∃ i ∈ is, i.1 ≤ units codeUnitStream p ∧ units codeUnitStream p ≤ i.2 := by
  induction is generalizing ccStrm with
  | nil => simp
  | cons i is ih =>
    have hi := his i List.mem_cons_self
    rw [List.foldl_cons, ih fun j hj ↦ his j (List.mem_cons_of_mem _ hj),
      eval_addInterval h hw hunits ccStrm hi.1 hi.2, List.exists_mem_cons_iff, or_assoc]

theorem eval_foldl_addIsolate {is : List (ℕ × ℕ)} (his : ∀ i ∈ is, i.1 < 2 ^ w) (toExclude : α)
    (p : ℕ) : eval (is.foldl (addIsolate pb codeUnitStream w) toExclude) p = true ↔
      eval toExclude p = true ∨ ∃ i ∈ is, units codeUnitStream p = i.1 := by
  induction is generalizing toExclude with
  | nil => simp
  | cons i is ih =>
    rw [List.foldl_cons, ih fun j hj ↦ his j (List.mem_cons_of_mem _ hj), addIsolate, h.or,
      h.equals, h.repeated, Nat.mod_eq_of_lt (his i List.mem_cons_self), Bool.or_eq_true,
      decide_eq_true_iff, List.exists_mem_cons_iff, or_assoc]

omit h in
/-- A place that is missing between two members of a class lies below the bound of the class. -/
theorem isolate_lt (hw : 0 < w) {xs : Set ℕ} (hxs : ∀ x ∈ xs, x < 2 ^ w) {x : ℕ}
    (hx : x ≤ unicodeMax) (hbelow : x = 0 ∨ x - 1 ∈ xs) (habove : x = unicodeMax ∨ x + 1 ∈ xs) :
    x < 2 ^ w := by
  have hpow : 2 ^ w = 2 * 2 ^ (w - 1) := (mul_pow_sub_one hw.ne' 2).symm
  have hpos := Nat.two_pow_pos (w - 1)
  obtain rfl | hbelow := hbelow
  · omega
  · obtain rfl | habove := habove
    · -- The last code point is odd, and `2 ^ w` is even.
      have := hxs _ hbelow
      simp only [unicodeMax] at this ⊢
      omega
    · have := hxs _ habove
      omega

theorem compileCCfromCodeUnitStream_spec (m : Memory) {codeUnitBits : ℕ → Option ℕ} {cc : CC}
    (hw : 0 < w) (hbits : codeUnitBits cc.alphabet = some w) (hcc : cc.set.WellFormed)
    (hlt : ∀ x ∈ cc.set.members, x < 2 ^ w) (hunits : ∀ p, units codeUnitStream p < 2 ^ w) :
    ∃ e, compileCCfromCodeUnitStream pb codeUnitStream m codeUnitBits cc = .ok e ∧
      ∀ p, eval e p = true ↔ inFile p = true ∧ units codeUnitStream p ∈ cc.set.members := by
  obtain ⟨isolates, hi, hiw, hisolate⟩ := negatedIsolates_spec m hcc
  obtain ⟨both, hb, hbw, -, hmb⟩ := union_produces hcc.verified hiw.verified
  obtain ⟨is, his, hintervals⟩ := UnicodeSet.intervals_spec hbw.verified
  obtain ⟨js, hjs, hisolates⟩ := UnicodeSet.intervals_spec hiw.verified
  have hlt' : ∀ x ∈ isolates.members, x < 2 ^ w := by
    intro x hx
    obtain ⟨-, hmax, hbelow, habove⟩ := (hisolate x).1 hx
    exact isolate_lt hw hlt hmax hbelow habove
  have hmem := UnicodeSet.mem_intervals_iff hbw.verified hintervals
  have hexcluded := UnicodeSet.mem_intervals_iff hiw.verified hisolates
  have hbound : ∀ i ∈ is, i.1 ≤ i.2 ∧ i.2 < 2 ^ w := by
    intro i hi
    have hle := (hintervals.bounds i hi).2.1
    refine ⟨hle, ?_⟩
    have hin := (hmem i.2).1 ⟨i, hi, hle, le_rfl⟩
    rw [hmb] at hin
    exact hin.elim (hlt _) (hlt' _)
  have hfirst : ∀ j ∈ js, j.1 ∈ isolates.members := fun j hj ↦
    (hexcluded j.1).1 ⟨j, hj, le_rfl, (hisolates.bounds j hj).2.1⟩
  have hexclude (V : ℕ) : (∃ j ∈ js, V = j.1) ↔ V ∈ isolates.members := by
    constructor
    · rintro ⟨j, hj, rfl⟩
      exact hfirst j hj
    · intro hV
      obtain ⟨j, hj, hle, hge⟩ := (hexcluded V).2 hV
      refine ⟨j, hj, ?_⟩
      by_contra hne
      -- Two neighbours would both be missing.
      have hnext := (hexcluded (j.1 + 1)).1 ⟨j, hj, Nat.le_succ _, by omega⟩
      have hmax := ((hisolate _).1 hnext).2.1
      obtain hlast | hin := ((hisolate _).1 (hfirst j hj)).2.2.2
      · omega
      · exact ((hisolate _).1 hnext).1 hin
  have hstart (p : ℕ) := eval_foldl_addInterval h hw hunits hbound pb.createZeroes p
  simp only [h.zeroes, Bool.false_eq_true, false_or, hmem, hmb, Set.mem_union] at hstart
  rw [compileCCfromCodeUnitStream, hbits]
  simp only [hi, hb, his, hjs, ok_bind]
  split_ifs with hempty
  · have hnone := members_of_empty hiw hempty
    refine ⟨_, rfl, fun p ↦ ?_⟩
    rw [h.inFile, Bool.and_eq_true, hstart, hnone, and_comm]
    simp
  · have hto (p : ℕ) : eval (js.foldl (addIsolate pb codeUnitStream w) pb.createZeroes) p = true ↔
        units codeUnitStream p ∈ isolates.members := by
      rw [eval_foldl_addIsolate h fun j hj ↦ hlt' _ (hfirst j hj), h.zeroes, hexclude]
      simp
    refine ⟨_, rfl, fun p ↦ ?_⟩
    have hnot := ((hisolate (units codeUnitStream p)).1 · |>.1)
    rw [h.inFile, h.and, h.not, Bool.and_eq_true, Bool.and_eq_true, hstart, Bool.not_eq_true',
      ← Bool.not_eq_true, hto]
    tauto

end Exact

end Direct_CC_Compiler

section Texts

open Parabix_CC_Compiler Direct_CC_Compiler

variable {α β : Type} {pb : CodeUnitBuilder α β} {eval : List ℕ → α → Stream}
  {units : List ℕ → β → ℕ → ℕ} {plain : α → Prop} {n : ℕ} {mBasisBit : BixNum α}
  {codeUnitStream : β} {cc : CC}

/-- The streams over every text of units of `n` bits. Past the end of the text the basis is
zero. -/
structure CodeUnitBuilder.OnTexts (pb : CodeUnitBuilder α β) (eval : List ℕ → α → Stream)
    (units : List ℕ → β → ℕ → ℕ) (plain : α → Prop) (n : ℕ) (mBasisBit : BixNum α)
    (codeUnitStream : β) : Prop where
  lawful (text : List ℕ) :
    pb.Lawful (eval text) (units text) (fun p ↦ decide (p < text.length)) plain
  length : mBasisBit.length = n
  plain : ∀ b ∈ mBasisBit, plain b
  basis (text : List ℕ) (htext : ∀ u ∈ text, u < 2 ^ n) (p : ℕ) :
    value (eval text) p mBasisBit = text.getD p 0
  stream (text : List ℕ) (htext : ∀ u ∈ text, u < 2 ^ n) (p : ℕ) :
    units text codeUnitStream p = text.getD p 0

/-- The expression is one exactly at the units of each text that belong to the class. -/
def MarksClass (eval : List ℕ → α → Stream) (n : ℕ) (cc : CC) (e : α) : Prop :=
  ∀ text : List ℕ, (∀ u ∈ text, u < 2 ^ n) → ∀ p, eval text e p = true ↔
    ∃ u, text[p]? = some u ∧ u ∈ cc.set.members

/-- The even numbers from zero on, three of them at least. -/
def EvenFromZero (xs : Set ℕ) : Prop := ∃ k, 2 ≤ k ∧ xs = {x | x % 2 = 0 ∧ x ≤ 2 * k}

theorem exists_unit_iff {text : List ℕ} {p : ℕ} {xs : Set ℕ} :
    (∃ u, text[p]? = some u ∧ u ∈ xs) ↔ p < text.length ∧ text.getD p 0 ∈ xs := by
  by_cases hp : p < text.length
  · simp [hp]
  · simp [hp]

theorem combine_zero_iff {is : List (ℕ × ℕ)} (h : Verified cc.set.runs cc.set.quads)
    (his : Intervals cc.set.contains (unicodeMax + 1) 0 is) :
    combine is ∧ 0 ∈ cc.set.members ↔ EvenFromZero cc.set.members := by
  rw [combine_iff h his]
  constructor
  · rintro ⟨⟨a, k, hk, hxs⟩, hzero⟩
    rw [hxs] at hzero
    obtain rfl : a = 0 := by simpa using hzero.1
    refine ⟨k, hk, ?_⟩
    rw [hxs]
    ext x
    simp only [Set.mem_ofPred_eq]
    omega
  · rintro ⟨k, hk, hxs⟩
    refine ⟨⟨0, k, hk, ?_⟩, by simp [hxs]⟩
    rw [hxs]
    ext x
    simp only [Set.mem_ofPred_eq]
    omega

section Exact

variable (h : pb.OnTexts eval units plain n mBasisBit codeUnitStream) (hn : 0 < n)
  (hcc : cc.set.WellFormed) (hlt : ∀ x ∈ cc.set.members, x < 2 ^ n)

include h hn hcc hlt

theorem compileCC_exact (hn' : n < 32) :
    (∃ e, compileCC pb.toCCBuilder mBasisBit cc = .ok e ∧ MarksClass eval n cc e) ↔
      ¬EvenFromZero cc.set.members ∧ (cc.set.members = ∅ → cc.set.empty = true) := by
  cases hempty : cc.set.empty with
  | true =>
    have hnone := members_of_empty hcc hempty
    refine iff_of_true ⟨pb.createZeroes, ?_, fun text _ p ↦ ?_⟩ ⟨?_, fun _ ↦ rfl⟩
    · have hmask : mEncodingMask mBasisBit = .ok (2 ^ n - 1) := by
        rw [mEncodingMask, h.length, if_pos hn']
      rw [compileCC, charset_expr, hmask, ok_bind, hempty, if_pos rfl, pure_eq_ok]
    · simp [(h.lawful text).zeroes, hnone]
    · rintro ⟨k, -, hxs⟩
      have hzero : (0 : ℕ) ∈ cc.set.members := hxs ▸ ⟨rfl, Nat.zero_le _⟩
      simp [hnone] at hzero
  | false =>
    obtain ⟨is, his, hintervals⟩ := UnicodeSet.intervals_spec hcc.verified
    have hmem := UnicodeSet.mem_intervals_iff hcc.verified hintervals
    have hbound : ∀ i ∈ is, i.1 ≤ i.2 ∧ i.2 < 2 ^ n := by
      intro i hi
      have hle := (hintervals.bounds i hi).2.1
      exact ⟨hle, hlt _ ((hmem _).1 ⟨i, hi, hle, le_rfl⟩)⟩
    rw [← combine_zero_iff hcc.verified hintervals]
    by_cases hne : is = []
    · subst hne
      have hnone : cc.set.members = ∅ := Set.eq_empty_of_forall_notMem fun x hx ↦ by
        simpa using (hmem x).2 hx
      refine iff_of_false ?_ (by simp [hnone])
      rintro ⟨e, he, -⟩
      simp only [compileCC, charset_expr, mEncodingMask, h.length, if_pos hn', ok_bind, hempty,
        Bool.false_eq_true, if_false, his, List.head?_nil] at he
      cases he
    have hnonempty : cc.set.members ≠ ∅ := by
      obtain ⟨i, hi⟩ := List.exists_mem_of_ne_nil is hne
      exact Set.nonempty_iff_ne_empty.1 ⟨i.1, (hmem _).1 ⟨i, hi, le_rfl, (hbound i hi).1⟩⟩
    have hspec (text : List ℕ) :=
      charset_expr_spec (h.lawful text).toLawfulCC h.length h.plain hn hn' hempty his hbound hne
    simp only [hmem, decide_eq_true_iff] at hspec
    obtain ⟨e, he, heval⟩ := hspec []
    rw [compileCC, he]
    simp only [hnonempty, false_implies, and_true]
    constructor
    · rintro ⟨_, ⟨⟩, hmarks⟩ ⟨hcombine, hzero⟩
      have hpast := (hmarks [] (List.forall_mem_nil _) 0).1
        ((heval 0).2 ⟨.inl hcombine, by rwa [h.basis [] (List.forall_mem_nil _)]⟩)
      simp at hpast
    · intro hcond
      refine ⟨e, rfl, fun text htext p ↦ ?_⟩
      obtain ⟨_, he', heval'⟩ := hspec text
      obtain rfl := Except.ok.inj (he.symm.trans he')
      rw [heval', exists_unit_iff, h.basis text htext]
      by_cases hp : p < text.length
      · simp [hp]
      · have hpast : text.getD p 0 = 0 := List.getD_eq_default _ _ (by omega)
        simp only [hp, or_false, false_and, iff_false, hpast]
        exact hcond

theorem compileCCfromCodeUnitStream_exact (m : Memory) {codeUnitBits : ℕ → Option ℕ}
    (hbits : codeUnitBits cc.alphabet = some n) :
    ∃ e, compileCCfromCodeUnitStream pb codeUnitStream m codeUnitBits cc = .ok e ∧
      MarksClass eval n cc e := by
  have hunits (text : List ℕ) (htext : ∀ u ∈ text, u < 2 ^ n) (p : ℕ) :
      units text codeUnitStream p < 2 ^ n := by
    rw [h.stream text htext, List.getD_eq_getElem?_getD]
    cases hp : text[p]? with
    | none => exact Nat.two_pow_pos n
    | some u => exact htext u (List.mem_of_getElem? hp)
  have hspec (text : List ℕ) (htext : ∀ u ∈ text, u < 2 ^ n) :=
    compileCCfromCodeUnitStream_spec (h.lawful text) m hn hbits hcc hlt (hunits text htext)
  obtain ⟨e, he, -⟩ := hspec [] (List.forall_mem_nil _)
  refine ⟨e, he, fun text htext p ↦ ?_⟩
  obtain ⟨_, he', heval⟩ := hspec text htext
  obtain rfl := Except.ok.inj (he.symm.trans he')
  rw [heval, exists_unit_iff, h.stream text htext, decide_eq_true_iff]

/-- Both compilers mark the members of the class, but for the classes of even numbers from zero
on: the binary one then also marks the places past the end of the text. -/
theorem classCompilers_exact (m : Memory) {codeUnitBits : ℕ → Option ℕ} (hn' : n < 32)
    (hbits : codeUnitBits cc.alphabet = some n) :
    ((∃ e, compileCC pb.toCCBuilder mBasisBit cc = .ok e ∧ MarksClass eval n cc e) ∧
        ∃ e, compileCCfromCodeUnitStream pb codeUnitStream m codeUnitBits cc = .ok e ∧
          MarksClass eval n cc e) ↔
      ¬EvenFromZero cc.set.members ∧ (cc.set.members = ∅ → cc.set.empty = true) := by
  rw [compileCC_exact h hn hcc hlt hn']
  exact and_iff_left (compileCCfromCodeUnitStream_exact h hn hcc hlt m hbits)

end Exact

/-- Expressions that are functions of the text. -/
def CodeUnitBuilder.texts : CodeUnitBuilder (List ℕ → Stream) (List ℕ → ℕ → ℕ) where
  createZeroes _ _ := false
  createOnes _ _ := true
  createNot a text p := !a text p
  createAnd a b text p := a text p && b text p
  createOr a b text p := a text p || b text p
  createXor a b text p := a text p ^^ b text p
  createSel a b c text p := bif a text p then b text p else c text p
  createXor3 a b c text p := a text p ^^ b text p ^^ c text p
  createMajority3 a b c text p :=
    a text p && b text p || a text p && c text p || b text p && c text p
  createAnd3 a b c text p := a text p && b text p && c text p
  createOr3 a b c text p := a text p || b text p || c text p
  createInFile a text p := a text p && decide (p < text.length)
  createRepeat width n _ _ := n % 2 ^ width
  createLessThan a b text p := decide (a text p < b text p)
  createEquals a b text p := decide (a text p = b text p)

/-- The basis of the units of `n` bits. -/
def textBasis (n : ℕ) : BixNum (List ℕ → Stream) :=
  (List.range n).map fun i text p ↦ (text.getD p 0).testBit i

theorem CodeUnitBuilder.texts_onTexts (n : ℕ) : CodeUnitBuilder.texts.OnTexts
    (fun text a ↦ a text) (fun text b ↦ b text) (fun _ ↦ True) n (textBasis n)
    fun text p ↦ text.getD p 0 where
  lawful text := {
    zeroes := fun _ ↦ rfl
    ones := fun _ ↦ rfl
    not := fun _ _ ↦ rfl
    and := fun _ _ _ ↦ rfl
    or := fun _ _ _ ↦ rfl
    sel := fun _ _ _ _ _ ↦ rfl
    and3 := fun _ _ _ _ ↦ rfl
    or3 := fun _ _ _ _ ↦ rfl
    inFile := fun _ _ ↦ rfl
    plain_zeroes := trivial
    plain_ones := trivial
    plain_and := fun _ _ _ _ ↦ trivial
    plain_or := fun _ _ _ _ ↦ trivial
    plain_and3 := fun _ _ _ _ _ _ ↦ trivial
    plain_or3 := fun _ _ _ _ _ _ ↦ trivial
    repeated := fun _ _ _ ↦ rfl
    lessThan := fun _ _ _ ↦ rfl
    equals := fun _ _ _ ↦ rfl }
  length := by simp [textBasis]
  plain _ _ := trivial
  basis text htext p := by
    have hlt : text.getD p 0 < 2 ^ n := by
      rw [List.getD_eq_getElem?_getD]
      cases hp : text[p]? with
      | none => exact Nat.two_pow_pos n
      | some u => exact htext u (List.mem_of_getElem? hp)
    apply Nat.eq_of_testBit_eq
    intro i
    rw [value, testBit_ofDigits, textBasis, List.map_map, List.getD_eq_getElem?_getD,
      List.getElem?_map]
    by_cases hi : i < n
    · simp [hi]
    · rw [List.getElem?_eq_none (by simpa using hi), Nat.testBit_eq_false_of_lt
        (hlt.trans_le (Nat.pow_le_pow_right (by decide) (by omega)))]
      rfl
  stream _ _ _ := rfl

/-- The class of 0, 2 and 4. -/
def zeroTwoFour : CC := ⟨.ofVectors [⟨.Mixed, 1⟩, ⟨.Empty, 34815⟩] [0b10101], 0⟩

theorem zeroTwoFour_wellFormed : zeroTwoFour.set.WellFormed :=
  UnicodeSet.wellFormed_ofVectors ⟨by simp,
    by simp [unicodeQuadCount, unicodeMax, quadBits], by simp, by simp [kindOf, fullQuadMask]⟩

theorem members_zeroTwoFour : zeroTwoFour.set.members = {x | x % 2 = 0 ∧ x ≤ 2 * 2} := by
  have hcells : zeroTwoFour.set.cells = 0b10101 :: List.replicate 34815 0 := by
    rw [zeroTwoFour, UnicodeSet.cells, UnicodeSet.runs_ofVectors, UnicodeSet.quads_ofVectors,
      RunLength.decode_cons_none (by decide), RunLength.decode_cons_some fill_empty,
      RunLength.decode_nil, List.append_nil]
    rfl
  ext x
  rw [UnicodeSet.mem_iff_quadAt zeroTwoFour_wellFormed.verified, UnicodeSet.quadAt, hcells,
    Set.mem_ofPred_eq]
  by_cases hx : x < 32
  · have hquad : ∀ b < 32,
        BitVec.getLsbD (0b10101 : BitQuad) b = true ↔ b % 2 = 0 ∧ b ≤ 2 * 2 := by decide
    rw [Nat.div_eq_of_lt hx, List.getD_cons_zero, Nat.mod_eq_of_lt hx, hquad x hx]
  · obtain ⟨i, hi⟩ : ∃ i, x / 32 = i + 1 := ⟨x / 32 - 1, by omega⟩
    rw [hi, List.getD_cons_succ, List.getD_eq_getElem?_getD, List.getElem?_replicate]
    split_ifs <;> simp <;> omega

/-- The class of 0, 2 and 4 is compiled to an expression that also marks the end of a text. -/
theorem evenClass_marks_end : (∀ x ∈ zeroTwoFour.set.members, x < 2 ^ 8) ∧
    ¬∃ e, compileCC CodeUnitBuilder.texts.toCCBuilder (textBasis 8) zeroTwoFour = .ok e ∧
      MarksClass (fun text a ↦ a text) 8 zeroTwoFour e := by
  have hlt : ∀ x ∈ zeroTwoFour.set.members, x < 2 ^ 8 := by
    intro x hx
    rw [members_zeroTwoFour] at hx
    exact hx.2.trans_lt (by decide)
  refine ⟨hlt, fun hmarks ↦ ?_⟩
  exact ((compileCC_exact (CodeUnitBuilder.texts_onTexts 8) (by decide) zeroTwoFour_wellFormed hlt
    (by decide)).1 hmarks).1 ⟨2, le_rfl, members_zeroTwoFour⟩

def letterA : CC := ⟨.singleton ⟨fun _ ↦ ⟨.Empty, 0⟩, fun _ ↦ 0⟩ 65, 0⟩

theorem classCompilers_exact_letter :
    ((∃ e, compileCC CodeUnitBuilder.texts.toCCBuilder (textBasis 8) letterA = .ok e ∧
          MarksClass (fun text a ↦ a text) 8 letterA e) ∧
        ∃ e, compileCCfromCodeUnitStream CodeUnitBuilder.texts (fun text p ↦ text.getD p 0)
          ⟨fun _ ↦ ⟨.Empty, 0⟩, fun _ ↦ 0⟩ (fun _ ↦ some 8) letterA = .ok e ∧
            MarksClass (fun text a ↦ a text) 8 letterA e) ↔
      ¬EvenFromZero letterA.set.members ∧ (letterA.set.members = ∅ → letterA.set.empty = true) := by
  refine classCompilers_exact (CodeUnitBuilder.texts_onTexts 8) (by decide)
    (singleton_wellFormed _ (by decide)) ?_ _ (by decide) rfl
  rw [letterA, members_singleton (by decide)]
  rintro x rfl
  decide

end Texts

end Parabix.RE
