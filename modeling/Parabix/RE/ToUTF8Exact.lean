import Parabix.RE.RepetitionExact
import Parabix.RE.ToUTF8Class

namespace Parabix.RE

open Library Library.UTF8 Library.Encoding UCD

section Condition

mutual

def hasCC : RE → Bool
  | cc _ => true
  | alt elems => anyCC elems
  | seq elems => anyCC elems
  | rep re _ _ => hasCC re
  | _ => false

def anyCC : List RE → Bool
  | [] => false
  | e :: elems => hasCC e || anyCC elems

end

/-- Expressions of Unicode classes, sequences, alternatives and repetitions. A part without a class
is the empty set or the empty sequence: the constructors make no other. -/
inductive FromCCs : RE → Prop
  | cc {c : CC} (h : c.set.WellFormed) (ha : c.alphabet = Unicode) : FromCCs (cc c)
  | emptySet : FromCCs (alt [])
  | emptySeq : FromCCs (seq [])
  | alt {elems : List RE} (h : ∀ e ∈ elems, FromCCs e) (hcc : anyCC elems = true) :
      FromCCs (alt elems)
  | seq {elems : List RE} (h : ∀ e ∈ elems, FromCCs e) (hcc : anyCC elems = true) :
      FromCCs (seq elems)
  | rep {re : RE} {lb ub : ℤ} (h : FromCCs re) (hcc : re.hasCC = true) (hb : Bounds lb ub) :
      FromCCs (rep re lb ub)

mutual

/-- The outline of the code units. -/
def utf8Outline (useInternalNaming : Bool) : RE → Outline
  | cc c =>
    if useInternalNaming then .solid
    else if c.set.intervals.toOption = some [] then .nothing
    else .solid
  | alt elems => (utf8Outlines useInternalNaming elems).foldl Outline.altStep .nothing
  | seq elems => (utf8Outlines useInternalNaming elems).foldl Outline.seqStep .empty
  | rep re lb ub => (utf8Outline useInternalNaming re).makeRep lb ub
  | _ => .solid

def utf8Outlines (useInternalNaming : Bool) : List RE → List Outline
  | [] => []
  | e :: elems => utf8Outline useInternalNaming e :: utf8Outlines useInternalNaming elems

end

/-- What `makeAlt` builds again of an element with the outline can be built. -/
def AltSafe (o : Outline) : Prop := ∀ i ub, o = .rep i 0 ub → ub ≠ 0 ∧ RepSafe i 1 ub

/-- The repetitions of the expression, and those that `makeAlt` builds again, can be built of the
code units. -/
inductive EncodeSafe (useInternalNaming : Bool) : RE → Prop
  | cc (c : CC) : EncodeSafe useInternalNaming (cc c)
  | alt {elems : List RE} (h : ∀ e ∈ elems, EncodeSafe useInternalNaming e)
      (hrep : ∀ e ∈ elems, AltSafe (utf8Outline useInternalNaming e)) :
      EncodeSafe useInternalNaming (alt elems)
  | seq {elems : List RE} (h : ∀ e ∈ elems, EncodeSafe useInternalNaming e) :
      EncodeSafe useInternalNaming (seq elems)
  | rep {re : RE} {lb ub : ℤ} (h : EncodeSafe useInternalNaming re)
      (hsafe : RepSafe (utf8Outline useInternalNaming re) lb ub) :
      EncodeSafe useInternalNaming (rep re lb ub)

end Condition

section Class

variable {m : Memory} {c : CC} {naming : Bool} {is : List (ℕ × ℕ)}

theorem mapM_rangeToUTF8 (h : ∀ i ∈ is, i.1 ≤ i.2 ∧ i.2 ≤ unicodeMax) : ∃ alts,
    is.mapM (fun i ↦ rangeToUTF8 m i.1 i.2) = .ok alts ∧ alts.length = is.length ∧
      (∀ e ∈ alts, Over UTF8 e ∧ Tidy e ∧ e.outline = .solid) ∧
      denoteAlt words alts = encoded utf8 (letters {x | ∃ i ∈ is, i.1 ≤ x ∧ x ≤ i.2}) := by
  induction is with
  | nil => exact ⟨[], rfl, rfl, by simp, by simp [denoteAlt, letters_empty, encoded_bot]⟩
  | cons i is ih =>
    obtain ⟨hle, hmax⟩ := h i (List.mem_cons_self ..)
    obtain ⟨r, hr, hover, htidy, ho, hd⟩ := rangeToUTF8_realizes (m := m) hle hmax
    obtain ⟨alts, he, hlen, hall, hdenote⟩ := ih fun j hj ↦ h j (List.mem_cons_of_mem _ hj)
    refine ⟨r :: alts, ?_, by simp [hlen], ?_, ?_⟩
    · rw [List.mapM_cons, hr, ok_bind, he, ok_bind, pure_eq_ok]
    · simpa [hover, htidy, ho] using hall
    · rw [denoteAlt, hd, hdenote, rangeWords, ← encoded_sup, ← letters_union]
      congr 2
      ext x
      simp

theorem foldl_altStep_solid (n : ℕ) (s : Outline) :
    (List.replicate (n + 1) Outline.solid).foldl Outline.altStep s = .solid := by
  induction n generalizing s with
  | zero => exact s.altStep_solid
  | succ n ih => rw [List.replicate_succ, List.foldl_cons, ih]

/-- The code units of a class. -/
theorem transformCC_spec (h : c.set.WellFormed) (ha : c.alphabet = Unicode) : ∃ r,
    transformCC m naming c = .ok (r, true) ∧ Over UTF8 r ∧ Tidy r ∧
      r.outline = utf8Outline naming (cc c) ∧
      denote words r = encoded utf8 (letters c.set.members) := by
  obtain ⟨is, his, hintervals⟩ := UnicodeSet.intervals_spec h.verified
  have hbounds : ∀ i ∈ is, i.1 ≤ i.2 ∧ i.2 ≤ unicodeMax := fun i hi ↦
    ⟨(hintervals.bounds i hi).2.1, Nat.le_of_lt_succ (hintervals.bounds i hi).2.2⟩
  have hmembers : c.set.members = {x | ∃ i ∈ is, i.1 ≤ x ∧ x ≤ i.2} := by
    ext x
    by_cases hx : x < unicodeMax + 1
    · exact hintervals.mem_iff (Nat.zero_le x) hx
    · constructor
      · intro hmem
        exact absurd (Nat.lt_succ_of_le (UnicodeSet.le_of_mem h.verified hmem)) hx
      · rintro ⟨i, hi, -, hle⟩
        exact absurd (Nat.lt_succ_of_le (hle.trans (hbounds i hi).2)) hx
  obtain ⟨alts, halts, hlen, hall, hdenote⟩ := mapM_rangeToUTF8 (m := m) hbounds
  have hover : ∀ e ∈ alts, Over UTF8 e := fun e he ↦ (hall e he).1
  obtain ⟨r, hr, hover₁, htidy, ho⟩ := @makeAltWith_outline _ _ makeRep hover
    (fun e he ↦ (hall e he).2.1) fun e he ↦ altKeeps_of_solid (hall e he).2.2
  obtain ⟨r', hr', -, hd⟩ := @makeAltWith_spec _ _ _ words _ makeRep (fun e he ↦ (hover e he).valid)
    fun e he ↦ altReady_of_solid (hall e he).2.2
  obtain rfl : r = r' := Except.ok.inj (hr.symm.trans hr')
  have hsolid : r.outline = if is = [] then .nothing else .solid := by
    have hmap : alts.map outline = List.replicate alts.length .solid :=
      List.eq_replicate_iff.2 ⟨by simp, by simpa using fun e he ↦ (hall e he).2.2⟩
    rw [ho, hmap, hlen]
    cases is with
    | nil => rfl
    | cons i is => exact foldl_altStep_solid _ _
  rw [transformCC, if_neg (not_not.2 ha), his, ok_bind, halts, ok_bind, makeAlt, hr, ok_bind]
  cases naming with
  | false =>
    refine ⟨r, rfl, hover₁, htidy, ?_, by rw [hd, hdenote, hmembers]⟩
    rw [hsolid, utf8Outline, his]
    simp [Except.toOption]
  | true =>
    obtain ⟨n, hn⟩ : ∃ n, c.canonicalName = .ok n := by
      rw [CC.canonicalName, his, ok_bind]
      cases is <;> exact ⟨_, rfl⟩
    refine ⟨name n r, ?_, .name n hover₁, trivial, rfl, by rw [denote, hd, hdenote, hmembers]⟩
    rw [if_pos rfl, hn, ok_bind, pure_eq_ok]

end Class

section Expression

variable {m : Memory} {naming : Bool} {other : RE → Except Fault (RE × Bool)} {e r re : RE}
  {elems rs : List RE}

/-- The code units of an expression. -/
structure Encodes (naming : Bool) (e r : RE) : Prop where
  isOver : Over UTF8 r
  tidy : Tidy r
  outline : r.outline = utf8Outline naming e
  denote : denote words r = encoded utf8 (RE.denote words e)

theorem transformElems_spec (h : ∀ e ∈ elems, ∃ r,
    transform (transformCC m naming) other e = .ok (r, e.hasCC) ∧ Encodes naming e r) : ∃ rs,
      transformElems (transformCC m naming) other elems = .ok (rs, anyCC elems) ∧
        List.Forall₂ (Encodes naming) elems rs := by
  induction elems with
  | nil => exact ⟨[], by rw [transformElems, anyCC], .nil⟩
  | cons e elems ih =>
    obtain ⟨r, hr, hencodes⟩ := h e (List.mem_cons_self ..)
    obtain ⟨rs, hrs, hall⟩ := ih fun x hx ↦ h x (List.mem_cons_of_mem _ hx)
    refine ⟨r :: rs, ?_, .cons hencodes hall⟩
    rw [transformElems, hr, ok_bind]
    simp only [hrs, ok_bind, pure_eq_ok, anyCC]

theorem outlines_eq (h : List.Forall₂ (Encodes naming) elems rs) :
    rs.map outline = utf8Outlines naming elems := by
  induction h with
  | nil => rfl
  | cons h _ ih => rw [List.map_cons, ih, h.outline, utf8Outlines]

theorem denoteAlt_encoded (h : List.Forall₂ (Encodes naming) elems rs) :
    denoteAlt words rs = encoded utf8 (denoteAlt words elems) := by
  induction h with
  | nil => simp only [denoteAlt, encoded_bot]
  | cons h _ ih => rw [denoteAlt, denoteAlt, encoded_sup, h.denote, ih]

theorem denoteSeq_encoded (h : List.Forall₂ (Encodes naming) elems rs) :
    denoteSeq words rs = encoded utf8 (denoteSeq words elems) := by
  induction h with
  | nil => simp only [denoteSeq, encoded_one]
  | cons h _ ih => rw [denoteSeq, denoteSeq, encoded_mul, h.denote, ih]

theorem exists_encodes (h : List.Forall₂ (Encodes naming) elems rs) :
    ∀ r ∈ rs, ∃ e ∈ elems, Encodes naming e r := by
  induction h with
  | nil => exact fun _ h ↦ (nomatch h)
  | cons h _ ih =>
    intro r hr
    obtain rfl | hr := List.mem_cons.1 hr
    · exact ⟨_, List.mem_cons_self .., h⟩
    · obtain ⟨e, he, hencodes⟩ := ih r hr
      exact ⟨e, List.mem_cons_of_mem _ he, hencodes⟩

theorem makeRep_ne_empty {o : Outline} {ub : ℤ} (h : o ≠ .nothing) (h' : o ≠ .empty) :
    o.makeRep 1 ub ≠ .empty := by
  cases o with
  | nothing => exact absurd rfl h
  | empty => exact absurd rfl h'
  | solid =>
    rw [Outline.makeRep, if_neg fun h ↦ absurd h.1 (by decide)]
    split_ifs <;> simp
  | rep i l u =>
    rw [Outline.makeRep]
    split_ifs <;> simp

/-- An element that `makeAlt` takes apart has an outline that says so. -/
theorem Encodes.altSafe (h : Encodes naming e r) (hrep : AltSafe (utf8Outline naming e)) :
    AltReady words makeRep r ∧ AltKeeps UTF8 makeRep r := by
  have hparts : ∀ r' ub, r = rep r' 0 ub →
      Over UTF8 r' ∧ Bounds 1 ub ∧ RepSafe r'.outline 1 ub ∧ Tidy r' ∧
        r'.outline ≠ .nothing ∧ r'.outline ≠ .empty := by
    rintro r' ub rfl
    have hout := h.outline
    rw [RE.outline] at hout
    obtain ⟨hne, hsafe⟩ := hrep _ _ hout.symm
    cases h.isOver with
    | rep hover hb =>
      have hle := hb.le
      exact ⟨hover, ⟨by decide, by decide, by omega, hb.lt'⟩, hsafe, h.tidy⟩
  constructor
  · intro r' ub hr
    obtain ⟨hover, hb, hsafe, -⟩ := hparts r' ub hr
    exact makeRep_repeats hover.valid hb hsafe
  · intro r' ub hr
    obtain ⟨hover, hb, hsafe, htidy, hne, hne'⟩ := hparts r' ub hr
    obtain ⟨r₁, hr₁, hover₁, -, ho₁⟩ := makeRep_shaped hover htidy hb hsafe
    refine ⟨r₁, hr₁, hover₁, ?_⟩
    rw [isEmptySeq_iff_outline, ho₁]
    exact makeRep_ne_empty hne hne'

theorem transform_spec (h : FromCCs re) (hsafe : EncodeSafe naming re) : ∃ r,
    transform (transformCC m naming) other re = .ok (r, re.hasCC) ∧ Encodes naming re r := by
  induction h with
  | @cc c hwf ha =>
    obtain ⟨r, hr, hover, htidy, ho, hd⟩ := @transformCC_spec m _ naming hwf ha
    refine ⟨r, by rw [transform, hr, hasCC], hover, htidy, ho, ?_⟩
    rw [hd, denote]
    rfl
  | emptySet =>
    refine ⟨alt [], by rfl, .alt (List.forall_mem_nil _), .inl rfl, rfl, ?_⟩
    simp only [denote, denoteAlt, encoded_bot]
  | emptySeq =>
    refine ⟨seq [], by rfl, over_emptySeq, by simp [Tidy], rfl, ?_⟩
    simp only [denote, denoteSeq, encoded_one]
  | @alt elems _ hcc ih =>
    cases hsafe with
    | alt hsafe hrep =>
      obtain ⟨rs, hrs, hall⟩ := transformElems_spec fun e he ↦ ih e he (hsafe e he)
      have hencodes := exists_encodes hall
      have hover : ∀ r ∈ rs, Over UTF8 r := by
        intro r hr
        obtain ⟨_, _, h⟩ := hencodes r hr
        exact h.isOver
      have htidy : ∀ r ∈ rs, Tidy r := by
        intro r hr
        obtain ⟨_, _, h⟩ := hencodes r hr
        exact h.tidy
      have halts : ∀ r ∈ rs, AltReady words makeRep r ∧ AltKeeps UTF8 makeRep r := by
        intro r hr
        obtain ⟨e, he, h⟩ := hencodes r hr
        exact h.altSafe (hrep e he)
      obtain ⟨r, hr, hover₁, htidy, ho⟩ := makeAltWith_outline hover htidy
        fun r hr ↦ (halts r hr).2
      obtain ⟨r', hr', -, hd⟩ := makeAltWith_spec (M := words)
        (fun r hr ↦ (hover r hr).valid) fun r hr ↦ (halts r hr).1
      obtain rfl : r = r' := Except.ok.inj (hr.symm.trans hr')
      refine ⟨r, ?_, hover₁, htidy, by rw [ho, outlines_eq hall, utf8Outline], ?_⟩
      · rw [transform, hrs, ok_bind]
        simp only [hcc, if_true, makeAlt, hr, ok_bind, pure_eq_ok, hasCC]
      · rw [hd, denoteAlt_encoded hall, denote]
  | @seq elems _ hcc ih =>
    cases hsafe with
    | seq hsafe =>
      obtain ⟨rs, hrs, hall⟩ := transformElems_spec fun e he ↦ ih e he (hsafe e he)
      have hencodes := exists_encodes hall
      have hover : ∀ r ∈ rs, Over UTF8 r := by
        intro r hr
        obtain ⟨_, _, h⟩ := hencodes r hr
        exact h.isOver
      have htidy : ∀ r ∈ rs, Tidy r := by
        intro r hr
        obtain ⟨_, _, h⟩ := hencodes r hr
        exact h.tidy
      obtain ⟨htidy, ho⟩ := makeSeq_outline htidy
      refine ⟨makeSeq rs, ?_, over_makeSeq hover, htidy,
        by rw [ho, outlines_eq hall, utf8Outline], ?_⟩
      · rw [transform, hrs, ok_bind]
        simp only [hcc, if_true, pure_eq_ok, hasCC]
      · rw [denote_makeSeq fun r hr ↦ (hover r hr).valid, denoteSeq_encoded hall, denote]
  | @rep re lb ub _ hcc hb ih =>
    cases hsafe with
    | rep hsafe hrep =>
      obtain ⟨r, hr, hencodes⟩ := ih hsafe
      rw [← hencodes.outline] at hrep
      obtain ⟨r₁, hr₁, hover, htidy, ho⟩ :=
        makeRep_shaped hencodes.isOver hencodes.tidy hb hrep
      obtain ⟨r₂, hr₂, -, hd⟩ := makeRep_repeats (M := words) hencodes.isOver.valid hb hrep
      obtain rfl : r₁ = r₂ := Except.ok.inj (hr₁.symm.trans hr₂)
      refine ⟨r₁, ?_, hover, htidy, by rw [ho, hencodes.outline, utf8Outline], ?_⟩
      · rw [transform, hr, ok_bind]
        simp only [hcc, if_true, hr₁, ok_bind, pure_eq_ok, hasCC]
      · rw [hd, hencodes.denote, ← encoded_powers, denote]

/-- The code units of an expression match the encodings of the strings of code points that it
matches, where the repetitions of the code units can be built. Those of a class always can. -/
theorem toUTF8_exact (m : Memory) (other : RE → Except Fault (RE × Bool))
    (useInternalNaming : Bool) :
    (∀ c : CC, c.set.WellFormed → c.alphabet = Unicode → ∃ r,
      toUTF8 m other (cc c) useInternalNaming = .ok r ∧ Over UTF8 r ∧
        ∀ w, w ∈ denote words r ↔ ∃ cp ∈ c.set.members, utf8 cp = w) ∧
    ∀ re : RE, FromCCs re → EncodeSafe useInternalNaming re → ∃ r,
      toUTF8 m other re useInternalNaming = .ok r ∧ Over UTF8 r ∧
        ∀ w, w ∈ denote words r ↔ ∃ v ∈ denote words re, v.flatMap utf8 = w := by
  constructor
  · intro c hwf ha
    obtain ⟨r, hr, hover, -, -, hd⟩ := @transformCC_spec m _ useInternalNaming hwf ha
    refine ⟨r, by rw [toUTF8, transform, hr, ok_bind, pure_eq_ok], hover, fun w ↦ ?_⟩
    rw [hd, mem_encoded]
    constructor
    · rintro ⟨_, ⟨cp, hcp, rfl⟩, rfl⟩
      exact ⟨cp, hcp, by simp⟩
    · rintro ⟨cp, hcp, rfl⟩
      exact ⟨_, ⟨cp, hcp, rfl⟩, by simp⟩
  · intro re h hsafe
    obtain ⟨r, hr, hencodes⟩ :=
      @transform_spec m useInternalNaming other _ h hsafe
    refine ⟨r, by rw [toUTF8, hr, ok_bind, pure_eq_ok], hencodes.isOver, fun w ↦ ?_⟩
    rw [hencodes.denote, mem_encoded]

end Expression

section Example

/-- What becomes of the kinds of expression left open: nothing. -/
def unchanged (r : RE) : Except Fault (RE × Bool) := .ok (r, false)

/-- A class on its own, and two or three of it. -/
theorem toUTF8_exact_letter :
    (∃ r, toUTF8 zeroed unchanged (letter 233) false = .ok r ∧ Over UTF8 r ∧
      ∀ w, w ∈ denote words r ↔ ∃ cp ∈ (UnicodeSet.singleton zeroed 233).members, utf8 cp = w) ∧
    ∃ r, toUTF8 zeroed unchanged (rep (letter 233) 2 3) false = .ok r ∧ Over UTF8 r ∧
      ∀ w, w ∈ denote words r ↔
        ∃ v ∈ denote words (rep (letter 233) 2 3), v.flatMap utf8 = w := by
  have hwf : (UnicodeSet.singleton zeroed 233).WellFormed := singleton_wellFormed _ (by decide)
  have hb : Bounds 2 3 := ⟨by decide, by decide, .inr (by decide), by decide⟩
  have hfrom : FromCCs (rep (letter 233) 2 3) := .rep (.cc hwf rfl) rfl hb
  have hsafe : EncodeSafe false (rep (letter 233) 2 3) := by
    refine .rep (.cc _) ?_
    rw [letter, utf8Outline, if_neg (by decide)]
    generalize UnicodeSet.intervals _ = is
    split_ifs
    · exact fun h ↦ absurd h (by decide)
    · trivial
  exact ⟨(toUTF8_exact zeroed unchanged false).1 _ hwf rfl,
    (toUTF8_exact zeroed unchanged false).2 _ hfrom hsafe⟩

/-- `(a{2,3}|[])?`, with an empty class. -/
def emptyChoice : RE := rep (alt [rep (letter 97) 2 3, cc ⟨.emptySet, Unicode⟩]) 0 1

/-- Without the empty class the repetition is one of a repetition, which cannot be built. -/
theorem toUTF8_emptyChoice : FromCCs emptyChoice ∧
    ∀ r, toUTF8 zeroed unchanged emptyChoice false ≠ .ok r := by
  constructor
  · have hb : Bounds 2 3 := ⟨by decide, by decide, .inr (by decide), by decide⟩
    have hb' : Bounds 0 1 := ⟨by decide, by decide, .inr (by decide), by decide⟩
    refine .rep (.alt ?_ rfl) rfl hb'
    intro e he
    simp only [List.mem_cons, List.not_mem_nil, or_false] at he
    obtain rfl | rfl := he
    · exact .rep (.cc (singleton_wellFormed _ (by decide)) rfl) rfl hb
    · exact .cc emptySet_wellFormed rfl
  · have hnone : (toUTF8 zeroed unchanged emptyChoice false).toOption.isNone = true := by
      decide +kernel
    intro r hr
    rw [hr] at hnone
    cases hnone

end Example

end Parabix.RE
