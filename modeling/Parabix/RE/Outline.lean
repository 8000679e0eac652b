import Parabix.RE.Alphabet

namespace Parabix.RE

open Library UCD

variable {a : ℕ} {re e : RE} {elems items newSeq : List RE} {CCs : List CC} {c : CC}
  {found : Alternatives} {l u lb ub : ℤ} {s : Outline}

section Tidy

def isCC : RE → Bool
  | cc _ => true
  | _ => false

/-- How many alternatives are left of the elements of a nested Alt: the classes become one, and the
empty sequences. -/
def spread (elems : List RE) : ℕ :=
  elems.countP (fun e ↦ !e.isCC && !e.isEmptySeq) + (elems.any isCC).toNat +
    (elems.any isEmptySeq).toNat

/-- What the constructors make of tidy parts: no node stands for one of its parts. -/
def Tidy : RE → Prop
  | seq elems => elems.length ≠ 1
  | alt elems => elems = [] ∨ 2 ≤ spread elems
  | rep re _ _ => Tidy re ∧ re.outline ≠ .nothing ∧ re.outline ≠ .empty
  | _ => True

theorem CC.Over.not_empty (h : CC.Over a c) : ¬c.set.empty = true := by
  intro he
  have hnone := h.nonempty
  rw [members_of_empty h.wellFormed he] at hnone
  exact Set.not_nonempty_empty hnone

theorem CC.Over.outline (h : CC.Over a c) : (cc c).outline = .solid := by
  rw [RE.outline, if_neg h.not_empty]

theorem isEmptySeq_iff_outline : re.isEmptySeq = true ↔ re.outline = .empty := by
  cases re with
  | alt elems => cases elems <;> simp [outline, isEmptySeq]
  | cc c =>
    rw [outline]
    split_ifs <;> simp [isEmptySeq]
  | seq elems => cases elems <;> simp [outline, isEmptySeq]
  | _ => simp [outline, isEmptySeq]

end Tidy

section Outlines

/-- The outline of a sequence with one more item. -/
def Outline.seqStep : Outline → Outline → Outline
  | .nothing, _ => .nothing
  | _, .nothing => .nothing
  | .empty, o => o
  | s, .empty => s
  | _, _ => .solid

/-- The outline of the alternatives with one more element. -/
def Outline.altStep : Outline → Outline → Outline
  | s, .nothing => s
  | .nothing, .rep i lb ub => if lb = 0 then .solid else .rep i lb ub
  | .nothing, o => o
  | .empty, .empty => .empty
  | _, _ => .solid

/-- The outline of the repetitions. -/
def Outline.makeRep : Outline → ℤ → ℤ → Outline
  | .nothing, _, _ => .nothing
  | .empty, _, _ => .empty
  | .solid, lb, ub =>
    if lb = 0 ∧ ub = 0 then .empty
    else if lb = 1 ∧ ub = 1 then .solid
    else .rep .solid lb ub
  | .rep i l u, lb, ub =>
    if lb = ub then
      .rep i (l * lb) (combinedUB u ub)
    else if u = UNBOUNDED_REP then
      if l = 0 then
        .rep i l u
      else if l = 1 then
        .rep i lb UNBOUNDED_REP
      else if lb = 0 then
        .rep (.rep i l u) 0 1
      else
        .rep i (l * lb) UNBOUNDED_REP
    else if l < u then
      if (u - 2).tdiv (u - l) ≤ lb then
        .rep i (l * lb) (combinedUB u ub)
      else if ub = UNBOUNDED_REP ∨ (u - 2).tdiv (u - l) ≤ ub then
        .solid
      else
        .rep (.rep i l u) lb ub
    else
      .rep (.rep i l u) lb ub

end Outlines

section Seq

/-- The outline of a sequence of the given items. -/
inductive SeqSummary : List RE → Outline → Prop
  | empty : SeqSummary [] .empty
  | one {e : RE} (ht : Tidy e) (h : e.outline ≠ .nothing) (h' : e.outline ≠ .empty) :
      SeqSummary [e] e.outline
  | many {elems : List RE} (h : 2 ≤ elems.length) : SeqSummary elems .solid

theorem SeqSummary.ne_nothing (h : SeqSummary elems s) : s ≠ .nothing := by
  cases h with
  | empty => simp
  | one _ h _ => exact h
  | many => simp

theorem SeqSummary.collapse (h : SeqSummary elems s) :
    Tidy (collapse seq elems) ∧ (collapse seq elems).outline = s := by
  cases h with
  | empty => exact ⟨by simp [RE.collapse, Tidy], rfl⟩
  | one ht _ _ => exact ⟨ht, rfl⟩
  | many h =>
    rcases elems with _ | ⟨e, _ | ⟨e', rest⟩⟩
    · simp at h
    · simp at h
    · exact ⟨by simp [RE.collapse, Tidy], rfl⟩

theorem Outline.seqStep_solid (h : s ≠ .nothing) : s.seqStep .solid = .solid := by
  cases s <;> first | rfl | exact absurd rfl h

theorem Outline.seqStep_empty : s.seqStep .empty = s := by cases s <;> rfl

/-- An item that stays one adds itself. -/
theorem SeqSummary.push (h : SeqSummary elems s) (ht : Tidy e) (h1 : e.outline ≠ .nothing)
    (h2 : e.outline ≠ .empty) : SeqSummary (elems ++ [e]) (s.seqStep e.outline) := by
  cases h with
  | empty =>
    have hstep : Outline.seqStep .empty e.outline = e.outline := by
      cases e.outline <;> rfl
    rw [hstep]
    exact .one ht h1 h2
  | @one e' _ h1' h2' =>
    have hstep : e'.outline.seqStep e.outline = .solid := by
      cases he' : e'.outline <;> cases he : e.outline <;> first | rfl | contradiction
    rw [hstep]
    exact .many (by simp)
  | many h =>
    have hstep : Outline.seqStep .solid e.outline = .solid := by
      cases he : e.outline <;> first | rfl | contradiction
    rw [hstep]
    refine .many ?_
    rw [List.length_append]
    omega

theorem SeqSummary.nested (h : SeqSummary elems s) (ht : Tidy e) (h1 : e.outline ≠ .nothing) :
    SeqSummary (elems ++ e.nestedItems) (s.seqStep e.outline) := by
  by_cases hseq : ∃ nestedSeq, e = seq nestedSeq
  · obtain ⟨nestedSeq, rfl⟩ := hseq
    rw [nestedItems]
    rcases nestedSeq with _ | ⟨x, _ | ⟨y, rest⟩⟩
    · rwa [List.append_nil, outline, Outline.seqStep_empty]
    · exact absurd rfl ht
    · have houtline : (seq (x :: y :: rest)).outline = .solid := rfl
      rw [houtline, Outline.seqStep_solid h.ne_nothing]
      refine .many ?_
      simp only [List.length_append, List.length_cons]
      omega
  · have hitems : e.nestedItems = [e] := by
      cases e with
      | seq l => exact absurd ⟨l, rfl⟩ hseq
      | _ => rfl
    have h2 : e.outline ≠ .empty := by
      intro he
      cases e with
      | seq l => exact hseq ⟨l, rfl⟩
      | _ =>
        rw [← isEmptySeq_iff_outline] at he
        cases he
    rw [hitems]
    exact h.push ht h1 h2

theorem foldl_seqStep_nothing (os : List Outline) :
    os.foldl Outline.seqStep .nothing = .nothing := by
  induction os with
  | nil => rfl
  | cons o os ih => rw [List.foldl_cons, Outline.seqStep, ih]

theorem pushSeq_outline (hn : SeqSummary newSeq s) (h : ∀ e ∈ items, Tidy e) :
    Tidy (pushSeq newSeq items) ∧
      (pushSeq newSeq items).outline = (items.map outline).foldl Outline.seqStep s := by
  induction items generalizing newSeq s with
  | nil => exact hn.collapse
  | cons item items ih =>
    have hitem := h item (List.mem_cons_self ..)
    rw [pushSeq, List.map_cons, List.foldl_cons]
    split_ifs with hempty
    · have hnothing := outline_nothing_iff.2 hempty
      refine ⟨hitem, ?_⟩
      have hstep : s.seqStep .nothing = .nothing := by cases s <;> rfl
      rw [hnothing, hstep, foldl_seqStep_nothing]
    · have hne : item.outline ≠ .nothing := fun he ↦ hempty (outline_nothing_iff.1 he)
      exact ih (hn.nested hitem hne) fun e he ↦ h e (List.mem_cons_of_mem _ he)

theorem makeSeq_outline (h : ∀ e ∈ items, Tidy e) : Tidy (makeSeq items) ∧
    (makeSeq items).outline = (items.map outline).foldl Outline.seqStep .empty :=
  pushSeq_outline .empty h

end Seq

section Alt

theorem combineCC_over (hCCs : CCs = [] ∨ ∃ d, CC.Over a d ∧ CCs = [d]) (hc : CC.Over a c) :
    ∃ d, CC.Over a d ∧ combineCC CCs c = .ok [d] := by
  obtain rfl | ⟨d, hd, rfl⟩ := hCCs
  · exact ⟨c, hc, rfl⟩
  · have halphabet := hd.alphabet.trans hc.alphabet.symm
    obtain ⟨u, hu, hwf, hua, hmembers⟩ := CC.union_spec hd.wellFormed hc.wellFormed halphabet
    refine ⟨u, ⟨hwf, hua.trans hd.alphabet, ?_⟩, ?_⟩
    · rw [hmembers]
      exact hd.nonempty.inl
    · rw [combineCC, if_pos halphabet, hu, ok_bind, pure_eq_ok]

/-- What was found is over the alphabet: at most one class apart from those that a repetition left,
and then there is the empty sequence too. -/
structure Alternatives.Over (a : ℕ) (found : Alternatives) : Prop where
  newAlt : ∀ e ∈ found.newAlt, RE.Over a e
  CCs : found.CCs = [] ∨ ∃ d, CC.Over a d ∧ found.CCs = [d]
  ne_empty : ∀ e ∈ found.newAlt, ¬e.isEmptySeq = true
  ne_cc : found.nullable = false → ∀ e ∈ found.newAlt, ¬e.isCC = true

theorem Alternatives.Over.nullable (h : found.Over a) :
    Alternatives.Over a { found with nullable := true } :=
  ⟨h.newAlt, h.CCs, h.ne_empty, fun h ↦ nomatch h⟩

theorem Alternatives.Over.push (h : found.Over a) (he : RE.Over a e) (h1 : ¬e.isEmptySeq = true)
    (h2 : found.nullable = false → ¬e.isCC = true) :
    Alternatives.Over a { found with newAlt := found.newAlt ++ [e] } := by
  refine ⟨?_, h.CCs, ?_, ?_⟩
  · intro x hx
    obtain hx | hx := List.mem_append.1 hx
    · exact h.newAlt x hx
    · rwa [List.mem_singleton.1 hx]
  · intro x hx
    obtain hx | hx := List.mem_append.1 hx
    · exact h.ne_empty x hx
    · rwa [List.mem_singleton.1 hx]
  · intro hnull x hx
    obtain hx | hx := List.mem_append.1 hx
    · exact h.ne_cc hnull x hx
    · rw [List.mem_singleton.1 hx]
      exact h2 hnull

theorem Alternatives.Over.elements (h : found.Over a) : ∀ e ∈ found.elements, RE.Over a e := by
  intro e he
  simp only [Alternatives.elements, List.mem_append, List.mem_map] at he
  obtain (he | ⟨d, hd, rfl⟩) | he := he
  · exact h.newAlt e he
  · obtain hnone | ⟨d', hd', hone⟩ := h.CCs
    · rw [hnone] at hd
      cases hd
    · rw [hone, List.mem_singleton] at hd
      rw [hd]
      exact .cc hd'
  · split_ifs at he
    · rw [List.mem_singleton.1 he]
      exact over_emptySeq
    · cases he

/-- How many alternatives were found. -/
def Alternatives.size (found : Alternatives) : ℕ :=
  found.newAlt.length + found.CCs.length + found.nullable.toNat

theorem Alternatives.length_elements : found.elements.length = found.size := by
  rw [Alternatives.elements, Alternatives.size, List.length_append, List.length_append,
    List.length_map]
  cases found.nullable <;> rfl

/-- The alternatives of what was found stay apart when they are nested in others. -/
theorem Alternatives.Over.le_spread (h : found.Over a) (hsize : 2 ≤ found.size) :
    2 ≤ spread found.elements := by
  cases hnull : found.nullable with
  | true =>
    have hempty : found.elements.any isEmptySeq = true := by
      simp [Alternatives.elements, hnull, isEmptySeq]
    have hother : ∃ e ∈ found.elements, ¬e.isEmptySeq = true := by
      obtain hnone | ⟨d, -, hone⟩ := h.CCs
      · simp only [Alternatives.size, hnone, hnull, List.length_nil, Bool.toNat_true] at hsize
        obtain ⟨e, he⟩ := List.exists_mem_of_length_pos (show 0 < found.newAlt.length by omega)
        exact ⟨e, by simp [Alternatives.elements, he], h.ne_empty e he⟩
      · exact ⟨cc d, by simp [Alternatives.elements, hone], by simp [isEmptySeq]⟩
    obtain ⟨e, he, hne⟩ := hother
    have hpos : 1 ≤ found.elements.countP (fun e ↦ !e.isCC && !e.isEmptySeq) +
        (found.elements.any isCC).toNat := by
      by_cases hcc : e.isCC = true
      · have hany : found.elements.any isCC = true := List.any_eq_true.2 ⟨e, he, hcc⟩
        rw [hany]
        exact Nat.le_add_left _ _
      · have hcount : 0 < found.elements.countP (fun e ↦ !e.isCC && !e.isEmptySeq) :=
          List.countP_pos_iff.2 ⟨e, he, by simp [hcc, hne]⟩
        exact Nat.le_add_right_of_le hcount
    rw [spread, hempty]
    exact Nat.add_le_add_right hpos 1
  | false =>
    have hcount : found.newAlt.countP (fun e ↦ !e.isCC && !e.isEmptySeq) = found.newAlt.length := by
      apply List.countP_eq_length.2
      intro e he
      simp [h.ne_cc hnull e he, h.ne_empty e he]
    rw [Alternatives.size, hnull] at hsize
    rw [spread, Alternatives.elements, hnull]
    obtain hnone | ⟨d, -, hone⟩ := h.CCs
    · rw [hnone] at hsize ⊢
      simp only [List.map_nil, List.append_nil, Bool.false_eq_true, if_false, hcount]
      exact Nat.le_add_right_of_le (Nat.le_add_right_of_le hsize)
    · rw [hone] at hsize ⊢
      simp only [List.map_cons, List.map_nil, Bool.false_eq_true, if_false, List.append_nil,
        List.countP_append, hcount, List.any_append]
      simpa [isCC, isEmptySeq] using Nat.le_add_right_of_le hsize

/-- What an element of an Alt adds inside another. -/
theorem addNested_over (h : found.Over a) (he : RE.Over a e) : ∃ found',
    addNested found e = .ok found' ∧ found'.Over a ∧
      found'.newAlt.length = found.newAlt.length + (!e.isCC && !e.isEmptySeq).toNat ∧
      found'.CCs.length = max found.CCs.length e.isCC.toNat ∧
      found'.nullable = (found.nullable || e.isEmptySeq) := by
  by_cases hcc : e.isCC = true
  · cases he with
    | @cc c hc =>
      obtain ⟨d, hd, hcombine⟩ := combineCC_over h.CCs hc
      refine ⟨{ found with CCs := [d] }, by rw [addNested, hcombine, ok_bind, pure_eq_ok],
        ⟨h.newAlt, .inr ⟨d, hd, rfl⟩, h.ne_empty, h.ne_cc⟩, by simp [isCC], ?_,
        by simp [isEmptySeq]⟩
      obtain hnone | ⟨d', -, hone⟩ := h.CCs
      · simp [hnone, isCC]
      · simp [hone, isCC]
    | _ => cases hcc
  · have hstep : addNested found e =
        if e.isEmptySeq then .ok { found with nullable := true }
        else .ok { found with newAlt := found.newAlt ++ [e] } := by
      cases e with
      | cc c => exact absurd rfl hcc
      | _ => rfl
    rw [hstep]
    split_ifs with hempty
    · exact ⟨_, rfl, h.nullable, by simp [hempty], by simp [hcc], by simp [hempty]⟩
    · exact ⟨_, rfl, h.push he hempty fun _ ↦ hcc, by simp [hempty, hcc], by simp [hcc],
        by simp [hempty]⟩

theorem foldlM_addNested_over (h : found.Over a) (he : ∀ e ∈ elems, RE.Over a e) : ∃ found',
    elems.foldlM addNested found = .ok found' ∧ found'.Over a ∧
      found'.newAlt.length =
        found.newAlt.length + elems.countP (fun e ↦ !e.isCC && !e.isEmptySeq) ∧
      found'.CCs.length = max found.CCs.length (elems.any isCC).toNat ∧
      found'.nullable = (found.nullable || elems.any isEmptySeq) := by
  induction elems generalizing found with
  | nil => exact ⟨found, rfl, h, by simp⟩
  | cons e elems ih =>
    obtain ⟨found₁, h₁, hover₁, hnew₁, hcc₁, hnull₁⟩ := addNested_over h (he e (List.mem_cons_self ..))
    obtain ⟨found₂, h₂, hover₂, hnew₂, hcc₂, hnull₂⟩ :=
      ih hover₁ fun x hx ↦ he x (List.mem_cons_of_mem _ hx)
    refine ⟨found₂, by rw [List.foldlM_cons, h₁, ok_bind, h₂], hover₂, ?_, ?_, ?_⟩
    · rw [hnew₂, hnew₁, List.countP_cons]
      cases (!e.isCC && !e.isEmptySeq)
      · simp
      · simp
        omega
    · rw [hcc₂, hcc₁, List.any_cons]
      cases e.isCC <;> cases elems.any isCC <;> simp
    · rw [hnull₂, hnull₁, List.any_cons, Bool.or_assoc]

/-- A nested Alt leaves as many alternatives as it has. -/
theorem foldlM_addNested_size (h : found.Over a) (he : ∀ e ∈ elems, RE.Over a e) : ∃ found',
    elems.foldlM addNested found = .ok found' ∧ found'.Over a ∧ spread elems ≤ found'.size := by
  obtain ⟨found', hf, hover, hnew, hcc, hnull⟩ := foldlM_addNested_over h he
  refine ⟨found', hf, hover, ?_⟩
  have hle : (elems.any isEmptySeq).toNat ≤ found'.nullable.toNat := by
    rw [hnull]
    cases found.nullable <;> cases elems.any isEmptySeq <;> decide
  rw [spread, Alternatives.size]
  omega

/-- The outline of what was found. -/
inductive AltSummary : Alternatives → Outline → Prop
  | nothing : AltSummary ⟨[], false, []⟩ .nothing
  | empty : AltSummary ⟨[], true, []⟩ .empty
  | one {e : RE} (ht : Tidy e) (h : e.outline ≠ .nothing) (h' : e.outline ≠ .empty) :
      AltSummary ⟨[e], false, []⟩ e.outline
  | oneClass (c : CC) : AltSummary ⟨[], false, [c]⟩ .solid
  | many {found : Alternatives} (h : 2 ≤ found.size) : AltSummary found .solid

theorem AltSummary.collapse (hs : AltSummary found s) (h : found.Over a) :
    Tidy (collapse alt found.elements) ∧ (collapse alt found.elements).outline = s := by
  cases hs with
  | nothing => exact ⟨.inl rfl, rfl⟩
  | empty => exact ⟨by simp [Alternatives.elements, RE.collapse, Tidy], rfl⟩
  | one ht _ _ => exact ⟨ht, rfl⟩
  | oneClass c =>
    obtain hnone | ⟨d, hd, hone⟩ := h.CCs
    · cases hnone
    · cases hone
      exact ⟨trivial, hd.outline⟩
  | many hsize =>
    have hspread := h.le_spread hsize
    rw [← Alternatives.length_elements] at hsize
    generalize found.elements = elems at hsize hspread ⊢
    rcases elems with _ | ⟨e, _ | ⟨e', rest⟩⟩
    · simp at hsize
    · simp at hsize
    · exact ⟨.inr hspread, rfl⟩

/-- One alternative more, however it is added. -/
theorem AltSummary.more {found' : Alternatives} (hs : AltSummary found s)
    (hne : s ≠ .nothing) (hsize : found.size < found'.size) : AltSummary found' .solid := by
  refine .many ?_
  have hpos : 1 ≤ found.size := by
    cases hs with
    | nothing => exact absurd rfl hne
    | empty => exact Nat.le_refl 1
    | one => exact Nat.le_refl 1
    | oneClass => exact Nat.le_refl 1
    | many h => omega
  omega

theorem AltSummary.eq_of_nothing (hs : AltSummary found .nothing) : found = ⟨[], false, []⟩ := by
  generalize ho : Outline.nothing = o at hs
  cases hs with
  | nothing => rfl
  | one _ h _ => exact absurd ho.symm h
  | _ => cases ho

/-- Pushing an element adds its outline. -/
theorem AltSummary.push (hs : AltSummary found s) (ht : Tidy e) (h : e.outline ≠ .nothing)
    (h' : e.outline ≠ .empty) (hzero : ∀ i ub, e.outline ≠ .rep i 0 ub) :
    AltSummary { found with newAlt := found.newAlt ++ [e] } (s.altStep e.outline) := by
  by_cases hnothing : s = .nothing
  · subst hnothing
    rw [hs.eq_of_nothing]
    have hstep : Outline.altStep .nothing e.outline = e.outline := by
      cases he : e.outline with
      | rep i lb ub =>
        rw [Outline.altStep, if_neg]
        rintro rfl
        exact hzero i ub he
      | _ => rfl
    rw [hstep]
    exact .one ht h h'
  · have hstep : s.altStep e.outline = .solid := by
      cases he : e.outline <;> cases s <;> first | rfl | contradiction
    rw [hstep]
    refine hs.more hnothing ?_
    simp only [Alternatives.size, List.length_append, List.length_singleton]
    omega

/-- What an element of an Alt asks of `makeRep`. -/
def AltKeeps (a : ℕ) (makeRep : RE → ℤ → ℤ → Except Fault RE) (e : RE) : Prop :=
  ∀ r ub, e = rep r 0 ub → ∃ r', makeRep r 1 ub = .ok r' ∧ RE.Over a r' ∧ ¬r'.isEmptySeq = true

variable {makeRep : RE → ℤ → ℤ → Except Fault RE}

theorem Outline.altStep_solid (s : Outline) : s.altStep .solid = .solid := by
  cases s <;> rfl

theorem AltSummary.addClass {d : CC} (hs : AltSummary found s) (h : found.Over a) :
    AltSummary { found with CCs := [d] } .solid := by
  cases hs with
  | nothing => exact .oneClass d
  | empty => exact .many (Nat.le_refl 2)
  | one => exact .many (Nat.le_refl 2)
  | oneClass c => exact .oneClass d
  | many hsize =>
    have hle : found.CCs.length ≤ 1 := by
      obtain hnone | ⟨d', -, hone⟩ := h.CCs
      · simp [hnone]
      · simp [hone]
    refine .many ?_
    simp only [Alternatives.size, List.length_singleton] at hsize ⊢
    omega

theorem AltSummary.addEmpty (hs : AltSummary found s) :
    AltSummary { found with nullable := true } (s.altStep .empty) := by
  cases hs with
  | nothing => exact .empty
  | empty => exact .empty
  | @one e _ h h' =>
    have hstep : e.outline.altStep .empty = .solid := by
      cases he : e.outline <;> first | rfl | contradiction
    rw [hstep]
    exact .many (Nat.le_refl 2)
  | oneClass c => exact .many (Nat.le_refl 2)
  | many h =>
    refine .many ?_
    simp only [Alternatives.size, Bool.toNat_true] at h ⊢
    have := found.nullable.toNat_le
    omega

theorem addAlternative_over (h : found.Over a) (hs : AltSummary found s) (he : RE.Over a e)
    (ht : Tidy e) (hkeeps : AltKeeps a makeRep e) : ∃ found',
      addAlternative makeRep found e = .ok found' ∧ found'.Over a ∧
        AltSummary found' (s.altStep e.outline) := by
  cases he with
  | @cc c hc =>
    obtain ⟨d, hd, hcombine⟩ := combineCC_over h.CCs hc
    refine ⟨{ found with CCs := [d] }, by rw [addAlternative, hcombine, ok_bind, pure_eq_ok],
      ⟨h.newAlt, .inr ⟨d, hd, rfl⟩, h.ne_empty, h.ne_cc⟩, ?_⟩
    rw [hc.outline, Outline.altStep_solid]
    exact hs.addClass h
  | @alt elems helems =>
    obtain ⟨found', hf, hover, hsize⟩ := foldlM_addNested_size h helems
    refine ⟨found', hf, hover, ?_⟩
    cases elems with
    | nil =>
      cases hf
      exact hs
    | cons e elems =>
      have houtline : (alt (e :: elems)).outline = .solid := rfl
      rw [houtline, Outline.altStep_solid]
      have hspread : 2 ≤ spread (e :: elems) := ht.resolve_left (by simp)
      exact .many (hspread.trans hsize)
  | @seq elems helems =>
    cases elems with
    | nil => exact ⟨_, rfl, h.nullable, hs.addEmpty⟩
    | cons e elems =>
      refine ⟨_, rfl, h.push (.seq helems) (by simp [isEmptySeq]) fun _ ↦ by simp [isCC], ?_⟩
      exact hs.push ht (by rintro ⟨⟩) (by rintro ⟨⟩) (by rintro _ _ ⟨⟩)
  | @rep re lb ub hre hb =>
    rw [addAlternative]
    split_ifs with h0
    · subst h0
      obtain ⟨r', hr', hover, hne⟩ := hkeeps re ub rfl
      refine ⟨{ found with newAlt := found.newAlt ++ [r'], nullable := true },
        by rw [hr', ok_bind, pure_eq_ok], h.nullable.push hover hne (by rintro ⟨⟩), ?_⟩
      have hstep : s.altStep (.rep re.outline 0 ub) = .solid := by cases s <;> rfl
      rw [RE.outline, hstep]
      refine .many ?_
      simp only [Alternatives.size, List.length_append, List.length_singleton, Bool.toNat_true]
      omega
    · refine ⟨_, rfl, h.push (.rep hre hb) (by simp [isEmptySeq]) fun _ ↦ by simp [isCC], ?_⟩
      refine hs.push ht (by simp [outline]) (by simp [outline]) ?_
      intro i ub' heq
      rw [RE.outline, Outline.rep.injEq] at heq
      exact h0 heq.2.1
  | @name definition n hd =>
    refine ⟨_, rfl, h.push (.name n hd) (by simp [isEmptySeq]) fun _ ↦ by simp [isCC], ?_⟩
    exact hs.push ht (by rintro ⟨⟩) (by rintro ⟨⟩) (by rintro _ _ ⟨⟩)

theorem foldlM_addAlternative_over (h : found.Over a) (hs : AltSummary found s)
    (he : ∀ e ∈ elems, RE.Over a e) (ht : ∀ e ∈ elems, Tidy e)
    (hkeeps : ∀ e ∈ elems, AltKeeps a makeRep e) : ∃ found',
      elems.foldlM (addAlternative makeRep) found = .ok found' ∧ found'.Over a ∧
        AltSummary found' ((elems.map outline).foldl Outline.altStep s) := by
  induction elems generalizing found s with
  | nil => exact ⟨found, rfl, h, hs⟩
  | cons e elems ih =>
    have hmem := List.mem_cons_self (a := e) (l := elems)
    obtain ⟨found₁, h₁, hover₁, hs₁⟩ :=
      addAlternative_over h hs (he e hmem) (ht e hmem) (hkeeps e hmem)
    obtain ⟨found₂, h₂, hover₂, hs₂⟩ := ih hover₁ hs₁ (fun x hx ↦ he x (List.mem_cons_of_mem _ hx))
      (fun x hx ↦ ht x (List.mem_cons_of_mem _ hx)) fun x hx ↦ hkeeps x (List.mem_cons_of_mem _ hx)
    exact ⟨found₂, by rw [List.foldlM_cons, h₁, ok_bind, h₂], hover₂, hs₂⟩

/-- The constructor for alternatives stays over the alphabet, and its result has the outline that
those of the elements give. -/
theorem makeAltWith_outline (he : ∀ e ∈ elems, RE.Over a e) (ht : ∀ e ∈ elems, Tidy e)
    (hkeeps : ∀ e ∈ elems, AltKeeps a makeRep e) : ∃ e', makeAltWith makeRep elems = .ok e' ∧
      RE.Over a e' ∧ Tidy e' ∧
        e'.outline = (elems.map outline).foldl Outline.altStep .nothing := by
  have hnone : Alternatives.Over a ⟨[], false, []⟩ :=
    ⟨fun _ h ↦ (nomatch h), .inl rfl, fun _ h ↦ (nomatch h), fun _ _ h ↦ (nomatch h)⟩
  obtain ⟨found, hf, hover, hs⟩ := foldlM_addAlternative_over hnone .nothing he ht hkeeps
  obtain ⟨htidy, houtline⟩ := hs.collapse hover
  exact ⟨collapse alt found.elements, by rw [makeAltWith, hf, ok_bind, pure_eq_ok],
    over_collapse (.alt hover.elements) hover.elements, htidy, houtline⟩

end Alt

end Parabix.RE
