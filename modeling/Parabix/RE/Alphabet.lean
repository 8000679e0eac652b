import Parabix.RE.Repetition

namespace Parabix.RE

open Library UCD

/-- A class with members, over the alphabet. -/
structure CC.Over (alphabet : ℕ) (c : CC) : Prop where
  wellFormed : c.set.WellFormed
  alphabet : c.alphabet = alphabet
  nonempty : c.set.members.Nonempty

/-- Expressions of classes over one alphabet, none of them empty. -/
inductive Over (alphabet : ℕ) : RE → Prop
  | cc {c : CC} (h : c.Over alphabet) : Over alphabet (cc c)
  | alt {elems : List RE} (h : ∀ e ∈ elems, Over alphabet e) : Over alphabet (alt elems)
  | seq {elems : List RE} (h : ∀ e ∈ elems, Over alphabet e) : Over alphabet (seq elems)
  | rep {re : RE} {lb ub : ℤ} (h : Over alphabet re) (hb : Bounds lb ub) :
      Over alphabet (rep re lb ub)
  | name {definition : RE} (n : String) (h : Over alphabet definition) :
      Over alphabet (name n definition)

variable {a : ℕ} {re e : RE} {elems items newSeq : List RE}

theorem Over.valid (h : Over a re) : re.Valid := by
  induction h with
  | cc h => exact .cc h.wellFormed
  | alt _ ih => exact .alt ih
  | seq _ ih => exact .seq ih
  | rep _ hb ih => exact .rep ih hb
  | name n _ ih => exact .name n ih

section Seq

theorem over_emptySeq : Over a (seq []) := .seq fun _ h ↦ (nomatch h)

theorem over_collapse {node : List RE → RE} (hnode : Over a (node elems))
    (h : ∀ e ∈ elems, Over a e) : Over a (collapse node elems) := by
  match elems with
  | [] => exact hnode
  | [e] => exact h e (List.mem_singleton_self e)
  | e :: e' :: rest => exact hnode

theorem over_nestedItems (h : Over a e) : ∀ x ∈ e.nestedItems, Over a x := by
  cases h with
  | seq h => exact h
  | cc h => simpa [nestedItems] using Over.cc h
  | alt h => simpa [nestedItems] using Over.alt h
  | rep h hb => simpa [nestedItems] using Over.rep h hb
  | name n h => simpa [nestedItems] using Over.name n h

theorem over_pushSeq (hn : ∀ e ∈ newSeq, Over a e) (h : ∀ e ∈ items, Over a e) :
    Over a (pushSeq newSeq items) := by
  induction items generalizing newSeq with
  | nil => exact over_collapse (.seq hn) hn
  | cons item items ih =>
    have hitem := h item (List.mem_cons_self ..)
    rw [pushSeq]
    split_ifs
    · exact hitem
    · apply ih _ fun e he ↦ h e (List.mem_cons_of_mem _ he)
      intro e he
      obtain he | he := List.mem_append.1 he
      · exact hn e he
      · exact over_nestedItems hitem e he

theorem over_makeSeq (h : ∀ e ∈ items, Over a e) : Over a (makeSeq items) :=
  over_pushSeq (fun _ h ↦ (nomatch h)) h

end Seq

end Parabix.RE
