import Parabix.Library.Spread

namespace Parabix.Library

open BitStream

variable {α β : Type*} (enc : α → List β)

/-- Where the code of the `n`-th character starts. -/
def start (text : List α) (n : ℕ) : ℕ := ((text.take n).flatMap enc).length

section Start

variable {enc} {text : List α} {c : α} {n d r : ℕ}

theorem start_succ (hc : text[n]? = some c) :
    start enc text (n + 1) = start enc text n + (enc c).length := by
  rw [start, List.take_add_one, hc, List.flatMap_append, List.length_append, start]
  simp

theorem start_mono : Monotone (start enc text) := by
  apply monotone_nat_of_le_succ
  intro n
  cases hc : text[n]? with
  | none => rw [start, start, List.take_add_one, hc, Option.toList_none, List.append_nil]
  | some c => rw [start_succ hc]; exact Nat.le_add_right _ _

theorem start_congr {γ : Type*} {enc' : α → List γ}
    (h : ∀ c ∈ text, (enc c).length = (enc' c).length) (n : ℕ) :
    start enc text n = start enc' text n := by
  induction n with
  | zero => rfl
  | succ n ih =>
    cases hc : text[n]? with
    | none =>
      rw [start, start, List.take_add_one, hc, Option.toList_none, List.append_nil]
      exact ih
    | some c => rw [start_succ hc, start_succ hc, ih, h c (List.mem_of_getElem? hc)]

theorem start_length : start enc text text.length = (text.flatMap enc).length := by
  rw [start, List.take_length]

theorem start_append (rest : List α) (hn : n ≤ text.length) :
    start enc (text ++ rest) n = start enc text n := by
  rw [start, List.take_append_of_le_length hn, start]

/-- The codes are laid out one after the other. -/
theorem getElem?_flatMap (hc : text[n]? = some c) (hd : d < (enc c).length) :
    (text.flatMap enc)[start enc text n + d]? = (enc c)[d]? := by
  obtain ⟨hn, rfl⟩ := List.getElem?_eq_some_iff.1 hc
  have hsplit : text.flatMap enc =
      (text.take n).flatMap enc ++ (enc text[n] ++ (text.drop (n + 1)).flatMap enc) := by
    rw [← List.flatMap_cons, ← List.drop_eq_getElem_cons hn, ← List.flatMap_append,
      List.take_append_drop]
  rw [hsplit, start, List.getElem?_append_right (Nat.le_add_right _ _), Nat.add_sub_cancel_left,
    List.getElem?_append_left hd]

theorem start_add_lt (hc : text[n]? = some c) (hd : d < (enc c).length) :
    start enc text n + d < (text.flatMap enc).length := by
  obtain ⟨hn, -⟩ := List.getElem?_eq_some_iff.1 hc
  have hle : start enc text (n + 1) ≤ start enc text text.length := start_mono hn
  rw [start_length, start_succ hc] at hle
  omega

/-- Every position lies in the code of a character. -/
theorem exists_place (hr : r < (text.flatMap enc).length) :
    ∃ n c d, text[n]? = some c ∧ d < (enc c).length ∧ r = start enc text n + d := by
  induction text generalizing r with
  | nil => exact absurd hr (Nat.not_lt_zero r)
  | cons c text ih =>
    rw [List.flatMap_cons, List.length_append] at hr
    by_cases hlt : r < (enc c).length
    · exact ⟨0, c, r, rfl, hlt, (Nat.zero_add r).symm⟩
    · obtain ⟨n, e, d, hn, hd, he⟩ := ih (r := r - (enc c).length) (by omega)
      refine ⟨n + 1, e, d, hn, hd, ?_⟩
      rw [start, List.take_succ_cons, List.flatMap_cons, List.length_append, ← start]
      omega

/-- A position lies in the code of one character only. -/
theorem place_unique {n' d' : ℕ} {c' : α} (hc : text[n]? = some c) (hd : d < (enc c).length)
    (hc' : text[n']? = some c') (hd' : d' < (enc c').length)
    (h : start enc text n + d = start enc text n' + d') : n = n' ∧ c = c' ∧ d = d' := by
  rcases Nat.lt_trichotomy n n' with hlt | rfl | hlt
  · have hle : start enc text (n + 1) ≤ start enc text n' := start_mono hlt
    rw [start_succ hc] at hle
    omega
  · exact ⟨rfl, Option.some.inj (hc.symm.trans hc'), by omega⟩
  · have hle : start enc text (n' + 1) ≤ start enc text n := start_mono hlt
    rw [start_succ hc'] at hle
    omega

end Start

section Units

variable {enc} {text : List α} {x y : Stream} {P Q : α → ℕ → Bool} {k : ℕ}

/-- A stream that is known at the units of each character. -/
def OnUnits (enc : α → List β) (text : List α) (x : Stream) (Q : α → ℕ → Bool) : Prop :=
  ∀ n c d, text[n]? = some c → d < (enc c).length → x (start enc text n + d) = Q c d

/-- Bits that stay inside their character are advanced in it. -/
theorem OnUnits.advance (hx : OnUnits enc text x Q)
    (hin : ∀ c ∈ text, ∀ d < (enc c).length, Q c d = true → d + k < (enc c).length) :
    OnUnits enc text (advance k x) fun c d ↦ decide (k ≤ d) && Q c (d - k) := by
  intro n c d hc hd
  beta_reduce
  by_cases hk : k ≤ d
  · rw [BitStream.advance, if_neg (by omega), Nat.add_sub_assoc hk, hx n c _ hc (by omega),
      decide_eq_true hk, Bool.true_and]
  · rw [decide_eq_false hk, Bool.false_and, BitStream.advance]
    split_ifs with hlt
    · rfl
    · -- Else the bit would have left the character that it comes from.
      have hin_text : start enc text n + d - k < (text.flatMap enc).length := by
        have := start_add_lt hc hd
        omega
      obtain ⟨n', c', d', hc', hd', hp⟩ := exists_place hin_text
      rw [hp, hx n' c' d' hc' hd', Bool.eq_false_iff]
      intro hq
      have hend := hin c' (List.mem_of_getElem? hc') d' hd' hq
      have := place_unique hc hd hc' hend (by omega)
      omega

end Units

section Marks

variable {enc} {text : List α} {m : Stream} {f : α → ℕ} {c : α} {n d : ℕ}

/-- One position of each code is marked. -/
def MarksOne (enc : α → List β) (text : List α) (f : α → ℕ) (m : Stream) : Prop :=
  ∀ n c, text[n]? = some c → f c < (enc c).length ∧
    ∀ d < (enc c).length, m (start enc text n + d) = (d == f c)

theorem MarksOne.rank_start (h : MarksOne enc text f m) (hn : n ≤ text.length) :
    rank m (start enc text n) = n := by
  induction n with
  | zero => rfl
  | succ n ih =>
    obtain ⟨c, hc⟩ : ∃ c, text[n]? = some c := ⟨_, List.getElem?_eq_getElem hn⟩
    obtain ⟨hf, hm⟩ := h n c hc
    have hbelow : rank (fun d ↦ m (start enc text n + d)) (enc c).length = 1 := by
      rw [rank_congr hm]
      have hmark (k : ℕ) : rank (fun d ↦ d == f c) k = if f c < k then 1 else 0 := by
        induction k with
        | zero => rfl
        | succ k ih =>
          rw [rank_succ, ih]
          split_ifs <;> simp <;> omega
      rw [hmark, if_pos hf]
    rw [start_succ hc, rank_add, ih (by omega), hbelow]

/-- The marked positions are those of the characters, in order. -/
theorem MarksOne.rank_mark (h : MarksOne enc text f m) (hc : text[n]? = some c) :
    rank m (start enc text n + f c) = n := by
  obtain ⟨hn, -⟩ := List.getElem?_eq_some_iff.1 hc
  obtain ⟨hf, hm⟩ := h n c hc
  have hbelow : rank (fun d ↦ m (start enc text n + d)) (f c) = 0 := by
    rw [rank, Nat.count_iff_forall_not]
    intro d hd
    rw [hm d (by omega), Bool.not_eq_true, beq_eq_false_iff_ne]
    exact hd.ne
  rw [rank_add, hbelow, h.rank_start hn.le, Nat.add_zero]

/-- A spread bit stands at the mark of its character. -/
theorem MarksOne.spread (h : MarksOne enc text f m) (s : Stream) (hc : text[n]? = some c)
    (hd : d < (enc c).length) :
    spread m s (start enc text n + d) = (d == f c && s n) := by
  have hm := (h n c hc).2 d hd
  by_cases he : d = f c
  · subst he
    rw [beq_self_eq_true] at hm
    rw [spread_of_true hm, h.rank_mark hc, beq_self_eq_true, Bool.true_and]
  · rw [beq_eq_false_iff_ne.2 he] at hm
    rw [spread_of_false hm, beq_eq_false_iff_ne.2 he, Bool.false_and]

end Marks

section Separated

variable {γ : Type*} [DecidableEq γ] {sep : γ} {head head' : List γ} {words words' : List (List γ)}

/-- Words with a separator before each of them. -/
def separated (sep : γ) (words : List (List γ)) : List γ := words.flatMap fun w ↦ sep :: w

/-- The parts between all separators, those in the words as well. -/
def pieces (sep : γ) (words : List (List γ)) : List (List γ) := words.flatMap (·.splitOn sep)

theorem pieces_append (words words' : List (List γ)) :
    pieces sep (words ++ words') = pieces sep words ++ pieces sep words' := List.flatMap_append

theorem splitOn_append_separated (head : List γ) (words : List (List γ)) :
    (head ++ separated sep words).splitOn sep = head.splitOn sep ++ pieces sep words := by
  induction words generalizing head with
  | nil => rw [separated, pieces, List.flatMap_nil, List.flatMap_nil, List.append_nil,
      List.append_nil]
  | cons w words ih =>
    rw [separated, List.flatMap_cons, List.cons_append, List.splitOn_append_cons_self, ← separated,
      ih, pieces, pieces, List.flatMap_cons]

/-- A text is determined by its parts. -/
theorem append_separated_inj (h : sep ∉ head) (h' : sep ∉ head') :
    head ++ separated sep words = head' ++ separated sep words' ↔
      head = head' ∧ pieces sep words = pieces sep words' := by
  have hsplit : (head ++ separated sep words).splitOn sep = head :: pieces sep words := by
    rw [splitOn_append_separated, List.splitOn_eq_singleton h, List.singleton_append]
  have hsplit' : (head' ++ separated sep words').splitOn sep = head' :: pieces sep words' := by
    rw [splitOn_append_separated, List.splitOn_eq_singleton h', List.singleton_append]
  rw [← List.cons_eq_cons, ← hsplit, ← hsplit']
  constructor
  · intro heq
    rw [heq]
  · intro heq
    have hjoin (xs : List γ) : [sep].intercalate (xs.splitOn sep) = xs :=
      List.intercalate_splitOn sep
    rw [← hjoin (head ++ separated sep words), heq, hjoin]

theorem pieces_of_apart (h : ∀ w ∈ words, sep ∉ w) : pieces sep words = words := by
  induction words with
  | nil => rfl
  | cons w words ih =>
    obtain ⟨hw, hwords⟩ := List.forall_mem_cons.1 h
    rw [pieces, List.flatMap_cons, List.splitOn_eq_singleton hw, ← pieces, ih hwords,
      List.singleton_append]

theorem length_le_pieces (sep : γ) (words : List (List γ)) :
    words.length ≤ (pieces sep words).length := by
  induction words with
  | nil => exact Nat.le_refl _
  | cons w words ih =>
    have hpos := List.length_pos_of_ne_nil (List.splitOn_ne_nil sep w)
    rw [pieces, List.flatMap_cons, List.length_append, List.length_cons, ← pieces]
    omega

/-- Where there are not more parts than words, the parts are the words. -/
theorem pieces_of_length (h : (pieces sep words).length ≤ words.length) :
    pieces sep words = words := by
  induction words with
  | nil => rfl
  | cons w words ih =>
    have hpos := List.length_pos_of_ne_nil (List.splitOn_ne_nil sep w)
    have hle := length_le_pieces sep words
    rw [pieces, List.flatMap_cons, List.length_append, List.length_cons, ← pieces] at h
    obtain ⟨x, hx⟩ := List.length_eq_one_iff.1 (show (w.splitOn sep).length = 1 by omega)
    have hw : x = w := by
      have hjoin : [sep].intercalate (w.splitOn sep) = w := List.intercalate_splitOn sep
      rwa [hx, List.intercalate_singleton] at hjoin
    rw [pieces, List.flatMap_cons, ← pieces, ih (by omega), hx, hw, List.singleton_append]

theorem pieces_split (u v : List γ) (words : List (List γ)) :
    pieces sep ((u ++ sep :: v) :: words) = pieces sep (u :: v :: words) := by
  simp only [pieces, List.flatMap_cons, List.splitOn_append_cons_self, List.append_assoc]

/-- A word with a separator can be written as two. -/
theorem exists_more (h : ¬ ∀ w ∈ words, sep ∉ w) :
    ∃ more, pieces sep more = pieces sep words ∧ more.length = words.length + 1 := by
  push Not at h
  obtain ⟨w, hw, hsep⟩ := h
  obtain ⟨l, r, rfl⟩ := List.append_of_mem hw
  obtain ⟨u, v, rfl⟩ := List.append_of_mem hsep
  refine ⟨l ++ u :: v :: r, ?_, by simp [Nat.add_assoc]⟩
  rw [pieces_append, ← pieces_split, ← pieces_append]

theorem exists_fewer (h : 2 ≤ words.length) :
    ∃ fewer, pieces sep fewer = pieces sep words ∧ fewer.length + 1 = words.length := by
  cases words with
  | nil => exact absurd h (by simp)
  | cons u words =>
    cases words with
    | nil => exact absurd h (by simp)
    | cons v words => exact ⟨(u ++ sep :: v) :: words, pieces_split u v words, rfl⟩

end Separated

end Parabix.Library
