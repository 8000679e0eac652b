import Mathlib.Data.List.Basic
import Parabix.Library.CodedText

namespace Parabix.Streamutils

open Library

section Names

/-- Numbers are written in decimal, ints with their sign. -/
def to_string (n : ℕ) : List Char := Nat.toDigits 10 n

def intString : ℤ → List Char
  | .ofNat n => to_string n
  | .negSucc n => '-' :: to_string (n + 1)

variable (numElements : ℕ)

def ZeroInsertName (insertAmts : List ℕ) : List Char :=
  let name := "ZeroInsertBixNum".toList ++ separated '_' (insertAmts.map to_string)
  if numElements < insertAmts.length then name ++ "_multiplexed".toList else name

/-- What is written to the stream comes in front of the strings, or behind them when the stream
holds it back until it is flushed. -/
def StringReplaceName (unbuffered : Bool) (insertStrs : List (List Char)) (markOffset : ℤ) :
    List Char :=
  let multiplexed := if numElements < insertStrs.length then to_string numElements ++ [':'] else []
  let nm := "StringReplaceBixNum".toList ++ (multiplexed ++ intString markOffset)
  let name := separated '_' insertStrs
  if unbuffered then nm ++ name else name ++ nm

end Names

/-- A kernel that inserts zeros, with the number of streams of its `insertMarks`. -/
structure ZeroInsertBixNum where
  insertMarks : ℕ
  mInsertAmounts : List ℕ

structure StringReplaceKernel where
  insertMarks : ℕ
  mInsertStrings : List (List Char)
  mMarkOffset : ℤ

def ZeroInsertBixNum.getSignature (kernel : ZeroInsertBixNum) : List Char :=
  ZeroInsertName kernel.insertMarks kernel.mInsertAmounts

def StringReplaceKernel.getSignature (unbuffered : Bool) (kernel : StringReplaceKernel) :
    List Char :=
  StringReplaceName kernel.insertMarks unbuffered kernel.mInsertStrings kernel.mMarkOffset

section Digits

variable {c : Char} {n k : ℕ} {z y : ℤ}

theorem isDigit_of_mem (h : c ∈ to_string n) : c.isDigit = true :=
  Nat.isDigit_of_mem_toDigits (by decide) (by decide) h

theorem to_string_inj : to_string n = to_string k ↔ n = k := by
  refine ⟨fun h ↦ ?_, fun h ↦ h ▸ rfl⟩
  rw [← @Nat.ofDigitChars_ten_toDigits n, ← @Nat.ofDigitChars_ten_toDigits k]
  exact congrArg (Nat.ofDigitChars 10 · 0) h

theorem mem_intString (h : c ∈ intString z) : c = '-' ∨ c.isDigit = true := by
  cases z with
  | ofNat n => exact .inr (isDigit_of_mem h)
  | negSucc n =>
    obtain rfl | h := List.mem_cons.1 h
    · exact .inl rfl
    · exact .inr (isDigit_of_mem h)

theorem intString_inj : intString z = intString y ↔ z = y := by
  refine ⟨fun h ↦ ?_, fun h ↦ h ▸ rfl⟩
  have hsign (n k : ℕ) : to_string n ≠ '-' :: to_string k := by
    intro heq
    have hminus : '-' ∈ to_string n := heq ▸ List.mem_cons_self
    exact absurd (isDigit_of_mem hminus) (by decide)
  cases z with
  | ofNat n =>
    cases y with
    | ofNat k => rw [to_string_inj.1 h]
    | negSucc k => exact absurd h (hsign n (k + 1))
  | negSucc n =>
    cases y with
    | ofNat k => exact absurd h.symm (hsign k (n + 1))
    | negSucc k =>
      have hdigits := to_string_inj.1 (List.cons_eq_cons.1 h).2
      rw [Nat.succ.inj hdigits]

end Digits

section Header

variable {n : ℕ} {p q : Prop} [Decidable p] [Decidable q] {z y : ℤ} {c : Char}

/-- The characters of the numbers in front of the strings. -/
theorem mem_header (h : c ∈ (if p then to_string n ++ [':'] else []) ++ intString z) :
    c = ':' ∨ c = '-' ∨ c.isDigit = true := by
  rw [List.mem_append] at h
  rcases h with h | h
  · split_ifs at h with hp
    · rw [List.mem_append, List.mem_singleton] at h
      rcases h with h | h
      · exact .inr (.inr (isDigit_of_mem h))
      · exact .inl h
    · cases h
  · exact .inr (mem_intString h)

theorem header_inj : (if p then to_string n ++ [':'] else []) ++ intString z =
    (if q then to_string n ++ [':'] else []) ++ intString y ↔ (p ↔ q) ∧ z = y := by
  have hcolon {x : ℤ} : ':' ∉ intString x := fun h ↦ by
    obtain h | h := mem_intString h
    · exact absurd h (by decide)
    · exact absurd h (by decide)
  have hapart (x w : ℤ) : to_string n ++ [':'] ++ intString x ≠ intString w := by
    intro h
    have hin : ':' ∈ to_string n ++ [':'] ++ intString x := by simp
    exact hcolon (h ▸ hin)
  by_cases hp : p <;> by_cases hq : q
  · simp only [hp, hq, if_true, List.append_cancel_left_eq, intString_inj, true_and]
  · rw [if_pos hp, if_neg hq, List.nil_append]
    exact iff_of_false (hapart z y) fun h ↦ hq (h.1.1 hp)
  · rw [if_neg hp, if_pos hq, List.nil_append]
    exact iff_of_false (hapart y z).symm fun h ↦ hp (h.1.2 hq)
  · simp only [hp, hq, if_false, List.nil_append, intString_inj, true_and]

end Header

section ZeroInsert

variable {n : ℕ} {amts amts' : List ℕ}

/-- The suffix counts as one more word: no number is written like it. -/
theorem ZeroInsertName_eq (n : ℕ) (amts : List ℕ) : ZeroInsertName n amts =
    "ZeroInsertBixNum".toList ++ separated '_'
      (amts.map to_string ++ if n < amts.length then ["multiplexed".toList] else []) := by
  rw [ZeroInsertName]
  split_ifs with h
  · rw [separated, separated, List.flatMap_append, List.append_assoc]
    rfl
  · rw [List.append_nil]

theorem apart_amounts (n : ℕ) (amts : List ℕ) : ∀ w ∈
    amts.map to_string ++ (if n < amts.length then ["multiplexed".toList] else []), '_' ∉ w := by
  intro w hw
  rw [List.mem_append, List.mem_map] at hw
  rcases hw with ⟨a, -, rfl⟩ | hw
  · exact Nat.underscore_not_in_toDigits
  · split_ifs at hw
    · rw [List.mem_singleton.1 hw]
      decide
    · cases hw

theorem ZeroInsertName_inj : ZeroInsertName n amts = ZeroInsertName n amts' ↔ amts = amts' := by
  refine ⟨fun h ↦ ?_, fun h ↦ h ▸ rfl⟩
  rw [ZeroInsertName_eq, ZeroInsertName_eq, List.append_cancel_left_eq] at h
  have hwords := ((@append_separated_inj _ _ '_' [] [] _ _ (by simp) (by simp)).1 h).2
  rw [pieces_of_apart (apart_amounts n amts), pieces_of_apart (apart_amounts n amts')] at hwords
  have hno (l : List ℕ) : "multiplexed".toList ∉ l.map to_string := by
    intro hmem
    obtain ⟨a, -, ha⟩ := List.mem_map.1 hmem
    have hm : 'm' ∈ to_string a := ha ▸ (by decide)
    exact absurd (isDigit_of_mem hm) (by decide)
  have hinj : Function.Injective to_string := fun _ _ ↦ to_string_inj.1
  split_ifs at hwords with hm hm' hm'
  · exact List.map_injective_iff.2 hinj (List.append_cancel_right hwords)
  · rw [List.append_nil] at hwords
    exact absurd (hwords ▸ List.mem_append_right _ List.mem_cons_self) (hno amts')
  · rw [List.append_nil] at hwords
    exact absurd (hwords ▸ List.mem_append_right _ List.mem_cons_self) (hno amts)
  · rw [List.append_nil, List.append_nil] at hwords
    exact List.map_injective_iff.2 hinj hwords

end ZeroInsert

section StringReplace

variable {n : ℕ} {unbuffered : Bool} {strs strs' : List (List Char)} {offset offset' : ℤ}

/-- A name tells the number of strings from that of the marks, and the offset; of the strings only
what is between underscores. -/
theorem StringReplaceName_eq_iff :
    StringReplaceName n unbuffered strs offset = StringReplaceName n unbuffered strs' offset' ↔
      (n < strs.length ↔ n < strs'.length) ∧ offset = offset' ∧
        pieces '_' strs = pieces '_' strs' := by
  have hmem (l : List (List Char)) (z : ℤ) {c : Char} (hc : c ≠ ':' ∧ c ≠ '-' ∧ c.isDigit = false) :
      c ∉ (if n < l.length then to_string n ++ [':'] else []) ++ intString z := by
    intro h
    rcases mem_header h with h | h | h
    · exact hc.1 h
    · exact hc.2.1 h
    · rw [hc.2.2] at h
      cases h
  rw [← and_assoc, ← @header_inj n (n < strs.length) (n < strs'.length) _ _ offset offset']
  cases unbuffered with
  | true =>
    simp only [StringReplaceName, if_true, List.append_assoc, List.append_cancel_left_eq]
    rw [← List.append_assoc, ← List.append_assoc,
      append_separated_inj (hmem strs offset (by decide)) (hmem strs' offset' (by decide))]
  | false =>
    -- the numbers are what comes behind the last letter
    have hsplit (l : List (List Char)) (z : ℤ) :
        (StringReplaceName n false l z).reverse.splitOn 'm' =
          ((if n < l.length then to_string n ++ [':'] else []) ++ intString z).reverse ::
            (separated '_' l ++ "StringReplaceBixNu".toList).reverse.splitOn 'm' := by
      rw [← List.splitOn_append_cons_self_of_not_mem
        (fun h ↦ hmem l z (by decide) (List.mem_reverse.1 h))]
      simp [StringReplaceName]
    constructor
    · intro h
      have hparts := congrArg (fun l : List Char ↦ l.reverse.splitOn 'm') h
      simp only [hsplit, List.cons_eq_cons, List.reverse_inj] at hparts
      have hhead := hparts.1
      simp only [StringReplaceName, Bool.false_eq_true, if_false, hhead,
        List.append_cancel_right_eq] at h
      exact ⟨hhead, ((@append_separated_inj _ _ '_' [] [] _ _ (by simp) (by simp)).1 h).2⟩
    · rintro ⟨hhead, hpieces⟩
      have hwords := (@append_separated_inj _ _ '_' [] [] _ _ (by simp) (by simp)).2 ⟨rfl, hpieces⟩
      simp only [List.nil_append] at hwords
      simp only [StringReplaceName, hhead, hwords]

/-- The strings that no others of the same multiplexing are joined to the same text: none, one that
can only be one, and strings without underscores of which one would have to be two. -/
def Unmistakable (n : ℕ) (strs : List (List Char)) : Prop :=
  strs = [] ∨ (strs.length = 1 ∧ n = 1) ∨
    ((∀ s ∈ strs, '_' ∉ s) ∧ (strs.length = 1 ∨ strs.length = n + 1))

theorem Unmistakable.eq (h : Unmistakable n strs) (hmultiplexed : n < strs'.length ↔ n < strs.length)
    (hpieces : pieces '_' strs' = pieces '_' strs) : strs' = strs := by
  have hlength : strs'.length ≤ (pieces '_' strs').length := length_le_pieces '_' strs'
  have hlength' : strs.length ≤ (pieces '_' strs').length := hpieces ▸ length_le_pieces '_' strs
  rcases h with rfl | ⟨hone, rfl⟩ | ⟨hapart, hcount⟩
  · rw [hpieces] at hlength
    exact List.eq_nil_of_length_eq_zero (Nat.le_zero.1 hlength)
  · -- both are one string, and its parts are those of the text
    obtain ⟨s, rfl⟩ := List.length_eq_one_iff.1 hone
    have hsome : strs' ≠ [] := by
      rintro rfl
      exact absurd hlength' (by simp [pieces])
    have hone' : strs'.length = 1 := by
      have hpos := List.length_pos_of_ne_nil hsome
      simp only [List.length_singleton, Nat.lt_irrefl, iff_false, Nat.not_lt] at hmultiplexed
      omega
    obtain ⟨s', rfl⟩ := List.length_eq_one_iff.1 hone'
    simp only [pieces, List.flatMap_singleton] at hpieces
    have hjoin (xs : List Char) : ['_'].intercalate (xs.splitOn '_') = xs :=
      List.intercalate_splitOn '_'
    rw [← hjoin s', hpieces, hjoin]
  · rw [pieces_of_apart hapart] at hpieces
    have hsome : strs' ≠ [] := by
      rintro rfl
      obtain rfl : [] = strs := hpieces
      simp at hcount
    have hpos := List.length_pos_of_ne_nil hsome
    have hle : (pieces '_' strs').length ≤ strs'.length := by
      rw [hpieces]
      rcases hcount with hcount | hcount
      · omega
      · have hmore := hmultiplexed.2 (by omega)
        omega
    rwa [pieces_of_length hle] at hpieces

theorem unmistakable_iff : Unmistakable n strs ↔
    ∀ strs' : List (List Char), (n < strs'.length ↔ n < strs.length) →
      pieces '_' strs' = pieces '_' strs → strs' = strs := by
  refine ⟨fun h strs' hmultiplexed hpieces ↦ h.eq hmultiplexed hpieces, fun hall ↦ ?_⟩
  have hmore : ¬ (∀ s ∈ strs, '_' ∉ s) → n ≠ strs.length → False := by
    intro hsep hne
    obtain ⟨more, hpieces, hlength⟩ := exists_more hsep
    rw [hall more (by omega) hpieces] at hlength
    omega
  have hfewer : 2 ≤ strs.length → strs.length ≠ n + 1 → False := by
    intro htwo hne
    obtain ⟨fewer, hpieces, hlength⟩ := @exists_fewer _ _ '_' _ htwo
    rw [hall fewer (by omega) hpieces] at hlength
    omega
  rcases Nat.lt_trichotomy strs.length 1 with hnone | hone | htwo
  · exact .inl (List.eq_nil_of_length_eq_zero (by omega))
  · by_cases hn : n = 1
    · exact .inr (.inl ⟨hone, hn⟩)
    · refine .inr (.inr ⟨?_, .inl hone⟩)
      by_contra hsep
      exact hmore hsep (by omega)
  · by_cases hn : strs.length = n + 1
    · refine .inr (.inr ⟨?_, .inr hn⟩)
      by_contra hsep
      exact hmore hsep (by omega)
    · exact (hfewer htwo hn).elim

/-- Equal names are of equal zero amounts always, and of equal strings and offsets where no string
has an underscore. A kernel is told by its name from all others exactly when its strings are
unmistakable. -/
theorem getSignature_exact (unbuffered : Bool) :
    (∀ kernel kernel' : ZeroInsertBixNum, kernel'.insertMarks = kernel.insertMarks →
      kernel'.getSignature = kernel.getSignature →
        kernel'.mInsertAmounts = kernel.mInsertAmounts) ∧
    (∀ kernel kernel' : StringReplaceKernel, kernel'.insertMarks = kernel.insertMarks →
      (∀ s ∈ kernel.mInsertStrings, '_' ∉ s) → (∀ s ∈ kernel'.mInsertStrings, '_' ∉ s) →
        kernel'.getSignature unbuffered = kernel.getSignature unbuffered →
          kernel'.mInsertStrings = kernel.mInsertStrings ∧
            kernel'.mMarkOffset = kernel.mMarkOffset) ∧
    ∀ kernel : StringReplaceKernel,
      (∀ kernel' : StringReplaceKernel, kernel'.insertMarks = kernel.insertMarks →
        kernel'.getSignature unbuffered = kernel.getSignature unbuffered →
          kernel'.mInsertStrings = kernel.mInsertStrings ∧
            kernel'.mMarkOffset = kernel.mMarkOffset) ↔
      Unmistakable kernel.insertMarks kernel.mInsertStrings := by
  refine ⟨fun kernel kernel' hshape hname ↦ ?_, fun kernel kernel' hshape hapart hapart' hname ↦ ?_,
    fun kernel ↦ ?_⟩
  · rw [ZeroInsertBixNum.getSignature, ZeroInsertBixNum.getSignature, hshape] at hname
    exact ZeroInsertName_inj.1 hname
  · rw [StringReplaceKernel.getSignature, StringReplaceKernel.getSignature, hshape,
      StringReplaceName_eq_iff, pieces_of_apart hapart, pieces_of_apart hapart'] at hname
    exact ⟨hname.2.2, hname.2.1⟩
  · rw [unmistakable_iff]
    constructor
    · intro hall strs' hmultiplexed hpieces
      exact (hall ⟨kernel.insertMarks, strs', kernel.mMarkOffset⟩ rfl
        (StringReplaceName_eq_iff.2 ⟨hmultiplexed, rfl, hpieces⟩)).1
    · intro hall kernel' hshape hname
      rw [StringReplaceKernel.getSignature, StringReplaceKernel.getSignature, hshape,
        StringReplaceName_eq_iff] at hname
      exact ⟨hall _ hname.1 hname.2.2, hname.2.1⟩

/-- The strings `a_b` and `c`, and the strings `a` and `b_c`. -/
theorem getSignature_joined :
    ¬ ∃ unbuffered : Bool, ∀ kernel kernel' : StringReplaceKernel,
      kernel'.insertMarks = kernel.insertMarks →
        kernel'.getSignature unbuffered = kernel.getSignature unbuffered →
          kernel'.mInsertStrings = kernel.mInsertStrings ∧
            kernel'.mMarkOffset = kernel.mMarkOffset := by
  rintro ⟨unbuffered, h⟩
  have hstrings := (h ⟨2, [['a'], ['b', '_', 'c']], 0⟩ ⟨2, [['a', '_', 'b'], ['c']], 0⟩ rfl
    (StringReplaceName_eq_iff.2 ⟨by decide, rfl, by decide⟩)).1
  exact absurd hstrings (by decide)

end StringReplace

end Parabix.Streamutils
