import Parabix.Unicode.LineBreak
import Parabix.Unicode.UTF8DecoderExact

namespace Parabix.Unicode

open Library Library.BitStream Library.UTF8
open UTF8_Decoder (HoldsBytes byte Marked compileByte_apply covered_compileByte)

namespace UTF8_index

section Branches

variable {source : Basis} {runs runs2 runs3 runs4 : Stream}
  (h : Branches source runs runs2 runs3 runs4)

include h

theorem covered_u8pfx : Covered (u8pfx source) runs :=
  h.pfx.covered_condition (fun _ _ ↦ rfl) fun _ hp ↦ hp

/-- The bytes of a class are where the body for the class around it runs. -/
theorem covered_two {lo hi : ℕ} (hlo : 0xC2 ≤ lo) (hhi : hi ≤ 0xDF) :
    Covered (compileByte source lo hi) runs2 :=
  h.two.covered_condition ((covered_compileByte (by omega) (by omega)).trans (covered_u8pfx h))
    (covered_compileByte hlo hhi)

theorem covered_three {lo hi : ℕ} (hlo : 0xE0 ≤ lo) (hhi : hi ≤ 0xEF) :
    Covered (compileByte source lo hi) runs3 :=
  h.three.covered_condition ((covered_compileByte (by omega) (by omega)).trans (covered_u8pfx h))
    (covered_compileByte hlo hhi)

theorem covered_four {lo hi : ℕ} (hlo : 0xF0 ≤ lo) (hhi : hi ≤ 0xF4) :
    Covered (compileByte source lo hi) runs4 :=
  h.four.covered_condition ((covered_compileByte (by omega) (by omega)).trans (covered_u8pfx h))
    (covered_compileByte hlo hhi)

theorem covered_scope32 : Covered (u8scope32 source runs3) runs3 :=
  h.three.covered_advanceIn (.head _)

theorem covered_scope33 : Covered (u8scope33 source runs3) runs3 :=
  h.three.covered_advanceIn (.tail _ (.head _))

theorem covered_scope42 : Covered (u8scope42 source runs4) runs4 :=
  h.four.covered_advanceIn (.head _)

theorem covered_scope43 : Covered (u8scope43 source runs4) runs4 :=
  h.four.covered_advanceIn (.tail _ (.head _))

theorem covered_scope4nonfinal : Covered (u8scope4nonfinal source runs4) runs4 :=
  (covered_scope42 h).or (covered_scope43 h)

theorem covered_scope44 : Covered (u8scope44 source runs4) runs4 :=
  h.four.covered_advanceIn (.tail _ (.tail _ (.head _)))

theorem nonFinal3_eq :
    nonFinal3 source runs3 = fun p ↦ u8pfx source p || u8scope32 source runs3 p :=
  (covered_scope32 h).assignIn_eq fun _ ↦ rfl

theorem nonFinal4_eq : nonFinal4 source runs3 runs4 = fun p ↦
    (u8pfx source p || u8scope32 source runs3 p) || u8scope4nonfinal source runs4 p := by
  rw [nonFinal4, (covered_scope4nonfinal h).assignIn_eq fun _ ↦ rfl,
    nonFinal3_eq h]

theorem anyscope2_eq : anyscope2 source runs2 = advanceIn runs2 1 (u8pfx2 source) :=
  (h.two.covered_advanceIn (.head _)).assignIn_eq fun _ ↦ (Bool.false_or _).symm

theorem anyscope4_eq : anyscope4 source runs2 runs3 runs4 = fun p ↦
    (advanceIn runs2 1 (u8pfx2 source) p || (u8scope32 source runs3 p || u8scope33 source runs3 p))
      || (u8scope4nonfinal source runs4 p || u8scope44 source runs4 p) := by
  have hfour := (covered_scope4nonfinal h).or (covered_scope44 h)
  rw [anyscope4, hfour.assignIn_eq fun _ ↦ rfl, anyscope3,
    ((covered_scope32 h).or (covered_scope33 h)).assignIn_eq fun _ ↦ rfl, anyscope2_eq h]

theorem EF_invalid4_eq : EF_invalid4 source runs3 runs4 = fun p ↦
    (E0_invalid source runs3 p || ED_invalid source runs3 p) ||
      (F0_invalid source runs4 p || F4_invalid source runs4 p) := by
  have hE0 : Covered (E0_invalid source runs3) runs3 :=
    (h.three.covered_advanceIn (.tail _ (.tail _ (.head _)))).and_left _
  have hED : Covered (ED_invalid source runs3) runs3 :=
    (h.three.covered_advanceIn (.tail _ (.tail _ (.tail _ (.head _))))).and_left _
  have hF0 : Covered (F0_invalid source runs4) runs4 :=
    (h.four.covered_advanceIn (.tail _ (.tail _ (.tail _ (.head _))))).and_left _
  have hF4 : Covered (F4_invalid source runs4) runs4 :=
    (h.four.covered_advanceIn (.tail _ (.tail _ (.tail _ (.tail _ (.head _)))))).and_left _
  rw [EF_invalid4, (hF0.or hF4).assignIn_eq fun _ ↦ rfl, EF_invalid3,
    (hE0.or hED).assignIn_eq fun _ ↦ (Bool.false_or _).symm]

/-- Where the branch does not run there is no prefix, and nothing advanced. -/
theorem nonFinal_eq : nonFinal source runs runs2 runs3 runs4 = fun p ↦
    nonFinal4 source runs3 runs4 p && !u8invalid source runs2 runs3 runs4 p := by
  have hcovered : Covered (nonFinal4 source runs3 runs4) runs := by
    rw [nonFinal4_eq h]
    exact ((covered_u8pfx h).or ((covered_scope32 h).trans h.three.covered)).or
      ((covered_scope4nonfinal h).trans h.four.covered)
  refine hcovered.assignIn_eq_new fun p hp ↦ ?_
  rw [hp, Bool.false_and]
  rw [nonFinal4_eq h] at hp
  simp only [Bool.or_eq_false_iff] at hp
  exact hp.1.1.symm

end Branches

section Units

variable {text : List ℕ} {source : Basis} {x : Stream} {e w n d cp lo hi : ℕ} {R : ℕ → Bool}

/-- The byte of a character is in a class. -/
def inClass (lo hi d cp : ℕ) : Bool := decide (lo ≤ byte cp d) && decide (byte cp d ≤ hi)

theorem marked_byte (hx : Marked text x e w R) (hbytes : HoldsBytes text source) (he : e < w) :
    Marked text (fun p ↦ x p && compileByte source lo hi p) e w
      fun cp ↦ R cp && inClass lo hi e cp :=
  hx.and fun _ _ hc hw ↦ compileByte_apply hbytes hc (by omega)

theorem marked_advanceIn {k : ℕ} {runs : Stream} (hcovered : Covered x runs)
    (hx : Marked text x e w R) (hk : e + k < w) : Marked text (advanceIn runs k x) (e + k) w R := by
  rw [hcovered.advanceIn_eq]
  exact hx.advance hk

theorem byte_one (hw : width cp = 1) : byte cp 0 = cp ∧ cp < 0x80 := by
  obtain ⟨hutf8, hlt⟩ := utf8_of_width_one hw
  exact ⟨by rw [byte, hutf8]; rfl, hlt⟩

theorem byte_two (hw : width cp = 2) : byte cp 0 = 0xC0 + cp / 64 ∧ byte cp 1 = 0x80 + cp % 64 ∧
    0x80 ≤ cp ∧ cp < 0x800 := by
  obtain ⟨hutf8, hle, hlt⟩ := utf8_of_width_two hw
  exact ⟨by rw [byte, hutf8]; rfl, by rw [byte, hutf8]; rfl, hle, hlt⟩

theorem byte_three (hw : width cp = 3) : byte cp 0 = 0xE0 + cp / 64 ^ 2 ∧
    byte cp 1 = 0x80 + cp / 64 % 64 ∧ byte cp 2 = 0x80 + cp % 64 ∧ 0x800 ≤ cp ∧ cp < 0x10000 := by
  obtain ⟨hutf8, hle, hlt⟩ := utf8_of_width_three hw
  exact ⟨by rw [byte, hutf8]; rfl, by rw [byte, hutf8]; rfl, by rw [byte, hutf8]; rfl, hle, hlt⟩

theorem byte_four (hw : width cp = 4) : byte cp 0 = 0xF0 + cp / 64 ^ 3 ∧
    byte cp 1 = 0x80 + cp / 64 ^ 2 % 64 ∧ 0x10000 ≤ cp := by
  obtain ⟨hutf8, hle⟩ := utf8_of_width_four hw
  exact ⟨by rw [byte, hutf8]; rfl, by rw [byte, hutf8]; rfl, hle⟩

/-- What the first byte tells, and the other bytes. -/
theorem byte_spec (hcp : IsScalar cp) (hd : d < width cp) :
    d = 0 ∧ width cp = 1 ∧ byte cp d < 0x80 ∨
    d = 0 ∧ width cp = 2 ∧ 0xC2 ≤ byte cp d ∧ byte cp d < 0xE0 ∨
    d = 0 ∧ width cp = 3 ∧ 0xE0 ≤ byte cp d ∧ byte cp d < 0xF0 ∨
    d = 0 ∧ width cp = 4 ∧ 0xF0 ≤ byte cp d ∧ byte cp d < 0xF5 ∨
    0 < d ∧ 0x80 ≤ byte cp d ∧ byte cp d < 0xC0 := by
  have hlt : cp < 0x110000 := hcp.1
  have hclass := byte_class (hlt.trans (by decide)) hd
  rcases hclass with h | ⟨rfl, hw, -⟩ | h | ⟨rfl, hw, -⟩ | h
  · exact .inl h
  · obtain ⟨hbyte, -, hle, hcp⟩ := byte_two hw
    exact .inr (.inl ⟨rfl, hw, by omega, by omega⟩)
  · exact .inr (.inr (.inl h))
  · obtain ⟨hbyte, -, hle⟩ := byte_four hw
    exact .inr (.inr (.inr (.inl ⟨rfl, hw, by omega, by omega⟩)))
  · exact .inr (.inr (.inr (.inr h)))

theorem marked_lead (hbytes : HoldsBytes text source) (htext : ∀ cp ∈ text, IsScalar cp)
    (hlead : ∀ cp d, IsScalar cp → d < width cp → lo ≤ byte cp d ∧ byte cp d ≤ hi →
      d = 0 ∧ width cp = w) :
    Marked text (compileByte source lo hi) 0 w (inClass lo hi 0) := by
  intro n cp d hc hd
  rw [length_utf8] at hd
  have hlead := hlead cp d (htext cp (List.mem_of_getElem? hc)) hd
  rw [compileByte_apply hbytes hc hd, Bool.eq_iff_iff]
  simp only [Bool.and_eq_true, decide_eq_true_eq, beq_iff_eq, inClass]
  constructor
  · rintro ⟨hlo, hhi⟩
    obtain ⟨rfl, hw⟩ := hlead ⟨hlo, hhi⟩
    exact ⟨⟨rfl, hw⟩, hlo, hhi⟩
  · rintro ⟨⟨rfl, -⟩, hclass⟩
    exact hclass

theorem marked_pfx (hbytes : HoldsBytes text source) (htext : ∀ cp ∈ text, IsScalar cp)
    (hclass : ∀ cp d, IsScalar cp → d < width cp →
      (lo ≤ byte cp d ∧ byte cp d ≤ hi ↔ d = 0 ∧ width cp = w)) :
    Marked text (compileByte source lo hi) 0 w fun _ ↦ true := by
  intro n cp d hc hd
  rw [length_utf8] at hd
  rw [compileByte_apply hbytes hc hd, Bool.eq_iff_iff]
  simpa using hclass cp d (htext cp (List.mem_of_getElem? hc)) hd

variable {runs runs2 runs3 runs4 : Stream} (h : Branches source runs runs2 runs3 runs4)
  (hbytes : HoldsBytes text source) (htext : ∀ cp ∈ text, IsScalar cp)

include hbytes htext

theorem marked_two (hlo : 0xC2 ≤ lo) (hhi : hi ≤ 0xDF) :
    Marked text (compileByte source lo hi) 0 2 (inClass lo hi 0) :=
  marked_lead hbytes htext fun cp d hcp hd hclass ↦ by
    have := byte_spec hcp hd
    omega

theorem marked_three (hlo : 0xE0 ≤ lo) (hhi : hi ≤ 0xEF) :
    Marked text (compileByte source lo hi) 0 3 (inClass lo hi 0) :=
  marked_lead hbytes htext fun cp d hcp hd hclass ↦ by
    have := byte_spec hcp hd
    omega

theorem marked_four (hlo : 0xF0 ≤ lo) :
    Marked text (compileByte source lo hi) 0 4 (inClass lo hi 0) :=
  marked_lead hbytes htext fun cp d hcp hd hclass ↦ by
    have := byte_spec hcp hd
    omega

theorem marked_u8pfx2 : Marked text (u8pfx2 source) 0 2 fun _ ↦ true :=
  marked_pfx hbytes htext fun cp d hcp hd ↦ by
    have := byte_spec hcp hd
    omega

theorem marked_u8pfx3 : Marked text (u8pfx3 source) 0 3 fun _ ↦ true :=
  marked_pfx hbytes htext fun cp d hcp hd ↦ by
    have := byte_spec hcp hd
    omega

theorem marked_u8pfx4 : Marked text (u8pfx4 source) 0 4 fun _ ↦ true :=
  marked_pfx hbytes htext fun cp d hcp hd ↦ by
    have := byte_spec hcp hd
    omega

theorem u8pfx_apply (hn : text[n]? = some cp) (hd : d < width cp) :
    u8pfx source (start utf8 text n + d) = (d == 0 && decide (1 < width cp)) := by
  have hbyte := byte_spec (htext cp (List.mem_of_getElem? hn)) hd
  rw [u8pfx, compileByte_apply hbytes hn hd, Bool.eq_iff_iff]
  simp only [Bool.and_eq_true, decide_eq_true_eq, beq_iff_eq]
  omega

theorem u8suffix_apply (hn : text[n]? = some cp) (hd : d < width cp) :
    u8suffix source (start utf8 text n + d) = decide (0 < d) := by
  have hbyte := byte_spec (htext cp (List.mem_of_getElem? hn)) hd
  rw [u8suffix, compileByte_apply hbytes hn hd, Bool.eq_iff_iff]
  simp only [Bool.and_eq_true, decide_eq_true_eq]
  omega

include h

theorem marked_scope22 : Marked text (advanceIn runs2 1 (u8pfx2 source)) 1 2 fun _ ↦ true :=
  marked_advanceIn (covered_two h le_rfl le_rfl) (marked_u8pfx2 hbytes htext) (by decide)

theorem marked_scope32 : Marked text (u8scope32 source runs3) 1 3 fun _ ↦ true :=
  marked_advanceIn (covered_three h le_rfl le_rfl) (marked_u8pfx3 hbytes htext) (by decide)

theorem marked_scope33 : Marked text (u8scope33 source runs3) 2 3 fun _ ↦ true :=
  marked_advanceIn (covered_three h le_rfl le_rfl) (marked_u8pfx3 hbytes htext) (by decide)

theorem marked_scope42 : Marked text (u8scope42 source runs4) 1 4 fun _ ↦ true :=
  marked_advanceIn (covered_four h le_rfl le_rfl) (marked_u8pfx4 hbytes htext) (by decide)

theorem marked_scope43 : Marked text (u8scope43 source runs4) 2 4 fun _ ↦ true :=
  marked_advanceIn (covered_scope42 h) (marked_scope42 h hbytes htext) (by decide)

theorem marked_scope44 : Marked text (u8scope44 source runs4) 3 4 fun _ ↦ true :=
  marked_advanceIn (covered_scope43 h) (marked_scope43 h hbytes htext) (by decide)

/-- A second byte is in a class after a first one in another. -/
theorem marked_second_three (lo hi lo' hi' : ℕ) (hlo : 0xE0 ≤ lo) (hhi : hi ≤ 0xEF) :
    Marked text (fun p ↦ advanceIn runs3 1 (compileByte source lo hi) p &&
      compileByte source lo' hi' p) 1 3 fun cp ↦ inClass lo hi 0 cp && inClass lo' hi' 1 cp :=
  marked_byte (marked_advanceIn (covered_three h hlo hhi) (marked_three hbytes htext hlo hhi)
    (by decide)) hbytes (by decide)

theorem marked_second_four (lo hi lo' hi' : ℕ) (hlo : 0xF0 ≤ lo) (hhi : hi ≤ 0xF4) :
    Marked text (fun p ↦ advanceIn runs4 1 (compileByte source lo hi) p &&
      compileByte source lo' hi' p) 1 4 fun cp ↦ inClass lo hi 0 cp && inClass lo' hi' 1 cp :=
  marked_byte (marked_advanceIn (covered_four h hlo hhi) (marked_four hbytes htext hlo)
    (by decide)) hbytes (by decide)

/-- Of every character the bytes but the last are not final. -/
theorem nonFinal4_apply (hn : text[n]? = some cp) (hd : d < width cp) :
    nonFinal4 source runs3 runs4 (start utf8 text n + d) = decide (d + 1 < width cp) := by
  have hunit : d < (utf8 cp).length := by rwa [length_utf8]
  have hle := width_le cp
  rw [nonFinal4_eq h]
  beta_reduce
  rw [u8scope4nonfinal, u8pfx_apply hbytes htext hn hd,
    marked_scope32 h hbytes htext n cp d hn hunit, marked_scope42 h hbytes htext n cp d hn hunit,
    marked_scope43 h hbytes htext n cp d hn hunit, Bool.eq_iff_iff]
  simp only [Bool.or_eq_true, Bool.and_eq_true, decide_eq_true_eq, beq_iff_eq, and_true]
  omega

omit h in
theorem pfx_invalid_apply (hn : text[n]? = some cp) (hd : d < width cp) :
    pfx_invalid source (start utf8 text n + d) = false := by
  have hunit : d < (utf8 cp).length := by rwa [length_utf8]
  have hle := width_le cp
  have heq : u8pfx source (start utf8 text n + d) = legalpfx source (start utf8 text n + d) := by
    rw [legalpfx, u8pfx_apply hbytes htext hn hd, marked_u8pfx2 hbytes htext n cp d hn hunit,
      marked_u8pfx3 hbytes htext n cp d hn hunit, marked_u8pfx4 hbytes htext n cp d hn hunit,
      Bool.eq_iff_iff]
    simp only [Bool.or_eq_true, Bool.and_eq_true, decide_eq_true_eq, beq_iff_eq, and_true]
    omega
  rw [pfx_invalid, heq, Bool.xor_self]

/-- The scopes are the suffix bytes. -/
theorem mismatch_apply (hn : text[n]? = some cp) (hd : d < width cp) :
    mismatch source runs2 runs3 runs4 (start utf8 text n + d) = false := by
  have hunit : d < (utf8 cp).length := by rwa [length_utf8]
  have hle := width_le cp
  have heq : anyscope4 source runs2 runs3 runs4 (start utf8 text n + d) =
      u8suffix source (start utf8 text n + d) := by
    rw [anyscope4_eq h]
    beta_reduce
    rw [u8scope4nonfinal, u8suffix_apply hbytes htext hn hd,
      marked_scope22 h hbytes htext n cp d hn hunit, marked_scope32 h hbytes htext n cp d hn hunit,
      marked_scope33 h hbytes htext n cp d hn hunit, marked_scope42 h hbytes htext n cp d hn hunit,
      marked_scope43 h hbytes htext n cp d hn hunit, marked_scope44 h hbytes htext n cp d hn hunit,
      Bool.eq_iff_iff]
    simp only [Bool.or_eq_true, Bool.and_eq_true, decide_eq_true_eq, beq_iff_eq, and_true]
    omega
  rw [mismatch, heq, Bool.xor_self]

/-- A character has no shorter encoding, is no surrogate and is not past the last one. -/
theorem EF_invalid4_apply (hn : text[n]? = some cp) (hd : d < width cp) :
    EF_invalid4 source runs3 runs4 (start utf8 text n + d) = false := by
  have hunit : d < (utf8 cp).length := by rwa [length_utf8]
  obtain ⟨hlt, hsurrogate⟩ := htext cp (List.mem_of_getElem? hn)
  have hE0 : E0_invalid source runs3 _ = _ := marked_second_three h hbytes htext 0xE0 0xE0
    0x80 0x9F (by decide) (by decide) n cp d hn hunit
  have hED : ED_invalid source runs3 _ = _ := marked_second_three h hbytes htext 0xED 0xED
    0xA0 0xBF (by decide) (by decide) n cp d hn hunit
  have hF0 : F0_invalid source runs4 _ = _ := marked_second_four h hbytes htext 0xF0 0xF0
    0x80 0x8F (by decide) (by decide) n cp d hn hunit
  have hF4 : F4_invalid source runs4 _ = _ := marked_second_four h hbytes htext 0xF4 0xF4
    0x90 0xBF (by decide) (by decide) n cp d hn hunit
  rw [EF_invalid4_eq h]
  beta_reduce
  rw [hE0, hED, hF0, hF4, Bool.eq_false_iff]
  simp only [inClass, ne_eq, Bool.or_eq_true, Bool.and_eq_true, decide_eq_true_eq, beq_iff_eq]
  rintro ((⟨⟨-, hw⟩, hbyte⟩ | ⟨⟨-, hw⟩, hbyte⟩) | (⟨⟨-, hw⟩, hbyte⟩ | ⟨⟨-, hw⟩, hbyte⟩))
  · have := byte_three hw
    omega
  · have := byte_three hw
    omega
  · have := byte_four hw
    omega
  · have := byte_four hw
    omega

theorem u8invalid_apply (hn : text[n]? = some cp) (hd : d < width cp) :
    u8invalid source runs2 runs3 runs4 (start utf8 text n + d) = false := by
  rw [u8invalid, pfx_invalid_apply hbytes htext hn hd, mismatch_apply h hbytes htext hn hd,
    EF_invalid4_apply h hbytes htext hn hd]
  rfl

theorem nonFinal_apply (hn : text[n]? = some cp) (hd : d < width cp) :
    nonFinal source runs runs2 runs3 runs4 (start utf8 text n + d) =
      decide (d + 1 < width cp) := by
  rw [nonFinal_eq h]
  beta_reduce
  rw [nonFinal4_apply h hbytes htext hn hd, u8invalid_apply h hbytes htext hn hd, Bool.not_false,
    Bool.and_true]

end Units

end UTF8_index

namespace UnicodeLines

variable {basis : Basis} {crb it it2 it3 it4 : Stream}

section Branches

variable (h : Branches basis crb it it2 it3 it4)

include h

theorem Branches.index : UTF8_index.Branches basis it it2 it3 it4 where
  pfx := h.pfx
  two := h.two.mono fun _ hc ↦ .tail _ hc
  three := h.three.mono fun _ hc ↦ .tail _ (.tail _ hc)
  four := h.four

theorem CR_before_LF_eq : CR_before_LF basis crb =
    fun p ↦ CR basis p && createLookahead (LF basis) 1 p :=
  ((h.removed.covered_condition (fun _ _ ↦ rfl) fun _ hp ↦ hp).and_left _).assignIn_eq
    fun _ ↦ (Bool.false_or _).symm

theorem removedCRLF_eq : removedCRLF basis crb =
    fun p ↦ LF_VT_FF_CR basis p ^^ (CR basis p && createLookahead (LF basis) 1 p) := by
  have hcovered := (h.removed.covered_condition (fun _ _ ↦ rfl) fun _ hp ↦ hp).and_left
    (createLookahead (LF basis) 1)
  rw [removedCRLF, CR_before_LF_eq h]
  refine hcovered.assignIn_eq_new fun p hp ↦ ?_
  beta_reduce
  rw [hp, Bool.xor_false]

theorem covered_E2 : Covered (compileByte basis 0xE2 0xE2) it3 :=
  UTF8_index.covered_three h.index (by decide) (by decide)

theorem covered_E2_80 : Covered (E2_80 basis it3) it3 :=
  (h.three.covered_advanceIn (.head _)).and_left _

theorem LineBreak_eq : LineBreak basis crb it it2 it3 = fun p ↦
    (removedCRLF basis crb p || NEL basis it2 p) || LS_PS basis it3 p := by
  have hNEL : Covered (NEL basis it2) it2 := (h.two.covered_advanceIn (.head _)).and_left _
  have hLS_PS : Covered (LS_PS basis it3) it3 :=
    (h.three.covered_advanceIn (.tail _ (.head _))).and_left _
  have hbody : LineBreak3 basis crb it2 it3 = fun p ↦
      (removedCRLF basis crb p || NEL basis it2 p) || LS_PS basis it3 p := by
    rw [LineBreak3, hLS_PS.assignIn_eq fun _ ↦ rfl, LineBreak2, hNEL.assignIn_eq fun _ ↦ rfl]
  have hcovered := (hNEL.trans h.two.covered).or (hLS_PS.trans h.three.covered)
  rw [LineBreak, hbody]
  exact hcovered.assignIn_eq fun p ↦ Bool.or_assoc _ _ _

end Branches

section Text

/-- A line feed, vertical tab, form feed, carriage return, next line, line separator or paragraph
separator. -/
def isTerminator (cp : ℕ) : Bool :=
  decide (0xA ≤ cp) && decide (cp ≤ 0xD) || cp == 0x85 || cp == 0x2028 || cp == 0x2029

/-- The `n`-th character is a carriage return before a line feed. -/
def crlf (text : List ℕ) (n : ℕ) : Bool := text[n]? == some 0xD && text[n + 1]? == some 0xA

def unterminated (text : List ℕ) : Bool := text.getLast?.any fun cp ↦ !isTerminator cp

variable {text : List ℕ} {n d cp : ℕ} (h : Branches basis crb it it2 it3 it4)
  (hbytes : HoldsBytes text basis) (htext : ∀ cp ∈ text, IsScalar cp)

include hbytes htext

/-- A byte below the prefixes is a character of one byte. -/
theorem ascii_apply {lo hi : ℕ} (hhi : hi < 0x80) (hn : text[n]? = some cp) (hd : d < width cp) :
    compileByte basis lo hi (start utf8 text n + d) = (decide (lo ≤ cp) && decide (cp ≤ hi)) := by
  have hspec := UTF8_index.byte_spec (htext cp (List.mem_of_getElem? hn)) hd
  rw [compileByte_apply hbytes hn hd, Bool.eq_iff_iff]
  simp only [Bool.and_eq_true, decide_eq_true_eq]
  by_cases hw : width cp = 1
  · have hbyte := UTF8_index.byte_one hw
    obtain rfl : d = 0 := by omega
    omega
  · have hlarge : 0x80 ≤ cp := by
      by_contra hsmall
      exact hw (if_pos (Nat.lt_of_not_le hsmall))
    omega

/-- A carriage return is looked ahead from in the text. -/
theorem CR_lookahead_apply (hend : ∀ n, text[n]? = some 0xD → n + 1 < text.length)
    (hn : text[n]? = some cp) (hd : d < width cp) :
    (CR basis (start utf8 text n + d) && createLookahead (LF basis) 1 (start utf8 text n + d)) =
      crlf text n := by
  rw [CR, ascii_apply hbytes htext (by decide) hn hd, crlf, hn]
  by_cases hCR : cp = 0xD
  · subst hCR
    obtain rfl : d = 0 := by
      have : width 0xD = 1 := rfl
      omega
    have hnext := List.getElem?_eq_getElem (hend n hn)
    have hstart : start utf8 text n + 0 + 1 = start utf8 text (n + 1) + 0 := by
      rw [start_succ hn]
      rfl
    rw [createLookahead, hstart, LF, ascii_apply hbytes htext (by decide) hnext (width_pos _), hnext,
      Bool.eq_iff_iff]
    simp
    omega
  · have hne : ¬(0xD ≤ cp ∧ cp ≤ 0xD) := by omega
    have hclass : (decide (0xD ≤ cp) && decide (cp ≤ 0xD)) = false := by
      rw [← Bool.decide_and, decide_eq_false hne]
    have hneq : (some cp == some 0xD) = false := by simpa using hCR
    rw [hclass, hneq, Bool.false_and, Bool.false_and]

include h

theorem removedCRLF_apply (hend : ∀ n, text[n]? = some 0xD → n + 1 < text.length)
    (hn : text[n]? = some cp) (hd : d < width cp) :
    removedCRLF basis crb (start utf8 text n + d) =
      (decide (0xA ≤ cp) && decide (cp ≤ 0xD) && !crlf text n) := by
  rw [removedCRLF_eq h]
  beta_reduce
  rw [CR_lookahead_apply hbytes htext hend hn hd, LF_VT_FF_CR,
    ascii_apply hbytes htext (by decide) hn hd]
  cases hcrlf : crlf text n
  · rw [Bool.xor_false, Bool.not_false, Bool.and_true]
  · rw [crlf, hn, Bool.and_eq_true, beq_iff_eq, Option.some_inj] at hcrlf
    rw [hcrlf.1]
    rfl

theorem NEL_apply (hn : text[n]? = some cp) (hd : d < width cp) :
    NEL basis it2 (start utf8 text n + d) = (d + 1 == width cp && cp == 0x85) := by
  have hcovered : Covered (compileByte basis 0xC2 0xC2) it2 :=
    UTF8_index.covered_two h.index (by decide) (by decide)
  have hmarked : Marked text (NEL basis it2) 1 2 fun cp ↦
      UTF8_index.inClass 0xC2 0xC2 0 cp && UTF8_index.inClass 0x85 0x85 1 cp :=
    UTF8_index.marked_byte (UTF8_index.marked_advanceIn hcovered
      (UTF8_index.marked_two hbytes htext (by decide) (by decide)) (by decide)) hbytes (by decide)
  rw [hmarked n cp d hn (by rwa [length_utf8]), Bool.eq_iff_iff]
  simp only [UTF8_index.inClass, Bool.and_eq_true, decide_eq_true_eq, beq_iff_eq]
  constructor
  · rintro ⟨⟨rfl, hw⟩, hclass⟩
    have := UTF8_index.byte_two hw
    omega
  · rintro ⟨hlast, rfl⟩
    have hw : width 0x85 = 2 := rfl
    have := UTF8_index.byte_two hw
    omega

theorem LS_PS_apply (hn : text[n]? = some cp) (hd : d < width cp) :
    LS_PS basis it3 (start utf8 text n + d) =
      (d + 1 == width cp && (cp == 0x2028 || cp == 0x2029)) := by
  have hfirst := UTF8_index.marked_advanceIn (k := 1) (covered_E2 h)
    (UTF8_index.marked_three hbytes htext (by decide) (by decide)) (by decide)
  have hsecond := UTF8_index.marked_advanceIn (k := 1) (covered_E2_80 h)
    (UTF8_index.marked_byte hfirst hbytes (by decide)) (by decide)
  have hmarked : Marked text (LS_PS basis it3) 2 3 fun cp ↦
      (UTF8_index.inClass 0xE2 0xE2 0 cp && UTF8_index.inClass 0x80 0x80 1 cp) &&
        UTF8_index.inClass 0xA8 0xA9 2 cp :=
    UTF8_index.marked_byte hsecond hbytes (by decide)
  rw [hmarked n cp d hn (by rwa [length_utf8]), Bool.eq_iff_iff]
  simp only [UTF8_index.inClass, Bool.and_eq_true, Bool.or_eq_true, decide_eq_true_eq, beq_iff_eq]
  constructor
  · rintro ⟨⟨rfl, hw⟩, hclass⟩
    have := UTF8_index.byte_three hw
    omega
  · rintro ⟨hlast, rfl | rfl⟩
    · have hw : width 0x2028 = 3 := rfl
      have := UTF8_index.byte_three hw
      omega
    · have hw : width 0x2029 = 3 := rfl
      have := UTF8_index.byte_three hw
      omega

/-- The last bytes of the line terminators are marked. -/
theorem LineBreak_apply (hend : ∀ n, text[n]? = some 0xD → n + 1 < text.length)
    (hn : text[n]? = some cp) (hd : d < width cp) :
    LineBreak basis crb it it2 it3 (start utf8 text n + d) =
      (d + 1 == width cp && (isTerminator cp && !crlf text n)) := by
  rw [LineBreak_eq h]
  beta_reduce
  rw [removedCRLF_apply h hbytes htext hend hn hd, NEL_apply h hbytes htext hn hd,
    LS_PS_apply h hbytes htext hn hd, isTerminator]
  by_cases hascii : 0xA ≤ cp ∧ cp ≤ 0xD
  · have hw : width cp = 1 := if_pos (by omega)
    obtain rfl : d = 0 := by omega
    have hNEL : (cp == 0x85) = false := beq_eq_false_iff_ne.2 (by omega)
    have hLS : (cp == 0x2028) = false := beq_eq_false_iff_ne.2 (by omega)
    have hPS : (cp == 0x2029) = false := beq_eq_false_iff_ne.2 (by omega)
    rw [hw, decide_eq_true hascii.1, decide_eq_true hascii.2, hNEL, hLS, hPS]
    cases crlf text n <;> rfl
  · have hnot : crlf text n = false := by
      rw [crlf, hn, Bool.eq_false_iff]
      simp
      omega
    rw [← Bool.decide_and, decide_eq_false hascii, hnot]
    cases d + 1 == width cp <;> simp [Bool.or_assoc]

end Text

section Output

variable {text : List ℕ} {n d cp : ℕ} (htext : ∀ cp ∈ text, IsScalar cp)

include htext

/-- Past the end of the bytes there are null characters. -/
theorem holdsBytes_end : HoldsBytes (text ++ [0]) (basisOf (text.flatMap utf8)) := by
  have hbyte (b : ℕ) (hb : b ∈ text.flatMap utf8) : b < 2 ^ 8 := by
    obtain ⟨cp, hcp, hb⟩ := List.mem_flatMap.1 hb
    exact utf8_byte_lt ((htext cp hcp).1.trans (by decide)) hb
  intro n cp d hn hd
  have hunit := getElem?_flatMap hn (show d < (utf8 cp).length by rwa [length_utf8])
  have hflat : (text ++ [0]).flatMap utf8 = text.flatMap utf8 ++ [0] := by
    rw [List.flatMap_append]
    rfl
  rw [codeUnit_basisOf hbyte, byte, List.getD_eq_getElem?_getD, List.getD_eq_getElem?_getD, ← hunit,
    hflat]
  by_cases hp : start utf8 (text ++ [0]) n + d < (text.flatMap utf8).length
  · rw [List.getElem?_append_left hp]
  · have hle := start_add_lt hn (show d < (utf8 cp).length by rwa [length_utf8])
    rw [hflat, List.length_append, List.length_singleton] at hle
    rw [List.getElem?_eq_none (by omega), List.getElem?_append_right (by omega),
      show start utf8 (text ++ [0]) n + d - (text.flatMap utf8).length = 0 by omega]
    rfl

theorem isScalar_end (cp : ℕ) (hcp : cp ∈ text ++ [0]) : IsScalar cp := by
  rcases List.mem_append.1 hcp with hcp | hcp
  · exact htext cp hcp
  · rw [List.mem_singleton.1 hcp]
    decide

omit htext

theorem getElem?_end (hn : text[n]? = some cp) : (text ++ [0])[n]? = some cp := by
  rw [List.getElem?_append_left (List.getElem?_eq_some_iff.1 hn).1, hn]

theorem getElem?_end_length : (text ++ [0])[text.length]? = some 0 := by
  rw [List.getElem?_append_right le_rfl, Nat.sub_self]
  rfl

theorem crlf_end (hn : text[n]? = some cp) : crlf (text ++ [0]) n = crlf text n := by
  obtain ⟨hlt, -⟩ := List.getElem?_eq_some_iff.1 hn
  rw [crlf, crlf, getElem?_end hn, hn]
  by_cases hnext : n + 1 < text.length
  · rw [List.getElem?_append_left hnext]
  · have hlast : n + 1 = text.length := by omega
    rw [hlast, getElem?_end_length, List.getElem?_eq_none le_rfl]
    rfl

/-- The last character is no carriage return. -/
theorem carriage_return_end (n : ℕ) (hn : (text ++ [0])[n]? = some 0xD) :
    n + 1 < (text ++ [0]).length := by
  obtain ⟨hlt, hget⟩ := List.getElem?_eq_some_iff.1 hn
  by_contra hlast
  obtain rfl : n = text.length := by
    rw [List.length_append, List.length_singleton] at hlt hlast
    omega
  rw [getElem?_end_length] at hn
  exact absurd hn (by decide)

include htext

variable {crb it it2 it3 it4 : Stream}
  (h : Branches (basisOf (text.flatMap utf8)) crb it it2 it3 it4)

include h

theorem u8index_apply (hn : text[n]? = some cp) (hd : d < width cp) :
    u8index (basisOf (text.flatMap utf8)) crb it it2 it3 it4 (start utf8 text n + d) =
      (d + 1 == width cp && !crlf text n) := by
  have hlt := (List.getElem?_eq_some_iff.1 hn).1
  have hbytes := holdsBytes_end htext
  have hscalar := isScalar_end htext
  have hn' := getElem?_end hn
  have hremoved := CR_lookahead_apply hbytes hscalar carriage_return_end hn' hd
  have hnonFinal := UTF8_index.nonFinal_apply h.index hbytes hscalar hn' hd
  rw [start_append [0] hlt.le] at hremoved hnonFinal
  rw [u8index, nonFinal, hnonFinal, CR_before_LF_eq h]
  beta_reduce
  rw [hremoved, crlf_end hn, Bool.not_or]
  congr 1
  rw [← decide_not, Bool.eq_iff_iff, decide_eq_true_iff, beq_iff_eq]
  omega

theorem LineBreak_text_apply (hn : text[n]? = some cp) (hd : d < width cp) :
    LineBreak (basisOf (text.flatMap utf8)) crb it it2 it3 (start utf8 text n + d) =
      (d + 1 == width cp && (isTerminator cp && !crlf text n)) := by
  have hlt := (List.getElem?_eq_some_iff.1 hn).1
  have hbreak := LineBreak_apply h (holdsBytes_end htext) (isScalar_end htext) carriage_return_end
    (getElem?_end hn) hd
  rwa [start_append [0] hlt.le, crlf_end hn] at hbreak

/-- The position past the end. -/
theorem end_apply :
    u8index (basisOf (text.flatMap utf8)) crb it it2 it3 it4 (text.flatMap utf8).length = true ∧
      UTF8_index.nonFinal (basisOf (text.flatMap utf8)) it it2 it3 it4
        (text.flatMap utf8).length = false ∧
      LineBreak (basisOf (text.flatMap utf8)) crb it it2 it3 (text.flatMap utf8).length = false := by
  have hbytes := holdsBytes_end htext
  have hscalar := isScalar_end htext
  have hend := @getElem?_end_length text
  have hremoved := CR_lookahead_apply hbytes hscalar carriage_return_end hend (d := 0) (by decide)
  have hnonFinal := UTF8_index.nonFinal_apply h.index hbytes hscalar hend (d := 0) (by decide)
  have hbreak := LineBreak_apply h hbytes hscalar carriage_return_end hend (d := 0) (by decide)
  have hcrlf : crlf (text ++ [0]) text.length = false := by
    rw [crlf, hend]
    rfl
  rw [start_append [0] le_rfl, start_length, Nat.add_zero] at hremoved hnonFinal hbreak
  refine ⟨?_, hnonFinal, hbreak⟩
  rw [u8index, nonFinal, hnonFinal, CR_before_LF_eq h]
  beta_reduce
  rw [hremoved, hcrlf]
  rfl

theorem unterminated_apply :
    unterminatedLineAtEOF (basisOf (text.flatMap utf8)) (text.flatMap utf8).length crb it it2 it3
      (text.flatMap utf8).length = unterminated text := by
  rw [unterminatedLineAtEOF, createAtEOF, decide_eq_true rfl, Bool.true_and]
  rcases List.eq_nil_or_concat text with rfl | ⟨init, cp, hconcat⟩
  · rfl
  · have hlength : text.length = init.length + 1 := by rw [hconcat]; simp
    have hn : text[init.length]? = some cp := by rw [hconcat]; simp
    have hpos := width_pos cp
    have hlast := LineBreak_text_apply htext h hn (d := width cp - 1) (by omega)
    have hbytes : (text.flatMap utf8).length = start utf8 text init.length + width cp := by
      rw [← start_length, hlength, start_succ hn, length_utf8]
    have hcrlf : crlf text init.length = false := by
      have hnone : ((none : Option ℕ) == some 0xA) = false := rfl
      rw [crlf, List.getElem?_eq_none (Nat.le_of_eq hlength), hnone, Bool.and_false]
    rw [Nat.sub_add_cancel hpos, beq_self_eq_true, Bool.true_and, hcrlf, Bool.not_false,
      Bool.and_true] at hlast
    rw [advance, if_neg (by omega), hbytes, Nat.add_sub_assoc hpos, hlast, unterminated, hconcat]
    simp

end Output

section Exact

variable {text : List ℕ}

theorem branches_always (basis : Basis) : Branches basis (fun _ ↦ true) (fun _ ↦ true)
    (fun _ ↦ true) (fun _ ↦ true) fun _ ↦ true where
  removed := runs_always _ _
  pfx := runs_always _ _
  two := runs_always _ _
  three := runs_always _ _
  four := runs_always _ _

end Exact

end UnicodeLines

end Parabix.Unicode
