import Mathlib.Tactic.IntervalCases
import Parabix.Library.UTF16
import Parabix.Pablo.BixNumExact
import Parabix.Unicode.Basis
import Parabix.Unicode.DepositMask
import Parabix.Unicode.UTF8Gen

namespace Parabix.Unicode

open Library Library.BitStream Library.UTF16 IDISA Pablo

namespace UTF16_SupplementaryBasis

variable (basis : Basis)

def high5 : BixNum Stream := (List.range 5).map fun i ↦ basis (i + 16)

def aboveBMP : Stream := BixNumCompiler.UGT .streams (high5 basis) 0

def u16_SMP_basis : Except Fault Basis := do
  let SMP_val ← BixNumCompiler.SubModularConst .streams (high5 basis) 1
  return fun i p ↦ SMP_val.getD i PabloBuilder.streams.createZeroes p && aboveBMP basis p

end UTF16_SupplementaryBasis

namespace UTF16fieldDepositMask

variable (bw fw : ℕ) (basis : Basis) (items : ℕ)

def fileExtentMask : Stream := fun p ↦ decide (p < items)

/-- If any of bits 16 through 20 are 1, a surrogate pair is required. -/
def aboveBMP : Stream := fun p ↦
  (basis 16 p || basis 17 p || basis 18 p || basis 19 p || basis 20 p) && fileExtentMask items p

/-- The blocks of the extraction mask for a block of the input. -/
def extraction_mask (blk : ℕ) : ℕ → Stream :=
  let aboveBMP := loadInputStreamBlock bw (aboveBMP basis items) blk
  let fileExtentMask := loadInputStreamBlock bw (fileExtentMask items) blk
  fun
    | 0 => esimd_mergel 1 aboveBMP fileExtentMask
    | _ => esimd_mergeh bw 1 aboveBMP fileExtentMask

def extractionMask : Stream := storeOutputStreamBlock bw 2 (extraction_mask bw basis items)

def fieldDepositMask : Stream := storeOutputStreamBlock bw 2 fun blk j ↦
  simd_pext fw (splatHighBit 2) (extraction_mask bw basis items blk j)

end UTF16fieldDepositMask

namespace UTF16_InitialMask

variable (length : ℕ) (u16final : Stream)

def nonFinal : Stream := fun p ↦ !u16final p

def initial : Stream := createInFile length fun p ↦ !advance 1 (nonFinal u16final) p

end UTF16_InitialMask

namespace UTF16assembly

variable (SMPbits4_0 u16bits15_10 u16bits9_0 : Basis) (length : ℕ) (mask_lo : Stream)

def surrogate1 : Stream := createInFile length fun p ↦ !mask_lo p

def surrogate2 : Stream := advance 1 (surrogate1 length mask_lo)

def surrogate : Stream := fun p ↦ surrogate1 length mask_lo p || surrogate2 length mask_lo p

/-- For surrogates, the high six bits are `D8` or `DC`. -/
def u16 : Basis
  | 15 => fun p ↦ u16bits15_10 5 p || surrogate length mask_lo p
  | 14 => fun p ↦ u16bits15_10 4 p || surrogate length mask_lo p
  | 13 => fun p ↦ u16bits15_10 3 p && !surrogate length mask_lo p
  | 12 => fun p ↦ u16bits15_10 2 p || surrogate length mask_lo p
  | 11 => fun p ↦ u16bits15_10 1 p || surrogate length mask_lo p
  | 10 => fun p ↦
    bif surrogate length mask_lo p then surrogate2 length mask_lo p else u16bits15_10 0 p
  | i => fun p ↦
    bif mask_lo p then u16bits9_0 i p
    else if i < 6 then u16bits15_10 i p else SMPbits4_0 (i - 6) p

end UTF16assembly

section Pipeline

variable (bw fw : ℕ) (U21 : Basis) (items : ℕ)

/-- The final positions, from all fields that the items take. -/
def u16final : List Bool :=
  streamCompress fw (UTF16fieldDepositMask.extractionMask bw U21 items)
    (UTF16fieldDepositMask.fieldDepositMask bw fw U21 items) ((2 * items + fw - 1) / fw)

/-- The basis bit streams of the code units, and how many units there are. -/
def U21_to_UTF16 : Except Fault (Basis × ℕ) := do
  let u16_SMP_basis ← UTF16_SupplementaryBasis.u16_SMP_basis U21
  let final := u16final bw fw U21 items
  let length := final.length
  let u16final : Stream := fun p ↦ final.getD p false
  let u16initial := UTF16_InitialMask.initial length u16final
  let SMP4_0 : Basis := fun i ↦ spread u16initial (u16_SMP_basis i)
  let deposit15_10 : Basis := fun i ↦ spread u16initial (U21 (10 + i))
  let deposit9_0 : Basis := fun i ↦ spread u16final (U21 i)
  return (UTF16assembly.u16 SMP4_0 deposit15_10 deposit9_0 length u16final, length)

end Pipeline

namespace UTF16_SupplementaryBasis

variable {text : List ℕ} {cp n i : ℕ}

theorem value_high5 (hn : text[n]? = some cp) (hcp : cp < 0x110000) :
    value id n (high5 (basisOf text)) = cp / 2 ^ 16 := by
  have hlt : cp / 2 ^ 16 < 2 ^ 5 := by omega
  have hdigits : (high5 (basisOf text)).map (fun a : Stream ↦ a n) =
      (List.range 5).map (cp / 2 ^ 16).testBit := by
    rw [high5, List.map_map]
    apply List.map_congr_left
    intro i _
    rw [Function.comp_apply, basisOf_apply hn, Nat.testBit_div_two_pow]
  apply Nat.eq_of_testBit_eq
  intro i
  rw [value]
  simp only [id_eq]
  rw [hdigits, testBit_ofDigits]
  by_cases hi : i < 5
  · rw [List.getD_eq_getElem _ _ (by simpa using hi)]
    simp
  · have hle := Nat.pow_le_pow_right Nat.two_pos (Nat.le_of_not_lt hi)
    rw [List.getD_eq_default _ _ (by simpa using hi), Nat.testBit_lt_two_pow (hlt.trans_le hle)]

/-- The plane less one, where the plane is above the first. -/
theorem u16_SMP_basis_spec (htext : ∀ cp ∈ text, cp < 0x110000) :
    ∃ SMP, u16_SMP_basis (basisOf text) = .ok SMP ∧ ∀ n cp, text[n]? = some cp → ∀ i,
      SMP i n = (decide (0x10000 ≤ cp) && (cp / 0x10000 - 1).testBit i) := by
  obtain ⟨v, hv, -, hvalue⟩ :=
    (BixNumCompiler.subModularConst_spec PabloBuilder.streams_lawful
      (high5 (basisOf text)) (x := 1) (by decide)).2 (by simp [high5])
  refine ⟨fun i p ↦ v.getD i PabloBuilder.streams.createZeroes p && aboveBMP (basisOf text) p,
    ?_, ?_⟩
  · rw [u16_SMP_basis, hv]
    rfl
  · intro n cp hn i
    have hcp := htext cp (List.mem_of_getElem? hn)
    have habove : aboveBMP (basisOf text) n = decide (0x10000 ≤ cp) := by
      change id (BixNumCompiler.UGT .streams (high5 (basisOf text)) 0) n = _
      rw [BixNumCompiler.eval_UGT PabloBuilder.streams_lawful, value_high5 hn hcp, decide_eq_decide]
      omega
    beta_reduce
    rw [habove]
    by_cases hle : 0x10000 ≤ cp
    · have hminus : value id n v = cp / 0x10000 - 1 := by
        have hn := hvalue n
        rw [value_high5 ‹_› hcp, high5, List.length_map, List.length_range] at hn
        omega
      have hbit : v.getD i PabloBuilder.streams.createZeroes n = (value id n v).testBit i := by
        rw [value, testBit_ofDigits]
        exact (List.getD_map v PabloBuilder.streams.createZeroes fun a : Stream ↦ a n).symm
      rw [hbit, hminus, Bool.and_comm]
    · rw [decide_eq_false hle, Bool.and_false, Bool.false_and]

end UTF16_SupplementaryBasis

namespace UTF16fieldDepositMask

variable {c items : ℕ} {basis : Basis} {text : List ℕ} {cp n : ℕ}

/-- The two slots of an item. -/
def slot (basis : Basis) (items : ℕ) : ℕ → Stream
  | 0 => aboveBMP basis items
  | _ => fileExtentMask items

theorem extraction_mask_pair (b j i : ℕ) (hj : j < 2) (l : ℕ) (hl : l < 2) :
    extraction_mask (2 * c) basis items b j (2 * i + l) =
      slot basis items l (2 * c * b + (c * j + i)) := by
  have hpair := @merge_pair c (aboveBMP basis items) (fileExtentMask items) b j i hj l hl
  interval_cases j <;> interval_cases l <;> exact hpair

theorem extractionMask_apply (hc : 0 < c) (n : ℕ) {l : ℕ} (hl : l < 2) :
    extractionMask (2 * c) basis items (2 * n + l) = slot basis items l n :=
  storeOutputStreamBlock_merge (fun b j i hj _ l hl ↦ extraction_mask_pair b j i hj l hl) n hl hc

theorem fileExtentMask_apply (hn : text[n]? = some cp) :
    fileExtentMask text.length n = true :=
  decide_eq_true (List.getElem?_eq_some_iff.1 hn).1

theorem aboveBMP_apply (hn : text[n]? = some cp) (hcp : cp < 2 ^ 21) :
    aboveBMP (basisOf text) text.length n = decide (2 ^ 16 ≤ cp) := by
  rw [aboveBMP, fileExtentMask_apply hn, ← decide_or_any cp 16 5, decide_eq_false hcp.not_ge]
  simp [basisOf_apply hn, List.range', Bool.or_assoc]

theorem extractionMask_selects (hc : 0 < c) (htext : ∀ cp ∈ text, cp < 0x110000) :
    SelectsUnits utf16 text 2 (extractionMask (2 * c) (basisOf text) text.length) := by
  intro n cp hn
  have hcp := htext cp (List.mem_of_getElem? hn)
  have hlength := length_utf16 cp
  refine ⟨length_utf16_pos cp, by split_ifs at hlength <;> omega, fun l hl ↦ ?_⟩
  rw [extractionMask_apply hc n hl]
  cases l with
  | zero =>
    rw [slot, aboveBMP_apply hn (by omega), decide_eq_decide]
    split_ifs at hlength <;> omega
  | succ l =>
    have hpos := length_utf16_pos cp
    rw [slot, fileExtentMask_apply hn, decide_eq_true (by omega)]
    omega

/-- Nothing is selected after the last item. -/
theorem extractionMask_past (hc : 0 < c) {p : ℕ} (hp : 2 * items ≤ p) :
    extractionMask (2 * c) basis items p = false := by
  have hpast : fileExtentMask items (p / 2) = false := decide_eq_false (by omega)
  have hlt : p % 2 < 2 := Nat.mod_lt p (by decide)
  rw [← Nat.div_add_mod p 2, extractionMask_apply hc _ hlt]
  cases p % 2 with
  | zero => rw [slot, aboveBMP, hpast, Bool.and_false]
  | succ l =>
    rw [slot, hpast]
    exact Nat.succ_ne_zero l

end UTF16fieldDepositMask

/-- The last unit of every character is marked. -/
theorem u16final_eq {e c : ℕ} {text : List ℕ} (hdvd : 2 ∣ 2 ^ (e + 1) * c) (hc : 0 < c)
    (htext : ∀ cp ∈ text, cp < 0x110000) :
    u16final (2 ^ (e + 1) * c) (2 ^ (e + 1)) (basisOf text) text.length =
      text.flatMap fun cp ↦ finalUnit (utf16 cp) := by
  obtain ⟨d, hd⟩ := hdvd
  have hdpos : 0 < d := by
    have := Nat.mul_pos (Nat.two_pow_pos (e + 1)) hc
    omega
  rw [u16final]
  refine SelectsUnits.streamCompress ?_ (fun p hp ↦ ?_) (by decide) hc ⟨d, hd⟩
  · rw [← UTF16fieldDepositMask.extractionMask, hd]
    exact UTF16fieldDepositMask.extractionMask_selects hdpos htext
  · rw [← UTF16fieldDepositMask.extractionMask, hd]
    exact UTF16fieldDepositMask.extractionMask_past hdpos hp

section Assembly

variable {text : List ℕ} {length n d cp : ℕ} {u16final : Stream}

/-- The upper surrogates are the units that are not the last ones. -/
theorem surrogate2_apply (hfinal : MarksOne utf16 text (fun cp ↦ (utf16 cp).length - 1) u16final)
    (hlength : length = (text.flatMap utf16).length) (hn : text[n]? = some cp)
    (hd : d < (utf16 cp).length) :
    UTF16assembly.surrogate1 length u16final (start utf16 text n + d) =
        !(d == (utf16 cp).length - 1) ∧
      UTF16assembly.surrogate2 length u16final (start utf16 text n + d) = (d == 1) := by
  have hfirst : OnUnits utf16 text (UTF16assembly.surrogate1 length u16final)
      fun cp d ↦ !(d == (utf16 cp).length - 1) := by
    intro n cp d hn hd
    have hin : start utf16 text n + d < length := hlength ▸ start_add_lt hn hd
    rw [UTF16assembly.surrogate1, createInFile, decide_eq_true hin, Bool.true_and,
      (hfinal n cp hn).2 d hd]
  refine ⟨hfirst n cp d hn hd, ?_⟩
  rw [UTF16assembly.surrogate2, hfirst.advance (k := 1) _ n cp d hn hd]
  · have hle : (utf16 cp).length ≤ 2 := by
      rw [length_utf16]
      split_ifs <;> decide
    rcases (by omega : d = 0 ∨ d = 1) with rfl | rfl
    · rfl
    · have hlast : ¬0 = (utf16 cp).length - 1 := by omega
      beta_reduce
      rw [Nat.sub_self, beq_eq_false_iff_ne.2 hlast]
      rfl
  · intro cp _ d hd hnot
    rw [Bool.not_eq_true', beq_eq_false_iff_ne] at hnot
    omega

/-- What is deposited at the `d`-th unit of a character. -/
structure SurrogatesDeposited (cp d p : ℕ) (SMPbits4_0 u16bits15_10 u16bits9_0 : Basis)
    (length : ℕ) (mask_lo : Stream) : Prop where
  low (i : ℕ) : u16bits9_0 i p = (d == (utf16 cp).length - 1 && cp.testBit i)
  high (i : ℕ) : u16bits15_10 i p = (d == 0 && cp.testBit (10 + i))
  plane (i : ℕ) : SMPbits4_0 i p =
    (d == 0 && (decide (0x10000 ≤ cp) && (cp / 0x10000 - 1).testBit i))
  final : mask_lo p = (d == (utf16 cp).length - 1)
  surrogate1 : UTF16assembly.surrogate1 length mask_lo p = !(d == (utf16 cp).length - 1)
  surrogate2 : UTF16assembly.surrogate2 length mask_lo p = (d == 1)

variable {p i : ℕ} {SMPbits4_0 u16bits15_10 u16bits9_0 : Basis} {mask_lo : Stream}

theorem SurrogatesDeposited.testBit (h : SurrogatesDeposited cp d p SMPbits4_0 u16bits15_10
      u16bits9_0 length mask_lo) (hcp : cp < 0x110000) {u : ℕ} (hu : (utf16 cp)[d]? = some u)
    (hi : i < 16) :
    UTF16assembly.u16 SMPbits4_0 u16bits15_10 u16bits9_0 length mask_lo i p = u.testBit i := by
  obtain ⟨low, high, plane, final, surrogate1, surrogate2⟩ := h
  by_cases hone : cp < 0x10000
  · rw [utf16_of_lt hone] at hu low final surrogate1
    obtain ⟨rfl, rfl⟩ : d = 0 ∧ cp = u := by
      cases d with
      | zero => exact ⟨rfl, Option.some_inj.1 hu⟩
      | succ d => simp at hu
    interval_cases i <;>
      simp [UTF16assembly.u16, UTF16assembly.surrogate, low, high, final, surrogate1, surrogate2]
  · rw [utf16_of_ge hone] at hu low final surrogate1
    rcases (by cases d with
      | zero => exact .inl rfl
      | succ d => cases d with
        | zero => exact .inr rfl
        | succ d => simp at hu : d = 0 ∨ d = 1) with rfl | rfl
    · obtain rfl := Option.some_inj.1 hu
      rw [testBit_high hone hcp]
      interval_cases i <;>
        simp [UTF16assembly.u16, UTF16assembly.surrogate, high, plane, final, surrogate1,
          surrogate2, Nat.le_of_not_lt hone, Nat.testBit_succ]
    · obtain rfl := Option.some_inj.1 hu
      rw [testBit_low hone]
      interval_cases i <;>
        simp [UTF16assembly.u16, UTF16assembly.surrogate, low, high, final, surrogate1,
          surrogate2, Nat.testBit_succ]

end Assembly

section Pipeline

variable {text : List ℕ} {length n d cp : ℕ} {u16final : Stream} {SMP : Basis}

theorem surrogatesDeposited
    (hfinal : MarksOne utf16 text (fun cp ↦ (utf16 cp).length - 1) u16final)
    (hlength : length = (text.flatMap utf16).length)
    (hSMP : ∀ n cp, text[n]? = some cp → ∀ i,
      SMP i n = (decide (0x10000 ≤ cp) && (cp / 0x10000 - 1).testBit i))
    (hn : text[n]? = some cp) (hd : d < (utf16 cp).length) :
    SurrogatesDeposited cp d (start utf16 text n + d)
      (fun i ↦ spread (UTF16_InitialMask.initial length u16final) (SMP i))
      (fun i ↦ spread (UTF16_InitialMask.initial length u16final) (basisOf text (10 + i)))
      (fun i ↦ spread u16final (basisOf text i)) length u16final := by
  have hinitial : MarksOne utf16 text (fun _ ↦ 0) (UTF16_InitialMask.initial length u16final) :=
    initial_marks hfinal hlength
  obtain ⟨h1, h2⟩ := surrogate2_apply hfinal hlength hn hd
  refine ⟨fun i ↦ ?_, fun i ↦ ?_, fun i ↦ ?_, (hfinal n cp hn).2 d hd, h1, h2⟩
  · rw [hfinal.spread _ hn hd, basisOf_apply hn]
  · rw [hinitial.spread _ hn hd, basisOf_apply hn]
  · rw [hinitial.spread _ hn hd, hSMP n cp hn]

/-- The units of the assembled stream are the encoded characters, one after the other. -/
theorem codeUnits_u16 (hlength : length = (text.flatMap utf16).length)
    (htext : ∀ cp ∈ text, cp < 0x110000)
    {output : Basis} (houtput : ∀ n cp d, text[n]? = some cp → d < (utf16 cp).length →
      ∀ u, (utf16 cp)[d]? = some u →
      ∀ i < 16, output i (start utf16 text n + d) = u.testBit i) :
    codeUnits 16 (output, length) = text.flatMap utf16 := by
  apply List.ext_getElem?
  intro p
  by_cases hp : p < (text.flatMap utf16).length
  · obtain ⟨n, cp, d, hn, hd, rfl⟩ := exists_place hp
    have hunit := List.getElem?_eq_getElem hd
    have hlt := utf16_unit_lt (htext cp (List.mem_of_getElem? hn)) (List.getElem_mem hd)
    rw [getElem?_flatMap hn hd, codeUnits, List.getElem?_map,
      List.getElem?_range (by rwa [hlength]), Option.map_some, hunit,
      codeUnit_eq hlt (houtput n cp d hn hd _ hunit)]
  · rw [List.getElem?_eq_none (by simpa [codeUnits, hlength] using hp),
      List.getElem?_eq_none (by simpa using hp)]

/-- The code units are those of the characters, one after the other. -/
theorem U21_to_UTF16_encoded {text : List ℕ} (htext : ∀ cp ∈ text, cp < 0x110000) {bw e : ℕ}
    (hbw : 0 < bw) (hfields : 2 ^ (e + 1) ∣ bw) :
    codeUnits 16 <$> U21_to_UTF16 bw (2 ^ (e + 1)) (basisOf text) text.length =
      .ok (text.flatMap utf16) := by
  obtain ⟨c, rfl⟩ := hfields
  have hc : 0 < c := Nat.pos_of_ne_zero fun h ↦ by simp [h] at hbw
  have hunits : 2 ∣ 2 ^ (e + 1) * c := ⟨2 ^ e * c, by ring⟩
  obtain ⟨SMP, hok, hSMP⟩ := UTF16_SupplementaryBasis.u16_SMP_basis_spec htext
  have hmarks : MarksOne utf16 text (fun cp ↦ (utf16 cp).length - 1)
      fun p ↦ (text.flatMap fun cp ↦ finalUnit (utf16 cp)).getD p false :=
    finalUnit_marks fun cp _ ↦ length_utf16_pos cp
  have hlength : (text.flatMap fun cp ↦ finalUnit (utf16 cp)).length =
      (text.flatMap utf16).length := by
    rw [List.length_flatMap, List.length_flatMap]
    congr 1
    apply List.map_congr_left
    intro cp _
    rw [length_finalUnit (length_utf16_pos cp)]
  rw [U21_to_UTF16, hok, u16final_eq hunits hc htext]
  exact congrArg Except.ok <| codeUnits_u16 hlength htext fun n cp d hn hd u hu i hi ↦
    (surrogatesDeposited hmarks hlength hSMP hn hd).testBit
      (htext cp (List.mem_of_getElem? hn)) hu hi

theorem U21_to_UTF16_encoded_grinning_face :
    codeUnits 16 <$> U21_to_UTF16 64 64 (basisOf [0x41, 0x1F600]) 2 =
      .ok [0x41, 0xD83D, 0xDE00] :=
  @U21_to_UTF16_encoded [0x41, 0x1F600] (by decide) 64 5 (by decide) (by decide)

end Pipeline

end Parabix.Unicode
