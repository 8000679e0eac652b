import Mathlib.Tactic.IntervalCases
import Parabix.Library.UTF8
import Parabix.Unicode.Basis
import Parabix.Unicode.DepositMask

namespace Parabix.Unicode

open Library Library.BitStream Library.UTF8 IDISA

namespace UTF8fieldDepositMask

variable (bw fw : ℕ) (basis : Basis) (items : ℕ)

def fileExtentMask : Stream := fun p ↦ decide (p < items)

/-- If any of bits 16 through 20 are 1, a four-byte UTF-8 sequence is required. -/
def u8len4 : Stream := fun p ↦
  (basis 16 p || basis 17 p || basis 18 p || basis 19 p || basis 20 p) && fileExtentMask items p

def u8len34 : Stream := fun p ↦
  (u8len4 basis items p || basis 11 p || basis 12 p || basis 13 p || basis 14 p || basis 15 p) &&
    fileExtentMask items p

def nonASCII : Stream := fun p ↦
  (u8len34 basis items p || basis 7 p || basis 8 p || basis 9 p || basis 10 p) &&
    fileExtentMask items p

/-- The blocks of the extraction mask for a block of the input. -/
def extraction_mask (blk : ℕ) : ℕ → Stream :=
  let u8len4 := loadInputStreamBlock bw (u8len4 basis items) blk
  let u8len34 := loadInputStreamBlock bw (u8len34 basis items) blk
  let nonASCII := loadInputStreamBlock bw (nonASCII basis items) blk
  let fileExtentMask := loadInputStreamBlock bw (fileExtentMask items) blk
  let maskA_lo := esimd_mergel 1 u8len34 fileExtentMask
  let maskA_hi := esimd_mergeh bw 1 u8len34 fileExtentMask
  let maskB_lo := esimd_mergel 1 u8len4 nonASCII
  let maskB_hi := esimd_mergeh bw 1 u8len4 nonASCII
  fun
    | 0 => esimd_mergel 1 maskB_lo maskA_lo
    | 1 => esimd_mergeh bw 1 maskB_lo maskA_lo
    | 2 => esimd_mergel 1 maskB_hi maskA_hi
    | _ => esimd_mergeh bw 1 maskB_hi maskA_hi

def extractionMask : Stream := storeOutputStreamBlock bw 4 (extraction_mask bw basis items)

def fieldDepositMask : Stream := storeOutputStreamBlock bw 4 fun blk j ↦
  simd_pext fw (splatHighBit 4) (extraction_mask bw basis items blk j)

end UTF8fieldDepositMask

namespace UTF8_DepositMasks

variable (length : ℕ) (u8final : Stream)

def nonFinal : Stream := fun p ↦ !u8final p

def initial : Stream := createInFile length fun p ↦ !advance 1 (nonFinal u8final) p

def ASCII : Stream := fun p ↦ u8final p && initial length u8final p

/-- Lookahead positions that are the final position of the prior unit are eliminated. -/
def secondLast : Stream := fun p ↦ createLookahead u8final 1 p && nonFinal u8final p

def u8mask6_11 : Stream := createInFile length fun p ↦ secondLast u8final p || ASCII length u8final p

def prefix2 : Stream := fun p ↦ secondLast u8final p && initial length u8final p

def thirdLast : Stream := fun p ↦
  (createLookahead u8final 2 p && nonFinal u8final p) && !secondLast u8final p

def u8mask12_17 : Stream := createInFile length fun p ↦
  thirdLast u8final p || (prefix2 length u8final p || ASCII length u8final p)

end UTF8_DepositMasks

namespace UTF8assembly

section

variable (dep18_20 dep12_17 dep6_11 dep0_5 : Basis)
  (u8initial u8final u8mask6_11 u8mask12_17 : Stream)

def ASCII : Stream := fun p ↦ u8initial p && u8final p

def nonASCII : Stream := fun p ↦ !ASCII u8initial u8final p

/-- Deposit bit 6 is either bit 6 of an ASCII code unit, or bit 0 of another one. -/
def nonASCII6_11 : Basis
  | 0 => fun p ↦ dep6_11 0 p && nonASCII u8initial u8final p
  | i => dep6_11 i

/-- The bits that are deposited in one of the lower six. -/
def deposited (i : ℕ) : Stream := fun p ↦
  let u8basis := (dep0_5 i p || nonASCII6_11 dep6_11 u8initial u8final i p) || dep12_17 i p
  if i < 3 then u8basis || dep18_20 i p else u8basis

def u8basis : Basis
  | 7 => nonASCII u8initial u8final
  | 6 => fun p ↦ (u8initial p && nonASCII u8initial u8final p) ||
      (dep6_11 0 p && ASCII u8initial u8final p)
  | 5 => fun p ↦ deposited dep18_20 dep12_17 dep6_11 dep0_5 u8initial u8final 5 p ||
      (u8initial p && !u8mask6_11 p)
  | 4 => fun p ↦ deposited dep18_20 dep12_17 dep6_11 dep0_5 u8initial u8final 4 p ||
      (u8initial p && !u8mask12_17 p)
  | i => deposited dep18_20 dep12_17 dep6_11 dep0_5 u8initial u8final i

end

end UTF8assembly

section Pipeline

variable (bw fw : ℕ) (U21 : Basis) (items : ℕ)

/-- The final positions, from all fields that the items take. -/
def u8final : List Bool :=
  streamCompress fw (UTF8fieldDepositMask.extractionMask bw U21 items)
    (UTF8fieldDepositMask.fieldDepositMask bw fw U21 items) ((4 * items + fw - 1) / fw)

/-- The basis bit streams of the code units, and how many units there are. -/
def U21_to_UTF8 : Basis × ℕ :=
  let final := u8final bw fw U21 items
  let length := final.length
  let u8final : Stream := fun p ↦ final.getD p false
  let u8initial := UTF8_DepositMasks.initial length u8final
  let u8mask12_17 := UTF8_DepositMasks.u8mask12_17 length u8final
  let u8mask6_11 := UTF8_DepositMasks.u8mask6_11 length u8final
  let deposit18_20 : Basis := fun i ↦ spread u8initial (U21 (18 + i))
  let deposit12_17 : Basis := fun i ↦ spread u8mask12_17 (U21 (12 + i))
  let deposit6_11 : Basis := fun i ↦ spread u8mask6_11 (U21 (6 + i))
  let deposit0_5 : Basis := fun i ↦ spread u8final (U21 i)
  (UTF8assembly.u8basis deposit18_20 deposit12_17 deposit6_11 deposit0_5 u8initial u8final
    u8mask6_11 u8mask12_17, length)

end Pipeline

section Merge

variable {c i : ℕ} {x y z t : Stream}

/-- Merging twice puts the bits of four vectors in turn. -/
theorem esimd_mergel_mergel {l : ℕ} (hl : l < 4) :
    esimd_mergel 1 (esimd_mergel 1 x z) (esimd_mergel 1 y t) (4 * i + l) =
      [x, y, z, t][l]?.getD x i := by
  rcases (by omega : l = 0 ∨ l = 1 ∨ l = 2 ∨ l = 3) with rfl | rfl | rfl | rfl
  · rw [show 4 * i + 0 = 2 * (2 * i) by ring, esimd_mergel_one_even, esimd_mergel_one_even]
    rfl
  · rw [show 4 * i + 1 = 2 * (2 * i) + 1 by ring, esimd_mergel_one_odd, esimd_mergel_one_even]
    rfl
  · rw [show 4 * i + 2 = 2 * (2 * i + 1) by ring, esimd_mergel_one_even, esimd_mergel_one_odd]
    rfl
  · rw [show 4 * i + 3 = 2 * (2 * i + 1) + 1 by ring, esimd_mergel_one_odd, esimd_mergel_one_odd]
    rfl

/-- The upper part of merged vectors is that of parts of them merged. -/
theorem esimd_mergel_shift (c : ℕ) : (fun p ↦ esimd_mergel 1 x y (2 * c + p)) =
    esimd_mergel 1 (fun p ↦ x (c + p)) fun p ↦ y (c + p) := by
  funext p
  obtain ⟨q, rfl | rfl⟩ := p.even_or_odd'
  · rw [← Nat.mul_add, esimd_mergel_one_even, esimd_mergel_one_even]
  · rw [← Nat.add_assoc, ← Nat.mul_add, esimd_mergel_one_odd, esimd_mergel_one_odd]

theorem esimd_mergeh_eq : esimd_mergeh (4 * c) 1 x y =
    esimd_mergel 1 (fun p ↦ x (2 * c + p)) fun p ↦ y (2 * c + p) := by
  rw [esimd_mergeh, show 4 * c / 2 = 2 * c by omega]

end Merge

namespace UTF8fieldDepositMask

variable {bw c items : ℕ} {basis : Basis}

theorem extraction_mask_octet (b j i : ℕ) (hj : j < 4) (l : ℕ) (hl : l < 4) :
    extraction_mask (4 * c) basis items b j (4 * i + l) =
      [u8len4 basis items, u8len34 basis items, nonASCII basis items,
        fileExtentMask items][l]?.getD (u8len4 basis items) (4 * c * b + (c * j + i)) := by
  have hplace (s : Stream) (p : ℕ) (hp : p = c * j + i) :
      loadInputStreamBlock (4 * c) s b p = s (4 * c * b + (c * j + i)) := by
    rw [hp, loadInputStreamBlock]
  have hl' : l = 0 ∨ l = 1 ∨ l = 2 ∨ l = 3 := by omega
  rcases (by omega : j = 0 ∨ j = 1 ∨ j = 2 ∨ j = 3) with rfl | rfl | rfl | rfl
  · simp only [extraction_mask, esimd_mergel_mergel hl]
    rcases hl' with rfl | rfl | rfl | rfl <;>
      simp only [List.getElem?_cons_zero, List.getElem?_cons_succ, Option.getD_some] <;>
      exact hplace _ _ (by ring)
  · simp only [extraction_mask, esimd_mergeh_eq, esimd_mergel_shift, esimd_mergel_mergel hl]
    rcases hl' with rfl | rfl | rfl | rfl <;>
      simp only [List.getElem?_cons_zero, List.getElem?_cons_succ, Option.getD_some] <;>
      exact hplace _ _ (by ring)
  · simp only [extraction_mask, esimd_mergeh_eq, esimd_mergel_mergel hl]
    rcases hl' with rfl | rfl | rfl | rfl <;>
      simp only [List.getElem?_cons_zero, List.getElem?_cons_succ, Option.getD_some] <;>
      exact hplace _ _ (by ring)
  · simp only [extraction_mask, esimd_mergeh_eq, esimd_mergel_shift, esimd_mergel_mergel hl]
    rcases hl' with rfl | rfl | rfl | rfl <;>
      simp only [List.getElem?_cons_zero, List.getElem?_cons_succ, Option.getD_some] <;>
      exact hplace _ _ (by ring)

theorem extractionMask_apply (hc : 0 < c) (n : ℕ) {l : ℕ} (hl : l < 4) :
    extractionMask (4 * c) basis items (4 * n + l) =
      [u8len4 basis items, u8len34 basis items, nonASCII basis items,
        fileExtentMask items][l]?.getD (u8len4 basis items) n :=
  storeOutputStreamBlock_merge (f := fun l ↦ [u8len4 basis items, u8len34 basis items,
    nonASCII basis items, fileExtentMask items][l]?.getD (u8len4 basis items))
    (fun b j i hj _ l hl ↦ extraction_mask_octet b j i hj l hl) n hl hc

variable {text : List ℕ} {cp n : ℕ}

theorem fileExtentMask_apply (hc : text[n]? = some cp) :
    fileExtentMask text.length n = true :=
  decide_eq_true (List.getElem?_eq_some_iff.1 hc).1

theorem u8len4_apply (hc : text[n]? = some cp) (hcp : cp < 2 ^ 21) :
    u8len4 (basisOf text) text.length n = decide (2 ^ 16 ≤ cp) := by
  rw [u8len4, fileExtentMask_apply hc, ← decide_or_any cp 16 5, decide_eq_false hcp.not_ge]
  simp [basisOf_apply hc, List.range', Bool.or_assoc]

theorem u8len34_apply (hc : text[n]? = some cp) (hcp : cp < 2 ^ 21) :
    u8len34 (basisOf text) text.length n = decide (2 ^ 11 ≤ cp) := by
  rw [u8len34, fileExtentMask_apply hc, u8len4_apply hc hcp, ← decide_or_any cp 11 5]
  simp [basisOf_apply hc, List.range', Bool.or_assoc]

theorem nonASCII_apply (hc : text[n]? = some cp) (hcp : cp < 2 ^ 21) :
    nonASCII (basisOf text) text.length n = decide (2 ^ 7 ≤ cp) := by
  rw [nonASCII, fileExtentMask_apply hc, u8len34_apply hc hcp, ← decide_or_any cp 7 4]
  simp [basisOf_apply hc, List.range', Bool.or_assoc]

theorem extractionMask_selects (hc : 0 < c) (htext : ∀ cp ∈ text, cp < 2 ^ 21) :
    SelectsUnits utf8 text 4 (extractionMask (4 * c) (basisOf text) text.length) := by
  intro n cp hcp
  have hlt := htext cp (List.mem_of_getElem? hcp)
  rw [length_utf8]
  refine ⟨width_pos cp, width_le cp, fun l hl ↦ ?_⟩
  rw [extractionMask_apply hc n hl]
  rcases (by omega : l = 0 ∨ l = 1 ∨ l = 2 ∨ l = 3) with rfl | rfl | rfl | rfl <;>
    simp only [List.getElem?_cons_zero, List.getElem?_cons_succ, Option.getD_some,
      u8len4_apply hcp hlt, u8len34_apply hcp hlt, nonASCII_apply hcp hlt,
      fileExtentMask_apply hcp, width] <;>
    split_ifs <;> simp <;> omega

/-- Nothing is selected after the last item. -/
theorem extractionMask_past (hc : 0 < c) {p : ℕ} (hp : 4 * items ≤ p) :
    extractionMask (4 * c) basis items p = false := by
  have hpast : fileExtentMask items (p / 4) = false := decide_eq_false (by omega)
  rw [← Nat.div_add_mod p 4, extractionMask_apply hc _ (Nat.mod_lt p (by decide))]
  rcases (by omega : p % 4 = 0 ∨ p % 4 = 1 ∨ p % 4 = 2 ∨ p % 4 = 3) with h | h | h | h <;> rw [h] <;>
    simp [u8len4, u8len34, nonASCII, hpast]

end UTF8fieldDepositMask

/-- The last byte of every character is marked. -/
theorem u8final_eq {e c : ℕ} {text : List ℕ} (hdvd : 4 ∣ 2 ^ (e + 1) * c) (hc : 0 < c)
    (htext : ∀ cp ∈ text, cp < 2 ^ 21) :
    u8final (2 ^ (e + 1) * c) (2 ^ (e + 1)) (basisOf text) text.length =
      text.flatMap fun cp ↦ finalUnit (utf8 cp) := by
  obtain ⟨d, hd⟩ := hdvd
  have hdpos : 0 < d := by
    have := Nat.mul_pos (Nat.two_pow_pos (e + 1)) hc
    omega
  rw [u8final]
  refine SelectsUnits.streamCompress ?_ (fun p hp ↦ ?_) (by decide) hc ⟨d, hd⟩
  · rw [← UTF8fieldDepositMask.extractionMask, hd]
    exact UTF8fieldDepositMask.extractionMask_selects hdpos htext
  · rw [← UTF8fieldDepositMask.extractionMask, hd]
    exact UTF8fieldDepositMask.extractionMask_past hdpos hp

namespace UTF8_DepositMasks

variable {text : List ℕ} {length n d cp : ℕ} {u8final : Stream}
  (hfinal : MarksOne utf8 text (fun cp ↦ (utf8 cp).length - 1) u8final)
  (hlength : length = (text.flatMap utf8).length) (hc : text[n]? = some cp) (hd : d < width cp)

include hfinal hc hd

theorem final_apply : u8final (start utf8 text n + d) = (d + 1 == width cp) := by
  have hpos := width_pos cp
  rw [(hfinal n cp hc).2 d (by rwa [length_utf8])]
  beta_reduce
  rw [length_utf8, Bool.eq_iff_iff, beq_iff_eq, beq_iff_eq]
  omega

include hlength in
theorem initial_apply : initial length u8final (start utf8 text n + d) = (d == 0) :=
  (initial_marks hfinal hlength n cp hc).2 d (by rwa [length_utf8])

theorem secondLast_apply : secondLast u8final (start utf8 text n + d) = (d + 2 == width cp) := by
  rw [secondLast, nonFinal, final_apply hfinal hc hd, createLookahead, Nat.add_assoc]
  by_cases hlast : d + 1 = width cp
  · rw [beq_iff_eq.2 hlast, beq_eq_false_iff_ne.2 (by omega)]
    simp
  · rw [final_apply hfinal hc (by omega), beq_eq_false_iff_ne.2 hlast]
    simp [Nat.add_assoc]

theorem thirdLast_apply : thirdLast u8final (start utf8 text n + d) = (d + 3 == width cp) := by
  rw [thirdLast, secondLast_apply hfinal hc hd, nonFinal, final_apply hfinal hc hd,
    createLookahead, Nat.add_assoc]
  by_cases hlast : d + 1 = width cp
  · have hthird : ¬d + 3 = width cp := by omega
    rw [beq_iff_eq.2 hlast, beq_eq_false_iff_ne.2 hthird]
    simp
  · by_cases hsecond : d + 2 = width cp
    · have hthird : ¬d + 3 = width cp := by omega
      rw [beq_iff_eq.2 hsecond, beq_eq_false_iff_ne.2 hthird]
      simp
    · rw [final_apply hfinal hc (by omega), beq_eq_false_iff_ne.2 hlast,
        beq_eq_false_iff_ne.2 hsecond]
      simp [Nat.add_assoc]

include hlength in
theorem u8mask6_11_apply :
    u8mask6_11 length u8final (start utf8 text n + d) = (d == width cp - 2) := by
  have hin : start utf8 text n + d < length :=
    hlength ▸ start_add_lt hc (by rwa [length_utf8])
  have hpos := width_pos cp
  rw [u8mask6_11, createInFile, decide_eq_true hin, Bool.true_and, ASCII,
    secondLast_apply hfinal hc hd, final_apply hfinal hc hd, initial_apply hfinal hlength hc hd,
    Bool.eq_iff_iff]
  simp
  omega

include hlength in
theorem u8mask12_17_apply :
    u8mask12_17 length u8final (start utf8 text n + d) = (d == width cp - 3) := by
  have hin : start utf8 text n + d < length :=
    hlength ▸ start_add_lt hc (by rwa [length_utf8])
  have hpos := width_pos cp
  rw [u8mask12_17, createInFile, decide_eq_true hin, Bool.true_and, ASCII, prefix2,
    thirdLast_apply hfinal hc hd, secondLast_apply hfinal hc hd, final_apply hfinal hc hd,
    initial_apply hfinal hlength hc hd, Bool.eq_iff_iff]
  simp
  omega

end UTF8_DepositMasks

section Assembly

variable {text : List ℕ} {n d cp : ℕ}

/-- The bits from the `6 * j`-th on, spread to the position that takes them. -/
theorem deposit_apply {m : Stream} {j : ℕ}
    (hm : ∀ n cp d, text[n]? = some cp → d < width cp →
      m (start utf8 text n + d) = (d == width cp - 1 - j))
    (hc : text[n]? = some cp) (hd : d < width cp) (i : ℕ) :
    spread m (basisOf text (6 * j + i)) (start utf8 text n + d) =
      (d == width cp - 1 - j && cp.testBit (6 * j + i)) := by
  have hmarks : MarksOne utf8 text (fun cp ↦ width cp - 1 - j) m := by
    intro n cp hc
    have hpos := width_pos cp
    have hlt : width cp - 1 - j < width cp := by omega
    rw [length_utf8]
    exact ⟨hlt, fun d hd ↦ hm n cp d hc hd⟩
  rw [hmarks.spread _ hc (by rwa [length_utf8]), basisOf_apply hc]

/-- What is deposited at the `d`-th byte of a character. -/
structure Deposited (cp d p : ℕ) (dep18_20 dep12_17 dep6_11 dep0_5 : Basis)
    (u8initial u8final u8mask6_11 u8mask12_17 : Stream) : Prop where
  low (i : ℕ) : dep0_5 i p = (d == width cp - 1 && cp.testBit i)
  second (i : ℕ) : dep6_11 i p = (d == width cp - 2 && cp.testBit (6 + i))
  third (i : ℕ) : dep12_17 i p = (d == width cp - 3 && cp.testBit (12 + i))
  high (i : ℕ) : dep18_20 i p = (d == 0 && cp.testBit (18 + i))
  initial : u8initial p = (d == 0)
  final : u8final p = (d + 1 == width cp)
  mask6_11 : u8mask6_11 p = (d == width cp - 2)
  mask12_17 : u8mask12_17 p = (d == width cp - 3)

variable {p : ℕ} {dep18_20 dep12_17 dep6_11 dep0_5 : Basis}
  {u8initial u8final u8mask6_11 u8mask12_17 : Stream}

theorem Deposited.suffix (h : Deposited cp (d + 1) p dep18_20 dep12_17 dep6_11 dep0_5 u8initial
      u8final u8mask6_11 u8mask12_17) (hd : d + 1 < width cp) (i : ℕ) (hi : i < 8) :
    UTF8assembly.u8basis dep18_20 dep12_17 dep6_11 dep0_5 u8initial u8final u8mask6_11
      u8mask12_17 i p = (0x80 + cp / 64 ^ (width cp - 1 - (d + 1)) % 64).testBit i := by
  have hle := width_le cp
  obtain ⟨low, second, third, high, initial, final, mask6_11, mask12_17⟩ := h
  rw [testBit_suffix]
  generalize width cp = w at *
  have hplace : w = 2 ∧ d = 0 ∨ w = 3 ∧ d = 0 ∨ w = 3 ∧ d = 1 ∨ w = 4 ∧ d = 0 ∨ w = 4 ∧ d = 1 ∨
      w = 4 ∧ d = 2 := by omega
  rcases hplace with ⟨rfl, rfl⟩ | ⟨rfl, rfl⟩ | ⟨rfl, rfl⟩ | ⟨rfl, rfl⟩ | ⟨rfl, rfl⟩ | ⟨rfl, rfl⟩ <;>
    interval_cases i <;>
    simp [UTF8assembly.u8basis, UTF8assembly.deposited, UTF8assembly.nonASCII6_11,
      UTF8assembly.nonASCII, UTF8assembly.ASCII, low, second, third, high, initial, final,
      mask6_11, mask12_17]

theorem Deposited.lead (h : Deposited cp 0 p dep18_20 dep12_17 dep6_11 dep0_5 u8initial u8final
      u8mask6_11 u8mask12_17) (hcp : cp < 2 ^ 21) (i : ℕ) (hi : i < 8) :
    UTF8assembly.u8basis dep18_20 dep12_17 dep6_11 dep0_5 u8initial u8final u8mask6_11
      u8mask12_17 i p = (UTF8.lead (width cp) + cp / 64 ^ (width cp - 1)).testBit i := by
  have hzero := fun i ↦ testBit_of_width (i := i) hcp
  obtain ⟨low, second, third, high, initial, final, mask6_11, mask12_17⟩ := h
  obtain ⟨free, m, hlead, hfree, hcases⟩ := lead_spec hcp
  rw [testBit_lead hlead hfree]
  clear hlead hfree
  generalize width cp = w at *
  rcases hcases with ⟨rfl, rfl, rfl⟩ | ⟨rfl, rfl, rfl⟩ | ⟨rfl, rfl, rfl⟩ | ⟨rfl, rfl, rfl⟩ <;>
    interval_cases i <;>
    simp [UTF8assembly.u8basis, UTF8assembly.deposited, UTF8assembly.nonASCII6_11,
      UTF8assembly.nonASCII, UTF8assembly.ASCII, low, second, third, high, initial, final,
      mask6_11, mask12_17, hzero, Nat.testBit_succ]

/-- Each unit is the byte of the character that it belongs to. -/
theorem Deposited.codeUnit (h : Deposited cp d p dep18_20 dep12_17 dep6_11 dep0_5 u8initial u8final
      u8mask6_11 u8mask12_17) (hcp : cp < 2 ^ 21) (hd : d < width cp) :
    (utf8 cp)[d]? = some (codeUnit 8 (UTF8assembly.u8basis dep18_20 dep12_17 dep6_11 dep0_5
      u8initial u8final u8mask6_11 u8mask12_17) p) := by
  have hbyte := List.getElem?_eq_getElem (l := utf8 cp) (by rwa [length_utf8])
  have hlt := utf8_byte_lt hcp (List.getElem_mem (by rwa [length_utf8]))
  rw [hbyte, codeUnit_eq hlt]
  intro i hi
  cases d with
  | zero =>
    rw [getElem?_utf8_zero, Option.some_inj] at hbyte
    rw [← hbyte, h.lead hcp i hi]
  | succ d =>
    rw [getElem?_utf8_succ hd, Option.some_inj] at hbyte
    rw [← hbyte, h.suffix hd i hi]

end Assembly

section Pipeline

variable {e c : ℕ} {text : List ℕ}

theorem U21_to_UTF8_length (hdvd : 4 ∣ 2 ^ (e + 1) * c) (hc : 0 < c)
    (htext : ∀ cp ∈ text, cp < 2 ^ 21) :
    (U21_to_UTF8 (2 ^ (e + 1) * c) (2 ^ (e + 1)) (basisOf text) text.length).2 =
      (text.flatMap utf8).length := by
  change (u8final _ _ _ _).length = _
  rw [u8final_eq hdvd hc htext, List.length_flatMap, List.length_flatMap]
  congr 1
  apply List.map_congr_left
  intro cp _
  rw [length_finalUnit (by rw [length_utf8]; exact width_pos cp)]

theorem U21_to_UTF8_deposited (hdvd : 4 ∣ 2 ^ (e + 1) * c) (hc : 0 < c)
    (htext : ∀ cp ∈ text, cp < 2 ^ 21) {n d cp : ℕ} (hn : text[n]? = some cp)
    (hd : d < width cp) :
    (utf8 cp)[d]? = some (codeUnit 8
      (U21_to_UTF8 (2 ^ (e + 1) * c) (2 ^ (e + 1)) (basisOf text) text.length).1
      (start utf8 text n + d)) := by
  have hlength := U21_to_UTF8_length hdvd hc htext
  have hmarks : MarksOne utf8 text (fun cp ↦ (utf8 cp).length - 1)
      fun p ↦ (text.flatMap fun cp ↦ finalUnit (utf8 cp)).getD p false :=
    finalUnit_marks fun cp _ ↦ by rw [length_utf8]; exact width_pos cp
  rw [U21_to_UTF8, u8final_eq hdvd hc htext] at hlength ⊢
  dsimp only at hlength ⊢
  generalize (text.flatMap fun cp ↦ finalUnit (utf8 cp)) = final at hmarks hlength ⊢
  generalize (fun p ↦ final.getD p false) = u8final at hmarks ⊢
  have hfinal (n cp d : ℕ) (hc : text[n]? = some cp) (hd : d < width cp) :
      u8final (start utf8 text n + d) = (d == width cp - 1 - 0) := by
    rw [UTF8_DepositMasks.final_apply hmarks hc hd, Bool.eq_iff_iff, beq_iff_eq, beq_iff_eq]
    omega
  have hinitial (n cp d : ℕ) (hc : text[n]? = some cp) (hd : d < width cp) :
      UTF8_DepositMasks.initial final.length u8final (start utf8 text n + d) =
        (d == width cp - 1 - 3) := by
    have hle := width_le cp
    rw [UTF8_DepositMasks.initial_apply hmarks hlength hc hd, show width cp - 1 - 3 = 0 by omega]
  have hsecond := fun n cp d (hc : text[n]? = some cp) (hd : d < width cp) ↦
    UTF8_DepositMasks.u8mask6_11_apply hmarks hlength hc hd
  have hthird := fun n cp d (hc : text[n]? = some cp) (hd : d < width cp) ↦
    UTF8_DepositMasks.u8mask12_17_apply hmarks hlength hc hd
  refine Deposited.codeUnit ⟨fun i ↦ ?_, fun i ↦ ?_, fun i ↦ ?_, fun i ↦ ?_,
    UTF8_DepositMasks.initial_apply hmarks hlength hn hd,
    UTF8_DepositMasks.final_apply hmarks hn hd, hsecond n cp d hn hd, hthird n cp d hn hd⟩
    (htext cp (List.mem_of_getElem? hn)) hd
  · simpa using deposit_apply hfinal hn hd i
  · exact deposit_apply (j := 1) hsecond hn hd i
  · exact deposit_apply (j := 2) hthird hn hd i
  · rw [← UTF8_DepositMasks.initial_apply hmarks hlength hn hd, hinitial n cp d hn hd]
    exact deposit_apply (j := 3) hinitial hn hd i

/-- The bytes of the assembled stream are the encoded characters, one after the other. -/
theorem codeUnits_U21_to_UTF8 (hdvd : 4 ∣ 2 ^ (e + 1) * c) (hc : 0 < c)
    (htext : ∀ cp ∈ text, cp < 2 ^ 21) :
    codeUnits 8 (U21_to_UTF8 (2 ^ (e + 1) * c) (2 ^ (e + 1)) (basisOf text) text.length) =
      text.flatMap utf8 := by
  have hlength := U21_to_UTF8_length hdvd hc htext
  apply List.ext_getElem?
  intro p
  by_cases hp : p < (text.flatMap utf8).length
  · obtain ⟨n, cp, d, hn, hd, rfl⟩ := exists_place hp
    rw [getElem?_flatMap hn hd, U21_to_UTF8_deposited hdvd hc htext hn (by rwa [← length_utf8]),
      codeUnits, List.getElem?_map, List.getElem?_range (by rwa [hlength])]
    rfl
  · rw [List.getElem?_eq_none (by simpa [codeUnits, hlength] using hp),
      List.getElem?_eq_none (by simpa using hp)]

end Pipeline

end Parabix.Unicode
