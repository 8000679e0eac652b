import Mathlib.Tactic.NormNum
import Parabix.Library.Bits

/-!
The base 64 encoding: the bits of the bytes, most significant first, are read in groups of six, and
the characters of the groups are filled up to a multiple of four.
-/

namespace Parabix.Library.Base64

/-- A bit of a text; zeros follow its end. -/
def bit (text : List (BitVec 8)) (q : ℕ) : Bool := (text.getD (q / 8) 0).getMsbD (q % 8)

/-- The number of a group of six bits. -/
def sextet (text : List (BitVec 8)) (j : ℕ) : ℕ :=
  ofDigits ((List.range 6).map fun i ↦ bit text (6 * j + (5 - i)))

/-- The groups that have a bit of the text. -/
def sextets (length : ℕ) : ℕ := (4 * length + 2) / 3

def alphabet : List Char :=
  "ABCDEFGHIJKLMNOPQRSTUVWXYZabcdefghijklmnopqrstuvwxyz0123456789+/".toList

def character (c : Char) : BitVec 8 := BitVec.ofNat 8 c.toNat

def symbol (x : ℕ) : BitVec 8 := character (alphabet.getD x '=')

/-- The number of characters that fill the last group of four. -/
def padding (length : ℕ) : ℕ := (4 - sextets length % 4) % 4

def encode (text : List (BitVec 8)) : List (BitVec 8) :=
  (List.range (sextets text.length)).map (fun j ↦ symbol (sextet text j)) ++
    List.replicate (padding text.length) (character '=')

theorem testBit_sextet (text : List (BitVec 8)) (j i : ℕ) : (sextet text j).testBit i =
    (decide (i < 6) && bit text (6 * j + (5 - i))) := by
  rw [sextet, testBit_ofDigits, List.getD_eq_getElem?_getD, List.getElem?_map]
  by_cases hi : i < 6
  · rw [List.getElem?_range hi, decide_eq_true hi]
    rfl
  · rw [List.getElem?_eq_none (by rw [List.length_range]; omega), decide_eq_false hi]
    rfl

theorem sextet_lt (text : List (BitVec 8)) (j : ℕ) : sextet text j < 64 := by
  have h := ofDigits_lt ((List.range 6).map fun i ↦ bit text (6 * j + (5 - i)))
  rwa [List.length_map, List.length_range] at h

/-- The last group of four has two characters of the text at least. -/
theorem sextets_mod_four (length : ℕ) : sextets length % 4 ≠ 1 := by
  rw [sextets]
  omega

example : encode ((("Man").toList ++ ("Ma").toList).map character) =
    ("TWFuTWE=").toList.map character := by decide

end Parabix.Library.Base64
