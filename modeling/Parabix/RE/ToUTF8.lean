import Parabix.Library.Encoding
import Parabix.UCD.Encoder
import Parabix.UCD.Ranges
import Parabix.RE.RepetitionOutline

namespace Parabix

open Library UCD

namespace RE

namespace CC

/-- The constructor asserts that the range is one of code points. -/
def ofRange (m : Memory) (lo hi alphabet : ℕ) : Except Fault CC :=
  if ¬lo ≤ hi then .error (.fatal "lo <= hi")
  else if ¬hi ≤ unicodeMax then .error (.fatal "hi <= UNICODE_MAX")
  else .ok ⟨.range m lo hi, alphabet⟩

def hex (n : ℕ) : String := String.ofList (Nat.toDigits 16 n)

def intervalName (i : ℕ × ℕ) : String :=
  if i.1 = i.2 then hex i.1 else hex i.1 ++ "_" ++ hex i.2

/-- The name of a class of code points. -/
def canonicalName (c : CC) : Except Fault String := do
  match ← c.set.intervals with
  | [] => return "Unicode"
  | intervals => return "Unicode_" ++ String.intercalate "," (intervals.map intervalName)

end CC

section Encoder

variable (m : Memory)

def mEncoder : UTF_Encoder := ⟨8⟩

/-- `~x` in the type `unsigned`. -/
def complement (x : ℕ) : ℕ := 2 ^ 32 - 1 - x

/-- The code units from `index` on of the code points from `lo` to `hi`, all of `lgth` units. -/
def rangeCodeUnitsFuel (lgth : ℕ) : ℕ → ℕ → ℕ → ℕ → Except Fault RE
  | 0, _, _, _ => .error .fuel
  | fuel + 1, lo, hi, index => do
    let hunit ← mEncoder.nthCodeUnit hi index
    let lunit ← mEncoder.nthCodeUnit lo index
    if index = lgth then
      return cc (← CC.ofRange m lunit hunit UTF8)
    else if hunit = lunit then
      let c ← CC.ofCodepoint m hunit UTF8
      return makeSeq [cc c, ← rangeCodeUnitsFuel lgth fuel lo hi (index + 1)]
    else
      let suffix_mask := 1 <<< ((lgth - index) * 6) - 1
      if hi &&& suffix_mask ≠ suffix_mask then
        let hi_floor := complement suffix_mask &&& hi
        let above ← rangeCodeUnitsFuel lgth fuel hi_floor hi index
        let below ← rangeCodeUnitsFuel lgth fuel lo (hi_floor - 1) index
        makeAlt [above, below]
      else if lo &&& suffix_mask ≠ 0 then
        let low_ceil := lo ||| suffix_mask
        let above ← rangeCodeUnitsFuel lgth fuel (low_ceil + 1) hi index
        let below ← rangeCodeUnitsFuel lgth fuel lo low_ceil index
        makeAlt [above, below]
      else
        let c ← CC.ofRange m lunit hunit UTF8
        return makeSeq [cc c, ← rangeCodeUnitsFuel lgth fuel lo hi (index + 1)]

/-- A range is split at most twice for each of its code units. -/
def rangeCodeUnits (lo hi index lgth : ℕ) : Except Fault RE :=
  rangeCodeUnitsFuel m lgth (3 * lgth) lo hi index

def rangeToUTF8Fuel : ℕ → ℕ → ℕ → Except Fault RE
  | 0, _, _ => .error .fuel
  | fuel + 1, lo, hi => do
    let min_lgth := mEncoder.encoded_length lo
    let max_lgth := mEncoder.encoded_length hi
    if min_lgth < max_lgth then
      let m' ← mEncoder.max_codepoint_of_length min_lgth
      let first ← rangeToUTF8Fuel fuel lo m'
      let rest ← rangeToUTF8Fuel fuel (m' + 1) hi
      makeAlt [first, rest]
    else
      rangeCodeUnits m lo hi 1 max_lgth

/-- A range is split at most once for each length. -/
def rangeToUTF8 (lo hi : ℕ) : Except Fault RE := rangeToUTF8Fuel m 4 lo hi

/-- A node with whether it is another than the one it is made from. -/
def transformCC (useInternalNaming : Bool) (c : CC) : Except Fault (RE × Bool) :=
  if c.alphabet ≠ Unicode then
    .ok (cc c, false)
  else do
    let alt ← (← c.set.intervals).mapM fun i ↦ rangeToUTF8 m i.1 i.2
    let xfrmd ← makeAlt alt
    if useInternalNaming then
      return (name (← c.canonicalName) xfrmd, true)
    else
      return (xfrmd, true)

end Encoder

section Transformer

variable (transformCC : CC → Except Fault (RE × Bool))
  (transformOther : RE → Except Fault (RE × Bool))

mutual

/-- A node is built again where a part of it has changed. What becomes of assertions, differences,
intersections and the kinds of expression without a node of their own is left open. -/
def transform : RE → Except Fault (RE × Bool)
  | cc c => transformCC c
  | alt elems => do
    let (elems', any_changed) ← transformElems elems
    if any_changed then
      return (← makeAlt elems', true)
    else
      return (alt elems, false)
  | seq elems => do
    let (elems', any_changed) ← transformElems elems
    if any_changed then
      return (makeSeq elems', true)
    else
      return (seq elems, false)
  | rep x0 lb ub => do
    let (x, changed) ← transform x0
    if changed then
      return (← makeRep x lb ub, true)
    else
      return (rep x0 lb ub, false)
  | name n definition => .ok (name n definition, false)
  | any => .ok (any, false)
  | start => .ok (start, false)
  | stop => .ok (stop, false)
  | re => transformOther re

def transformElems : List RE → Except Fault (List RE × Bool)
  | [] => .ok ([], false)
  | e :: elems => do
    let (e1, changed) ← transform e
    let (rest, any_changed) ← transformElems elems
    return (e1 :: rest, changed || any_changed)

end

end Transformer

/-- The code units of the code points that the expression matches. -/
def toUTF8 (m : Memory) (transformOther : RE → Except Fault (RE × Bool)) (r : RE)
    (useInternalNaming : Bool) : Except Fault RE := do
  return (← transform (transformCC m useInternalNaming) transformOther r).1

end RE

end Parabix
