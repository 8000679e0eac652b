import Parabix.Library.CanonicalOrder
import Parabix.Library.Expansion
import Parabix.Library.Fault
import Parabix.Unicode.Hangul

namespace Parabix.UCD

open Library Unicode

/-- The options are a set of flags. -/
abbrev DecompositionOptions := ℕ

namespace DecompositionOptions

def NFD : DecompositionOptions := 0

def CaseFold : DecompositionOptions := 1

def NFKD : DecompositionOptions := 2

end DecompositionOptions

open DecompositionOptions

def hasOption (optionSet testOption : DecompositionOptions) : Bool :=
  testOption &&& optionSet != 0

/-- The options, and the tables of the properties. The value of a combining class is its number in
the order of the classes, and zero for the class of the characters that are not reordered. -/
structure NFD_Engine where
  mOptions : DecompositionOptions
  canonicalMapped : ℕ → Bool
  decompMapping : ℕ → List ℕ
  ccc : ℕ → ℕ
  selfNFKD : ℕ → Bool
  caseFold : ℕ → List ℕ
  selfCaseFold : ℕ → Bool

namespace NFD_Engine

variable (E : NFD_Engine)

def reordering_needed (pre : List ℕ) (suffix_cp : ℕ) : Bool :=
  match pre.getLast? with
  | none => false
  | some back => if E.ccc suffix_cp = 0 then false else decide (E.ccc suffix_cp < E.ccc back)

/-- The calls are nested no deeper than `fuel`. -/
def NFD_append1 : ℕ → List ℕ → ℕ → Except Fault (List ℕ)
  | 0, _, _ => .error .fuel
  | fuel + 1, NFD_string, cp =>
    if Hangul.Precomposed cp then
      .ok (NFD_string ++ Hangul.decomposition cp)
    else if E.canonicalMapped cp then
      (E.decompMapping cp).foldlM (NFD_append1 fuel) NFD_string
    else if E.reordering_needed NFD_string cp then
      -- The last two characters in the other order.
      [cp, NFD_string.getLastD 0].foldlM (NFD_append1 fuel) NFD_string.dropLast
    else if hasOption E.mOptions CaseFold && !E.selfCaseFold cp then
      (E.caseFold cp).foldlM (NFD_append1 fuel) NFD_string
    else if hasOption E.mOptions NFKD && !E.selfNFKD cp then
      (E.decompMapping cp).foldlM (NFD_append1 fuel) NFD_string
    else
      .ok (NFD_string ++ [cp])

def NFD_append (fuel : ℕ) (NFD_string to_convert : List ℕ) : Except Fault (List ℕ) :=
  to_convert.foldlM (E.NFD_append1 fuel) NFD_string

def decompose (fuel : ℕ) (to_decompose : List ℕ) : Except Fault (List ℕ) :=
  E.NFD_append fuel [] to_decompose

section Meaning

/-- The canonical decomposition mapping of a character. -/
def canonicalStep (c : ℕ) : Option (List ℕ) :=
  if Hangul.Precomposed c then some (Hangul.decomposition c)
  else if E.canonicalMapped c then some (E.decompMapping c)
  else none

/-- The decomposition mapping of a character, with the compatibility mappings for this option. -/
def fullStep (c : ℕ) : Option (List ℕ) :=
  (E.canonicalStep c).or <|
    if hasOption E.mOptions NFKD && !E.selfNFKD c then some (E.decompMapping c) else none

def fold (c : ℕ) : List ℕ := if E.selfCaseFold c then [c] else E.caseFold c

/-- The ordered decomposition of a string, for the option to fold cases of its folded canonical
decomposition. -/
def IsDecomposition (s r : List ℕ) : Prop :=
  if hasOption E.mOptions CaseFold then
    ∃ d n e, Expands E.canonicalStep s d ∧ IsOrdering E.ccc d n ∧
      Expands E.fullStep (n.flatMap E.fold) e ∧ IsOrdering E.ccc e r
  else ∃ e, Expands E.fullStep s e ∧ IsOrdering E.ccc e r

/-- The engine returns the decomposition of a string. -/
def Decomposes (s : List ℕ) : Prop :=
  ∃ r, (∃ fuel₀, ∀ fuel ≥ fuel₀, E.decompose fuel s = .ok r) ∧ E.IsDecomposition s r

/-- No character is found again in what the tables map it to. -/
def Acyclic : Prop := WellFounded fun d c ↦ (∃ l, E.canonicalStep c = some l ∧ d ∈ l) ∨
  (E.selfCaseFold c = false ∧ d ∈ E.caseFold c) ∨ E.selfNFKD c = false ∧ d ∈ E.decompMapping c

end Meaning

section Condition

/-- A character that is mapped after the test for a reordering. -/
def mappedStep (c : ℕ) : Option (List ℕ) :=
  if hasOption E.mOptions CaseFold && !E.selfCaseFold c then some (E.caseFold c)
  else if hasOption E.mOptions NFKD && !E.selfNFKD c then some (E.decompMapping c)
  else none

/-- What the engine makes of a character, wherever it puts it. -/
def engineStep (c : ℕ) : Option (List ℕ) := (E.canonicalStep c).or (E.mappedStep c)

/-- The marks since the last starter. -/
def lastMarks (s : List ℕ) : List ℕ := s.reverse.takeWhile fun c ↦ E.ccc c ≠ 0

/-- A mark that is mapped is in order with the other marks between the same starters. The marks
since the last starter stand first. -/
def Settled : List ℕ → List ℕ → Prop
  | _, [] => True
  | marks, c :: d =>
    if E.ccc c = 0 then Settled [] d
    else (∀ a ∈ marks, E.mappedStep a ≠ none ∨ E.mappedStep c ≠ none → E.ccc a ≤ E.ccc c) ∧
      Settled (c :: marks) d

/-- The characters that are found in the mappings of a string. -/
def Reaches (step : ℕ → Option (List ℕ)) (s : List ℕ) (c : ℕ) : Prop :=
  ∃ a ∈ s, Relation.ReflTransGen (fun a b ↦ Derives step b a) a c

/-- Whether the order in which a string is mapped and put in order does not matter. -/
structure InPlace (s : List ℕ) : Prop where
  jamo (c : ℕ) (hc : Reaches E.engineStep s c) (hp : Hangul.Precomposed c) :
    ∀ j ∈ Hangul.decomposition c, E.engineStep j = none ∧ E.ccc j = 0
  greatest (w : List ℕ) (c : ℕ) (hc : Meets E.engineStep s w c) (hnone : E.canonicalStep c = none)
    (hmapped : E.mappedStep c ≠ none) (hmark : E.ccc c ≠ 0) : ∀ x ∈ E.lastMarks w, E.ccc x ≤ E.ccc c
  settled (hfold : hasOption E.mOptions CaseFold = true) (d : List ℕ)
    (hd : Expands E.canonicalStep s d) : E.Settled [] d
  once (hfold : hasOption E.mOptions CaseFold = true) (d : List ℕ)
    (hd : Expands E.canonicalStep s d) (c : ℕ) (hc : c ∈ d) (x : ℕ)
    (hx : Reaches E.fullStep (E.fold c) x) (hnone : E.canonicalStep x = none) :
    E.selfCaseFold x = true

end Condition

end NFD_Engine

end Parabix.UCD
