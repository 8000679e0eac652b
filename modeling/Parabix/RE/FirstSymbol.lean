import Parabix.RE.ExcludeCC
import Parabix.RE.Nullable
import Parabix.RE.RemoveNullable

namespace Parabix.RE

open Library Library.Powers Library.Encoding UCD
open LineAnchors (Side)
open NullableRemover (followed)
open Memoization (PropertyKind Mode GroupSense)

namespace Expression

/-- The classes that may follow on those of the keys. -/
abbrev FollowMap := List (CC × CC)

section Analysis

def combine : Option CC → Option CC → Except Fault (Option CC)
  | some a, some b => do
    return some (← a.union b)
  | none, b => .ok b
  | a, none => .ok a

/-- The classes of the items from a side on, up to the first one that is not nullable. -/
def edgeItems : List (Expression × Except Fault (Option CC)) → Option CC →
    Except Fault (Option CC)
  | [], found => .ok found
  | (si, t) :: items, found => do
    let c ← t
    let found ← combine found c
    if isNullable si then edgeItems items found else return found

def altClasses : List (Expression × Except Fault (Option CC)) → Option CC →
    Except Fault (Option CC)
  | [], found => .ok found
  | (_, t) :: items, found => do
    let c ← t
    let found ← combine found c
    altClasses items found

/-- The class of an operation, if both operands have one. -/
def operationClass (f : CC → CC → Except Fault CC) (lh rh : Except Fault (Option CC)) :
    Except Fault (Option CC) := do
  match ← lh with
  | none => return none
  | some l =>
    match ← rh with
    | none => return none
    | some r => return some (← f l r)

def UndefinedNameError (n : String) : Fault :=
  .fatal ("Error: Undefined name in regular expression: \"" ++ n ++ "\".")

mutual

/-- The class of the characters that a match can begin with, or end in. -/
def edge (side : Side) : Expression → Except Fault (Option CC)
  | name _ (some definition) => edge side definition
  | name n none => .error (UndefinedNameError n)
  | cc c => .ok (some c)
  | any _ => .ok (some ⟨.range zeroed 0 unicodeMax, Unicode⟩)
  | seq elems => edgeItems (ordered side (edges side elems)) none
  | alt elems => altClasses (edges side elems) none
  | rep re _ _ => edge side re
  | diff lh rh => operationClass subtractCC (edge side lh) (edge side rh)
  | intersect lh rh => operationClass intersectCC (edge side lh) (edge side rh)
  | _ => .ok none

def edges (side : Side) : List Expression → List (Expression × Except Fault (Option CC))
  | [] => []
  | e :: elems => (e, edge side e) :: edges side elems

end

def first : Expression → Except Fault (Option CC) := edge .front

def final : Expression → Except Fault (Option CC) := edge .back

-- Whether two classes are one object.
variable (same : CC → CC → Bool)

def addFollow (e1 e2 : CC) : FollowMap → Except Fault FollowMap
  | [] => .ok [(e1, e2)]
  | entry :: follows =>
    if same entry.1 e1 then do
      return (entry.1, ← entry.2.union e2) :: follows
    else do
      return entry :: (← addFollow e1 e2 follows)

/-- The classes on the two sides of a place between characters. -/
def seam (e1 e2 : Option CC) (follows : FollowMap) : Except Fault FollowMap :=
  match e1, e2 with
  | some e1, some e2 => addFollow same e1 e2 follows
  | _, _ => .ok follows

mutual

def follow : Expression → FollowMap → Except Fault FollowMap
  | name _ (some definition), follows => follow definition follows
  | name n none, _ => .error (UndefinedNameError n)
  | seq [], follows => .ok follows
  | seq (re_first :: rest), follows => do
    let e1 ← final re_first
    let e2 ← first (makeSeq rest)
    let follows ← seam same e1 e2 follows
    let follows ← follow re_first follows
    follow (makeSeq rest) follows
  | alt elems, follows => followAll elems follows
  | rep re _ _, follows => do
    let e1 ← final re
    let e2 ← first re
    let follows ← seam same e1 e2 follows
    follow re follows
  | _, follows => .ok follows
termination_by e => sizeOf e
decreasing_by
  all_goals first
    | exact sizeOf_makeSeq_lt _ _
    | (simp_wf <;> omega)

def followAll : List Expression → FollowMap → Except Fault FollowMap
  | [], follows => .ok follows
  | e :: elems, follows => do
    let follows ← follow e follows
    followAll elems follows
termination_by elems => sizeOf elems

end

def getFirstUniqueSymbol (re : Expression) : Except Fault (Option CC) := do
  match ← first re with
  | none => return none
  | some re_first =>
    let follows ← follow same re []
    if follows.any fun entry ↦ entry.2.set.intersects re_first.set then return none
    else return some re_first

end Analysis

end Expression

end Parabix.RE
