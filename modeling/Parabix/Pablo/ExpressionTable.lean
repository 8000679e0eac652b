import Mathlib.Data.List.Basic
import Mathlib.Logic.Function.Basic
import Mathlib.Tactic.Common

namespace Parabix.Pablo

/-- A node of the expressions. A Var is one node whatever is assigned to it; the statements are
numbered in the order in which they are made. -/
inductive Node where
  | var (v : ℕ)
  | leaf (i : ℕ)
  | stmt (i : ℕ)
deriving DecidableEq, Repr

def Node.isVar : Node → Bool
  | var _ => true
  | _ => false

/-- The kinds of statements, and what a statement makes of the values of its operands. -/
structure Statements (T Value : Type*) where
  isIntrinsic : T → Bool
  meaning : T → List Value → Value

/-- What a statement is looked up by. -/
structure TableKey (T : Type*) where
  typeId : T
  args : List Node
deriving DecidableEq, Repr

abbrev Table (T : Type*) := List (TableKey T × Node)

/-- The table of a scope stands before those of the scopes around it. -/
structure ExpressionTable (T : Type*) where
  tables : List (Table T)
  next : ℕ
deriving Repr

namespace ExpressionTable

variable {T Value : Type*} [DecidableEq T] (S : Statements T Value)

/-- The Vars among the operands of an intrinsic call are not recognised: the test of the elements of
an array is the one for a type other than that of the nodes. -/
def contains_var (key : TableKey T) : Bool := !S.isIntrinsic key.typeId && key.args.any Node.isVar

def allow_recursion (key : TableKey T) : Bool := !contains_var S key

def lookup (table : Table T) (key : TableKey T) : Option Node :=
  (table.find? fun entry ↦ entry.1 = key).map Prod.snd

def findOuter : List (Table T) → TableKey T → Option Node
  | [], _ => none
  | pred :: outer, key => (lookup pred key).or (findOuter outer key)

def find (e : ExpressionTable T) (key : TableKey T) : Option Node :=
  match e.tables with
  | [] => none
  | table :: outer =>
    (lookup table key).or (if allow_recursion S key then findOuter outer key else none)

def insert (e : ExpressionTable T) (key : TableKey T) (object : Node) : ExpressionTable T where
  tables := match e.tables with
    | [] => []
    | table :: outer => ((key, object) :: table) :: outer
  next := e.next + 1

/-- The node that a call returns, and the table after it. -/
def findOrCall (e : ExpressionTable T) (key : TableKey T) : Node × ExpressionTable T :=
  match e.find S key with
  | some object => (object, e)
  | none => (.stmt e.next, e.insert key (.stmt e.next))

/-- The table of a scope inside this one. -/
def nested (e : ExpressionTable T) : ExpressionTable T := ⟨[] :: e.tables, e.next⟩

end ExpressionTable

/-- The calls of a builder: for a statement that is looked up by its operands, for an assignment,
and those for a branch, which are made while the scope of its body is open. -/
inductive Call (T : Type*) where
  | create (key : TableKey T)
  | assign (v : ℕ) (value : Node)
  | branch (isWhile : Bool) (condition : Node) (body : List (Call T))

namespace ExpressionTable

variable {T Value : Type*} [DecidableEq T] (S : Statements T Value)

mutual

def afterCall (e : ExpressionTable T) : Call T → ExpressionTable T
  | .create key => (e.findOrCall S key).2
  | .assign _ _ => e
  | .branch _ _ body => ⟨e.tables, (afterCalls e.nested body).next⟩

def afterCalls (e : ExpressionTable T) : List (Call T) → ExpressionTable T
  | [] => e
  | c :: calls => afterCalls (afterCall e c) calls

end

section Execution

variable (holds : Value → Prop)

/-- A new statement is executed where it is made. -/
def evaluate (e : ExpressionTable T) (key : TableKey T) (V : Node → Value) : Node → Value :=
  match e.find S key with
  | some _ => V
  | none => Function.update V (.stmt e.next) (S.meaning key.typeId (key.args.map V))

/-- The execution of what calls build, from the values before to those after it. -/
inductive Executes :
    ExpressionTable T → List (Call T) → (Node → Value) → (Node → Value) → Prop
  | nil (e : ExpressionTable T) (V : Node → Value) : Executes e [] V V
  | create {e : ExpressionTable T} {key : TableKey T} {calls : List (Call T)} {V V' : Node → Value}
    (h : Executes (e.findOrCall S key).2 calls (e.evaluate S key V) V') :
    Executes e (.create key :: calls) V V'
  | assign {e : ExpressionTable T} {v : ℕ} {value : Node} {calls : List (Call T)}
    {V V' : Node → Value} (h : Executes e calls (Function.update V (.var v) (V value)) V') :
    Executes e (.assign v value :: calls) V V'
  | skip {e : ExpressionTable T} {isWhile : Bool} {condition : Node} {body calls : List (Call T)}
    {V V' : Node → Value} (hc : ¬ holds (V condition))
    (h : Executes (e.afterCall S (.branch isWhile condition body)) calls V V') :
    Executes e (.branch isWhile condition body :: calls) V V'
  | once {e : ExpressionTable T} {condition : Node} {body calls : List (Call T)}
    {V V₁ V' : Node → Value} (hc : holds (V condition)) (hbody : Executes e.nested body V V₁)
    (h : Executes (e.afterCall S (.branch false condition body)) calls V₁ V') :
    Executes e (.branch false condition body :: calls) V V'
  | again {e : ExpressionTable T} {condition : Node} {body calls : List (Call T)}
    {V V₁ V' : Node → Value} (hc : holds (V condition)) (hbody : Executes e.nested body V V₁)
    (h : Executes e (.branch true condition body :: calls) V₁ V') :
    Executes e (.branch true condition body :: calls) V V'

/-- In an execution the point is reached at which a call with this key returned a node, and these
are the values there. -/
inductive Reaches :
    ExpressionTable T → List (Call T) → (Node → Value) → TableKey T → Node → (Node → Value) → Prop
  | here (e : ExpressionTable T) (key : TableKey T) (calls : List (Call T)) (V : Node → Value) :
    Reaches e (.create key :: calls) V key (e.findOrCall S key).1 (e.evaluate S key V)
  | create {e : ExpressionTable T} {key k : TableKey T} {r : Node} {calls : List (Call T)}
    {V V' : Node → Value}
    (h : Reaches (e.findOrCall S key).2 calls (e.evaluate S key V) k r V') :
    Reaches e (.create key :: calls) V k r V'
  | assign {e : ExpressionTable T} {v : ℕ} {value r : Node} {calls : List (Call T)} {k : TableKey T}
    {V V' : Node → Value} (h : Reaches e calls (Function.update V (.var v) (V value)) k r V') :
    Reaches e (.assign v value :: calls) V k r V'
  | skip {e : ExpressionTable T} {isWhile : Bool} {condition r : Node}
    {body calls : List (Call T)} {k : TableKey T} {V V' : Node → Value} (hc : ¬ holds (V condition))
    (h : Reaches (e.afterCall S (.branch isWhile condition body)) calls V k r V') :
    Reaches e (.branch isWhile condition body :: calls) V k r V'
  | inside {e : ExpressionTable T} {isWhile : Bool} {condition r : Node}
    {body calls : List (Call T)} {k : TableKey T} {V V' : Node → Value} (hc : holds (V condition))
    (h : Reaches e.nested body V k r V') :
    Reaches e (.branch isWhile condition body :: calls) V k r V'
  | once {e : ExpressionTable T} {condition r : Node} {body calls : List (Call T)} {k : TableKey T}
    {V V₁ V' : Node → Value} (hc : holds (V condition))
    (hbody : Executes S holds e.nested body V V₁)
    (h : Reaches (e.afterCall S (.branch false condition body)) calls V₁ k r V') :
    Reaches e (.branch false condition body :: calls) V k r V'
  | again {e : ExpressionTable T} {condition r : Node} {body calls : List (Call T)} {k : TableKey T}
    {V V₁ V' : Node → Value} (hc : holds (V condition))
    (hbody : Executes S holds e.nested body V V₁)
    (h : Reaches e (.branch true condition body :: calls) V₁ k r V') :
    Reaches e (.branch true condition body :: calls) V k r V'

end Execution

section Condition

mutual

/-- The Vars that are assigned. -/
def assignedBy : Call T → List ℕ
  | .create _ => []
  | .assign v _ => [v]
  | .branch _ _ body => assigned body

def assigned : List (Call T) → List ℕ
  | [] => []
  | c :: calls => assignedBy c ++ assigned calls

end

/-- A statement of which one of these Vars is an operand. -/
def Uses (e : ExpressionTable T) (vars : List ℕ) (r : Node) : Prop :=
  ∃ table ∈ e.tables, ∃ entry ∈ table, entry.2 = r ∧ ∃ v ∈ vars, Node.var v ∈ entry.1.args

mutual

/-- The operands of the calls are there when the calls are made. -/
def OperandsMade (e : ExpressionTable T) : Call T → Prop
  | .create key => ∀ i, Node.stmt i ∈ key.args → i < e.next
  | .assign _ _ => True
  | .branch _ _ body => AllMade e.nested body

def AllMade (e : ExpressionTable T) : List (Call T) → Prop
  | [] => True
  | c :: calls => OperandsMade e c ∧ AllMade (afterCall S e c) calls

end

mutual

/-- No call gets a statement back of which a Var was assigned since it was made, or is assigned
where the execution comes by again. -/
def FindsCurrent (e : ExpressionTable T) (stale : Node → Prop) : Call T → Prop
  | .create key => ∀ r, e.find S key = some r → ¬ stale r
  | .assign _ _ => True
  | .branch isWhile _ body =>
    AllCurrent e.nested (fun r ↦ stale r ∨ isWhile = true ∧ Uses e (assigned body) r) body

def AllCurrent (e : ExpressionTable T) (stale : Node → Prop) : List (Call T) → Prop
  | [] => True
  | c :: calls => FindsCurrent e stale c ∧
    AllCurrent (afterCall S e c) (fun r ↦ stale r ∨ Uses e (assignedBy c) r) calls

end

end Condition

end ExpressionTable

end Parabix.Pablo
