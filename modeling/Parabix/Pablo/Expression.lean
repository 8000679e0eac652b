import Parabix.Library.BitStream

namespace Parabix.Pablo

open Library.BitStream

inductive Intrinsic where
  | SpanUpTo
  | InclusiveSpan
  | ExclusiveSpan
deriving DecidableEq, Repr

/-- The statements of one operand that are no boolean operation. -/
inductive UnaryStatement where
  | InFile
  | AtEOF
  | Count
  | DebugPrint
  | Illustrator
deriving DecidableEq, Repr

/-- The statements of two operands that are no boolean operation. -/
inductive BinaryStatement where
  | Advance
  | ScanThru
  | AdvanceThenScanThru
  | ScanTo
  | AdvanceThenScanTo
  | Lookahead
  | MatchStar
  | TerminateAt
  | EveryNth
  | Repeat
  | PackH
  | PackL
deriving DecidableEq, Repr

/-- An expression, with the address at which each of its nodes is allocated. The constants of a
type are allocated once; whatever has no operands is a leaf. -/
inductive PabloAST where
  | Leaf (addr type : ℕ)
  | Zeroes (type : ℕ)
  | Ones (type : ℕ)
  | Not (addr : ℕ) (expr : PabloAST)
  | And (addr : ℕ) (expr1 expr2 : PabloAST)
  | Or (addr : ℕ) (expr1 expr2 : PabloAST)
  | Xor (addr : ℕ) (expr1 expr2 : PabloAST)
  | Sel (addr : ℕ) (condition trueExpr falseExpr : PabloAST)
  | Ternary (addr : ℕ) (mask : BitVec 8) (a b c : PabloAST)
  | IndexedAdvance (addr : ℕ) (expr indexStream shiftAmount : PabloAST)
  | Unary (addr : ℕ) (stmt : UnaryStatement) (type : ℕ) (expr : PabloAST)
  | Binary (addr : ℕ) (stmt : BinaryStatement) (type : ℕ) (expr1 expr2 : PabloAST)
  | IntrinsicCall (addr : ℕ) (intrinsic : Intrinsic) (type : ℕ) (expr1 expr2 : PabloAST)
deriving DecidableEq, Repr

namespace PabloAST

def getType : PabloAST → ℕ
  | Leaf _ type => type
  | Zeroes type => type
  | Ones type => type
  | Not _ expr => expr.getType
  | And _ expr1 _ => expr1.getType
  | Or _ expr1 _ => expr1.getType
  | Xor _ expr1 _ => expr1.getType
  | Sel _ _ trueExpr _ => trueExpr.getType
  | Ternary _ _ a _ _ => a.getType
  | IndexedAdvance _ expr _ _ => expr.getType
  | Unary _ _ type _ => type
  | Binary _ _ type _ _ => type
  | IntrinsicCall _ _ type _ _ => type

def isZeroes : PabloAST → Bool
  | Zeroes _ => true
  | _ => false

def isOnes : PabloAST → Bool
  | Ones _ => true
  | _ => false

def castNot : PabloAST → Option PabloAST
  | Not _ expr => some expr
  | _ => none

def castAnd : PabloAST → Option (PabloAST × PabloAST)
  | And _ expr1 expr2 => some (expr1, expr2)
  | _ => none

def castOr : PabloAST → Option (PabloAST × PabloAST)
  | Or _ expr1 expr2 => some (expr1, expr2)
  | _ => none

theorem isZeroes_iff {e : PabloAST} : e.isZeroes ↔ ∃ type, e = Zeroes type := by
  cases e <;> simp [isZeroes]

theorem isOnes_iff {e : PabloAST} : e.isOnes ↔ ∃ type, e = Ones type := by
  cases e <;> simp [isOnes]

theorem castNot_eq_some {e x : PabloAST} : e.castNot = some x ↔ ∃ addr, e = Not addr x := by
  cases e <;> simp [castNot]

theorem castAnd_eq_some {e : PabloAST} {x : PabloAST × PabloAST} :
    e.castAnd = some x ↔ ∃ addr, e = And addr x.1 x.2 := by
  cases e <;> simp [castAnd, Prod.ext_iff]

theorem castOr_eq_some {e : PabloAST} {x : PabloAST × PabloAST} :
    e.castOr = some x ↔ ∃ addr, e = Or addr x.1 x.2 := by
  cases e <;> simp [castOr, Prod.ext_iff]

end PabloAST

/-- What the bit streams of the leaves are, and what the statements that are no boolean operation
make of their operands. -/
structure Assignment where
  leaf : ℕ → Stream
  unary : UnaryStatement → ℕ → Stream → Stream
  binary : BinaryStatement → ℕ → Stream → Stream → Stream
  indexedAdvance : Stream → Stream → Stream → Stream
  intrinsic : Intrinsic → ℕ → Stream → Stream → Stream

/-- The bit of a mask for the operands `a`, `b`, `c`, as `simd_ternary` reads it. -/
def ternary (mask : BitVec 8) (a b c : Bool) : Bool :=
  mask.getLsbD (4 * a.toNat + 2 * b.toNat + c.toNat)

namespace PabloAST

def eval (ρ : Assignment) : PabloAST → Stream
  | Leaf addr _ => ρ.leaf addr
  | Zeroes _ => fun _ ↦ false
  | Ones _ => fun _ ↦ true
  | Not _ expr => fun p ↦ !expr.eval ρ p
  | And _ expr1 expr2 => fun p ↦ expr1.eval ρ p && expr2.eval ρ p
  | Or _ expr1 expr2 => fun p ↦ expr1.eval ρ p || expr2.eval ρ p
  | Xor _ expr1 expr2 => fun p ↦ expr1.eval ρ p ^^ expr2.eval ρ p
  | Sel _ condition trueExpr falseExpr => fun p ↦
    bif condition.eval ρ p then trueExpr.eval ρ p else falseExpr.eval ρ p
  | Ternary _ mask a b c => fun p ↦ ternary mask (a.eval ρ p) (b.eval ρ p) (c.eval ρ p)
  | IndexedAdvance _ expr indexStream shiftAmount =>
    ρ.indexedAdvance (expr.eval ρ) (indexStream.eval ρ) (shiftAmount.eval ρ)
  | Unary _ stmt type expr => ρ.unary stmt type (expr.eval ρ)
  | Binary _ stmt type expr1 expr2 => ρ.binary stmt type (expr1.eval ρ) (expr2.eval ρ)
  | IntrinsicCall _ intrinsic type expr1 expr2 =>
    ρ.intrinsic intrinsic type (expr1.eval ρ) (expr2.eval ρ)

/-- The intrinsic calls in an expression. -/
def calls : PabloAST → List PabloAST
  | Leaf _ _ | Zeroes _ | Ones _ => []
  | Not _ expr | Unary _ _ _ expr => expr.calls
  | And _ expr1 expr2 | Or _ expr1 expr2 | Xor _ expr1 expr2 | Binary _ _ _ expr1 expr2 =>
    expr1.calls ++ expr2.calls
  | Sel _ a b c | Ternary _ _ a b c | IndexedAdvance _ a b c => a.calls ++ b.calls ++ c.calls
  | IntrinsicCall addr intrinsic type expr1 expr2 =>
    IntrinsicCall addr intrinsic type expr1 expr2 :: (expr1.calls ++ expr2.calls)

def getIntrinsic : PabloAST → Option Intrinsic
  | IntrinsicCall _ intrinsic _ _ _ => some intrinsic
  | _ => none

section Operations

variable {ρ : Assignment} {addr type : ℕ} {mask : BitVec 8} {a b c : PabloAST}

theorem eval_zeroes : (Zeroes type).eval ρ = fun _ ↦ false := rfl

theorem eval_ones : (Ones type).eval ρ = fun _ ↦ true := rfl

theorem eval_not : (Not addr a).eval ρ = fun p ↦ !a.eval ρ p := rfl

theorem eval_and : (And addr a b).eval ρ = fun p ↦ a.eval ρ p && b.eval ρ p := rfl

theorem eval_or : (Or addr a b).eval ρ = fun p ↦ a.eval ρ p || b.eval ρ p := rfl

theorem eval_xor : (Xor addr a b).eval ρ = fun p ↦ a.eval ρ p ^^ b.eval ρ p := rfl

theorem eval_ternary : (Ternary addr mask a b c).eval ρ =
    fun p ↦ ternary mask (a.eval ρ p) (b.eval ρ p) (c.eval ρ p) :=
  rfl

theorem calls_and : (And addr a b).calls = a.calls ++ b.calls := rfl

theorem calls_or : (Or addr a b).calls = a.calls ++ b.calls := rfl

end Operations

end PabloAST

/-- What a new statement is looked up by in the table of expressions. -/
inductive Key where
  | Not (expr : PabloAST)
  | And (expr1 expr2 : PabloAST)
  | Or (expr1 expr2 : PabloAST)
  | Xor (expr1 expr2 : PabloAST)
  | Sel (condition trueExpr falseExpr : PabloAST)
  | Ternary (mask : BitVec 8) (a b c : PabloAST)

/-- Where the allocator puts the nodes: the order of two addresses, and the address of the
statement that the table of expressions holds, or is given, for a key. -/
structure Heap where
  less : PabloAST → PabloAST → Bool
  findOrCall : Key → ℕ

section Equals

variable (h : Heap)

/-- The operands of a commutative statement in the order of their addresses. -/
def sortOperands (expr1 expr2 : PabloAST) : PabloAST × PabloAST :=
  if h.less expr2 expr1 then (expr2, expr1) else (expr1, expr2)

/-- The statements of one class are compared by their operands. An intrinsic call has the class
of every other intrinsic call. -/
def equals : PabloAST → PabloAST → Bool
  | .Zeroes type1, .Zeroes type2 => type1 == type2
  | .Ones type1, .Ones type2 => type1 == type2
  | .Not i e, .Not j f =>
    PabloAST.Not i e == .Not j f || (e.getType == f.getType && equals e f)
  | .And i e1 e2, .And j f1 f2 =>
    PabloAST.And i e1 e2 == .And j f1 f2 ||
      (e1.getType == f1.getType && sortOperands h e1 e2 == sortOperands h f1 f2)
  | .Or i e1 e2, .Or j f1 f2 =>
    PabloAST.Or i e1 e2 == .Or j f1 f2 ||
      (e1.getType == f1.getType && sortOperands h e1 e2 == sortOperands h f1 f2)
  | .Xor i e1 e2, .Xor j f1 f2 =>
    PabloAST.Xor i e1 e2 == .Xor j f1 f2 ||
      (e1.getType == f1.getType && sortOperands h e1 e2 == sortOperands h f1 f2)
  | .Sel i e1 e2 e3, .Sel j f1 f2 f3 =>
    PabloAST.Sel i e1 e2 e3 == .Sel j f1 f2 f3 ||
      (e2.getType == f2.getType && equals e1 f1 && equals e2 f2 && equals e3 f3)
  | .Ternary i m e1 e2 e3, .Ternary j n f1 f2 f3 =>
    PabloAST.Ternary i m e1 e2 e3 == .Ternary j n f1 f2 f3 ||
      (e1.getType == f1.getType && m == n && equals e1 f1 && equals e2 f2 && equals e3 f3)
  | .IndexedAdvance i e1 e2 e3, .IndexedAdvance j f1 f2 f3 =>
    PabloAST.IndexedAdvance i e1 e2 e3 == .IndexedAdvance j f1 f2 f3 ||
      (e1.getType == f1.getType && equals e1 f1 && equals e2 f2 && equals e3 f3)
  | .Unary i s t e, .Unary j s' t' f =>
    PabloAST.Unary i s t e == .Unary j s' t' f || (s == s' && t == t' && equals e f)
  | .Binary i s t e1 e2, .Binary j s' t' f1 f2 =>
    PabloAST.Binary i s t e1 e2 == .Binary j s' t' f1 f2 ||
      (s == s' && t == t' && equals e1 f1 && equals e2 f2)
  | .IntrinsicCall i s t e1 e2, .IntrinsicCall j s' t' f1 f2 =>
    PabloAST.IntrinsicCall i s t e1 e2 == .IntrinsicCall j s' t' f1 f2 ||
      (t == t' && equals e1 f1 && equals e2 f2)
  | expr1, expr2 => expr1 == expr2

theorem sortOperands_eval {e1 e2 f1 f2 : PabloAST} (ρ : Assignment) (op : Bool → Bool → Bool)
    (hop : ∀ a b, op a b = op b a) (hs : sortOperands h e1 e2 = sortOperands h f1 f2) :
    (fun p ↦ op (e1.eval ρ p) (e2.eval ρ p)) = fun p ↦ op (f1.eval ρ p) (f2.eval ρ p) := by
  unfold sortOperands at hs
  funext p
  split_ifs at hs <;> simp only [Prod.mk.injEq] at hs <;> obtain ⟨rfl, rfl⟩ := hs
  · rfl
  · exact hop _ _
  · exact hop _ _
  · rfl

/-- Intrinsic calls that `equals` takes for the same are calls of the same intrinsic. -/
def CallsApart (cs : List PabloAST) : Prop :=
  ∀ x ∈ cs, ∀ y ∈ cs, equals h x y → x.getIntrinsic = y.getIntrinsic

variable {h} {cs : List PabloAST}

/-- Expressions that `equals` takes for the same have the same value. -/
theorem equals_eval (hc : CallsApart h cs) (ρ : Assignment) (e f : PabloAST)
    (he : e.calls ⊆ cs) (hf : f.calls ⊆ cs) (heq : equals h e f) : e.eval ρ = f.eval ρ := by
  fun_induction equals h e f with
  | case1 t u => rfl
  | case2 t u => rfl
  | case3 i e j f ih =>
    simp only [Bool.or_eq_true, beq_iff_eq, Bool.and_eq_true] at heq
    obtain heq | ⟨-, heq⟩ := heq
    · rw [heq]
    · simp only [PabloAST.eval, ih he hf heq]
  | case4 i e1 e2 j f1 f2 =>
    simp only [Bool.or_eq_true, beq_iff_eq, Bool.and_eq_true] at heq
    obtain heq | ⟨-, heq⟩ := heq
    · rw [heq]
    · exact sortOperands_eval h ρ _ Bool.and_comm heq
  | case5 i e1 e2 j f1 f2 =>
    simp only [Bool.or_eq_true, beq_iff_eq, Bool.and_eq_true] at heq
    obtain heq | ⟨-, heq⟩ := heq
    · rw [heq]
    · exact sortOperands_eval h ρ _ Bool.or_comm heq
  | case6 i e1 e2 j f1 f2 =>
    simp only [Bool.or_eq_true, beq_iff_eq, Bool.and_eq_true] at heq
    obtain heq | ⟨-, heq⟩ := heq
    · rw [heq]
    · exact sortOperands_eval h ρ _ Bool.xor_comm heq
  | case7 i e1 e2 e3 j f1 f2 f3 ih1 ih2 ih3 =>
    simp only [Bool.or_eq_true, beq_iff_eq, Bool.and_eq_true] at heq
    simp only [PabloAST.calls, List.append_subset] at he hf
    obtain heq | ⟨⟨⟨-, h1⟩, h2⟩, h3⟩ := heq
    · rw [heq]
    · simp only [PabloAST.eval, ih1 he.1.1 hf.1.1 h1, ih2 he.1.2 hf.1.2 h2, ih3 he.2 hf.2 h3]
  | case8 i m e1 e2 e3 j n f1 f2 f3 ih1 ih2 ih3 =>
    simp only [Bool.or_eq_true, beq_iff_eq, Bool.and_eq_true] at heq
    simp only [PabloAST.calls, List.append_subset] at he hf
    obtain heq | ⟨⟨⟨⟨-, hm⟩, h1⟩, h2⟩, h3⟩ := heq
    · rw [heq]
    · simp only [PabloAST.eval, hm, ih1 he.1.1 hf.1.1 h1, ih2 he.1.2 hf.1.2 h2,
        ih3 he.2 hf.2 h3]
  | case9 i e1 e2 e3 j f1 f2 f3 ih1 ih2 ih3 =>
    simp only [Bool.or_eq_true, beq_iff_eq, Bool.and_eq_true] at heq
    simp only [PabloAST.calls, List.append_subset] at he hf
    obtain heq | ⟨⟨⟨-, h1⟩, h2⟩, h3⟩ := heq
    · rw [heq]
    · simp only [PabloAST.eval, ih1 he.1.1 hf.1.1 h1, ih2 he.1.2 hf.1.2 h2, ih3 he.2 hf.2 h3]
  | case10 i s t e j s' t' f ih =>
    simp only [Bool.or_eq_true, beq_iff_eq, Bool.and_eq_true] at heq
    obtain heq | ⟨⟨rfl, rfl⟩, heq⟩ := heq
    · rw [heq]
    · simp only [PabloAST.eval, ih he hf heq]
  | case11 i s t e1 e2 j s' t' f1 f2 ih1 ih2 =>
    simp only [Bool.or_eq_true, beq_iff_eq, Bool.and_eq_true] at heq
    simp only [PabloAST.calls, List.append_subset] at he hf
    obtain heq | ⟨⟨⟨rfl, rfl⟩, h1⟩, h2⟩ := heq
    · rw [heq]
    · simp only [PabloAST.eval, ih1 he.1 hf.1 h1, ih2 he.2 hf.2 h2]
  | case12 i s t e1 e2 j s' t' f1 f2 ih1 ih2 =>
    have hs : s = s' := by
      have := hc _ (he (List.mem_cons_self ..)) _ (hf (List.mem_cons_self ..))
      simpa [PabloAST.getIntrinsic, equals] using this (by simpa [equals] using heq)
    simp only [Bool.or_eq_true, beq_iff_eq, Bool.and_eq_true] at heq
    simp only [PabloAST.calls, List.cons_subset, List.append_subset] at he hf
    obtain heq | ⟨⟨rfl, h1⟩, h2⟩ := heq
    · rw [heq]
    · simp only [PabloAST.eval, hs, ih1 he.2.1 hf.2.1 h1, ih2 he.2.2 hf.2.2 h2]
  | case13 e f =>
    rw [beq_iff_eq] at heq
    rw [heq]

end Equals

end Parabix.Pablo
