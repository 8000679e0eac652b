import Parabix.Library.Fault
import Parabix.Pablo.Expression

namespace Parabix.Pablo

open Library Library.BitStream

section Constructors

variable (h : Heap)

def makeNot (expr : PabloAST) : PabloAST :=
  .Not (h.findOrCall (.Not expr)) expr

def makeAnd (expr1 expr2 : PabloAST) : PabloAST :=
  let (expr1, expr2) := sortOperands h expr1 expr2
  .And (h.findOrCall (.And expr1 expr2)) expr1 expr2

def makeOr (expr1 expr2 : PabloAST) : PabloAST :=
  let (expr1, expr2) := sortOperands h expr1 expr2
  .Or (h.findOrCall (.Or expr1 expr2)) expr1 expr2

def makeXor (expr1 expr2 : PabloAST) : PabloAST :=
  let (expr1, expr2) := sortOperands h expr1 expr2
  .Xor (h.findOrCall (.Xor expr1 expr2)) expr1 expr2

def makeSel (condition trueExpr falseExpr : PabloAST) : PabloAST :=
  .Sel (h.findOrCall (.Sel condition trueExpr falseExpr)) condition trueExpr falseExpr

def createTernary (mask : BitVec 8) (a b c : PabloAST) : PabloAST :=
  .Ternary (h.findOrCall (.Ternary mask a b c)) mask a b c

def createNot (expr : PabloAST) : PabloAST :=
  match expr with
  | .Ones type => .Zeroes type
  | .Zeroes type => .Ones type
  | .Not _ not1 => not1
  | .Ternary _ mask a b c => createTernary h (mask ^^^ 0xFF) a b c
  | expr => makeNot h expr

mutual

def createAnd : ℕ → PabloAST → PabloAST → Except Fault PabloAST
  | 0, _, _ => .error .fuel
  | fuel + 1, expr1, expr2 =>
    if expr2.isZeroes || expr1.isOnes then
      .ok expr2
    else if expr1.isZeroes || expr2.isOnes || equals h expr1 expr2 then
      .ok expr1
    else
      match expr1.castNot, expr2.castNot with
      | some not1, some not2 => do
        let or ← createOr fuel not1 not2
        return createNot h or
      | some not1, none =>
        if equals h not1 expr2 then
          .ok (.Zeroes expr1.getType)
        else
          .ok (makeAnd h expr1 expr2)
      | none, some not2 =>
        if equals h expr1 not2 then
          .ok (.Zeroes expr1.getType)
        else
          .ok (makeAnd h expr1 expr2)
      | none, none =>
        match expr1.castOr, expr2.castOr with
        | some or1, _ =>
          if equals h or1.1 expr2 || equals h or1.2 expr2 then
            .ok expr2
          else
            .ok (makeAnd h expr1 expr2)
        | none, some or2 =>
          if equals h or2.1 expr1 || equals h or2.2 expr1 then
            .ok expr1
          else
            .ok (makeAnd h expr1 expr2)
        | none, none => .ok (makeAnd h expr1 expr2)

def createOr : ℕ → PabloAST → PabloAST → Except Fault PabloAST
  | 0, _, _ => .error .fuel
  | fuel + 1, expr1, expr2 =>
    if expr1.isZeroes || expr2.isOnes then
      .ok expr2
    else if expr2.isZeroes || expr1.isOnes || equals h expr1 expr2 then
      .ok expr1
    else
      match expr1.castNot, expr2.castNot with
      | some not1, _ => do
        -- ¬a∨b = ¬¬(¬a ∨ b) = ¬(a ∧ ¬b)
        let and ← createAnd fuel not1 (createNot h expr2)
        return createNot h and
      | none, some not2 => do
        -- a∨¬b = ¬¬(¬b ∨ a) = ¬(b ∧ ¬a)
        let and ← createAnd fuel not2 (createNot h expr1)
        return createNot h and
      | none, none =>
        if equals h expr1 expr2 then
          .ok expr1
        else
          match expr1.castAnd, expr2.castAnd with
          | some (expr1a, expr1b), some (expr2a, expr2b) =>
            if equals h expr1a expr2a then do
              createAnd fuel expr1a (← createOr fuel expr1b expr2b)
            else if equals h expr1b expr2b then do
              createAnd fuel expr1b (← createOr fuel expr1a expr2a)
            else if equals h expr1a expr2b then do
              createAnd fuel expr1a (← createOr fuel expr1b expr2a)
            else if equals h expr1b expr2a then do
              createAnd fuel expr1b (← createOr fuel expr1a expr2b)
            else
              .ok (makeOr h expr1 expr2)
          | some (expr1a, expr1b), none =>
            -- (a ∧ b) ∨ a = a
            if equals h expr1a expr2 || equals h expr1b expr2 then
              .ok expr2
            else
              .ok (makeOr h expr1 expr2)
          | none, some (expr2a, expr2b) =>
            if equals h expr2a expr1 || equals h expr2b expr1 then
              .ok expr1
            else
              .ok (makeOr h expr1 expr2)
          | none, none => .ok (makeOr h expr1 expr2)

end

def createXor (expr1 expr2 : PabloAST) : PabloAST :=
  if expr1 = expr2 then
    .Zeroes expr1.getType
  else if expr1.isOnes then
    createNot h expr2
  else if expr1.isZeroes then
    expr2
  else if expr2.isOnes then
    createNot h expr1
  else if expr2.isZeroes then
    expr1
  else
    match expr1, expr2 with
    | .Not _ not1, .Not _ not2 => createXor not1 not2
    | expr1, expr2 => makeXor h expr1 expr2

def createSel (fuel : ℕ) (condition trueExpr falseExpr : PabloAST) : Except Fault PabloAST :=
  if condition.isOnes then
    .ok trueExpr
  else if condition.isZeroes then
    .ok falseExpr
  else if trueExpr.isOnes then
    createOr h fuel condition falseExpr
  else if trueExpr.isZeroes then
    createAnd h fuel (createNot h condition) falseExpr
  else if falseExpr.isOnes then
    createOr h fuel (createNot h condition) trueExpr
  else if falseExpr.isZeroes then
    createAnd h fuel condition trueExpr
  else if equals h trueExpr falseExpr then
    .ok trueExpr
  else if trueExpr.castNot.any (equals h · falseExpr) then
    .ok (createXor h condition falseExpr)
  else if falseExpr.castNot.any (equals h trueExpr ·) then
    .ok (createXor h condition trueExpr)
  else
    .ok (makeSel h condition trueExpr falseExpr)

def createAnd3 (fuel : ℕ) (expr1 expr2 expr3 : PabloAST) : Except Fault PabloAST :=
  if expr1.isZeroes || expr2.isZeroes || expr3.isZeroes then
    .ok (.Zeroes expr1.getType)
  else if expr1.isOnes && expr2.isOnes then
    .ok expr3
  else if expr2.isOnes && expr3.isOnes then
    .ok expr1
  else if expr1.isOnes && expr3.isOnes then
    .ok expr2
  else if expr1.isOnes then
    createAnd h fuel expr2 expr3
  else if expr2.isOnes then
    createAnd h fuel expr1 expr3
  else if expr3.isOnes then
    createAnd h fuel expr1 expr2
  else
    .ok (createTernary h 0x80 expr1 expr2 expr3)

def createOr3 (fuel : ℕ) (expr1 expr2 expr3 : PabloAST) : Except Fault PabloAST :=
  if expr1.isOnes || expr2.isOnes || expr3.isOnes then
    .ok (.Ones expr1.getType)
  else if expr1.isZeroes && expr2.isZeroes then
    .ok expr3
  else if expr2.isZeroes && expr3.isZeroes then
    .ok expr1
  else if expr1.isZeroes && expr3.isZeroes then
    .ok expr2
  else if expr1.isZeroes then
    createOr h fuel expr2 expr3
  else if expr2.isZeroes then
    createOr h fuel expr1 expr3
  else if expr3.isZeroes then
    createOr h fuel expr1 expr2
  else
    .ok (createTernary h 0xFE expr1 expr2 expr3)

def createXor3 (expr1 expr2 expr3 : PabloAST) : PabloAST :=
  if expr1.isOnes && expr2.isOnes && expr3.isOnes then
    .Ones expr1.getType
  else if expr1.isZeroes && expr2.isZeroes && expr3.isZeroes then
    .Zeroes expr1.getType
  else if equals h expr1 expr2 && equals h expr2 expr3 then
    expr1
  else if equals h expr1 expr2 then
    createXor h expr3 (.Zeroes expr1.getType)
  else if equals h expr1 expr3 then
    createXor h expr2 (.Zeroes expr1.getType)
  else if equals h expr2 expr3 then
    createXor h expr1 (.Zeroes expr2.getType)
  else
    createTernary h 0x96 expr1 expr2 expr3

def createMajority3 (expr1 expr2 expr3 : PabloAST) : PabloAST :=
  if expr1.isZeroes && expr2.isZeroes then
    .Zeroes expr1.getType
  else if expr1.isZeroes && expr3.isZeroes then
    .Zeroes expr1.getType
  else if expr2.isZeroes && expr3.isZeroes then
    .Zeroes expr2.getType
  else if expr1.isOnes && expr2.isOnes then
    .Ones expr1.getType
  else if expr1.isOnes && expr3.isOnes then
    .Ones expr1.getType
  else if expr2.isOnes && expr3.isOnes then
    .Ones expr2.getType
  else
    createTernary h 0xE8 expr1 expr2 expr3

def createAndOr (fuel : ℕ) (andExpr1 orExpr1 orExpr2 : PabloAST) : Except Fault PabloAST :=
  if andExpr1.isZeroes then
    .ok (.Zeroes andExpr1.getType)
  else if andExpr1.isOnes then
    createOr h fuel orExpr1 orExpr2
  else if orExpr1.isOnes || orExpr2.isOnes then
    .ok andExpr1
  else if orExpr1.isZeroes then
    createAnd h fuel andExpr1 orExpr2
  else if orExpr2.isZeroes || equals h orExpr1 orExpr2 then
    createAnd h fuel andExpr1 orExpr1
  else
    .ok (createTernary h 0xE0 andExpr1 orExpr1 orExpr2)

def createAndXor (andExpr1 xorExpr1 xorExpr2 : PabloAST) : PabloAST :=
  if andExpr1.isZeroes || equals h xorExpr1 xorExpr2 then
    .Zeroes andExpr1.getType
  else if andExpr1.isOnes then
    createXor h xorExpr1 xorExpr2
  else if xorExpr1.isOnes && xorExpr2.isZeroes then
    andExpr1
  else if xorExpr1.isZeroes && xorExpr2.isOnes then
    andExpr1
  else
    createTernary h 0x60 andExpr1 xorExpr1 xorExpr2

def createOrAnd (fuel : ℕ) (orExpr1 andExpr1 andExpr2 : PabloAST) : Except Fault PabloAST :=
  if orExpr1.isOnes then
    .ok (.Ones orExpr1.getType)
  else if orExpr1.isZeroes then
    createAnd h fuel andExpr1 andExpr2
  else if equals h andExpr1 andExpr2 then
    createOr h fuel orExpr1 andExpr1
  else if andExpr1.isZeroes || andExpr2.isZeroes then
    .ok orExpr1
  else
    .ok (createTernary h 0xF8 orExpr1 andExpr1 andExpr2)

def createOrXor (orExpr1 xorExpr1 xorExpr2 : PabloAST) : PabloAST :=
  if orExpr1.isOnes then
    .Ones orExpr1.getType
  else if orExpr1.isZeroes then
    createXor h xorExpr1 xorExpr2
  else if equals h xorExpr1 xorExpr2 then
    orExpr1
  else if xorExpr1.isOnes && xorExpr2.isZeroes then
    .Ones orExpr1.getType
  else if xorExpr1.isZeroes && xorExpr2.isOnes then
    .Ones orExpr1.getType
  else
    createTernary h 0xF6 orExpr1 xorExpr1 xorExpr2

def createXorAnd (xorExpr1 andExpr1 andExpr2 : PabloAST) : PabloAST :=
  if equals h andExpr1 andExpr2 then
    createXor h xorExpr1 andExpr1
  else if andExpr1.isZeroes || andExpr2.isOnes then
    createXor h xorExpr1 andExpr1
  else if andExpr1.isOnes || andExpr2.isZeroes then
    createXor h xorExpr1 andExpr2
  else
    createTernary h 0x78 xorExpr1 andExpr1 andExpr2

def createXorOr (xorExpr1 orExpr1 orExpr2 : PabloAST) : PabloAST :=
  if orExpr1.isOnes || orExpr2.isOnes then
    createXor h xorExpr1 (.Ones xorExpr1.getType)
  else if equals h orExpr1 orExpr1 then
    createXor h xorExpr1 (.Zeroes xorExpr1.getType)
  else if orExpr1.isOnes || orExpr2.isZeroes then
    createXor h xorExpr1 orExpr1
  else if orExpr1.isZeroes || orExpr2.isOnes then
    createXor h xorExpr1 orExpr2
  else
    createTernary h 0x1E xorExpr1 orExpr1 orExpr2

end Constructors

/-- The constructors of a block, which make a new node. -/
def PabloBlock.createTernary (addr : ℕ) (mask : BitVec 8) (a b c : PabloAST) : PabloAST :=
  .Ternary addr mask a b c

def PabloBlock.createAnd3 (addr : ℕ) := PabloBlock.createTernary addr 0x80

def PabloBlock.createOr3 (addr : ℕ) := PabloBlock.createTernary addr 0xFE

def PabloBlock.createXor3 (addr : ℕ) := PabloBlock.createTernary addr 0x96

def PabloBlock.createMajority3 (addr : ℕ) := PabloBlock.createTernary addr 0xE8

def PabloBlock.createAndOr (addr : ℕ) := PabloBlock.createTernary addr 0xE0

def PabloBlock.createAndXor (addr : ℕ) := PabloBlock.createTernary addr 0x60

def PabloBlock.createOrAnd (addr : ℕ) := PabloBlock.createTernary addr 0xF8

def PabloBlock.createOrXor (addr : ℕ) := PabloBlock.createTernary addr 0xF6

def PabloBlock.createXorAnd (addr : ℕ) := PabloBlock.createTernary addr 0x78

def PabloBlock.createXorOr (addr : ℕ) := PabloBlock.createTernary addr 0x1E

section Values

variable {h : Heap} {cs : List PabloAST} {ρ : Assignment} {e : PabloAST}

theorem eval_of_isZeroes (he : e.isZeroes) : e.eval ρ = fun _ ↦ false := by
  obtain ⟨type, rfl⟩ := PabloAST.isZeroes_iff.1 he
  rfl

theorem eval_of_isOnes (he : e.isOnes) : e.eval ρ = fun _ ↦ true := by
  obtain ⟨type, rfl⟩ := PabloAST.isOnes_iff.1 he
  rfl

theorem ternary_xor_ff (mask : BitVec 8) (a b c : Bool) :
    ternary (mask ^^^ 255#8) a b c = !ternary mask a b c := by
  cases a <;> cases b <;> cases c <;> simp [ternary]

@[simp] theorem createNot_eval (ρ : Assignment) (e : PabloAST) :
    (createNot h e).eval ρ = fun p ↦ !e.eval ρ p := by
  unfold createNot
  split <;> funext p <;>
    simp [createTernary, makeNot, PabloAST.eval_zeroes, PabloAST.eval_ones, PabloAST.eval_not,
      PabloAST.eval_ternary, ternary_xor_ff]

@[simp] theorem createNot_calls (e : PabloAST) : (createNot h e).calls = e.calls := by
  unfold createNot
  split <;> simp [createTernary, makeNot, PabloAST.calls]

theorem sortOperands_cases (h : Heap) (a b : PabloAST) :
    sortOperands h a b = (a, b) ∨ sortOperands h a b = (b, a) := by
  unfold sortOperands
  split_ifs
  · exact .inr rfl
  · exact .inl rfl

@[simp] theorem makeAnd_eval (ρ : Assignment) (a b : PabloAST) :
    (makeAnd h a b).eval ρ = fun p ↦ a.eval ρ p && b.eval ρ p := by
  obtain hs | hs := sortOperands_cases h a b <;> funext p <;>
    simp [makeAnd, hs, PabloAST.eval_and, Bool.and_comm]

@[simp] theorem makeOr_eval (ρ : Assignment) (a b : PabloAST) :
    (makeOr h a b).eval ρ = fun p ↦ a.eval ρ p || b.eval ρ p := by
  obtain hs | hs := sortOperands_cases h a b <;> funext p <;>
    simp [makeOr, hs, PabloAST.eval_or, Bool.or_comm]

@[simp] theorem makeXor_eval (ρ : Assignment) (a b : PabloAST) :
    (makeXor h a b).eval ρ = fun p ↦ a.eval ρ p ^^ b.eval ρ p := by
  obtain hs | hs := sortOperands_cases h a b <;> funext p <;>
    simp [makeXor, hs, PabloAST.eval_xor, Bool.xor_comm]

theorem makeAnd_calls {a b : PabloAST} (ha : a.calls ⊆ cs) (hb : b.calls ⊆ cs) :
    (makeAnd h a b).calls ⊆ cs := by
  obtain hs | hs := sortOperands_cases h a b <;> simp [makeAnd, hs, PabloAST.calls_and, ha, hb]

theorem makeOr_calls {a b : PabloAST} (ha : a.calls ⊆ cs) (hb : b.calls ⊆ cs) :
    (makeOr h a b).calls ⊆ cs := by
  obtain hs | hs := sortOperands_cases h a b <;> simp [makeOr, hs, PabloAST.calls_or, ha, hb]

theorem createXor_eval (ρ : Assignment) (a b : PabloAST) :
    (createXor h a b).eval ρ = fun p ↦ a.eval ρ p ^^ b.eval ρ p := by
  fun_induction createXor h a b with
  | case1 a => simp [PabloAST.eval_zeroes]
  | case2 a b _ ha => simp [eval_of_isOnes ha]
  | case3 a b _ _ ha => simp [eval_of_isZeroes ha]
  | case4 a b _ _ _ hb => simp [eval_of_isOnes hb]
  | case5 a b _ _ _ _ hb => simp [eval_of_isZeroes hb]
  | case6 i a _ _ j b _ _ _ ih => simp [ih, PabloAST.eval_not]
  | case7 => simp

end Values

section Termination

/-- The number of binary operations above the parts that `createOr` never takes apart. -/
def PabloAST.weight : PabloAST → ℕ
  | .Not _ e => e.weight
  | .And _ a b | .Or _ a b => a.weight + b.weight + 1
  | _ => 0

/-- The number of negations that an expression begins with. -/
def PabloAST.nots : PabloAST → ℕ
  | .Not _ e => e.nots + 1
  | _ => 0

variable {h : Heap} {cs : List PabloAST}

@[simp] theorem createNot_weight (e : PabloAST) : (createNot h e).weight = e.weight := by
  unfold createNot
  split <;> simp [createTernary, makeNot, PabloAST.weight]

theorem createNot_nots (e : PabloAST) : (createNot h e).nots ≤ e.nots + 1 := by
  unfold createNot
  split <;> (simp [createTernary, makeNot, PabloAST.nots]; try omega)

theorem makeAnd_weight (a b : PabloAST) : (makeAnd h a b).weight = a.weight + b.weight + 1 := by
  obtain hs | hs := sortOperands_cases h a b <;> simp [makeAnd, hs, PabloAST.weight]
  omega

theorem makeOr_weight (a b : PabloAST) : (makeOr h a b).weight = a.weight + b.weight + 1 := by
  obtain hs | hs := sortOperands_cases h a b <;> simp [makeOr, hs, PabloAST.weight]
  omega

/-- The run returns, with any fuel from some amount on, one node that meets `Q`. -/
def Returns (run : ℕ → Except Fault PabloAST) (Q : PabloAST → Prop) : Prop :=
  ∃ n e, (∀ fuel, n ≤ fuel → run fuel = .ok e) ∧ Q e

variable {run sub : ℕ → Except Fault PabloAST} {P Q : PabloAST → Prop}

theorem Returns.pure {e : PabloAST} (hrun : ∀ fuel, run (fuel + 1) = .ok e) (he : Q e) :
    Returns run Q := by
  refine ⟨1, e, ?_, he⟩
  intro fuel hf
  obtain ⟨m, rfl⟩ : ∃ m, fuel = m + 1 := ⟨fuel - 1, by omega⟩
  exact hrun m

theorem Returns.imp (hs : Returns run P) (hPQ : ∀ e, P e → Q e) : Returns run Q := by
  obtain ⟨n, e, hn, he⟩ := hs
  exact ⟨n, e, hn, hPQ e he⟩

theorem Returns.bind {k : PabloAST → ℕ → Except Fault PabloAST} (hs : Returns sub P)
    (hrun : ∀ fuel, run (fuel + 1) = sub fuel >>= fun e ↦ k e fuel)
    (hk : ∀ e, P e → Returns (k e) Q) : Returns run Q := by
  obtain ⟨n, e, hn, he⟩ := hs
  obtain ⟨m, f, hm, hf⟩ := hk e he
  refine ⟨max n m + 1, f, ?_, hf⟩
  intro fuel hle
  obtain ⟨l, rfl⟩ : ∃ l, fuel = l + 1 := ⟨fuel - 1, by omega⟩
  rw [hrun, hn l (by omega), ok_bind, hm l (by omega)]

/-- What the two recursive constructors promise about the node they return. -/
structure Denotes (cs : List PabloAST) (w : ℕ) (f : Assignment → Stream) (e : PabloAST) :
    Prop where
  calls : e.calls ⊆ cs
  weight : e.weight ≤ w
  eval : ∀ ρ, e.eval ρ = f ρ

/-- A conjunction is returned. -/
abbrev DenotesAnd (cs : List PabloAST) (a b : PabloAST) : PabloAST → Prop :=
  Denotes cs (a.weight + b.weight + 1) fun ρ p ↦ a.eval ρ p && b.eval ρ p

/-- A disjunction is returned. -/
abbrev DenotesOr (cs : List PabloAST) (a b : PabloAST) : PabloAST → Prop :=
  Denotes cs (a.weight + b.weight + 1) fun ρ p ↦ a.eval ρ p || b.eval ρ p

theorem Denotes.not {v w : ℕ} {f g : Assignment → Stream} {e : PabloAST}
    (he : Denotes cs w f e) (hw : w ≤ v) (hg : ∀ ρ, g ρ = fun p ↦ !f ρ p) :
    Denotes cs v g (createNot h e) where
  calls := by
    rw [createNot_calls]
    exact he.calls
  weight := by
    rw [createNot_weight]
    exact Nat.le_trans he.weight hw
  eval := by
    intro ρ
    rw [createNot_eval, he.eval, hg]

section Absorption

variable {a b : PabloAST}

theorem denotesAnd_left (ha : a.calls ⊆ cs) (hv : ∀ ρ p, a.eval ρ p → b.eval ρ p) :
    DenotesAnd cs a b a := by
  refine ⟨ha, by omega, ?_⟩
  intro ρ
  funext p
  have := hv ρ p
  cases hp : a.eval ρ p <;> simp_all

theorem denotesAnd_right (hb : b.calls ⊆ cs) (hv : ∀ ρ p, b.eval ρ p → a.eval ρ p) :
    DenotesAnd cs a b b := by
  refine ⟨hb, by omega, ?_⟩
  intro ρ
  funext p
  have := hv ρ p
  cases hp : b.eval ρ p <;> simp_all

theorem denotesAnd_zeroes (type : ℕ) (hv : ∀ ρ p, a.eval ρ p = !b.eval ρ p) :
    DenotesAnd cs a b (.Zeroes type) := by
  refine ⟨by simp [PabloAST.calls], by simp [PabloAST.weight], ?_⟩
  intro ρ
  funext p
  simp [PabloAST.eval, hv]

theorem denotesAnd_make (h : Heap) (ha : a.calls ⊆ cs) (hb : b.calls ⊆ cs) :
    DenotesAnd cs a b (makeAnd h a b) :=
  ⟨makeAnd_calls ha hb, Nat.le_of_eq (makeAnd_weight a b), fun ρ ↦ makeAnd_eval ρ a b⟩

theorem denotesOr_left (ha : a.calls ⊆ cs) (hv : ∀ ρ p, b.eval ρ p → a.eval ρ p) :
    DenotesOr cs a b a := by
  refine ⟨ha, by omega, ?_⟩
  intro ρ
  funext p
  have := hv ρ p
  cases hp : b.eval ρ p <;> simp_all

theorem denotesOr_right (hb : b.calls ⊆ cs) (hv : ∀ ρ p, a.eval ρ p → b.eval ρ p) :
    DenotesOr cs a b b := by
  refine ⟨hb, by omega, ?_⟩
  intro ρ
  funext p
  have := hv ρ p
  cases hp : a.eval ρ p <;> simp_all

theorem denotesOr_make (h : Heap) (ha : a.calls ⊆ cs) (hb : b.calls ⊆ cs) :
    DenotesOr cs a b (makeOr h a b) :=
  ⟨makeOr_calls ha hb, Nat.le_of_eq (makeOr_weight a b), fun ρ ↦ makeOr_eval ρ a b⟩

end Absorption

section Parts

variable {a : PabloAST}

theorem castNot_parts {x : PabloAST} (ha : a.castNot = some x) :
    a.calls = x.calls ∧ a.weight = x.weight ∧ a.nots = x.nots + 1 ∧
      ∀ ρ p, a.eval ρ p = !x.eval ρ p := by
  obtain ⟨i, rfl⟩ := PabloAST.castNot_eq_some.1 ha
  exact ⟨rfl, rfl, rfl, fun _ _ ↦ rfl⟩

theorem castAnd_parts {x y : PabloAST} (ha : a.castAnd = some (x, y)) :
    a.calls = x.calls ++ y.calls ∧ a.weight = x.weight + y.weight + 1 ∧
      ∀ ρ p, a.eval ρ p = (x.eval ρ p && y.eval ρ p) := by
  obtain ⟨i, rfl⟩ := PabloAST.castAnd_eq_some.1 ha
  exact ⟨rfl, rfl, fun _ _ ↦ rfl⟩

theorem castOr_parts {x y : PabloAST} (ha : a.castOr = some (x, y)) :
    a.calls = x.calls ++ y.calls ∧ ∀ ρ p, a.eval ρ p = (x.eval ρ p || y.eval ρ p) := by
  obtain ⟨i, rfl⟩ := PabloAST.castOr_eq_some.1 ha
  exact ⟨rfl, fun _ _ ↦ rfl⟩

end Parts

section Shortcuts

variable {a b x y : PabloAST}

theorem eval_imp_of_constant (hab : (a.isZeroes || b.isOnes) = true) :
    ∀ ρ p, a.eval ρ p → b.eval ρ p := by
  intro ρ p
  obtain ha | hb := Bool.or_eq_true _ _ |>.mp hab
  · simp [eval_of_isZeroes ha]
  · simp [eval_of_isOnes hb]

theorem eval_imp_of_constant_or {same : Bool} (hab : (a.isZeroes || b.isOnes || same) = true)
    (hsame : same = true → ∀ ρ p, a.eval ρ p = b.eval ρ p) : ∀ ρ p, a.eval ρ p → b.eval ρ p := by
  intro ρ p hp
  obtain hconstant | heq := Bool.or_eq_true _ _ |>.mp hab
  · exact eval_imp_of_constant hconstant ρ p hp
  · rw [← hsame heq, hp]

theorem equals_apply (hc : CallsApart h cs) (ha : a.calls ⊆ cs) (hb : b.calls ⊆ cs)
    (he : equals h a b) : ∀ ρ p, a.eval ρ p = b.eval ρ p :=
  fun ρ ↦ congrFun (equals_eval hc ρ a b ha hb he)

/-- An operand of a disjunction implies it. -/
theorem eval_imp_of_or (hc : CallsApart h cs) (hxy : x.calls ++ y.calls ⊆ cs) (hb : b.calls ⊆ cs)
    (hva : ∀ ρ p, a.eval ρ p = (x.eval ρ p || y.eval ρ p)) (he : equals h x b ∨ equals h y b) :
    ∀ ρ p, b.eval ρ p → a.eval ρ p := by
  intro ρ p hp
  obtain ⟨hx, hy⟩ := List.append_subset.1 hxy
  rw [hva]
  obtain he | he := he
  · rw [equals_apply hc hx hb he, hp, Bool.true_or]
  · rw [equals_apply hc hy hb he, hp, Bool.or_true]

/-- A conjunction implies its operands. -/
theorem eval_imp_of_and (hc : CallsApart h cs) (hxy : x.calls ++ y.calls ⊆ cs)
    (hb : b.calls ⊆ cs) (hva : ∀ ρ p, a.eval ρ p = (x.eval ρ p && y.eval ρ p))
    (he : equals h x b ∨ equals h y b) : ∀ ρ p, a.eval ρ p → b.eval ρ p := by
  intro ρ p hp
  obtain ⟨hx, hy⟩ := List.append_subset.1 hxy
  rw [hva, Bool.and_eq_true] at hp
  obtain he | he := he
  · rw [← equals_apply hc hx hb he, hp.1]
  · rw [← equals_apply hc hy hb he, hp.2]

end Shortcuts

mutual

theorem createAnd_denotes (hc : CallsApart h cs) (a b : PabloAST) (ha : a.calls ⊆ cs)
    (hb : b.calls ⊆ cs) : Returns (createAnd h · a b) (DenotesAnd cs a b) := by
  by_cases h1 : (b.isZeroes || a.isOnes) = true
  · exact .pure (fun fuel ↦ by simp only [createAnd, h1, if_true])
      (denotesAnd_right hb (eval_imp_of_constant h1))
  by_cases h2 : (a.isZeroes || b.isOnes || equals h a b) = true
  · exact .pure (fun fuel ↦ by simp only [createAnd, h1, h2, if_true]; rfl)
      (denotesAnd_left ha (eval_imp_of_constant_or h2 (equals_apply hc ha hb)))
  cases hna : a.castNot with
  | some x =>
    obtain ⟨hax, hwa, hda, hva⟩ := castNot_parts hna
    cases hnb : b.castNot with
    | some y =>
      obtain ⟨hby, hwb, hdb, hvb⟩ := castNot_parts hnb
      refine .bind (createOr_denotes hc x y (hax ▸ ha) (hby ▸ hb))
        (k := fun e _ ↦ .ok (createNot h e)) ?_ ?_
      · intro fuel
        simp [createAnd, h1, h2, hna, hnb]
      · intro e he
        refine .pure (fun _ ↦ rfl) (he.not (by omega) ?_)
        intro ρ
        simp [hva, hvb]
    | none =>
      cases he : equals h x b with
      | true =>
        refine .pure (fun fuel ↦ by simp [createAnd, h1, h2, hna, hnb, he])
          (denotesAnd_zeroes a.getType ?_)
        intro ρ p
        rw [hva, equals_apply hc (hax ▸ ha) hb he]
      | false =>
        exact .pure (fun fuel ↦ by simp [createAnd, h1, h2, hna, hnb, he])
          (denotesAnd_make h ha hb)
  | none =>
    cases hnb : b.castNot with
    | some y =>
      obtain ⟨hby, -, -, hvb⟩ := castNot_parts hnb
      cases he : equals h a y with
      | true =>
        refine .pure (fun fuel ↦ by simp [createAnd, h1, h2, hna, hnb, he])
          (denotesAnd_zeroes a.getType ?_)
        intro ρ p
        rw [hvb, equals_apply hc ha (hby ▸ hb) he, Bool.not_not]
      | false =>
        exact .pure (fun fuel ↦ by simp [createAnd, h1, h2, hna, hnb, he])
          (denotesAnd_make h ha hb)
    | none =>
      cases hoa : a.castOr with
      | some x =>
        obtain ⟨hax, hva⟩ := castOr_parts hoa
        by_cases he : equals h x.1 b ∨ equals h x.2 b
        · exact .pure (fun fuel ↦ by simp [createAnd, h1, h2, hna, hnb, hoa, he])
            (denotesAnd_right hb (eval_imp_of_or hc (hax ▸ ha) hb hva he))
        · exact .pure (fun fuel ↦ by simp [createAnd, h1, h2, hna, hnb, hoa, he])
            (denotesAnd_make h ha hb)
      | none =>
        cases hob : b.castOr with
        | some y =>
          obtain ⟨hby, hvb⟩ := castOr_parts hob
          by_cases he : equals h y.1 a ∨ equals h y.2 a
          · exact .pure (fun fuel ↦ by simp [createAnd, h1, h2, hna, hnb, hoa, hob, he])
              (denotesAnd_left ha (eval_imp_of_or hc (hby ▸ hb) ha hvb he))
          · exact .pure (fun fuel ↦ by simp [createAnd, h1, h2, hna, hnb, hoa, hob, he])
              (denotesAnd_make h ha hb)
        | none =>
          exact .pure (fun fuel ↦ by simp [createAnd, h1, h2, hna, hnb, hoa, hob])
            (denotesAnd_make h ha hb)
termination_by (a.weight + b.weight, a.nots + b.nots, 0)
decreasing_by
  simp only [Prod.lex_def]
  omega

theorem createOr_denotes (hc : CallsApart h cs) (a b : PabloAST) (ha : a.calls ⊆ cs)
    (hb : b.calls ⊆ cs) : Returns (createOr h · a b) (DenotesOr cs a b) := by
  by_cases h1 : (a.isZeroes || b.isOnes) = true
  · exact .pure (fun fuel ↦ by simp only [createOr, h1, if_true])
      (denotesOr_right hb (eval_imp_of_constant h1))
  by_cases h2 : (b.isZeroes || a.isOnes || equals h a b) = true
  · exact .pure (fun fuel ↦ by simp only [createOr, h1, h2, if_true]; rfl)
      (denotesOr_left ha (eval_imp_of_constant_or h2 fun he ρ p ↦
        (equals_apply hc ha hb he ρ p).symm))
  simp only [Bool.or_eq_true, not_or] at h1 h2
  obtain ⟨⟨h2b, h2a⟩, h3⟩ := h2
  have hfactor (u y z : PabloAST) (hu : u.calls ⊆ cs) (hy : y.calls ⊆ cs) (hz : z.calls ⊆ cs)
      (hw : u.weight + y.weight + z.weight + 2 ≤ a.weight + b.weight)
      (hva : ∀ ρ p, a.eval ρ p = (u.eval ρ p && y.eval ρ p))
      (hvb : ∀ ρ p, b.eval ρ p = (u.eval ρ p && z.eval ρ p))
      (hrun : ∀ fuel, createOr h (fuel + 1) a b =
        createOr h fuel y z >>= fun e ↦ createAnd h fuel u e) :
      Returns (createOr h · a b) (DenotesOr cs a b) := by
    refine .bind (createOr_denotes hc y z hy hz) hrun ?_
    intro e he
    have hew := he.weight
    refine (createAnd_denotes hc u e hu he.calls).imp ?_
    intro r hr
    refine ⟨hr.calls, Nat.le_trans hr.weight (by omega), ?_⟩
    intro ρ
    rw [hr.eval, he.eval]
    funext p
    rw [hva, hvb, Bool.and_or_distrib_left]
  cases hna : a.castNot with
  | some x =>
    obtain ⟨hax, hwa, hda, hva⟩ := castNot_parts hna
    have hn := createNot_nots (h := h) b
    have hw := createNot_weight (h := h) b
    refine .bind (createAnd_denotes hc x (createNot h b) (hax ▸ ha) (by rwa [createNot_calls]))
      (k := fun e _ ↦ .ok (createNot h e)) ?_ ?_
    · intro fuel
      simp [createOr, h1, h2b, h2a, h3, hna]
    · intro e he
      refine .pure (fun _ ↦ rfl) (he.not (by omega) ?_)
      intro ρ
      simp [hva]
  | none =>
    cases hnb : b.castNot with
    | some y =>
      obtain ⟨hby, hwb, hdb, hvb⟩ := castNot_parts hnb
      have hn := createNot_nots (h := h) a
      have hw := createNot_weight (h := h) a
      refine .bind (createAnd_denotes hc y (createNot h a) (hby ▸ hb) (by rwa [createNot_calls]))
        (k := fun e _ ↦ .ok (createNot h e)) ?_ ?_
      · intro fuel
        simp [createOr, h1, h2b, h2a, h3, hna, hnb]
      · intro e he
        refine .pure (fun _ ↦ rfl) (he.not (by omega) ?_)
        intro ρ
        simp [hvb, Bool.or_comm]
    | none =>
      cases haa : a.castAnd with
      | some x =>
        obtain ⟨x1, x2⟩ := x
        obtain ⟨hax, hwa, hva⟩ := castAnd_parts haa
        have hx := List.append_subset.1 (hax ▸ ha)
        cases hab : b.castAnd with
        | some y =>
          obtain ⟨y1, y2⟩ := y
          obtain ⟨hby, hwb, hvb⟩ := castAnd_parts hab
          have hy := List.append_subset.1 (hby ▸ hb)
          have hv {u v : PabloAST} (hu : u.calls ⊆ cs) (hv : v.calls ⊆ cs) (he : equals h u v)
              {w : PabloAST} (hb : ∀ ρ p, b.eval ρ p = (v.eval ρ p && w.eval ρ p)) ρ p :
              b.eval ρ p = (u.eval ρ p && w.eval ρ p) := by
            rw [equals_apply hc hu hv he, hb]
          have hva' ρ p : a.eval ρ p = (x2.eval ρ p && x1.eval ρ p) := by
            rw [hva, Bool.and_comm]
          have hvb' ρ p : b.eval ρ p = (y2.eval ρ p && y1.eval ρ p) := by
            rw [hvb, Bool.and_comm]
          cases he1 : equals h x1 y1 with
          | true =>
            refine hfactor x1 x2 y2 hx.1 hx.2 hy.2 (by omega) hva (hv hx.1 hy.1 he1 hvb) ?_
            simp [createOr, h1, h2b, h2a, h3, hna, hnb, haa, hab, he1]
          | false =>
          cases he2 : equals h x2 y2 with
          | true =>
            refine hfactor x2 x1 y1 hx.2 hx.1 hy.1 (by omega) hva' (hv hx.2 hy.2 he2 hvb') ?_
            simp [createOr, h1, h2b, h2a, h3, hna, hnb, haa, hab, he1, he2]
          | false =>
          cases he3 : equals h x1 y2 with
          | true =>
            refine hfactor x1 x2 y1 hx.1 hx.2 hy.1 (by omega) hva (hv hx.1 hy.2 he3 hvb') ?_
            simp [createOr, h1, h2b, h2a, h3, hna, hnb, haa, hab, he1, he2, he3]
          | false =>
          cases he4 : equals h x2 y1 with
          | true =>
            refine hfactor x2 x1 y2 hx.2 hx.1 hy.2 (by omega) hva' (hv hx.2 hy.1 he4 hvb) ?_
            simp [createOr, h1, h2b, h2a, h3, hna, hnb, haa, hab, he1, he2, he3, he4]
          | false =>
            exact .pure (fun fuel ↦ by
              simp [createOr, h1, h2b, h2a, h3, hna, hnb, haa, hab, he1, he2, he3, he4])
              (denotesOr_make h ha hb)
        | none =>
          by_cases he : equals h x1 b ∨ equals h x2 b
          · exact .pure (fun fuel ↦ by simp [createOr, h1, h2b, h2a, h3, hna, hnb, haa, hab, he])
              (denotesOr_right hb (eval_imp_of_and hc (hax ▸ ha) hb hva he))
          · exact .pure (fun fuel ↦ by simp [createOr, h1, h2b, h2a, h3, hna, hnb, haa, hab, he])
              (denotesOr_make h ha hb)
      | none =>
        cases hab : b.castAnd with
        | some y =>
          obtain ⟨y1, y2⟩ := y
          obtain ⟨hby, hwb, hvb⟩ := castAnd_parts hab
          by_cases he : equals h y1 a ∨ equals h y2 a
          · exact .pure (fun fuel ↦ by simp [createOr, h1, h2b, h2a, h3, hna, hnb, haa, hab, he])
              (denotesOr_left ha (eval_imp_of_and hc (hby ▸ hb) ha hvb he))
          · exact .pure (fun fuel ↦ by simp [createOr, h1, h2b, h2a, h3, hna, hnb, haa, hab, he])
              (denotesOr_make h ha hb)
        | none =>
          exact .pure (fun fuel ↦ by simp [createOr, h1, h2b, h2a, h3, hna, hnb, haa, hab])
            (denotesOr_make h ha hb)
termination_by (a.weight + b.weight, a.nots + b.nots, 1)
decreasing_by
  all_goals
    simp only [Prod.lex_def]
    omega

end

end Termination

/-- The last rule of `createSel` is reached and applies: the expression for false is the negation
of the expression for true. -/
def complementRule (h : Heap) (condition trueExpr falseExpr : PabloAST) : Bool :=
  !condition.isOnes && !condition.isZeroes && !trueExpr.isOnes && !trueExpr.isZeroes &&
    !trueExpr.castNot.any (equals h · falseExpr) && falseExpr.castNot.any (equals h trueExpr ·)

section Exactness

variable {h : Heap} {cs : List PabloAST} {ρ : Assignment} {a b c : PabloAST}

/-- The run returns a node that has the value `s`. -/
def Evaluates (ρ : Assignment) (run : ℕ → Except Fault PabloAST) (s : Stream) : Prop :=
  Returns run fun e ↦ e.eval ρ = s

theorem Evaluates.ok {e : PabloAST} {s : Stream} (he : e.eval ρ = s) :
    Evaluates ρ (fun _ ↦ .ok e) s :=
  ⟨0, e, fun _ _ ↦ rfl, he⟩

/-- A constructor that decides between two nodes before it runs. -/
theorem Evaluates.ite {p : Prop} [Decidable p] {run other : ℕ → Except Fault PabloAST} {s : Stream}
    (ht : p → Evaluates ρ run s) (he : ¬p → Evaluates ρ other s) :
    Evaluates ρ (fun fuel ↦ if p then run fuel else other fuel) s := by
  by_cases hp : p
  · simpa only [if_pos hp] using ht hp
  · simpa only [if_neg hp] using he hp

theorem Evaluates.congr {run : ℕ → Except Fault PabloAST} {s t : Stream}
    (hs : Evaluates ρ run s) (hst : ∀ p, s p = t p) : Evaluates ρ run t := by
  rwa [← funext hst]

theorem evaluates_ok_iff {e : PabloAST} {s : Stream} :
    Evaluates ρ (fun _ ↦ .ok e) s ↔ ∀ p, e.eval ρ p = s p := by
  constructor
  · rintro ⟨n, f, hn, hf⟩ p
    obtain rfl : e = f := by simpa using hn n (Nat.le_refl n)
    rw [hf]
  · intro he
    exact .ok (funext he)

theorem createAnd_evaluates (hc : CallsApart h cs) (ha : a.calls ⊆ cs) (hb : b.calls ⊆ cs) :
    Evaluates ρ (createAnd h · a b) fun p ↦ a.eval ρ p && b.eval ρ p :=
  (createAnd_denotes hc a b ha hb).imp fun _ he ↦ he.eval ρ

theorem createOr_evaluates (hc : CallsApart h cs) (ha : a.calls ⊆ cs) (hb : b.calls ⊆ cs) :
    Evaluates ρ (createOr h · a b) fun p ↦ a.eval ρ p || b.eval ρ p :=
  (createOr_denotes hc a b ha hb).imp fun _ he ↦ he.eval ρ

theorem createTernary_eval {mask : BitVec 8} {f : Bool → Bool → Bool → Bool}
    (hf : ∀ x y z, ternary mask x y z = f x y z) :
    (createTernary h mask a b c).eval ρ =
      fun p ↦ f (a.eval ρ p) (b.eval ρ p) (c.eval ρ p) := by
  funext p
  exact hf _ _ _

section Ternaries

variable (hc : CallsApart h cs) (ha : a.calls ⊆ cs) (hb : b.calls ⊆ cs) (hd : c.calls ⊆ cs)

include hc ha hb

theorem equals_eval_at (he : equals h a b) (p : ℕ) : a.eval ρ p = b.eval ρ p :=
  equals_apply hc ha hb he ρ p

include hd

theorem createSel_evaluates (hlast : complementRule h a b c = false) :
    Evaluates ρ (createSel h · a b c)
      fun p ↦ bif a.eval ρ p then b.eval ρ p else c.eval ρ p := by
  have hna : (createNot h a).calls ⊆ cs := by rwa [createNot_calls]
  unfold createSel
  refine .ite (fun h1 ↦ ?_) fun h1 ↦ .ite (fun h2 ↦ ?_) fun h2 ↦ .ite (fun h3 ↦ ?_) fun h3 ↦
    .ite (fun h4 ↦ ?_) fun h4 ↦ .ite (fun h5 ↦ ?_) fun _ ↦ .ite (fun h6 ↦ ?_) fun _ ↦
    .ite (fun h7 ↦ ?_) fun _ ↦ .ite (fun h8 ↦ ?_) fun h8 ↦ .ite (fun h9 ↦ ?_) fun _ ↦ ?_
  · exact .ok (by simp [eval_of_isOnes h1])
  · exact .ok (by simp [eval_of_isZeroes h2])
  · refine (createOr_evaluates hc ha hd).congr fun p ↦ ?_
    cases a.eval ρ p <;> simp [eval_of_isOnes h3]
  · refine (createAnd_evaluates hc hna hd).congr fun p ↦ ?_
    cases hp : a.eval ρ p <;> simp [eval_of_isZeroes h4, hp]
  · refine (createOr_evaluates hc hna hb).congr fun p ↦ ?_
    cases hp : a.eval ρ p <;> simp [eval_of_isOnes h5, hp]
  · refine (createAnd_evaluates hc ha hb).congr fun p ↦ ?_
    cases a.eval ρ p <;> simp [eval_of_isZeroes h6]
  · refine .ok (funext fun p ↦ ?_)
    rw [← equals_eval_at hc hb hd h7]
    cases a.eval ρ p <;> rfl
  · refine .ok (funext fun p ↦ ?_)
    obtain ⟨x, hx, hxc⟩ := Option.any_eq_true .. |>.1 h8
    obtain ⟨hcb, -, -, hvb⟩ := castNot_parts hx
    simp only [createXor_eval, hvb, equals_eval_at hc (hcb ▸ hb) hd hxc]
    cases a.eval ρ p <;> simp
  · simp [complementRule, h1, h2, h3, h4, h8, h9] at hlast
  · exact .ok rfl

omit ha in
/-- The last rule returns the complement of the selection, at every position. -/
theorem createSel_complement (hlast : complementRule h a b c = true) :
    Evaluates ρ (createSel h · a b c)
      fun p ↦ !bif a.eval ρ p then b.eval ρ p else c.eval ρ p := by
  simp only [complementRule, Bool.and_eq_true, Bool.not_eq_true'] at hlast
  obtain ⟨⟨⟨⟨⟨h1, h2⟩, h3⟩, h4⟩, h8⟩, h9⟩ := hlast
  obtain ⟨x, hx, hbx⟩ := Option.any_eq_true .. |>.1 h9
  obtain ⟨hcx, -, -, hvc⟩ := castNot_parts hx
  have hv p : b.eval ρ p = x.eval ρ p := equals_eval_at hc hb (hcx ▸ hd) hbx p
  obtain ⟨i, rfl⟩ := PabloAST.castNot_eq_some.1 hx
  have h7 : equals h b (.Not i x) = false := by
    cases heq : equals h b (.Not i x) with
    | false => rfl
    | true =>
      have : b.eval ρ 0 = (PabloAST.Not i x).eval ρ 0 := equals_eval_at hc hb hd heq 0
      rw [hv, hvc] at this
      simp at this
  have hsel (fuel : ℕ) : createSel h fuel a b (.Not i x) = .ok (createXor h a b) := by
    have h5 : (PabloAST.Not i x).isOnes = false := rfl
    have h6 : (PabloAST.Not i x).isZeroes = false := rfl
    simp [createSel, h1, h2, h3, h4, h5, h6, h7, h8, h9]
  simp only [hsel]
  refine .ok (funext fun p ↦ ?_)
  simp only [createXor_eval, hvc, hv]
  cases a.eval ρ p <;> simp

theorem createAnd3_evaluates :
    Evaluates ρ (createAnd3 h · a b c) fun p ↦ a.eval ρ p && b.eval ρ p && c.eval ρ p := by
  unfold createAnd3
  simp only [Bool.or_eq_true, Bool.and_eq_true]
  refine .ite (fun h1 ↦ ?_) fun _ ↦ .ite (fun h2 ↦ ?_) fun _ ↦ .ite (fun h3 ↦ ?_) fun _ ↦
    .ite (fun h4 ↦ ?_) fun _ ↦ .ite (fun h5 ↦ ?_) fun _ ↦ .ite (fun h6 ↦ ?_) fun _ ↦
    .ite (fun h7 ↦ ?_) fun _ ↦ ?_
  · refine .ok (funext fun p ↦ ?_)
    obtain (h1 | h1) | h1 := h1 <;> simp [eval_of_isZeroes h1, PabloAST.eval]
  · exact .ok (by simp [eval_of_isOnes h2.1, eval_of_isOnes h2.2])
  · exact .ok (by simp [eval_of_isOnes h3.1, eval_of_isOnes h3.2])
  · exact .ok (by simp [eval_of_isOnes h4.1, eval_of_isOnes h4.2])
  · exact (createAnd_evaluates hc hb hd).congr (by simp [eval_of_isOnes h5])
  · exact (createAnd_evaluates hc ha hd).congr (by simp [eval_of_isOnes h6])
  · exact (createAnd_evaluates hc ha hb).congr (by simp [eval_of_isOnes h7])
  · exact .ok (createTernary_eval (f := fun x y z ↦ x && y && z) (by decide))

theorem createOr3_evaluates :
    Evaluates ρ (createOr3 h · a b c) fun p ↦ a.eval ρ p || b.eval ρ p || c.eval ρ p := by
  unfold createOr3
  simp only [Bool.or_eq_true, Bool.and_eq_true]
  refine .ite (fun h1 ↦ ?_) fun _ ↦ .ite (fun h2 ↦ ?_) fun _ ↦ .ite (fun h3 ↦ ?_) fun _ ↦
    .ite (fun h4 ↦ ?_) fun _ ↦ .ite (fun h5 ↦ ?_) fun _ ↦ .ite (fun h6 ↦ ?_) fun _ ↦
    .ite (fun h7 ↦ ?_) fun _ ↦ ?_
  · refine .ok (funext fun p ↦ ?_)
    obtain (h1 | h1) | h1 := h1 <;> simp [eval_of_isOnes h1, PabloAST.eval]
  · exact .ok (by simp [eval_of_isZeroes h2.1, eval_of_isZeroes h2.2])
  · exact .ok (by simp [eval_of_isZeroes h3.1, eval_of_isZeroes h3.2])
  · exact .ok (by simp [eval_of_isZeroes h4.1, eval_of_isZeroes h4.2])
  · exact (createOr_evaluates hc hb hd).congr (by simp [eval_of_isZeroes h5])
  · exact (createOr_evaluates hc ha hd).congr (by simp [eval_of_isZeroes h6])
  · exact (createOr_evaluates hc ha hb).congr (by simp [eval_of_isZeroes h7])
  · exact .ok (createTernary_eval (f := fun x y z ↦ x || y || z) (by decide))

theorem createXor3_eval :
    (createXor3 h a b c).eval ρ = fun p ↦ a.eval ρ p ^^ b.eval ρ p ^^ c.eval ρ p := by
  unfold createXor3
  simp only [Bool.and_eq_true]
  split_ifs with h1 h2 h3 h4 h5 h6
  · simp [eval_of_isOnes h1.1.1, eval_of_isOnes h1.1.2, eval_of_isOnes h1.2, PabloAST.eval]
  · simp [eval_of_isZeroes h2.1.1, eval_of_isZeroes h2.1.2, eval_of_isZeroes h2.2,
      PabloAST.eval]
  · funext p
    rw [← equals_eval_at hc hb hd h3.2, equals_eval_at hc ha hb h3.1]
    simp
  · funext p
    simp [createXor_eval, PabloAST.eval, equals_eval_at hc ha hb h4]
  · funext p
    simp [createXor_eval, PabloAST.eval, equals_eval_at hc ha hd h5]
    cases b.eval ρ p <;> cases c.eval ρ p <;> rfl
  · funext p
    simp [createXor_eval, PabloAST.eval, equals_eval_at hc hb hd h6]
  · exact createTernary_eval (f := fun x y z ↦ (x ^^ y) ^^ z) (by decide)

omit hc ha hb hd in
theorem createMajority3_eval :
    (createMajority3 h a b c).eval ρ = fun p ↦
      a.eval ρ p && b.eval ρ p || a.eval ρ p && c.eval ρ p || b.eval ρ p && c.eval ρ p := by
  unfold createMajority3
  simp only [Bool.and_eq_true]
  split_ifs with h1 h2 h3 h4 h5 h6
  · simp [eval_of_isZeroes h1.1, eval_of_isZeroes h1.2, PabloAST.eval]
  · simp [eval_of_isZeroes h2.1, eval_of_isZeroes h2.2, PabloAST.eval]
  · simp [eval_of_isZeroes h3.1, eval_of_isZeroes h3.2, PabloAST.eval]
  · simp [eval_of_isOnes h4.1, eval_of_isOnes h4.2, PabloAST.eval]
  · simp [eval_of_isOnes h5.1, eval_of_isOnes h5.2, PabloAST.eval]
  · simp [eval_of_isOnes h6.1, eval_of_isOnes h6.2, PabloAST.eval]
  · exact createTernary_eval (f := fun x y z ↦ x && y || x && z || y && z) (by decide)

theorem createAndOr_evaluates :
    Evaluates ρ (createAndOr h · a b c)
      fun p ↦ a.eval ρ p && (b.eval ρ p || c.eval ρ p) := by
  unfold createAndOr
  simp only [Bool.or_eq_true]
  refine .ite (fun h1 ↦ ?_) fun _ ↦ .ite (fun h2 ↦ ?_) fun _ ↦ .ite (fun h3 ↦ ?_) fun _ ↦
    .ite (fun h4 ↦ ?_) fun _ ↦ .ite (fun h5 ↦ ?_) fun _ ↦ ?_
  · exact .ok (by simp [eval_of_isZeroes h1, PabloAST.eval])
  · exact (createOr_evaluates hc hb hd).congr (by simp [eval_of_isOnes h2])
  · refine .ok (funext fun p ↦ ?_)
    obtain h3 | h3 := h3 <;> simp [eval_of_isOnes h3]
  · exact (createAnd_evaluates hc ha hd).congr (by simp [eval_of_isZeroes h4])
  · refine (createAnd_evaluates hc ha hb).congr fun p ↦ ?_
    obtain h5 | h5 := h5
    · simp [eval_of_isZeroes h5]
    · simp [equals_eval_at hc hb hd h5]
  · exact .ok (createTernary_eval (f := fun x y z ↦ x && (y || z)) (by decide))

omit ha in
theorem createAndXor_eval :
    (createAndXor h a b c).eval ρ = fun p ↦ a.eval ρ p && (b.eval ρ p ^^ c.eval ρ p) := by
  unfold createAndXor
  simp only [Bool.or_eq_true, Bool.and_eq_true]
  split_ifs with h1 h2 h3 h4
  · funext p
    obtain h1 | h1 := h1
    · simp [eval_of_isZeroes h1, PabloAST.eval]
    · simp [equals_eval_at hc hb hd h1, PabloAST.eval]
  · simp [createXor_eval, eval_of_isOnes h2]
  · simp [eval_of_isOnes h3.1, eval_of_isZeroes h3.2]
  · simp [eval_of_isZeroes h4.1, eval_of_isOnes h4.2]
  · exact createTernary_eval (f := fun x y z ↦ x && (y ^^ z)) (by decide)

theorem createOrAnd_evaluates :
    Evaluates ρ (createOrAnd h · a b c)
      fun p ↦ a.eval ρ p || b.eval ρ p && c.eval ρ p := by
  unfold createOrAnd
  simp only [Bool.or_eq_true]
  refine .ite (fun h1 ↦ ?_) fun _ ↦ .ite (fun h2 ↦ ?_) fun _ ↦ .ite (fun h3 ↦ ?_) fun _ ↦
    .ite (fun h4 ↦ ?_) fun _ ↦ ?_
  · exact .ok (by simp [eval_of_isOnes h1, PabloAST.eval])
  · exact (createAnd_evaluates hc hb hd).congr (by simp [eval_of_isZeroes h2])
  · refine (createOr_evaluates hc ha hb).congr fun p ↦ ?_
    simp [equals_eval_at hc hb hd h3]
  · refine .ok (funext fun p ↦ ?_)
    obtain h4 | h4 := h4 <;> simp [eval_of_isZeroes h4]
  · exact .ok (createTernary_eval (f := fun x y z ↦ x || y && z) (by decide))

omit ha in
theorem createOrXor_eval :
    (createOrXor h a b c).eval ρ = fun p ↦ a.eval ρ p || (b.eval ρ p ^^ c.eval ρ p) := by
  unfold createOrXor
  simp only [Bool.and_eq_true]
  split_ifs with h1 h2 h3 h4 h5
  · simp [eval_of_isOnes h1, PabloAST.eval]
  · simp [createXor_eval, eval_of_isZeroes h2]
  · funext p
    simp [equals_eval_at hc hb hd h3]
  · simp [eval_of_isOnes h4.1, eval_of_isZeroes h4.2, PabloAST.eval]
  · simp [eval_of_isZeroes h5.1, eval_of_isOnes h5.2, PabloAST.eval]
  · exact createTernary_eval (f := fun x y z ↦ x || (y ^^ z)) (by decide)

omit ha in
theorem createXorAnd_eval :
    (createXorAnd h a b c).eval ρ = fun p ↦ a.eval ρ p ^^ (b.eval ρ p && c.eval ρ p) := by
  unfold createXorAnd
  simp only [Bool.or_eq_true]
  split_ifs with h1 h2 h3
  · funext p
    simp [createXor_eval, equals_eval_at hc hb hd h1]
  · obtain h2 | h2 := h2
    · simp [createXor_eval, eval_of_isZeroes h2]
    · simp [createXor_eval, eval_of_isOnes h2]
  · obtain h3 | h3 := h3
    · simp [createXor_eval, eval_of_isOnes h3]
    · simp [createXor_eval, eval_of_isZeroes h3]
  · exact createTernary_eval (f := fun x y z ↦ x ^^ (y && z)) (by decide)

omit ha hb hd hc in
/-- Every expression equals itself, so the second rule applies whenever the first does not. -/
theorem createXorOr_eval :
    (createXorOr h a b c).eval ρ =
      fun p ↦ a.eval ρ p ^^ (b.isOnes || c.isOnes) := by
  have hself : equals h b b = true := by
    cases b <;> simp [equals]
  unfold createXorOr
  simp only [hself, if_true]
  split_ifs with h1
  · simp [createXor_eval, PabloAST.eval, h1]
  · simp [createXor_eval, PabloAST.eval, h1]

end Ternaries

/-- Two calls that return the same node return nodes of the same value. -/
theorem Evaluates.unique {run : ℕ → Except Fault PabloAST} {s t : Stream}
    (hs : Evaluates ρ run s) (ht : Evaluates ρ run t) : s = t := by
  obtain ⟨n, e, hn, rfl⟩ := hs
  obtain ⟨m, f, hm, rfl⟩ := ht
  have he := hn (max n m) (by omega)
  rw [hm (max n m) (by omega)] at he
  cases he
  rfl

/-- When each constructor returns a node that has the value its name says. -/
structure ConstructorsExact (h : Heap) (ρ : Assignment) (mask : BitVec 8) (addr : ℕ)
    (a b c : PabloAST) : Prop where
  createNot : (createNot h a).eval ρ = fun p ↦ !a.eval ρ p
  createAnd : Evaluates ρ (createAnd h · a b) fun p ↦ a.eval ρ p && b.eval ρ p
  createOr : Evaluates ρ (createOr h · a b) fun p ↦ a.eval ρ p || b.eval ρ p
  createXor : (createXor h a b).eval ρ = fun p ↦ a.eval ρ p ^^ b.eval ρ p
  createSel :
    Evaluates ρ (createSel h · a b c)
        (fun p ↦ bif a.eval ρ p then b.eval ρ p else c.eval ρ p) ↔
      complementRule h a b c = false
  createAnd3 :
    Evaluates ρ (createAnd3 h · a b c) fun p ↦ a.eval ρ p && b.eval ρ p && c.eval ρ p
  createOr3 :
    Evaluates ρ (createOr3 h · a b c) fun p ↦ a.eval ρ p || b.eval ρ p || c.eval ρ p
  createXor3 :
    (createXor3 h a b c).eval ρ = fun p ↦ a.eval ρ p ^^ b.eval ρ p ^^ c.eval ρ p
  createMajority3 :
    (createMajority3 h a b c).eval ρ = fun p ↦
      a.eval ρ p && b.eval ρ p || a.eval ρ p && c.eval ρ p || b.eval ρ p && c.eval ρ p
  createAndOr :
    Evaluates ρ (createAndOr h · a b c) fun p ↦ a.eval ρ p && (b.eval ρ p || c.eval ρ p)
  createAndXor :
    (createAndXor h a b c).eval ρ = fun p ↦ a.eval ρ p && (b.eval ρ p ^^ c.eval ρ p)
  createOrAnd :
    Evaluates ρ (createOrAnd h · a b c) fun p ↦ a.eval ρ p || b.eval ρ p && c.eval ρ p
  createOrXor :
    (createOrXor h a b c).eval ρ = fun p ↦ a.eval ρ p || (b.eval ρ p ^^ c.eval ρ p)
  createXorAnd :
    (createXorAnd h a b c).eval ρ = fun p ↦ a.eval ρ p ^^ (b.eval ρ p && c.eval ρ p)
  createXorOr :
    ((createXorOr h a b c).eval ρ = fun p ↦ a.eval ρ p ^^ (b.eval ρ p || c.eval ρ p)) ↔
      b.isOnes ∨ c.isOnes ∨ ∀ p, b.eval ρ p = false ∧ c.eval ρ p = false
  createTernary :
    (createTernary h mask a b c).eval ρ =
      fun p ↦ ternary mask (a.eval ρ p) (b.eval ρ p) (c.eval ρ p)
  blockAnd3 :
    (PabloBlock.createAnd3 addr a b c).eval ρ =
      fun p ↦ a.eval ρ p && b.eval ρ p && c.eval ρ p
  blockOr3 :
    (PabloBlock.createOr3 addr a b c).eval ρ =
      fun p ↦ a.eval ρ p || b.eval ρ p || c.eval ρ p
  blockXor3 :
    (PabloBlock.createXor3 addr a b c).eval ρ =
      fun p ↦ a.eval ρ p ^^ b.eval ρ p ^^ c.eval ρ p
  blockMajority3 :
    (PabloBlock.createMajority3 addr a b c).eval ρ = fun p ↦
      a.eval ρ p && b.eval ρ p || a.eval ρ p && c.eval ρ p || b.eval ρ p && c.eval ρ p
  blockAndOr :
    (PabloBlock.createAndOr addr a b c).eval ρ =
      fun p ↦ a.eval ρ p && (b.eval ρ p || c.eval ρ p)
  blockAndXor :
    (PabloBlock.createAndXor addr a b c).eval ρ =
      fun p ↦ a.eval ρ p && (b.eval ρ p ^^ c.eval ρ p)
  blockOrAnd :
    (PabloBlock.createOrAnd addr a b c).eval ρ =
      fun p ↦ a.eval ρ p || b.eval ρ p && c.eval ρ p
  blockOrXor :
    (PabloBlock.createOrXor addr a b c).eval ρ =
      fun p ↦ a.eval ρ p || (b.eval ρ p ^^ c.eval ρ p)
  blockXorAnd :
    (PabloBlock.createXorAnd addr a b c).eval ρ =
      fun p ↦ a.eval ρ p ^^ (b.eval ρ p && c.eval ρ p)
  blockXorOr :
    (PabloBlock.createXorOr addr a b c).eval ρ =
      fun p ↦ a.eval ρ p ^^ (b.eval ρ p || c.eval ρ p)

theorem block_eval (addr : ℕ) {mask : BitVec 8} {f : Bool → Bool → Bool → Bool}
    (hf : ∀ x y z, ternary mask x y z = f x y z) :
    (PabloBlock.createTernary addr mask a b c).eval ρ =
      fun p ↦ f (a.eval ρ p) (b.eval ρ p) (c.eval ρ p) := by
  funext p
  exact hf _ _ _

theorem createSel_evaluates_iff (hc : CallsApart h cs) (ha : a.calls ⊆ cs) (hb : b.calls ⊆ cs)
    (hd : c.calls ⊆ cs) :
    Evaluates ρ (createSel h · a b c)
        (fun p ↦ bif a.eval ρ p then b.eval ρ p else c.eval ρ p) ↔
      complementRule h a b c = false := by
  constructor
  · intro hs
    cases hlast : complementRule h a b c with
    | false => rfl
    | true =>
      have := congrFun (hs.unique (createSel_complement hc hb hd hlast)) 0
      simp at this
  · exact createSel_evaluates hc ha hb hd

theorem createXorOr_eval_iff :
    ((createXorOr h a b c).eval ρ = fun p ↦ a.eval ρ p ^^ (b.eval ρ p || c.eval ρ p)) ↔
      b.isOnes ∨ c.isOnes ∨ ∀ p, b.eval ρ p = false ∧ c.eval ρ p = false := by
  rw [createXorOr_eval, funext_iff]
  simp only [Bool.xor_right_inj]
  cases hb : b.isOnes with
  | true => simp [eval_of_isOnes hb]
  | false =>
    cases hd : c.isOnes with
    | true => simp [eval_of_isOnes hd]
    | false => simp [eq_comm (a := false)]

/-- Addresses in the order of allocation, with every new node at one address. -/
def Heap.plain : Heap where
  less _ _ := false
  findOrCall _ := 9

/-- All bits of the leaf at address 1 are set, and only calls of `InclusiveSpan` have a bit. -/
def Assignment.plain : Assignment where
  leaf addr _ := addr == 1
  unary _ _ _ _ := false
  binary _ _ _ _ _ := false
  indexedAdvance _ _ _ _ := false
  intrinsic i _ _ _ _ := i == .InclusiveSpan

end Exactness

end Parabix.Pablo
