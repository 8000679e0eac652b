import Mathlib.Order.Lattice
import Parabix.Pablo.ExpressionTable

namespace Parabix.Pablo

namespace ExpressionTable

variable {T Value : Type*} [DecidableEq T] {S : Statements T Value}

theorem mem_of_lookup {table : Table T} {key : TableKey T} {r : Node}
    (h : lookup table key = some r) : (key, r) ∈ table := by
  obtain ⟨entry, hfind, rfl⟩ := Option.map_eq_some_iff.mp h
  have hkey : entry.1 = key := by simpa using List.find?_some hfind
  simpa [← hkey] using List.mem_of_find?_eq_some hfind

theorem mem_of_findOuter {tables : List (Table T)} {key : TableKey T} {r : Node}
    (h : findOuter tables key = some r) : ∃ table ∈ tables, (key, r) ∈ table := by
  induction tables with
  | nil => simp [findOuter] at h
  | cons pred outer ih =>
    rcases Option.or_eq_some_iff.mp h with hpred | hpred
    · exact ⟨pred, List.mem_cons_self, mem_of_lookup hpred⟩
    · obtain ⟨table, htable, hmem⟩ := ih hpred.2
      exact ⟨table, List.mem_cons_of_mem _ htable, hmem⟩

/-- What is found was entered, in this scope or one around it. -/
theorem mem_of_find {e : ExpressionTable T} {key : TableKey T} {r : Node}
    (h : e.find S key = some r) : ∃ table ∈ e.tables, (key, r) ∈ table := by
  cases htables : e.tables with
  | nil => simp [find, htables] at h
  | cons table outer =>
    rw [find, htables] at h
    rcases Option.or_eq_some_iff.mp h with hhere | houter
    · exact ⟨table, List.mem_cons_self, mem_of_lookup hhere⟩
    · by_cases hr : allow_recursion S key
      · have hfound : findOuter outer key = some r := by simpa [hr] using houter.2
        obtain ⟨t, ht, hmem⟩ := mem_of_findOuter hfound
        exact ⟨t, List.mem_cons_of_mem _ ht, hmem⟩
      · simp [hr] at houter

omit [DecidableEq T] in
@[simp]
theorem nested_next (e : ExpressionTable T) : e.nested.next = e.next := rfl

theorem findOrCall_some {e : ExpressionTable T} {key : TableKey T} {r : Node}
    (h : e.find S key = some r) : e.findOrCall S key = (r, e) := by
  simp [findOrCall, h]

theorem findOrCall_none {e : ExpressionTable T} {key : TableKey T} (h : e.find S key = none) :
    e.findOrCall S key = (.stmt e.next, e.insert key (.stmt e.next)) := by
  simp [findOrCall, h]

theorem evaluate_some {e : ExpressionTable T} {key : TableKey T} {r : Node} (V : Node → Value)
    (h : e.find S key = some r) : e.evaluate S key V = V := by
  simp [evaluate, h]

theorem evaluate_none {e : ExpressionTable T} {key : TableKey T} (V : Node → Value)
    (h : e.find S key = none) : e.evaluate S key V =
      Function.update V (.stmt e.next) (S.meaning key.typeId (key.args.map V)) := by
  simp [evaluate, h]

theorem next_le_findOrCall (e : ExpressionTable T) (key : TableKey T) :
    e.next ≤ (e.findOrCall S key).2.next := by
  cases h : e.find S key with
  | none => simp [findOrCall_none h, insert]
  | some r => simp [findOrCall_some h]

/-- A number is given to a statement once. -/
theorem next_le_afterCall (c : Call T) (e : ExpressionTable T) :
    e.next ≤ (afterCall S e c).next := by
  refine @Call.rec T (fun c ↦ ∀ e : ExpressionTable T, e.next ≤ (afterCall S e c).next)
    (fun calls ↦ ∀ e : ExpressionTable T, e.next ≤ (afterCalls S e calls).next)
    ?create ?assign ?branch ?nil ?cons c e
  case create =>
    intro key e
    simpa [afterCall] using next_le_findOrCall e key
  case assign => simp [afterCall]
  case branch =>
    intro isWhile condition body ih e
    simpa [afterCall] using ih e.nested
  case nil => simp [afterCalls]
  case cons =>
    intro c calls hc hcalls e
    simpa [afterCalls] using (hc e).trans (hcalls _)

/-- Nodes that are there before the calls, other than the Vars that these assign. -/
def Kept (e : ExpressionTable T) (vars : List ℕ) : Node → Prop
  | .var v => v ∉ vars
  | .leaf _ => True
  | .stmt i => i < e.next

omit [DecidableEq T] in
theorem Kept.mono {e e' : ExpressionTable T} {vars vars' : List ℕ} {n : Node}
    (h : Kept e vars n) (hnext : e.next ≤ e'.next) (hvars : ∀ v ∈ vars', v ∈ vars) :
    Kept e' vars' n := by
  cases n with
  | var v => exact fun hv ↦ h (hvars v hv)
  | leaf i => trivial
  | stmt i => exact lt_of_lt_of_le h hnext

theorem evaluate_of_kept {e : ExpressionTable T} {key : TableKey T} {vars : List ℕ} {n : Node}
    (V : Node → Value) (h : Kept e vars n) : e.evaluate S key V n = V n := by
  cases hfind : e.find S key with
  | some r => rw [evaluate_some V hfind]
  | none =>
    rw [evaluate_none V hfind]
    apply Function.update_of_ne
    rintro rfl
    exact lt_irrefl _ h

/-- An execution changes no other values than those of the Vars that are assigned and of the
statements that are made. -/
theorem Executes.value_eq {holds : Value → Prop} {e : ExpressionTable T} {calls : List (Call T)}
    {V V' : Node → Value} (h : Executes S holds e calls V V') :
    ∀ n, Kept e (assigned calls) n → V' n = V n := by
  induction h with
  | nil e V => exact fun _ _ ↦ rfl
  | @create e key calls V V' _ ih =>
    intro n hn
    have hrest : V' n = e.evaluate S key V n :=
      ih n (hn.mono (next_le_findOrCall e key) (by simp [assigned, assignedBy]))
    exact hrest.trans (evaluate_of_kept V hn)
  | @assign e v value calls V V' _ ih =>
    intro n hn
    have hrest := ih n (hn.mono le_rfl (by simp +contextual [assigned]))
    apply hrest.trans
    apply Function.update_of_ne
    rintro rfl
    exact hn (by simp [assigned, assignedBy])
  | skip _ _ ih =>
    intro n hn
    exact ih n (hn.mono (next_le_afterCall _ _) (by simp +contextual [assigned]))
  | once _ _ _ ihbody ih =>
    intro n hn
    have hrest := ih n (hn.mono (next_le_afterCall _ _) (by simp +contextual [assigned]))
    exact hrest.trans (ihbody n (hn.mono le_rfl (by simp +contextual [assigned, assignedBy])))
  | again _ _ _ ihbody ih =>
    intro n hn
    exact (ih n hn).trans (ihbody n (hn.mono le_rfl (by simp +contextual [assigned, assignedBy])))

/-- The operands of a statement were there when it was made, and unless a Var among them was
assigned since, its value is what they make now. -/
structure Entered (S : Statements T Value) (e : ExpressionTable T) (stale : Node → Prop)
    (V : Node → Value) (entry : TableKey T × Node) : Prop where
  made : Kept e [] entry.2
  operands : ∀ n ∈ entry.1.args, Kept e [] n
  current : ¬ stale entry.2 → V entry.2 = S.meaning entry.1.typeId (entry.1.args.map V)
  not_var : entry.2.isVar = false

def Invariant (S : Statements T Value) (e : ExpressionTable T) (stale : Node → Prop)
    (V : Node → Value) : Prop :=
  ∀ table ∈ e.tables, ∀ entry ∈ table, Entered S e stale V entry

variable {e e' : ExpressionTable T} {stale stale' : Node → Prop} {V V' : Node → Value}

omit [DecidableEq T] in
theorem Entered.mono {entry : TableKey T × Node} (h : Entered S e stale V entry)
    (hnext : e.next ≤ e'.next) (hstale : ∀ r, stale r → stale' r) :
    Entered S e' stale' V entry where
  made := h.made.mono hnext (by simp)
  operands n hn := (h.operands n hn).mono hnext (by simp)
  current hr := h.current fun hs ↦ hr (hstale _ hs)
  not_var := h.not_var

omit [DecidableEq T] in
theorem Invariant.mono (h : Invariant S e stale V) (htables : e'.tables = e.tables)
    (hnext : e.next ≤ e'.next) (hstale : ∀ r, stale r → stale' r) : Invariant S e' stale' V := by
  intro table htable entry hentry
  exact (h table (htables ▸ htable) entry hentry).mono hnext hstale

omit [DecidableEq T] in
theorem Invariant.nested (h : Invariant S e stale V) : Invariant S e.nested stale V := by
  intro table htable entry hentry
  rcases List.mem_cons.mp htable with rfl | htable
  · simp at hentry
  · exact (h table htable entry hentry).mono le_rfl fun _ ↦ id

omit [DecidableEq T] in
theorem Kept.of_not_uses {vars : List ℕ} {n : Node} (h : Kept e [] n)
    (hn : ∀ v ∈ vars, Node.var v ≠ n) : Kept e vars n := by
  cases n with
  | var v => exact fun hv ↦ hn v hv rfl
  | leaf i => trivial
  | stmt i => exact h

omit [DecidableEq T] in
/-- The statements that use a Var which is assigned become stale. -/
theorem Invariant.changes {vars : List ℕ} (h : Invariant S e stale V)
    (hV : ∀ n, Kept e vars n → V' n = V n) :
    Invariant S e (fun r ↦ stale r ∨ Uses e vars r) V' := by
  intro table htable entry hentry
  have hin := h table htable entry hentry
  refine ⟨hin.made, hin.operands, fun hr ↦ ?_, hin.not_var⟩
  have hargs : ∀ n ∈ entry.1.args, V' n = V n := by
    intro n hn
    apply hV
    apply (hin.operands n hn).of_not_uses
    rintro v hv rfl
    exact hr (.inr ⟨table, htable, entry, hentry, rfl, v, hv, hn⟩)
  have hnode : V' entry.2 = V entry.2 := by
    apply hV
    apply hin.made.of_not_uses
    intro v hv heq
    have hnot := hin.not_var
    rw [← heq] at hnot
    cases hnot
  calc V' entry.2 = V entry.2 := hnode
    _ = S.meaning entry.1.typeId (entry.1.args.map V) := hin.current fun hs ↦ hr (.inl hs)
    _ = S.meaning entry.1.typeId (entry.1.args.map V') := by
      rw [List.map_congr_left hargs]

section Create

variable {key : TableKey T}

theorem kept_of_operandsMade (h : OperandsMade S e (.create key)) :
    ∀ n ∈ key.args, Kept e [] n := by
  intro n hn
  cases n with
  | var v => simp [Kept]
  | leaf i => trivial
  | stmt i => exact h i hn

/-- A new statement has the value that its operands make. -/
theorem evaluate_new (hmade : OperandsMade S e (.create key)) (hfind : e.find S key = none) :
    e.evaluate S key V (.stmt e.next)
      = S.meaning key.typeId (key.args.map (e.evaluate S key V)) := by
  have hargs : ∀ n ∈ key.args, e.evaluate S key V n = V n := fun n hn ↦
    evaluate_of_kept V (kept_of_operandsMade hmade n hn)
  rw [List.map_congr_left hargs, evaluate_none V hfind]
  simp

/-- The node that a call returns has the value that its operands make there. -/
theorem Invariant.value_create (h : Invariant S e stale V)
    (hmade : OperandsMade S e (.create key)) (hcur : FindsCurrent S e stale (.create key)) :
    e.evaluate S key V (e.findOrCall S key).1
      = S.meaning key.typeId (key.args.map (e.evaluate S key V)) := by
  cases hfind : e.find S key with
  | none =>
    rw [findOrCall_none hfind]
    exact evaluate_new hmade hfind
  | some r =>
    rw [findOrCall_some hfind, evaluate_some V hfind]
    obtain ⟨table, htable, hentry⟩ := mem_of_find hfind
    exact (h table htable _ hentry).current (hcur r hfind)

theorem Invariant.create (h : Invariant S e stale V) (hmade : OperandsMade S e (.create key)) :
    Invariant S (e.findOrCall S key).2 stale (e.evaluate S key V) := by
  cases hfind : e.find S key with
  | some r => simpa [findOrCall_some hfind, evaluate_some V hfind] using h
  | none =>
    have hold : ∀ table ∈ e.tables, ∀ entry ∈ table,
        Entered S (e.insert key (.stmt e.next)) stale (e.evaluate S key V) entry := by
      intro table htable entry hentry
      have hin := h table htable entry hentry
      have hargs : ∀ n ∈ entry.1.args, e.evaluate S key V n = V n := fun n hn ↦
        evaluate_of_kept V (hin.operands n hn)
      have hnode : e.evaluate S key V entry.2 = V entry.2 := evaluate_of_kept V hin.made
      have hsame : Entered S e stale (e.evaluate S key V) entry := by
        refine ⟨hin.made, hin.operands, fun hr ↦ ?_, hin.not_var⟩
        rw [hnode, List.map_congr_left hargs]
        exact hin.current hr
      exact hsame.mono (Nat.le_succ _) fun _ ↦ id
    have hnew : Entered S (e.insert key (.stmt e.next)) stale (e.evaluate S key V)
        (key, .stmt e.next) := by
      refine ⟨Nat.lt_succ_self _, fun n hn ↦ ?_, fun _ ↦ evaluate_new hmade hfind, rfl⟩
      exact (kept_of_operandsMade hmade n hn).mono (Nat.le_succ _) (by simp)
    rw [findOrCall_none hfind]
    intro table htable entry hentry
    cases htables : e.tables with
    | nil => simp [insert, htables] at htable
    | cons first outer =>
      rw [htables] at hold
      have hcases : table = (key, .stmt e.next) :: first ∨ table ∈ outer := by
        simpa [insert, htables] using htable
      rcases hcases with rfl | houter
      · rcases List.mem_cons.mp hentry with rfl | hfirst
        · exact hnew
        · exact hold first List.mem_cons_self entry hfirst
      · exact hold table (List.mem_cons_of_mem _ houter) entry hentry

end Create

section Branch

variable {holds : Value → Prop} {isWhile : Bool} {condition : Node} {body calls : List (Call T)}

omit [DecidableEq T] in
theorem Invariant.inside (h : Invariant S e stale V) :
    Invariant S e.nested (fun r ↦ stale r ∨ isWhile = true ∧ Uses e (assigned body) r) V :=
  h.nested.mono rfl le_rfl fun _ ↦ .inl

theorem Invariant.skip (h : Invariant S e stale V) :
    Invariant S (afterCall S e (.branch isWhile condition body))
      (fun r ↦ stale r ∨ Uses e (assigned body) r) V :=
  h.mono (by simp [afterCall]) (next_le_afterCall _ _) fun _ ↦ .inl

/-- What holds around a body holds again when it was executed. -/
theorem Invariant.executed (h : Invariant S e stale V)
    (hbody : Executes S holds e.nested body V V') :
    Invariant S e (fun r ↦ stale r ∨ Uses e (assigned body) r) V' :=
  h.changes fun n hn ↦ hbody.value_eq n (hn.mono le_rfl fun _ ↦ id)

/-- The body of a While finds no other statements when the execution comes by again. -/
theorem current_again
    (h : AllCurrent S e stale (.branch true condition body :: calls)) :
    AllCurrent S e (fun r ↦ stale r ∨ Uses e (assigned body) r)
      (.branch true condition body :: calls) := by
  have hafter : (fun r ↦ (stale r ∨ Uses e (assigned body) r) ∨ Uses e (assigned body) r)
      = fun r ↦ stale r ∨ Uses e (assigned body) r := by
    funext r
    simp
  simp only [AllCurrent, FindsCurrent, assignedBy, true_and] at h ⊢
  rw [hafter]
  exact h

end Branch

/-- Wherever a call returns a node, this has the value that the operands make there, provided that
no call gets a stale statement back. -/
theorem Reaches.value_eq {holds : Value → Prop} {calls : List (Call T)} {k : TableKey T} {r : Node}
    (h : Reaches S holds e calls V k r V') :
    ∀ stale, Invariant S e stale V → AllMade S e calls → AllCurrent S e stale calls →
      V' r = S.meaning k.typeId (k.args.map V') := by
  induction h with
  | here e key calls V =>
    intro stale hinv hmade hcur
    exact hinv.value_create hmade.1 hcur.1
  | create _ ih =>
    intro stale hinv hmade hcur
    exact ih _ ((hinv.create hmade.1).mono rfl le_rfl fun _ ↦ .inl) hmade.2 hcur.2
  | @assign e v value r calls k V V' _ ih =>
    intro stale hinv hmade hcur
    have hchange : ∀ n, Kept e [v] n → Function.update V (.var v) (V value) n = V n := by
      intro n hn
      apply Function.update_of_ne
      rintro rfl
      exact hn (List.mem_singleton_self v)
    exact ih _ (hinv.changes hchange) hmade.2 hcur.2
  | skip _ _ ih =>
    intro stale hinv hmade hcur
    exact ih _ hinv.skip hmade.2 hcur.2
  | inside _ _ ih =>
    intro stale hinv hmade hcur
    exact ih _ hinv.inside hmade.1 hcur.1
  | once _ hbody _ ih =>
    intro stale hinv hmade hcur
    have hafter := hinv.executed hbody
    exact ih _ (hafter.mono (by simp [afterCall]) (next_le_afterCall _ _) fun _ ↦ id) hmade.2 hcur.2
  | again _ hbody _ ih =>
    intro stale hinv hmade hcur
    exact ih _ (hinv.executed hbody) hmade (current_again hcur)

/-- The table of a program before its first statement. -/
def start : ExpressionTable T := ⟨[[]], 0⟩

/-- In every execution of what calls build, each node that a call returned has the value there that
its operands make, if no call got a statement back of which a Var was assigned since it was made. -/
theorem findOrCall_exact (S : Statements T Value) (holds : Value → Prop) (calls : List (Call T))
    (hmade : AllMade S start calls) (hcurrent : AllCurrent S start (fun _ ↦ False) calls)
    (V V' : Node → Value) (key : TableKey T) (r : Node)
    (h : Reaches S holds start calls V key r V') :
    V' r = S.meaning key.typeId (key.args.map V') := by
  have hstart : Invariant S start (fun _ ↦ False) V := by
    intro table htable entry hentry
    have hempty : table = [] := by simpa [start] using htable
    simp [hempty] at hentry
  exact h.value_eq _ hstart hmade hcurrent

/-- The statements `createNot(…)`, over a stream of one position. -/
def notStatements : Statements Unit Bool where
  isIntrinsic _ := false
  meaning _ args := !args.headD false

def notOfVar : TableKey Unit := ⟨(), [.var 0]⟩

def values (n : Node) : Bool := n = .leaf 0

/-- `createNot(v)` twice. -/
theorem findOrCall_exact_twice :
    Reaches notStatements (· = true) start [.create notOfVar, .create notOfVar] values notOfVar
      (.stmt 0) (Function.update values (.stmt 0) true)
    ∧ Function.update values (.stmt 0) true (.stmt 0)
      = notStatements.meaning () (notOfVar.args.map (Function.update values (.stmt 0) true)) := by
  have hreach : Reaches notStatements (· = true) start [.create notOfVar, .create notOfVar] values
      notOfVar (.stmt 0) (Function.update values (.stmt 0) true) :=
    .create (.here _ notOfVar [] _)
  have hmade : AllMade notStatements start [.create notOfVar, .create notOfVar] := by
    simp [AllMade, OperandsMade, notOfVar]
  have hcurrent : AllCurrent notStatements start (fun _ ↦ False)
      [.create notOfVar, .create notOfVar] := by
    simp [AllCurrent, FindsCurrent, Uses, assignedBy]
  exact ⟨hreach, findOrCall_exact notStatements _ _ hmade hcurrent _ _ _ _ hreach⟩

/-- `createNot(v)`, `createAssign(v, x)` and `createNot(v)`: the first statement is returned again,
with the value of before the assignment. -/
theorem findOrCall_stale :
    ¬ ∀ (S : Statements Unit Bool) (holds : Bool → Prop) (calls : List (Call Unit)),
      AllMade S start calls → ∀ (V V' : Node → Bool) (key : TableKey Unit) (r : Node),
        Reaches S holds start calls V key r V' →
          V' r = S.meaning key.typeId (key.args.map V') := by
  intro h
  have hmade : AllMade notStatements start
      [.create notOfVar, .assign 0 (.leaf 0), .create notOfVar] := by
    simp [AllMade, OperandsMade, notOfVar]
  have hvalue := h notStatements (· = true) _ hmade values _ notOfVar _
    (.create (.assign (.here _ notOfVar [] _)))
  exact absurd hvalue (by decide)

end ExpressionTable

end Parabix.Pablo
