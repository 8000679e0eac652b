import Parabix.Pablo.BixNumDivision

namespace Parabix.Pablo.BixNumCompiler

open Library Library.BitStream

section Operations

variable {α : Type} (mPB : PabloBuilder α)

/-- The bits that the two numbers have in common are compared. -/
def compareLoop (UGT_so_far : α) : BixNum α → BixNum α → α
  | [], _ => UGT_so_far
  | _, [] => UGT_so_far
  | a :: value, b :: floor =>
    compareLoop (mPB.createSel b (mPB.createAnd a UGT_so_far) (mPB.createOr a UGT_so_far))
      value floor

/-- The disjunction of the bits above the shorter number. -/
def anyBit : BixNum α → α
  | [] => mPB.createZeroes
  | bit :: bits => bits.foldl mPB.createOr bit

/-- Two numbers are compared. Without bits `i_common` would wrap around, and the loop would leave
the shorter vector. -/
def UGTBixNum (value floor : BixNum α) : Except Fault α :=
  if value.isEmpty || floor.isEmpty then
    .error .memory
  else
    let UGT_so_far := compareLoop mPB mPB.createZeroes value floor
    if value.length = floor.length then
      .ok UGT_so_far
    else if floor.length < value.length then
      .ok (mPB.createOr UGT_so_far (anyBit mPB (value.drop floor.length)))
    else
      .ok (mPB.createAnd UGT_so_far (mPB.createNot (anyBit mPB (floor.drop value.length))))

def ULEBixNum (value ceil : BixNum α) : Except Fault α := do
  return mPB.createNot (← UGTBixNum mPB value ceil)

def ULTBixNum (value ceil : BixNum α) : Except Fault α := UGTBixNum mPB ceil value

def UGEBixNum (value floor : BixNum α) : Except Fault α := do
  return mPB.createNot (← ULTBixNum mPB value floor)

def differLoop (any_NEQ : α) : BixNum α → BixNum α → α
  | [], _ => any_NEQ
  | _, [] => any_NEQ
  | a :: value, b :: test =>
    differLoop (mPB.createOr any_NEQ (mPB.createXor a b)) value test

/-- The shorter number comes second. -/
def NEQBixNum (value test : BixNum α) : Except Fault α :=
  let (value, test) := if value.length < test.length then (test, value) else (value, test)
  if test.isEmpty then
    .error .memory
  else
    let any_NEQ := (value.drop test.length).foldl mPB.createOr mPB.createZeroes
    .ok (differLoop mPB any_NEQ value test)

def EQBixNum (value test : BixNum α) : Except Fault α := do
  return mPB.createNot (← NEQBixNum mPB value test)

/-- `x >> width` of the type `unsigned`. -/
def shiftedOut (x width : ℕ) : Except Fault ℕ :=
  if width < 32 then .ok (x >>> width) else .error .poison

/-- A number is compared with a constant, which is first shifted by the width of the number. -/
def UGTConst (value : BixNum α) (floor : ℕ) : Except Fault α := do
  if (← shiftedOut floor value.length) ≠ 0 then
    return mPB.createZeroes
  else if value.isEmpty then
    throw .memory
  else
    return UGTLoop mPB floor mPB.createZeroes 0 value

def UGEConst (value : BixNum α) (floor : ℕ) : Except Fault α :=
  if floor = 0 then .ok mPB.createOnes else UGTConst mPB value (floor - 1)

def ULEConst (value : BixNum α) (ceil : ℕ) : Except Fault α := do
  return mPB.createNot (← UGTConst mPB value ceil)

def ULTConst (value : BixNum α) (ceil : ℕ) : Except Fault α := do
  return mPB.createNot (← UGEConst mPB value ceil)

def EQConst (value : BixNum α) (floor : ℕ) : Except Fault α := do
  if (← shiftedOut floor value.length) ≠ 0 then
    return mPB.createZeroes
  else
    let (EQ_1, EQ_0) := EQLoop mPB floor mPB.createOnes mPB.createZeroes 0 value
    return mPB.createAnd EQ_1 (mPB.createNot EQ_0)

def NEQConst (value : BixNum α) (floor : ℕ) : Except Fault α := do
  return mPB.createNot (← EQConst mPB value floor)

end Operations

section Exact

variable {α : Type} {mPB : PabloBuilder α} {eval : α → Stream} (h : mPB.Lawful eval)
  {n k : BixNum α} {a c : α} {p x : ℕ} {r : Except Fault α} {P Q : ℕ → Prop}

/-- An expression that is one exactly at the positions with the property. -/
def Decides (eval : α → Stream) (r : Except Fault α) (P : ℕ → Prop) : Prop :=
  ∃ a, r = .ok a ∧ ∀ p, eval a p = true ↔ P p

theorem decides_congr (hPQ : ∀ p, P p ↔ Q p) : Decides eval r P ↔ Decides eval r Q := by
  simp only [Decides, hPQ]

theorem not_decides_error {e : Fault} : ¬ Decides eval (.error e) P := by
  rintro ⟨a, ha, -⟩
  cases ha

include h in
/-- A negated result is exact iff the result is. -/
theorem decides_not : Decides eval (r >>= fun a ↦ .ok (mPB.createNot a)) (fun p ↦ ¬ P p) ↔
    Decides eval r P := by
  cases r with
  | error e => exact ⟨fun hr ↦ (not_decides_error hr).elim, fun hr ↦ (not_decides_error hr).elim⟩
  | ok a =>
    constructor
    · rintro ⟨b, hb, heval⟩
      cases hb
      refine ⟨a, rfl, fun p ↦ ?_⟩
      have hnot := heval p
      rw [h.not] at hnot
      cases hbit : eval a p <;> rw [hbit] at hnot <;> simpa using hnot
    · rintro ⟨b, hb, heval⟩
      cases hb
      refine ⟨mPB.createNot a, rfl, fun p ↦ ?_⟩
      rw [h.not, Bool.not_eq_true', ← Bool.not_eq_true, heval]

include h

/-- As in the comparison with a constant, the upper bits decide first. -/
theorem eval_compareLoop : eval (compareLoop mPB c n k) p =
    decide (value eval p (k.take n.length) < value eval p (n.take k.length) +
      (eval c p).toNat) := by
  induction n generalizing c k with
  | nil => cases hc : eval c p <;> simp [compareLoop, hc]
  | cons a n ih =>
    cases k with
    | nil => cases hc : eval c p <;> simp [compareLoop, hc]
    | cons b k =>
      rw [compareLoop, ih, List.length_cons, List.length_cons, List.take_succ_cons,
        List.take_succ_cons, value_cons, value_cons, h.sel, h.and, h.or]
      cases eval a p <;> cases eval b p <;> cases eval c p <;> simp <;> omega

theorem eval_foldl_or : eval (n.foldl mPB.createOr c) p =
    (eval c p || decide (0 < value eval p n)) := by
  induction n generalizing c with
  | nil => rw [List.foldl_nil, value_nil, decide_eq_false (Nat.lt_irrefl 0), Bool.or_false]
  | cons a n ih =>
    rw [List.foldl_cons, ih, h.or, value_cons]
    cases eval a p <;> cases eval c p <;> simp

theorem eval_anyBit : eval (anyBit mPB n) p = decide (0 < value eval p n) := by
  cases n with
  | nil => exact h.zeroes p
  | cons a n =>
    rw [anyBit, eval_foldl_or h, value_cons]
    cases eval a p <;> simp

/-- The comparison of two numbers of any widths is exact. -/
theorem decides_UGTBixNum (hn : n ≠ []) (hk : k ≠ []) : Decides eval (UGTBixNum mPB n k)
    fun p ↦ value eval p k < value eval p n := by
  have hbits : (n.isEmpty || k.isEmpty) = false := by simp [hn, hk]
  rw [UGTBixNum, if_neg (Bool.eq_false_iff.1 hbits)]
  dsimp only
  split_ifs with hsame hlong
  · refine ⟨_, rfl, fun p ↦ ?_⟩
    rw [eval_compareLoop h, h.zeroes, hsame, List.take_length, ← hsame, List.take_length]
    simp
  · refine ⟨_, rfl, fun p ↦ ?_⟩
    have hk := @value_lt _ eval p k
    have hsplit := Nat.mod_add_div (value eval p n) (2 ^ k.length)
    rw [h.or, eval_compareLoop h, eval_anyBit h, h.zeroes, List.take_of_length_le hlong.le,
      value_take, value_drop]
    rcases Nat.eq_zero_or_pos (value eval p n / 2 ^ k.length) with hzero | hpos
    · rw [hzero, Nat.mul_zero, Nat.add_zero] at hsplit
      rw [hzero, hsplit]
      simp
    · have hle := Nat.le_mul_of_pos_right (2 ^ k.length) hpos
      simp only [decide_eq_true hpos, Bool.or_true, true_iff]
      omega
  · refine ⟨_, rfl, fun p ↦ ?_⟩
    have hn := @value_lt _ eval p n
    have hsplit := Nat.mod_add_div (value eval p k) (2 ^ n.length)
    rw [h.and, h.not, eval_compareLoop h, eval_anyBit h, h.zeroes,
      List.take_of_length_le (Nat.le_of_not_lt hlong), value_take, value_drop]
    rcases Nat.eq_zero_or_pos (value eval p k / 2 ^ n.length) with hzero | hpos
    · rw [hzero, Nat.mul_zero, Nat.add_zero] at hsplit
      rw [hzero, hsplit]
      simp
    · have hle := Nat.le_mul_of_pos_right (2 ^ n.length) hpos
      simp only [decide_eq_true hpos, Bool.not_true, Bool.and_false, Bool.false_eq_true,
        false_iff]
      omega

theorem eval_differLoop : eval (differLoop mPB c n k) p =
    (eval c p || decide (value eval p (n.take k.length) ≠ value eval p (k.take n.length))) := by
  induction n generalizing c k with
  | nil => cases k <;> simp [differLoop]
  | cons a n ih =>
    cases k with
    | nil => simp [differLoop]
    | cons b k =>
      rw [differLoop, ih, List.length_cons, List.length_cons, List.take_succ_cons,
        List.take_succ_cons, value_cons, value_cons, h.or, h.xor]
      cases eval a p <;> cases eval b p <;> cases eval c p <;> simp <;> omega

theorem decides_NEQBixNum (hn : n ≠ []) (hk : k ≠ []) : Decides eval (NEQBixNum mPB n k)
    fun p ↦ value eval p n ≠ value eval p k := by
  have hlonger {n k : BixNum α} (hk : k ≠ []) (hle : k.length ≤ n.length) :
      Decides eval (if k.isEmpty then .error .memory else
        .ok (differLoop mPB ((n.drop k.length).foldl mPB.createOr mPB.createZeroes) n k))
        fun p ↦ value eval p n ≠ value eval p k := by
    rw [if_neg (by simpa using hk)]
    refine ⟨_, rfl, fun p ↦ ?_⟩
    have hlt := @value_lt _ eval p k
    have hsplit := Nat.mod_add_div (value eval p n) (2 ^ k.length)
    rw [eval_differLoop h, eval_foldl_or h, h.zeroes, List.take_of_length_le hle, value_take,
      value_drop, Bool.false_or]
    rcases Nat.eq_zero_or_pos (value eval p n / 2 ^ k.length) with hzero | hpos
    · rw [hzero, Nat.mul_zero, Nat.add_zero] at hsplit
      rw [hzero, hsplit]
      simp
    · have hle := Nat.le_mul_of_pos_right (2 ^ k.length) hpos
      simp only [decide_eq_true hpos, Bool.true_or, true_iff]
      omega
  rw [NEQBixNum]
  split_ifs with hlt
  · exact (decides_congr fun p ↦ ne_comm).1 (hlonger hn hlt.le)
  · exact hlonger hk (Nat.le_of_not_lt hlt)

omit h in
theorem UGTConst_eq (hn : n ≠ []) (hlt : n.length < 32) : UGTConst mPB n x = .ok (UGT mPB n x) := by
  rw [UGTConst, shiftedOut, if_pos hlt, ok_bind, UGT]
  split_ifs with hlarge hempty
  · rfl
  · exact absurd (List.isEmpty_iff.1 hempty) hn
  · rfl

/-- The comparison with a constant is exact unless the shift is too far. -/
theorem decides_UGTConst (hn : n ≠ []) :
    Decides eval (UGTConst mPB n x) (fun p ↦ x < value eval p n) ↔ n.length < 32 := by
  constructor
  · intro hr
    by_contra hge
    rw [UGTConst, shiftedOut, if_neg hge] at hr
    exact not_decides_error hr
  · intro hlt
    rw [UGTConst_eq hn hlt]
    refine ⟨_, rfl, fun p ↦ ?_⟩
    rw [eval_UGT h, decide_eq_true_iff]

theorem decides_UGEConst (hn : n ≠ []) :
    Decides eval (UGEConst mPB n x) (fun p ↦ x ≤ value eval p n) ↔ n.length < 32 ∨ x = 0 := by
  rw [UGEConst]
  split_ifs with hzero
  · refine iff_of_true ⟨_, rfl, fun p ↦ ?_⟩ (.inr hzero)
    rw [h.ones, hzero]
    exact iff_of_true rfl (Nat.zero_le _)
  · rw [or_iff_left hzero, ← decides_UGTConst h hn]
    exact decides_congr fun p ↦ by omega

theorem decides_EQConst :
    Decides eval (EQConst mPB n x) (fun p ↦ value eval p n = x) ↔ n.length < 32 := by
  constructor
  · intro hr
    by_contra hge
    rw [EQConst, shiftedOut, if_neg hge] at hr
    exact not_decides_error hr
  · intro hlt
    have hEQ : EQConst mPB n x = .ok (EQ mPB n x) := by
      rw [EQConst, shiftedOut, if_pos hlt, ok_bind, EQ]
      split_ifs <;> rfl
    rw [hEQ]
    refine ⟨_, rfl, fun p ↦ ?_⟩
    rw [eval_EQ h, decide_eq_true_iff]

end Exact

/-- Numbers of all widths are compared and selected exactly; a comparison with a constant is exact
where the constant can be shifted by the width. -/
theorem comparisons_exact {α : Type} {mPB : PabloBuilder α} {eval : α → Stream}
    (h : mPB.Lawful eval) {n : BixNum α} (hn : n ≠ []) :
    (∀ k : BixNum α, k ≠ [] →
      Decides eval (UGTBixNum mPB n k) (fun p ↦ value eval p n > value eval p k) ∧
      Decides eval (UGEBixNum mPB n k) (fun p ↦ value eval p n ≥ value eval p k) ∧
      Decides eval (ULTBixNum mPB n k) (fun p ↦ value eval p n < value eval p k) ∧
      Decides eval (ULEBixNum mPB n k) (fun p ↦ value eval p n ≤ value eval p k) ∧
      Decides eval (EQBixNum mPB n k) (fun p ↦ value eval p n = value eval p k) ∧
      Decides eval (NEQBixNum mPB n k) (fun p ↦ value eval p n ≠ value eval p k) ∧
      ∀ c p, value eval p (Select mPB c n k) =
        if eval c p then value eval p n else value eval p k) ∧
    ∀ x < 2 ^ 32,
      (Decides eval (UGTConst mPB n x) (fun p ↦ value eval p n > x) ↔ n.length < 32) ∧
      (Decides eval (UGEConst mPB n x) (fun p ↦ value eval p n ≥ x) ↔ n.length < 32 ∨ x = 0) ∧
      (Decides eval (ULTConst mPB n x) (fun p ↦ value eval p n < x) ↔ n.length < 32 ∨ x = 0) ∧
      (Decides eval (ULEConst mPB n x) (fun p ↦ value eval p n ≤ x) ↔ n.length < 32) ∧
      (Decides eval (EQConst mPB n x) (fun p ↦ value eval p n = x) ↔ n.length < 32) ∧
      (Decides eval (NEQConst mPB n x) (fun p ↦ value eval p n ≠ x) ↔ n.length < 32) := by
  refine ⟨fun k hk ↦ ⟨decides_UGTBixNum h hn hk, ?_, decides_UGTBixNum h hk hn, ?_, ?_,
    decides_NEQBixNum h hn hk, fun c p ↦ ?_⟩, fun x _ ↦ ⟨decides_UGTConst h hn,
    decides_UGEConst h hn, ?_, ?_, decides_EQConst h, ?_⟩⟩
  · exact (decides_congr fun p ↦ Nat.not_lt).1 ((decides_not h).2 (decides_UGTBixNum h hk hn))
  · exact (decides_congr fun p ↦ Nat.not_lt).1 ((decides_not h).2 (decides_UGTBixNum h hn hk))
  · exact (decides_congr fun p ↦ not_not).1 ((decides_not h).2 (decides_NEQBixNum h hn hk))
  · rw [value_select h, Bool.cond_eq_ite]
  · exact ((decides_congr fun p ↦ Nat.not_le.symm).trans (decides_not h)).trans
      (decides_UGEConst h hn)
  · exact ((decides_congr fun p ↦ Nat.not_lt.symm).trans (decides_not h)).trans
      (decides_UGTConst h hn)
  · exact (decides_not h).trans (decides_EQConst h)

/-- Numbers of two widths are compared, and one of them with a constant. -/
theorem comparisons_exact_streams :
    (Decides id (UGTBixNum .streams [fun _ ↦ true] [fun p ↦ p == 1, fun _ ↦ true]) fun p ↦
      value id p [fun _ ↦ true] > value id p [fun p ↦ p == 1, fun _ ↦ true]) ∧
    Decides id (UGEConst .streams [fun _ ↦ true] 7) fun p ↦ value id p [fun _ ↦ true] ≥ 7 :=
  ⟨((comparisons_exact PabloBuilder.streams_lawful (List.cons_ne_nil (fun _ ↦ true) [])).1
      [fun p ↦ p == 1, fun _ ↦ true] (List.cons_ne_nil _ _)).1,
    ((comparisons_exact PabloBuilder.streams_lawful (List.cons_ne_nil (fun _ ↦ true) [])).2 7
      (by decide)).2.1.2 (.inl (by decide))⟩

/-- For a number of 32 bits the constant is shifted by its own width. -/
theorem UGT_32 : ¬ Decides id (UGTConst .streams (List.replicate 32 fun _ ↦ true) 5)
    fun p ↦ value id p (List.replicate 32 fun _ ↦ true) > 5 :=
  not_decides_error

end Parabix.Pablo.BixNumCompiler
