import Parabix.Library.BitStream

namespace Parabix.Pablo

open Library.BitStream

variable {w : ℕ}

/-- Full addition of blocks: the carry out and the sum. -/
def bitblock_add_with_carry (a b carryin : BitVec w) : BitVec w × BitVec w :=
  let carrygen := a &&& b
  let carryprop := a ||| b
  let sum := a + b + carryin
  let carryout := carrygen ||| (carryprop &&& ~~~sum)
  (carryout >>> (w - 1), sum)

/-- The statements that are compiled to one addition. -/
inductive ScanStatement where
  | MatchStar
  | ScanThru
  | ScanTo
  | AdvanceThenScanThru
  | AdvanceThenScanTo
deriving DecidableEq, Repr

/-- A block of the two operands of a statement, with the end of file in it. -/
structure Operands (w : ℕ) where
  from_ : BitVec w
  to_ : BitVec w
  EOFbit : BitVec w
deriving DecidableEq, Repr

/-- One block of a statement: the carry out and the value. -/
def compileStatement (stmt : ScanStatement) (e : Operands w) (carryIn : BitVec w) :
    BitVec w × BitVec w :=
  match stmt with
  | .MatchStar =>
    let marker := e.from_
    let cc := e.to_
    let (carryOut, sum) := bitblock_add_with_carry (marker &&& cc) cc carryIn
    (carryOut, (sum ^^^ cc) ||| marker)
  | .ScanThru =>
    let (carryOut, sum) := bitblock_add_with_carry e.from_ e.to_ carryIn
    (carryOut, sum &&& ~~~e.to_)
  | .ScanTo =>
    let scanTo := e.to_ ||| e.EOFbit
    let (carryOut, sum) := bitblock_add_with_carry e.from_ (~~~scanTo) carryIn
    (carryOut, sum &&& scanTo)
  | .AdvanceThenScanThru =>
    let (carryOut, sum) := bitblock_add_with_carry e.from_ (e.from_ ||| e.to_) carryIn
    (carryOut, sum &&& ~~~e.to_)
  | .AdvanceThenScanTo =>
    let scanTo := e.to_ ||| e.EOFbit
    let (carryOut, sum) := bitblock_add_with_carry e.from_ (e.from_ ||| ~~~scanTo) carryIn
    (carryOut, sum &&& scanTo)

/-- The blocks of a statement, one after the other. -/
def compileBlocks (stmt : ScanStatement) : List (Operands w) → BitVec w → List (BitVec w)
  | [], _ => []
  | e :: es, carryIn =>
    let (carryOut, value) := compileStatement stmt e carryIn
    value :: compileBlocks stmt es carryOut

/-- The value of a statement at the top level of a kernel. -/
def evaluate (stmt : ScanStatement) (es : List (Operands w)) : List (BitVec w) :=
  compileBlocks stmt es 0

section Streams

/-- What a statement adds at a position, and what it makes of the sum there. -/
def ScanStatement.addends : ScanStatement → Bool → Bool → Bool → Bool × Bool
  | .MatchStar, m, c, _ => (m && c, c)
  | .ScanThru, f, t, _ => (f, t)
  | .ScanTo, f, t, e => (f, !(t || e))
  | .AdvanceThenScanThru, f, t, _ => (f, f || t)
  | .AdvanceThenScanTo, f, t, e => (f, f || !(t || e))

def ScanStatement.value : ScanStatement → Bool → Bool → Bool → Bool → Bool
  | .MatchStar, m, c, _, s => (s ^^ c) || m
  | .ScanThru, _, t, _, s => s && !t
  | .ScanTo, _, t, e, s => s && (t || e)
  | .AdvanceThenScanThru, _, t, _, s => s && !t
  | .AdvanceThenScanTo, _, t, e, s => s && (t || e)

/-- The operand streams of a statement. -/
def fromStream (es : List (Operands w)) : Stream := ofBlocks (es.map Operands.from_)

def toStream (es : List (Operands w)) : Stream := ofBlocks (es.map Operands.to_)

def eofStream (es : List (Operands w)) : Stream := ofBlocks (es.map Operands.EOFbit)

def firstAddend (stmt : ScanStatement) (es : List (Operands w)) : Stream :=
  fun p ↦ (stmt.addends (fromStream es p) (toStream es p) (eofStream es p)).1

def secondAddend (stmt : ScanStatement) (es : List (Operands w)) : Stream :=
  fun p ↦ (stmt.addends (fromStream es p) (toStream es p) (eofStream es p)).2

theorem firstAddend_cons (hw : 0 < w) (stmt : ScanStatement) (e : Operands w)
    (es : List (Operands w)) (p : ℕ) :
    firstAddend stmt (e :: es) (w + p) = firstAddend stmt es p := by
  simp only [firstAddend, fromStream, toStream, eofStream, List.map_cons, ofBlocks_cons_add hw]

theorem secondAddend_cons (hw : 0 < w) (stmt : ScanStatement) (e : Operands w)
    (es : List (Operands w)) (p : ℕ) :
    secondAddend stmt (e :: es) (w + p) = secondAddend stmt es p := by
  simp only [secondAddend, fromStream, toStream, eofStream, List.map_cons, ofBlocks_cons_add hw]

/-- The carry out of a block is the carry into the position after it. -/
theorem carryout_eq (hw : 0 < w) (a b : BitVec w) (c : Bool) :
    (bitblock_add_with_carry a b (carryBlock w c)).1 =
      carryBlock w (carry a.getLsbD b.getLsbD c w) := by
  have hlast : carry a.getLsbD b.getLsbD c w = Bool.atLeastTwo (a.getLsbD (w - 1))
      (b.getLsbD (w - 1)) (carry a.getLsbD b.getLsbD c (w - 1)) := by
    obtain ⟨n, rfl⟩ : ∃ n, w = n + 1 := ⟨w - 1, by omega⟩
    rfl
  apply BitVec.eq_of_getLsbD_eq
  intro i hi
  rw [bitblock_add_with_carry, BitVec.getLsbD_ushiftRight]
  conv_rhs => rw [carryBlock, BitVec.getLsbD_setWidth, decide_eq_true hi, Bool.true_and]
  rcases Nat.eq_zero_or_pos i with rfl | hpos
  · rw [Nat.add_zero, BitVec.getLsbD_or, BitVec.getLsbD_and, BitVec.getLsbD_and, BitVec.getLsbD_or,
      BitVec.getLsbD_not, decide_eq_true (by omega : w - 1 < w), Bool.true_and,
      getLsbD_add_carryBlock _ _ _ (by omega), hlast, sum]
    cases a.getLsbD (w - 1) <;> cases b.getLsbD (w - 1) <;>
      cases carry a.getLsbD b.getLsbD c (w - 1) <;> rfl
  · rw [BitVec.getLsbD_of_ge _ _ (by omega), BitVec.getLsbD_of_ge _ _ (by omega)]

theorem compileStatement_eq (hw : 0 < w) (stmt : ScanStatement) (e : Operands w)
    (es : List (Operands w)) (c : Bool) :
    (compileStatement stmt e (carryBlock w c)).1 = carryBlock w
        (carry (firstAddend stmt (e :: es)) (secondAddend stmt (e :: es)) c w) ∧
      ∀ p < w, (compileStatement stmt e (carryBlock w c)).2.getLsbD p =
        stmt.value (e.from_.getLsbD p) (e.to_.getLsbD p) (e.EOFbit.getLsbD p)
          (sum (firstAddend stmt (e :: es)) (secondAddend stmt (e :: es)) c p) := by
  -- one addition, of blocks that agree with the addends of the statement
  have key : ∀ a b : BitVec w,
      (∀ p < w, (a.getLsbD p, b.getLsbD p) =
        stmt.addends (e.from_.getLsbD p) (e.to_.getLsbD p) (e.EOFbit.getLsbD p)) →
      (bitblock_add_with_carry a b (carryBlock w c)).1 = carryBlock w
          (carry (firstAddend stmt (e :: es)) (secondAddend stmt (e :: es)) c w) ∧
        ∀ p < w, (bitblock_add_with_carry a b (carryBlock w c)).2.getLsbD p =
          sum (firstAddend stmt (e :: es)) (secondAddend stmt (e :: es)) c p := by
    intro a b hab
    have hfirst : ∀ p < w, a.getLsbD p = firstAddend stmt (e :: es) p := by
      intro p hp
      simp only [firstAddend, fromStream, toStream, eofStream, List.map_cons,
        ofBlocks_cons_lt hp, ← hab p hp]
    have hsecond : ∀ p < w, b.getLsbD p = secondAddend stmt (e :: es) p := by
      intro p hp
      simp only [secondAddend, fromStream, toStream, eofStream, List.map_cons,
        ofBlocks_cons_lt hp, ← hab p hp]
    refine ⟨by rw [carryout_eq hw, carry_congr hfirst hsecond], fun p hp ↦ ?_⟩
    rw [bitblock_add_with_carry, getLsbD_add_carryBlock _ _ _ hp, sum, sum, hfirst p hp,
      hsecond p hp, carry_congr (fun i hi ↦ hfirst i (Nat.lt_trans hi hp))
        (fun i hi ↦ hsecond i (Nat.lt_trans hi hp))]
  cases stmt with
  | MatchStar =>
    obtain ⟨hc, hs⟩ := key (e.from_ &&& e.to_) e.to_ fun p hp ↦ by
      simp [ScanStatement.addends]
    refine ⟨hc, fun p hp ↦ ?_⟩
    simp only [compileStatement, ScanStatement.value, BitVec.getLsbD_or, BitVec.getLsbD_xor,
      hs p hp]
  | ScanThru =>
    obtain ⟨hc, hs⟩ := key e.from_ e.to_ fun p hp ↦ by simp [ScanStatement.addends]
    refine ⟨hc, fun p hp ↦ ?_⟩
    simp only [compileStatement, ScanStatement.value, BitVec.getLsbD_and, BitVec.getLsbD_not,
      decide_eq_true hp, Bool.true_and, hs p hp]
  | ScanTo =>
    obtain ⟨hc, hs⟩ := key e.from_ (~~~(e.to_ ||| e.EOFbit)) fun p hp ↦ by
      simp [ScanStatement.addends, hp]
    refine ⟨hc, fun p hp ↦ ?_⟩
    simp only [compileStatement, ScanStatement.value, BitVec.getLsbD_and, BitVec.getLsbD_or,
      hs p hp]
  | AdvanceThenScanThru =>
    obtain ⟨hc, hs⟩ := key e.from_ (e.from_ ||| e.to_) fun p hp ↦ by
      simp [ScanStatement.addends]
    refine ⟨hc, fun p hp ↦ ?_⟩
    simp only [compileStatement, ScanStatement.value, BitVec.getLsbD_and, BitVec.getLsbD_not,
      decide_eq_true hp, Bool.true_and, hs p hp]
  | AdvanceThenScanTo =>
    obtain ⟨hc, hs⟩ := key e.from_ (e.from_ ||| ~~~(e.to_ ||| e.EOFbit)) fun p hp ↦ by
      simp [ScanStatement.addends, hp]
    refine ⟨hc, fun p hp ↦ ?_⟩
    simp only [compileStatement, ScanStatement.value, BitVec.getLsbD_and, BitVec.getLsbD_or,
      hs p hp]

/-- The blocks of a statement are one addition of streams. -/
theorem compileBlocks_eq (hw : 0 < w) (stmt : ScanStatement) (es : List (Operands w)) (c : Bool)
    {p : ℕ} (hp : p < w * es.length) :
    ofBlocks (compileBlocks stmt es (carryBlock w c)) p =
      stmt.value (fromStream es p) (toStream es p) (eofStream es p)
        (sum (firstAddend stmt es) (secondAddend stmt es) c p) := by
  induction es generalizing c p with
  | nil => simp at hp
  | cons e es ih =>
    obtain ⟨hc, hv⟩ := compileStatement_eq hw stmt e es c
    rw [compileBlocks]
    by_cases hlt : p < w
    · rw [ofBlocks_cons_lt hlt, hv p hlt]
      simp only [fromStream, toStream, eofStream, List.map_cons, ofBlocks_cons_lt hlt]
    · obtain ⟨n, rfl⟩ : ∃ n, p = w + n := ⟨p - w, by omega⟩
      rw [List.length_cons, Nat.mul_succ] at hp
      rw [ofBlocks_cons_add hw, hc, ih _ (by omega)]
      simp only [sum, carry_add, firstAddend_cons hw, secondAddend_cons hw, fromStream, toStream,
        eofStream, List.map_cons, ofBlocks_cons_add hw]

theorem evaluate_eq (hw : 0 < w) (stmt : ScanStatement) (es : List (Operands w)) {p : ℕ}
    (hp : p < w * es.length) : ofBlocks (evaluate stmt es) p =
      stmt.value (fromStream es p) (toStream es p) (eofStream es p)
        (sum (firstAddend stmt es) (secondAddend stmt es) false p) := by
  have h := compileBlocks_eq hw stmt es false hp
  rwa [show carryBlock w false = 0 by simp [carryBlock]] at h

theorem length_evaluate (stmt : ScanStatement) (es : List (Operands w)) :
    (evaluate stmt es).length = es.length := by
  have h : ∀ c : BitVec w, (compileBlocks stmt es c).length = es.length := by
    induction es with
    | nil => intro c; rfl
    | cons e es ih => intro c; rw [compileBlocks, List.length_cons, ih, List.length_cons]
  exact h 0

end Streams

section Meaning

/-- Some marker at or before `p` has all positions from it up to `p` in the class. -/
def MatchStarAt (marker cc : Stream) (p : ℕ) : Prop :=
  ∃ q ≤ p, marker q = true ∧ ∀ j, q ≤ j → j < p → cc j = true

/-- `p` is the first position after some marker that is not in `thru`. -/
def AdvanceThenScanThruAt (marker thru : Stream) (p : ℕ) : Prop :=
  thru p = false ∧ ∃ q < p, marker q = true ∧ ∀ j, q < j → j < p → thru j = true

variable {es : List (Operands w)}

theorem matchStarAt_iff {m t : Stream} {p : ℕ} : MatchStarAt m t p ↔
    m p = true ∨ carry (fun i ↦ m i && t i) t false p = true := by
  have hadd : (fun i ↦ m i && t i || t i) = t := funext fun i ↦ by cases m i <;> cases t i <;> rfl
  have hcarry := carry_or (fun i ↦ m i && t i) t p
  rw [hadd] at hcarry
  rw [hcarry]
  constructor
  · rintro ⟨q, hq, hm, hall⟩
    rcases Nat.eq_or_lt_of_le hq with rfl | hlt
    · exact .inl hm
    · exact .inr ⟨q, hlt, by rw [hm, hall q (Nat.le_refl q) hlt]; rfl,
        fun j h1 h2 ↦ hall j (Nat.le_of_lt h1) h2⟩
  · rintro (hm | ⟨q, hq, hboth, hall⟩)
    · exact ⟨p, Nat.le_refl p, hm, fun j h1 h2 ↦ absurd h2 (by omega)⟩
    · rw [Bool.and_eq_true] at hboth
      refine ⟨q, Nat.le_of_lt hq, hboth.1, fun j h1 h2 ↦ ?_⟩
      rcases Nat.eq_or_lt_of_le h1 with rfl | hlt
      · exact hboth.2
      · exact hall j hlt h2

theorem matchStar_iff (hw : 0 < w) {p : ℕ} (hp : p < w * es.length) :
    ofBlocks (evaluate .MatchStar es) p = true ↔
      MatchStarAt (fromStream es) (toStream es) p := by
  have hfirst : firstAddend .MatchStar es = fun i ↦ fromStream es i && toStream es i := rfl
  have hsecond : secondAddend .MatchStar es = toStream es := rfl
  rw [evaluate_eq hw _ _ hp, matchStarAt_iff, sum, hfirst, hsecond]
  simp only [ScanStatement.value]
  cases fromStream es p <;> cases toStream es p <;> simp

theorem advanceThenScanThru_iff (hw : 0 < w) {p : ℕ} (hp : p < w * es.length) :
    ofBlocks (evaluate .AdvanceThenScanThru es) p = true ↔
      AdvanceThenScanThruAt (fromStream es) (toStream es) p := by
  have hcarry := carry_or (fromStream es) (toStream es) p
  have hfirst : firstAddend .AdvanceThenScanThru es = fromStream es := rfl
  have hsecond : secondAddend .AdvanceThenScanThru es =
      fun i ↦ fromStream es i || toStream es i := rfl
  rw [evaluate_eq hw _ _ hp, AdvanceThenScanThruAt, ← hcarry, sum, hfirst, hsecond]
  simp only [ScanStatement.value]
  cases fromStream es p <;> cases toStream es p <;> simp

/-- The positions of `to_`, and the end of file, that are the first after some marker. -/
theorem advanceThenScanTo_iff (hw : 0 < w) {p : ℕ} (hp : p < w * es.length) :
    ofBlocks (evaluate .AdvanceThenScanTo es) p = true ↔
      (toStream es p || eofStream es p) = true ∧
        ∃ q < p, fromStream es q = true ∧
          ∀ j, q < j → j < p → (!(toStream es j || eofStream es j)) = true := by
  have hcarry := carry_or (fromStream es) (fun j ↦ !(toStream es j || eofStream es j)) p
  have hfirst : firstAddend .AdvanceThenScanTo es = fromStream es := rfl
  have hsecond : secondAddend .AdvanceThenScanTo es =
      fun i ↦ fromStream es i || !(toStream es i || eofStream es i) := rfl
  rw [evaluate_eq hw _ _ hp, ← hcarry, sum, hfirst, hsecond]
  simp only [ScanStatement.value]
  cases fromStream es p <;> cases toStream es p <;> cases eofStream es p <;> simp

/-- Both statements mean what they say about the whole streams, however these are cut. -/
theorem scan_statements_exact (hw : 0 < w) (es : List (Operands w)) :
    (∀ p < w * es.length,
      (ofBlocks (evaluate .MatchStar es) p = true ↔
        MatchStarAt (fromStream es) (toStream es) p) ∧
      (ofBlocks (evaluate .AdvanceThenScanThru es) p = true ↔
        AdvanceThenScanThruAt (fromStream es) (toStream es) p)) ∧
    ∀ w' > 0, ∀ es' : List (Operands w'), w' * es'.length = w * es.length →
      (∀ p, fromStream es p = fromStream es' p) → (∀ p, toStream es p = toStream es' p) →
        (∀ p, ofBlocks (evaluate .MatchStar es) p = ofBlocks (evaluate .MatchStar es') p) ∧
        ∀ p, ofBlocks (evaluate .AdvanceThenScanThru es) p =
          ofBlocks (evaluate .AdvanceThenScanThru es') p := by
  refine ⟨fun p hp ↦ ⟨matchStar_iff hw hp, advanceThenScanThru_iff hw hp⟩, ?_⟩
  intro w' hw' es' hlen hfrom hto
  have hbeyond : ∀ stmt p, w * es.length ≤ p →
      ofBlocks (evaluate stmt es) p = ofBlocks (evaluate stmt es') p := by
    intro stmt p hp
    rw [ofBlocks_ge (by rw [length_evaluate]; exact hp),
      ofBlocks_ge (by rw [length_evaluate, hlen]; exact hp)]
  have hfrom' : fromStream es = fromStream es' := funext hfrom
  have hto' : toStream es = toStream es' := funext hto
  constructor
  · intro p
    by_cases hp : p < w * es.length
    · rw [Bool.eq_iff_iff, matchStar_iff hw hp, matchStar_iff hw' (hlen ▸ hp), hfrom', hto']
    · exact hbeyond _ p (by omega)
  · intro p
    by_cases hp : p < w * es.length
    · rw [Bool.eq_iff_iff, advanceThenScanThru_iff hw hp,
        advanceThenScanThru_iff hw' (hlen ▸ hp), hfrom', hto']
    · exact hbeyond _ p (by omega)

theorem scan_statements_exact_two_blocks :
    ofBlocks (evaluate .MatchStar [(⟨4, 12, 0⟩ : Operands 4), ⟨0, 1, 0⟩]) 5 = true ↔
      MatchStarAt (fromStream [(⟨4, 12, 0⟩ : Operands 4), ⟨0, 1, 0⟩])
        (toStream [(⟨4, 12, 0⟩ : Operands 4), ⟨0, 1, 0⟩]) 5 :=
  ((scan_statements_exact (by decide) _).1 5 (by decide)).1

end Meaning

end Parabix.Pablo
