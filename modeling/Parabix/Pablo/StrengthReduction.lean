import Parabix.Pablo.Scan

namespace Parabix.Pablo

open Library.BitStream

variable {w : ℕ}

/-- The expressions that the rules look at, over streams of blocks. -/
inductive StreamExpr (w : ℕ) where
  | Stream (blocks : List (BitVec w))
  | Advance (expr : StreamExpr w) (amount : ℕ)
  | Scan (stmt : ScanStatement) (from_ to_ : StreamExpr w)
deriving DecidableEq, Repr

def operands (xs ys EOFbit : List (BitVec w)) : List (Operands w) :=
  List.zipWith (fun x p ↦ ⟨x, p.1, p.2⟩) xs (ys.zip EOFbit)

def StreamExpr.eval (EOFbit : List (BitVec w)) : StreamExpr w → List (BitVec w)
  | .Stream blocks => blocks
  | .Advance expr amount => advanceBlocks amount (expr.eval EOFbit)
  | .Scan stmt from_ to_ => evaluate stmt (operands (from_.eval EOFbit) (to_.eval EOFbit) EOFbit)

/-- Advances one position less; `Advance(x, 0)` is `x`. -/
def StreamExpr.advanceLess (expr : StreamExpr w) (amount : ℕ) : StreamExpr w :=
  if amount ≠ 1 then .Advance expr (amount - 1) else expr

/-- The rules for one statement whose operand has no other use. -/
def strengthReduction : StreamExpr w → StreamExpr w
  | .Advance (.Advance expr n) m => .Advance expr (m + n)
  | .Scan .ScanThru (.Advance expr n) to_ => .Scan .AdvanceThenScanThru (expr.advanceLess n) to_
  | .Scan .ScanTo (.Advance expr n) to_ => .Scan .AdvanceThenScanTo (expr.advanceLess n) to_
  | stmt => stmt

/-- No marker lies where the scan of another marker leaves a run of `thru`. -/
def Apart (marker thru : Stream) (n : ℕ) : Prop :=
  ∀ p < n, marker p = true → thru p = false → ∀ q < p, marker q = true →
    ¬∀ j, q ≤ j → j < p → thru j = true

section Streams

variable {x t : Stream} {n len : ℕ}

theorem advance_succ_apply (n : ℕ) (x : Stream) (p : ℕ) :
    advance (n + 1) x (p + 1) = advance n x p := by
  unfold advance
  by_cases h : p < n
  · rw [if_pos h, if_pos (Nat.succ_lt_succ h)]
  · rw [if_neg h, if_neg (by omega), Nat.add_sub_add_right]

/-- What both forms of a scan leave at a position outside `thru`. -/
theorem scan_advanced_iff (n : ℕ) (x t : Stream) (p : ℕ) :
    carry (advance n x) (fun i ↦ advance n x i || t i) false p = true ↔
      advance (n + 1) x p = true ∨
        ∃ q < p, advance (n + 1) x q = true ∧ ∀ j, q ≤ j → j < p → t j = true := by
  rw [carry_or]
  constructor
  · rintro ⟨q, hq, hx, hall⟩
    rcases Nat.eq_or_lt_of_le (Nat.succ_le_of_lt hq) with heq | hlt
    · left
      rw [← heq, Nat.succ_eq_add_one, advance_succ_apply]
      exact hx
    · exact .inr ⟨q + 1, hlt, by rwa [advance_succ_apply], fun j h1 h2 ↦ hall j h1 h2⟩
  · intro h
    have hpos : ∀ q, advance (n + 1) x q = true → ∃ q', q = q' + 1 ∧ advance n x q' = true := by
      intro q hq
      cases q with
      | zero => simp [advance] at hq
      | succ q => exact ⟨q, rfl, by rwa [advance_succ_apply] at hq⟩
    rcases h with hx | ⟨q, hq, hx, hall⟩
    · obtain ⟨q, rfl, hx'⟩ := hpos p hx
      exact ⟨q, Nat.lt_succ_self q, hx', fun j h1 h2 ↦ absurd h2 (by omega)⟩
    · obtain ⟨q, rfl, hx'⟩ := hpos q hx
      exact ⟨q, by omega, hx', fun j h1 h2 ↦ hall j (by omega) h2⟩

/-- The two sums agree outside `thru` exactly when the markers are apart. -/
theorem scan_eq_iff_apart (n len : ℕ) (x t : Stream) :
    (∀ p < len, (sum (advance (n + 1) x) t false p && !t p) =
      (sum (advance n x) (fun i ↦ advance n x i || t i) false p && !t p)) ↔
    Apart (advance (n + 1) x) t len := by
  have hright : ∀ p, t p = false →
      sum (advance n x) (fun i ↦ advance n x i || t i) false p =
        carry (advance n x) (fun i ↦ advance n x i || t i) false p := by
    intro p hp
    simp only [sum, hp, Bool.or_false]
    cases advance n x p <;> simp
  constructor
  · intro h p
    -- the first marker that is not apart is lost
    induction p using Nat.strongRecOn with
    | ind p ih =>
      intro hp hx ht q hq hxq hall
      have hbelow : ∀ i < p, advance (n + 1) x i = true → t i = false → ∀ q < i,
          advance (n + 1) x q = true → ¬∀ j, q ≤ j → j < i → t j = true :=
        fun i hi ↦ ih i hi (by omega)
      have hc := (carry_eq_of_apart hbelow (Nat.le_refl p)).mpr ⟨q, hq, hxq, hall⟩
      have hp' := h p hp
      rw [hright p ht, (scan_advanced_iff n x t p).mpr (.inl hx)] at hp'
      simp [sum, hx, ht, hc] at hp'
  · intro h p hp
    cases ht : t p with
    | true => simp
    | false =>
      rw [hright p ht]
      have hc := carry_eq_of_apart (n := p) (fun i hi ↦ h i (by omega)) (Nat.le_refl p)
      have hs := scan_advanced_iff n x t p
      rw [← hc] at hs
      have hboth : ¬(advance (n + 1) x p = true ∧ carry (advance (n + 1) x) t false p = true) := by
        rintro ⟨hx, hcp⟩
        obtain ⟨q, hq, hxq, hall⟩ := hc.mp hcp
        exact h p hp hx ht q hq hxq hall
      have hres : carry (advance n x) (fun i ↦ advance n x i || t i) false p =
          (advance (n + 1) x p || carry (advance (n + 1) x) t false p) := by
        rw [Bool.eq_iff_iff, hs, Bool.or_eq_true]
      simp only [hres, sum, ht]
      cases hx : advance (n + 1) x p <;> cases hcp : carry (advance (n + 1) x) t false p <;>
        simp_all

end Streams

section Rules

variable {xs ys eof : List (BitVec w)} {n : ℕ}

theorem streams_operands (hx : xs.length = eof.length) (hy : ys.length = eof.length) :
    (operands xs ys eof).length = eof.length ∧ fromStream (operands xs ys eof) = ofBlocks xs ∧
      toStream (operands xs ys eof) = ofBlocks ys ∧
      eofStream (operands xs ys eof) = ofBlocks eof := by
  have hfrom : (operands xs ys eof).map Operands.from_ = xs := by
    apply List.ext_getElem (by simp [operands, hx, hy])
    intro i _ _
    simp [operands]
  have hto : (operands xs ys eof).map Operands.to_ = ys := by
    apply List.ext_getElem (by simp [operands, hx, hy])
    intro i _ _
    simp [operands]
  have heof : (operands xs ys eof).map Operands.EOFbit = eof := by
    apply List.ext_getElem (by simp [operands, hx, hy])
    intro i _ _
    simp [operands]
  exact ⟨by simp [operands, hx, hy], by rw [fromStream, hfrom], by rw [toStream, hto],
    by rw [eofStream, heof]⟩

/-- The streams that two statements leave are compared position by position. -/
theorem evaluate_eq_evaluate_iff (hw : 0 < w) {s1 s2 : ScanStatement} {es1 es2 : List (Operands w)}
    (hl : es1.length = es2.length) : evaluate s1 es1 = evaluate s2 es2 ↔
      ∀ p < w * es1.length, ofBlocks (evaluate s1 es1) p = ofBlocks (evaluate s2 es2) p := by
  rw [ofBlocks_inj hw (by rw [length_evaluate, length_evaluate, hl]), length_evaluate]

theorem eval_advanceLess (hw : 0 < w) :
    ((StreamExpr.Stream xs).advanceLess (n + 1)).eval eof = advanceBlocks n xs := by
  unfold StreamExpr.advanceLess
  split_ifs with h
  · rfl
  · have hn : n = 0 := by omega
    subst hn
    rw [StreamExpr.eval, ofBlocks_inj hw (length_advanceBlocks 0 xs).symm]
    intro p hp
    rw [ofBlocks_advanceBlocks hw 0 xs hp]
    simp [advance]

/-- A pair of scans of one stream, where the second advances on its own. -/
theorem scan_rule_iff (hw : 0 < w) (hx : xs.length = eof.length) (hy : ys.length = eof.length)
    (scan advanceThenScan : ScanStatement) {t : Stream}
    (hscan : ∀ f c e s, scan.value f c e s = (s && !(scan.addends f c e).2))
    (hthen : ∀ f c e s, advanceThenScan.value f c e s = scan.value f c e s)
    (hadd : ∀ f c e, (advanceThenScan.addends f c e) = (f, f || (scan.addends f c e).2))
    (hfst : ∀ f c e, (scan.addends f c e).1 = f)
    (ht : ∀ f p, t p = (scan.addends f (ofBlocks ys p) (ofBlocks eof p)).2) :
    (StreamExpr.Scan scan (.Advance (.Stream xs) (n + 1)) (.Stream ys)).eval eof =
      (StreamExpr.Scan advanceThenScan ((StreamExpr.Stream xs).advanceLess (n + 1))
        (.Stream ys)).eval eof ↔
      Apart (advance (n + 1) (ofBlocks xs)) t (w * eof.length) := by
  have hx1 : (advanceBlocks (n + 1) xs).length = eof.length := by rw [length_advanceBlocks, hx]
  have hx2 : (advanceBlocks n xs).length = eof.length := by rw [length_advanceBlocks, hx]
  obtain ⟨hl1, hf1, ht1, he1⟩ := streams_operands hx1 hy
  obtain ⟨hl2, hf2, ht2, he2⟩ := streams_operands hx2 hy
  have hvalue : ∀ f s p, scan.value f (ofBlocks ys p) (ofBlocks eof p) s = (s && !t p) := by
    intro f s p
    rw [hscan, ← ht f p]
  have hleft : (StreamExpr.Scan scan (.Advance (.Stream xs) (n + 1)) (.Stream ys)).eval eof =
      evaluate scan (operands (advanceBlocks (n + 1) xs) ys eof) := rfl
  have hright : (StreamExpr.Scan advanceThenScan ((StreamExpr.Stream xs).advanceLess (n + 1))
      (.Stream ys)).eval eof = evaluate advanceThenScan (operands (advanceBlocks n xs) ys eof) := by
    rw [StreamExpr.eval, eval_advanceLess hw]
    rfl
  rw [hleft, hright, evaluate_eq_evaluate_iff hw (hl1.trans hl2.symm), hl1, ← scan_eq_iff_apart]
  have hpoint : ∀ p < w * eof.length,
      (ofBlocks (evaluate scan (operands (advanceBlocks (n + 1) xs) ys eof)) p =
        ofBlocks (evaluate advanceThenScan (operands (advanceBlocks n xs) ys eof)) p ↔
      (sum (advance (n + 1) (ofBlocks xs)) t false p && !t p) =
        (sum (advance n (ofBlocks xs)) (fun i ↦ advance n (ofBlocks xs) i || t i) false p && !t p)) := by
    intro p hp
    have hadv1 : ∀ i < w * eof.length, ofBlocks (advanceBlocks (n + 1) xs) i =
        advance (n + 1) (ofBlocks xs) i :=
      fun i hi ↦ ofBlocks_advanceBlocks hw _ _ (by rw [hx]; exact hi)
    have hadv2 : ∀ i < w * eof.length, ofBlocks (advanceBlocks n xs) i = advance n (ofBlocks xs) i :=
      fun i hi ↦ ofBlocks_advanceBlocks hw _ _ (by rw [hx]; exact hi)
    rw [evaluate_eq hw _ _ (by rw [hl1]; exact hp), evaluate_eq hw _ _ (by rw [hl2]; exact hp),
      hthen, ht1, ht2, he1, he2, hvalue, hvalue]
    have hsum1 : sum (firstAddend scan (operands (advanceBlocks (n + 1) xs) ys eof))
        (secondAddend scan (operands (advanceBlocks (n + 1) xs) ys eof)) false p =
          sum (advance (n + 1) (ofBlocks xs)) t false p := by
      apply sum_congr <;> intro i hi
      · rw [firstAddend, hf1, hfst, hadv1 i (by omega)]
      · rw [secondAddend, ht1, he1, ← ht]
    have hsum2 : sum (firstAddend advanceThenScan (operands (advanceBlocks n xs) ys eof))
        (secondAddend advanceThenScan (operands (advanceBlocks n xs) ys eof)) false p =
          sum (advance n (ofBlocks xs)) (fun i ↦ advance n (ofBlocks xs) i || t i) false p := by
      apply sum_congr <;> intro i hi
      · rw [firstAddend, hf2, hadd, hadv2 i (by omega)]
      · rw [secondAddend, hf2, ht2, he2, hadd, ← ht, hadv2 i (by omega)]
    rw [hsum1, hsum2]
  exact forall₂_congr hpoint

/-- A scan of an advanced stream may become an advancing scan exactly when the advanced
markers are apart. -/
theorem strengthReduction_exact (hw : 0 < w) (hn : 1 ≤ n) (hx : xs.length = eof.length)
    (hy : ys.length = eof.length) :
    ((StreamExpr.Scan .ScanThru (.Advance (.Stream xs) n) (.Stream ys)).eval eof =
        (strengthReduction (.Scan .ScanThru (.Advance (.Stream xs) n) (.Stream ys))).eval eof ↔
      Apart (advance n (ofBlocks xs)) (ofBlocks ys) (w * eof.length)) ∧
    ((StreamExpr.Scan .ScanTo (.Advance (.Stream xs) n) (.Stream ys)).eval eof =
        (strengthReduction (.Scan .ScanTo (.Advance (.Stream xs) n) (.Stream ys))).eval eof ↔
      Apart (advance n (ofBlocks xs)) (fun p ↦ !(ofBlocks ys p || ofBlocks eof p))
        (w * eof.length)) := by
  obtain ⟨m, rfl⟩ : ∃ m, n = m + 1 := ⟨n - 1, by omega⟩
  constructor
  · apply scan_rule_iff hw hx hy .ScanThru _ (t := ofBlocks ys) <;> intros
    · simp [ScanStatement.value, ScanStatement.addends]
    · rfl
    · rfl
    · rfl
    · rfl
  · apply scan_rule_iff hw hx hy .ScanTo _
      (t := fun p ↦ !(ofBlocks ys p || ofBlocks eof p)) <;> intros
    · simp [ScanStatement.value, ScanStatement.addends]
    · rfl
    · rfl
    · rfl
    · rfl

theorem strengthReduction_exact_apart :
    (StreamExpr.Scan .ScanThru (.Advance (.Stream [1#4]) 1) (.Stream [2#4])).eval [0#4] =
      (strengthReduction (.Scan .ScanThru (.Advance (.Stream [1#4]) 1) (.Stream [2#4]))).eval [0#4] ↔
    Apart (advance 1 (ofBlocks [1#4])) (ofBlocks [2#4]) (4 * 1) :=
  (strengthReduction_exact (show 0 < 4 by decide) (show 1 ≤ 1 by decide)
    (rfl : [1#4].length = [0#4].length) (rfl : [2#4].length = [0#4].length)).1

/-- Two adjacent markers: the second one is lost where the scan of the first one ends. -/
theorem strengthReduction_moves_marker :
    (StreamExpr.Scan .ScanThru (.Advance (.Stream [3#4]) 1) (.Stream [2#4])).eval [0#4] ≠
      (strengthReduction (.Scan .ScanThru (.Advance (.Stream [3#4]) 1) (.Stream [2#4]))).eval
        [0#4] := by
  decide

end Rules

end Parabix.Pablo
