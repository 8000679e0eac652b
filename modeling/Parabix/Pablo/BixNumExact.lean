import Mathlib.Data.Nat.ModEq
import Mathlib.Tactic.Linarith
import Mathlib.Tactic.LinearCombination
import Mathlib.Tactic.Positivity
import Mathlib.Tactic.Ring
import Mathlib.Tactic.Zify
import Parabix.Pablo.BixNum

namespace Parabix.Pablo

open Library Library.BitStream

/-- The constructors make expressions with the values of the boolean operations. -/
structure PabloBuilder.Lawful {α : Type} (mPB : PabloBuilder α) (eval : α → Stream) : Prop where
  zeroes (p : ℕ) : eval mPB.createZeroes p = false
  ones (p : ℕ) : eval mPB.createOnes p = true
  not (a : α) (p : ℕ) : eval (mPB.createNot a) p = !eval a p
  and (a b : α) (p : ℕ) : eval (mPB.createAnd a b) p = (eval a p && eval b p)
  or (a b : α) (p : ℕ) : eval (mPB.createOr a b) p = (eval a p || eval b p)
  xor (a b : α) (p : ℕ) : eval (mPB.createXor a b) p = (eval a p ^^ eval b p)
  sel (a b c : α) (p : ℕ) :
    eval (mPB.createSel a b c) p = bif eval a p then eval b p else eval c p
  xor3 (a b c : α) (p : ℕ) : eval (mPB.createXor3 a b c) p = (eval a p ^^ eval b p ^^ eval c p)
  majority3 (a b c : α) (p : ℕ) :
    eval (mPB.createMajority3 a b c) p =
      (eval a p && eval b p || eval a p && eval c p || eval b p && eval c p)

/-- Expressions that are the streams themselves. -/
def PabloBuilder.streams : PabloBuilder Stream where
  createZeroes _ := false
  createOnes _ := true
  createNot a p := !a p
  createAnd a b p := a p && b p
  createOr a b p := a p || b p
  createXor a b p := a p ^^ b p
  createSel a b c p := bif a p then b p else c p
  createXor3 a b c p := a p ^^ b p ^^ c p
  createMajority3 a b c p := a p && b p || a p && c p || b p && c p

theorem PabloBuilder.streams_lawful : PabloBuilder.streams.Lawful id := by
  constructor <;> intros <;> rfl

/-- The number at a position. -/
def value {α : Type} (eval : α → Stream) (p : ℕ) (n : BixNum α) : ℕ :=
  ofDigits (n.map fun a ↦ eval a p)

section Value

variable {α : Type} {eval : α → Stream} {p : ℕ} {n k : BixNum α} {a : α}

@[simp] theorem value_nil : value eval p [] = 0 := rfl

theorem value_cons : value eval p (a :: n) = (eval a p).toNat + 2 * value eval p n := by
  rw [value, List.map_cons, ofDigits_cons, value]

theorem value_append :
    value eval p (n ++ k) = value eval p n + 2 ^ n.length * value eval p k := by
  rw [value, List.map_append, ofDigits_append, List.length_map, value, value]

theorem value_lt : value eval p n < 2 ^ n.length := by
  have h := ofDigits_lt (n.map fun a ↦ eval a p)
  rwa [List.length_map] at h

theorem value_take (i : ℕ) : value eval p (n.take i) = value eval p n % 2 ^ i := by
  rw [value, List.map_take, ofDigits_take, value]

theorem value_drop (i : ℕ) : value eval p (n.drop i) = value eval p n / 2 ^ i := by
  rw [value, List.map_drop, ofDigits_drop, value]

theorem value_replicate_zeroes {mPB : PabloBuilder α} (h : mPB.Lawful eval) (i : ℕ) :
    value eval p (List.replicate i mPB.createZeroes) = 0 := by
  rw [value, List.map_replicate, h.zeroes, ofDigits_replicate_false]

/-- The lower bits kept and the upper ones replaced. -/
theorem value_splice {i : ℕ} (hi : i ≤ n.length) :
    value eval p (n.take i ++ k) = value eval p n % 2 ^ i + 2 ^ i * value eval p k := by
  rw [value_append, value_take, List.length_take_of_le hi]

end Value

namespace BixNumCompiler

section Bits

theorem half_add (a c : Bool) : (a ^^ c).toNat + 2 * (a && c).toNat = a.toNat + c.toNat := by
  cases a <;> cases c <;> rfl

theorem full_add (a b c : Bool) :
    (a ^^ b ^^ c).toNat + 2 * (a && b || a && c || b && c).toNat =
      a.toNat + b.toNat + c.toNat := by
  cases a <;> cases b <;> cases c <;> rfl

theorem one_add (a c : Bool) :
    (!(a ^^ c)).toNat + 2 * (a || c).toNat = a.toNat + 1 + c.toNat := by
  cases a <;> cases c <;> rfl

theorem half_sub (a c : Bool) : (a ^^ c).toNat + c.toNat = a.toNat + 2 * (!a && c).toNat := by
  cases a <;> cases c <;> rfl

theorem full_sub (a b c : Bool) : (a ^^ b ^^ c).toNat + b.toNat + c.toNat =
    a.toNat + 2 * (!a && b || !a && c || b && c).toNat := by
  cases a <;> cases b <;> cases c <;> rfl

theorem pow_succ_mul (n x : ℕ) : 2 ^ (n + 1) * x = 2 * (2 ^ n * x) := by
  rw [Nat.pow_succ, Nat.mul_comm (2 ^ n) 2, Nat.mul_assoc]

theorem div_two_pow (x i : ℕ) : x / 2 ^ i = (x.testBit i).toNat + 2 * (x / 2 ^ (i + 1)) := by
  rw [Nat.toNat_testBit, Nat.pow_succ, ← Nat.div_div_eq_div_mul]
  omega

theorem add_two_mul_mod {b t n : ℕ} (hb : b < 2) :
    (b + 2 * t) % 2 ^ (n + 1) = b + 2 * (t % 2 ^ n) := by
  rw [Nat.pow_succ', Nat.mod_mul, show (b + 2 * t) / 2 = t by omega]
  omega

end Bits

section Loops

variable {α : Type} {mPB : PabloBuilder α} {eval : α → Stream} (h : mPB.Lawful eval)
  {n k : BixNum α} {c : α} {p i x : ℕ}

@[simp] theorem length_addLoop : (addLoop mPB c n k).1.length = n.length := by
  induction n generalizing k c with
  | nil => cases k <;> rfl
  | cons a n ih => cases k <;> simp [addLoop, ih]

@[simp] theorem length_subLoop : (subLoop mPB c n k).length = n.length := by
  induction n generalizing k c with
  | nil => cases k <;> rfl
  | cons a n ih => cases k <;> simp [subLoop, ih]

@[simp] theorem length_addConstLoop : (addConstLoop mPB x c i n).length = n.length := by
  induction n generalizing c i with
  | nil => rfl
  | cons a n ih =>
    rw [addConstLoop]
    split_ifs <;> simp [ih]

@[simp] theorem length_addConst : (addConst mPB x i n).length = n.length := by
  induction n generalizing i with
  | nil => rfl
  | cons a n ih =>
    rw [addConst]
    split_ifs <;> simp [ih]

include h

/-- The sum and the last carry are the sum of the numbers, as far as the addend is added. -/
theorem value_addLoop : value eval p (addLoop mPB c n k).1 +
    2 ^ n.length * (eval (addLoop mPB c n k).2 p).toNat =
      value eval p n + value eval p (k.take n.length) + (eval c p).toNat := by
  induction n generalizing k c with
  | nil => cases k <;> simp [addLoop]
  | cons a n ih =>
    cases k with
    | nil =>
      have hrest := ih (k := []) (c := mPB.createAnd a c)
      have hbit := half_add (eval a p) (eval c p)
      simp only [addLoop, value_cons, List.length_cons, List.take_nil, value_nil, h.xor, h.and,
        pow_succ_mul] at hrest ⊢
      omega
    | cons b k =>
      have hrest := ih (k := k) (c := mPB.createMajority3 a b c)
      have hbit := full_add (eval a p) (eval b p) (eval c p)
      simp only [addLoop, value_cons, List.length_cons, List.take_succ_cons, h.xor3, h.majority3,
        pow_succ_mul] at hrest ⊢
      omega

/-- The difference is short of the numbers' by a power of two where a bit is borrowed. -/
theorem value_subLoop : ∃ borrow, value eval p (subLoop mPB c n k) +
    value eval p (k.take n.length) + (eval c p).toNat =
      value eval p n + 2 ^ n.length * borrow := by
  induction n generalizing k c with
  | nil => exact ⟨(eval c p).toNat, by cases k <;> simp [subLoop]⟩
  | cons a n ih =>
    cases k with
    | nil =>
      obtain ⟨borrow, hrest⟩ := ih (k := []) (c := mPB.createAnd (mPB.createNot a) c)
      have hbit := half_sub (eval a p) (eval c p)
      refine ⟨borrow, ?_⟩
      simp only [subLoop, value_cons, List.length_cons, List.take_nil, value_nil, h.xor, h.and,
        h.not, pow_succ_mul] at hrest ⊢
      omega
    | cons b k =>
      obtain ⟨borrow, hrest⟩ := ih (k := k) (c := mPB.createMajority3 (mPB.createNot a) b c)
      have hbit := full_sub (eval a p) (eval b p) (eval c p)
      refine ⟨borrow, ?_⟩
      simp only [subLoop, value_cons, List.length_cons, List.take_succ_cons, h.xor3, h.majority3,
        h.not, pow_succ_mul] at hrest ⊢
      omega

theorem value_addConstLoop : value eval p (addConstLoop mPB x c i n) =
    (value eval p n + x / 2 ^ i + (eval c p).toNat) % 2 ^ n.length := by
  induction n generalizing c i with
  | nil => simp [addConstLoop, Nat.mod_one]
  | cons a n ih =>
    have hx := div_two_pow x i
    rw [addConstLoop, List.length_cons, value_cons]
    split_ifs with hbit
    · have hone := one_add (eval a p) (eval c p)
      rw [hbit, Bool.toNat_true] at hx
      rw [value_cons, ih, h.not, h.xor, h.or, ← add_two_mul_mod (Bool.toNat_lt _)]
      congr 1
      omega
    · have hzero := half_add (eval a p) (eval c p)
      rw [Bool.not_eq_true] at hbit
      rw [hbit, Bool.toNat_false] at hx
      rw [value_cons, ih, h.xor, h.and, ← add_two_mul_mod (Bool.toNat_lt _)]
      congr 1
      omega

theorem value_addConst :
    value eval p (addConst mPB x i n) = (value eval p n + x / 2 ^ i) % 2 ^ n.length := by
  induction n generalizing i with
  | nil => simp [addConst, Nat.mod_one]
  | cons a n ih =>
    rw [addConst]
    split_ifs with hbit
    · rw [value_addConstLoop h, h.zeroes]
      rfl
    · have hx := div_two_pow x i
      rw [Bool.not_eq_true] at hbit
      rw [hbit, Bool.toNat_false] at hx
      rw [List.length_cons, value_cons, value_cons, ih, ← add_two_mul_mod (Bool.toNat_lt _)]
      congr 1
      omega

/-- A number above the lower bits decides, and an equal one leaves what was found so far. -/
theorem eval_UGTLoop : eval (UGTLoop mPB x c i n) p =
    decide (x / 2 ^ i % 2 ^ n.length < value eval p n + (eval c p).toNat) := by
  induction n generalizing c i with
  | nil => cases hc : eval c p <;> simp [UGTLoop, Nat.mod_one, hc]
  | cons a n ih =>
    have hx : x / 2 ^ i % 2 ^ (a :: n).length =
        (x.testBit i).toNat + 2 * (x / 2 ^ (i + 1) % 2 ^ n.length) := by
      rw [div_two_pow, List.length_cons, add_two_mul_mod (Bool.toNat_lt _)]
    rw [UGTLoop, ih, hx, value_cons]
    split_ifs with hbit
    · rw [h.and, hbit]
      cases eval a p <;> cases eval c p <;> simp <;> omega
    · rw [h.or, Bool.eq_false_iff.2 hbit]
      cases eval a p <;> cases eval c p <;> simp <;> omega

/-- The comparison with a constant is exact. -/
theorem eval_UGT : eval (UGT mPB n x) p = decide (x < value eval p n) := by
  have hlt := @value_lt _ eval p n
  rw [UGT]
  split_ifs with hlarge
  · rw [Nat.shiftRight_eq_div_pow] at hlarge
    have hle : 2 ^ n.length ≤ x := by
      by_contra hsmall
      exact hlarge (Nat.div_eq_of_lt (Nat.lt_of_not_le hsmall))
    rw [h.zeroes, decide_eq_false (by omega)]
  · rw [Nat.shiftRight_eq_div_pow, not_not, Nat.div_eq_zero_iff_lt (Nat.two_pow_pos _)] at hlarge
    rw [eval_UGTLoop h, pow_zero, Nat.div_one, Nat.mod_eq_of_lt hlarge, h.zeroes]
    rfl

theorem eval_EQLoop {e₁ e₀ : α} : (eval (EQLoop mPB x e₁ e₀ i n).1 p &&
    !eval (EQLoop mPB x e₁ e₀ i n).2 p) =
      (eval e₁ p && !eval e₀ p && decide (value eval p n = x / 2 ^ i % 2 ^ n.length)) := by
  induction n generalizing e₁ e₀ i with
  | nil => simp [EQLoop, Nat.mod_one]
  | cons a n ih =>
    have hx : x / 2 ^ i % 2 ^ (a :: n).length =
        (x.testBit i).toNat + 2 * (x / 2 ^ (i + 1) % 2 ^ n.length) := by
      rw [div_two_pow, List.length_cons, add_two_mul_mod (Bool.toNat_lt _)]
    rw [EQLoop, hx, value_cons]
    split_ifs with hbit
    · rw [ih, h.and, hbit]
      cases eval a p <;> cases eval e₁ p <;> simp
      all_goals omega
    · rw [ih, h.or, Bool.eq_false_iff.2 hbit]
      cases eval a p <;> cases eval e₁ p <;> cases eval e₀ p <;> simp
      all_goals omega

/-- The test for a constant is exact. -/
theorem eval_EQ : eval (EQ mPB n x) p = decide (value eval p n = x) := by
  have hlt := @value_lt _ eval p n
  rw [EQ]
  split_ifs with hlarge
  · rw [Nat.shiftRight_eq_div_pow] at hlarge
    have hle : 2 ^ n.length ≤ x := by
      by_contra hsmall
      exact hlarge (Nat.div_eq_of_lt (Nat.lt_of_not_le hsmall))
    rw [h.zeroes, decide_eq_false (by omega)]
  · rw [Nat.shiftRight_eq_div_pow, not_not, Nat.div_eq_zero_iff_lt (Nat.two_pow_pos _)] at hlarge
    rw [h.and, h.not, eval_EQLoop h, h.ones, h.zeroes, pow_zero, Nat.div_one,
      Nat.mod_eq_of_lt hlarge]
    rfl

end Loops

section Modular

variable {α : Type} {mPB : PabloBuilder α} {eval : α → Stream} (h : mPB.Lawful eval)
  {n k : BixNum α} {c p x : ℕ}

/-- A number of the given width with the given value at every position. -/
def Computes (eval : α → Stream) (r : BixNum α) (width : ℕ) (f : ℕ → ℕ) : Prop :=
  r.length = width ∧ ∀ p, value eval p r = f p

include h

theorem addModular_spec (n k : BixNum α) : Computes eval (AddModular mPB n k) n.length fun p ↦
    (value eval p n + value eval p k) % 2 ^ n.length := by
  refine ⟨length_addLoop, fun p ↦ ?_⟩
  have hsum := value_addLoop h (n := n) (k := k) (c := mPB.createZeroes) (p := p)
  have hlt := @value_lt _ eval p (AddModular mPB n k)
  rw [AddModular, length_addLoop] at hlt
  rw [h.zeroes, value_take, Bool.toNat_false, Nat.add_zero] at hsum
  beta_reduce
  rw [AddModular, ← Nat.add_mod_mod, ← hsum, Nat.add_mul_mod_self_left, Nat.mod_eq_of_lt hlt]

theorem subModular_spec (n k : BixNum α) : (SubModular mPB n k).length = n.length ∧ ∀ p,
    (value eval p (SubModular mPB n k) : ℤ) =
      ((value eval p n : ℤ) - value eval p k) % 2 ^ n.length := by
  refine ⟨length_subLoop, fun p ↦ ?_⟩
  obtain ⟨borrow, hdiff⟩ := value_subLoop h (n := n) (k := k) (c := mPB.createZeroes) (p := p)
  have hlt := @value_lt _ eval p (SubModular mPB n k)
  rw [SubModular, length_subLoop] at hlt
  rw [h.zeroes, value_take, Bool.toNat_false, Nat.add_zero] at hdiff
  have hmod := Nat.div_add_mod (value eval p k) (2 ^ n.length)
  have hsum : (value eval p n : ℤ) - value eval p k = value eval p (SubModular mPB n k) +
      2 ^ n.length * (-(borrow + value eval p k / 2 ^ n.length : ℕ)) := by
    rw [SubModular, Int.mul_neg]
    zify at hdiff hmod ⊢
    linarith
  rw [hsum, Int.add_mul_emod_self_left, Int.emod_eq_of_lt (Int.natCast_nonneg _)]
  exact_mod_cast hlt

omit h in
theorem addModularConst_ok {r : BixNum α} (hr : AddModularConst mPB n x = .ok r) :
    n.length ≤ 30 := by
  rw [AddModularConst, lowMask] at hr
  split_ifs at hr with h31
  · omega
  · cases hr
  · cases hr

omit h in
theorem addModularConst_length {r : BixNum α} (hr : AddModularConst mPB n x = .ok r) :
    r.length = n.length := by
  rw [AddModularConst] at hr
  obtain ⟨mask, -, hsum⟩ := bind_eq_ok.1 hr
  dsimp only at hsum
  split_ifs at hsum
  · cases hsum
    rfl
  · cases hsum
    exact length_addConst

/-- An unsigned constant is added where `(1 << width) - 1` is of the type `int`. -/
theorem addModularConst_spec (n : BixNum α) (x : ℕ) :
    (∃ r, AddModularConst mPB n x = .ok r ∧ Computes eval r n.length fun p ↦
      (value eval p n + x) % 2 ^ n.length) ↔ n.length ≤ 30 := by
  constructor
  · rintro ⟨r, hr, -⟩
    exact addModularConst_ok hr
  · intro hle
    rw [AddModularConst, lowMask, if_pos (by omega)]
    simp only [ok_bind, Nat.and_two_pow_sub_one_eq_mod]
    split_ifs with hzero
    · refine ⟨n, rfl, rfl, fun p ↦ ?_⟩
      have hlt := @value_lt _ eval p n
      beta_reduce
      rw [← Nat.add_mod_mod, hzero, Nat.add_zero, Nat.mod_eq_of_lt hlt]
    · refine ⟨_, rfl, length_addConst, fun p ↦ ?_⟩
      rw [value_addConst h, Nat.pow_zero, Nat.div_one, Nat.add_mod_mod]

omit h in
/-- The complement is the negative modulo a power of two. -/
theorem add_negate_mod {v w : ℕ} (hx : x < 2 ^ 32) (hw : w ≤ 32) :
    ((v + negate x) % 2 ^ w : ℕ) = ((v : ℤ) - x) % 2 ^ w := by
  obtain ⟨d, hd⟩ := Nat.pow_dvd_pow 2 hw
  rw [negate, Nat.add_mod, hd, Nat.mod_mul_right_mod, ← Nat.add_mod, ← hd]
  have hcomplement : (v : ℤ) - x + 2 ^ w * d = ((v + (2 ^ 32 - x) : ℕ) : ℤ) := by
    have hsum : v + (2 ^ 32 - x) + x = v + 2 ^ w * d := by omega
    zify at hsum
    rw [Nat.cast_add]
    linarith
  rw [← Int.add_mul_emod_self_left (v - x : ℤ) (2 ^ w) d, hcomplement]
  exact Int.natCast_mod _ _

theorem subModularConst_spec (n : BixNum α) (hx : x < 2 ^ 32) :
    (∃ r, SubModularConst mPB n x = .ok r ∧ r.length = n.length ∧ ∀ p,
      (value eval p r : ℤ) = ((value eval p n : ℤ) - x) % 2 ^ n.length) ↔ n.length ≤ 30 := by
  constructor
  · rintro ⟨r, hr, -⟩
    exact addModularConst_ok hr
  · intro hle
    obtain ⟨r, hr, hlen, hvalue⟩ := (addModularConst_spec h n (negate x)).2 hle
    refine ⟨r, hr, hlen, fun p ↦ ?_⟩
    rw [hvalue, add_negate_mod hx (by omega)]

theorem addFull_spec (n k : BixNum α) : Computes eval (AddFull mPB n k)
    (max n.length k.length + 1) fun p ↦ value eval p n + value eval p k := by
  have hsum (n k : BixNum α) (hle : k.length ≤ n.length) :
      let sum := addLoop mPB mPB.createZeroes n k
      Computes eval (sum.1 ++ [sum.2]) (n.length + 1) fun p ↦ value eval p n + value eval p k := by
    refine ⟨by simp, fun p ↦ ?_⟩
    have hloop := value_addLoop h (n := n) (k := k) (c := mPB.createZeroes) (p := p)
    rw [h.zeroes, List.take_of_length_le hle, Bool.toNat_false, Nat.add_zero] at hloop
    rw [value_append, length_addLoop, value_cons, value_nil, Nat.mul_zero, Nat.add_zero]
    exact hloop
  rw [AddFull]
  split_ifs with hlt
  · have hswap := hsum k n hlt.le
    rw [max_eq_right hlt.le]
    exact ⟨hswap.1, fun p ↦ (hswap.2 p).trans (Nat.add_comm _ _)⟩
  · have hle := not_lt.1 hlt
    rw [max_eq_left hle]
    exact hsum n k hle

theorem value_zeroExtend (n : BixNum α) (x p : ℕ) :
    value eval p (ZeroExtend mPB n x) = value eval p n := by
  rw [ZeroExtend, value_append, value_replicate_zeroes h, Nat.mul_zero, Nat.add_zero]

/-- An unsigned constant is added exactly where the sum has at most 30 bits. -/
theorem addFullConst_spec (n : BixNum α) (x : ℕ) :
    (∃ r, AddFullConst mPB n x = .ok r ∧ ∀ p, value eval p r = value eval p n + x) ↔
      x = 0 ∨ n.length ≤ 29 ∧ x < 2 ^ 29 := by
  rw [AddFullConst]
  split_ifs with hzero
  · subst hzero
    exact iff_of_true ⟨n, rfl, fun p ↦ rfl⟩ (.inl rfl)
  · have hlength : (ZeroExtend mPB n (max n.length (x.log2 + 1) + 1)).length =
        max n.length (x.log2 + 1) + 1 := by
      rw [ZeroExtend, List.length_append, List.length_replicate]
      omega
    have hlog : x < 2 ^ 29 ↔ x.log2 + 1 ≤ 29 := by
      rw [← Nat.log2_lt hzero]
      exact Iff.rfl
    have hiff := addModularConst_spec h (ZeroExtend mPB n (max n.length (x.log2 + 1) + 1)) x
    rw [hlength] at hiff
    constructor
    · rintro ⟨r, hr, -⟩
      have := addModularConst_ok hr
      rw [hlength] at this
      exact .inr ⟨by omega, hlog.2 (by omega)⟩
    · rintro (h0 | ⟨h1, h2⟩)
      · exact absurd h0 hzero
      · have := hlog.1 h2
        obtain ⟨r, hr, -, hvalue⟩ := hiff.2 (by omega)
        refine ⟨r, hr, fun p ↦ ?_⟩
        rw [hvalue]
        beta_reduce
        rw [value_zeroExtend h, Nat.mod_eq_of_lt]
        have hn := @value_lt _ eval p n
        have hx : x < 2 ^ (x.log2 + 1) := Nat.lt_log2_self
        have h1 := Nat.pow_le_pow_right (n := 2) (by decide)
          (le_max_left n.length (x.log2 + 1))
        have h2 := Nat.pow_le_pow_right (n := 2) (by decide)
          (le_max_right n.length (x.log2 + 1))
        rw [Nat.pow_succ]
        omega

end Modular

section Multiplication

variable {α : Type} {mPB : PabloBuilder α} {eval : α → Stream} (h : mPB.Lawful eval)
  {n product r : BixNum α} {p x i w : ℕ}

/-- What is added at the `i`-th bit is added modulo the width. -/
theorem emod_splice (v d : ℤ) (hi : i ≤ w) :
    v % 2 ^ i + 2 ^ i * ((v / 2 ^ i + d) % 2 ^ (w - i)) = (v + 2 ^ i * d) % 2 ^ w := by
  obtain ⟨k, rfl⟩ := Nat.exists_eq_add_of_le hi
  rw [Nat.add_sub_cancel_left, pow_add]
  have hlow : (0 : ℤ) < 2 ^ i := by positivity
  have hhigh : (0 : ℤ) < 2 ^ k := by positivity
  have hv := Int.emod_add_mul_ediv v (2 ^ i)
  have hupper := Int.emod_add_mul_ediv (v / 2 ^ i + d) (2 ^ k)
  have hsplit : v + 2 ^ i * d = v % 2 ^ i + 2 ^ i * ((v / 2 ^ i + d) % 2 ^ k) +
      2 ^ i * 2 ^ k * ((v / 2 ^ i + d) / 2 ^ k) := by
    linear_combination (-1 : ℤ) * hv - 2 ^ i * hupper
  have hnonneg := Int.emod_nonneg v hlow.ne'
  have hlt := Int.emod_lt_of_pos v hlow
  have hnonneg' := Int.emod_nonneg (v / 2 ^ i + d) hhigh.ne'
  have hlt' := Int.add_one_le_iff.2 (Int.emod_lt_of_pos (v / 2 ^ i + d) hhigh)
  have hle := mul_le_mul_of_nonneg_left hlt' hlow.le
  rw [hsplit, Int.add_mul_emod_self_left]
  exact (Int.emod_eq_of_lt (by positivity) (by linarith)).symm

/-- The upper bits replaced by their sum with a number. -/
theorem value_splice_emod {d : ℤ} (hi : i ≤ product.length)
    (hr : (value eval p r : ℤ) =
      (value eval p (product.drop i) + d) % 2 ^ (product.drop i).length) :
    (value eval p (product.take i ++ r) : ℤ) =
      (value eval p product + 2 ^ i * d) % 2 ^ product.length := by
  rw [← emod_splice _ _ hi, value_splice hi]
  push_cast
  rw [hr, value_drop, List.length_drop]
  push_cast
  rfl

theorem mul_mod_two_pow_succ (v x i : ℕ) :
    v * (x % 2 ^ (i + 1)) = v * (x % 2 ^ i) + 2 ^ i * (bif x.testBit i then v else 0) := by
  rw [Nat.mod_pow_succ, ← Nat.toNat_testBit, Nat.mul_add]
  cases x.testBit i
  · rw [Bool.toNat_false, cond_false, Nat.mul_zero, Nat.mul_zero]
  · rw [Bool.toNat_true, cond_true, Nat.mul_one, Nat.mul_comm v (2 ^ i)]

/-- A step adds the multiplicand where the multiplier has the bit. -/
theorem foldl_mul {step : BixNum α → ℕ → BixNum α} {P : ℕ → BixNum α → Prop} {bits : ℕ}
    (hzero : P 0 product) (hstep : ∀ i product, i < bits → P i product →
      P (i + 1) (step product i)) : P bits ((List.range bits).foldl step product) := by
  induction bits with
  | zero => exact hzero
  | succ bits ih =>
    rw [List.range_succ, List.foldl_append]
    exact hstep bits _ (Nat.lt_succ_self _) (ih fun i product hi ↦ hstep i product (by omega))

include h

theorem mulModular_spec (n : BixNum α) (x : ℕ) : Computes eval (MulModular mPB n x) n.length
    fun p ↦ (value eval p n * x) % 2 ^ n.length := by
  rw [MulModular]
  split_ifs with hzero
  · refine ⟨List.length_replicate, fun p ↦ ?_⟩
    beta_reduce
    rw [value_replicate_zeroes h, hzero, Nat.mul_zero, Nat.zero_mod]
  · have hfold := @foldl_mul _ (List.replicate n.length mPB.createZeroes)
      (mulModularStep mPB n x)
      (fun i product ↦ Computes eval product n.length fun p ↦
        (value eval p n * (x % 2 ^ i)) % 2 ^ n.length) (x.log2 + 1)
      ⟨List.length_replicate, fun p ↦ by
        simp [value_replicate_zeroes h, Nat.mod_one]⟩ ?_
    · rwa [Nat.mod_eq_of_lt Nat.lt_log2_self] at hfold
    · rintro i product - ⟨hlength, hvalue⟩
      rw [mulModularStep]
      split_ifs with hbit
      · refine ⟨by simp; omega, fun p ↦ ?_⟩
        beta_reduce
        have hp := hvalue p
        beta_reduce at hp
        rw [mul_mod_two_pow_succ, hbit, cond_true, ← Nat.mod_add_mod, ← hp]
        rcases le_total i n.length with hi | hi
        · have hadd := (addModular_spec h (product.drop i) n).2 p
          have hsplice := @value_splice_emod _ eval product (AddModular mPB (product.drop i) n) p _
            (value eval p n) (hlength ▸ hi) (by rw [hadd]; push_cast; rfl)
          rw [AddModular, hlength] at hsplice
          exact_mod_cast hsplice
        · rw [List.take_of_length_le (by omega), List.drop_of_length_le (by omega)]
          have hlt := @value_lt _ eval p product
          obtain ⟨k, rfl⟩ := Nat.exists_eq_add_of_le hi
          rw [hlength] at hlt
          rw [addLoop, List.append_nil, pow_add, Nat.mul_assoc, Nat.add_mul_mod_self_left,
            Nat.mod_eq_of_lt hlt]
      · rw [Bool.not_eq_true] at hbit
        refine ⟨hlength, fun p ↦ ?_⟩
        beta_reduce
        rw [mul_mod_two_pow_succ, hbit, cond_false, Nat.mul_zero, Nat.add_zero, hvalue p]

theorem mulAddStep_spec {bits : ℕ} (hi : i < bits)
    (hproduct : Computes eval product (n.length + bits) fun p ↦ value eval p n * (x % 2 ^ i)) :
    Computes eval (mulAddStep mPB n x product i) (n.length + bits) fun p ↦
      value eval p n * (x % 2 ^ (i + 1)) := by
  obtain ⟨hlength, hvalue⟩ := hproduct
  rw [mulAddStep]
  split_ifs with hbit
  · refine ⟨by simp; omega, fun p ↦ ?_⟩
    -- Nothing was added above the bit that takes the carry.
    have hlt : value eval p product < 2 ^ (n.length + i) := by
      rw [hvalue p, pow_add]
      exact Nat.mul_lt_mul'' value_lt (Nat.mod_lt _ (Nat.two_pow_pos i))
    have hupper : value eval p product / 2 ^ i < 2 ^ n.length := by
      rwa [Nat.div_lt_iff_lt_mul (Nat.two_pow_pos i), ← pow_add]
    have habove : value eval p (product.drop (n.length + i + 1)) = 0 := by
      rw [value_drop, Nat.div_eq_of_lt (hlt.trans (Nat.pow_lt_pow_succ (by decide)))]
    have hsum := value_addLoop h (n := (product.drop i).take n.length) (k := n)
      (c := mPB.createZeroes) (p := p)
    have hlen : ((product.drop i).take n.length).length = n.length := by simp; omega
    rw [h.zeroes, hlen, value_take, value_drop, List.take_length, Nat.mod_eq_of_lt hupper,
      Bool.toNat_false, Nat.add_zero] at hsum
    have hsplit := Nat.mod_add_div (value eval p product) (2 ^ i)
    beta_reduce
    rw [List.append_assoc, value_splice (by omega), value_append, length_addLoop, hlen,
      value_cons, habove, Nat.mul_zero, Nat.add_zero, hsum, Nat.mul_add, ← Nat.add_assoc, hsplit,
      hvalue p, mul_mod_two_pow_succ, hbit, cond_true]
  · rw [Bool.not_eq_true] at hbit
    refine ⟨hlength, fun p ↦ ?_⟩
    beta_reduce
    rw [mul_mod_two_pow_succ, hbit, cond_false, Nat.mul_zero, Nat.add_zero, hvalue p]

/-- The products of the lower bits are subtracted. -/
theorem mulSubStep_spec {bits : ℕ} (hi : i < bits)
    (hproduct : product.length = n.length + bits ∧ ∀ p, (value eval p product : ℤ) =
      -(value eval p n * (x % 2 ^ i) : ℕ) % 2 ^ (n.length + bits)) :
    (mulSubStep mPB n x product i).length = n.length + bits ∧ ∀ p,
      (value eval p (mulSubStep mPB n x product i) : ℤ) =
        -(value eval p n * (x % 2 ^ (i + 1)) : ℕ) % 2 ^ (n.length + bits) := by
  obtain ⟨hlength, hvalue⟩ := hproduct
  rw [mulSubStep]
  split_ifs with hbit
  · refine ⟨by simp; omega, fun p ↦ ?_⟩
    have hsub := (subModular_spec h (product.drop i) n).2 p
    have hsplice := @value_splice_emod _ eval product (SubModular mPB (product.drop i) n) p _
      (-value eval p n) (by omega) hsub
    rw [SubModular, hlength, hvalue p, Int.emod_add_emod] at hsplice
    rw [hsplice, mul_mod_two_pow_succ, hbit, cond_true]
    congr 1
    push_cast
    ring
  · rw [Bool.not_eq_true] at hbit
    refine ⟨hlength, fun p ↦ ?_⟩
    rw [mul_mod_two_pow_succ, hbit, cond_false, Nat.mul_zero, Nat.add_zero, hvalue p]

omit h in
/-- The complement to the power of two above the multiplier. -/
theorem negate_mod (hzero : x ≠ 0) (hx : x < 2 ^ 32) :
    negate x % 2 ^ (x.log2 + 1) = 2 ^ (x.log2 + 1) - x := by
  have hlt : x < 2 ^ (x.log2 + 1) := Nat.lt_log2_self
  have hlog : x.log2 < 32 := (Nat.log2_lt hzero).2 hx
  obtain ⟨d, hd⟩ := Nat.pow_dvd_pow 2 (show x.log2 + 1 ≤ 32 from hlog)
  have hpos : 0 < d := Nat.pos_of_ne_zero fun h0 ↦ by simp [h0] at hd
  obtain ⟨e, rfl⟩ := Nat.exists_eq_add_of_lt hpos
  have hsum : 2 ^ 32 - x = 2 ^ (x.log2 + 1) - x + 2 ^ (x.log2 + 1) * e := by
    rw [hd, Nat.zero_add, Nat.mul_add, Nat.mul_one]
    omega
  have hlow : 2 ^ 32 - x < 2 ^ 32 := by omega
  rw [negate, Nat.mod_eq_of_lt hlow, hsum, Nat.add_mul_mod_self_left]
  exact Nat.mod_eq_of_lt (by omega)

/-- The multiplicand is added above the products of the complement. -/
theorem mulFull_last (hzero : x ≠ 0) (hx : x < 2 ^ 32)
    (hlength : product.length = n.length + (x.log2 + 1))
    (hvalue : ∀ p, (value eval p product : ℤ) =
      -(value eval p n * (negate x % 2 ^ (x.log2 + 1)) : ℕ) % 2 ^ (n.length + (x.log2 + 1))) :
    Computes eval (product.take (x.log2 + 1) ++
        (addLoop mPB mPB.createZeroes (product.drop (x.log2 + 1)) n).1)
      (n.length + (x.log2 + 1)) fun p ↦ value eval p n * x := by
  refine ⟨by simp; omega, fun p ↦ ?_⟩
  have hlt : x < 2 ^ (x.log2 + 1) := Nat.lt_log2_self
  have hadd := (addModular_spec h (product.drop (x.log2 + 1)) n).2 p
  have hsplice := @value_splice_emod _ eval product (AddModular mPB (product.drop (x.log2 + 1)) n) p
    (x.log2 + 1) (value eval p n) (by omega) (by rw [hadd]; push_cast; rfl)
  rw [AddModular, hlength, hvalue p, Int.emod_add_emod, negate_mod hzero hx, Nat.cast_mul,
    Nat.cast_sub hlt.le] at hsplice
  have hproduct : -((value eval p n : ℤ) * ((2 ^ (x.log2 + 1) : ℕ) - (x : ℤ))) +
      2 ^ (x.log2 + 1) * value eval p n = (value eval p n * x : ℕ) := by
    push_cast
    ring
  have hbound : value eval p n * x < 2 ^ (n.length + (x.log2 + 1)) := by
    rw [pow_add]
    exact Nat.mul_lt_mul'' value_lt hlt
  rw [hproduct, Int.emod_eq_of_lt (Int.natCast_nonneg _) (by exact_mod_cast hbound)] at hsplice
  exact_mod_cast hsplice

theorem mulFull_spec (n : BixNum α) (hzero : x ≠ 0) (hx : x < 2 ^ 32) :
    Computes eval (MulFull mPB n x) (n.length + (x.log2 + 1)) fun p ↦ value eval p n * x := by
  have hlt : x < 2 ^ (x.log2 + 1) := Nat.lt_log2_self
  have hlog : x.log2 < 32 := (Nat.log2_lt hzero).2 hx
  rw [MulFull]
  split_ifs with hstrategy
  · have hfold := @foldl_mul _ (List.replicate (n.length + (x.log2 + 1)) mPB.createZeroes)
      (mulAddStep mPB n x)
      (fun i product ↦ Computes eval product (n.length + (x.log2 + 1)) fun p ↦
        value eval p n * (x % 2 ^ i)) (x.log2 + 1)
      ⟨List.length_replicate, fun p ↦ by simp [value_replicate_zeroes h, Nat.mod_one]⟩
      fun i product hi hproduct ↦ mulAddStep_spec h hi hproduct
    rwa [Nat.mod_eq_of_lt hlt] at hfold
  · have ⟨hlength, hvalue⟩ := @foldl_mul _
      (List.replicate (n.length + (x.log2 + 1)) mPB.createZeroes) (mulSubStep mPB n (negate x))
      (fun i product ↦ product.length = n.length + (x.log2 + 1) ∧ ∀ p,
        (value eval p product : ℤ) =
          -(value eval p n * (negate x % 2 ^ i) : ℕ) % 2 ^ (n.length + (x.log2 + 1)))
      (x.log2 + 1)
      ⟨List.length_replicate, fun p ↦ by simp [value_replicate_zeroes h, Nat.mod_one]⟩
      fun i product hi hproduct ↦ mulSubStep_spec h hi hproduct
    exact mulFull_last h hzero hx hlength hvalue

end Multiplication

/-- Numbers are added, subtracted and multiplied at every width; a constant is added or
subtracted where the mask of the width is of the type `int`. -/
theorem arithmetic_exact {α : Type} {mPB : PabloBuilder α} {eval : α → Stream}
    (h : mPB.Lawful eval) (n : BixNum α) :
    (∀ k : BixNum α,
      Computes eval (AddModular mPB n k) n.length
        (fun p ↦ (value eval p n + value eval p k) % 2 ^ n.length) ∧
      ((SubModular mPB n k).length = n.length ∧ ∀ p, (value eval p (SubModular mPB n k) : ℤ) =
        ((value eval p n : ℤ) - value eval p k) % 2 ^ n.length) ∧
      Computes eval (AddFull mPB n k) (max n.length k.length + 1)
        (fun p ↦ value eval p n + value eval p k)) ∧
    ∀ x < 2 ^ 32,
      ((∃ r, AddModularConst mPB n x = .ok r ∧ Computes eval r n.length
        fun p ↦ (value eval p n + x) % 2 ^ n.length) ↔ n.length ≤ 30) ∧
      ((∃ r, SubModularConst mPB n x = .ok r ∧ r.length = n.length ∧ ∀ p,
        (value eval p r : ℤ) = ((value eval p n : ℤ) - x) % 2 ^ n.length) ↔ n.length ≤ 30) ∧
      ((∃ r, AddFullConst mPB n x = .ok r ∧ ∀ p, value eval p r = value eval p n + x) ↔
        x = 0 ∨ n.length ≤ 29 ∧ x < 2 ^ 29) ∧
      Computes eval (MulModular mPB n x) n.length
        (fun p ↦ (value eval p n * x) % 2 ^ n.length) ∧
      (x ≠ 0 → Computes eval (MulFull mPB n x) (n.length + (x.log2 + 1))
        fun p ↦ value eval p n * x) :=
  ⟨fun k ↦ ⟨addModular_spec h n k, subModular_spec h n k, addFull_spec h n k⟩,
    fun x hx ↦ ⟨addModularConst_spec h n x, subModularConst_spec h n hx, addFullConst_spec h n x,
      mulModular_spec h n x, fun hzero ↦ mulFull_spec h n hzero hx⟩⟩

theorem arithmetic_exact_streams :
    ∃ r, AddFullConst .streams [fun _ ↦ true, fun p ↦ p == 1] 5 = .ok r ∧
      ∀ p, value id p r = value id p [fun _ ↦ true, fun p ↦ p == 1] + 5 :=
  (((arithmetic_exact PabloBuilder.streams_lawful [fun _ ↦ true, fun p ↦ p == 1]).2 5
    (by decide)).2.2.1).2 (.inr ⟨by decide, by decide⟩)

/-- `1 << 32` is shifted too far for a width of 31. -/
theorem addFull_31 : ¬ ∃ r, AddFullConst .streams (List.replicate 31 fun _ ↦ true) 1 = .ok r ∧
    ∀ p, value id p r = value id p (List.replicate 31 fun _ ↦ true) + 1 := by
  rintro ⟨r, hr, -⟩
  have hle := addModularConst_ok hr
  rw [ZeroExtend, List.length_append, List.length_replicate, List.length_replicate] at hle
  exact absurd hle (by decide)

end BixNumCompiler

end Parabix.Pablo
