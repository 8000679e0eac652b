import Parabix.Library.Intervals
import Parabix.UCD.UnicodeSet

namespace Parabix.UCD

open Library Library.RunLength

def scan_forward_zeroes (m : BitQuad) : ℕ := ((List.range 32).find? m.getLsbD).getD 32

/-- A cursor over the maximal intervals of a set. The two iterators are the parts of the buffers
not yet passed; the run under the cursor heads `mRunIterator`. -/
structure Iterator where
  mRunIterator : List run_t
  mQuadIterator : List BitQuad
  mMixedRunIndex : ℕ
  mQuadOffset : ℕ
  mBaseCodePoint : ℕ
  mMinCodePoint : ℕ
  mMaxCodePoint : ℕ
deriving DecidableEq, Repr

namespace Iterator

/-- What the two loops of `advance` look for: a code point in the set, or one that is not. -/
inductive Target where
  | member
  | nonmember
deriving DecidableEq, Repr

def Target.type : Target → RunType
  | .member => .Full
  | .nonmember => .Empty

def Target.mask : Target → BitQuad → BitQuad
  | .member, q => q
  | .nonmember, q => ~~~q

/-- The quads of a Mixed run, `n` of which are left. -/
def scanMixed (t : Target) : ℕ → Iterator → Except Fault (Option ℕ × Iterator)
  | 0, it => .ok (none, { it with
      mRunIterator := it.mRunIterator.tail
      mQuadOffset := 0
      mMixedRunIndex := 0 })
  | n + 1, it =>
    match it.mQuadIterator with
    | [] => .error .memory
    | q :: qs =>
      let m := t.mask q &&& (fullQuadMask <<< it.mQuadOffset)
      if m ≠ 0 then
        let offset := scan_forward_zeroes m
        .ok (some (it.mBaseCodePoint + offset), { it with mQuadOffset := offset })
      else
        scanMixed t n { it with
          mBaseCodePoint := it.mBaseCodePoint + quadBits
          mQuadIterator := qs
          mMixedRunIndex := it.mMixedRunIndex + 1
          mQuadOffset := 0 }

/-- The first code point of the kind looked for, from the cursor on. -/
def scan (t : Target) : List run_t → Iterator → Except Fault (Option ℕ × Iterator)
  | runs, it =>
    if unicodeMax < it.mBaseCodePoint then
      .ok (none, it)
    else
      match runs with
      | [] => .error .memory
      | r :: rs =>
        if typeOf r ≠ .Mixed then
          let baseCodePoint := it.mBaseCodePoint
          let it := { it with
            mBaseCodePoint := it.mBaseCodePoint + lengthOf r * quadBits
            mRunIterator := rs }
          if typeOf r = t.type then
            .ok (some baseCodePoint, it)
          else
            scan t rs it
        else do
          let (found, it) ← scanMixed t (lengthOf r - it.mMixedRunIndex) it
          match found with
          | some x => return (some x, it)
          | none => scan t rs it

def advance (it : Iterator) : Except Fault Iterator :=
  if unicodeMax < it.mMinCodePoint then
    .error (.thrown "UnicodeSet iterator exceeded maximum code point.")
  else do
    -- Find the start of our interval
    let (lo, it) ← scan .member it.mRunIterator it
    match lo with
    | none => return { it with mMinCodePoint := unicodeMax + 1 }
    | some lo =>
      -- Find the end of our interval
      let (hi, it) ← scan .nonmember it.mRunIterator { it with mMinCodePoint := lo }
      match hi with
      | none => return { it with mMaxCodePoint := unicodeMax }
      | some hi => return { it with mMaxCodePoint := hi - 1 }

/-- The intervals of a range-based loop, up to the end of the set. -/
def collect : ℕ → Iterator → Except Fault (List (ℕ × ℕ))
  | 0, _ => .error .fuel
  | fuel + 1, it =>
    if it.mMinCodePoint = unicodeMax + 1 then
      .ok []
    else do
      let rest ← collect fuel (← it.advance)
      return (it.mMinCodePoint, it.mMaxCodePoint) :: rest

end Iterator

def UnicodeSet.begin (s : UnicodeSet) : Except Fault Iterator :=
  Iterator.advance ⟨s.runs, s.quads, 0, 0, 0, 0, 0⟩

def UnicodeSet.intervals (s : UnicodeSet) : Except Fault (List (ℕ × ℕ)) := do
  Iterator.collect (unicodeMax + 2) (← s.begin)

section Bits

theorem scan_forward_zeroes_spec {m : BitQuad} (h : m ≠ 0) :
    scan_forward_zeroes m < 32 ∧ m.getLsbD (scan_forward_zeroes m) = true ∧
      ∀ b < scan_forward_zeroes m, m.getLsbD b = false := by
  unfold scan_forward_zeroes
  cases hf : (List.range 32).find? m.getLsbD with
  | none =>
    refine absurd (BitVec.eq_of_getLsbD_eq fun i hi ↦ ?_) h
    have := List.find?_eq_none.1 hf i (List.mem_range.2 hi)
    simpa using this
  | some k =>
    have hk := List.mem_range.1 (List.mem_of_find?_eq_some hf)
    refine ⟨hk, List.find?_some hf, ?_⟩
    intro b hb
    obtain ⟨-, as, bs, hab, hno⟩ := List.find?_eq_some_iff_append.1 hf
    have hmem : b ∈ as := by
      have hlen : as.length = k := by
        have hget := congrArg (fun l ↦ l[as.length]?) hab
        simp only [List.getElem?_append_right (Nat.le_refl _), Nat.sub_self,
          List.getElem?_cons_zero] at hget
        have := List.getElem?_eq_some_iff.1 hget
        simpa using this.2
      have hget := congrArg (fun l ↦ l[b]?) hab
      simp only [Option.getD_some] at hb
      rw [List.getElem?_append_left (by omega), List.getElem?_range (by omega)] at hget
      exact List.mem_of_getElem? hget.symm
    simpa using hno b hmem

/-- The quads give the members of a set from a code point on. -/
def ShowsFrom (f : ℕ → Bool) : ℕ → List BitQuad → Prop
  | _, [] => True
  | base, q :: qs => (∀ b < 32, q.getLsbD b = f (base + b)) ∧ ShowsFrom f (base + 32) qs

variable {f : ℕ → Bool}

theorem ShowsFrom.replicate {q : BitQuad} {n base : ℕ} {qs : List BitQuad} {b : Bool}
    (hq : ∀ i < 32, q.getLsbD i = b) (h : ShowsFrom f base (List.replicate n q ++ qs)) :
    (∀ x, base ≤ x → x < base + n * 32 → f x = b) ∧ ShowsFrom f (base + n * 32) qs := by
  induction n generalizing base with
  | zero =>
    simp only [List.replicate_zero, List.nil_append] at h
    exact ⟨fun x h1 h2 ↦ by omega, by simpa using h⟩
  | succ n ih =>
    obtain ⟨hhead, htail⟩ := h
    obtain ⟨h1, h2⟩ := ih htail
    rw [show base + (n + 1) * 32 = base + 32 + n * 32 by omega]
    refine ⟨fun x hx hlt ↦ ?_, h2⟩
    by_cases hb : x < base + 32
    · have := hhead (x - base) (by omega)
      rw [hq _ (by omega), show base + (x - base) = x by omega] at this
      exact this.symm
    · exact h1 x (by omega) hlt

theorem showsFrom_iff {cs : List BitQuad} {base : ℕ} :
    ShowsFrom f base cs ↔ ∀ i b, i < cs.length → b < 32 →
      (cs.getD i 0).getLsbD b = f (base + i * 32 + b) := by
  induction cs generalizing base with
  | nil => simp [ShowsFrom]
  | cons q cs ih =>
    rw [ShowsFrom, ih]
    constructor
    · rintro ⟨hq, hcs⟩ i b hi hb
      cases i with
      | zero => simpa using hq b hb
      | succ i =>
        rw [List.getD_cons_succ, hcs i b (by simpa using hi) hb]
        congr 1
        omega
    · intro hall
      constructor
      · intro b hb
        simpa using hall 0 b (by simp) hb
      · intro i b hi hb
        rw [← List.getD_cons_succ, hall (i + 1) b (by simpa using hi) hb]
        congr 1
        omega

end Bits

namespace Iterator

def Target.bit : Target → Bool
  | .member => true
  | .nonmember => false

theorem Target.getLsbD_mask (t : Target) (q : BitQuad) {b : ℕ} (hb : b < 32) :
    (t.mask q).getLsbD b = (q.getLsbD b == t.bit) := by
  cases t with
  | member => simp [mask, bit]
  | nonmember => simp [mask, bit, hb]

/-- The code point under the cursor. -/
def position (it : Iterator) : ℕ := it.mBaseCodePoint + it.mQuadOffset

/-- The runs that are left, without the quads already passed of the first one. -/
def left (it : Iterator) : List run_t :=
  match it.mRunIterator with
  | [] => []
  | r :: rs => ⟨r.kind, r.length - it.mMixedRunIndex⟩ :: rs

theorem left_eq (it : Iterator) (h : it.mMixedRunIndex = 0) : it.left = it.mRunIterator := by
  cases hr : it.mRunIterator <;> simp [left, hr, h]

structure Valid (f : ℕ → Bool) (it : Iterator) : Prop where
  shows_ : ShowsFrom f it.mBaseCodePoint (decode fill it.left it.mQuadIterator)
  literals : literals fill it.left ≤ it.mQuadIterator.length
  total : it.mBaseCodePoint + total it.left * 32 = unicodeMax + 1
  pos : ∀ r ∈ it.mRunIterator, 0 < r.length
  inside : (it.mMixedRunIndex = 0 ∧ it.mQuadOffset = 0) ∨
    ∃ n rs, it.mRunIterator = ⟨.Mixed, n⟩ :: rs ∧ it.mMixedRunIndex < n ∧ it.mQuadOffset < 32

/-- The cursor only moved, and kept the interval found last. -/
structure Moved (f : ℕ → Bool) (it it' : Iterator) : Prop where
  valid : it'.Valid f
  min : it'.mMinCodePoint = it.mMinCodePoint
  max : it'.mMaxCodePoint = it.mMaxCodePoint

/-- What a scan from `p` on reports, and where it leaves the cursor. -/
def Lands (f : ℕ → Bool) (t : Target) (p : ℕ) : Option ℕ → Iterator → Prop
  | none, it => unicodeMax < it.position ∧ ∀ x, p ≤ x → x ≤ unicodeMax → f x = !t.bit
  | some y, it => p ≤ y ∧ y ≤ unicodeMax ∧ f y = t.bit ∧ (∀ x, p ≤ x → x < y → f x = !t.bit) ∧
      y ≤ it.position ∧ ∀ x, y ≤ x → x < it.position → f x = t.bit

theorem Lands.of_gap {f : ℕ → Bool} {t : Target} {p q : ℕ} {o : Option ℕ} {it : Iterator}
    (h : Lands f t q o it) (hpq : p ≤ q) (hgap : ∀ x, p ≤ x → x < q → f x = !t.bit) :
    Lands f t p o it := by
  cases o with
  | none =>
    refine ⟨h.1, fun x hx hmax ↦ ?_⟩
    by_cases hq : x < q
    · exact hgap x hx hq
    · exact h.2 x (by omega) hmax
  | some y =>
    obtain ⟨h1, h2, h3, h4, h5⟩ := h
    refine ⟨by omega, h2, h3, ?_, h5⟩
    intro x hx hy
    by_cases hq : x < q
    · exact hgap x hx hq
    · exact h4 x (by omega) hy

variable {f : ℕ → Bool}

theorem scanMixed_spec (t : Target) {n : ℕ} {rs : List run_t} {it : Iterator}
    (hruns : it.mRunIterator = ⟨.Mixed, it.mMixedRunIndex + n⟩ :: rs)
    (hoff : it.mQuadOffset < 32) (hzero : n = 0 → it.mQuadOffset = 0)
    (hshow : ShowsFrom f it.mBaseCodePoint (decode fill (⟨.Mixed, n⟩ :: rs) it.mQuadIterator))
    (hlit : n + literals fill rs ≤ it.mQuadIterator.length)
    (htot : it.mBaseCodePoint + (n + RunLength.total rs) * 32 = unicodeMax + 1)
    (hpos : ∀ r ∈ it.mRunIterator, 0 < r.length) :
    ∃ o it', scanMixed t n it = .ok (o, it') ∧ Moved f it it' ∧
      match o with
      | some y => Lands f t it.position (some y) it'
      | none => it'.mRunIterator = rs ∧ it.position ≤ it'.position ∧
          ∀ x, it.position ≤ x → x < it'.position → f x = !t.bit := by
  induction n generalizing it with
  | zero =>
    simp only [decode, fill_mixed, List.take_zero, List.nil_append, List.drop_zero] at hshow
    refine ⟨none, _, rfl,
      ⟨⟨?_, ?_, ?_, fun r hr ↦ hpos r (List.mem_of_mem_tail hr), .inl ⟨rfl, rfl⟩⟩, rfl, rfl⟩, ?_⟩
    · rw [left_eq _ rfl]
      simpa only [hruns, List.tail_cons] using hshow
    · rw [left_eq _ rfl]
      simpa only [hruns, List.tail_cons, Nat.zero_add] using hlit
    · rw [left_eq _ rfl]
      simpa only [hruns, List.tail_cons, Nat.zero_add] using htot
    · have h0 := hzero rfl
      simp only [hruns, List.tail_cons, position, true_and]
      exact ⟨by omega, fun x h1 h2 ↦ by omega⟩
  | succ n ih =>
    obtain ⟨q, qs, hq⟩ : ∃ q qs, it.mQuadIterator = q :: qs := by
      cases hm : it.mQuadIterator with
      | nil =>
        rw [hm, List.length_nil] at hlit
        omega
      | cons q qs => exact ⟨q, qs, rfl⟩
    rw [hq] at hshow hlit
    simp only [decode, fill_mixed, List.take_succ_cons, List.drop_succ_cons, List.cons_append,
      ShowsFrom] at hshow
    obtain ⟨hhead, htail⟩ := hshow
    have hbit {b : ℕ} (hb : b < 32) :
        (t.mask q &&& (fullQuadMask <<< it.mQuadOffset)).getLsbD b =
          (decide (it.mQuadOffset ≤ b) && (f (it.mBaseCodePoint + b) == t.bit)) := by
      rw [BitVec.getLsbD_and, t.getLsbD_mask q hb, hhead b hb, BitVec.getLsbD_shiftLeft]
      simp only [hb, decide_true, Bool.true_and]
      by_cases hle : it.mQuadOffset ≤ b
      · rw [getLsbD_fullQuadMask (by omega)]
        simp [hle]
      · simp [hle, show b < it.mQuadOffset by omega]
    by_cases hm : t.mask q &&& (fullQuadMask <<< it.mQuadOffset) = 0
    · have hgap (x : ℕ) (hx : it.position ≤ x) (hlt : x < it.mBaseCodePoint + 32) :
          f x = !t.bit := by
        unfold position at hx
        have hz := hbit (b := x - it.mBaseCodePoint) (by omega)
        rw [hm, show it.mBaseCodePoint + (x - it.mBaseCodePoint) = x by omega,
          decide_eq_true (by omega), Bool.true_and] at hz
        cases hf : f x <;> cases ht : t.bit <;> simp [hf, ht] at hz ⊢
      have hstep : scanMixed t (n + 1) it = scanMixed t n { it with
          mBaseCodePoint := it.mBaseCodePoint + quadBits
          mQuadIterator := qs
          mMixedRunIndex := it.mMixedRunIndex + 1
          mQuadOffset := 0 } := by
        rw [scanMixed, hq]
        simp only [hm, ne_eq, not_true_eq_false, if_false]
      obtain ⟨o, it', he, hmv, hres⟩ := ih
        (show ({ it with
            mBaseCodePoint := it.mBaseCodePoint + quadBits
            mQuadIterator := qs
            mMixedRunIndex := it.mMixedRunIndex + 1
            mQuadOffset := 0 } : Iterator).mRunIterator = _ by simp only [hruns]; congr 2; omega)
        (by simp) (by simp) (by simpa [decode, quadBits] using htail)
        (by simpa using by simp only [List.length_cons] at hlit; omega)
        (by simp only [quadBits]; omega) hpos
      refine ⟨o, it', hstep.trans he, ⟨hmv.valid, hmv.min, hmv.max⟩, ?_⟩
      cases o with
      | some y =>
        refine Lands.of_gap hres ?_ ?_
        · simp only [position, quadBits]
          omega
        · simpa [position, quadBits] using hgap
      | none =>
        simp only [position, quadBits] at hres hgap ⊢
        refine ⟨hres.1, by omega, fun x hx hlt ↦ ?_⟩
        by_cases hb : x < it.mBaseCodePoint + 32
        · exact hgap x hx hb
        · exact hres.2.2 x (by omega) hlt
    · obtain ⟨hs, hset, hclear⟩ := scan_forward_zeroes_spec hm
      rw [hbit hs, Bool.and_eq_true, decide_eq_true_eq, beq_iff_eq] at hset
      have hstep : scanMixed t (n + 1) it = .ok (some (it.mBaseCodePoint +
          scan_forward_zeroes (t.mask q &&& (fullQuadMask <<< it.mQuadOffset))),
          { it with mQuadOffset :=
              scan_forward_zeroes (t.mask q &&& (fullQuadMask <<< it.mQuadOffset)) }) := by
        rw [scanMixed, hq]
        simp only [hm, ne_eq, not_false_eq_true, if_true]
      generalize scan_forward_zeroes (t.mask q &&& (fullQuadMask <<< it.mQuadOffset)) = k at *
      refine ⟨_, _, hstep, ⟨⟨?_, ?_, ?_, hpos, .inr ⟨_, rs, hruns, by simp, hs⟩⟩, rfl, rfl⟩, ?_⟩
      · simp only [left, hruns, hq, Nat.add_sub_cancel_left, decode, fill_mixed,
          List.take_succ_cons, List.drop_succ_cons, List.cons_append, ShowsFrom]
        exact ⟨hhead, htail⟩
      · simpa [left, hruns, hq] using hlit
      · simpa [left, hruns] using htot
      · simp only [Lands, position]
        refine ⟨by omega, by omega, hset.2, ?_, by omega, fun x h1 h2 ↦ by omega⟩
        intro x hx hlt
        have hz := hclear (x - it.mBaseCodePoint) (by omega)
        rw [hbit (by omega), show it.mBaseCodePoint + (x - it.mBaseCodePoint) = x by omega,
          decide_eq_true (by omega), Bool.true_and] at hz
        cases hf : f x <;> cases ht : t.bit <;> simp [hf, ht] at hz ⊢

theorem Target.fill_type (t : Target) :
    ∃ a, fill t.type = some a ∧ ∀ i < 32, a.getLsbD i = t.bit := by
  cases t with
  | member => exact ⟨_, rfl, fun i hi ↦ getLsbD_fullQuadMask hi⟩
  | nonmember => exact ⟨_, rfl, fun i _ ↦ BitVec.getLsbD_zero⟩

theorem Target.fill_other (t : Target) {k : RunType} (hm : k ≠ .Mixed) (hk : k ≠ t.type) :
    ∃ a, fill k = some a ∧ ∀ i < 32, a.getLsbD i = !t.bit := by
  cases t with
  | member =>
    cases k with
    | Empty => exact ⟨_, rfl, fun i _ ↦ BitVec.getLsbD_zero⟩
    | Mixed => exact absurd rfl hm
    | Full => exact absurd rfl hk
  | nonmember =>
    cases k with
    | Empty => exact absurd rfl hk
    | Mixed => exact absurd rfl hm
    | Full => exact ⟨_, rfl, fun i hi ↦ getLsbD_fullQuadMask hi⟩

theorem scan_spec (t : Target) {rs : List run_t} {it : Iterator} (hrs : it.mRunIterator = rs)
    (h : it.Valid f) :
    ∃ o it', scan t rs it = .ok (o, it') ∧ Moved f it it' ∧ Lands f t it.position o it' := by
  induction rs generalizing it with
  | nil =>
    have htot := h.total
    simp only [left, hrs, total_nil] at htot
    refine ⟨none, it, ?_, ⟨h, rfl, rfl⟩, ?_⟩
    · rw [scan, if_pos (by omega)]
    · unfold Lands position
      exact ⟨by omega, fun x hx hmax ↦ by omega⟩
  | cons r rs ih =>
    obtain ⟨k, n⟩ := r
    have htot := h.total
    have hlit := h.literals
    have hshow := h.shows_
    simp only [left, hrs, total_cons, literals_cons] at htot hlit hshow
    have hpos := h.pos
    rw [hrs] at hpos
    by_cases hmax : unicodeMax < it.mBaseCodePoint
    · refine ⟨none, it, ?_, ⟨h, rfl, rfl⟩, ?_⟩
      · rw [scan, if_pos hmax]
      · unfold Lands position
        exact ⟨by omega, fun x hx hle ↦ by omega⟩
    by_cases hk : k = .Mixed
    · subst hk
      have hi : it.mMixedRunIndex ≤ n ∧ it.mQuadOffset < 32 ∧
          (n - it.mMixedRunIndex = 0 → it.mQuadOffset = 0) := by
        obtain hi | ⟨m, rs', he, h1, h2⟩ := h.inside
        · omega
        · rw [hrs] at he
          cases he
          omega
      simp only [fill_mixed, Option.isNone_none, if_true] at hlit
      obtain ⟨o, it', he, hmv, hres⟩ := scanMixed_spec (f := f) t
        (show it.mRunIterator = ⟨.Mixed, it.mMixedRunIndex + (n - it.mMixedRunIndex)⟩ :: rs by
          rw [hrs, Nat.add_sub_cancel' hi.1]) hi.2.1 hi.2.2 hshow hlit htot h.pos
      have hstep : scan t (⟨.Mixed, n⟩ :: rs) it = match o with
          | some x => .ok (some x, it')
          | none => scan t rs it' := by
        rw [scan, if_neg hmax]
        simp only [typeOf_eq, ne_eq, not_true_eq_false, if_false, lengthOf_eq, he, ok_bind]
        cases o <;> rfl
      rw [hstep]
      cases o with
      | some y => exact ⟨some y, it', rfl, hmv, hres⟩
      | none =>
        obtain ⟨o, it'', he', hmv', hlands⟩ := ih hres.1 hmv.valid
        exact ⟨o, it'', he', ⟨hmv'.valid, hmv'.min.trans hmv.min, hmv'.max.trans hmv.max⟩,
          hlands.of_gap hres.2.1 hres.2.2⟩
    · have hidx : it.mMixedRunIndex = 0 ∧ it.mQuadOffset = 0 := by
        obtain hi | ⟨m, rs', he, -⟩ := h.inside
        · exact hi
        · rw [hrs] at he
          cases he
          exact absurd rfl hk
      simp only [hidx.1, Nat.sub_zero] at htot hlit hshow
      -- The cursor moves to the end of the run.
      obtain ⟨it₁, hit⟩ : ∃ it₁ : Iterator, it₁ = { it with
          mBaseCodePoint := it.mBaseCodePoint + n * quadBits
          mRunIterator := rs } := ⟨_, rfl⟩
      have hpos₁ : it₁.position = it.mBaseCodePoint + n * 32 := by
        simp only [hit, position, hidx.2, quadBits]
        rfl
      have hmoved {a : BitQuad} {b : Bool} (ha : fill k = some a) (hb : ∀ i < 32, a.getLsbD i = b) :
          Moved f it it₁ ∧
            ∀ x, it.mBaseCodePoint ≤ x → x < it.mBaseCodePoint + n * 32 → f x = b := by
        have hleft : it₁.left = rs := by
          rw [left_eq _ (by rw [hit]; exact hidx.1), hit]
        rw [decode_cons_some ha] at hshow
        obtain ⟨hrun, hrest⟩ := hshow.replicate hb
        simp only [ha, Option.isNone_some, Bool.false_eq_true, if_false, Nat.zero_add] at hlit
        refine ⟨⟨⟨?_, ?_, ?_, ?_, ?_⟩, by rw [hit], by rw [hit]⟩, hrun⟩
        · rw [hleft, hit]
          exact hrest
        · rw [hleft, hit]
          exact hlit
        · rw [hleft, hit]
          simp only [quadBits]
          omega
        · rw [hit]
          exact fun r hr ↦ hpos r (List.mem_cons_of_mem _ hr)
        · rw [hit]
          exact .inl hidx
      have hn := hpos _ (List.mem_cons_self ..)
      by_cases ht : k = t.type
      · obtain ⟨a, ha, hb⟩ := t.fill_type
        obtain ⟨hmv, hrun⟩ := hmoved (ht ▸ ha) hb
        refine ⟨some it.mBaseCodePoint, it₁, ?_, hmv, ?_⟩
        · have hkt : t.type ≠ .Mixed := ht ▸ hk
          rw [scan, if_neg hmax, hit]
          simp [ht, hkt]
        · simp only at hn
          have hpos₀ : it.position = it.mBaseCodePoint := by
            rw [position, hidx.2, Nat.add_zero]
          rw [Lands, hpos₀, hpos₁]
          exact ⟨Nat.le_refl _, by omega, hrun _ (Nat.le_refl _) (by omega),
            fun x h1 h2 ↦ by omega, by omega, hrun⟩
      · obtain ⟨a, ha, hb⟩ := t.fill_other hk ht
        obtain ⟨hmv, hrun⟩ := hmoved ha hb
        obtain ⟨o, it', he, hmv', hlands⟩ := ih (by rw [hit]) hmv.valid
        refine ⟨o, it', ?_, ⟨hmv'.valid, hmv'.min.trans hmv.min, hmv'.max.trans hmv.max⟩, ?_⟩
        · rw [scan, if_neg hmax]
          simp only [typeOf_eq, ne_eq, hk, not_false_eq_true, if_true, lengthOf_eq, ← hit, he]
          simp [ht]
        · rw [hpos₁] at hlands
          refine hlands.of_gap ?_ ?_
          · simp only [position, hidx.2]
            omega
          · simpa only [position, hidx.2, Nat.add_zero] using hrun

/-- The cursor after it has been advanced: the next interval from `p` on is on it, or the end of
the set is reached. -/
structure Shows (f : ℕ → Bool) (it : Iterator) (p : ℕ) : Prop where
  valid : it.Valid f
  start : p ≤ it.mMinCodePoint
  gap : ∀ x, p ≤ x → x < it.mMinCodePoint → x ≤ unicodeMax → f x = false
  interval : it.mMinCodePoint = unicodeMax + 1 ∨
    it.mMinCodePoint ≤ it.mMaxCodePoint ∧ it.mMaxCodePoint ≤ unicodeMax ∧
    (∀ x, it.mMinCodePoint ≤ x → x ≤ it.mMaxCodePoint → f x = true) ∧
    (it.mMaxCodePoint + 1 ≤ unicodeMax → f (it.mMaxCodePoint + 1) = false) ∧
    it.mMaxCodePoint + 1 ≤ it.position ∧
    ∀ x, it.mMaxCodePoint + 1 ≤ x → x < it.position → x ≤ unicodeMax → f x = false

theorem Valid.of_eq {it it' : Iterator} (h : it.Valid f) (hr : it'.mRunIterator = it.mRunIterator)
    (hq : it'.mQuadIterator = it.mQuadIterator) (hi : it'.mMixedRunIndex = it.mMixedRunIndex)
    (ho : it'.mQuadOffset = it.mQuadOffset) (hb : it'.mBaseCodePoint = it.mBaseCodePoint) :
    it'.Valid f := by
  have hl : it'.left = it.left := by
    unfold left
    rw [hr, hi]
  exact ⟨by rw [hl, hq, hb]; exact h.shows_, by rw [hl, hq]; exact h.literals,
    by rw [hl, hb]; exact h.total, by rw [hr]; exact h.pos, by rw [hr, hi, ho]; exact h.inside⟩

/-- From a cursor with no member between `p` and it, `advance` goes to the next interval. -/
theorem advance_shows {it : Iterator} {p : ℕ} (h : it.Valid f) (hmin : it.mMinCodePoint ≤ unicodeMax)
    (hp : p ≤ unicodeMax + 1) (hpos : p ≤ it.position)
    (hgap : ∀ x, p ≤ x → x < it.position → x ≤ unicodeMax → f x = false) :
    ∃ it', it.advance = .ok it' ∧ it'.Shows f p := by
  obtain ⟨o, it₁, he, hmv, hlands⟩ := scan_spec .member rfl h
  unfold advance
  rw [if_neg (by omega), he]
  simp only [ok_bind]
  cases o with
  | none =>
    refine ⟨_, rfl, hmv.valid.of_eq rfl rfl rfl rfl rfl, hp, ?_, .inl rfl⟩
    intro x hx _ hle
    by_cases hq : x < it.position
    · exact hgap x hx hq hle
    · exact hlands.2 x (by omega) hle
  | some lo =>
    obtain ⟨hlo, hmax, hf, hbefore, hle₁, hrun⟩ := hlands
    have hgap' (x : ℕ) (hx : p ≤ x) (hlt : x < lo) (hle : x ≤ unicodeMax) : f x = false := by
      by_cases hq : x < it.position
      · exact hgap x hx hq hle
      · exact hbefore x (by omega) hlt
    obtain ⟨o', it₂, he₂, hmv₂, hlands₂⟩ := scan_spec .nonmember
      (show ({ it₁ with mMinCodePoint := lo } : Iterator).mRunIterator = _ from rfl)
      (hmv.valid.of_eq rfl rfl rfl rfl rfl)
    simp only at he₂
    simp only [he₂, ok_bind]
    have hmin₂ : it₂.mMinCodePoint = lo := hmv₂.min
    have hpos₁ : ({ it₁ with mMinCodePoint := lo } : Iterator).position = it₁.position := rfl
    rw [hpos₁] at hlands₂
    cases o' with
    | none =>
      refine ⟨_, rfl, hmv₂.valid.of_eq rfl rfl rfl rfl rfl, by simp only [hmin₂]; omega,
        by simpa only [hmin₂] using hgap', .inr ?_⟩
      simp only [hmin₂]
      refine ⟨hmax, Nat.le_refl _, ?_, fun h ↦ by omega, hlands₂.1, fun x h1 _ h3 ↦ by omega⟩
      intro x hx hle
      by_cases hq : x < it₁.position
      · exact hrun x hx hq
      · exact hlands₂.2 x (by omega) hle
    | some hi =>
      obtain ⟨hhi, hmax', hf', hbefore', hle₂, hrun'⟩ := hlands₂
      have hlt : lo < hi := by
        by_contra hge
        obtain rfl : lo = hi := by omega
        rw [hf'] at hf
        cases hf
      refine ⟨_, rfl, hmv₂.valid.of_eq rfl rfl rfl rfl rfl, by simp only [hmin₂]; omega,
        by simpa only [hmin₂] using hgap', .inr ?_⟩
      simp only [hmin₂, show hi - 1 + 1 = hi by omega]
      refine ⟨by omega, by omega, ?_, fun _ ↦ hf', hle₂, fun x h1 h2 _ ↦ hrun' x h1 h2⟩
      intro x hx hle
      by_cases hq : x < it₁.position
      · exact hrun x hx hq
      · exact hbefore' x (by omega) (by omega)

theorem collect_intervals {fuel p : ℕ} {it : Iterator} (h : it.Shows f p)
    (hfuel : unicodeMax + 1 - it.mMinCodePoint < fuel) :
    ∃ is, collect fuel it = .ok is ∧ Intervals f (unicodeMax + 1) p is := by
  induction fuel generalizing it p with
  | zero => omega
  | succ fuel ih =>
    unfold collect
    split_ifs with hend
    · refine ⟨[], rfl, .nil fun x hx hlt ↦ h.gap x hx (by omega) (by omega)⟩
    · obtain hend' | ⟨hle, hmax, hrun, hstop, hpos, hafter⟩ := h.interval
      · exact absurd hend' hend
      obtain ⟨it', he, hs⟩ := advance_shows h.valid (by omega) (by omega) hpos hafter
      have hstart := hs.start
      obtain ⟨is, hc, hi⟩ := ih hs (by omega)
      refine ⟨(it.mMinCodePoint, it.mMaxCodePoint) :: is, ?_, ?_⟩
      · rw [he, ok_bind, hc, ok_bind, pure_eq_ok]
      · exact .cons h.start hle (by omega) (fun x hx hlt ↦ h.gap x hx hlt (by omega)) hrun
          (fun h ↦ hstop (by omega)) hi

end Iterator

/-- A range-based loop over a set visits its maximal intervals in order, however the set is split
into runs. -/
theorem UnicodeSet.intervals_spec {s : UnicodeSet} (h : Verified s.runs s.quads) :
    ∃ is, s.intervals = .ok is ∧ Intervals s.contains (unicodeMax + 1) 0 is := by
  have hv : Iterator.Valid s.contains ⟨s.runs, s.quads, 0, 0, 0, 0, 0⟩ := by
    refine ⟨?_, ?_, ?_, h.pos, .inl ⟨rfl, rfl⟩⟩
    · rw [Iterator.left_eq _ rfl, showsFrom_iff]
      intro i b hi hb
      rw [contains_eq h]
      simp only [Nat.zero_add]
      rw [show (i * 32 + b) / 32 = i by omega, show (i * 32 + b) % 32 = b by omega,
        List.getD_eq_getElem?_getD]
      rfl
    · rw [Iterator.left_eq _ rfl]
      exact h.literals.le
    · rw [Iterator.left_eq _ rfl]
      simp [h.total, unicodeQuadCount, unicodeMax, quadBits]
  obtain ⟨it, he, hs⟩ := Iterator.advance_shows hv (Nat.zero_le _) (Nat.zero_le _)
    (Nat.zero_le _) (fun x _ hlt ↦ absurd hlt (Nat.not_lt_zero x))
  obtain ⟨is, hc, hi⟩ := Iterator.collect_intervals hs
    (show unicodeMax + 1 - it.mMinCodePoint < unicodeMax + 2 by omega)
  refine ⟨is, ?_, hi⟩
  rw [intervals, begin, he, ok_bind, hc]

theorem UnicodeSet.mem_intervals_iff {s : UnicodeSet} {is : List (ℕ × ℕ)}
    (h : Verified s.runs s.quads) (his : Intervals s.contains (unicodeMax + 1) 0 is) (x : ℕ) :
    (∃ i ∈ is, i.1 ≤ x ∧ x ≤ i.2) ↔ x ∈ s.members := by
  by_cases hx : x ≤ unicodeMax
  · exact (his.mem_iff (Nat.zero_le x) (Nat.lt_succ_of_le hx)).symm
  · refine iff_of_false ?_ fun hmem ↦ hx (UnicodeSet.le_of_mem h hmem)
    rintro ⟨i, hi, -, hle⟩
    have := his.bounds i hi
    omega

end Parabix.UCD
