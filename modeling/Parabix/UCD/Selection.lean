import Mathlib.Data.Nat.Nth
import Mathlib.Data.Set.Card
import Parabix.RE.ClassOverlap
import Parabix.UCD.Ranges

namespace Parabix.UCD

open Library Library.RunLength

def popcount (x : BitQuad) : ℕ := Nat.count (fun b ↦ x.getLsbD b = true) 32

/-- The bits below the one looked for are cleared one by one. -/
def scanQuad (q : BitQuad) (base : ℕ) : ℕ → ℕ
  | 0 => base + scan_forward_zeroes q
  | remaining + 1 => scanQuad (q ^^^ (1#32 <<< scan_forward_zeroes q)) base remaining

/-- The quads of a Mixed run: the code point, or what is left after them. -/
def scanQuads : ℕ → List BitQuad → ℕ → ℕ → Except Fault (ℕ ⊕ ℕ × List BitQuad)
  | 0, quads, _, remaining => .ok (.inr (remaining, quads))
  | _ + 1, [], _, _ => .error .memory
  | n + 1, q :: quads, base, remaining =>
    if remaining < popcount q then .ok (.inl (scanQuad q base remaining))
    else scanQuads n quads (base + quadBits) (remaining - popcount q)

/-- Runs are passed as long as they have fewer members than remain. -/
def scanRuns : List run_t → List BitQuad → ℕ → ℕ → Except Fault (Option ℕ)
  | [], _, _, _ => .ok none
  | r :: rs, quads, base, remaining =>
    let m := lengthOf r * quadBits
    match typeOf r with
    | .Empty => scanRuns rs quads (base + m) remaining
    | .Full =>
      if remaining < m then .ok (some (base + remaining))
      else scanRuns rs quads (base + m) (remaining - m)
    | .Mixed => do
      match ← scanQuads (lengthOf r) quads base remaining with
      | .inl codepoint => return some codepoint
      | .inr (remaining, quads) => scanRuns rs quads (base + m) remaining

namespace UnicodeSet

def count (s : UnicodeSet) : ℕ :=
  ((s.runs.filter fun r ↦ typeOf r = .Full).map lengthOf).sum * quadBits +
    (s.quads.map popcount).sum

/-- The `k`-th code point. -/
def codepointAt (s : UnicodeSet) (k : ℕ) : Except Fault ℕ := do
  match ← scanRuns s.runs s.quads 0 k with
  | some codepoint => return codepoint
  | none => throw (.thrown
      s!"cannot retrieve codepoint {k} from a  set containing {s.count} codepoints")

/-- The first interval that ends at `lo` or later decides. -/
def intersectsRangeLoop (lo hi : ℕ) : List (ℕ × ℕ) → Bool
  | [] => false
  | range :: ranges =>
    if range.2 < lo then intersectsRangeLoop lo hi ranges
    else if hi < range.1 then false
    else true

def intersectsRange (s : UnicodeSet) (lo hi : ℕ) : Except Fault Bool := do
  return intersectsRangeLoop lo hi (← s.intervals)

end UnicodeSet

section Quad

variable {q : BitQuad} {base r : ℕ}

/-- The lowest member of a quad lies before all places after it. -/
theorem count_clear (hq : q ≠ 0) (n : ℕ) :
    Nat.count (fun b ↦ q.getLsbD b = true) n =
      Nat.count (fun b ↦ (q ^^^ (1#32 <<< scan_forward_zeroes q)).getLsbD b = true) n +
        if scan_forward_zeroes q < n then 1 else 0 := by
  obtain ⟨hlt, hset, -⟩ := scan_forward_zeroes_spec hq
  induction n with
  | zero => rfl
  | succ n ih =>
    rw [Nat.count_succ, Nat.count_succ, ih, BitVec.getLsbD_xor]
    rcases Nat.lt_or_ge n 32 with hn | hn
    · rw [getLsbD_bit _ hn]
      rcases Nat.lt_trichotomy n (scan_forward_zeroes q) with h | rfl | h
      · simp [h.ne, h.not_gt, show ¬ scan_forward_zeroes q < n + 1 by omega]
      · simp [hset]
      · simp [h.ne', h, Nat.lt_succ_of_lt h]
        omega
    · rw [BitVec.getLsbD_of_ge q n hn, BitVec.getLsbD_of_ge _ n hn]
      simp [hlt.trans_le hn, Nat.lt_succ_of_lt (hlt.trans_le hn)]

theorem ne_zero_of_popcount (h : r < popcount q) : q ≠ 0 := by
  rintro rfl
  exact absurd h (by simp [popcount])

/-- The bit of a quad with the given number of members before it. -/
theorem scanQuad_spec (hr : r < popcount q) : ∃ b < 32, scanQuad q base r = base + b ∧
    q.getLsbD b = true ∧ Nat.count (fun b ↦ q.getLsbD b = true) b = r := by
  have hq := ne_zero_of_popcount hr
  obtain ⟨hlt, hset, hclear⟩ := scan_forward_zeroes_spec hq
  induction r generalizing q with
  | zero =>
    refine ⟨scan_forward_zeroes q, hlt, rfl, hset, Nat.count_of_forall_not fun b hb ↦ ?_⟩
    rw [hclear b hb]
    exact Bool.false_ne_true
  | succ r ih =>
    have hrest : r < popcount (q ^^^ (1#32 <<< scan_forward_zeroes q)) := by
      have hcount := count_clear hq 32
      rw [if_pos hlt] at hcount
      rw [popcount] at hr ⊢
      omega
    have hq' := ne_zero_of_popcount hrest
    obtain ⟨hlt', hset', hclear'⟩ := scan_forward_zeroes_spec hq'
    obtain ⟨b, hb, hscan, hbit, hcount⟩ := ih hrest hq' hlt' hset' hclear'
    rw [BitVec.getLsbD_xor, getLsbD_bit _ hb] at hbit
    have hne : b ≠ scan_forward_zeroes q := by
      rintro rfl
      simp [hset] at hbit
    rw [decide_eq_false hne, Bool.xor_false] at hbit
    have hgt : scan_forward_zeroes q < b := by
      refine Nat.lt_of_le_of_ne (Nat.le_of_not_lt fun hless ↦ ?_) hne.symm
      exact Bool.false_ne_true ((hclear b hless).symm.trans hbit)
    exact ⟨b, hb, hscan, hbit, by rw [count_clear hq, hcount, if_pos hgt]⟩

end Quad

section Runs

variable {f : ℕ → Bool} {base n r : ℕ} {q : BitQuad}

/-- The number of members before a code point. -/
def before (f : ℕ → Bool) (x : ℕ) : ℕ := Nat.count (fun y ↦ f y = true) x

theorem before_quad (hq : ∀ b < 32, q.getLsbD b = f (base + b)) (hn : n ≤ 32) :
    before f (base + n) = before f base + Nat.count (fun b ↦ q.getLsbD b = true) n := by
  rw [before, Nat.count_add, ← before]
  congr 1
  apply Nat.le_antisymm
  · exact Nat.count_mono_left fun b hb hf ↦ (hq b (by omega)).trans hf
  · exact Nat.count_mono_left fun b hb hf ↦ (hq b (by omega)).symm.trans hf

theorem before_true (h : ∀ x, base ≤ x → x < base + n → f x = true) :
    before f (base + n) = before f base + n := by
  rw [before, Nat.count_add, ← before]
  congr 1
  exact Nat.count_of_forall fun b hb ↦ h _ (Nat.le_add_right _ _) (Nat.add_lt_add_left hb _)

theorem before_false (h : ∀ x, base ≤ x → x < base + n → f x = false) :
    before f (base + n) = before f base := by
  rw [before, Nat.count_add, ← before, Nat.count_of_forall_not, Nat.add_zero]
  intro b hb
  rw [h _ (Nat.le_add_right _ _) (Nat.add_lt_add_left hb _)]
  exact Bool.false_ne_true

/-- The code point that the scan looks for: a member with `k` members before it. -/
def Selected (f : ℕ → Bool) (k x : ℕ) : Prop := f x = true ∧ before f x = k

theorem scanQuads_spec {qs rest : List BitQuad} (hn : n ≤ qs.length)
    (hshow : ShowsFrom f base (qs.take n ++ rest)) :
    (∃ x, scanQuads n qs base r = .ok (.inl x) ∧ Selected f (before f base + r) x) ∨
      ∃ r', scanQuads n qs base r = .ok (.inr (r', qs.drop n)) ∧
        before f base + r = before f (base + n * quadBits) + r' ∧
        ShowsFrom f (base + n * quadBits) rest := by
  induction n generalizing qs base r with
  | zero =>
    refine .inr ⟨r, rfl, ?_, ?_⟩
    · rw [Nat.zero_mul, Nat.add_zero]
    · rwa [Nat.zero_mul, Nat.add_zero]
  | succ n ih =>
    cases qs with
    | nil => exact absurd hn (Nat.not_succ_le_zero n)
    | cons q qs =>
      obtain ⟨hq, hrest⟩ := hshow
      have hpop : before f (base + quadBits) = before f base + popcount q :=
        before_quad hq (Nat.le_refl 32)
      rw [scanQuads]
      by_cases hlt : r < popcount q
      · rw [if_pos hlt]
        obtain ⟨b, hb, hscan, hbit, hcount⟩ :
            ∃ b < 32, scanQuad q base r = base + b ∧ q.getLsbD b = true ∧
              Nat.count (fun b ↦ q.getLsbD b = true) b = r := scanQuad_spec hlt
        refine .inl ⟨_, rfl, ?_, ?_⟩
        · rw [hscan, ← hq b hb, hbit]
        · rw [hscan, before_quad hq hb.le, hcount]
      · rw [if_neg hlt]
        have hsplit : before f base + r = before f (base + quadBits) + (r - popcount q) := by omega
        have hsum : base + quadBits + n * quadBits = base + (n + 1) * quadBits := by
          rw [Nat.succ_mul, Nat.add_right_comm, Nat.add_assoc]
        rw [hsplit, ← hsum]
        exact ih (Nat.le_of_succ_le_succ hn) hrest

theorem scanRuns_spec {rs : List run_t} {qs : List BitQuad} (hl : literals fill rs ≤ qs.length)
    (hshow : ShowsFrom f base (decode fill rs qs)) :
    (∃ x, scanRuns rs qs base r = .ok (some x) ∧ Selected f (before f base + r) x) ∨
      scanRuns rs qs base r = .ok none ∧
        before f (base + total rs * quadBits) ≤ before f base + r := by
  induction rs generalizing qs base r with
  | nil =>
    refine .inr ⟨rfl, ?_⟩
    rw [total_nil, Nat.zero_mul, Nat.add_zero]
    exact Nat.le_add_right _ _
  | cons run rs ih =>
    obtain ⟨type, n⟩ := run
    have hsum : base + n * quadBits + total rs * quadBits =
        base + total (⟨type, n⟩ :: rs) * quadBits := by
      rw [total_cons, Nat.add_mul, Nat.add_assoc]
    rw [← hsum]
    cases type with
    | Empty =>
      rw [decode_cons_some fill_empty] at hshow
      obtain ⟨hrun, hrest⟩ := hshow.replicate fun i _ ↦ BitVec.getLsbD_zero
      rw [← before_false hrun]
      exact ih (by simpa [fill] using hl) hrest
    | Full =>
      rw [decode_cons_some fill_full] at hshow
      obtain ⟨hrun, hrest⟩ : (∀ x, base ≤ x → x < base + n * quadBits → f x = true) ∧
          ShowsFrom f (base + n * quadBits) (decode fill rs qs) :=
        hshow.replicate fun i hi ↦ getLsbD_fullQuadMask hi
      have hstep : scanRuns (⟨.Full, n⟩ :: rs) qs base r = if r < n * quadBits then
          .ok (some (base + r)) else scanRuns rs qs (base + n * quadBits) (r - n * quadBits) := rfl
      rw [hstep]
      by_cases hlt : r < n * quadBits
      · rw [if_pos hlt]
        refine .inl ⟨_, rfl, hrun _ (Nat.le_add_right _ _) (Nat.add_lt_add_left hlt _), ?_⟩
        exact before_true fun x hx hx' ↦ hrun x hx (hx'.trans (Nat.add_lt_add_left hlt _))
      · rw [if_neg hlt]
        have hsplit : before f base + r = before f (base + n * quadBits) + (r - n * quadBits) := by
          rw [before_true hrun]
          omega
        rw [hsplit]
        exact ih (by simpa [fill] using hl) hrest
    | Mixed =>
      rw [literals_cons, fill_mixed, Option.isNone_none, if_pos rfl] at hl
      rw [decode_cons_none fill_mixed] at hshow
      obtain ⟨x, hscan, hx⟩ | ⟨r', hscan, hsplit, hrest⟩ :=
        scanQuads_spec (r := r) (Nat.le_of_add_right_le hl) hshow
      · rw [scanRuns, lengthOf_eq, hscan]
        exact .inl ⟨x, rfl, hx⟩
      · rw [scanRuns, lengthOf_eq, hscan, hsplit]
        exact ih (by rw [List.length_drop]; omega) hrest

theorem before_quads {qs rest : List BitQuad} (hshow : ShowsFrom f base (qs ++ rest)) :
    before f (base + qs.length * quadBits) = before f base + (qs.map popcount).sum ∧
      ShowsFrom f (base + qs.length * quadBits) rest := by
  induction qs generalizing base with
  | nil =>
    rw [List.length_nil, Nat.zero_mul, Nat.add_zero]
    exact ⟨rfl, hshow⟩
  | cons q qs ih =>
    obtain ⟨hq, hrest⟩ := hshow
    have hpop : before f (base + quadBits) = before f base + popcount q :=
      before_quad hq (Nat.le_refl 32)
    have hsum : base + quadBits + qs.length * quadBits = base + (q :: qs).length * quadBits := by
      rw [List.length_cons, Nat.succ_mul, Nat.add_right_comm, Nat.add_assoc]
    obtain ⟨hcount, hshow⟩ := ih hrest
    rw [← hsum, List.map_cons, List.sum_cons, ← Nat.add_assoc, ← hpop]
    exact ⟨hcount, hshow⟩

theorem before_runs {rs : List run_t} {qs : List BitQuad} (hl : literals fill rs = qs.length)
    (hshow : ShowsFrom f base (decode fill rs qs)) :
    before f (base + total rs * quadBits) = before f base +
      (((rs.filter fun r ↦ typeOf r = .Full).map lengthOf).sum * quadBits +
        (qs.map popcount).sum) := by
  induction rs generalizing qs base with
  | nil =>
    rw [literals_nil, eq_comm, List.length_eq_zero_iff] at hl
    rw [hl, total_nil, Nat.zero_mul, Nat.add_zero]
    rfl
  | cons run rs ih =>
    obtain ⟨type, n⟩ := run
    have hsum : base + n * quadBits + total rs * quadBits =
        base + total (⟨type, n⟩ :: rs) * quadBits := by
      rw [total_cons, Nat.add_mul, Nat.add_assoc]
    rw [← hsum]
    cases type with
    | Empty =>
      rw [decode_cons_some fill_empty] at hshow
      obtain ⟨hrun, hrest⟩ := hshow.replicate fun i _ ↦ BitVec.getLsbD_zero
      rw [← before_false hrun]
      exact ih (by simpa [fill] using hl) hrest
    | Full =>
      rw [decode_cons_some fill_full] at hshow
      obtain ⟨hrun, hrest⟩ : (∀ x, base ≤ x → x < base + n * quadBits → f x = true) ∧
          ShowsFrom f (base + n * quadBits) (decode fill rs qs) :=
        hshow.replicate fun i hi ↦ getLsbD_fullQuadMask hi
      have hcount := before_true hrun
      have hrest' := ih (by simpa [fill] using hl) hrest
      rw [List.filter_cons_of_pos (by rfl), List.map_cons, List.sum_cons,
        show lengthOf (⟨.Full, n⟩ : run_t) = n from rfl, Nat.add_mul]
      omega
    | Mixed =>
      have hl' : n + literals fill rs = qs.length := by simpa [fill] using hl
      rw [decode_cons_none fill_mixed] at hshow
      obtain ⟨hcount, hrest⟩ := before_quads
        (show ShowsFrom f base (qs.take n ++ decode fill rs (qs.drop n)) from hshow)
      rw [List.length_take_of_le (by omega)] at hcount hrest
      have hrest' := ih (by rw [List.length_drop]; omega) hrest
      have hsplit : (qs.map popcount).sum =
          ((qs.take n).map popcount).sum + ((qs.drop n).map popcount).sum := by
        rw [← List.sum_append, ← List.map_append, List.take_append_drop]
      rw [List.filter_cons_of_neg (by simp)]
      omega

end Runs

section Queries

variable {s : UnicodeSet} {lo hi : ℕ}

theorem showsFrom_cells (h : Verified s.runs s.quads) :
    ShowsFrom s.contains 0 (decode fill s.runs s.quads) := by
  rw [showsFrom_iff]
  intro i b hi hb
  rw [UnicodeSet.contains_eq h, Nat.zero_add, Nat.mul_comm, Nat.mul_add_div (by decide),
    Nat.div_eq_of_lt hb, Nat.add_zero, Nat.mul_add_mod, Nat.mod_eq_of_lt hb,
    List.getD_eq_getElem?_getD]
  rfl

theorem before_eq_ncard (h : Verified s.runs s.quads) :
    before s.contains (unicodeMax + 1) = s.members.ncard := by
  rw [before, Nat.count_eq_card_filter_range, ← Set.ncard_coe_finset]
  congr 1
  ext x
  rw [Finset.mem_coe, Finset.mem_filter, Finset.mem_range]
  exact and_iff_right_of_imp fun hx ↦ Nat.lt_succ_of_le (UnicodeSet.le_of_mem h hx)

theorem count_eq (h : Verified s.runs s.quads) : s.count = before s.contains (unicodeMax + 1) := by
  have hruns := before_runs h.literals (showsFrom_cells h)
  have hzero : before s.contains 0 = 0 := Nat.count_zero _
  rw [h.total, hzero, Nat.zero_add, Nat.zero_add] at hruns
  exact hruns.symm

theorem Selected.lt_ncard {k x : ℕ} (h : Verified s.runs s.quads) (hx : Selected s.contains k x) :
    k < s.members.ncard := by
  rw [← before_eq_ncard h, ← hx.2]
  exact Nat.count_strict_mono hx.1 (Nat.lt_succ_of_le (UnicodeSet.le_of_mem h hx.1))

/-- A member with `k` members before it is the `k`-th one. -/
theorem Selected.eq_nth {k x : ℕ} (hx : Selected s.contains k x) :
    x = Nat.nth (· ∈ s.members) k := by
  rw [← hx.2]
  exact (Nat.nth_count (p := fun y ↦ s.contains y = true) hx.1).symm

/-- The code point found is the one selected, and an error says how many there are. -/
theorem codepointAt_cases (h : Verified s.runs s.quads) (k : ℕ) :
    (∃ x, s.codepointAt k = .ok x ∧ Selected s.contains k x) ∨
      s.members.ncard ≤ k ∧ s.codepointAt k = .error (.thrown
        s!"cannot retrieve codepoint {k} from a  set containing {s.members.ncard} codepoints") := by
  have hzero : before s.contains 0 + k = k := by rw [before, Nat.count_zero, Nat.zero_add]
  have hscan := scanRuns_spec (r := k) h.literals.le (showsFrom_cells h)
  rw [hzero, h.total, Nat.zero_add] at hscan
  rw [UnicodeSet.codepointAt, count_eq h, before_eq_ncard h]
  obtain ⟨x, hx, hselected⟩ | ⟨hnone, hle⟩ := hscan
  · rw [hx]
    exact .inl ⟨x, rfl, hselected⟩
  · rw [hnone]
    exact .inr ⟨before_eq_ncard h ▸ hle, rfl⟩

theorem codepointAt_eq_ok_iff (h : Verified s.runs s.quads) {k x : ℕ} :
    s.codepointAt k = .ok x ↔ Selected s.contains k x := by
  constructor
  · intro hat
    obtain ⟨x', hx', hselected⟩ | ⟨-, herror⟩ := codepointAt_cases h k
    · rw [hat] at hx'
      cases hx'
      exact hselected
    · rw [hat] at herror
      cases herror
  · intro hselected
    obtain ⟨x', hx', hselected'⟩ | ⟨hle, -⟩ := codepointAt_cases h k
    · rw [hx', hselected.eq_nth, hselected'.eq_nth]
    · exact absurd (hselected.lt_ncard h) (Nat.not_lt.2 hle)

theorem intersectsRangeLoop_iff {is : List (ℕ × ℕ)} {p : ℕ} {f : ℕ → Bool} {stop : ℕ}
    (his : Intervals f stop p is) : UnicodeSet.intersectsRangeLoop lo hi is = true ↔
      ∃ i ∈ is, i.1 ≤ hi ∧ lo ≤ i.2 := by
  induction his with
  | nil => simp [UnicodeSet.intersectsRangeLoop]
  | @cons p l h is start le lt gap run stops rest ih =>
    rw [UnicodeSet.intersectsRangeLoop, List.exists_mem_cons_iff]
    split_ifs with hlow hhigh
    · rw [ih]
      exact (or_iff_right fun hfirst ↦ Nat.not_le.2 hlow hfirst.2).symm
    · refine iff_of_false not_false ?_
      rintro (hfirst | ⟨i, hi, hle, -⟩)
      · exact Nat.not_le.2 hhigh hfirst.1
      · have hbounds := rest.bounds i hi
        omega
    · exact iff_of_true rfl (.inl ⟨Nat.le_of_not_lt hhigh, Nat.le_of_not_lt hlow⟩)

/-- A range is met iff it has a member, unless its ends are the wrong way round and the set has all
code points between them. -/
theorem intersectsRange_iff (h : Verified s.runs s.quads) (lo hi : ℕ) :
    (∃ b, s.intersectsRange lo hi = .ok b ∧ (b = true ↔ (s.members ∩ Set.Icc lo hi).Nonempty)) ↔
      (lo ≤ hi ∨ ¬ Set.Icc hi lo ⊆ s.members) := by
  obtain ⟨is, hintervals, his⟩ := UnicodeSet.intervals_spec h
  have hloop : UnicodeSet.intersectsRangeLoop lo hi is = true ↔ ∃ i ∈ is, i.1 ≤ hi ∧ lo ≤ i.2 :=
    intersectsRangeLoop_iff his
  have hmem (x : ℕ) := UnicodeSet.mem_intervals_iff h his x
  have hresult : s.intersectsRange lo hi = .ok (UnicodeSet.intersectsRangeLoop lo hi is) := by
    rw [UnicodeSet.intersectsRange, hintervals, ok_bind]
    rfl
  simp only [hresult, Except.ok.injEq, exists_eq_left', hloop]
  rcases Nat.lt_or_ge hi lo with hlt | hle
  · rw [Set.Icc_eq_empty (Nat.not_le.2 hlt), Set.inter_empty,
      or_iff_right (Nat.not_le.2 hlt), iff_false_intro Set.not_nonempty_empty, iff_false]
    apply not_congr
    constructor
    · rintro ⟨i, hi', hfirst, hlast⟩ x hx
      exact (hmem x).1 ⟨i, hi', hfirst.trans hx.1, hx.2.trans hlast⟩
    · intro hall
      obtain ⟨i, hi', hfirst, hlast⟩ := (hmem hi).2 (hall ⟨Nat.le_refl _, hlt.le⟩)
      refine ⟨i, hi', hfirst, ?_⟩
      -- otherwise the code point after the interval is a member too
      by_contra hshort
      have hnext : i.2 + 1 ∈ s.members := hall ⟨by omega, by omega⟩
      have hmax := UnicodeSet.le_of_mem h hnext
      obtain ⟨-, -, -, hstop | hout⟩ := (his.hi_iff (Nat.zero_le _)).1 ⟨i, hi', rfl⟩
      · omega
      · exact Bool.false_ne_true (hout.symm.trans hnext)
  · refine iff_of_true ?_ (.inl hle)
    constructor
    · rintro ⟨i, hi', hfirst, hlast⟩
      have hbounds := (his.bounds i hi').2.1
      exact ⟨max i.1 lo, (hmem _).1 ⟨i, hi', Nat.le_max_left _ _, by omega⟩, by omega, by omega⟩
    · rintro ⟨x, hx, hlo, hhi⟩
      obtain ⟨i, hi', hfirst, hlast⟩ := (hmem x).2 hx
      exact ⟨i, hi', hfirst.trans hhi, hlo.trans hlast⟩

end Queries

end Parabix.UCD
