import Parabix.UCD.Vectors

namespace Parabix.UCD

open Library Library.RunLength

def loQuad (lo : ℕ) : BitQuad := fullQuadMask <<< (lo &&& quadLimit)

def hiQuad (hi : ℕ) : BitQuad := fullQuadMask >>> (quadLimit - (hi &&& quadLimit))

namespace UnicodeSet

/-- Buffers allocated with the given capacities and filled from the start. -/
def construct (m : Memory) (runs : List run_t) (runCapacity : ℕ) (quads : List BitQuad)
    (quadCapacity : ℕ) : UnicodeSet :=
  ⟨runs ++ (Buffer.allocate m.runs runCapacity).drop runs.length,
    quads ++ (Buffer.allocate m.quads quadCapacity).drop quads.length,
    runs.length, quads.length, runCapacity, quadCapacity⟩

/-- The runs of a stretch of the code space, with Empty runs around it. -/
def padded (offset remaining : ℕ) (body : List run_t) : List run_t :=
  (if offset ≠ 0 then [⟨.Empty, offset⟩] else []) ++ body ++
    if remaining ≠ 0 then [⟨.Empty, remaining⟩] else []

def emptySet : UnicodeSet := ofVectors [⟨.Empty, unicodeQuadCount⟩] []

def singleton (m : Memory) (codepoint : ℕ) : UnicodeSet :=
  let offset := codepoint / quadBits
  let remaining := unicodeQuadCount - (offset + 1)
  construct m (padded offset remaining [⟨.Mixed, 1⟩]) 3
    [1#32 <<< (codepoint &&& quadLimit)] 1

/-- The runs and quads between the leading and the trailing Empty run. -/
def rangeBody (lo hi : ℕ) : List run_t × List BitQuad :=
  let lo_index := lo / quadBits
  let hi_index := hi / quadBits
  let lo_offset := lo &&& quadLimit
  let hi_offset := hi &&& quadLimit
  if lo_index = hi_index then
    if lo_offset = 0 ∧ hi_offset = quadLimit then
      ([⟨.Full, 1⟩], [])
    else
      ([⟨.Mixed, 1⟩], [loQuad lo &&& hiQuad hi])
  else
    let lm := if lo_offset ≠ 0 then 1 else 0
    let rm := if hi_offset ≠ quadLimit then 1 else 0
    let d := (hi_index - lo_index) + 1 - (lm + rm)
    ((if lo_offset ≠ 0 then [⟨.Mixed, 1⟩] else []) ++ (if d ≠ 0 then [⟨.Full, d⟩] else []) ++
        (if hi_offset ≠ quadLimit then [⟨.Mixed, 1⟩] else []),
      (if lo_offset ≠ 0 then [loQuad lo] else []) ++
        if hi_offset ≠ quadLimit then [hiQuad hi] else [])

def range (m : Memory) (lo hi : ℕ) : UnicodeSet :=
  let lo_index := lo / quadBits
  let remaining := unicodeQuadCount - (hi / quadBits + 1)
  construct m (padded lo_index remaining (rangeBody lo hi).1) 5 (rangeBody lo hi).2 2

/-- One interval: the mask for the quad of `hi`, and the vectors before that quad. -/
def convertInterval (lo hi prior_index : ℕ) (mask : BitQuad) (runs : List run_t)
    (quads : List BitQuad) : BitQuad × List BitQuad × List run_t :=
  let lo_index := lo / quadBits
  let hi_index := hi / quadBits
  let runs := appendRun .Empty (lo_index - prior_index) runs
  if lo_index = hi_index then
    (mask ||| (loQuad lo &&& hiQuad hi), quads, runs)
  else
    let out := appendQuad (mask ||| loQuad lo) quads runs
    (hiQuad hi, out.1, appendRun .Full (hi_index - (lo_index + 1)) out.2)

/-- The loop over the intervals. `mask` collects the quad at `prior_index` as
long as further intervals start in it. -/
def convertIntervals : List (ℕ × ℕ) → ℕ → BitQuad → List run_t → List BitQuad →
    ℕ × List run_t × List BitQuad
  | [], prior_index, _, runs, quads => (prior_index, runs, quads)
  | (lo, hi) :: rest, prior_index, mask, runs, quads =>
    let hi_index := hi / quadBits
    let cur := convertInterval lo hi prior_index mask runs quads
    let out := appendQuad cur.1 cur.2.1 cur.2.2
    match rest with
    | [] => (hi_index + 1, out.2, out.1)
    | (lo', hi') :: rest' =>
      if hi_index = lo' / quadBits then
        convertIntervals ((lo', hi') :: rest') hi_index cur.1 cur.2.2 cur.2.1
      else
        convertIntervals ((lo', hi') :: rest') (hi_index + 1) 0 out.2 out.1

def ofIntervals (intervals : List (ℕ × ℕ)) : UnicodeSet :=
  let (prior_index, runs, quads) := convertIntervals intervals 0 0 [] []
  let runs := if prior_index < unicodeQuadCount then
      appendRun .Empty (unicodeQuadCount - prior_index) runs
    else runs
  ofVectors runs quads

/-- A set over the constant arrays of a predefined set. -/
def predefined (runs : List run_t) (quads : List BitQuad) : UnicodeSet :=
  ⟨runs, quads, runs.length, quads.length, 0, 0⟩

/-- The copy shares the buffers that its source cannot modify. -/
def copy (other : UnicodeSet) : UnicodeSet where
  mRuns := if other.mRunCapacity = 0 then other.mRuns else other.mRuns.take other.mRunLength
  mQuads := if other.mQuadCapacity = 0 then other.mQuads else other.mQuads.take other.mQuadCapacity
  mRunLength := other.mRunLength
  mQuadLength := other.mQuadLength
  mRunCapacity := if other.mRunCapacity = 0 then 0 else other.mRunLength
  mQuadCapacity := if other.mQuadCapacity = 0 then 0 else other.mQuadLength

end UnicodeSet

section Construct

variable {m : Memory} {rs : List run_t} {qs : List BitQuad} {n k : ℕ}

@[simp] theorem runs_construct : (UnicodeSet.construct m rs n qs k).runs = rs := by
  simp [UnicodeSet.construct, UnicodeSet.runs]

@[simp] theorem quads_construct : (UnicodeSet.construct m rs n qs k).quads = qs := by
  simp [UnicodeSet.construct, UnicodeSet.quads]

theorem wellFormed_construct (h : Verified rs qs) (hn : rs.length ≤ n) (hk : qs.length ≤ k) :
    (UnicodeSet.construct m rs n qs k).WellFormed where
  verified := by simpa using h
  run_le := by simp [UnicodeSet.construct]
  quad_le := by simp [UnicodeSet.construct]
  run_capacity := .inr ⟨hn, by simp [UnicodeSet.construct]; omega⟩
  quad_capacity := .inr ⟨hk, by simp [UnicodeSet.construct]; omega⟩

end Construct

section Fixed

variable (m : Memory)

theorem emptySet_wellFormed : UnicodeSet.emptySet.WellFormed :=
  UnicodeSet.wellFormed_ofVectors ⟨by simp [unicodeQuadCount, unicodeMax, quadBits], rfl, rfl, by simp⟩

theorem emptySet_canonical : Canonical UnicodeSet.emptySet.runs := by
  simpa [UnicodeSet.emptySet] using
    ⟨by simp [unicodeQuadCount, unicodeMax, quadBits], List.isChain_singleton _⟩

theorem index_lt {cp : ℕ} (h : cp ≤ unicodeMax) : cp / quadBits < unicodeQuadCount := by
  simp only [unicodeMax, unicodeQuadCount, quadBits] at h ⊢
  omega

theorem getLsbD_loQuad (lo : ℕ) {b : ℕ} (hb : b < 32) :
    (loQuad lo).getLsbD b = decide (lo % 32 ≤ b) := by
  rw [loQuad, and_quadLimit, BitVec.getLsbD_shiftLeft, decide_eq_true hb, Bool.true_and]
  by_cases h : b < lo % 32
  · simp [h]
  · rw [getLsbD_fullQuadMask (by omega)]
    simp [h]
    omega

theorem getLsbD_hiQuad (hi b : ℕ) :
    (hiQuad hi).getLsbD b = decide (b ≤ hi % 32) := by
  have hm : hi % 32 < 32 := Nat.mod_lt _ (by decide)
  rw [hiQuad, and_quadLimit, BitVec.getLsbD_ushiftRight, quadLimit, quadBits]
  by_cases h : b ≤ hi % 32
  · rw [getLsbD_fullQuadMask (by omega), decide_eq_true h]
  · rw [decide_eq_false h]
    exact BitVec.getLsbD_of_ge _ _ (by omega)

theorem kindOf_eq_mixed_of_getLsbD {q : BitQuad} {a b : ℕ} (ha : q.getLsbD a = true) (hb : b < 32)
    (hq : q.getLsbD b = false) : kindOf q = .Mixed := by
  rw [kindOf_eq_mixed_iff]
  constructor
  · rintro rfl
    simp at ha
  · rintro rfl
    rw [getLsbD_fullQuadMask hb] at hq
    cases hq

@[simp] theorem total_padded (a z : ℕ) (body : List run_t) :
    total (UnicodeSet.padded a z body) = a + total body + z := by
  unfold UnicodeSet.padded
  split_ifs <;> simp <;> omega

@[simp] theorem literals_padded (a z : ℕ) (body : List run_t) :
    literals fill (UnicodeSet.padded a z body) = literals fill body := by
  unfold UnicodeSet.padded
  split_ifs <;> simp

theorem length_padded_le (a z : ℕ) (body : List run_t) :
    (UnicodeSet.padded a z body).length ≤ body.length + 2 := by
  unfold UnicodeSet.padded
  split_ifs <;> simp

theorem canonical_padded {a z : ℕ} {body : List run_t} (h : Canonical body)
    (hne : ∀ r ∈ body, r.kind ≠ .Empty) (hnil : body ≠ []) :
    Canonical (UnicodeSet.padded a z body) := by
  obtain ⟨b, bs, rfl⟩ := List.exists_cons_of_ne_nil hnil
  constructor
  · intro r hr
    unfold UnicodeSet.padded at hr
    have hb := h.pos r
    split_ifs at hr <;> simp at hr hb <;> grind
  · have hlast : ∀ x ∈ (b :: bs).getLast?, x.kind ≠ .Empty :=
      fun x hx ↦ hne x (List.mem_of_mem_getLast? hx)
    have hhead := hne b (by simp)
    unfold UnicodeSet.padded
    refine List.isChain_append.mpr ⟨List.isChain_append.mpr ⟨?_, h.chain, ?_⟩, ?_, ?_⟩
    · split_ifs <;> simp
    · split_ifs <;> simp [Ne.symm hhead]
    · split_ifs <;> simp
    · split_ifs <;> grind

theorem pos_padded {a z : ℕ} {body : List run_t} (h : ∀ r ∈ body, 0 < r.length) :
    ∀ r ∈ UnicodeSet.padded a z body, 0 < r.length := by
  unfold UnicodeSet.padded
  intro r hr
  split_ifs at hr <;> grind

theorem kindOf_bit {k : ℕ} (hk : k < 32) : kindOf (1#32 <<< k) = .Mixed := by
  have ht : (1#32 <<< k).getLsbD k = true := by rw [getLsbD_bit k hk, decide_eq_true rfl]
  rcases Nat.eq_zero_or_pos k with h0 | hp
  · exact kindOf_eq_mixed_of_getLsbD ht (b := 1) (by decide)
      (by rw [getLsbD_bit k (by decide), decide_eq_false (by omega)])
  · exact kindOf_eq_mixed_of_getLsbD ht (b := 0) (by decide)
      (by rw [getLsbD_bit k (by decide), decide_eq_false (by omega)])

theorem kindOf_loQuad {lo : ℕ} (h : lo % 32 ≠ 0) : kindOf (loQuad lo) = .Mixed :=
  kindOf_eq_mixed_of_getLsbD (a := lo % 32) (b := 0)
    (by rw [getLsbD_loQuad lo (Nat.mod_lt _ (by decide)), decide_eq_true le_rfl]) (by decide)
    (by rw [getLsbD_loQuad lo (by decide), decide_eq_false (by omega)])

theorem kindOf_hiQuad {hi : ℕ} (h : hi % 32 ≠ 31) : kindOf (hiQuad hi) = .Mixed :=
  kindOf_eq_mixed_of_getLsbD (a := hi % 32) (b := 31)
    (by rw [getLsbD_hiQuad, decide_eq_true le_rfl]) (by decide)
    (by rw [getLsbD_hiQuad, decide_eq_false (by omega)])

theorem kindOf_loQuad_and_hiQuad {lo hi : ℕ} (hle : lo % 32 ≤ hi % 32)
    (h : ¬(lo % 32 = 0 ∧ hi % 32 = 31)) : kindOf (loQuad lo &&& hiQuad hi) = .Mixed := by
  have hm : lo % 32 < 32 := Nat.mod_lt _ (by decide)
  have ht : (loQuad lo &&& hiQuad hi).getLsbD (lo % 32) = true := by
    rw [BitVec.getLsbD_and, getLsbD_loQuad lo hm, getLsbD_hiQuad]
    simp [hle]
  rcases Nat.eq_zero_or_pos (lo % 32) with h0 | hp
  · refine kindOf_eq_mixed_of_getLsbD ht (b := 31) (by decide) ?_
    rw [BitVec.getLsbD_and, getLsbD_hiQuad, decide_eq_false (by omega), Bool.and_false]
  · refine kindOf_eq_mixed_of_getLsbD ht (b := 0) (by decide) ?_
    rw [BitVec.getLsbD_and, getLsbD_loQuad lo (by decide), decide_eq_false (by omega),
      Bool.false_and]

theorem singleton_wellFormed {cp : ℕ} (h : cp ≤ unicodeMax) :
    (UnicodeSet.singleton m cp).WellFormed := by
  have hi := index_lt h
  refine wellFormed_construct ⟨pos_padded (by simp), ?_, by simp, ?_⟩
    (length_padded_le _ _ _) le_rfl
  · simp only [total_padded, total_cons, total_nil]
    omega
  · simp only [List.mem_singleton, forall_eq, and_quadLimit]
    exact kindOf_bit (Nat.mod_lt _ (by decide))

theorem singleton_canonical (cp : ℕ) : Canonical (UnicodeSet.singleton m cp).runs := by
  rw [UnicodeSet.singleton, runs_construct]
  exact canonical_padded ⟨by simp, List.isChain_singleton _⟩ (by simp) (by simp)

/-- The runs of a range cover its quads, none of them Empty. They are maximal unless
the range starts and ends inside two neighbouring quads. -/
theorem rangeBody_spec {lo hi : ℕ} (hle : lo ≤ hi) :
    (∀ r ∈ (UnicodeSet.rangeBody lo hi).1, 0 < r.length ∧ r.kind ≠ .Empty) ∧
    total (UnicodeSet.rangeBody lo hi).1 = hi / 32 - lo / 32 + 1 ∧
    (UnicodeSet.rangeBody lo hi).1.length ≤ 3 ∧ (UnicodeSet.rangeBody lo hi).2.length ≤ 2 ∧
    literals fill (UnicodeSet.rangeBody lo hi).1 = (UnicodeSet.rangeBody lo hi).2.length ∧
    (∀ q ∈ (UnicodeSet.rangeBody lo hi).2, kindOf q = .Mixed) ∧
    (¬(hi / 32 = lo / 32 + 1 ∧ lo % 32 ≠ 0 ∧ hi % 32 ≠ 31) →
      (UnicodeSet.rangeBody lo hi).1.IsChain fun a b ↦ a.kind ≠ b.kind) := by
  have hd : lo / 32 ≤ hi / 32 := Nat.div_le_div_right hle
  simp only [UnicodeSet.rangeBody, and_quadLimit, quadBits]
  rw [show quadLimit = 31 from rfl]
  by_cases he : lo / 32 = hi / 32
  · have hm : lo % 32 ≤ hi % 32 := by omega
    by_cases hf : lo % 32 = 0 ∧ hi % 32 = 31
    · simp [he, hf]
    · have hk := kindOf_loQuad_and_hiQuad hm hf
      simp only [he, if_true, hf, if_false]
      simp [hk]
  · rw [if_neg he]
    obtain ⟨n, hn⟩ : ∃ n, hi / 32 = lo / 32 + (n + 1) := ⟨hi / 32 - lo / 32 - 1, by omega⟩
    have hlo := fun h : lo % 32 ≠ 0 ↦ kindOf_loQuad h
    have hhi := fun h : hi % 32 ≠ 31 ↦ kindOf_hiQuad h
    rw [show hi / 32 - lo / 32 = n + 1 by omega, show hi / 32 = lo / 32 + 1 ↔ n = 0 by omega]
    by_cases h0 : lo % 32 = 0 <;> by_cases h1 : hi % 32 = 31 <;> rcases n with _ | n <;>
      simp_all <;> omega

theorem range_wellFormed {lo hi : ℕ} (hle : lo ≤ hi) (h : hi ≤ unicodeMax) :
    (UnicodeSet.range m lo hi).WellFormed := by
  obtain ⟨hb, ht, hlen, hlen2, hl, hq, -⟩ := rangeBody_spec hle
  have hi' := index_lt h
  have hd : lo / 32 ≤ hi / 32 := Nat.div_le_div_right hle
  refine wellFormed_construct ⟨pos_padded fun r hr ↦ (hb r hr).1, ?_, ?_, hq⟩
    ((length_padded_le _ _ _).trans (by omega)) hlen2
  · rw [total_padded, ht]
    simp only [quadBits] at hi' ⊢
    omega
  · rw [literals_padded, hl]

theorem range_canonical {lo hi : ℕ} (hle : lo ≤ hi)
    (h : ¬(hi / 32 = lo / 32 + 1 ∧ lo % 32 ≠ 0 ∧ hi % 32 ≠ 31)) :
    Canonical (UnicodeSet.range m lo hi).runs := by
  obtain ⟨hb, ht, -, -, -, -, hc⟩ := rangeBody_spec hle
  simp only [UnicodeSet.range, runs_construct]
  refine canonical_padded ⟨fun r hr ↦ (hb r hr).1, hc h⟩ (fun r hr ↦ (hb r hr).2) ?_
  intro hnil
  rw [hnil] at ht
  cases ht

end Fixed

section Intervals

/-- The vectors encode the first `n` quads of the code space, canonically. -/
structure Covers (runs : List run_t) (quads : List BitQuad) (n : ℕ) : Prop where
  canonical : Canonical runs
  encodes : ∃ cells, Prefix runs quads cells ∧ cells.length = n

namespace Covers

variable {rs : List run_t} {qs : List BitQuad} {n : ℕ}

theorem nil : Covers [] [] 0 := ⟨⟨by simp, List.isChain_nil⟩, [], Prefix.nil, rfl⟩

theorem appendRun (h : Covers rs qs n) {type : RunType} {a : BitQuad} (ha : fill type = some a)
    (k : ℕ) : Covers (appendRun type k rs) qs (n + k) := by
  obtain ⟨cs, hp, rfl⟩ := h.encodes
  exact ⟨appendRun_canonical h.canonical, _, hp.appendRun ha k, by simp⟩

theorem appendQuad (h : Covers rs qs n) (q : BitQuad) :
    Covers (appendQuad q qs rs).2 (appendQuad q qs rs).1 (n + 1) := by
  obtain ⟨cs, hp, rfl⟩ := h.encodes
  exact ⟨appendQuad_canonical q qs h.canonical, _, hp.appendQuad q, by simp⟩

theorem verified (h : Covers rs qs unicodeQuadCount) : Verified rs qs := by
  obtain ⟨cs, hp, hc⟩ := h.encodes
  exact hp.verified hc

end Covers

/-- Intervals of code points in increasing order, without overlap. -/
structure Ordered (intervals : List (ℕ × ℕ)) : Prop where
  bounds : ∀ p ∈ intervals, p.1 ≤ p.2 ∧ p.2 ≤ unicodeMax
  chain : intervals.IsChain fun p q ↦ p.2 < q.1

theorem convertInterval_covers {lo hi p : ℕ} {rs : List run_t} {qs : List BitQuad}
    (hp : p ≤ lo / 32) (hd : lo / 32 ≤ hi / 32) (mask : BitQuad) (h : Covers rs qs p) :
    Covers (UnicodeSet.convertInterval lo hi p mask rs qs).2.2
      (UnicodeSet.convertInterval lo hi p mask rs qs).2.1 (hi / 32) := by
  have h0 := h.appendRun fill_empty (lo / 32 - p)
  rw [Nat.add_sub_cancel' hp] at h0
  by_cases heq : lo / quadBits = hi / quadBits
  · simp only [UnicodeSet.convertInterval, heq, if_true]
    exact heq ▸ h0
  · simp only [UnicodeSet.convertInterval, heq, if_false]
    have h1 := (h0.appendQuad (mask ||| loQuad lo)).appendRun fill_full (hi / 32 - (lo / 32 + 1))
    simp only [quadBits] at heq
    rwa [show lo / 32 + 1 + (hi / 32 - (lo / 32 + 1)) = hi / 32 by omega] at h1

theorem convertIntervals_spec {is : List (ℕ × ℕ)} {p : ℕ} (mask : BitQuad) {rs : List run_t}
    {qs : List BitQuad} (ho : Ordered is) (hp : ∀ q ∈ is.head?, p ≤ q.1 / 32)
    (hle : p ≤ unicodeQuadCount) (h : Covers rs qs p) :
    (UnicodeSet.convertIntervals is p mask rs qs).1 ≤ unicodeQuadCount ∧
      Covers (UnicodeSet.convertIntervals is p mask rs qs).2.1
        (UnicodeSet.convertIntervals is p mask rs qs).2.2
        (UnicodeSet.convertIntervals is p mask rs qs).1 := by
  induction is generalizing p mask rs qs with
  | nil => exact ⟨hle, h⟩
  | cons i rest ih =>
    obtain ⟨lo, hi⟩ := i
    have hb := ho.bounds (lo, hi) (by simp)
    have hlast := index_lt hb.2
    have hc := convertInterval_covers (hp (lo, hi) (by simp)) (Nat.div_le_div_right hb.1) mask h
    have htail : Ordered rest :=
      ⟨fun q hq ↦ ho.bounds q (List.mem_cons_of_mem _ hq), ho.chain.tail⟩
    cases rest with
    | nil =>
      exact ⟨hlast, hc.appendQuad _⟩
    | cons i' rest =>
      obtain ⟨lo', hi'⟩ := i'
      have hlt : hi < lo' := by
        have hch := ho.chain
        simp only [List.isChain_cons_cons] at hch
        exact hch.1
      have hd' : hi / 32 ≤ lo' / 32 := Nat.div_le_div_right hlt.le
      rw [UnicodeSet.convertIntervals]
      by_cases heq : hi / quadBits = lo' / quadBits
      · simp only [heq, if_true]
        exact ih _ htail (by simp [quadBits]) (heq ▸ hlast.le) (heq ▸ hc)
      · simp only [heq, if_false]
        simp only [quadBits] at heq hlast
        exact ih _ htail (by simp [quadBits]; omega) hlast (hc.appendQuad _)

theorem ofIntervals_covers {is : List (ℕ × ℕ)} (ho : Ordered is) :
    ∃ rs qs, UnicodeSet.ofIntervals is = .ofVectors rs qs ∧ Covers rs qs unicodeQuadCount := by
  have h := convertIntervals_spec 0 ho (fun q _ ↦ Nat.zero_le _) (Nat.zero_le _) Covers.nil
  rcases hc : UnicodeSet.convertIntervals is 0 0 [] [] with ⟨p, rs, qs⟩
  rw [hc] at h
  obtain ⟨hle, hcov⟩ := h
  simp only [UnicodeSet.ofIntervals, hc]
  by_cases hlt : p < unicodeQuadCount
  · have h' := hcov.appendRun fill_empty (unicodeQuadCount - p)
    rw [Nat.add_sub_cancel' hle] at h'
    rw [if_pos hlt]
    exact ⟨_, _, rfl, h'⟩
  · rw [if_neg hlt]
    exact ⟨_, _, rfl, by rwa [show unicodeQuadCount = p by omega]⟩

end Intervals

section Copy

variable {s : UnicodeSet}

theorem runs_copy : s.copy.runs = s.runs := by
  simp only [UnicodeSet.copy, UnicodeSet.runs]
  split_ifs with h0
  · rfl
  · rw [List.take_take, min_self]

theorem quads_copy (h : s.WellFormed) : s.copy.quads = s.quads := by
  simp only [UnicodeSet.copy, UnicodeSet.quads]
  split_ifs with h0
  · rfl
  · have hc := h.quad_capacity.resolve_left h0
    rw [List.take_take, min_eq_left hc.1]

theorem copy_wellFormed (h : s.WellFormed) : s.copy.WellFormed := by
  have hr := h.run_le
  have hq := h.quad_le
  refine ⟨by rw [runs_copy, quads_copy h]; exact h.verified, ?_, ?_, ?_, ?_⟩ <;>
    simp only [UnicodeSet.copy]
  · split_ifs <;> simp [hr]
  · split_ifs with h0
    · exact hq
    · have hc := h.quad_capacity.resolve_left h0
      simp only [List.length_take]
      omega
  · split_ifs <;> simp [hr]
  · split_ifs with h0
    · exact .inl rfl
    · have hc := h.quad_capacity.resolve_left h0
      refine .inr ⟨le_rfl, ?_⟩
      simp only [List.length_take]
      omega

theorem predefined_wellFormed {rs : List run_t} {qs : List BitQuad} (h : Verified rs qs) :
    (UnicodeSet.predefined rs qs).WellFormed where
  verified := by simpa [UnicodeSet.predefined, UnicodeSet.runs, UnicodeSet.quads] using h
  run_le := le_rfl
  quad_le := le_rfl
  run_capacity := .inl rfl
  quad_capacity := .inl rfl

end Copy

end Parabix.UCD
