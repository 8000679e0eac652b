import Parabix.IDISA.Extraction
import Parabix.Library.EachFrom
import Parabix.Streamutils.StreamExpand

namespace Parabix.Streamutils

open Library Library.BitStream Unicode
open IDISA (simd_or simd_fill simd_popcount pop pop_le rank_add_pop)
open IDISA.IDISA_Builder (createShl createLShr simd_pdep mod_add_of_lt mod_add_of_le)

namespace PDEPkernel

/-- The source bits that wait to be deposited, in a field for every stream of the swizzle group. -/
structure Buffer where
  buffer : Stream
  bufferSize : ℕ
  sourceOffset : ℕ

section Kernel

variable (BENCH_GENERIC_SHIFT4 : Bool) (poison : ℕ → ℕ) (pdepWidth mSwizzleFactor : ℕ)
  (marker : Stream) (source : StreamSet)

/-- The unread bits of a swizzle are joined to those of the buffer, as far as there is room. -/
def enqueue (sourceBlock : ℕ) (s : Buffer) : Buffer :=
  let BLOCK_WIDTH := pdepWidth * mSwizzleFactor
  let blockOffset := s.sourceOffset / BLOCK_WIDTH
  let swizzleIndex := s.sourceOffset % BLOCK_WIDTH / pdepWidth
  let swizzle := loadInputStreamBlock BLOCK_WIDTH (source swizzleIndex) (sourceBlock + blockOffset)
  let swizzleOffset := s.sourceOffset % pdepWidth
  let unreadBits := createLShr pdepWidth swizzle swizzleOffset
  let pendingBits := createShl pdepWidth unreadBits s.bufferSize
  let bufferSize := min (pdepWidth - swizzleOffset + s.bufferSize) pdepWidth
  let inserted := bufferSize - s.bufferSize
  ⟨simd_or s.buffer pendingBits, bufferSize, s.sourceOffset + inserted⟩

theorem lt_bufferSize_enqueue (sourceBlock : ℕ) {s : Buffer} (h : s.bufferSize < pdepWidth) :
    s.bufferSize < (enqueue pdepWidth mSwizzleFactor source sourceBlock s).bufferSize := by
  have hmod := Nat.mod_lt s.sourceOffset (show 0 < pdepWidth by omega)
  exact lt_min (by omega) h

/-- Swizzles are loaded until there are enough bits. The shift into a full buffer, by the whole
width, gives poison. -/
def enqueueBits (sourceBlock required : ℕ) (s : Buffer) : Except Fault Buffer :=
  if s.bufferSize < pdepWidth then
    let s' := enqueue pdepWidth mSwizzleFactor source sourceBlock s
    if s'.bufferSize < required then enqueueBits sourceBlock required s' else .ok s'
  else .error .poison
termination_by pdepWidth - s.bufferSize
decreasing_by
  have := lt_bufferSize_enqueue pdepWidth mSwizzleFactor source sourceBlock
    ‹s.bufferSize < pdepWidth›
  omega

/-- A row of the output from a field of the mask. The shift that clears the buffer of all its bits
gives poison. -/
def depositBits (sourceBlock : ℕ) (selectors : Stream) (i : ℕ) (s : Buffer) :
    Except Fault (Stream × Buffer) :=
  let numOfSelectors := simd_popcount pdepWidth selectors
  let required := field pdepWidth numOfSelectors i
  (enqueueBits pdepWidth mSwizzleFactor source sourceBlock required s).bind fun s' ↦
    let mask := field pdepWidth selectors i
    let result := simd_pdep (pdepWidth * mSwizzleFactor) BENCH_GENERIC_SHIFT4 poison pdepWidth
      s'.buffer (simd_fill pdepWidth mask)
    if required < pdepWidth then
      .ok (result, ⟨createLShr pdepWidth s'.buffer required, s'.bufferSize - required,
        s'.sourceOffset⟩)
    else .error .poison

def processBlock (markerBlock sourceBlock strideIndex : ℕ) (s : Buffer) :
    Except Fault (List Stream × Buffer) :=
  let selectors :=
    loadInputStreamBlock (pdepWidth * mSwizzleFactor) marker (markerBlock + strideIndex)
  collectFrom (depositBits BENCH_GENERIC_SHIFT4 poison pdepWidth mSwizzleFactor source sourceBlock
    selectors) 0 mSwizzleFactor s

/-- One call, which begins with an empty buffer. A stride is a block. -/
def generateMultiBlockLogic (markerBlock sourceItemCount numOfStrides : ℕ) :
    Except Fault (List (List Stream)) :=
  let BLOCK_WIDTH := pdepWidth * mSwizzleFactor
  let initialSourceOffset := sourceItemCount % BLOCK_WIDTH
  (collectFrom (processBlock BENCH_GENERIC_SHIFT4 poison pdepWidth mSwizzleFactor marker source
    markerBlock (sourceItemCount / BLOCK_WIDTH)) 0 numOfStrides
      ⟨fun _ ↦ false, 0, initialSourceOffset⟩).bind fun r ↦ .ok r.1

/-- The calls for the segments of the input. The source is processed at the rate of the population
of the marker. -/
def segments (markerBlock sourceItemCount : ℕ) : List ℕ → Except Fault (List (List Stream))
  | [] => .ok []
  | numOfStrides :: rest =>
    let BLOCK_WIDTH := pdepWidth * mSwizzleFactor
    (generateMultiBlockLogic BENCH_GENERIC_SHIFT4 poison pdepWidth mSwizzleFactor marker source
      markerBlock sourceItemCount numOfStrides).bind fun blocks ↦
        (segments (markerBlock + numOfStrides)
          (sourceItemCount + pop marker (BLOCK_WIDTH * markerBlock) (BLOCK_WIDTH * numOfStrides))
          rest).bind fun more ↦ .ok (blocks ++ more)

end Kernel

section Swizzled

variable {pdepWidth mSwizzleFactor : ℕ} {set : StreamSet} {f p d : ℕ}

/-- A stream of a swizzle group: it has a field of every row. -/
def swizzled (pdepWidth mSwizzleFactor : ℕ) (set : StreamSet) (f : ℕ) : Stream := fun p ↦
  let BLOCK_WIDTH := pdepWidth * mSwizzleFactor
  set (p % BLOCK_WIDTH / pdepWidth) (BLOCK_WIDTH * (p / BLOCK_WIDTH) +
    (pdepWidth * f + p % pdepWidth))

/-- The positions up to the end of a source field are in one row. -/
theorem swizzled_add (h : p % pdepWidth + d < pdepWidth) :
    swizzled pdepWidth mSwizzleFactor set f (p + d) =
      set (p % (pdepWidth * mSwizzleFactor) / pdepWidth)
        (pdepWidth * mSwizzleFactor * (p / (pdepWidth * mSwizzleFactor)) +
          (pdepWidth * f + (p % pdepWidth + d))) := by
  have hfield : (p + d) / pdepWidth = p / pdepWidth := by
    rw [← Nat.div_add_mod p pdepWidth, Nat.add_assoc, mul_add_div_of_lt h,
      mul_add_div_of_lt (by omega)]
  rw [swizzled, Nat.mod_mul_right_div_self, ← Nat.div_div_eq_div_mul, hfield, mod_add_of_lt h,
    Nat.mod_mul_right_div_self, ← Nat.div_div_eq_div_mul]

end Swizzled

section Level

variable {w r n c : ℕ}

/-- The size of the buffer after it has been filled from the next source field. -/
def refilled (w r n : ℕ) : ℕ := if n < w - r % w then w - r % w else w

/-- The size of the buffer from which `c` bits are deposited. -/
def ready (w r n c : ℕ) : ℕ := if n < w - r % w ∧ c ≤ w - r % w then w - r % w else w

theorem refilled_eq (hn : n < w) : min (w - (r + n) % w + n) w = refilled w r n := by
  have hmod := Nat.mod_lt r (show 0 < w by omega)
  rw [refilled]
  split_ifs with hin
  · rw [mod_add_of_lt (by omega)]
    omega
  · rw [mod_add_of_le (by omega) hn]
    omega

theorem refilled_ready (hc : c ≤ w) (hn : n < w) :
    (if refilled w r n < c then refilled w r (refilled w r n) else refilled w r n) =
      ready w r n c := by
  have hmod := Nat.mod_lt r (show 0 < w by omega)
  rw [refilled, ready]
  by_cases hin : n < w - r % w
  · rw [if_pos hin]
    by_cases hle : c ≤ w - r % w
    · rw [if_neg (by omega), if_pos ⟨hin, hle⟩]
    · rw [if_pos (by omega), if_neg fun h ↦ hle h.2, refilled, if_neg (Nat.lt_irrefl _)]
  · rw [if_neg hin, if_neg (by omega), if_neg fun h ↦ hin h.1]

theorem le_ready (hc : c ≤ w) : c ≤ ready w r n c := by
  rw [ready]
  split_ifs with h
  · exact h.2
  · exact hc

theorem ready_le : ready w r n c ≤ w := by
  rw [ready]
  split_ifs
  · exact Nat.sub_le _ _
  · exact le_rfl

/-- The buffer stays full only without a deposit, after it has been filled up. -/
theorem ready_sub_eq (hn : n < w) (hc : c < w) :
    ready w r n c - c = w ↔ c = 0 ∧ (r % w = 0 ∨ w - r % w ≤ n) := by
  have hmod := Nat.mod_lt r (show 0 < w by omega)
  rw [ready]
  split_ifs <;> omega

/-- It reaches the end of a source field again unless the deposit has passed one. -/
theorem ready_sub_aligned (hc : c < w) :
    ((r + c) % w = 0 ∨ w - (r + c) % w ≤ ready w r n c - c) ↔ c ≤ w - r % w := by
  have hmod := Nat.mod_lt r (show 0 < w by omega)
  rw [ready]
  rcases Nat.lt_or_ge (r % w + c) w with hlt | hge
  · rw [mod_add_of_lt hlt]
    split_ifs <;> omega
  · rw [mod_add_of_le hge hc]
    split_ifs <;> omega

end Level

section Fields

variable {BENCH_GENERIC_SHIFT4 : Bool} {poison : ℕ → ℕ} {w S r n c i sourceBlock : ℕ}
  {selectors marker : Stream} {source : StreamSet} {s : Buffer}

/-- The buffer holds the `n` source bits from `r` on. -/
structure Holding (w S : ℕ) (source : StreamSet) (sourceBlock r n : ℕ) (s : Buffer) : Prop where
  size : s.bufferSize = n
  offset : w * S * sourceBlock + s.sourceOffset = r + n
  bits : ∀ f < S, ∀ j < w,
    s.buffer (w * f + j) = (decide (j < n) && swizzled w S source f (r + j))

theorem Holding.enqueue (h : Holding w S source sourceBlock r n s) (hn : n < w) :
    Holding w S source sourceBlock r (refilled w r n) (enqueue w S source sourceBlock s) := by
  have hsize := h.size
  have hmod := Nat.mod_lt (r + n) (show 0 < w by omega)
  have hoffset : s.sourceOffset % w = (r + n) % w := by
    rw [← h.offset, Nat.mul_assoc, Nat.mul_add_mod]
  have hfilled : min (w - s.sourceOffset % w + s.bufferSize) w = refilled w r n := by
    rw [hoffset, hsize, refilled_eq hn]
  have hmin := refilled_eq (r := r) hn
  refine ⟨hfilled, ?_, fun f hf j hj ↦ ?_⟩
  · rw [PDEPkernel.enqueue]
    dsimp only
    rw [hfilled, hsize, ← Nat.add_assoc, h.offset]
    omega
  · have hfS : 0 < w * S := Nat.mul_pos (by omega) (by omega)
    rw [PDEPkernel.enqueue]
    dsimp only
    rw [simd_or, h.bits f hf j hj, createShl, mul_add_mod_of_lt hj, hsize, hoffset]
    by_cases hold : j < n
    · rw [decide_eq_true hold, decide_eq_false (show ¬ n ≤ j by omega), Bool.false_and,
        Bool.or_false, decide_eq_true (show j < refilled w r n by omega)]
    · rw [decide_eq_false hold, Bool.false_and, Bool.false_or,
        decide_eq_true (Nat.le_of_not_lt hold), Bool.true_and,
        show w * f + j - n = w * f + (j - n) by omega, createLShr,
        mul_add_mod_of_lt (by omega)]
      by_cases hin : j - n + (r + n) % w < w
      · have hsource : swizzled w S source f (r + n + (j - n)) = _ :=
          swizzled_add (show (r + n) % w + (j - n) < w by omega)
        rw [show r + n + (j - n) = r + j by omega, ← h.offset, Nat.mul_add_mod,
          Nat.mul_add_div hfS] at hsource
        rw [decide_eq_true hin, decide_eq_true (by omega), hsource, h.offset, loadInputStreamBlock]
        congr 2
        omega
      · rw [decide_eq_false hin, decide_eq_false (show ¬ j < refilled w r n by omega)]
        rfl

theorem enqueueBits_full (h : ¬ s.bufferSize < w) :
    enqueueBits w S source sourceBlock c s = .error .poison := by
  rw [enqueueBits, if_neg h]

theorem enqueueBits_of (h : s.bufferSize < w) :
    enqueueBits w S source sourceBlock c s =
      if (enqueue w S source sourceBlock s).bufferSize < c then
        enqueueBits w S source sourceBlock c (enqueue w S source sourceBlock s)
      else .ok (enqueue w S source sourceBlock s) := by
  rw [enqueueBits, if_pos h]

/-- Two swizzles are enough. -/
theorem Holding.enqueueBits (h : Holding w S source sourceBlock r n s) (hc : c ≤ w) :
    Settles (n < w) (Holding w S source sourceBlock r (ready w r n c))
      (enqueueBits w S source sourceBlock c s) := by
  have hsize := h.size
  refine ⟨fun hn ↦ ?_, fun hn ↦ ⟨_, enqueueBits_full (by omega)⟩⟩
  have hone := h.enqueue hn
  have hready := refilled_ready (r := r) hc hn
  rw [enqueueBits_of (by omega), hone.size]
  split_ifs at hready ⊢ with hmore
  · have htwo := hone.enqueue (by omega)
    rw [hready] at htwo
    have hle : c ≤ ready w r n c := le_ready hc
    refine ⟨_, ?_, htwo⟩
    rw [enqueueBits_of (by rw [hone.size]; omega), htwo.size, if_neg (by omega)]
  · rw [hready] at hone
    exact ⟨_, rfl, hone⟩

/-- The row of the output for a field of the mask. -/
def Deposited (w S : ℕ) (marker : Stream) (source : StreamSet) (T : ℕ) (row : Stream) : Prop :=
  ∀ f < S, ∀ j < w, row (w * f + j) = spread marker (swizzled w S source f) (w * T + j)

theorem pop_congr {m m' : Stream} {a b n : ℕ} (h : ∀ j < n, m (a + j) = m' (b + j)) :
    pop m a n = pop m' b n := rank_congr h

theorem Holding.deposit {k T : ℕ} {mask : Stream}
    (h : Holding (2 ^ (k + 1)) S source sourceBlock (rank marker (2 ^ (k + 1) * T)) n s)
    (hmask : ∀ f, ∀ j < 2 ^ (k + 1), mask (2 ^ (k + 1) * f + j) = marker (2 ^ (k + 1) * T + j))
    (hn : pop marker (2 ^ (k + 1) * T) (2 ^ (k + 1)) ≤ n) :
    Deposited (2 ^ (k + 1)) S marker source T (simd_pdep (2 ^ (k + 1) * S) BENCH_GENERIC_SHIFT4
      poison (2 ^ (k + 1)) s.buffer mask) := by
  intro f hf j hj
  have hin : 2 ^ (k + 1) * f + j < 2 ^ (k + 1) * S := by
    have := Nat.mul_le_mul_left (2 ^ (k + 1)) (show f + 1 ≤ S from hf)
    rw [Nat.mul_succ] at this
    omega
  have hcount : pop mask (2 ^ (k + 1) * f) j = pop marker (2 ^ (k + 1) * T) j :=
    pop_congr fun i hi ↦ hmask f i (hi.trans hj)
  rw [IDISA.IDISA_Builder.agree_simd_pdep (Nat.dvd_mul_right _ _)
    (IDISA.IDISA_Builder.Agree.refl _) _ hin, IDISA.simd_pdep_apply, hmask f j hj,
    IDISA.sourceBit, mul_add_div_of_lt hj, mul_add_mod_of_lt hj, hcount, spread, rank_add_pop]
  cases hone : marker (2 ^ (k + 1) * T + j)
  · rfl
  · have hlt : pop marker (2 ^ (k + 1) * T) j < pop marker (2 ^ (k + 1) * T) (2 ^ (k + 1)) :=
      rank_lt_of_true hone hj
    rw [h.bits f hf _ (hlt.trans_le (pop_le _ _ _)), decide_eq_true (hlt.trans_le hn),
      Bool.true_and]

theorem Holding.used (h : Holding w S source sourceBlock r n s) (hc : c ≤ n) (hn : n ≤ w) :
    Holding w S source sourceBlock (r + c) (n - c)
      ⟨createLShr w s.buffer c, s.bufferSize - c, s.sourceOffset⟩ := by
  refine ⟨congrArg (· - c) h.size, ?_, fun f hf j hj ↦ ?_⟩
  · rw [h.offset]
    omega
  · dsimp only
    rw [createLShr, mul_add_mod_of_lt hj]
    by_cases hin : j < n - c
    · rw [decide_eq_true (show j + c < w by omega), Nat.add_assoc, h.bits f hf _ (by omega),
        decide_eq_true (show j + c < n by omega), decide_eq_true hin, Nat.add_comm j,
        Nat.add_assoc r, Bool.true_and]
    · rw [decide_eq_false hin, Bool.false_and, Bool.and_eq_false_imp, decide_eq_true_eq]
      intro hlt
      rw [Nat.add_assoc, h.bits f hf _ hlt, decide_eq_false (by omega), Bool.false_and]

/-- A field is deposited if the buffer is not full and not all of a full buffer is used. -/
theorem Holding.depositBits {k T : ℕ}
    (h : Holding (2 ^ (k + 1)) S source sourceBlock (rank marker (2 ^ (k + 1) * T)) n s)
    (hselectors : ∀ j < 2 ^ (k + 1),
      selectors (2 ^ (k + 1) * i + j) = marker (2 ^ (k + 1) * T + j))
    (hc : c = pop marker (2 ^ (k + 1) * T) (2 ^ (k + 1))) :
    Settles (n < 2 ^ (k + 1) ∧ c < 2 ^ (k + 1))
      (fun d ↦ Deposited (2 ^ (k + 1)) S marker source T d.1 ∧
        Holding (2 ^ (k + 1)) S source sourceBlock (rank marker (2 ^ (k + 1) * T) + c)
          (ready (2 ^ (k + 1)) (rank marker (2 ^ (k + 1) * T)) n c - c) d.2)
      (depositBits BENCH_GENERIC_SHIFT4 poison (2 ^ (k + 1)) S source sourceBlock selectors i
        s) := by
  have hle : c ≤ 2 ^ (k + 1) := hc.trans_le (pop_le _ _ _)
  have hrequired : field (2 ^ (k + 1)) (simd_popcount (2 ^ (k + 1)) selectors) i = c := by
    rw [simd_popcount, field_ofFields, pop_congr hselectors, ← hc,
      Nat.mod_eq_of_lt (hle.trans_lt Nat.lt_two_pow_self)]
  have hmask (f : ℕ) (j : ℕ) (hj : j < 2 ^ (k + 1)) :
      simd_fill (2 ^ (k + 1)) (field (2 ^ (k + 1)) selectors i) (2 ^ (k + 1) * f + j) =
        marker (2 ^ (k + 1) * T + j) := by
    rw [simd_fill, ofFields, mul_add_mod_of_lt hj, testBit_field, decide_eq_true hj, Bool.true_and,
      hselectors j hj]
  rw [PDEPkernel.depositBits, hrequired]
  refine (h.enqueueBits hle).bind fun s' hs' ↦ ?_
  split_ifs with hlt
  · refine (Settles.ok ⟨hs'.deposit hmask (hc ▸ le_ready hle), ?_⟩).congr
      (iff_of_true trivial hlt)
    exact hs'.used (le_ready hle) ready_le
  · exact ⟨fun h ↦ absurd h hlt, fun _ ↦ ⟨_, rfl⟩⟩

end Fields

section Conditions

variable (w S : ℕ) (marker : Stream)

/-- The bits that a call has loaded before a field of the mask end with a source field. For the
first field it is the end of the processed items, afterwards the field before uses no bits behind
the source field in which its bits begin. -/
def SourceAligned (first : ℕ) : ℕ → Prop
  | 0 => rank marker (w * first) % w = 0
  | t + 1 => pop marker (w * (first + t)) w ≤ w - rank marker (w * (first + t)) % w

/-- The buffer has been filled up for a field that uses none of it. -/
def BufferFull (first : ℕ) : ℕ → Prop
  | 0 => False
  | t + 1 => pop marker (w * (first + t)) w = 0 ∧ SourceAligned w marker first t

/-- No shift for a field is by the whole width. -/
def Fits (first t : ℕ) : Prop :=
  ¬ BufferFull w marker first t ∧ pop marker (w * (first + t)) w < w

/-- The fields of all calls fit. -/
def AllFit : ℕ → List ℕ → Prop
  | _, [] => True
  | markerBlock, numOfStrides :: rest =>
    (∀ t < S * numOfStrides, Fits w marker (S * markerBlock) t) ∧
      AllFit (markerBlock + numOfStrides) rest

/-- The streams that are stored in rows. -/
def storeRows (BLOCK_WIDTH : ℕ) (blocks : List (List Stream)) : StreamSet := fun i p ↦
  ((blocks.getD (p / BLOCK_WIDTH) []).getD i fun _ ↦ false) (p % BLOCK_WIDTH)

end Conditions

section Runs

variable {BENCH_GENERIC_SHIFT4 : Bool} {poison : ℕ → ℕ} {k w S first t sourceBlock markerBlock : ℕ}
  {marker : Stream} {source : StreamSet} {s : Buffer}

/-- What holds before the `t`-th field of a call. -/
structure Loaded (w S : ℕ) (marker : Stream) (source : StreamSet) (sourceBlock first t : ℕ)
    (s : Buffer) : Prop where
  holding : Holding w S source sourceBlock (rank marker (w * (first + t))) s.bufferSize s
  le : s.bufferSize ≤ w
  full : s.bufferSize = w ↔ BufferFull w marker first t
  aligned : (rank marker (w * (first + t)) % w = 0 ∨
    w - rank marker (w * (first + t)) % w ≤ s.bufferSize) ↔ SourceAligned w marker first t

theorem Loaded.start (hw : 0 < w) (source : StreamSet) (first : ℕ) :
    Loaded w S marker source (rank marker (w * first) / (w * S)) first 0
      ⟨fun _ ↦ false, 0, rank marker (w * first) % (w * S)⟩ := by
  refine ⟨⟨rfl, Nat.div_add_mod _ _, fun f _ j _ ↦ rfl⟩, Nat.zero_le w, ?_, ?_⟩
  · exact iff_of_false hw.ne id
  · have hmod := Nat.mod_lt (rank marker (w * first)) hw
    have hpos : 0 < w - rank marker (w * first) % w := Nat.sub_pos_of_lt hmod
    exact or_iff_left (Nat.not_le.2 hpos)

theorem Loaded.step {selectors : Stream} {i : ℕ}
    (h : Loaded (2 ^ (k + 1)) S marker source sourceBlock first t s)
    (hselectors : ∀ j < 2 ^ (k + 1),
      selectors (2 ^ (k + 1) * i + j) = marker (2 ^ (k + 1) * (first + t) + j)) :
    Settles (Fits (2 ^ (k + 1)) marker first t)
      (fun d ↦ Deposited (2 ^ (k + 1)) S marker source (first + t) d.1 ∧
        Loaded (2 ^ (k + 1)) S marker source sourceBlock first (t + 1) d.2)
      (depositBits BENCH_GENERIC_SHIFT4 poison (2 ^ (k + 1)) S source sourceBlock selectors i
        s) := by
  have hfits : (s.bufferSize < 2 ^ (k + 1) ∧
      pop marker (2 ^ (k + 1) * (first + t)) (2 ^ (k + 1)) < 2 ^ (k + 1)) ↔
        Fits (2 ^ (k + 1)) marker first t :=
    and_congr_left' (h.le.lt_iff_ne.trans h.full.not)
  refine ((h.holding.depositBits hselectors rfl).congr hfits).imp ?_
  rintro hfit d ⟨hrow, hd⟩
  obtain ⟨hn, hc⟩ := hfits.2 hfit
  have hnext : 2 ^ (k + 1) * (first + (t + 1)) = 2 ^ (k + 1) * (first + t) + 2 ^ (k + 1) :=
    Nat.mul_succ _ _
  rw [← rank_add_pop, ← hnext] at hd
  refine ⟨hrow, hd.size ▸ hd, ?_, ?_, ?_⟩
  · rw [hd.size]
    exact (Nat.sub_le _ _).trans ready_le
  · rw [hd.size, ready_sub_eq hn hc]
    exact and_congr_right' h.aligned
  · rw [hd.size, hnext, rank_add_pop]
    exact ready_sub_aligned hc

/-- The rows of a block. -/
theorem Loaded.block {b : ℕ}
    (h : Loaded (2 ^ (k + 1)) S marker source sourceBlock (S * markerBlock) (S * b) s) :
    Settles (∀ i < S, Fits (2 ^ (k + 1)) marker (S * markerBlock) (S * b + i))
      (fun d ↦ (∀ i < S, Deposited (2 ^ (k + 1)) S marker source (S * (markerBlock + b) + i)
          (d.1.getD i fun _ ↦ false)) ∧
        Loaded (2 ^ (k + 1)) S marker source sourceBlock (S * markerBlock) (S * (b + 1)) d.2)
      (processBlock BENCH_GENERIC_SHIFT4 poison (2 ^ (k + 1)) S marker source markerBlock
        sourceBlock b s) := by
  have hplace (i : ℕ) : S * (markerBlock + b) + i = S * markerBlock + (S * b + i) := by ring
  have hselectors (i j : ℕ) : loadInputStreamBlock (2 ^ (k + 1) * S) marker (markerBlock + b)
      (2 ^ (k + 1) * i + j) = marker (2 ^ (k + 1) * (S * markerBlock + (S * b + i)) + j) := by
    rw [loadInputStreamBlock, ← hplace]
    congr 1
    ring
  have hrows := settles_collectFrom
    (fun i ↦ Loaded (2 ^ (k + 1)) S marker source sourceBlock (S * markerBlock) (S * b + i))
    (fun i ↦ Fits (2 ^ (k + 1)) marker (S * markerBlock) (S * b + i))
    (fun i ↦ Deposited (2 ^ (k + 1)) S marker source (S * markerBlock + (S * b + i)))
    (f := depositBits BENCH_GENERIC_SHIFT4 poison (2 ^ (k + 1)) S source sourceBlock
      (loadInputStreamBlock (2 ^ (k + 1) * S) marker (markerBlock + b)))
    (fun i s hs ↦ hs.step fun j _ ↦ hselectors i j) 0 S h
  simp only [Nat.zero_add] at hrows
  refine hrows.imp ?_
  rintro - d ⟨hlen, heach, hs⟩
  refine ⟨fun i hi ↦ ?_, hs⟩
  rw [hplace]
  exact heach.getD (hlen.symm ▸ hi)

theorem forall_lt_mul_iff {p : ℕ → Prop} {n : ℕ} :
    (∀ b < n, ∀ i < S, p (S * b + i)) ↔ ∀ t < S * n, p t := by
  constructor
  · intro h t ht
    have hS : 0 < S := Nat.pos_of_mul_pos_right (Nat.zero_lt_of_lt ht)
    rw [← Nat.div_add_mod t S]
    exact h _ (Nat.div_lt_of_lt_mul ht) _ (Nat.mod_lt t hS)
  · intro h b hb i hi
    have := Nat.mul_le_mul_left S (show b + 1 ≤ n from hb)
    rw [Nat.mul_succ] at this
    exact h _ (by omega)

/-- The rows of a block of the output. -/
def DepositedRows (w S : ℕ) (marker : Stream) (source : StreamSet) (block : ℕ)
    (rows : List Stream) : Prop :=
  ∀ i < S, Deposited w S marker source (S * block + i) (rows.getD i fun _ ↦ false)

theorem settles_call (source : StreamSet) {sourceItemCount : ℕ} (n : ℕ)
    (hsource : sourceItemCount = rank marker (2 ^ (k + 1) * (S * markerBlock))) :
    Settles (∀ t < S * n, Fits (2 ^ (k + 1)) marker (S * markerBlock) t)
      (fun blocks ↦ blocks.length = n ∧
        EachFrom (DepositedRows (2 ^ (k + 1)) S marker source) markerBlock blocks)
      (generateMultiBlockLogic BENCH_GENERIC_SHIFT4 poison (2 ^ (k + 1)) S marker source markerBlock
        sourceItemCount n) := by
  have hblocks := settles_collectFrom
    (fun b ↦ Loaded (2 ^ (k + 1)) S marker source (sourceItemCount / (2 ^ (k + 1) * S))
      (S * markerBlock) (S * b))
    (fun b ↦ ∀ i < S, Fits (2 ^ (k + 1)) marker (S * markerBlock) (S * b + i))
    (fun b ↦ DepositedRows (2 ^ (k + 1)) S marker source (markerBlock + b))
    (f := processBlock BENCH_GENERIC_SHIFT4 poison (2 ^ (k + 1)) S marker source markerBlock
      (sourceItemCount / (2 ^ (k + 1) * S)))
    (fun b s hs ↦ hs.block) 0 n (hsource ▸ Loaded.start (Nat.two_pow_pos _) source _)
  simp only [Nat.zero_add] at hblocks
  refine Settles.congr ((hblocks.congr forall_lt_mul_iff).bind fun r hr ↦ ?_)
    (and_iff_left trivial)
  refine Settles.ok ⟨hr.1, fun b rows hb ↦ ?_⟩
  have hrows := hr.2.1 b rows hb
  rwa [Nat.zero_add] at hrows

theorem settles_segments (source : StreamSet) {sourceItemCount : ℕ} (strides : List ℕ)
    (hsource : sourceItemCount = rank marker (2 ^ (k + 1) * (S * markerBlock))) :
    Settles (AllFit (2 ^ (k + 1)) S marker markerBlock strides)
      (fun blocks ↦ blocks.length = strides.sum ∧
        EachFrom (DepositedRows (2 ^ (k + 1)) S marker source) markerBlock blocks)
      (segments BENCH_GENERIC_SHIFT4 poison (2 ^ (k + 1)) S marker source markerBlock
        sourceItemCount strides) := by
  induction strides generalizing markerBlock sourceItemCount with
  | nil => exact Settles.ok ⟨rfl, EachFrom.nil⟩
  | cons n rest ih =>
    refine (settles_call source n hsource).bind fun blocks hblocks ↦ ?_
    have hnext : sourceItemCount + pop marker (2 ^ (k + 1) * S * markerBlock)
        (2 ^ (k + 1) * S * n) = rank marker (2 ^ (k + 1) * (S * (markerBlock + n))) := by
      rw [hsource, Nat.mul_add, Nat.mul_add, rank_add_pop, Nat.mul_assoc, Nat.mul_assoc]
    refine Settles.congr ((ih hnext).bind fun more hmore ↦ ?_) (and_iff_left trivial)
    refine Settles.ok ⟨?_, hblocks.2.append (hblocks.1.symm ▸ hmore.2)⟩
    rw [List.length_append, hblocks.1, hmore.1, List.sum_cons]

/-- The streams whose rows are right in every block. -/
theorem swizzled_storeRows {blocks : List (List Stream)} {f p : ℕ}
    (heach : EachFrom (DepositedRows w S marker source) 0 blocks) (hf : f < S)
    (hp : p < w * S * blocks.length) :
    swizzled w S (storeRows (w * S) blocks) f p = spread marker (swizzled w S source f) p := by
  have hpos : 0 < w * S := Nat.pos_of_mul_pos_right (Nat.zero_lt_of_lt hp)
  have hw : 0 < w := Nat.pos_of_mul_pos_right hpos
  have hmod := Nat.mod_lt p hw
  have hin : w * f + p % w < w * S := by
    have := Nat.mul_le_mul_left w (show f + 1 ≤ S from hf)
    rw [Nat.mul_succ] at this
    omega
  have hrow : p % (w * S) / w < S := Nat.div_lt_of_lt_mul (Nat.mod_lt p hpos)
  have hplace : w * (S * (p / (w * S)) + p % (w * S) / w) + p % w = p := by
    have hblock := Nat.div_add_mod p (w * S)
    have hfield := Nat.div_add_mod (p % (w * S)) w
    rw [Nat.mod_mod_of_dvd p (Nat.dvd_mul_right w S)] at hfield
    rw [Nat.mul_add, ← Nat.mul_assoc]
    omega
  have hdeposited := heach.getD (d := []) (Nat.div_lt_of_lt_mul hp) _ hrow f hf _ hmod
  rw [hplace] at hdeposited
  rw [swizzled, storeRows, mul_add_div_of_lt hin, mul_add_mod_of_lt hin]
  exact hdeposited

/-- The rows that a run stores hold the deposited streams of the group, and no shift is by the
whole width, exactly if in every call no field of the mask has only ones and every field without
ones that has another one behind it comes after one whose source bits pass the end of a source
field. -/
theorem segments_deposit (BENCH_GENERIC_SHIFT4 : Bool) (poison : ℕ → ℕ) (k S : ℕ) (marker : Stream)
    (source : StreamSet) (strides : List ℕ) :
    (∃ blocks, segments BENCH_GENERIC_SHIFT4 poison (2 ^ (k + 1)) S marker source 0 0 strides =
        .ok blocks ∧
      ∀ f < S, ∀ p < 2 ^ (k + 1) * S * strides.sum,
        swizzled (2 ^ (k + 1)) S (storeRows (2 ^ (k + 1) * S) blocks) f p =
          spread marker (swizzled (2 ^ (k + 1)) S source f) p) ↔
      AllFit (2 ^ (k + 1)) S marker 0 strides := by
  refine Settles.iff ((settles_segments source strides ?_).imp ?_)
  · rw [Nat.mul_zero, Nat.mul_zero, rank_zero]
  · rintro - blocks ⟨hlen, heach⟩ f hf p hp
    exact swizzled_storeRows heach hf (hlen.symm ▸ hp)

/-- Two fields of the mask without ones are enough for a shift into a full buffer. -/
theorem segments_empty_mask :
    ¬ ∃ blocks, segments false (fun _ ↦ 0) (2 ^ 6) 4 (fun _ ↦ false) (fun _ _ ↦ true) 0 0 [1] =
        .ok blocks ∧
      ∀ f < 4, ∀ p < 2 ^ 6 * 4 * 1,
        swizzled (2 ^ 6) 4 (storeRows (2 ^ 6 * 4) blocks) f p =
          spread (fun _ ↦ false) (swizzled (2 ^ 6) 4 (fun _ _ ↦ true) f) p := by
  have hfail : ∃ e, segments false (fun _ ↦ 0) (2 ^ (5 + 1)) 4 (fun _ ↦ false) (fun _ _ ↦ true) 0 0
      [1] = .error e := by
    refine (settles_segments _ [1] (rank_zero _).symm).2 fun h ↦ ?_
    have haligned : SourceAligned (2 ^ (5 + 1)) (fun _ ↦ false) (4 * 0) 0 :=
      show rank _ (2 ^ (5 + 1) * (4 * 0)) % 2 ^ (5 + 1) = 0 by decide
    exact (h.1 1 (by decide)).1 ⟨by decide, haligned⟩
  obtain ⟨e, he⟩ := hfail
  rintro ⟨blocks, hok, -⟩
  rw [he] at hok
  cases hok

end Runs

end PDEPkernel

end Parabix.Streamutils
