import Parabix.UCD.Vectors

namespace Parabix.UCD

open Library Library.RunLength

/-- Subtraction of `unsigned int`. -/
def subUnsigned (a b : ℕ) : ℕ := (a + 2 ^ 32 - b) % 2 ^ 32

/-- Where a code point lies: in the quad `offset` of a run. For a Mixed run
`quadIndex` is the index of the first quad of the run. -/
structure Place where
  type : RunType
  length : ℕ
  offset : ℕ
  runIndex : ℕ
  quadIndex : ℕ
deriving DecidableEq, Repr

namespace UnicodeSet

def findRun : List run_t → ℕ → ℕ → ℕ → Except Fault Place
  | [], _, _, _ => .error .memory
  | r :: rs, offset, runIndex, quadIndex =>
    if offset < lengthOf r then
      .ok ⟨typeOf r, lengthOf r, offset, runIndex, quadIndex⟩
    else
      findRun rs (offset - lengthOf r) (runIndex + 1)
        (if typeOf r = .Mixed then quadIndex + lengthOf r else quadIndex)

/-- Adds to a quad of a borrowed buffer. The flag tells that the quad is now full. -/
def insertBorrowed (m : Memory) (s : UnicodeSet) (quadIndex : ℕ) (value : BitQuad) :
    Except Fault (UnicodeSet × Bool) := do
  let quads := Buffer.allocate m.quads (s.mQuadLength - 1)
  let quads ← Buffer.copy quads 0 s.mQuads 0 (subUnsigned quadIndex 1)
  let old ← Buffer.load s.mQuads quadIndex
  let quads ← Buffer.store quads quadIndex (old ||| value)
  let quadOffset := if old ||| value = fullQuadMask then 1 else 0
  let mQuadLength := s.mQuadLength - quadOffset
  let quads ← Buffer.copy quads (quadIndex + 1) s.mQuads (quadIndex + 1 + quadOffset)
    (subUnsigned mQuadLength (quadIndex + 1))
  return ({ s with mQuads := quads, mQuadCapacity := s.mQuadLength, mQuadLength },
    quadOffset ≠ 0)

/-- Adds to a quad of a buffer that the set owns. -/
def insertOwned (s : UnicodeSet) (quadIndex : ℕ) (value : BitQuad) :
    Except Fault (UnicodeSet × Bool) := do
  let old ← Buffer.load s.mQuads quadIndex
  let mQuads ← Buffer.store s.mQuads quadIndex (old ||| value)
  if old ||| value ≠ fullQuadMask then
    return ({ s with mQuads }, false)
  else
    let mQuadLength := s.mQuadLength - 1
    let mQuads ← Buffer.copy mQuads quadIndex mQuads (quadIndex + 1) (mQuadLength - quadIndex)
    return ({ s with mQuads, mQuadLength }, true)

/-- Stores a new quad. -/
def insertQuad (m : Memory) (s : UnicodeSet) (quadIndex : ℕ) (value : BitQuad) :
    Except Fault UnicodeSet := do
  let l := s.mQuadLength + 1
  if s.mQuadCapacity < l then
    let quads := Buffer.allocate m.quads l
    let quads ← Buffer.copy quads 0 s.mQuads 0 quadIndex
    let quads ← Buffer.store quads quadIndex value
    let quads ← Buffer.copy quads (quadIndex + 1) s.mQuads quadIndex (s.mQuadLength - quadIndex)
    return { s with mQuads := quads, mQuadCapacity := l, mQuadLength := l }
  else
    let mQuads ← Buffer.copy s.mQuads (quadIndex + 1) s.mQuads quadIndex
      (s.mQuadLength - quadIndex)
    let mQuads ← Buffer.store mQuads quadIndex value
    return { s with mQuads, mQuadLength := l }

/-- Makes room for `n` runs before the run `k`. -/
def openGap (m : Memory) (s : UnicodeSet) (k n : ℕ) : Except Fault UnicodeSet := do
  let l := s.mRunLength + n
  if s.mRunCapacity < l then
    let newRun := Buffer.allocate m.runs l
    let newRun ← Buffer.copy newRun 0 s.mRuns 0 k
    let newRun ← Buffer.copy newRun (k + n) s.mRuns k (s.mRunLength - k)
    return { s with mRuns := newRun, mRunLength := l, mRunCapacity := l }
  else
    let mRuns ← Buffer.copy s.mRuns (k + n) s.mRuns k (s.mRunLength - k)
    return { s with mRuns, mRunLength := l }

/-- Writes the pieces of the run of a place around the run `k`. -/
def fillGap (runs : List run_t) (p : Place) (type : RunType) : Except Fault (List run_t) := do
  let remaining := p.length - (p.offset + 1)
  let k := p.runIndex + if p.offset ≠ 0 then 1 else 0
  let runs ← Buffer.store runs k ⟨type, 1⟩
  let runs ← if p.offset ≠ 0 then Buffer.store runs (k - 1) ⟨p.type, p.offset⟩ else pure runs
  if remaining ≠ 0 then Buffer.store runs (k + 1) ⟨p.type, remaining⟩ else pure runs

/-- Gives the quad of a place the new type, cutting it out of its run. -/
def splitRun (m : Memory) (s : UnicodeSet) (p : Place) (type : RunType) :
    Except Fault UnicodeSet := do
  if p.length = 1 ∧ s.mRunCapacity ≠ 0 then
    let mRuns ← Buffer.store s.mRuns p.runIndex ⟨type, 1⟩
    return { s with mRuns }
  else
    let remaining := p.length - (p.offset + 1)
    let n := if p.offset ≠ 0 ∧ remaining ≠ 0 then 2 else 1
    let k := p.runIndex + if p.offset ≠ 0 then 1 else 0
    let s ← openGap m s k n
    let mRuns ← fillGap s.mRuns p type
    return { s with mRuns }

def insert (m : Memory) (s : UnicodeSet) (cp : ℕ) : Except Fault UnicodeSet :=
  if unicodeMax < cp then
    .error (.thrown s!"{cp} exceeds maximum code point.")
  else do
    let value := 1#32 <<< (cp &&& quadLimit)
    let p ← findRun s.mRuns (cp / quadBits) 0 0
    match p.type with
    | .Mixed =>
      let quadIndex := p.quadIndex + p.offset
      let (s, full) ← if s.mQuadCapacity = 0 then insertBorrowed m s quadIndex value
        else insertOwned s quadIndex value
      if full then splitRun m s p .Full else return s
    | .Empty => do
      let s ← insertQuad m s p.quadIndex value
      splitRun m s p .Mixed
    | .Full => return s

end UnicodeSet

section Buffers

variable {s : UnicodeSet} (m : Memory)

theorem findRun_eq {pre post : List run_t} {r : run_t} {offset : ℕ} (hle : total pre ≤ offset)
    (hlt : offset < total pre + r.length) (runIndex quadIndex : ℕ) :
    UnicodeSet.findRun (pre ++ r :: post) offset runIndex quadIndex =
      .ok ⟨r.kind, r.length, offset - total pre, runIndex + pre.length,
        quadIndex + literals fill pre⟩ := by
  induction pre generalizing offset runIndex quadIndex with
  | nil =>
    simp only [total_nil, Nat.zero_add] at hlt
    simp [UnicodeSet.findRun, hlt]
  | cons p pre ih =>
    rcases p with ⟨k, n⟩
    simp only [total_cons] at hle hlt
    have hoff : ¬offset < n := by omega
    have hle' : total pre ≤ offset - n := by omega
    have hlt' : offset - n < total pre + r.length := by omega
    simp only [List.cons_append, UnicodeSet.findRun, lengthOf_eq, hoff, if_false, ih hle' hlt']
    cases k <;> simp <;> omega

/-- The run buffer once a gap is open: what the gap holds does not matter. -/
theorem openGap_eq {a c tail : List run_t} (h : s.mRuns = a ++ c ++ tail)
    (hl : s.mRunLength = a.length + c.length)
    (hcap : s.mRunCapacity = 0 ∨
      s.mRunLength ≤ s.mRunCapacity ∧ s.mRunCapacity ≤ s.mRuns.length) {n : ℕ} (hn : 0 < n) :
    ∃ g tail' cap, s.openGap m a.length n = .ok { s with
        mRuns := a ++ g ++ c ++ tail', mRunLength := s.mRunLength + n, mRunCapacity := cap } ∧
      g.length = n ∧ s.mRunLength + n ≤ cap ∧ cap ≤ (a ++ g ++ c ++ tail').length := by
  have hlen : s.mRuns.length = a.length + c.length + tail.length := by
    rw [h, List.length_append, List.length_append]
  have hsub : s.mRunLength - a.length = c.length := by omega
  simp only [UnicodeSet.openGap, hsub]
  by_cases hlt : s.mRunCapacity < s.mRunLength + n
  · obtain ⟨junk, hjunk⟩ : ∃ junk, junk =
        (Buffer.allocate m.runs (s.mRunLength + n)).drop a.length := ⟨_, rfl⟩
    have hj : junk.length = n + c.length := by
      rw [hjunk, List.length_drop, Buffer.length_allocate]
      omega
    refine ⟨junk.take n, [], s.mRunLength + n, ?_, by simp [hj], le_rfl, by simp [hj]; omega⟩
    rw [if_pos hlt, h, List.append_assoc a c tail,
      Buffer.copy_front _ (by rw [Buffer.length_allocate]; omega), ← hjunk, ok_bind,
      ← List.append_assoc, Buffer.copy_behind hj.ge, ok_bind, pure_eq_ok,
      List.drop_eq_nil_of_le hj.le]
  · obtain ⟨h1, h2⟩ := hcap.resolve_left (by omega)
    refine ⟨(c ++ tail).take n, (c ++ tail).drop (n + c.length), s.mRunCapacity, ?_,
      by simp; omega, by omega, by simp; omega⟩
    have hroom : n + c.length ≤ (c ++ tail).length := by
      rw [List.length_append]
      omega
    have hcopy : Buffer.copy s.mRuns (a.length + n) s.mRuns a.length c.length = .ok
        (a ++ (c ++ tail).take n ++ c ++ (c ++ tail).drop (n + c.length)) := by
      conv_lhs => arg 1; rw [h, List.append_assoc]
      rw [h]
      exact Buffer.copy_behind hroom
    rw [if_neg hlt, hcopy, ok_bind, pure_eq_ok]

/-- A run with one of its quads cut out and given another type. -/
def cutRun (k : RunType) (n offset : ℕ) (type : RunType) : List run_t :=
  (if offset ≠ 0 then [⟨k, offset⟩] else []) ++ ⟨type, 1⟩ ::
    if n - (offset + 1) ≠ 0 then [⟨k, n - (offset + 1)⟩] else []

/-- The run buffers are in order: the length in use fits, and the capacity is zero or real. -/
def RunBuffer (s : UnicodeSet) : Prop :=
  s.mRunLength ≤ s.mRuns.length ∧
    (s.mRunCapacity = 0 ∨ s.mRunLength ≤ s.mRunCapacity ∧ s.mRunCapacity ≤ s.mRuns.length)

/-- The run `⟨k, n⟩` of the set, with the buffer around it. -/
structure InRun (s : UnicodeSet) (pre : List run_t) (k : RunType) (n : ℕ) (post : List run_t) :
    Prop where
  runs : s.runs = pre ++ ⟨k, n⟩ :: post
  buffer : RunBuffer s

variable {pre post : List run_t} {k : RunType} {n offset : ℕ}

theorem InRun.mRuns (h : InRun s pre k n post) :
    s.mRuns = pre ++ ⟨k, n⟩ :: post ++ s.mRuns.drop s.mRunLength := by
  rw [← h.runs, UnicodeSet.runs, List.take_append_drop]

theorem InRun.length (h : InRun s pre k n post) :
    s.mRunLength = pre.length + (post.length + 1) := by
  have hl := congrArg List.length h.runs
  rw [UnicodeSet.runs, List.length_take_of_le h.buffer.1] at hl
  simpa using hl

/-- What a set with a new run buffer still shares with the old one. -/
structure SameQuads (s t : UnicodeSet) : Prop where
  mQuads : t.mQuads = s.mQuads
  mQuadLength : t.mQuadLength = s.mQuadLength
  mQuadCapacity : t.mQuadCapacity = s.mQuadCapacity

theorem runBuffer_of {t : UnicodeSet} {body tail : List run_t} (h : t.mRuns = body ++ tail)
    (hl : t.mRunLength = body.length)
    (hcap : t.mRunCapacity = 0 ∨
      t.mRunLength ≤ t.mRunCapacity ∧ t.mRunCapacity ≤ t.mRuns.length) :
    t.runs = body ∧ RunBuffer t := by
  refine ⟨?_, ?_, hcap⟩
  · rw [UnicodeSet.runs, h, hl, List.take_left]
  · rw [h, hl, List.length_append]
    exact Nat.le_add_right _ _

theorem splitRun_overwrite (h : InRun s pre k 1 post) (hcap : s.mRunCapacity ≠ 0) (q : ℕ)
    (type : RunType) : ∃ t, s.splitRun m ⟨k, 1, 0, pre.length, q⟩ type = .ok t ∧
      t.runs = pre ++ ⟨type, 1⟩ :: post ∧ SameQuads s t ∧ RunBuffer t := by
  have hl : (pre ++ ⟨type, 1⟩ :: post ++ s.mRuns.drop s.mRunLength).length =
      s.mRuns.length := by
    conv_rhs => rw [h.mRuns]
    simp
  obtain ⟨hr, hb⟩ := runBuffer_of
    (t := { s with mRuns := pre ++ ⟨type, 1⟩ :: post ++ s.mRuns.drop s.mRunLength }) rfl
    (by simpa using h.length) (by simpa only [hl] using h.buffer.2)
  refine ⟨_, ?_, hr, ⟨rfl, rfl, rfl⟩, hb⟩
  simp only [UnicodeSet.splitRun, hcap, ne_eq, not_false_eq_true, and_self, if_true]
  conv_lhs => rw [h.mRuns, List.append_assoc, List.cons_append, Buffer.store_middle]
  simp

/-- Once the gap is open, `fillGap` decides what the runs are. -/
theorem splitRun_of_gap {p : Place} {type : RunType} {a c tail body : List run_t} {g : ℕ}
    (hone : ¬(p.length = 1 ∧ s.mRunCapacity ≠ 0)) (hbuf : s.mRuns = a ++ c ++ tail)
    (hlen : s.mRunLength = a.length + c.length) (hb : RunBuffer s) (hg : 0 < g)
    (ha : p.runIndex + (if p.offset ≠ 0 then 1 else 0) = a.length)
    (hn : (if p.offset ≠ 0 ∧ p.length - (p.offset + 1) ≠ 0 then 2 else 1) = g)
    (hbody : body.length = s.mRunLength + g)
    (hfill : ∀ gap rest : List run_t, gap.length = g →
      UnicodeSet.fillGap (a ++ gap ++ c ++ rest) p type = .ok (body ++ rest)) :
    ∃ t, s.splitRun m p type = .ok t ∧ t.runs = body ∧ SameQuads s t ∧ RunBuffer t := by
  obtain ⟨gap, rest, cap, he, hgap, hle, hcap⟩ := openGap_eq m hbuf hlen hb.2 hg
  have hlen' : (a ++ gap ++ c ++ rest).length = (body ++ rest).length := by
    simp only [List.length_append, hbody, hgap]
    omega
  obtain ⟨hr, hb'⟩ := runBuffer_of (t := { s with
      mRuns := body ++ rest, mRunLength := s.mRunLength + g, mRunCapacity := cap }) rfl hbody.symm
    (.inr ⟨hle, by simpa only [hlen'] using hcap⟩)
  refine ⟨_, ?_, hr, ⟨rfl, rfl, rfl⟩, hb'⟩
  simp only [UnicodeSet.splitRun, hone, if_false]
  rw [ha, hn, he, ok_bind, hfill gap rest hgap, ok_bind, pure_eq_ok]

section Fill

variable (pre k) (q : ℕ) (type : RunType) (x y : run_t) (rest : List run_t)

theorem fillGap_first (hn : 0 < n) :
    UnicodeSet.fillGap (pre ++ x :: ⟨k, n⟩ :: rest) ⟨k, n, 0, pre.length, q⟩ type =
      .ok (pre ++ (if n = 1 then [⟨type, 1⟩, ⟨k, 1⟩] else cutRun k n 0 type) ++ rest) := by
  simp only [UnicodeSet.fillGap, ne_eq, not_true_eq_false, if_false, Nat.add_zero,
    Buffer.store_middle, ok_bind, pure_eq_ok, Nat.zero_add]
  by_cases h1 : n = 1
  · simp [h1]
  · have hne : n - 1 ≠ 0 := by omega
    simp [h1, hne, Buffer.store, cutRun]

theorem fillGap_last (h0 : offset ≠ 0) (hn : offset + 1 = n) :
    UnicodeSet.fillGap (pre ++ ⟨k, n⟩ :: x :: rest) ⟨k, n, offset, pre.length, q⟩ type =
      .ok (pre ++ cutRun k n offset type ++ rest) := by
  simp [UnicodeSet.fillGap, h0, ← hn, Buffer.store, cutRun]

theorem fillGap_middle (h0 : offset ≠ 0) (hn : offset + 1 < n) :
    UnicodeSet.fillGap (pre ++ ⟨k, n⟩ :: x :: y :: rest) ⟨k, n, offset, pre.length, q⟩ type =
      .ok (pre ++ cutRun k n offset type ++ rest) := by
  have hne : n - (offset + 1) ≠ 0 := by omega
  simp [UnicodeSet.fillGap, h0, hne, Buffer.store, cutRun, Nat.add_assoc]

end Fill

theorem splitRun_insert (h : InRun s pre k n post) (hcap : ¬(n = 1 ∧ s.mRunCapacity ≠ 0))
    (hoff : offset < n) (q : ℕ) (type : RunType) :
    ∃ t, s.splitRun m ⟨k, n, offset, pre.length, q⟩ type = .ok t ∧
      t.runs = pre ++ (if n = 1 then [⟨type, 1⟩, ⟨k, 1⟩] else cutRun k n offset type) ++ post ∧
      SameQuads s t ∧ RunBuffer t := by
  have hlen := h.length
  have hbuf := h.mRuns
  rcases Nat.eq_zero_or_pos offset with rfl | h0
  · refine splitRun_of_gap m (a := pre) (c := ⟨k, n⟩ :: post) (g := 1) hcap hbuf
      (by simpa using hlen) h.buffer Nat.one_pos (by simp) (by simp) ?_ fun gap rest hgap ↦ ?_
    · by_cases h1 : n = 1
      · simp [h1, hlen]
        omega
      · have hne : n - 1 ≠ 0 := by omega
        simp [h1, cutRun, hlen, hne]
        omega
    · obtain ⟨x, rfl⟩ := List.length_eq_one_iff.mp hgap
      have hfill := fillGap_first pre k q type x (post ++ rest) hoff
      simpa using hfill
  · have h1 : n ≠ 1 := by omega
    have hbuf' : s.mRuns = (pre ++ [⟨k, n⟩]) ++ post ++ s.mRuns.drop s.mRunLength := by
      simpa using hbuf
    rw [if_neg h1]
    by_cases hl : offset + 1 = n
    · refine splitRun_of_gap m (a := pre ++ [(⟨k, n⟩ : run_t)]) (c := post) (g := 1) hcap hbuf'
        (by simp [hlen]; omega) h.buffer Nat.one_pos (by simp [Nat.ne_of_gt h0])
        (by simp [← hl]) ?_ fun gap rest hgap ↦ ?_
      · simp [cutRun, ← hl, hlen, Nat.ne_of_gt h0]
        omega
      · obtain ⟨x, rfl⟩ := List.length_eq_one_iff.mp hgap
        have hfill := fillGap_last pre k q type x (post ++ rest)
          (Nat.ne_of_gt h0) hl
        simpa using hfill
    · have hne : n - (offset + 1) ≠ 0 := by omega
      refine splitRun_of_gap m (a := pre ++ [(⟨k, n⟩ : run_t)]) (c := post) (g := 2) hcap hbuf'
        (by simp [hlen]; omega) h.buffer Nat.two_pos (by simp [Nat.ne_of_gt h0])
        (by simp [Nat.ne_of_gt h0, hne]) ?_ fun gap rest hgap ↦ ?_
      · simp [cutRun, hne, hlen, Nat.ne_of_gt h0]
        omega
      · obtain ⟨x, y, rfl⟩ := List.length_eq_two.mp hgap
        have hfill := fillGap_middle pre k q type x y (post ++ rest)
          (Nat.ne_of_gt h0) (show offset + 1 < n by omega)
        simpa using hfill

end Buffers

section Quads

variable {s : UnicodeSet} {a c tail : List BitQuad} {q v : BitQuad}

theorem insertOwned_eq (h : s.mQuads = a ++ q :: c ++ tail) (hne : q ||| v ≠ fullQuadMask) :
    s.insertOwned a.length v = .ok ({ s with mQuads := a ++ (q ||| v) :: c ++ tail }, false) := by
  simp only [UnicodeSet.insertOwned, h, List.append_assoc, List.cons_append, Buffer.load_middle,
    Buffer.store_middle, ok_bind, hne, ne_eq, not_false_eq_true, if_true, pure_eq_ok]

theorem insertOwned_full (h : s.mQuads = a ++ q :: c ++ tail)
    (hl : s.mQuadLength = a.length + (c.length + 1)) (hf : q ||| v = fullQuadMask) :
    ∃ tail', s.insertOwned a.length v = .ok ({ s with
        mQuads := a ++ c ++ tail', mQuadLength := s.mQuadLength - 1 }, true) ∧
      (a ++ c ++ tail').length = s.mQuads.length := by
  have hsub : s.mQuadLength - 1 - a.length = c.length := by omega
  refine ⟨(fullQuadMask :: (c ++ tail)).drop c.length, ?_, ?_⟩
  · simp only [UnicodeSet.insertOwned, h, List.append_assoc, List.cons_append, Buffer.load_middle,
      Buffer.store_middle, ok_bind, hf, ne_eq, not_true_eq_false, if_false, hsub, pure_eq_ok]
    rw [Buffer.copy_over, ok_bind, List.append_assoc]
  · rw [h]
    simp
    omega

theorem insertQuad_eq (m : Memory) (h : s.mQuads = a ++ c ++ tail)
    (hl : s.mQuadLength = a.length + c.length)
    (hcap : s.mQuadCapacity = 0 ∨
      s.mQuadLength ≤ s.mQuadCapacity ∧ s.mQuadCapacity ≤ s.mQuads.length) :
    ∃ tail' cap, s.insertQuad m a.length v = .ok { s with
        mQuads := a ++ v :: c ++ tail', mQuadLength := s.mQuadLength + 1, mQuadCapacity := cap } ∧
      s.mQuadLength + 1 ≤ cap ∧ cap ≤ (a ++ v :: c ++ tail').length := by
  have hlen : s.mQuads.length = a.length + c.length + tail.length := by
    rw [h, List.length_append, List.length_append]
  have hsub : s.mQuadLength - a.length = c.length := by omega
  simp only [UnicodeSet.insertQuad, hsub]
  by_cases hlt : s.mQuadCapacity < s.mQuadLength + 1
  · obtain ⟨x, junk, hjunk⟩ : ∃ x junk,
        (Buffer.allocate m.quads (s.mQuadLength + 1)).drop a.length = x :: junk := by
      apply List.exists_cons_of_length_pos
      rw [List.length_drop, Buffer.length_allocate]
      omega
    have hj := congrArg List.length hjunk
    rw [List.length_drop, Buffer.length_allocate, List.length_cons] at hj
    have hroom : 1 + c.length ≤ (v :: junk).length := by
      rw [List.length_cons]
      omega
    refine ⟨(v :: junk).drop (1 + c.length), s.mQuadLength + 1, ?_, le_rfl, ?_⟩
    · rw [if_pos hlt, h, List.append_assoc a c tail,
        Buffer.copy_front _ (by rw [Buffer.length_allocate]; omega), hjunk, ok_bind,
        Buffer.store_middle, ok_bind, ← List.append_assoc, Buffer.copy_behind hroom, ok_bind]
      simp
    · simp
      omega
  · obtain ⟨h1, h2⟩ := hcap.resolve_left (by omega)
    obtain ⟨x, rest, hrest⟩ : ∃ x rest, c ++ tail = x :: rest := by
      apply List.exists_cons_of_length_pos
      rw [List.length_append]
      omega
    have hroom : 1 + c.length ≤ (c ++ tail).length := by
      rw [List.length_append]
      omega
    have hcopy : Buffer.copy s.mQuads (a.length + 1) s.mQuads a.length c.length = .ok
        (a ++ x :: (c ++ rest.drop c.length)) := by
      conv_lhs => arg 1; rw [h, List.append_assoc]
      rw [h, Buffer.copy_behind hroom, hrest]
      simp [Nat.add_comm 1]
    have hr := congrArg List.length hrest
    rw [List.length_append, List.length_cons] at hr
    refine ⟨rest.drop c.length, s.mQuadCapacity, ?_, by omega, ?_⟩
    · rw [if_neg hlt, hcopy, ok_bind, Buffer.store_middle, ok_bind]
      simp
    · simp
      omega

/-- A borrowed buffer is copied wrongly: if the copy is completed at all, the full
quad stays in it. -/
theorem insertBorrowed_full {m : Memory} {i : ℕ} (hi : i < s.mQuadLength)
    (hle : s.mQuadLength ≤ unicodeQuadCount) {t : UnicodeSet} {full : Bool}
    (h : s.insertBorrowed m i v = .ok (t, full)) :
    full = true ∧ fullQuadMask ∈ t.quads ∧ RunBuffer t = RunBuffer s ∧ t.runs = s.runs ∧
      t.mRunCapacity = s.mRunCapacity := by
  simp only [UnicodeSet.insertBorrowed, bind_eq_ok] at h
  obtain ⟨b1, h1, old, -, b2, h2, b3, h3, h⟩ := h
  cases h
  obtain ⟨hl1, -, -⟩ := Buffer.of_copy_eq_ok h1
  obtain ⟨hi2, rfl⟩ := Buffer.of_store_eq_ok h2
  rw [hl1, Buffer.length_allocate] at hi2
  obtain ⟨hl3, ht3, hr3⟩ := Buffer.of_copy_eq_ok h3
  rw [List.length_set, hl1, Buffer.length_allocate] at hl3 hr3
  by_cases hf : old ||| v = fullQuadMask
  · refine ⟨by simp [hf], ?_, rfl, rfl, rfl⟩
    have hget : b3[i]? = some fullQuadMask := by
      have hb := congrArg (fun l ↦ l[i]?) ht3
      simp only [List.getElem?_take, Nat.lt_succ_self, if_true] at hb
      rw [hb, List.getElem?_set_self (by rw [hl1, Buffer.length_allocate]; exact hi2), hf]
    apply List.mem_of_getElem? (i := i)
    simp only [UnicodeSet.quads, hf, if_true]
    rw [List.getElem?_take, if_pos hi2, hget]
  · simp only [hf, if_false, Nat.sub_zero, subUnsigned] at hr3
    simp only [unicodeQuadCount, unicodeMax, quadBits] at hle
    omega

end Quads

end Parabix.UCD
