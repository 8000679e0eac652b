import Parabix.UCD.Constructors

namespace Parabix.UCD

open Library Library.RunLength

/-- The vectors written so far, and what is left of the original set: `length`
quads of a run of kind `type`, the runs `ri`, and the quads from `qi` on. -/
structure Splice where
  runs : List run_t
  quads : List BitQuad
  type : RunType
  length : ℕ
  ri : List run_t
  qi : ℕ
  hi_index : ℕ
deriving DecidableEq, Repr

/-- Passes `n` quads of the current run. -/
def passQuads (type : RunType) (qi n : ℕ) : ℕ := if type = .Mixed then qi + n else qi

namespace UnicodeSet

/-- Advances past any runs prior to `lo_index`, and records the runs and quads
prior to it. -/
def seekLo (quads : List BitQuad) :
    List run_t → List run_t → ℕ → ℕ → ℕ → Except Fault Splice
  | [], _, _, _, _ => .error .memory
  | r :: ri, runs, qi, lo_index, hi_index =>
    let type := typeOf r
    let length := lengthOf r
    if lo_index < length then
      let qi := passQuads type qi lo_index
      .ok {
        runs := runs ++ if lo_index ≠ 0 then [⟨type, lo_index⟩] else []
        quads := quads.take qi
        type, ri, qi
        length := length - lo_index
        hi_index := hi_index - lo_index }
    else
      seekLo quads ri (runs ++ [r]) (passQuads type qi length) (lo_index - length)
        (hi_index - length)

def mergeLo (s : UnicodeSet) (lo hi : ℕ) (p : Splice) : Except Fault Splice :=
  if p.type = .Full then
    .ok { p with runs := appendRun .Full 1 p.runs, length := p.length - 1 }
  else
    let lo_quad := if p.hi_index = 0 then loQuad lo &&& hiQuad hi else loQuad lo
    if p.type = .Mixed then do
      let q ← Buffer.load s.quads p.qi
      let out := appendQuad (lo_quad ||| q) p.quads p.runs
      return { p with runs := out.2, quads := out.1, qi := p.qi + 1, length := p.length - 1 }
    else
      let out := appendQuad lo_quad p.quads p.runs
      .ok { p with runs := out.2, quads := out.1, length := p.length - 1 }

/-- Advances past original quads that were filled in. -/
def seekHi : List run_t → Splice → Except Fault Splice
  | [], p => if p.length < p.hi_index then .error .memory else .ok p
  | r :: ri, p =>
    if p.length < p.hi_index then
      seekHi ri { p with
        qi := passQuads p.type p.qi p.length
        hi_index := p.hi_index - p.length
        type := typeOf r
        length := lengthOf r
        ri := ri }
    else
      .ok p

def mergeHi (s : UnicodeSet) (hi : ℕ) (p : Splice) : Except Fault Splice := do
  let p ← seekHi p.ri { p with runs := appendRun .Full (p.hi_index - 1) p.runs }
  let length := p.length - p.hi_index
  if p.type = .Full then
    return { p with runs := appendRun .Full 1 p.runs, length }
  else if p.type = .Mixed then
    let qi := p.qi + p.hi_index
    if length ≠ 0 then
      let q ← Buffer.load s.quads qi
      let skipped := (s.quads.drop p.qi).take p.hi_index
      let out := appendQuad (hiQuad hi ||| q) (p.quads ++ skipped) p.runs
      return { p with runs := out.2, quads := out.1, qi := qi + 1, length }
    else
      let out := appendQuad (hiQuad hi) p.quads p.runs
      return { p with runs := out.2, quads := out.1, qi, length }
  else
    let out := appendQuad (hiQuad hi) p.quads p.runs
    return { p with runs := out.2, quads := out.1, length }

/-- Appends any remaining values from the original data. -/
def finish (s : UnicodeSet) (p : Splice) : List run_t × List BitQuad :=
  (appendRun p.type p.length p.runs ++ p.ri, p.quads ++ s.quads.drop p.qi)

/-- The vectors that `insertRange` assigns to the set. -/
def spliceRange (s : UnicodeSet) (lo hi : ℕ) : Except Fault (List run_t × List BitQuad) := do
  let p ← seekLo s.quads s.runs [] 0 (lo / quadBits) (hi / quadBits)
  let p ← mergeLo s lo hi p
  let p ← if p.hi_index ≠ 0 then mergeHi s hi p else pure p
  return finish s p

def insertRange (m : Memory) (s : UnicodeSet) (lo hi : ℕ) : Except Fault UnicodeSet :=
  if hi < lo then
    .error (.thrown s!"[{lo},{hi}] is an illegal codepoint range!")
  else if unicodeMax < hi then
    .error (.thrown s!"{hi} exceeds maximum code point.")
  else do
    let (runs, quads) ← spliceRange s lo hi
    assign m s runs quads

end UnicodeSet

section Splice

variable {s : UnicodeSet} {i : ℕ} {p : Splice}

/-- What is left of the original set starts at its quad `i`. -/
structure Remains (s : UnicodeSet) (i : ℕ) (p : Splice) : Prop where
  decode : decode fill (⟨p.type, p.length⟩ :: p.ri) (s.quads.drop p.qi) = s.cells.drop i
  literals : literals fill (⟨p.type, p.length⟩ :: p.ri) = (s.quads.drop p.qi).length
  run : ∃ pre n, s.runs = pre ++ ⟨p.type, n⟩ :: p.ri ∧ total pre ≤ i ∧
    i + p.length = total pre + n

theorem literals_cons_eq (k : RunType) (n : ℕ) (rs : List run_t) :
    literals fill (⟨k, n⟩ :: rs) = (if k = .Mixed then n else 0) + literals fill rs := by
  cases k <;> simp

theorem drop_passQuads (k : RunType) (qs : List BitQuad) (qi n : ℕ) :
    qs.drop (passQuads k qi n) = if k = .Mixed then (qs.drop qi).drop n else qs.drop qi := by
  unfold passQuads
  split_ifs <;> simp

/-- Passing quads of the current run. -/
theorem Remains.pass (h : Remains s i p) {n : ℕ} (hn : n ≤ p.length) (rs : List run_t)
    (qs : List BitQuad) (hi : ℕ) :
    Remains s (i + n) ⟨rs, qs, p.type, p.length - n, p.ri, passQuads p.type p.qi n, hi⟩ where
  decode := by
    rw [drop_passQuads, ← drop_decode_cons hn _ h.literals.le, h.decode, List.drop_drop]
  literals := by
    have hl := h.literals
    rw [literals_cons_eq] at hl ⊢
    rw [drop_passQuads]
    split_ifs at hl ⊢ <;> simp only [List.length_drop] at hl ⊢ <;> omega
  run := by
    obtain ⟨pre, m, he, hle, ht⟩ := h.run
    refine ⟨pre, m, he, by omega, ?_⟩
    simp only
    omega

/-- Moving on to the next run. -/
theorem Remains.next {r : run_t} {ri : List run_t} (h : Remains s i p) (h0 : p.length = 0)
    (hri : p.ri = r :: ri) (rs : List run_t) (qs : List BitQuad) (hi : ℕ) :
    Remains s i ⟨rs, qs, r.kind, r.length, ri, p.qi, hi⟩ where
  decode := by
    rw [← h.decode, hri, h0]
    cases p.type <;> simp [RunLength.decode]
  literals := by
    rw [← h.literals, hri, h0, literals_cons_eq p.type]
    simp
  run := by
    obtain ⟨pre, m, he, hle, ht⟩ := h.run
    refine ⟨pre ++ [⟨p.type, m⟩], r.length, by simp [he, hri], ?_, ?_⟩ <;>
      simp <;> omega

/-- The next quad of the original set, as the splice sees it. -/
theorem Remains.quad (h : Remains s i p) (hl : 0 < p.length) :
    s.cells[i]? = match fill p.type with
      | some a => some a
      | none => s.quads[p.qi]? := by
  have hc : s.cells[i]? = (s.cells.drop i)[0]? := by simp
  rw [hc, ← h.decode]
  have hd := @decode_getElem? _ _ fill [] p.ri ⟨p.type, p.length⟩ (s.quads.drop p.qi) 0
    h.literals.le le_rfl (by simpa using hl)
  refine hd.trans ?_
  cases p.type <;> simp

/-- The vectors encode `cells`, and what is left starts at the quad `i`. -/
structure Spliced (s : UnicodeSet) (i : ℕ) (cells : List BitQuad) (p : Splice) : Prop where
  built : Prefix p.runs p.quads cells
  remains : Remains s i p
  canonical : Canonical s.runs → Canonical p.runs

theorem remains_of_split (hv : Verified s.runs s.quads) {pre ri : List run_t} {r : run_t}
    (h : s.runs = pre ++ r :: ri) (rs : List run_t) (qs : List BitQuad) (hi : ℕ) :
    Remains s (total pre) ⟨rs, qs, r.kind, r.length, ri, literals fill pre, hi⟩ where
  decode := by
    have hl := hv.literals
    rw [h, literals_append] at hl
    rw [UnicodeSet.cells, h, decode_append, List.drop_left' (length_decode (by omega))]
  literals := by
    have hl := hv.literals
    rw [h, literals_append] at hl
    simp only [List.length_drop]
    change literals fill (r :: ri) = _
    omega
  run := ⟨pre, r.length, h, le_rfl, rfl⟩

/-- The runs before a point of the code space, the last one cut there. -/
theorem prefix_of_split (hv : Verified s.runs s.quads) {pre ri : List run_t} {k : RunType}
    {n j : ℕ} (h : s.runs = pre ++ ⟨k, n⟩ :: ri) (hj : j ≤ n) :
    Prefix (pre ++ if j ≠ 0 then [⟨k, j⟩] else [])
      (s.quads.take (passQuads k (literals fill pre) j)) (s.cells.take (total pre + j)) := by
  have hl := hv.literals
  rw [h, literals_append, literals_cons_eq] at hl
  have hpass : passQuads k (literals fill pre) j =
      literals fill pre + if k = .Mixed then j else 0 := by
    unfold passQuads
    split_ifs <;> rfl
  have hle : (if k = .Mixed then j else 0) ≤ if k = .Mixed then n else 0 := by
    split_ifs
    · exact hj
    · exact le_rfl
  refine ⟨?_, ?_, fun q hq ↦ hv.proper q (List.mem_of_mem_take hq), ?_⟩
  · intro r hr
    rcases List.mem_append.mp hr with hr | hr
    · exact hv.pos r (by simp [h, hr])
    · split_ifs at hr with hj0
      · rw [List.mem_singleton.mp hr]
        exact Nat.pos_of_ne_zero hj0
      · simp at hr
  · rw [literals_append, List.length_take, hpass, min_eq_left (by omega)]
    by_cases hj0 : j = 0
    · simp [hj0]
    · cases k <;> simp [hj0]
  · have hside : RunLength.decode fill pre (s.quads.take (passQuads k (literals fill pre) j)) =
        RunLength.decode fill pre s.quads := by
      conv_rhs => rw [← List.take_append_drop (passQuads k (literals fill pre) j) s.quads]
      rw [decode_append_side]
      rw [List.length_take, hpass]
      omega
    have hlen : (RunLength.decode fill pre s.quads).length = total pre := length_decode (by omega)
    rw [decode_append, hside, UnicodeSet.cells, h, decode_append, ← hlen,
      List.take_length_add_append]
    congr 1
    by_cases hj0 : j = 0
    · simp [hj0]
    · rw [if_pos hj0]
      refine (take_decode_cons hj ri ?_ fun hk ↦ ?_).symm
      · rw [literals_cons_eq, List.length_drop]
        omega
      · rw [hpass, if_pos hk, List.drop_take, Nat.add_sub_cancel_left, List.take_take, min_self]

theorem canonical_of_split {pre ri : List run_t} {k : RunType} {n j : ℕ}
    (h : Canonical (pre ++ ⟨k, n⟩ :: ri)) :
    Canonical (pre ++ if j ≠ 0 then [⟨k, j⟩] else []) := by
  obtain ⟨hp, hc⟩ := h
  rw [List.isChain_append] at hc
  constructor
  · intro r hr
    rcases List.mem_append.mp hr with hr | hr
    · exact hp r (by simp [hr])
    · split_ifs at hr with hj0
      · rw [List.mem_singleton.mp hr]
        exact Nat.pos_of_ne_zero hj0
      · simp at hr
  · rw [List.isChain_append]
    refine ⟨hc.1, by split_ifs <;> simp, ?_⟩
    split_ifs
    · simpa using hc.2.2
    · simp

theorem seekLo_spec (hv : Verified s.runs s.quads) {rest runs : List run_t}
    (h : s.runs = runs ++ rest) {lo hi : ℕ} (hlt : lo < total rest) (hle : lo ≤ hi) :
    ∃ p, UnicodeSet.seekLo s.quads rest runs (literals fill runs) lo hi = .ok p ∧
      Spliced s (total runs + lo) (s.cells.take (total runs + lo)) p ∧ 0 < p.length ∧
      p.hi_index = hi - lo := by
  induction rest generalizing runs lo hi with
  | nil => simp at hlt
  | cons r ri ih =>
    rcases r with ⟨k, n⟩
    unfold UnicodeSet.seekLo
    by_cases hn : lo < n
    · refine ⟨_, if_pos hn, ⟨prefix_of_split hv h hn.le, ?_, fun hc ↦ ?_⟩, ?_, rfl⟩
      · exact (remains_of_split hv h [] [] 0).pass hn.le _ _ _
      · rw [h] at hc
        exact canonical_of_split hc
      · exact Nat.sub_pos_of_lt hn
    · simp only [total_cons] at hlt
      have hlit : passQuads k (literals fill runs) n = literals fill (runs ++ [⟨k, n⟩]) := by
        unfold passQuads
        cases k <;> simp
      obtain ⟨p, he, hp, hl, hi'⟩ := ih
        (show s.runs = (runs ++ [⟨k, n⟩]) ++ ri by simp [h])
        (show lo - n < total ri by omega) (show lo - n ≤ hi - n by omega)
      simp only [total_append, total_cons, total_nil] at hp
      rw [show total runs + (n + 0) + (lo - n) = total runs + lo by omega] at hp
      refine ⟨p, ?_, hp, hl, by omega⟩
      rw [← he, ← hlit]
      exact if_neg hn

theorem Remains.quadAt_fill (h : Remains s i p) (hl : 0 < p.length) {a : BitQuad}
    (ha : fill p.type = some a) : s.quadAt i = a := by
  have hq := h.quad hl
  rw [ha] at hq
  simp [UnicodeSet.quadAt, hq]

theorem Remains.getElem?_qi (h : Remains s i p) (hl : 0 < p.length) (ht : p.type = .Mixed) :
    s.quads[p.qi]? = some (s.quadAt i) := by
  have hq := h.quad hl
  have hlit := h.literals
  rw [literals_cons_eq, if_pos ht, List.length_drop] at hlit
  have hlt : p.qi < s.quads.length := by omega
  simp only [ht, fill_mixed] at hq
  rw [List.getElem?_eq_getElem hlt] at hq ⊢
  simp [UnicodeSet.quadAt, hq]

/-- One quad is written and one passed. -/
def Splice.push (p : Splice) (q : BitQuad) : Splice where
  runs := (appendQuad q p.quads p.runs).2
  quads := (appendQuad q p.quads p.runs).1
  type := p.type
  length := p.length - 1
  ri := p.ri
  qi := passQuads p.type p.qi 1
  hi_index := p.hi_index

theorem Spliced.push {cs : List BitQuad} (h : Spliced s i cs p) (hl : 0 < p.length)
    (q : BitQuad) : Spliced s (i + 1) (cs ++ [q]) (p.push q) :=
  ⟨h.built.appendQuad q, h.remains.pass hl _ _ _,
    fun hc ↦ appendQuad_canonical q _ (h.canonical hc)⟩

theorem appendQuad_full (qs : List BitQuad) (rs : List run_t) :
    appendQuad fullQuadMask qs rs = (qs, appendRun .Full 1 rs) := rfl

theorem mergeLo_eq (h : Remains s i p) (hl : 0 < p.length) (lo hi : ℕ) :
    s.mergeLo lo hi p = .ok (p.push
      ((if p.hi_index = 0 then loQuad lo &&& hiQuad hi else loQuad lo) ||| s.quadAt i)) := by
  cases ht : p.type with
  | Empty =>
    have h0 : s.quadAt i = 0#32 := h.quadAt_fill hl (by rw [ht]; rfl)
    rw [h0, BitVec.or_zero]
    simp only [UnicodeSet.mergeLo, ht, reduceCtorEq, if_false, Splice.push, passQuads]
  | Mixed =>
    simp only [UnicodeSet.mergeLo, ht, reduceCtorEq, if_false, if_true,
      Buffer.load_eq (h.getElem?_qi hl ht), ok_bind, pure_eq_ok, Splice.push, passQuads]
  | Full =>
    have h1 : s.quadAt i = fullQuadMask := h.quadAt_fill hl (by rw [ht]; rfl)
    rw [h1, or_full]
    simp only [UnicodeSet.mergeLo, ht, reduceCtorEq, if_false, if_true, Splice.push,
      passQuads, appendQuad_full]

/-- The cursor enters the run that holds the quad of `hi`. -/
theorem seekHi_spec {ri pre : List run_t} {n : ℕ} {cs : List BitQuad} (hri : p.ri = ri)
    (hs : s.runs = pre ++ ⟨p.type, n⟩ :: ri) (hpi : total pre ≤ i)
    (ht : i + p.length = total pre + n) (h : Spliced s i cs p)
    (hle : p.hi_index ≤ p.length + total ri) :
    ∃ p' pre' n', UnicodeSet.seekHi ri p = .ok p' ∧
      Spliced s (max i (total pre')) cs p' ∧ p'.quads = p.quads ∧
      s.runs = pre' ++ ⟨p'.type, n'⟩ :: p'.ri ∧ total pre ≤ total pre' ∧
      max i (total pre') + p'.length = total pre' + n' ∧
      p'.hi_index ≤ p'.length ∧ max i (total pre') + p'.hi_index = i + p.hi_index ∧
      (0 < p.hi_index → 0 < p'.hi_index) := by
  induction ri generalizing i p pre n with
  | nil =>
    simp only [total_nil, Nat.add_zero] at hle
    rw [← hri] at hs
    refine ⟨p, pre, n, if_neg (by omega), ?_⟩
    rw [max_eq_left hpi]
    exact ⟨h, rfl, hs, le_rfl, ht, hle, rfl, fun h0 ↦ h0⟩
  | cons r ri ih =>
    unfold UnicodeSet.seekHi
    by_cases hlt : p.length < p.hi_index
    · rw [if_pos hlt]
      have hr := (h.remains.pass le_rfl p.runs p.quads 0).next (by simp) hri p.runs p.quads
        (p.hi_index - p.length)
      have htot : total (pre ++ [⟨p.type, n⟩]) = i + p.length := by simp [ht]
      rw [total_cons] at hle
      obtain ⟨p', pre', n', he, hp, hq, hs', hpre, ht', hl, hj, hpos⟩ := ih
        (p := ⟨p.runs, p.quads, r.kind, r.length, ri, passQuads p.type p.qi p.length,
          p.hi_index - p.length⟩) rfl
        (show s.runs = (pre ++ [⟨p.type, n⟩]) ++ ⟨r.kind, r.length⟩ :: ri by simp [hs]) htot.le
        (by simp only; omega) ⟨h.built, hr, h.canonical⟩ (by simp only; omega)
      simp only at hj hpos
      rw [show max (i + p.length) (total pre') = max i (total pre') by omega] at hp ht' hj
      exact ⟨p', pre', n', he, hp, hq, hs', by omega, ht', hl, by omega, fun _ ↦ hpos (by omega)⟩
    · rw [← hri] at hs
      refine ⟨p, pre, n, if_neg hlt, ?_⟩
      rw [max_eq_left hpi]
      exact ⟨h, rfl, hs, le_rfl, ht, by omega, rfl, fun h0 ↦ h0⟩

theorem finish_covers (hv : Verified s.runs s.quads) {cs : List BitQuad} (h : Spliced s i cs p) :
    Prefix (s.finish p).1 (s.finish p).2 (cs ++ s.cells.drop i) := by
  obtain ⟨pre, n, hs, -, -⟩ := h.remains.run
  have hlit := h.remains.literals
  rw [literals_cons_eq] at hlit
  refine ⟨fun r hr ↦ ?_, ?_, fun q hq ↦ ?_, ?_⟩
  · rcases List.mem_append.mp hr with hr | hr
    · exact appendRun_pos h.built.pos r hr
    · exact hv.pos r (by simp [hs, hr])
  · simp only [UnicodeSet.finish, literals_append, literals_appendRun, List.length_append,
      h.built.literals]
    omega
  · rcases List.mem_append.mp hq with hq | hq
    · exact h.built.proper q hq
    · exact hv.proper q (List.mem_of_mem_drop hq)
  · have hd := decode_appendRun p.type p.length p.runs (p.quads ++ s.quads.drop p.qi)
    simp only [UnicodeSet.finish]
    rw [decode_append, hd, ← h.remains.decode, literals_appendRun, h.built.literals,
      decode_append_append h.built.literals, h.built.decode, List.append_assoc]
    have hrun : literals fill [⟨p.type, p.length⟩] = if p.type = .Mixed then p.length else 0 := by
      rw [literals_cons_eq, literals_nil, Nat.add_zero]
    conv_rhs => rw [← List.singleton_append, decode_append, hrun]
    rw [List.drop_append, List.drop_eq_nil_of_le (Nat.le_add_right _ _),
      Nat.add_sub_cancel_left, List.nil_append]

/-- Quads that are passed without being written. -/
def Splice.skip (p : Splice) (n : ℕ) : Splice :=
  { p with length := p.length - n, qi := passQuads p.type p.qi n }

theorem push_push_finish (h : p.type = .Mixed) (hl : 2 ≤ p.length) {q : BitQuad}
    (hq : kindOf q = .Mixed) {v : BitQuad} (hv : kindOf v = .Mixed) :
    s.finish ((p.push q).push v) =
      (appendRun .Mixed (p.length - 1) (appendQuad v p.quads p.runs).2 ++ p.ri,
        (appendQuad v (p.quads ++ [q]) p.runs).1 ++ s.quads.drop (p.qi + 2)) := by
  rw [kindOf_eq_mixed_iff] at hq hv
  simp only [UnicodeSet.finish, Splice.push, passQuads, h, if_true, appendQuad, hq.1, hq.2, hv.1,
    hv.2, if_false, appendRun_appendRun]
  rw [show 1 + 1 + (p.length - 1 - 1) = 1 + (p.length - 1) by omega]

theorem push_full_finish (h : p.type = .Mixed) (hl : 2 ≤ p.length) {q : BitQuad}
    (hq : kindOf q = .Mixed) :
    s.finish ((p.push fullQuadMask).push q) =
      (appendRun .Mixed (p.length - 1) (appendQuad fullQuadMask p.quads p.runs).2 ++ p.ri,
        (appendQuad fullQuadMask (p.quads ++ [q]) p.runs).1 ++ s.quads.drop (p.qi + 2)) := by
  rw [kindOf_eq_mixed_iff] at hq
  simp only [UnicodeSet.finish, Splice.push, passQuads, h, if_true, appendQuad_full]
  simp only [appendQuad, hq.1, hq.2, if_false, appendRun_appendRun]
  rw [show 1 + (p.length - 1 - 1) = p.length - 1 by omega]

/-- What `mergeHi` leaves when the run of `hi` is not Mixed or ends with the quad of `hi`:
the old quad is replaced, not merged. -/
theorem mergeHi_eq {p' : Splice} (hi : ℕ)
    (he : UnicodeSet.seekHi p.ri { p with runs := appendRun .Full (p.hi_index - 1) p.runs } = .ok p')
    (h0 : 0 < p'.hi_index) (hle : p'.hi_index ≤ p'.length)
    (hc : p'.type ≠ .Mixed ∨ p'.length = p'.hi_index) :
    ∃ p'', s.mergeHi hi p = .ok p'' ∧ s.finish p'' = s.finish ((p'.skip (p'.hi_index - 1)).push
      (if p'.type = .Full then fullQuadMask else hiQuad hi)) := by
  have hlen : p'.length - p'.hi_index = p'.length - (p'.hi_index - 1) - 1 := by omega
  have hqi : p'.qi + p'.hi_index = p'.qi + (p'.hi_index - 1) + 1 := by omega
  cases ht : p'.type with
  | Empty =>
    refine ⟨_, by simp only [UnicodeSet.mergeHi, he, ok_bind, ht, reduceCtorEq, if_false]; rfl, ?_⟩
    simp [UnicodeSet.finish, Splice.push, Splice.skip, passQuads, ht, hlen]
  | Full =>
    refine ⟨_, by simp only [UnicodeSet.mergeHi, he, ok_bind, ht, if_true]; rfl, ?_⟩
    simp [UnicodeSet.finish, Splice.push, Splice.skip, passQuads, ht, hlen, appendQuad_full]
  | Mixed =>
    have hl := hc.resolve_left (fun hne ↦ hne ht)
    refine ⟨_, by
      simp only [UnicodeSet.mergeHi, he, ok_bind, ht, reduceCtorEq, if_false, if_true, hl,
        Nat.sub_self, ne_eq, not_true_eq_false]
      rfl, ?_⟩
    have hz : p'.hi_index - (p'.hi_index - 1) - 1 = 0 := by omega
    simp [UnicodeSet.finish, Splice.push, Splice.skip, passQuads, ht, hl, hqi, hz]

/-- What `mergeHi` leaves when the run of `hi` is Mixed and goes on after the quad of `hi`:
the range is merged with the quad after the one it should be merged with. -/
theorem mergeHi_mixed_eq {p' : Splice} (hi : ℕ) {j : ℕ} {cs : List BitQuad}
    (he : UnicodeSet.seekHi p.ri { p with runs := appendRun .Full (p.hi_index - 1) p.runs } = .ok p')
    (h : Spliced s j cs p') (ht : p'.type = .Mixed) (hlt : p'.hi_index < p'.length) :
    ∃ p'', s.mergeHi hi p = .ok p'' ∧
      s.finish p'' = (appendRun .Mixed (p'.length - p'.hi_index)
          (appendQuad (hiQuad hi ||| s.quadAt (j + p'.hi_index)) p'.quads p'.runs).2 ++ p'.ri,
        (appendQuad (hiQuad hi ||| s.quadAt (j + p'.hi_index))
          (p'.quads ++ (s.quads.drop p'.qi).take p'.hi_index) p'.runs).1 ++
          s.quads.drop (p'.qi + p'.hi_index + 1)) := by
  have hr := Buffer.load_eq
    ((h.remains.pass hlt.le p'.runs p'.quads 0).getElem?_qi (by simp only; omega) ht)
  simp only [passQuads, ht, if_true] at hr
  have hne : p'.length - p'.hi_index ≠ 0 := by omega
  refine ⟨_, by
    simp only [UnicodeSet.mergeHi, he, ok_bind, ht, reduceCtorEq, if_false, if_true, hne,
      ne_eq, not_false_eq_true, hr, pure_eq_ok]
    rfl, ?_⟩
  have hruns : ∀ v qs, (appendQuad v qs p'.runs).2 = (appendQuad v p'.quads p'.runs).2 := by
    intro v qs
    unfold appendQuad
    split_ifs <;> rfl
  simp only [UnicodeSet.finish, hruns]

theorem Remains.take_one (h : Remains s i p) (ht : p.type = .Mixed) (hl : 0 < p.length) :
    (s.quads.drop p.qi).take 1 = [s.quadAt i] := by
  obtain ⟨hlt, hq⟩ := List.getElem?_eq_some_iff.mp (h.getElem?_qi hl ht)
  rw [List.drop_eq_getElem_cons hlt, List.take_succ_cons, List.take_zero, hq]

theorem Remains.kindOf_quadAt (hv : Verified s.runs s.quads) (h : Remains s i p)
    (ht : p.type = .Mixed) (hl : 0 < p.length) : kindOf (s.quadAt i) = .Mixed :=
  hv.proper _ (List.mem_of_getElem? (h.getElem?_qi hl ht))

end Splice

end Parabix.UCD
