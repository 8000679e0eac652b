import Mathlib.Data.Set.Insert
import Parabix.UCD.Constructors
import Parabix.UCD.Insert

namespace Parabix.UCD

open Library Library.RunLength

/-- The quad of a code point once the code point is added to it. -/
def UnicodeSet.quadWith (s : UnicodeSet) (cp : ℕ) : BitQuad :=
  s.quadAt (cp / 32) ||| 1#32 <<< (cp % 32)

/-- The inputs on which the buffers are rewritten as they should be. A borrowed quad buffer is
never copied rightly, and a run of one quad in a borrowed run buffer is not replaced: the
new run is put before it. -/
def InsertEndsWell (s : UnicodeSet) (cp : ℕ) : Prop :=
  let run := (runAt s.runs (cp / 32)).2
  let replaced := ¬(lengthOf run = 1 ∧ s.mRunCapacity = 0)
  match typeOf run with
  | .Full => True
  | .Mixed => s.mQuadCapacity ≠ 0 ∧ (s.quadWith cp = fullQuadMask → replaced)
  | .Empty => replaced

section Pieces

variable {k : RunType} {n offset : ℕ} {a b qs cs : List BitQuad} {q : BitQuad}

/-- Part of a run, or nothing. -/
theorem prefix_stretch (k : RunType) (n : ℕ)
    (hl : literals fill [(⟨k, n⟩ : run_t)] = qs.length) (hp : ∀ q ∈ qs, kindOf q = .Mixed) :
    Prefix (if n ≠ 0 then [⟨k, n⟩] else []) qs (decode fill [⟨k, n⟩] qs) := by
  by_cases hn : n = 0
  · subst hn
    have hq : qs = [] := List.length_eq_zero_iff.mp (by cases k <;> simpa using hl.symm)
    subst hq
    cases k <;> exact Prefix.nil
  · rw [if_pos hn]
    exact ⟨by simp; omega, hl, hp, rfl⟩

theorem prefix_quad (q : BitQuad) :
    Prefix [⟨kindOf q, 1⟩] (if kindOf q = .Mixed then [q] else []) [q] := by
  have h := Prefix.nil.appendQuad q
  unfold appendQuad at h
  unfold kindOf
  split_ifs at h ⊢ <;> simp_all [appendRun]

/-- Cutting one quad out of a run, and giving it another value, is a change of one cell. -/
theorem cutRun_prefix {o : ℕ} (ha : literals fill [(⟨k, o⟩ : run_t)] = a.length)
    (hb : literals fill [(⟨k, n - (o + 1)⟩ : run_t)] = b.length)
    (hp : ∀ q ∈ a ++ b, kindOf q = .Mixed) (q : BitQuad) :
    Prefix (cutRun k n o (kindOf q)) (a ++ (if kindOf q = .Mixed then [q] else []) ++ b)
      (decode fill [⟨k, o⟩] a ++ [q] ++ decode fill [⟨k, n - (o + 1)⟩] b) := by
  have hpa := prefix_stretch k o ha fun q hq ↦ hp q (List.mem_append_left b hq)
  have hpb := prefix_stretch k (n - (o + 1)) hb fun q hq ↦ hp q (List.mem_append_right a hq)
  have h := (hpa.append (prefix_quad q)).append hpb
  simpa only [cutRun, List.append_assoc, List.singleton_append] using h

theorem set_middle {ca cb cc : List BitQuad} {i : ℕ} (hle : ca.length ≤ i)
    (hlt : i < ca.length + cb.length) (q : BitQuad) :
    (ca ++ cb ++ cc).set i q = ca ++ cb.set (i - ca.length) q ++ cc := by
  rw [List.append_assoc, List.set_append_right _ _ hle, List.set_append_left _ _ (by omega),
    List.append_assoc]

end Pieces

section Bit

theorem kindOf_ne_empty {q : BitQuad} (b : ℕ) (h : q.getLsbD b = true) : kindOf q ≠ .Empty := by
  intro hk
  rw [(kindOf_eq_empty_iff q).mp hk, BitVec.getLsbD_zero] at h
  cases h

theorem kindOf_or_bit (q : BitQuad) (cp : ℕ) :
    kindOf (q ||| 1#32 <<< (cp % 32)) ≠ .Empty := by
  have hb : cp % 32 < 32 := Nat.mod_lt _ (by decide)
  apply kindOf_ne_empty (cp % 32)
  rw [BitVec.getLsbD_or, getLsbD_bit _ hb, decide_eq_true rfl, Bool.or_true]

end Bit

section Outcome

variable {s t : UnicodeSet} {cp : ℕ}

theorem members_insert_iff (hs : Verified s.runs s.quads) (ht : Verified t.runs t.quads)
    (hmax : cp ≤ unicodeMax) :
    t.members = s.members ∪ {cp} ↔ t.cells = s.cells.set (cp / 32) (s.quadWith cp) := by
  have hls : s.cells.length = unicodeQuadCount := hs.length_cells
  refine UnicodeSet.members_eq_iff ht (by rw [List.length_set, hls]) (fun x hx ↦ ?_) fun x hx ↦ ?_
  · rcases hx with hx | rfl
    · exact UnicodeSet.le_of_mem hs hx
    · exact hmax
  · have hi : cp / 32 < s.cells.length := by
      rw [hls]
      exact index_lt hmax
    rw [Set.mem_union, UnicodeSet.mem_iff_quadAt hs, Set.mem_singleton_iff,
      List.getD_eq_getElem?_getD]
    by_cases he : x / 32 = cp / 32
    · rw [he, List.getElem?_set_self hi, Option.getD_some, UnicodeSet.quadWith,
        BitVec.getLsbD_or, getLsbD_bit _ (Nat.mod_lt _ (by decide)), Bool.or_eq_true,
        decide_eq_true_eq]
      have : x = cp ↔ x % 32 = cp % 32 := by omega
      rw [this]
    · have hne : x ≠ cp := fun h ↦ he (by rw [h])
      rw [List.getElem?_set_ne (Ne.symm he), ← List.getD_eq_getElem?_getD]
      simp only [hne, or_false]
      rfl

theorem produces_ok_iff {xs : Set ℕ} :
    Produces (.ok t) xs ↔ t.WellFormed ∧ t.members = xs := by
  constructor
  · rintro ⟨t', ht, hw, -, hm⟩
    cases ht
    exact ⟨hw, hm⟩
  · rintro ⟨hw, hm⟩
    exact ⟨t, rfl, hw, (verify_eq_ok_iff _ _).mpr hw.verified, hm⟩

/-- The set `t` is `s` with `cp` added, encoded by these runs. -/
structure Adds (s : UnicodeSet) (cp : ℕ) (t : UnicodeSet) (runs : List run_t) : Prop where
  wellFormed : t.WellFormed
  members : t.members = s.members ∪ {cp}
  runs : t.runs = runs

/-- The buffers of the quads are in order. -/
def QuadBuffer (s : UnicodeSet) : Prop :=
  s.mQuadLength ≤ s.mQuads.length ∧
    (s.mQuadCapacity = 0 ∨ s.mQuadLength ≤ s.mQuadCapacity ∧ s.mQuadCapacity ≤ s.mQuads.length)

theorem quadBuffer_of {body tail : List BitQuad} (h : t.mQuads = body ++ tail)
    (hl : t.mQuadLength = body.length)
    (hcap : t.mQuadCapacity = 0 ∨
      t.mQuadLength ≤ t.mQuadCapacity ∧ t.mQuadCapacity ≤ t.mQuads.length) :
    t.quads = body ∧ QuadBuffer t := by
  refine ⟨?_, ?_, hcap⟩
  · rw [UnicodeSet.quads, h, hl, List.take_left]
  · rw [h, hl, List.length_append]
    exact Nat.le_add_right _ _

theorem SameQuads.quads_eq (h : SameQuads s t) : t.quads = s.quads := by
  rw [UnicodeSet.quads, UnicodeSet.quads, h.mQuads, h.mQuadLength]

theorem SameQuads.quadBuffer (h : SameQuads s t) (hs : QuadBuffer s) : QuadBuffer t := by
  rw [QuadBuffer, h.mQuads, h.mQuadLength, h.mQuadCapacity]
  exact hs

theorem UnicodeSet.WellFormed.of_buffers (hv : Verified t.runs t.quads) (hr : RunBuffer t)
    (hq : QuadBuffer t) : t.WellFormed :=
  ⟨hv, hr.1, hq.1, hr.2, hq.2⟩

theorem UnicodeSet.WellFormed.mQuadLength_le (h : s.WellFormed) :
    s.mQuadLength ≤ unicodeQuadCount := by
  have hl := h.verified.literals
  rw [UnicodeSet.quads, List.length_take_of_le h.quad_le] at hl
  rw [← hl, ← h.verified.total]
  exact literals_le_total fill s.runs

/-- A set seen from the run that holds the quad `i`. -/
structure Around (s : UnicodeSet) (i : ℕ) where
  pre : List run_t
  kind : RunType
  length : ℕ
  post : List run_t
  preQuads : List BitQuad
  runQuads : List BitQuad
  postQuads : List BitQuad
  preCells : List BitQuad
  runCells : List BitQuad
  postCells : List BitQuad
  inRun : InRun s pre kind length post
  quads : s.quads = preQuads ++ runQuads ++ postQuads
  cells : s.cells = preCells ++ runCells ++ postCells
  left : Prefix pre preQuads preCells
  run : Prefix [⟨kind, length⟩] runQuads runCells
  right : Prefix post postQuads postCells
  le : total pre ≤ i
  lt : i < total pre + length

theorem exists_around (h : s.WellFormed) {i : ℕ} (hi : i < unicodeQuadCount) :
    Nonempty (Around s i) := by
  rw [← h.verified.total] at hi
  obtain ⟨pre, ⟨k, n⟩, post, hs, hle, hlt⟩ := exists_run hi
  have hp : Prefix (pre ++ [⟨k, n⟩] ++ post) s.quads s.cells := by
    have hv := Prefix.of_verified h.verified
    rw [hs] at hv
    simpa [UnicodeSet.cells, hs] using hv
  obtain ⟨ab, c, cab, cc, hq, hc, hab, hright⟩ := hp.split
  obtain ⟨a, b, ca, cb, rfl, rfl, hleft, hrun⟩ := hab.split
  exact ⟨pre, k, n, post, a, b, c, ca, cb, cc, ⟨hs, h.run_le, h.run_capacity⟩, hq, hc, hleft, hrun,
    hright, hle, hlt⟩

namespace Around

variable {i : ℕ} (w : Around s i)

/-- The index of the quad within its run. -/
def offset : ℕ := i - total w.pre

theorem runAt_eq : runAt s.runs i = (total w.pre, ⟨w.kind, w.length⟩) := by
  rw [w.inRun.runs]
  exact UCD.runAt_eq w.le w.lt

theorem offset_lt : w.offset < w.length := by
  have hlt := w.lt
  have hle := w.le
  unfold offset
  omega

theorem length_runCells : w.runCells.length = w.length := by
  simpa using w.run.length

theorem quadAt_eq : s.quadAt i = w.runCells.getD w.offset 0 := by
  have hl := w.left.length
  have hle := w.le
  have hlt := w.lt
  have hr := w.length_runCells
  rw [UnicodeSet.quadAt, w.cells, List.append_assoc, List.getD_append_right _ _ _ _ (by omega),
    List.getD_append _ _ _ _ (by omega), hl]
  rfl

def place : Place := ⟨w.kind, w.length, w.offset, w.pre.length, w.preQuads.length⟩

theorem findRun_eq : UnicodeSet.findRun s.mRuns i 0 0 = .ok w.place := by
  rw [w.inRun.mRuns, List.append_assoc, List.cons_append, UCD.findRun_eq w.le w.lt,
    w.left.literals, Nat.zero_add, Nat.zero_add]
  rfl

/-- What `insert` does once it has found the run. -/
theorem insert_eq (m : Memory) {cp : ℕ} (w : Around s (cp / 32)) (hmax : cp ≤ unicodeMax) :
    s.insert m cp = match w.kind with
      | .Mixed =>
        (if s.mQuadCapacity = 0 then
          s.insertBorrowed m (w.preQuads.length + w.offset) (1#32 <<< (cp % 32))
        else
          s.insertOwned (w.preQuads.length + w.offset) (1#32 <<< (cp % 32))) >>= fun p ↦
            if p.2 then p.1.splitRun m w.place .Full else .ok p.1
      | .Empty => s.insertQuad m w.preQuads.length (1#32 <<< (cp % 32)) >>= fun s' ↦
          s'.splitRun m w.place .Mixed
      | .Full => .ok s := by
  rw [UnicodeSet.insert, if_neg (not_lt.mpr hmax), and_quadLimit, quadBits, w.findRun_eq, ok_bind]
  cases hk : w.kind with
  | Mixed =>
    simp only [place, hk]
    split <;> rfl
  | Empty => simp only [place, hk]
  | Full =>
    simp only [place, hk]
    rfl

/-- A change within the run changes the cell of the quad. -/
theorem replace (h : s.WellFormed) {t : UnicodeSet} {u : List run_t} {v : List BitQuad}
    {q : BitQuad} (hr : t.runs = w.pre ++ u ++ w.post)
    (hq : t.quads = w.preQuads ++ v ++ w.postQuads)
    (hp : Prefix u v (w.runCells.set w.offset q)) :
    Verified t.runs t.quads ∧ t.cells = s.cells.set i q := by
  have hset : s.cells.set i q = w.preCells ++ w.runCells.set w.offset q ++ w.postCells := by
    have hl := w.left.length
    have hle := w.le
    have hlt := w.lt
    have hr := w.length_runCells
    rw [w.cells, set_middle (by omega) (by omega), hl]
    rfl
  have hall := (w.left.append hp).append w.right
  rw [← hr, ← hq, ← hset] at hall
  refine ⟨hall.verified ?_, hall.decode⟩
  rw [List.length_set]
  exact h.verified.length_cells

/-- The quad is given a type of its own. In a borrowed run buffer a run of one quad stays
behind the new one, so that there is one quad too many. -/
theorem splitRun_eq (m : Memory) {s' : UnicodeSet} (hs : InRun s' w.pre w.kind w.length w.post)
    (type : RunType) : ∃ t,
    s'.splitRun m w.place type = .ok t ∧
      SameQuads s' t ∧ RunBuffer t ∧
      (¬(w.length = 1 ∧ s'.mRunCapacity = 0) →
        t.runs = w.pre ++ cutRun w.kind w.length w.offset type ++ w.post) ∧
      (w.length = 1 ∧ s'.mRunCapacity = 0 → total t.runs = total s'.runs + 1) := by
  have hlt := w.offset_lt
  by_cases hover : w.length = 1 ∧ s'.mRunCapacity ≠ 0
  · have h0 : w.offset = 0 := by omega
    rw [hover.1] at hs
    obtain ⟨t, he, hr, hq, hb⟩ := splitRun_overwrite m hs hover.2 w.preQuads.length type
    rw [place, hover.1, h0]
    refine ⟨t, he, hq, hb, fun _ ↦ ?_, fun hc ↦ absurd hc.2 hover.2⟩
    simpa [cutRun] using hr
  · obtain ⟨t, he, hr, hq, hb⟩ := splitRun_insert m hs hover hlt w.preQuads.length type
    refine ⟨t, he, hq, hb, fun hne ↦ ?_, fun hc ↦ ?_⟩
    · have h1 : w.length ≠ 1 := by tauto
      rw [hr, if_neg h1]
    · rw [hr, if_pos hc.1, hs.runs, hc.1]
      simp
      omega

/-- The quad is full, so that there is nothing to do. -/
theorem insert_full (m : Memory) {cp : ℕ} (w : Around s (cp / 32)) (hmax : cp ≤ unicodeMax)
    (h : s.WellFormed) (hk : w.kind = .Full) : s.insert m cp = .ok s ∧ Adds s cp s s.runs := by
  have hc : w.runCells = List.replicate w.length fullQuadMask := by
    rw [← w.run.decode, decode_cons_some (by rw [hk]; rfl), decode_nil, List.append_nil]
  have hq : s.quadAt (cp / 32) = fullQuadMask := by
    rw [w.quadAt_eq, hc, List.getD_replicate _ w.offset_lt]
  constructor
  · simp only [w.insert_eq m hmax, hk]
  · have hlen : cp / 32 < s.cells.length := by
      have hl : s.cells.length = unicodeQuadCount := h.verified.length_cells
      rw [hl]
      exact index_lt hmax
    refine ⟨h, (members_insert_iff h.verified h.verified hmax).mpr ?_, rfl⟩
    rw [UnicodeSet.quadWith, hq, full_or, ← hq, UnicodeSet.quadAt, List.getD_eq_getElem _ _ hlen,
      List.set_getElem_self]

/-- A quad of an Empty run becomes a Mixed run of its own. -/
theorem insert_empty (m : Memory) {cp : ℕ} (w : Around s (cp / 32)) (h : s.WellFormed)
    (hmax : cp ≤ unicodeMax) (hk : w.kind = .Empty) : ∃ t, s.insert m cp = .ok t ∧
      (t.WellFormed → ¬(w.length = 1 ∧ s.mRunCapacity = 0)) ∧
      (¬(w.length = 1 ∧ s.mRunCapacity = 0) →
        Adds s cp t (w.pre ++ cutRun w.kind w.length w.offset .Mixed ++ w.post)) := by
  have hlt := w.offset_lt
  have hb : w.runQuads = [] := by
    have hl := w.run.literals
    rw [hk] at hl
    exact List.length_eq_zero_iff.mp hl.symm
  have hc : w.runCells = List.replicate w.length 0 := by
    rw [← w.run.decode, decode_cons_some (by rw [hk]; rfl), decode_nil, List.append_nil]
  have hz : s.quadAt (cp / 32) = 0#32 := by
    rw [w.quadAt_eq, hc, List.getD_replicate _ hlt]
    rfl
  have hbuf : s.mQuads = w.preQuads ++ w.postQuads ++ s.mQuads.drop s.mQuadLength := by
    have hq := w.quads
    rw [hb, List.append_nil] at hq
    rw [← hq, UnicodeSet.quads, List.take_append_drop]
  have hlen : s.mQuadLength = w.preQuads.length + w.postQuads.length := by
    have hq := congrArg List.length w.quads
    rw [UnicodeSet.quads, List.length_take_of_le h.quad_le, hb] at hq
    simpa using hq
  obtain ⟨tail, cap, he, hcap, hcap'⟩ := insertQuad_eq (v := 1#32 <<< (cp % 32)) m hbuf hlen
    h.quad_capacity
  obtain ⟨hq, hqb⟩ := quadBuffer_of (t := { s with
      mQuads := w.preQuads ++ 1#32 <<< (cp % 32) :: w.postQuads ++ tail
      mQuadLength := s.mQuadLength + 1, mQuadCapacity := cap }) rfl
    (by simp only [List.length_append, List.length_cons]; omega) (.inr ⟨hcap, hcap'⟩)
  have hin : InRun { s with
      mQuads := w.preQuads ++ 1#32 <<< (cp % 32) :: w.postQuads ++ tail
      mQuadLength := s.mQuadLength + 1, mQuadCapacity := cap } w.pre w.kind w.length w.post :=
    ⟨w.inRun.runs, w.inRun.buffer⟩
  obtain ⟨t, ht, hsame, hrb, hrep, hone⟩ := w.splitRun_eq m hin .Mixed
  refine ⟨t, by simp only [w.insert_eq m hmax, hk, he, ok_bind, ht], ?_, ?_⟩
  · intro hw hc
    have htot := hone hc
    have htot' := hw.verified.total
    have htot'' := h.verified.total
    simp only [UnicodeSet.runs] at htot htot' htot''
    omega
  · intro hr
    have hkind : kindOf (1#32 <<< (cp % 32)) = .Mixed := kindOf_bit (Nat.mod_lt _ (by decide))
    have hwith : s.quadWith cp = 1#32 <<< (cp % 32) := by
      rw [UnicodeSet.quadWith, hz, BitVec.zero_or]
    have hset : w.runCells.set w.offset (s.quadWith cp) = List.replicate w.offset 0 ++
        [1#32 <<< (cp % 32)] ++ List.replicate (w.length - (w.offset + 1)) 0 := by
      rw [hc, hwith, List.set_eq_take_append_cons_drop, if_pos (by simpa using hlt),
        List.take_replicate, List.drop_replicate, min_eq_left hlt.le]
      simp
    have hp := cutRun_prefix (k := .Empty) (n := w.length) (o := w.offset) (a := []) (b := [])
      rfl rfl (by simp) (1#32 <<< (cp % 32))
    rw [hkind, if_pos rfl, decode_cons_some fill_empty, decode_cons_some fill_empty] at hp
    have hrepl := w.replace h (q := s.quadWith cp) (hrep hr)
      (v := [1#32 <<< (cp % 32)]) (by rw [hsame.quads_eq, hq]; simp) (by
        rw [hset, hk]
        simpa using hp)
    exact ⟨.of_buffers hrepl.1 hrb (hsame.quadBuffer hqb),
      (members_insert_iff h.verified hrepl.1 hmax).mpr hrepl.2, hrep hr⟩

/-- The stored quad of a Mixed run, with the quad buffer around it. -/
theorem mixed_split (h : s.WellFormed) (hk : w.kind = .Mixed) : ∃ b c,
    w.runQuads = b ++ s.quadAt i :: c ∧ b.length = w.offset ∧
      c.length = w.length - (w.offset + 1) ∧ w.runCells = w.runQuads ∧
      s.mQuads = (w.preQuads ++ b) ++ s.quadAt i :: (c ++ w.postQuads) ++
        s.mQuads.drop s.mQuadLength ∧
      s.mQuadLength = (w.preQuads ++ b).length + ((c ++ w.postQuads).length + 1) := by
  have hlt := w.offset_lt
  have hl : w.length = w.runQuads.length := by
    have hl := w.run.literals
    rw [hk] at hl
    simpa using hl
  have hc : w.runCells = w.runQuads := by
    rw [← w.run.decode, decode_cons_none (by rw [hk]; rfl), decode_nil, List.append_nil]
    exact List.take_of_length_le hl.ge
  have hq : w.runQuads = w.runQuads.take w.offset ++ s.quadAt i ::
      w.runQuads.drop (w.offset + 1) := by
    rw [w.quadAt_eq, hc, List.getD_eq_getElem _ _ (hl ▸ hlt), ← List.drop_eq_getElem_cons,
      List.take_append_drop]
  have hquads := w.quads
  rw [hq] at hquads
  refine ⟨_, _, hq, List.length_take_of_le (hl ▸ hlt.le), by rw [List.length_drop, hl], hc, ?_, ?_⟩
  · conv_lhs => rw [← List.take_append_drop s.mQuadLength s.mQuads]
    change s.quads ++ _ = _
    rw [hquads]
    simp only [List.append_assoc, List.cons_append]
  · have hlen := congrArg List.length hquads
    rw [UnicodeSet.quads, List.length_take_of_le h.quad_le] at hlen
    simp only [hlen, List.length_append, List.length_cons]
    omega

/-- A stored quad that does not fill up is overwritten. -/
theorem insert_mixed (m : Memory) {cp : ℕ} (w : Around s (cp / 32)) (h : s.WellFormed)
    (hmax : cp ≤ unicodeMax) (hk : w.kind = .Mixed) (hcap : s.mQuadCapacity ≠ 0)
    (hf : s.quadWith cp ≠ fullQuadMask) : ∃ t, s.insert m cp = .ok t ∧ Adds s cp t s.runs := by
  obtain ⟨b, c, hq, hb, hc, hcells, hbuf, hlen⟩ := w.mixed_split h hk
  have he := insertOwned_eq (v := 1#32 <<< (cp % 32)) hbuf hf
  rw [List.length_append, hb] at he
  have hnew : (w.preQuads ++ b ++ s.quadWith cp :: (c ++ w.postQuads) ++
      s.mQuads.drop s.mQuadLength).length = s.mQuads.length := by
    conv_rhs => rw [hbuf]
    simp
  obtain ⟨hquads, hqb⟩ := quadBuffer_of (t := { s with
      mQuads := w.preQuads ++ b ++ s.quadWith cp :: (c ++ w.postQuads) ++
        s.mQuads.drop s.mQuadLength }) rfl
    (by simpa [Nat.add_assoc] using hlen) (by simpa only [hnew] using h.quad_capacity)
  obtain ⟨t, ht⟩ : ∃ t, t = { s with
      mQuads := w.preQuads ++ b ++ s.quadWith cp :: (c ++ w.postQuads) ++
        s.mQuads.drop s.mQuadLength } := ⟨_, rfl⟩
  rw [← ht] at hquads hqb
  have hres : s.insert m cp = .ok t := by
    rw [w.insert_eq m hmax, hk]
    simp only [hcap, if_false, he, ok_bind, ht, Bool.false_eq_true]
    rfl
  have hruns : t.runs = s.runs := by rw [ht]; rfl
  have hkind : kindOf (s.quadWith cp) = .Mixed := by
    have hne := kindOf_or_bit (s.quadAt (cp / 32)) cp
    rw [kindOf_eq_mixed_iff]
    exact ⟨fun h0 ↦ hne ((kindOf_eq_empty_iff _).mpr h0), hf⟩
  have hrun := w.run
  rw [hcells, hk] at hrun
  have hset : w.runCells.set w.offset (s.quadWith cp) = b ++ s.quadWith cp :: c := by
    rw [hcells, hq, ← hb, List.set_append_right _ _ le_rfl, Nat.sub_self, List.set_cons_zero]
  have hrepl := w.replace h (q := s.quadWith cp) (u := [⟨.Mixed, w.length⟩])
    (v := b ++ s.quadWith cp :: c) (by rw [hruns, w.inRun.runs, hk]; simp)
    (by rw [hquads]; simp) (by
      rw [hset]
      refine ⟨hrun.pos, ?_, ?_, ?_⟩
      · have hl := hrun.literals
        rw [hq] at hl
        simpa using hl
      · intro q hmem
        have hp := hrun.proper
        rw [hq] at hp
        simp only [List.mem_append, List.mem_cons] at hmem hp
        rcases hmem with hmem | rfl | hmem
        · exact hp q (.inl hmem)
        · exact hkind
        · exact hp q (.inr (.inr hmem))
      · rw [decode_cons_none fill_mixed, decode_nil, List.append_nil]
        apply List.take_of_length_le
        have hlt := w.offset_lt
        simp only [List.length_append, List.length_cons, hb, hc]
        omega)
  have hrb : RunBuffer t := by
    rw [ht]
    exact w.inRun.buffer
  exact ⟨t, hres, .of_buffers hrepl.1 hrb hqb,
    (members_insert_iff h.verified hrepl.1 hmax).mpr hrepl.2, hruns⟩

/-- A stored quad that fills up leaves the buffer and its run. -/
theorem insert_mixed_full (m : Memory) {cp : ℕ} (w : Around s (cp / 32)) (h : s.WellFormed)
    (hmax : cp ≤ unicodeMax) (hk : w.kind = .Mixed) (hcap : s.mQuadCapacity ≠ 0)
    (hf : s.quadWith cp = fullQuadMask) : ∃ t, s.insert m cp = .ok t ∧
      (t.WellFormed → ¬(w.length = 1 ∧ s.mRunCapacity = 0)) ∧
      (¬(w.length = 1 ∧ s.mRunCapacity = 0) →
        Adds s cp t (w.pre ++ cutRun w.kind w.length w.offset .Full ++ w.post)) := by
  have hlt := w.offset_lt
  obtain ⟨b, c, hq, hb, hc, hcells, hbuf, hlen⟩ := w.mixed_split h hk
  obtain ⟨tail, he, htail⟩ := insertOwned_full (v := 1#32 <<< (cp % 32)) hbuf hlen hf
  rw [List.length_append, hb] at he
  obtain ⟨s', hs'⟩ : ∃ s' : UnicodeSet, s' = { s with
      mQuads := w.preQuads ++ b ++ (c ++ w.postQuads) ++ tail
      mQuadLength := s.mQuadLength - 1 } := ⟨_, rfl⟩
  rw [← hs'] at he
  obtain ⟨hquads, hqb⟩ : s'.quads = w.preQuads ++ b ++ (c ++ w.postQuads) ∧ QuadBuffer s' := by
    rw [hs']
    apply quadBuffer_of rfl
    · simp only [hlen, List.length_append]
      omega
    · rcases h.quad_capacity with h0 | h0
      · exact .inl h0
      · refine .inr ⟨(Nat.sub_le _ _).trans h0.1, ?_⟩
        simp only [htail]
        exact h0.2
  have hin : InRun s' w.pre w.kind w.length w.post := by
    rw [hs']
    exact ⟨w.inRun.runs, w.inRun.buffer⟩
  have hsame : s'.mRunCapacity = s.mRunCapacity ∧ s'.runs = s.runs := by
    rw [hs']
    exact ⟨rfl, rfl⟩
  obtain ⟨t, ht, hsq, hrb, hrep, hone⟩ := w.splitRun_eq m hin .Full
  rw [hsame.1] at hrep hone
  rw [hsame.2] at hone
  refine ⟨t, by simp only [w.insert_eq m hmax, hk, hcap, if_false, he, ok_bind, if_true, ht], ?_, ?_⟩
  · intro hw hc
    have htot := hone hc
    have htot' := hw.verified.total
    have htot'' := h.verified.total
    omega
  · intro hr
    have hrun := w.run
    rw [hk, hcells, hq] at hrun
    have hproper : ∀ q ∈ b ++ c, kindOf q = .Mixed := by
      intro q hmem
      apply hrun.proper
      simp only [List.mem_append, List.mem_cons] at hmem ⊢
      tauto
    have hp := cutRun_prefix (k := .Mixed) (n := w.length) (o := w.offset) (a := b) (b := c)
      (by simp [hb]) (by simp [hc]) hproper fullQuadMask
    have hset : w.runCells.set w.offset (s.quadWith cp) = b ++ [fullQuadMask] ++ c := by
      rw [hcells, hq, ← hb, List.set_append_right _ _ le_rfl, Nat.sub_self, List.set_cons_zero, hf]
      simp
    have hkf : kindOf fullQuadMask = .Full := (kindOf_eq_full_iff _).mpr rfl
    rw [hkf, if_neg (by decide), decode_cons_none fill_mixed, decode_cons_none fill_mixed,
      decode_nil, decode_nil, List.append_nil, List.append_nil, List.append_nil,
      List.take_of_length_le hb.le, List.take_of_length_le hc.le, ← hset] at hp
    have hrepl := w.replace h (q := s.quadWith cp) (hrep hr) (v := b ++ c)
      (by rw [hsq.quads_eq, hquads]; simp) (by rw [hk]; exact hp)
    exact ⟨.of_buffers hrepl.1 hrb (hsq.quadBuffer hqb),
      (members_insert_iff h.verified hrepl.1 hmax).mpr hrepl.2, hrep hr⟩

/-- A stored quad of a borrowed buffer cannot be changed. -/
theorem insert_borrowed (m : Memory) {cp : ℕ} (w : Around s (cp / 32)) (h : s.WellFormed)
    (hmax : cp ≤ unicodeMax) (hk : w.kind = .Mixed) (hcap : s.mQuadCapacity = 0) :
    ¬Produces (s.insert m cp) (s.members ∪ {cp}) := by
  obtain ⟨b, c, hq, hb, hc, hcells, hbuf, hlen⟩ := w.mixed_split h hk
  rintro ⟨t, ht, hw, _⟩
  rw [w.insert_eq m hmax, hk] at ht
  simp only [hcap, if_true, bind_eq_ok] at ht
  obtain ⟨⟨s', full⟩, hi, ht⟩ := ht
  have hidx : w.preQuads.length + w.offset < s.mQuadLength := by
    rw [hlen, List.length_append, hb]
    omega
  obtain ⟨rfl, hmem, hbuf', hruns, -⟩ := insertBorrowed_full hidx h.mQuadLength_le hi
  obtain ⟨t', ht', hsq, -⟩ := w.splitRun_eq m
    ⟨hruns.trans w.inRun.runs, hbuf' ▸ w.inRun.buffer⟩ .Full
  simp only [if_true, ht', Except.ok.injEq] at ht
  subst ht
  rw [← hsq.quads_eq] at hmem
  have hp := hw.verified.proper _ hmem
  rw [(kindOf_eq_full_iff _).mpr rfl] at hp
  cases hp

end Around

theorem produces_of_adds {result : Except Fault UnicodeSet} {rs : List run_t}
    (he : result = .ok t) (ha : Adds s cp t rs) : Produces result (s.members ∪ {cp}) := by
  rw [he, produces_ok_iff]
  exact ⟨ha.wellFormed, ha.members⟩

theorem produces_iff_of_adds {result : Except Fault UnicodeSet} {c : Prop} {rs : List run_t}
    (he : result = .ok t) (hw : t.WellFormed → c) (ha : c → Adds s cp t rs) :
    Produces result (s.members ∪ {cp}) ↔ c := by
  refine ⟨fun hp ↦ ?_, fun hc ↦ produces_of_adds he (ha hc)⟩
  rw [he, produces_ok_iff] at hp
  exact hw hp.1

theorem insert_produces_iff (m : Memory) (h : s.WellFormed) (hmax : cp ≤ unicodeMax) :
    Produces (s.insert m cp) (s.members ∪ {cp}) ↔ InsertEndsWell s cp := by
  obtain ⟨w⟩ : Nonempty (Around s (cp / 32)) := exists_around h (index_lt hmax)
  simp only [InsertEndsWell, w.runAt_eq, typeOf_eq, lengthOf_eq]
  cases hk : w.kind with
  | Full =>
    obtain ⟨he, ha⟩ := w.insert_full m hmax h hk
    exact iff_of_true (produces_of_adds he ha) trivial
  | Empty =>
    obtain ⟨t, he, hw, ha⟩ := w.insert_empty m h hmax hk
    exact produces_iff_of_adds he hw ha
  | Mixed =>
    by_cases hcap : s.mQuadCapacity = 0
    · exact iff_of_false (w.insert_borrowed m h hmax hk hcap) fun hw ↦ hw.1 hcap
    by_cases hf : s.quadWith cp = fullQuadMask
    · obtain ⟨t, he, hw, ha⟩ := w.insert_mixed_full m h hmax hk hcap hf
      rw [produces_iff_of_adds he hw ha]
      exact ⟨fun hr ↦ ⟨hcap, fun _ ↦ hr⟩, fun hw ↦ hw.2 hf⟩
    · obtain ⟨t, he, ha⟩ := w.insert_mixed m h hmax hk hcap hf
      exact iff_of_true (produces_of_adds he ha) ⟨hcap, fun he ↦ absurd he hf⟩

/-- `insert` adds a code point exactly when it rewrites buffers of its own. -/
theorem insert_exact (m : Memory) (h : s.WellFormed) (hmax : cp ≤ unicodeMax) :
    Produces (s.insert m cp) (s.members ∪ {cp}) ↔ InsertEndsWell s cp :=
  insert_produces_iff m h hmax

theorem insert_exact_emptySet : Produces
    (UnicodeSet.emptySet.insert ⟨fun _ ↦ ⟨.Empty, 0⟩, fun _ ↦ 0⟩ 33)
    (UnicodeSet.emptySet.members ∪ {33}) ↔ InsertEndsWell UnicodeSet.emptySet 33 :=
  insert_exact _ emptySet_wellFormed (by decide)

/-- The predefined set of the code point 0. -/
def predefinedZero : UnicodeSet :=
  .predefined [⟨.Mixed, 1⟩, ⟨.Empty, 34815⟩] [1]

/-- Inserting 1 into the predefined set {0} reads past the end of a buffer. -/
theorem insert_leaves_borrowed : predefinedZero.WellFormed ∧
    ¬Produces (predefinedZero.insert ⟨fun _ ↦ ⟨.Empty, 0⟩, fun _ ↦ 0⟩ 1)
      (predefinedZero.members ∪ {1}) := by
  constructor
  · exact predefined_wellFormed ⟨by simp,
      by simp [unicodeQuadCount, unicodeMax, quadBits], by simp, by simp [kindOf, fullQuadMask]⟩
  · rintro ⟨t, he, -⟩
    have hres : predefinedZero.insert ⟨fun _ ↦ ⟨.Empty, 0⟩, fun _ ↦ 0⟩ 1 = .error .memory := rfl
    rw [hres] at he
    cases he

end Outcome

end Parabix.UCD
