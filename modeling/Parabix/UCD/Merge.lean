import Parabix.UCD.QuadIterator
import Parabix.UCD.Vectors

namespace Parabix.UCD

open Library Library.RunLength

/-- What one branch of a merge does with the next quads of its two cursors, and
whether it reports a change of the first operand. -/
inductive Action where
  | run (type : RunType) (changed : Bool)
  | left (f : BitQuad → BitQuad) (changed : Bool)
  | right (f : BitQuad → BitQuad) (changed : Bool)
  | both (f : BitQuad → BitQuad → BitQuad) (changed : BitQuad → BitQuad → Bool)

structure Vectors where
  runs : List run_t
  quads : List BitQuad
  changed : Bool
deriving DecidableEq, Repr

def Vectors.appendQuad (acc : Vectors) (quad : BitQuad) : Vectors :=
  let (quads, runs) := UCD.appendQuad quad acc.quads acc.runs
  { acc with runs, quads }

def Vectors.appendRun (acc : Vectors) (type : RunType) (length : ℕ) : Vectors :=
  { acc with runs := UCD.appendRun type length acc.runs }

def Vectors.change (acc : Vectors) (changed : Bool) : Vectors :=
  { acc with changed := acc.changed || changed }

def copyQuads (f : BitQuad → BitQuad) :
    ℕ → QuadIterator → Vectors → Except Fault (QuadIterator × Vectors)
  | 0, it, acc => .ok (it, acc)
  | n + 1, it, acc => do
    let q ← it.quad
    copyQuads f n (it.advance 1) (acc.appendQuad (f q))

def mergeQuads (f : BitQuad → BitQuad → BitQuad) (changed : BitQuad → BitQuad → Bool) :
    ℕ → QuadIterator → QuadIterator → Vectors →
      Except Fault (QuadIterator × QuadIterator × Vectors)
  | 0, i1, i2, acc => .ok (i1, i2, acc)
  | n + 1, i1, i2, acc => do
    let q1 ← i1.quad
    let q2 ← i2.quad
    mergeQuads f changed n (i1.advance 1) (i2.advance 1)
      ((acc.change (changed q1 q2)).appendQuad (f q1 q2))

def Action.perform (n : ℕ) (i1 i2 : QuadIterator) (acc : Vectors) :
    Action → Except Fault (QuadIterator × QuadIterator × Vectors)
  | .run type changed =>
    .ok (i1.advance n, i2.advance n, (acc.change changed).appendRun type n)
  | .left f changed => do
    let (i1, acc) ← copyQuads f n i1 (acc.change changed)
    return (i1, i2.advance n, acc)
  | .right f changed => do
    let (i2, acc) ← copyQuads f n i2 (acc.change changed)
    return (i1.advance n, i2, acc)
  | .both f changed => mergeQuads f changed n i1 i2 acc

def merge (action : RunType → RunType → Action) :
    ℕ → QuadIterator → QuadIterator → Vectors → Except Fault Vectors
  | 0, _, _, _ => .error .fuel
  | fuel + 1, i1, i2, acc =>
    let n := min i1.mRemaining i2.mRemaining
    if n = 0 then
      .ok acc
    else do
      let (i1, i2, acc) ← (action i1.mType i2.mType).perform n i1 i2 acc
      merge action fuel i1 i2 acc

/-- A merge passes at least one quad of the code space in each round. -/
def mergeSets (action : RunType → RunType → Action) (s other : UnicodeSet) :
    Except Fault Vectors :=
  merge action (unicodeQuadCount + 1) s.quadBegin other.quadBegin ⟨[], [], false⟩

section Merge

variable {g : BitQuad → BitQuad → BitQuad} {c : BitQuad → BitQuad → Bool}

/-- On quads of the given kinds the action computes `g` and reports `c`, and it
reads the quads of Mixed runs only. -/
def Action.Computes (g : BitQuad → BitQuad → BitQuad) (c : BitQuad → BitQuad → Bool)
    (t1 t2 : RunType) : Action → Prop
  | .run type changed => ∃ a, fill type = some a ∧
      ∀ q1 q2, kindOf q1 = t1 → kindOf q2 = t2 → g q1 q2 = a ∧ c q1 q2 = changed
  | .left f changed => t1 = .Mixed ∧
      ∀ q1 q2, kindOf q1 = t1 → kindOf q2 = t2 → g q1 q2 = f q1 ∧ c q1 q2 = changed
  | .right f changed => t2 = .Mixed ∧
      ∀ q1 q2, kindOf q1 = t1 → kindOf q2 = t2 → g q1 q2 = f q2 ∧ c q1 q2 = changed
  | .both f changed => (t1 = .Mixed ∧ t2 = .Mixed) ∧
      ∀ q1 q2, kindOf q1 = t1 → kindOf q2 = t2 → g q1 q2 = f q1 q2 ∧ c q1 q2 = changed q1 q2

/-- The vectors hold a prefix of the code space, with the changes seen so far. -/
structure Holds (acc : Vectors) (cells : List BitQuad) (changes : List Bool) : Prop where
  toPrefix : Prefix acc.runs acc.quads cells
  canonical : Canonical acc.runs
  changed : acc.changed = changes.any id

theorem Holds.appendQuad {acc : Vectors} {cs : List BitQuad} {bs : List Bool}
    (h : Holds acc cs bs) (q : BitQuad) : Holds (acc.appendQuad q) (cs ++ [q]) bs :=
  ⟨h.toPrefix.appendQuad q, appendQuad_canonical q _ h.canonical, h.changed⟩

theorem Holds.appendRun {acc : Vectors} {cs : List BitQuad} {bs : List Bool}
    (h : Holds acc cs bs) {type : RunType} {a : BitQuad} (ha : fill type = some a) (n : ℕ) :
    Holds (acc.appendRun type n) (cs ++ List.replicate n a) bs :=
  ⟨h.toPrefix.appendRun ha n, appendRun_canonical h.canonical, h.changed⟩

theorem Holds.change {acc : Vectors} {cs : List BitQuad} {bs : List Bool}
    (h : Holds acc cs bs) (b : Bool) : Holds (acc.change b) cs (bs ++ [b]) :=
  ⟨h.toPrefix, h.canonical, by simp [Vectors.change, h.changed]⟩

/-- Reporting one change for many quads, at least one, reports it for each. -/
theorem Holds.replicate {acc : Vectors} {cs : List BitQuad} {bs : List Bool} {b : Bool}
    {n : ℕ} (h : Holds acc cs (bs ++ [b])) (hn : 0 < n) :
    Holds acc cs (bs ++ List.replicate n b) := by
  refine ⟨h.toPrefix, h.canonical, ?_⟩
  rw [h.changed, List.any_append, List.any_append]
  cases b <;> simp [List.any_replicate, Nat.ne_of_gt hn]

/-- A cursor with `n` Mixed quads ahead in its run, unless `n` is zero. -/
structure Ahead (it : QuadIterator) (n : ℕ) : Prop where
  valid : it.Valid
  type : 0 < n → it.mType = .Mixed
  le : n ≤ it.mRemaining

theorem Ahead.quad {it : QuadIterator} {n : ℕ} (h : Ahead it (n + 1)) :
    ∃ q cs, it.quad = .ok q ∧ it.cells = q :: cs :=
  QuadIterator.quad_eq h.valid (h.type (Nat.succ_pos n)) (Nat.lt_of_lt_of_le (Nat.succ_pos n) h.le)

theorem Ahead.advance {it : QuadIterator} {n : ℕ} (h : Ahead it (n + 1)) :
    Ahead (it.advance 1) n ∧ (it.advance 1).cells = it.cells.drop 1 := by
  have hle := h.le
  have hl : 1 ≤ it.cells.length := le_trans (by omega) (QuadIterator.remaining_le h.valid)
  refine ⟨⟨QuadIterator.advance_valid h.valid hl, fun hn ↦ ?_, ?_⟩,
    QuadIterator.cells_advance h.valid hl⟩
  · rw [(QuadIterator.advance_within h.valid (by omega)).1]
    exact h.type (Nat.succ_pos n)
  · rcases Nat.eq_zero_or_pos n with rfl | hn
    · exact Nat.zero_le _
    · rw [(QuadIterator.advance_within h.valid (by omega)).2]
      omega

theorem copyQuads_spec (f : BitQuad → BitQuad) {n : ℕ} {it : QuadIterator} {acc : Vectors}
    {cs : List BitQuad} {bs : List Bool} (ha : Ahead it n) (h : Holds acc cs bs) :
    ∃ it' acc', copyQuads f n it acc = .ok (it', acc') ∧ it'.Valid ∧
      it'.cells = it.cells.drop n ∧ Holds acc' (cs ++ (it.cells.take n).map f) bs := by
  induction n generalizing it acc cs with
  | zero => exact ⟨it, acc, rfl, ha.valid, rfl, by simpa using h⟩
  | succ n ih =>
    obtain ⟨q, ds, hq, hc⟩ := ha.quad
    obtain ⟨ha', hd⟩ := ha.advance
    obtain ⟨it', acc', he, hv', hc', h'⟩ := ih ha' (h.appendQuad (f q))
    rw [hd, hc] at hc' h'
    refine ⟨it', acc', by simp only [copyQuads, hq, ok_bind, he], hv', ?_, ?_⟩
    · rw [hc', hc]
      rfl
    · simpa [hc] using h'

theorem mergeQuads_spec (f : BitQuad → BitQuad → BitQuad) (b : BitQuad → BitQuad → Bool) {n : ℕ}
    {i1 i2 : QuadIterator} {acc : Vectors} {cs : List BitQuad} {bs : List Bool}
    (h1 : Ahead i1 n) (h2 : Ahead i2 n) (h : Holds acc cs bs) :
    ∃ i1' i2' acc', mergeQuads f b n i1 i2 acc = .ok (i1', i2', acc') ∧ i1'.Valid ∧ i2'.Valid ∧
      i1'.cells = i1.cells.drop n ∧ i2'.cells = i2.cells.drop n ∧
      Holds acc' (cs ++ List.zipWith f (i1.cells.take n) (i2.cells.take n))
        (bs ++ List.zipWith b (i1.cells.take n) (i2.cells.take n)) := by
  induction n generalizing i1 i2 acc cs bs with
  | zero => exact ⟨i1, i2, acc, rfl, h1.valid, h2.valid, rfl, rfl, by simpa using h⟩
  | succ n ih =>
    obtain ⟨q1, ds1, hq1, hc1⟩ := h1.quad
    obtain ⟨q2, ds2, hq2, hc2⟩ := h2.quad
    obtain ⟨h1', hd1⟩ := h1.advance
    obtain ⟨h2', hd2⟩ := h2.advance
    obtain ⟨i1', i2', acc', he, hv1, hv2, hr1, hr2, h'⟩ :=
      ih h1' h2' ((h.change (b q1 q2)).appendQuad (f q1 q2))
    rw [hd1, hc1] at hr1 h'
    rw [hd2, hc2] at hr2 h'
    refine ⟨i1', i2', acc', by simp only [mergeQuads, hq1, hq2, ok_bind, he], hv1, hv2, ?_, ?_, ?_⟩
    · rw [hr1, hc1]
      rfl
    · rw [hr2, hc2]
      rfl
    · simpa [hc1, hc2] using h'

/-- Cell by cell equal functions, over two stretches of quads of known kinds. -/
theorem zipWith_congr {γ : Type} {f f' : BitQuad → BitQuad → γ} {t1 t2 : RunType}
    {xs ys : List BitQuad} (hx : ∀ q ∈ xs, kindOf q = t1) (hy : ∀ q ∈ ys, kindOf q = t2)
    (hf : ∀ q1 q2, kindOf q1 = t1 → kindOf q2 = t2 → f q1 q2 = f' q1 q2) :
    List.zipWith f xs ys = List.zipWith f' xs ys := by
  induction xs generalizing ys with
  | nil => rfl
  | cons x xs ih =>
    cases ys with
    | nil => rfl
    | cons y ys =>
      simp only [List.mem_cons, forall_eq_or_imp] at hx hy
      simp only [List.zipWith_cons_cons, ih hx.2 hy.2, hf x y hx.1 hy.1]

theorem zipWith_fst {γ : Type} (f : BitQuad → γ) {xs ys : List BitQuad}
    (h : xs.length = ys.length) : List.zipWith (fun x _ ↦ f x) xs ys = xs.map f := by
  apply List.ext_getElem (by simp [h])
  intro i _ _
  simp

theorem zipWith_snd {γ : Type} (f : BitQuad → γ) {xs ys : List BitQuad}
    (h : xs.length = ys.length) : List.zipWith (fun _ y ↦ f y) xs ys = ys.map f := by
  apply List.ext_getElem (by simp [h])
  intro i _ _
  simp

theorem zipWith_const {γ : Type} (a : γ) {xs ys : List BitQuad} {n : ℕ} (hx : xs.length = n)
    (hy : ys.length = n) : List.zipWith (fun _ _ ↦ a) xs ys = List.replicate n a := by
  rw [zipWith_fst (fun _ ↦ a) (hx.trans hy.symm), List.map_const', hx]

theorem perform_spec {n : ℕ} {i1 i2 : QuadIterator} {acc : Vectors} {cs : List BitQuad}
    {bs : List Bool} {action : Action} (h1 : i1.Valid) (h2 : i2.Valid) (hn : 0 < n)
    (hn1 : n ≤ i1.mRemaining) (hn2 : n ≤ i2.mRemaining)
    (ha : action.Computes g c i1.mType i2.mType) (h : Holds acc cs bs) :
    ∃ i1' i2' acc', action.perform n i1 i2 acc = .ok (i1', i2', acc') ∧ i1'.Valid ∧ i2'.Valid ∧
      i1'.cells = i1.cells.drop n ∧ i2'.cells = i2.cells.drop n ∧
      Holds acc' (cs ++ List.zipWith g (i1.cells.take n) (i2.cells.take n))
        (bs ++ List.zipWith c (i1.cells.take n) (i2.cells.take n)) := by
  have hc1 := hn1.trans (QuadIterator.remaining_le h1)
  have hc2 := hn2.trans (QuadIterator.remaining_le h2)
  have hl1 : (i1.cells.take n).length = n := List.length_take_of_le hc1
  have hl2 : (i2.cells.take n).length = n := List.length_take_of_le hc2
  have hk1 := QuadIterator.kindOf_take h1 hn1
  have hk2 := QuadIterator.kindOf_take h2 hn2
  have hv1 := QuadIterator.advance_valid h1 hc1
  have hv2 := QuadIterator.advance_valid h2 hc2
  have hd1 := QuadIterator.cells_advance h1 hc1
  have hd2 := QuadIterator.cells_advance h2 hc2
  cases action with
  | run type changed =>
    obtain ⟨a, hf, ha⟩ := ha
    rw [zipWith_congr hk1 hk2 fun q1 q2 e1 e2 ↦ (ha q1 q2 e1 e2).1,
      zipWith_congr hk1 hk2 fun q1 q2 e1 e2 ↦ (ha q1 q2 e1 e2).2,
      zipWith_const _ hl1 hl2, zipWith_const _ hl1 hl2]
    exact ⟨_, _, _, rfl, hv1, hv2, hd1, hd2, ((h.change changed).replicate hn).appendRun hf n⟩
  | left f changed =>
    obtain ⟨ht, ha⟩ := ha
    obtain ⟨i1', acc', he, hv1', hd1', h'⟩ :=
      copyQuads_spec f ⟨h1, fun _ ↦ ht, hn1⟩ ((h.change changed).replicate hn)
    rw [zipWith_congr hk1 hk2 fun q1 q2 e1 e2 ↦ (ha q1 q2 e1 e2).1,
      zipWith_congr hk1 hk2 fun q1 q2 e1 e2 ↦ (ha q1 q2 e1 e2).2,
      zipWith_const _ hl1 hl2, zipWith_fst _ (hl1.trans hl2.symm)]
    refine ⟨i1', _, acc', ?_, hv1', hv2, hd1', hd2, h'⟩
    simp only [Action.perform, he, ok_bind, pure_eq_ok]
  | right f changed =>
    obtain ⟨ht, ha⟩ := ha
    obtain ⟨i2', acc', he, hv2', hd2', h'⟩ :=
      copyQuads_spec f ⟨h2, fun _ ↦ ht, hn2⟩ ((h.change changed).replicate hn)
    rw [zipWith_congr hk1 hk2 fun q1 q2 e1 e2 ↦ (ha q1 q2 e1 e2).1,
      zipWith_congr hk1 hk2 fun q1 q2 e1 e2 ↦ (ha q1 q2 e1 e2).2,
      zipWith_const _ hl1 hl2, zipWith_snd _ (hl1.trans hl2.symm)]
    refine ⟨_, i2', acc', ?_, hv1, hv2', hd1, hd2', h'⟩
    simp only [Action.perform, he, ok_bind, pure_eq_ok]
  | both f changed =>
    obtain ⟨ht, ha⟩ := ha
    rw [zipWith_congr hk1 hk2 fun q1 q2 e1 e2 ↦ (ha q1 q2 e1 e2).1,
      zipWith_congr hk1 hk2 fun q1 q2 e1 e2 ↦ (ha q1 q2 e1 e2).2]
    exact mergeQuads_spec f changed ⟨h1, fun _ ↦ ht.1, hn1⟩ ⟨h2, fun _ ↦ ht.2, hn2⟩ h

theorem merge_spec {action : RunType → RunType → Action}
    (ha : ∀ t1 t2, (action t1 t2).Computes g c t1 t2) {fuel : ℕ} {i1 i2 : QuadIterator}
    {acc : Vectors} {cs : List BitQuad} {bs : List Bool} (h1 : i1.Valid) (h2 : i2.Valid)
    (hl : i1.cells.length = i2.cells.length) (hf : i1.cells.length < fuel) (h : Holds acc cs bs) :
    ∃ acc', merge action fuel i1 i2 acc = .ok acc' ∧
      Holds acc' (cs ++ List.zipWith g i1.cells i2.cells)
        (bs ++ List.zipWith c i1.cells i2.cells) := by
  induction fuel generalizing i1 i2 acc cs bs with
  | zero => omega
  | succ fuel ih =>
    unfold merge
    by_cases hn : min i1.mRemaining i2.mRemaining = 0
    · have hnil : i1.cells = [] := by
        by_contra hne
        have hp1 := QuadIterator.remaining_pos h1 hne
        have hp2 := QuadIterator.remaining_pos h2 fun he ↦
          hne (List.length_eq_zero_iff.mp (by rw [hl, he, List.length_nil]))
        omega
      refine ⟨acc, if_pos hn, ?_⟩
      simpa [hnil] using h
    · have hle1 := QuadIterator.remaining_le h1
      obtain ⟨i1', i2', acc', he, hv1, hv2, hd1, hd2, h'⟩ := perform_spec h1 h2
        (Nat.pos_of_ne_zero hn) (Nat.min_le_left _ _) (Nat.min_le_right _ _) (ha _ _) h
      obtain ⟨acc'', he', h''⟩ := ih hv1 hv2 (by rw [hd1, hd2, List.length_drop, List.length_drop, hl])
        (by rw [hd1, List.length_drop]; omega) h'
      refine ⟨acc'', ?_, ?_⟩
      · simp only [hn, if_false, he, ok_bind, he']
      · rw [hd1, hd2, ← List.take_zipWith, ← List.drop_zipWith, ← List.take_zipWith,
          ← List.drop_zipWith, List.append_assoc, List.append_assoc, List.take_append_drop,
          List.take_append_drop] at h''
        exact h''

theorem mergeSets_spec {action : RunType → RunType → Action}
    (ha : ∀ t1 t2, (action t1 t2).Computes g c t1 t2) {s t : UnicodeSet}
    (hs : Verified s.runs s.quads) (ht : Verified t.runs t.quads) :
    ∃ acc, mergeSets action s t = .ok acc ∧
      Holds acc (List.zipWith g s.cells t.cells) (List.zipWith c s.cells t.cells) := by
  obtain ⟨hv1, hc1⟩ := UnicodeSet.quadBegin_valid hs
  obtain ⟨hv2, hc2⟩ := UnicodeSet.quadBegin_valid ht
  have hl1 : s.cells.length = unicodeQuadCount := hs.length_cells
  have hl2 : t.cells.length = unicodeQuadCount := ht.length_cells
  have h := merge_spec ha hv1 hv2 (by rw [hc1, hc2, hl1, hl2])
    (show _ < unicodeQuadCount + 1 by rw [hc1, hl1]; exact Nat.lt_succ_self _)
    (⟨Prefix.nil, ⟨by simp, List.isChain_nil⟩, rfl⟩ : Holds ⟨[], [], false⟩ [] [])
  simp only [hc1, hc2, List.nil_append] at h
  exact h

end Merge

end Parabix.UCD
