import Mathlib.Data.List.Nodup
import Parabix.RE.Multiplex

namespace Parabix.RE

open Library UCD

section Changes

/-- The predicate has another value at `k` than before. Below 0 it does not hold. -/
def changes (f : ℕ → Bool) (k : ℕ) : Bool := f k != (decide (0 < k) && f (k - 1))

/-- The value before `p`. -/
def before (f : ℕ → Bool) (p : ℕ) : Bool := decide (0 < p) && f (p - 1)

theorem before_succ (f : ℕ → Bool) (p : ℕ) : before f (p + 1) = f p := by
  simp [before]

theorem eq_before_of_not_changes {f : ℕ → Bool} {p x : ℕ} (hx : p ≤ x)
    (h : ∀ k, p ≤ k → k ≤ x → changes f k = false) : f x = before f p := by
  induction x with
  | zero =>
    have h0 := h 0 hx (Nat.le_refl 0)
    simp only [changes, bne_eq_false_iff_eq] at h0
    rw [h0, show p = 0 by omega]
    rfl
  | succ x ih =>
    have hs := h (x + 1) hx (Nat.le_refl _)
    simp only [changes, bne_eq_false_iff_eq] at hs
    rw [hs]
    by_cases hp : p = x + 1
    · rw [hp]
      rfl
    · rw [← ih (by omega) fun k h1 h2 ↦ h k h1 (by omega)]
      simp

theorem before_of_gap {f : ℕ → Bool} {p k : ℕ} (hpk : p ≤ k)
    (h : ∀ x, p ≤ x → x < k → changes f x = false) : before f k = before f p := by
  obtain rfl | hlt := Nat.eq_or_lt_of_le hpk
  · rfl
  · obtain ⟨x, rfl⟩ : ∃ x, k = x + 1 := ⟨k - 1, by omega⟩
    rw [before_succ, eq_before_of_not_changes (by omega) fun y h1 h2 ↦ h y h1 (by omega)]

theorem changes_iff {f : ℕ → Bool} {stop : ℕ} {is : List (ℕ × ℕ)} (h : Intervals f stop 0 is)
    (hstop : ∀ x, stop ≤ x → f x = false) (k : ℕ) :
    changes f k = true ↔ ∃ i ∈ is, i.1 = k ∨ i.2 + 1 = k := by
  have hlo := h.lo_iff (Nat.zero_le k)
  have hhi := h.hi_iff (Nat.zero_le k)
  have hor : (∃ i ∈ is, i.1 = k ∨ i.2 + 1 = k) ↔
      (∃ i ∈ is, i.1 = k) ∨ ∃ i ∈ is, i.2 + 1 = k := by
    simp only [and_or_left, exists_or]
  rw [hor, hlo, hhi]
  have hk : f k = true → k < stop := by
    intro hf
    by_contra hge
    rw [hstop k (by omega)] at hf
    cases hf
  have hp : f (k - 1) = true → k - 1 < stop := by
    intro hf
    by_contra hge
    rw [hstop (k - 1) (by omega)] at hf
    cases hf
  cases hfk : f k <;> cases hfp : f (k - 1) <;>
    simp only [changes, hfk, hfp, forall_const, Bool.false_eq_true, false_and, and_false] at hk hp ⊢
  all_goals simp
  all_goals omega

end Changes

section Breakpoints

variable {n : ℕ}

/-- The classes that change at `k`. -/
def bitsAt (bps : List (ℕ × BitVec n)) (k : ℕ) : BitVec n := (bps.lookup k).getD 0

theorem bitsAt_cons (k : ℕ) (v : BitVec n) (bps : List (ℕ × BitVec n)) (x : ℕ) :
    bitsAt ((k, v) :: bps) x = if x = k then v else bitsAt bps x := by
  unfold bitsAt
  rw [List.lookup_cons]
  by_cases h : x = k
  · simp [h]
  · simp [h, beq_false_of_ne h]

theorem bitsAt_of_lt {bps : List (ℕ × BitVec n)} {x : ℕ} (h : ∀ e ∈ bps, x < e.1) :
    bitsAt bps x = 0 := by
  induction bps with
  | nil => rfl
  | cons e bps ih =>
    rw [bitsAt_cons, if_neg, ih fun e he ↦ h e (List.mem_cons_of_mem _ he)]
    have := h e (List.mem_cons_self ..)
    omega

/-- The keys increase, and lie from `p` to the end of the code space. -/
structure Sorted (bps : List (ℕ × BitVec n)) (p : ℕ) : Prop where
  pairwise : bps.Pairwise fun a b ↦ a.1 < b.1
  bounds : ∀ e ∈ bps, p ≤ e.1 ∧ e.1 ≤ unicodeMax + 1

theorem Sorted.tail {k : ℕ} {v : BitVec n} {bps : List (ℕ × BitVec n)} {p : ℕ}
    (h : Sorted ((k, v) :: bps) p) : Sorted bps (k + 1) where
  pairwise := (List.pairwise_cons.1 h.pairwise).2
  bounds e he := ⟨(List.pairwise_cons.1 h.pairwise).1 e he,
    (h.bounds e (List.mem_cons_of_mem _ he)).2⟩

theorem mem_setBreakpoint {i key : ℕ} {bps : List (ℕ × BitVec n)} {e : ℕ × BitVec n}
    (h : e ∈ setBreakpoint i key bps) : e.1 = key ∨ ∃ e' ∈ bps, e'.1 = e.1 := by
  fun_induction setBreakpoint i key bps with
  | case1 =>
    simp only [List.mem_singleton] at h
    exact .inl (by rw [h])
  | case2 k v bps hlt =>
    obtain rfl | h := List.mem_cons.1 h
    · exact .inl rfl
    · exact .inr ⟨e, h, rfl⟩
  | case3 v bps hlt =>
    obtain rfl | h := List.mem_cons.1 h
    · exact .inl rfl
    · exact .inr ⟨e, List.mem_cons_of_mem _ h, rfl⟩
  | case4 k v bps hlt hne ih =>
    obtain rfl | h := List.mem_cons.1 h
    · exact .inr ⟨(k, v), List.mem_cons_self .., rfl⟩
    · obtain h | ⟨e', h, he⟩ := ih h
      · exact .inl h
      · exact .inr ⟨e', List.mem_cons_of_mem _ h, he⟩

theorem setBreakpoint_sorted (i : ℕ) {key p : ℕ} {bps : List (ℕ × BitVec n)}
    (h : Sorted bps p) (hp : p ≤ key) (hmax : key ≤ unicodeMax + 1) :
    Sorted (setBreakpoint i key bps) p := by
  refine ⟨?_, ?_⟩
  · have hpw := h.pairwise
    clear h
    fun_induction setBreakpoint i key bps with
    | case1 => simp
    | case2 k v bps hlt =>
      refine List.pairwise_cons.2 ⟨fun e he ↦ ?_, hpw⟩
      obtain rfl | he := List.mem_cons.1 he
      · exact hlt
      · exact Nat.lt_trans hlt ((List.pairwise_cons.1 hpw).1 e he)
    | case3 v bps hlt => exact List.pairwise_cons.2 (List.pairwise_cons.1 hpw)
    | case4 k v bps hlt hne ih =>
      obtain ⟨hk, hpw⟩ := List.pairwise_cons.1 hpw
      refine List.pairwise_cons.2 ⟨fun e he ↦ ?_, ih hpw⟩
      obtain he | ⟨e', he', heq⟩ := mem_setBreakpoint he
      · simp only [he]
        omega
      · have := hk e' he'
        simp only at this ⊢
        omega
  · intro e he
    obtain he | ⟨e', he', heq⟩ := mem_setBreakpoint he
    · omega
    · have := h.bounds e' he'
      omega

theorem bitsAt_setBreakpoint (i key : ℕ) (bps : List (ℕ × BitVec n))
    (h : bps.Pairwise fun a b ↦ a.1 < b.1) (x : ℕ) :
    bitsAt (setBreakpoint i key bps) x =
      if x = key then bitsAt bps x ||| BitVec.twoPow n i else bitsAt bps x := by
  fun_induction setBreakpoint i key bps with
  | case1 =>
    rw [bitsAt_cons]
    simp [bitsAt]
  | case2 k v bps hlt =>
    rw [bitsAt_cons]
    split_ifs with hx
    · have hz : bitsAt ((k, v) :: bps) x = 0 := by
        apply bitsAt_of_lt
        intro e he
        obtain rfl | he := List.mem_cons.1 he
        · exact hx ▸ hlt
        · exact hx ▸ Nat.lt_trans hlt ((List.pairwise_cons.1 h).1 e he)
      simp [hz]
    · rfl
  | case3 v bps hlt =>
    rw [bitsAt_cons, bitsAt_cons]
    split_ifs <;> rfl
  | case4 k v bps hlt hne ih =>
    rw [bitsAt_cons, bitsAt_cons, ih (List.pairwise_cons.1 h).2]
    split_ifs with h1 h2
    · omega
    · rfl
    · rfl
    · rfl

theorem addIntervals_spec {i : ℕ} (hi : i < n) {is : List (ℕ × ℕ)} {bps : List (ℕ × BitVec n)}
    (h : Sorted bps 0) (his : ∀ r ∈ is, r.1 ≤ r.2 ∧ r.2 ≤ unicodeMax) :
    Sorted (addIntervals i bps is) 0 ∧ ∀ k j, j < n →
      (bitsAt (addIntervals i bps is) k).getLsbD j = ((bitsAt bps k).getLsbD j ||
        decide (j = i ∧ ∃ r ∈ is, r.1 = k ∨ r.2 + 1 = k)) := by
  induction is generalizing bps with
  | nil => exact ⟨h, by simp [addIntervals]⟩
  | cons r is ih =>
    have hr := his r (List.mem_cons_self ..)
    have h1 := setBreakpoint_sorted i h (Nat.zero_le r.1) (by omega)
    have h2 := setBreakpoint_sorted i h1 (Nat.zero_le (r.2 + 1)) (by omega)
    obtain ⟨hs, hb⟩ := ih h2 fun r hr ↦ his r (List.mem_cons_of_mem _ hr)
    refine ⟨hs, fun k j hj ↦ ?_⟩
    rw [addIntervals, List.foldl_cons]
    rw [addIntervals] at hb
    rw [hb k j hj, bitsAt_setBreakpoint _ _ _ h1.pairwise, bitsAt_setBreakpoint _ _ _ h.pairwise]
    have hbit : (BitVec.twoPow n i).getLsbD j = decide (j = i) := by
      rw [BitVec.getLsbD_twoPow]
      simp [hi, eq_comm]
    have hsplit : decide (j = i ∧ ∃ r' ∈ r :: is, r'.1 = k ∨ r'.2 + 1 = k) =
        (decide (j = i ∧ (k = r.1 ∨ k = r.2 + 1)) ||
          decide (j = i ∧ ∃ r' ∈ is, r'.1 = k ∨ r'.2 + 1 = k)) := by
      rw [← Bool.decide_or, decide_eq_decide, ← and_or_left]
      simp only [List.mem_cons, exists_eq_or_imp, eq_comm (a := k)]
    rw [hsplit, ← Bool.or_assoc]
    congr 1
    split_ifs with h2 h1 h1
    · omega
    · simp [BitVec.getLsbD_or, hbit, h2]
    · simp [BitVec.getLsbD_or, hbit, h1]
    · simp [h1, h2]

/-- The breakpoints of the classes: each class is marked where its membership changes. -/
structure Marks (f : ℕ → ℕ → Bool) (bps : List (ℕ × BitVec n)) (p : ℕ) : Prop where
  sorted : Sorted bps p
  bits : ∀ k, p ≤ k → ∀ i < n, (bitsAt bps k).getLsbD i = changes (f i) k

theorem addBreakpoints_spec {i : ℕ} {cs : List CC} {bps : List (ℕ × BitVec n)}
    (hn : i + cs.length ≤ n) (hwf : ∀ c ∈ cs, c.set.WellFormed) (h : Sorted bps 0)
    (hnew : ∀ k j, i ≤ j → j < n → (bitsAt bps k).getLsbD j = false) :
    ∃ bps', addBreakpoints i cs bps = .ok bps' ∧ Sorted bps' 0 ∧ ∀ k j, j < n →
      (bitsAt bps' k).getLsbD j =
        if i ≤ j then (cs[j - i]?.map fun c ↦ changes c.contains k).getD false
        else (bitsAt bps k).getLsbD j := by
  induction cs generalizing i bps with
  | nil =>
    refine ⟨bps, rfl, h, fun k j hj ↦ ?_⟩
    split_ifs with hij
    · simpa using hnew k j hij hj
    · rfl
  | cons c cs ih =>
    have hc := hwf c (List.mem_cons_self ..)
    obtain ⟨is, he, his⟩ := UnicodeSet.intervals_spec hc.verified
    simp only [List.length_cons] at hn
    have hbelow : ∀ r ∈ is, r.1 ≤ r.2 ∧ r.2 ≤ unicodeMax := by
      intro r hr
      have := his.bounds r hr
      omega
    obtain ⟨hs, hb⟩ := addIntervals_spec (n := n) (i := i) (by omega) h hbelow
    have hch (k : ℕ) : changes c.contains k = decide (∃ r ∈ is, r.1 = k ∨ r.2 + 1 = k) := by
      rw [Bool.eq_iff_iff, decide_eq_true_eq]
      exact changes_iff his (fun x hx ↦ UnicodeSet.not_contains_of_gt hc.verified hx) k
    obtain ⟨bps', he', hs', hb'⟩ := ih (i := i + 1) (by omega)
      (fun c hc ↦ hwf c (List.mem_cons_of_mem _ hc)) hs (by
        intro k j hij hj
        rw [hb k j hj, hnew k j (by omega) hj]
        simp
        omega)
    refine ⟨bps', by rw [addBreakpoints, he, ok_bind, he'], hs', fun k j hj ↦ ?_⟩
    rw [hb' k j hj]
    obtain hlt | rfl | hgt := Nat.lt_trichotomy j i
    · rw [if_neg (by omega), if_neg (by omega), hb k j hj]
      simp [Nat.ne_of_lt hlt]
    · rw [if_neg (by omega), if_pos (Nat.le_refl _), hb k j hj, hnew k j (Nat.le_refl _) hj,
        Nat.sub_self]
      simp [hch]
    · rw [if_pos (by omega), if_pos (by omega), show j - i = (j - (i + 1)) + 1 by omega,
        List.getElem?_cons_succ]

/-- Membership in the class of a number. -/
def member (CCs : List CC) (i x : ℕ) : Bool := (CCs[i]?.map fun c ↦ c.contains x).getD false

theorem computeBreakpoints_spec {CCs : List CC} (hwf : ∀ c ∈ CCs, c.set.WellFormed) :
    ∃ bps, computeBreakpoints CCs = .ok bps ∧ Marks (member CCs) bps 0 := by
  obtain ⟨bps, he, hs, hb⟩ := addBreakpoints_spec (n := CCs.length) (i := 0)
    (by omega) hwf (⟨List.Pairwise.nil, by simp⟩ : Sorted [] 0) (by simp [bitsAt])
  refine ⟨bps, he, hs, fun k _ i hi ↦ ?_⟩
  rw [hb k i hi, if_pos (Nat.zero_le i), Nat.sub_zero, List.getElem?_eq_getElem hi]
  simp [changes, member, List.getElem?_eq_getElem hi]

end Breakpoints

section Planes

variable {m : Memory}

/-- A range behind all the members is inserted as it should be. -/
theorem insertRange_behind (m : Memory) {s : UnicodeSet} {lo hi : ℕ} (h : s.WellFormed)
    (hle : lo ≤ hi) (hmax : hi ≤ unicodeMax) (hbehind : ∀ x ∈ s.members, x < lo) :
    ∃ t, s.insertRange m lo hi = .ok t ∧ t.WellFormed ∧
      t.members = s.members ∪ {x | lo ≤ x ∧ x ≤ hi} := by
  have hw : RangeEndsWell s lo hi := by
    by_cases hd : lo / 32 = hi / 32
    · exact .inl hd
    · refine .inr (.inl ?_)
      have hq : s.quadAt (hi / 32) = 0 := by
        apply BitVec.eq_of_getLsbD_eq
        intro b hb
        have hnot : 32 * (hi / 32) + b ∉ s.members := by
          intro hmem
          have := hbehind _ hmem
          omega
        rw [UnicodeSet.mem_iff_quadAt h.verified, show (32 * (hi / 32) + b) / 32 = hi / 32 by omega,
          show (32 * (hi / 32) + b) % 32 = b by omega] at hnot
        simpa [BitVec.getLsbD_zero] using hnot
      rw [typeOf_eq, ← kindOf_eq_runAt h.verified (i := hi / 32) (index_lt hmax), hq]
      decide
  obtain ⟨t, he, ht, -, hm⟩ := insertRange_produces m h hle hmax hw
  exact ⟨t, he, ht, hm⟩

theorem insertRanges_spec (m : Memory) (idx : ℕ) {lo hi count : ℕ} (bit : ℕ) {planes : List CC}
    (hle : lo ≤ hi) (hmax : hi ≤ unicodeMax) (hcount : count = bit + planes.length)
    (hwf : ∀ P ∈ planes, P.set.WellFormed ∧ ∀ x, P.contains x = true → x < lo) :
    ∃ planes', insertRanges m idx lo hi count bit planes = .ok planes' ∧
      planes'.length = planes.length ∧ ∀ j P', planes'[j]? = some P' →
        ∃ P, planes[j]? = some P ∧ P'.set.WellFormed ∧ ∀ x, P'.contains x = true ↔
          P.contains x = true ∨ idx.testBit (bit + j) = true ∧ lo ≤ x ∧ x ≤ hi := by
  induction planes generalizing bit with
  | nil => exact ⟨[], rfl, rfl, by simp⟩
  | cons P planes ih =>
    obtain ⟨hP, hbehind⟩ := hwf P (List.mem_cons_self ..)
    obtain ⟨planes', he', hl', hp'⟩ := ih (bit + 1)
      (by simp only [List.length_cons] at hcount; omega)
      fun P hP ↦ hwf P (List.mem_cons_of_mem _ hP)
    have hfirst : ∃ P', insertPlane m idx lo hi count bit P = .ok P' ∧ P'.set.WellFormed ∧
        ∀ x, P'.contains x = true ↔
          P.contains x = true ∨ idx.testBit bit = true ∧ lo ≤ x ∧ x ≤ hi := by
      have hlt : bit < count := by
        simp only [List.length_cons] at hcount
        omega
      unfold insertPlane
      split_ifs with hbit
      · obtain ⟨t, he, ht, hm⟩ := insertRange_behind m hP hle hmax hbehind
        refine ⟨⟨t, P.alphabet⟩, by rw [he, ok_bind, pure_eq_ok], ht, fun x ↦ ?_⟩
        have hx : x ∈ t.members ↔ x ∈ P.set.members ∪ {x | lo ≤ x ∧ x ≤ hi} := by rw [hm]
        simp only [hbit.2, true_and]
        exact hx
      · refine ⟨P, rfl, hP, fun x ↦ ?_⟩
        have : idx.testBit bit = false := by simpa [hlt] using hbit
        simp [this]
    obtain ⟨P', he, hP', hx⟩ := hfirst
    refine ⟨P' :: planes', ?_, by simp [hl'], fun j Q hQ ↦ ?_⟩
    · rw [insertRanges, he, ok_bind, he', ok_bind, pure_eq_ok]
    · cases j with
      | zero =>
        obtain rfl : P' = Q := by simpa using hQ
        exact ⟨P, rfl, hP', hx⟩
      | succ j =>
        rw [List.getElem?_cons_succ] at hQ
        rw [List.getElem?_cons_succ, show bit + (j + 1) = bit + 1 + j by omega]
        exact hp' j Q hQ

end Planes

section Table

variable {n : ℕ} {f : ℕ → ℕ → Bool}

/-- The classes that a code point is in. -/
def Signs (f : ℕ → ℕ → Bool) (v : BitVec n) (c : ℕ) : Prop := ∀ i < n, v.getLsbD i = f i c

theorem Signs.unique {v w : BitVec n} {c : ℕ} (hv : Signs f v c) (hw : Signs f w c) : v = w := by
  apply BitVec.eq_of_getLsbD_eq
  intro i hi
  rw [hv i hi, hw i hi]

/-- The exclusive sets found among the code points below `p`, numbered in sequence. -/
structure Table (f : ℕ → ℕ → Bool) (map : List (BitVec n × ℕ)) (next p : ℕ) : Prop where
  ids : map.map Prod.snd = List.range next
  nodup : (map.map Prod.fst).Nodup
  zero : (0, 0) ∈ map
  next_le : next ≤ p + 1
  seen : ∀ e ∈ map, e.2 ≠ 0 → ∃ c < p, c ≤ unicodeMax ∧ Signs f e.1 c
  known : ∀ c < p, ∃ e ∈ map, Signs f e.1 c
  early : ∀ c < p, ∀ e ∈ map, Signs f e.1 c → e.2 ≤ c + 1

namespace Table

variable {map : List (BitVec n × ℕ)} {next p : ℕ}

theorem unique (h : Table f map next p) {e e' : BitVec n × ℕ} (he : e ∈ map) (he' : e' ∈ map)
    {c : ℕ} (hs : Signs f e.1 c) (hs' : Signs f e'.1 c) : e = e' :=
  List.inj_on_of_nodup_map h.nodup he he' (hs.unique hs')

theorem lt_next (h : Table f map next p) {e : BitVec n × ℕ} (he : e ∈ map) : e.2 < next := by
  have hm : e.2 ∈ map.map Prod.snd := List.mem_map_of_mem he
  rw [h.ids] at hm
  exact List.mem_range.1 hm

theorem inj_ids (h : Table f map next p) {e e' : BitVec n × ℕ} (he : e ∈ map) (he' : e' ∈ map)
    (hid : e.2 = e'.2) : e = e' := by
  have hn : (map.map Prod.snd).Nodup := by
    rw [h.ids]
    exact List.nodup_range
  exact List.inj_on_of_nodup_map hn he he' hid

theorem lookup_eq_some (h : Table f map next p) {v : BitVec n} {id : ℕ} :
    map.lookup v = some id ↔ (v, id) ∈ map := by
  have hn := h.nodup
  clear h
  induction map with
  | nil => simp
  | cons e map ih =>
    obtain ⟨w, k⟩ := e
    simp only [List.map_cons, List.nodup_cons] at hn
    rw [List.lookup_cons]
    by_cases hv : v = w
    · subst hv
      have hnot : (v, id) ∉ map := fun hm ↦ hn.1 (List.mem_map_of_mem hm)
      simp [hnot, eq_comm]
    · simp [beq_false_of_ne hv, ih hn.2, hv]

theorem extend (h : Table f map next p) {q : ℕ} (hpq : p ≤ q)
    (hk : ∀ c, p ≤ c → c < q → ∃ e ∈ map, Signs f e.1 c) : Table f map next q where
  ids := h.ids
  nodup := h.nodup
  zero := h.zero
  next_le := Nat.le_trans h.next_le (by omega)
  seen e he h0 := by
    obtain ⟨c, hc, hs⟩ := h.seen e he h0
    exact ⟨c, by omega, hs⟩
  known c hc := by
    by_cases hp : c < p
    · exact h.known c hp
    · exact hk c (by omega) hc
  early c hc e he hs := by
    by_cases hp : c < p
    · exact h.early c hp e he hs
    · have := h.lt_next he
      have := h.next_le
      omega

/-- A new exclusive set gets the next number. -/
theorem append (h : Table f map next p) {v : BitVec n} (hv : map.lookup v = none)
    (hs : Signs f v p) (hp : p ≤ unicodeMax) :
    Table f (map ++ [(v, next)]) (next + 1) (p + 1) where
  ids := by rw [List.map_append, h.ids, List.range_succ]; rfl
  nodup := by
    rw [List.map_append, List.nodup_append]
    refine ⟨h.nodup, by simp, ?_⟩
    intro a ha b hb
    obtain ⟨e, he, rfl⟩ := List.mem_map.1 ha
    obtain rfl : b = v := by simpa using hb
    intro heq
    have := h.lookup_eq_some.2 (show (b, e.2) ∈ map by rw [← heq]; exact he)
    rw [hv] at this
    cases this
  zero := List.mem_append_left _ h.zero
  next_le := by
    have := h.next_le
    omega
  seen e he h0 := by
    obtain he | he := List.mem_append.1 he
    · obtain ⟨c, hc, hs⟩ := h.seen e he h0
      exact ⟨c, by omega, hs⟩
    · obtain rfl := List.mem_singleton.1 he
      exact ⟨p, by omega, hp, hs⟩
  known c hc := by
    by_cases hcp : c = p
    · subst hcp
      exact ⟨(v, next), by simp, hs⟩
    · obtain ⟨e, he, hs⟩ := h.known c (by omega)
      exact ⟨e, List.mem_append_left _ he, hs⟩
  early c hc e he hsc := by
    have hnext := h.next_le
    obtain he | he := List.mem_append.1 he
    · by_cases hcp : c = p
      · have := h.lt_next he
        omega
      · exact h.early c (by omega) e he hsc
    · obtain rfl := List.mem_singleton.1 he
      by_cases hcp : c = p
      · simp only
        omega
      · obtain ⟨e', he', hs'⟩ := h.known c (by omega)
        have heq : e'.1 = v := hs'.unique hsc
        subst heq
        rw [h.lookup_eq_some.2 he'] at hv
        cases hv

end Table

end Table

section Sweep

variable {n : ℕ} {f : ℕ → ℕ → Bool} {m : Memory}

/-- Plane `j` holds the code points below `x` whose number has bit `j`. -/
def Planes (f : ℕ → ℕ → Bool) (map : List (BitVec n × ℕ)) (planes : List CC) (x : ℕ) : Prop :=
  ∀ j P, planes[j]? = some P → P.set.WellFormed ∧ ∀ c, P.contains c = true ↔
    c < x ∧ ∃ e ∈ map, e.2.testBit j = true ∧ Signs f e.1 c

/-- The exclusive sets inside each class. -/
def SetIDs (map : List (BitVec n × ℕ)) (ids : List (List ℕ)) : Prop :=
  ids.length = n ∧ ∀ i < n, ∀ id, id ∈ ids.getD i [] ↔ ∃ v, (v, id) ∈ map ∧ v.getLsbD i = true

/-- The state when the breakpoints below `p` are done. -/
structure Sweep.Inv (f : ℕ → ℕ → Bool) (st : Sweep n) (p : ℕ) : Prop where
  table : Table f st.CC_set_to_exclusive_set_map st.next_set_index p
  count : st.multiplexed_bit_count = st.multiplexedCCs.length
  bits : st.next_set_index ≤ 2 ^ st.multiplexedCCs.length
  current : (st.current_set, st.current_exclusive_set_idx) ∈ st.CC_set_to_exclusive_set_map
  signs : ∀ i < n, st.current_set.getLsbD i = before (f i) p
  lo : st.range_lo ≤ p
  pending : 0 < st.current_exclusive_set_idx → st.range_lo < p
  between : ∀ c, st.range_lo ≤ c → c < p → Signs f st.current_set c
  planes : Planes f st.CC_set_to_exclusive_set_map st.multiplexedCCs st.range_lo
  ids : SetIDs st.CC_set_to_exclusive_set_map st.exclusiveSetIDs

theorem Sweep.start_inv (f : ℕ → ℕ → Bool) (n : ℕ) : (Sweep.start n).Inv f 0 where
  table := ⟨rfl, by simp [Sweep.start], by simp [Sweep.start], Nat.le_refl _,
    by simp [Sweep.start], by simp, by simp⟩
  count := rfl
  bits := by simp [Sweep.start]
  current := by simp [Sweep.start]
  signs := by simp [Sweep.start, before]
  lo := Nat.le_refl 0
  pending := by simp [Sweep.start]
  between := by simp
  planes := by simp [Planes, Sweep.start]
  ids := by
    refine ⟨by simp [Sweep.start], fun i hi id ↦ ?_⟩
    simp [Sweep.start, List.getD_eq_getElem?_getD, hi]

variable {st : Sweep n} {p : ℕ}

/-- Between two breakpoints the code points are in the same classes. -/
theorem Sweep.Inv.signs_of_gap (h : st.Inv f p) {c : ℕ} (hlo : st.range_lo ≤ c)
    (hgap : ∀ k, p ≤ k → k ≤ c → ∀ i < n, changes (f i) k = false) : Signs f st.current_set c := by
  by_cases hp : c < p
  · exact h.between c hlo hp
  · intro i hi
    rw [h.signs i hi, eq_before_of_not_changes (by omega) fun k h1 h2 ↦ hgap k h1 h2 i hi]

theorem Sweep.close_spec (m : Memory) {k : ℕ} (h : st.Inv f p) (hpk : p ≤ k)
    (hk : k ≤ unicodeMax + 1)
    (hgap : ∀ x, p ≤ x → x < k → ∀ i < n, changes (f i) x = false) :
    ∃ planes, st.close m k = .ok { st with multiplexedCCs := planes } ∧
      planes.length = st.multiplexedCCs.length ∧
      Planes f st.CC_set_to_exclusive_set_map planes k := by
  have hsigns (c : ℕ) (hlo : st.range_lo ≤ c) (hlt : c < k) : Signs f st.current_set c :=
    h.signs_of_gap hlo fun x h1 h2 ↦ hgap x h1 (by omega)
  have hcur (c : ℕ) (hlo : st.range_lo ≤ c) (hlt : c < k) (j : ℕ) :
      (∃ e ∈ st.CC_set_to_exclusive_set_map, e.2.testBit j = true ∧ Signs f e.1 c) ↔
        st.current_exclusive_set_idx.testBit j = true := by
    constructor
    · rintro ⟨e, he, hbit, hs⟩
      rwa [h.table.unique he h.current hs (hsigns c hlo hlt)] at hbit
    · intro hbit
      exact ⟨_, h.current, hbit, hsigns c hlo hlt⟩
  have hlo := h.lo
  unfold Sweep.close
  split_ifs with hidx
  · have hpending := h.pending hidx
    obtain ⟨planes, he, hl, hp⟩ := insertRanges_spec m st.current_exclusive_set_idx 0
      (show st.range_lo ≤ k - 1 by omega) (by omega)
      (show st.multiplexed_bit_count = 0 + st.multiplexedCCs.length by rw [h.count, Nat.zero_add])
      fun P hP ↦ by
        obtain ⟨j, hj⟩ := List.mem_iff_getElem?.1 hP
        have := h.planes j P hj
        exact ⟨this.1, fun x hx ↦ ((this.2 x).1 hx).1⟩
    refine ⟨planes, by rw [he, ok_bind, pure_eq_ok], hl, fun j P' hP' ↦ ?_⟩
    obtain ⟨P, hP, hwf, hx⟩ := hp j P' hP'
    refine ⟨hwf, fun c ↦ ?_⟩
    rw [hx, (h.planes j P hP).2, Nat.zero_add]
    by_cases hc : c < st.range_lo
    · simp only [hc, true_and, show c < k by omega]
      constructor
      · intro hor
        obtain hor | hor := hor
        · exact hor
        · omega
      · exact .inl
    · by_cases hck : c < k
      · rw [hcur c (by omega) hck]
        simp only [hc, hck, false_and, false_or, true_and]
        constructor
        · exact fun hbit ↦ hbit.1
        · exact fun hbit ↦ ⟨hbit, by omega, by omega⟩
      · simp only [hc, hck, false_and, false_or, iff_false]
        omega
  · refine ⟨st.multiplexedCCs, rfl, rfl, fun j P hP ↦ ?_⟩
    obtain ⟨hwf, hx⟩ := h.planes j P hP
    refine ⟨hwf, fun c ↦ ?_⟩
    rw [hx]
    by_cases hc : c < st.range_lo
    · simp [hc, show c < k by omega]
    · by_cases hck : c < k
      · rw [hcur c (by omega) hck, show st.current_exclusive_set_idx = 0 by omega]
        simp [hc]
      · simp [hc, hck]

theorem sub_one_and_self (k : ℕ) : 2 ^ k &&& (2 ^ k - 1) = 0 := by
  rw [Nat.and_two_pow_sub_one_eq_mod, Nat.mod_self]

/-- Entering the exclusive set of a code point that is in the classes of `current_set`. -/
theorem Sweep.enter_inv {k : ℕ} (ht : Table f st.CC_set_to_exclusive_set_map st.next_set_index k)
    (hcount : st.multiplexed_bit_count = st.multiplexedCCs.length)
    (hbits : st.next_set_index ≤ 2 ^ st.multiplexedCCs.length)
    (hsigns : Signs f st.current_set k) (hk : k ≤ unicodeMax) (hlo : st.range_lo = k)
    (hplanes : Planes f st.CC_set_to_exclusive_set_map st.multiplexedCCs k)
    (hids : SetIDs st.CC_set_to_exclusive_set_map st.exclusiveSetIDs) :
    st.enter.Inv f (k + 1) := by
  have hbetween : ∀ c, st.range_lo ≤ c → c < k + 1 → Signs f st.current_set c := by
    intro c h1 h2
    rwa [show c = k by omega]
  unfold Sweep.enter
  cases hl : st.CC_set_to_exclusive_set_map.lookup st.current_set with
  | some idx =>
    have hmem := ht.lookup_eq_some.1 hl
    have hext := ht.extend (q := k + 1) (by omega) fun c h1 h2 ↦
      ⟨_, hmem, by rwa [show c = k by omega]⟩
    exact {
      table := hext
      count := hcount
      bits := hbits
      current := hmem
      signs := fun i hi ↦ by rw [before_succ, hsigns i hi]
      lo := by simp only; omega
      pending := fun _ ↦ by simp only; omega
      between := hbetween
      planes := by simpa only [hlo] using hplanes
      ids := hids }
  | none =>
    have happ := ht.append hl hsigns hk
    have hnew (c : ℕ) (hc : c < k) : ¬ Signs f st.current_set c := by
      intro hs
      obtain ⟨⟨v, id⟩, he, hs'⟩ := ht.known c hc
      have hv : v = st.current_set := hs'.unique hs
      rw [hv, ← ht.lookup_eq_some, hl] at he
      cases he
    have hexists (j c : ℕ) (hc : c < k) :
        (∃ e ∈ st.CC_set_to_exclusive_set_map ++ [(st.current_set, st.next_set_index)],
          e.2.testBit j = true ∧ Signs f e.1 c) ↔
        ∃ e ∈ st.CC_set_to_exclusive_set_map, e.2.testBit j = true ∧ Signs f e.1 c := by
      simp only [List.mem_append, List.mem_singleton, or_and_right, exists_or, exists_eq_left,
        hnew c hc, and_false, or_false]
    have hpow : ¬ st.next_set_index &&& (st.next_set_index - 1) = 0 →
        st.next_set_index + 1 ≤ 2 ^ st.multiplexedCCs.length := by
      intro hne
      by_contra hgt
      rw [show st.next_set_index = 2 ^ st.multiplexedCCs.length by omega, sub_one_and_self] at hne
      exact hne rfl
    exact {
      table := happ
      count := by
        simp only
        split_ifs <;> simp [hcount]
      bits := by
        simp only
        split_ifs with hp
        · rw [List.length_append, List.length_singleton, Nat.pow_succ]
          have := Nat.one_le_two_pow (n := st.multiplexedCCs.length)
          omega
        · exact hpow hp
      current := by simp
      signs := fun i hi ↦ by rw [before_succ, hsigns i hi]
      lo := by simp only; omega
      pending := fun _ ↦ by simp only; omega
      between := hbetween
      planes := by
        intro j P hP
        have hold : st.multiplexedCCs[j]? = some P ∨
            j = st.multiplexedCCs.length ∧ P = .empty unicodeAlphabet := by
          simp only at hP
          split_ifs at hP
          · rw [List.getElem?_append] at hP
            split_ifs at hP with hj
            · exact .inl hP
            · obtain ⟨hj', hP⟩ := List.getElem?_eq_some_iff.1 hP
              simp only [List.length_singleton] at hj'
              refine .inr ⟨by omega, ?_⟩
              rw [← hP]
              simp
          · exact .inl hP
        obtain hP | ⟨rfl, rfl⟩ := hold
        · refine ⟨(hplanes j P hP).1, fun c ↦ ?_⟩
          rw [(hplanes j P hP).2, hlo]
          refine and_congr_right fun hc ↦ ?_
          exact (hexists j c hc).symm
        · refine ⟨emptySet_wellFormed, fun c ↦ ?_⟩
          have hno : (CC.empty unicodeAlphabet).contains c = false := by
            have : c ∉ UnicodeSet.emptySet.members := by
              rw [members_emptySet]
              exact Set.notMem_empty c
            exact Bool.eq_false_iff.2 this
          rw [hno, hlo]
          simp only [Bool.false_eq_true, false_iff, not_and]
          intro hc hex
          obtain ⟨e, he, hbit, -⟩ := (hexists _ c hc).1 hex
          have := ht.lt_next he
          rw [Nat.testBit_lt_two_pow (by omega)] at hbit
          cases hbit
      ids := by
        refine ⟨by simp [hids.1], fun i hi id ↦ ?_⟩
        have hi' : i < st.exclusiveSetIDs.length := by rw [hids.1]; exact hi
        have hold := hids.2 i hi id
        simp only [List.getD_eq_getElem?_getD, List.getElem?_mapIdx,
          List.getElem?_eq_getElem hi', Option.map_some, Option.getD_some] at hold ⊢
        simp only [List.mem_append, List.mem_singleton, Prod.mk.injEq, or_and_right, exists_or,
          ← hold, and_assoc, exists_eq_left]
        split_ifs with hb
        · simp [hb]
        · simp [hb] }

/-- What the sweep leaves: all code points are numbered, and held by the planes of the bits of
their numbers. -/
structure Sweep.Done (f : ℕ → ℕ → Bool) (st : Sweep n) : Prop where
  table : Table f st.CC_set_to_exclusive_set_map st.next_set_index (unicodeMax + 1)
  bits : st.next_set_index ≤ 2 ^ st.multiplexedCCs.length
  planes : Planes f st.CC_set_to_exclusive_set_map st.multiplexedCCs (unicodeMax + 1)
  ids : SetIDs st.CC_set_to_exclusive_set_map st.exclusiveSetIDs

theorem Sweep.run_done (m : Memory) (hend : ∀ i < n, f i (unicodeMax + 1) = false)
    {bps : List (ℕ × BitVec n)} (h : st.Inv f p) (hp : p ≤ unicodeMax + 1)
    (hm : Marks f bps p) : ∃ st', bps.foldlM (Sweep.step m) st = .ok st' ∧ st'.Done f := by
  induction bps generalizing st p with
  | nil =>
    have hgap (x : ℕ) (hx : p ≤ x) (i : ℕ) (hi : i < n) : changes (f i) x = false := by
      rw [← hm.bits x hx i hi]
      exact BitVec.getLsbD_zero
    have hsigns (c : ℕ) (hc : st.range_lo ≤ c) : Signs f st.current_set c :=
      h.signs_of_gap hc fun x h1 _ ↦ hgap x h1
    have hcur := h.current
    have hzero : st.current_set = 0 := by
      have hlo := h.lo
      refine (hsigns (unicodeMax + 1) (by omega)).unique fun i hi ↦ ?_
      rw [hend i hi]
      exact BitVec.getLsbD_zero
    have hidx : st.current_exclusive_set_idx = 0 := by
      have := h.table.lookup_eq_some.2 h.current
      rw [hzero, h.table.lookup_eq_some.2 h.table.zero] at this
      exact (Option.some.inj this).symm
    obtain ⟨planes, he, hl, hplanes⟩ := Sweep.close_spec m h hp (Nat.le_refl _)
      fun x h1 _ ↦ hgap x h1
    rw [Sweep.close, if_neg (by omega), Except.ok.injEq] at he
    refine ⟨st, rfl, ?_, h.bits, ?_, h.ids⟩
    · exact h.table.extend hp fun c h1 _ ↦
        ⟨_, hcur, hsigns c (Nat.le_trans h.lo h1)⟩
    · rw [he]
      exact hplanes
  | cons bp bps ih =>
    obtain ⟨k, v⟩ := bp
    obtain ⟨hpk, hkmax⟩ := hm.sorted.bounds (k, v) (List.mem_cons_self ..)
    simp only at hpk hkmax
    have htail := hm.sorted.tail
    have hgap (x : ℕ) (hx : p ≤ x) (hlt : x < k) (i : ℕ) (hi : i < n) :
        changes (f i) x = false := by
      rw [← hm.bits x hx i hi, bitsAt_of_lt]
      · exact BitVec.getLsbD_zero
      · intro e he
        obtain rfl | he := List.mem_cons.1 he
        · exact hlt
        · have := (htail.bounds e he).1
          omega
    have hbits (i : ℕ) (hi : i < n) : v.getLsbD i = changes (f i) k := by
      rw [← hm.bits k hpk i hi, bitsAt_cons, if_pos rfl]
    obtain ⟨planes, he, hl, hplanes⟩ := Sweep.close_spec m h hpk hkmax hgap
    have htable := h.table.extend hpk fun c h1 h2 ↦
      ⟨_, h.current, h.signs_of_gap (Nat.le_trans h.lo h1) fun x h3 h4 ↦ hgap x h3 (by omega)⟩
    rw [List.foldlM_cons, Sweep.step, he]
    simp only [ok_bind]
    split_ifs with hmax
    · have hkeq : k = unicodeMax + 1 := by omega
      have hnil : bps = [] := by
        cases bps with
        | nil => rfl
        | cons e es =>
          have := htail.bounds e (List.mem_cons_self ..)
          omega
      subst hkeq hnil
      exact ⟨_, rfl, htable, by rw [hl]; exact h.bits, hplanes, h.ids⟩
    · rw [pure_eq_ok, ok_bind]
      refine ih (p := k + 1) ?_ (by omega) ⟨htail, ?_⟩
      · refine Sweep.enter_inv htable (by simp only; rw [h.count, hl]) (by rw [hl]; exact h.bits)
          ?_ (by omega) rfl hplanes h.ids
        intro i hi
        simp only [BitVec.getLsbD_xor, hbits i hi, h.signs i hi]
        rw [← before_of_gap hpk fun x h1 h2 ↦ hgap x h1 h2 i hi]
        unfold changes before
        cases f i k <;> cases (decide (0 < k) && f i (k - 1)) <;> rfl
      · intro x hx i hi
        rw [← hm.bits x (by omega) i hi, bitsAt_cons, if_neg (by omega)]

end Sweep

end Parabix.RE
