import Mathlib.Order.Lattice
import Parabix.Library.IndexedRun

namespace Parabix.RE

open Library.BitStream

/-- Where a marker stands: at the last position of what was matched, at the code unit after it, or
at the position of the character after it. -/
inductive Position where
  | AtEnd
  | AtNextCodeUnit
  | AtNextChar
deriving DecidableEq, Repr

structure Marker where
  stream : Stream
  position : Position

/-- The text as a compiler sees it: its length and the last code unit of each character. -/
structure Text where
  length : ℕ
  indexStream : Stream

section Operations

/-- An amount of 0 makes no statement. There is no meaning for a negative amount. -/
def createIndexedAdvance (expr : Stream) (indexStream : Option Stream) (shiftAmount : ℤ) :
    Option Stream :=
  if shiftAmount < 0 then none
  else if shiftAmount = 0 then some expr
  else match indexStream with
    | none => some (advance shiftAmount.toNat expr)
    | some index => some (indexedAdvance index shiftAmount.toNat expr)

/-- A Var that is 0 unless the branch is taken. -/
def createIf (t : Text) (condition body : Stream) : Stream :=
  if (List.range t.length).any condition then body else fun _ ↦ false

def ScanToIndex (cursor indexStrm : Stream) : Stream := fun p ↦
  (cursor p && indexStrm p) || scanTo (fun q ↦ !indexStrm q && cursor q) indexStrm p

def NextCharacter (t : Text) (marker : Marker) : Stream :=
  match marker.position with
  | .AtEnd => indexedAdvance t.indexStream 1 marker.stream
  | .AtNextCodeUnit => ScanToIndex marker.stream t.indexStream
  | .AtNextChar => marker.stream

def NextCodeUnitStream (marker : Marker) : Stream :=
  match marker.position with
  | .AtEnd => advance 1 marker.stream
  | _ => marker.stream

def AlignMarkers (t : Text) (m1 m2 : Marker) : Marker × Marker :=
  match m1.position, m2.position with
  | .AtEnd, .AtNextCodeUnit => (⟨NextCodeUnitStream m1, .AtNextCodeUnit⟩, m2)
  | .AtEnd, .AtNextChar => (⟨NextCharacter t m1, .AtNextChar⟩, m2)
  | .AtNextCodeUnit, .AtNextChar => (⟨NextCharacter t m1, .AtNextChar⟩, m2)
  | .AtNextCodeUnit, .AtEnd => (m1, ⟨NextCodeUnitStream m2, .AtNextCodeUnit⟩)
  | .AtNextChar, .AtEnd => (m1, ⟨NextCharacter t m2, .AtNextChar⟩)
  | .AtNextChar, .AtNextCodeUnit => (m1, ⟨NextCharacter t m2, .AtNextChar⟩)
  | _, _ => (m1, m2)

end Operations

/-- The positions with `repeat_count` consecutive items of length 1 up to them, from those with `j`.
When there are already more, the amount of the next move is negative. -/
def consecutive_matches (t : Text) (repeated_j : Stream) (j repeat_count : ℕ)
    (indexStream : Option Stream) (ifGap : ℕ) : Option Stream :=
  if j = repeat_count then some repeated_j
  else if repeat_count < j ∨ j = 0 then none
  else do
    let i := min j (repeat_count - j)
    let adv_i ← createIndexedAdvance repeated_j indexStream i
    let repeated_k : Stream := fun p ↦ repeated_j p && adv_i p
    if j > ifGap then
      let repeated ←
        consecutive_matches t repeated_k (j + i) repeat_count indexStream (ifGap * ifGap)
      return createIf t repeated_j repeated
    else
      consecutive_matches t repeated_k (j + i) repeat_count indexStream ifGap
termination_by repeat_count - j
decreasing_by all_goals omega

/-- The extension of what is reached in `i` steps. -/
def extend (indexStream : Option Stream) (reachable : Stream) (i : ℕ) : Option Stream := do
  let extension ← createIndexedAdvance reachable indexStream i
  return fun p ↦ reachable p || extension p

def reachableLoop (indexStream : Option Stream) (total_length : ℕ) (reachable : Stream) (i : ℕ) :
    Option Stream :=
  if 0 < i ∧ i * 2 < total_length then do
    let reachable ← extend indexStream reachable i
    reachableLoop indexStream total_length reachable (i * 2)
  else if i < total_length then extend indexStream reachable (total_length - i)
  else some reachable
termination_by total_length - i
decreasing_by omega

/-- The positions within `repeat_count` items of length 1. -/
def reachable (repeated : Stream) (repeat_count : ℕ) (indexStream : Option Stream) :
    Option Stream :=
  if repeat_count = 0 then some repeated
  else do
    let within1 ← extend indexStream repeated 1
    reachableLoop indexStream repeat_count within1 1

/-- The branch for items that are one code unit or one position of the index. -/
def processUnboundedRep (t : Text) (cc : Stream) (marker : Marker) : Marker :=
  let base := NextCharacter t marker
  let mask : Stream := fun p ↦ cc p || !t.indexStream p
  let unbounded := matchStar base mask
  ⟨fun p ↦ unbounded p && t.indexStream p, .AtNextChar⟩

def IfInsertionGap : ℕ := 3

/-- The repetition of items of one code unit. -/
def repeatCodeUnits (t : Text) (cc : Stream) (lb : ℕ) (ub : Option ℕ) (marker : Marker) :
    Option Marker := do
  let cc_lb ← consecutive_matches t cc 1 lb none IfInsertionGap
  let start := if marker.position = .AtEnd then marker.stream else NextCharacter t marker
  let lb_lgth := if marker.position = .AtEnd then lb else lb - 1
  let marker_fwd ← createIndexedAdvance start none lb_lgth
  let cursor : Stream := fun p ↦ marker_fwd p && cc_lb p
  match ub with
  | none => return processUnboundedRep t cc ⟨cursor, .AtEnd⟩
  | some ub =>
    if lb < ub then
      let upperLimitMask ← reachable cursor (ub - lb) none
      let masked : Stream := fun p ↦ cc p && upperLimitMask p
      return ⟨fun p ↦ matchStar cursor masked p && upperLimitMask p, .AtEnd⟩
    else return ⟨cursor, .AtEnd⟩

/-- The repetition of items of one position of the index. -/
def repeatIndexed (t : Text) (cc : Stream) (lb : ℕ) (ub : Option ℕ) (marker : Marker) :
    Option Marker := do
  let cursor : Stream :=
    if marker.position = .AtEnd then marker.stream else fun p ↦ cc p && NextCharacter t marker p
  let rpt := if marker.position = .AtEnd then lb else lb - 1
  let cc_lb ← consecutive_matches t cc 1 rpt (some t.indexStream) IfInsertionGap
  let marker_fwd ← createIndexedAdvance cursor (some t.indexStream) rpt
  let at_lb : Stream := fun p ↦ marker_fwd p && cc_lb p
  match ub with
  | none => return processUnboundedRep t cc ⟨at_lb, .AtEnd⟩
  | some ub =>
    let upperLimitMask ← reachable at_lb (ub - lb) (some t.indexStream)
    let masked : Stream := fun p ↦ (cc p && upperLimitMask p) || !t.indexStream p
    return ⟨fun p ↦ matchStar at_lb masked p && upperLimitMask p, .AtEnd⟩

/-- What an item is one of. -/
inductive Item where
  | codeUnit
  | indexed
deriving DecidableEq, Repr

def repeatItem (t : Text) (item : Item) (cc : Stream) (lb : ℕ) (ub : Option ℕ) (marker : Marker) :
    Option Marker :=
  match item with
  | .codeUnit => repeatCodeUnits t cc lb ub marker
  | .indexed => repeatIndexed t cc lb ub marker

/-- `compileRep` for an item of length 1 that is found at the positions of `cc`, for the bounds that
are not handled by expansion. -/
def compileRep (t : Text) (item : Item) (cc : Stream) (lb : ℕ) (ub : Option ℕ) (marker : Marker) :
    Option Marker :=
  if lb = 0 then do
    let at_least_one ← repeatItem t item cc 1 ub marker
    let aligned := AlignMarkers t marker at_least_one
    return ⟨fun p ↦ aligned.1.stream p || aligned.2.stream p, aligned.2.position⟩
  else repeatItem t item cc lb ub marker

variable {t : Text} {item : Item} {cc s : Stream} {lb n q q' : ℕ} {ub : Option ℕ} {marker : Marker}

/-- The index that a builder is given for an item. -/
def Item.indexStream (t : Text) : Item → Option Stream
  | .codeUnit => none
  | .indexed => some t.indexStream

/-- The positions that items are counted in. -/
def Item.index (t : Text) : Item → Stream
  | .codeUnit => fun _ ↦ true
  | .indexed => t.indexStream

/-- Items are found at the last code units of characters, an item of one code unit where the
character is that code unit. -/
structure Found (t : Text) (item : Item) (cc : Stream) : Prop where
  index : ∀ p, cc p = true → t.indexStream p = true
  length : ∀ p, cc p = true → p < t.length
  codeUnit : item = .codeUnit → ∀ p, cc (p + 1) = true → t.indexStream p = true

section Operations

theorem Found.item_index (h : Found t item cc) {p : ℕ} (hp : cc p = true) :
    item.index t p = true := by
  cases item with
  | codeUnit => rfl
  | indexed => exact h.index p hp

theorem Found.endsRun_one (h : Found t item cc) :
    cc q = true ↔ EndsRun (item.index t) cc 1 q := by
  have hindex : ∀ p, cc p = true → item.index t p = true := fun p hp ↦ h.item_index hp
  exact (Library.BitStream.endsRun_one hindex).symm

theorem createIndexedAdvance_spec (hs : n = 0 → ∀ p, s p = true → item.index t p = true) :
    ∃ adv, createIndexedAdvance s (item.indexStream t) n = some adv ∧
      ∀ q, adv q = true ↔ item.index t q = true ∧ ∃ p, item.index t p = true ∧ s p = true ∧
        rank (item.index t) p + n = rank (item.index t) q := by
  rcases Nat.eq_zero_or_pos n with rfl | hn
  · refine ⟨s, by simp [createIndexedAdvance], fun q ↦ ⟨fun hq ↦ ?_, ?_⟩⟩
    · exact ⟨hs rfl q hq, q, hs rfl q hq, hq, rfl⟩
    · rintro ⟨hq, p, hp, hsp, hrank⟩
      rwa [← rank_inj hp hq hrank]
  · have hne : n ≠ 0 := hn.ne'
    refine ⟨indexedAdvance (item.index t) n s, ?_, fun q ↦ indexedAdvance_iff⟩
    cases item with
    | codeUnit =>
      simp [createIndexedAdvance, Item.indexStream, Item.index, hne, indexedAdvance_ones]
    | indexed => simp [createIndexedAdvance, Item.indexStream, Item.index, hne]

theorem createIf_of_imp {condition body : Stream} (hbody : ∀ p, body p = true → condition p = true)
    (hlength : ∀ p, body p = true → p < t.length) : createIf t condition body = body := by
  unfold createIf
  split_ifs with hany
  · rfl
  · funext p
    cases hp : body p with
    | false => rfl
    | true =>
      have hmem : p ∈ List.range t.length := List.mem_range.mpr (hlength p hp)
      exact absurd (List.any_eq_true.mpr ⟨p, hmem, hbody p hp⟩) hany

end Operations

section LowerBound

theorem Found.endsRun_cc (hn : 0 < n) (h : EndsRun (item.index t) cc n q) : cc q = true :=
  h.2.2 q h.1 le_rfl (by omega)

/-- Doubling, with a last step that is as long as needed. -/
theorem consecutive_matches_spec (h : Found t item cc) {j repeat_count gap : ℕ}
    {repeated_j : Stream} (hj : 0 < j) (hle : j ≤ repeat_count)
    (hrep : ∀ q, repeated_j q = true ↔ EndsRun (item.index t) cc j q) :
    ∃ repeated, consecutive_matches t repeated_j j repeat_count (item.indexStream t) gap
        = some repeated ∧
      ∀ q, repeated q = true ↔ EndsRun (item.index t) cc repeat_count q := by
  obtain ⟨d, hd⟩ : ∃ d, repeat_count - j = d := ⟨_, rfl⟩
  induction d using Nat.strong_induction_on generalizing j repeated_j gap with
  | _ d ih =>
    rw [consecutive_matches]
    by_cases heq : j = repeat_count
    · subst heq
      exact ⟨repeated_j, by simp, hrep⟩
    · have hbound : ¬ (repeat_count < j ∨ j = 0) := by omega
      obtain ⟨i, hi⟩ : ∃ i, min j (repeat_count - j) = i := ⟨_, rfl⟩
      have hij : i ≤ j := by omega
      have hmem : i = 0 → ∀ p, repeated_j p = true → item.index t p = true := fun _ p hp ↦
        ((hrep p).mp hp).1
      obtain ⟨adv, hadv, hspec⟩ := createIndexedAdvance_spec hmem
      have hnext : ∀ q, (repeated_j q && adv q) = true ↔ EndsRun (item.index t) cc (j + i) q := by
        intro q
        rw [Bool.and_eq_true, endsRun_add hij, hrep, hspec]
        constructor
        · rintro ⟨hq, -, p, hp, hrp, hrank⟩
          exact ⟨hq, p, hp, (hrep p).mp hrp, hrank⟩
        · rintro ⟨hq, p, hp, hrp, hrank⟩
          exact ⟨hq, hq.1, p, hp, (hrep p).mpr hrp, hrank⟩
      rw [if_neg heq, if_neg hbound, hi]
      simp only [hadv, Option.bind_eq_bind, Option.bind_some]
      split_ifs with hgap
      · have hrest : ∃ repeated, consecutive_matches t (fun p ↦ repeated_j p && adv p) (j + i)
            repeat_count (item.indexStream t) (gap * gap) = some repeated ∧
              ∀ q, repeated q = true ↔ EndsRun (item.index t) cc repeat_count q :=
          ih (repeat_count - (j + i)) (by omega) (by omega) (by omega) hnext rfl
        obtain ⟨repeated, hcall, hruns⟩ := hrest
        refine ⟨repeated, ?_, hruns⟩
        have hif : createIf t repeated_j repeated = repeated := by
          apply createIf_of_imp
          · intro p hp
            have hrun := (hruns p).mp hp
            refine (hrep p).mpr ⟨hrun.1, by have := hrun.2.1; omega, fun r hr hrp hlt ↦ ?_⟩
            exact hrun.2.2 r hr hrp (by omega)
          · intro p hp
            exact h.length p (Found.endsRun_cc (by omega) ((hruns p).mp hp))
        simp [hcall, hif]
      · exact ih (repeat_count - (j + i)) (by omega) (by omega) (by omega) hnext rfl

end LowerBound

section UpperBound

theorem extend_spec {reach : Stream} {j i : ℕ} (hij : i ≤ j)
    (hreach : ∀ q, reach q = true ↔ Reached (item.index t) s j q) :
    ∃ more, extend (item.indexStream t) reach i = some more ∧
      ∀ q, more q = true ↔ Reached (item.index t) s (j + i) q := by
  have hmem : i = 0 → ∀ p, reach p = true → item.index t p = true := fun _ p hp ↦
    ((hreach p).mp hp).1
  obtain ⟨adv, hadv, hspec⟩ := createIndexedAdvance_spec hmem
  refine ⟨fun p ↦ reach p || adv p, by simp [extend, hadv], fun q ↦ ?_⟩
  rw [Bool.or_eq_true, reached_add (Nat.le_succ_of_le hij), hreach, hspec]
  constructor
  · rintro (hq | ⟨hq, p, hp, hrp, hrank⟩)
    · exact .inl hq
    · exact .inr ⟨hq, p, hp, (hreach p).mp hrp, hrank⟩
  · rintro (hq | ⟨hq, p, hp, hrp, hrank⟩)
    · exact .inl hq
    · exact .inr ⟨hq, p, hp, (hreach p).mpr hrp, hrank⟩

theorem reachableLoop_spec {total i : ℕ} {reach : Stream} (hi : 0 < i) (hle : i ≤ total)
    (hreach : ∀ q, reach q = true ↔ Reached (item.index t) s i q) :
    ∃ result, reachableLoop (item.indexStream t) total reach i = some result ∧
      ∀ q, result q = true ↔ Reached (item.index t) s total q := by
  obtain ⟨d, hd⟩ : ∃ d, total - i = d := ⟨_, rfl⟩
  induction d using Nat.strong_induction_on generalizing i reach with
  | _ d ih =>
    rw [reachableLoop]
    split_ifs with hmore hlast
    · obtain ⟨more, hext, hspec⟩ := extend_spec le_rfl hreach
      obtain ⟨result, hloop, hresult⟩ := ih (total - i * 2) (by omega) (i := i * 2) (by omega)
        (by omega) (by simpa [Nat.mul_two] using hspec) rfl
      exact ⟨result, by simp [hext, hloop], hresult⟩
    · obtain ⟨more, hext, hspec⟩ := extend_spec (i := total - i) (by omega) hreach
      exact ⟨more, hext, by simpa [Nat.add_sub_cancel' hle] using hspec⟩
    · obtain rfl : i = total := by omega
      exact ⟨reach, rfl, hreach⟩

theorem reachable_spec (hs : ∀ p, s p = true → item.index t p = true) :
    ∃ result, reachable s n (item.indexStream t) = some result ∧
      ∀ q, result q = true ↔ Reached (item.index t) s n q := by
  have hzero : ∀ q, s q = true ↔ Reached (item.index t) s 0 q := fun q ↦ (reached_zero hs).symm
  rcases Nat.eq_zero_or_pos n with rfl | hn
  · exact ⟨s, by simp [reachable], hzero⟩
  · have hone : ∃ more, extend (item.indexStream t) s 1 = some more ∧
        ∀ q, more q = true ↔ Reached (item.index t) s 1 q := by
      have hmem : 1 = 0 → ∀ p, s p = true → item.index t p = true := fun _ ↦ hs
      obtain ⟨adv, hadv, hspec⟩ := createIndexedAdvance_spec hmem
      refine ⟨fun p ↦ s p || adv p, by rw [extend, hadv]; rfl, fun q ↦ ?_⟩
      rw [Bool.or_eq_true, hspec]
      constructor
      · rintro (hq | ⟨hq, p, hp, hsp, hrank⟩)
        · exact ⟨hs q hq, q, hs q hq, hq, le_rfl, by omega⟩
        · exact ⟨hq, p, hp, hsp, by omega, by omega⟩
      · rintro ⟨hq, p, hp, hsp, hle, hge⟩
        rcases Nat.eq_or_lt_of_le hle with heq | hlt
        · exact .inl (by rwa [← rank_inj hp hq heq])
        · exact .inr ⟨hq, p, hp, hsp, by omega⟩
    obtain ⟨more, hext, hspec⟩ := hone
    obtain ⟨result, hloop, hresult⟩ := reachableLoop_spec (Nat.succ_pos 0) hn hspec
    exact ⟨result, by simp [reachable, hn.ne', hext, hloop], hresult⟩

end UpperBound

section Meaning

/-- The positions at which the item after a marker is looked for. -/
def starts (t : Text) (item : Item) (marker : Marker) : Stream :=
  match item with
  | .codeUnit => NextCodeUnitStream marker
  | .indexed => NextCharacter t marker

/-- `n` consecutive items from a marked start end at `q`. -/
def Consecutive (t : Text) (item : Item) (cc : Stream) (marker : Marker) (n q : ℕ) : Prop :=
  EndsRun (item.index t) cc n q ∧ ∃ p, item.index t p = true ∧ starts t item marker p = true ∧
    rank (item.index t) p + n = rank (item.index t) q + 1

/-- The ends of the repetitions of at least one item. -/
def Ends (t : Text) (item : Item) (cc : Stream) (marker : Marker) (lb : ℕ) (ub : Option ℕ) (q : ℕ) :
    Prop :=
  ∃ n, max lb 1 ≤ n ∧ (∀ u ∈ ub, n ≤ u) ∧ Consecutive t item cc marker n q

/-- What comes behind a repetition that could be longer, and is not an item. -/
def Overrun (t : Text) (item : Item) (cc : Stream) (marker : Marker) (lb : ℕ) (ub : Option ℕ)
    (q : ℕ) : Prop :=
  item.index t q = true ∧ cc q = false ∧ ∃ u ∈ ub, ∃ n p, max lb 1 ≤ n ∧ n < u ∧
    Consecutive t item cc marker n p ∧ rank (item.index t) p + 1 = rank (item.index t) q

/-- A marker of this position at `q'` is for a match that ends at `q`. -/
def StandsFor (t : Text) (position : Position) (q q' : ℕ) : Prop :=
  match position with
  | .AtEnd => q' = q
  | .AtNextCodeUnit => q' = q + 1
  | .AtNextChar => t.indexStream q = true ∧ t.indexStream q' = true ∧
      rank t.indexStream q + 1 = rank t.indexStream q'

/-- The markers of a result are those of the ends of the repetitions, and for no items at all the
markers from before. -/
structure Exact (t : Text) (item : Item) (cc : Stream) (lb : ℕ) (ub : Option ℕ)
    (marker result : Marker) : Prop where
  position : lb = 0 → result.position = marker.position
  stream : ∀ q', result.stream q' = true ↔ lb = 0 ∧ marker.stream q' = true ∨
    ∃ q, Ends t item cc marker lb ub q ∧ StandsFor t result.position q q'

end Meaning

section Consecutive

variable {p k d : ℕ}

theorem Consecutive.isItem (h : Consecutive t item cc marker n q) (hn : 0 < n) : cc q = true :=
  Found.endsRun_cc hn h.1

/-- A repetition goes on as long as there are items. -/
theorem Consecutive.lengthen (h : Consecutive t item cc marker n p) (hq : item.index t q = true)
    (hrank : rank (item.index t) p + k = rank (item.index t) q)
    (hcc : ∀ r, item.index t r = true → p ≤ r → r ≤ q → cc r = true) :
    Consecutive t item cc marker (n + k) q := by
  obtain ⟨⟨hp, hlen, hall⟩, r, hr, hstart, hrr⟩ := h
  refine ⟨⟨hq, by omega, fun x hx hxq hlt ↦ ?_⟩, r, hr, hstart, by omega⟩
  by_cases hpx : p ≤ x
  · exact hcc x hx hpx hxq
  · exact hall x hx (by omega) (by omega)

theorem Consecutive.shorten (h : Consecutive t item cc marker (n + k) q) (hn : 0 < n) :
    ∃ p ≤ q, Consecutive t item cc marker n p ∧
      rank (item.index t) p + k = rank (item.index t) q ∧
        ∀ r, item.index t r = true → p ≤ r → r ≤ q → cc r = true := by
  obtain ⟨⟨hq, hlen, hall⟩, r, hr, hstart, hrr⟩ := h
  obtain ⟨p, hpq, hp, hrank⟩ := exists_back hq (r := rank (item.index t) q - k) (by omega)
  have hmono : ∀ x, p ≤ x → rank (item.index t) p ≤ rank (item.index t) x := fun x hx ↦
    rank_mono _ hx
  refine ⟨p, hpq, ⟨⟨hp, by omega, fun x hx hxp hlt ↦ ?_⟩, r, hr, hstart, by omega⟩, by omega,
    fun x hx hpx hxq ↦ ?_⟩
  · exact hall x hx (hxp.trans hpq) (by omega)
  · have hle := hmono x hpx
    exact hall x hx hxq (by omega)

/-- The positions between items of a run, counted one way or the other. -/
theorem Found.class_between (h : Found t item cc) (hq : cc q = true) :
    (∀ r, item.index t r = true → p ≤ r → r ≤ q → cc r = true) ↔
      ∀ r, t.indexStream r = true → p ≤ r → r ≤ q → cc r = true := by
  cases item with
  | indexed => exact Iff.rfl
  | codeUnit =>
    refine ⟨fun hall r _ hpr hrq ↦ hall r rfl hpr hrq, fun hall r _ hpr hrq ↦ ?_⟩
    induction hrq using Nat.decreasingInduction with
    | self => exact hq
    | of_succ r _ ih =>
      have hnext : cc (r + 1) = true := ih rfl (Nat.le_succ_of_le hpr)
      exact hall r (h.codeUnit rfl r hnext) hpr (by omega)

variable {A limit masked : Stream}

/-- From the ends of the least number of items: a MatchStar within reach also marks what comes
behind the last item. -/
theorem matchStar_reached (hlb : 0 < lb) (hA : ∀ q, A q = true ↔ Consecutive t item cc marker lb q)
    (hlimit : ∀ q, limit q = true ↔ Reached (item.index t) A d q)
    (hmask : ∀ q, masked q = true ↔
      (item.index t q = true → cc q = true ∧ limit q = true)) :
    matchStar A masked q = true ∧ limit q = true ↔
      (∃ n, lb ≤ n ∧ n ≤ lb + d ∧ Consecutive t item cc marker n q) ∨
        item.index t q = true ∧ cc q = false ∧ ∃ n p, lb ≤ n ∧ n < lb + d ∧
          Consecutive t item cc marker n p ∧ rank (item.index t) p + 1 = rank (item.index t) q := by
  have hstar : matchStar A masked q = true ∧ limit q = true ↔
      item.index t q = true ∧ ∃ p ≤ q, A p = true ∧
        rank (item.index t) q ≤ rank (item.index t) p + d ∧
          ∀ r, item.index t r = true → p ≤ r → r < q → cc r = true := by
    rw [matchStar_iff_exists, hlimit]
    constructor
    · rintro ⟨⟨p, hpq, hAp, hall⟩, hq, p', hp', hAp', hle, hge⟩
      have hrun : ∀ r, item.index t r = true → p ≤ r → r < q → cc r = true := fun r hr h1 h2 ↦
        ((hmask r).mp (hall r h1 h2) hr).1
      rcases Nat.le_total p p' with hpp | hpp
      · refine ⟨hq, p', le_of_rank_le hq hle, hAp', hge, fun r hr h1 h2 ↦ ?_⟩
        exact hrun r hr (hpp.trans h1) h2
      · have hmono := rank_mono (item.index t) hpp
        exact ⟨hq, p, hpq, hAp, by omega, hrun⟩
    · rintro ⟨hq, p, hpq, hAp, hnear, hall⟩
      have hp : item.index t p = true := ((hA p).mp hAp).1.1
      refine ⟨⟨p, hpq, hAp, fun j h1 h2 ↦ (hmask j).mpr fun hj ↦ ⟨hall j hj h1 h2, ?_⟩⟩, hq, p, hp,
        hAp, rank_mono _ hpq, hnear⟩
      have hup := rank_mono (item.index t) h1
      have hdown := rank_mono (item.index t) h2.le
      exact (hlimit j).mpr ⟨hj, p, hp, hAp, hup, by omega⟩
  rw [hstar]
  constructor
  · rintro ⟨hq, p, hpq, hAp, hnear, hall⟩
    have hrep := (hA p).mp hAp
    have hmono := rank_mono (item.index t) hpq
    cases hcq : cc q with
    | true =>
      refine .inl ⟨lb + (rank (item.index t) q - rank (item.index t) p), by omega, by omega, ?_⟩
      apply hrep.lengthen hq (by omega)
      intro r hr hpr hrq
      rcases Nat.eq_or_lt_of_le hrq with rfl | hlt
      · exact hcq
      · exact hall r hr hpr hlt
    | false =>
      have hne : p ≠ q := by
        rintro rfl
        rw [hrep.isItem hlb] at hcq
        cases hcq
      have hlt := rank_lt_of_true hrep.1.1 (Nat.lt_of_le_of_ne hpq hne)
      obtain ⟨b, hbq, hb, hrank⟩ := exists_back hq (r := rank (item.index t) q - 1) (by omega)
      have hpb : p ≤ b := le_of_rank_le hb (by omega)
      have hblt : b < q := lt_of_rank_lt (m := item.index t) (by omega)
      refine .inr ⟨hq, rfl, lb + (rank (item.index t) b - rank (item.index t) p), b, by omega,
        by omega, ?_, by omega⟩
      apply hrep.lengthen hb (by omega)
      intro r hr hpr hrb
      exact hall r hr hpr (by omega)
  · rintro (⟨n, hlbn, hnd, hrep⟩ | ⟨hq, -, n, b, hlbn, hnd, hrep, hrank⟩)
    · obtain ⟨k, rfl⟩ := Nat.exists_eq_add_of_le hlbn
      obtain ⟨p, hpq, hshort, hrank, hall⟩ := hrep.shorten hlb
      exact ⟨hrep.1.1, p, hpq, (hA p).mpr hshort, by omega, fun r hr h1 h2 ↦ hall r hr h1 h2.le⟩
    · obtain ⟨k, rfl⟩ := Nat.exists_eq_add_of_le hlbn
      obtain ⟨p, hpb, hshort, hrank', hall⟩ := hrep.shorten hlb
      have hbq : b < q := lt_of_rank_lt (m := item.index t) (by omega)
      refine ⟨hq, p, by omega, (hA p).mpr hshort, by omega, fun r hr h1 h2 ↦ hall r hr h1 ?_⟩
      have hlt := rank_lt_of_true hr h2
      exact le_of_rank_le hrep.1.1 (by omega)

theorem processUnboundedRep_spec (h : Found t item cc) (hlb : 0 < lb)
    (hA : ∀ q, A q = true ↔ Consecutive t item cc marker lb q) :
    (processUnboundedRep t cc ⟨A, .AtEnd⟩).stream q' = true ↔
      ∃ q, (∃ n, lb ≤ n ∧ Consecutive t item cc marker n q) ∧ StandsFor t .AtNextChar q q' := by
  have hstream : (processUnboundedRep t cc ⟨A, .AtEnd⟩).stream q' = true ↔
      (∃ b ≤ q', indexedAdvance t.indexStream 1 A b = true ∧
        ∀ j, b ≤ j → j < q' → t.indexStream j = true → cc j = true) ∧ t.indexStream q' = true := by
    simp only [processUnboundedRep, NextCharacter, Bool.and_eq_true, matchStar_iff_exists,
      Bool.or_eq_true, Bool.not_eq_true']
    apply and_congr_left
    intro _
    refine exists_congr fun b ↦ and_congr_right fun _ ↦ and_congr_right fun _ ↦
      forall_congr' fun j ↦ forall_congr' fun _ ↦ forall_congr' fun _ ↦ ?_
    cases t.indexStream j <;> simp
  rw [hstream]
  constructor
  · rintro ⟨⟨b, hbq, hadv, hall⟩, hq'⟩
    obtain ⟨hb, p, hp, hAp, hrank⟩ := indexedAdvance_iff.mp hadv
    have hrep := (hA p).mp hAp
    have hmono := rank_mono t.indexStream hbq
    obtain ⟨q, -, hq, hqrank⟩ := exists_back hq' (r := rank t.indexStream q' - 1) (by omega)
    have hpq : p ≤ q := le_of_rank_le hq (by omega)
    have hqq : q < q' := lt_of_rank_lt (m := t.indexStream) (by omega)
    have hclass : ∀ r, t.indexStream r = true → p ≤ r → r ≤ q → cc r = true := by
      intro r hr hpr hrq
      rcases Nat.eq_or_lt_of_le hpr with rfl | hlt
      · exact hrep.isItem hlb
      · have hpos := rank_lt_of_true hp hlt
        exact hall r (le_of_rank_le hr (by omega)) (by omega) hr
    have hcq : cc q = true := hclass q hq hpq le_rfl
    have hup := rank_mono (item.index t) hpq
    refine ⟨q, ⟨lb + (rank (item.index t) q - rank (item.index t) p), by omega, ?_⟩, hq, hq',
      by omega⟩
    exact hrep.lengthen (h.item_index hcq) (by omega) ((h.class_between hcq).mpr hclass)
  · rintro ⟨q, ⟨n, hlbn, hrep⟩, hq, hq', hrank⟩
    obtain ⟨k, rfl⟩ := Nat.exists_eq_add_of_le hlbn
    obtain ⟨p, hpq, hshort, -, hall⟩ := hrep.shorten hlb
    have hclass := (h.class_between (hrep.isItem (by omega))).mp hall
    have hp := h.index p (hshort.isItem hlb)
    have hmono := rank_mono t.indexStream hpq
    obtain ⟨b, hbq, hb, hbrank⟩ := exists_back hq' (r := rank t.indexStream p + 1) (by omega)
    refine ⟨⟨b, hbq, indexedAdvance_iff.mpr ⟨hb, p, hp, (hA p).mpr hshort, by omega⟩,
      fun j h1 h2 hj ↦ ?_⟩, hq'⟩
    have hpb : p < b := lt_of_rank_lt (m := t.indexStream) (by omega)
    have hlt := rank_lt_of_true hj h2
    exact hclass j hj (by omega) (le_of_rank_le hq (by omega))

end Consecutive

section AtLowerBound

/-- Where an item of one code unit is, a scan to the index stays. -/
theorem Found.scanToIndex (h : Found t .codeUnit cc) {p : ℕ} (hp : cc p = true) :
    ScanToIndex s t.indexStream p = s p := by
  have hindex := h.index p hp
  have hscan : scanTo (fun q ↦ !t.indexStream q && s q) t.indexStream p = false := by
    apply Bool.eq_false_iff.mpr
    intro hscan
    simp only [scanTo, Bool.and_eq_true, matchStar_iff_exists, Bool.not_eq_true'] at hscan
    obtain ⟨-, r, hrp, ⟨hr, -⟩, hall⟩ := hscan
    rcases Nat.eq_or_lt_of_le hrp with rfl | hlt
    · rw [hindex] at hr
      cases hr
    · obtain ⟨x, rfl⟩ : ∃ x, p = x + 1 := ⟨p - 1, by omega⟩
      have hx := hall x (by omega) (Nat.lt_succ_self x)
      rw [h.codeUnit rfl x hp] at hx
      cases hx
  rw [ScanToIndex, hscan, hindex, Bool.and_true, Bool.or_false]

theorem Found.nextCharacter (h : Found t .codeUnit cc) (hm : marker.position ≠ .AtEnd) {p : ℕ}
    (hp : cc p = true) : NextCharacter t marker p = NextCodeUnitStream marker p := by
  obtain ⟨stream, position⟩ := marker
  cases position with
  | AtEnd => exact absurd rfl hm
  | AtNextCodeUnit => exact h.scanToIndex hp
  | AtNextChar => rfl

/-- The positions where the least number of items of one code unit ends. -/
theorem lowerBound_codeUnit (marker : Marker) (h : Found t .codeUnit cc) (hlb : 0 < lb) :
    ∃ cc_lb marker_fwd, consecutive_matches t cc 1 lb none IfInsertionGap = some cc_lb ∧
      createIndexedAdvance
        (if marker.position = .AtEnd then marker.stream else NextCharacter t marker) none
        ((if marker.position = .AtEnd then lb else lb - 1 : ℕ) : ℤ) = some marker_fwd ∧
      ∀ q, (marker_fwd q && cc_lb q) = true ↔ Consecutive t .codeUnit cc marker lb q := by
  obtain ⟨cc_lb, hcall, hruns⟩ := consecutive_matches_spec h Nat.one_pos hlb fun q ↦ h.endsRun_one
  have hall : ∀ (k : ℕ) (x : Stream), k = 0 → ∀ p, x p = true → Item.codeUnit.index t p = true :=
    fun _ _ _ _ _ ↦ rfl
  obtain ⟨marker_fwd, hadv, hspec⟩ := createIndexedAdvance_spec
    (hall (if marker.position = .AtEnd then lb else lb - 1 : ℕ)
      (if marker.position = .AtEnd then marker.stream else NextCharacter t marker))
  refine ⟨cc_lb, marker_fwd, hcall, hadv, fun q ↦ ?_⟩
  rw [Bool.and_eq_true, hruns, hspec, and_comm]
  simp only [Consecutive, Item.index, rank_ones, true_and, starts]
  apply and_congr_right
  intro hrun
  have hlen : lb ≤ q + 1 := by simpa [Item.index] using hrun.2.1
  have hstart : cc (q + 1 - lb) = true :=
    hrun.2.2 _ rfl (by omega) (by simp only [rank_ones]; omega)
  by_cases hm : marker.position = .AtEnd
  · simp only [hm, reduceIte, NextCodeUnitStream]
    constructor
    · rintro ⟨p, hp, hrank⟩
      exact ⟨p + 1, by simpa [advance] using hp, by omega⟩
    · rintro ⟨p, hp, hrank⟩
      rcases Nat.eq_zero_or_pos p with rfl | hpos
      · simp [advance] at hp
      · exact ⟨p - 1, by simpa [advance, Nat.not_lt.mpr hpos] using hp, by omega⟩
  · simp only [if_neg hm]
    constructor
    · rintro ⟨p, hp, hrank⟩
      obtain rfl : p = q + 1 - lb := by omega
      exact ⟨_, by rwa [← h.nextCharacter hm hstart], by omega⟩
    · rintro ⟨p, hp, hrank⟩
      obtain rfl : p = q + 1 - lb := by omega
      exact ⟨_, by rwa [h.nextCharacter hm hstart], by omega⟩

theorem endsRun_index (h : Found t .indexed cc) (hn : 0 < n) :
    ∃ cc_n, consecutive_matches t cc 1 n (some t.indexStream) IfInsertionGap = some cc_n ∧
      ∀ q, cc_n q = true ↔ EndsRun t.indexStream cc n q :=
  consecutive_matches_spec h Nat.one_pos hn fun _ ↦ h.endsRun_one

/-- The positions where the least number of items in the index ends. Of a marker that is not at an
end, the first item is taken before the others are counted. -/
theorem lowerBound_indexed (h : Found t .indexed cc) (hlb : 0 < lb)
    (hm : marker.position ≠ .AtEnd → 2 ≤ lb) :
    ∃ cc_lb marker_fwd,
      consecutive_matches t cc 1 (if marker.position = .AtEnd then lb else lb - 1)
        (some t.indexStream) IfInsertionGap = some cc_lb ∧
      createIndexedAdvance (if marker.position = .AtEnd then marker.stream
          else fun p ↦ cc p && NextCharacter t marker p) (some t.indexStream)
        ((if marker.position = .AtEnd then lb else lb - 1 : ℕ) : ℤ) = some marker_fwd ∧
      ∀ q, (marker_fwd q && cc_lb q) = true ↔ Consecutive t .indexed cc marker lb q := by
  by_cases hend : marker.position = .AtEnd
  · simp only [if_pos hend]
    obtain ⟨cc_lb, hcall, hruns⟩ := endsRun_index h hlb
    have hzero : lb = 0 → ∀ p, marker.stream p = true → Item.indexed.index t p = true := fun hz ↦
      absurd hz hlb.ne'
    obtain ⟨marker_fwd, hadv, hspec⟩ := createIndexedAdvance_spec hzero
    refine ⟨cc_lb, marker_fwd, hcall, hadv, fun q ↦ ?_⟩
    rw [Bool.and_eq_true, hruns, hspec, and_comm]
    simp only [Consecutive, Item.index, starts, NextCharacter, hend, indexedAdvance_iff]
    apply and_congr_right
    intro hrun
    constructor
    · rintro ⟨hq, p, hp, hmp, hrank⟩
      obtain ⟨b, -, hb, hbrank⟩ := exists_back hq (r := rank t.indexStream p + 1) (by omega)
      exact ⟨b, hb, ⟨hb, p, hp, hmp, hbrank.symm⟩, by omega⟩
    · rintro ⟨b, hb, ⟨-, p, hp, hmp, hprank⟩, hbrank⟩
      exact ⟨hrun.1, p, hp, hmp, by omega⟩
  · have hlb2 := hm hend
    simp only [if_neg hend]
    obtain ⟨cc_lb, hcall, hruns⟩ := endsRun_index h (n := lb - 1) (by omega)
    have hzero : lb - 1 = 0 → ∀ p, (cc p && NextCharacter t marker p) = true →
        Item.indexed.index t p = true := fun hz ↦ absurd hz (by omega)
    obtain ⟨marker_fwd, hadv, hspec⟩ := createIndexedAdvance_spec hzero
    refine ⟨cc_lb, marker_fwd, hcall, hadv, fun q ↦ ?_⟩
    rw [Bool.and_eq_true, hruns, hspec]
    simp only [Consecutive, Item.index, starts, Bool.and_eq_true]
    constructor
    · rintro ⟨⟨hq, p, hp, ⟨hcp, hstart⟩, hrank⟩, -, hlen, hall⟩
      refine ⟨⟨hq, by omega, fun r hr hrq hlt ↦ ?_⟩, p, hp, hstart, by omega⟩
      by_cases hnear : rank t.indexStream q < rank t.indexStream r + (lb - 1)
      · exact hall r hr hrq hnear
      · rwa [rank_inj hr hp (by omega)]
    · rintro ⟨⟨hq, hlen, hall⟩, p, hp, hstart, hrank⟩
      have hcp : cc p = true := hall p hp (le_of_rank_le hq (by omega)) (by omega)
      exact ⟨⟨hq, p, hp, ⟨hcp, hstart⟩, by omega⟩, hq, by omega,
        fun r hr hrq hlt ↦ hall r hr hrq (by omega)⟩

end AtLowerBound

section Exact

/-- What a repetition of at least one item gives: with no upper bound the positions behind all the
ends, otherwise the ends and what a repetition runs over. -/
def Yields (t : Text) (item : Item) (cc : Stream) (marker : Marker) (lb : ℕ) (ub : Option ℕ)
    (result : Marker) : Prop :=
  match ub with
  | none => result.position = .AtNextChar ∧ ∀ q', result.stream q' = true ↔
      ∃ q, Ends t item cc marker lb ub q ∧ StandsFor t .AtNextChar q q'
  | some _ => result.position = .AtEnd ∧ ∀ q, result.stream q = true ↔
      Ends t item cc marker lb ub q ∨ Overrun t item cc marker lb ub q

theorem yields_unbounded {A : Stream} (h : Found t item cc) (hlb : 0 < lb)
    (hA : ∀ q, A q = true ↔ Consecutive t item cc marker lb q) :
    Yields t item cc marker lb none (processUnboundedRep t cc ⟨A, .AtEnd⟩) := by
  refine ⟨rfl, fun q' ↦ ?_⟩
  rw [processUnboundedRep_spec h hlb hA]
  simp [Ends, Nat.max_eq_left hlb]

theorem yields_bounded {A limit masked : Stream} {u : ℕ} (hlb : 0 < lb) (hle : lb ≤ u)
    (hA : ∀ q, A q = true ↔ Consecutive t item cc marker lb q)
    (hlimit : ∀ q, limit q = true ↔ Reached (item.index t) A (u - lb) q)
    (hmask : ∀ q, masked q = true ↔ (item.index t q = true → cc q = true ∧ limit q = true)) :
    Yields t item cc marker lb (some u) ⟨fun p ↦ matchStar A masked p && limit p, .AtEnd⟩ := by
  refine ⟨rfl, fun q ↦ ?_⟩
  rw [Bool.and_eq_true, matchStar_reached hlb hA hlimit hmask, Nat.add_sub_cancel' hle]
  simp [Ends, Overrun, Nat.max_eq_left hlb]

/-- When the bounds are equal, there is nothing to go on with. -/
theorem yields_equal {A : Stream} (hlb : 0 < lb)
    (hA : ∀ q, A q = true ↔ Consecutive t item cc marker lb q) :
    Yields t item cc marker lb (some lb) ⟨A, .AtEnd⟩ := by
  refine ⟨rfl, fun q ↦ (hA q).trans ?_⟩
  simp only [Ends, Overrun, Nat.max_eq_left hlb, Option.mem_some_iff, forall_eq']
  constructor
  · intro hrep
    exact .inl ⟨lb, le_rfl, le_rfl, hrep⟩
  · rintro (⟨n, h1, h2, hrep⟩ | ⟨-, -, u, rfl, n, p, h1, h2, -⟩)
    · rwa [le_antisymm h1 h2]
    · omega

theorem repeatCodeUnits_yields (h : Found t .codeUnit cc) (hlb : 0 < lb) (hle : ∀ u ∈ ub, lb ≤ u) :
    ∃ result, repeatCodeUnits t cc lb ub marker = some result ∧
      Yields t .codeUnit cc marker lb ub result := by
  obtain ⟨cc_lb, marker_fwd, hcall, hadv, hA⟩ := lowerBound_codeUnit marker h hlb
  unfold repeatCodeUnits
  simp only [hcall, hadv, Option.bind_eq_bind, Option.bind_some]
  cases ub with
  | none => exact ⟨_, rfl, yields_unbounded h hlb hA⟩
  | some u =>
    have hu : lb ≤ u := hle u rfl
    by_cases hlt : lb < u
    · have hmem : ∀ p, (marker_fwd p && cc_lb p) = true → Item.codeUnit.index t p = true :=
        fun _ _ ↦ rfl
      obtain ⟨limit, hreach, hlimit⟩ := reachable_spec (n := u - lb) hmem
      have hreach' : reachable (fun p ↦ marker_fwd p && cc_lb p) (u - lb) none = some limit :=
        hreach
      simp only [if_pos hlt, hreach', Option.bind_some]
      refine ⟨_, rfl, yields_bounded hlb hu hA hlimit fun q ↦ ?_⟩
      simp [Item.index]
    · obtain rfl : u = lb := by omega
      simp only [if_neg hlt]
      exact ⟨_, rfl, yields_equal hlb hA⟩

theorem repeatIndexed_yields (h : Found t .indexed cc) (hlb : 0 < lb) (hle : ∀ u ∈ ub, lb ≤ u)
    (hm : marker.position ≠ .AtEnd → 2 ≤ lb) :
    ∃ result, repeatIndexed t cc lb ub marker = some result ∧
      Yields t .indexed cc marker lb ub result := by
  obtain ⟨cc_lb, marker_fwd, hcall, hadv, hA⟩ := lowerBound_indexed h hlb hm
  unfold repeatIndexed
  simp only [hcall, hadv, Option.bind_eq_bind, Option.bind_some]
  cases ub with
  | none => exact ⟨_, rfl, yields_unbounded h hlb hA⟩
  | some u =>
    have hmem : ∀ p, (marker_fwd p && cc_lb p) = true → Item.indexed.index t p = true :=
      fun p hp ↦ ((hA p).mp hp).1.1
    obtain ⟨limit, hreach, hlimit⟩ := reachable_spec (n := u - lb) hmem
    have hreach' : reachable (fun p ↦ marker_fwd p && cc_lb p) (u - lb) (some t.indexStream)
        = some limit := hreach
    simp only [hreach', Option.bind_some]
    refine ⟨_, rfl, yields_bounded hlb (hle u rfl) hA hlimit fun q ↦ ?_⟩
    cases hq : t.indexStream q <;> simp [Item.index, hq]

/-- The first item is taken twice away from a count of one. -/
theorem repeatIndexed_fails (hm : marker.position ≠ .AtEnd) :
    repeatIndexed t cc 1 ub marker = none := by
  have hcall : consecutive_matches t cc 1 0 (some t.indexStream) IfInsertionGap = none := by
    rw [consecutive_matches]
    simp
  simp [repeatIndexed, hm, hcall]

/-- The positions after those of a code unit or a character. -/
theorem aligned_stream (t : Text) (marker : Marker) {result : Marker}
    (hr : result.position = .AtEnd) :
    (AlignMarkers t marker result).1 = marker ∧
      (AlignMarkers t marker result).2.position = marker.position ∧
        ∀ q', (AlignMarkers t marker result).2.stream q' = true ↔
          ∃ q, result.stream q = true ∧ StandsFor t marker.position q q' := by
  obtain ⟨stream, position⟩ := marker
  obtain ⟨result, rposition⟩ := result
  obtain rfl : rposition = .AtEnd := hr
  cases position with
  | AtEnd => exact ⟨rfl, rfl, fun q' ↦ by simp [AlignMarkers, StandsFor]⟩
  | AtNextCodeUnit =>
    refine ⟨rfl, rfl, fun q' ↦ ?_⟩
    simp only [AlignMarkers, NextCodeUnitStream, StandsFor]
    cases q' with
    | zero => simp [advance]
    | succ q' => simp [advance]
  | AtNextChar =>
    refine ⟨rfl, rfl, fun q' ↦ ?_⟩
    simp only [AlignMarkers, NextCharacter, StandsFor, indexedAdvance_iff]
    constructor
    · rintro ⟨hq', q, hq, hs, hrank⟩
      exact ⟨q, hs, hq, hq', hrank⟩
    · rintro ⟨q, hs, hq, hq', hrank⟩
      exact ⟨hq', q, hq, hs, hrank⟩

theorem StandsFor.inj {position : Position} {r : ℕ} (h : StandsFor t position q q')
    (h' : StandsFor t position r q') : q = r := by
  cases position with
  | AtEnd => exact h.symm.trans h'
  | AtNextCodeUnit => exact Nat.succ.inj (h.symm.trans h')
  | AtNextChar =>
    obtain ⟨hq, -, hrank⟩ := h
    obtain ⟨hr, -, hrank'⟩ := h'
    exact rank_inj hq hr (by omega)

theorem Ends.isItem (h : Ends t item cc marker lb ub q) : cc q = true := by
  obtain ⟨n, hn, -, hrep⟩ := h
  exact hrep.isItem (by omega)

theorem Overrun.not_ends (h : Overrun t item cc marker lb ub q) :
    ¬ Ends t item cc marker lb ub q := by
  intro hends
  have hitem := hends.isItem
  rw [h.2.1] at hitem
  cases hitem

/-- With a lower bound, a result is right when nothing is run over. -/
theorem Yields.exact_iff {result : Marker} (h : Yields t item cc marker lb ub result)
    (hlb : lb ≠ 0) : Exact t item cc lb ub marker result ↔
      ∀ q, ¬ Overrun t item cc marker lb ub q := by
  cases ub with
  | none =>
    obtain ⟨hposition, hstream⟩ := h
    refine ⟨fun _ q hover ↦ ?_, fun _ ↦ ⟨fun h0 ↦ absurd h0 hlb, fun q' ↦ ?_⟩⟩
    · obtain ⟨-, -, u, hu, -⟩ := hover
      cases hu
    · rw [hstream, hposition]
      simp [hlb]
  | some u =>
    obtain ⟨hposition, hstream⟩ := h
    constructor
    · intro hexact q hover
      have hmark := (hexact.stream q).mp ((hstream q).mpr (.inr hover))
      rcases hmark with ⟨h0, -⟩ | ⟨r, hends, hfor⟩
      · exact hlb h0
      · rw [hposition] at hfor
        obtain rfl : q = r := hfor
        exact hover.not_ends hends
    · intro hnone
      refine ⟨fun h0 ↦ absurd h0 hlb, fun q ↦ ?_⟩
      rw [hstream, hposition]
      simp [hlb, hnone q, StandsFor]

/-- Without a lower bound, what is run over does no harm where a marker stands already. -/
theorem Yields.exact_zero_iff {result : Marker} {u : ℕ}
    (h : Yields t item cc marker 1 (some u) result) :
    Exact t item cc 0 (some u) marker
        ⟨fun p ↦ (AlignMarkers t marker result).1.stream p
          || (AlignMarkers t marker result).2.stream p, (AlignMarkers t marker result).2.position⟩ ↔
      ∀ q, Overrun t item cc marker 0 (some u) q →
        ∀ q', StandsFor t marker.position q q' → marker.stream q' = true := by
  obtain ⟨hposition, hstream⟩ := h
  obtain ⟨hfirst, hsecond, haligned⟩ := aligned_stream t marker hposition
  have hmarks : ∀ q', ((AlignMarkers t marker result).1.stream q'
      || (AlignMarkers t marker result).2.stream q') = true ↔ marker.stream q' = true ∨
        ∃ q, (Ends t item cc marker 0 (some u) q ∨ Overrun t item cc marker 0 (some u) q) ∧
          StandsFor t marker.position q q' := by
    intro q'
    rw [Bool.or_eq_true, haligned, hfirst]
    apply or_congr_right
    apply exists_congr
    intro q
    rw [hstream]
    rfl
  constructor
  · intro hexact q hover q' hfor
    have hmark := (hexact.stream q').mp ((hmarks q').mpr (.inr ⟨q, .inr hover, hfor⟩))
    rcases hmark with ⟨-, hm⟩ | ⟨r, hends, hfor'⟩
    · exact hm
    · rw [hsecond] at hfor'
      obtain rfl := hfor.inj hfor'
      exact absurd hends hover.not_ends
  · intro hharmless
    refine ⟨fun _ ↦ hsecond, fun q' ↦ (hmarks q').trans ?_⟩
    rw [hsecond]
    constructor
    · rintro (hm | ⟨q, hends | hover, hfor⟩)
      · exact .inl ⟨rfl, hm⟩
      · exact .inr ⟨q, hends, hfor⟩
      · exact .inl ⟨rfl, hharmless q hover q' hfor⟩
    · rintro (⟨-, hm⟩ | ⟨q, hends, hfor⟩)
      · exact .inl hm
      · exact .inr ⟨q, .inl hends, hfor⟩

theorem repeatItem_yields (h : Found t item cc) (hlb : 0 < lb) (hle : ∀ u ∈ ub, lb ≤ u)
    (hm : item = .indexed → marker.position ≠ .AtEnd → 2 ≤ lb) :
    ∃ result, repeatItem t item cc lb ub marker = some result ∧
      Yields t item cc marker lb ub result := by
  cases item with
  | codeUnit => exact repeatCodeUnits_yields h hlb hle
  | indexed => exact repeatIndexed_yields h hlb hle (hm rfl)

end Exact

end Parabix.RE
