import Parabix.Pablo.StatementBuilder
import Parabix.RE.BoundedRepetition

namespace Parabix.RE.MatchLengths

open Library.BitStream

section Compiler

variable (t : Text) (indexStream : Option Stream)

/-- As the builder makes it: by one position the markers on the index are moved by a scan, which
stops at the end of the file too. -/
def createIndexedAdvance (expr : Stream) (shiftAmount : ℕ) : Stream :=
  if shiftAmount = 0 then
    expr
  else
    match indexStream with
    | none => advance shiftAmount expr
    | some index =>
      if shiftAmount = 1 then
        Pablo.scanStatement .AdvanceThenScanTo t.length (fun p ↦ expr p && index p) index
      else
        indexedAdvance index shiftAmount expr

/-- From the positions with `j` consecutive items of a length. There is no meaning for a move by a
negative amount, when there are more items than asked for. -/
def consecutive_matches (repeated_j : Stream) (j repeat_count match_length ifGap : ℕ) :
    Option Stream :=
  if j = repeat_count then
    some repeated_j
  else if repeat_count < j ∨ j = 0 then
    none
  else
    let i := min j (repeat_count - j)
    let k := j + i
    let adv_i := createIndexedAdvance t indexStream repeated_j (i * match_length)
    let repeated_k : Stream := fun p ↦ repeated_j p && adv_i p
    if j > ifGap then do
      let repeated ← consecutive_matches repeated_k k repeat_count match_length (ifGap * ifGap)
      return createIf t repeated_j repeated
    else
      consecutive_matches repeated_k k repeat_count match_length ifGap
termination_by repeat_count - j
decreasing_by all_goals omega

/-- What is reached, and what is reached from it by one move more. -/
def extend (reachable : Stream) (i : ℕ) : Stream := fun p ↦
  reachable p || createIndexedAdvance t indexStream reachable i p

def reachableLoop (total_length i : ℕ) (reachable : Stream) : Stream :=
  if 0 < i ∧ i * 2 < total_length then
    reachableLoop total_length (i * 2) (extend t indexStream reachable i)
  else if i < total_length then
    extend t indexStream reachable (total_length - i)
  else
    reachable
termination_by total_length - i

def reachable (repeated : Stream) (length repeat_count : ℕ) : Stream :=
  if repeat_count = 0 then
    repeated
  else
    reachableLoop t indexStream (repeat_count * length) length
      (extend t indexStream repeated length)

end Compiler

section After

variable {indexStream : Option Stream} {a b n p q r : ℕ}

/-- A position comes `n` positions after another, or `n` index positions if there is an index. -/
def After (indexStream : Option Stream) (n p q : ℕ) : Prop :=
  match indexStream with
  | none => p + n = q
  | some index =>
    if n = 0 then p = q
    else index p = true ∧ index q = true ∧ rank index p + n = rank index q

theorem after_zero : After indexStream 0 p q ↔ p = q := by
  cases indexStream with
  | none => rfl
  | some index => rw [After, if_pos rfl]

theorem After.le (h : After indexStream n p q) : p ≤ q := by
  cases indexStream with
  | none => exact Nat.le.intro h
  | some index =>
    rw [After] at h
    split_ifs at h with hn
    · exact h.le
    · exact (lt_of_rank_lt (m := index) (by omega)).le

theorem After.left_unique (h : After indexStream n p r) (h' : After indexStream n q r) :
    p = q := by
  cases indexStream with
  | none => exact Nat.add_right_cancel (h.trans h'.symm)
  | some index =>
    rw [After] at h h'
    split_ifs at h h' with hn
    · exact h.trans h'.symm
    · exact rank_inj h.1 h'.1 (by omega)

theorem After.trans (h : After indexStream a p q) (h' : After indexStream b q r) :
    After indexStream (a + b) p r := by
  rcases Nat.eq_zero_or_pos a with rfl | ha
  · rwa [after_zero.1 h, Nat.zero_add]
  rcases Nat.eq_zero_or_pos b with rfl | hb
  · rwa [← after_zero.1 h', Nat.add_zero]
  cases indexStream with
  | none =>
    rw [After] at h h' ⊢
    omega
  | some index =>
    rw [After, if_neg (by omega)] at h h' ⊢
    exact ⟨h.1, h'.2.1, by omega⟩

/-- On the way there is a position at every amount. -/
theorem After.split (h : After indexStream (a + b) p r) :
    ∃ q, After indexStream a p q ∧ After indexStream b q r := by
  rcases Nat.eq_zero_or_pos a with rfl | ha
  · rw [Nat.zero_add] at h
    exact ⟨p, after_zero.2 rfl, h⟩
  rcases Nat.eq_zero_or_pos b with rfl | hb
  · exact ⟨r, h, after_zero.2 rfl⟩
  cases indexStream with
  | none =>
    rw [After] at h
    exact ⟨p + a, rfl, by rw [After]; omega⟩
  | some index =>
    rw [After, if_neg (by omega)] at h
    obtain ⟨hp, hr, hrank⟩ := h
    obtain ⟨q, -, hq, hback⟩ := exists_back hr (r := rank index p + a) (by omega)
    refine ⟨q, ?_, ?_⟩
    · rw [After, if_neg (by omega)]
      exact ⟨hp, hq, hback.symm⟩
    · rw [After, if_neg (by omega)]
      exact ⟨hq, hr, by omega⟩

/-- Before the end of the file, a move by one stops at the next index position only. -/
theorem advanceThenScanTo_iff {length : ℕ} {x index : Stream} (hq : q < length) :
    Pablo.scanStatement .AdvanceThenScanTo length (fun p ↦ x p && index p) index q = true ↔
      indexedAdvance index 1 x q = true := by
  have hbefore (j : ℕ) (hj : j ≤ q) : (index j || j == length) = index j := by
    rw [beq_false_of_ne (by omega), Bool.or_false]
  rw [Pablo.advanceThenScanTo_iff_next, hbefore q le_rfl]
  refine Iff.trans ?_ (Pablo.indexedAdvance_one (x := x)).symm
  refine and_congr_right fun _ ↦ exists_congr fun p ↦ and_congr_right fun _ ↦ ?_
  rw [Bool.and_eq_true, and_comm (a := x p = true), and_assoc]
  refine and_congr_right fun _ ↦ and_congr_right fun _ ↦ forall_congr' fun j ↦
    forall_congr' fun _ ↦ ?_
  exact ⟨fun h hj ↦ hbefore j hj.le ▸ h hj, fun h hj ↦ (hbefore j hj.le).trans (h hj)⟩

theorem createIndexedAdvance_apply {t : Text} {s : Stream} (hq : q < t.length) :
    createIndexedAdvance t indexStream s n q = true ↔
      ∃ p, s p = true ∧ After indexStream n p q := by
  by_cases hn : n = 0
  · subst hn
    simp only [createIndexedAdvance, if_true, after_zero, exists_eq_right]
  · cases indexStream with
    | none =>
      simp only [createIndexedAdvance, if_neg hn, After, advance]
      constructor
      · intro h
        split_ifs at h with hlt
        exact ⟨q - n, h, by omega⟩
      · rintro ⟨p, hs, rfl⟩
        rwa [if_neg (by omega), Nat.add_sub_cancel]
    | some index =>
      have hmove : indexedAdvance index n s q = true ↔
          ∃ p, s p = true ∧ After (some index) n p q := by
        rw [indexedAdvance_iff, ← exists_and_left]
        refine exists_congr fun p ↦ ?_
        rw [After, if_neg hn]
        tauto
      simp only [createIndexedAdvance, if_neg hn]
      split_ifs with hone
      · rw [← hmove, hone]
        exact advanceThenScanTo_iff hq
      · exact hmove

end After

section Consecutive

variable {t : Text} {indexStream : Option Stream} {unit : Stream} {match_length a i n q : ℕ}

/-- Consecutive items end at a position: each ends the length of an item after the previous one. -/
inductive Repeats (unit : Stream) (indexStream : Option Stream) (match_length : ℕ) :
    ℕ → ℕ → Prop
  | one {q : ℕ} : unit q = true → Repeats unit indexStream match_length 1 q
  | more {n p q : ℕ} : Repeats unit indexStream match_length n p →
      After indexStream match_length p q → unit q = true →
        Repeats unit indexStream match_length (n + 1) q

/-- Items end at all multiples of the length before a position, for `n` of them. -/
def EndsItems (unit : Stream) (indexStream : Option Stream) (match_length n q : ℕ) : Prop :=
  ∀ k < n, ∃ p, unit p = true ∧ After indexStream (k * match_length) p q

theorem endsItems_one : EndsItems unit indexStream match_length 1 q ↔ unit q = true := by
  constructor
  · intro h
    obtain ⟨p, hp, hafter⟩ := h 0 Nat.one_pos
    rw [Nat.zero_mul, after_zero] at hafter
    rwa [← hafter]
  · intro h k hk
    obtain rfl : k = 0 := by omega
    exact ⟨q, h, by rw [Nat.zero_mul, after_zero]⟩

/-- The last items, and the items before the last `i`: it does no harm that some are both. -/
theorem endsItems_add {j : ℕ} (hi : i ≤ a) (ha : a ≤ i + j) (hj : 0 < j) :
    EndsItems unit indexStream match_length (i + j) q ↔
      EndsItems unit indexStream match_length a q ∧
        ∃ p, EndsItems unit indexStream match_length j p ∧
          After indexStream (i * match_length) p q := by
  constructor
  · intro h
    refine ⟨fun k hk ↦ h k (by omega), ?_⟩
    obtain ⟨p, -, hp⟩ := h i (by omega)
    refine ⟨p, fun k hk ↦ ?_, hp⟩
    obtain ⟨r, hr, hafter⟩ := h (k + i) (by omega)
    rw [Nat.add_mul] at hafter
    obtain ⟨p', hrp, hp'⟩ := hafter.split
    rw [← hp'.left_unique hp]
    exact ⟨r, hr, hrp⟩
  · rintro ⟨hlast, p, hbefore, hp⟩ k hk
    by_cases hka : k < a
    · exact hlast k hka
    · obtain ⟨r, hr, hafter⟩ := hbefore (k - i) (by omega)
      refine ⟨r, hr, ?_⟩
      rw [show k = k - i + i by omega, Nat.add_mul]
      exact hafter.trans hp

theorem repeats_iff (hn : 0 < n) : Repeats unit indexStream match_length n q ↔
    EndsItems unit indexStream match_length n q := by
  constructor
  · intro h
    induction h with
    | one hunit => exact endsItems_one.2 hunit
    | @more n p q h hafter hunit ih =>
      have hpos : 0 < n := by cases h <;> omega
      rw [Nat.add_comm, endsItems_add le_rfl (Nat.le_add_right 1 n) hpos, Nat.one_mul]
      exact ⟨endsItems_one.2 hunit, p, ih hpos, hafter⟩
  · intro h
    induction n generalizing q with
    | zero => exact absurd hn (Nat.lt_irrefl 0)
    | succ n ih =>
      rcases Nat.eq_zero_or_pos n with rfl | hpos
      · exact .one (endsItems_one.1 h)
      · rw [Nat.add_comm, endsItems_add le_rfl (Nat.le_add_right 1 n) hpos, Nat.one_mul] at h
        obtain ⟨hunit, p, hbefore, hafter⟩ := h
        exact .more (ih hpos hbefore) hafter (endsItems_one.1 hunit)

theorem createIf_apply {condition body : Stream} (hq : q < t.length)
    (h : body q = true → condition q = true) : createIf t condition body q = body q := by
  unfold createIf
  split_ifs with hany
  · rfl
  · cases hbody : body q with
    | false => rfl
    | true => exact absurd (List.any_eq_true.2 ⟨q, List.mem_range.2 hq, h hbody⟩) hany

/-- Doubling, with a last step that overlaps the items that are there already. -/
theorem consecutive_matches_spec {j repeat_count ifGap : ℕ} {repeated_j : Stream} (hj : 0 < j)
    (hle : j ≤ repeat_count) (hrep : ∀ q < t.length, repeated_j q = true ↔
      EndsItems unit indexStream match_length j q) :
    ∃ repeated, consecutive_matches t indexStream repeated_j j repeat_count match_length ifGap =
        some repeated ∧
      ∀ q < t.length, repeated q = true ↔
        EndsItems unit indexStream match_length repeat_count q := by
  rw [consecutive_matches]
  by_cases heq : j = repeat_count
  · rw [if_pos heq]
    exact ⟨repeated_j, rfl, heq ▸ hrep⟩
  · rw [if_neg heq, if_neg (by omega)]
    obtain ⟨i, hi⟩ : ∃ i, min j (repeat_count - j) = i := ⟨_, rfl⟩
    have hnext : ∀ q < t.length, (repeated_j q &&
        createIndexedAdvance t indexStream repeated_j (i * match_length) q) = true ↔
          EndsItems unit indexStream match_length (j + i) q := by
      intro q hq
      rw [Bool.and_eq_true, Nat.add_comm j i, endsItems_add (a := j) (by omega) (by omega) hj,
        hrep q hq, createIndexedAdvance_apply hq]
      refine and_congr_right fun _ ↦ exists_congr fun p ↦ and_congr_left fun hp ↦ ?_
      exact hrep p (hp.le.trans_lt hq)
    have hrest (gap : ℕ) := @consecutive_matches_spec (j + i) repeat_count gap _ (by omega)
      (by omega) hnext
    simp only [hi]
    split_ifs with hgap
    · obtain ⟨repeated, hcall, hruns⟩ := hrest (ifGap * ifGap)
      refine ⟨createIf t repeated_j repeated, by rw [hcall]; rfl, fun q hq ↦ ?_⟩
      rw [createIf_apply hq, hruns q hq]
      intro hq'
      exact (hrep q hq).2 fun k hk ↦ (hruns q hq).1 hq' k (by omega)
    · exact hrest ifGap
termination_by repeat_count - j

end Consecutive

section Reach

variable {t : Text} {indexStream : Option Stream} {marks : Stream} {length i j n q : ℕ}

/-- A marked position is at most `n` repetitions before. -/
def Within (marks : Stream) (indexStream : Option Stream) (length n q : ℕ) : Prop :=
  ∃ k ≤ n, ∃ p, marks p = true ∧ After indexStream (k * length) p q

theorem within_zero : Within marks indexStream length 0 q ↔ marks q = true := by
  constructor
  · rintro ⟨k, hk, p, hp, hafter⟩
    rw [Nat.le_zero.1 hk, Nat.zero_mul, after_zero] at hafter
    rwa [← hafter]
  · intro h
    exact ⟨0, le_rfl, q, h, by rw [Nat.zero_mul, after_zero]⟩

theorem within_add (hij : i ≤ j + 1) : Within marks indexStream length (j + i) q ↔
    Within marks indexStream length j q ∨
      ∃ p, Within marks indexStream length j p ∧ After indexStream (i * length) p q := by
  constructor
  · rintro ⟨k, hk, p, hp, hafter⟩
    by_cases hkj : k ≤ j
    · exact .inl ⟨k, hkj, p, hp, hafter⟩
    · rw [show k = k - i + i by omega, Nat.add_mul] at hafter
      obtain ⟨r, hpr, hrq⟩ := hafter.split
      exact .inr ⟨r, ⟨k - i, by omega, p, hp, hpr⟩, hrq⟩
  · rintro (⟨k, hk, h⟩ | ⟨r, ⟨k, hk, p, hp, hpr⟩, hrq⟩)
    · exact ⟨k, by omega, h⟩
    · refine ⟨k + i, by omega, p, hp, ?_⟩
      rw [Nat.add_mul]
      exact hpr.trans hrq

theorem extend_spec {reach : Stream} (hij : i ≤ j + 1)
    (hreach : ∀ q < t.length, reach q = true ↔ Within marks indexStream length j q) :
    ∀ q < t.length, extend t indexStream reach (i * length) q = true ↔
      Within marks indexStream length (j + i) q := by
  intro q hq
  rw [extend, Bool.or_eq_true, within_add hij, hreach q hq, createIndexedAdvance_apply hq]
  refine or_congr_right (exists_congr fun p ↦ and_congr_left fun hp ↦ ?_)
  exact hreach p (hp.le.trans_lt hq)

theorem reachableLoop_spec {i : ℕ} {reach : Stream} (hi : 0 < i) (hle : i ≤ n)
    (hlength : 0 < length)
    (hreach : ∀ q < t.length, reach q = true ↔ Within marks indexStream length i q) :
    ∀ q < t.length, reachableLoop t indexStream (n * length) (i * length) reach q = true ↔
      Within marks indexStream length n q := by
  have hmore : i * length * 2 < n * length ↔ i * 2 < n := by
    rw [Nat.mul_right_comm]
    exact Nat.mul_lt_mul_right hlength
  have hlast : i * length < n * length ↔ i < n := Nat.mul_lt_mul_right hlength
  rw [reachableLoop]
  split_ifs with hdouble hrest
  · have hstep := extend_spec (i := i) (by omega) hreach
    rw [← Nat.mul_two] at hstep
    rw [Nat.mul_right_comm]
    exact reachableLoop_spec (by omega) (by omega) hlength hstep
  · have hnot : ¬ i * 2 < n := fun h ↦ hdouble ⟨Nat.mul_pos hi hlength, hmore.2 h⟩
    have hstep := extend_spec (i := n - i) (by omega) hreach
    rwa [Nat.add_sub_cancel' hle, Nat.sub_mul] at hstep
  · obtain rfl : i = n := by omega
    exact hreach
termination_by n - i

theorem reachable_spec : ∀ q < t.length,
    reachable t indexStream marks length n q = true ↔ Within marks indexStream length n q := by
  have hzero : ∀ q < t.length, marks q = true ↔ Within marks indexStream length 0 q :=
    fun q _ ↦ within_zero.symm
  unfold reachable
  split_ifs with hn
  · rw [hn]
    exact hzero
  · have hone := extend_spec (i := 1) le_rfl hzero
    rw [Nat.one_mul, Nat.zero_add] at hone
    rcases Nat.eq_zero_or_pos length with rfl | hlength
    · intro q hq
      have hloop (reach : Stream) : reachableLoop t indexStream (n * 0) 0 reach = reach := by
        rw [reachableLoop, if_neg (by omega), if_neg (by omega)]
      rw [hloop, hone q hq]
      simp only [Within, Nat.mul_zero]
      constructor
      · rintro ⟨k, hk, h⟩
        exact ⟨0, Nat.zero_le _, h⟩
      · rintro ⟨k, hk, h⟩
        exact ⟨0, Nat.zero_le _, h⟩
    · have hloop := reachableLoop_spec Nat.one_pos (Nat.pos_of_ne_zero hn) hlength hone
      rwa [Nat.one_mul] at hloop

end Reach

section LengthOne

variable {t : Text} {indexStream : Option Stream} {j n ifGap : ℕ} {s s' : Stream}

/-- Where items have the length 1, the moves are those of the repetitions of one position. -/
theorem createIndexedAdvance_length_one (h : ∀ q < t.length, s q = s' q) (n : ℕ) :
    ∃ adv, RE.createIndexedAdvance s indexStream n = some adv ∧
      ∀ q < t.length, adv q = createIndexedAdvance t indexStream s' (n * 1) q := by
  have hback {q : ℕ} (hq : q < t.length) : (∃ p, s p = true ∧ After indexStream n p q) ↔
      ∃ p, s' p = true ∧ After indexStream n p q :=
    exists_congr fun p ↦ and_congr_left fun hp ↦ by rw [h p (hp.le.trans_lt hq)]
  rcases Nat.eq_zero_or_pos n with rfl | hn
  · refine ⟨s, rfl, fun q hq ↦ ?_⟩
    rw [Bool.eq_iff_iff, createIndexedAdvance_apply hq, ← hback hq]
    simp only [after_zero, exists_eq_right]
  · have hamount : ¬ (n : ℤ) < 0 ∧ (n : ℤ) ≠ 0 := by omega
    cases indexStream with
    | none =>
      refine ⟨advance n s, ?_, fun q hq ↦ ?_⟩
      · rw [RE.createIndexedAdvance, if_neg hamount.1, if_neg hamount.2]
        rfl
      · rw [Bool.eq_iff_iff, createIndexedAdvance_apply hq, Nat.mul_one, ← hback hq,
          ← indexedAdvance_ones, indexedAdvance_iff]
        simp only [rank_ones, true_and]
        rfl
    | some index =>
      refine ⟨indexedAdvance index n s, ?_, fun q hq ↦ ?_⟩
      · rw [RE.createIndexedAdvance, if_neg hamount.1, if_neg hamount.2]
        rfl
      · rw [Bool.eq_iff_iff, createIndexedAdvance_apply hq, Nat.mul_one, ← hback hq,
          indexedAdvance_iff, ← exists_and_left]
        refine exists_congr fun p ↦ ?_
        rw [After, if_neg hn.ne']
        tauto

theorem consecutive_matches_length_one {j ifGap : ℕ} {s s' : Stream} (hj : 0 < j) (hle : j ≤ n)
    (h : ∀ q < t.length, s q = s' q) : ∃ r r',
      RE.consecutive_matches t s j n indexStream ifGap = some r ∧
        consecutive_matches t indexStream s' j n 1 ifGap = some r' ∧
          ∀ q < t.length, r q = r' q := by
  rw [RE.consecutive_matches, consecutive_matches]
  by_cases heq : j = n
  · exact ⟨s, s', if_pos heq, if_pos heq, h⟩
  · obtain ⟨adv, hadv, hsame⟩ := @createIndexedAdvance_length_one t indexStream s s' h
      (min j (n - j))
    have hnext : ∀ q < t.length, (s q && adv q) =
        (s' q && createIndexedAdvance t indexStream s' (min j (n - j) * 1) q) := fun q hq ↦ by
      rw [h q hq, hsame q hq]
    have hrest (gap : ℕ) := @consecutive_matches_length_one (j + min j (n - j)) gap _ _ (by omega)
      (by omega) hnext
    simp only [if_neg heq, if_neg (show ¬ (n < j ∨ j = 0) by omega), hadv, Option.bind_eq_bind,
      Option.bind_some]
    split_ifs with hgap
    · obtain ⟨r, r', hr, hr', hrr⟩ := hrest (ifGap * ifGap)
      refine ⟨createIf t s r, createIf t s' r', by rw [hr]; rfl, by rw [hr']; rfl, fun q hq ↦ ?_⟩
      have hany : (List.range t.length).any s = (List.range t.length).any s' := by
        rw [Bool.eq_iff_iff, List.any_eq_true, List.any_eq_true]
        exact exists_congr fun p ↦ and_congr_right fun hp ↦ by rw [h p (List.mem_range.1 hp)]
      rw [createIf, createIf, hany]
      split_ifs
      · exact hrr q hq
      · rfl
    · exact hrest ifGap
termination_by n - j

theorem extend_length_one (h : ∀ q < t.length, s q = s' q) (n : ℕ) :
    ∃ more, RE.extend indexStream s n = some more ∧
      ∀ q < t.length, more q = extend t indexStream s' n q := by
  obtain ⟨adv, hadv, hsame⟩ := @createIndexedAdvance_length_one t indexStream s s' h n
  rw [Nat.mul_one] at hsame
  refine ⟨_, by rw [RE.extend, hadv]; rfl, fun q hq ↦ ?_⟩
  rw [extend, ← h q hq, ← hsame q hq]

theorem reachableLoop_length_one {j : ℕ} {s s' : Stream} (h : ∀ q < t.length, s q = s' q) :
    ∃ r, RE.reachableLoop indexStream n s j = some r ∧
      ∀ q < t.length, r q = reachableLoop t indexStream n j s' q := by
  rw [RE.reachableLoop, reachableLoop]
  split_ifs with hdouble hrest
  · obtain ⟨more, hmore, hsame⟩ := @extend_length_one t indexStream s s' h j
    obtain ⟨r, hr, hrr⟩ := @reachableLoop_length_one (j * 2) _ _ hsame
    exact ⟨r, by rw [hmore]; exact hr, hrr⟩
  · exact extend_length_one h (n - j)
  · exact ⟨s, rfl, h⟩
termination_by n - j

/-- Within a text, what is reached by items of the length 1 is what the repetitions of one position
take for reached. -/
theorem reachable_length_one (s : Stream) (n : ℕ) : ∃ r, RE.reachable s n indexStream = some r ∧
    ∀ q < t.length, r q = reachable t indexStream s 1 n q := by
  unfold RE.reachable reachable
  split_ifs with hn
  · exact ⟨s, rfl, fun _ _ ↦ rfl⟩
  · obtain ⟨more, hmore, hsame⟩ := @extend_length_one t indexStream s s (fun _ _ ↦ rfl) 1
    obtain ⟨r, hr, hrr⟩ := @reachableLoop_length_one t indexStream n 1 _ _ hsame
    rw [Nat.mul_one]
    exact ⟨r, by rw [hmore]; exact hr, hrr⟩

end LengthOne

end Parabix.RE.MatchLengths
