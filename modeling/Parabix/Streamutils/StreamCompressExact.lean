import Parabix.Library.Compaction
import Parabix.Streamutils.StreamCompress

namespace Parabix.Streamutils

open Library Library.BitStream Library.Compaction IDISA Unicode

namespace StreamCompress

section Movement

variable {w n base s t p c j : ℕ} {d m : ℕ → ℕ} {fieldNo finalFieldNo outputFields x : Stream}

theorem srli_apply {shift : ℕ} (hc : c < w) : mvmd_srli w n x shift (w * p + c) =
    (decide (p + shift < n) && x (w * (p + shift) + c)) := by
  have hfield := @field_srli w p shift x n
  split_ifs at hfield with hin
  · rw [apply_of_field hfield hc, decide_eq_true hin, Bool.true_and]
  · rw [apply_of_field_eq_zero hfield hc, decide_eq_false hin, Bool.false_and]

theorem sll_apply {poison : Stream} {shift : ℕ} (hc : c < w) (hshift : shift < n) :
    mvmd_sll w n poison x shift (w * p + c) =
      (decide (shift ≤ p) && x (w * (p - shift) + c)) := by
  have hfield := @field_slli w p shift x
  rw [mvmd_sll, if_pos hshift]
  split_ifs at hfield with hlow
  · rw [apply_of_field_eq_zero hfield hc, decide_eq_false (Nat.not_le_of_lt hlow), Bool.false_and]
  · rw [apply_of_field hfield hc, decide_eq_true (Nat.le_of_not_lt hlow), Bool.true_and]

theorem srl_apply {poison : Stream} {shift : ℕ} (hc : c < w) (hshift : shift < n) :
    mvmd_srl w n poison x shift (w * p + c) =
      (decide (p + shift < n) && x (w * (p + shift) + c)) := by
  rw [mvmd_srl, if_pos hshift, srli_apply hc]

/-- Every field has the number of an item at its place or near it, and the items' own fields have
their numbers. -/
structure Numbered (w n base : ℕ) (d m : ℕ → ℕ) (s : ℕ) (fieldNo : Stream) : Prop where
  near (p : ℕ) (hp : p < n) : ∃ j < n, field w fieldNo p = base + d j ∧ Near d m s p j
  item (j : ℕ) (hj : j < n) : field w fieldNo (place d m s j) = base + d j

/-- Every field has the bits of the items at its place. -/
def Held (w n : ℕ) (d m : ℕ → ℕ) (source : Stream) (s : ℕ) (outputFields : Stream) : Prop :=
  ∀ p < n, ∀ c < w, outputFields (w * p + c) = true ↔
    ∃ j < n, place d m s j = p ∧ source (w * j + c) = true

def fieldsToMove (w : ℕ) (finalFieldNo : Stream) (s : ℕ) (fieldNo : Stream) : Stream :=
  simd_eq w (simd_fill w (2 ^ s)) (simd_and (simd_fill w (2 ^ s)) (simd_sub w finalFieldNo fieldNo))

def newFieldNos (w n : ℕ) (finalFieldNo : Stream) (s : ℕ) (fieldNo : Stream) : Stream :=
  simd_if (mvmd_srli w n (fieldsToMove w finalFieldNo s fieldNo) (2 ^ s))
    (mvmd_srli w n fieldNo (2 ^ s)) fieldNo

/-- The fields move whose items do. -/
theorem fieldsToMove_apply (hfinal : field w finalFieldNo p = base + p)
    (hno : field w fieldNo p = base + d j) (hnear : Near d m s p j) (hs : 2 ^ s < 2 ^ w)
    (hp : p < 2 ^ w) (hc : c < w) : fieldsToMove w finalFieldNo s fieldNo (w * p + c) =
      decide (m j / 2 ^ s % 2 = 1) := by
  have hle := hnear.dest_le
  have hmovement : field w (simd_sub w finalFieldNo fieldNo) p = p - d j := by
    rw [simd_sub, field_ofFields, hfinal, hno,
      show base + p + 2 ^ w - (base + d j) = p - d j + 2 ^ w by omega, Nat.add_mod_right,
      Nat.mod_eq_of_lt (by omega)]
  rw [fieldsToMove, simd_eq_apply hc, field_and, field_fill hs, hmovement, Nat.and_comm,
    Nat.and_two_pow, Nat.testBit_eq_decide_div_mod_eq, hnear.bit, decide_eq_decide]
  have hpos : 0 < 2 ^ s := Nat.two_pow_pos s
  constructor
  · intro h
    by_contra hne
    rw [decide_eq_false hne, Bool.toNat_false, Nat.zero_mul] at h
    omega
  · intro h
    rw [decide_eq_true h, Bool.toNat_true, Nat.one_mul]

/-- The field of an item that moves is received, with its number. -/
structure Receives (w n base : ℕ) (d m : ℕ → ℕ) (finalFieldNo : Stream) (s : ℕ) (fieldNo : Stream)
    (p k : ℕ) : Prop where
  lt : p + 2 ^ s < n
  near : Near d m s (p + 2 ^ s) k
  moving : m k / 2 ^ s % 2 = 1
  source : field w fieldNo (p + 2 ^ s) = base + d k
  number : field w (newFieldNos w n finalFieldNo s fieldNo) p = base + d k
  bits (c : ℕ) (hc : c < w) : fieldsToMove w finalFieldNo s fieldNo (w * (p + 2 ^ s) + c) = true

structure Keeps (w n : ℕ) (finalFieldNo : Stream) (s : ℕ) (fieldNo : Stream) (p : ℕ) : Prop where
  number : field w (newFieldNos w n finalFieldNo s fieldNo) p = field w fieldNo p
  bits (c : ℕ) (hc : c < w) : mvmd_srli w n (fieldsToMove w finalFieldNo s fieldNo) (2 ^ s)
    (w * p + c) = false

theorem Numbered.receives_or_keeps (hno : Numbered w n base d m s fieldNo)
    (hfinal : ∀ p < n, field w finalFieldNo p = base + p) (hs : 2 ^ s < 2 ^ w) (hn : n ≤ 2 ^ w)
    (p : ℕ) : (∃ k < n, Receives w n base d m finalFieldNo s fieldNo p k) ∨
      Keeps w n finalFieldNo s fieldNo p := by
  have hkeeps (hbits : ∀ c < w, mvmd_srli w n (fieldsToMove w finalFieldNo s fieldNo) (2 ^ s)
      (w * p + c) = false) : Keeps w n finalFieldNo s fieldNo p :=
    ⟨field_congr fun c hc ↦ by rw [newFieldNos, simd_if, if_neg (by simp [hbits c hc])], hbits⟩
  by_cases hlt : p + 2 ^ s < n
  · obtain ⟨k, hk, hnumber, hnear⟩ := hno.near (p + 2 ^ s) hlt
    have hmove (c : ℕ) (hc : c < w) := fieldsToMove_apply (hfinal _ hlt) hnumber hnear hs
      (hlt.trans_le hn) hc
    have hreceived (c : ℕ) (hc : c < w) : mvmd_srli w n (fieldsToMove w finalFieldNo s fieldNo)
        (2 ^ s) (w * p + c) = decide (m k / 2 ^ s % 2 = 1) := by
      rw [srli_apply hc, decide_eq_true hlt, Bool.true_and, hmove c hc]
    by_cases hmoving : m k / 2 ^ s % 2 = 1
    · refine .inl ⟨k, hk, hlt, hnear, hmoving, hnumber, ?_, fun c hc ↦ ?_⟩
      · rw [← hnumber, newFieldNos]
        have hsrli := @field_srli w p (2 ^ s) fieldNo n
        rw [if_pos hlt] at hsrli
        rw [← hsrli]
        apply field_congr
        intro c hc
        rw [simd_if, if_pos]
        rw [hreceived c hc, decide_eq_true hmoving]
      · rw [hmove c hc, decide_eq_true hmoving]
    · refine .inr (hkeeps fun c hc ↦ ?_)
      rw [hreceived c hc, decide_eq_false hmoving]
  · refine .inr (hkeeps fun c hc ↦ ?_)
    rw [srli_apply hc, decide_eq_false hlt, Bool.false_and]

theorem Numbered.step (hd : Monotone d) (hm : Monotone m) (hdm : ∀ j, d j + m j = j)
    (hno : Numbered w n base d m s fieldNo)
    (hfinal : ∀ p < n, field w finalFieldNo p = base + p) (hs : 2 ^ s < 2 ^ w) (hn : n ≤ 2 ^ w) :
    Numbered w n base d m (s + 1) (newFieldNos w n finalFieldNo s fieldNo) where
  near p hp := by
    rcases hno.receives_or_keeps hfinal hs hn p with ⟨k, hk, hreceives⟩ | hkeeps
    · exact ⟨k, hk, hreceives.number, hreceives.near.moved hreceives.moving⟩
    · obtain ⟨j, hj, hnumber, hnear⟩ := hno.near p hp
      exact ⟨j, hj, hkeeps.number.trans hnumber, hnear.kept⟩
  item j hj := by
    have hplace := place_le (s := s) (hdm j)
    rcases Nat.mod_two_eq_zero_or_one (m j / 2 ^ s) with hstay | hmoving
    · rw [← place_of_staying hstay]
      rcases hno.receives_or_keeps hfinal hs hn (place d m s j) with ⟨k, -, hreceives⟩ | hkeeps
      · -- What an item receives that stays has its number.
        obtain ⟨ρ, hρ⟩ := Nat.exists_eq_add_of_le hreceives.near.le
        have hlt := hreceives.near.lt
        rw [hreceives.number, same_destination hd hm hstay hreceives.moving (by omega) hρ]
      · rw [hkeeps.number, hno.item j hj]
    · have hat := place_of_moving (d := d) hmoving
      have hnumber := hno.item j hj
      rcases hno.receives_or_keeps hfinal hs hn (place d m (s + 1) j) with
        ⟨k, -, hreceives⟩ | hkeeps
      · rw [hreceives.number, ← hreceives.source, ← hat, hnumber]
      · have hw : 0 < w := Nat.pos_of_ne_zero fun hw ↦ by simp [hw] at hs
        have hlt : place d m s j < n := by omega
        have hbit := hkeeps.bits 0 hw
        rw [srli_apply hw, ← hat, decide_eq_true hlt, Bool.true_and,
          fieldsToMove_apply (hfinal _ hlt) hnumber (.of_place rfl) hs (hlt.trans_le hn) hw,
          decide_eq_true hmoving] at hbit
        exact absurd hbit.symm Bool.false_ne_true

/-- The fields that one step moves. -/
def movedFields (w n s : ℕ) (outputFields fieldsToMove combine : Stream) : Stream :=
  let data_to_move := simd_and outputFields fieldsToMove
  simd_or (mvmd_srli w n data_to_move (2 ^ s))
    (simd_or (simd_and outputFields combine) (simd_xor outputFields data_to_move))

theorem movedFields_apply {moves combine : Stream} (hc : c < w)
    (hcombined : combine (w * p + c) = true → moves (w * p + c) = false) :
    movedFields w n s outputFields moves combine (w * p + c) = true ↔
      (p + 2 ^ s < n ∧ outputFields (w * (p + 2 ^ s) + c) = true ∧
        moves (w * (p + 2 ^ s) + c) = true) ∨
      (outputFields (w * p + c) = true ∧ moves (w * p + c) = false) := by
  simp only [movedFields, simd_or, simd_and, simd_xor, srli_apply hc]
  cases hmoves : moves (w * p + c) with
  | true =>
    have hnone : combine (w * p + c) = false :=
      Bool.eq_false_iff.2 fun h ↦ Bool.false_ne_true ((hcombined h).symm.trans hmoves)
    simp [hnone]
  | false => cases outputFields (w * p + c) <;> simp

/-- A field that receives one of its number does not move. -/
theorem Receives.not_moving {k : ℕ} (hreceives : Receives w n base d m finalFieldNo s fieldNo p k)
    (hnear : Near d m s p j) (hsame : d j = d k) : m j / 2 ^ s % 2 = 0 := by
  have hbit := hnear.bit
  have hbit' := hreceives.near.bit
  have hmoving := hreceives.moving
  have hle := hnear.dest_le
  rw [← hsame, Nat.sub_add_comm hle, Nat.add_div_right _ (Nat.two_pow_pos s),
    hbit] at hbit'
  omega

theorem Held.step (hdm : ∀ j, d j + m j = j) (hheld : Held w n d m x s outputFields)
    (hno : Numbered w n base d m s fieldNo)
    (hfinal : ∀ p < n, field w finalFieldNo p = base + p) (hs : 2 ^ s < 2 ^ w) (hn : n ≤ 2 ^ w) :
    Held w n d m x (s + 1) (movedFields w n s outputFields
      (fieldsToMove w finalFieldNo s fieldNo)
      (simd_and (simd_eq w fieldNo (newFieldNos w n finalFieldNo s fieldNo))
        (mvmd_srli w n (fieldsToMove w finalFieldNo s fieldNo) (2 ^ s)))) := by
  intro p hp c hc
  have hmove {j : ℕ} (hj : j < n) : fieldsToMove w finalFieldNo s fieldNo (w * place d m s j + c) =
      decide (m j / 2 ^ s % 2 = 1) := by
    have hlt : place d m s j < n := (place_le (hdm j)).trans_lt hj
    exact fieldsToMove_apply (hfinal _ hlt) (hno.item j hj) (.of_place rfl) hs (hlt.trans_le hn) hc
  -- A field that is combined stays.
  have hcombined : simd_and (simd_eq w fieldNo (newFieldNos w n finalFieldNo s fieldNo))
      (mvmd_srli w n (fieldsToMove w finalFieldNo s fieldNo) (2 ^ s)) (w * p + c) = true →
        fieldsToMove w finalFieldNo s fieldNo (w * p + c) = false := by
    intro h
    rw [simd_and, Bool.and_eq_true, simd_eq_apply hc, decide_eq_true_eq] at h
    obtain ⟨j, -, hnumber, hnear⟩ := hno.near p hp
    rcases hno.receives_or_keeps hfinal hs hn p with ⟨k, -, hreceives⟩ | hkeeps
    · have hsame : d j = d k := by
        have := h.1
        rw [hnumber, hreceives.number] at this
        omega
      rw [fieldsToMove_apply (hfinal p hp) hnumber hnear hs (hp.trans_le hn) hc,
        hreceives.not_moving hnear hsame]
      rfl
    · exact absurd (h.2.symm.trans (hkeeps.bits c hc)) Bool.true_eq_false.mp
  have hbit := @movedFields_apply _ n s _ _ outputFields _ _ hc hcombined
  have hstays {j : ℕ} (hmoves : decide (m j / 2 ^ s % 2 = 1) = false) : m j / 2 ^ s % 2 = 0 :=
    Nat.mod_two_ne_one.1 (of_decide_eq_false hmoves)
  rw [hbit]
  constructor
  · rintro (⟨hlt, hout, hmoves⟩ | ⟨hout, hmoves⟩)
    · obtain ⟨j, hj, hplace, hx⟩ := (hheld _ hlt c hc).1 hout
      rw [← hplace, hmove hj, decide_eq_true_eq] at hmoves
      have hat := place_of_moving (d := d) hmoves
      exact ⟨j, hj, by omega, hx⟩
    · obtain ⟨j, hj, hplace, hx⟩ := (hheld p hp c hc).1 hout
      rw [← hplace, hmove hj] at hmoves
      exact ⟨j, hj, (place_of_staying (hstays hmoves)).symm.trans hplace, hx⟩
  · rintro ⟨j, hj, hplace, hx⟩
    cases hmoves : decide (m j / 2 ^ s % 2 = 1) with
    | true =>
      have hat := place_of_moving (d := d) (of_decide_eq_true hmoves)
      rw [hplace] at hat
      have hlt : p + 2 ^ s < n := hat ▸ (place_le (hdm j)).trans_lt hj
      refine .inl ⟨hlt, (hheld _ hlt c hc).2 ⟨j, hj, hat, hx⟩, ?_⟩
      rw [← hat, hmove hj, hmoves]
    | false =>
      have hat : place d m s j = p := (place_of_staying (hstays hmoves)).trans hplace
      refine .inr ⟨(hheld p hp c hc).2 ⟨j, hj, hat, hx⟩, ?_⟩
      rw [← hat, hmove hj, hmoves]

/-- At the end all bits are at the destinations of their items. -/
theorem moveFields_held (hd : Monotone d) (hm : Monotone m) (hdm : ∀ j, d j + m j = j)
    (hfinal : ∀ p < n, field w finalFieldNo p = base + p) (ht : 2 ^ t ≤ n) (hn : n < 2 ^ w)
    {steps : ℕ} (hsteps : s + steps = t) (hno : Numbered w n base d m s fieldNo)
    (hheld : Held w n d m x s outputFields) :
    Held w n d m x t (moveFields w n s outputFields
      (movementSteps w n finalFieldNo steps s fieldNo)) := by
  induction steps generalizing s fieldNo outputFields with
  | zero =>
    obtain rfl : s = t := hsteps
    exact hheld
  | succ steps ih =>
    have hs : 2 ^ s < 2 ^ w :=
      (Nat.pow_le_pow_right Nat.two_pos (by omega)).trans_lt (ht.trans_lt hn)
    exact ih (by omega) (hno.step hd hm hdm hfinal hs hn.le)
      (hheld.step hdm hno hfinal hs hn.le)

theorem moveFields_apply (hd : Monotone d) (hm : Monotone m) (hdm : ∀ j, d j + m j = j)
    (hn : 2 ^ t < 2 ^ w) (hfinal : ∀ p < 2 ^ t, field w finalFieldNo p = base + p)
    (hno : ∀ j < 2 ^ t, field w fieldNo j = base + d j) (hp : p < 2 ^ t) (hc : c < w) :
    moveFields w (2 ^ t) 0 x (movementSteps w (2 ^ t) finalFieldNo t 0 fieldNo) (w * p + c) =
      true ↔ ∃ j < 2 ^ t, d j = p ∧ x (w * j + c) = true := by
  have hzero (j : ℕ) : place d m 0 j = j := place_zero (hdm j)
  have hnumbered : Numbered w (2 ^ t) base d m 0 fieldNo :=
    ⟨fun p hp ↦ ⟨p, hp, hno p hp, .of_place (hzero p)⟩, fun j hj ↦ by rw [hzero, hno j hj]⟩
  have hheld : Held w (2 ^ t) d m x 0 x := fun p hp c _ ↦
    ⟨fun h ↦ ⟨p, hp, hzero p, h⟩, fun ⟨j, _, hj, hx⟩ ↦ by rwa [← hj, hzero]⟩
  rw [moveFields_held hd hm hdm hfinal le_rfl hn (Nat.zero_add t) hnumbered hheld p hp c hc]
  refine exists_congr fun j ↦ and_congr_right fun hj ↦ ?_
  have hle : m j < 2 ^ t := by
    have := hdm j
    omega
  rw [place_of_lt hle]

end Movement

section Block

variable {e t w P i j c q : ℕ} {mask source value pending poison : Stream}

/-- The field of the output in which a field of the block begins, after `P` pending items. -/
def startField (w : ℕ) (mask : Stream) (P j : ℕ) : ℕ := (P + rank mask (w * j)) / w

/-- An item of a field of the block that goes to the position `q`. -/
def Item (w : ℕ) (mask value : Stream) (P j q : ℕ) : Prop :=
  ∃ p < w, mask (w * j + p) = true ∧ value (w * j + p) = true ∧ P + rank mask (w * j + p) = q

/-- In every field the items follow one another from the low end on. -/
def Compressed (w n : ℕ) (mask value source : Stream) : Prop :=
  ∀ j < n, ∀ b < w, source (w * j + b) = true ↔
    ∃ p < w, mask (w * j + p) = true ∧ rank mask (w * j + p) = rank mask (w * j) + b ∧
      value (w * j + p) = true

theorem startField_zero : startField w mask P 0 = P / w := by
  rw [startField, Nat.mul_zero, rank_zero, Nat.add_zero]

theorem startField_mono : Monotone (startField w mask P) := fun _ _ h ↦
  Nat.div_le_div_right (Nat.add_le_add_left (rank_mono mask (Nat.mul_le_mul_left w h)) P)

theorem startField_succ_le (hw : 0 < w) (j : ℕ) :
    startField w mask P (j + 1) ≤ startField w mask P j + 1 := by
  have hpop := pop_le mask (w * j) w
  rw [startField, startField, ← Nat.add_div_right _ hw, Nat.mul_succ, rank_add_pop]
  exact Nat.div_le_div_right (by omega)

theorem startField_add_le (hw : 0 < w) (k j : ℕ) :
    startField w mask P (k + j) ≤ startField w mask P k + j := by
  induction j with
  | zero => rfl
  | succ j ih => exact (startField_succ_le hw (k + j)).trans (Nat.succ_le_succ ih)

theorem startField_mul_add (w : ℕ) (mask : Stream) (P j : ℕ) :
    w * startField w mask P j + (P + rank mask (w * j)) % w = P + rank mask (w * j) :=
  Nat.div_add_mod _ _

/-- An item goes to the field in which its own one begins, or to the next one if a field of the
output is filled. -/
theorem Item.field_eq {k : ℕ} (hitem : Item w mask value P j (w * k + c)) (hc : c < w) :
    k = startField w mask P j ∨
      k = startField w mask P j + 1 ∧ startField w mask P (j + 1) = k := by
  obtain ⟨p, hp, hm, -, hrank⟩ := hitem
  have hw : 0 < w := by omega
  have hlow := rank_add mask (w * j) p
  have hhigh := rank_lt_of_true hm (show w * j + p < w * (j + 1) by rw [Nat.mul_succ]; omega)
  have hle := rank_le (fun i ↦ mask (w * j + i)) p
  have hk : (P + rank mask (w * j + p)) / w = k := by rw [hrank, mul_add_div_of_lt hc]
  have hge : startField w mask P j ≤ k := by
    rw [← hk]
    exact Nat.div_le_div_right (by omega)
  have hnext : k ≤ startField w mask P (j + 1) := by
    rw [← hk]
    exact Nat.div_le_div_right (by omega)
  have hsucc := @startField_succ_le _ P mask hw j
  omega

theorem current_iff (hsource : ∀ b < w, source (w * j + b) = true ↔
    ∃ p < w, mask (w * j + p) = true ∧ rank mask (w * j + p) = rank mask (w * j) + b ∧
      value (w * j + p) = true) (hc : c < w) :
    (decide ((P + rank mask (w * j)) % w ≤ c) = true ∧
        source (w * j + (c - (P + rank mask (w * j)) % w)) = true) ↔
      Item w mask value P j (w * startField w mask P j + c) := by
  have hstart := startField_mul_add w mask P j
  rw [hsource _ (by omega), decide_eq_true_eq]
  constructor
  · rintro ⟨hle, p, hp, hm, hrank, hv⟩
    exact ⟨p, hp, hm, hv, by omega⟩
  · rintro ⟨p, hp, hm, hv, hrank⟩
    have hlow := rank_add mask (w * j) p
    exact ⟨by omega, p, hp, hm, by omega, hv⟩

theorem next_iff (hsource : ∀ b < w, source (w * j + b) = true ↔
    ∃ p < w, mask (w * j + p) = true ∧ rank mask (w * j + p) = rank mask (w * j) + b ∧
      value (w * j + p) = true) (hc : c < w) :
    (¬(P + rank mask (w * j)) % w ≤ c ∧
        source (w * j + (c + w - (P + rank mask (w * j)) % w)) = true) ↔
      Item w mask value P j (w * (startField w mask P j + 1) + c) := by
  have hstart := startField_mul_add w mask P j
  have hmod : (P + rank mask (w * j)) % w < w := Nat.mod_lt _ (by omega)
  rw [Nat.mul_succ]
  constructor
  · rintro ⟨hlt, hbit⟩
    obtain ⟨p, hp, hm, hrank, hv⟩ := (hsource _ (by omega)).1 hbit
    exact ⟨p, hp, hm, hv, by omega⟩
  · rintro ⟨p, hp, hm, hv, hrank⟩
    have hlow := rank_add mask (w * j) p
    have hle := rank_le (fun i ↦ mask (w * j + i)) p
    exact ⟨by omega, (hsource _ (by omega)).2 ⟨p, hp, hm, by omega, hv⟩⟩

theorem field_offsets (hw : 2 ^ e = w) (hroom : w * 2 ^ t + w * 2 ^ t ≤ 2 ^ w) (hj : j < 2 ^ t) :
    field w (control w (2 ^ t) mask P).offsets j = (P + rank mask (w * j)) % w := by
  have hpos : 0 < w := hw ▸ Nat.two_pow_pos e
  have hle : w ≤ w * 2 ^ t := Nat.le_mul_of_pos_right w (Nat.two_pow_pos t)
  have hmod := Nat.mod_lt P hpos
  have hsum : field w (mvmd_slli w (hsimd_partial_sum w (2 ^ t) (simd_popcount w mask)) 1) j =
      rank mask (w * j) := by
    rw [field_slli]
    split_ifs with hzero
    · rw [show j = 0 by omega, Nat.mul_zero, rank_zero]
    · rw [field_hsimd_partial_sum (by omega) (by omega), show j - 1 + 1 = j by omega]
  have hrank := (rank_le mask (w * j)).trans (Nat.mul_le_mul_left w hj.le)
  simp only [control, field_and, simd_add, field_ofFields, hsum]
  rw [field_fill (by omega), field_fill (by omega), Nat.mod_eq_of_lt (by omega), ← hw,
    Nat.and_two_pow_sub_one_eq_mod, hw, Nat.add_mod_mod, Nat.add_comm]

/-- The numbers of the fields of the output in which the fields of the block end. -/
theorem field_initialFieldNo (hw : 2 ^ e = w) (hroom : w * 2 ^ t + w * 2 ^ t ≤ 2 ^ w)
    (hj : j < 2 ^ t) :
    field w (simd_srli w (simd_add w (hsimd_partial_sum w (2 ^ t) (simd_popcount w mask))
        (simd_fill w (P % w))) (Nat.log2 w)) j = startField w mask P (j + 1) - P / w := by
  have hpos : 0 < w := hw ▸ Nat.two_pow_pos e
  have hle : w ≤ w * 2 ^ t := Nat.le_mul_of_pos_right w (Nat.two_pow_pos t)
  have hmod := Nat.mod_lt P hpos
  have hdiv := Nat.div_add_mod P w
  have hrank := (rank_le mask (w * (j + 1))).trans (Nat.mul_le_mul_left w hj)
  have hlt : rank mask (w * (j + 1)) + P % w < 2 ^ w := by omega
  rw [simd_srli, field_ofFields, simd_add, field_ofFields, field_hsimd_partial_sum (by omega) hj,
    field_fill (by omega), Nat.mod_eq_of_lt hlt, ← hw, Nat.log2_two_pow,
    Nat.shiftRight_eq_div_pow, hw, Nat.mod_eq_of_lt ((Nat.div_le_self _ _).trans_lt hlt),
    startField, show P + rank mask (w * (j + 1)) = w * (P / w) + (rank mask (w * (j + 1)) + P % w)
      by omega, Nat.mul_add_div hpos, Nat.add_sub_cancel_left]

/-- After the movement the fields of the output stand one after the other, the first of them the
one in which the first field of the block ends. -/
theorem moveFields_control {p : ℕ} (hw : 2 ^ (e + 1) = w)
    (hroom : w * 2 ^ t + w * 2 ^ t ≤ 2 ^ w) (hp : p < 2 ^ t) (hc : c < w) :
    moveFields w (2 ^ t) 0 source (control w (2 ^ t) mask P).movement (w * p + c) = true ↔
      ∃ j < 2 ^ t, startField w mask P (j + 1) = startField w mask P 1 + p ∧
        source (w * j + c) = true := by
  have htwo : 2 ≤ w := by
    rw [← hw, pow_succ]
    exact Nat.le_mul_of_pos_left 2 (Nat.two_pow_pos e)
  have hpos : 0 < w := by omega
  have hle : 2 ^ t + 2 ^ t ≤ w * 2 ^ t := by
    rw [← Nat.two_mul]
    exact Nat.mul_le_mul_right _ htwo
  have hlt : 2 ^ t < 2 ^ w := by omega
  have hmono := @startField_mono w P mask
  have hsucc := @startField_add_le _ P mask hpos
  have hfirst : P / w ≤ startField w mask P 1 := @startField_zero _ _ mask ▸ hmono zero_le_one
  have hone := @startField_succ_le _ P mask hpos 0
  rw [startField_zero, Nat.zero_add] at hone
  have hstart (j : ℕ) : startField w mask P 1 ≤ startField w mask P (j + 1) := hmono (by omega)
  have hend (j : ℕ) : startField w mask P (j + 1) ≤ startField w mask P 1 + j := by
    rw [Nat.add_comm j 1]
    exact hsucc 1 j
  -- Destinations and distances, relative to the first field.
  have hd : Monotone fun j ↦ startField w mask P (j + 1) - startField w mask P 1 :=
    fun j k hjk ↦ Nat.sub_le_sub_right (hmono (Nat.succ_le_succ hjk)) _
  have hm : Monotone fun j ↦ j - (startField w mask P (j + 1) - startField w mask P 1) := by
    intro j k hjk
    obtain ⟨l, rfl⟩ := Nat.exists_eq_add_of_le hjk
    have hnext := hsucc (j + 1) l
    have hj := hstart j
    have hk := hstart (j + l)
    rw [Nat.add_right_comm] at hnext
    beta_reduce
    omega
  have hno (j : ℕ) (hj : j < 2 ^ t) :
      field w (simd_add w (simd_srli w (simd_add w (hsimd_partial_sum w (2 ^ t)
        (simd_popcount w mask)) (simd_fill w (P % w))) (Nat.log2 w)) (simd_fill w 1)) j =
      startField w mask P 1 - P / w + 1 +
        (startField w mask P (j + 1) - startField w mask P 1) := by
    have hj' := hstart j
    have hj'' := hend j
    rw [simd_add, field_ofFields, field_initialFieldNo hw hroom hj, field_fill (by omega),
      Nat.mod_eq_of_lt (by omega)]
    omega
  have hfinal (p : ℕ) (hp : p < 2 ^ t) : field w (simd_add w (simd_fill w (field w (simd_add w
      (simd_srli w (simd_add w (hsimd_partial_sum w (2 ^ t) (simd_popcount w mask))
        (simd_fill w (P % w))) (Nat.log2 w)) (simd_fill w 1)) 0)) (ofFields w fun i ↦ i)) p =
      startField w mask P 1 - P / w + 1 + p := by
    rw [hno 0 (Nat.two_pow_pos t), Nat.zero_add, Nat.sub_self, Nat.add_zero, simd_add,
      field_ofFields, field_fill (by omega), field_ofFields, Nat.mod_eq_of_lt (hp.trans hlt),
      Nat.mod_eq_of_lt (by omega)]
  rw [control, Nat.log2_two_pow]
  rw [moveFields_apply hd hm (fun j ↦ ?_) hlt hfinal hno hp hc]
  · refine exists_congr fun j ↦ and_congr_right fun _ ↦ and_congr_left fun _ ↦ ?_
    have hj := hstart j
    omega
  · have hj := hend j
    omega

/-- The bits of the fields of a block that go to the field in which it ends. -/
def overflowFields (w n : ℕ) (alignedBits currentFieldMask : Stream) : Stream :=
  let currentFieldBits := simd_and alignedBits currentFieldMask
  simd_or (mvmd_srli w n currentFieldBits 1) (simd_xor currentFieldBits alignedBits)

section Aligned

variable (hw : 2 ^ (e + 1) = w) (hroom : w * 2 ^ t + w * 2 ^ t ≤ 2 ^ w)
  (hsource : Compressed w (2 ^ t) mask value source)
include hw hroom hsource

theorem current_apply (hj : j < 2 ^ t) (hc : c < w) :
    simd_and (simd_rotl w source (control w (2 ^ t) mask P).offsets)
        (control w (2 ^ t) mask P).currentFieldMask (w * j + c) = true ↔
      Item w mask value P j (w * startField w mask P j + c) := by
  have hmod : (P + rank mask (w * j)) % w < w := Nat.mod_lt _ (by omega)
  have hoffset := @field_offsets _ _ _ P _ mask hw hroom hj
  have hmask : (control w (2 ^ t) mask P).currentFieldMask (w * j + c) =
      decide ((P + rank mask (w * j)) % w ≤ c) := by
    rw [← hoffset]
    exact (simd_sllv_apply hc).trans (Bool.and_true _)
  rw [simd_and, hmask, simd_rotl_apply hw.symm hc hoffset hmod, Bool.and_eq_true, and_comm,
    ← current_iff (hsource j hj) hc, decide_eq_true_eq]
  refine and_congr_right fun hle ↦ ?_
  rw [if_pos hle]

theorem next_apply (hj : j < 2 ^ t) (hc : c < w) :
    simd_xor (simd_and (simd_rotl w source (control w (2 ^ t) mask P).offsets)
        (control w (2 ^ t) mask P).currentFieldMask)
        (simd_rotl w source (control w (2 ^ t) mask P).offsets) (w * j + c) = true ↔
      Item w mask value P j (w * (startField w mask P j + 1) + c) := by
  have hmod : (P + rank mask (w * j)) % w < w := Nat.mod_lt _ (by omega)
  have hoffset := @field_offsets _ _ _ P _ mask hw hroom hj
  have hmask : (control w (2 ^ t) mask P).currentFieldMask (w * j + c) =
      decide ((P + rank mask (w * j)) % w ≤ c) := by
    rw [← hoffset]
    exact (simd_sllv_apply hc).trans (Bool.and_true _)
  rw [simd_xor, simd_and, hmask, simd_rotl_apply hw.symm hc hoffset hmod,
    ← next_iff (hsource j hj) hc]
  split_ifs with hle <;> simp [hle]

/-- A field of the output after the first one has the items that go to it. -/
theorem overflowFields_iff {k : ℕ} (hc : c < w) :
    (∃ j < 2 ^ t, startField w mask P (j + 1) = k ∧
        overflowFields w (2 ^ t) (simd_rotl w source (control w (2 ^ t) mask P).offsets)
          (control w (2 ^ t) mask P).currentFieldMask (w * j + c) = true) ↔
      ∃ j < 2 ^ t, Item w mask value P j (w * k + c) ∧ ¬(j = 0 ∧ k = P / w) := by
  have hslot (j : ℕ) (hj : j < 2 ^ t) :
      overflowFields w (2 ^ t) (simd_rotl w source (control w (2 ^ t) mask P).offsets)
          (control w (2 ^ t) mask P).currentFieldMask (w * j + c) = true ↔
        (j + 1 < 2 ^ t ∧ Item w mask value P (j + 1) (w * startField w mask P (j + 1) + c)) ∨
          Item w mask value P j (w * (startField w mask P j + 1) + c) := by
    rw [overflowFields, simd_or, srli_apply hc, Bool.or_eq_true,
      next_apply hw hroom hsource hj hc, Bool.and_eq_true, decide_eq_true_eq]
    refine or_congr_left (and_congr_right fun hlt ↦ ?_)
    rw [current_apply hw hroom hsource hlt hc]
  constructor
  · rintro ⟨j, hj, rfl, hbit⟩
    rcases (hslot j hj).1 hbit with ⟨hlt, hitem⟩ | hitem
    · exact ⟨j + 1, hlt, hitem, by simp⟩
    · have hend : startField w mask P (j + 1) = startField w mask P j + 1 := by
        rcases hitem.field_eq hc with hcur | ⟨-, hend⟩
        · exact absurd hcur (Nat.succ_ne_self _)
        · exact hend
      refine ⟨j, hj, hend ▸ hitem, ?_⟩
      rintro ⟨rfl, hfirst⟩
      rw [startField_zero] at hend
      omega
  · rintro ⟨j, hj, hitem, hfirst⟩
    rcases hitem.field_eq hc with hcur | ⟨hnext, hend⟩
    · cases j with
      | zero => exact absurd ⟨rfl, hcur.trans startField_zero⟩ hfirst
      | succ j => exact ⟨j, by omega, hcur.symm, (hslot j (by omega)).2 (.inl ⟨hj, hcur ▸ hitem⟩)⟩
    · exact ⟨j, hj, hend, (hslot j hj).2 (.inr (hnext ▸ hitem))⟩

omit hsource in
theorem updatedFieldIdx_eq (hP : P < w * 2 ^ t) :
    (control w (2 ^ t) mask P).updatedFieldIdx = startField w mask P 1 ∧
      P / w ≤ startField w mask P 1 ∧ startField w mask P 1 ≤ 2 ^ t := by
  have hpos : 0 < w := hw ▸ Nat.two_pow_pos _
  have hle : 2 ^ t ≤ w * 2 ^ t := Nat.le_mul_of_pos_left _ hpos
  have hfirst : P / w ≤ startField w mask P 1 :=
    @startField_zero _ _ mask ▸ startField_mono zero_le_one
  have hone := @startField_succ_le _ P mask hpos 0
  have hlt : P / w < 2 ^ t := Nat.div_lt_of_lt_mul hP
  rw [startField_zero, Nat.zero_add] at hone
  refine ⟨?_, hfirst, hone.trans hlt⟩
  have hdef : (control w (2 ^ t) mask P).updatedFieldIdx = (P / w + field w (simd_srli w (simd_add w
      (hsimd_partial_sum w (2 ^ t) (simd_popcount w mask)) (simd_fill w (P % w))) (Nat.log2 w)) 0) %
        2 ^ w := rfl
  rw [hdef, field_initialFieldNo hw hroom (Nat.two_pow_pos t), Nat.zero_add,
    Nat.add_sub_cancel' hfirst, Nat.mod_eq_of_lt (by omega)]

omit hw hsource in
/-- The pending items after the block, and whether they fit in the pending block. -/
theorem control_items (hP : P < w * 2 ^ t) :
    (control w (2 ^ t) mask P).doesFit = decide (P + rank mask (w * 2 ^ t) < w * 2 ^ t) ∧
      (control w (2 ^ t) mask P).pendingItems = if P + rank mask (w * 2 ^ t) < w * 2 ^ t then
        P + rank mask (w * 2 ^ t) else P + rank mask (w * 2 ^ t) - w * 2 ^ t := by
  have hpow := Nat.two_pow_pos t
  have hle := rank_le mask (w * 2 ^ t)
  have hnext : (P + field w (hsimd_partial_sum w (2 ^ t) (simd_popcount w mask)) (2 ^ t - 1)) %
      2 ^ w = P + rank mask (w * 2 ^ t) := by
    rw [field_hsimd_partial_sum (by omega) (by omega), Nat.sub_add_cancel hpow,
      Nat.mod_eq_of_lt (by omega)]
  constructor
  · rw [← hnext]
    rfl
  · rw [← hnext]
    simp only [control, decide_eq_true_eq]

/-- The pending output gets the items that go to its block. -/
theorem packBlock_fst (hP : P < w * 2 ^ t) (hi : i < 2 ^ t) (hc : c < w) :
    (packBlock w (2 ^ t) poison (control w (2 ^ t) mask P) source pending).1 (w * i + c) = true ↔
      pending (w * i + c) = true ∨ ∃ j < 2 ^ t, Item w mask value P j (w * i + c) := by
  obtain ⟨hupdated, hstart, hend⟩ := @updatedFieldIdx_eq _ _ _ _ mask hw hroom hP
  have hmoved {p : ℕ} (hp : p < 2 ^ t) := @moveFields_control _ _ _ P _ mask
    (overflowFields w (2 ^ t) (simd_rotl w source (control w (2 ^ t) mask P).offsets)
      (control w (2 ^ t) mask P).currentFieldMask) _ hw hroom hp hc
  have hitems {k : ℕ} := overflowFields_iff (P := P) (k := k) hw hroom hsource hc
  have hfirst := current_apply (P := P) hw hroom hsource (Nat.two_pow_pos t) hc
  have hfilled : (control w (2 ^ t) mask P).pendingSpaceFilled =
    decide ((control w (2 ^ t) mask P).updatedFieldIdx = 2 ^ t) := rfl
  have hvec : ofFields w (fun i ↦ if i = P / w then field w (simd_and (simd_rotl w source
      (control w (2 ^ t) mask P).offsets) (control w (2 ^ t) mask P).currentFieldMask) 0 else 0)
      (w * i + c) = true ↔ i = P / w ∧ Item w mask value P 0 (w * i + c) := by
    rw [ofFields, mul_add_div_of_lt hc, mul_add_mod_of_lt hc]
    split_ifs with hfield
    · rw [testBit_field, decide_eq_true hc, Bool.true_and, hfirst, startField_zero, hfield]
      simp
    · simp [hfield]
  have hshifted : (if (control w (2 ^ t) mask P).pendingSpaceFilled then fun _ ↦ false
      else mvmd_sll w (2 ^ t) poison (moveFields w (2 ^ t) 0 (overflowFields w (2 ^ t) (simd_rotl w
        source (control w (2 ^ t) mask P).offsets) (control w (2 ^ t) mask P).currentFieldMask)
        (control w (2 ^ t) mask P).movement) (control w (2 ^ t) mask P).updatedFieldIdx :
          Stream) (w * i + c) = true ↔
      ∃ j < 2 ^ t, Item w mask value P j (w * i + c) ∧ ¬(j = 0 ∧ i = P / w) := by
    rw [← hitems, hfilled, hupdated]
    by_cases hfull : startField w mask P 1 = 2 ^ t
    · rw [if_pos (decide_eq_true hfull)]
      refine iff_of_false Bool.false_ne_true ?_
      rintro ⟨j, _, hj, _⟩
      have hle : startField w mask P 1 ≤ startField w mask P (j + 1) := startField_mono (by omega)
      omega
    · rw [if_neg (by simpa using hfull), sll_apply hc (by omega), Bool.and_eq_true,
        decide_eq_true_eq]
      constructor
      · rintro ⟨hle, hbit⟩
        obtain ⟨j, hj, hplace, hx⟩ := (hmoved (by omega)).1 hbit
        exact ⟨j, hj, by omega, hx⟩
      · rintro ⟨j, hj, rfl, hx⟩
        have hle : startField w mask P 1 ≤ startField w mask P (j + 1) := startField_mono (by omega)
        exact ⟨hle, (hmoved (by omega)).2 ⟨j, hj, by omega, hx⟩⟩
  have hpack : (packBlock w (2 ^ t) poison (control w (2 ^ t) mask P) source pending).1
      (w * i + c) = true ↔ (pending (w * i + c) = true ∨ i = P / w ∧
        Item w mask value P 0 (w * i + c)) ∨
        ∃ j < 2 ^ t, Item w mask value P j (w * i + c) ∧ ¬(j = 0 ∧ i = P / w) := by
    rw [← hshifted, ← hvec, ← Bool.or_eq_true, ← Bool.or_eq_true]
    rfl
  rw [hpack, or_assoc]
  refine or_congr_right ⟨?_, ?_⟩
  · rintro (⟨-, hitem⟩ | ⟨j, hj, hitem, -⟩)
    · exact ⟨0, Nat.two_pow_pos t, hitem⟩
    · exact ⟨j, hj, hitem⟩
  · rintro ⟨j, hj, hitem⟩
    by_cases hzero : j = 0 ∧ i = P / w
    · exact .inl ⟨hzero.2, hzero.1 ▸ hitem⟩
    · exact .inr ⟨j, hj, hitem, hzero⟩

/-- The other items go to the fields of the next block, unless all of the pending block is still
to be filled. -/
theorem packBlock_snd (hP : P < w * 2 ^ t) (hc : c < w)
    (hstarted : startField w mask P 1 ≠ 0) :
    (packBlock w (2 ^ t) poison (control w (2 ^ t) mask P) source pending).2 (w * i + c) = true ↔
      ∃ j < 2 ^ t, Item w mask value P j (w * (2 ^ t + i) + c) := by
  obtain ⟨hupdated, hstart, hend⟩ := @updatedFieldIdx_eq _ _ _ _ mask hw hroom hP
  have hmoved {p : ℕ} (hp : p < 2 ^ t) := @moveFields_control _ _ _ P _ mask
    (overflowFields w (2 ^ t) (simd_rotl w source (control w (2 ^ t) mask P).offsets)
      (control w (2 ^ t) mask P).currentFieldMask) _ hw hroom hp hc
  have hitems := overflowFields_iff (P := P) (k := 2 ^ t + i) hw hroom hsource hc
  have hpos : 0 < w := by omega
  have hlt : P / w < 2 ^ t := Nat.div_lt_of_lt_mul hP
  have hnot (j : ℕ) : ¬(j = 0 ∧ 2 ^ t + i = P / w) := by omega
  simp only [hnot, not_false_eq_true, and_true] at hitems
  have hshift : (control w (2 ^ t) mask P).shftBack =
    2 ^ t - (control w (2 ^ t) mask P).updatedFieldIdx := rfl
  have hpack : (packBlock w (2 ^ t) poison (control w (2 ^ t) mask P) source pending).2 =
    mvmd_srl w (2 ^ t) poison (moveFields w (2 ^ t) 0 (overflowFields w (2 ^ t) (simd_rotl w
        source (control w (2 ^ t) mask P).offsets) (control w (2 ^ t) mask P).currentFieldMask)
        (control w (2 ^ t) mask P).movement) (control w (2 ^ t) mask P).shftBack := rfl
  rw [hpack, hshift, hupdated, srl_apply hc (by omega), Bool.and_eq_true, decide_eq_true_eq,
    ← hitems]
  constructor
  · rintro ⟨hin, hbit⟩
    obtain ⟨j, hj, hplace, hx⟩ := (hmoved hin).1 hbit
    exact ⟨j, hj, by omega, hx⟩
  · rintro ⟨j, hj, hplace, hx⟩
    have hle := @startField_add_le _ P mask hpos 1 j
    rw [Nat.add_comm 1 j] at hle
    exact ⟨by omega, (hmoved (by omega)).2 ⟨j, hj, by omega, hx⟩⟩

end Aligned

end Block

section Loop

variable {e t w n blk r : ℕ} {poison mask value : Stream} {inputs : StreamSet}

/-- One of the first `n` items that is selected, and is the `r`-th such item, is a one. -/
def Selected (mask value : Stream) (n r : ℕ) : Prop :=
  ∃ p < n, mask p = true ∧ value p = true ∧ rank mask p = r

theorem Selected.rank_lt (h : Selected mask value n r) : r < rank mask n := by
  obtain ⟨p, hp, hm, -, rfl⟩ := h
  exact rank_lt_of_true hm hp

theorem exists_item_iff {bw P : ℕ} (hbw : bw = w * n) (hw : 0 < w) :
    (∃ j < n, Item w (loadInputStreamBlock bw mask blk) (loadInputStreamBlock bw value blk) P j r) ↔
      ∃ p < bw, mask (bw * blk + p) = true ∧ value (bw * blk + p) = true ∧
        P + rank mask (bw * blk + p) = r + rank mask (bw * blk) := by
  subst hbw
  constructor
  · rintro ⟨j, hj, p, hp, hm, hv, hrank⟩
    have hle := Nat.mul_le_mul_left w (Nat.succ_le_of_lt hj)
    rw [Nat.mul_succ] at hle
    refine ⟨w * j + p, by omega, hm, hv, ?_⟩
    rw [← hrank, rank_add]
    have hblock : (fun i ↦ mask (w * n * blk + i)) = loadInputStreamBlock (w * n) mask blk := rfl
    rw [hblock]
    omega
  · rintro ⟨p, hp, hm, hv, hrank⟩
    have hdiv := Nat.div_add_mod p w
    refine ⟨p / w, Nat.div_lt_of_lt_mul hp, p % w, Nat.mod_lt p hw, ?_, ?_, ?_⟩
    · rwa [hdiv]
    · rwa [hdiv]
    · rw [rank_add] at hrank
      have hblock : (fun i ↦ mask (w * n * blk + i)) = loadInputStreamBlock (w * n) mask blk := rfl
      rw [hblock] at hrank
      rw [hdiv]
      omega

/-- A block that fills the pending one has an item for a field after its first. -/
theorem startField_one_ne_zero {P : ℕ} (hw : 0 < w) (hn : 0 < n)
    (hfull : ¬P + rank mask (w * n) < w * n) : startField w mask P 1 ≠ 0 := by
  intro hzero
  have hle : w ≤ w * n := Nat.le_mul_of_pos_right w hn
  have hrank := rank_add mask w (w * n - w)
  have hrest := rank_le (fun i ↦ mask (w + i)) (w * n - w)
  rw [Nat.add_sub_cancel' hle] at hrank
  rw [startField, Nat.mul_one, Nat.div_eq_zero_iff] at hzero
  omega

/-- The items of a block follow those before it. -/
theorem selected_succ {bw : ℕ} : Selected mask value (bw * (blk + 1)) r ↔
    Selected mask value (bw * blk) r ∨ ∃ p < bw, mask (bw * blk + p) = true ∧
      value (bw * blk + p) = true ∧ rank mask (bw * blk + p) = r := by
  rw [Nat.mul_succ]
  constructor
  · rintro ⟨p, hp, hm, hv, hrank⟩
    by_cases hlt : p < bw * blk
    · exact .inl ⟨p, hlt, hm, hv, hrank⟩
    · obtain ⟨k, rfl⟩ := Nat.exists_eq_add_of_le (Nat.le_of_not_lt hlt)
      exact .inr ⟨k, by omega, hm, hv, hrank⟩
  · rintro (⟨p, hp, hitem⟩ | ⟨p, hp, hitem⟩)
    · exact ⟨p, by omega, hitem⟩
    · exact ⟨bw * blk + p, by omega, hitem⟩

theorem compressed_fieldCompress (hw : 2 ^ (e + 1) = w) (i : ℕ) :
    Compressed w n (loadInputStreamBlock (w * n) mask blk)
      (loadInputStreamBlock (w * n) (inputs i) blk)
      (loadInputStreamBlock (w * n) (FieldCompress (w * n) w mask inputs i) blk) := by
  intro j hj b hb
  have hle := Nat.mul_le_mul_left w (Nat.succ_le_of_lt hj)
  rw [Nat.mul_succ] at hle
  have hbit := testBit_field (w := w) (x := simd_pext w (loadInputStreamBlock (w * n) (inputs i) blk)
    (loadInputStreamBlock (w * n) mask blk)) (i := j) (j := b)
  have hload : loadInputStreamBlock (w * n) (FieldCompress (w * n) w mask inputs i) blk (w * j + b) =
      simd_pext w (loadInputStreamBlock (w * n) (inputs i) blk)
        (loadInputStreamBlock (w * n) mask blk) (w * j + b) := by
    have hin : w * j + b < w * n := by omega
    rw [loadInputStreamBlock, FieldCompress, storeOutputStreamBlock, mul_add_div_of_lt hin,
      mul_add_mod_of_lt hin, Nat.div_one]
  rw [hload]
  generalize loadInputStreamBlock (w * n) (inputs i) blk = v at *
  generalize loadInputStreamBlock (w * n) mask blk = m at *
  rw [decide_eq_true hb, Bool.true_and, ← hw, field_simd_pext, hw, testBit_ofDigits] at hbit
  rw [← hbit, List.getD_eq_getElem?_getD]
  have hsome := getElem?_compress_eq_some (m := m) (x := v) (a := w * j) (n := w) (b := b) (v := true)
  rw [← hsome, selected]
  cases (compress m v (w * j) w)[b]? <;> simp

/-- A state of the kernel before block `blk`: the items so far are in the blocks that have been
written and in the pending block. -/
structure Packed (bw : ℕ) (mask : Stream) (inputs : StreamSet) (blk : ℕ) (s : State) : Prop where
  count : bw * s.outputOffset + s.pendingItems = rank mask (bw * blk)
  fits : s.pendingItems < bw
  pending (i q : ℕ) (hq : q < bw) : s.pendingData i q = true ↔
    Selected mask (inputs i) (bw * blk) (bw * s.outputOffset + q)
  written (b : ℕ) (hb : b < s.outputOffset) (i q : ℕ) (hq : q < bw) :
    s.compressedOutput b i q = true ↔ Selected mask (inputs i) (bw * blk) (bw * b + q)

/-- The loop body for one block. -/
def compressBlock (fw count : ℕ) (poison extractionMask : Stream) (source : StreamSet)
    (inputOffset : ℕ) (s : State) : State :=
  compressLoop fw count poison extractionMask source 1 inputOffset s

theorem compressLoop_succ {source : StreamSet} {s : State} (k inputOffset : ℕ) :
    compressLoop w n poison mask source (k + 1) inputOffset s =
      compressLoop w n poison mask source k (inputOffset + 1)
        (compressBlock w n poison mask source inputOffset s) := rfl

theorem Packed.step {s : State} (hw : 2 ^ (e + 1) = w) (hroom : w * 2 ^ t + w * 2 ^ t ≤ 2 ^ w)
    (h : Packed (w * 2 ^ t) mask inputs blk s) :
    Packed (w * 2 ^ t) mask inputs (blk + 1) (compressBlock w (2 ^ t) poison mask
      (FieldCompress (w * 2 ^ t) w mask inputs) blk s) := by
  obtain ⟨hcount, hfits, hpending, hwritten⟩ := h
  have hpos : 0 < w := hw ▸ Nat.two_pow_pos _
  obtain ⟨hfit, hitems⟩ := @control_items _ _ _ (loadInputStreamBlock (w * 2 ^ t) mask blk) hroom
    hfits
  have hblock (i : ℕ) := @compressed_fieldCompress _ _ (2 ^ t) blk mask inputs hw i
  have hrank := rank_add mask (w * 2 ^ t * blk) (w * 2 ^ t)
  have hload : (fun i ↦ mask (w * 2 ^ t * blk + i)) = loadInputStreamBlock (w * 2 ^ t) mask blk := rfl
  rw [hload, ← Nat.mul_add_one] at hrank
  -- What the two blocks of the output get, in terms of all items.
  have hfst (i q : ℕ) (hq : q < w * 2 ^ t) : (packBlock w (2 ^ t) poison (control w (2 ^ t)
      (loadInputStreamBlock (w * 2 ^ t) mask blk) s.pendingItems) (loadInputStreamBlock (w * 2 ^ t)
        (FieldCompress (w * 2 ^ t) w mask inputs i) blk) (s.pendingData i)).1 q = true ↔
      Selected mask (inputs i) (w * 2 ^ t * (blk + 1)) (w * 2 ^ t * s.outputOffset + q) := by
    have hpack := @packBlock_fst _ _ _ _ _ _ _ _ _ (s.pendingData i) poison hw hroom (hblock i)
      hfits (Nat.div_lt_of_lt_mul hq) (Nat.mod_lt q hpos)
    rw [Nat.div_add_mod, exists_item_iff rfl hpos] at hpack
    rw [hpack, selected_succ, hpending i q hq]
    refine or_congr_right (exists_congr fun p ↦ and_congr_right fun _ ↦ and_congr_right fun _ ↦
      and_congr_right fun _ ↦ ?_)
    omega
  have hsnd (i q : ℕ) (hq : q < w * 2 ^ t)
      (hfull : ¬s.pendingItems + rank (loadInputStreamBlock (w * 2 ^ t) mask blk) (w * 2 ^ t) <
        w * 2 ^ t) : (packBlock w (2 ^ t) poison (control w (2 ^ t)
      (loadInputStreamBlock (w * 2 ^ t) mask blk) s.pendingItems) (loadInputStreamBlock (w * 2 ^ t)
        (FieldCompress (w * 2 ^ t) w mask inputs i) blk) (s.pendingData i)).2 q = true ↔
      Selected mask (inputs i) (w * 2 ^ t * (blk + 1))
        (w * 2 ^ t * (s.outputOffset + 1) + q) := by
    have hpack := @packBlock_snd _ _ _ _ (q / w) _ _ _ _ (s.pendingData i) poison hw hroom
      (hblock i) hfits (Nat.mod_lt q hpos) (startField_one_ne_zero hpos (Nat.two_pow_pos t) hfull)
    rw [Nat.div_add_mod, Nat.mul_add, Nat.add_assoc, Nat.div_add_mod,
      exists_item_iff rfl hpos] at hpack
    have hold : ¬Selected mask (inputs i) (w * 2 ^ t * blk)
        (w * 2 ^ t * (s.outputOffset + 1) + q) := by
      intro hold
      have := hold.rank_lt
      rw [Nat.mul_succ] at this
      omega
    rw [hpack, selected_succ, or_iff_right hold, Nat.mul_succ]
    refine exists_congr fun p ↦ and_congr_right fun _ ↦ and_congr_right fun _ ↦
      and_congr_right fun _ ↦ ?_
    omega
  have hold (b i q : ℕ) (hb : b < s.outputOffset) (hq : q < w * 2 ^ t) :
      Selected mask (inputs i) (w * 2 ^ t * blk) (w * 2 ^ t * b + q) ↔
        Selected mask (inputs i) (w * 2 ^ t * (blk + 1)) (w * 2 ^ t * b + q) := by
    rw [selected_succ, iff_self_or]
    rintro ⟨p, -, -, -, hp⟩
    have hle := Nat.mul_le_mul_left (w * 2 ^ t) (Nat.succ_le_of_lt hb)
    have hmono := rank_mono mask (Nat.le_add_right (w * 2 ^ t * blk) p)
    rw [Nat.mul_succ] at hle
    omega
  have hwritten' (b : ℕ) (hb : b < s.outputOffset) (i q : ℕ) (hq : q < w * 2 ^ t) :
      (compressBlock w (2 ^ t) poison mask (FieldCompress (w * 2 ^ t) w mask inputs) blk
        s).compressedOutput b i q = true ↔
        Selected mask (inputs i) (w * 2 ^ t * (blk + 1)) (w * 2 ^ t * b + q) := by
    rw [← hold b i q hb hq, ← hwritten b hb i q hq]
    simp only [compressBlock, compressLoop, Function.update_of_ne hb.ne]
  by_cases hlt : s.pendingItems + rank (loadInputStreamBlock (w * 2 ^ t) mask blk) (w * 2 ^ t) <
      w * 2 ^ t
  · rw [if_pos hlt] at hitems
    rw [decide_eq_true hlt] at hfit
    constructor
    · simp only [compressBlock, compressLoop, hfit, hitems, if_true]
      omega
    · simp only [compressBlock, compressLoop, hitems]
      exact hlt
    · intro i q hq
      simp only [compressBlock, compressLoop, hfit, if_true]
      exact hfst i q hq
    · intro b hb i q hq
      simp only [compressBlock, compressLoop, hfit, if_true] at hb
      exact hwritten' b hb i q hq
  · rw [if_neg hlt] at hitems
    rw [decide_eq_false hlt] at hfit
    constructor
    · simp only [compressBlock, compressLoop, hfit, hitems, Bool.false_eq_true, if_false]
      rw [Nat.mul_succ]
      omega
    · have hle := rank_le (loadInputStreamBlock (w * 2 ^ t) mask blk) (w * 2 ^ t)
      simp only [compressBlock, compressLoop, hitems]
      omega
    · intro i q hq
      simp only [compressBlock, compressLoop, hfit, Bool.false_eq_true, if_false]
      exact hsnd i q hq hlt
    · intro b hb i q hq
      simp only [compressBlock, compressLoop, hfit, Bool.false_eq_true, if_false] at hb
      rcases Nat.lt_succ_iff_lt_or_eq.1 hb with hbefore | rfl
      · exact hwritten' b hbefore i q hq
      · simp only [compressBlock, compressLoop, Function.update_self]
        exact hfst i q hq

theorem Packed.compressLoop {s : State} (hw : 2 ^ (e + 1) = w)
    (hroom : w * 2 ^ t + w * 2 ^ t ≤ 2 ^ w) (k : ℕ) (h : Packed (w * 2 ^ t) mask inputs blk s) :
    Packed (w * 2 ^ t) mask inputs (blk + k) (compressLoop w (2 ^ t) poison mask
      (FieldCompress (w * 2 ^ t) w mask inputs) k blk s) := by
  induction k generalizing blk s with
  | zero => exact h
  | succ k ih =>
    rw [compressLoop_succ, ← Nat.add_assoc, Nat.add_right_comm]
    exact ih (h.step hw hroom)

/-- A state after a call: the pending block has been written, unless it is empty. -/
structure Stored (bw : ℕ) (mask : Stream) (inputs : StreamSet) (blk : ℕ) (s : State) : Prop where
  packed : Packed bw mask inputs blk s
  last (h : s.pendingItems ≠ 0) : s.compressedOutput s.outputOffset = s.pendingData

theorem Stored.call {s : State} (hw : 2 ^ (e + 1) = w) (hroom : w * 2 ^ t + w * 2 ^ t ≤ 2 ^ w)
    (numOfStrides : ℕ) (h : Stored (w * 2 ^ t) mask inputs blk s) :
    Stored (w * 2 ^ t) mask inputs (blk + numOfStrides * StreamCompressStrideSize)
      (generateMultiBlockLogic w (2 ^ t) poison mask (FieldCompress (w * 2 ^ t) w mask inputs) blk
        (rank mask (w * 2 ^ t * blk)) numOfStrides s.pendingData s.compressedOutput) := by
  obtain ⟨⟨hcount, hfits, hpending, hwritten⟩, -⟩ := h
  have hbw : w * 2 ^ t = 2 ^ (e + 1 + t) := by rw [← hw, ← pow_add]
  have hdvd : w * 2 ^ t ∣ 2 ^ w := by
    rw [hbw] at hroom ⊢
    exact Nat.pow_dvd_pow 2 ((Nat.pow_le_pow_iff_right Nat.one_lt_two).1 (by omega))
  have hoffset : rank mask (w * 2 ^ t * blk) / (w * 2 ^ t) = s.outputOffset := by
    rw [← hcount, mul_add_div_of_lt hfits]
  have hitems : rank mask (w * 2 ^ t * blk) % 2 ^ w &&& (w * 2 ^ t - 1) = s.pendingItems := by
    rw [hbw, Nat.and_two_pow_sub_one_eq_mod, ← hbw, Nat.mod_mod_of_dvd _ hdvd, ← hcount,
      mul_add_mod_of_lt hfits]
  have hloop := @Packed.compressLoop _ _ _ _ poison _ _ _ hw hroom
    (numOfStrides * StreamCompressStrideSize)
    (show Packed (w * 2 ^ t) mask inputs blk ⟨s.outputOffset, s.pendingItems, s.pendingData,
      s.compressedOutput⟩ from ⟨hcount, hfits, hpending, hwritten⟩)
  rw [generateMultiBlockLogic, hoffset, hitems]
  generalize StreamCompress.compressLoop w (2 ^ t) poison mask _ _ blk _ = s' at *
  split_ifs with hmore
  · obtain ⟨hcount, hfits, hpending, hwritten⟩ := hloop
    refine ⟨⟨hcount, hfits, hpending, fun b hb i q hq ↦ ?_⟩, fun _ ↦ Function.update_self _ _ _⟩
    rw [← hwritten b hb i q hq]
    simp only [Function.update_of_ne hb.ne]
  · exact ⟨hloop, fun h ↦ absurd h hmore⟩

theorem Stored.segments {s : State} (hw : 2 ^ (e + 1) = w) (hroom : w * 2 ^ t + w * 2 ^ t ≤ 2 ^ w)
    (strides : List ℕ) (h : Stored (w * 2 ^ t) mask inputs blk s) :
    let processed := blk + strides.sum * StreamCompressStrideSize
    let result := segments w (2 ^ t) poison mask (FieldCompress (w * 2 ^ t) w mask inputs) blk
      (rank mask (w * 2 ^ t * blk)) s strides
    Stored (w * 2 ^ t) mask inputs processed result.1 ∧
      result.2 = rank mask (w * 2 ^ t * processed) := by
  induction strides generalizing blk s with
  | nil =>
    rw [List.sum_nil, Nat.zero_mul]
    exact ⟨h, rfl⟩
  | cons numOfStrides rest ih =>
    have hproduced : rank mask (w * 2 ^ t * blk) + pop mask (w * 2 ^ t * blk)
        (w * 2 ^ t * (numOfStrides * StreamCompressStrideSize)) =
        rank mask (w * 2 ^ t * (blk + numOfStrides * StreamCompressStrideSize)) := by
      rw [← rank_add_pop, ← Nat.mul_add]
    rw [StreamCompress.segments, hproduced, List.sum_cons, Nat.add_mul, ← Nat.add_assoc]
    exact ih (h.call hw hroom numOfStrides)

/-- The selected items are at their places in the blocks of the output. -/
theorem Stored.apply {bw p : ℕ} {s : State} (h : Stored bw mask inputs blk s)
    (hp : p < bw * blk) (hm : mask p = true) (i : ℕ) :
    ofStored bw s.compressedOutput i (rank mask p) = inputs i p := by
  obtain ⟨⟨hcount, hfits, hpending, hwritten⟩, hlast⟩ := h
  have hr := rank_lt_of_true hm hp
  have hdiv := Nat.div_add_mod (rank mask p) bw
  have hq : rank mask p % bw < bw := Nat.mod_lt _ (by omega)
  have hselected : Selected mask (inputs i) (bw * blk)
      (bw * (rank mask p / bw) + rank mask p % bw) ↔ inputs i p = true := by
    rw [hdiv]
    constructor
    · rintro ⟨p', -, hm', hv, hrank⟩
      rwa [← rank_inj hm' hm hrank]
    · exact fun hv ↦ ⟨p, hp, hm, hv, rfl⟩
  rw [Bool.eq_iff_iff, ← hselected, ofStored]
  rcases Nat.lt_trichotomy (rank mask p / bw) s.outputOffset with hlt | heq | hgt
  · exact hwritten _ hlt i _ hq
  · have hmore : s.pendingItems ≠ 0 := by
      rw [heq] at hdiv
      omega
    rw [heq, hlast hmore]
    exact hpending i _ hq
  · have hle := Nat.mul_le_mul_left bw (Nat.succ_le_of_lt hgt)
    rw [Nat.mul_succ] at hle
    omega

end Loop

end StreamCompress

section Filter

open StreamCompress

variable {e t : ℕ}

end Filter

end Parabix.Streamutils
