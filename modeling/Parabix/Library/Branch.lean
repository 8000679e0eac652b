import Parabix.Library.BitStream

namespace Parabix.Library.BitStream

variable {outer condition runs old s x : Stream} {carries : List (Stream × ℕ)} {n p : ℕ}

/-- Where the body of a branch runs: inside the body around it, at the positions of the condition,
and wherever a bit is carried to from an advance in it. It may run at other positions too. -/
structure Runs (outer condition : Stream) (carries : List (Stream × ℕ)) (runs : Stream) : Prop where
  within (p : ℕ) : runs p = true → outer p = true
  condition (p : ℕ) : outer p = true → condition p = true → runs p = true
  carry (c : Stream × ℕ) (hc : c ∈ carries) (p : ℕ) :
    runs p = true → c.1 p = true → runs (p + c.2) = true

/-- An advance in the body of a branch. -/
def advanceIn (runs : Stream) (n : ℕ) (s : Stream) : Stream := advance n fun p ↦ runs p && s p

/-- The value of a variable after a branch that assigns it. -/
def assignIn (runs old new : Stream) : Stream := fun p ↦ bif runs p then new p else old p

/-- The bits of one stream are bits of the other. -/
def Covered (s runs : Stream) : Prop := ∀ p, s p = true → runs p = true

section Covered

theorem Covered.trans {s t u : Stream} (h : Covered s t) (h' : Covered t u) : Covered s u :=
  fun p hp ↦ h' p (h p hp)

theorem Covered.and_left (h : Covered s runs) (x : Stream) : Covered (fun p ↦ s p && x p) runs :=
  fun p hp ↦ h p (Bool.and_eq_true_iff.1 hp).1

theorem Covered.and_right (h : Covered s runs) (x : Stream) : Covered (fun p ↦ x p && s p) runs :=
  fun p hp ↦ h p (Bool.and_eq_true_iff.1 hp).2

theorem Covered.or (h : Covered s runs) (h' : Covered x runs) :
    Covered (fun p ↦ s p || x p) runs :=
  fun p hp ↦ (Bool.or_eq_true_iff.1 hp).elim (h p) (h' p)

theorem covered_zero (runs : Stream) : Covered (fun _ ↦ false) runs := fun _ hp ↦ nomatch hp

theorem Runs.covered (h : Runs outer condition carries runs) : Covered runs outer := h.within

theorem Runs.covered_condition (h : Runs outer condition carries runs)
    (hs : Covered s outer) (hc : Covered s condition) : Covered s runs :=
  fun p hp ↦ h.condition p (hs p hp) (hc p hp)

/-- Bits that run are advanced as they would be without the branch. -/
theorem Covered.advanceIn_eq (h : Covered s runs) : advanceIn runs n s = advance n s := by
  funext p
  rw [advanceIn, advance, advance]
  split_ifs with hp
  · rfl
  · cases hs : s (p - n)
    · rw [Bool.and_false]
    · rw [h _ hs, Bool.and_true]

theorem Runs.covered_advanceIn (h : Runs outer condition carries runs) (hc : (s, n) ∈ carries) :
    Covered (advanceIn runs n s) runs := by
  intro p hp
  rw [advanceIn, advance] at hp
  split_ifs at hp with hlt
  rw [Bool.and_eq_true_iff] at hp
  have hrun := h.carry _ hc _ hp.1 hp.2
  rwa [Nat.sub_add_cancel (Nat.le_of_not_lt hlt)] at hrun

/-- A branch that changes a variable only where it runs assigns it as its body would. -/
theorem Covered.assignIn_eq_new {new : Stream} (h : Covered x runs)
    (hnew : ∀ p, x p = false → new p = old p) : assignIn runs old new = new := by
  funext p
  rw [assignIn]
  cases hr : runs p
  · cases hx : x p
    · rw [hnew p hx, cond_false]
    · exact absurd (h p hx) (by simp [hr])
  · rfl

/-- A branch that adds bits to a variable only where it runs. -/
theorem Covered.assignIn_eq {new : Stream} (h : Covered x runs)
    (hnew : ∀ p, new p = (old p || x p)) : assignIn runs old new = new :=
  h.assignIn_eq_new fun p hx ↦ by rw [hnew, hx, Bool.or_false]

theorem Runs.mono {fewer : List (Stream × ℕ)} (h : Runs outer condition carries runs)
    (hsub : fewer ⊆ carries) : Runs outer condition fewer runs :=
  ⟨h.within, h.condition, fun c hc ↦ h.carry c (hsub hc)⟩

theorem runs_always (condition : Stream) (carries : List (Stream × ℕ)) :
    Runs (fun _ ↦ true) condition carries fun _ ↦ true :=
  ⟨fun _ _ ↦ rfl, fun _ _ _ ↦ rfl, fun _ _ _ _ _ ↦ rfl⟩

end Covered

section Blocks

variable (w : ℕ) (condition : Stream) (carries : List (Stream × ℕ))

/-- Whether the body runs for a block: where the condition holds in it, or where a bit is carried
to it from the block before. -/
def blockRuns : ℕ → Bool
  | 0 => (List.range w).any condition
  | blk + 1 => (List.range w).any (fun i ↦ condition (w * (blk + 1) + i)) ||
    blockRuns blk && carries.any fun c ↦
      (List.range w).any fun i ↦ c.1 (w * blk + i) && decide (w ≤ i + c.2)

def byBlocks : Stream := fun p ↦ blockRuns w condition carries (p / w)

variable {w condition carries}

/-- A body that runs by blocks runs where it must, if no bit is carried past a block. -/
theorem runs_byBlocks (hw : 0 < w) (hshort : ∀ c ∈ carries, c.2 ≤ w) :
    Runs (fun _ ↦ true) condition carries (byBlocks w condition carries) where
  within _ _ := rfl
  condition p _ hp := by
    have hi := Nat.mod_lt p hw
    rw [← Nat.div_add_mod p w] at hp
    rw [byBlocks]
    cases hblk : p / w with
    | zero =>
      rw [hblk, Nat.mul_zero, Nat.zero_add] at hp
      exact List.any_eq_true.2 ⟨_, List.mem_range.2 hi, hp⟩
    | succ blk =>
      rw [hblk] at hp
      rw [blockRuns, Bool.or_eq_true]
      exact .inl (List.any_eq_true.2 ⟨_, List.mem_range.2 hi, hp⟩)
  carry c hc p hruns hp := by
    have hi := Nat.mod_lt p hw
    have hn := hshort c hc
    have hsplit := Nat.div_add_mod p w
    rw [byBlocks] at hruns ⊢
    rcases Nat.lt_or_ge (p % w + c.2) w with hsame | hnext
    · have hblk : (p + c.2) / w = p / w := by
        rw [← hsplit, Nat.add_assoc, Nat.mul_add_div hw, Nat.div_eq_of_lt hsame, hsplit,
          Nat.add_zero]
      rwa [hblk]
    · have hblk : (p + c.2) / w = p / w + 1 := by
        obtain ⟨r, hr⟩ := Nat.exists_eq_add_of_le hnext
        have hsum : p + c.2 = w * (p / w + 1) + r := by
          rw [Nat.mul_add, Nat.mul_one]
          omega
        rw [hsum, Nat.mul_add_div hw, Nat.div_eq_of_lt (show r < w by omega), Nat.add_zero]
      rw [hblk, blockRuns, Bool.or_eq_true, Bool.and_eq_true]
      refine .inr ⟨hruns, List.any_eq_true.2 ⟨c, hc, List.any_eq_true.2
        ⟨p % w, List.mem_range.2 hi, ?_⟩⟩⟩
      rw [hsplit, hp, decide_eq_true hnext]
      rfl

end Blocks

end Parabix.Library.BitStream
