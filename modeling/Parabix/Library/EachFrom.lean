import Mathlib.Data.List.GetD
import Parabix.Library.Fault

namespace Parabix.Library

variable {β : Type*} {P : ℕ → β → Prop} {first : ℕ} {block : β} {blocks rest : List β}

/-- The blocks of a sequence, which are numbered from `first` on, are as they should be. -/
def EachFrom (P : ℕ → β → Prop) (first : ℕ) (blocks : List β) : Prop :=
  ∀ k block, blocks[k]? = some block → P (first + k) block

theorem EachFrom.nil : EachFrom P first [] := fun _ _ hk ↦ nomatch hk

theorem EachFrom.cons (hblock : P first block) (h : EachFrom P (first + 1) blocks) :
    EachFrom P first (block :: blocks) := by
  intro k block' hk
  cases k with
  | zero =>
    obtain rfl := Option.some_inj.1 hk
    exact hblock
  | succ k =>
    have hrest := h k block' hk
    rwa [Nat.add_assoc, Nat.add_comm 1 k] at hrest

theorem EachFrom.append (h : EachFrom P first blocks)
    (hrest : EachFrom P (first + blocks.length) rest) : EachFrom P first (blocks ++ rest) := by
  intro k block hk
  by_cases hlt : k < blocks.length
  · rw [List.getElem?_append_left hlt] at hk
    exact h k block hk
  · obtain ⟨l, rfl⟩ := Nat.exists_eq_add_of_le (Nat.le_of_not_lt hlt)
    rw [List.getElem?_append_right (Nat.le_add_right _ _), Nat.add_sub_cancel_left] at hk
    rw [← Nat.add_assoc]
    exact hrest l block hk

theorem EachFrom.getD {k : ℕ} {d : β} (h : EachFrom P 0 blocks) (hk : k < blocks.length) :
    P k (blocks.getD k d) := by
  rw [List.getD_eq_getElem _ _ hk]
  have hblock := h k _ (List.getElem?_eq_getElem hk)
  rwa [Nat.zero_add] at hblock

section Settles

variable {ε α γ σ : Type*} {p q : Prop} {Q : α → Prop} {R : γ → Prop} {x : Except ε α}

/-- A computation succeeds exactly under a condition, and then as it should. -/
def Settles (p : Prop) (Q : α → Prop) (x : Except ε α) : Prop :=
  (p → ∃ a, x = .ok a ∧ Q a) ∧ (¬ p → ∃ e, x = .error e)

theorem Settles.ok {a : α} (ha : Q a) : Settles True Q (.ok a : Except ε α) :=
  ⟨fun _ ↦ ⟨a, rfl, ha⟩, fun h ↦ absurd trivial h⟩

theorem Settles.congr (h : Settles p Q x) (hiff : p ↔ q) : Settles q Q x :=
  ⟨fun hq ↦ h.1 (hiff.2 hq), fun hnot ↦ h.2 fun hp ↦ hnot (hiff.1 hp)⟩

theorem Settles.imp {Q' : α → Prop} (h : Settles p Q x) (hQ : p → ∀ a, Q a → Q' a) :
    Settles p Q' x := by
  refine ⟨fun hp ↦ ?_, h.2⟩
  obtain ⟨a, ha, hq⟩ := h.1 hp
  exact ⟨a, ha, hQ hp a hq⟩

theorem Settles.bind {f : α → Except ε γ} (hx : Settles p Q x)
    (hf : ∀ a, Q a → Settles q R (f a)) : Settles (p ∧ q) R (x.bind f) := by
  by_cases hp : p
  · obtain ⟨a, rfl, ha⟩ := hx.1 hp
    exact (hf a ha).congr (and_iff_right hp).symm
  · obtain ⟨e, rfl⟩ := hx.2 hp
    exact ⟨fun h ↦ absurd h.1 hp, fun _ ↦ ⟨e, rfl⟩⟩

/-- What succeeds with a right result succeeds under the condition. -/
theorem Settles.iff (h : Settles p Q x) : (∃ a, x = .ok a ∧ Q a) ↔ p := by
  refine ⟨?_, h.1⟩
  rintro ⟨a, rfl, -⟩
  by_contra hnot
  obtain ⟨e, he⟩ := h.2 hnot
  cases he

variable {f : ℕ → σ → Except ε (β × σ)}

/-- The blocks of `n` rounds, which are numbered from `first` on and hand on a state. -/
def collectFrom (f : ℕ → σ → Except ε (β × σ)) : ℕ → ℕ → σ → Except ε (List β × σ)
  | _, 0, s => .ok ([], s)
  | first, n + 1, s =>
    (f first s).bind fun d ↦ (collectFrom f (first + 1) n d.2).bind fun r ↦ .ok (d.1 :: r.1, r.2)

theorem forall_lt_succ_iff {Fits : ℕ → Prop} {n : ℕ} :
    (Fits first ∧ ∀ k < n, Fits (first + 1 + k)) ↔ ∀ k < n + 1, Fits (first + k) := by
  constructor
  · rintro ⟨hzero, hsucc⟩ k hk
    cases k with
    | zero => exact hzero
    | succ k =>
      rw [Nat.add_comm k, ← Nat.add_assoc]
      exact hsucc k (by omega)
  · intro h
    refine ⟨h 0 (Nat.succ_pos n), fun k hk ↦ ?_⟩
    rw [Nat.add_assoc, Nat.add_comm 1]
    exact h (k + 1) (by omega)

/-- The rounds settle as each of them does. -/
theorem settles_collectFrom (Inv : ℕ → σ → Prop) (Fits : ℕ → Prop) (P : ℕ → β → Prop)
    (hstep : ∀ i s, Inv i s → Settles (Fits i) (fun d ↦ P i d.1 ∧ Inv (i + 1) d.2) (f i s))
    (first n : ℕ) {s : σ} (hs : Inv first s) :
    Settles (∀ k < n, Fits (first + k))
      (fun r ↦ r.1.length = n ∧ EachFrom P first r.1 ∧ Inv (first + n) r.2)
      (collectFrom f first n s) := by
  induction n generalizing first s with
  | zero =>
    refine (Settles.ok ⟨rfl, EachFrom.nil, hs⟩).congr (iff_of_true trivial ?_)
    intro k hk
    exact absurd hk (Nat.not_lt_zero k)
  | succ n ih =>
    refine Settles.congr ((hstep first s hs).bind fun d hd ↦ ?_) forall_lt_succ_iff
    refine Settles.congr ((ih (first + 1) hd.2).bind fun r hr ↦ ?_) (and_iff_left trivial)
    refine Settles.ok ⟨congrArg Nat.succ hr.1, hr.2.1.cons hd.1, ?_⟩
    rw [Nat.add_comm n, ← Nat.add_assoc]
    exact hr.2.2

end Settles

end Parabix.Library
