import Mathlib.Data.Set.Lattice
import Mathlib.Logic.Relation
import Mathlib.Order.ConditionallyCompleteLattice.Basic

namespace Parabix.Library.Increments

open Relation

variable {α : Type*}

/-- The positions that a relation leads to. -/
def image (r : α → α → Prop) (A : Set α) : Set α := {b | ∃ a ∈ A, r a b}

/-- The positions that a repetition has to go on from, and all that it has found. -/
structure Variables (α : Type*) where
  pending : Set α
  accum : Set α

def none : Variables α := ⟨∅, ∅⟩

/-- No repetition has to go on. -/
def Idle (V : List (Variables α)) : Prop := ∀ v ∈ V, v.pending = ∅

/-- From further positions a step finds others. It changes the variables of the repetitions. -/
def Step (α : Type*) := Set α → List (Variables α) → Set α → List (Variables α) → Prop

/-- What the variables say of all positions that were given and all that were found. -/
structure Invariant (r : α → α → Prop) (k : ℕ)
    (Inv : List (Variables α) → Set α → Set α → Prop) : Prop where
  start : Inv (List.replicate k none) ∅ ∅
  length {V : List (Variables α)} {A B : Set α} : Inv V A B → V.length = k
  sound {V : List (Variables α)} {A B : Set α} : Inv V A B → B ⊆ image r A
  complete {V : List (Variables α)} {A B : Set α} : Inv V A B → Idle V → image r A ⊆ B

/-- Steps that find the images of a relation little by little. -/
def Incremental (r : α → α → Prop) (k : ℕ) (step : Step α) : Prop :=
  ∃ Inv, Invariant r k Inv ∧ ∀ V A B C V' D, Inv V A B → step C V D V' → Inv V' (A ∪ C) (B ∪ D)

variable {r s : α → α → Prop} {k l : ℕ} {A B C D : Set α} {V W : List (Variables α)} {a b : α}

section Image

theorem image_union : image r (A ∪ B) = image r A ∪ image r B := by
  ext b
  constructor
  · rintro ⟨a, ha | ha, hr⟩
    · exact .inl ⟨a, ha, hr⟩
    · exact .inr ⟨a, ha, hr⟩
  · rintro (⟨a, ha, hr⟩ | ⟨a, ha, hr⟩)
    · exact ⟨a, .inl ha, hr⟩
    · exact ⟨a, .inr ha, hr⟩

theorem image_mono (h : A ⊆ B) : image r A ⊆ image r B := by
  rintro b ⟨a, ha, hr⟩
  exact ⟨a, h ha, hr⟩

theorem image_empty : image r ∅ = ∅ := by
  ext b
  exact ⟨fun h ↦ h.choose_spec.1, fun h ↦ h.elim⟩

theorem image_comp : image (Comp r s) A = image s (image r A) := by
  ext c
  constructor
  · rintro ⟨a, ha, b, hr, hs⟩
    exact ⟨b, ⟨a, ha, hr⟩, hs⟩
  · rintro ⟨b, ⟨a, ha, hr⟩, hs⟩
    exact ⟨a, ha, b, hr, hs⟩

theorem image_sup : image (r ⊔ s) A = image r A ∪ image s A := by
  ext b
  constructor
  · rintro ⟨a, ha, hr | hs⟩
    · exact .inl ⟨a, ha, hr⟩
    · exact .inr ⟨a, ha, hs⟩
  · rintro (⟨a, ha, hr⟩ | ⟨a, ha, hs⟩)
    · exact ⟨a, ha, .inl hr⟩
    · exact ⟨a, ha, .inr hs⟩

theorem subset_image_star : A ⊆ image (ReflTransGen r) A := fun a ha ↦ ⟨a, ha, .refl⟩

theorem image_star_closed : image r (image (ReflTransGen r) A) ⊆ image (ReflTransGen r) A := by
  rintro c ⟨b, ⟨a, ha, hab⟩, hbc⟩
  exact ⟨a, ha, hab.tail hbc⟩

/-- The least set that is kept by the relation. -/
theorem image_star_subset (hA : A ⊆ B) (hB : image r B ⊆ B) : image (ReflTransGen r) A ⊆ B := by
  rintro c ⟨a, ha, hac⟩
  induction hac with
  | refl => exact hA ha
  | tail _ hbc ih => exact hB ⟨_, ih, hbc⟩

end Image

section Steps

/-- What needs no variables is found at once. -/
def Step.exact (r : α → α → Prop) : Step α := fun C V D V' ↦ V = [] ∧ V' = [] ∧ D = image r C

/-- A step from what another one finds. The first `k` variables are those of the first one. -/
def Step.comp (k : ℕ) (f g : Step α) : Step α := fun C V D V' ↦
  ∃ V1 V2 M V1' V2', V = V1 ++ V2 ∧ V' = V1' ++ V2' ∧ V1.length = k ∧ f C V1 M V1' ∧ g M V2 D V2'

def Step.sup (k : ℕ) (f g : Step α) : Step α := fun C V D V' ↦
  ∃ V1 V2 D1 D2 V1' V2', V = V1 ++ V2 ∧ V' = V1' ++ V2' ∧ V1.length = k ∧ D = D1 ∪ D2 ∧
    f C V1 D1 V1' ∧ g C V2 D2 V2'

/-- One round of a repetition within a loop: from the positions that are given and those that are
pending. -/
def Step.star (f : Step α) : Step α := fun C V D V' ↦
  ∃ v W L W', V = v :: W ∧ f (C ∪ v.pending) W L W' ∧
    V' = ⟨L \ (C ∪ v.accum), L ∪ (C ∪ v.accum)⟩ :: W' ∧ D = C ∪ (L ∪ (C ∪ v.accum))

variable {f g : Step α}

theorem incremental_exact (r : α → α → Prop) : Incremental r 0 (.exact r) := by
  refine ⟨fun V A B ↦ V = [] ∧ B = image r A, ⟨⟨rfl, image_empty.symm⟩, ?_, ?_, ?_⟩, ?_⟩
  · rintro V A B ⟨rfl, -⟩
    rfl
  · rintro V A B ⟨-, rfl⟩
    exact le_rfl
  · rintro V A B ⟨-, rfl⟩ -
    exact le_rfl
  · rintro V A B C V' D ⟨rfl, rfl⟩ ⟨-, rfl, rfl⟩
    exact ⟨rfl, image_union.symm⟩

/-- What needs no variables is exact. -/
theorem Incremental.exact (h : Incremental r 0 f) (hf : f C [] D V) : V = [] ∧ D = image r C := by
  obtain ⟨Inv, hinv, hstep⟩ := h
  have hafter := hstep _ _ _ _ _ _ hinv.start hf
  rw [Set.empty_union, Set.empty_union] at hafter
  obtain rfl := List.length_eq_zero_iff.1 (hinv.length hafter)
  exact ⟨rfl, (hinv.sound hafter).antisymm
    (hinv.complete hafter fun v hv ↦ absurd hv List.not_mem_nil)⟩

theorem Incremental.comp (hf : Incremental r k f) (hg : Incremental s l g) :
    Incremental (Comp r s) (k + l) (f.comp k g) := by
  obtain ⟨Inv1, hinv1, hstep1⟩ := hf
  obtain ⟨Inv2, hinv2, hstep2⟩ := hg
  refine ⟨fun V A B ↦ ∃ V1 V2 M, V = V1 ++ V2 ∧ Inv1 V1 A M ∧ Inv2 V2 M B,
    ⟨⟨_, _, ∅, List.replicate_append_replicate.symm, hinv1.start, hinv2.start⟩, ?_, ?_, ?_⟩, ?_⟩
  · rintro _ A B ⟨V1, V2, M, rfl, h1, h2⟩
    rw [List.length_append, hinv1.length h1, hinv2.length h2]
  · rintro _ A B ⟨V1, V2, M, rfl, h1, h2⟩
    rw [image_comp]
    exact (hinv2.sound h2).trans (image_mono (hinv1.sound h1))
  · rintro _ A B ⟨V1, V2, M, rfl, h1, h2⟩ hidle
    obtain ⟨hidle1, hidle2⟩ := List.forall_mem_append.1 hidle
    rw [image_comp]
    exact (image_mono (hinv1.complete h1 hidle1)).trans (hinv2.complete h2 hidle2)
  · rintro _ A B C _ D ⟨V1, V2, M, rfl, h1, h2⟩ ⟨W1, W2, M', V1', V2', heq, rfl, hk, hf, hg⟩
    obtain ⟨rfl, rfl⟩ := List.append_inj heq ((hinv1.length h1).trans hk.symm)
    exact ⟨V1', V2', M ∪ M', rfl, hstep1 _ _ _ _ _ _ h1 hf, hstep2 _ _ _ _ _ _ h2 hg⟩

theorem Incremental.sup (hf : Incremental r k f) (hg : Incremental s l g) :
    Incremental (r ⊔ s) (k + l) (f.sup k g) := by
  obtain ⟨Inv1, hinv1, hstep1⟩ := hf
  obtain ⟨Inv2, hinv2, hstep2⟩ := hg
  refine ⟨fun V A B ↦ ∃ V1 V2 B1 B2, V = V1 ++ V2 ∧ B = B1 ∪ B2 ∧ Inv1 V1 A B1 ∧ Inv2 V2 A B2,
    ⟨⟨_, _, ∅, ∅, List.replicate_append_replicate.symm, (Set.union_empty ∅).symm, hinv1.start,
      hinv2.start⟩, ?_, ?_, ?_⟩, ?_⟩
  · rintro _ A B ⟨V1, V2, B1, B2, rfl, -, h1, h2⟩
    rw [List.length_append, hinv1.length h1, hinv2.length h2]
  · rintro _ A _ ⟨V1, V2, B1, B2, rfl, rfl, h1, h2⟩
    rw [image_sup]
    exact Set.union_subset_union (hinv1.sound h1) (hinv2.sound h2)
  · rintro _ A _ ⟨V1, V2, B1, B2, rfl, rfl, h1, h2⟩ hidle
    obtain ⟨hidle1, hidle2⟩ := List.forall_mem_append.1 hidle
    rw [image_sup]
    exact Set.union_subset_union (hinv1.complete h1 hidle1) (hinv2.complete h2 hidle2)
  · rintro _ A _ C _ _ ⟨V1, V2, B1, B2, rfl, rfl, h1, h2⟩
      ⟨W1, W2, D1, D2, V1', V2', heq, rfl, hk, rfl, hf, hg⟩
    obtain ⟨rfl, rfl⟩ := List.append_inj heq ((hinv1.length h1).trans hk.symm)
    exact ⟨V1', V2', B1 ∪ D1, B2 ∪ D2, rfl, Set.union_union_union_comm _ _ _ _,
      hstep1 _ _ _ _ _ _ h1 hf, hstep2 _ _ _ _ _ _ h2 hg⟩

end Steps

section Repetitions

variable {f : Step α} {P : Set α}

/-- What the rounds of a repetition keep: from `X` the positions in `L` have been found, and those
that have not been gone on from are pending. -/
structure Rounds (r : α → α → Prop) (A P Acc X L : Set α) : Prop where
  accum : Acc = A ∪ L
  found : L ⊆ image r X
  seen : X ∪ P ⊆ Acc
  covered : Acc ⊆ X ∪ P
  reached : Acc ⊆ image (ReflTransGen r) A

theorem Rounds.initial : Rounds r A A A ∅ ∅ where
  accum := (Set.union_empty A).symm
  found := Set.empty_subset _
  seen := (Set.empty_union A).subset
  covered := (Set.empty_union A).superset
  reached := subset_image_star

/-- A round with further positions. -/
theorem Rounds.next {Acc X L : Set α} (h : Rounds r A P Acc X L) {C D : Set α}
    (hfound : L ∪ D ⊆ image r (X ∪ (C ∪ P))) :
    Rounds r (A ∪ C) (D \ (C ∪ Acc)) (D ∪ (C ∪ Acc)) (X ∪ (C ∪ P)) (L ∪ D) := by
  have hmono : image (ReflTransGen r) A ⊆ image (ReflTransGen r) (A ∪ C) :=
    image_mono Set.subset_union_left
  have hacc := h.reached.trans hmono
  have hC : C ⊆ image (ReflTransGen r) (A ∪ C) := Set.subset_union_right.trans subset_image_star
  have hX : X ∪ (C ∪ P) ⊆ image (ReflTransGen r) (A ∪ C) :=
    Set.union_subset ((Set.subset_union_left.trans h.seen).trans hacc)
      (Set.union_subset hC ((Set.subset_union_right.trans h.seen).trans hacc))
  have hD : D ⊆ image (ReflTransGen r) (A ∪ C) :=
    (Set.subset_union_right.trans hfound).trans ((image_mono hX).trans image_star_closed)
  refine ⟨?_, hfound, ?_, ?_, Set.union_subset hD (Set.union_subset hC hacc)⟩
  · rw [h.accum]
    ext a
    simp only [Set.mem_union]
    tauto
  · rintro a ((hx | hc | hp) | ⟨hd, -⟩)
    · exact .inr (.inr (h.seen (.inl hx)))
    · exact .inr (.inl hc)
    · exact .inr (.inr (h.seen (.inr hp)))
    · exact .inl hd
  · rintro a (hd | hc | ha)
    · by_cases hold : a ∈ C ∪ Acc
      · rcases hold with hc | ha
        · exact .inl (.inr (.inl hc))
        · rcases h.covered ha with hx | hp
          · exact .inl (.inl hx)
          · exact .inl (.inr (.inr hp))
      · exact .inr ⟨hd, hold⟩
    · exact .inl (.inr (.inl hc))
    · rcases h.covered ha with hx | hp
      · exact .inl (.inl hx)
      · exact .inl (.inr (.inr hp))

/-- Where nothing is pending, all repetitions have been found. -/
theorem Rounds.complete {Acc X L : Set α} (h : Rounds r A P Acc X L) (hP : P = ∅)
    (hL : image r X ⊆ L) : Acc = image (ReflTransGen r) A := by
  refine h.reached.antisymm (image_star_subset ?_ ?_)
  · rw [h.accum]
    exact Set.subset_union_left
  · have hX : Acc ⊆ X := by
      have hopen := h.covered
      rwa [hP, Set.union_empty] at hopen
    refine ((image_mono hX).trans hL).trans ?_
    rw [h.accum]
    exact Set.subset_union_right

theorem Incremental.star (hf : Incremental r k f) :
    Incremental (ReflTransGen r) (k + 1) f.star := by
  obtain ⟨Inv, hinv, hstep⟩ := hf
  refine ⟨fun V A B ↦ ∃ v W X L, V = v :: W ∧ Inv W X L ∧ Rounds r A v.pending v.accum X L ∧
    B = v.accum, ⟨⟨none, _, ∅, ∅, rfl, hinv.start, .initial, rfl⟩, ?_, ?_, ?_⟩, ?_⟩
  · rintro V A B ⟨v, W, X, L, rfl, hW, -, -⟩
    rw [List.length_cons, hinv.length hW]
  · rintro V A B ⟨v, W, X, L, rfl, -, hrounds, rfl⟩
    exact hrounds.reached
  · rintro V A B ⟨v, W, X, L, rfl, hW, hrounds, rfl⟩ hidle
    have hidleW : Idle W := fun w hw ↦ hidle w (List.mem_cons_of_mem v hw)
    rw [hrounds.complete (hidle v List.mem_cons_self) (hinv.complete hW hidleW)]
  · rintro V A B C V' D ⟨v, W, X, L, rfl, hW, hrounds, rfl⟩ ⟨v', W', M, W'', heq, hf, rfl, rfl⟩
    obtain ⟨rfl, rfl⟩ := List.cons.inj heq
    have hafter := hstep _ _ _ _ _ _ hW hf
    refine ⟨_, _, _, _, rfl, hafter, hrounds.next (hinv.sound hafter), ?_⟩
    ext a
    simp only [Set.mem_union]
    tauto

/-- The rounds of a loop, up to the one after which nothing is pending. -/
inductive Loops (f : Step α) : Set α → Set α → List (Variables α) → Set α → Prop
  | done {P Acc : Set α} {V : List (Variables α)} : P = ∅ → Idle V → Loops f P Acc V Acc
  | round {P Acc L B : Set α} {V V' : List (Variables α)} : f P V L V' →
      Loops f (L \ Acc) (L ∪ Acc) V' B → Loops f P Acc V B

/-- A loop that ends has found all repetitions of what its rounds find. -/
theorem Incremental.loops (hf : Incremental r k f) (h : Loops f A A (List.replicate k none) B) :
    B = image (ReflTransGen r) A := by
  obtain ⟨Inv, hinv, hstep⟩ := hf
  have hrun (P Acc X L B : Set α) (V : List (Variables α)) (h : Loops f P Acc V B)
      (hV : Inv V X L) (hrounds : Rounds r A P Acc X L) : B = image (ReflTransGen r) A := by
    induction h generalizing X L with
    | done hP hidle => exact hrounds.complete hP (hinv.complete hV hidle)
    | round hf _ ih =>
      have hafter := hstep _ _ _ _ _ _ hV hf
      have hnext := hrounds.next (C := ∅) (by
        rw [Set.empty_union]
        exact hinv.sound hafter)
      simp only [Set.empty_union, Set.union_empty] at hnext
      exact ih _ _ hafter hnext
  exact hrun A A ∅ ∅ B _ h hinv.start .initial

end Repetitions

end Parabix.Library.Increments
