import Mathlib.Data.List.Basic
import Mathlib.Data.List.Chain
import Mathlib.Tactic.Common

namespace Parabix.Library.RunLength

variable {κ α : Type}

/-- A stretch of consecutive cells of one kind. -/
structure Run (κ : Type) where
  kind : κ
  length : ℕ
deriving DecidableEq, Repr

/-- The number of cells a run list stands for. -/
def total : List (Run κ) → ℕ
  | [] => 0
  | r :: rs => r.length + total rs

/-- The kind of every cell, in order. -/
def kinds : List (Run κ) → List κ
  | [] => []
  | r :: rs => List.replicate r.length r.kind ++ kinds rs

/-- An encoding without empty runs, in which neighbouring runs differ in kind. -/
structure Canonical (rs : List (Run κ)) : Prop where
  pos : ∀ r ∈ rs, 0 < r.length
  chain : rs.IsChain (fun a b ↦ a.kind ≠ b.kind)

@[simp] theorem total_nil : total ([] : List (Run κ)) = 0 := rfl

@[simp] theorem total_cons (r : Run κ) (rs : List (Run κ)) :
    total (r :: rs) = r.length + total rs := rfl

@[simp] theorem total_append (rs rs' : List (Run κ)) :
    total (rs ++ rs') = total rs + total rs' := by
  induction rs with
  | nil => simp
  | cons r rs ih => simp only [List.cons_append, total_cons, ih]; omega

@[simp] theorem kinds_nil : kinds ([] : List (Run κ)) = [] := rfl

@[simp] theorem kinds_cons (r : Run κ) (rs : List (Run κ)) :
    kinds (r :: rs) = List.replicate r.length r.kind ++ kinds rs := rfl

@[simp] theorem kinds_append (rs rs' : List (Run κ)) :
    kinds (rs ++ rs') = kinds rs ++ kinds rs' := by
  induction rs with
  | nil => rfl
  | cons r rs ih => simp only [List.cons_append, kinds_cons, ih, List.append_assoc]

@[simp] theorem length_kinds (rs : List (Run κ)) : (kinds rs).length = total rs := by
  induction rs with
  | nil => rfl
  | cons r rs ih => simp [ih]

/-- Every cell lies in some run. -/
theorem exists_run {rs : List (Run κ)} {i : ℕ} (h : i < total rs) :
    ∃ pre r post, rs = pre ++ r :: post ∧ total pre ≤ i ∧ i < total pre + r.length := by
  induction rs generalizing i with
  | nil => simp at h
  | cons r rs ih =>
    by_cases hi : i < r.length
    · exact ⟨[], r, rs, rfl, by simp, by simpa using hi⟩
    · simp only [total_cons] at h
      obtain ⟨pre, r', post, rfl, hle, hlt⟩ := ih (i := i - r.length) (by omega)
      refine ⟨r :: pre, r', post, rfl, ?_, ?_⟩ <;> simp only [total_cons] <;> omega

section Unique

theorem Canonical.tail {r : Run κ} {rs : List (Run κ)} (h : Canonical (r :: rs)) :
    Canonical rs :=
  ⟨fun s hs ↦ h.pos s (List.mem_cons_of_mem _ hs), h.chain.tail⟩

/-- After a run of a canonical list comes a cell of another kind, if any. -/
theorem Canonical.head_kinds_ne {r : Run κ} {rs : List (Run κ)} (h : Canonical (r :: rs)) :
    ∀ k ∈ (kinds rs).head?, k ≠ r.kind := by
  intro k hk
  cases rs with
  | nil => simp at hk
  | cons s rs =>
    have hs := h.pos s (by simp)
    obtain ⟨n, hn⟩ : ∃ n, s.length = n + 1 := ⟨s.length - 1, by omega⟩
    have hne : r.kind ≠ s.kind := by
      have hc := h.chain
      simp only [List.isChain_cons_cons] at hc
      exact hc.1
    simp only [kinds_cons, hn, List.replicate_succ, List.cons_append, List.head?_cons,
      Option.mem_def, Option.some.injEq] at hk
    exact hk ▸ hne.symm

theorem Canonical.right {rs rs' : List (Run κ)} (h : Canonical (rs ++ rs')) : Canonical rs' :=
  ⟨fun r hr ↦ h.pos r (List.mem_append_right rs hr), h.chain.right_of_append⟩

theorem head?_kinds {r : Run κ} (rs : List (Run κ)) (h : 0 < r.length) :
    (kinds (r :: rs)).head? = some r.kind := by
  obtain ⟨n, hn⟩ : ∃ n, r.length = n + 1 := ⟨r.length - 1, by omega⟩
  rw [kinds_cons, hn, List.replicate_succ, List.cons_append, List.head?_cons]

theorem getLast?_kinds {r : Run κ} (rs : List (Run κ)) (h : 0 < r.length) :
    (kinds (rs ++ [r])).getLast? = some r.kind := by
  obtain ⟨n, hn⟩ : ∃ n, r.length = n + 1 := ⟨r.length - 1, by omega⟩
  rw [kinds_append, kinds_cons, kinds_nil, List.append_nil, hn, List.replicate_succ',
    ← List.append_assoc, List.getLast?_concat]

/-- Canonical lists can be joined where the neighbouring cells differ in kind. -/
theorem Canonical.append {rs rs' : List (Run κ)} (h : Canonical rs) (h' : Canonical rs')
    (hne : ∀ k ∈ (kinds rs).getLast?, ∀ k' ∈ (kinds rs').head?, k ≠ k') :
    Canonical (rs ++ rs') := by
  constructor
  · intro r hr
    exact (List.mem_append.mp hr).elim (h.pos r) (h'.pos r)
  · rw [List.isChain_append]
    refine ⟨h.chain, h'.chain, fun a ha b hb ↦ ?_⟩
    obtain ⟨rs, rfl⟩ := List.getLast?_eq_some_iff.mp ha
    obtain ⟨rs', rfl⟩ := List.head?_eq_some_iff.mp hb
    apply hne
    · exact getLast?_kinds rs (h.pos a (by simp))
    · exact head?_kinds rs' (h'.pos b (by simp))

/-- Two stretches of one kind, each ended by something else, are equally long. -/
theorem replicate_append_inj {k : κ} {n m : ℕ} {xs ys : List κ}
    (hx : ∀ a ∈ xs.head?, a ≠ k) (hy : ∀ a ∈ ys.head?, a ≠ k)
    (h : List.replicate n k ++ xs = List.replicate m k ++ ys) : n = m ∧ xs = ys := by
  induction n generalizing m with
  | zero =>
    cases m with
    | zero => exact ⟨rfl, by simpa using h⟩
    | succ m =>
      rw [List.replicate_zero, List.nil_append] at h
      subst h
      exact absurd rfl (hx k (by simp [List.replicate_succ]))
  | succ n ih =>
    cases m with
    | zero =>
      rw [List.replicate_zero, List.nil_append] at h
      subst h
      exact absurd rfl (hy k (by simp [List.replicate_succ]))
    | succ m =>
      simp only [List.replicate_succ, List.cons_append, List.cons.injEq, true_and] at h
      obtain ⟨rfl, rfl⟩ := ih h
      exact ⟨rfl, rfl⟩

/-- A canonical run list is determined by the kinds of its cells. -/
theorem Canonical.ext {rs rs' : List (Run κ)} (h : Canonical rs) (h' : Canonical rs')
    (hk : kinds rs = kinds rs') : rs = rs' := by
  induction rs generalizing rs' with
  | nil =>
    cases rs' with
    | nil => rfl
    | cons r rs' =>
      have hp := h'.pos r (by simp)
      have hl := congrArg List.length hk
      simp only [kinds_nil, kinds_cons, List.length_nil, List.length_append,
        List.length_replicate] at hl
      omega
  | cons r rs ih =>
    cases rs' with
    | nil =>
      have hp := h.pos r (by simp)
      have hl := congrArg List.length hk
      simp only [kinds_nil, kinds_cons, List.length_nil, List.length_append,
        List.length_replicate] at hl
      omega
    | cons r' rs' =>
      have hp := h.pos r (by simp)
      have hp' := h'.pos r' (by simp)
      have hkind : r.kind = r'.kind := by
        have hh := congrArg List.head? hk
        obtain ⟨n, hn⟩ : ∃ n, r.length = n + 1 := ⟨r.length - 1, by omega⟩
        obtain ⟨m, hm⟩ : ∃ m, r'.length = m + 1 := ⟨r'.length - 1, by omega⟩
        simpa [hn, hm, List.replicate_succ] using hh
      simp only [kinds_cons, hkind] at hk
      obtain ⟨hl, hrest⟩ := replicate_append_inj
        (hkind ▸ h.head_kinds_ne) h'.head_kinds_ne hk
      rw [ih h.tail h'.tail hrest]
      cases r; cases r'
      simp only at hkind hl
      rw [hkind, hl]

end Unique

section Decode

variable (fill : κ → Option α)

/-- The cells of a run list. A kind with a fill value stands for copies of that
value; the cells of the other kinds are listed one by one in a side list. -/
def decode : List (Run κ) → List α → List α
  | [], _ => []
  | r :: rs, qs =>
    match fill r.kind with
    | some a => List.replicate r.length a ++ decode rs qs
    | none => qs.take r.length ++ decode rs (qs.drop r.length)

/-- The number of cells that a run list takes from the side list. -/
def literals : List (Run κ) → ℕ
  | [] => 0
  | r :: rs => (if (fill r.kind).isNone then r.length else 0) + literals rs

@[simp] theorem decode_nil (qs : List α) : decode fill [] qs = [] := rfl

@[simp] theorem literals_nil : literals fill ([] : List (Run κ)) = 0 := rfl

@[simp] theorem literals_cons (r : Run κ) (rs : List (Run κ)) :
    literals fill (r :: rs) =
      (if (fill r.kind).isNone then r.length else 0) + literals fill rs := rfl

@[simp] theorem literals_append (rs rs' : List (Run κ)) :
    literals fill (rs ++ rs') = literals fill rs + literals fill rs' := by
  induction rs with
  | nil => simp
  | cons r rs ih => simp only [List.cons_append, literals_cons, ih]; omega

theorem literals_le_total (rs : List (Run κ)) : literals fill rs ≤ total rs := by
  induction rs with
  | nil => rfl
  | cons r rs ih =>
    rw [literals_cons, total_cons]
    split <;> omega

variable {fill}

theorem decode_cons_some {r : Run κ} {a : α} (h : fill r.kind = some a) (rs : List (Run κ))
    (qs : List α) :
    decode fill (r :: rs) qs = List.replicate r.length a ++ decode fill rs qs := by
  simp only [decode, h]

theorem decode_cons_none {r : Run κ} (h : fill r.kind = none) (rs : List (Run κ))
    (qs : List α) :
    decode fill (r :: rs) qs = qs.take r.length ++ decode fill rs (qs.drop r.length) := by
  simp only [decode, h]

theorem decode_append (rs rs' : List (Run κ)) (qs : List α) :
    decode fill (rs ++ rs') qs =
      decode fill rs qs ++ decode fill rs' (qs.drop (literals fill rs)) := by
  induction rs generalizing qs with
  | nil => simp
  | cons r rs ih =>
    cases h : fill r.kind with
    | some a =>
      simp only [List.cons_append, decode_cons_some h, ih, literals_cons, h, Option.isNone_some,
        Bool.false_eq_true, if_false, Nat.zero_add, List.append_assoc]
    | none =>
      simp only [List.cons_append, decode_cons_none h, ih, literals_cons, h, Option.isNone_none,
        if_true, List.drop_drop, List.append_assoc]

/-- Only the first `literals` cells of the side list are read. -/
theorem decode_append_side {rs : List (Run κ)} {qs : List α} (h : literals fill rs ≤ qs.length)
    (qs' : List α) : decode fill rs (qs ++ qs') = decode fill rs qs := by
  induction rs generalizing qs with
  | nil => rfl
  | cons r rs ih =>
    cases hr : fill r.kind with
    | some a =>
      simp only [literals_cons, hr, Option.isNone_some, Bool.false_eq_true, if_false,
        Nat.zero_add] at h
      rw [decode_cons_some hr, decode_cons_some hr, ih h]
    | none =>
      simp only [literals_cons, hr, Option.isNone_none, if_true] at h
      rw [decode_cons_none hr, decode_cons_none hr, List.take_append_of_le_length (by omega),
        List.drop_append_of_le_length (by omega), ih (by rw [List.length_drop]; omega)]

/-- Run lists and their side lists can be appended together. -/
theorem decode_append_append {rs : List (Run κ)} {qs : List α}
    (h : literals fill rs = qs.length) (rs' : List (Run κ)) (qs' : List α) :
    decode fill (rs ++ rs') (qs ++ qs') = decode fill rs qs ++ decode fill rs' qs' := by
  rw [decode_append, decode_append_side h.le, h, List.drop_left]

theorem length_decode {rs : List (Run κ)} {qs : List α} (h : literals fill rs ≤ qs.length) :
    (decode fill rs qs).length = total rs := by
  induction rs generalizing qs with
  | nil => rfl
  | cons r rs ih =>
    cases hr : fill r.kind with
    | some a =>
      simp only [literals_cons, hr, Option.isNone_some, Bool.false_eq_true, if_false,
        Nat.zero_add] at h
      rw [decode_cons_some hr, List.length_append, List.length_replicate, ih h, total_cons]
    | none =>
      simp only [literals_cons, hr, Option.isNone_none, if_true] at h
      rw [decode_cons_none hr, List.length_append, List.length_take,
        ih (by rw [List.length_drop]; omega), total_cons, min_eq_left (by omega)]

/-- Two neighbouring runs of one kind stand for the cells of a single run. -/
theorem decode_merge (k : κ) (n m : ℕ) (rs : List (Run κ)) (qs : List α) :
    decode fill (⟨k, n⟩ :: ⟨k, m⟩ :: rs) qs = decode fill (⟨k, n + m⟩ :: rs) qs := by
  cases h : fill k with
  | some a =>
    simp only [decode, h, ← List.append_assoc, List.replicate_append_replicate]
  | none =>
    simp only [decode, h, List.drop_drop, ← List.append_assoc, List.take_add]

/-- The run around a cell and the position of the cell give its value. -/
theorem decode_getElem? {pre post : List (Run κ)} {r : Run κ} {qs : List α} {i : ℕ}
    (h : literals fill (pre ++ r :: post) ≤ qs.length) (hle : total pre ≤ i)
    (hlt : i < total pre + r.length) :
    (decode fill (pre ++ r :: post) qs)[i]? =
      match fill r.kind with
      | some a => some a
      | none => qs[literals fill pre + (i - total pre)]? := by
  rw [literals_append, literals_cons] at h
  rw [decode_append, List.getElem?_append_right (by rw [length_decode (by omega)]; exact hle),
    length_decode (by omega)]
  cases hr : fill r.kind with
  | some a =>
    rw [decode_cons_some hr, List.getElem?_append_left (by simp; omega)]
    simp only [List.getElem?_replicate]
    rw [if_pos (by omega)]
  | none =>
    simp only [hr, Option.isNone_none, if_true] at h
    rw [decode_cons_none hr, List.getElem?_append_left (by simp; omega), List.getElem?_take,
      if_pos (by omega), List.getElem?_drop]

section Map

variable {φ : κ → κ} {ψ : α → α}

theorem total_map (φ : κ → κ) (rs : List (Run κ)) :
    total (rs.map fun r ↦ ⟨φ r.kind, r.length⟩) = total rs := by
  induction rs with
  | nil => rfl
  | cons r rs ih => simp only [List.map_cons, total_cons, ih]

theorem literals_map (h : ∀ k, fill (φ k) = (fill k).map ψ) (rs : List (Run κ)) :
    literals fill (rs.map fun r ↦ ⟨φ r.kind, r.length⟩) = literals fill rs := by
  induction rs with
  | nil => rfl
  | cons r rs ih => simp only [List.map_cons, literals_cons, ih, h, Option.isNone_map]

/-- A map of the cells that respects the kinds can be done on the encoding. -/
theorem decode_map (h : ∀ k, fill (φ k) = (fill k).map ψ) (rs : List (Run κ)) (qs : List α) :
    decode fill (rs.map fun r ↦ ⟨φ r.kind, r.length⟩) (qs.map ψ) =
      (decode fill rs qs).map ψ := by
  induction rs generalizing qs with
  | nil => rfl
  | cons r rs ih =>
    cases hr : fill r.kind with
    | some a =>
      have hφ : fill (φ r.kind) = some (ψ a) := by rw [h, hr, Option.map_some]
      simp only [List.map_cons, decode, hr, hφ, ih, List.map_append, List.map_replicate]
    | none =>
      have hφ : fill (φ r.kind) = none := by rw [h, hr, Option.map_none]
      simp only [List.map_cons, decode, hr, hφ, List.map_append, ← List.map_take,
        ← List.map_drop, ih]

theorem Canonical.map (hφ : Function.Injective φ) {rs : List (Run κ)} (h : Canonical rs) :
    Canonical (rs.map fun r ↦ ⟨φ r.kind, r.length⟩) where
  pos r hr := by
    obtain ⟨s, hs, rfl⟩ := List.mem_map.mp hr
    exact h.pos s hs
  chain := by
    rw [List.isChain_map]
    exact h.chain.imp fun a b hab he ↦ hab (hφ he)

end Map

variable {kindOf : α → κ}

/-- The cells have the kinds that the runs say. -/
theorem map_decode (hf : ∀ k a, fill k = some a → kindOf a = k) {rs : List (Run κ)} {qs : List α}
    (hl : literals fill rs ≤ qs.length) (hq : ∀ q ∈ qs, ∀ k, fill k = none → kindOf q = k) :
    (decode fill rs qs).map kindOf = kinds rs := by
  induction rs generalizing qs with
  | nil => rfl
  | cons r rs ih =>
    cases hr : fill r.kind with
    | some a =>
      simp only [literals_cons, hr, Option.isNone_some, Bool.false_eq_true, if_false,
        Nat.zero_add] at hl
      rw [decode_cons_some hr, List.map_append, List.map_replicate, hf _ _ hr, ih hl hq,
        kinds_cons]
    | none =>
      simp only [literals_cons, hr, Option.isNone_none, if_true] at hl
      rw [decode_cons_none hr, List.map_append, ih (by rw [List.length_drop]; omega)
        fun q hm ↦ hq q (List.mem_of_mem_drop hm), kinds_cons]
      congr 1
      apply List.eq_replicate_iff.mpr
      refine ⟨by rw [List.length_map, List.length_take]; omega, fun k hk ↦ ?_⟩
      obtain ⟨q, hm, rfl⟩ := List.mem_map.mp hk
      exact hq q (List.mem_of_mem_take hm) _ hr

/-- Equal cells under a classification that tells the kinds apart come from one
canonical encoding: neither the runs nor the side list can differ. -/
theorem decode_inj {rs rs' : List (Run κ)} {qs qs' : List α}
    (h : Canonical rs) (h' : Canonical rs')
    (hk : (decode fill rs qs).map kindOf = kinds rs)
    (hk' : (decode fill rs' qs').map kindOf = kinds rs')
    (hl : literals fill rs = qs.length) (hl' : literals fill rs' = qs'.length)
    (hd : decode fill rs qs = decode fill rs' qs') : rs = rs' ∧ qs = qs' := by
  have hrs : rs = rs' := h.ext h' (by rw [← hk, ← hk', hd])
  subst hrs
  refine ⟨rfl, ?_⟩
  clear h h' hk hk'
  induction rs generalizing qs qs' with
  | nil =>
    simp only [literals_nil] at hl hl'
    rw [List.length_eq_zero_iff.mp hl.symm, List.length_eq_zero_iff.mp hl'.symm]
  | cons r rs ih =>
    cases hr : fill r.kind with
    | some a =>
      simp only [literals_cons, hr, Option.isNone_some, Bool.false_eq_true, if_false,
        Nat.zero_add] at hl hl'
      rw [decode_cons_some hr, decode_cons_some hr] at hd
      exact ih hl hl' (List.append_cancel_left hd)
    | none =>
      simp only [literals_cons, hr, Option.isNone_none, if_true] at hl hl'
      rw [decode_cons_none hr, decode_cons_none hr] at hd
      obtain ⟨ht, hrest⟩ := List.append_inj hd (by simp only [List.length_take]; omega)
      have hdrop := ih (by rw [List.length_drop]; omega) (by rw [List.length_drop]; omega) hrest
      rw [← List.take_append_drop r.length qs, ht, hdrop, List.take_append_drop]

end Decode

end Parabix.Library.RunLength
