import Mathlib.Data.List.Sort
import Mathlib.Logic.Hydra
import Mathlib.Tactic.Common

namespace Parabix.Library.Turnstiles

open Function (update update_apply update_eq_self update_of_ne update_self)

/-- A process waits for its turn at a lock, lets the next one pass, or has an effect at a place
that a lock guards. -/
inductive Action (E : Type)
  | acquire (lock : ℕ)
  | release (lock : ℕ)
  | work (lock : ℕ) (effect : E)

/-- The processes are numbered in the order of their claims. A lock has the number of the process
whose turn it is. -/
structure State (Q E : Type) where
  locks : ℕ → ℕ
  processes : List Q
  log : List (ℕ × ℕ × E)

variable {Q E : Type}

def initial : State Q E := ⟨fun _ ↦ 0, [], []⟩

section Runs

variable (step : Q → Action E → Q → Prop)

/-- A step of a process that has been claimed. A process that waits has none. -/
inductive Move : State Q E → State Q E → Prop
  | acquire {σ : State Q E} {s l : ℕ} {q q' : Q} : σ.processes[s]? = some q →
      step q (.acquire l) q' → σ.locks l = s →
      Move σ { σ with processes := σ.processes.set s q' }
  | release {σ : State Q E} {s l : ℕ} {q q' : Q} : σ.processes[s]? = some q →
      step q (.release l) q' →
      Move σ { σ with
        locks := fun l' ↦ if l' = l then s + 1 else σ.locks l'
        processes := σ.processes.set s q' }
  | work {σ : State Q E} {s l : ℕ} {e : E} {q q' : Q} : σ.processes[s]? = some q →
      step q (.work l e) q' →
      Move σ { σ with
        processes := σ.processes.set s q'
        log := σ.log ++ [(s, l, e)] }

variable (start : Q)

inductive Reachable : State Q E → Prop
  | initial : Reachable initial
  | claim {σ : State Q E} : Reachable σ →
      Reachable { σ with processes := σ.processes ++ [start] }
  | move {σ σ' : State Q E} : Reachable σ → Move step σ σ' → Reachable σ'

/-- A process releases the locks in their order, each after it has had its turn at that one or at
a later one, and works where it has had its turn and has not yet let the next one pass. The numbers
are those of the locks it has released and of those it has been admitted to. -/
structure Disciplined (Inv : Q → ℕ → ℕ → Prop) : Prop where
  start : Inv start 0 0
  acquire {q q' : Q} {r c l : ℕ} : Inv q r c → step q (.acquire l) q' →
    r ≤ l ∧ Inv q' r (max c (l + 1))
  release {q q' : Q} {r c l : ℕ} : Inv q r c → step q (.release l) q' →
    l = r ∧ l < c ∧ Inv q' (r + 1) c
  work {q q' : Q} {r c l : ℕ} {e : E} : Inv q r c → step q (.work l e) q' →
    r ≤ l ∧ l < c ∧ Inv q' r c

end Runs

section Order

variable {step : Q → Action E → Q → Prop} {start : Q} {Inv : Q → ℕ → ℕ → Prop} {σ σ' : State Q E}

/-- No process is admitted to a lock that the one before it has not released. -/
structure Numbers (n : ℕ) (turn : ℕ → ℕ) (events : List (ℕ × ℕ × E)) (r c : ℕ → ℕ) : Prop where
  released {s : ℕ} : s < n → r s ≤ c s
  cleared {s : ℕ} : s + 1 < n → c (s + 1) ≤ r s
  locks {l s : ℕ} : s < n → (s < turn l ↔ l < r s)
  bound {l : ℕ} : turn l ≤ n
  log {x : ℕ × ℕ × E} : x ∈ events → x.1 < n ∧ x.2.1 < c x.1
  pairs : events.Pairwise fun x y ↦ y.1 < x.1 → x.2.1 < y.2.1

structure Ordered (Inv : Q → ℕ → ℕ → Prop) (σ : State Q E) (r c : ℕ → ℕ) : Prop
    extends Numbers σ.processes.length σ.locks σ.log r c where
  inv {s : ℕ} {q : Q} : σ.processes[s]? = some q → Inv q (r s) (c s)

namespace Ordered

variable {r c : ℕ → ℕ}

theorem antitone (h : Ordered Inv σ r c) {s t : ℕ} (hst : s < t) (ht : t < σ.processes.length) :
    c t ≤ r s := by
  induction t with
  | zero => omega
  | succ t ih =>
    have hc := h.cleared ht
    rcases Nat.lt_succ_iff_lt_or_eq.1 hst with hlt | rfl
    · have hr := h.released (show t < σ.processes.length by omega)
      have hs := ih hlt (by omega)
      omega
    · exact hc

/-- It is the turn of a process wherever it has been admitted and has not released. -/
theorem turn (h : Ordered Inv σ r c) {s l : ℕ} (hs : s < σ.processes.length) (hr : r s ≤ l)
    (hc : l < c s) : σ.locks l = s := by
  have hle : ¬ s < σ.locks l := fun hlt ↦ absurd ((h.locks hs).1 hlt) (by omega)
  rcases Nat.eq_zero_or_pos s with rfl | hpos
  · omega
  · have hprev := h.antitone (show s - 1 < s by omega) hs
    have hlt := (h.locks (l := l) (show s - 1 < σ.processes.length by omega)).2 (by omega)
    omega

end Ordered

theorem ordered_initial : Ordered Inv (initial : State Q E) (fun _ ↦ 0) (fun _ ↦ 0) where
  inv h := by simp [initial] at h
  released h := le_rfl
  cleared h := le_rfl
  locks h := by simp [initial]
  bound := Nat.zero_le _
  log h := by simp [initial] at h
  pairs := List.Pairwise.nil

theorem lt_length {s : ℕ} {q : Q} (h : σ.processes[s]? = some q) : s < σ.processes.length :=
  (List.getElem?_eq_some_iff.1 h).1

theorem Ordered.claim (hd : Disciplined step start Inv) {r c : ℕ → ℕ} (h : Ordered Inv σ r c) :
    Ordered Inv { σ with processes := σ.processes ++ [start] }
      (fun s ↦ if s < σ.processes.length then r s else 0)
      (fun s ↦ if s < σ.processes.length then c s else 0) where
  inv {s q} hq := by
    by_cases hs : s < σ.processes.length
    · rw [if_pos hs, if_pos hs]
      exact h.inv (by rwa [List.getElem?_append_left hs] at hq)
    · rw [if_neg hs, if_neg hs]
      rw [List.getElem?_append_right (Nat.not_lt.1 hs), List.getElem?_singleton] at hq
      split_ifs at hq
      cases hq
      exact hd.start
  released {s} hs := by
    split_ifs with hlt
    · exact h.released hlt
    · exact le_rfl
  cleared {s} hs := by
    rw [List.length_append, List.length_singleton] at hs
    rw [if_pos (show s < σ.processes.length by omega)]
    split_ifs with hlt
    · exact h.cleared hlt
    · exact Nat.zero_le _
  locks {l s} hs := by
    split_ifs with hlt
    · exact h.locks hlt
    · have hbound := h.bound (l := l)
      have hlt' : ¬ s < σ.locks l := by omega
      exact iff_of_false hlt' (Nat.not_lt_zero l)
  bound {l} := by
    rw [List.length_append]
    exact h.bound.trans (Nat.le_add_right _ _)
  log {x} hx := by
    obtain ⟨hlt, hc⟩ := h.log hx
    rw [List.length_append, if_pos hlt]
    exact ⟨by omega, hc⟩
  pairs := h.pairs

/-- One process has gone on. -/
theorem Ordered.next {r c r' c' locks : ℕ → ℕ} {log : List (ℕ × ℕ × E)} (h : Ordered Inv σ r c)
    {s m n : ℕ} {q : Q} (hq : Inv q m n) (hr : r' = update r s m) (hc : c' = update c s n)
    (hnumbers : Numbers σ.processes.length locks log r' c') :
    Ordered Inv ⟨locks, σ.processes.set s q, log⟩ r' c' where
  toNumbers := by
    dsimp only
    rwa [List.length_set]
  inv {t q'} ht := by
    rw [List.getElem?_set] at ht
    rw [hr, hc]
    split_ifs at ht with hst hlt
    · cases ht
      rw [← hst, update_self, update_self]
      exact hq
    · rw [update_of_ne (Ne.symm hst), update_of_ne (Ne.symm hst)]
      exact h.inv ht

theorem Ordered.acquire (hd : Disciplined step start Inv) {r c : ℕ → ℕ} (h : Ordered Inv σ r c)
    {s l : ℕ} {q q' : Q} (hq : σ.processes[s]? = some q) (hstep : step q (.acquire l) q')
    (hl : σ.locks l = s) :
    Ordered Inv { σ with processes := σ.processes.set s q' } r
      (update c s (max (c s) (l + 1))) := by
  refine h.next (hd.acquire (h.inv hq) hstep).2 (update_eq_self s r).symm rfl
    { h.toNumbers with released := fun {t} ht ↦ ?_, cleared := fun {t} ht ↦ ?_
                       log := fun {x} hx ↦ ?_ }
  · have hr := h.released ht
    rw [update_apply]
    split_ifs with hts
    · rw [hts] at hr ⊢
      exact hr.trans (Nat.le_max_left _ _)
    · exact hr
  · have hc := h.cleared ht
    rw [update_apply]
    split_ifs with hts
    · have hturn : l < r t := (h.locks (by omega)).1 (by omega)
      rw [← hts]
      exact max_le hc hturn
    · exact hc
  · obtain ⟨hlt, hc⟩ := h.log hx
    refine ⟨hlt, ?_⟩
    rw [update_apply]
    split_ifs with hxs
    · rw [hxs] at hc
      exact hc.trans_le (Nat.le_max_left _ _)
    · exact hc

theorem Ordered.release (hd : Disciplined step start Inv) {r c : ℕ → ℕ} (h : Ordered Inv σ r c)
    {s l : ℕ} {q q' : Q} (hq : σ.processes[s]? = some q) (hstep : step q (.release l) q') :
    Ordered Inv { σ with
      locks := fun l' ↦ if l' = l then s + 1 else σ.locks l'
      processes := σ.processes.set s q' } (update r s (r s + 1)) c := by
  obtain ⟨rfl, hc, hinv⟩ := hd.release (h.inv hq) hstep
  have hs := lt_length hq
  refine h.next hinv rfl (update_eq_self s c).symm
    { h.toNumbers with released := fun {t} ht ↦ ?_, cleared := fun {t} ht ↦ ?_
                       locks := fun {l t} ht ↦ ?_, bound := fun {l} ↦ ?_ }
  · rw [update_apply]
    split_ifs with hts
    · rw [hts]
      exact hc
    · exact h.released ht
  · have hc := h.cleared ht
    rw [update_apply]
    split_ifs with hts
    · rw [hts] at hc
      rw [hts]
      exact hc.trans (Nat.le_succ _)
    · exact hc
  · have hturn := h.turn hs le_rfl hc
    have hold := h.locks (l := l) ht
    rw [update_apply]
    by_cases hl : l = r s
    · rw [if_pos hl, hl]
      rw [hl, hturn] at hold
      split_ifs with hts
      · omega
      · rcases Nat.lt_or_ge t s with hlt | hge
        · exact iff_of_true (by omega) (hold.1 hlt)
        · exact iff_of_false (by omega) fun h ↦ absurd (hold.2 h) (by omega)
    · rw [if_neg hl, hold]
      split_ifs with hts
      · rw [hts]
        omega
      · exact Iff.rfl
  · split_ifs
    · exact hs
    · exact h.bound

theorem Ordered.work (hd : Disciplined step start Inv) {r c : ℕ → ℕ} (h : Ordered Inv σ r c)
    {s l : ℕ} {e : E} {q q' : Q} (hq : σ.processes[s]? = some q)
    (hstep : step q (.work l e) q') :
    Ordered Inv { σ with processes := σ.processes.set s q', log := σ.log ++ [(s, l, e)] } r c := by
  obtain ⟨hr, hc, hinv⟩ := hd.work (h.inv hq) hstep
  refine h.next hinv (update_eq_self s r).symm (update_eq_self s c).symm
    { h.toNumbers with log := fun {x} hx ↦ ?_, pairs := ?_ }
  · rcases List.mem_append.1 hx with hold | hnew
    · exact h.log hold
    · rw [List.mem_singleton.1 hnew]
      exact ⟨lt_length hq, hc⟩
  · refine List.pairwise_append.2 ⟨h.pairs, List.pairwise_singleton _ _, ?_⟩
    intro x hx y hy hlt
    rw [List.mem_singleton.1 hy] at hlt ⊢
    obtain ⟨hx_lt, hxc⟩ := h.log hx
    have hant := h.antitone hlt hx_lt
    exact lt_of_lt_of_le hxc (hant.trans hr)

/-- What every interleaving keeps. -/
theorem Reachable.ordered (hd : Disciplined step start Inv) (h : Reachable step start σ) :
    ∃ r c, Ordered Inv σ r c := by
  induction h with
  | initial => exact ⟨_, _, ordered_initial⟩
  | claim _ ih =>
    obtain ⟨r, c, h⟩ := ih
    exact ⟨_, _, h.claim hd⟩
  | move _ hmove ih =>
    obtain ⟨r, c, h⟩ := ih
    cases hmove with
    | acquire hq hstep hl => exact ⟨_, _, h.acquire hd hq hstep hl⟩
    | release hq hstep => exact ⟨_, _, h.release hd hq hstep⟩
    | work hq hstep => exact ⟨_, _, h.work hd hq hstep⟩

/-- Where a later process has had an effect before one that is before it, it was at an earlier
lock. -/
theorem Reachable.pairs (hd : Disciplined step start Inv) (h : Reachable step start σ) :
    σ.log.Pairwise fun x y ↦ y.1 < x.1 → x.2.1 < y.2.1 := by
  obtain ⟨r, c, ho⟩ := h.ordered hd
  exact ho.pairs

/-- A lock never has a later number than that of a process that waits for it, and it is the turn
of each process that works at a lock or releases it. -/
theorem Reachable.turns (hd : Disciplined step start Inv) (h : Reachable step start σ) {s : ℕ}
    {q q' : Q} (hq : σ.processes[s]? = some q) {l : ℕ} :
    (step q (.acquire l) q' → σ.locks l ≤ s) ∧ (step q (.release l) q' → σ.locks l = s) ∧
      (∀ e, step q (.work l e) q' → σ.locks l = s) := by
  obtain ⟨r, c, ho⟩ := h.ordered hd
  have hs := lt_length hq
  refine ⟨fun hstep ↦ ?_, fun hstep ↦ ?_, fun e hstep ↦ ?_⟩
  · have hr := (hd.acquire (ho.inv hq) hstep).1
    by_contra hlt
    have hrel := (ho.locks hs).1 (Nat.not_le.1 hlt)
    omega
  · obtain ⟨hl, hc, -⟩ := hd.release (ho.inv hq) hstep
    exact ho.turn hs hl.ge hc
  · obtain ⟨hr, hc, -⟩ := hd.work (ho.inv hq) hstep
    exact ho.turn hs hr hc

end Order

section Progress

variable {step : Q → Action E → Q → Prop} {start : Q} {Inv : Q → ℕ → ℕ → Prop} {σ σ' : State Q E}
  {total : ℕ} {finished : Q → Prop}

/-- A process ends after finitely many steps, when it has released all the locks. -/
structure Live (step : Q → Action E → Q → Prop) (Inv : Q → ℕ → ℕ → Prop) (total : ℕ)
    (finished : Q → Prop) : Prop where
  acquire {q q' : Q} {r c l : ℕ} : Inv q r c → step q (.acquire l) q' → l < total
  released {q : Q} {r c : ℕ} : Inv q r c → finished q → r = total
  next {q : Q} {r c : ℕ} : Inv q r c → ¬ finished q → ∃ a q', step q a q'
  wellFounded : WellFounded fun q' q ↦ ∃ a, step q a q'

theorem Ordered.all_released (hl : Live step Inv total finished) {r c : ℕ → ℕ}
    (h : Ordered Inv σ r c) (hall : ∀ q ∈ σ.processes, finished q) {l : ℕ} (hlt : l < total) :
    σ.locks l = σ.processes.length := by
  refine le_antisymm h.bound ?_
  rcases Nat.eq_zero_or_pos σ.processes.length with hzero | hpos
  · omega
  · have hs : σ.processes.length - 1 < σ.processes.length := by omega
    have hq := List.getElem?_eq_getElem hs
    have hr := hl.released (h.inv hq) (hall _ (List.getElem_mem hs))
    have hturn := (h.locks (l := l) hs).2 (by omega)
    omega

/-- The first process that has not ended has a step. -/
theorem Reachable.progress (hd : Disciplined step start Inv) (hl : Live step Inv total finished)
    (h : Reachable step start σ) (hall : ¬ ∀ q ∈ σ.processes, finished q) :
    ∃ σ', Move step σ σ' := by
  classical
  obtain ⟨r, c, ho⟩ := h.ordered hd
  have hex : ∃ s : ℕ, ∃ q, σ.processes[s]? = some q ∧ ¬ finished q := by
    push Not at hall
    obtain ⟨q, hq, hnot⟩ := hall
    obtain ⟨s, hs⟩ := List.mem_iff_getElem?.1 hq
    exact ⟨s, q, hs, hnot⟩
  obtain ⟨q, hq, hnot⟩ := Nat.find_spec hex
  have hfirst (t : ℕ) (ht : t < Nat.find hex) (p : Q) (hp : σ.processes[t]? = some p) :
      finished p := by
    by_contra hp_not
    exact Nat.find_min hex ht ⟨p, hp, hp_not⟩
  obtain ⟨s, hs⟩ : ∃ s, Nat.find hex = s := ⟨_, rfl⟩
  rw [hs] at hq hfirst
  obtain ⟨a, q', hstep⟩ := hl.next (ho.inv hq) hnot
  cases a with
  | acquire l =>
    refine ⟨_, .acquire hq hstep ?_⟩
    have hle := (h.turns hd hq).1 hstep
    have hlt := hl.acquire (ho.inv hq) hstep
    rcases Nat.eq_zero_or_pos s with rfl | hpos
    · omega
    · have hprev : s - 1 < σ.processes.length := by
        have hlen := lt_length hq
        omega
      have hr := hl.released (ho.inv (List.getElem?_eq_getElem hprev))
        (hfirst _ (by omega) _ (List.getElem?_eq_getElem hprev))
      have hturn := (ho.locks (l := l) hprev).2 (by omega)
      omega
  | release l => exact ⟨_, .release hq hstep⟩
  | work l e => exact ⟨_, .work hq hstep⟩

theorem move_processes (h : Move step σ σ') :
    ∃ s q q', σ.processes[s]? = some q ∧ (∃ a, step q a q') ∧
      σ'.processes = σ.processes.set s q' := by
  cases h with
  | acquire hq hstep => exact ⟨_, _, _, hq, ⟨_, hstep⟩, rfl⟩
  | release hq hstep => exact ⟨_, _, _, hq, ⟨_, hstep⟩, rfl⟩
  | work hq hstep => exact ⟨_, _, _, hq, ⟨_, hstep⟩, rfl⟩

theorem length_of_move (h : Move step σ σ') : σ'.processes.length = σ.processes.length := by
  obtain ⟨s, q, q', -, -, hset⟩ := move_processes h
  rw [hset, List.length_set]

/-- One process of a list is replaced. -/
theorem coe_set_add {α : Type} {xs : List α} {s : ℕ} {x y : α} (h : xs[s]? = some x) :
    ((xs.set s y : List α) : Multiset α) + {x} = (xs : Multiset α) + {y} := by
  induction xs generalizing s with
  | nil => simp at h
  | cons z xs ih =>
    cases s with
    | zero =>
      cases h
      rw [List.set_cons_zero, ← Multiset.cons_coe, ← Multiset.cons_coe, Multiset.cons_add,
        Multiset.cons_add, add_comm _ {_}, add_comm _ {_}, Multiset.singleton_add,
        Multiset.singleton_add, Multiset.cons_swap]
    | succ s =>
      rw [List.set_cons_succ, ← Multiset.cons_coe, ← Multiset.cons_coe, Multiset.cons_add,
        Multiset.cons_add, ih h]

theorem Reachable.moves (h : Reachable step start σ)
    (hmoves : Relation.ReflTransGen (Move step) σ σ') :
    Reachable step start σ' ∧ σ'.processes.length = σ.processes.length := by
  induction hmoves with
  | refl => exact ⟨h, rfl⟩
  | tail _ hmove ih => exact ⟨.move ih.1 hmove, (length_of_move hmove).trans ih.2⟩

theorem wellFounded_move (hl : Live step Inv total finished) :
    WellFounded fun σ' σ : State Q E ↦ Move step σ σ' := by
  have hwf := (hl.wellFounded.cutExpand).onFun (f := fun σ : State Q E ↦ (σ.processes : Multiset Q))
  refine Subrelation.wf (fun {σ' σ} h ↦ ?_) hwf
  obtain ⟨s, q, q', hq, hstep, hset⟩ := move_processes h
  refine ⟨{q'}, q, fun p hp ↦ ?_, ?_⟩
  · rw [Multiset.mem_singleton.1 hp]
    exact hstep
  · dsimp only
    rw [hset]
    exact coe_set_add hq

/-- However the processes that have been claimed go on, they end, and all locks have been
released by all of them. -/
theorem Reachable.completes (hd : Disciplined step start Inv) (hl : Live step Inv total finished)
    (h : Reachable step start σ) (hstuck : ∀ σ', ¬ Move step σ σ') :
    (∀ q ∈ σ.processes, finished q) ∧ ∀ l < total, σ.locks l = σ.processes.length := by
  have hall : ∀ q ∈ σ.processes, finished q := by
    by_contra hnot
    obtain ⟨σ', hmove⟩ := h.progress hd hl hnot
    exact hstuck σ' hmove
  obtain ⟨r, c, ho⟩ := h.ordered hd
  exact ⟨hall, fun l hlt ↦ ho.all_released hl hall hlt⟩

end Progress

section Scripts

/-- Actions that keep to the order of the locks, which are less than `total`, and end with numbers
for which `post` holds. -/
def Allowed (total : ℕ) (post : ℕ → ℕ → Prop) : List (Action E) → ℕ → ℕ → Prop
  | [], r, c => post r c
  | .acquire l :: actions, r, c =>
    (r ≤ l ∧ l < total) ∧ Allowed total post actions r (max c (l + 1))
  | .release l :: actions, r, c => (l = r ∧ l < c) ∧ Allowed total post actions (r + 1) c
  | .work l _ :: actions, r, c => (r ≤ l ∧ l < c) ∧ Allowed total post actions r c

variable {total r c : ℕ} {post : ℕ → ℕ → Prop} {as bs : List (Action E)}

theorem allowed_append :
    Allowed total post (as ++ bs) r c ↔ Allowed total (Allowed total post bs) as r c := by
  induction as generalizing r c with
  | nil => exact Iff.rfl
  | cons a as ih => cases a <;> exact and_congr_right' ih

/-- Actions that release nothing, none of them outside the locks. -/
theorem allowed_of_mem (h : ∀ a ∈ as, (∃ l, a = .acquire l ∧ r ≤ l ∧ l < total) ∨
    ∃ l e, a = .work l e ∧ r ≤ l ∧ l < c) (hpost : ∀ c' ≥ c, post r c') :
    Allowed total post as r c := by
  induction as generalizing c with
  | nil => exact hpost c le_rfl
  | cons a as ih =>
    have hrest (c' : ℕ) (hc : c ≤ c') : Allowed total post as r c' := by
      refine ih (fun b hb ↦ (h b (List.mem_cons_of_mem a hb)).imp_right ?_)
        fun c'' hc' ↦ hpost c'' (hc.trans hc')
      rintro ⟨l, e, rfl, hr, hl⟩
      exact ⟨l, e, rfl, hr, hl.trans_le hc⟩
    obtain ⟨l, rfl, hl⟩ | ⟨l, e, rfl, hl⟩ := h a List.mem_cons_self
    · exact ⟨hl, hrest _ (Nat.le_max_left c (l + 1))⟩
    · exact ⟨hl, hrest c le_rfl⟩

end Scripts

section Serial

/-- The effects of one process after the other, those of each in their order. -/
def serial (events : List (ℕ × ℕ × E)) : List (ℕ × ℕ × E) :=
  events.insertionSort fun x y ↦ x.1 ≤ y.1

theorem pairwise_serial (events : List (ℕ × ℕ × E)) :
    (serial events).Pairwise fun x y ↦ x.1 ≤ y.1 :=
  have : IsTrans (ℕ × ℕ × E) fun x y ↦ x.1 ≤ y.1 := ⟨fun _ _ _ ↦ le_trans⟩
  have : Std.Total fun x y : ℕ × ℕ × E ↦ x.1 ≤ y.1 := ⟨fun x y ↦ le_total x.1 y.1⟩
  List.pairwise_insertionSort _ _

/-- An event is moved over those of lower numbers only. -/
theorem filter_orderedInsert {x : ℕ × ℕ × E} {events : List (ℕ × ℕ × E)}
    {p : ℕ × ℕ × E → Bool} (h : p x = true → ∀ y ∈ events, p y = true → x.1 ≤ y.1) :
    (events.orderedInsert (fun x y ↦ x.1 ≤ y.1) x).filter p = (x :: events).filter p := by
  induction events with
  | nil => rfl
  | cons y events ih =>
    have hrest := ih fun hx z hz ↦ h hx z (List.mem_cons_of_mem y hz)
    rw [List.orderedInsert_cons]
    split_ifs with hle
    · rfl
    · rw [List.filter_cons, hrest, List.filter_cons, List.filter_cons, List.filter_cons]
      by_cases hx : p x = true
      · have hy : ¬ p y = true := fun hy ↦ hle (h hx y List.mem_cons_self hy)
        simp [hx, hy]
      · simp [hx]

/-- Events that are in the order of the processes stay as they are. -/
theorem filter_serial {events : List (ℕ × ℕ × E)} {p : ℕ × ℕ × E → Bool}
    (h : events.Pairwise fun x y ↦ p x = true → p y = true → x.1 ≤ y.1) :
    (serial events).filter p = events.filter p := by
  induction events with
  | nil => rfl
  | cons x events ih =>
    obtain ⟨hx, hrest⟩ := List.pairwise_cons.1 h
    have hevents := ih hrest
    rw [serial] at hevents
    rw [serial, List.insertionSort_cons, filter_orderedInsert fun hpx y hy hpy ↦
      hx y ((List.mem_insertionSort _).1 hy) hpx hpy, List.filter_cons, List.filter_cons, hevents]

theorem filter_process_serial (events : List (ℕ × ℕ × E)) (s : ℕ) :
    (serial events).filter (fun y ↦ y.1 = s) = events.filter fun y ↦ y.1 = s := by
  refine filter_serial (List.pairwise_of_forall fun x y hx hy ↦ ?_)
  rw [decide_eq_true_eq] at hx hy
  omega

/-- What is done at one lock is done in the order of the processes. -/
theorem filter_lock_serial {events : List (ℕ × ℕ × E)}
    (h : events.Pairwise fun x y ↦ y.1 < x.1 → x.2.1 < y.2.1) (l : ℕ) :
    (serial events).filter (fun y ↦ y.2.1 = l) = events.filter fun y ↦ y.2.1 = l := by
  refine filter_serial (h.imp fun {x y} hxy hx hy ↦ ?_)
  rw [decide_eq_true_eq] at hx hy
  by_contra hlt
  have hlocks := hxy (Nat.not_le.1 hlt)
  omega

end Serial

end Parabix.Library.Turnstiles
