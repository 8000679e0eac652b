import Parabix.Library.Turnstiles

namespace Parabix.Pipeline

open Library.Turnstiles

inductive SyncLock
  | full
  | preInvocation
  | postInvocation
  deriving DecidableEq

/-- The kernels of one phase of a pipeline and the partitions they make up. -/
structure PipelinePhase where
  firstKernel : ℕ
  oneAfterLastKernel : ℕ
  isDataParallel : ℕ → Bool
  kernelPartitionId : ℕ → ℕ
  firstKernelInPartition : ℕ → ℕ
  partitionJumpTargetId : ℕ → ℕ
  oneAfterLastPartition : ℕ
  nonempty : firstKernel < oneAfterLastKernel
  lastPartition : firstKernelInPartition oneAfterLastPartition = oneAfterLastKernel
  partitions {p q : ℕ} : p < q → q ≤ oneAfterLastPartition →
    firstKernelInPartition p < firstKernelInPartition q
  partition {k : ℕ} : firstKernel ≤ k → k < oneAfterLastKernel →
    kernelPartitionId k < oneAfterLastPartition ∧
      k < firstKernelInPartition (kernelPartitionId k + 1)
  after : kernelPartitionId oneAfterLastKernel = oneAfterLastPartition
  jump {p : ℕ} : p < oneAfterLastPartition →
    p < partitionJumpTargetId p ∧ partitionJumpTargetId p ≤ oneAfterLastPartition

namespace PipelinePhase

variable (P : PipelinePhase) {E : Type}

/-- A data-parallel kernel has one lock for its item counts and one for what it writes. -/
def locksOf (k : ℕ) : ℕ := if P.isDataParallel k then 2 else 1

/-- The number of the locks of the kernels of the phase before one. -/
def locksBefore : ℕ → ℕ
  | 0 => 0
  | k + 1 => locksBefore k + if P.firstKernel ≤ k then P.locksOf k else 0

def getSynchronizationLockPtrForKernel (k : ℕ) (type : SyncLock) : ℕ :=
  match type with
  | .full => P.locksBefore k
  | .preInvocation => P.locksBefore k
  | .postInvocation => P.locksBefore k + 1

def entryLock (k : ℕ) : ℕ := P.getSynchronizationLockPtrForKernel k
  (if P.isDataParallel k then .preInvocation else .full)

def exitLock (k : ℕ) : ℕ := P.getSynchronizationLockPtrForKernel k
  (if P.isDataParallel k then .postInvocation else .full)

def releaseAllSynchronizationLocksFor (k : ℕ) : List (Action E) :=
  if P.isDataParallel k then
    [.release (P.getSynchronizationLockPtrForKernel k .preInvocation),
      .release (P.getSynchronizationLockPtrForKernel k .postInvocation)]
  else
    [.release (P.getSynchronizationLockPtrForKernel k .full)]

def releaseAllBetween (k target : ℕ) : List (Action E) :=
  (List.range' k (target - k)).flatMap P.releaseAllSynchronizationLocksFor

def acquirePartitionSynchronizationLock (mKernelId firstKernelInTargetPartition : ℕ) :
    List (Action E) :=
  if firstKernelInTargetPartition = P.oneAfterLastKernel then
    let lastKernelInCurrentPhase := P.oneAfterLastKernel - 1
    if mKernelId ≠ lastKernelInCurrentPhase ∨ P.isDataParallel lastKernelInCurrentPhase then
      [.acquire (P.exitLock lastKernelInCurrentPhase)]
    else
      []
  else
    [.acquire (P.entryLock firstKernelInTargetPartition)]

/-- The kernels up to the target are those of the phase. -/
def phiOutPartitionStateAndReleaseSynchronizationLocks (mKernelId targetKernelId : ℕ) :
    List (Action E) :=
  P.releaseAllSynchronizationLocksFor mKernelId ++
    P.releaseAllBetween (mKernelId + 1) targetKernelId

/-- The locks are released where the phase is left, else the target has been entered. -/
def writeJumpToNextPartition (mKernelId : ℕ) : List (Action E) :=
  let jumpPartitionId := P.partitionJumpTargetId (P.kernelPartitionId mKernelId)
  let targetKernelId := P.firstKernelInPartition jumpPartitionId
  if targetKernelId ≠ P.oneAfterLastKernel then
    P.acquirePartitionSynchronizationLock mKernelId targetKernelId ++
      P.phiOutPartitionStateAndReleaseSynchronizationLocks mKernelId targetKernelId
  else
    (if P.isDataParallel mKernelId then
      [.release (P.getSynchronizationLockPtrForKernel mKernelId .preInvocation)] else []) ++
    (if mKernelId + 1 < targetKernelId then
      P.acquirePartitionSynchronizationLock mKernelId targetKernelId else []) ++
    [.release (P.exitLock mKernelId)] ++ P.releaseAllBetween (mKernelId + 1) targetKernelId

def checkForPartitionExit (mKernelId : ℕ) : List (Action E) :=
  .release (P.exitLock mKernelId) ::
    if mKernelId + 1 ≠ P.oneAfterLastKernel then [.acquire (P.entryLock (mKernelId + 1))] else []

/-- The kernel that is entered next, if the phase has another one. -/
def nextKernel (target : ℕ) : Option ℕ :=
  if target ≠ P.oneAfterLastKernel then some target else none

/-- What a kernel does between the locks: it has effects, and where it needs a larger buffer it
waits for the kernel that was the last to write to it. -/
def Inner (k : ℕ) (actions : List (Action E)) : Prop :=
  ∀ a ∈ actions, (∃ e, a = .work (P.entryLock k) e) ∨
    (P.isDataParallel k = true ∧ a = .acquire (P.exitLock k)) ∨
    ∃ lockId, k < lockId ∧ lockId < P.oneAfterLastKernel ∧ a = .acquire (P.exitLock lockId)

/-- Effects under one of the locks of a kernel or under both of them. -/
def Effects (k : ℕ) (actions : List (Action E)) : Prop :=
  ∀ a ∈ actions, (∃ e, a = .work (P.entryLock k) e) ∨ ∃ e, a = .work (P.exitLock k) e

/-- Effects where the kernel has let the next segment past its item counts. -/
def Writes (k : ℕ) (actions : List (Action E)) : Prop :=
  ∀ a ∈ actions, ∃ e, a = .work (P.exitLock k) e

def IsPartitionRoot (k : ℕ) : Prop := P.firstKernelInPartition (P.kernelPartitionId k) = k

/-- The paths through the code of a kernel whose entry lock has been acquired, with the kernel
that they lead to. A kernel that has ended before releases and acquires as one that is executed. -/
inductive Behaviour (k : ℕ) : List (Action E) → Option ℕ → Prop
  | executed {inner : List (Action E)} : P.isDataParallel k = false → P.Inner k inner →
      Behaviour k (inner ++ P.checkForPartitionExit k) (P.nextKernel (k + 1))
  | executedDataParallel {inner written : List (Action E)} : P.isDataParallel k = true →
      P.Inner k inner → P.Writes k written →
      Behaviour k (inner ++ ([.release (P.entryLock k), .acquire (P.exitLock k)] ++
        (written ++ P.checkForPartitionExit k))) (P.nextKernel (k + 1))
  | terminatedDataParallel {inner final written : List (Action E)} : P.isDataParallel k = true →
      P.Inner k inner → P.Effects k final → P.Writes k written →
      Behaviour k (inner ++ (.acquire (P.exitLock k) :: (final ++ (.release (P.entryLock k) ::
        (written ++ P.checkForPartitionExit k))))) (P.nextKernel (k + 1))
  | initiallyTerminated {target : ℕ} : P.IsPartitionRoot k →
      target = P.firstKernelInPartition (P.kernelPartitionId k + 1) →
      P.kernelPartitionId k + 1 ≠ P.partitionJumpTargetId (P.kernelPartitionId k) →
      Behaviour k (P.acquirePartitionSynchronizationLock k target ++
        P.phiOutPartitionStateAndReleaseSynchronizationLocks k target) (P.nextKernel target)
  | jump {inner : List (Action E)} : P.IsPartitionRoot k → P.Inner k inner →
      P.partitionJumpTargetId (P.kernelPartitionId k) ≠ P.kernelPartitionId k + 1 ∨
        P.kernelPartitionId (k + 1) = P.kernelPartitionId k →
      Behaviour k (inner ++ P.writeJumpToNextPartition k)
        (P.nextKernel (P.firstKernelInPartition (P.partitionJumpTargetId (P.kernelPartitionId k))))

/-- What is left to do of a kernel's path and the kernel after it. -/
structure Segment (E : Type) where
  pending : List (Action E)
  next : Option ℕ

/-- A segment that has been claimed waits for the first kernel of the phase. -/
def start : Segment E := ⟨[.acquire (P.entryLock P.firstKernel)], some P.firstKernel⟩

inductive Step : Segment E → Action E → Segment E → Prop
  | pending {a : Action E} {actions : List (Action E)} {next : Option ℕ} :
      Step ⟨a :: actions, next⟩ a ⟨actions, next⟩
  | kernel {a : Action E} {actions : List (Action E)} {k : ℕ} {next : Option ℕ} :
      P.firstKernel ≤ k → k < P.oneAfterLastKernel → P.Behaviour k (a :: actions) next →
        Step ⟨[], some k⟩ a ⟨actions, next⟩

section Locks

variable {P} {k target : ℕ}

theorem locksBefore_succ (hk : P.firstKernel ≤ k) :
    P.locksBefore (k + 1) = P.locksBefore k + P.locksOf k := by
  rw [locksBefore, if_pos hk]

theorem locksBefore_firstKernel : P.locksBefore P.firstKernel = 0 := by
  have h (k : ℕ) (hk : k ≤ P.firstKernel) : P.locksBefore k = 0 := by
    induction k with
    | zero => rfl
    | succ k ih => rw [locksBefore, ih (by omega), if_neg (by omega)]
  exact h _ le_rfl

theorem locksBefore_mono {k k' : ℕ} (h : k ≤ k') : P.locksBefore k ≤ P.locksBefore k' := by
  induction h with
  | refl => exact le_rfl
  | step _ ih => exact ih.trans (Nat.le_add_right _ _)

theorem entryLock_eq (P : PipelinePhase) (k : ℕ) : P.entryLock k = P.locksBefore k := by
  rw [entryLock]
  split_ifs <;> rfl

/-- The last one of the locks of a kernel. -/
theorem exitLock_succ (hk : P.firstKernel ≤ k) : P.exitLock k + 1 = P.locksBefore (k + 1) := by
  rw [exitLock, locksBefore_succ hk, locksOf]
  split_ifs <;> rfl

theorem entryLock_lt (hk : P.firstKernel ≤ k) : P.entryLock k < P.locksBefore (k + 1) := by
  rw [entryLock_eq, locksBefore_succ hk, locksOf]
  split_ifs <;> omega

theorem exitLock_of_full (h : P.isDataParallel k = false) : P.exitLock k = P.locksBefore k := by
  rw [exitLock, if_neg (by rw [h]; exact Bool.false_ne_true)]
  rfl

theorem exitLock_of_parallel (h : P.isDataParallel k = true) :
    P.exitLock k = P.locksBefore k + 1 := by
  rw [exitLock, if_pos h]
  rfl

theorem locksBefore_le_exitLock (P : PipelinePhase) (k : ℕ) : P.locksBefore k ≤ P.exitLock k := by
  cases h : P.isDataParallel k with
  | false => exact (exitLock_of_full h).ge
  | true => exact (Nat.le_succ _).trans (exitLock_of_parallel h).ge

theorem exitLock_mono (hfirst : P.firstKernel ≤ k) (h : k ≤ target) :
    P.exitLock k ≤ P.exitLock target := by
  have hk := exitLock_succ (P := P) hfirst
  have htarget := exitLock_succ (P := P) (hfirst.trans h)
  have hmono := locksBefore_mono (P := P) (show k + 1 ≤ target + 1 by omega)
  omega

end Locks

section Paths

variable {P} {k target r c : ℕ} {actions rest : List (Action E)} {next : Option ℕ}

/-- The locks of all kernels of the phase. -/
def total (P : PipelinePhase) : ℕ := P.locksBefore P.oneAfterLastKernel

/-- What holds where a segment comes to a kernel or to the end of the phase. -/
def Arrived (P : PipelinePhase) (next : Option ℕ) (r c : ℕ) : Prop :=
  match next with
  | none => r = P.total
  | some k => P.firstKernel ≤ k ∧ k < P.oneAfterLastKernel ∧ r = P.locksBefore k ∧ P.entryLock k < c

/-- The actions keep to the order of the locks and lead to what is next. -/
def Leads (P : PipelinePhase) (next : Option ℕ) : List (Action E) → ℕ → ℕ → Prop :=
  Allowed P.total (P.Arrived next)

theorem arrived_nextKernel (hfirst : P.firstKernel ≤ target) (hlast : target ≤ P.oneAfterLastKernel)
    (hc : target ≠ P.oneAfterLastKernel → P.entryLock target < c) :
    P.Arrived (P.nextKernel target) (P.locksBefore target) c := by
  rw [nextKernel]
  split_ifs with htarget
  · exact ⟨hfirst, by omega, rfl, hc htarget⟩
  · rw [not_not.1 htarget]
    rfl

theorem locksBefore_succ_le (hk : k < P.oneAfterLastKernel) : P.locksBefore (k + 1) ≤ P.total :=
  locksBefore_mono hk

theorem exitLock_lt (hfirst : P.firstKernel ≤ k) (hk : k < P.oneAfterLastKernel) :
    P.exitLock k < P.total :=
  (exitLock_succ hfirst).trans_le (locksBefore_succ_le hk)

theorem leads_releaseAll (hk : P.firstKernel ≤ k) (hc : P.locksBefore (k + 1) ≤ c)
    (h : P.Leads next rest (P.locksBefore (k + 1)) c) :
    P.Leads next (P.releaseAllSynchronizationLocksFor k ++ rest) (P.locksBefore k) c := by
  rw [locksBefore_succ hk, locksOf] at hc h
  rw [releaseAllSynchronizationLocksFor]
  split_ifs at hc h ⊢
  · exact ⟨⟨rfl, (Nat.le_succ _).trans hc⟩, ⟨rfl, hc⟩, h⟩
  · exact ⟨⟨rfl, hc⟩, h⟩

theorem leads_releaseAllBetween (hk : P.firstKernel ≤ k) (hle : k ≤ target)
    (hc : P.locksBefore target ≤ c) (h : P.Arrived next (P.locksBefore target) c) :
    P.Leads next (P.releaseAllBetween k target : List (Action E)) (P.locksBefore k) c := by
  obtain ⟨m, rfl⟩ := Nat.exists_eq_add_of_le hle
  rw [releaseAllBetween, Nat.add_sub_cancel_left]
  induction m generalizing k with
  | zero => exact h
  | succ m ih =>
    have hnext : k + (m + 1) = k + 1 + m := by omega
    have hmono := locksBefore_mono (P := P) (show k + 1 ≤ k + (m + 1) by omega)
    rw [List.range'_succ, List.flatMap_cons]
    exact leads_releaseAll hk (hmono.trans hc)
      (ih (by omega) (Nat.le_add_right _ _) (by rwa [← hnext]) (by rwa [← hnext]))

/-- Nothing is released before the entry lock. -/
theorem Inner.leads (h : P.Inner k actions) (hfirst : P.firstKernel ≤ k)
    (hlast : k < P.oneAfterLastKernel) (hc : P.entryLock k < c)
    (hrest : ∀ c' ≥ c, P.Leads next rest (P.locksBefore k) c') :
    P.Leads next (actions ++ rest) (P.locksBefore k) c := by
  have hexit (k' : ℕ) (hle : k ≤ k') (hk' : k' < P.oneAfterLastKernel) :
      P.locksBefore k ≤ P.exitLock k' ∧ P.exitLock k' < P.total :=
    ⟨(P.locksBefore_le_exitLock k).trans (exitLock_mono hfirst hle),
      exitLock_lt (hfirst.trans hle) hk'⟩
  refine allowed_append.2 (allowed_of_mem (fun a ha ↦ ?_) hrest)
  obtain ⟨e, rfl⟩ | ⟨-, rfl⟩ | ⟨lockId, hgt, hlt, rfl⟩ := h a ha
  · exact .inr ⟨_, _, rfl, (P.entryLock_eq k).ge, hc⟩
  · exact .inl ⟨_, rfl, hexit k le_rfl hlast⟩
  · exact .inl ⟨_, rfl, hexit lockId hgt.le hlt⟩

theorem leads_checkForPartitionExit (hfirst : P.firstKernel ≤ k) (hlast : k < P.oneAfterLastKernel)
    (hc : P.exitLock k < c) :
    P.Leads (P.nextKernel (k + 1)) (P.checkForPartitionExit k : List (Action E)) (P.exitLock k)
      c := by
  have harrived (c : ℕ) (h : k + 1 ≠ P.oneAfterLastKernel → P.entryLock (k + 1) < c) :
      P.Arrived (P.nextKernel (k + 1)) (P.exitLock k + 1) c := by
    rw [exitLock_succ hfirst]
    exact arrived_nextKernel (by omega) hlast h
  refine ⟨⟨rfl, hc⟩, ?_⟩
  split_ifs with hend
  · refine ⟨⟨?_, ?_⟩, harrived _ fun _ ↦ Nat.le_max_right _ _⟩
    · rw [exitLock_succ hfirst, entryLock_eq]
    · exact (entryLock_lt (by omega)).trans_le (locksBefore_succ_le (by omega))
  · exact harrived c fun h ↦ absurd h hend

theorem Writes.leads (h : P.Writes k actions) (hfirst : P.firstKernel ≤ k)
    (hlast : k < P.oneAfterLastKernel) (hc : P.exitLock k < c) :
    P.Leads (P.nextKernel (k + 1)) (actions ++ P.checkForPartitionExit k) (P.exitLock k) c := by
  refine allowed_append.2 (allowed_of_mem (fun a ha ↦ .inr ?_)
    fun c' hc' ↦ leads_checkForPartitionExit hfirst hlast (hc.trans_le hc'))
  obtain ⟨e, rfl⟩ := h a ha
  exact ⟨_, _, rfl, le_rfl, hc⟩

/-- A kernel that leaves for another partition waits for a lock after those of all the kernels
that are left out. -/
theorem leads_acquirePartition (hfirst : P.firstKernel ≤ k) (hk : k < target)
    (htarget : target ≤ P.oneAfterLastKernel) (hr : r ≤ P.exitLock k) (hc : P.entryLock k < c)
    (h : ∀ c', P.locksBefore target ≤ c' →
      P.Arrived (P.nextKernel target) (P.locksBefore target) c' → P.Leads next rest r c') :
    P.Leads next (P.acquirePartitionSynchronizationLock k target ++ rest) r c := by
  have harrived (c : ℕ) (hc : target ≠ P.oneAfterLastKernel → P.entryLock target < c) :
      P.Arrived (P.nextKernel target) (P.locksBefore target) c :=
    arrived_nextKernel (by omega) htarget hc
  rw [acquirePartitionSynchronizationLock]
  dsimp only
  split_ifs with hend hlast
  · have hmono : P.exitLock k ≤ P.exitLock (P.oneAfterLastKernel - 1) :=
      exitLock_mono hfirst (by omega)
    have hsucc := exitLock_succ (P := P) (k := P.oneAfterLastKernel - 1) (by omega)
    rw [show P.oneAfterLastKernel - 1 + 1 = P.oneAfterLastKernel by omega] at hsucc
    refine ⟨⟨hr.trans hmono, hsucc.le⟩, h _ ?_ (harrived _ fun h ↦ absurd hend h)⟩
    rw [hend, ← hsucc]
    exact Nat.le_max_right _ _
  · obtain ⟨hk_last, hfull⟩ := not_or.1 hlast
    rw [ne_eq, not_not] at hk_last
    refine h c ?_ (harrived c fun h ↦ absurd hend h)
    rw [entryLock_eq] at hc
    rw [show target = k + 1 by omega, locksBefore_succ hfirst, locksOf, hk_last,
      if_neg hfull, ← hk_last]
    exact hc
  · have hexit := exitLock_succ (P := P) hfirst
    have hmono := locksBefore_mono (P := P) (show k + 1 ≤ target from hk)
    have hentry := entryLock_eq P target
    have hlt : P.entryLock target < P.total :=
      (entryLock_lt (by omega)).trans_le (locksBefore_succ_le (by omega))
    have hmax := Nat.le_max_right c (P.entryLock target + 1)
    exact ⟨⟨by omega, hlt⟩, h _ (by omega) (harrived _ fun _ ↦ hmax)⟩

/-- A kernel that leaves for a partition of the phase, or whose partition has ended. -/
theorem leads_phiOut (hfirst : P.firstKernel ≤ k) (hk : k < target)
    (htarget : target ≤ P.oneAfterLastKernel) (hc : P.entryLock k < c) :
    P.Leads (P.nextKernel target) (P.acquirePartitionSynchronizationLock k target ++
        P.phiOutPartitionStateAndReleaseSynchronizationLocks k target : List (Action E))
      (P.locksBefore k) c :=
  leads_acquirePartition hfirst hk htarget (P.locksBefore_le_exitLock k) hc
    fun _ hall harrived ↦ leads_releaseAll hfirst ((locksBefore_mono hk).trans hall)
      (leads_releaseAllBetween (by omega) hk hall harrived)

theorem jumpTarget_le (hfirst : P.firstKernel ≤ k) (hlast : k < P.oneAfterLastKernel) :
    P.firstKernelInPartition (P.partitionJumpTargetId (P.kernelPartitionId k)) ≤
      P.oneAfterLastKernel := by
  obtain ⟨-, hle⟩ := P.jump (P.partition hfirst hlast).1
  rw [← P.lastPartition]
  rcases hle.lt_or_eq with hlt | heq
  · exact (P.partitions hlt le_rfl).le
  · rw [heq]

/-- The kernels that are left out include one after the kernel that jumps. -/
theorem lt_jumpTarget (hfirst : P.firstKernel ≤ k) (hlast : k < P.oneAfterLastKernel)
    (hjump : P.partitionJumpTargetId (P.kernelPartitionId k) ≠ P.kernelPartitionId k + 1 ∨
      P.kernelPartitionId (k + 1) = P.kernelPartitionId k) :
    k + 1 < P.firstKernelInPartition (P.partitionJumpTargetId (P.kernelPartitionId k)) := by
  obtain ⟨hpartition, hk⟩ := P.partition hfirst hlast
  obtain ⟨hlt, hle⟩ := P.jump hpartition
  rcases hjump with hne | hsame
  · have htarget := P.partitions (show P.kernelPartitionId k + 1 < _ by omega) hle
    omega
  · have hnext : k + 1 < P.oneAfterLastKernel := by
      refine lt_of_le_of_ne hlast fun h ↦ ?_
      rw [h, P.after] at hsame
      omega
    have hk' := (P.partition (show P.firstKernel ≤ k + 1 by omega) hnext).2
    rw [hsame] at hk'
    rcases (Nat.succ_le_of_lt hlt).lt_or_eq with hmore | hone
    · exact hk'.trans (P.partitions hmore hle)
    · rw [← hone]
      exact hk'

theorem leads_leavePhase (hfirst : P.firstKernel ≤ k) (hk : k < P.oneAfterLastKernel)
    (hc : P.entryLock k < c) :
    P.Leads (P.nextKernel P.oneAfterLastKernel)
      (P.acquirePartitionSynchronizationLock k P.oneAfterLastKernel ++
        (.release (P.exitLock k) :: P.releaseAllBetween (k + 1) P.oneAfterLastKernel) :
          List (Action E)) (P.exitLock k) c := by
  have hsucc := exitLock_succ (P := P) hfirst
  refine leads_acquirePartition hfirst hk le_rfl le_rfl hc fun c' hall harrived ↦ ?_
  refine ⟨⟨rfl, hsucc.trans_le ((locksBefore_mono hk).trans hall)⟩, ?_⟩
  rw [hsucc]
  exact leads_releaseAllBetween (by omega) hk hall harrived

/-- A kernel that jumps leaves out at least the kernel after it. -/
theorem leads_writeJump (hfirst : P.firstKernel ≤ k) (hlast : k < P.oneAfterLastKernel)
    (hjump : k + 1 < P.firstKernelInPartition (P.partitionJumpTargetId (P.kernelPartitionId k)))
    (hc : P.entryLock k < c) :
    P.Leads
      (P.nextKernel (P.firstKernelInPartition (P.partitionJumpTargetId (P.kernelPartitionId k))))
      (P.writeJumpToNextPartition k : List (Action E)) (P.locksBefore k) c := by
  have hle := jumpTarget_le (P := P) hfirst hlast
  have hleave := leads_leavePhase (E := E) hfirst hlast hc
  rw [writeJumpToNextPartition]
  split_ifs with hend hparallel
  · exact leads_phiOut hfirst (by omega) hle hc
  · rw [not_not.1 hend, List.append_assoc, List.append_assoc]
    rw [entryLock_eq] at hc
    rw [exitLock_of_parallel hparallel] at hleave ⊢
    exact ⟨⟨rfl, hc⟩, hleave⟩
  · rw [not_not.1 hend, List.nil_append, List.append_assoc]
    rw [exitLock_of_full (Bool.eq_false_of_not_eq_true hparallel)] at hleave ⊢
    exact hleave

theorem Effects.leads (h : P.Effects k actions) (hc : P.exitLock k < c)
    (hrest : ∀ c' ≥ c, P.Leads next rest (P.locksBefore k) c') :
    P.Leads next (actions ++ rest) (P.locksBefore k) c := by
  have hexit := P.locksBefore_le_exitLock k
  refine allowed_append.2 (allowed_of_mem (fun a ha ↦ .inr ?_) hrest)
  obtain ⟨e, rfl⟩ | ⟨e, rfl⟩ := h a ha
  · exact ⟨_, _, rfl, (entryLock_eq P k).ge, by rw [entryLock_eq]; omega⟩
  · exact ⟨_, _, rfl, hexit, hc⟩

/-- Each path through a kernel keeps to the order of the locks. -/
theorem Behaviour.leads (h : P.Behaviour k actions next) (hfirst : P.firstKernel ≤ k)
    (hlast : k < P.oneAfterLastKernel) (hc : P.entryLock k < c) :
    P.Leads next actions (P.locksBefore k) c := by
  have hentry := entryLock_eq P k
  have htotal := exitLock_lt hfirst hlast
  cases h with
  | executed hfull hinner =>
    refine hinner.leads hfirst hlast hc fun c' hc' ↦ ?_
    rw [← exitLock_of_full hfull]
    refine leads_checkForPartitionExit hfirst hlast ?_
    rw [exitLock_of_full hfull, ← hentry]
    exact hc.trans_le hc'
  | @executedDataParallel inner written hparallel hinner hwritten =>
    have hexit := exitLock_of_parallel hparallel
    refine hinner.leads hfirst hlast hc fun c' hc' ↦ ⟨⟨hentry, hc.trans_le hc'⟩, ?_⟩
    refine ⟨⟨hexit.ge, htotal⟩, ?_⟩
    rw [← hexit]
    exact hwritten.leads hfirst hlast (Nat.le_max_right _ _)
  | @terminatedDataParallel inner final written hparallel hinner hfinal hwritten =>
    have hexit := exitLock_of_parallel hparallel
    refine hinner.leads hfirst hlast hc fun c' hc' ↦ ⟨⟨by omega, htotal⟩, ?_⟩
    refine hfinal.leads (Nat.le_max_right _ _) fun c'' hc'' ↦ ?_
    have hadmitted : P.exitLock k < c'' := (Nat.le_max_right _ _).trans hc''
    refine ⟨⟨hentry, by omega⟩, ?_⟩
    rw [← hexit]
    exact hwritten.leads hfirst hlast hadmitted
  | @initiallyTerminated target hroot htarget hmore =>
    obtain ⟨hpartition, hk⟩ := P.partition hfirst hlast
    rw [← htarget] at hk
    refine leads_phiOut hfirst hk ?_ hc
    rw [htarget, ← P.lastPartition]
    rcases (Nat.succ_le_of_lt hpartition).lt_or_eq with hlt | heq
    · exact (P.partitions hlt le_rfl).le
    · rw [← heq]
  | @jump inner hroot hinner hjump =>
    exact hinner.leads hfirst hlast hc fun c' hc' ↦
      leads_writeJump hfirst hlast (lt_jumpTarget hfirst hlast hjump) (hc.trans_le hc')

/-- The locks that a segment has released and those that it has been admitted to. -/
def Inv (P : PipelinePhase) (q : Segment E) (r c : ℕ) : Prop := P.Leads q.next q.pending r c

variable {q q' : Segment E} {a : Action E}

theorem Step.leads (h : P.Step q a q') (hq : P.Inv q r c) :
    P.Leads q'.next (a :: q'.pending) r c := by
  cases h with
  | pending => exact hq
  | kernel hfirst hlast hbehaviour =>
    obtain ⟨-, -, rfl, hc⟩ := hq
    exact hbehaviour.leads hfirst hlast hc

theorem disciplined : Disciplined (P.Step (E := E)) P.start P.Inv where
  start := by
    have hlast := P.nonempty
    have hlt : P.entryLock P.firstKernel < P.total :=
      (entryLock_lt le_rfl).trans_le (locksBefore_succ_le hlast)
    refine ⟨⟨Nat.zero_le _, hlt⟩, le_rfl, hlast, ?_, Nat.le_max_right _ _⟩
    exact locksBefore_firstKernel.symm
  acquire hq hstep := by
    obtain ⟨⟨hr, -⟩, hleads⟩ := hstep.leads hq
    exact ⟨hr, hleads⟩
  release hq hstep := by
    obtain ⟨⟨hl, hc⟩, hleads⟩ := hstep.leads hq
    exact ⟨hl, hc, hleads⟩
  work hq hstep := by
    obtain ⟨⟨hr, hc⟩, hleads⟩ := hstep.leads hq
    exact ⟨hr, hc, hleads⟩

/-- A segment ends where it has come to the end of the phase. -/
def Finished (q : Segment E) : Prop := q = ⟨[], none⟩

/-- Every kernel can be executed. -/
theorem exists_behaviour (P : PipelinePhase) (k : ℕ) :
    ∃ (a : Action E) (actions : List (Action E)), P.Behaviour k (a :: actions)
      (P.nextKernel (k + 1)) := by
  cases hk : P.isDataParallel k with
  | false =>
    have hinner : P.Inner k ([] : List (Action E)) := fun a ha ↦ absurd ha List.not_mem_nil
    exact ⟨_, _, .executed hk hinner⟩
  | true =>
    have hinner : P.Inner k ([] : List (Action E)) := fun a ha ↦ absurd ha List.not_mem_nil
    have hwritten : P.Writes k ([] : List (Action E)) := fun a ha ↦ absurd ha List.not_mem_nil
    exact ⟨_, _, .executedDataParallel hk hinner hwritten⟩

theorem nextKernel_eq_some {k' : ℕ} (h : P.nextKernel target = some k') : k' = target := by
  rw [nextKernel] at h
  split_ifs at h
  exact (Option.some.inj h).symm

/-- The kernels are passed in their order. -/
theorem Behaviour.lt_next {k' : ℕ} (h : P.Behaviour k actions next) (hfirst : P.firstKernel ≤ k)
    (hlast : k < P.oneAfterLastKernel) (hnext : next = some k') : k < k' := by
  cases h with
  | executed _ _ =>
    rw [nextKernel_eq_some hnext]
    exact Nat.lt_succ_self k
  | executedDataParallel _ _ _ =>
    rw [nextKernel_eq_some hnext]
    exact Nat.lt_succ_self k
  | terminatedDataParallel _ _ _ _ =>
    rw [nextKernel_eq_some hnext]
    exact Nat.lt_succ_self k
  | initiallyTerminated _ htarget _ =>
    rw [nextKernel_eq_some hnext, htarget]
    exact (P.partition hfirst hlast).2
  | jump _ _ hjump =>
    rw [nextKernel_eq_some hnext]
    exact (Nat.lt_succ_self k).trans (lt_jumpTarget hfirst hlast hjump)

/-- The kernels from the next one to the end of the phase. -/
def kernelsLeft (P : PipelinePhase) : Option ℕ → ℕ
  | none => 0
  | some k => P.oneAfterLastKernel - k

theorem wellFounded_step : WellFounded fun q' q : Segment E ↦ ∃ a, P.Step q a q' := by
  refine Subrelation.wf (r := InvImage (Prod.Lex (· < ·) (· < ·))
    fun q : Segment E ↦ (P.kernelsLeft q.next, q.pending.length)) (fun {q' q} h ↦ ?_)
    (InvImage.wf _ (WellFounded.prod_lex wellFounded_lt wellFounded_lt))
  obtain ⟨a, hstep⟩ := h
  cases hstep with
  | pending => exact Prod.Lex.right _ (Nat.lt_succ_self _)
  | @kernel _ _ k next hfirst hlast hbehaviour =>
    refine Prod.Lex.left _ _ ?_
    cases next with
    | none => exact Nat.sub_pos_of_lt hlast
    | some k' => exact Nat.sub_lt_sub_left hlast (hbehaviour.lt_next hfirst hlast rfl)

theorem live : Live (P.Step (E := E)) P.Inv P.total Finished where
  acquire hq hstep := (hstep.leads hq).1.2
  released hq hfinished := by
    rw [hfinished] at hq
    exact hq
  next {q r c} hq hfinished := by
    obtain ⟨pending, next⟩ := q
    cases pending with
    | cons a actions => exact ⟨a, _, .pending⟩
    | nil =>
      cases next with
      | none => exact absurd rfl hfinished
      | some k =>
        obtain ⟨hfirst, hlast, -⟩ := hq
        obtain ⟨a, actions, hbehaviour⟩ := P.exists_behaviour (E := E) k
        exact ⟨a, _, .kernel hfirst hlast hbehaviour⟩
  wellFounded := wellFounded_step

end Paths

/-- A data-parallel kernel and one that is not, each a partition of its own. -/
def twoKernels : PipelinePhase where
  firstKernel := 1
  oneAfterLastKernel := 3
  isDataParallel k := k == 1
  kernelPartitionId k := k
  firstKernelInPartition p := p
  partitionJumpTargetId p := p + 1
  oneAfterLastPartition := 3
  nonempty := by decide
  lastPartition := rfl
  partitions h _ := h
  partition _ h := ⟨h, Nat.lt_succ_self _⟩
  after := rfl
  jump h := ⟨Nat.lt_succ_self _, h⟩

/-- Two segments, the first of which has been admitted to the first kernel. -/
def twoSegments : State (Segment ℕ) ℕ :=
  ⟨fun _ ↦ 0, [⟨[], some 1⟩, twoKernels.start], []⟩

theorem reachable_twoSegments : Reachable twoKernels.Step twoKernels.start twoSegments :=
  .move (.claim (.claim .initial)) (.acquire rfl .pending rfl)

section Interleavings

variable {P} {σ : State (Segment E) E}

end Interleavings

end PipelinePhase

end Parabix.Pipeline
