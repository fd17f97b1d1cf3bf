import RvMiniOs.Err
import RvMiniOs.Lib.Runs
import RvMiniOs.Sync.WaitQueue

/-!
# Mutexes

`kernel/core/sync/mutex.c`. A section under the mutex's spinlock is one step.
An unlock that finds a waiter gives it the ownership at once, although the
waiter runs only later.
-/
namespace RvMiniOs.Sync

open Lib Function Option

structure Mutex where
  locked : Bool
  owner : Option ℕ
  wq : List ℕ
  deriving DecidableEq, Repr

def mutexInit : Mutex where
  locked := false
  owner := none
  wq := []

def mutexTrylockUnlocked (m : Mutex) (active : ℕ) : ℤ × Mutex :=
  if m.locked then (-ebusy, m)
  else (0, { m with locked := true, owner := some active })

def mutexTrylock (m : Mutex) (active : ℕ) : ℤ × Mutex :=
  mutexTrylockUnlocked m active

/-- The section of `mutex_lock`, and whether the caller blocks. -/
def mutexLock (m : Mutex) (active : ℕ) : Bool × Mutex :=
  let (res, m) := mutexTrylockUnlocked m active
  if res < 0 then (true, { m with wq := m.wq ++ [active] }) else (false, m)

/-- The section of `mutex_unlock`, and the waiter that it readies. -/
def mutexUnlock (m : Mutex) (active : ℕ) : Option ℕ × Mutex :=
  if !m.locked || m.owner ≠ some active then (none, m)
  else
    match m.wq with
    | task :: wq => (some task, { m with owner := some task, wq })
    | [] => (none, { m with locked := false, owner := none })

/-- A mutex is free exactly when it has no owner, and nobody waits for a free
one. -/
structure Mutex.Consistent (m : Mutex) : Prop where
  free_iff : m.locked = false ↔ m.owner = none
  wq_of_free : m.locked = false → m.wq = []

theorem mutexInit_consistent : mutexInit.Consistent where
  free_iff := by simp [mutexInit]
  wq_of_free := fun _ => rfl

theorem mutexTrylock_free {m : Mutex} (a : ℕ) (h : m.locked = false) :
    mutexTrylock m a = (0, { m with locked := true, owner := some a }) := by
  simp [mutexTrylock, mutexTrylockUnlocked, h]

theorem mutexTrylock_taken {m : Mutex} (a : ℕ) (h : m.locked = true) : mutexTrylock m a = (-ebusy, m) := by
  simp [mutexTrylock, mutexTrylockUnlocked, h]

theorem mutexLock_free {m : Mutex} (a : ℕ) (h : m.locked = false) :
    mutexLock m a = (false, { m with locked := true, owner := some a }) := by
  simp [mutexLock, mutexTrylockUnlocked, h]

theorem mutexLock_taken {m : Mutex} (a : ℕ) (h : m.locked = true) :
    mutexLock m a = (true, { m with wq := m.wq ++ [a] }) := by
  simp [mutexLock, mutexTrylockUnlocked, h, ebusy]

theorem mutexUnlock_foreign {m : Mutex} {a : ℕ} (h : m.owner ≠ some a) : mutexUnlock m a = (none, m) := by
  simp [mutexUnlock, h]

namespace Mutex.Consistent

variable {m : Mutex} {a : ℕ}

theorem locked_of_owner (h : m.Consistent) (ho : m.owner = some a) : m.locked = true := by
  cases hl : m.locked with
  | true => rfl
  | false => simp [h.free_iff.mp hl] at ho

theorem unlock_handOff (h : m.Consistent) (ho : m.owner = some a) {t : ℕ} {wq : List ℕ}
    (hwq : m.wq = t :: wq) : mutexUnlock m a = (some t, { m with owner := some t, wq }) := by
  simp [mutexUnlock, h.locked_of_owner ho, ho, hwq]

theorem unlock_last (h : m.Consistent) (ho : m.owner = some a) (hwq : m.wq = []) :
    mutexUnlock m a = (none, { m with locked := false, owner := none }) := by
  simp [mutexUnlock, h.locked_of_owner ho, ho, hwq]

theorem acquired : Consistent { m with locked := true, owner := some a } where
  free_iff := by simp
  wq_of_free := fun hf => by simp at hf

theorem enqueued (h : m.Consistent) (hl : m.locked = true) :
    Consistent { m with wq := m.wq ++ [a] } where
  free_iff := h.free_iff
  wq_of_free := fun hf => by simp [hl] at hf

theorem handedOver (hl : m.locked = true) {wq : List ℕ} :
    Consistent { m with owner := some a, wq } where
  free_iff := by simp [hl]
  wq_of_free := fun hf => by simp [hl] at hf

theorem released (hwq : m.wq = []) : Consistent { m with locked := false, owner := none } where
  free_iff := by simp
  wq_of_free := fun _ => hwq

end Mutex.Consistent

/-- One mutex and its callers. `holding` is a ghost: the task has acquired the
mutex, or was handed it, and has not unlocked it since. -/
structure MutexSys where
  m : Mutex
  callers : Callers
  holding : ℕ → Bool

inductive MutexOp where
  | lock (a : ℕ)
  | trylock (a : ℕ)
  | unlock (a : ℕ)
  /-- The `switch_out_active` of a `mutex_lock` that blocks. -/
  | switchOut (a : ℕ)
  /-- A task that was handed the mutex returns from `mutex_lock`. -/
  | back (a : ℕ)
  deriving DecidableEq, Repr

/-- The point its caller has to be at. -/
def MutexOp.from : MutexOp → ℕ × Point
  | .lock a | .trylock a | .unlock a => (a, .outside)
  | .switchOut a => (a, .queued)
  | .back a => (a, .released)

def MutexSys.hold (s : MutexSys) (t : ℕ) (b : Bool) : MutexSys :=
  { s with holding := Function.update s.holding t b }

def MutexOp.apply (s : MutexSys) : MutexOp → MutexSys
  | .lock a =>
    match mutexLock s.m a with
    | (true, m) => { s with m, callers := s.callers.block a }
    | (false, m) => { s with m }.hold a true
  | .trylock a =>
    match mutexTrylock s.m a with
    | (res, m) => if res = 0 then { s with m }.hold a true else { s with m }
  | .unlock a =>
    match mutexUnlock s.m a with
    | (some t, m) => ({ s with m, callers := s.callers.ready t }.hold a false).hold t true
    | (none, m) => { s with m }.hold a false
  | .switchOut a => { s with callers := s.callers.setPoint a .switchedOut }
  | .back a => { s with callers := s.callers.setPoint a .outside }

def mutexStep (s : MutexSys) (op : MutexOp) : Option MutexSys :=
  if s.callers.point op.from.1 = op.from.2 then some (op.apply s) else none

def MutexSys.initial : MutexSys where
  m := mutexInit
  callers := .initial
  holding := fun _ => false

/-- The owner and nobody else holds the mutex, and its queue is that of the
waiting callers. -/
structure MutexSys.Inv (s : MutexSys) : Prop where
  consistent : s.m.Consistent
  holding_iff : ∀ t, s.holding t = true ↔ s.m.owner = some t
  tracks : s.callers.Tracks s.m.wq

namespace MutexSys.Inv

variable {s : MutexSys} {a : ℕ}

theorem of_initial : MutexSys.initial.Inv where
  consistent := mutexInit_consistent
  holding_iff := by simp [MutexSys.initial, mutexInit]
  tracks := Callers.tracks_initial

theorem acquire (h : s.Inv) (hl : s.m.locked = false) :
    ({ s with m := { s.m with locked := true, owner := some a } }.hold a true).Inv where
  consistent := Mutex.Consistent.acquired
  holding_iff := by
    intro t
    have hnone : s.m.owner = none := h.consistent.free_iff.mp hl
    rcases eq_or_ne t a with rfl | ht
    · simp [hold]
    · simp [hold, update_of_ne ht, h.holding_iff, hnone, ht.symm]
  tracks := h.tracks

theorem lock (h : s.Inv) (ha : s.callers.point a = .outside) : (MutexOp.apply s (.lock a)).Inv := by
  cases hl : s.m.locked with
  | false =>
    simp only [MutexOp.apply, mutexLock_free a hl]
    exact h.acquire hl
  | true =>
    simp only [MutexOp.apply, mutexLock_taken a hl]
    exact ⟨h.consistent.enqueued hl, h.holding_iff, h.tracks.block (by simp [ha, Point.Waiting])⟩

theorem trylock (h : s.Inv) : (MutexOp.apply s (.trylock a)).Inv := by
  cases hl : s.m.locked with
  | false =>
    simp only [MutexOp.apply, mutexTrylock_free a hl, if_true]
    exact h.acquire hl
  | true =>
    simpa [MutexOp.apply, mutexTrylock_taken a hl, ebusy] using h

theorem unlock_foreign (h : s.Inv) (ho : s.m.owner ≠ some a) : MutexOp.apply s (.unlock a) = s := by
  have hfalse : s.holding a = false := by
    rw [Bool.eq_false_iff, ne_eq, h.holding_iff]
    exact ho
  simp only [MutexOp.apply, mutexUnlock_foreign ho, hold, ← hfalse, update_eq_self]

theorem unlock (h : s.Inv) : (MutexOp.apply s (.unlock a)).Inv := by
  by_cases ho : s.m.owner = some a
  · have hl := h.consistent.locked_of_owner ho
    cases hwq : s.m.wq with
    | cons t wq =>
      simp only [MutexOp.apply, h.consistent.unlock_handOff ho hwq]
      refine ⟨.handedOver hl, fun u => ?_, (hwq ▸ h.tracks).ready⟩
      rcases eq_or_ne u t with rfl | hut
      · simp [hold]
      · rcases eq_or_ne u a with rfl | hua
        · simp [hold, update_of_ne hut, hut.symm]
        · simp [hold, update_of_ne hut, update_of_ne hua, h.holding_iff, ho, hut.symm, hua.symm]
    | nil =>
      simp only [MutexOp.apply, h.consistent.unlock_last ho hwq]
      refine ⟨.released hwq, fun u => ?_, h.tracks⟩
      rcases eq_or_ne u a with rfl | hua
      · simp [hold]
      · simp [hold, update_of_ne hua, h.holding_iff, ho, hua.symm]
  · rwa [h.unlock_foreign ho]

theorem step {op : MutexOp} {t : MutexSys} (h : s.Inv) (hstep : mutexStep s op = some t) : t.Inv := by
  unfold mutexStep at hstep
  split at hstep
  case isFalse => simp at hstep
  case isTrue hp =>
    cases hstep
    cases op with
    | lock a => exact h.lock hp
    | trylock a => exact h.trylock
    | unlock a => exact h.unlock
    | switchOut a => exact ⟨h.consistent, h.holding_iff, h.tracks.switchOut hp⟩
    | back a =>
      have hp : s.callers.point a = .released := hp
      exact ⟨h.consistent, h.holding_iff,
        h.tracks.setPoint_away (by simp [hp, Point.Waiting]) (by simp [Point.Waiting])⟩

theorem run {t : MutexSys} (h : Reaches mutexStep anyAction s t) (h0 : s.Inv) : t.Inv :=
  h.invariant (P := MutexSys.Inv) h0 fun _ _ _ hi _ hstep => hi.step hstep

end MutexSys.Inv

/-- In every interleaving of the sections and blocking points of any number of
tasks, at most one task holds the mutex and it is the owner, a free mutex has
no owner and no waiter, waiters are handed the mutex in the order in which they
were queued, and an unlock by another task than the owner changes nothing. -/
theorem mutex_protocol {s : MutexSys} (h : Reaches mutexStep anyAction MutexSys.initial s) :
    (∀ t u, s.holding t = true → s.holding u = true → t = u) ∧
      (∀ t, s.holding t = true → s.m.owner = some t) ∧
      (s.m.locked = false ↔ s.m.owner = none) ∧
      (s.m.locked = false → s.m.wq = [] ∧ ∀ t, ¬ (s.callers.point t).Waiting) ∧
      s.callers.joined = s.callers.left ++ s.m.wq ∧
      (∀ a, s.m.owner ≠ some a → s.callers.point a = .outside → mutexStep s (.unlock a) = some s) := by
  have hi := MutexSys.Inv.run h .of_initial
  refine ⟨fun t u ht hu => ?_, fun t ht => (hi.holding_iff t).mp ht, hi.consistent.free_iff,
    fun hfree => ⟨hi.consistent.wq_of_free hfree, fun t ht => ?_⟩, hi.tracks.order, fun a ho ha => ?_⟩
  · have := ((hi.holding_iff t).mp ht).symm.trans ((hi.holding_iff u).mp hu)
    exact some.inj this
  · have hmem := (hi.tracks.mem_iff t).mpr ht
    simp [hi.consistent.wq_of_free hfree] at hmem
  · simp [mutexStep, MutexOp.from, ha, hi.unlock_foreign ho]

def contended : List MutexOp :=
  [.lock 0, .lock 1, .lock 2, .unlock 0, .switchOut 2, .back 1, .unlock 0]

theorem mutex_protocol_contended : ∃ s, run mutexStep MutexSys.initial contended = some s ∧
    s.callers.joined = s.callers.left ++ s.m.wq ∧ s.callers.left = [1] ∧ s.m.wq = [2] := by
  refine ⟨_, rfl, ?_, rfl, rfl⟩
  exact (mutex_protocol (.of_run contended (allowed_anyAction _ _) rfl)).2.2.2.2.1

end RvMiniOs.Sync
