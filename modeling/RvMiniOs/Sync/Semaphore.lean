import RvMiniOs.Err
import RvMiniOs.Lib.Runs
import RvMiniOs.Sync.WaitQueue
import Mathlib.Algebra.Order.Ring.Int

/-!
# Semaphores

`kernel/core/sync/semaphore.c`. A section runs with interrupts masked and the
spinlock held, so it is one step, whether a task or an interrupt handler runs
it. A post that finds a waiter gives it the token and does not touch the count.
-/
namespace RvMiniOs.Sync

open Lib Option

abbrev intMax : ℤ := 2 ^ 31 - 1

structure Semaphore where
  count : ℤ
  wq : List ℕ
  deriving DecidableEq, Repr

def semInit (val : ℤ) : Semaphore where
  count := val
  wq := []

def semTryTakeUnlocked (sem : Semaphore) : ℤ × Semaphore :=
  if sem.count ≤ 0 then (-eagain, sem) else (0, { sem with count := sem.count - 1 })

def semTryTake (sem : Semaphore) : ℤ × Semaphore :=
  semTryTakeUnlocked sem

/-- The section of `sem_wait`, and whether the caller blocks. -/
def semWait (sem : Semaphore) (active : ℕ) : Bool × Semaphore :=
  let (res, sem) := semTryTakeUnlocked sem
  if res < 0 then (true, { sem with wq := sem.wq ++ [active] }) else (false, sem)

/-- The section of `sem_post`, and the waiter that it readies. `none` when the
count would overflow, which C leaves undefined. -/
def semPost (sem : Semaphore) : Option (Option ℕ × Semaphore) :=
  match sem.wq with
  | task :: wq => some (some task, { sem with wq })
  | [] => if sem.count < intMax then some (none, { sem with count := sem.count + 1 }) else none

/-- No debt, and nobody waits while there is a token. -/
structure Semaphore.Consistent (sem : Semaphore) : Prop where
  nonneg : 0 ≤ sem.count
  wq_of_pos : 0 < sem.count → sem.wq = []

variable {sem : Semaphore}

theorem semInit_consistent {v : ℤ} (hv : 0 ≤ v) : (semInit v).Consistent where
  nonneg := hv
  wq_of_pos := fun _ => rfl

theorem semTryTake_pos (h : 0 < sem.count) :
    semTryTake sem = (0, { sem with count := sem.count - 1 }) := by
  simp [semTryTake, semTryTakeUnlocked, h]

theorem semTryTake_empty (h : sem.count ≤ 0) : semTryTake sem = (-eagain, sem) := by
  simp [semTryTake, semTryTakeUnlocked, h]

theorem semWait_pos (a : ℕ) (h : 0 < sem.count) :
    semWait sem a = (false, { sem with count := sem.count - 1 }) := by
  simp [semWait, semTryTakeUnlocked, not_le.mpr h]

theorem semWait_empty (a : ℕ) (h : sem.count ≤ 0) :
    semWait sem a = (true, { sem with wq := sem.wq ++ [a] }) := by
  simp [semWait, semTryTakeUnlocked, h, eagain]

theorem semPost_cases {woken : Option ℕ} {out : Semaphore} (h : semPost sem = some (woken, out)) :
    (∃ t wq, sem.wq = t :: wq ∧ woken = some t ∧ out = { sem with wq }) ∨
      (sem.wq = [] ∧ woken = none ∧ out = { sem with count := sem.count + 1 }) := by
  unfold semPost at h
  split at h
  case h_1 t wq hwq =>
    cases h
    exact .inl ⟨t, wq, hwq, rfl, rfl⟩
  case h_2 hwq =>
    split at h
    · cases h
      exact .inr ⟨hwq, rfl, rfl⟩
    · cases h

namespace Semaphore.Consistent

theorem taken (h : sem.Consistent) (hpos : 0 < sem.count) :
    Consistent { sem with count := sem.count - 1 } where
  nonneg := by
    show 0 ≤ sem.count - 1
    omega
  wq_of_pos := fun _ => h.wq_of_pos hpos

theorem queue (h : sem.Consistent) (hzero : sem.count ≤ 0) {wq : List ℕ} :
    Consistent { sem with wq } where
  nonneg := h.nonneg
  wq_of_pos := fun hpos => absurd hzero (not_le.mpr hpos)

theorem posted (h : sem.Consistent) (hwq : sem.wq = []) :
    Consistent { sem with count := sem.count + 1 } where
  nonneg := by
    show 0 ≤ sem.count + 1
    have := h.nonneg
    omega
  wq_of_pos := fun _ => hwq

theorem count_of_waiter (h : sem.Consistent) {t : ℕ} {wq : List ℕ} (hwq : sem.wq = t :: wq) :
    sem.count ≤ 0 := by
  by_contra hpos
  simp [h.wq_of_pos (not_le.mp hpos)] at hwq

end Semaphore.Consistent

/-- One semaphore and its callers. The counters are ghosts: `posts` counts the
calls of `sem_post`, `takes` the successes of `sem_try_take`, the returns of a
`sem_wait` that found a token and the tokens handed to a waiter. -/
structure SemSys where
  sem : Semaphore
  callers : Callers
  posts : ℕ
  takes : ℕ

/-- A caller of `tryTake` or `post` is a task, or an interrupt handler (none). -/
inductive SemOp where
  | wait (a : ℕ)
  | tryTake (caller : Option ℕ)
  | post (caller : Option ℕ)
  /-- The `switch_out_active` of a `sem_wait` that blocks. -/
  | switchOut (a : ℕ)
  /-- A task that was handed a token returns from `sem_wait`. -/
  | back (a : ℕ)
  deriving DecidableEq, Repr

/-- Where the caller has to be; a handler is nowhere else. -/
def SemOp.Ready (c : Callers) : SemOp → Prop
  | .wait a => c.point a = .outside
  | .tryTake caller | .post caller => ∀ a ∈ caller, c.point a = .outside
  | .switchOut a => c.point a = .queued
  | .back a => c.point a = .released

instance (c : Callers) : (op : SemOp) → Decidable (op.Ready c)
  | .wait _ | .switchOut _ | .back _ => inferInstanceAs (Decidable (_ = _))
  | .tryTake caller | .post caller =>
    inferInstanceAs (Decidable (∀ a ∈ caller, c.point a = .outside))

def SemOp.apply (s : SemSys) : SemOp → Option SemSys
  | .wait a =>
    match semWait s.sem a with
    | (true, sem) => some { s with sem, callers := s.callers.block a }
    | (false, sem) => some { s with sem, takes := s.takes + 1 }
  | .tryTake _ =>
    match semTryTake s.sem with
    | (res, sem) => some { s with sem, takes := if res = 0 then s.takes + 1 else s.takes }
  | .post _ =>
    match semPost s.sem with
    | none => none
    | some (some t, sem) =>
      some { sem, callers := s.callers.ready t, posts := s.posts + 1, takes := s.takes + 1 }
    | some (none, sem) => some { s with sem, posts := s.posts + 1 }
  | .switchOut a => some { s with callers := s.callers.setPoint a .switchedOut }
  | .back a => some { s with callers := s.callers.setPoint a .outside }

def semStep (s : SemSys) (op : SemOp) : Option SemSys :=
  if op.Ready s.callers then op.apply s else none

def SemSys.initial (v : ℤ) : SemSys where
  sem := semInit v
  callers := .initial
  posts := 0
  takes := 0

/-- Every token that was there or was posted is in the count or was taken. -/
structure SemSys.Inv (v : ℤ) (s : SemSys) : Prop where
  consistent : s.sem.Consistent
  conserved : v + s.posts = s.sem.count + s.takes
  tracks : s.callers.Tracks s.sem.wq

namespace SemSys.Inv

variable {v : ℤ} {s t : SemSys}

theorem of_initial (hv : 0 ≤ v) : Inv v (SemSys.initial v) where
  consistent := semInit_consistent hv
  conserved := by simp [SemSys.initial, semInit]
  tracks := Callers.tracks_initial

theorem take (h : Inv v s) (hpos : 0 < s.sem.count) :
    Inv v { s with sem := { s.sem with count := s.sem.count - 1 }, takes := s.takes + 1 } where
  consistent := h.consistent.taken hpos
  conserved := by
    have := h.conserved
    push_cast
    omega
  tracks := h.tracks

theorem wait {a : ℕ} (h : Inv v s) (ha : s.callers.point a = .outside)
    (hstep : SemOp.apply s (.wait a) = some t) : Inv v t := by
  rcases lt_or_ge 0 s.sem.count with hpos | hzero
  · simp only [SemOp.apply, semWait_pos a hpos, some.injEq] at hstep
    exact hstep ▸ h.take hpos
  · simp only [SemOp.apply, semWait_empty a hzero, some.injEq] at hstep
    exact hstep ▸ ⟨h.consistent.queue hzero, h.conserved, h.tracks.block (by simp [ha, Point.Waiting])⟩

theorem tryTake {caller : Option ℕ} (h : Inv v s)
    (hstep : SemOp.apply s (.tryTake caller) = some t) : Inv v t := by
  rcases lt_or_ge 0 s.sem.count with hpos | hzero
  · simp only [SemOp.apply, semTryTake_pos hpos, if_true, some.injEq] at hstep
    exact hstep ▸ h.take hpos
  · simp only [SemOp.apply, semTryTake_empty hzero, some.injEq] at hstep
    exact hstep ▸ h

theorem post {caller : Option ℕ} (h : Inv v s)
    (hstep : SemOp.apply s (.post caller) = some t) : Inv v t := by
  have hsum := h.conserved
  cases hp : semPost s.sem with
  | none => simp [SemOp.apply, hp] at hstep
  | some out =>
    obtain ⟨woken, sem⟩ := out
    obtain ⟨u, wq, hwq, rfl, rfl⟩ | ⟨hwq, rfl, rfl⟩ := semPost_cases hp
    · simp only [SemOp.apply, hp, some.injEq] at hstep
      refine hstep ▸ ⟨h.consistent.queue (h.consistent.count_of_waiter hwq), ?_, (hwq ▸ h.tracks).ready⟩
      show v + ((s.posts + 1 : ℕ) : ℤ) = s.sem.count + ((s.takes + 1 : ℕ) : ℤ)
      push_cast
      omega
    · simp only [SemOp.apply, hp, some.injEq] at hstep
      refine hstep ▸ ⟨h.consistent.posted hwq, ?_, h.tracks⟩
      show v + ((s.posts + 1 : ℕ) : ℤ) = s.sem.count + 1 + (s.takes : ℤ)
      push_cast
      omega

theorem step {op : SemOp} (h : Inv v s) (hstep : semStep s op = some t) : Inv v t := by
  unfold semStep at hstep
  split at hstep
  case isFalse => simp at hstep
  case isTrue hp =>
    cases op with
    | wait a => exact h.wait hp hstep
    | tryTake caller => exact h.tryTake hstep
    | post caller => exact h.post hstep
    | switchOut a =>
      cases hstep
      exact ⟨h.consistent, h.conserved, h.tracks.switchOut hp⟩
    | back a =>
      cases hstep
      have hp : s.callers.point a = .released := hp
      exact ⟨h.consistent, h.conserved,
        h.tracks.setPoint_away (by simp [hp, Point.Waiting]) (by simp [Point.Waiting])⟩

theorem run (h : Reaches semStep anyAction s t) (h0 : Inv v s) : Inv v t :=
  h.invariant (P := Inv v) h0 fun _ _ _ hi _ hstep => hi.step hstep

end SemSys.Inv

/-- In every interleaving of tasks and interrupt handlers the count is never
negative, nobody is queued while it is positive, no token is lost or made up,
and waiters are released in the order in which they were queued. -/
theorem semaphore_conserves_tokens {v : ℤ} (hv : 0 ≤ v) {s : SemSys}
    (h : Reaches semStep anyAction (SemSys.initial v) s) :
    0 ≤ s.sem.count ∧
      (0 < s.sem.count → s.sem.wq = [] ∧ ∀ t, ¬ (s.callers.point t).Waiting) ∧
      v + s.posts = s.sem.count + s.takes ∧
      s.callers.joined = s.callers.left ++ s.sem.wq := by
  have hi := SemSys.Inv.run h (.of_initial hv)
  refine ⟨hi.consistent.nonneg, fun hpos => ⟨hi.consistent.wq_of_pos hpos, fun t ht => ?_⟩,
    hi.conserved, hi.tracks.order⟩
  have hmem := (hi.tracks.mem_iff t).mpr ht
  simp [hi.consistent.wq_of_pos hpos] at hmem

/-- Two tasks wait for one token; a handler posts before the second is switched
out, and once more with nobody waiting. -/
def handlerPosts : List SemOp :=
  [.wait 0, .wait 1, .post none, .back 1, .post none, .tryTake (some 0), .wait 2]

theorem semaphore_conserves_tokens_handlerPosts :
    ∃ s, run semStep (SemSys.initial 1) handlerPosts = some s ∧
      (1 : ℤ) + s.posts = s.sem.count + s.takes ∧ s.posts = 2 ∧ s.sem.wq = [2] := by
  refine ⟨_, rfl, ?_, rfl, rfl⟩
  exact (semaphore_conserves_tokens (by decide) (.of_run handlerPosts (allowed_anyAction _ _) rfl)).2.2.1

end RvMiniOs.Sync
