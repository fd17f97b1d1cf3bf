import RvMiniOs.Sched.Invariant
import RvMiniOs.Tasks.Table

/-!
# Waiting for children

`sys_wait` and `sys_waitpid` on the scheduler machine. Interrupts are off in both:
a task that comes back from `scheduler_block_on` goes on with its loop, and only
another task can do something between two turns of it. `task_zombify` links the
task after `release_fds`, where it may have been switched out, and it may be
switched out again where it wakes its parent. A child whose parent has been freed
does not get to the list of zombies.
-/
namespace RvMiniOs.Sched.Reaping

open Lib Function List Option

inductive Wait where
  | any
  | pid (pid : ℤ)
  deriving DecidableEq, Repr

structure Sys where
  cpu : Cpu
  nextPid : ℕ
  pid : ℕ → ℕ
  zombies : ℕ → List ℕ
  waiting : ℕ → Option Wait
  result : ℕ → ℤ
  pushes : ℕ
  stamp : ℕ → ℕ
  destroyed : List (ℕ × Bool)
  taken : ℕ → List ℕ

def toInt8 (n : ℕ) : ℤ := (n : ℤ).bmod 256

theorem toInt8_of_lt {n : ℕ} (h : n < 128) : toInt8 n = n := by
  change (n : ℤ).bmod 256 = n
  rw [Int.bmod_def]
  split <;> omega

namespace Sys

def IsZombie (s : Sys) (t : ℕ) : Prop := s.cpu.state t = .zombie ∨ t ∈ s.zombies (s.cpu.parent t)

instance (s : Sys) (t : ℕ) : Decidable (s.IsZombie t) := inferInstanceAs (Decidable (_ ∨ _))

def taskDestroy (s : Sys) (t : ℕ) : Sys :=
  { s with
    cpu := Sched.taskDestroy s.cpu t
    zombies := fun p => (s.zombies p).filter (· ≠ t)
    destroyed := s.destroyed ++ [(t, decide (s.IsZombie t))] }

def taskReap (s : Sys) (t : ℕ) : Sys :=
  if s.cpu.state t ≠ .zombie then s else s.taskDestroy t

def take (s : Sys) (p z : ℕ) : Sys :=
  { s with
    zombies := Function.update s.zombies p ((s.zombies p).filter (· ≠ z))
    taken := Function.update s.taken p (s.taken p ++ [z]) }

def found (s : Sys) (p : ℕ) : Wait → Option ℕ
  | .any => (s.zombies p).head?
  | .pid pid => (s.zombies p).find? fun z => pid = s.pid z

def answer (s : Sys) (z : ℕ) : Wait → ℤ
  | .any => toInt8 (s.pid z)
  | .pid pid => pid

def turn (s : Sys) : Option Sys :=
  let p := s.cpu.active
  match s.waiting p with
  | none => none
  | some w =>
    match s.found p w with
    | none => some { s with cpu := schedulerBlockOn s.cpu (.zombies p) }
    | some z =>
      some { (s.take p z).taskReap z with
        waiting := Function.update s.waiting p none
        result := Function.update s.result p (s.answer z w) }

def pushZombie (s : Sys) : Sys :=
  let p := s.cpu.parent s.cpu.active
  { s with
    zombies := Function.update s.zombies p (s.zombies p ++ [s.cpu.active])
    stamp := Function.update s.stamp s.cpu.active s.pushes
    pushes := s.pushes + 1 }

def exitTgidCb (tgid : ℕ) (s : Sys) (p : ℕ) : Sys :=
  if tgid = s.cpu.tgid p ∧ p ≠ s.cpu.active then s.taskDestroy p else s

def schedulerExitGroup (s : Sys) : Sys :=
  let s := s.cpu.table.foldl (exitTgidCb (s.cpu.tgid s.cpu.active)) s
  { s with cpu := beginExit s.cpu }

def spawn (s : Sys) (priority : Priority) (tgid : ℕ) : Sys :=
  { s with
    cpu := activateTask s.cpu priority tgid
    pid := Function.update s.pid s.cpu.fresh s.nextPid
    nextPid := (s.nextPid + 1) % 256 }

end Sys

inductive Op where
  | cpu (op : Sched.Op)
  | spawn (priority : Priority)
  | spawnThread
  | spawnFails
  | exitGroup
  | wait
  | waitpid (pid : ℤ)
  | turn
  deriving DecidableEq

def Plain : Sched.Op → Bool
  | .spawn _ _ | .spawnThread | .exitGroup | .reap _ => false
  | .blockOn (.zombies _) | .blockOnLocked (.zombies _) => false
  | _ => true

def Linking (c : Cpu) (op : Sched.Op) : Prop :=
  op = .resume ∧ (c.frames c.active).head? = some .exiting

instance (c : Cpu) (op : Sched.Op) : Decidable (Linking c op) := inferInstanceAs (Decidable (_ ∧ _))

def Free (s : Sys) : Prop := Outside s.cpu ∧ s.waiting s.cpu.active = none

instance (s : Sys) : Decidable (Free s) := inferInstanceAs (Decidable (_ ∧ _))

def Enabled (s : Sys) : Op → Prop
  | .cpu op => Plain op = true ∧ Sched.Enabled s.cpu op ∧
      (Outside s.cpu → s.waiting s.cpu.active = none) ∧
      (Linking s.cpu op → s.cpu.parent s.cpu.active ∈ s.cpu.table)
  | .spawn _ => Free s ∧ s.cpu.table.length < Tasks.maxTask
  | .spawnThread => Free s ∧ s.cpu.active ≠ idle ∧ s.cpu.table.length < Tasks.maxTask
  | .spawnFails => Free s ∧ s.cpu.table.length < Tasks.maxTask
  | .exitGroup | .wait => Free s ∧ s.cpu.active ≠ idle
  | .waitpid pid => Free s ∧ s.cpu.active ≠ idle ∧ -128 ≤ pid ∧ pid < 128
  | .turn => Outside s.cpu

instance (s : Sys) : (op : Op) → Decidable (Enabled s op)
  | .cpu op => inferInstanceAs (Decidable (_ ∧ Sched.Enabled s.cpu op ∧
      (Outside s.cpu → _) ∧ (Linking s.cpu op → _)))
  | .spawn _ | .spawnFails => inferInstanceAs (Decidable (Free s ∧ _))
  | .spawnThread => inferInstanceAs (Decidable (Free s ∧ _ ∧ _))
  | .exitGroup | .wait => inferInstanceAs (Decidable (Free s ∧ _))
  | .waitpid _ => inferInstanceAs (Decidable (Free s ∧ _ ∧ _ ∧ _))
  | .turn => inferInstanceAs (Decidable (Outside s.cpu))

def Op.apply (s : Sys) : Op → Option Sys
  | .cpu op => (op.apply s.cpu).map fun cpu =>
      { (if Linking s.cpu op then s.pushZombie else s) with cpu }
  | .spawn priority => some (s.spawn priority s.nextPid)
  | .spawnThread => some (s.spawn (s.cpu.priority s.cpu.active) (s.cpu.tgid s.cpu.active))
  | .spawnFails => some { s with nextPid := (s.nextPid + 1) % 256 }
  | .exitGroup => some s.schedulerExitGroup
  | .wait => some { s with waiting := Function.update s.waiting s.cpu.active (some .any) }
  | .waitpid pid => some { s with waiting := Function.update s.waiting s.cpu.active (some (.pid pid)) }
  | .turn => s.turn

def step (s : Sys) (op : Op) : Option Sys :=
  if Enabled s op ∧ s.cpu.emptyPick = false then op.apply s else none

def initial : Sys where
  cpu := taskInit
  nextPid := 1
  pid := fun _ => 0
  zombies := fun _ => []
  waiting := fun _ => none
  result := fun _ => 0
  pushes := 0
  stamp := fun _ => 0
  destroyed := []
  taken := fun _ => []

def Settled (s : Sys) : Op → Prop
  | .turn => s.waiting s.cpu.active = some .any → ∀ z ∈ s.found s.cpu.active .any, s.pid z < 128
  | .exitGroup => ∀ t ∈ s.cpu.table, t ≠ s.cpu.active → s.cpu.tgid t = s.cpu.tgid s.cpu.active →
      ¬ s.IsZombie t
  | _ => True

instance (s : Sys) : (op : Op) → Decidable (Settled s op)
  | .turn => inferInstanceAs (Decidable (_ → ∀ z ∈ s.found s.cpu.active .any, _))
  | .exitGroup => inferInstanceAs (Decidable (∀ t ∈ s.cpu.table, _ → _ → ¬ s.IsZombie t))
  | .cpu _ | .spawn _ | .spawnThread | .spawnFails | .wait | .waitpid _ =>
    inferInstanceAs (Decidable True)

def Asleep (c : Cpu) (p : ℕ) : Prop := p ∈ c.waitQueues (.zombies p)

structure Queues (c : Cpu) : Prop where
  active_mem : c.active ∈ c.table
  ready_mem : ∀ q, ∀ t ∈ c.readyQueues q, t ∈ c.table
  table_lt : ∀ t ∈ c.table, t < c.fresh
  table_nodup : c.table.Nodup
  asleep : ∀ p, Asleep c p → p ∈ c.table ∧ c.state p = .blocked ∧ ∀ q, p ∉ c.readyQueues q

structure Waits (c : Cpu) : Prop extends Queues c where
  away : c.emptyPick = false → Asleep c c.active → (c.frames c.active).head? = some .switchOut

structure Same (c c' : Cpu) : Prop where
  waits : Waits c'
  asleep : ∀ p, Asleep c' p → Asleep c p
  frames : c'.frames = c.frames
  parent : c'.parent = c.parent
  table : c'.table = c.table
  fresh : c'.fresh = c.fresh

section Switches

variable {c c' c'' : Cpu} {t : ℕ}

theorem Same.trans (h : Same c c') (h' : Same c' c'') : Same c c'' :=
  ⟨h'.waits, fun p hp => h.asleep p (h'.asleep p hp), h'.frames.trans h.frames,
    h'.parent.trans h.parent, h'.table.trans h.table, h'.fresh.trans h.fresh⟩

theorem Waits.refl (h : Waits c) : Same c c := ⟨h, fun _ hp => hp, rfl, rfl, rfl, rfl⟩

theorem Waits.vars (h : Waits c) (preemptCount : ℕ) (needResched : Bool) (sleepingHead : List ℕ)
    (ticks : ℕ) (opened : ℕ → ℕ) :
    Same c { c with preemptCount, needResched, sleepingHead, ticks, opened } :=
  ⟨{ h with }, fun _ hp => hp, rfl, rfl, rfl, rfl⟩

theorem Waits.awake (h : Waits c) (hpick : c.emptyPick = false)
    (hf : (c.frames c.active).head? ≠ some .switchOut) : ¬ Asleep c c.active :=
  fun hp => hf (h.away hpick hp)

theorem Queues.switch (h : Queues c) {n : ℕ} (hn : n ∈ c.table) (hawake : ¬ Asleep c n) :
    Same c (doCtxSwitch c n) := by
  refine ⟨⟨⟨hn, h.ready_mem, h.table_lt, h.table_nodup, fun p hp => ?_⟩, fun _ hp => absurd hp hawake⟩,
    fun _ hp => hp, rfl, rfl, rfl, rfl⟩
  have hold : Asleep c p := hp
  obtain ⟨hmem, hstate, hready⟩ := h.asleep p hold
  refine ⟨hmem, ?_, hready⟩
  have hne : p ≠ n := by
    rintro rfl
    exact hawake hold
  rw [doCtxSwitch_state, if_neg hne, hstate, if_neg (by simp)]

theorem Queues.not_asleep (h : Queues c) {q : Priority} (ht : t ∈ c.readyQueues q) : ¬ Asleep c t :=
  fun hp => (h.asleep t hp).2.2 q ht

theorem Queues.highest (h : Queues c) (highest : Priority) : Queues { c with highest } :=
  { h with }

theorem Queues.emptied (h : Queues c) : Same c { c with emptyPick := true } :=
  ⟨{ h with away := fun hpick => by cases hpick }, fun _ hp => hp, rfl, rfl, rfl, rfl⟩

theorem Queues.switchOut (h : Queues c) : Same c (switchOutActive c) := by
  obtain ⟨p, he | ⟨n, hn, he⟩⟩ := switchOutActive_cases c <;> rw [he]
  · exact { (h.highest p).emptied with }
  · exact { (h.highest p).switch (h.ready_mem p n hn) ((h.highest p).not_asleep hn) with }

theorem Waits.permuted (h : Waits c) {rq : Priority → List ℕ}
    (hperm : ∀ q, (rq q).Perm (c.readyQueues q)) : Same c { c with readyQueues := rq } := by
  refine ⟨⟨⟨h.active_mem, fun q t ht => h.ready_mem q t ((hperm q).mem_iff.mp ht), h.table_lt,
    h.table_nodup, fun p hp => ?_⟩, h.away⟩, fun _ hp => hp, rfl, rfl, rfl, rfl⟩
  obtain ⟨hmem, hstate, hready⟩ := h.asleep p hp
  exact ⟨hmem, hstate, fun q hq => hready q ((hperm q).mem_iff.mp hq)⟩

theorem Waits.rotateLocked (h : Waits c) : Same c (rotateLocked c) := by
  obtain ⟨rq, hperm, he⟩ := rotateLocked_cases c
  have hrot := h.permuted hperm
  rcases he with he | he | ⟨q, n, hn, he⟩ <;> rw [he]
  · exact hrot
  · exact hrot.trans hrot.waits.emptied
  · exact hrot.trans (hrot.waits.switch (hrot.waits.ready_mem q n hn) (hrot.waits.not_asleep hn))

theorem Waits.resched (h : Waits c) : Same c (reschedIfNeeded c) := by
  unfold reschedIfNeeded
  split
  · have hneed : Same c { c with needResched := false } := h.vars _ _ _ _ _
    rcases schedulerRotate_eq { c with needResched := false } with he | he <;> rw [he]
    · exact hneed
    · exact hneed.trans hneed.waits.rotateLocked
  · exact h.refl

theorem Waits.preempt (h : Waits c) (ht : t ∈ c.table) (hawake : ¬ Asleep c t) :
    Same c (checkAndPreempt c t) := by
  unfold checkAndPreempt
  split
  · split
    · exact h.vars _ _ _ _ _
    · exact h.switch ht hawake
  · exact h.refl

theorem Waits.enqueue (h : Waits c) (ht : t ∈ c.table) (hawake : ¬ Asleep c t) :
    Same c (readyQueueEnqueue c t) := by
  refine ⟨⟨⟨h.active_mem, fun q u hu => ?_, h.table_lt, h.table_nodup, fun p hp => ?_⟩, h.away⟩,
    fun _ hp => hp, rfl, rfl, rfl, rfl⟩
  · rcases mem_readyQueueEnqueue.mp hu with hold | ⟨rfl, -⟩
    · exact h.ready_mem q u hold
    · exact ht
  · obtain ⟨hmem, hstate, hready⟩ := h.asleep p hp
    refine ⟨hmem, hstate, fun q hq => ?_⟩
    rcases mem_readyQueueEnqueue.mp hq with hold | ⟨rfl, -⟩
    · exact hready q hold
    · exact hawake hp

theorem Waits.admit (h : Waits c) (ht : t ∈ c.table) (hawake : ¬ Asleep c t) :
    Same c (schedulerAdmit c t) := by
  have hready := h.enqueue ht hawake
  have hhigh : Same c (updateHighest (readyQueueEnqueue c t) t) :=
    ⟨⟨hready.waits.highest _, hready.waits.away⟩, fun _ hp => hp, rfl, rfl, rfl, rfl⟩
  exact hhigh.trans (hhigh.waits.preempt ht hawake)

theorem Waits.wake (h : Waits c) (t : ℕ) : Same c (taskWake c t) ∧ ¬ Asleep (taskWake c t) t := by
  unfold taskWake
  split
  · -- a task that is woken is in no wait queue
    have hleft : ∀ p, Asleep (setState (removeFromBlockingQueues c t) t .running) p →
        Asleep c p ∧ p ≠ t := fun p hp => by
      obtain ⟨hmem, hne⟩ := mem_filter.mp hp
      exact ⟨hmem, by simpa using hne⟩
    refine ⟨⟨⟨⟨h.active_mem, h.ready_mem, h.table_lt, h.table_nodup, fun p hp => ?_⟩,
      fun hpick hp => h.away hpick (hleft _ hp).1⟩, fun p hp => (hleft p hp).1, rfl, rfl, rfl, rfl⟩,
      fun hp => (hleft t hp).2 rfl⟩
    obtain ⟨hold, hne⟩ := hleft p hp
    obtain ⟨hmem, hstate, hready⟩ := h.asleep p hold
    exact ⟨hmem, by simpa [setState, removeFromBlockingQueues, hne] using hstate, hready⟩
  · rename_i hstate
    exact ⟨h.refl, fun hp => hstate (.inr (h.asleep t hp).2.1)⟩

theorem Waits.readyTask (h : Waits c) (ht : t ∈ c.table) :
    Same c (schedulerReadyTask c t) ∧ ¬ Asleep (schedulerReadyTask c t) t := by
  obtain ⟨hwake, hawake⟩ := h.wake t
  rw [schedulerReadyTask_eq]
  have hadm := hwake.waits.admit (hwake.table ▸ ht) hawake
  exact ⟨hwake.trans hadm, fun hp => hawake (hadm.asleep t hp)⟩

theorem Waits.of_active (h : Waits c) (hawake : ¬ Asleep c c.active) (hactive : c'.active = c.active)
    (htable : c'.table = c.table) (hfresh : c'.fresh = c.fresh)
    (hready : ∀ q, ∀ u ∈ c'.readyQueues q, u ∈ c.readyQueues q) (hasleep : ∀ p, Asleep c' p → Asleep c p)
    (hstate : ∀ u, u ≠ c.active → c'.state u = c.state u) : Waits c' := by
  refine ⟨⟨?_, fun q u hu => ?_, ?_, ?_, fun p hp => ?_⟩, fun _ hp => ?_⟩
  · rw [hactive, htable]
    exact h.active_mem
  · rw [htable]
    exact h.ready_mem q u (hready q u hu)
  · rw [htable, hfresh]
    exact h.table_lt
  · rw [htable]
    exact h.table_nodup
  · obtain ⟨hmem, hblocked, hnot⟩ := h.asleep p (hasleep p hp)
    have hne : p ≠ c.active := by
      rintro rfl
      exact hawake (hasleep _ hp)
    rw [htable, hstate p hne]
    exact ⟨hmem, hblocked, fun q hq => hnot q (hready q p hq)⟩
  · rw [hactive] at hp
    exact absurd (hasleep _ hp) hawake

end Switches

def Ended (fs : List Frame) : Prop := fs = [.switchOut, .zombieExit] ∨ fs = [.zombieExit]

structure Moved (c c' : Cpu) : Prop where
  waits : Waits c'
  asleep : ∀ p, Asleep c' p → Asleep c p
  frames : ∀ u, u ≠ c.active → c'.frames u = c.frames u
  ended : Ended (c.frames c.active) → Ended (c'.frames c.active)
  parent : c'.parent = c.parent
  table : c'.table = c.table
  fresh : c'.fresh = c.fresh

section Moves

variable {c c' c'' : Cpu} {t : ℕ}

theorem Same.moved (h : Same c c') : Moved c c' :=
  ⟨h.waits, h.asleep, fun _ _ => by rw [h.frames], fun he => by rwa [h.frames], h.parent, h.table,
    h.fresh⟩

theorem Moved.same (h : Moved c c') (h' : Same c' c'') : Moved c c'' :=
  ⟨h'.waits, fun p hp => h.asleep p (h'.asleep p hp), fun u hu => by rw [h'.frames, h.frames u hu],
    fun he => by rw [h'.frames]; exact h.ended he, h'.parent.trans h.parent, h'.table.trans h.table,
    h'.fresh.trans h.fresh⟩

theorem not_ended_of_outside (h : Outside c) : ¬ Ended (c.frames c.active) := by
  rw [show c.frames c.active = [] from h]
  simp [Ended]

theorem not_ended_of_mayLock (h : MayLock c) : ¬ Ended (c.frames c.active) := by
  rcases h with hout | hexit
  · exact not_ended_of_outside hout
  · rintro (he | he) <;> simp [he] at hexit

theorem head_of_mayLock (h : MayLock c) : (c.frames c.active).head? ≠ some .switchOut := by
  rcases h with hout | hexit
  · simp [show c.frames c.active = [] from hout]
  · simp [hexit]

section Active

variable (h : Waits c) (hawake : ¬ Asleep c c.active) (hended : ¬ Ended (c.frames c.active))
include h hawake hended

theorem Waits.moved (hactive : c'.active = c.active) (htable : c'.table = c.table) (hfresh : c'.fresh = c.fresh)
    (hparent : c'.parent = c.parent) (hready : ∀ q, ∀ u ∈ c'.readyQueues q, u ∈ c.readyQueues q)
    (hasleep : ∀ p, Asleep c' p → Asleep c p) (hstate : ∀ u, u ≠ c.active → c'.state u = c.state u)
    (hframes : ∀ u, u ≠ c.active → c'.frames u = c.frames u) : Moved c c' :=
  ⟨h.of_active hawake hactive htable hfresh hready hasleep hstate, hasleep, hframes,
    fun he => absurd he hended, hparent, htable, hfresh⟩

theorem Waits.blockOn (n : ℕ) : Moved c (schedulerBlockOn c (.other n)) := by
  refine h.moved hawake hended rfl rfl rfl rfl (fun q u hu => ?_) (fun p hp => ?_) (fun u hu => ?_)
    fun u hu => ?_
  · exact (mem_filter.mp hu).1
  · simpa [Asleep, schedulerBlockOn, pushFrame, setFrames, moveToWq, setState, readyQueueRemove] using hp
  · simp [schedulerBlockOn, pushFrame, setFrames, moveToWq, setState, readyQueueRemove, hu]
  · simp [schedulerBlockOn, pushFrame, setFrames, moveToWq, setState, readyQueueRemove, hu]

theorem Waits.sleep (secs : ℕ) : Moved c (schedulerSleep c secs) := by
  refine h.moved hawake hended rfl rfl rfl rfl (fun q u hu => ?_) (fun p hp => hp) (fun u hu => ?_)
    fun u hu => ?_
  · exact (mem_filter.mp hu).1
  · simp [schedulerSleep, pushFrame, setFrames, insertSleep, taskSleep, setState, readyQueueRemove, hu]
  · simp [schedulerSleep, pushFrame, setFrames, insertSleep, taskSleep, setState, readyQueueRemove, hu]

theorem Waits.exit : Moved c (beginExit c) := by
  refine h.moved hawake hended rfl rfl rfl rfl (fun q u hu => ?_) (fun p hp => ?_) (fun u hu => ?_)
    fun u hu => ?_
  · exact (mem_filter.mp hu).1
  · exact (mem_filter.mp hp).1
  · simp [beginExit, pushFrame, setFrames, removeFromSchedQueues, removeFromBlockingQueues,
      readyQueueRemove, setState, hu]
  · simp [beginExit, pushFrame, setFrames, removeFromSchedQueues, removeFromBlockingQueues,
      readyQueueRemove, setState, hu]

theorem Waits.sections (n : ℕ) (needResched : Bool) (opened : ℕ → ℕ) (fs : List Frame) :
    Moved c { setFrames c c.active fs with preemptCount := n, needResched, opened } :=
  h.moved hawake hended rfl rfl rfl rfl (fun _ _ hu => hu) (fun _ hp => hp) (fun _ _ => rfl)
    fun u hu => by simp [setFrames, hu]

end Active

theorem Waits.finishExit (h : Waits c) (hpick : c.emptyPick = false)
    (hexit : (c.frames c.active).head? = some .exiting) (hparent : c.parent c.active ∈ c.table) :
    Moved c (finishExit c) ∧ Ended ((finishExit c).frames c.active) ∧
      ¬ Asleep (finishExit c) (c.parent c.active) := by
  have hlock : MayLock c := .inr hexit
  have hset : Moved c (setFrames c c.active [.switchOut, .zombieExit]) :=
    h.sections (h.awake hpick (head_of_mayLock hlock)) (not_ended_of_mayLock hlock) c.preemptCount
      c.needResched c.opened _
  have hfr : (setFrames c c.active [.switchOut, .zombieExit]).frames c.active =
      [.switchOut, .zombieExit] := by simp [setFrames]
  unfold Sched.finishExit
  dsimp only
  split
  · obtain ⟨hready, hawake⟩ := hset.waits.readyTask (t := c.parent c.active) hparent
    exact ⟨hset.same hready, .inl (by rw [hready.frames]; exact hfr), hawake⟩
  · rename_i hnot
    refine ⟨hset, .inl hfr, fun hp => hnot ⟨(hset.waits.asleep _ hp).2.1, hp⟩⟩

theorem Waits.resume (h : Waits c) (hpick : c.emptyPick = false)
    (hparent : Linking c .resume → c.parent c.active ∈ c.table) (hres : resumeFrame c = some c') :
    Moved c c' := by
  unfold resumeFrame at hres
  split at hres
  case h_1 => cases hres
  case h_2 w fs hfs =>
    cases hres
    have hirq : ¬ Ended (c.frames c.active) := by simp [hfs, Ended]
    have hset : ∀ need gs, Moved c (setFrames { c with needResched := need } c.active gs) :=
      fun need gs => h.sections (h.awake hpick (by simp [hfs])) hirq c.preemptCount need c.opened gs
    rcases resumeResched_cases c fs w with ⟨need, gs, -, he⟩ | he <;> rw [he]
    · exact hset need gs
    · have hpop := hset c.needResched fs
      exact hpop.same hpop.waits.rotateLocked
  case h_3 fs hfs =>
    cases hres
    -- the task may be asleep here, and leaves
    have hq : Queues (setFrames c c.active fs) :=
      { h with }
    have hout := hq.switchOut
    refine ⟨hout.waits, hout.asleep, fun u hu => ?_, fun he => ?_, hout.parent, hout.table, hout.fresh⟩
    · rw [hout.frames]
      simp [setFrames, hu]
    · rw [hout.frames]
      have hrest : fs = [.zombieExit] := by
        rcases he with he | he <;> simp_all
      simp [setFrames, Ended, hrest]
  case h_4 now fs hfs =>
    cases hres
    exact h.sections (h.awake hpick (by simp [hfs])) (by simp [hfs, Ended]) c.preemptCount
      c.needResched c.opened fs
  case h_5 node now fs hfs =>
    split at hres
    · rename_i hnode
      cases hres
      have hset : Moved c (setFrames c c.active (.waking (nextSleeping c node) now :: fs)) :=
        h.sections (h.awake hpick (by simp [hfs])) (by simp [hfs, Ended]) c.preemptCount
          c.needResched c.opened _
      unfold wakeUpSleepingCb
      split
      · exact hset
      · set d := setFrames c c.active (.waking (nextSleeping c node) now :: fs)
        have hsleep : Same d { d with sleepingHead := d.sleepingHead.filter (· ≠ node) } :=
          hset.waits.vars _ _ _ _ _
        exact (hset.same hsleep).same (hsleep.waits.readyTask hnode).1
    · cases hres
  case h_6 fs hfs =>
    split at hres
    · cases hres
      exact (h.finishExit hpick (by simp [hfs]) (hparent ⟨rfl, by simp [hfs]⟩)).1
    · cases hres
  case h_7 => cases hres

theorem Waits.apply (h : Waits c) {op : Sched.Op} (hpick : c.emptyPick = false) (hplain : Plain op = true)
    (hen : Sched.Enabled c op) (hparent : Linking c op → c.parent c.active ∈ c.table)
    (hop : op.apply c = some c') : Moved c c' := by
  cases op with
  | spawn | spawnThread | exitGroup | reap => cases hplain
  | ready t =>
    cases hop
    exact (h.readyTask hen.2.1).1.moved
  | sleep secs =>
    cases hop
    exact h.sleep (h.awake hpick (head_of_mayLock (.inl hen.1))) (not_ended_of_outside hen.1) secs
  | blockOn w =>
    cases hop
    cases w with
    | zombies _ => cases hplain
    | other n =>
      exact h.blockOn (h.awake hpick (head_of_mayLock (.inl hen.1))) (not_ended_of_outside hen.1) n
  | blockOnLocked w =>
    cases hop
    cases w with
    | zombies _ => cases hplain
    | other n =>
      have hblock := h.blockOn (h.awake hpick (head_of_mayLock hen.1)) (not_ended_of_mayLock hen.1) n
      have hleave : Same (schedulerBlockOn c (.other n)) (leaveSection (schedulerBlockOn c (.other n))) :=
        hblock.waits.vars _ _ _ _ _
      exact (hblock.same hleave).same hleave.waits.resched
  | wakeSleeping =>
    cases hop
    exact h.sections (h.awake hpick (head_of_mayLock (.inl hen))) (not_ended_of_outside hen)
      c.preemptCount c.needResched c.opened _
  | rotate =>
    cases hop
    exact h.sections (h.awake hpick (head_of_mayLock (.inl hen))) (not_ended_of_outside hen)
      c.preemptCount c.needResched c.opened _
  | disable =>
    cases hop
    exact Same.moved (h.vars _ _ _ _ _ : Same c (schedulerDisablePreempt c))
  | enable =>
    cases hop
    have hleave : Same c (leaveSection c) := h.vars _ _ _ _ _
    split_ifs with hout
    · exact h.sections (h.awake hpick (head_of_mayLock hen.1)) (not_ended_of_mayLock hen.1) _
        c.needResched _ _
    · exact (hleave.trans hleave.waits.resched).moved
  | exit =>
    cases hop
    exact h.exit (h.awake hpick (head_of_mayLock (.inl hen.1))) (not_ended_of_outside hen.1)
  | irqTick =>
    cases hop
    exact Same.moved (h.vars _ _ _ _ _ : Same c { c with ticks := (c.ticks + 1) % 2 ^ 32 })
  | irqPost t =>
    cases hop
    have hin : Same c (schedulerDisablePreempt c) := h.vars _ _ _ _ _
    have hready := (hin.waits.readyTask (t := t) hen.2.1.1).1
    have hleave : Same (schedulerReadyTask (schedulerDisablePreempt c) t)
        (leaveSection (schedulerReadyTask (schedulerDisablePreempt c) t)) :=
      hready.waits.vars _ _ _ _ _
    exact (((hin.trans hready).trans hleave).trans hleave.waits.resched).moved
  | irqReady t =>
    cases hop
    exact (h.readyTask hen.2.1).1.moved
  | resume => exact h.resume hpick hparent hop

theorem Waits.destroy (h : Waits c) (hne : t ≠ c.active) : Waits (Sched.taskDestroy c t) := by
  have hleft : ∀ p, Asleep (Sched.taskDestroy c t) p → Asleep c p ∧ p ≠ t := fun p hp => by
    obtain ⟨hmem, hpt⟩ := mem_filter.mp hp
    exact ⟨hmem, by simpa using hpt⟩
  have hmem : ∀ u ∈ c.table, u ≠ t → u ∈ (Sched.taskDestroy c t).table := fun u hu hut =>
    mem_filter.mpr ⟨hu, by simpa using hut⟩
  refine ⟨⟨hmem _ h.active_mem hne.symm, fun q u hu => ?_, fun u hu => ?_, h.table_nodup.filter _,
    fun p hp => ?_⟩, fun hpick hp => h.away hpick (hleft _ hp).1⟩
  · obtain ⟨hold, hut⟩ := mem_filter.mp hu
    exact hmem u (h.ready_mem q u hold) (by simpa using hut)
  · exact h.table_lt u (mem_filter.mp hu).1
  · obtain ⟨hold, hpt⟩ := hleft p hp
    obtain ⟨htable, hstate, hready⟩ := h.asleep p hold
    refine ⟨hmem p htable hpt, ?_, fun q hq => hready q (mem_filter.mp hq).1⟩
    rw [← hstate]
    exact update_of_ne hpt _ _

theorem Waits.activate (h : Waits c) (priority : Priority) (tgid : ℕ) :
    let c' := activateTask c priority tgid
    Waits c' ∧ (∀ p, Asleep c' p → Asleep c p) ∧ c'.table = c.table ++ [c.fresh] ∧
      c'.fresh = c.fresh + 1 ∧ ∀ u, u ≠ c.fresh → c'.frames u = c.frames u ∧ c'.parent u = c.parent u := by
  intro c'
  have hnew : c.fresh ∉ c.table := fun hmem => absurd (h.table_lt _ hmem) (lt_irrefl _)
  set d : Cpu :=
    { c with
      table := c.table ++ [c.fresh]
      fresh := c.fresh + 1
      priority := update c.priority c.fresh priority
      tgid := update c.tgid c.fresh tgid
      parent := update c.parent c.fresh c.active
      state := update c.state c.fresh .ready
      frames := update c.frames c.fresh []
      opened := update c.opened c.fresh 0 }
  have hactive : c.active ≠ c.fresh := fun heq => hnew (heq ▸ h.active_mem)
  have hasleep : ¬ Asleep d c.fresh := fun hp => hnew (h.asleep c.fresh hp).1
  have hw : Waits d := by
    refine ⟨⟨mem_append_left _ h.active_mem, fun q u hu => mem_append_left _ (h.ready_mem q u hu),
      fun u hu => ?_, ?_, fun p hp => ?_⟩, fun hpick hp => ?_⟩
    · rcases mem_append.mp hu with hold | hlast
      · exact (h.table_lt u hold).trans (Nat.lt_succ_self _)
      · rw [mem_singleton.mp hlast]
        exact Nat.lt_succ_self _
    · exact h.table_nodup.append (nodup_singleton _) fun u hu hlast =>
        hnew (mem_singleton.mp hlast ▸ hu)
    · obtain ⟨hmem, hstate, hready⟩ := h.asleep p hp
      have hne : p ≠ c.fresh := fun heq => hnew (heq ▸ hmem)
      exact ⟨mem_append_left _ hmem, (update_of_ne hne _ _).trans hstate, hready⟩
    · have hfr := h.away hpick hp
      rwa [← show d.frames c.active = c.frames c.active from update_of_ne hactive _ _] at hfr
  have hadm : Same d c' := hw.admit (mem_append_right _ (mem_singleton_self _)) hasleep
  refine ⟨hadm.waits, hadm.asleep, hadm.table, hadm.fresh, fun u hu => ?_⟩
  rw [hadm.frames, hadm.parent]
  exact ⟨update_of_ne hu _ _, update_of_ne hu _ _⟩

theorem Waits.fallAsleep (h : Waits c) : Waits (schedulerBlockOn c (.zombies c.active)) ∧ ∀ p,
    Asleep (schedulerBlockOn c (.zombies c.active)) p → p = c.active ∨ Asleep c p := by
  have hasleep : ∀ p, Asleep (schedulerBlockOn c (.zombies c.active)) p → p = c.active ∨ Asleep c p := by
    intro p hp
    by_cases hpa : p = c.active
    · exact .inl hpa
    · refine .inr ?_
      have hq : WaitQueue.zombies p ≠ .zombies c.active := fun heq => hpa (WaitQueue.zombies.inj heq)
      simpa [Asleep, schedulerBlockOn, pushFrame, setFrames, moveToWq, setState, readyQueueRemove, hq]
        using hp
  refine ⟨⟨⟨h.active_mem, fun q u hu => h.ready_mem q u (mem_filter.mp hu).1, h.table_lt,
    h.table_nodup, fun p hp => ?_⟩, fun _ _ => ?_⟩, hasleep⟩
  · by_cases hpa : p = c.active
    · subst hpa
      refine ⟨h.active_mem, ?_, fun q hq => ?_⟩
      · simp [schedulerBlockOn, pushFrame, setFrames, moveToWq, setState]
      · simp [schedulerBlockOn, pushFrame, setFrames, moveToWq, setState, readyQueueRemove] at hq
    · obtain ⟨hmem, hstate, hready⟩ := h.asleep p ((hasleep p hp).resolve_left hpa)
      refine ⟨hmem, ?_, fun q hq => hready q (mem_filter.mp hq).1⟩
      simpa [schedulerBlockOn, pushFrame, setFrames, moveToWq, setState, readyQueueRemove, hpa] using hstate
  · simp [schedulerBlockOn, pushFrame, setFrames, moveToWq]

end Moves

structure Inv (s : Sys) : Prop where
  waits : Waits s.cpu
  unserved : ∀ p, Asleep s.cpu p → ∃ w, s.waiting p = some w ∧ s.found p w = none
  listed : ∀ p, ∀ z ∈ s.zombies p, z ∈ s.cpu.table ∧ s.cpu.parent z = p ∧ Ended (s.cpu.frames z)
  ordered : ∀ p, (s.zombies p).Pairwise fun z z' => s.stamp z < s.stamp z'
  stamped : ∀ p, ∀ z ∈ s.zombies p, s.stamp z < s.pushes
  gone : ∀ e ∈ s.destroyed, e.1 < s.cpu.fresh ∧ e.1 ∉ s.cpu.table
  once : (s.destroyed.map Prod.fst).Nodup
  taken : ∀ z, (z, true) ∈ s.destroyed → z ∈ s.taken (s.cpu.parent z)

section Steps

variable {s s' : Sys} {t : ℕ}

theorem found_none {w : Wait} {p : ℕ} (h : s.found p w = none) (hpid : s'.pid = s.pid)
    (hsub : (s'.zombies p).Sublist (s.zombies p)) : s'.found p w = none := by
  cases w with
  | any =>
    have hnil : s.zombies p = [] := head?_eq_none_iff.mp h
    rw [hnil, sublist_nil] at hsub
    exact head?_eq_none_iff.mpr hsub
  | pid v =>
    refine find?_eq_none.mpr fun z hz => ?_
    rw [hpid]
    exact find?_eq_none.mp h z (hsub.subset hz)

theorem Inv.destroy (h : Inv s) (ht : t ∈ s.cpu.table) (hne : t ≠ s.cpu.active)
    (htaken : s.IsZombie t → t ∈ s.taken (s.cpu.parent t)) : Inv (s.taskDestroy t) where
  waits := h.waits.destroy hne
  unserved := fun p hp => by
    obtain ⟨w, hw, hfound⟩ := h.unserved p (mem_filter.mp hp).1
    exact ⟨w, hw, found_none hfound rfl filter_sublist⟩
  listed := fun p z hz => by
    obtain ⟨hold, hzt⟩ := mem_filter.mp hz
    obtain ⟨hmem, hparent, hended⟩ := h.listed p z hold
    exact ⟨mem_filter.mpr ⟨hmem, hzt⟩, hparent, hended⟩
  ordered := fun p => (h.ordered p).sublist filter_sublist
  stamped := fun p z hz => h.stamped p z (mem_filter.mp hz).1
  gone := fun e he => by
    rcases mem_append.mp he with hold | hlast
    · obtain ⟨hlt, hout⟩ := h.gone e hold
      exact ⟨hlt, fun hin => hout (mem_filter.mp hin).1⟩
    · rw [mem_singleton.mp hlast]
      refine ⟨h.waits.table_lt t ht, fun hin => ?_⟩
      have hself := (mem_filter.mp hin).2
      simp at hself
  once := by
    have hnew : t ∉ s.destroyed.map Prod.fst := fun hmem => by
      obtain ⟨e, he, rfl⟩ := mem_map.mp hmem
      exact (h.gone e he).2 ht
    change ((s.destroyed ++ [(t, _)]).map Prod.fst).Nodup
    rw [map_append]
    refine h.once.append (nodup_singleton _) fun u hu hlast => hnew ?_
    have hut : u = t := mem_singleton.mp hlast
    exact hut ▸ hu
  taken := fun z hz => by
    rcases mem_append.mp hz with hold | hlast
    · exact h.taken z hold
    · obtain ⟨rfl, hzombie⟩ := Prod.mk.inj (mem_singleton.mp hlast)
      exact htaken (of_decide_eq_true hzombie.symm)

theorem Inv.take (h : Inv s) (p z : ℕ) : Inv (s.take p z) := by
  have hsub : ∀ p', ((s.take p z).zombies p').Sublist (s.zombies p') := fun p' => by
    by_cases hp : p' = p
    · subst hp
      simp only [Sys.take, update_self]
      exact filter_sublist
    · simp only [Sys.take, update_of_ne hp]
      exact Sublist.refl _
  refine ⟨h.waits, fun p' hp' => ?_, fun p' u hu => h.listed p' u ((hsub p').subset hu),
    fun p' => (h.ordered p').sublist (hsub p'), fun p' u hu => h.stamped p' u ((hsub p').subset hu),
    h.gone, h.once, fun u hu => ?_⟩
  · obtain ⟨w, hw, hfound⟩ := h.unserved p' hp'
    exact ⟨w, hw, found_none hfound rfl (hsub p')⟩
  · have hold := h.taken u hu
    change u ∈ update s.taken p (s.taken p ++ [z]) (s.cpu.parent u)
    by_cases hp : s.cpu.parent u = p
    · rw [hp, update_self]
      exact mem_append_left _ (hp ▸ hold)
    · rwa [update_of_ne hp]

theorem mem_of_found {p z : ℕ} {w : Wait} (h : s.found p w = some z) : z ∈ s.zombies p := by
  cases w with
  | any => exact mem_of_head? h
  | pid v => exact mem_of_find?_eq_some h

theorem Inv.setWaiting (h : Inv s) (hawake : ¬ Asleep s.cpu s.cpu.active) (w : Option Wait)
    (result : ℕ → ℤ) :
    Inv { s with waiting := update s.waiting s.cpu.active w, result } := by
  refine { h with unserved := fun p hp => ?_ }
  obtain ⟨w', hw, hfound⟩ := h.unserved p hp
  have hne : p ≠ s.cpu.active := by
    rintro rfl
    exact hawake hp
  exact ⟨w', by simpa [hne] using hw, found_none hfound rfl (Sublist.refl _)⟩

theorem Inv.turn (h : Inv s) (hpick : s.cpu.emptyPick = false) (hout : Outside s.cpu)
    (hturn : s.turn = some s') : Inv s' := by
  have hawake := h.waits.awake hpick (head_of_mayLock (.inl hout))
  unfold Sys.turn at hturn
  dsimp only at hturn
  split at hturn
  case h_1 => cases hturn
  case h_2 w hw =>
    split at hturn
    case h_1 hnone =>
      cases hturn
      -- the list has nothing for the task, which goes to sleep
      obtain ⟨hwaits, hasleep⟩ := h.waits.fallAsleep
      refine ⟨hwaits, fun p hp => ?_, fun p z hz => ?_, h.ordered, h.stamped, h.gone, h.once, h.taken⟩
      · rcases hasleep p hp with rfl | hold
        · exact ⟨w, hw, found_none hnone rfl (Sublist.refl _)⟩
        · obtain ⟨w', hw', hfound⟩ := h.unserved p hold
          exact ⟨w', hw', found_none hfound rfl (Sublist.refl _)⟩
      · obtain ⟨hmem, hparent, hended⟩ := h.listed p z hz
        have hne : z ≠ s.cpu.active := by
          rintro rfl
          exact not_ended_of_outside hout hended
        refine ⟨hmem, hparent, ?_⟩
        simpa [schedulerBlockOn, pushFrame, setFrames, moveToWq, setState, readyQueueRemove, hne]
          using hended
    case h_2 z hz =>
      cases hturn
      obtain ⟨hmem, hparent, hended⟩ := h.listed _ z (mem_of_found hz)
      have hne : z ≠ s.cpu.active := by
        rintro rfl
        exact not_ended_of_outside hout hended
      have htake := h.take s.cpu.active z
      unfold Sys.taskReap
      split
      · exact htake.setWaiting hawake none _
      · have hdestroy := htake.destroy (t := z) hmem hne fun _ => by
          change z ∈ update s.taken s.cpu.active _ (s.cpu.parent z)
          rw [hparent, update_self]
          exact mem_append_right _ (mem_singleton_self z)
        exact hdestroy.setWaiting (fun hp => hawake (mem_filter.mp hp).1) none _

theorem Inv.spawn (h : Inv s) (priority : Priority) (tgid : ℕ) : Inv (s.spawn priority tgid) := by
  obtain ⟨hwaits, hasleep, htable, hfresh, hold⟩ := h.waits.activate priority tgid
  have hlt : ∀ p, ∀ z ∈ s.zombies p, z ≠ s.cpu.fresh := fun p z hz =>
    (h.waits.table_lt z (h.listed p z hz).1).ne
  have hgone : ∀ e ∈ s.destroyed, e.1 ≠ s.cpu.fresh := fun e he => (h.gone e he).1.ne
  refine ⟨hwaits, fun p hp => ?_, fun p z hz => ?_, h.ordered, h.stamped, fun e he => ?_, h.once,
    fun z hz => ?_⟩
  · obtain ⟨w, hw, hfound⟩ := h.unserved p (hasleep p hp)
    refine ⟨w, hw, ?_⟩
    cases w with
    | any => exact hfound
    | pid v =>
      -- the new pid is that of no zombie
      refine find?_eq_none.mpr fun z hz => ?_
      have hz' := find?_eq_none.mp hfound z hz
      simpa [Sys.spawn, hlt p z hz] using hz'
  · obtain ⟨hmem, hparent, hended⟩ := h.listed p z hz
    obtain ⟨hframes, hparent'⟩ := hold z (hlt p z hz)
    refine ⟨?_, hparent'.trans hparent, ?_⟩
    · exact htable ▸ mem_append_left _ hmem
    · change Ended ((activateTask s.cpu priority tgid).frames z)
      rwa [hframes]
  · obtain ⟨hltf, hout⟩ := h.gone e he
    change e.1 < (activateTask s.cpu priority tgid).fresh ∧
      e.1 ∉ (activateTask s.cpu priority tgid).table
    rw [htable, hfresh]
    refine ⟨hltf.trans (Nat.lt_succ_self _), fun hin => ?_⟩
    rcases mem_append.mp hin with hin | hin
    · exact hout hin
    · exact hgone e he (mem_singleton.mp hin)
  · have hparent := (hold z (hgone _ hz)).2
    change z ∈ s.taken ((activateTask s.cpu priority tgid).parent z)
    rw [hparent]
    exact h.taken z hz

theorem Inv.moved (h : Inv s) {c : Cpu} (hm : Moved s.cpu c) : Inv { s with cpu := c } := by
  refine ⟨hm.waits, fun p hp => ?_, fun p z hz => ?_, h.ordered, h.stamped, fun e he => ?_, h.once,
    fun z hz => ?_⟩
  · obtain ⟨w, hw, hfound⟩ := h.unserved p (hm.asleep p hp)
    exact ⟨w, hw, found_none hfound rfl (Sublist.refl _)⟩
  · obtain ⟨hmem, hparent, hended⟩ := h.listed p z hz
    refine ⟨hm.table.symm ▸ hmem, hm.parent.symm ▸ hparent, ?_⟩
    by_cases hz : z = s.cpu.active
    · subst hz
      exact hm.ended hended
    · exact (hm.frames z hz).symm ▸ hended
  · exact ⟨hm.fresh.symm ▸ (h.gone e he).1, hm.table.symm ▸ (h.gone e he).2⟩
  · exact hm.parent.symm ▸ h.taken z hz

theorem Inv.linked (h : Inv s) {c : Cpu} (hm : Moved s.cpu c) (hended : Ended (c.frames s.cpu.active))
    (hexit : ¬ Ended (s.cpu.frames s.cpu.active)) (hawake : ¬ Asleep c (s.cpu.parent s.cpu.active)) :
    Inv { s.pushZombie with cpu := c } := by
  have hm' := h.moved hm
  have hnew : ∀ p, s.cpu.active ∉ s.zombies p := fun p hz => hexit (h.listed p _ hz).2.2
  have hzombies : ∀ p z, z ∈ s.pushZombie.zombies p →
      z ∈ s.zombies p ∨ (p = s.cpu.parent s.cpu.active ∧ z = s.cpu.active) := by
    intro p z hz
    by_cases hp : p = s.cpu.parent s.cpu.active
    · subst hp
      simp only [Sys.pushZombie, update_self] at hz
      rcases mem_append.mp hz with hz | hz
      · exact .inl hz
      · exact .inr ⟨rfl, mem_singleton.mp hz⟩
    · simp only [Sys.pushZombie, update_of_ne hp] at hz
      exact .inl hz
  have hstamp : ∀ p, ∀ z ∈ s.zombies p, s.pushZombie.stamp z = s.stamp z := by
    intro p z hz
    have hne : z ≠ s.cpu.active := by
      rintro rfl
      exact hnew p hz
    exact update_of_ne hne _ _
  have hself : s.pushZombie.stamp s.cpu.active = s.pushes := update_self _ _ _
  refine ⟨hm'.waits, fun p hp => ?_, fun p z hz => ?_, fun p => ?_, fun p z hz => ?_, hm'.gone, hm'.once,
    hm'.taken⟩
  · have hne : p ≠ s.cpu.parent s.cpu.active := by
      rintro rfl
      exact hawake hp
    obtain ⟨w, hw, hfound⟩ := hm'.unserved p hp
    refine ⟨w, hw, found_none hfound rfl ?_⟩
    simp only [Sys.pushZombie, update_of_ne hne]
    exact Sublist.refl _
  · rcases hzombies p z hz with hold | ⟨rfl, rfl⟩
    · exact hm'.listed p z hold
    · exact ⟨hm.table.symm ▸ h.waits.active_mem, by rw [hm.parent], hended⟩
  · have hold : (s.zombies p).Pairwise fun z z' => s.pushZombie.stamp z < s.pushZombie.stamp z' := by
      refine (h.ordered p).imp_of_mem fun {z z'} hz hz' hlt => ?_
      rwa [hstamp p z hz, hstamp p z' hz']
    by_cases hp : p = s.cpu.parent s.cpu.active
    · subst hp
      simp only [Sys.pushZombie, update_self]
      refine pairwise_append.mpr ⟨hold, pairwise_singleton _ _, fun z hz z' hz' => ?_⟩
      rw [mem_singleton.mp hz']
      have hlt := h.stamped _ z hz
      rw [← hstamp _ z hz, ← hself] at hlt
      exact hlt
    · simp only [Sys.pushZombie, update_of_ne hp]
      exact hold
  · rcases hzombies p z hz with hold | ⟨-, rfl⟩
    · change s.pushZombie.stamp z < s.pushes + 1
      rw [hstamp p z hold]
      exact (h.stamped p z hold).trans (Nat.lt_succ_self _)
    · change s.pushZombie.stamp s.cpu.active < s.pushes + 1
      rw [hself]
      exact Nat.lt_succ_self _

def NoZombies (s : Sys) (tgid : ℕ) : Prop :=
  ∀ t ∈ s.cpu.table, t ≠ s.cpu.active → s.cpu.tgid t = tgid → ¬ s.IsZombie t

theorem NoZombies.destroy {g : ℕ} (h : NoZombies s g) (t : ℕ) : NoZombies (s.taskDestroy t) g := by
  intro u hu hne hg hz
  obtain ⟨hmem, hut⟩ := mem_filter.mp hu
  have hut : u ≠ t := by simpa using hut
  refine h u hmem hne hg ?_
  rcases hz with hstate | hlist
  · have hsame : (s.taskDestroy t).cpu.state u = s.cpu.state u := update_of_ne hut _ _
    exact .inl (hsame ▸ hstate)
  · exact .inr (mem_filter.mp hlist).1

theorem Inv.exitTgid {g : ℕ} (l : List ℕ) (h : Inv s) (hnone : NoZombies s g) (hnodup : l.Nodup)
    (hl : ∀ t ∈ l, t ∈ s.cpu.table) : Inv (l.foldl (Sys.exitTgidCb g) s) ∧
    (l.foldl (Sys.exitTgidCb g) s).cpu.active = s.cpu.active ∧ (l.foldl (Sys.exitTgidCb g) s).cpu.frames =
    s.cpu.frames ∧ (l.foldl (Sys.exitTgidCb g) s).cpu.emptyPick = s.cpu.emptyPick := by
  induction l generalizing s with
  | nil => exact ⟨h, rfl, rfl, rfl⟩
  | cons t l ih =>
    obtain ⟨hnot, hnodup⟩ := nodup_cons.mp hnodup
    have ht := hl t mem_cons_self
    rw [foldl_cons]
    by_cases hcb : g = s.cpu.tgid t ∧ t ≠ s.cpu.active
    · rw [Sys.exitTgidCb, if_pos hcb]
      have hdestroy := h.destroy ht hcb.2 fun hz => absurd hz (hnone t ht hcb.2 hcb.1.symm)
      refine ih hdestroy (hnone.destroy t) hnodup fun u hu => ?_
      have hne : u ≠ t := fun heq => hnot (heq ▸ hu)
      exact mem_filter.mpr ⟨hl u (mem_cons_of_mem _ hu), by simpa using hne⟩
    · rw [Sys.exitTgidCb, if_neg hcb]
      exact ih h hnone hnodup fun u hu => hl u (mem_cons_of_mem _ hu)

theorem Inv.exitGroup (h : Inv s) (hpick : s.cpu.emptyPick = false) (hout : Outside s.cpu)
    (hnone : NoZombies s (s.cpu.tgid s.cpu.active)) : Inv s.schedulerExitGroup := by
  obtain ⟨hinv, hactive, hframes, hpick'⟩ := h.exitTgid s.cpu.table hnone h.waits.table_nodup
    fun _ ht => ht
  have hout' : Outside (s.cpu.table.foldl (Sys.exitTgidCb (s.cpu.tgid s.cpu.active)) s).cpu := by
    unfold Outside
    rw [hactive, hframes]
    exact hout
  exact hinv.moved (hinv.waits.exit (hinv.waits.awake (hpick'.trans hpick) (head_of_mayLock (.inl hout')))
    (not_ended_of_outside hout'))

theorem Inv.step {op : Op} (h : Inv s) (hset : Settled s op) (hstep : step s op = some s') : Inv s' := by
  unfold Reaping.step at hstep
  split at hstep
  case isFalse => cases hstep
  case isTrue hen =>
    obtain ⟨hen, hpick⟩ := hen
    cases op with
    | cpu op =>
      obtain ⟨hplain, hop, -, hparent⟩ := hen
      obtain ⟨c, hc, rfl⟩ := map_eq_some_iff.mp hstep
      have hm := h.waits.apply hpick hplain hop hparent hc
      split
      case isFalse => exact h.moved hm
      case isTrue hlink =>
        obtain ⟨rfl, hexit⟩ := hlink
        obtain ⟨f, fs, hfs⟩ : ∃ f fs, s.cpu.frames s.cpu.active = f :: fs := by
          cases hfr : s.cpu.frames s.cpu.active with
          | nil => simp [hfr] at hexit
          | cons f fs => exact ⟨f, fs, rfl⟩
        obtain rfl : f = .exiting := by simpa [hfs] using hexit
        have hc' : (if s.cpu.opened s.cpu.active = 0 then some (finishExit s.cpu) else none) = some c := by
          simpa only [Sched.Op.apply, resumeFrame, hfs] using hc
        split at hc' <;> cases hc'
        obtain ⟨-, hended, hawake⟩ := h.waits.finishExit hpick hexit (hparent ⟨rfl, hexit⟩)
        exact h.linked hm hended (not_ended_of_mayLock (.inr hexit)) hawake
    | spawn priority =>
      cases hstep
      exact h.spawn priority s.nextPid
    | spawnThread =>
      cases hstep
      exact h.spawn _ _
    | spawnFails =>
      cases hstep
      exact { h with unserved := fun p hp =>
        (h.unserved p hp).imp fun w hw => ⟨hw.1, found_none hw.2 rfl (Sublist.refl _)⟩ }
    | exitGroup =>
      cases hstep
      exact h.exitGroup hpick hen.1.1 hset
    | wait =>
      cases hstep
      exact h.setWaiting (h.waits.awake hpick (head_of_mayLock (.inl hen.1.1))) _ s.result
    | waitpid pid =>
      cases hstep
      exact h.setWaiting (h.waits.awake hpick (head_of_mayLock (.inl hen.1.1))) _ s.result
    | turn => exact h.turn hpick hen hstep

end Steps

theorem Inv.initial : Inv initial where
  waits := ⟨⟨by decide, by decide, by decide, by decide, fun _ hp => absurd hp not_mem_nil⟩,
    fun _ hp => absurd hp not_mem_nil⟩
  unserved := fun _ hp => absurd hp not_mem_nil
  listed := fun _ _ hz => absurd hz not_mem_nil
  ordered := fun _ => Pairwise.nil
  stamped := fun _ _ hz => absurd hz not_mem_nil
  gone := fun _ he => absurd he not_mem_nil
  once := nodup_nil
  taken := fun _ hz => absurd hz not_mem_nil

structure Served (s : Sys) : Prop where
  wait : ∀ p, Asleep s.cpu p → s.waiting p = some .any → s.zombies p = []
  waitpid : ∀ p pid, Asleep s.cpu p → s.waiting p = some (.pid pid) →
    ∀ z ∈ s.zombies p, (s.pid z : ℤ) ≠ pid
  once : (s.destroyed.map Prod.fst).Nodup
  taken : ∀ z, (z, true) ∈ s.destroyed → z ∈ s.taken (s.cpu.parent z)

def ReturnsOldest (s s' : Sys) : Prop :=
  s.waiting s.cpu.active = some .any → s'.waiting s.cpu.active = none →
    ∃ z ∈ s.zombies s.cpu.active, s'.result s.cpu.active = s.pid z ∧
      ∀ z' ∈ s.zombies s.cpu.active, s.stamp z ≤ s.stamp z'

theorem Inv.served {s : Sys} (h : Inv s) : Served s := by
  refine ⟨fun p hp hw => ?_, fun p pid hp hw z hz heq => ?_, h.once, h.taken⟩
  · obtain ⟨w, hw', hfound⟩ := h.unserved p hp
    obtain rfl := some.inj (hw.symm.trans hw')
    exact head?_eq_none_iff.mp hfound
  · obtain ⟨w, hw', hfound⟩ := h.unserved p hp
    obtain rfl := some.inj (hw.symm.trans hw')
    exact find?_eq_none.mp hfound z hz (by simpa using heq.symm)

theorem Inv.returnsOldest {s s' : Sys} (h : Inv s) (hset : Settled s .turn)
    (hstep : Reaping.step s .turn = some s') : ReturnsOldest s s' := by
  intro hw hret
  unfold Reaping.step at hstep
  split at hstep
  case isFalse => cases hstep
  case isTrue hen =>
    simp only [Op.apply, Sys.turn, hw] at hstep
    split at hstep
    case h_1 =>
      cases hstep
      exact absurd (hret.symm.trans hw) (by simp)
    case h_2 z hz =>
      cases hstep
      have hlt : s.pid z < 128 := hset hw z hz
      obtain ⟨rest, hlist⟩ := head?_eq_some_iff.mp hz
      refine ⟨z, mem_of_found hz, ?_, fun z' hz' => ?_⟩
      · exact (update_self _ _ _).trans (toInt8_of_lt hlt)
      · have horder := h.ordered s.cpu.active
        rw [hlist] at horder hz'
        rcases mem_cons.mp hz' with rfl | hz'
        · exact le_rfl
        · exact ((pairwise_cons.mp horder).1 z' hz').le

/-- In every run in which `sys_wait` takes no pid above 127 and no exit of a group
finds a zombie of this group, waits and exits go together in any order. -/
theorem waits_and_exits_agree {s : Sys} (h : Reaches step Settled initial s) :
    Served s ∧ ∀ s', Settled s .turn → step s .turn = some s' → ReturnsOldest s s' := by
  have hinv : Inv s := h.invariant Inv.initial fun _ _ _ hinv hset hstep => hinv.step hset hstep
  exact ⟨hinv.served, fun s' hset hstep => hinv.returnsOldest hset hstep⟩

def twoChildren : List Op :=
  [.spawn normal, .spawn high, .cpu .exit, .cpu .resume, .cpu .resume, .wait, .turn, .spawn low, .wait,
    .turn, .cpu .resume, .cpu .exit, .cpu .resume]

theorem waits_and_exits_agree_twoChildren : ∃ s s', Reaches step Settled initial s ∧
    step s .turn = some s' ∧ s.destroyed = [(2, true)] ∧ s'.destroyed = [(2, true), (3, true)] ∧
    s'.result 1 = 3 ∧ Served s ∧ ReturnsOldest s s' := by
  obtain ⟨s, hrun, ⟨hdestroyed, hset⟩, hnext⟩ : ∃ s, run step initial twoChildren = some s ∧
      (s.destroyed = [(2, true)] ∧ Settled s .turn) ∧
      ((step s .turn).any fun s' => decide (s'.destroyed = [(2, true), (3, true)] ∧ s'.result 1 = 3)) =
        true :=
    exists_of_run_any twoChildren (by decide +kernel)
  have hreach : Reaches step Settled initial s := .of_run twoChildren (by decide +kernel) hrun
  obtain ⟨s', hstep, hs'⟩ := (any_eq_true _ _).mp hnext
  obtain ⟨hd', hresult⟩ := of_decide_eq_true hs'
  obtain ⟨hserved, hreturns⟩ := waits_and_exits_agree hreach
  exact ⟨s, s', hreach, hstep, hdestroyed, hd', hresult, hserved, hreturns s' hset hstep⟩

def childAbove : List Op :=
  List.flatten [[.spawn normal], List.replicate 126 .spawnFails,
    [.spawn high, .cpu .exit, .cpu .resume, .cpu .resume, .wait]]

def groupAgain : List Op :=
  List.flatten [[.spawn normal, .spawn high, .cpu .exit, .cpu .resume, .cpu .resume],
    List.replicate 255 .spawnFails, [.spawn high, .exitGroup]]

/-- `sys_wait` returns -128 for the only zombie, whose pid is 128; and a zombie is
destroyed in the list of its parent. -/
theorem wait_misses_children :
    (∃ s s', Reaches step anyAction initial s ∧ step s .turn = some s' ∧ s.zombies 1 = [2] ∧
      s.pid 2 = 128 ∧ s'.result 1 = -128 ∧ ¬ ReturnsOldest s s') ∧
    ∃ s, Reaches step anyAction initial s ∧ s.destroyed = [(2, true)] ∧ s.taken 1 = [] ∧ ¬ Served s := by
  constructor
  · obtain ⟨s, hreach, ⟨hzombies, hpid, hactive, hwaiting⟩, hnext⟩ : ∃ s, Reaches step anyAction initial s ∧
        (s.zombies 1 = [2] ∧ s.pid 2 = 128 ∧ s.cpu.active = 1 ∧ s.waiting 1 = some .any) ∧
        ((step s .turn).any fun s' => decide (s'.result 1 = -128 ∧ s'.waiting 1 = none)) = true :=
      Reaches.of_run_any childAbove (by decide +kernel)
    obtain ⟨s', hstep, hs'⟩ := (any_eq_true _ _).mp hnext
    obtain ⟨hresult, hret⟩ := of_decide_eq_true hs'
    refine ⟨s, s', hreach, hstep, hzombies, hpid, hresult, fun hold => ?_⟩
    unfold ReturnsOldest at hold
    rw [hactive] at hold
    obtain ⟨z, hz, heq, -⟩ := hold hwaiting hret
    rw [hzombies, mem_singleton] at hz
    rw [hz, hpid, hresult] at heq
    exact absurd heq (by decide)
  · obtain ⟨s, hreach, hdestroyed, htaken, hparent⟩ : ∃ s, Reaches step anyAction initial s ∧
        s.destroyed = [(2, true)] ∧ s.taken 1 = [] ∧ s.cpu.parent 2 = 1 :=
      Reaches.of_run_any groupAgain (by decide +kernel)
    refine ⟨s, hreach, hdestroyed, htaken, fun hserved => ?_⟩
    have hmem := hserved.taken 2 (by rw [hdestroyed]; exact mem_singleton_self _)
    rw [hparent, htaken] at hmem
    exact absurd hmem not_mem_nil

end RvMiniOs.Sched.Reaping
