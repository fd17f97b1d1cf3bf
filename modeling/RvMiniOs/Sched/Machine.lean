import RvMiniOs.Lib.Runs
import Mathlib.Algebra.Group.Nat.Defs
import Mathlib.Data.Fin.Basic
import Mathlib.Data.List.FinRange
import Mathlib.Logic.Function.Basic

/-!
# The scheduler as a machine of calls

The functions of `kernel/core/sched/scheduler.c` with the task operations of
`task.c` they call, on one processor. A step is one call made by the active
task, one interrupt handled on top of it, or the next piece of a scheduler
function that a task has begun: a function that may hand the processor over in
the middle leaves its remainder on the task's stack of frames, and the task
takes it up again when it is next dispatched. Interrupts are off inside the
scheduler functions except in `scheduler_enable_preempt` and in
`scheduler_rotate` up to its `irq_save`: these are cut at every access to
`preempt_count` and `need_resched`, and an interrupt may come at each cut.
-/
namespace RvMiniOs.Sched

/-- `enum priority`: an index of the ready queues, 0 the highest. -/
abbrev Priority := Fin 4

abbrev high : Priority := 0
abbrev normal : Priority := 1
abbrev low : Priority := 2
abbrev idlePriority : Priority := 3

inductive TaskState where
  | new | running | ready | sleeping | blocked | terminated | zombie
  deriving DecidableEq, Repr

/-- Where `scheduler_enable_preempt`, or `scheduler_rotate`, is interrupted. -/
inductive Window where
  /-- After the decrement, before `preempt_count` is tested. -/
  | count
  /-- Before `need_resched` is tested. -/
  | need
  /-- Before `need_resched` is cleared. -/
  | clear
  /-- At the beginning of `scheduler_rotate`. -/
  | rotate
  /-- Before the `irq_save` of `scheduler_rotate`. -/
  | pick
  deriving DecidableEq, Repr

/-- What is left of a scheduler function that a task is in. -/
inductive Frame where
  | resched (window : Window)
  /-- A final `switch_out_active`. -/
  | switchOut
  /-- The loop of `scheduler_wake_sleeping`: the node it looks at next, none
  for the head of the list, and the time it began at. -/
  | waking (cursor : Option ℕ) (now : ℕ)
  /-- `task_zombify` in its `release_fds`. -/
  | exiting
  /-- The panic that ends `scheduler_exit`. -/
  | zombieExit
  deriving DecidableEq, Repr

inductive WaitQueue where
  | zombies (owner : ℕ)
  | other (n : ℕ)
  deriving DecidableEq, Repr

/-- The scheduler's variables and the fields of the tasks it uses, the tasks
named by their order of creation; `preemptCount` is a `uint32_t`. The last two
fields and `opened` are ghosts: an empty queue was picked from, a task was
switched out inside one of its own sections, and the number of sections a task
has open. -/
structure Cpu where
  preemptCount : ℕ
  needResched : Bool
  readyQueues : Priority → List ℕ
  highest : Priority
  sleepingHead : List ℕ
  waitQueues : WaitQueue → List ℕ
  active : ℕ
  table : List ℕ
  fresh : ℕ
  priority : ℕ → Priority
  tgid : ℕ → ℕ
  parent : ℕ → ℕ
  state : ℕ → TaskState
  wakeUpTime : ℕ → ℕ
  frames : ℕ → List Frame
  ticks : ℕ
  opened : ℕ → ℕ
  emptyPick : Bool
  switchedInSection : Bool

abbrev itfreq : ℕ := 20

def timeSeconds (s : Cpu) : ℕ :=
  s.ticks / itfreq

def setState (s : Cpu) (t : ℕ) (st : TaskState) : Cpu :=
  { s with state := Function.update s.state t st }

def setFrames (s : Cpu) (t : ℕ) (fs : List Frame) : Cpu :=
  { s with frames := Function.update s.frames t fs }

def pushFrame (s : Cpu) (f : Frame) : Cpu :=
  setFrames s s.active (f :: s.frames s.active)

/-- A node that is already in a list is left where it is. -/
def readyQueueEnqueue (s : Cpu) (t : ℕ) : Cpu :=
  { s with
    readyQueues :=
      if t ∈ s.readyQueues (s.priority t) then s.readyQueues
      else
        Function.update s.readyQueues (s.priority t) (s.readyQueues (s.priority t) ++ [t]) }

def readyQueueRemove (s : Cpu) (t : ℕ) : Cpu :=
  { s with readyQueues := fun q => (s.readyQueues q).filter (· ≠ t) }

def removeFromBlockingQueues (s : Cpu) (t : ℕ) : Cpu :=
  { s with
    sleepingHead := s.sleepingHead.filter (· ≠ t)
    waitQueues := fun w => (s.waitQueues w).filter (· ≠ t) }

def removeFromSchedQueues (s : Cpu) (t : ℕ) : Cpu :=
  removeFromBlockingQueues (readyQueueRemove s t) t

def rotateReadyQueue : List ℕ → List ℕ
  | first :: next :: rest => next :: rest ++ [first]
  | rq => rq

def refreshHighestPrio (s : Cpu) : Cpu :=
  if s.readyQueues s.highest ≠ [] then s
  else
    match (List.finRange 4).find? fun p => s.highest < p ∧ s.readyQueues p ≠ [] with
    | some p => { s with highest := p }
    | none => s

def updateHighest (s : Cpu) (t : ℕ) : Cpu :=
  { s with highest := if s.priority t < s.highest then s.priority t else s.highest }

def taskSwitchActive (s : Cpu) (next : ℕ) : Cpu :=
  let state :=
    if s.state s.active = .running then Function.update s.state s.active .ready else s.state
  { s with state := Function.update state next .running, active := next }

def doCtxSwitch (s : Cpu) (next : ℕ) : Cpu :=
  { taskSwitchActive s next with
    switchedInSection :=
      s.switchedInSection || (decide (next ≠ s.active) && decide (0 < s.opened s.active)) }

def checkAndPreempt (s : Cpu) (t : ℕ) : Cpu :=
  if s.priority t < s.priority s.active then
    if 0 < s.preemptCount then { s with needResched := true } else doCtxSwitch s t
  else s

/-- An empty queue has no first node and gives a bogus task. -/
def switchOutActive (s : Cpu) : Cpu :=
  let s := refreshHighestPrio s
  match s.readyQueues s.highest with
  | [] => { s with emptyPick := true }
  | next :: _ => doCtxSwitch s next

/-- `scheduler_rotate` from its `irq_save` on. -/
def rotateLocked (s : Cpu) : Cpu :=
  let rq := rotateReadyQueue (s.readyQueues s.highest)
  let s := { s with readyQueues := Function.update s.readyQueues s.highest rq }
  match rq with
  | [] => { s with emptyPick := true }
  | next :: _ => if next ≠ s.active then doCtxSwitch s next else s

/-- The whole function, when interrupts are off already. -/
def schedulerRotate (s : Cpu) : Cpu :=
  if 0 < s.preemptCount then s else rotateLocked s

def schedulerAdmit (s : Cpu) (t : ℕ) : Cpu :=
  checkAndPreempt (updateHighest (readyQueueEnqueue s t) t) t

def taskWake (s : Cpu) (t : ℕ) : Cpu :=
  if s.state t = .sleeping ∨ s.state t = .blocked then
    setState (removeFromBlockingQueues s t) t .running
  else s

def schedulerReadyTask (s : Cpu) (t : ℕ) : Cpu :=
  checkAndPreempt (readyQueueEnqueue (updateHighest (taskWake s t) t) t) t

def schedulerDisablePreempt (s : Cpu) : Cpu :=
  { s with
    preemptCount := (s.preemptCount + 1) % 2 ^ 32
    opened := Function.update s.opened s.active (s.opened s.active + 1) }

def leaveSection (s : Cpu) : Cpu :=
  { s with
    preemptCount := if s.preemptCount = 0 then 2 ^ 32 - 1 else s.preemptCount - 1
    opened := Function.update s.opened s.active (s.opened s.active - 1) }

def reschedIfNeeded (s : Cpu) : Cpu :=
  if s.preemptCount = 0 ∧ s.needResched = true then
    schedulerRotate { s with needResched := false }
  else s

/-- The whole function, when interrupts are off already. -/
def schedulerEnablePreempt (s : Cpu) : Cpu :=
  reschedIfNeeded (leaveSection s)

/-- `insert_sleep`: before the first task that wakes up later. -/
def insertSleep (s : Cpu) (t : ℕ) : Cpu :=
  let earlier := fun u => decide (s.wakeUpTime u ≤ s.wakeUpTime t)
  { s with
    sleepingHead :=
      if t ∈ s.sleepingHead then s.sleepingHead
      else s.sleepingHead.takeWhile earlier ++ t :: s.sleepingHead.dropWhile earlier }

def taskSleep (s : Cpu) (t delay : ℕ) : Cpu :=
  { setState s t .sleeping with
    wakeUpTime := Function.update s.wakeUpTime t ((delay + timeSeconds s) % 2 ^ 32) }

def schedulerSleep (s : Cpu) (secs : ℕ) : Cpu :=
  let s := readyQueueRemove s s.active
  pushFrame (insertSleep (taskSleep s s.active secs) s.active) .switchOut

/-- The `wait_node` of a running task is in no list. -/
def moveToWq (s : Cpu) (t : ℕ) (w : WaitQueue) : Cpu :=
  let s := setState (readyQueueRemove s t) t .blocked
  { s with waitQueues := Function.update s.waitQueues w (s.waitQueues w ++ [t]) }

def schedulerBlockOn (s : Cpu) (w : WaitQueue) : Cpu :=
  pushFrame (moveToWq s s.active w) .switchOut

def schedulerBlockOnLocked (s : Cpu) (w : WaitQueue) : Cpu :=
  schedulerEnablePreempt (schedulerBlockOn s w)

def schedulerWakeSleeping (s : Cpu) : Cpu :=
  pushFrame s (.waking s.sleepingHead.head? (timeSeconds s))

/-- The successor of a node in the sleeping list. A node that has been removed
points to itself. -/
def nextSleeping (s : Cpu) (node : ℕ) : Option ℕ :=
  if node ∈ s.sleepingHead then (s.sleepingHead.dropWhile (· ≠ node)).tail.head? else some node

def wakeUpSleepingCb (s : Cpu) (now node : ℕ) : Cpu :=
  if now < s.wakeUpTime node then s
  else
    schedulerReadyTask { s with sleepingHead := s.sleepingHead.filter (· ≠ node) } node

/-- `scheduler_exit` up to the `release_fds` of `task_zombify`. -/
def beginExit (s : Cpu) : Cpu :=
  pushFrame (removeFromSchedQueues (setState s s.active .zombie) s.active) .exiting

/-- `scheduler_exit` from the return of `release_fds` to its last switch. Only
a task itself waits on its zombies. -/
def finishExit (s : Cpu) : Cpu :=
  let p := s.parent s.active
  let s := setFrames s s.active [.switchOut, .zombieExit]
  if s.state p = .blocked ∧ p ∈ s.waitQueues (.zombies p) then schedulerReadyTask s p else s

def taskDestroy (s : Cpu) (t : ℕ) : Cpu :=
  let s := removeFromSchedQueues (setState s t .terminated) t
  { s with table := s.table.filter (· ≠ t) }

def exitTgidCb (tgid : ℕ) (s : Cpu) (p : ℕ) : Cpu :=
  if tgid = s.tgid p ∧ p ≠ s.active then taskDestroy s p else s

def schedulerExitGroup (s : Cpu) : Cpu :=
  beginExit (s.table.foldl (exitTgidCb (s.tgid s.active)) s)

def activateTask (s : Cpu) (priority : Priority) (tgid : ℕ) : Cpu :=
  let t := s.fresh
  schedulerAdmit
    { s with
      table := s.table ++ [t]
      fresh := t + 1
      priority := Function.update s.priority t priority
      tgid := Function.update s.tgid t tgid
      parent := Function.update s.parent t s.active
      state := Function.update s.state t .ready
      frames := Function.update s.frames t []
      opened := Function.update s.opened t 0 } t

inductive Op where
  | spawn (priority : Priority) (tgid : ℕ)
  | spawnThread
  | ready (t : ℕ)
  | sleep (secs : ℕ)
  | blockOn (w : WaitQueue)
  | blockOnLocked (w : WaitQueue)
  | wakeSleeping
  | rotate
  | disable
  | enable
  | exit
  | exitGroup
  | reap (z : ℕ)
  /-- A timer interrupt counts a tick. -/
  | irqTick
  /-- A handler readies a task inside a section of its own, as `sem_post` does. -/
  | irqPost (t : ℕ)
  /-- A handler readies a task with no section of its own. -/
  | irqReady (t : ℕ)
  /-- The active task goes on in the scheduler function it is in. -/
  | resume
  deriving DecidableEq, Repr

abbrev idle : ℕ := 0

def Outside (s : Cpu) : Prop := s.frames s.active = []

/-- Where sections are entered and left: outside the scheduler, or in the
`release_fds` of an exit. -/
def MayLock (s : Cpu) : Prop := Outside s ∨ (s.frames s.active).head? = some .exiting

def MayInterrupt (s : Cpu) : Prop := Outside s ∨ ∃ w, s.frames s.active = [.resched w]

/-- A task that a waker has found in a queue. -/
def Wakeable (s : Cpu) (t : ℕ) : Prop :=
  t ∈ s.table ∧ t ≠ s.active ∧ (s.state t = .blocked ∨ s.state t = .sleeping)

def MayWaitOn (s : Cpu) : WaitQueue → Prop
  | .zombies owner => owner = s.active
  | .other _ => True

instance (s : Cpu) : Decidable (Outside s) := inferInstanceAs (Decidable (_ = _))
instance (s : Cpu) : Decidable (MayLock s) := inferInstanceAs (Decidable (_ ∨ _))

instance (s : Cpu) : Decidable (MayInterrupt s) :=
  decidable_of_iff
    (Outside s ∨ ∃ w ∈ [Window.count, .need, .clear, .rotate, .pick], s.frames s.active = [.resched w])
    (or_congr_right ⟨fun ⟨w, _, h⟩ => ⟨w, h⟩, fun ⟨w, h⟩ => ⟨w, by cases w <;> simp, h⟩⟩)

instance (s : Cpu) (t : ℕ) : Decidable (Wakeable s t) := inferInstanceAs (Decidable (_ ∧ _))

instance (s : Cpu) : (w : WaitQueue) → Decidable (MayWaitOn s w)
  | .zombies owner => inferInstanceAs (Decidable (owner = s.active))
  | .other _ => inferInstanceAs (Decidable True)

/-- Who may call what. The idle task never blocks and never exits, a section
is left only by the task that has entered it, and a new process gets a thread
group of its own. The post of a handler is one step because the section it
enters counts: `preempt_count` does not wrap. -/
def Enabled (s : Cpu) : Op → Prop
  | .spawn _ tgid => Outside s ∧ ∀ t ∈ s.table, s.tgid t ≠ tgid
  | .spawnThread => Outside s ∧ s.active ≠ idle
  | .ready t => MayLock s ∧ Wakeable s t
  | .sleep _ | .exit | .exitGroup => Outside s ∧ s.active ≠ idle
  | .blockOn w => Outside s ∧ s.active ≠ idle ∧ MayWaitOn s w
  | .blockOnLocked w => MayLock s ∧ s.active ≠ idle ∧ MayWaitOn s w ∧ 0 < s.opened s.active
  | .wakeSleeping | .rotate => Outside s
  | .disable => MayLock s
  | .enable => MayLock s ∧ 0 < s.opened s.active
  | .reap z => Outside s ∧ z ∈ s.table ∧ z ≠ s.active ∧ s.state z = .zombie
  | .irqTick => MayInterrupt s
  | .irqPost t => MayInterrupt s ∧ Wakeable s t ∧ s.preemptCount + 1 < 2 ^ 32
  | .irqReady t => MayInterrupt s ∧ Wakeable s t
  | .resume => True

instance (s : Cpu) : (op : Op) → Decidable (Enabled s op)
  | .spawn _ tgid => inferInstanceAs (Decidable (Outside s ∧ ∀ t ∈ s.table, s.tgid t ≠ tgid))
  | .spawnThread => inferInstanceAs (Decidable (_ ∧ _))
  | .ready t => inferInstanceAs (Decidable (MayLock s ∧ Wakeable s t))
  | .sleep _ | .exit | .exitGroup => inferInstanceAs (Decidable (Outside s ∧ s.active ≠ idle))
  | .blockOn w => inferInstanceAs (Decidable (Outside s ∧ s.active ≠ idle ∧ MayWaitOn s w))
  | .blockOnLocked w =>
    inferInstanceAs (Decidable (MayLock s ∧ s.active ≠ idle ∧ MayWaitOn s w ∧ _))
  | .wakeSleeping | .rotate => inferInstanceAs (Decidable (Outside s))
  | .disable => inferInstanceAs (Decidable (MayLock s))
  | .enable => inferInstanceAs (Decidable (MayLock s ∧ 0 < s.opened s.active))
  | .reap z =>
    inferInstanceAs (Decidable (Outside s ∧ z ∈ s.table ∧ z ≠ s.active ∧ s.state z = .zombie))
  | .irqTick => inferInstanceAs (Decidable (MayInterrupt s))
  | .irqPost t =>
    inferInstanceAs (Decidable (MayInterrupt s ∧ Wakeable s t ∧ s.preemptCount + 1 < 2 ^ 32))
  | .irqReady t => inferInstanceAs (Decidable (MayInterrupt s ∧ Wakeable s t))
  | .resume => inferInstanceAs (Decidable True)

/-- The next piece of `scheduler_enable_preempt` or `scheduler_rotate`; `fs` is
what is left below. -/
def resumeResched (s : Cpu) (fs : List Frame) : Window → Cpu
  | .count => setFrames s s.active (if s.preemptCount = 0 then .resched .need :: fs else fs)
  | .need => setFrames s s.active (if s.needResched then .resched .clear :: fs else fs)
  | .clear => setFrames { s with needResched := false } s.active (.resched .rotate :: fs)
  | .rotate => setFrames s s.active (if 0 < s.preemptCount then fs else .resched .pick :: fs)
  | .pick => rotateLocked (setFrames s s.active fs)

/-- The next piece of the function the active task is in. `none` when it is in
none, panics, or would read a task that has been freed. -/
def resumeFrame (s : Cpu) : Option Cpu :=
  match s.frames s.active with
  | [] => none
  | .resched w :: fs => some (resumeResched s fs w)
  | .switchOut :: fs => some (switchOutActive (setFrames s s.active fs))
  | .waking none _ :: fs => some (setFrames s s.active fs)
  | .waking (some node) now :: fs =>
    if node ∈ s.table then
      some (wakeUpSleepingCb
        (setFrames s s.active (.waking (nextSleeping s node) now :: fs)) now node)
    else none
  | .exiting :: _ => if s.opened s.active = 0 then some (finishExit s) else none
  | .zombieExit :: _ => none

def Op.apply (s : Cpu) : Op → Option Cpu
  | .spawn priority tgid => some (activateTask s priority tgid)
  | .spawnThread => some (activateTask s (s.priority s.active) (s.tgid s.active))
  | .ready t => some (schedulerReadyTask s t)
  | .sleep secs => some (schedulerSleep s secs)
  | .blockOn w => some (schedulerBlockOn s w)
  | .blockOnLocked w => some (schedulerBlockOnLocked s w)
  | .wakeSleeping => some (schedulerWakeSleeping s)
  | .rotate => some (pushFrame s (.resched .rotate))
  | .disable => some (schedulerDisablePreempt s)
  | .enable =>
    -- interrupts are off in an exit
    some (if Outside s then pushFrame (leaveSection s) (.resched .count) else schedulerEnablePreempt s)
  | .exit => some (beginExit s)
  | .exitGroup => some (schedulerExitGroup s)
  | .reap z => some (taskDestroy s z)
  | .irqTick => some { s with ticks := (s.ticks + 1) % 2 ^ 32 }
  | .irqPost t => some (schedulerEnablePreempt (schedulerReadyTask (schedulerDisablePreempt s) t))
  | .irqReady t => some (schedulerReadyTask s t)
  | .resume => resumeFrame s

/-- Nothing is run after a bogus task has been picked. -/
def step (s : Cpu) (op : Op) : Option Cpu :=
  if Enabled s op ∧ s.emptyPick = false then op.apply s else none

def taskInit : Cpu where
  preemptCount := 0
  needResched := false
  readyQueues := Function.update (fun _ => []) idlePriority [idle]
  highest := idlePriority
  sleepingHead := []
  waitQueues := fun _ => []
  active := idle
  table := [idle]
  fresh := 1
  priority := fun _ => idlePriority
  tgid := fun _ => 0
  parent := fun _ => 0
  state := fun _ => .running
  wakeUpTime := fun _ => 0
  frames := fun _ => []
  ticks := 0
  opened := fun _ => 0
  emptyPick := false
  switchedInSection := false

end RvMiniOs.Sched
