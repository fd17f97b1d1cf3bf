import RvMiniOs.Sched.Preemptive
import RvMiniOs.Sync.Semaphore

/-!
# What a timer interrupt does to the ready queues

The handler of `kernel/core/time/time.c` and the two daemons it wakes, run to
the point where both wait again. The tick daemon is itself the task of the
`HIGH` queue while it calls `scheduler_rotate`, so it rotates the queue it is
alone in, and the task it had preempted is still the first one of its own.
-/
namespace RvMiniOs.Sched

open Lib Function List Option

structure Kernel where
  cpu : Cpu
  semCount : ℕ → ℤ
  clockDaemon : ℕ
  tickDaemon : ℕ

abbrev tick : ℕ := 0
abbrev clock : ℕ := 1

def Kernel.sem (k : Kernel) (n : ℕ) : Sync.Semaphore where
  count := k.semCount n
  wq := k.cpu.waitQueues (.other n)

def Kernel.setSem (k : Kernel) (n : ℕ) (sem : Sync.Semaphore) : Kernel :=
  { k with
    cpu := { k.cpu with waitQueues := Function.update k.cpu.waitQueues (.other n) sem.wq }
    semCount := Function.update k.semCount n sem.count }

def semPost (k : Kernel) (n : ℕ) : Option Kernel := do
  let k := { k with cpu := schedulerDisablePreempt k.cpu }
  let (woken, sem) ← Sync.semPost (k.sem n)
  let k := k.setSem n sem
  let cpu := woken.elim k.cpu (schedulerReadyTask k.cpu)
  some { k with cpu := schedulerEnablePreempt cpu }

def semWait (k : Kernel) (n : ℕ) : Kernel :=
  let k := { k with cpu := schedulerDisablePreempt k.cpu }
  let (blocks, sem) := Sync.semWait (k.sem n) k.cpu.active
  if blocks then { k with cpu := schedulerBlockOnLocked k.cpu (.other n) }
  else
    let k := k.setSem n sem
    { k with cpu := schedulerEnablePreempt k.cpu }

def settle : ℕ → Cpu → Option Cpu
  | 0, s => if Outside s then some s else none
  | fuel + 1, s => if Outside s then some s else (resumeFrame s).bind (settle fuel)

def settled (k : Kernel) : Option Kernel :=
  (settle (k.cpu.sleepingHead.length + 2) k.cpu).map fun cpu => { k with cpu }

def clockDaemonTurn (k : Kernel) : Option Kernel := do
  let k ← settled k
  settled (semWait k clock)

def tickDaemonTurn (k : Kernel) : Option Kernel := do
  let k ← settled k
  let k ← settled { k with cpu := schedulerWakeSleeping k.cpu }
  let k ← settled { k with cpu := pushFrame k.cpu (.resched .rotate) }
  settled (semWait k tick)

def timeIrqHandler (k : Kernel) : Option Kernel := do
  let k := { k with cpu := { k.cpu with ticks := (k.cpu.ticks + 1) % 2 ^ 32 } }
  let k ←
    if k.cpu.ticks % itfreq = 0 then
      let k ← semPost k clock
      if k.cpu.active = k.clockDaemon then clockDaemonTurn k else some k
    else some k
  let k ← semPost k tick
  if k.cpu.active = k.tickDaemon then tickDaemonTurn k else none

structure RunsFor (s s' : Cpu) (d : ℕ) : Prop where
  inv : Inv s'
  active : s'.active = d
  queues : s'.readyQueues = Function.update s.readyQueues high [d]
  highest : s'.highest = high
  count : s'.preemptCount = 0
  need : s'.needResched = false
  frames : ∀ t, t ≠ d → s'.frames t = s.frames t
  priority : s'.priority = s.priority
  table : s'.table = s.table
  ticks : s'.ticks = s.ticks
  wakeUpTime : s'.wakeUpTime = s.wakeUpTime
  sleeping : s'.sleepingHead.Sublist s.sleepingHead
  waiting : ∀ w t, t ≠ d → s.waitQueues w = [t] → s'.waitQueues w = [t]
  state : ∀ t, t ≠ d → t ≠ s.active → s'.state t = s.state t

section Turn

variable {s s' : Cpu} {d n : ℕ}

theorem post_eq (hcount : s.preemptCount = 0) (hd : Wakeable s d) (hprio : s.priority d = high)
    (hbelow : high < s.priority s.active) (hhigh : high < s.highest)
    (hempty : s.readyQueues high = []) :
    schedulerEnablePreempt (schedulerReadyTask (schedulerDisablePreempt s) d) =
      doCtxSwitch
        { setState (removeFromBlockingQueues s d) d .running with
          readyQueues := update s.readyQueues high [d]
          highest := high
          needResched := false } d := by
  have hwake : taskWake (schedulerDisablePreempt s) d =
      setState (removeFromBlockingQueues (schedulerDisablePreempt s) d) d .running :=
    if_pos hd.2.2.symm
  rw [schedulerReadyTask_eq, hwake, schedulerAdmit_eq]
  simp [schedulerEnablePreempt, reschedIfNeeded, leaveSection, makeReady, updateHighest,
    readyQueueEnqueue, setState, removeFromBlockingQueues, schedulerDisablePreempt,
    schedulerRotate, rotateLocked, rotateReadyQueue, hcount, hempty, hprio, hhigh, hbelow, hd.2.1]

theorem runsFor_of_post (h : Inv s) (hout : Outside s) (hcount : s.preemptCount = 0)
    (hd : Wakeable s d) (hprio : s.priority d = high) (hbelow : high < s.priority s.active) :
    ∃ s', schedulerEnablePreempt (schedulerReadyTask (schedulerDisablePreempt s) d) = s' ∧
      RunsFor s s' d ∧ s'.frames d = s.frames d := by
  have hlead := hout.mayLock.leads h (hout.mayLock.need h hcount)
  have hhigh : high < s.highest := hlead ▸ hbelow
  have heq := post_eq hcount hd hprio hbelow hhigh (h.above_empty _ hhigh)
  have hinv := h.irqPost (.inl hout) hd (by omega)
  rw [heq] at hinv
  refine ⟨_, heq, ⟨hinv, rfl, rfl, rfl, hcount, rfl, fun _ _ => rfl, rfl, rfl, rfl, rfl,
    filter_sublist, ?_, ?_⟩, rfl⟩
  · intro w t htd hw
    change (s.waitQueues w).filter (· ≠ d) = [t]
    simp [hw, htd]
  · intro t htd hta
    rw [doCtxSwitch_state]
    simp [setState, removeFromBlockingQueues, htd, hta]

theorem settle_of_outside (h : Outside s) (fuel : ℕ) : settle fuel s = some s := by
  cases fuel <;> exact if_pos h

theorem settle_succ {s₁ : Cpu} (h : ¬ Outside s) (hr : resumeFrame s = some s₁) (fuel : ℕ) :
    settle (fuel + 1) s = settle fuel s₁ := by
  rw [settle, if_neg h, hr, bind_some]

theorem RunsFor.outside (h : RunsFor s s' d) (hf : s'.frames d = []) : Outside s' := by
  rw [Outside, h.active, hf]

theorem RunsFor.not_outside (h : RunsFor s s' d) {f : Frame} {fs : List Frame}
    (hf : s'.frames d = f :: fs) : ¬ Outside s' := by
  simp [Outside, h.active, hf]

theorem RunsFor.withFrames (h : RunsFor s s' d) {fs : List Frame}
    (hinv : Inv (setFrames s' d fs)) : RunsFor s (setFrames s' d fs) d :=
  { h with
    inv := hinv
    frames := fun t ht => (update_of_ne ht _ _).trans (h.frames t ht) }

theorem RunsFor.settle_dispatched (h : RunsFor s s' d) (hf : s'.frames d = [] ∨ s'.frames d = [.switchOut])
    (fuel : ℕ) : ∃ s'', settle (fuel + 1) s' = some s'' ∧ RunsFor s s'' d ∧ s''.frames d = [] := by
  rcases hf with hf | hf
  · exact ⟨s', settle_of_outside (h.outside hf) _, h, hf⟩
  · have hq : s'.readyQueues s'.highest = [d] := by simp [h.highest, h.queues]
    have hresume : resumeFrame s' = some (doCtxSwitch (setFrames s' d []) d) := by
      simp [resumeFrame, h.active, hf, switchOutActive, refreshHighestPrio, setFrames, hq]
    have hinv := h.inv.resume hresume
    have hframes : (doCtxSwitch (setFrames s' d []) d).frames d = [] :=
      update_self ..
    have hruns : RunsFor s (doCtxSwitch (setFrames s' d []) d) d :=
      { h with
        inv := hinv
        active := rfl
        frames := fun t ht => (update_of_ne ht _ _).trans (h.frames t ht)
        state := fun t htd hta => by
          rw [doCtxSwitch_state, if_neg htd, if_neg]
          · exact h.state t htd hta
          · rintro ⟨hta', -⟩
            exact htd (hta'.trans h.active) }
    refine ⟨_, ?_, hruns, hframes⟩
    rw [settle_succ (h.not_outside hf) hresume]
    exact settle_of_outside (hruns.outside hframes) _

theorem RunsFor.settle_waking (l : List ℕ) (now fuel : ℕ) : ∀ (s' : Cpu) (pre : List ℕ), RunsFor s s' d →
    s'.sleepingHead = pre ++ l → (∀ t ∈ l, now < s'.wakeUpTime t) → s'.frames d = [.waking l.head? now] →
    ∃ s'', settle (l.length + 1 + fuel) s' = some s'' ∧ RunsFor s s'' d ∧ s''.frames d = [] := by
  induction l with
  | nil =>
    intro s' pre h _ _ hf
    have hresume : resumeFrame s' = some (setFrames s' d []) := by
      simp [resumeFrame, h.active, hf]
    have hframes : (setFrames s' d []).frames d = [] := update_self ..
    have hruns := h.withFrames (h.inv.resume hresume)
    refine ⟨_, ?_, hruns, hframes⟩
    rw [length_nil, Nat.zero_add, Nat.add_comm, settle_succ (h.not_outside hf) hresume]
    exact settle_of_outside (hruns.outside hframes) _
  | cons c l ih =>
    intro s' pre h hs hlate hf
    have hnodup := hs ▸ h.inv.sleeping_nodup
    have hnext : nextSleeping s' c = l.head? :=
      nextSleeping_append hs fun hin => (nodup_append'.mp hnodup).2.2 hin mem_cons_self
    have hmem : c ∈ s'.table := h.inv.sleeping_mem c (by simp [hs])
    have hresume : resumeFrame s' = some (setFrames s' d [.waking l.head? now]) := by
      simp [resumeFrame, h.active, hf, hmem, hnext, wakeUpSleepingCb, setFrames, hlate c (by simp)]
    have hruns := h.withFrames (h.inv.resume hresume)
    obtain ⟨s'', hsettle, hdone⟩ := ih _ (pre ++ [c]) hruns (by rw [append_assoc]; exact hs)
      (fun t ht => hlate t (mem_cons_of_mem _ ht)) (update_self ..)
    refine ⟨s'', ?_, hdone⟩
    rw [length_cons, show l.length + 1 + 1 + fuel = l.length + 1 + fuel + 1 by omega,
      settle_succ (h.not_outside hf) hresume]
    exact hsettle

theorem rotateLocked_alone (hq : s.readyQueues s.highest = [s.active]) : rotateLocked s = s := by
  have hself : update s.readyQueues s.highest [s.active] = s.readyQueues := by
    rw [← hq, update_eq_self]
  simp only [rotateLocked, hq, rotateReadyQueue, hself]
  exact if_neg (not_not.mpr rfl)

theorem RunsFor.settle_rotate (h : RunsFor s s' d) (hf : s'.frames d = []) (fuel : ℕ) :
    ∃ s'', settle (fuel + 2) (pushFrame s' (.resched .rotate)) = some s'' ∧ RunsFor s s'' d ∧
      s''.frames d = [] := by
  have hpush : pushFrame s' (.resched .rotate) = setFrames s' d [.resched .rotate] := by
    rw [pushFrame, h.active, hf]
  have hruns := h.withFrames (hpush ▸ h.inv.enter (h.outside hf) rfl)
  have hf₁ : (setFrames s' d [.resched .rotate]).frames d = [.resched .rotate] := update_self ..
  have hresume : resumeFrame (setFrames s' d [.resched .rotate]) =
      some (setFrames (setFrames s' d [.resched .rotate]) d [.resched .pick]) := by
    rw [resumeFrame, hruns.active, hf₁]
    simp only [resumeResched, hruns.active, hruns.count, Nat.lt_irrefl, if_false]
  have hruns₂ := hruns.withFrames (hruns.inv.resume hresume)
  have hf₂ := update_self d [Frame.resched .pick] (setFrames s' d [.resched .rotate]).frames
  have hresume₂ : resumeFrame (setFrames (setFrames s' d [.resched .rotate]) d [.resched .pick]) =
      some (setFrames (setFrames (setFrames s' d [.resched .rotate]) d [.resched .pick]) d []) := by
    rw [resumeFrame, hruns₂.active]
    rw [show (setFrames (setFrames s' d [.resched .rotate]) d [.resched .pick]).frames d = _ from hf₂]
    simp only [resumeResched, hruns₂.active]
    rw [rotateLocked_alone]
    change s'.readyQueues s'.highest = [s'.active]
    rw [h.highest, h.queues, h.active, update_self]
  have hruns₃ := hruns₂.withFrames (hruns₂.inv.resume hresume₂)
  refine ⟨_, ?_, hruns₃, update_self ..⟩
  rw [hpush, settle_succ (hruns.not_outside hf₁) hresume, settle_succ (hruns₂.not_outside hf₂) hresume₂]
  exact settle_of_outside (hruns₃.outside (update_self ..)) _

structure Back (s s' : Cpu) (d n : ℕ) : Prop where
  inv : Inv s'
  active : s'.active = s.active
  queues : s'.readyQueues = s.readyQueues
  count : s'.preemptCount = 0
  frames : ∀ t, t ≠ d → s'.frames t = s.frames t
  priority : s'.priority = s.priority
  table : s'.table = s.table
  ticks : s'.ticks = s.ticks
  wakeUpTime : s'.wakeUpTime = s.wakeUpTime
  sleeping : s'.sleepingHead.Sublist s.sleepingHead
  waiting : ∀ w t, t ≠ d → w ≠ .other n → s.waitQueues w = [t] → s'.waitQueues w = [t]
  state : ∀ t, t ≠ d → t ≠ s.active → s'.state t = s.state t

theorem RunsFor.block_eq (h : RunsFor s s' d) (w : WaitQueue) :
    schedulerBlockOnLocked (schedulerDisablePreempt s') w = schedulerBlockOn s' w := by
  simp [schedulerBlockOnLocked, schedulerEnablePreempt, reschedIfNeeded, leaveSection,
    schedulerDisablePreempt, schedulerBlockOn, pushFrame, setFrames, moveToWq, setState,
    readyQueueRemove, h.need, h.count]

theorem switchOut_to_leader (hs : Inv s) (hout : Outside s) (hcount : s.preemptCount = 0)
    (hb : Base s') (hq : s'.readyQueues = s.readyQueues) :
    switchOutActive s' = doCtxSwitch { s' with highest := s.priority s.active } s.active := by
  have hlead := hout.mayLock.leads hs (hout.mayLock.need hs hcount)
  have hhead := hs.active_head (by rw [show s.frames s.active = [] from hout]; simp)
  obtain ⟨r, hcons⟩ : ∃ r, s.readyQueues (s.priority s.active) = s.active :: r :=
    ⟨_, eq_cons_of_mem_head? hhead⟩
  obtain ⟨p, hp, hne, habove⟩ := refreshHighestPrio_spec hb
  rw [hq] at hne habove
  have heq : p = s.priority s.active := by
    apply le_antisymm
    · refine not_lt.mp fun hlt => ?_
      rw [habove _ hlt] at hcons
      cases hcons
    · refine not_lt.mp fun hlt => hne ?_
      exact hs.above_empty p (hlead ▸ hlt)
  subst heq
  simp only [switchOutActive, hp, hq, hcons]

theorem RunsFor.settle_block (hs : Inv s) (hout : Outside s) (hcount : s.preemptCount = 0)
    (hd : s.priority d = high) (hbelow : high < s.priority s.active) (hidle : d ≠ idle)
    (h : RunsFor s s' d) (hf : s'.frames d = []) (n fuel : ℕ) :
    ∃ s'', settle (fuel + 1) (schedulerBlockOn s' (.other n)) = some s'' ∧ Back s s'' d n := by
  have hlead := hout.mayLock.leads hs (hout.mayLock.need hs hcount)
  have hne : s.active ≠ d := by
    rintro rfl
    exact hbelow.ne hd.symm
  have hinv : Inv (schedulerBlockOn s' (.other n)) := by
    refine h.inv.blockOn (h.outside hf) (h.active ▸ hidle) ?_ _
    rw [← h.inv.count_eq, h.count]
  have hqueues : (schedulerBlockOn s' (.other n)).readyQueues = s.readyQueues := by
    funext q
    change (s'.readyQueues q).filter (· ≠ s'.active) = s.readyQueues q
    rw [h.active, h.queues]
    by_cases hq : q = high
    · subst hq
      have hempty := hs.above_empty high (hlead ▸ hbelow)
      simp [hempty]
    · rw [update_of_ne hq, filter_eq_self]
      intro t ht
      have hprio := (hs.ready_mem q t ht).2
      have htd : t ≠ d := by
        rintro rfl
        exact hq (hprio.symm.trans hd)
      simpa using htd
  have hframes : (schedulerBlockOn s' (.other n)).frames d = [.switchOut] := by
    simp [schedulerBlockOn, pushFrame, setFrames, moveToWq, setState, readyQueueRemove, h.active, hf]
  have hactive : (schedulerBlockOn s' (.other n)).active = d := h.active
  have hbase : Base (setFrames (schedulerBlockOn s' (.other n)) d []) :=
    hinv.toBase.setFrames d Stacked.nil
  have hresume : resumeFrame (schedulerBlockOn s' (.other n)) =
      some (doCtxSwitch { setFrames (schedulerBlockOn s' (.other n)) d [] with
        highest := s.priority s.active } s.active) := by
    rw [resumeFrame, hactive, hframes]
    exact congrArg some (switchOut_to_leader hs hout hcount hbase hqueues)
  have hsettled := hinv.resume hresume
  have hframes' : ∀ t, t ≠ d →
      (setFrames (schedulerBlockOn s' (.other n)) d []).frames t = s.frames t := by
    intro t ht
    rw [← h.frames t ht]
    simp [setFrames, schedulerBlockOn, pushFrame, moveToWq, setState, readyQueueRemove, h.active, ht]
  have hdone := settle_succ (by simp [Outside, hactive, hframes]) hresume fuel
  refine ⟨_, hdone.trans (settle_of_outside ?_ _), hsettled, rfl, hqueues, h.count, hframes',
    h.priority, h.table, h.ticks, h.wakeUpTime, h.sleeping, ?_, ?_⟩
  · exact (hframes' _ hne).trans hout
  · intro w t htd hw hwait
    exact (update_of_ne hw _ _).trans (h.waiting w t htd hwait)
  · intro t htd hta
    rw [doCtxSwitch_state, if_neg hta, if_neg]
    · rw [← h.state t htd hta]
      exact update_of_ne (h.active.symm ▸ htd) _ _
    · rintro ⟨hta', -⟩
      exact htd (hta'.trans hactive)

end Turn

structure Waits (k : Kernel) (d n : ℕ) : Prop where
  mem : d ∈ k.cpu.table
  not_idle : d ≠ idle
  priority : k.cpu.priority d = high
  queue : k.cpu.waitQueues (.other n) = [d]
  blocked : k.cpu.state d = .blocked
  frames : k.cpu.frames d = [] ∨ k.cpu.frames d = [.switchOut]
  count : k.semCount n = 0

structure Preempted (s : Cpu) : Prop where
  inv : Inv s
  outside : Outside s
  count : s.preemptCount = 0
  below : high < s.priority s.active

theorem Preempted.ne {s : Cpu} (h : Preempted s) {d : ℕ} (hd : s.priority d = high) : d ≠ s.active := by
  rintro rfl
  exact h.below.ne hd.symm

theorem semPost_runs {k : Kernel} {d n : ℕ} (h : Preempted k.cpu) (hd : Waits k d n) :
    ∃ s, semPost k n = some { k with cpu := s } ∧ RunsFor k.cpu s d ∧ s.frames d = k.cpu.frames d := by
  have hpop : Inv { k.cpu with
      waitQueues := update k.cpu.waitQueues (.other n) [] } := by
    refine { h.inv with waiting_mem := fun w t ht => ?_ }
    by_cases hw : w = .other n
    · simp [hw] at ht
    · simp only [update_of_ne hw] at ht
      exact h.inv.waiting_mem w t ht
  have hwake : Wakeable { k.cpu with
      waitQueues := update k.cpu.waitQueues (.other n) [] } d :=
    ⟨hd.mem, h.ne hd.priority, .inl hd.blocked⟩
  obtain ⟨s, hs, hruns, hframes⟩ :=
    runsFor_of_post hpop h.outside h.count hwake hd.priority h.below
  have hpost : semPost k n = some { k with cpu := s } := by
    have hself : update k.semCount n (k.semCount n) = k.semCount := update_eq_self ..
    simp only [semPost, Sync.semPost, Kernel.sem, schedulerDisablePreempt, hd.queue, bind_eq_bind,
      bind_some, Kernel.setSem, hself, Option.elim_some]
    rw [← hs]
    rfl
  refine ⟨s, hpost, { hruns with waiting := fun w t htd hwait => hruns.waiting w t htd ?_ }, hframes⟩
  have hw : w ≠ .other n := by
    rintro rfl
    rw [hd.queue] at hwait
    exact htd (singleton_inj.mp hwait).symm
  exact (update_of_ne hw _ _).trans hwait

theorem settled_eq {k : Kernel} {s : Cpu}
    (h : settle (k.cpu.sleepingHead.length + 2) k.cpu = some s) :
    settled k = some { k with cpu := s } := by
  rw [settled, h, map_some]

theorem settled_semWait {k : Kernel} {s : Cpu} {d n : ℕ} (h : Preempted s) (hd : s.priority d = high)
    (hidle : d ≠ idle) (hruns : RunsFor s k.cpu d) (hf : k.cpu.frames d = [])
    (hcount : k.semCount n = 0) :
    ∃ s', settled (semWait k n) = some { k with cpu := s' } ∧ Back s s' d n := by
  have hwait : semWait k n = { k with cpu := schedulerBlockOn k.cpu (.other n) } := by
    have hblocks := Sync.semWait_empty k.cpu.active (show (k.sem n).count ≤ 0 from hcount.le)
    simp only [Kernel.sem] at hblocks
    simp only [semWait, Kernel.sem, schedulerDisablePreempt, hblocks, if_true]
    exact congrArg (fun cpu => { k with cpu }) (hruns.block_eq _)
  obtain ⟨s', hsettle, hback⟩ :=
    hruns.settle_block h.inv h.outside h.count hd h.below hidle hf n
      ((schedulerBlockOn k.cpu (.other n)).sleepingHead.length + 1)
  rw [hwait]
  exact ⟨s', settled_eq hsettle, hback⟩

theorem clockDaemonTurn_back {k : Kernel} {d : ℕ} (h : Preempted k.cpu) (hd : Waits k d clock) :
    ∃ s₀ s, semPost k clock = some { k with cpu := s₀ } ∧ s₀.active = d ∧
      clockDaemonTurn { k with cpu := s₀ } = some { k with cpu := s } ∧ Back k.cpu s d clock := by
  obtain ⟨s₀, hpost, hruns, hframes⟩ := semPost_runs h hd
  obtain ⟨s₁, hs₁, hruns₁, hf₁⟩ :=
    hruns.settle_dispatched (hframes ▸ hd.frames) (s₀.sleepingHead.length + 1)
  obtain ⟨s₂, hs₂, hback⟩ := settled_semWait (k := { k with cpu := s₁ }) h hd.priority hd.not_idle
    hruns₁ hf₁ hd.count
  refine ⟨s₀, s₂, hpost, hruns.active, ?_, hback⟩
  rw [clockDaemonTurn, settled_eq (k := { k with cpu := s₀ }) hs₁]
  exact hs₂

theorem tickDaemonTurn_back {k : Kernel} {d : ℕ} (h : Preempted k.cpu) (hd : Waits k d tick)
    (hlate : ∀ t ∈ k.cpu.sleepingHead, timeSeconds k.cpu < k.cpu.wakeUpTime t) :
    ∃ s₀ s, semPost k tick = some { k with cpu := s₀ } ∧ s₀.active = d ∧
      tickDaemonTurn { k with cpu := s₀ } = some { k with cpu := s } ∧ Back k.cpu s d tick := by
  obtain ⟨s₀, hpost, hruns, hframes⟩ := semPost_runs h hd
  obtain ⟨s₁, hs₁, hruns₁, hf₁⟩ :=
    hruns.settle_dispatched (hframes ▸ hd.frames) (s₀.sleepingHead.length + 1)
  have hwaking : RunsFor k.cpu (schedulerWakeSleeping s₁) d := by
    have hinv := hruns₁.inv.enter (f := .waking s₁.sleepingHead.head? (timeSeconds s₁))
      (hruns₁.outside hf₁) rfl
    unfold pushFrame at hinv
    unfold schedulerWakeSleeping pushFrame
    rw [hruns₁.active] at hinv ⊢
    exact hruns₁.withFrames hinv
  have hf : (schedulerWakeSleeping s₁).frames d =
      [.waking s₁.sleepingHead.head? (timeSeconds s₁)] := by
    simp [schedulerWakeSleeping, pushFrame, setFrames, hruns₁.active, hf₁]
  obtain ⟨s₂, hs₂, hruns₂, hf₂⟩ :=
    RunsFor.settle_waking s₁.sleepingHead (timeSeconds s₁) 1 _ [] hwaking rfl (by
      intro t ht
      have hold := hlate t (hruns₁.sleeping.subset ht)
      rw [timeSeconds] at hold ⊢
      rw [hruns₁.ticks, show (schedulerWakeSleeping s₁).wakeUpTime = k.cpu.wakeUpTime from
        hruns₁.wakeUpTime]
      exact hold) hf
  obtain ⟨s₃, hs₃, hruns₃, hf₃⟩ :=
    hruns₂.settle_rotate hf₂ (pushFrame s₂ (.resched .rotate)).sleepingHead.length
  obtain ⟨s₄, hs₄, hback⟩ := settled_semWait (k := { k with cpu := s₃ }) h hd.priority hd.not_idle
    hruns₃ hf₃ hd.count
  refine ⟨s₀, s₄, hpost, hruns.active, ?_, hback⟩
  rw [tickDaemonTurn, settled_eq (k := { k with cpu := s₀ }) hs₁]
  simp only [bind_eq_bind, bind_some]
  rw [settled_eq (k := { k with cpu := schedulerWakeSleeping s₁ }) hs₂, bind_some,
    settled_eq (k := { k with cpu := pushFrame s₂ (.resched .rotate) }) hs₃, bind_some]
  exact hs₄

theorem Preempted.of_back {s s' : Cpu} {d n : ℕ} (h : Preempted s) (hd : s.priority d = high)
    (hb : Back s s' d n) : Preempted s' where
  inv := hb.inv
  outside := by
    rw [Outside, hb.active, hb.frames _ (h.ne hd).symm]
    exact h.outside
  count := hb.count
  below := by
    rw [hb.priority, hb.active]
    exact h.below

theorem Waits.of_back {k : Kernel} {s : Cpu} {d e m n : ℕ} (he : Waits k e m)
    (hea : e ≠ k.cpu.active) (hed : e ≠ d) (hmn : m ≠ n) (hb : Back k.cpu s d n) :
    Waits { k with cpu := s } e m where
  mem := hb.table.symm ▸ he.mem
  not_idle := he.not_idle
  priority := hb.priority.symm ▸ he.priority
  queue := hb.waiting _ e hed (by simpa using hmn) he.queue
  blocked := (hb.state e hed hea).trans he.blocked
  frames := (hb.frames e hed).symm ▸ he.frames
  count := he.count

structure TimerScenario (k : Kernel) : Prop where
  reached : Reaches step Disciplined taskInit k.cpu
  outside : Outside k.cpu
  count : k.cpu.preemptCount = 0
  below : high < k.cpu.priority k.cpu.active
  others : 2 ≤ (k.cpu.readyQueues (k.cpu.priority k.cpu.active)).length
  tickWaits : Waits k k.tickDaemon tick
  clockWaits : Waits k k.clockDaemon clock
  distinct : k.tickDaemon ≠ k.clockDaemon
  nobodyDue : ∀ t ∈ k.cpu.sleepingHead,
    (k.cpu.ticks + 1) % 2 ^ 32 / itfreq < k.cpu.wakeUpTime t

def successor (rq : List ℕ) (t : ℕ) : Option ℕ :=
  (rq.dropWhile (· ≠ t)).tail.head? <|> rq.head?

def RoundRobin (k : Kernel) : Prop :=
  ∃ k', timeIrqHandler k = some k' ∧
    some k'.cpu.active =
      successor (k.cpu.readyQueues (k.cpu.priority k.cpu.active)) k.cpu.active ∧
    (k'.cpu.readyQueues (k.cpu.priority k.cpu.active)).getLast? = some k.cpu.active

theorem successor_head_ne {rq : List ℕ} {t : ℕ} (hhead : rq.head? = some t) (hnodup : rq.Nodup)
    (hlen : 2 ≤ rq.length) : successor rq t ≠ some t := by
  match rq with
  | [] => cases hhead
  | [_] => simp at hlen
  | a :: u :: r =>
    obtain rfl : a = t := some.inj hhead
    intro hnext
    have heq : u = a := by simpa [successor] using hnext
    simp [heq] at hnodup

theorem tick_handled {k : Kernel} (h : Preempted k.cpu) (hd : Waits k k.tickDaemon tick)
    (hlate : ∀ t ∈ k.cpu.sleepingHead, timeSeconds k.cpu < k.cpu.wakeUpTime t) :
    ∃ s, ((semPost k tick).bind fun k =>
        if k.cpu.active = k.tickDaemon then tickDaemonTurn k else none) = some { k with cpu := s } ∧
      Back k.cpu s k.tickDaemon tick := by
  obtain ⟨s₀, s, hpost, hactive, hturn, hback⟩ := tickDaemonTurn_back h hd hlate
  exact ⟨s, by rw [hpost, bind_some, if_pos hactive, hturn], hback⟩

theorem timeIrqHandler_back {k : Kernel} (h : TimerScenario k) : ∃ k', timeIrqHandler k = some k' ∧
    k'.cpu.active = k.cpu.active ∧ k'.cpu.readyQueues = k.cpu.readyQueues := by
  have hinv : Inv k.cpu := h.reached.invariant Inv.init fun _ _ _ => Inv.of_step
  let k₁ : Kernel := { k with cpu := { k.cpu with ticks := (k.cpu.ticks + 1) % 2 ^ 32 } }
  have hpre : Preempted k₁.cpu := ⟨{ hinv with }, h.outside, h.count, h.below⟩
  have htick : Waits k₁ k.tickDaemon tick := { h.tickWaits with }
  have hclock : Waits k₁ k.clockDaemon clock := { h.clockWaits with }
  by_cases hsec : k₁.cpu.ticks % itfreq = 0
  · -- on a full second the clock daemon runs first, inside the handler
    obtain ⟨s₀, s, hpost, hactive, hturn, hback⟩ := clockDaemonTurn_back hpre hclock
    have hpre' := hpre.of_back hclock.priority hback
    have hwaits := htick.of_back (hpre.ne htick.priority) h.distinct (by decide) hback
    obtain ⟨s', hs', hback'⟩ := tick_handled (k := { k₁ with cpu := s }) hpre' hwaits (by
      intro t ht
      rw [timeSeconds, hback.ticks, hback.wakeUpTime]
      exact h.nobodyDue t (hback.sleeping.subset ht))
    refine ⟨{ k₁ with cpu := s' }, ?_, hback'.active.trans hback.active, hback'.queues.trans hback.queues⟩
    simp only [timeIrqHandler, bind_eq_bind]
    rw [if_pos hsec, hpost, bind_some, if_pos hactive, hturn]
    exact hs'
  · obtain ⟨s, hs, hback⟩ := tick_handled hpre htick h.nobodyDue
    refine ⟨{ k₁ with cpu := s }, ?_, hback.active, hback.queues⟩
    simp only [timeIrqHandler, bind_eq_bind]
    rw [if_neg hsec]
    exact hs

/-- The interrupt is handled and the task it found runs on: it never gives its
turn to the next one of its queue. -/
theorem timer_never_round_robin {k : Kernel} (h : TimerScenario k) :
    (∃ k', timeIrqHandler k = some k' ∧ k'.cpu.active = k.cpu.active ∧
      k'.cpu.readyQueues = k.cpu.readyQueues) ∧ ¬ RoundRobin k := by
  have hback := timeIrqHandler_back h
  refine ⟨hback, ?_⟩
  rintro ⟨k₂, hk₂, hnext, -⟩
  obtain ⟨k₁, hk₁, hactive, -⟩ := hback
  cases hk₁.symm.trans hk₂
  have hinv : Inv k.cpu := h.reached.invariant Inv.init fun _ _ _ => Inv.of_step
  have hhead := hinv.active_head (by rw [show k.cpu.frames k.cpu.active = [] from h.outside]; simp)
  rw [hactive] at hnext
  exact successor_head_ne hhead (hinv.ready_nodup _) h.others hnext.symm

def bootOps : List Op :=
  [.spawn high 1, .disable, .blockOnLocked (.other clock), .resume,
    .spawn high 2, .disable, .blockOnLocked (.other tick), .resume,
    .spawn normal 3, .spawn normal 4]

def withDaemons (cpu : Cpu) : Kernel :=
  { cpu, semCount := fun _ => 0, clockDaemon := 1, tickDaemon := 2 }

theorem booted_scenario : ∃ s, run step taskInit bootOps = some s ∧ s.active = 3 ∧
    s.readyQueues normal = [3, 4] ∧ TimerScenario (withDaemons s) := by
  have hallowed : Allowed step Disciplined taskInit bootOps := by decide +kernel
  have hrun : (run step taskInit bootOps).isSome := by decide +kernel
  have hfacts : ∀ s ∈ run step taskInit bootOps,
      s.active = 3 ∧ s.frames 3 = [] ∧ s.preemptCount = 0 ∧ s.priority 3 = normal ∧
      s.readyQueues normal = [3, 4] ∧ s.sleepingHead = [] := by decide +kernel
  have hdaemons : ∀ s ∈ run step taskInit bootOps, ∀ d ∈ [1, 2],
      d ∈ s.table ∧ s.priority d = high ∧ s.waitQueues (.other (2 - d)) = [d] ∧
      s.state d = .blocked ∧ s.frames d = [] := by decide +kernel
  obtain ⟨s, hs⟩ := isSome_iff_exists.mp hrun
  obtain ⟨hactive, hframes, hcount, hprio, hqueue, hsleep⟩ := hfacts s hs
  have hwaits : ∀ d ∈ [1, 2], Waits (withDaemons s) d (2 - d) := by
    intro d hd
    obtain ⟨hmem, hhigh, hq, hst, hf⟩ := hdaemons s hs d hd
    refine ⟨hmem, ?_, hhigh, hq, hst, .inl hf, rfl⟩
    rintro rfl
    simp at hd
  refine ⟨s, hs, hactive, hqueue, ?_⟩
  exact
    { reached := Reaches.of_run bootOps hallowed hs
      outside := by rw [Outside, withDaemons, hactive, hframes]
      count := hcount
      below := by
        rw [withDaemons, hactive, hprio]
        decide
      others := by
        rw [withDaemons, hactive, hprio, hqueue]
        decide
      tickWaits := hwaits 2 (by simp)
      clockWaits := hwaits 1 (by simp)
      distinct := (by decide : (2 : ℕ) ≠ 1)
      nobodyDue := fun t ht => by
        rw [withDaemons, hsleep] at ht
        cases ht }

theorem timer_never_round_robin_booted :
    ∃ s, run step taskInit bootOps = some s ∧ ¬ RoundRobin (withDaemons s) := by
  obtain ⟨s, hs, -, -, hscenario⟩ := booted_scenario
  exact ⟨s, hs, (timer_never_round_robin hscenario).2⟩

/-- Task 3 is found by the interrupt, task 4 is next in the queue, and task 3
is dispatched again. -/
theorem tick_dispatches_same_task :
    ∃ s k, run step taskInit bootOps = some s ∧ TimerScenario (withDaemons s) ∧
      s.active = 3 ∧ s.readyQueues normal = [3, 4] ∧ timeIrqHandler (withDaemons s) = some k ∧
      k.cpu.active = 3 ∧ k.cpu.readyQueues normal = [3, 4] := by
  have hhandled : ∀ s ∈ run step taskInit bootOps, ∃ k ∈ timeIrqHandler (withDaemons s),
      k.cpu.active = 3 ∧ k.cpu.readyQueues normal = [3, 4] := by decide +kernel
  obtain ⟨s, hs, hactive, hqueue, hscenario⟩ := booted_scenario
  obtain ⟨k, hk, hdone⟩ := hhandled s hs
  exact ⟨s, k, hs, hscenario, hactive, hqueue, hk, hdone⟩

end RvMiniOs.Sched
