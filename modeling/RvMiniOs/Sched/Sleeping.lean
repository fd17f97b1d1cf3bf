import RvMiniOs.Sched.Membership

/-!
# Sleeping tasks wake on time

`task_sleep` adds the delay to the clock in 32 bits. The deadline over the integers is kept
beside the machine as a ghost. As long as no deadline passes 32 bits, and the caller of
`scheduler_wake_sleeping` cannot be preempted by a task that it wakes, every call readies
the tasks that are due and no other.
-/
namespace RvMiniOs.Sched.Sleeping

open Lib Function List Option

structure Clocked where
  cpu : Cpu
  deadline : ℕ → ℕ

def setDeadline (s : Clocked) (secs : ℕ) : ℕ → ℕ :=
  Function.update s.deadline s.cpu.active (timeSeconds s.cpu + secs)

def deadlineAfter (s : Clocked) : Sched.Op → ℕ → ℕ
  | .sleep secs => setDeadline s secs
  | _ => s.deadline

def step (s : Clocked) : Membership.Op → Option Clocked
  | .base op => (Sched.step s.cpu op).map fun cpu => ⟨cpu, deadlineAfter s op⟩
  | .blockOnWithTimeout w secs =>
    if Enabled s.cpu (.blockOn w) ∧ s.cpu.emptyPick = false then
      some ⟨Membership.schedulerBlockOnWithTimeout s.cpu w secs, setDeadline s secs⟩
    else none

def initial : Clocked where
  cpu := taskInit
  deadline := fun _ => 0

def Unpreempted (c : Cpu) : Prop :=
  c.priority c.active = high ∨ 0 < c.preemptCount

instance (c : Cpu) : Decidable (Unpreempted c) := inferInstanceAs (Decidable (_ ∨ _))

def Clock (s : Clocked) : Membership.Op → Prop
  | .base (.sleep secs) | .blockOnWithTimeout _ secs => secs < 2 ^ 32
  | .base .irqTick => s.cpu.ticks + 1 < 2 ^ 32
  | .base .wakeSleeping => Unpreempted s.cpu
  | _ => True

def delay : Membership.Op → Option ℕ
  | .base (.sleep secs) | .blockOnWithTimeout _ secs => some secs
  | _ => none

def InTime (s : Clocked) (op : Membership.Op) : Prop :=
  Clock s op ∧ ∀ secs ∈ delay op, timeSeconds s.cpu + secs < 2 ^ 32

instance (s : Clocked) : (op : Membership.Op) → Decidable (Clock s op)
  | .base (.sleep secs) | .blockOnWithTimeout _ secs => inferInstanceAs (Decidable (secs < 2 ^ 32))
  | .base .irqTick => inferInstanceAs (Decidable (s.cpu.ticks + 1 < 2 ^ 32))
  | .base .wakeSleeping => inferInstanceAs (Decidable (Unpreempted s.cpu))
  | .base (.spawn _ _) | .base .spawnThread | .base (.ready _) | .base (.blockOn _)
  | .base (.blockOnLocked _) | .base .rotate | .base .disable | .base .enable | .base .exit
  | .base .exitGroup | .base (.reap _) | .base (.irqPost _) | .base (.irqReady _) | .base .resume =>
    inferInstanceAs (Decidable True)

instance (s : Clocked) (op : Membership.Op) : Decidable (InTime s op) :=
  inferInstanceAs (Decidable (Clock s op ∧ ∀ secs ∈ delay op, timeSeconds s.cpu + secs < 2 ^ 32))

structure WakesDue (deadline : ℕ → ℕ) (now : ℕ) (c c' : Cpu) : Prop where
  sleeping : c'.sleepingHead = c.sleepingHead.filter fun t => now < deadline t
  ready : ∀ q, c'.readyQueues q =
    c.readyQueues q ++ c.sleepingHead.filter fun t => deadline t ≤ now ∧ c.priority t = q
  once : ∀ t ∈ c.sleepingHead, deadline t ≤ now → (c'.readyQueues (c.priority t)).count t = 1
  awake : ∀ t ∈ c.sleepingHead, deadline t ≤ now → c'.state t = .running
  asleep : ∀ t ∈ c'.sleepingHead, c'.state t = .sleeping
  sorted : c'.sleepingHead.Pairwise fun t u => c'.wakeUpTime t ≤ c'.wakeUpTime u
  back : c'.active = c.active ∧ c'.frames = c.frames

def wakeCall (c : Cpu) : List Sched.Op :=
  .wakeSleeping :: List.replicate (c.sleepingHead.length + 1) .resume

def WakesOnTime (s : Clocked) : Prop :=
  Outside s.cpu → s.cpu.emptyPick = false → Unpreempted s.cpu →
    ∃ c', run Sched.step s.cpu (wakeCall s.cpu) = some c' ∧
      WakesDue s.deadline (timeSeconds s.cpu) s.cpu c'

structure InTable (c : Cpu) : Prop where
  lt_fresh : ∀ t ∈ c.table, t < c.fresh
  active_mem : c.active ∈ c.table
  ready_mem : ∀ q, ∀ t ∈ c.readyQueues q, t ∈ c.table
  waiting_mem : ∀ w, ∀ t ∈ c.waitQueues w, t ∈ c.table
  sleeping_mem : ∀ t ∈ c.sleepingHead, t ∈ c.table

structure Dozes (c : Cpu) (deadline : ℕ → ℕ) : Prop extends InTable c where
  nodup : c.sleepingHead.Nodup
  asleep : ∀ t ∈ c.sleepingHead, c.state t = .sleeping
  unready : ∀ t ∈ c.sleepingHead, ∀ q, t ∉ c.readyQueues q
  sorted : c.sleepingHead.Pairwise fun t u => c.wakeUpTime t ≤ c.wakeUpTime u
  deadline_eq : ∀ t ∈ c.sleepingHead, c.wakeUpTime t = deadline t

def IsWaking : Frame → Prop
  | .waking _ _ => True
  | _ => False

def Calm (c : Cpu) : Prop :=
  ∀ u, ∀ f ∈ c.frames u, ¬ IsWaking f

def Up (c : Cpu) : Prop :=
  c.emptyPick = false → (c.frames c.active).head? ≠ some .switchOut → c.active ∉ c.sleepingHead

structure Steady (c : Cpu) (deadline : ℕ → ℕ) : Prop where
  dozes : Dozes c deadline
  calm : Calm c
  up : Up c

section

variable {c c' : Cpu} {d : ℕ → ℕ} {t : ℕ}

theorem Dozes.shrink (h : Dozes c d) (hin : InTable c') (hsub : c'.sleepingHead.Sublist c.sleepingHead)
    (hkeep : ∀ u ∈ c'.sleepingHead, c'.state u = c.state u ∧ c'.wakeUpTime u = c.wakeUpTime u ∧
      ∀ q, u ∈ c'.readyQueues q → u ∈ c.readyQueues q) : Dozes c' d where
  toInTable := hin
  nodup := h.nodup.sublist hsub
  asleep := fun u hu => (hkeep u hu).1.trans (h.asleep u (hsub.subset hu))
  unready := fun u hu q hq => h.unready u (hsub.subset hu) q ((hkeep u hu).2.2 q hq)
  sorted := (h.sorted.sublist hsub).imp_of_mem fun hu hv hle => by
    rwa [(hkeep _ hu).2.1, (hkeep _ hv).2.1]
  deadline_eq := fun u hu => (hkeep u hu).2.1.trans (h.deadline_eq u (hsub.subset hu))

theorem Steady.shrink (h : Steady c d) (hd : Dozes c' d) (hsub : c'.sleepingHead ⊆ c.sleepingHead)
    (hactive : c'.active = c.active) (hframes : c'.frames = c.frames)
    (hpick : c'.emptyPick = c.emptyPick) : Steady c' d where
  dozes := hd
  calm := fun u => hframes ▸ h.calm u
  up := by
    unfold Up
    rw [hpick, hframes, hactive]
    exact fun hp hf hin => h.up hp hf (hsub hin)

theorem Dozes.vars (h : Dozes c d) {count : ℕ} {need : Bool} {highest : Priority} {ticks : ℕ}
    {frames : ℕ → List Frame} {opened : ℕ → ℕ} {pick : Bool} :
    Dozes { c with preemptCount := count, needResched := need, highest := highest, ticks := ticks,
                   frames := frames, opened := opened, emptyPick := pick } d :=
  { h with }

theorem Steady.vars (h : Steady c d) {count : ℕ} {need : Bool} {highest : Priority} {ticks : ℕ}
    {opened : ℕ → ℕ} :
    Steady { c with preemptCount := count, needResched := need, highest := highest, ticks := ticks,
                    opened := opened } d :=
  ⟨h.dozes.vars, h.calm, h.up⟩

theorem Calm.setFrames (h : Calm c) {fs : List Frame} (hfs : ∀ f ∈ fs, ¬ IsWaking f) :
    Calm (setFrames c t fs) := by
  intro u
  change ∀ f ∈ update c.frames t fs u, ¬ IsWaking f
  by_cases hu : u = t
  · rw [hu, update_self]
    exact hfs
  · rw [update_of_ne hu]
    exact h u

theorem Calm.pushFrame (h : Calm c) {f : Frame} (hf : ¬ IsWaking f) : Calm (pushFrame c f) :=
  h.setFrames fun g hg => by
    rcases mem_cons.mp hg with rfl | hg
    · exact hf
    · exact h _ g hg

theorem Dozes.switch (h : Dozes c d) (hmem : t ∈ c.table) (ht : t ∉ c.sleepingHead) :
    Dozes (doCtxSwitch c t) d := by
  refine h.shrink { h.toInTable with active_mem := hmem } (Sublist.refl _) fun u hu => ⟨?_, rfl, fun _ hq => hq⟩
  have hne : u ≠ t := ne_of_mem_of_not_mem hu ht
  have hawake : ¬ (u = c.active ∧ c.state u = .running) := fun hrun => by
    have hst := (h.asleep u hu).symm.trans hrun.2
    cases hst
  rw [doCtxSwitch_state, if_neg hne, if_neg hawake]

theorem Steady.of_switch (h : Dozes c d) (hcalm : Calm c) (hmem : t ∈ c.table)
    (ht : t ∉ c.sleepingHead) : Steady (doCtxSwitch c t) d :=
  ⟨h.switch hmem ht, hcalm, fun _ _ => ht⟩

theorem Dozes.not_mem_of_ready (h : Dozes c d) {q : Priority} (hq : t ∈ c.readyQueues q) :
    t ∉ c.sleepingHead :=
  fun hin => h.unready t hin q hq

theorem Steady.preempt (h : Steady c d) (hmem : t ∈ c.table) (ht : t ∉ c.sleepingHead) :
    Steady (checkAndPreempt c t) d := by
  unfold checkAndPreempt
  split_ifs
  · exact h.vars
  · exact .of_switch h.dozes h.calm hmem ht
  · exact h

theorem Steady.of_switchOut (h : Dozes c d) (hcalm : Calm c) : Steady (switchOutActive c) d := by
  obtain ⟨p, he | ⟨n, hn, he⟩⟩ := switchOutActive_cases c <;> rw [he]
  · exact ⟨h.vars, hcalm, fun hpick => absurd hpick (by simp)⟩
  · exact .of_switch h.vars hcalm (h.ready_mem p n hn) (h.not_mem_of_ready hn)

theorem Dozes.requeue (h : Dozes c d) {rq : Priority → List ℕ} (hperm : ∀ q, (rq q).Perm (c.readyQueues q)) :
    Dozes { c with readyQueues := rq } d :=
  h.shrink { h.toInTable with ready_mem := fun q u hu => h.ready_mem q u ((hperm q).mem_iff.mp hu) }
    (Sublist.refl _) fun _ _ => ⟨rfl, rfl, fun q => (hperm q).mem_iff.mp⟩

theorem Steady.rotateLocked (h : Steady c d) : Steady (rotateLocked c) d := by
  obtain ⟨rq, hperm, he⟩ := rotateLocked_cases c
  have hd := h.dozes.requeue hperm
  rcases he with he | he | ⟨q, n, hn, he⟩ <;> rw [he]
  · exact h.shrink hd (Subset.refl _) rfl rfl rfl
  · exact ⟨hd.vars, h.calm, fun hpick => absurd hpick (by simp)⟩
  · exact .of_switch hd h.calm (hd.ready_mem q n hn) (hd.not_mem_of_ready hn)

theorem Steady.resched (h : Steady c d) : Steady (reschedIfNeeded c) d := by
  unfold reschedIfNeeded
  split_ifs
  · rcases schedulerRotate_eq { c with needResched := false } with he | he <;> rw [he]
    · exact h.vars
    · exact h.vars.rotateLocked
  · exact h

theorem Steady.enter (h : Steady c d) (hactive : c.active ∉ c.sleepingHead) {f : Frame}
    (hf : ¬ IsWaking f) : Steady (pushFrame c f) d :=
  ⟨h.dozes.vars, h.calm.pushFrame hf, fun _ _ => hactive⟩

theorem Dozes.remove (h : Dozes c d) (t : ℕ) : Dozes (removeFromBlockingQueues c t) d :=
  h.shrink ⟨h.lt_fresh, h.active_mem, h.ready_mem, fun w u hu => h.waiting_mem w u (mem_of_mem_filter hu),
      fun u hu => h.sleeping_mem u (mem_of_mem_filter hu)⟩
    filter_sublist fun _ _ => ⟨rfl, rfl, fun _ hq => hq⟩

theorem not_mem_removeFromBlockingQueues (c : Cpu) (t : ℕ) :
    t ∉ (removeFromBlockingQueues c t).sleepingHead := by
  simp [removeFromBlockingQueues]

theorem Dozes.setState (h : Dozes c d) (ht : t ∉ c.sleepingHead) (st : TaskState) :
    Dozes (setState c t st) d := by
  refine h.shrink { h.toInTable with }
    (Sublist.refl _) fun u hu => ⟨?_, rfl, fun _ hq => hq⟩
  have hne : u ≠ t := ne_of_mem_of_not_mem hu ht
  exact update_of_ne hne _ _

theorem Dozes.enqueue (h : Dozes c d) (hmem : t ∈ c.table) (ht : t ∉ c.sleepingHead) :
    Dozes (readyQueueEnqueue c t) d := by
  refine h.shrink ⟨h.lt_fresh, h.active_mem, fun q u hu => ?_, h.waiting_mem, h.sleeping_mem⟩
    (Sublist.refl _) fun u hu => ⟨rfl, rfl, fun q hq => ?_⟩
  · rcases mem_readyQueueEnqueue.mp hu with hold | ⟨rfl, -⟩
    · exact h.ready_mem q u hold
    · exact hmem
  · rcases mem_readyQueueEnqueue.mp hq with hold | ⟨rfl, -⟩
    · exact hold
    · exact absurd hu ht

theorem Steady.admitted (h : Steady c d) (hmem : t ∈ c.table) (ht : t ∉ c.sleepingHead) :
    Steady (schedulerAdmit c t) d := by
  have hd : Dozes (updateHighest (readyQueueEnqueue c t) t) d := (h.dozes.enqueue hmem ht).vars
  exact (h.shrink hd (Subset.refl _) rfl rfl rfl).preempt hmem ht

theorem Steady.readyTask (h : Steady c d) (hmem : t ∈ c.table)
    (hst : c.state t = .sleeping ∨ c.state t = .blocked) : Steady (schedulerReadyTask c t) d := by
  rw [schedulerReadyTask_eq, taskWake, if_pos hst]
  have hout := not_mem_removeFromBlockingQueues c t
  have hd := (h.dozes.remove t).setState hout .running
  exact (h.shrink hd (fun _ => mem_of_mem_filter) rfl rfl rfl).admitted hmem hout

theorem Dozes.readyRemove (h : Dozes c d) (t : ℕ) : Dozes (readyQueueRemove c t) d :=
  h.shrink ⟨h.lt_fresh, h.active_mem, fun q u hu => h.ready_mem q u (mem_of_mem_filter hu),
      h.waiting_mem, h.sleeping_mem⟩
    (Sublist.refl _) fun _ _ => ⟨rfl, rfl, fun _ => mem_of_mem_filter⟩

theorem not_mem_readyQueueRemove (c : Cpu) (t : ℕ) (q : Priority) :
    t ∉ (readyQueueRemove c t).readyQueues q := by
  simp [readyQueueRemove]

theorem Steady.activate (h : Steady c d) (hawake : c.active ∉ c.sleepingHead) (p : Priority) (g : ℕ) :
    Steady (activateTask c p g) d := by
  have hfresh : c.fresh ∉ c.sleepingHead := fun hin =>
    absurd (h.dozes.lt_fresh _ (h.dozes.sleeping_mem _ hin)) (lt_irrefl _)
  have hold : ∀ u ∈ c.table, u ∈ c.table ++ [c.fresh] := fun u hu => mem_append_left _ hu
  refine Steady.admitted ⟨h.dozes.shrink ?_ (Sublist.refl _) fun u hu => ⟨?_, rfl, fun _ hq => hq⟩, ?_,
    fun _ _ => hawake⟩ (mem_append_right _ (mem_singleton.mpr rfl)) hfresh
  · refine ⟨fun u hu => ?_, hold _ h.dozes.active_mem, fun q u hu => hold u (h.dozes.ready_mem q u hu),
      fun w u hu => hold u (h.dozes.waiting_mem w u hu), fun u hu => hold u (h.dozes.sleeping_mem u hu)⟩
    rcases mem_append.mp hu with hu | hu
    · exact Nat.lt_succ_of_lt (h.dozes.lt_fresh u hu)
    · exact mem_singleton.mp hu ▸ Nat.lt_succ_self _
  · exact update_of_ne (ne_of_mem_of_not_mem hu hfresh) _ _
  · exact Calm.setFrames (t := c.fresh) h.calm (by simp)

theorem Steady.blockOn (h : Steady c d) (hawake : c.active ∉ c.sleepingHead) (w : WaitQueue) :
    Dozes (moveToWq c c.active w) d := by
  have hd := (h.dozes.readyRemove c.active).setState hawake .blocked
  refine hd.shrink ⟨hd.lt_fresh, hd.active_mem, hd.ready_mem, fun v u hu => ?_, hd.sleeping_mem⟩
    (Sublist.refl _) fun _ _ => ⟨rfl, rfl, fun _ hq => hq⟩
  change u ∈ update c.waitQueues w (c.waitQueues w ++ [c.active]) v at hu
  by_cases hv : v = w
  · subst hv
    rw [update_self] at hu
    rcases mem_append.mp hu with hu | hu
    · exact hd.waiting_mem v u hu
    · exact mem_singleton.mp hu ▸ hd.active_mem
  · rw [update_of_ne hv] at hu
    exact hd.waiting_mem v u hu

theorem Steady.of_pushSwitchOut (h : Dozes c d) (hcalm : Calm c) : Steady (pushFrame c .switchOut) d := by
  refine ⟨h.vars, hcalm.pushFrame (by simp [IsWaking]), fun _ hhead => absurd ?_ hhead⟩
  simp [pushFrame, setFrames]

theorem sorted_insert (f : ℕ → ℕ) (t : ℕ) : ∀ l : List ℕ, (l.Pairwise fun u v => f u ≤ f v) →
    ((l.takeWhile fun u => decide (f u ≤ f t)) ++ t :: l.dropWhile fun u => decide (f u ≤ f t)).Pairwise
      fun u v => f u ≤ f v
  | [], _ => by simp
  | a :: l, h => by
    obtain ⟨hhead, htail⟩ := pairwise_cons.mp h
    by_cases ha : f a ≤ f t
    · have hrest := sorted_insert f t l htail
      simp only [takeWhile_cons, dropWhile_cons, ha, decide_true, if_true, cons_append]
      refine pairwise_cons.mpr ⟨fun u hu => ?_, hrest⟩
      rcases mem_append.mp hu with hu | hu
      · exact hhead u ((takeWhile_sublist _).subset hu)
      · rcases mem_cons.mp hu with rfl | hu
        · exact ha
        · exact hhead u ((dropWhile_sublist _).subset hu)
    · simp only [takeWhile_cons, dropWhile_cons, ha, decide_false, Bool.false_eq_true, if_false, nil_append]
      refine pairwise_cons.mpr ⟨fun u hu => ?_, h⟩
      rcases mem_cons.mp hu with rfl | hu
      · exact (Nat.lt_of_not_le ha).le
      · exact (Nat.lt_of_not_le ha).le.trans (hhead u hu)

theorem mem_insertSleep (ht : t ∉ c.sleepingHead) {u : ℕ} :
    u ∈ (insertSleep c t).sleepingHead ↔ u = t ∨ u ∈ c.sleepingHead := by
  rw [(Membership.Placed.insertSleep_perm ht).mem_iff, mem_cons]

theorem Dozes.sleep (h : Dozes c d) (hmem : t ∈ c.table) (ht : t ∉ c.sleepingHead)
    (hready : ∀ q, t ∉ c.readyQueues q) {secs : ℕ} (hlt : timeSeconds c + secs < 2 ^ 32) :
    Dozes (insertSleep (taskSleep c t secs) t) (update d t (timeSeconds c + secs)) := by
  have hmod : (secs + timeSeconds c) % 2 ^ 32 = timeSeconds c + secs := by
    rw [Nat.add_comm secs, Nat.mod_eq_of_lt hlt]
  -- what the tasks that sleep already keep
  have hne : ∀ u ∈ c.sleepingHead, u ≠ t := fun u hu => ne_of_mem_of_not_mem hu ht
  have htime : ∀ u ∈ c.sleepingHead, (taskSleep c t secs).wakeUpTime u = c.wakeUpTime u :=
    fun u hu => update_of_ne (hne u hu) _ _
  have hlist : (taskSleep c t secs).sleepingHead = c.sleepingHead := rfl
  have hcases : ∀ u ∈ (insertSleep (taskSleep c t secs) t).sleepingHead, u = t ∨ u ∈ c.sleepingHead :=
    fun u hu => (mem_insertSleep (c := taskSleep c t secs) ht).mp hu
  refine ⟨⟨h.lt_fresh, h.active_mem, h.ready_mem, h.waiting_mem, fun u hu => ?_⟩, ?_, fun u hu => ?_,
    fun u hu => ?_, ?_, fun u hu => ?_⟩
  · rcases hcases u hu with rfl | hu
    · exact hmem
    · exact h.sleeping_mem u hu
  · rw [(Membership.Placed.insertSleep_perm (c := taskSleep c t secs) ht).nodup_iff]
    exact nodup_cons.mpr ⟨ht, h.nodup⟩
  · rcases hcases u hu with rfl | hu
    · exact update_self _ _ _
    · exact (update_of_ne (hne u hu) _ _).trans (h.asleep u hu)
  · rcases hcases u hu with rfl | hu
    · exact hready
    · exact h.unready u hu
  · simp only [insertSleep, hlist, if_neg ht]
    refine sorted_insert _ t _ (h.sorted.imp_of_mem fun hu hv hle => ?_)
    rwa [htime _ hu, htime _ hv]
  · rcases hcases u hu with rfl | hu
    · rw [update_self]
      exact (update_self _ _ _).trans hmod
    · rw [update_of_ne (hne u hu)]
      exact (htime u hu).trans (h.deadline_eq u hu)

theorem Steady.sleep (h : Steady c d) (hawake : c.active ∉ c.sleepingHead) {secs : ℕ}
    (hlt : timeSeconds c + secs < 2 ^ 32) :
    Steady (schedulerSleep c secs) (update d c.active (timeSeconds c + secs)) :=
  .of_pushSwitchOut ((h.dozes.readyRemove c.active).sleep h.dozes.active_mem hawake
    (not_mem_readyQueueRemove c c.active) hlt) h.calm

theorem Dozes.setDeadline (h : Dozes c d) (ht : t ∉ c.sleepingHead) (n : ℕ) : Dozes c (update d t n) :=
  { h with
    deadline_eq := fun u hu => by
      rw [update_of_ne (ne_of_mem_of_not_mem hu ht)]
      exact h.deadline_eq u hu }

theorem Steady.blockOnWithTimeout (h : Steady c d) (hawake : c.active ∉ c.sleepingHead) (w : WaitQueue)
    {secs : ℕ} (hlt : timeSeconds c + secs < 2 ^ 32) :
    Steady (Membership.schedulerBlockOnWithTimeout c w secs)
      (update d c.active (timeSeconds c + secs)) := by
  have hd := h.blockOn hawake w
  unfold Membership.schedulerBlockOnWithTimeout
  dsimp only
  split_ifs
  · exact .of_pushSwitchOut (hd.sleep h.dozes.active_mem hawake (not_mem_readyQueueRemove c c.active) hlt)
      h.calm
  · exact .of_pushSwitchOut (hd.setDeadline hawake _) h.calm

theorem Steady.beginExit (h : Steady c d) (hawake : c.active ∉ c.sleepingHead) : Steady (beginExit c) d := by
  have hd := ((h.dozes.setState hawake .zombie).readyRemove c.active).remove c.active
  exact ⟨hd.vars, Calm.pushFrame h.calm (by simp [IsWaking]),
    fun _ _ => not_mem_removeFromBlockingQueues _ c.active⟩

theorem Steady.finishExit (h : Steady c d) : Steady (finishExit c) d := by
  have hset : Steady (setFrames c c.active [.switchOut, .zombieExit]) d := by
    refine ⟨h.dozes.vars, h.calm.setFrames (by simp [IsWaking]), fun _ hhead => absurd ?_ hhead⟩
    simp [setFrames]
  unfold Sched.finishExit
  dsimp only
  split_ifs with hp
  · exact hset.readyTask (h.dozes.waiting_mem _ _ hp.2) (.inr hp.1)
  · exact hset

theorem Steady.destroy (h : Steady c d) (hne : t ≠ c.active) : Steady (taskDestroy c t) d := by
  have hmem : ∀ {u : ℕ} {l : List ℕ}, u ∈ l.filter (· ≠ t) ↔ u ∈ l ∧ u ≠ t := by simp
  have hd := h.dozes
  refine h.shrink (hd.shrink ⟨fun u hu => hd.lt_fresh u (hmem.mp hu).1, hmem.mpr ⟨hd.active_mem, hne.symm⟩,
      fun q u hu => hmem.mpr ⟨hd.ready_mem q u (hmem.mp hu).1, (hmem.mp hu).2⟩,
      fun w u hu => hmem.mpr ⟨hd.waiting_mem w u (hmem.mp hu).1, (hmem.mp hu).2⟩,
      fun u hu => hmem.mpr ⟨hd.sleeping_mem u (hmem.mp hu).1, (hmem.mp hu).2⟩⟩ filter_sublist
    fun u hu => ⟨?_, rfl, fun q hq => (hmem.mp hq).1⟩) (fun _ hu => (hmem.mp hu).1) rfl rfl rfl
  exact update_of_ne (hmem.mp hu).2 _ _

theorem Steady.destroyGroup (g : ℕ) : ∀ (l : List ℕ) {c : Cpu}, Steady c d → c.active ∉ c.sleepingHead →
    Steady (l.foldl (exitTgidCb g) c) d ∧
      (l.foldl (exitTgidCb g) c).active ∉ (l.foldl (exitTgidCb g) c).sleepingHead
  | [], _, h, hawake => ⟨h, hawake⟩
  | t :: l, c, h, hawake => by
    rw [foldl_cons, exitTgidCb]
    split_ifs with hmember
    · exact Steady.destroyGroup g l (h.destroy hmember.2) fun hin => hawake (mem_of_mem_filter hin)
    · exact Steady.destroyGroup g l h hawake

theorem Steady.exitGroup (h : Steady c d) (hawake : c.active ∉ c.sleepingHead) :
    Steady (schedulerExitGroup c) d :=
  (Steady.destroyGroup _ c.table h hawake).1.beginExit (Steady.destroyGroup _ c.table h hawake).2

structure Looping (c : Cpu) (d : ℕ → ℕ) (cursor : Option ℕ) (now : ℕ) : Prop where
  dozes : Dozes c d
  calm : ∀ u, u ≠ c.active → ∀ f ∈ c.frames u, ¬ IsWaking f
  awake : c.active ∉ c.sleepingHead
  frames : c.frames c.active = [.waking cursor now]
  cursor_mem : ∀ node ∈ cursor, node ∈ c.sleepingHead
  unpreempted : Unpreempted c

structure Walks (d : ℕ → ℕ) (now : ℕ) (l : List ℕ) (c c' : Cpu) : Prop where
  sleeping : c'.sleepingHead = c.sleepingHead.filter fun t => ¬ (t ∈ l ∧ d t ≤ now)
  ready : ∀ q, c'.readyQueues q =
    c.readyQueues q ++ l.filter fun t => d t ≤ now ∧ c.priority t = q
  awake : ∀ t ∈ l, d t ≤ now → c'.state t = .running
  kept : ∀ t, ¬ (t ∈ l ∧ d t ≤ now) → c'.state t = c.state t
  priority : c'.priority = c.priority
  active : c'.active = c.active
  pick : c'.emptyPick = c.emptyPick
  frames : ∀ u, u ≠ c.active → c'.frames u = c.frames u

theorem calm_update {frames : ℕ → List Frame} {fs : List Frame}
    (h : ∀ u, u ≠ t → ∀ f ∈ frames u, ¬ IsWaking f) (u : ℕ) (hu : u ≠ t) :
    ∀ f ∈ update frames t fs u, ¬ IsWaking f := by
  rw [update_of_ne hu]
  exact h u hu

def turn (c : Cpu) (node now : ℕ) : Cpu :=
  wakeUpSleepingCb (setFrames c c.active [.waking (nextSleeping c node) now]) now node

theorem readyTask_unpreempted (h : Unpreempted c) (t : ℕ) :
    ∃ b, schedulerReadyTask c t = { makeReady (taskWake c t) t with needResched := b } := by
  obtain ⟨sl, wq, st, hwake, -⟩ := taskWake_eq c t
  rw [schedulerReadyTask_eq, schedulerAdmit_eq]
  split_ifs with hlt hcount
  · exact ⟨true, rfl⟩
  · exfalso
    rw [hwake] at hlt hcount
    rcases h with hhigh | hpos
    · exact absurd (hhigh ▸ hlt : c.priority t < high) (Fin.not_lt_zero _)
    · exact hcount hpos
  · exact ⟨_, rfl⟩

theorem readyQueueEnqueue_of_not_mem (h : t ∉ c.readyQueues (c.priority t)) :
    readyQueueEnqueue c t =
      { c with
        readyQueues :=
          update c.readyQueues (c.priority t) (c.readyQueues (c.priority t) ++ [t]) } := by
  rw [readyQueueEnqueue, if_neg h]

theorem turn_early {node now : ℕ} (h : now < c.wakeUpTime node) :
    turn c node now = setFrames c c.active [.waking (nextSleeping c node) now] :=
  if_pos h

theorem Looping.turn_due {node now : ℕ} (h : Looping c d (some node) now)
    (hdue : c.wakeUpTime node ≤ now) : ∃ highest need wq,
    (∀ w, wq w ⊆ c.waitQueues w) ∧ turn c node now =
      { c with
        frames := update c.frames c.active [.waking (nextSleeping c node) now]
        sleepingHead := c.sleepingHead.filter (· ≠ node)
        waitQueues := wq
        state := update c.state node .running
        readyQueues := update c.readyQueues (c.priority node)
          (c.readyQueues (c.priority node) ++ [node])
        highest := highest
        needResched := need } := by
  have hnode := h.cursor_mem node rfl
  have hst := h.dozes.asleep node hnode
  obtain ⟨need, hneed⟩ := readyTask_unpreempted
    (c := setFrames c c.active [.waking (nextSleeping c node) now]) h.unpreempted node
  refine ⟨if c.priority node < c.highest then c.priority node else c.highest, need,
    fun w => (c.waitQueues w).filter (· ≠ node), fun w _ => mem_of_mem_filter, ?_⟩
  have hcb : turn c node now =
      schedulerReadyTask (setFrames c c.active [.waking (nextSleeping c node) now]) node :=
    (if_neg (not_lt.mpr hdue)).trans (Membership.Placed.readyTask_unlinked hst)
  have hunready : node ∉ c.readyQueues (c.priority node) := h.dozes.unready node hnode _
  rw [hcb, hneed, taskWake, if_pos (.inl hst), makeReady, readyQueueEnqueue_of_not_mem]
  · rfl
  · exact hunready

theorem Looping.turn_looping {node now : ℕ} (h : Looping c d (some node) now) :
    Looping (turn c node now) d (nextSleeping c node) now := by
  have hnode := h.cursor_mem node rfl
  have hnext : ∀ u ∈ nextSleeping c node, u ∈ c.sleepingHead ∧ u ≠ node := fun u hu =>
    Membership.Placed.nextSleeping_mem h.dozes.nodup hnode hu
  rcases lt_or_ge now (c.wakeUpTime node) with hearly | hdue
  · rw [turn_early hearly]
    exact ⟨h.dozes.vars, calm_update h.calm, h.awake,
      update_self _ _ _, fun u hu => (hnext u hu).1, h.unpreempted⟩
  · obtain ⟨highest, need, wq, hwq, heq⟩ := h.turn_due hdue
    rw [heq]
    have hmem : ∀ q u, u ∈ update c.readyQueues (c.priority node)
        (c.readyQueues (c.priority node) ++ [node]) q → u ∈ c.readyQueues q ∨ u = node := by
      intro q u hu
      by_cases hq : q = c.priority node
      · subst hq
        rw [update_self] at hu
        exact (mem_append.mp hu).imp_right mem_singleton.mp
      · rw [update_of_ne hq] at hu
        exact .inl hu
    refine ⟨h.dozes.shrink ⟨h.dozes.lt_fresh, h.dozes.active_mem, fun q u hu => ?_,
        fun w u hu => h.dozes.waiting_mem w u (hwq w hu),
        fun u hu => h.dozes.sleeping_mem u (mem_of_mem_filter hu)⟩ filter_sublist
        fun u hu => ?_, calm_update h.calm,
      fun hin => h.awake (mem_of_mem_filter hin), update_self _ _ _, fun u hu => ?_, h.unpreempted⟩
    · rcases hmem q u hu with hold | rfl
      · exact h.dozes.ready_mem q u hold
      · exact h.dozes.sleeping_mem u hnode
    · have hne : u ≠ node := by simpa using (mem_filter.mp hu).2
      exact ⟨update_of_ne hne _ _, rfl, fun q hq => (hmem q u hq).resolve_right hne⟩
    · exact mem_filter.mpr ⟨(hnext u hu).1, by simpa using (hnext u hu).2⟩

theorem Looping.turn_walks {node now : ℕ} (h : Looping c d (some node) now) :
    Walks d now [node] c (turn c node now) := by
  have hnode := h.cursor_mem node rfl
  have htime := h.dozes.deadline_eq node hnode
  rcases lt_or_ge now (c.wakeUpTime node) with hearly | hdue
  · have hnot : ¬ d node ≤ now := not_le.mpr (htime ▸ hearly)
    rw [turn_early hearly]
    refine ⟨?_, fun q => ?_, ?_, fun t _ => rfl, rfl, rfl, rfl, fun u hu => update_of_ne hu _ _⟩
    · refine (filter_eq_self.mpr fun t _ => ?_).symm
      simp only [mem_singleton, decide_eq_true_eq]
      rintro ⟨rfl, hle⟩
      exact hnot hle
    · simp [hnot, setFrames]
    · simp [hnot]
  · have hle : d node ≤ now := htime ▸ hdue
    obtain ⟨highest, need, wq, -, heq⟩ := h.turn_due hdue
    rw [heq]
    refine ⟨?_, fun q => ?_, fun t ht _ => ?_, fun t ht => ?_, rfl, rfl, rfl,
      fun u hu => update_of_ne hu _ _⟩
    · refine filter_congr fun t _ => ?_
      by_cases ht : t = node
      · simp [ht, hle]
      · simp [ht]
    · by_cases hq : c.priority node = q
      · subst hq
        simp [hle]
      · simp [hq, update_of_ne (Ne.symm hq)]
    · rw [mem_singleton.mp ht]
      exact update_self _ _ _
    · have hne : t ≠ node := by
        rintro rfl
        exact ht ⟨mem_singleton.mpr rfl, hle⟩
      exact update_of_ne hne _ _

theorem Walks.cons {c'' : Cpu} {now node : ℕ} {l : List ℕ} (h1 : Walks d now [node] c c')
    (h2 : Walks d now l c' c'') (hnode : node ∉ l) : Walks d now (node :: l) c c'' where
  sleeping := by
    rw [h2.sleeping, h1.sleeping, List.filter_filter]
    refine List.filter_congr fun t _ => ?_
    by_cases ht : t = node <;> simp [ht, hnode]
  ready := fun q => by
    rw [h2.ready, h1.ready, h1.priority, List.append_assoc, ← List.filter_append, List.singleton_append]
  awake := fun t ht hle => by
    rcases List.mem_cons.mp ht with rfl | ht
    · rw [h2.kept t fun hin => hnode hin.1]
      exact h1.awake t (List.mem_singleton.mpr rfl) hle
    · exact h2.awake t ht hle
  kept := fun t ht => by
    rw [h2.kept t fun hin => ht ⟨List.mem_cons_of_mem _ hin.1, hin.2⟩]
    exact h1.kept t fun hin => ht ⟨List.mem_singleton.mp hin.1 ▸ List.mem_cons_self, hin.2⟩
  priority := h2.priority.trans h1.priority
  active := h2.active.trans h1.active
  pick := h2.pick.trans h1.pick
  frames := fun u hu => (h2.frames u (h1.active ▸ hu)).trans (h1.frames u hu)

theorem step_resume_turn {node now : ℕ} (h : Looping c d (some node) now) (hpick : c.emptyPick = false) :
    Sched.step c .resume = some (turn c node now) := by
  have hmem := h.dozes.sleeping_mem node (h.cursor_mem node rfl)
  simp only [Sched.step, Enabled, hpick, and_self, if_true, Op.apply, resumeFrame, h.frames, if_pos hmem]
  rfl

theorem step_resume_end {now : ℕ} (h : Looping c d none now) (hpick : c.emptyPick = false) :
    Sched.step c .resume = some (setFrames c c.active []) := by
  simp only [Sched.step, Enabled, hpick, and_self, if_true, Op.apply, resumeFrame, h.frames]

theorem Looping.run_resume {now : ℕ} : ∀ (rest : List ℕ) {c : Cpu} {kept : List ℕ},
    Looping c d rest.head? now → c.emptyPick = false → c.sleepingHead = kept ++ rest →
      ∃ c1, run Sched.step c (replicate (rest.length + 1) .resume) = some (setFrames c1 c1.active []) ∧
        Looping c1 d none now ∧ Walks d now rest c c1
  | [], c, _, h, hpick, _ => by
    refine ⟨c, ?_, h, ?_⟩
    · simp [run, step_resume_end h hpick]
    · exact ⟨by simp, by simp, by simp, fun _ _ => rfl, rfl, rfl, rfl, fun _ _ => rfl⟩
  | node :: rest, c, kept, h, hpick, hlist => by
    have hnodup := hlist ▸ h.dozes.nodup
    have hkept : node ∉ kept := fun hin => (nodup_append'.mp hnodup).2.2 hin mem_cons_self
    have hrest : node ∉ rest := (nodup_cons.mp (nodup_append'.mp hnodup).2.1).1
    have hnext := nextSleeping_append hlist hkept
    have hturn := h.turn_walks
    have hloop : Looping (turn c node now) d rest.head? now := hnext ▸ h.turn_looping
    -- the tasks after the cursor are still in the list, behind those that were kept
    have hlist' : (turn c node now).sleepingHead =
        ((kept ++ [node]).filter fun t => ¬ (t ∈ [node] ∧ d t ≤ now)) ++ rest := by
      have hself : (rest.filter fun t => ¬ (t ∈ [node] ∧ d t ≤ now)) = rest := by
        refine filter_eq_self.mpr fun t ht => ?_
        have hne : t ≠ node := ne_of_mem_of_not_mem ht hrest
        simp [hne]
      rw [hturn.sleeping, hlist, append_cons, filter_append, hself]
    obtain ⟨c1, hrun, hend, hwalks⟩ :=
      Looping.run_resume rest hloop (hturn.pick.trans hpick) hlist'
    refine ⟨c1, ?_, hend, hturn.cons hwalks hrest⟩
    rw [length_cons, replicate_succ, run, step_resume_turn h hpick]
    exact hrun

theorem Steady.wakeSleeping (h : Steady c d) (hout : Outside c) (hawake : c.active ∉ c.sleepingHead)
    (hcall : Unpreempted c) : Looping (schedulerWakeSleeping c) d c.sleepingHead.head? (timeSeconds c) where
  dozes := h.dozes.vars
  calm := calm_update fun u _ => h.calm u
  awake := hawake
  frames := (update_self _ _ _).trans (by rw [show c.frames c.active = [] from hout])
  cursor_mem := fun _ hnode => mem_of_head? hnode
  unpreempted := hcall

theorem Looping.to_steady {now : ℕ} (h : Looping c d none now) : Steady (setFrames c c.active []) d := by
  refine ⟨h.dozes.vars, fun u => ?_, fun _ _ => h.awake⟩
  change ∀ f ∈ update c.frames c.active [] u, ¬ IsWaking f
  by_cases hu : u = c.active
  · simp [hu]
  · rw [update_of_ne hu]
    exact h.calm u hu

theorem Outside.awake (h : Steady c d) (hpick : c.emptyPick = false) (hout : Outside c) :
    c.active ∉ c.sleepingHead :=
  h.up hpick (by simp [show c.frames c.active = [] from hout])

theorem Steady.wakesDue (h : Steady c d) (hpick : c.emptyPick = false) (hout : Outside c)
    (hcall : Unpreempted c) :
    ∃ c', run Sched.step c (wakeCall c) = some c' ∧ WakesDue d (timeSeconds c) c c' := by
  have hloop := h.wakeSleeping hout (Outside.awake h hpick hout) hcall
  obtain ⟨c1, hrun, hend, hw⟩ := hloop.run_resume c.sleepingHead hpick (nil_append _).symm
  have hstep : Sched.step c .wakeSleeping = some (schedulerWakeSleeping c) := if_pos ⟨hout, hpick⟩
  have hsteady := hend.to_steady
  refine ⟨setFrames c1 c1.active [], ?_, ?_, hw.ready, fun t ht hle => ?_, hw.awake,
    hsteady.dozes.asleep, hsteady.dozes.sorted, hw.active, ?_⟩
  · rw [wakeCall, run, hstep]
    exact hrun
  · refine hw.sleeping.trans (filter_congr fun t ht => ?_)
    have hin : t ∈ c.sleepingHead := ht
    simp [hin]
  · -- the task was in no queue, and it is once among the sleeping ones
    have hcount : c1.readyQueues (c.priority t) = c.readyQueues (c.priority t) ++
        c.sleepingHead.filter fun u => d u ≤ timeSeconds c ∧ c.priority u = c.priority t :=
      hw.ready (c.priority t)
    change (c1.readyQueues (c.priority t)).count t = 1
    rw [hcount, count_append, count_eq_zero.mpr (h.dozes.unready t ht _), Nat.zero_add]
    rw [count_filter (by simpa using hle)]
    exact count_eq_one_of_mem h.dozes.nodup ht
  · have hactive : c1.active = c.active := hw.active
    funext u
    change update c1.frames c1.active [] u = c.frames u
    rw [hactive]
    by_cases hu : u = c.active
    · rw [hu, update_self]
      exact (show c.frames c.active = [] from hout).symm
    · rw [update_of_ne hu, hw.frames u hu]
      exact update_of_ne hu _ _

theorem Looping.eq_resume {cursor : Option ℕ} {now : ℕ} (h : Looping c d cursor now) {op : Sched.Op}
    (hen : Enabled c op) : op = .resume := by
  cases op <;> simp_all [Enabled, MayLock, MayInterrupt, Outside, h.frames]

end

def Inv (s : Clocked) : Prop :=
  Steady s.cpu s.deadline ∨ ∃ cursor now, Looping s.cpu s.deadline cursor now

theorem Inv.initial : Inv initial := by
  refine .inl ⟨⟨⟨by decide, by decide, by decide, fun _ => by simp [Sleeping.initial, taskInit], by decide⟩,
    by decide, by decide, by decide, by decide, by decide⟩, fun _ => ?_, fun _ _ => by decide⟩
  simp [Sleeping.initial, taskInit]

section

variable {c c' : Cpu} {d : ℕ → ℕ}

theorem MayLock.awake (h : Steady c d) (hpick : c.emptyPick = false) (hlock : MayLock c) :
    c.active ∉ c.sleepingHead := by
  rcases hlock with hout | hhead
  · exact Outside.awake h hpick hout
  · exact h.up hpick (by simp [hhead])

theorem Steady.resume (h : Steady c d) (hr : resumeFrame c = some c') : Steady c' d := by
  have htop : ∀ f fs, c.frames c.active = f :: fs → Calm (setFrames c c.active fs) := fun f fs hfs =>
    h.calm.setFrames fun g hg => h.calm c.active g (hfs ▸ mem_cons_of_mem _ hg)
  have hloop : ∀ cursor now fs, c.frames c.active ≠ .waking cursor now :: fs := fun cursor now fs hfs =>
    h.calm c.active (.waking cursor now) (by simp [hfs]) trivial
  unfold resumeFrame at hr
  split at hr
  next => cases hr
  next w fs hfs =>
    have hset : ∀ gs, (gs = fs ∨ ∃ w', gs = .resched w' :: fs) → Steady (setFrames c c.active gs) d := by
      refine fun gs hgs => ⟨h.dozes.vars, h.calm.setFrames fun g hg => ?_,
        fun hpick _ => h.up hpick (by simp [hfs])⟩
      rcases hgs with rfl | ⟨w', rfl⟩
      · exact h.calm c.active g (hfs ▸ mem_cons_of_mem _ hg)
      · rcases mem_cons.mp hg with rfl | hin
        · simp [IsWaking]
        · exact h.calm c.active g (hfs ▸ mem_cons_of_mem _ hin)
    rcases resumeResched_cases c fs w with ⟨need, gs, hgs, he⟩ | he
    · exact some.inj hr ▸ he ▸ (hset gs hgs).vars
    · exact some.inj hr ▸ he ▸ (hset fs (.inl rfl)).rotateLocked
  next fs hfs => exact some.inj hr ▸ .of_switchOut h.dozes.vars (htop _ fs hfs)
  next now fs hfs => exact absurd hfs (hloop _ _ _)
  next node now fs hfs => exact absurd hfs (hloop _ _ _)
  next fs hfs =>
    split_ifs at hr
    exact some.inj hr ▸ h.finishExit
  next => cases hr

theorem Wakeable.off {t : ℕ} (h : Wakeable c t) : c.state t = .sleeping ∨ c.state t = .blocked :=
  h.2.2.symm

theorem Inv.steady_step {s : Clocked} {op : Sched.Op} {cpu : Cpu} (h : Steady s.cpu s.deadline)
    (hok : InTime s (.base op)) (hcpu : Sched.step s.cpu op = some cpu) :
    Inv ⟨cpu, deadlineAfter s op⟩ := by
  unfold Sched.step at hcpu
  split_ifs at hcpu with hboth
  obtain ⟨hen, hpick⟩ := hboth
  have hout : Outside s.cpu → s.cpu.active ∉ s.cpu.sleepingHead := Outside.awake h hpick
  have hlock : MayLock s.cpu → s.cpu.active ∉ s.cpu.sleepingHead := MayLock.awake h hpick
  cases op with
  | spawn p g => exact .inl (some.inj hcpu ▸ h.activate (hout hen.1) p g)
  | spawnThread => exact .inl (some.inj hcpu ▸ h.activate (hout hen.1) _ _)
  | ready t => exact .inl (some.inj hcpu ▸ h.readyTask hen.2.1 (Wakeable.off hen.2))
  | sleep secs => exact .inl (some.inj hcpu ▸ h.sleep (hout hen.1) (hok.2 secs rfl))
  | blockOn w =>
    exact .inl (some.inj hcpu ▸ .of_pushSwitchOut (h.blockOn (hout hen.1) w) h.calm)
  | blockOnLocked w =>
    have hblock : Steady (schedulerBlockOn s.cpu w) s.deadline :=
      .of_pushSwitchOut (h.blockOn (hlock hen.1) w) h.calm
    exact .inl (some.inj hcpu ▸ Steady.resched hblock.vars)
  | wakeSleeping =>
    exact .inr ⟨_, _, some.inj hcpu ▸ h.wakeSleeping hen (hout hen) hok.1⟩
  | rotate => exact .inl (some.inj hcpu ▸ h.enter (hout hen) (by simp [IsWaking]))
  | disable => exact .inl (some.inj hcpu ▸ h.vars)
  | enable =>
    have hleft : Steady (leaveSection s.cpu) s.deadline := h.vars
    refine .inl (some.inj hcpu ▸ ?_)
    change Steady (if Outside s.cpu then pushFrame (leaveSection s.cpu) (.resched .count)
      else schedulerEnablePreempt s.cpu) s.deadline
    split_ifs
    · exact hleft.enter (hlock hen.1) (by simp [IsWaking])
    · exact hleft.resched
  | exit => exact .inl (some.inj hcpu ▸ h.beginExit (hout hen.1))
  | exitGroup => exact .inl (some.inj hcpu ▸ h.exitGroup (hout hen.1))
  | reap z => exact .inl (some.inj hcpu ▸ h.destroy hen.2.2.1)
  | irqTick => exact .inl (some.inj hcpu ▸ h.vars)
  | irqPost t =>
    have hready : Steady (schedulerReadyTask (schedulerDisablePreempt s.cpu) t) s.deadline :=
      Steady.readyTask h.vars hen.2.1.1 (Wakeable.off hen.2.1)
    exact .inl (some.inj hcpu ▸ Steady.resched hready.vars)
  | irqReady t => exact .inl (some.inj hcpu ▸ h.readyTask hen.2.1 (Wakeable.off hen.2))
  | resume => exact .inl (h.resume hcpu)

theorem Inv.looping_step {s : Clocked} {cursor : Option ℕ} {now : ℕ} {op : Sched.Op} {cpu : Cpu}
    (h : Looping s.cpu s.deadline cursor now) (hcpu : Sched.step s.cpu op = some cpu) :
    Inv ⟨cpu, deadlineAfter s op⟩ := by
  have hboth : Enabled s.cpu op ∧ s.cpu.emptyPick = false := by
    unfold Sched.step at hcpu
    split_ifs at hcpu with hboth
    exact hboth
  obtain rfl := h.eq_resume hboth.1
  cases cursor with
  | none =>
    rw [step_resume_end h hboth.2] at hcpu
    exact .inl (some.inj hcpu ▸ h.to_steady)
  | some node =>
    rw [step_resume_turn h hboth.2] at hcpu
    exact .inr ⟨_, now, some.inj hcpu ▸ h.turn_looping⟩

theorem Inv.step {s s' : Clocked} {op : Membership.Op} (h : Inv s) (hok : InTime s op)
    (hstep : Sleeping.step s op = some s') : Inv s' := by
  cases op with
  | base op =>
    obtain ⟨cpu, hcpu, rfl⟩ := map_eq_some_iff.mp hstep
    rcases h with h | ⟨cursor, now, h⟩
    · exact Inv.steady_step h hok hcpu
    · exact Inv.looping_step h hcpu
  | blockOnWithTimeout w secs =>
    simp only [Sleeping.step] at hstep
    split_ifs at hstep with hboth
    rcases h with h | ⟨cursor, now, h⟩
    · have hawake := Outside.awake h hboth.2 hboth.1.1
      exact .inl (some.inj hstep ▸ h.blockOnWithTimeout hawake w (hok.2 secs rfl))
    · exact absurd (h.eq_resume hboth.1) (by simp)

end

/-- In every run in which no deadline passes 32 bits, `scheduler_wake_sleeping` makes ready
the tasks that are due and no other. -/
theorem sleepers_wake_on_time {s : Clocked} (h : Reaches step InTime initial s) : WakesOnTime s := by
  have hinv : Inv s := h.invariant (P := Inv) Inv.initial fun _ _ _ => Inv.step
  intro hout hpick hcall
  rcases hinv with hsteady | ⟨cursor, now, hloop⟩
  · exact hsteady.wakesDue hpick hout hcall
  · have hframes : s.cpu.frames s.cpu.active = [] := hout
    rw [hloop.frames] at hframes
    cases hframes

def ops (l : List Sched.Op) : List Membership.Op := l.map .base

def aSecond : List Membership.Op := List.replicate itfreq (.base .irqTick)

def twoSleepers : List Membership.Op :=
  ops [.spawn high 1, .spawn normal 2, .spawn normal 3, .blockOn (.other 0), .resume, .sleep 5, .resume,
    .sleep 1, .resume] ++ (aSecond ++ ops [.irqReady 1])

theorem sleepers_wake_on_time_twoSleepers : ∃ s, Reaches step InTime initial s ∧ Outside s.cpu ∧
    s.cpu.emptyPick = false ∧ Unpreempted s.cpu ∧ timeSeconds s.cpu = 1 ∧ s.cpu.sleepingHead = [3, 2] ∧
    s.cpu.sleepingHead.map s.deadline = [1, 5] ∧ WakesOnTime s := by
  obtain ⟨s, hrun, hout, hpick, hcall, hnow, hlist, hdeadlines⟩ :
      ∃ s, run step initial twoSleepers = some s ∧ Outside s.cpu ∧ s.cpu.emptyPick = false ∧
        Unpreempted s.cpu ∧ timeSeconds s.cpu = 1 ∧ s.cpu.sleepingHead = [3, 2] ∧
        s.cpu.sleepingHead.map s.deadline = [1, 5] :=
    exists_of_run_any twoSleepers (by decide +kernel)
  have hreach : Reaches step InTime initial s := .of_run twoSleepers (by decide +kernel) hrun
  exact ⟨s, hreach, hout, hpick, hcall, hnow, hlist, hdeadlines, sleepers_wake_on_time hreach⟩

def longSleeper : List Membership.Op :=
  ops [.spawn high 1, .spawn normal 2, .blockOn (.other 0), .resume] ++
    (aSecond ++ ops [.sleep (2 ^ 32 - 1), .resume, .irqReady 1])

/-- Its deadline wraps to 0, and the daemon wakes it at once. -/
theorem long_sleeper_wakes_early : ∃ s, Reaches step Clock initial s ∧ Outside s.cpu ∧
    timeSeconds s.cpu = 1 ∧ s.cpu.sleepingHead = [2] ∧ s.deadline 2 = 2 ^ 32 ∧ s.cpu.wakeUpTime 2 = 0 ∧
    (∃ c', run Sched.step s.cpu (wakeCall s.cpu) = some c' ∧ c'.readyQueues normal = [2]) ∧
    ¬ WakesOnTime s := by
  obtain ⟨s, hrun, hout, hcall, hpick, hnow, hlist, hdeadline, htime, hwoken⟩ :
      ∃ s, run step initial longSleeper = some s ∧ Outside s.cpu ∧ Unpreempted s.cpu ∧
      s.cpu.emptyPick = false ∧ timeSeconds s.cpu = 1 ∧ s.cpu.sleepingHead = [2] ∧
      s.deadline 2 = 2 ^ 32 ∧ s.cpu.wakeUpTime 2 = 0 ∧
      (run Sched.step s.cpu (wakeCall s.cpu)).any
        (fun c' => decide (c'.sleepingHead = [] ∧ c'.readyQueues normal = [2])) = true :=
    exists_of_run_any longSleeper (by decide +kernel)
  have hreach : Reaches step Clock initial s := .of_run longSleeper (by decide +kernel) hrun
  obtain ⟨c', hcall', hempty, hready⟩ := exists_of_run_any (wakeCall s.cpu) hwoken
  refine ⟨s, hreach, hout, hnow, hlist, hdeadline, htime, ⟨c', hcall', hready⟩, fun hwakes => ?_⟩
  obtain ⟨c'', hcall'', hdue⟩ := hwakes hout hpick hcall
  obtain rfl : c' = c'' := some.inj (hcall'.symm.trans hcall'')
  have hlist' := hdue.sleeping
  rw [hempty, hlist, hnow] at hlist'
  simp [hdeadline] at hlist'

end RvMiniOs.Sched.Sleeping
