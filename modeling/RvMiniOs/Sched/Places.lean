import RvMiniOs.Sched.Invariant

/-!
# Task states and queue membership

The scheduler machine with the zombies lists of the tasks and with
`scheduler_block_on_with_timeout`. The `wait_node` of a task links it in a wait
queue or in the zombies list of its parent. A step moves one task from one place
to another.
-/
namespace RvMiniOs.Sched.Membership

open Lib Function List

/-- With a timeout the task is in the wait queue and in the sleeping list. -/
def schedulerBlockOnWithTimeout (s : Cpu) (w : WaitQueue) (secs : ℕ) : Cpu :=
  let s := moveToWq s s.active w
  let s := if 0 < secs then insertSleep (taskSleep s s.active secs) s.active else s
  pushFrame s .switchOut

structure Sys where
  cpu : Cpu
  zombies : ℕ → List ℕ

inductive Op where
  | base (op : Sched.Op)
  | blockOnWithTimeout (w : WaitQueue) (secs : ℕ)
  deriving DecidableEq, Repr

/-- `task_zombify` links the task after its `release_fds`; `sys_wait` and
`sys_waitpid` unlink the task that they reap. -/
def zombiesAfter (s : Sys) : Sched.Op → ℕ → List ℕ
  | .resume =>
    if (s.cpu.frames s.cpu.active).head? = some .exiting then
      let p := s.cpu.parent s.cpu.active
      Function.update s.zombies p (s.zombies p ++ [s.cpu.active])
    else s.zombies
  | .reap z => fun p => (s.zombies p).filter (· ≠ z)
  | _ => s.zombies

/-- A task is reaped out of the zombies list of the caller, no task is destroyed
before its children, and no thread group is killed. -/
def Permitted (s : Sys) : Sched.Op → Prop
  | .exitGroup => False
  | .reap z => z ∈ s.zombies s.cpu.active ∧ ∀ t ∈ s.cpu.table, t ≠ z → s.cpu.parent t ≠ z
  | _ => True

instance (s : Sys) : (op : Sched.Op) → Decidable (Permitted s op)
  | .exitGroup => inferInstanceAs (Decidable False)
  | .reap z => inferInstanceAs (Decidable
      (z ∈ s.zombies s.cpu.active ∧ ∀ t ∈ s.cpu.table, t ≠ z → s.cpu.parent t ≠ z))
  | .spawn _ _ | .spawnThread | .ready _ | .sleep _ | .blockOn _ | .blockOnLocked _ | .wakeSleeping
  | .rotate | .disable | .enable | .exit | .irqTick | .irqPost _ | .irqReady _ | .resume =>
    inferInstanceAs (Decidable True)

def step (s : Sys) : Op → Option Sys
  | .base op =>
    if Permitted s op then (Sched.step s.cpu op).map fun cpu => ⟨cpu, zombiesAfter s op⟩ else none
  | .blockOnWithTimeout w secs =>
    if Enabled s.cpu (.blockOn w) ∧ s.cpu.emptyPick = false then
      some { s with cpu := schedulerBlockOnWithTimeout s.cpu w secs }
    else none

def initial : Sys where
  cpu := taskInit
  zombies := fun _ => []

def Releasing (s : Cpu) : Prop := .exiting ∈ s.frames s.active

instance (s : Cpu) : Decidable (Releasing s) := inferInstanceAs (Decidable (_ ∈ _))

/-- The call neither blocks nor wakes a task of a higher priority. -/
def Quiet (s : Cpu) : Sched.Op → Prop
  | .blockOnLocked _ => False
  | .ready t => ¬ s.priority t < s.priority s.active
  | _ => True

instance (s : Cpu) : (op : Sched.Op) → Decidable (Quiet s op)
  | .blockOnLocked _ => inferInstanceAs (Decidable False)
  | .ready t => inferInstanceAs (Decidable (¬ s.priority t < s.priority s.active))
  | .spawn _ _ | .spawnThread | .sleep _ | .blockOn _ | .wakeSleeping | .rotate | .disable | .enable
  | .exit | .exitGroup | .reap _ | .irqTick | .irqPost _ | .irqReady _ | .resume =>
    inferInstanceAs (Decidable True)

/-- The `release_fds` of an exit is quiet and has no switch pending;
`scheduler_wake_sleeping` is called by a task of the highest priority or with
preemption disabled. -/
def Settled (s : Sys) : Op → Prop
  | .base op =>
    (Releasing s.cpu → s.cpu.needResched = false ∧ Quiet s.cpu op) ∧
    (op = .wakeSleeping → s.cpu.priority s.cpu.active = high ∨ 0 < s.cpu.preemptCount)
  | .blockOnWithTimeout _ _ => True

instance (s : Sys) : (op : Op) → Decidable (Settled s op)
  | .base op => inferInstanceAs (Decidable
      ((Releasing s.cpu → s.cpu.needResched = false ∧ Quiet s.cpu op) ∧
        (op = .wakeSleeping → s.cpu.priority s.cpu.active = high ∨ 0 < s.cpu.preemptCount)))
  | .blockOnWithTimeout _ _ => inferInstanceAs (Decidable True)

inductive Kind where
  | awake | sleeping | blocked | zombie | none
  deriving DecidableEq, Repr

def kind : TaskState → Kind
  | .running | .ready => .awake
  | .sleeping => .sleeping
  | .blocked => .blocked
  | .zombie => .zombie
  | .new | .terminated => .none

section Places

variable (c : Cpu) (z : ℕ → List ℕ)

/-- The lists that task `t` is in are those of its state. -/
def At (t : ℕ) : Prop :=
  match kind (c.state t) with
  | .awake => t ∈ c.readyQueues (c.priority t) ∧ t ∉ c.sleepingHead ∧
      (∀ w, t ∉ c.waitQueues w) ∧ ∀ p, t ∉ z p
  | .blocked => (∀ q, t ∉ c.readyQueues q) ∧ t ∉ c.sleepingHead ∧
      (∃ w, t ∈ c.waitQueues w ∧ ∀ w', t ∈ c.waitQueues w' → w' = w) ∧ ∀ p, t ∉ z p
  | .sleeping => (∀ q, t ∉ c.readyQueues q) ∧ t ∈ c.sleepingHead ∧
      (∀ w w', t ∈ c.waitQueues w → t ∈ c.waitQueues w' → w' = w) ∧ ∀ p, t ∉ z p
  | .zombie => (∀ q, t ∉ c.readyQueues q) ∧ t ∉ c.sleepingHead ∧ (∀ w, t ∉ c.waitQueues w) ∧
      ∀ p, t ∈ z p → p = c.parent t
  | .none => False

/-- The lists hold tasks of the table, each once, a ready queue those of its
priority. -/
structure Lists : Prop where
  ready : ∀ q, (c.readyQueues q).Nodup ∧ ∀ t ∈ c.readyQueues q, t ∈ c.table ∧ c.priority t = q
  sleeping : c.sleepingHead.Nodup ∧ ∀ t ∈ c.sleepingHead, t ∈ c.table
  waiting : ∀ w, (c.waitQueues w).Nodup ∧ ∀ t ∈ c.waitQueues w, t ∈ c.table
  zombies : ∀ p, (z p).Nodup ∧ ∀ t ∈ z p, t ∈ c.table
  table_lt : ∀ t ∈ c.table, t < c.fresh

/-- Outside the scheduler, or where an interrupt may come. -/
def Open (fs : List Frame) : Prop := fs = [] ∨ ∃ w, fs = [.resched w]

/-- What is left of the call of a task that is not dispatched. -/
def Parked (fs : List Frame) : Prop :=
  Open fs ∨ fs = [.switchOut] ∨ fs = [.switchOut, .zombieExit] ∨ fs = [.zombieExit]

/-- The loop of `scheduler_wake_sleeping` is on a task that sleeps, and no task
that it wakes takes the processor. -/
def Waking (fs : List Frame) : Prop :=
  ∃ cursor now, fs = [.waking cursor now] ∧ (∀ t ∈ cursor, t ∈ c.sleepingHead) ∧
    (c.priority c.active = high ∨ 0 < c.preemptCount)

def InExit (fs : List Frame) : Prop := fs = [.exiting]

/-- State and places of every task, and what the active one is in. -/
structure Placed : Prop where
  lists : Lists c z
  at_ : ∀ t ∈ c.table, At c z t
  listed : ∀ t ∈ c.table, c.state t = .zombie →
    t ∈ z (c.parent t) ∨ t = c.active ∧ InExit (c.frames t)
  active_mem : c.active ∈ c.table
  parked : ∀ t ∈ c.table, t ≠ c.active → Parked (c.frames t)
  frames : Parked (c.frames c.active) ∨ Waking c (c.frames c.active) ∨ InExit (c.frames c.active)
  awake : c.emptyPick = false → Open (c.frames c.active) ∨ Waking c (c.frames c.active) →
    kind (c.state c.active) = .awake
  exiting : InExit (c.frames c.active) → c.state c.active = .zombie ∧ ∀ p, c.active ∉ z p

end Places

theorem placed_initial : Placed taskInit initial.zombies where
  lists := ⟨by decide, by decide, fun _ => by simp [taskInit], fun _ => by simp [initial],
    by decide⟩
  at_ := by
    intro t ht
    obtain rfl : t = idle := by simpa [taskInit] using ht
    simp [At, taskInit, kind, initial, idlePriority]
  listed := by simp [taskInit]
  active_mem := by decide
  parked := by
    intro t ht hne
    simp [taskInit] at ht hne
    exact absurd ht hne
  frames := .inl (.inl (.inl rfl))
  awake := fun _ _ => rfl
  exiting := by simp [InExit, taskInit]

variable {c c' : Cpu} {z z' : ℕ → List ℕ} {t : ℕ}

theorem At.congr (h : At c z t) (hkind : kind (c'.state t) = kind (c.state t))
    (hready : ∀ q, t ∈ c'.readyQueues q ↔ t ∈ c.readyQueues q)
    (hsleep : t ∈ c'.sleepingHead ↔ t ∈ c.sleepingHead)
    (hwait : ∀ w, t ∈ c'.waitQueues w ↔ t ∈ c.waitQueues w) (hz : ∀ p, t ∈ z' p ↔ t ∈ z p)
    (hprio : c'.priority t = c.priority t) (hparent : c'.parent t = c.parent t) : At c' z' t := by
  simpa only [At, hkind, hready, hsleep, hwait, hz, hprio, hparent] using h

theorem Parked.not_inExit {fs : List Frame} (h : Parked fs) : ¬ InExit fs := by
  rcases h with (rfl | ⟨w, rfl⟩) | rfl | rfl | rfl <;> simp [InExit]

theorem Parked.not_waking {fs : List Frame} (h : Parked fs) : ¬ Waking c fs := by
  rintro ⟨cursor, now, rfl, -⟩
  simp [Parked, Open] at h

theorem kind_doCtxSwitch {n : ℕ} (hn : kind (c.state n) = .awake) (t : ℕ) :
    kind ((doCtxSwitch c n).state t) = kind (c.state t) := by
  rw [doCtxSwitch_state]
  split_ifs with h1 h2
  · rw [h1, hn]
    rfl
  · rw [h2.2]
    rfl
  · rfl

/-- What a switch needs: whatever is left of the calls of the tasks can wait. -/
structure Resting (c : Cpu) (z : ℕ → List ℕ) : Prop where
  lists : Lists c z
  at_ : ∀ t ∈ c.table, At c z t
  listed : ∀ t ∈ c.table, c.state t = .zombie → t ∈ z (c.parent t)
  active_mem : c.active ∈ c.table
  parked : ∀ t ∈ c.table, Parked (c.frames t)

namespace Resting

theorem ready_awake (h : Resting c z) {q : Priority} {n : ℕ} (hn : n ∈ c.readyQueues q) :
    n ∈ c.table ∧ kind (c.state n) = .awake := by
  have hmem := ((h.lists.ready q).2 n hn).1
  have hat := h.at_ n hmem
  refine ⟨hmem, ?_⟩
  unfold At at hat
  cases hk : kind (c.state n) with
  | awake => rfl
  | none => simp [hk] at hat
  | sleeping | blocked | zombie =>
    simp only [hk] at hat
    exact absurd hn (hat.1 q)

theorem switch (h : Resting c z) {n : ℕ} (hn : n ∈ c.table)
    (hawake : kind (c.state n) = .awake) : Placed (doCtxSwitch c n) z := by
  refine ⟨{ h.lists with },
    fun t ht => ?_, fun t ht hz => ?_, hn, fun t ht _ => h.parked t ht, .inl (h.parked n hn),
    fun _ _ => ?_, fun hexit => absurd hexit (h.parked n hn).not_inExit⟩
  · exact (h.at_ t ht).congr (kind_doCtxSwitch hawake t) (fun _ => Iff.rfl) Iff.rfl
      (fun _ => Iff.rfl) (fun _ => Iff.rfl) rfl rfl
  · exact .inl (h.listed t ht (zombie_of_doCtxSwitch hz).1)
  · show kind ((doCtxSwitch c n).state n) = .awake
    rw [kind_doCtxSwitch hawake, hawake]

theorem emptied (h : Resting c z) : Placed { c with emptyPick := true } z :=
  ⟨{ h.lists with },
    h.at_, fun t ht hz => .inl (h.listed t ht hz), h.active_mem, fun t ht _ => h.parked t ht,
    .inl (h.parked _ h.active_mem), fun hpick => by simp at hpick,
    fun hx => absurd hx (h.parked _ h.active_mem).not_inExit⟩

theorem highest (h : Resting c z) (p : Priority) : Resting { c with highest := p } z :=
  { h with lists := { h.lists with } }

theorem switchOut (h : Resting c z) : Placed (switchOutActive c) z := by
  obtain ⟨p, he | ⟨n, hn, he⟩⟩ := switchOutActive_cases c <;> rw [he]
  · exact (h.highest p).emptied
  · obtain ⟨hmem, hawake⟩ := h.ready_awake hn
    exact (h.highest p).switch hmem hawake

end Resting

namespace Placed

theorem resting (h : Placed c z) (hpark : Parked (c.frames c.active)) : Resting c z where
  lists := h.lists
  at_ := h.at_
  listed := fun t ht hz => by
    rcases h.listed t ht hz with hin | ⟨rfl, hx⟩
    · exact hin
    · exact absurd hx hpark.not_inExit
  active_mem := h.active_mem
  parked := fun t ht => by
    rcases eq_or_ne t c.active with rfl | hne
    · exact hpark
    · exact h.parked t ht hne

theorem preempt (h : Placed c z) {n : ℕ} (hn : n ∈ c.table) (hawake : kind (c.state n) = .awake)
    (hpark : c.priority n < c.priority c.active → c.preemptCount = 0 → Parked (c.frames c.active)) :
    Placed (checkAndPreempt c n) z := by
  unfold checkAndPreempt
  split_ifs with hlt hcount
  · exact { h with lists := { h.lists with } }
  · exact (h.resting (hpark hlt (by omega))).switch hn hawake
  · exact h

theorem congr_vars (h : Placed c z) {highest : Priority} {need : Bool} {ticks : ℕ} :
    Placed { c with highest, needResched := need, ticks } z :=
  { h with lists := { h.lists with } }

theorem congr_ready (h : Placed c z) (rq : Priority → List ℕ)
    (hperm : ∀ q, (rq q).Perm (c.readyQueues q)) : Placed { c with readyQueues := rq } z :=
  { h with
    lists := { h.lists with
      ready := fun q => ⟨(hperm q).nodup_iff.mpr (h.lists.ready q).1, fun t ht =>
        (h.lists.ready q).2 t ((hperm q).mem_iff.mp ht)⟩ }
    at_ := fun t ht => (h.at_ t ht).congr rfl (fun q => (hperm q).mem_iff) Iff.rfl (fun _ => Iff.rfl)
      (fun _ => Iff.rfl) rfl rfl }

theorem rotateLocked (h : Placed c z) (hpark : Parked (c.frames c.active)) :
    Placed (rotateLocked c) z := by
  obtain ⟨rq, hperm, he⟩ := rotateLocked_cases c
  have hr := (h.congr_ready rq hperm).resting hpark
  rcases he with he | he | ⟨q, n, hn, he⟩ <;> rw [he]
  · exact h.congr_ready rq hperm
  · exact hr.emptied
  · obtain ⟨hmem, hawake⟩ := hr.ready_awake hn
    exact hr.switch hmem hawake

theorem resched (h : Placed c z)
    (hpark : c.needResched = true → Parked (c.frames c.active)) : Placed (reschedIfNeeded c) z := by
  unfold reschedIfNeeded
  split_ifs with hneed
  · have hclear : Placed { c with needResched := false } z := h.congr_vars
    rcases schedulerRotate_eq { c with needResched := false } with he | he <;> rw [he]
    · exact hclear
    · exact hclear.rotateLocked (hpark hneed.2)
  · exact h

/-- Every task but `t` is where it was. -/
structure Others (c c' : Cpu) (z z' : ℕ → List ℕ) (t : ℕ) : Prop where
  ready : ∀ u, u ≠ t → ∀ q, u ∈ c'.readyQueues q ↔ u ∈ c.readyQueues q
  sleeping : ∀ u, u ≠ t → (u ∈ c'.sleepingHead ↔ u ∈ c.sleepingHead)
  waiting : ∀ u, u ≠ t → ∀ w, u ∈ c'.waitQueues w ↔ u ∈ c.waitQueues w
  zombies : ∀ u, u ≠ t → ∀ p, u ∈ z' p ↔ u ∈ z p
  state : ∀ u, u ≠ t → c'.state u = c.state u
  priority : ∀ u, u ≠ t → c'.priority u = c.priority u
  parent : ∀ u, u ≠ t → c'.parent u = c.parent u

theorem Others.at_ (ho : Others c c' z z' t) {u : ℕ} (hu : u ≠ t) (hat : At c z u) : At c' z' u :=
  hat.congr (congrArg kind (ho.state u hu)) (ho.ready u hu) (ho.sleeping u hu) (ho.waiting u hu)
    (ho.zombies u hu) (ho.priority u hu) (ho.parent u hu)

theorem waking_of_frames (h : Placed c z) {cursor : Option ℕ} {now : ℕ} {fs : List Frame}
    (hfr : c.frames c.active = .waking cursor now :: fs) : fs = [] ∧ Waking c (c.frames c.active) := by
  rcases h.frames with ((hf | ⟨w, hf⟩) | hf | hf | hf) | ⟨cursor', now', hf, hrest⟩ | hf
  all_goals rw [hfr] at hf
  all_goals simp [InExit] at hf
  obtain ⟨⟨rfl, rfl⟩, rfl⟩ := hf
  exact ⟨rfl, cursor, now, hfr, hrest⟩

theorem cursor_sleeps (h : Placed c z) {cursor : Option ℕ} {now u : ℕ}
    (hf : c.frames c.active = [.waking cursor now]) (hu : u ∈ cursor) : u ∈ c.sleepingHead := by
  obtain ⟨-, cursor', now', hf', hcur, -⟩ := h.waking_of_frames hf
  cases hf.symm.trans hf'
  exact hcur u hu

theorem bystander (h : Placed c z) (ho : Others c c' z z' t) (hl : Lists c' z')
    (hself : t ∈ c'.table → At c' z' t ∧ Parked (c'.frames t) ∧ c'.state t ≠ .zombie) (hne : t ≠ c.active)
    (htable : ∀ u, u ≠ t → u ∈ c'.table → u ∈ c.table) (hmem : c.active ∈ c'.table)
    (hframes : ∀ u, u ≠ t → c'.frames u = c.frames u)
    (hsame : c'.active = c.active ∧ c'.preemptCount = c.preemptCount ∧ c'.emptyPick = c.emptyPick)
    (hcursor : ∀ cursor now, c.frames c.active = [.waking cursor now] → t ∉ cursor) : Placed c' z' := by
  obtain ⟨hactive, hcount, hpick⟩ := hsame
  have hfr : c'.frames c'.active = c.frames c.active := by rw [hactive, hframes _ hne.symm]
  have hst : c'.state c'.active = c.state c.active := by rw [hactive, ho.state _ hne.symm]
  have hwaking : Waking c' (c.frames c.active) ↔ Waking c (c.frames c.active) := by
    refine exists_congr fun cursor => exists_congr fun now => and_congr_right fun hf => and_congr ?_ ?_
    · exact forall₂_congr fun u hu => ho.sleeping u fun heq => hcursor cursor now hf (heq ▸ hu)
    · rw [hactive, ho.priority _ hne.symm, hcount]
  refine ⟨hl, fun u hu => ?_, fun u hu hz => ?_, hactive ▸ hmem, fun u hu hu' => ?_, ?_, fun hp hf => ?_,
    fun hx => ?_⟩
  · rcases eq_or_ne u t with rfl | hut
    · exact (hself hu).1
    · exact ho.at_ hut (h.at_ u (htable u hut hu))
  · rcases eq_or_ne u t with rfl | hut
    · exact absurd hz (hself hu).2.2
    · rw [ho.state u hut] at hz
      rw [ho.zombies u hut, ho.parent u hut, hactive, hframes u hut]
      exact h.listed u (htable u hut hu) hz
  · rcases eq_or_ne u t with rfl | hut
    · exact (hself hu).2.1
    · rw [hframes u hut]
      exact h.parked u (htable u hut hu) (hactive ▸ hu')
  · rw [hfr, hwaking]
    exact h.frames
  · rw [hfr, hwaking] at hf
    rw [hst]
    exact h.awake (hpick ▸ hp) hf
  · rw [hfr] at hx
    obtain ⟨hz, hlists⟩ := h.exiting hx
    exact ⟨hst.trans hz, fun p hp => hlists p ((ho.zombies _ hne.symm p).mp (hactive ▸ hp))⟩

section Wake

variable (h : Placed c z) (ht : t ∈ c.table) (hstate : c.state t = .blocked ∨ c.state t = .sleeping)
  (hne : t ≠ c.active) (hcursor : ∀ cursor now, c.frames c.active = [.waking cursor now] → t ∉ cursor)
include h ht hstate hne hcursor

theorem wake :
    Placed (readyQueueEnqueue (updateHighest (taskWake c t) t) t) z := by
  have hz : ∀ p, t ∉ z p := by
    have hat := h.at_ t ht
    unfold At at hat
    rcases hstate with hs | hs <;> simp only [hs, kind] at hat <;> exact hat.2.2.2
  have hwake : taskWake c t = setState (removeFromBlockingQueues c t) t .running :=
    if_pos hstate.symm
  rw [hwake]
  set c1 := updateHighest (setState (removeFromBlockingQueues c t) t .running) t with hc1
  have hstate1 : ∀ u, u ≠ t → c1.state u = c.state u := fun u hu => update_of_ne hu _ _
  have hself1 : c1.state t = .running := update_self _ _ _
  have hothers : Others c (readyQueueEnqueue c1 t) z z t := by
    refine ⟨fun u hu q => ?_, fun u hu => ?_, fun u hu w => ?_, fun _ _ _ => Iff.rfl, hstate1,
      fun _ _ => rfl, fun _ _ => rfl⟩
    · rw [mem_readyQueueEnqueue]
      simp [hu]
      rfl
    · simp [readyQueueEnqueue, hc1, updateHighest, setState, removeFromBlockingQueues, hu]
    · simp [readyQueueEnqueue, hc1, updateHighest, setState, removeFromBlockingQueues, hu]
  have hat : At (readyQueueEnqueue c1 t) z t := by
    have hkind : kind ((readyQueueEnqueue c1 t).state t) = .awake := congrArg kind hself1
    simp only [At, hkind]
    refine ⟨mem_readyQueueEnqueue.mpr (.inr ⟨rfl, rfl⟩), ?_, fun w => ?_, hz⟩
    · simp [readyQueueEnqueue, hc1, updateHighest, setState, removeFromBlockingQueues]
    · simp [readyQueueEnqueue, hc1, updateHighest, setState, removeFromBlockingQueues]
  refine h.bystander hothers ⟨fun q => ⟨readyQueueEnqueue_nodup (h.lists.ready q).1, fun u hu => ?_⟩,
    ⟨h.lists.sleeping.1.filter _, fun u hu => h.lists.sleeping.2 u (mem_of_mem_filter hu)⟩,
    fun w => ⟨(h.lists.waiting w).1.filter _, fun u hu => (h.lists.waiting w).2 u (mem_of_mem_filter hu)⟩,
    h.lists.zombies, h.lists.table_lt⟩ (fun _ => ⟨hat, h.parked t ht hne, fun hzt => ?_⟩) hne
    (fun _ _ hu => hu) h.active_mem (fun _ _ => rfl) ⟨rfl, rfl, rfl⟩ hcursor
  · rcases mem_readyQueueEnqueue.mp hu with hold | ⟨rfl, rfl⟩
    · exact (h.lists.ready q).2 u hold
    · exact ⟨ht, rfl⟩
  · cases hself1.symm.trans hzt

theorem readyTask (hpark : c.priority t < c.priority c.active → c.preemptCount = 0 →
      Parked (c.frames c.active)) : Placed (schedulerReadyTask c t) z := by
  have hwake : taskWake c t = setState (removeFromBlockingQueues c t) t .running :=
    if_pos hstate.symm
  have hw := h.wake ht hstate hne hcursor
  refine hw.preempt (by rw [hwake]; exact ht) ?_ ?_
  · have hself : (setState (removeFromBlockingQueues c t) t .running).state t = .running :=
      update_self _ _ _
    rw [hwake]
    exact congrArg kind hself
  · rw [hwake]
    exact hpark

end Wake

theorem setFrames (h : Placed c z) {fs : List Frame} (hfs : Parked fs ∨ Waking c fs ∨ InExit fs)
    (hawake : Open fs ∨ Waking c fs → c.emptyPick = false →
      kind (c.state c.active) = .awake)
    (hexit : InExit fs → c.state c.active = .zombie ∧ ∀ p, c.active ∉ z p)
    (hlisted : c.state c.active = .zombie → c.active ∈ z (c.parent c.active) ∨ InExit fs) :
    Placed (Sched.setFrames c c.active fs) z := by
  have hself : (Sched.setFrames c c.active fs).frames (Sched.setFrames c c.active fs).active = fs :=
    update_self _ _ _
  have hother : ∀ u, u ≠ c.active → (Sched.setFrames c c.active fs).frames u = c.frames u :=
    fun u hu => update_of_ne hu _ _
  refine ⟨{ h.lists with },
    h.at_, fun u hu hzu => ?_, h.active_mem, fun u hu hne => ?_, ?_, fun hpick hfr => ?_, fun hx => ?_⟩
  · rcases eq_or_ne u c.active with rfl | hne
    · rcases hlisted hzu with hin | hx
      · exact .inl hin
      · exact .inr ⟨rfl, hself.symm ▸ hx⟩
    · rcases h.listed u hu hzu with hin | ⟨heq, -⟩
      · exact .inl hin
      · exact absurd heq hne
  · rw [hother u hne]
    exact h.parked u hu hne
  · rw [hself]
    exact hfs
  · rw [hself] at hfr
    exact hawake hfr hpick
  · rw [hself] at hx
    exact hexit hx

theorem sections (h : Placed c z) {k : ℕ} {o : ℕ → ℕ} (hw : ¬ Waking c (c.frames c.active)) :
    Placed { c with preemptCount := k, opened := o } z := by
  have hnot : ¬ Waking { c with preemptCount := k, opened := o } (c.frames c.active) := by
    rintro ⟨cursor, now, hfr, -⟩
    exact hw (h.waking_of_frames hfr).2
  refine ⟨{ h.lists with },
    h.at_, h.listed, h.active_mem, h.parked, ?_, fun hpick hfr => ?_, h.exiting⟩
  · rcases h.frames with hp | hw' | hx
    · exact .inl hp
    · exact absurd hw' hw
    · exact .inr (.inr hx)
  · rcases hfr with hf | hf
    · exact h.awake hpick (.inl hf)
    · exact absurd hf hnot

end Placed

end RvMiniOs.Sched.Membership
