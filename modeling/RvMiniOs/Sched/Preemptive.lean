import RvMiniOs.Sched.Invariant

/-!
# Priority preemption over every run

The discipline that the callers of the scheduler keep, the preservation of the
invariant by each call, and what follows for every run. Without the discipline
the scheduler neither refuses to block inside a section nor closes the window
from the decrement of `scheduler_enable_preempt` to the `irq_save` of
`scheduler_rotate`, in which a switch that has been put off is still to come.
-/
namespace RvMiniOs.Sched

open Lib Function List Option

def NoneAbove (s : Cpu) : Prop :=
  ∀ q, ∀ t ∈ s.readyQueues q, ¬ s.priority t < s.priority s.active

instance (s : Cpu) : Decidable (NoneAbove s) := inferInstanceAs (Decidable (∀ _, _))

def Disciplined (s : Cpu) : Op → Prop
  | .sleep _ | .blockOn _ | .exit | .exitGroup => s.opened s.active = 0
  | .blockOnLocked _ => s.opened s.active = 1
  | .disable => s.preemptCount + 1 < 2 ^ 32
  | .irqReady _ => Outside s ∨ NoneAbove s
  | _ => True

instance (s : Cpu) : (op : Op) → Decidable (Disciplined s op)
  | .sleep _ | .blockOn _ | .exit | .exitGroup =>
    inferInstanceAs (Decidable (s.opened s.active = 0))
  | .blockOnLocked _ => inferInstanceAs (Decidable (s.opened s.active = 1))
  | .disable => inferInstanceAs (Decidable (s.preemptCount + 1 < 2 ^ 32))
  | .irqReady _ => inferInstanceAs (Decidable (Outside s ∨ NoneAbove s))
  | .spawn _ _ | .spawnThread | .ready _ | .wakeSleeping | .rotate | .enable | .reap _
  | .irqTick | .irqPost _ | .resume => inferInstanceAs (Decidable True)

section Places

variable {s : Cpu}

theorem MayLock.top (h : MayLock s) (P : Frame → Bool) (htop : TopIs s P) : P .exiting = true := by
  obtain ⟨f, hf, hP⟩ := htop
  rcases h with h | h
  · rw [show s.frames s.active = [] from h] at hf
    cases hf
  · obtain rfl : f = .exiting := some.inj (hf.symm.trans h)
    exact hP

theorem Outside.mayLock (h : Outside s) : MayLock s := .inl h

theorem MayLock.top_ne (h : MayLock s) {f : Frame} (hf : f ≠ .exiting) :
    (s.frames s.active).head? ≠ some f := fun htop => by
  have hexit := h.top (· = f) ⟨f, htop, decide_eq_true rfl⟩
  exact hf (of_decide_eq_true hexit).symm

theorem MayLock.noZombieReady (h : MayLock s) (hinv : Inv s) : NoZombieReady s :=
  hinv.noZombieReady fun t now fs hfs => by
    apply h.top_ne (f := .waking (some t) now) (by simp)
    rw [hfs, head?_cons]

theorem MayInterrupt.noZombieReady (h : MayInterrupt s) (hinv : Inv s) : NoZombieReady s := by
  rcases h with h | ⟨w, hw⟩
  · exact h.mayLock.noZombieReady hinv
  · refine hinv.noZombieReady fun t now fs hfs => ?_
    rw [hw] at hfs
    cases hfs

theorem Inv.need_of_count (h : Inv s) (htop : ¬ TopIs s Frame.tests)
    (hcount : s.preemptCount = 0) : s.needResched = false := by
  by_contra hneed
  rcases h.pending (Bool.eq_true_of_not_eq_false hneed) with hpos | hen
  · omega
  · exact htop hen

theorem Inv.leads_of_count (h : Inv s) (htests : ¬ TopIs s Frame.tests)
    (hrotates : ¬ TopIs s Frame.rotates) (hcount : s.preemptCount = 0) :
    s.highest = s.priority s.active :=
  h.leads hrotates (h.need_of_count htests hcount)

theorem MayLock.need (h : MayLock s) (hinv : Inv s) (hcount : s.preemptCount = 0) :
    s.needResched = false :=
  hinv.need_of_count (fun ht => by cases h.top _ ht) hcount

theorem MayLock.leads (h : MayLock s) (hinv : Inv s) (hneed : s.needResched = false) :
    s.highest = s.priority s.active :=
  hinv.toCore.leads (fun hr => by cases h.top _ hr) hneed

theorem NoneAbove.leads (h : NoneAbove s) (hinv : Inv s) : s.highest = s.priority s.active := by
  refine le_antisymm hinv.highest_le (not_lt.mp fun hlt => ?_)
  obtain ⟨u, hu⟩ := exists_mem_of_ne_nil _ (hinv.behind hlt).2
  exact h _ u hu ((hinv.ready_mem _ u hu).2.symm ▸ hlt)

theorem Wakeable.not_zombie {t : ℕ} (h : Wakeable s t) : s.state t ≠ .zombie := by
  rcases h.2.2 with hst | hst <;> simp [hst]

end Places

section Calls

variable {s : Cpu}

theorem Inv.ready (h : Inv s) {t : ℕ} (ht : Wakeable s t) (hz : NoZombieReady s)
    (hp : s.preemptCount = 0 → s.highest = s.priority s.active) : Inv (schedulerReadyTask s t) :=
  h.readyTask ht.1 (fun hzt => absurd hzt ht.not_zombie)
    (fun q u hu hzu => absurd hzu (hz q u hu)) hp

theorem Core.blockOn (h : Core s) (htop : ∀ P, TopIs s P → P .exiting = true)
    (hz : NoZombieReady s) (hidle : s.active ≠ idle) (hcount : s.preemptCount = 0)
    (w : WaitQueue) : Core (schedulerBlockOn s w) := by
  refine h.offQueue hidle rfl htop hz (fun _ => hcount) ?_ h.sleeping_mem h.sleeping_nodup ?_
  · intro v t ht
    change t ∈ update s.waitQueues w (s.waitQueues w ++ [s.active]) v at ht
    by_cases hv : v = w
    · subst hv
      rw [update_self] at ht
      rcases mem_append.mp ht with ht | ht
      · exact h.waiting_mem v t ht
      · exact mem_singleton.mp ht ▸ h.active_mem
    · rw [update_of_ne hv] at ht
      exact h.waiting_mem v t ht
  · intro t ht
    by_cases hta : t = s.active
    · simp [hta]
    · simpa [hta] using h.sleeping_awake t ht

theorem noZombieReady_blockOn (hz : NoZombieReady s) (w : WaitQueue) :
    NoZombieReady (schedulerBlockOn s w) := by
  intro q t ht
  obtain ⟨hin, hne⟩ : t ∈ s.readyQueues q ∧ t ≠ s.active := by
    simpa using mem_filter.mp ht
  simpa [schedulerBlockOn, pushFrame, setFrames, moveToWq, setState, readyQueueRemove, hne]
    using hz q t hin

theorem Inv.blockOn (h : Inv s) (hout : Outside s) (hidle : s.active ≠ idle)
    (hopen : s.opened s.active = 0) (w : WaitQueue) : Inv (schedulerBlockOn s w) := by
  have hcount : s.preemptCount = 0 := h.count_eq.trans hopen
  have hcore := h.toCore.blockOn hout.mayLock.top (hout.mayLock.noZombieReady h) hidle hcount w
  have hneed := hout.mayLock.need h hcount
  exact { hcore with pending := fun hp => absurd (hneed.symm.trans hp) (by decide) }

theorem Inv.blockOnLocked (h : Inv s) (hlock : MayLock s) (hidle : s.active ≠ idle)
    (hopen : s.opened s.active = 1) (w : WaitQueue) : Inv (schedulerBlockOnLocked s w) := by
  have hz := hlock.noZombieReady h
  have hleave := h.toCore.leaveSection (hopen ▸ Nat.one_pos)
  have hcount : (leaveSection s).preemptCount = 0 := by
    have hone := leaveSection_count h.toCore (hopen ▸ Nat.one_pos)
    have heq := h.count_eq
    omega
  -- the section is left after the move to the wait queue, but the two commute
  have hcore := hleave.blockOn hlock.top hz hidle hcount w
  exact hcore.resched (noZombieReady_blockOn hz w)

theorem mem_insertSleep {t u : ℕ} (hu : u ∈ (insertSleep s t).sleepingHead) :
    u = t ∨ u ∈ s.sleepingHead := by
  unfold insertSleep at hu
  by_cases ht : t ∈ s.sleepingHead
  · simp only [if_pos ht] at hu
    exact .inr hu
  · simp only [if_neg ht] at hu
    rcases mem_append.mp hu with hu | hu
    · exact .inr ((takeWhile_sublist _).subset hu)
    · rcases mem_cons.mp hu with rfl | hu
      · exact .inl rfl
      · exact .inr ((dropWhile_sublist _).subset hu)

theorem nodup_insertSleep (h : s.sleepingHead.Nodup) (t : ℕ) : (insertSleep s t).sleepingHead.Nodup := by
  unfold insertSleep
  by_cases ht : t ∈ s.sleepingHead
  · simpa only [if_pos ht] using h
  · simp only [if_neg ht]
    rw [perm_middle.nodup_iff, takeWhile_append_dropWhile]
    exact nodup_cons.mpr ⟨ht, h⟩

theorem Inv.sleep (h : Inv s) (hout : Outside s) (hidle : s.active ≠ idle)
    (hopen : s.opened s.active = 0) (secs : ℕ) : Inv (schedulerSleep s secs) := by
  have hcount : s.preemptCount = 0 := h.count_eq.trans hopen
  have hneed := hout.mayLock.need h hcount
  have hcore : Core (schedulerSleep s secs) := by
    refine h.toCore.offQueue hidle rfl hout.mayLock.top (hout.mayLock.noZombieReady h) (fun _ => hcount)
      h.waiting_mem ?_ ?_ ?_
    · intro t ht
      rcases mem_insertSleep ht with rfl | ht
      · exact h.active_mem
      · exact h.sleeping_mem t ht
    · exact nodup_insertSleep (s := taskSleep (readyQueueRemove s s.active) s.active secs)
        h.sleeping_nodup _
    · intro t ht
      rcases mem_insertSleep ht with rfl | ht
      · simp [readyQueueRemove]
      · by_cases hta : t = s.active
        · simp [hta]
        · simpa [hta] using h.sleeping_awake t ht
  exact { hcore with pending := fun hp => absurd (hneed.symm.trans hp) (by decide) }

theorem MayLock.pending (h : MayLock s) (hinv : Inv s) (hneed : s.needResched = true) :
    0 < s.preemptCount :=
  (hinv.pending hneed).resolve_right fun ht => by cases h.top _ ht

theorem Inv.enter (h : Inv s) (hout : Outside s) {f : Frame} (hclosed : f.closes = false) :
    Inv (pushFrame s f) :=
  h.toCore.enter hout hclosed (hout.mayLock.leads h)
    (fun hneed => .inl (hout.mayLock.pending h hneed)) (hout.mayLock.noZombieReady h)

theorem Inv.enable (h : Inv s) (hlock : MayLock s) (hopen : 0 < s.opened s.active) :
    Inv (if Outside s then pushFrame (leaveSection s) (.resched .count)
      else schedulerEnablePreempt s) := by
  have hleave := h.toCore.leaveSection hopen
  split_ifs with hout
  · exact hleave.enter hout rfl (hlock.leads h) (fun _ => .inr rfl) (hlock.noZombieReady h)
  · exact hleave.resched (hlock.noZombieReady h)

theorem Inv.beginExit (h : Inv s) (hout : Outside s) (hidle : s.active ≠ idle)
    (hopen : s.opened s.active = 0) : Inv (beginExit s) := by
  have hcount : s.preemptCount = 0 := h.count_eq.trans hopen
  have hneed := hout.mayLock.need h hcount
  have hcore : Core (Sched.beginExit s) := by
    refine h.toCore.offQueue hidle rfl hout.mayLock.top (hout.mayLock.noZombieReady h) (by simp) ?_ ?_
      (h.sleeping_nodup.filter _) ?_
    · exact fun w t ht => h.waiting_mem w t (mem_of_mem_filter ht)
    · exact fun t ht => h.sleeping_mem t (mem_of_mem_filter ht)
    · intro t ht
      obtain ⟨hin, hne⟩ : t ∈ s.sleepingHead ∧ t ≠ s.active := by
        simpa [readyQueueRemove, setState] using mem_filter.mp ht
      simpa [hne] using h.sleeping_awake t hin
  exact { hcore with pending := fun hp => absurd (hneed.symm.trans hp) (by decide) }

theorem Inv.destroy (h : Inv s) {d : ℕ} (hout : Outside s) (hd : d ≠ s.active) (hidle : d ≠ idle)
    (hneed : s.needResched = true → d ∉ s.readyQueues s.highest) : Inv (taskDestroy s d) := by
  have hmem : ∀ q, ∀ t ∈ (s.readyQueues q).filter (· ≠ d), t ∈ s.readyQueues q ∧ t ≠ d := by
    intro q t ht
    simpa using mem_filter.mp ht
  have htable : ∀ t, t ∈ s.table → t ≠ d → t ∈ s.table.filter (· ≠ d) := by
    intro t ht hne
    exact mem_filter.mpr ⟨ht, by simpa using hne⟩
  have hzombie : ∀ t, update s.state d .terminated t = .zombie → s.state t = .zombie := by
    intro t hz
    by_cases htd : t = d
    · simp [htd] at hz
    · simpa [htd] using hz
  refine
    { h with
      above_empty := fun q hq => ?_
      idle_ready := mem_filter.mpr ⟨h.idle_ready, by simpa using hidle.symm⟩
      ready_mem := fun q t ht => ?_
      ready_nodup := fun q => (h.ready_nodup q).filter _
      waiting_mem := fun w t ht => ?_
      sleeping_mem := fun t ht => ?_
      sleeping_nodup := h.sleeping_nodup.filter _
      sleeping_awake := fun t ht hz => ?_
      table_lt := fun t ht => h.table_lt t (mem_of_mem_filter ht)
      groups := fun t ht u hu =>
        h.groups t (mem_of_mem_filter ht) u (mem_of_mem_filter hu)
      lead := fun hno => .inl (hout.mayLock.leads h hno)
      lead_pending := fun hp => ?_
      active_mem := htable _ h.active_mem hd.symm
      active_head := fun hall => ?_
      zombie_ready := fun q t ht hz => ?_ }
  · change (s.readyQueues q).filter _ = []
    rw [h.above_empty q hq, filter_nil]
  · obtain ⟨hin, hne⟩ := hmem q t ht
    obtain ⟨htab, hprio⟩ := h.ready_mem q t hin
    exact ⟨htable t htab hne, hprio⟩
  · obtain ⟨hin, hne⟩ : t ∈ s.waitQueues w ∧ t ≠ d := by
      simpa [readyQueueRemove, setState] using mem_filter.mp ht
    exact htable t (h.waiting_mem w t hin) hne
  · obtain ⟨hin, hne⟩ : t ∈ s.sleepingHead ∧ t ≠ d := by
      simpa [readyQueueRemove, setState] using mem_filter.mp ht
    exact htable t (h.sleeping_mem t hin) hne
  · exact h.sleeping_awake t (mem_of_mem_filter ht) (hzombie t hz)
  · obtain ⟨hlt, hne⟩ := h.lead_pending hp
    obtain ⟨t, ht⟩ := exists_mem_of_ne_nil _ hne
    refine ⟨hlt, ne_nil_of_mem (a := t) (mem_filter.mpr ⟨ht, ?_⟩)⟩
    have htd : t ≠ d := fun heq => hneed hp (heq ▸ ht)
    simpa using htd
  · have hhead := h.active_head hall
    obtain ⟨r, hr⟩ : ∃ r, s.readyQueues (s.priority s.active) = s.active :: r :=
      ⟨_, eq_cons_of_mem_head? hhead⟩
    change ((s.readyQueues (s.priority s.active)).filter _).head? = some s.active
    rw [hr, filter_cons_of_pos (by simpa using hd.symm), head?_cons]
  · obtain ⟨hin, -⟩ := hmem q t ht
    obtain ⟨now, fs, hfs, hnot⟩ := h.zombie_ready q t hin (hzombie t hz)
    exact ⟨now, fs, hfs, fun hs => hnot (mem_of_mem_filter hs)⟩

theorem Inv.reap (h : Inv s) {z : ℕ} (hout : Outside s) (hz : z ≠ s.active)
    (hst : s.state z = .zombie) : Inv (taskDestroy s z) := by
  have hoff : ∀ q, z ∉ s.readyQueues q := fun q hin => hout.mayLock.noZombieReady h q z hin hst
  refine h.destroy hout hz ?_ fun _ => hoff _
  rintro rfl
  exact hoff _ h.idle_ready

theorem Inv.exitTgid (h : Inv s) (hout : Outside s) (hidle : s.active ≠ idle) (l : List ℕ) :
    Inv (l.foldl (exitTgidCb (s.tgid s.active)) s) ∧ (l.foldl (exitTgidCb (s.tgid s.active)) s).active =
    s.active ∧ (l.foldl (exitTgidCb (s.tgid s.active)) s).frames = s.frames ∧
    (l.foldl (exitTgidCb (s.tgid s.active)) s).opened = s.opened := by
  induction l generalizing s with
  | nil => exact ⟨h, rfl, rfl, rfl⟩
  | cons p l ih =>
    rw [foldl_cons]
    by_cases hp : s.tgid s.active = s.tgid p ∧ p ≠ s.active
    · have hcb : exitTgidCb (s.tgid s.active) s p = taskDestroy s p := if_pos hp
      have hdestroy : Inv (taskDestroy s p) := by
        refine h.destroy hout hp.2 ?_ ?_
        · rintro rfl
          have hmem := (h.ready_mem _ _ h.idle_ready).1
          exact hidle ((h.groups _ hmem _ h.active_mem hp.1.symm).2 rfl)
        · intro hneed hin
          obtain ⟨hmem, hprio⟩ := h.ready_mem _ p hin
          have heq := (h.groups _ h.active_mem p hmem hp.1).1
          exact (h.lead_pending hneed).1.ne (hprio.symm.trans heq.symm)
      rw [hcb]
      exact ih hdestroy hout hidle
    · have hcb : exitTgidCb (s.tgid s.active) s p = s := if_neg hp
      rw [hcb]
      exact ih h hout hidle

theorem Inv.exitGroup (h : Inv s) (hout : Outside s) (hidle : s.active ≠ idle)
    (hopen : s.opened s.active = 0) : Inv (schedulerExitGroup s) := by
  obtain ⟨hinv, hactive, hframes, hopened⟩ := h.exitTgid hout hidle s.table
  refine hinv.beginExit ?_ (by rwa [hactive]) ?_
  · unfold Outside
    rw [hactive, hframes]
    exact hout
  · rw [hactive, hopened]
    exact hopen

def allocated (s : Cpu) (p : Priority) (g : ℕ) : Cpu :=
  { s with
    table := s.table ++ [s.fresh]
    fresh := s.fresh + 1
    priority := Function.update s.priority s.fresh p
    tgid := Function.update s.tgid s.fresh g
    parent := Function.update s.parent s.fresh s.active
    state := Function.update s.state s.fresh .ready
    frames := Function.update s.frames s.fresh []
    opened := Function.update s.opened s.fresh 0 }

theorem allocated_zombie {p : Priority} {g t : ℕ} (h : (allocated s p g).state t = .zombie) :
    s.state t = .zombie := by
  by_cases ht : t = s.fresh
  · simp [allocated, ht] at h
  · simpa [allocated, ht] using h

theorem Base.allocated (h : Base s) {p : Priority} {g : ℕ}
    (hg : ∀ t ∈ s.table, s.tgid t = g → s.priority t = p ∧ t ≠ idle) : Base (allocated s p g) := by
  have hfresh : ∀ t ∈ s.table, t ≠ s.fresh := fun t ht => (h.table_lt t ht).ne
  have hidle : s.fresh ≠ idle := (hfresh _ (h.ready_mem _ _ h.idle_ready).1).symm
  refine
    { h with
      ready_mem := fun q t ht => ?_
      waiting_mem := fun w t ht => mem_append_left _ (h.waiting_mem w t ht)
      sleeping_mem := fun t ht => mem_append_left _ (h.sleeping_mem t ht)
      sleeping_awake := fun t ht hz => h.sleeping_awake t ht (allocated_zombie hz)
      table_lt := fun t ht => ?_
      groups := fun t ht u hu => ?_
      below_top := (h.setFrames s.fresh .nil).below_top
      alone := (h.setFrames s.fresh .nil).alone }
  · obtain ⟨hmem, hprio⟩ := h.ready_mem q t ht
    exact ⟨mem_append_left _ hmem, (update_of_ne (hfresh t hmem) _ _).trans hprio⟩
  · rcases mem_append.mp ht with ht | ht
    · exact Nat.lt_succ_of_lt (h.table_lt t ht)
    · exact mem_singleton.mp ht ▸ Nat.lt_succ_self _
  · simp only [Sched.allocated, mem_append, mem_singleton] at ht hu ⊢
    rcases ht with ht | rfl
    · rcases hu with hu | rfl
      · simpa [hfresh t ht, hfresh u hu] using h.groups t ht u hu
      · intro heq
        obtain ⟨hp, hne⟩ := hg t ht (by simpa [hfresh t ht] using heq)
        simp [hfresh t ht, hp, hne]
    · rcases hu with hu | rfl
      · intro heq
        obtain ⟨hp, -⟩ := hg u hu (by simpa [hfresh u hu] using heq.symm)
        simp [hfresh u hu, hp, hidle]
      · simp

theorem Inv.allocated (h : Inv s) (hout : Outside s) {p : Priority} {g : ℕ}
    (hg : ∀ t ∈ s.table, s.tgid t = g → s.priority t = p ∧ t ≠ idle) : Inv (allocated s p g) := by
  have hactive : s.active ≠ s.fresh := (h.table_lt _ h.active_mem).ne
  have hframes : (Sched.allocated s p g).frames s.active = s.frames s.active :=
    update_of_ne hactive _ _
  have hprio : (Sched.allocated s p g).priority s.active = s.priority s.active :=
    update_of_ne hactive _ _
  refine
    { h.toBase.allocated hg with
      count_lt := h.count_lt
      count_eq := h.count_eq.trans (update_of_ne hactive _ _).symm
      closed := fun t ht => ?_
      lead := fun hneed => .inl ((hout.mayLock.leads h hneed).trans hprio.symm)
      lead_pending := fun hneed => ⟨hprio.symm ▸ (h.lead_pending hneed).1, (h.lead_pending hneed).2⟩
      active_mem := mem_append_left _ h.active_mem
      active_head := fun hall => hprio.symm ▸ h.active_head (hframes ▸ hall)
      top_closed := fun htop => absurd htop (not_topIs_of_nil (hframes.trans hout))
      zombie_ready := fun q t ht hz =>
        absurd (allocated_zombie hz) (hout.mayLock.noZombieReady h q t ht)
      pending := fun hneed => .inl (hout.mayLock.pending h hneed) }
  by_cases htf : t = s.fresh
  · simp [Sched.allocated, htf]
  · exact (update_of_ne htf _ _).trans (h.closed t ht)

theorem Inv.activate (h : Inv s) (hout : Outside s) {p : Priority} {g : ℕ}
    (hg : ∀ t ∈ s.table, s.tgid t = g → s.priority t = p ∧ t ≠ idle) : Inv (activateTask s p g) := by
  have hready : (Sched.allocated s p g).state s.fresh ≠ .zombie := by simp [Sched.allocated]
  refine (h.allocated hout hg).makeReady_admitted (t := s.fresh) ?_ (fun hz => absurd hz hready) ?_ ?_
  · exact mem_append_right _ (mem_singleton.mpr rfl)
  · exact fun q t ht hz => absurd (allocated_zombie hz) (hout.mayLock.noZombieReady h q t ht)
  · intro hcount
    have hlead := hout.mayLock.leads h (hout.mayLock.need h hcount)
    exact hlead.trans (update_of_ne (h.table_lt _ h.active_mem).ne _ _).symm

theorem Inv.irqPost (h : Inv s) {t : ℕ} (hirq : MayInterrupt s) (ht : Wakeable s t)
    (hcount : s.preemptCount + 1 < 2 ^ 32) :
    Inv (schedulerEnablePreempt (schedulerReadyTask (schedulerDisablePreempt s) t)) := by
  obtain ⟨hwake, hmay⟩ := h.woken t
  have hready : MayReady (taskWake s t) t := hmay t fun hz => absurd hz ht.not_zombie
  obtain ⟨sl, wq, st, heq, -, -, hzombie⟩ := taskWake_eq s t
  have hz : NoZombieReady (makeReady (taskWake s t) t) := by
    intro q u hu hzu
    rw [heq] at hu hzu
    rcases mem_readyQueueEnqueue.mp hu with hold | ⟨rfl, -⟩
    · exact hirq.noZombieReady h q u hold (hzombie u hzu)
    · exact ht.not_zombie (hzombie u hzu)
  rw [schedulerEnablePreempt, leaveSection_readyTask hcount, postponed]
  rw [heq] at hwake hready hz ⊢
  split_ifs with hprio
  · by_cases hzero : s.preemptCount = 0
    · have hb : Base { makeReady { s with sleepingHead := sl, waitQueues := wq, state := st } t with
          needResched := false } := { hwake.toBase.makeReady ht.1 with }
      rw [reschedIfNeeded, if_pos ⟨hzero, rfl⟩, schedulerRotate, if_neg (by simp [makeReady,
        updateHighest, readyQueueEnqueue, hzero])]
      exact Inv.of_rotate hb (h.closed_all hzero) hzero rfl (hwake.behind_makeReady hprio).2 hz
    · exact (hwake.makeReady_pending ht.1 hready hprio (Nat.pos_of_ne_zero hzero)).toCore.resched hz
  · have hinv := hwake.makeReady_of_not_higher ht.1 hready hprio
    unfold reschedIfNeeded
    split_ifs with hboth
    · have hresched := hinv.toCore.resched hz
      rwa [reschedIfNeeded, if_pos hboth] at hresched
    · exact hinv

end Calls

section Resume

variable {s : Cpu} {fs : List Frame}

theorem Inv.resumeResched (h : Inv s) {w : Window} (hfs : s.frames s.active = .resched w :: fs) :
    Inv (resumeResched s fs w) := by
  obtain rfl := h.alone _ _ _ hfs rfl
  have hz : NoZombieReady s := MayInterrupt.noZombieReady (.inr ⟨w, hfs⟩) h
  have hhead := h.active_head (by simp [hfs, Frame.offQueue])
  have htop : ∀ P, TopIs s P ↔ P (.resched w) = true := fun P => topIs_cons hfs
  have hreturn : (s.needResched = false → s.highest = s.priority s.active) →
      (s.needResched = true → 0 < s.preemptCount) → Inv (setFrames s s.active []) :=
    fun hlead hpending => h.goOn s.needResched Stacked.nil hhead
      (fun hno => .inl (hlead hno)) (fun hyes => ⟨h.lead_pending hyes, .inl (hpending hyes)⟩)
      (fun g hg => by cases hg) hz
  have hmove : ∀ w', s.preemptCount = 0 → (s.needResched = false → s.highest = s.priority s.active ∨
      (Frame.rotates (.resched w') = true ∧ Behind s)) →
      (s.needResched = true → Frame.tests (.resched w') = true) →
      Inv (setFrames s s.active [.resched w']) := fun w' hcount hlead hpending =>
    h.goOn s.needResched (.single (.resched w')) hhead
      (fun hno => (hlead hno).imp_right fun hr => ⟨⟨_, rfl, hr.1⟩, hcount, hr.2⟩)
      (fun hyes => ⟨h.lead_pending hyes, .inr ⟨_, rfl, hpending hyes⟩⟩) (fun _ _ _ => hcount) hz
  cases w with
  | count =>
    have hlead := h.leads (mt (htop _).mp (by decide))
    by_cases hcount : s.preemptCount = 0
    · rw [Sched.resumeResched, if_pos hcount]
      exact hmove .need hcount (fun hno => .inl (hlead hno)) fun _ => rfl
    · rw [Sched.resumeResched, if_neg hcount]
      exact hreturn hlead fun _ => Nat.pos_of_ne_zero hcount
  | need =>
    have hcount := h.top_closed ((htop _).mpr rfl)
    have hlead := h.leads (mt (htop _).mp (by decide))
    by_cases hneed : s.needResched = true
    · rw [Sched.resumeResched, if_pos hneed]
      exact hmove .clear hcount (fun hno => .inl (hlead hno)) fun _ => rfl
    · rw [Sched.resumeResched, if_neg hneed]
      exact hreturn hlead fun hyes => absurd hyes hneed
  | clear =>
    have hcount := h.top_closed ((htop _).mpr rfl)
    refine h.goOn false (.single (.resched .rotate)) hhead (fun _ => ?_)
      (fun hyes => by cases hyes) (fun _ _ _ => hcount) hz
    cases hneed : s.needResched with
    | false => exact .inl (h.leads (mt (htop _).mp (by decide)) hneed)
    | true => exact .inr ⟨⟨_, rfl, rfl⟩, hcount, h.lead_pending hneed⟩
  | rotate =>
    by_cases hcount : 0 < s.preemptCount
    · rw [Sched.resumeResched, if_pos hcount]
      exact hreturn (fun hno => (h.lead hno).resolve_right fun hr => by omega) fun _ => hcount
    · rw [Sched.resumeResched, if_neg hcount]
      have hzero := Nat.eq_zero_of_not_pos hcount
      have hneed := h.need_of_count (mt (htop _).mp (by decide)) hzero
      exact hmove .pick hzero (fun hno => (h.lead hno).imp_right fun hr => ⟨rfl, hr.2.2⟩)
        fun hyes => absurd (hneed.symm.trans hyes) (by decide)
  | pick =>
    have hcount := h.top_closed ((htop _).mpr rfl)
    have hneed := h.need_of_count (mt (htop _).mp (by decide)) hcount
    refine Inv.of_rotate (h.toBase.setFrames s.active .nil) (h.closed_all hcount)
      hcount hneed ?_ hz
    rcases h.lead hneed with heq | hr
    · have hne : s.readyQueues s.highest ≠ [] := by
        rw [heq]
        exact ne_nil_of_mem (mem_of_head? hhead)
      exact hne
    · exact hr.2.2.2

theorem Inv.resumeSwitchOut (h : Inv s) (hfs : s.frames s.active = .switchOut :: fs) :
    Inv (switchOutActive (setFrames s s.active fs)) := by
  have hz : NoZombieReady s := h.noZombieReady fun t now gs hgs => by
    rw [hfs] at hgs
    cases hgs
  have hcount := h.top_closed ((topIs_cons hfs).mpr rfl)
  have hneed := h.need_of_count (mt (topIs_cons hfs).mp (by decide)) hcount
  have hbelow := h.below_top s.active
  rw [hfs] at hbelow
  have hstacked : Stacked fs := by
    refine ⟨fun f hf => hbelow f (mem_of_mem_tail hf), fun f gs heq hf => ?_⟩
    -- only functions of a task off its queue are below the switch
    rcases hbelow f (heq ▸ mem_cons_self) with rfl | rfl <;> cases hf
  exact Inv.of_switchOut (h.toBase.setFrames s.active hstacked) (h.closed_all hcount) hcount hneed hz

theorem Inv.resumeWoken (h : Inv s) {now : ℕ}
    (hfs : s.frames s.active = .waking none now :: fs) : Inv (setFrames s s.active fs) := by
  have hz : NoZombieReady s := h.noZombieReady fun t now gs hgs => by
    rw [hfs] at hgs
    cases hgs
  obtain rfl := h.alone _ _ _ hfs rfl
  refine h.goOn s.needResched Stacked.nil
    (h.active_head (by simp [hfs, Frame.offQueue]))
    (fun hno => .inl (h.leads (mt (topIs_cons hfs).mp (by simp [Frame.rotates])) hno))
    (fun hyes => ⟨h.lead_pending hyes, .inl ?_⟩) (fun g hg => by cases hg) hz
  exact (h.pending hyes).resolve_right (mt (topIs_cons hfs).mp (by simp [Frame.tests]))

theorem nextSleeping_stale {node : ℕ} (h : node ∉ s.sleepingHead) : nextSleeping s node = some node :=
  if_neg h

theorem Inv.advance (h : Inv s) {node now : ℕ} {sl : List ℕ}
    (hfs : s.frames s.active = .waking (some node) now :: fs) (hsl : sl.Sublist s.sleepingHead) :
    Inv { setFrames s s.active (.waking (nextSleeping s node) now :: fs) with sleepingHead := sl } := by
  obtain rfl := h.alone _ _ _ hfs rfl
  have hframes : (setFrames s s.active [.waking (nextSleeping s node) now]).frames s.active =
      [.waking (nextSleeping s node) now] := update_self ..
  have hb := h.toBase.setFrames s.active (.single (.waking (nextSleeping s node) now))
  refine
    { h with
      sleeping_mem := fun t ht => h.sleeping_mem t (hsl.subset ht)
      sleeping_nodup := h.sleeping_nodup.sublist hsl
      sleeping_awake := fun t ht => h.sleeping_awake t (hsl.subset ht)
      below_top := hb.below_top
      alone := hb.alone
      lead := fun hno => .inl (h.leads (mt (topIs_cons hfs).mp (by simp [Frame.rotates])) hno)
      active_head := fun _ => h.active_head (by simp [hfs, Frame.offQueue])
      top_closed := fun htop => ?_
      zombie_ready := fun q t ht hz => ?_
      pending := fun hneed => .inl ((h.pending hneed).resolve_right
        (mt (topIs_cons hfs).mp (by simp [Frame.tests]))) }
  · have hcl := (topIs_cons (s := { setFrames s s.active [.waking (nextSleeping s node) now] with
      sleepingHead := sl }) hframes).mp htop
    simp [Frame.closes] at hcl
  · obtain ⟨now', gs, hgs, hnot⟩ := h.zombie_ready q t ht hz
    obtain ⟨⟨rfl, rfl⟩, rfl⟩ : (node = t ∧ now = now') ∧ gs = [] := by simpa [hfs] using hgs
    refine ⟨now, [], ?_, fun hin => hnot (hsl.subset hin)⟩
    rw [← nextSleeping_stale hnot]
    exact hframes

theorem Inv.resumeWaking (h : Inv s) {node now : ℕ}
    (hfs : s.frames s.active = .waking (some node) now :: fs) (htab : node ∈ s.table) :
    Inv (wakeUpSleepingCb (setFrames s s.active (.waking (nextSleeping s node) now :: fs)) now node) := by
  unfold wakeUpSleepingCb
  split_ifs
  · exact h.advance hfs (Sublist.refl _)
  · have hadv : Inv { setFrames s s.active (.waking (nextSleeping s node) now :: fs) with
        sleepingHead := s.sleepingHead.filter (· ≠ node) } :=
      h.advance hfs filter_sublist
    refine hadv.readyTask htab ?_ ?_ ?_
    · intro hz
      have hnot : node ∉ s.sleepingHead := fun hin => h.sleeping_awake node hin hz
      rw [nextSleeping_stale hnot]
      exact ⟨now, fs, update_self .., fun hin => hnot (mem_of_mem_filter hin)⟩
    · intro q u hu hz
      obtain ⟨now', gs, hgs, -⟩ := h.zombie_ready q u hu hz
      rw [hfs] at hgs
      cases hgs
      rfl
    · have htop : (setFrames s s.active (.waking (nextSleeping s node) now :: fs)).frames s.active =
          .waking (nextSleeping s node) now :: fs := update_self ..
      refine hadv.leads_of_count (mt (topIs_cons htop).mp ?_) (mt (topIs_cons htop).mp ?_)
      · simp [Frame.tests]
      · simp [Frame.rotates]

theorem Inv.finishExit (h : Inv s) (hfs : s.frames s.active = .exiting :: fs)
    (hopen : s.opened s.active = 0) : Inv (finishExit s) := by
  have hz : NoZombieReady s := h.noZombieReady fun t now gs hgs => by
    rw [hfs] at hgs
    cases hgs
  have hcount : s.preemptCount = 0 := h.count_eq.trans hopen
  have hstacked : Stacked [.switchOut, .zombieExit] := by
    refine ⟨by simp, fun f gs heq hf => ?_⟩
    cases heq
    cases hf
  have hlock : MayLock s := .inr (by rw [hfs, head?_cons])
  have hneed := hlock.need h hcount
  have hlead := hlock.leads h hneed
  have hset : Inv (setFrames s s.active [.switchOut, .zombieExit]) := by
    refine
      { h with
        below_top := (h.toBase.setFrames s.active hstacked).below_top
        alone := (h.toBase.setFrames s.active hstacked).alone
        lead := fun _ => .inl hlead
        active_head := fun hall => ?_
        top_closed := fun _ => hcount
        zombie_ready := fun q t ht hzt => absurd hzt (hz q t ht)
        pending := fun hp => absurd (hneed.symm.trans hp) (by decide) }
    have hoff := hall .switchOut (by simp [setFrames])
    cases hoff
  unfold Sched.finishExit
  dsimp only
  split_ifs with hp
  · obtain ⟨hblocked, hmem⟩ := hp
    refine hset.readyTask (h.waiting_mem _ _ hmem) (fun hzt => ?_)
      (fun q u hu hzu => absurd hzu (hz q u hu)) fun _ => hlead
    rw [hblocked] at hzt
    cases hzt
  · exact hset

theorem Inv.resume (h : Inv s) {s' : Cpu} (hr : resumeFrame s = some s') : Inv s' := by
  unfold resumeFrame at hr
  split at hr
  next => cases hr
  next w fs hfs => exact some.inj hr ▸ h.resumeResched hfs
  next fs hfs => exact some.inj hr ▸ h.resumeSwitchOut hfs
  next now fs hfs => exact some.inj hr ▸ h.resumeWoken hfs
  next node now fs hfs =>
    split_ifs at hr with htab
    exact some.inj hr ▸ h.resumeWaking hfs htab
  next fs hfs =>
    split_ifs at hr with hopen
    exact some.inj hr ▸ h.finishExit hfs hopen
  next => cases hr

end Resume

theorem Inv.of_step {s s' : Cpu} {op : Op} (h : Inv s) (hd : Disciplined s op)
    (hstep : step s op = some s') : Inv s' := by
  unfold step at hstep
  split_ifs at hstep with hen
  replace hen := hen.1
  cases op with
  | spawn p g =>
    exact some.inj hstep ▸ h.activate hen.1 fun t ht hg => absurd hg (hen.2 t ht)
  | spawnThread =>
    refine some.inj hstep ▸ h.activate hen.1 fun t ht hg => ?_
    obtain ⟨hprio, hidle⟩ := h.groups t ht _ h.active_mem hg
    exact ⟨hprio, fun heq => hen.2 (hidle heq)⟩
  | ready t =>
    exact some.inj hstep ▸ h.ready hen.2 (hen.1.noZombieReady h) fun hcount =>
      hen.1.leads h (hen.1.need h hcount)
  | sleep secs => exact some.inj hstep ▸ h.sleep hen.1 hen.2 hd secs
  | blockOn w => exact some.inj hstep ▸ h.blockOn hen.1 hen.2.1 hd w
  | blockOnLocked w => exact some.inj hstep ▸ h.blockOnLocked hen.1 hen.2.1 hd w
  | wakeSleeping => exact some.inj hstep ▸ h.enter hen rfl
  | rotate => exact some.inj hstep ▸ h.enter hen rfl
  | disable => exact some.inj hstep ▸ h.disablePreempt hen.top hd
  | enable => exact some.inj hstep ▸ h.enable hen.1 hen.2
  | exit => exact some.inj hstep ▸ h.beginExit hen.1 hen.2 hd
  | exitGroup => exact some.inj hstep ▸ h.exitGroup hen.1 hen.2 hd
  | reap z => exact some.inj hstep ▸ h.reap hen.1 hen.2.2.1 hen.2.2.2
  | irqTick =>
    have htick : Inv { s with ticks := (s.ticks + 1) % 2 ^ 32 } := { h with }
    exact some.inj hstep ▸ htick
  | irqPost t => exact some.inj hstep ▸ h.irqPost hen.1 hen.2.1 hen.2.2
  | irqReady t =>
    refine some.inj hstep ▸ h.ready hen.2 (hen.1.noZombieReady h) fun hcount => ?_
    rcases hd with hout | hnone
    · exact hout.mayLock.leads h (hout.mayLock.need h hcount)
    · exact hnone.leads h
  | resume => exact h.resume hstep

def Preemptive (s : Cpu) : Prop :=
  s.emptyPick = false ∧ s.switchedInSection = false ∧
    (Outside s → s.preemptCount = 0 →
      s.active ∈ s.readyQueues (s.priority s.active) ∧ NoneAbove s)

theorem Inv.preemptive {s : Cpu} (h : Inv s) : Preemptive s := by
  refine ⟨h.picked, h.switched, fun hout hcount => ?_⟩
  have hlead := hout.mayLock.leads h (hout.mayLock.need h hcount)
  have hhead := h.active_head (by rw [show s.frames s.active = [] from hout]; simp)
  refine ⟨mem_of_head? hhead, fun q t ht hlt => ?_⟩
  obtain ⟨-, hprio⟩ := h.ready_mem q t ht
  have hempty := h.above_empty q (by rw [hlead, ← hprio]; exact hlt)
  rw [hempty] at ht
  exact not_mem_nil ht

/-- In every disciplined run no empty queue is picked from, no task is switched
out inside a section of its own, and outside the scheduler and all sections
the active task is ready and none that is ready is above it. -/
theorem scheduling_is_preemptive {s : Cpu} (h : Reaches step Disciplined taskInit s) :
    Preemptive s :=
  (h.invariant Inv.init fun _ _ _ => Inv.of_step).preemptive

def postInSection : List Op :=
  [.spawn low 1, .spawn high 2, .blockOn (.other 0), .resume, .disable, .irqPost 2, .enable,
    .resume, .resume, .resume, .resume, .resume]

theorem scheduling_is_preemptive_postInSection :
    ∃ s, run step taskInit postInSection = some s ∧ s.active = 2 ∧ Preemptive s := by
  refine ⟨_, rfl, rfl, scheduling_is_preemptive (Reaches.of_run postInSection ?_ rfl)⟩
  decide

def sleepInSection : List Op :=
  [.spawn low 1, .disable, .sleep 1, .resume]

def readyInWindow (n : ℕ) : List Op :=
  [.spawn low 1, .spawn normal 2, .spawn high 3, .blockOn (.other 0), .resume,
    .blockOn (.other 1), .resume, .disable, .irqPost 3, .enable] ++ replicate n .resume ++
    [.irqReady 2]

/-- Such runs break the promise: the first switches out of a section, the others
leave a ready `HIGH` task behind a running `NORMAL` one, from the decrement of
`preempt_count` to the `irq_save` of `scheduler_rotate`. -/
theorem undisciplined_not_preemptive :
    (∃ s, Reaches step anyAction taskInit s ∧ s.switchedInSection = true) ∧
    ∀ n < 5, ∃ s, run step taskInit (readyInWindow n) = some s ∧
      Reaches step anyAction taskInit s ∧ Outside s ∧ s.preemptCount = 0 ∧
      s.active = 2 ∧ s.priority 2 = normal ∧ 3 ∈ s.readyQueues high := by
  constructor
  · exact ⟨_, Reaches.of_run sleepInSection (allowed_anyAction _ _) rfl, by decide⟩
  · have hruns : ∀ n < 5, (run step taskInit (readyInWindow n)).any (fun s => decide
        (Outside s ∧ s.preemptCount = 0 ∧ s.active = 2 ∧ s.priority 2 = normal ∧
          3 ∈ s.readyQueues high)) = true := by
      decide +kernel
    intro n hn
    obtain ⟨s, hrun, hend⟩ := exists_of_run_any (readyInWindow n) (hruns n hn)
    exact ⟨s, hrun, Reaches.of_run _ (allowed_anyAction _ _) hrun, hend⟩

end RvMiniOs.Sched
