import RvMiniOs.Sched.Places

/-!
# Every task is where its state says

Each call of the scheduler keeps `Placed`, and the agreement of states and queues
over every run follows. A task that blocks in the `release_fds` of its exit has its
state overwritten, and ends up ready in the zombies list of its parent.
-/
namespace RvMiniOs.Sched.Membership

open Lib Function List Option

variable {c c' : Cpu} {z z' : ℕ → List ℕ} {t : ℕ}

namespace Placed

theorem leave {fs : List Frame} (h : Placed c z) (ho : Others c c' z z' c.active) (hat : At c' z' c.active)
    (hl : Lists c' z') (hactive : c'.active = c.active) (htable : c'.table = c.table)
    (hframes : c'.frames = update c.frames c.active fs) (hfs : Parked fs ∨ InExit fs)
    (hoff : ¬ Open fs)
    (hlisted : c'.state c.active = .zombie → c.active ∈ z' (c'.parent c.active) ∨ InExit fs)
    (hexit : InExit fs → c'.state c.active = .zombie ∧ ∀ p, c.active ∉ z' p) : Placed c' z' := by
  have hself : c'.frames c'.active = fs := by rw [hactive, hframes, update_self]
  have hwaking : ¬ Waking c' fs := by
    rintro ⟨cursor, now, rfl, -⟩
    simp [Parked, Open, InExit] at hfs
  refine ⟨hl, fun u hu => ?_, fun u hu hzu => ?_, hactive ▸ htable ▸ h.active_mem, fun u hu hne => ?_, ?_,
    fun _ hfr => ?_, fun hx => ?_⟩
  · rcases eq_or_ne u c.active with rfl | hne
    · exact hat
    · exact ho.at_ hne (h.at_ u (htable ▸ hu))
  · rcases eq_or_ne u c.active with rfl | hne
    · exact (hlisted hzu).imp_right fun hx => ⟨hactive.symm, by rwa [hframes, update_self]⟩
    · rcases h.listed u (htable ▸ hu) ((ho.state u hne) ▸ hzu) with hin | ⟨heq, -⟩
      · exact .inl (by rwa [ho.zombies u hne, ho.parent u hne])
      · exact absurd heq hne
  · rw [hactive] at hne
    rw [hframes, update_of_ne hne]
    exact h.parked u (htable ▸ hu) hne
  · rw [hself]
    exact hfs.imp_right .inr
  · rw [hself] at hfr
    exact absurd hfr (by simp [hoff, hwaking])
  · rw [hself] at hx
    rw [hactive]
    exact hexit hx

theorem at_awake (h : Placed c z) (hmem : t ∈ c.table) (hk : kind (c.state t) = .awake) :
    t ∈ c.readyQueues (c.priority t) ∧ t ∉ c.sleepingHead ∧ (∀ w, t ∉ c.waitQueues w) ∧ ∀ p, t ∉ z p := by
  have hat := h.at_ t hmem
  simpa only [At, hk] using hat

structure Suspended (c c' : Cpu) (asleep : Bool) (wq : Option WaitQueue) : Prop where
  ready : c'.readyQueues = fun q => (c.readyQueues q).filter (· ≠ c.active)
  sleeping : c'.sleepingHead.Perm (if asleep then c.active :: c.sleepingHead else c.sleepingHead)
  waiting : ∀ w, c'.waitQueues w =
    if wq = some w then c.waitQueues w ++ [c.active] else c.waitQueues w
  state : c'.state = Function.update c.state c.active (if asleep then .sleeping else .blocked)
  somewhere : asleep = false → wq ≠ none
  frames : c'.frames = Function.update c.frames c.active [.switchOut]
  same : c'.active = c.active ∧ c'.table = c.table ∧ c'.fresh = c.fresh ∧
    c'.priority = c.priority ∧ c'.parent = c.parent

theorem insertSleep_perm (ht : t ∉ c.sleepingHead) :
    (insertSleep c t).sleepingHead.Perm (t :: c.sleepingHead) := by
  simp only [insertSleep, if_neg ht]
  refine perm_middle.trans (Perm.cons _ ?_)
  rw [takeWhile_append_dropWhile]

section Outside

variable (h : Placed c z) (hout : c.frames c.active = []) (hpick : c.emptyPick = false)
include h hout hpick

theorem suspend (asleep : Bool) (wq : Option WaitQueue) (hs : Suspended c c' asleep wq) : Placed c' z := by
  obtain ⟨-, hnsleep, hnwait, hnzom⟩ := h.at_awake h.active_mem (h.awake hpick (.inl (.inl hout)))
  obtain ⟨hactive, htable, hfresh, hprio, hparent⟩ := hs.same
  have hready : ∀ u q, u ∈ c'.readyQueues q ↔ u ∈ c.readyQueues q ∧ u ≠ c.active := by
    intro u q
    rw [hs.ready]
    simp
  have hwait : ∀ u w, u ∈ c'.waitQueues w ↔ u ∈ c.waitQueues w ∨ wq = some w ∧ u = c.active := by
    intro u w
    rw [hs.waiting w]
    split_ifs with hw <;> simp [hw]
  have hsleep : ∀ u, u ∈ c'.sleepingHead ↔ u ∈ c.sleepingHead ∨ asleep = true ∧ u = c.active := by
    intro u
    rw [hs.sleeping.mem_iff]
    cases asleep <;> simp [or_comm]
  have hst : c'.state c.active = if asleep then .sleeping else .blocked := by
    rw [hs.state, update_self]
  refine h.leave ⟨fun u hu q => ?_, fun u hu => ?_, fun u hu w => ?_, fun _ _ _ => Iff.rfl,
    fun u hu => ?_, fun u _ => by rw [hprio], fun u _ => by rw [hparent]⟩ ?_
    ⟨fun q => ⟨?_, fun u hu => ?_⟩, ⟨?_, fun u hu => ?_⟩, fun w => ⟨?_, fun u hu => ?_⟩,
      fun p => ⟨(h.lists.zombies p).1, fun u hu => htable ▸ (h.lists.zombies p).2 u hu⟩,
      fun u hu => hfresh ▸ h.lists.table_lt u (htable ▸ hu)⟩ hactive htable hs.frames
    (.inl (.inr (.inl rfl))) (by simp [Open]) (fun hz => ?_) fun hx => by simp [InExit] at hx
  · simp [hready, hu]
  · simp [hsleep, hu]
  · simp [hwait, hu]
  · rw [hs.state, update_of_ne hu]
  · unfold At
    rw [hst]
    cases asleep with
    | true =>
      simp only [if_true, kind]
      refine ⟨fun q => by simp [hready], by simp [hsleep], fun w w' hw hw' => ?_, hnzom⟩
      have h1 := ((hwait _ w).mp hw).resolve_left (hnwait w)
      have h2 := ((hwait _ w').mp hw').resolve_left (hnwait w')
      exact some.inj (h2.1.symm.trans h1.1)
    | false =>
      obtain ⟨w, hw⟩ := ne_none_iff_exists'.mp (hs.somewhere rfl)
      simp only [Bool.false_eq_true, if_false, kind]
      refine ⟨fun q => by simp [hready], by simp [hsleep, hnsleep], ⟨w, by simp [hwait, hw],
        fun w' hw' => ?_⟩, hnzom⟩
      have h2 := ((hwait _ w').mp hw').resolve_left (hnwait w')
      exact some.inj (h2.1.symm.trans hw)
  · rw [hs.ready]
    exact (h.lists.ready q).1.filter _
  · have hold := (h.lists.ready q).2 u ((hready u q).mp hu).1
    rw [htable, hprio]
    exact hold
  · rw [hs.sleeping.nodup_iff]
    cases asleep with
    | true => exact nodup_cons.mpr ⟨hnsleep, h.lists.sleeping.1⟩
    | false => exact h.lists.sleeping.1
  · rw [htable]
    rcases (hsleep u).mp hu with hold | ⟨-, rfl⟩
    · exact h.lists.sleeping.2 u hold
    · exact h.active_mem
  · rw [hs.waiting w]
    split_ifs
    · exact nodup_append'.mpr ⟨(h.lists.waiting w).1, nodup_singleton _, by simpa using hnwait w⟩
    · exact (h.lists.waiting w).1
  · rw [htable]
    rcases (hwait u w).mp hu with hold | ⟨-, rfl⟩
    · exact (h.lists.waiting w).2 u hold
    · exact h.active_mem
  · rw [hst] at hz
    cases asleep <;> cases hz

theorem not_sleeping : c.active ∉ c.sleepingHead :=
  (h.at_awake h.active_mem (h.awake hpick (.inl (.inl hout)))).2.1

theorem sleep (secs : ℕ) : Placed (schedulerSleep c secs) z := by
  have hperm := insertSleep_perm (c := taskSleep (readyQueueRemove c c.active) c.active secs)
    (h.not_sleeping hout hpick)
  refine h.suspend hout hpick true none ⟨rfl, hperm, fun _ => rfl, rfl,
    fun hf => by simp at hf, ?_, rfl, rfl, rfl, rfl, rfl⟩
  show update c.frames c.active (.switchOut :: c.frames c.active) = _
  rw [hout]

theorem blockOn (w : WaitQueue) : Placed (schedulerBlockOn c w) z := by
  refine h.suspend hout hpick false (some w) ⟨rfl, .refl _, fun w' => ?_, rfl,
    by simp, ?_, rfl, rfl, rfl, rfl, rfl⟩
  · show update c.waitQueues w (c.waitQueues w ++ [c.active]) w' = _
    rcases eq_or_ne w' w with rfl | hne
    · simp
    · simp [hne, hne.symm]
  · show update c.frames c.active (.switchOut :: c.frames c.active) = _
    rw [hout]

theorem blockOnLocked (w : WaitQueue) : Placed (schedulerBlockOnLocked c w) z := by
  have hb := h.blockOn hout hpick w
  have hfr : (schedulerBlockOn c w).frames (schedulerBlockOn c w).active = [.switchOut] := by
    show update c.frames c.active (.switchOut :: c.frames c.active) c.active = _
    rw [hout, update_self]
  have hpark : Parked ((schedulerBlockOn c w).frames (schedulerBlockOn c w).active) := by
    rw [hfr]
    exact .inr (.inl rfl)
  exact (hb.sections hpark.not_waking).resched fun _ => hpark

theorem blockOnWithTimeout (w : WaitQueue) (secs : ℕ) : Placed (schedulerBlockOnWithTimeout c w secs) z := by
  have hwait : ∀ w', update c.waitQueues w (c.waitQueues w ++ [c.active]) w' =
      if some w = some w' then c.waitQueues w' ++ [c.active] else c.waitQueues w' := by
    intro w'
    rcases eq_or_ne w' w with rfl | hne
    · simp
    · simp [hne, hne.symm]
  have hfr : update c.frames c.active (.switchOut :: c.frames c.active) =
      update c.frames c.active [.switchOut] := by rw [hout]
  rcases Nat.eq_zero_or_pos secs with rfl | hpos
  · exact h.suspend hout hpick false (some w) ⟨rfl, .refl _, hwait, rfl, by simp,
      hfr, rfl, rfl, rfl, rfl, rfl⟩
  · have hperm := insertSleep_perm (c := taskSleep (moveToWq c c.active w) c.active secs)
      (h.not_sleeping hout hpick)
    have heq : schedulerBlockOnWithTimeout c w secs = pushFrame (insertSleep (taskSleep
        (moveToWq c c.active w) c.active secs) c.active) .switchOut := by
      simp only [schedulerBlockOnWithTimeout, hpos, if_true]
      rfl
    rw [heq]
    refine h.suspend hout hpick true (some w) ⟨rfl, hperm, hwait, ?_, by simp, hfr,
      rfl, rfl, rfl, rfl, rfl⟩
    show update (update c.state c.active .blocked) c.active .sleeping = _
    rw [update_idem]
    rfl

theorem beginExit :
    Placed (Sched.beginExit c) z := by
  obtain ⟨-, -, -, hnzom⟩ := h.at_awake h.active_mem (h.awake hpick (.inl (.inl hout)))
  have hst : (Sched.beginExit c).state c.active = .zombie := update_self _ _ _
  have hothers : Others c (Sched.beginExit c) z z c.active := by
    refine ⟨fun u hu q => ?_, fun u hu => ?_, fun u hu w => ?_, fun _ _ _ => Iff.rfl,
      fun u hu => update_of_ne hu _ _, fun _ _ => rfl, fun _ _ => rfl⟩ <;>
    simp [Sched.beginExit, pushFrame, Sched.setFrames, removeFromSchedQueues,
      removeFromBlockingQueues, readyQueueRemove, setState, hu]
  have hat : At (Sched.beginExit c) z c.active := by
    simp only [At, hst, kind]
    refine ⟨fun q => ?_, ?_, fun w => ?_, fun p hp => absurd hp (hnzom p)⟩ <;>
    simp [Sched.beginExit, pushFrame, Sched.setFrames, removeFromSchedQueues,
      removeFromBlockingQueues, readyQueueRemove, setState]
  have hfr : (Sched.beginExit c).frames = update c.frames c.active [.exiting] := by
    show update c.frames c.active (.exiting :: c.frames c.active) = _
    rw [hout]
  exact h.leave hothers hat ⟨fun q => ⟨(h.lists.ready q).1.filter _, fun u hu =>
      (h.lists.ready q).2 u (mem_of_mem_filter hu)⟩,
    ⟨h.lists.sleeping.1.filter _, fun u hu => h.lists.sleeping.2 u (mem_of_mem_filter hu)⟩,
    fun w => ⟨(h.lists.waiting w).1.filter _, fun u hu => (h.lists.waiting w).2 u (mem_of_mem_filter hu)⟩,
    h.lists.zombies, h.lists.table_lt⟩ rfl rfl hfr (.inr rfl) (by simp [Open]) (fun _ => .inr rfl)
    fun _ => ⟨hst, hnzom⟩

end Outside

theorem finishExit (h : Placed c z) (hfr : c.frames c.active = [.exiting]) :
    Placed (Sched.finishExit c) (update z (c.parent c.active) (z (c.parent c.active) ++ [c.active])) := by
  set p := c.parent c.active
  set z' := update z p (z p ++ [c.active]) with hz'
  obtain ⟨hzst, hnzom⟩ := h.exiting hfr
  have hmemz : ∀ u r, u ∈ z' r ↔ u ∈ z r ∨ r = p ∧ u = c.active := by
    intro u r
    rcases eq_or_ne r p with rfl | hne
    · simp [hz']
    · simp [hz', hne]
  -- first the link and the frames, then the wake-up of the parent
  have hlink : Placed (Sched.setFrames c c.active [.switchOut, .zombieExit]) z' := by
    have hpark : Parked [Frame.switchOut, Frame.zombieExit] := .inr (.inr (.inl rfl))
    have hothers : Others c (Sched.setFrames c c.active [.switchOut, .zombieExit]) z z' c.active :=
      ⟨fun _ _ _ => Iff.rfl, fun _ _ => Iff.rfl, fun _ _ _ => Iff.rfl, fun u hu r => by simp [hmemz, hu],
        fun _ _ => rfl, fun _ _ => rfl, fun _ _ => rfl⟩
    refine h.leave hothers ?_ ⟨h.lists.ready, h.lists.sleeping, h.lists.waiting, fun r => ⟨?_, fun u hu => ?_⟩,
      h.lists.table_lt⟩ rfl rfl rfl (.inl hpark) (by simp [Open])
      (fun _ => .inl ((hmemz _ _).mpr (.inr ⟨rfl, rfl⟩)))
      fun hx => absurd hx hpark.not_inExit
    · have hat := h.at_ c.active h.active_mem
      have hst : (Sched.setFrames c c.active [.switchOut, .zombieExit]).state c.active = .zombie := hzst
      simp only [At, hzst, kind] at hat
      simp only [At, hst, kind]
      exact ⟨hat.1, hat.2.1, hat.2.2.1, fun r hr => (((hmemz _ r).mp hr).resolve_left (hnzom r)).1⟩
    · rcases eq_or_ne r p with rfl | hne
      · rw [hz', update_self]
        exact nodup_append'.mpr ⟨(h.lists.zombies _).1, nodup_singleton _, by simpa using hnzom p⟩
      · rw [hz', update_of_ne hne]
        exact (h.lists.zombies r).1
    · rcases (hmemz u r).mp hu with hold | ⟨-, rfl⟩
      · exact (h.lists.zombies r).2 u hold
      · exact h.active_mem
  have hfr' : (Sched.setFrames c c.active [.switchOut, .zombieExit]).frames c.active =
      [.switchOut, .zombieExit] := update_self _ _ _
  unfold Sched.finishExit
  dsimp only
  split_ifs with hwaits
  · have hblocked : c.state p = .blocked := hwaits.1
    have hne : p ≠ c.active := fun heq => by
      rw [heq, hzst] at hblocked
      cases hblocked
    refine hlink.readyTask ((h.lists.waiting (.zombies p)).2 p hwaits.2) (.inl hwaits.1) hne
      (fun cursor now hf => ?_) fun _ _ => ?_
    · cases hfr'.symm.trans hf
    · exact .inr (.inr (.inl hfr'))
  · exact hlink

theorem reap (h : Placed c z) {d : ℕ} (hd : c.state d = .zombie) (hne : d ≠ c.active) :
    Placed (taskDestroy c d) fun p => (z p).filter (· ≠ d) := by
  have hothers : Others c (taskDestroy c d) z (fun p => (z p).filter (· ≠ d)) d := by
    refine ⟨fun u hu q => ?_, fun u hu => ?_, fun u hu w => ?_, fun u hu p => ?_,
      fun u hu => update_of_ne hu _ _, fun _ _ => rfl, fun _ _ => rfl⟩ <;>
    simp [taskDestroy, removeFromSchedQueues, removeFromBlockingQueues, readyQueueRemove, setState, hu]
  have htable : ∀ u, u ∈ (taskDestroy c d).table ↔ u ∈ c.table ∧ u ≠ d := by
    intro u
    simp [taskDestroy, removeFromSchedQueues, removeFromBlockingQueues, readyQueueRemove, setState]
  have hkeep : ∀ {l : List ℕ}, (∀ u ∈ l, u ∈ c.table) →
      ∀ u ∈ l.filter (· ≠ d), u ∈ (taskDestroy c d).table := fun hl u hu => by
    obtain ⟨hold, hud⟩ := mem_filter.mp hu
    exact (htable u).mpr ⟨hl u hold, by simpa using hud⟩
  refine h.bystander hothers ⟨fun q => ⟨(h.lists.ready q).1.filter _, fun u hu =>
      ⟨hkeep (fun v hv => ((h.lists.ready q).2 v hv).1) u hu, ((h.lists.ready q).2 u (mem_of_mem_filter hu)).2⟩⟩,
    ⟨h.lists.sleeping.1.filter _, hkeep h.lists.sleeping.2⟩,
    fun w => ⟨(h.lists.waiting w).1.filter _, hkeep (h.lists.waiting w).2⟩,
    fun p => ⟨(h.lists.zombies p).1.filter _, hkeep (h.lists.zombies p).2⟩,
    fun u hu => h.lists.table_lt u ((htable u).mp hu).1⟩ (fun hd' => absurd rfl ((htable d).mp hd').2) hne
    (fun u _ hu => ((htable u).mp hu).1) ((htable _).mpr ⟨h.active_mem, hne.symm⟩) (fun _ _ => rfl)
    ⟨rfl, rfl, rfl⟩ fun cursor now hf hcur => ?_
  have hsl := h.cursor_sleeps hf hcur
  have hat := h.at_ d (h.lists.sleeping.2 d hsl)
  simp only [At, hd, kind] at hat
  exact hat.2.1 hsl

theorem activate (h : Placed c z) (hout : c.frames c.active = [])
    (prio : Priority) (tgid : ℕ) : Placed (activateTask c prio tgid) z := by
  set f := c.fresh
  have hnew : f ∉ c.table := fun hmem => lt_irrefl _ (h.lists.table_lt f hmem)
  have hact : c.active ≠ f := fun heq => hnew (heq ▸ h.active_mem)
  have hnsleep : f ∉ c.sleepingHead := fun hs => hnew (h.lists.sleeping.2 f hs)
  have hnwait : ∀ w, f ∉ c.waitQueues w := fun w hw => hnew ((h.lists.waiting w).2 f hw)
  have hnzom : ∀ p, f ∉ z p := fun p hp => hnew ((h.lists.zombies p).2 f hp)
  set c1 : Cpu := { c with
    table := c.table ++ [f]
    fresh := f + 1
    priority := update c.priority f prio
    tgid := update c.tgid f tgid
    parent := update c.parent f c.active
    state := update c.state f .ready
    frames := update c.frames f []
    opened := update c.opened f 0 } with hc1
  have hprio : ∀ u, u ≠ f → c1.priority u = c.priority u := fun u hu => update_of_ne hu _ _
  have hstate : ∀ u, u ≠ f → c1.state u = c.state u := fun u hu => update_of_ne hu _ _
  have hstateSelf : c1.state f = .ready := update_self _ _ _
  have hparent : ∀ u, u ≠ f → c1.parent u = c.parent u := fun u hu => update_of_ne hu _ _
  have hframes : ∀ u, u ≠ f → c1.frames u = c.frames u := fun u hu => update_of_ne hu _ _
  have hframesSelf : c1.frames f = [] := update_self _ _ _
  have hmem : ∀ u, u ∈ c1.table → u ∈ c.table ∨ u = f := fun u hu => by
    simpa [hc1] using hu
  have hne : ∀ u ∈ c.table, u ≠ f := fun u hu heq => hnew (heq ▸ hu)
  have hothers : Others c (updateHighest (readyQueueEnqueue c1 f) f) z z f := by
    refine ⟨fun u hu q => ?_, fun _ _ => Iff.rfl, fun _ _ _ => Iff.rfl, fun _ _ _ => Iff.rfl, hstate,
      hprio, hparent⟩
    show u ∈ (readyQueueEnqueue c1 f).readyQueues q ↔ _
    rw [mem_readyQueueEnqueue]
    simp [hu]
    rfl
  have hat : At (updateHighest (readyQueueEnqueue c1 f) f) z f := by
    have hk : kind ((updateHighest (readyQueueEnqueue c1 f) f).state f) = .awake :=
      congrArg kind hstateSelf
    simp only [At, hk]
    exact ⟨mem_readyQueueEnqueue.mpr (.inr ⟨rfl, rfl⟩), hnsleep, hnwait, hnzom⟩
  have hfr : c1.frames c.active = [] := (hframes _ hact).trans hout
  have hplaced : Placed (updateHighest (readyQueueEnqueue c1 f) f) z := by
    refine h.bystander hothers ⟨fun q => ⟨readyQueueEnqueue_nodup (s := c1) (h.lists.ready q).1, fun u hu => ?_⟩,
      ⟨h.lists.sleeping.1, fun u hu => mem_append_left _ (h.lists.sleeping.2 u hu)⟩,
      fun w => ⟨(h.lists.waiting w).1, fun u hu => mem_append_left _ ((h.lists.waiting w).2 u hu)⟩,
      fun p => ⟨(h.lists.zombies p).1, fun u hu => mem_append_left _ ((h.lists.zombies p).2 u hu)⟩,
      fun u hu => ?_⟩ (fun _ => ⟨hat, .inl (.inl hframesSelf), fun hz => ?_⟩) hact.symm
      (fun u huf hu => (hmem u hu).resolve_right huf) (mem_append_left _ h.active_mem) hframes ⟨rfl, rfl, rfl⟩
      fun cursor now hwaking => ?_
    · rcases mem_readyQueueEnqueue.mp hu with hold | ⟨rfl, rfl⟩
      · have hin := (h.lists.ready q).2 u hold
        exact ⟨mem_append_left _ hin.1, (hprio u (hne u hin.1)).trans hin.2⟩
      · exact ⟨by simp [updateHighest, readyQueueEnqueue, hc1], rfl⟩
    · show u < f + 1
      rcases hmem u hu with hold | rfl
      · exact (h.lists.table_lt u hold).trans (Nat.lt_succ_self _)
      · exact Nat.lt_succ_self _
    · cases hstateSelf.symm.trans hz
    · cases hout.symm.trans hwaking
  refine hplaced.preempt (n := f) (by simp [updateHighest, readyQueueEnqueue, hc1]) ?_
    fun _ _ => .inl (.inl hfr)
  exact congrArg kind hstateSelf

theorem nextSleeping_mem (hnodup : c.sleepingHead.Nodup) {node next : ℕ} (hnode : node ∈ c.sleepingHead)
    (hnext : nextSleeping c node = some next) : next ∈ c.sleepingHead ∧ next ≠ node := by
  obtain ⟨before, rest, hsplit⟩ := append_of_mem hnode
  rw [hsplit] at hnodup
  obtain ⟨-, hrest, hdisjoint⟩ := nodup_append'.mp hnodup
  rw [nextSleeping_append hsplit fun hin => hdisjoint hin mem_cons_self] at hnext
  have hin : next ∈ rest := mem_of_head? hnext
  refine ⟨by simp [hsplit, hin], ?_⟩
  rintro rfl
  exact (nodup_cons.mp hrest).1 hin

theorem readyTask_unlinked {node : ℕ} (hst : c.state node = .sleeping) :
    schedulerReadyTask { c with sleepingHead := c.sleepingHead.filter (· ≠ node) } node =
      schedulerReadyTask c node := by
  have hwake : taskWake { c with sleepingHead := c.sleepingHead.filter (· ≠ node) } node =
      taskWake c node := by
    rw [taskWake, taskWake, if_pos (.inl hst), if_pos (.inl hst)]
    simp [removeFromBlockingQueues, List.filter_filter]
  rw [schedulerReadyTask, schedulerReadyTask, hwake]

theorem sleeping_state (h : Placed c z) (hmem : t ∈ c.sleepingHead) : c.state t = .sleeping := by
  have hat := h.at_ t (h.lists.sleeping.2 t hmem)
  unfold At at hat
  cases hs : c.state t <;> simp_all [kind]

theorem wakingTurn (h : Placed c z) (hpick : c.emptyPick = false) {node now : ℕ}
    (hfr : c.frames c.active = [.waking (some node) now]) :
    Placed (wakeUpSleepingCb
      (Sched.setFrames c c.active [.waking (nextSleeping c node) now]) now node) z := by
  obtain ⟨cursor, now', hfr', hcur, hprio⟩ : Waking c (c.frames c.active) := by
    rcases h.frames with hp | hw | hx
    · rw [hfr] at hp
      simp [Parked, Open] at hp
    · exact hw
    · rw [hfr] at hx
      simp [InExit] at hx
  obtain ⟨rfl, rfl⟩ : cursor = some node ∧ now' = now := by
    rw [hfr] at hfr'
    simpa [eq_comm] using hfr'
  have hnode : node ∈ c.sleepingHead := hcur node rfl
  have hst := h.sleeping_state hnode
  have hkind : kind (c.state c.active) = .awake :=
    h.awake hpick (.inr ⟨some node, now', hfr, hcur, hprio⟩)
  have hnext : ∀ u ∈ nextSleeping c node, u ∈ c.sleepingHead ∧ u ≠ node :=
    fun u hu => nextSleeping_mem h.lists.sleeping.1 hnode hu
  have hzom : c.state c.active ≠ .zombie := fun heq => by
    rw [heq] at hkind
    cases hkind
  have hset : Placed (Sched.setFrames c c.active [.waking (nextSleeping c node) now']) z := by
    refine h.setFrames (.inr (.inl ⟨_, now', rfl, fun u hu => (hnext u hu).1, hprio⟩))
      (fun _ _ => hkind) (fun hx => ?_) fun heq => absurd heq hzom
    simp [InExit] at hx
  unfold wakeUpSleepingCb
  split_ifs
  · exact hset
  · rw [readyTask_unlinked (show (Sched.setFrames c c.active [.waking (nextSleeping c node) now']).state
      node = .sleeping from hst)]
    have hself : (Sched.setFrames c c.active [.waking (nextSleeping c node) now']).frames c.active =
        [.waking (nextSleeping c node) now'] := update_self _ _ _
    refine hset.readyTask (h.lists.sleeping.2 node hnode) (.inr hst) ?_ ?_ ?_
    · rintro (rfl : node = c.active)
      rw [hst] at hkind
      cases hkind
    · intro cursor now'' hf hmem
      have heq : nextSleeping c node = cursor ∧ now' = now'' := by
        have := hself.symm.trans hf
        simpa using this
      exact (hnext node (heq.1 ▸ hmem)).2 rfl
    · intro hlt hcount
      rcases hprio with hhigh | hpos
      · have : c.priority node < c.priority c.active := hlt
        rw [hhigh] at this
        exact absurd this (by simp [high])
      · have : c.preemptCount = 0 := hcount
        omega

theorem setFrames_awake (h : Placed c z) {fs : List Frame} (hkind : kind (c.state c.active) = .awake)
    (hfs : Parked fs ∨ Waking c fs) : Placed (Sched.setFrames c c.active fs) z := by
  refine h.setFrames (hfs.imp_right .inl) (fun _ _ => hkind) (fun hx => ?_) fun hz => ?_
  · rcases hfs with hp | ⟨cursor, now, rfl, -⟩
    · exact absurd hx hp.not_inExit
    · simp [InExit] at hx
  · rw [hz] at hkind
    cases hkind

theorem frames_of_mayLock (h : Placed c z) (hlock : MayLock c) :
    c.frames c.active = [] ∨ c.frames c.active = [.exiting] := by
  refine hlock.imp_right fun hhead => ?_
  rcases h.frames with ((hf | ⟨w, hf⟩) | hf | hf | hf) | ⟨cursor, now, hf, -⟩ | hf
  all_goals rw [hf] at hhead
  all_goals simp at hhead
  exact hf

theorem not_waking_of_mayLock (h : Placed c z) (hlock : MayLock c) : ¬ Waking c (c.frames c.active) := by
  rintro ⟨cursor, now, hfr, -⟩
  rcases h.frames_of_mayLock hlock with hf | hf <;> simp [hf] at hfr

theorem pushFrame_of_outside (hout : c.frames c.active = []) (f : Frame) :
    pushFrame c f = Sched.setFrames c c.active [f] := by
  rw [pushFrame, hout]

theorem enable (h : Placed c z) (hpick : c.emptyPick = false) (hlock : MayLock c)
    (hneed : Releasing c → c.needResched = false) :
    Placed (if Outside c then pushFrame (leaveSection c) (.resched .count)
      else schedulerEnablePreempt c) z := by
  have hleft : Placed (leaveSection c) z := h.sections (h.not_waking_of_mayLock hlock)
  split_ifs with hout
  · rw [pushFrame_of_outside (c := leaveSection c) hout]
    exact hleft.setFrames_awake (h.awake hpick (.inl (.inl hout))) (.inl (.inl (.inr ⟨_, rfl⟩)))
  · have hf := (h.frames_of_mayLock hlock).resolve_left hout
    have hfalse : (leaveSection c).needResched = false := hneed (by simp [Releasing, hf])
    exact hleft.resched fun htrue => absurd (hfalse.symm.trans htrue) Bool.false_ne_true

theorem wakeable (h : Placed c z) (hw : Wakeable c t) (hidle : ¬ Waking c (c.frames c.active))
    (hpark : c.priority t < c.priority c.active → c.preemptCount = 0 → Parked (c.frames c.active)) :
    Placed (schedulerReadyTask c t) z :=
  h.readyTask hw.1 hw.2.2 hw.2.1 (fun _ _ hf => absurd (h.waking_of_frames hf).2 hidle) hpark

theorem irqPost (h : Placed c z) (hirq : MayInterrupt c) (hw : Wakeable c t)
    (hcount : c.preemptCount + 1 < 2 ^ 32) :
    Placed (schedulerEnablePreempt (schedulerReadyTask (schedulerDisablePreempt c) t)) z := by
  have hpark : Parked (c.frames c.active) := .inl hirq
  have hwake : Placed (makeReady (taskWake c t) t) z := h.wake hw.1 hw.2.2 hw.2.1
    fun _ _ hf => absurd (h.waking_of_frames hf).2 hpark.not_waking
  have hsame : (taskWake c t).active = c.active ∧ (taskWake c t).frames = c.frames := by
    obtain ⟨sl, wq, st, heq, -⟩ := taskWake_eq c t
    rw [heq]
    exact ⟨rfl, rfl⟩
  have hpark' : Parked ((taskWake c t).frames (taskWake c t).active) := by
    rw [hsame.1, hsame.2]
    exact hpark
  rw [schedulerEnablePreempt, leaveSection_readyTask hcount, postponed]
  split_ifs
  · have hrecorded : Placed { makeReady (taskWake c t) t with needResched := true } z :=
      hwake.congr_vars
    exact hrecorded.resched fun _ => hpark'
  · exact hwake.resched fun _ => hpark'

theorem resumeResched (h : Placed c z) (hpick : c.emptyPick = false) {w : Window} {fs : List Frame}
    (hfr : c.frames c.active = .resched w :: fs) : Placed (resumeResched c fs w) z := by
  obtain rfl : fs = [] := by
    rcases h.frames with ((hf | ⟨w', hf⟩) | hf | hf | hf) | ⟨cursor, now, hf, -⟩ | hf
    all_goals rw [hfr] at hf
    all_goals simp [InExit] at hf
    exact hf.2
  have hkind := h.awake hpick (.inl (.inr ⟨w, hfr⟩))
  rcases resumeResched_cases c [] w with ⟨need, gs, hgs, he⟩ | he <;> rw [he]
  · have hvars : Placed { c with needResched := need } z := h.congr_vars
    refine hvars.setFrames_awake hkind (.inl (.inl ?_))
    exact hgs
  · have hset : Placed (Sched.setFrames c c.active []) z :=
      h.setFrames_awake hkind (.inl (.inl (.inl rfl)))
    exact hset.rotateLocked (.inl (.inl (update_self _ _ _)))

theorem resumeSwitchOut (h : Placed c z) {fs : List Frame} (hfr : c.frames c.active = .switchOut :: fs) :
    Placed (switchOutActive (Sched.setFrames c c.active fs)) z := by
  have hpark : Parked (c.frames c.active) ∧ Parked fs := by
    rcases h.frames with hp | ⟨cursor, now, hf, -⟩ | hf
    · refine ⟨hp, ?_⟩
      rcases hp with (hf | ⟨w, hf⟩) | hf | hf | hf
      all_goals rw [hfr] at hf
      all_goals simp at hf
      · exact .inl (.inl hf)
      · exact .inr (.inr (.inr hf))
    all_goals rw [hfr] at hf
    all_goals simp [InExit] at hf
  have hrest := h.resting hpark.1
  refine Resting.switchOut { hrest with lists := { hrest.lists with }, parked := fun u hu => ?_ }
  rcases eq_or_ne u c.active with rfl | hne
  · rw [show (Sched.setFrames c c.active fs).frames c.active = fs from update_self _ _ _]
    exact hpark.2
  · rw [show (Sched.setFrames c c.active fs).frames u = c.frames u from update_of_ne hne _ _]
    exact hrest.parked u hu

theorem resume (h : Placed c z) (hpick : c.emptyPick = false) (hr : resumeFrame c = some c') :
    Placed c' (zombiesAfter ⟨c, z⟩ .resume) := by
  unfold resumeFrame at hr
  split at hr
  next => cases hr
  next w fs hfs =>
    have hz : zombiesAfter ⟨c, z⟩ .resume = z := by simp [zombiesAfter, hfs]
    rw [hz]
    exact some.inj hr ▸ h.resumeResched hpick hfs
  next fs hfs =>
    have hz : zombiesAfter ⟨c, z⟩ .resume = z := by simp [zombiesAfter, hfs]
    rw [hz]
    exact some.inj hr ▸ h.resumeSwitchOut hfs
  next now fs hfs =>
    have hz : zombiesAfter ⟨c, z⟩ .resume = z := by simp [zombiesAfter, hfs]
    obtain ⟨rfl, hw⟩ := h.waking_of_frames hfs
    rw [hz]
    exact some.inj hr ▸ h.setFrames_awake (h.awake hpick (.inr hw)) (.inl (.inl (.inl rfl)))
  next node now fs hfs =>
    have hz : zombiesAfter ⟨c, z⟩ .resume = z := by simp [zombiesAfter, hfs]
    obtain ⟨rfl, -⟩ := h.waking_of_frames hfs
    split_ifs at hr with htab
    rw [hz]
    exact some.inj hr ▸ h.wakingTurn hpick hfs
  next fs hfs =>
    split_ifs at hr with hopen
    have hfs' : c.frames c.active = [.exiting] :=
      (h.frames_of_mayLock (.inr (by rw [hfs, head?_cons]))).resolve_left (by simp [hfs])
    have hz : zombiesAfter ⟨c, z⟩ .resume =
        update z (c.parent c.active) (z (c.parent c.active) ++ [c.active]) := by
      simp [zombiesAfter, hfs']
    rw [hz]
    exact some.inj hr ▸ h.finishExit hfs'
  next => cases hr

end Placed

theorem placed_step {s s' : Sys} {op : Op} (h : Placed s.cpu s.zombies) (hok : Settled s op)
    (hstep : step s op = some s') : Placed s'.cpu s'.zombies := by
  cases op with
  | blockOnWithTimeout w secs =>
    simp only [step] at hstep
    split_ifs at hstep with hen
    exact some.inj hstep ▸ h.blockOnWithTimeout hen.1.1 hen.2 w secs
  | base op =>
    obtain ⟨hquiet, hdaemon⟩ := hok
    simp only [step] at hstep
    split_ifs at hstep with hperm
    obtain ⟨cpu, hcpu, rfl⟩ := map_eq_some_iff.mp hstep
    unfold Sched.step at hcpu
    split_ifs at hcpu with hboth
    obtain ⟨hen, hpick⟩ := hboth
    cases op with
    | spawn p g => exact some.inj hcpu ▸ h.activate hen.1 p g
    | spawnThread => exact some.inj hcpu ▸ h.activate hen.1 _ _
    | ready t =>
      refine some.inj hcpu ▸ h.wakeable hen.2 (h.not_waking_of_mayLock hen.1) fun hlt _ => ?_
      rcases h.frames_of_mayLock hen.1 with hf | hf
      · exact .inl (.inl hf)
      · exact absurd hlt (hquiet (by simp [Releasing, hf])).2
    | sleep secs => exact some.inj hcpu ▸ h.sleep hen.1 hpick secs
    | blockOn w => exact some.inj hcpu ▸ h.blockOn hen.1 hpick w
    | blockOnLocked w =>
      rcases h.frames_of_mayLock hen.1 with hf | hf
      · exact some.inj hcpu ▸ h.blockOnLocked hf hpick w
      · exact (hquiet (by simp [Releasing, hf])).2.elim
    | wakeSleeping =>
      have hf : s.cpu.frames s.cpu.active = [] := hen
      have hset := h.setFrames_awake (h.awake hpick (.inl (.inl hf))) (.inr ⟨s.cpu.sleepingHead.head?,
        timeSeconds s.cpu, rfl, fun t ht => mem_of_head? ht, hdaemon rfl⟩)
      refine some.inj hcpu ▸ ?_
      rw [schedulerWakeSleeping, Placed.pushFrame_of_outside hf]
      exact hset
    | rotate =>
      refine some.inj hcpu ▸ ?_
      rw [Placed.pushFrame_of_outside hen]
      exact h.setFrames_awake (h.awake hpick (.inl (.inl hen))) (.inl (.inl (.inr ⟨_, rfl⟩)))
    | disable => exact some.inj hcpu ▸ h.sections (h.not_waking_of_mayLock hen)
    | enable => exact some.inj hcpu ▸ h.enable hpick hen.1 fun hrel => (hquiet hrel).1
    | exit => exact some.inj hcpu ▸ h.beginExit hen.1 hpick
    | exitGroup => exact hperm.elim
    | reap d => exact some.inj hcpu ▸ h.reap hen.2.2.2 hen.2.2.1
    | irqTick => exact some.inj hcpu ▸ h.congr_vars
    | irqPost t => exact some.inj hcpu ▸ h.irqPost hen.1 hen.2.1 hen.2.2
    | irqReady t =>
      have hpark : Parked (s.cpu.frames s.cpu.active) := .inl hen.1
      exact some.inj hcpu ▸ h.wakeable hen.2 hpark.not_waking fun _ _ => hpark
    | resume => exact h.resume hpick hcpu

structure Agrees (s : Sys) (t : ℕ) : Prop where
  ready : ∀ q, t ∈ s.cpu.readyQueues q ↔
    q = s.cpu.priority t ∧ (s.cpu.state t = .ready ∨ s.cpu.state t = .running)
  woken : s.cpu.state t = .ready ∨ s.cpu.state t = .running →
    t ∉ s.cpu.sleepingHead ∧ ∀ w, t ∉ s.cpu.waitQueues w
  blocked : s.cpu.state t = .blocked → t ∉ s.cpu.sleepingHead ∧ ∃! w, t ∈ s.cpu.waitQueues w
  sleeping : s.cpu.state t = .sleeping → t ∈ s.cpu.sleepingHead
  zombie : s.cpu.state t = .zombie →
    t ∈ s.zombies (s.cpu.parent t) ∧ t ∉ s.cpu.sleepingHead ∧ ∀ w, t ∉ s.cpu.waitQueues w
  listed : ∀ p, t ∈ s.zombies p → s.cpu.state t = .zombie
  waitNode : (∀ w w', t ∈ s.cpu.waitQueues w → t ∈ s.cpu.waitQueues w' → w' = w) ∧
    (∀ w p, t ∈ s.cpu.waitQueues w → t ∉ s.zombies p) ∧
    ∀ p p', t ∈ s.zombies p → t ∈ s.zombies p' → p' = p

def EachOnce (s : Sys) : Prop :=
  (∀ q, (s.cpu.readyQueues q).Nodup) ∧ s.cpu.sleepingHead.Nodup ∧
    (∀ w, (s.cpu.waitQueues w).Nodup) ∧ ∀ p, (s.zombies p).Nodup

theorem Placed.agrees {s : Sys} (h : Placed s.cpu s.zombies) (hrel : ¬ Releasing s.cpu)
    (ht : t ∈ s.cpu.table) : Agrees s t := by
  have hat := h.at_ t ht
  have hprio : ∀ q, t ∈ s.cpu.readyQueues q → q = s.cpu.priority t := fun q hq =>
    ((h.lists.ready q).2 t hq).2.symm
  cases hs : s.cpu.state t with
  | running | ready =>
    simp only [At, hs, kind] at hat
    obtain ⟨hready, hsleep, hwait, hzom⟩ := hat
    refine ⟨fun q => ⟨fun hq => ⟨hprio q hq, by simp [hs]⟩, fun hq => hq.1 ▸ hready⟩,
      fun _ => ⟨hsleep, hwait⟩, by simp [hs], by simp [hs], by simp [hs],
      fun p hp => absurd hp (hzom p), fun w _ hw => absurd hw (hwait w), fun w _ hw => absurd hw (hwait w),
      fun p _ hp => absurd hp (hzom p)⟩
  | blocked =>
    simp only [At, hs, kind] at hat
    obtain ⟨hready, hsleep, ⟨w, hw, honly⟩, hzom⟩ := hat
    refine ⟨fun q => ⟨fun hq => absurd hq (hready q), by simp [hs]⟩, by simp [hs],
      fun _ => ⟨hsleep, w, hw, honly⟩, by simp [hs], by simp [hs],
      fun p hp => absurd hp (hzom p), fun w1 w2 h1 h2 => (honly w2 h2).trans (honly w1 h1).symm, fun _ p _ => hzom p,
      fun p _ hp => absurd hp (hzom p)⟩
  | sleeping =>
    simp only [At, hs, kind] at hat
    obtain ⟨hready, hsleep, hwait, hzom⟩ := hat
    exact ⟨fun q => ⟨fun hq => absurd hq (hready q), by simp [hs]⟩, by simp [hs], by simp [hs],
      fun _ => hsleep, by simp [hs], fun p hp => absurd hp (hzom p), hwait, fun _ p _ => hzom p,
      fun p _ hp => absurd hp (hzom p)⟩
  | zombie =>
    simp only [At, hs, kind] at hat
    obtain ⟨hready, hsleep, hwait, hzom⟩ := hat
    have hlisted : t ∈ s.zombies (s.cpu.parent t) := by
      rcases h.listed t ht hs with hin | ⟨rfl, hx⟩
      · exact hin
      · exact absurd (by rw [Releasing, show s.cpu.frames s.cpu.active = _ from hx]; simp) hrel
    exact ⟨fun q => ⟨fun hq => absurd hq (hready q), by simp [hs]⟩, by simp [hs], by simp [hs],
      by simp [hs], fun _ => ⟨hlisted, hsleep, hwait⟩, fun _ _ => hs,
      fun w _ hw => absurd hw (hwait w),
      fun w _ hw => absurd hw (hwait w), fun p p' hp hp' => (hzom p' hp').trans (hzom p hp).symm⟩
  | new | terminated => simp [At, hs, kind] at hat

def timedWait : List Op :=
  [.base (.spawn normal 1), .base (.spawn high 2), .blockOnWithTimeout (.other 0) 5, .base .resume,
    .base (.ready 2), .base .exit, .base .disable, .base .enable, .base .resume,
    .base .resume, .base (.sleep 0), .base .resume, .base .disable, .base .wakeSleeping,
    .base .resume, .base .resume, .base .enable, .base .resume, .base .resume, .base .resume,
    .base .resume, .base .resume]

def blockInExit : List Op :=
  [.base (.spawn high 1), .base (.spawn normal 2), .base (.spawn normal 3),
    .base (.blockOn (.zombies 1)), .base .resume, .base .rotate, .base .resume, .base .resume,
    .base .disable, .base (.blockOnLocked (.other 0)), .base .resume, .base .exit, .base .disable,
    .base (.blockOnLocked (.other 1)), .base .resume, .base (.irqPost 3), .base .disable,
    .base (.ready 2), .base .enable, .base .resume, .base .resume, .base .disable,
    .base (.blockOnLocked (.other 0)), .base .resume, .base .resume]

end RvMiniOs.Sched.Membership
