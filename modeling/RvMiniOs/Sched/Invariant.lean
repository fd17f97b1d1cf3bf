import RvMiniOs.Sched.Machine
import Mathlib.Tactic

/-!
# The scheduler's invariant

`Base` is what holds of the queues whoever is active; `Inv` adds what holds of
the active task. A task above the active one may be ready in two cases: its
switch is recorded in `need_resched` and there is a section to be left or the
test of `scheduler_enable_preempt` to come, or `scheduler_rotate` is about to
look at the queues. Every context switch goes to the first task of the queue
that `highest_ready_tracking` names, with no section open and nothing recorded,
and `Inv.of_switch` is the one place where a new active task is looked at.
-/
namespace RvMiniOs.Sched

open Lib Function List

def Frame.offQueue : Frame → Bool
  | .switchOut | .exiting | .zombieExit => true
  | _ => false

def Frame.tests : Frame → Bool
  | .resched .count | .resched .need | .resched .clear => true
  | _ => false

def Frame.rotates : Frame → Bool
  | .resched .rotate | .resched .pick => true
  | _ => false

def Frame.closes : Frame → Bool
  | .switchOut | .resched .need | .resched .clear | .resched .pick => true
  | _ => false

def TopIs (s : Cpu) (P : Frame → Bool) : Prop :=
  ∃ f, (s.frames s.active).head? = some f ∧ P f = true

def Behind (s : Cpu) : Prop :=
  s.highest < s.priority s.active ∧ s.readyQueues s.highest ≠ []

structure Base (s : Cpu) : Prop where
  picked : s.emptyPick = false
  switched : s.switchedInSection = false
  above_empty : ∀ q, q < s.highest → s.readyQueues q = []
  idle_ready : idle ∈ s.readyQueues idlePriority
  ready_mem : ∀ q, ∀ t ∈ s.readyQueues q, t ∈ s.table ∧ s.priority t = q
  ready_nodup : ∀ q, (s.readyQueues q).Nodup
  waiting_mem : ∀ w, ∀ t ∈ s.waitQueues w, t ∈ s.table
  sleeping_mem : ∀ t ∈ s.sleepingHead, t ∈ s.table
  sleeping_nodup : s.sleepingHead.Nodup
  sleeping_awake : ∀ t ∈ s.sleepingHead, s.state t ≠ .zombie
  table_lt : ∀ t ∈ s.table, t < s.fresh
  groups : ∀ t ∈ s.table, ∀ u ∈ s.table, s.tgid t = s.tgid u →
    s.priority t = s.priority u ∧ (t = idle → u = idle)
  below_top : ∀ t, ∀ f ∈ (s.frames t).tail, f = .exiting ∨ f = .zombieExit
  alone : ∀ t f fs, s.frames t = f :: fs → f.offQueue = false → fs = []

def MayReady (s : Cpu) (t : ℕ) : Prop :=
  s.state t = .zombie →
    ∃ now fs, s.frames s.active = .waking (some t) now :: fs ∧ t ∉ s.sleepingHead

structure Core (s : Cpu) : Prop extends Base s where
  count_lt : s.preemptCount < 2 ^ 32
  count_eq : s.preemptCount = s.opened s.active
  closed : ∀ t, t ≠ s.active → s.opened t = 0
  lead : s.needResched = false →
    s.highest = s.priority s.active ∨ (TopIs s Frame.rotates ∧ s.preemptCount = 0 ∧ Behind s)
  lead_pending : s.needResched = true → Behind s
  active_mem : s.active ∈ s.table
  active_head : (∀ f ∈ s.frames s.active, f.offQueue = false) →
    (s.readyQueues (s.priority s.active)).head? = some s.active
  top_closed : TopIs s Frame.closes → s.preemptCount = 0
  zombie_ready : ∀ q, ∀ t ∈ s.readyQueues q, MayReady s t

structure Inv (s : Cpu) : Prop extends Core s where
  pending : s.needResched = true → 0 < s.preemptCount ∨ TopIs s Frame.tests

theorem Inv.init : Inv taskInit where
  picked := rfl
  switched := rfl
  above_empty := by decide
  idle_ready := by decide
  ready_mem := by decide
  ready_nodup := by decide
  waiting_mem _ t ht := absurd ht not_mem_nil
  sleeping_mem := by decide
  sleeping_nodup := by decide
  sleeping_awake := by decide
  table_lt := by decide
  groups := by decide
  below_top _ := by simp [taskInit]
  alone _ := by simp [taskInit]
  count_lt := by decide
  count_eq := rfl
  closed _ _ := rfl
  lead _ := .inl rfl
  lead_pending h := absurd h (by decide)
  pending h := absurd h (by decide)
  active_mem := by decide
  active_head := by decide
  top_closed _ := rfl
  zombie_ready _ t _ h := by simp [taskInit] at h

section Top

variable {s : Cpu} {P : Frame → Bool} {f : Frame} {fs : List Frame}

theorem topIs_cons (h : s.frames s.active = f :: fs) : TopIs s P ↔ P f = true := by
  simp [TopIs, h]

theorem not_topIs_of_nil (h : s.frames s.active = []) : ¬ TopIs s P := by
  simp [TopIs, h]

theorem Core.leads (h : Core s) (htop : ¬ TopIs s Frame.rotates) (hneed : s.needResched = false) :
    s.highest = s.priority s.active :=
  (h.lead hneed).resolve_right fun hr => htop hr.1

end Top

section Switch

variable {s : Cpu}

theorem doCtxSwitch_state (s : Cpu) (n t : ℕ) : (doCtxSwitch s n).state t = if t = n then .running else
    if t = s.active ∧ s.state t = .running then .ready else s.state t := by
  unfold doCtxSwitch taskSwitchActive
  by_cases hn : t = n
  · simp [hn]
  · by_cases ha : t = s.active
    · subst ha
      by_cases hr : s.state s.active = .running <;> simp [hn, hr]
    · by_cases hr : s.state s.active = .running <;> simp [hn, ha, hr]

theorem zombie_of_doCtxSwitch {n t : ℕ} (h : (doCtxSwitch s n).state t = .zombie) :
    s.state t = .zombie ∧ t ≠ n := by
  rw [doCtxSwitch_state] at h
  split_ifs at h with hn
  exact ⟨h, hn⟩

theorem Inv.of_head {r : List ℕ} (hb : Base s) (hclosed : ∀ t, s.opened t = 0) (hcount : s.preemptCount = 0)
    (hneed : s.needResched = false) (hq : s.readyQueues s.highest = s.active :: r)
    (hz : ∀ q, ∀ t ∈ s.readyQueues q, s.state t ≠ .zombie) : Inv s := by
  obtain ⟨hmem, hprio⟩ := hb.ready_mem s.highest s.active (by simp [hq])
  exact
    { hb with
      count_lt := by omega
      count_eq := hcount.trans (hclosed _).symm
      closed := fun t _ => hclosed t
      lead := fun _ => .inl hprio.symm
      lead_pending := fun h => absurd (hneed.symm.trans h) (by decide)
      pending := fun h => absurd (hneed.symm.trans h) (by decide)
      active_mem := hmem
      active_head := fun _ => by rw [hprio, hq, head?_cons]
      top_closed := fun _ => hcount
      zombie_ready := fun q t ht hzt => absurd hzt (hz q t ht) }

theorem Inv.of_switch {n : ℕ} {r : List ℕ} (hb : Base s) (hclosed : ∀ t, s.opened t = 0)
    (hcount : s.preemptCount = 0) (hneed : s.needResched = false) (hq : s.readyQueues s.highest = n :: r)
    (hz : ∀ q, ∀ t ∈ s.readyQueues q, s.state t = .zombie → t = n) : Inv (doCtxSwitch s n) := by
  have hb' : Base (doCtxSwitch s n) :=
    { hb with
      switched := by simp [doCtxSwitch, hb.switched, hclosed]
      sleeping_awake := fun t ht hzt => hb.sleeping_awake t ht (zombie_of_doCtxSwitch hzt).1 }
  refine Inv.of_head hb' hclosed hcount hneed hq fun q t ht hzt => ?_
  obtain ⟨hold, hne⟩ := zombie_of_doCtxSwitch hzt
  exact hne (hz q t ht hold)

end Switch

section Highest

variable {s : Cpu}

theorem readyQueues_idle_ne_nil (hb : Base s) : s.readyQueues idlePriority ≠ [] :=
  ne_nil_of_mem hb.idle_ready

theorem refreshHighestPrio_spec (hb : Base s) :
    ∃ p, refreshHighestPrio s = { s with highest := p } ∧ s.readyQueues p ≠ [] ∧
      ∀ q, q < p → s.readyQueues q = [] := by
  unfold refreshHighestPrio
  by_cases hne : s.readyQueues s.highest ≠ []
  · exact ⟨s.highest, if_pos hne, hne, hb.above_empty⟩
  · rw [if_neg hne]
    rw [not_not] at hne
    have hempty : ∀ q, q ≤ s.highest → s.readyQueues q = [] := by
      intro q hq
      rcases hq.lt_or_eq with hlt | rfl
      · exact hb.above_empty q hlt
      · exact hne
    cases hfind : (finRange 4).find? fun p => s.highest < p ∧ s.readyQueues p ≠ [] with
    | none =>
      have hidle := find?_eq_none.mp hfind idlePriority (mem_finRange _)
      have hlt : s.highest < idlePriority := by
        refine lt_of_not_ge fun hge => ?_
        exact readyQueues_idle_ne_nil hb (hempty _ hge)
      simp [hlt, readyQueues_idle_ne_nil hb] at hidle
    | some p =>
      obtain ⟨hp, as, bs, hsplit, has⟩ := find?_eq_some_iff_append.mp hfind
      refine ⟨p, rfl, (of_decide_eq_true hp).2, fun q hq => ?_⟩
      have hsorted := pairwise_lt_finRange 4
      rw [hsplit, pairwise_append] at hsorted
      -- `q` comes before `p` in the scan, so it was looked at and refused
      have hmem : q ∈ as := by
        have hq' : q ∈ as ++ p :: bs := hsplit ▸ mem_finRange q
        rcases mem_append.mp hq' with h | h
        · exact h
        · rcases mem_cons.mp h with rfl | h
          · exact absurd hq (lt_irrefl _)
          · exact absurd ((pairwise_cons.mp hsorted.2.1).1 q h) (lt_asymm hq)
      by_contra hne'
      have hle : ¬ s.highest < q := by simpa [hne'] using has q hmem
      exact hne' (hempty q (not_lt.mp hle))

theorem Inv.of_switchOut (hb : Base s) (hclosed : ∀ t, s.opened t = 0)
    (hcount : s.preemptCount = 0) (hneed : s.needResched = false)
    (hz : ∀ q, ∀ t ∈ s.readyQueues q, s.state t ≠ .zombie) : Inv (switchOutActive s) := by
  obtain ⟨p, hp, hne, habove⟩ := refreshHighestPrio_spec hb
  obtain ⟨n, r, hq⟩ := exists_cons_of_ne_nil hne
  have hb' : Base { s with highest := p } := { hb with above_empty := habove }
  have hswitch := Inv.of_switch hb' hclosed hcount hneed hq fun q t ht hzt => absurd hzt (hz q t ht)
  simpa only [switchOutActive, hp, hq] using hswitch

theorem rotateReadyQueue_perm (l : List ℕ) : (rotateReadyQueue l).Perm l := by
  unfold rotateReadyQueue
  split
  · exact perm_append_singleton _ _
  · exact Perm.refl _

theorem update_rotate_perm (s : Cpu) (q : Priority) :
    (update s.readyQueues s.highest (rotateReadyQueue (s.readyQueues s.highest)) q).Perm (s.readyQueues q) := by
  by_cases hq : q = s.highest
  · subst hq
    simpa using rotateReadyQueue_perm _
  · simp [hq]

theorem switchOutActive_cases (s : Cpu) : ∃ p, switchOutActive s = { s with highest := p, emptyPick := true } ∨
    ∃ n ∈ s.readyQueues p, switchOutActive s = doCtxSwitch { s with highest := p } n := by
  obtain ⟨p, hp⟩ : ∃ p, refreshHighestPrio s = { s with highest := p } := by
    unfold refreshHighestPrio
    split_ifs
    · exact ⟨s.highest, rfl⟩
    · split
      · exact ⟨_, rfl⟩
      · exact ⟨s.highest, rfl⟩
  refine ⟨p, ?_⟩
  simp only [switchOutActive, hp]
  rcases hq : s.readyQueues p with _ | ⟨n, rest⟩
  · exact .inl rfl
  · exact .inr ⟨n, mem_cons_self, rfl⟩

theorem rotateLocked_cases (s : Cpu) : ∃ rq, (∀ q, (rq q).Perm (s.readyQueues q)) ∧
    (rotateLocked s = { s with readyQueues := rq } ∨
      rotateLocked s = { s with readyQueues := rq, emptyPick := true } ∨
      ∃ q, ∃ n ∈ rq q, rotateLocked s = doCtxSwitch { s with readyQueues := rq } n) := by
  refine ⟨_, update_rotate_perm s, ?_⟩
  unfold rotateLocked
  dsimp only
  rcases rotateReadyQueue (s.readyQueues s.highest) with _ | ⟨n, rest⟩
  · exact .inr (.inl rfl)
  · dsimp only
    split_ifs
    · exact .inr (.inr ⟨s.highest, n, by simp, rfl⟩)
    · exact .inl rfl

theorem schedulerRotate_eq (s : Cpu) :
    schedulerRotate s = s ∨ schedulerRotate s = rotateLocked s := by
  unfold schedulerRotate
  split_ifs
  · exact .inl rfl
  · exact .inr rfl

theorem resumeResched_cases (s : Cpu) (fs : List Frame) (w : Window) :
    (∃ need gs, (gs = fs ∨ ∃ w', gs = .resched w' :: fs) ∧
      resumeResched s fs w = setFrames { s with needResched := need } s.active gs) ∨
    resumeResched s fs w = rotateLocked (setFrames s s.active fs) := by
  cases w with
  | count | need | rotate =>
    refine .inl ⟨s.needResched, _, ?_, rfl⟩
    split_ifs <;> simp
  | clear => exact .inl ⟨false, _, .inr ⟨.rotate, rfl⟩, rfl⟩
  | pick => exact .inr rfl

theorem Base.rotate (hb : Base s) :
    Base { s with
      readyQueues := update s.readyQueues s.highest
        (rotateReadyQueue (s.readyQueues s.highest)) } := by
  have hperm := update_rotate_perm s
  exact
    { hb with
      above_empty := fun q hq => by
        rw [← perm_nil, ← hb.above_empty q hq]
        exact hperm q
      idle_ready := (hperm _).mem_iff.mpr hb.idle_ready
      ready_mem := fun q t ht => hb.ready_mem q t ((hperm q).mem_iff.mp ht)
      ready_nodup := fun q => (hperm q).nodup_iff.mpr (hb.ready_nodup q) }

theorem Inv.of_rotate (hb : Base s) (hclosed : ∀ t, s.opened t = 0) (hcount : s.preemptCount = 0)
    (hneed : s.needResched = false) (hq : s.readyQueues s.highest ≠ [])
    (hz : ∀ q, ∀ t ∈ s.readyQueues q, s.state t ≠ .zombie) : Inv (rotateLocked s) := by
  have hb' := hb.rotate
  have hne : rotateReadyQueue (s.readyQueues s.highest) ≠ [] := by
    intro h
    exact hq (nil_perm.mp (h ▸ rotateReadyQueue_perm _))
  obtain ⟨n, r, hn⟩ := exists_cons_of_ne_nil hne
  have hz' : ∀ q, ∀ t ∈ update s.readyQueues s.highest
      (rotateReadyQueue (s.readyQueues s.highest)) q, s.state t ≠ .zombie :=
    fun q t ht => hz q t ((update_rotate_perm s q).mem_iff.mp ht)
  unfold rotateLocked
  rw [hn]
  rw [hn] at hb' hz'
  by_cases h : n = s.active
  · subst h
    simpa using Inv.of_head hb' hclosed hcount hneed (r := r) (by simp) hz'
  · simpa [h] using Inv.of_switch hb' hclosed hcount hneed (r := r) (by simp)
      fun q t ht hzt => absurd hzt (hz' q t ht)

end Highest

section Ready

variable {s : Cpu} {t : ℕ}

theorem mem_readyQueueEnqueue {q : Priority} {u : ℕ} : u ∈ (readyQueueEnqueue s t).readyQueues q ↔
    u ∈ s.readyQueues q ∨ u = t ∧ q = s.priority t := by
  unfold readyQueueEnqueue
  by_cases h : t ∈ s.readyQueues (s.priority t)
  · rw [if_pos h]
    constructor
    · exact .inl
    · rintro (hu | ⟨rfl, rfl⟩)
      · exact hu
      · exact h
  · rw [if_neg h]
    by_cases hq : q = s.priority t
    · subst hq
      simp
    · simp [hq]

theorem readyQueueEnqueue_of_ne {q : Priority} (h : q ≠ s.priority t) :
    (readyQueueEnqueue s t).readyQueues q = s.readyQueues q := by
  unfold readyQueueEnqueue
  split_ifs <;> simp [h]

theorem head_readyQueueEnqueue {q : Priority} {u : ℕ} (h : (s.readyQueues q).head? = some u) :
    ((readyQueueEnqueue s t).readyQueues q).head? = some u := by
  unfold readyQueueEnqueue
  split_ifs
  · exact h
  · by_cases hq : q = s.priority t
    · subst hq
      simp [h]
    · simp [hq, h]

theorem readyQueueEnqueue_nodup {q : Priority} (h : (s.readyQueues q).Nodup) :
    ((readyQueueEnqueue s t).readyQueues q).Nodup := by
  unfold readyQueueEnqueue
  split_ifs with hin
  · exact h
  · by_cases hq : q = s.priority t
    · subst hq
      simp only [update_self]
      exact nodup_append.mpr ⟨h, nodup_singleton t, by
        rintro a ha b hb rfl
        exact hin (mem_singleton.mp hb ▸ ha)⟩
    · simpa [hq] using h

theorem highest_updateHighest (s : Cpu) (t : ℕ) :
    (updateHighest s t).highest = min (s.priority t) s.highest := by
  unfold updateHighest
  split_ifs with h
  · exact (min_eq_left h.le).symm
  · exact (min_eq_right (not_lt.mp h)).symm

def makeReady (s : Cpu) (t : ℕ) : Cpu :=
  updateHighest (readyQueueEnqueue s t) t

theorem schedulerAdmit_eq (s : Cpu) (t : ℕ) :
    schedulerAdmit s t =
      if s.priority t < s.priority s.active then
        if 0 < s.preemptCount then { makeReady s t with needResched := true }
        else doCtxSwitch (makeReady s t) t
      else makeReady s t :=
  rfl

theorem schedulerReadyTask_eq (s : Cpu) (t : ℕ) :
    schedulerReadyTask s t = schedulerAdmit (taskWake s t) t :=
  rfl

theorem makeReady_highest (s : Cpu) (t : ℕ) : (makeReady s t).highest = min (s.priority t) s.highest :=
  highest_updateHighest _ t

theorem Base.makeReady (hb : Base s) (ht : t ∈ s.table) : Base (makeReady s t) :=
  { hb with
    above_empty := fun q hq => by
      have hlt : q < s.priority t ∧ q < s.highest := by
        rw [makeReady_highest] at hq
        exact lt_min_iff.mp hq
      exact (readyQueueEnqueue_of_ne hlt.1.ne).trans (hb.above_empty q hlt.2)
    idle_ready := mem_readyQueueEnqueue.mpr (.inl hb.idle_ready)
    ready_mem := fun q u hu => by
      rcases mem_readyQueueEnqueue.mp hu with hold | ⟨rfl, rfl⟩
      · exact hb.ready_mem q u hold
      · exact ⟨ht, rfl⟩
    ready_nodup := fun q => readyQueueEnqueue_nodup (hb.ready_nodup q) }

theorem Inv.highest_le (h : Inv s) : s.highest ≤ s.priority s.active := by
  cases hneed : s.needResched with
  | false => exact (h.lead hneed).elim le_of_eq fun hr => hr.2.2.1.le
  | true => exact (h.lead_pending hneed).1.le

theorem Inv.behind (h : Inv s) (hlt : s.highest < s.priority s.active) : Behind s := by
  cases hneed : s.needResched with
  | false => exact (h.lead hneed).elim (fun heq => absurd heq hlt.ne) fun hr => hr.2.2
  | true => exact h.lead_pending hneed

theorem Behind.makeReady (h : Behind s) (hhigh : (makeReady s t).highest = s.highest) :
    Behind (makeReady s t) := by
  obtain ⟨u, hu⟩ := exists_mem_of_ne_nil _ h.2
  refine ⟨hhigh ▸ h.1, ?_⟩
  rw [hhigh]
  exact ne_nil_of_mem (mem_readyQueueEnqueue.mpr (.inl hu))

theorem Inv.zombie_makeReady (h : Inv s) (hz : MayReady s t) {q : Priority} {u : ℕ}
    (hu : u ∈ (makeReady s t).readyQueues q) : MayReady s u := by
  rcases mem_readyQueueEnqueue.mp hu with hold | ⟨rfl, -⟩
  · exact h.zombie_ready q u hold
  · exact hz

theorem Inv.makeReady_of_not_higher (h : Inv s) (ht : t ∈ s.table) (hz : MayReady s t)
    (hprio : ¬ s.priority t < s.priority s.active) : Inv (makeReady s t) := by
  have hhigh : (makeReady s t).highest = s.highest := by
    rw [makeReady_highest]
    exact min_eq_right (h.highest_le.trans (not_lt.mp hprio))
  exact
    { h.toCore.toBase.makeReady ht with
      count_lt := h.count_lt
      count_eq := h.count_eq
      closed := h.closed
      lead := fun hneed => (h.lead hneed).imp hhigh.trans fun hr =>
        ⟨hr.1, hr.2.1, hr.2.2.makeReady hhigh⟩
      lead_pending := fun hneed => (h.lead_pending hneed).makeReady hhigh
      pending := h.pending
      active_mem := h.active_mem
      active_head := fun hf => head_readyQueueEnqueue (h.active_head hf)
      top_closed := h.top_closed
      zombie_ready := fun _ _ hu => h.zombie_makeReady hz hu }

theorem Inv.behind_makeReady (h : Inv s) (hprio : s.priority t < s.priority s.active) :
    Behind (makeReady s t) := by
  unfold Behind
  rw [makeReady_highest]
  refine ⟨min_lt_of_left_lt hprio, ?_⟩
  rcases le_or_gt (s.priority t) s.highest with hle | hlt
  · rw [min_eq_left hle]
    exact ne_nil_of_mem (mem_readyQueueEnqueue.mpr (.inr ⟨rfl, rfl⟩))
  · rw [min_eq_right hlt.le]
    exact (readyQueueEnqueue_of_ne hlt.ne).symm ▸ (h.behind (hlt.trans hprio)).2

theorem Inv.makeReady_pending (h : Inv s) (ht : t ∈ s.table) (hz : MayReady s t)
    (hprio : s.priority t < s.priority s.active) (hcount : 0 < s.preemptCount) :
    Inv { makeReady s t with needResched := true } :=
  { h.toCore.toBase.makeReady ht with
    count_lt := h.count_lt
    count_eq := h.count_eq
    closed := h.closed
    lead := fun hneed => by cases hneed
    lead_pending := fun _ => h.behind_makeReady hprio
    pending := fun _ => .inl hcount
    active_mem := h.active_mem
    active_head := fun hf => head_readyQueueEnqueue (h.active_head hf)
    top_closed := h.top_closed
    zombie_ready := fun _ _ hu => h.zombie_makeReady hz hu }

theorem Core.closed_all (h : Core s) (hcount : s.preemptCount = 0) : ∀ u, s.opened u = 0 := by
  intro u
  by_cases hu : u = s.active
  · rw [hu, ← h.count_eq, hcount]
  · exact h.closed u hu

theorem Inv.makeReady_switch (h : Inv s) (ht : t ∈ s.table)
    (hzs : ∀ q, ∀ u ∈ s.readyQueues q, s.state u = .zombie → u = t)
    (hprio : s.priority t < s.priority s.active) (hcount : s.preemptCount = 0)
    (hlead : s.highest = s.priority s.active) : Inv (doCtxSwitch (makeReady s t) t) := by
  have hneed : s.needResched = false := by
    by_contra hno
    exact (h.lead_pending (Bool.eq_true_of_not_eq_false hno)).1.ne hlead
  have hempty : s.readyQueues (s.priority t) = [] := h.above_empty _ (hlead ▸ hprio)
  have hhigh : (makeReady s t).highest = s.priority t := by
    rw [makeReady_highest]
    exact min_eq_left (hlead ▸ hprio.le)
  have hq : (makeReady s t).readyQueues (makeReady s t).highest = [t] := by
    rw [hhigh]
    simp [makeReady, updateHighest, readyQueueEnqueue, hempty]
  refine Inv.of_switch (h.toCore.toBase.makeReady ht) (h.toCore.closed_all hcount) hcount hneed hq ?_
  intro q u hu hzu
  rcases mem_readyQueueEnqueue.mp hu with hold | ⟨rfl, -⟩
  · exact hzs q u hold hzu
  · rfl

theorem Inv.makeReady_admitted (h : Inv s) (ht : t ∈ s.table) (hz : MayReady s t)
    (hzs : ∀ q, ∀ u ∈ s.readyQueues q, s.state u = .zombie → u = t)
    (hp : s.preemptCount = 0 → s.highest = s.priority s.active) : Inv (schedulerAdmit s t) := by
  rw [schedulerAdmit_eq]
  split_ifs with hprio hcount
  · exact h.makeReady_pending ht hz hprio hcount
  · have hcount' := Nat.eq_zero_of_not_pos hcount
    exact h.makeReady_switch ht hzs hprio hcount' (hp hcount')
  · exact h.makeReady_of_not_higher ht hz hprio

theorem taskWake_eq (s : Cpu) (t : ℕ) : ∃ sl wq st,
    taskWake s t = { s with sleepingHead := sl, waitQueues := wq, state := st } ∧
      sl.Sublist s.sleepingHead ∧ (∀ w, wq w ⊆ s.waitQueues w) ∧
      ∀ u, st u = .zombie → s.state u = .zombie := by
  unfold taskWake
  split_ifs
  · refine ⟨_, _, _, rfl, filter_sublist, fun _ _ => mem_of_mem_filter, ?_⟩
    intro u hu
    by_cases hut : u = t
    · simp [hut] at hu
    · simpa [removeFromBlockingQueues, hut] using hu
  · exact ⟨_, _, _, rfl, Sublist.refl _, fun _ => Subset.refl _, fun _ hu => hu⟩

def NoZombieReady (s : Cpu) : Prop :=
  ∀ q, ∀ t ∈ s.readyQueues q, s.state t ≠ .zombie

theorem Inv.noZombieReady (h : Inv s)
    (hf : ∀ t now fs, s.frames s.active ≠ .waking (some t) now :: fs) : NoZombieReady s := by
  intro q t ht hz
  obtain ⟨now, fs, hfs, -⟩ := h.zombie_ready q t ht hz
  exact hf t now fs hfs

theorem Inv.woken (h : Inv s) (t : ℕ) :
    Inv (taskWake s t) ∧ ∀ u, MayReady s u → MayReady (taskWake s t) u := by
  obtain ⟨sl, wq, st, heq, hsl, hwq, hzombie⟩ := taskWake_eq s t
  rw [heq]
  have hmay : ∀ u, MayReady s u →
      MayReady { s with sleepingHead := sl, waitQueues := wq, state := st } u := by
    intro u hu hz
    obtain ⟨now, fs, hfs, hnot⟩ := hu (hzombie u hz)
    exact ⟨now, fs, hfs, fun hin => hnot (hsl.subset hin)⟩
  refine ⟨{ h with
    waiting_mem := fun w u hu => h.waiting_mem w u (hwq w hu)
    sleeping_mem := fun u hu => h.sleeping_mem u (hsl.subset hu)
    sleeping_nodup := h.sleeping_nodup.sublist hsl
    sleeping_awake := fun u hu hz => h.sleeping_awake u (hsl.subset hu) (hzombie u hz)
    zombie_ready := fun q u hu => hmay u (h.zombie_ready q u hu) }, hmay⟩

theorem Inv.readyTask (h : Inv s) (ht : t ∈ s.table) (hst : MayReady s t)
    (hzs : ∀ q, ∀ u ∈ s.readyQueues q, s.state u = .zombie → u = t)
    (hp : s.preemptCount = 0 → s.highest = s.priority s.active) :
    Inv (schedulerReadyTask s t) := by
  obtain ⟨hwake, hmay⟩ := h.woken t
  obtain ⟨sl, wq, st, heq, -, -, hzombie⟩ := taskWake_eq s t
  rw [schedulerReadyTask_eq]
  rw [heq] at hwake hmay ⊢
  exact hwake.makeReady_admitted ht (hmay t hst) (fun q u hu hzu => hzs q u hu (hzombie u hzu)) hp

def postponed (s : Cpu) (t : ℕ) : Cpu :=
  if s.priority t < s.priority s.active then { makeReady (taskWake s t) t with needResched := true }
  else makeReady (taskWake s t) t

theorem leaveSection_disablePreempt (hcount : s.preemptCount + 1 < 2 ^ 32) :
    leaveSection (schedulerDisablePreempt s) = s := by
  have hmod : (s.preemptCount + 1) % 2 ^ 32 = s.preemptCount + 1 := Nat.mod_eq_of_lt hcount
  simp only [leaveSection, schedulerDisablePreempt, hmod, Nat.add_sub_cancel, Nat.succ_ne_zero,
    if_false, update_self, update_idem, update_eq_self]

theorem leaveSection_makeReady (s : Cpu) (t : ℕ) :
    leaveSection (makeReady (taskWake s t) t) =
      makeReady (taskWake (leaveSection s) t) t := by
  by_cases hst : s.state t = .sleeping ∨ s.state t = .blocked
  · have hst' : (leaveSection s).state t = .sleeping ∨ (leaveSection s).state t = .blocked := hst
    rw [taskWake, if_pos hst, taskWake, if_pos hst']
    rfl
  · have hst' : ¬ ((leaveSection s).state t = .sleeping ∨ (leaveSection s).state t = .blocked) := hst
    rw [taskWake, if_neg hst, taskWake, if_neg hst']
    rfl

theorem leaveSection_readyTask (hcount : s.preemptCount + 1 < 2 ^ 32) (t : ℕ) :
    leaveSection (schedulerReadyTask (schedulerDisablePreempt s) t) = postponed s t := by
  obtain ⟨sl, wq, st, hwake, -⟩ := taskWake_eq (schedulerDisablePreempt s) t
  have hpos : 0 < (taskWake (schedulerDisablePreempt s) t).preemptCount := by
    rw [hwake]
    change 0 < (s.preemptCount + 1) % 2 ^ 32
    omega
  have hprio : (taskWake (schedulerDisablePreempt s) t).priority = s.priority ∧
      (taskWake (schedulerDisablePreempt s) t).active = s.active := by
    rw [hwake]
    exact ⟨rfl, rfl⟩
  have hback := leaveSection_makeReady (schedulerDisablePreempt s) t
  rw [leaveSection_disablePreempt hcount] at hback
  rw [schedulerReadyTask_eq, schedulerAdmit_eq, hprio.1, hprio.2, if_pos hpos, postponed, ← hback]
  split_ifs
  · rfl
  · rfl

end Ready

section Sections

variable {s : Cpu}

theorem Inv.disablePreempt (h : Inv s) (hf : ∀ P, TopIs s P → P .exiting = true)
    (hcount : s.preemptCount + 1 < 2 ^ 32) : Inv (schedulerDisablePreempt s) := by
  have hmod : (schedulerDisablePreempt s).preemptCount = s.preemptCount + 1 :=
    Nat.mod_eq_of_lt hcount
  exact
    { h with
      count_lt := hmod ▸ hcount
      count_eq := by
        have hself : (schedulerDisablePreempt s).opened s.active = s.opened s.active + 1 :=
          update_self ..
        rw [hmod, h.count_eq]
        exact hself.symm
      closed := fun t ht => (update_of_ne ht _ _).trans (h.closed t ht)
      lead := fun hneed => .inl (h.leads (fun htop => by cases hf _ htop) hneed)
      top_closed := fun htop => by cases hf _ htop
      pending := fun _ => .inl (hmod ▸ Nat.succ_pos _) }

theorem leaveSection_count (h : Core s) (hopen : 0 < s.opened s.active) :
    (leaveSection s).preemptCount + 1 = s.preemptCount := by
  have heq := h.count_eq
  change (if s.preemptCount = 0 then 2 ^ 32 - 1 else s.preemptCount - 1) + 1 = s.preemptCount
  rw [if_neg (by omega)]
  omega

theorem Core.leaveSection (h : Core s) (hopen : 0 < s.opened s.active) : Core (leaveSection s) := by
  have hcount := leaveSection_count h hopen
  have hlt := h.count_lt
  exact
    { h with
      count_lt := by omega
      count_eq := by
        have heq := h.count_eq
        have hself : (Sched.leaveSection s).opened s.active = s.opened s.active - 1 := update_self ..
        change (Sched.leaveSection s).preemptCount = (Sched.leaveSection s).opened s.active
        omega
      closed := fun t ht => (update_of_ne ht _ _).trans (h.closed t ht)
      lead := fun hneed => (h.lead hneed).imp_right fun hr => by omega
      top_closed := fun htop => by
        have hzero := h.top_closed htop
        omega }

theorem Core.resched (h : Core s) (hz : NoZombieReady s) : Inv (reschedIfNeeded s) := by
  unfold reschedIfNeeded
  split_ifs with hboth
  · obtain ⟨hcount, hneed⟩ := hboth
    have hb : Base { s with needResched := false } := { h.toBase with }
    unfold schedulerRotate
    rw [if_neg (by simp [hcount])]
    exact Inv.of_rotate hb (h.closed_all hcount) hcount rfl (h.lead_pending hneed).2 hz
  · refine { h with pending := fun hneed => .inl (Nat.pos_of_ne_zero fun hcount => ?_) }
    exact hboth ⟨hcount, hneed⟩

end Sections

section Frames

variable {s : Cpu} {f : Frame} {fs : List Frame}

def Stacked (fs : List Frame) : Prop :=
  (∀ f ∈ fs.tail, f = .exiting ∨ f = .zombieExit) ∧
    ∀ f gs, fs = f :: gs → f.offQueue = false → gs = []

theorem Base.stacked (hb : Base s) (t : ℕ) : Stacked (s.frames t) :=
  ⟨hb.below_top t, hb.alone t⟩

theorem Stacked.nil : Stacked [] := by simp [Stacked]

theorem Stacked.single (f : Frame) : Stacked [f] := by simp +contextual [Stacked]

theorem Base.setFrames (hb : Base s) (t : ℕ) (h : Stacked fs) : Base (setFrames s t fs) := by
  have hall : ∀ u, Stacked ((Sched.setFrames s t fs).frames u) := by
    intro u
    change Stacked (update s.frames t fs u)
    by_cases hu : u = t
    · subst hu
      rwa [update_self]
    · rw [update_of_ne hu]
      exact hb.stacked u
  exact { hb with below_top := fun u => (hall u).1, alone := fun u => (hall u).2 }

theorem pushFrame_frames (s : Cpu) (f : Frame) : (pushFrame s f).frames s.active = f :: s.frames s.active :=
  update_self ..

theorem Core.goOn (h : Core s) (need : Bool) {gs : List Frame} (hgs : Stacked gs)
    (hhead : (s.readyQueues (s.priority s.active)).head? = some s.active)
    (hlead : need = false → s.highest = s.priority s.active ∨
      ((∃ g, gs.head? = some g ∧ g.rotates = true) ∧ s.preemptCount = 0 ∧ Behind s))
    (hpending : need = true →
      Behind s ∧ (0 < s.preemptCount ∨ ∃ g, gs.head? = some g ∧ g.tests = true))
    (hclosed : ∀ g, gs.head? = some g → g.closes = true → s.preemptCount = 0)
    (hz : NoZombieReady s) : Inv (setFrames { s with needResched := need } s.active gs) := by
  have hb : Base { s with needResched := need } := { h.toBase with }
  have hframes : (setFrames { s with needResched := need } s.active gs).frames
      (setFrames { s with needResched := need } s.active gs).active = gs := update_self ..
  have htop : ∀ P, TopIs (setFrames { s with needResched := need } s.active gs) P ↔
      ∃ g, gs.head? = some g ∧ P g = true := fun P => by rw [TopIs, hframes]
  exact
    { hb.setFrames s.active hgs with
      count_lt := h.count_lt
      count_eq := h.count_eq
      closed := h.closed
      lead := fun hneed => (hlead hneed).imp_right fun hr => ⟨(htop _).mpr hr.1, hr.2⟩
      lead_pending := fun hneed => (hpending hneed).1
      active_mem := h.active_mem
      active_head := fun _ => hhead
      top_closed := fun hcl => by
        obtain ⟨g, hg, hcl⟩ := (htop _).mp hcl
        exact hclosed g hg hcl
      zombie_ready := fun q t ht hzt => absurd hzt (hz q t ht)
      pending := fun hneed => (hpending hneed).2.imp_right (htop _).mpr }

theorem Core.enter (h : Core s) (hout : Outside s) (hclosed : f.closes = false)
    (hlead : s.needResched = false → s.highest = s.priority s.active)
    (hpending : s.needResched = true → 0 < s.preemptCount ∨ f.tests = true)
    (hz : NoZombieReady s) : Inv (pushFrame s f) := by
  have hnil : s.frames s.active = [] := hout
  unfold pushFrame
  rw [hnil]
  refine h.goOn s.needResched (.single f) (h.active_head (by simp [hnil])) (fun hneed => .inl (hlead hneed))
    (fun hneed => ⟨h.lead_pending hneed, (hpending hneed).imp_right fun ht => ⟨f, rfl, ht⟩⟩)
    (fun g hg hcl => ?_) hz
  obtain rfl : f = g := by simpa using hg
  rw [hclosed] at hcl
  cases hcl

theorem Core.offQueue (h : Core s) (hidle : s.active ≠ idle) (hf : f.offQueue = true)
    (htop : ∀ P, TopIs s P → P .exiting = true) (hz : NoZombieReady s)
    (hcount : f = .switchOut → s.preemptCount = 0) {st : TaskState} {sl : List ℕ}
    {wq : WaitQueue → List ℕ} {wk : ℕ → ℕ} (hwq : ∀ w, ∀ t ∈ wq w, t ∈ s.table)
    (hmem : ∀ t ∈ sl, t ∈ s.table) (hnodup : sl.Nodup)
    (hsl : ∀ t ∈ sl, update s.state s.active st t ≠ .zombie) :
    Core { s with
      readyQueues := fun q => (s.readyQueues q).filter (· ≠ s.active)
      state := update s.state s.active st
      frames := update s.frames s.active (f :: s.frames s.active)
      sleepingHead := sl
      waitQueues := wq
      wakeUpTime := wk } := by
  have hready : ∀ q, ∀ t ∈ (s.readyQueues q).filter (· ≠ s.active),
      t ∈ s.readyQueues q ∧ t ≠ s.active := by
    intro q t ht
    simpa using mem_filter.mp ht
  have hstacked : Stacked (f :: s.frames s.active) := by
    refine ⟨fun g hg => ?_, fun g gs heq hg => ?_⟩
    · change g ∈ s.frames s.active at hg
      have hbelow := h.below_top s.active
      cases hfs : s.frames s.active with
      | nil => simp [hfs] at hg
      | cons top gs =>
        rw [hfs] at hg hbelow
        rcases mem_cons.mp hg with rfl | hg
        · have hexit := htop (· = g) ⟨g, by rw [hfs, head?_cons], decide_eq_true rfl⟩
          exact .inl (of_decide_eq_true hexit).symm
        · exact hbelow g hg
    · cases heq
      rw [hf] at hg
      cases hg
  have hb := h.toBase.setFrames s.active hstacked
  refine
    { h with
      above_empty := fun q hq => by simp [h.above_empty q hq]
      idle_ready := mem_filter.mpr ⟨h.idle_ready, by simpa using hidle.symm⟩
      ready_mem := fun q t ht => h.ready_mem q t (hready q t ht).1
      ready_nodup := fun q => (h.ready_nodup q).filter _
      waiting_mem := hwq
      sleeping_mem := hmem
      sleeping_nodup := hnodup
      sleeping_awake := hsl
      below_top := hb.below_top
      alone := hb.alone
      lead := fun hneed => .inl (h.leads (fun hr => by cases htop _ hr) hneed)
      lead_pending := fun hneed => ?_
      active_head := fun hall => ?_
      top_closed := fun hcl => ?_
      zombie_ready := fun q t ht hzt => ?_ }
  · obtain ⟨hlt, hne⟩ := h.lead_pending hneed
    refine ⟨hlt, ?_⟩
    obtain ⟨t, ht⟩ := exists_mem_of_ne_nil _ hne
    refine ne_nil_of_mem (mem_filter.mpr ⟨ht, ?_⟩)
    have hprio := (h.ready_mem _ t ht).2
    simp only [ne_eq, decide_not, Bool.not_eq_true', decide_eq_false_iff_not]
    rintro rfl
    exact hlt.ne hprio.symm
  · have hoff := hall f (by simp)
    rw [hf] at hoff
    cases hoff
  · rw [topIs_cons (update_self s.active (f :: s.frames s.active) s.frames)] at hcl
    refine hcount ?_
    cases f <;> simp_all [Frame.offQueue, Frame.closes]
  · obtain ⟨hin, hne⟩ := hready q t ht
    exact absurd (by simpa [hne] using hzt) (hz q t hin)

end Frames

theorem nextSleeping_append {s : Cpu} {before rest : List ℕ} {node : ℕ}
    (h : s.sleepingHead = before ++ node :: rest) (hnot : node ∉ before) :
    nextSleeping s node = rest.head? := by
  have hdrop : s.sleepingHead.dropWhile (· ≠ node) = node :: rest := by
    rw [h, dropWhile_append_of_pos]
    · simp
    · intro u hu
      simpa using ne_of_mem_of_not_mem hu hnot
  rw [nextSleeping, if_pos (by simp [h]), hdrop, tail_cons]

end RvMiniOs.Sched
