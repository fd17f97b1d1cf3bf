import RvMiniOs.Tasks.Table
import Mathlib.Tactic

/-!
# Parents and the tasks that are destroyed under their children

Nothing reparents the children of a destroyed task. The parent pointers stay
sound in exactly the runs that never destroy a task of which a surviving task
of the table is a child.
-/
namespace RvMiniOs.Tasks

open Lib Function List Option

/-- Every task of the table but idle has a parent that `task_destroy` has not
freed. -/
def ParentsLive (s : Table) : Prop :=
  ∀ t ∈ s.head, t ≠ idle → ∃ p ∈ (s.obj t).parent, (s.obj p).life ≠ .terminated

instance (s : Table) : Decidable (ParentsLive s) :=
  inferInstanceAs (Decidable (∀ t ∈ s.head, _))

def victims (s : Table) : Op → List ℕ
  | .exitGroup a _ => s.head.filter fun p => (s.obj a).tgid = (s.obj p).tgid ∧ p ≠ a
  | .wait a => (s.obj a).zombies.head?.toList.filter fun p => (s.obj p).life = .zombie
  | .waitpid a pid => (findPid s a pid).toList.filter fun p => (s.obj p).life = .zombie
  | _ => []

/-- No task that stays in the table is a child of a task the step destroys. -/
def ChildlessVictims (s : Table) (op : Op) : Prop :=
  ∀ t ∈ s.head, t ∉ victims s op → ∀ d ∈ victims s op, (s.obj t).parent ≠ some d

instance (s : Table) (op : Op) : Decidable (ChildlessVictims s op) :=
  inferInstanceAs (Decidable (∀ t ∈ s.head, _))

def Op.zombified : Op → Option ℕ
  | .exit a false | .exitGroup a false | .resumeExit a => some a
  | _ => none

/-- The table after the tasks `ds` have been destroyed, links and exits aside. -/
structure Shrinks (s s' : Table) (ds : List ℕ) : Prop where
  fresh_eq : s'.fresh = s.fresh
  head_eq : s'.head = s.head.filter (· ∉ ds)
  parent_eq : ∀ t, (s'.obj t).parent = (s.obj t).parent
  pid_eq : ∀ t, (s'.obj t).pid = (s.obj t).pid
  tgid_eq : ∀ t, (s'.obj t).tgid = (s.obj t).tgid
  life : ∀ t, (s'.obj t).life = .terminated → t ∈ ds ∨ (s.obj t).life = .terminated

def Op.spawns : Op → Bool
  | .kthread .. | .startUserland .. | .fork .. | .clone .. => true
  | _ => false

def Op.vm : Op → Bool
  | .clone _ vm _ _ => vm
  | _ => false

/-- The table after a live task has created a child, with `vm` a thread. -/
structure Spawns (s s' : Table) (a : ℕ) (vm : Bool) : Prop where
  fresh_eq : s'.fresh = s.fresh + 1
  head_eq : s'.head = s.head ++ [s.fresh]
  parent_new : (s'.obj s.fresh).parent = some a
  pid_new : (s'.obj s.fresh).pid = s.nextPid
  tgid_new : (s'.obj s.fresh).tgid = if vm then (s.obj a).tgid else s.nextPid
  life_new : (s'.obj s.fresh).life = .live
  obj_old : ∀ t, t ≠ s.fresh → s'.obj t = s.obj t

namespace Shrinks

variable {s s' s'' : Table} {ds es : List ℕ}

theorem refl (s : Table) : Shrinks s s [] :=
  ⟨rfl, by simp, fun _ => rfl, fun _ => rfl, fun _ => rfl, fun _ h => .inr h⟩

theorem trans (h : Shrinks s s' ds) (h' : Shrinks s' s'' es) : Shrinks s s'' (ds ++ es) where
  fresh_eq := h'.fresh_eq.trans h.fresh_eq
  head_eq := by
    rw [h'.head_eq, h.head_eq, List.filter_filter]
    simp [Bool.and_comm]
  parent_eq t := (h'.parent_eq t).trans (h.parent_eq t)
  pid_eq t := (h'.pid_eq t).trans (h.pid_eq t)
  tgid_eq t := (h'.tgid_eq t).trans (h.tgid_eq t)
  life t ht := by
    rcases h'.life t ht with hes | hmid
    · exact .inl (List.mem_append_right _ hes)
    · exact (h.life t hmid).imp_left (List.mem_append_left _)

theorem setObj (s : Table) (t : ℕ) (f : Task → Task) (hp : (f (s.obj t)).parent = (s.obj t).parent)
    (hi : (f (s.obj t)).pid = (s.obj t).pid) (hg : (f (s.obj t)).tgid = (s.obj t).tgid)
    (hl : (f (s.obj t)).life = .terminated → (s.obj t).life = .terminated) :
    Shrinks s (s.setObj t f) [] where
  fresh_eq := rfl
  head_eq := by simp [Table.setObj]
  parent_eq u := by by_cases h : u = t <;> simp_all [Table.setObj, update]
  pid_eq u := by by_cases h : u = t <;> simp_all [Table.setObj, update]
  tgid_eq u := by by_cases h : u = t <;> simp_all [Table.setObj, update]
  life u hu := by
    refine .inr ?_
    by_cases h : u = t
    · subst h
      exact hl (by simpa [Table.setObj] using hu)
    · simpa [Table.setObj, h] using hu

theorem destroy (s : Table) (d : ℕ) : Shrinks s (taskDestroy s d) [d] where
  fresh_eq := rfl
  head_eq := by simp [taskDestroy]
  parent_eq _ := rfl
  pid_eq _ := rfl
  tgid_eq _ := rfl
  life t ht := by
    by_cases h : t = d
    · exact .inl (by simp [h])
    · exact .inr (by simpa [taskDestroy, h] using ht)

theorem reap (s : Table) (a d : ℕ) (zs : List ℕ) :
    Shrinks s (taskReap (s.setObj a fun p => { p with zombies := zs }) d)
      ([d].filter fun p => (s.obj p).life = .zombie) := by
  have hset := setObj s a (fun p => { p with zombies := zs }) rfl rfl rfl id
  have hlife : ((s.setObj a fun p => { p with zombies := zs }).obj d).life = (s.obj d).life := by
    by_cases h : d = a <;> simp [Table.setObj, h]
  unfold taskReap
  rw [hlife]
  by_cases h : (s.obj d).life = .zombie
  · simpa [h] using hset.trans (destroy _ d)
  · simpa [h] using hset

theorem pushZombie (s : Table) (p t : ℕ) : Shrinks s (pushZombie s p t) [] :=
  setObj s p _ rfl rfl rfl id

theorem zombify {t : ℕ} {contended : Bool} (h : taskZombify s t contended = some s') : Shrinks s s' [] := by
  unfold taskZombify at h
  cases hp : (s.obj t).parent with
  | none => simp [hp] at h
  | some p =>
    cases contended with
    | true =>
      simp only [hp, if_true, some.injEq] at h
      exact h ▸ setObj s t _ rfl rfl rfl (by simp)
    | false =>
      simp only [hp, Bool.false_eq_true, if_false, some.injEq] at h
      exact h ▸ (setObj s t _ rfl rfl rfl (by simp)).trans (pushZombie _ p t)

theorem resumeZombify {t : ℕ} (h : resumeZombify s t = some s') : Shrinks s s' [] := by
  unfold Tasks.resumeZombify at h
  cases hp : (s.obj t).parent with
  | none => simp [hp] at h
  | some p =>
    simp only [hp, some.injEq] at h
    exact h ▸ (setObj s t _ rfl rfl rfl id).trans (pushZombie _ p t)

theorem exitTgid (a g : ℕ) (s : Table) (l : List ℕ) :
    Shrinks s (l.foldl (exitTgidCb a g) s) (l.filter fun p => g = (s.obj p).tgid ∧ p ≠ a) := by
  induction l generalizing s with
  | nil => exact refl s
  | cons p l ih =>
    have htail := ih (exitTgidCb a g s p)
    by_cases h : g = (s.obj p).tgid ∧ p ≠ a
    · have hcb : exitTgidCb a g s p = taskDestroy s p := if_pos h
      have hd := destroy s p
      simp only [foldl_cons, hcb, hd.tgid_eq] at htail ⊢
      simpa [filter_cons, h] using hd.trans htail
    · have hcb : exitTgidCb a g s p = s := if_neg h
      simp only [foldl_cons, hcb] at htail ⊢
      rw [filter_cons_of_neg (by simpa using h)]
      exact htail

end Shrinks

theorem alloc_ok {s s' : Table} {user heap : Bool} {parent : Option ℕ} {p : Task}
    (h : allocSqueletton s user parent heap = .ok (p, s')) :
    p.parent = parent ∧ p.life = .live ∧ p.pid = s.nextPid ∧ p.tgid = s.nextPid ∧
      s' = { s with nextPid := (s.nextPid + 1) % 256 } := by
  unfold allocSqueletton at h
  split_ifs at h
  obtain ⟨rfl, rfl⟩ := Prod.mk.inj (Except.ok.inj h)
  exact ⟨rfl, rfl, rfl, rfl, rfl⟩

theorem Spawns.activate {s s' : Table} {user heap : Bool} {a : ℕ} {p : Task} (vm : Bool)
    (h : allocSqueletton s user (some a) heap = .ok (p, s')) :
    Spawns s (activateTask s' (if vm then { p with tgid := (s.obj a).tgid } else p)) a vm := by
  obtain ⟨hparent, hlife, hpid, htgid, rfl⟩ := alloc_ok h
  refine ⟨rfl, rfl, ?_, ?_, ?_, ?_, ?_⟩
  · cases vm <;> simp [activateTask, hparent]
  · cases vm <;> simp [activateTask, hpid]
  · cases vm <;> simp [activateTask, htgid]
  · cases vm <;> simp [activateTask, hlife]
  · intro t ht
    simp [activateTask, ht]

theorem Shrinks.alloc {s s' : Table} {user heap : Bool} {parent : Option ℕ} {p : Task}
    (h : allocSqueletton s user parent heap = .ok (p, s')) : Shrinks s s' [] := by
  obtain ⟨-, -, -, -, rfl⟩ := alloc_ok h
  exact ⟨rfl, by simp, fun _ => rfl, fun _ => rfl, fun _ => rfl, fun _ h => .inr h⟩

theorem clone_cases {s s' : Table} {a : ℕ} {vm heap mapped : Bool}
    (h : taskClone s a vm heap mapped = some s') : Shrinks s s' [] ∨ Spawns s s' a vm := by
  unfold taskClone at h
  by_cases huser : (s.obj a).user
  · simp only [huser, Bool.not_true, Bool.false_eq_true, if_false] at h
    cases halloc : allocSqueletton s true (some a) heap with
    | error e =>
      simp only [halloc, some.injEq] at h
      exact .inl (h ▸ .refl s)
    | ok r =>
      simp only [halloc, some.injEq] at h
      cases mapped with
      | false => exact .inl (h ▸ .alloc halloc)
      | true =>
        obtain ⟨-, -, -, -, hs⟩ := alloc_ok halloc
        have hobj : r.2.obj = s.obj := by rw [hs]
        rw [hobj] at h
        exact .inr (h ▸ Spawns.activate vm halloc)
  · simp [huser] at h

theorem step_cases {s s' : Table} {op : Op} (h : step s op = some s') : op.active ∈ s.head ∧
    (Shrinks s s' (victims s op) ∨ Spawns s s' op.active op.vm ∧ victims s op = [] ∧ op.spawns = true) := by
  unfold step at h
  split_ifs at h with hact
  refine ⟨hact.1, ?_⟩
  cases op with
  | kthread a heap =>
    simp only [Op.apply, taskKthread, some.injEq] at h
    split at h
    · exact .inl (h ▸ .refl s)
    · exact .inr ⟨h ▸ Spawns.activate false ‹_›, rfl, rfl⟩
  | startUserland a heap loaded =>
    simp only [Op.apply, taskStartUserland, some.injEq] at h
    split at h
    · exact .inl (h ▸ .refl s)
    · cases loaded with
      | false => exact .inl (h ▸ .alloc ‹_›)
      | true => exact .inr ⟨h ▸ Spawns.activate false ‹_›, rfl, rfl⟩
  | fork a heap mapped => exact (clone_cases h).imp_right (⟨·, rfl, rfl⟩)
  | clone a vm heap mapped => exact (clone_cases h).imp_right (⟨·, rfl, rfl⟩)
  | exit a contended => exact .inl (.zombify h)
  | exitGroup a contended =>
    have hwalk := Shrinks.exitTgid a (s.obj a).tgid s s.head
    have hall := hwalk.trans (.zombify h)
    rw [append_nil] at hall
    exact .inl hall
  | resumeExit a => exact .inl (.resumeZombify h)
  | wait a =>
    simp only [Op.apply, sysWait] at h
    cases hz : (s.obj a).zombies with
    | nil => simp [hz] at h
    | cons z zs =>
      simp only [hz, some.injEq] at h
      subst h
      rw [victims, hz]
      exact .inl (.reap s a z zs)
  | waitpid a pid =>
    simp only [Op.apply, sysWaitpid] at h
    cases hz : findPid s a pid with
    | none => simp [hz] at h
    | some z =>
      simp only [hz, some.injEq] at h
      subst h
      rw [victims, hz]
      exact .inl (.reap s a z ((s.obj a).zombies.filter (· ≠ z)))

structure Inv (s : Table) : Prop where
  idle_lt : idle < s.fresh
  idle_orphan : (s.obj idle).parent = none
  head_lt : ∀ t ∈ s.head, t < s.fresh
  head_live : ∀ t ∈ s.head, (s.obj t).life ≠ .terminated
  parent : ∀ t ∈ s.head, t ≠ idle →
    ∃ p ∈ (s.obj t).parent, p < s.fresh ∧ (s.obj p).life ≠ .terminated

theorem Inv.init : Inv taskInit := by
  constructor <;> decide

theorem Inv.shrinks {s s' : Table} {ds : List ℕ} (hinv : Inv s) (h : Shrinks s s' ds)
    (hds : ∀ t ∈ s.head, t ∉ ds → ∀ d ∈ ds, (s.obj t).parent ≠ some d) : Inv s' := by
  have hkept : ∀ t ∈ s'.head, t ∈ s.head ∧ t ∉ ds := by
    intro t ht
    rw [h.head_eq] at ht
    simpa using ht
  refine ⟨?_, ?_, ?_, ?_, ?_⟩
  · exact h.fresh_eq ▸ hinv.idle_lt
  · exact (h.parent_eq idle).trans hinv.idle_orphan
  · exact fun t ht => h.fresh_eq ▸ hinv.head_lt t (hkept t ht).1
  · intro t ht hterm
    rcases h.life t hterm with hd | hold
    · exact (hkept t ht).2 hd
    · exact hinv.head_live t (hkept t ht).1 hold
  · intro t ht hne
    obtain ⟨hmem, hnot⟩ := hkept t ht
    obtain ⟨p, hp, hlt, hlive⟩ := hinv.parent t hmem hne
    refine ⟨p, (h.parent_eq t).trans hp, h.fresh_eq ▸ hlt, fun hterm => ?_⟩
    -- a parent that is terminated now was a victim, and `t` is a survivor
    rcases h.life p hterm with hd | hold
    · exact hds t hmem hnot p hd hp
    · exact hlive hold

theorem Inv.spawns {s s' : Table} {a : ℕ} {vm : Bool} (hinv : Inv s) (ha : a ∈ s.head)
    (h : Spawns s s' a vm) : Inv s' := by
  have hold : ∀ t, t < s.fresh → s'.obj t = s.obj t := fun t ht => h.obj_old t (Nat.ne_of_lt ht)
  have hmem : ∀ t ∈ s'.head, t ∈ s.head ∨ t = s.fresh := by
    intro t ht
    simpa [h.head_eq] using ht
  refine ⟨?_, ?_, ?_, ?_, ?_⟩
  · exact h.fresh_eq ▸ Nat.lt_succ_of_lt hinv.idle_lt
  · rw [hold idle hinv.idle_lt]
    exact hinv.idle_orphan
  · intro t ht
    rw [h.fresh_eq]
    rcases hmem t ht with hin | rfl
    · exact Nat.lt_succ_of_lt (hinv.head_lt t hin)
    · exact Nat.lt_succ_self _
  · intro t ht
    rcases hmem t ht with hin | rfl
    · rw [hold t (hinv.head_lt t hin)]
      exact hinv.head_live t hin
    · simp [h.life_new]
  · intro t ht hne
    rcases hmem t ht with hin | rfl
    · obtain ⟨p, hp, hlt, hlive⟩ := hinv.parent t hin hne
      rw [hold t (hinv.head_lt t hin)]
      exact ⟨p, hp, h.fresh_eq ▸ Nat.lt_succ_of_lt hlt, by rwa [hold p hlt]⟩
    · have hlt := hinv.head_lt a ha
      refine ⟨a, h.parent_new, h.fresh_eq ▸ Nat.lt_succ_of_lt hlt, ?_⟩
      rw [hold a hlt]
      exact hinv.head_live a ha

theorem Inv.of_step {s s' : Table} {op : Op} (hinv : Inv s) (hok : ChildlessVictims s op)
    (h : step s op = some s') : Inv s' := by
  obtain ⟨ha, hshrinks | ⟨hspawns, -⟩⟩ := step_cases h
  · exact hinv.shrinks hshrinks hok
  · exact hinv.spawns ha hspawns

theorem Inv.parentsLive {s : Table} (hinv : Inv s) : ParentsLive s := by
  intro t ht hne
  obtain ⟨p, hp, -, hlive⟩ := hinv.parent t ht hne
  exact ⟨p, hp, hlive⟩

/-- `t` is in the list of zombies of the task its parent pointer names. -/
def Linked (s : Table) (t : ℕ) : Prop :=
  ∃ p ∈ (s.obj t).parent, t ∈ (s.obj p).zombies

theorem linked_pushZombie {s : Table} {p t : ℕ} (h : (s.obj t).parent = some p) :
    Linked (pushZombie s p t) t :=
  ⟨p, ((Shrinks.pushZombie s p t).parent_eq t).trans h, by simp [pushZombie, Table.setObj]⟩

theorem linked_of_zombify {s s' : Table} {t : ℕ} (h : taskZombify s t false = some s') : Linked s' t := by
  unfold taskZombify at h
  cases hp : (s.obj t).parent with
  | none => simp [hp] at h
  | some p =>
    simp only [hp, Bool.false_eq_true, if_false, some.injEq] at h
    exact h ▸ linked_pushZombie (by simp [Table.setObj, hp])

theorem linked_of_resumeZombify {s s' : Table} {t : ℕ} (h : resumeZombify s t = some s') : Linked s' t := by
  unfold resumeZombify at h
  cases hp : (s.obj t).parent with
  | none => simp [hp] at h
  | some p =>
    simp only [hp, some.injEq] at h
    exact h ▸ linked_pushZombie (by simp [Table.setObj, hp])

theorem linked_of_step {s s' : Table} {op : Op} {c : ℕ} (h : step s op = some s')
    (hc : op.zombified = some c) : c = op.active ∧ c ∉ victims s op ∧ Linked s' c := by
  unfold step at h
  split_ifs at h
  cases op with
  | exit a contended =>
    cases contended <;> cases hc
    exact ⟨rfl, not_mem_nil, linked_of_zombify h⟩
  | exitGroup a contended =>
    cases contended <;> cases hc
    exact ⟨rfl, by simp [victims], linked_of_zombify h⟩
  | resumeExit a =>
    cases hc
    exact ⟨rfl, not_mem_nil, linked_of_resumeZombify h⟩
  | _ => cases hc

theorem Inv.linked_live {s s' : Table} {op : Op} {c : ℕ} (hinv : Inv s)
    (hok : ChildlessVictims s op) (h : step s op = some s') (hc : op.zombified = some c) :
    ∃ p ∈ (s'.obj c).parent, (s'.obj p).life ≠ .terminated ∧ c ∈ (s'.obj p).zombies := by
  have hinv' := hinv.of_step hok h
  obtain ⟨rfl, hnot, p, hp, hmem⟩ := linked_of_step h hc
  have hhead : op.active ∈ s'.head := by
    obtain ⟨ha, hshrinks | ⟨hspawns, -⟩⟩ := step_cases h
    · simp [hshrinks.head_eq, ha, hnot]
    · simp [hspawns.head_eq, ha]
  have hne : op.active ≠ idle := by
    intro heq
    rw [heq, hinv'.idle_orphan] at hp
    cases hp
  obtain ⟨q, hq, -, hlive⟩ := hinv'.parent _ hhead hne
  cases some.inj (hp.symm.trans hq)
  exact ⟨p, hp, hlive, hmem⟩

/-- In every run that destroys no task with a surviving child, every task but
idle has a live parent, and every zombie is linked to a live one. -/
theorem parents_outlive_children {s : Table} (h : Reaches step ChildlessVictims taskInit s) :
    ParentsLive s ∧ ∀ op s', ChildlessVictims s op → step s op = some s' →
      ∀ c ∈ op.zombified,
        ∃ p ∈ (s'.obj c).parent, (s'.obj p).life ≠ .terminated ∧ c ∈ (s'.obj p).zombies := by
  have hinv : Inv s := h.invariant Inv.init fun _ _ _ => Inv.of_step
  exact ⟨hinv.parentsLive, fun _ _ hok hstep _ hc => hinv.linked_live hok hstep hc⟩

def forkExitWait : List Op :=
  [.startUserland idle true true, .fork 1 true true, .exit 2 false, .wait 1]

theorem parents_outlive_forkExitWait :
    ∃ s, run step taskInit forkExitWait = some s ∧ ParentsLive s := by
  refine ⟨_, rfl, (parents_outlive_children (Reaches.of_run forkExitWait ?_ rfl)).1⟩
  decide

/-- A grandchild outlives its parent, which exits and is reaped. -/
def forkForkExitWait : List Op :=
  [.startUserland idle true true, .fork 1 true true, .fork 2 true true, .exit 2 false, .wait 1]

/-- A thread ends the group of the thread that created it, and is linked to the
destroyed task's zombies. -/
def cloneExitGroup : List Op :=
  [.startUserland idle true true, .clone 1 true true true, .exitGroup 2 false]

/-- The grandchild and the group's last thread both keep a pointer to a
destroyed parent. -/
theorem orphan_keeps_destroyed_parent :
    (∃ s, Reaches step anyAction taskInit s ∧ ¬ ParentsLive s) ∧
    ∃ s, Reaches step anyAction taskInit s ∧ 2 ∈ s.head ∧ (s.obj 2).parent = some 1 ∧
      (s.obj 1).life = .terminated ∧ 2 ∈ (s.obj 1).zombies := by
  constructor
  · exact ⟨_, Reaches.of_run forkForkExitWait (allowed_anyAction _ _) rfl, by decide⟩
  · exact ⟨_, Reaches.of_run cloneExitGroup (allowed_anyAction _ _) rfl, by decide⟩

end RvMiniOs.Tasks
