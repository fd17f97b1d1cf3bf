import RvMiniOs.Tasks.Parents

/-!
# Process identifiers

A pid is the value of an 8-bit counter that nothing compares with the table. On
top of the task table this module follows the page-table trees: which tree a
task runs in and for which pids the page `THREAD_TRAPFRAME(pid)` is mapped
there. A thread joins the tree of its creator, a fork copies the tree with
every trap frame but `TRAPFRAME`, and `task_destroy` unmaps the frame of the
task it destroys. A tree is named after the task it was made for.
-/
namespace RvMiniOs.Tasks

def Op.forks : Op → Bool
  | .fork .. | .clone _ false _ _ => true
  | _ => false

theorem spawns_of_vm {op : Op} (h : op.vm = true) : op.spawns = true := by
  cases op <;> first | rfl | cases h

namespace Pids

open Lib Function List Option

/-- `process` is a ghost: the task that a task's process began with, the same
for all tasks that `CLONE_VM` has put into one process. -/
structure Sys where
  table : Table
  process : ℕ → ℕ
  tree : ℕ → ℕ
  thread : ℕ → Bool
  frames : ℕ → List ℕ

/-- A new process `n` with a tree of its own, in which the thread frames `fs`
are mapped. -/
def newTree (s : Sys) (n : ℕ) (fs : List ℕ) : Sys :=
  { s with
    process := Function.update s.process n n
    tree := Function.update s.tree n n
    thread := Function.update s.thread n false
    frames := Function.update s.frames n fs }

def joinTree (s : Sys) (n a : ℕ) : Sys :=
  { s with
    process := Function.update s.process n (s.process a)
    tree := Function.update s.tree n (s.tree a)
    thread := Function.update s.thread n true
    frames := Function.update s.frames (s.tree a)
      ((s.table.obj n).pid :: s.frames (s.tree a)) }

/-- The address space of the new task `n`, as the creating function sets it up. -/
def place (s : Sys) (n : ℕ) (op : Op) : Sys :=
  if op.vm then joinTree s n op.active
  else newTree s n (if op.forks then s.frames (s.tree op.active) else [])

def unmapFrame (s : Sys) (d : ℕ) : Sys :=
  if s.thread d then
    { s with
      frames := Function.update s.frames (s.tree d)
        ((s.frames (s.tree d)).filter (· ≠ (s.table.obj d).pid)) }
  else s

def step (s : Sys) (op : Op) : Option Sys :=
  (Tasks.step s.table op).map fun table =>
    let s' := (victims s.table op).foldl unmapFrame { s with table }
    if table.fresh = s.table.fresh then s' else place s' s.table.fresh op

def initial : Sys where
  table := taskInit
  process := id
  tree := id
  thread := fun _ => false
  frames := fun _ => []

/-- A new task gets a pid that no task of the table has, a new process moreover
one that is no living task's group, and a tree is copied only while no thread's
trap frame is mapped in it. -/
def PidFree (s : Sys) (op : Op) : Prop :=
  op.spawns = true →
    (∀ t ∈ s.table.head, (s.table.obj t).pid ≠ s.table.nextPid) ∧
    (op.vm = false → ∀ t ∈ s.table.head, (s.table.obj t).tgid ≠ s.table.nextPid) ∧
    (op.forks = true → s.frames (s.tree op.active) = [])

instance (s : Sys) (op : Op) : Decidable (PidFree s op) :=
  inferInstanceAs (Decidable (_ → _ ∧ (_ → _) ∧ (_ → _)))

/-- What `task_destroy` of the tasks `ds` does to the trees. -/
structure Unmaps (s s' : Sys) (ds : List ℕ) : Prop where
  table_eq : s'.table = s.table
  process_eq : s'.process = s.process
  tree_eq : s'.tree = s.tree
  thread_eq : s'.thread = s.thread
  frames : ∀ r, ∀ q ∈ s'.frames r, q ∈ s.frames r ∧
    ∀ d ∈ ds, s.thread d = true → s.tree d = r → (s.table.obj d).pid ≠ q

theorem unmaps_frame (s : Sys) (d : ℕ) : Unmaps s (unmapFrame s d) [d] := by
  unfold unmapFrame
  by_cases hd : s.thread d = true
  · rw [if_pos hd]
    refine ⟨rfl, rfl, rfl, rfl, fun r q hq => ?_⟩
    by_cases hr : r = s.tree d
    · subst hr
      simp only [update_self, mem_filter, decide_eq_true_eq] at hq
      refine ⟨hq.1, fun e he _ _ => ?_⟩
      rw [mem_singleton.mp he]
      exact hq.2.symm
    · simp only [update_of_ne hr] at hq
      refine ⟨hq, fun e he _ htree => ?_⟩
      rw [mem_singleton.mp he] at htree
      exact absurd htree.symm hr
  · rw [if_neg hd]
    refine ⟨rfl, rfl, rfl, rfl, fun r q hq => ⟨hq, fun e he hthread _ => ?_⟩⟩
    rw [mem_singleton.mp he] at hthread
    exact absurd hthread hd

theorem unmaps_foldl (s : Sys) (ds : List ℕ) : Unmaps s (ds.foldl unmapFrame s) ds := by
  induction ds generalizing s with
  | nil => exact ⟨rfl, rfl, rfl, rfl, fun _ _ hq => ⟨hq, by simp⟩⟩
  | cons d ds ih =>
    have hd := unmaps_frame s d
    have hds := ih (unmapFrame s d)
    refine ⟨hds.table_eq.trans hd.table_eq, hds.process_eq.trans hd.process_eq,
      hds.tree_eq.trans hd.tree_eq, hds.thread_eq.trans hd.thread_eq, fun r q hq => ?_⟩
    obtain ⟨hmid, hrest⟩ := hds.frames r q hq
    obtain ⟨hold, hfirst⟩ := hd.frames r q hmid
    rw [hd.thread_eq, hd.tree_eq, hd.table_eq] at hrest
    exact ⟨hold, forall_mem_cons.mpr ⟨hfirst d mem_cons_self, hrest⟩⟩

theorem table_step {s s' : Sys} {op : Op} (h : step s op = some s') :
    Tasks.step s.table op = some s'.table := by
  obtain ⟨table, htable, rfl⟩ := map_eq_some_iff.mp h
  have hunmaps := (unmaps_foldl { s with table } (victims s.table op)).table_eq
  rw [htable]
  by_cases hfresh : table.fresh = s.table.fresh
  · simp only [if_pos hfresh, hunmaps]
  · simp only [if_neg hfresh, place]
    cases op.vm <;> simp [joinTree, newTree, hunmaps]

theorem mem_head_of_spawns {s s' : Table} {a t : ℕ} {vm : Bool} (h : Spawns s s' a vm)
    (ht : t ∈ s'.head) : t ∈ s.head ∨ t = s.fresh := by
  simpa [h.head_eq] using ht

structure Inv (s : Sys) : Prop where
  head_lt : ∀ t ∈ s.table.head, t < s.table.fresh
  pid_inj : ∀ t ∈ s.table.head, ∀ u ∈ s.table.head,
    (s.table.obj t).pid = (s.table.obj u).pid → t = u
  group : ∀ t ∈ s.table.head, ∀ u ∈ s.table.head,
    (s.table.obj t).tgid = (s.table.obj u).tgid → s.process t = s.process u
  tree_lt : ∀ t ∈ s.table.head, s.tree t < s.table.fresh
  frames : ∀ t ∈ s.table.head, ∀ q ∈ s.frames (s.tree t),
    ∃ u ∈ s.table.head, s.thread u = true ∧ s.tree u = s.tree t ∧ (s.table.obj u).pid = q

namespace Inv

variable {s : Sys}

theorem of_initial : Inv initial := by
  constructor <;> decide

theorem shrinks {s' : Sys} {table : Table} {ds : List ℕ} (h : Inv s)
    (ht : Shrinks s.table table ds) (hu : Unmaps { s with table } s' ds) : Inv s' := by
  have hkept : ∀ t ∈ s'.table.head, t ∈ s.table.head ∧ t ∉ ds := by
    intro t hmem
    rw [hu.table_eq, ht.head_eq] at hmem
    simpa using hmem
  have hpid : ∀ t, (s'.table.obj t).pid = (s.table.obj t).pid := by
    intro t
    rw [hu.table_eq]
    exact ht.pid_eq t
  have hfresh : s'.table.fresh = s.table.fresh := by
    rw [hu.table_eq]
    exact ht.fresh_eq
  refine ⟨?_, ?_, ?_, ?_, ?_⟩
  · exact fun t hmem => hfresh ▸ h.head_lt t (hkept t hmem).1
  · intro t hmem u humem heq
    rw [hpid, hpid] at heq
    exact h.pid_inj t (hkept t hmem).1 u (hkept u humem).1 heq
  · intro t hmem u humem heq
    rw [hu.table_eq, ht.tgid_eq, ht.tgid_eq] at heq
    rw [hu.process_eq]
    exact h.group t (hkept t hmem).1 u (hkept u humem).1 heq
  · intro t hmem
    rw [hu.tree_eq, hfresh]
    exact h.tree_lt t (hkept t hmem).1
  · intro t hmem q hq
    rw [hu.tree_eq] at hq ⊢
    obtain ⟨hold, hgone⟩ := hu.frames _ q hq
    obtain ⟨u, humem, hthread, htree, hpidu⟩ := h.frames t (hkept t hmem).1 q hold
    -- had `u` been destroyed, its frame would have been unmapped with it
    have hnot : u ∉ ds := fun hd => hgone u hd hthread htree ((ht.pid_eq u).trans hpidu)
    refine ⟨u, ?_, ?_, htree, (hpid u).trans hpidu⟩
    · rw [hu.table_eq, ht.head_eq]
      simpa using ⟨humem, hnot⟩
    · rw [hu.thread_eq]
      exact hthread

variable {table : Table} {op : Op}

theorem ne_fresh (h : Inv s) : ∀ t ∈ s.table.head, t ≠ s.table.fresh :=
  fun t hmem => Nat.ne_of_lt (h.head_lt t hmem)

theorem old_obj {a : ℕ} {vm : Bool} (h : Inv s) (ht : Spawns s.table table a vm) {t : ℕ}
    (hmem : t ∈ s.table.head) : table.obj t = s.table.obj t :=
  ht.obj_old t (h.ne_fresh t hmem)

theorem spawns_head_lt {a : ℕ} {vm : Bool} (h : Inv s) (ht : Spawns s.table table a vm) :
    ∀ t ∈ table.head, t < table.fresh := by
  intro t hmem
  rw [ht.fresh_eq]
  rcases mem_head_of_spawns ht hmem with hold | rfl
  · exact Nat.lt_succ_of_lt (h.head_lt t hold)
  · exact Nat.lt_succ_self _

theorem spawns_pid_inj {a : ℕ} {vm : Bool} (h : Inv s) (ht : Spawns s.table table a vm)
    (hfree : ∀ t ∈ s.table.head, (s.table.obj t).pid ≠ s.table.nextPid) :
    ∀ t ∈ table.head, ∀ u ∈ table.head, (table.obj t).pid = (table.obj u).pid → t = u := by
  intro t htm u hum heq
  rcases mem_head_of_spawns ht htm with hold | rfl <;>
    rcases mem_head_of_spawns ht hum with huold | rfl
  · rw [h.old_obj ht hold, h.old_obj ht huold] at heq
    exact h.pid_inj t hold u huold heq
  · rw [h.old_obj ht hold, ht.pid_new] at heq
    exact absurd heq (hfree t hold)
  · rw [h.old_obj ht huold, ht.pid_new] at heq
    exact absurd heq.symm (hfree u huold)
  · rfl

theorem spawns_newTree {a : ℕ} (h : Inv s) (ht : Spawns s.table table a false)
    (hpid : ∀ t ∈ s.table.head, (s.table.obj t).pid ≠ s.table.nextPid)
    (htgid : ∀ t ∈ s.table.head, (s.table.obj t).tgid ≠ s.table.nextPid) :
    Inv (newTree { s with table } s.table.fresh []) := by
  have hne := h.ne_fresh
  refine ⟨h.spawns_head_lt ht, h.spawns_pid_inj ht hpid, ?_, ?_, ?_⟩
  · intro t htm u hum heq
    have heq : (table.obj t).tgid = (table.obj u).tgid := heq
    rcases mem_head_of_spawns ht htm with hold | rfl <;>
    rcases mem_head_of_spawns ht hum with huold | rfl
    · rw [h.old_obj ht hold, h.old_obj ht huold] at heq
      simpa [newTree, hne t hold, hne u huold] using h.group t hold u huold heq
    · rw [h.old_obj ht hold, ht.tgid_new] at heq
      exact absurd heq (htgid t hold)
    · rw [h.old_obj ht huold, ht.tgid_new] at heq
      exact absurd heq.symm (htgid u huold)
    · rfl
  · intro t htm
    show (newTree { s with table } s.table.fresh []).tree t < table.fresh
    rw [ht.fresh_eq]
    rcases mem_head_of_spawns ht htm with hold | rfl
    · simpa [newTree, hne t hold] using Nat.lt_succ_of_lt (h.tree_lt t hold)
    · simp [newTree]
  · intro t htm q hq
    rcases mem_head_of_spawns ht htm with hold | rfl
    · have htree : s.tree t ≠ s.table.fresh := Nat.ne_of_lt (h.tree_lt t hold)
      have hq : q ∈ s.frames (s.tree t) := by simpa [newTree, hne t hold, htree] using hq
      obtain ⟨u, hum, hthread, hut, hup⟩ := h.frames t hold q hq
      refine ⟨u, by simp [newTree, ht.head_eq, hum], ?_, ?_, ?_⟩
      · simpa [newTree, hne u hum] using hthread
      · simpa [newTree, hne u hum, hne t hold] using hut
      · exact (congrArg Task.pid (h.old_obj ht hum)).trans hup
    · simp [newTree] at hq

theorem spawns_joinTree {a : ℕ} (h : Inv s) (ha : a ∈ s.table.head)
    (ht : Spawns s.table table a true)
    (hpid : ∀ t ∈ s.table.head, (s.table.obj t).pid ≠ s.table.nextPid) :
    Inv (joinTree { s with table } s.table.fresh a) := by
  have hne := h.ne_fresh
  refine ⟨h.spawns_head_lt ht, h.spawns_pid_inj ht hpid, ?_, ?_, ?_⟩
  · intro t htm u hum heq
    have heq : (table.obj t).tgid = (table.obj u).tgid := heq
    rcases mem_head_of_spawns ht htm with hold | rfl <;>
    rcases mem_head_of_spawns ht hum with huold | rfl
    · rw [h.old_obj ht hold, h.old_obj ht huold] at heq
      simpa [joinTree, hne t hold, hne u huold] using h.group t hold u huold heq
    · rw [h.old_obj ht hold, ht.tgid_new] at heq
      simpa [joinTree, hne t hold] using h.group t hold a ha heq
    · rw [h.old_obj ht huold, ht.tgid_new] at heq
      simpa [joinTree, hne u huold] using h.group a ha u huold heq
    · rfl
  · intro t htm
    show (joinTree { s with table } s.table.fresh a).tree t < table.fresh
    rw [ht.fresh_eq]
    rcases mem_head_of_spawns ht htm with hold | rfl
    · simpa [joinTree, hne t hold] using Nat.lt_succ_of_lt (h.tree_lt t hold)
    · simpa [joinTree] using Nat.lt_succ_of_lt (h.tree_lt a ha)
  · -- the frames of an old task's tree, the new thread's among them
    have hcover : ∀ t ∈ s.table.head,
        ∀ q ∈ (joinTree { s with table } s.table.fresh a).frames (s.tree t),
        ∃ u ∈ table.head, (joinTree { s with table } s.table.fresh a).thread u = true ∧
          (joinTree { s with table } s.table.fresh a).tree u = s.tree t ∧
          (table.obj u).pid = q := by
      intro t hold q hq
      have hq : q = (table.obj s.table.fresh).pid ∧ s.tree t = s.tree a ∨
          q ∈ s.frames (s.tree t) := by
        by_cases hta : s.tree t = s.tree a
        · have hq : q = (table.obj s.table.fresh).pid ∨ q ∈ s.frames (s.tree a) := by
            simpa [joinTree, hta] using hq
          exact hq.imp (⟨·, hta⟩) (hta ▸ ·)
        · exact .inr (by simpa [joinTree, hta] using hq)
      rcases hq with ⟨rfl, hta⟩ | hq
      · exact ⟨s.table.fresh, by simp [ht.head_eq], by simp [joinTree], by simp [joinTree, hta], rfl⟩
      · obtain ⟨u, hum, hthread, hut, hup⟩ := h.frames t hold q hq
        refine ⟨u, by simp [ht.head_eq, hum], ?_, ?_, ?_⟩
        · simpa [joinTree, hne u hum] using hthread
        · simpa [joinTree, hne u hum] using hut
        · exact (congrArg Task.pid (h.old_obj ht hum)).trans hup
    intro t htm q hq
    rcases mem_head_of_spawns ht htm with hold | rfl
    · have htree : (joinTree { s with table } s.table.fresh a).tree t = s.tree t := by
        simp [joinTree, hne t hold]
      rw [htree] at hq ⊢
      exact hcover t hold q hq
    · have htree : (joinTree { s with table } s.table.fresh a).tree s.table.fresh = s.tree a := by
        simp [joinTree]
      rw [htree] at hq ⊢
      exact hcover a ha q hq

theorem of_step {s' : Sys} (h : Inv s) (hok : PidFree s op) (hstep : step s op = some s') : Inv s' := by
  obtain ⟨table, htable, rfl⟩ := map_eq_some_iff.mp hstep
  obtain ⟨ha, hshrinks | ⟨hspawns, hvictims, hop⟩⟩ := step_cases htable
  · simpa only [if_pos hshrinks.fresh_eq] using h.shrinks hshrinks (unmaps_foldl _ _)
  · have hfresh : table.fresh ≠ s.table.fresh := by simp [hspawns.fresh_eq]
    simp only [if_neg hfresh, hvictims, foldl_nil]
    obtain ⟨hpid, htgid, hfork⟩ := hok hop
    unfold place
    cases hvm : op.vm with
    | true =>
      rw [hvm] at hspawns
      exact h.spawns_joinTree ha hspawns hpid
    | false =>
      rw [hvm] at hspawns
      have hframes : (if op.forks then s.frames (s.tree op.active) else []) = [] := by
        split_ifs with hf
        · exact hfork hf
        · rfl
      simpa only [Bool.false_eq_true, if_false, hframes] using
        h.spawns_newTree hspawns hpid (htgid hvm)

theorem run {s' : Sys} (h : Reaches step PidFree s s') (h0 : Inv s) : Inv s' :=
  h.invariant (P := Inv) h0 fun _ _ _ hi hok hstep => hi.of_step hok hstep

end Inv

/-- In every run in which each new task finds its pid and group unused, and no
multithreaded process forks: no two tasks of the table have the same pid, a
group exit destroys only tasks of the caller's process, a new process has a
group of its own, and a new thread's trap frame page is not mapped yet. -/
theorem pids_unique {s : Sys} (h : Reaches step PidFree initial s) :
    (∀ t ∈ s.table.head, ∀ u ∈ s.table.head, (s.table.obj t).pid = (s.table.obj u).pid → t = u) ∧
    (∀ a ∈ s.table.head, ∀ contended, ∀ d ∈ victims s.table (.exitGroup a contended),
      s.process d = s.process a) ∧
    ∀ op s', PidFree s op → step s op = some s' →
      (s'.table.fresh ≠ s.table.fresh → op.vm = false → ∀ t ∈ s.table.head,
        (s'.table.obj s.table.fresh).tgid ≠ (s.table.obj t).tgid) ∧
      (op.vm = true → s.table.nextPid ∉ s.frames (s.tree op.active)) := by
  have hi := Inv.run h .of_initial
  refine ⟨hi.pid_inj, fun a ha _ d hd => ?_, fun op s' hok hstep => ⟨fun hnew hvm t ht => ?_,
    fun hvm hframe => ?_⟩⟩
  · simp only [victims, mem_filter, decide_eq_true_eq] at hd
    exact hi.group d hd.1 a ha hd.2.1.symm
  · obtain ⟨-, hshrinks | ⟨hspawns, -, hop⟩⟩ := step_cases (table_step hstep)
    · exact absurd hshrinks.fresh_eq hnew
    · rw [hspawns.tgid_new, hvm]
      exact ((hok hop).2.1 hvm t ht).symm
  · obtain ⟨ha, -⟩ := step_cases (table_step hstep)
    obtain ⟨u, hu, -, -, hpid⟩ := hi.frames op.active ha _ hframe
    exact (hok (spawns_of_vm hvm)).1 u hu hpid

/-- A process runs a thread, waits for it, and forks. -/
def threadThenFork : List Op :=
  [.startUserland idle true true, .clone 1 true true true, .exit 2 false, .wait 1,
    .fork 1 true true]

theorem pids_unique_threadThenFork : ∃ s, run step initial threadThenFork = some s ∧
    s.table.head = [0, 1, 3] ∧ ∀ t ∈ s.table.head, ∀ u ∈ s.table.head,
      (s.table.obj t).pid = (s.table.obj u).pid → t = u := by
  refine ⟨_, rfl, rfl, (pids_unique (.of_run threadThenFork ?_ rfl)).1⟩
  decide

/-- Task 1 forks `n` children one after the other, each of which exits and is
waited for; the first has the name `first`. -/
def children (first n : ℕ) : List Op :=
  (List.range n).flatMap fun k => [.fork 1 true true, .exit (first + k) false, .wait 1]

def wrapToIdle : List Op :=
  .startUserland idle true true :: children 2 254 ++ [.fork 1 true true]

def wrapToThread : List Op :=
  [.startUserland idle true true, .clone 1 true true true] ++ children 3 255

/-- Task 3 is forked while thread 2 lives, and inherits its trap frame. The
thread ends, and failed forks use up the pids until its own comes again. -/
def forkWithThread : List Op :=
  [.startUserland idle true true, .clone 1 true true true, .fork 1 true true, .exit 2 false,
    .wait 1] ++ List.replicate 254 (.fork 1 true false)

/-- A process gets the pid and the group of the idle task, which its group exit
would destroy. A new thread's trap frame page is mapped already, for a living
thread of the same pid, and in a forked process even though no living task has
that pid. -/
theorem pid_counter_wraps :
    (∃ s, Reaches step anyAction initial s ∧ idle ∈ s.table.head ∧ 256 ∈ s.table.head ∧
      (s.table.obj 256).pid = (s.table.obj idle).pid ∧
      idle ∈ victims s.table (.exitGroup 256 false) ∧ s.process idle ≠ s.process 256) ∧
    (∃ s, Reaches step anyAction initial s ∧ 1 ∈ s.table.head ∧ s.table.nextPid ∈ s.frames (s.tree 1)) ∧
    ∃ s, Reaches step anyAction initial s ∧ 3 ∈ s.table.head ∧
      (∀ t ∈ s.table.head, (s.table.obj t).pid ≠ s.table.nextPid) ∧
      s.table.nextPid ∈ s.frames (s.tree 3) := by
  refine ⟨?_, ?_, ?_⟩
  · exact Reaches.of_run_any wrapToIdle (by decide +kernel)
  · exact Reaches.of_run_any wrapToThread (by decide +kernel)
  · exact Reaches.of_run_any forkWithThread (by decide +kernel)

end Pids

end RvMiniOs.Tasks
