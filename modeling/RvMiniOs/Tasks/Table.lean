import RvMiniOs.Err
import RvMiniOs.Lib.Runs
import Mathlib.Data.List.Basic
import Mathlib.Logic.Function.Basic

/-!
# The task table and the parent pointers

The life of tasks in `kernel/core/task/task.c`, the exits of
`kernel/core/sched/scheduler.c` and the waits of `kernel/core/syscall/sys_sync.c`.
A task object is named by the order of its allocation, so a freed object keeps
its name and no pointer is reused. Which live task runs next is left open: any
task of the table that has not begun to exit may be the active one. A caller
that would block in `wait` or `waitpid` takes no step, and `none` also stands
for a panic.
-/
namespace RvMiniOs.Tasks

/-- `ZOMBIE`, `TERMINATED`, and the other values of `state` taken together. -/
inductive Life where
  | live | zombie | terminated
  deriving DecidableEq, Repr

/-- How far a task is in its exit. `releasing` is a task blocked on an inode
mutex in the `release_fds` of its own `task_zombify`. -/
inductive Exit where
  | none | releasing | done
  deriving DecidableEq, Repr

structure Task where
  pid : ℕ
  tgid : ℕ
  user : Bool
  parent : Option ℕ
  life : Life
  exit : Exit
  zombies : List ℕ
  deriving DecidableEq, Repr

/-- `ptable_t` with the objects its clist links: `head` is the list of living
tasks, `obj` every object ever allocated, `fresh` the name of the next one. -/
structure Table where
  nextPid : ℕ
  activeTask : ℕ
  head : List ℕ
  obj : ℕ → Task
  fresh : ℕ

abbrev maxTask : ℕ := 32

def Table.setObj (s : Table) (t : ℕ) (f : Task → Task) : Table :=
  { s with obj := Function.update s.obj t (f (s.obj t)) }

/-- `heap` tells whether `calloc` succeeds. -/
def allocSqueletton (s : Table) (user : Bool) (parent : Option ℕ) (heap : Bool) :
    Except ℤ (Task × Table) :=
  if s.activeTask ≥ maxTask then .error (-eagain)
  else if !heap then .error (-enomem)
  else
    .ok ({ pid := s.nextPid, tgid := s.nextPid, user, parent, life := .live, exit := .none,
           zombies := [] },
         { s with nextPid := (s.nextPid + 1) % 256 })

def activateTask (s : Table) (p : Task) : Table :=
  { s with
    head := s.head ++ [s.fresh]
    activeTask := (s.activeTask + 1) % 256
    obj := Function.update s.obj s.fresh p
    fresh := s.fresh + 1 }

def taskKthread (s : Table) (active : Option ℕ) (heap : Bool) : Table :=
  match allocSqueletton s false active heap with
  | .error _ => s
  | .ok (p, s) => activateTask s p

/-- `loaded` tells whether the image and its arguments are set up. -/
def taskStartUserland (s : Table) (active : ℕ) (heap loaded : Bool) : Table :=
  match allocSqueletton s true (some active) heap with
  | .error _ => s
  | .ok (p, s) => if loaded then activateTask s p else s

/-- `mapped` tells whether the trap frame, the root table and the address space
are set up, and for `vm` that `entry` and `stack` are given. -/
def taskClone (s : Table) (parent : ℕ) (vm heap mapped : Bool) : Option Table :=
  if !(s.obj parent).user then none
  else
    match allocSqueletton s true (some parent) heap with
    | .error _ => some s
    | .ok (child, s) =>
      let child := if vm then { child with tgid := (s.obj parent).tgid } else child
      some (if mapped then activateTask s child else s)

def taskFork (s : Table) (parent : ℕ) (heap mapped : Bool) : Option Table :=
  taskClone s parent false heap mapped

/-- A task's `wait_node` is in at most one list of zombies, so removing it
from all queues removes it from every one. -/
def taskDestroy (s : Table) (task : ℕ) : Table :=
  { s with
    head := s.head.filter (· ≠ task)
    activeTask := (s.activeTask + 255) % 256
    obj := fun t =>
      { s.obj t with
        life := if t = task then .terminated else (s.obj t).life
        zombies := (s.obj t).zombies.filter (· ≠ task) } }

def taskReap (s : Table) (task : ℕ) : Table :=
  if (s.obj task).life ≠ .zombie then s else taskDestroy s task

def pushZombie (s : Table) (parent task : ℕ) : Table :=
  s.setObj parent fun p => { p with zombies := p.zombies ++ [task] }

/-- `task_zombify`. When `release_fds` blocks (`contended`), the task leaves
the function before it is linked to its parent and is `RUNNING`, not `ZOMBIE`,
when it comes back. -/
def taskZombify (s : Table) (task : ℕ) (contended : Bool) : Option Table :=
  match (s.obj task).parent with
  | none => none
  | some parent =>
    if contended then
      some (s.setObj task fun p => { p with life := .live, exit := .releasing })
    else
      some (pushZombie (s.setObj task fun p => { p with life := .zombie, exit := .done })
        parent task)

def resumeZombify (s : Table) (task : ℕ) : Option Table :=
  match (s.obj task).parent with
  | none => none
  | some parent =>
    some (pushZombie (s.setObj task fun p => { p with exit := .done }) parent task)

def schedulerExit (s : Table) (active : ℕ) (contended : Bool) : Option Table :=
  taskZombify s active contended

def exitTgidCb (active tgid : ℕ) (s : Table) (p : ℕ) : Table :=
  if tgid = (s.obj p).tgid ∧ p ≠ active then taskDestroy s p else s

def schedulerExitGroup (s : Table) (active : ℕ) (contended : Bool) : Option Table :=
  schedulerExit (s.head.foldl (exitTgidCb active (s.obj active).tgid) s) active contended

def sysWait (s : Table) (active : ℕ) : Option Table :=
  match (s.obj active).zombies with
  | [] => none
  | toReap :: zombies => some (taskReap (s.setObj active fun p => { p with zombies }) toReap)

def findPid (s : Table) (active : ℕ) (pid : ℤ) : Option ℕ :=
  (s.obj active).zombies.find? fun p => pid = (s.obj p).pid

def sysWaitpid (s : Table) (active : ℕ) (pid : ℤ) : Option Table :=
  match findPid s active pid with
  | none => none
  | some toReap =>
    some (taskReap
      (s.setObj active fun p => { p with zombies := p.zombies.filter (· ≠ toReap) }) toReap)

inductive Op where
  | kthread (active : ℕ) (heap : Bool)
  | startUserland (active : ℕ) (heap loaded : Bool)
  | fork (active : ℕ) (heap mapped : Bool)
  | clone (active : ℕ) (vm heap mapped : Bool)
  | exit (active : ℕ) (contended : Bool)
  | exitGroup (active : ℕ) (contended : Bool)
  | resumeExit (active : ℕ)
  | wait (active : ℕ)
  | waitpid (active : ℕ) (pid : ℤ)
  deriving DecidableEq, Repr

def Op.active : Op → ℕ
  | .kthread a _ | .startUserland a _ _ | .fork a _ _ | .clone a _ _ _ | .exit a _
  | .exitGroup a _ | .resumeExit a | .wait a | .waitpid a _ => a

def Op.exitPoint : Op → Exit
  | .resumeExit _ => .releasing
  | _ => .none

def Op.apply (s : Table) : Op → Option Table
  | .kthread a heap => some (taskKthread s (some a) heap)
  | .startUserland a heap loaded => some (taskStartUserland s a heap loaded)
  | .fork a heap mapped => taskFork s a heap mapped
  | .clone a vm heap mapped => taskClone s a vm heap mapped
  | .exit a contended => schedulerExit s a contended
  | .exitGroup a contended => schedulerExitGroup s a contended
  | .resumeExit a => resumeZombify s a
  | .wait a => sysWait s a
  | .waitpid a pid => sysWaitpid s a pid

def step (s : Table) (op : Op) : Option Table :=
  if op.active ∈ s.head ∧ (s.obj op.active).exit = op.exitPoint then op.apply s else none

abbrev idle : ℕ := 0

/-- `task_init`: an empty table in which `init_idle` creates the idle task
while no task is active. -/
def taskInit : Table :=
  taskKthread
    { nextPid := 0, activeTask := 0, head := [], fresh := idle
      obj := fun _ =>
        { pid := 0, tgid := 0, user := false, parent := none, life := .terminated
          exit := .none, zombies := [] } }
    none true

end RvMiniOs.Tasks
