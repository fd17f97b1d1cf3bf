import RvMiniOs.Tasks.Pids

/-!
# The number that names a child

`sys_fork` and `sys_clone` hand the `uint8_t` pid of the new task to user space
as an `int8_t`, and `sys_waitpid` compares that number with the pids of the
zombies as ints. A child is found by it exactly if its pid is from 1 to 127 and
no zombie in front of it has the same pid.
-/
namespace RvMiniOs.Tasks

open Lib List Option

/-- `task_clone` with the task it returns. `setup` is the outcome of what stands
between `alloc_squeletton` and `activate_task`. -/
def taskCloneChild (s : Table) (parent : ℕ) (vm heap : Bool) (setup : Except ℤ Unit) :
    Option (Except ℤ ℕ × Table) :=
  if !(s.obj parent).user then none
  else
    match allocSqueletton s true (some parent) heap with
    | .error e => some (.error e, s)
    | .ok (child, s) =>
      let child := if vm then { child with tgid := (s.obj parent).tgid } else child
      match setup with
      | .error e => some (.error e, s)
      | .ok () => some (.ok s.fresh, activateTask s child)

/-- The result is converted to `int8_t`. -/
def sysClone (s : Table) (active : ℕ) (vm heap : Bool) (setup : Except ℤ Unit) :
    Option (ℤ × Table) :=
  (taskCloneChild s active vm heap setup).map fun (child, s) =>
    (match child with
      | .error e => e.bmod 256
      | .ok c => ((s.obj c).pid : ℤ).bmod 256, s)

def sysFork (s : Table) (active : ℕ) (heap : Bool) (setup : Except ℤ Unit) : Option (ℤ × Table) :=
  sysClone s active false heap setup

/-- `sys_waitpid` with the number it returns, which is its argument. -/
def waitpidResult (s : Table) (active : ℕ) (pid : ℤ) : Option (ℤ × Table) :=
  (sysWaitpid s active pid).map (pid, ·)

def Reaped (s s' : Table) (c : ℕ) : Prop :=
  c ∈ s.head ∧ (s'.obj c).life = .terminated ∧ s'.head = s.head.filter (· ≠ c)

/-- `v` is a pid by which the task `a` reaps `c`. -/
def NamesChild (s : Table) (a c : ℕ) (v : ℤ) : Prop :=
  0 < v ∧ ∃ s', waitpidResult s a v = some (v, s') ∧ Reaped s s' c

/-- The zombies of `a` that `clist_find` looks at before `c`. -/
def zombiesBefore (s : Table) (a c : ℕ) : List ℕ := (s.obj a).zombies.takeWhile (· ≠ c)

theorem taskCloneChild_table (s : Table) (a : ℕ) (vm heap : Bool) (setup : Except ℤ Unit) :
    (taskCloneChild s a vm heap setup).map (·.2) = taskClone s a vm heap setup.isOk := by
  unfold taskCloneChild taskClone
  split
  · rfl
  · cases allocSqueletton s true (some a) heap with
    | error e => rfl
    | ok r => cases setup <;> rfl

namespace WaitPid

structure Sound (s : Table) : Prop where
  nextPid_lt : s.nextPid < 256
  listed : ∀ p, ∀ z ∈ (s.obj p).zombies, z ∈ s.head

namespace Sound

variable {s s' : Table} {t : ℕ}

theorem setObj (h : Sound s) {f : Task → Task} (hf : ∀ z ∈ (f (s.obj t)).zombies, z ∈ s.head) :
    Sound (s.setObj t f) := by
  refine ⟨h.nextPid_lt, fun p z hz => ?_⟩
  by_cases hp : p = t
  · subst hp
    exact hf z (by simpa [Table.setObj] using hz)
  · exact h.listed p z (by simpa [Table.setObj, hp] using hz)

theorem destroy (h : Sound s) (t : ℕ) : Sound (taskDestroy s t) := by
  refine ⟨h.nextPid_lt, fun p z hz => ?_⟩
  obtain ⟨hmem, hne⟩ := mem_filter.mp hz
  exact mem_filter.mpr ⟨h.listed p z hmem, hne⟩

theorem reap (h : Sound s) {zs : List ℕ} (hzs : ∀ z ∈ zs, z ∈ s.head) (a t : ℕ) :
    Sound (taskReap (s.setObj a fun p => { p with zombies := zs }) t) := by
  have hset : Sound (s.setObj a fun p => { p with zombies := zs }) := h.setObj hzs
  unfold taskReap
  split
  · exact hset
  · exact hset.destroy t

theorem pushZombie (h : Sound s) (ht : t ∈ s.head) (p : ℕ) : Sound (pushZombie s p t) := by
  refine h.setObj fun z hz => ?_
  rcases mem_append.mp hz with hz | hz
  · exact h.listed p z hz
  · rwa [mem_singleton.mp hz]

theorem zombify (h : Sound s) (ht : t ∈ s.head) {contended : Bool}
    (hz : taskZombify s t contended = some s') : Sound s' := by
  unfold taskZombify at hz
  split at hz
  · cases hz
  · split at hz <;> cases hz
    · exact h.setObj (h.listed t)
    · have hset : Sound (s.setObj t fun p => { p with life := .zombie, exit := .done }) :=
        h.setObj (h.listed t)
      exact hset.pushZombie ht _

theorem resumeZombify (h : Sound s) (ht : t ∈ s.head) (hz : resumeZombify s t = some s') : Sound s' := by
  unfold Tasks.resumeZombify at hz
  split at hz <;> cases hz
  have hset : Sound (s.setObj t fun p => { p with exit := .done }) := h.setObj (h.listed t)
  exact hset.pushZombie ht _

theorem exitTgid (a g : ℕ) (l : List ℕ) (h : Sound s) : Sound (l.foldl (exitTgidCb a g) s) := by
  induction l generalizing s with
  | nil => exact h
  | cons p l ih =>
    refine ih ?_
    unfold exitTgidCb
    split
    · exact h.destroy p
    · exact h

theorem activate (h : Sound s) {user heap : Bool} {parent : Option ℕ} {p q : Task}
    (ha : allocSqueletton s user parent heap = .ok (p, s')) (hq : q.zombies = p.zombies) :
    Sound s' ∧ Sound (activateTask s' q) := by
  have hzs : p.zombies = [] := by
    unfold allocSqueletton at ha
    split_ifs at ha
    cases ha
    rfl
  obtain ⟨-, -, -, -, rfl⟩ := alloc_ok ha
  refine ⟨⟨Nat.mod_lt _ (by decide), h.listed⟩, Nat.mod_lt _ (by decide), fun t z hz => ?_⟩
  refine mem_append_left _ ?_
  by_cases ht : t = s.fresh
  · simp [activateTask, ht, hq, hzs] at hz
  · exact h.listed t z (by simpa [activateTask, ht] using hz)

theorem clone (h : Sound s) {vm heap mapped : Bool} {a : ℕ}
    (hc : taskClone s a vm heap mapped = some s') : Sound s' := by
  unfold taskClone at hc
  split at hc
  · cases hc
  · split at hc <;> cases hc
    case h_1 => exact h
    case h_2 p s₁ ha =>
      split
      · exact (h.activate ha (by split <;> rfl)).2
      · exact (h.activate ha rfl).1

theorem step {op : Op} (h : Sound s) (hstep : step s op = some s') : Sound s' := by
  unfold Tasks.step at hstep
  split_ifs at hstep with hact
  have hmem : op.active ∈ s.head := hact.1
  cases op with
  | kthread a heap =>
    simp only [Op.apply, taskKthread, some.injEq] at hstep
    subst hstep
    split
    · exact h
    · exact (h.activate ‹_› rfl).2
  | startUserland a heap loaded =>
    simp only [Op.apply, taskStartUserland, some.injEq] at hstep
    subst hstep
    split
    · exact h
    · split
      · exact (h.activate ‹_› rfl).2
      · exact (h.activate ‹_› rfl).1
  | fork a heap mapped => exact h.clone hstep
  | clone a vm heap mapped => exact h.clone hstep
  | exit a contended => exact h.zombify hmem hstep
  | exitGroup a contended =>
    refine (h.exitTgid a _ s.head).zombify ?_ hstep
    -- The walk destroys others only.
    rw [(Shrinks.exitTgid a (s.obj a).tgid s s.head).head_eq]
    simp only [mem_filter, decide_eq_true_eq, not_and, not_not]
    exact ⟨hmem, by simp⟩
  | resumeExit a => exact h.resumeZombify hmem hstep
  | wait a =>
    simp only [Op.apply, sysWait] at hstep
    split at hstep <;> cases hstep
    case h_2 z zs hz =>
      exact h.reap (fun z' hz' => h.listed a z' (by rw [hz]; exact mem_cons_of_mem _ hz')) a z
  | waitpid a pid =>
    simp only [Op.apply, sysWaitpid] at hstep
    split at hstep <;> cases hstep
    exact h.reap (fun z' hz' => h.listed a z' (mem_filter.mp hz').1) a _

theorem run (h : Reaches Tasks.step anyAction taskInit s) : Sound s := by
  refine h.invariant ⟨by decide, fun p z hz => ?_⟩ fun _ _ _ h _ hstep => h.step hstep
  by_cases hp : p = idle
  · subst hp
    simp [taskInit, taskKthread, allocSqueletton, activateTask] at hz
  · simp [taskInit, taskKthread, allocSqueletton, activateTask, hp] at hz

end Sound

theorem pid_run {s s' : Table} (h : Reaches Tasks.step anyAction s s') {t : ℕ} (ht : t < s.fresh) :
    (s'.obj t).pid = (s.obj t).pid := by
  have hboth : t < s'.fresh ∧ (s'.obj t).pid = (s.obj t).pid := by
    refine h.invariant (P := fun u => t < u.fresh ∧ (u.obj t).pid = (s.obj t).pid) ⟨ht, rfl⟩
      fun u op u' ⟨hlt, hpid⟩ _ hstep => ?_
    rcases (step_cases hstep).2 with hs | ⟨hs, -, -⟩
    · exact ⟨hs.fresh_eq ▸ hlt, (hs.pid_eq t).trans hpid⟩
    · rw [hs.fresh_eq, hs.obj_old t hlt.ne]
      exact ⟨by omega, hpid⟩
  exact hboth.2

variable {s s' : Table} {a c : ℕ}

theorem bmod_pos_iff {n : ℕ} (hn : n < 256) : 0 < (n : ℤ).bmod 256 ↔ 0 < n ∧ n < 128 := by
  rw [Int.bmod_def]
  split <;> omega

theorem bmod_eq {n : ℕ} (hn : n < 128) : (n : ℤ).bmod 256 = n := by
  rw [Int.bmod_def]
  split <;> omega

theorem find?_eq_some_iff_before {p : ℕ → Bool} (hp : p c = true) {l : List ℕ} (hc : c ∈ l) :
    l.find? p = some c ↔ ∀ z ∈ l.takeWhile (· ≠ c), p z = false := by
  induction l with
  | nil => cases hc
  | cons x l ih =>
    by_cases hx : x = c
    · simp [hx, hp]
    · have hmem : c ∈ l := (mem_cons.mp hc).resolve_left fun h => hx h.symm
      cases hpx : p x with
      | true => simp [hx, hpx]
      | false => simpa [hx, hpx] using ih hmem

theorem findPid_eq_iff (hc : c ∈ (s.obj a).zombies) : findPid s a (s.obj c).pid = some c ↔
    ∀ z ∈ zombiesBefore s a c, (s.obj z).pid ≠ (s.obj c).pid := by
  unfold findPid
  rw [find?_eq_some_iff_before (by simp) hc]
  simp only [Nat.cast_inj, decide_eq_false_iff_not, ne_comm (a := (s.obj c).pid), zombiesBefore]

theorem waitpid_found {v : ℤ} {z : ℕ} (hz : findPid s a v = some z)
    (h : waitpidResult s a v = some (v, s')) : s'.head = (if (s.obj z).life = .zombie then
    s.head.filter (· ≠ z) else s.head) ∧ ((s.obj z).life = .zombie → (s'.obj z).life = .terminated) := by
  have hlife : ((s.setObj a fun p => { p with zombies := p.zombies.filter (· ≠ z) }).obj z).life =
      (s.obj z).life := by
    by_cases hza : z = a <;> simp [Table.setObj, hza]
  simp only [waitpidResult, sysWaitpid, hz, map_some, some.injEq, Prod.mk.injEq, true_and] at h
  subst h
  unfold taskReap
  rw [hlife]
  by_cases hzom : (s.obj z).life = .zombie
  · simp [hzom, taskDestroy, Table.setObj]
  · simp [hzom, Table.setObj]

theorem namesChild_iff (hsound : Sound s) (hc : c ∈ (s.obj a).zombies) {v : ℤ} :
    NamesChild s a c v ↔ 0 < v ∧ findPid s a v = some c ∧ (s.obj c).life = .zombie := by
  constructor
  · rintro ⟨hpos, s', hwait, hmem, hterm, hhead⟩
    have hout : c ∉ s'.head := by simp [hhead]
    cases hz : findPid s a v with
    | none => simp [waitpidResult, sysWaitpid, hz] at hwait
    | some z =>
      obtain ⟨hhead', -⟩ := waitpid_found hz hwait
      by_cases hzom : (s.obj z).life = .zombie
      · rw [if_pos hzom] at hhead'
        have hzc : c = z := by
          by_contra hne
          exact hout (hhead' ▸ mem_filter.mpr ⟨hmem, by simpa using hne⟩)
        subst hzc
        exact ⟨hpos, rfl, hzom⟩
      · rw [if_neg hzom] at hhead'
        exact absurd (hhead' ▸ hmem) hout
  · rintro ⟨hpos, hfind, hzom⟩
    obtain ⟨s', hs'⟩ : ∃ s', waitpidResult s a v = some (v, s') := by
      simp [waitpidResult, sysWaitpid, hfind]
    obtain ⟨hhead, hterm⟩ := waitpid_found hfind hs'
    rw [if_pos hzom] at hhead
    exact ⟨hpos, s', hs', hsound.listed a c hc, hterm hzom, hhead⟩

theorem spawns_of_cloneChild {vm heap : Bool} {setup : Except ℤ Unit}
    (h : taskCloneChild s a vm heap setup = some (.ok c, s')) :
    Spawns s s' a vm ∧ c = s.fresh ∧ setup.isOk = true := by
  unfold taskCloneChild at h
  split at h
  · cases h
  · split at h
    · cases h
    · rename_i p s₁ halloc
      cases setup with
      | error e => cases h
      | ok =>
        obtain ⟨-, -, -, -, hs₁⟩ := alloc_ok halloc
        have hspawns := Spawns.activate vm halloc
        simp only [some.injEq, Prod.mk.injEq, Except.ok.injEq] at h
        obtain ⟨rfl, rfl⟩ := h
        have hobj : s₁.obj = s.obj := by rw [hs₁]
        rw [hobj]
        exact ⟨hspawns, by rw [hs₁], rfl⟩

theorem reaches_cloneChild {vm heap : Bool} {setup : Except ℤ Unit} (ha : a ∈ s.head)
    (hexit : (s.obj a).exit = .none) (h : taskCloneChild s a vm heap setup = some (.ok c, s')) :
    Reaches Tasks.step anyAction s s' := by
  have htable := taskCloneChild_table s a vm heap setup
  rw [h, (spawns_of_cloneChild h).2.2] at htable
  refine (Reaches.refl s).tail (.clone a vm heap true) trivial ?_
  rw [Tasks.step, if_pos ⟨ha, hexit⟩]
  exact htable.symm

end WaitPid

open WaitPid in
/-- In every run, the number that `sys_clone` returns for a child is positive and
later reaps the child exactly if the pid is from 1 to 127, no zombie that the
search sees first has the same pid, and the child is a zombie and not a task whose
`task_zombify` was interrupted. -/
theorem clone_result_names_child_iff {s s' u : Table} {a c : ℕ} {vm heap : Bool}
    {setup : Except ℤ Unit} {v : ℤ} (hs : Reaches step anyAction taskInit s) (ha : a ∈ s.head)
    (hexit : (s.obj a).exit = .none) (hchild : taskCloneChild s a vm heap setup = some (.ok c, s'))
    (hv : sysClone s a vm heap setup = some (v, s')) (hu : Reaches step anyAction s' u)
    (hc : c ∈ (u.obj a).zombies) :
    NamesChild u a c v ↔
      0 < s.nextPid ∧ s.nextPid < 128 ∧ (∀ z ∈ zombiesBefore u a c, (u.obj z).pid ≠ s.nextPid) ∧
        (u.obj c).life = .zombie := by
  obtain ⟨hspawns, rfl, -⟩ := spawns_of_cloneChild hchild
  have hreach : Reaches step anyAction taskInit u :=
    (hs.trans (reaches_cloneChild ha hexit hchild)).trans hu
  have hpid : (u.obj s.fresh).pid = s.nextPid :=
    (pid_run hu (by rw [hspawns.fresh_eq]; omega)).trans hspawns.pid_new
  have hret : v = (s.nextPid : ℤ).bmod 256 := by
    simp only [sysClone, hchild, map_some, some.injEq, Prod.mk.injEq, and_true] at hv
    rw [← hv, hspawns.pid_new]
  rw [namesChild_iff (Sound.run hreach) hc, hret, bmod_pos_iff (Sound.run hs).nextPid_lt, and_assoc]
  refine and_congr_right fun _ => and_congr_right fun hlt => ?_
  rw [bmod_eq hlt, ← hpid, findPid_eq_iff hc]

/-- The first process forks, the child exits, and the number reaps it. -/
theorem clone_result_names_first_child : ∃ s s' u, Reaches step anyAction taskInit s ∧
    sysClone s 1 false true (.ok ()) = some (2, s') ∧ Reaches step anyAction s' u ∧
    2 ∈ (u.obj 1).zombies ∧ NamesChild u 1 2 2 := by
  obtain ⟨s, hs, ⟨ha, hexit, hpid⟩, hfork⟩ : ∃ s, Reaches step anyAction taskInit s ∧
      (1 ∈ s.head ∧ (s.obj 1).exit = .none ∧ s.nextPid = 2) ∧
      (taskCloneChild s 1 false true (.ok ())).any (fun r =>
        decide (r.1.toOption = some 2 ∧ (r.2.obj 2).pid = 2) && (run step r.2 [.exit 2 false]).any fun u =>
          decide ((u.obj 1).zombies = [2] ∧ (u.obj 2).life = .zombie)) = true :=
    Reaches.of_run_any [.startUserland idle true true] (by decide +kernel)
  obtain ⟨⟨child, s'⟩, hchild, hr⟩ := (any_eq_true _ _).mp hfork
  rw [Bool.and_eq_true, decide_eq_true_eq] at hr
  obtain ⟨⟨hok, hpid'⟩, hrun⟩ := hr
  obtain rfl : child = .ok 2 := by
    cases child with
    | error e => cases hok
    | ok c => rw [some.inj hok]
  obtain ⟨u, hu, hzs, hlife⟩ := Reaches.of_run_any _ hrun
  have hv : sysClone s 1 false true (.ok ()) = some (2, s') := by
    have hret : ((s'.obj 2).pid : ℤ).bmod 256 = 2 := by rw [hpid']; decide
    rw [sysClone, hchild, map_some]
    dsimp only
    rw [hret]
  have hmem : 2 ∈ (u.obj 1).zombies := by simp [hzs]
  refine ⟨s, s', u, hs, hv, hu, hmem, ?_⟩
  refine (clone_result_names_child_iff hs ha hexit hchild hv hu hmem).mpr ?_
  simp [hpid, zombiesBefore, hzs, hlife]

open Pids (children) in
/-- The 127th child of a process gets pid 128: `sys_fork` returns a negative
number for it, by which the process never finds it. -/
theorem fork_result_negative : ∃ s s' u, Reaches step anyAction taskInit s ∧
    sysFork s 1 true (.ok ()) = some (-128, s') ∧ Reaches step anyAction s' u ∧
    128 ∈ (u.obj 1).zombies ∧ (u.obj 128).pid = 128 ∧ findPid u 1 (-128) = none ∧
    ¬ NamesChild u 1 128 (-128) := by
  obtain ⟨s, hs, hfork⟩ : ∃ s, Reaches step anyAction taskInit s ∧
      (sysFork s 1 true (.ok ())).any (fun r => decide (r.1 = -128) &&
        (run step r.2 [.exit 128 false]).any fun u =>
          decide (128 ∈ (u.obj 1).zombies ∧ (u.obj 128).pid = 128 ∧ findPid u 1 (-128) = none)) =
        true :=
    Reaches.of_run_any (.startUserland idle true true :: children 2 126) (by decide +kernel)
  obtain ⟨⟨v, s'⟩, hv, hr⟩ := (any_eq_true _ _).mp hfork
  rw [Bool.and_eq_true, decide_eq_true_eq] at hr
  obtain ⟨rfl, hrun⟩ := hr
  obtain ⟨u, hu, hmem, hpid, hfind⟩ := Reaches.of_run_any _ hrun
  exact ⟨s, s', u, hs, hv, hu, hmem, hpid, hfind, fun h => absurd h.1 (by decide)⟩

end RvMiniOs.Tasks
