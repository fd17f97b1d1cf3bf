import RvMiniOs.Err
import RvMiniOs.Lib.Counting
import RvMiniOs.Lib.Runs
import RvMiniOs.Lib.Sizes
import Mathlib.Data.List.FinRange
import Mathlib.Tactic

/-!
# Open files and descriptors

The file table of `kernel/core/fs/file.c` and the descriptor tables of
`kernel/core/task/task.c`, as far as references are concerned. A step is one
call, or the part of it between two points where the caller may block: an open
may block on the inode's mutex after it has chosen its slot, an exit in the
`inode_put` of each file that it puts. Inodes, offsets and modes are left out.
-/
namespace RvMiniOs.Tasks.Descriptors

open Lib Function List Option

abbrev fileMaxNum : ℕ := 100
abbrev nofile : ℕ := 16

abbrev FdTable := Fin nofile → Option ℕ

def fileAlloc (refcnt : ℕ → ℕ) : Option ℕ :=
  (List.range fileMaxNum).find? fun k => refcnt k = 0

def fileGet (refcnt : ℕ → ℕ) (f : ℕ) : ℕ → ℕ :=
  Function.update refcnt f (refcnt f + 1)

def filePut (refcnt : ℕ → ℕ) (f : ℕ) : ℕ → ℕ :=
  Function.update refcnt f (if refcnt f = 0 then 2 ^ 32 - 1 else refcnt f - 1)

def fileClone (refcnt : ℕ → ℕ) : Option (ℕ × (ℕ → ℕ)) :=
  (fileAlloc refcnt).map fun k => (k, Function.update refcnt k 1)

def taskGiveFd (fdtable : FdTable) : Option (Fin nofile) :=
  (List.finRange nofile).find? fun fd => fdtable fd = none

theorem toNat_lt_nofile {fd : ℤ} (h : ¬ (fd ≥ nofile ∨ fd < 0)) : fd.toNat < nofile := by
  omega

def taskGetFd (fdtable : FdTable) (fd : ℤ) : Option ℕ :=
  if h : fd ≥ nofile ∨ fd < 0 then none else fdtable ⟨fd.toNat, by omega⟩

def copyFd (clone : Bool) (parent : FdTable) (acc : (ℕ → ℕ) × FdTable) (i : Fin nofile) :
    (ℕ → ℕ) × FdTable :=
  match parent i with
  | none => acc
  | some f =>
    if clone then
      match fileClone acc.1 with
      | none => acc
      | some (k, refcnt) => (refcnt, Function.update acc.2 i (some k))
    else (fileGet acc.1 f, Function.update acc.2 i (some f))

def copyFds (clone : Bool) (refcnt : ℕ → ℕ) (parent : FdTable) : (ℕ → ℕ) × FdTable :=
  (List.finRange nofile).foldl (copyFd clone parent) (refcnt, fun _ => none)

def openFiles (fdtable : FdTable) : List ℕ :=
  (List.finRange nofile).filterMap fdtable

inductive Phase where
  | user
  | opening (k : ℕ) (exec : Bool)
  | execing (k : ℕ)
  | releasing (fs : List ℕ)
  | zombie
  deriving DecidableEq, Repr

structure Sys where
  tasks : Finset ℕ
  fresh : ℕ
  tgid : ℕ → ℕ
  phase : ℕ → Phase
  fdtable : ℕ → FdTable
  refcnt : ℕ → ℕ

def Sys.setPhase (s : Sys) (a : ℕ) (p : Phase) : Sys :=
  { s with phase := Function.update s.phase a p }

def Sys.setFd (s : Sys) (a : ℕ) (fd : Fin nofile) (f : Option ℕ) : Sys :=
  { s with fdtable := Function.update s.fdtable a (Function.update (s.fdtable a) fd f) }

def fileOpenAlloc (s : Sys) (a : ℕ) (exec : Bool) : ℤ × Sys :=
  match fileAlloc s.refcnt with
  | none => (-enfile, s)
  | some k => (0, s.setPhase a (.opening k exec))

def sysOpenLocked (s : Sys) (a k : ℕ) : ℤ × Sys :=
  let s := { s with refcnt := Function.update s.refcnt k 1 }.setPhase a .user
  match taskGiveFd (s.fdtable a) with
  | none => (-emfile, { s with refcnt := filePut s.refcnt k })
  | some fd => (fd, s.setFd a fd (some k))

def sysClose (s : Sys) (a : ℕ) (fd : ℤ) (word : ℕ) : Option (ℤ × Sys) :=
  if h : fd ≥ nofile ∨ fd < 0 then
    if word = 0 then some (-ebadf, s) else none
  else
    match s.fdtable a ⟨fd.toNat, by omega⟩ with
    | none => some (-ebadf, s)
    | some f =>
      let s := s.setFd a ⟨fd.toNat, by omega⟩ none
      some (0, { s with refcnt := filePut s.refcnt f })

def sysAccess (s : Sys) (a : ℕ) (fd res : ℤ) : ℤ × Sys :=
  match taskGetFd (s.fdtable a) fd with
  | none => (-ebadf, s)
  | some _ => (res, s)

def taskClone (s : Sys) (a : ℕ) (files : Bool) (g : ℕ) : Sys :=
  let copy := copyFds files s.refcnt (s.fdtable a)
  { tasks := insert s.fresh s.tasks
    fresh := s.fresh + 1
    tgid := Function.update s.tgid s.fresh g
    phase := Function.update s.phase s.fresh .user
    fdtable := Function.update s.fdtable s.fresh copy.2
    refcnt := copy.1 }

def beginExit (s : Sys) (a : ℕ) : Sys :=
  s.setPhase a (.releasing (openFiles (s.fdtable a)))

def schedulerExitGroup (s : Sys) (a : ℕ) : Sys :=
  beginExit { s with tasks := s.tasks.filter fun t => t = a ∨ s.tgid t ≠ s.tgid a } a

inductive Op where
  | beginOpen (a : ℕ) (exec : Bool)
  | endOpen (a : ℕ) (locked : Bool)
  | endExec (a : ℕ)
  | close (a : ℕ) (fd : ℤ) (word : ℕ)
  | access (a : ℕ) (fd res : ℤ)
  | clone (a : ℕ) (files : Bool) (g : ℕ)
  | exit (a : ℕ)
  | exitGroup (a : ℕ)
  | release (a : ℕ)
  | reap (a z : ℕ)
  deriving DecidableEq, Repr

def Op.active : Op → ℕ
  | .beginOpen a _ | .endOpen a _ | .endExec a | .close a _ _ | .access a _ _ | .clone a _ _
  | .exit a | .exitGroup a | .release a | .reap a _ => a

def Op.apply (s : Sys) : Op → Option Sys
  | .beginOpen a exec => if s.phase a = .user then some (fileOpenAlloc s a exec).2 else none
  | .endOpen a locked =>
    match s.phase a with
    | .opening k exec =>
      if !locked then some (s.setPhase a .user)
      else if exec then
        some ({ s with refcnt := Function.update s.refcnt k 1 }.setPhase a (.execing k))
      else some (sysOpenLocked s a k).2
    | _ => none
  | .endExec a =>
    match s.phase a with
    | .execing k => some ({ s with refcnt := filePut s.refcnt k }.setPhase a .user)
    | _ => none
  | .close a fd word => if s.phase a = .user then (sysClose s a fd word).map Prod.snd else none
  | .access a fd res => if s.phase a = .user then some (sysAccess s a fd res).2 else none
  | .clone a files g => if s.phase a = .user then some (taskClone s a files g) else none
  | .exit a => if s.phase a = .user then some (beginExit s a) else none
  | .exitGroup a => if s.phase a = .user then some (schedulerExitGroup s a) else none
  | .release a =>
    match s.phase a with
    | .releasing (f :: fs) =>
      some ({ s with refcnt := filePut s.refcnt f }.setPhase a (.releasing fs))
    | .releasing [] => some (s.setPhase a .zombie)
    | _ => none
  | .reap a z =>
    if s.phase a = .user ∧ z ∈ s.tasks ∧ s.phase z = .zombie then
      some { s with tasks := s.tasks.erase z }
    else none

def step (s : Sys) (op : Op) : Option Sys :=
  if op.active ∈ s.tasks then op.apply s else none

def initial : Sys where
  tasks := {0}
  fresh := 1
  tgid := fun _ => 0
  phase := fun _ => .user
  fdtable := fun _ _ => none
  refcnt := fun _ => 0

def held (p : Phase) (fdtable : FdTable) : List ℕ :=
  match p with
  | .user | .opening _ _ => openFiles fdtable
  | .execing k => k :: openFiles fdtable
  | .releasing fs => fs
  | .zombie => []

def refs (s : Sys) (k t : ℕ) : ℕ := (held (s.phase t) (s.fdtable t)).count k

def Phase.Live : Phase → Prop
  | .user | .opening _ _ | .execing _ => True
  | .releasing _ | .zombie => False

def Phase.isOpening : Phase → Bool
  | .opening _ _ => true
  | _ => false

def Op.allocates : Op → Bool
  | .beginOpen _ _ | .clone _ true _ => true
  | _ => false

def Careful (s : Sys) (op : Op) : Prop :=
  (op.allocates = true → ∀ t ∈ s.tasks, (s.phase t).isOpening = false) ∧
  match op with
  | .close _ fd _ => 0 ≤ fd ∧ fd < nofile
  | .exitGroup a =>
    ∀ t ∈ s.tasks, t ≠ a → s.tgid t = s.tgid a → held (s.phase t) (s.fdtable t) = []
  | _ => True

instance (s : Sys) (op : Op) : Decidable (Careful s op) :=
  have : Decidable (op.allocates = true → ∀ t ∈ s.tasks, (s.phase t).isOpening = false) :=
    inferInstance
  match op with
  | .close _ fd _ => inferInstanceAs (Decidable (_ ∧ 0 ≤ fd ∧ fd < nofile))
  | .exitGroup a =>
    inferInstanceAs (Decidable (_ ∧ ∀ t ∈ s.tasks, t ≠ a → s.tgid t = s.tgid a → _))
  | .beginOpen _ _ | .endOpen _ _ | .endExec _ | .access _ _ _ | .clone _ _ _ | .exit _
  | .release _ | .reap _ _ => inferInstanceAs (Decidable (_ ∧ True))

variable {refcnt : ℕ → ℕ} {fds : FdTable}

theorem fileAlloc_zero {k : ℕ} (h : fileAlloc refcnt = some k) : refcnt k = 0 := by
  simpa using find?_some h

theorem filePut_add {f : ℕ} (h : 0 < refcnt f) (k : ℕ) : filePut refcnt f k + [f].count k = refcnt k := by
  unfold filePut
  rcases eq_or_ne k f with rfl | hk
  · rw [update_self, if_neg h.ne', count_singleton_self]
    omega
  · rw [update_of_ne hk, count_singleton]
    simp [hk.symm]

theorem take_slot {f : ℕ} (h : refcnt f = 0) (k : ℕ) : update refcnt f 1 k = refcnt k + [f].count k := by
  rcases eq_or_ne k f with rfl | hk
  · simp [h]
  · simp [update_of_ne hk, hk.symm]

theorem fileGet_eq (f k : ℕ) : fileGet refcnt f k = refcnt k + [f].count k := by
  unfold fileGet
  rcases eq_or_ne k f with rfl | hk
  · simp
  · simp [update_of_ne hk, hk.symm]

theorem count_openFiles_update (fds : FdTable) (fd : Fin nofile) (o : Option ℕ) (k : ℕ) :
    (openFiles (update fds fd o)).count k + (fds fd).toList.count k =
      (openFiles fds).count k + o.toList.count k :=
  count_filterMap_update (nodup_finRange nofile) (mem_finRange fd) fds o k

theorem mem_openFiles {k : ℕ} : k ∈ openFiles fds ↔ ∃ fd, fds fd = some k := by
  simp [openFiles]

section Copy

variable (clone : Bool) (parent : FdTable)

theorem copyFd_balance {acc : (ℕ → ℕ) × FdTable} {i : Fin nofile} (hi : acc.2 i = none) (k : ℕ) :
    (copyFd clone parent acc i).1 k + (openFiles acc.2).count k =
      acc.1 k + (openFiles (copyFd clone parent acc i).2).count k := by
  unfold copyFd
  cases hp : parent i with
  | none => rfl
  | some f =>
    cases clone with
    | true =>
      simp only [if_true, fileClone]
      cases hk : fileAlloc acc.1 with
      | none => rfl
      | some j =>
        have hcount := count_openFiles_update acc.2 i (some j) k
        simp only [hi, toList_none, count_nil, toList_some] at hcount
        simp only [map_some, take_slot (fileAlloc_zero hk)]
        omega
    | false =>
      have hcount := count_openFiles_update acc.2 i (some f) k
      simp only [hi, toList_none, count_nil, toList_some] at hcount
      simp only [Bool.false_eq_true, if_false, fileGet_eq]
      omega

theorem copyFd_other {acc : (ℕ → ℕ) × FdTable} {i j : Fin nofile} (hj : j ≠ i) :
    (copyFd clone parent acc i).2 j = acc.2 j := by
  unfold copyFd
  cases parent i with
  | none => rfl
  | some f =>
    cases clone with
    | true =>
      simp only [if_true]
      cases fileClone acc.1 with
      | none => rfl
      | some r => exact update_of_ne hj _ _
    | false => exact update_of_ne hj _ _

theorem foldl_copyFd_balance {l : List (Fin nofile)} (hl : l.Nodup) (acc : (ℕ → ℕ) × FdTable)
    (hacc : ∀ i ∈ l, acc.2 i = none) (k : ℕ) :
    (l.foldl (copyFd clone parent) acc).1 k + (openFiles acc.2).count k =
      acc.1 k + (openFiles (l.foldl (copyFd clone parent) acc).2).count k := by
  induction l generalizing acc with
  | nil => rfl
  | cons i l ih =>
    obtain ⟨hi, hl⟩ := nodup_cons.mp hl
    have hrest : ∀ j ∈ l, (copyFd clone parent acc i).2 j = none := by
      intro j hj
      have hne : j ≠ i := by
        rintro rfl
        exact hi hj
      rw [copyFd_other clone parent hne]
      exact hacc j (mem_cons_of_mem _ hj)
    have hstep := copyFd_balance clone parent (hacc i mem_cons_self) k
    have hfold := ih hl _ hrest
    rw [foldl_cons]
    omega

theorem copyFds_balance (k : ℕ) : (copyFds clone refcnt parent).1 k =
    refcnt k + (openFiles (copyFds clone refcnt parent).2).count k := by
  have h := foldl_copyFd_balance clone parent (nodup_finRange nofile)
    (refcnt, fun _ => none) (fun _ _ => rfl) k
  have hempty : openFiles (fun _ => none) = [] := by simp [openFiles]
  simpa [copyFds, hempty] using h

theorem copyFds_shared {parent : FdTable} {fd : Fin nofile} {k : ℕ}
    (h : (copyFds false refcnt parent).2 fd = some k) : ∃ i, parent i = some k := by
  have hfold : ∀ (l : List (Fin nofile)) (acc : (ℕ → ℕ) × FdTable),
      (∀ fd k, acc.2 fd = some k → ∃ i, parent i = some k) →
      ∀ fd k, (l.foldl (copyFd false parent) acc).2 fd = some k → ∃ i, parent i = some k := by
    intro l
    induction l with
    | nil => exact fun acc hacc => hacc
    | cons i l ih =>
      refine fun acc hacc => ih _ fun fd k hfd => ?_
      rcases eq_or_ne fd i with rfl | hne
      · cases hp : parent fd with
        | none => exact hacc fd k (by simpa [copyFd, hp] using hfd)
        | some f =>
          have : f = k := by simpa [copyFd, hp] using hfd
          exact ⟨fd, this ▸ hp⟩
      · rw [copyFd_other false parent hne] at hfd
        exact hacc fd k hfd
  exact hfold _ _ (by simp) fd k h

end Copy

def Exact (s : Sys) : Prop := ∀ k, s.refcnt k = ∑ t ∈ s.tasks, refs s k t

structure Inv (s : Sys) : Prop where
  exact : Exact s
  task_lt : ∀ t ∈ s.tasks, t < s.fresh
  single : ∀ t ∈ s.tasks, ∀ u ∈ s.tasks,
    (s.phase t).isOpening = true → (s.phase u).isOpening = true → t = u
  chosen : ∀ t ∈ s.tasks, ∀ k exec, s.phase t = .opening k exec → s.refcnt k = 0

variable {s s' : Sys} {a : ℕ}

structure ChangesAt (s s' : Sys) (a : ℕ) : Prop where
  tasks_eq : s'.tasks = s.tasks
  fresh_eq : s'.fresh = s.fresh
  phase_eq : ∀ t, t ≠ a → s'.phase t = s.phase t
  fdtable_eq : ∀ t, t ≠ a → s'.fdtable t = s.fdtable t

theorem changesAt_setPhase (s : Sys) (a : ℕ) (p : Phase) (refcnt : ℕ → ℕ) :
    ChangesAt s ({ s with refcnt }.setPhase a p) a :=
  ⟨rfl, rfl, fun _ ht => update_of_ne ht _ _, fun _ _ => rfl⟩

theorem refs_setPhase (s : Sys) (a k : ℕ) (p : Phase) (refcnt : ℕ → ℕ) :
    refs ({ s with refcnt }.setPhase a p) k a = (held p (s.fdtable a)).count k := by
  simp [refs, Sys.setPhase]

theorem refs_of_phase {p : Phase} (h : s.phase a = p) (k : ℕ) :
    refs s k a = (held p (s.fdtable a)).count k := by
  rw [refs, h]

theorem Exact.changesAt (h : Exact s) (ha : a ∈ s.tasks) (hc : ChangesAt s s' a)
    (hbal : ∀ k, s'.refcnt k + refs s k a = s.refcnt k + refs s' k a) : Exact s' := by
  intro k
  have hsum : ∑ t ∈ s.tasks, refs s' k t + refs s k a = ∑ t ∈ s.tasks, refs s k t + refs s' k a :=
    sum_change ha fun t _ ht => by rw [refs, refs, hc.phase_eq t ht, hc.fdtable_eq t ht]
  have hold := h k
  have hk := hbal k
  rw [hc.tasks_eq]
  omega

theorem Exact.pos_of_held (h : Exact s) (ha : a ∈ s.tasks) {k : ℕ}
    (hk : k ∈ held (s.phase a) (s.fdtable a)) : 0 < s.refcnt k := by
  rw [h k]
  have hone : 0 < refs s k a := count_pos_iff.mpr hk
  have hle := Finset.single_le_sum (f := fun t => refs s k t) (fun _ _ => Nat.zero_le _) ha
  exact hone.trans_le hle

namespace Inv

theorem quiet (h : Inv s) (hexact : Exact s') (hlt : ∀ t ∈ s'.tasks, t < s'.fresh)
    (hopen : ∀ t ∈ s'.tasks, (s'.phase t).isOpening = true → t ∈ s.tasks ∧ s'.phase t = s.phase t)
    (hzero : ∀ k, s.refcnt k = 0 → s'.refcnt k = 0) : Inv s' where
  exact := hexact
  task_lt := hlt
  single := by
    intro t ht u hu hto huo
    obtain ⟨htold, hteq⟩ := hopen t ht hto
    obtain ⟨huold, hueq⟩ := hopen u hu huo
    exact h.single t htold u huold (hteq ▸ hto) (hueq ▸ huo)
  chosen := by
    intro t ht k exec hp
    obtain ⟨htold, hteq⟩ := hopen t ht (by rw [hp]; rfl)
    exact hzero k (h.chosen t htold k exec (hteq ▸ hp))

theorem changesAt (h : Inv s) (ha : a ∈ s.tasks) (hc : ChangesAt s s' a)
    (hphase : (s'.phase a).isOpening = false)
    (hbal : ∀ k, s'.refcnt k + refs s k a = s.refcnt k + refs s' k a)
    (hzero : ∀ k, s.refcnt k = 0 → s'.refcnt k = 0) : Inv s' := by
  refine h.quiet (h.exact.changesAt ha hc hbal) ?_ ?_ hzero
  · rw [hc.tasks_eq, hc.fresh_eq]
    exact h.task_lt
  · intro t ht hto
    have hne : t ≠ a := by
      rintro rfl
      simp [hphase] at hto
    exact ⟨hc.tasks_eq ▸ ht, hc.phase_eq t hne⟩

theorem setPhase (h : Inv s) (ha : a ∈ s.tasks) {p q : Phase} {refcnt : ℕ → ℕ}
    (hq : s.phase a = q) (hp : p.isOpening = false)
    (hbal : ∀ k, refcnt k + (held q (s.fdtable a)).count k = s.refcnt k + (held p (s.fdtable a)).count k)
    (hzero : ∀ k, s.refcnt k = 0 → refcnt k = 0) :
    Inv ({ s with refcnt }.setPhase a p) := by
  refine h.changesAt ha (changesAt_setPhase s a p refcnt) (by simp [Sys.setPhase, hp]) ?_ hzero
  intro k
  rw [refs_setPhase, refs_of_phase hq]
  exact hbal k

theorem noneOpening (hexact : Exact s) (hlt : ∀ t ∈ s.tasks, t < s.fresh)
    (hnone : ∀ t ∈ s.tasks, (s.phase t).isOpening = false) : Inv s where
  exact := hexact
  task_lt := hlt
  single := fun t ht _ _ hto => by simp [hnone t ht] at hto
  chosen := fun t ht k exec hp => by
    have := hnone t ht
    rw [hp] at this
    cases this

theorem fileOpenAlloc {exec : Bool} (h : Inv s) (ha : a ∈ s.tasks) (hp : s.phase a = .user)
    (hnone : ∀ t ∈ s.tasks, (s.phase t).isOpening = false) : Inv (fileOpenAlloc s a exec).2 := by
  unfold Descriptors.fileOpenAlloc
  cases hk : fileAlloc s.refcnt with
  | none => exact h
  | some k =>
    have hc := changesAt_setPhase s a (.opening k exec) s.refcnt
    have honly : ∀ t ∈ s.tasks, ((s.setPhase a (.opening k exec)).phase t).isOpening = true →
        t = a := by
      intro t ht hto
      by_contra hne
      have hold : (s.setPhase a (.opening k exec)).phase t = s.phase t := hc.phase_eq t hne
      rw [hold, hnone t ht] at hto
      cases hto
    refine ⟨h.exact.changesAt ha hc fun k => ?_, h.task_lt, ?_, ?_⟩
    · rw [refs_setPhase, refs_of_phase hp]
      rfl
    · intro t ht u hu hto huo
      rw [honly t ht hto, honly u hu huo]
    · intro t ht j e hto
      obtain rfl := honly t ht (by rw [hto]; rfl)
      have hj : Phase.opening k exec = Phase.opening j e := by simpa [Sys.setPhase] using hto
      cases hj
      exact fileAlloc_zero hk

theorem none_after {k : ℕ} {exec : Bool} (h : Inv s) (ha : a ∈ s.tasks) (hp : s.phase a = .opening k exec)
    (hc : ChangesAt s s' a) (hphase : (s'.phase a).isOpening = false) : ∀ t ∈ s'.tasks,
    (s'.phase t).isOpening = false := by
  intro t ht
  rw [hc.tasks_eq] at ht
  rcases eq_or_ne t a with rfl | hne
  · exact hphase
  · rw [hc.phase_eq t hne]
    by_contra hto
    exact hne (h.single t ht a ha (by simpa using hto) (by rw [hp]; rfl))

theorem endOpen {k : ℕ} {exec : Bool} (h : Inv s) (ha : a ∈ s.tasks) (hp : s.phase a = .opening k exec)
    (hc : ChangesAt s s' a) (hphase : (s'.phase a).isOpening = false)
    (hbal : ∀ j, s'.refcnt j + refs s j a = s.refcnt j + refs s' j a) : Inv s' := by
  refine noneOpening (h.exact.changesAt ha hc hbal) ?_ (h.none_after ha hp hc hphase)
  rw [hc.tasks_eq, hc.fresh_eq]
  exact h.task_lt

theorem openFailed {k : ℕ} {exec : Bool} (h : Inv s) (ha : a ∈ s.tasks)
    (hp : s.phase a = .opening k exec) : Inv (s.setPhase a .user) := by
  refine h.endOpen ha hp (changesAt_setPhase s a .user s.refcnt)
    (by simp [Sys.setPhase, Phase.isOpening]) fun j => ?_
  rw [refs_setPhase, refs_of_phase hp]
  rfl

theorem execOpened {k : ℕ} {exec : Bool} (h : Inv s) (ha : a ∈ s.tasks)
    (hp : s.phase a = .opening k exec) :
    Inv ({ s with refcnt := update s.refcnt k 1 }.setPhase a (.execing k)) := by
  refine h.endOpen ha hp (changesAt_setPhase s a (.execing k) _)
    (by simp [Sys.setPhase, Phase.isOpening]) fun j => ?_
  have htake := take_slot (h.chosen a ha k exec hp) j
  rw [refs_setPhase, refs_of_phase hp]
  simp only [held, Sys.setPhase, count_cons, count_nil] at htake ⊢
  omega

theorem sysOpenLocked {k : ℕ} (h : Inv s) (ha : a ∈ s.tasks)
    (hp : s.phase a = .opening k false) : Inv (sysOpenLocked s a k).2 := by
  have hzero := h.chosen a ha k false hp
  unfold Descriptors.sysOpenLocked
  simp only [Sys.setPhase]
  cases hfd : taskGiveFd (s.fdtable a) with
  | none =>
    -- the file that got its first reference is put at once
    refine h.endOpen ha hp ⟨rfl, rfl, fun _ ht => update_of_ne ht _ _, fun _ _ => rfl⟩
      (by simp [Phase.isOpening]) fun j => ?_
    have hpos : 0 < update s.refcnt k 1 k := by simp
    have hput := filePut_add hpos j
    have htake := take_slot hzero j
    simp only [refs, hp, held, update_self]
    omega
  | some fd =>
    refine h.endOpen ha hp ⟨rfl, rfl, fun _ ht => update_of_ne ht _ _,
      fun _ ht => update_of_ne ht _ _⟩ (by simp [Sys.setFd, Phase.isOpening]) fun j => ?_
    have hnone : s.fdtable a fd = none := by simpa using find?_some hfd
    have hcount := count_openFiles_update (s.fdtable a) fd (some k) j
    simp only [hnone, toList_none, count_nil, toList_some] at hcount
    simp only [refs, hp, held, Sys.setFd, update_self, take_slot hzero]
    omega

theorem sysClose {fd : ℤ} {word : ℕ} {r : ℤ} (h : Inv s) (ha : a ∈ s.tasks) (hp : s.phase a = .user)
    (hfd : 0 ≤ fd ∧ fd < nofile) (hclose : sysClose s a fd word = some (r, s')) : Inv s' := by
  have hrange : ¬ (fd ≥ nofile ∨ fd < 0) := by omega
  simp only [Descriptors.sysClose, dif_neg hrange] at hclose
  split at hclose
  case h_1 =>
    cases hclose
    exact h
  case h_2 f hf =>
    cases hclose
    have hpos : 0 < s.refcnt f := by
      refine h.exact.pos_of_held ha ?_
      rw [hp]
      exact mem_openFiles.mpr ⟨_, hf⟩
    refine h.changesAt ha ⟨rfl, rfl, fun _ _ => rfl, fun _ ht => update_of_ne ht _ _⟩
      (by simp [Sys.setFd, hp, Phase.isOpening]) (fun j => ?_) fun j hj => ?_
    · have hcount := count_openFiles_update (s.fdtable a) ⟨fd.toNat, by omega⟩ none j
      simp only [hf, toList_none, count_nil, toList_some] at hcount
      have hput := filePut_add hpos j
      simp only [refs, hp, held, Sys.setFd, update_self]
      omega
    · have hput := filePut_add hpos j
      show filePut s.refcnt f j = 0
      omega

theorem taskClone {files : Bool} {g : ℕ} (h : Inv s) (ha : a ∈ s.tasks) (hp : s.phase a = .user)
    (hnone : files = true → ∀ t ∈ s.tasks, (s.phase t).isOpening = false) :
    Inv (taskClone s a files g) := by
  have hfresh : s.fresh ∉ s.tasks := fun hmem => lt_irrefl _ (h.task_lt _ hmem)
  have hne : ∀ t ∈ s.tasks, t ≠ s.fresh := fun t ht heq => hfresh (heq ▸ ht)
  have hexact : Exact (Descriptors.taskClone s a files g) := by
    intro k
    have hold : ∑ t ∈ s.tasks, refs (Descriptors.taskClone s a files g) k t =
        ∑ t ∈ s.tasks, refs s k t :=
      Finset.sum_congr rfl fun t ht => by simp [refs, Descriptors.taskClone, hne t ht]
    have hnew : refs (Descriptors.taskClone s a files g) k s.fresh =
        (openFiles (copyFds files s.refcnt (s.fdtable a)).2).count k := by
      simp [refs, Descriptors.taskClone, held]
    show (copyFds files s.refcnt (s.fdtable a)).1 k =
      ∑ t ∈ insert s.fresh s.tasks, refs (Descriptors.taskClone s a files g) k t
    rw [Finset.sum_insert hfresh, hold, hnew, copyFds_balance, h.exact k, Nat.add_comm]
  have hlt : ∀ t ∈ (Descriptors.taskClone s a files g).tasks, t < s.fresh + 1 := by
    intro t ht
    rcases Finset.mem_insert.mp ht with rfl | hold
    · exact Nat.lt_succ_self _
    · exact Nat.lt_succ_of_lt (h.task_lt t hold)
  have hopen : ∀ t ∈ (Descriptors.taskClone s a files g).tasks,
      ((Descriptors.taskClone s a files g).phase t).isOpening = true →
      t ∈ s.tasks ∧ (Descriptors.taskClone s a files g).phase t = s.phase t := by
    intro t ht hto
    rcases Finset.mem_insert.mp ht with rfl | hold
    · simp [Descriptors.taskClone, Phase.isOpening] at hto
    · exact ⟨hold, by simp [Descriptors.taskClone, hne t hold]⟩
  cases files with
  | true =>
    refine noneOpening hexact hlt fun t ht => ?_
    by_contra hto
    obtain ⟨hold, heq⟩ := hopen t ht (by simpa using hto)
    rw [heq, hnone rfl t hold] at hto
    exact hto rfl
  | false =>
    refine h.quiet hexact hlt hopen fun k hk => ?_
    show (copyFds false s.refcnt (s.fdtable a)).1 k = 0
    rw [copyFds_balance, hk, count_eq_zero_of_not_mem]
    intro hmem
    obtain ⟨fd, hfd⟩ := mem_openFiles.mp hmem
    obtain ⟨i, hi⟩ := copyFds_shared hfd
    have hpos := h.exact.pos_of_held ha (k := k) (by
      rw [hp]
      exact mem_openFiles.mpr ⟨i, hi⟩)
    omega

theorem beginExit (h : Inv s) (ha : a ∈ s.tasks) (hp : s.phase a = .user) : Inv (beginExit s a) := by
  show Inv ({ s with refcnt := s.refcnt }.setPhase a (.releasing (openFiles (s.fdtable a))))
  exact h.setPhase ha hp rfl (fun _ => rfl) fun _ hk => hk

theorem drop {tasks : Finset ℕ} (h : Inv s) (hsub : tasks ⊆ s.tasks)
    (hnone : ∀ t ∈ s.tasks, t ∉ tasks → held (s.phase t) (s.fdtable t) = []) :
    Inv { s with tasks } := by
  refine h.quiet (fun k => ?_) (fun t ht => h.task_lt t (hsub ht))
    (fun t ht _ => ⟨hsub ht, rfl⟩) fun _ hk => hk
  show s.refcnt k = ∑ t ∈ tasks, refs s k t
  rw [h.exact k]
  refine (Finset.sum_subset hsub fun t ht hnot => ?_).symm
  rw [refs, hnone t ht hnot, count_nil]

theorem put {f : ℕ} {p q : Phase} (h : Inv s) (ha : a ∈ s.tasks)
    (hq : s.phase a = q) (hp : p.isOpening = false)
    (hheld : held q (s.fdtable a) = f :: held p (s.fdtable a)) :
    Inv ({ s with refcnt := filePut s.refcnt f }.setPhase a p) := by
  have hpos : 0 < s.refcnt f := by
    refine h.exact.pos_of_held ha ?_
    rw [hq, hheld]
    exact mem_cons_self
  refine h.setPhase ha hq hp (fun k => ?_) fun k hk => ?_
  · have hput := filePut_add hpos k
    rw [hheld, ← singleton_append, count_append]
    omega
  · have hput := filePut_add hpos k
    omega

theorem exitGroup (h : Inv s) (ha : a ∈ s.tasks) (hp : s.phase a = .user)
    (hnone : ∀ t ∈ s.tasks, t ≠ a → s.tgid t = s.tgid a → held (s.phase t) (s.fdtable t) = []) :
    Inv (schedulerExitGroup s a) := by
  have hdrop := h.drop (Finset.filter_subset (fun t => t = a ∨ s.tgid t ≠ s.tgid a) s.tasks) (by
    intro t ht hnot
    simp only [Finset.mem_filter, not_and, not_or, not_not] at hnot
    exact hnone t ht (hnot ht).1 (hnot ht).2)
  exact hdrop.beginExit (Finset.mem_filter.mpr ⟨ha, .inl rfl⟩) hp

theorem step {op : Op} (h : Inv s) (hok : Careful s op) (hstep : step s op = some s') : Inv s' := by
  unfold Descriptors.step at hstep
  split_ifs at hstep with ha
  cases op with
  | beginOpen a exec =>
    simp only [Op.apply] at hstep
    split_ifs at hstep with hp
    cases hstep
    exact h.fileOpenAlloc ha hp (hok.1 rfl)
  | endOpen a locked =>
    simp only [Op.apply] at hstep
    split at hstep
    case h_2 => cases hstep
    case h_1 k exec hp =>
      cases locked with
      | false =>
        cases hstep
        exact h.openFailed ha hp
      | true =>
        cases exec with
        | false =>
          cases hstep
          exact h.sysOpenLocked ha hp
        | true =>
          cases hstep
          exact h.execOpened ha hp
  | endExec a =>
    simp only [Op.apply] at hstep
    split at hstep
    case h_2 => cases hstep
    case h_1 k hp =>
      cases hstep
      exact h.put ha hp rfl rfl
  | close a fd word =>
    simp only [Op.apply] at hstep
    split_ifs at hstep with hp
    obtain ⟨⟨r, t⟩, hclose, rfl⟩ := map_eq_some_iff.mp hstep
    exact h.sysClose ha hp hok.2 hclose
  | access a fd res =>
    simp only [Op.apply] at hstep
    split_ifs at hstep with hp
    cases hstep
    unfold sysAccess
    split <;> exact h
  | clone a files g =>
    simp only [Op.apply] at hstep
    split_ifs at hstep with hp
    cases hstep
    refine h.taskClone ha hp fun hfiles => ?_
    subst hfiles
    exact hok.1 rfl
  | exit a =>
    simp only [Op.apply] at hstep
    split_ifs at hstep with hp
    cases hstep
    exact h.beginExit ha hp
  | exitGroup a =>
    simp only [Op.apply] at hstep
    split_ifs at hstep with hp
    cases hstep
    exact h.exitGroup ha hp hok.2
  | release a =>
    simp only [Op.apply] at hstep
    split at hstep
    case h_1 f fs hp =>
      cases hstep
      exact h.put ha hp rfl rfl
    case h_2 hp =>
      cases hstep
      show Inv ({ s with refcnt := s.refcnt }.setPhase a .zombie)
      exact h.setPhase ha hp rfl (fun _ => rfl) fun _ hk => hk
    case h_3 => cases hstep
  | reap a z =>
    simp only [Op.apply] at hstep
    split_ifs at hstep with hp
    cases hstep
    refine h.drop (Finset.erase_subset z s.tasks) fun t ht hnot => ?_
    obtain rfl : t = z := by
      by_contra hne
      exact hnot (Finset.mem_erase.mpr ⟨hne, ht⟩)
    rw [hp.2.2]
    rfl

theorem of_initial : Inv initial where
  exact := by simp [Exact, initial, refs, held, openFiles]
  task_lt := by simp [initial]
  single := by simp [initial, Phase.isOpening]
  chosen := by simp [initial]

theorem run (h : Reaches Descriptors.step Careful s s') (h0 : Inv s) : Inv s' :=
  h.invariant (P := Inv) h0 fun _ _ _ hi hok hstep => hi.step hok hstep

end Inv

theorem bad_descriptor {fd : ℤ} (h : taskGetFd (s.fdtable a) fd = none) (res : ℤ) (word : ℕ) :
    sysAccess s a fd res = (-ebadf, s) ∧
      (0 ≤ fd ∧ fd < nofile → sysClose s a fd word = some (-ebadf, s)) := by
  refine ⟨by simp [sysAccess, h], fun hfd => ?_⟩
  have hrange : ¬ (fd ≥ nofile ∨ fd < 0) := by omega
  simp only [taskGetFd, dif_neg hrange] at h
  simp only [sysClose, dif_neg hrange, h]

/-- In every run whose steps are careful, the count of a file is the number of
descriptors of live tasks that refer to it plus the references of the calls
under way, a file that is not in use has no descriptor, and a call on a
descriptor that is not open fails and changes nothing. -/
theorem descriptors_exact (h : Reaches step Careful initial s) :
    (∀ k, s.refcnt k = ∑ t ∈ s.tasks, refs s k t) ∧
    (∀ k, s.refcnt k = 0 → ∀ t ∈ s.tasks, (s.phase t).Live → ∀ fd, s.fdtable t fd ≠ some k) ∧
    ∀ a fd res word, taskGetFd (s.fdtable a) fd = none →
      sysAccess s a fd res = (-ebadf, s) ∧
      (Careful s (.close a fd word) → sysClose s a fd word = some (-ebadf, s)) := by
  have hi := Inv.run h .of_initial
  refine ⟨hi.exact, fun k hk t ht hlive fd hfd => ?_, fun a fd res word hnone =>
    ⟨(bad_descriptor hnone res word).1, fun hok => (bad_descriptor hnone res word).2 hok.2⟩⟩
  have hmem : k ∈ held (s.phase t) (s.fdtable t) := by
    cases hp : s.phase t with
    | user => exact mem_openFiles.mpr ⟨fd, hfd⟩
    | opening j exec => exact mem_openFiles.mpr ⟨fd, hfd⟩
    | execing j => exact mem_cons_of_mem _ (mem_openFiles.mpr ⟨fd, hfd⟩)
    | releasing fs => simp [hp, Phase.Live] at hlive
    | zombie => simp [hp, Phase.Live] at hlive
  exact absurd hk (hi.exact.pos_of_held ht hmem).ne'

def openForkExit : List Op :=
  [.beginOpen 0 false, .endOpen 0 true, .beginOpen 0 false, .endOpen 0 true, .clone 0 false 1,
    .close 1 0 0, .exit 1, .release 1, .release 1, .reap 0 1, .clone 0 true 2]

theorem descriptors_exact_openForkExit : ∃ s, run step initial openForkExit = some s ∧
    s.refcnt 3 = 1 ∧ ∀ k, s.refcnt k = ∑ t ∈ s.tasks, refs s k t := by
  refine ⟨_, rfl, by decide, (descriptors_exact (.of_run openForkExit ?_ rfl)).1⟩
  decide

def openThenGroupExit : List Op :=
  [.clone 0 false 0, .beginOpen 1 false, .endOpen 1 true, .exitGroup 0, .release 0]

def openTwice : List Op :=
  [.clone 0 false 1, .beginOpen 0 false, .beginOpen 1 false, .endOpen 0 true, .endOpen 1 true]

/-- The file of a destroyed thread keeps its reference for ever, two opens that
overlap get the same slot with one reference for both, and a close of -1, where
a task of normal priority has the word `2 ^ 32`, does not return. -/
theorem references_not_exact :
    (∃ s, Reaches step anyAction initial s ∧ s.phase 0 = .zombie ∧ s.tasks = {0} ∧ s.refcnt 0 = 1) ∧
    (∃ s, Reaches step anyAction initial s ∧ s.fdtable 0 0 = some 0 ∧ s.fdtable 1 0 = some 0 ∧
      s.tasks = {0, 1} ∧ s.refcnt 0 = 1) ∧
    sysClose initial 0 (-1) (2 ^ 32) = none := by
  refine ⟨?_, ?_, rfl⟩
  · exact ⟨_, .of_run openThenGroupExit (allowed_anyAction _ _) rfl, by decide⟩
  · exact ⟨_, .of_run openTwice (allowed_anyAction _ _) rfl, by decide⟩

end RvMiniOs.Tasks.Descriptors
