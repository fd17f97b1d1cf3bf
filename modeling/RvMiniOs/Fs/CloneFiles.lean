import RvMiniOs.Fs.FileOffsets
import Mathlib.Data.Option.Basic

/-!
# Descriptors of a cloned task

`copy_fds` of `task.c`, which `task_clone` calls when everything else has succeeded. The
flag `CLONE_FILES` asks for shared descriptors, and selects `file_clone`, which gives the
child files of its own.
-/

namespace RvMiniOs.Fs

open Lib Function List Option
open Tasks.Descriptors (FdTable nofile fileAlloc)

abbrev cloneFiles : ℕ := 2

/-- `file_clone`: the slot of the copy, none when the table is full. An `inode_get` without
a free slot, which stores a null pointer, is not modelled. -/
def fileClone (s : Files) (f : ℕ) : Option (Option ℕ × Files) :=
  match fileAlloc s.refcnt with
  | none => some (none, s)
  | some k =>
    (inodeGet s.fs (s.fs.islots (s.ftable f).i).ino).map fun (i, fs) =>
      (some k, { s with
        fs
        ftable := Function.update s.ftable k { s.ftable f with i }
        refcnt := Function.update s.refcnt k 1 })

def fileGet (s : Files) (f : ℕ) : Files :=
  { s with refcnt := Tasks.Descriptors.fileGet s.refcnt f }

def copyFd (clone : Bool) (child parent : ℕ) (s : Files) (i : Fin nofile) : Option Files :=
  match s.fdtable parent i with
  | none => some s
  | some f =>
    if clone then (fileClone s f).map fun (k, s) => s.setFd child i k
    else some ((fileGet s f).setFd child i (some f))

def copyFds (child parent : ℕ) (clone : Bool) (s : Files) : Option Files :=
  (List.finRange nofile).foldlM (copyFd clone child parent) s

/-- The child of a `task_clone` that succeeds: a new task with an empty table. -/
def taskCloneFds (s : Files) (parent child flags : ℕ) : Option Files :=
  copyFds child parent (flags &&& cloneFiles ≠ 0)
    { s with fdtable := Function.update s.fdtable child fun _ => none }

inductive FileCall where
  | read (copyout : Copyout Bytes) (dst : Bytes) (count : ℕ) (dev : ℤ)
  | write (copyin : Copyin) (count : ℕ) (dev : ℤ)
  | seek (offset whence : ℤ)

/-- The result of a call, with what a read leaves in the caller's memory. -/
def FileCall.apply (s : Files) (f : ℕ) : FileCall → Option ((ℤ × Option Bytes) × Files)
  | .read copyout dst count dev =>
    (fileRead s f copyout dst count dev).map fun (res, mem, s) => ((res, some mem), s)
  | .write copyin count dev => (fileWrite s f copyin count dev).map fun (res, s) => ((res, none), s)
  | .seek offset whence => (fileSeek s f offset whence).map fun (res, s) => ((res, none), s)

/-- What the calls of some tasks on their descriptors return, up to one that does not. -/
def results (s : Files) : List (ℕ × Fin nofile × FileCall) → List (Option (ℤ × Option Bytes))
  | [] => []
  | (a, fd, call) :: calls =>
    match s.fdtable a fd with
    | none => some (-ebadf, none) :: results s calls
    | some f =>
      match call.apply s f with
      | none => [none]
      | some (res, s) => some res :: results s calls

/-- The child uses the files of its parent. -/
def Files.sharing (s : Files) (parent child : ℕ) : Files :=
  { s with fdtable := Function.update s.fdtable child (s.fdtable parent) }

structure SameFile (s s' : Files) (f f' : ℕ) : Prop where
  ino : (s'.fs.islots (s'.ftable f').i).ino = (s.fs.islots (s.ftable f).i).ino
  mode : (s'.ftable f').mode = (s.ftable f).mode
  off : (s'.ftable f').off = (s.ftable f).off

/-- The child has the descriptors of its parent, on the same files, and with `CLONE_FILES`
both use one offset. -/
def ClonesFds (s : Files) (parent child flags : ℕ) : Prop :=
  ∃ s', taskCloneFds s parent child flags = some s' ∧
    (∀ fd, Option.Rel (SameFile s s') (s.fdtable parent fd) (s'.fdtable child fd)) ∧
    (flags &&& cloneFiles ≠ 0 → ∀ calls : List (ℕ × Fin nofile × FileCall),
      (∀ c ∈ calls, (c.1 = parent ∨ c.1 = child) ∧ s.fdtable parent c.2.1 ≠ none) →
        results s' calls = results (s.sharing parent child) calls)

section

variable {s s' : Files} {parent child f k : ℕ} {fd : Fin nofile}

theorem refcnt_of_fileAlloc {refcnt : ℕ → ℕ} (h : fileAlloc refcnt = some k) : refcnt k = 0 := by
  simpa using find?_some h

theorem copyFds_shared (hne : child ≠ parent) (l : List (Fin nofile)) (s : Files) : ∃ s',
    l.foldlM (copyFd false child parent) s = some s' ∧ s'.fs = s.fs ∧ s'.ftable = s.ftable ∧
    s'.fdtable parent = s.fdtable parent ∧ ∀ fd, s'.fdtable child fd = if fd ∈ l ∧
    s.fdtable parent fd ≠ none then s.fdtable parent fd else s.fdtable child fd := by
  induction l generalizing s with
  | nil => exact ⟨s, rfl, rfl, rfl, rfl, fun fd => by simp⟩
  | cons i l ih =>
    rw [foldlM_cons]
    cases hi : s.fdtable parent i with
    | none =>
      obtain ⟨s', hrun, hfs, htab, hpar, hchild⟩ := ih s
      have hstep : copyFd false child parent s i = some s := by rw [copyFd, hi]
      refine ⟨s', by rw [hstep]; exact hrun, hfs, htab, hpar, fun fd => ?_⟩
      rw [hchild fd]
      refine if_congr ?_ rfl rfl
      rw [mem_cons]
      constructor
      · exact fun h => ⟨.inr h.1, h.2⟩
      · rintro ⟨rfl | hmem, hopen⟩
        · exact absurd hi hopen
        · exact ⟨hmem, hopen⟩
    | some f =>
      obtain ⟨s', hrun, hfs, htab, hpar, hchild⟩ := ih ((fileGet s f).setFd child i (some f))
      have hstep : copyFd false child parent s i = some ((fileGet s f).setFd child i (some f)) := by
        rw [copyFd, hi]
        rfl
      have hpar' : ((fileGet s f).setFd child i (some f)).fdtable parent = s.fdtable parent :=
        update_of_ne hne.symm _ _
      refine ⟨s', by rw [hstep]; exact hrun, hfs, htab, hpar.trans hpar', fun fd => ?_⟩
      have hnew : ((fileGet s f).setFd child i (some f)).fdtable child fd =
          if fd = i then some f else s.fdtable child fd := by
        simp only [Files.setFd, fileGet, update_self, update_apply]
      rw [hchild fd, hpar', hnew]
      by_cases hfd : fd = i
      · rw [hfd, hi, if_pos rfl, ite_self, if_pos ⟨mem_cons_self, some_ne_none f⟩]
      · rw [if_neg hfd]
        exact if_congr (by simp [hfd]) rfl rfl

theorem copyFds_nothing {clone : Bool} (h : ∀ fd, s.fdtable parent fd = none) (l : List (Fin nofile)) :
    l.foldlM (copyFd clone child parent) s = some s := by
  induction l with
  | nil => rfl
  | cons i l ih =>
    have hstep : copyFd clone child parent s i = some s := by rw [copyFd, h i]
    rw [foldlM_cons, hstep]
    exact ih

/-- What a copy leaves alone: open files, and the descriptors of the parent. A descriptor of
the child is an old one or refers to a file that was closed. -/
structure Copied (s s' : Files) (parent child : ℕ) : Prop where
  parent_eq : s'.fdtable parent = s.fdtable parent
  opened : ∀ f, 0 < s.refcnt f → 0 < s'.refcnt f ∧ s'.ftable f = s.ftable f
  fresh : ∀ fd k, s'.fdtable child fd = some k → s.fdtable child fd = some k ∨ s.refcnt k = 0

theorem Copied.refl (s : Files) : Copied s s parent child :=
  ⟨rfl, fun _ h => ⟨h, rfl⟩, fun _ _ h => .inl h⟩

theorem Copied.trans {s'' : Files} (h : Copied s s' parent child) (h' : Copied s' s'' parent child) :
    Copied s s'' parent child where
  parent_eq := h'.parent_eq.trans h.parent_eq
  opened := fun f hf => by
    obtain ⟨hpos, heq⟩ := h.opened f hf
    exact ⟨(h'.opened f hpos).1, (h'.opened f hpos).2.trans heq⟩
  fresh := fun fd k hk => by
    rcases h'.fresh fd k hk with hold | hzero
    · exact h.fresh fd k hold
    · refine .inr (Nat.eq_zero_of_not_pos fun hpos => ?_)
      have := (h.opened k hpos).1
      omega

theorem Copied.copyFd (hne : child ≠ parent) (h : copyFd true child parent s fd = some s') :
    Copied s s' parent child := by
  unfold Fs.copyFd at h
  cases hf : s.fdtable parent fd with
  | none =>
    rw [hf] at h
    cases h
    exact .refl s
  | some f =>
    rw [hf] at h
    simp only [if_true, fileClone] at h
    cases halloc : fileAlloc s.refcnt with
    | none =>
      rw [halloc] at h
      cases h
      refine ⟨update_of_ne hne.symm _ _, fun f hf => ⟨hf, rfl⟩, fun i k hk => .inl ?_⟩
      simp only [Files.setFd, update_self, update_apply] at hk
      split_ifs at hk
      exact hk
    | some j =>
      have hzero := refcnt_of_fileAlloc halloc
      rw [halloc] at h
      obtain ⟨r, hr, rfl⟩ := map_eq_some_iff.mp h
      obtain ⟨⟨i, fs⟩, -, rfl⟩ := map_eq_some_iff.mp hr
      refine ⟨update_of_ne hne.symm _ _, fun f hf => ?_, fun i k hk => ?_⟩
      · have hfj : f ≠ j := by
          rintro rfl
          omega
        exact ⟨by simpa [Files.setFd, update_of_ne hfj] using hf, update_of_ne hfj _ _⟩
      · simp only [Files.setFd, update_self, update_apply] at hk
        split_ifs at hk with hi
        · exact .inr (some.inj hk ▸ hzero)
        · exact .inl hk

theorem copied_of_copyFds (hne : child ≠ parent) {l : List (Fin nofile)}
    (h : l.foldlM (copyFd true child parent) s = some s') : Copied s s' parent child := by
  induction l generalizing s with
  | nil =>
    obtain rfl := some.inj h
    exact .refl s
  | cons i l ih =>
    rw [foldlM_cons] at h
    obtain ⟨s₁, hstep, hrest⟩ := bind_eq_some_iff.mp h
    exact (Copied.copyFd hne hstep).trans (ih hrest)

/-- The parent moves its offset, the child asks for its own. -/
def probe (parent child : ℕ) (fd : Fin nofile) (x : ℤ) : List (ℕ × Fin nofile × FileCall) :=
  [(parent, fd, .seek x seekSet), (child, fd, .seek 0 seekCur)]

def tell (off : ℤ) : ℤ :=
  if (off + 0).bmod (2 ^ 64) < 0 then -einval else (off + 0).bmod (2 ^ 64)

theorem results_probe {x : ℤ} (hx : 0 ≤ x) (hf : s.fdtable parent fd = some f) (hk : s.fdtable child fd = some k) :
    results s (probe parent child fd x) =
      [some (x, none), some (tell (if k = f then x else (s.ftable k).off), none)] := by
  have hset : FileCall.apply s f (.seek x seekSet) = some ((x, none),
      { s with ftable := update s.ftable f { s.ftable f with off := x } }) := by
    simp only [FileCall.apply, fileSeek, if_true, seekTo, if_neg (Int.not_lt.mpr hx), map_some]
  have hcur : ∀ t : Files, ∃ t', FileCall.apply t k (.seek 0 seekCur) = some ((tell (t.ftable k).off, none), t') := by
    intro t
    have hseek : fileSeek t k 0 seekCur = some (seekTo t k (((t.ftable k).off + 0).bmod (2 ^ 64))) := by
      rw [fileSeek, if_neg (by decide), if_pos rfl]
    rw [FileCall.apply, hseek, map_some, seekTo, tell]
    split_ifs
    · exact ⟨_, rfl⟩
    · exact ⟨_, rfl⟩
  obtain ⟨t', ht'⟩ := hcur { s with ftable := update s.ftable f { s.ftable f with off := x } }
  rw [probe, results, hf]
  simp only [hset]
  rw [results, hk]
  simp only [ht', results]
  rw [update_apply]
  by_cases hkf : k = f
  · rw [if_pos hkf, if_pos hkf]
  · rw [if_neg hkf, if_neg hkf]

theorem results_ne_sharing (hpar : s'.fdtable parent fd = s.fdtable parent fd) (hne : child ≠ parent)
    (hf : s.fdtable parent fd = some f) (hk : s'.fdtable child fd = some k) (hkf : k ≠ f) :
    ∃ x, results s' (probe parent child fd x) ≠ results (s.sharing parent child) (probe parent child fd x) := by
  have hshare : ∀ x : ℤ, 0 ≤ x → results (s.sharing parent child) (probe parent child fd x) =
      [some (x, none), some (tell x, none)] := by
    intro x hx
    have hp : (s.sharing parent child).fdtable parent fd = some f := by
      simp only [Files.sharing, update_of_ne hne.symm, hf]
    have hc : (s.sharing parent child).fdtable child fd = some f := by
      simp only [Files.sharing, update_self, hf]
    rw [results_probe hx hp hc, if_pos rfl]
  have hown : ∀ x : ℤ, 0 ≤ x → results s' (probe parent child fd x) =
      [some (x, none), some (tell (s'.ftable k).off, none)] := by
    intro x hx
    rw [results_probe hx (hpar.trans hf) hk, if_neg hkf]
  by_contra hall
  have h0 := not_not.mp (not_exists.mp hall 0)
  have h1 := not_not.mp (not_exists.mp hall 1)
  rw [hown 0 le_rfl, hshare 0 le_rfl] at h0
  rw [hown 1 (by decide), hshare 1 (by decide)] at h1
  have h0' : tell (s'.ftable k).off = tell 0 := by simpa using h0
  have h1' : tell (s'.ftable k).off = tell 1 := by simpa using h1
  exact absurd (h0'.symm.trans h1') (by decide)

end

theorem fdtable_new_task (s : Files) {parent child : ℕ} (hne : child ≠ parent) :
    update s.fdtable child (fun _ => none) parent = s.fdtable parent :=
  update_of_ne hne.symm _ _

theorem not_clonesFds {s : Files} {parent child flags : ℕ} (hne : child ≠ parent)
    (hopen : ∀ fd f, s.fdtable parent fd = some f → 0 < s.refcnt f) (hflag : flags &&& cloneFiles ≠ 0)
    {fd : Fin nofile} {f : ℕ} (hf : s.fdtable parent fd = some f) : ¬ ClonesFds s parent child flags := by
  rintro ⟨s', hrun, hsame, hshare⟩
  rw [taskCloneFds, decide_eq_true hflag] at hrun
  have hcopied := copied_of_copyFds hne hrun
  have hrel := hsame fd
  rw [hf] at hrel
  rcases hk : s'.fdtable child fd with _ | k
  · rw [hk] at hrel
    cases hrel
  -- the child's file is one that was closed before, so it is not the parent's
  have hzero : s.refcnt k = 0 := by
    rcases hcopied.fresh fd k hk with hold | hzero
    · simp only [update_self, reduceCtorEq] at hold
    · exact hzero
  have hkf : k ≠ f := by
    rintro rfl
    have := hopen fd k hf
    omega
  obtain ⟨x, hx⟩ :=
    results_ne_sharing (congrFun (hcopied.parent_eq.trans (fdtable_new_task s hne)) fd) hne hf hk hkf
  have hfd : s.fdtable parent fd ≠ none := by
    rw [hf]
    exact some_ne_none f
  refine hx (hshare hflag _ fun c hc => ?_)
  simp only [probe, mem_cons, not_mem_nil, or_false] at hc
  rcases hc with rfl | rfl
  · exact ⟨.inl rfl, hfd⟩
  · exact ⟨.inr rfl, hfd⟩

/-- A clone does with descriptors what its flags say exactly when `CLONE_FILES` is not given
or there are none. -/
theorem clone_fds_iff (s : Files) {parent child : ℕ} (hne : child ≠ parent)
    (hopen : ∀ fd f, s.fdtable parent fd = some f → 0 < s.refcnt f) (flags : ℕ) :
    ClonesFds s parent child flags ↔ flags &&& cloneFiles = 0 ∨ ∀ fd, s.fdtable parent fd = none := by
  have hpar := fdtable_new_task s hne
  constructor
  · intro h
    by_contra hcon
    obtain ⟨hflag, hsome⟩ := not_or.mp hcon
    obtain ⟨fd, hfd⟩ := not_forall.mp hsome
    obtain ⟨f, hf⟩ := ne_none_iff_exists'.mp hfd
    exact not_clonesFds hne hopen hflag hf h
  · rintro (hflag | hnone)
    · obtain ⟨s', hrun, hfs, htab, -, hchild⟩ := copyFds_shared hne (finRange nofile)
        { s with fdtable := update s.fdtable child fun _ => none }
      refine ⟨s', ?_, fun fd => ?_, fun h => absurd hflag h⟩
      · rw [taskCloneFds, decide_eq_false (not_not.mpr hflag)]
        exact hrun
      · have hsame : ∀ f, SameFile s s' f f := fun f => ⟨by rw [hfs, htab], by rw [htab], by rw [htab]⟩
        rw [hchild fd]
        simp only [hpar, update_self, mem_finRange, true_and]
        cases s.fdtable parent fd with
        | none => exact .none
        | some f => exact .some (hsame f)
    · refine ⟨{ s with fdtable := update s.fdtable child fun _ => none }, ?_, fun fd => ?_, ?_⟩
      · exact copyFds_nothing (fun fd => (congrFun hpar fd).trans (hnone fd)) _
      · rw [hnone fd]
        simp only [update_self]
        exact .none
      · intro _ calls hcalls
        cases calls with
        | nil => rfl
        | cons c calls => exact absurd (hnone c.2.1) (hcalls c mem_cons_self).2

def helloTask : Files :=
  { helloFiles 2 with
    refcnt := Function.update (fun _ => 0) 0 1
    fdtable := fun a fd => if a = 1 ∧ fd = 3 then some 0 else none }

theorem helloTask_open (fd : Fin nofile) (f : ℕ) (h : helloTask.fdtable 1 fd = some f) : 0 < helloTask.refcnt f := by
  obtain ⟨-, rfl⟩ : (1 = 1 ∧ fd = 3) ∧ 0 = f := by simpa [helloTask] using h
  exact Nat.one_pos

/-- Without the flag the child shares the descriptor. -/
theorem clone_fds_fork : ClonesFds helloTask 1 2 0 :=
  (clone_fds_iff helloTask (by decide) helloTask_open 0).mpr (.inl rfl)

/-- With it the child gets a file of its own. -/
theorem clone_fds_not_shared : ¬ ClonesFds helloTask 1 2 cloneFiles :=
  not_clonesFds (by decide) helloTask_open (by decide) (show helloTask.fdtable 1 3 = some 0 from rfl)

end RvMiniOs.Fs
