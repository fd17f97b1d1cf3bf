import RvMiniOs.Bcache.Buffers
import RvMiniOs.Fs.Inode
import RvMiniOs.Lib.Runs
import RvMiniOs.Lib.Sizes
import Mathlib.Tactic

/-!
# Destroyed tasks and the resources of the file system

The locks, references and requests that a thread holds on its way through
`inode.c`, `bcache.c` and `virtio_blk.c`, in the small steps between which
another thread may run, with the exits of `scheduler.c`. `task_destroy` takes a
task out of every queue and gives back nothing that it holds.
-/
namespace RvMiniOs.Tasks.Resources

open Lib Function List Option
open Bcache (nbuf)
open Fs (inodeCacheSize)
open Sync (Mutex)

abbrev virtioMaxQueueSize : ℕ := 16

inductive Lock where
  | inode (slot : Fin inodeCacheSize)
  | buffer (slot : Fin nbuf)
  deriving DecidableEq, Repr, Fintype

inductive Status where
  | running
  | waitLock (l : Lock)
  | waitSlot
  | waitIo (idx : Fin virtioMaxQueueSize)
  | zombie
  | destroyed
  deriving DecidableEq, Repr

/-- A `struct virtio_blk_req` on the kernel stack of its issuer. -/
structure Request where
  issuer : ℕ
  completed : Bool
  deriving DecidableEq, Repr

/-- `refs b` lists who holds the references that the `refcnt` of buffer `b`
counts. `freeDesc` are the heads of the free chains of three descriptors. -/
structure Sys where
  table : List ℕ
  fresh : ℕ
  tgid : ℕ → ℕ
  status : ℕ → Status
  mutex : Lock → Mutex
  refs : Fin nbuf → List ℕ
  inflight : Fin virtioMaxQueueSize → Option Request
  freeDesc : List (Fin virtioMaxQueueSize)
  freeSlots : ℕ
  slotWq : List ℕ

def setStatus (s : Sys) (t : ℕ) (st : Status) : Sys :=
  { s with status := Function.update s.status t st }

def setMutex (s : Sys) (l : Lock) (m : Mutex) : Sys :=
  { s with mutex := Function.update s.mutex l m }

def mutexLock (s : Sys) (a : ℕ) (l : Lock) : Sys :=
  let (blocks, m) := Sync.mutexLock (s.mutex l) a
  let s := setMutex s l m
  if blocks then setStatus s a (.waitLock l) else s

def mutexUnlock (s : Sys) (a : ℕ) (l : Lock) : Sys :=
  let (woken, m) := Sync.mutexUnlock (s.mutex l) a
  let s := setMutex s l m
  woken.elim s (setStatus s · .running)

def getblkRef (s : Sys) (a : ℕ) (b : Fin nbuf) : Sys :=
  { s with refs := Function.update s.refs b (a :: s.refs b) }

def releaseRef (s : Sys) (a : ℕ) (b : Fin nbuf) : Sys :=
  { s with refs := Function.update s.refs b ((s.refs b).erase a) }

def waitFreeSlot (s : Sys) (a : ℕ) : Sys :=
  if 0 < s.freeSlots then { s with freeSlots := s.freeSlots - 1 }
  else setStatus { s with slotWq := s.slotWq ++ [a] } a .waitSlot

/-- `submit_req` and the wait for the completion. -/
def submitReq (s : Sys) (a : ℕ) : Option Sys :=
  match s.freeDesc with
  | [] => none
  | idx :: rest =>
    some (setStatus
      { s with
        freeDesc := rest
        inflight := Function.update s.inflight idx (some ⟨a, false⟩) } a (.waitIo idx))

/-- `virtio_irq_handler` on one used element: the post wakes the issuer if it
still waits there. -/
def virtioIrqHandler (s : Sys) (idx : Fin virtioMaxQueueSize) : Option Sys :=
  match s.inflight idx with
  | none => none
  | some req =>
    let s := { s with inflight := Function.update s.inflight idx (some { req with completed := true }) }
    some (if s.status req.issuer = .waitIo idx then setStatus s req.issuer .running else s)

/-- `release_desc_chain`: the chain goes back and a waiter for a slot is woken. -/
def releaseDescChain (s : Sys) (head : Fin virtioMaxQueueSize) : Sys :=
  let s := { s with freeDesc := head :: s.freeDesc }
  match s.slotWq with
  | t :: rest => setStatus { s with slotWq := rest } t .running
  | [] => { s with freeSlots := s.freeSlots + 1 }

/-- `task_destroy`: out of the table and of every queue, and freed. -/
def taskDestroy (s : Sys) (t : ℕ) : Sys :=
  { s with
    table := s.table.filter (· ≠ t)
    status := Function.update s.status t .destroyed
    mutex := fun l => { s.mutex l with wq := (s.mutex l).wq.filter (· ≠ t) }
    slotWq := s.slotWq.filter (· ≠ t) }

def schedulerExit (s : Sys) (a : ℕ) : Sys :=
  setStatus s a .zombie

def exitTgidCb (a tgid : ℕ) (s : Sys) (p : ℕ) : Sys :=
  if tgid = s.tgid p ∧ p ≠ a then taskDestroy s p else s

def schedulerExitGroup (s : Sys) (a : ℕ) : Sys :=
  schedulerExit (s.table.foldl (exitTgidCb a (s.tgid a)) s) a

def spawnTask (s : Sys) (g : ℕ) : Sys :=
  { s with
    table := s.table ++ [s.fresh]
    fresh := s.fresh + 1
    tgid := Function.update s.tgid s.fresh g
    status := Function.update s.status s.fresh .running }

inductive Op where
  | spawn (a g : ℕ)
  | lock (a : ℕ) (l : Lock)
  | unlock (a : ℕ) (l : Lock)
  | takeRef (a : ℕ) (b : Fin nbuf)
  | dropRef (a : ℕ) (b : Fin nbuf)
  | waitSlot (a : ℕ)
  | submit (a : ℕ)
  | complete (idx : Fin virtioMaxQueueSize)
  | releaseDesc (a : ℕ) (head : Fin virtioMaxQueueSize)
  | exit (a : ℕ)
  | exitGroup (a : ℕ)
  | reap (a z : ℕ)
  deriving DecidableEq, Repr

/-- The task that runs the step; none for the device. -/
def Op.active : Op → Option ℕ
  | .spawn a _ | .lock a _ | .unlock a _ | .takeRef a _ | .dropRef a _ | .waitSlot a | .submit a
  | .releaseDesc a _ | .exit a | .exitGroup a | .reap a _ => some a
  | .complete _ => none

def Op.apply (s : Sys) : Op → Option Sys
  | .spawn _ g => some (spawnTask s g)
  | .lock a l => some (mutexLock s a l)
  | .unlock a l => some (mutexUnlock s a l)
  | .takeRef a b => some (getblkRef s a b)
  | .dropRef a b => if a ∈ s.refs b then some (releaseRef s a b) else none
  | .waitSlot a => some (waitFreeSlot s a)
  | .submit a => submitReq s a
  | .complete idx => virtioIrqHandler s idx
  | .releaseDesc _ head => some (releaseDescChain s head)
  | .exit a => some (schedulerExit s a)
  | .exitGroup a => some (schedulerExitGroup s a)
  | .reap a z =>
    if z ∈ s.table ∧ z ≠ a ∧ s.status z = .zombie then some (taskDestroy s z) else none

/-- Any task of the table that is not waiting may run next. -/
def step (s : Sys) (op : Op) : Option Sys :=
  if ∀ a ∈ op.active, a ∈ s.table ∧ s.status a = .running then op.apply s else none

def boot : Sys where
  table := [0]
  fresh := 1
  tgid := fun _ => 0
  status := fun _ => .running
  mutex := fun _ => Sync.mutexInit
  refs := fun _ => []
  inflight := fun _ => none
  freeDesc := [0, 3, 6, 9, 12]
  freeSlots := 5
  slotWq := []

/-- Every owner, holder and issuer is a task that has not been destroyed. -/
structure Unstranded (s : Sys) : Prop where
  owners : ∀ l a, (s.mutex l).owner = some a → s.status a ≠ .destroyed
  holders : ∀ b, ∀ a ∈ s.refs b, s.status a ≠ .destroyed
  issuers : ∀ i r, s.inflight i = some r → r.completed = false → s.status r.issuer ≠ .destroyed

def victims (s : Sys) : Op → List ℕ
  | .exitGroup a => s.table.filter fun p => s.tgid a = s.tgid p ∧ p ≠ a
  | .reap _ z => [z]
  | _ => []

/-- `d` owns no mutex, holds no buffer and has no request under way. -/
def HoldsNothing (s : Sys) (d : ℕ) : Prop :=
  (∀ l, (s.mutex l).owner ≠ some d) ∧ (∀ b, d ∉ s.refs b) ∧
    ∀ i, s.inflight i ≠ some ⟨d, false⟩

instance (s : Sys) (d : ℕ) : Decidable (HoldsNothing s d) :=
  inferInstanceAs (Decidable (_ ∧ _ ∧ _))

def VictimsHoldNothing (s : Sys) (op : Op) : Prop :=
  ∀ d ∈ victims s op, HoldsNothing s d

instance (s : Sys) (op : Op) : Decidable (VictimsHoldNothing s op) :=
  inferInstanceAs (Decidable (∀ d ∈ victims s op, _))

/-- `t` owns or waits for a mutex, holds a buffer, waits for its request or
waits for a free slot. -/
inductive Refers (s : Sys) (t : ℕ) : Prop where
  | owner (l : Lock) (h : (s.mutex l).owner = some t)
  | waiter (l : Lock) (h : t ∈ (s.mutex l).wq)
  | holder (b : Fin nbuf) (h : t ∈ s.refs b)
  | issuer (i : Fin virtioMaxQueueSize) (h : s.inflight i = some ⟨t, false⟩)
  | slot (h : t ∈ s.slotWq)

def Inv (s : Sys) : Prop :=
  ∀ t, Refers s t → s.status t ≠ .destroyed

theorem Inv.unstranded {s : Sys} (h : Inv s) : Unstranded s where
  owners l a ha := h a (.owner l ha)
  holders b a ha := h a (.holder b ha)
  issuers i r hr hc := h r.issuer (.issuer i (by rw [hr, ← hc]))

theorem Inv.boot : Inv boot := by
  intro t ht
  cases ht with
  | owner l h => cases h
  | waiter l h => cases h
  | holder b h => cases h
  | issuer i h => cases h
  | slot h => cases h

/-- A step refers only to tasks that were referred to and to the task that
takes it, and destroys only `ds`, to none of which it refers. -/
structure Moves (s s' : Sys) (a : Option ℕ) (ds : List ℕ) : Prop where
  refers : ∀ t, Refers s' t → (Refers s t ∨ a = some t) ∧ t ∉ ds
  destroyed : ∀ t, s'.status t = .destroyed → s.status t = .destroyed ∨ t ∈ ds

section Steps

variable {s s' s'' : Sys} {a : Option ℕ} {ds es : List ℕ}

theorem Moves.refl (s : Sys) (a : Option ℕ) : Moves s s a [] :=
  ⟨fun _ h => ⟨.inl h, not_mem_nil⟩, fun _ h => .inl h⟩

theorem Moves.trans (h : Moves s s' a ds) (h' : Moves s' s'' a es) (hds : ∀ t, a = some t → t ∉ ds) :
    Moves s s'' a (ds ++ es) where
  refers t ht := by
    obtain ⟨hmid, hes⟩ := h'.refers t ht
    rcases hmid with hmid | hact
    · obtain ⟨hold, hnot⟩ := h.refers t hmid
      exact ⟨hold, by simp [hnot, hes]⟩
    · exact ⟨.inr hact, by simp [hds t hact, hes]⟩
  destroyed t ht := by
    rcases h'.destroyed t ht with hmid | hes
    · exact (h.destroyed t hmid).imp_right (mem_append_left _)
    · exact .inr (mem_append_right _ hes)

theorem Refers.of_setStatus {t u : ℕ} {st : Status} (h : Refers (setStatus s u st) t) : Refers s t := by
  cases h with
  | owner l h => exact .owner l h
  | waiter l h => exact .waiter l h
  | holder b h => exact .holder b h
  | issuer i h => exact .issuer i h
  | slot h => exact .slot h

theorem Moves.setStatus (h : Moves s s' a ds) (t : ℕ) {st : Status} (hst : st ≠ .destroyed) :
    Moves s (setStatus s' t st) a ds where
  refers u hu := h.refers u hu.of_setStatus
  destroyed u hu := by
    by_cases hut : u = t
    · simp [Resources.setStatus, hut, hst] at hu
    · exact h.destroyed u (by simpa [Resources.setStatus, hut] using hu)

theorem Moves.setMutex {l : Lock} {m : Mutex} (howner : ∀ t, m.owner = some t → Refers s t ∨ a = some t)
    (hwq : ∀ t ∈ m.wq, Refers s t ∨ a = some t) : Moves s (setMutex s l m) a [] where
  destroyed t ht := .inl ht
  refers t ht := by
    refine ⟨?_, not_mem_nil⟩
    cases ht with
    | owner k h =>
      by_cases hk : k = l
      · subst hk
        exact howner t (by simpa [Resources.setMutex] using h)
      · exact .inl (.owner k (by simpa [Resources.setMutex, hk] using h))
    | waiter k h =>
      by_cases hk : k = l
      · subst hk
        exact hwq t (by simpa [Resources.setMutex] using h)
      · exact .inl (.waiter k (by simpa [Resources.setMutex, hk] using h))
    | holder b h => exact .inl (.holder b h)
    | issuer i h => exact .inl (.issuer i h)
    | slot h => exact .inl (.slot h)

theorem Moves.lock (s : Sys) (a : ℕ) (l : Lock) : Moves s (mutexLock s a l) (some a) [] := by
  unfold mutexLock
  cases hlocked : (s.mutex l).locked with
  | false =>
    rw [Sync.mutexLock_free a hlocked]
    refine Moves.setMutex ?_ ?_
    · exact fun t ht => .inr ht
    · exact fun t ht => .inl (.waiter l ht)
  | true =>
    rw [Sync.mutexLock_taken a hlocked]
    refine Moves.setStatus (Moves.setMutex ?_ ?_) a (by simp)
    · exact fun t ht => .inl (.owner l ht)
    · intro t ht
      rcases mem_append.mp ht with ht | ht
      · exact .inl (.waiter l ht)
      · exact .inr (by rw [mem_singleton.mp ht])

theorem Moves.unlock (s : Sys) (a : ℕ) (l : Lock) : Moves s (mutexUnlock s a l) (some a) [] := by
  have howner : ∀ t, (s.mutex l).owner = some t → Refers s t ∨ some a = some t :=
    fun t ht => .inl (.owner l ht)
  have hwait : ∀ t ∈ (s.mutex l).wq, Refers s t ∨ some a = some t := fun t ht => .inl (.waiter l ht)
  unfold mutexUnlock Sync.mutexUnlock
  split_ifs
  · exact Moves.setMutex howner hwait
  · cases hw : (s.mutex l).wq with
    | nil => exact Moves.setMutex (fun t ht => by cases ht) (by simp)
    | cons u rest =>
      have hu : u ∈ (s.mutex l).wq := by simp [hw]
      refine Moves.setStatus (Moves.setMutex ?_ ?_) u (by simp)
      · rintro t ht
        cases ht
        exact hwait u hu
      · intro t ht
        exact hwait t (by rw [hw]; exact mem_cons_of_mem _ ht)

theorem Moves.setRefs {r : Fin nbuf → List ℕ}
    (h : ∀ b, ∀ t ∈ r b, t ∈ s.refs b ∨ a = some t) : Moves s { s with refs := r } a [] where
  destroyed t ht := .inl ht
  refers t ht := by
    refine ⟨?_, not_mem_nil⟩
    cases ht with
    | owner l h => exact .inl (.owner l h)
    | waiter l h => exact .inl (.waiter l h)
    | holder b hb => exact (h b t hb).imp_left (.holder b)
    | issuer i h => exact .inl (.issuer i h)
    | slot h => exact .inl (.slot h)

theorem Moves.getblkRef (s : Sys) (a : ℕ) (b : Fin nbuf) : Moves s (getblkRef s a b) (some a) [] := by
  refine Moves.setRefs fun c t ht => ?_
  by_cases hc : c = b
  · subst hc
    rw [update_self] at ht
    rcases mem_cons.mp ht with rfl | ht
    · exact .inr rfl
    · exact .inl ht
  · rw [update_of_ne hc] at ht
    exact .inl ht

theorem Moves.releaseRef (s : Sys) (a : ℕ) (b : Fin nbuf) : Moves s (releaseRef s a b) (some a) [] := by
  refine Moves.setRefs fun c t ht => .inl ?_
  by_cases hc : c = b
  · subst hc
    rw [update_self] at ht
    exact mem_of_mem_erase ht
  · rwa [update_of_ne hc] at ht

theorem Moves.setQueue {fl : Fin virtioMaxQueueSize → Option Request}
    {fd : List (Fin virtioMaxQueueSize)} {n : ℕ} {wq : List ℕ}
    (hfl : ∀ i t, fl i = some ⟨t, false⟩ → s.inflight i = some ⟨t, false⟩ ∨ a = some t)
    (hwq : ∀ t ∈ wq, t ∈ s.slotWq ∨ a = some t) :
    Moves s { s with inflight := fl, freeDesc := fd, freeSlots := n, slotWq := wq } a [] where
  destroyed t ht := .inl ht
  refers t ht := by
    refine ⟨?_, not_mem_nil⟩
    cases ht with
    | owner l h => exact .inl (.owner l h)
    | waiter l h => exact .inl (.waiter l h)
    | holder b h => exact .inl (.holder b h)
    | issuer i h => exact (hfl i t h).imp_left (.issuer i)
    | slot h => exact (hwq t h).imp_left .slot

theorem Moves.waitFreeSlot (s : Sys) (a : ℕ) : Moves s (waitFreeSlot s a) (some a) [] := by
  unfold Resources.waitFreeSlot
  split_ifs
  · exact Moves.setQueue (fun _ _ h => .inl h) fun _ h => .inl h
  · refine Moves.setStatus (Moves.setQueue (fun _ _ h => .inl h) fun t ht => ?_) a (by simp)
    rcases mem_append.mp ht with ht | ht
    · exact .inl ht
    · exact .inr (by rw [mem_singleton.mp ht])

theorem Moves.submitReq {a : ℕ} (h : submitReq s a = some s') : Moves s s' (some a) [] := by
  unfold Resources.submitReq at h
  cases hfd : s.freeDesc with
  | nil => simp [hfd] at h
  | cons idx rest =>
    simp only [hfd, some.injEq] at h
    subst h
    refine Moves.setStatus (Moves.setQueue (fun i t ht => ?_) fun _ h => .inl h) a (by simp)
    by_cases hi : i = idx
    · subst hi
      simp only [update_self, some.injEq, Request.mk.injEq, and_true] at ht
      exact .inr (by rw [ht])
    · rw [update_of_ne hi] at ht
      exact .inl ht

theorem Moves.virtioIrqHandler {idx : Fin virtioMaxQueueSize}
    (h : virtioIrqHandler s idx = some s') : Moves s s' none [] := by
  unfold Resources.virtioIrqHandler at h
  cases hreq : s.inflight idx with
  | none => simp [hreq] at h
  | some req =>
    have hmoves : Moves s { s with
        inflight := update s.inflight idx (some { req with completed := true }) } none [] := by
      refine Moves.setQueue (fun i t ht => .inl ?_) fun _ h => .inl h
      by_cases hi : i = idx
      · subst hi
        simp at ht
      · rwa [update_of_ne hi] at ht
    simp only [hreq, some.injEq] at h
    subst h
    split_ifs
    · exact hmoves.setStatus _ (by simp)
    · exact hmoves

theorem Moves.releaseDescChain (s : Sys) (a : Option ℕ) (head : Fin virtioMaxQueueSize) :
    Moves s (releaseDescChain s head) a [] := by
  unfold Resources.releaseDescChain
  cases hw : s.slotWq with
  | nil => exact Moves.setQueue (fun _ _ h => .inl h) fun _ h => by cases h
  | cons u rest =>
    refine Moves.setStatus (Moves.setQueue (fun _ _ h => .inl h) fun t ht => .inl ?_) u (by simp)
    rw [hw]
    exact mem_cons_of_mem _ ht

theorem Moves.destroy {d : ℕ} (hd : HoldsNothing s d) : Moves s (taskDestroy s d) a [d] where
  destroyed t ht := by
    by_cases htd : t = d
    · exact .inr (by simp [htd])
    · exact .inl (by simpa [taskDestroy, htd] using ht)
  refers t ht := by
    obtain ⟨howner, hholder, hissuer⟩ := hd
    rw [mem_singleton]
    cases ht with
    | owner l h => exact ⟨.inl (.owner l h), fun heq => howner l (heq ▸ h)⟩
    | waiter l h =>
      obtain ⟨hin, hne⟩ := mem_filter.mp h
      exact ⟨.inl (.waiter l hin), by simpa using hne⟩
    | holder b h => exact ⟨.inl (.holder b h), fun heq => hholder b (heq ▸ h)⟩
    | issuer i h => exact ⟨.inl (.issuer i h), fun heq => hissuer i (heq ▸ h)⟩
    | slot h =>
      obtain ⟨hin, hne⟩ := mem_filter.mp h
      exact ⟨.inl (.slot hin), by simpa using hne⟩

theorem HoldsNothing.destroy {d e : ℕ} (h : HoldsNothing s e) : HoldsNothing (taskDestroy s d) e :=
  h

theorem Moves.exitTgid (a g : ℕ) (s : Sys) (l : List ℕ)
    (hl : ∀ d ∈ l.filter (fun p => g = s.tgid p ∧ p ≠ a), HoldsNothing s d) :
    Moves s (l.foldl (exitTgidCb a g) s) (some a) (l.filter fun p => g = s.tgid p ∧ p ≠ a) := by
  induction l generalizing s with
  | nil => exact Moves.refl s _
  | cons p l ih =>
    by_cases h : g = s.tgid p ∧ p ≠ a
    · have hcb : exitTgidCb a g s p = taskDestroy s p := if_pos h
      have hkeep := filter_cons_of_pos
        (p := fun p => decide (g = s.tgid p ∧ p ≠ a)) (l := l) (decide_eq_true h)
      rw [hkeep] at hl ⊢
      rw [foldl_cons, hcb]
      have hd : Moves s (taskDestroy s p) (some a) [p] := Moves.destroy (hl p (by simp))
      refine hd.trans (ih (taskDestroy s p) fun d hd => ?_) ?_
      · exact (hl d (mem_cons_of_mem _ hd)).destroy
      · rintro t ht
        cases ht
        simpa using h.2.symm
    · have hcb : exitTgidCb a g s p = s := if_neg h
      have hskip := filter_cons_of_neg
        (p := fun p => decide (g = s.tgid p ∧ p ≠ a)) (l := l) (by simpa using h)
      rw [hskip] at hl ⊢
      rw [foldl_cons, hcb]
      exact ih s hl

theorem Moves.spawn (s : Sys) (a : Option ℕ) (g : ℕ) : Moves s (spawnTask s g) a [] where
  refers t ht := by
    refine ⟨.inl ?_, not_mem_nil⟩
    cases ht with
    | owner l h => exact .owner l h
    | waiter l h => exact .waiter l h
    | holder b h => exact .holder b h
    | issuer i h => exact .issuer i h
    | slot h => exact .slot h
  destroyed t ht := by
    by_cases htf : t = s.fresh
    · simp [spawnTask, htf] at ht
    · exact .inl (by simpa [spawnTask, htf] using ht)

theorem Moves.of_step {op : Op} (hok : VictimsHoldNothing s op) (h : step s op = some s') :
    (∀ t, op.active = some t → s.status t = .running) ∧ Moves s s' op.active (victims s op) := by
  unfold step at h
  split_ifs at h with hact
  refine ⟨fun t ht => (hact t ht).2, ?_⟩
  cases op with
  | spawn a g => exact some.inj h ▸ Moves.spawn s _ g
  | lock a l => exact some.inj h ▸ Moves.lock s a l
  | unlock a l => exact some.inj h ▸ Moves.unlock s a l
  | takeRef a b => exact some.inj h ▸ Moves.getblkRef s a b
  | dropRef a b =>
    simp only [Op.apply] at h
    split_ifs at h
    exact some.inj h ▸ Moves.releaseRef s a b
  | waitSlot a => exact some.inj h ▸ Moves.waitFreeSlot s a
  | submit a => exact Moves.submitReq h
  | complete idx => exact Moves.virtioIrqHandler h
  | releaseDesc a head => exact some.inj h ▸ Moves.releaseDescChain s _ head
  | exit a => exact some.inj h ▸ (Moves.refl s _).setStatus a (by simp)
  | exitGroup a =>
    have hwalk := Moves.exitTgid a (s.tgid a) s s.table hok
    exact some.inj h ▸ hwalk.setStatus a (by simp)
  | reap a z =>
    simp only [Op.apply] at h
    split_ifs at h
    exact some.inj h ▸ Moves.destroy (hok z (mem_singleton.mpr rfl))

theorem Inv.of_step {op : Op} (hinv : Inv s) (hok : VictimsHoldNothing s op)
    (h : step s op = some s') : Inv s' := by
  obtain ⟨hrun, hmoves⟩ := Moves.of_step hok h
  intro t ht hdead
  obtain ⟨hold, hnot⟩ := hmoves.refers t ht
  rcases hmoves.destroyed t hdead with hwas | hds
  · rcases hold with hold | hact
    · exact hinv t hold hwas
    · rw [hrun t hact] at hwas
      cases hwas
  · exact hnot hds

end Steps

/-- In every run that destroys only tasks that hold nothing, no lock, buffer
or request is left with a destroyed task. -/
theorem resources_not_stranded {s : Sys} (h : Reaches step VictimsHoldNothing boot s) :
    Unstranded s :=
  (h.invariant Inv.boot fun _ _ _ => Inv.of_step).unstranded

def readAndExit : List Op :=
  [.spawn 0 0, .lock 1 (.inode 0), .takeRef 1 0, .lock 1 (.buffer 0), .waitSlot 1, .submit 1,
    .complete 0, .releaseDesc 1 0, .unlock 1 (.buffer 0), .dropRef 1 0, .unlock 1 (.inode 0),
    .exit 1, .reap 0 1]

theorem resources_not_stranded_readAndExit :
    ∃ s, run step boot readAndExit = some s ∧ Unstranded s := by
  have hallowed : Allowed step VictimsHoldNothing boot readAndExit := by decide +kernel
  have hrun : (run step boot readAndExit).isSome := by decide +kernel
  obtain ⟨s, hs⟩ := isSome_iff_exists.mp hrun
  exact ⟨s, hs, resources_not_stranded (Reaches.of_run readAndExit hallowed hs)⟩

/-- A thread waits for its block when the other one of its process ends the
group. -/
def exitGroupDuringRead : List Op :=
  [.spawn 0 0, .lock 1 (.inode 0), .takeRef 1 0, .lock 1 (.buffer 0), .waitSlot 1, .submit 1,
    .exitGroup 0]

/-- The destroyed thread keeps both mutexes, the buffer and the request. -/
theorem exitGroup_strands_resources :
    ∃ s, Reaches step anyAction boot s ∧ s.status 1 = .destroyed ∧
      (s.mutex (.inode 0)).owner = some 1 ∧ (s.mutex (.buffer 0)).owner = some 1 ∧
      1 ∈ s.refs 0 ∧ s.inflight 0 = some ⟨1, false⟩ := by
  have hrun : (run step boot exitGroupDuringRead).isSome := by decide +kernel
  have hfacts : ∀ s ∈ run step boot exitGroupDuringRead, s.status 1 = .destroyed ∧
      (s.mutex (.inode 0)).owner = some 1 ∧ (s.mutex (.buffer 0)).owner = some 1 ∧
      1 ∈ s.refs 0 ∧ s.inflight 0 = some ⟨1, false⟩ := by decide +kernel
  obtain ⟨s, hs⟩ := isSome_iff_exists.mp hrun
  exact ⟨s, Reaches.of_run exitGroupDuringRead (allowed_anyAction _ _) hs, hfacts s hs⟩

end RvMiniOs.Tasks.Resources
