import RvMiniOs.Bcache.Buffers
import RvMiniOs.Lib.Counting
import RvMiniOs.Lib.Runs
import Mathlib.Algebra.Order.BigOperators.Group.Finset

/-!
# Buffers shared by tasks

Any number of tasks call the block cache at the same time. A step is a section
under the cache lock, a section of a buffer's mutex, or the end of a disk
request. A task takes its reference to a slot before it asks for the slot's
mutex, and gives it back after it has unlocked it.
-/
namespace RvMiniOs.Bcache.Shared

open Lib Sync List Option

inductive Phase where
  | outside
  | locking (b : ℕ) (i : Fin nbuf) (read : Bool)
  | waiting (b : ℕ) (i : Fin nbuf) (read : Bool)
  | locked (b : ℕ) (i : Fin nbuf) (read : Bool)
  | fetching (b : ℕ) (i : Fin nbuf)
  | releasing (i : Fin nbuf)
  deriving DecidableEq, Repr

structure Task where
  phase : Phase
  holds : List (ℕ × Fin nbuf)

structure Sys where
  cache : Cache
  task : ℕ → Task

def Sys.setTask (s : Sys) (t : ℕ) (k : Task) : Sys :=
  { s with task := Function.update s.task t k }

def Sys.setMutex (s : Sys) (i : Fin nbuf) (m : Mutex) : Sys :=
  { s with cache := s.cache.modify i fun k => { k with m } }

def Phase.wake : Phase → Phase
  | .waiting b i read => .locked b i read
  | p => p

def unlockSlot (s : Sys) (a : ℕ) (i : Fin nbuf) (holds : List (ℕ × Fin nbuf)) : Sys :=
  let u := mutexUnlock (s.cache.buf i).m a
  let s := (s.setMutex i u.2).setTask a ⟨.releasing i, holds⟩
  match u.1 with
  | none => s
  | some t => s.setTask t { s.task t with phase := (s.task t).phase.wake }

def returned (s : Sys) (a b : ℕ) (i : Fin nbuf) : Sys :=
  s.setTask a ⟨.outside, (b, i) :: (s.task a).holds⟩

inductive Op where
  | getblk (a b : ℕ) (read : Bool)
  | lock (a : ℕ)
  | test (a : ℕ)
  | fetched (a : ℕ) (res : ℤ)
  | markDirty (a b : ℕ) (i : Fin nbuf)
  | release (a b : ℕ) (i : Fin nbuf)
  | drop (a : ℕ)
  | invalidate (a b : ℕ)
  deriving DecidableEq, Repr

def Op.active : Op → ℕ
  | .getblk a _ _ | .lock a | .test a | .fetched a _ | .markDirty a _ _ | .release a _ _ | .drop a
  | .invalidate a _ => a

def Op.apply (s : Sys) : Op → Option Sys
  | .getblk a b read =>
    if (s.task a).phase = .outside then
      (getblkLocked s.cache b).map fun (i, cache) =>
        { s with cache }.setTask a { s.task a with phase := .locking b i read }
    else none
  | .lock a =>
    match (s.task a).phase with
    | .locking b i read =>
      match mutexLock (s.cache.buf i).m a with
      | (true, m) => some ((s.setMutex i m).setTask a { s.task a with phase := .waiting b i read })
      | (false, m) => some ((s.setMutex i m).setTask a { s.task a with phase := .locked b i read })
    | _ => none
  | .test a =>
    match (s.task a).phase with
    | .locked b i read =>
      if read && !(s.cache.buf i).valid then
        some (s.setTask a { s.task a with phase := .fetching b i })
      else some (returned s a b i)
    | _ => none
  | .fetched a res =>
    match (s.task a).phase with
    | .fetching b i =>
      if res < 0 then some (unlockSlot s a i (s.task a).holds)
      else
        some (returned { s with cache := s.cache.modify i fun k => { k with valid := true } } a b i)
    | _ => none
  | .markDirty a b i =>
    if (s.task a).phase = .outside ∧ (b, i) ∈ (s.task a).holds then
      some { s with cache := bcacheMarkDirty s.cache i }
    else none
  | .release a b i =>
    if (s.task a).phase = .outside ∧ (b, i) ∈ (s.task a).holds then
      some (unlockSlot s a i ((s.task a).holds.erase (b, i)))
    else none
  | .drop a =>
    match (s.task a).phase with
    | .releasing i =>
      some ({ s with cache := dropLocked s.cache i }.setTask a { s.task a with phase := .outside })
    | _ => none
  | .invalidate a b =>
    if (s.task a).phase = .outside then some { s with cache := bcacheInvalidate s.cache b } else none

def step (T : Finset ℕ) (s : Sys) (op : Op) : Option Sys :=
  if op.active ∈ T then op.apply s else none

def initial : Sys where
  cache := bcacheInit
  task := fun _ => ⟨.outside, []⟩

def Settled (s : Sys) : Op → Prop
  | .getblk _ b _ => b ≠ uint32Max
  | .invalidate _ b => ∀ i, (s.cache.buf i).blkno = b → (s.cache.buf i).refcnt = 0
  | _ => True

instance (s : Sys) : (op : Op) → Decidable (Settled s op)
  | .getblk _ b _ => inferInstanceAs (Decidable (b ≠ uint32Max))
  | .invalidate _ b =>
    inferInstanceAs (Decidable (∀ i, (s.cache.buf i).blkno = b → (s.cache.buf i).refcnt = 0))
  | .lock _ | .test _ | .fetched _ _ | .markDirty _ _ _ | .release _ _ _ | .drop _ =>
    inferInstanceAs (Decidable True)

def Phase.claim : Phase → Option (ℕ × Fin nbuf)
  | .locking b i _ | .waiting b i _ | .locked b i _ | .fetching b i => some (b, i)
  | .outside | .releasing _ => none

def Phase.slot : Phase → Option (Fin nbuf)
  | .locking _ i _ | .waiting _ i _ | .locked _ i _ | .fetching _ i | .releasing i => some i
  | .outside => none

def Phase.owns : Phase → Option (Fin nbuf)
  | .locked _ i _ | .fetching _ i => some i
  | .outside | .locking _ _ _ | .waiting _ _ _ | .releasing _ => none

def Phase.waitsFor : Phase → Option (Fin nbuf)
  | .waiting _ i _ => some i
  | _ => none

@[simp] theorem waitsFor_releasing (i : Fin nbuf) : (Phase.releasing i).waitsFor = none := rfl

namespace Task

def refs (k : Task) : List (Fin nbuf) := k.holds.map Prod.snd ++ k.phase.slot.toList

def owned (k : Task) : List (Fin nbuf) := k.holds.map Prod.snd ++ k.phase.owns.toList

def claims (k : Task) : List (ℕ × Fin nbuf) := k.holds ++ k.phase.claim.toList

end Task

variable (T : Finset ℕ)

structure MutexOk (s : Sys) (i : Fin nbuf) : Prop where
  consistent : (s.cache.buf i).m.Consistent
  owner_iff : ∀ t ∈ T, (s.cache.buf i).m.owner = some t ↔ i ∈ (s.task t).owned
  owner_mem : ∀ t, (s.cache.buf i).m.owner = some t → t ∈ T
  wq_nodup : (s.cache.buf i).m.wq.Nodup
  wq_iff : ∀ t, t ∈ (s.cache.buf i).m.wq ↔ t ∈ T ∧ (s.task t).phase.waitsFor = some i

structure Inv (s : Sys) : Prop where
  listed : Listed s.cache
  labelled : Labelled s.cache
  refcnt : ∀ i, (s.cache.buf i).refcnt = ∑ t ∈ T, (s.task t).refs.count i
  label : ∀ t ∈ T, ∀ p ∈ (s.task t).claims, (s.cache.buf p.2).blkno = p.1 ∧ p.1 ≠ uint32Max
  owned_nodup : ∀ t ∈ T, (s.task t).owned.Nodup
  mutex : ∀ i, MutexOk T s i

theorem inv_initial : Inv T initial where
  listed := listed_init
  labelled := labelled_init
  refcnt := by simp [initial, bcacheInit, Task.refs, Phase.slot]
  label := by simp [initial, Task.claims, Phase.claim]
  owned_nodup := by simp [initial, Task.owned, Phase.owns]
  mutex := fun i => ⟨mutexInit_consistent, by simp [initial, bcacheInit, mutexInit, Task.owned,
    Phase.owns], by simp [initial, bcacheInit, mutexInit], by simp [initial, bcacheInit, mutexInit],
    by simp [initial, bcacheInit, mutexInit, Phase.waitsFor]⟩

variable {T} {s s' : Sys} {a : ℕ}

theorem MutexOk.congr {i : Fin nbuf} (h : MutexOk T s i) (hm : (s'.cache.buf i).m = (s.cache.buf i).m)
    (howned : ∀ t ∈ T, i ∈ (s'.task t).owned ↔ i ∈ (s.task t).owned)
    (hwaits : ∀ t ∈ T, (s'.task t).phase.waitsFor = some i ↔ (s.task t).phase.waitsFor = some i) :
    MutexOk T s' i where
  consistent := hm ▸ h.consistent
  owner_iff := fun t ht => by rw [hm, h.owner_iff t ht, howned t ht]
  owner_mem := fun t => by
    rw [hm]
    exact h.owner_mem t
  wq_nodup := hm ▸ h.wq_nodup
  wq_iff := fun t => by
    rw [hm, h.wq_iff t]
    exact and_congr_right fun ht => (hwaits t ht).symm

namespace Inv

theorem refcnt_pos (h : Inv T s) (ha : a ∈ T) {i : Fin nbuf} (hi : i ∈ (s.task a).refs) :
    0 < (s.cache.buf i).refcnt := by
  rw [h.refcnt i]
  have hone : 0 < (s.task a).refs.count i := count_pos_iff.mpr hi
  have hle := Finset.single_le_sum (f := fun t => (s.task t).refs.count i)
    (fun _ _ => Nat.zero_le _) ha
  exact hone.trans_le hle

end Inv

theorem mem_refs_of_claim {k : Task} {p : ℕ × Fin nbuf} (h : p ∈ k.claims) : p.2 ∈ k.refs := by
  rcases mem_append.mp h with hheld | hphase
  · exact mem_append_left _ (mem_map_of_mem hheld)
  · refine mem_append_right _ ?_
    cases hp : k.phase <;> simp_all [Phase.claim, Phase.slot]

@[simp] theorem setTask_cache (k : Task) : (s.setTask a k).cache = s.cache := rfl

@[simp] theorem setTask_self (k : Task) : (s.setTask a k).task a = k := by
  simp [Sys.setTask]

theorem setTask_of_ne {t : ℕ} (h : t ≠ a) (k : Task) : (s.setTask a k).task t = s.task t := by
  simp [Sys.setTask, h]

@[simp] theorem setMutex_task (i : Fin nbuf) (m : Mutex) : (s.setMutex i m).task = s.task := rfl

structure Accounted (T : Finset ℕ) (s s' : Sys) (a : ℕ) : Prop where
  listed : Listed s'.cache
  labelled : Labelled s'.cache
  keeps : ∀ i, 0 < (s.cache.buf i).refcnt → (s'.cache.buf i).blkno = (s.cache.buf i).blkno
  claims : ∀ t ∈ T, ∀ p ∈ (s'.task t).claims,
    p ∈ (s.task t).claims ∨ (s'.cache.buf p.2).blkno = p.1 ∧ p.1 ≠ uint32Max
  others : ∀ t ∈ T, t ≠ a → (s'.task t).refs = (s.task t).refs
  counted : ∀ i, (s'.cache.buf i).refcnt + (s.task a).refs.count i =
    (s.cache.buf i).refcnt + (s'.task a).refs.count i

structure Quiet (T : Finset ℕ) (s s' : Sys) : Prop where
  m : ∀ i, (s'.cache.buf i).m = (s.cache.buf i).m
  owned : ∀ t ∈ T, (s'.task t).owned.Perm (s.task t).owned
  waits : ∀ t ∈ T, (s'.task t).phase.waitsFor = (s.task t).phase.waitsFor

theorem Accounted.inv (h : Inv T s) (ha : a ∈ T) (hacc : Accounted T s s' a)
    (hnodup : ∀ t ∈ T, (s'.task t).owned.Nodup) (hmutex : ∀ i, MutexOk T s' i) : Inv T s' where
  listed := hacc.listed
  labelled := hacc.labelled
  refcnt := fun i => by
    have hsum := sum_change (f := fun t => (s'.task t).refs.count i)
      (g := fun t => (s.task t).refs.count i) ha fun t ht hne => by rw [hacc.others t ht hne]
    have hone := hacc.counted i
    have hold := h.refcnt i
    omega
  label := fun t ht p hp => by
    rcases hacc.claims t ht p hp with hold | hnew
    · have hlabel := h.label t ht p hold
      have huse := h.refcnt_pos ht (mem_refs_of_claim hold)
      exact ⟨(hacc.keeps p.2 huse).trans hlabel.1, hlabel.2⟩
    · exact hnew
  owned_nodup := hnodup
  mutex := hmutex

theorem Quiet.inv (h : Inv T s) (ha : a ∈ T) (hacc : Accounted T s s' a) (hq : Quiet T s s') :
    Inv T s' := by
  refine hacc.inv h ha (fun t ht => (hq.owned t ht).nodup_iff.mpr (h.owned_nodup t ht)) fun i => ?_
  refine (h.mutex i).congr (hq.m i) (fun t ht => (hq.owned t ht).mem_iff) fun t ht => ?_
  rw [hq.waits t ht]

theorem forall_setTask {P : ℕ → Task → Prop} {k : Task} (hself : P a k)
    (hrest : ∀ t ∈ T, t ≠ a → P t (s.task t)) : ∀ t ∈ T, P t ((s.setTask a k).task t) := by
  intro t ht
  rcases eq_or_ne t a with rfl | hne
  · rwa [setTask_self]
  · rw [setTask_of_ne hne]
    exact hrest t ht hne

structure SameSlots (k k' : Task) : Prop where
  refs : k'.refs.Perm k.refs
  owned : k'.owned.Perm k.owned
  claims : k'.claims.Perm k.claims
  waits : k'.phase.waitsFor = k.phase.waitsFor

theorem sameSlots_refl (k : Task) : SameSlots k k := ⟨.refl _, .refl _, .refl _, rfl⟩

theorem SameSlots.inv (h : Inv T s) (ha : a ∈ T) {c : Cache} {k : Task}
    (hk : SameSlots (s.task a) k) (hlist : c.bufList = s.cache.bufList)
    (hblkno : ∀ i, (c.buf i).blkno = (s.cache.buf i).blkno)
    (hrefcnt : ∀ i, (c.buf i).refcnt = (s.cache.buf i).refcnt)
    (hm : ∀ i, (c.buf i).m = (s.cache.buf i).m) :
    Inv T ({ s with cache := c }.setTask a k) := by
  refine Quiet.inv (a := a) h ha ⟨?_, ?_, fun i _ => hblkno i, ?_, ?_, ?_⟩ ⟨hm, ?_, ?_⟩
  · have hl := h.listed
    rw [Listed, ← hlist] at hl
    exact hl
  · intro i j hij hne
    rw [setTask_cache, hblkno, hblkno] at hij
    rw [setTask_cache, hblkno] at hne
    exact h.labelled i j hij hne
  · have hsub := forall_setTask (T := T) (s := { s with cache := c })
      (P := fun t k' => ∀ p ∈ k'.claims, p ∈ (s.task t).claims)
      (fun p hp => hk.claims.mem_iff.mp hp) fun t _ _ p hp => hp
    exact fun t ht p hp => .inl (hsub t ht p hp)
  · intro t _ hne
    rw [setTask_of_ne hne]
  · intro i
    rw [setTask_self, setTask_cache, hrefcnt, hk.refs.count_eq]
  · exact forall_setTask (P := fun t k' => k'.owned.Perm (s.task t).owned) hk.owned
      fun t _ _ => .refl _
  · exact forall_setTask (P := fun t k' => k'.phase.waitsFor = (s.task t).phase.waitsFor) hk.waits
      fun t _ _ => rfl

theorem slots_of_outside {k : Task} (hphase : k.phase = .outside) :
    k.refs = k.holds.map Prod.snd ∧ k.owned = k.holds.map Prod.snd ∧ k.claims = k.holds := by
  simp [Task.refs, Task.owned, Task.claims, hphase, Phase.slot, Phase.owns, Phase.claim]

theorem inv_getblk (h : Inv T s) (ha : a ∈ T) {b : ℕ} {i : Fin nbuf} {c : Cache} {read : Bool}
    (hb : b ≠ uint32Max) (hphase : (s.task a).phase = .outside)
    (hget : getblkLocked s.cache b = some (i, c)) :
    Inv T ({ s with cache := c }.setTask a { s.task a with phase := .locking b i read }) := by
  obtain ⟨hrefs, howned, hclaims⟩ := slots_of_outside hphase
  -- what a hit and a miss have in common
  obtain ⟨f, rfl, hf, hblkno, hother⟩ : ∃ f : Cblk → Cblk, c = s.cache.modify i f ∧
      ((f (s.cache.buf i)).refcnt = (s.cache.buf i).refcnt + 1 ∧
        (f (s.cache.buf i)).m = (s.cache.buf i).m) ∧ (f (s.cache.buf i)).blkno = b ∧
      ((s.cache.buf i).blkno = b ∨ (s.cache.buf i).refcnt = 0 ∧ ∀ j, (s.cache.buf j).blkno ≠ b) := by
    rcases getblkLocked_cases h.listed hget with ⟨hhit, hc⟩ | ⟨hmiss, hidle, -, hc⟩
    · exact ⟨_, hc, ⟨rfl, rfl⟩, hhit, .inl hhit⟩
    · exact ⟨_, hc, ⟨rfl, rfl⟩, rfl, .inr ⟨hidle, hmiss⟩⟩
  refine Quiet.inv (a := a) h ha ⟨h.listed.modify _, ?_, ?_, ?_, ?_, ?_⟩ ⟨?_, ?_, ?_⟩
  · rcases hother with hhit | ⟨-, hmiss⟩
    · exact h.labelled.modify (hblkno.trans hhit.symm)
    · exact h.labelled.relabel (.inr fun j _ => hblkno.symm ▸ hmiss j)
  · intro j hj
    simp only [setTask_cache, Cache.modify_apply]
    split_ifs with hji
    · subst hji
      rcases hother with hhit | ⟨hidle, -⟩
      · exact hblkno.trans hhit.symm
      · omega
    · rfl
  · intro t ht p hp
    rcases eq_or_ne t a with rfl | hne
    · rw [setTask_self] at hp
      rcases mem_append.mp hp with hheld | hnew
      · exact .inl (hclaims ▸ hheld)
      · obtain rfl : p = (b, i) := by simpa [Phase.claim] using hnew
        exact .inr ⟨by simpa using hblkno, hb⟩
    · rw [setTask_of_ne hne] at hp
      exact .inl hp
  · intro t _ hne
    rw [setTask_of_ne hne]
  · intro j
    rw [setTask_self, setTask_cache, Cache.modify_apply, hrefs]
    simp only [Task.refs, Phase.slot, toList_some, count_append, count_singleton]
    rcases eq_or_ne j i with rfl | hji
    · simp only [if_true, beq_self_eq_true, hf.1]
      omega
    · simp [hji, hji.symm]
  · exact fun j => Cache.modify_field s.cache i j _ Cblk.m hf.2
  · exact forall_setTask (P := fun t k' => k'.owned.Perm (s.task t).owned)
      (by simp [Task.owned, Phase.owns, hphase]) fun t _ _ => .refl _
  · exact forall_setTask (P := fun t k' => k'.phase.waitsFor = (s.task t).phase.waitsFor)
      (by simp [Phase.waitsFor, hphase]) fun t _ _ => rfl

theorem inv_drop (h : Inv T s) (ha : a ∈ T) {i : Fin nbuf}
    (hphase : (s.task a).phase = .releasing i) :
    Inv T ({ s with cache := dropLocked s.cache i }.setTask a { s.task a with phase := .outside }) := by
  have hmem : i ∈ (s.task a).refs := by simp [Task.refs, hphase, Phase.slot]
  have huse := h.refcnt_pos ha hmem
  have hblkno : ∀ j, ((dropLocked s.cache i).buf j).blkno = (s.cache.buf j).blkno :=
    fun j => Cache.modify_field s.cache i j (fun k => { k with refcnt := k.refcnt - 1 })
      Cblk.blkno rfl
  have hm : ∀ j, ((dropLocked s.cache i).buf j).m = (s.cache.buf j).m :=
    fun j => Cache.modify_field s.cache i j (fun k => { k with refcnt := k.refcnt - 1 }) Cblk.m rfl
  refine Quiet.inv (a := a) h ha ⟨h.listed.drop, ?_, fun j _ => hblkno j, ?_, ?_, ?_⟩ ⟨hm, ?_, ?_⟩
  · intro j k hjk hne
    rw [setTask_cache, hblkno, hblkno] at hjk
    rw [setTask_cache, hblkno] at hne
    exact h.labelled j k hjk hne
  · intro t ht p hp
    rcases eq_or_ne t a with rfl | hne
    · rw [setTask_self] at hp
      exact .inl (by simpa [Task.claims, Phase.claim, hphase] using hp)
    · rw [setTask_of_ne hne] at hp
      exact .inl hp
  · intro t _ hne
    rw [setTask_of_ne hne]
  · intro j
    rw [setTask_self, setTask_cache, dropLocked_buf, Cache.modify_apply]
    simp only [Task.refs, hphase, Phase.slot, toList_some, toList_none,
      append_nil, count_append, count_singleton]
    rcases eq_or_ne j i with rfl | hji
    · simp only [if_true, beq_self_eq_true]
      omega
    · simp [hji, hji.symm]
  · exact forall_setTask (P := fun t k' => k'.owned.Perm (s.task t).owned)
      (by simp [Task.owned, Phase.owns, hphase]) fun t _ _ => .refl _
  · exact forall_setTask (P := fun t k' => k'.phase.waitsFor = (s.task t).phase.waitsFor)
      (by simp [Phase.waitsFor, hphase]) fun t _ _ => rfl

theorem inv_invalidate (h : Inv T s) (ha : a ∈ T) {b : ℕ}
    (hidle : ∀ i, (s.cache.buf i).blkno = b → (s.cache.buf i).refcnt = 0) :
    Inv T { s with cache := bcacheInvalidate s.cache b } := by
  rcases bcacheInvalidate_cases h.listed b with ⟨i, hi, hc⟩ | ⟨-, hc⟩
  · rw [hc]
    let f : Cblk → Cblk := fun k => { k with dirty := false, valid := false, blkno := uint32Max }
    have hlabelled : Labelled (s.cache.modify i f) := h.labelled.relabel (.inl rfl)
    have hm : ∀ j, ((s.cache.modify i f).buf j).m = (s.cache.buf j).m :=
      fun j => Cache.modify_field s.cache i j f Cblk.m rfl
    refine Quiet.inv (a := a) h ha ⟨h.listed.modify _, hlabelled, ?_, fun _ _ p hp => .inl hp,
      fun _ _ _ => rfl, fun j => ?_⟩ ⟨hm, fun _ _ => .refl _, fun _ _ => rfl⟩
    · intro j hj
      rw [Cache.modify_of_ne]
      rintro rfl
      have := hidle j hi
      omega
    · exact congrArg (· + _) (Cache.modify_field s.cache i j f Cblk.refcnt rfl)
  · rw [hc]
    exact h

theorem setMutex_buf (i j : Fin nbuf) (m : Mutex) :
    ((s.setMutex i m).cache.buf j).m = if j = i then m else (s.cache.buf j).m := by
  simp only [Sys.setMutex, Cache.modify_apply]
  split_ifs <;> rfl

theorem setMutex_blkno (i j : Fin nbuf) (m : Mutex) :
    ((s.setMutex i m).cache.buf j).blkno = (s.cache.buf j).blkno :=
  Cache.modify_field s.cache i j (fun k => { k with m }) Cblk.blkno rfl

theorem setMutex_refcnt (i j : Fin nbuf) (m : Mutex) :
    ((s.setMutex i m).cache.buf j).refcnt = (s.cache.buf j).refcnt :=
  Cache.modify_field s.cache i j (fun k => { k with m }) Cblk.refcnt rfl

theorem accounted_setMutex (h : Inv T s) (i : Fin nbuf) (m : Mutex) (htask : ∀ t ∈ T,
      (s'.task t).claims ⊆ (s.task t).claims ∧ (t ≠ a → (s'.task t).refs = (s.task t).refs))
    (hrefs : (s'.task a).refs.Perm (s.task a).refs)
    (hcache : s'.cache = (s.setMutex i m).cache) : Accounted T s s' a where
  listed := by
    rw [hcache]
    exact h.listed.modify _
  labelled := fun j k hjk hne => by
    rw [hcache, setMutex_blkno, setMutex_blkno] at hjk
    rw [hcache, setMutex_blkno] at hne
    exact h.labelled j k hjk hne
  keeps := fun j _ => by rw [hcache, setMutex_blkno]
  claims := fun t ht p hp => .inl ((htask t ht).1 hp)
  others := fun t ht => (htask t ht).2
  counted := fun j => by
    rw [hcache, setMutex_refcnt, hrefs.count_eq]

theorem inv_section (h : Inv T s) (ha : a ∈ T) {i : Fin nbuf} {m : Mutex} {k : Task}
    (hclaims : k.claims ⊆ (s.task a).claims) (hrefs : k.refs.Perm (s.task a).refs) (hnodup : k.owned.Nodup)
    (howned : ∀ j, j ≠ i → (j ∈ k.owned ↔ j ∈ (s.task a).owned))
    (hwaits : ∀ j, j ≠ i → (k.phase.waitsFor = some j ↔ (s.task a).phase.waitsFor = some j))
    (hm : m.Consistent) (hself : m.owner = some a ↔ i ∈ k.owned)
    (howner : ∀ t ∈ T, t ≠ a → (m.owner = some t ↔ i ∈ (s.task t).owned))
    (hmem : ∀ t, m.owner = some t → t ∈ T) (hwq : m.wq.Nodup)
    (hwait : a ∈ m.wq ↔ k.phase.waitsFor = some i)
    (hother : ∀ t, t ≠ a → (t ∈ m.wq ↔ t ∈ (s.cache.buf i).m.wq)) : Inv T ((s.setMutex i m).setTask a k) := by
  refine Accounted.inv h ha (accounted_setMutex h i m ?_ (by simpa using hrefs) rfl) ?_ fun j => ?_
  · exact forall_setTask (P := fun t k => k.claims ⊆ (s.task t).claims ∧ (t ≠ a → k.refs = (s.task t).refs))
      ⟨hclaims, fun hne => absurd rfl hne⟩ fun t _ _ => ⟨fun _ hp => hp, fun _ => rfl⟩
  · exact forall_setTask (P := fun _ k => k.owned.Nodup) hnodup fun t ht _ => h.owned_nodup t ht
  · rcases eq_or_ne j i with rfl | hji
    · refine ⟨?_, ?_, ?_, ?_, fun t => ?_⟩ <;> simp only [setTask_cache, setMutex_buf, if_true]
      · exact hm
      · exact forall_setTask (P := fun t k => m.owner = some t ↔ j ∈ k.owned) hself howner
      · exact hmem
      · exact hwq
      · rcases eq_or_ne t a with rfl | hne
        · rw [setTask_self, hwait]
          exact (and_iff_right ha).symm
        · rw [setTask_of_ne hne, setMutex_task, hother t hne]
          exact (h.mutex j).wq_iff t
    · refine (h.mutex j).congr (by simp [setMutex_buf, hji]) ?_ ?_
      · exact forall_setTask (P := fun t k => j ∈ k.owned ↔ j ∈ (s.task t).owned) (howned j hji)
          fun t _ _ => Iff.rfl
      · exact forall_setTask (P := fun t k => k.phase.waitsFor = some j ↔ (s.task t).phase.waitsFor = some j)
          (hwaits j hji) fun t _ _ => Iff.rfl

theorem inv_acquire (h : Inv T s) (ha : a ∈ T) {b : ℕ} {i : Fin nbuf} {read : Bool}
    (hphase : (s.task a).phase = .locking b i read) (hfree : (s.cache.buf i).m.locked = false) :
    Inv T ((s.setMutex i { (s.cache.buf i).m with locked := true, owner := some a }).setTask a
      { s.task a with phase := .locked b i read }) := by
  have hi := h.mutex i
  have hnone := hi.consistent.free_iff.mp hfree
  have hwq := hi.consistent.wq_of_free hfree
  have hout : ∀ t ∈ T, i ∉ (s.task t).owned := fun t ht hmem => by
    have := (hi.owner_iff t ht).mpr hmem
    simp [hnone] at this
  have hnew : ({ s.task a with phase := .locked b i read } : Task).owned =
      (s.task a).owned ++ [i] := by
    simp [Task.owned, hphase, Phase.owns]
  refine inv_section h ha (by simp [Task.claims, hphase, Phase.claim]) (by simp [Task.refs, hphase, Phase.slot])
    ?_ (fun j hji => by simp [hnew, hji]) (fun j _ => by simp [hphase, Phase.waitsFor]) .acquired
    (by simp [hnew]) (fun t ht hne => ?_) ?_ hi.wq_nodup ?_ fun _ _ => Iff.rfl
  · rw [hnew]
    exact nodup_append'.mpr ⟨h.owned_nodup a ha, nodup_singleton i, by simpa using hout a ha⟩
  · exact ⟨fun hat => absurd (some.inj hat).symm hne, fun hmem => absurd hmem (hout t ht)⟩
  · rintro t ⟨⟩
    exact ha
  · simp [hwq, Phase.waitsFor]

theorem inv_enqueue (h : Inv T s) (ha : a ∈ T) {b : ℕ} {i : Fin nbuf} {read : Bool}
    (hphase : (s.task a).phase = .locking b i read) (htaken : (s.cache.buf i).m.locked = true) :
    Inv T ((s.setMutex i { (s.cache.buf i).m with wq := (s.cache.buf i).m.wq ++ [a] }).setTask a
      { s.task a with phase := .waiting b i read }) := by
  have hi := h.mutex i
  have hnew : ({ s.task a with phase := .waiting b i read } : Task).owned = (s.task a).owned := by
    simp [Task.owned, hphase, Phase.owns]
  have hnot : a ∉ (s.cache.buf i).m.wq := fun hmem => by
    simpa [hphase, Phase.waitsFor] using ((hi.wq_iff a).mp hmem).2
  refine inv_section h ha (by simp [Task.claims, hphase, Phase.claim]) (by simp [Task.refs, hphase, Phase.slot])
    (hnew ▸ h.owned_nodup a ha) (fun j _ => by rw [hnew])
    (fun j hji => by simp [hphase, Phase.waitsFor, hji.symm]) (hi.consistent.enqueued htaken) ?_
    (fun t ht _ => hi.owner_iff t ht) hi.owner_mem ?_ (by simp [Phase.waitsFor]) fun t hne => by simp [hne]
  · rw [hnew]
    exact hi.owner_iff a ha
  · exact nodup_append'.mpr ⟨hi.wq_nodup, nodup_singleton a, by simpa using hnot⟩

structure Unlocks (s : Sys) (a : ℕ) (i : Fin nbuf) (holds : List (ℕ × Fin nbuf)) : Prop where
  owned : (s.task a).owned.Perm (i :: holds.map Prod.snd)
  refs : (s.task a).refs.Perm (i :: holds.map Prod.snd)
  claims : holds ⊆ (s.task a).claims
  waits : (s.task a).phase.waitsFor = none

namespace Unlocks

variable {i : Fin nbuf} {holds : List (ℕ × Fin nbuf)}

variable (hu : Unlocks s a i holds)
include hu

theorem refs_releasing :
    (⟨.releasing i, holds⟩ : Task).refs.Perm (s.task a).refs := by
  refine Perm.trans ?_ hu.refs.symm
  simp [Task.refs, Phase.slot]

theorem owned_releasing {j : Fin nbuf} (hji : j ≠ i) :
    j ∈ (⟨.releasing i, holds⟩ : Task).owned ↔ j ∈ (s.task a).owned := by
  rw [hu.owned.mem_iff]
  simp [Task.owned, Phase.owns, hji]

variable (h : Inv T s) (ha : a ∈ T)
include h ha

theorem owner : (s.cache.buf i).m.owner = some a :=
  ((h.mutex i).owner_iff a ha).mpr (hu.owned.mem_iff.mpr mem_cons_self)

theorem nodup : (i :: holds.map Prod.snd).Nodup :=
  hu.owned.nodup_iff.mp (h.owned_nodup a ha)

theorem not_owned_releasing :
    i ∉ (⟨.releasing i, holds⟩ : Task).owned := by
  simpa [Task.owned, Phase.owns] using (nodup_cons.mp (hu.nodup h ha)).1

theorem nodup_releasing :
    (⟨.releasing i, holds⟩ : Task).owned.Nodup := by
  simpa [Task.owned, Phase.owns] using (nodup_cons.mp (hu.nodup h ha)).2

theorem inv_free (hwq : (s.cache.buf i).m.wq = []) :
    Inv T ((s.setMutex i { (s.cache.buf i).m with locked := false, owner := none }).setTask a
      ⟨.releasing i, holds⟩) := by
  have hi := h.mutex i
  have howner := hu.owner h ha
  refine inv_section h ha (by simpa [Task.claims, Phase.claim] using hu.claims) hu.refs_releasing
    (hu.nodup_releasing h ha) (fun j hji => hu.owned_releasing hji) (fun j _ => by simp [hu.waits])
    (Mutex.Consistent.released hwq) ?_ (fun t ht hne => ?_) (by simp) hi.wq_nodup (by simp [hwq])
    fun _ _ => Iff.rfl
  · simpa using hu.not_owned_releasing h ha
  · rw [← hi.owner_iff t ht, howner]
    simp [hne.symm]

theorem inv_handOver {w b : ℕ}
    {wq : List ℕ} {read : Bool} (hwq : (s.cache.buf i).m.wq = w :: wq) (hwa : w ≠ a)
    (hphase : (s.task w).phase = .waiting b i read) :
    Inv T (((s.setMutex i { (s.cache.buf i).m with owner := some w, wq }).setTask a
      ⟨.releasing i, holds⟩).setTask w { s.task w with phase := .locked b i read }) := by
  have hi := h.mutex i
  have howner := hu.owner h ha
  have hw : w ∈ T := ((hi.wq_iff w).mp (by simp [hwq])).1
  have hwq_nodup : w ∉ wq ∧ wq.Nodup := nodup_cons.mp (hwq ▸ hi.wq_nodup)
  have hnot : i ∉ (s.task w).owned := fun hmem => by
    have := (hi.owner_iff w hw).mpr hmem
    rw [howner, some.injEq] at this
    exact hwa this.symm
  have hnew : ({ s.task w with phase := .locked b i read } : Task).owned =
      (s.task w).owned ++ [i] := by
    simp [Task.owned, hphase, Phase.owns]
  -- the two tasks that change, then the rest
  have hsplit : ∀ {P : ℕ → Task → Prop}, P w { s.task w with phase := .locked b i read } →
      P a ⟨.releasing i, holds⟩ → (∀ t ∈ T, t ≠ a → t ≠ w → P t (s.task t)) →
      ∀ t ∈ T, P t ((((s.setMutex i { (s.cache.buf i).m with owner := some w, wq }).setTask a
        ⟨.releasing i, holds⟩).setTask w { s.task w with phase := .locked b i read }).task t) := by
    intro P hPw hPa hrest
    refine forall_setTask hPw fun t ht htw => ?_
    rcases eq_or_ne t a with rfl | hta
    · rwa [setTask_self]
    · rw [setTask_of_ne hta]
      exact hrest t ht hta htw
  refine Accounted.inv h ha (accounted_setMutex h i _ ?_ ?_ rfl) ?_ fun j => ?_
  · refine hsplit (P := fun t k => k.claims ⊆ (s.task t).claims ∧
      (t ≠ a → k.refs = (s.task t).refs)) ?_ ?_ fun t _ _ _ => ⟨fun _ hp => hp, fun _ => rfl⟩
    · simp [Task.claims, Task.refs, hphase, Phase.claim, Phase.slot]
    · exact ⟨by simpa [Task.claims, Phase.claim] using hu.claims, fun hne => absurd rfl hne⟩
  · rw [setTask_of_ne hwa.symm, setTask_self]
    exact hu.refs_releasing
  · refine hsplit (P := fun _ k => k.owned.Nodup) ?_ (hu.nodup_releasing h ha)
      fun t ht _ _ => h.owned_nodup t ht
    rw [hnew]
    exact nodup_append'.mpr ⟨h.owned_nodup w hw, nodup_singleton i, by simpa using hnot⟩
  · rcases eq_or_ne j i with rfl | hji
    · refine ⟨?_, ?_, ?_, ?_, ?_⟩
      · simp only [setTask_cache, setMutex_buf, if_true]
        exact Mutex.Consistent.handedOver (hi.consistent.locked_of_owner howner)
      · simp only [setTask_cache, setMutex_buf, if_true, some.injEq]
        refine hsplit (P := fun t k => w = t ↔ j ∈ k.owned) ?_ ?_ fun t ht hta htw => ?_
        · simp [hnew]
        · simpa [hwa] using hu.not_owned_releasing h ha
        · rw [← hi.owner_iff t ht, howner]
          simp [hta.symm, htw.symm]
      · simp only [setTask_cache, setMutex_buf, if_true, some.injEq]
        rintro t rfl
        exact hw
      · simpa [setMutex_buf] using hwq_nodup.2
      · intro t
        simp only [setTask_cache, setMutex_buf, if_true]
        have hold := hi.wq_iff t
        rw [hwq, mem_cons] at hold
        rcases eq_or_ne t w with rfl | htw
        · simp [hwq_nodup.1, Phase.waitsFor]
        · rcases eq_or_ne t a with rfl | hta
          · rw [setTask_of_ne htw, setTask_self]
            simpa [htw, hu.waits] using hold
          · rw [setTask_of_ne htw, setTask_of_ne hta, setMutex_task]
            simpa [htw] using hold
    · refine (h.mutex j).congr (by simp [setMutex_buf, hji]) ?_ ?_
      · refine hsplit (P := fun t k => j ∈ k.owned ↔ j ∈ (s.task t).owned) ?_
          (hu.owned_releasing hji) fun t _ _ _ => Iff.rfl
        simp [hnew, hji]
      · refine hsplit (P := fun t k => k.phase.waitsFor = some j ↔
          (s.task t).phase.waitsFor = some j) ?_ ?_ fun t _ _ _ => Iff.rfl
        · simp [hphase, Phase.waitsFor, hji.symm]
        · simp [hu.waits]

theorem inv : Inv T (unlockSlot s a i holds) := by
  have hi := h.mutex i
  have howner := hu.owner h ha
  cases hwq : (s.cache.buf i).m.wq with
  | nil =>
    simp only [unlockSlot, hi.consistent.unlock_last howner hwq]
    exact hu.inv_free h ha hwq
  | cons w wq =>
    have hwaits := ((hi.wq_iff w).mp (by simp [hwq])).2
    have hwa : w ≠ a := by
      rintro rfl
      simp [hu.waits] at hwaits
    obtain ⟨b, read, hphase⟩ : ∃ b read, (s.task w).phase = .waiting b i read := by
      cases hp : (s.task w).phase <;> simp_all [Phase.waitsFor]
    simp only [unlockSlot, hi.consistent.unlock_handOff howner hwq, setTask_of_ne hwa,
      setMutex_task, hphase, Phase.wake]
    exact hu.inv_handOver h ha hwq hwa hphase

end Unlocks

theorem sameSlots_returned {k : Task} {b : ℕ} {i : Fin nbuf}
    (hphase : (∃ read, k.phase = .locked b i read) ∨ k.phase = .fetching b i) :
    SameSlots k ⟨.outside, (b, i) :: k.holds⟩ := by
  rcases hphase with ⟨read, hp⟩ | hp <;> constructor <;>
    simp [Task.refs, Task.owned, Task.claims, hp, Phase.slot, Phase.owns, Phase.claim,
      Phase.waitsFor, (perm_append_singleton _ _).symm]

theorem unlocks_fetching {b : ℕ} {i : Fin nbuf} (hphase : (s.task a).phase = .fetching b i) :
    Unlocks s a i (s.task a).holds := by
  constructor <;> simp [Task.refs, Task.owned, Task.claims, hphase, Phase.slot, Phase.owns,
    Phase.claim, Phase.waitsFor]

theorem unlocks_held {b : ℕ} {i : Fin nbuf} (hphase : (s.task a).phase = .outside)
    (hheld : (b, i) ∈ (s.task a).holds) : Unlocks s a i ((s.task a).holds.erase (b, i)) := by
  obtain ⟨hrefs, howned, hclaims⟩ := slots_of_outside hphase
  have hperm := (perm_cons_erase hheld).map Prod.snd
  refine ⟨howned ▸ hperm, hrefs ▸ hperm, ?_, by simp [hphase, Phase.waitsFor]⟩
  rw [hclaims]
  exact erase_subset

theorem inv_step {op : Op} (h : Inv T s) (hok : Settled s op) (hstep : step T s op = some s') :
    Inv T s' := by
  unfold step at hstep
  split_ifs at hstep with ha
  cases op with
  | getblk a b read =>
    simp only [Op.apply] at hstep
    split_ifs at hstep with hphase
    obtain ⟨⟨i, c⟩, hget, rfl⟩ := map_eq_some_iff.mp hstep
    exact inv_getblk h ha hok hphase hget
  | lock a =>
    simp only [Op.apply] at hstep
    split at hstep
    case h_2 => simp at hstep
    case h_1 b i read hphase =>
      cases hl : (s.cache.buf i).m.locked with
      | false =>
        simp only [mutexLock_free a hl, some.injEq] at hstep
        subst hstep
        exact inv_acquire h ha hphase hl
      | true =>
        simp only [mutexLock_taken a hl, some.injEq] at hstep
        subst hstep
        exact inv_enqueue h ha hphase hl
  | test a =>
    simp only [Op.apply] at hstep
    split at hstep
    case h_2 => simp at hstep
    case h_1 b i read hphase =>
      have hfetch : SameSlots (s.task a) { s.task a with phase := .fetching b i } := by
        constructor <;> simp [Task.refs, Task.owned, Task.claims, hphase, Phase.slot, Phase.owns,
          Phase.claim, Phase.waitsFor]
      split_ifs at hstep <;> cases hstep
      · exact hfetch.inv h ha rfl (fun _ => rfl) (fun _ => rfl) fun _ => rfl
      · exact (sameSlots_returned (.inl ⟨read, hphase⟩)).inv h ha rfl (fun _ => rfl) (fun _ => rfl)
          fun _ => rfl
  | fetched a res =>
    simp only [Op.apply] at hstep
    split at hstep
    case h_2 => simp at hstep
    case h_1 b i hphase =>
      split_ifs at hstep <;> cases hstep
      · exact (unlocks_fetching hphase).inv h ha
      · have hfield {β : Type} (g : Cblk → β) (hg : ∀ k : Cblk, g { k with valid := true } = g k)
            (j : Fin nbuf) := Cache.modify_field s.cache i j (fun k => { k with valid := true }) g
          (hg _)
        exact (sameSlots_returned (.inr hphase)).inv h ha rfl
          (hfield Cblk.blkno fun _ => rfl) (hfield Cblk.refcnt fun _ => rfl)
          (hfield Cblk.m fun _ => rfl)
  | markDirty a b i =>
    simp only [Op.apply] at hstep
    split_ifs at hstep
    cases hstep
    have hfield {β : Type} (g : Cblk → β) (hg : ∀ k : Cblk, g { k with dirty := true } = g k)
        (j : Fin nbuf) := Cache.modify_field s.cache i j (fun k => { k with dirty := true }) g (hg _)
    have hinv := (sameSlots_refl (s.task a)).inv h (show a ∈ T from ha)
      (show (bcacheMarkDirty s.cache i).bufList = s.cache.bufList from rfl)
      (hfield Cblk.blkno fun _ => rfl) (hfield Cblk.refcnt fun _ => rfl)
      (hfield Cblk.m fun _ => rfl)
    simpa only [Sys.setTask, Function.update_eq_self] using hinv
  | release a b i =>
    simp only [Op.apply] at hstep
    split_ifs at hstep with hheld
    cases hstep
    exact (unlocks_held hheld.1 hheld.2).inv h ha
  | drop a =>
    simp only [Op.apply] at hstep
    split at hstep
    case h_2 => simp at hstep
    case h_1 i hphase =>
      cases hstep
      exact inv_drop h ha hphase
  | invalidate a b =>
    simp only [Op.apply] at hstep
    split_ifs at hstep
    cases hstep
    exact inv_invalidate h ha hok

theorem unlockSlot_blkno (s : Sys) (a : ℕ) (i j : Fin nbuf) (holds : List (ℕ × Fin nbuf)) :
    ((unlockSlot s a i holds).cache.buf j).blkno = (s.cache.buf j).blkno := by
  unfold unlockSlot
  dsimp only
  split <;> simp only [setTask_cache, setMutex_blkno]

theorem step_blkno {op : Op} (h : Inv T s) (hok : Settled s op) (hstep : step T s op = some s')
    {j : Fin nbuf} (hj : 0 < (s.cache.buf j).refcnt) : (s'.cache.buf j).blkno = (s.cache.buf j).blkno := by
  unfold step at hstep
  split_ifs at hstep with ha
  cases op with
  | getblk a b read =>
    simp only [Op.apply] at hstep
    split_ifs at hstep
    obtain ⟨⟨i, c⟩, hget, rfl⟩ := map_eq_some_iff.mp hstep
    rcases getblkLocked_cases h.listed hget with ⟨-, rfl⟩ | ⟨-, hidle, -, rfl⟩
    · exact Cache.modify_field s.cache i j (fun k => { k with refcnt := k.refcnt + 1 })
        Cblk.blkno rfl
    · rw [setTask_cache, Cache.modify_of_ne]
      rintro rfl
      omega
  | lock a =>
    simp only [Op.apply] at hstep
    split at hstep
    case h_2 => simp at hstep
    case h_1 => split at hstep <;> cases hstep <;> exact setMutex_blkno _ _ _
  | test a =>
    simp only [Op.apply, returned] at hstep
    split at hstep
    case h_2 => simp at hstep
    case h_1 => split_ifs at hstep <;> cases hstep <;> rfl
  | fetched a res =>
    simp only [Op.apply, returned] at hstep
    split at hstep
    case h_2 => simp at hstep
    case h_1 b i hphase =>
      split_ifs at hstep <;> cases hstep
      · exact unlockSlot_blkno s a i j _
      · exact Cache.modify_field s.cache i j (fun k => { k with valid := true }) Cblk.blkno rfl
  | markDirty a b i =>
    simp only [Op.apply] at hstep
    split_ifs at hstep
    cases hstep
    exact Cache.modify_field s.cache i j (fun k => { k with dirty := true }) Cblk.blkno rfl
  | release a b i =>
    simp only [Op.apply] at hstep
    split_ifs at hstep
    cases hstep
    exact unlockSlot_blkno s a i j _
  | drop a =>
    simp only [Op.apply] at hstep
    split at hstep
    case h_2 => simp at hstep
    case h_1 i hphase =>
      cases hstep
      exact Cache.modify_field s.cache i j (fun k => { k with refcnt := k.refcnt - 1 })
        Cblk.blkno rfl
  | invalidate a b =>
    simp only [Op.apply] at hstep
    split_ifs at hstep
    cases hstep
    rcases bcacheInvalidate_cases h.listed b with ⟨i, hi, hc⟩ | ⟨-, hc⟩
    · rw [hc, Cache.modify_of_ne]
      rintro rfl
      have := hok j hi
      omega
    · rw [hc]

/-- In every state of every interleaving whose calls are all `Settled`: a task
that was given a buffer for block `b` owns the mutex of a slot labelled `b`, no
other task owns the mutex of a slot labelled `b` or was given one for `b`, the
counter of a slot is the number of references that tasks have to it, and no
further call gives a slot with a reference to another block. -/
theorem buffers_exclusive (T : Finset ℕ) (s : Sys) (h : Reaches (step T) Settled initial s) :
    (∀ t ∈ T, ∀ b i, (b, i) ∈ (s.task t).holds →
      (s.cache.buf i).m.owner = some t ∧ (s.cache.buf i).blkno = b ∧
      ∀ u, u ≠ t → (∀ j, (s.cache.buf j).blkno = b → (s.cache.buf j).m.owner ≠ some u) ∧
        (u ∈ T → ∀ j, (b, j) ∉ (s.task u).holds)) ∧
    (∀ i, (s.cache.buf i).refcnt = ∑ t ∈ T, (s.task t).refs.count i) ∧
    ∀ op s', Settled s op → step T s op = some s' →
      ∀ i, 0 < (s.cache.buf i).refcnt → (s'.cache.buf i).blkno = (s.cache.buf i).blkno := by
  have hinv : Inv T s := h.invariant (inv_initial T) fun _ _ _ hi hok hst => inv_step hi hok hst
  have hgiven : ∀ t ∈ T, ∀ b i, (b, i) ∈ (s.task t).holds →
      (s.cache.buf i).m.owner = some t ∧ (s.cache.buf i).blkno = b ∧ b ≠ uint32Max := by
    intro t ht b i hheld
    have howned : i ∈ (s.task t).owned :=
      mem_append_left _ (mem_map_of_mem (f := Prod.snd) hheld)
    exact ⟨((hinv.mutex i).owner_iff t ht).mpr howned, hinv.label t ht (b, i) (mem_append_left _ hheld)⟩
  refine ⟨fun t ht b i hheld => ?_, hinv.refcnt, fun op s' hok hst i hi => step_blkno hinv hok hst hi⟩
  obtain ⟨howner, hblkno, hb⟩ := hgiven t ht b i hheld
  have hother : ∀ u, u ≠ t → ∀ j, (s.cache.buf j).blkno = b →
      (s.cache.buf j).m.owner ≠ some u := by
    intro u hut j hj howner'
    obtain rfl : i = j := hinv.labelled i j (hblkno.trans hj.symm) (hblkno.symm ▸ hb)
    rw [howner, some.injEq] at howner'
    exact hut howner'.symm
  refine ⟨howner, hblkno, fun u hut => ⟨hother u hut, fun hu j hj => ?_⟩⟩
  obtain ⟨howner', hblkno', -⟩ := hgiven u hu b j hj
  exact hother u hut j hblkno' howner'

def handOver : List Op :=
  [.getblk 0 7 true, .lock 0, .getblk 1 7 true, .test 0, .lock 1, .fetched 0 0, .markDirty 0 7 0,
    .release 0 7 0, .drop 0, .test 1]

theorem buffers_exclusive_handOver : ∃ s, run (step {0, 1}) initial handOver = some s ∧
    (7, 0) ∈ (s.task 1).holds ∧ (s.cache.buf 0).m.owner = some 1 ∧ (s.cache.buf 0).blkno = 7 := by
  refine ⟨_, rfl, by decide +kernel, ?_⟩
  have hexcl := buffers_exclusive {0, 1} _ (.of_run handOver (by decide +kernel) rfl)
  obtain ⟨howner, hblkno, -⟩ := hexcl.1 1 (by decide) 7 0 (by decide +kernel)
  exact ⟨howner, hblkno⟩

def freeHeld : List Op :=
  [.getblk 0 7 true, .lock 0, .test 0, .fetched 0 0, .invalidate 1 7, .getblk 1 7 true, .lock 1,
    .test 1, .fetched 1 0]

theorem invalidate_splits_block : ∃ s, Reaches (step {0, 1}) anyAction initial s ∧
    (7, 0) ∈ (s.task 0).holds ∧ (s.cache.buf 0).blkno ≠ 7 ∧ (7, 1) ∈ (s.task 1).holds :=
  Reaches.of_run_any freeHeld (by decide +kernel)

end RvMiniOs.Bcache.Shared
