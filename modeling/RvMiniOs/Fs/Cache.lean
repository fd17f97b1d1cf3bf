import RvMiniOs.Fs.BlockMap

/-!
# Inode cache

What the functions of the inode cache do, one lemma per branch. `diskDinode` is
the inode table entry that a slot without valid content is filled from.
-/

namespace RvMiniOs.Fs

open Lib List Option

def diskDinode (s : Store) (ino : ℕ) : Dinode :=
  Dinode.read (s.blk (itabBlk s.sb ino)) (64 * (ino % 64))

namespace Filesys

@[simp] theorem setSlot_store (fs : Filesys) (k : Fin inodeCacheSize) (i : Inode) :
    (fs.setSlot k i).store = fs.store := rfl

@[simp] theorem setSlot_self (fs : Filesys) (k : Fin inodeCacheSize) (i : Inode) :
    (fs.setSlot k i).islots k = i := by
  simp [setSlot]

theorem setSlot_ne {fs : Filesys} {k k' : Fin inodeCacheSize} (i : Inode) (h : k' ≠ k) :
    (fs.setSlot k i).islots k' = fs.islots k' := by
  simp [setSlot, h]

theorem forall_setSlot {fs : Filesys} {k : Fin inodeCacheSize} {i : Inode} {P : Inode → Prop}
    (h : ∀ k', P (fs.islots k')) (hi : P i) (k' : Fin inodeCacheSize) : P ((fs.setSlot k i).islots k') := by
  by_cases hk : k' = k
  · rw [hk, setSlot_self]
    exact hi
  · rw [setSlot_ne i hk]
    exact h k'

@[simp] theorem setSlot_setSlot (fs : Filesys) (k : Fin inodeCacheSize) (i i' : Inode) :
    (fs.setSlot k i).setSlot k i' = fs.setSlot k i' := by
  simp [setSlot]

end Filesys

section

variable {fs : Filesys} {k : Fin inodeCacheSize} {id : ℕ}

theorem cacheRequestLocked_eq_none (h : cacheRequestLocked fs id = none)
    (hk : k ∈ fs.icache) : (fs.islots k).ino ≠ id := by
  have hnone := find?_eq_none.mp h k hk
  simpa using hnone

theorem cacheRequestLocked_eq_some (h : cacheRequestLocked fs id = some k) : (fs.islots k).ino = id := by
  simpa using find?_some h

theorem findReusableLocked_eq_some (h : findReusableLocked fs = some k) : (fs.islots k).refcnt = 0 := by
  simpa using find?_some h

theorem inodeGet_hit (h : cacheRequestLocked fs id = some k) : inodeGet fs id =
    some (k, { fs.setSlot k { fs.islots k with refcnt := (fs.islots k).refcnt + 1 } with
      icache := k :: fs.icache.erase k }) := by
  rw [inodeGet, h]

theorem inodeGet_miss (h : cacheRequestLocked fs id = none) (hfree : findReusableLocked fs = some k) :
    inodeGet fs id =
      some (k, fs.setSlot k { fs.islots k with ino := id, refcnt := 1, valid := false }) := by
  rw [inodeGet, h, hfree]

theorem inodeGet_cases {fs' : Filesys} (h : inodeGet fs id = some (k, fs')) :
    (cacheRequestLocked fs id = some k ∧
      fs' = { fs.setSlot k { fs.islots k with refcnt := (fs.islots k).refcnt + 1 } with
        icache := k :: fs.icache.erase k }) ∨
    (cacheRequestLocked fs id = none ∧ findReusableLocked fs = some k ∧
      fs' = fs.setSlot k { fs.islots k with ino := id, refcnt := 1, valid := false }) := by
  rcases hreq : cacheRequestLocked fs id with _ | k'
  · rcases hfree : findReusableLocked fs with _ | k'
    · rw [inodeGet, hreq, hfree] at h
      cases h
    · rw [inodeGet_miss hreq hfree] at h
      cases h
      exact Or.inr ⟨rfl, rfl, rfl⟩
  · rw [inodeGet_hit hreq] at h
    cases h
    exact Or.inl ⟨rfl, rfl⟩

theorem inodeLock_of_valid (hlock : (fs.islots k).locked = false)
    (hvalid : (fs.islots k).valid = true) :
    inodeLock fs k = some (0, fs.setSlot k { fs.islots k with locked := true }) := by
  simp [inodeLock, hlock, hvalid]

theorem inodeLock_of_invalid (hlock : (fs.islots k).locked = false)
    (hvalid : (fs.islots k).valid = false) (hino : (fs.islots k).ino < nbInodes fs.store.sb) :
    inodeLock fs k = some (0, fs.setSlot k { fs.islots k with
      locked := true, valid := true, content := diskDinode fs.store (fs.islots k).ino }) := by
  have hneg : ¬ ((itabBlk fs.store.sb (fs.islots k).ino : ℕ) : ℤ) < 0 := by omega
  simp only [inodeLock, hlock, hvalid, Bool.false_eq_true, if_false, getItabBlkno_of_lt hino, hneg,
    Int.toNat_natCast]
  rfl

theorem inodePut_of_linked (hlock : (fs.islots k).locked = false)
    (hlink : (fs.islots k).valid = true → (fs.islots k).content.nblink ≠ 0) :
    inodePut fs k =
      some (fs.setSlot k { fs.islots k with refcnt := (fs.islots k).refcnt - 1 }) := by
  have hlast : putLast fs k = some fs := by
    have hno : ¬ ((fs.islots k).valid = true ∧ (fs.islots k).content.nblink = 0) :=
      fun h => hlink h.1 h.2
    simp only [putLast, hlock, Bool.false_eq_true, if_false, hno]
  unfold inodePut
  split_ifs
  · rw [hlast]
    rfl
  · rfl

end

end RvMiniOs.Fs
