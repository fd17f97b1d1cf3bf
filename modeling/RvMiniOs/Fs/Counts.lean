import RvMiniOs.Fs.TreeWalk

/-!
# Counters

What the calls on the way along a path do to the counters, whatever the tree looks like:
the failed calls of `balloc` that the store counts, the references to the slots of the
inode cache, and the locks.
-/

namespace RvMiniOs.Fs

open Lib Function List Filesys

/-- A step that may call `balloc`: failures are counted, and the environment forces no
answer that it has not announced. -/
structure Answers (s s' : Store) : Prop where
  refused : s.refused ≤ s'.refused
  deny : s.deny = [] → s'.deny = []

namespace Answers

variable {s s' s'' : Store}

theorem refl (s : Store) : Answers s s := ⟨le_rfl, id⟩

theorem of_eq (hrefused : s'.refused = s.refused) (hdeny : s'.deny = s.deny) : Answers s s' :=
  ⟨hrefused.ge, fun h => hdeny.trans h⟩

theorem trans (h : Answers s s') (h' : Answers s' s'') : Answers s s'' :=
  ⟨h.refused.trans h'.refused, fun hd => h'.deny (h.deny hd)⟩

theorem setBlk (s : Store) (b : ℕ) (x : Bytes) : Answers s (s.setBlk b x) := of_eq rfl rfl

theorem bmAlloc (s : Store) (r : BitRegion) : Answers s (bmAlloc s r).2 := by
  have hfrom : ∀ left i, Answers s (bmAllocFrom s r left i).2 := by
    intro left
    induction left with
    | zero => exact fun _ => refl s
    | succ left ih =>
      intro i
      simp only [bmAllocFrom]
      split_ifs
      · exact refl s
      · exact setBlk ..
      · exact ih (i + 1)
  exact hfrom r.count 0

theorem bmFree (s : Store) (r : BitRegion) (no : ℕ) : Answers s (bmFree s r no).2 := by
  unfold Fs.bmFree
  split_ifs
  · exact refl s
  · exact setBlk ..

theorem bfree (s : Store) (blkno : ℕ) : Answers s (bfree s blkno).2 :=
  (setBlk ..).trans (bmFree ..)

theorem balloc (s : Store) : Answers s (balloc s).2 := by
  have htail : ∀ {l : List Bool}, l = [] → l.tail = [] := fun h => by rw [h]; rfl
  have halloc := bmAlloc s (dataRegion s.sb)
  unfold Fs.balloc bbmAlloc
  dsimp only
  split_ifs
  · exact ⟨Nat.le_succ _, htail⟩
  · exact ⟨halloc.refused.trans (Nat.le_succ _), fun h => htail (halloc.deny h)⟩
  · exact ⟨halloc.refused, fun h => htail (halloc.deny h)⟩

theorem getDataLocked (s : Store) (i : Inode) (n : ℕ) : Answers s (getDataLocked s i n).2.1 := by
  by_cases hn : n < 1036
  · by_cases hp : ptr s i.content n = 0
    · rw [getDataLocked_of_unmapped hn hp]
      exact (balloc s).trans (of_eq (setPtr_refused ..) (setPtr_deny ..))
    · rw [getDataLocked_of_mapped hn hp]
      exact refl s
  · have hge : fsInodeDirDblkno + fsInodeIndirDblkno ≤ n := not_lt.mp hn
    rw [Fs.getDataLocked, if_pos hge]
    exact refl s

theorem markDirtyLocked (s : Store) (i : Inode) : Answers s (markDirtyLocked s i).2 := by
  unfold Fs.markDirtyLocked
  dsimp only
  split_ifs
  · exact refl s
  · exact setBlk ..

theorem writeLoop (copyin : Copyin) (count : ℕ) (c : Cursor) :
    Answers c.store (writeLoop copyin count c).2.store := by
  have hget : ∀ c' : Cursor, Answers c.store c'.store →
      Answers c.store (Fs.getDataLocked c'.store c'.inode (c'.offset / 4096)).2.1 :=
    fun c' h => h.trans (getDataLocked ..)
  refine writeLoop_rule (P := fun c' => Answers c.store c'.store) (Q := fun _ c' => Answers c.store c'.store)
    ?_ ?_ ?_ ?_ c (refl _)
  · exact fun c' h _ _ => hget c' h
  · exact fun c' _ h _ _ _ => hget c' h
  · exact fun c' _ h _ _ _ => (hget c' h).trans (setBlk ..)
  · exact fun c' h _ => h

theorem inodeWrite (s : Store) (i : Inode) (copyin : Copyin) (offset count : ℕ) :
    Answers s (inodeWrite s i copyin offset count).2.1 := by
  obtain ⟨c, ⟨-, hstore⟩, hc⟩ := inodeWrite_leaves s i copyin offset count
  have hcursor : Answers s c.store := by
    rcases hc with rfl | ⟨-, -, rfl⟩
    · exact refl s
    · exact writeLoop copyin count ⟨s, i, offset, 0⟩
  rcases hstore with hstore | hstore
  · rw [hstore]
    exact hcursor
  · rw [hstore]
    exact hcursor.trans (markDirtyLocked ..)

theorem releaseDirBlkFrom (s : Store) (i : Inode) (l : List (Fin fsInodeDirDblkno)) :
    Answers s (releaseDirBlkFrom s i l).2.1 := by
  induction l generalizing s i with
  | nil => exact refl s
  | cons idx rest ih =>
    simp only [Fs.releaseDirBlkFrom]
    split_ifs
    · exact ih s i
    · exact bfree ..
    · exact (bfree ..).trans (ih ..)

theorem releaseIndirFrom (indirBlk : ℕ) (s : Store) (content : Bytes) (kept : Bool) (l : List ℕ) :
    Answers s (releaseIndirFrom indirBlk s content kept l) := by
  induction l generalizing s content kept with
  | nil => exact refl s
  | cons n rest ih =>
    simp only [Fs.releaseIndirFrom]
    split_ifs
    · exact ih ..
    · exact ((setBlk ..).trans (bfree ..)).trans (ih ..)
    · exact (bfree ..).trans (ih ..)

theorem releaseIndirLocked (s : Store) (i : Inode) : Answers s (releaseIndirLocked s i).2 := by
  simp only [Fs.releaseIndirLocked]
  exact releaseIndirFrom ..

theorem inodeTruncateLocked (s : Store) (i : Inode) : Answers s (inodeTruncateLocked s i).2.1 := by
  have hdir : Answers s (releaseDirBlkLocked s i).2.1 := releaseDirBlkFrom s i (finRange fsInodeDirDblkno)
  unfold Fs.inodeTruncateLocked
  dsimp only
  generalize releaseDirBlkLocked s i = d at hdir ⊢
  have hindir := releaseIndirLocked d.2.1 d.2.2
  generalize Fs.releaseIndirLocked d.2.1 d.2.2 = t at hindir ⊢
  split_ifs
  · exact hdir
  · exact hdir.trans hindir
  · exact hdir.trans hindir

variable {fs fs' : Filesys} {k curr : Fin inodeCacheSize} {res : ℤ} {stack : Bytes} {name : List UInt8}
  {found : Except ℤ (Fin inodeCacheSize)}

theorem inodeLock (h : inodeLock fs k = some (res, fs')) : fs'.store = fs.store := by
  rcases inodeLock_cases h with ⟨-, -, -, rfl⟩ | ⟨-, -, rfl⟩ <;> rfl

theorem inodeGet {ino : ℕ} (h : inodeGet fs ino = some (k, fs')) : fs'.store = fs.store := by
  rcases inodeGet_cases h with ⟨-, rfl⟩ | ⟨-, -, rfl⟩ <;> rfl

theorem inodePut (h : inodePut fs k = some fs') : Answers fs.store fs'.store := by
  have hlast : ∀ {fs₁ : Filesys}, putLast fs k = some fs₁ → Answers fs.store fs₁.store := by
    intro fs₁ hput
    unfold putLast at hput
    dsimp only at hput
    split_ifs at hput
    · cases hput
      exact ((inodeTruncateLocked ..).trans (markDirtyLocked ..)).trans (bmFree ..)
    · cases hput
      exact refl _
  simp only [Fs.inodePut, Option.bind_eq_bind, Option.pure_def] at h
  split_ifs at h
  · obtain ⟨fs₁, hput, h⟩ := Option.bind_eq_some_iff.mp h
    have hstore : fs'.store = fs₁.store := by
      rw [← Option.some.inj h]
      rfl
    rw [hstore]
    exact hlast hput
  · cases h
    exact refl _

theorem inodeCreate {type : InodeType} (h : inodeCreate fs type = some (found, fs')) :
    Answers fs.store fs'.store := by
  have halloc := bmAlloc fs.store (inodeRegion fs.store.sb)
  simp only [Fs.inodeCreate, Option.bind_eq_bind, Option.pure_def] at h
  split_ifs at h
  · cases h
    exact halloc
  obtain ⟨⟨k, fs₁⟩, hget, h⟩ := Option.bind_eq_some_iff.mp h
  obtain ⟨⟨res, fs₂⟩, hlock, h⟩ := Option.bind_eq_some_iff.mp h
  have hstore : fs₂.store = (ibmAlloc fs.store).2 := (inodeLock hlock).trans (inodeGet hget)
  have h₂ : Answers fs.store fs₂.store := by rw [hstore]; exact halloc
  dsimp only at h
  split_ifs at h
  · obtain ⟨fs₃, hput, h⟩ := Option.bind_eq_some_iff.mp h
    cases h
    exact (h₂.trans (inodePut hput)).trans (bmFree ..)
  · obtain ⟨fs₃, hput, h⟩ := Option.bind_eq_some_iff.mp h
    cases h
    exact ((h₂.trans (markDirtyLocked ..)).trans (inodePut hput)).trans (bmFree ..)
  · cases h
    exact h₂.trans (markDirtyLocked ..)

theorem dirAddEntry {inum : ℕ} (h : dirAddEntry stack fs k name inum = some (res, fs')) :
    Answers fs.store fs'.store := by
  simp only [Fs.dirAddEntry, Option.bind_eq_bind, Option.pure_def] at h
  split_ifs at h
  · cases h
    exact refl _
  obtain ⟨⟨res₁, fs₁⟩, hlock, h⟩ := Option.bind_eq_some_iff.mp h
  rw [← inodeLock hlock]
  dsimp only at h
  split_ifs at h
  · cases h
    exact refl _
  · cases h
    exact inodeWrite ..

end Answers

/-- A call takes the references `taken`, or gives them back where it is negative, and
leaves the locks as they were. -/
structure Balanced (fs fs' : Filesys) (taken : Fin inodeCacheSize → ℤ) : Prop where
  refcnt : ∀ k, (fs'.islots k).refcnt = (fs.islots k).refcnt + taken k
  locked : ∀ k, (fs'.islots k).locked = (fs.islots k).locked

def reference : Except ℤ (Fin inodeCacheSize) → Fin inodeCacheSize → ℤ
  | .ok k => Pi.single k 1
  | .error _ => 0

theorem inodeLock_unlocked {fs : Filesys} {k : Fin inodeCacheSize} {r : ℤ × Filesys}
    (h : inodeLock fs k = some r) : (fs.islots k).locked = false := by
  by_contra hlock
  rw [Bool.not_eq_false] at hlock
  simp [inodeLock, hlock] at h

theorem inodeCreate_unlocked {fs fs' : Filesys} {k : Fin inodeCacheSize} {type : InodeType}
    (h : inodeCreate fs type = some (.ok k, fs')) : (fs.islots k).locked = false := by
  simp only [inodeCreate, Option.bind_eq_bind, Option.pure_def] at h
  split_ifs at h
  · cases h
  obtain ⟨⟨k₁, fs₂⟩, hget, h⟩ := Option.bind_eq_some_iff.mp h
  obtain ⟨⟨res, fs₃⟩, hlock, h⟩ := Option.bind_eq_some_iff.mp h
  have hfree : (fs.islots k₁).locked = false := by
    have hfree₂ := inodeLock_unlocked hlock
    rcases inodeGet_cases hget with ⟨-, rfl⟩ | ⟨-, -, rfl⟩
    · simpa [setSlot] using hfree₂
    · simpa [setSlot] using hfree₂
  dsimp only at h
  split_ifs at h
  · obtain ⟨fs₄, -, h⟩ := Option.bind_eq_some_iff.mp h
    cases h
  · obtain ⟨fs₄, -, h⟩ := Option.bind_eq_some_iff.mp h
    cases h
  · obtain ⟨hk, -⟩ := Prod.mk.inj (Option.some.inj h)
    exact Except.ok.inj hk ▸ hfree

theorem dirLookupFrom_inode (s : Store) (i : Inode) (name : List UInt8) (entry : Bytes) (off : ℕ) :
    ∃ p, (dirLookupFrom s i name entry off).2.2 = { i with content := { i.content with dirblkno := p } } := by
  fun_induction dirLookupFrom s i name entry off with
  | case1 s i entry off hlt r hneg => exact inodeRead_inode ..
  | case2 s i entry off hlt r hneg inum hfound => exact inodeRead_inode ..
  | case3 s i entry off hlt r hneg inum hfound ih =>
    obtain ⟨p, hp⟩ := inodeRead_inode s i kernelDst entry off sizeofDirent
    obtain ⟨q, hq⟩ := ih
    exact ⟨q, by rw [hq, show r.2.2.2 = _ from hp]⟩
  | case4 s i entry off hge => exact ⟨i.content.dirblkno, rfl⟩

namespace Balanced

variable {fs fs' fs'' : Filesys} {k curr : Fin inodeCacheSize} {taken taken' : Fin inodeCacheSize → ℤ}
  {stack : Bytes} {name : List UInt8} {res : ℤ} {found : Except ℤ (Fin inodeCacheSize)}

theorem refl (fs : Filesys) : Balanced fs fs 0 := ⟨fun _ => (add_zero _).symm, fun _ => rfl⟩

theorem trans (h : Balanced fs fs' taken) (h' : Balanced fs' fs'' taken') :
    Balanced fs fs'' (taken + taken') := by
  refine ⟨fun k => ?_, fun k => (h'.locked k).trans (h.locked k)⟩
  rw [h'.refcnt k, h.refcnt k, Pi.add_apply, add_assoc]

theorem setSlot {i : Inode} {n : ℤ} (hcount : i.refcnt = (fs.islots k).refcnt + n)
    (hlock : i.locked = (fs.islots k).locked) : Balanced fs (fs.setSlot k i) (Pi.single k n) := by
  refine ⟨fun j => ?_, fun j => ?_⟩
  · by_cases hj : j = k
    · rw [hj, setSlot_self, Pi.single_eq_same, hcount]
    · rw [setSlot_ne _ hj, Pi.single_eq_of_ne hj, add_zero]
  · by_cases hj : j = k
    · rw [hj, setSlot_self, hlock]
    · rw [setSlot_ne _ hj]

theorem bracket {fs₁ : Filesys} {i : Inode} (hfree : (fs.islots k).locked = false)
    (hslots : fs₁.islots = update fs.islots k i) (hcount : i.refcnt = (fs.islots k).refcnt)
    (h : Balanced fs₁ fs' taken) : Balanced fs (inodeUnlock fs' k) taken := by
  unfold inodeUnlock
  refine ⟨fun j => ?_, fun j => ?_⟩
  · have hj := h.refcnt j
    rw [hslots] at hj
    by_cases hjk : j = k
    · rw [hjk, update_self, hcount] at hj
      rw [hjk, setSlot_self]
      exact hj
    · rw [update_of_ne hjk] at hj
      rw [setSlot_ne _ hjk]
      exact hj
  · have hj := h.locked j
    rw [hslots] at hj
    by_cases hjk : j = k
    · rw [hjk, setSlot_self, hfree]
    · rw [update_of_ne hjk] at hj
      rw [setSlot_ne _ hjk]
      exact hj

theorem get {ino : ℕ} (h : inodeGet fs ino = some (k, fs')) : Balanced fs fs' (Pi.single k 1) := by
  rcases inodeGet_cases h with ⟨-, rfl⟩ | ⟨-, hfree, rfl⟩
  · have hslot : Balanced fs (fs.setSlot k { fs.islots k with refcnt := (fs.islots k).refcnt + 1 })
        (Pi.single k 1) := setSlot rfl rfl
    exact ⟨hslot.refcnt, hslot.locked⟩
  · refine setSlot ?_ rfl
    rw [findReusableLocked_eq_some hfree]
    rfl

theorem put (hlink : (fs.islots k).valid = true → (fs.islots k).content.nblink ≠ 0)
    (h : inodePut fs k = some fs') : Balanced fs fs' (Pi.single k (-1)) := by
  obtain rfl := inodePut_eq_some hlink h
  exact setSlot (sub_eq_add_neg ..) rfl

theorem lookup (hlt : (fs.islots k).ino < nbInodes fs.store.sb)
    (h : dirLookup stack fs k name = some (found, fs')) : Balanced fs fs' (reference found) := by
  simp only [Fs.dirLookup, Option.bind_eq_bind, Option.pure_def] at h
  obtain ⟨⟨res₁, fs₁⟩, hlock, h⟩ := Option.bind_eq_some_iff.mp h
  have hfree := inodeLock_unlocked hlock
  rcases inodeLock_cases hlock with ⟨-, -, hge, -⟩ | ⟨rfl, -, rfl⟩
  · exact absurd hlt (not_lt.mpr hge)
  dsimp only at h
  rw [if_neg (lt_irrefl 0), setSlot_self] at h
  obtain ⟨p, hp⟩ := dirLookupFrom_inode (fs.setSlot k (lockedSlot fs k)).store (lockedSlot fs k) name stack 0
  split_ifs at h
  · cases h
    exact bracket (i := lockedSlot fs k) hfree rfl rfl (refl _)
  generalize dirLookupFrom (fs.setSlot k (lockedSlot fs k)).store (lockedSlot fs k) name stack 0 = l at h hp
  obtain ⟨looked, s, i⟩ := l
  dsimp only at h hp
  have hslots : ({ fs.setSlot k (lockedSlot fs k) with store := s }.setSlot k i).islots =
      Function.update fs.islots k i := Function.update_idem ..
  have hcount : i.refcnt = (fs.islots k).refcnt := by rw [hp]; rfl
  cases looked with
  | error e =>
    cases h
    exact bracket hfree hslots hcount (refl _)
  | ok inum =>
    obtain ⟨⟨j, fs₂⟩, hget, h⟩ := Option.bind_eq_some_iff.mp h
    cases h
    exact bracket hfree hslots hcount (get hget)

theorem addEntry {inum : ℕ} (hlt : (fs.islots k).ino < nbInodes fs.store.sb)
    (h : dirAddEntry stack fs k name inum = some (res, fs')) : Balanced fs fs' 0 := by
  simp only [Fs.dirAddEntry, Option.bind_eq_bind, Option.pure_def] at h
  split_ifs at h
  · cases h
    exact refl _
  obtain ⟨⟨res₁, fs₁⟩, hlock, h⟩ := Option.bind_eq_some_iff.mp h
  have hfree := inodeLock_unlocked hlock
  rcases inodeLock_cases hlock with ⟨-, -, hge, -⟩ | ⟨rfl, -, rfl⟩
  · exact absurd hlt (not_lt.mpr hge)
  dsimp only at h
  rw [if_neg (lt_irrefl 0), setSlot_self] at h
  obtain ⟨c, hleave, hc⟩ := inodeWrite_leaves (fs.setSlot k (lockedSlot fs k)).store (lockedSlot fs k)
    (kernelSrc (newDirent stack name inum)) (lockedSlot fs k).content.size.toNat sizeofDirent
  have hinode : ∃ p, c.inode = { lockedSlot fs k with content := { (lockedSlot fs k).content with dirblkno := p } } := by
    rcases hc with rfl | ⟨-, -, rfl⟩
    · exact ⟨_, rfl⟩
    · exact writeLoop_inode ..
  generalize inodeWrite (fs.setSlot k (lockedSlot fs k)).store (lockedSlot fs k)
    (kernelSrc (newDirent stack name inum)) (lockedSlot fs k).content.size.toNat sizeofDirent = w at h hleave
  cases h
  obtain ⟨⟨z, hz⟩, -⟩ := hleave
  obtain ⟨p, hp⟩ := hinode
  have hslots : ({ fs.setSlot k (lockedSlot fs k) with store := w.2.1 }.setSlot k w.2.2).islots =
      Function.update fs.islots k w.2.2 := Function.update_idem ..
  exact bracket hfree hslots (by rw [hz, hp]; rfl) (refl _)

theorem create (wf : fs.store.sb.WellFormed) (hmax : nbInodes fs.store.sb < 2 ^ 31) {type : InodeType}
    (h : inodeCreate fs type = some (found, fs')) : Balanced fs fs' (reference found) := by
  rcases inodeCreate_cases wf hmax h with ⟨rfl, rfl⟩ | ⟨id, s, k, i, c, -, -, rfl, -, -, -, hi, -, heq⟩
  · exact refl _
  obtain ⟨fs₂, -, hget, hcount, -⟩ := inodeCreate_get h
  have hslots : ∀ j ≠ k, fs'.islots j = fs.islots j := by
    intro j hj
    rw [heq]
    exact setSlot_ne i hj
  have hself : fs'.islots k = i := by
    rw [heq]
    exact setSlot_self _ k i
  have hget' := get hget
  refine ⟨fun j => ?_, fun j => ?_⟩
  · by_cases hj : j = k
    · rw [hj, hcount]
      exact hget'.refcnt k
    · rw [hslots j hj, reference, Pi.single_eq_of_ne hj, add_zero]
  · by_cases hj : j = k
    · rw [hj, hself, hi, inodeCreate_unlocked h]
    · rw [hslots j hj]

end Balanced

end RvMiniOs.Fs
