import RvMiniOs.Fs.Ownership

/-!
# Runs of the file system

The calls that create, open, close, read and write files, taken one after the
other on the mounted file system. Each of them does one of three things to the
store and the cache: change metadata only, go through the blocks of one inode, or
take a block. `FsInv` is kept by all of them; `Owned` by those that are served.
-/

namespace RvMiniOs.Fs

open Lib Function Option Filesys

inductive FsOp where
  | create (type : InodeType)
  | get (ino : ℕ)
  | put (k : Fin inodeCacheSize)
  | read (k : Fin inodeCacheSize) (copyout : Copyout Bytes) (dst : Bytes) (offset count : ℕ)
  | write (k : Fin inodeCacheSize) (copyin : Copyin) (offset count : ℕ)
  | balloc

def effective (fs : Filesys) (k : Fin inodeCacheSize) : Dinode :=
  if (fs.islots k).valid then (fs.islots k).content
  else diskDinode fs.store (fs.islots k).ino

namespace FsOp

def locked (fs : Filesys) (k : Fin inodeCacheSize) (access : Store → Inode → Store × Inode) :
    Option Filesys :=
  (inodeLock fs k).map fun (res, fs) =>
    if res < 0 then fs
    else
      let a := access fs.store (fs.islots k)
      inodeUnlock ({ fs with store := a.1 }.setSlot k a.2) k

def step (fs : Filesys) : FsOp → Option Filesys
  | create type => (inodeCreate fs type).map Prod.snd
  | get ino => (inodeGet fs ino).map Prod.snd
  | put k => inodePut fs k
  | read k copyout dst offset count =>
    locked fs k fun s i => (inodeRead s i copyout dst offset count).2.2
  | write k copyin offset count => locked fs k fun s i => (inodeWrite s i copyin offset count).2
  | balloc => some { fs with store := (Fs.balloc fs.store).2 }

def Proper (fs : Filesys) : FsOp → Prop
  | get ino => ino < nbInodes fs.store.sb ∧ (diskDinode fs.store ino).nblink ≠ 0
  | read _ _ _ offset count | write _ _ offset count => offset + count < 2 ^ 64
  | _ => True

def Safe (fs : Filesys) : FsOp → Prop
  | read k _ _ offset count =>
    offset + count ≤ (effective fs k).size.toNat → Served fs.store (effective fs k) offset count
  | write k _ offset count =>
    offset ≤ (effective fs k).size.toNat → offset + count ≤ fsMaxFileSize →
      Served fs.store (effective fs k) offset count
  | _ => True

end FsOp

def Stored (fs : Filesys) : Contents := fun ino d =>
  (ino < nbInodes fs.store.sb ∧ d = diskDinode fs.store ino) ∨
    ∃ k, (fs.islots k).valid = true ∧ (fs.islots k).ino = ino ∧ (fs.islots k).content = d

structure MetaOnly (s s' : Store) : Prop where
  sb : s'.sb = s.sb
  deny : s'.deny = s.deny
  frame : ∀ b, b = 0 ∨ (s.sb.dbmStart ≤ b ∧ b < s.sb.itabStart) ∨ s.sb.dataStart ≤ b →
    s'.blk b = s.blk b

namespace MetaOnly

variable {s s' s'' : Store} {S : Contents}

theorem refl (s : Store) : MetaOnly s s := ⟨rfl, rfl, fun _ _ => rfl⟩

theorem trans (h : MetaOnly s s') (h' : MetaOnly s' s'') : MetaOnly s s'' := by
  refine ⟨h'.sb.trans h.sb, h'.deny.trans h.deny, ?_⟩
  intro b hb
  rw [h'.frame b (by rw [h.sb]; exact hb), h.frame b hb]

theorem taken (h : MetaOnly s s') (wf : s.sb.WellFormed) {b : ℕ} (hb : Taken s b) : Taken s' b := by
  obtain ⟨hlo, hhi, hbit⟩ := hb
  refine ⟨h.sb ▸ hlo, h.sb ▸ hhi, ?_⟩
  have hdbm := wf.dbm_itab
  rw [dataBit_congr wf h.sb (fun c hc hc' => h.frame c (by omega)) hlo hhi, hbit]

theorem freeBlks (h : MetaOnly s s') (wf : s.sb.WellFormed) : freeBlks s' = freeBlks s := by
  have hdbm := wf.dbm_itab
  exact freeBlks_congr h.sb fun b hlo hhi =>
    dataBit_congr wf h.sb (fun c hc hc' => h.frame c (by omega)) hlo hhi

theorem ptr (h : MetaOnly s s') (ha : Apart s S) {ino n : ℕ} {d : Dinode} (hd : S ino d) :
    ptr s' d n = ptr s d n :=
  ptr_congr rfl rfl (h.frame _ ((ha.table_outside hd).imp_right Or.inr))

theorem apart (h : MetaOnly s s') (ha : Apart s S) : Apart s' S := by
  refine ⟨h.sb ▸ ha.wf, ?_, ?_⟩
  · exact fun ino d hd h0 => h.taken ha.wf (ha.table ino d hd h0)
  · intro ino d n hd hn
    rw [h.ptr ha hd, h.sb]
    exact ha.data ino d n hd hn

theorem owned (h : MetaOnly s s') (wf : s.sb.WellFormed) (ho : Owned s S) : Owned s' S :=
  ho.transport (fun _ _ _ hd => h.ptr (ho.apart wf) hd) fun _ hb => h.taken wf hb

end MetaOnly

section Dirty

variable {s : Store} {i : Inode}

theorem markDirtyLocked_metaOnly (wf : s.sb.WellFormed) (i : Inode) :
    MetaOnly s (markDirtyLocked s i).2 := by
  by_cases hino : i.ino < nbInodes s.sb
  · have hpos := dataStart_pos wf
    have hlt := itabBlk_lt hino
    have hge : s.sb.itabStart ≤ itabBlk s.sb i.ino := Nat.le_add_right _ _
    rw [markDirtyLocked_of_lt hino]
    exact ⟨rfl, rfl, fun b hb => Store.setBlk_blk_ne _ (by omega)⟩
  · rw [markDirtyLocked_of_ge (not_lt.mp hino)]
    exact MetaOnly.refl s

theorem diskDinode_markDirtyLocked (hino : i.ino < nbInodes s.sb) (ino : ℕ) :
    diskDinode (markDirtyLocked s i).2 ino = if ino = i.ino then i.content else diskDinode s ino := by
  rw [markDirtyLocked_of_lt hino]
  unfold diskDinode
  by_cases hblk : itabBlk s.sb ino = itabBlk s.sb i.ino
  · rw [Store.setBlk_sb, hblk, Store.setBlk_blk_self]
    split_ifs with heq
    · rw [heq]
      exact Dinode.read_splice_self ..
    · have hfar : ino % 64 ≠ i.ino % 64 := by
        intro hmod
        unfold itabBlk at hblk
        omega
      exact Dinode.read_splice_outside (by omega)
  · have hne : ino ≠ i.ino := fun heq => hblk (by rw [heq])
    rw [Store.setBlk_sb, Store.setBlk_blk_ne _ hblk, if_neg hne]

end Dirty

structure FsInv (fs : Filesys) : Prop where
  apart : Apart fs.store (Stored fs)
  inodes : nbInodes fs.store.sb < 2 ^ 31
  ino_lt : ∀ k, (fs.islots k).valid = true → (fs.islots k).ino < nbInodes fs.store.sb
  linked : ∀ k, (fs.islots k).valid = true → (fs.islots k).content.nblink ≠ 0
  disk_linked : ∀ k, (fs.islots k).ino < nbInodes fs.store.sb →
    (diskDinode fs.store (fs.islots k).ino).nblink ≠ 0

structure Grows (s s' : Store) : Prop where
  sb : s'.sb = s.sb
  data : ∀ b, Taken s b → Taken s' b
  inode : ∀ ino < nbInodes s.sb, inodeBit s ino = true → inodeBit s' ino = true

namespace Grows

variable {s s' s'' : Store}

theorem refl (s : Store) : Grows s s := ⟨rfl, fun _ h => h, fun _ _ h => h⟩

theorem trans (h : Grows s s') (h' : Grows s' s'') : Grows s s'' :=
  ⟨h'.sb.trans h.sb, fun b hb => h'.data b (h.data b hb),
    fun ino hlt hbit => h'.inode ino (h.sb ▸ hlt) (h.inode ino hlt hbit)⟩

theorem inodeBit_congr (wf : s.sb.WellFormed) (hsb : s'.sb = s.sb)
    (hblk : ∀ b, s.sb.ibmStart ≤ b → b < s.sb.dbmStart → s'.blk b = s.blk b)
    {ino : ℕ} (hino : ino < nbInodes s.sb) : inodeBit s' ino = inodeBit s ino := by
  have hbits := wf.inode_bits
  have hibm := wf.ibm_dbm
  have hlt : ino < s.sb.nbIbm * 32768 := hino.trans_le hbits
  have hdiv : ino / 32768 < s.sb.nbIbm := Nat.div_lt_of_lt_mul (by omega)
  rw [inodeBit, inodeBit, hsb]
  apply regionBit_congr
  simp only [inodeRegion, fsBmBitsPerBlk]
  exact hblk _ (by omega) (by omega)

theorem of_keeps (wf : s.sb.WellFormed) (h : Keeps s s') : Grows s s' := by
  have hpos := dataStart_pos wf
  refine ⟨h.sb, h.bits, ?_⟩
  intro ino hino hbit
  rw [inodeBit_congr wf h.sb (fun b hlo hhi => h.frame b (by omega) (by omega) (by omega)) hino, hbit]

theorem markDirtyLocked (wf : s.sb.WellFormed) (i : Inode) : Grows s (markDirtyLocked s i).2 := by
  have hmeta := markDirtyLocked_metaOnly wf i
  refine ⟨hmeta.sb, fun b hb => hmeta.taken wf hb, ?_⟩
  intro ino hino hbit
  have hpos := dataStart_pos wf
  rw [inodeBit_congr wf hmeta.sb _ hino, hbit]
  intro b hlo hhi
  by_cases hi : i.ino < nbInodes s.sb
  · have hge : s.sb.itabStart ≤ itabBlk s.sb i.ino := Nat.le_add_right _ _
    rw [markDirtyLocked_of_lt hi]
    exact Store.setBlk_blk_ne _ (by omega)
  · rw [markDirtyLocked_of_ge (not_lt.mp hi)]

end Grows

section Lock

variable {fs fs' : Filesys} {k : Fin inodeCacheSize} {res : ℤ}

def lockedSlot (fs : Filesys) (k : Fin inodeCacheSize) : Inode :=
  { fs.islots k with locked := true, valid := true, content := effective fs k }

theorem inodeLock_cases (h : inodeLock fs k = some (res, fs')) :
    (res < 0 ∧ (fs.islots k).valid = false ∧ nbInodes fs.store.sb ≤ (fs.islots k).ino ∧
      fs' = fs.setSlot k { fs.islots k with locked := true }) ∨
    (res = 0 ∧ ((fs.islots k).valid = false → (fs.islots k).ino < nbInodes fs.store.sb) ∧
      fs' = fs.setSlot k (lockedSlot fs k)) := by
  by_cases hlock : (fs.islots k).locked = true
  · simp [inodeLock, hlock] at h
  rw [Bool.not_eq_true] at hlock
  by_cases hvalid : (fs.islots k).valid = true
  · rw [inodeLock_of_valid hlock hvalid] at h
    cases h
    refine Or.inr ⟨rfl, fun h => absurd hvalid (by simp [h]), ?_⟩
    simp [lockedSlot, effective, hvalid]
  rw [Bool.not_eq_true] at hvalid
  by_cases hino : (fs.islots k).ino < nbInodes fs.store.sb
  · rw [inodeLock_of_invalid hlock hvalid hino] at h
    cases h
    refine Or.inr ⟨rfl, fun _ => hino, ?_⟩
    simp [lockedSlot, effective, hvalid]
  · have hblk := getItabBlkno_of_ge (not_lt.mp hino)
    have hneg : (-einval : ℤ) < 0 := by decide
    simp only [inodeLock, hlock, hvalid, hblk, Bool.false_eq_true, if_false, hneg, if_true] at h
    cases h
    exact Or.inl ⟨hneg, hvalid, not_lt.mp hino, by simp [hvalid]⟩

theorem Stored.setSlot {i : Inode} {ino : ℕ} {d : Dinode} (h : Stored (fs.setSlot k i) ino d) :
    Stored fs ino d ∨ (i.valid = true ∧ i.ino = ino ∧ i.content = d) := by
  rcases h with hdisk | ⟨k', hvalid, hino, hd⟩
  · exact Or.inl (Or.inl hdisk)
  · by_cases hk : k' = k
    · subst hk
      rw [setSlot_self] at hvalid hino hd
      exact Or.inr ⟨hvalid, hino, hd⟩
    · rw [setSlot_ne i hk] at hvalid hino hd
      exact Or.inl (Or.inr ⟨k', hvalid, hino, hd⟩)

theorem Stored.effective (hino : (fs.islots k).valid = false → (fs.islots k).ino < nbInodes fs.store.sb) :
    Stored fs (fs.islots k).ino (effective fs k) := by
  unfold Fs.effective
  split_ifs with hvalid
  · exact Or.inr ⟨k, hvalid, rfl, rfl⟩
  · exact Or.inl ⟨hino (by simpa using hvalid), rfl⟩

theorem FsInv.setSlot (h : FsInv fs) {i : Inode}
    (hvalid : i.valid = true → (∃ c, Stored fs i.ino c ∧ SameMap c i.content) ∧
      i.ino < nbInodes fs.store.sb ∧ i.content.nblink ≠ 0)
    (hdisk : i.ino < nbInodes fs.store.sb → (diskDinode fs.store i.ino).nblink ≠ 0) :
    FsInv (fs.setSlot k i) ∧ (Stored fs).Covers (Stored (fs.setSlot k i)) := by
  have hcov : (Stored fs).Covers (Stored (fs.setSlot k i)) := by
    intro ino d hd
    rcases hd.setSlot with hold | ⟨hv, rfl, rfl⟩
    · exact ⟨d, hold, SameMap.refl d⟩
    · exact (hvalid hv).1
  refine ⟨⟨h.apart.congr hcov, h.inodes, ?_, ?_, ?_⟩, hcov⟩
  · exact forall_setSlot (P := fun j => j.valid = true → j.ino < nbInodes fs.store.sb) h.ino_lt
      fun hv => (hvalid hv).2.1
  · exact forall_setSlot (P := fun j => j.valid = true → j.content.nblink ≠ 0) h.linked
      fun hv => (hvalid hv).2.2
  · exact forall_setSlot (P := fun j => j.ino < nbInodes fs.store.sb →
      (diskDinode fs.store j.ino).nblink ≠ 0) h.disk_linked hdisk

theorem FsInv.lock (h : FsInv fs) (hl : inodeLock fs k = some (res, fs')) :
    FsInv fs' ∧ (Stored fs).Covers (Stored fs') ∧ fs'.store = fs.store := by
  rcases inodeLock_cases hl with ⟨-, hvalid, -, rfl⟩ | ⟨-, hino, rfl⟩
  · have hslot := h.setSlot (k := k) (i := { fs.islots k with locked := true })
      (fun hv => absurd hv (by simp [hvalid])) (h.disk_linked k)
    exact ⟨hslot.1, hslot.2, rfl⟩
  · have hlt : (fs.islots k).ino < nbInodes fs.store.sb := by
      by_cases hvalid : (fs.islots k).valid = true
      · exact h.ino_lt k hvalid
      · exact hino (by simpa using hvalid)
    have hlink : (Fs.effective fs k).nblink ≠ 0 := by
      unfold Fs.effective
      split_ifs with hvalid
      · exact h.linked k hvalid
      · exact h.disk_linked k hlt
    have hslot := h.setSlot (k := k) (i := lockedSlot fs k)
      (fun _ => ⟨⟨_, Stored.effective hino, SameMap.refl _⟩, hlt, hlink⟩) (h.disk_linked k)
    exact ⟨hslot.1, hslot.2, rfl⟩

end Lock

section Metadata

variable {fs fs' : Filesys} {k : Fin inodeCacheSize}

structure Relabels (fs fs' : Filesys) : Prop where
  inv : FsInv fs'
  store : MetaOnly fs.store fs'.store
  covers : (Stored fs).Covers (Stored fs')
  grows : Grows fs.store fs'.store

theorem inodeGet_slot {ino : ℕ} (h : inodeGet fs ino = some (k, fs')) :
    ∃ i : Inode, fs' = { fs.setSlot k i with icache := fs'.icache } ∧ i.ino = ino ∧
      (i.valid = true → (fs.islots k).valid = true ∧ (fs.islots k).ino = ino ∧
        i.content = (fs.islots k).content) := by
  rcases inodeGet_cases h with ⟨hreq, rfl⟩ | ⟨-, -, rfl⟩
  · have hino := cacheRequestLocked_eq_some hreq
    exact ⟨_, rfl, hino, fun hv => ⟨hv, hino, rfl⟩⟩
  · exact ⟨_, rfl, rfl, fun hv => absurd hv (by simp)⟩

theorem FsInv.reorder (h : FsInv fs) (cache : List (Fin inodeCacheSize)) :
    FsInv { fs with icache := cache } :=
  { h with }

theorem FsInv.get (h : FsInv fs) {ino : ℕ} (hlink : (diskDinode fs.store ino).nblink ≠ 0)
    (hg : inodeGet fs ino = some (k, fs')) : Relabels fs fs' := by
  obtain ⟨i, heq, hino, hcached⟩ := inodeGet_slot hg
  have hslot := h.setSlot (k := k) (i := i) ?_ fun _ => hino ▸ hlink
  · rw [heq]
    exact ⟨hslot.1.reorder _, MetaOnly.refl _, hslot.2, Grows.refl _⟩
  · intro hv
    obtain ⟨hv, hino', hcontent⟩ := hcached hv
    rw [hino, hcontent]
    exact ⟨⟨_, Or.inr ⟨k, hv, hino', rfl⟩, SameMap.refl _⟩, hino' ▸ h.ino_lt k hv, h.linked k hv⟩

theorem inodePut_eq_some (hlink : (fs.islots k).valid = true → (fs.islots k).content.nblink ≠ 0)
    (hp : inodePut fs k = some fs') :
    fs' = fs.setSlot k { fs.islots k with refcnt := (fs.islots k).refcnt - 1 } := by
  by_cases hlock : (fs.islots k).locked = true
  · by_cases hlast : (fs.islots k).refcnt = 1
    · simp [inodePut, hlast, putLast, hlock] at hp
    · simpa [inodePut, hlast] using hp.symm
  · rw [inodePut_of_linked (by simpa using hlock) hlink] at hp
    exact (some.inj hp).symm

theorem FsInv.put (h : FsInv fs) (hp : inodePut fs k = some fs') : Relabels fs fs' := by
  obtain rfl := inodePut_eq_some (h.linked k) hp
  have hslot := h.setSlot (k := k)
    (i := { fs.islots k with refcnt := (fs.islots k).refcnt - 1 })
    (fun hv => ⟨⟨_, Or.inr ⟨k, hv, rfl, rfl⟩, SameMap.refl _⟩, h.ino_lt k hv, h.linked k hv⟩)
    (h.disk_linked k)
  exact ⟨hslot.1, MetaOnly.refl _, hslot.2, Grows.refl _⟩

theorem ibmAlloc_cases {s : Store} (wf : s.sb.WellFormed) (hmax : nbInodes s.sb < 2 ^ 31) : (ibmAlloc s =
    (-enospc, s)) ∨ ∃ (id : ℕ) (s' : Store), ibmAlloc s = ((id : ℤ), s') ∧ id < nbInodes s.sb ∧
    inodeBit s id = false ∧ MetaOnly s s' ∧ Grows s s' ∧ (∀ ino, diskDinode s' ino = diskDinode s ino) := by
  rcases bmAlloc_spec s (inodeRegion s.sb) with ⟨hfail, -⟩ | ⟨id, hid, hbound, hclear, halloc⟩
  · exact Or.inl hfail
  · have hlt : id < nbInodes s.sb := by simpa [inodeRegion] using hbound
    have hpos := dataStart_pos wf
    have hframe : ∀ b, b < s.sb.ibmStart ∨ s.sb.ibmStart + s.sb.nbIbm ≤ b →
        (setRegionBit s (inodeRegion s.sb) id).blk b = s.blk b :=
      fun b hb => setRegionBit_blk hid hb
    have hmeta : MetaOnly s (setRegionBit s (inodeRegion s.sb) id) :=
      ⟨rfl, rfl, fun b hb => hframe b (by omega)⟩
    have hval : ibmAlloc s = ((id : ℤ), setRegionBit s (inodeRegion s.sb) id) := by
      have hno : asInt32 (0 + id) = (id : ℤ) := by rw [Nat.zero_add]; exact asInt32_of_lt (by omega)
      rw [← hno]
      exact halloc
    refine Or.inr ⟨id, _, hval, hlt, hclear, hmeta, ⟨rfl, fun b hb => hmeta.taken wf hb, ?_⟩, ?_⟩
    · intro ino _ hbit
      have hset := regionBit_setRegionBit (s := s) (r := inodeRegion s.sb) id ino
      exact hset.trans (by rw [show regionBit s (inodeRegion s.sb) ino = true from hbit]; rfl)
    · intro ino
      have hge : s.sb.itabStart ≤ itabBlk s.sb ino := Nat.le_add_right _ _
      unfold diskDinode
      change Dinode.read ((setRegionBit s (inodeRegion s.sb) id).blk (itabBlk s.sb ino)) _ = _
      rw [hframe _ (by omega)]

theorem ibmAlloc_of_eq {s s' : Store} {id : ℕ} (wf : s.sb.WellFormed) (hmax : nbInodes s.sb < 2 ^ 31)
    (h : ibmAlloc s = ((id : ℤ), s')) : inodeBit s id = false ∧ MetaOnly s s' ∧ Grows s s' ∧
      ∀ ino, diskDinode s' ino = diskDinode s ino := by
  rcases ibmAlloc_cases wf hmax with hfail | ⟨id', s₁, halloc, -, hclear, hrest⟩
  · have hneg := congrArg Prod.fst (h.symm.trans hfail)
    simp only [enospc] at hneg
    omega
  · obtain ⟨hid, rfl⟩ := Prod.mk.inj (h.symm.trans halloc)
    obtain rfl := Int.ofNat.inj hid
    exact ⟨hclear, hrest⟩

theorem FsInv.dirty (h : FsInv fs) {i : Inode} (hino : i.ino < nbInodes fs.store.sb)
    (hlink : i.content.nblink ≠ 0) (hmap : ∃ c, Stored fs i.ino c ∧ SameMap c i.content) :
    Relabels fs { fs with store := (markDirtyLocked fs.store i).2 } := by
  have hmeta := markDirtyLocked_metaOnly h.apart.wf i
  have hdisk := fun ino => diskDinode_markDirtyLocked (i := i) hino ino
  have hcov : (Stored fs).Covers (Stored { fs with store := (markDirtyLocked fs.store i).2 }) := by
    rintro ino d (⟨hlt, rfl⟩ | hcached)
    · dsimp only at hlt ⊢
      rw [hdisk ino]
      split_ifs with heq
      · obtain ⟨c, hc, hsame⟩ := hmap
        exact ⟨c, heq ▸ hc, hsame⟩
      · exact ⟨_, Or.inl ⟨hmeta.sb ▸ hlt, rfl⟩, SameMap.refl _⟩
    · exact ⟨d, Or.inr hcached, SameMap.refl d⟩
  refine ⟨⟨(hmeta.apart h.apart).congr hcov, hmeta.sb ▸ h.inodes, ?_, h.linked, ?_⟩, hmeta, hcov,
    Grows.markDirtyLocked h.apart.wf i⟩
  · intro k hv
    rw [hmeta.sb]
    exact h.ino_lt k hv
  · intro k hlt
    rw [hmeta.sb] at hlt
    dsimp only
    rw [hdisk]
    split_ifs
    · exact hlink
    · exact h.disk_linked k hlt

theorem inodeCreate_of_alloc {type : InodeType} {r : Except ℤ (Fin inodeCacheSize)} {id : ℕ} {s : Store}
    (halloc : ibmAlloc fs.store = ((id : ℤ), s)) (hid : id < nbInodes fs.store.sb) (hsb : s.sb = fs.store.sb)
    (hc : inodeCreate fs type = some (r, fs')) :
    ∃ (k : Fin inodeCacheSize) (i : Inode) (c : Dinode), r = .ok k ∧
      Stored { fs with store := s } id c ∧ i.ino = id ∧ i.valid = true ∧ i.locked = false ∧
      i.content = { c with type := type, nblink := 1 } ∧
      fs' = { { fs with store := (markDirtyLocked s i).2 }.setSlot k i with icache := fs'.icache } := by
  have hpos : ¬ (id : ℤ) < 0 := by omega
  simp only [inodeCreate, halloc, hpos, if_false, Int.toNat_natCast, bind_eq_bind, bind_eq_some_iff] at hc
  obtain ⟨⟨k, fs₂⟩, hget, ⟨res, fs₃⟩, hlock, hc⟩ := hc
  obtain ⟨i₂, hfs₂, hino₂, hcached⟩ := inodeGet_slot hget
  have hslot₂ : fs₂.islots k = i₂ := by rw [hfs₂]; exact setSlot_self ..
  have hstore₂ : fs₂.store = s := by rw [hfs₂]; rfl
  have hlt : i₂.ino < nbInodes s.sb := by rw [hino₂, hsb]; exact hid
  rcases inodeLock_cases hlock with ⟨-, -, hge, -⟩ | ⟨rfl, -, rfl⟩
  · rw [hslot₂, hstore₂] at hge
    omega
  have hcontent : Stored { fs with store := s } id (effective fs₂ k) := by
    unfold Fs.effective
    rw [hslot₂, hstore₂]
    split_ifs with hvalid
    · obtain ⟨hv, hino', heq⟩ := hcached hvalid
      exact Or.inr ⟨k, hv, hino', heq.symm⟩
    · exact Or.inl ⟨hsb ▸ hid, by rw [hino₂]⟩
  simp only [lt_self_iff_false, if_false, setSlot_self, setSlot_store, hstore₂] at hc
  have hino : (lockedSlot fs₂ k).ino = id := by
    change (fs₂.islots k).ino = id
    rw [hslot₂, hino₂]
  have hdirty : ∀ c : Dinode, (markDirtyLocked s { lockedSlot fs₂ k with content := c }).1 = 0 := by
    intro c
    rw [markDirtyLocked_of_lt (by change (lockedSlot fs₂ k).ino < _; rw [hino, hsb]; exact hid)]
  rw [if_neg (by rw [hdirty]; omega)] at hc
  cases hc
  refine ⟨k, { lockedSlot fs₂ k with
    locked := false, content := { effective fs₂ k with type := type, nblink := 1 } },
    effective fs₂ k, rfl, hcontent, hino, rfl, rfl, rfl, ?_⟩
  rw [hfs₂]
  simp only [inodeUnlock, setSlot, lockedSlot, update_self, update_idem]
  rfl

theorem inodeCreate_cases {type : InodeType} {r : Except ℤ (Fin inodeCacheSize)} (wf : fs.store.sb.WellFormed)
    (hmax : nbInodes fs.store.sb < 2 ^ 31) (hc : inodeCreate fs type = some (r, fs')) :
    (r = .error (-enospc) ∧ fs' = fs) ∨
    ∃ (id : ℕ) (s : Store) (k : Fin inodeCacheSize) (i : Inode) (c : Dinode),
      ibmAlloc fs.store = ((id : ℤ), s) ∧ id < nbInodes fs.store.sb ∧ r = .ok k ∧
      Stored { fs with store := s } id c ∧ i.ino = id ∧ i.valid = true ∧ i.locked = false ∧
      i.content = { c with type := type, nblink := 1 } ∧
      fs' = { { fs with store := (markDirtyLocked s i).2 }.setSlot k i with icache := fs'.icache } := by
  rcases ibmAlloc_cases wf hmax with hfail | ⟨id, s, halloc, hid, -, hmeta, -, -⟩
  · have hneg : (-enospc : ℤ) < 0 := by decide
    simp only [inodeCreate, hfail, hneg, if_true, Option.pure_def] at hc
    cases hc
    exact Or.inl ⟨rfl, rfl⟩
  · obtain ⟨k, i, c, hmade⟩ := inodeCreate_of_alloc halloc hid hmeta.sb hc
    exact Or.inr ⟨id, s, k, i, c, halloc, hid, hmade⟩

theorem Relabels.trans {fs'' : Filesys} (h : Relabels fs fs') (h' : Relabels fs' fs'') : Relabels fs fs'' :=
  ⟨h'.inv, h.store.trans h'.store, h.covers.trans h'.covers, h.grows.trans h'.grows⟩

theorem Relabels.refl (h : FsInv fs) : Relabels fs fs :=
  ⟨h, MetaOnly.refl _, Contents.Covers.refl _, Grows.refl _⟩

theorem FsInv.create (h : FsInv fs) {type : InodeType} {r : Except ℤ (Fin inodeCacheSize)}
    (hc : inodeCreate fs type = some (r, fs')) : Relabels fs fs' := by
  rcases inodeCreate_cases h.apart.wf h.inodes hc with
    ⟨-, rfl⟩ | ⟨id, s, k, i, c, halloc, hid, -, hstored, hino, -, -, hcontent, heq⟩
  · exact Relabels.refl h
  obtain ⟨-, hmeta, hgrows, hdisk⟩ := ibmAlloc_of_eq h.apart.wf h.inodes halloc
  -- the bitmap, then the inode table, then the slot
  have hbit : Relabels fs { fs with store := s } := by
    have hcov : (Stored fs).Covers (Stored { fs with store := s }) := by
      rintro ino d (⟨hlt, rfl⟩ | hcached)
      · exact ⟨_, Or.inl ⟨hmeta.sb ▸ hlt, rfl⟩, by rw [← hdisk]; exact SameMap.refl _⟩
      · exact ⟨d, Or.inr hcached, SameMap.refl d⟩
    refine ⟨⟨(hmeta.apart h.apart).congr hcov, hmeta.sb ▸ h.inodes, ?_, h.linked, ?_⟩, hmeta, hcov, hgrows⟩
    · intro k hv
      dsimp only
      rw [hmeta.sb]
      exact h.ino_lt k hv
    · intro k hlt
      dsimp only at hlt ⊢
      rw [hmeta.sb] at hlt
      rw [hdisk]
      exact h.disk_linked k hlt
  have hlt : i.ino < nbInodes s.sb := by rw [hino, hmeta.sb]; exact hid
  have hlink : i.content.nblink ≠ 0 := by rw [hcontent]; simp
  have htab := hbit.inv.dirty hlt hlink ⟨c, hino ▸ hstored, by rw [hcontent]; exact ⟨rfl, rfl⟩⟩
  have hdisk' : diskDinode (markDirtyLocked s i).2 i.ino = i.content := by
    rw [diskDinode_markDirtyLocked hlt, if_pos rfl]
  have hlt' : i.ino < nbInodes (markDirtyLocked s i).2.sb := by
    rw [(markDirtyLocked_metaOnly hbit.inv.apart.wf i).sb]
    exact hlt
  have hslot := htab.inv.setSlot (k := k) (i := i)
    (fun _ => ⟨⟨_, Or.inl ⟨hlt', hdisk'.symm⟩, SameMap.refl _⟩, hlt', hlink⟩)
    (fun _ => by dsimp only; rw [hdisk']; exact hlink)
  have hset : Relabels { fs with store := (markDirtyLocked s i).2 } fs' := by
    rw [heq]
    exact ⟨hslot.1.reorder _, MetaOnly.refl _, hslot.2, Grows.refl _⟩
  exact (hbit.trans htab).trans hset

end Metadata

section Access

variable {fs fs' : Filesys} {k : Fin inodeCacheSize} {s s' : Store} {i i' : Inode} {c : Cursor}

def Leaves (c : Cursor) (s' : Store) (i' : Inode) : Prop :=
  (∃ z, i' = { c.inode with content := { c.inode.content with size := z } }) ∧
    (s' = c.store ∨ s' = (markDirtyLocked c.store i').2)

theorem inodeWrite_leaves (s : Store) (i : Inode) (copyin : Copyin) (offset count : ℕ) :
    ∃ c, Leaves c (inodeWrite s i copyin offset count).2.1 (inodeWrite s i copyin offset count).2.2 ∧
      (c = ⟨s, i, offset, 0⟩ ∨ (offset ≤ i.content.size.toNat ∧ (offset + count) % 2 ^ 64 ≤ fsMaxFileSize ∧
          c = (writeLoop copyin count ⟨s, i, offset, 0⟩).2)) := by
  have hstay : Leaves ⟨s, i, offset, 0⟩ s i := ⟨⟨i.content.size, rfl⟩, Or.inl rfl⟩
  unfold inodeWrite
  split_ifs with hbeyond hbig
  · exact ⟨_, hstay, Or.inl rfl⟩
  · exact ⟨_, hstay, Or.inl rfl⟩
  · refine ⟨_, ?_, Or.inr ⟨not_lt.mp hbeyond, not_lt.mp hbig, rfl⟩⟩
    dsimp only
    by_cases hgrow : (writeLoop copyin count ⟨s, i, offset, 0⟩).2.inode.content.size.toNat <
        (writeLoop copyin count ⟨s, i, offset, 0⟩).2.offset
    · rw [if_pos hgrow]
      exact ⟨⟨_, rfl⟩, Or.inr rfl⟩
    · rw [if_neg hgrow]
      exact ⟨⟨_, rfl⟩, Or.inl rfl⟩

theorem inodeRead_leaves {σ : Type} (s : Store) (i : Inode) (copyout : Copyout σ) (dst : σ)
    (offset count : ℕ) :
    ∃ c, Leaves c (inodeRead s i copyout dst offset count).2.2.1
        (inodeRead s i copyout dst offset count).2.2.2 ∧
      (c = ⟨s, i, offset, 0⟩ ∨ ((offset + count) % 2 ^ 64 ≤ i.content.size.toNat ∧
          c = (readLoop copyout count ⟨s, i, offset, 0⟩ dst).2.1)) := by
  unfold inodeRead
  split_ifs with hbeyond
  · exact ⟨_, ⟨⟨i.content.size, rfl⟩, Or.inl rfl⟩, Or.inl rfl⟩
  · exact ⟨_, ⟨⟨_, rfl⟩, Or.inl rfl⟩, Or.inr ⟨not_lt.mp hbeyond, rfl⟩⟩

structure Passed (S : Contents) (s : Store) (i : Inode) (c : Cursor) : Prop where
  apart : Apart c.store (S.add i.ino c.inode.content)
  keeps : Keeps s c.store
  inode : ∃ p, c.inode = { i with content := { i.content with dirblkno := p } }

theorem Passed.refl {S : Contents} (h : Apart s (S.add i.ino i.content)) (offset done : ℕ) :
    Passed S s i ⟨s, i, offset, done⟩ :=
  ⟨h, Keeps.refl s, i.content.dirblkno, rfl⟩

theorem Passed.of_write {S : Contents} (h : Apart s (S.add i.ino i.content)) (copyin : Copyin)
    (offset count : ℕ) : Passed S s i (writeLoop copyin count ⟨s, i, offset, 0⟩).2 := by
  obtain ⟨hapart, hkeeps⟩ := h.writeLoop copyin count offset
  exact ⟨hapart, hkeeps, writeLoop_inode ..⟩

theorem Passed.of_read {S : Contents} {σ : Type} (h : Apart s (S.add i.ino i.content)) (copyout : Copyout σ)
    (dst : σ) (offset count : ℕ) : Passed S s i (readLoop copyout count ⟨s, i, offset, 0⟩ dst).2.1 := by
  obtain ⟨hapart, hkeeps⟩ := h.readLoop copyout count offset dst
  exact ⟨hapart, hkeeps, readLoop_inode ..⟩

theorem diskDinode_keeps (wf : s.sb.WellFormed) (h : Keeps s s') {ino : ℕ}
    (hino : ino < nbInodes s.sb) : diskDinode s' ino = diskDinode s ino := by
  have hpos := dataStart_pos wf
  have hlt := itabBlk_lt hino
  have hge : s.sb.itabStart ≤ itabBlk s.sb ino := Nat.le_add_right _ _
  unfold diskDinode
  rw [h.sb, h.frame _ (by omega) (by omega) (by omega)]

theorem FsInv.of_keeps (h : FsInv fs) (hkeeps : Keeps fs.store s') (ha : Apart s' (Stored fs)) :
    FsInv { fs with store := s' } ∧ (Stored fs).Covers (Stored { fs with store := s' }) := by
  have hnb : nbInodes s'.sb = nbInodes fs.store.sb := by rw [hkeeps.sb]
  have hcov : (Stored fs).Covers (Stored { fs with store := s' }) := by
    rintro ino d (⟨hlt, rfl⟩ | hcached)
    · have hino : ino < nbInodes fs.store.sb := hnb ▸ hlt
      exact ⟨_, Or.inl ⟨hino, rfl⟩, by rw [← diskDinode_keeps h.apart.wf hkeeps hino]; exact SameMap.refl _⟩
    · exact ⟨d, Or.inr hcached, SameMap.refl d⟩
  refine ⟨⟨ha.congr hcov, hnb ▸ h.inodes, hnb ▸ h.ino_lt, h.linked, ?_⟩, hcov⟩
  intro k hlt
  dsimp only at hlt ⊢
  rw [hnb] at hlt
  rw [diskDinode_keeps h.apart.wf hkeeps hlt]
  exact h.disk_linked k hlt

theorem FsInv.access (h : FsInv fs) (hvalid : (fs.islots k).valid = true)
    (hpass : Passed (Stored fs) fs.store (fs.islots k) c) (hleave : Leaves c s' i') :
    let fs' := inodeUnlock ({ fs with store := s' }.setSlot k i') k
    FsInv fs' ∧ Grows fs.store s' ∧ MetaOnly c.store s' ∧
      ((Stored fs).add (fs.islots k).ino c.inode.content).Covers (Stored fs') := by
  obtain ⟨hapart, hkeeps, p, hinode⟩ := hpass
  obtain ⟨⟨z, hi'⟩, hs'⟩ := hleave
  have hlt := h.ino_lt k hvalid
  have hino : c.inode.ino = (fs.islots k).ino := by rw [hinode]
  have hlink : c.inode.content.nblink ≠ 0 := by rw [hinode]; exact h.linked k hvalid
  have hadd : ((Stored fs).add (fs.islots k).ino c.inode.content).Covers (Stored fs) :=
    fun _ d hd => ⟨d, Or.inl hd, SameMap.refl d⟩
  obtain ⟨hblk, hblkcov⟩ := h.of_keeps hkeeps (hapart.congr hadd)
  -- first the blocks and the inode in memory
  have hcov : ((Stored fs).add (fs.islots k).ino c.inode.content).Covers
      (Stored ({ fs with store := c.store }.setSlot k c.inode)) := by
    intro ino d hd
    rcases hd.setSlot with hd | ⟨-, rfl, rfl⟩
    · exact (hadd.trans hblkcov) ino d hd
    · exact ⟨_, Or.inr ⟨hino, rfl⟩, SameMap.refl _⟩
  have hmem : FsInv ({ fs with store := c.store }.setSlot k c.inode) := by
    refine ⟨hapart.congr hcov, hblk.inodes, ?_, ?_, ?_⟩
    · exact forall_setSlot (P := fun j => j.valid = true → j.ino < nbInodes c.store.sb)
        hblk.ino_lt fun _ => by rw [hkeeps.sb, hino]; exact hlt
    · exact forall_setSlot (P := fun j => j.valid = true → j.content.nblink ≠ 0) h.linked
        fun _ => hlink
    · exact forall_setSlot (P := fun j => j.ino < nbInodes c.store.sb →
        (diskDinode c.store j.ino).nblink ≠ 0) hblk.disk_linked (hino ▸ hblk.disk_linked k)
  have hino' : i'.ino = (fs.islots k).ino := by rw [hi', ← hino]
  have hlink' : i'.content.nblink ≠ 0 := by rw [hi']; exact hlink
  have hsame : SameMap c.inode.content i'.content := by rw [hi']; exact ⟨rfl, rfl⟩
  have hlt' : i'.ino < nbInodes c.store.sb := by rw [hino', hkeeps.sb]; exact hlt
  have hstored : ∀ t : Store, Stored ({ fs with store := t }.setSlot k c.inode) i'.ino
      c.inode.content := by
    intro t
    refine Or.inr ⟨k, ?_, ?_, ?_⟩
    · rw [setSlot_self, hinode]
      exact hvalid
    · rw [setSlot_self, hino, hino']
    · rw [setSlot_self]
  -- then the inode table, if the size is new
  have hdirty : Relabels ({ fs with store := c.store }.setSlot k c.inode)
      ({ fs with store := s' }.setSlot k c.inode) := by
    rcases hs' with rfl | rfl
    · exact Relabels.refl hmem
    · exact hmem.dirty hlt' hlink' ⟨_, hstored _, hsame⟩
  -- and at last the slot is given the final inode
  have hdisk : i'.ino < nbInodes s'.sb → (diskDinode s' i'.ino).nblink ≠ 0 := by
    have hk := hdirty.inv.disk_linked k
    rw [setSlot_self, hino, ← hino'] at hk
    exact hk
  have hsb : s'.sb = c.store.sb := hdirty.store.sb
  obtain ⟨hinv, hcov'⟩ := hdirty.inv.setSlot (k := k) (i := { i' with locked := false })
    (fun _ => ⟨⟨_, hstored s', hsame⟩, hsb ▸ hlt', hlink'⟩) hdisk
  have hfinal : inodeUnlock ({ fs with store := s' }.setSlot k i') k =
      ({ fs with store := s' }.setSlot k c.inode).setSlot k { i' with locked := false } := by
    rw [inodeUnlock, setSlot_self, setSlot_setSlot, setSlot_setSlot]
  intro fs'
  rw [show fs' = _ from hfinal]
  exact ⟨hinv, (Grows.of_keeps h.apart.wf hkeeps).trans hdirty.grows, hdirty.store,
    (hcov.trans hdirty.covers).trans hcov'⟩

theorem Stored.covers_add (hvalid : (fs.islots k).valid = true) :
    (Stored fs).Covers ((Stored fs).add (fs.islots k).ino (fs.islots k).content) := by
  rintro ino d (hd | ⟨rfl, rfl⟩)
  · exact ⟨d, hd, SameMap.refl d⟩
  · exact ⟨_, Or.inr ⟨k, hvalid, rfl, rfl⟩, SameMap.refl _⟩

theorem locked_cases (h : FsInv fs) {access : Store → Inode → Store × Inode}
    (hl : FsOp.locked fs k access = some fs') :
    Relabels fs fs' ∨ ∃ fs₁, Relabels fs fs₁ ∧ fs₁.store = fs.store ∧
      (fs₁.islots k).valid = true ∧ (fs₁.islots k).content = effective fs k ∧
      fs' = inodeUnlock ({ fs₁ with store := (access fs₁.store (fs₁.islots k)).1 }.setSlot k
        (access fs₁.store (fs₁.islots k)).2) k := by
  unfold FsOp.locked at hl
  obtain ⟨⟨res, fs₁⟩, hlock, hfs'⟩ := map_eq_some_iff.mp hl
  obtain ⟨hinv, hcov, hstore⟩ := h.lock hlock
  have hrel : Relabels fs fs₁ :=
    ⟨hinv, hstore ▸ MetaOnly.refl _, hcov, hstore ▸ Grows.refl _⟩
  dsimp only at hfs'
  rcases inodeLock_cases hlock with ⟨hneg, -, -, -⟩ | ⟨rfl, -, rfl⟩
  · rw [if_pos hneg] at hfs'
    exact Or.inl (hfs' ▸ hrel)
  · rw [if_neg (lt_irrefl 0)] at hfs'
    refine Or.inr ⟨_, hrel, hstore, ?_, ?_, hfs'.symm⟩
    · rw [setSlot_self]
      rfl
    · rw [setSlot_self]
      rfl

end Access

inductive Effect (fs : Filesys) (safe : Prop) : Filesys → Prop
  | relabels {fs' : Filesys} (h : Relabels fs fs') : Effect fs safe fs'
  | access {fs₁ : Filesys} {k : Fin inodeCacheSize} {c : Cursor} {s' : Store} {i' : Inode}
      (hrel : Relabels fs fs₁) (hvalid : (fs₁.islots k).valid = true)
      (hpass : Passed (Stored fs₁) fs₁.store (fs₁.islots k) c)
      (howned : safe → fs₁.store.deny = [] →
        Owned fs₁.store ((Stored fs₁).add (fs₁.islots k).ino (fs₁.islots k).content) →
        Owned c.store ((Stored fs₁).add (fs₁.islots k).ino c.inode.content) ∧ c.store.deny = [])
      (hleave : Leaves c s' i') :
      Effect fs safe (inodeUnlock ({ fs₁ with store := s' }.setSlot k i') k)
  | takes : Effect fs safe { fs with store := (balloc fs.store).2 }

section Steps

variable {fs fs' : Filesys} {op : FsOp}

theorem Effect.of_write (h : FsInv fs) {k : Fin inodeCacheSize} {copyin : Copyin}
    {offset count : ℕ} (hop : (FsOp.write k copyin offset count).Proper fs)
    (hs : (FsOp.write k copyin offset count).step fs = some fs') :
    Effect fs ((FsOp.write k copyin offset count).Safe fs) fs' := by
  have hrange : offset + count < 2 ^ 64 := hop
  have hl : FsOp.locked fs k (fun s i => (inodeWrite s i copyin offset count).2) = some fs' := hs
  rcases locked_cases h hl with hrel | ⟨fs₁, hrel, hstore, hvalid, hcontent, rfl⟩
  · exact .relabels hrel
  have hadd := hrel.inv.apart.congr (Stored.covers_add hvalid)
  obtain ⟨c, hleave, hc⟩ := inodeWrite_leaves fs₁.store (fs₁.islots k) copyin offset count
  refine .access (c := c) hrel hvalid ?_ ?_ hleave
  · rcases hc with rfl | ⟨-, -, rfl⟩
    · exact Passed.refl hadd ..
    · exact Passed.of_write hadd ..
  · intro hsafe hdeny howned
    rcases hc with rfl | ⟨hoff, hmax, rfl⟩
    · exact ⟨howned, hdeny⟩
    · rw [Nat.mod_eq_of_lt hrange] at hmax
      have hserved := hsafe (hcontent ▸ hoff) hmax
      rw [← hstore, ← hcontent] at hserved
      simp only [fsMaxFileSize, fsInodeDirDblkno, fsInodeIndirDblkno, fsBlkSize] at hmax
      exact howned.writeLoop hrel.inv.apart.wf hdeny hserved (by omega) copyin

theorem Effect.of_read (h : FsInv fs) {k : Fin inodeCacheSize} {copyout : Copyout Bytes}
    {dst : Bytes} {offset count : ℕ} (hop : (FsOp.read k copyout dst offset count).Proper fs)
    (hs : (FsOp.read k copyout dst offset count).step fs = some fs') :
    Effect fs ((FsOp.read k copyout dst offset count).Safe fs) fs' := by
  have hrange : offset + count < 2 ^ 64 := hop
  have hl : FsOp.locked fs k (fun s i => (inodeRead s i copyout dst offset count).2.2) =
      some fs' := hs
  rcases locked_cases h hl with hrel | ⟨fs₁, hrel, hstore, hvalid, hcontent, rfl⟩
  · exact .relabels hrel
  have hadd := hrel.inv.apart.congr (Stored.covers_add hvalid)
  obtain ⟨c, hleave, hc⟩ := inodeRead_leaves fs₁.store (fs₁.islots k) copyout dst offset count
  refine .access (c := c) hrel hvalid ?_ ?_ hleave
  · rcases hc with rfl | ⟨-, rfl⟩
    · exact Passed.refl hadd ..
    · exact Passed.of_read hadd ..
  · intro hsafe hdeny howned
    rcases hc with rfl | ⟨hsize, rfl⟩
    · exact ⟨howned, hdeny⟩
    · rw [Nat.mod_eq_of_lt hrange] at hsize
      have hserved := hsafe (hcontent ▸ hsize)
      rw [← hstore, ← hcontent] at hserved
      have hlt := UInt32.toNat_lt (fs₁.islots k).content.size
      exact howned.readLoop hrel.inv.apart.wf hdeny hserved (by omega) copyout dst

theorem FsInv.effect (h : FsInv fs) (hop : op.Proper fs) (hs : op.step fs = some fs') :
    Effect fs (op.Safe fs) fs' := by
  cases op with
  | create type =>
    obtain ⟨⟨r, fs₁⟩, hc, rfl⟩ := map_eq_some_iff.mp hs
    exact .relabels (h.create hc)
  | get ino =>
    obtain ⟨⟨k, fs₁⟩, hg, rfl⟩ := map_eq_some_iff.mp hs
    exact .relabels (h.get hop.2 hg)
  | put k => exact .relabels (h.put hs)
  | read k copyout dst offset count => exact .of_read h hop hs
  | write k copyin offset count => exact .of_write h hop hs
  | balloc => exact some.inj hs ▸ .takes

theorem FsInv.balloc (h : FsInv fs) : FsInv { fs with store := (balloc fs.store).2 } ∧
    (Stored fs).Covers (Stored { fs with store := (Fs.balloc fs.store).2 }) ∧
    Keeps fs.store (Fs.balloc fs.store).2 := by
  have hkeeps : Keeps fs.store (Fs.balloc fs.store).2 ∧ Apart (Fs.balloc fs.store).2 (Stored fs) := by
    rcases balloc_cases h.apart.wf with ⟨b, s', hb, -, ha⟩ | ⟨hb, -⟩
    · rw [hb]
      exact ⟨Keeps.allocates ha, h.apart.allocates ha⟩
    · rw [hb]
      exact ⟨Keeps.refuse _, h.apart.wf, h.apart.table, h.apart.data⟩
  obtain ⟨hinv, hcov⟩ := h.of_keeps hkeeps.1 hkeeps.2
  exact ⟨hinv, hcov, hkeeps.1⟩

theorem Owned.balloc {s : Store} {S : Contents} (h : Owned s S) (wf : s.sb.WellFormed)
    (hdeny : s.deny = []) : Owned (Fs.balloc s).2 S ∧ (Fs.balloc s).2.deny = [] := by
  rcases balloc_cases wf with ⟨b, s', hb, hdeny', ha⟩ | ⟨hb, -⟩
  · rw [hb]
    exact ⟨h.allocates wf ha, by rw [hdeny', hdeny]; rfl⟩
  · rw [hb]
    exact ⟨⟨h.taken, h.unique⟩, by rw [Store.refuse, hdeny]; rfl⟩

theorem FsInv.step (h : FsInv fs) (hop : op.Proper fs) (hs : op.step fs = some fs') :
    FsInv fs' ∧ Grows fs.store fs'.store := by
  cases h.effect hop hs with
  | relabels hrel => exact ⟨hrel.inv, hrel.grows⟩
  | access hrel hvalid hpass _ hleave =>
    obtain ⟨hinv, hgrows, -, -⟩ := hrel.inv.access hvalid hpass hleave
    exact ⟨hinv, hrel.grows.trans hgrows⟩
  | takes =>
    obtain ⟨hinv, -, hkeeps⟩ := h.balloc
    exact ⟨hinv, Grows.of_keeps h.apart.wf hkeeps⟩

theorem Owned.step (h : FsInv fs) (howned : Owned fs.store (Stored fs)) (hdeny : fs.store.deny = [])
    (hop : op.Proper fs) (hsafe : op.Safe fs) (hs : op.step fs = some fs') :
    Owned fs'.store (Stored fs') ∧ fs'.store.deny = [] := by
  have hrelabel : ∀ {fs₁}, Relabels fs fs₁ → Owned fs₁.store (Stored fs₁) ∧ fs₁.store.deny = [] :=
    fun hrel => ⟨(hrel.store.owned h.apart.wf howned).congr hrel.covers, hrel.store.deny.trans hdeny⟩
  cases h.effect hop hs with
  | relabels hrel => exact hrelabel hrel
  | access hrel hvalid hpass hway hleave =>
    obtain ⟨howned₁, hdeny₁⟩ := hrelabel hrel
    obtain ⟨hc, hcdeny⟩ := hway hsafe hdeny₁ (howned₁.congr (Stored.covers_add hvalid))
    obtain ⟨-, -, hmeta, hcov⟩ := hrel.inv.access hvalid hpass hleave
    exact ⟨(hmeta.owned hpass.apart.wf hc).congr hcov, hmeta.deny.trans hcdeny⟩
  | takes =>
    obtain ⟨-, hcov, -⟩ := h.balloc
    obtain ⟨hb, hbdeny⟩ := howned.balloc h.apart.wf hdeny
    exact ⟨hb.congr hcov, hbdeny⟩

theorem FsInv.run (h : FsInv fs) (hr : Reaches FsOp.step (fun fs op => op.Proper fs) fs fs') :
    FsInv fs' ∧ Grows fs.store fs'.store := by
  refine hr.invariant (P := fun fs' => FsInv fs' ∧ Grows fs.store fs'.store) ⟨h, Grows.refl _⟩ ?_
  rintro fs₁ op fs₂ ⟨hinv, hgrows⟩ hop hs
  obtain ⟨hinv', hgrows'⟩ := hinv.step hop hs
  exact ⟨hinv', hgrows.trans hgrows'⟩

theorem Owned.run (h : FsInv fs) (howned : Owned fs.store (Stored fs)) (hdeny : fs.store.deny = [])
    (hr : Reaches FsOp.step (fun fs op => op.Proper fs ∧ op.Safe fs) fs fs') :
    Owned fs'.store (Stored fs') := by
  have hall : FsInv fs' ∧ Owned fs'.store (Stored fs') ∧ fs'.store.deny = [] := by
    refine hr.invariant
      (P := fun fs' => FsInv fs' ∧ Owned fs'.store (Stored fs') ∧ fs'.store.deny = [])
      ⟨h, howned, hdeny⟩ ?_
    rintro fs₁ op fs₂ ⟨hinv, howned, hdeny⟩ ⟨hop, hsafe⟩ hs
    exact ⟨(hinv.step hop hs).1, howned.step hinv hdeny hop hsafe hs⟩
  exact hall.2.1

end Steps

end RvMiniOs.Fs
