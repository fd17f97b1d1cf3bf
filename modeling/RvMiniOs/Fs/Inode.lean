import RvMiniOs.Fs.Balloc

/-!
# Inodes

`inode.c`: the inode cache, the block map of an inode and the read and write
loops. The functions from `getDirBlk` to `inodeRead` run with the inode's mutex
held and take the inode as a value; the cache functions work on a slot of
`islots`. Calls do not overlap, so a lock that is already taken is never
released: locking it again blocks for ever, which like `panic` is `none`.
-/

namespace RvMiniOs.Fs

open Lib

abbrev inodeCacheSize : ℕ := 64

/-- `struct inode`; `locked` is the state of its mutex. -/
structure Inode where
  refcnt : ℤ
  ino : ℕ
  locked : Bool
  valid : Bool
  content : Dinode

/-- The mounted file system: the store below, the inode cache with its slots in
most recently used order, and the slot that `root` points to. -/
structure Filesys where
  store : Store
  islots : Fin inodeCacheSize → Inode
  icache : List (Fin inodeCacheSize)
  root : Fin inodeCacheSize

def getItabBlkno (sb : FsMeta) (ino : ℕ) : ℤ :=
  let tabBlkno := sb.itabStart + ino / inodesPerBlk
  if sb.nbItab + sb.itabStart ≤ tabBlkno then -einval else tabBlkno

def getTabIdx (id : ℕ) : ℕ := id % inodesPerBlk

/-- The struct assignment `tab_entry[idx] = i->content` when the inode has a
table block. -/
def markDirtyLocked (s : Store) (i : Inode) : ℤ × Store :=
  let itabBlkno := getItabBlkno s.sb i.ino
  if itabBlkno < 0 then (itabBlkno, s)
  else
    let b := itabBlkno.toNat
    (0, s.setBlk b (splice (s.blk b) (sizeofDinode * getTabIdx i.ino) sizeofDinode i.content.bytes))

/-- `get_dir_blk`. The result of `balloc` goes through a `uint32_t`, so the test
`blkno < 0` never succeeds and an error code is stored as a block number. -/
def getDirBlk (s : Store) (i : Inode) (nth : Fin fsInodeDirDblkno) : ℤ × Store × Inode :=
  let blkno := i.content.dirblkno nth
  if blkno = 0 then
    let a := balloc s
    let blkno := toU32 a.1
    (asInt32 blkno.toNat, a.2,
      { i with content :=
        { i.content with dirblkno := Function.update i.content.dirblkno nth blkno } })
  else (asInt32 blkno.toNat, s, i)

/-- `get_indir_blk`. The table is whatever block `indir` names, block 0 when the
inode has none; the result of `balloc` is treated as in `get_dir_blk`. -/
def getIndirBlk (s : Store) (i : Inode) (nth : ℕ) : ℤ × Store × Inode :=
  let nth := nth - fsInodeDirDblkno
  let indirBlk := i.content.indir.toNat
  let blkno := getU32 (s.blk indirBlk) (4 * nth)
  if blkno = 0 then
    let a := balloc s
    let blkno := toU32 a.1
    (asInt32 blkno.toNat, a.2.setBlk indirBlk (putU32 (a.2.blk indirBlk) (4 * nth) blkno), i)
  else (asInt32 blkno.toNat, s, i)

def getDataLocked (s : Store) (i : Inode) (nth : ℕ) : ℤ × Store × Inode :=
  if fsInodeDirDblkno + fsInodeIndirDblkno ≤ nth then (-efbig, s, i)
  else if h : nth < fsInodeDirDblkno then getDirBlk s i ⟨nth, h⟩
  else getIndirBlk s i nth

def releaseDirBlkFrom (s : Store) (i : Inode) : List (Fin fsInodeDirDblkno) → ℤ × Store × Inode
  | [] => (0, s, i)
  | idx :: rest =>
    let blkno := i.content.dirblkno idx
    if blkno = 0 then releaseDirBlkFrom s i rest
    else
      let i' := { i with content :=
        { i.content with dirblkno := Function.update i.content.dirblkno idx 0 } }
      let f := bfree s blkno.toNat
      if f.1 < 0 then (f.1, f.2, i') else releaseDirBlkFrom f.2 i' rest

def releaseDirBlkLocked (s : Store) (i : Inode) : ℤ × Store × Inode :=
  releaseDirBlkFrom s i (List.finRange fsInodeDirDblkno)

/-- The loop of `release_indir_locked` over the entries of the table, whose buffer it holds.
`content` is what the buffer has, and `kept` that it still stands for the table: an entry
that names the table itself makes `bcache_invalidate` take it away, and later stores are
lost. -/
def releaseIndirFrom (indirBlk : ℕ) (s : Store) (content : Bytes) (kept : Bool) :
    List ℕ → Store
  | [] => s
  | n :: rest =>
    let blkno := getU32 content (4 * n)
    if blkno = 0 then releaseIndirFrom indirBlk s content kept rest
    else
      let content := putU32 content (4 * n) 0
      let s := if kept then s.setBlk indirBlk content else s
      let kept := kept && decide (blkno.toNat ≠ indirBlk)
      releaseIndirFrom indirBlk (bfree s blkno.toNat).2 content kept rest

/-- `release_indir_locked` clears the table in block `indir` and leaves `indir`
itself alone. -/
def releaseIndirLocked (s : Store) (i : Inode) : ℤ × Store :=
  let indirBlk := i.content.indir.toNat
  (0, releaseIndirFrom indirBlk s (s.blk indirBlk) true (List.range fsInodeIndirDblkno))

def inodeTruncateLocked (s : Store) (i : Inode) : ℤ × Store × Inode :=
  let d := releaseDirBlkLocked s i
  if d.1 < 0 then d
  else
    let t := releaseIndirLocked d.2.1 d.2.2
    if t.1 < 0 then (t.1, t.2, d.2.2)
    else (0, t.2, { d.2.2 with content := { d.2.2.content with size := 0 } })

/-- Where `inode_write` takes its bytes from: the `m` bytes that follow the first
`done` ones, or the error of `vpage_copyin`. -/
abbrev Copyin := ℕ → ℕ → Except ℤ Bytes

/-- Where `inode_read` puts its bytes: the result of the copy and the memory of
type `σ` it leaves. -/
abbrev Copyout (σ : Type) := σ → ℕ → ℕ → Bytes → ℤ × σ

def kernelSrc (src : Bytes) : Copyin := fun done _ => .ok fun k => src (done + k)

def kernelDst : Copyout Bytes := fun dst done m buf => (0, splice dst done m buf)

structure Cursor where
  store : Store
  inode : Inode
  offset : ℕ
  done : ℕ

def turnSize (count offset done : ℕ) : ℕ := min (count - done) (fsBlkSize - offset % fsBlkSize)

theorem turnSize_pos {count offset done : ℕ} (h : done < count) : 0 < turnSize count offset done := by
  have hmod : offset % 4096 < 4096 := Nat.mod_lt _ (by norm_num)
  simp only [turnSize, fsBlkSize]
  omega

def writeLoop (copyin : Copyin) (count : ℕ) (c : Cursor) : ℤ × Cursor :=
  if _h : c.done < count then
    let blkOff := c.offset % fsBlkSize
    let m := turnSize count c.offset c.done
    let d := getDataLocked c.store c.inode (c.offset / fsBlkSize)
    if d.1 < 0 then (d.1, { c with store := d.2.1, inode := d.2.2 })
    else
      match copyin c.done m with
      | .error e => (e, { c with store := d.2.1, inode := d.2.2 })
      | .ok buf =>
        let dblk := d.2.1.blk d.1.toNat
        writeLoop copyin count
          { store := d.2.1.setBlk d.1.toNat (splice dblk blkOff m buf)
            inode := d.2.2
            offset := (c.offset + m) % 2 ^ 32
            done := c.done + m }
  else (0, c)
termination_by count - c.done
decreasing_by
  have hpos : 0 < turnSize count c.offset c.done := turnSize_pos _h
  omega

def inodeWrite (s : Store) (i : Inode) (copyin : Copyin) (offset count : ℕ) :
    ℤ × Store × Inode :=
  if i.content.size.toNat < offset then (-einval, s, i)
  else if fsMaxFileSize < (offset + count) % 2 ^ 64 then (-efbig, s, i)
  else
    let w := writeLoop copyin count ⟨s, i, offset, 0⟩
    let res : ℤ := if w.2.done ≠ 0 then w.2.done else w.1
    if w.2.inode.content.size.toNat < w.2.offset then
      let i' := { w.2.inode with content :=
        { w.2.inode.content with size := UInt32.ofNat w.2.offset } }
      (res, (markDirtyLocked w.2.store i').2, i')
    else (res, w.2.store, w.2.inode)

def readLoop {σ : Type} (copyout : Copyout σ) (count : ℕ) (c : Cursor) (dst : σ) :
    ℤ × Cursor × σ :=
  if _h : c.done < count then
    let blkOff := c.offset % fsBlkSize
    let m := turnSize count c.offset c.done
    let d := getDataLocked c.store c.inode (c.offset / fsBlkSize)
    if d.1 < 0 then (d.1, { c with store := d.2.1, inode := d.2.2 }, dst)
    else
      let o := copyout dst c.done m fun k => d.2.1.blk d.1.toNat (blkOff + k)
      if o.1 < 0 then (o.1, { c with store := d.2.1, inode := d.2.2 }, o.2)
      else
        readLoop copyout count
          { store := d.2.1
            inode := d.2.2
            offset := (c.offset + m) % 2 ^ 32
            done := c.done + m } o.2
  else (0, c, dst)
termination_by count - c.done
decreasing_by
  have hpos : 0 < turnSize count c.offset c.done := turnSize_pos _h
  omega

def inodeRead {σ : Type} (s : Store) (i : Inode) (copyout : Copyout σ) (dst : σ)
    (offset count : ℕ) : ℤ × σ × Store × Inode :=
  if i.content.size.toNat < (offset + count) % 2 ^ 64 then (-einval, dst, s, i)
  else
    let r := readLoop copyout count ⟨s, i, offset, 0⟩ dst
    (if r.2.1.done ≠ 0 then r.2.1.done else r.1, r.2.2, r.2.1.store, r.2.1.inode)

namespace Filesys

def setSlot (fs : Filesys) (k : Fin inodeCacheSize) (i : Inode) : Filesys :=
  { fs with islots := Function.update fs.islots k i }

end Filesys

/-- `inode_init` at boot, when the slots are still zero and `root` is not set. -/
def inodeInit (s : Store) : Filesys where
  store := s
  islots := fun _ => ⟨0, 2 ^ 32 - 1, false, false, Dinode.zero⟩
  icache := (List.finRange inodeCacheSize).reverse
  root := 0

def cacheRequestLocked (fs : Filesys) (id : ℕ) : Option (Fin inodeCacheSize) :=
  fs.icache.find? fun k => (fs.islots k).ino = id

def findReusableLocked (fs : Filesys) : Option (Fin inodeCacheSize) :=
  fs.icache.reverse.find? fun k => (fs.islots k).refcnt = 0

/-- `inode_get`: `none` when every slot is in use. -/
def inodeGet (fs : Filesys) (id : ℕ) : Option (Fin inodeCacheSize × Filesys) :=
  match cacheRequestLocked fs id with
  | some k =>
    let i := fs.islots k
    some (k, { fs.setSlot k { i with refcnt := i.refcnt + 1 } with
      icache := k :: fs.icache.erase k })
  | none =>
    match findReusableLocked fs with
    | some k => some (k, fs.setSlot k { fs.islots k with ino := id, refcnt := 1, valid := false })
    | none => none

/-- `inode_lock`. A number without a table block is reported with the mutex
still held. -/
def inodeLock (fs : Filesys) (k : Fin inodeCacheSize) : Option (ℤ × Filesys) :=
  let i := fs.islots k
  if i.locked then none
  else if i.valid then some (0, fs.setSlot k { i with locked := true })
  else
    let itabBlkno := getItabBlkno fs.store.sb i.ino
    if itabBlkno < 0 then some (itabBlkno, fs.setSlot k { i with locked := true })
    else
      let d := Dinode.read (fs.store.blk itabBlkno.toNat) (sizeofDinode * getTabIdx i.ino)
      some (0, fs.setSlot k { i with locked := true, valid := true, content := d })

def inodeUnlock (fs : Filesys) (k : Fin inodeCacheSize) : Filesys :=
  fs.setSlot k { fs.islots k with locked := false }

/-- `inode_mark_dirty`: panics when the mutex is not held. -/
def inodeMarkDirty (fs : Filesys) (k : Fin inodeCacheSize) : Option (ℤ × Filesys) :=
  if (fs.islots k).locked then
    let w := markDirtyLocked fs.store (fs.islots k)
    some (w.1, { fs with store := w.2 })
  else none

def inodeTruncate (fs : Filesys) (k : Fin inodeCacheSize) : Option (ℤ × Filesys) := do
  let (res, fs) ← inodeLock fs k
  if res < 0 then return (res, fs)
  let t := inodeTruncateLocked fs.store (fs.islots k)
  let fs := { fs with store := t.2.1 }.setSlot k t.2.2
  if t.1 < 0 then return (t.1, inodeUnlock fs k)
  let w := markDirtyLocked fs.store (fs.islots k)
  return (w.1, inodeUnlock { fs with store := w.2 } k)

/-- The part of `inode_put` that runs for the last reference: an inode without
links is truncated and given back. -/
def putLast (fs : Filesys) (k : Fin inodeCacheSize) : Option Filesys :=
  let i := fs.islots k
  if i.locked then none
  else if i.valid ∧ i.content.nblink = 0 then
    let t := inodeTruncateLocked fs.store i
    if t.1 < 0 then none
    else
      let i' := { t.2.2 with content := { t.2.2.content with type := .free } }
      let w := markDirtyLocked t.2.1 i'
      if w.1 < 0 then none
      else some ({ fs with store := (ibmFree w.2 i'.ino).2 }.setSlot k { i' with valid := false })
  else some fs

def inodePut (fs : Filesys) (k : Fin inodeCacheSize) : Option Filesys := do
  let fs ← if (fs.islots k).refcnt = 1 then putLast fs k else some fs
  return fs.setSlot k { fs.islots k with refcnt := (fs.islots k).refcnt - 1 }

/-- `inode_create`: the slot of the new inode or an error code. -/
def inodeCreate (fs : Filesys) (type : InodeType) : Option (Except ℤ (Fin inodeCacheSize) × Filesys) := do
  let a := ibmAlloc fs.store
  let fs := { fs with store := a.2 }
  if a.1 < 0 then return (.error a.1, fs)
  let id := a.1.toNat
  let (k, fs) ← inodeGet fs id
  let (res, fs) ← inodeLock fs k
  if res < 0 then
    let fs ← inodePut fs k
    return (.error res, { fs with store := (ibmFree fs.store id).2 })
  let i := fs.islots k
  let i := { i with content := { i.content with type := type, nblink := 1 } }
  let w := markDirtyLocked fs.store i
  let fs := { fs with store := w.2 }.setSlot k i
  if w.1 < 0 then
    let fs := inodeUnlock (fs.setSlot k { i with valid := false }) k
    let fs ← inodePut fs k
    return (.error w.1, { fs with store := (ibmFree fs.store id).2 })
  return (.ok k, inodeUnlock fs k)

end RvMiniOs.Fs
