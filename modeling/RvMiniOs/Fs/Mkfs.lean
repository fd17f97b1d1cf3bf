import RvMiniOs.Fs.BlockMap

/-!
# `mkfs`

The host tool that writes the disk image. Allocation is sequential, so the blocks
of a file follow each other from a base block on, with its indirect table between
the first and the second block that needs it. `ImageOf` says where everything is
in the image of a list of host files.

The image is a byte function, blank after `ftruncate`; a call of the tool that
ends with an error is `none`.
-/

namespace RvMiniOs.Fs

open Lib

abbrev diskSizeM : ℕ := 8
abbrev fsNbBlk : ℕ := diskSizeM * 2 ^ 20 / fsBlkSize
abbrev fsNbReserved : ℕ := 1
abbrev fsNbSuperblk : ℕ := 1
abbrev fsNbIbm : ℕ := 2
abbrev fsNbDbm : ℕ := 2
abbrev fsNbItab : ℕ := 5
abbrev fsNbDblk : ℕ :=
  fsNbBlk - fsNbItab - fsNbIbm - fsNbDbm - fsNbSuperblk - fsNbReserved
abbrev fsNbInodes : ℕ := fsNbItab * fsBlkSize / sizeofDinode

def superblock : FsMeta where
  magic := fsMagicNumber
  nbBlk := fsNbBlk
  blkSize := fsBlkSize
  nbIbm := fsNbIbm
  nbDbm := fsNbDbm
  nbItab := fsNbItab
  nbDblk := fsNbDblk
  ibmStart := fsSuperblk + fsNbSuperblk
  dbmStart := fsSuperblk + fsNbSuperblk + fsNbIbm
  itabStart := fsSuperblk + fsNbSuperblk + fsNbIbm + fsNbDbm
  dataStart := fsSuperblk + fsNbSuperblk + fsNbIbm + fsNbDbm + fsNbItab

theorem superblock_wellFormed : superblock.WellFormed := by
  constructor <;> decide

def basename (path : List UInt8) : List UInt8 := (path.reverse.takeWhile (· ≠ 47)).reverse

/-- A regular file of the host and the path it is opened by: a C string that does
not end in a slash. -/
structure HostFile where
  path : List UInt8
  data : List UInt8
  noNul : 0 ∉ path
  name_ne : basename path ≠ []

structure Mkfs where
  img : Bytes
  iAllocated : ℕ
  blkAllocated : ℕ
  root : Dinode

namespace Mkfs

def pwrite (m : Mkfs) (off n : ℕ) (src : Bytes) : Mkfs := { m with img := splice m.img off n src }

def rootDi : Dinode :=
  { Dinode.zero with
    type := .directory
    nblink := 1
    dirblkno := fun n => if n = 0 then UInt32.ofNat superblock.dataStart else 0 }

def allocBlock (m : Mkfs) : Option (ℕ × Mkfs) :=
  let n := m.blkAllocated + 1
  if fsBmBitsPerBlk ≤ n ∨ fsNbDblk ≤ n then none
  else some (n + superblock.dataStart, { m with blkAllocated := n })

def writeInode (m : Mkfs) (ino : ℕ) (i : Dinode) : Mkfs :=
  m.pwrite (superblock.itabStart * fsBlkSize + ino * sizeofDinode) sizeofDinode i.bytes

def allocInode (m : Mkfs) (i : Dinode) : Option (ℕ × Mkfs) :=
  let n := m.iAllocated + 1
  if fsBmBitsPerBlk ≤ n ∨ fsNbInodes ≤ n then none
  else some (n, { m with iAllocated := n }.writeInode n i)

/-- The block that `write_bm` fills: bits `[0, nbits)` set. -/
def bmBytes (nbits : ℕ) : Bytes := fun k =>
  if k < nbits / 8 then 255
  else if nbits % 8 ≠ 0 ∧ k = nbits / 8 then (1 <<< UInt8.ofNat (nbits % 8)) - 1
  else 0

def writeBm (m : Mkfs) (start nbits : ℕ) : Mkfs :=
  m.pwrite (start * fsBlkSize) fsBlkSize (bmBytes nbits)

def dataOff (dblkno : ℕ) : ℕ := dblkno * fsBlkSize

/-- The loop of `alloc_file` with `data` still to be read. `dir_blk` stops at the
number of direct pointers. -/
def allocFileLoop (m : Mkfs) (i : Dinode) (dirBlk nbIndir : ℕ) (data : List UInt8) :
    Option (Dinode × Mkfs) :=
  if _h : data = [] then some (i, m)
  else
    let n := min fsBlkSize data.length
    (allocBlock m).bind fun (blkno, m) =>
      let m := m.pwrite (dataOff blkno) n (listBytes data)
      let size := i.size + UInt32.ofNat n
      if h : dirBlk < fsInodeDirDblkno then
        let dirblkno := Function.update i.dirblkno ⟨dirBlk, h⟩ (UInt32.ofNat blkno)
        allocFileLoop m { i with dirblkno := dirblkno, size := size } (dirBlk + 1) nbIndir
          (data.drop n)
      else
        (if i.indir = 0 then allocBlock m else some (i.indir.toNat, m)).bind fun (indir, m) =>
          let m := m.pwrite (dataOff indir + nbIndir * 4) 4 (getByte blkno)
          allocFileLoop m { i with indir := UInt32.ofNat indir, size := size } dirBlk (nbIndir + 1)
            (data.drop n)
termination_by data.length
decreasing_by
  all_goals
    have hpos : 0 < data.length := List.length_pos_iff.mpr _h
    simp only [List.length_drop, fsBlkSize]
    omega

def allocFile (m : Mkfs) (f : HostFile) : Option (Dinode × Mkfs) :=
  if fsMaxFileSize < f.data.length then none
  else m.allocFileLoop { Dinode.zero with type := .file, nblink := 1 } 0 0 f.data

/-- A `struct dirent`: the name padded with zeros, then the inode number. -/
def direntBytes (name : List UInt8) (inum : ℕ) : Bytes := fun k =>
  if k < maxname then listBytes name k else getByte inum (k - maxname)

def dirAddEntry (m : Mkfs) (path : List UInt8) (id : ℕ) : Option Mkfs :=
  let name := basename path
  if maxname ≤ name.length then none
  else if fsBlkSize < m.root.size.toNat + sizeofDirent then none
  else
    let m := m.pwrite (dataOff (m.root.dirblkno 0).toNat + m.root.size.toNat) sizeofDirent
      (direntBytes name id)
    some { m with root := { m.root with size := m.root.size + UInt32.ofNat sizeofDirent } }

def addFile (m : Mkfs) (f : HostFile) : Option Mkfs :=
  (m.allocFile f).bind fun (i, m) =>
    (m.allocInode i).bind fun (id, m) => m.dirAddEntry f.path id

def start : Mkfs where
  img := splice (fun _ => 0) (fsSuperblk * fsBlkSize) FsMeta.sizeof superblock.bytes
  iAllocated := 0
  blkAllocated := 0
  root := rootDi

def finish (m : Mkfs) : Bytes :=
  (((m.writeInode fsRootInodeId m.root).writeBm superblock.ibmStart (m.iAllocated + 1)).writeBm
    superblock.dbmStart (m.blkAllocated + 1)).img

end Mkfs

/-- `main` of `mkfs` on the host files of its command line. -/
def mkfs (files : List HostFile) : Option Bytes :=
  (Mkfs.start.allocInode Mkfs.rootDi).bind fun (_, m) =>
    (files.foldlM Mkfs.addFile m).map Mkfs.finish

end RvMiniOs.Fs
