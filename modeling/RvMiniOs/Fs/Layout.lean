import RvMiniOs.Lib.Bytes
import RvMiniOs.Lib.Sizes

/-!
# On-disk layout

The records of `fs_layout.h` as the little-endian byte images that `mkfs` and
the kernel exchange through disk blocks. A dinode takes 64 bytes (two of them
padding, which nothing reads), a directory entry 20.
-/

namespace RvMiniOs.Fs

open Lib List

abbrev maxname : ℕ := 16
abbrev fsSuperblk : ℕ := 1
abbrev fsMagicNumber : ℕ := 69
abbrev fsBlkSize : ℕ := 4096
abbrev fsRootInodeId : ℕ := 1
abbrev fsBmBitsPerBlk : ℕ := 32768
abbrev fsInodeDirDblkno : ℕ := 12
abbrev fsInodeIndirDblkno : ℕ := 1024
abbrev fsMaxFileSize : ℕ := (fsInodeDirDblkno + fsInodeIndirDblkno) * fsBlkSize
abbrev sizeofDinode : ℕ := 64
abbrev sizeofDirent : ℕ := 20
abbrev inodesPerBlk : ℕ := fsBlkSize / sizeofDinode

structure FsMeta where
  magic : ℕ
  nbBlk : ℕ
  blkSize : ℕ
  nbIbm : ℕ
  nbDbm : ℕ
  nbItab : ℕ
  nbDblk : ℕ
  ibmStart : ℕ
  dbmStart : ℕ
  itabStart : ℕ
  dataStart : ℕ
  deriving DecidableEq, Repr

namespace FsMeta

def words (m : FsMeta) : List ℕ :=
  [m.magic, m.nbBlk, m.blkSize, m.nbIbm, m.nbDbm, m.nbItab, m.nbDblk,
    m.ibmStart, m.dbmStart, m.itabStart, m.dataStart]

abbrev sizeof : ℕ := 44

def bytes (m : FsMeta) : Bytes := fun k => getByte (m.words.getD (k / 4) 0) (k % 4)

def read (b : Bytes) : FsMeta where
  magic := leNat b 0 4
  nbBlk := leNat b 4 4
  blkSize := leNat b 8 4
  nbIbm := leNat b 12 4
  nbDbm := leNat b 16 4
  nbItab := leNat b 20 4
  nbDblk := leNat b 24 4
  ibmStart := leNat b 28 4
  dbmStart := leNat b 32 4
  itabStart := leNat b 36 4
  dataStart := leNat b 40 4

/-- The regions of a disk in the order `mkfs` lays them out, with a data bitmap
large enough for the data blocks and block numbers that fit in an `int32_t`. -/
structure WellFormed (m : FsMeta) : Prop where
  ibm_pos : fsSuperblk < m.ibmStart
  ibm_dbm : m.ibmStart + m.nbIbm ≤ m.dbmStart
  dbm_itab : m.dbmStart + m.nbDbm ≤ m.itabStart
  itab_data : m.itabStart + m.nbItab ≤ m.dataStart
  data_blk : m.dataStart ≤ m.nbBlk
  bits : m.nbBlk ≤ m.dataStart + m.nbDbm * fsBmBitsPerBlk
  inode_bits : m.nbItab * inodesPerBlk ≤ m.nbIbm * fsBmBitsPerBlk
  blkno : m.nbBlk ≤ 2 ^ 31

theorem leNat_bytes {m : FsMeta} {i v : ℕ} {b : Bytes} (hb : ∀ k < 44, b k = m.bytes k)
    (hi : i < 11) (hv : m.words.getD i 0 = v) (hlt : v < 2 ^ 32) : leNat b (4 * i) 4 = v := by
  have hword : leNat b (4 * i) 4 = leNat (getByte v) 0 4 := by
    apply leNat_congr
    intro k hk
    have hdiv : (4 * i + k) / 4 = i := by omega
    have hmod : (4 * i + k) % 4 = 0 + k := by omega
    rw [hb (4 * i + k) (by omega), bytes, hdiv, hmod, hv]
  have hv' : v < 256 ^ 4 := hlt
  rw [hword, leNat_getByte, pow_zero, Nat.div_one, Nat.mod_eq_of_lt hv']

theorem read_bytes {m : FsMeta} {b : Bytes} (hb : ∀ k < 44, b k = m.bytes k)
    (hm : ∀ v ∈ m.words, v < 2 ^ 32) : read b = m := by
  have hlt : ∀ i, m.words.getD i 0 < 2 ^ 32 := by
    intro i
    by_cases hi : i < m.words.length
    · rw [getD_eq_getElem _ _ hi]
      exact hm _ (getElem_mem hi)
    · rw [getD_eq_default _ _ (by omega)]
      norm_num
  have hword : ∀ i, i < 11 → leNat b (4 * i) 4 = m.words.getD i 0 :=
    fun i hi => leNat_bytes hb hi rfl (hlt i)
  cases m
  rw [read, FsMeta.mk.injEq]
  exact ⟨hword 0 (by norm_num), hword 1 (by norm_num), hword 2 (by norm_num),
    hword 3 (by norm_num), hword 4 (by norm_num), hword 5 (by norm_num), hword 6 (by norm_num),
    hword 7 (by norm_num), hword 8 (by norm_num), hword 9 (by norm_num), hword 10 (by norm_num)⟩

end FsMeta

/-- `enum inode_type`, one byte on the disk. A byte beyond the last enumerator
is kept as it is. -/
inductive InodeType where
  | free
  | directory
  | file
  | specialFile
  | device
  | invalid (excess : Fin 251)
  deriving DecidableEq, Repr

namespace InodeType

def toByte : InodeType → UInt8
  | free => 0
  | directory => 1
  | file => 2
  | specialFile => 3
  | device => 4
  | invalid k => UInt8.ofNat (k + 5)

def ofByte (b : UInt8) : InodeType :=
  match b.toNat with
  | 0 => free
  | 1 => directory
  | 2 => file
  | 3 => specialFile
  | 4 => device
  | n + 5 => invalid (Fin.ofNat 251 n)

@[simp] theorem ofByte_toByte (t : InodeType) : ofByte t.toByte = t := by
  cases t with
  | invalid k => revert k; decide +kernel
  | _ => rfl

end InodeType

structure Dinode where
  size : UInt32
  type : InodeType
  devId : UInt8
  nblink : UInt32
  dirblkno : Fin fsInodeDirDblkno → UInt32
  indir : UInt32
  deriving DecidableEq

namespace Dinode

def zero : Dinode := ⟨0, .free, 0, 0, fun _ => 0, 0⟩

def bytes (d : Dinode) : Bytes := fun k =>
  if k < 4 then getByte d.size.toNat k
  else if k = 4 then d.type.toByte
  else if k = 5 then d.devId
  else if k < 8 then 0
  else if k < 12 then getByte d.nblink.toNat (k - 8)
  else if k < 60 then getByte (d.dirblkno (Fin.ofNat 12 ((k - 12) / 4))).toNat ((k - 12) % 4)
  else getByte d.indir.toNat (k - 60)

def read (b : Bytes) (off : ℕ) : Dinode where
  size := getU32 b off
  type := .ofByte (b (off + 4))
  devId := b (off + 5)
  nblink := getU32 b (off + 8)
  dirblkno := fun n => getU32 b (off + 12 + 4 * n)
  indir := getU32 b (off + 60)

theorem read_congr {b c : Bytes} {off off' : ℕ}
    (h : ∀ k < 64, b (off + k) = c (off' + k)) : read b off = read c off' := by
  have hword : ∀ j, j + 4 ≤ 64 → getU32 b (off + j) = getU32 c (off' + j) := by
    intro j hj
    apply getU32_congr
    intro k hk
    rw [Nat.add_assoc, Nat.add_assoc]
    exact h (j + k) (by omega)
  have hptr : ∀ n : Fin 12,
      getU32 b (off + 12 + 4 * n) = getU32 c (off' + 12 + 4 * n) := by
    intro n
    rw [Nat.add_assoc, Nat.add_assoc]
    exact hword _ (by omega)
  rw [read, read, mk.injEq]
  exact ⟨hword 0 (by norm_num), by rw [h 4 (by norm_num)], h 5 (by norm_num),
    hword 8 (by norm_num), funext hptr, hword 60 (by norm_num)⟩

theorem read_bytes (d : Dinode) : read d.bytes 0 = d := by
  have hsize : getU32 d.bytes 0 = d.size := by
    apply getU32_of_bytes
    intro k hk
    simp [bytes, hk]
  have hnblink : getU32 d.bytes (0 + 8) = d.nblink := by
    apply getU32_of_bytes
    intro k hk
    simp [bytes, show ¬ 0 + 8 + k < 4 by omega, show 0 + 8 + k ≠ 4 by omega,
      show 0 + 8 + k ≠ 5 by omega, show ¬ 0 + 8 + k < 8 by omega, show 0 + 8 + k < 12 by omega]
  have hptr : ∀ n : Fin 12, getU32 d.bytes (0 + 12 + 4 * n) = d.dirblkno n := by
    intro n
    apply getU32_of_bytes
    intro k hk
    have hn := n.isLt
    have hdiv : (0 + 12 + 4 * (n : ℕ) + k - 12) / 4 = n := by omega
    have hmod : (0 + 12 + 4 * (n : ℕ) + k - 12) % 4 = k := by omega
    have hidx : Fin.ofNat 12 n.val = n := Fin.ext (Nat.mod_eq_of_lt hn)
    rw [bytes, if_neg (by omega), if_neg (by omega), if_neg (by omega), if_neg (by omega),
      if_neg (by omega), if_pos (by omega), hdiv, hmod, hidx]
  have hindir : getU32 d.bytes (0 + 60) = d.indir := by
    apply getU32_of_bytes
    intro k hk
    rw [bytes, if_neg (by omega), if_neg (by omega), if_neg (by omega), if_neg (by omega),
      if_neg (by omega), if_neg (by omega)]
    congr 1
    omega
  cases d
  rw [read, mk.injEq]
  exact ⟨hsize, InodeType.ofByte_toByte _, rfl, hnblink, funext hptr, hindir⟩

@[simp] theorem read_splice_self (b : Bytes) (off : ℕ) (d : Dinode) :
    read (splice b off sizeofDinode d.bytes) off = d := by
  have hread : read (splice b off sizeofDinode d.bytes) off = read d.bytes 0 := by
    apply read_congr
    intro k hk
    have hin : off + k < off + sizeofDinode := Nat.add_lt_add_left hk off
    rw [splice_inside (Nat.le_add_right off k) hin]
    congr 1
    omega
  rw [hread, read_bytes]

theorem read_splice_outside {b src : Bytes} {off n o : ℕ}
    (h : o + 64 ≤ off ∨ off + n ≤ o) : read (splice b off n src) o = read b o := by
  apply read_congr
  intro k hk
  exact splice_outside (by omega)

theorem read_eq_zero {b : Bytes} {off : ℕ} (h : ∀ k < 64, b (off + k) = 0) : read b off = zero := by
  have hblank : read b off = read (fun _ => 0) 0 := read_congr h
  rw [hblank]
  decide +kernel

end Dinode

end RvMiniOs.Fs
