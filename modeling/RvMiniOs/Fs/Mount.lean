import RvMiniOs.Fs.Image
import RvMiniOs.Fs.Path
import RvMiniOs.Fs.Cache

/-!
# The kernel's view of an image

The blocks of an image of `mkfs`, read back through the kernel's own functions:
the superblock, the inode table, the block map of every file and both bitmaps.
`fs_init` accepts the image and leaves the root directory in the first slot.
-/

namespace RvMiniOs.Fs

open Lib List Option

def diskBlk (img : Bytes) : ℕ → Bytes := fun b o => img (4096 * b + o)

def imgStore (img : Bytes) : Store := .mounted superblock (diskBlk img)

theorem diskDinode_of_bytes {img : Bytes} {ino : ℕ} {d : Dinode}
    (h : ∀ t < 64, img (24576 + 64 * ino + t) = d.bytes t) : diskDinode (imgStore img) ino = d := by
  have hread : diskDinode (imgStore img) ino = Dinode.read d.bytes 0 := by
    apply Dinode.read_congr
    intro t ht
    have haddr : 4096 * itabBlk superblock ino + (64 * (ino % 64) + t) = 24576 + 64 * ino + t := by
      have hblk : itabBlk superblock ino = 6 + ino / 64 := rfl
      omega
    rw [Nat.zero_add, ← h t ht, ← haddr]
    rfl
  rw [hread, Dinode.read_bytes]

section Bits

theorem bmBit_bmBytes (n j : ℕ) : bmBit (Mkfs.bmBytes n) j = decide (j < n) := by
  have hj : j % 8 < 8 := Nat.mod_lt _ (by norm_num)
  unfold bmBit Mkfs.bmBytes
  split_ifs with hfull hpart
  · have hset : ∀ k < 8, (255 : UInt8).toNat.testBit k = true := by decide
    rw [hset _ hj, eq_comm, decide_eq_true_iff]
    omega
  · have hmask : ∀ r < 8, ∀ k < 8,
        ((1 <<< UInt8.ofNat r : UInt8) - 1).toNat.testBit k = decide (k < r) := by decide
    rw [hmask _ (Nat.mod_lt _ (by norm_num)) _ hj, decide_eq_decide]
    omega
  · rw [UInt8.toNat_zero, Nat.zero_testBit, eq_comm, decide_eq_false_iff_not]
    omega

theorem bmBit_foldl_bmSetBit (buf : Bytes) (n j : ℕ) :
    bmBit ((range n).foldl bmSetBit buf) j = (bmBit buf j || decide (j < n)) := by
  induction n with
  | zero => simp
  | succ n ih =>
    rw [range_succ, foldl_append, foldl_cons, foldl_nil, bmBit_bmSetBit, ih,
      Bool.or_assoc, ← Bool.decide_or]
    simp only [Nat.lt_succ_iff_lt_or_eq]

theorem eq_of_bmBit_eq {b b' : Bytes} (h : ∀ j, bmBit b j = bmBit b' j) : b = b' := by
  funext k
  apply UInt8.toNat_inj.mp
  apply Nat.eq_of_testBit_eq
  intro i
  by_cases hi : i < 8
  · have hbit := h (8 * k + i)
    have hdiv : (8 * k + i) / 8 = k := by omega
    have hmod : (8 * k + i) % 8 = i := by omega
    rwa [bmBit, bmBit, hdiv, hmod] at hbit
  · have hhigh : ∀ x : UInt8, x.toNat.testBit i = false := fun x =>
      Nat.testBit_lt_two_pow (x.toNat_lt.trans_le (Nat.pow_le_pow_right (by norm_num) (by omega)))
    rw [hhigh, hhigh]

/-- The three views of a bitmap: the search by words, the updates by bytes, and the block
that `write_bm` fills on the host. -/
theorem bitmap_views_agree (buf : Bytes) (bitSize : ℕ) (hwords : 64 ∣ bitSize)
    (hsize : bitSize < 2 ^ 31) :
    (∀ i : ℕ, bmFindFirstZero buf bitSize = i ↔
      i < bitSize ∧ bmBit buf i = false ∧ ∀ j < i, bmBit buf j = true) ∧
    (bmFindFirstZero buf bitSize = -1 ↔ ∀ j < bitSize, bmBit buf j = true) ∧
    bmFindFirstZero buf bitSize < 2 ^ 31 ∧
    (∀ i j, bmBit (bmSetBit buf i) j = if j = i then true else bmBit buf j) ∧
    (∀ i j, bmBit (bmClearBit buf i) j = if j = i then false else bmBit buf j) ∧
    ∀ (m : Mkfs) (start nbits : ℕ), nbits ≤ fsBmBitsPerBlk → ∀ k < fsBlkSize,
      (m.writeBm start nbits).img (start * fsBlkSize + k) =
        (List.range nbits).foldl bmSetBit (fun _ => 0) k := by
  have hset : ∀ i j, bmBit (bmSetBit buf i) j = if j = i then true else bmBit buf j := by
    intro i j
    by_cases hj : j = i <;> simp [hj]
  have hclear : ∀ i j, bmBit (bmClearBit buf i) j = if j = i then false else bmBit buf j := by
    intro i j
    by_cases hj : j = i <;> simp [hj]
  have hblock : ∀ nbits, Mkfs.bmBytes nbits = (range nbits).foldl bmSetBit (fun _ => 0) := by
    intro nbits
    apply eq_of_bmBit_eq
    intro j
    rw [bmBit_bmBytes, bmBit_foldl_bmSetBit]
    simp [bmBit]
  have hwrite : ∀ (m : Mkfs) (start nbits : ℕ), nbits ≤ fsBmBitsPerBlk → ∀ k < fsBlkSize,
      (m.writeBm start nbits).img (start * fsBlkSize + k) =
        (range nbits).foldl bmSetBit (fun _ => 0) k := by
    intro m start nbits _ k hk
    rw [← hblock]
    refine (splice_inside (Nat.le_add_right _ k) (Nat.add_lt_add_left hk _)).trans ?_
    rw [Nat.add_sub_cancel_left]
  rcases bmFindFirstZero_spec buf bitSize hwords with ⟨hres, hall⟩ | ⟨z, hz, hres, hzero, hbelow⟩
  · refine ⟨fun i => ?_, iff_of_true hres hall, by simp [hres], hset, hclear, hwrite⟩
    rw [hres]
    refine ⟨fun h => absurd h (by omega), ?_⟩
    rintro ⟨hi, hbit, -⟩
    simp [hall i hi] at hbit
  · refine ⟨fun i => ?_, ?_, by omega, hset, hclear, hwrite⟩
    · rw [hres, Nat.cast_inj]
      refine ⟨fun h => h ▸ ⟨hz, hzero, hbelow⟩, ?_⟩
      rintro ⟨hi, hbit, hlow⟩
      rcases lt_trichotomy z i with hlt | heq | hgt
      · simp [hlow z hlt] at hzero
      · exact heq
      · simp [hbelow i hgt] at hbit
    · rw [hres]
      refine ⟨fun h => absurd h (by omega), fun hall => ?_⟩
      simp [hall z hz] at hzero

/-- A block with its first three bits set. -/
theorem bitmap_views_agree_three :
    bmFindFirstZero (Mkfs.bmBytes 3) fsBmBitsPerBlk = 3 := by
  refine ((bitmap_views_agree (Mkfs.bmBytes 3) fsBmBitsPerBlk (by decide) (by decide)).1 3).mpr
    ⟨by decide, ?_, fun j hj => ?_⟩
  · simp [bmBit_bmBytes]
  · simpa [bmBit_bmBytes] using hj

end Bits

section Image

variable {files : List HostFile} {img : Bytes}

theorem ImageOf.dataBit (h : ImageOf files img) {b : ℕ} (hlo : 11 ≤ b) (hhi : b < 2048) :
    dataBit (imgStore img) b = decide (b < baseOf files) := by
  have hbase := le_baseOf files
  have hdiv : (b - 11) / 32768 = 0 := by omega
  have hmod : (b - 11) % 32768 = b - 11 := by omega
  have hbit : Fs.dataBit (imgStore img) b = bmBit (diskBlk img (4 + (b - 11) / 32768)) ((b - 11) % 32768) := rfl
  have hbyte : bmBit (diskBlk img 4) (b - 11) = bmBit (Mkfs.bmBytes (baseOf files - 11)) (b - 11) := by
    unfold bmBit
    rw [← h.dbm ((b - 11) / 8) (by omega)]
    rfl
  rw [hbit, hdiv, hmod, Nat.add_zero, hbyte, bmBit_bmBytes, decide_eq_decide]
  omega

theorem ImageOf.inodeBit (h : ImageOf files img) {ino : ℕ} (hhi : ino < 320) :
    inodeBit (imgStore img) ino = decide (ino < files.length + 2) := by
  have hdiv : ino / 32768 = 0 := by omega
  have hmod : ino % 32768 = ino := by omega
  have hbit : Fs.inodeBit (imgStore img) ino = bmBit (diskBlk img (2 + ino / 32768)) (ino % 32768) := rfl
  have hbyte : bmBit (diskBlk img 2) ino = bmBit (Mkfs.bmBytes (files.length + 2)) ino := by
    unfold bmBit
    rw [← h.ibm (ino / 8) (by omega)]
    rfl
  rw [hbit, hdiv, hmod, Nat.add_zero, hbyte, bmBit_bmBytes]

theorem ImageOf.dinode_root (h : ImageOf files img) :
    diskDinode (imgStore img) 1 = rootDinode files.length :=
  diskDinode_of_bytes h.root

theorem ImageOf.dinode_file (h : ImageOf files img) {j : ℕ} (hj : j < files.length) :
    diskDinode (imgStore img) (j + 2) = fileDinode (baseOf (files.take j)) files[j].data.length :=
  diskDinode_of_bytes (h.inode j hj)

theorem ImageOf.dinode_free (h : ImageOf files img) {ino : ℕ} (hino : ino < 320)
    (hfree : ino = 0 ∨ files.length + 2 ≤ ino) : diskDinode (imgStore img) ino = Dinode.zero := by
  have hblk : itabBlk superblock ino = 6 + ino / 64 := rfl
  apply Dinode.read_eq_zero
  intro t ht
  have haddr : 4096 * itabBlk superblock ino + (64 * (ino % 64) + t) = 24576 + 64 * ino + t := by
    omega
  change img (4096 * itabBlk superblock ino + (64 * (ino % 64) + t)) = 0
  rw [haddr]
  rcases hfree with rfl | hfree
  · exact h.reserved t ht
  · exact h.free _ (by omega) (by omega)

theorem ImageOf.dinode_cases (h : ImageOf files img) {ino : ℕ} (hino : ino < 320) : (ino = 1 ∧
    diskDinode (imgStore img) ino = rootDinode files.length) ∨ (∃ (j : ℕ) (hj : j < files.length), ino =
    j + 2 ∧ diskDinode (imgStore img) ino = fileDinode (baseOf (files.take j)) files[j].data.length) ∨
    ((ino = 0 ∨ files.length + 2 ≤ ino) ∧ diskDinode (imgStore img) ino = Dinode.zero) := by
  by_cases hroot : ino = 1
  · exact Or.inl ⟨hroot, hroot ▸ h.dinode_root⟩
  by_cases hfree : ino = 0 ∨ files.length + 2 ≤ ino
  · exact Or.inr (Or.inr ⟨hfree, h.dinode_free hino hfree⟩)
  · obtain ⟨j, rfl⟩ : ∃ j, ino = j + 2 := ⟨ino - 2, by omega⟩
    have hj : j < files.length := by omega
    exact Or.inr (Or.inl ⟨j, hj, rfl, h.dinode_file hj⟩)

theorem ImageOf.getU32_zero (h : ImageOf files img) {o : ℕ} (ho : o + 4 ≤ 4096) :
    getU32 (diskBlk img 0) o = 0 := by
  apply getU32_eq_zero
  intro k hk
  have haddr : 4096 * 0 + (o + k) = o + k := by omega
  rw [diskBlk, haddr]
  exact h.boot _ (by omega)

theorem ImageOf.ptr_root (h : ImageOf files img) {n : ℕ} (hn : n < 1036) :
    ptr (imgStore img) (rootDinode files.length) n = if n = 0 then 11 else 0 := by
  unfold ptr
  split_ifs with hdir h0 h0
  · subst h0
    rfl
  · have hne : (⟨n, hdir⟩ : Fin fsInodeDirDblkno) ≠ 0 := fun heq => h0 (congrArg Fin.val heq)
    change (if (⟨n, hdir⟩ : Fin fsInodeDirDblkno) = 0 then _ else (0 : UInt32)).toNat = 0
    rw [if_neg hne]
    rfl
  · exact absurd (h0 ▸ (by norm_num : (0 : ℕ) < 12)) hdir
  · exact congrArg UInt32.toNat (h.getU32_zero (show 4 * (n - 12) + 4 ≤ 4096 by omega))

theorem ImageOf.ptr_zero (h : ImageOf files img) {n : ℕ} (hn : n < 1036) :
    ptr (imgStore img) Dinode.zero n = 0 := by
  unfold ptr
  split_ifs with hdir
  · rfl
  · exact congrArg UInt32.toNat (h.getU32_zero (show 4 * (n - 12) + 4 ≤ 4096 by omega))

theorem ImageOf.indir_file (h : ImageOf files img) {j : ℕ} (hj : j < files.length) :
    (fileDinode (baseOf (files.take j)) files[j].data.length).indir.toNat =
      if 12 < nBlks files[j].data.length then baseOf (files.take j) + 13 else 0 := by
  have hend := baseOf_take_succ hj
  have hle := baseOf_take_le files (j + 1)
  have hmax := h.blks_le
  unfold fileDinode
  dsimp only
  split_ifs with h12
  · have hused : usedBlks (nBlks files[j].data.length) = nBlks files[j].data.length + 1 :=
      if_pos h12
    exact UInt32.toNat_ofNat_of_lt' (show baseOf (files.take j) + 13 < 2 ^ 32 by omega)
  · rfl

theorem ImageOf.ptr_file (h : ImageOf files img) {j n : ℕ} (hj : j < files.length) (hn : n < 1036) :
    ptr (imgStore img) (fileDinode (baseOf (files.take j)) files[j].data.length) n =
      if n < nBlks files[j].data.length then place (baseOf (files.take j)) n else 0 := by
  have hend := baseOf_take_succ hj
  have hle := baseOf_take_le files (j + 1)
  have hmax := h.blks_le
  have hfile := h.file j hj
  have hindir := h.indir_file hj
  generalize baseOf (files.take j) = base at *
  generalize files[j].data.length = len at *
  have hplace : n < nBlks len → place base n < 2 ^ 32 := by
    intro hlt
    have hp : place base n < base + usedBlks (nBlks len) := place_lt hlt
    omega
  unfold ptr
  by_cases hdir : n < 12
  · rw [dif_pos hdir]
    by_cases hlt : n < nBlks len
    · have hp : place base n = base + n := if_neg (by omega)
      rw [if_pos hlt, hp]
      change (if n < nBlks len then UInt32.ofNat (base + n) else 0).toNat = base + n
      rw [if_pos hlt]
      exact UInt32.toNat_ofNat_of_lt' (hp ▸ hplace hlt)
    · rw [if_neg hlt]
      change (if n < nBlks len then UInt32.ofNat (base + n) else 0).toNat = 0
      rw [if_neg hlt]
      rfl
  · rw [dif_neg hdir]
    by_cases h12 : 12 < nBlks len
    · rw [hindir, if_pos h12]
      by_cases hlt : n < nBlks len
      · rw [if_pos hlt, toNat_getU32]
        have hword : leNat (diskBlk img (base + 13)) (4 * (n - 12)) 4 =
            leNat (getByte (place base n)) 0 4 := by
          apply leNat_congr
          intro t ht
          rw [Nat.zero_add, ← hfile.table n (by omega) hlt t ht, diskBlk, Nat.add_assoc]
        have hval : place base n < 256 ^ 4 := hplace hlt
        change leNat (diskBlk img (base + 13)) (4 * (n - 12)) 4 = _
        rw [hword, leNat_getByte, pow_zero, Nat.div_one, Nat.mod_eq_of_lt hval]
      · rw [if_neg hlt]
        have hzero : getU32 (diskBlk img (base + 13)) (4 * (n - 12)) = 0 := by
          apply getU32_eq_zero
          intro k hk
          exact hfile.blank h12 _ (by omega) (by omega)
        exact congrArg UInt32.toNat hzero
    · rw [hindir, if_neg h12, if_neg (by omega)]
      exact congrArg UInt32.toNat (h.getU32_zero (show 4 * (n - 12) + 4 ≤ 4096 by omega))

theorem ImageOf.holds_file (h : ImageOf files img) {j : ℕ} (hj : j < files.length) :
    Holds (imgStore img) (fileDinode (baseOf (files.take j)) files[j].data.length)
      files[j].data.length fun k => files[j].data.getD k 0 := by
  have hend := baseOf_take_succ hj
  have hle := baseOf_take_le files (j + 1)
  have hbase := le_baseOf (files.take j)
  have hmax := h.blks_le
  have hsize := h.size j hj
  intro k hk
  have hn : k / 4096 < nBlks files[j].data.length := by unfold nBlks; omega
  have hp : place (baseOf (files.take j)) (k / 4096) <
      baseOf (files.take j) + usedBlks (nBlks files[j].data.length) := place_lt hn
  have hp' := place_ge (baseOf (files.take j)) (k / 4096)
  rw [h.ptr_file hj (by omega), if_pos hn]
  exact ⟨by omega, by omega, (h.file j hj).data k hk⟩

theorem ImageOf.holds_root (h : ImageOf files img) :
    Holds (imgStore img) (rootDinode files.length) (20 * files.length) fun k => img (45056 + k) := by
  have hent := h.entries
  intro k hk
  have hdiv : k / 4096 = 0 := by omega
  have hmod : k % 4096 = k := by omega
  rw [hdiv, hmod, h.ptr_root (by norm_num), if_pos rfl]
  exact ⟨by norm_num, by norm_num, rfl⟩

/-- The file system right after `fs_init`: the root directory in slot 0. -/
def mounted (img : Bytes) (n : ℕ) : Filesys :=
  (inodeInit (imgStore img)).setSlot 0 ⟨1, 1, false, true, rootDinode n⟩

theorem ImageOf.read_superblock (h : ImageOf files img) : FsMeta.read (diskBlk img 1) = superblock := by
  apply FsMeta.read_bytes
  · intro k hk
    exact h.super k hk
  · decide

theorem ImageOf.fsInit_eq (h : ImageOf files img) :
    fsInit (diskBlk img) = some (0, mounted img files.length) := by
  have hsb : FsMeta.read (diskBlk img fsSuperblk) = superblock := h.read_superblock
  have hnone : cacheRequestLocked (inodeInit (imgStore img)) fsRootInodeId = none := by
    apply find?_eq_none.mpr
    intro k _
    simp [inodeInit]
  have hfree : findReusableLocked (inodeInit (imgStore img)) = some 0 := by
    unfold findReusableLocked inodeInit
    rw [reverse_reverse]
    rfl
  have hget : inodeGet (inodeInit (imgStore img)) fsRootInodeId =
      some (0, (inodeInit (imgStore img)).setSlot 0 ⟨1, 1, false, false, Dinode.zero⟩) := by
    unfold inodeGet
    rw [hnone, hfree]
    rfl
  have hino : 1 < nbInodes superblock := by decide
  have hlock : inodeLock ((inodeInit (imgStore img)).setSlot 0 ⟨1, 1, false, false, Dinode.zero⟩)
      0 = some (0, (inodeInit (imgStore img)).setSlot 0 ⟨1, 1, true, true, rootDinode files.length⟩) := by
    rw [inodeLock_of_invalid (by simp) (by simp) hino]
    simp [← h.dinode_root, inodeInit]
  unfold fsInit
  rw [hsb]
  change setRoot (inodeInit (imgStore img)) = _
  unfold setRoot
  simp only [hget, bind_eq_bind, bind_some]
  change (inodeLock ((inodeInit (imgStore img)).setSlot 0 ⟨1, 1, false, false, Dinode.zero⟩) 0).bind _ = _
  rw [hlock]
  simp [inodeUnlock, mounted, rootDinode, Mkfs.rootDi]

end Image

end RvMiniOs.Fs
