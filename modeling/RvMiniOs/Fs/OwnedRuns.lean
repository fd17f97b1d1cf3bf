import RvMiniOs.Fs.Formatted

/-!
# Block ownership over runs

From a mounted image, calls that find the tables and blocks they ask for keep
every block owned. A call that does not can break this: the first write beyond
the direct blocks of a new file stores its block number in block 0, which every
inode without a table uses as one.
-/

namespace RvMiniOs.Fs

open Lib Option Filesys

section Room

variable {size offset count : ℕ} {f src : Bytes} {c : Cursor}

/-- A write of a file that finds room for its blocks, between two turns. -/
structure WritingRoom (size offset count : ℕ) (f src : Bytes) (c : Cursor) : Prop where
  writing : Writing size offset count f src c
  room : Room c.store c.inode.content (c.offset / 4096) (endBlk offset count)
  deny : c.store.deny = []
  refused : c.store.refused = 0

theorem WritingRoom.getData (h : WritingRoom size offset count f src c)
    (hmax : offset + count ≤ 1036 * 4096) (hlt : c.done < count) :
    let d := getDataLocked c.store c.inode (c.offset / 4096)
    Room d.2.1 d.2.2.content (c.offset / 4096) (endBlk offset count) ∧ d.2.1.deny = [] ∧
      d.2.1.refused = 0 := by
  obtain ⟨⟨-, hoff, -, hinv⟩, hroom, hdeny, hrefused⟩ := h
  have hend : c.offset / 4096 < endBlk offset count := by
    simp only [endBlk, fsBlkSize]
    omega
  rcases hroom.getData_cases hinv.wf hdeny (by omega) le_rfl hend with
    ⟨-, hget⟩ | ⟨hp, b, s', v, ha, hdeny', hv, hget⟩
  · rw [hget]
    exact ⟨hroom, hdeny, hrefused⟩
  · rw [hget]
    have hlo := ha.lo
    have hpos := dataStart_pos hinv.wf
    refine ⟨hroom.allocated hinv.wf le_rfl hend hp ha hv ?_ (Or.inl hinv.table_outside),
      (setPtr_deny ..).trans hdeny', (setPtr_refused ..).trans (ha.refused.trans hrefused)⟩
    rw [hinv.indir_toNat]
    omega

theorem WritingRoom.loop (h : WritingRoom size offset count f src c) (hmax : offset + count ≤ 1036 * 4096) :
    (writeLoop (kernelSrc src) count c).2.store.refused = 0 := by
  refine writeLoop_rule (P := WritingRoom size offset count f src)
    (Q := fun _ c => c.store.refused = 0) ?_ ?_ ?_ ?_ c h
  · exact fun c hc hlt _ => (hc.getData hmax hlt).2.2
  · exact fun c _ hc hlt _ _ => (hc.getData hmax hlt).2.2
  · intro c buf hc hlt hbuf d hpos
    cases hbuf
    obtain ⟨hroom, hdeny, hrefused⟩ := hc.getData hmax hlt
    have hturn := hc.writing.turn hmax hlt hpos
    have hoff := hc.writing.offset_eq
    obtain ⟨hinv, -, hret, -⟩ := hc.writing.inv.getData (show c.offset / 4096 < 1036 by omega)
    obtain ⟨hd, htaken⟩ := hret hpos
    have hd' : d.1.toNat = ptr d.2.1 d.2.2.content (c.offset / 4096) := by
      rw [hd, Int.toNat_natCast]
    have hdata : d.2.1.sb.dataStart ≤ d.1.toNat := hd' ▸ htaken.1
    have htab : d.2.2.content.indir.toNat ≠ d.1.toNat := by
      rw [hinv.indir_toNat]
      exact (hinv.wf.data_pos.trans_le hdata).ne
    refine ⟨hturn, ?_, hdeny, hrefused⟩
    have hnext := hturn.offset_eq
    refine (hroom.setBlk hinv.wf _ (hinv.wf.dbm_le_data.trans hdata) htab).mono ?_
    dsimp only at hnext ⊢
    omega
  · exact fun c hc _ => hc.refused

theorem FileRun.Empty.write_room {r : FileRun} (h : FileRun.Empty r) (src : Bytes) (count : ℕ)
    (hmax : count ≤ 1036 * 4096) (hdeny : r.store.deny = [])
    (hroom : Room r.store r.inode.content (0 / 4096) (endBlk 0 count)) :
    let w := inodeWrite r.store r.inode (kernelSrc src) 0 count
    FileInv w.2.1 w.2.2 count src := by
  have hlen : r.array.length = 0 := by rw [h.array]; rfl
  have hfile := h.inv.file
  rw [hlen] at hfile
  have hsize : r.inode.content.size.toNat = 0 := by rw [h.size]; rfl
  obtain ⟨n, -, hinv, -, hzero, hsome, hfull⟩ :=
    hfile.inodeWrite src hsize le_rfl (show 0 + count ≤ 1036 * 4096 by omega)
  have hrefused : (inodeWrite r.store r.inode (kernelSrc src) 0 count).2.1.refused = 0 := by
    obtain ⟨c, ⟨-, hstore⟩, hc⟩ := inodeWrite_leaves r.store r.inode (kernelSrc src) 0 count
    have hc0 : c.store.refused = 0 := by
      rcases hc with rfl | ⟨-, -, rfl⟩
      · exact h.refused
      · have hstart : WritingRoom 0 0 count (fun k => r.array.getD k 0) src
            ⟨r.store, r.inode, 0, 0⟩ :=
          ⟨⟨Nat.zero_le _, rfl, hsize, hfile⟩, hroom, hdeny, h.refused⟩
        exact hstart.loop (by omega)
    rcases hstore with heq | heq
    · rw [heq, hc0]
    · rw [heq, markDirtyLocked_refused, hc0]
  have hn : n = count := by
    have hret := hfull hrefused
    by_cases h0 : n = 0
    · have hle := hzero h0
      omega
    · have heq := hsome h0
      omega
  rw [hn, Nat.zero_add, Nat.zero_max] at hinv
  apply hinv.congr_data
  intro k hk
  rw [splice_inside (Nat.zero_le k) (by omega), Nat.sub_zero]

end Room

def freshSlot (r : Except ℤ (Fin inodeCacheSize) × Filesys) : Bool :=
  let i := r.2.islots 1
  i.valid && !i.locked && i.content.size == 0 && i.content.indir == 0 &&
    (List.finRange 12).all (fun n => i.content.dirblkno n == 0) && r.2.store.refused == 0

/-- The empty image, mounted, with a new file in slot 1. -/
structure NewFile (img : Bytes) (fs : Filesys) : Prop where
  mkfs : mkfs [] = some img
  created : FsOp.step (mounted img 0) (.create .file) = some fs
  relabels : Relabels (mounted img 0) fs
  valid : (fs.islots 1).valid = true
  unlocked : (fs.islots 1).locked = false
  size : (fs.islots 1).content.size = 0
  indir : (fs.islots 1).content.indir = 0
  dirblkno : (fs.islots 1).content.dirblkno = fun _ => 0
  refused : fs.store.refused = 0

theorem exists_newFile : ∃ img fs, NewFile img fs := by
  have hrun : ∃ img, Fs.mkfs [] = some img ∧
      (inodeCreate (mounted img 0) .file).any freshSlot = true :=
    ⟨_, rfl, by decide +kernel⟩
  obtain ⟨img, hmkfs, hfresh⟩ := hrun
  have himg : ImageOf [] img := mkfs_image hmkfs
  rcases hc : inodeCreate (mounted img 0) .file with _ | ⟨r, fs⟩
  · rw [hc] at hfresh
    cases hfresh
  rw [hc, Option.any_some] at hfresh
  simp only [freshSlot, Bool.and_eq_true, Bool.not_eq_true', beq_iff_eq, List.all_eq_true,
    List.mem_finRange, forall_const] at hfresh
  obtain ⟨⟨⟨⟨⟨hvalid, hlocked⟩, hsize⟩, hindir⟩, hdir⟩, hrefused⟩ := hfresh
  exact ⟨img, fs, hmkfs, by simp only [FsOp.step, hc, Option.map_some], himg.fsInv.create hc,
    hvalid, hlocked, hsize, hindir, funext hdir, hrefused⟩

namespace NewFile

variable {img : Bytes} {fs : Filesys}

def inode (fs : Filesys) : Inode := { fs.islots 1 with locked := true }

theorem image (h : NewFile img fs) : ImageOf [] img := mkfs_image h.mkfs

theorem empty (h : NewFile img fs) : FileRun.Empty ⟨fs.store, inode fs, []⟩ := by
  refine ⟨h.relabels.inv.apart.wf, h.size, h.dirblkno, h.indir, ?_, h.refused, rfl⟩
  intro o ho
  have haddr : 4096 * 0 + o = o := by omega
  rw [h.relabels.store.frame 0 (Or.inl rfl)]
  change img (4096 * 0 + o) = 0
  rw [haddr]
  exact h.image.boot o ho

theorem room (h : NewFile img fs) (d : Dinode) (lo : ℕ) {hi : ℕ} (hhi : hi ≤ 2036) :
    Room fs.store d lo hi := by
  unfold Room
  rw [h.relabels.store.freeBlks h.image.fsInv.apart.wf]
  change _ ≤ (freeBlks (imgStore img)).card
  rw [h.image.freeBlks]
  have hcard := Finset.card_filter_le (Finset.Ico lo hi) fun n => ptr fs.store d n = 0
  rw [Nat.card_Ico] at hcard
  have hfree : (Finset.Ico (baseOf []) 2048).card = 2036 := by rw [Nat.card_Ico]; rfl
  unfold unmapped
  omega

theorem write_step (h : NewFile img fs) (copyin : Copyin) (offset count : ℕ) :
    let w := inodeWrite fs.store (inode fs) copyin offset count
    FsOp.step fs (.write 1 copyin offset count) =
      some (inodeUnlock ({ fs.setSlot 1 (inode fs) with store := w.2.1 }.setSlot 1 w.2.2) 1) := by
  have hlock := inodeLock_of_valid h.unlocked h.valid
  simp only [FsOp.step, FsOp.locked, hlock, map_some, lt_self_iff_false, if_false,
    setSlot_self, setSlot_store]
  rfl

end NewFile

/-- In every run from an image of `mkfs` whose calls are all safe, the blocks of
all inodes are taken data blocks, each referred to once. -/
theorem owned_of_safe_run {files : List HostFile} {img : Bytes} {fs fs' : Filesys}
    (hmkfs : mkfs files = some img) (hmount : fsInit (diskBlk img) = some (0, fs))
    (hr : Reaches FsOp.step (fun fs op => op.Proper fs ∧ op.Safe fs) fs fs') :
    Owned fs'.store (Stored fs') := by
  have himg := mkfs_image hmkfs
  rw [himg.fsInit_eq] at hmount
  cases hmount
  exact Owned.run himg.fsInv himg.owned rfl hr

/-- A new file that is given five bytes. -/
theorem owned_of_safe_run_newFile : ∃ (img : Bytes) (fs fs' : Filesys), mkfs [] = some img ∧
    fsInit (diskBlk img) = some (0, fs) ∧
    Reaches FsOp.step (fun fs op => op.Proper fs ∧ op.Safe fs) fs fs' ∧
    Owned fs'.store (Stored fs') := by
  obtain ⟨img, fs, h⟩ := exists_newFile
  have hproper : (FsOp.write 1 (kernelSrc fun _ => 7) 0 5).Proper fs := by
    change 0 + 5 < 2 ^ 64
    norm_num
  have hsafe : (FsOp.write 1 (kernelSrc fun _ => 7) 0 5).Safe fs :=
    fun _ _ _ => ⟨fun h12 => absurd h12 (by decide), h.room _ _ (by decide)⟩
  have hstep := h.write_step (kernelSrc fun _ => 7) 0 5
  generalize FsOp.write 1 (kernelSrc fun _ => 7) 0 5 = op at hproper hsafe hstep
  have hcreate : Reaches FsOp.step (fun fs op => op.Proper fs ∧ op.Safe fs) (mounted img 0) fs :=
    (Reaches.refl _).tail (.create .file) ⟨trivial, trivial⟩ h.created
  have hrun := hcreate.tail op ⟨hproper, hsafe⟩ hstep
  exact ⟨img, _, _, h.mkfs, h.image.fsInit_eq, hrun, owned_of_safe_run h.mkfs h.image.fsInit_eq hrun⟩

/-- A first write of 49153 bytes to a new file makes block 0 the table of its
thirteenth block. -/
theorem block_zero_is_a_table : ∃ (img : Bytes) (fs fs' : Filesys), mkfs [] = some img ∧
    fsInit (diskBlk img) = some (0, fs) ∧
    Reaches FsOp.step (fun fs op => op.Proper fs) fs fs' ∧ ¬ Owned fs'.store (Stored fs') := by
  obtain ⟨img, fs, h⟩ := exists_newFile
  have hproper : (FsOp.write 1 (kernelSrc fun _ => 7) 0 49153).Proper fs := by
    change 0 + 49153 < 2 ^ 64
    norm_num
  refine ⟨img, mounted img 0, _, h.mkfs, h.image.fsInit_eq,
    ((Reaches.refl _).tail _ trivial h.created).tail _ hproper
      (h.write_step (kernelSrc fun _ => 7) 0 49153), ?_⟩
  have hinv := h.empty.write_room (fun _ => 7) 49153 (by norm_num) h.relabels.store.deny
    (h.room _ _ (by decide))
  obtain ⟨c, ⟨⟨z, hz⟩, -⟩, hc⟩ :=
    inodeWrite_leaves fs.store (NewFile.inode fs) (kernelSrc fun _ => 7) 0 49153
  have hvalid : c.inode.valid = true := by
    rcases hc with rfl | ⟨-, -, rfl⟩
    · exact h.valid
    · obtain ⟨p, hp⟩ := writeLoop_inode fs.store (NewFile.inode fs) (kernelSrc fun _ => 7) 49153 0 0
      rw [hp]
      exact h.valid
  dsimp only at hinv ⊢
  generalize inodeWrite fs.store (NewFile.inode fs) (kernelSrc fun _ => 7) 0 49153 = w at *
  -- the thirteenth block is entered in the table, and that is block 0
  obtain ⟨hp, -, -⟩ := hinv.holds 49152 (by norm_num)
  have href : RefersAt w.2.1 w.2.2.content .table 0 :=
    ⟨hinv.indir_toNat, Or.inr ⟨12, le_rfl, by norm_num, hp.ne'⟩⟩
  have hstored : Stored (inodeUnlock ({ fs.setSlot 1 (NewFile.inode fs) with
      store := w.2.1 }.setSlot 1 w.2.2) 1) w.2.2.ino w.2.2.content := by
    refine Or.inr ⟨1, ?_, ?_, ?_⟩
    · rw [inodeUnlock, setSlot_self, setSlot_self, hz]
      exact hvalid
    · rw [inodeUnlock, setSlot_self, setSlot_self]
    · rw [inodeUnlock, setSlot_self, setSlot_self]
  intro howned
  have htaken := howned.taken _ _ _ _ hstored href
  exact absurd htaken.1 (not_le.mpr hinv.wf.data_pos)

end RvMiniOs.Fs
