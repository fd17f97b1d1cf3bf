import RvMiniOs.Fs.Counts

/-!
# Making a component of a path

One turn of the loop of `fs_inode_from_path` on a sound file system, seen from the tree:
it follows an entry, makes an inode and an entry for it, or fails. A new inode takes one
number, its entry at most one block, so that the numbers and blocks that are left say
beforehand how far a path can be made.
-/

namespace RvMiniOs.Fs

open Lib Option Filesys

/-- The block that the next entry of a directory ends in. -/
def entryBlk (d : Dinode) : ℕ := (d.size.toNat + sizeofDirent - 1) / fsBlkSize

/-- How many blocks have to be allocated for the next entry of a directory. -/
def newBlks (s : Store) (d : Dinode) : ℕ := if ptr s d (entryBlk d) = 0 then 1 else 0

/-- No direct block number is the error code of a failed allocation. -/
def Unspoiled (s : Store) (d : Dinode) : Prop :=
  ∀ n < fsInodeDirDblkno, ptr s d n = 0 ∨ IsBlk (ptr s d n)

section Blocks

variable {s : Store} {d : Dinode} {i : Inode} {S : Contents} {ino : ℕ} {src : Bytes}

theorem available_iff {n : ℕ} (hclean : ptr s d n = 0 ∨ IsBlk (ptr s d n)) (hdeny : s.deny = []) :
    Available s d n ↔ ptr s d n ≠ 0 ∨ 0 < (freeBlks s).card := by
  unfold Available
  rw [Finset.card_pos, hdeny]
  constructor
  · rintro (hblk | ⟨-, -, b, hlo, hhi, hclear⟩)
    · exact .inl hblk.1
    · exact .inr ⟨b, mem_freeBlks.mpr ⟨⟨hlo, hhi⟩, hclear⟩⟩
  · intro h
    by_cases h0 : ptr s d n = 0
    · obtain ⟨b, hb⟩ := h.resolve_left (not_not.mpr h0)
      obtain ⟨⟨hlo, hhi⟩, hclear⟩ := mem_freeBlks.mp hb
      exact .inr ⟨h0, rfl, b, hlo, hhi, hclear⟩
    · exact .inl (hclean.resolve_left h0)

theorem entryBlk_cases (d : Dinode) : (d.size.toNat % 4096 + 20 ≤ 4096 ∧ entryBlk d = d.size.toNat / 4096) ∨
    (4096 < d.size.toNat % 4096 + 20 ∧ entryBlk d = d.size.toNat / 4096 + 1) := by
  simp only [entryBlk, sizeofDirent, fsBlkSize]
  omega

theorem entry_available_iff (hd : DirSound s d) (hclean : Unspoiled s d) (hdeny : s.deny = [])
    (hmax : d.size.toNat + 20 ≤ 12 * 4096) :
    (EntryFits s d ∧ Available s d (d.size.toNat / 4096)) ↔ newBlks s d ≤ (freeBlks s).card := by
  have hcount : Available s d (entryBlk d) ↔ newBlks s d ≤ (freeBlks s).card := by
    have hlt : entryBlk d < 12 := by
      have hblk := entryBlk_cases d
      omega
    rw [available_iff (hclean _ hlt) hdeny, newBlks]
    split_ifs with h0
    · simp [h0, Nat.succ_le_iff]
    · simp [h0]
  rw [← hcount]
  rcases entryBlk_cases d with ⟨hin, hblk⟩ | ⟨hcross, hblk⟩
  · rw [hblk]
    exact ⟨fun h => h.2, fun h => ⟨.inl hin, h⟩⟩
  · have hmapped := hd.mapped (d.size.toNat / 4096) (by omega)
    rw [hblk]
    refine ⟨fun h => h.1.resolve_left ?_, fun h => ⟨.inr h, .inl hmapped⟩⟩
    simp only [fsBlkSize, sizeofDirent]
    omega

theorem getDataLocked_spends (wf : s.sb.WellFormed) {n : ℕ} (hn : n < 12) (hpos : 0 ≤ (getDataLocked s i n).1) :
    (freeBlks (getDataLocked s i n).2.1).card + (if ptr s i.content n = 0 then 1 else 0) = (freeBlks s).card ∧
      ∀ m ≠ n, m < 12 → ptr (getDataLocked s i n).2.1 (getDataLocked s i n).2.2.content m = ptr s i.content m := by
  rcases getDataLocked_cases (i := i) wf (show n < 1036 by omega) with
    ⟨hp, hget⟩ | ⟨hp, b, s', v, ha, -, -, hget⟩ | ⟨-, -, v, -, hget⟩
  · rw [hget, if_neg hp]
    exact ⟨rfl, fun _ _ _ => rfl⟩
  · have hstore : (setPtr s' i n v).1 = s' := by simp [setPtr, hn]
    rw [hget, if_pos hp]
    refine ⟨?_, fun m hm hm12 => ?_⟩
    · dsimp only
      rw [hstore]
      exact ha.card_freeBlks
    · rw [ptr_setPtr_ne s' i n v hm, ptr_direct s s' _ hm12]
  · rw [hget] at hpos
    simp only [enospc] at hpos
    omega

/-- The blocks that the write of an entry has used up. -/
structure Spends (s : Store) (i : Inode) (c : Cursor) : Prop where
  start : c.done = 0 → c.store = s ∧ c.inode = i
  middle : 0 < c.done → c.done < 20 → c.offset = 4096 * entryBlk i.content ∧
    (freeBlks c.store).card = (freeBlks s).card ∧
    ptr c.store c.inode.content (entryBlk i.content) = ptr s i.content (entryBlk i.content)
  full : c.done = 20 → (freeBlks c.store).card + newBlks s i.content = (freeBlks s).card
  clean : Unspoiled c.store c.inode.content

theorem Spends.turn {c : Cursor} (h : Spends s i c) (hext : Extending S ino s i src c) (hd : DirSound s i.content)
    (hmax : i.content.size.toNat + 20 ≤ 12 * 4096) (hlt : c.done < 20) :
    let r := getDataLocked c.store c.inode (c.offset / 4096)
    let m := turnSize 20 c.offset c.done
    0 ≤ r.1 → Spends s i
      { store := r.2.1.setBlk r.1.toNat (splice (r.2.1.blk r.1.toNat) (c.offset % 4096) m
          fun k => src (c.done + k))
        inode := r.2.2
        offset := (c.offset + m) % 2 ^ 32
        done := c.done + m } := by
  intro r m hpos
  have hoff := hext.offset
  have hn : c.offset / 4096 < 12 := by omega
  have hm : m = min (20 - c.done) (4096 - c.offset % 4096) := rfl
  obtain ⟨hfetch, hfound⟩ := hext.fills.guarded.getData (c.offset / 4096)
  obtain ⟨-, hblk, hptr⟩ := hfound hpos
  obtain ⟨hcard, hother⟩ : (freeBlks r.2.1).card +
      (if ptr c.store c.inode.content (c.offset / 4096) = 0 then 1 else 0) = (freeBlks c.store).card ∧
      ∀ m ≠ c.offset / 4096, m < 12 → ptr r.2.1 r.2.2.content m = ptr c.store c.inode.content m :=
    getDataLocked_spends hext.fills.guarded.wf hn hpos
  have hlo := hfetch.guarded.data_lo (.inr ⟨rfl, rfl⟩) (by omega : c.offset / 4096 < 1036)
    (hptr ▸ hblk.1)
  rw [hptr] at hlo
  have hfree : freeBlks (r.2.1.setBlk r.1.toNat (splice (r.2.1.blk r.1.toNat) (c.offset % 4096) m
      fun k => src (c.done + k))) = freeBlks r.2.1 :=
    freeBlks_setBlk hfetch.guarded.wf _ (hfetch.guarded.wf.dbm_le_data.trans hlo)
  refine ⟨fun h0 => ?_, fun hdone hdone' => ?_, fun hdone => ?_, fun n' hn' => ?_⟩
  · dsimp only at h0
    omega
  · -- the first turn fills the last block of the directory, which is there already
    dsimp only at hdone hdone' ⊢
    have hc0 : c.done = 0 := by
      by_contra hne
      obtain ⟨hal, -, -⟩ := h.middle (by omega) hlt
      omega
    obtain ⟨hs, hi⟩ := h.start hc0
    rcases entryBlk_cases i.content with ⟨hin, -⟩ | ⟨hcross, hend⟩
    · omega
    have hmapped := hd.mapped (c.offset / 4096) (by omega)
    rw [hs, hi, if_neg hmapped.1] at hcard
    have hnext := hother (entryBlk i.content) (by omega) (by omega)
    rw [hs, hi] at hnext
    refine ⟨by omega, ?_, ?_⟩
    · rw [hfree]
      exact hcard
    · rw [ptr_direct r.2.1 _ _ (by omega), hnext]
  · dsimp only at hdone ⊢
    rw [hfree]
    rcases Nat.eq_zero_or_pos c.done with hc0 | hc0
    · obtain ⟨hs, hi⟩ := h.start hc0
      rcases entryBlk_cases i.content with ⟨-, hend⟩ | ⟨hcross, -⟩
      · rw [hs, hi, show c.offset / 4096 = entryBlk i.content by omega] at hcard
        exact hcard
      · omega
    · obtain ⟨hal, hsame, hold⟩ := h.middle hc0 hlt
      rw [show c.offset / 4096 = entryBlk i.content by omega, hold, hsame] at hcard
      exact hcard
  · dsimp only
    rw [ptr_direct r.2.1 _ _ hn']
    by_cases heq : n' = c.offset / 4096
    · rw [heq, hptr]
      exact .inr hblk
    · rw [hother n' heq hn']
      exact h.clean n' hn'

theorem Guarded.append_spends (hg : Guarded s (S.add ino i.content)) (hd : DirSound s i.content)
    (hclean : Unspoiled s i.content) (hmax : i.content.size.toNat + 20 ≤ 12 * 4096) (src : Bytes) :
    let w := inodeWrite s i (kernelSrc src) i.content.size.toNat sizeofDirent
    w.1 = 20 → (freeBlks w.2.1).card + newBlks s i.content = (freeBlks s).card ∧ Unspoiled w.2.1 w.2.2.content := by
  have hloop : let w := Fs.writeLoop (kernelSrc src) 20 ⟨s, i, i.content.size.toNat, 0⟩
      w.1 ≤ 0 ∧ (w.2.done = 20 → Extending S ino s i src w.2 ∧ Spends s i w.2) := by
    refine writeLoop_rule (P := fun c => Extending S ino s i src c ∧ Spends s i c)
      (Q := fun r c => r ≤ 0 ∧ (c.done = 20 → Extending S ino s i src c ∧ Spends s i c))
      ?_ ?_ ?_ ?_ ⟨s, i, i.content.size.toNat, 0⟩ ?_
    · intro c _ hlt r hneg
      exact ⟨hneg.le, fun h20 => absurd h20 hlt.ne⟩
    · exact fun c e _ _ he => by cases he
    · intro c buf hc hlt hbuf r hpos
      cases hbuf
      exact ⟨hc.1.turn hmax hlt hpos, hc.2.turn hc.1 hd hmax hlt hpos⟩
    · exact fun c hc _ => ⟨le_rfl, fun _ => hc⟩
    · exact ⟨Extending.start hg hd src, fun _ => ⟨rfl, rfl⟩, fun h0 => absurd h0 (lt_irrefl 0),
        fun h20 => absurd h20 (by norm_num), hclean⟩
  generalize hw : Fs.writeLoop (kernelSrc src) 20 ⟨s, i, i.content.size.toNat, 0⟩ = w at hloop
  rw [inodeWrite_entry hmax hw]
  dsimp only at hloop ⊢
  obtain ⟨hres, hloop⟩ := hloop
  intro h20
  have hdone : w.2.done = 20 := by
    split_ifs at h20 <;> omega
  obtain ⟨hext, hspend⟩ := hloop hdone
  obtain ⟨p, hp⟩ := hext.fills.inode
  have hoff := hext.offset
  have hgrow : w.2.inode.content.size.toNat < w.2.offset := by
    rw [show w.2.inode.content.size = i.content.size by rw [hp]]
    omega
  have wf : w.2.store.sb.WellFormed := hext.fills.guarded.wf
  rw [if_pos hgrow]
  refine ⟨?_, fun n hn => ?_⟩
  · rw [(markDirtyLocked_metaOnly wf _).freeBlks wf]
    exact hspend.full hdone
  · have hsame := hspend.clean n hn
    simp only [ptr, fsInodeDirDblkno] at hn hsame ⊢
    rw [dif_pos hn] at hsame ⊢
    exact hsame

end Blocks

section Entry

variable {fs fs' : Filesys} {k : Fin inodeCacheSize} {r : Fin inodeCacheSize → ℕ} {stack : Bytes}
  {name : List UInt8} {inum : ℕ} {res : ℤ}

theorem dirAddEntry_cases (hlt : (fs.islots k).ino < nbInodes fs.store.sb)
    (ha : dirAddEntry stack fs k name inum = some (res, fs')) :
    (maxname ≤ name.length ∧ res < 0 ∧ fs' = fs) ∨
      ∃ w, inodeWrite fs.store (lockedSlot fs k) (kernelSrc (newDirent stack name inum))
          (lockedSlot fs k).content.size.toNat sizeofDirent = w ∧
        name.length < maxname ∧ inodeLock fs k = some (0, fs.setSlot k (lockedSlot fs k)) ∧ res = w.1 ∧
        fs' = inodeUnlock ({ fs.setSlot k (lockedSlot fs k) with store := w.2.1 }.setSlot k w.2.2) k := by
  simp only [dirAddEntry, bind_eq_bind, Option.pure_def] at ha
  split_ifs at ha with hlong
  · cases ha
    exact .inl ⟨Nat.lt_succ_iff.mp hlong, by decide, rfl⟩
  obtain ⟨⟨res₁, fs₁⟩, hlock, ha⟩ := bind_eq_some_iff.mp ha
  rcases inodeLock_cases hlock with ⟨-, -, hge, -⟩ | ⟨rfl, -, rfl⟩
  · exact absurd hlt (not_lt.mpr hge)
  dsimp only at ha
  rw [if_neg (lt_irrefl 0), setSlot_self] at ha
  cases ha
  refine .inr ⟨_, rfl, ?_, hlock, rfl, rfl⟩
  simp only [maxname] at hlong ⊢
  omega

theorem DirInv.guarded_locked (h : DirInv fs) (hlock : inodeLock fs k = some (0, fs.setSlot k (lockedSlot fs k))) :
    Guarded fs.store ((Stored (fs.setSlot k (lockedSlot fs k))).add (fs.islots k).ino (lockedSlot fs k).content) := by
  have hself : (fs.setSlot k (lockedSlot fs k)).islots k = lockedSlot fs k := setSlot_self ..
  have hg := (h.lock hlock).1.guarded.congr (Stored.covers_add (k := k) (by rw [hself]; rfl))
  rw [hself] at hg
  exact hg

/-- The first `done` bytes of an entry have been added to the directory in slot `k`. -/
structure EntryWritten (fs fs' : Filesys) (k : Fin inodeCacheSize) (done : ℕ) : Prop where
  inv : FsInv fs'
  touches : Touches fs fs' k
  grows : Grows fs.store fs'.store
  bits : ∀ ino < nbInodes fs.store.sb, inodeBit fs'.store ino = inodeBit fs.store ino
  sole : ∀ d, Stored fs' (fs.islots k).ino d → d = effective fs' k
  type : (effective fs' k).type = (effective fs k).type
  size : (effective fs' k).size.toNat = (effective fs k).size.toNat + done
  byte : ∀ n < (effective fs k).size.toNat,
    fileByte fs'.store (effective fs' k) n = fileByte fs.store (effective fs k) n

theorem effective_inodeUnlock_setSlot (fs : Filesys) (k : Fin inodeCacheSize) {i : Inode} (hvalid : i.valid = true) :
    effective (inodeUnlock (fs.setSlot k i) k) k = i.content := by
  rw [inodeUnlock_setSlot]
  unfold effective
  rw [setSlot_self, if_pos hvalid]

theorem DirInv.written (h : DirInv fs) (hlock : inodeLock fs k = some (0, fs.setSlot k (lockedSlot fs k)))
    (hmax : (effective fs k).size.toNat + 20 ≤ 12 * 4096) {src : Bytes} {c : Cursor} {i' : Inode} {s' : Store}
    (hc : Extending (Stored (fs.setSlot k (lockedSlot fs k))) (fs.islots k).ino fs.store (lockedSlot fs k) src c)
    (hi' : i' = { c.inode with content := { c.inode.content with
      size := UInt32.ofNat ((effective fs k).size.toNat + c.done) } })
    (hs' : s' = (markDirtyLocked c.store i').2) :
    EntryWritten fs (inodeUnlock ({ fs.setSlot k (lockedSlot fs k) with store := s' }.setSlot k i') k) k c.done := by
  have hself : (fs.setSlot k (lockedSlot fs k)).islots k = lockedSlot fs k := setSlot_self ..
  obtain ⟨h₁, -⟩ := h.lock hlock
  have hvalid : ((fs.setSlot k (lockedSlot fs k)).islots k).valid = true := by rw [hself]; rfl
  have hfill : Fills (Stored (fs.setSlot k (lockedSlot fs k))) ((fs.setSlot k (lockedSlot fs k)).islots k).ino
      (fs.setSlot k (lockedSlot fs k)).store ((fs.setSlot k (lockedSlot fs k)).islots k) c.store c.inode := by
    rw [hself]
    exact hc.fills
  have hleave : Leaves c s' i' := ⟨⟨_, hi'⟩, .inr hs'⟩
  obtain ⟨p, hp⟩ := hc.fills.inode
  have hino : i'.ino = (fs.islots k).ino := by rw [hi', hp]; rfl
  have hle := hc.done_le
  obtain ⟨hinv, hgrow, -, -⟩ := h₁.toFsInv.access hvalid (hfill.passed c.offset c.done) hleave
  have hlt := h₁.ino_lt k hvalid
  rw [hself] at hlt
  have hlt' : i'.ino < nbInodes fs.store.sb := by rw [hino]; exact hlt
  have hrec := Records.of_leaves h.apart.wf hc.fills.keeps hlt' (.inr hs')
  have hslot := effective_inodeUnlock_setSlot { fs.setSlot k (lockedSlot fs k) with store := s' } k (i := i')
    (by rw [hi', hp]; rfl)
  have hrecorded := hc.recorded hmax hi' hs'
  refine ⟨hinv, (h₁.touches hvalid hfill hleave).of_locked, hgrow, hrec.bits, fun d hd => ?_, ?_, ?_, ?_⟩
  · rw [hslot]
    refine h₁.stored_recorded hvalid hc.fills.keeps.sb (by rw [hself]; exact hino) hs' ?_
    rw [hself]
    exact hd
  · rw [hslot, hi', hp]
    rfl
  · rw [hslot, hi']
    exact UInt32.toNat_ofNat_of_lt' (show _ < 2 ^ 32 by omega)
  · intro n hn
    rw [hslot]
    refine (hrecorded n (by simp only [lockedSlot]; omega)).2.2.trans ?_
    exact splice_outside (.inl hn)

theorem DirInv.addEntry_whole (h : DirInv fs) (hr : Held fs r) (hk : 0 < r k)
    (hdir : (effective fs k).type = .directory) (hclean : Unspoiled fs.store (effective fs k))
    (hfit : EntryFits fs.store (effective fs k)) (hmax : (effective fs k).size.toNat + 20 ≤ 12 * 4096)
    (ha : dirAddEntry stack fs k name inum = some (res, fs')) (hpos : 0 ≤ res) :
    EntryWritten fs fs' k 20 ∧ Unspoiled fs'.store (effective fs' k) ∧
      (freeBlks fs'.store).card + newBlks fs.store (effective fs k) = (freeBlks fs.store).card := by
  rcases dirAddEntry_cases (hr.ino_lt k hk) ha with ⟨-, hneg, -⟩ | ⟨w, hw, -, hlock, rfl, rfl⟩
  · omega
  have hg := h.guarded_locked hlock
  have hsound : DirSound fs.store (lockedSlot fs k).content :=
    h.dirs _ _ (Stored.effective fun _ => hr.ino_lt k hk) hdir
  have hwrite := hg.append hsound hmax hfit (newDirent stack name inum)
  have hspend := hg.append_spends hsound hclean hmax (newDirent stack name inum)
  dsimp only at hwrite hspend
  rw [hw] at hwrite hspend
  rcases hwrite with ⟨c, hc, hdone, hres, hi', hs'⟩ | ⟨hneg, -, -⟩
  · have hwritten := h.written hlock hmax ⟨hc.fills, hc.done_le, hc.offset, hc.holds⟩
      (by rw [hdone]; exact hi') hs'
    obtain ⟨hcard, hnew⟩ := hspend hres
    rw [hdone] at hwritten
    obtain ⟨p, hp⟩ := hc.fills.inode
    refine ⟨hwritten, ?_, hcard⟩
    rw [effective_inodeUnlock_setSlot _ k (by rw [hi', hp]; rfl)]
    exact hnew
  · exact absurd hneg (not_lt.mpr hpos)

theorem Grows.card_freeBlks {s s' : Store} (h : Grows s s') (h0 : (freeBlks s).card = 0) :
    (freeBlks s').card = 0 := by
  rw [Finset.card_eq_zero, Finset.eq_empty_iff_forall_notMem] at h0 ⊢
  intro b hb
  obtain ⟨⟨hlo, hhi⟩, hclear⟩ := mem_freeBlks.mp hb
  rw [h.sb] at hlo hhi
  by_cases hbit : dataBit s b = true
  · rw [(h.data b ⟨hlo, hhi, hbit⟩).2.2] at hclear
    cases hclear
  · exact h0 b (mem_freeBlks.mpr ⟨⟨hlo, hhi⟩, by simpa using hbit⟩)

theorem DirInv.addEntry_part (h : DirInv fs) (hr : Held fs r) (hk : 0 < r k)
    (hdir : (effective fs k).type = .directory) (hclean : Unspoiled fs.store (effective fs k))
    (hdeny : fs.store.deny = []) (hfit : ¬ EntryFits fs.store (effective fs k))
    (hmax : (effective fs k).size.toNat + 20 ≤ 12 * 4096)
    (ha : dirAddEntry stack fs k name inum = some (res, fs')) : (maxname ≤ name.length ∧ res < 0 ∧ fs' =
    fs) ∨ ∃ done : ℕ, 0 < done ∧ done < 20 ∧ res = done ∧ EntryWritten fs fs' k done ∧ fs.store.refused <
    fs'.store.refused ∧ (freeBlks fs'.store).card = 0 := by
  rcases dirAddEntry_cases (hr.ino_lt k hk) ha with hlong | ⟨w, hw, -, hlock, rfl, rfl⟩
  · exact .inl hlong
  have hsound : DirSound fs.store (lockedSlot fs k).content :=
    h.dirs _ _ (Stored.effective fun _ => hr.ino_lt k hk) hdir
  have hwrite := (h.guarded_locked hlock).appendPart hsound hmax hfit (newDirent stack name inum)
  dsimp only at hwrite
  rw [hw] at hwrite
  obtain ⟨c, hc, hpos, hlt, hres, hi', hs', hrefused⟩ := hwrite
  have hwritten := h.written hlock hmax hc hi' hs'
  -- the block behind the last one is missing, and there is none for it
  have hnone : ¬ Available fs.store (effective fs k) ((effective fs k).size.toNat / 4096 + 1) :=
    fun hav => hfit (.inr hav)
  have hcross : 4096 < (effective fs k).size.toNat % 4096 + 20 := not_le.mp fun hle => hfit (.inl hle)
  rw [available_iff (hclean _ (by simp only [fsInodeDirDblkno]; omega)) hdeny, not_or, not_not, not_lt,
    Nat.le_zero] at hnone
  obtain ⟨hzero, hfree⟩ := hnone
  refine .inr ⟨c.done, hpos, hlt, hres, hwritten, ?_, hwritten.grows.card_freeBlks hfree⟩
  have hcount := hrefused hzero
  have hmono := (Answers.markDirtyLocked c.store w.2.2).refused
  rw [← hs'] at hmono
  change fs.store.refused < w.2.1.refused
  omega

end Entry

/-- The content of an inode that `inode_create` has made of a zero entry of the table. -/
def newDinode (type : InodeType) : Dinode := { Dinode.zero with type := type, nblink := 1 }

/-- What `inode_create` leaves in slot `k` if free entries of the inode table are zero. -/
structure NewInode (fs fs' : Filesys) (k : Fin inodeCacheSize) (type : InodeType) : Prop
    extends Created fs fs' k where
  free : inodeBit fs.store (fs'.islots k).ino = false
  bits : ∀ ino < nbInodes fs.store.sb,
    inodeBit fs'.store ino = (inodeBit fs.store ino || decide (ino = (fs'.islots k).ino))
  content : ∀ d, Stored fs' (fs'.islots k).ino d → d = newDinode type
  others : ∀ ino d, Stored fs' ino d → ino ≠ (fs'.islots k).ino → Stored fs ino d

section New

variable {fs fs' : Filesys} {k : Fin inodeCacheSize} {type : InodeType}

theorem DirInv.newInode (h : DirInv fs)
    (hzero : ∀ ino < nbInodes fs.store.sb, inodeBit fs.store ino = false →
      diskDinode fs.store ino = Dinode.zero)
    (hc : inodeCreate fs type = some (.ok k, fs')) : NewInode fs fs' k type := by
  obtain ⟨id, he⟩ := h.enters hc
  rw [hzero id he.lt he.clear] at he
  refine ⟨h.create hc, he.ino ▸ he.clear, fun ino hlt => ?_, fun d hd => ?_, fun ino d hd hne => ?_⟩
  · rw [he.ino, he.bit ino hlt]
  · rw [he.ino] at hd
    exact he.stored_new hd
  · rw [he.ino] at hne
    exact he.stored_old hd hne

end New

end RvMiniOs.Fs
