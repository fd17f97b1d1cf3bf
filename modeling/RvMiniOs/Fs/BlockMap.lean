import RvMiniOs.Fs.Inode

/-!
# Block map of an inode

`ptr` is the block number that `_get_data_locked` finds for a block of an inode,
in the inode itself or in the table that `indir` names. The lemmas say what
`_get_data_locked` does in terms of it and give the invariant rules of the two
copy loops; the modules above use nothing else of their definitions.
-/

namespace RvMiniOs.Fs

open Lib

/-- The number stored for block `nth` of an inode, 0 when none is. -/
def ptr (s : Store) (d : Dinode) (nth : ℕ) : ℕ :=
  if h : nth < fsInodeDirDblkno then (d.dirblkno ⟨nth, h⟩).toNat
  else (getU32 (s.blk d.indir.toNat) (4 * (nth - fsInodeDirDblkno))).toNat

def setPtr (s : Store) (i : Inode) (nth : ℕ) (v : UInt32) : Store × Inode :=
  if h : nth < fsInodeDirDblkno then
    (s, { i with content :=
      { i.content with dirblkno := Function.update i.content.dirblkno ⟨nth, h⟩ v } })
  else
    (s.setBlk i.content.indir.toNat
      (putU32 (s.blk i.content.indir.toNat) (4 * (nth - fsInodeDirDblkno)) v), i)

section SetPtr

variable (s : Store) (i : Inode) (nth : ℕ) (v : UInt32)

theorem ptr_lt (d : Dinode) : ptr s d nth < 2 ^ 32 := by
  unfold ptr
  split_ifs
  · exact UInt32.toNat_lt _
  · exact UInt32.toNat_lt _

@[simp] theorem setPtr_sb : (setPtr s i nth v).1.sb = s.sb := by
  unfold setPtr
  split_ifs <;> rfl

@[simp] theorem setPtr_refused : (setPtr s i nth v).1.refused = s.refused := by
  unfold setPtr
  split_ifs <;> rfl

@[simp] theorem setPtr_deny : (setPtr s i nth v).1.deny = s.deny := by
  unfold setPtr
  split_ifs <;> rfl

@[simp] theorem setPtr_size : (setPtr s i nth v).2.content.size = i.content.size := by
  unfold setPtr
  split_ifs <;> rfl

@[simp] theorem setPtr_indir : (setPtr s i nth v).2.content.indir = i.content.indir := by
  unfold setPtr
  split_ifs <;> rfl

theorem setPtr_inode : ∃ p, (setPtr s i nth v).2 =
    { i with content := { i.content with dirblkno := p } } := by
  unfold setPtr
  split_ifs with h
  · exact ⟨_, rfl⟩
  · exact ⟨i.content.dirblkno, rfl⟩

theorem setPtr_blk {b : ℕ} (hb : b ≠ i.content.indir.toNat) : (setPtr s i nth v).1.blk b = s.blk b := by
  unfold setPtr
  split_ifs
  · rfl
  · exact Store.setBlk_blk_ne _ hb

theorem setPtr_store_of_direct (h : nth < 12) : (setPtr s i nth v).1 = s := by
  rw [setPtr, dif_pos h]

@[simp] theorem ptr_setPtr_self : ptr (setPtr s i nth v).1 (setPtr s i nth v).2.content nth = v.toNat := by
  by_cases h : nth < 12
  · simp [ptr, setPtr, h]
  · simp [ptr, setPtr, h]

theorem ptr_setPtr_ne {n : ℕ} (hn : n ≠ nth) :
    ptr (setPtr s i nth v).1 (setPtr s i nth v).2.content n = ptr s i.content n := by
  by_cases h : nth < 12
  · by_cases h' : n < 12
    · simp [ptr, setPtr, h, h', hn]
    · simp [ptr, setPtr, h, h']
  · by_cases h' : n < 12
    · simp [ptr, setPtr, h, h']
    · have hfar : 4 * (n - 12) + 4 ≤ 4 * (nth - 12) ∨ 4 * (nth - 12) + 4 ≤ 4 * (n - 12) := by
        omega
      simp [ptr, setPtr, h, h', getU32_putU32_ne v hfar]

end SetPtr

section Data

variable {s : Store} {i : Inode} {nth : ℕ}

theorem getDataLocked_of_ge (hn : ¬ nth < 1036) : getDataLocked s i nth = (-efbig, s, i) := if_pos (not_lt.mp hn)

theorem getDataLocked_of_mapped (hn : nth < 1036) (hp : ptr s i.content nth ≠ 0) :
    getDataLocked s i nth = (asInt32 (ptr s i.content nth), s, i) := by
  unfold ptr at hp ⊢
  rw [getDataLocked, if_neg (by simp only [fsInodeDirDblkno, fsInodeIndirDblkno]; omega)]
  split_ifs at hp ⊢ with h
  · have hne : i.content.dirblkno ⟨nth, h⟩ ≠ 0 := fun h0 => hp (by rw [h0]; rfl)
    rw [getDirBlk, if_neg hne]
  · have hne : getU32 (s.blk i.content.indir.toNat) (4 * (nth - fsInodeDirDblkno)) ≠ 0 :=
      fun h0 => hp (by rw [h0]; rfl)
    rw [getIndirBlk, if_neg hne]

theorem getDataLocked_of_unmapped (hn : nth < 1036) (hp : ptr s i.content nth = 0) : getDataLocked s i nth =
    (asInt32 (toU32 (balloc s).1).toNat, setPtr (balloc s).2 i nth (toU32 (balloc s).1)) := by
  unfold ptr at hp
  rw [getDataLocked, if_neg (by simp only [fsInodeDirDblkno, fsInodeIndirDblkno]; omega)]
  split_ifs at hp ⊢ with h
  · have h0 : i.content.dirblkno ⟨nth, h⟩ = 0 := UInt32.toNat.inj hp
    rw [getDirBlk, if_pos h0, setPtr, dif_pos h]
  · have h0 : getU32 (s.blk i.content.indir.toNat) (4 * (nth - fsInodeDirDblkno)) = 0 :=
      UInt32.toNat.inj hp
    rw [getIndirBlk, if_pos h0, setPtr, dif_neg h]

theorem getDataLocked_cases (wf : s.sb.WellFormed) (hn : nth < 1036) : (ptr s i.content nth ≠ 0 ∧
    getDataLocked s i nth = (asInt32 (ptr s i.content nth), s, i)) ∨ (ptr s i.content nth = 0 ∧
    ∃ (b : ℕ) (s' : Store) (v : UInt32), Allocates s s' b ∧ s'.deny = s.deny.tail ∧ v.toNat = b ∧
    getDataLocked s i nth = ((b : ℤ), setPtr s' i nth v)) ∨ (ptr s i.content nth = 0 ∧ balloc s =
    (-enospc, s.refuse) ∧ ∃ v : UInt32, v.toNat = 2 ^ 32 - 28 ∧ getDataLocked s i nth =
    (-enospc, setPtr s.refuse i nth v)) := by
  by_cases hp : ptr s i.content nth = 0
  · have hget := getDataLocked_of_unmapped hn hp
    rcases balloc_cases wf with ⟨b, s', hb, hdeny, halloc⟩ | ⟨hb, -⟩
    · right; left
      have hlt : (b : ℤ) < 2 ^ 31 := by
        have hhi := halloc.hi
        have hint := wf.blkno
        omega
      have hval := toNat_toU32 (b : ℤ)
      rw [hb, asInt32_toU32 (by omega) hlt] at hget
      exact ⟨hp, b, s', toU32 b, halloc, hdeny, by omega, hget⟩
    · right; right
      rw [hb] at hget
      exact ⟨hp, hb, toU32 (-enospc), by decide, hget⟩
  · exact Or.inl ⟨hp, getDataLocked_of_mapped hn hp⟩

theorem getDataLocked_inode (s : Store) (i : Inode) (nth : ℕ) : ∃ p,
    (getDataLocked s i nth).2.2 = { i with content := { i.content with dirblkno := p } } := by
  by_cases hn : nth < 1036
  · by_cases hp : ptr s i.content nth = 0
    · rw [getDataLocked_of_unmapped hn hp]
      exact setPtr_inode ..
    · rw [getDataLocked_of_mapped hn hp]
      exact ⟨i.content.dirblkno, rfl⟩
  · rw [getDataLocked_of_ge hn]
    exact ⟨i.content.dirblkno, rfl⟩

end Data

def itabBlk (sb : FsMeta) (ino : ℕ) : ℕ := sb.itabStart + ino / 64

theorem itabBlk_lt {sb : FsMeta} {ino : ℕ} (h : ino < nbInodes sb) :
    itabBlk sb ino < sb.itabStart + sb.nbItab := by
  have hdiv : ino / 64 < sb.nbItab := by
    simp only [nbInodes, inodesPerBlk, fsBlkSize, sizeofDinode] at h
    omega
  unfold itabBlk
  omega

theorem getItabBlkno_of_lt {sb : FsMeta} {ino : ℕ} (h : ino < nbInodes sb) :
    getItabBlkno sb ino = itabBlk sb ino := by
  have hlt := itabBlk_lt h
  unfold itabBlk at hlt
  exact if_neg (by simp only [inodesPerBlk, fsBlkSize, sizeofDinode, Nat.reduceDiv]; omega)

theorem getItabBlkno_of_ge {sb : FsMeta} {ino : ℕ} (h : nbInodes sb ≤ ino) :
    getItabBlkno sb ino = -einval := by
  simp only [nbInodes, inodesPerBlk, fsBlkSize, sizeofDinode, Nat.reduceDiv] at h
  exact if_pos (by simp only [inodesPerBlk, fsBlkSize, sizeofDinode, Nat.reduceDiv]; omega)

theorem markDirtyLocked_of_lt {s : Store} {i : Inode} (h : i.ino < nbInodes s.sb) :
    markDirtyLocked s i = (0, s.setBlk (itabBlk s.sb i.ino)
      (splice (s.blk (itabBlk s.sb i.ino)) (64 * (i.ino % 64)) 64 i.content.bytes)) := by
  rw [markDirtyLocked, getItabBlkno_of_lt h, if_neg (by omega)]
  rfl

theorem markDirtyLocked_of_ge {s : Store} {i : Inode} (h : nbInodes s.sb ≤ i.ino) :
    markDirtyLocked s i = (-einval, s) := by
  rw [markDirtyLocked, getItabBlkno_of_ge h]
  rfl

theorem markDirtyLocked_refused (s : Store) (i : Inode) : (markDirtyLocked s i).2.refused = s.refused := by
  unfold markDirtyLocked
  dsimp only
  split_ifs
  · rfl
  · rfl

theorem writeLoop_rule {copyin : Copyin} {count : ℕ} {P : Cursor → Prop}
    {Q : ℤ → Cursor → Prop}
    (hfail : ∀ c : Cursor, P c → c.done < count → let d := getDataLocked c.store c.inode (c.offset / 4096)
      d.1 < 0 → Q d.1 { c with store := d.2.1, inode := d.2.2 })
    (hfault : ∀ (c : Cursor) (e : ℤ), P c → c.done < count →
      copyin c.done (turnSize count c.offset c.done) = .error e →
      let d := getDataLocked c.store c.inode (c.offset / 4096)
      0 ≤ d.1 → Q e { c with store := d.2.1, inode := d.2.2 })
    (hturn : ∀ (c : Cursor) (buf : Bytes), P c → c.done < count →
      copyin c.done (turnSize count c.offset c.done) = .ok buf →
      let d := getDataLocked c.store c.inode (c.offset / 4096)
      0 ≤ d.1 → P
        { store := d.2.1.setBlk d.1.toNat
            (splice (d.2.1.blk d.1.toNat) (c.offset % 4096) (turnSize count c.offset c.done) buf)
          inode := d.2.2
          offset := (c.offset + turnSize count c.offset c.done) % 2 ^ 32
          done := c.done + turnSize count c.offset c.done })
    (hexit : ∀ c : Cursor, P c → count ≤ c.done → Q 0 c) (c : Cursor) (hc : P c) :
    Q (writeLoop copyin count c).1 (writeLoop copyin count c).2 := by
  fun_induction writeLoop copyin count c with
  | case1 c h d hneg => exact hfail c hc h hneg
  | case2 c h m d hpos e he => exact hfault c e hc h he (not_lt.mp hpos)
  | case3 c h blkOff m d hpos buf hbuf dblk ih =>
    exact ih (hturn c buf hc h hbuf (not_lt.mp hpos))
  | case4 c h => exact hexit c hc (by omega)

theorem readLoop_rule {σ : Type} {copyout : Copyout σ} {count : ℕ} {P : Cursor → σ → Prop}
    {Q : ℤ → Cursor → σ → Prop}
    (hfail : ∀ (c : Cursor) (dst : σ), P c dst → c.done < count →
      let d := getDataLocked c.store c.inode (c.offset / 4096)
      d.1 < 0 → Q d.1 { c with store := d.2.1, inode := d.2.2 } dst)
    (hturn : ∀ (c : Cursor) (dst : σ), P c dst → c.done < count →
      let d := getDataLocked c.store c.inode (c.offset / 4096)
      let o := copyout dst c.done (turnSize count c.offset c.done)
        fun k => d.2.1.blk d.1.toNat (c.offset % 4096 + k)
      0 ≤ d.1 →
        (o.1 < 0 → Q o.1 { c with store := d.2.1, inode := d.2.2 } o.2) ∧
        (0 ≤ o.1 → P
          { store := d.2.1
            inode := d.2.2
            offset := (c.offset + turnSize count c.offset c.done) % 2 ^ 32
            done := c.done + turnSize count c.offset c.done } o.2))
    (hexit : ∀ (c : Cursor) (dst : σ), P c dst → count ≤ c.done → Q 0 c dst)
    (c : Cursor) (dst : σ) (hc : P c dst) :
    Q (readLoop copyout count c dst).1 (readLoop copyout count c dst).2.1
      (readLoop copyout count c dst).2.2 := by
  fun_induction readLoop copyout count c dst with
  | case1 c dst h d hneg => exact hfail c dst hc h hneg
  | case2 c dst h blkOff m d hpos o hneg => exact (hturn c dst hc h (not_lt.mp hpos)).1 hneg
  | case3 c dst h blkOff m d hpos o hok ih =>
    exact ih ((hturn c dst hc h (not_lt.mp hpos)).2 (not_lt.mp hok))
  | case4 c dst h => exact hexit c dst hc (by omega)

section LoopInode

variable {i : Inode}

theorem getDataLocked_inode_trans {s : Store} {i' : Inode} {n : ℕ}
    (h : ∃ p, i' = { i with content := { i.content with dirblkno := p } }) :
    ∃ p, (getDataLocked s i' n).2.2 = { i with content := { i.content with dirblkno := p } } := by
  obtain ⟨p, hp⟩ := h
  obtain ⟨q, hq⟩ := getDataLocked_inode s i' n
  exact ⟨q, by rw [hq, hp]⟩

theorem writeLoop_inode (s : Store) (i : Inode) (copyin : Copyin) (count offset done : ℕ) :
    ∃ p, (writeLoop copyin count ⟨s, i, offset, done⟩).2.inode =
      { i with content := { i.content with dirblkno := p } } := by
  refine writeLoop_rule
    (P := fun c => ∃ p, c.inode = { i with content := { i.content with dirblkno := p } })
    (Q := fun _ c => ∃ p, c.inode = { i with content := { i.content with dirblkno := p } })
    ?_ ?_ ?_ ?_ ⟨s, i, offset, done⟩ ⟨i.content.dirblkno, rfl⟩
  · exact fun c hc _ _ => getDataLocked_inode_trans hc
  · exact fun c _ hc _ _ _ => getDataLocked_inode_trans hc
  · exact fun c _ hc _ _ _ => getDataLocked_inode_trans hc
  · exact fun c hc _ => hc

theorem readLoop_inode {σ : Type} (s : Store) (i : Inode) (copyout : Copyout σ)
    (count offset done : ℕ) (dst : σ) :
    ∃ p, (readLoop copyout count ⟨s, i, offset, done⟩ dst).2.1.inode =
      { i with content := { i.content with dirblkno := p } } := by
  refine readLoop_rule
    (P := fun c _ => ∃ p, c.inode = { i with content := { i.content with dirblkno := p } })
    (Q := fun _ c _ => ∃ p, c.inode = { i with content := { i.content with dirblkno := p } })
    ?_ ?_ ?_ ⟨s, i, offset, done⟩ dst ⟨i.content.dirblkno, rfl⟩
  · exact fun c _ hc _ _ => getDataLocked_inode_trans hc
  · exact fun c _ hc _ _ =>
      ⟨fun _ => getDataLocked_inode_trans hc, fun _ => getDataLocked_inode_trans hc⟩
  · exact fun c _ hc _ => hc

theorem inodeRead_inode {σ : Type} (s : Store) (i : Inode) (copyout : Copyout σ) (dst : σ)
    (offset count : ℕ) : ∃ p, (inodeRead s i copyout dst offset count).2.2.2 =
      { i with content := { i.content with dirblkno := p } } := by
  unfold inodeRead
  split_ifs
  · exact ⟨i.content.dirblkno, rfl⟩
  · exact readLoop_inode ..

end LoopInode

/-- The first `len` bytes of a file are mapped and hold `f`. -/
def Holds (s : Store) (d : Dinode) (len : ℕ) (f : Bytes) : Prop :=
  ∀ k < len, 0 < ptr s d (k / 4096) ∧ ptr s d (k / 4096) < 2 ^ 31 ∧
    s.blk (ptr s d (k / 4096)) (k % 4096) = f k

theorem turnSize_le (count offset done : ℕ) : turnSize count offset done ≤ count - done ∧
    offset % 4096 + turnSize count offset done ≤ 4096 := by
  have hmod : offset % 4096 < 4096 := Nat.mod_lt _ (by norm_num)
  simp only [turnSize, fsBlkSize]
  omega

theorem readLoop_turn {s s' : Store} {i i' : Inode} {count offset done p : ℕ} {dst : Bytes}
    (h : done < count) (hget : getDataLocked s i (offset / 4096) = ((p : ℤ), s', i')) :
    readLoop kernelDst count ⟨s, i, offset, done⟩ dst = readLoop kernelDst count ⟨s', i',
    (offset + turnSize count offset done) % 2 ^ 32,
    done + turnSize count offset done⟩ (splice dst done (turnSize count offset done) fun k =>
    s'.blk p (offset % 4096 + k)) := by
  have hget' : getDataLocked s i (offset / fsBlkSize) = ((p : ℤ), s', i') := hget
  rw [readLoop, dif_pos h]
  simp [hget', kernelDst]

theorem readLoop_of_holds {s : Store} {i : Inode} {f : Bytes} {offset count len : ℕ}
    (hf : Holds s i.content len f) (hmax : len ≤ 1036 * 4096) (hlen : offset + count ≤ len) (done : ℕ)
    (hdone : done ≤ count) (dst : Bytes) : readLoop kernelDst count ⟨s, i, offset + done, done⟩ dst = (0,
    ⟨s, i, offset + count, count⟩, splice dst done (count - done) (fun k => f (offset + done + k))) := by
  induction hn : count - done using Nat.strong_induction_on generalizing done dst with
  | _ n ih =>
  subst hn
  by_cases hlt : done < count
  · obtain ⟨hm, hblk⟩ := turnSize_le count (offset + done) done
    have hm0 : 0 < turnSize count (offset + done) done := turnSize_pos hlt
    obtain ⟨hpos, hhi, -⟩ := hf (offset + done) (by omega)
    have hget : getDataLocked s i ((offset + done) / 4096) =
        ((ptr s i.content ((offset + done) / 4096) : ℤ), s, i) := by
      rw [← asInt32_of_lt hhi]
      exact getDataLocked_of_mapped (by omega) (by omega)
    rw [readLoop_turn hlt hget]
    generalize turnSize count (offset + done) done = m at *
    have hoff : (offset + done + m) % 2 ^ 32 = offset + (done + m) := by omega
    have hchunk : ∀ k < m, s.blk (ptr s i.content ((offset + done) / 4096))
        ((offset + done) % 4096 + k) = f (offset + done + k) := by
      intro k hk
      have hdiv : (offset + done + k) / 4096 = (offset + done) / 4096 := by omega
      have hmod : (offset + done + k) % 4096 = (offset + done) % 4096 + k := by omega
      obtain ⟨-, -, hbyte⟩ := hf (offset + done + k) (by omega)
      rwa [hdiv, hmod] at hbyte
    rw [hoff, splice_congr hchunk, ih (count - (done + m)) (by omega) (done + m) (by omega) _ rfl]
    have hrest : (fun k => f (offset + (done + m) + k)) =
        fun k => (fun k => f (offset + done + k)) (m + k) := by
      funext k
      congr 1
      omega
    rw [hrest, splice_splice, show m + (count - (done + m)) = count - done by omega]
  · have hend : done = count := by omega
    subst hend
    rw [readLoop, dif_neg (by simp)]
    simp

theorem inodeRead_of_holds {s : Store} {i : Inode} {f dst : Bytes} {offset count : ℕ}
    (hf : Holds s i.content i.content.size.toNat f) (hmax : i.content.size.toNat ≤ 1036 * 4096)
    (hlen : offset + count ≤ i.content.size.toNat) : inodeRead s i kernelDst dst offset count =
    ((count : ℤ), splice dst 0 count (fun k => f (offset + k)), s, i) := by
  have hchk : ¬ i.content.size.toNat < (offset + count) % 2 ^ 64 := by omega
  have hloop := readLoop_of_holds hf hmax hlen 0 (Nat.zero_le count) dst
  simp only [Nat.add_zero, Nat.sub_zero] at hloop
  rw [inodeRead, if_neg hchk, hloop]
  by_cases h0 : count = 0
  · simp [h0]
  · simp [h0]

end RvMiniOs.Fs
