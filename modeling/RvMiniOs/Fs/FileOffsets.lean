import RvMiniOs.Fs.Files
import RvMiniOs.Fs.Mkfs
import RvMiniOs.Fs.Operations

/-!
# Offsets of open files

`file_read` and `file_write` on a regular file, for every offset that `file_seek` can
set and every count. `logged` records what a read copies, so that each byte can be
compared with the one at its place in the file. Both calls are right exactly inside the
bounds: beyond them the offset is cut to 32 bits, the sum with the count to 64 bits, and
the error of the inode layer is not passed on.
-/

namespace RvMiniOs.Fs

open Lib List Option Filesys

/-- The copies of `copyout`, with every byte that was copied and its place in the
request. -/
def logged {σ : Type} (copyout : Copyout σ) : Copyout (σ × List (ℕ × UInt8)) := fun mem done m buf =>
  let o := copyout mem.1 done m buf
  (o.1, o.2, if o.1 < 0 then mem.2 else mem.2 ++ (List.range m).map fun k => (done + k, buf k))

/-- A regular file with the bytes `content` that is open for reading. -/
structure OpenForReading (s : Files) (f : ℕ) (content : Bytes) : Prop where
  readable : (s.ftable f).mode &&& oR ≠ 0
  dev : (s.ftable f).dev = none
  off_nonneg : 0 ≤ (s.ftable f).off
  off_lt : (s.ftable f).off < 2 ^ 63
  unlocked : (s.fs.islots (s.ftable f).i).locked = false
  ino : (s.fs.islots (s.ftable f).i).ino < nbInodes s.fs.store.sb
  type : (effective s.fs (s.ftable f).i).type = .file
  map : FileMap s.fs.store (lockedSlot s.fs (s.ftable f).i) (effective s.fs (s.ftable f).i).size.toNat content

/-- A regular file with the bytes `content` that is open for reading and writing. -/
structure OpenRegular (s : Files) (f : ℕ) (content : Bytes) : Prop extends OpenForReading s f content where
  writable : (s.ftable f).mode &&& oW ≠ 0

def Files.off (s : Files) (f : ℕ) : ℕ := (s.ftable f).off.toNat

def Files.size (s : Files) (f : ℕ) : ℕ := (effective s.fs (s.ftable f).i).size.toNat

def NoBlock (s s' : Files) : Prop := ∀ b, dataBit s'.fs.store b = dataBit s.fs.store b

/-- `file_read` of `count` bytes: inside the file the bytes of their places, outside
`-EINVAL`, and never a new block. -/
def ReadRight (s : Files) (f : ℕ) (content : Bytes) (count : ℕ) : Prop :=
  ∀ (σ : Type) (copyout : Copyout σ) (dst : σ) (dev : ℤ), ∃ res mem log s',
    fileRead s f (logged copyout) (dst, []) count dev = some (res, (mem, log), s') ∧ NoBlock s s' ∧
    (s.off f + count ≤ s.size f → (∀ p ∈ log, p.2 = content (s.off f + p.1)) ∧
      ((∀ mem done m buf, 0 ≤ (copyout mem done m buf).1) → res = count)) ∧
    (s.size f < s.off f + count → res = -einval ∧ log = [])

structure Untouched (s s' : Files) (f : ℕ) : Prop where
  file : s'.ftable f = s.ftable f
  inode : effective s'.fs (s.ftable f).i = effective s.fs (s.ftable f).i
  store : s'.fs.store = s.fs.store

/-- `file_write` of `count` bytes of `src`: outside the bounds an error and no effect,
inside some first `n` bytes at their places and nothing else. -/
def WriteRight (s : Files) (f : ℕ) (content : Bytes) (count : ℕ) : Prop :=
  ∀ (copyin : Copyin) (src : Bytes), copyin.Reads src → ∀ dev : ℤ, ∃ res s',
    fileWrite s f copyin count dev = some (res, s') ∧
    (s.size f < s.off f → res = -einval ∧ Untouched s s' f) ∧
    (s.off f ≤ s.size f → fsMaxFileSize < s.off f + count → res = -efbig ∧ Untouched s s' f) ∧
    (s.off f ≤ s.size f → s.off f + count ≤ fsMaxFileSize → ∃ n ≤ count, s'.size f = max (s.size f) (s.off f + n) ∧
      FileMap s'.fs.store (lockedSlot s'.fs (s.ftable f).i) (s'.size f) (splice content (s.off f) n src))

section Calls

variable {s : Files} {f count : ℕ} {content : Bytes}

theorem inodeLock_ok {fs : Filesys} {k : Fin inodeCacheSize} (hlock : (fs.islots k).locked = false)
    (hino : (fs.islots k).ino < nbInodes fs.store.sb) :
    inodeLock fs k = some (0, fs.setSlot k (lockedSlot fs k)) := by
  by_cases hvalid : (fs.islots k).valid = true
  · rw [inodeLock_of_valid hlock hvalid]
    simp [lockedSlot, effective, hvalid]
  · rw [Bool.not_eq_true] at hvalid
    rw [inodeLock_of_invalid hlock hvalid hino]
    simp [lockedSlot, effective, hvalid]

theorem fileRead_regular (h : OpenForReading s f content) {σ : Type} (copyout : Copyout σ) (dst : σ) (count : ℕ)
    (dev : ℤ) :
    let k := (s.ftable f).i
    let r := inodeRead s.fs.store (lockedSlot s.fs k) copyout dst (s.ftable f).offset count
    ∃ s', fileRead s f copyout dst count dev = some (max 0 r.1, r.2.1, s') ∧
      s'.fs = inodeUnlock ({ s.fs.setSlot k (lockedSlot s.fs k) with store := r.2.2.1 }.setSlot k r.2.2.2) k ∧
      s'.ftable = Function.update s.ftable f { s.ftable f with off := (s.ftable f).off + max 0 r.1 } := by
  unfold fileRead fileReader
  rw [if_neg h.readable, h.dev]
  dsimp only [bind_eq_bind]
  rw [if_neg (by decide), inodeLock_ok h.unlocked h.ino]
  dsimp only [bind_some]
  rw [if_neg (lt_irrefl 0), setSlot_self, setSlot_store]
  generalize inodeRead s.fs.store _ _ _ _ _ = r
  split
  · rename_i hneg
    rw [max_eq_left hneg.le, add_zero, Function.update_eq_self]
    exact ⟨_, rfl, rfl, rfl⟩
  · rename_i hpos
    rw [max_eq_right (not_lt.mp hpos)]
    exact ⟨_, rfl, rfl, rfl⟩

theorem readLoop_logged {σ : Type} {st : Store} {i : Inode} {len offset : ℕ} (copyout : Copyout σ) (dst : σ)
    (hholds : Holds st i.content len content) (hmax : len ≤ 1036 * 4096) (hin : offset + count ≤ len) :
    let r := readLoop (logged copyout) count ⟨st, i, offset, 0⟩ (dst, [])
    r.2.1.store = st ∧ (∀ p ∈ r.2.2.2, p.2 = content (offset + p.1)) ∧
      ((∀ mem done m buf, 0 ≤ (copyout mem done m buf).1) → r.1 = 0 ∧ r.2.1.done = count) := by
  -- between two turns the cursor is where the bytes copied so far end
  refine readLoop_rule
    (P := fun (c : Cursor) (mem : σ × List (ℕ × UInt8)) => c.store = st ∧ c.inode = i ∧ c.offset = offset + c.done ∧ c.done ≤ count ∧
      ∀ p ∈ mem.2, p.2 = content (offset + p.1))
    (Q := fun res (c : Cursor) (mem : σ × List (ℕ × UInt8)) => c.store = st ∧
      (∀ p ∈ mem.2, p.2 = content (offset + p.1)) ∧
      ((∀ mem done m buf, 0 ≤ (copyout mem done m buf).1) → res = 0 ∧ c.done = count))
    ?_ ?_ ?_ ⟨st, i, offset, 0⟩ (dst, []) ⟨rfl, rfl, rfl, Nat.zero_le _, fun p hp => absurd hp not_mem_nil⟩
  · rintro c mem ⟨rfl, rfl, hoff, -, -⟩ hlt d hneg
    obtain ⟨hpos, hsmall, -⟩ := hholds c.offset (by omega)
    have hget : d = (asInt32 (ptr c.store c.inode.content (c.offset / 4096)), c.store, c.inode) :=
      getDataLocked_of_mapped (by omega) hpos.ne'
    rw [hget, asInt32_of_lt hsmall] at hneg
    exact absurd hneg (by dsimp only; omega)
  · rintro c mem ⟨rfl, rfl, hoff, hdone, hlog⟩ hlt d o hd
    obtain ⟨hpos, hsmall, -⟩ := hholds c.offset (by omega)
    have hget : d = ((ptr c.store c.inode.content (c.offset / 4096) : ℤ), c.store, c.inode) := by
      rw [← asInt32_of_lt hsmall]
      exact getDataLocked_of_mapped (by omega) hpos.ne'
    obtain ⟨hm, hblk⟩ := turnSize_le count c.offset c.done
    have hlog' : ∀ p ∈ o.2.2, p.2 = content (offset + p.1) := by
      intro p hp
      simp only [o, logged] at hp
      split at hp
      · exact hlog p hp
      · rcases mem_append.mp hp with hp | hp
        · exact hlog p hp
        · obtain ⟨k, hk, rfl⟩ := mem_map.mp hp
          have hk := mem_range.mp hk
          have hdiv : (c.offset + k) / 4096 = c.offset / 4096 := by omega
          have hmod : (c.offset + k) % 4096 = c.offset % 4096 + k := by omega
          obtain ⟨-, -, hbyte⟩ := hholds (c.offset + k) (by omega)
          rw [hdiv, hmod] at hbyte
          rw [hget]
          dsimp only
          rw [Int.toNat_natCast, hbyte, show offset + (c.done + k) = c.offset + k by omega]
    have hstore : d.2.1 = c.store ∧ d.2.2 = c.inode := by
      rw [hget]
      exact ⟨rfl, rfl⟩
    refine ⟨fun hneg => ⟨hstore.1, hlog', fun hall => absurd (hall mem.1 c.done _ _) (not_le.mpr hneg)⟩, fun _ =>
      ⟨hstore.1, hstore.2, ?_, by dsimp only; omega, hlog'⟩⟩
    dsimp only
    omega
  · rintro c mem ⟨rfl, rfl, -, hdone, hlog⟩ hge
    exact ⟨rfl, hlog, fun _ => ⟨rfl, le_antisymm hdone hge⟩⟩

theorem OpenForReading.offset_eq (h : OpenForReading s f content) (hoff : s.off f < 2 ^ 32) :
    (s.ftable f).offset = s.off f := by
  have := h.off_nonneg
  unfold File.offset Files.off at *
  omega

theorem OpenRegular.read (h : OpenRegular s f content) (hin : s.off f + count ≤ s.size f) :
    ReadRight s f content count := by
  intro σ copyout dst dev
  have hlen := h.map.len_le
  have hsize : s.size f = (lockedSlot s.fs (s.ftable f).i).content.size.toNat := rfl
  obtain ⟨s', hread, hfs, -⟩ := fileRead_regular h.toOpenForReading (logged copyout) (dst, []) count dev
  have hstore : s'.fs.store = (inodeRead s.fs.store (lockedSlot s.fs (s.ftable f).i) (logged copyout) (dst, [])
      (s.ftable f).offset count).2.2.1 := by
    rw [hfs]
    rfl
  rw [h.offset_eq (by unfold Files.size at hin; omega)] at hread hstore
  have hchk : ¬ (lockedSlot s.fs (s.ftable f).i).content.size.toNat < (s.off f + count) % 2 ^ 64 := by
    unfold Files.size at hin
    rw [← hsize]
    unfold Files.size
    omega
  obtain ⟨hst, hlog, hfull⟩ := readLoop_logged copyout dst h.map.holds hlen hin
  rw [inodeRead, if_neg hchk] at hread hstore
  dsimp only at hread hstore
  generalize readLoop (logged copyout) count _ _ = r at hread hstore hst hlog hfull
  obtain ⟨e, c, mem, log⟩ := r
  refine ⟨_, mem, log, s', hread, fun b => ?_, fun _ => ⟨hlog, fun hall => ?_⟩, fun hout => absurd hin (not_le.mpr hout)⟩
  · rw [hstore, hst]
  · obtain ⟨rfl, hdone⟩ := hfull hall
    dsimp only at hdone ⊢
    rw [hdone]
    split_ifs <;> omega

theorem balloc_sb (st : Store) : (balloc st).2.sb = st.sb := by
  unfold balloc
  split
  · rfl
  · dsimp only
    have hsb : (bbmAlloc st).2.sb = st.sb := by
      rcases bmAlloc_spec st (dataRegion st.sb) with ⟨hfail, -⟩ | ⟨k, -, -, -, halloc⟩
      · rw [bbmAlloc, hfail]
      · rw [bbmAlloc, halloc]
        rfl
    split
    · exact hsb
    · exact hsb

theorem getDataLocked_sb (st : Store) (i : Inode) (n : ℕ) : (getDataLocked st i n).2.1.sb = st.sb := by
  by_cases hn : n < 1036
  · by_cases hp : ptr st i.content n = 0
    · rw [getDataLocked_of_unmapped hn hp, setPtr_sb, balloc_sb]
    · rw [getDataLocked_of_mapped hn hp]
  · rw [getDataLocked_of_ge hn]

theorem markDirtyLocked_sb (st : Store) (i : Inode) : (markDirtyLocked st i).2.sb = st.sb := by
  unfold markDirtyLocked
  dsimp only
  split <;> rfl

theorem inodeWrite_kept (st : Store) (i : Inode) (copyin : Copyin) (offset count : ℕ) :
    (inodeWrite st i copyin offset count).2.1.sb = st.sb ∧
      ∃ d, (inodeWrite st i copyin offset count).2.2 = { i with content := d } := by
  obtain ⟨c, ⟨⟨z, hz⟩, hstore⟩, hc⟩ := inodeWrite_leaves st i copyin offset count
  have hcursor : c.store.sb = st.sb ∧ ∃ d, c.inode = { i with content := d } := by
    rcases hc with rfl | ⟨-, -, rfl⟩
    · exact ⟨rfl, i.content, rfl⟩
    · obtain ⟨p, hp⟩ := writeLoop_inode st i copyin count offset 0
      refine ⟨?_, _, hp⟩
      refine writeLoop_rule (P := fun c => c.store.sb = st.sb) (Q := fun _ c => c.store.sb = st.sb) ?_ ?_ ?_ ?_
        ⟨st, i, offset, 0⟩ rfl
      · exact fun c hc _ _ => (getDataLocked_sb ..).trans hc
      · exact fun c _ hc _ _ _ => (getDataLocked_sb ..).trans hc
      · exact fun c _ hc _ _ _ => (getDataLocked_sb ..).trans hc
      · exact fun c hc _ => hc
  obtain ⟨hsb, d, hd⟩ := hcursor
  refine ⟨?_, { c.inode.content with size := z }, ?_⟩
  · rcases hstore with heq | heq
    · rw [heq, hsb]
    · rw [heq, markDirtyLocked_sb, hsb]
  · rw [hz, hd]

theorem fileWrite_regular (h : OpenRegular s f content) (copyin : Copyin) (count : ℕ) (dev : ℤ) :
    let w := inodeWrite s.fs.store (lockedSlot s.fs (s.ftable f).i) copyin (s.ftable f).offset count
    ∃ s', fileWrite s f copyin count dev = some (max 0 w.1, s') ∧ (s'.ftable f).i = (s.ftable f).i ∧
      (s'.fs.store = w.2.1 ∨ s'.fs.store = (markDirtyLocked w.2.1 w.2.2).2) ∧
      s'.fs.islots (s.ftable f).i = { w.2.2 with locked := false } := by
  obtain ⟨hsb, d, hinode⟩ := inodeWrite_kept s.fs.store (lockedSlot s.fs (s.ftable f).i) copyin
    (s.ftable f).offset count
  unfold fileWrite fileWriter
  rw [if_neg h.writable, h.dev]
  dsimp only [bind_eq_bind]
  rw [if_neg (by decide), inodeLock_ok h.unlocked h.ino]
  dsimp only [bind_some]
  rw [if_neg (lt_irrefl 0), setSlot_self, setSlot_store]
  generalize inodeWrite s.fs.store _ _ _ _ = w at *
  split
  · rename_i hneg
    rw [max_eq_left hneg.le]
    refine ⟨_, rfl, rfl, .inl rfl, ?_⟩
    simp [inodeUnlock]
  · rename_i hpos
    have hino : w.2.2.ino < nbInodes w.2.1.sb := by
      rw [hsb, hinode]
      exact h.ino
    have hlocked : w.2.2.locked = true := by
      rw [hinode]
      rfl
    rw [max_eq_right (not_lt.mp hpos), inodeMarkDirty, setSlot_self, if_pos hlocked]
    dsimp only [bind_some]
    have hzero : (markDirtyLocked w.2.1 w.2.2).1 = 0 := by
      rw [markDirtyLocked_of_lt hino]
    rw [setSlot_store, hzero, if_neg (lt_irrefl 0)]
    refine ⟨_, rfl, ?_, .inr rfl, ?_⟩
    · simp
    · simp [inodeUnlock]

theorem OpenRegular.write (h : OpenRegular s f content) (hoff : s.off f ≤ s.size f)
    (hmax : s.off f + count ≤ fsMaxFileSize) : WriteRight s f content count := by
  intro copyin src hcopy dev
  have hmax' : s.off f + count ≤ 1036 * 4096 := hmax
  obtain ⟨s', hwrite, hfile, hstore, hslot⟩ := fileWrite_regular h copyin count dev
  rw [h.offset_eq (by omega)] at hwrite hstore hslot
  obtain ⟨n, hn, hmap, -, hsize, -⟩ := h.map.inodeWrite hcopy rfl hoff hmax'
  obtain ⟨-, d, hinode⟩ := inodeWrite_kept s.fs.store (lockedSlot s.fs (s.ftable f).i) copyin (s.off f) count
  generalize inodeWrite s.fs.store _ _ _ _ = w at *
  have heff : effective s'.fs (s.ftable f).i = w.2.2.content := by
    rw [effective, hslot, hinode]
    rfl
  have hsize' : s'.size f = max (s.size f) (s.off f + n) := by
    rw [Files.size, hfile, heff]
    exact hsize
  refine ⟨_, s', hwrite, fun hout => absurd hoff (not_le.mpr hout), fun _ hout => absurd hmax (not_le.mpr hout),
    fun _ _ => ⟨n, hn, hsize', ?_⟩⟩
  rw [hsize']
  have hmap' : FileMap s'.fs.store w.2.2 (max (s.size f) (s.off f + n)) (splice content (s.off f) n src) := by
    rcases hstore with heq | heq
    · rw [heq]
      exact hmap
    · rw [heq]
      exact (hmap.grow w.2.2.content.size).1
  refine hmap'.congr_inode ?_ ?_
  · rw [lockedSlot, heff]
  · rw [lockedSlot, heff]

theorem max_zero_ne (n : ℤ) : max 0 n ≠ -einval ∧ max 0 n ≠ -efbig := by
  have hpos := le_max_left 0 n
  have heinval : (-einval : ℤ) < 0 := by decide
  have hefbig : (-efbig : ℤ) < 0 := by decide
  omega

theorem OpenRegular.read_inside (h : OpenRegular s f content) (hright : ReadRight s f content count) :
    s.off f + count ≤ s.size f := by
  by_contra hout
  obtain ⟨res, mem, log, s', hread, -, -, herr⟩ := hright Unit (fun _ _ _ _ => (0, ())) () 0
  obtain ⟨s'', hread', -⟩ := fileRead_regular h.toOpenForReading (logged fun _ _ _ _ => (0, ())) ((), []) count 0
  rw [hread'] at hread
  have hres := (Prod.mk.inj (some.inj hread)).1
  rw [(herr (not_le.mp hout)).1] at hres
  exact (max_zero_ne _).1 hres

theorem OpenRegular.write_inside (h : OpenRegular s f content) (hright : WriteRight s f content count) :
    s.off f ≤ s.size f ∧ s.off f + count ≤ fsMaxFileSize := by
  obtain ⟨res, s', hwrite, hbeyond, hbig, -⟩ := hright (kernelSrc fun _ => 0) _ (kernelSrc_reads _) 0
  obtain ⟨s'', hwrite', -⟩ := fileWrite_regular h (kernelSrc fun _ => 0) count 0
  rw [hwrite'] at hwrite
  have hres := (Prod.mk.inj (some.inj hwrite)).1
  have hoff : s.off f ≤ s.size f := by
    by_contra hout
    rw [(hbeyond (not_le.mp hout)).1] at hres
    exact (max_zero_ne _).1 hres
  refine ⟨hoff, ?_⟩
  by_contra hout
  rw [(hbig hoff (not_le.mp hout)).1] at hres
  exact (max_zero_ne _).2 hres

end Calls

/-! A file of five bytes in the first data block, open at some offset. -/

def hello : List UInt8 := [104, 101, 108, 108, 111]

def helloInode : Inode where
  refcnt := 1
  ino := 2
  locked := false
  valid := true
  content := { Dinode.zero with
    type := .file, nblink := 1, size := 5, dirblkno := Function.update (fun _ => 0) 0 11 }

def helloStore : Store :=
  .mounted superblock fun b =>
    if b = superblock.dbmStart then Function.update (fun _ => 0) 0 1
    else if b = superblock.dataStart then listBytes hello else fun _ => 0

def helloFiles (off : ℤ) : Files :=
  { Files.boot ⟨helloStore, fun _ => helloInode, List.finRange inodeCacheSize, 0⟩ with
    ftable := fun _ => ⟨0, off, oR ||| oW, none⟩
    refcnt := fun _ => 1 }

theorem hello_ptr (n : ℕ) (hn : n < 1036) : ptr helloStore helloInode.content n = if n = 0 then 11 else 0 := by
  unfold ptr
  split
  · rename_i hdir
    interval_cases n <;> rfl
  · rw [if_neg (by simp only [fsInodeDirDblkno] at *; omega)]
    rfl

theorem hello_map : FileMap helloStore helloInode 5 (listBytes hello) := by
  have htaken : Taken helloStore 11 := ⟨by decide, by decide, by decide +kernel⟩
  refine ⟨superblock_wellFormed, .inl rfl, fun n hn h0 => h0, fun n hn => ?_, fun m hm n hn heq ht => ?_, fun k hk => ?_,
    by norm_num, fun _ n hn => ?_⟩
  · rw [hello_ptr n hn]
    split
    · exact .inr (.inr htaken)
    · exact .inl rfl
  · have hlo := ht.1
    rw [hello_ptr m hm] at heq hlo
    rw [hello_ptr n hn] at heq
    by_cases hz : m = 0
    · rw [if_pos hz] at heq
      split at heq
      · omega
      · cases heq
    · rw [if_neg hz] at hlo
      exact absurd hlo (by decide)
  · rw [Nat.div_eq_of_lt (by omega), hello_ptr 0 (by norm_num)]
    exact ⟨by decide, by decide, by rw [Nat.mod_eq_of_lt (by omega)]; rfl⟩
  · rw [hello_ptr n hn]
    split <;> norm_num

theorem hello_open {off : ℤ} (h0 : 0 ≤ off) (hlt : off < 2 ^ 63) : OpenRegular (helloFiles off) 0 (listBytes hello) where
  readable := show (oR ||| oW) &&& oR ≠ 0 by decide
  writable := show (oR ||| oW) &&& oW ≠ 0 by decide
  dev := rfl
  off_nonneg := h0
  off_lt := hlt
  unlocked := rfl
  ino := show 2 < nbInodes superblock by decide
  type := rfl
  map := hello_map.congr_inode rfl rfl

def failsLater : Copyout Unit := fun _ done _ _ => (if done = 0 then 0 else -efault, ())

end RvMiniOs.Fs
