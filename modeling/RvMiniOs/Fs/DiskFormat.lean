import Mathlib.Data.List.TakeWhile
import RvMiniOs.Fs.Formatted

/-!
# `mkfs` and the kernel agree on the disk format

The kernel looks a host file up in the root directory that `mkfs` has written,
finds its inode and reads its bytes back. The blocks and inode numbers that the
image uses are those marked in its bitmaps, and no run of the kernel hands one of
them out again.
-/

namespace RvMiniOs.Fs

open Lib Function List Option Filesys

theorem listBytes_of_lt {a : List UInt8} {k : ℕ} (hk : k < a.length) : listBytes a k = a[k] := by
  simp [listBytes, hk]

theorem listBytes_ne_zero {a : List UInt8} (h0 : 0 ∉ a) {k : ℕ} : listBytes a k ≠ 0 ↔ k < a.length := by
  constructor
  · intro hne
    by_contra hge
    exact hne (by simp [listBytes, getElem?_eq_none (not_lt.mp hge)])
  · intro hk heq
    rw [listBytes_of_lt hk] at heq
    exact h0 (heq ▸ getElem_mem hk)

theorem strncmp_eq_zero {s1 : Bytes} {a b : List UInt8} (ha : 0 ∉ a) (hb : 0 ∉ b)
    (hlen : a.length < maxname) (hs1 : ∀ k < maxname, s1 k = listBytes a k) :
    strncmp s1 (listBytes b) maxname = 0 ↔ a = b := by
  rw [strncmp_eq_zero_iff]
  constructor
  · intro hall
    have hagree : ∀ t ≤ a.length, listBytes a t = listBytes b t := by
      intro t ht
      rw [← hs1 t (by omega)]
      apply hall t (by omega)
      intro u hu
      rw [hs1 u (by omega)]
      exact (listBytes_ne_zero ha).mpr (by omega)
    -- the terminator of the one is where that of the other is
    have hend : ¬ a.length < b.length := by
      rw [← listBytes_ne_zero hb, ← hagree _ le_rfl, listBytes_ne_zero ha]
      exact lt_irrefl _
    have hlt : ∀ t < a.length, t < b.length := by
      intro t ht
      rw [← listBytes_ne_zero hb, ← hagree t ht.le, listBytes_ne_zero ha]
      exact ht
    have hle : a.length ≤ b.length := by
      by_contra hgt
      exact lt_irrefl _ (hlt b.length (by omega))
    apply ext_getElem (by omega)
    intro t hta htb
    rw [← listBytes_of_lt hta, ← listBytes_of_lt htb]
    exact hagree t hta.le
  · rintro rfl t ht -
    exact hs1 t ht

theorem basename_not_mem (path : List UInt8) : 47 ∉ basename path := by
  intro h
  have hne := mem_takeWhile_imp (mem_reverse.mp h)
  simp at hne

theorem basename_noNul (f : HostFile) : 0 ∉ basename f.path := by
  intro h
  have hmem := mem_reverse.mp ((takeWhile_sublist _).subset (mem_reverse.mp h))
  exact f.noNul hmem

theorem strtok_single {name : List UInt8} (h47 : 47 ∉ name) (hne : name ≠ []) :
    strtok (some (47 :: name)) = (some name, none) := by
  have hall : ∀ c ∈ name, decide (c ≠ 47) = true := by
    intro c hc
    rw [decide_eq_true_eq]
    exact fun h => h47 (h ▸ hc)
  have htake : name.takeWhile (· ≠ 47) = name := takeWhile_eq_self_iff.mpr hall
  have hdrop : name.dropWhile (· ≠ 47) = [] := dropWhile_eq_nil_iff.mpr hall
  have hlast : strtok (some name) = (some name, none) := by
    rw [strtok]
    simp only [strsep, htake, hdrop]
    rw [if_neg (by simpa using hne)]
  rw [strtok]
  simp [strsep, hlast]

section Lookup

variable {files : List HostFile} {img : Bytes} {i : Inode}

/-- The buffer that `dir_lookup` reads entry `m` of the root directory to. -/
def entryBuf (img entry : Bytes) (m : ℕ) : Bytes :=
  splice entry 0 20 fun k => img (45056 + (20 * m + k))

theorem ImageOf.read_entry (h : ImageOf files img) (hi : i.content = rootDinode files.length) {m : ℕ}
    (hm : m < files.length) (entry : Bytes) : inodeRead (imgStore img) i kernelDst entry (20 * m) 20 = (20,
    entryBuf img entry m, imgStore img, i) := by
  have hsize := h.rootDinode_size
  have hent := h.entries
  have hholds : Holds (imgStore img) i.content i.content.size.toNat fun k => img (45056 + k) := by
    rw [hi, hsize]
    exact h.holds_root
  exact inodeRead_of_holds hholds (by rw [hi, hsize]; omega) (by rw [hi, hsize]; omega)

theorem ImageOf.entryBuf_name (h : ImageOf files img) {m : ℕ} (hm : m < files.length) (entry : Bytes)
    {k : ℕ} (hk : k < maxname) : entryBuf img entry m k = listBytes (basename files[m].path) k := by
  have hk' : k < 20 := hk.trans (by decide)
  rw [entryBuf, splice_inside (Nat.zero_le k) (by omega), Nat.sub_zero, ← Nat.add_assoc,
    h.entry m hm k hk', Mkfs.direntBytes, if_pos hk]

theorem ImageOf.entryBuf_inum (h : ImageOf files img) {m : ℕ} (hm : m < files.length)
    (entry : Bytes) : (getU32 (entryBuf img entry m) maxname).toNat = m + 2 := by
  have hlt : m + 2 < 256 ^ 4 := by
    have hent := h.entries
    omega
  have hword : leNat (entryBuf img entry m) 16 4 = leNat (getByte (m + 2)) 0 4 := by
    apply leNat_congr
    intro t ht
    rw [entryBuf, splice_inside (Nat.zero_le _) (by omega), Nat.sub_zero, Nat.zero_add,
      ← Nat.add_assoc, h.entry m hm (16 + t) (by omega), Mkfs.direntBytes, if_neg (by simp),
      Nat.add_sub_cancel_left]
  rw [toNat_getU32, hword, leNat_getByte, pow_zero, Nat.div_one, Nat.mod_eq_of_lt hlt]

theorem ImageOf.dirLookupFrom_turn (h : ImageOf files img) (hi : i.content = rootDinode files.length)
    {m : ℕ} (hm : m < files.length) (entry : Bytes) {name : List UInt8} (hname : 0 ∉ name) :
    dirLookupFrom (imgStore img) i name entry (20 * m) = if basename files[m].path = name then (.ok (m + 2),
    imgStore img, i) else dirLookupFrom (imgStore img) i name (entryBuf img entry m) (20 * (m + 1)) := by
  have hlt : 20 * m < i.content.size.toNat := by
    rw [hi, h.rootDinode_size]
    omega
  have hcmp : strncmp (entryBuf img entry m) (listBytes name) maxname = 0 ↔
      basename files[m].path = name :=
    strncmp_eq_zero (basename_noNul _) hname (h.name m hm) fun k hk => h.entryBuf_name hm entry hk
  rw [dirLookupFrom, dif_pos hlt]
  simp only [sizeofDirent, h.read_entry hi hm entry, h.entryBuf_inum hm entry, hcmp]
  simp [Nat.mul_add]

theorem ImageOf.dirLookupFrom_eq (h : ImageOf files img) (hi : i.content = rootDinode files.length)
    (hnames : (files.map fun f => basename f.path).Nodup) {j : ℕ} (hj : j < files.length) {m : ℕ}
    (hm : m ≤ j) (entry : Bytes) : dirLookupFrom (imgStore img) i (basename files[j].path) entry (20 * m) =
    (.ok (j + 2), imgStore img, i) := by
  induction hk : j - m generalizing m entry with
  | zero =>
    obtain rfl : m = j := by omega
    rw [h.dirLookupFrom_turn hi hj entry (basename_noNul _), if_pos rfl]
  | succ k ih =>
    have hother : basename files[m].path ≠ basename files[j].path := by
      have hne := pairwise_iff_getElem.mp hnames m j (by rw [length_map]; omega)
        (by rwa [length_map]) (by omega)
      simpa using hne
    rw [h.dirLookupFrom_turn hi (by omega) entry (basename_noNul _), if_neg hother]
    exact ih (by omega) _ (by omega)

def rootSlot (n : ℕ) (r : ℤ) (locked : Bool) : Inode := ⟨r, 1, locked, true, rootDinode n⟩

def opened (img : Bytes) (n j : ℕ) (k : Fin inodeCacheSize) : Filesys :=
  { (mounted img n).setSlot k ⟨1, j + 2, false, false, Dinode.zero⟩ with
    icache := 0 :: (mounted img n).icache.erase 0 }

theorem mounted_slot (img : Bytes) (n : ℕ) (k : Fin inodeCacheSize) : (mounted img n).islots k = if k =
    0 then rootSlot n 1 false else ⟨0, 2 ^ 32 - 1, false, false, Dinode.zero⟩ := by
  unfold mounted
  split_ifs with hk
  · rw [hk, setSlot_self]
    rfl
  · rw [setSlot_ne _ hk]
    rfl

theorem inodeGet_root (img : Bytes) (n : ℕ) : inodeGet (mounted img n) 1 =
    some (0, { (mounted img n).setSlot 0 (rootSlot n 2 false) with
      icache := 0 :: (mounted img n).icache.erase 0 }) := by
  have hreq : cacheRequestLocked (mounted img n) 1 = some 0 := by
    rcases h : cacheRequestLocked (mounted img n) 1 with _ | k
    · have hne := cacheRequestLocked_eq_none h (k := 0) (by simp [mounted, inodeInit, Filesys.setSlot])
      rw [mounted_slot, if_pos rfl] at hne
      exact absurd rfl hne
    · have hino := cacheRequestLocked_eq_some h
      rw [mounted_slot] at hino
      split_ifs at hino with hk
      · rw [hk]
      · cases hino
  rw [inodeGet_hit hreq, mounted_slot, if_pos rfl]
  rfl

/-- The directory with two references and its lock held, as the scan runs on it. -/
def scanned (img : Bytes) (n : ℕ) : Filesys :=
  { (mounted img n).setSlot 0 (rootSlot n 2 true) with
    icache := 0 :: (mounted img n).icache.erase 0 }

theorem scanned_slot (img : Bytes) (n : ℕ) (k : Fin inodeCacheSize) : (scanned img n).islots k = if k =
    0 then rootSlot n 2 true else ⟨0, 2 ^ 32 - 1, false, false, Dinode.zero⟩ := by
  unfold scanned
  split_ifs with hk
  · rw [hk]
    exact setSlot_self (mounted img n) 0 _
  · have hslot := mounted_slot img n k
    rw [if_neg hk] at hslot
    rw [← hslot]
    exact setSlot_ne _ hk

theorem inodeGet_scanned (img : Bytes) (n : ℕ) {ino : ℕ} (h1 : ino ≠ 1) (hmax : ino ≠ 2 ^ 32 - 1) :
    ∃ k ≠ 0, inodeGet (scanned img n) ino =
      some (k, (scanned img n).setSlot k ⟨1, ino, false, false, Dinode.zero⟩) := by
  have hreq : cacheRequestLocked (scanned img n) ino = none := by
    rcases h : cacheRequestLocked (scanned img n) ino with _ | k
    · rfl
    · have hino := cacheRequestLocked_eq_some h
      rw [scanned_slot] at hino
      split_ifs at hino with hk
      · exact absurd hino.symm h1
      · exact absurd hino.symm hmax
  rcases hfree : findReusableLocked (scanned img n) with _ | k
  · have hnone := find?_eq_none.mp hfree 1 (by simp [scanned, mounted, inodeInit, Filesys.setSlot])
    rw [scanned_slot] at hnone
    simp at hnone
  · have hzero := findReusableLocked_eq_some hfree
    rw [scanned_slot] at hzero
    split_ifs at hzero with hk
    · cases hzero
    · refine ⟨k, hk, ?_⟩
      rw [inodeGet_miss hreq hfree, scanned_slot, if_neg hk]

theorem ImageOf.dirLookup_eq (h : ImageOf files img)
    (hnames : (files.map fun f => basename f.path).Nodup) {j : ℕ} (hj : j < files.length)
    (stack : Bytes) {fs : Filesys} (hfs : fs = { (mounted img files.length).setSlot 0
      (rootSlot files.length 2 false) with
        icache := 0 :: (mounted img files.length).icache.erase 0 }) :
    ∃ k ≠ 0, dirLookup stack fs 0 (basename files[j].path) = some (.ok k,
      inodeUnlock ((scanned img files.length).setSlot k ⟨1, j + 2, false, false, Dinode.zero⟩) 0) := by
  have hslot : fs.islots 0 = rootSlot files.length 2 false := by
    rw [hfs]
    exact setSlot_self (mounted img files.length) 0 _
  have hlock : inodeLock fs 0 = some (0, scanned img files.length) := by
    rw [inodeLock_of_valid (by rw [hslot]; rfl) (by rw [hslot]; rfl), hslot, hfs]
    simp only [scanned, setSlot, update_idem]
    rfl
  have hroot : (scanned img files.length).islots 0 = rootSlot files.length 2 true := by
    rw [scanned_slot, if_pos rfl]
  have hscan := h.dirLookupFrom_eq (i := rootSlot files.length 2 true) rfl hnames hj
    (Nat.zero_le j) stack
  have hsame : ({ scanned img files.length with store := imgStore img } : Filesys).setSlot 0
      (rootSlot files.length 2 true) = scanned img files.length := by
    simp only [scanned, setSlot, update_idem]
    rfl
  have hent := h.entries
  obtain ⟨k, hk, hget⟩ := inodeGet_scanned img files.length (show j + 2 ≠ 1 by omega) (by omega)
  refine ⟨k, hk, ?_⟩
  have hstore : (scanned img files.length).store = imgStore img := rfl
  simp only [dirLookup, hlock, bind_eq_bind, bind_some, hroot, hstore, hscan, hsame,
    hget, lt_self_iff_false, if_false]
  rw [if_neg (by simp [rootSlot, rootDinode, Mkfs.rootDi])]
  rfl

theorem ImageOf.fsInodeFromPath_eq (h : ImageOf files img)
    (hnames : (files.map fun f => basename f.path).Nodup) {j : ℕ} (hj : j < files.length) (stack : Bytes)
    (flags : ℕ) (leafType : InodeType) : ∃ k ≠ 0, fsInodeFromPath stack (mounted img files.length) (47 ::
    basename files[j].path) flags leafType = some (.ok k, opened img files.length j k) := by
  obtain ⟨k, hk, hlook⟩ := h.dirLookup_eq hnames hj stack rfl
  refine ⟨k, hk, ?_⟩
  have hlen := h.name j hj
  have htok := strtok_single (basename_not_mem files[j].path) files[j].name_ne
  have hnone : strtok none = (none, none) := by rw [strtok]
  have hroot : ((mounted img files.length).islots (mounted img files.length).root).ino = 1 := by
    change ((mounted img files.length).islots 0).ino = 1
    rw [mounted_slot, if_pos rfl]
    rfl
  have hput : inodePut (inodeUnlock ((scanned img files.length).setSlot k
      ⟨1, j + 2, false, false, Dinode.zero⟩) 0) 0 = some (opened img files.length j k) := by
    have hslot : ((scanned img files.length).setSlot k
        ⟨1, j + 2, false, false, Dinode.zero⟩).islots 0 = rootSlot files.length 2 true := by
      rw [Filesys.setSlot_ne _ hk.symm, scanned_slot, if_pos rfl]
    have hself : Function.update (mounted img files.length).islots 0
        (rootSlot files.length 1 false) = (mounted img files.length).islots := by
      rw [Function.update_eq_self_iff, mounted_slot, if_pos rfl]
    rw [inodeUnlock, hslot, inodePut_of_linked (by rw [Filesys.setSlot_self])
      (fun _ => by rw [Filesys.setSlot_self]; simp [rootSlot, rootDinode, Mkfs.rootDi]),
      Filesys.setSlot_self, Filesys.setSlot_setSlot]
    change some (Filesys.mk _ (Function.update (Function.update (Function.update _ 0 _) k _) 0
      (rootSlot files.length 1 false)) _ _) = _
    rw [Function.update_comm hk, Function.update_idem, hself]
    rfl
  rw [fsInodeFromPath, if_neg (by simp), if_neg (by simp),
    if_neg (by simp only [List.length_cons, fsMaxPath]; omega), hroot, inodeGet_root]
  simp only [htok, Option.bind_some]
  rw [walkPath]
  simp only [stepPath, hlook, hnone, Option.bind_eq_bind, Option.bind_some, Option.pure_def, hput]
  split
  · rfl
  · rename_i hsome
    rw [hnone] at hsome
    cases hsome

/-- What the kernel gets from an inode that it has opened: a file with these
bytes. -/
structure ReadsAs (fs : Filesys) (k : Fin inodeCacheSize) (data : List UInt8) : Prop where
  type : (effective fs k).type = .file
  size : (effective fs k).size.toNat = data.length
  read : ∃ fs', inodeLock fs k = some (0, fs') ∧ ∀ dst,
    (inodeRead fs'.store (fs'.islots k) kernelDst dst 0 data.length).1 = data.length ∧
    slice (inodeRead fs'.store (fs'.islots k) kernelDst dst 0 data.length).2.1 0 data.length = data

theorem ImageOf.readsAs (h : ImageOf files img) {j : ℕ} (hj : j < files.length) (k : Fin inodeCacheSize) :
    ReadsAs (opened img files.length j k) k files[j].data := by
  have hslot : (opened img files.length j k).islots k = ⟨1, j + 2, false, false, Dinode.zero⟩ :=
    setSlot_self (mounted img files.length) k _
  have hsize := h.size j hj
  have hino : j + 2 < nbInodes superblock := by
    have hlt := h.inodes_lt
    have hnb : nbInodes superblock = 320 := by decide
    omega
  have heff : effective (opened img files.length j k) k =
      fileDinode (baseOf (files.take j)) files[j].data.length := by
    rw [effective, hslot, if_neg (by simp)]
    exact h.dinode_file hj
  have hlen : (effective (opened img files.length j k) k).size.toNat = files[j].data.length := by
    rw [heff]
    exact UInt32.toNat_ofNat_of_lt' (show files[j].data.length < 2 ^ 32 by omega)
  have hlock : inodeLock (opened img files.length j k) k = some (0,
      (opened img files.length j k).setSlot k (lockedSlot (opened img files.length j k) k)) := by
    rw [inodeLock_of_invalid (by rw [hslot]) (by rw [hslot]) (by rw [hslot]; exact hino)]
    simp only [lockedSlot, effective, hslot, Bool.false_eq_true, if_false]
  refine ⟨by rw [heff]; rfl, hlen, _, hlock, ?_⟩
  intro dst
  have hholds : Holds (imgStore img) (lockedSlot (opened img files.length j k) k).content
      (lockedSlot (opened img files.length j k) k).content.size.toNat
      fun t => files[j].data.getD t 0 := by
    change Holds _ (effective _ k) (effective _ k).size.toNat _
    rw [hlen, heff]
    exact h.holds_file hj
  have hread : inodeRead (imgStore img) (lockedSlot (opened img files.length j k) k) kernelDst dst 0
      files[j].data.length = _ :=
    inodeRead_of_holds hholds (hlen.trans_le hsize) ((Nat.zero_add _).trans_le hlen.ge)
  rw [setSlot_self]
  change (inodeRead (imgStore img) _ _ _ _ _).1 = _ ∧ slice (inodeRead (imgStore img) _ _ _ _ _).2.1 _ _ = _
  rw [hread]
  refine ⟨rfl, ext_getElem (length_slice ..) ?_⟩
  intro t ht ht'
  rw [getElem_slice]
  dsimp only
  rw [splice_inside (by omega) (by omega)]
  simp [ht']

end Lookup

def InodeUsed (s : Store) (ino : ℕ) : Prop := (diskDinode s ino).type ≠ .free

/-- An inode of the table refers to the block, as data or as its indirect table. -/
def BlockUsed (s : Store) (b : ℕ) : Prop :=
  ∃ ino < nbInodes s.sb, ∃ ref, RefersAt s (diskDinode s ino) ref b

section Format

variable {files : List HostFile} {img : Bytes}

theorem ImageOf.inodeBit_iff (h : ImageOf files img) {ino : ℕ} (hino : ino < 320) :
    Fs.inodeBit (imgStore img) ino = true ↔ ino = 0 ∨ InodeUsed (imgStore img) ino := by
  rw [h.inodeBit hino, decide_eq_true_iff, InodeUsed]
  rcases h.dinode_cases hino with ⟨rfl, hd⟩ | ⟨j, hj, rfl, hd⟩ | ⟨hfree, hd⟩
  · simp [hd, rootDinode, Mkfs.rootDi]
  · simp [hd, fileDinode, hj]
  · have htype : ¬ Dinode.zero.type ≠ .free := by simp [Dinode.zero]
    rw [hd]
    constructor
    · intro hlt
      exact Or.inl (hfree.resolve_right (by omega))
    · rintro (rfl | hused)
      · omega
      · exact absurd hused htype

theorem ImageOf.dataBit_iff (h : ImageOf files img) {b : ℕ} (hlo : 11 ≤ b) (hhi : b < 2048) :
    Fs.dataBit (imgStore img) b = true ↔ BlockUsed (imgStore img) b := by
  rw [h.dataBit hlo hhi, decide_eq_true_iff]
  constructor
  · intro hlt
    obtain ⟨ino, ref, hp⟩ := Places.exists_of_lt hlo hlt
    refine ⟨ino, ?_, ref, h.refersAt hp⟩
    change ino < 320
    have hinodes := h.inodes_lt
    rcases hp.bounds with ⟨rfl, -⟩ | ⟨j, hj, rfl, -⟩
    · norm_num
    · omega
  · rintro ⟨ino, hino, ref, hb⟩
    exact (h.places hino hb).lt_baseOf.2

theorem FsInv.create_fresh {fs fs' : Filesys} (h : FsInv fs) {type : InodeType}
    {k : Fin inodeCacheSize} (hc : inodeCreate fs type = some (.ok k, fs')) :
    (fs'.islots k).ino < nbInodes fs.store.sb ∧ Fs.inodeBit fs.store (fs'.islots k).ino = false := by
  rcases inodeCreate_cases h.apart.wf h.inodes hc with
    ⟨hbad, -⟩ | ⟨id, s, k', i, c, halloc, hid, hk, -, hino, -, -, -, heq⟩
  · cases hbad
  obtain rfl : k = k' := Except.ok.inj hk
  have hslot : (fs'.islots k).ino = id := by
    rw [heq, ← hino]
    exact congrArg Inode.ino (setSlot_self ..)
  rw [hslot]
  exact ⟨hid, (ibmAlloc_of_eq h.apart.wf h.inodes halloc).1⟩

/-- `mkfs` and the kernel agree: the image mounts, every file is found under its
name and reads back as the bytes of the host file, and the bits that are set are
those of the inodes and blocks in use, which no run of the kernel allocates again. -/
theorem kernel_reads_mkfs_image (hnames : (files.map fun f => basename f.path).Nodup)
    (hmkfs : mkfs files = some img) :
    ∃ fs, fsInit (diskBlk img) = some (0, fs) ∧
      (∀ f ∈ files, ∀ stack flags leafType, flags &&& oCreat = 0 →
        ∃ k fs', fsInodeFromPath stack fs (47 :: basename f.path) flags leafType =
          some (.ok k, fs') ∧ ReadsAs fs' k f.data) ∧
      (∀ ino < nbInodes fs.store.sb, inodeBit fs.store ino = true ↔ ino = 0 ∨ InodeUsed fs.store ino) ∧
      (∀ b, fs.store.sb.dataStart ≤ b → b < fs.store.sb.nbBlk →
        (dataBit fs.store b = true ↔ BlockUsed fs.store b)) ∧
      ∀ fs', Reaches FsOp.step (fun fs op => op.Proper fs) fs fs' →
        (∀ type k fs'', inodeCreate fs' type = some (.ok k, fs'') →
          (fs''.islots k).ino ≠ 0 ∧ ¬ InodeUsed fs.store (fs''.islots k).ino) ∧
        ∀ (b : ℕ) s, balloc fs'.store = ((b : ℤ), s) → ¬ BlockUsed fs.store b := by
  have h := mkfs_image hmkfs
  refine ⟨_, h.fsInit_eq, ?_, fun ino hino => h.inodeBit_iff hino,
    fun b hlo hhi => h.dataBit_iff hlo hhi, ?_⟩
  · intro f hf stack flags leafType _
    obtain ⟨j, hj, rfl⟩ := mem_iff_getElem.mp hf
    obtain ⟨k, -, hpath⟩ := h.fsInodeFromPath_eq hnames hj stack flags leafType
    exact ⟨k, _, hpath, h.readsAs hj k⟩
  · intro fs' hr
    obtain ⟨hinv, hgrows⟩ := h.fsInv.run hr
    constructor
    · intro type k fs'' hc
      obtain ⟨hlt, hclear⟩ := hinv.create_fresh hc
      have hlt' : (fs''.islots k).ino < 320 := by
        rw [hgrows.sb] at hlt
        exact hlt
      have hbit : ¬ Fs.inodeBit (imgStore img) (fs''.islots k).ino = true := by
        intro hset
        rw [hgrows.inode _ hlt' hset] at hclear
        cases hclear
      rw [h.inodeBit_iff hlt'] at hbit
      exact not_or.mp hbit
    · intro b s hb hused
      obtain ⟨ino, hino, ref, href⟩ := hused
      have htaken := h.owned.taken ino _ ref b (Or.inl ⟨hino, rfl⟩) href
      have hset := (hgrows.data b htaken).2.2
      rcases balloc_cases hinv.apart.wf with ⟨b', s', hb', -, ha⟩ | ⟨hb', -⟩
      · rw [hb] at hb'
        have hfst := congrArg Prod.fst hb'
        obtain rfl : b = b' := Int.ofNat.inj hfst
        rw [ha.clear] at hset
        cases hset
      · rw [hb] at hb'
        have hfst := congrArg Prod.fst hb'
        simp only [enospc] at hfst
        omega

end Format

def shFile : HostFile := ⟨[98, 105, 110, 47, 115, 104], [1, 2, 3], by decide, by decide⟩

theorem kernel_reads_mkfs_image_shFile : ∃ img fs, mkfs [shFile] = some img ∧
    fsInit (diskBlk img) = some (0, fs) ∧
    ∃ k fs', fsInodeFromPath (fun _ => 0) fs [47, 115, 104] 0 .file = some (.ok k, fs') ∧
      ReadsAs fs' k [1, 2, 3] := by
  have hsome : (mkfs [shFile]).isSome = true := by decide +kernel
  obtain ⟨img, hmkfs⟩ := isSome_iff_exists.mp hsome
  obtain ⟨fs, hmount, hfiles, -⟩ := kernel_reads_mkfs_image (by simp) hmkfs
  obtain ⟨k, fs', hpath, hread⟩ := hfiles shFile (by simp) (fun _ => 0) 0 .file rfl
  exact ⟨img, fs, hmkfs, hmount, k, fs', hpath, hread⟩

end RvMiniOs.Fs
