import RvMiniOs.Fs.Making

/-!
# The steps along a path

A sound tree is what a path is walked on: well-formed directories that the cache and the
inode table agree on, and free inodes as `mkfs` leaves them. One turn of the loop of
`fs_inode_from_path` follows an entry, makes the missing component or fails, and each
outcome is told by the entries, the free inodes and the free blocks before the turn.
-/

namespace RvMiniOs.Fs

open Lib List Filesys

structure SoundTree (fs : Filesys) (r : Fin inodeCacheSize → ℕ) : Prop where
  inv : DirInv fs
  held : Held fs r
  pinned : 0 < r fs.root
  unlocked : ∀ k, (fs.islots k).locked = false
  reserved : inodeBit fs.store 0 = true
  zeroed : ∀ ino < nbInodes fs.store.sb, inodeBit fs.store ino = false → diskDinode fs.store ino = Dinode.zero
  synced : ∀ ino d d', Stored fs ino d → Stored fs ino d' → d.type = .directory → d' = d
  clean : ∀ ino d, Stored fs ino d → d.type = .directory → Unspoiled fs.store d
  undenied : fs.store.deny = []

def freeInodes (s : Store) : Finset ℕ :=
  {ino ∈ Finset.range (nbInodes s.sb) | inodeBit s ino = false}

structure Extends (fs fs' : Filesys) : Prop where
  sb : fs'.store.sb = fs.store.sb
  slot : fs'.root = fs.root
  root : (fs'.islots fs'.root).ino = (fs.islots fs.root).ino
  dirs : ∀ ino d d', Stored fs ino d → d.type = .directory → Stored fs' ino d' →
    d'.type = .directory ∧ d.size.toNat ≤ d'.size.toNat ∧
      ∀ k < d.size.toNat, fileByte fs'.store d' k = fileByte fs.store d k

section Trees

variable {fs fs' fs'' : Filesys} {r r' : Fin inodeCacheSize → ℕ} {k : Fin inodeCacheSize} {ino dir : ℕ}
  {d : Dinode} {name : List UInt8} {taken : Fin inodeCacheSize → ℤ}

theorem FsInv.stored_lt (h : FsInv fs) (hd : Stored fs ino d) : ino < nbInodes fs.store.sb := by
  rcases hd with ⟨hlt, -⟩ | ⟨k, hv, hino, -⟩
  · exact hlt
  · exact hino ▸ h.ino_lt k hv

theorem SoundTree.inodeOf_eq (h : SoundTree fs r) (hd : Stored fs ino d) (hdir : d.type = .directory) :
    inodeOf fs ino = d :=
  h.synced ino d _ hd (stored_inodeOf (h.inv.stored_lt hd)) hdir

theorem SoundTree.shrinks (h : SoundTree fs r) (hinv : DirInv fs') (hs : Shrinks fs fs') (hheld : Held fs' r')
    (hroot : 0 < r' fs.root) (hb : Balanced fs fs' taken) : SoundTree fs' r' where
  inv := hinv
  held := hheld
  pinned := by rw [hs.root]; exact hroot
  unlocked := fun k => (hb.locked k).trans (h.unlocked k)
  reserved := by rw [hs.store]; exact h.reserved
  zeroed := by rw [hs.store]; exact h.zeroed
  synced := fun ino d d' hd hd' => h.synced ino d d' (hs.stored ino d hd) (hs.stored ino d' hd')
  clean := fun ino d hd hdir => hs.store ▸ h.clean ino d (hs.stored ino d hd) hdir
  undenied := by rw [hs.store]; exact h.undenied

theorem SoundTree.not_dir_of_free (h : SoundTree fs r) (hfree : inodeBit fs.store ino = false)
    (hd : Stored fs ino d) : d.type ≠ .directory := by
  have hlt := h.inv.stored_lt hd
  rcases hd with ⟨-, rfl⟩ | ⟨k, -, hino, -⟩
  · rw [h.zeroed ino hlt hfree]
    decide
  · have hbit := h.inv.cached k (hino ▸ hlt)
    rw [hino, hfree] at hbit
    cases hbit

theorem WellFormedTree.inTree_child (h : WellFormedTree fs) (hlt : dir < nbInodes fs.store.sb)
    (hc : child fs dir name = .ok ino) : InTree fs ino := by
  by_cases hdir : (inodeOf fs dir).type = .directory
  · have hd := stored_inodeOf hlt
    rcases dirFind_cases name hdir (h.dirs dir _ hd hdir).size with ⟨e, he, hused, -, -, hfind⟩ | ⟨-, hfind⟩
    · rw [Except.ok.inj (hc.symm.trans hfind)]
      exact h.inTree_entry hd hdir he hused
    · exact absurd (hc.symm.trans hfind) (by simp)
  · exact absurd (hc.symm.trans (dirFind_of_file hdir)) (by simp)

namespace Extends

theorem trans (h : Extends fs fs') (h' : Extends fs' fs'') (hinv : FsInv fs) : Extends fs fs'' := by
  refine ⟨h'.sb.trans h.sb, h'.slot.trans h.slot, h'.root.trans h.root, fun ino d d'' hd hdir hd'' => ?_⟩
  have hlt := hinv.stored_lt hd
  have hd' : Stored fs' ino (inodeOf fs' ino) := stored_inodeOf (by rw [h.sb]; exact hlt)
  obtain ⟨hdir', hle, hbyte⟩ := h.dirs ino d _ hd hdir hd'
  obtain ⟨hdir'', hle', hbyte'⟩ := h'.dirs ino _ d'' hd' hdir' hd''
  exact ⟨hdir'', hle.trans hle', fun k hk => (hbyte' k (hk.trans_le hle)).trans (hbyte k hk)⟩

theorem of_shrinks (hinv : DirInv fs) (hs : Shrinks fs fs') (hr : 0 < r fs.root) (hstay : Stays fs fs' r) :
    Extends fs fs' := by
  refine ⟨by rw [hs.store], hs.root, by rw [hs.root]; exact (hstay _ hr).1, fun ino d d' hd hdir hd' => ?_⟩
  have hsame := hinv.same hd (hs.stored ino d' hd') hdir
  refine ⟨hsame.type.trans hdir, by rw [hsame.size], fun k hk => ?_⟩
  rw [hs.store]
  exact hsame.byte k hk

theorem entry (h : Extends fs fs') {d' : Dinode} (hd : Stored fs ino d) (hdir : d.type = .directory)
    (hd' : Stored fs' ino d') {e : ℕ} (he : 20 * e + 20 ≤ d.size.toNat) :
    ∀ k < 20, dirEntry fs'.store d' e k = dirEntry fs.store d e k := fun k hk =>
  (h.dirs ino d d' hd hdir hd').2.2 _ (by simp only [sizeofDirent]; omega)

end Extends

inductive Reachable (fs : Filesys) : ℕ → Prop
  | root : Reachable fs (fs.islots fs.root).ino
  | entry {dir e : ℕ} : Reachable fs dir → (inodeOf fs dir).type = .directory →
      sizeofDirent * e + sizeofDirent ≤ (inodeOf fs dir).size.toNat →
      entryInum fs.store (inodeOf fs dir) e ≠ 0 → Reachable fs (entryInum fs.store (inodeOf fs dir) e)

theorem Reachable.rule {P : ℕ → Prop} (h : Reachable fs ino) (hroot : P (fs.islots fs.root).ino)
    (hentry : ∀ dir e, P dir → (inodeOf fs dir).type = .directory → 20 * e + 20 ≤ (inodeOf fs dir).size.toNat →
      entryInum fs.store (inodeOf fs dir) e ≠ 0 → P (entryInum fs.store (inodeOf fs dir) e)) : P ino := by
  induction h with
  | root => exact hroot
  | entry _ hdir he hused ih => exact hentry _ _ ih hdir he hused

theorem Reachable.lt (h : Reachable fs ino) (htree : WellFormedTree fs) : ino < nbInodes fs.store.sb := by
  refine h.rule (P := fun ino => ino < nbInodes fs.store.sb) htree.rooted fun dir e hlt hdir he hused => ?_
  exact (htree.inTree_entry (stored_inodeOf hlt) hdir (by omega) hused).1

theorem Reachable.grow (h : Reachable fs ino) (htree : WellFormedTree fs) (hext : Extends fs fs') :
    Reachable fs' ino := by
  induction h with
  | root =>
    rw [← hext.root]
    exact .root
  | @entry dir e hreach hdir he hused ih =>
    have hlt := hreach.lt htree
    have hd := stored_inodeOf hlt
    have hd' : Stored fs' dir (inodeOf fs' dir) := stored_inodeOf (by rw [hext.sb]; exact hlt)
    obtain ⟨hdir', hle, -⟩ := hext.dirs dir _ _ hd hdir hd'
    have hsame := entryInum_congr (hext.entry hd hdir hd' he)
    rw [← hsame] at hused ⊢
    exact .entry ih hdir' (he.trans hle) hused

theorem Reachable.child (h : Reachable fs dir) (htree : WellFormedTree fs) (hc : child fs dir name = .ok ino) :
    Reachable fs ino := by
  by_cases hdir : (inodeOf fs dir).type = .directory
  · have hsize := (htree.dirs dir _ (stored_inodeOf (h.lt htree)) hdir).size
    rcases dirFind_cases name hdir hsize with ⟨e, he, hused, -, -, hfind⟩ | ⟨-, hfind⟩
    · rw [Except.ok.inj (hc.symm.trans hfind)]
      refine .entry h hdir ?_ hused
      obtain ⟨q, hq⟩ := hsize
      simp only [sizeofDirent] at hq ⊢
      omega
    · exact absurd (hc.symm.trans hfind) (by simp)
  · exact absurd (hc.symm.trans (dirFind_of_file hdir)) (by simp)

end Trees

section Entries

variable {s s' : Store} {d d' : Dinode} {name : List UInt8} {stack : Bytes} {x : ℕ}

theorem entryName_newDirent (hname : 0 ∉ name) (hlen : name.length < maxname) :
    entryName (newDirent stack name x) = name := by
  have hat : ∀ k ≤ name.length, newDirent stack name x k = name.getD k 0 := by
    intro k hk
    rw [newDirent, if_pos (hk.trans_lt hlen), if_pos hk]
    rfl
  rw [entryName_eq hlen]
  · refine ext_getElem (by simp) fun k hk hk' => ?_
    rw [getElem_map, getElem_range, hat k hk'.le, getD_eq_getElem _ _ hk']
  · rw [hat _ le_rfl, getD_eq_default _ _ le_rfl]
  · intro k hk h0
    rw [hat k hk.le, getD_eq_getElem _ _ hk] at h0
    exact hname (h0 ▸ getElem_mem hk)

theorem getU32_newDirent (hx : x < 2 ^ 32) : (getU32 (newDirent stack name x) maxname).toNat = x := by
  have hval : (UInt32.ofNat x).toNat = x := UInt32.toNat_ofNat_of_lt' hx
  rw [getU32_of_bytes (v := UInt32.ofNat x), hval]
  intro k hk
  rw [hval, newDirent, if_neg (by omega), Nat.add_sub_cancel_left]

theorem OneMore.dirFind_new (h : OneMore s d s' d' (newDirent stack name x)) (hdir : d.type = .directory)
    (hsize : sizeofDirent ∣ d.size.toNat) (hnone : dirFind s d name = .error (-enoent)) (hname : 0 ∉ name)
    (hlen : name.length < maxname) (hx0 : x ≠ 0) (hx : x < 2 ^ 32) : dirFind s' d' name = .ok x := by
  obtain ⟨q, hq⟩ := hsize
  simp only [sizeofDirent] at hq
  have hnew := fun k (hk : k < 20) => h.new hq.symm hk
  have hinum : entryInum s' d' q = x := by
    unfold entryInum
    rw [getU32_congr fun k hk => hnew _ (by simp only [maxname]; omega), getU32_newDirent hx]
  rcases dirFind_cases name hdir ⟨q, hq⟩ with ⟨e, -, -, -, -, hfind⟩ | ⟨hmiss, -⟩
  · rw [hfind] at hnone
    cases hnone
  · rw [← hinum]
    refine dirFind_of_first (h.type.trans hdir) ⟨q + 1, ?_⟩ ?_ ?_ ?_ fun e he => ?_
    · rw [h.size, hq]
      simp only [sizeofDirent]
      omega
    · rw [h.size]
      omega
    · rw [hinum]
      exact hx0
    · rw [entryName_congr hnew, entryName_newDirent hname hlen]
    · have hold := fun k (hk : k < 20) => h.old (e := e) ⟨q, hq⟩ (by omega) hk
      rw [entryInum_congr hold, entryName_congr hold]
      exact hmiss e (by omega)

end Entries

section Growth

variable {fs fs' : Filesys} {r : Fin inodeCacheSize → ℕ} {k : Fin inodeCacheSize} {type : InodeType}

theorem NewInode.grown (h : NewInode fs fs' k type) (hsound : SoundTree fs r) (hstay : Stays fs fs' r) :
    Extends fs fs' := by
  refine ⟨h.store.sb, h.root, ?_, fun ino d d' hd hdir hd' => ?_⟩
  · rw [h.root]
    exact (hstay _ hsound.pinned).1
  · have hne : ino ≠ (fs'.islots k).ino := by
      rintro rfl
      exact hsound.not_dir_of_free h.free hd hdir
    have hold := h.others ino d' hd' hne
    have hsame := hsound.inv.same hd hold hdir
    have hdir' : d'.type = .directory := hsame.type.trans hdir
    obtain ⟨-, hsame'⟩ := (h.dirs ino d' hd' hdir').resolve_left fun hnew => hne hnew.1
    have hall := hsame.trans hsame'
    exact ⟨hdir', by rw [hall.size], hall.byte⟩

theorem EntryWritten.grown {done : ℕ} (h : EntryWritten fs fs' k done) (hinv : DirInv fs)
    (hlt : (fs.islots k).ino < nbInodes fs.store.sb) : Extends fs fs' := by
  refine ⟨h.touches.sb, h.touches.root, ?_, fun ino d d' hd hdir hd' => ?_⟩
  · rw [h.touches.root]
    by_cases hroot : fs.root = k
    · rw [hroot]
      exact h.touches.slot.1
    · rw [h.touches.slots _ hroot]
  · by_cases hino : ino = (fs.islots k).ino
    · subst hino
      have hsame := hinv.same hd (Stored.effective fun _ => hlt) hdir
      have hsize : (effective fs k).size.toNat = d.size.toNat := by rw [hsame.size]
      have hsize' := h.size
      rw [h.sole d' hd']
      refine ⟨h.type.trans (hsame.type.trans hdir), by omega, fun n hn => ?_⟩
      rw [h.byte n (by omega), hsame.byte n hn]
    · have hold := h.touches.stored hd' hino
      have hsame := hinv.same hd hold hdir
      have hdir' : d'.type = .directory := hsame.type.trans hdir
      have hall := hsame.trans (h.touches.dirs ino d' hold hino hdir')
      exact ⟨hdir', by rw [hall.size], hall.byte⟩

end Growth

structure Makes (fs fs' : Filesys) (dir : ℕ) (name : List UInt8) (type : InodeType) (x : ℕ) : Prop where
  grown : Extends fs fs'
  lt : x < nbInodes fs.store.sb
  free : inodeBit fs.store x = false
  bits : ∀ ino < nbInodes fs.store.sb, inodeBit fs'.store ino = (inodeBit fs.store ino || decide (ino = x))
  blks : (freeBlks fs'.store).card + newBlks fs.store (inodeOf fs dir) = (freeBlks fs.store).card
  entered : child fs' dir name = .ok x
  content : ∀ d, Stored fs' x d → d = newDinode type
  size : (inodeOf fs' dir).size.toNat = (inodeOf fs dir).size.toNat + 20
  kept : ∀ ino d, Stored fs' ino d → ino ≠ dir → ino ≠ x → Stored fs ino d

structure Unlinked (fs fs' : Filesys) (x : ℕ) : Prop where
  sb : fs'.store.sb = fs.store.sb
  root : (fs'.islots fs'.root).ino = (fs.islots fs.root).ino
  free : inodeBit fs.store x = false
  bit : inodeBit fs'.store x = true
  entries : ∀ ino d, Stored fs' ino d → d.type = .directory → ∀ e, 20 * e + 20 ≤ d.size.toNat →
    entryInum fs'.store d e ≠ 0 → entryInum fs'.store d e < nbInodes fs'.store.sb ∧
      inodeBit fs.store (entryInum fs'.store d e) = true

structure Stuck (fs fs' : Filesys) (k : Fin inodeCacheSize) (type : InodeType) : Prop
    extends Unlinked fs fs' (fs'.islots k).ino where
  inv : FsInv fs'
  full : (freeBlks fs'.store).card = 0
  refused : fs.store.refused < fs'.store.refused
  held : 0 < (fs'.islots k).refcnt
  valid : (fs'.islots k).valid = true
  content : (fs'.islots k).content = newDinode type

section Make

variable {fs fs₂ fs' : Filesys} {r : Fin inodeCacheSize → ℕ} {curr k : Fin inodeCacheSize} {name : List UInt8}
  {stack : Bytes} {type : InodeType} {res : ℤ}

theorem MetaOnly.symm {s s' : Store} (h : MetaOnly s s') : MetaOnly s' s :=
  ⟨h.sb.symm, h.deny.symm, fun b hb => (h.frame b (by rwa [h.sb] at hb)).symm⟩

theorem SoundTree.directory (h : SoundTree fs r) (hk : 0 < r curr) (hdir : (effective fs curr).type = .directory) :
    Stored fs (fs.islots curr).ino (effective fs curr) ∧ inodeOf fs (fs.islots curr).ino = effective fs curr ∧
      DirSound fs.store (effective fs curr) ∧ Unspoiled fs.store (effective fs curr) := by
  have hstored : Stored fs (fs.islots curr).ino (effective fs curr) :=
    Stored.effective fun _ => h.held.ino_lt curr hk
  exact ⟨hstored, h.inodeOf_eq hstored hdir, h.inv.dirs _ _ hstored hdir, h.clean _ _ hstored hdir⟩

theorem Unspoiled.congr {s s' : Store} {d : Dinode} (h : Unspoiled s d) : Unspoiled s' d := by
  intro n hn
  rw [ptr_direct s s' d hn]
  exact h n hn

theorem unspoiled_newDinode (s : Store) (type : InodeType) : Unspoiled s (newDinode type) := by
  intro n hn
  simp only [fsInodeDirDblkno] at hn
  left
  simp [ptr, hn, newDinode, Dinode.zero]

theorem SoundTree.size_le (h : SoundTree fs r) (hk : 0 < r curr) (hdir : (effective fs curr).type = .directory)
    (hnew : NewInode fs fs₂ k type) : (effective fs curr).size.toNat + 20 ≤ 12 * 4096 := by
  have hroom := (h.directory hk hdir).2.2.1.room
  have hcount := hnew.count
  have hle := allocated_le fs₂.store
  have hsmall := hnew.inv.small
  omega

theorem FsInv.addEntry (h : FsInv fs) (hlt : (fs.islots k).ino < nbInodes fs.store.sb) {inum : ℕ}
    (ha : dirAddEntry stack fs k name inum = some (res, fs')) : FsInv fs' ∧ Grows fs.store fs'.store := by
  rcases dirAddEntry_cases hlt ha with ⟨-, -, rfl⟩ | ⟨w, rfl, -, hlock, -, rfl⟩
  · exact ⟨h, Grows.refl _⟩
  have hself : (fs.setSlot k (lockedSlot fs k)).islots k = lockedSlot fs k := setSlot_self ..
  have hvalid : ((fs.setSlot k (lockedSlot fs k)).islots k).valid = true := by rw [hself]; rfl
  have h₁ := (h.lock hlock).1
  have hapart := h₁.apart.congr (Stored.covers_add hvalid)
  rw [hself] at hapart
  obtain ⟨c, hleave, hc⟩ := inodeWrite_leaves fs.store (lockedSlot fs k) (kernelSrc (newDirent stack name inum))
    (lockedSlot fs k).content.size.toNat sizeofDirent
  have hpass : Passed (Stored (fs.setSlot k (lockedSlot fs k))) fs.store
      ((fs.setSlot k (lockedSlot fs k)).islots k) c := by
    rw [hself]
    rcases hc with rfl | ⟨-, -, rfl⟩
    · exact Passed.refl hapart _ _
    · exact Passed.of_write hapart _ _ _
  obtain ⟨hinv, hgrow, -, -⟩ := h₁.access hvalid hpass hleave
  exact ⟨hinv, hgrow⟩

variable (h : SoundTree fs r) (hk : 0 < r curr) (hdir : (effective fs curr).type = .directory)
  (hc : inodeCreate fs type = some (.ok k, fs₂))
  (ha : dirAddEntry stack fs₂ curr name (fs₂.islots k).ino = some (res, fs'))
include h hk hdir hc ha

theorem SoundTree.make (hmiss : child fs (fs.islots curr).ino name = .error (-enoent)) (hname : 0 ∉ name)
    (hfit : EntryFits fs.store (effective fs curr)) (hpos : 0 ≤ res) :
    SoundTree fs' (bump r k) ∧ name.length < maxname ∧
      Makes fs fs' (fs.islots curr).ino name type (fs'.islots k).ino := by
  have hnew := h.inv.newInode h.zeroed hc
  obtain ⟨hstored, hof, hsound, hclean⟩ := h.directory hk hdir
  obtain ⟨hstay, hr₂⟩ := h.held.create h.inv hc
  obtain ⟨hino, hcurr⟩ := hstay curr hk
  have hmax := h.size_le hk hdir hnew
  have hk₂ : 0 < bump r k curr := hk.trans_le (le_bump r k curr)
  have hlt₂ := hr₂.ino_lt curr hk₂
  obtain ⟨hinv', hheld', -, htouch, hadded, -⟩ := h.inv.make h.held hk hdir hfit hc ha
  obtain ⟨hwritten, hclean', hcard⟩ := hnew.inv.addEntry_whole hr₂ hk₂ (by rw [hcurr]; exact hdir)
    (by rw [hcurr]; exact hclean.congr) (by rw [hcurr]; exact hfit.metaOnly h.inv.apart.wf hmax hnew.store)
    (by rw [hcurr]; exact hmax) ha hpos
  have hne : k ≠ curr := ((h.held.backed.create h.inv hc).2 curr hk).symm
  have hslot : fs'.islots k = fs₂.islots k := htouch.slots k hne
  have hlen : name.length < maxname := by
    rcases dirAddEntry_cases hlt₂ ha with ⟨-, hneg, -⟩ | ⟨-, -, hlen, -⟩
    · exact absurd hneg (not_lt.mpr hpos)
    · exact hlen
  have hsb : fs'.store.sb = fs.store.sb := htouch.sb.trans hnew.store.sb
  -- the number of the directory is in use, the new one was free
  have hother : (fs.islots curr).ino ≠ (fs₂.islots k).ino := by
    intro heq
    have hbit := h.inv.cached curr (h.held.ino_lt curr hk)
    rw [heq, hnew.free] at hbit
    cases hbit
  have hsole : ∀ d, Stored fs' (fs.islots curr).ino d → d = effective fs' curr := by
    rw [← hino]
    exact hwritten.sole
  have hcontent : ∀ d, Stored fs' (fs₂.islots k).ino d → d = newDinode type := fun d hd =>
    hnew.content d (htouch.stored hd (by rw [hino]; exact hother.symm))
  have hkept : ∀ ino d, Stored fs' ino d → ino ≠ (fs.islots curr).ino → ino ≠ (fs₂.islots k).ino →
      Stored fs ino d := fun ino d hd hdir' hx =>
    hnew.others ino d (htouch.stored hd (by rw [hino]; exact hdir')) hx
  have hbits : ∀ ino < nbInodes fs.store.sb,
      inodeBit fs'.store ino = (inodeBit fs.store ino || decide (ino = (fs₂.islots k).ino)) := by
    intro ino hlt
    rw [hwritten.bits ino (by rw [hnew.store.sb]; exact hlt), hnew.bits ino hlt]
  have hstored' : Stored fs' (fs.islots curr).ino (effective fs' curr) := by
    have hino' : (fs'.islots curr).ino = (fs.islots curr).ino := htouch.slot.1.trans hino
    rw [← hino']
    exact Stored.effective fun _ => by
      rw [hino', hsb]
      exact h.held.ino_lt curr hk
  refine ⟨⟨hinv', hheld', ?_, fun j => ?_, ?_, fun ino hlt hfree => ?_, fun ino d d' hd hd' hd_dir => ?_,
    fun ino d hd hd_dir => ?_, ?_⟩, hlen, ?_⟩
  · rw [htouch.root, hnew.root]
    exact h.pinned.trans_le (le_bump r k _)
  · rw [(Balanced.addEntry hlt₂ ha).locked, (Balanced.create h.inv.apart.wf h.inv.inodes hc).locked]
    exact h.unlocked j
  · rw [hbits 0 (by have hroot := h.inv.rooted; omega), h.reserved]
    rfl
  · rw [hsb] at hlt
    rw [hbits ino hlt, Bool.or_eq_false_iff, decide_eq_false_iff_not] at hfree
    have hne' : ino ≠ (fs.islots curr).ino := by
      rintro rfl
      rw [h.inv.cached curr hlt] at hfree
      exact absurd hfree.1 (by decide)
    rw [htouch.disk ino (by rw [hnew.store.sb]; exact hlt) (by rw [hino]; exact hne'), hnew.disk ino hfree.2]
    exact h.zeroed ino hlt hfree.1
  · by_cases hcase : ino = (fs.islots curr).ino
    · subst hcase
      rw [hsole d hd, hsole d' hd']
    · by_cases hcase' : ino = (fs₂.islots k).ino
      · subst hcase'
        rw [hcontent d hd, hcontent d' hd']
      · exact h.synced ino d d' (hkept ino d hd hcase hcase') (hkept ino d' hd' hcase hcase') hd_dir
  · by_cases hcase : ino = (fs.islots curr).ino
    · subst hcase
      rw [hsole d hd]
      exact hclean'
    · by_cases hcase' : ino = (fs₂.islots k).ino
      · subst hcase'
        rw [hcontent d hd]
        exact unspoiled_newDinode _ _
      · exact (h.clean ino d (hkept ino d hd hcase hcase') hd_dir).congr
  · exact (Answers.dirAddEntry ha).deny ((Answers.inodeCreate hc).deny h.undenied)
  · rw [hslot]
    refine ⟨(hnew.grown h hstay).trans (hwritten.grown hnew.inv hlt₂) h.inv.toFsInv, ?_, hnew.free, hbits, ?_, ?_,
      hcontent, ?_, hkept⟩
    · have hlt := hnew.ino_lt
      rw [hnew.store.sb] at hlt
      exact hlt
    · rw [hof, ← hnew.store.freeBlks h.inv.apart.wf, ← hcard, hcurr]
      unfold newBlks
      rw [ptr_direct fs₂.store fs.store _ (by have hblk := entryBlk_cases (effective fs curr); omega)]
    · have hnone : dirFind fs.store (effective fs curr) name = .error (-enoent) := by
        rw [← h.inv.wellFormedTree.child_eq (h.held.ino_lt curr hk) hstored]
        exact hmiss
      have hsame := (hnew.dirs _ _ (by rw [← hino, ← hcurr]; exact Stored.effective fun _ => hlt₂) hdir).resolve_left
        fun heq => hother heq.1
      have hmore := (hadded _ (by rw [hino]; exact hstored')).resolve_right fun hneg =>
        absurd hneg.1 (not_lt.mpr hpos)
      rw [hcurr] at hmore
      have hx0 : (fs₂.islots k).ino ≠ 0 := by
        intro h0
        have hfree := hnew.free
        rw [h0, h.reserved] at hfree
        cases hfree
      have hxlt : (fs₂.islots k).ino < 2 ^ 32 := by
        have hlt := hnew.ino_lt
        have hsmall := hnew.inv.inodes
        omega
      rw [hinv'.wellFormedTree.child_eq (by rw [hsb]; exact h.held.ino_lt curr hk) hstored']
      exact hmore.2.dirFind_new hdir hsound.size ((hsame.2.dirFind fun _ => hsound.size).trans hnone) hname hlen
        hx0 hxlt
    · rw [hsole _ (stored_inodeOf (by rw [hsb]; exact h.held.ino_lt curr hk)), hof, ← hcurr]
      exact hwritten.size

theorem SoundTree.lost (hneg : res < 0) : FsInv fs' ∧ Grows fs.store fs'.store ∧
      (maxname ≤ name.length ∨ (freeBlks fs.store).card < newBlks fs.store (effective fs curr)) := by
  have hnew := h.inv.newInode h.zeroed hc
  obtain ⟨-, -, hsound, hclean⟩ := h.directory hk hdir
  obtain ⟨hstay, hr₂⟩ := h.held.create h.inv hc
  obtain ⟨-, hcurr⟩ := hstay curr hk
  have hmax := h.size_le hk hdir hnew
  have hk₂ : 0 < bump r k curr := hk.trans_le (le_bump r k curr)
  obtain ⟨hinv, hgrow⟩ := hnew.inv.toFsInv.addEntry (hr₂.ino_lt curr hk₂) ha
  refine ⟨hinv, (h.inv.toFsInv.create hc).grows.trans hgrow, ?_⟩
  by_cases hfit : EntryFits fs.store (effective fs curr)
  · obtain ⟨-, -, -, -, -, hwhy⟩ := h.inv.make h.held hk hdir hfit hc ha
    refine (hwhy hneg).imp_right fun hno => ?_
    by_contra hge
    exact hno ((entry_available_iff hsound hclean h.undenied hmax).mpr (not_lt.mp hge)).2
  · rcases hnew.inv.addEntry_part hr₂ hk₂ (by rw [hcurr]; exact hdir) (by rw [hcurr]; exact hclean.congr)
        ((Answers.inodeCreate hc).deny h.undenied)
        (by rw [hcurr]; exact fun hfit₂ => hfit (hfit₂.metaOnly hnew.inv.apart.wf hmax hnew.store.symm))
        (by rw [hcurr]; exact hmax) ha with ⟨hlong, -, -⟩ | ⟨done, hpos, -, hres, -⟩
    · exact .inl hlong
    · omega

theorem SoundTree.stuck (hfit : ¬ EntryFits fs.store (effective fs curr)) (hpos : 0 ≤ res) :
    Stuck fs fs' k type ∧ (freeBlks fs.store).card < newBlks fs.store (effective fs curr) := by
  have hnew := h.inv.newInode h.zeroed hc
  obtain ⟨hstored, -, hsound, hclean⟩ := h.directory hk hdir
  obtain ⟨hstay, hr₂⟩ := h.held.create h.inv hc
  obtain ⟨hino, hcurr⟩ := hstay curr hk
  have hmax := h.size_le hk hdir hnew
  have hk₂ : 0 < bump r k curr := hk.trans_le (le_bump r k curr)
  obtain ⟨done, -, hdone, -, hwritten, hrefused, hfull⟩ :=
    (hnew.inv.addEntry_part hr₂ hk₂ (by rw [hcurr]; exact hdir) (by rw [hcurr]; exact hclean.congr)
      ((Answers.inodeCreate hc).deny h.undenied)
      (by rw [hcurr]; exact fun hfit₂ => hfit (hfit₂.metaOnly hnew.inv.apart.wf hmax hnew.store.symm))
      (by rw [hcurr]; exact hmax) ha).resolve_left fun hlong => absurd hlong.2.1 (not_lt.mpr hpos)
  have hne : k ≠ curr := ((h.held.backed.create h.inv hc).2 curr hk).symm
  have hslot : fs'.islots k = fs₂.islots k := hwritten.touches.slots k hne
  have hext := (hnew.grown h hstay).trans (hwritten.grown hnew.inv (hr₂.ino_lt curr hk₂)) h.inv.toFsInv
  have hlt := hnew.ino_lt
  -- an entry that was there before
  have hold : ∀ ino d d', Stored fs ino d → d.type = .directory → Stored fs' ino d' → ∀ e,
      20 * e + 20 ≤ d.size.toNat → entryInum fs'.store d' e ≠ 0 →
      entryInum fs'.store d' e < nbInodes fs'.store.sb ∧ inodeBit fs.store (entryInum fs'.store d' e) = true := by
    intro ino d d' hd hd_dir hd' e he hused
    rw [entryInum_congr (hext.entry hd hd_dir hd' he)] at hused ⊢
    obtain ⟨-, hlt', hbit⟩ := (h.inv.dirs ino d hd hd_dir).entries e (by simp only [sizeofDirent]; omega) hused
    exact ⟨by rw [hext.sb]; exact hlt', hbit⟩
  refine ⟨⟨⟨hext.sb, hext.root, ?_, ?_, fun ino d hd hd_dir e he hused => ?_⟩, hwritten.inv, hfull, ?_, ?_, ?_, ?_⟩, ?_⟩
  · rw [hslot]
    exact hnew.free
  · rw [hslot, hwritten.bits _ hlt]
    exact hnew.bit
  · by_cases hcase : ino = (fs.islots curr).ino
    · subst hcase
      refine hold _ _ d hstored hdir hd e ?_ hused
      have hsize := hwritten.size
      rw [hcurr] at hsize
      rw [hwritten.sole d (by rw [hino]; exact hd)] at he
      obtain ⟨q, hq⟩ := hsound.size
      simp only [sizeofDirent] at hq
      omega
    · have hd₂ := hwritten.touches.stored hd (by rw [hino]; exact hcase)
      by_cases hcase' : ino = (fs₂.islots k).ino
      · subst hcase'
        rw [hnew.content d hd₂] at he
        exact absurd he (by simp [newDinode, Dinode.zero])
      · exact hold ino d d (hnew.others ino d hd₂ hcase') hd_dir hd e he hused
  · exact (Answers.inodeCreate hc).refused.trans_lt hrefused
  · have hback := hr₂.backed k
    rw [Follows.bump_self] at hback
    rw [hslot]
    push_cast at hback
    omega
  · rw [hslot]
    exact hnew.valid
  · rw [hslot]
    exact hnew.content _ (.inr ⟨k, hnew.valid, rfl, rfl⟩)
  · by_contra hge
    exact hfit ((entry_available_iff hsound hclean h.undenied hmax).mpr (not_lt.mp hge)).1

end Make

inductive Stepped (fs fs' : Filesys) (r : Fin inodeCacheSize → ℕ) (curr : Fin inodeCacheSize) (name : List UInt8)
    (flags : ℕ) (type : InodeType) : Except ℤ (Fin inodeCacheSize) → Prop
  | found {k : Fin inodeCacheSize} (hchild : child fs (fs.islots curr).ino name = .ok (fs'.islots k).ino)
      (hshrink : Shrinks fs fs') (hgrown : Extends fs fs') (hsound : SoundTree fs' (bump r k))
      (hcount : Balanced fs fs' (Pi.single k 1)) : Stepped fs fs' r curr name flags type (.ok k)
  | failed {e : ℤ}
      (hwhy : (child fs (fs.islots curr).ino name = .error e ∧ ¬ (e = -enoent ∧ flags &&& oCreat ≠ 0)) ∨
        (child fs (fs.islots curr).ino name = .error (-enoent) ∧ freeInodes fs.store = ∅))
      (hshrink : Shrinks fs fs') (hgrown : Extends fs fs') (hsound : SoundTree fs' r)
      (hcount : Balanced fs fs' 0) : Stepped fs fs' r curr name flags type (.error e)
  | made {k : Fin inodeCacheSize} (hchild : child fs (fs.islots curr).ino name = .error (-enoent))
      (hflags : flags &&& oCreat ≠ 0) (hlen : name.length < maxname)
      (hmakes : Makes fs fs' (fs.islots curr).ino name type (fs'.islots k).ino)
      (hsound : SoundTree fs' (bump r k)) (hcount : Balanced fs fs' (Pi.single k 1)) :
      Stepped fs fs' r curr name flags type (.ok k)
  | lost {e : ℤ} {k : Fin inodeCacheSize} (hchild : child fs (fs.islots curr).ino name = .error (-enoent))
      (hflags : flags &&& oCreat ≠ 0) (hfree : (freeInodes fs.store).Nonempty)
      (hwhy : maxname ≤ name.length ∨
        (freeBlks fs.store).card < newBlks fs.store (inodeOf fs (fs.islots curr).ino))
      (hinv : FsInv fs') (hgrows : Grows fs.store fs'.store) (hcount : Balanced fs fs' (Pi.single k 1)) :
      Stepped fs fs' r curr name flags type (.error e)
  | stuck {k : Fin inodeCacheSize} (hchild : child fs (fs.islots curr).ino name = .error (-enoent))
      (hflags : flags &&& oCreat ≠ 0) (hfree : (freeInodes fs.store).Nonempty)
      (hwhy : (freeBlks fs.store).card < newBlks fs.store (inodeOf fs (fs.islots curr).ino))
      (hstuck : Stuck fs fs' k type) (hcount : Balanced fs fs' (Pi.single k 1)) :
      Stepped fs fs' r curr name flags type (.ok k)

section Step

variable {fs fs' fs₂ : Filesys} {r : Fin inodeCacheSize → ℕ} {curr k : Fin inodeCacheSize} {name : List UInt8}
  {stack : Bytes} {found : Except ℤ (Fin inodeCacheSize)}

theorem inodeCreate_full (wf : fs.store.sb.WellFormed) (hmax : nbInodes fs.store.sb < 2 ^ 31) {type : InodeType}
    {e : ℤ} (hc : inodeCreate fs type = some (.error e, fs')) : freeInodes fs.store = ∅ ∧ fs' = fs := by
  rcases ibmAlloc_cases wf hmax with hfail | ⟨id, s, halloc, hid, -, hmeta, -, -⟩
  · have hsame : fs' = fs := by
      rcases inodeCreate_cases wf hmax hc with ⟨-, hsame⟩ | ⟨_, _, _, _, _, _, _, hok, _⟩
      · exact hsame
      · cases hok
    refine ⟨Finset.eq_empty_iff_forall_notMem.mpr fun ino hmem => ?_, hsame⟩
    obtain ⟨hlt, hclear⟩ := Finset.mem_filter.mp hmem
    rw [Finset.mem_range] at hlt
    rcases bmAlloc_spec fs.store (inodeRegion fs.store.sb) with ⟨-, hset⟩ | ⟨n, -, hbound, -, halloc⟩
    · have hbits := wf.inode_bits
      simp only [fsBmBitsPerBlk] at hbits
      have hbit := hset ino (hlt.trans_le hbits) (by change 0 + ino < _; rw [Nat.zero_add]; exact hlt)
      rw [show regionBit fs.store (inodeRegion fs.store.sb) ino = false from hclear] at hbit
      cases hbit
    · have hn : n < nbInodes fs.store.sb := by simpa [inodeRegion] using hbound
      have hfst := congrArg Prod.fst (hfail.symm.trans halloc)
      rw [show asInt32 ((inodeRegion fs.store.sb).base + n) = n from by
        change asInt32 (0 + n) = n
        rw [Nat.zero_add]
        exact asInt32_of_lt (by omega)] at hfst
      simp only [enospc] at hfst
      omega
  · obtain ⟨_, _, _, hok, _⟩ := inodeCreate_of_alloc halloc hid hmeta.sb hc
    cases hok

theorem SoundTree.lookup (h : SoundTree fs r) (hk : 0 < r curr) (hname : 0 ∉ name)
    (hl : dirLookup stack fs curr name = some (found, fs')) :
    child fs (fs.islots curr).ino name = found.map (fun k => (fs'.islots k).ino) ∧ Shrinks fs fs' ∧
      Stays fs fs' r ∧ SoundTree fs' (match found with | .ok k => bump r k | .error _ => r) ∧
      (found = .error (-enoent) → (effective fs curr).type = .directory) := by
  obtain ⟨hinv, hshrink, hstay, hlooked⟩ := h.inv.lookup h.held hk hl
  have hlt := h.held.ino_lt curr hk
  have hcount := Balanced.lookup hlt hl
  have hstored : Stored fs (fs.islots curr).ino (effective fs curr) := Stored.effective fun _ => hlt
  rw [h.inv.wellFormedTree.child_eq hlt hstored]
  cases found with
  | ok k =>
    obtain ⟨hheld, hdir, e, he, hnamed, hfirst, hino⟩ := hlooked
    have hwf := (h.inv.dirs _ _ hstored hdir).toWellFormedDir
    have hiff := fun e he => named_iff (e := e) hwf.entries hname he
    obtain ⟨hused, hname'⟩ := (hiff e he).mp hnamed
    refine ⟨?_, hshrink, hstay, h.shrinks hinv hshrink hheld (h.pinned.trans_le (le_bump r k _)) hcount, nofun⟩
    rw [dirFind_of_first hdir hwf.size he hused hname' fun e' he' hn =>
      hfirst e' he' ((hiff e' (by omega)).mpr hn)]
    exact congrArg Except.ok hino.symm
  | error err =>
    obtain ⟨hheld, hwhy⟩ := hlooked
    refine ⟨?_, hshrink, hstay, h.shrinks hinv hshrink hheld h.pinned hcount, fun herr => ?_⟩
    · rcases hwhy with ⟨hfile, rfl⟩ | ⟨hdir, rfl, hnone⟩
      · exact dirFind_of_file hfile
      · have hwf := (h.inv.dirs _ _ hstored hdir).toWellFormedDir
        exact dirFind_of_none hdir fun e he hn => hnone e he ((named_iff hwf.entries hname he).mpr hn)
    · rcases hwhy with ⟨-, rfl⟩ | ⟨hdir, -, -⟩
      · exact absurd (Except.error.inj herr) (by decide)
      · exact hdir

theorem SoundTree.put (h : SoundTree fs (bump r k)) (hr : 0 < r fs.root) (hp : inodePut fs k = some fs') :
    SoundTree fs' r ∧ Shrinks fs fs' ∧ Extends fs fs' ∧ Balanced fs fs' (Pi.single k (-1)) ∧
      ∀ j, (fs'.islots j).ino = (fs.islots j).ino := by
  obtain ⟨hinv, hshrink⟩ := h.inv.put hp
  obtain ⟨hstay, hheld⟩ := Held.put h.held h.inv hp
  have hcount := Balanced.put (h.inv.linked k) hp
  refine ⟨h.shrinks hinv hshrink hheld hr hcount, hshrink, Extends.of_shrinks h.inv hshrink hr hstay, hcount,
    fun j => ?_⟩
  obtain rfl := inodePut_eq_some (h.inv.linked k) hp
  by_cases hj : j = k
  · rw [hj, setSlot_self]
  · rw [setSlot_ne _ hj]

theorem SoundTree.get_root {fs₁ : Filesys} (h : SoundTree fs r)
    (hget : inodeGet fs (fs.islots fs.root).ino = some (curr, fs₁)) :
    SoundTree fs₁ (bump r curr) ∧ Shrinks fs fs₁ ∧ Extends fs fs₁ ∧ Balanced fs fs₁ (Pi.single curr 1) ∧
      (fs₁.islots curr).ino = (fs.islots fs.root).ino := by
  have hrooted := h.inv.rooted
  obtain ⟨hinv, hshrink⟩ := h.inv.get hrooted (h.inv.cached _ hrooted) (h.inv.disk_linked _ hrooted) hget
  obtain ⟨hstay, hheld, hino⟩ := h.held.get hrooted hget
  have hcount := Balanced.get hget
  exact ⟨h.shrinks hinv hshrink hheld (h.pinned.trans_le (le_bump r curr _)) hcount, hshrink,
    Extends.of_shrinks h.inv hshrink h.pinned hstay, hcount, hino⟩

theorem SoundTree.child_shrinks (h : SoundTree fs r) (hs : Shrinks fs fs') {dir : ℕ}
    (hlt : dir < nbInodes fs.store.sb) (name : List UInt8) : child fs' dir name = child fs dir name := by
  have hlt' : dir < nbInodes fs'.store.sb := by rw [hs.store]; exact hlt
  have hd := hs.stored dir _ (stored_inodeOf hlt')
  rw [h.inv.wellFormedTree.child_eq hlt hd, child, hs.store]

theorem SoundTree.inodeOf_shrinks (h : SoundTree fs r) (hs : Shrinks fs fs') {dir : ℕ}
    (hlt : dir < nbInodes fs.store.sb) (hdir : (inodeOf fs dir).type = .directory) :
    inodeOf fs' dir = inodeOf fs dir :=
  h.synced dir _ _ (stored_inodeOf hlt) (hs.stored dir _ (stored_inodeOf (by rw [hs.store]; exact hlt))) hdir

theorem Makes.of_shrinks {dir x : ℕ} {type : InodeType} (h : Makes fs₂ fs' dir name type x)
    (hsound : SoundTree fs r) (hs : Shrinks fs fs₂) (hgrown : Extends fs fs₂) (hlt : dir < nbInodes fs.store.sb)
    (hdir : (inodeOf fs dir).type = .directory) : Makes fs fs' dir name type x := by
  have hof := hsound.inodeOf_shrinks hs hlt hdir
  have hstore := hs.store
  refine ⟨hgrown.trans h.grown hsound.inv.toFsInv, ?_, ?_, ?_, ?_, h.entered, h.content, ?_,
    fun ino d hd hne hne' => hs.stored ino d (h.kept ino d hd hne hne')⟩
  · rw [← hstore]
    exact h.lt
  · rw [← hstore]
    exact h.free
  · rw [← hstore]
    exact h.bits
  · rw [← hstore, ← hof]
    exact h.blks
  · rw [← hof]
    exact h.size

theorem Stuck.of_shrinks {type : InodeType} (h : Stuck fs₂ fs' k type) (hs : Shrinks fs fs₂)
    (hgrown : Extends fs fs₂) : Stuck fs fs' k type := by
  have hstore := hs.store
  refine ⟨⟨h.sb.trans hgrown.sb, h.root.trans hgrown.root, ?_, h.bit, ?_⟩, h.inv, h.full, ?_, h.held, h.valid, h.content⟩
  · rw [← hstore]
    exact h.free
  · rw [← hstore]
    exact h.entries
  · rw [← hstore]
    exact h.refused

theorem SoundTree.step (h : SoundTree fs r) (hk : 0 < r curr) (hname : 0 ∉ name) {flags : ℕ}
    {leafType : InodeType} {leaf : Bool}
    (hs : stepPath stack flags leafType fs curr name leaf = some (found, fs')) :
    Stepped fs fs' r curr name flags (if leaf then leafType else .directory) found := by
  simp only [Fs.stepPath, Option.bind_eq_bind, Option.pure_def] at hs
  obtain ⟨⟨looked, fs₁⟩, hlookup, hs⟩ := Option.bind_eq_some_iff.mp hs
  obtain ⟨hchild, hshrink, hstay, hsound, hisdir⟩ := h.lookup hk hname hlookup
  have hlt := h.held.ino_lt curr hk
  have hgrown := Extends.of_shrinks h.inv hshrink h.pinned hstay
  have hcount := Balanced.lookup hlt hlookup
  cases looked with
  | ok j =>
    cases hs
    exact .found hchild hshrink hgrown hsound hcount
  | error err =>
    dsimp only at hs hsound
    have hchild' : child fs (fs.islots curr).ino name = .error err := hchild
    by_cases hcreate : err = -enoent ∧ flags &&& oCreat ≠ 0
    · rw [if_pos hcreate] at hs
      obtain ⟨rfl, hflags⟩ := hcreate
      obtain ⟨hino, hcurr⟩ := hstay curr hk
      have hdir := hisdir rfl
      have hdir₁ : (effective fs₁ curr).type = .directory := by rw [hcurr]; exact hdir
      have hof := (h.directory hk hdir).2.1
      have hmiss₁ : child fs₁ (fs₁.islots curr).ino name = .error (-enoent) := by
        rw [hino, h.child_shrinks hshrink hlt]
        exact hchild'
      obtain ⟨⟨created, fs₂⟩, hc, hs⟩ := Option.bind_eq_some_iff.mp hs
      cases created with
      | error e =>
        cases hs
        obtain ⟨hfull, rfl⟩ := inodeCreate_full hsound.inv.apart.wf hsound.inv.inodes hc
        rw [hshrink.store] at hfull
        exact .failed (.inr ⟨hchild', hfull⟩) hshrink hgrown hsound hcount
      | ok k =>
        obtain ⟨⟨res, fs₃⟩, ha, hs⟩ := Option.bind_eq_some_iff.mp hs
        dsimp only at hs
        have hnew := hsound.inv.newInode hsound.zeroed hc
        have hfree : (freeInodes fs.store).Nonempty := by
          have hx := hnew.ino_lt
          rw [hnew.store.sb, hshrink.store] at hx
          have hclear := hnew.free
          rw [hshrink.store] at hclear
          exact ⟨_, Finset.mem_filter.mpr ⟨Finset.mem_range.mpr hx, hclear⟩⟩
        obtain ⟨-, hr₂⟩ := hsound.held.create hsound.inv hc
        have hall : Balanced fs fs₃ (Pi.single k 1) := by
          have hbal := (hcount.trans (Balanced.create hsound.inv.apart.wf hsound.inv.inodes hc)).trans
            (Balanced.addEntry (hr₂.ino_lt curr (hk.trans_le (le_bump r k curr))) ha)
          simpa [reference] using hbal
        split_ifs at hs with hneg
        · cases hs
          obtain ⟨hinv, hgrows, hwhy⟩ := hsound.lost hk hdir₁ hc ha hneg
          rw [hshrink.store] at hgrows hwhy
          rw [hcurr] at hwhy
          exact .lost hchild' hflags hfree (by rw [hof]; exact hwhy) hinv hgrows hall
        · cases hs
          by_cases hfit : EntryFits fs₁.store (effective fs₁ curr)
          · obtain ⟨hsound', hlen, hmakes⟩ :=
              hsound.make hk hdir₁ hc ha hmiss₁ hname hfit (not_lt.mp hneg)
            rw [hino] at hmakes
            exact .made hchild' hflags hlen
              (hmakes.of_shrinks h hshrink hgrown hlt (by rw [hof]; exact hdir)) hsound' hall
          · obtain ⟨hstuck, hwhy⟩ := hsound.stuck hk hdir₁ hc ha hfit (not_lt.mp hneg)
            rw [hshrink.store, hcurr] at hwhy
            exact .stuck hchild' hflags hfree (by rw [hof]; exact hwhy) (hstuck.of_shrinks hshrink hgrown) hall
    · rw [if_neg hcreate] at hs
      cases hs
      exact .failed (.inl ⟨hchild', hcreate⟩) hshrink hgrown hsound hcount

end Step

theorem ImageOf.soundTree {files : List HostFile} {img : Bytes} (h : ImageOf files img) :
    SoundTree (mounted img files.length) (bump (fun _ => 0) (mounted img files.length).root) := by
  have hlt := h.inodes_lt
  have hinv := h.dirInv
  have hroot : (mounted img files.length).islots 0 = ⟨1, 1, false, true, rootDinode files.length⟩ := by
    rw [mounted, setSlot_self]
  have hother : ∀ k ≠ 0, (mounted img files.length).islots k = ⟨0, 2 ^ 32 - 1, false, false, Dinode.zero⟩ := by
    intro k hk
    rw [mounted, setSlot_ne _ hk]
    rfl
  rw [show (mounted img files.length).root = 0 from rfl]
  refine ⟨hinv, ⟨fun k => ?_, fun k hk => ?_⟩, Nat.zero_lt_one, fun k => ?_, ?_,
    fun ino hino hbit => ?_, fun ino d d' hd hd' _ => ?_, fun ino d hd hdir n hn => ?_, rfl⟩
  · by_cases hk : k = 0
    · rw [hk, hroot]
      rfl
    · rw [hother k hk, Follows.bump_of_ne hk]
      exact le_rfl
  · by_cases h0 : k = 0
    · rw [h0, hroot]
      exact (by decide : 1 < nbInodes superblock)
    · rw [Follows.bump_of_ne h0] at hk
      exact absurd hk (lt_irrefl 0)
  · by_cases hk : k = 0
    · rw [hk, hroot]
    · rw [hother k hk]
  · exact (h.inodeBit (by norm_num)).trans (decide_eq_true (by omega))
  · have hino' : ino < 320 := hino
    refine h.dinode_free hino' (.inr ?_)
    have hb := (h.inodeBit hino').symm.trans hbit
    simpa using hb
  · rw [(Stored.of_mounted h hd).2, (Stored.of_mounted h hd').2]
  · obtain ⟨hino, rfl⟩ := Stored.of_mounted h hd
    rcases h.dinode_cases hino with ⟨-, heq⟩ | ⟨j, hj, -, heq⟩ | ⟨-, heq⟩
    · rw [heq]
      change ptr (imgStore img) _ n = 0 ∨ IsBlk (ptr (imgStore img) _ n)
      rw [h.ptr_root (by simp only [fsInodeDirDblkno] at hn; omega)]
      split_ifs
      · exact .inr ⟨by norm_num, by norm_num⟩
      · exact .inl rfl
    · rw [heq] at hdir
      cases hdir
    · rw [heq] at hdir
      cases hdir

end RvMiniOs.Fs
