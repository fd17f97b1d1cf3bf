import RvMiniOs.Fs.Directories
import RvMiniOs.Fs.Formatted

/-!
# Names in directories and paths

What `dir_lookup`, `dir_add_entry` and `fs_inode_from_path` do to a file system
whose directories are sound: a lookup changes no entry, an insertion adds one entry
to one directory or none at all, and slots that somebody holds keep their inodes. A
freshly mounted image is such a file system.
-/

namespace RvMiniOs.Fs

open Lib Function Option Filesys Finset

section Paths

variable {fs fs' : Filesys} {k curr : Fin inodeCacheSize} {r : Fin inodeCacheSize → ℕ}
  {stack : Bytes} {name : List UInt8} {res : ℤ}

structure Held (fs : Filesys) (r : Fin inodeCacheSize → ℕ) : Prop where
  backed : Backed fs r
  ino_lt : ∀ k, 0 < r k → (fs.islots k).ino < nbInodes fs.store.sb

def Stays (fs fs' : Filesys) (r : Fin inodeCacheSize → ℕ) : Prop :=
  ∀ j, 0 < r j → (fs'.islots j).ino = (fs.islots j).ino ∧ effective fs' j = effective fs j

theorem Stays.refl (fs : Filesys) (r : Fin inodeCacheSize → ℕ) : Stays fs fs r :=
  fun _ _ => ⟨rfl, rfl⟩

theorem Stays.trans {fs'' : Filesys} (h : Stays fs fs' r) (h' : Stays fs' fs'' r) :
    Stays fs fs'' r := fun j hj =>
  ⟨(h' j hj).1.trans (h j hj).1, (h' j hj).2.trans (h j hj).2⟩

theorem Held.stays (h : Held fs r) (hs : Stays fs fs' r) (hsb : fs'.store.sb = fs.store.sb)
    (hb : Backed fs' r) : Held fs' r :=
  ⟨hb, fun k hk => by rw [(hs k hk).1, hsb]; exact h.ino_lt k hk⟩

theorem Stays.setSlot {i : Inode} (hino : i.ino = (fs.islots k).ino)
    (hcontent : (if i.valid then i.content else diskDinode fs.store i.ino) = effective fs k) :
    Stays fs (fs.setSlot k i) r := by
  intro j _
  by_cases hj : j = k
  · subst hj
    unfold effective
    rw [setSlot_self]
    exact ⟨hino, hcontent⟩
  · unfold effective
    rw [setSlot_ne i hj]
    exact ⟨rfl, rfl⟩

theorem Stays.unlock (fs : Filesys) (k : Fin inodeCacheSize) : Stays fs (inodeUnlock fs k) r :=
  Stays.setSlot rfl rfl

theorem Held.lock (h : Held fs r) (hk : 0 < r k) (hl : inodeLock fs k = some (res, fs')) :
    res = 0 ∧ fs' = fs.setSlot k (lockedSlot fs k) ∧ Stays fs fs' r ∧ Held fs' r := by
  rcases inodeLock_cases hl with ⟨-, -, hge, -⟩ | ⟨rfl, -, rfl⟩
  · exact absurd (h.ino_lt k hk) (not_lt.mpr hge)
  · have hstay : Stays fs (fs.setSlot k (lockedSlot fs k)) r := Stays.setSlot rfl rfl
    exact ⟨rfl, rfl, hstay, h.stays hstay rfl (h.backed.lock hl)⟩

theorem Held.unlock (h : Held fs r) (k : Fin inodeCacheSize) : Held (inodeUnlock fs k) r :=
  h.stays (Stays.unlock fs k) rfl (h.backed.unlock k)

theorem Held.get (h : Held fs r) {ino : ℕ} (hlt : ino < nbInodes fs.store.sb)
    (hg : inodeGet fs ino = some (k, fs')) :
    Stays fs fs' r ∧ Held fs' (bump r k) ∧ (fs'.islots k).ino = ino := by
  obtain ⟨i, heq, hino, -⟩ := inodeGet_slot hg
  have hstore : fs'.store = fs.store := by rw [heq]; rfl
  have hself : (fs'.islots k).ino = ino := by
    rw [heq]
    exact (congrArg Inode.ino (setSlot_self fs k i)).trans hino
  have hstay : Stays fs fs' r := by
    intro j hj
    obtain ⟨hino', hvalid, hcontent⟩ := h.backed.get_slot hg hj
    unfold effective
    rw [hino', hvalid, hcontent, hstore]
    exact ⟨rfl, rfl⟩
  refine ⟨hstay, ⟨h.backed.get hg, fun j hj => ?_⟩, hself⟩
  by_cases hjk : j = k
  · rw [hjk, hself, hstore]
    exact hlt
  · rw [bump, update_of_ne hjk] at hj
    rw [(hstay j hj).1, hstore]
    exact h.ino_lt j hj

theorem Held.put (h : Held fs (bump r k)) (hinv : DirInv fs) (hp : inodePut fs k = some fs') :
    Stays fs fs' r ∧ Held fs' r := by
  obtain rfl := inodePut_eq_some (hinv.linked k) hp
  have hstay : Stays fs (fs.setSlot k { fs.islots k with refcnt := (fs.islots k).refcnt - 1 }) r :=
    Stays.setSlot rfl rfl
  have hback := h.backed.put (hinv.linked k) hp
  refine ⟨hstay, hback, fun j hj => ?_⟩
  rw [(hstay j hj).1]
  refine h.ino_lt j ?_
  rw [bump, update_apply]
  split <;> omega

def Looked (fs fs' : Filesys) (r : Fin inodeCacheSize → ℕ) (k : Fin inodeCacheSize)
    (name : List UInt8) : Except ℤ (Fin inodeCacheSize) → Prop
  | .ok j => Held fs' (bump r j) ∧ (effective fs k).type = .directory ∧
      ∃ e, 20 * e < (effective fs k).size.toNat ∧ Named fs.store (effective fs k) name e ∧
        (∀ e' < e, ¬ Named fs.store (effective fs k) name e') ∧
        (fs'.islots j).ino = entryInum fs.store (effective fs k) e
  | .error err => Held fs' r ∧
      (((effective fs k).type ≠ .directory ∧ err = -enotdir) ∨
        ((effective fs k).type = .directory ∧ err = -enoent ∧
          ∀ e, 20 * e < (effective fs k).size.toNat → ¬ Named fs.store (effective fs k) name e))

theorem DirInv.lookup (h : DirInv fs) (hr : Held fs r) (hk : 0 < r k)
    {found : Except ℤ (Fin inodeCacheSize)} (hl : dirLookup stack fs k name = some (found, fs')) :
    DirInv fs' ∧ Shrinks fs fs' ∧ Stays fs fs' r ∧ Looked fs fs' r k name found := by
  simp only [dirLookup, bind_eq_bind, Option.pure_def] at hl
  obtain ⟨⟨res₁, fs₁⟩, hlock, hl⟩ := bind_eq_some_iff.mp hl
  dsimp only at hl
  obtain ⟨rfl, hfs₁, hstay₁, hr₁⟩ := hr.lock hk hlock
  obtain ⟨h₁, hshrink₁⟩ := h.lock hlock
  have hslot : fs₁.islots k = lockedSlot fs k := by rw [hfs₁, Filesys.setSlot_self]
  have hvalid : (fs₁.islots k).valid = true := by rw [hslot]; rfl
  have hcontent : (fs₁.islots k).content = effective fs k := by rw [hslot]; rfl
  rw [if_neg (lt_irrefl 0), hcontent] at hl
  obtain ⟨hunlock, hshrink'⟩ := h₁.unlock k
  split_ifs at hl with htype
  · cases hl
    exact ⟨hunlock, hshrink₁.trans hshrink', hstay₁.trans (Stays.unlock fs₁ k), hr₁.unlock k,
      .inl ⟨htype, rfl⟩⟩
  rw [not_not] at htype
  have hsound := h₁.dirs _ _ (.inr ⟨k, hvalid, rfl, rfl⟩) (by rw [hcontent, htype])
  have hmax := h₁.size_le hsound
  obtain ⟨hsame, hres⟩ := hsound.dirLookupFrom (by omega) name stack 0
  rw [Nat.mul_zero] at hsame hres
  -- the scan changes neither the store nor the slot
  have hstore : (dirLookupFrom fs₁.store (fs₁.islots k) name stack 0).2.1 = fs₁.store := by rw [hsame]
  have hinode : (dirLookupFrom fs₁.store (fs₁.islots k) name stack 0).2.2 = fs₁.islots k := by
    rw [hsame]
  have hfs : fs₁.setSlot k (fs₁.islots k) = fs₁ := by simp [Filesys.setSlot]
  rw [hstore, hinode, hfs] at hl
  rw [hcontent] at hres
  rcases hres with ⟨e, he, hnamed, hfirst, hfound⟩ | ⟨hnone, hfound⟩
  · rw [hfound] at hl
    obtain ⟨⟨j, fs₂⟩, hget, hl⟩ := bind_eq_some_iff.mp hl
    cases hl
    rw [hcontent] at hsound
    obtain ⟨-, hlt, hbit⟩ := hsound.entries e (by simpa only [sizeofDirent] using he) hnamed.1
    obtain ⟨h₂, hshrink₂⟩ := h₁.get hlt hbit (h₁.entered _ hlt hnamed.1 hbit) hget
    obtain ⟨hstay₂, hr₂, hino⟩ := hr₁.get hlt hget
    obtain ⟨h₃, hshrink₃⟩ := h₂.unlock k
    have hinoj : ((inodeUnlock fs₂ k).islots j).ino = (fs₂.islots j).ino :=
      ((Stays.unlock (r := bump r j) fs₂ k) j (by simp [bump])).1
    rw [hshrink₁.store] at hnamed hfirst hino
    exact ⟨h₃, (hshrink₁.trans hshrink₂).trans hshrink₃,
      (hstay₁.trans hstay₂).trans (Stays.unlock fs₂ k), hr₂.unlock k, htype, e, he, hnamed,
      fun e' hlt' => hfirst e' hlt' (Nat.zero_le e'), hinoj.trans hino⟩
  · rw [hfound] at hl
    rw [hshrink₁.store] at hnone
    cases hl
    exact ⟨hunlock, hshrink₁.trans hshrink', hstay₁.trans (Stays.unlock fs₁ k), hr₁.unlock k,
      .inr ⟨htype, rfl, fun e he => hnone e (Nat.zero_le e) he⟩⟩

theorem Touches.held (h : Touches fs fs' k) (hr : Held fs r) : Held fs' r := by
  have hslot : ∀ j, (fs'.islots j).ino = (fs.islots j).ino ∧
      (fs'.islots j).refcnt = (fs.islots j).refcnt := by
    intro j
    by_cases hj : j = k
    · rw [hj]
      exact h.slot
    · rw [h.slots j hj]
      exact ⟨rfl, rfl⟩
  refine ⟨fun j => ?_, fun j hj => ?_⟩
  · rw [(hslot j).2]
    exact hr.backed j
  · rw [(hslot j).1, h.sb]
    exact hr.ino_lt j hj

theorem Touches.effective (h : Touches fs fs' k) (hinv : DirInv fs) (hr : Held fs r)
    {j : Fin inodeCacheSize} (hj : 0 < r j) (hne : j ≠ k) : effective fs' j = effective fs j := by
  have hlt := hr.ino_lt j hj
  have hino : (fs.islots j).ino ≠ (fs.islots k).ino := fun heq => hne (hinv.distinct j k heq hlt)
  unfold Fs.effective
  rw [h.slots j hne, h.disk _ hlt hino]

theorem Touches.of_locked (h : Touches (fs.setSlot k (lockedSlot fs k)) fs' k) : Touches fs fs' k := by
  have hself : (fs.setSlot k (lockedSlot fs k)).islots k = lockedSlot fs k := setSlot_self ..
  have hslot := h.slot
  have hdisk := h.disk
  have hdirs := h.dirs
  rw [hself] at hslot hdisk hdirs
  refine ⟨h.sb, h.root, h.count, fun j hj => ?_, hslot, hdisk, fun ino d hd hne => hdirs ino d ?_ hne⟩
  · rw [h.slots j hj, setSlot_ne _ hj]
  · rcases hd with hdisk' | ⟨j, hv, hino, hcontent⟩
    · exact .inl hdisk'
    · have hj : j ≠ k := by
        rintro rfl
        exact hne hino.symm
      refine .inr ⟨j, ?_, ?_, ?_⟩ <;> rw [setSlot_ne _ hj] <;> assumption

theorem Touches.stored (h : Touches fs fs' k) {ino : ℕ} {d : Dinode} (hd : Stored fs' ino d)
    (hne : ino ≠ (fs.islots k).ino) : Stored fs ino d := by
  rcases hd with ⟨hlt, rfl⟩ | ⟨j, hv, hino, hcontent⟩
  · rw [h.sb] at hlt
    exact .inl ⟨hlt, h.disk ino hlt hne⟩
  · have hj : j ≠ k := by
      rintro rfl
      exact hne (hino.symm.trans h.slot.1)
    rw [h.slots j hj] at hv hino hcontent
    exact .inr ⟨j, hv, hino, hcontent⟩

theorem Extending.recorded {S : Contents} {ino : ℕ} {s s' : Store} {i i' : Inode} {src : Bytes} {c : Cursor}
    (hc : Extending S ino s i src c) (hmax : i.content.size.toNat + 20 ≤ 12 * 4096)
    (hi' : i' = { c.inode with content := { c.inode.content with
      size := UInt32.ofNat (i.content.size.toNat + c.done) } })
    (hs' : s' = (markDirtyLocked c.store i').2) :
    Holds s' i'.content (i.content.size.toNat + c.done)
      (splice (fileByte s i.content) i.content.size.toNat c.done src) := by
  have hle := hc.done_le
  have hmeta : MetaOnly c.store s' := hs' ▸ markDirtyLocked_metaOnly hc.fills.guarded.wf i'
  intro n hn
  obtain ⟨hpos, hlt, hbyte⟩ := hc.holds n hn
  have h12 : n / 4096 < 12 := by omega
  have hptr : ptr s' i'.content (n / 4096) = ptr c.store c.inode.content (n / 4096) := by
    rw [hi']
    simp [ptr, h12]
  have hlo := hc.fills.guarded.data_lo (n := n / 4096) (.inr ⟨rfl, rfl⟩) (by omega) hpos.ne'
  rw [hptr, hmeta.frame _ (.inr (.inr hlo))]
  exact ⟨hpos, hlt, hbyte⟩

theorem DirInv.stored_recorded (h : DirInv fs) (hvalid : (fs.islots k).valid = true) {s s' : Store} {i' : Inode}
    (hsb : s.sb = fs.store.sb) (hino : i'.ino = (fs.islots k).ino) (hs' : s' = (markDirtyLocked s i').2)
    {d : Dinode} (hd : Stored (inodeUnlock ({ fs with store := s' }.setSlot k i') k) (fs.islots k).ino d) :
    d = i'.content := by
  have hlt := h.ino_lt k hvalid
  rw [inodeUnlock_setSlot] at hd
  rcases hd with ⟨-, rfl⟩ | ⟨j, -, hj, rfl⟩
  · change diskDinode s' (fs.islots k).ino = i'.content
    rw [hs', diskDinode_markDirtyLocked (by rw [hino, hsb]; exact hlt), hino, if_pos rfl]
  · by_cases hjk : j = k
    · rw [hjk, setSlot_self]
    · rw [setSlot_ne _ hjk] at hj
      exact absurd (h.distinct j k hj (hj ▸ hlt)) hjk

theorem DirInv.append (h : DirInv fs) (hvalid : (fs.islots k).valid = true)
    (hdir : (fs.islots k).content.type = .directory)
    (hroom : (fs.islots k).content.size.toNat + 20 ≤ 20 * allocated fs.store) {src : Bytes}
    (hgood : GoodEntry fs.store src) {c : Cursor} {s' : Store} {i' : Inode}
    (hc : Appending (Stored fs) (fs.islots k).ino fs.store (fs.islots k) src c) (hdone : c.done = 20)
    (hi' : i' = { c.inode with content := { c.inode.content with
      size := UInt32.ofNat ((fs.islots k).content.size.toNat + 20) } })
    (hs' : s' = (markDirtyLocked c.store i').2) :
    DirInv (inodeUnlock ({ fs with store := s' }.setSlot k i') k) ∧
      ∀ d, Stored (inodeUnlock ({ fs with store := s' }.setSlot k i') k) (fs.islots k).ino d →
        OneMore fs.store (fs.islots k).content s' d src := by
  obtain ⟨p, hp⟩ := hc.fills.inode
  have hino : i'.ino = (fs.islots k).ino := by rw [hi', hp]
  have hgrow : Grows fs.store s' := by
    rw [hs']
    exact (Grows.of_keeps h.apart.wf hc.fills.keeps).trans (Grows.markDirtyLocked hc.fills.guarded.wf i')
  have hmax : (fs.islots k).content.size.toNat + 20 ≤ 12 * 4096 := by
    have hle := allocated_le fs.store
    have hsmall := h.small
    omega
  have hsize : i'.content.size.toNat = (fs.islots k).content.size.toNat + 20 := by
    rw [hi']
    exact UInt32.toNat_ofNat_of_lt' (show _ < 2 ^ 32 by omega)
  have hsound := h.dirs _ _ (.inr ⟨k, hvalid, rfl, rfl⟩) hdir
  have hold := Extending.recorded ⟨hc.fills, hc.done_le, hc.offset, hc.holds⟩ hmax (by rw [hdone]; exact hi') hs'
  rw [hdone] at hold
  have hnew : DirSound s' i'.content := by
    refine hsound.appended hgrow hsize hold (hgood.congr hgrow fun _ _ => rfl) ?_
    rw [hsize]
    exact hroom.trans (Nat.mul_le_mul_left 20 (allocated_mono hgrow))
  have heq := fun d hd => h.stored_recorded (d := d) hvalid hc.fills.keeps.sb hino hs' hd
  refine ⟨h.access hvalid hc.fills ⟨⟨_, hi'⟩, .inr hs'⟩ fun _ d hd => ?_, fun d hd => ?_⟩
  · rw [heq d hd]
    exact ⟨hnew, Twin.refl _⟩
  · rw [heq d hd]
    exact ⟨by rw [hi', hp], hsize, fun n hn => (hold n hn).2.2⟩

def EntryAdded (fs fs' : Filesys) (k : Fin inodeCacheSize) (entry : Bytes) (res : ℤ) : Prop :=
  ∀ d, Stored fs' (fs.islots k).ino d →
    (0 ≤ res ∧ OneMore fs.store (effective fs k) fs'.store d entry) ∨
      (res < 0 ∧ SameDir fs.store (effective fs k) fs'.store d)

theorem DirInv.addEntry (h : DirInv fs) (hr : Held fs r) (hk : 0 < r k)
    (hdir : (effective fs k).type = .directory) (hfit : EntryFits fs.store (effective fs k))
    (hroom : (effective fs k).size.toNat + 20 ≤ 20 * allocated fs.store) {inum : ℕ}
    (hlt : inum < nbInodes fs.store.sb) (hbit : inodeBit fs.store inum = true)
    (ha : dirAddEntry stack fs k name inum = some (res, fs')) : DirInv fs' ∧ Touches fs fs' k ∧
    EntryAdded fs fs' k (newDirent stack name inum) res ∧ (res < 0 → maxname ≤ name.length ∨
    ¬ Available fs.store (effective fs k) ((effective fs k).size.toNat / 4096)) := by
  have hstored : Stored fs (fs.islots k).ino (effective fs k) :=
    Stored.effective fun _ => hr.ino_lt k hk
  simp only [dirAddEntry, bind_eq_bind, Option.pure_def] at ha
  split_ifs at ha with hlong
  · cases ha
    refine ⟨h, ⟨rfl, rfl, le_rfl, fun _ _ => rfl, ⟨rfl, rfl⟩, fun _ _ _ => rfl,
      fun _ _ _ _ _ => SameDir.refl _ _⟩, fun d hd => .inr ⟨by decide, h.same hstored hd hdir⟩,
      fun _ => .inl (Nat.lt_succ_iff.mp hlong)⟩
  obtain ⟨⟨res₁, fs₁⟩, hlock, ha⟩ := bind_eq_some_iff.mp ha
  obtain ⟨h₁, hshrink⟩ := h.lock hlock
  obtain ⟨rfl, hfs₁, -, -⟩ := hr.lock hk hlock
  dsimp only at ha
  rw [if_neg (lt_irrefl 0)] at ha
  cases ha
  have hslot : fs₁.islots k = lockedSlot fs k := by rw [hfs₁, setSlot_self]
  have hvalid : (fs₁.islots k).valid = true := by rw [hslot]; rfl
  have hcontent : (fs₁.islots k).content = effective fs k := by rw [hslot]; rfl
  have hino : (fs₁.islots k).ino = (fs.islots k).ino := by rw [hslot]; rfl
  rw [← hcontent, ← hshrink.store] at hfit hroom
  rw [← hcontent] at hdir
  rw [← hshrink.store] at hlt hbit
  have hg := h₁.guarded.congr (Stored.covers_add hvalid)
  have hmax : (fs₁.islots k).content.size.toNat + 20 ≤ 12 * 4096 := by
    have hle := allocated_le fs₁.store
    have hsmall := h₁.small
    omega
  have hgood := goodEntry_newDirent stack (by simp only [maxname] at hlong ⊢; omega : name.length < _)
    h₁.inodes hlt hbit
  unfold EntryAdded
  rw [← hcontent, ← hshrink.store, ← hino]
  rcases hg.append (h₁.dirs _ _ (.inr ⟨k, hvalid, rfl, rfl⟩) hdir) hmax hfit
      (newDirent stack name inum) with ⟨c, hc, hdone, hres, hi', hs'⟩ | ⟨hneg, hnone, hfetch⟩
  · obtain ⟨hinv, hmore⟩ := h₁.append hvalid hdir hroom hgood hc hdone hi' hs'
    have htouch := h₁.touches hvalid hc.fills ⟨⟨_, hi'⟩, .inr hs'⟩
    refine ⟨hinv, (hfs₁ ▸ htouch : Touches (fs.setSlot k (lockedSlot fs k)) _ k).of_locked,
      fun d hd => .inl ⟨?_, hmore d hd⟩, fun hneg => ?_⟩
    · rw [hres]
      decide
    · rw [hres] at hneg
      exact absurd hneg (by decide)
  · have htouch := h₁.fetch_touches hvalid hfetch
    exact ⟨h₁.fetch hvalid hfetch, (hfs₁ ▸ htouch : Touches (fs.setSlot k (lockedSlot fs k)) _ k).of_locked,
      fun d hd => .inr ⟨hneg, h₁.fetch_same hvalid hfetch hdir hd⟩, fun _ => .inr hnone⟩

theorem Held.create (h : Held fs r) (hinv : DirInv fs) {type : InodeType}
    (hc : inodeCreate fs type = some (.ok k, fs')) : Stays fs fs' r ∧ Held fs' (bump r k) := by
  have hcr := hinv.create hc
  obtain ⟨hback, hfree⟩ := h.backed.create hinv hc
  have hstay : Stays fs fs' r := by
    intro j hj
    have hne := hfree j hj
    have hino : (fs.islots j).ino ≠ (fs'.islots k).ino := by
      rw [← hcr.other j hne]
      refine fun heq => hne (hcr.inv.distinct j k heq ?_)
      rw [heq]
      exact hcr.ino_lt
    unfold effective
    rw [hcr.other j hne, hcr.disk _ hino]
    exact ⟨rfl, rfl⟩
  refine ⟨hstay, hback, fun j hj => ?_⟩
  by_cases hjk : j = k
  · rw [hjk]
    exact hcr.ino_lt
  · rw [bump, update_of_ne hjk] at hj
    rw [(hstay j hj).1, hcr.store.sb]
    exact h.ino_lt j hj

theorem DirInv.denied (h : DirInv fs) (deny : List Bool) :
    DirInv { fs with store := { fs.store with deny } } where
  apart := (h.guarded.denied deny).toApart
  inodes := h.inodes
  ino_lt := h.ino_lt
  linked := h.linked
  disk_linked := h.disk_linked
  guarded := h.guarded.denied deny
  small := h.small
  listed := h.listed
  distinct := h.distinct
  cached := h.cached
  rooted := h.rooted
  entered := h.entered
  blank := h.blank
  twins := h.twins
  dirs := fun ino d hd hdir =>
    have hsound := h.dirs ino d hd hdir
    ⟨⟨hsound.size, hsound.entries⟩, hsound.room, hsound.mapped⟩

theorem EntryFits.metaOnly {s s' : Store} {d : Dinode} (h : EntryFits s d) (wf : s.sb.WellFormed)
    (hmax : d.size.toNat + 20 ≤ 12 * 4096) (hmeta : MetaOnly s s') : EntryFits s' d := by
  by_cases hlast : d.size.toNat % fsBlkSize + sizeofDirent ≤ fsBlkSize
  · exact .inl hlast
  · refine .inr ((h.resolve_left hlast).congr ?_ rfl hmeta.sb hmeta.deny fun b hlo hhi => ?_)
    · simp only [fsBlkSize, sizeofDirent] at hlast ⊢
      omega
    · refine dataBit_congr wf hmeta.sb (fun b' hlo' hhi' => hmeta.frame b' (.inr (.inl ?_))) hlo hhi
      have hle := wf.dbm_itab
      omega

theorem DirInv.make (h : DirInv fs) (hr : Held fs r) (hk : 0 < r curr)
    (hdir : (effective fs curr).type = .directory) (hfit : EntryFits fs.store (effective fs curr))
    {type : InodeType} {fs₂ : Filesys} (hc : inodeCreate fs type = some (.ok k, fs₂))
    (ha : dirAddEntry stack fs₂ curr name (fs₂.islots k).ino = some (res, fs')) : DirInv fs' ∧
    Held fs' (bump r k) ∧ (effective fs' k).size = 0 ∧ Touches fs₂ fs' curr ∧
    EntryAdded fs₂ fs' curr (newDirent stack name (fs₂.islots k).ino) res ∧ (res < 0 → maxname ≤
    name.length ∨ ¬ Available fs.store (effective fs curr) ((effective fs curr).size.toNat / 4096)) := by
  have hcr := h.create hc
  obtain ⟨hstay, hr₂⟩ := hr.create h hc
  have hk₂ : 0 < bump r k curr := by
    rw [bump, update_apply]
    split <;> omega
  have hcurr : effective fs₂ curr = effective fs curr := (hstay curr hk).2
  have hsound := h.dirs _ _ (Stored.effective fun _ => hr.ino_lt curr hk) hdir
  have hroom : (effective fs curr).size.toNat + 20 ≤ 20 * allocated fs₂.store := by
    have hle := hsound.room
    have hcount := hcr.count
    omega
  have hmax : (effective fs curr).size.toNat + 20 ≤ 12 * 4096 := by
    have hle := allocated_le fs₂.store
    have hsmall := hcr.inv.small
    omega
  obtain ⟨h', htouch, hadded, hwhy⟩ := hcr.inv.addEntry hr₂ hk₂ (by rw [hcurr]; exact hdir)
    (by rw [hcurr]; exact hfit.metaOnly h.apart.wf hmax hcr.store) (by rw [hcurr]; exact hroom)
    hcr.ino_lt hcr.bit ha
  have hne : k ≠ curr := ((hr.backed.create h hc).2 curr hk).symm
  refine ⟨h', htouch.held hr₂, ?_, htouch, hadded, fun hneg => (hwhy hneg).imp_right fun hno hav => hno ?_⟩
  · unfold effective
    rw [htouch.slots k hne, hcr.valid]
    exact hcr.size
  · rw [hcurr]
    refine hav.congr (by omega) rfl hcr.store.sb hcr.store.deny fun b hlo hhi => ?_
    refine dataBit_congr h.apart.wf hcr.store.sb (fun b' hlo' hhi' => hcr.store.frame b' (.inr (.inl ?_))) hlo hhi
    have hle := h.apart.wf.dbm_itab
    omega

theorem Held.mono {r' : Fin inodeCacheSize → ℕ} (h : Held fs r) (hle : ∀ j, r' j ≤ r j) : Held fs r' :=
  ⟨fun j => (Int.ofNat_le.mpr (hle j)).trans (h.backed j), fun j hj => h.ino_lt j (hj.trans_le (hle j))⟩

theorem le_bump (r : Fin inodeCacheSize → ℕ) (k j : Fin inodeCacheSize) : r j ≤ bump r k j := by
  rw [bump, update_apply]
  split
  · rename_i heq
    rw [heq]
    omega
  · exact le_rfl

theorem bump_comm (r : Fin inodeCacheSize → ℕ) (k j : Fin inodeCacheSize) :
    bump (bump r k) j = bump (bump r j) k := by
  funext i
  by_cases hkj : k = j
  · rw [hkj]
  · by_cases hi : i = k <;> by_cases hi' : i = j <;> simp_all [bump, update_apply]

end Paths

section Image

variable {files : List HostFile} {img : Bytes}

theorem ImageOf.dirEntry_root (h : ImageOf files img) {j : ℕ} (hj : j < files.length) {t : ℕ}
    (ht : t < 20) : dirEntry (imgStore img) (rootDinode files.length) j t =
      Mkfs.direntBytes (basename files[j].path) (j + 2) t := by
  have hbyte := (h.holds_root (20 * j + t) (by omega)).2.2
  rw [← h.entry j hj t ht]
  change fileByte (imgStore img) (rootDinode files.length) (20 * j + t) = _
  rw [fileByte, show 45056 + 20 * j + t = 45056 + (20 * j + t) by omega]
  exact hbyte

theorem ImageOf.goodEntry (h : ImageOf files img) {j : ℕ} (hj : j < files.length) :
    GoodEntry (imgStore img) (dirEntry (imgStore img) (rootDinode files.length) j) := by
  have hlt := h.inodes_lt
  have hname := h.name j hj
  have hval : (UInt32.ofNat (j + 2)).toNat = j + 2 :=
    UInt32.toNat_ofNat_of_lt' (show j + 2 < 2 ^ 32 by omega)
  have hnum : (getU32 (dirEntry (imgStore img) (rootDinode files.length) j) maxname).toNat = j + 2 := by
    rw [getU32_of_bytes (v := UInt32.ofNat (j + 2)), hval]
    intro k hk
    rw [h.dirEntry_root hj (by simp only [maxname]; omega), hval, Mkfs.direntBytes,
      if_neg (by omega), Nat.add_sub_cancel_left]
  intro _
  rw [hnum]
  refine ⟨⟨(basename files[j].path).length, hname, ?_⟩, show j + 2 < 320 by omega, ?_⟩
  · rw [h.dirEntry_root hj (by omega), Mkfs.direntBytes, if_pos hname]
    simp [listBytes]
  · rw [h.inodeBit (by omega)]
    exact decide_eq_true (by omega)

theorem ImageOf.le_allocated (h : ImageOf files img) : files.length ≤ allocated (imgStore img) := by
  have hlt := h.inodes_lt
  have hsub : range (files.length + 2) ⊆
      (range (nbInodes (imgStore img).sb)).filter fun ino =>
        Fs.inodeBit (imgStore img) ino = true := by
    intro ino hino
    have hle := mem_range.mp hino
    refine mem_filter.mpr ⟨mem_range.mpr (show ino < 320 by omega), ?_⟩
    rw [h.inodeBit (by omega)]
    exact decide_eq_true hle
  have hcard := card_le_card hsub
  rw [card_range] at hcard
  exact (Nat.le_add_right _ 2).trans hcard

theorem ImageOf.dirSound_root (h : ImageOf files img) :
    DirSound (imgStore img) (rootDinode files.length) := by
  have hsize := h.rootDinode_size
  have hent := h.entries
  refine ⟨⟨⟨files.length, hsize⟩, fun e he => h.goodEntry ?_⟩, ?_, fun n hn => ?_⟩
  · rw [hsize] at he
    simp only [sizeofDirent] at he
    omega
  · rw [hsize]
    exact Nat.mul_le_mul_left 20 h.le_allocated
  · have hn0 : n = 0 := by omega
    rw [hn0, h.ptr_root (by norm_num), if_pos rfl]
    exact ⟨by norm_num, by norm_num⟩

theorem ImageOf.dirInv (h : ImageOf files img) : DirInv (mounted img files.length) := by
  have hlt := h.inodes_lt
  have hnb : nbInodes (mounted img files.length).store.sb = 320 := rfl
  have hslot : ∀ k, ((mounted img files.length).islots k).ino < 320 → k = 0 := by
    intro k hk
    by_contra hne
    have hk' : ((mounted img files.length).islots k).ino = 2 ^ 32 - 1 := by
      rw [mounted, setSlot_ne _ hne]
      rfl
    rw [hk'] at hk
    exact absurd hk (by norm_num)
  have hroot : ((mounted img files.length).islots 0).ino = 1 := by
    rw [mounted, setSlot_self]
  refine ⟨h.fsInv, h.owned.guarded superblock_wellFormed, by omega, fun k => ?_, fun k k' heq hk => ?_,
    fun k hk => ?_, ?_, fun ino hino h0 hbit => ?_, fun ino hino hbit => ?_,
    fun ino d d' hd hd' => ?_, fun ino d hd hdir => ?_⟩
  · change k ∈ (List.finRange inodeCacheSize).reverse
    simp
  · rw [hnb] at hk
    rw [hslot k hk, hslot k' (heq ▸ hk)]
  · rw [hnb] at hk
    obtain rfl := hslot k hk
    rw [hroot]
    exact (h.inodeBit (by norm_num)).trans (decide_eq_true (by omega))
  · exact hroot ▸ (show 1 < nbInodes superblock by decide)
  · have hino' : ino < 320 := hnb ▸ hino
    have hused : ino < files.length + 2 := by
      have hb := (h.inodeBit hino').symm.trans hbit
      simpa using hb
    change (diskDinode (imgStore img) ino).nblink ≠ 0
    rcases h.dinode_cases hino' with ⟨-, heq⟩ | ⟨j, hj, -, heq⟩ | ⟨hfree, -⟩
    · rw [heq]
      simp [rootDinode, Mkfs.rootDi]
    · rw [heq]
      simp [fileDinode]
    · omega
  · have hino' : ino < 320 := hnb ▸ hino
    have hfree : files.length + 2 ≤ ino := by
      have hb := (h.inodeBit hino').symm.trans hbit
      simpa using hb
    change (diskDinode (imgStore img) ino).size = 0
    rw [h.dinode_free hino' (.inr hfree)]
    rfl
  · rw [(Stored.of_mounted h hd).2, (Stored.of_mounted h hd').2]
    exact Twin.refl _
  · obtain ⟨hino, rfl⟩ := Stored.of_mounted h hd
    rcases h.dinode_cases hino with ⟨-, heq⟩ | ⟨j, hj, -, heq⟩ | ⟨-, heq⟩
    · rw [heq]
      exact h.dirSound_root
    · rw [heq] at hdir
      cases hdir
    · rw [heq] at hdir
      cases hdir

end Image

end RvMiniOs.Fs
