import RvMiniOs.Fs.DirEntries

/-!
# Directories in a run

`DirInv` is what the calls on the file system keep as long as nothing but
`dir_add_entry` writes to a directory: the directories are sound, in the inode
table as in the cache, and the entries refer to inodes with links. A slot of the
cache that somebody holds a reference to keeps its inode; `Backed` counts these
references.
-/

namespace RvMiniOs.Fs

open Lib Function List Filesys

def Twin (d d' : Dinode) : Prop :=
  d'.type = d.type ∧ (d.type = .directory → d'.size = d.size ∧
    ∀ n : Fin fsInodeDirDblkno, 4096 * n.val < d.size.toNat → d'.dirblkno n = d.dirblkno n)

theorem Twin.refl (d : Dinode) : Twin d d := ⟨rfl, fun _ => ⟨rfl, fun _ _ => rfl⟩⟩

theorem Twin.symm {d d' : Dinode} (h : Twin d d') : Twin d' d := by
  refine ⟨h.1.symm, fun hdir => ?_⟩
  obtain ⟨hsize, hblk⟩ := h.2 (h.1 ▸ hdir)
  exact ⟨hsize.symm, fun n hn => (hblk n (hsize ▸ hn)).symm⟩

theorem Twin.trans {d d' d'' : Dinode} (h : Twin d d') (h' : Twin d' d'') : Twin d d'' := by
  refine ⟨h'.1.trans h.1, fun hdir => ?_⟩
  obtain ⟨hsize, hblk⟩ := h.2 hdir
  obtain ⟨hsize', hblk'⟩ := h'.2 (h.1.trans hdir)
  refine ⟨hsize'.trans hsize, fun n hn => ?_⟩
  rw [hblk' n (by rw [hsize]; exact hn), hblk n hn]

structure DirInv (fs : Filesys) : Prop extends FsInv fs where
  guarded : Guarded fs.store (Stored fs)
  small : 20 * nbInodes fs.store.sb ≤ 12 * 4096
  listed : ∀ k, k ∈ fs.icache
  distinct : ∀ k k', (fs.islots k).ino = (fs.islots k').ino →
    (fs.islots k).ino < nbInodes fs.store.sb → k = k'
  cached : ∀ k, (fs.islots k).ino < nbInodes fs.store.sb →
    inodeBit fs.store (fs.islots k).ino = true
  rooted : (fs.islots fs.root).ino < nbInodes fs.store.sb
  entered : ∀ ino < nbInodes fs.store.sb, ino ≠ 0 → inodeBit fs.store ino = true →
    (diskDinode fs.store ino).nblink ≠ 0
  blank : ∀ ino < nbInodes fs.store.sb, inodeBit fs.store ino = false →
    (diskDinode fs.store ino).size = 0
  twins : ∀ ino d d', Stored fs ino d → Stored fs ino d' → Twin d d'
  dirs : ∀ ino d, Stored fs ino d → d.type = .directory → DirSound fs.store d

def Backed (fs : Filesys) (r : Fin inodeCacheSize → ℕ) : Prop :=
  ∀ k, (r k : ℤ) ≤ (fs.islots k).refcnt

def bump (r : Fin inodeCacheSize → ℕ) (k : Fin inodeCacheSize) : Fin inodeCacheSize → ℕ :=
  Function.update r k (r k + 1)

structure Shrinks (fs fs' : Filesys) : Prop where
  store : fs'.store = fs.store
  root : fs'.root = fs.root
  stored : ∀ ino d, Stored fs' ino d → Stored fs ino d

theorem Shrinks.trans {fs fs' fs'' : Filesys} (h : Shrinks fs fs') (h' : Shrinks fs' fs'') :
    Shrinks fs fs'' :=
  ⟨h'.store.trans h.store, h'.root.trans h.root, fun ino d hd => h.stored ino d (h'.stored ino d hd)⟩

section References

variable {fs fs' : Filesys} {k : Fin inodeCacheSize} {r : Fin inodeCacheSize → ℕ}

theorem Backed.setSlot (h : Backed fs r) {i : Inode} (hi : (fs.islots k).refcnt ≤ i.refcnt) :
    Backed (fs.setSlot k i) r := by
  intro j
  by_cases hj : j = k
  · rw [hj, setSlot_self]
    exact (h k).trans hi
  · rw [setSlot_ne i hj]
    exact h j

theorem Backed.lock (h : Backed fs r) {res : ℤ} (hl : inodeLock fs k = some (res, fs')) : Backed fs' r := by
  rcases inodeLock_cases hl with ⟨-, -, -, rfl⟩ | ⟨-, -, rfl⟩
  · exact h.setSlot le_rfl
  · exact h.setSlot le_rfl

theorem Backed.unlock (h : Backed fs r) (k : Fin inodeCacheSize) : Backed (inodeUnlock fs k) r :=
  h.setSlot le_rfl

theorem Backed.get (h : Backed fs r) {ino : ℕ} (hg : inodeGet fs ino = some (k, fs')) :
    Backed fs' (bump r k) := by
  have hslots : ∀ j ≠ k, fs'.islots j = fs.islots j := by
    intro j hj
    rcases inodeGet_cases hg with ⟨-, rfl⟩ | ⟨-, -, rfl⟩
    · exact setSlot_ne _ hj
    · exact setSlot_ne _ hj
  intro j
  by_cases hj : j = k
  · subst hj
    have hr := h j
    rw [bump, update_self]
    rcases inodeGet_cases hg with ⟨-, rfl⟩ | ⟨-, hfree, rfl⟩
    · change ((r j + 1 : ℕ) : ℤ) ≤ ((fs.setSlot j _).islots j).refcnt
      rw [setSlot_self]
      dsimp only
      omega
    · rw [findReusableLocked_eq_some hfree] at hr
      rw [setSlot_self]
      dsimp only
      omega
  · rw [hslots j hj, bump, update_of_ne hj]
    exact h j

theorem Backed.put (h : Backed fs (bump r k))
    (hlink : (fs.islots k).valid = true → (fs.islots k).content.nblink ≠ 0)
    (hp : inodePut fs k = some fs') : Backed fs' r := by
  obtain rfl := inodePut_eq_some hlink hp
  intro j
  have hj := h j
  by_cases hk : j = k
  · subst hk
    rw [bump, update_self] at hj
    rw [setSlot_self]
    dsimp only
    omega
  · rw [bump, update_of_ne hk] at hj
    rw [setSlot_ne _ hk]
    exact hj

theorem Backed.get_slot (h : Backed fs r) {ino : ℕ} (hg : inodeGet fs ino = some (k, fs'))
    {j : Fin inodeCacheSize} (hj : 0 < r j) : (fs'.islots j).ino = (fs.islots j).ino ∧
    (fs'.islots j).valid = (fs.islots j).valid ∧ (fs'.islots j).content = (fs.islots j).content := by
  rcases inodeGet_cases hg with ⟨-, rfl⟩ | ⟨-, hfree, rfl⟩
  · by_cases hjk : j = k
    · subst hjk
      change ((fs.setSlot j _).islots j).ino = _ ∧ ((fs.setSlot j _).islots j).valid = _ ∧
        ((fs.setSlot j _).islots j).content = _
      rw [setSlot_self]
      exact ⟨rfl, rfl, rfl⟩
    · change ((fs.setSlot k _).islots j).ino = _ ∧ ((fs.setSlot k _).islots j).valid = _ ∧
        ((fs.setSlot k _).islots j).content = _
      rw [setSlot_ne _ hjk]
      exact ⟨rfl, rfl, rfl⟩
  · have hjk : j ≠ k := by
      rintro rfl
      have hr := h j
      rw [findReusableLocked_eq_some hfree] at hr
      omega
    rw [setSlot_ne _ hjk]
    exact ⟨rfl, rfl, rfl⟩

end References

section Cache

variable {fs fs' : Filesys} {k : Fin inodeCacheSize} {i : Inode}

theorem inodeUnlock_setSlot (fs : Filesys) (k : Fin inodeCacheSize) (i : Inode) :
    inodeUnlock (fs.setSlot k i) k = fs.setSlot k { i with locked := false } := by
  rw [inodeUnlock, setSlot_self, setSlot_setSlot]

theorem inodeGet_listed {ino : ℕ} (hg : inodeGet fs ino = some (k, fs')) {j : Fin inodeCacheSize}
    (hj : j ∈ fs.icache) : j ∈ fs'.icache := by
  rcases inodeGet_cases hg with ⟨-, rfl⟩ | ⟨-, -, rfl⟩
  · by_cases hjk : j = k
    · exact mem_cons.mpr (.inl hjk)
    · exact mem_cons_of_mem k ((mem_erase_of_ne hjk).mpr hj)
  · exact hj

theorem FsInv.stored_linked (h : FsInv fs) {d : Dinode} (hd : Stored fs (fs.islots k).ino d) :
    (fs.islots k).ino < nbInodes fs.store.sb ∧ d.nblink ≠ 0 := by
  rcases hd with ⟨hlt, rfl⟩ | ⟨k', hvalid, hino, rfl⟩
  · exact ⟨hlt, h.disk_linked k hlt⟩
  · exact ⟨hino ▸ h.ino_lt k' hvalid, h.linked k' hvalid⟩

namespace DirInv

theorem setSlot (h : DirInv fs) (hino : i.ino = (fs.islots k).ino)
    (hvalid : i.valid = true → Stored fs i.ino i.content) :
    DirInv (fs.setSlot k i) ∧ Shrinks fs (fs.setSlot k i) := by
  have hstored : ∀ ino d, Stored (fs.setSlot k i) ino d → Stored fs ino d := by
    intro ino d hd
    rcases hd.setSlot with hold | ⟨hv, rfl, rfl⟩
    · exact hold
    · exact hvalid hv
  obtain ⟨hinv, hcov⟩ := h.toFsInv.setSlot (k := k) (i := i)
    (fun hv => ⟨⟨_, hvalid hv, SameMap.refl _⟩, hino ▸ h.stored_linked (hino ▸ hvalid hv)⟩)
    (hino ▸ h.disk_linked k)
  have hinos : ∀ j, ((fs.setSlot k i).islots j).ino = (fs.islots j).ino := by
    intro j
    by_cases hj : j = k
    · rw [hj, setSlot_self, hino]
    · rw [setSlot_ne i hj]
  refine ⟨⟨hinv, h.guarded.congr hcov, h.small, h.listed, fun j j' => ?_, fun j => ?_, ?_, h.entered,
    h.blank, fun ino d d' hd hd' => h.twins ino d d' (hstored _ _ hd) (hstored _ _ hd'),
    fun ino d hd => h.dirs ino d (hstored _ _ hd)⟩, rfl, rfl, hstored⟩
  · rw [hinos, hinos]
    exact h.distinct j j'
  · rw [hinos]
    exact h.cached j
  · rw [hinos]
    exact h.rooted

theorem lock (h : DirInv fs) {res : ℤ} (hl : inodeLock fs k = some (res, fs')) :
    DirInv fs' ∧ Shrinks fs fs' := by
  rcases inodeLock_cases hl with ⟨-, hvalid, -, rfl⟩ | ⟨-, hino, rfl⟩
  · exact h.setSlot rfl fun hv => absurd hv (by simp [hvalid])
  · exact h.setSlot rfl fun _ => Stored.effective hino

theorem unlock (h : DirInv fs) (k : Fin inodeCacheSize) :
    DirInv (inodeUnlock fs k) ∧ Shrinks fs (inodeUnlock fs k) :=
  h.setSlot rfl fun hv => .inr ⟨k, hv, rfl, rfl⟩

theorem put (h : DirInv fs) (hp : inodePut fs k = some fs') : DirInv fs' ∧ Shrinks fs fs' := by
  obtain rfl := inodePut_eq_some (h.linked k) hp
  exact h.setSlot rfl fun hv => .inr ⟨k, hv, rfl, rfl⟩

theorem get (h : DirInv fs) {ino : ℕ} (hlt : ino < nbInodes fs.store.sb)
    (hbit : inodeBit fs.store ino = true) (hlink : (diskDinode fs.store ino).nblink ≠ 0)
    (hg : inodeGet fs ino = some (k, fs')) : DirInv fs' ∧ Shrinks fs fs' := by
  have hrel := h.toFsInv.get hlink hg
  obtain ⟨i, heq, hino, hcached⟩ := inodeGet_slot hg
  have hstored : ∀ ino' d, Stored fs' ino' d → Stored fs ino' d := by
    intro ino' d hd
    rw [heq] at hd
    have hd' : Stored (fs.setSlot k i) ino' d := hd
    rcases Stored.setSlot hd' with hold | ⟨hv, rfl, rfl⟩
    · exact hold
    · obtain ⟨hv, hino', hcontent⟩ := hcached hv
      exact .inr ⟨k, hv, hino'.trans hino.symm, hcontent.symm⟩
  have hstore : fs'.store = fs.store := by rw [heq]; rfl
  have hroot : fs'.root = fs.root := by rw [heq]; rfl
  have hself : (fs'.islots k).ino = ino := by
    rw [heq]
    exact (congrArg Inode.ino (setSlot_self fs k i)).trans hino
  have hother : ∀ j ≠ k, fs'.islots j = fs.islots j := by
    intro j hj
    rw [heq]
    exact setSlot_ne i hj
  -- no other slot has this inode
  have hsole : ∀ j ≠ k, (fs.islots j).ino ≠ ino := by
    intro j hj hsame
    rcases inodeGet_cases hg with ⟨hreq, -⟩ | ⟨hreq, -, -⟩
    · have hk := cacheRequestLocked_eq_some hreq
      exact hj (h.distinct j k (hsame.trans hk.symm) (hsame ▸ hlt))
    · exact cacheRequestLocked_eq_none hreq (h.listed j) hsame
  refine ⟨⟨hrel.inv, hstore ▸ h.guarded.congr hrel.covers, hstore ▸ h.small,
    fun j => inodeGet_listed hg (h.listed j), ?_, ?_, ?_, hstore ▸ h.entered, hstore ▸ h.blank,
    fun _ d d' hd hd' => h.twins _ d d' (hstored _ _ hd) (hstored _ _ hd'),
    fun _ d hd => hstore ▸ h.dirs _ d (hstored _ _ hd)⟩, hstore, hroot, hstored⟩
  · intro j j' hjj hlt'
    rw [hstore] at hlt'
    by_cases hj : j = k <;> by_cases hj' : j' = k
    · rw [hj, hj']
    · rw [hj, hself, hother j' hj'] at hjj
      exact absurd hjj.symm (hsole j' hj')
    · rw [hj', hself, hother j hj] at hjj
      exact absurd hjj (hsole j hj)
    · rw [hother j hj, hother j' hj'] at hjj
      rw [hother j hj] at hlt'
      exact h.distinct j j' hjj hlt'
  · intro j hlt'
    rw [hstore] at hlt' ⊢
    by_cases hj : j = k
    · rw [hj, hself]
      exact hbit
    · rw [hother j hj] at hlt' ⊢
      exact h.cached j hlt'
  · rw [hroot, hstore]
    by_cases hj : fs.root = k
    · rw [hj, hself]
      exact hlt
    · rw [hother _ hj]
      exact h.rooted

end DirInv

end Cache

section Access

variable {fs : Filesys} {k : Fin inodeCacheSize} {s' : Store} {i' : Inode} {c : Cursor}

theorem Keeps.inodeBit {s : Store} (wf : s.sb.WellFormed) (h : Keeps s s') {ino : ℕ}
    (hino : ino < nbInodes s.sb) : inodeBit s' ino = Fs.inodeBit s ino := by
  have hpos := dataStart_pos wf
  exact Grows.inodeBit_congr wf h.sb (fun b hlo hhi => h.frame b (by omega) (by omega) (by omega)) hino

theorem inodeBit_markDirtyLocked {s : Store} (wf : s.sb.WellFormed) (i : Inode) {ino : ℕ}
    (hino : ino < nbInodes s.sb) : inodeBit (markDirtyLocked s i).2 ino = inodeBit s ino := by
  have hpos := dataStart_pos wf
  by_cases hi : i.ino < nbInodes s.sb
  · have hge : s.sb.itabStart ≤ itabBlk s.sb i.ino := Nat.le_add_right _ _
    rw [markDirtyLocked_of_lt hi]
    refine Grows.inodeBit_congr wf (Store.setBlk_sb s _ _) (fun b _ _ => ?_) hino
    exact Store.setBlk_blk_ne _ (by omega)
  · rw [markDirtyLocked_of_ge (not_lt.mp hi)]

structure Records (s s' : Store) (i : Inode) : Prop where
  grows : Grows s s'
  bits : ∀ ino < nbInodes s.sb, inodeBit s' ino = inodeBit s ino
  disk : ∀ ino < nbInodes s.sb, diskDinode s' ino = diskDinode s ino ∨
    (ino = i.ino ∧ diskDinode s' ino = i.content)

theorem Records.of_leaves {s : Store} (wf : s.sb.WellFormed) (hkeeps : Keeps s c.store)
    (hino : i'.ino < nbInodes s.sb) (hs' : s' = c.store ∨ s' = (markDirtyLocked c.store i').2) :
    Records s s' i' := by
  have wf' : c.store.sb.WellFormed := hkeeps.sb ▸ wf
  have hgrow := Grows.of_keeps wf hkeeps
  rcases hs' with rfl | rfl
  · exact ⟨hgrow, fun ino hlt => hkeeps.inodeBit wf hlt,
      fun ino hlt => .inl (diskDinode_keeps wf hkeeps hlt)⟩
  · refine ⟨hgrow.trans (Grows.markDirtyLocked wf' i'), fun ino hlt => ?_, fun ino hlt => ?_⟩
    · rw [inodeBit_markDirtyLocked wf' i' (hkeeps.sb ▸ hlt), hkeeps.inodeBit wf hlt]
    · rw [diskDinode_markDirtyLocked (hkeeps.sb ▸ hino)]
      split_ifs with heq
      · exact .inr ⟨heq, rfl⟩
      · exact .inl (diskDinode_keeps wf hkeeps hlt)

theorem Records.stored (hrec : Records fs.store s' i') {ino : ℕ} {d : Dinode}
    (hd : Stored ({ fs with store := s' }.setSlot k i') ino d) :
    Stored fs ino d ∨ (ino = i'.ino ∧ d = i'.content) := by
  rcases hd.setSlot with (⟨hlt, rfl⟩ | hcached) | ⟨-, rfl, rfl⟩
  · have hlt' : ino < nbInodes fs.store.sb := hrec.grows.sb ▸ hlt
    rcases hrec.disk ino hlt' with hsame | hnew
    · exact .inl (.inl ⟨hlt', hsame⟩)
    · exact .inr hnew
  · exact .inl (.inr hcached)
  · exact .inr ⟨rfl, rfl⟩

theorem DirInv.update (h : DirInv fs) (hvalid : (fs.islots k).valid = true)
    (hinv : FsInv ({ fs with store := s' }.setSlot k i'))
    (hguard : Guarded s' (Stored ({ fs with store := s' }.setSlot k i')))
    (hrec : Records fs.store s' i') (hino : i'.ino = (fs.islots k).ino)
    (hlink : i'.content.nblink ≠ 0) (htype : i'.content.type = (fs.islots k).content.type)
    (hother : ∀ ino d, Stored fs ino d → ino ≠ (fs.islots k).ino → d.type = .directory → DirSound s' d)
    (hown : (fs.islots k).content.type = .directory → ∀ d,
      Stored ({ fs with store := s' }.setSlot k i') (fs.islots k).ino d →
        DirSound s' d ∧ Twin i'.content d) :
    DirInv ({ fs with store := s' }.setSlot k i') := by
  have hsb := hrec.grows.sb
  have hnb : nbInodes s'.sb = nbInodes fs.store.sb := by rw [hsb]
  have hslot : Stored fs (fs.islots k).ino (fs.islots k).content := .inr ⟨k, hvalid, rfl, rfl⟩
  have hinos : ∀ j, (({ fs with store := s' }.setSlot k i').islots j).ino = (fs.islots j).ino := by
    intro j
    by_cases hj : j = k
    · rw [hj, setSlot_self, hino]
    · rw [setSlot_ne i' hj]
  have htypes : ∀ d, Stored ({ fs with store := s' }.setSlot k i') (fs.islots k).ino d →
      d.type = (fs.islots k).content.type := by
    intro d hd
    rcases hrec.stored hd with hold | ⟨-, rfl⟩
    · exact (h.twins _ _ _ hslot hold).1
    · exact htype
  refine ⟨hinv, hguard, ?_, h.listed, fun j j' => ?_, fun j => ?_, ?_, fun ino hlt h0 hbit => ?_,
    fun ino hlt hbit => ?_, fun ino d d' hd hd' => ?_, fun ino d hd hdir => ?_⟩
  · change 20 * nbInodes s'.sb ≤ 12 * 4096
    rw [hnb]
    exact h.small
  · change _ → _ < nbInodes s'.sb → _
    rw [hinos, hinos, hnb]
    exact h.distinct j j'
  · change _ < nbInodes s'.sb → inodeBit s' _ = true
    rw [hinos, hnb]
    exact fun hlt => (hrec.bits _ hlt).trans (h.cached j hlt)
  · change _ < nbInodes s'.sb
    rw [hinos, hnb]
    exact h.rooted
  · change ino < nbInodes s'.sb at hlt
    change inodeBit s' ino = true at hbit
    change (diskDinode s' ino).nblink ≠ 0
    rw [hnb] at hlt
    rw [hrec.bits ino hlt] at hbit
    rcases hrec.disk ino hlt with hsame | ⟨-, hnew⟩
    · rw [hsame]
      exact h.entered ino hlt h0 hbit
    · rw [hnew]
      exact hlink
  · change ino < nbInodes s'.sb at hlt
    change inodeBit s' ino = false at hbit
    change (diskDinode s' ino).size = 0
    rw [hnb] at hlt
    rw [hrec.bits ino hlt] at hbit
    rcases hrec.disk ino hlt with hsame | ⟨heq, -⟩
    · rw [hsame]
      exact h.blank ino hlt hbit
    · -- an inode in the cache is in use
      rw [heq, hino, h.cached k (by rw [← hino, ← heq]; exact hlt)] at hbit
      cases hbit
  · by_cases hk : ino = (fs.islots k).ino
    · subst hk
      by_cases hdir : (fs.islots k).content.type = .directory
      · exact (hown hdir d hd).2.symm.trans (hown hdir d' hd').2
      · have ht := htypes d hd
        exact ⟨(htypes d' hd').trans ht.symm, fun hdir' => absurd (ht.symm.trans hdir') hdir⟩
    · have hold : ∀ e, Stored ({ fs with store := s' }.setSlot k i') ino e → Stored fs ino e :=
        fun e he => (hrec.stored he).resolve_right fun hnew => hk (hnew.1.trans hino)
      exact h.twins ino d d' (hold d hd) (hold d' hd')
  · by_cases hk : ino = (fs.islots k).ino
    · subst hk
      exact (hown ((htypes d hd).symm.trans hdir) d hd).1
    · have hold := (hrec.stored hd).resolve_right fun hnew => hk (hnew.1.trans hino)
      exact hother ino d hold hk hdir

theorem DirInv.size_le (h : DirInv fs) {d : Dinode} (hd : DirSound fs.store d) :
    d.size.toNat ≤ 12 * 4096 := by
  have hroom := hd.room
  have hle := allocated_le fs.store
  have hsmall := h.small
  omega

theorem DirInv.same (h : DirInv fs) {ino : ℕ} {d d' : Dinode} (hd : Stored fs ino d)
    (hd' : Stored fs ino d') (hdir : d.type = .directory) : SameDir fs.store d fs.store d' := by
  obtain ⟨htype, htwin⟩ := h.twins ino d d' hd hd'
  obtain ⟨hsize, hblk⟩ := htwin hdir
  have hmax := h.size_le (h.dirs ino d hd hdir)
  refine SameDir.of_blocks htype hsize (fun n hn => ?_) fun _ _ => rfl
  have hn12 : n < 12 := by omega
  have hsame := hblk ⟨n, hn12⟩ hn
  simp [ptr, hn12, hsame]

theorem DirSound.metaOnly {s : Store} {S : Contents} {ino : ℕ} {d d' : Dinode} (h : DirSound s d)
    (hg : Guarded s S) (hd : S ino d) (hmax : d.size.toNat ≤ 12 * 4096) (hgrow : Grows s s')
    (hmeta : MetaOnly s s') (hsize : d'.size = d.size) (hdir : d'.dirblkno = d.dirblkno) :
    DirSound s' d' := by
  refine h.congr hgrow hsize (fun n hn => ?_) fun n hn => ?_
  · have h12 : n < 12 := by omega
    simp [ptr, h12, hdir]
  · have hp := h.mapped n hn
    exact hmeta.frame _ (.inr (.inr (hg.data_lo hd (by omega) hp.1)))

theorem DirInv.other_blocks (h : DirInv fs)
    (hfill : Fills (Stored fs) (fs.islots k).ino fs.store (fs.islots k) c.store c.inode)
    (hmeta : MetaOnly c.store s') {ino n : ℕ} {d : Dinode} (hd : Stored fs ino d) (hne : ino ≠ (fs.islots k).ino)
    (hdir : d.type = .directory) (hn : 4096 * n < d.size.toNat) :
    s'.blk (ptr fs.store d n) = fs.store.blk (ptr fs.store d n) := by
  have hsound := h.dirs ino d hd hdir
  have hmax := h.size_le hsound
  have hblk := hsound.mapped n hn
  rw [← hfill.spares ino d n hd hne (by omega) hblk]
  refine hmeta.frame _ (.inr (.inr ?_))
  rw [hfill.keeps.sb]
  exact h.guarded.data_lo hd (by omega) hblk.1

theorem DirInv.access (h : DirInv fs) (hvalid : (fs.islots k).valid = true)
    (hfill : Fills (Stored fs) (fs.islots k).ino fs.store (fs.islots k) c.store c.inode)
    (hleave : Leaves c s' i')
    (hown : (fs.islots k).content.type = .directory → ∀ d,
      Stored (inodeUnlock ({ fs with store := s' }.setSlot k i') k) (fs.islots k).ino d →
        DirSound s' d ∧ Twin i'.content d) :
    DirInv (inodeUnlock ({ fs with store := s' }.setSlot k i') k) := by
  obtain ⟨hinv, -, hmeta, hcov⟩ := h.toFsInv.access hvalid (hfill.passed c.offset c.done) hleave
  obtain ⟨p, hp⟩ := hfill.inode
  obtain ⟨⟨z, hz⟩, hs'⟩ := hleave
  have hino : i'.ino = (fs.islots k).ino := by rw [hz, hp]
  have hlt := h.ino_lt k hvalid
  have hrec : Records fs.store s' { i' with locked := false } := by
    have hrec := Records.of_leaves h.apart.wf hfill.keeps (hino ▸ hlt) hs'
    exact ⟨hrec.grows, hrec.bits, hrec.disk⟩
  have hguard := (hfill.guarded.metaOnly hmeta).congr hcov
  rw [inodeUnlock_setSlot] at hinv hguard hown ⊢
  refine h.update hvalid hinv hguard hrec hino ?_ ?_ (fun ino d hd hne hdir => ?_) hown
  · change i'.content.nblink ≠ 0
    rw [hz, hp]
    exact h.linked k hvalid
  · change i'.content.type = _
    rw [hz, hp]
  · have hsound := h.dirs ino d hd hdir
    have hmax := h.size_le hsound
    exact hsound.congr hrec.grows rfl (fun n hn => ptr_direct _ _ _ (by omega)) fun n hn =>
      h.other_blocks hfill hmeta hd hne hdir hn

structure Touches (fs fs' : Filesys) (k : Fin inodeCacheSize) : Prop where
  sb : fs'.store.sb = fs.store.sb
  root : fs'.root = fs.root
  count : allocated fs.store ≤ allocated fs'.store
  slots : ∀ j ≠ k, fs'.islots j = fs.islots j
  slot : (fs'.islots k).ino = (fs.islots k).ino ∧ (fs'.islots k).refcnt = (fs.islots k).refcnt
  disk : ∀ ino < nbInodes fs.store.sb, ino ≠ (fs.islots k).ino →
    diskDinode fs'.store ino = diskDinode fs.store ino
  dirs : ∀ ino d, Stored fs ino d → ino ≠ (fs.islots k).ino → d.type = .directory →
    SameDir fs.store d fs'.store d

theorem DirInv.touches (h : DirInv fs) (hvalid : (fs.islots k).valid = true)
    (hfill : Fills (Stored fs) (fs.islots k).ino fs.store (fs.islots k) c.store c.inode)
    (hleave : Leaves c s' i') :
    Touches fs (inodeUnlock ({ fs with store := s' }.setSlot k i') k) k := by
  obtain ⟨-, -, hmeta, -⟩ := h.toFsInv.access hvalid (hfill.passed c.offset c.done) hleave
  obtain ⟨p, hp⟩ := hfill.inode
  obtain ⟨⟨z, hz⟩, hs'⟩ := hleave
  have hino : i'.ino = (fs.islots k).ino := by rw [hz, hp]
  have hrec := Records.of_leaves h.apart.wf hfill.keeps (hino ▸ h.ino_lt k hvalid) hs'
  rw [inodeUnlock_setSlot]
  refine ⟨hrec.grows.sb, rfl, allocated_mono hrec.grows, fun j hj => setSlot_ne _ hj, ?_,
    fun ino hlt hne => ?_, fun ino d hd hne hdir => ?_⟩
  · rw [setSlot_self]
    exact ⟨hino, by rw [hz, hp]⟩
  · exact (hrec.disk ino hlt).resolve_right fun hnew => hne (hnew.1.trans hino)
  · have hmax := h.size_le (h.dirs ino d hd hdir)
    exact SameDir.of_blocks rfl rfl (fun n hn => ptr_direct _ _ _ (by omega)) fun n hn =>
      h.other_blocks hfill hmeta hd hne hdir hn

theorem Stored.of_access (h : FsInv fs) (hvalid : (fs.islots k).valid = true)
    (hfill : Fills (Stored fs) (fs.islots k).ino fs.store (fs.islots k) c.store c.inode)
    (hleave : Leaves c s' i') {ino : ℕ} {d : Dinode}
    (hd : Stored (inodeUnlock ({ fs with store := s' }.setSlot k i') k) ino d) :
    Stored fs ino d ∨ (ino = (fs.islots k).ino ∧ d = i'.content) := by
  obtain ⟨p, hp⟩ := hfill.inode
  obtain ⟨⟨z, hz⟩, hs'⟩ := hleave
  have hino : i'.ino = (fs.islots k).ino := by rw [hz, hp]
  have hrec := Records.of_leaves h.apart.wf hfill.keeps (hino ▸ h.ino_lt k hvalid) hs'
  have hrec' : Records fs.store s' { i' with locked := false } := ⟨hrec.grows, hrec.bits, hrec.disk⟩
  rw [inodeUnlock_setSlot] at hd
  rw [← hino]
  exact hrec'.stored hd

section Fetch

variable (h : DirInv fs) (hvalid : (fs.islots k).valid = true) (hfetch : Fetches (Stored fs)
  (fs.islots k).ino fs.store (fs.islots k) s' i')
include h hvalid hfetch

theorem DirInv.fetched_blocks {ino n : ℕ} {d : Dinode}
    (hd : Stored fs ino d) (hdir : d.type = .directory) (hn : 4096 * n < d.size.toNat) :
    s'.blk (ptr fs.store d n) = fs.store.blk (ptr fs.store d n) := by
  have hguard := h.guarded.congr (Stored.covers_add hvalid)
  have hsound := h.dirs ino d hd hdir
  have hmax := h.size_le hsound
  have hp := hsound.mapped n hn
  exact hfetch.blk _ (hguard.taken _ d n (.inl hd) (by omega) hp) (hguard.data _ d n (.inl hd) (by omega) hp.1).2

theorem DirInv.fetch :
    DirInv (inodeUnlock ({ fs with store := s' }.setSlot k i') k) := by
  have hguard := h.guarded.congr (Stored.covers_add hvalid)
  have hfill := hfetch.fills hguard
  have hleave : Leaves ⟨s', i', 0, 0⟩ s' i' := ⟨⟨i'.content.size, rfl⟩, .inl rfl⟩
  have hgrow := Grows.of_keeps h.apart.wf hfill.keeps
  have hslot : Stored fs (fs.islots k).ino (fs.islots k).content := .inr ⟨k, hvalid, rfl, rfl⟩
  obtain ⟨p, hp⟩ := hfetch.inode
  refine h.access (c := ⟨s', i', 0, 0⟩) hvalid hfill hleave fun hdir d hd => ?_
  have hsound := h.dirs _ _ hslot hdir
  have hsize : i'.content.size = (fs.islots k).content.size := by rw [hp]
  have htwin : Twin i'.content (fs.islots k).content := by
    refine ⟨by rw [hp], fun _ => ⟨hsize.symm, fun n hn => ?_⟩⟩
    rw [hsize] at hn
    have hn12 : n.val < 12 := n.isLt
    have hptr := hfetch.mapped n.val (hsound.mapped n.val hn).1
    simp only [ptr, fsInodeDirDblkno, hn12, dif_pos] at hptr
    exact (UInt32.toNat.inj hptr).symm
  rcases Stored.of_access (c := ⟨s', i', 0, 0⟩) h.toFsInv hvalid hfill hleave hd with
    hold | ⟨-, rfl⟩
  · have hsame := h.twins _ _ _ hslot hold
    have hdir' := hsame.1.trans hdir
    have hmax' := h.size_le (h.dirs _ d hold hdir')
    refine ⟨(h.dirs _ d hold hdir').congr hgrow rfl (fun n hn => ptr_direct _ _ _ (by omega)) fun n hn => ?_,
      htwin.trans hsame⟩
    exact h.fetched_blocks hvalid hfetch hold hdir' hn
  · refine ⟨hsound.congr hgrow hsize (fun n hn => ?_) fun n hn => ?_, Twin.refl _⟩
    · exact hfetch.mapped n (hsound.mapped n hn).1
    · exact h.fetched_blocks hvalid hfetch hslot hdir hn

theorem DirInv.fetch_touches :
    Touches fs (inodeUnlock ({ fs with store := s' }.setSlot k i') k) k :=
  h.touches (c := ⟨s', i', 0, 0⟩) hvalid
    (hfetch.fills (h.guarded.congr (Stored.covers_add hvalid))) ⟨⟨i'.content.size, rfl⟩, .inl rfl⟩

theorem DirInv.fetch_same (hdir : (fs.islots k).content.type = .directory) {d : Dinode}
    (hd : Stored (inodeUnlock ({ fs with store := s' }.setSlot k i') k) (fs.islots k).ino d) :
    SameDir fs.store (fs.islots k).content s' d := by
  have hguard := h.guarded.congr (Stored.covers_add hvalid)
  have hslot : Stored fs (fs.islots k).ino (fs.islots k).content := .inr ⟨k, hvalid, rfl, rfl⟩
  obtain ⟨p, hp⟩ := hfetch.inode
  have hsound := h.dirs _ _ hslot hdir
  have hmax := h.size_le hsound
  have hblk := fun n hn => h.fetched_blocks (n := n) hvalid hfetch hslot hdir hn
  have hleave : Leaves ⟨s', i', 0, 0⟩ s' i' := ⟨⟨i'.content.size, rfl⟩, .inl rfl⟩
  rcases Stored.of_access (c := ⟨s', i', 0, 0⟩) h.toFsInv hvalid (hfetch.fills hguard) hleave hd with
    hold | ⟨-, rfl⟩
  · obtain ⟨htype, htwin⟩ := h.twins _ _ _ hslot hold
    obtain ⟨hsize, hptr⟩ := htwin hdir
    refine SameDir.of_blocks htype hsize (fun n hn => ?_) hblk
    have hn12 : n < 12 := by omega
    have hsame := hptr ⟨n, hn12⟩ hn
    simp [ptr, hn12, hsame]
  · exact SameDir.of_blocks (by rw [hp]) (by rw [hp])
      (fun n hn => hfetch.mapped n (hsound.mapped n hn).1) hblk

end Fetch

end Access

section Create

variable {fs fs' : Filesys} {k : Fin inodeCacheSize} {r : Fin inodeCacheSize → ℕ}

theorem ibmAlloc_bit {s s' : Store} {id : ℕ} (hmax : nbInodes s.sb < 2 ^ 31)
    (h : ibmAlloc s = ((id : ℤ), s')) : inodeBit s id = false ∧
      ∀ ino, inodeBit s' ino = (inodeBit s ino || decide (ino = id)) := by
  rcases bmAlloc_spec s (inodeRegion s.sb) with ⟨hfail, -⟩ | ⟨n, -, hbound, hclear, halloc⟩
  · have hfst := congrArg Prod.fst (h.symm.trans hfail)
    simp only [enospc] at hfst
    omega
  · have hlt : n < nbInodes s.sb := by simpa [inodeRegion] using hbound
    have hval : asInt32 ((inodeRegion s.sb).base + n) = n := by
      change asInt32 (0 + n) = n
      rw [Nat.zero_add]
      exact asInt32_of_lt (by omega)
    have hres := h.symm.trans halloc
    rw [hval] at hres
    obtain ⟨hid, rfl⟩ := Prod.mk.inj hres
    obtain rfl := Int.ofNat.inj hid
    exact ⟨hclear, fun ino => regionBit_setRegionBit id ino⟩

theorem inodeCreate_get {type : InodeType} (hc : inodeCreate fs type = some (.ok k, fs')) :
    ∃ fs₂, 0 ≤ (ibmAlloc fs.store).1 ∧
      inodeGet { fs with store := (ibmAlloc fs.store).2 } (ibmAlloc fs.store).1.toNat =
        some (k, fs₂) ∧
      (fs'.islots k).refcnt = (fs₂.islots k).refcnt ∧ fs'.icache = fs₂.icache := by
  simp only [inodeCreate, Option.bind_eq_bind, Option.pure_def] at hc
  split_ifs at hc with hneg
  · cases hc
  obtain ⟨⟨k₁, fs₂⟩, hget, hc⟩ := Option.bind_eq_some_iff.mp hc
  obtain ⟨⟨res, fs₃⟩, hlock, hc⟩ := Option.bind_eq_some_iff.mp hc
  dsimp only at hc hlock
  split_ifs at hc with hres hdirty
  · obtain ⟨fs₄, -, hc⟩ := Option.bind_eq_some_iff.mp hc
    cases hc
  · obtain ⟨fs₄, -, hc⟩ := Option.bind_eq_some_iff.mp hc
    cases hc
  · obtain ⟨hk, rfl⟩ := Prod.mk.inj (Option.some.inj hc)
    cases hk
    refine ⟨fs₂, not_lt.mp hneg, hget, ?_⟩
    rcases inodeLock_cases hlock with ⟨-, -, -, rfl⟩ | ⟨-, -, rfl⟩
    · rw [inodeUnlock_setSlot, setSlot_self, setSlot_self]
      exact ⟨rfl, rfl⟩
    · rw [inodeUnlock_setSlot, setSlot_self, setSlot_self]
      exact ⟨rfl, rfl⟩

structure Created (fs fs' : Filesys) (k : Fin inodeCacheSize) : Prop where
  inv : DirInv fs'
  store : MetaOnly fs.store fs'.store
  ino_lt : (fs'.islots k).ino < nbInodes fs'.store.sb
  bit : inodeBit fs'.store (fs'.islots k).ino = true
  valid : (fs'.islots k).valid = true
  size : (fs'.islots k).content.size = 0
  other : ∀ j ≠ k, fs'.islots j = fs.islots j
  count : allocated fs.store + 1 ≤ allocated fs'.store
  root : fs'.root = fs.root
  disk : ∀ ino, ino ≠ (fs'.islots k).ino → diskDinode fs'.store ino = diskDinode fs.store ino
  dirs : ∀ ino d, Stored fs' ino d → d.type = .directory →
    (ino = (fs'.islots k).ino ∧ d.size = 0) ∨ (Stored fs ino d ∧ SameDir fs.store d fs'.store d)

structure Enters (fs fs' : Filesys) (k : Fin inodeCacheSize) (id : ℕ) (d : Dinode) : Prop where
  lt : id < nbInodes fs.store.sb
  clear : inodeBit fs.store id = false
  free : ∀ j, (fs.islots j).ino ≠ id
  store : MetaOnly fs.store fs'.store
  bit : ∀ ino < nbInodes fs.store.sb, inodeBit fs'.store ino = (inodeBit fs.store ino || decide (ino = id))
  disk : ∀ ino, diskDinode fs'.store ino = if ino = id then d else diskDinode fs.store ino
  ino : (fs'.islots k).ino = id
  valid : (fs'.islots k).valid = true
  content : (fs'.islots k).content = d
  other : ∀ j ≠ k, fs'.islots j = fs.islots j
  root : fs'.root = fs.root
  size : d.size = 0
  linked : d.nblink ≠ 0

theorem DirInv.enters (h : DirInv fs) {type : InodeType} (hc : inodeCreate fs type = some (.ok k, fs')) :
    ∃ id, Enters fs fs' k id { diskDinode fs.store id with type := type, nblink := 1 } := by
  have hrel := h.toFsInv.create hc
  rcases inodeCreate_cases h.apart.wf h.inodes hc with
    ⟨hbad, -⟩ | ⟨id, s, k', i, c, halloc, hid, hk, hstored, hino, hvalid, -, hcontent, heq⟩
  · cases hbad
  cases hk
  obtain ⟨hclear, hbits⟩ := ibmAlloc_bit h.inodes halloc
  obtain ⟨-, hmeta, -, hdisk⟩ := ibmAlloc_of_eq h.apart.wf h.inodes halloc
  have wf : s.sb.WellFormed := hmeta.sb ▸ h.apart.wf
  have hlt : i.ino < nbInodes s.sb := by rw [hino, hmeta.sb]; exact hid
  have hstore : fs'.store = (markDirtyLocked s i).2 := by rw [heq]; rfl
  have hself : fs'.islots k = i := by rw [heq]; exact setSlot_self _ k i
  -- the number was free, so no slot has it
  have hfree : ∀ j, (fs.islots j).ino ≠ id := by
    intro j hj
    have hcached := h.cached j (hj ▸ hid)
    rw [hj, hclear] at hcached
    cases hcached
  have hdinode : i.content = { diskDinode fs.store id with type := type, nblink := 1 } := by
    rw [hcontent]
    rcases hstored with ⟨-, rfl⟩ | ⟨j, -, hj, -⟩
    · rw [← hdisk]
    · exact absurd hj (hfree j)
  refine ⟨id, ?_⟩
  rw [← hdinode]
  exact {
    lt := hid
    clear := hclear
    free := hfree
    store := hrel.store
    bit := fun ino hlt' => by
      rw [hstore, inodeBit_markDirtyLocked wf i (hmeta.sb ▸ hlt'), hbits]
    disk := fun ino => by rw [hstore, diskDinode_markDirtyLocked hlt, hino, hdisk]
    ino := by rw [hself, hino]
    valid := by rw [hself]; exact hvalid
    content := by rw [hself]
    other := fun j hj => by rw [heq]; exact setSlot_ne i hj
    root := by rw [heq]; rfl
    size := by rw [hdinode]; exact h.blank id hid hclear
    linked := by rw [hdinode]; simp }

namespace Enters

variable {id : ℕ} {d : Dinode}

theorem nbInodes_eq (h : Enters fs fs' k id d) : nbInodes fs'.store.sb = nbInodes fs.store.sb := by
  rw [h.store.sb]

theorem stored_new (h : Enters fs fs' k id d) {e : Dinode} (he : Stored fs' id e) : e = d := by
  rcases he with ⟨-, rfl⟩ | ⟨j, -, hj, rfl⟩
  · rw [h.disk, if_pos rfl]
  · by_cases hjk : j = k
    · rw [hjk, h.content]
    · rw [h.other j hjk] at hj
      exact absurd hj (h.free j)

theorem stored_old (h : Enters fs fs' k id d) {ino : ℕ} {e : Dinode} (he : Stored fs' ino e) (hne : ino ≠ id) :
    Stored fs ino e := by
  rcases he with ⟨hlt, rfl⟩ | ⟨j, hv, hj, rfl⟩
  · rw [h.disk, if_neg hne]
    exact .inl ⟨h.nbInodes_eq ▸ hlt, rfl⟩
  · by_cases hjk : j = k
    · rw [hjk, h.ino] at hj
      exact absurd hj.symm hne
    · rw [h.other j hjk] at hv hj ⊢
      exact .inr ⟨j, hv, hj, rfl⟩

theorem allocated (h : Enters fs fs' k id d) : allocated fs.store + 1 ≤ allocated fs'.store := by
  have hnot : id ∉ (Finset.range (nbInodes fs.store.sb)).filter fun ino => inodeBit fs.store ino = true := by
    rw [Finset.mem_filter, h.clear]
    simp
  unfold Fs.allocated
  rw [← Finset.card_insert_of_notMem hnot, h.nbInodes_eq]
  apply Finset.card_le_card
  intro ino hmem
  rcases Finset.mem_insert.mp hmem with rfl | hmem
  · exact Finset.mem_filter.mpr ⟨Finset.mem_range.mpr h.lt, by rw [h.bit ino h.lt]; simp⟩
  · obtain ⟨hlt, hset⟩ := Finset.mem_filter.mp hmem
    refine Finset.mem_filter.mpr ⟨hlt, ?_⟩
    rw [h.bit ino (Finset.mem_range.mp hlt), hset]
    rfl

end Enters

theorem DirInv.create_inv (h : DirInv fs) {type : InodeType} (hc : inodeCreate fs type = some (.ok k, fs')) :
    DirInv fs' := by
  obtain ⟨id, he⟩ := h.enters hc
  have hrel := h.toFsInv.create hc
  have hnb := he.nbInodes_eq
  obtain ⟨fs₂, -, hget, -, hlist⟩ := inodeCreate_get hc
  refine ⟨hrel.inv, (h.guarded.metaOnly hrel.store).congr hrel.covers, hnb ▸ h.small, fun j => ?_,
    fun j j' hjj hlt => ?_, fun j hlt => ?_, ?_, fun ino hlt h0 hset => ?_,
    fun ino hlt hunset => ?_, fun ino e e' hd hd' => ?_, fun ino e hd hdir => ?_⟩
  · rw [hlist]
    exact inodeGet_listed hget (h.listed j)
  · rw [hnb] at hlt
    by_cases hj : j = k <;> by_cases hj' : j' = k
    · rw [hj, hj']
    · rw [hj, he.ino, he.other j' hj'] at hjj
      exact absurd hjj.symm (he.free j')
    · rw [hj', he.ino, he.other j hj] at hjj
      exact absurd hjj (he.free j)
    · rw [he.other j hj, he.other j' hj'] at hjj
      rw [he.other j hj] at hlt
      exact h.distinct j j' hjj hlt
  · rw [hnb] at hlt
    rw [he.bit _ hlt]
    by_cases hj : j = k
    · rw [hj, he.ino]
      simp
    · rw [he.other j hj] at hlt ⊢
      rw [h.cached j hlt]
      rfl
  · rw [he.root, hnb]
    by_cases hj : fs.root = k
    · rw [hj, he.ino]
      exact he.lt
    · rw [he.other _ hj]
      exact h.rooted
  · rw [hnb] at hlt
    rw [he.disk]
    split_ifs with hnew
    · exact he.linked
    · rw [he.bit ino hlt, decide_eq_false hnew, Bool.or_false] at hset
      exact h.entered ino hlt h0 hset
  · rw [hnb] at hlt
    rw [he.bit ino hlt, Bool.or_eq_false_iff, decide_eq_false_iff_not] at hunset
    rw [he.disk, if_neg hunset.2]
    exact h.blank ino hlt hunset.1
  · by_cases hino : ino = id
    · subst hino
      rw [he.stored_new hd, he.stored_new hd']
      exact Twin.refl _
    · exact h.twins ino e e' (he.stored_old hd hino) (he.stored_old hd' hino)
  · by_cases hino : ino = id
    · subst hino
      rw [he.stored_new hd]
      exact .of_size_zero he.size
    · have hd' := he.stored_old hd hino
      have hsound := h.dirs ino e hd' hdir
      exact hsound.metaOnly h.guarded hd' (h.size_le hsound) hrel.grows hrel.store rfl rfl

theorem DirInv.create (h : DirInv fs) {type : InodeType}
    (hc : inodeCreate fs type = some (.ok k, fs')) : Created fs fs' k := by
  obtain ⟨id, he⟩ := h.enters hc
  refine ⟨h.create_inv hc, he.store, ?_, ?_, he.valid, he.content ▸ he.size, he.other, he.allocated, he.root,
    fun ino hne => ?_, fun ino e hd hdir => ?_⟩
  · rw [he.ino, he.nbInodes_eq]
    exact he.lt
  · rw [he.ino, he.bit id he.lt]
    simp
  · rw [he.ino] at hne
    rw [he.disk, if_neg hne]
  · rw [he.ino]
    by_cases hne : ino = id
    · subst hne
      exact .inl ⟨rfl, by rw [he.stored_new hd]; exact he.size⟩
    · have hd' := he.stored_old hd hne
      have hsound := h.dirs ino e hd' hdir
      have hmax := h.size_le hsound
      refine .inr ⟨hd', SameDir.of_blocks rfl rfl (fun n hn => ptr_direct _ _ _ (by omega))
        fun n hn => he.store.frame _ (.inr (.inr ?_))⟩
      exact h.guarded.data_lo hd' (by omega) (hsound.mapped n hn).1

theorem inodeCreate_ne (wf : fs.store.sb.WellFormed) (hmax : nbInodes fs.store.sb < 2 ^ 31) {type : InodeType}
    {j : Fin inodeCacheSize} (hheld : 0 < (fs.islots j).refcnt)
    (hbit : (fs.islots j).ino < nbInodes fs.store.sb → inodeBit fs.store (fs.islots j).ino = true)
    (hc : inodeCreate fs type = some (.ok k, fs')) : j ≠ k := by
  obtain ⟨fs₂, hpos, hget, -⟩ := inodeCreate_get hc
  rintro rfl
  rcases inodeGet_cases hget with ⟨hreq, -⟩ | ⟨-, hfree, -⟩
  · -- the inode in it is in use, the new one was not
    have hino := cacheRequestLocked_eq_some hreq
    rcases ibmAlloc_cases wf hmax with hfail | ⟨id, s, halloc, hid, hclear, -⟩
    · rw [hfail] at hpos
      simp only [enospc] at hpos
      omega
    · rw [halloc, Int.toNat_natCast] at hino
      change (fs.islots j).ino = id at hino
      have hset := hbit (hino ▸ hid)
      rw [hino, hclear] at hset
      cases hset
  · have hzero : (fs.islots j).refcnt = 0 := findReusableLocked_eq_some hfree
    omega

theorem Backed.create (h : Backed fs r) (hinv : DirInv fs) {type : InodeType}
    (hc : inodeCreate fs type = some (.ok k, fs')) : Backed fs' (bump r k) ∧ ∀ j, 0 < r j → j ≠ k := by
  obtain ⟨fs₂, hpos, hget, hcnt, -⟩ := inodeCreate_get hc
  have hcreated := hinv.create hc
  have hback : Backed { fs with store := (ibmAlloc fs.store).2 } r := h
  have hslots := hback.get hget
  constructor
  · intro j
    by_cases hj : j = k
    · rw [hj, hcnt]
      exact hslots k
    · rw [hcreated.other j hj, bump, update_of_ne hj]
      exact h j
  · intro j hj
    have hr := h j
    exact inodeCreate_ne hinv.apart.wf hinv.inodes (by omega) (hinv.cached j) hc

end Create

end RvMiniOs.Fs
