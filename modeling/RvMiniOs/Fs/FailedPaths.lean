import RvMiniOs.Fs.DiskFormat
import RvMiniOs.Fs.PathSteps

/-!
# Paths that cannot be made

When `fs_inode_from_path` fails, its clean-up label gives back the reference to the
directory it is in. A component that has just been made has a reference too, and if its
entry could not be added nothing leads to it. How far a path can be made is known
beforehand: each component takes a free inode and its entry a free block.
-/

namespace RvMiniOs.Fs

open Lib List Option Filesys Finset

structure Leakless (fs fs' : Filesys) (taken : Fin inodeCacheSize → ℤ) : Prop where
  refcnt : ∀ k, (fs'.islots k).refcnt = (fs.islots k).refcnt + taken k
  reached : ∀ ino < nbInodes fs.store.sb, inodeBit fs.store ino = false → inodeBit fs'.store ino = true →
    Reachable fs' ino

def firstMissing (fs : Filesys) (dir : ℕ) : List (List UInt8) → Option (ℕ × List (List UInt8))
  | [] => none
  | name :: names =>
    match child fs dir name with
    | .ok ino => firstMissing fs ino names
    | .error e => if e = -enoent then some (dir, name :: names) else none

def Makeable (fs : Filesys) (flags dir : ℕ) (names : List (List UInt8)) : Prop :=
  flags &&& oCreat ≠ 0 → ∀ d rest, firstMissing fs dir names = some (d, rest) →
    ∀ n < (freeInodes fs.store).card, ∀ name, rest[n]? = some name →
      name.length < maxname ∧ newBlks fs.store (inodeOf fs d) + n ≤ (freeBlks fs.store).card

section Missing

variable {fs fs' : Filesys} {r : Fin inodeCacheSize → ℕ} {dir x : ℕ} {name : List UInt8}
  {names : List (List UInt8)} {flags : ℕ}

theorem firstMissing_of_ok (h : child fs dir name = .ok x) :
    firstMissing fs dir (name :: names) = firstMissing fs x names := by
  rw [firstMissing, h]

theorem firstMissing_of_enoent (h : child fs dir name = .error (-enoent)) :
    firstMissing fs dir (name :: names) = some (dir, name :: names) := by
  rw [firstMissing, h]
  exact if_pos rfl

theorem makeable_of_error {e : ℤ} (h : child fs dir name = .error e) (he : ¬ (e = -enoent ∧ flags &&& oCreat ≠ 0)) :
    Makeable fs flags dir (name :: names) := by
  intro hflags d rest hfirst
  rw [firstMissing, h] at hfirst
  dsimp only at hfirst
  rw [if_neg fun heq => he ⟨heq, hflags⟩] at hfirst
  cases hfirst

theorem makeable_of_full (h : freeInodes fs.store = ∅) : Makeable fs flags dir names := by
  intro _ d rest _ n hn
  rw [h, card_empty] at hn
  exact absurd hn (Nat.not_lt_zero n)

theorem not_makeable (h : child fs dir name = .error (-enoent)) (hflags : flags &&& oCreat ≠ 0)
    (hfree : (freeInodes fs.store).Nonempty)
    (hwhy : maxname ≤ name.length ∨ (freeBlks fs.store).card < newBlks fs.store (inodeOf fs dir)) :
    ¬ Makeable fs flags dir (name :: names) := by
  intro hmake
  obtain ⟨hlen, hblk⟩ := hmake hflags dir _ (firstMissing_of_enoent h) 0 (card_pos.mpr hfree) name rfl
  omega

theorem firstMissing_dir (htree : WellFormedTree fs) (hlt : dir < nbInodes fs.store.sb) {d : ℕ}
    {rest : List (List UInt8)} (h : firstMissing fs dir names = some (d, rest)) :
    d < nbInodes fs.store.sb ∧ (inodeOf fs d).type = .directory := by
  induction names generalizing dir with
  | nil => cases h
  | cons name names ih =>
    rw [firstMissing] at h
    split at h
    · rename_i ino hchild
      exact ih (htree.inTree_child hlt hchild).1 h
    · rename_i e hchild
      split_ifs at h with henoent
      cases h
      refine ⟨hlt, ?_⟩
      by_contra hfile
      have herr := Except.error.inj (hchild.symm.trans (dirFind_of_file hfile))
      rw [henoent] at herr
      exact absurd herr (by decide)

theorem firstMissing_shrinks (h : SoundTree fs r) (hs : Shrinks fs fs') (hlt : dir < nbInodes fs.store.sb) :
    firstMissing fs' dir names = firstMissing fs dir names := by
  induction names generalizing dir with
  | nil => rfl
  | cons name names ih =>
    rw [firstMissing, firstMissing, h.child_shrinks hs hlt]
    rcases hchild : child fs dir name with e | ino
    · rfl
    · exact ih (h.inv.wellFormedTree.inTree_child hlt hchild).1

theorem makeable_shrinks (h : SoundTree fs r) (hs : Shrinks fs fs') (hlt : dir < nbInodes fs.store.sb) :
    Makeable fs' flags dir names ↔ Makeable fs flags dir names := by
  unfold Makeable
  rw [firstMissing_shrinks h hs hlt, hs.store]
  refine forall_congr' fun _ => forall_congr' fun d => forall_congr' fun rest => ?_
  refine forall_congr' fun hfirst => ?_
  obtain ⟨hd, hdir⟩ := firstMissing_dir h.inv.wellFormedTree hlt hfirst
  rw [h.inodeOf_shrinks hs hd hdir]

end Missing

section Made

variable {fs fs' : Filesys} {dir x : ℕ} {name : List UInt8} {names : List (List UInt8)} {flags : ℕ}

theorem dirFind_newDinode (s : Store) (name : List UInt8) :
    dirFind s (newDinode .directory) name = .error (-enoent) :=
  dirFind_of_none rfl fun e he => absurd he (by simp [newDinode, Dinode.zero])

theorem newBlks_newDinode (s : Store) (type : InodeType) : newBlks s (newDinode type) = 1 := by
  have hblk : entryBlk (newDinode type) = 0 := by
    change ((0 : UInt32).toNat + sizeofDirent - 1) / fsBlkSize = 0
    decide
  rw [newBlks, hblk]
  simp [ptr, newDinode, Dinode.zero]

theorem Makes.card_freeInodes {type : InodeType} (h : Makes fs fs' dir name type x) :
    (freeInodes fs'.store).card + 1 = (freeInodes fs.store).card := by
  have hmem : x ∈ freeInodes fs.store := Finset.mem_filter.mpr ⟨Finset.mem_range.mpr h.lt, h.free⟩
  rw [← Finset.card_erase_add_one hmem]
  congr 2
  ext ino
  unfold freeInodes
  rw [Finset.mem_erase, Finset.mem_filter, Finset.mem_filter, Finset.mem_range, Finset.mem_range, h.grown.sb]
  by_cases hlt : ino < nbInodes fs.store.sb
  · rw [h.bits ino hlt, Bool.or_eq_false_iff, decide_eq_false_iff_not]
    tauto
  · simp [hlt]

theorem Makes.makeable_iff (h : Makes fs fs' dir name .directory x)
    (hmiss : child fs dir name = .error (-enoent)) (hlen : name.length < maxname) {next : List UInt8} :
    Makeable fs flags dir (name :: next :: names) ↔ Makeable fs' flags x (next :: names) := by
  have hfree := h.card_freeInodes
  have hblks := h.blks
  have hcontent := h.content _ (stored_inodeOf (by rw [h.grown.sb]; exact h.lt))
  have hmiss' : child fs' x next = .error (-enoent) := by
    rw [child, hcontent]
    exact dirFind_newDinode _ _
  have hnew : newBlks fs'.store (inodeOf fs' x) = 1 := by rw [hcontent, newBlks_newDinode]
  unfold Makeable
  rw [firstMissing_of_enoent hmiss, firstMissing_of_enoent hmiss']
  refine forall_congr' fun _ => ⟨fun hall d rest hd n hn name' hname' => ?_, fun hall d rest hd n hn name' hname' => ?_⟩
  · cases hd
    obtain ⟨hshort, hroom⟩ := hall dir _ rfl (n + 1) (by omega) name' (by rw [getElem?_cons_succ]; exact hname')
    exact ⟨hshort, by omega⟩
  · cases hd
    cases n with
    | zero =>
      cases hname'
      exact ⟨hlen, by omega⟩
    | succ n =>
      rw [getElem?_cons_succ] at hname'
      obtain ⟨hshort, hroom⟩ := hall x _ rfl n (by omega) name' hname'
      exact ⟨hshort, by omega⟩

end Made

section StuckEntry

variable {fs fs₁ fs' : Filesys} {k : Fin inodeCacheSize} {r : Fin inodeCacheSize → ℕ} {stack : Bytes}
  {name : List UInt8} {type : InodeType}

theorem dirLookup_empty {found : Except ℤ (Fin inodeCacheSize)} (hvalid : (fs.islots k).valid = true)
    (hdir : (fs.islots k).content.type = .directory) (hsize : (fs.islots k).content.size = 0)
    (hl : dirLookup stack fs k name = some (found, fs')) : found = .error (-enoent) ∧ fs' = fs := by
  have hfree : (fs.islots k).locked = false := by
    simp only [dirLookup, Option.bind_eq_bind, Option.pure_def] at hl
    obtain ⟨_, hlock, -⟩ := Option.bind_eq_some_iff.mp hl
    exact inodeLock_unlocked hlock
  have hscan : ∀ s, dirLookupFrom s { fs.islots k with locked := true } name stack 0 =
      (.error (-enoent), s, { fs.islots k with locked := true }) := by
    intro s
    rw [dirLookupFrom, dif_neg (by rw [hsize]; decide)]
  simp only [dirLookup, inodeLock_of_valid hfree hvalid, Option.bind_eq_bind, Option.bind_some, lt_irrefl, if_false,
    setSlot_self, hdir, ne_eq, not_true_eq_false, hscan, Option.pure_def] at hl
  cases hl
  refine ⟨rfl, ?_⟩
  rw [inodeUnlock_setSlot]
  have hback : ({ fs.islots k with locked := false } : Inode) = fs.islots k := by rw [← hfree]
  rw [hback]
  simp [setSlot]

theorem dirAddEntry_full {inum : ℕ} {res : ℤ} (wf : fs.store.sb.WellFormed) (hfull : (freeBlks fs.store).card = 0)
    (hvalid : (fs.islots k).valid = true) (hcontent : (fs.islots k).content = newDinode type)
    (hlt : (fs.islots k).ino < nbInodes fs.store.sb)
    (ha : dirAddEntry stack fs k name inum = some (res, fs')) : res < 0 := by
  rcases dirAddEntry_cases hlt ha with ⟨-, hneg, -⟩ | ⟨w, rfl, -, -, rfl, -⟩
  · exact hneg
  have heff : (lockedSlot fs k).content = newDinode type := by
    change effective fs k = _
    rw [effective, if_pos hvalid, hcontent]
  have hptr : ptr fs.store (lockedSlot fs k).content 0 = 0 := by
    rw [heff]
    simp [ptr, newDinode, Dinode.zero]
  have hget : (getDataLocked fs.store (lockedSlot fs k) 0).1 < 0 := by
    refine (getData_of_not_available ?_ wf (by norm_num)).1
    rintro (hblk | ⟨-, -, b, hlo, hhi, hclear⟩)
    · exact hblk.1 hptr
    · rw [card_eq_zero, eq_empty_iff_forall_notMem] at hfull
      exact hfull b (mem_freeBlks.mpr ⟨⟨hlo, hhi⟩, hclear⟩)
  have hsize : (lockedSlot fs k).content.size.toNat = 0 := by
    rw [heff]
    rfl
  have hloop : (Fs.writeLoop (kernelSrc (newDirent stack name inum)) sizeofDirent ⟨fs.store, lockedSlot fs k, 0, 0⟩) =
      ((getDataLocked fs.store (lockedSlot fs k) 0).1, ⟨(getDataLocked fs.store (lockedSlot fs k) 0).2.1,
        (getDataLocked fs.store (lockedSlot fs k) 0).2.2, 0, 0⟩) := by
    rw [writeLoop, dif_pos (by change 0 < 20; decide)]
    dsimp only
    rw [Nat.zero_div, if_pos hget]
  rw [hsize]
  unfold inodeWrite
  rw [if_neg (by rw [hsize]; exact lt_irrefl 0), if_neg (by decide), hloop]
  dsimp only
  rw [if_neg (Nat.not_lt_zero _), if_neg (not_not.mpr rfl)]
  exact hget

theorem FsInv.put_slots (h : FsInv fs) {j : Fin inodeCacheSize} (hp : inodePut fs j = some fs') :
    fs'.store = fs.store ∧ fs'.root = fs.root ∧ ∀ i, ∃ n, fs'.islots i = { fs.islots i with refcnt := n } := by
  obtain rfl := inodePut_eq_some (h.linked j) hp
  refine ⟨rfl, rfl, fun i => ?_⟩
  by_cases hi : i = j
  · exact ⟨_, by rw [hi, setSlot_self]⟩
  · exact ⟨_, by rw [setSlot_ne _ hi]⟩

theorem Unlinked.put {x : ℕ} (h : Unlinked fs fs₁ x) (hinv : FsInv fs₁) {j : Fin inodeCacheSize}
    (hp : inodePut fs₁ j = some fs') : Unlinked fs fs' x := by
  obtain ⟨hstore, hroot, hslots⟩ := hinv.put_slots hp
  have hstored : ∀ ino d, Stored fs' ino d → Stored fs₁ ino d := by
    rintro ino d (⟨hlt, rfl⟩ | ⟨i, hv, hino, rfl⟩)
    · rw [hstore] at hlt ⊢
      exact .inl ⟨hlt, rfl⟩
    · obtain ⟨n, hn⟩ := hslots i
      rw [hn] at hv hino ⊢
      exact .inr ⟨i, hv, hino, rfl⟩
  refine ⟨by rw [hstore]; exact h.sb, ?_, h.free, by rw [hstore]; exact h.bit, fun ino d hd => ?_⟩
  · obtain ⟨n, hn⟩ := hslots fs₁.root
    rw [hroot, hn]
    exact h.root
  · rw [hstore]
    exact h.entries ino d (hstored ino d hd)

theorem Unlinked.not_leakless {x : ℕ} (h : Unlinked fs fs' x) (hinv : DirInv fs) (hlt : x < nbInodes fs.store.sb)
    (taken : Fin inodeCacheSize → ℤ) : ¬ Leakless fs fs' taken := by
  intro hleak
  have hreach := hleak.reached x hlt h.free h.bit
  have hset : x < nbInodes fs'.store.sb ∧ inodeBit fs.store x = true := by
    refine hreach.rule (P := fun ino => ino < nbInodes fs'.store.sb ∧ inodeBit fs.store ino = true) ?_
      fun dir e hdir htype he hused => h.entries dir _ (stored_inodeOf hdir.1) htype e he hused
    rw [h.root, h.sb]
    exact ⟨hinv.rooted, hinv.cached _ hinv.rooted⟩
  rw [h.free] at hset
  cases hset.2

theorem Stuck.put (h : Stuck fs fs₁ k type) {j : Fin inodeCacheSize} (hp : inodePut fs₁ j = some fs')
    (hheld : 0 < (fs'.islots k).refcnt) : Stuck fs fs' k type := by
  obtain ⟨hstore, -, hslots⟩ := h.inv.put_slots hp
  obtain ⟨n, hn⟩ := hslots k
  have hino : (fs'.islots k).ino = (fs₁.islots k).ino := by rw [hn]
  have hunlinked := h.toUnlinked.put h.inv hp
  rw [← hino] at hunlinked
  refine ⟨hunlinked, (h.inv.put hp).inv, ?_, ?_, hheld, ?_, ?_⟩
  · rw [hstore]
    exact h.full
  · rw [hstore]
    exact h.refused
  · rw [hn]
    exact h.valid
  · rw [hn]
    exact h.content

theorem Stuck.step (h : Stuck fs fs₁ k .directory) {flags : ℕ} (hflags : flags &&& oCreat ≠ 0)
    {leafType : InodeType} {leaf : Bool} {found : Except ℤ (Fin inodeCacheSize)}
    (hs : stepPath stack flags leafType fs₁ k name leaf = some (found, fs')) : ∃ e, found = .error e ∧
      (fs' = fs₁ ∨ FsInv fs' ∧ ∃ j, Balanced fs₁ fs' (Pi.single j 1)) := by
  have hlt := h.inv.ino_lt k h.valid
  simp only [Fs.stepPath, Option.bind_eq_bind, Option.pure_def] at hs
  obtain ⟨⟨looked, fs₂⟩, hlookup, hmiss⟩ := Option.bind_eq_some_iff.mp hs
  obtain ⟨rfl, rfl⟩ := dirLookup_empty h.valid (by rw [h.content]; rfl) (by rw [h.content]; rfl) hlookup
  dsimp only at hmiss
  rw [if_pos ⟨rfl, hflags⟩] at hmiss
  obtain ⟨⟨created, fs₃⟩, hc, hs⟩ := Option.bind_eq_some_iff.mp hmiss
  cases created with
  | error e =>
    cases hs
    exact ⟨e, rfl, .inl (inodeCreate_full h.inv.apart.wf h.inv.inodes hc).2⟩
  | ok j =>
    -- there is an inode for it and no block for its entry
    obtain ⟨⟨res, fs₄⟩, ha, hs⟩ := Option.bind_eq_some_iff.mp hs
    have hne := inodeCreate_ne h.inv.apart.wf h.inv.inodes h.held (fun _ => h.bit) hc
    have hrel := h.inv.create hc
    have hslot : fs₃.islots k = fs₂.islots k := by
      rcases inodeCreate_cases h.inv.apart.wf h.inv.inodes hc with
        ⟨hbad, -⟩ | ⟨id, s, j', i, c, -, -, hj, -, -, -, -, -, heq⟩
      · cases hbad
      · cases hj
        rw [heq]
        exact setSlot_ne i hne
    have hlt₃ : (fs₃.islots k).ino < nbInodes fs₃.store.sb := by
      rw [hslot, hrel.store.sb]
      exact hlt
    have hcontent : (fs₃.islots k).content = newDinode .directory := by
      rw [hslot]
      exact h.content
    have hneg : res < 0 := by
      refine dirAddEntry_full hrel.inv.apart.wf ?_ ?_ hcontent hlt₃ ha
      · rw [hrel.store.freeBlks h.inv.apart.wf]
        exact h.full
      · rw [hslot]
        exact h.valid
    dsimp only at hs
    rw [if_pos hneg] at hs
    cases hs
    refine ⟨res, rfl, .inr ⟨(hrel.inv.addEntry hlt₃ ha).1, j, ?_⟩⟩
    have hcount := (Balanced.create h.inv.apart.wf h.inv.inodes hc).trans (Balanced.addEntry hlt₃ ha)
    rwa [add_zero] at hcount

theorem Stuck.walk (h : Stuck fs fs₁ k .directory) (hinv : DirInv fs) {taken : Fin inodeCacheSize → ℤ}
    (hcount : Balanced fs fs₁ (Pi.single k 1 + taken)) {flags : ℕ} (hflags : flags &&& oCreat ≠ 0)
    {leafType : InodeType} {token : List UInt8} {holder : Option (List UInt8)}
    {found : Except ℤ (Fin inodeCacheSize)}
    (hw : walkPath stack flags leafType fs₁ k token holder = some (found, fs')) :
    (∃ e, found = .error e) ∧ ¬ Leakless fs fs' taken := by
  rw [Fs.walkPath] at hw
  obtain ⟨⟨looked, fs₂⟩, hstep, hw⟩ := bind_eq_some_iff.mp hw
  obtain ⟨fs₃, hput, hw⟩ := bind_eq_some_iff.mp hw
  obtain ⟨e, rfl, hcase⟩ := h.step hflags hstep
  cases hw
  refine ⟨⟨e, rfl⟩, ?_⟩
  rcases hcase with rfl | ⟨hinv₂, j, hleak⟩
  · exact (h.toUnlinked.put h.inv hput).not_leakless hinv (h.sb ▸ h.inv.ino_lt k h.valid) taken
  · intro hless
    have htotal := ((hcount.trans hleak).trans (Balanced.put (hinv₂.linked k) hput)).refcnt j
    rw [hless.refcnt j] at htotal
    simp only [Pi.add_apply, Pi.single_apply] at htotal
    split_ifs at htotal <;> omega

end StuckEntry

section Walk

variable {fs fs₂ fs' : Filesys} {r : Fin inodeCacheSize → ℕ} {k curr : Fin inodeCacheSize} {stack : Bytes}
  {token : List UInt8} {holder : Option (List UInt8)} {flags : ℕ} {leafType : InodeType}
  {taken taken' : Fin inodeCacheSize → ℤ}

theorem Leakless.of_step (h : Leakless fs fs' (taken + taken')) (hcount : Balanced fs fs₂ taken)
    (hsb : fs₂.store.sb = fs.store.sb)
    (hbits : ∀ ino < nbInodes fs.store.sb, inodeBit fs.store ino = true → inodeBit fs₂.store ino = true) :
    Leakless fs₂ fs' taken' := by
  refine ⟨fun j => ?_, fun ino hlt hfree hset => ?_⟩
  · rw [h.refcnt j, hcount.refcnt j, Pi.add_apply, add_assoc]
  · rw [hsb] at hlt
    refine h.reached ino hlt ?_ hset
    by_contra hused
    rw [hbits ino hlt (by simpa using hused)] at hfree
    cases hfree

theorem Leakless.step (h : Leakless fs₂ fs' taken') (hcount : Balanced fs fs₂ taken)
    (hsb : fs₂.store.sb = fs.store.sb)
    (hnew : ∀ ino < nbInodes fs.store.sb, inodeBit fs.store ino = false → inodeBit fs₂.store ino = true →
      Reachable fs' ino) : Leakless fs fs' (taken + taken') := by
  refine ⟨fun j => ?_, fun ino hlt hfree hset => ?_⟩
  · rw [h.refcnt j, hcount.refcnt j, Pi.add_apply, add_assoc]
  · cases hmid : inodeBit fs₂.store ino with
    | true => exact hnew ino hlt hfree hmid
    | false => exact h.reached ino (by rw [hsb]; exact hlt) hmid hset

def Undone (fs fs' : Filesys) (curr : Fin inodeCacheSize) (flags : ℕ) (names : List (List UInt8)) : Prop :=
  (Makeable fs flags (fs.islots curr).ino names ∧ Leakless fs fs' (Pi.single curr (-1)) ∧ Extends fs fs') ∨
    (¬ Makeable fs flags (fs.islots curr).ino names ∧ ¬ Leakless fs fs' (Pi.single curr (-1)))

theorem single_cancel (k curr : Fin inodeCacheSize) :
    (Pi.single k 1 + Pi.single curr (-1) + Pi.single k (-1) : Fin inodeCacheSize → ℤ) = Pi.single curr (-1) := by
  rw [add_right_comm, ← Pi.single_add, add_neg_cancel, Pi.single_zero, zero_add]

theorem Undone.step {names names' : List (List UInt8)} (h : Undone fs₂ fs' k flags names')
    (hinv : FsInv fs) (hcount : Balanced fs fs₂ (Pi.single k 1 + Pi.single curr (-1))) (hext : Extends fs fs₂)
    (hmake : Makeable fs flags (fs.islots curr).ino names ↔ Makeable fs₂ flags (fs₂.islots k).ino names')
    (hbits : ∀ ino < nbInodes fs.store.sb, inodeBit fs.store ino = true → inodeBit fs₂.store ino = true)
    (hnew : ∀ ino < nbInodes fs.store.sb, inodeBit fs.store ino = false → inodeBit fs₂.store ino = true →
      Extends fs₂ fs' → Reachable fs' ino) : Undone fs fs' curr flags names := by
  unfold Undone
  rw [hmake, ← single_cancel k curr]
  rcases h with ⟨hm, hless, hext'⟩ | ⟨hm, hless⟩
  · exact .inl ⟨hm, hless.step hcount hext.sb fun ino hlt hfree hset => hnew ino hlt hfree hset hext',
      hext.trans hext' hinv⟩
  · exact .inr ⟨hm, fun hall => hless (hall.of_step hcount hext.sb hbits)⟩

theorem SoundTree.undone_failed {e : ℤ} {fs₁ : Filesys} (h : SoundTree fs (bump r curr)) (hr : 0 < r fs.root)
    (hwhy : (child fs (fs.islots curr).ino token = .error e ∧ ¬ (e = -enoent ∧ flags &&& oCreat ≠ 0)) ∨
      (child fs (fs.islots curr).ino token = .error (-enoent) ∧ freeInodes fs.store = ∅))
    (hshrink : Shrinks fs fs₁) (hgrown : Extends fs fs₁) (hsound : SoundTree fs₁ (bump r curr))
    (hcount : Balanced fs fs₁ 0) (hput : inodePut fs₁ curr = some fs') (names : List (List UInt8)) :
    Undone fs fs' curr flags (token :: names) := by
  obtain ⟨-, hshrink', hgrown', hcount', -⟩ := hsound.put (by rw [hgrown.slot]; exact hr) hput
  have htotal := (hcount.trans hcount').refcnt
  rw [zero_add] at htotal
  refine .inl ⟨?_, ⟨htotal, fun ino _ hfree hset => ?_⟩, hgrown.trans hgrown' h.inv.toFsInv⟩
  · rcases hwhy with ⟨hchild, hnot⟩ | ⟨-, hfull⟩
    · exact makeable_of_error hchild hnot
    · exact makeable_of_full hfull
  · rw [hshrink'.store, hshrink.store, hfree] at hset
    cases hset

theorem SoundTree.walk_error (h : SoundTree fs (bump r curr)) (hr : 0 < r fs.root)
    (hreach : Reachable fs (fs.islots curr).ino) (hnames : ∀ part ∈ token :: holderParts holder, 0 ∉ part) {e : ℤ}
    (hw : walkPath stack flags leafType fs curr token holder = some (.error e, fs')) :
    Undone fs fs' curr flags (token :: holderParts holder) := by
  induction hn : holderSize holder using Nat.strong_induction_on generalizing fs curr token holder with
  | _ n ih =>
  have hk : 0 < bump r curr curr := by
    rw [Follows.bump_self]
    omega
  have hlt := h.held.ino_lt curr hk
  have htree := h.inv.wellFormedTree
  rw [Fs.walkPath] at hw
  obtain ⟨⟨looked, fs₁⟩, hstep, hw⟩ := bind_eq_some_iff.mp hw
  obtain ⟨fs₂, hput, hw⟩ := bind_eq_some_iff.mp hw
  have hstepped := h.step hk (hnames token mem_cons_self) hstep
  cases looked with
  | error e =>
    cases hw
    cases hstepped with
    | failed hwhy hshrink hgrown hsound hcount => exact h.undone_failed hr hwhy hshrink hgrown hsound hcount hput _
    | @lost _ k hchild hflags hfree hwhy hinv hgrows hcount =>
      refine .inr ⟨not_makeable hchild hflags hfree hwhy, fun hless => ?_⟩
      have htotal := (hcount.trans (Balanced.put (hinv.linked curr) hput)).refcnt k
      rw [hless.refcnt k, Pi.add_apply, Pi.single_eq_same] at htotal
      omega
  | ok k =>
    dsimp only at hw
    split at hw
    · cases hw
    rename_i next hnext
    obtain ⟨hparts, -⟩ := holderParts_strtok holder
    rw [hnext] at hparts
    change holderParts holder = next :: holderParts (strtok holder).2 at hparts
    rw [hparts] at hnames ⊢
    have hnames' : ∀ part ∈ next :: holderParts (strtok holder).2, 0 ∉ part :=
      fun part hpart => hnames part (mem_cons_of_mem _ hpart)
    have hleaf : (if (strtok holder).1.isNone then leafType else .directory) = InodeType.directory := by
      rw [hnext]
      rfl
    rw [hleaf] at hstepped
    -- the rest of the walk, from the component that was found or made
    have hrest : SoundTree fs₁ (bump (bump r curr) k) → Extends fs fs₁ → Reachable fs₁ (fs₁.islots k).ino →
        SoundTree fs₂ (bump r k) ∧ Shrinks fs₁ fs₂ ∧ Extends fs₁ fs₂ ∧ Balanced fs₁ fs₂ (Pi.single curr (-1)) ∧
          (fs₂.islots k).ino = (fs₁.islots k).ino ∧
          Undone fs₂ fs' k flags (next :: holderParts (strtok holder).2) := by
      intro hsound hext hreach₁
      rw [bump_comm] at hsound
      have hroot : 0 < bump r k fs₁.root := by
        rw [hext.slot]
        exact hr.trans_le (le_bump r k fs.root)
      obtain ⟨hsound₂, hshrink₂, hgrown₂, hcount₂, hino₂⟩ := hsound.put hroot hput
      refine ⟨hsound₂, hshrink₂, hgrown₂, hcount₂, hino₂ k, ih _ (hn ▸ holderSize_strtok hnext) hsound₂ ?_ ?_ hnames' hw rfl⟩
      · rw [hgrown₂.slot, hext.slot]
        exact hr
      · rw [hino₂ k]
        exact hreach₁.grow hsound.inv.wellFormedTree hgrown₂
    cases hstepped with
    | found hchild hshrink hgrown hsound hcount =>
      have hx := (htree.inTree_child hlt hchild).1
      obtain ⟨-, hshrink₂, hgrown₂, hcount₂, hino₂, hundone⟩ :=
        hrest hsound hgrown ((hreach.child htree hchild).grow htree hgrown)
      have hall := hshrink.trans hshrink₂
      refine hundone.step h.inv.toFsInv (hcount.trans hcount₂) (hgrown.trans hgrown₂ h.inv.toFsInv) ?_ ?_ ?_
      · rw [hino₂, makeable_shrinks h hall hx]
        unfold Makeable
        rw [firstMissing_of_ok hchild]
      · intro ino _ hset
        rw [hall.store]
        exact hset
      · intro ino _ hfree hset
        rw [hall.store, hfree] at hset
        cases hset
    | made hchild hflags hlen hmakes hsound hcount =>
      have hreach₁ : Reachable fs₁ (fs₁.islots k).ino :=
        (hreach.grow htree hmakes.grown).child hsound.inv.wellFormedTree hmakes.entered
      obtain ⟨hsound₂, hshrink₂, hgrown₂, hcount₂, hino₂, hundone⟩ := hrest hsound hmakes.grown hreach₁
      have hx : (fs₁.islots k).ino < nbInodes fs₁.store.sb := hreach₁.lt hsound.inv.wellFormedTree
      refine hundone.step h.inv.toFsInv (hcount.trans hcount₂) (hmakes.grown.trans hgrown₂ h.inv.toFsInv) ?_ ?_ ?_
      · rw [hino₂, makeable_shrinks hsound hshrink₂ hx]
        exact hmakes.makeable_iff hchild hlen
      · intro ino hino hset
        rw [hshrink₂.store, hmakes.bits ino hino, hset, Bool.true_or]
      · intro ino hino hfree hset hext'
        rw [hshrink₂.store, hmakes.bits ino hino, hfree, Bool.false_or, decide_eq_true_iff] at hset
        rw [hset]
        exact (hreach₁.grow hsound.inv.wellFormedTree hgrown₂).grow hsound₂.inv.wellFormedTree hext'
    | stuck hchild hflags hfree hwhy hstuck hcount =>
      have hcount' := hcount.trans (Balanced.put (hstuck.inv.linked curr) hput)
      have hheld : 0 < (fs₂.islots k).refcnt := by
        have hback := h.held.backed curr
        have hpos := hstuck.held
        rw [hcount.refcnt k, Pi.single_eq_same] at hpos
        rw [hcount'.refcnt k, Pi.add_apply, Pi.single_eq_same, Pi.single_apply]
        split_ifs with hkc
        · rw [hkc]
          omega
        · omega
      exact .inr ⟨not_makeable hchild hflags hfree (.inr hwhy),
        ((hstuck.put hput hheld).walk h.inv hcount' hflags hw).2⟩

end Walk

/-- A call that fails leaves the references as they were and every inode it has allocated
linked, exactly if each missing component that there is an inode for could be made. -/
theorem failed_call_leaks_nothing_iff {fs fs' : Filesys} {r : Fin inodeCacheSize → ℕ} (h : SoundTree fs r)
    {stack : Bytes} {path : List UInt8} (hpath : 0 ∉ path) {flags : ℕ} {leafType : InodeType} {e : ℤ}
    (hp : fsInodeFromPath stack fs path flags leafType = some (.error e, fs')) :
    Leakless fs fs' 0 ↔
      (path.head? = some 47 → Makeable fs flags (fs.islots fs.root).ino (components path)) := by
  unfold fsInodeFromPath at hp
  have hsame : Leakless fs fs 0 :=
    ⟨fun _ => (add_zero _).symm, fun ino _ hfree hset => absurd (hfree.symm.trans hset) (by decide)⟩
  split_ifs at hp with hempty hslash
  · cases hp
    have hnil : path = [] := length_eq_zero_iff.mp (by omega)
    simp [hnil, hsame]
  · cases hp
    simp [hslash, hsame]
  · rw [not_not] at hslash
    obtain ⟨⟨curr, fs₁⟩, hget, hp⟩ := bind_eq_some_iff.mp hp
    obtain ⟨hsound, hshrink, hext, hcount, hino⟩ := h.get_root hget
    obtain ⟨hparts, -⟩ := holderParts_strtok (some path)
    dsimp only at hp
    split at hp
    · cases hp
    rename_i token htoken
    rw [htoken] at hparts
    have hcomp : components path = token :: holderParts (strtok (some path)).2 := hparts
    have hreach : Reachable fs₁ (fs₁.islots curr).ino := by
      rw [hino, ← hext.root]
      exact .root
    have hundone := hsound.walk_error (by rw [hext.slot]; exact h.pinned) hreach
      (fun part hpart => nul_notMem_components hpath (hcomp ▸ hpart)) hp
    have hzero : (Pi.single curr 1 + Pi.single curr (-1) : Fin inodeCacheSize → ℤ) = 0 := by
      rw [← Pi.single_add, add_neg_cancel, Pi.single_zero]
    rw [hcomp, ← hino, ← makeable_shrinks h hshrink (by rw [hino]; exact h.inv.rooted), ← hzero]
    have hstep : Leakless fs fs' (Pi.single curr 1 + Pi.single curr (-1)) ↔ Leakless fs₁ fs' (Pi.single curr (-1)) := by
      refine ⟨fun hless => hless.of_step hcount hext.sb fun ino _ hset => ?_,
        fun hless => hless.step hcount hext.sb fun ino _ hfree hset => ?_⟩
      · rw [hshrink.store]
        exact hset
      · rw [hshrink.store, hfree] at hset
        cases hset
    rw [hstep]
    rcases hundone with ⟨hmake, hless, -⟩ | ⟨hmake, hless⟩
    · exact ⟨fun _ _ => hmake, fun _ => hless⟩
    · exact ⟨fun hbad => absurd hbad hless, fun hbad => absurd (hbad hslash) hmake⟩

/-- A path through a program of the image. -/
theorem failed_call_leaks_nothing_file : ∃ img fs', mkfs [shFile] = some img ∧
    fsInodeFromPath (fun _ => 0) (mounted img 1) [47, 115, 104, 47, 97] oCreat .file =
      some (.error (-enotdir), fs') ∧ Leakless (mounted img 1) fs' 0 := by
  have hany : (mkfs [shFile]).any (fun img =>
      decide (firstMissing (mounted img 1) 1 (components [47, 115, 104, 47, 97]) = none) &&
      (fsInodeFromPath (fun _ => 0) (mounted img 1) [47, 115, 104, 47, 97] oCreat .file).any fun r =>
        decide (r.1 = .error (-enotdir))) = true := by
    decide +kernel
  obtain ⟨img, himg, hany⟩ := (any_eq_true _ _).mp hany
  obtain ⟨hfirst, hcall⟩ := (Bool.and_eq_true _ _).mp hany
  obtain ⟨⟨found, fs'⟩, hcall, herr⟩ := (any_eq_true _ _).mp hcall
  obtain rfl : found = .error (-enotdir) := of_decide_eq_true herr
  have hsound := (mkfs_image himg).soundTree
  refine ⟨img, fs', himg, hcall, (failed_call_leaks_nothing_iff hsound (by decide) hcall).mpr fun _ _ d rest hmiss => ?_⟩
  have hnone : firstMissing (mounted img 1) 1 (components [47, 115, 104, 47, 97]) = none := of_decide_eq_true hfirst
  cases hnone.symm.trans hmiss

/-- A name of sixteen characters: the inode for it is made before `dir_add_entry` refuses
the name, and keeps its number and its reference. -/
theorem failed_call_leaks_inode : ∃ img fs', mkfs [] = some img ∧
    SoundTree (mounted img 0) (bump (fun _ => 0) (mounted img 0).root) ∧
    fsInodeFromPath (fun _ => 0) (mounted img 0) (47 :: List.replicate 16 97) oCreat .file =
      some (.error (-enametoolong), fs') ∧
    inodeBit (mounted img 0).store 2 = false ∧ inodeBit fs'.store 2 = true ∧ (fs'.islots 1).refcnt = 1 ∧
    ¬ Leakless (mounted img 0) fs' 0 := by
  have hany : (mkfs []).any (fun img => !inodeBit (mounted img 0).store 2 &&
      (fsInodeFromPath (fun _ => 0) (mounted img 0) (47 :: replicate 16 97) oCreat .file).any fun r =>
        inodeBit r.2.store 2 && (decide ((r.2.islots 1).refcnt = 1) &&
          decide (r.1 = .error (-enametoolong)))) = true := by
    decide +kernel
  obtain ⟨img, himg, hany⟩ := (any_eq_true _ _).mp hany
  obtain ⟨hfree, hcall⟩ := (Bool.and_eq_true _ _).mp hany
  obtain ⟨⟨found, fs'⟩, hcall, hrest⟩ := (any_eq_true _ _).mp hcall
  obtain ⟨hbit, hrest⟩ := (Bool.and_eq_true _ _).mp hrest
  obtain ⟨hcount, herr⟩ := (Bool.and_eq_true _ _).mp hrest
  obtain rfl : found = .error (-enametoolong) := of_decide_eq_true herr
  have hone : (fs'.islots 1).refcnt = 1 := of_decide_eq_true hcount
  refine ⟨img, fs', himg, (mkfs_image himg).soundTree, hcall, by simpa using hfree, hbit, hone, fun hless => ?_⟩
  have hsame := hless.refcnt 1
  have hzero : ((mounted img 0).islots 1).refcnt = 0 := rfl
  rw [hone, hzero] at hsame
  exact absurd hsame (by decide)

end RvMiniOs.Fs
