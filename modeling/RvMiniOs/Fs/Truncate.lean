import RvMiniOs.Fs.BallocRuns
import RvMiniOs.Fs.Directories

/-!
# Truncation

`inode_truncate` and the truncation of `inode_put`. The loops clear the bits of the blocks
whose numbers they find: the direct pointers of the inode, then the words of block `indir`,
whatever that block is. The indirect block itself is never given back, and `indir` is kept;
an inode without an indirect block has the words of block 0 walked in its place. Each number
goes to `bfree`, which drops the buffer of the block it names: a word of block 0 that names
a bitmap block or a block of the inode table takes back what was not written to the disk.
-/

namespace RvMiniOs.Fs

open Lib Function List Option Filesys

def tableWord (s : Store) (t n : ℕ) : ℕ := (getU32 (s.blk t) (4 * n)).toNat

def Refers (s : Store) (d : Dinode) (b : ℕ) : Prop :=
  b ≠ 0 ∧ ((∃ n, (d.dirblkno n).toNat = b) ∨
    (d.indir ≠ 0 ∧
      (d.indir.toNat = b ∨ ∃ n < fsInodeIndirDblkno, tableWord s d.indir.toNat n = b)))

structure Consistent (fs : Filesys) : Prop where
  formatted : fs.store.sb.Formatted
  taken : ∀ ino d b, Stored fs ino d → Refers fs.store d b → Taken fs.store b
  unique : ∀ ino d ino' d' b, Stored fs ino d → Refers fs.store d b → Stored fs ino' d' →
    Refers fs.store d' b → ino = ino'

inductive Truncates (fs : Filesys) (k : Fin inodeCacheSize) (fs' : Filesys) : Prop
  | truncate (h : inodeTruncate fs k = some (0, fs'))
  | put (hlast : (fs.islots k).refcnt = 1) (hvalid : (fs.islots k).valid = true)
      (hlink : (fs.islots k).content.nblink = 0) (h : inodePut fs k = some fs')

structure FreesExactly (fs : Filesys) (k : Fin inodeCacheSize) (fs' : Filesys) : Prop where
  bits : ∀ b, inData fs.store.sb b → (dataBit fs'.store b = true ↔
    dataBit fs.store b = true ∧ ¬ Refers fs.store (effective fs k) b)
  size : (effective fs' k).size = 0
  direct : ∀ n, (effective fs' k).dirblkno n = 0
  indir : (effective fs' k).indir = 0
  contents : ∀ ino d, ino ≠ (fs.islots k).ino → (Stored fs' ino d ↔ Stored fs ino d)
  blocks : ∀ ino d b, ino ≠ (fs.islots k).ino → Stored fs ino d → Refers fs.store d b →
    fs'.store.blk b = fs.store.blk b

def NamesNoMetadata (s : Store) : Prop :=
  ∀ n < fsInodeIndirDblkno, tableWord s 0 n ≠ 0 → s.sb.dataStart ≤ tableWord s 0 n

def FreesExactlyWhen (fs : Filesys) (k : Fin inodeCacheSize) : Prop :=
  (effective fs k).indir = 0 ∧ ∀ n < fsInodeIndirDblkno, Taken fs.store (tableWord fs.store 0 n) →
    ∃ m, ((effective fs k).dirblkno m).toNat = tableWord fs.store 0 n

structure Clears (T P : ℕ → Prop) (s s' : Store) : Prop where
  sb : s'.sb = s.sb
  frame : ∀ b, ¬ T b → ¬ P b → (b < s.sb.dbmStart ∨ s.sb.dbmStart + s.sb.nbDbm ≤ b) →
    s'.blk b = s.blk b
  bits : ∀ b, inData s.sb b → (dataBit s' b = true ↔ dataBit s b = true ∧ ¬ P b)

namespace Clears

variable {s s' s'' : Store} {T P Q : ℕ → Prop}

theorem refl (s : Store) : Clears T (fun _ => False) s s :=
  ⟨rfl, fun _ _ _ _ => rfl, fun _ _ => by simp⟩

theorem congr (h : Clears T P s s') (hPQ : ∀ b, P b ↔ Q b) : Clears T Q s s' :=
  ⟨h.sb, fun b hT hQ => h.frame b hT (mt (hPQ b).mp hQ),
    fun b hb => by rw [h.bits b hb, hPQ b]⟩

theorem trans (h : Clears T P s s') (h' : Clears T Q s' s'') :
    Clears T (fun b => P b ∨ Q b) s s'' where
  sb := h'.sb.trans h.sb
  frame := fun b hT hPQ hb =>
    (h'.frame b hT (mt .inr hPQ) (h.sb ▸ hb)).trans (h.frame b hT (mt .inl hPQ) hb)
  bits := fun b hb => by
    rw [h'.bits b (h.sb ▸ hb), h.bits b hb, not_or, and_assoc]

theorem setBlk (wf : s.sb.WellFormed) {b : ℕ} (x : Bytes) (hT : T b)
    (hb : b < s.sb.dbmStart ∨ s.sb.dbmStart + s.sb.nbDbm ≤ b) :
    Clears T (fun _ => False) s (s.setBlk b x) where
  sb := rfl
  frame := fun c hc _ _ => Store.setBlk_blk_ne x fun heq => hc (heq ▸ hT)
  bits := fun c hc => by simp [dataBit_setBlk wf x hb hc.1 hc.2]

theorem invalidate (wf : s.sb.WellFormed) {b : ℕ} (hb : s.sb.dataStart ≤ b)
    (hout : ¬ inData s.sb b) : Clears T (· = b) s (bcacheInvalidate s b) where
  sb := rfl
  frame := fun c _ hc _ => Store.setBlk_blk_ne _ hc
  bits := fun c hc => by
    have hdbm := wf.dbm_itab
    have hitab := wf.itab_data
    have hne : c ≠ b := fun heq => hout (heq ▸ hc)
    rw [bcacheInvalidate, dataBit_setBlk wf _ (.inr (by omega)) hc.1 hc.2]
    exact (and_iff_left hne).symm

theorem bfree_inData (h : s.sb.Formatted) {b : ℕ} (hb : inData s.sb b) :
    (Fs.bfree s b).1 = 0 ∧ Clears T (· = b) s (Fs.bfree s b).2 := by
  have hend := h.dblk
  have hbits := h.wf.bits
  have hfree : (Fs.bfree s b).2 = (bcacheInvalidate s b).setBlk
      (s.sb.dbmStart + (b - s.sb.dataStart) / fsBmBitsPerBlk)
      (bmClearBit ((bcacheInvalidate s b).blk
          (s.sb.dbmStart + (b - s.sb.dataStart) / fsBmBitsPerBlk))
        ((b - s.sb.dataStart) % fsBmBitsPerBlk)) := by
    unfold Fs.bfree bbmFree bmFree
    rw [if_neg]
    · rfl
    · simp only [inData, dataRegion, bcacheInvalidate, Store.setBlk_sb] at *
      omega
  obtain ⟨s', heq, hsb, -, hclear⟩ := bfree_inside h hb
  refine ⟨by rw [heq], by rw [heq]; exact hsb, fun c _ hne hc => ?_, fun c hc => ?_⟩
  · have hdiv : (b - s.sb.dataStart) / 32768 < s.sb.nbDbm := by
      simp only [inData, fsBmBitsPerBlk] at *
      omega
    rw [hfree, Store.setBlk_blk_ne _ (by simp only [fsBmBitsPerBlk]; omega), bcacheInvalidate,
      Store.setBlk_blk_ne _ hne]
  · rw [heq, hclear c hc]
    simp

theorem bfree (h : s.sb.Formatted) {b : ℕ} (hb : s.sb.dataStart ≤ b) :
    Clears T (· = b) s (Fs.bfree s b).2 := by
  by_cases hin : inData s.sb b
  · exact (bfree_inData h hin).2
  · rw [bfree_outside h hin]
    exact invalidate h.wf hb hin

end Clears

section Loops

variable {s : Store} {i : Inode}

theorem toNat_eq_zero {v : UInt32} : v.toNat = 0 ↔ v = 0 :=
  ⟨fun h => UInt32.toNat.inj h, fun h => by rw [h]; rfl⟩

theorem cleared_cons {α : Type} [DecidableEq α] (f : α → ℕ) (x : α) (rest : List α) (b : ℕ) :
    (b ≠ 0 ∧ f x = b) ∨ (b ≠ 0 ∧ ∃ n ∈ rest, (if n = x then 0 else f n) = b) ↔
      b ≠ 0 ∧ ∃ n ∈ x :: rest, f n = b := by
  constructor
  · rintro (⟨hb, hx⟩ | ⟨hb, n, hn, hnb⟩)
    · exact ⟨hb, x, mem_cons_self, hx⟩
    · split_ifs at hnb
      · exact absurd hnb.symm hb
      · exact ⟨hb, n, mem_cons_of_mem _ hn, hnb⟩
  · rintro ⟨hb, n, hn, hnb⟩
    by_cases hx : n = x
    · exact .inl ⟨hb, hx ▸ hnb⟩
    · exact .inr ⟨hb, n, (mem_cons.mp hn).resolve_left hx, by rw [if_neg hx, hnb]⟩

theorem releaseDirBlkFrom_cons (T : ℕ → Prop) (h : s.sb.Formatted) (idx : Fin fsInodeDirDblkno)
    (rest : List (Fin fsInodeDirDblkno))
    (hdata : i.content.dirblkno idx ≠ 0 → inData s.sb (i.content.dirblkno idx).toNat) :
    ∃ s', releaseDirBlkFrom s i (idx :: rest) = releaseDirBlkFrom s'
        { i with content := { i.content with dirblkno := update i.content.dirblkno idx 0 } } rest ∧
      Clears T (fun b => b ≠ 0 ∧ (i.content.dirblkno idx).toNat = b) s s' := by
  by_cases h0 : i.content.dirblkno idx = 0
  · refine ⟨s, ?_, (Clears.refl s).congr fun b => ⟨False.elim, fun hb => ?_⟩⟩
    · rw [releaseDirBlkFrom, if_pos h0, update_eq_self_iff.mpr h0.symm]
    · exact hb.1 (hb.2.symm.trans (toNat_eq_zero.mpr h0))
  · obtain ⟨hres, hfree⟩ := Clears.bfree_inData (T := T) h (hdata h0)
    refine ⟨_, ?_, hfree.congr fun b => ⟨?_, fun hb => hb.2.symm⟩⟩
    · rw [releaseDirBlkFrom, if_neg h0]
      dsimp only
      rw [if_neg (by rw [hres]; exact lt_irrefl 0)]
    · rintro rfl
      exact ⟨fun hz => h0 (toNat_eq_zero.mp hz), rfl⟩

theorem releaseDirBlkFrom_clears (T : ℕ → Prop) :
    ∀ (l : List (Fin fsInodeDirDblkno)) {s : Store} {i : Inode}, s.sb.Formatted →
    (∀ n ∈ l, i.content.dirblkno n ≠ 0 → inData s.sb (i.content.dirblkno n).toNat) →
    ∃ s' p, releaseDirBlkFrom s i l =
        (0, s', { i with content := { i.content with dirblkno := p } }) ∧
      Clears T (fun b => b ≠ 0 ∧ ∃ n ∈ l, (i.content.dirblkno n).toNat = b) s s' ∧
      ∀ n, n ∈ l ∨ i.content.dirblkno n = 0 → p n = 0
  | [], s, i, _, _ => ⟨s, i.content.dirblkno, rfl, (Clears.refl s).congr (by simp), by simp⟩
  | idx :: rest, s, i, h, hdata => by
    obtain ⟨s₁, hstep, hone⟩ := releaseDirBlkFrom_cons T h idx rest (hdata idx mem_cons_self)
    have hentry : ∀ n, update i.content.dirblkno idx 0 n =
        if n = idx then 0 else i.content.dirblkno n := fun n => update_apply ..
    obtain ⟨s', p, heq, hclears, hp⟩ := releaseDirBlkFrom_clears T rest (s := s₁)
      (i := { i with content := { i.content with dirblkno := update i.content.dirblkno idx 0 } })
      (hone.sb ▸ h) (fun n hn hne => by
        dsimp only at hne ⊢
        rw [hentry] at hne ⊢
        split_ifs at hne ⊢
        · exact absurd rfl hne
        · rw [hone.sb]
          exact hdata n (mem_cons_of_mem _ hn) hne)
    dsimp only at hclears hp
    simp only [hentry] at hp
    refine ⟨s', p, hstep.trans heq, (hone.trans hclears).congr fun b => ?_, fun n hn => hp n ?_⟩
    · simp only [hentry, apply_ite UInt32.toNat, UInt32.toNat_zero]
      exact cleared_cons (fun n => (i.content.dirblkno n).toNat) idx rest b
    · by_cases hidx : n = idx
      · exact .inr (if_pos hidx)
      · rw [if_neg hidx]
        exact hn.imp_left fun hmem => (mem_cons.mp hmem).resolve_left hidx

def releaseEntry (t : ℕ) (s : Store) (n : ℕ) : Store :=
  let blkno := getU32 (s.blk t) (4 * n)
  if blkno = 0 then s
  else (bfree (s.setBlk t (putU32 (s.blk t) (4 * n) 0)) blkno.toNat).2

def DataEntry (s : Store) (t n : ℕ) : Prop :=
  tableWord s t n ≠ 0 → s.sb.dataStart ≤ tableWord s t n ∧ tableWord s t n ≠ t

theorem tableWord_setBlk (t n m : ℕ) :
    tableWord (s.setBlk t (putU32 (s.blk t) (4 * n) 0)) t m =
      if m = n then 0 else tableWord s t m := by
  rw [tableWord, Store.setBlk_blk_self]
  split_ifs with hm
  · rw [hm, getU32_putU32_self]
    rfl
  · rw [getU32_putU32_ne _ (by omega)]
    rfl

theorem releaseEntry_clears {t : ℕ} (h : s.sb.Formatted)
    (ht : t < s.sb.dbmStart ∨ s.sb.dbmStart + s.sb.nbDbm ≤ t) {n : ℕ} (hn : DataEntry s t n) :
    Clears (· = t) (fun b => b ≠ 0 ∧ tableWord s t n = b) s (releaseEntry t s n) ∧
      (∀ m, tableWord (releaseEntry t s n) t m = if m = n then 0 else tableWord s t m) ∧
      ∀ rest, releaseIndirFrom t s (s.blk t) true (n :: rest) =
        releaseIndirFrom t (releaseEntry t s n) ((releaseEntry t s n).blk t) true rest := by
  unfold releaseEntry
  dsimp only
  split_ifs with h0
  · have hword : tableWord s t n = 0 := toNat_eq_zero.mpr h0
    refine ⟨(Clears.refl s).congr fun b =>
      ⟨False.elim, fun hb => hb.1 (hb.2.symm.trans hword)⟩, fun m => ?_, fun rest => ?_⟩
    · split_ifs with hm
      · rw [hm, hword]
      · rfl
    · rw [releaseIndirFrom]
      exact if_pos h0
  · set s1 := s.setBlk t (putU32 (s.blk t) (4 * n) 0) with hs1
    have hpos : tableWord s t n ≠ 0 := fun hz => h0 (toNat_eq_zero.mp hz)
    obtain ⟨hlo, hne⟩ := hn hpos
    have hset : Clears (· = t) (fun _ => False) s s1 := Clears.setBlk h.wf _ rfl ht
    have hfree : ∀ T, Clears T (· = tableWord s t n) s1 (bfree s1 (tableWord s t n)).2 :=
      fun T => Clears.bfree (s := s1) h hlo
    have hsame : (bfree s1 (tableWord s t n)).2.blk t = s1.blk t :=
      (hfree fun _ => False).frame t id hne.symm ht
    refine ⟨(hset.trans (hfree _)).congr fun b => ?_, fun m => ?_, fun rest => ?_⟩
    · constructor
      · rintro (hf | rfl)
        · exact hf.elim
        · exact ⟨hpos, rfl⟩
      · exact fun hb => .inr hb.2.symm
    · rw [← tableWord_setBlk, ← hs1]
      exact congrArg (fun c => (getU32 c (4 * m)).toNat) hsame
    · have hkept : (true && decide (tableWord s t n ≠ t)) = true := by simpa using hne
      change _ = releaseIndirFrom t (bfree s1 (tableWord s t n)).2
        ((bfree s1 (tableWord s t n)).2.blk t) true rest
      rw [hsame, hs1, Store.setBlk_blk_self, releaseIndirFrom]
      simp only [h0, if_false, if_true]
      exact congrArg (releaseIndirFrom t _ _ · rest) hkept

theorem releaseIndirFrom_clears {t : ℕ} : ∀ (l : List ℕ) {s : Store}, s.sb.Formatted →
    (t < s.sb.dbmStart ∨ s.sb.dbmStart + s.sb.nbDbm ≤ t) → (∀ n ∈ l, DataEntry s t n) →
    Clears (· = t) (fun b => b ≠ 0 ∧ ∃ n ∈ l, tableWord s t n = b) s
      (releaseIndirFrom t s (s.blk t) true l)
  | [], s, _, _, _ => (Clears.refl s).congr (by simp)
  | n :: rest, s, h, ht, hl => by
    obtain ⟨hentry, hwords, hnext⟩ := releaseEntry_clears h ht (hl n mem_cons_self)
    have hrest := releaseIndirFrom_clears rest (s := releaseEntry t s n) (hentry.sb ▸ h)
      (hentry.sb ▸ ht) fun m hm => by
        unfold DataEntry
        rw [hwords, hentry.sb]
        split_ifs
        · exact fun h0 => absurd rfl h0
        · exact hl m (mem_cons_of_mem _ hm)
    rw [hnext]
    refine (hentry.trans hrest).congr fun b => ?_
    simp only [hwords]
    exact cleared_cons (tableWord s t) n rest b

end Loops

section Calls

variable {s : Store} {i : Inode} {fs fs' : Filesys} {k : Fin inodeCacheSize}

theorem inodeTruncateLocked_clears {t : ℕ} (h : s.sb.Formatted)
    (hindir : i.content.indir.toNat = t)
    (ht : t < s.sb.dbmStart ∨ s.sb.dbmStart + s.sb.nbDbm ≤ t)
    (hdata : ∀ n, i.content.dirblkno n ≠ 0 → inData s.sb (i.content.dirblkno n).toNat)
    (hapart : t = 0 ∨ ∀ n, (i.content.dirblkno n).toNat ≠ t)
    (hentries : ∀ n < fsInodeIndirDblkno, DataEntry s t n) :
    ∃ s', inodeTruncateLocked s i =
        (0, s', { i with content := { i.content with dirblkno := fun _ => 0, size := 0 } }) ∧
      Clears (· = t) (fun b => b ≠ 0 ∧ ((∃ n, (i.content.dirblkno n).toNat = b) ∨
        ∃ n < fsInodeIndirDblkno, tableWord s t n = b)) s s' := by
  obtain ⟨s1, p, heq, hclears, hp⟩ := releaseDirBlkFrom_clears (fun _ => False)
    (finRange fsInodeDirDblkno) h fun n _ => hdata n
  have hp' : p = fun _ => 0 := funext fun n => hp n (.inl (mem_finRange n))
  have hblk : s1.blk t = s.blk t := by
    refine hclears.frame t id (fun hdirect => ?_) ht
    obtain ⟨hpos, n, -, hn⟩ := hdirect
    exact hapart.elim hpos fun hne => hne n hn
  have hword : ∀ n, tableWord s1 t n = tableWord s t n := fun n => by rw [tableWord, hblk]; rfl
  have htable := releaseIndirFrom_clears (t := t) (range fsInodeIndirDblkno) (s := s1)
    (hclears.sb ▸ h) (hclears.sb ▸ ht) fun n hn => by
      unfold DataEntry
      rw [hword, hclears.sb]
      exact hentries n (mem_range.mp hn)
  have hdirect : Clears (· = t) (fun b => b ≠ 0 ∧ ∃ n ∈ finRange fsInodeDirDblkno,
      (i.content.dirblkno n).toNat = b) s s1 :=
    ⟨hclears.sb, fun b _ => hclears.frame b id, hclears.bits⟩
  refine ⟨releaseIndirFrom t s1 (s1.blk t) true (range fsInodeIndirDblkno), ?_,
    (hdirect.trans htable).congr fun b => ?_⟩
  · have hneg : ¬ (0 : ℤ) < 0 := lt_irrefl 0
    rw [inodeTruncateLocked, releaseDirBlkLocked, heq]
    simp only [hneg, if_false, releaseIndirLocked, hindir, hp']
  · simp only [mem_finRange, true_and, mem_range, hword]
    exact and_or_left.symm

theorem bfree_sb (s : Store) (b : ℕ) : (bfree s b).2.sb = s.sb := by
  unfold bfree bbmFree bmFree
  split_ifs
  · rfl
  · rfl

theorem releaseIndirFrom_sb (t : ℕ) : ∀ (l : List ℕ) (s : Store) (content : Bytes) (kept : Bool),
    (releaseIndirFrom t s content kept l).sb = s.sb
  | [], _, _, _ => rfl
  | n :: rest, s, content, kept => by
    rw [releaseIndirFrom]
    dsimp only
    split_ifs
    · exact releaseIndirFrom_sb t rest ..
    · exact (releaseIndirFrom_sb t rest ..).trans (bfree_sb ..)
    · exact (releaseIndirFrom_sb t rest ..).trans (bfree_sb ..)

theorem releaseIndirLocked_sb (s : Store) (i : Inode) : (releaseIndirLocked s i).2.sb = s.sb := by
  simp only [releaseIndirLocked]
  exact releaseIndirFrom_sb ..

structure SameTable (s : Store) (i : Inode) (s' : Store) (i' : Inode) : Prop where
  sb : s'.sb = s.sb
  ino : i'.ino = i.ino
  valid : i'.valid = i.valid
  indir : i'.content.indir = i.content.indir

theorem releaseDirBlkFrom_sameTable : ∀ (l : List (Fin fsInodeDirDblkno)) (s : Store) (i : Inode),
    SameTable s i (releaseDirBlkFrom s i l).2.1 (releaseDirBlkFrom s i l).2.2
  | [], _, _ => ⟨rfl, rfl, rfl, rfl⟩
  | idx :: rest, s, i => by
    have hfree := bfree_sb s (i.content.dirblkno idx).toNat
    rw [releaseDirBlkFrom]
    dsimp only
    split_ifs
    · exact releaseDirBlkFrom_sameTable rest s i
    · exact ⟨hfree, rfl, rfl, rfl⟩
    · have h := releaseDirBlkFrom_sameTable rest (bfree s (i.content.dirblkno idx).toNat).2
        { i with content := { i.content with dirblkno := update i.content.dirblkno idx 0 } }
      exact ⟨h.sb.trans hfree, h.ino, h.valid, h.indir⟩

theorem inodeTruncateLocked_sameTable {r : ℤ} {s' : Store} {i' : Inode}
    (h : inodeTruncateLocked s i = (r, s', i')) : SameTable s i s' i' := by
  have hdir := releaseDirBlkFrom_sameTable (finRange fsInodeDirDblkno) s i
  rcases hd : releaseDirBlkLocked s i with ⟨r₁, s₁, i₁⟩
  rw [← releaseDirBlkLocked, hd] at hdir
  have hindir := releaseIndirLocked_sb s₁ i₁
  rcases ht : releaseIndirLocked s₁ i₁ with ⟨r₂, s₂⟩
  rw [ht] at hindir
  unfold inodeTruncateLocked at h
  simp only [hd, ht] at h
  split_ifs at h
  · obtain ⟨-, rfl, rfl⟩ : r₁ = r ∧ s₁ = s' ∧ i₁ = i' := by simpa using h
    exact hdir
  · obtain ⟨-, rfl, rfl⟩ : r₂ = r ∧ s₂ = s' ∧ i₁ = i' := by simpa using h
    exact ⟨hindir.trans hdir.sb, hdir.ino, hdir.valid, hdir.indir⟩
  · obtain ⟨-, rfl, rfl⟩ : 0 = r ∧ s₂ = s' ∧ _ = i' := by simpa using h
    exact ⟨hindir.trans hdir.sb, hdir.ino, hdir.valid, hdir.indir⟩

theorem ibmFree_cases (wf : s.sb.WellFormed) (id : ℕ) : (ibmFree s id).2 = s ∨
    ∃ b x, s.sb.ibmStart ≤ b ∧ b < s.sb.dbmStart ∧ (ibmFree s id).2 = s.setBlk b x := by
  have hibm := wf.ibm_dbm
  have hbits := wf.inode_bits
  unfold ibmFree bmFree
  split_ifs with hid
  · exact .inl rfl
  · refine .inr ⟨_, _, Nat.le_add_right .., ?_, rfl⟩
    have hlt : id < s.sb.nbIbm * 32768 := by
      simp only [inodeRegion, nbInodes, fsBmBitsPerBlk] at hid hbits
      omega
    simp only [inodeRegion, fsBmBitsPerBlk]
    omega

theorem ibmFree_metaOnly (wf : s.sb.WellFormed) (id : ℕ) : MetaOnly s (ibmFree s id).2 := by
  have hpos := dataStart_pos wf
  rcases ibmFree_cases wf id with heq | ⟨b, x, hlo, hhi, heq⟩
  · rw [heq]
    exact MetaOnly.refl s
  · rw [heq]
    exact ⟨rfl, rfl, fun c hc => Store.setBlk_blk_ne x (by omega)⟩

theorem diskDinode_ibmFree (wf : s.sb.WellFormed) (id ino : ℕ) :
    diskDinode (ibmFree s id).2 ino = diskDinode s ino := by
  have hpos := dataStart_pos wf
  have hge : s.sb.itabStart ≤ itabBlk s.sb ino := Nat.le_add_right _ _
  rcases ibmFree_cases wf id with heq | ⟨b, x, -, hhi, heq⟩
  · rw [heq]
  · rw [heq, diskDinode, Store.setBlk_sb, Store.setBlk_blk_ne x (by omega)]
    rfl

structure LeavesContent (fs : Filesys) (k : Fin inodeCacheSize) (fs' : Filesys) (s : Store) (d : Dinode) :
    Prop where
  store : MetaOnly s fs'.store
  disk : ∀ ino, diskDinode fs'.store ino = if ino = (fs.islots k).ino then d else diskDinode s ino
  others : ∀ k', k' ≠ k → fs'.islots k' = fs.islots k'
  ino : (fs'.islots k).ino = (fs.islots k).ino
  shown : effective fs' k = d

theorem inodeTruncate_cases (h : inodeTruncate fs k = some (0, fs')) :
    ((fs.islots k).valid = false → (fs.islots k).ino < nbInodes fs.store.sb) ∧
      ∃ r s i', inodeTruncateLocked fs.store (lockedSlot fs k) = (r, s, i') ∧ i'.ino < nbInodes s.sb ∧
        fs' = { fs with store := (markDirtyLocked s i').2 }.setSlot k { i' with locked := false } := by
  obtain ⟨⟨res, fs₁⟩, hlock, h⟩ := bind_eq_some_iff.mp h
  rcases inodeLock_cases hlock with ⟨hneg, -, -, rfl⟩ | ⟨rfl, hino, rfl⟩
  · dsimp only at h
    rw [if_pos hneg] at h
    obtain ⟨rfl, -⟩ : res = 0 ∧ _ := by simpa using h
    exact absurd hneg (lt_irrefl 0)
  refine ⟨hino, ?_⟩
  rcases ht : inodeTruncateLocked fs.store (lockedSlot fs k) with ⟨r, s, i'⟩
  have hslot : (fs.setSlot k (lockedSlot fs k)).islots k = lockedSlot fs k := setSlot_self ..
  simp only [lt_irrefl, if_false, hslot, setSlot_store, ht, setSlot_self] at h
  split_ifs at h with hneg
  · obtain ⟨rfl, -⟩ : r = 0 ∧ _ := by simpa using h
    exact absurd hneg (lt_irrefl 0)
  have hlt : i'.ino < nbInodes s.sb := by
    by_contra hge
    rw [markDirtyLocked_of_ge (not_lt.mp hge)] at h
    simp [einval] at h
  refine ⟨r, s, i', rfl, hlt, ?_⟩
  have hfs : fs' = inodeUnlock (({ fs with store := (markDirtyLocked s i').2 }.setSlot k
      (lockedSlot fs k)).setSlot k i') k := (Prod.mk.inj (some.inj h)).2.symm
  rw [hfs, inodeUnlock_setSlot, setSlot_setSlot]

theorem neg_einval_lt : (-einval : ℤ) < 0 := by decide

theorem inodeTruncate_of_loops {s : Store} {i' : Inode} (hlocked : (fs.islots k).locked = false)
    (hvalid : (fs.islots k).valid = true) (ht : inodeTruncateLocked fs.store (lockedSlot fs k) = (0, s, i'))
    (hlt : i'.ino < nbInodes s.sb) : ∃ fs', inodeTruncate fs k = some (0, fs') := by
  have hlock : inodeLock fs k = some (0, fs.setSlot k (lockedSlot fs k)) := by
    simp [inodeLock_of_valid hlocked hvalid, lockedSlot, effective, hvalid]
  have hslot : (fs.setSlot k (lockedSlot fs k)).islots k = lockedSlot fs k := setSlot_self ..
  rw [inodeTruncate, hlock]
  simp only [bind_eq_bind, bind_some, lt_irrefl, if_false, hslot, setSlot_store, ht,
    setSlot_self, markDirtyLocked_of_lt hlt]
  exact ⟨_, rfl⟩

def givenBack (i : Inode) : Inode := { i with content := { i.content with type := .free } }

theorem inodePut_cases (hlast : (fs.islots k).refcnt = 1) (hvalid : (fs.islots k).valid = true)
    (hlink : (fs.islots k).content.nblink = 0) (h : inodePut fs k = some fs') :
    ∃ r s i', inodeTruncateLocked fs.store (fs.islots k) = (r, s, i') ∧ i'.ino < nbInodes s.sb ∧
      fs' = { fs with store := (ibmFree (markDirtyLocked s (givenBack i')).2 i'.ino).2 }.setSlot k
        { givenBack i' with valid := false, refcnt := i'.refcnt - 1 } := by
  rcases ht : inodeTruncateLocked fs.store (fs.islots k) with ⟨r, s, i'⟩
  unfold inodePut at h
  rw [if_pos hlast] at h
  obtain ⟨fs₁, hput, h⟩ := bind_eq_some_iff.mp h
  cases h
  unfold putLast at hput
  simp only [hvalid, hlink, ht, and_self, if_true] at hput
  split_ifs at hput with hlocked hneg hmark
  cases hput
  have hlt : i'.ino < nbInodes s.sb := by
    by_contra hge
    have herr := markDirtyLocked_of_ge (i := givenBack i') (not_lt.mp hge)
    exact hmark (by rw [← givenBack, herr]; exact neg_einval_lt)
  refine ⟨r, s, i', rfl, hlt, ?_⟩
  rw [setSlot_self, setSlot_setSlot]
  rfl

theorem Truncates.leaves (wf : fs.store.sb.WellFormed) (h : Truncates fs k fs') :
    Stored fs (fs.islots k).ino (effective fs k) ∧ ∃ i r s i' d,
      inodeTruncateLocked fs.store i = (r, s, i') ∧ i.content = effective fs k ∧
      d = { i'.content with type := d.type } ∧ LeavesContent fs k fs' s d := by
  cases h with
  | truncate h =>
    obtain ⟨hstored, r, s, i', ht, hlt, rfl⟩ := inodeTruncate_cases h
    have hkept := inodeTruncateLocked_sameTable ht
    have hino : i'.ino = (fs.islots k).ino := hkept.ino
    have hvalid : i'.valid = true := hkept.valid
    refine ⟨Stored.effective hstored, lockedSlot fs k, r, s, i', i'.content, ht, rfl, rfl, ?_⟩
    exact {
      store := markDirtyLocked_metaOnly (hkept.sb ▸ wf) i'
      disk := fun ino => by rw [← hino]; exact diskDinode_markDirtyLocked hlt ino
      others := fun k' hk => setSlot_ne _ hk
      ino := by rw [setSlot_self, ← hino]
      shown := by
        unfold effective
        rw [setSlot_self, if_pos hvalid] }
  | put hlast hvalid hlink h =>
    obtain ⟨r, s, i', ht, hlt, rfl⟩ := inodePut_cases hlast hvalid hlink h
    have hkept := inodeTruncateLocked_sameTable ht
    have hshown : effective fs k = (fs.islots k).content := by rw [effective, if_pos hvalid]
    have hmark := markDirtyLocked_metaOnly (hkept.sb ▸ wf) (givenBack i')
    have hwf : (markDirtyLocked s (givenBack i')).2.sb.WellFormed := hmark.sb ▸ hkept.sb ▸ wf
    have hdisk : ∀ ino, diskDinode (ibmFree (markDirtyLocked s (givenBack i')).2 i'.ino).2 ino =
        if ino = (fs.islots k).ino then (givenBack i').content else diskDinode s ino := by
      intro ino
      rw [diskDinode_ibmFree hwf, diskDinode_markDirtyLocked (i := givenBack i') hlt, ← hkept.ino]
      rfl
    refine ⟨Stored.effective fun hv => absurd (hv.symm.trans hvalid) Bool.false_ne_true,
      fs.islots k, r, s, i', (givenBack i').content, ht, hshown.symm, rfl, ?_⟩
    exact {
      store := hmark.trans (ibmFree_metaOnly hwf _)
      disk := hdisk
      others := fun k' hk => setSlot_ne _ hk
      ino := by rw [setSlot_self, ← hkept.ino]; rfl
      shown := by
        unfold effective
        rw [setSlot_self]
        exact (if_neg Bool.false_ne_true).trans ((hdisk _).trans (if_pos hkept.ino)) }

theorem Truncates.clears (hc : Consistent fs) (hwords : NamesNoMetadata fs.store)
    (h : Truncates fs k fs') (hindir : (effective fs k).indir = 0) :
    ∃ s d, Clears (· = 0) (fun b => b ≠ 0 ∧ ((∃ n, ((effective fs k).dirblkno n).toNat = b) ∨
        ∃ n < fsInodeIndirDblkno, tableWord fs.store 0 n = b)) fs.store s ∧
      LeavesContent fs k fs' s d ∧ d.size = 0 ∧ (∀ n, d.dirblkno n = 0) ∧ d.indir = 0 := by
  obtain ⟨hstored, i, r, s, i', d, hloop, hi, hd, hleft⟩ := h.leaves hc.formatted.wf
  rw [← hi] at hindir
  have hpos : 0 < fs.store.sb.dbmStart := (dataStart_pos hc.formatted.wf).1
  have hdata : ∀ n, i.content.dirblkno n ≠ 0 →
      inData fs.store.sb (i.content.dirblkno n).toNat := fun n hn => by
    have hb : (i.content.dirblkno n).toNat ≠ 0 := fun h0 => hn (toNat_eq_zero.mp h0)
    have htaken := hc.taken _ _ _ hstored ⟨hb, .inl ⟨n, by rw [hi]⟩⟩
    exact ⟨htaken.1, htaken.2.1⟩
  obtain ⟨s', heq, hclears⟩ := inodeTruncateLocked_clears hc.formatted
    (toNat_eq_zero.mpr hindir) (.inl hpos) hdata (.inl rfl) fun n hn h0 => ⟨hwords n hn h0, h0⟩
  obtain ⟨-, rfl, rfl⟩ : r = 0 ∧ s = s' ∧ i' = _ := by simpa using hloop.symm.trans heq
  refine ⟨s, d, hi ▸ hclears, hleft, ?_, ?_, ?_⟩
  · rw [hd]
  · rw [hd]
    exact fun _ => rfl
  · rw [hd]
    exact hindir

end Calls

section Exactly

variable {fs fs' : Filesys} {k : Fin inodeCacheSize}

theorem MetaOnly.dataBit {s s' : Store} (h : MetaOnly s s') (wf : s.sb.WellFormed) {b : ℕ} (hb : inData s.sb b) :
    dataBit s' b = dataBit s b := by
  have hdbm := wf.dbm_itab
  exact dataBit_congr wf h.sb (fun c hc hc' => h.frame c (by omega)) hb.1 hb.2

theorem refers_of_indir_eq_zero {s : Store} {d : Dinode} {b : ℕ} (h : d.indir = 0) :
    Refers s d b ↔ b ≠ 0 ∧ ∃ n, (d.dirblkno n).toNat = b := by
  simp [Refers, h]

theorem truncation_frees_exactly_iff (hc : Consistent fs) (hwords : NamesNoMetadata fs.store)
    (h : Truncates fs k fs') : FreesExactly fs k fs' ↔ FreesExactlyWhen fs k := by
  have wf := hc.formatted.wf
  have hpos := dataStart_pos wf
  constructor
  · intro hf
    have hindir : (effective fs k).indir = 0 := by
      obtain ⟨-, i, r, s, i', d, hloop, hi, hd, hleft⟩ := h.leaves wf
      have hzero := hf.indir
      rw [hleft.shown, hd] at hzero
      rw [← hi, ← (inodeTruncateLocked_sameTable hloop).indir]
      exact hzero
    obtain ⟨s, d, hclears, hleft, -⟩ := h.clears hc hwords hindir
    refine ⟨hindir, fun n hn hw => ?_⟩
    have hin : inData fs.store.sb (tableWord fs.store 0 n) := ⟨hw.1, hw.2.1⟩
    have hne : tableWord fs.store 0 n ≠ 0 := by
      have := hw.1
      omega
    by_contra hnot
    have hset := (hf.bits _ hin).mpr
      ⟨hw.2.2, fun href => hnot ((refers_of_indir_eq_zero hindir).mp href).2⟩
    rw [hleft.store.dataBit (hclears.sb ▸ wf) (hclears.sb ▸ hin), hclears.bits _ hin] at hset
    exact hset.2 ⟨hne, .inr ⟨n, hn, rfl⟩⟩
  · rintro ⟨hindir, hown⟩
    obtain ⟨s, d, hclears, hleft, hsize, hdirect, hd⟩ := h.clears hc hwords hindir
    have wf' : s.sb.WellFormed := hclears.sb ▸ wf
    have hstored : Stored fs (fs.islots k).ino (effective fs k) := (h.leaves wf).1
    have hmine : ∀ b, (b ≠ 0 ∧ ∃ n, ((effective fs k).dirblkno n).toNat = b) →
        Refers fs.store (effective fs k) b := fun b => (refers_of_indir_eq_zero hindir).mpr
    exact {
      bits := fun b hb => by
        rw [hleft.store.dataBit wf' (hclears.sb ▸ hb), hclears.bits b hb,
          refers_of_indir_eq_zero hindir]
        refine and_congr_right fun hbit => not_congr (and_congr_right fun _ => ⟨?_, .inl⟩)
        rintro (hdir | ⟨n, hn, rfl⟩)
        · exact hdir
        · exact hown n hn ⟨hb.1, hb.2, hbit⟩
      size := hleft.shown ▸ hsize
      direct := hleft.shown ▸ hdirect
      indir := hleft.shown ▸ hd
      contents := fun ino d' hino => by
        have hdisk : ino < nbInodes fs.store.sb →
            diskDinode fs'.store ino = diskDinode fs.store ino := fun hlt => by
          have hge : fs.store.sb.itabStart ≤ itabBlk fs.store.sb ino := Nat.le_add_right _ _
          have htab := itabBlk_lt hlt
          have hend := wf.itab_data
          rw [hleft.disk, if_neg hino, diskDinode, diskDinode, hclears.sb,
            hclears.frame _ (by omega) ?_ (.inr (by omega))]
          rintro ⟨hb, hdir | ⟨n, hn, hw⟩⟩
          · have hlo := (hc.taken _ _ _ hstored (hmine _ ⟨hb, hdir⟩)).1
            omega
          · have hlo := hwords n hn (hw ▸ hb)
            omega
        unfold Stored
        rw [hleft.store.sb, hclears.sb]
        refine or_congr (and_congr_right fun hlt => by rw [hdisk hlt])
          (exists_congr fun k' => ?_)
        by_cases hk : k' = k
        · subst hk
          rw [hleft.ino]
          exact ⟨fun hs => absurd hs.2.1.symm hino, fun hs => absurd hs.2.1.symm hino⟩
        · rw [hleft.others k' hk]
      blocks := fun ino d' b hino hstored' href => by
        have htaken := hc.taken ino d' b hstored' href
        have hlo := htaken.1
        have hother : ¬ Refers fs.store (effective fs k) b := fun hself =>
          hino (hc.unique ino d' _ _ b hstored' href hstored hself)
        rw [hleft.store.frame b (.inr (.inr (hclears.sb ▸ hlo)))]
        refine hclears.frame b href.1 ?_ (.inr (by omega))
        rintro ⟨hb, hdir | ⟨n, hn, rfl⟩⟩
        · exact hother (hmine b ⟨hb, hdir⟩)
        · exact hother (hmine _ ⟨hb, hown n hn htaken⟩) }

def twoBlocks : Store := .mounted superblock fun b t => if b = 4 ∧ t = 0 then 3 else 0

def oneBlockFile (indir : UInt32) : Dinode :=
  { Dinode.zero with type := .file, nblink := 1, size := 4096,
                     dirblkno := fun n => if n = 0 then 11 else 0, indir }

def oneFile (indir : UInt32) : Filesys :=
  (inodeInit twoBlocks).setSlot 0 ⟨1, 2, false, true, oneBlockFile indir⟩

theorem Stored.of_oneFile {indir : UInt32} {ino : ℕ} {d : Dinode} (h : Stored (oneFile indir) ino d) :
    d = Dinode.zero ∨ (ino = 2 ∧ d = oneBlockFile indir) := by
  rcases h.setSlot with (⟨-, rfl⟩ | ⟨k, hvalid, -, -⟩) | ⟨-, rfl, rfl⟩
  · left
    have hblk : itabBlk superblock ino = 6 + ino / 64 := rfl
    have hzero : (oneFile indir).store.blk (itabBlk superblock ino) = fun _ => 0 := by
      funext t
      exact if_neg fun h4 => by omega
    change Dinode.read ((oneFile indir).store.blk (itabBlk superblock ino)) _ = _
    rw [hzero]
    rfl
  · exact absurd hvalid (by simp [inodeInit])
  · exact .inr ⟨rfl, rfl⟩

theorem tableWord_twoBlocks {t : ℕ} (n : ℕ) (ht : t ≠ 4) : tableWord twoBlocks t n = 0 := by
  have hzero : twoBlocks.blk t = fun _ => 0 := funext fun _ => if_neg fun h => ht h.1
  rw [tableWord, hzero]
  rfl

theorem not_refers_zero (s : Store) (b : ℕ) : ¬ Refers s Dinode.zero b := by
  rintro ⟨hb, ⟨n, hn⟩ | ⟨hindir, -⟩⟩
  · exact hb hn.symm
  · exact hindir rfl

theorem direct_oneBlockFile {indir : UInt32} {n : Fin fsInodeDirDblkno}
    (h : (oneBlockFile indir).dirblkno n ≠ 0) : ((oneBlockFile indir).dirblkno n).toNat = 11 := by
  by_cases hn : n = 0
  · rw [hn]
    rfl
  · exact absurd (if_neg hn) h

theorem taken_twoBlocks : Taken twoBlocks 11 ∧ Taken twoBlocks 12 :=
  ⟨⟨by decide, by decide, by decide⟩, by decide, by decide, by decide⟩

theorem consistent_oneFile {indir : UInt32} (h : indir = 0 ∨ indir = 12) : Consistent (oneFile indir) where
  formatted := superblock_formatted
  taken := fun ino d b hd href => by
    rcases hd.of_oneFile with rfl | ⟨-, rfl⟩
    · exact absurd href (not_refers_zero _ b)
    obtain ⟨hb, ⟨n, rfl⟩ | ⟨hindir, hblk⟩⟩ := href
    · rw [direct_oneBlockFile fun h0 => hb (toNat_eq_zero.mpr h0)]
      exact taken_twoBlocks.1
    · obtain rfl : indir = 12 := h.resolve_left hindir
      rcases hblk with rfl | ⟨n, -, rfl⟩
      · exact taken_twoBlocks.2
      · exact absurd (tableWord_twoBlocks n (by decide)) hb
  unique := fun ino d ino' d' b hd href hd' href' => by
    rcases hd.of_oneFile with rfl | ⟨rfl, -⟩
    · exact absurd href (not_refers_zero _ b)
    rcases hd'.of_oneFile with rfl | ⟨rfl, -⟩
    · exact absurd href' (not_refers_zero _ b)
    rfl

theorem effective_oneFile (indir : UInt32) : effective (oneFile indir) 0 = oneBlockFile indir := by
  simp [effective, oneFile]

theorem loops_oneFile {indir : UInt32} (h : indir = 0 ∨ indir = 12) {i : Inode}
    (hi : i.content = oneBlockFile indir) : ∃ s', inodeTruncateLocked twoBlocks i =
        (0, s', { i with content := { i.content with dirblkno := fun _ => 0, size := 0 } }) ∧
      Clears (· = indir.toNat) (· = 11) twoBlocks s' := by
  have hoff : indir.toNat ≠ 4 ∧ (indir.toNat < 4 ∨ 6 ≤ indir.toNat) := by
    rcases h with rfl | rfl <;> decide
  have hdirect : ∀ n, i.content.dirblkno n ≠ 0 → (i.content.dirblkno n).toNat = 11 := by
    rw [hi]
    exact fun n hn => direct_oneBlockFile hn
  have hapart : indir.toNat = 0 ∨ ∀ n, (i.content.dirblkno n).toNat ≠ indir.toNat := by
    rcases h with rfl | rfl
    · exact .inl rfl
    · refine .inr fun n hn => ?_
      have heleven := hdirect n fun h0 => by
        rw [h0] at hn
        exact absurd hn (by decide)
      exact absurd (heleven.symm.trans hn) (by decide)
  obtain ⟨s', heq, hclears⟩ := inodeTruncateLocked_clears (s := twoBlocks) (i := i)
    (t := indir.toNat) superblock_formatted (by rw [hi]; rfl) hoff.2 (fun n hn => by
      rw [hdirect n hn]
      exact ⟨taken_twoBlocks.1.1, taken_twoBlocks.1.2.1⟩) hapart
    fun n _ h0 => absurd (tableWord_twoBlocks n hoff.1) h0
  refine ⟨s', heq, hclears.congr fun b => ?_⟩
  simp only [tableWord_twoBlocks _ hoff.1, hi]
  constructor
  · rintro ⟨hb, ⟨n, rfl⟩ | ⟨n, -, rfl⟩⟩
    · exact direct_oneBlockFile fun h0 => hb (toNat_eq_zero.mpr h0)
    · exact absurd rfl hb
  · rintro rfl
    exact ⟨by decide, .inl ⟨0, rfl⟩⟩

theorem truncate_oneFile {indir : UInt32} (h : indir = 0 ∨ indir = 12) :
    ∃ fs', inodeTruncate (oneFile indir) 0 = some (0, fs') := by
  obtain ⟨s', heq, hclears⟩ := loops_oneFile h (i := lockedSlot (oneFile indir) 0) (effective_oneFile indir)
  refine inodeTruncate_of_loops rfl rfl heq ?_
  rw [hclears.sb]
  exact (by decide : 2 < nbInodes superblock)

/-- Without an indirect block the file gives back its block. -/
theorem truncation_frees_exactly_oneFile : ∃ fs', Consistent (oneFile 0) ∧
    NamesNoMetadata (oneFile 0).store ∧ Truncates (oneFile 0) 0 fs' ∧
    FreesExactlyWhen (oneFile 0) 0 ∧ FreesExactly (oneFile 0) 0 fs' := by
  obtain ⟨fs', htrunc⟩ := truncate_oneFile (.inl rfl)
  have hc := consistent_oneFile (.inl rfl)
  have hzero : ∀ n, tableWord (oneFile 0).store 0 n = 0 := fun n =>
    tableWord_twoBlocks n (by decide)
  have hwords : NamesNoMetadata (oneFile 0).store := fun n _ h0 => absurd (hzero n) h0
  have hwhen : FreesExactlyWhen (oneFile 0) 0 := by
    refine ⟨by rw [effective_oneFile]; rfl, fun n _ htaken => ?_⟩
    rw [hzero] at htaken
    exact absurd htaken.1 (by decide)
  exact ⟨fs', hc, hwords, .truncate htrunc, hwhen,
    (truncation_frees_exactly_iff hc hwords (.truncate htrunc)).mpr hwhen⟩

/-- `inode_truncate` answers 0, but block 12, the table of the file, stays in use and the inode
still points to it. -/
theorem truncated_file_keeps_its_table : ∃ fs', Consistent (oneFile 12) ∧
    inodeTruncate (oneFile 12) 0 = some (0, fs') ∧ Refers (oneFile 12).store (effective (oneFile 12) 0) 12 ∧
    dataBit fs'.store 12 = true ∧ (effective fs' 0).indir = 12 ∧ ¬ FreesExactly (oneFile 12) 0 fs' := by
  obtain ⟨fs', htrunc⟩ := truncate_oneFile (.inr rfl)
  have hin : inData superblock 12 := ⟨by decide, by decide⟩
  obtain ⟨-, i, r, s, i', d, hloop, hi, hd, hleft⟩ := (Truncates.truncate htrunc).leaves superblock_wellFormed
  obtain ⟨s', heq, hclears⟩ := loops_oneFile (.inr rfl) (hi.trans (effective_oneFile 12))
  obtain ⟨-, rfl, rfl⟩ : r = 0 ∧ s = s' ∧ i' = _ := by simpa using hloop.symm.trans heq
  have hkept : (effective fs' 0).indir = 12 := by
    rw [hleft.shown, hd]
    exact congrArg Dinode.indir (hi.trans (effective_oneFile 12))
  refine ⟨fs', consistent_oneFile (.inr rfl), htrunc, ⟨by decide, .inr ?_⟩, ?_, hkept, fun hf => ?_⟩
  · rw [effective_oneFile]
    exact ⟨by decide, .inl rfl⟩
  · rw [hleft.store.dataBit (hclears.sb ▸ superblock_wellFormed) (hclears.sb ▸ hin), hclears.bits 12 hin]
    exact ⟨taken_twoBlocks.2.2.2, by decide⟩
  · exact absurd (hkept.symm.trans hf.indir) (by decide)

end Exactly

end RvMiniOs.Fs
