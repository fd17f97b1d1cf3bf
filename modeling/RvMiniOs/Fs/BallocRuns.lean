import RvMiniOs.Fs.BlockMap
import RvMiniOs.Fs.Mkfs
import RvMiniOs.Lib.Runs

/-!
# Runs of the block allocator

`balloc` and `bfree` against a ledger of the blocks that were handed out. The ledger
follows the answers of the calls and never looks at the bitmap. The second part is what
`_get_data_locked` makes of an allocation that failed.
-/

namespace RvMiniOs.Fs

open Lib Option Finset

/-- The layout of `mkfs`: every block from `data_start` on is a data block, and no bit of
the data bitmap stands for a number beyond `uint32_t`. -/
structure FsMeta.Formatted (m : FsMeta) : Prop where
  wf : m.WellFormed
  dblk : m.dataStart + m.nbDblk = m.nbBlk
  words : m.dataStart + m.nbDbm * fsBmBitsPerBlk ≤ 2 ^ 32

inductive BlockCall where
  | balloc
  | bfree (blkno : ℕ)

/-- The store, and the blocks that are allocated according to the calls so far. -/
structure Ledger where
  store : Store
  allocated : Finset ℕ

def Ledger.step (l : Ledger) : BlockCall → Option Ledger
  | .balloc =>
    let (blkno, s) := Fs.balloc l.store
    some ⟨s, if blkno < 0 then l.allocated else insert blkno.toNat l.allocated⟩
  | .bfree blkno => some ⟨(Fs.bfree l.store blkno).2, l.allocated.erase blkno⟩

def inData (m : FsMeta) (b : ℕ) : Prop := m.dataStart ≤ b ∧ b < m.nbBlk

/-- The blocks of the two bitmaps. -/
def IsBitmapBlk (m : FsMeta) (b : ℕ) : Prop :=
  (m.ibmStart ≤ b ∧ b < m.ibmStart + m.nbIbm) ∨ (m.dbmStart ≤ b ∧ b < m.dbmStart + m.nbDbm)

def BitmapsKept (s s' : Store) : Prop :=
  ∀ b, IsBitmapBlk s.sb b → ∀ k < fsBmBitsPerBlk, bmBit (s'.blk b) k = bmBit (s.blk b) k

/-- The buffer of `b` holds no bits of a bitmap that are not on the disk. -/
def NothingToLose (s : Store) (b : ℕ) : Prop :=
  IsBitmapBlk s.sb b → ∀ k < fsBmBitsPerBlk, bmBit (s.disk b) k = bmBit (s.blk b) k

/-- `bfree` is called on allocated blocks, or on blocks that are no data blocks and whose
buffer can be dropped without a loss. -/
def Ledger.ok (l : Ledger) : BlockCall → Prop
  | .balloc => True
  | .bfree blkno =>
    blkno ∈ l.allocated ∨ (¬ inData l.store.sb blkno ∧ NothingToLose l.store blkno)

/-- The allocated blocks are the data blocks whose bit is set; `balloc` is not made to
fail. -/
structure Ledger.Exact (l : Ledger) : Prop where
  format : l.store.sb.Formatted
  inside : ∀ b ∈ l.allocated, inData l.store.sb b
  bits : ∀ b, inData l.store.sb b → (b ∈ l.allocated ↔ dataBit l.store b = true)
  free : l.store.deny = []

structure Ledger.BallocRight (l : Ledger) : Prop where
  fresh : (Fs.balloc l.store).1 ≠ -enospc → ∃ b : ℕ, (Fs.balloc l.store).1 = b ∧
    inData l.store.sb b ∧ b ∉ l.allocated ∧ (Fs.balloc l.store).2.blk b = fun _ => 0
  full : (Fs.balloc l.store).1 = -enospc ↔ ∀ b, inData l.store.sb b → b ∈ l.allocated

structure Ledger.BfreeRight (l : Ledger) (blkno : ℕ) : Prop where
  freed : blkno ∈ l.allocated → (Fs.bfree l.store blkno).1 = 0 ∧ ∀ b, inData l.store.sb b →
    dataBit (Fs.bfree l.store blkno).2 b = (dataBit l.store b && decide (b ≠ blkno))
  /-- A block outside of the data region is refused, and the bitmaps are as before exactly
  when its buffer had nothing to lose. -/
  outside : ¬ inData l.store.sb blkno → (Fs.bfree l.store blkno).1 = -einval ∧
    (BitmapsKept l.store (Fs.bfree l.store blkno).2 ↔ NothingToLose l.store blkno)

theorem neg_enospc_lt : (-enospc : ℤ) < 0 := by decide

theorem regionBit_clear {s : Store} {r : BitRegion} (k j : ℕ) :
    regionBit (s.setBlk (r.start + k / fsBmBitsPerBlk)
      (bmClearBit (s.blk (r.start + k / fsBmBitsPerBlk)) (k % fsBmBitsPerBlk))) r j =
        (regionBit s r j && decide (j ≠ k)) := by
  by_cases hblk : j / 32768 = k / 32768
  · have hbit : j % 32768 ≠ k % 32768 ↔ j ≠ k := by omega
    simp only [regionBit, hblk, Store.setBlk_blk_self, bmBit_bmClearBit, hbit]
  · have hne : j ≠ k := fun h => hblk (h ▸ rfl)
    have hblk' : r.start + j / 32768 ≠ r.start + k / 32768 := by omega
    rw [regionBit, Store.setBlk_blk_ne _ hblk']
    simp [regionBit, hne]

section

variable {l l' : Ledger} {blkno : ℕ}

theorem bfree_outside {s : Store} (h : s.sb.Formatted) (hb : ¬ inData s.sb blkno) :
    bfree s blkno = (-einval, bcacheInvalidate s blkno) := by
  have hend := h.dblk
  unfold bfree bbmFree bmFree
  refine if_pos ?_
  simp only [inData, dataRegion, bcacheInvalidate, Store.setBlk_sb] at *
  omega

theorem bcacheInvalidate_bit {s : Store} {b k : ℕ} (hlose : NothingToLose s blkno)
    (hb : IsBitmapBlk s.sb b) (hk : k < fsBmBitsPerBlk) :
    bmBit ((bcacheInvalidate s blkno).blk b) k = bmBit (s.blk b) k := by
  by_cases heq : b = blkno
  · subst heq
    rw [bcacheInvalidate, Store.setBlk_blk_self]
    exact hlose hb k hk
  · rw [bcacheInvalidate, Store.setBlk_blk_ne _ heq]

theorem bitmapsKept_invalidate_iff {s : Store} :
    BitmapsKept s (bcacheInvalidate s blkno) ↔ NothingToLose s blkno := by
  refine ⟨fun h hb k hk => ?_, fun h b hb k hk => bcacheInvalidate_bit h hb hk⟩
  have hkept := h blkno hb k hk
  rwa [bcacheInvalidate, Store.setBlk_blk_self] at hkept

theorem isBitmapBlk_of_inData {m : FsMeta} (wf : m.WellFormed) {b : ℕ} (hb : inData m b) :
    IsBitmapBlk m (m.dbmStart + (b - m.dataStart) / fsBmBitsPerBlk) := by
  have hbits := wf.bits
  have hdiv : (b - m.dataStart) / 32768 < m.nbDbm := by
    simp only [inData, fsBmBitsPerBlk] at *
    omega
  simp only [IsBitmapBlk, fsBmBitsPerBlk]
  omega

theorem dataBit_invalidate {s : Store} {b : ℕ} (wf : s.sb.WellFormed)
    (hlose : NothingToLose s blkno) (hb : inData s.sb b) :
    dataBit (bcacheInvalidate s blkno) b = dataBit s b :=
  bcacheInvalidate_bit hlose (isBitmapBlk_of_inData wf hb) (Nat.mod_lt _ (by decide))

theorem nothingToLose_of_inData {s : Store} (wf : s.sb.WellFormed) (hb : inData s.sb blkno) :
    NothingToLose s blkno := by
  obtain ⟨_, hibm, hdbm, hitab, _⟩ := wf
  rintro (⟨-, hlt⟩ | ⟨-, hlt⟩)
  · simp only [inData] at hb
    omega
  · simp only [inData] at hb
    omega

theorem bfree_inside {s : Store} (h : s.sb.Formatted) (hb : inData s.sb blkno) :
    ∃ s', bfree s blkno = (0, s') ∧ s'.sb = s.sb ∧ s'.deny = s.deny ∧
      ∀ b, inData s.sb b → dataBit s' b = (dataBit s b && decide (b ≠ blkno)) := by
  have hend := h.dblk
  unfold bfree bbmFree bmFree
  rw [if_neg (by simp only [inData, dataRegion, bcacheInvalidate, Store.setBlk_sb] at *; omega)]
  refine ⟨_, rfl, rfl, rfl, fun b hin => ?_⟩
  have hiff : b - s.sb.dataStart ≠ blkno - s.sb.dataStart ↔ b ≠ blkno := by
    simp only [inData] at *
    omega
  have hclear := @regionBit_clear (bcacheInvalidate s blkno) (dataRegion s.sb)
    (blkno - s.sb.dataStart) (b - s.sb.dataStart)
  have hsame := dataBit_invalidate h.wf (nothingToLose_of_inData h.wf hb) hin
  simp only [hiff] at hclear
  rw [← hsame]
  exact hclear

theorem Ledger.Exact.ballocRight (h : l.Exact) : l.BallocRight := by
  rcases balloc_cases h.format.wf with ⟨b, s', hb, -, ha⟩ | ⟨hb, hwhy⟩
  · have hin : inData l.store.sb b := ⟨ha.lo, ha.hi⟩
    have hnot : b ∉ l.allocated := fun hmem => by
      have hclear := ha.clear
      rw [(h.bits b hin).mp hmem] at hclear
      cases hclear
    have hpos : ((b : ℕ) : ℤ) ≠ -enospc := by
      have := neg_enospc_lt
      omega
    refine ⟨fun _ => ⟨b, by rw [hb], hin, hnot, by rw [hb]; exact ha.zero⟩, ?_⟩
    rw [hb]
    exact ⟨fun heq => absurd heq hpos, fun hall => absurd (hall b hin) hnot⟩
  · rw [h.free] at hwhy
    obtain hdeny | hfull := hwhy
    · cases hdeny
    · refine ⟨fun hne => absurd (by rw [hb]) hne, ?_⟩
      rw [hb]
      exact ⟨fun _ b hin => (h.bits b hin).mpr (hfull b hin.1 hin.2), fun _ => rfl⟩

theorem Ledger.Exact.bfreeRight (h : l.Exact) (blkno : ℕ) : l.BfreeRight blkno := by
  refine ⟨fun hmem => ?_, fun hout => ?_⟩
  · obtain ⟨s', hfree, -, -, hbits⟩ := bfree_inside h.format (h.inside blkno hmem)
    rw [hfree]
    exact ⟨rfl, hbits⟩
  · rw [bfree_outside h.format hout]
    exact ⟨rfl, bitmapsKept_invalidate_iff⟩

theorem Ledger.Exact.step (h : l.Exact) {c : BlockCall} (hok : l.ok c) (hstep : l.step c = some l') :
    l'.Exact := by
  cases c with
  | balloc =>
    rcases balloc_cases h.format.wf with ⟨b, s', hb, hdeny, ha⟩ | ⟨hb, -⟩
    · rw [Ledger.step, hb] at hstep
      cases hstep
      rw [if_neg (by omega), Int.toNat_natCast]
      have hsb := ha.sb
      refine ⟨hsb ▸ h.format, fun c hc => ?_, fun c hin => ?_, ?_⟩
      · rw [hsb]
        rcases mem_insert.mp hc with rfl | hc
        · exact ⟨ha.lo, ha.hi⟩
        · exact h.inside c hc
      · rw [hsb] at hin
        rw [ha.bits c hin.1 hin.2, mem_insert, h.bits c hin, Bool.or_eq_true, decide_eq_true_eq]
        exact or_comm
      · rw [hdeny, h.free]
        rfl
    · rw [Ledger.step, hb] at hstep
      cases hstep
      rw [if_pos (by decide)]
      exact ⟨h.format, h.inside, h.bits, by rw [Store.refuse, h.free]; rfl⟩
  | bfree blkno =>
    cases hstep
    by_cases hin : inData l.store.sb blkno
    · obtain ⟨s', hfree, hsb, hdeny, hbits⟩ := bfree_inside h.format hin
      rw [hfree]
      dsimp only
      refine ⟨hsb ▸ h.format, fun c hc => ?_, fun c hc => ?_, hdeny.trans h.free⟩
      · rw [hsb]
        exact h.inside c (mem_of_mem_erase hc)
      · rw [hsb] at hc
        rw [hbits c hc, mem_erase, h.bits c hc, Bool.and_eq_true, decide_eq_true_eq]
        exact and_comm
    · have hnot : blkno ∉ l.allocated := fun hmem => hin (h.inside blkno hmem)
      have hlose : NothingToLose l.store blkno := (hok.resolve_left hnot).2
      rw [bfree_outside h.format hin, erase_eq_of_notMem hnot]
      refine ⟨h.format, h.inside, fun b hb => ?_, h.free⟩
      rw [dataBit_invalidate h.format.wf hlose hb]
      exact h.bits b hb

/-- In every run that drops no changed bitmap, `balloc` hands out data blocks that are not
allocated, and fails exactly when there are none; `bfree` makes its block allocatable again
and refuses a block outside the data region. -/
theorem blockAllocator_exact {l₀ : Ledger} (h₀ : l₀.Exact) (hrun : Reaches Ledger.step Ledger.ok l₀ l) :
    l.BallocRight ∧ ∀ blkno, l.BfreeRight blkno := by
  have h : l.Exact := hrun.invariant h₀ fun _ _ _ h hok hstep => h.step hok hstep
  exact ⟨h.ballocRight, h.bfreeRight⟩

end

/-! A disk of `mkfs` without allocated blocks. -/

theorem superblock_formatted : superblock.Formatted := ⟨superblock_wellFormed, by decide, by decide⟩

def blankLedger : Ledger := ⟨.mounted superblock fun _ _ => 0, ∅⟩

theorem dataBit_blankLedger (b : ℕ) : dataBit blankLedger.store b = false := Nat.zero_testBit _

theorem blankLedger_exact : blankLedger.Exact where
  format := superblock_formatted
  inside := fun _ hb => absurd hb (notMem_empty _)
  bits := fun b _ => by
    rw [dataBit_blankLedger]
    exact ⟨fun hb => absurd hb (notMem_empty _), fun hb => (nomatch hb)⟩
  free := rfl

/-- The first data block is allocated and freed. -/
theorem blockAllocator_exact_blank : ∃ l₁ l₂, blankLedger.step .balloc = some l₁ ∧
    l₁.step (.bfree superblock.dataStart) = some l₂ ∧ superblock.dataStart ∈ l₁.allocated ∧
    l₁.BallocRight ∧ l₂.BallocRight := by
  have hmem : superblock.dataStart ∈ (blankLedger.step .balloc).elim ∅ Ledger.allocated := by
    decide +kernel
  obtain ⟨l₁, hl₁⟩ : ∃ l₁, blankLedger.step .balloc = some l₁ := ⟨_, rfl⟩
  obtain ⟨l₂, hl₂⟩ : ∃ l₂, l₁.step (.bfree superblock.dataStart) = some l₂ := ⟨_, rfl⟩
  rw [hl₁] at hmem
  have hrun := @Reaches.tail _ _ Ledger.step Ledger.ok _ _ _ (Reaches.refl blankLedger) .balloc trivial hl₁
  exact ⟨l₁, l₂, hl₁, hl₂, hmem, (blockAllocator_exact blankLedger_exact hrun).1,
    (blockAllocator_exact blankLedger_exact (hrun.tail (.bfree superblock.dataStart) (Or.inl hmem) hl₂)).1⟩

/-- `bfree` of the data bitmap's own block is refused, but the bits of the blocks that were
allocated since the last write back are lost, and the next `balloc` hands out the first data
block a second time. -/
theorem refused_bfree_frees : ∃ l₁ l₂, blankLedger.Exact ∧ blankLedger.step .balloc = some l₁ ∧
    ¬ inData l₁.store.sb superblock.dbmStart ∧
    l₁.step (.bfree superblock.dbmStart) = some l₂ ∧
    (bfree l₁.store superblock.dbmStart).1 = -einval ∧ ¬ BitmapsKept l₁.store l₂.store ∧
    superblock.dataStart ∈ l₂.allocated ∧ (balloc l₂.store).1 = superblock.dataStart ∧
    ¬ l₂.BallocRight := by
  have hmem : superblock.dataStart ∈ ((blankLedger.step .balloc).bind
      (·.step (.bfree superblock.dbmStart))).elim ∅ Ledger.allocated := by
    decide +kernel
  have hagain : (balloc (bfree (balloc blankLedger.store).2 superblock.dbmStart).2).1 =
      superblock.dataStart := by
    decide +kernel
  have hbit : bmBit ((bfree (balloc blankLedger.store).2 superblock.dbmStart).2.blk
      superblock.dbmStart) 0 ≠ bmBit ((balloc blankLedger.store).2.blk superblock.dbmStart) 0 := by
    decide +kernel
  have hres : (bfree (balloc blankLedger.store).2 superblock.dbmStart).1 = -einval := by
    decide +kernel
  obtain ⟨l₁, hl₁, hs₁⟩ : ∃ l₁, blankLedger.step .balloc = some l₁ ∧
      l₁.store = (balloc blankLedger.store).2 := ⟨_, rfl, rfl⟩
  obtain ⟨l₂, hl₂, hs₂⟩ : ∃ l₂, l₁.step (.bfree superblock.dbmStart) = some l₂ ∧
      l₂.store = (bfree l₁.store superblock.dbmStart).2 := ⟨_, rfl, rfl⟩
  rw [hl₁, bind_some, hl₂] at hmem
  rw [← hs₁] at hagain hbit hres
  rw [← hs₂] at hagain hbit
  have hsb : l₁.store.sb = superblock := by
    rw [hs₁]
    rfl
  refine ⟨l₁, l₂, blankLedger_exact, hl₁, fun hin => ?_, hl₂, hres, fun hkept => ?_, hmem,
    hagain, fun hright => ?_⟩
  · rw [hsb] at hin
    exact absurd hin.1 (by decide)
  · refine hbit (hkept superblock.dbmStart (.inr ?_) 0 (by decide))
    rw [hsb]
    exact ⟨le_rfl, by decide⟩
  · obtain ⟨b, hb, -, hnot, -⟩ := hright.fresh (by rw [hagain]; decide)
    obtain rfl : superblock.dataStart = b := Int.natCast_inj.mp (hagain.symm.trans hb)
    exact hnot hmem

/-- What a call of `_get_data_locked` may do to the block map: nothing when it fails, and
otherwise at most enter a data block. -/
structure BlockMapKept (s : Store) (i : Inode) (nth : ℕ) : Prop where
  failed : (getDataLocked s i nth).1 < 0 →
    (∀ n < fsInodeDirDblkno + fsInodeIndirDblkno,
      ptr (getDataLocked s i nth).2.1 (getDataLocked s i nth).2.2.content n = ptr s i.content n) ∧
    (getDataLocked s i nth).2.2.content.size = i.content.size
  entered : ptr s i.content nth = 0 →
    ptr (getDataLocked s i nth).2.1 (getDataLocked s i nth).2.2.content nth = 0 ∨
      inData s.sb (ptr (getDataLocked s i nth).2.1 (getDataLocked s i nth).2.2.content nth)

def HasRoom (s : Store) : Prop := s.deny.headD false = false ∧ ∃ b, inData s.sb b ∧ dataBit s b = false

theorem balloc_of_not_hasRoom {s : Store} (wf : s.sb.WellFormed) (h : ¬ HasRoom s) :
    balloc s = (-enospc, s.refuse) := by
  by_cases hdeny : s.deny.headD false = true
  · rw [balloc, if_pos hdeny]
  · rcases balloc_cases wf with ⟨b, s', -, -, ha⟩ | ⟨hb, -⟩
    · exact absurd ⟨by simpa using hdeny, b, ⟨ha.lo, ha.hi⟩, ha.clear⟩ h
    · exact hb

theorem not_hasRoom_of_refused {s : Store} (wf : s.sb.WellFormed) (h : balloc s = (-enospc, s.refuse)) :
    ¬ HasRoom s := by
  rintro ⟨hdeny, b, hin, hclear⟩
  rcases balloc_cases wf with ⟨c, s', hb, -, -⟩ | ⟨-, hwhy | hfull⟩
  · rw [hb] at h
    have hneg : ((c : ℕ) : ℤ) = -enospc := (Prod.mk.inj h).1
    have := neg_enospc_lt
    omega
  · rw [hdeny] at hwhy
    cases hwhy
  · rw [hfull b hin.1 hin.2] at hclear
    cases hclear

/-- `_get_data_locked` treats the block map well exactly when it has nothing to allocate
or there is a free block. -/
theorem failed_allocation_kept_iff {s : Store} {i : Inode} {nth : ℕ} (wf : s.sb.WellFormed) :
    BlockMapKept s i nth ↔
      fsInodeDirDblkno + fsInodeIndirDblkno ≤ nth ∨ ptr s i.content nth ≠ 0 ∨ HasRoom s := by
  by_cases hn : nth < 1036
  · rcases getDataLocked_cases (i := i) wf hn with ⟨hp, hget⟩ | ⟨hp, b, s', v, ha, -, hv, hget⟩ | ⟨hp, hb, v, hv, hget⟩
    · refine iff_of_true ⟨fun _ => ?_, fun h0 => absurd h0 hp⟩ (.inr (.inl hp))
      rw [hget]
      exact ⟨fun _ _ => rfl, rfl⟩
    · have hroom : HasRoom s := by
        by_contra hfull
        have hdisk := balloc_of_not_hasRoom wf hfull
        rw [getDataLocked_of_unmapped hn hp, hdisk] at hget
        have hneg : (b : ℤ) = -enospc := (Prod.mk.inj hget).1.symm
        have := neg_enospc_lt
        omega
      refine iff_of_true ⟨fun hneg => ?_, fun _ => .inr ?_⟩ (.inr (.inr hroom))
      · rw [hget] at hneg
        exact absurd hneg (by dsimp only; omega)
      · rw [hget, ptr_setPtr_self, hv]
        exact ⟨ha.lo, ha.hi⟩
    · have hroom : ¬ HasRoom s := not_hasRoom_of_refused wf hb
      refine iff_of_false (fun hkept => ?_) ?_
      · have hneg : (getDataLocked s i nth).1 < 0 := by
          rw [hget]
          exact neg_enospc_lt
        have hsame := (hkept.failed hneg).1 nth hn
        rw [hget, ptr_setPtr_self, hp] at hsame
        omega
      · rintro (hbig | hne | hyes)
        · exact absurd hn (not_lt.mpr hbig)
        · exact hne hp
        · exact hroom hyes
  · have hbig : fsInodeDirDblkno + fsInodeIndirDblkno ≤ nth := not_lt.mp hn
    have hget : getDataLocked s i nth = (-efbig, s, i) := by
      rw [getDataLocked, if_pos hbig]
    refine iff_of_true ⟨fun _ => ?_, fun h0 => .inl ?_⟩ (.inl hbig)
    · rw [hget]
      exact ⟨fun _ _ => rfl, rfl⟩
    · rw [hget]
      exact h0

def fullStore : Store := .mounted superblock fun _ _ => 255

def emptyInode : Inode := ⟨1, 2, true, true, { Dinode.zero with type := .file, nblink := 1 }⟩

theorem fullStore_full : ¬ HasRoom fullStore := by
  rintro ⟨-, b, -, hclear⟩
  have hset : dataBit fullStore b = true := by
    have hbit : ∀ k < 8, (255 : UInt8).toNat.testBit k = true := by decide
    exact hbit _ (Nat.mod_lt _ (by decide))
  rw [hset] at hclear
  cases hclear

/-- An empty disk serves the first block of an empty file. -/
theorem failed_allocation_kept_blank : BlockMapKept blankLedger.store emptyInode 0 := by
  refine (failed_allocation_kept_iff superblock_wellFormed).mpr (.inr (.inr ⟨rfl, superblock.dataStart, ?_, ?_⟩))
  · exact ⟨le_rfl, by decide⟩
  · exact dataBit_blankLedger _

/-- On a full disk the error code is entered as the first block of the file, and from then
on every store answers it. -/
theorem failed_allocation_entered : ¬ BlockMapKept fullStore emptyInode 0 ∧
    ∀ s, (getDataLocked s (getDataLocked fullStore emptyInode 0).2.2 0).1 = -enospc := by
  have hget : getDataLocked fullStore emptyInode 0 = (-enospc, setPtr fullStore.refuse emptyInode 0 (toU32 (-enospc))) := by
    rw [getDataLocked_of_unmapped (by decide) rfl, balloc_of_not_hasRoom superblock_wellFormed fullStore_full]
    rfl
  refine ⟨fun hkept => ?_, fun s => ?_⟩
  · have hsame := (hkept.failed (by rw [hget]; decide)).1 0 (by decide)
    rw [hget, ptr_setPtr_self] at hsame
    exact absurd hsame (by decide)
  · rw [hget, getDataLocked_of_mapped (by decide)]
    · rfl
    · change (toU32 (-enospc)).toNat ≠ 0
      decide

end RvMiniOs.Fs
