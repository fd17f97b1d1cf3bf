import RvMiniOs.Err
import RvMiniOs.Fs.Bitmap

/-!
# Block allocator

The block cache is taken as an array of blocks, so `bcache_read` never fails and
`bcache_mark_dirty` and `bcache_release` leave no trace. Beside it stand the
blocks as they are on the disk: `bfree` invalidates the buffer of its block before
it looks at the number, and a block whose buffer is dropped shows again what was
last written back.

`bbm_alloc` and `ibm_alloc` are the same search over two regions of the disk, and
so are `bbm_free` and `ibm_free`: both are instances of one definition over a
`BitRegion`.
-/

namespace RvMiniOs.Fs

open Lib

/-- The superblock, the blocks as the cache shows them and as they are on the disk
(nothing in the kernel writes them back). `deny` lists the answers the environment
forces on the coming calls of `balloc` (`true` for a failure with `-ENOSPC`); in
the running kernel it is empty. `refused` counts the calls that failed. -/
structure Store where
  sb : FsMeta
  blk : ℕ → Bytes
  disk : ℕ → Bytes
  deny : List Bool
  refused : ℕ

namespace Store

/-- A disk that has just been mounted. -/
def mounted (sb : FsMeta) (blk : ℕ → Bytes) : Store := ⟨sb, blk, blk, [], 0⟩

def setBlk (s : Store) (b : ℕ) (c : Bytes) : Store := { s with blk := Function.update s.blk b c }

@[simp] theorem setBlk_sb (s : Store) (b : ℕ) (c : Bytes) : (s.setBlk b c).sb = s.sb := rfl

@[simp] theorem setBlk_disk (s : Store) (b : ℕ) (c : Bytes) : (s.setBlk b c).disk = s.disk := rfl

@[simp] theorem setBlk_blk_self (s : Store) (b : ℕ) (c : Bytes) : (s.setBlk b c).blk b = c := by
  simp [setBlk]

theorem setBlk_blk_ne {s : Store} {b b' : ℕ} (c : Bytes) (h : b' ≠ b) :
    (s.setBlk b c).blk b' = s.blk b' := by
  simp [setBlk, h]

def refuse (s : Store) : Store := { s with deny := s.deny.tail, refused := s.refused + 1 }

def grant (s : Store) : Store := { s with deny := s.deny.tail }

end Store

/-- A region of the disk with its bitmap: the first bitmap block and their
number, the number that bit 0 stands for, the bound that allocation checks and
the bound that freeing checks. -/
structure BitRegion where
  start : ℕ
  count : ℕ
  base : ℕ
  bound : ℕ
  limit : ℕ

def nbInodes (sb : FsMeta) : ℕ := sb.nbItab * inodesPerBlk

def dataRegion (sb : FsMeta) : BitRegion :=
  ⟨sb.dbmStart, sb.nbDbm, sb.dataStart, sb.nbBlk, sb.dataStart + sb.nbDblk⟩

def inodeRegion (sb : FsMeta) : BitRegion :=
  ⟨sb.ibmStart, sb.nbIbm, 0, nbInodes sb, nbInodes sb⟩

def regionBit (s : Store) (r : BitRegion) (k : ℕ) : Bool :=
  bmBit (s.blk (r.start + k / fsBmBitsPerBlk)) (k % fsBmBitsPerBlk)

def dataBit (s : Store) (b : ℕ) : Bool := regionBit s (dataRegion s.sb) (b - s.sb.dataStart)

def inodeBit (s : Store) (ino : ℕ) : Bool := regionBit s (inodeRegion s.sb) ino

def setRegionBit (s : Store) (r : BitRegion) (k : ℕ) : Store :=
  s.setBlk (r.start + k / fsBmBitsPerBlk)
    (bmSetBit (s.blk (r.start + k / fsBmBitsPerBlk)) (k % fsBmBitsPerBlk))

/-- The loop shared by `bbm_alloc` and `ibm_alloc`, at bitmap block `i` with
`left` blocks to go. The first zero bit beyond the region ends the search. -/
def bmAllocFrom (s : Store) (r : BitRegion) : ℕ → ℕ → ℤ × Store
  | 0, _ => (-enospc, s)
  | left + 1, i =>
    let bitIdx := bmFindFirstZero (s.blk (r.start + i)) fsBmBitsPerBlk
    if 0 ≤ bitIdx then
      let no := bitIdx.toNat + i * fsBmBitsPerBlk + r.base
      if r.bound ≤ no then (-enospc, s)
      else (asInt32 no, s.setBlk (r.start + i) (bmSetBit (s.blk (r.start + i)) bitIdx.toNat))
    else bmAllocFrom s r left (i + 1)

def bmAlloc (s : Store) (r : BitRegion) : ℤ × Store := bmAllocFrom s r r.count 0

/-- The body shared by `bbm_free` and `ibm_free`. -/
def bmFree (s : Store) (r : BitRegion) (no : ℕ) : ℤ × Store :=
  if no < r.base ∨ r.limit ≤ no then (-einval, s)
  else
    let idx := no - r.base
    let bmBlkNo := r.start + idx / fsBmBitsPerBlk
    (0, s.setBlk bmBlkNo (bmClearBit (s.blk bmBlkNo) (idx % fsBmBitsPerBlk)))

def bbmAlloc (s : Store) : ℤ × Store := bmAlloc s (dataRegion s.sb)

def bbmFree (s : Store) (blkno : ℕ) : ℤ × Store := bmFree s (dataRegion s.sb) blkno

def ibmAlloc (s : Store) : ℤ × Store := bmAlloc s (inodeRegion s.sb)

def ibmFree (s : Store) (id : ℕ) : ℤ × Store := bmFree s (inodeRegion s.sb) id

def balloc (s : Store) : ℤ × Store :=
  if s.deny.headD false then (-enospc, s.refuse)
  else
    let a := bbmAlloc s
    if a.1 < 0 then (a.1, a.2.refuse)
    else (a.1, (a.2.setBlk a.1.toNat fun _ => 0).grant)

/-- Without a buffer there is nothing to drop, and the block is the one on the disk
already. -/
def bcacheInvalidate (s : Store) (blkno : ℕ) : Store := s.setBlk blkno (s.disk blkno)

def bfree (s : Store) (blkno : ℕ) : ℤ × Store := bbmFree (bcacheInvalidate s blkno) blkno

section Region

variable {s : Store} {r : BitRegion}

theorem regionBit_congr {s' : Store} {k : ℕ}
    (h : s'.blk (r.start + k / fsBmBitsPerBlk) = s.blk (r.start + k / fsBmBitsPerBlk)) :
    regionBit s' r k = regionBit s r k := by
  rw [regionBit, regionBit, h]

theorem regionBit_setRegionBit (k j : ℕ) :
    regionBit (setRegionBit s r k) r j = (regionBit s r j || decide (j = k)) := by
  by_cases hblk : j / 32768 = k / 32768
  · have hbit : j % 32768 = k % 32768 ↔ j = k := by omega
    simp only [regionBit, setRegionBit, hblk, Store.setBlk_blk_self, bmBit_bmSetBit, hbit]
  · have hne : j ≠ k := fun h => hblk (h ▸ rfl)
    have hblk' : r.start + j / 32768 ≠ r.start + k / 32768 := by omega
    rw [regionBit, setRegionBit, Store.setBlk_blk_ne _ hblk']
    simp [regionBit, hne]

theorem setRegionBit_blk {k b : ℕ} (hk : k < r.count * 32768)
    (hb : b < r.start ∨ r.start + r.count ≤ b) : (setRegionBit s r k).blk b = s.blk b := by
  have hdiv : k / 32768 < r.count := Nat.div_lt_of_lt_mul (by omega)
  exact Store.setBlk_blk_ne _ (by simp only [fsBmBitsPerBlk]; omega)

theorem bmAllocFrom_spec (left i : ℕ) (hfull : ∀ k < i * 32768, regionBit s r k = true) :
    (bmAllocFrom s r left i = (-enospc, s) ∧ ∀ k < (i + left) * 32768, r.base + k < r.bound →
    regionBit s r k = true) ∨ ∃ k < (i + left) * 32768, r.base + k < r.bound ∧ regionBit s r k = false ∧
    bmAllocFrom s r left i = (asInt32 (r.base + k), setRegionBit s r k) := by
  induction left generalizing i with
  | zero => exact Or.inl ⟨rfl, fun k hk _ => hfull k hk⟩
  | succ left ih =>
    have hbit : ∀ j < 32768, regionBit s r (i * 32768 + j) = bmBit (s.blk (r.start + i)) j := by
      intro j hj
      have hdiv : (i * 32768 + j) / 32768 = i := by omega
      have hmod : (i * 32768 + j) % 32768 = j := by omega
      simp only [regionBit, hdiv, hmod]
    have hbelow : ∀ n ≤ 32768, (∀ j < n, bmBit (s.blk (r.start + i)) j = true) →
        ∀ k < i * 32768 + n, regionBit s r k = true := by
      intro n hn hset k hk
      by_cases hlow : k < i * 32768
      · exact hfull k hlow
      · have hk' := hbit (k - i * 32768) (by omega)
        rw [show i * 32768 + (k - i * 32768) = k by omega] at hk'
        rw [hk']
        exact hset _ (by omega)
    rw [bmAllocFrom]
    rcases bmFindFirstZero_spec (s.blk (r.start + i)) 32768 (by norm_num) with
      ⟨hnone, hall⟩ | ⟨j, hj, hsome, hclear, hset⟩
    · have hnext := hbelow 32768 le_rfl hall
      rw [show i * 32768 + 32768 = (i + 1) * 32768 by ring] at hnext
      rw [show i + (left + 1) = i + 1 + left by omega]
      simp only [fsBmBitsPerBlk, hnone, show ¬ (0 : ℤ) ≤ -1 by norm_num, if_false]
      exact ih (i + 1) hnext
    · simp only [fsBmBitsPerBlk, hsome, Int.natCast_nonneg, if_true, Int.toNat_natCast]
      have hdone := hbelow j (by omega) hset
      split_ifs with hbound
      · -- every zero bit from here on is outside the region
        exact Or.inl ⟨rfl, fun k _ hk => hdone k (by omega)⟩
      · have hdiv : (i * 32768 + j) / 32768 = i := by omega
        have hmod : (i * 32768 + j) % 32768 = j := by omega
        have hno : j + i * 32768 + r.base = r.base + (i * 32768 + j) := by omega
        refine Or.inr ⟨i * 32768 + j, by omega, by omega, by rw [hbit j (by omega), hclear], ?_⟩
        simp only [setRegionBit, hdiv, hmod, hno]

theorem bmAlloc_spec (s : Store) (r : BitRegion) : (bmAlloc s r = (-enospc, s) ∧ ∀ k < r.count * 32768,
    r.base + k < r.bound → regionBit s r k = true) ∨ ∃ k < r.count * 32768, r.base + k < r.bound ∧
    regionBit s r k = false ∧ bmAlloc s r = (asInt32 (r.base + k), setRegionBit s r k) := by
  have hspec := bmAllocFrom_spec (s := s) (r := r) r.count 0 (by simp)
  rwa [Nat.zero_add] at hspec

end Region

structure Allocates (s s' : Store) (b : ℕ) : Prop where
  lo : s.sb.dataStart ≤ b
  hi : b < s.sb.nbBlk
  clear : dataBit s b = false
  sb : s'.sb = s.sb
  refused : s'.refused = s.refused
  bits : ∀ c, s.sb.dataStart ≤ c → c < s.sb.nbBlk → dataBit s' c = (dataBit s c || decide (c = b))
  zero : s'.blk b = fun _ => 0
  frame : ∀ c, c ≠ b → (c < s.sb.dbmStart ∨ s.sb.dbmStart + s.sb.nbDbm ≤ c) → s'.blk c = s.blk c

theorem regionBit_setBlk {s : Store} {r : BitRegion} {k b : ℕ} (c : Bytes) (hk : k < r.count * 32768)
    (hb : b < r.start ∨ r.start + r.count ≤ b) : regionBit (s.setBlk b c) r k = regionBit s r k := by
  have hdiv : k / 32768 < r.count := Nat.div_lt_of_lt_mul (by omega)
  apply regionBit_congr
  exact Store.setBlk_blk_ne c (by simp only [fsBmBitsPerBlk]; omega)

theorem balloc_cases {s : Store} (wf : s.sb.WellFormed) : (∃ (b : ℕ) (s' : Store), balloc s =
    ((b : ℤ), s') ∧ s'.deny = s.deny.tail ∧ Allocates s s' b) ∨ (balloc s = (-enospc, s.refuse) ∧
    (s.deny.headD false = true ∨ ∀ b, s.sb.dataStart ≤ b → b < s.sb.nbBlk → dataBit s b = true)) := by
  obtain ⟨_, _, hdbm, hitab, _, hbits, _, hint⟩ := wf
  simp only [fsBmBitsPerBlk] at hbits
  unfold balloc
  by_cases hdeny : s.deny.headD false = true
  · rw [if_pos hdeny]
    exact Or.inr ⟨rfl, Or.inl hdeny⟩
  rw [if_neg hdeny]
  rcases bmAlloc_spec s (dataRegion s.sb) with ⟨hfail, hfull⟩ | ⟨k, hk, hbound, hclear, halloc⟩
  · right
    have hval : bbmAlloc s = (-enospc, s) := hfail
    refine ⟨by rw [hval]; rfl, Or.inr ?_⟩
    intro b hlo hhi
    simp only [dataRegion] at hfull
    exact hfull (b - s.sb.dataStart) (by omega) (by omega)
  · left
    have hlt : s.sb.dataStart + k < s.sb.nbBlk := hbound
    have hno : asInt32 (s.sb.dataStart + k) = ((s.sb.dataStart + k : ℕ) : ℤ) :=
      asInt32_of_lt (by omega)
    have hval : bbmAlloc s =
        (((s.sb.dataStart + k : ℕ) : ℤ), setRegionBit s (dataRegion s.sb) k) := by
      rw [← hno]
      exact halloc
    refine ⟨s.sb.dataStart + k, _, by rw [hval, if_neg (by omega)], rfl, ?_⟩
    refine ⟨by omega, hlt, ?_, rfl, rfl, ?_, ?_, ?_⟩
    · simpa [dataBit] using hclear
    · intro c hlo hhi
      have hiff : c - s.sb.dataStart = k ↔ c = s.sb.dataStart + k := by omega
      have hset := regionBit_setRegionBit (s := s) (r := dataRegion s.sb) k (c - s.sb.dataStart)
      simp only [hiff] at hset
      -- the cleared block is a data block, hence no bitmap block
      have hclr := regionBit_setBlk (s := setRegionBit s (dataRegion s.sb) k)
        (r := dataRegion s.sb) (k := c - s.sb.dataStart) (b := s.sb.dataStart + k) (fun _ => 0)
        (by simp only [dataRegion]; omega) (by simp only [dataRegion]; omega)
      exact hclr.trans hset
    · exact Store.setBlk_blk_self _ _ _
    · intro c hne hc
      have hframe : (setRegionBit s (dataRegion s.sb) k).blk c = s.blk c := setRegionBit_blk hk hc
      exact (Store.setBlk_blk_ne _ hne).trans hframe

end RvMiniOs.Fs
