import RvMiniOs.Bcache.Buffers
import RvMiniOs.Lib.Runs
import Mathlib.Tactic

/-!
# The block cache as an array of blocks

One task works with the block cache, over any number of blocks. What it sees is
an array in which every modification is made at once, whatever the cache keeps,
evicts, reads back or writes back. Disk requests transfer eight sectors of 512
bytes; `res` is what `virtio_blk_request` returns.
-/
namespace RvMiniOs.Bcache

open Fs Lib Sync Function Option

abbrev virtioBlkSize : ℕ := 512

def getSector (blkno : ℕ) : ℕ :=
  let sector := blkno * (fsBlkSize / virtioBlkSize) % 2 ^ 32
  if sector < 2 ^ 31 then sector else sector + (2 ^ 64 - 2 ^ 32)

theorem getSector_eq {b : ℕ} (h : b < 2 ^ 28) : getSector b = 8 * b := by
  have hmod : b * (fsBlkSize / virtioBlkSize) % 2 ^ 32 = 8 * b := by
    rw [Nat.mod_eq_of_lt] <;> norm_num <;> omega
  rw [getSector, hmod, if_pos (by omega)]

def readSectors (disk : Bytes) (sector : ℕ) : Block := fun k => disk (virtioBlkSize * sector + k)

def writeSectors (disk : Bytes) (sector : ℕ) (buf : Block) : Bytes := fun o =>
  if h : virtioBlkSize * sector ≤ o ∧ o < virtioBlkSize * sector + fsBlkSize then
    buf ⟨o - virtioBlkSize * sector, by omega⟩
  else disk o

def diskBlk (disk : Bytes) (b : ℕ) : Block := readSectors disk (8 * b)

theorem diskBlk_write_self (disk : Bytes) (b : ℕ) (buf : Block) :
    diskBlk (writeSectors disk (8 * b) buf) b = buf := by
  funext k
  have hk := k.isLt
  simp only [diskBlk, readSectors, writeSectors]
  rw [dif_pos (by omega)]
  congr 1
  exact Fin.ext (by simp)

theorem diskBlk_write_other (disk : Bytes) {b b' : ℕ} (h : b' ≠ b) (buf : Block) :
    diskBlk (writeSectors disk (8 * b) buf) b' = diskBlk disk b' := by
  funext k
  have hk := k.isLt
  simp only [diskBlk, readSectors, writeSectors]
  rw [dif_neg]
  simp only [virtioBlkSize, fsBlkSize] at hk ⊢
  omega

abbrev me : ℕ := 0

inductive Halt where
  | panic
  | deadlock
  deriving DecidableEq, Repr

def bcacheGetblk (c : Cache) (blkno : ℕ) : Except Halt (Fin nbuf × Cache) :=
  match getblkLocked c blkno with
  | none => .error .panic
  | some (i, c) =>
    match mutexLock (c.buf i).m me with
    | (true, _) => .error .deadlock
    | (false, m) => .ok (i, c.modify i fun k => { k with m })

def bcacheRelease (c : Cache) (i : Fin nbuf) : Cache :=
  dropLocked (c.modify i fun k => { k with m := (mutexUnlock k.m me).2 }) i

def bcacheRead (c : Cache) (disk : Bytes) (blkno : ℕ) (res : ℤ) :
    Except Halt (Option (Fin nbuf) × Cache) :=
  (bcacheGetblk c blkno).map fun (i, c) =>
    if (c.buf i).valid then (some i, c)
    else if res < 0 then (none, bcacheRelease c i)
    else
      (some i, c.modify i fun k =>
        { k with buf := readSectors disk (getSector blkno), valid := true })

def bcacheSync (c : Cache) (disk : Bytes) (i : Fin nbuf) (res : ℤ) : ℤ × Cache × Bytes :=
  if (c.buf i).dirty = false then (0, c, disk)
  else if res < 0 then (res, c, disk)
  else
    (0, c.modify i fun k => { k with dirty := false },
      writeSectors disk (getSector (c.buf i).blkno) (c.buf i).buf)

structure Client where
  cache : Cache
  disk : Bytes
  ptr : ℕ → Option (Fin nbuf)

inductive Op where
  | read (b : ℕ) (res : ℤ)
  | modify (b : ℕ) (f : Block → Block)
  | sync (b : ℕ) (res : ℤ)
  | release (b : ℕ)
  | invalidate (b : ℕ)

def Op.apply (s : Client) : Op → Option Client
  | .read b res =>
    (bcacheRead s.cache s.disk b res).toOption.map fun
      | (some i, cache) => { s with cache, ptr := Function.update s.ptr b (some i) }
      | (none, cache) => { s with cache }
  | .modify b f =>
    (s.ptr b).map fun i =>
      { s with cache := bcacheMarkDirty (s.cache.modify i fun k => { k with buf := f k.buf }) i }
  | .sync b res =>
    (s.ptr b).map fun i =>
      let r := bcacheSync s.cache s.disk i res
      { s with cache := r.2.1, disk := r.2.2 }
  | .release b =>
    (s.ptr b).map fun i =>
      { s with cache := bcacheRelease s.cache i, ptr := Function.update s.ptr b none }
  | .invalidate b => some { s with cache := bcacheInvalidate s.cache b }

structure BlockArray where
  now : ℕ → Block
  stored : ℕ → Block

def Op.spec (r : BlockArray) : Op → BlockArray
  | .modify b f => { r with now := Function.update r.now b (f (r.now b)) }
  | .sync b _ => { r with stored := Function.update r.stored b (r.now b) }
  | .invalidate b => { r with now := Function.update r.now b (r.stored b) }
  | .read _ _ | .release _ => r

def Proper (s : Client) : Op → Prop
  | .read b res => b < 2 ^ 28 ∧ 0 ≤ res
  | .sync _ res => 0 ≤ res
  | .invalidate b => b < 2 ^ 28 ∧ s.ptr b = none
  | .modify _ _ | .release _ => True

instance (s : Client) : (op : Op) → Decidable (Proper s op)
  | .read b res => inferInstanceAs (Decidable (b < 2 ^ 28 ∧ 0 ≤ res))
  | .sync _ res => inferInstanceAs (Decidable (0 ≤ res))
  | .invalidate b => inferInstanceAs (Decidable (b < 2 ^ 28 ∧ s.ptr b = none))
  | .modify _ _ | .release _ => inferInstanceAs (Decidable True)

def step (x : Client × BlockArray) (op : Op) : Option (Client × BlockArray) :=
  (op.apply x.1).map (·, op.spec x.2)

def initial (disk : Bytes) : Client × BlockArray :=
  ({ cache := bcacheInit, disk, ptr := fun _ => none }, ⟨diskBlk disk, diskBlk disk⟩)

structure Backed (disk : Bytes) (now : ℕ → Block) (k : Cblk) : Prop where
  valid_of_dirty : k.dirty = true → k.valid = true
  label : k.valid = true → k.blkno < 2 ^ 28
  content : k.valid = true → k.buf = now k.blkno
  clean : k.valid = true → k.dirty = false → k.buf = diskBlk disk k.blkno

def taken : Mutex := { locked := true, owner := some me, wq := [] }

structure Inv (s : Client) (r : BlockArray) : Prop where
  listed : Listed s.cache
  labelled : Labelled s.cache
  backed : ∀ i, Backed s.disk r.now (s.cache.buf i)
  held : ∀ b i, s.ptr b = some i → (s.cache.buf i).blkno = b ∧
    (s.cache.buf i).valid = true ∧ (s.cache.buf i).refcnt = 1 ∧ (s.cache.buf i).m = taken
  idle : ∀ i, (∀ b, s.ptr b ≠ some i) →
    (s.cache.buf i).refcnt = 0 ∧ (s.cache.buf i).m = mutexInit
  absent : ∀ b < 2 ^ 28, (∀ i, (s.cache.buf i).valid = true → (s.cache.buf i).blkno ≠ b) →
    r.now b = diskBlk s.disk b
  stored : ∀ b < 2 ^ 28, r.stored b = diskBlk s.disk b

theorem inv_initial (disk : Bytes) : Inv (initial disk).1 (initial disk).2 where
  listed := listed_init
  labelled := labelled_init
  backed := fun i => by constructor <;> simp [initial, bcacheInit]
  held := fun b i h => by simp [initial] at h
  idle := fun i _ => ⟨rfl, rfl⟩
  absent := fun b _ _ => rfl
  stored := fun b _ => rfl

variable {s : Client} {r : BlockArray} {b : ℕ} {i : Fin nbuf}

namespace Inv

theorem held_unique (h : Inv s r) {b' : ℕ} (hb : s.ptr b = some i) (hb' : s.ptr b' = some i) : b = b' :=
  (h.held b i hb).1.symm.trans (h.held b' i hb').1

theorem label_unique (h : Inv s r) (hb : b < 2 ^ 28) (hi : (s.cache.buf i).blkno = b)
    {j : Fin nbuf} (hj : (s.cache.buf j).blkno = b) : j = i := by
  refine h.labelled j i (hj.trans hi.symm) ?_
  rw [hj]
  simp only [uint32Max]
  omega

theorem held_label (h : Inv s r) (hb : s.ptr b = some i) : b < 2 ^ 28 := by
  obtain ⟨hlabel, hvalid, -, -⟩ := h.held b i hb
  exact hlabel ▸ (h.backed i).label hvalid

end Inv

theorem Backed.congr {disk disk' : Bytes} {now now' : ℕ → Block} {k k' : Cblk} (h : Backed disk now k)
    (hd : k'.dirty = k.dirty) (hv : k'.valid = k.valid) (hb : k'.blkno = k.blkno) (hbuf : k'.buf = k.buf)
    (hnow : k.valid = true → now' k.blkno = now k.blkno)
    (hdisk : k.valid = true → diskBlk disk' k.blkno = diskBlk disk k.blkno) : Backed disk' now' k' where
  valid_of_dirty := by
    rw [hd, hv]
    exact h.valid_of_dirty
  label := by
    rw [hv, hb]
    exact h.label
  content := by
    rw [hv, hb, hbuf]
    exact fun hvalid => (h.content hvalid).trans (hnow hvalid).symm
  clean := by
    rw [hv, hd, hb, hbuf]
    exact fun hvalid hclean => (h.clean hvalid hclean).trans (hdisk hvalid).symm

theorem bcacheGetblk_ok {c c' : Cache} (h : bcacheGetblk c b = .ok (i, c')) :
    ∃ c₁, getblkLocked c b = some (i, c₁) ∧ (c₁.buf i).m.locked = false ∧
      c' = c₁.modify i fun k => { k with m := { k.m with locked := true, owner := some me } } := by
  unfold bcacheGetblk at h
  cases hget : getblkLocked c b with
  | none =>
    rw [hget] at h
    cases h
  | some r =>
    obtain ⟨j, c₁⟩ := r
    simp only [hget] at h
    cases hl : (c₁.buf j).m.locked with
    | true =>
      rw [mutexLock_taken me hl] at h
      cases h
    | false =>
      rw [mutexLock_free me hl] at h
      cases h
      exact ⟨c₁, rfl, hl, by simp [Cache.modify]⟩

theorem bcacheRead_ok {c c' : Cache} {disk : Bytes} {res : ℤ} {o : Option (Fin nbuf)}
    (h : (bcacheRead c disk b res).toOption = some (o, c')) : ∃ i c₁, bcacheGetblk c b = .ok (i, c₁) ∧
    (if (c₁.buf i).valid then (some i, c₁)
      else if res < 0 then (none, bcacheRelease c₁ i)
      else (some i, c₁.modify i fun k =>
        { k with buf := readSectors disk (getSector b), valid := true })) = (o, c') := by
  unfold bcacheRead at h
  cases hget : bcacheGetblk c b with
  | error e =>
    rw [hget] at h
    cases h
  | ok r =>
    rw [hget] at h
    exact ⟨r.1, r.2, rfl, some.inj h⟩

inductive ReadFrom (s : Client) (b : ℕ) (i : Fin nbuf) : Cache → Prop where
  | hit (hlabel : (s.cache.buf i).blkno = b) (hvalid : (s.cache.buf i).valid = true) :
    ReadFrom s b i (s.cache.modify i fun k => { k with refcnt := k.refcnt + 1, m := taken })
  | fetch (hclean : (s.cache.buf i).dirty = false)
      (hmiss : (s.cache.buf i).valid = true → (s.cache.buf i).blkno ≠ b) :
    ReadFrom s b i (s.cache.modify i fun k =>
      { k with blkno := b, refcnt := k.refcnt + 1, m := taken, buf := diskBlk s.disk b,
               valid := true })

theorem Inv.read_cases (h : Inv s r) (hb : b < 2 ^ 28) {res : ℤ} (hres : 0 ≤ res) {o : Option (Fin nbuf)}
    {c' : Cache} (hread : (bcacheRead s.cache s.disk b res).toOption = some (o, c')) : ∃ i, o = some i ∧ s.ptr b =
    none ∧ (∀ b', s.ptr b' ≠ some i) ∧ (∀ j, j ≠ i → (s.cache.buf j).blkno ≠ b) ∧ ReadFrom s b i c' := by
  obtain ⟨i, c₂, hget, hout⟩ := bcacheRead_ok hread
  obtain ⟨c₁, hlocked, hfree, rfl⟩ := bcacheGetblk_ok hget
  rcases getblkLocked_cases h.listed hlocked with ⟨hlabel, rfl⟩ | ⟨hnone, hzero, hclean, rfl⟩
  · -- a hit is on a free mutex, so the task does not have this buffer
    have hother : ∀ j, j ≠ i → (s.cache.buf j).blkno ≠ b :=
      fun j hj heq => hj (h.label_unique hb hlabel heq)
    have hptr : ∀ b', s.ptr b' ≠ some i := by
      intro b' hb'
      have hm := (h.held b' i hb').2.2.2
      simp [hm, taken] at hfree
    have hptrb : s.ptr b = none := by
      cases hp : s.ptr b with
      | none => rfl
      | some j =>
        have hj := h.label_unique hb hlabel (h.held b j hp).1
        exact absurd (hj ▸ hp) (hptr b)
    have hm : (s.cache.buf i).m = mutexInit := (h.idle i hptr).2
    refine ⟨i, ?_, hptrb, hptr, hother, ?_⟩
    · simp only [Cache.modify_modify, Cache.modify_self, not_lt.mpr hres, if_false] at hout
      split_ifs at hout <;> exact (congrArg Prod.fst hout).symm
    · by_cases hvalid : (s.cache.buf i).valid = true
      · simp only [Cache.modify_modify, Cache.modify_self, hvalid, if_true] at hout
        have hc : c' = s.cache.modify i fun k => { k with refcnt := k.refcnt + 1, m := taken } := by
          refine (congrArg Prod.snd hout).symm.trans ?_
          simp [Cache.modify, hm, taken, mutexInit]
        exact hc ▸ .hit hlabel hvalid
      · simp only [Cache.modify_modify, Cache.modify_self, hvalid, not_lt.mpr hres, if_false] at hout
        have hc : c' = s.cache.modify i fun k =>
            { k with blkno := b, refcnt := k.refcnt + 1, m := taken, buf := diskBlk s.disk b,
                     valid := true } := by
          refine (congrArg Prod.snd hout).symm.trans ?_
          simp [Cache.modify, hm, taken, mutexInit, hlabel, getSector_eq hb, diskBlk]
        have hclean : (s.cache.buf i).dirty = false := by
          by_contra hdirty
          exact hvalid ((h.backed i).valid_of_dirty (by simpa using hdirty))
        exact hc ▸ .fetch hclean fun hv => absurd hv hvalid
  · have hptr : ∀ b', s.ptr b' ≠ some i := by
      intro b' hb'
      have := (h.held b' i hb').2.2.1
      omega
    have hptrb : s.ptr b = none := by
      cases hp : s.ptr b with
      | none => rfl
      | some j => exact absurd (h.held b j hp).1 (hnone j)
    have hm : (s.cache.buf i).m = mutexInit := (h.idle i hptr).2
    simp only [Cache.modify_modify, Cache.modify_self, Bool.false_eq_true, not_lt.mpr hres,
      if_false] at hout
    have hc : c' = s.cache.modify i fun k =>
        { k with blkno := b, refcnt := k.refcnt + 1, m := taken, buf := diskBlk s.disk b,
                 valid := true } := by
      refine (congrArg Prod.snd hout).symm.trans ?_
      simp [Cache.modify, hm, taken, mutexInit, getSector_eq hb, diskBlk]
    exact ⟨i, (congrArg Prod.fst hout).symm, hptrb, hptr, fun j _ => hnone j,
      hc ▸ .fetch hclean fun _ => hnone i⟩

namespace ReadFrom

variable {c' : Cache}

theorem bufList_eq (h : ReadFrom s b i c') : c'.bufList = s.cache.bufList := by
  cases h <;> rfl

theorem other (h : ReadFrom s b i c') {j : Fin nbuf} (hj : j ≠ i) : c'.buf j = s.cache.buf j := by
  cases h <;> exact Cache.modify_of_ne _ _ hj

theorem slot (h : ReadFrom s b i c') (hidle : (s.cache.buf i).refcnt = 0) : (c'.buf i).blkno = b ∧
    (c'.buf i).valid = true ∧ (c'.buf i).refcnt = 1 ∧ (c'.buf i).m = taken := by
  cases h with
  | hit hlabel hvalid => simp [hlabel, hvalid, hidle]
  | fetch hclean hmiss => simp [hidle]

theorem labelled (h : ReadFrom s b i c') (hl : Labelled s.cache)
    (hother : ∀ j, j ≠ i → (s.cache.buf j).blkno ≠ b) : Labelled c' := by
  cases h with
  | hit hlabel hvalid => exact hl.modify rfl
  | fetch hclean hmiss => exact hl.relabel (.inr hother)

end ReadFrom

namespace Inv

theorem read_content {c' : Cache} (h : Inv s r) (hb : b < 2 ^ 28)
    (hother : ∀ j, j ≠ i → (s.cache.buf j).blkno ≠ b) (hfrom : ReadFrom s b i c') :
    Backed s.disk r.now (c'.buf i) := by
  cases hfrom with
  | hit hlabel hvalid =>
    rw [Cache.modify_self]
    exact (h.backed i).congr rfl rfl rfl rfl (fun _ => rfl) fun _ => rfl
  | fetch hclean hmiss =>
    have habsent : r.now b = diskBlk s.disk b := by
      refine h.absent b hb fun j hvalid => ?_
      rcases eq_or_ne j i with rfl | hj
      · exact hmiss hvalid
      · exact hother j hj
    rw [Cache.modify_self]
    exact ⟨fun _ => rfl, fun _ => hb, fun _ => habsent.symm, fun _ _ => rfl⟩

theorem read_absent {c' : Cache} (h : Inv s r) (hfrom : ReadFrom s b i c') {b₀ : ℕ} (hb₀ : b₀ < 2 ^ 28)
    (hgone : ∀ j, (c'.buf j).valid = true → (c'.buf j).blkno ≠ b₀) : r.now b₀ = diskBlk s.disk b₀ := by
  by_cases hevicted : (s.cache.buf i).valid = true ∧ (s.cache.buf i).blkno = b₀
  · cases hfrom with
    | hit hlabel hvalid =>
      have := hgone i
      rw [Cache.modify_self] at this
      exact absurd hevicted.2 (this hvalid)
    | fetch hclean hmiss =>
      have hnow := (h.backed i).content hevicted.1
      have hdisk := (h.backed i).clean hevicted.1 hclean
      rw [hevicted.2] at hnow hdisk
      exact hnow.symm.trans hdisk
  · refine h.absent b₀ hb₀ fun j hvalid heq => ?_
    rcases eq_or_ne j i with rfl | hj
    · exact hevicted ⟨hvalid, heq⟩
    · exact hgone j (by rwa [hfrom.other hj]) (by rwa [hfrom.other hj])

theorem read {c' : Cache} (h : Inv s r) (hb : b < 2 ^ 28) (hptrb : s.ptr b = none)
    (hptr : ∀ b', s.ptr b' ≠ some i) (hother : ∀ j, j ≠ i → (s.cache.buf j).blkno ≠ b)
    (hfrom : ReadFrom s b i c') :
    Inv { s with cache := c', ptr := update s.ptr b (some i) } r where
  listed := by
    simp only [Listed, hfrom.bufList_eq]
    exact h.listed
  labelled := hfrom.labelled h.labelled hother
  backed := by
    intro j
    rcases eq_or_ne j i with rfl | hj
    · exact h.read_content hb hother hfrom
    · show Backed s.disk r.now (c'.buf j)
      rw [hfrom.other hj]
      exact h.backed j
  held := by
    intro b' j hp
    rcases eq_or_ne b' b with rfl | hne
    · obtain rfl : i = j := by simpa using hp
      exact hfrom.slot (h.idle i hptr).1
    · have hold : s.ptr b' = some j := by simpa [hne] using hp
      have hj : j ≠ i := fun hji => hptr b' (hji ▸ hold)
      simp only [hfrom.other hj]
      exact h.held b' j hold
  idle := by
    intro j hnone
    have hj : j ≠ i := by
      rintro rfl
      simpa using hnone b
    simp only [hfrom.other hj]
    refine h.idle j fun b' hb' => ?_
    rcases eq_or_ne b' b with rfl | hne
    · simp [hptrb] at hb'
    · exact hnone b' (by simpa [hne] using hb')
  absent := fun b₀ hb₀ hgone => h.read_absent hfrom hb₀ hgone
  stored := h.stored

theorem update {f : Cblk → Cblk} {r' : BlockArray} {disk : Bytes} (h : Inv s r)
    (hb : s.ptr b = some i)
    (hf : ∀ k, (f k).blkno = k.blkno ∧ (f k).valid = k.valid ∧ (f k).refcnt = k.refcnt ∧ (f k).m = k.m)
    (hnow : ∀ b', b' ≠ b → r'.now b' = r.now b')
    (hstored : ∀ b', b' ≠ b → r'.stored b' = r.stored b')
    (hdisk : ∀ b', b' ≠ b → diskBlk disk b' = diskBlk s.disk b')
    (hbacked : Backed disk r'.now (f (s.cache.buf i)))
    (hb' : r'.stored b = diskBlk disk b) :
    Inv { s with cache := s.cache.modify i f, disk } r' := by
  have hlabel := (h.held b i hb).1
  have hsame : ∀ j, ((s.cache.modify i f).buf j).blkno = (s.cache.buf j).blkno ∧
      ((s.cache.modify i f).buf j).valid = (s.cache.buf j).valid ∧
      ((s.cache.modify i f).buf j).refcnt = (s.cache.buf j).refcnt ∧
      ((s.cache.modify i f).buf j).m = (s.cache.buf j).m := by
    intro j
    rw [Cache.modify_apply]
    split_ifs with hj
    · subst hj
      exact hf _
    · exact ⟨rfl, rfl, rfl, rfl⟩
  refine ⟨h.listed, h.labelled.modify (hf _).1, fun j => ?_, fun b₀ j hp => ?_, fun j hnone => ?_,
    fun b₀ hb₀ hgone => ?_, fun b₀ hb₀ => ?_⟩
  · rcases eq_or_ne j i with rfl | hj
    · simpa using hbacked
    · have hne : (s.cache.buf j).valid = true → (s.cache.buf j).blkno ≠ b :=
        fun _ heq => hj (h.label_unique (h.held_label hb) hlabel heq)
      show Backed disk r'.now ((s.cache.modify i f).buf j)
      rw [Cache.modify_of_ne _ _ hj]
      exact (h.backed j).congr rfl rfl rfl rfl (fun hv => hnow _ (hne hv))
        fun hv => hdisk _ (hne hv)
  · obtain ⟨h1, h2, h3, h4⟩ := hsame j
    simp only [h1, h2, h3, h4]
    exact h.held b₀ j hp
  · obtain ⟨-, -, h3, h4⟩ := hsame j
    simp only [h3, h4]
    exact h.idle j hnone
  · have hne : b₀ ≠ b := by
      rintro rfl
      obtain ⟨h1, h2, -, -⟩ := hsame i
      exact hgone i (h2.trans (h.held _ i hb).2.1) (h1.trans hlabel)
    show r'.now b₀ = diskBlk disk b₀
    rw [hnow b₀ hne, hdisk b₀ hne]
    refine h.absent b₀ hb₀ fun j hvalid => ?_
    obtain ⟨h1, h2, -, -⟩ := hsame j
    exact fun heq => hgone j (h2.trans hvalid) (h1.trans heq)
  · rcases eq_or_ne b₀ b with rfl | hne
    · exact hb'
    · show r'.stored b₀ = diskBlk disk b₀
      rw [hstored b₀ hne, hdisk b₀ hne]
      exact h.stored b₀ hb₀

theorem modify {f : Block → Block} (h : Inv s r) (hb : s.ptr b = some i) :
    Inv { s with cache := bcacheMarkDirty (s.cache.modify i fun k => { k with buf := f k.buf }) i }
      (Op.spec r (.modify b f)) := by
  obtain ⟨hlabel, hvalid, -, -⟩ := h.held b i hb
  rw [bcacheMarkDirty, Cache.modify_modify]
  refine h.update hb (fun k => ⟨rfl, rfl, rfl, rfl⟩) (fun b' hne => ?_) (fun _ _ => rfl)
    (fun _ _ => rfl) ⟨fun _ => hvalid, (h.backed i).label, fun _ => ?_, fun _ hd => by cases hd⟩
    (h.stored b (h.held_label hb))
  · simp [Op.spec, hne]
  · simp [Op.spec, hlabel, (h.backed i).content hvalid]

theorem sync {res : ℤ} (h : Inv s r) (hb : s.ptr b = some i) (hres : 0 ≤ res) :
    Inv { s with cache := (bcacheSync s.cache s.disk i res).2.1,
                 disk := (bcacheSync s.cache s.disk i res).2.2 } (Op.spec r (.sync b res)) := by
  obtain ⟨hlabel, hvalid, -, -⟩ := h.held b i hb
  have hnow : r.now b = (s.cache.buf i).buf := hlabel ▸ ((h.backed i).content hvalid).symm
  have hstored : ∀ b', b' ≠ b → (Op.spec r (.sync b res)).stored b' = r.stored b' :=
    fun b' hne => by simp [Op.spec, hne]
  unfold bcacheSync
  cases hd : (s.cache.buf i).dirty with
  | false =>
    have hsame : s.cache.modify i id = s.cache := by simp [Cache.modify]
    simp only [if_true]
    rw [← hsame]
    refine h.update hb (fun k => ⟨rfl, rfl, rfl, rfl⟩) (fun _ _ => rfl) hstored (fun _ _ => rfl)
      (h.backed i) ?_
    simp only [Op.spec, update_self]
    exact hnow.trans (hlabel ▸ (h.backed i).clean hvalid hd)
  | true =>
    have hsector : getSector (s.cache.buf i).blkno = 8 * b := by
      rw [hlabel]
      exact getSector_eq (h.held_label hb)
    simp only [Bool.true_eq_false, if_false, not_lt.mpr hres, hsector]
    refine h.update hb (fun k => ⟨rfl, rfl, rfl, rfl⟩) (fun _ _ => rfl) hstored
      (fun b' hne => diskBlk_write_other s.disk hne _)
      ⟨by simp, (h.backed i).label, (h.backed i).content, fun _ _ => ?_⟩ ?_
    · simp only [hlabel]
      exact (diskBlk_write_self s.disk b _).symm
    · simp only [Op.spec, update_self, diskBlk_write_self]
      exact hnow

theorem release (h : Inv s r) (hb : s.ptr b = some i) :
    Inv { s with cache := bcacheRelease s.cache i, ptr := Function.update s.ptr b none } r := by
  obtain ⟨-, -, href, hm⟩ := h.held b i hb
  have hother : ∀ j, j ≠ i → (bcacheRelease s.cache i).buf j = s.cache.buf j := by
    intro j hj
    simp [bcacheRelease, dropLocked, Cache.modify, hj]
  have hself : (bcacheRelease s.cache i).buf i =
      { s.cache.buf i with refcnt := 0, m := mutexInit } := by
    simp [bcacheRelease, dropLocked, href, hm, taken, mutexUnlock, mutexInit]
  have hcore : ∀ j, ((bcacheRelease s.cache i).buf j).blkno = (s.cache.buf j).blkno ∧
      ((bcacheRelease s.cache i).buf j).valid = (s.cache.buf j).valid ∧
      Backed s.disk r.now ((bcacheRelease s.cache i).buf j) := by
    intro j
    rcases eq_or_ne j i with rfl | hj
    · rw [hself]
      exact ⟨rfl, rfl, (h.backed j).congr rfl rfl rfl rfl (fun _ => rfl) fun _ => rfl⟩
    · rw [hother j hj]
      exact ⟨rfl, rfl, h.backed j⟩
  refine ⟨h.listed.drop, fun j k hjk hne => ?_, fun j => (hcore j).2.2, fun b' j hp => ?_,
    fun j hnone => ?_, fun b₀ hb₀ hgone => ?_, h.stored⟩
  · simp only [(hcore j).1, (hcore k).1] at hjk hne
    exact h.labelled j k hjk hne
  · have hne : b' ≠ b := by
      rintro rfl
      simp at hp
    have hold : s.ptr b' = some j := by simpa [hne] using hp
    have hj : j ≠ i := fun hji => hne (h.held_unique (hji ▸ hold) hb)
    simp only [hother j hj]
    exact h.held b' j hold
  · rcases eq_or_ne j i with rfl | hj
    · simp [hself]
    · simp only [hother j hj]
      refine h.idle j fun b' hb' => ?_
      have hne : b' ≠ b := by
        rintro rfl
        exact hj (Option.some.inj (hb'.symm.trans hb))
      exact hnone b' (by simpa [hne] using hb')
  · refine h.absent b₀ hb₀ fun j hvalid heq => ?_
    exact hgone j ((hcore j).2.1.trans hvalid) ((hcore j).1.trans heq)

theorem invalidate (h : Inv s r) (hb : b < 2 ^ 28) (hptr : s.ptr b = none) :
    Inv { s with cache := bcacheInvalidate s.cache b } (Op.spec r (.invalidate b)) := by
  have hnow : ∀ b', b' ≠ b → (Op.spec r (.invalidate b)).now b' = r.now b' :=
    fun b' hne => by simp [Op.spec, hne]
  have hback : (Op.spec r (.invalidate b)).now b = diskBlk s.disk b := by
    simp only [Op.spec, update_self]
    exact h.stored b hb
  -- a valid slot of another block is as before
  have hkeep : ∀ j, (s.cache.buf j).blkno ≠ b →
      Backed s.disk (Op.spec r (.invalidate b)).now (s.cache.buf j) := fun j hj =>
    (h.backed j).congr rfl rfl rfl rfl (fun _ => hnow _ hj) fun _ => rfl
  rcases bcacheInvalidate_cases h.listed b with ⟨i, hlabel, heq⟩ | ⟨hnone, heq⟩
  · have hi : ∀ b', s.ptr b' ≠ some i := by
      intro b' hb'
      obtain rfl : b = b' := hlabel.symm.trans (h.held b' i hb').1
      simp [hptr] at hb'
    have hlabelled : Labelled (s.cache.modify i fun k =>
        { k with dirty := false, valid := false, blkno := uint32Max }) :=
      h.labelled.relabel (.inl rfl)
    rw [heq]
    refine ⟨h.listed, hlabelled, fun j => ?_, fun b' j hp => ?_,
      fun j hfree => ?_, fun b₀ hb₀ hgone => ?_, h.stored⟩
    · simp only [Cache.modify_apply]
      split_ifs with hj
      · constructor <;> simp
      · exact hkeep j fun hjb => hj (h.label_unique hb hlabel hjb)
    · have hj : j ≠ i := by
        rintro rfl
        exact hi b' hp
      simp only [Cache.modify_of_ne _ _ hj]
      exact h.held b' j hp
    · have hidle := h.idle j hfree
      simp only [Cache.modify_apply]
      split_ifs with hj
      · subst hj
        exact hidle
      · exact hidle
    · rcases eq_or_ne b₀ b with rfl | hne
      · exact hback
      · rw [hnow b₀ hne]
        refine h.absent b₀ hb₀ fun j hvalid hj => ?_
        have hji : j ≠ i := by
          rintro rfl
          exact hne (hj.symm.trans hlabel)
        refine hgone j ?_ ?_ <;> simpa only [Cache.modify_of_ne _ _ hji]
  · rw [heq]
    refine ⟨h.listed, h.labelled, fun j => hkeep j (hnone j), h.held, h.idle,
      fun b₀ hb₀ hgone => ?_, h.stored⟩
    rcases eq_or_ne b₀ b with rfl | hne
    · exact hback
    · rw [hnow b₀ hne]
      exact h.absent b₀ hb₀ hgone

theorem step {x y : Client × BlockArray} {op : Op} (h : Inv x.1 x.2) (hok : Proper x.1 op)
    (hstep : step x op = some y) : Inv y.1 y.2 := by
  obtain ⟨s', happly, rfl⟩ := map_eq_some_iff.mp hstep
  cases op with
  | read b res =>
    obtain ⟨⟨o, c'⟩, hread, rfl⟩ := map_eq_some_iff.mp happly
    obtain ⟨i, rfl, hptrb, hptr, hother, hfrom⟩ := h.read_cases hok.1 hok.2 hread
    exact h.read hok.1 hptrb hptr hother hfrom
  | modify b f =>
    obtain ⟨i, hb, rfl⟩ := map_eq_some_iff.mp happly
    exact h.modify hb
  | sync b res =>
    obtain ⟨i, hb, rfl⟩ := map_eq_some_iff.mp happly
    exact h.sync hb hok
  | release b =>
    obtain ⟨i, hb, rfl⟩ := map_eq_some_iff.mp happly
    exact h.release hb
  | invalidate b =>
    cases happly
    exact h.invalidate hok.1 hok.2

theorem run {x y : Client × BlockArray} (h : Reaches Bcache.step (fun x op => Proper x.1 op) x y)
    (h0 : Inv x.1 x.2) : Inv y.1 y.2 :=
  h.invariant (P := fun x => Inv x.1 x.2) h0 fun _ _ _ hi hok hstep => hi.step hok hstep

end Inv

/-- From any disk, whatever the cache has kept or evicted: a read returns the
bytes of the reference array, no two slots have the same block, and a valid
clean slot that the task does not have equals its block on disk. -/
theorem bcache_transparent (disk : Bytes) {s : Client} {r : BlockArray}
    (h : Reaches step (fun x op => Proper x.1 op) (initial disk) (s, r)) :
    (∀ b res i c', b < 2 ^ 28 → 0 ≤ res → bcacheRead s.cache s.disk b res = .ok (some i, c') →
      (c'.buf i).buf = r.now b) ∧
    (∀ i j, (s.cache.buf i).blkno = (s.cache.buf j).blkno → (s.cache.buf i).blkno ≠ uint32Max → i = j) ∧
    ∀ i, (s.cache.buf i).valid = true → (s.cache.buf i).dirty = false →
      (∀ b, s.ptr b ≠ some i) → (s.cache.buf i).buf = diskBlk s.disk (s.cache.buf i).blkno := by
  have hi : Inv s r := Inv.run h (inv_initial disk)
  refine ⟨fun b res i c' hb hres hread => ?_, hi.labelled, fun i hvalid hclean _ =>
    (hi.backed i).clean hvalid hclean⟩
  obtain ⟨j, hj, hptrb, hptr, hother, hfrom⟩ := hi.read_cases hb hres (congrArg Except.toOption hread)
  cases hj
  obtain ⟨hlabel, hvalid, -, -⟩ := hfrom.slot (hi.idle i hptr).1
  rw [(hi.read_content hb hother hfrom).content hvalid, hlabel]

def fillBlock : List Op :=
  [.read 5 4096, .modify 5 fun _ _ => 7, .release 5, .read 9 4096, .invalidate 3]

theorem bcache_transparent_fillBlock : ∃ s r i c',
    run step (initial fun _ => 0) fillBlock = some (s, r) ∧
    bcacheRead s.cache s.disk 5 4096 = .ok (some i, c') ∧ (c'.buf i).buf = fun _ => 7 := by
  refine ⟨_, _, _, _, rfl, rfl, ?_⟩
  exact (bcache_transparent _ (.of_run fillBlock (by decide) rfl)).1 5 4096 _ _ (by norm_num)
    (by norm_num) rfl

def Op.Cleans : Op → Prop
  | .sync _ _ | .invalidate _ => True
  | .read _ _ | .modify _ _ | .release _ => False

theorem Inv.dirty_step {x y : Client × BlockArray} {op : Op} (h : Inv x.1 x.2) (hok : Proper x.1 op)
    (hop : ¬ op.Cleans) (hstep : Bcache.step x op = some y) {i : Fin nbuf} (hd : (x.1.cache.buf i).dirty = true) :
    (y.1.cache.buf i).dirty = true ∧ (y.1.cache.buf i).blkno = (x.1.cache.buf i).blkno := by
  obtain ⟨s, happly, rfl⟩ := map_eq_some_iff.mp hstep
  cases op with
  | read b res =>
    obtain ⟨⟨o, c'⟩, hread, rfl⟩ := map_eq_some_iff.mp happly
    obtain ⟨j, rfl, -, -, -, hfrom⟩ := h.read_cases hok.1 hok.2 hread
    by_cases hij : i = j
    · subst hij
      cases hfrom with
      | hit hlabel hvalid => simp [hd]
      | fetch hclean hmiss => cases hclean.symm.trans hd
    · change (c'.buf i).dirty = true ∧ (c'.buf i).blkno = _
      rw [hfrom.other hij]
      exact ⟨hd, rfl⟩
  | modify b f =>
    obtain ⟨j, -, rfl⟩ := map_eq_some_iff.mp happly
    simp only [bcacheMarkDirty, Cache.modify_modify, Cache.modify_apply]
    split_ifs with hij
    · subst hij
      exact ⟨rfl, rfl⟩
    · exact ⟨hd, rfl⟩
  | release b =>
    obtain ⟨j, -, rfl⟩ := map_eq_some_iff.mp happly
    simp only [bcacheRelease, dropLocked_buf, Cache.modify_modify, Cache.modify_apply]
    split_ifs with hij
    · subst hij
      exact ⟨hd, rfl⟩
    · exact ⟨hd, rfl⟩
  | sync b res => exact absurd trivial hop
  | invalidate b => exact absurd trivial hop

/-- Without a call that cleans a buffer, a dirty one keeps its block for ever: once all are
dirty, `bcache_getblk` panics for every other block. -/
theorem cache_fills_up (disk : Bytes) {x y : Client × BlockArray}
    (h : Reaches step (fun x op => Proper x.1 op) (initial disk) x)
    (hr : Reaches step (fun x op => Proper x.1 op ∧ ¬ op.Cleans) x y) :
    (∀ i, (x.1.cache.buf i).dirty = true →
      (y.1.cache.buf i).dirty = true ∧ (y.1.cache.buf i).blkno = (x.1.cache.buf i).blkno) ∧
    ((∀ i, (x.1.cache.buf i).dirty = true) → ∀ b, (∀ i, (x.1.cache.buf i).blkno ≠ b) →
      bcacheGetblk y.1.cache b = .error .panic) := by
  have hkept := hr.invariant (P := fun y => Inv y.1 y.2 ∧ ∀ i, (x.1.cache.buf i).dirty = true →
      (y.1.cache.buf i).dirty = true ∧ (y.1.cache.buf i).blkno = (x.1.cache.buf i).blkno)
    ⟨Inv.run h (inv_initial disk), fun i hd => ⟨hd, rfl⟩⟩ (by
      rintro y op z ⟨hinv, hall⟩ ⟨hok, hop⟩ hstep
      refine ⟨hinv.step hok hstep, fun i hd => ?_⟩
      obtain ⟨hdirty, hlabel⟩ := hinv.dirty_step hok hop hstep (hall i hd).1
      exact ⟨hdirty, hlabel.trans (hall i hd).2⟩)
  refine ⟨hkept.2, fun hdirty b hmiss => ?_⟩
  have hrequest : cacheRequestLocked y.1.cache b = none := by
    refine List.find?_eq_none.mpr fun i _ => ?_
    rw [(hkept.2 i (hdirty i)).2]
    simpa using hmiss i
  have hreusable : findReusableLocked y.1.cache = none := by
    refine List.find?_eq_none.mpr fun i _ => ?_
    simp [(hkept.2 i (hdirty i)).1]
  rw [bcacheGetblk, getblkLocked, hrequest, hreusable]

def fillOps : List Op :=
  (List.range nbuf).flatMap fun b => [.read b 4096, .modify b fun _ _ => 7, .release b]

/-- Block 5 can still be read, and a block that is not in the cache no more. -/
theorem cache_fills_up_full : ∃ x y, run step (initial fun _ => 0) fillOps = some x ∧
    run step x [.read 5 4096, .release 5] = some y ∧ (∀ i, (y.1.cache.buf i).dirty = true) ∧
    bcacheGetblk y.1.cache 64 = .error .panic := by
  have hfill : (run step (initial fun _ => 0) fillOps).any (fun x =>
      (List.finRange nbuf).all (fun i => (x.1.cache.buf i).dirty && decide ((x.1.cache.buf i).blkno < 64)) &&
        (run step x [.read 5 4096, .release 5]).isSome) = true := by
    decide +kernel
  obtain ⟨x, hx, hfacts⟩ := (any_eq_true _ _).mp hfill
  obtain ⟨hall, hlater⟩ := Bool.and_eq_true_iff.mp hfacts
  obtain ⟨y, hy⟩ := isSome_iff_exists.mp hlater
  have hfull : ∀ i, (x.1.cache.buf i).dirty = true ∧ (x.1.cache.buf i).blkno < 64 := fun i => by
    simpa using List.all_eq_true.mp hall i (List.mem_finRange i)
  have hproper : ∀ op ∈ fillOps, ∀ s, Proper s op := by
    intro op hop s
    obtain ⟨b, hb, hop⟩ := List.mem_flatMap.mp hop
    have hlt : b < 2 ^ 28 := (List.mem_range.mp hb).trans (by decide)
    rcases (by simpa using hop) with rfl | rfl | rfl
    · exact ⟨hlt, by decide⟩
    · trivial
    · trivial
  have hreach : Reaches step (fun x op => Proper x.1 op) (initial fun _ => 0) x :=
    .of_run fillOps (allowed_of_forall (fun op hop x => hproper op hop x.1) _) hx
  have hlater : Reaches step (fun x op => Proper x.1 op ∧ ¬ op.Cleans) x y :=
    .of_run [.read 5 4096, .release 5] (allowed_of_forall (fun op hop x => by
      rcases (by simpa using hop) with rfl | rfl
      · exact ⟨⟨by decide, by decide⟩, id⟩
      · exact ⟨trivial, id⟩) _) hy
  obtain ⟨hkept, hpanic⟩ := cache_fills_up (fun _ => 0) hreach hlater
  exact ⟨x, y, hx, hy, fun i => (hkept i (hfull i).1).1, hpanic (fun i => (hfull i).1) 64 fun i => (hfull i).2.ne⟩

end RvMiniOs.Bcache
