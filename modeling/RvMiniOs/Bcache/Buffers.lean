import RvMiniOs.Fs.Layout
import RvMiniOs.Sync.Mutex
import Mathlib.Data.List.FinRange

/-!
# The buffers of the block cache

The data of `kernel/core/fs/bcache.c` and the sections that its functions run
under the cache lock. The list of the buffers is in most recently used order.
-/
namespace RvMiniOs.Bcache

open Fs Lib Sync List Option

abbrev nbuf : ℕ := 64

abbrev uint32Max : ℕ := 2 ^ 32 - 1

abbrev Block := Fin fsBlkSize → UInt8

structure Cblk where
  blkno : ℕ
  refcnt : ℕ
  m : Mutex
  dirty : Bool
  valid : Bool
  buf : Block

structure Cache where
  buf : Fin nbuf → Cblk
  bufList : List (Fin nbuf)

def Cache.modify (c : Cache) (i : Fin nbuf) (f : Cblk → Cblk) : Cache :=
  { c with buf := Function.update c.buf i (f (c.buf i)) }

namespace Cache

variable (c : Cache) (i j : Fin nbuf) (f g : Cblk → Cblk)

@[simp] theorem modify_self : (c.modify i f).buf i = f (c.buf i) := by
  simp [modify]

theorem modify_of_ne {i j : Fin nbuf} (h : j ≠ i) : (c.modify i f).buf j = c.buf j := by
  simp [modify, h]

@[simp] theorem modify_modify : (c.modify i f).modify i g = c.modify i fun k => g (f k) := by
  simp [modify]

theorem modify_apply : (c.modify i f).buf j = if j = i then f (c.buf i) else c.buf j := by
  by_cases h : j = i
  · subst h
    simp
  · rw [modify_of_ne c f h, if_neg h]

theorem modify_field {β : Type*} (g : Cblk → β) (h : g (f (c.buf i)) = g (c.buf i)) :
    g ((c.modify i f).buf j) = g (c.buf j) := by
  rw [modify_apply]
  split_ifs with hj
  · rw [hj, h]
  · rfl

end Cache

def bcacheInit : Cache where
  buf := fun _ =>
    { blkno := uint32Max, refcnt := 0, m := mutexInit, dirty := false, valid := false
      buf := fun _ => 0 }
  bufList := (List.finRange nbuf).reverse

def cacheRequestLocked (c : Cache) (blkno : ℕ) : Option (Fin nbuf) :=
  c.bufList.find? fun i => (c.buf i).blkno = blkno

def findReusableLocked (c : Cache) : Option (Fin nbuf) :=
  c.bufList.reverse.find? fun i => (c.buf i).refcnt = 0 ∧ (c.buf i).dirty = false

def bcacheInvalidate (c : Cache) (blkno : ℕ) : Cache :=
  match cacheRequestLocked c blkno with
  | some i => c.modify i fun k => { k with dirty := false, valid := false, blkno := uint32Max }
  | none => c

/-- `bcache_getblk` up to the unlock of the cache. `none` is its panic. -/
def getblkLocked (c : Cache) (blkno : ℕ) : Option (Fin nbuf × Cache) :=
  match cacheRequestLocked c blkno with
  | some i => some (i, c.modify i fun k => { k with refcnt := k.refcnt + 1 })
  | none =>
    match findReusableLocked c with
    | some i =>
      some (i, c.modify i fun k => { k with blkno, valid := false, refcnt := k.refcnt + 1 })
    | none => none

def dropLocked (c : Cache) (i : Fin nbuf) : Cache :=
  { c.modify i fun k => { k with refcnt := k.refcnt - 1 } with
    bufList := i :: c.bufList.erase i }

@[simp] theorem dropLocked_buf (c : Cache) (i : Fin nbuf) : (dropLocked c i).buf =
    (c.modify i fun k => { k with refcnt := k.refcnt - 1 }).buf := rfl

def bcacheMarkDirty (c : Cache) (i : Fin nbuf) : Cache :=
  c.modify i fun k => { k with dirty := true }

def Listed (c : Cache) : Prop := c.bufList.Nodup ∧ ∀ i, i ∈ c.bufList

theorem listed_init : Listed bcacheInit := by
  refine ⟨nodup_reverse.mpr (nodup_finRange nbuf), fun i => ?_⟩
  simp [bcacheInit]

variable {c : Cache} {b : ℕ} {i : Fin nbuf}

theorem Listed.modify (h : Listed c) (f : Cblk → Cblk) : Listed (c.modify i f) := h

theorem Listed.drop (h : Listed c) : Listed (dropLocked c i) := by
  refine ⟨nodup_cons.mpr ⟨fun hmem => ?_, h.1.erase i⟩, fun j => ?_⟩
  · exact ((Nodup.mem_erase_iff h.1).mp hmem).1 rfl
  · rcases eq_or_ne j i with rfl | hne
    · exact mem_cons_self
    · exact mem_cons_of_mem _ ((Nodup.mem_erase_iff h.1).mpr ⟨hne, h.2 j⟩)

theorem cacheRequest_some (h : cacheRequestLocked c b = some i) : (c.buf i).blkno = b := by
  simpa using find?_some h

theorem cacheRequest_none (hl : Listed c) (h : cacheRequestLocked c b = none) (j : Fin nbuf) :
    (c.buf j).blkno ≠ b := by
  simpa using find?_eq_none.mp h j (hl.2 j)

theorem findReusable_some (h : findReusableLocked c = some i) :
    (c.buf i).refcnt = 0 ∧ (c.buf i).dirty = false := by
  simpa using find?_some h

theorem getblkLocked_cases {out : Cache} (hl : Listed c) (h : getblkLocked c b = some (i, out)) :
    ((c.buf i).blkno = b ∧ out = c.modify i fun k => { k with refcnt := k.refcnt + 1 }) ∨
      ((∀ j, (c.buf j).blkno ≠ b) ∧ (c.buf i).refcnt = 0 ∧ (c.buf i).dirty = false ∧
        out = c.modify i fun k => { k with blkno := b, valid := false, refcnt := k.refcnt + 1 }) := by
  unfold getblkLocked at h
  cases hreq : cacheRequestLocked c b with
  | some j =>
    simp only [hreq, some.injEq, Prod.mk.injEq] at h
    obtain ⟨rfl, rfl⟩ := h
    exact .inl ⟨cacheRequest_some hreq, rfl⟩
  | none =>
    simp only [hreq] at h
    cases hfind : findReusableLocked c with
    | none => simp [hfind] at h
    | some j =>
      simp only [hfind, some.injEq, Prod.mk.injEq] at h
      obtain ⟨rfl, rfl⟩ := h
      exact .inr ⟨cacheRequest_none hl hreq, (findReusable_some hfind).1, (findReusable_some hfind).2, rfl⟩

theorem bcacheInvalidate_cases (hl : Listed c) (b : ℕ) :
    (∃ i, (c.buf i).blkno = b ∧ bcacheInvalidate c b =
      c.modify i fun k => { k with dirty := false, valid := false, blkno := uint32Max }) ∨
    ((∀ i, (c.buf i).blkno ≠ b) ∧ bcacheInvalidate c b = c) := by
  unfold bcacheInvalidate
  cases hreq : cacheRequestLocked c b with
  | some i => exact .inl ⟨i, cacheRequest_some hreq, rfl⟩
  | none => exact .inr ⟨cacheRequest_none hl hreq, rfl⟩

/-- No two slots cache the same block. -/
def Labelled (c : Cache) : Prop :=
  ∀ i j, (c.buf i).blkno = (c.buf j).blkno → (c.buf i).blkno ≠ uint32Max → i = j

theorem labelled_init : Labelled bcacheInit := fun _ _ _ h => absurd rfl h

theorem Labelled.relabel (h : Labelled c) {f : Cblk → Cblk}
    (hf : (f (c.buf i)).blkno = uint32Max ∨ ∀ j, j ≠ i → (c.buf j).blkno ≠ (f (c.buf i)).blkno) :
    Labelled (c.modify i f) := by
  intro j k hjk hne
  rw [Cache.modify_apply, Cache.modify_apply] at hjk
  rw [Cache.modify_apply] at hne
  split_ifs at hjk hne with hj hk hk
  · rw [hj, hk]
  · rcases hf with hmax | hnone
    · exact absurd hmax hne
    · exact absurd hjk.symm (hnone k hk)
  · rcases hf with hmax | hnone
    · exact absurd (hjk.trans hmax) hne
    · exact absurd hjk (hnone j hj)
  · exact h j k hjk hne

theorem Labelled.modify (h : Labelled c) {f : Cblk → Cblk}
    (hf : (f (c.buf i)).blkno = (c.buf i).blkno) : Labelled (c.modify i f) := by
  refine h.relabel ?_
  by_cases hmax : (f (c.buf i)).blkno = uint32Max
  · exact .inl hmax
  · exact .inr fun j hj heq => hj (h j i (heq.trans hf) (heq ▸ hmax))

end RvMiniOs.Bcache
