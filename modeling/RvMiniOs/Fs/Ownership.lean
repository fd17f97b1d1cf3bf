import RvMiniOs.Fs.FileArray
import RvMiniOs.Fs.Cache

/-!
# Block ownership

Which blocks a set of inode contents refers to, and what the allocation and copy
loops of `inode.c` do to these references. `Apart` is what every access keeps,
whatever `balloc` answers: indirect tables are taken blocks and no data block is
one of them. `Owned` says in addition that every block referred to is taken and
referred to once; an access keeps it as long as it needs no table that is not
there and no block more than are free.
-/

namespace RvMiniOs.Fs

open Lib Finset

inductive Ref where
  | data (n : ℕ)
  | table

def RefersAt (s : Store) (d : Dinode) : Ref → ℕ → Prop
  | .data n, b => n < 1036 ∧ ptr s d n = b ∧ b ≠ 0
  | .table, b => d.indir.toNat = b ∧ (b ≠ 0 ∨ ∃ n, 12 ≤ n ∧ n < 1036 ∧ ptr s d n ≠ 0)

abbrev Contents := ℕ → Dinode → Prop

def Contents.add (S : Contents) (ino : ℕ) (d : Dinode) : Contents :=
  fun ino' d' => S ino' d' ∨ (ino' = ino ∧ d' = d)

def SameMap (d d' : Dinode) : Prop := d'.dirblkno = d.dirblkno ∧ d'.indir = d.indir

theorem SameMap.refl (d : Dinode) : SameMap d d := ⟨rfl, rfl⟩

def Contents.Covers (S S' : Contents) : Prop :=
  ∀ ino d', S' ino d' → ∃ d, S ino d ∧ SameMap d d'

theorem Contents.Covers.refl (S : Contents) : S.Covers S := fun _ d hd => ⟨d, hd, SameMap.refl d⟩

theorem Contents.Covers.trans {S S' S'' : Contents} (h : S.Covers S') (h' : S'.Covers S'') :
    S.Covers S'' := by
  intro ino d'' hd''
  obtain ⟨d', hd', hdir', hindir'⟩ := h' ino d'' hd''
  obtain ⟨d, hd, hdir, hindir⟩ := h ino d' hd'
  exact ⟨d, hd, hdir'.trans hdir, hindir'.trans hindir⟩

def DataNumber (sb : FsMeta) (p : ℕ) : Prop :=
  (sb.dataStart ≤ p ∧ p < sb.nbBlk) ∨ (p : ℤ) = 2 ^ 32 - enospc

structure Apart (s : Store) (S : Contents) : Prop where
  wf : s.sb.WellFormed
  table : ∀ ino d, S ino d → d.indir ≠ 0 → Taken s d.indir.toNat
  data : ∀ ino d n, S ino d → n < 1036 → ptr s d n ≠ 0 →
    DataNumber s.sb (ptr s d n) ∧ ∀ ino' d', S ino' d' → d'.indir.toNat ≠ ptr s d n

structure Owned (s : Store) (S : Contents) : Prop where
  taken : ∀ ino d ref b, S ino d → RefersAt s d ref b → Taken s b
  unique : ∀ ino d ref ino' d' ref' b, S ino d → RefersAt s d ref b → S ino' d' →
    RefersAt s d' ref' b → ino = ino' ∧ ref = ref'

section Frame

variable {s s' : Store} {S S' : Contents}

theorem indir_toNat_eq_zero {d : Dinode} : d.indir.toNat = 0 ↔ d.indir = 0 :=
  ⟨fun h => UInt32.toNat.inj h, fun h => by rw [h]; rfl⟩

theorem refersAt_congr {d d' : Dinode} (hindir : d'.indir = d.indir) (hptr : ∀ n, ptr s' d' n = ptr s d n)
    (ref : Ref) (b : ℕ) : RefersAt s' d' ref b ↔ RefersAt s d ref b := by
  cases ref with
  | data n => simp only [RefersAt, hptr]
  | table => simp only [RefersAt, hptr, hindir]

theorem dataStart_pos (wf : s.sb.WellFormed) : 0 < s.sb.dbmStart ∧ s.sb.dbmStart + s.sb.nbDbm ≤
    s.sb.itabStart ∧ s.sb.itabStart + s.sb.nbItab ≤ s.sb.dataStart ∧ 0 < s.sb.ibmStart ∧
    s.sb.ibmStart + s.sb.nbIbm ≤ s.sb.dbmStart := by
  have hpos := wf.ibm_pos
  have hibm := wf.ibm_dbm
  have hdbm := wf.dbm_itab
  have hitab := wf.itab_data
  simp only [fsSuperblk] at hpos
  omega

theorem FsMeta.WellFormed.dbm_le_data {sb : FsMeta} (wf : sb.WellFormed) :
    sb.dbmStart + sb.nbDbm ≤ sb.dataStart :=
  wf.dbm_itab.trans ((Nat.le_add_right _ _).trans wf.itab_data)

theorem FsMeta.WellFormed.data_pos {sb : FsMeta} (wf : sb.WellFormed) : 0 < sb.dataStart := by
  have hpos := wf.ibm_pos
  have hibm := wf.ibm_dbm
  have hdbm := wf.dbm_le_data
  omega

theorem DataNumber.lo {sb : FsMeta} {p : ℕ} (wf : sb.WellFormed) (h : DataNumber sb p) :
    sb.dataStart ≤ p := by
  rcases h with ⟨hlo, -⟩ | hcode
  · exact hlo
  · have hdata := wf.data_blk
    have hblk := wf.blkno
    simp only [enospc] at hcode
    omega

namespace Apart

theorem data_lo (h : Apart s S) {ino n : ℕ} {d : Dinode} (hd : S ino d) (hn : n < 1036)
    (hp : ptr s d n ≠ 0) : s.sb.dataStart ≤ ptr s d n :=
  (h.data ino d n hd hn hp).1.lo h.wf

theorem congr (h : Apart s S) (hcov : S.Covers S') : Apart s S' := by
  refine ⟨h.wf, ?_, ?_⟩
  · intro ino d' hd'
    obtain ⟨d, hd, -, hindir⟩ := hcov ino d' hd'
    rw [hindir]
    exact h.table ino d hd
  · intro ino d' n hd' hn
    obtain ⟨d, hd, hdir, hindir⟩ := hcov ino d' hd'
    rw [ptr_congr hdir hindir rfl]
    intro hp
    obtain ⟨hdata, hne⟩ := h.data ino d n hd hn hp
    refine ⟨hdata, ?_⟩
    intro ino₁ d₁' hd₁'
    obtain ⟨d₁, hd₁, -, hindir₁⟩ := hcov ino₁ d₁' hd₁'
    rw [hindir₁]
    exact hne ino₁ d₁ hd₁

theorem table_cases (h : Apart s S) {ino : ℕ} {d : Dinode} (hd : S ino d) :
    d.indir.toNat = 0 ∨ Taken s d.indir.toNat := by
  by_cases h0 : d.indir = 0
  · exact Or.inl (indir_toNat_eq_zero.mpr h0)
  · exact Or.inr (h.table ino d hd h0)

theorem table_outside (h : Apart s S) {ino : ℕ} {d : Dinode} (hd : S ino d) :
    d.indir.toNat = 0 ∨ s.sb.dataStart ≤ d.indir.toNat :=
  (h.table_cases hd).imp_right And.left

theorem table_not_dbm (h : Apart s S) {ino : ℕ} {d : Dinode} (hd : S ino d) :
    d.indir.toNat < s.sb.dbmStart ∨ s.sb.dbmStart + s.sb.nbDbm ≤ d.indir.toNat := by
  have hpos := dataStart_pos h.wf
  have htab := h.table_outside hd
  omega

theorem setBlk (h : Apart s S) {b : ℕ} (x : Bytes)
    (hdbm : b < s.sb.dbmStart ∨ s.sb.dbmStart + s.sb.nbDbm ≤ b)
    (htab : ∀ ino d, S ino d → d.indir.toNat ≠ b) : Apart (s.setBlk b x) S := by
  have hptr : ∀ ino d n, S ino d → ptr (s.setBlk b x) d n = ptr s d n :=
    fun ino d n hd => ptr_congr rfl rfl (Store.setBlk_blk_ne x (htab ino d hd))
  refine ⟨h.wf, ?_, ?_⟩
  · intro ino d hd h0
    obtain ⟨hlo, hhi, hbit⟩ := h.table ino d hd h0
    exact ⟨hlo, hhi, by rw [dataBit_setBlk h.wf x hdbm hlo hhi, hbit]⟩
  · intro ino d n hd hn
    rw [hptr ino d n hd]
    exact h.data ino d n hd hn

theorem table_ne_fresh (h : Apart s S) {b : ℕ} (ha : Allocates s s' b) {ino : ℕ} {d : Dinode}
    (hd : S ino d) : d.indir.toNat ≠ b := by
  have hpos := dataStart_pos h.wf
  have hlo := ha.lo
  rcases h.table_cases hd with h0 | ⟨-, -, hbit⟩
  · omega
  · intro heq
    rw [heq, ha.clear] at hbit
    cases hbit

theorem ptr_allocates (h : Apart s S) {b : ℕ} (ha : Allocates s s' b) {ino n : ℕ} {d : Dinode}
    (hd : S ino d) : ptr s' d n = ptr s d n :=
  ptr_congr rfl rfl (ha.frame _ (h.table_ne_fresh ha hd) (h.table_not_dbm hd))

theorem allocates (h : Apart s S) {b : ℕ} (ha : Allocates s s' b) : Apart s' S := by
  refine ⟨ha.sb ▸ h.wf, ?_, ?_⟩
  · intro ino d hd h0
    obtain ⟨hlo, hhi, hbit⟩ := h.table ino d hd h0
    exact ⟨ha.sb ▸ hlo, ha.sb ▸ hhi, by rw [ha.bits _ hlo hhi, hbit]; rfl⟩
  · intro ino d n hd hn
    rw [h.ptr_allocates ha hd, ha.sb]
    exact h.data ino d n hd hn

end Apart

theorem ptr_setPtr_other (s : Store) (i : Inode) (n : ℕ) (v : UInt32) (d : Dinode) (m : ℕ) :
    ptr (setPtr s i n v).1 d m = ptr s d m ∨
      (ptr (setPtr s i n v).1 d m = v.toNat ∧ m = n ∧ 12 ≤ n ∧ d.indir = i.content.indir) := by
  by_cases hn : n < 12
  · exact Or.inl (by rw [setPtr_store_of_direct s i n v hn])
  by_cases hm : m < 12
  · exact Or.inl (by simp [ptr, hm])
  by_cases htab : d.indir.toNat = i.content.indir.toNat
  · -- the same table: as seen through the inode itself
    have hview : ∀ s' : Store, ptr s' d m = ptr s' i.content m := by
      intro s'
      simp [ptr, hm, htab]
    have hsame : (setPtr s i n v).2 = i := by rw [setPtr, dif_neg hn]
    by_cases hmn : m = n
    · right
      have hself := ptr_setPtr_self s i n v
      rw [hsame] at hself
      exact ⟨by rw [hview, hmn, hself], hmn, not_lt.mp hn, UInt32.toNat.inj htab⟩
    · left
      have hne := ptr_setPtr_ne s i n v hmn
      rw [hsame] at hne
      rw [hview, hview, hne]
  · exact Or.inl (ptr_congr rfl rfl (setPtr_blk s i n v htab))

end Frame

structure Keeps (s s' : Store) : Prop where
  sb : s'.sb = s.sb
  bits : ∀ b, Taken s b → Taken s' b
  frame : ∀ b, 0 < b → b < s.sb.dataStart → (b < s.sb.dbmStart ∨ s.sb.dbmStart + s.sb.nbDbm ≤ b) →
    s'.blk b = s.blk b

namespace Keeps

variable {s s' s'' : Store}

theorem refl (s : Store) : Keeps s s := ⟨rfl, fun _ h => h, fun _ _ _ _ => rfl⟩

theorem trans (h : Keeps s s') (h' : Keeps s' s'') : Keeps s s'' := by
  refine ⟨h'.sb.trans h.sb, fun b hb => h'.bits b (h.bits b hb), ?_⟩
  intro b h0 hlo hdbm
  rw [h'.frame b h0 (h.sb ▸ hlo) (h.sb ▸ hdbm), h.frame b h0 hlo hdbm]

theorem refuse (s : Store) : Keeps s s.refuse := ⟨rfl, fun _ h => h, fun _ _ _ _ => rfl⟩

theorem allocates {b : ℕ} (ha : Allocates s s' b) : Keeps s s' := by
  refine ⟨ha.sb, ?_, ?_⟩
  · rintro c ⟨hlo, hhi, hbit⟩
    exact ⟨ha.sb ▸ hlo, ha.sb ▸ hhi, by rw [ha.bits c hlo hhi, hbit]; rfl⟩
  · intro c h0 hlo hdbm
    have hb := ha.lo
    exact ha.frame c (by omega) hdbm

theorem setBlk (wf : s.sb.WellFormed) {b : ℕ} (x : Bytes) (hb : b = 0 ∨ s.sb.dataStart ≤ b) :
    Keeps s (s.setBlk b x) := by
  have hpos := dataStart_pos wf
  refine ⟨rfl, ?_, ?_⟩
  · rintro c ⟨hlo, hhi, hbit⟩
    exact ⟨hlo, hhi, by rw [dataBit_setBlk wf x (by omega) hlo hhi, hbit]⟩
  · intro c h0 hlo _
    exact Store.setBlk_blk_ne x (by omega)

theorem setPtr (wf : s.sb.WellFormed) {i : Inode} {n : ℕ} {v : UInt32}
    (htab : i.content.indir.toNat = 0 ∨ s.sb.dataStart ≤ i.content.indir.toNat) :
    Keeps s (setPtr s i n v).1 := by
  unfold Fs.setPtr
  split_ifs
  · exact refl s
  · exact setBlk wf _ htab

end Keeps

section Access

variable {s : Store} {S : Contents} {i : Inode} {ino n : ℕ}

theorem Apart.setPtr (h : Apart s (S.add ino i.content)) {v : UInt32} (hv : DataNumber s.sb v.toNat)
    (hfresh : ∀ ino' d', S.add ino i.content ino' d' → d'.indir.toNat ≠ v.toNat) :
    Apart (setPtr s i n v).1 (S.add ino (setPtr s i n v).2.content) := by
  have hi : S.add ino i.content ino i.content := Or.inr ⟨rfl, rfl⟩
  have hkeep : Keeps s (Fs.setPtr s i n v).1 := Keeps.setPtr h.wf (h.table_outside hi)
  -- the tables are the old ones
  have hold : ∀ ino' d', S.add ino (Fs.setPtr s i n v).2.content ino' d' →
      ∃ d, S.add ino i.content ino' d ∧ d'.indir = d.indir := by
    rintro ino' d' (hd | ⟨rfl, rfl⟩)
    · exact ⟨d', Or.inl hd, rfl⟩
    · exact ⟨i.content, hi, setPtr_indir ..⟩
  -- and so are the numbers, but for the new one
  have hnum : ∀ ino' d' m, S.add ino (Fs.setPtr s i n v).2.content ino' d' →
      ptr (Fs.setPtr s i n v).1 d' m = v.toNat ∨
        ∃ d, S.add ino i.content ino' d ∧ ptr (Fs.setPtr s i n v).1 d' m = ptr s d m := by
    rintro ino' d' m (hd | ⟨rfl, rfl⟩)
    · rcases ptr_setPtr_other s i n v d' m with hsame | ⟨hnew, -⟩
      · exact Or.inr ⟨d', Or.inl hd, hsame⟩
      · exact Or.inl hnew
    · by_cases hm : m = n
      · exact Or.inl (by rw [hm, ptr_setPtr_self])
      · exact Or.inr ⟨i.content, hi, ptr_setPtr_ne s i n v hm⟩
  refine ⟨hkeep.sb ▸ h.wf, ?_, ?_⟩
  · intro ino' d' hd' h0
    obtain ⟨d, hd, hindir⟩ := hold ino' d' hd'
    rw [hindir] at h0 ⊢
    exact hkeep.bits _ (h.table ino' d hd h0)
  · intro ino' d' m hd' hm hp
    rw [hkeep.sb]
    have hne : ∀ b, (∀ ino₁ d₁, S.add ino i.content ino₁ d₁ → d₁.indir.toNat ≠ b) →
        ∀ ino₁ d₁, S.add ino (Fs.setPtr s i n v).2.content ino₁ d₁ → d₁.indir.toNat ≠ b := by
      intro b hb ino₁ d₁ hd₁
      obtain ⟨d, hd, hindir⟩ := hold ino₁ d₁ hd₁
      rw [hindir]
      exact hb ino₁ d hd
    rcases hnum ino' d' m hd' with hnew | ⟨d, hd, hsame⟩
    · rw [hnew]
      exact ⟨hv, hne _ hfresh⟩
    · rw [hsame] at hp ⊢
      obtain ⟨hdata, hdne⟩ := h.data ino' d m hd hm hp
      exact ⟨hdata, hne _ hdne⟩

theorem Apart.getData (h : Apart s (S.add ino i.content)) (n : ℕ) :
    let d := getDataLocked s i n
    Apart d.2.1 (S.add ino d.2.2.content) ∧ Keeps s d.2.1 ∧
      (0 ≤ d.1 → d.2.1.sb.dataStart ≤ d.1.toNat ∧
        ∀ ino' d', S.add ino d.2.2.content ino' d' → d'.indir.toNat ≠ d.1.toNat) := by
  have hi : S.add ino i.content ino i.content := Or.inr ⟨rfl, rfl⟩
  have hint := h.wf.blkno
  by_cases hn : n < 1036
  · rcases getDataLocked_cases (i := i) h.wf hn with
      ⟨hp, hget⟩ | ⟨hp, b, s', v, ha, -, hv, hget⟩ | ⟨hp, -, v, hv, hget⟩
    · rw [hget]
      refine ⟨h, Keeps.refl s, ?_⟩
      intro hpos
      have hsmall := (asInt32_nonneg_iff (ptr_lt s n i.content)).mp hpos
      rw [asInt32_of_lt hsmall, Int.toNat_natCast]
      obtain ⟨hdata, hne⟩ := h.data ino i.content n hi hn hp
      exact ⟨hdata.lo h.wf, hne⟩
    · rw [hget]
      have halloc := h.allocates ha
      have hfresh : ∀ ino' d', S.add ino i.content ino' d' → d'.indir.toNat ≠ v.toNat :=
        fun ino' d' hd' => hv ▸ h.table_ne_fresh ha hd'
      have hblk : DataNumber s'.sb v.toNat := by
        rw [hv, ha.sb]
        exact .inl ⟨ha.lo, ha.hi⟩
      have hset := halloc.setPtr (n := n) hblk hfresh
      refine ⟨hset, (Keeps.allocates ha).trans (Keeps.setPtr halloc.wf (halloc.table_outside hi)), ?_⟩
      intro _
      have hself := ptr_setPtr_self s' i n v
      have hb := ha.lo
      have hpos := dataStart_pos h.wf
      rw [Int.toNat_natCast, ← hv, ← hself]
      obtain ⟨hdata, hne⟩ := hset.data ino _ n (Or.inr ⟨rfl, rfl⟩) hn (by rw [hself]; omega)
      exact ⟨hdata.lo hset.wf, hne⟩
    · rw [hget]
      have hrefuse : Apart s.refuse (S.add ino i.content) := ⟨h.wf, h.table, h.data⟩
      have hdata := h.wf.data_blk
      have hcode : DataNumber s.refuse.sb v.toNat := .inr (by rw [hv]; rfl)
      have hset := hrefuse.setPtr (n := n) hcode ?_
      · refine ⟨hset, (Keeps.refuse s).trans (Keeps.setPtr hrefuse.wf (hrefuse.table_outside hi)), ?_⟩
        intro hpos
        simp only [enospc] at hpos
        omega
      · intro ino' d' hd'
        rcases h.table_cases hd' with h0 | ⟨-, hhi, -⟩
        · omega
        · omega
  · rw [getDataLocked_of_ge hn]
    refine ⟨h, Keeps.refl s, ?_⟩
    intro hpos
    simp only [efbig] at hpos
    omega

theorem Apart.write (h : Apart s (S.add ino i.content)) (x : Bytes) :
    let d := getDataLocked s i n
    0 ≤ d.1 → Apart (d.2.1.setBlk d.1.toNat x) (S.add ino d.2.2.content) ∧
      Keeps s (d.2.1.setBlk d.1.toNat x) := by
  intro d hpos
  obtain ⟨hapart, hkeep, hret⟩ := h.getData n
  obtain ⟨hlo, hne⟩ := hret hpos
  have hdbm := hapart.wf.dbm_le_data.trans hlo
  exact ⟨hapart.setBlk x (Or.inr hdbm) hne, hkeep.trans (Keeps.setBlk hapart.wf x (Or.inr hlo))⟩

theorem Apart.writeLoop (h : Apart s (S.add ino i.content)) (copyin : Copyin) (count offset : ℕ) :
    let w := (writeLoop copyin count ⟨s, i, offset, 0⟩).2
    Apart w.store (S.add ino w.inode.content) ∧ Keeps s w.store := by
  refine writeLoop_rule
    (P := fun c => Apart c.store (S.add ino c.inode.content) ∧ Keeps s c.store)
    (Q := fun _ c => Apart c.store (S.add ino c.inode.content) ∧ Keeps s c.store)
    ?_ ?_ ?_ ?_ ⟨s, i, offset, 0⟩ ⟨h, Keeps.refl s⟩
  · rintro c ⟨hc, hkeep⟩ _ d _
    obtain ⟨hd, hkeep', -⟩ := hc.getData (c.offset / 4096)
    exact ⟨hd, hkeep.trans hkeep'⟩
  · rintro c e ⟨hc, hkeep⟩ _ _ d _
    obtain ⟨hd, hkeep', -⟩ := hc.getData (c.offset / 4096)
    exact ⟨hd, hkeep.trans hkeep'⟩
  · rintro c buf ⟨hc, hkeep⟩ _ _ d hpos
    obtain ⟨hd, hkeep'⟩ := hc.write _ hpos
    exact ⟨hd, hkeep.trans hkeep'⟩
  · exact fun c hc _ => hc

theorem Apart.readLoop {σ : Type} (h : Apart s (S.add ino i.content)) (copyout : Copyout σ)
    (count offset : ℕ) (dst : σ) :
    let r := (readLoop copyout count ⟨s, i, offset, 0⟩ dst).2.1
    Apart r.store (S.add ino r.inode.content) ∧ Keeps s r.store := by
  have hstep : ∀ c : Cursor, Apart c.store (S.add ino c.inode.content) ∧ Keeps s c.store →
      let d := getDataLocked c.store c.inode (c.offset / 4096)
      Apart d.2.1 (S.add ino d.2.2.content) ∧ Keeps s d.2.1 := by
    rintro c ⟨hc, hkeep⟩
    obtain ⟨hd, hkeep', -⟩ := hc.getData (c.offset / 4096)
    exact ⟨hd, hkeep.trans hkeep'⟩
  refine readLoop_rule
    (P := fun c _ => Apart c.store (S.add ino c.inode.content) ∧ Keeps s c.store)
    (Q := fun _ c _ => Apart c.store (S.add ino c.inode.content) ∧ Keeps s c.store)
    ?_ ?_ ?_ ⟨s, i, offset, 0⟩ dst ⟨h, Keeps.refl s⟩
  · exact fun c _ hc _ _ => hstep c hc
  · exact fun c _ hc _ _ => ⟨fun _ => hstep c hc, fun _ => hstep c hc⟩
  · exact fun c _ hc _ => hc

end Access

namespace Owned

variable {s s' : Store} {S S' : Contents}

theorem congr (h : Owned s S) (hcov : S.Covers S') : Owned s S' := by
  have hback : ∀ ino d' ref b, S' ino d' → RefersAt s d' ref b → ∃ d, S ino d ∧ RefersAt s d ref b := by
    intro ino d' ref b hd' hb
    obtain ⟨d, hd, hdir, hindir⟩ := hcov ino d' hd'
    exact ⟨d, hd, (refersAt_congr hindir (fun n => ptr_congr hdir hindir rfl) ref b).mp hb⟩
  refine ⟨?_, ?_⟩
  · intro ino d' ref b hd' hb
    obtain ⟨d, hd, hb⟩ := hback ino d' ref b hd' hb
    exact h.taken ino d ref b hd hb
  · intro ino d' ref ino₁ d₁' ref₁ b hd' hb hd₁' hb₁
    obtain ⟨d, hd, hb⟩ := hback ino d' ref b hd' hb
    obtain ⟨d₁, hd₁, hb₁⟩ := hback ino₁ d₁' ref₁ b hd₁' hb₁
    exact h.unique ino d ref ino₁ d₁ ref₁ b hd hb hd₁ hb₁

theorem apart (h : Owned s S) (wf : s.sb.WellFormed) : Apart s S := by
  refine ⟨wf, ?_, ?_⟩
  · intro ino d hd h0
    exact h.taken ino d .table _ hd ⟨rfl, Or.inl fun h => h0 (indir_toNat_eq_zero.mp h)⟩
  · intro ino d n hd hn hp
    have href : RefersAt s d (.data n) (ptr s d n) := ⟨hn, rfl, hp⟩
    have htaken := h.taken ino d _ _ hd href
    refine ⟨.inl ⟨htaken.1, htaken.2.1⟩, ?_⟩
    intro ino' d' hd' heq
    have htab : RefersAt s d' .table (ptr s d n) := ⟨heq, Or.inl hp⟩
    cases (h.unique ino d _ ino' d' _ _ hd href hd' htab).2

theorem transport (h : Owned s S) (hptr : ∀ ino d n, S ino d → ptr s' d n = ptr s d n)
    (hbits : ∀ b, Taken s b → Taken s' b) : Owned s' S := by
  have hback : ∀ ino d ref b, S ino d → RefersAt s' d ref b → RefersAt s d ref b :=
    fun ino d ref b hd hb => (refersAt_congr rfl (fun n => hptr ino d n hd) ref b).mp hb
  refine ⟨?_, ?_⟩
  · intro ino d ref b hd hb
    exact hbits b (h.taken ino d ref b hd (hback ino d ref b hd hb))
  · intro ino d ref ino' d' ref' b hd hb hd' hb'
    exact h.unique ino d ref ino' d' ref' b hd (hback _ _ _ _ hd hb) hd' (hback _ _ _ _ hd' hb')

theorem setBlk (h : Owned s S) (wf : s.sb.WellFormed) {b : ℕ} (x : Bytes)
    (hdbm : b < s.sb.dbmStart ∨ s.sb.dbmStart + s.sb.nbDbm ≤ b)
    (htab : ∀ ino d, S ino d → d.indir.toNat ≠ b) : Owned (s.setBlk b x) S := by
  apply h.transport
  · exact fun ino d n hd => ptr_congr rfl rfl (Store.setBlk_blk_ne x (htab ino d hd))
  · rintro c ⟨hlo, hhi, hbit⟩
    exact ⟨hlo, hhi, by rw [dataBit_setBlk wf x hdbm hlo hhi, hbit]⟩

theorem allocates (h : Owned s S) (wf : s.sb.WellFormed) {b : ℕ} (ha : Allocates s s' b) : Owned s' S :=
  h.transport (fun _ _ _ hd => (h.apart wf).ptr_allocates ha hd) (Keeps.allocates ha).bits

theorem fresh (h : Owned s S) {b : ℕ} (hclear : dataBit s b = false) {ino : ℕ} {d : Dinode}
    (hd : S ino d) (ref : Ref) : ¬ RefersAt s d ref b := by
  intro hb
  have hbit := (h.taken ino d ref b hd hb).2.2
  rw [hclear] at hbit
  cases hbit

variable {i : Inode} {ino n : ℕ}

theorem setPtr (h : Owned s (S.add ino i.content)) (wf : s.sb.WellFormed) {v : UInt32}
    (hn : n < 1036) (hindir : 12 ≤ n → i.content.indir ≠ 0) (hv : Taken s v.toNat)
    (hfresh : ∀ ino' d' ref, S.add ino i.content ino' d' → ¬ RefersAt s d' ref v.toNat) :
    Owned (setPtr s i n v).1 (S.add ino (setPtr s i n v).2.content) := by
  have hi : S.add ino i.content ino i.content := Or.inr ⟨rfl, rfl⟩
  have hkeep : Keeps s (Fs.setPtr s i n v).1 := Keeps.setPtr wf ((h.apart wf).table_outside hi)
  -- every reference is the new one or an old one
  have hback : ∀ ino' d' ref b, S.add ino (Fs.setPtr s i n v).2.content ino' d' →
      RefersAt (Fs.setPtr s i n v).1 d' ref b →
      (b = v.toNat ∧ ino' = ino ∧ ref = .data n) ∨
        ∃ d, S.add ino i.content ino' d ∧ RefersAt s d ref b := by
    rintro ino' d' ref b (hd | ⟨rfl, rfl⟩) hb
    · -- another content sees the new number only through the same table
      have hsame : ∀ m, ptr (Fs.setPtr s i n v).1 d' m = ptr s d' m ∨
          (ptr (Fs.setPtr s i n v).1 d' m = v.toNat ∧ m = n ∧ ino' = ino ∧ d'.indir ≠ 0) := by
        intro m
        rcases ptr_setPtr_other s i n v d' m with hsame | ⟨hnew, hmn, h12, htab⟩
        · exact Or.inl hsame
        · have h0 : d'.indir ≠ 0 := htab ▸ hindir h12
          have hnz : d'.indir.toNat ≠ 0 := fun h => h0 (indir_toNat_eq_zero.mp h)
          have href : RefersAt s d' .table d'.indir.toNat := ⟨rfl, Or.inl hnz⟩
          have href' : RefersAt s i.content .table d'.indir.toNat := ⟨by rw [htab], Or.inl hnz⟩
          exact Or.inr ⟨hnew, hmn, (h.unique _ _ _ _ _ _ _ (Or.inl hd) href hi href').1, h0⟩
      cases ref with
      | data m =>
        obtain ⟨hm, hp, hnz⟩ := hb
        rcases hsame m with hsame | ⟨hnew, rfl, hino, -⟩
        · exact Or.inr ⟨d', Or.inl hd, hm, hsame ▸ hp, hnz⟩
        · exact Or.inl ⟨hp.symm.trans hnew, hino, rfl⟩
      | table =>
        obtain ⟨htab, hnz | ⟨m, h12, hm, hp⟩⟩ := hb
        · exact Or.inr ⟨d', Or.inl hd, htab, Or.inl hnz⟩
        · rcases hsame m with hsame | ⟨-, -, -, h0⟩
          · exact Or.inr ⟨d', Or.inl hd, htab, Or.inr ⟨m, h12, hm, hsame ▸ hp⟩⟩
          · exact Or.inr ⟨d', Or.inl hd, htab, Or.inl fun h => h0 (indir_toNat_eq_zero.mp (htab.trans h))⟩
    · cases ref with
      | data m =>
        obtain ⟨hm, hp, hnz⟩ := hb
        by_cases hmn : m = n
        · subst hmn
          exact Or.inl ⟨by rw [← hp, ptr_setPtr_self], rfl, rfl⟩
        · exact Or.inr ⟨i.content, hi, hm, by rw [← hp, ptr_setPtr_ne s i n v hmn], hnz⟩
      | table =>
        obtain ⟨htab, hnz⟩ := hb
        rw [setPtr_indir] at htab
        refine Or.inr ⟨i.content, hi, htab, ?_⟩
        rcases hnz with hnz | ⟨m, h12, hm, hp⟩
        · exact Or.inl hnz
        · by_cases hmn : m = n
          · exact Or.inl fun h => hindir (hmn ▸ h12) (indir_toNat_eq_zero.mp (htab.trans h))
          · exact Or.inr ⟨m, h12, hm, by rwa [ptr_setPtr_ne s i n v hmn] at hp⟩
  refine ⟨?_, ?_⟩
  · intro ino' d' ref b hd' hb
    rcases hback ino' d' ref b hd' hb with ⟨rfl, -, -⟩ | ⟨d, hd, hb⟩
    · exact hkeep.bits _ hv
    · exact hkeep.bits _ (h.taken ino' d ref b hd hb)
  · intro ino' d' ref ino₁ d₁' ref₁ b hd' hb hd₁' hb₁
    rcases hback ino' d' ref b hd' hb with ⟨rfl, rfl, rfl⟩ | ⟨d, hd, hb⟩
    · rcases hback ino₁ d₁' ref₁ _ hd₁' hb₁ with ⟨-, rfl, rfl⟩ | ⟨d₁, hd₁, hb₁⟩
      · exact ⟨rfl, rfl⟩
      · exact absurd hb₁ (hfresh ino₁ d₁ ref₁ hd₁)
    · rcases hback ino₁ d₁' ref₁ b hd₁' hb₁ with ⟨rfl, rfl, rfl⟩ | ⟨d₁, hd₁, hb₁⟩
      · exact absurd hb (hfresh ino' d ref hd)
      · exact h.unique ino' d ref ino₁ d₁ ref₁ b hd hb hd₁ hb₁

end Owned

def unmapped (s : Store) (d : Dinode) (lo hi : ℕ) : Finset ℕ :=
  {n ∈ Finset.Ico lo hi | ptr s d n = 0}

def freeBlks (s : Store) : Finset ℕ :=
  {b ∈ Finset.Ico s.sb.dataStart s.sb.nbBlk | dataBit s b = false}

section FreeBlks

variable {s s' : Store} {b : ℕ}

theorem mem_freeBlks : b ∈ freeBlks s ↔ (s.sb.dataStart ≤ b ∧ b < s.sb.nbBlk) ∧ dataBit s b = false := by
  simp only [freeBlks, mem_filter, mem_Ico]

theorem freeBlks_congr (hsb : s'.sb = s.sb)
    (hbit : ∀ c, s.sb.dataStart ≤ c → c < s.sb.nbBlk → dataBit s' c = dataBit s c) :
    freeBlks s' = freeBlks s := by
  unfold freeBlks
  rw [hsb]
  refine filter_congr fun c hc => ?_
  obtain ⟨hlo, hhi⟩ := mem_Ico.mp hc
  rw [hbit c hlo hhi]

theorem freeBlks_setBlk (wf : s.sb.WellFormed) (x : Bytes) (hdbm : s.sb.dbmStart + s.sb.nbDbm ≤ b) :
    freeBlks (s.setBlk b x) = freeBlks s :=
  freeBlks_congr rfl fun _ hlo hhi => dataBit_setBlk wf x (Or.inr hdbm) hlo hhi

theorem Allocates.freeBlks (h : Allocates s s' b) : freeBlks s' = (freeBlks s).erase b := by
  ext c
  rw [mem_erase, mem_freeBlks, mem_freeBlks, h.sb]
  by_cases hc : s.sb.dataStart ≤ c ∧ c < s.sb.nbBlk
  · rw [h.bits c hc.1 hc.2]
    simp only [hc, true_and, Bool.or_eq_false_iff, decide_eq_false_iff_not]
    exact and_comm
  · simp only [hc, false_and, and_false]

theorem Allocates.card_freeBlks (h : Allocates s s' b) :
    (Fs.freeBlks s').card + 1 = (Fs.freeBlks s).card := by
  have hmem : b ∈ Fs.freeBlks s := mem_freeBlks.mpr ⟨⟨h.lo, h.hi⟩, h.clear⟩
  rw [h.freeBlks, card_erase_add_one hmem]

end FreeBlks

def Room (s : Store) (d : Dinode) (lo hi : ℕ) : Prop :=
  (unmapped s d lo hi).card ≤ (freeBlks s).card

def endBlk (offset count : ℕ) : ℕ := (offset + count + fsBlkSize - 1) / fsBlkSize

def Served (s : Store) (d : Dinode) (offset count : ℕ) : Prop :=
  0 < count → (fsInodeDirDblkno < endBlk offset count → d.indir ≠ 0) ∧
    Room s d (offset / fsBlkSize) (endBlk offset count)

namespace Room

variable {s s' : Store} {d : Dinode} {i : Inode} {n lo hi : ℕ}

theorem mono (h : Room s d lo hi) {lo' : ℕ} (hlo : lo ≤ lo') : Room s d lo' hi :=
  (card_le_card (filter_subset_filter _ (Ico_subset_Ico_left hlo))).trans h

theorem setBlk (h : Room s d lo hi) (wf : s.sb.WellFormed) {b : ℕ} (x : Bytes)
    (hdbm : s.sb.dbmStart + s.sb.nbDbm ≤ b) (htab : d.indir.toNat ≠ b) : Room (s.setBlk b x) d lo hi := by
  have hptr : ∀ n, ptr (s.setBlk b x) d n = ptr s d n :=
    fun n => ptr_congr rfl rfl (Store.setBlk_blk_ne x htab)
  simpa only [Room, unmapped, hptr, freeBlks_setBlk wf x hdbm] using h

theorem allocated (h : Room s i.content lo hi) (wf : s.sb.WellFormed) (hlo : lo ≤ n) (hhi : n < hi)
    (hp : ptr s i.content n = 0) {b : ℕ} {v : UInt32} (ha : Allocates s s' b) (hv : v.toNat = b)
    (htab : i.content.indir.toNat ≠ b)
    (hdbm : i.content.indir.toNat < s.sb.dbmStart ∨ s.sb.dbmStart + s.sb.nbDbm ≤ i.content.indir.toNat) :
    Room (setPtr s' i n v).1 (setPtr s' i n v).2.content lo hi := by
  have hpos := dataStart_pos wf
  have hblo := ha.lo
  have hmissing : unmapped (setPtr s' i n v).1 (setPtr s' i n v).2.content lo hi =
      (unmapped s i.content lo hi).erase n := by
    ext m
    simp only [unmapped, mem_filter, mem_erase]
    by_cases hm : m = n
    · subst hm
      rw [ptr_setPtr_self, hv]
      have hb0 : b ≠ 0 := by omega
      simp [hb0]
    · have hsame : ptr s' i.content m = ptr s i.content m :=
        ptr_congr rfl rfl (ha.frame _ htab hdbm)
      simp [hm, ptr_setPtr_ne s' i n v hm, hsame]
  have hfree : freeBlks (setPtr s' i n v).1 = freeBlks s' :=
    freeBlks_congr (setPtr_sb ..) fun c hlo hhi => dataBit_setPtr (ha.sb ▸ wf) v (ha.sb ▸ hdbm) hlo hhi
  have hcard := ha.card_freeBlks
  have hmem : n ∈ unmapped s i.content lo hi :=
    mem_filter.mpr ⟨mem_Ico.mpr ⟨hlo, hhi⟩, hp⟩
  unfold Room at h ⊢
  rw [hmissing, hfree, card_erase_of_mem hmem]
  omega

theorem getData_cases (h : Room s i.content lo hi) (wf : s.sb.WellFormed) (hdeny : s.deny = [])
    (hn : n < 1036) (hlo : lo ≤ n) (hhi : n < hi) : (ptr s i.content n ≠ 0 ∧ getDataLocked s i n =
    (asInt32 (ptr s i.content n), s, i)) ∨ (ptr s i.content n = 0 ∧ ∃ (b : ℕ) (s' : Store) (v : UInt32),
    Allocates s s' b ∧ s'.deny = [] ∧ v.toNat = b ∧ getDataLocked s i n = ((b : ℤ), setPtr s' i n v)) := by
  rcases getDataLocked_cases (i := i) wf hn with
    hmapped | ⟨hp, b, s', v, ha, hdeny', hv, hget⟩ | ⟨hp, hfail, -⟩
  · exact Or.inl hmapped
  · exact Or.inr ⟨hp, b, s', v, ha, by rw [hdeny', hdeny]; rfl, hv, hget⟩
  · exfalso
    have hmem : n ∈ unmapped s i.content lo hi :=
      mem_filter.mpr ⟨mem_Ico.mpr ⟨hlo, hhi⟩, hp⟩
    obtain ⟨c, hc⟩ := card_pos.mp ((card_pos.mpr ⟨n, hmem⟩).trans_le h)
    obtain ⟨hrange, hclear⟩ := mem_filter.mp hc
    obtain ⟨hclo, hchi⟩ := mem_Ico.mp hrange
    rcases balloc_cases wf with ⟨b, s', hb, -, -⟩ | ⟨-, hforced | hfull⟩
    · rw [hfail] at hb
      have hneg := congrArg Prod.fst hb
      simp only [enospc] at hneg
      omega
    · rw [hdeny] at hforced
      cases hforced
    · rw [hfull c hclo hchi] at hclear
      cases hclear

end Room

structure Serving (S : Contents) (ino hi : ℕ) (s : Store) (i : Inode) (lo : ℕ) : Prop where
  wf : s.sb.WellFormed
  deny : s.deny = []
  owned : Owned s (S.add ino i.content)
  room : Room s i.content lo hi
  indir : 12 < hi → i.content.indir ≠ 0

namespace Serving

variable {S : Contents} {s : Store} {i : Inode} {ino n lo hi : ℕ}

theorem getData (h : Serving S ino hi s i lo) (hlo : lo ≤ n) (hhi : n < hi) :
    let d := getDataLocked s i n
    Serving S ino hi d.2.1 d.2.2 lo := by
  have hi' : S.add ino i.content ino i.content := Or.inr ⟨rfl, rfl⟩
  have hapart := h.owned.apart h.wf
  by_cases hn : n < 1036
  · rcases h.room.getData_cases h.wf h.deny hn hlo hhi with
      ⟨-, hget⟩ | ⟨hp, b, s', v, ha, hdeny, hv, hget⟩
    · rw [hget]
      exact h
    · rw [hget]
      have halloc := h.owned.allocates h.wf ha
      have hwf : s'.sb.WellFormed := ha.sb ▸ h.wf
      have htaken : Taken s' v.toNat := by
        rw [hv]
        exact ⟨ha.sb ▸ ha.lo, ha.sb ▸ ha.hi, by rw [ha.bits b ha.lo ha.hi]; simp⟩
      refine ⟨(setPtr_sb s' i n v).symm ▸ hwf, (setPtr_deny ..).trans hdeny,
        halloc.setPtr hwf hn (fun h12 => h.indir (h12.trans_lt hhi)) htaken ?_, ?_, ?_⟩
      · intro ino' d' ref hd' hb
        have hsame : RefersAt s' d' ref v.toNat ↔ RefersAt s d' ref v.toNat :=
          refersAt_congr rfl (fun m => hapart.ptr_allocates ha hd') ref v.toNat
        exact h.owned.fresh (hv ▸ ha.clear) hd' ref (hsame.mp hb)
      · exact h.room.allocated h.wf hlo hhi hp ha hv (hapart.table_ne_fresh ha hi')
          (hapart.table_not_dbm hi')
      · rw [setPtr_indir]
        exact h.indir
  · rw [getDataLocked_of_ge hn]
    exact h

theorem write (h : Serving S ino hi s i lo) (hlo : lo ≤ n) (hhi : n < hi) (x : Bytes) :
    let d := getDataLocked s i n
    0 ≤ d.1 → Serving S ino hi (d.2.1.setBlk d.1.toNat x) d.2.2 lo := by
  intro d hpos
  obtain ⟨hapart, -, hret⟩ := (h.owned.apart h.wf).getData n
  obtain ⟨hdata, hne⟩ := hret hpos
  have hd := h.getData hlo hhi
  have hdbm := hd.wf.dbm_le_data.trans hdata
  exact ⟨hd.wf, hd.deny, hd.owned.setBlk hd.wf x (Or.inr hdbm) hne,
    hd.room.setBlk hd.wf x hdbm (hne ino _ (Or.inr ⟨rfl, rfl⟩)), hd.indir⟩

end Serving

section ServedLoops

variable {S : Contents} {s : Store} {i : Inode} {ino offset count : ℕ}

def ServingAt (S : Contents) (ino offset count : ℕ) (c : Cursor) : Prop :=
  Serving S ino (endBlk offset count) c.store c.inode (c.offset / 4096) ∧
    c.offset = offset + c.done ∧ c.done ≤ count

theorem ServingAt.lt {c : Cursor} (h : ServingAt S ino offset count c) (hlt : c.done < count) :
    c.offset / 4096 < endBlk offset count := by
  obtain ⟨-, hoff, -⟩ := h
  simp only [endBlk, fsBlkSize]
  omega

theorem ServingAt.next {c : Cursor} (h : ServingAt S ino offset count c) (hlt : c.done < count)
    (hmax : offset + count < 2 ^ 32) {s' : Store} {i' : Inode}
    (hs : Serving S ino (endBlk offset count) s' i' (c.offset / 4096)) :
    ServingAt S ino offset count ⟨s', i', (c.offset + turnSize count c.offset c.done) % 2 ^ 32,
      c.done + turnSize count c.offset c.done⟩ := by
  obtain ⟨-, hoff, -⟩ := h
  obtain ⟨hm, -⟩ := turnSize_le count c.offset c.done
  have hwrap : (c.offset + turnSize count c.offset c.done) % 2 ^ 32 =
      c.offset + turnSize count c.offset c.done := by omega
  refine ⟨{ hs with room := ?_ }, ?_, ?_⟩
  · exact hs.room.mono (by dsimp only; omega)
  · dsimp only
    omega
  · dsimp only
    omega

section Served

variable (h : Owned s (S.add ino i.content)) (wf : s.sb.WellFormed) (hdeny : s.deny = [])
  (hserved : Served s i.content offset count)
include h wf hdeny hserved

theorem ServingAt.start (hpos : 0 < count) :
    ServingAt S ino offset count ⟨s, i, offset, 0⟩ := by
  obtain ⟨hindir, hroom⟩ := hserved hpos
  exact ⟨⟨wf, hdeny, h, hroom, hindir⟩, rfl, Nat.zero_le _⟩

theorem Owned.writeLoop (hmax : offset + count < 2 ^ 32) (copyin : Copyin) :
    let w := (writeLoop copyin count ⟨s, i, offset, 0⟩).2
    Owned w.store (S.add ino w.inode.content) ∧ w.store.deny = [] := by
  rcases Nat.eq_zero_or_pos count with rfl | hpos
  · rw [Fs.writeLoop, dif_neg (lt_irrefl 0)]
    exact ⟨h, hdeny⟩
  refine writeLoop_rule (P := ServingAt S ino offset count)
    (Q := fun _ c => Owned c.store (S.add ino c.inode.content) ∧ c.store.deny = [])
    ?_ ?_ ?_ ?_ ⟨s, i, offset, 0⟩ (ServingAt.start h wf hdeny hserved hpos)
  · intro c hc hlt d _
    have hd := hc.1.getData le_rfl (hc.lt hlt)
    exact ⟨hd.owned, hd.deny⟩
  · intro c e hc hlt _ d _
    have hd := hc.1.getData le_rfl (hc.lt hlt)
    exact ⟨hd.owned, hd.deny⟩
  · intro c buf hc hlt _ d hret
    exact hc.next hlt hmax (hc.1.write le_rfl (hc.lt hlt) _ hret)
  · exact fun c hc _ => ⟨hc.1.owned, hc.1.deny⟩

theorem Owned.readLoop {σ : Type} (hmax : offset + count < 2 ^ 32) (copyout : Copyout σ) (dst : σ) :
    let r := (readLoop copyout count ⟨s, i, offset, 0⟩ dst).2.1
    Owned r.store (S.add ino r.inode.content) ∧ r.store.deny = [] := by
  rcases Nat.eq_zero_or_pos count with rfl | hpos
  · rw [Fs.readLoop, dif_neg (lt_irrefl 0)]
    exact ⟨h, hdeny⟩
  refine readLoop_rule (P := fun c _ => ServingAt S ino offset count c)
    (Q := fun _ c _ => Owned c.store (S.add ino c.inode.content) ∧ c.store.deny = [])
    ?_ ?_ ?_ ⟨s, i, offset, 0⟩ dst (ServingAt.start h wf hdeny hserved hpos)
  · intro c _ hc hlt d _
    have hd := hc.1.getData le_rfl (hc.lt hlt)
    exact ⟨hd.owned, hd.deny⟩
  · intro c _ hc hlt d o _
    have hd := hc.1.getData le_rfl (hc.lt hlt)
    exact ⟨fun _ => ⟨hd.owned, hd.deny⟩, fun _ => hc.next hlt hmax hd⟩
  · exact fun c _ hc _ => ⟨hc.1.owned, hc.1.deny⟩

end Served

end ServedLoops

end RvMiniOs.Fs
