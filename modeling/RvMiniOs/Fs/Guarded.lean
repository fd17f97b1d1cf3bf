import RvMiniOs.Fs.Operations

/-!
# Direct blocks have one owner

Inodes without a table share block 0 as one, so the blocks behind it may have
several owners. The blocks that inodes refer to directly do not: `balloc` hands
out free blocks only, and an error code it leaves behind is no block. `Guarded`
holds in every run, whatever `balloc` answers, and an access to one inode leaves
the direct blocks of the others alone.
-/

namespace RvMiniOs.Fs

open Lib

/-- A number that stands for a block, neither 0 nor an error code. -/
def IsBlk (p : ℕ) : Prop := p ≠ 0 ∧ p < 2 ^ 31

structure Guarded (s : Store) (S : Contents) : Prop extends Apart s S where
  taken : ∀ ino d n, S ino d → n < 1036 → IsBlk (ptr s d n) → Taken s (ptr s d n)
  sole : ∀ ino d n ino' d' m, S ino d → n < 12 → IsBlk (ptr s d n) → S ino' d' → m < 1036 →
    ptr s d' m = ptr s d n → ino' = ino ∧ m = n

theorem ptr_direct (s s' : Store) (d : Dinode) {n : ℕ} (hn : n < 12) : ptr s' d n = ptr s d n := by
  simp [ptr, hn]

theorem Owned.guarded {s : Store} {S : Contents} (h : Owned s S) (wf : s.sb.WellFormed) : Guarded s S where
  toApart := h.apart wf
  taken := fun ino d n hd hn hp => h.taken ino d (.data n) _ hd ⟨hn, rfl, hp.1⟩
  sole := fun ino d n ino' d' m hd hn hp hd' hm heq => by
    have href : RefersAt s d (.data n) (ptr s d n) := ⟨by omega, rfl, hp.1⟩
    have href' : RefersAt s d' (.data m) (ptr s d n) := ⟨hm, heq, hp.1⟩
    obtain ⟨hino, href⟩ := h.unique ino' d' _ ino d _ _ hd' href' hd href
    exact ⟨hino, by injection href⟩

namespace Guarded

variable {s s' : Store} {S S' : Contents}

theorem congr (h : Guarded s S) (hcov : S.Covers S') : Guarded s S' where
  toApart := h.toApart.congr hcov
  taken := by
    intro ino d' n hd' hn hp
    obtain ⟨d, hd, hdir, hindir⟩ := hcov ino d' hd'
    rw [ptr_congr hdir hindir rfl] at hp ⊢
    exact h.taken ino d n hd hn hp
  sole := by
    intro ino d' n ino₁ d₁' m hd' hn hp hd₁' hm heq
    obtain ⟨d, hd, hdir, hindir⟩ := hcov ino d' hd'
    obtain ⟨d₁, hd₁, hdir₁, hindir₁⟩ := hcov ino₁ d₁' hd₁'
    rw [ptr_congr hdir hindir rfl] at hp heq
    rw [ptr_congr hdir₁ hindir₁ rfl] at heq
    exact h.sole ino d n ino₁ d₁ m hd hn hp hd₁ hm heq

theorem transport (h : Guarded s S) (ha : Apart s' S) (hptr : ∀ ino d n, S ino d → ptr s' d n = ptr s d n)
    (hbits : ∀ b, Taken s b → Taken s' b) : Guarded s' S where
  toApart := ha
  taken := by
    intro ino d n hd hn hp
    rw [hptr ino d n hd] at hp ⊢
    exact hbits _ (h.taken ino d n hd hn hp)
  sole := by
    intro ino d n ino' d' m hd hn hp hd' hm heq
    rw [hptr ino d n hd] at hp heq
    rw [hptr ino' d' m hd'] at heq
    exact h.sole ino d n ino' d' m hd hn hp hd' hm heq

theorem metaOnly (h : Guarded s S) (hmeta : MetaOnly s s') : Guarded s' S :=
  h.transport (hmeta.apart h.toApart) (fun _ _ _ hd => hmeta.ptr h.toApart hd)
    fun _ hb => hmeta.taken h.wf hb

theorem allocates (h : Guarded s S) {b : ℕ} (ha : Allocates s s' b) : Guarded s' S :=
  h.transport (h.toApart.allocates ha) (fun _ _ _ hd => h.toApart.ptr_allocates ha hd)
    (Keeps.allocates ha).bits

theorem refuse (h : Guarded s S) : Guarded s.refuse S :=
  h.transport ⟨h.wf, h.table, h.data⟩ (fun _ _ _ _ => rfl) fun _ hb => hb

theorem denied (h : Guarded s S) (deny : List Bool) : Guarded { s with deny } S :=
  h.transport ⟨h.wf, h.table, h.data⟩ (fun _ _ _ _ => rfl) fun _ hb => hb

theorem setBlk (h : Guarded s S) {ino n : ℕ} {d : Dinode} (hd : S ino d) (hn : n < 1036)
    (hp : IsBlk (ptr s d n)) (x : Bytes) : Guarded (s.setBlk (ptr s d n) x) S := by
  have hne := (h.data ino d n hd hn hp.1).2
  have hlo := h.data_lo hd hn hp.1
  have hdbm := h.wf.dbm_le_data.trans hlo
  refine h.transport (h.toApart.setBlk x (.inr hdbm) hne)
    (fun _ _ _ hd' => ptr_congr rfl rfl (Store.setBlk_blk_ne x (hne _ _ hd'))) ?_
  exact (Keeps.setBlk h.wf x (.inr hlo)).bits

variable {i : Inode} {ino n : ℕ}

theorem setPtr (h : Guarded s (S.add ino i.content)) {v : UInt32}
    (ha : Apart (setPtr s i n v).1 (S.add ino (setPtr s i n v).2.content))
    (hv : 2 ^ 31 ≤ v.toNat ∨ Taken s v.toNat ∧ ∀ ino' d' m, S.add ino i.content ino' d' →
      m < 1036 → ptr s d' m ≠ v.toNat) :
    Guarded (setPtr s i n v).1 (S.add ino (setPtr s i n v).2.content) := by
  have hi : S.add ino i.content ino i.content := .inr ⟨rfl, rfl⟩
  have hkeep : Keeps s (Fs.setPtr s i n v).1 := Keeps.setPtr h.wf (h.table_outside hi)
  -- every number is the new one or an old one
  have hnum : ∀ ino' d' m, S.add ino (Fs.setPtr s i n v).2.content ino' d' →
      (ptr (Fs.setPtr s i n v).1 d' m = v.toNat ∧ m = n ∧ (n < 12 → ino' = ino)) ∨
        ∃ d, S.add ino i.content ino' d ∧ ptr (Fs.setPtr s i n v).1 d' m = ptr s d m := by
    rintro ino' d' m (hd | ⟨rfl, rfl⟩)
    · rcases ptr_setPtr_other s i n v d' m with hsame | ⟨hnew, hmn, h12, -⟩
      · exact .inr ⟨d', .inl hd, hsame⟩
      · exact .inl ⟨hnew, hmn, fun h12' => absurd h12 (by omega)⟩
    · by_cases hm : m = n
      · exact .inl ⟨by rw [hm, ptr_setPtr_self], hm, fun _ => rfl⟩
      · exact .inr ⟨i.content, hi, ptr_setPtr_ne s i n v hm⟩
  refine ⟨ha, ?_, ?_⟩
  · intro ino' d' m hd' hm hp
    rcases hnum ino' d' m hd' with ⟨hnew, -, -⟩ | ⟨d, hd, hold⟩
    · rw [hnew] at hp ⊢
      rcases hv with hbig | ⟨htaken, -⟩
      · exact absurd hp.2 (by omega)
      · exact hkeep.bits _ htaken
    · rw [hold] at hp ⊢
      exact hkeep.bits _ (h.taken ino' d m hd hm hp)
  · intro ino₁ d₁' n₁ ino₂ d₂' m₂ hd₁' hn₁ hp hd₂' hm₂ heq
    rcases hnum ino₁ d₁' n₁ hd₁' with ⟨hnew, hn, hown⟩ | ⟨d₁, hd₁, hold⟩
    · rw [hnew] at hp heq
      have hfresh := (hv.resolve_left fun hbig => absurd hp.2 (by omega)).2
      rcases hnum ino₂ d₂' m₂ hd₂' with ⟨-, hm, hown₂⟩ | ⟨d₂, hd₂, hold₂⟩
      · have h12 : n < 12 := hn ▸ hn₁
        exact ⟨(hown₂ h12).trans (hown h12).symm, hm.trans hn.symm⟩
      · exact absurd (hold₂.symm.trans heq) (hfresh ino₂ d₂ m₂ hd₂ hm₂)
    · rw [hold] at hp heq
      rcases hnum ino₂ d₂' m₂ hd₂' with ⟨hnew₂, -, -⟩ | ⟨d₂, hd₂, hold₂⟩
      · rw [hnew₂] at heq
        rcases hv with hbig | ⟨-, hfresh⟩
        · exact absurd hp.2 (by omega)
        · exact absurd heq.symm (hfresh ino₁ d₁ n₁ hd₁ (by omega))
      · rw [hold₂] at heq
        exact h.sole ino₁ d₁ n₁ ino₂ d₂ m₂ hd₁ hn₁ hp hd₂ hm₂ heq

end Guarded

/-- What `_get_data_locked`, and reading, does for inode `ino`: numbers that were
stored stay, and so do the taken blocks that are no tables. -/
structure Fetches (S : Contents) (ino : ℕ) (s : Store) (i : Inode) (s' : Store) (i' : Inode) :
    Prop where
  guarded : Guarded s' (S.add ino i'.content)
  keeps : Keeps s s'
  inode : ∃ p, i' = { i with content := { i.content with dirblkno := p } }
  blk : ∀ b, Taken s b → (∀ ino' d', S.add ino i.content ino' d' → d'.indir.toNat ≠ b) →
    s'.blk b = s.blk b
  mapped : ∀ m, ptr s i.content m ≠ 0 → ptr s' i'.content m = ptr s i.content m

section Access

variable {S : Contents} {ino : ℕ} {s s' s'' : Store} {i i' i'' : Inode}

theorem Fetches.refl (h : Guarded s (S.add ino i.content)) : Fetches S ino s i s i :=
  ⟨h, Keeps.refl s, ⟨i.content.dirblkno, rfl⟩, fun _ _ _ => rfl, fun _ _ => rfl⟩

theorem Fetches.of_setPtr (h : Guarded s (S.add ino i.content)) {n : ℕ} {v : UInt32}
    (hg : Guarded (setPtr s' i n v).1 (S.add ino (setPtr s' i n v).2.content)) (hkeep : Keeps s s')
    (h0 : ptr s i.content n = 0) (htab : s'.blk i.content.indir.toNat = s.blk i.content.indir.toNat)
    (hblk : ∀ b, Taken s b → s'.blk b = s.blk b) :
    Fetches S ino s i (setPtr s' i n v).1 (setPtr s' i n v).2 := by
  have hi : S.add ino i.content ino i.content := .inr ⟨rfl, rfl⟩
  have hout : i.content.indir.toNat = 0 ∨ s'.sb.dataStart ≤ i.content.indir.toNat := by
    rw [hkeep.sb]
    exact h.table_outside hi
  refine ⟨hg, hkeep.trans (Keeps.setPtr (hkeep.sb ▸ h.wf) hout), setPtr_inode .., fun b hb hne => ?_,
    fun m hm => ?_⟩
  · rw [setPtr_blk s' i n v (hne _ _ hi).symm]
    exact hblk b hb
  · have hmn : m ≠ n := fun heq => hm (heq ▸ h0)
    rw [ptr_setPtr_ne s' i n v hmn]
    exact ptr_congr rfl rfl htab

theorem Guarded.getData (h : Guarded s (S.add ino i.content)) (n : ℕ) :
    let d := getDataLocked s i n
    Fetches S ino s i d.2.1 d.2.2 ∧ (0 ≤ d.1 → n < 1036 ∧ IsBlk d.1.toNat ∧
      ptr d.2.1 d.2.2.content n = d.1.toNat) := by
  have hi : S.add ino i.content ino i.content := .inr ⟨rfl, rfl⟩
  have hapart := (h.toApart.getData n).1
  by_cases hn : n < 1036
  · rcases getDataLocked_cases (i := i) h.wf hn with
      ⟨hp, hget⟩ | ⟨hp, b, s', v, ha, -, hv, hget⟩ | ⟨hp, -, v, hv, hget⟩
    · rw [hget]
      refine ⟨.refl h, fun hpos => ?_⟩
      have hsmall := (asInt32_nonneg_iff (ptr_lt s n i.content)).mp hpos
      dsimp only
      rw [asInt32_of_lt hsmall, Int.toNat_natCast]
      exact ⟨hn, ⟨hp, hsmall⟩, rfl⟩
    · rw [hget] at hapart ⊢
      have hlo := ha.lo
      have hhi := ha.hi
      have hpos := dataStart_pos h.wf
      have hint := h.wf.blkno
      have htaken : Taken s' v.toNat := by
        refine ⟨ha.sb ▸ hv ▸ hlo, ha.sb ▸ hv ▸ hhi, ?_⟩
        rw [hv, ha.bits b hlo hhi]
        simp
      have hblk : IsBlk v.toNat := ⟨by omega, by omega⟩
      have hfresh : ∀ ino' d' m, S.add ino i.content ino' d' → m < 1036 →
          ptr s' d' m ≠ v.toNat := by
        intro ino' d' m hd' hm heq
        rw [h.toApart.ptr_allocates ha hd'] at heq
        have hbit := (h.taken ino' d' m hd' hm (heq ▸ hblk)).2.2
        rw [heq, hv, ha.clear] at hbit
        cases hbit
      refine ⟨.of_setPtr h ((h.allocates ha).setPtr hapart (.inr ⟨htaken, hfresh⟩))
        (Keeps.allocates ha) hp ?_ ?_, fun _ => ?_⟩
      · exact ha.frame _ (h.table_ne_fresh ha hi) (h.table_not_dbm hi)
      · rintro c ⟨hclo, hchi, hbit⟩
        refine ha.frame c ?_ (.inr (h.wf.dbm_le_data.trans hclo))
        rintro rfl
        rw [ha.clear] at hbit
        cases hbit
      · dsimp only
        rw [Int.toNat_natCast, ptr_setPtr_self, hv]
        exact ⟨hn, hv ▸ hblk, rfl⟩
    · rw [hget] at hapart ⊢
      refine ⟨.of_setPtr h (h.refuse.setPtr hapart (.inl (by omega))) (Keeps.refuse s) hp rfl
        fun _ _ => rfl, fun hpos => ?_⟩
      simp only [enospc] at hpos
      omega
  · rw [getDataLocked_of_ge hn]
    refine ⟨.refl h, fun hpos => ?_⟩
    simp only [efbig] at hpos
    omega

/-- What writing does for inode `ino`: the direct blocks of other inodes stay. -/
structure Fills (S : Contents) (ino : ℕ) (s : Store) (i : Inode) (s' : Store) (i' : Inode) :
    Prop where
  guarded : Guarded s' (S.add ino i'.content)
  keeps : Keeps s s'
  inode : ∃ p, i' = { i with content := { i.content with dirblkno := p } }
  spares : ∀ ino' d n, S ino' d → ino' ≠ ino → n < 12 → IsBlk (ptr s d n) →
    s'.blk (ptr s d n) = s.blk (ptr s d n)

theorem Fetches.fills (hf : Fetches S ino s i s' i') (h : Guarded s (S.add ino i.content)) :
    Fills S ino s i s' i' := by
  refine ⟨hf.guarded, hf.keeps, hf.inode, fun ino' d n hd _ hn hp => ?_⟩
  exact hf.blk _ (h.taken ino' d n (.inl hd) (by omega) hp)
    (h.data ino' d n (.inl hd) (by omega) hp.1).2

theorem Fills.trans (h : Fills S ino s i s' i') (h' : Fills S ino s' i' s'' i'') :
    Fills S ino s i s'' i'' := by
  obtain ⟨p, hp⟩ := h.inode
  obtain ⟨q, hq⟩ := h'.inode
  refine ⟨h'.guarded, h.keeps.trans h'.keeps, ⟨q, by rw [hq, hp]⟩, fun ino' d n hd hne hn hblk => ?_⟩
  have hsame := ptr_direct s s' d hn
  rw [← h.spares ino' d n hd hne hn hblk, ← hsame]
  exact h'.spares ino' d n hd hne hn (hsame ▸ hblk)

theorem Fills.setBlk (h : Guarded s (S.add ino i.content)) {n : ℕ} (hn : n < 1036)
    (hp : IsBlk (ptr s i.content n)) (x : Bytes) : Fills S ino s i (s.setBlk (ptr s i.content n) x) i := by
  have hi : S.add ino i.content ino i.content := .inr ⟨rfl, rfl⟩
  have hlo := h.data_lo hi hn hp.1
  refine ⟨h.setBlk hi hn hp x, Keeps.setBlk h.wf x (.inr hlo), ⟨i.content.dirblkno, rfl⟩,
    fun ino' d m hd hne hm hblk => ?_⟩
  refine Store.setBlk_blk_ne x fun heq => hne ?_
  exact (h.sole ino' d m ino i.content n (.inl hd) hm hblk hi hn heq.symm).1.symm

theorem Guarded.fill (h : Guarded s (S.add ino i.content)) (n : ℕ) (x : Bytes) :
    let d := getDataLocked s i n
    0 ≤ d.1 → Fills S ino s i (d.2.1.setBlk d.1.toNat x) d.2.2 := by
  intro d hpos
  obtain ⟨hfetch, hfound⟩ := h.getData n
  obtain ⟨hn, hblk, hptr⟩ := hfound hpos
  have hset := Fills.setBlk hfetch.guarded hn (hptr ▸ hblk) x
  rw [hptr] at hset
  exact (hfetch.fills h).trans hset

theorem Fills.passed (hf : Fills S i.ino s i s' i') (offset done : ℕ) :
    Passed S s i ⟨s', i', offset, done⟩ :=
  ⟨hf.guarded.toApart, hf.keeps, hf.inode⟩

end Access

end RvMiniOs.Fs
