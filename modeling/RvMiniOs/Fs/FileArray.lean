import RvMiniOs.Fs.BlockMap
import RvMiniOs.Lib.Runs

/-!
# A file is a byte array

One inode is written and read through kernel buffers while `balloc` may fail at
any call. `FileInv` relates the store to the array of bytes the file stands for:
distinct taken blocks under every byte of the array, and below the size no
trace of a failed allocation. Each turn of the write loop keeps it for the part
of the array written so far.
-/

namespace RvMiniOs.Fs

open Lib List

def Taken (s : Store) (b : ℕ) : Prop :=
  s.sb.dataStart ≤ b ∧ b < s.sb.nbBlk ∧ dataBit s b = true

section Frame

variable {s s' : Store} {d d' : Dinode}

theorem ptr_congr {n : ℕ} (hdir : d'.dirblkno = d.dirblkno) (hindir : d'.indir = d.indir)
    (hblk : s'.blk d.indir.toNat = s.blk d.indir.toNat) : ptr s' d' n = ptr s d n := by
  rw [ptr, ptr, hdir, hindir, hblk]

theorem dataBit_congr (wf : s.sb.WellFormed) (hsb : s'.sb = s.sb)
    (hblk : ∀ b, s.sb.dbmStart ≤ b → b < s.sb.dbmStart + s.sb.nbDbm → s'.blk b = s.blk b)
    {c : ℕ} (hlo : s.sb.dataStart ≤ c) (hc : c < s.sb.nbBlk) : dataBit s' c = dataBit s c := by
  have hbits := wf.bits
  simp only [fsBmBitsPerBlk] at hbits
  rw [dataBit, dataBit, hsb]
  apply regionBit_congr
  have hdiv : (c - s.sb.dataStart) / 32768 < s.sb.nbDbm := Nat.div_lt_of_lt_mul (by omega)
  simp only [dataRegion, fsBmBitsPerBlk]
  exact hblk _ (by omega) (by omega)

theorem dataBit_setBlk (wf : s.sb.WellFormed) {b c : ℕ} (x : Bytes)
    (hb : b < s.sb.dbmStart ∨ s.sb.dbmStart + s.sb.nbDbm ≤ b) (hlo : s.sb.dataStart ≤ c)
    (hc : c < s.sb.nbBlk) : dataBit (s.setBlk b x) c = dataBit s c := by
  apply dataBit_congr wf (Store.setBlk_sb s b x) _ hlo hc
  intro b' hlo' hhi'
  exact Store.setBlk_blk_ne x (by omega)

theorem dataBit_setPtr (wf : s.sb.WellFormed) {i : Inode} {n c : ℕ} (v : UInt32)
    (hb : i.content.indir.toNat < s.sb.dbmStart ∨ s.sb.dbmStart + s.sb.nbDbm ≤ i.content.indir.toNat)
    (hlo : s.sb.dataStart ≤ c) (hc : c < s.sb.nbBlk) : dataBit (setPtr s i n v).1 c = dataBit s c := by
  apply dataBit_congr wf (setPtr_sb s i n v) _ hlo hc
  intro b' hlo' hhi'
  exact setPtr_blk s i n v (by omega)

end Frame

structure FileMap (s : Store) (i : Inode) (len : ℕ) (f : Bytes) : Prop where
  wf : s.sb.WellFormed
  table : i.content.indir.toNat = 0 ∨ Taken s i.content.indir.toNat
  apart : ∀ n < 1036, ptr s i.content n ≠ 0 → ptr s i.content n ≠ i.content.indir.toNat
  kinds : ∀ n < 1036, ptr s i.content n = 0 ∨ 2 ^ 31 ≤ ptr s i.content n ∨
    Taken s (ptr s i.content n)
  inj : ∀ m < 1036, ∀ n < 1036, ptr s i.content m = ptr s i.content n →
    Taken s (ptr s i.content m) → m = n
  holds : Holds s i.content len f
  len_le : len ≤ 1036 * 4096
  sound : s.refused = 0 → ∀ n < 1036, ptr s i.content n < 2 ^ 31

namespace FileMap

variable {s : Store} {i : Inode} {len : ℕ} {f : Bytes}

theorem table_outside (h : FileMap s i len f) :
    i.content.indir.toNat < s.sb.dbmStart ∨ s.sb.dbmStart + s.sb.nbDbm ≤ i.content.indir.toNat := by
  obtain ⟨hpos, hibm, hdbm, hitab, -, -, -, -⟩ := h.wf
  rcases h.table with h0 | ht
  · omega
  · have := ht.1
    omega

theorem table_ne (h : FileMap s i len f) {b : ℕ} (h0 : b ≠ 0) (hdata : b < s.sb.dataStart) :
    i.content.indir.toNat ≠ b := by
  rcases h.table with hz | ht
  · omega
  · have := ht.1
    omega

theorem taken (h : FileMap s i len f) {k : ℕ} (hk : k < len) : Taken s (ptr s i.content (k / 4096)) := by
  have hlen := h.len_le
  obtain ⟨hpos, hhi, -⟩ := h.holds k hk
  rcases h.kinds (k / 4096) (by omega) with h0 | hbad | htaken
  · omega
  · omega
  · exact htaken

theorem congr_data (h : FileMap s i len f) {g : Bytes} (hg : ∀ k < len, g k = f k) : FileMap s i len g := by
  refine { h with holds := ?_ }
  intro k hk
  rw [hg k hk]
  exact h.holds k hk

theorem congr_inode (h : FileMap s i len f) {i' : Inode} (hdir : i'.content.dirblkno = i.content.dirblkno)
    (hindir : i'.content.indir = i.content.indir) : FileMap s i' len f := by
  have hptr : ∀ n, ptr s i'.content n = ptr s i.content n :=
    fun n => ptr_congr hdir hindir rfl
  refine ⟨h.wf, hindir ▸ h.table, ?_, ?_, ?_, ?_, h.len_le, ?_⟩
  · simpa only [hptr, hindir] using h.apart
  · simpa only [hptr] using h.kinds
  · simpa only [hptr] using h.inj
  · simpa only [Holds, hptr] using h.holds
  · simpa only [hptr] using h.sound

theorem setBlk (h : FileMap s i len f) {b len' : ℕ} {x g : Bytes} (htab : b ≠ i.content.indir.toNat)
    (hdbm : b < s.sb.dbmStart ∨ s.sb.dbmStart + s.sb.nbDbm ≤ b) (hlen : len' ≤ 1036 * 4096)
    (hholds : Holds (s.setBlk b x) i.content len' g) : FileMap (s.setBlk b x) i len' g := by
  have hptr : ∀ n, ptr (s.setBlk b x) i.content n = ptr s i.content n :=
    fun n => ptr_congr rfl rfl (Store.setBlk_blk_ne x htab.symm)
  have htaken : ∀ c, Taken (s.setBlk b x) c ↔ Taken s c := by
    intro c
    refine and_congr_right fun hlo => and_congr_right fun hc => ?_
    rw [dataBit_setBlk h.wf x hdbm hlo hc]
  refine ⟨h.wf, h.table.imp_right (htaken _).mpr, ?_, ?_, ?_, hholds, hlen, ?_⟩
  · simpa only [hptr] using h.apart
  · simpa only [hptr, htaken] using h.kinds
  · simpa only [hptr, htaken] using h.inj
  · intro hr n hn
    rw [hptr]
    exact h.sound hr n hn

theorem setBlk_meta (h : FileMap s i len f) {b : ℕ} (x : Bytes) (h0 : b ≠ 0)
    (hdbm : b < s.sb.dbmStart ∨ s.sb.dbmStart + s.sb.nbDbm ≤ b) (hdata : b < s.sb.dataStart) :
    FileMap (s.setBlk b x) i len f := by
  have htab := h.table_ne h0 hdata
  refine h.setBlk htab.symm hdbm h.len_le fun k hk => ?_
  have hlo := (h.taken hk).1
  rw [ptr_congr rfl rfl (Store.setBlk_blk_ne x htab), Store.setBlk_blk_ne x (by omega)]
  exact h.holds k hk

theorem allocated (h : FileMap s i len f) {s' : Store} {b n : ℕ} {v : UInt32}
    (h0 : ptr s i.content n = 0) (ha : Allocates s s' b) (hv : v.toNat = b) :
    FileMap (setPtr s' i n v).1 (setPtr s' i n v).2 len f ∧ Taken (setPtr s' i n v).1 b := by
  obtain ⟨hpos, hibm, hdbm, hitab, hdata, hbits, -, hint⟩ := h.wf
  have hwf' : s'.sb.WellFormed := ha.sb ▸ h.wf
  have hlo := ha.lo
  have hhi := ha.hi
  have hnot : ∀ c, Taken s c → c ≠ b := by
    rintro c ⟨-, -, hset⟩ rfl
    rw [ha.clear] at hset
    cases hset
  have hne : i.content.indir.toNat ≠ b := by
    rcases h.table with hz | ht
    · omega
    · exact hnot _ ht
  have htab : s'.blk i.content.indir.toNat = s.blk i.content.indir.toNat :=
    ha.frame _ hne h.table_outside
  have hptr : ∀ m, ptr (setPtr s' i n v).1 (setPtr s' i n v).2.content m =
      if m = n then b else ptr s i.content m := by
    intro m
    split_ifs with hm
    · rw [hm, ptr_setPtr_self, hv]
    · rw [ptr_setPtr_ne s' i n v hm]
      exact ptr_congr rfl rfl htab
  have hbit : ∀ c, s.sb.dataStart ≤ c → c < s.sb.nbBlk →
      dataBit (setPtr s' i n v).1 c = (dataBit s c || decide (c = b)) := by
    intro c hc hc'
    rw [dataBit_setPtr hwf' v (by rw [ha.sb]; exact h.table_outside) (ha.sb ▸ hc) (ha.sb ▸ hc'),
      ha.bits c hc hc']
  have hsb : (setPtr s' i n v).1.sb = s.sb := (setPtr_sb ..).trans ha.sb
  have hkeep : ∀ c, Taken s c → Taken (setPtr s' i n v).1 c := by
    rintro c ⟨hc, hc', hset⟩
    exact ⟨hsb ▸ hc, hsb ▸ hc', by rw [hbit c hc hc', hset]; rfl⟩
  have hnew : Taken (setPtr s' i n v).1 b :=
    ⟨hsb ▸ hlo, hsb ▸ hhi, by rw [hbit b hlo hhi]; simp⟩
  -- a block that was free is under no other number of the map
  have hfresh : ∀ m < 1036, ptr s i.content m ≠ b := by
    intro m hm hmb
    rcases h.kinds m hm with hz | hbad | ht
    · omega
    · omega
    · exact hnot _ ht hmb
  have hindir : (setPtr s' i n v).2.content.indir = i.content.indir := setPtr_indir ..
  refine ⟨⟨hsb ▸ h.wf, ?_, ?_, ?_, ?_, ?_, h.len_le, ?_⟩, hnew⟩
  · rw [hindir]
    exact h.table.imp_right (hkeep _)
  · intro m hm
    rw [hptr, hindir]
    split_ifs with hmn
    · exact fun _ => hne.symm
    · exact h.apart m hm
  · intro m hm
    rw [hptr]
    split_ifs with hmn
    · exact Or.inr (Or.inr hnew)
    · exact (h.kinds m hm).imp_right (Or.imp_right (hkeep _))
  · intro m hm m' hm' heq htaken
    rw [hptr, hptr] at heq
    rw [hptr] at htaken
    split_ifs at heq htaken with hmn hmn' hmn'
    · rw [hmn, hmn']
    · exact absurd heq.symm (hfresh m' hm')
    · exact absurd heq (hfresh m hm)
    · refine h.inj m hm m' hm' heq ?_
      rcases h.kinds m hm with hz | hbad | ht
      · have hmlo := htaken.1
        rw [hsb, hz] at hmlo
        omega
      · have hmhi := htaken.2.1
        rw [hsb] at hmhi
        omega
      · exact ht
  · intro k hk
    obtain ⟨hklo, hkhi, -⟩ := h.taken hk
    have hlen := h.len_le
    obtain ⟨hp, hp', hbyte⟩ := h.holds k hk
    have hkn : k / 4096 ≠ n := fun hkn => by rw [hkn] at hp; omega
    rw [hptr, if_neg hkn, setPtr_blk s' i n v (h.apart _ (by omega) hp.ne'),
      ha.frame _ (hfresh _ (by omega)) (by omega)]
    exact ⟨hp, hp', hbyte⟩
  · intro hr m hm
    rw [setPtr_refused, ha.refused] at hr
    rw [hptr]
    split_ifs
    · omega
    · exact h.sound hr m hm

theorem refused (h : FileMap s i len f) {n : ℕ} {v : UInt32} (h0 : ptr s i.content n = 0)
    (hv : 2 ^ 31 ≤ v.toNat) : FileMap (setPtr s.refuse i n v).1 (setPtr s.refuse i n v).2 len f := by
  obtain ⟨hpos, hibm, hdbm, hitab, hdata, hbits, -, hint⟩ := h.wf
  have hptr : ∀ m, ptr (setPtr s.refuse i n v).1 (setPtr s.refuse i n v).2.content m =
      if m = n then v.toNat else ptr s i.content m := by
    intro m
    split_ifs with hm
    · rw [hm, ptr_setPtr_self]
    · exact ptr_setPtr_ne s.refuse i n v hm
  have htaken : ∀ c, Taken (setPtr s.refuse i n v).1 c ↔ Taken s c := by
    intro c
    rw [Taken, setPtr_sb]
    refine and_congr_right fun hlo => and_congr_right fun hc => ?_
    have hbit := dataBit_setPtr (s := s.refuse) h.wf v (n := n) h.table_outside hlo hc
    rw [hbit]
    rfl
  have hindir : (setPtr s.refuse i n v).2.content.indir = i.content.indir := setPtr_indir ..
  refine ⟨(setPtr_sb s.refuse i n v).symm ▸ h.wf, ?_, ?_, ?_, ?_, ?_, h.len_le, ?_⟩
  · rw [hindir]
    exact h.table.imp_right (htaken _).mpr
  · intro m hm
    rw [hptr, hindir]
    split_ifs
    · intro _
      rcases h.table with hz | ht
      · omega
      · have := ht.2.1
        omega
    · exact h.apart m hm
  · intro m hm
    rw [hptr, htaken]
    split_ifs
    · exact Or.inr (Or.inl hv)
    · exact h.kinds m hm
  · intro m hm m' hm' heq ht
    rw [hptr, hptr] at heq
    rw [hptr, htaken] at ht
    have hhi := ht.2.1
    split_ifs at heq hhi ht with hmn hmn' hmn'
    · omega
    · omega
    · omega
    · exact h.inj m hm m' hm' heq ht
  · intro k hk
    have hlen := h.len_le
    obtain ⟨hp, hp', hbyte⟩ := h.holds k hk
    have hne : k / 4096 ≠ n := fun hkn => by rw [hkn] at hp; omega
    rw [hptr, if_neg hne, setPtr_blk s.refuse i n v (h.apart _ (by omega) hp.ne')]
    exact ⟨hp, hp', hbyte⟩
  · intro hr
    rw [setPtr_refused] at hr
    exact absurd hr (Nat.succ_ne_zero _)

theorem getData (h : FileMap s i len f) {n : ℕ} (hn : n < 1036) :
    let d := getDataLocked s i n
    FileMap d.2.1 d.2.2 len f ∧ d.2.2.content.size = i.content.size ∧
      (0 ≤ d.1 → d.1 = ptr d.2.1 d.2.2.content n ∧ Taken d.2.1 (ptr d.2.1 d.2.2.content n)) ∧
      (d.1 < 0 → d.2.1.refused ≠ 0) := by
  rcases getDataLocked_cases (i := i) h.wf hn with
    ⟨hp, hget⟩ | ⟨hp, b, s', v, ha, -, hv, hget⟩ | ⟨hp, -, v, hv, hget⟩
  · rw [hget]
    have hlt := ptr_lt s n i.content
    refine ⟨h, rfl, ?_, ?_⟩
    · intro hpos
      have hsmall := (asInt32_nonneg_iff hlt).mp hpos
      refine ⟨asInt32_of_lt hsmall, ?_⟩
      rcases h.kinds n hn with hz | hbad | ht
      · exact absurd hz hp
      · omega
      · exact ht
    · intro hneg hr
      have hsmall := h.sound hr n hn
      have hpos := (asInt32_nonneg_iff hlt).mpr hsmall
      exact absurd hneg (not_lt.mpr hpos)
  · rw [hget]
    obtain ⟨hinv, htaken⟩ := h.allocated hp ha hv
    have hptr := ptr_setPtr_self s' i n v
    refine ⟨hinv, setPtr_size .., ?_, ?_⟩
    · intro _
      dsimp only
      rw [hptr, hv]
      exact ⟨rfl, htaken⟩
    · intro hneg
      simp only at hneg
      omega
  · rw [hget]
    refine ⟨h.refused hp (by omega), setPtr_size .., ?_, ?_⟩
    · intro hpos
      simp only [enospc] at hpos
      omega
    · intro _
      dsimp only
      rw [setPtr_refused]
      exact Nat.succ_ne_zero _

theorem write (h : FileMap s i len f) {n off m : ℕ} (buf : Bytes) (hn : n < 1036)
    (ht : Taken s (ptr s i.content n)) (hlo : off / 4096 = n) (hhi : off % 4096 + m ≤ 4096)
    (hoff : off ≤ len) :
    FileMap (s.setBlk (ptr s i.content n) (splice (s.blk (ptr s i.content n)) (off % 4096) m buf)) i
      (max len (off + m)) (splice f off m buf) := by
  obtain ⟨hpos, hibm, hdbm, hitab, hdata, hbits, -, hint⟩ := h.wf
  have hplo := ht.1
  have hphi := ht.2.1
  have hlen := h.len_le
  set p := ptr s i.content n with hp
  set x := splice (s.blk p) (off % 4096) m buf with hx
  have htab : p ≠ i.content.indir.toNat := h.apart n hn (by omega)
  refine h.setBlk htab (by omega) (by omega) fun k hk => ?_
  rw [ptr_congr rfl rfl (Store.setBlk_blk_ne x htab.symm)]
  by_cases hkn : k / 4096 = n
  · -- the block being written: the range is new, the rest was there before
    rw [hkn, ← hp, Store.setBlk_blk_self, hx]
    refine ⟨by omega, by omega, ?_⟩
    by_cases hin : off ≤ k ∧ k < off + m
    · rw [splice_inside (by omega) (by omega), splice_inside hin.1 hin.2]
      congr 1
      omega
    · obtain ⟨-, -, hbyte⟩ := h.holds k (by omega)
      rw [splice_outside (by omega), splice_outside (by omega), ← hbyte, hkn]
  · obtain ⟨hkpos, hklt, hbyte⟩ := h.holds k (by omega)
    have hne : ptr s i.content (k / 4096) ≠ p := fun heq =>
      hkn (h.inj _ (by omega) n hn (heq.trans hp) (heq ▸ ht))
    rw [Store.setBlk_blk_ne x hne, splice_outside (by omega)]
    exact ⟨hkpos, hklt, hbyte⟩

theorem grow (h : FileMap s i len f) (size : UInt32) :
    let i' := { i with content := { i.content with size := size } }
    FileMap (markDirtyLocked s i').2 i' len f ∧ (markDirtyLocked s i').2.refused = s.refused := by
  intro i'
  have hinode : FileMap s i' len f := h.congr_inode rfl rfl
  obtain ⟨hpos, hibm, hdbm, hitab, -, -, -, -⟩ := h.wf
  simp only [fsSuperblk] at hpos
  by_cases hino : i'.ino < nbInodes s.sb
  · have hlt := itabBlk_lt hino
    have hge : s.sb.itabStart ≤ itabBlk s.sb i'.ino := Nat.le_add_right _ _
    rw [markDirtyLocked_of_lt hino]
    exact ⟨hinode.setBlk_meta _ (by omega) (by omega) (by omega), rfl⟩
  · rw [markDirtyLocked_of_ge (not_lt.mp hino)]
    exact ⟨hinode, rfl⟩

end FileMap

structure FileInv (s : Store) (i : Inode) (len : ℕ) (f : Bytes) : Prop where
  wf : s.sb.WellFormed
  indir : i.content.indir = 0
  kinds : ∀ n < 1036, ptr s i.content n = 0 ∨ 2 ^ 31 ≤ ptr s i.content n ∨
    Taken s (ptr s i.content n)
  inj : ∀ m < 1036, ∀ n < 1036, ptr s i.content m = ptr s i.content n →
    Taken s (ptr s i.content m) → m = n
  holds : Holds s i.content len f
  len_le : len ≤ 1036 * 4096
  sound : s.refused = 0 → ∀ n < 1036, ptr s i.content n < 2 ^ 31

section FileInv

variable {s : Store} {i : Inode} {len : ℕ} {f : Bytes}

theorem FileMap.inv (h : FileMap s i len f) (h0 : i.content.indir = 0) : FileInv s i len f :=
  ⟨h.wf, h0, h.kinds, h.inj, h.holds, h.len_le, h.sound⟩

namespace FileInv

theorem indir_toNat (h : FileInv s i len f) : i.content.indir.toNat = 0 := by
  rw [h.indir]
  rfl

theorem map (h : FileInv s i len f) : FileMap s i len f where
  wf := h.wf
  table := .inl h.indir_toNat
  apart := fun n _ h0 => by
    rw [h.indir_toNat]
    exact h0
  kinds := h.kinds
  inj := h.inj
  holds := h.holds
  len_le := h.len_le
  sound := h.sound

theorem table_outside (h : FileInv s i len f) : i.content.indir.toNat < s.sb.dbmStart := by
  have hpos := h.wf.ibm_pos
  have hdbm := h.wf.ibm_dbm
  rw [h.indir_toNat]
  omega

theorem congr_data (h : FileInv s i len f) {g : Bytes} (hg : ∀ k < len, g k = f k) : FileInv s i len g :=
  (h.map.congr_data hg).inv h.indir

theorem getData (h : FileInv s i len f) {n : ℕ} (hn : n < 1036) :
    let d := getDataLocked s i n
    FileInv d.2.1 d.2.2 len f ∧ d.2.2.content.size = i.content.size ∧
      (0 ≤ d.1 → d.1 = ptr d.2.1 d.2.2.content n ∧ Taken d.2.1 (ptr d.2.1 d.2.2.content n)) ∧
      (d.1 < 0 → d.2.1.refused ≠ 0) := by
  obtain ⟨hmap, hrest⟩ := h.map.getData hn
  obtain ⟨p, hp⟩ := getDataLocked_inode s i n
  exact ⟨hmap.inv (by rw [hp]; exact h.indir), hrest⟩

end FileInv

end FileInv

def Copyin.Reads (copyin : Copyin) (src : Bytes) : Prop :=
  ∀ done m, (∀ buf, copyin done m = .ok buf → ∀ k < m, buf k = src (done + k)) ∧
    ∀ e, copyin done m = .error e → e < 0

theorem kernelSrc_reads (src : Bytes) : (kernelSrc src).Reads src := by
  refine fun done m => ⟨fun buf hbuf k _ => ?_, fun e he => ?_⟩
  · cases hbuf
    rfl
  · cases he

section Write

variable {s : Store} {i : Inode} {f src : Bytes} {size offset count : ℕ} {copyin : Copyin}

structure Overwriting (indir : UInt32) (size offset count : ℕ) (f src : Bytes) (c : Cursor) : Prop where
  done_le : c.done ≤ count
  offset_eq : c.offset = offset + c.done
  size_eq : c.inode.content.size.toNat = size
  indir_eq : c.inode.content.indir = indir
  map : FileMap c.store c.inode (max size c.offset) (splice f offset c.done src)

structure Writing (size offset count : ℕ) (f src : Bytes) (c : Cursor) : Prop where
  done_le : c.done ≤ count
  offset_eq : c.offset = offset + c.done
  size_eq : c.inode.content.size.toNat = size
  inv : FileInv c.store c.inode (max size c.offset) (splice f offset c.done src)

theorem Overwriting.turn {indir : UInt32} {c : Cursor} (h : Overwriting indir size offset count f src c)
    (hmax : offset + count ≤ 1036 * 4096) (hlt : c.done < count) {buf : Bytes} :
    let d := getDataLocked c.store c.inode (c.offset / 4096)
    let m := turnSize count c.offset c.done
    0 ≤ d.1 → (∀ k < m, buf k = src (c.done + k)) → Overwriting indir size offset count f src
      { store := d.2.1.setBlk d.1.toNat (splice (d.2.1.blk d.1.toNat) (c.offset % 4096) m buf)
        inode := d.2.2
        offset := (c.offset + m) % 2 ^ 32
        done := c.done + m } := by
  obtain ⟨hdone, hoff, hsize, hindir, hmap⟩ := h
  have hn : c.offset / 4096 < 1036 := by omega
  obtain ⟨hm, hblk⟩ := turnSize_le count c.offset c.done
  obtain ⟨hmap', hsize', hok, -⟩ := hmap.getData hn
  obtain ⟨p, hinode⟩ := getDataLocked_inode c.store c.inode (c.offset / 4096)
  intro d m hpos hbuf
  obtain ⟨hd, ht⟩ := hok hpos
  have hd' : d.1.toNat = ptr d.2.1 d.2.2.content (c.offset / 4096) := by
    rw [hd, Int.toNat_natCast]
  have hwrite := hmap'.write buf hn ht rfl hblk (le_max_right _ _)
  have hwrap : (c.offset + m) % 2 ^ 32 = c.offset + m := by
    omega
  refine ⟨by dsimp only; omega, by dsimp only; omega, by rw [← hsize, hsize'], ?_, ?_⟩
  · change d.2.2.content.indir = indir
    rw [hinode]
    exact hindir
  · dsimp only
    rw [hwrap, hd', ← splice_splice, ← hoff, ← splice_congr hbuf]
    convert hwrite using 1
    omega

theorem Writing.overwriting {c : Cursor} (h : Writing size offset count f src c) :
    Overwriting 0 size offset count f src c :=
  ⟨h.done_le, h.offset_eq, h.size_eq, h.inv.indir, h.inv.map⟩

theorem Writing.turn {c : Cursor} (h : Writing size offset count f src c)
    (hmax : offset + count ≤ 1036 * 4096) (hlt : c.done < count) :
    let d := getDataLocked c.store c.inode (c.offset / 4096)
    let m := turnSize count c.offset c.done
    0 ≤ d.1 → Writing size offset count f src
      { store := d.2.1.setBlk d.1.toNat
          (splice (d.2.1.blk d.1.toNat) (c.offset % 4096) m fun k => src (c.done + k))
        inode := d.2.2
        offset := (c.offset + m) % 2 ^ 32
        done := c.done + m } := by
  intro d m hpos
  obtain ⟨hdone, hoff, hsize, hindir, hmap⟩ := h.overwriting.turn hmax hlt hpos fun _ _ => rfl
  exact ⟨hdone, hoff, hsize, hmap.inv hindir⟩

theorem Overwriting.loop {indir : UInt32} {c : Cursor} (h : Overwriting indir size offset count f src c)
    (hmax : offset + count ≤ 1036 * 4096) (hcopy : copyin.Reads src) :
    let w := writeLoop copyin count c
    Overwriting indir size offset count f src w.2 ∧ w.1 ≤ 0 ∧
      (w.2.store.refused = 0 → (∀ done m e, copyin done m ≠ .error e) → w.2.done = count ∧ w.1 = 0) := by
  have hkept : ∀ c, Overwriting indir size offset count f src c → c.done < count →
      let d := getDataLocked c.store c.inode (c.offset / 4096)
      Overwriting indir size offset count f src { c with store := d.2.1, inode := d.2.2 } ∧
        (d.1 < 0 → d.2.1.refused ≠ 0) := by
    intro c hc hlt
    have hn : c.offset / 4096 < 1036 := by
      have hoff := hc.offset_eq
      omega
    obtain ⟨hmap, hsize, -, hrefused⟩ := hc.map.getData hn
    obtain ⟨p, hinode⟩ := getDataLocked_inode c.store c.inode (c.offset / 4096)
    refine ⟨⟨hc.done_le, hc.offset_eq, by rw [← hc.size_eq, ← hsize], ?_, hmap⟩, hrefused⟩
    dsimp only
    rw [hinode]
    exact hc.indir_eq
  refine writeLoop_rule (P := Overwriting indir size offset count f src)
    (Q := fun res c => Overwriting indir size offset count f src c ∧ res ≤ 0 ∧
      (c.store.refused = 0 → (∀ done m e, copyin done m ≠ .error e) → c.done = count ∧ res = 0))
    ?_ ?_ ?_ ?_ c h
  · intro c hc hlt d hneg
    obtain ⟨hover, hrefused⟩ := hkept c hc hlt
    exact ⟨hover, hneg.le, fun hr => absurd hr (hrefused hneg)⟩
  · intro c e hc hlt he d _
    exact ⟨(hkept c hc hlt).1, ((hcopy _ _).2 e he).le, fun _ hnone => absurd he (hnone _ _ _)⟩
  · intro c buf hc hlt hbuf d hpos
    exact hc.turn hmax hlt hpos ((hcopy _ _).1 buf hbuf)
  · intro c hc hge
    exact ⟨hc, le_rfl, fun _ _ => ⟨le_antisymm hc.done_le hge, rfl⟩⟩

theorem FileMap.inodeWrite (h : FileMap s i size f) (hcopy : copyin.Reads src)
    (hsize : i.content.size.toNat = size) (hoff : offset ≤ size) (hmax : offset + count ≤ 1036 * 4096) :
    let w := inodeWrite s i copyin offset count
    ∃ n ≤ count, FileMap w.2.1 w.2.2 (max size (offset + n)) (splice f offset n src) ∧
      w.2.2.content.indir = i.content.indir ∧ w.2.2.content.size.toNat = max size (offset + n) ∧
      (n = 0 → w.1 ≤ 0) ∧ (n ≠ 0 → w.1 = n) ∧
      (w.2.1.refused = 0 → (∀ done m e, copyin done m ≠ .error e) → w.1 = count) := by
  have hstart : Overwriting i.content.indir size offset count f src ⟨s, i, offset, 0⟩ := by
    refine ⟨Nat.zero_le _, rfl, hsize, rfl, ?_⟩
    simpa [hoff] using h
  have hchk1 : ¬ i.content.size.toNat < offset := by omega
  have hchk2 : ¬ fsMaxFileSize < (offset + count) % 2 ^ 64 := by
    simp only [fsMaxFileSize, fsInodeDirDblkno, fsInodeIndirDblkno, fsBlkSize]
    omega
  obtain ⟨⟨hdone, hwoff, hwsize, hindir, hmap⟩, hres, hfull⟩ := hstart.loop hmax hcopy
  rw [Fs.inodeWrite, if_neg hchk1, if_neg hchk2]
  set w := writeLoop copyin count ⟨s, i, offset, 0⟩
  refine ⟨w.2.done, hdone, ?_⟩
  dsimp only
  rw [hwsize, ← hwoff]
  have hret : w.2.store.refused = 0 → (∀ done m e, copyin done m ≠ .error e) →
      (if w.2.done ≠ 0 then (w.2.done : ℤ) else w.1) = count := by
    intro hr hnone
    obtain ⟨hd, h0⟩ := hfull hr hnone
    rw [hd, h0]
    split_ifs with hc
    · rfl
    · simp only [ne_eq, not_not] at hc
      simp [hc]
  have hzero : w.2.done = 0 → (if w.2.done ≠ 0 then (w.2.done : ℤ) else w.1) ≤ 0 := by
    intro h0
    rw [if_neg (by simp [h0])]
    exact hres
  have hsome : w.2.done ≠ 0 → (if w.2.done ≠ 0 then (w.2.done : ℤ) else w.1) = w.2.done :=
    fun h0 => if_pos h0
  by_cases hgrow : size < w.2.offset
  · rw [if_pos hgrow]
    obtain ⟨hmap', hrefused⟩ := hmap.grow (UInt32.ofNat w.2.offset)
    refine ⟨hmap', hindir, ?_, hzero, hsome, fun hr => hret (hrefused ▸ hr)⟩
    have hlt : w.2.offset < 2 ^ 32 := by omega
    change (UInt32.ofNat w.2.offset).toNat = _
    rw [UInt32.toNat_ofNat_of_lt' hlt]
    omega
  · rw [if_neg hgrow]
    refine ⟨hmap, hindir, ?_, hzero, hsome, hret⟩
    dsimp only
    omega

theorem FileInv.inodeWrite (h : FileInv s i size f) (src : Bytes)
    (hsize : i.content.size.toNat = size) (hoff : offset ≤ size) (hmax : offset + count ≤ 1036 * 4096) :
    let w := inodeWrite s i (kernelSrc src) offset count
    ∃ n ≤ count, FileInv w.2.1 w.2.2 (max size (offset + n)) (splice f offset n src) ∧
      w.2.2.content.size.toNat = max size (offset + n) ∧
      (n = 0 → w.1 ≤ 0) ∧ (n ≠ 0 → w.1 = n) ∧ (w.2.1.refused = 0 → w.1 = count) := by
  obtain ⟨n, hn, hmap, hindir, hsize', hzero, hsome, hfull⟩ :=
    h.map.inodeWrite (kernelSrc_reads src) hsize hoff hmax
  exact ⟨n, hn, hmap.inv (hindir.trans h.indir), hsize', hzero, hsome, fun hr =>
    hfull hr fun _ _ _ he => (nomatch he)⟩

end Write

structure FileRun where
  store : Store
  inode : Inode
  array : List UInt8

inductive Call where
  | write (src : Bytes) (offset count : ℕ)
  | read (dst : Bytes) (offset count : ℕ)

def Call.InRange : Call → Prop
  | write _ offset count | read _ offset count => offset + count < 2 ^ 32

def overwrite (a : List UInt8) (offset : ℕ) (bs : List UInt8) : List UInt8 :=
  a.take offset ++ bs ++ a.drop (offset + bs.length)

namespace FileRun

def step (r : FileRun) : Call → Option FileRun
  | .write src offset count =>
    let w := inodeWrite r.store r.inode (kernelSrc src) offset count
    some ⟨w.2.1, w.2.2,
      if 0 < w.1 then overwrite r.array offset (slice src 0 w.1.toNat) else r.array⟩
  | .read dst offset count =>
    let o := inodeRead r.store r.inode kernelDst dst offset count
    some ⟨o.2.2.1, o.2.2.2, r.array⟩

structure Empty (r : FileRun) : Prop where
  wf : r.store.sb.WellFormed
  size : r.inode.content.size = 0
  dirblkno : r.inode.content.dirblkno = fun _ => 0
  indir : r.inode.content.indir = 0
  table : ∀ o < 4096, r.store.blk 0 o = 0
  refused : r.store.refused = 0
  array : r.array = []

structure ActsAsArray (r : FileRun) : Prop where
  size : r.inode.content.size.toNat = r.array.length
  read : ∀ dst offset count, offset + count ≤ r.array.length →
    (inodeRead r.store r.inode kernelDst dst offset count).1 = count ∧
    slice (inodeRead r.store r.inode kernelDst dst offset count).2.1 0 count =
      (r.array.drop offset).take count
  beyond : ∀ src offset count, offset + count < 2 ^ 32 → r.array.length < offset →
    inodeWrite r.store r.inode (kernelSrc src) offset count = (-einval, r.store, r.inode)
  tooBig : ∀ src offset count, offset + count < 2 ^ 32 → offset ≤ r.array.length →
    fsMaxFileSize < offset + count →
    inodeWrite r.store r.inode (kernelSrc src) offset count = (-efbig, r.store, r.inode)
  full : ∀ src offset count, offset ≤ r.array.length → offset + count ≤ fsMaxFileSize →
    (inodeWrite r.store r.inode (kernelSrc src) offset count).2.1.refused = 0 →
    (inodeWrite r.store r.inode (kernelSrc src) offset count).1 = count

structure Inv (r : FileRun) : Prop where
  file : FileInv r.store r.inode r.array.length fun k => r.array.getD k 0
  size : r.inode.content.size.toNat = r.array.length

variable {r : FileRun}

theorem Empty.inv (h : Empty r) : Inv r := by
  have hptr : ∀ n < 1036, ptr r.store r.inode.content n = 0 := by
    intro n hn
    unfold ptr
    split_ifs with hdir
    · rw [h.dirblkno]
      rfl
    · have hword : getU32 (r.store.blk 0) (4 * (n - 12)) = 0 :=
        getU32_eq_zero fun k hk => h.table _ (by omega)
      rw [h.indir]
      exact congrArg UInt32.toNat hword
  have hlen : r.array.length = 0 := by rw [h.array]; rfl
  refine ⟨⟨h.wf, h.indir, fun n hn => Or.inl (hptr n hn), ?_, ?_, by omega, ?_⟩, ?_⟩
  · intro m hm n hn _ ht
    have hlo := ht.1
    have hpos := h.wf.ibm_pos
    have hibm := h.wf.ibm_dbm
    have hdbm := h.wf.dbm_itab
    have hitab := h.wf.itab_data
    rw [hptr m hm] at hlo
    simp only [fsSuperblk] at hpos
    omega
  · intro k hk
    omega
  · intro _ n hn
    rw [hptr n hn]
    norm_num
  · rw [h.size, hlen]
    rfl

theorem length_overwrite {a bs : List UInt8} {offset : ℕ} (h : offset ≤ a.length) :
    (overwrite a offset bs).length = max a.length (offset + bs.length) := by
  simp only [overwrite, length_append, length_take, length_drop]
  omega

theorem getD_overwrite {a : List UInt8} {src : Bytes} {offset n k : ℕ} (h : offset ≤ a.length) :
    (overwrite a offset (slice src 0 n)).getD k 0 = splice (fun k => a.getD k 0) offset n src k := by
  have htake : (a.take offset).length = offset := by rw [length_take]; omega
  simp only [getD_eq_getElem?_getD, overwrite, append_assoc, length_slice]
  by_cases hlo : k < offset
  · rw [splice_outside (by omega), getElem?_append_left (by omega), getElem?_take_of_lt hlo]
  rw [getElem?_append_right (by omega), htake]
  by_cases hin : k < offset + n
  · have hk : k - offset < (slice src 0 n).length := by rw [length_slice]; omega
    rw [splice_inside (by omega) hin, getElem?_append_left hk, getElem?_eq_getElem hk,
      getElem_slice, Nat.zero_add]
    rfl
  · have hk : (slice src 0 n).length ≤ k - offset := by rw [length_slice]; omega
    rw [splice_outside (by omega), getElem?_append_right hk, getElem?_drop, length_slice,
      show offset + n + (k - offset - n) = k by omega]

theorem inodeWrite_beyond {s : Store} {i : Inode} {copyin : Copyin} {offset count : ℕ}
    (h : i.content.size.toNat < offset) : inodeWrite s i copyin offset count = (-einval, s, i) :=
  if_pos h

theorem inodeWrite_tooBig {s : Store} {i : Inode} {copyin : Copyin} {offset count : ℕ}
    (h : offset ≤ i.content.size.toNat) (hr : offset + count < 2 ^ 32)
    (hbig : fsMaxFileSize < offset + count) : inodeWrite s i copyin offset count = (-efbig, s, i) := by
  rw [inodeWrite, if_neg (by omega), Nat.mod_eq_of_lt (by omega), if_pos hbig]

theorem Inv.of_write (h : Inv r) {src : Bytes} {offset count : ℕ} (hr : offset + count < 2 ^ 32)
    {r' : FileRun} (hs : step r (.write src offset count) = some r') : Inv r' := by
  obtain ⟨hfile, hsize⟩ := h
  cases hs
  by_cases hbeyond : r.inode.content.size.toNat < offset
  · simp only [inodeWrite_beyond hbeyond, einval, Int.reduceNeg, Int.reduceLT, if_false]
    exact ⟨hfile, hsize⟩
  by_cases hbig : fsMaxFileSize < offset + count
  · simp only [inodeWrite_tooBig (not_lt.mp hbeyond) hr hbig, efbig, Int.reduceNeg, Int.reduceLT, if_false]
    exact ⟨hfile, hsize⟩
  have hoff : offset ≤ r.array.length := by omega
  obtain ⟨n, -, hinv, hsize', hzero, hsome, -⟩ :=
    hfile.inodeWrite src hsize hoff (not_lt.mp hbig)
  set w := inodeWrite r.store r.inode (kernelSrc src) offset count
  by_cases hn : n = 0
  · -- nothing written: the array stays, and so does the file
    subst hn
    rw [splice_zero, max_eq_left (by omega)] at hinv
    simp only [if_neg (not_lt.mpr (hzero rfl))]
    exact ⟨hinv, by rw [hsize', max_eq_left (by omega)]⟩
  · have hpos : (0 : ℤ) < n := by omega
    simp only [hsome hn, hpos, if_true, Int.toNat_natCast]
    have hlen : (overwrite r.array offset (slice src 0 n)).length = max r.array.length (offset + n) := by
      rw [length_overwrite hoff, length_slice]
    refine ⟨?_, hsize'.trans hlen.symm⟩
    rw [hlen]
    exact hinv.congr_data fun k _ => getD_overwrite hoff

theorem Inv.inodeRead (h : Inv r) {dst : Bytes} {offset count : ℕ}
    (hlen : offset + count ≤ r.array.length) : inodeRead r.store r.inode kernelDst dst offset count =
    ((count : ℤ), splice dst 0 count (fun k => r.array.getD (offset + k) 0), r.store, r.inode) := by
  have hsize := h.size
  have hlen' := h.file.len_le
  have hholds : Holds r.store r.inode.content r.inode.content.size.toNat
      fun k => r.array.getD k 0 := by
    rw [hsize]
    exact h.file.holds
  exact inodeRead_of_holds hholds (by omega) (by omega)

theorem Inv.of_read (h : Inv r) {dst : Bytes} {offset count : ℕ} (hr : offset + count < 2 ^ 32)
    {r' : FileRun} (hs : step r (.read dst offset count) = some r') : Inv r' := by
  cases hs
  by_cases hlen : offset + count ≤ r.array.length
  · rw [h.inodeRead hlen]
    exact h
  · have hsize := h.size
    have hchk : r.inode.content.size.toNat < (offset + count) % 2 ^ 64 := by omega
    rw [Fs.inodeRead, if_pos hchk]
    exact h

theorem Inv.actsAsArray (h : Inv r) : ActsAsArray r := by
  obtain ⟨hfile, hsize⟩ := h
  refine ⟨hsize, ?_, ?_, ?_, ?_⟩
  · intro dst offset count hlen
    rw [Inv.inodeRead ⟨hfile, hsize⟩ hlen]
    refine ⟨rfl, ?_⟩
    apply ext_getElem
    · simp only [length_slice, length_take, length_drop]
      omega
    · intro k hk _
      rw [length_slice] at hk
      have hbyte : offset + k < r.array.length := by omega
      simp only [getElem_slice, getElem_take, getElem_drop]
      rw [splice_inside (by omega) (by omega)]
      simp [hbyte]
  · intro src offset count _ hbeyond
    exact inodeWrite_beyond (by omega)
  · intro src offset count hr hoff hbig
    exact inodeWrite_tooBig (by omega) hr hbig
  · intro src offset count hoff hmax hrefused
    obtain ⟨n, -, -, -, -, -, hfull⟩ := hfile.inodeWrite src hsize hoff hmax
    exact hfull hrefused

/-- In every run of writes and reads from an empty file, with any refusals of
`balloc`, the file acts as the array of bytes written to it. -/
theorem file_acts_as_byte_array {init t : FileRun} (h0 : Empty init)
    (h : Reaches step (fun _ c => c.InRange) init t) : ActsAsArray t := by
  have hinv : Inv t := by
    apply h.invariant h0.inv
    intro s c s' hs hc hstep
    cases c with
    | write src offset count => exact hs.of_write hc hstep
    | read dst offset count => exact hs.of_read hc hstep
  exact hinv.actsAsArray

def blankDisk : FileRun where
  store := { Store.mounted ⟨69, 2048, 4096, 2, 2, 5, 2037, 2, 4, 6, 11⟩ fun _ _ => 0 with
    deny := [false, true] }
  inode := ⟨1, 2, true, true, { Dinode.zero with type := .file, nblink := 1 }⟩
  array := []

theorem file_acts_as_byte_array_blankDisk : Empty blankDisk ∧
    ∃ t, run step blankDisk [.write (fun _ => 7) 0 5000, .read (fun _ => 0) 10 20] = some t ∧
      ActsAsArray t := by
  have hempty : Empty blankDisk :=
    ⟨by constructor <;> decide, rfl, rfl, rfl, fun _ _ => rfl, rfl, rfl⟩
  refine ⟨hempty, _, rfl, file_acts_as_byte_array hempty ?_⟩
  apply Reaches.of_run [.write (fun _ => 7) 0 5000, .read (fun _ => 0) 10 20]
  · refine ⟨?_, fun t _ => ⟨?_, fun _ _ => trivial⟩⟩
    · change 0 + 5000 < 2 ^ 32
      norm_num
    · change 10 + 20 < 2 ^ 32
      norm_num
  · rfl

end FileRun

end RvMiniOs.Fs
