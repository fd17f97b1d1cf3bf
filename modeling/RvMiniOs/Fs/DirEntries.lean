import RvMiniOs.Fs.Guarded
import RvMiniOs.Fs.Path

/-!
# The bytes of a directory

A directory is a file of 20-byte entries, which blocks of 4096 bytes cut in two.
`dir_lookup` on a sound directory changes nothing and finds allocated inode
numbers only. `dir_add_entry` on one that has room for the entry adds it whole or,
when not even its first byte gets a block, not at all.
-/

namespace RvMiniOs.Fs

open Lib Finset

def fileByte (s : Store) (d : Dinode) (k : ℕ) : UInt8 :=
  s.blk (ptr s d (k / fsBlkSize)) (k % fsBlkSize)

def dirEntry (s : Store) (d : Dinode) (e : ℕ) : Bytes := fun k => fileByte s d (sizeofDirent * e + k)

def entryInum (s : Store) (d : Dinode) (e : ℕ) : ℕ := (getU32 (dirEntry s d e) maxname).toNat

def GoodEntry (s : Store) (entry : Bytes) : Prop :=
  (getU32 entry maxname).toNat ≠ 0 →
    (∃ k < maxname, entry k = 0) ∧ (getU32 entry maxname).toNat < nbInodes s.sb ∧
      inodeBit s (getU32 entry maxname).toNat = true

structure WellFormedDir (s : Store) (d : Dinode) : Prop where
  size : sizeofDirent ∣ d.size.toNat
  entries : ∀ e, sizeofDirent * e < d.size.toNat → GoodEntry s (dirEntry s d e)

def allocated (s : Store) : ℕ :=
  ((Finset.range (nbInodes s.sb)).filter fun ino => inodeBit s ino = true).card

structure DirSound (s : Store) (d : Dinode) : Prop extends WellFormedDir s d where
  room : d.size.toNat ≤ 20 * allocated s
  mapped : ∀ n, 4096 * n < d.size.toNat → IsBlk (ptr s d n)

def Available (s : Store) (d : Dinode) (n : ℕ) : Prop :=
  IsBlk (ptr s d n) ∨ (ptr s d n = 0 ∧ s.deny.headD false = false ∧
    ∃ b, s.sb.dataStart ≤ b ∧ b < s.sb.nbBlk ∧ dataBit s b = false)

def EntryFits (s : Store) (d : Dinode) : Prop :=
  d.size.toNat % fsBlkSize + sizeofDirent ≤ fsBlkSize ∨
    Available s d (d.size.toNat / fsBlkSize + 1)

structure SameDir (s : Store) (d : Dinode) (s' : Store) (d' : Dinode) : Prop where
  type : d'.type = d.type
  size : d'.size = d.size
  byte : ∀ k < d.size.toNat, fileByte s' d' k = fileByte s d k

structure OneMore (s : Store) (d : Dinode) (s' : Store) (d' : Dinode) (entry : Bytes) : Prop where
  type : d'.type = d.type
  size : d'.size.toNat = d.size.toNat + 20
  byte : ∀ k < d.size.toNat + 20,
    fileByte s' d' k = splice (fileByte s d) d.size.toNat 20 entry k

section Sound

variable {s s' : Store} {d d' : Dinode}

theorem SameDir.refl (s : Store) (d : Dinode) : SameDir s d s d := ⟨rfl, rfl, fun _ _ => rfl⟩

theorem SameDir.trans {s'' : Store} {d'' : Dinode} (h : SameDir s d s' d')
    (h' : SameDir s' d' s'' d'') : SameDir s d s'' d'' := by
  refine ⟨h'.type.trans h.type, h'.size.trans h.size, fun k hk => ?_⟩
  rw [h'.byte k (by rw [h.size]; exact hk), h.byte k hk]

theorem SameDir.of_blocks (htype : d'.type = d.type) (hsize : d'.size = d.size)
    (hptr : ∀ n, 4096 * n < d.size.toNat → ptr s' d' n = ptr s d n)
    (hblk : ∀ n, 4096 * n < d.size.toNat → s'.blk (ptr s d n) = s.blk (ptr s d n)) : SameDir s d s' d' := by
  refine ⟨htype, hsize, fun k hk => ?_⟩
  have hn : 4096 * (k / 4096) < d.size.toNat := by omega
  unfold fileByte
  rw [hptr _ hn, hblk _ hn]

theorem GoodEntry.congr {entry entry' : Bytes} (h : GoodEntry s entry) (hgrow : Grows s s')
    (heq : ∀ k < 20, entry' k = entry k) : GoodEntry s' entry' := by
  have hnum : getU32 entry' maxname = getU32 entry maxname :=
    getU32_congr fun k hk => heq _ (by simp only [maxname]; omega)
  intro h0
  rw [hnum] at h0 ⊢
  obtain ⟨⟨k, hk, hnul⟩, hlt, hbit⟩ := h h0
  refine ⟨⟨k, hk, ?_⟩, hgrow.sb ▸ hlt, hgrow.inode _ hlt hbit⟩
  rw [heq k (hk.trans (by decide)), hnul]

theorem allocated_mono (h : Grows s s') : allocated s ≤ allocated s' := by
  unfold allocated
  rw [h.sb]
  apply card_le_card
  intro ino hino
  obtain ⟨hlt, hbit⟩ := mem_filter.mp hino
  exact mem_filter.mpr ⟨hlt, h.inode ino (mem_range.mp hlt) hbit⟩

theorem allocated_le (s : Store) : allocated s ≤ nbInodes s.sb :=
  (card_filter_le _ _).trans (card_range _).le

namespace DirSound

theorem holds (h : DirSound s d) : Holds s d d.size.toNat (fileByte s d) := by
  intro k hk
  obtain ⟨h0, hlt⟩ := h.mapped (k / 4096) (by omega)
  exact ⟨Nat.pos_of_ne_zero h0, hlt, rfl⟩

theorem of_size_zero (h : d.size = 0) : DirSound s d := by
  have h0 : d.size.toNat = 0 := by rw [h]; rfl
  refine ⟨⟨by rw [h0]; exact dvd_zero _, fun e he => ?_⟩, by omega, fun n hn => ?_⟩
  · omega
  · omega

theorem congr (h : DirSound s d) (hgrow : Grows s s') (hsize : d'.size = d.size)
    (hptr : ∀ n, 4096 * n < d.size.toNat → ptr s' d' n = ptr s d n)
    (hblk : ∀ n, 4096 * n < d.size.toNat → s'.blk (ptr s d n) = s.blk (ptr s d n)) : DirSound s' d' := by
  have hbyte : ∀ k < d.size.toNat, fileByte s' d' k = fileByte s d k := by
    intro k hk
    have hn : 4096 * (k / 4096) < d.size.toNat := by omega
    unfold fileByte
    rw [hptr _ hn, hblk _ hn]
  refine ⟨⟨hsize ▸ h.size, ?_⟩, ?_, ?_⟩
  · intro e he
    rw [hsize] at he
    obtain ⟨q, hq⟩ := h.size
    refine (h.entries e he).congr hgrow fun k hk => hbyte _ ?_
    simp only [sizeofDirent] at he hq ⊢
    omega
  · rw [hsize]
    exact h.room.trans (Nat.mul_le_mul_left 20 (allocated_mono hgrow))
  · intro n hn
    rw [hsize] at hn
    rw [hptr n hn]
    exact h.mapped n hn

end DirSound

theorem Available.congr {n : ℕ} (h : Available s d n) (hn : n < 12) (hdir : d'.dirblkno = d.dirblkno)
    (hsb : s'.sb = s.sb) (hdeny : s'.deny = s.deny)
    (hbit : ∀ b, s.sb.dataStart ≤ b → b < s.sb.nbBlk → dataBit s' b = dataBit s b) : Available s' d' n := by
  have hptr : ptr s' d' n = ptr s d n := by simp [ptr, hn, hdir]
  unfold Available
  rw [hptr, hsb, hdeny]
  refine h.imp_right ?_
  rintro ⟨h0, hhead, b, hlo, hhi, hclear⟩
  exact ⟨h0, hhead, b, hlo, hhi, (hbit b hlo hhi).trans hclear⟩

theorem Available.getData {i : Inode} {n : ℕ} (h : Available s i.content n)
    (wf : s.sb.WellFormed) (hn : n < 1036) : 0 ≤ (getDataLocked s i n).1 := by
  rcases h with ⟨h0, hlt⟩ | ⟨h0, hhead, b, hlo, hhi, hclear⟩
  · rw [getDataLocked_of_mapped hn h0, asInt32_of_lt hlt]
    exact Int.natCast_nonneg _
  · rcases getDataLocked_cases (i := i) wf hn with ⟨hp, -⟩ | ⟨-, b, s', v, -, -, -, hget⟩ | ⟨-, hb, -⟩
    · exact absurd h0 hp
    · rw [hget]
      exact Int.natCast_nonneg _
    · exfalso
      rcases balloc_cases wf with ⟨c, s', hc, -, -⟩ | ⟨-, hdeny | hfull⟩
      · rw [hc] at hb
        have hfst := congrArg Prod.fst hb
        simp only [enospc] at hfst
        omega
      · rw [hdeny] at hhead
        cases hhead
      · rw [hfull b hlo hhi] at hclear
        cases hclear

theorem getData_of_not_available {i : Inode} {n : ℕ} (h : ¬ Available s i.content n) (wf : s.sb.WellFormed)
    (hn : n < 1036) : (getDataLocked s i n).1 < 0 ∧
      (ptr s i.content n = 0 → (getDataLocked s i n).2.1.refused = s.refused + 1) := by
  unfold Available at h
  rw [not_or] at h
  rcases getDataLocked_cases (i := i) wf hn with ⟨hp, hget⟩ | ⟨hp, b, s', v, ha, -, hv, hget⟩ | ⟨-, -, v, -, hget⟩
  · rw [hget]
    refine ⟨?_, fun h0 => absurd h0 hp⟩
    by_contra hpos
    exact h.1 ⟨hp, (asInt32_nonneg_iff (ptr_lt s n i.content)).mp (not_lt.mp hpos)⟩
  · -- a call of `balloc` that was not refused found a free block
    exfalso
    refine h.2 ⟨hp, ?_, b, ha.lo, ha.hi, ha.clear⟩
    rw [← Bool.not_eq_true]
    intro hdeny
    have hb : balloc s = (-enospc, s.refuse) := by rw [balloc, if_pos hdeny]
    have hfst := congrArg Prod.fst (hget.symm.trans (getDataLocked_of_unmapped hn hp))
    rw [hb] at hfst
    have hneg : asInt32 (toU32 (-enospc)).toNat = -enospc := by decide
    rw [hneg] at hfst
    simp only [enospc] at hfst
    omega
  · rw [hget]
    refine ⟨by simp [enospc], fun _ => ?_⟩
    rw [setPtr_refused]
    rfl

end Sound

section Lookup

variable {s : Store} {i : Inode}

theorem read_entry (hsize : sizeofDirent ∣ i.content.size.toNat)
    (hholds : Holds s i.content i.content.size.toNat (fileByte s i.content))
    (hmax : i.content.size.toNat ≤ 1036 * 4096) {e : ℕ} (he : 20 * e < i.content.size.toNat) (entry : Bytes) :
    inodeRead s i kernelDst entry (20 * e) 20 =
      (20, splice entry 0 20 (dirEntry s i.content e), s, i) := by
  obtain ⟨q, hq⟩ := hsize
  exact inodeRead_of_holds hholds hmax (by simp only [sizeofDirent] at hq; omega)

theorem strncmp_congr {s1 s1' s2 s2' : Bytes} {n : ℕ} (h : ∀ k < n, s1 k = s1' k)
    (h' : ∀ k < n, s2 k = s2' k) : strncmp s1 s2 n = strncmp s1' s2' n := by
  have hfrom : ∀ m k, k + m = n → strncmpFrom s1 s2 k m = strncmpFrom s1' s2' k m := by
    intro m
    induction m with
    | zero => exact fun _ _ => rfl
    | succ m ih =>
      intro k hk
      simp only [strncmpFrom, h k (by omega), h' k (by omega), ih (k + 1) (by omega)]
  exact hfrom n 0 (Nat.zero_add n)

def Named (s : Store) (d : Dinode) (name : List UInt8) (e : ℕ) : Prop :=
  entryInum s d e ≠ 0 ∧ strncmp (dirEntry s d e) (listBytes name) maxname = 0

theorem dirLookupFrom_of_holds (hsize : sizeofDirent ∣ i.content.size.toNat)
    (hholds : Holds s i.content i.content.size.toNat (fileByte s i.content))
    (hmax : i.content.size.toNat ≤ 1036 * 4096) (name : List UInt8) (entry : Bytes) (e : ℕ) :
    (dirLookupFrom s i name entry (20 * e)).2 = (s, i) ∧
      ((∃ e', 20 * e' < i.content.size.toNat ∧ Named s i.content name e' ∧
          (∀ e'' < e', e ≤ e'' → ¬ Named s i.content name e'') ∧
          (dirLookupFrom s i name entry (20 * e)).1 = .ok (entryInum s i.content e')) ∨
        ((∀ e', e ≤ e' → 20 * e' < i.content.size.toNat → ¬ Named s i.content name e') ∧
          (dirLookupFrom s i name entry (20 * e)).1 = .error (-enoent))) := by
  induction hn : i.content.size.toNat - 20 * e using Nat.strong_induction_on
    generalizing e entry with
  | _ n ih =>
  rw [Fs.dirLookupFrom]
  by_cases hlt : 20 * e < i.content.size.toNat
  · rw [dif_pos hlt]
    have hread := read_entry hsize hholds hmax hlt entry
    simp only [sizeofDirent, hread]
    rw [if_neg (by norm_num)]
    have hbyte : ∀ k < 20, splice entry 0 20 (dirEntry s i.content e) k = dirEntry s i.content e k :=
      fun k hk => by rw [splice_inside (Nat.zero_le k) (by omega), Nat.sub_zero]
    have hnum : getU32 (splice entry 0 20 (dirEntry s i.content e)) maxname =
        getU32 (dirEntry s i.content e) maxname :=
      getU32_congr fun k hk => hbyte _ (by simp only [maxname]; omega)
    have hname : strncmp (splice entry 0 20 (dirEntry s i.content e)) (listBytes name) maxname =
        strncmp (dirEntry s i.content e) (listBytes name) maxname :=
      strncmp_congr (fun k hk => hbyte k (by simp only [maxname] at hk; omega)) fun _ _ => rfl
    rw [hnum, hname]
    split_ifs with hfound
    · exact ⟨rfl, .inl ⟨e, hlt, hfound, fun e' hlt' hle => absurd hlt' (not_lt.mpr hle), rfl⟩⟩
    · obtain ⟨hsame, hres⟩ :=
        ih _ (by omega) (splice entry 0 20 (dirEntry s i.content e)) (e + 1) rfl
      refine ⟨hsame, hres.imp ?_ ?_⟩
      · rintro ⟨e', he', hnamed, hfirst, hok⟩
        refine ⟨e', he', hnamed, fun e'' hlt' hle => ?_, hok⟩
        rcases hle.eq_or_lt with rfl | hgt
        · exact hfound
        · exact hfirst e'' hlt' hgt
      · rintro ⟨hnone, herr⟩
        refine ⟨fun e' hle he' => ?_, herr⟩
        rcases hle.eq_or_lt with rfl | hgt
        · exact hfound
        · exact hnone e' hgt he'
  · rw [dif_neg hlt]
    exact ⟨rfl, .inr ⟨fun e' hle he' => absurd he' (by omega), rfl⟩⟩

theorem DirSound.dirLookupFrom (h : DirSound s i.content) (hmax : i.content.size.toNat ≤ 1036 * 4096)
    (name : List UInt8) (entry : Bytes) (e : ℕ) :
    (dirLookupFrom s i name entry (20 * e)).2 = (s, i) ∧
      ((∃ e', 20 * e' < i.content.size.toNat ∧ Named s i.content name e' ∧
          (∀ e'' < e', e ≤ e'' → ¬ Named s i.content name e'') ∧
          (dirLookupFrom s i name entry (20 * e)).1 = .ok (entryInum s i.content e')) ∨
        ((∀ e', e ≤ e' → 20 * e' < i.content.size.toNat → ¬ Named s i.content name e') ∧
          (dirLookupFrom s i name entry (20 * e)).1 = .error (-enoent))) :=
  dirLookupFrom_of_holds h.size h.holds hmax name entry e

end Lookup

theorem inodeWrite_entry (hmax : i.content.size.toNat + 20 ≤ 12 * 4096) {w : ℤ × Cursor}
    (hw : Fs.writeLoop (kernelSrc src) 20 ⟨s, i, i.content.size.toNat, 0⟩ = w) :
    inodeWrite s i (kernelSrc src) i.content.size.toNat sizeofDirent =
      let res : ℤ := if w.2.done ≠ 0 then w.2.done else w.1
      let i' := { w.2.inode with content := { w.2.inode.content with size := UInt32.ofNat w.2.offset } }
      if w.2.inode.content.size.toNat < w.2.offset then (res, (markDirtyLocked w.2.store i').2, i')
      else (res, w.2.store, w.2.inode) := by
  have hsmall : ¬ fsMaxFileSize < (i.content.size.toNat + sizeofDirent) % 2 ^ 64 := by
    simp only [fsMaxFileSize, fsInodeDirDblkno, fsInodeIndirDblkno, fsBlkSize, sizeofDirent]
    omega
  rw [inodeWrite, if_neg (lt_irrefl _), if_neg hsmall, ← hw]

section Append

variable {S : Contents} {ino : ℕ} {s : Store} {i : Inode} {f src : Bytes}

theorem Fetches.holds {s' : Store} {i' : Inode} (hf : Fetches S ino s i s' i')
    (h : Guarded s (S.add ino i.content)) {len : ℕ} (hlen : len ≤ 12 * 4096)
    (hold : Holds s i.content len f) : Holds s' i'.content len f := by
  intro k hk
  obtain ⟨hpos, hlt, hbyte⟩ := hold k hk
  have hp : IsBlk (ptr s i.content (k / 4096)) := ⟨hpos.ne', hlt⟩
  have hi : S.add ino i.content ino i.content := .inr ⟨rfl, rfl⟩
  rw [hf.mapped _ hp.1, hf.blk _ (h.taken _ _ _ hi (by omega) hp) (h.data _ _ _ hi (by omega) hp.1).2]
  exact ⟨hpos, hlt, hbyte⟩

theorem Guarded.holds_fill (h : Guarded s (S.add ino i.content)) {len m : ℕ}
    (hold : Holds s i.content len f) (hp : IsBlk (ptr s i.content (len / 4096)))
    (hm : len % 4096 + m ≤ 4096) (hmax : len + m ≤ 12 * 4096) (h0 : 0 < m) (buf : Bytes) :
    Holds (s.setBlk (ptr s i.content (len / 4096))
      (splice (s.blk (ptr s i.content (len / 4096))) (len % 4096) m buf)) i.content (len + m)
      (splice f len m buf) := by
  have hi : S.add ino i.content ino i.content := .inr ⟨rfl, rfl⟩
  have hn : len / 4096 < 12 := by omega
  intro k hk
  have hk12 : k / 4096 < 12 := by omega
  rw [ptr_direct s _ _ hk12]
  by_cases hblk : k / 4096 = len / 4096
  · rw [hblk, Store.setBlk_blk_self]
    refine ⟨Nat.pos_of_ne_zero hp.1, hp.2, ?_⟩
    by_cases hnew : len ≤ k
    · rw [splice_inside (by omega) (by omega), splice_inside hnew hk]
      congr 1
      omega
    · rw [splice_outside (by omega), splice_outside (by omega), ← hblk]
      exact (hold k (by omega)).2.2
  · have hlt : k < len := by omega
    obtain ⟨hpos, hlt', hbyte⟩ := hold k hlt
    have hne : ptr s i.content (k / 4096) ≠ ptr s i.content (len / 4096) := fun heq =>
      hblk (h.sole _ _ _ _ _ _ hi hn hp hi (by omega) heq).2
    rw [Store.setBlk_blk_ne _ hne, splice_outside (by omega)]
    exact ⟨hpos, hlt', hbyte⟩

structure Extending (S : Contents) (ino : ℕ) (s : Store) (i : Inode) (src : Bytes) (c : Cursor) :
    Prop where
  fills : Fills S ino s i c.store c.inode
  done_le : c.done ≤ 20
  offset : c.offset = i.content.size.toNat + c.done
  holds : Holds c.store c.inode.content (i.content.size.toNat + c.done)
    (splice (fileByte s i.content) i.content.size.toNat c.done src)

theorem Extending.start (hg : Guarded s (S.add ino i.content)) (hd : DirSound s i.content) (src : Bytes) :
    Extending S ino s i src ⟨s, i, i.content.size.toNat, 0⟩ := by
  refine ⟨(Fetches.refl hg).fills hg, by norm_num, rfl, ?_⟩
  rw [splice_zero]
  exact hd.holds

theorem Extending.turn {c : Cursor} (h : Extending S ino s i src c)
    (hmax : i.content.size.toNat + 20 ≤ 12 * 4096) (hlt : c.done < 20) :
    let d := getDataLocked c.store c.inode (c.offset / 4096)
    let m := turnSize 20 c.offset c.done
    0 ≤ d.1 → Extending S ino s i src
      { store := d.2.1.setBlk d.1.toNat (splice (d.2.1.blk d.1.toNat) (c.offset % 4096) m
          fun k => src (c.done + k))
        inode := d.2.2
        offset := (c.offset + m) % 2 ^ 32
        done := c.done + m } := by
  intro d m hpos
  obtain ⟨hm, hblk⟩ : m ≤ 20 - c.done ∧ c.offset % 4096 + m ≤ 4096 := turnSize_le 20 c.offset c.done
  have hm0 : 0 < m := turnSize_pos hlt
  have hoff := h.offset
  obtain ⟨hfetch, hfound⟩ := h.fills.guarded.getData (c.offset / 4096)
  obtain ⟨hn, hp, hptr⟩ := hfound hpos
  have hold := hfetch.holds h.fills.guarded (by omega) h.holds
  rw [← hoff] at hold
  have hnew := hfetch.guarded.holds_fill hold (hptr ▸ hp) hblk (by omega) hm0
    fun k => src (c.done + k)
  refine ⟨h.fills.trans (h.fills.guarded.fill _ _ hpos), by dsimp only; omega, by dsimp only; omega, ?_⟩
  have hsplice : splice (splice (fileByte s i.content) i.content.size.toNat c.done src) c.offset m
      (fun k => src (c.done + k)) =
      splice (fileByte s i.content) i.content.size.toNat (c.done + m) src := by
    rw [hoff]
    exact splice_splice ..
  have hlen : c.offset + m = i.content.size.toNat + (c.done + m) := by omega
  rw [hptr, hsplice, hlen] at hnew
  exact hnew

theorem Extending.stop {c : Cursor} (h : Extending S ino s i src c)
    (hmax : i.content.size.toNat + 20 ≤ 12 * 4096) (n : ℕ) :
    let d := getDataLocked c.store c.inode n
    Extending S ino s i src { c with store := d.2.1, inode := d.2.2 } := by
  intro d
  have hle := h.done_le
  have hfetch := (h.fills.guarded.getData n).1
  exact ⟨h.fills.trans (hfetch.fills h.fills.guarded), h.done_le, h.offset,
    hfetch.holds h.fills.guarded (by dsimp only; omega) h.holds⟩

structure Appending (S : Contents) (ino : ℕ) (s : Store) (i : Inode) (src : Bytes) (c : Cursor) :
    Prop where
  fills : Fills S ino s i c.store c.inode
  done_le : c.done ≤ 20
  offset : c.offset = i.content.size.toNat + c.done
  holds : Holds c.store c.inode.content (i.content.size.toNat + c.done)
    (splice (fileByte s i.content) i.content.size.toNat c.done src)
  start : c.done = 0 → c.store = s ∧ c.inode = i
  next : 0 < c.done → c.done < 20 → c.offset % 4096 = 0 ∧
    Available c.store c.inode.content (c.offset / 4096)

theorem Appending.available (hg : Guarded s (S.add ino i.content)) (hd : DirSound s i.content)
    (hmax : i.content.size.toNat + 20 ≤ 12 * 4096) (hfit : EntryFits s i.content) {m : ℕ}
    (hm : m = turnSize 20 i.content.size.toNat 0) (hlt : m < 20) (x : Bytes) :
    (i.content.size.toNat + m) % 4096 = 0 ∧
      let d := getDataLocked s i (i.content.size.toNat / 4096)
      Available (d.2.1.setBlk d.1.toNat x) d.2.2.content ((i.content.size.toNat + m) / 4096) := by
  simp only [turnSize, fsBlkSize] at hm
  have hmod := Nat.mod_lt i.content.size.toNat (show 0 < 4096 by norm_num)
  have hnext : (i.content.size.toNat + m) / 4096 = i.content.size.toNat / 4096 + 1 := by omega
  refine ⟨by omega, ?_⟩
  -- the first part of the entry goes to a block that is already there
  have hp := hd.mapped (i.content.size.toNat / 4096) (by omega)
  have hlo := hg.data_lo (.inr ⟨rfl, rfl⟩) (by omega) hp.1
  have hav := hfit.resolve_left (by simp only [fsBlkSize, sizeofDirent]; omega)
  rw [getDataLocked_of_mapped (by omega) hp.1, hnext, asInt32_of_lt hp.2]
  dsimp only
  rw [Int.toNat_natCast]
  refine hav.congr (by simp only [fsBlkSize]; omega) rfl rfl rfl fun b hb hb' => ?_
  exact dataBit_setBlk hg.wf x (.inr (hg.wf.dbm_le_data.trans hlo)) hb hb'

theorem Appending.turn {c : Cursor} (h : Appending S ino s i src c)
    (hg : Guarded s (S.add ino i.content)) (hd : DirSound s i.content)
    (hmax : i.content.size.toNat + 20 ≤ 12 * 4096) (hfit : EntryFits s i.content)
    (hlt : c.done < 20) :
    let d := getDataLocked c.store c.inode (c.offset / 4096)
    let m := turnSize 20 c.offset c.done
    0 ≤ d.1 → Appending S ino s i src
      { store := d.2.1.setBlk d.1.toNat (splice (d.2.1.blk d.1.toNat) (c.offset % 4096) m
          fun k => src (c.done + k))
        inode := d.2.2
        offset := (c.offset + m) % 2 ^ 32
        done := c.done + m } := by
  intro d m hpos
  have hm0 : 0 < m := turnSize_pos hlt
  have hoff := h.offset
  have hext : Extending S ino s i src _ :=
    Extending.turn ⟨h.fills, h.done_le, h.offset, h.holds⟩ hmax hlt hpos
  refine ⟨hext.fills, hext.done_le, hext.offset, hext.holds, fun h0 => absurd h0 (by dsimp only; omega),
    fun _ hlt' => ?_⟩
  dsimp only at hlt' ⊢
  rw [Nat.mod_eq_of_lt (show c.offset + m < 2 ^ 32 by omega)]
  rcases Nat.eq_zero_or_pos c.done with h0 | h0
  · obtain ⟨hs, hi⟩ := h.start h0
    have hoff0 : c.offset = i.content.size.toNat := by omega
    have hm' : m = turnSize 20 i.content.size.toNat 0 := by
      change turnSize 20 c.offset c.done = _
      rw [hoff0, h0]
    have hd' : d = getDataLocked s i (i.content.size.toNat / 4096) := by
      change getDataLocked c.store c.inode (c.offset / 4096) = _
      rw [hs, hi, hoff0]
    have hav := Appending.available hg hd hmax hfit hm' (by omega)
      (splice (d.2.1.blk d.1.toNat) (c.offset % 4096) m fun k => src (c.done + k))
    rw [← hd', ← hoff0] at hav
    exact hav
  · have haligned := (h.next h0 hlt).1
    have hmval : m = min (20 - c.done) (4096 - c.offset % 4096) := rfl
    omega

section Append

variable (hg : Guarded s (S.add ino i.content)) (hd : DirSound s i.content)
  (hmax : i.content.size.toNat + 20 ≤ 12 * 4096)
include hg hd hmax

theorem Guarded.appendLoop (hfit : EntryFits s i.content) (src : Bytes) :
    let w := Fs.writeLoop (kernelSrc src) 20 ⟨s, i, i.content.size.toNat, 0⟩
    (w.2.done = 20 ∧ Appending S ino s i src w.2) ∨
      (w.2.done = 0 ∧ w.2.offset = i.content.size.toNat ∧ w.1 < 0 ∧
        ¬ Available s i.content (i.content.size.toNat / 4096) ∧ Fetches S ino s i w.2.store w.2.inode) := by
  refine writeLoop_rule (P := Appending S ino s i src)
    (Q := fun r c => (c.done = 20 ∧ Appending S ino s i src c) ∨
      (c.done = 0 ∧ c.offset = i.content.size.toNat ∧ r < 0 ∧
        ¬ Available s i.content (i.content.size.toNat / 4096) ∧ Fetches S ino s i c.store c.inode))
    ?_ ?_ ?_ ?_ ⟨s, i, i.content.size.toNat, 0⟩ ?_
  · intro c hc hlt d hneg
    have hoff := hc.offset
    rcases Nat.eq_zero_or_pos c.done with h0 | h0
    · obtain ⟨hs, hi⟩ := hc.start h0
      have hfetch := (hg.getData (c.offset / 4096)).1
      have hoff0 : c.offset = i.content.size.toNat := by omega
      have hnone : ¬ Available s i.content (i.content.size.toNat / 4096) := fun hav => by
        have hpos := hav.getData hg.wf (by omega)
        rw [← hoff0, ← hs, ← hi] at hpos
        exact absurd hneg (not_lt.mpr hpos)
      rw [← hs, ← hi] at hfetch
      exact .inr ⟨h0, hoff0, hneg, hnone, hs ▸ hi ▸ hfetch⟩
    · have hpos := (hc.next h0 hlt).2.getData hc.fills.guarded.wf (by omega)
      exact absurd hneg (not_lt.mpr hpos)
  · exact fun c e _ _ he => by cases he
  · intro c buf hc hlt hbuf d hpos
    cases hbuf
    exact hc.turn hg hd hmax hfit hlt hpos
  · exact fun c hc hle => .inl ⟨le_antisymm hc.done_le hle, hc⟩
  · refine ⟨(Fetches.refl hg).fills hg, by norm_num, rfl, ?_, fun _ => ⟨rfl, rfl⟩,
      fun h0 => absurd h0 (by norm_num)⟩
    rw [splice_zero]
    exact hd.holds

theorem Guarded.append (hfit : EntryFits s i.content) (src : Bytes) :
    let w := inodeWrite s i (kernelSrc src) i.content.size.toNat sizeofDirent
    (∃ c, Appending S ino s i src c ∧ c.done = 20 ∧ w.1 = 20 ∧ w.2.2 = { c.inode with content :=
      { c.inode.content with size := UInt32.ofNat (i.content.size.toNat + 20) } } ∧
      w.2.1 = (markDirtyLocked c.store w.2.2).2) ∨
    (w.1 < 0 ∧ ¬ Available s i.content (i.content.size.toNat / 4096) ∧ Fetches S ino s i w.2.1 w.2.2) := by
  have hloop := hg.appendLoop hd hmax hfit src
  generalize hw : Fs.writeLoop (kernelSrc src) 20 ⟨s, i, i.content.size.toNat, 0⟩ = w at hloop
  rw [inodeWrite_entry hmax hw]
  dsimp only at hloop ⊢
  rcases hloop with ⟨hdone, hc⟩ | ⟨hdone, hoff, hneg, hnone, hfetch⟩
  · obtain ⟨p, hp⟩ := hc.fills.inode
    have hoff := hc.offset
    have hsize : w.2.inode.content.size = i.content.size := by rw [hp]
    have hgrow : w.2.inode.content.size.toNat < w.2.offset := by rw [hsize]; omega
    rw [if_pos hgrow, hdone, hoff, hdone]
    exact .inl ⟨w.2, hc, hdone, rfl, rfl, rfl⟩
  · obtain ⟨p, hp⟩ := hfetch.inode
    have hsize : w.2.inode.content.size = i.content.size := by rw [hp]
    have hgrow : ¬ w.2.inode.content.size.toNat < w.2.offset := by rw [hsize]; omega
    rw [if_neg hgrow, hdone]
    exact .inr ⟨hneg, hnone, hfetch⟩

structure Straddling (S : Contents) (ino : ℕ) (s : Store) (i : Inode) (src : Bytes) (c : Cursor) : Prop
    extends Extending S ino s i src c where
  refused : c.store.refused = s.refused
  start : c.done = 0 → c.store = s ∧ c.inode = i
  next : 0 < c.done → c.done < 20 ∧ ¬ Available c.store c.inode.content (c.offset / 4096) ∧
    (ptr s i.content (i.content.size.toNat / 4096 + 1) = 0 →
      ptr c.store c.inode.content (c.offset / 4096) = 0)

theorem Guarded.straddleLoop (hfit : ¬ EntryFits s i.content) (src : Bytes) :
    let w := Fs.writeLoop (kernelSrc src) 20 ⟨s, i, i.content.size.toNat, 0⟩
    Extending S ino s i src w.2 ∧ 0 < w.2.done ∧ w.2.done < 20 ∧
      (ptr s i.content (i.content.size.toNat / 4096 + 1) = 0 → w.2.store.refused = s.refused + 1) := by
  unfold EntryFits at hfit
  rw [not_or, not_le] at hfit
  obtain ⟨hcross, hnone⟩ := hfit
  simp only [fsBlkSize, sizeofDirent] at hcross hnone
  have hp := hd.mapped (i.content.size.toNat / 4096) (by omega)
  have hget := getDataLocked_of_mapped (i := i) (show i.content.size.toNat / 4096 < 1036 by omega) hp.1
  rw [asInt32_of_lt hp.2] at hget
  have hlo := hg.data_lo (.inr ⟨rfl, rfl⟩) (by omega) hp.1
  have hstop : ∀ c, Straddling S ino s i src c → 0 < c.done →
      (getDataLocked c.store c.inode (c.offset / 4096)).1 < 0 ∧
        (ptr s i.content (i.content.size.toNat / 4096 + 1) = 0 →
          (getDataLocked c.store c.inode (c.offset / 4096)).2.1.refused = s.refused + 1) := by
    intro c hc h0
    obtain ⟨hlt, hav, hzero⟩ := hc.next h0
    have hoff := hc.offset
    obtain ⟨hneg, hcount⟩ := getData_of_not_available hav hc.fills.guarded.wf (by omega)
    exact ⟨hneg, fun hz => (hcount (hzero hz)).trans (by rw [hc.refused])⟩
  have hfirst : ∀ c, Straddling S ino s i src c → c.done = 0 →
      c.offset = i.content.size.toNat ∧ getDataLocked c.store c.inode (c.offset / 4096) =
        ((ptr s i.content (i.content.size.toNat / 4096) : ℤ), s, i) := by
    intro c hc h0
    obtain ⟨hs, hi⟩ := hc.start h0
    have hoff := hc.offset
    have hoff0 : c.offset = i.content.size.toNat := by omega
    rw [hs, hi, hoff0]
    exact ⟨rfl, hget⟩
  refine writeLoop_rule (P := Straddling S ino s i src)
    (Q := fun _ c => Extending S ino s i src c ∧ 0 < c.done ∧ c.done < 20 ∧
      (ptr s i.content (i.content.size.toNat / 4096 + 1) = 0 → c.store.refused = s.refused + 1))
    ?_ ?_ ?_ ?_ ⟨s, i, i.content.size.toNat, 0⟩ ?_
  · intro c hc hlt d hneg
    rcases Nat.eq_zero_or_pos c.done with h0 | h0
    · have hpos := Int.natCast_nonneg (ptr s i.content (i.content.size.toNat / 4096))
      rw [show d = _ from (hfirst c hc h0).2] at hneg
      exact absurd hneg (not_lt.mpr hpos)
    · exact ⟨hc.toExtending.stop hmax _, h0, hlt, (hstop c hc h0).2⟩
  · exact fun c e _ _ he => by cases he
  · intro c buf hc hlt hbuf d hpos
    cases hbuf
    rcases Nat.eq_zero_or_pos c.done with h0 | h0
    · have hext := hc.toExtending.turn hmax hlt hpos
      obtain ⟨hoff0, hd0⟩ := hfirst c hc h0
      have hm : turnSize 20 c.offset c.done = 4096 - i.content.size.toNat % 4096 := by
        rw [hoff0, h0]
        simp only [turnSize, fsBlkSize]
        omega
      rw [hd0] at hext
      rw [show d = _ from hd0]
      refine ⟨hext, rfl, fun h => absurd h (by dsimp only; omega), fun _ => ⟨by dsimp only; omega, ?_, ?_⟩⟩
      · dsimp only
        rw [show (c.offset + turnSize 20 c.offset c.done) % 2 ^ 32 / 4096 = i.content.size.toNat / 4096 + 1 by
          omega, Int.toNat_natCast]
        refine fun hav => hnone (hav.congr (by omega) rfl rfl rfl fun b hb hb' => ?_)
        exact (dataBit_setBlk hg.wf _ (.inr (hg.wf.dbm_le_data.trans hlo)) hb hb').symm
      · intro hz
        dsimp only
        rw [show (c.offset + turnSize 20 c.offset c.done) % 2 ^ 32 / 4096 = i.content.size.toNat / 4096 + 1 by
          omega, ptr_direct s _ _ (by omega), hz]
    · exact absurd (hstop c hc h0).1 (not_lt.mpr hpos)
  · intro c hc hle
    rcases Nat.eq_zero_or_pos c.done with h0 | h0
    · omega
    · exact absurd (hc.next h0).1 (not_lt.mpr hle)
  · exact ⟨Extending.start hg hd src, rfl, fun _ => ⟨rfl, rfl⟩, fun h0 => absurd h0 (by norm_num)⟩

theorem Guarded.appendPart (hfit : ¬ EntryFits s i.content) (src : Bytes) :
    let w := inodeWrite s i (kernelSrc src) i.content.size.toNat sizeofDirent
    ∃ c, Extending S ino s i src c ∧ 0 < c.done ∧ c.done < 20 ∧ w.1 = c.done ∧
      w.2.2 = { c.inode with content :=
        { c.inode.content with size := UInt32.ofNat (i.content.size.toNat + c.done) } } ∧
      w.2.1 = (markDirtyLocked c.store w.2.2).2 ∧
      (ptr s i.content (i.content.size.toNat / 4096 + 1) = 0 → c.store.refused = s.refused + 1) := by
  have hloop := hg.straddleLoop hd hmax hfit src
  generalize hw : Fs.writeLoop (kernelSrc src) 20 ⟨s, i, i.content.size.toNat, 0⟩ = w at hloop
  rw [inodeWrite_entry hmax hw]
  dsimp only at hloop ⊢
  obtain ⟨hext, h0, hlt, hcount⟩ := hloop
  obtain ⟨p, hp⟩ := hext.fills.inode
  have hoff := hext.offset
  have hsize : w.2.inode.content.size = i.content.size := by rw [hp]
  have hgrow : w.2.inode.content.size.toNat < w.2.offset := by rw [hsize]; omega
  rw [if_pos hgrow, if_pos (by omega), hoff]
  exact ⟨w.2, hext, h0, hlt, rfl, rfl, rfl, hcount⟩

end Append

theorem DirSound.appended {s' : Store} {d d' : Dinode} (hd : DirSound s d) (hgrow : Grows s s')
    (hsize : d'.size.toNat = d.size.toNat + 20)
    (hold : Holds s' d' (d.size.toNat + 20) (splice (fileByte s d) d.size.toNat 20 src))
    (hgood : GoodEntry s' src) (hroom : d'.size.toNat ≤ 20 * allocated s') : DirSound s' d' := by
  obtain ⟨q, hq⟩ := hd.size
  simp only [sizeofDirent] at hq
  have hbyte : ∀ k < d.size.toNat + 20,
      fileByte s' d' k = splice (fileByte s d) d.size.toNat 20 src k :=
    fun k hk => (hold k hk).2.2
  refine ⟨⟨⟨q + 1, by simp only [sizeofDirent]; omega⟩, ?_⟩, hroom, ?_⟩
  · intro e he
    rw [hsize] at he
    simp only [sizeofDirent] at he
    rcases Nat.lt_or_ge e q with hlt | hge
    · refine (hd.entries e (by simp only [sizeofDirent]; omega)).congr hgrow fun k hk => ?_
      unfold dirEntry
      simp only [sizeofDirent]
      rw [hbyte _ (by omega), splice_outside (by omega)]
    · refine hgood.congr (Grows.refl s') fun k hk => ?_
      unfold dirEntry
      simp only [sizeofDirent]
      rw [hbyte _ (by omega), splice_inside (by omega) (by omega)]
      congr 1
      omega
  · intro n hn
    obtain ⟨hpos, hlt, -⟩ := hold (4096 * n) (by omega)
    rw [Nat.mul_div_cancel_left n (by norm_num)] at hpos hlt
    exact ⟨hpos.ne', hlt⟩

end Append

theorem goodEntry_newDirent {s : Store} (stack : Bytes) {name : List UInt8} {inum : ℕ}
    (hname : name.length < maxname) (hmax : nbInodes s.sb < 2 ^ 31) (hlt : inum < nbInodes s.sb)
    (hbit : inodeBit s inum = true) : GoodEntry s (newDirent stack name inum) := by
  have hnum : (getU32 (newDirent stack name inum) maxname).toNat = inum := by
    have hval : (UInt32.ofNat inum).toNat = inum := UInt32.toNat_ofNat_of_lt' (by
      change inum < 2 ^ 32
      omega)
    rw [getU32_of_bytes (v := UInt32.ofNat inum), hval]
    intro k hk
    rw [hval, newDirent, if_neg (by omega), Nat.add_sub_cancel_left]
  intro _
  rw [hnum]
  refine ⟨⟨name.length, hname, ?_⟩, hlt, hbit⟩
  rw [newDirent, if_pos hname, if_pos le_rfl]
  simp [listBytes]

end RvMiniOs.Fs
