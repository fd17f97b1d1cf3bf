import RvMiniOs.Fs.Mkfs

/-!
# The image that `mkfs` writes

Where `mkfs` puts the blocks of a file, the entries of the root directory, the
inodes and the bitmaps. Every write goes to fresh ground, so what is in place
stays in place: each lemma names the byte range its function may change.
-/

namespace RvMiniOs.Fs

open Lib Function List Option

def nBlks (len : ℕ) : ℕ := (len + 4095) / 4096

def place (base n : ℕ) : ℕ := if 12 < n then base + n + 1 else base + n

def usedBlks (k : ℕ) : ℕ := if 12 < k then k + 1 else k

def fileDinode (base len : ℕ) : Dinode where
  size := UInt32.ofNat len
  type := .file
  devId := 0
  nblink := 1
  dirblkno := fun n => if (n : ℕ) < nBlks len then UInt32.ofNat (base + n) else 0
  indir := if 12 < nBlks len then UInt32.ofNat (base + 13) else 0

structure FileAt (img : Bytes) (base len : ℕ) (data : List UInt8) : Prop where
  data : ∀ k < len, img (4096 * place base (k / 4096) + k % 4096) = data.getD k 0
  table : ∀ j, 12 ≤ j → j < nBlks len → ∀ t < 4,
    img (4096 * (base + 13) + 4 * (j - 12) + t) = getByte (place base j) t
  blank : 12 < nBlks len → ∀ o, 4 * (nBlks len - 12) ≤ o → o < 4096 →
    img (4096 * (base + 13) + o) = 0

theorem place_lt {base n k : ℕ} (h : n < k) : place base n < base + usedBlks k := by
  unfold place usedBlks
  split_ifs <;> omega

theorem place_ge (base n : ℕ) : base ≤ place base n := by
  unfold place
  split_ifs <;> omega

theorem FileAt.congr {img img' : Bytes} {base len : ℕ} {data : List UInt8} (h : FileAt img base len data)
    (heq : ∀ a, 4096 * base ≤ a → a < 4096 * (base + usedBlks (nBlks len)) → img' a = img a) :
    FileAt img' base len data := by
  constructor
  · intro k hk
    have hn : k / 4096 < nBlks len := by unfold nBlks; omega
    have hlo := place_ge base (k / 4096)
    have hhi : place base (k / 4096) < base + usedBlks (nBlks len) := place_lt hn
    rw [heq _ (by omega) (by omega)]
    exact h.data k hk
  · intro j hj hjn t ht
    have hused : usedBlks (nBlks len) = nBlks len + 1 := if_pos (by omega)
    rw [heq _ (by omega) (by omega)]
    exact h.table j hj hjn t ht
  · intro hn o hlo hhi
    have hused : usedBlks (nBlks len) = nBlks len + 1 := if_pos hn
    rw [heq _ (by omega) (by omega)]
    exact h.blank hn o hlo hhi

namespace Mkfs

structure Filling (m₀ : Mkfs) (data : List UInt8) (len : ℕ) (m : Mkfs) : Prop where
  len_le : len ≤ data.length
  aligned : len % 4096 = 0 ∨ len = data.length
  inodes : m.iAllocated = m₀.iAllocated
  root : m.root = m₀.root
  blks : m.blkAllocated = m₀.blkAllocated + usedBlks (nBlks len)
  bound : m.blkAllocated < 2037
  frame : ∀ a, a < 4096 * (m₀.blkAllocated + 12) ∨ 4096 * (m.blkAllocated + 12) ≤ a →
    m.img a = m₀.img a
  file : FileAt m.img (m₀.blkAllocated + 12) len data

def nextImg (img : Bytes) (base n c : ℕ) (src : Bytes) : Bytes :=
  if n < 12 then splice img (4096 * place base n) c src
  else splice (splice img (4096 * place base n) c src) (4096 * (base + 13) + 4 * (n - 12)) 4
    (getByte (place base n))

section NextImg

variable {img src : Bytes} {base n c a : ℕ}

theorem place_ne_table (base n : ℕ) : place base n ≠ base + 13 := by
  unfold place
  split_ifs <;> omega

theorem nextImg_outside (hdata : a < 4096 * place base n ∨ 4096 * place base n + c ≤ a)
    (htable : n < 12 ∨ a < 4096 * (base + 13) + 4 * (n - 12) ∨
      4096 * (base + 13) + 4 * (n - 12) + 4 ≤ a) : nextImg img base n c src a = img a := by
  unfold nextImg
  split_ifs with hn
  · rw [splice_outside hdata]
  · rw [splice_outside (htable.resolve_left hn), splice_outside hdata]

theorem nextImg_data {k : ℕ} (hk : k < c) (hc : c ≤ 4096) (hn : n < 1036) :
    nextImg img base n c src (4096 * place base n + k) = src k := by
  have hne := place_ne_table base n
  have hdata : splice img (4096 * place base n) c src (4096 * place base n + k) = src k := by
    rw [splice_inside (Nat.le_add_right _ _) (Nat.add_lt_add_left hk _), Nat.add_sub_cancel_left]
  unfold nextImg
  split_ifs with h12
  · exact hdata
  · rw [splice_outside (by omega), hdata]

theorem nextImg_entry {t : ℕ} (ht : t < 4) (hn : 12 ≤ n) :
    nextImg img base n c src (4096 * (base + 13) + 4 * (n - 12) + t) = getByte (place base n) t := by
  unfold nextImg
  rw [if_neg (by omega), splice_inside (Nat.le_add_right _ _) (Nat.add_lt_add_left ht _),
    Nat.add_sub_cancel_left]

end NextImg

variable {m₀ m : Mkfs} {data : List UInt8} {len : ℕ}

theorem nBlks_next {c : ℕ} (h : len % 4096 = 0) (h0 : 0 < c) (hc : c ≤ 4096) :
    nBlks (len + c) = nBlks len + 1 := by
  unfold nBlks
  omega

theorem listBytes_drop (l : List UInt8) (n k : ℕ) : listBytes (l.drop n) k = l.getD (n + k) 0 := by
  simp [listBytes, getD_eq_getElem?_getD]

theorem place_injective {base n n' : ℕ} (h : place base n = place base n') : n = n' := by
  unfold place at h
  split_ifs at h <;> omega

theorem Filling.next (h : Filling m₀ data len m) (hlt : len < data.length)
    (hmax : data.length ≤ 1036 * 4096)
    (hzero : ∀ a, 4096 * (m₀.blkAllocated + 12) ≤ a → m₀.img a = 0) {m' : Mkfs}
    (himg : m'.img = nextImg m.img (m₀.blkAllocated + 12) (nBlks len)
      (min 4096 (data.length - len)) (listBytes (data.drop len)))
    (hino : m'.iAllocated = m.iAllocated) (hroot : m'.root = m.root)
    (hblks : m'.blkAllocated = m₀.blkAllocated + usedBlks (nBlks len + 1))
    (hbound : m'.blkAllocated < 2037) :
    Filling m₀ data (len + min 4096 (data.length - len)) m' := by
  have hal : len % 4096 = 0 := by
    rcases h.aligned with hal | hend <;> omega
  have hn : nBlks len = len / 4096 := by unfold nBlks; omega
  have hn' : nBlks (len + min 4096 (data.length - len)) = nBlks len + 1 :=
    nBlks_next hal (by omega) (by omega)
  have hlo := place_ge (m₀.blkAllocated + 12) (nBlks len)
  have hhi : place (m₀.blkAllocated + 12) (nBlks len) < m'.blkAllocated + 12 := by
    rw [hblks, Nat.add_right_comm]
    exact place_lt (Nat.lt_succ_self _)
  have hgrow : m.blkAllocated ≤ m'.blkAllocated ∧
      (12 ≤ nBlks len → m₀.blkAllocated + 25 < m'.blkAllocated + 12) ∧
      (nBlks len ≤ 12 → m.blkAllocated ≤ m₀.blkAllocated + 12) := by
    rw [hblks, h.blks]
    unfold usedBlks
    split_ifs <;> omega
  generalize hc : min 4096 (data.length - len) = c at *
  have hne := place_ne_table (m₀.blkAllocated + 12) (nBlks len)
  refine ⟨by omega, by omega, hino.trans h.inodes, hroot.trans h.root, by rw [hblks, hn'], hbound,
    ?_, ?_, ?_, ?_⟩
  · intro a ha
    rw [himg, nextImg_outside (by omega) (by omega)]
    exact h.frame a (by omega)
  · intro k hk
    by_cases hold : k < len
    · have hother : place (m₀.blkAllocated + 12) (k / 4096) ≠
          place (m₀.blkAllocated + 12) (nBlks len) := fun heq => by
        have hk' := place_injective heq
        omega
      have htab := place_ne_table (m₀.blkAllocated + 12) (k / 4096)
      rw [himg, nextImg_outside (by omega) (by omega)]
      exact h.file.data k hold
    · have hdiv : k / 4096 = nBlks len := by omega
      have hmod : k % 4096 = k - len := by omega
      rw [himg, hdiv, hmod, nextImg_data (by omega) (by omega) (by omega), listBytes_drop,
        Nat.add_sub_cancel' (by omega)]
  · intro j hj hjn t ht
    rw [hn'] at hjn
    by_cases hold : j < nBlks len
    · rw [himg, nextImg_outside (by omega) (by omega)]
      exact h.file.table j hj hold t ht
    · have hjeq : j = nBlks len := by omega
      rw [himg, hjeq, nextImg_entry ht (by omega)]
  · intro hn12 o hlo' hhi'
    rw [hn'] at hn12 hlo'
    rw [himg, nextImg_outside (by omega) (by omega)]
    by_cases hnew : nBlks len = 12
    · -- the table has just been started: its block was fresh
      rw [h.frame _ (by omega)]
      exact hzero _ (by omega)
    · exact h.file.blank (by omega) o (by omega) hhi'

theorem allocBlock_eq_some {b : ℕ} {m' : Mkfs} (h : m.allocBlock = some (b, m')) :
    m.blkAllocated + 1 < 2037 ∧ b = m.blkAllocated + 12 ∧
      m' = { m with blkAllocated := m.blkAllocated + 1 } := by
  simp only [allocBlock] at h
  split_ifs at h with hfull
  cases h
  have hlim : fsNbDblk = 2037 := by decide
  exact ⟨by omega, rfl, rfl⟩

section Turn

variable {base c : ℕ}

theorem fileDinode_next_direct (hc : nBlks (len + c) = nBlks len + 1) (hn : nBlks len < 12)
    (hlt : nBlks len < fsInodeDirDblkno) :
    { fileDinode base len with
      dirblkno := update (fileDinode base len).dirblkno ⟨nBlks len, hlt⟩
        (UInt32.ofNat (base + nBlks len))
      size := (fileDinode base len).size + UInt32.ofNat c } = fileDinode base (len + c) := by
  have hptr : ∀ k : Fin fsInodeDirDblkno, update (fileDinode base len).dirblkno
      ⟨nBlks len, hlt⟩ (UInt32.ofNat (base + nBlks len)) k = (fileDinode base (len + c)).dirblkno k := by
    intro k
    by_cases hk : k = ⟨nBlks len, hlt⟩
    · subst hk
      simp [fileDinode, hc]
    · have hval : (k : ℕ) ≠ nBlks len := fun h => hk (Fin.ext h)
      have hiff : (k : ℕ) ≤ nBlks len ↔ (k : ℕ) < nBlks len := by omega
      simp [fileDinode, update_of_ne hk, hc, hiff]
  rw [funext hptr]
  simp [fileDinode, hc, UInt32.ofNat_add, show ¬ 12 < nBlks len by omega,
    show ¬ 12 ≤ nBlks len by omega]

theorem fileDinode_next_indirect (hc : nBlks (len + c) = nBlks len + 1) (hn : 12 ≤ nBlks len) :
    { fileDinode base len with
      indir := UInt32.ofNat (base + 13)
      size := (fileDinode base len).size + UInt32.ofNat c } = fileDinode base (len + c) := by
  have hptr : ∀ k : Fin 12, ((k : ℕ) < nBlks len ↔ (k : ℕ) < nBlks len + 1) := by
    intro k
    omega
  simp [fileDinode, hc, UInt32.ofNat_add, hptr, show 12 < nBlks len + 1 by omega]

end Turn

theorem indirect_table {base n : ℕ} {m₁ m₂ : Mkfs} {indir : ℕ} (hn : nBlks len = n)
    (h12 : 12 ≤ n) (hbase : base + 13 < 2 ^ 32) (hblk : n = 12 → m₁.blkAllocated + 12 = base + 13)
    (h : (if (fileDinode base len).indir = 0 then m₁.allocBlock
      else some ((fileDinode base len).indir.toNat, m₁)) = some (indir, m₂)) :
    indir = base + 13 ∧ m₂.img = m₁.img ∧ m₂.iAllocated = m₁.iAllocated ∧ m₂.root = m₁.root ∧
      m₂.blkAllocated = m₁.blkAllocated + (if n = 12 then 1 else 0) ∧
      (m₁.blkAllocated < 2037 → m₂.blkAllocated < 2037) := by
  by_cases hfirst : n = 12
  · have h0 : (fileDinode base len).indir = 0 := if_neg (by omega)
    rw [if_pos h0] at h
    obtain ⟨hbound, rfl, rfl⟩ := allocBlock_eq_some h
    have hb := hblk hfirst
    rw [if_pos hfirst]
    exact ⟨hb, rfl, rfl, rfl, rfl, fun _ => hbound⟩
  · have hval : (fileDinode base len).indir = UInt32.ofNat (base + 13) := if_pos (by omega)
    have hnat : (UInt32.ofNat (base + 13)).toNat = base + 13 := UInt32.toNat_ofNat_of_lt' hbase
    have hne : (fileDinode base len).indir ≠ 0 := by
      intro h0
      rw [hval] at h0
      rw [h0] at hnat
      simp at hnat
    rw [if_neg hne, hval, hnat] at h
    cases h
    rw [if_neg hfirst]
    exact ⟨rfl, rfl, rfl, rfl, rfl, id⟩

theorem allocFileLoop_turn (h : Filling m₀ data len m) (hmax : data.length ≤ 1036 * 4096)
    (hzero : ∀ a, 4096 * (m₀.blkAllocated + 12) ≤ a → m₀.img a = 0) (hlt : len < data.length)
    {r : Dinode × Mkfs}
    (hloop : m.allocFileLoop (fileDinode (m₀.blkAllocated + 12) len) (min (nBlks len) 12)
      (nBlks len - 12) (data.drop len) = some r) :
    ∃ m₁, Filling m₀ data (len + min 4096 (data.length - len)) m₁ ∧
      m₁.allocFileLoop (fileDinode (m₀.blkAllocated + 12) (len + min 4096 (data.length - len)))
        (min (nBlks (len + min 4096 (data.length - len))) 12)
        (nBlks (len + min 4096 (data.length - len)) - 12)
        (data.drop (len + min 4096 (data.length - len))) = some r := by
  have hne : data.drop len ≠ [] := by simpa using hlt
  have hal : len % 4096 = 0 := h.aligned.resolve_right (by omega)
  have hcount : nBlks (len + min 4096 (data.length - len)) = nBlks len + 1 :=
    nBlks_next hal (by omega) (by omega)
  have hlen : (data.drop len).length = data.length - len := length_drop
  rw [allocFileLoop, dif_neg hne, bind_eq_some_iff] at hloop
  obtain ⟨⟨blkno, m₁⟩, halloc, hloop⟩ := hloop
  obtain ⟨hbound, rfl, rfl⟩ := allocBlock_eq_some halloc
  have hblks := h.blks
  have hplace : m.blkAllocated + 12 = place (m₀.blkAllocated + 12) (nBlks len) := by
    rw [hblks]
    unfold place usedBlks
    split_ifs <;> omega
  simp only [hlen, drop_drop, fsBlkSize] at hloop
  rw [hcount]
  by_cases hdir : nBlks len < 12
  · have hmin : min (nBlks len) 12 = nBlks len := by omega
    have hblk : m.blkAllocated + 12 = m₀.blkAllocated + 12 + nBlks len :=
      hplace.trans (if_neg (by omega))
    simp only [hmin, dif_pos hdir] at hloop
    refine ⟨({ m with blkAllocated := m.blkAllocated + 1 } : Mkfs).pwrite
      (dataOff (m.blkAllocated + 12)) (min 4096 (data.length - len)) (listBytes (data.drop len)),
      h.next hlt hmax hzero ?_ rfl rfl ?_ hbound, ?_⟩
    · rw [nextImg, if_pos hdir, ← hplace, Nat.mul_comm]
      rfl
    · change m.blkAllocated + 1 = _
      unfold usedBlks at hblks ⊢
      split_ifs at hblks ⊢ <;> omega
    · rw [show min (nBlks len + 1) 12 = nBlks len + 1 by omega,
        show nBlks len + 1 - 12 = nBlks len - 12 by omega,
        ← fileDinode_next_direct hcount hdir hdir, ← hblk]
      exact hloop
  · have hmin : min (nBlks len) 12 = 12 := by omega
    have h12 : 12 ≤ nBlks len := not_lt.mp hdir
    simp only [hmin, dif_neg (show ¬ 12 < fsInodeDirDblkno by decide)] at hloop
    rw [bind_eq_some_iff] at hloop
    obtain ⟨⟨indir, m₂⟩, htab, hloop⟩ := hloop
    have hstart : nBlks len = 12 → m.blkAllocated + 1 + 12 = m₀.blkAllocated + 12 + 13 := by
      intro hn
      rw [hblks, hn]
      rfl
    obtain ⟨rfl, himg, hino, hroot, hblk₂, hbound₂⟩ :=
      indirect_table rfl h12 (by omega) hstart htab
    refine ⟨m₂.pwrite (dataOff (m₀.blkAllocated + 12 + 13) + (nBlks len - 12) * 4) 4
      (getByte (m.blkAllocated + 12)), h.next hlt hmax hzero ?_ hino hroot ?_ (hbound₂ hbound), ?_⟩
    · rw [nextImg, if_neg hdir, ← hplace, Nat.mul_comm 4096 (m.blkAllocated + 12),
        Nat.mul_comm 4096, Nat.mul_comm 4]
      change splice m₂.img _ _ _ = _
      rw [himg]
      rfl
    · change m₂.blkAllocated = _
      rw [hblk₂]
      change m.blkAllocated + 1 + _ = _
      unfold usedBlks at hblks ⊢
      split_ifs at hblks ⊢ <;> omega
    · rw [show min (nBlks len + 1) 12 = 12 by omega,
        show nBlks len + 1 - 12 = nBlks len - 12 + 1 by omega,
        ← fileDinode_next_indirect hcount h12]
      exact hloop

theorem allocFileLoop_spec (h : Filling m₀ data len m) (hmax : data.length ≤ 1036 * 4096)
    (hzero : ∀ a, 4096 * (m₀.blkAllocated + 12) ≤ a → m₀.img a = 0) {d : Dinode} {m' : Mkfs}
    (hloop : m.allocFileLoop (fileDinode (m₀.blkAllocated + 12) len) (min (nBlks len) 12)
      (nBlks len - 12) (data.drop len) = some (d, m')) :
    d = fileDinode (m₀.blkAllocated + 12) data.length ∧ Filling m₀ data data.length m' := by
  induction hk : data.length - len using Nat.strong_induction_on generalizing len m with
  | _ k ih =>
  have hle := h.len_le
  by_cases hend : len = data.length
  · subst hend
    rw [allocFileLoop, drop_length, dif_pos rfl] at hloop
    cases hloop
    exact ⟨rfl, h⟩
  · obtain ⟨m₁, hfill, hnext⟩ := allocFileLoop_turn h hmax hzero (by omega) hloop
    exact ih _ (by omega) hfill hnext rfl

theorem allocFile_spec {f : HostFile} {d : Dinode} {m' : Mkfs} (hbound : m.blkAllocated < 2037)
    (hzero : ∀ a, 4096 * (m.blkAllocated + 12) ≤ a → m.img a = 0) (h : m.allocFile f = some (d, m')) :
    f.data.length ≤ 1036 * 4096 ∧ d = fileDinode (m.blkAllocated + 12) f.data.length ∧
    Filling m f.data f.data.length m' := by
  unfold allocFile at h
  split_ifs at h with hmax
  have hstart : Filling m f.data 0 m := by
    refine ⟨Nat.zero_le _, Or.inl rfl, rfl, rfl, rfl, hbound, fun _ _ => rfl, ?_, ?_, ?_⟩
    · intro k hk
      omega
    · intro j hj hjn
      exact absurd hjn (by unfold nBlks; omega)
    · intro hn
      exact absurd hn (by unfold nBlks; omega)
  have hsize : f.data.length ≤ 1036 * 4096 := not_lt.mp hmax
  exact ⟨hsize, allocFileLoop_spec hstart hsize hzero h⟩

end Mkfs

def baseOf (files : List HostFile) : ℕ :=
  12 + (files.map fun f => usedBlks (nBlks f.data.length)).sum

theorem baseOf_snoc (files : List HostFile) (f : HostFile) :
    baseOf (files ++ [f]) = baseOf files + usedBlks (nBlks f.data.length) := by
  simp [baseOf, Nat.add_assoc]

theorem baseOf_take_le (files : List HostFile) (j : ℕ) : baseOf (files.take j) ≤ baseOf files := by
  unfold baseOf
  conv_rhs => rw [← take_append_drop j files, map_append, sum_append]
  omega

theorem baseOf_take_succ {files : List HostFile} {j : ℕ} (hj : j < files.length) :
    baseOf (files.take (j + 1)) = baseOf (files.take j) + usedBlks (nBlks files[j].data.length) := by
  rw [take_add_one, getElem?_eq_getElem hj]
  exact baseOf_snoc _ _

theorem le_baseOf (files : List HostFile) : 12 ≤ baseOf files := Nat.le_add_right _ _

def rootDinode (n : ℕ) : Dinode := { Mkfs.rootDi with size := UInt32.ofNat (20 * n) }

theorem rootDinode_succ (n : ℕ) :
    { rootDinode n with size := (rootDinode n).size + UInt32.ofNat 20 } = rootDinode (n + 1) := by
  have hsize : UInt32.ofNat (20 * n) + UInt32.ofNat 20 = UInt32.ofNat (20 * (n + 1)) := by
    rw [← UInt32.ofNat_add, Nat.mul_succ]
  simp only [rootDinode, hsize]

structure Placed (img : Bytes) (files : List HostFile) : Prop where
  boot : ∀ o < 4096, img o = 0
  super : ∀ k < 44, img (4096 + k) = superblock.bytes k
  reserved : ∀ t < 64, img (24576 + t) = 0
  inode : ∀ (j : ℕ) (h : j < files.length), ∀ t < 64, img (24576 + 64 * (j + 2) + t) =
    (fileDinode (baseOf (files.take j)) files[j].data.length).bytes t
  free : ∀ a, 24576 + 64 * (files.length + 2) ≤ a → a < 45056 → img a = 0
  entry : ∀ (j : ℕ) (h : j < files.length), ∀ t < 20, img (45056 + 20 * j + t) =
    Mkfs.direntBytes (basename files[j].path) (j + 2) t
  name : ∀ (j : ℕ) (h : j < files.length), (basename files[j].path).length < 16
  file : ∀ (j : ℕ) (h : j < files.length),
    FileAt img (baseOf (files.take j)) files[j].data.length files[j].data
  size : ∀ (j : ℕ) (h : j < files.length), files[j].data.length ≤ 1036 * 4096

theorem Placed.snoc {img img' : Bytes} {files : List HostFile} {f : HostFile}
    (h : Placed img files) (hsize : f.data.length ≤ 1036 * 4096)
    (hname : (basename f.path).length < 16) (hinodes : files.length + 3 ≤ 320)
    (hentries : 20 * (files.length + 1) ≤ 4096)
    (hinode : ∀ t < 64, img' (24576 + 64 * (files.length + 2) + t) =
      (fileDinode (baseOf files) f.data.length).bytes t)
    (hentry : ∀ t < 20, img' (45056 + 20 * files.length + t) =
      Mkfs.direntBytes (basename f.path) (files.length + 2) t)
    (hfile : FileAt img' (baseOf files) f.data.length f.data)
    (hkeep : ∀ a, a < 4096 * baseOf files →
      (a < 24576 + 64 * (files.length + 2) ∨ 24576 + 64 * (files.length + 3) ≤ a) →
      (a < 45056 + 20 * files.length ∨ 45056 + 20 * (files.length + 1) ≤ a) → img' a = img a) :
    Placed img' (files ++ [f]) := by
  have hbase := le_baseOf files
  have hsplit : ∀ j, j < (files ++ [f]).length → j < files.length ∨ j = files.length := by
    intro j hj
    rw [length_append, length_singleton] at hj
    omega
  constructor
  · intro o ho
    rw [hkeep _ (by omega) (by omega) (by omega)]
    exact h.boot o ho
  · intro k hk
    rw [hkeep _ (by omega) (by omega) (by omega)]
    exact h.super k hk
  · intro t ht
    rw [hkeep _ (by omega) (by omega) (by omega)]
    exact h.reserved t ht
  · intro j hj t ht
    rcases hsplit j hj with hold | rfl
    · rw [hkeep _ (by omega) (by omega) (by omega), take_append_of_le_length hold.le,
        getElem_append_left hold]
      exact h.inode j hold t ht
    · simpa using hinode t ht
  · intro a hlo hhi
    rw [length_append, length_singleton] at hlo
    rw [hkeep _ (by omega) (by omega) (by omega)]
    exact h.free a (by omega) hhi
  · intro j hj t ht
    rcases hsplit j hj with hold | rfl
    · rw [hkeep _ (by omega) (by omega) (by omega), getElem_append_left hold]
      exact h.entry j hold t ht
    · simpa using hentry t ht
  · intro j hj
    rcases hsplit j hj with hold | rfl
    · rw [getElem_append_left hold]
      exact h.name j hold
    · simpa using hname
  · intro j hj
    rcases hsplit j hj with hold | rfl
    · have hend := baseOf_take_succ hold
      have hle := baseOf_take_le files (j + 1)
      have hlo := le_baseOf (files.take j)
      rw [take_append_of_le_length hold.le, getElem_append_left hold]
      apply (h.file j hold).congr
      intro a ha ha'
      exact hkeep a (by omega) (by omega) (by omega)
    · simpa using hfile
  · intro j hj
    rcases hsplit j hj with hold | rfl
    · rw [getElem_append_left hold]
      exact h.size j hold
    · simpa using hsize

namespace Mkfs

variable {m : Mkfs}

structure Built (m : Mkfs) (files : List HostFile) : Prop where
  inodes : m.iAllocated = files.length + 1
  inodes_lt : files.length + 1 < 320
  root : m.root = rootDinode files.length
  entries : 20 * files.length ≤ 4096
  blks : m.blkAllocated + 12 = baseOf files
  blks_lt : m.blkAllocated < 2037
  placed : Placed m.img files
  bitmaps : ∀ a, 8192 ≤ a → a < 24576 → m.img a = 0
  blank : ∀ a, 4096 * baseOf files ≤ a → m.img a = 0

theorem allocInode_eq_some {d : Dinode} {n : ℕ} {m' : Mkfs} (h : m.allocInode d = some (n, m')) :
    n < 320 ∧ n = m.iAllocated + 1 ∧
      m' = { m with iAllocated := n, img := splice m.img (24576 + 64 * n) 64 d.bytes } := by
  simp only [allocInode] at h
  split_ifs at h with hfull
  cases h
  have hlim : fsNbInodes = 320 := by decide
  refine ⟨by omega, rfl, ?_⟩
  rw [writeInode, Nat.mul_comm _ sizeofDinode]
  rfl

theorem dirAddEntry_eq_some {path : List UInt8} {id : ℕ} {m' : Mkfs}
    (h : m.dirAddEntry path id = some m') :
    (basename path).length < 16 ∧ m.root.size.toNat + 20 ≤ 4096 ∧
      m' = { m with
        img := splice m.img (4096 * (m.root.dirblkno 0).toNat + m.root.size.toNat) 20
          (direntBytes (basename path) id)
        root := { m.root with size := m.root.size + UInt32.ofNat 20 } } := by
  simp only [dirAddEntry] at h
  split_ifs at h with hname hsize
  refine ⟨not_le.mp hname, not_lt.mp hsize, ?_⟩
  rw [← some.inj h, Nat.mul_comm 4096]
  rfl

theorem Built.init {n : ℕ} (h : start.allocInode rootDi = some (n, m)) : Built m [] := by
  obtain ⟨-, rfl, rfl⟩ := allocInode_eq_some h
  have himg : ∀ a, (a < 24640 ∨ 24704 ≤ a) →
      splice start.img (24576 + 64 * (start.iAllocated + 1)) 64 rootDi.bytes a =
        splice (fun _ => 0) 4096 44 superblock.bytes a := by
    intro a ha
    have hfar : a < 24576 + 64 * (0 + 1) ∨ 24576 + 64 * (0 + 1) + 64 ≤ a := by omega
    exact splice_outside hfar
  have hzero : ∀ a, (a < 4096 ∨ 4140 ≤ a) → (a < 24640 ∨ 24704 ≤ a) →
      splice start.img (24576 + 64 * (start.iAllocated + 1)) 64 rootDi.bytes a = 0 := by
    intro a hsuper hroot
    rw [himg a hroot]
    exact splice_outside hsuper
  refine ⟨rfl, by decide, rfl, by decide, rfl, by decide, ?_, ?_, ?_⟩
  · refine ⟨?_, ?_, ?_, ?_, ?_, ?_, ?_, ?_, ?_⟩
    · exact fun o ho => hzero o (by omega) (by omega)
    · intro k hk
      have hbyte := himg (4096 + k) (by omega)
      rwa [splice_inside (by omega : 4096 ≤ 4096 + k) (by omega), Nat.add_sub_cancel_left] at hbyte
    · exact fun t ht => hzero _ (by omega) (by omega)
    · exact fun j hj => absurd hj (Nat.not_lt_zero j)
    · exact fun a hlo hhi => hzero a (by simp only [length_nil] at hlo; omega)
        (by simp only [length_nil] at hlo; omega)
    all_goals exact fun j hj => absurd hj (Nat.not_lt_zero j)
  · exact fun a hlo hhi => hzero a (by omega) (by omega)
  · intro a ha
    have hbase : baseOf [] = 12 := rfl
    exact hzero a (by omega) (by omega)

theorem Built.addFile {files : List HostFile} {f : HostFile} {m' : Mkfs} (h : Built m files)
    (hadd : m.addFile f = some m') : Built m' (files ++ [f]) := by
  obtain ⟨⟨d, m₁⟩, hfile, hadd⟩ := bind_eq_some_iff.mp hadd
  obtain ⟨⟨ino, m₂⟩, hinode, hadd⟩ := bind_eq_some_iff.mp hadd
  obtain ⟨hsize, rfl, hfill⟩ := allocFile_spec h.blks_lt (by rw [h.blks]; exact h.blank) hfile
  obtain ⟨hino, rfl, rfl⟩ := allocInode_eq_some hinode
  obtain ⟨hname, hdir, rfl⟩ := dirAddEntry_eq_some hadd
  have hroot : m₁.root = rootDinode files.length := hfill.root.trans h.root
  have hentries := h.entries
  have hrsize : m₁.root.size.toNat = 20 * files.length := by
    have hlt : 20 * files.length < 2 ^ 32 := by omega
    rw [hroot]
    exact UInt32.toNat_ofNat_of_lt' hlt
  have hrblk : (m₁.root.dirblkno 0).toNat = 11 := by
    rw [hroot]
    rfl
  have hbase := h.blks
  have hinodes := h.inodes
  have hfinodes := hfill.inodes
  have hend : m₁.blkAllocated + 12 = baseOf files + usedBlks (nBlks f.data.length) := by
    rw [hfill.blks]
    omega
  have hn : m₁.iAllocated + 1 = files.length + 2 := by omega
  dsimp only at hdir
  rw [hrsize] at hdir
  simp only [hrsize, hrblk, hn]
  -- the three writes: data behind the base, one inode, one directory entry
  have hkeep : ∀ a, (a < 4096 * baseOf files ∨ 4096 * (m₁.blkAllocated + 12) ≤ a) →
      (a < 24576 + 64 * (files.length + 2) ∨ 24576 + 64 * (files.length + 3) ≤ a) →
      (a < 45056 + 20 * files.length ∨ 45056 + 20 * (files.length + 1) ≤ a) →
      splice (splice m₁.img (24576 + 64 * (files.length + 2)) 64
        (fileDinode (m.blkAllocated + 12) f.data.length).bytes) (4096 * 11 + 20 * files.length) 20
        (direntBytes (basename f.path) (files.length + 2)) a = m.img a := by
    intro a hdata hitab hentry
    rw [splice_outside (by omega), splice_outside (by omega)]
    exact hfill.frame a (by omega)
  have hlen : (files ++ [f]).length = files.length + 1 := by simp
  refine ⟨by rw [hlen], by omega, ?_, by omega, ?_, hfill.bound, ?_, ?_, ?_⟩
  · dsimp only
    rw [hroot, hlen]
    exact rootDinode_succ files.length
  · rw [baseOf_snoc]
    exact hend
  · apply h.placed.snoc hsize hname (by omega) (by omega)
    · intro t ht
      dsimp only
      rw [splice_outside (by omega), splice_inside (by omega) (by omega), Nat.add_sub_cancel_left, hbase]
    · intro t ht
      dsimp only
      rw [splice_inside (by omega) (by omega)]
      congr 1
      omega
    · rw [← hbase]
      apply hfill.file.congr
      intro a hlo hhi
      dsimp only
      rw [splice_outside (by omega), splice_outside (by omega)]
    · exact fun a hlo => hkeep a (Or.inl hlo)
  · intro a hlo hhi
    exact (hkeep a (by omega) (by omega) (by omega)).trans (h.bitmaps a hlo hhi)
  · intro a ha
    rw [baseOf_snoc] at ha
    exact (hkeep a (by omega) (by omega) (by omega)).trans (h.blank a (by omega))

theorem Built.addFiles {done files : List HostFile} {m' : Mkfs} (h : Built m done)
    (hadd : files.foldlM Mkfs.addFile m = some m') : Built m' (done ++ files) := by
  induction files generalizing m done with
  | nil =>
    rw [foldlM_nil] at hadd
    cases hadd
    simpa using h
  | cons f files ih =>
    rw [foldlM_cons] at hadd
    obtain ⟨m₁, hf, hrest⟩ := bind_eq_some_iff.mp hadd
    simpa using ih (h.addFile hf) hrest

end Mkfs

structure ImageOf (files : List HostFile) (img : Bytes) : Prop extends Placed img files where
  inodes_lt : files.length + 2 ≤ 320
  entries : 20 * files.length ≤ 4096
  blks_le : baseOf files ≤ 2048
  root : ∀ t < 64, img (24576 + 64 + t) = (rootDinode files.length).bytes t
  ibm : ∀ o < 4096, img (8192 + o) = Mkfs.bmBytes (files.length + 2) o
  ibmRest : ∀ o < 4096, img (12288 + o) = 0
  dbm : ∀ o < 4096, img (16384 + o) = Mkfs.bmBytes (baseOf files - 11) o
  dbmRest : ∀ o < 4096, img (20480 + o) = 0

theorem ImageOf.rootDinode_size {files : List HostFile} {img : Bytes} (h : ImageOf files img) :
    (rootDinode files.length).size.toNat = 20 * files.length := by
  have hent := h.entries
  exact UInt32.toNat_ofNat_of_lt' (show 20 * files.length < 2 ^ 32 by omega)

theorem Placed.congr {img img' : Bytes} {files : List HostFile} (h : Placed img files)
    (hkeep : ∀ a, (a < 8192 ∨ 24576 ≤ a) → (a < 24640 ∨ 24704 ≤ a) → img' a = img a) :
    Placed img' files := by
  refine ⟨?_, ?_, ?_, ?_, ?_, ?_, h.name, ?_, h.size⟩
  · exact fun o ho => (hkeep o (by omega) (by omega)).trans (h.boot o ho)
  · exact fun k hk => (hkeep _ (by omega) (by omega)).trans (h.super k hk)
  · exact fun t ht => (hkeep _ (by omega) (by omega)).trans (h.reserved t ht)
  · exact fun j hj t ht => (hkeep _ (by omega) (by omega)).trans (h.inode j hj t ht)
  · exact fun a hlo hhi => (hkeep a (by omega) (by omega)).trans (h.free a hlo hhi)
  · exact fun j hj t ht => (hkeep _ (by omega) (by omega)).trans (h.entry j hj t ht)
  · intro j hj
    have hbase := le_baseOf (files.take j)
    apply (h.file j hj).congr
    intro a hlo hhi
    exact hkeep a (by omega) (by omega)

theorem mkfs_image {files : List HostFile} {img : Bytes} (h : mkfs files = some img) :
    ImageOf files img := by
  obtain ⟨⟨n, m⟩, hstart, h⟩ := bind_eq_some_iff.mp h
  obtain ⟨m', hfiles, rfl⟩ := map_eq_some_iff.mp h
  have hbuilt : m'.Built files := (Mkfs.Built.init hstart).addFiles hfiles
  obtain ⟨hino, hlt, hroot, hent, hblk, hblk', hplaced, hbm, -⟩ := hbuilt
  have himg : m'.finish = splice (splice (splice m'.img 24640 64 (rootDinode files.length).bytes)
      8192 4096 (Mkfs.bmBytes (files.length + 2))) 16384 4096
      (Mkfs.bmBytes (baseOf files - 11)) := by
    have hbits : m'.blkAllocated + 1 = baseOf files - 11 := by omega
    simp only [Mkfs.finish, Mkfs.writeBm, Mkfs.writeInode, Mkfs.pwrite, superblock, fsSuperblk,
      fsNbSuperblk, fsNbIbm, fsNbDbm, fsBlkSize, fsRootInodeId, sizeofDinode, hroot, hino, hbits]
  rw [himg]
  refine ⟨hplaced.congr ?_, by omega, hent, by omega, ?_, ?_, ?_, ?_, ?_⟩
  · intro a hbits hinode
    rw [splice_outside (by omega), splice_outside (by omega), splice_outside (by omega)]
  · intro t ht
    rw [splice_outside (by omega), splice_outside (by omega), splice_inside (by omega) (by omega),
      show 24576 + 64 + t - 24640 = t by omega]
  · intro o ho
    rw [splice_outside (by omega), splice_inside (by omega) (by omega), Nat.add_sub_cancel_left]
  · intro o ho
    rw [splice_outside (by omega), splice_outside (by omega), splice_outside (by omega)]
    exact hbm _ (by omega) (by omega)
  · intro o ho
    rw [splice_inside (by omega) (by omega), Nat.add_sub_cancel_left]
  · intro o ho
    rw [splice_outside (by omega), splice_outside (by omega), splice_outside (by omega)]
    exact hbm _ (by omega) (by omega)

end RvMiniOs.Fs
