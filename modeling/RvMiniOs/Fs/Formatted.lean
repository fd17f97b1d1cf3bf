import RvMiniOs.Fs.Mount
import RvMiniOs.Fs.Operations

/-!
# A freshly mounted image

Which blocks the inodes of an image refer to. Each block up to the last one that
`mkfs` has handed out is referred to once, and these are the blocks whose bits are
set; so a run that starts from an image starts with every block owned.
-/

namespace RvMiniOs.Fs

open Lib List

theorem baseOf_take_mono (files : List HostFile) {j j' : ℕ} (h : j ≤ j') :
    baseOf (files.take j) ≤ baseOf (files.take j') := by
  have hle := baseOf_take_le (files.take j') j
  rwa [take_take, Nat.min_eq_left h] at hle

theorem exists_file_of_lt {files : List HostFile} {b : ℕ} (hlo : 12 ≤ b) (hhi : b < baseOf files) :
    ∃ j < files.length, baseOf (files.take j) ≤ b ∧ b < baseOf (files.take (j + 1)) := by
  induction files using reverseRecOn with
  | nil => exact absurd (hlo.trans_lt hhi) (by simp [baseOf])
  | append_singleton files f ih =>
    by_cases hold : b < baseOf files
    · obtain ⟨j, hj, hbase, hend⟩ := ih hold
      have hlen : files.length ≤ (files ++ [f]).length := by simp
      refine ⟨j, hj.trans_le hlen, ?_, ?_⟩
      · rwa [take_append_of_le_length hj.le]
      · rwa [take_append_of_le_length hj]
    · refine ⟨files.length, by simp, ?_, ?_⟩
      · rw [take_left]
        exact not_lt.mp hold
      · rwa [take_of_length_le (by simp)]

/-- The block `b` in terms of the layout: the root directory, block `n` of file
`j`, or its table. -/
inductive Places (files : List HostFile) : ℕ → Ref → ℕ → Prop
  | root : Places files 1 (.data 0) 11
  | data {j n : ℕ} (hj : j < files.length) (hn : n < nBlks files[j].data.length) :
      Places files (j + 2) (.data n) (place (baseOf (files.take j)) n)
  | table {j : ℕ} (hj : j < files.length) (hn : 12 < nBlks files[j].data.length) :
      Places files (j + 2) .table (baseOf (files.take j) + 13)

namespace Places

variable {files : List HostFile} {ino ino' b : ℕ} {ref ref' : Ref}

theorem bounds (h : Places files ino ref b) : (ino = 1 ∧ ref = .data 0 ∧ b = 11) ∨ ∃ j < files.length, ino =
    j + 2 ∧ baseOf (files.take j) ≤ b ∧ b < baseOf (files.take (j + 1)) ∧
    ((∃ n, ref = .data n ∧ place (baseOf (files.take j)) n = b) ∨
    (ref = .table ∧ b = baseOf (files.take j) + 13)) := by
  cases h with
  | root => exact Or.inl ⟨rfl, rfl, rfl⟩
  | @data j n hj hn =>
    refine Or.inr ⟨j, hj, rfl, place_ge _ _, ?_, Or.inl ⟨n, rfl, rfl⟩⟩
    rw [baseOf_take_succ hj]
    exact place_lt hn
  | @table j hj hn =>
    have hused : usedBlks (nBlks files[j].data.length) = nBlks files[j].data.length + 1 :=
      if_pos hn
    refine Or.inr ⟨j, hj, rfl, Nat.le_add_right _ _, ?_, Or.inr ⟨rfl, rfl⟩⟩
    rw [baseOf_take_succ hj]
    omega

theorem lt_baseOf (h : Places files ino ref b) : 11 ≤ b ∧ b < baseOf files := by
  have hbase := le_baseOf files
  rcases h.bounds with ⟨-, -, rfl⟩ | ⟨j, -, -, hlo, hhi, -⟩
  · omega
  · have hstart := le_baseOf (files.take j)
    have hend := baseOf_take_le files (j + 1)
    omega

theorem unique (h : Places files ino ref b) (h' : Places files ino' ref' b) : ino = ino' ∧ ref = ref' := by
  rcases h.bounds with ⟨rfl, rfl, rfl⟩ | ⟨j, -, rfl, hlo, hhi, hkind⟩ <;>
    rcases h'.bounds with ⟨rfl, rfl, hb⟩ | ⟨j', -, rfl, hlo', hhi', hkind'⟩
  · exact ⟨rfl, rfl⟩
  · have hstart := le_baseOf (files.take j')
    omega
  · have hstart := le_baseOf (files.take j)
    omega
  · have hjj : j = j' := by
      by_contra hne
      rcases Nat.lt_or_gt_of_ne hne with hlt | hlt
      · have hmono := baseOf_take_mono files (show j + 1 ≤ j' from hlt)
        omega
      · have hmono := baseOf_take_mono files (show j' + 1 ≤ j from hlt)
        omega
    subst hjj
    refine ⟨rfl, ?_⟩
    rcases hkind with ⟨n, rfl, hn⟩ | ⟨rfl, hb⟩ <;> rcases hkind' with ⟨n', rfl, hn'⟩ | ⟨rfl, hb'⟩
    · rw [Mkfs.place_injective (hn.trans hn'.symm)]
    · exact absurd (hn.trans hb') (Mkfs.place_ne_table _ _)
    · exact absurd (hn'.trans hb) (Mkfs.place_ne_table _ _)
    · rfl

theorem exists_of_lt (hlo : 11 ≤ b) (hhi : b < baseOf files) : ∃ ino ref, Places files ino ref b := by
  by_cases hroot : b = 11
  · exact ⟨1, .data 0, hroot ▸ .root⟩
  obtain ⟨j, hj, hbase, hend⟩ := exists_file_of_lt (by omega) hhi
  rw [baseOf_take_succ hj] at hend
  have hused : b - baseOf (files.take j) < usedBlks (nBlks files[j].data.length) := by omega
  unfold usedBlks at hused
  by_cases htab : b = baseOf (files.take j) + 13
  · refine ⟨j + 2, .table, htab ▸ .table hj ?_⟩
    split_ifs at hused <;> omega
  · -- in front of the table or behind it
    by_cases hfar : baseOf (files.take j) + 13 < b
    · have hplace : place (baseOf (files.take j)) (b - baseOf (files.take j) - 1) = b := by
        unfold place
        split_ifs <;> omega
      have hn : b - baseOf (files.take j) - 1 < nBlks files[j].data.length := by
        split_ifs at hused <;> omega
      have hdata := Places.data hj hn
      rw [hplace] at hdata
      exact ⟨_, _, hdata⟩
    · have hplace : place (baseOf (files.take j)) (b - baseOf (files.take j)) = b := by
        unfold place
        split_ifs <;> omega
      have hn : b - baseOf (files.take j) < nBlks files[j].data.length := by
        split_ifs at hused <;> omega
      have hdata := Places.data hj hn
      rw [hplace] at hdata
      exact ⟨_, _, hdata⟩

end Places

section Image

variable {files : List HostFile} {img : Bytes}

theorem ImageOf.places (h : ImageOf files img) {ino b : ℕ} {ref : Ref} (hino : ino < 320)
    (hb : RefersAt (imgStore img) (diskDinode (imgStore img) ino) ref b) : Places files ino ref b := by
  rcases h.dinode_cases hino with ⟨rfl, hd⟩ | ⟨j, hj, rfl, hd⟩ | ⟨-, hd⟩
  · rw [hd] at hb
    cases ref with
    | data n =>
      obtain ⟨hn, hp, h0⟩ := hb
      rw [h.ptr_root hn] at hp
      split_ifs at hp with hzero
      · subst hzero hp
        exact .root
      · exact absurd hp.symm h0
    | table =>
      exfalso
      obtain ⟨htab, hnz | ⟨n, h12, hn, hp⟩⟩ := hb
      · exact hnz htab.symm
      · rw [h.ptr_root hn, if_neg (by omega)] at hp
        exact hp rfl
  · rw [hd] at hb
    cases ref with
    | data n =>
      obtain ⟨hn, hp, h0⟩ := hb
      rw [h.ptr_file hj hn] at hp
      split_ifs at hp with hlt
      · exact hp ▸ .data hj hlt
      · exact absurd hp.symm h0
    | table =>
      obtain ⟨htab, hused⟩ := hb
      rw [h.indir_file hj] at htab
      split_ifs at htab with h12
      · exact htab ▸ .table hj h12
      · exfalso
        rcases hused with hnz | ⟨n, hn12, hn, hp⟩
        · exact hnz htab.symm
        · rw [h.ptr_file hj hn, if_neg (by omega)] at hp
          exact hp rfl
  · exfalso
    rw [hd] at hb
    cases ref with
    | data n =>
      obtain ⟨hn, hp, h0⟩ := hb
      exact h0 (hp.symm.trans (h.ptr_zero hn))
    | table =>
      obtain ⟨htab, hnz | ⟨n, -, hn, hp⟩⟩ := hb
      · exact hnz htab.symm
      · exact hp (h.ptr_zero hn)

theorem ImageOf.refersAt (h : ImageOf files img) {ino b : ℕ} {ref : Ref} (hp : Places files ino ref b) :
    RefersAt (imgStore img) (diskDinode (imgStore img) ino) ref b := by
  have hpos := hp.lt_baseOf
  cases hp with
  | root =>
    rw [h.dinode_root]
    exact ⟨by norm_num, by rw [h.ptr_root (by norm_num), if_pos rfl], by norm_num⟩
  | @data j n hj hn =>
    have hsize := h.size j hj
    have hn' : n < 1036 := by unfold nBlks at hn; omega
    rw [h.dinode_file hj]
    exact ⟨hn', by rw [h.ptr_file hj hn', if_pos hn], by omega⟩
  | @table j hj hn =>
    rw [h.dinode_file hj]
    exact ⟨by rw [h.indir_file hj, if_pos hn], Or.inl (by omega)⟩

theorem Stored.of_mounted (h : ImageOf files img) {ino : ℕ} {d : Dinode}
    (hd : Stored (mounted img files.length) ino d) : ino < 320 ∧ d = diskDinode (imgStore img) ino := by
  rcases hd.setSlot with (hdisk | ⟨k, hvalid, -, -⟩) | ⟨-, rfl, rfl⟩
  · exact hdisk
  · exact absurd hvalid (by simp [inodeInit])
  · exact ⟨by norm_num, h.dinode_root.symm⟩

theorem ImageOf.owned (h : ImageOf files img) :
    Owned (imgStore img) (Stored (mounted img files.length)) := by
  constructor
  · intro ino d ref b hd hb
    obtain ⟨hino, rfl⟩ := Stored.of_mounted h hd
    obtain ⟨hlo, hhi⟩ := (h.places hino hb).lt_baseOf
    have hmax := h.blks_le
    exact ⟨hlo, show b < 2048 by omega, by rw [h.dataBit hlo (by omega), decide_eq_true hhi]⟩
  · intro ino d ref ino' d' ref' b hd hb hd' hb'
    obtain ⟨hino, rfl⟩ := Stored.of_mounted h hd
    obtain ⟨hino', rfl⟩ := Stored.of_mounted h hd'
    exact (h.places hino hb).unique (h.places hino' hb')

theorem ImageOf.fsInv (h : ImageOf files img) : FsInv (mounted img files.length) := by
  have hcached : ∀ {P : Inode → Prop}, P ⟨0, 2 ^ 32 - 1, false, false, Dinode.zero⟩ →
      P ⟨1, 1, false, true, rootDinode files.length⟩ →
      ∀ k, P ((mounted img files.length).islots k) :=
    fun hfree hroot => Filesys.forall_setSlot (fun _ => hfree) hroot
  refine ⟨h.owned.apart superblock_wellFormed, show nbInodes superblock < 2 ^ 31 by decide,
    ?_, ?_, ?_⟩
  · exact hcached (P := fun i => i.valid = true → i.ino < nbInodes superblock) (by simp)
      fun _ => show 1 < nbInodes superblock by decide
  · exact hcached (P := fun i => i.valid = true → i.content.nblink ≠ 0) (by simp)
      fun _ => by simp [rootDinode, Mkfs.rootDi]
  · refine hcached (P := fun i => i.ino < nbInodes superblock →
      (diskDinode (imgStore img) i.ino).nblink ≠ 0) ?_ ?_
    · exact fun hlt => absurd hlt (by decide)
    · intro _
      rw [h.dinode_root]
      simp [rootDinode, Mkfs.rootDi]

theorem ImageOf.freeBlks (h : ImageOf files img) :
    freeBlks (imgStore img) = Finset.Ico (baseOf files) 2048 := by
  have hbase := le_baseOf files
  have hmax := h.blks_le
  ext b
  simp only [Fs.freeBlks, Finset.mem_filter, Finset.mem_Ico]
  change (11 ≤ b ∧ b < 2048) ∧ _ ↔ _
  constructor
  · rintro ⟨⟨hlo, hhi⟩, hclear⟩
    rw [h.dataBit hlo hhi, decide_eq_false_iff_not] at hclear
    omega
  · rintro ⟨hlo, hhi⟩
    refine ⟨⟨by omega, hhi⟩, ?_⟩
    rw [h.dataBit (by omega) hhi, decide_eq_false_iff_not]
    omega

end Image

end RvMiniOs.Fs
