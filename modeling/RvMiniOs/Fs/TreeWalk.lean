import RvMiniOs.Fs.Names

/-!
# Paths and the directory tree

The reference for a lookup without `O_CREAT`: the path is cut at its slashes, and from
the root on each part leads to the inode number of the first entry in use that has its
name. `fs_inode_from_path` walks the same way through the inode cache, with a reference
to the directory it is in and, while it looks a name up, one to the inode it finds.
-/

namespace RvMiniOs.Fs

open Lib Function List Option Filesys

def components (path : List UInt8) : List (List UInt8) := (path.splitOn 47).filter (· ≠ [])

def entryName (entry : Bytes) : List UInt8 := ((List.range maxname).map entry).takeWhile (· ≠ 0)

def dirFind (s : Store) (d : Dinode) (name : List UInt8) : Except ℤ ℕ :=
  if d.type ≠ .directory then .error (-enotdir)
  else
    match (List.range (d.size.toNat / sizeofDirent)).find? fun e =>
        entryInum s d e ≠ 0 ∧ entryName (dirEntry s d e) = name with
    | some e => .ok (entryInum s d e)
    | none => .error (-enoent)

def inodeOf (fs : Filesys) (ino : ℕ) : Dinode :=
  match cacheRequestLocked fs ino with
  | some k => effective fs k
  | none => diskDinode fs.store ino

def child (fs : Filesys) (dir : ℕ) (name : List UInt8) : Except ℤ ℕ :=
  dirFind fs.store (inodeOf fs dir) name

def descend (fs : Filesys) (dir : ℕ) (names : List (List UInt8)) : Except ℤ ℕ :=
  names.foldlM (child fs) dir

def resolvePath (fs : Filesys) (path : List UInt8) : Except ℤ ℕ :=
  if path.head? ≠ some 47 then .error (-einval)
  else descend fs (fs.islots fs.root).ino (components path)

theorem descend_of_child {fs : Filesys} {dir ino : ℕ} {name : List UInt8} {names : List (List UInt8)}
    (h : child fs dir name = .ok ino) : descend fs dir (name :: names) = descend fs ino names := by
  rw [descend, foldlM_cons, h]
  rfl

theorem descend_of_error {fs : Filesys} {dir : ℕ} {e : ℤ} {name : List UInt8} {names : List (List UInt8)}
    (h : child fs dir name = .error e) : descend fs dir (name :: names) = .error e := by
  rw [descend, foldlM_cons, h]
  rfl

section Parts

variable {token rest : List UInt8}

def holderParts : Option (List UInt8) → List (List UInt8)
  | none => []
  | some s => components s

theorem components_of_plain (h : ∀ c ∈ token, c ≠ 47) : components token = [token].filter (· ≠ []) := by
  unfold components splitOn
  rw [splitOnP_eq_singleton fun c hc => beq_eq_false_iff_ne.mpr (h c hc)]

theorem components_append (h : ∀ c ∈ token, c ≠ 47) :
    components (token ++ 47 :: rest) = [token].filter (· ≠ []) ++ components rest := by
  rw [← components_of_plain h]
  unfold components splitOn
  rw [splitOnP_append_cons token rest (by decide), filter_append]

theorem holderParts_strsep (s : List UInt8) : ∃ token, (strsep (some s)).1 = some token ∧
    holderParts (some s) = [token].filter (· ≠ []) ++ holderParts (strsep (some s)).2 := by
  have hplain : ∀ c ∈ s.takeWhile (· ≠ 47), c ≠ 47 := by
    intro c hc
    have hall := all_eq_true.mp (all_takeWhile (p := fun c : UInt8 => decide (c ≠ 47)) (l := s)) c hc
    simpa using hall
  refine ⟨s.takeWhile (· ≠ 47), rfl, ?_⟩
  have happ := takeWhile_append_dropWhile (p := fun c : UInt8 => decide (c ≠ 47)) (l := s)
  unfold strsep
  rcases hdrop : s.dropWhile (· ≠ 47) with _ | ⟨c, rest⟩
  · rw [hdrop, append_nil] at happ
    simp only [holderParts, hdrop]
    rw [append_nil, ← components_of_plain hplain, happ]
  · have hc : c = 47 := by
      have hhead := head?_dropWhile_not (fun c : UInt8 => decide (c ≠ 47)) s
      rw [hdrop] at hhead
      simpa using hhead
    rw [hdrop, hc] at happ
    simp only [holderParts, hdrop]
    rw [← components_append hplain, happ]

theorem holderParts_strtok (holder : Option (List UInt8)) : holderParts holder = (strtok holder).1.toList ++
    holderParts (strtok holder).2 ∧ ((strtok holder).1 = none → holderParts holder = []) := by
  fun_induction strtok holder with
  | case1 => exact ⟨rfl, fun _ => rfl⟩
  | case2 s r hempty ih =>
    obtain ⟨token, htoken, hparts⟩ := holderParts_strsep s
    rw [htoken] at hempty
    rw [hparts, some.inj hempty]
    exact ih
  | case3 s r hne =>
    obtain ⟨token, htoken, hparts⟩ := holderParts_strsep s
    have hne' : token ≠ [] := fun heq => hne (by rw [← heq]; exact htoken)
    refine ⟨?_, fun hnone => ?_⟩
    · rw [hparts, show r.1 = some token from htoken, filter_cons_of_pos (by simp [hne'])]
      rfl
    · rw [htoken] at hnone
      cases hnone

theorem mem_of_mem_splitOnP {p : UInt8 → Bool} {path part : List UInt8} (h : part ∈ path.splitOnP p)
    {c : UInt8} (hc : c ∈ part) : c ∈ path := by
  induction path generalizing part with
  | nil =>
    rw [splitOnP_nil, mem_singleton] at h
    exact h ▸ hc
  | cons a path ih =>
    rw [splitOnP_cons_eq_if_modifyHead] at h
    split_ifs at h with hp
    · rcases mem_cons.mp h with rfl | hmem
      · cases hc
      · exact mem_cons_of_mem a (ih hmem hc)
    · rcases hparts : path.splitOnP p with _ | ⟨first, others⟩
      · rw [hparts] at h
        cases h
      · rw [hparts] at h ih
        rcases mem_cons.mp h with rfl | hmem
        · rcases mem_cons.mp hc with rfl | hc'
          · exact mem_cons_self
          · exact mem_cons_of_mem a (ih mem_cons_self hc')
        · exact mem_cons_of_mem a (ih (mem_cons_of_mem first hmem) hc)

theorem nul_notMem_components {path part : List UInt8} (hpath : 0 ∉ path) (h : part ∈ components path) :
    0 ∉ part :=
  fun hc => hpath (mem_of_mem_splitOnP (mem_of_mem_filter h) hc)

end Parts

section Entries

variable {s s' : Store} {d d' : Dinode} {name : List UInt8}

theorem entryName_eq {entry : Bytes} {len : ℕ} (hlen : len < maxname) (hnul : entry len = 0)
    (hpre : ∀ k < len, entry k ≠ 0) : entryName entry = (range len).map entry := by
  have hsplit : range maxname = range len ++ range' len (maxname - len) := by
    rw [range_eq_range', range_eq_range']
    have happ := range'_append_1 (s := 0) (m := len) (n := maxname - len)
    rw [Nat.zero_add, Nat.add_sub_cancel' hlen.le] at happ
    exact happ.symm
  obtain ⟨m, hm⟩ := Nat.exists_eq_add_of_lt hlen
  have htail : range' len (maxname - len) = len :: range' (len + 1) m := by
    rw [show maxname - len = m + 1 by omega, range'_succ]
  unfold entryName
  rw [hsplit, htail, map_append, map_cons, takeWhile_append_of_pos]
  · rw [takeWhile_cons_of_neg (by simp [hnul]), append_nil]
  · intro c hc
    obtain ⟨k, hk, rfl⟩ := mem_map.mp hc
    exact decide_eq_true (hpre k (mem_range.mp hk))

theorem entryName_congr {entry entry' : Bytes} (h : ∀ k < 20, entry' k = entry k) :
    entryName entry' = entryName entry := by
  unfold entryName
  rw [map_congr_left fun k hk => h k (by
    have hlt := mem_range.mp hk
    simp only [maxname] at hlt
    omega)]

theorem strncmp_eq_zero_iff_entryName {entry : Bytes} (hnul : ∃ k < maxname, entry k = 0)
    (hname : 0 ∉ name) : strncmp entry (listBytes name) maxname = 0 ↔ entryName entry = name := by
  obtain ⟨hlen, hzero⟩ := Nat.find_spec hnul
  have hpre : ∀ k < Nat.find hnul, entry k ≠ 0 := fun k hk h0 =>
    Nat.find_min hnul hk ⟨hk.trans hlen, h0⟩
  rw [entryName_eq hlen hzero hpre, strncmp_eq_zero_iff]
  constructor
  · intro h
    have hat : ∀ k ≤ Nat.find hnul, entry k = name.getD k 0 := fun k hk =>
      h k (hk.trans_lt hlen) fun j hj => hpre j (hj.trans_le hk)
    -- the name is as long as the field says
    have hle : name.length ≤ Nat.find hnul := by
      by_contra hlt
      rw [not_le] at hlt
      have h0 := (hat _ le_rfl).symm.trans hzero
      rw [getD_eq_getElem _ _ hlt] at h0
      exact hname (h0 ▸ getElem_mem hlt)
    have hge : Nat.find hnul ≤ name.length := by
      by_contra hlt
      rw [not_le] at hlt
      refine hpre _ hlt ?_
      rw [hat _ hlt.le, getD_eq_default _ _ le_rfl]
    refine ext_getElem (by simp [le_antisymm hge hle]) fun k hk hk' => ?_
    simp only [length_map, length_range] at hk
    rw [getElem_map, getElem_range, hat k hk.le, getD_eq_getElem _ _ hk']
  · intro h k hk hk'
    have hle : k ≤ Nat.find hnul := by
      by_contra hlt
      exact hk' _ (not_le.mp hlt) hzero
    rw [← h]
    rcases hle.lt_or_eq with hlt | rfl
    · simp [listBytes, hlt]
    · simp [listBytes, hzero]

theorem named_iff (hgood : ∀ e, sizeofDirent * e < d.size.toNat → GoodEntry s (dirEntry s d e))
    (hname : 0 ∉ name) {e : ℕ} (he : 20 * e < d.size.toNat) :
    Named s d name e ↔ entryInum s d e ≠ 0 ∧ entryName (dirEntry s d e) = name := by
  unfold Named
  refine and_congr_right fun hused => strncmp_eq_zero_iff_entryName ?_ hname
  exact (hgood e he hused).1

theorem dirFind_of_first (hdir : d.type = .directory) (hsize : sizeofDirent ∣ d.size.toNat) {e : ℕ}
    (he : 20 * e < d.size.toNat) (hused : entryInum s d e ≠ 0) (hname : entryName (dirEntry s d e) = name)
    (hfirst : ∀ e' < e, ¬ (entryInum s d e' ≠ 0 ∧ entryName (dirEntry s d e') = name)) : dirFind s d name =
    .ok (entryInum s d e) := by
  have hfind : ((range (d.size.toNat / sizeofDirent)).find? fun e =>
      entryInum s d e ≠ 0 ∧ entryName (dirEntry s d e) = name) = some e := by
    rw [find?_range_eq_some]
    refine ⟨by simp [hused, hname], ?_, fun e' he' => by rw [decide_eq_false (hfirst e' he')]; rfl⟩
    obtain ⟨q, hq⟩ := hsize
    rw [mem_range]
    simp only [sizeofDirent] at hq ⊢
    omega
  unfold dirFind
  rw [if_neg (not_not.mpr hdir), hfind]

theorem dirFind_of_none (hdir : d.type = .directory)
    (hnone : ∀ e, 20 * e < d.size.toNat → ¬ (entryInum s d e ≠ 0 ∧ entryName (dirEntry s d e) = name)) :
    dirFind s d name = .error (-enoent) := by
  have hfind : ((range (d.size.toNat / sizeofDirent)).find? fun e =>
      entryInum s d e ≠ 0 ∧ entryName (dirEntry s d e) = name) = none := by
    rw [find?_eq_none]
    intro e he
    have hlt := mem_range.mp he
    simp only [sizeofDirent] at hlt
    simpa using hnone e (by omega)
  unfold dirFind
  rw [if_neg (not_not.mpr hdir), hfind]

theorem dirFind_of_file (hdir : d.type ≠ .directory) : dirFind s d name = .error (-enotdir) := by
  unfold dirFind
  rw [if_pos hdir]

theorem dirFind_cases (name : List UInt8) (hdir : d.type = .directory) (hsize : sizeofDirent ∣ d.size.toNat) :
    (∃ e, 20 * e < d.size.toNat ∧ entryInum s d e ≠ 0 ∧ entryName (dirEntry s d e) = name ∧
      (∀ e' < e, ¬ (entryInum s d e' ≠ 0 ∧ entryName (dirEntry s d e') = name)) ∧
      dirFind s d name = .ok (entryInum s d e)) ∨
    ((∀ e, 20 * e < d.size.toNat → ¬ (entryInum s d e ≠ 0 ∧ entryName (dirEntry s d e) = name)) ∧
      dirFind s d name = .error (-enoent)) := by
  by_cases hsome : ∃ e, 20 * e < d.size.toNat ∧ entryInum s d e ≠ 0 ∧ entryName (dirEntry s d e) = name
  · classical
    obtain ⟨he, hused, hname⟩ := Nat.find_spec hsome
    have hfirst : ∀ e' < Nat.find hsome,
        ¬ (entryInum s d e' ≠ 0 ∧ entryName (dirEntry s d e') = name) := fun e' he' hn =>
      Nat.find_min hsome he' ⟨by omega, hn⟩
    exact .inl ⟨_, he, hused, hname, hfirst, dirFind_of_first hdir hsize he hused hname hfirst⟩
  · rw [not_exists] at hsome
    have hnone : ∀ e, 20 * e < d.size.toNat →
        ¬ (entryInum s d e ≠ 0 ∧ entryName (dirEntry s d e) = name) := fun e he hn => hsome e ⟨he, hn⟩
    exact .inr ⟨hnone, dirFind_of_none hdir hnone⟩

theorem SameDir.dirFind (h : SameDir s d s' d') (hsize : d.type = .directory → sizeofDirent ∣ d.size.toNat) :
    dirFind s' d' name = dirFind s d name := by
  by_cases hdir : d.type = .directory
  · have hentry : ∀ {e}, 20 * e < d.size.toNat → ∀ k < 20, dirEntry s' d' e k = dirEntry s d e k :=
      fun he k hk => h.entry (hsize hdir) he hk
    have hdir' : d'.type = .directory := h.type.trans hdir
    rcases dirFind_cases name hdir (hsize hdir) with ⟨e, he, hused, hname, hfirst, hfind⟩ | ⟨hnone, hfind⟩
    · rw [hfind, ← entryInum_congr (hentry he)]
      refine dirFind_of_first hdir' (by rw [h.size]; exact hsize hdir) (by rw [h.size]; exact he) ?_ ?_ ?_
      · rw [entryInum_congr (hentry he)]
        exact hused
      · rw [entryName_congr (hentry he)]
        exact hname
      · intro e' he'
        have hlt : 20 * e' < d.size.toNat := by omega
        rw [entryInum_congr (hentry hlt), entryName_congr (hentry hlt)]
        exact hfirst e' he'
    · rw [hfind]
      refine dirFind_of_none hdir' fun e he => ?_
      rw [h.size] at he
      rw [entryInum_congr (hentry he), entryName_congr (hentry he)]
      exact hnone e he
  · rw [dirFind_of_file hdir, dirFind_of_file (by rw [h.type]; exact hdir)]

end Entries

structure WellFormedTree (fs : Filesys) : Prop where
  dirs : ∀ ino d, Stored fs ino d → d.type = .directory → WellFormedDir fs.store d
  mapped : ∀ ino d, Stored fs ino d → d.type = .directory → d.size.toNat ≤ fsMaxFileSize ∧
    ∀ n, 4096 * n < d.size.toNat → IsBlk (ptr fs.store d n)
  same : ∀ ino d d', Stored fs ino d → Stored fs ino d' →
    d'.type = d.type ∧ (d.type = .directory → SameDir fs.store d fs.store d')
  linked : ∀ ino d, Stored fs ino d →
    ino = (fs.islots fs.root).ino ∨ ino ≠ 0 ∧ inodeBit fs.store ino = true → d.nblink ≠ 0
  rooted : (fs.islots fs.root).ino < nbInodes fs.store.sb

structure AtRest (fs : Filesys) : Prop where
  unlocked : ∀ k, (fs.islots k).locked = false
  counted : ∀ k, 0 ≤ (fs.islots k).refcnt
  listed : ∀ k, k ∈ fs.icache
  ino_lt : ∀ k, (fs.islots k).valid = true → (fs.islots k).ino < nbInodes fs.store.sb

def InTree (fs : Filesys) (ino : ℕ) : Prop :=
  ino < nbInodes fs.store.sb ∧
    (ino = (fs.islots fs.root).ino ∨ ino ≠ 0 ∧ inodeBit fs.store ino = true)

section Tree

variable {fs : Filesys} {ino : ℕ} {d d' : Dinode} {name : List UInt8}

theorem stored_inodeOf (hlt : ino < nbInodes fs.store.sb) : Stored fs ino (inodeOf fs ino) := by
  unfold inodeOf
  rcases hreq : cacheRequestLocked fs ino with _ | k
  · exact .inl ⟨hlt, rfl⟩
  · have hino := cacheRequestLocked_eq_some hreq
    have hstored : Stored fs (fs.islots k).ino (effective fs k) := Stored.effective fun _ => hino ▸ hlt
    exact hino ▸ hstored

theorem WellFormedTree.child_eq (h : WellFormedTree fs) (hlt : ino < nbInodes fs.store.sb)
    (hd : Stored fs ino d) : child fs ino name = dirFind fs.store d name := by
  obtain ⟨htype, hsame⟩ := h.same ino d _ hd (stored_inodeOf hlt)
  unfold child
  by_cases hdir : d.type = .directory
  · exact (hsame hdir).dirFind fun _ => (h.dirs ino d hd hdir).size
  · rw [dirFind_of_file hdir, dirFind_of_file (by rw [htype]; exact hdir)]

theorem WellFormedTree.holds (h : WellFormedTree fs) (hd : Stored fs ino d) (hdir : d.type = .directory) :
    Holds fs.store d d.size.toNat (fileByte fs.store d) := by
  intro k hk
  obtain ⟨h0, hlt⟩ := (h.mapped ino d hd hdir).2 (k / 4096) (by omega)
  exact ⟨Nat.pos_of_ne_zero h0, hlt, rfl⟩

theorem WellFormedTree.inTree_entry (h : WellFormedTree fs) (hd : Stored fs ino d)
    (hdir : d.type = .directory) {e : ℕ} (he : 20 * e < d.size.toNat) (hused : entryInum fs.store d e ≠ 0) :
    InTree fs (entryInum fs.store d e) := by
  obtain ⟨-, hlt, hbit⟩ := (h.dirs ino d hd hdir).entries e he hused
  exact ⟨hlt, .inr ⟨hused, hbit⟩⟩

theorem DirInv.wellFormedTree (h : DirInv fs) : WellFormedTree fs where
  dirs := fun ino d hd hdir => (h.dirs ino d hd hdir).toWellFormedDir
  mapped := by
    intro ino d hd hdir
    have hsound := h.dirs ino d hd hdir
    have hmax := h.size_le hsound
    refine ⟨?_, hsound.mapped⟩
    simp only [fsMaxFileSize, fsInodeDirDblkno, fsInodeIndirDblkno, fsBlkSize]
    omega
  same := fun ino d d' hd hd' => ⟨(h.twins ino d d' hd hd').1, fun hdir => h.same hd hd' hdir⟩
  linked := by
    rintro ino d (⟨hlt, rfl⟩ | ⟨k, hv, -, rfl⟩) hin
    · rcases hin with rfl | ⟨h0, hbit⟩
      · exact h.disk_linked fs.root hlt
      · exact h.entered ino hlt h0 hbit
    · exact h.linked k hv
  rooted := h.rooted

end Tree

structure Follows (fs₀ fs : Filesys) (extra : Fin inodeCacheSize → ℕ) (held : Option (Fin inodeCacheSize)) :
    Prop where
  store : fs.store = fs₀.store
  stored : ∀ ino d, Stored fs ino d → Stored fs₀ ino d
  locked : ∀ k, (fs.islots k).locked = decide (held = some k)
  listed : ∀ k, k ∈ fs.icache
  refcnt : ∀ k, (fs.islots k).refcnt = (fs₀.islots k).refcnt + extra k
  kept : ∀ k, (fs₀.islots k).refcnt ≠ 0 → (fs.islots k).ino = (fs₀.islots k).ino

namespace Follows

variable {fs₀ fs fs' : Filesys} {extra : Fin inodeCacheSize → ℕ} {held : Option (Fin inodeCacheSize)}
  {k : Fin inodeCacheSize} {ino : ℕ} {stack : Bytes} {name : List UInt8}

theorem refl (h : AtRest fs) : Follows fs fs (fun _ => 0) none :=
  ⟨rfl, fun _ _ hd => hd, h.unlocked, h.listed, fun k => by simp, fun _ _ => rfl⟩

theorem setSlot (h : Follows fs₀ fs extra held) {i : Inode} {extra' : Fin inodeCacheSize → ℕ}
    {held' : Option (Fin inodeCacheSize)} (hcount : i.refcnt = (fs₀.islots k).refcnt + extra' k)
    (hextra : ∀ j ≠ k, extra' j = extra j) (hkept : (fs₀.islots k).refcnt ≠ 0 → i.ino = (fs₀.islots k).ino)
    (hcontent : i.valid = true → Stored fs i.ino i.content) (hlock : i.locked = decide (held' = some k))
    (hothers : ∀ j ≠ k, (held' = some j ↔ held = some j)) : Follows fs₀ (fs.setSlot k i) extra' held' where
  store := h.store
  stored := by
    rintro ino d (hdisk | ⟨j, hv, hj, hd⟩)
    · exact h.stored ino d (.inl hdisk)
    · by_cases hjk : j = k
      · rw [hjk, setSlot_self] at hv hj hd
        rw [← hj, ← hd]
        exact h.stored _ _ (hcontent hv)
      · rw [setSlot_ne i hjk] at hv hj hd
        exact h.stored ino d (.inr ⟨j, hv, hj, hd⟩)
  locked := by
    intro j
    by_cases hjk : j = k
    · rw [hjk, setSlot_self, hlock]
    · rw [setSlot_ne i hjk, h.locked j, decide_eq_decide]
      exact (hothers j hjk).symm
  listed := h.listed
  refcnt := by
    intro j
    by_cases hjk : j = k
    · rw [hjk, setSlot_self, hcount]
    · rw [setSlot_ne i hjk, hextra j hjk]
      exact h.refcnt j
  kept := by
    intro j hj
    by_cases hjk : j = k
    · rw [hjk, setSlot_self]
      exact hkept (hjk ▸ hj)
    · rw [setSlot_ne i hjk]
      exact h.kept j hj

theorem reorder (h : Follows fs₀ fs extra held) {cache : List (Fin inodeCacheSize)}
    (hall : ∀ k, k ∈ cache) : Follows fs₀ { fs with icache := cache } extra held :=
  ⟨h.store, h.stored, h.locked, hall, h.refcnt, h.kept⟩

theorem lock (h : Follows fs₀ fs extra none) (hlt : (fs.islots k).ino < nbInodes fs.store.sb) :
    inodeLock fs k = some (0, fs.setSlot k (lockedSlot fs k)) ∧
      Follows fs₀ (fs.setSlot k (lockedSlot fs k)) extra (some k) := by
  have hfree : (fs.islots k).locked = false := (h.locked k).trans (by simp)
  refine ⟨?_, h.setSlot (h.refcnt k) (fun _ _ => rfl) (h.kept k) (fun _ => Stored.effective fun _ => hlt)
    (by simp [lockedSlot]) fun j hj => ?_⟩
  · by_cases hvalid : (fs.islots k).valid = true
    · rw [inodeLock_of_valid hfree hvalid]
      simp [lockedSlot, effective, hvalid]
    · rw [Bool.not_eq_true] at hvalid
      rw [inodeLock_of_invalid hfree hvalid hlt]
      simp [lockedSlot, effective, hvalid]
  · simp [Ne.symm hj]

theorem unlock (h : Follows fs₀ fs extra (some k)) : Follows fs₀ (inodeUnlock fs k) extra none :=
  h.setSlot (h.refcnt k) (fun _ _ => rfl) (h.kept k) (fun hv => .inr ⟨k, hv, rfl, rfl⟩) (by simp)
    fun j hj => by simp [Ne.symm hj]

theorem bump_self (r : Fin inodeCacheSize → ℕ) (k : Fin inodeCacheSize) : bump r k k = r k + 1 :=
  update_self ..

theorem bump_of_ne {r : Fin inodeCacheSize → ℕ} {k j : Fin inodeCacheSize} (h : j ≠ k) : bump r k j = r j :=
  update_of_ne h ..

theorem get (h : Follows fs₀ fs extra held) (hrest : AtRest fs₀) (hfree : ∃ j, (fs.islots j).refcnt = 0)
    (ino : ℕ) : ∃ k fs', inodeGet fs ino = some (k, fs') ∧ Follows fs₀ fs' (bump extra k) held ∧
    (fs'.islots k).ino = ino ∧ ∀ j, (fs.islots j).refcnt ≠ 0 → (fs'.islots j).ino = (fs.islots j).ino := by
  rcases hreq : cacheRequestLocked fs ino with _ | k
  · -- a slot without references is reused
    obtain ⟨j, hj⟩ := hfree
    rcases hreuse : findReusableLocked fs with _ | k
    · have hnone := find?_eq_none.mp hreuse j (mem_reverse.mpr (h.listed j))
      exact absurd hj (by simpa using hnone)
    have hk := findReusableLocked_eq_some hreuse
    have hcount := h.refcnt k
    have hpos := hrest.counted k
    refine ⟨k, _, inodeGet_miss hreq hreuse, h.setSlot ?_ (fun j hj => bump_of_ne hj) (fun h0 => ?_)
      (fun hv => (nomatch hv)) (h.locked k) fun _ _ => Iff.rfl, by rw [setSlot_self], fun j hj => ?_⟩
    · rw [bump_self]
      push_cast
      omega
    · omega
    · have hjk : j ≠ k := fun heq => hj (heq ▸ hk)
      rw [setSlot_ne _ hjk]
  · have hino := cacheRequestLocked_eq_some hreq
    have hall : ∀ j, j ∈ k :: fs.icache.erase k := by
      intro j
      by_cases hjk : j = k
      · exact mem_cons.mpr (.inl hjk)
      · exact mem_cons_of_mem k ((mem_erase_of_ne hjk).mpr (h.listed j))
    have hcount := h.refcnt k
    have hslot : Follows fs₀ (fs.setSlot k { fs.islots k with refcnt := (fs.islots k).refcnt + 1 })
        (bump extra k) held :=
      h.setSlot (by rw [bump_self]; push_cast; omega) (fun j hj => bump_of_ne hj) (h.kept k)
        (fun hv => .inr ⟨k, hv, rfl, rfl⟩) (h.locked k) fun _ _ => Iff.rfl
    have hnumber : ∀ j, ((fs.setSlot k { fs.islots k with refcnt := (fs.islots k).refcnt + 1 }).islots j).ino =
        (fs.islots j).ino := by
      intro j
      by_cases hjk : j = k
      · rw [hjk, setSlot_self]
      · rw [setSlot_ne _ hjk]
    exact ⟨k, _, inodeGet_hit hreq, hslot.reorder hall, (hnumber k).trans hino, fun j _ => hnumber j⟩

theorem put (h : Follows fs₀ fs (bump extra k) none) (htree : WellFormedTree fs₀)
    (hin : InTree fs₀ (fs.islots k).ino) : ∃ fs', inodePut fs k = some fs' ∧ Follows fs₀ fs' extra none ∧
      ∀ j, (fs'.islots j).ino = (fs.islots j).ino := by
  have hlink : (fs.islots k).valid = true → (fs.islots k).content.nblink ≠ 0 := fun hv =>
    htree.linked _ _ (h.stored _ _ (.inr ⟨k, hv, rfl, rfl⟩)) hin.2
  have hfree : (fs.islots k).locked = false := (h.locked k).trans (by simp)
  have hcount := h.refcnt k
  rw [bump_self] at hcount
  push_cast at hcount
  refine ⟨_, inodePut_of_linked hfree hlink, h.setSlot ?_ (fun j hj => (bump_of_ne hj).symm) (h.kept k)
    (fun hv => .inr ⟨k, hv, rfl, rfl⟩) (h.locked k) fun _ _ => Iff.rfl, fun j => ?_⟩
  · dsimp only
    omega
  · by_cases hjk : j = k
    · rw [hjk, setSlot_self]
    · rw [setSlot_ne _ hjk]

theorem inodeUnlock_ino (fs : Filesys) (k j : Fin inodeCacheSize) :
    ((inodeUnlock fs k).islots j).ino = (fs.islots j).ino := by
  unfold inodeUnlock
  by_cases hjk : j = k
  · rw [hjk, setSlot_self]
  · rw [setSlot_ne _ hjk]

def taken (extra : Fin inodeCacheSize → ℕ) : Except ℤ (Fin inodeCacheSize) → Fin inodeCacheSize → ℕ
  | .ok k => bump extra k
  | .error _ => extra

theorem lookup (stack : Bytes) (h : Follows fs₀ fs extra none) (htree : WellFormedTree fs₀)
    (hrest : AtRest fs₀) (hlt : (fs.islots k).ino < nbInodes fs₀.store.sb)
    (hfree : ∃ j, (fs.islots j).refcnt = 0) (hname : 0 ∉ name) : ∃ found fs', dirLookup stack fs k name =
    some (found, fs') ∧ Follows fs₀ fs' (taken extra found) none ∧ found.map (fun j => (fs'.islots j).ino) =
    child fs₀ (fs.islots k).ino name ∧ (∀ j, found = .ok j → InTree fs₀ (fs'.islots j).ino) ∧ ∀ j,
    (fs.islots j).refcnt ≠ 0 → (fs'.islots j).ino = (fs.islots j).ino := by
  obtain ⟨hlock, h₁⟩ := h.lock (k := k) (h.store ▸ hlt)
  have hself : (fs.setSlot k (lockedSlot fs k)).islots k = lockedSlot fs k := setSlot_self ..
  have hstored : Stored fs₀ (fs.islots k).ino (effective fs k) :=
    h.stored _ _ (Stored.effective fun _ => h.store ▸ hlt)
  have hnumber : ∀ j, ((fs.setSlot k (lockedSlot fs k)).islots j).ino = (fs.islots j).ino := by
    intro j
    by_cases hjk : j = k
    · rw [hjk, setSlot_self]
      rfl
    · rw [setSlot_ne _ hjk]
  have hkeep := fun j => (inodeUnlock_ino (fs.setSlot k (lockedSlot fs k)) k j).trans (hnumber j)
  rw [htree.child_eq hlt hstored]
  simp only [dirLookup, hlock, Option.bind_eq_bind, Option.bind_some, lt_irrefl, if_false, hself,
    Option.pure_def, setSlot_store]
  by_cases hdir : (effective fs k).type = .directory
  · have hdir' : ¬ (lockedSlot fs k).content.type ≠ .directory := not_not.mpr hdir
    have hwf := htree.dirs _ _ hstored hdir
    have hmax : (effective fs k).size.toNat ≤ 1036 * 4096 := (htree.mapped _ _ hstored hdir).1
    have hholds := htree.holds hstored hdir
    have hentry : ∀ e, 20 * e < (effective fs k).size.toNat → (Named fs.store (effective fs k) name e ↔
        entryInum fs₀.store (effective fs k) e ≠ 0 ∧ entryName (dirEntry fs₀.store (effective fs k) e) = name) := by
      rw [h.store]
      exact fun e he => named_iff hwf.entries hname he
    rw [← h.store] at hholds
    obtain ⟨hsame, hres⟩ := dirLookupFrom_of_holds (s := fs.store) (i := lockedSlot fs k) hwf.size hholds hmax
      name stack 0
    rw [Nat.mul_zero] at hsame hres
    -- the scan changes neither the store nor the slot
    have hback : ({ fs.setSlot k (lockedSlot fs k) with
        store := (dirLookupFrom fs.store (lockedSlot fs k) name stack 0).2.1 }.setSlot k
          (dirLookupFrom fs.store (lockedSlot fs k) name stack 0).2.2) = fs.setSlot k (lockedSlot fs k) := by
      rw [hsame]
      exact setSlot_setSlot ..
    rw [if_neg hdir', hback]
    rcases hres with ⟨e, he, hnamed, hfirst, hfound⟩ | ⟨hnone, hfound⟩
    · obtain ⟨hused, hname'⟩ := (hentry e he).mp hnamed
      have hfind := dirFind_of_first hdir hwf.size he hused hname' fun e' he' hn =>
        hfirst e' he' (Nat.zero_le e') ((hentry e' (by
          have hlt' : 20 * e < (effective fs k).size.toNat := he
          omega)).mpr hn)
      have hcount : ∀ j, ((fs.setSlot k (lockedSlot fs k)).islots j).refcnt = (fs.islots j).refcnt :=
        fun j => (h₁.refcnt j).trans (h.refcnt j).symm
      obtain ⟨j, fs₂, hget, h₂, hino, hkept⟩ := h₁.get hrest
        (hfree.imp fun j hj => (hcount j).trans hj) (entryInum fs.store (lockedSlot fs k).content e)
      have hino' : ((inodeUnlock fs₂ k).islots j).ino = entryInum fs₀.store (effective fs k) e := by
        rw [inodeUnlock_ino, hino, h.store]
        rfl
      simp only [hfound, hget, hfind, Option.bind_some]
      refine ⟨_, _, rfl, h₂.unlock, congrArg Except.ok hino', fun j' hj' => ?_, fun j' hj' => ?_⟩
      · rw [← Except.ok.inj hj', hino']
        exact htree.inTree_entry hstored hdir he hused
      · rw [inodeUnlock_ino, hkept j' (by rw [hcount]; exact hj'), hnumber]
    · have hfind := dirFind_of_none hdir fun e he hn => hnone e (Nat.zero_le e) he ((hentry e he).mpr hn)
      rw [hfound, hfind]
      exact ⟨_, _, rfl, h₁.unlock, rfl, fun j hj => (nomatch hj), fun j _ => hkeep j⟩
  · have hdir' : (lockedSlot fs k).content.type ≠ .directory := hdir
    rw [if_pos hdir', dirFind_of_file hdir]
    exact ⟨_, _, rfl, h₁.unlock, rfl, fun j hj => (nomatch hj), fun j _ => hkeep j⟩

theorem stepPath_of_lookup {flags : ℕ} {leafType : InodeType} {leaf : Bool} {curr : Fin inodeCacheSize}
    {found : Except ℤ (Fin inodeCacheSize)} (hl : dirLookup stack fs curr name = some (found, fs'))
    (hflags : flags &&& oCreat = 0 ∨ ∃ k, found = .ok k) :
    stepPath stack flags leafType fs curr name leaf = some (found, fs') := by
  simp only [stepPath, hl, Option.bind_eq_bind, Option.bind_some, Option.pure_def]
  cases found with
  | ok k => rfl
  | error e =>
    have h0 : flags &&& oCreat = 0 := by
      obtain h0 | ⟨k, hk⟩ := hflags
      · exact h0
      · cases hk
    dsimp only
    rw [if_neg fun hc => hc.2 h0]

theorem walk (htree : WellFormedTree fs₀) (hrest : AtRest fs₀)
    (hroom : ∀ c, ∃ j ≠ c, (fs₀.islots j).refcnt = 0) {flags : ℕ} (leafType : InodeType)
    {curr : Fin inodeCacheSize} {token : List UInt8} {holder : Option (List UInt8)}
    (h : Follows fs₀ fs (bump (fun _ => 0) curr) none) (hin : InTree fs₀ (fs.islots curr).ino)
    (hnames : ∀ part ∈ token :: holderParts holder, 0 ∉ part)
    (hflags : flags &&& oCreat = 0 ∨
      ∃ ino, descend fs₀ (fs.islots curr).ino (token :: holderParts holder) = .ok ino) :
    ∃ found fs', walkPath stack flags leafType fs curr token holder = some (found, fs') ∧
      Follows fs₀ fs' (taken (fun _ => 0) found) none ∧
      found.map (fun k => (fs'.islots k).ino) =
        descend fs₀ (fs.islots curr).ino (token :: holderParts holder) := by
  induction hn : holderSize holder using Nat.strong_induction_on generalizing fs curr token holder with
  | _ n ih =>
  -- a slot other than that of `curr` is still without references
  have hfree : ∃ j, (fs.islots j).refcnt = 0 := by
    obtain ⟨j, hj, h0⟩ := hroom curr
    refine ⟨j, ?_⟩
    rw [h.refcnt j, bump_of_ne hj, h0]
    rfl
  obtain ⟨found, fs₁, hlookup, h₁, hfound, hin₁, hkept₁⟩ :=
    h.lookup stack htree hrest hin.1 hfree (hnames token mem_cons_self)
  have hcurr : (fs₁.islots curr).ino = (fs.islots curr).ino := by
    refine hkept₁ curr ?_
    have hcount := h.refcnt curr
    have hpos := hrest.counted curr
    rw [bump_self] at hcount
    push_cast at hcount
    omega
  have hstep : stepPath stack flags leafType fs curr token (strtok holder).1.isNone = some (found, fs₁) := by
    refine stepPath_of_lookup hlookup (hflags.imp_right fun ⟨ino, hok⟩ => ?_)
    cases found with
    | ok k => exact ⟨k, rfl⟩
    | error e =>
      rw [descend_of_error hfound.symm] at hok
      cases hok
  rw [walkPath, hstep, bind_some]
  cases found with
  | error e =>
    obtain ⟨fs₂, hput, h₂, -⟩ := Follows.put h₁ htree (by rw [hcurr]; exact hin)
    rw [hput, bind_some]
    exact ⟨_, _, rfl, h₂, (descend_of_error hfound.symm).symm⟩
  | ok k =>
    have hbump : Follows fs₀ fs₁ (bump (bump (fun _ => 0) k) curr) none := by
      rw [bump_comm]
      exact h₁
    obtain ⟨fs₂, hput, h₂, hino₂⟩ := hbump.put htree (by rw [hcurr]; exact hin)
    have hk : (fs₂.islots k).ino = (fs₁.islots k).ino := hino₂ k
    have hchild : child fs₀ (fs.islots curr).ino token = .ok (fs₂.islots k).ino := by
      rw [hk]
      exact hfound.symm
    rw [descend_of_child hchild] at hflags ⊢
    rw [hput, bind_some]
    dsimp only
    obtain ⟨hparts, hlast⟩ := holderParts_strtok holder
    split
    · rename_i hnone
      rw [hlast hnone]
      exact ⟨_, _, rfl, h₂, rfl⟩
    · rename_i next hnext
      rw [hnext] at hparts
      rw [hparts] at hflags ⊢
      exact ih _ (hn ▸ holderSize_strtok hnext) h₂ (by rw [hk]; exact hin₁ k rfl)
        (fun part hpart => hnames part (mem_cons_of_mem token (hparts ▸ hpart))) hflags rfl

theorem fromPath (stack : Bytes) (htree : WellFormedTree fs) (hrest : AtRest fs)
    (hroom : ∀ c, ∃ j ≠ c, (fs.islots j).refcnt = 0) {path : List UInt8} (hpath : 0 ∉ path)
    (hlen : path.length < fsMaxPath) {flags : ℕ} (leafType : InodeType)
    (hflags : flags &&& oCreat = 0 ∨ ∃ ino, resolvePath fs path = .ok ino) :
    ∃ found fs', fsInodeFromPath stack fs path flags leafType = some (found, fs') ∧
      Follows fs fs' (taken (fun _ => 0) found) none ∧
      found.map (fun k => (fs'.islots k).ino) = resolvePath fs path := by
  unfold fsInodeFromPath
  unfold resolvePath at hflags ⊢
  by_cases hslash : path.head? = some 47
  · have hne : ¬ path.length < 1 := by
      intro hlt
      have hnil : path = [] := length_eq_zero_iff.mp (by omega)
      rw [hnil] at hslash
      cases hslash
    rw [if_neg (not_not.mpr hslash)] at hflags ⊢
    rw [if_neg hne, if_neg (not_not.mpr hslash), if_neg (not_le.mpr hlen)]
    obtain ⟨j, -, h0⟩ := hroom fs.root
    obtain ⟨k, fs₁, hget, h₁, hino, -⟩ := (Follows.refl hrest).get hrest ⟨j, h0⟩ (fs.islots fs.root).ino
    rw [hget, bind_some]
    obtain ⟨hparts, hlast⟩ := holderParts_strtok (some path)
    dsimp only
    split
    · rename_i hnone
      rw [show components path = [] from hlast hnone]
      exact ⟨_, _, rfl, h₁, congrArg Except.ok hino⟩
    · rename_i token htoken
      rw [htoken] at hparts
      have hcomp : components path = token :: holderParts (strtok (some path)).2 := hparts
      rw [hcomp, ← hino] at hflags ⊢
      refine walk htree hrest hroom leafType h₁ (by rw [hino]; exact ⟨htree.rooted, .inl rfl⟩) ?_ hflags
      exact fun part hpart => nul_notMem_components hpath (hcomp ▸ hpart)
  · rw [if_pos hslash, if_pos hslash]
    refine ⟨.error (-einval), fs, ?_, Follows.refl hrest, rfl⟩
    split_ifs <;> rfl

end Follows

theorem WellFormedTree.child_of_long {fs : Filesys} (h : WellFormedTree fs) {dir : ℕ}
    (hlt : dir < nbInodes fs.store.sb) (hdir : (inodeOf fs dir).type = .directory) {name : List UInt8}
    (hlong : maxname ≤ name.length) : child fs dir name = .error (-enoent) := by
  have hwf := h.dirs dir _ (stored_inodeOf hlt) hdir
  refine dirFind_of_none hdir fun e he ⟨hused, hname⟩ => ?_
  obtain ⟨hnul, -⟩ := hwf.entries e he hused
  obtain ⟨hlen, hzero⟩ := Nat.find_spec hnul
  rw [← hname, entryName_eq hlen hzero fun k hk h0 => Nat.find_min hnul hk ⟨hk.trans hlen, h0⟩,
    length_map, length_range] at hlong
  omega

/-- With two slots that have no references, a lookup returns what the reference walk
returns; it leaves the store alone and keeps one reference, to what it has found. In the
reference a name that does not fit into an entry is missing from every directory. -/
theorem lookup_equals_reference {fs : Filesys} (htree : WellFormedTree fs) (hrest : AtRest fs)
    (hroom : ∃ j j', j ≠ j' ∧ (fs.islots j).refcnt = 0 ∧ (fs.islots j').refcnt = 0)
    {path : List UInt8} (hpath : 0 ∉ path) (hlen : path.length < fsMaxPath) {flags : ℕ}
    (hflags : flags &&& oCreat = 0) (leafType : InodeType) (stack : Bytes) :
    ∃ found fs', fsInodeFromPath stack fs path flags leafType = some (found, fs') ∧
      found.map (fun k => (fs'.islots k).ino) = resolvePath fs path ∧ fs'.store = fs.store ∧
      (∀ k, (fs'.islots k).refcnt = (fs.islots k).refcnt + if found.toOption = some k then 1 else 0) ∧
      (∀ k, (fs.islots k).refcnt ≠ 0 → (fs'.islots k).ino = (fs.islots k).ino) ∧
      ∀ dir name, dir < nbInodes fs.store.sb → (inodeOf fs dir).type = .directory → maxname ≤ name.length →
        child fs dir name = .error (-enoent) := by
  obtain ⟨j, j', hne, hj, hj'⟩ := hroom
  have hother : ∀ c, ∃ j ≠ c, (fs.islots j).refcnt = 0 := by
    intro c
    by_cases hjc : j = c
    · exact ⟨j', hjc ▸ hne.symm, hj'⟩
    · exact ⟨j, hjc, hj⟩
  obtain ⟨found, fs', hcall, h, hfound⟩ :=
    Follows.fromPath stack htree hrest hother hpath hlen leafType (.inl hflags)
  refine ⟨found, fs', hcall, hfound, h.store, fun k => ?_, h.kept,
    fun dir name hlt hdir hlong => htree.child_of_long hlt hdir hlong⟩
  rw [h.refcnt k]
  cases found with
  | error e => simp [Follows.taken, Except.toOption]
  | ok i =>
    by_cases hki : i = k
    · simp [Follows.taken, Except.toOption, hki, bump]
    · simp [Follows.taken, Except.toOption, hki, bump, Ne.symm hki]

/-! A directory in the root directory with a file in it, `/a/b`. -/

def nestedDinode (ino : ℕ) : Dinode :=
  if ino = 1 ∨ ino = 2 then
    ⟨20, .directory, 0, 1, Function.update (fun _ => 0) 0 (UInt32.ofNat (10 + ino)), 0⟩
  else ⟨0, .file, 0, 1, fun _ => 0, 0⟩

def nestedStore : Store :=
  .mounted superblock fun b =>
    if b = superblock.ibmStart ∨ b = superblock.dbmStart then fun _ => 255
    else if b = 11 then newDirent (fun _ => 0) [97] 2
    else if b = 12 then newDirent (fun _ => 0) [98] 3
    else fun k => (nestedDinode ((b - superblock.itabStart) * 64 + k / 64)).bytes (k % 64)

def nested (free : ℕ) : Filesys where
  store := nestedStore
  islots := fun k =>
    if k = 0 then ⟨1, 1, false, false, Dinode.zero⟩
    else if k.val ≤ free then ⟨0, 2 ^ 32 - 1, false, false, Dinode.zero⟩
    else ⟨1, k.val + 3, false, false, Dinode.zero⟩
  icache := List.finRange inodeCacheSize
  root := 0

theorem diskDinode_nested {ino : ℕ} (hlt : ino < 320) : diskDinode nestedStore ino = nestedDinode ino := by
  have hblk : nestedStore.blk (itabBlk nestedStore.sb ino) = fun k =>
      (nestedDinode ((6 + ino / 64 - 6) * 64 + k / 64)).bytes (k % 64) := by
    change (if 6 + ino / 64 = 2 ∨ 6 + ino / 64 = 4 then _ else if 6 + ino / 64 = 11 then _
      else if 6 + ino / 64 = 12 then _ else _) = _
    rw [if_neg (by omega), if_neg (by omega), if_neg (by omega)]
    rfl
  unfold diskDinode
  rw [← Dinode.read_bytes (nestedDinode ino)]
  refine Dinode.read_congr fun k hk => ?_
  rw [hblk]
  dsimp only
  rw [Nat.add_sub_cancel_left, show ino / 64 * 64 + (64 * (ino % 64) + k) / 64 = ino by omega,
    show (64 * (ino % 64) + k) % 64 = k by omega, Nat.zero_add]

theorem stored_nested {free ino : ℕ} {d : Dinode} (h : Stored (nested free) ino d) :
    ino < 320 ∧ d = nestedDinode ino := by
  rcases h with ⟨hlt, rfl⟩ | ⟨k, hv, -, -⟩
  · exact ⟨hlt, diskDinode_nested hlt⟩
  · exfalso
    have hinvalid : ((nested free).islots k).valid = false := by
      simp only [nested]
      split_ifs <;> rfl
    rw [hinvalid] at hv
    cases hv

theorem nested_dirs {ino : ℕ} (hdir : (nestedDinode ino).type = .directory) :
    (ino = 1 ∨ ino = 2) ∧ (nestedDinode ino).size.toNat = 20 := by
  have hino : ino = 1 ∨ ino = 2 := by
    by_contra hno
    rw [nestedDinode, if_neg hno] at hdir
    cases hdir
  refine ⟨hino, ?_⟩
  rw [nestedDinode, if_pos hino]
  rfl

theorem nested_tree (free : ℕ) : WellFormedTree (nested free) where
  dirs := by
    intro ino d hd hdir
    obtain ⟨hlt, rfl⟩ := stored_nested hd
    obtain ⟨hino, hsize⟩ := nested_dirs hdir
    refine ⟨by rw [hsize], fun e he => ?_⟩
    have he0 : e = 0 := by
      rw [hsize] at he
      simp only [sizeofDirent] at he
      omega
    rw [he0]
    change GoodEntry nestedStore (dirEntry nestedStore (nestedDinode ino) 0)
    unfold GoodEntry
    rcases hino with rfl | rfl <;> decide +kernel
  mapped := by
    intro ino d hd hdir
    obtain ⟨hlt, rfl⟩ := stored_nested hd
    obtain ⟨hino, hsize⟩ := nested_dirs hdir
    refine ⟨by rw [hsize]; decide, fun n hn => ?_⟩
    have hn0 : n = 0 := by omega
    rw [hn0]
    change IsBlk (ptr nestedStore (nestedDinode ino) 0)
    unfold IsBlk
    rcases hino with rfl | rfl <;> decide
  same := by
    intro ino d d' hd hd'
    rw [(stored_nested hd).2, (stored_nested hd').2]
    exact ⟨rfl, fun _ => SameDir.refl _ _⟩
  linked := by
    intro ino d hd _
    rw [(stored_nested hd).2, nestedDinode]
    have hone : (1 : UInt32) ≠ 0 := by decide
    split_ifs <;> exact hone
  rooted := by
    change 1 < nbInodes superblock
    decide

theorem nested_atRest (free : ℕ) : AtRest (nested free) where
  unlocked := by
    intro k
    simp only [nested]
    split_ifs <;> rfl
  counted := by
    intro k
    simp only [nested]
    split_ifs <;> norm_num
  listed := mem_finRange
  ino_lt := by
    intro k hv
    have hinvalid : ((nested free).islots k).valid = false := by
      simp only [nested]
      split_ifs <;> rfl
    rw [hinvalid] at hv
    cases hv

/-- With two slots left, `/a//b/` leads to the file. -/
theorem lookup_equals_reference_nested : ∃ found fs',
    fsInodeFromPath (fun _ => 0) (nested 2) [47, 97, 47, 47, 98, 47] 0 .file = some (found, fs') ∧
      found.map (fun k => (fs'.islots k).ino) = .ok 3 := by
  obtain ⟨found, fs', hcall, hfound, -⟩ := @lookup_equals_reference (nested 2) (nested_tree 2)
    (nested_atRest 2) ⟨1, 2, by decide, rfl, rfl⟩ [47, 97, 47, 47, 98, 47] (by decide) (by decide) 0 rfl .file
    fun _ => 0
  have href : resolvePath (nested 2) [47, 97, 47, 47, 98, 47] = .ok 3 := by decide +kernel
  exact ⟨found, fs', hcall, hfound.trans href⟩

/-- With one slot left, the walk holds `a` in it and has none for `b`: `inode_get` panics. -/
theorem lookup_panics_one_slot : WellFormedTree (nested 1) ∧ AtRest (nested 1) ∧
    ((nested 1).islots 1).refcnt = 0 ∧ resolvePath (nested 1) [47, 97, 47, 98] = .ok 3 ∧
    fsInodeFromPath (fun _ => 0) (nested 1) [47, 97, 47, 98] 0 .file = none :=
  ⟨nested_tree 1, nested_atRest 1, rfl, by decide +kernel, Option.isNone_iff_eq_none.mp (by decide +kernel)⟩

end RvMiniOs.Fs
