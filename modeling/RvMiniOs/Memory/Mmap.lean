import RvMiniOs.Memory.TreeFree

/-!
# New user address spaces

Translation of `mmap_uspace` and `mmap_uimage` in `mmap.c`, with the trampoline as
one page, `tramp`, and the tree that they build.
-/

namespace RvMiniOs.Memory

open Lib Lib.TableTree Function List Option

abbrev ustackTop : ℕ := maxVa - 3 * pageSize
abbrev ustack : ℕ := maxVa - 2 * pageSize

structure UTask where
  user : Bool
  rootPtable : ℕ
  tframePa : ℕ
  tframeVa : ℕ
  deriving DecidableEq, Repr

structure TrapEnv where
  sstatus : ℕ
  ksatp : ℕ
  kstackTop : ℕ

def mmapSatp (root : ℕ) : ℕ := 8 * 2 ^ 60 ||| root

def tframeInit (env : TrapEnv) (s : Kmem) (t root : ℕ) : Kmem :=
  (((s.setWord t 31 env.sstatus).setWord t 32 (mmapSatp root)).setWord t 33 env.kstackTop).setWord t 34
    env.ksatp

def tframeStart (s : Kmem) (t entry ustack : ℕ) : Kmem := (s.setWord t 0 ustack).setWord t 29 entry

def tframeSetArg (s : Kmem) (t idx value : ℕ) : Kmem := s.setWord t (2 + idx) value

def tframeSetReturnVal (s : Kmem) (t value : ℕ) : Kmem := s.setWord t 2 value

def tframeCopy (s : Kmem) (t src : ℕ) : Kmem :=
  { s with mem := Function.update s.mem t fun i => if i < 35 then s.mem src i else s.mem t i }

def vpageMapRange (s : Kmem) (root va page : ℕ) (flags : ℕ) : ℕ → Option (Kmem × ℤ)
  | 0 => some (s, 0)
  | n + 1 => do
    let (s, res) ← vpageMap s root va page flags
    if res < 0 then some (s, res) else vpageMapRange s root (va + pageSize) (page + 1) flags n

def mmapUspace (s : Kmem) (p : UTask) : Option (Kmem × UTask × ℤ) :=
  if !p.user then some (s, p, -einval)
  else
    match pageAlloc s with
    | none => some (s, p, -enomem)
    | some (root, s) =>
      match pageAlloc s with
      | none => do
        let s ← vpageTreeFree s root
        some (s, p, -enomem)
      | some (t, s) => do
        let (s, res) ← vpageMap s root trapframe t (pteR ||| pteW)
        if res < 0 then do
          let s ← pagePut s t
          let s ← vpageTreeFree s root
          some (s, p, res)
        else some (s, { p with rootPtable := root, tframePa := t, tframeVa := trapframe }, 0)

def dropImage (s : Kmem) (p : UTask) (res : ℤ) : Option (Kmem × UTask × ℤ) := do
  let s ← vpageTreeFree s p.rootPtable
  some (s, { p with rootPtable := 0, tframePa := 0 }, res)

def mmapUimage (tramp : ℕ) (s : Kmem) (p : UTask) : Option (Kmem × UTask × ℤ) := do
  let (s, p, res) ← mmapUspace s p
  if res < 0 then some (s, p, res)
  else do
    let (s, res) ← vpageMapRange s p.rootPtable trampoline tramp (pteX ||| pteR ||| pteG) 1
    if res < 0 then dropImage s p res
    else
      match pageAlloc s with
      | none => dropImage s p (-enomem)
      | some (stack, s) => do
        let (s, res) ← vpageMapUser s p.rootPtable ustackTop stack (pteR ||| pteW)
        if res < 0 then do
          let s ← pagePut s stack
          dropImage s p res
        else some (s, p, 0)

structure Image (s s' : Kmem) (root : ℕ) (taken own lost : List ℕ) : Prop where
  takes : Takes s s' taken
  frame : ∀ p, p ∉ s.freePages → s'.mem p = s.mem p
  table : Table s'.mem 2 root
  tables : ∀ p ∈ tablesOf s'.mem 2 root, p ∈ taken
  own_taken : ∀ p ∈ own, p ∈ taken
  own_apart : ∀ p ∈ own, p ∉ tablesOf s'.mem 2 root
  user : ∀ va, hasAny (entry s' root va) pteV = true → hasAny (entry s' root va) pteCow = false ∧
    (hasAny (entry s' root va) pteU = true → getNextLvlPte (entry s' root va) ∈ own)
  account : (puts s'.mem 2 root ++ lost).Perm taken

def Undone (s s' : Kmem) : Prop :=
  s'.freePages.length = s.freePages.length ∧ ∀ p, p ∉ s.freePages → s'.mem p = s.mem p

section Images

variable {s s' s₁ : Kmem} {root va page flags : ℕ} {taken own lost lost' : List ℕ}

theorem Image.space (h : Image s s' root taken own lost) (hf : FreeList s) : Space s' root :=
  ⟨h.table, fun p hp => h.takes.not_free hf (h.tables p hp)⟩

theorem Image.freeList (h : Image s s' root taken own lost) (hf : FreeList s) : FreeList s' :=
  h.takes.freeList hf

theorem Image.mem_free (h : Image s s' root taken own lost) {p : ℕ} (hp : p ∈ s'.freePages) :
    p ∈ s.freePages := by
  rw [h.takes.free]
  exact mem_append_right _ hp

theorem Image.store (h : Image s s' root taken own lost) (hf : FreeList s)
    (hfree : s₁.freePages = s'.freePages) (hcount : s₁.pageRc = s'.pageRc)
    (hmem : ∀ p, p ∉ s'.freePages → p ∉ own → s₁.mem p = s'.mem p) :
    Image s s₁ root taken own lost ∧ ∀ va, entry s₁ root va = entry s' root va := by
  have hsame : ∀ p ∈ tablesOf s'.mem 2 root, s₁.mem p = s'.mem p := fun p hp =>
    hmem p ((h.space hf).used p hp) fun hin => h.own_apart p hin hp
  obtain ⟨htable, htables⟩ := h.table.congr hsame
  have hentry : ∀ va, entry s₁ root va = entry s' root va := fun va => value_congr hsame (getVaVpn_lt va)
  refine ⟨⟨⟨hfree ▸ h.takes.free, hcount ▸ h.takes.count⟩, fun p hp => ?_, htable, ?_, h.own_taken, ?_, ?_, ?_⟩,
    hentry⟩
  · rw [hmem p (fun hin => hp (h.mem_free hin)) fun hin => hp (h.takes.mem_free (h.own_taken p hin)),
      h.frame p hp]
  · rw [htables]
    exact h.tables
  · rw [htables]
    exact h.own_apart
  · intro va hv
    rw [hentry] at hv ⊢
    exact h.user va hv
  · rw [show puts s₁.mem 2 root = puts s'.mem 2 root from collect_congr hsame]
    exact h.account

theorem image_of_alloc (h : pageAlloc s = some (root, s')) :
    Image s s' root [root] [] [] ∧ ∀ va, entry s' root va = 0 := by
  obtain ⟨ht, hmem⟩ := pageAlloc_takes h
  have hblank : ∀ i, s'.mem root i = 0 := fun i => by rw [hmem, update_self]
  obtain ⟨htable, htables, hvalue⟩ := table_of_blank hblank 2
  have hentry : ∀ va, entry s' root va = 0 := fun va => hvalue _
  refine ⟨⟨ht, fun p hp => ?_, htable, fun p hp => ?_, ?_, ?_, fun va hv => ?_, ?_⟩, hentry⟩
  · have hne : p ≠ root := fun heq => hp (heq ▸ ht.mem_free (mem_singleton_self root))
    rw [hmem, update_of_ne hne]
  · rw [htables] at hp
    exact mem_singleton.mpr hp
  · simp
  · simp
  · rw [hentry] at hv
    exact absurd hv (by decide)
  · rw [show puts s'.mem 2 root = [root] from
      collect_of_blank (fun i _ => by rw [hblank, nextTable_zero]) (fun i _ => by rw [hblank]; rfl) 2]
    rfl

section Images

variable (h : Image s s' root taken own lost) (hf : FreeList s)
include h hf

theorem Image.alloc (ha : pageAlloc s' = some (page, s₁)) :
    Image s s₁ root (taken ++ [page]) (own ++ [page]) (lost ++ [page]) ∧
      ∀ va, entry s₁ root va = entry s' root va := by
  obtain ⟨ht, hmem⟩ := pageAlloc_takes ha
  have hpage := ht.mem_free (mem_singleton_self page)
  obtain ⟨hg, hentry, hcollect⟩ := (h.space hf).take ht fun q hq => by
    rw [hmem, update_of_ne (by simpa using hq)]
  have htables : ∀ p ∈ tablesOf s₁.mem 2 root, p ∈ tablesOf s'.mem 2 root := fun p hp => by
    have hsame : ∀ q ∈ tablesOf s'.mem 2 root, s₁.mem q = s'.mem q := fun q hq => by
      have hne : q ≠ page := fun heq => (h.space hf).used q hq (heq ▸ hpage)
      rw [hmem, update_of_ne hne]
    exact (Set.ext_iff.mp (h.table.congr hsame).2 p).mp hp
  refine ⟨⟨h.takes.trans ht hf, fun p hp => ?_, hg.table,
    fun p hp => mem_append_left _ (h.tables p (htables p hp)), fun p hp => ?_, fun p hp hin => ?_,
    fun va hv => ?_, ?_⟩, hentry⟩
  · have hne : p ≠ page := fun heq => hp (heq ▸ h.mem_free hpage)
    rw [hmem, update_of_ne hne, h.frame p hp]
  · rcases mem_append.mp hp with hp | hp
    · exact mem_append_left _ (h.own_taken p hp)
    · exact mem_append_right _ hp
  · rcases mem_append.mp hp with hp | hp
    · exact h.own_apart p hp (htables p hin)
    · exact (h.space hf).used p (htables p hin) (mem_singleton.mp hp ▸ hpage)
  · rw [hentry] at hv ⊢
    exact (h.user va hv).imp_right fun hu hu' => mem_append_left _ (hu hu')
  · rw [show puts s₁.mem 2 root = puts s'.mem 2 root from hcollect leafPut, ← append_assoc]
    exact h.account.append_right _

theorem Image.map (hm : vpageMap s' root va page flags = some (s₁, 0)) (hflags : flags < 2 ^ 10)
    (hcow : hasAny flags pteCow = false) (huser : hasAny flags pteU = true → page ∈ own)
    (hlost : (lost' ++ leafPut (makePte page (leafFlags flags))).Perm
      (lost ++ leafPut (entry s' root va))) :
    (∃ taken', Image s s₁ root (taken ++ taken') own lost') ∧ ∀ vb, entry s₁ root vb =
      if pageOf vb = pageOf va then makePte page (leafFlags flags) else entry s' root vb := by
  obtain ⟨taken', hg, hentry, hcollect⟩ := vpageMap_ok (h.space hf) (h.freeList hf) hm
  refine ⟨⟨taken', h.takes.trans hg.takes hf, fun p hp => ?_, hg.table, fun p hp => ?_, fun p hp => ?_,
    fun p hp hin => ?_, fun vb hv => ?_, ?_⟩, hentry⟩
  · rw [hg.frame p (fun hin => hp (h.takes.mem_free (h.tables p hin)))
      (fun hin => hp (h.mem_free (hg.takes.mem_free hin))), h.frame p hp]
  · exact mem_append.mpr ((hg.tables p hp).imp_left (h.tables p))
  · exact mem_append_left _ (h.own_taken p hp)
  · rcases hg.tables p hin with hin | hin
    · exact h.own_apart p hp hin
    · exact h.takes.not_free hf (h.own_taken p hp) (hg.takes.mem_free hin)
  · rw [hentry] at hv ⊢
    split at hv
    · rename_i hpage
      rw [if_pos hpage, hasAny_leaf (by decide) (by decide) (by decide) (by decide),
        hasAny_leaf (by decide) (by decide) (by decide) (by decide)]
      refine ⟨hcow, fun hu => ?_⟩
      have hsmall := hf.small page (h.takes.mem_free (h.own_taken page (huser hu)))
      rw [getNextLvlPte_makePte (leafFlags_lt hflags) hsmall]
      exact huser hu
    · rename_i hpage
      rw [if_neg hpage]
      exact h.user vb hv
  · have hputs : (puts s₁.mem 2 root ++ leafPut (entry s' root va)).Perm
        (puts s'.mem 2 root ++ taken' ++ leafPut (makePte page (leafFlags flags))) := hcollect leafPut rfl
    have haccount := h.account
    rw [perm_iff_count] at hputs haccount hlost ⊢
    intro a
    have h1 := hputs a
    have h2 := haccount a
    have h3 := hlost a
    simp only [count_append] at h1 h2 h3 ⊢
    omega

theorem Image.release (hi : Idle s)
    (hfree : vpageTreeFree s' root = some s₁) :
    s₁.freePages.length + lost.length = s.freePages.length ∧ ∀ p, p ∉ s.freePages → s₁.mem p = s.mem p := by
  obtain ⟨mem', hwiped, hwalk⟩ := walkFree_eq h.table
  rw [vpageTreeFree, hwalk s' rfl] at hfree
  obtain ⟨r, hput, rfl⟩ := map_eq_some_iff.mp hfree
  have hnodup : taken.Nodup := by
    have := hf.nodup
    rw [h.takes.free] at this
    exact (nodup_append.mp this).1
  have hnodup' := nodup_append.mp (h.account.nodup_iff.mpr hnodup)
  have hone : ∀ p ∈ puts s'.mem 2 root, s'.pageRc p = 1 := fun p hp =>
    h.takes.one hi (h.account.mem_iff.mp (mem_append_left _ hp))
  refine ⟨?_, fun p hp => ?_⟩
  · have hlen := h.account.length_eq
    have hfree := putAll_fresh hnodup'.1 hone hput
    have hold := h.takes.free
    change r.freePages.length + lost.length = _
    rw [hfree, hold]
    simp only [length_append, length_reverse] at hlen ⊢
    omega
  · change mem' p = s.mem p
    rw [hwiped.frame p fun hin => hp (h.takes.mem_free (h.tables p hin)), h.frame p hp]

theorem Image.putBack {s₂ s₃ : Kmem} (hi : Idle s)
    (ha : pageAlloc s' = some (page, s₁)) (hfree : s₂.freePages = s₁.freePages)
    (hcount : s₂.pageRc = s₁.pageRc) (hmem : ∀ p, p ≠ page → s₂.mem p = s₁.mem p)
    (hput : pagePut s₂ page = some s₃) :
    Image s s₃ root taken own lost ∧ ∀ va, entry s₃ root va = entry s' root va := by
  obtain ⟨ht, hmem₁⟩ := pageAlloc_takes ha
  obtain ⟨hmem₃, -, hcount₃, hfree₃⟩ := pagePut_some hput
  have hpage := ht.mem_free (mem_singleton_self page)
  have hone : s₂.pageRc page = 1 := by
    rw [hcount]
    exact ht.one (h.takes.idle hf hi) (mem_singleton_self page)
  refine h.store hf ?_ ?_ fun p hp _ => ?_
  · rw [hfree₃, if_pos hone, hfree, ht.free]
    rfl
  · funext p
    rw [hcount₃, hone]
    split
    · rename_i heq
      rw [heq]
      exact (h.takes.idle hf hi page hpage).symm
    · rename_i hne
      rw [hcount, ht.count, if_neg (by simpa using hne)]
  · have hne : p ≠ page := fun heq => hp (heq ▸ hpage)
    rw [hmem₃, hmem p hne, hmem₁, update_of_ne hne]

theorem Image.map_fail {res : ℤ} (hi : Idle s)
    (hm : vpageMap s' root va page flags = some (s₁, res)) (hres : res < 0) : s₁ = s' ∨ Broken s₁ root :=
  vpageMap_fail (h.space hf) (h.freeList hf) (h.takes.idle hf hi) hm hres

end Images

end Images

section Results

variable {s s' s₁ : Kmem} {root va page flags tramp : ℕ} {p p' : UTask} {res : ℤ}

theorem Leafy.congr (hl : Leafy s root) (he : ∀ va, entry s' root va = entry s root va) : Leafy s' root :=
  fun va hv => by
    rw [he] at hv ⊢
    exact hl va hv

theorem Leafy.mapped (hl : Leafy s root) (hflags : isANextLvlPtr flags = false)
    (he : ∀ vb, entry s' root vb =
      if pageOf vb = pageOf va then makePte page (leafFlags flags) else entry s root vb) :
    Leafy s' root := fun vb hv => by
  rw [he] at hv ⊢
  split at hv
  · rw [if_pos ‹_›, isANextLvlPtr_leaf, hflags]
  · rw [if_neg ‹_›]
    exact hl vb hv

structure Ready (s s' : Kmem) (p p' : UTask) : Prop where
  image : ∃ taken own, Image s s' p'.rootPtable taken own [] ∧ p'.tframePa ∈ own
  leafy : Leafy s' p'.rootPtable
  va : p'.tframeVa = trapframe
  user : p'.user = p.user

theorem mmapUspace_ok (hf : FreeList s) (h : mmapUspace s p = some (s', p', res)) (hres : ¬ res < 0) : res =
    0 ∧ Ready s s' p p' ∧ ∀ va, pageOf va ≠ pageOf trapframe → entry s' p'.rootPtable va = 0 := by
  unfold mmapUspace at h
  split at h
  · cases h
    exact absurd (by decide) hres
  split at h
  · cases h
    exact absurd (by decide) hres
  rename_i root s₁ hroot
  obtain ⟨himage₁, hentry₁⟩ := image_of_alloc hroot
  split at h
  · obtain ⟨s₂, -, h⟩ := bind_eq_some_iff.mp h
    cases h
    exact absurd (by decide) hres
  rename_i t s₂ hframe
  obtain ⟨himage₂, hentry₂⟩ := himage₁.alloc hf hframe
  obtain ⟨⟨s₃, res₃⟩, hm, h⟩ := bind_eq_some_iff.mp h
  dsimp only at h
  split at h
  · rename_i hneg
    obtain ⟨s₄, -, h⟩ := bind_eq_some_iff.mp h
    obtain ⟨s₅, -, h⟩ := bind_eq_some_iff.mp h
    simp only [some.injEq, Prod.mk.injEq] at h
    exact absurd (h.2.2 ▸ hneg) hres
  rename_i hnn
  obtain rfl := vpageMap_res_zero hm hnn
  simp only [some.injEq, Prod.mk.injEq] at h
  obtain ⟨rfl, rfl, rfl⟩ := h
  have hsmall : t < 2 ^ 52 := hf.small t (himage₂.takes.mem_free (by simp))
  obtain ⟨⟨taken, himage₃⟩, hentry₃⟩ := @Image.map _ _ _ _ _ _ _ _ _ _ [] himage₂ hf hm (by decide) (by decide)
    (fun hu => absurd hu (by decide)) (by
      rw [hentry₂, hentry₁, leafPut_leaf hsmall (by decide), if_pos (by decide)]
      exact Perm.refl _)
  have hleafy : Leafy s₂ root := fun va hv => by
    rw [hentry₂, hentry₁] at hv
    exact absurd hv (by decide)
  refine ⟨rfl, ⟨⟨_, _, himage₃, by simp⟩, hleafy.mapped (by decide) hentry₃, rfl, rfl⟩, fun va hva => ?_⟩
  rw [hentry₃, if_neg hva, hentry₂, hentry₁]

theorem mmapUspace_fail (hf : FreeList s) (hi : Idle s) (h : mmapUspace s p = some (s', p', res))
    (hres : res < 0) : p' = p ∧ Undone s s' := by
  unfold mmapUspace at h
  split at h
  · cases h
    exact ⟨rfl, rfl, fun _ _ => rfl⟩
  split at h
  · cases h
    exact ⟨rfl, rfl, fun _ _ => rfl⟩
  rename_i root s₁ hroot
  obtain ⟨himage₁, -⟩ := image_of_alloc hroot
  split at h
  · obtain ⟨s₂, hfree, h⟩ := bind_eq_some_iff.mp h
    cases h
    exact ⟨rfl, himage₁.release hf hi hfree⟩
  rename_i t s₂ hframe
  obtain ⟨himage₂, -⟩ := himage₁.alloc hf hframe
  obtain ⟨⟨s₃, res₃⟩, hm, h⟩ := bind_eq_some_iff.mp h
  dsimp only at h
  split at h
  · rename_i hneg
    obtain ⟨s₄, hput, h⟩ := bind_eq_some_iff.mp h
    obtain ⟨s₅, hfree, h⟩ := bind_eq_some_iff.mp h
    simp only [some.injEq, Prod.mk.injEq] at h
    obtain ⟨rfl, rfl, -⟩ := h
    rcases himage₂.map_fail hf hi hm hneg with rfl | hbroken
    · obtain ⟨himage₄, -⟩ := himage₁.putBack hf hi hframe rfl rfl (fun _ _ => rfl) hput
      exact ⟨rfl, himage₄.release hf hi hfree⟩
    · rw [(hbroken.put hput).free] at hfree
      cases hfree
  · simp only [some.injEq, Prod.mk.injEq] at h
    rw [← h.2.2] at hres
    exact absurd hres (lt_irrefl 0)

theorem dropImage_eq {res' : ℤ} (h : dropImage s p res = some (s', p', res')) :
    res' = res ∧ vpageTreeFree s p.rootPtable = some s' ∧ p' = { p with rootPtable := 0, tframePa := 0 } := by
  unfold dropImage at h
  obtain ⟨s₁, hfree, h⟩ := bind_eq_some_iff.mp h
  simp only [some.injEq, Prod.mk.injEq] at h
  obtain ⟨rfl, rfl, rfl⟩ := h
  exact ⟨rfl, hfree, rfl⟩

theorem vpageMapRange_one (h : vpageMapRange s root va page flags 1 = some (s', res)) :
    vpageMap s root va page flags = some (s', res) := by
  obtain ⟨⟨s₁, res₁⟩, hm, h⟩ := bind_eq_some_iff.mp h
  dsimp only at h
  rw [hm]
  split at h
  · exact h
  · rename_i hnn
    rw [vpageMap_res_zero hm hnn]
    exact h

theorem Ready.trampoline (h : Ready s s₁ p p') (hf : FreeList s)
    (hentry : ∀ va, pageOf va ≠ pageOf trapframe → entry s₁ p'.rootPtable va = 0)
    (hm : vpageMap s₁ p'.rootPtable trampoline tramp (pteX ||| pteR ||| pteG) = some (s', 0)) :
    Ready s s' p p' ∧ entry s' p'.rootPtable ustackTop = 0 := by
  obtain ⟨⟨taken, own, himage, hframe⟩, hleafy, hva, huser⟩ := h
  have hbit : hasAny (makePte tramp (leafFlags (pteX ||| pteR ||| pteG))) pteG = true :=
    (hasAny_leaf (by decide) (by decide) (by decide) (by decide)).trans (by decide)
  have hglobal : leafPut (makePte tramp (leafFlags (pteX ||| pteR ||| pteG))) = [] := by
    rw [leafPut, hbit, Bool.not_true, Bool.and_false, Bool.false_and]
    rfl
  obtain ⟨⟨taken', himage'⟩, hentry'⟩ := @Image.map _ _ _ _ _ _ _ _ _ _ [] himage hf hm (by decide) (by decide)
    (fun hu => absurd hu (by decide)) (by
      rw [hentry _ (by decide), hglobal]
      exact Perm.refl _)
  refine ⟨⟨⟨_, _, himage', hframe⟩, hleafy.mapped (by decide) hentry', hva, huser⟩, ?_⟩
  rw [hentry', if_neg (by decide), hentry _ (by decide)]

theorem Ready.stack {stack : ℕ} {s₂ : Kmem} (h : Ready s s₁ p p') (hf : FreeList s)
    (hentry : entry s₁ p'.rootPtable ustackTop = 0) (ha : pageAlloc s₁ = some (stack, s₂))
    (hm : vpageMapUser s₂ p'.rootPtable ustackTop stack (pteR ||| pteW) = some (s', 0)) :
    Ready s s' p p' ∧ (∃ taken own, Image s s' p'.rootPtable taken own [] ∧ stack ∈ own) ∧
      entry s' p'.rootPtable ustackTop = makePte stack (leafFlags (pteU ||| (pteR ||| pteW))) := by
  obtain ⟨⟨taken, own, himage, hframe⟩, hleafy, hva, huser⟩ := h
  obtain ⟨himage₂, hentry₂⟩ := himage.alloc hf ha
  have hsmall : stack < 2 ^ 52 := hf.small stack (himage₂.takes.mem_free (by simp))
  obtain ⟨⟨taken', himage'⟩, hentry'⟩ := @Image.map _ _ _ _ _ _ _ _ _ _ [] himage₂ hf hm (by decide) (by decide)
    (fun _ => by simp) (by
      rw [hentry₂, hentry, leafPut_leaf hsmall (by decide), if_pos (by decide)]
      exact Perm.refl _)
  refine ⟨⟨⟨_, _, himage', mem_append_left _ hframe⟩,
    (hleafy.congr hentry₂).mapped (by decide) hentry', hva, huser⟩, ⟨_, _, himage', by simp⟩, ?_⟩
  rw [hentry', if_pos rfl]

theorem mmapUimage_steps (hf : FreeList s) (h : mmapUimage tramp s p = some (s', p', res))
    (hres : ¬ res < 0) : res = 0 ∧ ∃ s₁ s₂ stack, Ready s s₁ p p' ∧
      entry s₁ p'.rootPtable ustackTop = 0 ∧ pageAlloc s₁ = some (stack, s₂) ∧
      vpageMapUser s₂ p'.rootPtable ustackTop stack (pteR ||| pteW) = some (s', 0) := by
  unfold mmapUimage at h
  obtain ⟨⟨s₁, p₁, res₁⟩, hspace, h⟩ := bind_eq_some_iff.mp h
  dsimp only at h
  split at h
  · rename_i hneg
    simp only [some.injEq, Prod.mk.injEq] at h
    exact absurd (h.2.2 ▸ hneg) hres
  rename_i hnn
  obtain ⟨-, hready, hentry⟩ := mmapUspace_ok hf hspace hnn
  obtain ⟨⟨s₂, res₂⟩, hrange, h⟩ := bind_eq_some_iff.mp h
  dsimp only at h
  have hm := vpageMapRange_one hrange
  split at h
  · rename_i hneg
    exact absurd ((dropImage_eq h).1 ▸ hneg) hres
  rename_i hnn₂
  obtain rfl := vpageMap_res_zero hm hnn₂
  obtain ⟨hready₂, hstack₂⟩ := hready.trampoline hf hentry hm
  split at h
  · exact absurd ((dropImage_eq h).1 ▸ by decide) hres
  rename_i stack s₃ ha
  obtain ⟨⟨s₄, res₄⟩, hm₄, h⟩ := bind_eq_some_iff.mp h
  dsimp only at h
  split at h
  · rename_i hneg
    obtain ⟨s₅, -, h⟩ := bind_eq_some_iff.mp h
    exact absurd ((dropImage_eq h).1 ▸ hneg) hres
  rename_i hnn₄
  obtain rfl := vpageMap_res_zero hm₄ hnn₄
  simp only [some.injEq, Prod.mk.injEq] at h
  obtain ⟨rfl, rfl, rfl⟩ := h
  exact ⟨rfl, s₂, s₃, stack, hready₂, hstack₂, ha, hm₄⟩

theorem mmapUimage_ok (hf : FreeList s) (h : mmapUimage tramp s p = some (s', p', res)) (hres : ¬ res < 0) :
    res = 0 ∧ Ready s s' p p' := by
  obtain ⟨hres, s₁, s₂, stack, hready, hentry, ha, hm⟩ := mmapUimage_steps hf h hres
  exact ⟨hres, (hready.stack hf hentry ha hm).1⟩

def SpaceFails (s : Kmem) (p : UTask) : Prop := ∃ s' p' res, mmapUspace s p = some (s', p', res) ∧ res < 0

theorem Ready.drop {res' : ℤ} (h : Ready s s₁ p p') (hf : FreeList s) (hi : Idle s) {p'' : UTask}
    (hd : dropImage s₁ p' res = some (s', p'', res')) :
    Undone s s' ∧ p''.user = p.user ∧ p''.tframeVa = trapframe := by
  obtain ⟨⟨taken, own, himage, -⟩, -, hva, huser⟩ := h
  obtain ⟨-, hfree, rfl⟩ := dropImage_eq hd
  exact ⟨himage.release hf hi hfree, huser, hva⟩

theorem Ready.putBack {page : ℕ} {s₂ s₃ : Kmem} (h : Ready s s₁ p p') (hf : FreeList s) (hi : Idle s)
    (ha : pageAlloc s₁ = some (page, s₂)) (hput : pagePut s₂ page = some s₃) : Ready s s₃ p p' := by
  obtain ⟨⟨taken, own, himage, hframe⟩, hleafy, hva, huser⟩ := h
  obtain ⟨himage₃, hentry⟩ := himage.putBack hf hi ha rfl rfl (fun _ _ => rfl) hput
  exact ⟨⟨_, _, himage₃, hframe⟩, hleafy.congr hentry, hva, huser⟩

theorem mmapUimage_fail (hf : FreeList s) (hi : Idle s) (h : mmapUimage tramp s p = some (s', p', res))
    (hres : res < 0) : Undone s s' ∧ p'.user = p.user ∧
      (SpaceFails s p ∧ p'.tframeVa = p.tframeVa ∨ ¬ SpaceFails s p ∧ p'.tframeVa = trapframe) := by
  unfold mmapUimage at h
  obtain ⟨⟨s₁, p₁, res₁⟩, hspace, h⟩ := bind_eq_some_iff.mp h
  dsimp only at h
  split at h
  · rename_i hneg
    simp only [some.injEq, Prod.mk.injEq] at h
    obtain ⟨rfl, rfl, rfl⟩ := h
    obtain ⟨rfl, hundone⟩ := mmapUspace_fail hf hi hspace hneg
    exact ⟨hundone, rfl, .inl ⟨⟨_, _, _, hspace, hneg⟩, rfl⟩⟩
  rename_i hnn
  have hfails : ¬ SpaceFails s p := by
    rintro ⟨s₂, p₂, res₂, hspace₂, hneg⟩
    rw [hspace] at hspace₂
    simp only [some.injEq, Prod.mk.injEq] at hspace₂
    exact hnn (hspace₂.2.2 ▸ hneg)
  obtain ⟨-, hready, hentry⟩ := mmapUspace_ok hf hspace hnn
  obtain ⟨⟨s₂, res₂⟩, hrange, h⟩ := bind_eq_some_iff.mp h
  dsimp only at h
  have hm := vpageMapRange_one hrange
  have hdrop : ∀ {r : Kmem} {res' : ℤ}, Ready s r p p₁ → dropImage r p₁ res' = some (s', p', res) →
      Undone s s' ∧ p'.user = p.user ∧
        (SpaceFails s p ∧ p'.tframeVa = p.tframeVa ∨ ¬ SpaceFails s p ∧ p'.tframeVa = trapframe) := by
    intro r res' hr h
    obtain ⟨hundone, huser, hva⟩ := hr.drop hf hi h
    exact ⟨hundone, huser, .inr ⟨hfails, hva⟩⟩
  split at h
  · rename_i hneg
    obtain ⟨taken, own, himage, -⟩ := hready.image
    rcases himage.map_fail hf hi hm hneg with heq | hbroken
    · rw [heq] at h
      exact hdrop hready h
    · have hfree := (dropImage_eq h).2.1
      rw [hbroken.free] at hfree
      cases hfree
  rename_i hnn₂
  obtain rfl := vpageMap_res_zero hm hnn₂
  obtain ⟨hready₂, hstack₂⟩ := hready.trampoline hf hentry hm
  split at h
  · exact hdrop hready₂ h
  rename_i stack s₃ ha
  obtain ⟨⟨s₄, res₄⟩, hm₄, h⟩ := bind_eq_some_iff.mp h
  dsimp only at h
  split at h
  · rename_i hneg
    obtain ⟨s₅, hput, h⟩ := bind_eq_some_iff.mp h
    obtain ⟨taken, own, himage, -⟩ := hready₂.image
    rcases (himage.alloc hf ha).1.map_fail hf hi hm₄ hneg with heq | hbroken
    · rw [heq] at hput
      exact hdrop (hready₂.putBack hf hi ha hput) h
    · have hfree := (dropImage_eq h).2.1
      rw [(hbroken.put hput).free] at hfree
      cases hfree
  · simp only [some.injEq, Prod.mk.injEq] at h
    rw [← h.2.2] at hres
    exact absurd hres (lt_irrefl 0)

end Results

/-! A machine of twenty free pages, and a task without memory. -/

def freshMem : Kmem := ⟨fun _ _ => 0, fun _ => 0, List.range' 1 20⟩

theorem freshMem_free : FreeList freshMem := ⟨by decide, by decide⟩

def freshTask : UTask := ⟨true, 0, 0, 0⟩

theorem exists_image {test : Kmem → UTask → Bool}
    (h : (mmapUimage 0 freshMem freshTask).any (fun r => decide (r.2.2 = 0) && test r.1 r.2.1) = true) :
    ∃ s p, mmapUimage 0 freshMem freshTask = some (s, p, 0) ∧ test s p = true := by
  obtain ⟨⟨s, p, res⟩, himage, h⟩ := (any_eq_true _ _).mp h
  obtain ⟨hres, htest⟩ := Bool.and_eq_true_iff.mp h
  obtain rfl : res = 0 := of_decide_eq_true hres
  exact ⟨s, p, himage, htest⟩

end RvMiniOs.Memory
