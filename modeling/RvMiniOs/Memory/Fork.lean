import RvMiniOs.Memory.TreeFree
import RvMiniOs.Memory.Spaces

/-!
# Fork and clone

Translation of `copy_level` and `vpage_tree_copy` in `vpages.c` and of the memory part
of `task_clone` in `task.c`. The trap frame of a task is usable when the page table of
the task maps it writable.
-/

namespace RvMiniOs.Memory

open Lib Lib.TableTree Function List Option

def untilError (f : ℕ → Kmem → Option (Kmem × ℤ)) : List ℕ → Kmem → Option (Kmem × ℤ)
  | [], s => some (s, 0)
  | i :: is, s => do
    let (s, res) ← f i s
    if res < 0 then some (s, res) else untilError f is s

def shared (pte : ℕ) : ℕ := if hasAny pte pteW then clearBits pte pteW ||| pteCow else pte

def copyLeaf (dst src i childVa : ℕ) (s : Kmem) : Option (Kmem × ℤ) :=
  if childVa = trapframe then some (s, 0)
  else
    let page := getNextLvlPte (s.mem src i)
    let s := pageGet (s.setWord src i (shared (s.mem src i))) page
    do
      let (s, res) ← vpageMap s dst childVa page (getFlags (s.mem src i))
      if res < 0 then do
        let s ← pagePut s page
        some (s, res)
      else some (s, 0)

def copyLevel (dst : ℕ) : ℕ → ℕ → ℕ → Kmem → Option (Kmem × ℤ)
  | 0, src, va, s =>
    untilError (fun i s =>
      if !hasAny (s.mem src i) pteV then some (s, 0)
      else if isANextLvlPtr (s.mem src i) then none
      else copyLeaf dst src i (va ||| i * 2 ^ 3) s) (List.range wordsPerPage) s
  | d + 1, src, va, s =>
    untilError (fun i s =>
      if !hasAny (s.mem src i) pteV then some (s, 0)
      else if isANextLvlPtr (s.mem src i) then
        copyLevel dst d (getNextLvlPte (s.mem src i)) (va ||| i * 2 ^ (pageShift + 9 * d)) s
      else copyLeaf dst src i (va ||| i * 2 ^ (pageShift + 9 * d)) s) (List.range wordsPerPage) s

def vpageTreeCopy (s : Kmem) (dst src : ℕ) : Option (Kmem × ℤ) :=
  if dst = 0 ∨ src = 0 then some (s, -einval) else copyLevel dst 3 src 0 s

def threadTrapframe (pid : ℕ) : ℕ := maxVa - (4 + pid) * pageSize

def cloneMap (env : TrapEnv) (s : Kmem) (child : UTask) (vm : Bool) : Option (Kmem × Except ℤ UTask) := do
  let (s, res) ← vpageMap s child.rootPtable child.tframeVa child.tframePa (pteR ||| pteW)
  if res < 0 then do
    let s ← if vm then pagePut s child.rootPtable else vpageTreeFree s child.rootPtable
    let s ← pagePut s child.tframePa
    some (s, .error res)
  else some (tframeInit env s child.tframePa child.rootPtable, .ok child)

def taskClone (env : TrapEnv) (s : Kmem) (parent : UTask) (pid entry args stack : ℕ) (vm : Bool) :
    Option (Kmem × Except ℤ UTask) :=
  if !parent.user then none
  else
    match pageAlloc s with
    | none => some (s, .error (-enomem))
    | some (t, s) =>
      if vm then
        let s := pageGet s parent.rootPtable
        if stack = 0 ∨ entry = 0 then do
          let s ← pagePut s parent.rootPtable
          let s ← pagePut s t
          some (s, .error (-einval))
        else
          cloneMap env (tframeSetArg (tframeStart s t entry stack) t 0 args)
            ⟨true, parent.rootPtable, t, threadTrapframe pid⟩ vm
      else
        match pageAlloc s with
        | none => do
          let s ← pagePut s t
          some (s, .error (-enomem))
        | some (root, s) => do
          let (s, res) ← vpageTreeCopy s root parent.rootPtable
          if res < 0 then do
            let s ← vpageTreeFree s root
            let s ← pagePut s t
            some (s, .error res)
          else
            cloneMap env (tframeSetReturnVal (tframeCopy s t parent.tframePa) t 0)
              ⟨true, root, t, trapframe⟩ vm

def taskFork (env : TrapEnv) (s : Kmem) (parent : UTask) (pid : ℕ) : Option (Kmem × Except ℤ UTask) :=
  taskClone env s parent pid 0 0 0 false

structure Copies (dst : ℕ) (W : Set ℕ) (s s' : Kmem) (taken : List ℕ) : Prop where
  free : s.freePages = taken ++ s'.freePages
  table : Table s'.mem 2 dst
  tables : ∀ p ∈ tablesOf s'.mem 2 dst, p ∈ tablesOf s.mem 2 dst ∨ p ∈ taken
  frame : ∀ p, p ∉ tablesOf s.mem 2 dst → p ∉ taken → p ∉ W → s'.mem p = s.mem p

section Copying

variable {dst src i va n : ℕ} {W W' : Set ℕ} {s s' s'' : Kmem} {taken taken' : List ℕ} {res : ℤ}

theorem Copies.refl (hs : Space s dst) : Copies dst W s s [] :=
  ⟨rfl, hs.table, fun _ hp => .inl hp, fun _ _ _ _ => rfl⟩

theorem Copies.mem_free (h : Copies dst W s s' taken) {p : ℕ} (hp : p ∈ taken) : p ∈ s.freePages := by
  rw [h.free]
  exact mem_append_left _ hp

theorem Copies.freeList (h : Copies dst W s s' taken) (hf : FreeList s) : FreeList s' := by
  have hnodup := hf.nodup
  rw [h.free] at hnodup
  refine ⟨(nodup_append.mp hnodup).2.1, fun p hp => hf.small p ?_⟩
  rw [h.free]
  exact mem_append_right _ hp

theorem Copies.space (h : Copies dst W s s' taken) (hs : Space s dst) (hf : FreeList s) : Space s' dst := by
  have hnodup := hf.nodup
  rw [h.free] at hnodup
  refine ⟨h.table, fun p hp hfree => ?_⟩
  rcases h.tables p hp with hold | hnew
  · refine hs.used p hold ?_
    rw [h.free]
    exact mem_append_right _ hfree
  · exact (nodup_append.mp hnodup).2.2 p hnew p hfree rfl

theorem Copies.trans (h : Copies dst W s s' taken) (h' : Copies dst W' s' s'' taken') (hW : W' ⊆ W) :
    Copies dst W s s'' (taken ++ taken') where
  free := by rw [h.free, h'.free, append_assoc]
  table := h'.table
  tables := fun p hp => by
    rcases h'.tables p hp with hmid | hnew
    · exact (h.tables p hmid).imp_right (mem_append_left _)
    · exact .inr (mem_append_right _ hnew)
  frame := fun p hp hpn hpW => by
    obtain ⟨hpt, hpt'⟩ := not_or.mp (mem_append.not.mp hpn)
    rw [h'.frame p (fun hin => (h.tables p hin).elim hp hpt) hpt' fun hin => hpW (hW hin),
      h.frame p hp hpt hpW]

theorem Copies.apart (h : Copies dst W s s' taken) {p : ℕ} (hp : p ∉ tablesOf s.mem 2 dst)
    (hfree : p ∉ s.freePages) : p ∉ tablesOf s'.mem 2 dst ∧ p ∉ s'.freePages ∧ p ∉ taken := by
  refine ⟨fun hin => ?_, fun hin => hfree ?_, fun hin => hfree (h.mem_free hin)⟩
  · exact (h.tables p hin).elim hp fun htaken => hfree (h.mem_free htaken)
  · rw [h.free]
    exact mem_append_right _ hin

theorem untilError_range {f : ℕ → Kmem → Option (Kmem × ℤ)} {P : ℕ → Kmem → Prop} (h0 : P 0 s)
    (hstep : ∀ k < n, ∀ s s' res, P k s → f k s = some (s', res) → ¬ res < 0 → P (k + 1) s')
    (h : untilError f (range n) s = some (s', res)) (hres : ¬ res < 0) : P n s' := by
  have hgen : ∀ m k, k + m = n → ∀ s, P k s → untilError f (range' k m) s = some (s', res) → P n s' := by
    intro m
    induction m with
    | zero =>
      intro k hk s hP h
      cases h
      obtain rfl : k = n := by omega
      exact hP
    | succ m ih =>
      intro k hk s hP h
      rw [range'_succ] at h
      obtain ⟨⟨s₁, res₁⟩, hf, h⟩ := bind_eq_some_iff.mp h
      dsimp only at h
      split at h
      · rename_i hneg
        cases h
        exact absurd hneg hres
      · rename_i hnn
        exact ih (k + 1) (by omega) s₁ (hstep k (by omega) s s₁ res₁ hP hf hnn) h
  rw [range_eq_range'] at h
  exact hgen n 0 (by omega) s h0 h

theorem copyLeaf_ok (hs : Space s dst) (hf : FreeList s) (hsrc : src ∉ tablesOf s.mem 2 dst)
    (hfree : src ∉ s.freePages) (h : copyLeaf dst src i va s = some (s', res)) (hres : ¬ res < 0) :
    (∃ taken, Copies dst {src} s s' taken) ∧ ∀ j, s'.mem src j =
      if j = i ∧ va ≠ trapframe then shared (s.mem src i) else s.mem src j := by
  unfold copyLeaf at h
  split at h
  · rename_i hva
    cases h
    exact ⟨⟨[], Copies.refl hs⟩, fun j => by rw [if_neg fun hj => hj.2 hva]⟩
  · rename_i hva
    dsimp only at h
    set s₁ := pageGet (s.setWord src i (shared (s.mem src i))) (getNextLvlPte (s.mem src i))
    have hout : ∀ p, p ≠ src → s₁.mem p = s.mem p := fun p hp => Kmem.setWord_mem_page_ne _ _ hp
    have hsame : ∀ p ∈ tablesOf s.mem 2 dst, s₁.mem p = s.mem p := fun p hp => hout p fun heq =>
      hsrc (heq ▸ hp)
    obtain ⟨htable₁, htables₁⟩ := hs.table.congr hsame
    have hspace₁ : Space s₁ dst := ⟨htable₁, fun p hp => hs.used p ((Set.ext_iff.mp htables₁ p).mp hp)⟩
    have hf₁ : FreeList s₁ := ⟨hf.nodup, hf.small⟩
    obtain ⟨⟨s₂, res₂⟩, hm, h⟩ := bind_eq_some_iff.mp h
    dsimp only at h
    split at h
    · rename_i hneg
      obtain ⟨s₃, -, h⟩ := bind_eq_some_iff.mp h
      cases h
      exact absurd hneg hres
    · rename_i hnn
      obtain rfl := vpageMap_res_zero hm hnn
      obtain ⟨rfl, -⟩ := Prod.mk.inj (some.inj h)
      obtain ⟨taken, hg, -⟩ := vpageMap_ok hspace₁ hf₁ hm
      have htables : ∀ p, p ∈ tablesOf s₁.mem 2 dst ↔ p ∈ tablesOf s.mem 2 dst := fun p =>
        Set.ext_iff.mp htables₁ p
      refine ⟨⟨taken, hg.takes.free, hg.table, fun p hp => (hg.tables p hp).imp_left (htables p).mp,
        fun p hp hpt hpW => ?_⟩, fun j => ?_⟩
      · rw [hg.frame p (fun hin => hp ((htables p).mp hin)) hpt, hout p hpW]
      · have hsrc' : s₂.mem src = s₁.mem src :=
          hg.frame src (fun hin => hsrc ((htables src).mp hin)) fun hin => hfree (hg.takes.mem_free hin)
        rw [hsrc']
        change (s.setWord src i (shared (s.mem src i))).mem src j = _
        rw [Kmem.setWord_mem]
        exact if_congr (by simp [hva]) rfl rfl

theorem copyLevel_spill (hs : Space s dst) (hf : FreeList s) (hsrc : src ∉ tablesOf s.mem 2 dst)
    (hfree : src ∉ s.freePages) (h : copyLevel dst 0 src va s = some (s', res)) (hres : ¬ res < 0) :
    ∃ taken, Copies dst {src} s s' taken := by
  rw [copyLevel] at h
  refine untilError_range (P := fun _ r => ∃ taken, Copies dst {src} s r taken) ⟨[], Copies.refl hs⟩ ?_ h hres
  rintro k - r r' res' ⟨taken, hc⟩ hstep hnn
  split at hstep
  · cases hstep
    exact ⟨taken, hc⟩
  · split at hstep
    · cases hstep
    · obtain ⟨hout, hnf, -⟩ := hc.apart hsrc hfree
      obtain ⟨⟨taken', hc'⟩, -⟩ := copyLeaf_ok (hc.space hs hf) (hc.freeList hf) hout hnf hstep hnn
      exact ⟨_, hc.trans hc' subset_rfl⟩

def copied (va pte : ℕ) : ℕ :=
  if hasAny pte pteV && !isANextLvlPtr pte && decide (va ≠ trapframe) then shared pte else pte

theorem copied_invalid {pte : ℕ} (hv : hasAny pte pteV = false) : copied va pte = pte := by
  rw [copied, hv]
  rfl

theorem copied_pointer {pte : ℕ} (hptr : isANextLvlPtr pte = true) : copied va pte = pte := by
  rw [copied, hptr, Bool.not_true, Bool.and_false]
  rfl

theorem copied_leaf {pte : ℕ} (hv : hasAny pte pteV = true) (hptr : isANextLvlPtr pte = false) :
    copied va pte = if va ≠ trapframe then shared pte else pte := by
  rw [copied, hv, hptr]
  exact if_congr (by simp only [Bool.not_false, Bool.and_self, Bool.true_and, decide_eq_true_eq]) rfl rfl

def keyVa (key : ℕ → ℕ) : ℕ → ℕ → ℕ
  | 0, va => va ||| key 0 * 2 ^ pageShift
  | l + 1, va => keyVa key l (va ||| key (l + 1) * 2 ^ (pageShift + 9 * (l + 1)))

theorem copyLevel_table (hs : Space s dst) (hf : FreeList s)
    (hsrc : src ∉ tablesOf s.mem 2 dst ∧ src ∉ s.freePages)
    (hspill : ∀ p ∈ spillOf s.mem 0 src, p ≠ src ∧ p ∉ tablesOf s.mem 2 dst ∧ p ∉ s.freePages)
    (h : copyLevel dst 1 src va s = some (s', res)) (hres : ¬ res < 0) :
    (∃ taken, Copies dst ({src} ∪ spillOf s.mem 0 src) s s' taken) ∧
      ∀ j < wordsPerPage, s'.mem src j = copied (va ||| j * 2 ^ pageShift) (s.mem src j) := by
  rw [copyLevel] at h
  have hloop := untilError_range (P := fun n r =>
    (∃ taken, Copies dst ({src} ∪ spillOf s.mem 0 src) s r taken) ∧
      ∀ j, r.mem src j = if j < n then copied (va ||| j * 2 ^ pageShift) (s.mem src j) else s.mem src j)
    ⟨⟨[], Copies.refl hs⟩, fun j => by rw [if_neg (Nat.not_lt_zero j)]⟩ ?_ h hres
  · exact ⟨hloop.1, fun j hj => by rw [hloop.2, if_pos hj]⟩
  rintro k hk r r' res' ⟨⟨taken, hc⟩, hmem⟩ hstep hnn
  have hk' : r.mem src k = s.mem src k := by rw [hmem, if_neg (lt_irrefl k)]
  obtain ⟨hout, hnf, -⟩ := hc.apart hsrc.1 hsrc.2
  have hspace := hc.space hs hf
  have hfl := hc.freeList hf
  rw [hk'] at hstep
  -- the entry at `k` is done and the others are as before
  have hnext : ∀ w, (∀ j, r'.mem src j = if j = k then w else r.mem src j) →
      w = copied (va ||| k * 2 ^ pageShift) (s.mem src k) → ∀ j, r'.mem src j =
        if j < k + 1 then copied (va ||| j * 2 ^ pageShift) (s.mem src j) else s.mem src j := by
    intro w hw hcop j
    rw [hw, hmem]
    by_cases hj : j = k
    · rw [if_pos hj, if_pos (by omega), hcop, hj]
    · rw [if_neg hj]
      exact if_congr (by omega) rfl rfl
  by_cases hv : hasAny (s.mem src k) pteV = true
  · rw [hv, Bool.not_true, if_neg Bool.false_ne_true] at hstep
    by_cases hptr : isANextLvlPtr (s.mem src k) = true
    · rw [if_pos hptr] at hstep
      have hin : getNextLvlPte (s.mem src k) ∈ spillOf s.mem 0 src :=
        ⟨k, hk, _, nextTable_of_valid hv hptr, rfl⟩
      obtain ⟨hne, hqt, hqf⟩ := hspill _ hin
      obtain ⟨hqt', hqf', -⟩ := hc.apart hqt hqf
      obtain ⟨taken', hc'⟩ := copyLevel_spill hspace hfl hqt' hqf' hstep hnn
      refine ⟨⟨_, hc.trans hc' (Set.singleton_subset_iff.mpr (.inr hin))⟩,
        hnext (s.mem src k) (fun j => ?_) (copied_pointer hptr).symm⟩
      have hsame : r'.mem src = r.mem src := hc'.frame src hout (hc'.apart hout hnf).2.2 (Ne.symm hne)
      rw [hsame]
      split
      · rename_i hj
        rw [hj, hk']
      · rfl
    · rw [if_neg hptr] at hstep
      obtain ⟨⟨taken', hc'⟩, hleaf⟩ := copyLeaf_ok hspace hfl hout hnf hstep hnn
      refine ⟨⟨_, hc.trans hc' (Set.singleton_subset_iff.mpr (.inl rfl))⟩, hnext _ (fun j => ?_) rfl⟩
      rw [hleaf, hk']
      by_cases hj : j = k
      · subst hj
        rw [if_pos rfl, hk', copied_leaf hv (by simpa using hptr)]
        exact if_congr (and_iff_right rfl) rfl rfl
      · rw [if_neg fun h => hj h.1, if_neg hj]
  · have hv' : hasAny (s.mem src k) pteV = false := by simpa using hv
    rw [hv', Bool.not_false, if_pos rfl] at hstep
    cases hstep
    refine ⟨⟨taken, hc⟩, hnext (s.mem src k) (fun j => ?_) (copied_invalid hv').symm⟩
    split
    · rename_i hj
      rw [hj, hk']
    · rfl

theorem copyLevel_ok {l : ℕ} (ht : Table s.mem l src) (hs : Space s dst) (hf : FreeList s)
    (htables : ∀ p ∈ tablesOf s.mem l src, p ∉ tablesOf s.mem 2 dst ∧ p ∉ s.freePages)
    (hspill : ∀ p ∈ spillOf s.mem l src, p ∉ tablesOf s.mem l src ∧ p ∉ tablesOf s.mem 2 dst ∧
      p ∉ s.freePages)
    (h : copyLevel dst (l + 1) src va s = some (s', res)) (hres : ¬ res < 0) :
    (∃ taken, Copies dst (tablesOf s.mem l src ∪ spillOf s.mem l src) s s' taken) ∧
      Rewritten nextTable wordsPerPage (fun key => copied (keyVa key l va)) s.mem s'.mem l src := by
  induction l generalizing src va s s' res with
  | zero =>
    obtain ⟨hc, hmem⟩ := copyLevel_table hs hf (htables src rfl)
      (fun p hp => ⟨fun heq => (hspill p hp).1 heq, (hspill p hp).2⟩) h hres
    refine ⟨hc, fun p hp => absurd hp (Set.notMem_empty p), fun key hkey => ?_⟩
    rw [value_of_slot rfl, value_of_slot rfl, hmem (key 0) (hkey 0)]
    rfl
  | succ l ih =>
    rw [copyLevel] at h
    have hloop := untilError_range (P := fun n r =>
      (∃ taken, Copies dst (tablesOf s.mem (l + 1) src ∪ spillOf s.mem (l + 1) src) s r taken) ∧
        RewrittenTo nextTable wordsPerPage (fun key => copied (keyVa key (l + 1) va)) s.mem r.mem l src n)
      ⟨⟨[], Copies.refl hs⟩, RewrittenTo.refl⟩ ?_ h hres
    · exact ⟨hloop.1, hloop.2.all⟩
    rintro k hk r r' res' ⟨⟨taken, hc⟩, hto⟩ hstep hnn
    have hself : r.mem src = s.mem src := hto.inner src (.inl rfl)
    rw [hself] at hstep
    by_cases hv : hasAny (s.mem src k) pteV = true
    · have hptr := ht.pointers src (.inl rfl) k hk hv
      rw [hv, Bool.not_true, if_neg Bool.false_ne_true, if_pos hptr] at hstep
      have hchild := nextTable_of_valid hv hptr
      generalize getNextLvlPte (s.mem src k) = c at hstep hchild
      have hrest := hto.rest k hk le_rfl c hchild
      obtain ⟨htable, heq⟩ := (ht.below hk hchild).congr hrest
      have hspilleq : spillOf r.mem l c = spillOf s.mem l c := reach_congr hrest
      have hsub : ∀ p ∈ tablesOf s.mem l c, p ∈ tablesOf s.mem (l + 1) src := fun p hp =>
        .inr ⟨k, hk, c, hchild, hp⟩
      have hsub' : ∀ p ∈ spillOf s.mem l c, p ∈ spillOf s.mem (l + 1) src := fun p hp =>
        ⟨k, hk, c, hchild, hp⟩
      obtain ⟨⟨taken', hc'⟩, hr⟩ := ih htable (hc.space hs hf) (hc.freeList hf)
        (fun p hp => by
          rw [heq] at hp
          obtain ⟨hpt, hpf⟩ := htables p (hsub p hp)
          obtain ⟨hpt', hpf', -⟩ := hc.apart hpt hpf
          exact ⟨hpt', hpf'⟩)
        (fun p hp => by
          rw [hspilleq] at hp
          obtain ⟨hpl, hpt, hpf⟩ := hspill p (hsub' p hp)
          obtain ⟨hpt', hpf', -⟩ := hc.apart hpt hpf
          rw [heq]
          exact ⟨fun hin => hpl (hsub p hin), hpt', hpf'⟩) hstep hnn
      rw [heq, hspilleq] at hc'
      refine ⟨⟨_, hc.trans hc' (Set.union_subset_union hsub hsub')⟩,
        hto.next ht.tree hk hchild hr.inner (fun key hkey hkk => ?_) fun p hp hpc => ?_⟩
      · rw [hr.value key hkey, keyVa, hkk]
      · obtain ⟨hpt, hpf⟩ := htables p hp
        obtain ⟨hpt', hpf', -⟩ := hc.apart hpt hpf
        refine hc'.frame p hpt' (fun hin => hpf' (hc'.mem_free hin)) ?_
        rintro (hin | hin)
        · exact hpc hin
        · exact (hspill p (hsub' p hin)).1 hp
    · have hv' : hasAny (s.mem src k) pteV = false := by simpa using hv
      rw [hv', Bool.not_false, if_pos rfl] at hstep
      cases hstep
      exact ⟨⟨taken, hc⟩, hto.skip (fun key => rfl) (nextTable_of_invalid hv')⟩

end Copying

section Frames

variable {env : TrapEnv} {s s' s₁ : Kmem} {ts : List UTask} {p c : UTask} {pid t root : ℕ}

theorem tframeInit_mem {q : ℕ} (hq : q ≠ t) : (tframeInit env s t root).mem q = s.mem q := by
  unfold tframeInit
  rw [Kmem.setWord_mem_page_ne _ _ hq, Kmem.setWord_mem_page_ne _ _ hq, Kmem.setWord_mem_page_ne _ _ hq,
    Kmem.setWord_mem_page_ne _ _ hq]

theorem keyVa_eq (va : ℕ) : keyVa (getVaVpn va) 2 0 = pageOf va * pageSize := by
  have h0 := getVaVpn_lt va 0
  have h1 := getVaVpn_lt va 1
  simp only [wordsPerPage] at h0 h1
  have hor : ∀ a b k : ℕ, b < 2 ^ k → a * 2 ^ k ||| b = a * 2 ^ k + b := fun a b k hb => by
    rw [← Nat.shiftLeft_eq, Nat.shiftLeft_add_eq_or_of_lt hb]
  have hhigh : getVaVpn va 2 * 2 ^ 30 ||| getVaVpn va 1 * 2 ^ 21 =
      (getVaVpn va 2 * 2 ^ 9 + getVaVpn va 1) * 2 ^ 21 := by
    rw [hor _ _ 30 (by omega)]
    ring
  have hall : (getVaVpn va 2 * 2 ^ 9 + getVaVpn va 1) * 2 ^ 21 ||| getVaVpn va 0 * 2 ^ 12 =
      (getVaVpn va 2 * 2 ^ 9 + getVaVpn va 1) * 2 ^ 21 + getVaVpn va 0 * 2 ^ 12 :=
    hor _ _ 21 (by omega)
  simp only [keyVa, Nat.zero_or, pageShift]
  norm_num only at hhigh hall ⊢
  rw [hhigh, hall]
  simp only [getVaVpn, pageOf, pageSize, pageShift]
  omega

theorem copied_trapframe {va pte : ℕ} (h : pageOf va = pageOf trapframe) :
    copied (keyVa (getVaVpn va) 2 0) pte = pte := by
  have hva : keyVa (getVaVpn va) 2 0 = trapframe := by
    rw [keyVa_eq, h]
    rfl
  rw [copied, hva, decide_eq_false (not_not.mpr rfl), Bool.and_false]
  rfl

theorem keyVa_ne_trapframe {va : ℕ} (h : pageOf va ≠ pageOf trapframe) :
    keyVa (getVaVpn va) 2 0 ≠ trapframe := by
  rw [keyVa_eq]
  intro heq
  refine h ?_
  have : pageOf va * pageSize = pageOf trapframe * pageSize := heq.trans rfl
  exact Nat.eq_of_mul_eq_mul_right (by decide) this

theorem Table.rewritten {g : (ℕ → ℕ) → ℕ → ℕ} {mem mem' : ℕ → ℕ → ℕ} {l t : ℕ} (h : Table mem l t)
    (hr : Rewritten nextTable wordsPerPage g mem mem' l t) : Table mem' l t := by
  have hrefs : SameRefs nextTable wordsPerPage mem mem' l t := fun p hp i _ => by rw [hr.inner p hp]
  refine ⟨hrefs.tree h.tree, fun p hp i hi hv => ?_⟩
  have hp' : p ∈ innerOf mem l t := (Set.ext_iff.mp hrefs.inner_eq p).mp hp
  rw [hr.inner p hp'] at hv ⊢
  exact h.pointers p hp' i hi hv

structure ForkSteps (env : TrapEnv) (s : Kmem) (p : UTask) (s' : Kmem) (c : UTask) (s₁ s₂ s₃ s₅ : Kmem) :
    Prop where
  frame : pageAlloc s = some (c.tframePa, s₁)
  root : pageAlloc s₁ = some (c.rootPtable, s₂)
  copy : ∃ res, ¬ res < 0 ∧ copyLevel c.rootPtable 3 p.rootPtable 0 s₂ = some (s₃, res)
  map : vpageMap (tframeSetReturnVal (tframeCopy s₃ c.tframePa p.tframePa) c.tframePa 0) c.rootPtable
    trapframe c.tframePa (pteR ||| pteW) = some (s₅, 0)
  init : s' = tframeInit env s₅ c.tframePa c.rootPtable
  va : c.tframeVa = trapframe

theorem taskFork_steps (h : taskFork env s p pid = some (s', .ok c)) :
    ∃ s₁ s₂ s₃ s₅, ForkSteps env s p s' c s₁ s₂ s₃ s₅ := by
  unfold taskFork taskClone at h
  split at h
  · cases h
  split at h
  · cases h
  rename_i t s₁ halloc₁
  rw [if_neg Bool.false_ne_true] at h
  split at h
  · obtain ⟨s₂, -, h⟩ := bind_eq_some_iff.mp h
    cases h
  rename_i root s₂ halloc₂
  obtain ⟨⟨s₃, res⟩, hcopy, h⟩ := bind_eq_some_iff.mp h
  dsimp only at h
  split at h
  · obtain ⟨s₄, -, h⟩ := bind_eq_some_iff.mp h
    obtain ⟨s₅, -, h⟩ := bind_eq_some_iff.mp h
    cases h
  rename_i hres
  unfold vpageTreeCopy at hcopy
  split at hcopy
  · cases hcopy
    exact absurd (by decide) hres
  unfold cloneMap at h
  obtain ⟨⟨s₅, res₅⟩, hmap, h⟩ := bind_eq_some_iff.mp h
  dsimp only at hmap h
  split at h
  · rw [if_neg Bool.false_ne_true] at h
    obtain ⟨s₆, -, h⟩ := bind_eq_some_iff.mp h
    obtain ⟨s₇, -, h⟩ := bind_eq_some_iff.mp h
    cases h
  rename_i hres₅
  obtain rfl := vpageMap_res_zero hmap hres₅
  obtain ⟨rfl, hc⟩ := Prod.mk.inj (some.inj h)
  cases hc
  exact ⟨s₁, s₂, s₃, s₅, halloc₁, halloc₂, ⟨res, hres, hcopy⟩, hmap, rfl, rfl⟩

theorem taskFork_ok (hsys : System s ts) (hp : p ∈ ts) (h : taskFork env s p pid = some (s', .ok c)) : (∀ q,
    q ∉ s.freePages → q ∉ tablesOf s.mem 2 p.rootPtable → q ∉ spillOf s.mem 2 p.rootPtable → s'.mem q =
    s.mem q) ∧ Rewritten nextTable wordsPerPage (fun key =>
    copied (keyVa key 2 0)) s.mem s'.mem 2 p.rootPtable ∧ FrameUsable s' c := by
  obtain ⟨s₁, s₂, s₃, s₅, halloc₁, halloc₂, ⟨res, hres, hcopy⟩, hmap, rfl, hva⟩ := taskFork_steps h
  clear h
  obtain ⟨user, root, t, va⟩ := c
  obtain rfl : va = trapframe := hva
  dsimp only at halloc₁ halloc₂ hcopy hmap ⊢
  -- the two new pages
  obtain ⟨ht₁, hmem₁⟩ := pageAlloc_takes halloc₁
  obtain ⟨ht₂, hmem₂⟩ := pageAlloc_takes halloc₂
  have hf₁ := ht₁.freeList hsys.free
  have hf₂ := ht₂.freeList hf₁
  have htfree : t ∈ s.freePages := ht₁.mem_free (mem_singleton_self t)
  have hrfree : root ∈ s₁.freePages := ht₂.mem_free (mem_singleton_self root)
  have htr : t ≠ root := fun heq => ht₁.not_free hsys.free (mem_singleton_self t) (heq ▸ hrfree)
  have hfree₁ : ∀ q ∈ s₁.freePages, q ∈ s.freePages := fun q hq => by
    rw [ht₁.free]
    exact mem_append_right _ hq
  have hfree₂ : ∀ q ∈ s₂.freePages, q ∈ s₁.freePages := fun q hq => by
    rw [ht₂.free]
    exact mem_append_right _ hq
  have hold : ∀ q, q ∉ s.freePages → s₂.mem q = s.mem q := fun q hq => by
    have hqr : q ≠ root := fun heq => hq (hfree₁ q (heq ▸ hrfree))
    have hqt : q ≠ t := fun heq => hq (heq ▸ htfree)
    rw [hmem₂, update_of_ne hqr, hmem₁, update_of_ne hqt]
  have hused := (hsys.space p hp).used
  obtain ⟨htab₂, htabs₂⟩ := (hsys.space p hp).table.congr fun q hq => hold q (hused q hq)
  have hspill₂ : spillOf s₂.mem 2 p.rootPtable = spillOf s.mem 2 p.rootPtable :=
    reach_congr fun q hq => hold q (hused q hq)
  obtain ⟨hblank, -⟩ := image_of_alloc halloc₂
  have hspace₂ := hblank.space hf₁
  have hroot : ∀ q, q ∉ s.freePages → q ∉ tablesOf s₂.mem 2 root := fun q hq hin =>
    hq (hfree₁ q (mem_singleton.mp (hblank.tables q hin) ▸ hrfree))
  -- the copy
  obtain ⟨⟨taken, hcp⟩, hrw⟩ := copyLevel_ok htab₂ hspace₂ hf₂
    (fun q hq => by
      rw [htabs₂] at hq
      exact ⟨hroot q (hused q hq), fun hin => hused q hq (hfree₁ q (hfree₂ q hin))⟩)
    (fun q hq => by
      rw [hspill₂] at hq
      obtain ⟨hqf, hqt⟩ := hsys.spill hp hq
      rw [htabs₂]
      exact ⟨hqt p hp, hroot q hqf, fun hin => hqf (hfree₁ q (hfree₂ q hin))⟩) hcopy hres
  rw [htabs₂, hspill₂] at hcp
  have hspace₃ := hcp.space hspace₂ hf₂
  have hf₃ := hcp.freeList hf₂
  have ht₃ : t ∉ tablesOf s₃.mem 2 root ∧ t ∉ s₃.freePages ∧ t ∉ taken := by
    refine hcp.apart (fun hin => htr (mem_singleton.mp (hblank.tables t hin))) fun hin => ?_
    exact ht₁.not_free hsys.free (mem_singleton_self t) (hfree₂ t hin)
  -- only the frame is written before and after it is mapped
  set s₄ := tframeSetReturnVal (tframeCopy s₃ t p.tframePa) t 0 with hs₄
  have hmem₄ : ∀ q, q ≠ t → s₄.mem q = s₃.mem q := fun q hq => by
    rw [hs₄, tframeSetReturnVal, Kmem.setWord_mem_page_ne _ _ hq]
    exact update_of_ne hq _ _
  obtain ⟨htab₄, htabs₄⟩ := hspace₃.table.congr fun q hq => hmem₄ q fun heq => ht₃.1 (heq ▸ hq)
  have hspace₄ : Space s₄ root := ⟨htab₄, fun q hq => hspace₃.used q ((Set.ext_iff.mp htabs₄ q).mp hq)⟩
  have hf₄ : FreeList s₄ := ⟨hf₃.nodup, hf₃.small⟩
  obtain ⟨taken₅, hg, hentry, -⟩ := vpageMap_ok hspace₄ hf₄ hmap
  have ht₅ : t ∉ tablesOf s₅.mem 2 root := fun hin => by
    rcases hg.tables t hin with hin | hin
    · exact ht₃.1 ((Set.ext_iff.mp htabs₄ t).mp hin)
    · exact ht₃.2.1 (hg.takes.mem_free hin)
  have hlate : ∀ q, q ∉ s.freePages → (tframeInit env s₅ t root).mem q = s₃.mem q := fun q hq => by
    have hqt : q ≠ t := fun heq => hq (heq ▸ htfree)
    have hq₂ : q ∉ s₂.freePages := fun hin => hq (hfree₁ q (hfree₂ q hin))
    obtain ⟨hq₃, hqf₃, -⟩ := hcp.apart (hroot q hq) hq₂
    rw [tframeInit_mem hqt, hg.frame q (fun hin => hq₃ ((Set.ext_iff.mp htabs₄ q).mp hin))
      (fun hin => hqf₃ (hg.takes.mem_free hin)), hmem₄ q hqt]
  refine ⟨fun q hqf hqt hqs => ?_, ?_, ?_⟩
  · have hq₂ : q ∉ s₂.freePages := fun hin => hqf (hfree₁ q (hfree₂ q hin))
    rw [hlate q hqf, hcp.frame q (hroot q hqf) (hcp.apart (hroot q hqf) hq₂).2.2 (by
      rintro (hin | hin)
      · exact hqt hin
      · exact hqs hin), hold q hqf]
  · refine hrw.congr (fun q hq => ?_) fun q hq => ?_
    · exact (hold q (hused q ((Set.ext_iff.mp htabs₂ q).mp hq))).symm
    · exact hlate q (hused q ((Set.ext_iff.mp htabs₂ q).mp hq))
  · have hinit : ∀ q ∈ tablesOf s₅.mem 2 root, (tframeInit env s₅ t root).mem q = s₅.mem q :=
      fun q hq => tframeInit_mem fun heq => ht₅ (heq ▸ hq)
    obtain ⟨htab', -⟩ := hg.table.congr hinit
    have hentry' : entry (tframeInit env s₅ t root) root trapframe =
        makePte t (leafFlags (pteR ||| pteW)) := by
      have hsame : entry (tframeInit env s₅ t root) root trapframe = entry s₅ root trapframe :=
        value_congr hinit (getVaVpn_lt trapframe)
      rw [hsame, hentry, if_pos rfl]
    refine ⟨makePte t (leafFlags (pteR ||| pteW)), ?_, ?_, ?_, ?_⟩
    · rw [leafPte_eq htab', hentry', leaf_valid, isANextLvlPtr_leaf]
      rfl
    · exact getNextLvlPte_makePte (by decide) (hsys.free.small t htfree)
    · rw [hasAny_two_pow, testBit_makePte (by decide)]
      decide
    · rw [hasAny_two_pow, testBit_makePte (by decide)]
      decide

theorem not_usable_shared {pte : ℕ} : ¬ (hasAny (shared pte) pteW = true ∧ hasAny (shared pte) pteCow = false) := by
  unfold shared
  split
  · rintro ⟨-, hcow⟩
    rw [hasAny_two_pow, Nat.testBit_or, Nat.testBit_two_pow_self, Bool.or_true] at hcow
    cases hcow
  · rename_i hw
    exact fun h => hw h.1

theorem frameUsable_copied {u : UTask} (ht : Table s.mem 2 u.rootPtable) (ht' : Table s'.mem 2 u.rootPtable)
    (he : entry s' u.rootPtable u.tframeVa =
      copied (keyVa (getVaVpn u.tframeVa) 2 0) (entry s u.rootPtable u.tframeVa)) :
    FrameUsable s' u ↔ FrameUsable s u ∧ pageOf u.tframeVa = pageOf trapframe := by
  by_cases hpage : pageOf u.tframeVa = pageOf trapframe
  · rw [copied_trapframe hpage] at he
    rw [frameUsable_congr ht ht' he]
    exact (and_iff_left hpage).symm
  · refine iff_of_false ?_ fun h => hpage h.2
    rintro ⟨pte, hleaf, -, hw, hcow⟩
    rw [leafPte_eq ht', he] at hleaf
    generalize entry s u.rootPtable u.tframeVa = e at hleaf
    split at hleaf
    · rename_i hvalid
      cases hleaf
      obtain ⟨hv, hn⟩ := Bool.and_eq_true_iff.mp hvalid
      rw [copied] at hv hn hw hcow
      split at hw
      · exact not_usable_shared ⟨hw, by rwa [if_pos ‹_›] at hcow⟩
      · rename_i hcond
        rw [if_neg hcond] at hv hn
        refine hcond ?_
        rw [hv, hn, decide_eq_true (keyVa_ne_trapframe hpage)]
        rfl
    · cases hleaf

/-- After a fork every trap frame is usable exactly when every one was before, and no
task that shares the page table of the forking one has its frame elsewhere than at
`TRAPFRAME`. -/
theorem fork_frames_usable_iff (hsys : System s ts) (hp : p ∈ ts)
    (h : taskFork env s p pid = some (s', .ok c)) :
    (∀ u ∈ c :: ts, FrameUsable s' u) ↔ ∀ u ∈ ts, FrameUsable s u ∧
      (u.rootPtable = p.rootPtable → pageOf u.tframeVa = pageOf trapframe) := by
  obtain ⟨hframe, hrw, hchild⟩ := taskFork_ok hsys hp h
  have hone : ∀ u ∈ ts, FrameUsable s' u ↔ FrameUsable s u ∧
      (u.rootPtable = p.rootPtable → pageOf u.tframeVa = pageOf trapframe) := by
    intro u hu
    have ht := (hsys.space u hu).table
    by_cases hroot : u.rootPtable = p.rootPtable
    · rw [← hroot] at hrw
      rw [frameUsable_copied ht (ht.rewritten hrw) (hrw.value _ (getVaVpn_lt _))]
      simp only [hroot, true_implies]
    · have hsame : ∀ q ∈ tablesOf s.mem 2 u.rootPtable, s'.mem q = s.mem q := fun q hq =>
        hframe q ((hsys.space u hu).used q hq)
          (Set.disjoint_left.mp (hsys.apart u hu p hp hroot) hq)
          fun hin => (hsys.spill hp hin).2 u hu hq
      rw [frameUsable_congr ht (ht.congr hsame).1 (value_congr hsame (getVaVpn_lt _))]
      simp only [hroot, false_implies, and_true]
  simp only [forall_mem_cons, hchild, true_and]
  exact forall₂_congr hone

end Frames

theorem exists_clone {x : Option (Kmem × Except ℤ UTask)} {test : Kmem → UTask → Bool}
    (h : x.any (fun r => r.2.toOption.any (test r.1)) = true) :
    ∃ s c, x = some (s, .ok c) ∧ test s c = true := by
  obtain ⟨⟨s, r⟩, hx, h⟩ := (any_eq_true _ _).mp h
  cases r with
  | error e => cases h
  | ok c => exact ⟨s, c, hx, h⟩

/-- A process without threads forks. -/
theorem fork_frames_usable_alone : ∃ s₁ p₁ s₂ c, mmapUimage 0 freshMem freshTask = some (s₁, p₁, 0) ∧
    taskFork ⟨0, 0, 0⟩ s₁ p₁ 2 = some (s₂, .ok c) ∧ ∀ u ∈ [c, p₁], FrameUsable s₂ u := by
  obtain ⟨s₁, p₁, himage, htest⟩ := @exists_image (fun s p =>
    decide ((collectOf maps s.mem 2 p.rootPtable).Nodup) &&
    decide (∀ q ∈ collectOf maps s.mem 2 p.rootPtable, q ∉ s.freePages) &&
    decide (FrameUsable s p) && decide (pageOf p.tframeVa = pageOf trapframe) &&
    (taskFork ⟨0, 0, 0⟩ s p 2).any fun r => r.2.toOption.any fun _ => true) (by decide +kernel)
  simp only [Bool.and_eq_true, decide_eq_true_eq] at htest
  obtain ⟨⟨⟨⟨hnodup, hused⟩, hframe⟩, hpage⟩, hfork⟩ := htest
  obtain ⟨s₂, c, hfork, -⟩ := @exists_clone _ (fun _ _ => true) hfork
  obtain ⟨-, hready⟩ := mmapUimage_ok freshMem_free himage (by decide)
  obtain ⟨taken, own, hb, -⟩ := hready.image
  have hsys := system_single (hb.freeList freshMem_free) (hb.space freshMem_free) hnodup hused
  refine ⟨s₁, p₁, s₂, c, himage, hfork,
    (fork_frames_usable_iff hsys (mem_singleton_self p₁) hfork).mpr fun u hu => ?_⟩
  rw [mem_singleton.mp hu]
  exact ⟨hframe, fun _ => hpage⟩

/-- A process with a second thread forks: the frame of the thread is no longer
writable. -/
theorem fork_shares_thread_frame : ∃ s₁ p₁ s₂ th s₃ c,
    mmapUimage 0 freshMem freshTask = some (s₁, p₁, 0) ∧
    taskClone ⟨0, 0, 0⟩ s₁ p₁ 2 0x10000 0 0x20000 true = some (s₂, .ok th) ∧
    taskFork ⟨0, 0, 0⟩ s₂ p₁ 3 = some (s₃, .ok c) ∧
    FrameUsable s₂ p₁ ∧ FrameUsable s₂ th ∧ ¬ FrameUsable s₃ th := by
  obtain ⟨s₁, p₁, himage, htest⟩ := @exists_image (fun s p =>
    (taskClone ⟨0, 0, 0⟩ s p 2 0x10000 0 0x20000 true).any fun r => r.2.toOption.any fun th =>
      decide (FrameUsable r.1 p) && decide (FrameUsable r.1 th) &&
      (taskFork ⟨0, 0, 0⟩ r.1 p 3).any fun r' => r'.2.toOption.any fun _ => decide (¬ FrameUsable r'.1 th))
    (by decide +kernel)
  obtain ⟨s₂, th, hclone, htest⟩ := @exists_clone _ (fun s th =>
    decide (FrameUsable s p₁) && decide (FrameUsable s th) &&
      (taskFork ⟨0, 0, 0⟩ s p₁ 3).any fun r' => r'.2.toOption.any fun _ => decide (¬ FrameUsable r'.1 th)) htest
  simp only [Bool.and_eq_true, decide_eq_true_eq] at htest
  obtain ⟨⟨hleader, hthread⟩, hfork⟩ := htest
  obtain ⟨s₃, c, hfork, hbroken⟩ := @exists_clone _ (fun s _ => decide (¬ FrameUsable s th)) hfork
  exact ⟨s₁, p₁, s₂, th, s₃, c, himage, hclone, hfork, hleader, hthread, of_decide_eq_true hbroken⟩

end RvMiniOs.Memory
