import RvMiniOs.Lib.TableTree
import RvMiniOs.Memory.UserCopy

/-!
# Page tables as maps

A root table and what hangs below it is a tree of tables. `entry` is the word of
the last level for an address, zero where there is none: `vpage_map` changes it for
one page and nothing else, and `walk_leaf` reads it.
-/

namespace RvMiniOs.Memory

open Lib Lib.TableTree Function List Option

theorem makePte_eq {page flags : ℕ} (h : flags < 2 ^ 10) : makePte page flags = page * 2 ^ 10 + flags := by
  rw [makePte, ← Nat.shiftLeft_eq, Nat.shiftLeft_add_eq_or_of_lt h]

theorem getNextLvlPte_makePte {page flags : ℕ} (h : flags < 2 ^ 10) (hp : page < 2 ^ 52) :
    getNextLvlPte (makePte page flags) = page := by
  rw [makePte_eq h, getNextLvlPte]
  omega

theorem testBit_makePte {page flags k : ℕ} (hk : k < 10) :
    (makePte page flags).testBit k = flags.testBit k := by
  rw [makePte, Nat.testBit_or, Nat.testBit_mul_two_pow]
  simp [Nat.not_le.mpr hk]

theorem testBit_leafFlags {flags k : ℕ} (h0 : k ≠ 0) (h6 : k ≠ 6) (h7 : k ≠ 7) :
    (leafFlags flags).testBit k = flags.testBit k := by
  have hd : (if hasAny flags pteW = true then pteD else 0).testBit k = false := by
    split
    · exact (Nat.testBit_two_pow ..).trans (decide_eq_false (by omega))
    · exact Nat.zero_testBit k
  rw [leafFlags, Nat.testBit_or, Nat.testBit_or, Nat.testBit_or, hd, Nat.testBit_two_pow,
    Nat.testBit_two_pow, decide_eq_false (by omega), decide_eq_false (by omega)]
  simp

theorem leafFlags_lt {flags : ℕ} (h : flags < 2 ^ 10) : leafFlags flags < 2 ^ 10 := by
  have hd : (if hasAny flags pteW = true then pteD else 0) < 2 ^ 10 := by split <;> decide
  exact Nat.or_lt_two_pow (Nat.or_lt_two_pow (Nat.or_lt_two_pow h (by decide)) (by decide)) hd

theorem hasAny_leaf {page flags k : ℕ} (h0 : k ≠ 0) (h6 : k ≠ 6) (h7 : k ≠ 7) (hk : k < 10) :
    hasAny (makePte page (leafFlags flags)) (2 ^ k) = hasAny flags (2 ^ k) := by
  rw [hasAny_two_pow, hasAny_two_pow, testBit_makePte hk, testBit_leafFlags h0 h6 h7]

theorem leaf_valid (page flags : ℕ) : hasAny (makePte page (leafFlags flags)) pteV = true := by
  rw [hasAny_two_pow, testBit_makePte (by decide), leafFlags]
  simp

theorem isANextLvlPtr_leaf (page flags : ℕ) :
    isANextLvlPtr (makePte page (leafFlags flags)) = isANextLvlPtr flags := by
  have hbit : ∀ k, k ≠ 0 → k < 6 → hasAny (makePte page (leafFlags flags)) (2 ^ k) = hasAny flags (2 ^ k) :=
    fun k h0 hk => hasAny_leaf h0 (by omega) (by omega) (by omega)
  rw [isANextLvlPtr, isANextLvlPtr, hbit 1 (by decide) (by decide), hbit 2 (by decide) (by decide),
    hbit 3 (by decide) (by decide)]

def nextTable (pte : ℕ) : Option ℕ :=
  if hasAny pte pteV && isANextLvlPtr pte then some (getNextLvlPte pte) else none

theorem nextTable_eq_some {pte c : ℕ} (h : nextTable pte = some c) :
    hasAny pte pteV = true ∧ isANextLvlPtr pte = true ∧ c = getNextLvlPte pte := by
  unfold nextTable at h
  split at h
  · rename_i hv
    obtain ⟨hv, hn⟩ := Bool.and_eq_true_iff.mp hv
    exact ⟨hv, hn, (some.inj h).symm⟩
  · cases h

theorem nextTable_of_valid {pte : ℕ} (hv : hasAny pte pteV = true) (hn : isANextLvlPtr pte = true) :
    nextTable pte = some (getNextLvlPte pte) := by
  rw [nextTable, hv, hn]
  rfl

theorem nextTable_of_invalid {pte : ℕ} (hv : hasAny pte pteV = false) : nextTable pte = none := by
  rw [nextTable, hv]
  rfl

theorem nextTable_zero : nextTable 0 = none := by decide

theorem makePte_valid (page : ℕ) :
    hasAny (makePte page pteV) pteV = true ∧ isANextLvlPtr (makePte page pteV) = true := by
  simp only [isANextLvlPtr, hasAny_two_pow, Bool.and_eq_true, Bool.not_eq_true']
  refine ⟨?_, ⟨?_, ?_⟩, ?_⟩ <;> rw [testBit_makePte (by decide)] <;> decide

theorem nextTable_makePte {page : ℕ} (hp : page < 2 ^ 52) : nextTable (makePte page pteV) = some page := by
  rw [nextTable_of_valid (makePte_valid page).1 (makePte_valid page).2,
    getNextLvlPte_makePte (by decide) hp]

abbrev tablesOf (mem : ℕ → ℕ → ℕ) (l t : ℕ) : Set ℕ := tables nextTable wordsPerPage mem l t

abbrev innerOf (mem : ℕ → ℕ → ℕ) (l t : ℕ) : Set ℕ := inner nextTable wordsPerPage mem l t

abbrev collectOf (last : ℕ → List ℕ) (mem : ℕ → ℕ → ℕ) (l t : ℕ) : List ℕ :=
  collect nextTable wordsPerPage last mem l t

structure Table (mem : ℕ → ℕ → ℕ) (l t : ℕ) : Prop where
  tree : Tree nextTable wordsPerPage mem l t
  pointers : ∀ p ∈ innerOf mem l t, ∀ i < wordsPerPage, hasAny (mem p i) pteV = true →
    isANextLvlPtr (mem p i) = true

def entry (s : Kmem) (root va : ℕ) : ℕ := value nextTable s.mem (getVaVpn va) 2 root

def pageOf (va : ℕ) : ℕ := va / pageSize % 2 ^ 27

theorem pageOf_eq_iff {va vb : ℕ} : pageOf va = pageOf vb ↔ ∀ k ≤ 2, getVaVpn va k = getVaVpn vb k := by
  have hall : (∀ k ≤ 2, getVaVpn va k = getVaVpn vb k) ↔
      getVaVpn va 0 = getVaVpn vb 0 ∧ getVaVpn va 1 = getVaVpn vb 1 ∧ getVaVpn va 2 = getVaVpn vb 2 := by
    constructor
    · intro h
      exact ⟨h 0 (by omega), h 1 (by omega), h 2 (by omega)⟩
    · rintro ⟨h0, h1, h2⟩ k hk
      interval_cases k <;> assumption
  rw [hall]
  simp only [pageOf, pageSize, getVaVpn, pageShift]
  omega

section Tables

variable {mem mem' : ℕ → ℕ → ℕ} {l t i c : ℕ}

theorem Table.below (h : Table mem (l + 1) t) (hi : i < wordsPerPage)
    (hc : nextTable (mem t i) = some c) : Table mem l c :=
  ⟨(h.tree.1 i hi c hc).1, fun p hp => h.pointers p (.inr ⟨i, hi, c, hc, hp⟩)⟩

theorem Table.congr (h : Table mem l t) (hsame : ∀ p ∈ tablesOf mem l t, mem' p = mem p) :
    Table mem' l t ∧ tablesOf mem' l t = tablesOf mem l t := by
  have hrefs : SameRefs nextTable wordsPerPage mem mem' l t := fun p hp i _ => by
    rw [hsame p (inner_subset hp)]
  refine ⟨⟨hrefs.tree h.tree, fun p hp i hi hv => ?_⟩, hrefs.tables_eq⟩
  have hp' : p ∈ innerOf mem l t := (Set.ext_iff.mp hrefs.inner_eq p).mp hp
  rw [hsame p (inner_subset hp')] at hv ⊢
  exact h.pointers p hp' i hi hv

theorem table_of_blank (h : ∀ i, mem t i = 0) (l : ℕ) :
    Table mem l t ∧ tablesOf mem l t = {t} ∧ ∀ key : ℕ → ℕ, value nextTable mem key l t = 0 := by
  have hnone : ∀ i < wordsPerPage, nextTable (mem t i) = none := fun i _ => by rw [h i, nextTable_zero]
  obtain ⟨htree, htables⟩ := tree_of_blank hnone l
  refine ⟨⟨htree, fun p hp i _ hv => ?_⟩, htables, fun key => ?_⟩
  · have hpt : p = t := (Set.ext_iff.mp htables p).mp (inner_subset hp)
    rw [hpt, h i] at hv
    exact absurd hv (by decide)
  · cases l with
    | zero => exact (value_of_slot rfl).trans (h _)
    | succ l => exact value_succ_none (by rw [h, nextTable_zero])

theorem Table.replace {new : Set ℕ} (h : Table mem (l + 1) t) (hi : i < wordsPerPage)
    (hc : nextTable (mem' t i) = some c) (hsub : Table mem' l c)
    (htables : ∀ p ∈ tablesOf mem' l c, p ∈ new ∨ ∃ d, nextTable (mem t i) = some d ∧ p ∈ tablesOf mem l d)
    (hnew : ∀ p ∈ new, p ∉ tablesOf mem (l + 1) t)
    (hself : ∀ j, j ≠ i → mem' t j = mem t j)
    (hframe : ∀ p ∈ tablesOf mem (l + 1) t, p ≠ t →
      (∀ d, nextTable (mem t i) = some d → p ∉ tablesOf mem l d) → mem' p = mem p) :
    Table mem' (l + 1) t ∧
      (∀ p ∈ tablesOf mem' (l + 1) t, p ∈ tablesOf mem (l + 1) t ∨ p ∈ new) ∧
      ∀ key : ℕ → ℕ, (∀ k, key k < wordsPerPage) → key (l + 1) ≠ i →
        value nextTable mem' key (l + 1) t = value nextTable mem key (l + 1) t := by
  -- nothing changes behind another index
  have hother : ∀ j < wordsPerPage, j ≠ i → ∀ d, nextTable (mem t j) = some d →
      ∀ p ∈ tablesOf mem l d, mem' p = mem p := by
    intro j hj hji d hd p hp
    refine hframe p (.inr ⟨j, hj, d, hd, hp⟩) ?_ fun e he hpe => ?_
    · rintro rfl
      exact (h.tree.1 j hj d hd).2 hp
    · exact Set.disjoint_left.mp (h.tree.2 j hj i hi hji d e hd he) hp hpe
  have hrefs : ∀ j < wordsPerPage, j ≠ i → ∀ d, nextTable (mem t j) = some d →
      SameRefs nextTable wordsPerPage mem mem' l d := fun j hj hji d hd p hp k _ => by
    rw [hother j hj hji d hd p (inner_subset hp)]
  have hothers : ∀ j < wordsPerPage, j ≠ i → nextTable (mem' t j) = nextTable (mem t j) :=
    fun j _ hji => by rw [hself j hji]
  refine ⟨⟨h.tree.replace hi hc hsub.tree htables hnew hothers hrefs, fun p hp j hj hv => ?_⟩,
    fun p hp => ?_, fun key hkey hne => ?_⟩
  · rcases hp with rfl | ⟨k, hk, d, hd, hp⟩
    · by_cases hji : j = i
      · rw [hji]
        exact (nextTable_eq_some hc).2.1
      · rw [hself j hji] at hv ⊢
        exact h.pointers p (.inl rfl) j hj hv
    · by_cases hki : k = i
      · subst hki
        obtain rfl := some.inj (hc.symm.trans hd)
        exact hsub.pointers p hp j hj hv
      · rw [hothers k hk hki] at hd
        have hp' : p ∈ innerOf mem l d := (Set.ext_iff.mp (hrefs k hk hki d hd).inner_eq p).mp hp
        rw [hother k hk hki d hd p (inner_subset hp')] at hv ⊢
        exact h.pointers p (.inr ⟨k, hk, d, hd, hp'⟩) j hj hv
  · rcases hp with rfl | ⟨k, hk, d, hd, hp⟩
    · exact .inl (.inl rfl)
    · by_cases hki : k = i
      · subst hki
        obtain rfl := some.inj (hc.symm.trans hd)
        rcases htables p hp with hn | ⟨e, he, hpe⟩
        · exact .inr hn
        · exact .inl (.inr ⟨k, hk, e, he, hpe⟩)
      · rw [hothers k hk hki] at hd
        exact .inl (.inr ⟨k, hk, d, hd, (Set.ext_iff.mp (hrefs k hk hki d hd).tables_eq p).mp hp⟩)
  · cases hd : nextTable (mem t (key (l + 1))) with
    | none =>
      rw [value_succ_none hd, value_succ_none ((hothers _ (hkey _) hne).trans hd)]
    | some d =>
      rw [value_succ hd, value_succ ((hothers _ (hkey _) hne).trans hd)]
      exact value_congr (hother _ (hkey _) hne d hd) hkey

end Tables

structure FreeList (s : Kmem) : Prop where
  nodup : s.freePages.Nodup
  small : ∀ p ∈ s.freePages, p < 2 ^ 52

structure Takes (s s' : Kmem) (taken : List ℕ) : Prop where
  free : s.freePages = taken ++ s'.freePages
  count : ∀ p, s'.pageRc p = if p ∈ taken then (s.pageRc p + 1) % 256 else s.pageRc p

section Takes

variable {s s' s'' : Kmem} {taken taken' : List ℕ}

theorem Takes.refl (s : Kmem) : Takes s s [] := ⟨rfl, fun _ => rfl⟩

theorem Takes.mem_free (h : Takes s s' taken) {p : ℕ} (hp : p ∈ taken) : p ∈ s.freePages := by
  rw [h.free]
  exact mem_append_left _ hp

theorem Takes.freeList (h : Takes s s' taken) (hf : FreeList s) : FreeList s' := by
  have hnodup := hf.nodup
  rw [h.free] at hnodup
  refine ⟨(nodup_append.mp hnodup).2.1, fun p hp => hf.small p ?_⟩
  rw [h.free]
  exact mem_append_right _ hp

theorem Takes.not_free (h : Takes s s' taken) (hf : FreeList s) {p : ℕ} (hp : p ∈ taken) :
    p ∉ s'.freePages := by
  have hnodup := hf.nodup
  rw [h.free] at hnodup
  exact fun hfree => (nodup_append.mp hnodup).2.2 p hp p hfree rfl

theorem Takes.trans (h : Takes s s' taken) (h' : Takes s' s'' taken') (hf : FreeList s) :
    Takes s s'' (taken ++ taken') := by
  refine ⟨by rw [h.free, h'.free, append_assoc], fun p => ?_⟩
  rw [h'.count, h.count]
  by_cases hp : p ∈ taken
  · have hp' : p ∉ taken' := fun hin => h.not_free hf hp (h'.mem_free hin)
    simp [hp, hp']
  · by_cases hp' : p ∈ taken' <;> simp [hp, hp']

end Takes

theorem pageAlloc_takes {s s' : Kmem} {p : ℕ} (h : pageAlloc s = some (p, s')) :
    Takes s s' [p] ∧ s'.mem = update s.mem p fun _ => 0 := by
  unfold pageAlloc at h
  split at h
  · cases h
  · rename_i q rest hfree
    obtain ⟨rfl, rfl⟩ := Prod.mk.inj (some.inj h)
    refine ⟨⟨hfree, fun r => ?_⟩, rfl⟩
    by_cases hr : r = q
    · subst hr
      simp [pageGet]
    · simp [pageGet, hr]

theorem pageAlloc_none {s : Kmem} (h : pageAlloc s = none) : s.freePages = [] := by
  unfold pageAlloc at h
  split at h
  · assumption
  · cases h

structure Descended (va : ℕ) (s : Kmem) (l t : ℕ) (s' : Kmem) (taken : List ℕ) (last : Option ℕ) : Prop where
  table : Table s'.mem l t
  slot : ∀ leaf, last = some leaf → slot nextTable s'.mem (getVaVpn va) l t = some (leaf, getVaVpn va 0)
  tables : ∀ p ∈ tablesOf s'.mem l t, p ∈ tablesOf s.mem l t ∨ p ∈ taken
  new : ∀ p ∈ taken, p ∈ tablesOf s'.mem l t
  values : ∀ key : ℕ → ℕ, (∀ k, key k < wordsPerPage) →
    value nextTable s'.mem key l t = value nextTable s.mem key l t
  frame : ∀ p, p ∉ innerOf s.mem l t → p ∉ taken → s'.mem p = s.mem p
  takes : Takes s s' taken
  same : taken = [] → s' = s
  collects : ∀ f : ℕ → List ℕ, f 0 = [] →
    (collectOf f s'.mem l t).Perm (collectOf f s.mem l t ++ taken)

section Descents

variable {va l t i c : ℕ} {s s' : Kmem} {taken : List ℕ} {last : Option ℕ}

theorem Descended.refl (h : Table s.mem l t)
    (hslot : ∀ leaf, last = some leaf →
      TableTree.slot nextTable s.mem (getVaVpn va) l t = some (leaf, getVaVpn va 0)) :
    Descended va s l t s [] last where
  table := h
  slot := hslot
  tables := fun _ hp => .inl hp
  new := fun _ hp => (not_mem_nil hp).elim
  values := fun _ _ => rfl
  frame := fun _ _ _ => rfl
  takes := Takes.refl s
  same := fun _ => rfl
  collects := fun f _ => by rw [append_nil]

theorem Descended.existing (hd : Descended va s l c s' taken last) (h : Table s.mem (l + 1) t)
    (hdisj : ∀ p ∈ tablesOf s.mem (l + 1) t, p ∉ s.freePages) (hidx : getVaVpn va (l + 1) = i)
    (hi : i < wordsPerPage) (hc : nextTable (s.mem t i) = some c) :
    Descended va s (l + 1) t s' taken last := by
  have htaken : ∀ p ∈ taken, p ∉ tablesOf s.mem (l + 1) t := fun p hp hin =>
    hdisj p hin (hd.takes.mem_free hp)
  have htc : t ∉ tablesOf s.mem l c := (h.tree.1 i hi c hc).2
  have hself : s'.mem t = s.mem t :=
    hd.frame t (fun hin => htc (inner_subset hin)) fun hin => htaken t hin (mem_tables_self _ _)
  have hc' : nextTable (s'.mem t i) = some c := by rw [hself, hc]
  obtain ⟨htable, htabs, hvals⟩ := @Table.replace _ s'.mem _ _ _ _ {p | p ∈ taken} h hi hc' hd.table
    (fun p hp => (hd.tables p hp).symm.imp_right fun hin => ⟨c, hc, hin⟩) htaken
    (fun j _ => by rw [hself])
    fun p hp _ hnot => hd.frame p (fun hin => hnot c hc (inner_subset hin)) fun hin => htaken p hin hp
  refine ⟨htable, fun leaf hleaf => ?_, htabs, fun p hp => .inr ⟨i, hi, c, hc', hd.new p hp⟩,
    fun key hkey => ?_, fun p hp hpt => ?_, hd.takes, hd.same, fun f hf => ?_⟩
  · simp only [TableTree.slot, hidx, hc', bind_some]
    exact hd.slot leaf hleaf
  · by_cases hki : key (l + 1) = i
    · rw [value_succ (c := c) (by rw [hki]; exact hc'), value_succ (c := c) (by rw [hki]; exact hc)]
      exact hd.values key hkey
    · exact hvals key hkey hki
  · exact hd.frame p (fun hin => hp (.inr ⟨i, hi, c, hc, hin⟩)) hpt
  · have hperm := @collect_table_perm _ t i (fun j => (nextTable (s.mem t j)).elim [] (collectOf f s.mem l))
      (fun j => (nextTable (s'.mem t j)).elim [] (collectOf f s'.mem l)) [] taken hi
      (fun j hj hji => by
        rw [hself]
        cases hjd : nextTable (s.mem t j) with
        | none => rfl
        | some d =>
          refine collect_congr fun p hp => hd.frame p (fun hin => ?_) fun hin =>
            htaken p hin (.inr ⟨j, hj, d, hjd, hp⟩)
          exact Set.disjoint_left.mp (h.tree.2 j hj i hi hji d c hjd hc) hp (inner_subset hin))
      (by
        rw [hc', hc, append_nil]
        exact hd.collects f hf)
    rwa [append_nil] at hperm

structure Created (s : Kmem) (t i c : ℕ) (s₂ : Kmem) : Prop where
  takes : Takes s s₂ [c]
  small : c < 2 ^ 52
  ne : c ≠ t
  blank : ∀ j, s₂.mem c j = 0
  link : s₂.mem t i = makePte c pteV
  entries : ∀ j, j ≠ i → s₂.mem t j = s.mem t j
  frame : ∀ p, p ≠ t → p ≠ c → s₂.mem p = s.mem p

theorem created_of_alloc {s₁ : Kmem} (hf : FreeList s) (htfree : t ∉ s.freePages)
    (ha : pageAlloc s = some (c, s₁)) : Created s t i c (s₁.setWord t i (makePte c pteV)) := by
  obtain ⟨htake, hmem₁⟩ := pageAlloc_takes ha
  have hcfree : c ∈ s.freePages := htake.mem_free (mem_singleton_self c)
  have hct : c ≠ t := by
    rintro rfl
    exact htfree hcfree
  refine ⟨⟨htake.free, htake.count⟩, hf.small c hcfree, hct, fun j => ?_, Kmem.setWord_mem_self ..,
    fun j hj => ?_, fun p hpt hpc => ?_⟩
  · rw [Kmem.setWord_mem_page_ne _ _ hct, hmem₁, update_self]
  · rw [Kmem.setWord_mem_idx_ne _ _ hj, hmem₁, update_of_ne hct.symm]
  · rw [Kmem.setWord_mem_page_ne _ _ hpt, hmem₁, update_of_ne hpc]

theorem Descended.created {s₂ : Kmem} (hd : Descended va s₂ l c s' taken last) (hn : Created s t i c s₂)
    (h : Table s.mem (l + 1) t) (hf : FreeList s) (hdisj : ∀ p ∈ tablesOf s.mem (l + 1) t, p ∉ s.freePages)
    (hidx : getVaVpn va (l + 1) = i) (hi : i < wordsPerPage) (hv : hasAny (s.mem t i) pteV = false) :
    Descended va s (l + 1) t s' (c :: taken) last := by
  obtain ⟨-, htabs₂, hvals₂⟩ := table_of_blank hn.blank l
  have hinner₂ : ∀ p, p ∈ innerOf s₂.mem l c → p = c := fun p hp =>
    (Set.ext_iff.mp htabs₂ p).mp (inner_subset hp)
  have htakes : Takes s s' (c :: taken) := hn.takes.trans hd.takes hf
  have htaken : ∀ p ∈ c :: taken, p ∉ tablesOf s.mem (l + 1) t := fun p hp hin =>
    hdisj p hin (htakes.mem_free hp)
  have hframe : ∀ p, p ≠ t → p ∉ c :: taken → s'.mem p = s.mem p := fun p hpt hpn => by
    obtain ⟨hpc, hpn⟩ := not_or.mp (mem_cons.not.mp hpn)
    rw [hd.frame p (fun hin => hpc (hinner₂ p hin)) hpn, hn.frame p hpt hpc]
  have hself : s'.mem t = s₂.mem t :=
    hd.frame t (fun hin => hn.ne (hinner₂ t hin).symm) fun hin =>
      htaken t (mem_cons_of_mem _ hin) (mem_tables_self _ _)
  have hc' : nextTable (s'.mem t i) = some c := by rw [hself, hn.link, nextTable_makePte hn.small]
  have hsub : ∀ p ∈ tablesOf s'.mem l c, p ∈ c :: taken := fun p hp => by
    rcases hd.tables p hp with hin | hin
    · rw [htabs₂] at hin
      rw [Set.mem_singleton_iff.mp hin]
      exact mem_cons_self
    · exact mem_cons_of_mem _ hin
  obtain ⟨htable, htabs, hvals⟩ := @Table.replace _ s'.mem _ _ _ _ {p | p ∈ c :: taken} h hi hc' hd.table
    (fun p hp => .inl (hsub p hp)) htaken (fun j hj => by rw [hself, hn.entries j hj])
    fun p hp hpt _ => hframe p hpt fun hin => htaken p hin hp
  refine ⟨htable, fun leaf hleaf => ?_, htabs, fun p hp => .inr ⟨i, hi, c, hc', ?_⟩, fun key hkey => ?_,
    fun p hp hpn => hframe p (fun hpt => hp (.inl hpt)) hpn, htakes, fun h => (nomatch h), fun f hf0 => ?_⟩
  · simp only [TableTree.slot, hidx, hc', bind_some]
    exact hd.slot leaf hleaf
  · rcases mem_cons.mp hp with rfl | hp
    · exact mem_tables_self _ _
    · exact hd.new p hp
  · by_cases hki : key (l + 1) = i
    · rw [value_succ (c := c) (by rw [hki]; exact hc'),
        @value_succ_none _ s.mem _ _ _ (by rw [hki]; exact nextTable_of_invalid hv),
        hd.values key hkey, hvals₂]
    · exact hvals key hkey hki
  · have hnew : collectOf f s₂.mem l c = [c] :=
      collect_of_blank (fun j _ => by rw [hn.blank, nextTable_zero]) (fun j _ => by rw [hn.blank, hf0]) l
    have hperm := @collect_table_perm _ t i (fun j => (nextTable (s.mem t j)).elim [] (collectOf f s.mem l))
      (fun j => (nextTable (s'.mem t j)).elim [] (collectOf f s'.mem l)) [] (c :: taken) hi
      (fun j hj hji => by
        rw [hself, hn.entries j hji]
        cases hjd : nextTable (s.mem t j) with
        | none => rfl
        | some d =>
          have hin : ∀ p ∈ tablesOf s.mem l d, p ∈ tablesOf s.mem (l + 1) t := fun p hp =>
            .inr ⟨j, hj, d, hjd, hp⟩
          refine collect_congr fun p hp => hframe p ?_ fun hpn => htaken p hpn (hin p hp)
          rintro rfl
          exact (h.tree.1 j hj d hjd).2 hp)
      (by
        rw [hc', nextTable_of_invalid hv, append_nil]
        exact (hd.collects f hf0).trans (by rw [hnew]; rfl))
    rwa [append_nil] at hperm

theorem mapDescend_spec {as as' : List ℕ} (h : Table s.mem l t) (hf : FreeList s)
    (hdisj : ∀ p ∈ tablesOf s.mem l t, p ∉ s.freePages) (hm : mapDescend va l s t as = (s', as', last)) :
    ∃ taken, as' = as ++ taken ∧ Descended va s l t s' taken last := by
  induction l generalizing s t as with
  | zero =>
    obtain ⟨rfl, rfl, hlast⟩ : s = s' ∧ as = as' ∧ some t = last := by
      simpa [mapDescend] using hm
    refine ⟨[], (append_nil as).symm, Descended.refl h fun leaf hleaf => ?_⟩
    rw [← hlast] at hleaf
    rw [← some.inj hleaf]
    rfl
  | succ l ih =>
    have hi : getVaVpn va (l + 1) < wordsPerPage := getVaVpn_lt va (l + 1)
    have htfree : t ∉ s.freePages := hdisj t (mem_tables_self _ _)
    rw [mapDescend] at hm
    dsimp only at hm
    generalize hidx : getVaVpn va (l + 1) = i at hm hi
    by_cases hv : hasAny (s.mem t i) pteV = true
    · rw [if_pos hv] at hm
      have hc := nextTable_of_valid hv (h.pointers t (.inl rfl) i hi hv)
      generalize getNextLvlPte (s.mem t i) = c at hm hc
      obtain ⟨taken, has, hd⟩ := ih (h.below hi hc) hf (fun p hp => hdisj p (.inr ⟨i, hi, c, hc, hp⟩)) hm
      exact ⟨taken, has, hd.existing h hdisj hidx hi hc⟩
    · rw [if_neg hv] at hm
      cases halloc : pageAlloc s with
      | none =>
        obtain ⟨rfl, rfl, rfl⟩ : s = s' ∧ as = as' ∧ none = last := by simpa [halloc] using hm
        exact ⟨[], (append_nil as).symm, Descended.refl h fun leaf hleaf => (nomatch hleaf)⟩
      | some r =>
        obtain ⟨c, s₁⟩ := r
        simp only [halloc] at hm
        have hn : Created s t i c (s₁.setWord t i (makePte c pteV)) := created_of_alloc hf htfree halloc
        rw [getNextLvlPte_makePte (by decide) hn.small] at hm
        obtain ⟨htable₂, htabs₂, -⟩ := table_of_blank hn.blank l
        obtain ⟨taken, has, hd⟩ := ih htable₂ (hn.takes.freeList hf)
          (fun p hp => by
            rw [htabs₂] at hp
            rw [Set.mem_singleton_iff.mp hp]
            exact hn.takes.not_free hf (mem_singleton_self c)) hm
        exact ⟨c :: taken, by rw [has, append_assoc]; rfl,
          hd.created hn h hf hdisj hidx hi (by simpa using hv)⟩

end Descents

theorem mapDescend_free_le (va l : ℕ) (s : Kmem) (t : ℕ) (as : List ℕ) :
    (mapDescend va l s t as).1.freePages.length ≤ s.freePages.length := by
  induction l generalizing s t as with
  | zero => exact le_rfl
  | succ l ih =>
    rw [mapDescend]
    dsimp only
    split
    · exact ih ..
    · split
      · exact le_rfl
      · rename_i c s₁ ha
        refine (ih ..).trans ?_
        rw [Kmem.setWord_freePages, (pageAlloc_takes ha).1.free]
        simp

theorem mapDescend_needs {va l : ℕ} {s s' : Kmem} {t : ℕ} {as as' : List ℕ} {last : Option ℕ}
    (h : mapDescend va l s t as = (s', as', last)) :
    s.freePages.length ≤ s'.freePages.length + l ∧ (last = none → s.freePages.length < l) := by
  induction l generalizing s t as with
  | zero =>
    cases h
    exact ⟨le_rfl, fun hnone => (nomatch hnone)⟩
  | succ l ih =>
    rw [mapDescend] at h
    dsimp only at h
    split at h
    · obtain ⟨hle, hlast⟩ := ih h
      exact ⟨by omega, fun hnone => (hlast hnone).trans (Nat.lt_succ_self l)⟩
    · split at h
      · rename_i ha
        rw [pageAlloc_none ha]
        exact ⟨Nat.zero_le _, fun _ => Nat.succ_pos l⟩
      · rename_i c s₁ ha
        have hfree : s.freePages.length = s₁.freePages.length + 1 := by
          rw [(pageAlloc_takes ha).1.free]
          simp
        obtain ⟨hle, hlast⟩ := ih h
        rw [Kmem.setWord_freePages] at hle hlast
        exact ⟨by omega, fun hnone => by have := hlast hnone; omega⟩

structure Grows (s s' : Kmem) (root : ℕ) (taken : List ℕ) : Prop where
  table : Table s'.mem 2 root
  tables : ∀ p ∈ tablesOf s'.mem 2 root, p ∈ tablesOf s.mem 2 root ∨ p ∈ taken
  frame : ∀ p, p ∉ tablesOf s.mem 2 root → p ∉ taken → s'.mem p = s.mem p
  takes : Takes s s' taken

structure Space (s : Kmem) (root : ℕ) : Prop where
  table : Table s.mem 2 root
  used : ∀ p ∈ tablesOf s.mem 2 root, p ∉ s.freePages

section Spaces

variable {s s' s'' : Kmem} {root va page flags : ℕ} {taken taken' : List ℕ}

theorem Grows.space (h : Grows s s' root taken) (hs : Space s root) (hf : FreeList s) : Space s' root := by
  refine ⟨h.table, fun p hp hfree => ?_⟩
  rcases h.tables p hp with hold | hnew
  · refine hs.used p hold ?_
    rw [h.takes.free]
    exact mem_append_right _ hfree
  · exact h.takes.not_free hf hnew hfree

theorem Grows.trans (h : Grows s s' root taken) (h' : Grows s' s'' root taken') (hf : FreeList s) :
    Grows s s'' root (taken ++ taken') where
  table := h'.table
  tables := fun p hp => by
    rcases h'.tables p hp with hmid | hnew
    · exact (h.tables p hmid).imp_right (mem_append_left _)
    · exact .inr (mem_append_right _ hnew)
  frame := fun p hp hpn => by
    obtain ⟨hpt, hpt'⟩ := not_or.mp (mem_append.not.mp hpn)
    rw [h'.frame p (fun hin => (h.tables p hin).elim hp hpt) hpt', h.frame p hp hpt]
  takes := h.takes.trans h'.takes hf

theorem Grows.refl (hs : Space s root) : Grows s s root [] :=
  ⟨hs.table, fun _ hp => .inl hp, fun _ _ _ => rfl, Takes.refl s⟩

theorem Space.take (hs : Space s root) (ht : Takes s s' taken)
    (hmem : ∀ p, p ∉ taken → s'.mem p = s.mem p) : Grows s s' root taken ∧ (∀ va, entry s' root va =
    entry s root va) ∧ ∀ last : ℕ → List ℕ, collectOf last s'.mem 2 root = collectOf last s.mem 2 root := by
  have hsame : ∀ p ∈ tablesOf s.mem 2 root, s'.mem p = s.mem p := fun p hp =>
    hmem p fun hin => hs.used p hp (ht.mem_free hin)
  obtain ⟨htable, htables⟩ := hs.table.congr hsame
  exact ⟨⟨htable, fun p hp => .inl ((Set.ext_iff.mp htables p).mp hp), fun p _ hp => hmem p hp, ht⟩,
    fun va => value_congr hsame (getVaVpn_lt va), fun last => collect_congr hsame⟩

theorem entry_congr {vb : ℕ} (h : pageOf va = pageOf vb) : entry s root va = entry s root vb := by
  have hkey := pageOf_eq_iff.mp h
  simp only [entry, value, slot, hkey 0 (by omega), hkey 1 (by omega), hkey 2 (by omega)]

theorem Table.write {leaf i : ℕ} (h : Table s.mem 2 root)
    (hslot : slot nextTable s.mem (getVaVpn va) 2 root = some (leaf, i)) (w : ℕ) :
    Table (s.setWord leaf i w).mem 2 root ∧
      tablesOf (s.setWord leaf i w).mem 2 root = tablesOf s.mem 2 root ∧
      ∀ vb, entry (s.setWord leaf i w) root vb = if pageOf vb = pageOf va then w else entry s root vb := by
  have hmem := s.setWord_mem leaf i w
  have hinner : ∀ q ∈ innerOf s.mem 2 root, ∀ j, (s.setWord leaf i w).mem q j = s.mem q j := by
    intro q hq j
    rw [hmem, if_neg]
    rintro ⟨rfl, -⟩
    exact h.tree.slot_not_inner hslot (getVaVpn_lt va) hq
  have hrefs : SameRefs nextTable wordsPerPage s.mem (s.setWord leaf i w).mem 2 root :=
    fun q hq j _ => by rw [hinner q hq j]
  refine ⟨⟨hrefs.tree h.tree, fun q hq j hj hv => ?_⟩, hrefs.tables_eq, fun vb => ?_⟩
  · have hq' : q ∈ innerOf s.mem 2 root := (Set.ext_iff.mp hrefs.inner_eq q).mp hq
    rw [hinner q hq' j] at hv ⊢
    exact h.pointers q hq' j hj hv
  · exact (h.tree.value_write hslot (getVaVpn_lt va) (getVaVpn_lt vb) hmem).trans
      (if_congr pageOf_eq_iff.symm rfl rfl)

theorem vpageMap_ok (hs : Space s root) (hf : FreeList s)
    (hm : vpageMap s root va page flags = some (s', 0)) : ∃ taken, Grows s s' root taken ∧ (∀ vb,
    entry s' root vb = if pageOf vb = pageOf va then makePte page (leafFlags flags) else entry s root vb) ∧
    ∀ last : ℕ → List ℕ, last 0 = [] → (collectOf last s'.mem 2 root ++
    last (entry s root va)).Perm (collectOf last s.mem 2 root ++ taken ++
    last (makePte page (leafFlags flags))) := by
  unfold vpageMap at hm
  split at hm
  · rename_i s₁ as hdesc
    obtain ⟨s₂, -, hres⟩ := bind_eq_some_iff.mp hm
    exact absurd (Prod.mk.inj (some.inj hres)).2 (by decide)
  · rename_i s₁ as leaf hdesc
    obtain ⟨taken, -, hd⟩ := mapDescend_spec hs.table hf hs.used hdesc
    have hslot := hd.slot leaf rfl
    cases hm
    have hleaf : leaf ∈ tablesOf s₁.mem 2 root := (slot_mem hslot (getVaVpn_lt va)).1
    have hmem := s₁.setWord_mem leaf (getVaVpn va 0) (makePte page (leafFlags flags))
    obtain ⟨htable, htables, hentry⟩ := hd.table.write hslot (makePte page (leafFlags flags))
    refine ⟨taken, ⟨htable, fun q hq => ?_, fun q hq hqn => ?_, ⟨hd.takes.free, hd.takes.count⟩⟩, fun vb => ?_,
      fun last hlast => ?_⟩
    · exact hd.tables q ((Set.ext_iff.mp htables q).mp hq)
    · have hne : q ≠ leaf := by
        rintro rfl
        exact (hd.tables q hleaf).elim hq hqn
      rw [Kmem.setWord_mem_page_ne _ _ hne, hd.frame q (fun hin => hq (inner_subset hin)) hqn]
    · have hold : entry s₁ root vb = entry s root vb := hd.values (getVaVpn vb) (getVaVpn_lt vb)
      rw [hentry, hold]
    · have hperm := @Tree.collect_write _ _ _ _ _ _ _ _ _ last hd.table.tree hslot (getVaVpn_lt va) _ hmem
      have hold : entry s₁ root va = entry s root va := hd.values (getVaVpn va) (getVaVpn_lt va)
      rw [show value nextTable s₁.mem (getVaVpn va) 2 root = entry s root va from hold] at hperm
      exact hperm.trans ((hd.collects last hlast).append_right _)

theorem vpageMap_res {res : ℤ} (hm : vpageMap s root va page flags = some (s', res)) :
    res = 0 ∨ res = -enomem := by
  unfold vpageMap at hm
  split at hm
  · obtain ⟨s₂, -, hres⟩ := bind_eq_some_iff.mp hm
    exact .inr (Prod.mk.inj (some.inj hres)).2.symm
  · exact .inl (Prod.mk.inj (some.inj hm)).2.symm

theorem vpageMap_res_zero {res : ℤ} (hm : vpageMap s root va page flags = some (s', res))
    (hres : ¬ res < 0) : res = 0 :=
  (vpageMap_res hm).resolve_right fun h => hres (h ▸ by decide)

theorem vpageMap_free_le {res : ℤ} (hm : vpageMap s root va page flags = some (s', res))
    (hres : res = 0) : s'.freePages.length ≤ s.freePages.length := by
  have hle := mapDescend_free_le va 2 s root []
  unfold vpageMap at hm
  split at hm
  · obtain ⟨s₂, -, hm⟩ := bind_eq_some_iff.mp hm
    rw [hres] at hm
    exact absurd (Prod.mk.inj (some.inj hm)).2 (by decide)
  · rename_i s₁ as table hd
    cases hm
    rwa [hd] at hle

theorem vpageMap_needs {res : ℤ} (hm : vpageMap s root va page flags = some (s', res)) :
    (res = 0 → s.freePages.length ≤ s'.freePages.length + 2) ∧ (res < 0 → s.freePages.length < 2) := by
  unfold vpageMap at hm
  split at hm
  · rename_i s₁ as hd
    obtain ⟨s₂, -, hm⟩ := bind_eq_some_iff.mp hm
    cases hm
    exact ⟨fun hz => absurd hz (by decide), fun _ => (mapDescend_needs hd).2 rfl⟩
  · rename_i s₁ as table hd
    cases hm
    exact ⟨fun _ => (mapDescend_needs hd).1, fun hneg => absurd hneg (lt_irrefl 0)⟩

theorem walkLeaf_eq (h : Table s.mem 2 root) (va : ℕ) :
    walkLeaf s root va = (slot nextTable s.mem (getVaVpn va) 2 root).bind fun p =>
      if hasAny (s.mem p.1 p.2) pteV && !isANextLvlPtr (s.mem p.1 p.2) then some p else none := by
  have hdown : ∀ l t, Table s.mem l t → walkLeafFrom s va (l + 1) t =
      (slot nextTable s.mem (getVaVpn va) l t).bind fun p =>
        if hasAny (s.mem p.1 p.2) pteV && !isANextLvlPtr (s.mem p.1 p.2) then some p else none := by
    intro l
    induction l with
    | zero =>
      intro t _
      simp only [walkLeafFrom, slot, bind_some]
      generalize s.mem t (getVaVpn va 0) = pte
      cases hasAny pte pteV <;> cases isANextLvlPtr pte <;> rfl
    | succ l ih =>
      intro t ht
      rw [walkLeafFrom]
      simp only [slot]
      by_cases hv : hasAny (s.mem t (getVaVpn va (l + 1))) pteV = true
      · have hn := ht.pointers t (.inl rfl) _ (getVaVpn_lt va (l + 1)) hv
        have hc := nextTable_of_valid hv hn
        rw [hc, hv, hn]
        exact ih _ (ht.below (getVaVpn_lt va (l + 1)) hc)
      · have hv' : hasAny (s.mem t (getVaVpn va (l + 1))) pteV = false := by simpa using hv
        rw [nextTable_of_invalid hv', hv']
        rfl
  exact hdown 2 root h

theorem walkLeaf_some (h : Table s.mem 2 root) {t i : ℕ} (hw : walkLeaf s root va = some (t, i)) :
    s.mem t i = entry s root va ∧ hasAny (entry s root va) pteV = true ∧
      isANextLvlPtr (entry s root va) = false := by
  rw [walkLeaf_eq h] at hw
  obtain ⟨p, hp, hw⟩ := bind_eq_some_iff.mp hw
  split at hw
  · rename_i hleaf
    cases hw
    have hval : entry s root va = s.mem t i := value_of_slot hp
    rw [hval]
    simpa using hleaf
  · cases hw

theorem walkLeaf_of_entry (h : Table s.mem 2 root) (hv : hasAny (entry s root va) pteV = true)
    (hn : isANextLvlPtr (entry s root va) = false) : ∃ t i, walkLeaf s root va = some (t, i) ∧
      s.mem t i = entry s root va := by
  cases hp : slot nextTable s.mem (getVaVpn va) 2 root with
  | none =>
    rw [entry, value_of_none hp] at hv
    exact absurd hv (by decide)
  | some p =>
    have hval : entry s root va = s.mem p.1 p.2 := value_of_slot hp
    refine ⟨p.1, p.2, ?_, hval.symm⟩
    rw [hval] at hv hn
    rw [walkLeaf_eq h, hp, bind_some, hv, hn]
    rfl

def leafPte (s : Kmem) (root va : ℕ) : Option ℕ := (walkLeaf s root va).map fun p => s.mem p.1 p.2

theorem leafPte_eq (h : Table s.mem 2 root) (va : ℕ) : leafPte s root va =
    if hasAny (entry s root va) pteV && !isANextLvlPtr (entry s root va) then some (entry s root va)
    else none := by
  split
  · rename_i hleaf
    obtain ⟨hv, hn⟩ := Bool.and_eq_true_iff.mp hleaf
    obtain ⟨t, i, hw, hpte⟩ := walkLeaf_of_entry h hv (by simpa using hn)
    rw [leafPte, hw, map_some, hpte]
  · rename_i hleaf
    cases hw : walkLeaf s root va with
    | none => rw [leafPte, hw, map_none]
    | some p =>
      obtain ⟨-, hv, hn⟩ := walkLeaf_some h hw
      exact absurd (by rw [hv, hn]; rfl) hleaf

def Leafy (s : Kmem) (root : ℕ) : Prop :=
  ∀ va, hasAny (entry s root va) pteV = true → isANextLvlPtr (entry s root va) = false

end Spaces

end RvMiniOs.Memory
