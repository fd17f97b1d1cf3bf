import RvMiniOs.Memory.Sv39

/-!
# Freeing a tree of tables

`walk_free` puts the pages of the private leaves and the tables, in the order of the
walk, and clears the valid entries of the last level. Puts and stores do not interfere,
so the walk is the list of its puts followed by the cleared memory. `walkFreeNode` is the
walk with the stores that `push_free` makes in the pages.
-/

namespace RvMiniOs.Memory

open Lib Lib.TableTree Function List Option

def freeLeafNode (head : ℕ) (s : Kmem) (table i : ℕ) : Option Kmem := do
  let pte := s.mem table i
  let s ← if !hasAny pte pteG && !isANextLvlPtr pte then pagePutNode head s (getNextLvlPte pte) else some s
  some (s.setWord table i 0)

def walkFreeNode (head : ℕ) : ℕ → Kmem → ℕ → Option Kmem
  | 0, s, table => do
    let s ← (List.range wordsPerPage).foldlM (fun s i =>
      if hasAny (s.mem table i) pteV then freeLeafNode head s table i else some s) s
    pagePutNode head s table
  | lvl + 1, s, table => do
    let s ← (List.range wordsPerPage).foldlM (fun s i =>
      if hasAny (s.mem table i) pteV then
        if isANextLvlPtr (s.mem table i) then walkFreeNode head lvl s (getNextLvlPte (s.mem table i))
        else freeLeafNode head s table i
      else some s) s
    pagePutNode head s table

def vpageTreeFreeNode (head : ℕ) (s : Kmem) (root : ℕ) : Option Kmem := walkFreeNode head 2 s root

def putAll (ps : List ℕ) (s : Kmem) : Option Kmem := ps.foldlM pagePut s

def Kmem.withMem (m : ℕ → ℕ → ℕ) (s : Kmem) : Kmem := { s with mem := m }

section Puts

variable {s s' : Kmem} {ps qs : List ℕ} {p : ℕ}

theorem putAll_append (ps qs : List ℕ) (s : Kmem) : putAll (ps ++ qs) s = (putAll ps s).bind (putAll qs) :=
  foldlM_append

theorem pagePut_withMem (m : ℕ → ℕ → ℕ) (s : Kmem) (p : ℕ) :
    pagePut (s.withMem m) p = (pagePut s p).map (Kmem.withMem m) := by
  unfold pagePut Kmem.withMem
  dsimp only
  split
  · rfl
  · split <;> rfl

theorem putAll_withMem (m : ℕ → ℕ → ℕ) (ps : List ℕ) (s : Kmem) :
    putAll ps (s.withMem m) = (putAll ps s).map (Kmem.withMem m) := by
  induction ps generalizing s with
  | nil => rfl
  | cons p ps ih =>
    change (pagePut (s.withMem m) p).bind (putAll ps) = ((pagePut s p).bind (putAll ps)).map _
    rw [pagePut_withMem]
    cases pagePut s p with
    | none => rfl
    | some r => exact ih r

theorem pagePut_some (h : pagePut s p = some s') : s'.mem = s.mem ∧ 0 < s.pageRc p ∧
    (∀ q, s'.pageRc q = if q = p then s.pageRc p - 1 else s.pageRc q) ∧
    s'.freePages = if s.pageRc p = 1 then p :: s.freePages else s.freePages := by
  unfold pagePut at h
  split at h
  · cases h
  · rename_i hpos
    have hcount : ∀ q, update s.pageRc p (s.pageRc p - 1) q =
        if q = p then s.pageRc p - 1 else s.pageRc q := fun q => update_apply ..
    dsimp only at h
    split at h
    · rename_i hlast
      cases h
      exact ⟨rfl, by omega, hcount, by rw [if_pos (by omega)]⟩
    · rename_i hmore
      cases h
      exact ⟨rfl, by omega, hcount, by rw [if_neg (by omega)]⟩

theorem pagePut_isSome (h : 0 < s.pageRc p) : ∃ s', pagePut s p = some s' := by
  unfold pagePut
  rw [if_neg h.ne']
  dsimp only
  split <;> exact ⟨_, rfl⟩

theorem putAll_isSome_of_count (h : ∀ p, ps.count p ≤ s.pageRc p) : ∃ s', putAll ps s = some s' := by
  induction ps generalizing s with
  | nil => exact ⟨s, rfl⟩
  | cons q ps ih =>
    have hq := h q
    rw [count_cons_self] at hq
    obtain ⟨s₁, hput⟩ := pagePut_isSome (Nat.lt_of_lt_of_le (Nat.succ_pos _) hq)
    obtain ⟨-, -, hcount, -⟩ := pagePut_some hput
    have hrest : ∀ p, ps.count p ≤ s₁.pageRc p := fun p => by
      rw [hcount]
      split
      · rename_i heq
        rw [heq]
        omega
      · rename_i hne
        have hp := h p
        rwa [count_cons_of_ne (Ne.symm hne)] at hp
    obtain ⟨s', hall⟩ := ih hrest
    refine ⟨s', ?_⟩
    rw [putAll, foldlM_cons, hput]
    exact hall

theorem putAll_isSome (hnodup : ps.Nodup) (hpos : ∀ p ∈ ps, 0 < s.pageRc p) : ∃ s', putAll ps s = some s' := by
  refine putAll_isSome_of_count fun p => ?_
  by_cases hp : p ∈ ps
  · rw [count_eq_one_of_mem hnodup hp]
    exact hpos p hp
  · rw [count_eq_zero.mpr hp]
    exact Nat.zero_le _

theorem putAll_some (h : putAll ps s = some s') : s'.mem = s.mem ∧ (∀ p, s'.pageRc p + ps.count p =
    s.pageRc p) ∧ ∀ p, p ∈ s'.freePages ↔ p ∈ s.freePages ∨ p ∈ ps ∧ s.pageRc p = ps.count p := by
  induction ps generalizing s with
  | nil =>
    cases h
    simp
  | cons q ps ih =>
    obtain ⟨s₁, hput, h⟩ := bind_eq_some_iff.mp h
    obtain ⟨hmem₁, hpos, hcount₁, hfree₁⟩ := pagePut_some hput
    obtain ⟨hmem, hcount, hfree⟩ := ih h
    refine ⟨hmem.trans hmem₁, fun p => ?_, fun p => ?_⟩
    · have := hcount p
      rw [hcount₁] at this
      by_cases hp : p = q
      · subst hp
        rw [if_pos rfl] at this
        rw [count_cons_self]
        omega
      · rw [if_neg hp] at this
        rw [count_cons_of_ne (Ne.symm hp), this]
    · have hc := hcount p
      rw [hfree, hfree₁]
      rw [hcount₁] at hc ⊢
      by_cases hp : p = q
      · subst hp
        rw [if_pos rfl] at hc ⊢
        rw [count_cons_self]
        by_cases hin : p ∈ ps
        · have : 0 < ps.count p := count_pos_iff.mpr hin
          rw [if_neg (by omega)]
          simp only [hin, true_and, mem_cons_self]
          constructor <;> rintro (hf | hf) <;> first | exact .inl hf | exact .inr (by omega)
        · have : ps.count p = 0 := count_eq_zero.mpr hin
          by_cases hone : s.pageRc p = 1
          · simp [hone, this]
          · simp [hone, this, hin]
      · rw [if_neg hp, count_cons_of_ne (Ne.symm hp)]
        split <;> simp [hp]

theorem putAll_added (h : putAll ps s = some s') : ∃ added, s'.freePages = added ++ s.freePages ∧ added.Nodup ∧
    ∀ p, p ∈ added ↔ p ∈ ps ∧ s.pageRc p = ps.count p := by
  induction ps generalizing s with
  | nil =>
    cases h
    exact ⟨[], rfl, nodup_nil, by simp⟩
  | cons q ps ih =>
    obtain ⟨s₁, hput, h⟩ := bind_eq_some_iff.mp h
    obtain ⟨-, hpos, hcount₁, hfree₁⟩ := pagePut_some hput
    obtain ⟨added, hfree, hnodup, hmem⟩ := ih h
    have hself : s₁.pageRc q = s.pageRc q - 1 := by rw [hcount₁, if_pos rfl]
    have hother : ∀ p, p ≠ q → (p ∈ added ↔ p ∈ q :: ps ∧ s.pageRc p = (q :: ps).count p) := fun p hp => by
      rw [hmem, hcount₁, if_neg hp, count_cons_of_ne (Ne.symm hp), mem_cons, or_iff_right hp]
    by_cases hone : s.pageRc q = 1
    · -- the last reference: it is not put again
      have hlast : q ∉ ps := fun hin => by
        have hle := (putAll_some h).2.1 q
        have hpos' := count_pos_iff.mpr hin
        omega
      rw [if_pos hone] at hfree₁
      refine ⟨added ++ [q], by rw [hfree, hfree₁, append_assoc]; rfl, ?_, fun p => ?_⟩
      · refine nodup_append.mpr ⟨hnodup, nodup_singleton q, fun p hp r hr heq => ?_⟩
        rw [heq, mem_singleton.mp hr] at hp
        exact hlast ((hmem q).mp hp).1
      · rw [mem_append, mem_singleton]
        by_cases hp : p = q
        · subst hp
          rw [count_cons_self, count_eq_zero.mpr hlast, hone]
          simp
        · rw [or_iff_left hp]
          exact hother p hp
    · rw [if_neg hone] at hfree₁
      refine ⟨added, by rw [hfree, hfree₁], hnodup, fun p => ?_⟩
      by_cases hp : p = q
      · subst hp
        rw [hmem, hself, count_cons_self]
        have hin : s.pageRc p = ps.count p + 1 → p ∈ ps := fun heq =>
          count_pos_iff.mp (by omega)
        constructor
        · rintro ⟨hp, heq⟩
          exact ⟨mem_cons_self, by omega⟩
        · rintro ⟨-, heq⟩
          exact ⟨hin heq, by omega⟩
      · exact hother p hp

theorem putAll_fresh (hnodup : ps.Nodup) (hone : ∀ p ∈ ps, s.pageRc p = 1) (h : putAll ps s = some s') :
    s'.freePages = ps.reverse ++ s.freePages := by
  induction ps generalizing s with
  | nil =>
    cases h
    rfl
  | cons q ps ih =>
    obtain ⟨s₁, hput, h⟩ := bind_eq_some_iff.mp h
    obtain ⟨-, -, hcount₁, hfree₁⟩ := pagePut_some hput
    obtain ⟨hq, hnodup⟩ := nodup_cons.mp hnodup
    rw [if_pos (hone q mem_cons_self)] at hfree₁
    have hone₁ : ∀ p ∈ ps, s₁.pageRc p = 1 := fun p hp => by
      have hne : p ≠ q := fun heq => hq (heq ▸ hp)
      rw [hcount₁, if_neg hne, hone p (mem_cons_of_mem _ hp)]
    rw [ih hnodup hone₁ h, hfree₁, reverse_cons, append_assoc]
    rfl

end Puts

/-- The page that `walk_free` puts for an entry of the last level. -/
def leafPut (pte : ℕ) : List ℕ :=
  if hasAny pte pteV && !hasAny pte pteG && !isANextLvlPtr pte then [getNextLvlPte pte] else []

theorem leafPut_leaf {page flags : ℕ} (hp : page < 2 ^ 52) (hflags : flags < 2 ^ 10) :
    leafPut (makePte page (leafFlags flags)) =
      if !hasAny flags pteG && !isANextLvlPtr flags then [page] else [] := by
  rw [leafPut, leaf_valid, isANextLvlPtr_leaf, getNextLvlPte_makePte (leafFlags_lt hflags) hp,
    hasAny_leaf (by decide) (by decide) (by decide) (by decide), Bool.true_and]

/-- The puts of `walk_free`, in order. -/
abbrev puts (mem : ℕ → ℕ → ℕ) (l t : ℕ) : List ℕ := collectOf leafPut mem l t

def wiped (pte : ℕ) : ℕ := if hasAny pte pteV then 0 else pte

structure Wiped (mem mem' : ℕ → ℕ → ℕ) (l t : ℕ) : Prop where
  rewritten : Rewritten nextTable wordsPerPage (fun _ => wiped) mem mem' l t
  frame : ∀ p, p ∉ tablesOf mem l t → mem' p = mem p

section Walk

variable {mem : ℕ → ℕ → ℕ} {l t : ℕ}

theorem foldlM_range_succ {σ : Type} (f : σ → ℕ → Option σ) (s : σ) (n : ℕ) :
    (range (n + 1)).foldlM f s = ((range n).foldlM f s).bind fun s => f s n := by
  rw [range_succ, foldlM_append]
  simp

/-- The first `n` entries of a table of the last level, cleared. -/
def wipeTo (mem : ℕ → ℕ → ℕ) (t n : ℕ) : ℕ → ℕ → ℕ :=
  fun p i => if p = t ∧ i < n then wiped (mem p i) else mem p i

theorem freeLeaf_eq {s : Kmem} {n : ℕ} (hn : s.mem t n = mem t n) (hv : hasAny (mem t n) pteV = true)
    (hs : s.mem = wipeTo mem t n) :
    freeLeaf s t n = (putAll (leafPut (mem t n)) s).map (Kmem.withMem (wipeTo mem t (n + 1))) := by
  have hstore : ∀ r : Kmem, r.mem = s.mem → r.setWord t n 0 = r.withMem (wipeTo mem t (n + 1)) := by
    intro r hr
    unfold Kmem.withMem Kmem.setWord
    congr 1
    funext p i
    rw [hr, hs]
    by_cases hp : p = t
    · subst hp
      rw [update_self]
      by_cases hi : i = n
      · subst hi
        rw [update_self, wipeTo, if_pos ⟨rfl, Nat.lt_succ_self i⟩, wiped, if_pos hv]
      · rw [update_of_ne hi]
        unfold wipeTo
        exact if_congr (by omega) rfl rfl
    · rw [update_of_ne hp]
      simp [wipeTo, hp]
  unfold freeLeaf leafPut
  dsimp only
  rw [hn, hv]
  by_cases hput : (!hasAny (mem t n) pteG && !isANextLvlPtr (mem t n)) = true
  · rw [if_pos hput, Bool.true_and, if_pos hput]
    change (pagePut s _).bind _ = ((pagePut s _).bind some).map _
    cases hp : pagePut s (getNextLvlPte (mem t n)) with
    | none => rfl
    | some r => exact congrArg some (hstore r (pagePut_some hp).1)
  · rw [if_neg hput, Bool.true_and, if_neg hput]
    exact congrArg some (hstore s rfl)

theorem walkFree_entries (mem : ℕ → ℕ → ℕ) (t n : ℕ) (s : Kmem) (hs : s.mem = mem) :
    (List.range n).foldlM (fun s i => if hasAny (s.mem t i) pteV then freeLeaf s t i else some s) s =
    (putAll ((List.range n).flatMap fun i => leafPut (mem t i)) s).map (Kmem.withMem (wipeTo mem t n)) := by
  induction n with
  | zero =>
    have hnone : wipeTo mem t 0 = s.mem := by
      funext p i
      rw [wipeTo, if_neg (by omega), hs]
    rw [hnone]
    rfl
  | succ n ih =>
    rw [foldlM_range_succ, ih, List.range_succ, List.flatMap_append, putAll_append, List.flatMap_singleton]
    cases putAll ((List.range n).flatMap fun i => leafPut (mem t i)) s with
    | none => rfl
    | some r =>
      rw [Option.map_some, Option.bind_some, Option.bind_some]
      have hn : (r.withMem (wipeTo mem t n)).mem t n = mem t n := by
        change wipeTo mem t n t n = mem t n
        rw [wipeTo, if_neg (by omega)]
      rw [hn]
      split
      · rename_i hv
        rw [freeLeaf_eq hn hv rfl, putAll_withMem, Option.map_map]
        rfl
      · rename_i hv
        have hsame : wipeTo mem t (n + 1) = wipeTo mem t n := by
          funext p i
          unfold wipeTo
          by_cases hi : p = t ∧ i = n
          · obtain ⟨rfl, rfl⟩ := hi
            rw [if_pos ⟨rfl, by omega⟩, if_neg (by omega), wiped, if_neg hv]
          · exact if_congr (by omega) rfl rfl
        rw [leafPut, show hasAny (mem t n) pteV = false by simpa using hv, hsame]
        rfl

theorem putAll_last (ps : List ℕ) (mem' : ℕ → ℕ → ℕ) (s : Kmem) (t : ℕ) :
    ((putAll ps s).map (Kmem.withMem mem')).bind (fun r => pagePut r t) =
      (putAll (ps ++ [t]) s).map (Kmem.withMem mem') := by
  rw [putAll_append]
  cases putAll ps s with
  | none => rfl
  | some r =>
    rw [map_some, bind_some, bind_some, pagePut_withMem]
    change _ = ((pagePut r t).bind some).map _
    cases pagePut r t <;> rfl

theorem walkFree_eq (h : Table mem l t) : ∃ mem', Wiped mem mem' l t ∧
    ∀ s : Kmem, s.mem = mem → walkFree l s t = (putAll (puts mem l t) s).map (Kmem.withMem mem') := by
  induction l generalizing mem t with
  | zero =>
    refine ⟨wipeTo mem t wordsPerPage, ⟨⟨fun p hp => absurd hp (Set.notMem_empty p), fun key hkey => ?_⟩,
      fun p hp => ?_⟩, fun s hs => ?_⟩
    · rw [value_of_slot rfl, value_of_slot rfl, wipeTo, if_pos ⟨rfl, hkey 0⟩]
    · funext i
      rw [wipeTo, if_neg fun hpi => hp hpi.1]
    · rw [walkFree, walkFree_entries mem t wordsPerPage s hs]
      exact putAll_last _ _ s t
  | succ l ih =>
    have hloop : ∀ n ≤ wordsPerPage, ∃ mem', RewrittenTo nextTable wordsPerPage (fun _ => wiped) mem mem' l t n ∧
        (∀ p, p ∉ tablesOf mem (l + 1) t → mem' p = mem p) ∧ ∀ s : Kmem, s.mem = mem →
        (List.range n).foldlM (fun s i => if hasAny (s.mem t i) pteV then
            if isANextLvlPtr (s.mem t i) then walkFree l s (getNextLvlPte (s.mem t i)) else freeLeaf s t i
          else some s) s =
        (putAll ((List.range n).flatMap fun i => (nextTable (mem t i)).elim [] (puts mem l)) s).map
          (Kmem.withMem mem') := by
      intro n hn
      induction n with
      | zero =>
        exact ⟨mem, RewrittenTo.refl, fun _ _ => rfl, fun s hs => by rw [← hs]; rfl⟩
      | succ n ihn =>
        obtain ⟨mem₁, hto, hframe, hrun⟩ := ihn (by omega)
        have hself : mem₁ t = mem t := hto.inner t (.inl rfl)
        by_cases hv : hasAny (mem t n) pteV = true
        · have hptr := h.pointers t (.inl rfl) n hn hv
          have hc := nextTable_of_valid hv hptr
          generalize getNextLvlPte (mem t n) = c at hc
          have hrest := hto.rest n hn le_rfl c hc
          have htables := ((h.below hn hc).congr hrest).2
          obtain ⟨mem₂, hw, hwalk⟩ := ih ((h.below hn hc).congr hrest).1
          have hsub : ∀ p ∈ tablesOf mem l c, p ∈ tablesOf mem (l + 1) t := fun p hp =>
            .inr ⟨n, hn, c, hc, hp⟩
          have hout : ∀ p, p ∉ tablesOf mem l c → mem₂ p = mem₁ p := fun p hp =>
            hw.frame p fun hin => hp ((Set.ext_iff.mp htables p).mp hin)
          refine ⟨mem₂, hto.next h.tree hn hc hw.rewritten.inner (fun key hkey _ => hw.rewritten.value key hkey)
              fun p _ hp => hout p hp,
            fun p hp => (hout p fun hin => hp (hsub p hin)).trans (hframe p hp), fun s hs => ?_⟩
          rw [foldlM_range_succ, hrun s hs, List.range_succ, List.flatMap_append, putAll_append,
            List.flatMap_singleton]
          cases putAll ((List.range n).flatMap fun i => (nextTable (mem t i)).elim [] (puts mem l)) s with
          | none => rfl
          | some r =>
            have hread : (r.withMem mem₁).mem t n = mem t n := congrFun hself n
            rw [Option.map_some, Option.bind_some, Option.bind_some, hread, if_pos hv, if_pos hptr,
              (nextTable_eq_some hc).2.2.symm, hwalk _ rfl, putAll_withMem, Option.map_map, hc]
            have hputs : puts mem₁ l c = puts mem l c := collect_congr hrest
            rw [hputs]
            rfl
        · have hv' : hasAny (mem t n) pteV = false := by simpa using hv
          have hc := nextTable_of_invalid hv'
          refine ⟨mem₁, hto.skip (fun _ => rfl) hc, hframe, fun s hs => ?_⟩
          rw [foldlM_range_succ, hrun s hs, List.range_succ, List.flatMap_append, putAll_append,
            List.flatMap_singleton, hc]
          cases putAll ((List.range n).flatMap fun i => (nextTable (mem t i)).elim [] (puts mem l)) s with
          | none => rfl
          | some r =>
            have hread : (r.withMem mem₁).mem t n = mem t n := congrFun hself n
            rw [Option.map_some, Option.bind_some, Option.bind_some, hread, if_neg hv]
            rfl
    obtain ⟨mem', hto, hframe, hrun⟩ := hloop wordsPerPage le_rfl
    refine ⟨mem', ⟨hto.all, hframe⟩, fun s hs => ?_⟩
    rw [walkFree, hrun s hs]
    exact putAll_last _ _ s t

end Walk

def Idle (s : Kmem) : Prop := ∀ p ∈ s.freePages, s.pageRc p = 0

/-- The tree of `root` has a table without references. -/
structure Broken (s : Kmem) (root : ℕ) : Prop where
  table : Table s.mem 2 root
  dead : ∃ c ∈ tablesOf s.mem 2 root, s.pageRc c = 0

section Failures

variable {s s' : Kmem} {root va page flags : ℕ} {taken : List ℕ} {res : ℤ}

theorem Takes.idle (h : Takes s s' taken) (hf : FreeList s) (hi : Idle s) : Idle s' := fun p hp => by
  have hold : p ∈ s.freePages := by
    rw [h.free]
    exact mem_append_right _ hp
  rw [h.count, if_neg fun hin => h.not_free hf hin hp, hi p hold]

theorem Takes.one (h : Takes s s' taken) (hi : Idle s) {p : ℕ} (hp : p ∈ taken) : s'.pageRc p = 1 := by
  rw [h.count, if_pos hp, hi p (h.mem_free hp)]

theorem Broken.put (h : Broken s root) (hp : pagePut s page = some s') : Broken s' root := by
  obtain ⟨hmem, hpos, hcount, -⟩ := pagePut_some hp
  obtain ⟨c, hc, hzero⟩ := h.dead
  refine ⟨hmem ▸ h.table, c, hmem ▸ hc, ?_⟩
  rw [hcount, if_neg (by rintro rfl; omega), hzero]

theorem Broken.free (h : Broken s root) : vpageTreeFree s root = none := by
  obtain ⟨mem', -, hwalk⟩ := walkFree_eq h.table
  rw [vpageTreeFree, hwalk s rfl]
  cases hput : putAll (puts s.mem 2 root) s with
  | none => rfl
  | some r =>
    obtain ⟨c, hc, hzero⟩ := h.dead
    have hpos : 0 < (puts s.mem 2 root).count c := count_pos_iff.mpr (mem_collect_of_tables hc)
    have := (putAll_some hput).2.1 c
    omega

theorem vpageMap_fail (hs : Space s root) (hf : FreeList s) (hi : Idle s)
    (hm : vpageMap s root va page flags = some (s', res)) (hres : res < 0) : s' = s ∨ Broken s' root := by
  unfold vpageMap at hm
  split at hm
  · rename_i s₁ as hdesc
    obtain ⟨taken, has, hd⟩ := mapDescend_spec hs.table hf hs.used hdesc
    rw [nil_append] at has
    subst has
    obtain ⟨s₂, hput, hm⟩ := bind_eq_some_iff.mp hm
    cases hm
    obtain ⟨hmem, hcount, -⟩ := putAll_some hput
    cases as with
    | nil =>
      cases hput
      exact .inl (hd.same rfl)
    | cons c as =>
      have hc := @mem_cons_self _ c as
      have hpos : 0 < (c :: as).count c := count_pos_iff.mpr hc
      have hone := hd.takes.one hi hc
      refine .inr ⟨hmem ▸ hd.table, c, hmem ▸ hd.new c hc, ?_⟩
      have := hcount c
      omega
  · cases hm
    exact absurd hres (lt_irrefl 0)

theorem vpageMap_returns (hs : Space s root) (hf : FreeList s) (hi : Idle s) :
    ∃ s' res, vpageMap s root va page flags = some (s', res) ∧ ∀ p, p ∉ s.freePages → s'.pageRc p = s.pageRc p := by
  rcases hdesc : mapDescend va 2 s root [] with ⟨s₁, as, last⟩
  obtain ⟨taken, has, hd⟩ := mapDescend_spec hs.table hf hs.used hdesc
  rw [nil_append] at has
  subst has
  have hcount : ∀ p, p ∉ s.freePages → p ∉ as ∧ s₁.pageRc p = s.pageRc p := fun p hp => by
    have hnot : p ∉ as := fun hin => hp (hd.takes.mem_free hin)
    exact ⟨hnot, by rw [hd.takes.count, if_neg hnot]⟩
  cases last with
  | some leaf =>
    refine ⟨s₁.setWord leaf (getVaVpn va 0) (makePte page (leafFlags flags)), 0, ?_, fun p hp => (hcount p hp).2⟩
    rw [vpageMap, hdesc]
  | none =>
    have hnodup : as.Nodup := by
      have := hf.nodup
      rw [hd.takes.free] at this
      exact (nodup_append.mp this).1
    obtain ⟨s₂, hput⟩ := putAll_isSome hnodup fun p hp => by
      rw [hd.takes.one hi hp]
      exact Nat.one_pos
    refine ⟨s₂, -enomem, ?_, fun p hp => ?_⟩
    · rw [vpageMap, hdesc]
      dsimp only
      rw [show as.foldlM pagePut s₁ = some s₂ from hput]
      rfl
    · obtain ⟨hnot, hrc⟩ := hcount p hp
      have := (putAll_some hput).2.1 p
      rw [count_eq_zero.mpr hnot] at this
      omega

end Failures

end RvMiniOs.Memory
