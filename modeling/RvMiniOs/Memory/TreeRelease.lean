import RvMiniOs.Memory.MapFailure
import RvMiniOs.Memory.OldTree

/-!
# What freeing a tree releases

`vpage_tree_free` drops one reference for every table and for every leaf that is not
global. The free list runs through the free pages themselves, so the walk overwrites
pages as it puts them: it never reads one again, because a table is put last and has its
reference until then.
-/

namespace RvMiniOs.Memory

open Lib Lib.TableTree List Option Bool

structure Lowers (s s' : Kmem) : Prop where
  le : ∀ p, s'.pageRc p ≤ s.pageRc p
  idle : Idle s → Idle s'

section Nodes

variable {s s' r : Kmem} {p t head : ℕ}

theorem Lowers.refl (s : Kmem) : Lowers s s := ⟨fun _ => le_rfl, id⟩

theorem Lowers.trans {s'' : Kmem} (h : Lowers s s') (h' : Lowers s' s'') : Lowers s s'' :=
  ⟨fun p => (h'.le p).trans (h.le p), fun hi => h'.idle (h.idle hi)⟩

theorem Lowers.put (h : pagePut s p = some s') : Lowers s s' := by
  obtain ⟨-, hpos, hcount, hfree⟩ := pagePut_some h
  refine ⟨fun q => ?_, fun hi q hq => ?_⟩
  · rw [hcount]
    split
    · rename_i heq
      rw [heq]
      exact Nat.sub_le _ _
    · exact le_rfl
  · rw [hfree] at hq
    rw [hcount]
    split_ifs at hq with hlast
    · rcases mem_cons.mp hq with rfl | hq
      · rw [if_pos rfl, hlast]
      · rw [hi q hq]
        split <;> omega
    · have hzero := hi q hq
      rw [if_neg (by rintro rfl; omega), hzero]

theorem Lowers.setWord (s : Kmem) (p i w : ℕ) : Lowers s (s.setWord p i w) := ⟨fun _ => le_rfl, id⟩

theorem Lowers.freeLeaf {i : ℕ} (h : freeLeaf s t i = some s') : Lowers s s' := by
  simp only [Memory.freeLeaf, bind_eq_bind] at h
  split_ifs at h
  · obtain ⟨s₁, hput, h⟩ := bind_eq_some_iff.mp h
    cases h
    exact (Lowers.put hput).trans (Lowers.setWord s₁ t i 0)
  · cases h
    exact Lowers.setWord s t i 0

theorem Lowers.foldlM {f : Kmem → ℕ → Option Kmem} (hf : ∀ s i s', f s i = some s' → Lowers s s')
    {is : List ℕ} (h : is.foldlM f s = some s') : Lowers s s' := by
  induction is generalizing s with
  | nil =>
    obtain rfl := some.inj h
    exact Lowers.refl s
  | cons i is ih =>
    obtain ⟨s₁, hstep, h⟩ := bind_eq_some_iff.mp h
    exact (hf s i s₁ hstep).trans (ih h)

theorem Lowers.turn {walk : Kmem → ℕ → Option Kmem} (hw : ∀ s t s', walk s t = some s' → Lowers s s') (i : ℕ)
    (h : (if hasAny (s.mem t i) pteV then
        if isANextLvlPtr (s.mem t i) then walk s (getNextLvlPte (s.mem t i)) else Memory.freeLeaf s t i
      else some s) = some s') : Lowers s s' := by
  split_ifs at h
  · exact hw _ _ _ h
  · exact Lowers.freeLeaf h
  · cases h
    exact Lowers.refl s

theorem Lowers.walkFree {l : ℕ} (h : walkFree l s t = some s') : Lowers s s' := by
  induction l generalizing s t s' with
  | zero =>
    rw [Memory.walkFree, bind_eq_bind] at h
    obtain ⟨s₁, hloop, h⟩ := bind_eq_some_iff.mp h
    refine Lowers.trans (Lowers.foldlM (fun s i s' hs => ?_) hloop) (Lowers.put h)
    split at hs
    · exact Lowers.freeLeaf hs
    · cases hs
      exact Lowers.refl s
  | succ l ih =>
    rw [Memory.walkFree, bind_eq_bind] at h
    obtain ⟨s₁, hloop, h⟩ := bind_eq_some_iff.mp h
    exact Lowers.trans (Lowers.foldlM (fun s i s' hs => Lowers.turn (fun _ _ _ => ih) i hs) hloop) (Lowers.put h)

theorem SameUsed.setWord (h : SameUsed s r) (p i w : ℕ) : SameUsed (s.setWord p i w) (r.setWord p i w) := by
  refine ⟨h.pageRc, h.freePages, fun q hq => ?_⟩
  funext j
  rw [Kmem.setWord_mem, Kmem.setWord_mem, h.mem q hq]

theorem SameUsed.freeLeaf {i : ℕ} (h : SameUsed s r) (ht : t ∉ s.freePages) (hf : freeLeaf s t i = some s') :
    ∃ r', freeLeafNode head r t i = some r' ∧ SameUsed s' r' := by
  simp only [Memory.freeLeaf, bind_eq_bind] at hf
  simp only [freeLeafNode, bind_eq_bind, h.mem t ht]
  split_ifs at hf ⊢
  · obtain ⟨s₁, hput, hf⟩ := bind_eq_some_iff.mp hf
    cases hf
    obtain ⟨r₁, hput', h₁⟩ := h.put (r := r) hput
    rw [hput']
    exact ⟨_, rfl, h₁.setWord t i 0⟩
  · cases hf
    exact ⟨_, rfl, h.setWord t i 0⟩

theorem SameUsed.foldlM {f g : Kmem → ℕ → Option Kmem} (hf : ∀ s i s', f s i = some s' → Lowers s s')
    (hstep : ∀ s r i s', SameUsed s r → Idle s → t ∉ s.freePages → f s i = some s' →
      ∃ r', g r i = some r' ∧ SameUsed s' r')
    {is : List ℕ} (h : SameUsed s r) (hi : Idle s) (hrun : is.foldlM f s = some s') (ht : 0 < s'.pageRc t) :
    ∃ r', is.foldlM g r = some r' ∧ SameUsed s' r' := by
  induction is generalizing s r with
  | nil =>
    cases hrun
    exact ⟨r, rfl, h⟩
  | cons i is ih =>
    have hused : t ∉ s.freePages := fun hin => by
      have hle := (Lowers.foldlM hf hrun).le t
      rw [hi t hin] at hle
      omega
    obtain ⟨s₁, hfirst, hrest⟩ := bind_eq_some_iff.mp hrun
    obtain ⟨r₁, hfirst', h₁⟩ := hstep s r i s₁ h hi hused hfirst
    obtain ⟨r', hrest', h'⟩ := ih h₁ ((hf s i s₁ hfirst).idle hi) hrest
    refine ⟨r', ?_, h'⟩
    rw [foldlM_cons, hfirst']
    exact hrest'

theorem SameUsed.walkFree {l : ℕ} (h : SameUsed s r) (hi : Idle s) (hw : walkFree l s t = some s') :
    ∃ r', walkFreeNode head l r t = some r' ∧ SameUsed s' r' := by
  induction l generalizing s r t s' with
  | zero =>
    rw [Memory.walkFree, bind_eq_bind] at hw
    obtain ⟨s₁, hloop, hput⟩ := bind_eq_some_iff.mp hw
    have hfold := SameUsed.foldlM (t := t)
      (g := fun r i => if hasAny (r.mem t i) pteV then freeLeafNode head r t i else some r)
      (fun s i s' hs => ?_) (fun s r i s' h hi ht hs => ?_) h hi hloop (pagePut_some hput).2.1
    · obtain ⟨r₁, hloop', h₁⟩ := hfold
      rw [walkFreeNode, bind_eq_bind, hloop']
      exact h₁.put hput
    · split at hs
      · exact Lowers.freeLeaf hs
      · cases hs
        exact Lowers.refl s
    · rw [h.mem t ht]
      split at hs
      · rw [if_pos ‹_›]
        exact h.freeLeaf ht hs
      · rw [if_neg ‹_›]
        cases hs
        exact ⟨r, rfl, h⟩
  | succ l ih =>
    rw [Memory.walkFree, bind_eq_bind] at hw
    obtain ⟨s₁, hloop, hput⟩ := bind_eq_some_iff.mp hw
    have hfold := SameUsed.foldlM (t := t)
      (g := fun r i => if hasAny (r.mem t i) pteV then
          if isANextLvlPtr (r.mem t i) then walkFreeNode head l r (getNextLvlPte (r.mem t i))
          else freeLeafNode head r t i else some r)
      (fun s i s' hs => Lowers.turn (fun _ _ _ => Lowers.walkFree) i hs) (fun s r i s' h hi ht hs => ?_)
      h hi hloop (pagePut_some hput).2.1
    · obtain ⟨r₁, hloop', h₁⟩ := hfold
      rw [walkFreeNode, bind_eq_bind, hloop']
      exact h₁.put hput
    · rw [h.mem t ht]
      split_ifs at hs ⊢
      · exact ih h hi hs
      · exact h.freeLeaf ht hs
      · cases hs
        exact ⟨r, rfl, h⟩

end Nodes

section Release

variable {s s' : Kmem} {root q : ℕ}

theorem WellFormed.not_refers (h : WellFormed s root) (hq : q ∈ tablesOf s.mem 2 root) (va : ℕ) :
    refers q (entry s root va) = false := by
  by_contra hrefers
  rw [not_eq_false, refers, and_eq_true, and_eq_true, decide_eq_true_eq] at hrefers
  obtain ⟨⟨hv, -⟩, heq⟩ := hrefers
  exact (h.mapped va hv).1 (heq ▸ hq)

theorem WellFormed.count_puts_table (h : WellFormed s root) (hq : q ∈ tablesOf s.mem 2 root) :
    (puts s.mem 2 root).count q = 1 := by
  have hleaves : ((wordsOf s.mem root).flatMap leafPut).count q = 0 := by
    rw [count_leafPut, countP_eq_zero]
    intro pte hpte hrefers
    obtain ⟨hrefers, -⟩ := and_eq_true_iff.mp hrefers
    obtain ⟨va, hva⟩ := (@exists_word_iff s root (fun pte => refers q pte = true)
      (by rw [refers_zero]; decide)).mp ⟨pte, hpte, hrefers⟩
    rw [h.not_refers hq va] at hva
    cases hva
  rw [puts, collectOf, collect_perm.count_eq, count_append, hleaves, Nat.zero_add]
  exact count_eq_one_of_mem h.space.table.tree.nodup_collect (mem_collect_of_tables hq)

theorem WellFormed.count_puts_page (h : WellFormed s root) (hq : q ∉ tablesOf s.mem 2 root) :
    (puts s.mem 2 root).count q = references s root q := by
  refine (count_puts_eq_iff hq).mpr fun va hrefers => h.leafy va ?_
  rw [refers, and_eq_true, and_eq_true] at hrefers
  exact hrefers.1.1

/-- Freeing a tree drops one reference for each table and for each leaf that is not
global, and frees the pages that have none left. -/
theorem tree_free_drops_once (h : WellFormed s root) (hi : Idle s)
    (hone : ∀ t ∈ tablesOf s.mem 2 root, s.pageRc t = 1)
    (hcount : ∀ q, references s root q ≤ s.pageRc q) (head : ℕ) :
    ∃ s', vpageTreeFreeNode head s root = some s' ∧
      (∀ t ∈ tablesOf s.mem 2 root, s'.pageRc t = s.pageRc t - 1) ∧
      (∀ q, q ∉ tablesOf s.mem 2 root → s'.pageRc q = s.pageRc q - references s root q) ∧
      ∃ added, s'.freePages = added ++ s.freePages ∧ added.Nodup ∧
        ∀ q, q ∈ added ↔ 0 < s.pageRc q ∧ s'.pageRc q = 0 := by
  have henough : ∀ q, (puts s.mem 2 root).count q ≤ s.pageRc q := fun q => by
    by_cases hq : q ∈ tablesOf s.mem 2 root
    · rw [h.count_puts_table hq, hone q hq]
    · rw [h.count_puts_page hq]
      exact hcount q
  obtain ⟨s₁, hput⟩ := putAll_isSome_of_count henough
  obtain ⟨mem', -, hwalk⟩ := walkFree_eq h.space.table
  have hfree : walkFree 2 s root = some (s₁.withMem mem') := by
    rw [hwalk s rfl, hput]
    rfl
  obtain ⟨s', hnode, hsame⟩ := SameUsed.walkFree (r := s) ⟨rfl, rfl, fun _ _ => rfl⟩ hi hfree
  obtain ⟨-, hdrop, -⟩ := putAll_some hput
  obtain ⟨added, hadded, hnodup, hmem⟩ := putAll_added hput
  have hrc : ∀ q, s'.pageRc q + (puts s.mem 2 root).count q = s.pageRc q := fun q => by
    rw [hsame.pageRc]
    exact hdrop q
  refine ⟨s', hnode, fun t ht => ?_, fun q hq => ?_, added, hsame.freePages.trans hadded, hnodup, fun q => ?_⟩
  · have hdrop := hrc t
    rw [h.count_puts_table ht] at hdrop
    omega
  · have hdrop := hrc q
    rw [h.count_puts_page hq] at hdrop
    omega
  · have hdrop := hrc q
    rw [hmem, ← count_pos_iff]
    omega

end Release

/-- One page mapped in an otherwise empty tree. -/
theorem tree_free_drops_once_leaf : ∃ s s', vpageMap (pageGet (emptyTree 5) 9) 1 0x1000 9 pteR = some (s, 0) ∧
    vpageTreeFreeNode 0 s 1 = some s' ∧ s.pageRc 9 = 1 ∧ s'.pageRc 9 = 0 ∧ 9 ∈ s'.freePages := by
  have hw₀ : WellFormed (pageGet (emptyTree 5) 9) 1 := wellFormed_of_zero rfl (emptyTree_root 5)
  have hf₀ : FreeList (pageGet (emptyTree 5) 9) := ⟨(emptyTree_freeList 5 (by decide)).nodup, by decide⟩
  have hi₀ : Idle (pageGet (emptyTree 5) 9) := by
    unfold Idle
    decide
  have htables₀ : tablesOf (pageGet (emptyTree 5) 9).mem 2 1 = {1} := (table_of_blank (fun _ => rfl) 2).2.1
  have hany : (vpageMap (pageGet (emptyTree 5) 9) 1 0x1000 9 pteR).any (fun r =>
      decide (r.2 = 0 ∧ references r.1 1 9 = 1 ∧ r.1.pageRc 9 = 1)) = true := by
    decide +kernel
  obtain ⟨⟨s, res⟩, hm, hany⟩ := (any_eq_true _ _).mp hany
  obtain ⟨rfl, hrefs, hnine⟩ := of_decide_eq_true hany
  obtain ⟨-, hw⟩ := hw₀.map hf₀ (by decide) (by decide) (by decide) (by rw [htables₀]; decide) (by decide) (by decide) hm
  obtain ⟨taken, hg, hentry, -⟩ := vpageMap_ok hw₀.space hf₀ hm
  have hone : ∀ t ∈ tablesOf s.mem 2 1, s.pageRc t = 1 := fun t ht => by
    rcases hg.tables t ht with hold | hnew
    · rw [htables₀, Set.mem_singleton_iff] at hold
      rw [hold, hg.takes.count, if_neg fun hin => emptyTree_root 5 (hg.takes.mem_free hin)]
      rfl
    · exact hg.takes.one hi₀ hnew
  have hcount : ∀ q, references s 1 q ≤ s.pageRc q := fun q => by
    by_cases hq : q = 9
    · rw [hq, hrefs, hnine]
    · refine (Nat.le_of_not_lt fun hpos => hq ?_ : references s 1 q ≤ 0).trans (Nat.zero_le _)
      obtain ⟨va, hva⟩ := references_pos_iff.mp hpos
      rw [hentry] at hva
      split at hva
      · exact (of_decide_eq_true (and_eq_true_iff.mp hva).2).symm
      · rw [show entry (pageGet (emptyTree 5) 9) 1 va = 0 from (table_of_blank (fun _ => rfl) 2).2.2 _,
          refers_zero] at hva
        cases hva
  obtain ⟨s', hfree, -, hdrop, added, hadded, -, hmem⟩ :=
    tree_free_drops_once hw (hg.takes.idle hf₀ hi₀) hone hcount 0
  have hpage : (9 : ℕ) ∉ tablesOf s.mem 2 1 := fun hin => by
    have hget : getNextLvlPte (entry s 1 0x1000) = 9 := by
      rw [hentry, if_pos rfl]
      decide
    have hv : hasAny (entry s 1 0x1000) pteV = true := by
      rw [hentry, if_pos rfl]
      decide
    exact (hw.mapped 0x1000 hv).1 (by rw [hget]; exact hin)
  have hzero : s'.pageRc 9 = 0 := by rw [hdrop 9 hpage, hrefs, hnine]
  refine ⟨s, s', hm, hfree, hnine, hzero, ?_⟩
  rw [hadded]
  exact mem_append_left _ ((hmem 9).mpr ⟨hnine ▸ Nat.one_pos, hzero⟩)

end RvMiniOs.Memory
