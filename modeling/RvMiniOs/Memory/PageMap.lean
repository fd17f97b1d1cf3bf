import RvMiniOs.Memory.TreeFree

/-!
# Page tables as finite maps

`walk_leaf` on the leaves of a tree is a map from page addresses to entries. `vpage_map`
sets one key of it and `vpage_unmmap` removes one. Resolving copy-on-write keeps the tree,
so a copy that stays in one page meets its contract.
-/

namespace RvMiniOs.Memory

open Lib Lib.TableTree Option

/-- A tree whose valid entries of the last level are leaves for pages that are neither
tables of the tree nor free. -/
structure WellFormed (s : Kmem) (root : ℕ) : Prop where
  space : Space s root
  leafy : Leafy s root
  mapped : ∀ va, hasAny (entry s root va) pteV = true →
    getNextLvlPte (entry s root va) ∉ tablesOf s.mem 2 root ∧ getNextLvlPte (entry s root va) ∉ s.freePages

/-- The map has `leaf` at `va` and is otherwise what it was. -/
structure Updated (s s' : Kmem) (root va : ℕ) (leaf : Option ℕ) : Prop where
  here : leafPte s' root va = leaf
  others : ∀ vb, vb % pageSize = 0 → vb < 2 ^ 39 → vb ≠ va → leafPte s' root vb = leafPte s root vb

section

variable {s s' : Kmem} {root va page flags : ℕ}

theorem pageOf_ne {vb : ℕ} (ha : va % pageSize = 0) (hb : vb % pageSize = 0) (hla : va < 2 ^ 39)
    (hlb : vb < 2 ^ 39) (hne : vb ≠ va) : pageOf vb ≠ pageOf va := by
  simp only [pageOf, pageSize] at *
  omega

theorem leafPte_of_entry (h : Table s.mem 2 root) (hv : hasAny (entry s root va) pteV = true)
    (hn : isANextLvlPtr (entry s root va) = false) : leafPte s root va = some (entry s root va) := by
  rw [leafPte_eq h, hv, hn]
  rfl

theorem leafPte_of_invalid (h : Table s.mem 2 root) (hv : hasAny (entry s root va) pteV = false) :
    leafPte s root va = none := by
  rw [leafPte_eq h, hv]
  rfl

theorem getFlags_leaf (hflags : flags < 2 ^ 10) : getFlags (makePte page (leafFlags flags)) = leafFlags flags := by
  have hlt := leafFlags_lt hflags
  rw [makePte_eq hlt, getFlags]
  omega

theorem WellFormed.map (h : WellFormed s root) (hf : FreeList s) (hva : va % pageSize = 0) (hlt : va < 2 ^ 39)
    (hsmall : page < 2 ^ 52) (hpage : page ∉ tablesOf s.mem 2 root ∧ page ∉ s.freePages)
    (hflags : flags < 2 ^ 10) (hrights : isANextLvlPtr flags = false)
    (hm : vpageMap s root va page flags = some (s', 0)) :
    Updated s s' root va (some (makePte page (leafFlags flags))) ∧ WellFormed s' root := by
  obtain ⟨taken, hg, hentry, -⟩ := vpageMap_ok h.space hf hm
  have htable := hg.table
  have hfree : ∀ q, q ∉ s.freePages → q ∉ s'.freePages := fun q hq hin => hq (by
    rw [hg.takes.free]
    exact List.mem_append_right _ hin)
  have htables : ∀ q, q ∉ tablesOf s.mem 2 root → q ∉ s.freePages → q ∉ tablesOf s'.mem 2 root :=
    fun q hq hqf hin => (hg.tables q hin).elim hq fun htaken => hqf (hg.takes.mem_free htaken)
  refine ⟨⟨?_, fun vb hvb hlb hne => ?_⟩, hg.space h.space hf, fun vb hv => ?_, fun vb hv => ?_⟩
  · have hself := hentry va
    rw [if_pos rfl] at hself
    rw [leafPte_of_entry htable (by rw [hself, leaf_valid]) (by rw [hself, isANextLvlPtr_leaf, hrights]), hself]
  · have hother := hentry vb
    rw [if_neg (pageOf_ne hva hvb hlt hlb hne)] at hother
    rw [leafPte_eq htable, leafPte_eq h.space.table, hother]
  · rw [hentry] at hv ⊢
    split at hv
    · rw [if_pos ‹_›, isANextLvlPtr_leaf, hrights]
    · rw [if_neg ‹_›]
      exact h.leafy vb hv
  · rw [hentry] at hv ⊢
    split at hv
    · rw [if_pos ‹_›, getNextLvlPte_makePte (leafFlags_lt hflags) hsmall]
      exact ⟨htables page hpage.1 hpage.2, hfree page hpage.2⟩
    · rw [if_neg ‹_›]
      obtain ⟨hnot, hused⟩ := h.mapped vb hv
      exact ⟨htables _ hnot hused, hfree _ hused⟩

theorem slot_of_walkLeaf (h : Table s.mem 2 root) {t i : ℕ} (hw : walkLeaf s root va = some (t, i)) :
    slot nextTable s.mem (getVaVpn va) 2 root = some (t, i) := by
  rw [walkLeaf_eq h] at hw
  obtain ⟨r, hr, hw⟩ := bind_eq_some_iff.mp hw
  split at hw
  · exact hr.trans hw
  · cases hw

theorem vpageUnmmap_none (h : leafPte s root va = none) : vpageUnmmap s root va = some (s, -einval) := by
  unfold vpageUnmmap
  cases hw : walkLeaf s root va with
  | none => rfl
  | some p =>
    rw [leafPte, hw] at h
    cases h

theorem vpageUnmmap_some {pte : ℕ} (h : Table s.mem 2 root) (hva : va % pageSize = 0) (hlt : va < 2 ^ 39)
    (hpte : leafPte s root va = some pte) (hown : 0 < s.pageRc (getNextLvlPte pte)) :
    ∃ s', vpageUnmmap s root va = some (s', 0) ∧ Updated s s' root va none := by
  obtain ⟨⟨t, i⟩, hw, rfl⟩ := map_eq_some_iff.mp hpte
  obtain ⟨s₁, hput⟩ := pagePut_isSome hown
  have hmem := (pagePut_some hput).1
  have hslot := slot_of_walkLeaf h hw
  have h₁ : Table s₁.mem 2 root := hmem ▸ h
  obtain ⟨htable, -, hentry⟩ := @Table.write s₁ root va t i h₁ (hmem ▸ hslot) 0
  have hold : ∀ vb, entry s₁ root vb = entry s root vb := fun vb => by
    rw [entry, entry, hmem]
  refine ⟨s₁.setWord t i 0, ?_, ?_, fun vb hvb hlb hne => ?_⟩
  · unfold vpageUnmmap
    rw [hw]
    dsimp only
    rw [hput]
    rfl
  · refine leafPte_of_invalid htable ?_
    rw [hentry, if_pos rfl]
    decide
  · have hother := hentry vb
    rw [if_neg (pageOf_ne hva hvb hlt hlb hne), hold] at hother
    rw [leafPte_eq htable, leafPte_eq h, hother]

/-- A page table is a finite map from page addresses to leaves. -/
theorem pageTable_finite_map (h : WellFormed s root) (hf : FreeList s) (hva : va % pageSize = 0)
    (hlt : va < 2 ^ 39) :
    (∀ page flags s', page < 2 ^ 52 → page ∉ tablesOf s.mem 2 root → page ∉ s.freePages → flags < 2 ^ 10 →
      isANextLvlPtr flags = false → vpageMap s root va page flags = some (s', 0) →
      (∃ pte, Updated s s' root va (some pte) ∧ getNextLvlPte pte = page ∧
        getFlags pte = flags ||| pteV ||| pteA ||| (if hasAny flags pteW then pteD else 0)) ∧
      WellFormed s' root) ∧
    (leafPte s root va = none → vpageUnmmap s root va = some (s, -einval)) ∧
    ∀ pte, leafPte s root va = some pte → 0 < s.pageRc (getNextLvlPte pte) →
      ∃ s', vpageUnmmap s root va = some (s', 0) ∧ Updated s s' root va none := by
  refine ⟨fun page flags s' hsmall hnot hused hflags hrights hm => ?_, vpageUnmmap_none, fun pte hpte hown =>
    vpageUnmmap_some h.space.table hva hlt hpte hown⟩
  obtain ⟨hup, hw⟩ := h.map hf hva hlt hsmall ⟨hnot, hused⟩ hflags hrights hm
  exact ⟨⟨_, hup, getNextLvlPte_makePte (leafFlags_lt hflags) hsmall, getFlags_leaf hflags⟩, hw⟩

end

/-! A root without entries. -/

def blankMem : Kmem := ⟨fun _ _ => 0, fun _ => 0, List.range' 2 5⟩

theorem blankMem_free : FreeList blankMem := ⟨by decide, by decide⟩

theorem blankMem_tables : tablesOf blankMem.mem 2 1 = {1} := (table_of_blank (fun _ => rfl) 2).2.1

theorem wellFormed_of_zero {s : Kmem} {root : ℕ} (hmem : s.mem = fun _ _ => 0) (hroot : root ∉ s.freePages) :
    WellFormed s root := by
  obtain ⟨htable, htables, hvalue⟩ := @table_of_blank (fun _ _ => 0) root (fun _ => rfl) 2
  have hinvalid : ∀ va, hasAny (entry s root va) pteV = false := fun va => by
    rw [entry, hmem, hvalue]
    decide
  refine ⟨⟨hmem ▸ htable, fun p hp => ?_⟩, fun va hv => ?_, fun va hv => ?_⟩
  · rw [hmem, htables, Set.mem_singleton_iff] at hp
    rw [hp]
    exact hroot
  · rw [hinvalid] at hv
    cases hv
  · rw [hinvalid] at hv
    cases hv

theorem blankMem_wellFormed : WellFormed blankMem 1 := wellFormed_of_zero rfl (by decide)

theorem exists_blankMap {page : ℕ}
    (h : (vpageMap blankMem 1 0x1000 page pteR).any (fun r => decide (r.2 = 0)) = true) :
    ∃ s', vpageMap blankMem 1 0x1000 page pteR = some (s', 0) := by
  obtain ⟨⟨s', res⟩, hm, hres⟩ := (any_eq_true _ _).mp h
  obtain rfl : res = 0 := of_decide_eq_true hres
  exact ⟨s', hm⟩

/-- A page is mapped in an empty tree and unmapped again; its neighbour is not mapped. -/
theorem pageTable_finite_map_blank : ∃ s' s'' pte,
    vpageMap (pageGet blankMem 9) 1 0x1000 9 pteR = some (s', 0) ∧ leafPte s' 1 0x1000 = some pte ∧
    getNextLvlPte pte = 9 ∧ WellFormed s' 1 ∧ vpageUnmmap s' 1 0x2000 = some (s', -einval) ∧
    vpageUnmmap s' 1 0x1000 = some (s'', 0) ∧ leafPte s'' 1 0x1000 = none := by
  have hw₀ : WellFormed (pageGet blankMem 9) 1 := wellFormed_of_zero rfl (by decide)
  have hf₀ : FreeList (pageGet blankMem 9) := ⟨by decide, by decide⟩
  have htables : tablesOf (pageGet blankMem 9).mem 2 1 = {1} := blankMem_tables
  have hany : (vpageMap (pageGet blankMem 9) 1 0x1000 9 pteR).any
      (fun r => decide (r.2 = 0 ∧ r.1.pageRc 9 = 1)) = true := by decide +kernel
  obtain ⟨⟨s', res⟩, hm, hfacts⟩ := (any_eq_true _ _).mp hany
  obtain ⟨rfl, hcount⟩ := of_decide_eq_true hfacts
  obtain ⟨⟨pte, hup, hpage, -⟩, hw⟩ := (pageTable_finite_map hw₀ hf₀ (by decide) (by decide)).1 9 pteR s'
    (by decide) (by rw [htables]; decide) (by decide) (by decide) (by decide) hm
  obtain ⟨taken, hg, -⟩ := vpageMap_ok hw₀.space hf₀ hm
  have hf : FreeList s' := hg.takes.freeList hf₀
  have hblank : leafPte (pageGet blankMem 9) 1 0x2000 = none := by decide
  have hnext : leafPte s' 1 0x2000 = none :=
    (hup.others 0x2000 (by decide) (by decide) (by decide)).trans hblank
  have hmissing := (@pageTable_finite_map s' 1 0x2000 hw hf (by decide) (by decide)).2.1 hnext
  obtain ⟨s'', hun, hup'⟩ := (@pageTable_finite_map s' 1 0x1000 hw hf (by decide) (by decide)).2.2 pte hup.here
    (by rw [hpage, hcount]; decide)
  exact ⟨s', s'', pte, hm, hup.here, hpage, hw, hmissing, hun, hup'.here⟩

/-- The root is mapped as a page of its own tree. -/
theorem map_of_root_not_wellFormed : WellFormed blankMem 1 ∧
    ∃ s', vpageMap blankMem 1 0x1000 1 pteR = some (s', 0) ∧ ¬ WellFormed s' 1 := by
  obtain ⟨s', hm⟩ := @exists_blankMap 1 (by decide +kernel)
  refine ⟨blankMem_wellFormed, s', hm, fun hw => ?_⟩
  obtain ⟨taken, -, hentry, -⟩ := vpageMap_ok blankMem_wellFormed.space blankMem_free hm
  have hself := hentry 0x1000
  rw [if_pos rfl] at hself
  have hmapped := (hw.mapped 0x1000 (by rw [hself, leaf_valid])).1
  rw [hself, getNextLvlPte_makePte (leafFlags_lt (by decide)) (by decide)] at hmapped
  exact hmapped (mem_tables_self 2 1)

end RvMiniOs.Memory
