import RvMiniOs.Memory.PageMap

/-!
# Mappings that fail

`vpage_map` links each table into the tree as it allocates it, and on failure puts the
tables back without taking the links out. One table is allocated before the failure
exactly if the root has no entry and one page is free.
-/

namespace RvMiniOs.Memory

open Lib Lib.TableTree List Option

/-- A failed call has left the tree of `root` and the free pages alone, so that the tree
can be walked, extended and freed as before. -/
structure Intact (s s' : Kmem) (root : ℕ) : Prop where
  entries : ∀ p ∈ tablesOf s.mem 2 root, ∀ i < wordsPerPage, s'.mem p i = s.mem p i
  free : ∀ p, p ∈ s'.freePages ↔ p ∈ s.freePages
  walk : ∀ va, leafPte s' root va = leafPte s root va
  extend : ∀ va page flags, (vpageMap s root va page flags).isSome → (vpageMap s' root va page flags).isSome
  drop : (vpageTreeFree s root).isSome → (vpageTreeFree s' root).isSome

/-- The root has no entry for `va`, and there is one page for the two tables that are
missing. -/
def OneShort (s : Kmem) (root va : ℕ) : Prop :=
  hasAny (s.mem root (getVaVpn va 2)) pteV = false ∧ s.freePages.length = 1

section

variable {s s' : Kmem} {root va page flags : ℕ}

theorem Intact.refl (s : Kmem) (root : ℕ) : Intact s s root :=
  ⟨fun _ _ _ _ => rfl, fun _ => Iff.rfl, fun _ => rfl, fun _ _ _ => id, id⟩

theorem mapDescend_one_none {table : ℕ} {as as' : List ℕ} (h : mapDescend va 1 s table as = (s', as', none)) :
    hasAny (s.mem table (getVaVpn va 1)) pteV = false ∧ s.freePages = [] ∧ s' = s ∧ as' = as := by
  simp only [mapDescend] at h
  by_cases hv : hasAny (s.mem table (getVaVpn va 1)) pteV = true
  · rw [if_pos hv] at h
    cases h
  · rw [if_neg hv] at h
    cases ha : pageAlloc s with
    | none =>
      rw [ha] at h
      obtain ⟨rfl, rfl, -⟩ := h
      exact ⟨by simpa using hv, pageAlloc_none ha, rfl, rfl⟩
    | some r =>
      rw [ha] at h
      cases h

theorem vpageMap_enomem (hs : Space s root) (hf : FreeList s)
    (hm : vpageMap s root va page flags = some (s', -enomem)) : (s' = s ∧ ¬ OneShort s root va) ∨
    (OneShort s root va ∧ hasAny (s'.mem root (getVaVpn va 2)) pteV = true) := by
  have hused : root ∉ s.freePages := hs.used root (mem_tables_self 2 root)
  unfold vpageMap at hm
  split at hm
  · rename_i s₁ as hdesc
    obtain ⟨s₂, hput, hm⟩ := bind_eq_some_iff.mp hm
    cases hm
    rw [mapDescend] at hdesc
    by_cases hv : hasAny (s.mem root (getVaVpn va 2)) pteV = true
    · rw [if_pos hv] at hdesc
      obtain ⟨-, -, rfl, rfl⟩ := mapDescend_one_none hdesc
      cases hput
      refine .inl ⟨rfl, fun hshort => ?_⟩
      rw [hshort.1] at hv
      cases hv
    · rw [if_neg hv] at hdesc
      cases ha : pageAlloc s with
      | none =>
        rw [ha] at hdesc
        obtain ⟨rfl, rfl, -⟩ := hdesc
        cases hput
        refine .inl ⟨rfl, fun hshort => ?_⟩
        have hlen := hshort.2
        rw [pageAlloc_none ha] at hlen
        cases hlen
      | some r =>
        -- the table for the root is allocated and linked, that below it is not
        obtain ⟨next, s₃⟩ := r
        rw [ha] at hdesc
        have hnew := created_of_alloc (i := getVaVpn va 2) hf hused ha
        obtain ⟨-, hfree, rfl, -⟩ := mapDescend_one_none hdesc
        have hone : s.freePages.length = 1 := by
          rw [hnew.takes.free, hfree]
          rfl
        refine .inr ⟨⟨by simpa using hv, hone⟩, ?_⟩
        rw [(putAll_some hput).1, hnew.link]
        exact (makePte_valid next).1
  · obtain ⟨-, hres⟩ := Prod.mk.inj (some.inj hm)
    exact absurd hres (by decide)

/-- A mapping that fails for want of memory leaves the tree as it was, unless one table
of two could be allocated. -/
theorem failed_map_intact_iff (hs : Space s root) (hf : FreeList s)
    (hm : vpageMap s root va page flags = some (s', -enomem)) :
    Intact s s' root ↔ ¬ OneShort s root va := by
  rcases vpageMap_enomem hs hf hm with ⟨rfl, hshort⟩ | ⟨hshort, hlink⟩
  · exact ⟨fun _ => hshort, fun _ => Intact.refl s' root⟩
  · refine ⟨fun h => ?_, fun h => absurd hshort h⟩
    have hsame := h.entries root (mem_tables_self 2 root) _ (getVaVpn_lt va 2)
    rw [hsame, hshort.1] at hlink
    cases hlink

end

def emptyTree (n : ℕ) : Kmem := ⟨fun _ _ => 0, fun p => if p = 1 then 1 else 0, List.range' 2 n⟩

theorem emptyTree_root (n : ℕ) : 1 ∉ (emptyTree n).freePages := fun hin => by
  have hge := (mem_range'_1.mp hin).1
  omega

theorem emptyTree_space (n : ℕ) : Space (emptyTree n) 1 := (wellFormed_of_zero rfl (emptyTree_root n)).space

theorem emptyTree_freeList (n : ℕ) (hn : n < 2 ^ 51) : FreeList (emptyTree n) := by
  refine ⟨nodup_range', fun p hp => ?_⟩
  have hlt := (mem_range'_1.mp hp).2
  omega

/-- Without a free page the failure has no effect. -/
theorem failed_map_intact_empty : ∃ s', vpageMap (emptyTree 0) 1 0x1000 9 pteR = some (s', -enomem) ∧
    Intact (emptyTree 0) s' 1 := by
  have hm : vpageMap (emptyTree 0) 1 0x1000 9 pteR = some (emptyTree 0, -enomem) := rfl
  have hshort : ¬ OneShort (emptyTree 0) 1 0x1000 := fun h => absurd h.2 (by decide)
  exact ⟨_, hm, (failed_map_intact_iff (emptyTree_space 0) (emptyTree_freeList 0 (by decide)) hm).mpr hshort⟩

/-- With one free page the root keeps an entry for a table that is free again. Freeing the
tree walks into that page and takes the `in_list` byte of its list node for a link to the
table in page 0, which nobody holds. -/
theorem failed_map_dangles : Space (emptyTree 1) 1 ∧ FreeList (emptyTree 1) ∧ ∃ s' r,
    vpageMap (emptyTree 1) 1 0x1000 9 pteR = some (s', -enomem) ∧ (emptyTree 1).mem 1 0 = 0 ∧
    s'.mem 1 0 = makePte 2 pteV ∧ s'.freePages = [2] ∧ SameUsed s' r ∧
    Linked 0x80210000 r.mem 0x80210000 r.freePages ∧ r.mem 2 2 = makePte 0 pteV ∧
    vpageTreeFreeNode 0x80210000 r 1 = none ∧ ¬ Intact (emptyTree 1) s' 1 := by
  have hs := emptyTree_space 1
  have hf := emptyTree_freeList 1 (by decide)
  -- the state with the node that `page_put` has stored in page 2
  let node (s : Kmem) : Kmem := pushFree 0x80210000 { s with freePages := [] } 2
  have hany : (vpageMap (emptyTree 1) 1 0x1000 9 pteR).any (fun r =>
      decide (r.2 = -enomem ∧ r.1.mem 1 0 = makePte 2 pteV ∧ r.1.freePages = [2] ∧
        (node r.1).mem 2 2 = makePte 0 pteV) && (vpageTreeFreeNode 0x80210000 (node r.1) 1).isNone) = true := by
    decide +kernel
  obtain ⟨⟨s', res⟩, hm, hany⟩ := (any_eq_true _ _).mp hany
  obtain ⟨hfacts, hnone⟩ := Bool.and_eq_true_iff.mp hany
  obtain ⟨rfl, hlink, hfree, hnode⟩ := of_decide_eq_true hfacts
  have hsame : SameUsed s' (node s') := by
    obtain ⟨hcount, hpages⟩ := pushFree_counts 0x80210000 { s' with freePages := [] } 2
    refine ⟨hcount, by rw [hpages, hfree], fun q hq => ?_⟩
    rw [hfree] at hq
    exact pushFree_mem 0x80210000 { s' with freePages := [] } 2 hq
  have hlinked : Linked 0x80210000 (node s').mem 0x80210000 (node s').freePages := by
    rw [(pushFree_counts 0x80210000 { s' with freePages := [] } 2).2]
    exact Linked.push (s := { s' with freePages := [] }) trivial (by simp) nodup_nil
  refine ⟨hs, hf, s', node s', hm, rfl, hlink, hfree, hsame, hlinked, hnode, isNone_iff_eq_none.mp hnone,
    fun h => ?_⟩
  have hkept := h.entries 1 (mem_tables_self 2 1) 0 (by decide)
  rw [hlink] at hkept
  exact absurd hkept (by decide)

end RvMiniOs.Memory
