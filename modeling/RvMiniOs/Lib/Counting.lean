import Mathlib.Algebra.BigOperators.Group.Finset.Basic
import Mathlib.Algebra.Order.BigOperators.Group.Finset
import Mathlib.Data.List.Count
import Mathlib.Data.List.Nodup
import Mathlib.Logic.Function.Basic

/-!
# Counting references

A counter that is to equal the number of references to an object moves with one
reference at a time. The lemmas state how a count changes when one entry of a
table, or the share of one holder, is replaced.
-/
namespace RvMiniOs.Lib

open Function List Finset

theorem count_filterMap_update {ι α : Type*} [DecidableEq ι] [DecidableEq α] {l : List ι}
    (hl : l.Nodup) {i : ι} (hi : i ∈ l) (f : ι → Option α) (o : Option α) (k : α) :
    (l.filterMap (update f i o)).count k + (f i).toList.count k =
      (l.filterMap f).count k + o.toList.count k := by
  induction l with
  | nil => simp at hi
  | cons j l ih =>
    obtain ⟨hj, hl⟩ := nodup_cons.mp hl
    have hsplit : ∀ g : ι → Option α,
        ((j :: l).filterMap g).count k = (g j).toList.count k + (l.filterMap g).count k := by
      intro g
      cases hg : g j <;> simp [hg, count_cons, Nat.add_comm]
    rw [hsplit, hsplit]
    rcases mem_cons.mp hi with rfl | hmem
    · have hsame : l.filterMap (update f i o) = l.filterMap f :=
        filterMap_congr fun x hx => by
          rw [update_of_ne]
          rintro rfl
          exact hj hx
      rw [update_self, hsame]
      omega
    · have hne : j ≠ i := fun h => hj (h ▸ hmem)
      have := ih hl hmem
      rw [update_of_ne hne]
      omega

theorem sum_change {ι : Type*} [DecidableEq ι] {s : Finset ι} {f g : ι → ℕ} {a : ι} (ha : a ∈ s)
    (h : ∀ t ∈ s, t ≠ a → f t = g t) : ∑ t ∈ s, f t + g a = ∑ t ∈ s, g t + f a := by
  have hrest : ∑ t ∈ s.erase a, f t = ∑ t ∈ s.erase a, g t :=
    sum_congr rfl fun t ht => h t (mem_of_mem_erase ht) (ne_of_mem_erase ht)
  have hf := add_sum_erase s f ha
  have hg := add_sum_erase s g ha
  omega

/-- The items below `n` lie, each once, in the pool or with a holder. -/
structure Split {ι : Type*} (s : Finset ι) (n : ℕ) (pool : List ℕ) (share : ι → List ℕ) : Prop where
  count : ∀ i, pool.count i + ∑ t ∈ s, (share t).count i = if i < n then 1 else 0
  length : pool.length + ∑ t ∈ s, (share t).length = n

namespace Split

variable {ι : Type*} {s : Finset ι} {n : ℕ} {pool pool' : List ℕ} {share share' : ι → List ℕ}
  {a t u : ι} {i : ℕ}

theorem count_le (h : Split s n pool share) (i : ℕ) : pool.count i + ∑ t ∈ s, (share t).count i ≤ 1 := by
  rw [h.count i]
  split_ifs <;> omega

theorem pool_nodup (h : Split s n pool share) : pool.Nodup :=
  nodup_iff_count_le_one.mpr fun i => by
    have := h.count_le i
    omega

theorem share_nodup (h : Split s n pool share) (ht : t ∈ s) : (share t).Nodup :=
  nodup_iff_count_le_one.mpr fun i => by
    have hsingle := single_le_sum (f := fun t => (share t).count i)
      (fun _ _ => Nat.zero_le _) ht
    have := h.count_le i
    omega

theorem not_mem_share (h : Split s n pool share) (ht : t ∈ s) (hi : i ∈ pool) : i ∉ share t := by
  intro hmem
  have hpool := count_pos_iff.mpr hi
  have hshare := count_pos_iff.mpr hmem
  have hsingle := single_le_sum (f := fun t => (share t).count i)
    (fun _ _ => Nat.zero_le _) ht
  have := h.count_le i
  omega

theorem disjoint [DecidableEq ι] (h : Split s n pool share) (ht : t ∈ s) (hu : u ∈ s) (hne : t ≠ u)
    (hi : i ∈ share t) : i ∉ share u := by
  intro hmem
  have hleft := count_pos_iff.mpr hi
  have hright := count_pos_iff.mpr hmem
  have hsplit := add_sum_erase s (fun t => (share t).count i) ht
  have hsingle := single_le_sum (f := fun t => (share t).count i)
    (fun _ _ => Nat.zero_le _) (mem_erase.mpr ⟨hne.symm, hu⟩)
  have := h.count_le i
  omega

theorem move [DecidableEq ι] (h : Split s n pool share) (ha : a ∈ s)
    (hothers : ∀ t ∈ s, t ≠ a → share' t = share t)
    (hperm : (pool' ++ share' a).Perm (pool ++ share a)) : Split s n pool' share' where
  count := fun i => by
    have hsum := sum_change (f := fun t => (share' t).count i) (g := fun t => (share t).count i) ha
      fun t ht hne => by rw [hothers t ht hne]
    have hcount := hperm.count_eq i
    rw [count_append, count_append] at hcount
    rw [← h.count i]
    omega
  length := by
    have hsum := sum_change (f := fun t => (share' t).length) (g := fun t => (share t).length) ha
      fun t ht hne => by rw [hothers t ht hne]
    have hlen := hperm.length_eq
    rw [length_append, length_append] at hlen
    have := h.length
    omega

end Split

end RvMiniOs.Lib
