import RvMiniOs.Memory.Mmap
import Mathlib.Order.CompletePartialOrder

/-!
# The address spaces of the live tasks

Tasks of one process share a page table. Page tables of different processes have no
table in common, and a page that is mapped is neither a table nor free.
-/

namespace RvMiniOs.Memory

open Lib Lib.TableTree List

/-- The page tables of the live user tasks are in order. -/
structure System (s : Kmem) (ts : List UTask) : Prop where
  free : FreeList s
  space : ∀ t ∈ ts, Space s t.rootPtable
  apart : ∀ t ∈ ts, ∀ u ∈ ts, t.rootPtable ≠ u.rootPtable →
    Disjoint (tablesOf s.mem 2 t.rootPtable) (tablesOf s.mem 2 u.rootPtable)
  mapped : ∀ t ∈ ts, ∀ va, hasAny (entry s t.rootPtable va) pteV = true →
    getNextLvlPte (entry s t.rootPtable va) ∉ s.freePages ∧
      ∀ u ∈ ts, getNextLvlPte (entry s t.rootPtable va) ∉ tablesOf s.mem 2 u.rootPtable

abbrev spillOf (mem : ℕ → ℕ → ℕ) (l t : ℕ) : Set ℕ := reach nextTable wordsPerPage mem (l + 1) t

/-- The trap frame of a task is mapped, writable and not shared. -/
def FrameUsable (s : Kmem) (t : UTask) : Prop :=
  ∃ pte, leafPte s t.rootPtable t.tframeVa = some pte ∧ getNextLvlPte pte = t.tframePa ∧
    hasAny pte pteW = true ∧ hasAny pte pteCow = false

instance (s : Kmem) (t : UTask) : Decidable (FrameUsable s t) :=
  decidable_of_iff ((leafPte s t.rootPtable t.tframeVa).any (fun pte =>
    decide (getNextLvlPte pte = t.tframePa) && hasAny pte pteW && !hasAny pte pteCow) = true) (by
      simp only [FrameUsable, Option.any_eq_true, Bool.and_eq_true, decide_eq_true_eq,
        Bool.not_eq_true', and_assoc])

section

variable {s s' : Kmem} {ts : List UTask} {t u : UTask} {root va : ℕ}

theorem exists_va {key : ℕ → ℕ} (hkey : ∀ k, key k < wordsPerPage) :
    ∃ va, ∀ k ≤ 2, getVaVpn va k = key k := by
  have h0 := hkey 0
  have h1 := hkey 1
  have h2 := hkey 2
  refine ⟨key 0 * 2 ^ 12 + key 1 * 2 ^ 21 + key 2 * 2 ^ 30, fun k hk => ?_⟩
  interval_cases k <;> simp only [getVaVpn, pageShift, wordsPerPage] at * <;> omega

theorem exists_entry_of_spill {p : ℕ} (hp : p ∈ spillOf s.mem 2 root) :
    ∃ va, nextTable (entry s root va) = some p := by
  obtain ⟨key, hkey, q, i, hs, hq⟩ := exists_key_of_reach hp
  obtain ⟨va, hva⟩ := exists_va hkey
  refine ⟨va, ?_⟩
  have hslot : slot nextTable s.mem (getVaVpn va) 2 root = some (q, i) := by
    rw [← hs]
    simp only [slot, hva 0 (by omega), hva 1 (by omega), hva 2 (by omega)]
  rw [entry, value_of_slot hslot, hq]

theorem System.spill (h : System s ts) (ht : t ∈ ts) {p : ℕ} (hp : p ∈ spillOf s.mem 2 t.rootPtable) :
    p ∉ s.freePages ∧ ∀ u ∈ ts, p ∉ tablesOf s.mem 2 u.rootPtable := by
  obtain ⟨va, hva⟩ := exists_entry_of_spill hp
  obtain ⟨hv, -, rfl⟩ := nextTable_eq_some hva
  exact h.mapped t ht va hv

theorem frameUsable_congr (h : Table s.mem 2 t.rootPtable) (h' : Table s'.mem 2 t.rootPtable)
    (he : entry s' t.rootPtable t.tframeVa = entry s t.rootPtable t.tframeVa) :
    FrameUsable s' t ↔ FrameUsable s t := by
  unfold FrameUsable
  rw [leafPte_eq h, leafPte_eq h', he]

def maps (pte : ℕ) : List ℕ := if hasAny pte pteV then [getNextLvlPte pte] else []

theorem system_single (hf : FreeList s) (hs : Space s t.rootPtable)
    (hnodup : (collectOf maps s.mem 2 t.rootPtable).Nodup)
    (hused : ∀ p ∈ collectOf maps s.mem 2 t.rootPtable, p ∉ s.freePages) : System s [t] where
  free := hf
  space := fun u hu => mem_singleton.mp hu ▸ hs
  apart := fun u hu v hv hne =>
    absurd (by rw [mem_singleton.mp hu, mem_singleton.mp hv]) hne
  mapped := fun u hu va hv => by
    obtain rfl := mem_singleton.mp hu
    cases hp : slot nextTable s.mem (getVaVpn va) 2 u.rootPtable with
    | none =>
      rw [entry, value_of_none hp] at hv
      exact absurd hv (by decide)
    | some r =>
      have hval : entry s u.rootPtable va = s.mem r.1 r.2 := value_of_slot hp
      rw [hval] at hv ⊢
      obtain ⟨hin, hout⟩ := not_table_of_nodup hnodup (getVaVpn_lt va) hp (by
        rw [maps, if_pos hv]
        exact mem_singleton_self _)
      exact ⟨hused _ hin, fun v hv => mem_singleton.mp hv ▸ hout⟩

end

end RvMiniOs.Memory
