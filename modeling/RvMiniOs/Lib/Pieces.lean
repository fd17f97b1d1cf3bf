import Mathlib.Data.List.Perm.Basic
import Mathlib.Data.List.Sort
import Mathlib.Tactic.Common

/-!
# Ranges cut into pieces

`Spans` is a range cut into consecutive pieces that are listed in order, `Cut` the same
with the pieces in any order. A piece can be cut again or be merged with its neighbour, and
the range can grow at its end.
-/
namespace RvMiniOs.Lib

open List

structure Piece where
  addr : ℕ
  size : ℕ
  deriving DecidableEq

namespace Piece

def stop (b : Piece) : ℕ := b.addr + b.size

def Apart (b b' : Piece) : Prop := b.stop ≤ b'.addr ∨ b'.stop ≤ b.addr

end Piece

def Spans (a : ℕ) : List Piece → ℕ → Prop
  | [], c => a = c
  | b :: bs, c => b.addr = a ∧ 0 < b.size ∧ Spans b.stop bs c

variable {a c m n : ℕ} {b b' : Piece} {bs l l' : List Piece}

theorem spans_append : Spans a (l ++ l') c ↔ ∃ m, Spans a l m ∧ Spans m l' c := by
  induction l generalizing a with
  | nil => simp [Spans]
  | cons b l ih => simp [Spans, ih, and_assoc]

theorem spans_singleton (hn : 0 < n) : Spans a [⟨a, n⟩] (a + n) := ⟨rfl, hn, rfl⟩

theorem Spans.le (h : Spans a l c) : a ≤ c := by
  induction l generalizing a with
  | nil => exact le_of_eq h
  | cons b l ih =>
    have hle := ih h.2.2
    have haddr := h.1
    rw [Piece.stop] at hle
    omega

theorem Spans.around (h : Spans a l c) (hb : b ∈ l) :
    ∃ l₁ l₂, l = l₁ ++ b :: l₂ ∧ Spans a l₁ b.addr ∧ 0 < b.size ∧ Spans b.stop l₂ c := by
  obtain ⟨l₁, l₂, rfl⟩ := append_of_mem hb
  obtain ⟨m, h₁, rfl, hpos, h₂⟩ := spans_append.mp h
  exact ⟨l₁, l₂, rfl, h₁, hpos, h₂⟩

theorem Spans.bounds (h : Spans a l c) (hb : b ∈ l) : a ≤ b.addr ∧ 0 < b.size ∧ b.stop ≤ c := by
  obtain ⟨l₁, l₂, -, h₁, hpos, h₂⟩ := h.around hb
  exact ⟨h₁.le, hpos, h₂.le⟩

theorem Spans.pairwise (h : Spans a l c) : l.Pairwise Piece.Apart := by
  induction l generalizing a with
  | nil => exact .nil
  | cons b l ih => exact pairwise_cons.mpr ⟨fun b' hb' => .inl (h.2.2.bounds hb').1, ih h.2.2⟩

def Cut (a : ℕ) (bs : List Piece) (c : ℕ) : Prop := ∃ l, l ~ bs ∧ Spans a l c

namespace Cut

theorem perm (h : Cut a bs c) (hp : bs ~ l) : Cut a l c := by
  obtain ⟨k, hk, ht⟩ := h
  exact ⟨k, hk.trans hp, ht⟩

theorem bounds (h : Cut a bs c) (hb : b ∈ bs) : a ≤ b.addr ∧ 0 < b.size ∧ b.stop ≤ c := by
  obtain ⟨k, hk, ht⟩ := h
  exact ht.bounds (hk.mem_iff.mpr hb)

theorem pairwise (h : Cut a bs c) : bs.Pairwise Piece.Apart := by
  obtain ⟨k, hk, ht⟩ := h
  exact (hk.pairwise_iff fun h => h.symm).mp ht.pairwise

theorem around (h : Cut a (b :: bs) c) :
    ∃ l₁ l₂, l₁ ++ l₂ ~ bs ∧ Spans a l₁ b.addr ∧ 0 < b.size ∧ Spans b.stop l₂ c := by
  obtain ⟨k, hk, ht⟩ := h
  obtain ⟨l₁, l₂, rfl, h₁, hpos, h₂⟩ := ht.around (hk.mem_iff.mpr mem_cons_self)
  exact ⟨l₁, l₂, (perm_middle.symm.trans hk).cons_inv, h₁, hpos, h₂⟩

theorem refine (h : Cut a (b :: bs) c) (hl : Spans b.addr l b.stop) : Cut a (l ++ bs) c := by
  obtain ⟨l₁, l₂, hp, h₁, -, h₂⟩ := h.around
  refine ⟨l₁ ++ (l ++ l₂), ?_, spans_append.mpr ⟨_, h₁, spans_append.mpr ⟨_, hl, h₂⟩⟩⟩
  exact (perm_append_comm_assoc l₁ l l₂).trans (hp.append_left l)

theorem merge (h : Cut a (b :: b' :: bs) c) (hnext : b.stop = b'.addr) :
    Cut a (⟨b.addr, b.size + b'.size⟩ :: bs) c := by
  obtain ⟨l₁, l₂, hp, h₁, hpos, h₂⟩ := h.around
  have hmem : b' ∈ l₁ ++ l₂ := hp.mem_iff.mpr mem_cons_self
  have hb' := (h.bounds (mem_cons_of_mem b mem_cons_self)).2.1
  rw [Piece.stop] at hnext
  rcases mem_append.mp hmem with hmem | hmem
  · have := (h₁.bounds hmem).2.2
    rw [Piece.stop] at this
    omega
  -- the first piece behind `b` starts where `b'` does
  cases l₂ with
  | nil => cases hmem
  | cons d l₂ =>
    obtain ⟨hd, hdpos, hrest⟩ := h₂
    rw [Piece.stop] at hd
    rcases mem_cons.mp hmem with rfl | hmem
    · refine ⟨l₁ ++ ⟨b.addr, b.size + b'.size⟩ :: l₂, perm_middle.trans (.cons _ ?_),
        spans_append.mpr ⟨_, h₁, rfl, Nat.add_pos_left hpos _, ?_⟩⟩
      · exact (perm_middle.symm.trans hp).cons_inv
      · rwa [Piece.stop, hd, Nat.add_assoc] at hrest
    · have := (hrest.bounds hmem).1
      rw [Piece.stop] at this
      omega

theorem resize (h : Cut a (b :: bs) c) (hlast : c ≤ b.stop) (hn : 0 < n) :
    Cut a (⟨b.addr, n⟩ :: bs) (b.addr + n) := by
  obtain ⟨l₁, l₂, hp, h₁, -, h₂⟩ := h.around
  cases l₂ with
  | nil =>
    rw [append_nil] at hp
    exact ⟨l₁ ++ [⟨b.addr, n⟩], (perm_append_singleton _ _).trans (.cons _ hp),
      spans_append.mpr ⟨_, h₁, spans_singleton hn⟩⟩
  | cons d l₂ =>
    have hstart := h₂.1
    have hd := (h₂.bounds mem_cons_self).2
    rw [Piece.stop] at hd
    omega

theorem push (h : Cut a bs c) (hn : 0 < n) : Cut a (⟨c, n⟩ :: bs) (c + n) := by
  obtain ⟨k, hk, ht⟩ := h
  exact ⟨k ++ [⟨c, n⟩], (perm_append_singleton _ _).trans (.cons _ hk),
    spans_append.mpr ⟨c, ht, spans_singleton hn⟩⟩

theorem single (h : Cut a bs c) (hgap : bs.Pairwise fun b b' => b.stop < b'.addr) :
    (bs = [] ∧ a = c) ∨ (a < c ∧ bs = [⟨a, c - a⟩]) := by
  obtain ⟨k, hk, ht⟩ := h
  cases k with
  | nil => exact .inl ⟨hk.nil_eq.symm, ht⟩
  | cons b k =>
    cases k with
    | nil =>
      obtain ⟨rfl, hpos, rfl⟩ := ht
      refine .inr ⟨Nat.lt_add_of_pos_right hpos, ?_⟩
      rw [← hk.singleton_eq, Piece.stop, Nat.add_sub_cancel_left]
    | cons b' k =>
      have hsep : (b :: b' :: k).Pairwise fun x y => x.stop < y.addr ∨ y.stop < x.addr :=
        (hk.pairwise_iff fun h => h.symm).mpr (hgap.imp .inl)
      have hpair := (pairwise_cons.mp hsep).1 b' mem_cons_self
      have hnext : b'.addr = b.stop := ht.2.2.1
      simp only [Piece.stop] at hpair hnext
      omega

end Cut

end RvMiniOs.Lib
