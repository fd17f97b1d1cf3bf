import Mathlib.Data.Nat.ModEq
import Mathlib.Data.List.Basic
import Mathlib.Logic.Function.Basic

/-!
# Rings with a free-running index

A ring of `n` cells is shared by a writer and a reader. Both count in 16 bits and
never reset their index: the cell of an index is its remainder by `n`. When `n`
divides `2 ^ 16` the wrap of an index does not disturb the cells, and the ring is
a queue of at most `n` elements.
-/
namespace RvMiniOs.Lib

open Function List

structure IndexRing (α : Type*) where
  cell : ℕ → α
  idx : UInt16

namespace IndexRing

variable {α : Type*} {n : ℕ} {r : IndexRing α} {seen : UInt16} {q : List α} {x : α}

def push (n : ℕ) (r : IndexRing α) (x : α) : IndexRing α where
  cell := Function.update r.cell (r.idx.toNat % n) x
  idx := r.idx + 1

def peek (n : ℕ) (r : IndexRing α) (seen : UInt16) : α :=
  r.cell (seen.toNat % n)

/-- A reader at `seen` still has the elements `q` before it. -/
structure Holds (n : ℕ) (r : IndexRing α) (seen : UInt16) (q : List α) : Prop where
  idx : r.idx.toNat = (seen.toNat + q.length) % 2 ^ 16
  cell : ∀ j (h : j < q.length), r.cell ((seen.toNat + j) % n) = q[j]

theorem holds_nil (r : IndexRing α) : Holds n r r.idx [] where
  idx := (Nat.mod_eq_of_lt r.idx.toNat_lt).symm
  cell := fun j h => absurd h (Nat.not_lt_zero j)

theorem mod_wrap (hn : n ∣ 2 ^ 16) (m j : ℕ) : (m % 2 ^ 16 + j) % n = (m + j) % n := by
  rw [Nat.add_mod, Nat.mod_mod_of_dvd m hn, ← Nat.add_mod]

namespace Holds

theorem seen_ne_iff (h : Holds n r seen q) (hlen : q.length < 2 ^ 16) : seen ≠ r.idx ↔ q ≠ [] := by
  have hidx := h.idx
  have hlt := seen.toNat_lt
  rw [ne_eq, ne_eq, not_iff_not, ← UInt16.toNat_inj, ← length_eq_zero_iff]
  omega

theorem peek_eq (h : Holds n r seen (x :: q)) : r.peek n seen = x :=
  h.cell 0 (by simp)

theorem pop (hn : n ∣ 2 ^ 16) (h : Holds n r seen (x :: q)) : Holds n r (seen + 1) q where
  idx := by
    have hidx := h.idx
    simp only [length_cons] at hidx
    rw [hidx, UInt16.toNat_add]
    simp only [UInt16.toNat_one]
    omega
  cell := fun j hj => by
    rw [UInt16.toNat_add, UInt16.toNat_one, mod_wrap hn, Nat.add_assoc, Nat.add_comm 1]
    exact h.cell (j + 1) (by simpa using hj)

theorem push (hn : n ∣ 2 ^ 16) (h : Holds n r seen q) (hroom : q.length < n) (x : α) :
    Holds n (r.push n x) seen (q ++ [x]) where
  idx := by
    have hidx := h.idx
    simp only [IndexRing.push, UInt16.toNat_add, UInt16.toNat_one, length_append, length_singleton]
    omega
  cell := fun j hj => by
    have hcell : r.idx.toNat % n = (seen.toNat + q.length) % n := by
      rw [h.idx, Nat.mod_mod_of_dvd _ hn]
    simp only [IndexRing.push, hcell]
    rcases Nat.lt_or_ge j q.length with hold | hnew
    · -- the new element lies in a cell that no waiting one has
      have hne : (seen.toNat + j) % n ≠ (seen.toNat + q.length) % n := by
        intro heq
        have hmod : j ≡ q.length [MOD n] := Nat.ModEq.add_left_cancel' _ heq
        have := Nat.ModEq.eq_of_lt_of_lt hmod (hold.trans hroom) hroom
        omega
      rw [update_of_ne hne, getElem_append_left hold]
      exact h.cell j hold
    · obtain rfl : j = q.length := by
        simp only [length_append, length_singleton] at hj
        omega
      simp

end Holds

end IndexRing

structure SlotRing (α : Type*) where
  buf : ℕ → α
  head : ℕ
  tail : ℕ

namespace SlotRing

variable {α : Type*} {n : ℕ} {r : SlotRing α} {q : List α} {x : α}

def push (n : ℕ) (r : SlotRing α) (x : α) : SlotRing α where
  buf := Function.update r.buf r.head x
  head := (r.head + 1) % n
  tail := r.tail

def pop (n : ℕ) (r : SlotRing α) : SlotRing α :=
  { r with tail := (r.tail + 1) % n }

def size (n : ℕ) (r : SlotRing α) : ℕ :=
  (r.head + n - r.tail) % n

/-- The ring holds the elements `q`, the oldest first. -/
structure Holds (n : ℕ) (r : SlotRing α) (q : List α) : Prop where
  tail_lt : r.tail < n
  length_lt : q.length < n
  head : r.head = (r.tail + q.length) % n
  buf : ∀ j (h : j < q.length), r.buf ((r.tail + j) % n) = q[j]

theorem mod_inj {m i j : ℕ} (hi : i < n) (hj : j < n) (h : (m + i) % n = (m + j) % n) : i = j :=
  Nat.ModEq.eq_of_lt_of_lt (Nat.ModEq.add_left_cancel' m h) hi hj

namespace Holds

theorem head_eq_tail_iff (h : Holds n r q) : r.head = r.tail ↔ q = [] := by
  rw [h.head, ← length_eq_zero_iff]
  constructor
  · intro heq
    refine mod_inj h.length_lt (Nat.zero_lt_of_lt h.tail_lt) (heq.trans ?_)
    rw [Nat.add_zero, Nat.mod_eq_of_lt h.tail_lt]
  · intro hnil
    rw [hnil, Nat.add_zero, Nat.mod_eq_of_lt h.tail_lt]

theorem succ_head_eq_tail_iff (h : Holds n r q) : (r.head + 1) % n = r.tail ↔ q.length + 1 = n := by
  have hlen := h.length_lt
  rw [h.head, Nat.mod_add_mod, Nat.add_assoc]
  constructor
  · intro heq
    by_contra hne
    have hzero : q.length + 1 = 0 := by
      refine mod_inj (m := r.tail) (by omega) (Nat.zero_lt_of_lt h.tail_lt) (heq.trans ?_)
      rw [Nat.add_zero, Nat.mod_eq_of_lt h.tail_lt]
    omega
  · intro heq
    rw [heq, Nat.add_mod_right, Nat.mod_eq_of_lt h.tail_lt]

theorem size_eq (h : Holds n r q) : r.size n = q.length := by
  have htail := h.tail_lt
  have hlen := h.length_lt
  rw [size, h.head]
  rcases Nat.lt_or_ge (r.tail + q.length) n with hlt | hge
  · rw [Nat.mod_eq_of_lt hlt, show r.tail + q.length + n - r.tail = q.length + n by omega, Nat.add_mod_right,
      Nat.mod_eq_of_lt hlen]
  · have hwrap : (r.tail + q.length) % n = r.tail + q.length - n := by
      rw [Nat.mod_eq_sub_mod hge, Nat.mod_eq_of_lt (by omega)]
    rw [hwrap, show r.tail + q.length - n + n - r.tail = q.length by omega, Nat.mod_eq_of_lt hlen]

theorem first (h : Holds n r (x :: q)) : r.buf r.tail = x := by
  have hcell := h.buf 0 (by simp)
  rwa [Nat.add_zero, Nat.mod_eq_of_lt h.tail_lt] at hcell

theorem push (h : Holds n r q) (hroom : q.length + 1 < n) (x : α) : Holds n (r.push n x) (q ++ [x]) where
  tail_lt := h.tail_lt
  length_lt := by simpa using hroom
  head := by
    simp only [SlotRing.push, h.head, length_append, length_singleton, Nat.mod_add_mod, Nat.add_assoc]
  buf := fun j hj => by
    simp only [SlotRing.push, h.head]
    rcases Nat.lt_or_ge j q.length with hold | hnew
    · -- the new element lies in a cell that no waiting one has
      have hne : (r.tail + j) % n ≠ (r.tail + q.length) % n := fun heq => by
        have := mod_inj (hold.trans h.length_lt) h.length_lt heq
        omega
      rw [update_of_ne hne, getElem_append_left hold]
      exact h.buf j hold
    · obtain rfl : j = q.length := by
        simp only [length_append, length_singleton] at hj
        omega
      simp

theorem pop (h : Holds n r (x :: q)) : Holds n (r.pop n) q where
  tail_lt := Nat.mod_lt _ (Nat.zero_lt_of_lt h.tail_lt)
  length_lt := Nat.lt_of_succ_lt (by simpa using h.length_lt)
  head := by
    have hhead := h.head
    simp only [length_cons] at hhead
    simp only [SlotRing.pop, hhead, Nat.mod_add_mod, Nat.add_right_comm, Nat.add_assoc]
  buf := fun j hj => by
    simp only [SlotRing.pop, Nat.mod_add_mod, Nat.add_assoc, Nat.add_comm 1 j]
    exact h.buf (j + 1) (by simpa using hj)

end Holds

end SlotRing

end RvMiniOs.Lib
