import Mathlib.Data.List.Nodup
import Mathlib.Logic.Function.Basic

/-!
# Circular doubly linked lists by their pointers

Nodes of any type with their two pointers and the mark of a node that is in a list. The
operations write the pointers one after another. A segment is what lies between two nodes,
and a ring is the segment from a head back to it.
-/
namespace RvMiniOs.Lib

open Function List

structure Links (α : Type*) where
  next : α → α
  prev : α → α
  inList : α → Bool

namespace Links

variable {α : Type*} {l l' : Links α} {a b n h x : α} {xs ys : List α}

/-- From `a` over `xs` to `b`, in both directions. -/
def Segment (l : Links α) (a : α) : List α → α → Prop
  | [], b => l.next a = b ∧ l.prev b = a
  | x :: xs, b => l.next a = x ∧ l.prev x = a ∧ l.Segment x xs b

theorem Segment.congr (hs : l.Segment a xs b) (hnext : ∀ x ∈ a :: xs, l'.next x = l.next x)
    (hprev : ∀ x ∈ xs ++ [b], l'.prev x = l.prev x) : l'.Segment a xs b := by
  induction xs generalizing a with
  | nil => exact ⟨(hnext a (by simp)).trans hs.1, (hprev b (by simp)).trans hs.2⟩
  | cons x xs ih =>
    obtain ⟨hax, hxa, hrest⟩ := hs
    refine ⟨(hnext a (by simp)).trans hax, (hprev x (by simp)).trans hxa, ih hrest ?_ ?_⟩
    · exact fun y hy => hnext y (mem_cons_of_mem _ hy)
    · exact fun y hy => hprev y (mem_cons_of_mem _ hy)

theorem segment_append : l.Segment a (xs ++ n :: ys) b ↔ l.Segment a xs n ∧ l.Segment n ys b := by
  induction xs generalizing a with
  | nil => simp [Segment, and_assoc]
  | cons x xs ih => simp [Segment, ih, and_assoc]

theorem Segment.prev_mem (hs : l.Segment a xs b) : l.prev b ∈ a :: xs := by
  induction xs generalizing a with
  | nil => simp [hs.2]
  | cons x xs ih => exact mem_cons_of_mem _ (ih hs.2.2)

theorem Segment.next_eq (hs : l.Segment a xs b) : l.next a = xs.head?.getD b := by
  cases xs with
  | nil => exact hs.1
  | cons x xs => exact hs.1

theorem Segment.retarget (hs : l.Segment a xs b) (hnodup : (a :: xs).Nodup) (hlast : l'.next (l.prev b) = n)
    (hback : l'.prev n = l.prev b) (hnext : ∀ x ∈ a :: xs, x ≠ l.prev b → l'.next x = l.next x)
    (hprev : ∀ x ∈ xs, l'.prev x = l.prev x) : l'.Segment a xs n := by
  induction xs generalizing a with
  | nil =>
    rw [hs.2] at hlast hback
    exact ⟨hlast, hback⟩
  | cons x xs ih =>
    obtain ⟨hax, hxa, hrest⟩ := hs
    obtain ⟨hnot, htail⟩ := nodup_cons.mp hnodup
    have hne : a ≠ l.prev b := fun heq => hnot (heq ▸ hrest.prev_mem)
    refine ⟨(hnext a (by simp) hne).trans hax, (hprev x (by simp)).trans hxa, ih hrest htail ?_ ?_⟩
    · exact fun y hy => hnext y (mem_cons_of_mem _ hy)
    · exact fun y hy => hprev y (mem_cons_of_mem _ hy)

def flip (l : Links α) : Links α := ⟨l.prev, l.next, l.inList⟩

theorem Segment.flip (hs : l.Segment a xs b) : l.flip.Segment b xs.reverse a := by
  induction xs generalizing a with
  | nil => exact hs.symm
  | cons x xs ih =>
    rw [reverse_cons]
    exact segment_append.mpr ⟨ih hs.2.2, hs.2.1, hs.1⟩

/-- The list of head `h` holds the nodes `xs`. -/
structure Ring (l : Links α) (h : α) (xs : List α) : Prop where
  segment : l.Segment h xs h
  nodup : (h :: xs).Nodup
  inList : ∀ x ∈ xs, l.inList x = true

theorem Ring.next_eq (hr : l.Ring h xs) : l.next h = xs.head?.getD h := hr.segment.next_eq

theorem Ring.flip (hr : l.Ring h xs) : l.flip.Ring h xs.reverse :=
  ⟨hr.segment.flip, ((reverse_perm xs).cons h).nodup_iff.mpr hr.nodup, fun x hx => hr.inList x (mem_reverse.mp hx)⟩

def SameAt (l l' : Links α) (x : α) : Prop :=
  l'.next x = l.next x ∧ l'.prev x = l.prev x ∧ l'.inList x = l.inList x

theorem SameAt.trans {l'' : Links α} (h : l.SameAt l' x) (h' : l'.SameAt l'' x) : l.SameAt l'' x :=
  ⟨h'.1.trans h.1, h'.2.1.trans h.2.1, h'.2.2.trans h.2.2⟩

theorem Ring.congr (hr : l.Ring h xs) (hsame : ∀ x ∈ h :: xs, l.SameAt l' x) : l'.Ring h xs := by
  refine ⟨hr.segment.congr (fun x hx => (hsame x hx).1) fun x hx => (hsame x ?_).2.1, hr.nodup, fun x hx => ?_⟩
  · rwa [mem_append, mem_singleton, or_comm, ← mem_cons] at hx
  · rw [(hsame x (mem_cons_of_mem _ hx)).2.2, hr.inList x hx]

theorem Ring.split (hr : l.Ring h (xs ++ n :: ys)) : l.Segment h xs n ∧ l.Segment n ys h :=
  segment_append.mp hr.segment

theorem Ring.prev_mem (hr : l.Ring h xs) (hx : x ∈ h :: xs) : l.prev x ∈ h :: xs := by
  rcases mem_cons.mp hx with rfl | hx
  · exact hr.segment.prev_mem
  · obtain ⟨before, after, rfl⟩ := append_of_mem hx
    exact cons_subset_cons h (subset_append_left _ _) hr.split.1.prev_mem

theorem Ring.next_mem (hr : l.Ring h xs) (hx : x ∈ h :: xs) : l.next x ∈ h :: xs := by
  have hmem : l.next x ∈ h :: xs.reverse := hr.flip.prev_mem (by simpa using hx)
  simpa using hmem

theorem head?_getD_mem (h : α) (xs : List α) : xs.head?.getD h ∈ h :: xs := by
  cases xs <;> simp

/-- The nodes of the list form a circle in this order. -/
def Circle (l : Links α) : List α → Prop
  | [] => True
  | x :: xs => l.Segment x xs x ∧ (x :: xs).Nodup

theorem Circle.rotate (hc : l.Circle (xs ++ ys)) : l.Circle (ys ++ xs) := by
  cases xs with
  | nil => simpa using hc
  | cons x xs =>
    cases ys with
    | nil => simpa using hc
    | cons y ys =>
      obtain ⟨hs, hnodup⟩ := hc
      have hperm : ((x :: xs) ++ (y :: ys)).Perm ((y :: ys) ++ (x :: xs)) := perm_append_comm
      exact ⟨segment_append.mpr (segment_append.mp hs).symm, hperm.nodup_iff.mp hnodup⟩

theorem Ring.circle (hr : l.Ring h xs) : l.Circle (h :: xs) := ⟨hr.segment, hr.nodup⟩

/-- From `a` over `xs` to `h`, whose own pointers are left out. -/
def Ahead (l : Links α) (h : α) : α → List α → Prop
  | a, [] => l.next a = h
  | a, x :: xs => l.next a = x ∧ l.prev x = a ∧ l.Ahead h x xs

/-- The nodes that a walk over the list of head `h` has still to take out. -/
def Unvisited (l : Links α) (h : α) : List α → Prop
  | [] => l.next h = h ∧ l.prev h = h
  | x :: xs => l.prev x = h ∧ l.Ahead h x xs

theorem Segment.ahead (hs : l.Segment a xs h) : l.Ahead h a xs := by
  induction xs generalizing a with
  | nil => exact hs.1
  | cons x xs ih => exact ⟨hs.1, hs.2.1, ih hs.2.2⟩

theorem Ahead.congr (hs : l.Ahead h a xs) (hnext : ∀ x ∈ a :: xs, l'.next x = l.next x)
    (hprev : ∀ x ∈ xs, l'.prev x = l.prev x) : l'.Ahead h a xs := by
  induction xs generalizing a with
  | nil => exact (hnext a (by simp)).trans hs
  | cons x xs ih =>
    obtain ⟨hax, hxa, hrest⟩ := hs
    refine ⟨(hnext a (by simp)).trans hax, (hprev x (by simp)).trans hxa, ih hrest ?_ ?_⟩
    · exact fun y hy => hnext y (mem_cons_of_mem _ hy)
    · exact fun y hy => hprev y (mem_cons_of_mem _ hy)

theorem Unvisited.next_eq (hu : l.Unvisited h (x :: xs)) : l.next x = xs.head?.getD h := by
  cases xs with
  | nil => exact hu.2
  | cons y ys => exact hu.2.1

theorem Unvisited.ring (hu : l.Unvisited h []) : l.Ring h [] :=
  ⟨hu, nodup_singleton h, by simp⟩

variable [DecidableEq α]

def setNext (l : Links α) (node target : α) : Links α :=
  { l with next := Function.update l.next node target }

def setPrev (l : Links α) (node target : α) : Links α :=
  { l with prev := Function.update l.prev node target }

def mark (l : Links α) (node : α) (b : Bool) : Links α :=
  { l with inList := Function.update l.inList node b }

def initNode (l : Links α) (node : α) : Links α :=
  ((l.setPrev node node).setNext node node).mark node false

def insertBefore (l : Links α) (pos node : α) : Links α :=
  if l.inList node then l
  else
    let l := l.setNext node pos
    let l := l.setPrev node (l.prev pos)
    let l := l.setNext (l.prev pos) node
    let l := l.setPrev pos node
    l.mark node true

def insertAfter (l : Links α) (pos node : α) : Links α :=
  if l.inList node then l
  else
    let l := l.setNext node (l.next pos)
    let l := l.setPrev (l.next pos) node
    let l := l.setPrev node pos
    let l := l.setNext pos node
    l.mark node true

def remove (l : Links α) (node : α) : Links α :=
  if l.inList node then
    let l := l.setNext (l.prev node) (l.next node)
    let l := l.setPrev (l.next node) (l.prev node)
    l.initNode node
  else l

theorem initNode_next (l : Links α) (n x : α) : (l.initNode n).next x = if x = n then n else l.next x := by
  simp [initNode, setNext, setPrev, mark, update_apply]

theorem initNode_prev (l : Links α) (n x : α) : (l.initNode n).prev x = if x = n then n else l.prev x := by
  simp [initNode, setNext, setPrev, mark, update_apply]

theorem initNode_inList (l : Links α) (n x : α) :
    (l.initNode n).inList x = if x = n then false else l.inList x := by
  simp [initNode, setNext, setPrev, mark, update_apply]

section

variable (hout : l.inList n = false) (hne : h ≠ n)

include hout

theorem insertBefore_eq : l.insertBefore h n =
    ((((l.setNext n h).setPrev n (l.prev h)).setNext
      (((l.setNext n h).setPrev n (l.prev h)).prev h) n).setPrev h n).mark n true := by
  rw [insertBefore, hout]
  rfl

theorem insertBefore_inList (x : α) :
    (l.insertBefore h n).inList x = if x = n then true else l.inList x := by
  simp [insertBefore_eq hout, setNext, setPrev, mark, update_apply]

theorem insertBefore_prev (x : α) :
    (l.insertBefore h n).prev x = if x = h then n else if x = n then l.prev h else l.prev x := by
  simp [insertBefore_eq hout, setNext, setPrev, mark, update_apply]

include hne

theorem insertBefore_next (x : α) :
    (l.insertBefore h n).next x = if x = l.prev h then n else if x = n then h else l.next x := by
  simp [insertBefore_eq hout, setNext, setPrev, mark, update_apply, hne]

theorem insertAfter_eq (hnext : l.next h ≠ n) : l.insertAfter h n = (l.flip.insertBefore h n).flip := by
  have hprev : ∀ x, (l.insertAfter h n).prev x =
      if x = l.next h then n else if x = n then h else l.prev x := by
    intro x
    by_cases hx : x = n
    · simp [insertAfter, hout, setNext, setPrev, mark, update_apply, hx, hnext.symm]
    · simp [insertAfter, hout, setNext, setPrev, mark, update_apply, hx, hne]
  have hnext' : ∀ x, (l.insertAfter h n).next x = if x = h then n else if x = n then l.next h else l.next x := by
    simp [insertAfter, hout, setNext, setPrev, mark, update_apply, hne]
  rw [flip, Links.mk.injEq]
  refine ⟨funext fun x => ?_, funext fun x => ?_, funext fun x => ?_⟩
  · exact (hnext' x).trans (insertBefore_prev (l := l.flip) hout x).symm
  · exact (hprev x).trans (insertBefore_next (l := l.flip) hout hne x).symm
  · rw [insertBefore_inList (l := l.flip) hout]
    simp [insertAfter, hout, setNext, setPrev, mark, update_apply, flip]

end

section

variable (hin : l.inList n = true)

include hin

theorem remove_inList (x : α) : (l.remove n).inList x = if x = n then false else l.inList x := by
  simp [remove, hin, initNode_inList, setNext, setPrev]

theorem remove_next (x : α) :
    (l.remove n).next x = if x = n then n else if x = l.prev n then l.next n else l.next x := by
  simp [remove, hin, initNode_next, setNext, setPrev, update_apply]

theorem remove_prev (hprev : l.prev n ≠ n) (x : α) :
    (l.remove n).prev x = if x = n then n else if x = l.next n then l.prev n else l.prev x := by
  have hself : n ≠ l.prev n := hprev.symm
  simp [remove, hin, initNode_prev, setNext, setPrev, update_apply, hself]

end

theorem remove_sameAt (hin : l.inList n = true) (hself : l.prev n ≠ n) (hn : x ≠ n)
    (hprev : x ≠ l.prev n) (hnext : x ≠ l.next n) : l.SameAt (l.remove n) x :=
  ⟨by rw [remove_next hin, if_neg hn, if_neg hprev], by rw [remove_prev hin hself, if_neg hn, if_neg hnext],
    by rw [remove_inList hin, if_neg hn]⟩

theorem remove_remove (l : Links α) (n : α) : (l.remove n).remove n = l.remove n := by
  have hout : (l.remove n).inList n = false := by
    by_cases hin : l.inList n = true
    · rw [remove_inList hin, if_pos rfl]
    · rw [remove, if_neg hin]
      exact Bool.eq_false_iff.mpr hin
  rw [remove, if_neg (by simp [hout])]

theorem Circle.insertBefore (hc : l.Circle (h :: xs)) (hn : n ∉ h :: xs) (hout : l.inList n = false) :
    (l.insertBefore h n).Circle (h :: (xs ++ [n])) := by
  obtain ⟨hs, hnodup⟩ := hc
  have hne : h ≠ n := fun heq => hn (heq ▸ mem_cons_self)
  have hlast : l.prev h ≠ n := fun heq => hn (heq ▸ hs.prev_mem)
  have hnot : h ∉ xs := (nodup_cons.mp hnodup).1
  refine ⟨segment_append.mpr ⟨hs.retarget hnodup ?_ ?_ ?_ ?_, ?_, ?_⟩, ?_⟩
  · rw [insertBefore_next hout hne, if_pos rfl]
  · rw [insertBefore_prev hout, if_neg hne.symm, if_pos rfl]
  · intro x hx hx'
    have hxn : x ≠ n := ne_of_mem_of_not_mem hx hn
    rw [insertBefore_next hout hne, if_neg hx', if_neg hxn]
  · intro x hx
    have hxh : x ≠ h := ne_of_mem_of_not_mem hx hnot
    have hxn : x ≠ n := ne_of_mem_of_not_mem (mem_cons_of_mem _ hx) hn
    rw [insertBefore_prev hout, if_neg hxh, if_neg hxn]
  · rw [insertBefore_next hout hne, if_neg hlast.symm, if_pos rfl]
  · rw [insertBefore_prev hout, if_pos rfl]
  · have hperm : (h :: (xs ++ [n])).Perm (n :: h :: xs) :=
      (perm_append_singleton n xs).cons h |>.trans (Perm.swap n h xs)
    exact hperm.nodup_iff.mpr (nodup_cons.mpr ⟨hn, hnodup⟩)

theorem Circle.remove (hc : l.Circle (n :: xs)) (hxs : xs ≠ []) (hin : l.inList n = true) :
    (l.remove n).Circle xs := by
  obtain ⟨x, xs, rfl⟩ := exists_cons_of_ne_nil hxs
  obtain ⟨⟨hnext, -, hs⟩, hnodup⟩ := hc
  obtain ⟨hn, hnodup⟩ := nodup_cons.mp hnodup
  have hmem : l.prev n ∈ x :: xs := hs.prev_mem
  have hprev : l.prev n ≠ n := ne_of_mem_of_not_mem hmem hn
  have hxn : x ≠ n := ne_of_mem_of_not_mem mem_cons_self hn
  -- the node before `n` is linked with the one after it
  refine ⟨hs.retarget hnodup ?_ ?_ ?_ ?_, hnodup⟩
  · rw [remove_next hin, if_neg hprev, if_pos rfl, hnext]
  · rw [remove_prev hin hprev, if_neg hxn, hnext, if_pos rfl]
  · intro y hy hy'
    rw [remove_next hin, if_neg (ne_of_mem_of_not_mem hy hn), if_neg hy']
  · intro y hy
    have hyx : y ≠ x := ne_of_mem_of_not_mem hy (nodup_cons.mp hnodup).1
    have hyn : y ≠ n := ne_of_mem_of_not_mem (mem_cons_of_mem _ hy) hn
    rw [remove_prev hin hprev, if_neg hyn, hnext, if_neg hyx]

theorem Ring.insertBefore (hr : l.Ring h (xs ++ ys)) (hn : n ∉ h :: (xs ++ ys)) (hout : l.inList n = false) :
    (l.insertBefore (ys.head?.getD h) n).Ring h (xs ++ n :: ys) := by
  have hcircle : (l.insertBefore (ys.head?.getD h) n).Circle (h :: (xs ++ n :: ys)) := by
    cases ys with
    | nil => simpa using hr.circle.insertBefore hn hout
    | cons y ys =>
      have hc : l.Circle ((h :: xs) ++ (y :: ys)) := hr.circle
      have hn' : n ∉ y :: (ys ++ h :: xs) := fun hmem => hn (by simp at hmem ⊢; tauto)
      have hnew : (l.insertBefore y n).Circle ((y :: ys) ++ (h :: (xs ++ [n]))) := by
        simpa using hc.rotate.insertBefore hn' hout
      simpa using hnew.rotate
  refine ⟨hcircle.1, hcircle.2, fun x hx => ?_⟩
  rw [insertBefore_inList hout]
  split_ifs with hxn
  · rfl
  · exact hr.inList x (by simpa [hxn] using hx)

theorem Ring.remove (hr : l.Ring h (xs ++ n :: ys)) : (l.remove n).Ring h (xs ++ ys) := by
  have hin : l.inList n = true := hr.inList n (by simp)
  have hc : l.Circle ((h :: xs) ++ (n :: ys)) := hr.circle
  have hnew : (l.remove n).Circle ((h :: xs) ++ ys) :=
    (hc.rotate.remove (by simp) hin).rotate
  refine ⟨hnew.1, hnew.2, fun x hx => ?_⟩
  have hn : n ∉ xs ++ ys := by
    have hnodup := (perm_middle.nodup_iff.mp (nodup_cons.mp hr.nodup).2)
    exact (nodup_cons.mp hnodup).1
  rw [remove_inList hin, if_neg (ne_of_mem_of_not_mem hx hn)]
  exact hr.inList x (by rcases mem_append.mp hx with hx | hx <;> simp [hx])

theorem Ring.initNode (hr : l.Ring h xs) : (l.initNode h).Unvisited h xs := by
  have hnot := (nodup_cons.mp hr.nodup).1
  cases xs with
  | nil => exact ⟨by simp [initNode_next], by simp [initNode_prev]⟩
  | cons y ys =>
    obtain ⟨-, hy, hrest⟩ := hr.segment
    have hne : ∀ x ∈ y :: ys, x ≠ h := fun x hx => ne_of_mem_of_not_mem hx hnot
    refine ⟨?_, hrest.ahead.congr (fun x hx => ?_) fun x hx => ?_⟩
    · rw [initNode_prev, if_neg (hne y mem_cons_self), hy]
    · rw [initNode_next, if_neg (hne x hx)]
    · rw [initNode_prev, if_neg (hne x (mem_cons_of_mem _ hx))]

theorem Unvisited.remove (hu : l.Unvisited h (x :: xs)) (hnodup : (h :: x :: xs).Nodup)
    (hin : l.inList x = true) : (l.remove x).Unvisited h xs := by
  obtain ⟨hprev, hahead⟩ := hu
  obtain ⟨hnot, hnodup'⟩ := nodup_cons.mp hnodup
  have hxh : l.prev x ≠ x := fun heq => hnot (by simp [← hprev, heq])
  have hhx : h ≠ x := hprev ▸ hxh
  cases xs with
  | nil =>
    have hnext : l.next x = h := hahead
    refine ⟨?_, ?_⟩
    · rw [remove_next hin, if_neg hhx, hprev, if_pos rfl, hnext]
    · rw [remove_prev hin hxh, if_neg hhx, hnext, if_pos rfl, hprev]
  | cons y ys =>
    obtain ⟨hnext, -, hrest⟩ := hahead
    obtain ⟨hxnot, hys⟩ := nodup_cons.mp hnodup'
    have hne : ∀ z ∈ y :: ys, z ≠ x ∧ z ≠ h := fun z hz =>
      ⟨ne_of_mem_of_not_mem hz hxnot, ne_of_mem_of_not_mem (mem_cons_of_mem _ hz) hnot⟩
    refine ⟨?_, hrest.congr (fun z hz => ?_) fun z hz => ?_⟩
    · rw [remove_prev hin hxh, if_neg (hne y mem_cons_self).1, hnext, if_pos rfl, hprev]
    · rw [remove_next hin, if_neg (hne z hz).1, hprev, if_neg (hne z hz).2]
    · have hzy : z ≠ y := ne_of_mem_of_not_mem hz (nodup_cons.mp hys).1
      rw [remove_prev hin hxh, if_neg (hne z (mem_cons_of_mem _ hz)).1, hnext, if_neg hzy]

end Links

end RvMiniOs.Lib
