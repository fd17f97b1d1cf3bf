import RvMiniOs.Lib.Words
import RvMiniOs.Lib.Runs

/-!
# Physical memory and the page allocator

Physical memory is addressed by page number and by 64-bit word inside the page:
page tables are read word by word, user data byte by byte. The allocator keeps
one 8-bit reference counter per page and a last-in first-out free list, whose
nodes lie inside the free pages. `pageAllocNode` and `pagePutNode` make all the
stores of the list; `pageAlloc` and `pagePut` leave them out and differ in the
contents of free pages only (`SameUsed`).

A function that may reach `panic` returns `none` there.
-/

namespace RvMiniOs.Memory

open Lib List

abbrev pageShift : ℕ := 12
abbrev pageSize : ℕ := 4096
abbrev wordsPerPage : ℕ := 512

structure Kmem where
  mem : ℕ → ℕ → ℕ
  pageRc : ℕ → ℕ
  freePages : List ℕ

namespace Kmem

def setWord (s : Kmem) (p i w : ℕ) : Kmem :=
  { s with mem := Function.update s.mem p (Function.update (s.mem p) i w) }

@[simp] theorem setWord_freePages (s : Kmem) (p i w : ℕ) :
    (s.setWord p i w).freePages = s.freePages := rfl

@[simp] theorem setWord_mem_self (s : Kmem) (p i w : ℕ) : (s.setWord p i w).mem p i = w := by
  simp [setWord]

theorem setWord_mem_page_ne {s : Kmem} {p q : ℕ} (i w : ℕ) (h : q ≠ p) :
    (s.setWord p i w).mem q = s.mem q := by
  simp [setWord, h]

theorem setWord_mem_idx_ne {s : Kmem} {i j : ℕ} (p w : ℕ) (h : j ≠ i) (q : ℕ) :
    (s.setWord p i w).mem q j = s.mem q j := by
  by_cases hq : q = p
  · subst q
    simp [setWord, h]
  · rw [setWord_mem_page_ne i w hq]

theorem setWord_mem (s : Kmem) (p i w q j : ℕ) :
    (s.setWord p i w).mem q j = if q = p ∧ j = i then w else s.mem q j := by
  by_cases hq : q = p
  · by_cases hj : j = i
    · subst q j
      simp
    · simp [setWord_mem_idx_ne p w hj, hj]
  · simp [setWord_mem_page_ne i w hq, hq]

def readByte (s : Kmem) (a : ℕ) : UInt8 :=
  getByte (s.mem (a / pageSize) (a % pageSize / 8)) (a % 8)

def writeByte (s : Kmem) (a : ℕ) (b : UInt8) : Kmem :=
  s.setWord (a / pageSize) (a % pageSize / 8)
    (setByte (s.mem (a / pageSize) (a % pageSize / 8)) (a % 8) b)

@[simp] theorem readByte_writeByte_self (s : Kmem) (a : ℕ) (b : UInt8) :
    (s.writeByte a b).readByte a = b := by
  simp [readByte, writeByte]

theorem readByte_writeByte_ne {s : Kmem} {a c : ℕ} (b : UInt8) (h : c ≠ a) :
    (s.writeByte a b).readByte c = s.readByte c := by
  unfold readByte writeByte
  rw [setWord_mem]
  split_ifs with hword
  · obtain ⟨hpage, hidx⟩ := hword
    have hbyte : c % 8 ≠ a % 8 := by simp only [pageSize] at hpage hidx; omega
    rw [getByte_setByte_ne b hbyte, hpage, hidx]
  · rfl

theorem writeByte_mem_page_ne {s : Kmem} {a p : ℕ} (b : UInt8) (h : p ≠ a / pageSize) :
    (s.writeByte a b).mem p = s.mem p :=
  setWord_mem_page_ne _ _ h

def memcpyTo (s : Kmem) (a : ℕ) : List UInt8 → Kmem
  | [] => s
  | b :: bs => memcpyTo (s.writeByte a b) (a + 1) bs

def memcpyFrom (s : Kmem) (a : ℕ) : ℕ → List UInt8
  | 0 => []
  | n + 1 => s.readByte a :: memcpyFrom s (a + 1) n

@[simp] theorem length_memcpyFrom (s : Kmem) (a n : ℕ) : (s.memcpyFrom a n).length = n := by
  induction n generalizing a with
  | zero => rfl
  | succ n ih => simp [memcpyFrom, ih]

theorem getElem?_memcpyFrom {s : Kmem} {a n k : ℕ} (hk : k < n) :
    (s.memcpyFrom a n)[k]? = some (s.readByte (a + k)) := by
  induction n generalizing a k with
  | zero => omega
  | succ n ih =>
    cases k with
    | zero => simp [memcpyFrom]
    | succ k =>
      rw [memcpyFrom, getElem?_cons_succ, ih (by omega)]
      congr 2
      omega

@[simp] theorem memcpyTo_pageRc (s : Kmem) (a : ℕ) (bs : List UInt8) :
    (s.memcpyTo a bs).pageRc = s.pageRc := by
  induction bs generalizing s a with
  | nil => rfl
  | cons b bs ih => exact ih (s.writeByte a b) (a + 1)

@[simp] theorem memcpyTo_freePages (s : Kmem) (a : ℕ) (bs : List UInt8) :
    (s.memcpyTo a bs).freePages = s.freePages := by
  induction bs generalizing s a with
  | nil => rfl
  | cons b bs ih => exact ih (s.writeByte a b) (a + 1)

theorem memcpyTo_mem_page_ne {s : Kmem} {a p : ℕ} {bs : List UInt8}
    (h : ∀ k < bs.length, p ≠ (a + k) / pageSize) : (s.memcpyTo a bs).mem p = s.mem p := by
  induction bs generalizing s a with
  | nil => rfl
  | cons b bs ih =>
    have hfirst : p ≠ a / pageSize := h 0 (by simp)
    rw [memcpyTo, ih, writeByte_mem_page_ne b hfirst]
    intro k hk
    rw [show a + 1 + k = a + (k + 1) by omega]
    exact h (k + 1) (by simpa using hk)

theorem readByte_memcpyTo_outside {s : Kmem} {a c : ℕ} {bs : List UInt8}
    (h : c < a ∨ a + bs.length ≤ c) : (s.memcpyTo a bs).readByte c = s.readByte c := by
  induction bs generalizing s a with
  | nil => rfl
  | cons b bs ih =>
    simp only [length_cons] at h
    rw [memcpyTo, ih (by omega), readByte_writeByte_ne b (by omega)]

theorem readByte_memcpyTo_inside {s : Kmem} {a k : ℕ} {bs : List UInt8} (hk : k < bs.length) :
    (s.memcpyTo a bs).readByte (a + k) = bs[k] := by
  induction bs generalizing s a k with
  | nil => simp at hk
  | cons b bs ih =>
    cases k with
    | zero =>
      rw [memcpyTo, readByte_memcpyTo_outside (by omega)]
      simp
    | succ k =>
      simp only [length_cons, Nat.add_lt_add_iff_right] at hk
      rw [memcpyTo, show a + (k + 1) = a + 1 + k by omega, ih hk, getElem_cons_succ]

end Kmem

def pageGet (s : Kmem) (p : ℕ) : Kmem :=
  { s with pageRc := Function.update s.pageRc p ((s.pageRc p + 1) % 256) }

def pageAlloc (s : Kmem) : Option (ℕ × Kmem) :=
  match s.freePages with
  | [] => none
  | p :: rest =>
    some (p, pageGet { s with mem := Function.update s.mem p (fun _ => 0), freePages := rest } p)

def pagePut (s : Kmem) (p : ℕ) : Option Kmem :=
  if s.pageRc p = 0 then none
  else
    let s' := { s with pageRc := Function.update s.pageRc p (s.pageRc p - 1) }
    if s.pageRc p - 1 = 0 then some { s' with freePages := p :: s'.freePages } else some s'

def pageCopy (s : Kmem) (dst src : ℕ) : Kmem :=
  { s with mem := Function.update s.mem dst (s.mem src) }

def initNode (s : Kmem) (p : ℕ) : Kmem :=
  let s := (s.setWord p 0 (p * pageSize)).setWord p 1 (p * pageSize)
  s.setWord p 2 (setByte (s.mem p 2) 0 0)

def pushFree (head : ℕ) (s : Kmem) (p : ℕ) : Kmem :=
  let s := initNode s p
  let s := s.setWord p 0 (s.freePages.head?.elim head (· * pageSize))
  -- `pos->next->prev` is in the page that was first, or in the sentinel
  let s := s.freePages.head?.elim s fun q => s.setWord q 1 (p * pageSize)
  let s := s.setWord p 1 head
  let s := s.setWord p 2 (setByte (s.mem p 2) 0 1)
  { s with freePages := p :: s.freePages }

def popFree (s : Kmem) : Option (ℕ × Kmem) :=
  match s.freePages with
  | [] => none
  | p :: rest =>
    if getByte (s.mem p 2) 0 = 0 then some (p, s)
    else
      -- `node->prev->next` is in the sentinel
      let s := rest.head?.elim s fun q => s.setWord q 1 (s.mem p 1)
      some (p, { initNode s p with freePages := rest })

def pageAllocNode (s : Kmem) : Option (ℕ × Kmem) :=
  (popFree s).map fun (p, s) => (p, pageGet { s with mem := Function.update s.mem p (fun _ => 0) } p)

def pagePutNode (head : ℕ) (s : Kmem) (p : ℕ) : Option Kmem :=
  if s.pageRc p = 0 then none
  else
    let s' := { s with pageRc := Function.update s.pageRc p (s.pageRc p - 1) }
    if s.pageRc p - 1 = 0 then some (pushFree head s' p) else some s'

def pageInit (head : ℕ) (mem : ℕ → ℕ → ℕ) (first last : ℕ) : Kmem :=
  (range' first (last - first)).foldl (pushFree head) ⟨mem, fun _ => 0, []⟩

open Function (update)

def Linked (head : ℕ) (mem : ℕ → ℕ → ℕ) : ℕ → List ℕ → Prop
  | _, [] => True
  | prev, p :: rest =>
    mem p 0 = rest.head?.elim head (· * pageSize) ∧ mem p 1 = prev ∧ getByte (mem p 2) 0 = 1 ∧
      Linked head mem (p * pageSize) rest

structure SameUsed (s r : Kmem) : Prop where
  pageRc : r.pageRc = s.pageRc
  freePages : r.freePages = s.freePages
  mem : ∀ q, q ∉ s.freePages → r.mem q = s.mem q

section Nodes

variable {s s' r : Kmem} {p q head prev : ℕ} {rest : List ℕ}

theorem Linked.congr {mem mem' : ℕ → ℕ → ℕ} {l : List ℕ} (h : Linked head mem prev l)
    (heq : ∀ q ∈ l, mem' q = mem q) : Linked head mem' prev l := by
  induction l generalizing prev with
  | nil => trivial
  | cons p rest ih =>
    obtain ⟨hnext, hprev, hin, hrest⟩ := h
    have hp := heq p mem_cons_self
    exact ⟨by rw [hp, hnext], by rw [hp, hprev], by rw [hp, hin],
      ih hrest fun q hq => heq q (mem_cons_of_mem p hq)⟩

theorem Linked.setPrev (h : Linked head s.mem prev (q :: rest)) (hnodup : (q :: rest).Nodup) (w : ℕ) :
    Linked head (s.setWord q 1 w).mem w (q :: rest) := by
  obtain ⟨hnext, -, hin, hrest⟩ := h
  refine ⟨?_, Kmem.setWord_mem_self s q 1 w, ?_, hrest.congr fun p hp => ?_⟩
  · rw [Kmem.setWord_mem_idx_ne q w (by decide), hnext]
  · rw [Kmem.setWord_mem_idx_ne q w (by decide), hin]
  · exact Kmem.setWord_mem_page_ne 1 w (ne_of_mem_of_not_mem hp (nodup_cons.mp hnodup).1)

theorem initNode_counts (s : Kmem) (p : ℕ) :
    (initNode s p).pageRc = s.pageRc ∧ (initNode s p).freePages = s.freePages := ⟨rfl, rfl⟩

theorem initNode_mem (s : Kmem) (h : q ≠ p) : (initNode s p).mem q = s.mem q := by
  simp only [initNode, Kmem.setWord_mem_page_ne _ _ h]

theorem pushFree_counts (head : ℕ) (s : Kmem) (p : ℕ) :
    (pushFree head s p).pageRc = s.pageRc ∧ (pushFree head s p).freePages = p :: s.freePages := by
  unfold pushFree
  dsimp only [Kmem.setWord_freePages, initNode]
  cases s.freePages.head? <;> exact ⟨rfl, rfl⟩

theorem pushFree_mem (head : ℕ) (s : Kmem) (p : ℕ) (hq : q ∉ p :: s.freePages) :
    (pushFree head s p).mem q = s.mem q := by
  obtain ⟨hne, hused⟩ := not_or.mp (mem_cons.not.mp hq)
  unfold pushFree
  dsimp only [Kmem.setWord_freePages, (initNode_counts s p).2]
  rw [Kmem.setWord_mem_page_ne _ _ hne, Kmem.setWord_mem_page_ne _ _ hne]
  cases hfirst : (initNode s p).freePages.head? with
  | none =>
    dsimp only [Option.elim_none]
    rw [Kmem.setWord_mem_page_ne _ _ hne, initNode_mem s hne]
  | some q' =>
    have hne' : q ≠ q' := fun heq => hused (heq ▸ mem_of_head? hfirst)
    dsimp only [Option.elim_some]
    rw [Kmem.setWord_mem_page_ne _ _ hne', Kmem.setWord_mem_page_ne _ _ hne, initNode_mem s hne]

theorem Linked.push (h : Linked head s.mem head s.freePages) (hp : p ∉ s.freePages)
    (hnodup : s.freePages.Nodup) : Linked head (pushFree head s p).mem head (p :: s.freePages) := by
  unfold pushFree
  dsimp only [Kmem.setWord_freePages, (initNode_counts s p).2]
  generalize hs₁ : (initNode s p).setWord p 0 ((initNode s p).freePages.head?.elim head (· * pageSize)) = s₁
  have hlinked : Linked head s₁.mem head s.freePages := h.congr fun q hq => by
    have hne : q ≠ p := ne_of_mem_of_not_mem hq hp
    rw [← hs₁, Kmem.setWord_mem_page_ne _ _ hne, initNode_mem s hne]
  have hnext : s₁.mem p 0 = s.freePages.head?.elim head (· * pageSize) := by
    rw [← hs₁, Kmem.setWord_mem_self]
    rfl
  generalize hs₂ : (initNode s p).freePages.head?.elim s₁ (fun q => s₁.setWord q 1 (p * pageSize)) = s₂
  -- the node that was first now points back to the page
  obtain ⟨hback, hsame⟩ : Linked head s₂.mem (p * pageSize) s.freePages ∧ s₂.mem p = s₁.mem p := by
    rw [← hs₂, (initNode_counts s p).2]
    cases hfree : s.freePages with
    | nil => exact ⟨trivial, rfl⟩
    | cons q rest =>
      rw [hfree] at hlinked hnodup hp
      exact ⟨hlinked.setPrev hnodup _, Kmem.setWord_mem_page_ne 1 _ fun heq => hp (heq ▸ mem_cons_self)⟩
  refine ⟨?_, ?_, ?_, hback.congr fun q hq => ?_⟩
  · rw [Kmem.setWord_mem_idx_ne _ _ (by decide), Kmem.setWord_mem_idx_ne _ _ (by decide), hsame, hnext]
  · rw [Kmem.setWord_mem_idx_ne _ _ (by decide), Kmem.setWord_mem_self]
  · rw [Kmem.setWord_mem_self, getByte_setByte_self]
  · have hne : q ≠ p := ne_of_mem_of_not_mem hq hp
    rw [Kmem.setWord_mem_page_ne _ _ hne, Kmem.setWord_mem_page_ne _ _ hne]

theorem popFree_cons (hfree : s.freePages = p :: rest) (h : Linked head s.mem head (p :: rest))
    (hnodup : (p :: rest).Nodup) : ∃ t, popFree s = some (p, t) ∧ t.freePages = rest ∧ t.pageRc = s.pageRc ∧
    (∀ q, q ∉ p :: rest → t.mem q = s.mem q) ∧ Linked head t.mem head rest := by
  obtain ⟨-, hprev, hin, hrest⟩ := h
  have hused : ¬ getByte (s.mem p 2) 0 = 0 := by
    rw [hin]
    decide
  simp only [popFree, hfree, if_neg hused]
  obtain ⟨hout, hnodup'⟩ := nodup_cons.mp hnodup
  cases rest with
  | nil =>
    refine ⟨_, rfl, rfl, rfl, fun q hq => ?_, trivial⟩
    exact initNode_mem s fun heq => hq (heq ▸ mem_cons_self)
  | cons q₁ rest =>
    refine ⟨_, rfl, rfl, rfl, fun q hq => ?_, ?_⟩
    · obtain ⟨hne, hne'⟩ := not_or.mp (mem_cons.not.mp hq)
      refine (initNode_mem _ hne).trans (Kmem.setWord_mem_page_ne 1 _ ?_)
      exact fun heq => hne' (heq ▸ mem_cons_self)
    · -- the second node becomes the first one
      have hback := hrest.setPrev hnodup' (s.mem p 1)
      rw [hprev] at hback ⊢
      exact hback.congr fun q hq => initNode_mem _ (ne_of_mem_of_not_mem hq hout)

theorem pageAllocNode_cons (hfree : s.freePages = p :: rest) (h : Linked head s.mem head (p :: rest))
    (hnodup : (p :: rest).Nodup) : ∃ t, pageAllocNode s = some (p, t) ∧ t.freePages = rest ∧
    t.pageRc = update s.pageRc p ((s.pageRc p + 1) % 256) ∧ t.mem p = (fun _ => 0) ∧
    (∀ q, q ∉ p :: rest → t.mem q = s.mem q) ∧ Linked head t.mem head rest := by
  obtain ⟨t, hpop, hrest, hcount, hmem, hlinked⟩ := popFree_cons hfree h hnodup
  have hout := (nodup_cons.mp hnodup).1
  have halloc : pageAllocNode s =
      some (p, pageGet { t with mem := update t.mem p (fun _ => 0) } p) := by
    rw [pageAllocNode, hpop]
    rfl
  refine ⟨_, halloc, hrest, ?_, Function.update_self .., fun q hq => ?_, hlinked.congr fun q hq => ?_⟩
  · rw [← hcount]
    rfl
  · have hne : q ≠ p := fun heq => hq (heq ▸ mem_cons_self)
    exact (Function.update_of_ne hne _ _).trans (hmem q hq)
  · exact Function.update_of_ne (ne_of_mem_of_not_mem hq hout) _ _

theorem pageAllocNode_nil (hfree : s.freePages = []) : pageAllocNode s = none := by
  rw [pageAllocNode, popFree, hfree, Option.map_none]

theorem SameUsed.put (h : SameUsed s r) (hp : pagePut s p = some s') :
    ∃ r', pagePutNode head r p = some r' ∧ SameUsed s' r' := by
  unfold pagePut at hp
  unfold pagePutNode
  rw [h.pageRc]
  split_ifs at hp ⊢ with hzero hlast
  · cases hp
    generalize hr₁ : ({ r with pageRc := update s.pageRc p (s.pageRc p - 1) } : Kmem) = r₁
    obtain ⟨hcount, hfree⟩ := pushFree_counts head r₁ p
    have hsame : r₁.freePages = s.freePages := by
      rw [← hr₁]
      exact h.freePages
    refine ⟨_, rfl, ?_, ?_, fun q hq => ?_⟩
    · rw [hcount, ← hr₁]
    · rw [hfree, hsame]
    · rw [pushFree_mem head r₁ p (by rw [hsame]; exact hq), ← hr₁]
      exact h.mem q fun hin => hq (mem_cons_of_mem p hin)
  · cases hp
    exact ⟨_, rfl, rfl, h.freePages, h.mem⟩

theorem SameUsed.alloc (h : SameUsed s r) (hlinked : Linked head r.mem head r.freePages)
    (hnodup : s.freePages.Nodup) (ha : pageAlloc s = some (p, s')) :
    ∃ r', pageAllocNode r = some (p, r') ∧ SameUsed s' r' := by
  cases hfree : s.freePages with
  | nil =>
    simp only [pageAlloc, hfree] at ha
    cases ha
  | cons q rest =>
    simp only [pageAlloc, hfree] at ha
    cases ha
    rw [h.freePages.trans hfree] at hlinked
    rw [hfree] at hnodup
    obtain ⟨r', halloc, hrest, hcount, hself, hmem, -⟩ :=
      pageAllocNode_cons (h.freePages.trans hfree) hlinked hnodup
    refine ⟨r', halloc, ?_, hrest, fun q' hq' => ?_⟩
    · rw [hcount, h.pageRc]
      rfl
    · by_cases hq : q' = p
      · rw [hq, hself]
        exact (Function.update_self p (fun _ => 0) s.mem).symm
      · have hused : q' ∉ p :: rest := fun hin => (mem_cons.mp hin).elim hq hq'
        rw [hmem q' hused, h.mem q' (by rw [hfree]; exact hused)]
        exact (Function.update_of_ne hq _ _).symm

end Nodes

structure Holding where
  kmem : Kmem
  held : ℕ → ℕ

inductive PageOp where
  | alloc
  | get (p : ℕ)
  | put (p : ℕ)
  | store (p i w : ℕ)

namespace PageOp

def step (head : ℕ) (s : Holding) : PageOp → Option Holding
  | alloc => some (((pageAllocNode s.kmem).map fun r =>
      ⟨r.2, update s.held r.1 (s.held r.1 + 1)⟩).getD s)
  | get p => some ⟨pageGet s.kmem p, update s.held p (s.held p + 1)⟩
  | put p => (pagePutNode head s.kmem p).map (⟨·, update s.held p (s.held p - 1)⟩)
  | store p i w => some { s with kmem := s.kmem.setWord p i w }

def Proper (s : Holding) : PageOp → Prop
  | alloc => True
  | get p => 0 < s.held p ∧ s.held p < 255
  | put p | store p _ _ => 0 < s.held p

instance (s : Holding) : (op : PageOp) → Decidable (op.Proper s)
  | alloc => .isTrue trivial
  | get _ => inferInstanceAs (Decidable (_ ∧ _))
  | put _ | store .. => inferInstanceAs (Decidable (_ < _))

end PageOp

structure Holding.Inv (head first last : ℕ) (s : Holding) : Prop where
  exact : s.kmem.pageRc = s.held
  nodup : s.kmem.freePages.Nodup
  free : ∀ p, p ∈ s.kmem.freePages ↔ (first ≤ p ∧ p < last) ∧ s.held p = 0
  inside : ∀ p, 0 < s.held p → first ≤ p ∧ p < last
  linked : Linked head s.kmem.mem head s.kmem.freePages

namespace Holding

variable {head first last : ℕ} {s t : Holding} {p : ℕ}

theorem pushed (head : ℕ) {l : List ℕ} : ∀ {k : Kmem}, (l.reverse ++ k.freePages).Nodup →
    Linked head k.mem head k.freePages →
    (l.foldl (pushFree head) k).pageRc = k.pageRc ∧
    (l.foldl (pushFree head) k).freePages = l.reverse ++ k.freePages ∧
    Linked head (l.foldl (pushFree head) k).mem head (l.reverse ++ k.freePages) := by
  induction l with
  | nil => exact fun _ hlinked => ⟨rfl, rfl, hlinked⟩
  | cons p l ih =>
    intro k hnodup hlinked
    rw [reverse_cons, append_assoc, singleton_append] at hnodup ⊢
    obtain ⟨hcount, hfree⟩ := pushFree_counts head k p
    have hcons := (nodup_append'.mp hnodup).2.1
    have hpush := hlinked.push (nodup_cons.mp hcons).1 (nodup_cons.mp hcons).2
    rw [← hfree] at hnodup hpush
    obtain ⟨hcounts, hpages, hnodes⟩ := ih hnodup hpush
    rw [hfree] at hpages hnodes
    exact ⟨hcounts.trans hcount, hpages, hnodes⟩

theorem inv_init (mem : ℕ → ℕ → ℕ) :
    Inv head first last ⟨pageInit head mem first last, fun _ => 0⟩ := by
  obtain ⟨hcount, hfree, hlinked⟩ := pushed head (l := range' first (last - first))
    (k := ⟨mem, fun _ => 0, []⟩) (by simp [nodup_range']) trivial
  rw [append_nil] at hfree hlinked
  refine ⟨hcount, ?_, fun p => ?_, by simp, ?_⟩
  · rw [pageInit, hfree]
    exact nodup_reverse.mpr nodup_range'
  · rw [pageInit, hfree, mem_reverse, mem_range'_1]
    simp only [and_true]
    omega
  · rw [pageInit, hfree]
    exact hlinked

theorem Inv.alloc (hs : Inv head first last s) :
    ∃ t, PageOp.step head s .alloc = some t ∧ Inv head first last t ∧
      ∀ p, 0 < s.held p → t.kmem.mem p = s.kmem.mem p := by
  obtain ⟨hexact, hnodup, hfree, hinside, hlinked⟩ := hs
  refine ⟨_, rfl, ?_⟩
  cases hpages : s.kmem.freePages with
  | nil =>
    rw [pageAllocNode_nil hpages]
    exact ⟨⟨hexact, hnodup, hfree, hinside, hlinked⟩, fun _ _ => rfl⟩
  | cons q rest =>
    rw [hpages] at hnodup hfree hlinked
    have hq := (hfree q).mp mem_cons_self
    have hout := (nodup_cons.mp hnodup).1
    obtain ⟨k, halloc, hrest, hcount, -, hmem, hlinked'⟩ := pageAllocNode_cons hpages hlinked hnodup
    rw [halloc, Option.map_some, Option.getD_some]
    refine ⟨⟨?_, hrest ▸ (nodup_cons.mp hnodup).2, fun p => ?_, fun p => ?_, hrest ▸ hlinked'⟩, fun p hp => ?_⟩
    · rw [hcount, hexact, hq.2]
    · have hp := hfree p
      rw [hrest]
      grind
    · have hp := hinside p
      grind
    · exact hmem p fun hin => hp.ne' ((hfree p).mp hin).2

theorem Inv.put (hs : Inv head first last s) (hp : 0 < s.held p) :
    ∃ k, pagePutNode head s.kmem p = some k ∧
      (∀ q, 0 < update s.held p (s.held p - 1) q → k.mem q = s.kmem.mem q) ∧
      Inv head first last ⟨k, update s.held p (s.held p - 1)⟩ := by
  obtain ⟨hexact, hnodup, hfree, hinside, hlinked⟩ := hs
  have hsub : ∀ q, 0 < update s.held p (s.held p - 1) q → first ≤ q ∧ q < last := by
    intro q
    have hq := hinside q
    grind
  have hrange := hinside p hp
  rw [pagePutNode, hexact, if_neg hp.ne']
  split_ifs with hlast
  · have hnot : p ∉ s.kmem.freePages := fun h => hp.ne' ((hfree p).mp h).2
    obtain ⟨hcount, hpages⟩ :=
      pushFree_counts head { s.kmem with pageRc := update s.held p (s.held p - 1) } p
    refine ⟨_, rfl, fun q hq => ?_, hcount, ?_, fun q => ?_, hsub, ?_⟩
    · refine pushFree_mem head _ p fun hin => ?_
      rcases mem_cons.mp hin with rfl | hin
      · rw [Function.update_self, hlast] at hq
        exact absurd hq (lt_irrefl 0)
      · have hzero := ((hfree q).mp hin).2
        grind
    · rw [hpages]
      exact nodup_cons.mpr ⟨hnot, hnodup⟩
    · have hq := hfree q
      rw [hpages, mem_cons]
      grind
    · rw [hpages]
      exact Linked.push (s := { s.kmem with pageRc := update s.held p (s.held p - 1) }) hlinked hnot hnodup
  · refine ⟨_, rfl, fun _ _ => rfl, rfl, hnodup, fun q => ?_, hsub, hlinked⟩
    have hq := hfree q
    grind

theorem Inv.step (hs : Inv head first last s) {op : PageOp} (hop : op.Proper s) :
    ∃ t, op.step head s = some t ∧ Inv head first last t ∧
      ∀ p, 0 < s.held p → 0 < t.held p → (∀ i w, op ≠ .store p i w) → t.kmem.mem p = s.kmem.mem p := by
  cases op with
  | alloc =>
    obtain ⟨t, ht, hinv, hmem⟩ := hs.alloc
    exact ⟨t, ht, hinv, fun p hp _ _ => hmem p hp⟩
  | get p =>
    have hpos : 0 < s.held p ∧ s.held p < 255 := hop
    have hmod : (s.held p + 1) % 256 = s.held p + 1 := Nat.mod_eq_of_lt (by omega)
    refine ⟨_, rfl, ⟨by simp [pageGet, hs.exact, hmod], hs.nodup, fun q => ?_, fun q => ?_, hs.linked⟩,
      fun _ _ _ _ => rfl⟩
    · have hq := hs.free q
      simp only [pageGet]
      grind
    · have hq := hs.inside q
      grind
  | put p =>
    obtain ⟨k, hput, hmem, hinv⟩ := hs.put hop
    exact ⟨_, by simp [PageOp.step, hput], hinv, fun q _ hq _ => hmem q hq⟩
  | store p i w =>
    have hpos : 0 < s.held p := hop
    have hnot : ∀ q ∈ s.kmem.freePages, q ≠ p := fun q hq heq => hpos.ne' (heq ▸ ((hs.free q).mp hq).2)
    exact ⟨_, rfl, ⟨hs.exact, hs.nodup, hs.free, hs.inside,
      hs.linked.congr fun q hq => Kmem.setWord_mem_page_ne i w (hnot q hq)⟩,
      fun q _ _ hq => Kmem.setWord_mem_page_ne i w fun h => hq i w (h ▸ rfl)⟩

end Holding

/-- In every run in which callers use only what they hold, no call panics, the counters are
exact, every page is free or held, the nodes in the free pages are the free list, and only a
holder changes a page that stays held. -/
theorem pages_exclusive {head : ℕ} {mem : ℕ → ℕ → ℕ} {first last : ℕ} {s : Holding}
    (h : Reaches (PageOp.step head) PageOp.Proper ⟨pageInit head mem first last, fun _ => 0⟩ s) :
    s.Inv head first last ∧ ∀ op : PageOp, op.Proper s → ∃ t, op.step head s = some t ∧
      ∀ p, 0 < s.held p → 0 < t.held p → (∀ i w, op ≠ .store p i w) → t.kmem.mem p = s.kmem.mem p := by
  have hs : s.Inv head first last := h.invariant (Holding.inv_init mem) fun s op t hs hop hstep => by
    obtain ⟨u, hu, hinv, -⟩ := hs.step hop
    exact Option.some.inj (hu.symm.trans hstep) ▸ hinv
  refine ⟨hs, fun op hop => ?_⟩
  obtain ⟨t, ht, -, hmem⟩ := hs.step hop
  exact ⟨t, ht, hmem⟩

/-- Page 8 is taken, written, shared and given back by one of its holders; page 7 is taken and
given back for good. -/
theorem pages_exclusive_shared : ∃ s : Holding, s.kmem.freePages = [7] ∧ s.kmem.pageRc 8 = 1 ∧
    s.kmem.mem 8 3 = 5 ∧ s.Inv 2 7 9 := by
  have hr : Reaches (PageOp.step 2) PageOp.Proper ⟨pageInit 2 (fun _ _ => 0) 7 9, fun _ => 0⟩ _ :=
    .of_run [.alloc, .store 8 3 5, .get 8, .alloc, .put 7, .put 8] (by decide +kernel) rfl
  exact ⟨_, rfl, rfl, rfl, (pages_exclusive hr).1⟩

end RvMiniOs.Memory
