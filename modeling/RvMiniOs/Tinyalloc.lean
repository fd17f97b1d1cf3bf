import RvMiniOs.Lib.Pieces
import RvMiniOs.Lib.Runs
import Mathlib.Data.Nat.Bitwise
import Mathlib.Tactic.Ring

/-!
# The kernel heap

`lib/tinyalloc.c`, with compaction and splitting. The lists of free and used blocks are
lists of their pieces of memory; of the blank blocks only the number matters. `size_t` has
64 bits.
-/
namespace RvMiniOs.Tinyalloc

open Lib List

structure Heap where
  free : List Piece
  used : List Piece
  /-- The number of blank blocks. -/
  fresh : ℕ
  top : ℕ
  deriving DecidableEq

structure Limits where
  heapLimit : ℕ
  splitThresh : ℕ
  alignment : ℕ

/-- `sizeof(Heap)` and `sizeof(Block)` are 32 and 24. Without a block the loop that links the
blank blocks counts down from `2 ^ 64 - 1` and runs away. -/
def taInit (base heapBlocks : ℕ) : Option Heap :=
  if heapBlocks = 0 then none else some ⟨[], [], heapBlocks, base + 32 + 24 * heapBlocks⟩

def insertBlock (block : Piece) (free : List Piece) : List Piece :=
  free.orderedInsert (fun b ptr => b.addr ≤ ptr.addr) block

/-- The block at `ptr` with all up to `prev`, which follow each other. -/
def merged (ptr prev : Piece) : Piece :=
  if prev = ptr then ptr else ⟨ptr.addr, (prev.addr + 2 ^ 64 - ptr.addr + prev.size) % 2 ^ 64⟩

/-- The loops of `compact` from `scan` on, and the number of blocks they release. -/
def compactFrom (ptr prev : Piece) : List Piece → List Piece × ℕ
  | [] => ([merged ptr prev], 0)
  | scan :: rest =>
    if (prev.addr + prev.size) % 2 ^ 64 = scan.addr then
      let (free, released) := compactFrom ptr scan rest
      (free, released + 1)
    else
      let (free, released) := compactFrom scan scan rest
      (merged ptr prev :: free, released)

def compact : List Piece → List Piece × ℕ
  | [] => ([], 0)
  | ptr :: rest => compactFrom ptr ptr rest

def taFree (h : Heap) (p : ℕ) : Bool × Heap :=
  match h.used.find? (·.addr = p) with
  | none => (false, h)
  | some block =>
    let (free, released) := compact (insertBlock block h.free)
    (true, { h with free, used := h.used.eraseP (·.addr = p), fresh := h.fresh + released })

def aligned (c : Limits) (num : ℕ) : ℕ := (num + c.alignment - 1) % 2 ^ 64 &&& (2 ^ 64 - c.alignment)

def isTop (c : Limits) (h : Heap) (num : ℕ) (ptr : Piece) : Bool :=
  decide (h.top ≤ (ptr.addr + ptr.size) % 2 ^ 64) && decide ((ptr.addr + num) % 2 ^ 64 ≤ c.heapLimit)

/-- `alloc_block` after the rounding. -/
def allocBlock (c : Limits) (h : Heap) (num : ℕ) : Option ℕ × Heap :=
  let fits := fun ptr => isTop c h num ptr || decide (num ≤ ptr.size)
  match h.free.find? fits with
  | some ptr =>
    let free := h.free.eraseP fits
    if isTop c h num ptr then
      (some ptr.addr, { h with free, used := ⟨ptr.addr, num⟩ :: h.used, top := (ptr.addr + num) % 2 ^ 64 })
    else if h.fresh ≠ 0 ∧ c.splitThresh ≤ ptr.size - num then
      let split : Piece := ⟨(ptr.addr + num) % 2 ^ 64, ptr.size - num⟩
      let (free, released) := compact (insertBlock split free)
      (some ptr.addr, { h with free, used := ⟨ptr.addr, num⟩ :: h.used, fresh := h.fresh - 1 + released })
    else (some ptr.addr, { h with free, used := ptr :: h.used })
  | none =>
    let newTop := (h.top + num) % 2 ^ 64
    if h.fresh ≠ 0 ∧ newTop ≤ c.heapLimit then
      (some h.top, { h with used := ⟨h.top, num⟩ :: h.used, fresh := h.fresh - 1, top := newTop })
    else (none, h)

def taAlloc (c : Limits) (h : Heap) (num : ℕ) : Option ℕ × Heap := allocBlock c h (aligned c num)

inductive Op where
  | alloc (num : ℕ)
  | free (p : ℕ)

def Op.step (c : Limits) (h : Heap) : Op → Option Heap
  | alloc num => some (taAlloc c h num).2
  | free p => some (taFree h p).2

/-- Requests for at least one byte that do not wrap around. A pointer may be anything. -/
def Op.Proper (c : Limits) (_ : Heap) : Op → Prop
  | alloc num => 0 < num ∧ c.heapLimit + num + c.alignment ≤ 2 ^ 64
  | free _ => True

instance (c : Limits) (h : Heap) : (op : Op) → Decidable (op.Proper c h)
  | .alloc _ => inferInstanceAs (Decidable (_ ∧ _))
  | .free _ => .isTrue trivial

structure Limits.Sane (c : Limits) : Prop where
  split_pos : 0 < c.splitThresh
  align_pow : ∃ k < 64, c.alignment = 2 ^ k
  limit_lt : c.heapLimit < 2 ^ 64

/-- The used and the free blocks cut the memory below `top`. The free list is ordered and has
no two neighbours. -/
structure HeapInv (c : Limits) (start blocks : ℕ) (h : Heap) : Prop where
  cut : Cut start (h.used ++ h.free) h.top
  top_le : h.top ≤ c.heapLimit
  gaps : h.free.Pairwise fun b b' => b.stop < b'.addr
  count : h.used.length + h.free.length + h.fresh = blocks

variable {c : Limits} {h : Heap} {start blocks a top num : ℕ} {b ptr prev : Piece}
  {l rest others : List Piece}

theorem merged_eq (hle : ptr.addr ≤ prev.addr) (hlt : prev.stop < 2 ^ 64) :
    merged ptr prev = ⟨ptr.addr, prev.stop - ptr.addr⟩ := by
  rw [Piece.stop] at *
  rw [merged]
  split_ifs with heq
  · rw [heq, Nat.add_sub_cancel_left]
  · rw [Piece.mk.injEq]
    omega

/-- What compaction leaves of a free list with `n` blocks, none of them below `lo`. -/
structure Compacted (a top lo n : ℕ) (others : List Piece) (r : List Piece × ℕ) : Prop where
  cut : Cut a (r.1 ++ others) top
  gaps : r.1.Pairwise fun b b' => b.stop < b'.addr
  length : r.1.length + r.2 = n
  low : ∀ b ∈ r.1, lo ≤ b.addr

theorem stop_le_top {lo hi : ℕ} (hcut : Cut a (⟨lo, hi - lo⟩ :: l) top) : hi ≤ top := by
  have hstop : lo + (hi - lo) ≤ top := (hcut.bounds mem_cons_self).2.2
  omega

theorem compactFrom_compacted (htop : top < 2 ^ 64) (hle : ptr.addr ≤ prev.addr)
    (hcut : Cut a (⟨ptr.addr, prev.stop - ptr.addr⟩ :: rest ++ others) top)
    (hsorted : (prev :: rest).Pairwise fun b b' => b.stop ≤ b'.addr) :
    Compacted a top ptr.addr (rest.length + 1) others (compactFrom ptr prev rest) := by
  -- `ptr` is the block that grows, `prev` the last one that it has swallowed
  induction rest generalizing ptr prev others with
  | nil =>
    rw [compactFrom, merged_eq hle ((stop_le_top hcut).trans_lt htop)]
    exact ⟨hcut, pairwise_singleton _ _, rfl, by simp⟩
  | cons scan rest ih =>
    have hlt : prev.stop < 2 ^ 64 := (stop_le_top hcut).trans_lt htop
    have hstop : prev.addr ≤ prev.stop := Nat.le_add_right _ _
    obtain ⟨hprev, hrest⟩ := pairwise_cons.mp hsorted
    have hscan := hprev scan mem_cons_self
    rw [compactFrom, ← Piece.stop, Nat.mod_eq_of_lt hlt]
    split_ifs with hnext
    · have hadj : Piece.stop ⟨ptr.addr, prev.stop - ptr.addr⟩ = scan.addr := by
        rw [Piece.stop, ← hnext]
        exact Nat.add_sub_cancel' (hle.trans hstop)
      have hsize : prev.stop - ptr.addr + scan.size = scan.stop - ptr.addr := by
        rw [hnext, Piece.stop]
        omega
      have hmerge := hcut.merge hadj
      rw [hsize] at hmerge
      have hc := ih (hle.trans (hstop.trans hscan)) hmerge hrest
      exact ⟨hc.cut, hc.gaps, by rw [length_cons, ← hc.length, Nat.add_assoc], hc.low⟩
    · have hscut : Cut a (⟨scan.addr, scan.stop - scan.addr⟩ :: rest ++
          ⟨ptr.addr, prev.stop - ptr.addr⟩ :: others) top := by
        rw [Piece.stop, Nat.add_sub_cancel_left]
        exact hcut.perm perm_middle.symm
      have hc := ih le_rfl hscut hrest
      rw [merged_eq hle hlt]
      refine ⟨hc.cut.perm perm_middle, pairwise_cons.mpr ⟨fun b hb => ?_, hc.gaps⟩, ?_, ?_⟩
      · have hlow := hc.low b hb
        rw [Piece.stop]
        dsimp only
        omega
      · rw [length_cons, length_cons, ← hc.length, Nat.add_right_comm]
      · rw [forall_mem_cons]
        exact ⟨le_rfl, fun b hb => (hle.trans (hstop.trans hscan)).trans (hc.low b hb)⟩

theorem compact_compacted (htop : top < 2 ^ 64) (hcut : Cut a (l ++ others) top)
    (hsorted : l.Pairwise fun b b' => b.addr ≤ b'.addr) :
    Compacted a top 0 l.length others (compact l) := by
  cases l with
  | nil => exact ⟨hcut, .nil, rfl, by simp [compact]⟩
  | cons ptr rest =>
    have hapart : (ptr :: rest).Pairwise fun b b' => b.stop ≤ b'.addr := by
      have hpieces := (pairwise_append.mp hcut.pairwise).1
      refine (hsorted.and hpieces).imp_of_mem fun {b b'} _ hb' hbb => hbb.2.resolve_right ?_
      have hpos := (hcut.bounds (mem_append_left _ hb')).2.1
      have hle := hbb.1
      rw [Piece.stop]
      omega
    have hself : Cut a (⟨ptr.addr, ptr.stop - ptr.addr⟩ :: rest ++ others) top := by
      rwa [Piece.stop, Nat.add_sub_cancel_left]
    exact { compactFrom_compacted htop le_rfl hself hapart with low := fun _ _ => Nat.zero_le _ }

theorem insert_compacted (htop : top < 2 ^ 64) (hcut : Cut a (b :: l ++ others) top)
    (hgaps : l.Pairwise fun b b' => b.stop < b'.addr) :
    Compacted a top 0 (l.length + 1) others (compact (insertBlock b l)) := by
  have hperm : insertBlock b l ~ b :: l := perm_orderedInsert _ _ _
  have hc := compact_compacted htop (hcut.perm (hperm.symm.append_right others)) ?_
  · rwa [hperm.length_eq] at hc
  have hsorted : l.Pairwise fun b b' => b.addr ≤ b'.addr :=
    hgaps.imp fun h => ((Nat.le_add_right _ _).trans_lt h).le
  have : Std.Total fun b ptr : Piece => b.addr ≤ ptr.addr := ⟨fun _ _ => Nat.le_total _ _⟩
  have : IsTrans Piece fun b ptr => b.addr ≤ ptr.addr := ⟨fun _ _ _ => Nat.le_trans⟩
  exact hsorted.orderedInsert _ _

theorem perm_cons_eraseP {p : Piece → Bool} (hfind : l.find? p = some b) : l ~ b :: l.eraseP p := by
  induction l with
  | nil => cases hfind
  | cons x l ih =>
    by_cases hx : p x = true
    · rw [find?_cons_of_pos hx] at hfind
      cases hfind
      rw [eraseP_cons_of_pos hx]
    · rw [find?_cons_of_neg hx] at hfind
      rw [eraseP_cons_of_neg hx]
      exact ((ih hfind).cons x).trans (.swap b x _)

theorem HeapInv.freed (hc : c.Sane) (hi : HeapInv c start blocks h) (p : ℕ) :
    HeapInv c start blocks (taFree h p).2 := by
  rw [taFree]
  cases hfind : h.used.find? (·.addr = p) with
  | none => exact hi
  | some block =>
    have hused := perm_cons_eraseP hfind
    have hcut : Cut start (block :: h.free ++ h.used.eraseP (·.addr = p)) h.top :=
      hi.cut.perm ((hused.append_right _).trans (.cons block perm_append_comm))
    have hr := insert_compacted (hi.top_le.trans_lt hc.limit_lt) hcut hi.gaps
    refine ⟨hr.cut.perm perm_append_comm, hi.top_le, hr.gaps, ?_⟩
    have hlength := hr.length
    have hsum := hi.count
    rw [hused.length_eq, length_cons] at hsum
    dsimp only
    omega

/-- What `alloc_block` answers: a used block more, or nothing. -/
def Answered (c : Limits) (h : Heap) (num : ℕ) (r : Option ℕ × Heap) : Prop :=
  (∃ p size, num ≤ size ∧ r.1 = some p ∧ r.2.used = ⟨p, size⟩ :: h.used) ∨
    (r = (none, h) ∧ (∀ b ∈ h.free, b.size < num) ∧ (h.fresh = 0 ∨ c.heapLimit < h.top + num))

theorem HeapInv.allocated (hc : c.Sane) (hi : HeapInv c start blocks h) (hpos : 0 < num)
    (hnum : c.heapLimit + num < 2 ^ 64) :
    HeapInv c start blocks (allocBlock c h num).2 ∧ Answered c h num (allocBlock c h num) := by
  have hcount := hi.count
  have htop := hi.top_le
  rw [allocBlock]
  cases hfind : h.free.find? (fun ptr => isTop c h num ptr || decide (num ≤ ptr.size)) with
  | none =>
    dsimp only
    have hsum : (h.top + num) % 2 ^ 64 = h.top + num := Nat.mod_eq_of_lt (by omega)
    rw [hsum]
    split_ifs with hroom
    · refine ⟨⟨hi.cut.push hpos, hroom.2, hi.gaps, ?_⟩, .inl ⟨_, num, le_rfl, rfl, rfl⟩⟩
      rw [length_cons]
      dsimp only
      omega
    · refine ⟨hi, .inr ⟨rfl, fun b hb => ?_, by omega⟩⟩
      have hfits := find?_eq_none.mp hfind b hb
      simp only [Bool.or_eq_true, decide_eq_true_eq, not_or, not_le] at hfits
      exact hfits.2
  | some ptr =>
    dsimp only
    have hfits := find?_some hfind
    have hperm := perm_cons_eraseP hfind
    set free := h.free.eraseP (fun ptr => isTop c h num ptr || decide (num ≤ ptr.size)) with hfree
    have hlength := hperm.length_eq
    rw [length_cons] at hlength
    have hgaps : free.Pairwise fun b b' => b.stop < b'.addr := hi.gaps.sublist eraseP_sublist
    have hcut : Cut start (ptr :: (h.used ++ free)) h.top :=
      hi.cut.perm ((hperm.append_left _).trans perm_middle)
    have hptr := (hcut.bounds mem_cons_self).2
    rw [Piece.stop] at hptr
    have hend : (ptr.addr + ptr.size) % 2 ^ 64 = ptr.addr + ptr.size := Nat.mod_eq_of_lt (by omega)
    have hnext : (ptr.addr + num) % 2 ^ 64 = ptr.addr + num := Nat.mod_eq_of_lt (by omega)
    rw [hnext]
    split_ifs with hlast hsplit
    · simp only [isTop, Bool.and_eq_true, decide_eq_true_eq, hend, hnext] at hlast
      refine ⟨⟨hcut.resize hlast.1 hpos, hlast.2, hgaps, ?_⟩, .inl ⟨_, num, le_rfl, rfl, rfl⟩⟩
      rw [length_cons]
      dsimp only
      omega
    · have hle : num ≤ ptr.size := by simpa [hlast] using hfits
      have hthresh := hc.split_pos
      have hpieces : Spans ptr.addr [⟨ptr.addr, num⟩, ⟨ptr.addr + num, ptr.size - num⟩] ptr.stop := by
        refine ⟨rfl, hpos, rfl, ?_, ?_⟩ <;> simp only [Spans, Piece.stop] <;> omega
      have hperm₂ : ⟨ptr.addr, num⟩ :: h.used ++ free ~ free ++ ⟨ptr.addr, num⟩ :: h.used := perm_append_comm
      have hcut₂ := (hcut.refine hpieces).perm ((Perm.swap _ _ _).trans (.cons _ hperm₂))
      have hr := insert_compacted (htop.trans_lt hc.limit_lt) hcut₂ hgaps
      refine ⟨⟨hr.cut.perm perm_append_comm, htop, hr.gaps, ?_⟩, .inl ⟨_, num, le_rfl, rfl, rfl⟩⟩
      have hrel := hr.length
      rw [length_cons]
      dsimp only
      omega
    · have hle : num ≤ ptr.size := by simpa [hlast] using hfits
      refine ⟨⟨hcut, htop, hgaps, ?_⟩, .inl ⟨_, ptr.size, hle, rfl, rfl⟩⟩
      rw [length_cons]
      dsimp only
      omega

theorem and_neg_two_pow {x k : ℕ} (hk : k < 64) (hx : x < 2 ^ 64) :
    x &&& (2 ^ 64 - 2 ^ k) = 2 ^ k * (x / 2 ^ k) := by
  have hmask : 2 ^ 64 - 2 ^ k = 2 ^ k * (2 ^ (64 - k) - 1) := by
    rw [Nat.mul_sub, mul_one, ← pow_add, Nat.add_sub_cancel' hk.le]
  apply Nat.eq_of_testBit_eq
  intro i
  rw [hmask, Nat.testBit_and, Nat.testBit_two_pow_mul, Nat.testBit_two_pow_mul,
    Nat.testBit_two_pow_sub_one, Nat.testBit_div_two_pow]
  by_cases hi : k ≤ i
  · rw [Nat.sub_add_cancel hi]
    by_cases h64 : i < 64
    · simp [hi, show i - k < 64 - k by omega]
    · have hfalse : x.testBit i = false :=
        Nat.testBit_lt_two_pow (hx.trans_le (Nat.pow_le_pow_right two_pos (not_lt.mp h64)))
      simp [hfalse]
  · simp [hi]

theorem le_aligned (hc : c.Sane) (hnum : num + c.alignment ≤ 2 ^ 64) :
    num ≤ aligned c num ∧ aligned c num < num + c.alignment := by
  obtain ⟨k, hk, halign⟩ := hc.align_pow
  have hpos : 0 < 2 ^ k := Nat.two_pow_pos k
  rw [halign] at hnum
  rw [aligned, halign]
  rw [Nat.mod_eq_of_lt (by omega), and_neg_two_pow hk (by omega)]
  have hdiv := Nat.div_add_mod (num + 2 ^ k - 1) (2 ^ k)
  have hmod := Nat.mod_lt (num + 2 ^ k - 1) hpos
  omega

theorem Op.Proper.aligned (hc : c.Sane) (hop : (Op.alloc num).Proper c h) :
    num ≤ aligned c num ∧ c.heapLimit + aligned c num < 2 ^ 64 := by
  have hnum := hop.2
  have hle : num ≤ Tinyalloc.aligned c num ∧ _ := le_aligned hc (by omega)
  exact ⟨hle.1, by omega⟩

theorem HeapInv.step (hc : c.Sane) {op : Op} {h' : Heap} (hi : HeapInv c start blocks h)
    (hop : op.Proper c h) (hs : op.step c h = some h') : HeapInv c start blocks h' := by
  cases op with
  | alloc num =>
    cases hs
    have hle := Op.Proper.aligned hc hop
    exact (hi.allocated hc (hop.1.trans_le hle.1) hle.2).1
  | free p =>
    cases hs
    exact hi.freed hc p

/-- In every run the blocks handed out are disjoint pieces of the heap, no block is lost, and
the free list has no two neighbours: a heap with no used block is free in one piece. A request
adds one block that is large enough, or fails for want of memory or blank blocks and changes
nothing. `free` drops the block at the pointer, and ignores every other pointer. -/
theorem heap_safe {base : ℕ} {h₀ : Heap} (hc : c.Sane) (hinit : taInit base blocks = some h₀)
    (hroom : h₀.top ≤ c.heapLimit) (hr : Reaches (Op.step c) (Op.Proper c) h₀ h) :
    h.used.Pairwise Piece.Apart ∧
    (∀ b ∈ h.used, h₀.top ≤ b.addr ∧ 0 < b.size ∧ b.stop ≤ c.heapLimit) ∧
    h.used.length + h.free.length + h.fresh = blocks ∧
    (h.used = [] → h.free = [] ∨ h.free = [⟨h₀.top, h.top - h₀.top⟩]) ∧
    (∀ num, (Op.alloc num).Proper c h →
      num ≤ aligned c num ∧ Answered c h (aligned c num) (taAlloc c h num)) ∧
    ∀ p, ((∀ b ∈ h.used, b.addr ≠ p) ∧ taFree h p = (false, h)) ∨
      ∃ b, b.addr = p ∧ (taFree h p).1 = true ∧ h.used ~ b :: (taFree h p).2.used := by
  have hstart : HeapInv c h₀.top blocks h₀ := by
    rw [taInit] at hinit
    split_ifs at hinit
    cases hinit
    exact ⟨⟨[], .nil, rfl⟩, hroom, .nil, by simp⟩
  have hi : HeapInv c h₀.top blocks h :=
    hr.invariant hstart fun _ _ _ hi hop hs => hi.step hc hop hs
  refine ⟨(pairwise_append.mp hi.cut.pairwise).1, fun b hb => ?_, hi.count, fun hnil => ?_,
    fun num hop => ?_, fun p => ?_⟩
  · have hbound := hi.cut.bounds (mem_append_left _ hb)
    exact ⟨hbound.1, hbound.2.1, hbound.2.2.trans hi.top_le⟩
  · have hcut := hi.cut
    rw [hnil, nil_append] at hcut
    exact (hcut.single hi.gaps).imp And.left And.right
  · have hle := Op.Proper.aligned hc hop
    exact ⟨hle.1, (hi.allocated hc (hop.1.trans_le hle.1) hle.2).2⟩
  · rw [taFree]
    cases hfind : h.used.find? (·.addr = p) with
    | none => exact .inl ⟨by simpa using hfind, rfl⟩
    | some b => exact .inr ⟨b, by simpa using find?_some hfind, rfl, perm_cons_eraseP hfind⟩

/-- Two neighbours are freed and merge, and the next request splits what they leave. -/
def mergeAndSplit : List Op := [.alloc 300, .alloc 300, .alloc 1, .free 224, .free 528, .free 1, .alloc 5]

theorem heap_safe_mergeAndSplit : ∃ h₀ h, taInit 0 8 = some h₀ ∧
    run (Op.step ⟨8192, 256, 8⟩) h₀ mergeAndSplit = some h ∧ h.used = [⟨224, 8⟩, ⟨832, 8⟩] ∧
    h.free = [⟨232, 600⟩] ∧ h.used.Pairwise Piece.Apart := by
  have hr : Reaches (Op.step ⟨8192, 256, 8⟩) (Op.Proper ⟨8192, 256, 8⟩) ⟨[], [], 8, 224⟩ _ :=
    .of_run mergeAndSplit (by decide) rfl
  have hsane : (⟨8192, 256, 8⟩ : Limits).Sane := ⟨by decide, ⟨3, by decide⟩, by decide⟩
  have hinit : taInit 0 8 = some ⟨[], [], 8, 224⟩ := rfl
  exact ⟨_, _, hinit, rfl, by decide, by decide, (heap_safe hsane hinit (by decide) hr).1⟩

end RvMiniOs.Tinyalloc
