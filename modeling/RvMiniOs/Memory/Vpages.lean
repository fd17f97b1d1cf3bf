import RvMiniOs.Err
import RvMiniOs.Memory.Pages

/-!
# Sv39 page tables

Translation of `vpages.c`. A table is a page of 512 entries; a pointer to an
entry is the pair of its page and index. Virtual addresses and entries are
64-bit words, physical pages are named by their page number.
-/

namespace RvMiniOs.Memory

open Lib

abbrev pteV : ℕ := 2 ^ 0
abbrev pteR : ℕ := 2 ^ 1
abbrev pteW : ℕ := 2 ^ 2
abbrev pteX : ℕ := 2 ^ 3
abbrev pteU : ℕ := 2 ^ 4
abbrev pteG : ℕ := 2 ^ 5
abbrev pteA : ℕ := 2 ^ 6
abbrev pteD : ℕ := 2 ^ 7
abbrev pteCow : ℕ := 2 ^ 8

abbrev maxVa : ℕ := 2 ^ 38
abbrev trampoline : ℕ := maxVa - pageSize
abbrev trapframe : ℕ := maxVa - 2 * pageSize

/-- `get_va_vpn`: the index that `va` selects in a table of level `lvl`. -/
def getVaVpn (va lvl : ℕ) : ℕ := va / 2 ^ (pageShift + 9 * lvl) % 512

theorem getVaVpn_lt (va lvl : ℕ) : getVaVpn va lvl < wordsPerPage :=
  Nat.mod_lt _ (by decide)

/-- `get_next_lvl_pte`, as a page number: the shift back by `PAGE_SHIFT` drops
whatever lies above 64 bits. -/
def getNextLvlPte (pte : ℕ) : ℕ := pte / 2 ^ 10 % 2 ^ 52

/-- `(page_get_num(page) << PTE_PPN_SHIFT) | flags`. -/
def makePte (page flags : ℕ) : ℕ := page * 2 ^ 10 ||| flags

def getFlags (pte : ℕ) : ℕ := pte % 2 ^ 10

def isANextLvlPtr (pte : ℕ) : Bool := !hasAny pte pteX && !hasAny pte pteW && !hasAny pte pteR

/-- The descent of `vpage_map` from level `lvl` to the leaf table. Returns the
tables allocated on the way, and the leaf table unless an allocation failed. -/
def mapDescend (va : ℕ) : ℕ → Kmem → ℕ → List ℕ → Kmem × List ℕ × Option ℕ
  | 0, s, table, allocTables => (s, allocTables, some table)
  | lvl + 1, s, table, allocTables =>
    let i := getVaVpn va (lvl + 1)
    if hasAny (s.mem table i) pteV then
      mapDescend va lvl s (getNextLvlPte (s.mem table i)) allocTables
    else
      match pageAlloc s with
      | none => (s, allocTables, none)
      | some (next, s) =>
        let pte := makePte next pteV
        mapDescend va lvl (s.setWord table i pte) (getNextLvlPte pte) (allocTables ++ [next])

/-- The flags `vpage_map` stores for the requested `flags`. -/
def leafFlags (flags : ℕ) : ℕ :=
  flags ||| pteV ||| pteA ||| (if hasAny flags pteW then pteD else 0)

/-- `vpage_map`: on failure the tables allocated by this call are put back. -/
def vpageMap (s : Kmem) (root va page flags : ℕ) : Option (Kmem × ℤ) :=
  match mapDescend va 2 s root [] with
  | (s, allocTables, none) => do
    let s ← allocTables.foldlM pagePut s
    some (s, -enomem)
  | (s, _, some table) =>
    some (s.setWord table (getVaVpn va 0) (makePte page (leafFlags flags)), 0)

def vpageMapUser (s : Kmem) (root va page flags : ℕ) : Option (Kmem × ℤ) :=
  vpageMap s root va page (pteU ||| flags)

/-- The leaf branch of `walk_free`: put the page of a private leaf, clear the entry. -/
def freeLeaf (s : Kmem) (table i : ℕ) : Option Kmem := do
  let pte := s.mem table i
  let s ← if !hasAny pte pteG && !isANextLvlPtr pte then pagePut s (getNextLvlPte pte) else some s
  some (s.setWord table i 0)

def walkFree : ℕ → Kmem → ℕ → Option Kmem
  | 0, s, table => do
    let s ← (List.range wordsPerPage).foldlM (fun s i =>
      if hasAny (s.mem table i) pteV then freeLeaf s table i else some s) s
    pagePut s table
  | lvl + 1, s, table => do
    let s ← (List.range wordsPerPage).foldlM (fun s i =>
      if hasAny (s.mem table i) pteV then
        if isANextLvlPtr (s.mem table i) then walkFree lvl s (getNextLvlPte (s.mem table i))
        else freeLeaf s table i
      else some s) s
    pagePut s table

def vpageTreeFree (s : Kmem) (root : ℕ) : Option Kmem := walkFree 2 s root

def walkLeafFrom (s : Kmem) (va : ℕ) : ℕ → ℕ → Option (ℕ × ℕ)
  | 0, _ => none
  | lvl + 1, table =>
    let i := getVaVpn va lvl
    let pte := s.mem table i
    if !hasAny pte pteV then none
    else if !isANextLvlPtr pte then some (table, i)
    else walkLeafFrom s va lvl (getNextLvlPte pte)

/-- `walk_leaf`: the leaf entry that maps `va`, if there is one. -/
def walkLeaf (s : Kmem) (root va : ℕ) : Option (ℕ × ℕ) := walkLeafFrom s va 3 root

def vpageUnmmap (s : Kmem) (root va : ℕ) : Option (Kmem × ℤ) :=
  match walkLeaf s root va with
  | none => some (s, -einval)
  | some (table, i) => do
    let s ← pagePut s (getNextLvlPte (s.mem table i))
    some (s.setWord table i 0, 0)

def vpageHandleCow (s : Kmem) (root va : ℕ) : Option (Kmem × ℤ) :=
  match walkLeaf s root va with
  | none => some (s, -efault)
  | some (table, i) =>
    let pte := s.mem table i
    if !hasAny pte pteCow then some (s, -efault)
    else
      let page := getNextLvlPte pte
      if s.pageRc page = 1 then
        some (s.setWord table i (clearBits pte pteCow ||| pteW), 0)
      else
        match pageAlloc s with
        | none => some (s, -enomem)
        | some (newPage, s) => do
          let s := pageCopy s newPage page
          let s := s.setWord table i
            (makePte newPage (clearBits (getFlags (s.mem table i)) pteCow ||| pteW))
          let s ← pagePut s page
          some (s, 0)

/-- `get_pa_from_va`: the physical address of `va`, resolving copy-on-write
first when write access is needed. -/
def getPaFromVa (s : Kmem) (root va needed : ℕ) : Option (Kmem × Option ℕ) :=
  match walkLeaf s root va with
  | none => some (s, none)
  | some (table, i) => do
    let (s, res) ← if hasAny needed pteW && hasAny (s.mem table i) pteCow then
        vpageHandleCow s root va
      else some (s, 0)
    if res ≠ 0 then some (s, none)
    else if s.mem table i &&& needed ≠ needed then some (s, none)
    else some (s, some (getNextLvlPte (s.mem table i) * pageSize + va % pageSize))

/-- `vpage_copyin`: result code and the bytes stored in the kernel buffer. A null
physical address is reported like an unmapped one. -/
def vpageCopyin (s : Kmem) (root va count : ℕ) : Option (Kmem × ℤ × List UInt8) := do
  let (s, pa) ← getPaFromVa s root va (pteV ||| pteU ||| pteR)
  match pa with
  | none => some (s, -efault, [])
  | some pa => if pa = 0 then some (s, -efault, []) else some (s, 0, s.memcpyFrom pa count)

def vpageCopyout (s : Kmem) (root va : ℕ) (src : List UInt8) : Option (Kmem × ℤ) := do
  let (s, pa) ← getPaFromVa s root va (pteV ||| pteU ||| pteW)
  match pa with
  | none => some (s, -efault)
  | some pa => if pa = 0 then some (s, -efault) else some (s.memcpyTo pa src, 0)

/-- `strnlen` of the bytes that it may look at. -/
def strnlen (bs : List UInt8) : ℕ := (bs.takeWhile (· ≠ 0)).length

/-- `vpage_copyinstr`: result code and the string stored in the kernel buffer. -/
def vpageCopyinstr (s : Kmem) (root va max : ℕ) : Option (Kmem × ℤ × List UInt8) := do
  let (s, pa) ← getPaFromVa s root va (pteV ||| pteU ||| pteR)
  match pa with
  | none => some (s, -efault, [])
  | some pa =>
    if pa = 0 then some (s, -efault, [])
    else
      let n := min (pageSize - va % pageSize) max
      let size := strnlen (s.memcpyFrom pa n)
      if size = n then some (s, -enametoolong, []) else some (s, size + 1, s.memcpyFrom pa (size + 1))

def vpageCopyoutstr (s : Kmem) (root va : ℕ) (src : List UInt8) (max : ℕ) : Option (Kmem × ℤ) := do
  let (s, pa) ← getPaFromVa s root va (pteV ||| pteU ||| pteW)
  match pa with
  | none => some (s, -efault)
  | some pa =>
    if pa = 0 then some (s, -efault)
    else
      let size := strnlen (src.take max)
      if size = max then some (s, -enametoolong) else some (s.memcpyTo pa (src.take (size + 1)), size + 1)

end RvMiniOs.Memory
