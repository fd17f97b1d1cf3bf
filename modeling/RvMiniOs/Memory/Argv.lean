import RvMiniOs.Memory.Exec

/-!
# The arguments of a new program

`transfer_argv` against what `_start` reads: the count at `sp`, the table at `sp + 16`
and above it the strings, all in the stack page of the new image.
-/

namespace RvMiniOs.Memory

open Lib Lib.TableTree List Option Bool

def Holds (s : Kmem) (root va : ℕ) (bs : List UInt8) : Prop :=
  ∀ k b, bs[k]? = some b → userByte s root (va + k) = some b

def Readable (s : Kmem) (root va : ℕ) (bs : List UInt8) : Prop :=
  ∀ k b, bs[k]? = some b → MappedWith s root (va + k) readFlags ∧
    ∃ a, translate s root (va + k) = some a ∧ a ≠ 0 ∧ s.readByte a = b

structure IsString (s : Kmem) (root va : ℕ) (str : List UInt8) : Prop where
  bytes : ∀ b ∈ str, b ≠ 0
  short : str.length + 1 ≤ argMax
  page : va % pageSize + (str.length + 1) ≤ pageSize
  readable : Readable s root va (str ++ [0])

structure ArgVector (s : Kmem) (root argv : ℕ) (strs : List (List UInt8)) : Prop where
  few : strs.length < execMaxArgs
  nonnull : argv ≠ 0
  aligned : argv % 8 = 0
  bound : argv + 8 * (strs.length + 1) ≤ 2 ^ 64
  pointers : ∃ ptrs, Readable s root argv ((ptrs ++ [0]).flatMap (leBytes 8)) ∧
    (∀ ptr ∈ ptrs, ptr ≠ 0 ∧ ptr < 2 ^ 64) ∧ List.Forall₂ (IsString s root) ptrs strs

def Placed (s : Kmem) (root : ℕ) : ℕ → List ℕ → List (List UInt8) → ℕ → Prop
  | lo, [], [], hi => lo ≤ hi
  | lo, ptr :: ptrs, str :: strs, hi =>
    lo ≤ ptr ∧ Holds s root ptr (str ++ [0]) ∧ Placed s root (ptr + (str.length + 1)) ptrs strs hi
  | _, _, _, _ => False

structure ArgsAt (s : Kmem) (root sp : ℕ) (strs : List (List UInt8)) : Prop where
  aligned : sp % stackAlign = 0
  low : ustackTop ≤ sp
  argc : Holds s root sp (leBytes 4 strs.length)
  table : ∃ ptrs, ptrs.length = strs.length ∧ Holds s root (sp + 16) ((ptrs ++ [0]).flatMap (leBytes 8)) ∧
    Placed s root (sp + 16 + 8 * (strs.length + 1)) ptrs strs ustack

section Reading

variable {s s' : Kmem} {root va argv : ℕ} {bs str : List UInt8}

theorem Readable.append_left {cs : List UInt8} (h : Readable s root va (bs ++ cs)) : Readable s root va bs :=
  fun k b hk => h k b (by
    rw [List.getElem?_append_left (List.getElem?_eq_some_iff.mp hk).1]
    exact hk)

theorem Readable.append_right {cs : List UInt8} (h : Readable s root va (bs ++ cs)) :
    Readable s root (va + bs.length) cs := fun k b hk => by
  rw [Nat.add_assoc]
  refine h _ b ?_
  rw [getElem?_append_right (Nat.le_add_right _ _), Nat.add_sub_cancel_left]
  exact hk

theorem Readable.physical (h : Readable s root va bs) (hpos : 0 < bs.length)
    (hfit : va % pageSize + bs.length ≤ pageSize) :
    ∃ pa, pa ≠ 0 ∧ getPaFromVa s root va readFlags = some (s, some pa) ∧ s.memcpyFrom pa bs.length = bs := by
  obtain ⟨⟨t, i, hwalk, hflags⟩, a, htr, ha, -⟩ := h 0 bs[0] (getElem?_eq_getElem hpos)
  rw [Nat.add_zero] at hwalk htr
  have hpa : translate s root va = some (getNextLvlPte (s.mem t i) * pageSize + va % pageSize) := by
    rw [translate, hwalk, map_some]
  have hae : a = getNextLvlPte (s.mem t i) * pageSize + va % pageSize :=
    (some.inj (htr.symm.trans hpa))
  refine ⟨a, ha, ?_, ?_⟩
  · rw [getPaFromVa, hwalk]
    dsimp only
    rw [show hasAny readFlags pteW = false by decide, Bool.false_and, if_neg (by decide)]
    dsimp only [bind_eq_bind, bind_some]
    rw [if_neg (by decide), if_neg (not_not.mpr hflags), hae]
  · refine ext_getElem? fun k => ?_
    by_cases hk : k < bs.length
    · obtain ⟨-, c, hc, -, hb⟩ := h k bs[k] (getElem?_eq_getElem hk)
      have hpage : (va + k) / pageSize = va / pageSize := by simp only [pageSize] at *; omega
      have hoff : (va + k) % pageSize = va % pageSize + k := by simp only [pageSize] at *; omega
      rw [translate, walkLeaf_same_page s root hpage, hwalk, map_some, hoff, ← Nat.add_assoc, ← hae] at hc
      rw [Kmem.getElem?_memcpyFrom hk, getElem?_eq_getElem hk, some.inj hc, hb]
    · rw [getElem?_eq_none (by simpa using hk), getElem?_eq_none (by simpa using hk)]

theorem Readable.copyin (h : Readable s root va bs) (hpos : 0 < bs.length)
    (hfit : va % pageSize + bs.length ≤ pageSize) : vpageCopyin s root va bs.length = some (s, 0, bs) := by
  obtain ⟨pa, hpa, hget, hbytes⟩ := h.physical hpos hfit
  unfold vpageCopyin
  rw [hget]
  dsimp only [bind_eq_bind, bind_some]
  rw [if_neg hpa, hbytes]

theorem memcpyFrom_add (s : Kmem) (a m n : ℕ) :
    s.memcpyFrom a (m + n) = s.memcpyFrom a m ++ s.memcpyFrom (a + m) n := by
  induction m generalizing a with
  | zero => rw [Nat.zero_add]; rfl
  | succ m ih =>
    rw [Nat.add_right_comm, Kmem.memcpyFrom, ih, Kmem.memcpyFrom, cons_append]
    congr 3
    omega

theorem strnlen_append (hb : ∀ b ∈ str, b ≠ 0) (rest : List UInt8) : strnlen (str ++ 0 :: rest) = str.length := by
  unfold strnlen
  rw [takeWhile_append_of_pos (by simpa using hb)]
  simp

theorem IsString.copyin (h : IsString s root va str) :
    vpageCopyinstr s root va argMax = some (s, ((str.length + 1 : ℕ) : ℤ), str ++ [0]) := by
  have hlen : (str ++ [0]).length = str.length + 1 := by simp
  obtain ⟨pa, hpa, hget, hbytes⟩ := h.readable.physical (by omega) (by rw [hlen]; exact h.page)
  rw [hlen] at hbytes
  have hshort := h.short
  have hpage := h.page
  set n := min (pageSize - va % pageSize) argMax with hn
  have hle : str.length + 1 ≤ n := by omega
  have hstr : strnlen (s.memcpyFrom pa n) = str.length := by
    rw [show n = str.length + 1 + (n - (str.length + 1)) by omega, memcpyFrom_add, hbytes, append_assoc]
    exact strnlen_append h.bytes _
  unfold vpageCopyinstr
  rw [hget]
  dsimp only [bind_eq_bind, bind_some]
  rw [if_neg hpa, ← hn, hstr, if_neg (by omega), hbytes]
  rfl

theorem leNat_leBytes (n v : ℕ) : leNat (listBytes (leBytes n v)) 0 n = v % 256 ^ n := by
  induction n generalizing v with
  | zero => simp [leNat, Nat.mod_one]
  | succ n ih =>
    have htail : leNat (listBytes (leBytes (n + 1) v)) (0 + 1) n = leNat (listBytes (leBytes n (v / 256))) 0 n :=
      leNat_congr fun k _ => by
        rw [listBytes, listBytes, leBytes, Nat.zero_add, Nat.add_comm 1 k, getD_cons_succ, Nat.zero_add]
    have hhead : (listBytes (leBytes (n + 1) v) 0).toNat = v % 256 := by
      rw [listBytes, leBytes, getD_cons_zero, UInt8.toNat_ofNat']
    rw [leNat, htail, ih, hhead, Nat.pow_succ', Nat.mod_mul]

theorem Readable.word {w : ℕ} {rest : List UInt8} (h : Readable s root va (leBytes 8 w ++ rest))
    (hal : va % 8 = 0) : vpageCopyin s root va 8 = some (s, 0, leBytes 8 w) := by
  have hin := h.append_left.copyin (by rw [length_leBytes]; decide) (by
    rw [length_leBytes]
    simp only [pageSize]
    omega)
  rwa [length_leBytes] at hin

theorem getArgcLoop_spec {n : ℕ} {argvK ptrs : List ℕ}
    (hread : Readable s root (argv + 8 * argvK.length) ((ptrs ++ [0]).flatMap (leBytes 8)))
    (hptrs : ∀ ptr ∈ ptrs, ptr ≠ 0 ∧ ptr < 2 ^ 64) (hal : argv % 8 = 0)
    (hbound : argv + 8 * (argvK.length + ptrs.length + 1) ≤ 2 ^ 64) (hn : ptrs.length < n) :
    getArgcLoop root argv n argvK s = some (s, .ok (argvK ++ ptrs)) := by
  have hva : (argv + 8 * argvK.length) % 2 ^ 64 = argv + 8 * argvK.length := Nat.mod_eq_of_lt (by omega)
  induction ptrs generalizing n argvK with
  | nil =>
    obtain ⟨n, rfl⟩ : ∃ k, n = k + 1 := ⟨n - 1, by omega⟩
    rw [nil_append, flatMap_cons] at hread
    rw [getArgcLoop, hva, hread.word (by omega)]
    dsimp only [bind_eq_bind, bind_some]
    rw [if_neg (by decide), leNat_leBytes, if_pos (by decide), append_nil]
  | cons ptr ptrs ih =>
    obtain ⟨n, rfl⟩ : ∃ k, n = k + 1 := ⟨n - 1, by omega⟩
    rw [cons_append, flatMap_cons] at hread
    obtain ⟨hne, hlt⟩ := hptrs ptr mem_cons_self
    rw [length_cons] at hbound hn
    have hptr : leNat (listBytes (leBytes 8 ptr)) 0 8 = ptr :=
      (leNat_leBytes 8 ptr).trans (Nat.mod_eq_of_lt (by simpa using hlt))
    have hlen : (argvK ++ [ptr]).length = argvK.length + 1 := by simp
    have hrest := hread.append_right
    rw [length_leBytes, Nat.add_assoc, ← Nat.mul_succ] at hrest
    rw [getArgcLoop, hva, hread.word (by omega)]
    dsimp only [bind_eq_bind, bind_some]
    rw [if_neg (by decide), hptr, if_neg hne,
      ih (by rw [hlen]; exact hrest) (fun q hq => hptrs q (mem_cons_of_mem _ hq)) (by rw [hlen]; omega)
        (by omega) (Nat.mod_eq_of_lt (by rw [hlen]; omega)), append_assoc, singleton_append]

theorem ArgVector.getArgc {strs : List (List UInt8)} (h : ArgVector s root argv strs) :
    ∃ ptrs, getArgc s root argv = some (s, .ok ptrs) ∧ Forall₂ (IsString s root) ptrs strs := by
  obtain ⟨ptrs, hread, hall, hptrs⟩ := h.pointers
  have hlen := hptrs.length_eq
  have hfew := h.few
  have hbound := h.bound
  refine ⟨ptrs, ?_, hptrs⟩
  rw [Memory.getArgc, if_neg h.nonnull]
  exact getArgcLoop_spec hread hall h.aligned (by simp only [length_nil]; omega) (by omega)

end Reading

structure Stack (s : Kmem) (root page : ℕ) : Prop where
  table : Table s.mem 2 root
  apart : page ∉ tablesOf s.mem 2 root
  small : page < 2 ^ 52
  entry : entry s root ustackTop = makePte page (leafFlags (pteU ||| (pteR ||| pteW)))

structure Apart (s : Kmem) (root page : ℕ) : Prop where
  table : Table s.mem 2 root
  apart : page ∉ tablesOf s.mem 2 root
  unmapped : ∀ va, hasAny (entry s root va) pteV = true → getNextLvlPte (entry s root va) ≠ page

section Writing

variable {s s' : Kmem} {root old new page va sp : ℕ} {bs cs str : List UInt8}

theorem Apart.congr (h : Apart s root page) (hmem : ∀ q, q ≠ page → s'.mem q = s.mem q) :
    Apart s' root page ∧ ∀ va, walkLeaf s' root va = walkLeaf s root va ∧
      ∀ t i, walkLeaf s root va = some (t, i) → s'.mem t = s.mem t := by
  have hsame : ∀ q ∈ tablesOf s.mem 2 root, s'.mem q = s.mem q := fun q hq =>
    hmem q fun heq => h.apart (heq ▸ hq)
  obtain ⟨htable, htables⟩ := h.table.congr hsame
  have hslot : ∀ va, slot nextTable s'.mem (getVaVpn va) 2 root = slot nextTable s.mem (getVaVpn va) 2 root :=
    fun va => SameRefs.slot_eq (fun q hq i _ => by rw [hsame q (inner_subset hq)]) (getVaVpn_lt va)
  refine ⟨⟨htable, htables ▸ h.apart, fun va hv => ?_⟩, fun va => ⟨?_, fun t i hw => ?_⟩⟩
  · have hentry : entry s' root va = entry s root va := value_congr hsame (getVaVpn_lt va)
    rw [hentry] at hv ⊢
    exact h.unmapped va hv
  · rw [walkLeaf_eq htable, walkLeaf_eq h.table, hslot]
    refine bind_congr fun r hr => ?_
    rw [hsame r.1 (slot_mem hr (getVaVpn_lt va)).1]
  · rw [walkLeaf_eq h.table] at hw
    obtain ⟨r, hr, hw⟩ := bind_eq_some_iff.mp hw
    split at hw
    · cases hw
      exact hsame t (slot_mem hr (getVaVpn_lt va)).1
    · cases hw

theorem Apart.readable (h : Apart s root page) (hmem : ∀ q, q ≠ page → s'.mem q = s.mem q)
    (hr : Readable s root va bs) : Readable s' root va bs := fun k b hk => by
  obtain ⟨⟨t, i, hw, hflags⟩, a, htr, ha, hb⟩ := hr k b hk
  obtain ⟨-, hsame⟩ := h.congr hmem
  obtain ⟨hwalk, hleaf⟩ := hsame (va + k)
  have htable := hleaf t i hw
  obtain ⟨hpte, hv, -⟩ := walkLeaf_some h.table hw
  rw [translate, hw, map_some, some.injEq] at htr
  refine ⟨⟨t, i, hwalk.trans hw, by rw [htable]; exact hflags⟩, a, ?_, ha, ?_⟩
  · rw [translate, hwalk, hw, map_some, htable, htr]
  · have hpage : a / pageSize = getNextLvlPte (entry s root (va + k)) := by
      rw [← htr, ← hpte]
      simp only [pageSize]
      omega
    rw [← hb, Kmem.readByte, Kmem.readByte, hmem (a / pageSize) (hpage ▸ h.unmapped _ hv)]

theorem Apart.isString (h : Apart s root page) (hmem : ∀ q, q ≠ page → s'.mem q = s.mem q)
    (hs : IsString s root va str) : IsString s' root va str :=
  ⟨hs.bytes, hs.short, hs.page, h.readable hmem hs.readable⟩

theorem makePte_and {flags m : ℕ} (hm : m < 2 ^ 10) : makePte page flags &&& m = flags &&& m := by
  refine Nat.eq_of_testBit_eq fun k => ?_
  rw [Nat.testBit_and, Nat.testBit_and]
  by_cases hk : k < 10
  · rw [testBit_makePte hk]
  · rw [Nat.testBit_lt_two_pow (hm.trans_le (Nat.pow_le_pow_right (by decide) (by omega))), Bool.and_false,
      Bool.and_false]

theorem Stack.walk (h : Stack s root page) (hlo : ustackTop ≤ va) (hhi : va < ustack) :
    ∃ t i, walkLeaf s root va = some (t, i) ∧ s.mem t i = makePte page (leafFlags (pteU ||| (pteR ||| pteW))) := by
  have hv : hasAny (Memory.entry s root ustackTop) pteV = true := by rw [h.entry, leaf_valid]
  obtain ⟨t, i, hw, hpte⟩ := walkLeaf_of_entry h.table hv (by rw [h.entry, isANextLvlPtr_leaf]; decide)
  refine ⟨t, i, ?_, hpte.trans h.entry⟩
  rw [← hw]
  exact walkLeaf_same_page s root (by simp only [ustackTop, ustack, maxVa, pageSize] at *; omega)

theorem Stack.page_eq (h : Stack s root page) :
    getNextLvlPte (makePte page (leafFlags (pteU ||| (pteR ||| pteW)))) = page :=
  getNextLvlPte_makePte (leafFlags_lt (by decide)) h.small

section Stores

variable (h : Stack s root page) (hlo : ustackTop ≤ va)
include h hlo

theorem Stack.translate (hhi : va < ustack) :
    translate s root va = some (page * pageSize + (va - ustackTop)) := by
  obtain ⟨t, i, hw, hpte⟩ := h.walk hlo hhi
  have hoff : va % pageSize = va - ustackTop := by simp only [ustackTop, ustack, maxVa, pageSize] at *; omega
  rw [Memory.translate, hw, map_some, hpte, h.page_eq, hoff]

theorem Stack.getPa (hhi : va < ustack) :
    getPaFromVa s root va writeFlags = some (s, some (page * pageSize + (va - ustackTop))) := by
  obtain ⟨t, i, hw, hpte⟩ := h.walk hlo hhi
  have hoff : va % pageSize = va - ustackTop := by simp only [ustackTop, ustack, maxVa, pageSize] at *; omega
  have hcow : hasAny (makePte page (leafFlags (pteU ||| (pteR ||| pteW)))) pteCow = false :=
    (hasAny_leaf (by decide) (by decide) (by decide) (by decide)).trans (by decide)
  rw [getPaFromVa, hw]
  dsimp only
  rw [hpte, hcow, Bool.and_false, if_neg (by decide)]
  dsimp only [bind_eq_bind, bind_some]
  rw [if_neg (by decide), hpte, makePte_and (by decide), if_neg (by decide), h.page_eq, hoff]

theorem Stack.store (hhi : va + bs.length ≤ ustack) :
    (∀ q, q ≠ page → (s.memcpyTo (page * pageSize + (va - ustackTop)) bs).mem q = s.mem q) ∧
      Stack (s.memcpyTo (page * pageSize + (va - ustackTop)) bs) root page := by
  have hmem : ∀ q, q ≠ page → (s.memcpyTo (page * pageSize + (va - ustackTop)) bs).mem q = s.mem q :=
    fun q hq => Kmem.memcpyTo_mem_page_ne fun k hk => by
      rw [show (page * pageSize + (va - ustackTop) + k) / pageSize = page by
        simp only [ustackTop, ustack, maxVa, pageSize] at *
        omega]
      exact hq
  have hsame : ∀ q ∈ tablesOf s.mem 2 root,
      (s.memcpyTo (page * pageSize + (va - ustackTop)) bs).mem q = s.mem q := fun q hq =>
    hmem q fun heq => h.apart (heq ▸ hq)
  obtain ⟨htable, htables⟩ := h.table.congr hsame
  exact ⟨hmem, htable, htables ▸ h.apart, h.small, (value_congr hsame (getVaVpn_lt _)).trans h.entry⟩

theorem Stack.userByte (hhi : va < ustack) :
    userByte s root va = some (s.readByte (page * pageSize + (va - ustackTop))) := by
  rw [Memory.userByte, h.translate hlo hhi, map_some]

theorem Stack.holds (hhi : va + bs.length ≤ ustack) :
    Holds (s.memcpyTo (page * pageSize + (va - ustackTop)) bs) root va bs := fun k b hk => by
  obtain ⟨hlt, rfl⟩ := List.getElem?_eq_some_iff.mp hk
  rw [(h.store hlo hhi).2.userByte (by omega) (by omega),
    show page * pageSize + (va + k - ustackTop) = page * pageSize + (va - ustackTop) + k by omega,
    Kmem.readByte_memcpyTo_inside hlt]

theorem Stack.above {a : ℕ} (hhi : va + bs.length ≤ a)
    (ha : a + cs.length ≤ ustack) (hc : Holds s root a cs) :
    Holds (s.memcpyTo (page * pageSize + (va - ustackTop)) bs) root a cs := fun k b hk => by
  have hlt := (List.getElem?_eq_some_iff.mp hk).1
  have hb := hc k b hk
  rw [h.userByte (by omega) (by omega)] at hb
  rw [(h.store hlo (by omega)).2.userByte (by omega) (by omega), ← hb, Kmem.readByte_memcpyTo_outside (by omega)]

end Stores

theorem Placed.bound {lo hi : ℕ} {ptrs : List ℕ} {strs : List (List UInt8)}
    (h : Placed s root lo ptrs strs hi) : lo ≤ hi := by
  induction ptrs generalizing lo strs with
  | nil =>
    cases strs with
    | nil => exact h
    | cons str strs => exact h.elim
  | cons ptr ptrs ih =>
    cases strs with
    | nil => exact h.elim
    | cons str strs =>
      have := ih h.2.2
      have := h.1
      omega

theorem Placed.mono {lo lo' hi : ℕ} {ptrs : List ℕ} {strs : List (List UInt8)}
    (h : Placed s root lo ptrs strs hi) (hle : lo' ≤ lo) : Placed s root lo' ptrs strs hi := by
  cases ptrs <;> cases strs
  · exact hle.trans h
  · exact h.elim
  · exact h.elim
  · exact ⟨hle.trans h.1, h.2⟩

theorem Stack.placed {lo : ℕ} {ptrs : List ℕ} {strs : List (List UInt8)} (h : Stack s root page)
    (hlo : ustackTop ≤ va) (hhi : va + bs.length ≤ lo) (hp : Placed s root lo ptrs strs ustack) :
    Placed (s.memcpyTo (page * pageSize + (va - ustackTop)) bs) root lo ptrs strs ustack := by
  induction ptrs generalizing lo strs with
  | nil =>
    cases strs with
    | nil => exact hp
    | cons str strs => exact hp.elim
  | cons ptr ptrs ih =>
    cases strs with
    | nil => exact hp.elim
    | cons str strs =>
      obtain ⟨hle, hholds, hrest⟩ := hp
      have hbound := hrest.bound
      refine ⟨hle, h.above hlo (by omega) ?_ hholds, ih (by omega) hrest⟩
      rw [length_append, length_singleton]
      omega

theorem vpageCopyout_eq {pa : ℕ} (hg : getPaFromVa s root va writeFlags = some (s, some pa)) (hne : pa ≠ 0) :
    vpageCopyout s root va bs = some (s.memcpyTo pa bs, 0) := by
  unfold vpageCopyout
  rw [show (pteV ||| pteU ||| pteW : ℕ) = writeFlags from rfl, hg]
  dsimp only [bind_eq_bind, bind_some]
  rw [if_neg hne]

theorem vpageCopyoutstr_eq {pa : ℕ} (hg : getPaFromVa s root va writeFlags = some (s, some pa)) (hne : pa ≠ 0)
    (hb : ∀ b ∈ str, b ≠ 0) : vpageCopyoutstr s root va (str ++ [0]) (str.length + 1) =
      some (s.memcpyTo pa (str ++ [0]), ((str.length + 1 : ℕ) : ℤ)) := by
  have htake : (str ++ [0]).take (str.length + 1) = str ++ [0] := take_of_length_le (by simp)
  unfold vpageCopyoutstr
  rw [show (pteV ||| pteU ||| pteW : ℕ) = writeFlags from rfl, hg]
  dsimp only [bind_eq_bind, bind_some]
  rw [if_neg hne, htake, strnlen_append hb, if_neg (by omega), htake]
  rfl

theorem Stack.copyout (h : Stack s root page) (hlo : ustackTop < va) (hhi : va + bs.length ≤ ustack)
    (hpos : 0 < bs.length) :
    vpageCopyout s root va bs = some (s.memcpyTo (page * pageSize + (va - ustackTop)) bs, 0) :=
  vpageCopyout_eq (h.getPa hlo.le ((Nat.lt_add_of_pos_right hpos).trans_le hhi))
    (Nat.add_pos_right _ (Nat.sub_pos_of_lt hlo)).ne'

theorem Stack.copyoutstr (h : Stack s root page) (hb : ∀ b ∈ str, b ≠ 0) (hlo : ustackTop < va)
    (hhi : va + (str.length + 1) ≤ ustack) : vpageCopyoutstr s root va (str ++ [0]) (str.length + 1) =
      some (s.memcpyTo (page * pageSize + (va - ustackTop)) (str ++ [0]), ((str.length + 1 : ℕ) : ℤ)) :=
  vpageCopyoutstr_eq (h.getPa hlo.le ((Nat.lt_add_of_pos_right (Nat.succ_pos _)).trans_le hhi))
    (Nat.add_pos_right _ (Nat.sub_pos_of_lt hlo)).ne' hb

theorem transferArgs_step {arg : ℕ} {args argvTmp : List ℕ} {sp sp₁ : ℕ} {s₁ : Kmem}
    (harg : IsString s old arg str) (hsp : sp₁ = alignDown (sp - (str.length + 1)) stackAlign)
    (hout : vpageCopyoutstr s new sp₁ (str ++ [0]) (str.length + 1) = some (s₁, ((str.length + 1 : ℕ) : ℤ))) :
    transferArgs old new (arg :: args) argvTmp sp s = transferArgs old new args (sp₁ :: argvTmp) sp₁ s₁ := by
  have hnn : ¬ ((str.length + 1 : ℕ) : ℤ) < 0 := by omega
  rw [transferArgs, harg.copyin]
  dsimp only [bind_eq_bind, bind_some]
  rw [if_neg hnn, Int.toNat_natCast, ← hsp, hout]
  dsimp only [bind_some]
  rw [if_neg hnn]

theorem transferArgs_spec {args argvTmp : List ℕ} {strs done : List (List UInt8)} (hst : Stack s new page)
    (hap : Apart s old page) (hargs : Forall₂ (IsString s old) args strs) (hsp : sp % stackAlign = 0)
    (hlow : ustackTop + stackAlign * args.length < sp) (hp : Placed s new sp argvTmp done ustack) :
    ∃ s' sp' tmp, transferArgs old new args argvTmp sp s = some (s', .ok (tmp, sp')) ∧ Stack s' new page ∧
    sp' % stackAlign = 0 ∧ sp' ≤ sp ∧ sp ≤ sp' + stackAlign * args.length ∧ tmp.length =
    args.length + argvTmp.length ∧ Placed s' new sp' tmp (strs.reverse ++ done) ustack := by
  induction args generalizing s sp argvTmp strs done with
  | nil =>
    cases hargs
    exact ⟨s, sp, argvTmp, rfl, hst, hsp, le_refl _, by simp, by simp, hp⟩
  | cons arg args ih =>
    obtain ⟨str, strs, harg, hrest, rfl⟩ := forall₂_cons_left_iff.mp hargs
    rw [length_cons, Nat.mul_succ] at hlow
    obtain ⟨hsp₁, hend, hgap⟩ := alignDown_push hsp harg.short
      (harg.short.trans (by simp only [ustackTop, maxVa, pageSize, argMax] at *; omega))
    generalize hdef : alignDown (sp - (str.length + 1)) stackAlign = sp₁ at *
    have hbound := hp.bound
    have hlen : (str ++ [0]).length = str.length + 1 := by simp
    have hlo : ustackTop < sp₁ := by omega
    have hhi : sp₁ + (str.length + 1) ≤ ustack := by omega
    obtain ⟨hmem, hst₁⟩ := @Stack.store s new page sp₁ (str ++ [0]) hst hlo.le (by rw [hlen]; exact hhi)
    have hp₁ := @Stack.placed s new page sp₁ (str ++ [0]) sp argvTmp done hst hlo.le (by rw [hlen]; exact hend) hp
    have hholds := @Stack.holds s new page sp₁ (str ++ [0]) hst hlo.le (by rw [hlen]; exact hhi)
    have hstep : transferArgs old new (arg :: args) argvTmp sp s =
        transferArgs old new args (sp₁ :: argvTmp) sp₁ _ :=
      transferArgs_step harg hdef.symm (hst.copyoutstr harg.bytes hlo hhi)
    generalize s.memcpyTo (page * pageSize + (sp₁ - ustackTop)) (str ++ [0]) = s₁ at *
    have hp' : Placed s₁ new sp₁ (sp₁ :: argvTmp) (str :: done) ustack := ⟨le_refl _, hholds, hp₁.mono hend⟩
    obtain ⟨s', sp', tmp, hrun, hst', hal, hle, hge, htmp, hplaced⟩ := ih hst₁ (hap.congr hmem).1
      (hrest.imp fun _ _ h => hap.isString hmem h) hsp₁ (by omega) hp'
    refine ⟨s', sp', tmp, hstep.trans hrun, hst', hal, by omega, ?_, ?_, ?_⟩
    · rw [length_cons, Nat.mul_succ]
      omega
    · rw [htmp, length_cons, length_cons]
      omega
    · rw [reverse_cons, append_assoc]
      exact hplaced

theorem alignDown_table {n : ℕ} (hsp : sp % stackAlign = 0) (hn : (n + 1) * 8 + stackAlign ≤ sp) :
    alignDown (sp - (n + 1) * 8) stackAlign % stackAlign = 0 ∧
      alignDown (sp - (n + 1) * 8) stackAlign + 8 * (n + 1) ≤ sp ∧
      sp < alignDown (sp - (n + 1) * 8) stackAlign + 8 * (n + 1) + stackAlign := by
  simp only [alignDown, stackAlign] at *
  omega

theorem transferArgv_eq {argv sp₂ sp₃ : ℕ} {ptrs tmp : List ℕ} {s₁ s₂ s₃ : Kmem}
    (hargc : getArgc s old argv = some (s, .ok ptrs))
    (hmoved : transferArgs old new ptrs.reverse [] ustack s = some (s₁, .ok (tmp, sp)))
    (hsp₂ : sp₂ = alignDown (sp - (ptrs.length + 1) * 8) stackAlign)
    (hsp₃ : sp₃ = alignDown (sp₂ - 4) stackAlign)
    (hout₂ : vpageCopyout s₁ new sp₂ ((tmp ++ [0]).flatMap (leBytes 8)) = some (s₂, 0))
    (hout₃ : vpageCopyout s₂ new sp₃ (leBytes 4 ptrs.length) = some (s₃, 0)) :
    transferArgv s old new argv = some (s₃, .ok sp₃) := by
  rw [transferArgv, hargc]
  dsimp only [bind_eq_bind, bind_some]
  rw [hmoved]
  dsimp only [bind_some]
  rw [← hsp₂, hout₂]
  dsimp only [bind_some]
  rw [if_neg (by decide), ← hsp₃, hout₃]
  rfl

theorem transferArgv_spec {argv : ℕ} {strs : List (List UInt8)} (hst : Stack s new page) (hap : Apart s old page)
    (hargs : ArgVector s old argv strs) :
    ∃ s' sp, transferArgv s old new argv = some (s', .ok sp) ∧ ArgsAt s' new sp strs := by
  have hfew := hargs.few
  obtain ⟨ptrs, hargc, hstrs⟩ := hargs.getArgc
  have hlen := hstrs.length_eq
  obtain ⟨s₁, sp, tmp, hmoved, hst₁, hal, hle, hge, htmp, hplaced⟩ :=
    @transferArgs_spec s old new page ustack ptrs.reverse [] strs.reverse [] hst hap
      (forall₂_reverse_iff.mpr hstrs) (by decide) (by
        rw [length_reverse]
        simp only [ustackTop, ustack, maxVa, pageSize, stackAlign, execMaxArgs] at *
        omega) (le_refl _)
  rw [reverse_reverse, append_nil] at hplaced
  rw [length_reverse, length_nil, Nat.add_zero] at htmp
  rw [length_reverse] at hge
  have hroom : ustackTop + 200 < sp := by
    simp only [ustackTop, ustack, maxVa, pageSize, stackAlign, execMaxArgs] at *
    omega
  obtain ⟨hal₂, hend₂, hgap₂⟩ := @alignDown_table sp ptrs.length hal (by
    simp only [ustackTop, maxVa, pageSize, stackAlign, execMaxArgs] at *
    omega)
  generalize hsp₂ : alignDown (sp - (ptrs.length + 1) * 8) stackAlign = sp₂ at hal₂ hend₂ hgap₂
  have hsp₃ : alignDown (sp₂ - 4) stackAlign = sp₂ - 16 := by
    simp only [alignDown, stackAlign, ustackTop, maxVa, pageSize, execMaxArgs] at *
    omega
  obtain ⟨sp₃, rfl⟩ : ∃ k, sp₂ = k + 16 := ⟨sp₂ - 16, by
    simp only [stackAlign, ustackTop, maxVa, pageSize, execMaxArgs] at *
    omega⟩
  rw [Nat.add_sub_cancel] at hsp₃
  have hlo : ustackTop < sp₃ := by
    simp only [stackAlign, ustackTop, maxVa, pageSize, execMaxArgs] at *
    omega
  have hwords : ((tmp ++ [0]).flatMap (leBytes 8)).length = 8 * (ptrs.length + 1) := by
    rw [length_words, length_append, htmp, length_singleton]
  have hargcLen : (leBytes 4 ptrs.length).length = 4 := length_leBytes 4 _
  -- the table, then the count
  have hout₂ := @Stack.copyout s₁ new page (sp₃ + 16) ((tmp ++ [0]).flatMap (leBytes 8)) hst₁ (by omega)
    (by omega) (by omega)
  have htable := @Stack.holds s₁ new page (sp₃ + 16) ((tmp ++ [0]).flatMap (leBytes 8)) hst₁ (by omega) (by omega)
  have hst₂ := (@Stack.store s₁ new page (sp₃ + 16) ((tmp ++ [0]).flatMap (leBytes 8)) hst₁ (by omega)
    (by omega)).2
  have hplaced₂ := @Stack.placed s₁ new page (sp₃ + 16) ((tmp ++ [0]).flatMap (leBytes 8)) sp tmp strs hst₁
    (by omega) (by omega) hplaced
  generalize s₁.memcpyTo (page * pageSize + (sp₃ + 16 - ustackTop)) ((tmp ++ [0]).flatMap (leBytes 8)) = s₂
    at hout₂ htable hst₂ hplaced₂
  have hout₃ := @Stack.copyout s₂ new page sp₃ (leBytes 4 ptrs.length) hst₂ hlo (by omega) (by omega)
  have hcount := @Stack.holds s₂ new page sp₃ (leBytes 4 ptrs.length) hst₂ hlo.le (by omega)
  have htable₃ := @Stack.above s₂ new page sp₃ (leBytes 4 ptrs.length) _ hst₂ hlo.le (sp₃ + 16) (by omega)
    (by omega) htable
  have hplaced₃ := @Stack.placed s₂ new page sp₃ (leBytes 4 ptrs.length) sp tmp strs hst₂ hlo.le (by omega) hplaced₂
  refine ⟨_, sp₃, transferArgv_eq hargc hmoved hsp₂.symm hsp₃.symm hout₂ hout₃, ?_, hlo.le, ?_, tmp, ?_, htable₃, ?_⟩
  · simp only [stackAlign] at *
    omega
  · rw [← hlen]
    exact hcount
  · rw [htmp, hlen]
  · rw [← hlen]
    exact hplaced₃.mono hend₂

end Writing

/-- The arguments of the caller are found where `_start` looks for them. -/
theorem argv_survives_exec {s s₁ : Kmem} {p q : UTask} {ts : List UTask} {tramp argv : ℕ}
    {strs : List (List UInt8)} (hsys : System s ts) (hp : p ∈ ts)
    (himage : mmapUimage tramp s p = some (s₁, q, 0)) (hargs : ArgVector s₁ p.rootPtable argv strs) :
    ∃ s₂ sp, transferArgv s₁ p.rootPtable q.rootPtable argv = some (s₂, .ok sp) ∧
      ArgsAt s₂ q.rootPtable sp strs := by
  obtain ⟨-, s₂, s₃, stack, hready, hentry, ha, hm⟩ := mmapUimage_steps hsys.free himage (by decide)
  obtain ⟨-, ⟨taken, own, hb, hown⟩, hstack⟩ := hready.stack hsys.free hentry ha hm
  have hfree : stack ∈ s.freePages := hb.takes.mem_free (hb.own_taken stack hown)
  have hspace := hsys.space p hp
  have hsame : ∀ r ∈ tablesOf s.mem 2 p.rootPtable, s₁.mem r = s.mem r := fun r hr =>
    hb.frame r (hspace.used r hr)
  obtain ⟨htable, htables⟩ := hspace.table.congr hsame
  refine transferArgv_spec ⟨hb.table, hb.own_apart stack hown, hsys.free.small stack hfree, hstack⟩
    ⟨htable, ?_, fun va hv heq => ?_⟩ hargs
  · rw [htables]
    exact fun hin => hspace.used stack hin hfree
  · have hsame' : entry s₁ p.rootPtable va = entry s p.rootPtable va := value_congr hsame (getVaVpn_lt va)
    rw [hsame'] at hv heq
    exact (hsys.mapped p hp va hv).1 (heq ▸ hfree)

/-! A caller with the argument "sh" in its stack. -/

def readableTest (s : Kmem) (root va : ℕ) (bs : List UInt8) : Bool :=
  (List.range bs.length).all fun k =>
    ((walkLeaf s root (va + k)).any fun leaf => decide (s.mem leaf.1 leaf.2 &&& readFlags = readFlags)) &&
    (translate s root (va + k)).any fun a => decide (a ≠ 0) && decide (some (s.readByte a) = bs[k]?)

theorem readable_of_test {s : Kmem} {root va : ℕ} {bs : List UInt8} (h : readableTest s root va bs = true) :
    Readable s root va bs := fun k b hk => by
  have hlt := (List.getElem?_eq_some_iff.mp hk).1
  obtain ⟨hmap, htr⟩ := and_eq_true_iff.mp (List.all_eq_true.mp h k (List.mem_range.mpr hlt))
  obtain ⟨⟨t, i⟩, hw, hflags⟩ := (Option.any_eq_true _ _).mp hmap
  obtain ⟨a, ha, htest⟩ := (Option.any_eq_true _ _).mp htr
  obtain ⟨hne, hb⟩ := and_eq_true_iff.mp htest
  refine ⟨⟨t, i, hw, of_decide_eq_true hflags⟩, a, ha, of_decide_eq_true hne, ?_⟩
  exact Option.some.inj ((of_decide_eq_true hb).trans hk)

def shStack : List UInt8 := leBytes 8 (ustackTop + 16) ++ leBytes 8 0 ++ [115, 104, 0]

def withStack (s : Kmem) (p : UTask) : Kmem :=
  s.memcpyTo (getNextLvlPte (entry s p.rootPtable ustackTop) * pageSize) shStack

theorem withStack_space {s : Kmem} {p : UTask} (himage : mmapUimage 0 freshMem freshTask = some (s, p, 0)) :
    FreeList (withStack s p) ∧ Space (withStack s p) p.rootPtable := by
  obtain ⟨-, s₂, s₃, stack, hready, hentry, ha, hm⟩ := mmapUimage_steps freshMem_free himage (by decide)
  obtain ⟨-, ⟨taken, own, hb, hown⟩, hstack⟩ := hready.stack freshMem_free hentry ha hm
  have hsmall := freshMem_free.small stack (hb.takes.mem_free (hb.own_taken stack hown))
  obtain ⟨hb', -⟩ := @Image.store _ _ (withStack s p) _ _ _ _ hb freshMem_free (Kmem.memcpyTo_freePages ..)
    (Kmem.memcpyTo_pageRc ..) fun r _ hr => memcpyTo_page_frame (by decide) fun heq => hr (by
      rw [heq, hstack, getNextLvlPte_makePte (leafFlags_lt (by decide)) hsmall]
      exact hown)
  exact ⟨hb'.freeList freshMem_free, hb'.space freshMem_free⟩

def shTest (s : Kmem) (p : UTask) : Bool :=
  decide ((collectOf maps (withStack s p).mem 2 p.rootPtable).Nodup) &&
  decide (∀ q ∈ collectOf maps (withStack s p).mem 2 p.rootPtable, q ∉ (withStack s p).freePages) &&
  (mmapUimage 0 (withStack s p) p).any fun r => decide (r.2.2 = 0) &&
    readableTest r.1 p.rootPtable ustackTop ([ustackTop + 16, 0].flatMap (leBytes 8)) &&
    readableTest r.1 p.rootPtable (ustackTop + 16) [115, 104, 0]

theorem argv_survives_exec_sh : ∃ s p s₁ q s₂ sp, mmapUimage 0 freshMem freshTask = some (s, p, 0) ∧
    mmapUimage 0 (withStack s p) p = some (s₁, q, 0) ∧
    transferArgv s₁ p.rootPtable q.rootPtable ustackTop = some (s₂, .ok sp) ∧
    ArgsAt s₂ q.rootPtable sp [[115, 104]] := by
  obtain ⟨s, p, himage, htest⟩ := @exists_image shTest (by decide +kernel)
  obtain ⟨hsys, htest⟩ := and_eq_true_iff.mp htest
  obtain ⟨hnodup, hused⟩ := and_eq_true_iff.mp hsys
  obtain ⟨⟨s₁, q, res⟩, himage₁, htest⟩ := (any_eq_true _ _).mp htest
  obtain ⟨htest, hstr⟩ := and_eq_true_iff.mp htest
  obtain ⟨hres, hptrs⟩ := and_eq_true_iff.mp htest
  obtain rfl : res = 0 := of_decide_eq_true hres
  obtain ⟨hf, hspace⟩ := withStack_space himage
  have hstring : IsString s₁ p.rootPtable (ustackTop + 16) [115, 104] :=
    ⟨by decide +kernel, by decide, by decide, readable_of_test hstr⟩
  have hargs : ArgVector s₁ p.rootPtable ustackTop [[115, 104]] :=
    ⟨by decide, by decide, by decide, by decide, [ustackTop + 16], readable_of_test hptrs, by decide,
      Forall₂.cons hstring Forall₂.nil⟩
  obtain ⟨s₂, sp, hmoved, hat⟩ := argv_survives_exec
    (system_single hf hspace (of_decide_eq_true hnodup) (of_decide_eq_true hused)) (mem_singleton_self p)
    himage₁ hargs
  exact ⟨s, p, s₁, q, s₂, sp, himage, himage₁, hmoved, hat⟩

end RvMiniOs.Memory
