import RvMiniOs.Memory.Vpages

/-!
# Copies between kernel buffers and user memory

`vpage_copyin` and `vpage_copyout` translate the first address of the range and
then copy physically contiguous bytes. The two `Meets` predicates state what a
copy through the page table, byte by byte, would guarantee; the two `HoldsWhen`
predicates are the exact page-table conditions under which the code does so.
-/

namespace RvMiniOs.Memory

open Lib List Option

abbrev readFlags : ℕ := pteV ||| pteU ||| pteR
abbrev writeFlags : ℕ := pteV ||| pteU ||| pteW

/-- The physical address that `walk_leaf` translates `va` to. -/
def translate (s : Kmem) (root va : ℕ) : Option ℕ :=
  (walkLeaf s root va).map fun leaf =>
    getNextLvlPte (s.mem leaf.1 leaf.2) * pageSize + va % pageSize

def userByte (s : Kmem) (root va : ℕ) : Option UInt8 := (translate s root va).map s.readByte

/-- The page holding `va` is mapped with all the flags of `needed`. -/
def MappedWith (s : Kmem) (root va needed : ℕ) : Prop :=
  ∃ table i, walkLeaf s root va = some (table, i) ∧ s.mem table i &&& needed = needed

/-- On success every page of the range is user-readable and byte `k` of the
buffer is the byte at `va + k`; any other outcome is `-EFAULT`. -/
def CopyinMeets (s : Kmem) (root va count : ℕ) : Prop :=
  ∃ s' res dst, vpageCopyin s root va count = some (s', res, dst) ∧
    (res = -efault ∨ res = 0 ∧ ∀ k < count, MappedWith s root (va + k) readFlags ∧
      ∃ a, translate s root (va + k) = some a ∧ dst[k]? = some (s.readByte a))

/-- On success, with `s₁` the state in which copy-on-write has been resolved,
every page of the range is user-writable, the byte at `va + k` becomes byte `k`
of the buffer and no other byte changes; any other outcome is `-EFAULT`. -/
def CopyoutMeets (s : Kmem) (root va : ℕ) (src : List UInt8) : Prop :=
  ∃ s₁ pa s' res, getPaFromVa s root va writeFlags = some (s₁, pa) ∧
    vpageCopyout s root va src = some (s', res) ∧
    (res = -efault ∨ res = 0 ∧
      (∀ k < src.length, MappedWith s₁ root (va + k) writeFlags ∧
        ∃ a, translate s₁ root (va + k) = some a ∧ some (s'.readByte a) = src[k]?) ∧
      ∀ a, (∀ k < src.length, translate s₁ root (va + k) ≠ some a) →
        s'.readByte a = s₁.readByte a)

/-- Either `va` itself is rejected, or every page of the range is user-readable
and holds the bytes that physically follow the byte at `va`. -/
def CopyinHoldsWhen (s : Kmem) (root va count : ℕ) : Prop :=
  ∀ pa, getPaFromVa s root va readFlags = some (s, some pa) → pa ≠ 0 →
    ∀ k < count, MappedWith s root (va + k) readFlags ∧
      ∃ a, translate s root (va + k) = some a ∧ s.readByte a = s.readByte (pa + k)

/-- Resolving the page of `va` does not panic, and either rejects `va` or leaves
every page of the range user-writable at consecutive physical addresses. -/
def CopyoutHoldsWhen (s : Kmem) (root va count : ℕ) : Prop :=
  ∃ s₁ pa, getPaFromVa s root va writeFlags = some (s₁, pa) ∧
    ∀ a, pa = some a → a ≠ 0 → ∀ k < count,
      MappedWith s₁ root (va + k) writeFlags ∧ translate s₁ root (va + k) = some (a + k)

theorem getPaFromVa_readFlags (s : Kmem) (root va : ℕ) :
    ∃ pa, getPaFromVa s root va readFlags = some (s, pa) := by
  unfold getPaFromVa
  have hw : hasAny readFlags pteW = false := by decide
  cases walkLeaf s root va with
  | none => exact ⟨none, rfl⟩
  | some leaf =>
    simp only [hw, Bool.false_and, Bool.false_eq_true, if_false, bind_eq_bind,
      bind_some, ne_eq, not_true_eq_false]
    split_ifs <;> exact ⟨_, rfl⟩

theorem copyinMeets_iff (s : Kmem) (root va count : ℕ) :
    CopyinMeets s root va count ↔ CopyinHoldsWhen s root va count := by
  obtain ⟨pa, hpa⟩ := getPaFromVa_readFlags s root va
  unfold CopyinMeets CopyinHoldsWhen vpageCopyin
  rw [show (pteV ||| pteU ||| pteR : ℕ) = readFlags from rfl, hpa]
  cases pa with
  | none => simp
  | some a =>
    by_cases ha : a = 0
    · subst ha
      simp
    · constructor
      · rintro ⟨s', res, dst, heq, hres⟩ pa hpa' - k hk
        simp only [bind_eq_bind, bind_some, ha, if_false, some.injEq, Prod.mk.injEq] at heq hpa'
        obtain ⟨rfl, rfl, rfl⟩ := heq
        obtain ⟨-, rfl⟩ := hpa'
        obtain hres | ⟨-, hres⟩ := hres
        · exact absurd hres (by decide)
        · obtain ⟨hmap, b, hb, hbyte⟩ := hres k hk
          rw [Kmem.getElem?_memcpyFrom hk, some.injEq] at hbyte
          exact ⟨hmap, b, hb, hbyte.symm⟩
      · intro h
        refine ⟨s, 0, s.memcpyFrom a count, by simp [ha], Or.inr ⟨rfl, ?_⟩⟩
        intro k hk
        obtain ⟨hmap, b, hb, hbyte⟩ := h a rfl ha k hk
        exact ⟨hmap, b, hb, by rw [Kmem.getElem?_memcpyFrom hk, hbyte]⟩

/-- A buffer of zeros with a one at position `k`: it tells apart the positions
that a misdirected copy would confuse. -/
def probe (count k : ℕ) : List UInt8 := (List.range count).map fun j => if j = k then 1 else 0

@[simp] theorem length_probe (count k : ℕ) : (probe count k).length = count := by simp [probe]

theorem probe_getElem? {count k j : ℕ} (hj : j < count) :
    (probe count k)[j]? = some (if j = k then 1 else 0) := by
  simp [probe, hj]

theorem copyout_contiguous {s₁ : Kmem} {root va count pa k a : ℕ} (hk : k < count)
    (hprobe : ∀ src : List UInt8, src.length = count → ∃ b, translate s₁ root (va + k) = some b ∧
        some ((s₁.memcpyTo pa src).readByte b) = src[k]?)
    (ha : translate s₁ root (va + k) = some a) : a = pa + k := by
  have key : ∀ src : List UInt8, src.length = count →
      some ((s₁.memcpyTo pa src).readByte a) = src[k]? := by
    intro src hlen
    obtain ⟨b, hb, hbyte⟩ := hprobe src hlen
    rw [ha, some.injEq] at hb
    exact hb ▸ hbyte
  have hone := key (probe count k) (length_probe _ _)
  rw [probe_getElem? hk, if_pos rfl, some.injEq] at hone
  by_cases hin : pa ≤ a ∧ a < pa + count
  · obtain ⟨j, rfl⟩ : ∃ j, a = pa + j := ⟨a - pa, by omega⟩
    have hj : j < (probe count k).length := by rw [length_probe]; omega
    have hval := probe_getElem? (k := k) (show j < count by omega)
    rw [Kmem.readByte_memcpyTo_inside hj] at hone
    rw [getElem?_eq_getElem hj, hone, some.injEq] at hval
    by_cases hjk : j = k
    · rw [hjk]
    · rw [if_neg hjk] at hval
      exact absurd hval (by decide)
  · have hzero := key (probe count count) (length_probe _ _)
    rw [probe_getElem? hk, if_neg (by omega), some.injEq] at hzero
    rw [Kmem.readByte_memcpyTo_outside (by rw [length_probe]; omega)] at hone hzero
    rw [hone] at hzero
    exact absurd hzero (by decide)

theorem copyoutMeets_iff (s : Kmem) (root va count : ℕ) : (∀ src : List UInt8, src.length = count →
    CopyoutMeets s root va src) ↔ CopyoutHoldsWhen s root va count := by
  unfold CopyoutMeets CopyoutHoldsWhen vpageCopyout
  rw [show (pteV ||| pteU ||| pteW : ℕ) = writeFlags from rfl]
  constructor
  · intro h
    obtain ⟨s₁, pa, -, -, hpa, -⟩ := h (probe count 0) (length_probe _ _)
    refine ⟨s₁, pa, hpa, ?_⟩
    rintro a rfl ha k hk
    have hbyte : ∀ src : List UInt8, src.length = count →
        MappedWith s₁ root (va + k) writeFlags ∧ ∃ b, translate s₁ root (va + k) = some b ∧
          some ((s₁.memcpyTo a src).readByte b) = src[k]? := by
      intro src hlen
      obtain ⟨s₂, pa₂, s', res, heq, hcopy, hres⟩ := h src hlen
      rw [hpa, some.injEq, Prod.mk.injEq] at heq
      obtain ⟨rfl, rfl⟩ := heq
      simp only [hpa, bind_eq_bind, bind_some, ha, if_false, some.injEq, Prod.mk.injEq] at hcopy
      obtain ⟨rfl, rfl⟩ := hcopy
      obtain hres | ⟨-, hres, -⟩ := hres
      · exact absurd hres (by decide)
      · exact hres k (by omega)
    obtain ⟨hmap, b, hb, -⟩ := hbyte (probe count 0) (length_probe _ _)
    have hba := copyout_contiguous hk (fun src hlen => (hbyte src hlen).2) hb
    exact ⟨hmap, hba ▸ hb⟩
  · rintro ⟨s₁, pa, hpa, hcond⟩ src rfl
    cases pa with
    | none => exact ⟨s₁, none, s₁, -efault, hpa, by simp [hpa], Or.inl rfl⟩
    | some a =>
      by_cases ha : a = 0
      · exact ⟨s₁, some a, s₁, -efault, hpa, by simp [hpa, ha], Or.inl rfl⟩
      · refine ⟨s₁, some a, s₁.memcpyTo a src, 0, hpa, by simp [hpa, ha], Or.inr ⟨rfl, ?_, ?_⟩⟩
        · intro k hk
          obtain ⟨hmap, htr⟩ := hcond a rfl ha k hk
          refine ⟨hmap, a + k, htr, ?_⟩
          rw [Kmem.readByte_memcpyTo_inside hk, getElem?_eq_getElem hk]
        · intro b hb
          apply Kmem.readByte_memcpyTo_outside
          by_contra hin
          refine hb (b - a) (by omega) ?_
          rw [(hcond a rfl ha (b - a) (by omega)).2, show a + (b - a) = b by omega]

/-- The copies meet their byte-by-byte contract exactly when the pages after the
first one happen to continue it. -/
theorem userCopies_meet_iff (s : Kmem) (root va count : ℕ) :
    (CopyinMeets s root va count ↔ CopyinHoldsWhen s root va count) ∧
    ((∀ src : List UInt8, src.length = count → CopyoutMeets s root va src) ↔
      CopyoutHoldsWhen s root va count) :=
  ⟨copyinMeets_iff s root va count, copyoutMeets_iff s root va count⟩

theorem getVaVpn_same_page {va vb : ℕ} (h : va / pageSize = vb / pageSize) (lvl : ℕ) :
    getVaVpn va lvl = getVaVpn vb lvl := by
  have hsplit : (2 : ℕ) ^ (pageShift + 9 * lvl) = pageSize * 2 ^ (9 * lvl) := by
    rw [pow_add]
    norm_num
  rw [getVaVpn, getVaVpn, hsplit, ← Nat.div_div_eq_div_mul, ← Nat.div_div_eq_div_mul, h]

theorem walkLeaf_same_page {va vb : ℕ} (s : Kmem) (root : ℕ) (h : va / pageSize = vb / pageSize) :
    walkLeaf s root va = walkLeaf s root vb := by
  simp only [walkLeaf, walkLeafFrom, getVaVpn_same_page h]

def onePageSpace : Kmem :=
  { mem := Function.update (Function.update (Function.update (fun _ _ => 0)
      0x80400 (Function.update (fun _ => 0) 0 (makePte 0x80401 pteV)))
      0x80401 (Function.update (fun _ => 0) 0 (makePte 0x80402 pteV)))
      0x80402 (Function.update (fun _ => 0) 0 (makePte 0x80403 (leafFlags (pteU ||| pteR ||| pteW))))
    pageRc := fun _ => 1
    freePages := [] }

/-- Two bytes copied in from the last byte of the only mapped page: the call
succeeds although the second byte lies on an unmapped page. -/
theorem copyin_across_unmapped_page : ¬ CopyinMeets onePageSpace 0x80400 4095 2 := by
  rintro ⟨s', res, dst, heq, hres⟩
  have hrun : (vpageCopyin onePageSpace 0x80400 4095 2).map (fun r => r.2.1) = some 0 := by decide
  have hunmapped : walkLeaf onePageSpace 0x80400 (4095 + 1) = none := by decide
  rw [heq, map_some, some.injEq] at hrun
  change res = 0 at hrun
  obtain hres | ⟨-, hres⟩ := hres
  · rw [hrun] at hres
    exact absurd hres (by decide)
  · obtain ⟨⟨table, i, hleaf, -⟩, -⟩ := hres 1 (by decide)
    rw [hunmapped] at hleaf
    exact absurd hleaf (by simp)

end RvMiniOs.Memory
