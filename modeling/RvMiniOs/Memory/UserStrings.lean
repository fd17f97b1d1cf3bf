import RvMiniOs.Memory.UserCopy

/-!
# Strings copied in from user memory

`vpage_copyinstr` looks for the terminator in the page of the first address only, and
reports a string that goes on in the next page as too long.
-/

namespace RvMiniOs.Memory

open Lib List Option

/-- The first NUL at or after `va` is `n` bytes away, and all bytes up to it can be read. -/
def StringAt (s : Kmem) (root va n : ℕ) : Prop :=
  (∀ k ≤ n, MappedWith s root (va + k) readFlags) ∧ (∀ k < n, userByte s root (va + k) ≠ some 0) ∧
    userByte s root (va + n) = some 0

/-- The first `max` bytes can be read and none of them is NUL. -/
def Endless (s : Kmem) (root va max : ℕ) : Prop :=
  ∀ k < max, MappedWith s root (va + k) readFlags ∧ userByte s root (va + k) ≠ some 0

/-- A string that ends before `max` is copied whole, one that does not is too long, and
anything else is a fault. -/
def CopyinstrMeets (s : Kmem) (root va max : ℕ) : Prop :=
  ∃ res dst, vpageCopyinstr s root va max = some (s, res, dst) ∧ dst.length ≤ max ∧
    (∀ n < max, StringAt s root va n →
      res = n + 1 ∧ dst.length = n + 1 ∧ ∀ k ≤ n, dst[k]? = userByte s root (va + k)) ∧
    (Endless s root va max → res = -enametoolong) ∧
    ((∀ n < max, ¬ StringAt s root va n) → ¬ Endless s root va max → res = -efault)

/-- The string ends in the page of `va`, or there are `max` bytes without an end, or `va`
itself cannot be read. Physical address 0 counts as unreadable. -/
def CopyinstrHoldsWhen (s : Kmem) (root va max : ℕ) : Prop :=
  (translate s root va ≠ some 0 ∧
    ((∃ n < max, n < pageSize - va % pageSize ∧ StringAt s root va n) ∨ Endless s root va max)) ∨
  ((MappedWith s root va readFlags → translate s root va = some 0) ∧
    (∀ n < max, ¬ StringAt s root va n) ∧ ¬ Endless s root va max)

section

variable {s : Kmem} {root va max pa n : ℕ}

theorem StringAt.not_endless (h : StringAt s root va n) (hn : n < max) : ¬ Endless s root va max :=
  fun hall => (hall n hn).2 h.2.2

theorem StringAt.unique {m : ℕ} (h : StringAt s root va n) (h' : StringAt s root va m) : n = m := by
  rcases Nat.lt_trichotomy n m with hlt | heq | hgt
  · exact absurd h.2.2 (h'.2.1 n hlt)
  · exact heq
  · exact absurd h'.2.2 (h.2.1 m hgt)

theorem getPaFromVa_read (s : Kmem) (root va : ℕ) : (¬ MappedWith s root va readFlags ∧
    getPaFromVa s root va readFlags = some (s, none)) ∨ ∃ pa, MappedWith s root va readFlags ∧
    translate s root va = some pa ∧ getPaFromVa s root va readFlags = some (s, some pa) := by
  have hw : hasAny readFlags pteW = false := by decide
  unfold getPaFromVa translate MappedWith
  cases hleaf : walkLeaf s root va with
  | none => exact .inl ⟨by simp, rfl⟩
  | some leaf =>
    obtain ⟨table, i⟩ := leaf
    simp only [hw, Bool.false_and, Bool.false_eq_true, if_false, bind_eq_bind, bind_some, ne_eq,
      not_true_eq_false]
    by_cases hflags : s.mem table i &&& readFlags = readFlags
    · rw [if_neg (not_not.mpr hflags)]
      exact .inr ⟨_, ⟨table, i, rfl, hflags⟩, rfl, rfl⟩
    · rw [if_pos hflags]
      refine .inl ⟨?_, rfl⟩
      rintro ⟨table', i', heq, hflags'⟩
      cases heq
      exact hflags hflags'

theorem userByte_same_page {k : ℕ} (hmap : MappedWith s root va readFlags) (hpa : translate s root va = some pa)
    (hk : k < pageSize - va % pageSize) :
    MappedWith s root (va + k) readFlags ∧ userByte s root (va + k) = some (s.readByte (pa + k)) := by
  have hpage : (va + k) / pageSize = va / pageSize := by simp only [pageSize] at *; omega
  have hoff : (va + k) % pageSize = va % pageSize + k := by simp only [pageSize] at *; omega
  have hwalk := walkLeaf_same_page s root hpage
  obtain ⟨table, i, hleaf, hflags⟩ := hmap
  refine ⟨⟨table, i, hwalk.trans hleaf, hflags⟩, ?_⟩
  rw [translate, hleaf, map_some, some.injEq] at hpa
  rw [userByte, translate, hwalk, hleaf, map_some, map_some, hoff, ← hpa, Nat.add_assoc]

theorem strnlen_memcpyFrom (s : Kmem) (a n : ℕ) : strnlen (s.memcpyFrom a n) ≤ n ∧
    (∀ k < strnlen (s.memcpyFrom a n), s.readByte (a + k) ≠ 0) ∧
    (strnlen (s.memcpyFrom a n) < n → s.readByte (a + strnlen (s.memcpyFrom a n)) = 0) := by
  induction n generalizing a with
  | zero => exact ⟨le_rfl, fun k hk => absurd hk (Nat.not_lt_zero k), fun h => absurd h (Nat.lt_irrefl 0)⟩
  | succ n ih =>
    rw [Kmem.memcpyFrom, strnlen, takeWhile_cons]
    by_cases hzero : s.readByte a = 0
    · rw [if_neg (by simpa using hzero)]
      exact ⟨Nat.zero_le _, fun k hk => absurd hk (Nat.not_lt_zero k), fun _ => hzero⟩
    · rw [if_pos (by simpa using hzero), length_cons]
      obtain ⟨hle, hbytes, hend⟩ := ih (a + 1)
      change strnlen (s.memcpyFrom (a + 1) n) + 1 ≤ n + 1 ∧ (∀ k < strnlen (s.memcpyFrom (a + 1) n) + 1, _) ∧
        (strnlen (s.memcpyFrom (a + 1) n) + 1 < n + 1 → _)
      refine ⟨by omega, fun k hk => ?_, fun hlt => ?_⟩
      · cases k with
        | zero => exact hzero
        | succ k =>
          rw [Nat.add_comm k 1, ← Nat.add_assoc]
          exact hbytes k (by omega)
      · rw [Nat.add_comm _ 1, ← Nat.add_assoc]
        exact hend (by omega)

theorem vpageCopyinstr_readable (max : ℕ) (hget : getPaFromVa s root va readFlags = some (s, some pa))
    (hpa : pa ≠ 0) : vpageCopyinstr s root va max =
    if strnlen (s.memcpyFrom pa (min (pageSize - va % pageSize) max)) =
    min (pageSize - va % pageSize) max then some (s, -enametoolong, []) else some (s,
    strnlen (s.memcpyFrom pa (min (pageSize - va % pageSize) max)) + 1,
    s.memcpyFrom pa (strnlen (s.memcpyFrom pa (min (pageSize - va % pageSize) max)) + 1)) := by
  change getPaFromVa s root va (pteV ||| pteU ||| pteR) = some (s, some pa) at hget
  rw [vpageCopyinstr, hget, bind_eq_bind, bind_some]
  dsimp only
  rw [if_neg hpa]

theorem vpageCopyinstr_fault (hget : getPaFromVa s root va readFlags = some (s, none) ∨
    getPaFromVa s root va readFlags = some (s, some 0)) :
    vpageCopyinstr s root va max = some (s, -efault, []) := by
  change getPaFromVa s root va (pteV ||| pteU ||| pteR) = some (s, none) ∨
    getPaFromVa s root va (pteV ||| pteU ||| pteR) = some (s, some 0) at hget
  rcases hget with hget | hget
  · rw [vpageCopyinstr, hget]
    rfl
  · rw [vpageCopyinstr, hget]
    rfl

theorem copyinstrMeets_fault_iff (hrun : vpageCopyinstr s root va max = some (s, -efault, [])) :
    CopyinstrMeets s root va max ↔ (∀ n < max, ¬ StringAt s root va n) ∧ ¬ Endless s root va max := by
  constructor
  · rintro ⟨res, dst, heq, -, hstr, hend, -⟩
    rw [hrun] at heq
    obtain ⟨rfl, rfl⟩ : -efault = res ∧ [] = dst := by simpa using heq
    refine ⟨fun n hn hat => ?_, fun hall => absurd (hend hall) (by decide)⟩
    exact absurd (hstr n hn hat).2.1 (by simp)
  · rintro ⟨hno, hshort⟩
    exact ⟨_, _, hrun, Nat.zero_le _, fun n hn hat => absurd hat (hno n hn), fun hall => absurd hall hshort,
      fun _ _ => rfl⟩

theorem copyinstrMeets_toolong_iff (hrun : vpageCopyinstr s root va max = some (s, -enametoolong, [])) :
    CopyinstrMeets s root va max ↔ Endless s root va max := by
  constructor
  · rintro ⟨res, dst, heq, -, hstr, -, hneither⟩
    rw [hrun] at heq
    obtain ⟨rfl, rfl⟩ : -enametoolong = res ∧ [] = dst := by simpa using heq
    by_contra hshort
    refine absurd (hneither (fun n hn hat => ?_) hshort) (by decide)
    exact absurd (hstr n hn hat).2.1 (by simp)
  · intro hall
    exact ⟨_, _, hrun, Nat.zero_le _, fun n hn hat => absurd hall (hat.not_endless hn), fun _ => rfl,
      fun _ hshort => absurd hall hshort⟩

theorem stringAt_of_strnlen (hmap : MappedWith s root va readFlags) (hpa : translate s root va = some pa)
    (hlt : strnlen (s.memcpyFrom pa (min (pageSize - va % pageSize) max)) < min (pageSize - va % pageSize) max) :
    StringAt s root va (strnlen (s.memcpyFrom pa (min (pageSize - va % pageSize) max))) := by
  obtain ⟨-, hbytes, hend⟩ := strnlen_memcpyFrom s pa (min (pageSize - va % pageSize) max)
  have hroom := lt_of_lt_of_le hlt (min_le_left _ _)
  refine ⟨fun k hk => (userByte_same_page hmap hpa (lt_of_le_of_lt hk hroom)).1, fun k hk => ?_, ?_⟩
  · rw [(userByte_same_page hmap hpa (hk.trans hroom)).2]
    exact fun h => hbytes k hk (some.inj h)
  · rw [(userByte_same_page hmap hpa hroom).2, hend hlt]

theorem copyinstrMeets_of_stored {m : ℕ} (hmap : MappedWith s root va readFlags) (hpa : translate s root va = some pa)
    (hat : StringAt s root va m) (hmax : m < max) (hroom : m < pageSize - va % pageSize)
    (hrun : vpageCopyinstr s root va max = some (s, (m : ℤ) + 1, s.memcpyFrom pa (m + 1))) :
    CopyinstrMeets s root va max := by
  refine ⟨_, _, hrun, ?_, fun n _ hn => ?_, fun hall => absurd hall (hat.not_endless hmax),
    fun hno => absurd hat (hno m hmax)⟩
  · rw [Kmem.length_memcpyFrom]
    exact hmax
  · obtain rfl := hat.unique hn
    refine ⟨rfl, Kmem.length_memcpyFrom s pa _, fun k hk => ?_⟩
    rw [Kmem.getElem?_memcpyFrom (Nat.lt_succ_of_le hk), (userByte_same_page hmap hpa (lt_of_le_of_lt hk hroom)).2]

end

/-- `vpage_copyinstr` meets its description exactly when the string ends in its first page,
when it has no end within `max` readable bytes, or when its first byte cannot be read. -/
theorem copyinstr_meets_iff (s : Kmem) (root va max : ℕ) (hmax : 1 ≤ max) :
    CopyinstrMeets s root va max ↔ CopyinstrHoldsWhen s root va max := by
  rcases getPaFromVa_read s root va with ⟨hunmapped, hget⟩ | ⟨pa, hmap, htrans, hget⟩
  · -- The first byte cannot be read, so there is no string and no run of `max` bytes.
    have hno : ∀ n < max, ¬ StringAt s root va n := fun n _ hat => hunmapped (hat.1 0 (Nat.zero_le n))
    have hshort : ¬ Endless s root va max := fun hall => hunmapped (hall 0 hmax).1
    rw [copyinstrMeets_fault_iff (vpageCopyinstr_fault (.inl hget))]
    exact ⟨fun _ => .inr ⟨fun h => absurd h hunmapped, hno, hshort⟩, fun _ => ⟨hno, hshort⟩⟩
  by_cases hpa : pa = 0
  · subst hpa
    rw [copyinstrMeets_fault_iff (vpageCopyinstr_fault (.inr hget)), CopyinstrHoldsWhen, htrans]
    simp only [ne_eq, not_true_eq_false, false_and, implies_true, true_and, false_or]
  have hne : translate s root va ≠ some 0 := by
    rw [htrans]
    exact fun h => hpa (some.inj h)
  have hrun := vpageCopyinstr_readable max hget hpa
  obtain ⟨hle, hbytes, -⟩ := strnlen_memcpyFrom s pa (min (pageSize - va % pageSize) max)
  rcases hle.lt_or_eq with hlt | heq
  · -- The terminator is in the page.
    have hat := stringAt_of_strnlen hmap htrans hlt
    obtain ⟨hroom, hbound⟩ := lt_min_iff.mp hlt
    rw [if_neg hlt.ne] at hrun
    exact ⟨fun _ => .inl ⟨hne, .inl ⟨_, hbound, hroom, hat⟩⟩,
      fun _ => copyinstrMeets_of_stored hmap htrans hat hbound hroom hrun⟩
  · rw [if_pos heq] at hrun
    rw [copyinstrMeets_toolong_iff hrun]
    refine ⟨fun hall => .inl ⟨hne, .inr hall⟩, ?_⟩
    rintro (⟨-, ⟨n, hn, hroom, hat⟩ | hall⟩ | ⟨hzero, -⟩)
    · -- A string that ends in the page would have been found.
      have hbyte := hat.2.2
      rw [(userByte_same_page hmap htrans hroom).2] at hbyte
      exact absurd (some.inj hbyte) (hbytes n ((lt_min hroom hn).trans_eq heq.symm))
    · exact hall
    · exact absurd (hzero hmap) hne

/-- The only page holds `"ls"` at address 8. -/
def wordSpace : Kmem := onePageSpace.setWord 0x80403 1 0x736c

theorem copyinstr_meets_word : CopyinstrMeets wordSpace 0x80400 8 16 ∧
    (vpageCopyinstr wordSpace 0x80400 8 16).map (·.2) = some (3, [0x6c, 0x73, 0]) := by
  refine ⟨(copyinstr_meets_iff wordSpace 0x80400 8 16 (by decide)).mpr
    (.inl ⟨by decide, .inl ⟨2, by decide, by decide, ?_⟩⟩), by decide⟩
  have hbytes : ∀ k < 2, userByte wordSpace 0x80400 (8 + k) ≠ some 0 := by decide
  refine ⟨fun k hk => ?_, hbytes, by decide⟩
  have hmapped : ∀ k < 3, walkLeaf wordSpace 0x80400 (8 + k) = some (0x80402, 0) := by decide
  exact ⟨0x80402, 0, hmapped k (by omega), by decide⟩

/-- Two user pages at addresses 0 and 4096; the last byte of the first is `'a'`. -/
def twoPageSpace : Kmem :=
  { onePageSpace with
    mem := Function.update (Function.update onePageSpace.mem
      0x80402 (Function.update (onePageSpace.mem 0x80402) 1 (makePte 0x80404 (leafFlags (pteU ||| pteR ||| pteW)))))
      0x80403 (Function.update (fun _ => 0) 511 (0x61 <<< 56)) }

/-- The string `"a"` with its terminator on the next page is reported as too long. -/
theorem copyinstr_across_pages : ¬ CopyinstrMeets twoPageSpace 0x80400 4095 16 := by
  rintro ⟨res, dst, heq, -, hstr, -⟩
  have hrun : (vpageCopyinstr twoPageSpace 0x80400 4095 16).map (fun r => r.2.1) = some (-enametoolong) := by decide
  have hat : StringAt twoPageSpace 0x80400 4095 1 := by
    refine ⟨fun k hk => ?_, fun k hk => ?_, by decide⟩
    · interval_cases k
      · exact ⟨0x80402, 0, by decide, by decide⟩
      · exact ⟨0x80402, 1, by decide, by decide⟩
    · obtain rfl := Nat.lt_one_iff.mp hk
      decide
  rw [heq, map_some, some.injEq] at hrun
  obtain ⟨hres, -⟩ := hstr 1 (by decide) hat
  exact absurd (hrun.symm.trans hres) (by decide)

end RvMiniOs.Memory
