import RvMiniOs.Memory.Exec

/-!
# What exec does to the old tree

A successful `task_exec` frees the tree that the task had before, whoever else uses it.
-/

namespace RvMiniOs.Memory

open Lib Lib.TableTree List Option

abbrev wordsOf (mem : ℕ → ℕ → ℕ) (root : ℕ) : List ℕ := words nextTable wordsPerPage mem 2 root

def refers (q pte : ℕ) : Bool := hasAny pte pteV && !hasAny pte pteG && decide (getNextLvlPte pte = q)

/-- The number of valid entries, global ones apart, that map `q` in the tree of `root`. -/
def references (s : Kmem) (root q : ℕ) : ℕ := (wordsOf s.mem root).countP (refers q)

def Maps (s : Kmem) (t : UTask) (q : ℕ) : Prop := ∃ va, refers q (entry s t.rootPtable va) = true

/-- Page counts are exact: a root counts its tasks, any other table is referred to once,
and a mapped page counts the entries that map it. -/
structure Counted (s : Kmem) (ts : List UTask) : Prop where
  root : ∀ t ∈ ts, s.pageRc t.rootPtable = (ts.map UTask.rootPtable).count t.rootPtable
  table : ∀ t ∈ ts, ∀ q ∈ tablesOf s.mem 2 t.rootPtable, q ≠ t.rootPtable → s.pageRc q = 1
  page : ∀ t ∈ ts, ∀ q, Maps s t q →
    s.pageRc q = ((ts.map UTask.rootPtable).dedup.map fun root => references s root q).sum

def Private (s : Kmem) (p : UTask) (others : List UTask) (q : ℕ) : Prop :=
  Maps s p q ∧ ∀ t ∈ others, ¬ Maps s t q

/-- The effect of an exec of `p` is confined to `p`, and returns what only `p` used. -/
structure Confined (s s' : Kmem) (p : UTask) (others : List UTask) : Prop where
  view : ∀ t ∈ others, ∀ va, leafPte s' t.rootPtable va = leafPte s t.rootPtable va
  pages : ∀ t ∈ others, ∀ va pte, leafPte s t.rootPtable va = some pte →
    s'.mem (getNextLvlPte pte) = s.mem (getNextLvlPte pte)
  root : ∀ t ∈ others, t.rootPtable = p.rootPtable → p.rootPtable ∉ s'.freePages
  returned : (∀ t ∈ others, t.rootPtable ≠ p.rootPtable) →
    (∀ q ∈ tablesOf s.mem 2 p.rootPtable, q ∈ s'.freePages) ∧ ∀ q, Private s p others q → q ∈ s'.freePages

/-- No other task has the tree of `p`, and no private page is mapped without rights. -/
structure Alone (s : Kmem) (p : UTask) (others : List UTask) : Prop where
  root : ∀ t ∈ others, t.rootPtable ≠ p.rootPtable
  rights : ∀ va q, Private s p others q → refers q (entry s p.rootPtable va) = true →
    isANextLvlPtr (entry s p.rootPtable va) = false

section

variable {s s' s₁ : Kmem} {root q : ℕ} {taken own lost : List ℕ} {p t : UTask} {others ts : List UTask}

theorem refers_zero (q : ℕ) : refers q 0 = false := by
  rw [refers, show hasAny 0 pteV = false by decide]
  rfl

theorem exists_word_iff {P : ℕ → Prop} (h0 : ¬ P 0) :
    (∃ w ∈ wordsOf s.mem root, P w) ↔ ∃ va, P (entry s root va) := by
  constructor
  · rintro ⟨w, hw, hP⟩
    obtain ⟨key, hkey, r, i, hs, rfl⟩ := mem_words.mp hw
    obtain ⟨va, hva⟩ := exists_va hkey
    refine ⟨va, ?_⟩
    have hslot : slot nextTable s.mem (getVaVpn va) 2 root = some (r, i) := by
      rw [← hs]
      simp only [slot, hva 0 (by omega), hva 1 (by omega), hva 2 (by omega)]
    rw [entry, value_of_slot hslot]
    exact hP
  · rintro ⟨va, hP⟩
    cases hs : slot nextTable s.mem (getVaVpn va) 2 root with
    | none =>
      rw [entry, value_of_none hs] at hP
      exact absurd hP h0
    | some r =>
      rw [entry, value_of_slot hs] at hP
      exact ⟨_, mem_words.mpr ⟨_, getVaVpn_lt va, r.1, r.2, hs, rfl⟩, hP⟩

theorem references_pos_iff : 0 < references s root q ↔ ∃ va, refers q (entry s root va) = true := by
  rw [references, countP_pos_iff]
  exact exists_word_iff (by rw [refers_zero]; decide)

theorem references_pos : 0 < references s t.rootPtable q ↔ Maps s t q := references_pos_iff

theorem count_leafPut (ws : List ℕ) (q : ℕ) :
    (ws.flatMap leafPut).count q = ws.countP fun pte => refers q pte && !isANextLvlPtr pte := by
  induction ws with
  | nil => rfl
  | cons w ws ih =>
    rw [flatMap_cons, count_append, ih, countP_cons, Nat.add_comm]
    congr 1
    unfold leafPut refers
    cases hasAny w pteV <;> cases hasAny w pteG <;> cases isANextLvlPtr w <;> simp [count_singleton]

theorem count_puts (hq : q ∉ tablesOf s.mem 2 root) : (puts s.mem 2 root).count q =
    (wordsOf s.mem root).countP fun pte => refers q pte && !isANextLvlPtr pte := by
  have hnot : (collectOf (fun _ => []) s.mem 2 root).count q = 0 :=
    count_eq_zero.mpr fun hin => hq (tables_of_mem_collect hin)
  rw [puts, collectOf, collect_perm.count_eq, count_append, count_leafPut]
  exact Nat.add_eq_left.mpr hnot

theorem count_puts_eq_iff (hq : q ∉ tablesOf s.mem 2 root) :
    (puts s.mem 2 root).count q = references s root q ↔
      ∀ va, refers q (entry s root va) = true → isANextLvlPtr (entry s root va) = false := by
  have hsplit : references s root q =
      (wordsOf s.mem root).countP (fun pte => refers q pte && !isANextLvlPtr pte) +
        (wordsOf s.mem root).countP fun pte => refers q pte && !!isANextLvlPtr pte := by
    rw [references, countP_eq_countP_filter_add _ _ fun pte => !isANextLvlPtr pte, countP_filter,
      countP_filter]
  have hnone : ((wordsOf s.mem root).countP fun pte => refers q pte && !!isANextLvlPtr pte) = 0 ↔
      ∀ va, refers q (entry s root va) = true → isANextLvlPtr (entry s root va) = false := by
    rw [countP_eq_zero]
    have hword := not_congr (@exists_word_iff s root
      (fun pte => (refers q pte && !!isANextLvlPtr pte) = true) (by rw [refers_zero]; decide))
    simpa only [not_exists, not_and, Bool.and_eq_true, Bool.not_not, Bool.not_eq_true] using hword
  rw [count_puts hq, hsplit, ← hnone]
  omega

theorem taskExec_ok {tramp argv : ℕ} {hs ps : Bytes} {env : TrapEnv} {p' : UTask} {elf elf' : File} {res : ℤ}
    (hf : FreeList s) (hi : Idle s) (h : taskExec env tramp hs ps s p elf argv = some (s', p', elf', res))
    (hres : ¬ res < 0) : ∃ s₁ taken own lost, Image s s₁ p'.rootPtable taken own lost ∧
      vpageTreeFree s₁ p.rootPtable = some s' := by
  unfold taskExec at h
  split at h
  · cases h
  · obtain ⟨⟨s₁, r, elf₁, loaded⟩, hload, h⟩ := bind_eq_some_iff.mp h
    cases loaded with
    | error e =>
      obtain ⟨hneg, -⟩ := loadElfImage_error hf hi hload
      cases h
      exact absurd hneg hres
    | ok entry =>
      obtain ⟨-, -, taken, own, lost, himage, hframe⟩ := loadElfImage_ok hf hi hload
      obtain ⟨⟨s₂, moved⟩, hmoved, h⟩ := bind_eq_some_iff.mp h
      obtain ⟨hstores, hneg⟩ := himage.transferArgv hf hmoved
      cases moved with
      | error e =>
        cases h
        exact absurd (hneg _ rfl) hres
      | ok sp =>
        obtain ⟨s₃, hfree, h⟩ := bind_eq_some_iff.mp h
        cases h
        exact ⟨_, taken, own, lost, (himage.stores hf hstores).stores hf (tframe_stores hframe), hfree⟩

/-- The old tree is wiped, and every page whose references are all put is free. -/
structure Freed (s s' : Kmem) (root : ℕ) : Prop where
  frame : ∀ q, q ∉ s.freePages → q ∉ tablesOf s.mem 2 root → s'.mem q = s.mem q
  table : Table s'.mem 2 root
  wiped : ∀ va, entry s' root va = wiped (entry s root va)
  free : ∀ q, q ∉ s.freePages →
    (q ∈ s'.freePages ↔ q ∈ puts s.mem 2 root ∧ s.pageRc q = (puts s.mem 2 root).count q)
  enough : ∀ q, q ∉ s.freePages → (puts s.mem 2 root).count q ≤ s.pageRc q

theorem Image.freed {new : ℕ} (h : Image s s₁ new taken own lost) (hs : Space s root)
    (hfree : vpageTreeFree s₁ root = some s') : Freed s s' root := by
  have hsame : ∀ q ∈ tablesOf s.mem 2 root, s₁.mem q = s.mem q := fun q hq => h.frame q (hs.used q hq)
  obtain ⟨htable, htables⟩ := hs.table.congr hsame
  obtain ⟨mem', hwiped, hwalk⟩ := walkFree_eq htable
  rw [vpageTreeFree, hwalk s₁ rfl] at hfree
  obtain ⟨r, hput, rfl⟩ := map_eq_some_iff.mp hfree
  obtain ⟨-, hcount, hin⟩ := putAll_some hput
  rw [show puts s₁.mem 2 root = puts s.mem 2 root from collect_congr hsame] at hcount hin
  have hrc : ∀ q, q ∉ s.freePages → s₁.pageRc q = s.pageRc q := fun q hq => by
    rw [h.takes.count, if_neg fun htaken => hq (h.takes.mem_free htaken)]
  refine ⟨fun q hq hnot => ?_, htable.rewritten hwiped.rewritten, fun va => ?_, fun q hq => ?_, fun q hq => ?_⟩
  · have hnot' : q ∉ tablesOf s₁.mem 2 root := htables ▸ hnot
    exact (hwiped.frame q hnot').trans (h.frame q hq)
  · exact (hwiped.rewritten.value _ (getVaVpn_lt va)).trans (by rw [value_congr hsame (getVaVpn_lt va)]; rfl)
  · have hq₁ : q ∉ s₁.freePages := fun hin => hq (h.mem_free hin)
    rw [← hrc q hq]
    exact (hin q).trans ⟨fun h => h.resolve_left hq₁, .inr⟩
  · have := hcount q
    rw [hrc q hq] at this
    omega

theorem Counted.private_eq (h : Counted s (p :: others)) (hq : Private s p others q) :
    s.pageRc q = references s p.rootPtable q := by
  rw [h.page p mem_cons_self q hq.1]
  have hother : ∀ r, r ≠ p.rootPtable → r ∈ ((p :: others).map UTask.rootPtable).dedup →
      references s r q = 0 := by
    intro r hr hin
    obtain ⟨t, ht, rfl⟩ := mem_map.mp (mem_dedup.mp hin)
    rcases mem_cons.mp ht with rfl | ht
    · exact absurd rfl hr
    · exact Nat.eq_zero_of_not_pos fun hpos => hq.2 t ht (references_pos.mp hpos)
  rw [sum_map_eq_nsmul_single p.rootPtable (fun r => references s r q) hother,
    count_eq_one_of_mem (nodup_dedup _) (by simp), one_nsmul]

theorem System.maps (h : System s ts) (ht : t ∈ ts) (hq : Maps s t q) :
    q ∉ s.freePages ∧ ∀ u ∈ ts, q ∉ tablesOf s.mem 2 u.rootPtable := by
  obtain ⟨va, hva⟩ := hq
  rw [refers, Bool.and_eq_true, Bool.and_eq_true, decide_eq_true_eq] at hva
  obtain ⟨⟨hv, -⟩, rfl⟩ := hva
  exact h.mapped t ht va hv

theorem Freed.private_iff (h : Freed s s' p.rootPtable) (hsys : System s (p :: others))
    (hcount : Counted s (p :: others)) (hq : Private s p others q) : q ∈ s'.freePages ↔ ∀ va,
    refers q (entry s p.rootPtable va) = true → isANextLvlPtr (entry s p.rootPtable va) = false := by
  obtain ⟨hused, hnot⟩ := hsys.maps mem_cons_self hq.1
  have hnot := hnot p mem_cons_self
  rw [h.free q hused, hcount.private_eq hq, ← count_puts_eq_iff hnot, eq_comm]
  refine ⟨fun h => h.2, fun heq => ⟨?_, heq⟩⟩
  have hpos := references_pos.mpr hq.1
  exact count_pos_iff.mp (heq ▸ hpos)

theorem Freed.tables (h : Freed s s' p.rootPtable) (hsys : System s (p :: others))
    (hcount : Counted s (p :: others)) (halone : ∀ t ∈ others, t.rootPtable ≠ p.rootPtable)
    (hq : q ∈ tablesOf s.mem 2 p.rootPtable) : q ∈ s'.freePages := by
  have hused := (hsys.space p mem_cons_self).used q hq
  have hin : q ∈ puts s.mem 2 p.rootPtable := mem_collect_of_tables hq
  have hone : s.pageRc q = 1 := by
    by_cases hroot : q = p.rootPtable
    · rw [hroot, hcount.root p mem_cons_self, map_cons, count_cons_self, Nat.add_eq_right]
      exact count_eq_zero.mpr fun hin => by
        obtain ⟨t, ht, heq⟩ := mem_map.mp hin
        exact halone t ht heq
    · exact hcount.table p mem_cons_self q hq hroot
  have hle := h.enough q hused
  have hpos := count_pos_iff.mpr hin
  exact (h.free q hused).mpr ⟨hin, by omega⟩

theorem Freed.other (h : Freed s s' p.rootPtable) (hsys : System s (p :: others)) (ht : t ∈ others)
    (hne : t.rootPtable ≠ p.rootPtable) : (∀ va, leafPte s' t.rootPtable va = leafPte s t.rootPtable va) ∧
    ∀ va pte, leafPte s t.rootPtable va = some pte → s'.mem (getNextLvlPte pte) =
    s.mem (getNextLvlPte pte) := by
  have htin : t ∈ p :: others := mem_cons_of_mem p ht
  have hspace := hsys.space t htin
  have hdis := hsys.apart t htin p mem_cons_self hne
  refine ⟨leafPte_congr hspace.table fun q hq => h.frame q (hspace.used q hq) (Set.disjoint_left.mp hdis hq),
    fun va pte hpte => ?_⟩
  obtain ⟨hv, -, rfl⟩ := leafPte_some hspace.table hpte
  obtain ⟨hused, hnot⟩ := hsys.mapped t htin va hv
  exact h.frame _ hused (hnot p mem_cons_self)

theorem Freed.unmapped (h : Freed s s' root) (va : ℕ) : leafPte s' root va = none := by
  rw [leafPte_eq h.table, h.wiped va, Memory.wiped]
  split
  · rfl
  · rename_i hv
    rw [Bool.not_eq_true] at hv
    rw [hv]
    rfl

/-- An exec touches the memory of its caller only, and returns what the caller alone
used, exactly when no other task has its page table and no private page of it is mapped
without rights. -/
theorem exec_confined_iff {tramp argv : ℕ} {hs ps : Bytes} {env : TrapEnv} {p' : UTask} {elf elf' : File}
    {res : ℤ} (hsys : System s (p :: others)) (hcount : Counted s (p :: others)) (hi : Idle s)
    (hframe : (leafPte s p.rootPtable p.tframeVa).isSome = true)
    (h : taskExec env tramp hs ps s p elf argv = some (s', p', elf', res)) (hres : ¬ res < 0) :
    Confined s s' p others ↔ Alone s p others := by
  obtain ⟨s₁, taken, own, lost, himage, hfree⟩ := taskExec_ok hsys.free hi h hres
  have hfreed := himage.freed (hsys.space p mem_cons_self) hfree
  constructor
  · intro hc
    have hroot : ∀ t ∈ others, t.rootPtable ≠ p.rootPtable := by
      intro t ht heq
      have hview := hc.view t ht p.tframeVa
      rw [heq, hfreed.unmapped] at hview
      rw [← hview] at hframe
      cases hframe
    exact ⟨hroot, fun va q hq hva =>
      (hfreed.private_iff hsys hcount hq).mp ((hc.returned hroot).2 q hq) va hva⟩
  · intro ha
    refine ⟨fun t ht => (hfreed.other hsys ht (ha.root t ht)).1,
      fun t ht => (hfreed.other hsys ht (ha.root t ht)).2, fun t ht heq => absurd heq (ha.root t ht),
      fun _ => ⟨fun q hq => hfreed.tables hsys hcount ha.root hq, fun q hq => ?_⟩⟩
    exact (hfreed.private_iff hsys hcount hq).mpr fun va hva => ha.rights va q hq hva

theorem Image.counted (h : Image s s₁ p.rootPtable taken own []) (hf : FreeList s) (hi : Idle s)
    (hsys : System s₁ [p]) (hleafy : Leafy s₁ p.rootPtable) : Counted s₁ [p] := by
  have hp := mem_singleton_self p
  have hone : ∀ q ∈ taken, s₁.pageRc q = 1 := fun q hq => h.takes.one hi hq
  have haccount := h.account
  rw [append_nil] at haccount
  refine ⟨fun t ht => ?_, fun t ht q hq _ => ?_, fun t ht q hq => ?_⟩
  · rw [mem_singleton.mp ht, hone _ (h.tables _ (mem_tables_self 2 _))]
    simp
  · rw [mem_singleton.mp ht] at hq
    exact hone q (h.tables q hq)
  · rw [mem_singleton.mp ht] at hq
    have hcount := (count_puts_eq_iff ((hsys.maps hp hq).2 p hp)).mpr fun va hva => by
      rw [refers, Bool.and_eq_true, Bool.and_eq_true] at hva
      exact hleafy va hva.1.1
    have hnodup : taken.Nodup := by
      have := hf.nodup
      rw [h.takes.free] at this
      exact (nodup_append.mp this).1
    have hpos := references_pos.mpr hq
    rw [haccount.count_eq] at hcount
    rw [← hcount] at hpos
    have hin := count_pos_iff.mp hpos
    have htree : ([p].map UTask.rootPtable).dedup = [p.rootPtable] := rfl
    rw [htree, map_singleton, sum_singleton, ← hcount, hone q hin, count_eq_one_of_mem hnodup hin]

end

/-- A task that is alone in its process runs a new program. -/
theorem exec_confined_alone : ∃ s p s' p' elf', mmapUimage 0 freshMem freshTask = some (s, p, 0) ∧
    execFile s p [(5, 0x10000)] 0 = some (s', p', elf', 0) ∧ Confined s s' p [] := by
  obtain ⟨s, p, s', p', elf', res, himage, hsys, hidle, hexec, htest⟩ := @exists_exec [(5, 0x10000)] 0
    (fun s p _ _ res => decide (res = 0) && (leafPte s p.rootPtable p.tframeVa).isSome) (by decide +kernel)
  obtain ⟨hres, hframe⟩ := Bool.and_eq_true_iff.mp htest
  obtain rfl : res = 0 := of_decide_eq_true hres
  obtain ⟨-, hready⟩ := mmapUimage_ok freshMem_free himage (by decide)
  obtain ⟨taken, own, hb, -⟩ := hready.image
  have hcount := hb.counted freshMem_free freshMem_idle hsys hready.leafy
  refine ⟨s, p, s', p', elf', himage, hexec,
    (exec_confined_iff hsys hcount hidle hframe hexec (by decide)).mpr ⟨fun t ht => (nomatch ht), ?_⟩⟩
  intro va q _ hva
  rw [refers, Bool.and_eq_true, Bool.and_eq_true] at hva
  exact hready.leafy va hva.1.1

/-- An exec of `p` succeeds and changes what `th` sees at its trap frame. -/
def execUnmaps (p : UTask) (s : Kmem) (th : UTask) : Bool :=
  (execFile s p [(5, 0x10000)] 0).any fun x => decide (x.2.2.2 = 0) &&
    decide (leafPte x.1 th.rootPtable th.tframeVa ≠ leafPte s th.rootPtable th.tframeVa)

/-- The leader of a process with a second thread runs a new program: the trap frame of
the thread is no longer mapped. -/
theorem exec_unmaps_thread : ∃ s p s₁ th s₂ p' elf', mmapUimage 0 freshMem freshTask = some (s, p, 0) ∧
    taskClone ⟨0, 0, 0⟩ s p 2 0x10000 0 0x20000 true = some (s₁, .ok th) ∧
    execFile s₁ p [(5, 0x10000)] 0 = some (s₂, p', elf', 0) ∧ ¬ Confined s₁ s₂ p [th] := by
  obtain ⟨s, p, himage, htest⟩ := @exists_image (fun (s : Kmem) (p : UTask) =>
    (taskClone ⟨0, 0, 0⟩ s p 2 0x10000 0 0x20000 true).any fun r => r.2.toOption.any (execUnmaps p r.1))
    (by decide +kernel)
  obtain ⟨s₁, th, hclone, htest⟩ := @exists_clone _ (execUnmaps p) htest
  obtain ⟨⟨s₂, p', elf', res⟩, hexec, htest⟩ := (any_eq_true _ _).mp htest
  obtain ⟨hres, hview⟩ := Bool.and_eq_true_iff.mp htest
  obtain rfl : res = 0 := of_decide_eq_true hres
  exact ⟨s, p, s₁, th, s₂, p', elf', himage, hclone, hexec, fun hc =>
    of_decide_eq_true hview (hc.view th (mem_singleton_self th) th.tframeVa)⟩

end RvMiniOs.Memory
