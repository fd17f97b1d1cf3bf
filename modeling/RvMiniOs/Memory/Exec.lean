import RvMiniOs.Memory.ElfPages
import RvMiniOs.Memory.Fork
import RvMiniOs.Memory.UserCopy

/-!
# Replacing the image of a task

Translation of `task_exec` in `task.c` with `load_elf_image` and `transfer_argv`. `hs`
and `ps` are what the stack holds where the ELF header and the program headers are read
to.
-/

namespace RvMiniOs.Memory

open Lib Lib.TableTree List Option Bool

abbrev execMaxArgs : ℕ := 7
abbrev argMax : ℕ := 16
abbrev stackAlign : ℕ := 16

def alignDown (n a : ℕ) : ℕ := n - n % a

def loadElfImage (tramp : ℕ) (hs ps : Bytes) (s : Kmem) (p : UTask) (elf : File) :
    Option (Kmem × UTask × File × Except ℤ ℕ) :=
  match elfLoadHdr hs elf with
  | (.error e, elf) => some (s, p, elf, .error e)
  | (.ok hdr, elf) =>
    if elfVerifyFileFormat hdr < 0 then some (s, p, elf, .error (elfVerifyFileFormat hdr))
    else do
      let (s, p, res) ← mmapUimage tramp s p
      if res < 0 then some (s, p, elf, .error res)
      else do
        let (s, elf, res) ← elfMap ps s p.rootPtable elf hdr
        if res < 0 then do
          let s ← vpageTreeFree s p.rootPtable
          some (s, p, elf, .error res)
        else some (s, p, elf, .ok hdr.entry)

def getArgcLoop (oldPtable argv : ℕ) : ℕ → List ℕ → Kmem → Option (Kmem × Except ℤ (List ℕ))
  | 0, _, s => some (s, .error (-e2big))
  | n + 1, argvK, s => do
    let (s, res, bs) ← vpageCopyin s oldPtable ((argv + 8 * argvK.length) % 2 ^ 64) 8
    if res < 0 then some (s, .error res)
    else if leNat (listBytes bs) 0 8 = 0 then some (s, .ok argvK)
    else getArgcLoop oldPtable argv n (argvK ++ [leNat (listBytes bs) 0 8]) s

def getArgc (s : Kmem) (oldPtable argv : ℕ) : Option (Kmem × Except ℤ (List ℕ)) :=
  if argv = 0 then some (s, .ok []) else getArgcLoop oldPtable argv execMaxArgs [] s

def transferArgs (oldPtable newPtable : ℕ) :
    List ℕ → List ℕ → ℕ → Kmem → Option (Kmem × Except ℤ (List ℕ × ℕ))
  | [], argvTmp, sp, s => some (s, .ok (argvTmp, sp))
  | arg :: args, argvTmp, sp, s => do
    let (s, len, str) ← vpageCopyinstr s oldPtable arg argMax
    if len < 0 then some (s, .error len)
    else do
      let sp := alignDown (sp - len.toNat) stackAlign
      let (s, res) ← vpageCopyoutstr s newPtable sp str len.toNat
      if res < 0 then some (s, .error res)
      else transferArgs oldPtable newPtable args (sp :: argvTmp) sp s

def transferArgv (s : Kmem) (oldPtable newPtable argv : ℕ) : Option (Kmem × Except ℤ ℕ) := do
  let (s, argc) ← getArgc s oldPtable argv
  match argc with
  | .error e => some (s, .error e)
  | .ok argvK => do
    let (s, moved) ← transferArgs oldPtable newPtable argvK.reverse [] ustack s
    match moved with
    | .error e => some (s, .error e)
    | .ok (argvTmp, sp) => do
      let sp := alignDown (sp - (argvK.length + 1) * 8) stackAlign
      let (s, res) ← vpageCopyout s newPtable sp ((argvTmp ++ [0]).flatMap (leBytes 8))
      if res < 0 then some (s, .error res)
      else do
        let sp := alignDown (sp - 4) stackAlign
        let (s, res) ← vpageCopyout s newPtable sp (leBytes 4 argvK.length)
        if res < 0 then some (s, .error res) else some (s, .ok sp)

def taskExec (env : TrapEnv) (tramp : ℕ) (hs ps : Bytes) (s : Kmem) (p : UTask) (elf : File) (argv : ℕ) :
    Option (Kmem × UTask × File × ℤ) :=
  if !p.user then none
  else do
    let (s, q, elf, loaded) ← loadElfImage tramp hs ps s p elf
    match loaded with
    | .error res => some (s, { q with rootPtable := p.rootPtable, tframePa := p.tframePa }, elf, res)
    | .ok entry => do
      let (s, moved) ← transferArgv s p.rootPtable q.rootPtable argv
      match moved with
      | .error res => some (s, { q with rootPtable := p.rootPtable, tframePa := p.tframePa }, elf, res)
      | .ok sp => do
        let s := tframeInit env s q.tframePa q.rootPtable
        let s := tframeStart s q.tframePa entry sp
        let s ← vpageTreeFree s p.rootPtable
        some (s, q, elf, 0)

structure Stores (s s' : Kmem) (own : List ℕ) : Prop where
  free : s'.freePages = s.freePages
  count : s'.pageRc = s.pageRc
  frame : ∀ q, q ∉ own → s'.mem q = s.mem q

section Arguments

variable {s s' s₁ s₂ : Kmem} {root old new va argv sp n : ℕ} {taken own lost : List ℕ}

theorem Stores.refl (s : Kmem) (own : List ℕ) : Stores s s own := ⟨rfl, rfl, fun _ _ => rfl⟩

theorem Stores.trans (h : Stores s s₁ own) (h' : Stores s₁ s₂ own) : Stores s s₂ own :=
  ⟨h'.free.trans h.free, h'.count.trans h.count, fun q hq => (h'.frame q hq).trans (h.frame q hq)⟩

theorem Image.stores (h : Image s s₁ root taken own lost) (hf : FreeList s) (hs : Stores s₁ s₂ own) :
    Image s s₂ root taken own lost :=
  (h.store hf hs.free hs.count fun q _ hq => hs.frame q hq).1

theorem vpageCopyin_state {bs : List UInt8} {res : ℤ} (h : vpageCopyin s root va n = some (s', res, bs)) :
    s' = s := by
  unfold vpageCopyin at h
  obtain ⟨pa, hpa⟩ := getPaFromVa_readFlags s root va
  rw [hpa] at h
  dsimp only [bind_eq_bind, bind_some] at h
  split at h
  · cases h
    rfl
  · split at h <;> cases h <;> rfl

theorem strnlen_le (bs : List UInt8) : strnlen bs ≤ bs.length := (takeWhile_sublist _).length_le

theorem vpageCopyinstr_state {str : List UInt8} {len : ℤ}
    (h : vpageCopyinstr s root va n = some (s', len, str)) :
    s' = s ∧ (¬ len < 0 → 0 < len.toNat ∧ len.toNat ≤ n) := by
  unfold vpageCopyinstr at h
  obtain ⟨pa, hpa⟩ := getPaFromVa_readFlags s root va
  rw [hpa] at h
  dsimp only [bind_eq_bind, bind_some] at h
  split at h
  · cases h
    exact ⟨rfl, fun hlen => absurd (by decide) hlen⟩
  · split at h
    · cases h
      exact ⟨rfl, fun hlen => absurd (by decide) hlen⟩
    · split at h
      · cases h
        exact ⟨rfl, fun hlen => absurd (by decide) hlen⟩
      · rename_i pa _ hshort
        cases h
        refine ⟨rfl, fun _ => ?_⟩
        have hle := strnlen_le (s.memcpyFrom pa (min (pageSize - va % pageSize) n))
        rw [Kmem.length_memcpyFrom] at hle
        omega

theorem hasAny_of_and_eq {w m i : ℕ} (h : w &&& m = m) (hm : m.testBit i = true) :
    hasAny w (2 ^ i) = true := by
  rw [hasAny_two_pow]
  have hbit := Nat.testBit_and w m i
  rw [h, hm, Bool.and_true] at hbit
  exact hbit.symm

theorem Image.getPaFromVa_write {pa : Option ℕ} (h : Image s s₁ root taken own lost)
    (hpa : getPaFromVa s₁ root va writeFlags = some (s₂, pa)) :
    s₂ = s₁ ∧ ∀ a, pa = some a → ∃ page ∈ own, a = page * pageSize + va % pageSize := by
  unfold getPaFromVa at hpa
  split at hpa
  · cases hpa
    exact ⟨rfl, fun a ha => (nomatch ha)⟩
  · rename_i t i hleaf
    obtain ⟨hpte, hv, -⟩ := walkLeaf_some h.table hleaf
    obtain ⟨hcow, huser⟩ := h.user va hv
    rw [hpte, hcow, Bool.and_false] at hpa
    simp only [Bool.false_eq_true, if_false, bind_eq_bind, bind_some, ne_eq, not_true_eq_false, hpte] at hpa
    split at hpa
    · cases hpa
      exact ⟨rfl, fun a ha => (nomatch ha)⟩
    · rename_i hflags
      cases hpa
      refine ⟨rfl, fun a ha => ⟨_, huser (hasAny_of_and_eq (not_not.mp hflags) (by decide)),
        (some.inj ha).symm⟩⟩

theorem memcpyTo_stores {a page : ℕ} {bs : List UInt8} (hpage : page ∈ own) (ha : a = page * pageSize + va % pageSize)
    (hfit : va % pageSize + bs.length ≤ pageSize) : Stores s (s.memcpyTo a bs) own := by
  refine ⟨Kmem.memcpyTo_freePages .., Kmem.memcpyTo_pageRc .., fun q hq => ?_⟩
  refine Kmem.memcpyTo_mem_page_ne fun k hk heq => hq ?_
  rw [show (a + k) / pageSize = page by simp only [pageSize] at *; omega] at heq
  exact heq ▸ hpage

theorem Image.copyout {bs : List UInt8} {res : ℤ} (h : Image s s₁ root taken own lost)
    (hfit : va % pageSize + bs.length ≤ pageSize) (hc : vpageCopyout s₁ root va bs = some (s₂, res)) :
    Stores s₁ s₂ own := by
  unfold vpageCopyout at hc
  obtain ⟨⟨s₃, pa⟩, hpa, hc⟩ := bind_eq_some_iff.mp hc
  obtain ⟨heq, hown⟩ := h.getPaFromVa_write hpa
  dsimp only at hc
  rw [heq] at hc
  split at hc
  · cases hc
    exact Stores.refl _ _
  · split at hc
    · cases hc
      exact Stores.refl _ _
    · cases hc
      obtain ⟨page, hpage, ha⟩ := hown _ rfl
      exact memcpyTo_stores hpage ha hfit

theorem Image.copyoutstr {str : List UInt8} {res : ℤ} (h : Image s s₁ root taken own lost)
    (hfit : va % pageSize + n ≤ pageSize) (hc : vpageCopyoutstr s₁ root va str n = some (s₂, res)) :
    Stores s₁ s₂ own := by
  unfold vpageCopyoutstr at hc
  obtain ⟨⟨s₃, pa⟩, hpa, hc⟩ := bind_eq_some_iff.mp hc
  obtain ⟨heq, hown⟩ := h.getPaFromVa_write hpa
  dsimp only at hc
  rw [heq] at hc
  split at hc
  · cases hc
    exact Stores.refl _ _
  · split at hc
    · cases hc
      exact Stores.refl _ _
    · split at hc
      · cases hc
        exact Stores.refl _ _
      · rename_i hlong
        cases hc
        obtain ⟨page, hpage, ha⟩ := hown _ rfl
        have hle := strnlen_le (str.take n)
        have htake := length_take_le n str
        have hlen := length_take_le (strnlen (str.take n) + 1) str
        exact memcpyTo_stores hpage ha (by omega)

theorem getArgcLoop_state {argvK : List ℕ} {r : Except ℤ (List ℕ)}
    (h : getArgcLoop old argv n argvK s = some (s', r)) :
    s' = s ∧ (∀ e, r = .error e → e < 0) ∧ ∀ ks, r = .ok ks → ks.length < argvK.length + n := by
  induction n generalizing argvK s with
  | zero =>
    cases h
    exact ⟨rfl, fun e he => by cases he; decide, fun ks hks => (nomatch hks)⟩
  | succ n ih =>
    rw [getArgcLoop] at h
    obtain ⟨⟨s₁, res, bs⟩, hin, h⟩ := bind_eq_some_iff.mp h
    dsimp only at h
    rw [vpageCopyin_state hin] at h
    split at h
    · rename_i hneg
      cases h
      exact ⟨rfl, fun e he => by cases he; exact hneg, fun ks hks => (nomatch hks)⟩
    · split at h
      · cases h
        exact ⟨rfl, fun e he => (nomatch he), fun ks hks => by cases hks; omega⟩
      · obtain ⟨hs, herr, hok⟩ := ih h
        refine ⟨hs, herr, fun ks hks => ?_⟩
        have := hok ks hks
        rw [length_append, length_singleton] at this
        omega

theorem getArgc_state {r : Except ℤ (List ℕ)} (h : getArgc s old argv = some (s', r)) :
    s' = s ∧ (∀ e, r = .error e → e < 0) ∧ ∀ ks, r = .ok ks → ks.length < execMaxArgs := by
  unfold getArgc at h
  split at h
  · cases h
    exact ⟨rfl, fun e he => (nomatch he), fun ks hks => by cases hks; decide⟩
  · simpa using getArgcLoop_state h

theorem alignDown_push {len : ℕ} (hsp : sp % stackAlign = 0) (hlen : len ≤ argMax)
    (hle : len ≤ sp) : alignDown (sp - len) stackAlign % stackAlign = 0 ∧
      alignDown (sp - len) stackAlign + len ≤ sp ∧ sp ≤ alignDown (sp - len) stackAlign + stackAlign := by
  simp only [alignDown, stackAlign, argMax] at *
  omega

theorem Image.transferArgs {args argvTmp : List ℕ} {r : Except ℤ (List ℕ × ℕ)}
    (h : Image s s₁ new taken own lost) (hf : FreeList s) (hsp : sp % stackAlign = 0)
    (hlow : ustackTop + stackAlign * args.length ≤ sp) (hhigh : sp ≤ ustack)
    (ht : transferArgs old new args argvTmp sp s₁ = some (s₂, r)) : Stores s₁ s₂ own ∧ (∀ e, r = .error e →
    e < 0) ∧ ∀ tmp sp', r = .ok (tmp, sp') → tmp.length = args.length + argvTmp.length ∧ sp' % stackAlign =
    0 ∧ sp' ≤ sp ∧ sp ≤ sp' + stackAlign * args.length := by
  induction args generalizing argvTmp sp s₁ with
  | nil =>
    cases ht
    refine ⟨Stores.refl _ _, fun e he => (nomatch he), fun tmp sp' hr => ?_⟩
    cases hr
    exact ⟨by simp, hsp, le_refl _, by simp⟩
  | cons arg args ih =>
    rw [Memory.transferArgs] at ht
    obtain ⟨⟨s₃, len, str⟩, hin, ht⟩ := bind_eq_some_iff.mp ht
    obtain ⟨heq, hlen⟩ := vpageCopyinstr_state hin
    dsimp only at ht
    rw [heq] at ht
    split at ht
    · rename_i hneg
      cases ht
      exact ⟨Stores.refl _ _, fun e he => by cases he; exact hneg, fun tmp sp' hr => (nomatch hr)⟩
    · rename_i hnn
      obtain ⟨hpos, hmax⟩ := hlen hnn
      rw [length_cons, Nat.mul_succ] at hlow
      obtain ⟨hsp', hend, hgap⟩ := alignDown_push hsp hmax (by simp only [ustackTop, maxVa, pageSize, argMax] at *; omega)
      set sp₁ := alignDown (sp - len.toNat) stackAlign
      obtain ⟨⟨s₄, res⟩, hout, ht⟩ := bind_eq_some_iff.mp ht
      have hstores := h.copyoutstr (by
        simp only [ustackTop, ustack, maxVa, pageSize, argMax, stackAlign] at *
        omega) hout
      dsimp only at ht
      split at ht
      · rename_i hneg
        cases ht
        exact ⟨hstores, fun e he => by cases he; exact hneg, fun tmp sp' hr => (nomatch hr)⟩
      · obtain ⟨hrest, herr, hok⟩ := ih (h.stores hf hstores) hsp' (by omega) (by omega) ht
        refine ⟨hstores.trans hrest, herr, fun tmp sp' hr => ?_⟩
        obtain ⟨htmp, hal, hle, hge⟩ := hok tmp sp' hr
        simp only [length_cons] at htmp ⊢
        exact ⟨by omega, hal, by omega, by rw [Nat.mul_succ]; omega⟩

theorem length_leBytes (n v : ℕ) : (leBytes n v).length = n := by
  induction n generalizing v with
  | zero => rfl
  | succ n ih => rw [leBytes, length_cons, ih]

theorem length_words (ws : List ℕ) : (ws.flatMap (leBytes 8)).length = 8 * ws.length := by
  induction ws with
  | nil => rfl
  | cons w ws ih =>
    rw [flatMap_cons, length_append, length_leBytes, ih, length_cons]
    omega

theorem Image.transferArgv {r : Except ℤ ℕ} (h : Image s s₁ new taken own lost) (hf : FreeList s)
    (ht : transferArgv s₁ old new argv = some (s₂, r)) : Stores s₁ s₂ own ∧ ∀ e, r = .error e → e < 0 := by
  unfold Memory.transferArgv at ht
  obtain ⟨⟨s₃, argc⟩, hargc, ht⟩ := bind_eq_some_iff.mp ht
  obtain ⟨heq, herr, hcount⟩ := getArgc_state hargc
  dsimp only at ht
  rw [heq] at ht
  cases argc with
  | error e =>
    cases ht
    exact ⟨Stores.refl _ _, fun e' he => by cases he; exact herr e rfl⟩
  | ok argvK =>
    have hcount := hcount argvK rfl
    obtain ⟨⟨s₄, moved⟩, hmoved, ht⟩ := bind_eq_some_iff.mp ht
    have hlen : argvK.reverse.length = argvK.length := length_reverse
    obtain ⟨hstores, herr, hok⟩ := h.transferArgs hf (by decide) (by
      rw [hlen]
      simp only [ustackTop, ustack, maxVa, pageSize, stackAlign, execMaxArgs] at *
      omega) (le_refl _) hmoved
    cases moved with
    | error e =>
      cases ht
      exact ⟨hstores, fun e' he => by cases he; exact herr e rfl⟩
    | ok r₄ =>
      obtain ⟨argvTmp, sp⟩ := r₄
      obtain ⟨htmp, hal, hle, hge⟩ := hok argvTmp sp rfl
      rw [hlen] at htmp hge
      have h₄ := h.stores hf hstores
      dsimp only at ht
      obtain ⟨⟨s₅, res⟩, hout, ht⟩ := bind_eq_some_iff.mp ht
      have hstores₅ := h₄.copyout (by
        rw [length_words, length_append, htmp]
        simp only [alignDown, ustack, maxVa, pageSize, stackAlign, execMaxArgs, length_nil,
          length_singleton] at *
        omega) hout
      dsimp only at ht
      split at ht
      · rename_i hneg
        cases ht
        exact ⟨hstores.trans hstores₅, fun e he => by cases he; exact hneg⟩
      · obtain ⟨⟨s₆, res₆⟩, hout₆, ht⟩ := bind_eq_some_iff.mp ht
        have hstores₆ := (h₄.stores hf hstores₅).copyout (by
          rw [length_leBytes]
          simp only [alignDown, ustack, maxVa, pageSize, stackAlign, execMaxArgs] at *
          omega) hout₆
        dsimp only at ht
        split at ht
        · rename_i hneg
          cases ht
          exact ⟨(hstores.trans hstores₅).trans hstores₆, fun e he => by cases he; exact hneg⟩
        · cases ht
          exact ⟨(hstores.trans hstores₅).trans hstores₆, fun e he => (nomatch he)⟩

theorem setWord_stores {page i w : ℕ} (hpage : page ∈ own) : Stores s (s.setWord page i w) own :=
  ⟨rfl, rfl, fun _ hq => Kmem.setWord_mem_page_ne _ _ fun heq => hq (heq ▸ hpage)⟩

theorem tframe_stores {env : TrapEnv} {t entry : ℕ} (ht : t ∈ own) :
    Stores s (tframeStart (tframeInit env s t root) t entry sp) own :=
  have hinit : Stores s (tframeInit env s t root) own :=
    (((setWord_stores ht).trans (setWord_stores ht)).trans (setWord_stores ht)).trans (setWord_stores ht)
  hinit.trans ((setWord_stores ht).trans (setWord_stores ht))

end Arguments

def Undoes (tramp : ℕ) (hs ps : Bytes) (s : Kmem) (p : UTask) (elf : File) : Prop :=
  match elfLoadHdr hs elf with
  | (.error _, _) => True
  | (.ok hdr, elf) => elfVerifyFileFormat hdr < 0 ∨ SpaceFails s p ∨
      p.tframeVa = trapframe ∧ ∃ s₁ p₁ res, mmapUimage tramp s p = some (s₁, p₁, res) ∧
        (res < 0 ∨ (∃ s₂ elf' res', elfMap ps s₁ p₁.rootPtable elf hdr = some (s₂, elf', res') ∧ res' < 0) ∧
          elfMapLost ps s₁ p₁.rootPtable elf hdr = [])

structure Unchanged (s s' : Kmem) (p p' : UTask) : Prop where
  task : p' = p
  view : ∀ va, leafPte s' p.rootPtable va = leafPte s p.rootPtable va
  pages : ∀ va pte, leafPte s p.rootPtable va = some pte → s'.mem (getNextLvlPte pte) = s.mem (getNextLvlPte pte)
  free : s'.freePages.length = s.freePages.length

section Failures

variable {tramp argv : ℕ} {hs ps : Bytes} {env : TrapEnv} {s s' : Kmem} {p p' : UTask} {elf elf' : File}
  {res : ℤ}

theorem elfLoadHdr_error {e : ℤ} (h : elfLoadHdr hs elf = (.error e, elf')) : e < 0 := by
  unfold elfLoadHdr at h
  dsimp only at h
  split at h
  · rename_i hneg
    simp only [Prod.mk.injEq, Except.error.injEq] at h
    exact h.1 ▸ hneg
  · split at h
    · rename_i hread
      cases h
      exact fileRead_error hread
    · cases h

theorem SpaceFails.image {s₁ : Kmem} (h : SpaceFails s p) (hm : mmapUimage tramp s p = some (s₁, p', res)) :
    res < 0 := by
  obtain ⟨s₂, p₂, res₂, hspace, hneg⟩ := h
  unfold mmapUimage at hm
  rw [hspace] at hm
  dsimp only [bind_eq_bind, bind_some] at hm
  rw [if_pos hneg] at hm
  cases hm
  exact hneg

theorem loadElfImage_error {e : ℤ} (hf : FreeList s) (hi : Idle s)
    (h : loadElfImage tramp hs ps s p elf = some (s', p', elf', .error e)) :
    e < 0 ∧ p'.user = p.user ∧ (∀ q, q ∉ s.freePages → s'.mem q = s.mem q) ∧
      (p'.tframeVa = p.tframeVa ∧ s'.freePages.length = s.freePages.length ↔ Undoes tramp hs ps s p elf) := by
  unfold loadElfImage at h
  unfold Undoes
  split at h
  · rename_i hload
    cases h
    exact ⟨elfLoadHdr_error hload, rfl, fun _ _ => rfl, by simp⟩
  · rename_i hdr elf₁ hload
    split at h
    · rename_i hneg
      cases h
      exact ⟨hneg, rfl, fun _ _ => rfl, by simp [hneg]⟩
    · rename_i hformat
      obtain ⟨⟨s₁, p₁, res₁⟩, himage, h⟩ := bind_eq_some_iff.mp h
      dsimp only at h
      split at h
      · rename_i hneg
        cases h
        obtain ⟨⟨hfree, hframe⟩, huser, hva⟩ := mmapUimage_fail hf hi himage hneg
        refine ⟨hneg, huser, hframe, ?_⟩
        obtain ⟨hspace, hva⟩ | ⟨hspace, hva⟩ := hva
        · simp [hva, hfree, hspace]
        · refine ⟨fun h => .inr (.inr ⟨h.1.symm.trans hva, _, _, _, himage, .inl hneg⟩), fun h => ⟨?_, hfree⟩⟩
          obtain ⟨hold, -⟩ := (h.resolve_left hformat).resolve_left hspace
          rw [hva, hold]
      · rename_i hnn
        obtain ⟨-, hready⟩ := mmapUimage_ok hf himage hnn
        obtain ⟨⟨s₂, elf₂, res₂⟩, hmap, h⟩ := bind_eq_some_iff.mp h
        dsimp only at h
        split at h
        · rename_i hneg
          obtain ⟨s₃, hfree, h⟩ := bind_eq_some_iff.mp h
          cases h
          obtain ⟨taken, own, himage₁, -⟩ := hready.image
          obtain ⟨taken₂, own₂, -, himage₂⟩ | ⟨-, hbroken⟩ := elfMap_accounted hf hi himage₁ hmap
          · obtain ⟨hcount, hframe⟩ := himage₂.release hf hi hfree
            refine ⟨hneg, hready.user, hframe, ?_⟩
            rw [nil_append] at hcount
            constructor
            · rintro ⟨hva, hlen⟩
              refine .inr (.inr ⟨hva.symm.trans hready.va, _, _, _, himage, .inr ⟨⟨_, _, _, hmap, hneg⟩, ?_⟩⟩)
              exact eq_nil_of_length_eq_zero (by omega)
            · rintro (hbad | hspace | ⟨hva, s₄, p₄, res₄, himage₄, hwhy⟩)
              · exact absurd hbad hformat
              · exact absurd (hspace.image himage) hnn
              · rw [himage] at himage₄
                cases himage₄
                rw [(hwhy.resolve_left hnn).2, length_nil] at hcount
                exact ⟨hready.va.trans hva.symm, by omega⟩
          · rw [hbroken.free] at hfree
            cases hfree
        · cases h

theorem loadElfImage_ok {entry : ℕ} (hf : FreeList s) (hi : Idle s)
    (h : loadElfImage tramp hs ps s p elf = some (s', p', elf', .ok entry)) : ¬ Undoes tramp hs ps s p elf ∧
    p'.user = p.user ∧ ∃ taken own lost, Image s s' p'.rootPtable taken own lost ∧ p'.tframePa ∈ own := by
  unfold loadElfImage at h
  unfold Undoes
  split at h
  · cases h
  · split at h
    · cases h
    · rename_i hdr elf₁ hload hformat
      obtain ⟨⟨s₁, p₁, res₁⟩, himage, h⟩ := bind_eq_some_iff.mp h
      dsimp only at h
      split at h
      · cases h
      · rename_i hnn
        obtain ⟨-, hready⟩ := mmapUimage_ok hf himage hnn
        obtain ⟨⟨s₂, elf₂, res₂⟩, hmap, h⟩ := bind_eq_some_iff.mp h
        dsimp only at h
        split at h
        · obtain ⟨s₃, -, h⟩ := bind_eq_some_iff.mp h
          cases h
        · rename_i hnn₂
          cases h
          obtain ⟨taken, own, himage₁, hframe⟩ := hready.image
          refine ⟨?_, hready.user, ?_⟩
          · rintro (hbad | hspace | ⟨-, s₄, p₄, res₄, himage₄, hwhy⟩)
            · exact hformat hbad
            · exact hnn (hspace.image himage)
            · rw [himage] at himage₄
              cases himage₄
              obtain ⟨⟨s₅, elf₅, res₅, hmap₅, hneg⟩, -⟩ := hwhy.resolve_left hnn
              rw [hmap] at hmap₅
              cases hmap₅
              exact hnn₂ hneg
          · obtain ⟨taken₂, own₂, hsub, himage₂⟩ | ⟨hneg, -⟩ := elfMap_accounted hf hi himage₁ hmap
            · exact ⟨_, _, _, himage₂, hsub hframe⟩
            · exact absurd hneg hnn₂

theorem Image.free_lt {root : ℕ} {taken own lost : List ℕ} (h : Image s s' root taken own lost) :
    s'.freePages.length < s.freePages.length := by
  have hroot := length_pos_of_mem (h.tables root (mem_tables_self 2 root))
  rw [h.takes.free, length_append]
  omega

theorem taskExec_fail (hf : FreeList s) (hi : Idle s)
    (h : taskExec env tramp hs ps s p elf argv = some (s', p', elf', res)) (hres : res < 0) :
    p'.user = p.user ∧ p'.rootPtable = p.rootPtable ∧ p'.tframePa = p.tframePa ∧
      (∀ q, q ∉ s.freePages → s'.mem q = s.mem q) ∧
      (p'.tframeVa = p.tframeVa ∧ s'.freePages.length = s.freePages.length ↔ Undoes tramp hs ps s p elf) := by
  unfold taskExec at h
  split at h
  · cases h
  · obtain ⟨⟨s₁, q, elf₁, loaded⟩, hload, h⟩ := bind_eq_some_iff.mp h
    cases loaded with
    | error e =>
      obtain ⟨-, huser, hframe, hiff⟩ := loadElfImage_error hf hi hload
      cases h
      exact ⟨huser, rfl, rfl, hframe, hiff⟩
    | ok entry =>
      obtain ⟨hnot, huser, taken, own, lost, himage, -⟩ := loadElfImage_ok hf hi hload
      obtain ⟨⟨s₂, moved⟩, hmoved, h⟩ := bind_eq_some_iff.mp h
      obtain ⟨hstores, -⟩ := himage.transferArgv hf hmoved
      have himage₂ := himage.stores hf hstores
      cases moved with
      | error e =>
        cases h
        refine ⟨huser, rfl, rfl, himage₂.frame, ?_⟩
        have hlt := himage₂.free_lt
        exact ⟨fun hsame => by omega, fun hundo => absurd hundo hnot⟩
      | ok sp =>
        obtain ⟨s₃, -, h⟩ := bind_eq_some_iff.mp h
        cases h
        exact absurd hres (lt_irrefl 0)

theorem leafPte_congr {root : ℕ} (h : Table s.mem 2 root)
    (hsame : ∀ q ∈ tablesOf s.mem 2 root, s'.mem q = s.mem q) (va : ℕ) :
    leafPte s' root va = leafPte s root va := by
  have hentry : entry s' root va = entry s root va := value_congr hsame (getVaVpn_lt va)
  rw [leafPte_eq h, leafPte_eq (h.congr hsame).1, hentry]

theorem leafPte_some {root va pte : ℕ} (h : Table s.mem 2 root) (hpte : leafPte s root va = some pte) :
    hasAny (entry s root va) pteV = true ∧ isANextLvlPtr (entry s root va) = false ∧ pte = entry s root va := by
  rw [leafPte_eq h] at hpte
  split at hpte
  · rename_i hleaf
    obtain ⟨hv, hn⟩ := and_eq_true_iff.mp hleaf
    exact ⟨hv, by simpa using hn, (some.inj hpte).symm⟩
  · cases hpte

/-- A failed exec has changed nothing exactly when the failing stage cleans up. -/
theorem failed_exec_unchanged_iff {ts : List UTask} (hsys : System s ts) (hp : p ∈ ts) (hi : Idle s)
    (h : taskExec env tramp hs ps s p elf argv = some (s', p', elf', res)) (hres : res < 0) :
    Unchanged s s' p p' ↔ Undoes tramp hs ps s p elf := by
  obtain ⟨huser, hroot, hpa, hframe, hiff⟩ := taskExec_fail hsys.free hi h hres
  rw [← hiff]
  constructor
  · intro hun
    exact ⟨by rw [hun.task], hun.free⟩
  · rintro ⟨hva, hfree⟩
    have hspace := hsys.space p hp
    refine ⟨?_, leafPte_congr hspace.table fun q hq => hframe q (hspace.used q hq), fun va pte hpte => ?_, hfree⟩
    · obtain ⟨user, rootPtable, tframePa, tframeVa⟩ := p'
      cases huser
      cases hroot
      cases hpa
      cases hva
      rfl
    · obtain ⟨hv, -, rfl⟩ := leafPte_some hspace.table hpte
      exact hframe _ (hsys.mapped p hp va hv).1

end Failures

theorem freshMem_idle : Idle freshMem := fun _ _ => rfl

theorem system_of_image {s : Kmem} {p : UTask} (himage : mmapUimage 0 freshMem freshTask = some (s, p, 0))
    (htest : (decide ((collectOf maps s.mem 2 p.rootPtable).Nodup) &&
      decide (∀ q ∈ collectOf maps s.mem 2 p.rootPtable, q ∉ s.freePages)) = true) :
    System s [p] ∧ Idle s := by
  obtain ⟨hnodup, hused⟩ := and_eq_true_iff.mp htest
  obtain ⟨-, hready⟩ := mmapUimage_ok freshMem_free himage (by decide)
  obtain ⟨taken, own, hb, -⟩ := hready.image
  exact ⟨system_single (hb.freeList freshMem_free) (hb.space freshMem_free) (of_decide_eq_true hnodup)
    (of_decide_eq_true hused), hb.takes.idle freshMem_free freshMem_idle⟩

def zeroFile (segments : List (ℕ × ℕ)) : File :=
  File.regular ((elfBytes segments).take sizeofElfHdr ++ segments.flatMap fun p =>
    List.flatten [leBytes 4 1, leBytes 4 p.1, leBytes 8 0, leBytes 8 p.2, leBytes 8 p.2, leBytes 8 0,
      leBytes 8 pageSize, leBytes 8 pageSize])

def execFile (s : Kmem) (p : UTask) (segments : List (ℕ × ℕ)) (argv : ℕ) : Option (Kmem × UTask × File × ℤ) :=
  taskExec ⟨0, 0, 0⟩ 0 (listBytes []) (listBytes []) s p (zeroFile segments) argv

theorem exists_exec {segments : List (ℕ × ℕ)} {argv : ℕ} {test : Kmem → UTask → Kmem → UTask → ℤ → Bool}
    (h : (do
      let (s, p, res) ← mmapUimage 0 freshMem freshTask
      let (s', p', _, res') ← execFile s p segments argv
      some (res, decide ((collectOf maps s.mem 2 p.rootPtable).Nodup) &&
        decide (∀ q ∈ collectOf maps s.mem 2 p.rootPtable, q ∉ s.freePages), test s p s' p' res')) =
        some (0, true, true)) :
    ∃ s p s' p' elf' res, mmapUimage 0 freshMem freshTask = some (s, p, 0) ∧ System s [p] ∧ Idle s ∧
      execFile s p segments argv = some (s', p', elf', res) ∧ test s p s' p' res = true := by
  obtain ⟨⟨s, p, res⟩, himage, h⟩ := bind_eq_some_iff.mp h
  obtain ⟨⟨s', p', elf', res'⟩, hexec, h⟩ := bind_eq_some_iff.mp h
  simp only [some.injEq, Prod.mk.injEq] at h
  obtain ⟨rfl, hsys, htest⟩ := h
  obtain ⟨hsys, hidle⟩ := system_of_image himage hsys
  exact ⟨s, p, s', p', elf', res', himage, hsys, hidle, hexec, htest⟩

def loadFailsClean (hs ps : Bytes) (s : Kmem) (p : UTask) (elf : File) : Bool :=
  match elfLoadHdr hs elf with
  | (.error _, _) => true
  | (.ok hdr, elf) => (mmapUimage 0 s p).any fun r =>
      ((elfMap ps r.1 r.2.1.rootPtable elf hdr).any fun x => decide (x.2.2 < 0)) &&
        (elfMapLost ps r.1 r.2.1.rootPtable elf hdr).isEmpty

theorem undoes_of_loadFailsClean {hs ps : Bytes} {s : Kmem} {p : UTask} {elf : File}
    (hva : p.tframeVa = trapframe) (h : loadFailsClean hs ps s p elf = true) : Undoes 0 hs ps s p elf := by
  unfold loadFailsClean at h
  unfold Undoes
  split at h
  · trivial
  · obtain ⟨⟨s₁, p₁, res₁⟩, himage₁, hclean⟩ := (any_eq_true _ _).mp h
    obtain ⟨hfails, hlost⟩ := and_eq_true_iff.mp hclean
    obtain ⟨⟨s₂, elf₂, res₂⟩, hmap, hneg⟩ := (any_eq_true _ _).mp hfails
    exact .inr (.inr ⟨hva, s₁, p₁, res₁, himage₁, .inr ⟨⟨s₂, elf₂, res₂, hmap, of_decide_eq_true hneg⟩,
      isEmpty_iff.mp hlost⟩⟩)

/-- The second segment of the file is refused, and the first is unmapped again. -/
theorem failed_exec_unchanged_badSegment : ∃ s p s' p' elf' res,
    mmapUimage 0 freshMem freshTask = some (s, p, 0) ∧
    execFile s p [(5, 0x10000), (5, 0x11001)] 0 = some (s', p', elf', res) ∧ res < 0 ∧
    Unchanged s s' p p' := by
  obtain ⟨s, p, s', p', elf', res, himage, hsys, hidle, hexec, htest⟩ :=
    @exists_exec [(5, 0x10000), (5, 0x11001)] 0 (fun s p _ _ res => decide (res < 0) &&
      decide (p.tframeVa = trapframe) &&
      loadFailsClean (listBytes []) (listBytes []) s p (zeroFile [(5, 0x10000), (5, 0x11001)])) (by decide +kernel)
  obtain ⟨htest, hclean⟩ := and_eq_true_iff.mp htest
  obtain ⟨hres, hva⟩ := and_eq_true_iff.mp htest
  have hres := of_decide_eq_true hres
  have hva : p.tframeVa = trapframe := of_decide_eq_true hva
  refine ⟨s, p, s', p', elf', res, himage, hexec, hres, ?_⟩
  unfold execFile at hexec
  -- the file stays a name, or the unifier would run the loader
  generalize zeroFile [(5, 0x10000), (5, 0x11001)] = elf at hexec hclean
  exact (failed_exec_unchanged_iff hsys (mem_singleton_self p) hidle hexec hres).mpr
    (undoes_of_loadFailsClean hva hclean)

/-- The pointers of `argv` are not mapped: the new image is never freed. -/
theorem failed_exec_keeps_image : ∃ s p s' p' elf' res,
    mmapUimage 0 freshMem freshTask = some (s, p, 0) ∧
    execFile s p [(5, 0x10000)] 0x5000 = some (s', p', elf', res) ∧ res < 0 ∧ ¬ Unchanged s s' p p' := by
  obtain ⟨s, p, s', p', elf', res, himage, -, -, hexec, htest⟩ :=
    @exists_exec [(5, 0x10000)] 0x5000 (fun s _ s' _ res => decide (res < 0) &&
      decide (s'.freePages.length ≠ s.freePages.length)) (by decide +kernel)
  obtain ⟨hres, hfree⟩ := and_eq_true_iff.mp htest
  exact ⟨s, p, s', p', elf', res, himage, hexec, of_decide_eq_true hres, fun hun =>
    of_decide_eq_true hfree hun.free⟩

end RvMiniOs.Memory
