import RvMiniOs.Fs.FileOffsets
import RvMiniOs.Memory.Elf
import RvMiniOs.Memory.PageMap
import RvMiniOs.Memory.UserCopy

/-!
# What a loaded file looks like

`elf_map` against the program headers of a regular file: which bytes a program sees in
its segments, with which rights, and that nothing else is remapped. The loop of
`map_phdr` goes through the segment page by page; the offset of the open file follows
it until `filesz` bytes were read. `Stands` says that the file of the loader is one of the
file table, whose `file_seek` and `file_read` it follows.
-/

namespace RvMiniOs.Memory

open Lib Lib.TableTree List Option

def fileHeaders (content : List UInt8) (hdr : ElfHdr) : List ElfPhdr :=
  (List.range hdr.phdrNum).map (ElfPhdr.read (listBytes (content.drop hdr.phdroff)))

def segmentByte (content : List UInt8) (phdr : ElfPhdr) (k : ℕ) : UInt8 :=
  if k < phdr.filesz then content.getD (phdr.offset + k) 0 else 0

def pagesFrom (phdr : ElfPhdr) (off : ℕ) : ℕ := (phdr.memsz - off + (pageSize - 1)) / pageSize

def imagePages (phdrs : List ElfPhdr) : ℕ := ((phdrs.filter isLoadPhdr).map (pagesFrom · 0)).sum

structure Grants (pte : ℕ) (phdr : ElfPhdr) : Prop where
  user : hasAny pte pteU = true
  read : hasAny pte pteR = hasAny phdr.flags 4
  write : hasAny pte pteW = hasAny phdr.flags 2
  exec : hasAny pte pteX = hasAny phdr.flags 1

structure Loadable (content : List UInt8) (phdrs : List ElfPhdr) : Prop where
  valid : ∀ phdr ∈ phdrs, isLoadPhdr phdr = true → isValidPhdr phdr = true
  noWrap : NoWrap phdrs
  disjoint : phdrs.Pairwise fun a b => ∀ n, ¬ (covers a n = true ∧ covers b n = true)
  rights : ∀ phdr ∈ phdrs, isLoadPhdr phdr = true → phdr.flags % 8 ≠ 0
  inside : ∀ phdr ∈ phdrs, isLoadPhdr phdr = true → phdr.offset + phdr.filesz ≤ content.length

structure HeaderTable (content : List UInt8) (hdr : ElfHdr) : Prop where
  some : 1 ≤ hdr.phdrNum
  few : hdr.phdrNum ≤ elfMaxPhdr
  size : hdr.phdrSize = sizeofElfPhdr
  inside : hdr.phdroff + hdr.phdrNum * sizeofElfPhdr ≤ content.length

structure Realised (content : List UInt8) (s s' : Kmem) (root : ℕ) (phdrs : List ElfPhdr) : Prop where
  bytes : ∀ phdr ∈ phdrs, isLoadPhdr phdr = true → ∀ k < pagesFrom phdr 0 * pageSize,
    userByte s' root (phdr.va + k) = some (segmentByte content phdr k)
  rights : ∀ phdr ∈ phdrs, isLoadPhdr phdr = true → ∀ k < pagesFrom phdr 0 * pageSize,
    ∃ pte, leafPte s' root (phdr.va + k) = some pte ∧ Grants pte phdr
  others : ∀ va, (∀ phdr ∈ phdrs, covers phdr (pageOf va) = false) →
    leafPte s' root va = leafPte s root va ∧ translate s' root va = translate s root va

section Reading

variable {f : File} {content : List UInt8} {phdr : ElfPhdr} {off n : ℕ}

theorem asInt_of_small {n : ℕ} (h : n < 2 ^ 31) : asInt n = n := by
  rw [asInt, Int.bmod_def]
  omega

theorem fileRead_regular (hans : f.answer = regularAnswer content) (hsize : content.length ≤ Fs.fsMaxFileSize)
    (hin : f.off + n ≤ content.length) :
    fileRead f n = (.ok ((content.drop f.off).take n), { f with off := f.off + n }) := by
  have hoff : f.off % 2 ^ 32 = f.off := Nat.mod_eq_of_lt (by
    simp only [Fs.fsMaxFileSize, Fs.fsInodeDirDblkno, Fs.fsInodeIndirDblkno, Fs.fsBlkSize] at hsize
    omega)
  have hlen : ((content.drop f.off).take n).length = n := by
    rw [length_take, length_drop]
    omega
  have hread : f.answer f.off n = .ok ((content.drop f.off).take n) := by
    rw [hans, regularAnswer, hoff, if_neg (by omega)]
  unfold fileRead
  rw [hread]
  dsimp only
  rw [hlen]

theorem getD_drop_take {k : ℕ} (hk : k < n) :
    ((content.drop off).take n).getD k 0 = content.getD (off + k) 0 := by
  simp only [getD_eq_getElem?_getD]
  rw [getElem?_take_of_lt hk, getElem?_drop]

theorem readPage_regular (hans : f.answer = regularAnswer content)
    (hsize : content.length ≤ Fs.fsMaxFileSize) (hin : phdr.offset + phdr.filesz ≤ content.length)
    (hoff : f.off = phdr.offset + min off phdr.filesz) : ∃ bs f', readPage phdr off f = (.ok bs, f') ∧
    f'.answer = regularAnswer content ∧ f'.off = phdr.offset + min (off + pageSize) phdr.filesz ∧ ∀ k <
    pageSize, bs.getD k 0 = segmentByte content phdr (off + k) := by
  unfold readPage segmentByte
  by_cases hlt : off < phdr.filesz
  · rw [min_eq_left hlt.le] at hoff
    rw [if_pos hlt, fileRead_regular hans hsize (by omega), hoff]
    refine ⟨_, _, rfl, hans, by dsimp only; omega, fun k hk => ?_⟩
    by_cases hk' : k < min (phdr.filesz - off) pageSize
    · rw [getD_drop_take hk', if_pos (by omega), Nat.add_assoc]
    · rw [if_neg (by omega), getD_eq_default]
      rw [length_take]
      omega
  · rw [if_neg hlt]
    refine ⟨_, _, rfl, hans, by omega, fun k hk => ?_⟩
    rw [if_neg (by omega), getD_nil]

theorem elfPhdr_read_congr {b c : Bytes} {i : ℕ} (h : ∀ k < sizeofElfPhdr * (i + 1), b k = c k) :
    ElfPhdr.read b i = ElfPhdr.read c i := by
  have hnat : ∀ o n, o + n ≤ sizeofElfPhdr → leNat b (sizeofElfPhdr * i + o) n = leNat c (sizeofElfPhdr * i + o) n :=
    fun o n ho => leNat_congr fun k hk => h _ (by rw [Nat.mul_succ]; omega)
  simp only [ElfPhdr.read, ElfPhdr.mk.injEq]
  exact ⟨hnat 0 4 (by decide), hnat 4 4 (by decide), hnat 8 8 (by decide), hnat 16 8 (by decide),
    hnat 32 8 (by decide), hnat 40 8 (by decide)⟩

theorem loadPhdr_regular {stack : Bytes} {hdr : ElfHdr} (hans : f.answer = regularAnswer content)
    (hsize : content.length ≤ Fs.fsMaxFileSize) (htab : HeaderTable content hdr) :
    ∃ f', loadPhdr stack f hdr = (.ok (fileHeaders content hdr), f') ∧ f'.answer = regularAnswer content := by
  obtain ⟨hsome, hfew, hentry, hin⟩ := htab
  have hmax : Fs.fsMaxFileSize < 2 ^ 31 := by decide
  unfold loadPhdr fileSeek
  rw [if_neg (by omega), if_neg (not_not.mpr hentry), if_neg (by omega)]
  dsimp only
  rw [asInt_of_small (by omega), if_neg (by omega), fileRead_regular (f := { f with off := hdr.phdroff }) hans hsize hin]
  refine ⟨{ f with off := hdr.phdroff + hdr.phdrNum * sizeofElfPhdr }, ?_, hans⟩
  dsimp only
  rw [Prod.mk.injEq, Except.ok.injEq]
  refine ⟨map_congr_left fun i hi => elfPhdr_read_congr fun k hk => ?_, rfl⟩
  have hi := mem_range.mp hi
  have hlen : ((content.drop hdr.phdroff).take (hdr.phdrNum * sizeofElfPhdr)).length =
      hdr.phdrNum * sizeofElfPhdr := by
    rw [length_take, length_drop]
    omega
  have hk' : k < hdr.phdrNum * sizeofElfPhdr := by
    simp only [sizeofElfPhdr] at *
    omega
  rw [stored, splice_inside (Nat.zero_le k) (by omega), listBytes, listBytes, Nat.sub_zero, getD_drop_take hk']
  simp [getD_eq_getElem?_getD]

end Reading

section Stands

variable {s s' : Fs.Files} {f n : ℕ} {content : List UInt8} {elf elf' : File}



end Stands

structure Backed (s : Kmem) (root va flags : ℕ) (g : ℕ → UInt8) (page : ℕ) : Prop where
  leaf : entry s root va = makePte page (leafFlags (pteU ||| phdrFlagToPteFlag flags))
  small : page < 2 ^ 52
  unlisted : page ∉ tablesOf s.mem 2 root
  used : page ∉ s.freePages
  bytes : ∀ k < pageSize, s.readByte (page * pageSize + k) = g k

structure Filled (content : List UInt8) (s s' : Kmem) (root : ℕ) (phdr : ElfPhdr) (off : ℕ) : Prop where
  grows : ∃ taken, Grows s s' root taken
  free : s.freePages.length ≤ s'.freePages.length + 3 * pagesFrom phdr off
  pages : ∀ n < 2 ^ 27, phdr.va + off ≤ n * pageSize → n * pageSize < phdr.va + phdr.memsz → ∃ page,
    Backed s' root (n * pageSize) phdr.flags (fun k => segmentByte content phdr (n * pageSize - phdr.va + k)) page
  others : ∀ n < 2 ^ 27, ¬ (phdr.va + off ≤ n * pageSize ∧ n * pageSize < phdr.va + phdr.memsz) →
    entry s' root (n * pageSize) = entry s root (n * pageSize)

section Filling

variable {s s' s₁ : Kmem} {root va page flags off fuel : ℕ} {f : File} {content : List UInt8}
  {phdr : ElfPhdr} {phdrs : List ElfPhdr} {g : ℕ → UInt8} {taken : List ℕ}

theorem readByte_page {k : ℕ} (hk : k < pageSize) (h : s'.mem page = s.mem page) :
    s'.readByte (page * pageSize + k) = s.readByte (page * pageSize + k) := by
  have hpage : (page * pageSize + k) / pageSize = page := by
    simp only [pageSize] at *
    omega
  rw [Kmem.readByte, Kmem.readByte, hpage, h]

theorem readByte_fill {bs : List UInt8} {k : ℕ} (ha : pageAlloc s = some (page, s₁)) (hk : k < pageSize) :
    (s₁.memcpyTo (page * pageSize) bs).readByte (page * pageSize + k) = bs.getD k 0 := by
  by_cases hin : k < bs.length
  · rw [Kmem.readByte_memcpyTo_inside hin, getD_eq_getElem _ _ hin]
  · have hpage : (page * pageSize + k) / pageSize = page := by
      simp only [pageSize] at *
      omega
    rw [Kmem.readByte_memcpyTo_outside (by omega), getD_eq_default _ _ (by omega), Kmem.readByte, hpage,
      (pageAlloc_takes ha).2, Function.update_self]
    simp [getByte]

theorem Backed.grows (h : Backed s root va flags g page) (hg : Grows s s' root taken)
    (hsame : entry s' root va = entry s root va) : Backed s' root va flags g page := by
  have htaken : page ∉ taken := fun hin => h.used (hg.takes.mem_free hin)
  refine ⟨hsame.trans h.leaf, h.small, fun hin => (hg.tables page hin).elim h.unlisted htaken, fun hin =>
    h.used ?_, fun k hk => ?_⟩
  · rw [hg.takes.free]
    exact mem_append_right _ hin
  · rw [readByte_page hk (hg.frame page h.unlisted htaken), h.bytes k hk]

theorem pagesFrom_succ (h : off < phdr.memsz) : pagesFrom phdr off = pagesFrom phdr (off + pageSize) + 1 := by
  simp only [pagesFrom, pageSize]
  omega

theorem Filled.step (hva : phdr.va % pageSize = 0) (hend : phdr.va + phdr.memsz ≤ ramStart)
    (hoff : off % pageSize = 0) (hlt : off < phdr.memsz) (hf : FreeList s) {s₂ : Kmem}
    (hg : Grows s s₁ root taken) (hfree : s.freePages.length ≤ s₁.freePages.length + 3)
    (hentry : ∀ vb, pageOf vb ≠ pageOf (phdr.va + off) → entry s₁ root vb = entry s root vb)
    (hpage : Backed s₁ root (phdr.va + off) phdr.flags (fun k => segmentByte content phdr (off + k)) page)
    (h : Filled content s₁ s₂ root phdr (off + pageSize)) : Filled content s s₂ root phdr off := by
  obtain ⟨taken', hg'⟩ := h.grows
  have hsplit : ∀ n < 2 ^ 27, pageOf (n * pageSize) = pageOf (phdr.va + off) ↔ n * pageSize = phdr.va + off := by
    intro n hn
    rw [pageOf_mul hn]
    simp only [pageOf, pageSize, ramStart] at *
    omega
  simp only [pageSize] at hva hoff
  refine ⟨⟨_, hg.trans hg' hf⟩, ?_, fun n hn hlo hhi => ?_, fun n hn hout => ?_⟩
  · rw [pagesFrom_succ hlt]
    have := h.free
    omega
  · by_cases hfirst : n * pageSize = phdr.va + off
    · rw [hfirst, Nat.add_sub_cancel_left]
      refine ⟨page, hpage.grows hg' ?_⟩
      have hsame := h.others n hn (by simp only [pageSize] at *; omega)
      rwa [hfirst] at hsame
    · exact h.pages n hn (by simp only [pageSize] at *; omega) hhi
  · have hne : n * pageSize ≠ phdr.va + off := fun heq => hout (by omega)
    rw [h.others n hn (by simp only [pageSize] at *; omega), hentry _ ((hsplit n hn).not.mpr hne)]

section Fills

variable (hsize : content.length ≤ Fs.fsMaxFileSize) (hin : phdr.offset + phdr.filesz ≤ content.length)
  (hva : phdr.va % pageSize = 0) (hend : phdr.va + phdr.memsz ≤ ramStart)
include hsize hin hva hend

theorem mapPhdrLoop_fills (hs : Space s root) (hf : FreeList s) (hi : Idle s)
    (hoff : off % pageSize = 0) (hfuel : s.freePages.length < fuel) (hans : f.answer = regularAnswer content)
    (hfoff : f.off = phdr.offset + min off phdr.filesz) :
    ∃ s' f' res, mapPhdrLoop root phdr fuel off s f = some (s', f', res) ∧ f'.answer = regularAnswer content ∧
      (res = -enomem ∧ s.freePages.length < 3 * pagesFrom phdr off ∨
        res = 0 ∧ Filled content s s' root phdr off) := by
  induction fuel generalizing off s f with
  | zero => omega
  | succ fuel ih =>
    rw [mapPhdrLoop]
    by_cases hlt : off < phdr.memsz
    · have hneeds := pagesFrom_succ hlt
      rw [if_pos hlt]
      cases ha : pageAlloc s with
      | none =>
        refine ⟨s, f, -enomem, rfl, hans, .inl ⟨rfl, ?_⟩⟩
        rw [pageAlloc_none ha, length_nil]
        omega
      | some r =>
        obtain ⟨page, s₁⟩ := r
        obtain ⟨bs, f₁, hread, hans₁, hfoff₁, hbytes⟩ := readPage_regular hans hsize hin hfoff
        have hlen := readPage_length hread
        obtain ⟨hg, -, -⟩ := hs.fill ha hlen
        have hfree : s.freePages.length = (s₁.memcpyTo (page * pageSize) bs).freePages.length + 1 := by
          rw [hg.takes.free]
          simp
        have hw : (phdr.va + off) % 2 ^ 64 = phdr.va + off := Nat.mod_eq_of_lt (by
          simp only [ramStart] at hend
          omega)
        have hnext : (off + pageSize) % 2 ^ 64 = off + pageSize := Nat.mod_eq_of_lt (by
          simp only [pageSize, ramStart] at *
          omega)
        obtain ⟨s₂, res, hm, hrc⟩ := @vpageMap_returns _ root (phdr.va + off) page
          (pteU ||| phdrFlagToPteFlag phdr.flags) (hg.space hs hf) (hg.takes.freeList hf) (hg.takes.idle hf hi)
        obtain ⟨hok, hfail⟩ := vpageMap_needs hm
        dsimp only
        rw [hread]
        dsimp only
        rw [hw, hnext, vpageMapUser, hm]
        dsimp only [bind_eq_bind, bind_some]
        by_cases hneg : res < 0
        · have hone : 0 < s₂.pageRc page := by
            rw [hrc page (hg.takes.not_free hf mem_cons_self), hg.takes.one hi mem_cons_self]
            exact Nat.one_pos
          obtain ⟨s₃, hput⟩ := pagePut_isSome hone
          rw [if_pos hneg, hput]
          refine ⟨s₃, f₁, res, rfl, hans₁, .inl ⟨?_, ?_⟩⟩
          · exact (vpageMap_res hm).resolve_left hneg.ne
          · have := hfail hneg
            omega
        · obtain rfl := vpageMap_res_zero hm hneg
          rw [if_neg hneg]
          have hle := vpageMap_free_le hm rfl
          obtain ⟨⟨taken, hg'⟩, hentry, hunlisted, hused, hmem⟩ := mapPage_ok hs hf ha hlen hm
          have hself := hentry (phdr.va + off)
          rw [if_pos rfl] at hself
          have hpage : Backed s₂ root (phdr.va + off) phdr.flags
              (fun k => segmentByte content phdr (off + k)) page :=
            ⟨hself, hf.small page (hg.takes.mem_free mem_cons_self), hunlisted, hused, fun k hk => by
              rw [readByte_page hk hmem, readByte_fill ha hk, hbytes k hk]⟩
          obtain ⟨s', f', res, hrun, hans', houtcome⟩ := ih (hg'.space hs hf) (hg'.takes.freeList hf)
            (hg'.takes.idle hf hi) (by simp only [pageSize] at *; omega) (by omega) hans₁ hfoff₁
          refine ⟨s', f', res, hrun, hans', ?_⟩
          have hmapped := hok rfl
          obtain ⟨hres, hshort⟩ | ⟨hres, hfilled⟩ := houtcome
          · exact .inl ⟨hres, by omega⟩
          · exact .inr ⟨hres, hfilled.step hva hend hoff hlt hf hg' (by omega) (fun vb hne => by
              rw [hentry, if_neg hne]) hpage⟩
    · rw [if_neg hlt]
      exact ⟨s, f, 0, rfl, hans, .inr ⟨rfl, ⟨[], Grows.refl hs⟩, Nat.le_add_right _ _,
        fun n _ hlo hhi => by omega, fun _ _ _ => rfl⟩⟩

theorem mapPhdr_fills (hs : Space s root) (hf : FreeList s) (hi : Idle s)
    (hans : f.answer = regularAnswer content) :
    ∃ s' f' res, mapPhdr root phdr s f = some (s', f', res) ∧ f'.answer = regularAnswer content ∧
      (res = -enomem ∧ s.freePages.length < 3 * pagesFrom phdr 0 ∨ res = 0 ∧ Filled content s s' root phdr 0) := by
  have hmax : Fs.fsMaxFileSize < 2 ^ 31 := by decide
  unfold mapPhdr fileSeek
  rw [if_neg (by omega)]
  dsimp only
  rw [asInt_of_small (by omega), if_neg (by omega)]
  refine mapPhdrLoop_fills hsize hin hva hend hs hf hi rfl (Nat.lt_succ_self _) hans ?_
  rw [Nat.zero_min]
  rfl

end Fills

structure FilledAll (content : List UInt8) (s s' : Kmem) (root : ℕ) (phdrs : List ElfPhdr) : Prop where
  grows : ∃ taken, Grows s s' root taken
  free : s.freePages.length ≤ s'.freePages.length + 3 * imagePages phdrs
  pages : ∀ phdr ∈ phdrs, ∀ n < 2 ^ 27, covers phdr n = true → ∃ page,
    Backed s' root (n * pageSize) phdr.flags (fun k => segmentByte content phdr (n * pageSize - phdr.va + k)) page
  others : ∀ n < 2 ^ 27, (∀ phdr ∈ phdrs, covers phdr n = false) →
    entry s' root (n * pageSize) = entry s root (n * pageSize)

theorem Loadable.tail (h : Loadable content (phdr :: phdrs)) : Loadable content phdrs where
  valid := fun q hq => h.valid q (mem_cons_of_mem _ hq)
  noWrap := fun q hq => h.noWrap q (mem_cons_of_mem _ hq)
  disjoint := (pairwise_cons.mp h.disjoint).2
  rights := fun q hq => h.rights q (mem_cons_of_mem _ hq)
  inside := fun q hq => h.inside q (mem_cons_of_mem _ hq)

theorem covers_eq (hload : isLoadPhdr phdr = true) {n : ℕ} :
    covers phdr n = true ↔ phdr.va + 0 ≤ n * pageSize ∧ n * pageSize < phdr.va + phdr.memsz := by
  simp [covers, hload]

theorem FilledAll.cons (hf : FreeList s) (hload : isLoadPhdr phdr = true)
    (hdisj : ∀ q ∈ phdrs, ∀ n, ¬ (covers phdr n = true ∧ covers q n = true))
    (hone : Filled content s s₁ root phdr 0) (h : FilledAll content s₁ s' root phdrs) :
    FilledAll content s s' root (phdr :: phdrs) := by
  obtain ⟨taken, hg⟩ := hone.grows
  obtain ⟨taken', hg'⟩ := h.grows
  refine ⟨⟨_, hg.trans hg' hf⟩, ?_, fun q hq n hn hcov => ?_, fun n hn hnone => ?_⟩
  · have hfree := hone.free
    have hfree' := h.free
    simp only [imagePages, filter_cons_of_pos hload, map_cons, sum_cons] at hfree' ⊢
    omega
  · rcases mem_cons.mp hq with rfl | hq
    · obtain ⟨hlo, hhi⟩ := (covers_eq hload).mp hcov
      obtain ⟨page, hpage⟩ := hone.pages n hn hlo hhi
      have hnone : ∀ r ∈ phdrs, covers r n = false := fun r hr => by
        simpa [hcov] using hdisj r hr n
      exact ⟨page, hpage.grows hg' (h.others n hn hnone)⟩
    · exact h.pages q hq n hn hcov
  · rw [h.others n hn fun q hq => hnone q (mem_cons_of_mem _ hq)]
    refine hone.others n hn fun hcov => ?_
    have := (covers_eq hload).mpr hcov
    rw [hnone phdr mem_cons_self] at this
    cases this

theorem elfMapLoop_fills (hsize : content.length ≤ Fs.fsMaxFileSize) (hseg : Loadable content phdrs)
    (hs : Space s root) (hf : FreeList s) (hi : Idle s) (hans : f.answer = regularAnswer content) :
    ∃ s' f' res, elfMapLoop root phdrs s f = some (s', f', res) ∧
      (res = -enomem ∧ s.freePages.length < 3 * imagePages phdrs ∨ res = 0 ∧ FilledAll content s s' root phdrs) := by
  induction phdrs generalizing s f with
  | nil =>
    exact ⟨s, f, 0, rfl, .inr ⟨rfl, ⟨[], Grows.refl hs⟩, Nat.le_add_right _ _,
      fun _ hq => absurd hq not_mem_nil, fun _ _ _ => rfl⟩⟩
  | cons phdr phdrs ih =>
    rw [elfMapLoop]
    by_cases hload : isLoadPhdr phdr = true
    · obtain ⟨-, hva, hend⟩ := isValidPhdr_iff.mp (hseg.valid phdr mem_cons_self hload)
      have hlow : phdr.va + phdr.memsz ≤ ramStart := by
        have hwrap := hseg.noWrap phdr mem_cons_self hload
        have hva := phdr.va_lt
        omega
      obtain ⟨s₁, f₁, res, hmap, hans₁, houtcome⟩ := mapPhdr_fills hsize
        (hseg.inside phdr mem_cons_self hload) hva hlow hs hf hi hans
      have hvalid := hseg.valid phdr mem_cons_self hload
      rw [hload, hvalid, hmap]
      dsimp only [Bool.not_true, bind_eq_bind, bind_some]
      rw [if_neg (by decide), if_neg (by decide)]
      have himage : imagePages (phdr :: phdrs) = pagesFrom phdr 0 + imagePages phdrs := by
        rw [imagePages, filter_cons_of_pos hload]
        rfl
      obtain ⟨rfl, hshort⟩ | ⟨rfl, hfilled⟩ := houtcome
      · rw [if_pos (by decide)]
        exact ⟨s₁, f₁, -enomem, rfl, .inl ⟨rfl, by omega⟩⟩
      · rw [if_neg (lt_irrefl 0)]
        obtain ⟨taken, hg⟩ := hfilled.grows
        obtain ⟨s', f', res, hrun, houtcome⟩ := ih hseg.tail (hg.space hs hf) (hg.takes.freeList hf)
          (hg.takes.idle hf hi) hans₁
        refine ⟨s', f', res, hrun, ?_⟩
        obtain ⟨hres, hshort⟩ | ⟨hres, hrest⟩ := houtcome
        · have := hfilled.free
          exact .inl ⟨hres, by omega⟩
        · exact .inr ⟨hres, hrest.cons hf hload (pairwise_cons.mp hseg.disjoint).1 hfilled⟩
    · have hcov : ∀ n, covers phdr n = false := fun n => by
        simp [covers, hload]
      rw [if_pos (by simpa using hload)]
      obtain ⟨s', f', res, hrun, houtcome⟩ := ih hseg.tail hs hf hi hans
      have himage : imagePages (phdr :: phdrs) = imagePages phdrs := by
        rw [imagePages, filter_cons_of_neg hload]
        rfl
      refine ⟨s', f', res, hrun, ?_⟩
      rw [himage]
      rcases houtcome with hshort | ⟨hres, hrest⟩
      · exact .inl hshort
      refine .inr ⟨hres, hrest.grows, himage ▸ hrest.free, fun q hq n hn hq' => ?_,
        fun n hn hnone => hrest.others n hn fun q hq => hnone q (mem_cons_of_mem _ hq)⟩
      rcases mem_cons.mp hq with rfl | hq
      · rw [hcov] at hq'
        cases hq'
      · exact hrest.pages q hq n hn hq'

end Filling

section Image

variable {s s' : Kmem} {root : ℕ} {content : List UInt8} {phdr : ElfPhdr} {phdrs : List ElfPhdr}

theorem hasAny_phdrFlag (flags : ℕ) : hasAny (phdrFlagToPteFlag flags) pteR = hasAny flags 4 ∧
    hasAny (phdrFlagToPteFlag flags) pteW = hasAny flags 2 ∧ hasAny (phdrFlagToPteFlag flags) pteX =
    hasAny flags 1 := by
  unfold phdrFlagToPteFlag
  cases hasAny flags 1 <;> cases hasAny flags 2 <;> cases hasAny flags 4 <;> decide

theorem grants_leaf {page : ℕ} : Grants (makePte page (leafFlags (pteU ||| phdrFlagToPteFlag phdr.flags))) phdr := by
  have hbit : ∀ k, k ≠ 0 → k ≠ 6 → k ≠ 7 → k < 10 →
      hasAny (makePte page (leafFlags (pteU ||| phdrFlagToPteFlag phdr.flags))) (2 ^ k) =
        hasAny (pteU ||| phdrFlagToPteFlag phdr.flags) (2 ^ k) := fun k h0 h6 h7 hk => hasAny_leaf h0 h6 h7 hk
  obtain ⟨hr, hw, hx⟩ := hasAny_phdrFlag phdr.flags
  have hor : ∀ k, k ≠ 4 → hasAny (pteU ||| phdrFlagToPteFlag phdr.flags) (2 ^ k) =
      hasAny (phdrFlagToPteFlag phdr.flags) (2 ^ k) := fun k hk => by
    rw [hasAny_two_pow, hasAny_two_pow, Nat.testBit_or, Nat.testBit_two_pow_of_ne hk.symm, Bool.false_or]
  refine ⟨?_, ?_, ?_, ?_⟩
  · rw [hbit 4 (by decide) (by decide) (by decide) (by decide), hasAny_two_pow, Nat.testBit_or,
      Nat.testBit_two_pow_self, Bool.true_or]
  · rw [hbit 1 (by decide) (by decide) (by decide) (by decide), hor 1 (by decide), hr]
  · rw [hbit 2 (by decide) (by decide) (by decide) (by decide), hor 2 (by decide), hw]
  · rw [hbit 3 (by decide) (by decide) (by decide) (by decide), hor 3 (by decide), hx]

theorem translate_eq (va : ℕ) : translate s root va =
    (leafPte s root va).map fun pte => getNextLvlPte pte * pageSize + va % pageSize := by
  rw [translate, leafPte, Option.map_map]
  rfl

theorem segment_page (hva : phdr.va % pageSize = 0) (hend : phdr.va + phdr.memsz ≤ ramStart) {k : ℕ}
    (hk : k < pagesFrom phdr 0 * pageSize) : pageOf (phdr.va + k) < 2 ^ 27 ∧ phdr.va + 0 ≤
    pageOf (phdr.va + k) * pageSize ∧ pageOf (phdr.va + k) * pageSize < phdr.va + phdr.memsz ∧
    pageOf (phdr.va + k) * pageSize - phdr.va + (phdr.va + k) % pageSize = k := by
  simp only [pageOf, pagesFrom, pageSize, ramStart] at *
  omega

theorem FilledAll.realised (h : FilledAll content s s' root phdrs) (hs : Space s root)
    (hseg : Loadable content phdrs) : Realised content s s' root phdrs := by
  obtain ⟨taken, hg⟩ := h.grows
  have hrepr : ∀ (s : Kmem) va, entry s root va = entry s root (pageOf va * pageSize) := fun s va =>
    entry_congr (pageOf_mul (Nat.mod_lt _ (by decide))).symm
  have hpage : ∀ phdr ∈ phdrs, isLoadPhdr phdr = true → ∀ k < pagesFrom phdr 0 * pageSize, ∃ page,
      page < 2 ^ 52 ∧ leafPte s' root (phdr.va + k) =
        some (makePte page (leafFlags (pteU ||| phdrFlagToPteFlag phdr.flags))) ∧
      s'.readByte (page * pageSize + (phdr.va + k) % pageSize) = segmentByte content phdr k := by
    intro phdr hin hload k hk
    obtain ⟨-, hva, hend⟩ := isValidPhdr_iff.mp (hseg.valid phdr hin hload)
    have hlow : phdr.va + phdr.memsz ≤ ramStart := by
      have hwrap := hseg.noWrap phdr hin hload
      have hlt := phdr.va_lt
      omega
    obtain ⟨hn, hlo, hhi, hplace⟩ := segment_page hva hlow hk
    obtain ⟨page, hleaf, hsmall, -, -, hbytes⟩ := h.pages phdr hin _ hn ((covers_eq hload).mpr ⟨hlo, hhi⟩)
    rw [← hrepr] at hleaf
    refine ⟨page, hsmall, ?_, ?_⟩
    · rw [leafPte_of_entry hg.table (by rw [hleaf, leaf_valid]), hleaf]
      rw [hleaf, isANextLvlPtr_leaf]
      have := (isANextLvlPtr_phdr phdr.flags).not.mpr (hseg.rights phdr hin hload)
      simpa using this
    · rw [hbytes _ (Nat.mod_lt _ (by decide)), hplace]
  refine ⟨fun phdr hin hload k hk => ?_, fun phdr hin hload k hk => ?_, fun va hnone => ?_⟩
  · obtain ⟨page, hsmall, hleaf, hbyte⟩ := hpage phdr hin hload k hk
    rw [userByte, translate_eq, hleaf, map_some, map_some,
      getNextLvlPte_makePte (leafFlags_lt (phdrFlagToPteFlag_lt phdr.flags)) hsmall, hbyte]
  · obtain ⟨page, -, hleaf, -⟩ := hpage phdr hin hload k hk
    exact ⟨_, hleaf, grants_leaf⟩
  · have hsame : leafPte s' root va = leafPte s root va := by
      rw [leafPte_eq hg.table, leafPte_eq hs.table, hrepr s', hrepr s,
        h.others (pageOf va) (Nat.mod_lt _ (by decide)) hnone]
    exact ⟨hsame, by rw [translate_eq, translate_eq, hsame]⟩

end Image

/-- `elf_map` returns, and unless memory runs out it makes the image that the program
headers of the file ask for. -/
theorem elfMap_realises_segments {content : List UInt8} {stack : Bytes} {s : Kmem} {root : ℕ} {f : File}
    {hdr : ElfHdr} (hs : Space s root) (hf : FreeList s) (hi : Idle s)
    (hans : f.answer = regularAnswer content) (hsize : content.length ≤ Fs.fsMaxFileSize)
    (htab : HeaderTable content hdr) (hseg : Loadable content (fileHeaders content hdr)) :
    ∃ s' f' res, elfMap stack s root f hdr = some (s', f', res) ∧
      (res = -enomem ∧ s.freePages.length < 3 * imagePages (fileHeaders content hdr) ∨
        res = 0 ∧ Realised content s s' root (fileHeaders content hdr)) := by
  obtain ⟨f₁, hload, hans₁⟩ := @loadPhdr_regular f content stack hdr hans hsize htab
  obtain ⟨s', f', res, hrun, houtcome⟩ := elfMapLoop_fills hsize hseg hs hf hi hans₁
  refine ⟨s', f', res, ?_, houtcome.imp_right fun ⟨hres, hfilled⟩ => ⟨hres, hfilled.realised hs hseg⟩⟩
  rw [elfMap, hload]
  exact hrun

theorem blankMem_idle : Idle blankMem := fun _ _ => rfl

theorem elfFile_answer (segments : List (ℕ × ℕ)) :
    (elfFile segments).answer = regularAnswer (elfBytes segments) := rfl

theorem loadable_one : Loadable (elfBytes [(5, 0x10000)]) (fileHeaders (elfBytes [(5, 0x10000)])
    (elfHdr [(5, 0x10000)])) := by
  have hone : fileHeaders (elfBytes [(5, 0x10000)]) (elfHdr [(5, 0x10000)]) =
      [ElfPhdr.read (listBytes ((elfBytes [(5, 0x10000)]).drop 64)) 0] := rfl
  rw [hone]
  refine ⟨?_, ?_, pairwise_singleton _ _, ?_, ?_⟩
  all_goals
    intro phdr hin
    obtain rfl := mem_singleton.mp hin
    decide +kernel

/-- A file with one segment is loaded into an empty tree. -/
theorem elfMap_realises_segments_one : ∃ s' f', elfMap (listBytes []) blankMem 1 (elfFile [(5, 0x10000)])
      (elfHdr [(5, 0x10000)]) = some (s', f', 0) ∧
    Realised (elfBytes [(5, 0x10000)]) blankMem s' 1 (fileHeaders (elfBytes [(5, 0x10000)])
      (elfHdr [(5, 0x10000)])) := by
  obtain ⟨s', f', res, hrun, houtcome⟩ := @elfMap_realises_segments (elfBytes [(5, 0x10000)]) (listBytes [])
    blankMem 1 (elfFile [(5, 0x10000)]) (elfHdr [(5, 0x10000)]) blankMem_wellFormed.space blankMem_free
    blankMem_idle (elfFile_answer _) (by decide +kernel) ⟨by decide +kernel, by decide +kernel, by decide +kernel,
      by decide +kernel⟩ loadable_one
  obtain ⟨rfl, hreal⟩ := houtcome.resolve_left fun hshort => absurd hshort.2 (by decide +kernel)
  exact ⟨s', f', hrun, hreal⟩

theorem no_header {stack : Bytes} {s : Kmem} {root : ℕ} {f : File} {hdr : ElfHdr} {content : List UInt8}
    (h : hdr.phdrNum = 0) : Loadable content (fileHeaders content hdr) ∧
      elfMap stack s root f hdr = some (s, f, -enoexec) := by
  have hnil : fileHeaders content hdr = [] := by
    rw [fileHeaders, h]
    rfl
  rw [hnil, elfMap, loadPhdr, if_pos (.inl h)]
  exact ⟨⟨nofun, nofun, Pairwise.nil, nofun, nofun⟩, rfl⟩

/-- A file without program headers has the right format and is not accepted. -/
theorem elfMap_rejects_no_header : ∃ hdr f, elfLoadHdr (listBytes []) (elfFile []) = (.ok hdr, f) ∧
    elfVerifyFileFormat hdr = 0 ∧ Loadable (elfBytes []) (fileHeaders (elfBytes []) hdr) ∧
    elfMap (listBytes []) blankMem 1 f hdr = some (blankMem, f, -enoexec) := by
  refine ⟨_, _, rfl, by decide +kernel, no_header ?_⟩
  decide +kernel

end RvMiniOs.Memory
