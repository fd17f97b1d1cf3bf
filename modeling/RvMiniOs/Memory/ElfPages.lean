import RvMiniOs.Memory.Elf

/-!
# The pages of a load

What `elf_map` does to the account of a new image, whether it succeeds or not. A page
is lost when its read fails, when it is mapped without rights, or when a later segment
takes over its entry: `vpage_tree_free` returns none of these.
-/

namespace RvMiniOs.Memory

open Lib List Option

def mapPhdrLoopLost (root : ℕ) (phdr : ElfPhdr) : ℕ → ℕ → Kmem → File → List ℕ
  | 0, _, _, _ => []
  | fuel + 1, off, s, f =>
    if off < phdr.memsz then
      match pageAlloc s with
      | none => []
      | some (page, s) =>
        match readPage phdr off f with
        | (.error _, _) => [page]
        | (.ok bs, f) =>
          let va := (phdr.va + off) % 2 ^ 64
          match vpageMapUser (s.memcpyTo (page * pageSize) bs) root va page (phdrFlagToPteFlag phdr.flags) with
          | none => []
          | some (s', res) =>
            if res < 0 then []
            else leafPut (entry s root va) ++ (if phdr.flags % 8 = 0 then [page] else []) ++
              mapPhdrLoopLost root phdr fuel ((off + pageSize) % 2 ^ 64) s' f
    else []

def mapPhdrLost (root : ℕ) (phdr : ElfPhdr) (s : Kmem) (f : File) : List ℕ :=
  let (res, f) := fileSeek f phdr.offset
  if asInt res < 0 then [] else mapPhdrLoopLost root phdr (s.freePages.length + 1) 0 s f

def elfMapLoopLost (root : ℕ) : List ElfPhdr → Kmem → File → List ℕ
  | [], _, _ => []
  | phdr :: phdrs, s, f =>
    if !isLoadPhdr phdr then elfMapLoopLost root phdrs s f
    else if !isValidPhdr phdr then []
    else
      mapPhdrLost root phdr s f ++
        match mapPhdr root phdr s f with
        | none => []
        | some (s, f, res) => if res < 0 then [] else elfMapLoopLost root phdrs s f

def elfMapLost (stack : Bytes) (s : Kmem) (root : ℕ) (f : File) (hdr : ElfHdr) : List ℕ :=
  match loadPhdr stack f hdr with
  | (.error _, _) => []
  | (.ok phdrs, f) => elfMapLoopLost root phdrs s f

section

variable {s s₁ s₂ : Kmem} {root va page flags off fuel : ℕ} {f f' : File} {phdr : ElfPhdr}
  {phdrs : List ElfPhdr} {res : ℤ} {taken own lost : List ℕ}

/-- The tree of an image after a step that may have lost pages, or one that cannot be
freed. -/
def Accounted (s s₂ : Kmem) (root : ℕ) (own lost : List ℕ) (res : ℤ) : Prop :=
  (∃ taken own', own ⊆ own' ∧ Image s s₂ root taken own' lost) ∨ res < 0 ∧ Broken s₂ root

theorem phdrFlagToPteFlag_plain (flags : ℕ) : hasAny (pteU ||| phdrFlagToPteFlag flags) pteCow = false ∧
    hasAny (pteU ||| phdrFlagToPteFlag flags) pteG = false := by
  unfold phdrFlagToPteFlag
  split_ifs <;> decide

theorem leafPut_phdr (hp : page < 2 ^ 52) (flags : ℕ) :
    leafPut (makePte page (leafFlags (pteU ||| phdrFlagToPteFlag flags))) =
      if flags % 8 = 0 then [] else [page] := by
  rw [leafPut_leaf hp (phdrFlagToPteFlag_lt flags), (phdrFlagToPteFlag_plain flags).2, Bool.not_false,
    Bool.true_and]
  by_cases h : flags % 8 = 0
  · rw [(isANextLvlPtr_phdr flags).mpr h, if_pos h]
    rfl
  · rw [Bool.eq_false_iff.mpr (mt (isANextLvlPtr_phdr flags).mp h), if_neg h]
    rfl

theorem memcpyTo_page_frame {bs : List UInt8} {q : ℕ} (hlen : bs.length ≤ pageSize) (hq : q ≠ page) :
    (s.memcpyTo (page * pageSize) bs).mem q = s.mem q := by
  refine Kmem.memcpyTo_mem_page_ne fun k hk => ?_
  rw [show (page * pageSize + k) / pageSize = page by simp only [pageSize] at hlen ⊢; omega]
  exact hq

theorem Image.fill {bs : List UInt8} (h : Image s s₁ root taken own lost) (hf : FreeList s)
    (ha : pageAlloc s₁ = some (page, s₂)) (hlen : bs.length ≤ pageSize) :
    Image s (s₂.memcpyTo (page * pageSize) bs) root (taken ++ [page]) (own ++ [page]) (lost ++ [page]) ∧
      ∀ va, entry (s₂.memcpyTo (page * pageSize) bs) root va = entry s₂ root va := by
  obtain ⟨himage, -⟩ := h.alloc hf ha
  refine himage.store hf (Kmem.memcpyTo_freePages ..) (Kmem.memcpyTo_pageRc ..) fun q _ hq =>
    memcpyTo_page_frame hlen fun heq => hq ?_
  rw [heq]
  exact mem_append_right _ (mem_singleton_self page)

theorem Image.mapPage {bs : List UInt8} (h : Image s s₁ root taken own lost) (hf : FreeList s)
    (ha : pageAlloc s₁ = some (page, s₂)) (hlen : bs.length ≤ pageSize) {s₃ : Kmem}
    (hm : vpageMapUser (s₂.memcpyTo (page * pageSize) bs) root va page (phdrFlagToPteFlag flags) =
      some (s₃, 0)) :
    ∃ taken', Image s s₃ root taken' (own ++ [page])
      (lost ++ (leafPut (entry s₂ root va) ++ if flags % 8 = 0 then [page] else [])) := by
  obtain ⟨himage, hentry⟩ := h.fill hf ha hlen
  have hin : page ∈ own ++ [page] := mem_append_right _ (mem_singleton_self page)
  have hsmall : page < 2 ^ 52 := hf.small page (himage.takes.mem_free (himage.own_taken page hin))
  obtain ⟨⟨taken', himage₃⟩, -⟩ := @Image.map _ _ _ _ _ _ _ _ _ _
    (lost ++ (leafPut (entry s₂ root va) ++ if flags % 8 = 0 then [page] else [])) himage hf hm
    (phdrFlagToPteFlag_lt flags) (phdrFlagToPteFlag_plain flags).1 (fun _ => hin) (by
      rw [hentry, leafPut_phdr hsmall, perm_iff_count]
      intro q
      split <;> simp only [count_append, count_nil] <;> omega)
  exact ⟨_, himage₃⟩

section Accounted

variable (hf : FreeList s) (hi : Idle s) (himage : Image s s₁ root taken own lost)
include hf hi himage

theorem mapPhdrLoop_accounted (h : mapPhdrLoop root phdr fuel off s₁ f = some (s₂, f', res)) :
    Accounted s s₂ root own (lost ++ mapPhdrLoopLost root phdr fuel off s₁ f) res := by
  induction fuel generalizing off s₁ f taken own lost with
  | zero => cases h
  | succ fuel ih =>
    rw [mapPhdrLoop] at h
    rw [mapPhdrLoopLost]
    split at h
    · rename_i hlt
      rw [if_pos hlt]
      rcases ha : pageAlloc s₁ with _ | ⟨page, s₃⟩
      · rw [ha] at h
        cases h
        dsimp only
        rw [append_nil]
        exact .inl ⟨_, _, Subset.refl own, himage⟩
      · rw [ha] at h
        dsimp only at h ⊢
        rcases hread : readPage phdr off f with ⟨e | bs, f₁⟩
        · rw [hread] at h
          cases h
          exact .inl ⟨_, _, subset_append_left _ _, (himage.alloc hf ha).1⟩
        · rw [hread] at h
          obtain ⟨⟨s₄, res₄⟩, hm, h⟩ := bind_eq_some_iff.mp h
          dsimp only at h ⊢
          rw [hm]
          dsimp only
          split at h
          · rename_i hneg
            rw [if_pos hneg, append_nil]
            obtain ⟨s₅, hput, h⟩ := bind_eq_some_iff.mp h
            cases h
            obtain ⟨himage₃, -⟩ := himage.fill hf ha (readPage_length hread)
            rcases himage₃.map_fail hf hi hm hneg with heq | hbroken
            · rw [heq] at hput
              obtain ⟨himage₅, -⟩ := himage.putBack hf hi ha (Kmem.memcpyTo_freePages ..)
                (Kmem.memcpyTo_pageRc ..) (fun _ => memcpyTo_page_frame (readPage_length hread)) hput
              exact .inl ⟨_, _, Subset.refl own, himage₅⟩
            · exact .inr ⟨hneg, hbroken.put hput⟩
          · rename_i hnn
            obtain rfl := vpageMap_res_zero hm hnn
            rw [if_neg hnn, ← append_assoc]
            obtain ⟨taken', himage₄⟩ := himage.mapPage hf ha (readPage_length hread) hm
            obtain ⟨taken₂, own₂, hsub, himage₂⟩ | hbroken := ih himage₄ h
            · exact .inl ⟨_, _, fun q hq => hsub (mem_append_left _ hq), himage₂⟩
            · exact .inr hbroken
    · rename_i hge
      cases h
      rw [if_neg hge, append_nil]
      exact .inl ⟨_, _, Subset.refl own, himage⟩

theorem mapPhdr_accounted (h : mapPhdr root phdr s₁ f = some (s₂, f', res)) :
    Accounted s s₂ root own (lost ++ mapPhdrLost root phdr s₁ f) res := by
  unfold mapPhdr at h
  unfold mapPhdrLost
  dsimp only at h ⊢
  split at h
  · rename_i hneg
    cases h
    rw [if_pos hneg, append_nil]
    exact .inl ⟨_, _, Subset.refl own, himage⟩
  · rename_i hnn
    rw [if_neg hnn]
    exact mapPhdrLoop_accounted hf hi himage h

theorem elfMapLoop_accounted (h : elfMapLoop root phdrs s₁ f = some (s₂, f', res)) :
    Accounted s s₂ root own (lost ++ elfMapLoopLost root phdrs s₁ f) res := by
  induction phdrs generalizing s₁ f taken own lost with
  | nil =>
    cases h
    rw [elfMapLoopLost, append_nil]
    exact .inl ⟨_, _, Subset.refl own, himage⟩
  | cons phdr phdrs ih =>
    rw [elfMapLoop] at h
    rw [elfMapLoopLost]
    split at h
    · rename_i hskip
      rw [if_pos hskip]
      exact ih himage h
    · rename_i hload
      rw [if_neg hload]
      split at h
      · rename_i hbad
        cases h
        rw [if_pos hbad, append_nil]
        exact .inl ⟨_, _, Subset.refl own, himage⟩
      · rename_i hvalid
        obtain ⟨⟨s₃, f₃, res₃⟩, hm, h⟩ := bind_eq_some_iff.mp h
        rw [if_neg hvalid, hm, ← append_assoc]
        dsimp only at h ⊢
        have hseg := mapPhdr_accounted hf hi himage hm
        split at h
        · rename_i hneg
          cases h
          rw [if_pos hneg, append_nil]
          exact hseg
        · rename_i hnn
          rw [if_neg hnn]
          obtain ⟨taken', own', hsub, himage'⟩ | hbroken := hseg
          · obtain ⟨taken₂, own₂, hsub₂, himage₂⟩ | hbroken := ih himage' h
            · exact .inl ⟨_, _, Subset.trans hsub hsub₂, himage₂⟩
            · exact .inr hbroken
          · exact absurd hbroken.1 hnn

theorem elfMap_accounted {stack : Bytes} {hdr : ElfHdr} (h : elfMap stack s₁ root f hdr = some (s₂, f', res)) :
    Accounted s s₂ root own (lost ++ elfMapLost stack s₁ root f hdr) res := by
  rcases hload : loadPhdr stack f hdr with ⟨phdrs, f₁⟩
  cases phdrs with
  | error e =>
    simp only [elfMap, hload, some.injEq, Prod.mk.injEq] at h
    obtain ⟨rfl, -, -⟩ := h
    simp only [elfMapLost, hload, append_nil]
    exact .inl ⟨_, _, Subset.refl own, himage⟩
  | ok phdrs =>
    simp only [elfMap, hload] at h
    simp only [elfMapLost, hload]
    exact elfMapLoop_accounted hf hi himage h

end Accounted

end

end RvMiniOs.Memory
