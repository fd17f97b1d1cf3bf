import RvMiniOs.Lib.Bytes
import RvMiniOs.Memory.Mmap

/-!
# The ELF loader

Translation of `elf.c`. What `file_read` does is a function of the offset and the
count: an error, or the bytes that it stores; for a regular file a count that goes
beyond the end stores nothing and is reported as 0. Structures on the stack keep what
was there where nothing is stored.
-/

namespace RvMiniOs.Memory

open Lib List Option

abbrev ramStart : ℕ := 0x80000000

structure File where
  off : ℕ
  answer : ℕ → ℕ → Except ℤ (List UInt8)
  length_le : ∀ {off n bs}, answer off n = .ok bs → bs.length ≤ n
  error_neg : ∀ {off n e}, answer off n = .error e → e < 0

def regularAnswer (content : List UInt8) (off n : ℕ) : Except ℤ (List UInt8) :=
  if content.length < off % 2 ^ 32 + n then .ok [] else .ok ((content.drop (off % 2 ^ 32)).take n)

def File.regular (content : List UInt8) : File where
  off := 0
  answer := regularAnswer content
  length_le := by
    intro off n bs h
    unfold regularAnswer at h
    split at h <;> cases h <;> simp
  error_neg := by
    intro off n e h
    unfold regularAnswer at h
    split at h <;> cases h

def fileSeek (f : File) (off : ℕ) : ℤ × File :=
  if 2 ^ 63 ≤ off then (-einval, f) else (off, { f with off })

def asInt (n : ℤ) : ℤ := n.bmod (2 ^ 32)

def fileRead (f : File) (n : ℕ) : Except ℤ (List UInt8) × File :=
  match f.answer f.off n with
  | .error e => (.error e, f)
  | .ok bs => (.ok bs, { f with off := f.off + bs.length })

def stored (stack : Bytes) (bs : List UInt8) : Bytes := splice stack 0 bs.length (listBytes bs)

abbrev elfMaxPhdr : ℕ := 16
abbrev sizeofElfHdr : ℕ := 64
abbrev sizeofElfPhdr : ℕ := 56

structure ElfHdr where
  ident : Bytes
  type : ℕ
  machine : ℕ
  entry : ℕ
  phdroff : ℕ
  phdrSize : ℕ
  phdrNum : ℕ

def ElfHdr.read (b : Bytes) : ElfHdr :=
  ⟨b, leNat b 16 2, leNat b 18 2, leNat b 24 8, leNat b 32 8, leNat b 54 2, leNat b 56 2⟩

structure ElfPhdr where
  type : ℕ
  flags : ℕ
  offset : ℕ
  va : ℕ
  filesz : ℕ
  memsz : ℕ
  va_lt : va < 2 ^ 64
  memsz_lt : memsz < 2 ^ 64

def ElfPhdr.read (b : Bytes) (i : ℕ) : ElfPhdr where
  type := leNat b (sizeofElfPhdr * i) 4
  flags := leNat b (sizeofElfPhdr * i + 4) 4
  offset := leNat b (sizeofElfPhdr * i + 8) 8
  va := leNat b (sizeofElfPhdr * i + 16) 8
  filesz := leNat b (sizeofElfPhdr * i + 32) 8
  memsz := leNat b (sizeofElfPhdr * i + 40) 8
  va_lt := leNat_lt b _ 8
  memsz_lt := leNat_lt b _ 8

def elfLoadHdr (stack : Bytes) (f : File) : Except ℤ ElfHdr × File :=
  let (res, f) := fileSeek f 0
  if asInt res < 0 then (.error (asInt res), f)
  else
    match fileRead f sizeofElfHdr with
    | (.error e, f) => (.error e, f)
    | (.ok bs, f) => (.ok (ElfHdr.read (stored stack bs)), f)

def elfVerifyFileFormat (hdr : ElfHdr) : ℤ :=
  if slice hdr.ident 0 4 ≠ [0x7f, 69, 76, 70] then -enoexec
  else if hdr.ident 4 ≠ 2 then -enoexec
  else if hdr.ident 5 ≠ 1 then -enoexec
  else if hdr.type ≠ 2 then -enoexec
  else if hdr.machine ≠ 243 then -enoexec
  else 0

def loadPhdr (stack : Bytes) (f : File) (hdr : ElfHdr) : Except ℤ (List ElfPhdr) × File :=
  if hdr.phdrNum = 0 ∨ elfMaxPhdr < hdr.phdrNum then (.error (-enoexec), f)
  else if hdr.phdrSize ≠ sizeofElfPhdr then (.error (-enoexec), f)
  else
    let (res, f) := fileSeek f hdr.phdroff
    if asInt res < 0 then (.error (asInt res), f)
    else
      match fileRead f (hdr.phdrNum * sizeofElfPhdr) with
      | (.error e, f) => (.error e, f)
      | (.ok bs, f) => (.ok ((List.range hdr.phdrNum).map (ElfPhdr.read (stored stack bs))), f)

def isLoadPhdr (phdr : ElfPhdr) : Bool := phdr.type = 1

def isValidPhdr (phdr : ElfPhdr) : Bool :=
  if phdr.memsz < phdr.filesz then false
  else if phdr.va % pageSize ≠ 0 then false
  else if (phdr.va + phdr.memsz) % 2 ^ 64 > ramStart then false
  else true

def phdrFlagToPteFlag (flags : ℕ) : ℕ :=
  (if hasAny flags 1 then pteX else 0) ||| (if hasAny flags 2 then pteW else 0) |||
    (if hasAny flags 4 then pteR else 0)

def readPage (phdr : ElfPhdr) (off : ℕ) (f : File) : Except ℤ (List UInt8) × File :=
  if off < phdr.filesz then fileRead f (min (phdr.filesz - off) pageSize) else (.ok [], f)

def mapPhdrLoop (root : ℕ) (phdr : ElfPhdr) : ℕ → ℕ → Kmem → File → Option (Kmem × File × ℤ)
  | 0, _, _, _ => none
  | fuel + 1, off, s, f =>
    if off < phdr.memsz then
      match pageAlloc s with
      | none => some (s, f, -enomem)
      | some (page, s) =>
        match readPage phdr off f with
        | (.error e, f) => some (s, f, e)
        | (.ok bs, f) => do
          let s := s.memcpyTo (page * pageSize) bs
          let (s, res) ← vpageMapUser s root ((phdr.va + off) % 2 ^ 64) page (phdrFlagToPteFlag phdr.flags)
          if res < 0 then do
            let s ← pagePut s page
            some (s, f, res)
          else mapPhdrLoop root phdr fuel ((off + pageSize) % 2 ^ 64) s f
    else some (s, f, 0)

def mapPhdr (root : ℕ) (phdr : ElfPhdr) (s : Kmem) (f : File) : Option (Kmem × File × ℤ) :=
  let (res, f) := fileSeek f phdr.offset
  if asInt res < 0 then some (s, f, asInt res)
  else mapPhdrLoop root phdr (s.freePages.length + 1) 0 s f

def elfMapLoop (root : ℕ) : List ElfPhdr → Kmem → File → Option (Kmem × File × ℤ)
  | [], s, f => some (s, f, 0)
  | phdr :: phdrs, s, f =>
    if !isLoadPhdr phdr then elfMapLoop root phdrs s f
    else if !isValidPhdr phdr then some (s, f, -enoexec)
    else do
      let (s, f, res) ← mapPhdr root phdr s f
      if res < 0 then some (s, f, res) else elfMapLoop root phdrs s f

def elfMap (stack : Bytes) (s : Kmem) (root : ℕ) (f : File) (hdr : ElfHdr) :
    Option (Kmem × File × ℤ) :=
  match loadPhdr stack f hdr with
  | (.error e, f) => some (s, f, e)
  | (.ok phdrs, f) => elfMapLoop root phdrs s f

def covers (phdr : ElfPhdr) (n : ℕ) : Bool :=
  isLoadPhdr phdr && decide (phdr.va ≤ n * pageSize) && decide (n * pageSize < phdr.va + phdr.memsz)

def flagsAt : List ElfPhdr → ℕ → Option ℕ
  | [], _ => none
  | phdr :: phdrs, n => (flagsAt phdrs n).or (if covers phdr n then some phdr.flags else none)

def phdrPages (phdr : ElfPhdr) : List ℕ :=
  (List.range ((phdr.memsz + (pageSize - 1)) / pageSize)).map fun k => (phdr.va + k * pageSize) % 2 ^ 64

theorem pageOf_mul {n : ℕ} (hn : n < 2 ^ 27) : pageOf (n * pageSize) = n := by
  rw [pageOf, Nat.mul_div_cancel _ (by decide), Nat.mod_eq_of_lt hn]

theorem isANextLvlPtr_phdr (flags : ℕ) :
    isANextLvlPtr (pteU ||| phdrFlagToPteFlag flags) = true ↔ flags % 8 = 0 := by
  have hbit : ∀ k, hasAny flags (2 ^ k) = decide (flags / 2 ^ k % 2 = 1) := fun k => by
    rw [hasAny_two_pow, Nat.testBit_eq_decide_div_mod_eq]
  have h0 := hbit 0
  have h1 := hbit 1
  have h2 := hbit 2
  norm_num only at h0 h1 h2
  unfold phdrFlagToPteFlag
  rw [h0, h1, h2]
  rcases Nat.mod_two_eq_zero_or_one (flags / 1) with e0 | e0 <;>
    rcases Nat.mod_two_eq_zero_or_one (flags / 2) with e1 | e1 <;>
    rcases Nat.mod_two_eq_zero_or_one (flags / 4) with e2 | e2 <;>
    simp only [e0, e1, e2] <;> simp +decide <;> omega

theorem phdrFlagToPteFlag_lt (flags : ℕ) : pteU ||| phdrFlagToPteFlag flags < 2 ^ 10 := by
  unfold phdrFlagToPteFlag
  split_ifs <;> decide

section Loads

variable {s s' s₁ : Kmem} {root va page flags off fuel : ℕ} {f f' : File} {phdr : ElfPhdr}
  {phdrs : List ElfPhdr} {res : ℤ}

theorem fileRead_error {n : ℕ} {e : ℤ} (h : fileRead f n = (.error e, f')) : e < 0 := by
  unfold fileRead at h
  split at h
  · rename_i hans
    cases h
    exact f.error_neg hans
  · cases h

theorem readPage_length {bs : List UInt8} (h : readPage phdr off f = (.ok bs, f')) :
    bs.length ≤ pageSize := by
  unfold readPage at h
  split at h
  · unfold fileRead at h
    split at h
    · cases h
    · rename_i ans hans
      cases h
      exact (f.length_le hans).trans (Nat.min_le_right _ _)
  · cases h
    exact Nat.zero_le _

theorem readPage_error {e : ℤ} (h : readPage phdr off f = (.error e, f')) : e < 0 := by
  unfold readPage at h
  split at h
  · exact fileRead_error h
  · cases h

theorem mapPhdrLoop_fuel {fuel' : ℕ} (h : s.freePages.length < fuel) (h' : s.freePages.length < fuel') :
    mapPhdrLoop root phdr fuel off s f = mapPhdrLoop root phdr fuel' off s f := by
  induction fuel generalizing fuel' off s f with
  | zero => omega
  | succ fuel ih =>
    obtain ⟨fuel', rfl⟩ : ∃ k, fuel' = k + 1 := ⟨fuel' - 1, by omega⟩
    rw [mapPhdrLoop, mapPhdrLoop]
    split
    · split
      · rfl
      · rename_i page s₁ ha
        have hfree : s.freePages.length = s₁.freePages.length + 1 := by
          rw [(pageAlloc_takes ha).1.free]
          simp
        split
        · rfl
        · rename_i bs f₁ hread
          refine bind_congr fun r hm => ?_
          dsimp only
          split
          · rfl
          · rename_i hres
            have hle := vpageMap_free_le hm (vpageMap_res_zero hm hres)
            rw [Kmem.memcpyTo_freePages] at hle
            exact ih (by omega) (by omega)
    · rfl

theorem Space.fill {bs : List UInt8} (hs : Space s root) (ha : pageAlloc s = some (page, s₁))
    (hlen : bs.length ≤ pageSize) : Grows s (s₁.memcpyTo (page * pageSize) bs) root [page] ∧ (∀ vb,
    entry (s₁.memcpyTo (page * pageSize) bs) root vb = entry s root vb) ∧
    page ∉ tablesOf (s₁.memcpyTo (page * pageSize) bs).mem 2 root := by
  obtain ⟨ht, hmem⟩ := pageAlloc_takes ha
  have hpage : page ∈ s.freePages := ht.mem_free mem_cons_self
  have ht' : Takes s (s₁.memcpyTo (page * pageSize) bs) [page] :=
    ⟨by rw [Kmem.memcpyTo_freePages]; exact ht.free, fun q => by rw [Kmem.memcpyTo_pageRc]; exact ht.count q⟩
  have hsame : ∀ q, q ≠ page → (s₁.memcpyTo (page * pageSize) bs).mem q = s.mem q := fun q hq => by
    rw [Kmem.memcpyTo_mem_page_ne, hmem, Function.update_of_ne hq]
    intro k hk
    rw [show (page * pageSize + k) / pageSize = page by simp only [pageSize] at hlen ⊢; omega]
    exact hq
  obtain ⟨hg, hentry, -⟩ := hs.take ht' fun q hq => hsame q (by simpa using hq)
  have htables := (hs.table.congr fun q hq => hsame q fun heq => hs.used q hq (heq ▸ hpage)).2
  exact ⟨hg, hentry, fun hin => hs.used page (htables ▸ hin) hpage⟩

theorem mapPage_ok {bs : List UInt8} (hs : Space s root) (hf : FreeList s)
    (ha : pageAlloc s = some (page, s₁)) (hlen : bs.length ≤ pageSize)
    (hm : vpageMapUser (s₁.memcpyTo (page * pageSize) bs) root va page flags = some (s', 0)) : (∃ taken,
    Grows s s' root taken) ∧ (∀ vb, entry s' root vb = if pageOf vb = pageOf va then
    makePte page (leafFlags (pteU ||| flags)) else entry s root vb) ∧ page ∉ tablesOf s'.mem 2 root ∧
    page ∉ s'.freePages ∧ s'.mem page = (s₁.memcpyTo (page * pageSize) bs).mem page := by
  obtain ⟨hg, hentry, hnot⟩ := hs.fill ha hlen
  obtain ⟨taken, hg', hentry', -⟩ := vpageMap_ok (hg.space hs hf) (hg.takes.freeList hf) hm
  have hfree := hg.takes.not_free hf mem_cons_self
  have htaken : page ∉ taken := fun hin => hfree (hg'.takes.mem_free hin)
  refine ⟨⟨_, hg.trans hg' hf⟩, fun vb => ?_, fun hin => (hg'.tables page hin).elim hnot htaken, fun hin =>
    hfree ?_, hg'.frame page hnot htaken⟩
  · rw [hentry', hentry]
  · rw [hg'.takes.free]
    exact mem_append_right _ hin

def Loaded (s s' : Kmem) (root : ℕ) (phdr : ElfPhdr) (off : ℕ) : Prop :=
  ∀ n < 2 ^ 27,
    (phdr.va + off ≤ n * pageSize → n * pageSize < phdr.va + phdr.memsz →
      ∃ page, entry s' root (n * pageSize) =
        makePte page (leafFlags (pteU ||| phdrFlagToPteFlag phdr.flags))) ∧
    (¬ (phdr.va + off ≤ n * pageSize ∧ n * pageSize < phdr.va + phdr.memsz) →
      entry s' root (n * pageSize) = entry s root (n * pageSize))

theorem mapPhdrLoop_ok (hva : phdr.va % pageSize = 0) (hend : phdr.va + phdr.memsz ≤ ramStart)
    (hs : Space s root) (hf : FreeList s) (hoff : off % pageSize = 0)
    (h : mapPhdrLoop root phdr fuel off s f = some (s', f', res)) (hres : 0 ≤ res) :
    res = 0 ∧ (∃ taken, Grows s s' root taken) ∧ Loaded s s' root phdr off := by
  induction fuel generalizing off s f with
  | zero => cases h
  | succ fuel ih =>
    rw [mapPhdrLoop] at h
    split at h
    · rename_i hlt
      split at h
      · cases h
        exact absurd hres (by decide)
      · rename_i page s₁ ha
        split at h
        · rename_i e f₁ hread
          cases h
          exact absurd hres (not_le.mpr (readPage_error hread))
        · rename_i bs f₁ hread
          obtain ⟨⟨s₂, res₂⟩, hm, h⟩ := bind_eq_some_iff.mp h
          dsimp only at h
          split at h
          · rename_i hneg
            obtain ⟨s₃, -, h⟩ := bind_eq_some_iff.mp h
            cases h
            exact absurd hres (not_le.mpr hneg)
          · rename_i hnn
            obtain rfl := vpageMap_res_zero hm hnn
            simp only [pageSize, ramStart] at hva hend hoff
            have hw : (phdr.va + off) % 2 ^ 64 = phdr.va + off := Nat.mod_eq_of_lt (by omega)
            have hnext : (off + pageSize) % 2 ^ 64 = off + pageSize :=
              Nat.mod_eq_of_lt (by simp only [pageSize]; omega)
            rw [hw] at hm
            rw [hnext] at h
            obtain ⟨⟨taken, hg⟩, hentry, -⟩ := mapPage_ok hs hf ha (readPage_length hread) hm
            obtain ⟨hres0, ⟨taken', hg'⟩, hl⟩ := ih (hg.space hs hf) (hg.takes.freeList hf)
              (by simp only [pageSize]; omega) h
            refine ⟨hres0, ⟨_, hg.trans hg' hf⟩, fun n hn => ?_⟩
            obtain ⟨hin, hout⟩ := hl n hn
            have hpage : pageOf (phdr.va + off) = (phdr.va + off) / pageSize := by
              simp only [pageOf, pageSize]
              omega
            have hval := hentry (n * pageSize)
            rw [pageOf_mul hn, hpage] at hval
            simp only [pageSize] at hin hout hval ⊢
            refine ⟨fun hlo hhi => ?_, fun hnot => ?_⟩
            · by_cases hfirst : n = (phdr.va + off) / 4096
              · rw [if_pos hfirst] at hval
                exact ⟨page, (hout (by omega)).trans hval⟩
              · exact hin (by omega) hhi
            · rw [if_neg (by omega)] at hval
              exact (hout (by omega)).trans hval
    · rename_i hge
      cases h
      refine ⟨rfl, ⟨[], Grows.refl hs⟩, fun n _ => ⟨fun hlo hhi => ?_, fun _ => rfl⟩⟩
      omega

theorem mapPhdr_ok (hva : phdr.va % pageSize = 0) (hend : phdr.va + phdr.memsz ≤ ramStart)
    (hs : Space s root) (hf : FreeList s) (h : mapPhdr root phdr s f = some (s', f', res))
    (hres : 0 ≤ res) : res = 0 ∧ (∃ taken, Grows s s' root taken) ∧ Loaded s s' root phdr 0 := by
  unfold mapPhdr at h
  dsimp only at h
  split at h
  · rename_i hneg
    simp only [some.injEq, Prod.mk.injEq] at h
    exact absurd hres (not_le.mpr (h.2.2 ▸ hneg))
  · exact mapPhdrLoop_ok hva hend hs hf rfl h hres

theorem isValidPhdr_iff : isValidPhdr phdr = true ↔ phdr.filesz ≤ phdr.memsz ∧
    phdr.va % pageSize = 0 ∧ (phdr.va + phdr.memsz) % 2 ^ 64 ≤ ramStart := by
  unfold isValidPhdr
  split_ifs <;> simp <;> omega

def NoWrap (phdrs : List ElfPhdr) : Prop :=
  ∀ phdr ∈ phdrs, isLoadPhdr phdr = true → 0 < phdr.memsz → phdr.va + phdr.memsz < 2 ^ 64

theorem mapPhdr_empty (hz : phdr.memsz = 0)
    (h : mapPhdr root phdr s f = some (s', f', res)) (hres : 0 ≤ res) : s' = s ∧ res = 0 := by
  unfold mapPhdr at h
  dsimp only at h
  split at h
  · rename_i hneg
    simp only [some.injEq, Prod.mk.injEq] at h
    exact absurd hres (not_le.mpr (h.2.2 ▸ hneg))
  · rw [mapPhdrLoop, if_neg (by omega)] at h
    cases h
    exact ⟨rfl, rfl⟩

theorem elfMapLoop_ok (hwrap : NoWrap phdrs) (hs : Space s root) (hf : FreeList s)
    (h : elfMapLoop root phdrs s f = some (s', f', 0)) : (∃ taken, Grows s s' root taken) ∧ ∀ n < 2 ^ 27,
    (flagsAt phdrs n = none → entry s' root (n * pageSize) = entry s root (n * pageSize)) ∧ ∀ fl,
    flagsAt phdrs n = some fl → ∃ page, entry s' root (n * pageSize) =
    makePte page (leafFlags (pteU ||| phdrFlagToPteFlag fl)) := by
  induction phdrs generalizing s f with
  | nil =>
    cases h
    exact ⟨⟨[], Grows.refl hs⟩, fun n _ => ⟨fun _ => rfl, fun fl hfl => by cases hfl⟩⟩
  | cons phdr phdrs ih =>
    have hwrap' : NoWrap phdrs := fun q hq => hwrap q (mem_cons_of_mem _ hq)
    rw [elfMapLoop] at h
    split at h
    · rename_i hload
      have hcov : ∀ n, covers phdr n = false := fun n => by
        rw [covers, show isLoadPhdr phdr = false by simpa using hload]
        rfl
      simpa only [flagsAt, hcov, Bool.false_eq_true, if_false, or_none] using ih hwrap' hs hf h
    · rename_i hload
      have hload : isLoadPhdr phdr = true := by simpa using hload
      split at h
      · cases h
      · rename_i hvalid
        obtain ⟨-, hva, hend⟩ := isValidPhdr_iff.mp (by simpa using hvalid)
        obtain ⟨⟨s₁, f₁, res⟩, hm, h⟩ := bind_eq_some_iff.mp h
        dsimp only at h
        split at h
        · rename_i hneg
          simp only [some.injEq, Prod.mk.injEq] at h
          exact absurd hneg (by rw [h.2.2]; decide)
        · rename_i hnn
          have hone : (∃ taken, Grows s s₁ root taken) ∧ Loaded s s₁ root phdr 0 := by
            by_cases hz : phdr.memsz = 0
            · obtain ⟨rfl, -⟩ := mapPhdr_empty hz hm (not_lt.mp hnn)
              exact ⟨⟨[], Grows.refl hs⟩, fun n _ => ⟨fun hlo hhi => by omega, fun _ => rfl⟩⟩
            · have hnw := hwrap phdr mem_cons_self hload (Nat.pos_of_ne_zero hz)
              rw [Nat.mod_eq_of_lt hnw] at hend
              exact (mapPhdr_ok hva hend hs hf hm (not_lt.mp hnn)).2
          obtain ⟨⟨taken, hg⟩, hl⟩ := hone
          obtain ⟨⟨taken', hg'⟩, hrest⟩ := ih hwrap' (hg.space hs hf) (hg.takes.freeList hf) h
          refine ⟨⟨_, hg.trans hg' hf⟩, fun n hn => ?_⟩
          obtain ⟨hnone, hsome⟩ := hrest n hn
          obtain ⟨hin, hout⟩ := hl n hn
          simp only [flagsAt]
          cases hfl : flagsAt phdrs n with
          | some fl =>
            refine ⟨fun hor => by simp at hor, fun fl' hor => ?_⟩
            obtain rfl : fl = fl' := by simpa using hor
            exact hsome fl hfl
          | none =>
            rw [hnone hfl, none_or]
            by_cases hcov : covers phdr n = true
            · rw [if_pos hcov]
              simp only [covers, hload, Bool.true_and, Bool.and_eq_true, decide_eq_true_eq] at hcov
              refine ⟨fun hor => (nomatch hor), fun fl hor => ?_⟩
              cases hor
              exact hin hcov.1 hcov.2
            · rw [if_neg hcov]
              simp only [covers, hload, Bool.true_and, Bool.and_eq_true, decide_eq_true_eq] at hcov
              exact ⟨fun _ => hout (by simpa using hcov), fun fl hor => by cases hor⟩

theorem elfMapLoop_valid (h : elfMapLoop root phdrs s f = some (s', f', 0)) :
    ∀ phdr ∈ phdrs, isLoadPhdr phdr = true → isValidPhdr phdr = true := by
  induction phdrs generalizing s f with
  | nil => simp
  | cons phdr phdrs ih =>
    rw [elfMapLoop] at h
    intro q hq hload
    split at h
    · rename_i hno
      rcases mem_cons.mp hq with rfl | hq
      · simp [hload] at hno
      · exact ih h q hq hload
    · split at h
      · cases h
      · rename_i hvalid
        obtain ⟨⟨s₁, f₁, res⟩, -, h⟩ := bind_eq_some_iff.mp h
        dsimp only at h
        split at h
        · rename_i hneg
          simp only [some.injEq, Prod.mk.injEq] at h
          exact absurd hneg (by rw [h.2.2]; decide)
        · rcases mem_cons.mp hq with rfl | hq
          · simpa using hvalid
          · exact ih h q hq hload

theorem flagsAt_some {n fl : ℕ} (h : flagsAt phdrs n = some fl) : ∃ phdr ∈ phdrs, covers phdr n = true := by
  induction phdrs with
  | nil => cases h
  | cons phdr phdrs ih =>
    rw [flagsAt, or_eq_some_iff] at h
    rcases h with h | ⟨-, h⟩
    · obtain ⟨q, hq, hcov⟩ := ih h
      exact ⟨q, mem_cons_of_mem _ hq, hcov⟩
    · split at h
      · exact ⟨phdr, mem_cons_self, ‹_›⟩
      · cases h

end Loads

def phdrTab (stack : Bytes) (f : File) (hdr : ElfHdr) : List ElfPhdr :=
  match (loadPhdr stack f hdr).1 with
  | .error _ => []
  | .ok phdrs => phdrs

structure LayoutKept (s s' : Kmem) (root : ℕ) (phdrs : List ElfPhdr) : Prop where
  low : ∀ phdr ∈ phdrs, isLoadPhdr phdr = true → ∀ va ∈ phdrPages phdr, va < ramStart
  fixed : ∀ va ∈ [trampoline, trapframe, ustackTop], leafPte s' root va = leafPte s root va
  leaves : Leafy s' root

structure Harmless (phdrs : List ElfPhdr) : Prop where
  noWrap : NoWrap phdrs
  rights : ∀ n fl, flagsAt phdrs n = some fl → fl % 8 ≠ 0

theorem loadPhdr_error {stack : Bytes} {f f' : File} {hdr : ElfHdr} {e : ℤ}
    (h : loadPhdr stack f hdr = (.error e, f')) : e < 0 := by
  unfold loadPhdr at h
  split at h
  · cases h
    decide
  · split at h
    · cases h
      decide
    · dsimp only at h
      split at h
      · rename_i hneg
        simp only [Prod.mk.injEq, Except.error.injEq] at h
        exact h.1 ▸ hneg
      · split at h
        · rename_i hread
          simp only [Prod.mk.injEq, Except.error.injEq] at h
          exact h.1 ▸ fileRead_error hread
        · cases h

theorem elfMap_loop {stack : Bytes} {s s' : Kmem} {root : ℕ} {f f' : File} {hdr : ElfHdr}
    (h : elfMap stack s root f hdr = some (s', f', 0)) :
    elfMapLoop root (phdrTab stack f hdr) s (loadPhdr stack f hdr).2 = some (s', f', 0) := by
  unfold elfMap at h
  unfold phdrTab
  split at h
  · rename_i e f₁ hl
    simp only [some.injEq, Prod.mk.injEq] at h
    exact absurd (loadPhdr_error hl) (by rw [h.2.2]; decide)
  · rename_i phdrs f₁ hl
    rw [hl]
    exact h

section Layout

variable {s s' : Kmem} {root : ℕ} {phdr : ElfPhdr} {phdrs : List ElfPhdr}

theorem mem_phdrPages {va : ℕ} : va ∈ phdrPages phdr ↔
    ∃ k, k * pageSize < phdr.memsz ∧ va = (phdr.va + k * pageSize) % 2 ^ 64 := by
  simp only [phdrPages, List.mem_map, List.mem_range, pageSize]
  constructor
  · rintro ⟨k, hk, rfl⟩
    exact ⟨k, by omega, rfl⟩
  · rintro ⟨k, hk, rfl⟩
    exact ⟨k, by omega, rfl⟩

theorem noWrap_of_low (hvalid : isValidPhdr phdr = true) (hpos : 0 < phdr.memsz)
    (hlow : ∀ va ∈ phdrPages phdr, va < ramStart) : phdr.va + phdr.memsz < 2 ^ 64 := by
  obtain ⟨-, -, hend⟩ := isValidPhdr_iff.mp hvalid
  have hva := phdr.va_lt
  have hmem := phdr.memsz_lt
  have hfirst := hlow _ (mem_phdrPages.mpr ⟨0, by simpa using hpos, rfl⟩)
  by_contra hwrap
  -- the segment starts low, so it reaches `_ram_start`
  have hbeyond := hlow _ (mem_phdrPages.mpr ⟨2 ^ 19, by simp only [pageSize, ramStart] at *; omega, rfl⟩)
  simp only [pageSize, ramStart] at *
  omega

theorem low_of_noWrap (hvalid : isValidPhdr phdr = true)
    (hwrap : 0 < phdr.memsz → phdr.va + phdr.memsz < 2 ^ 64) : ∀ va ∈ phdrPages phdr, va < ramStart := by
  obtain ⟨-, -, hend⟩ := isValidPhdr_iff.mp hvalid
  intro va hva
  obtain ⟨k, hk, rfl⟩ := mem_phdrPages.mp hva
  have := hwrap (by omega)
  simp only [pageSize, ramStart] at *
  omega

theorem flagsAt_low (hvalid : ∀ phdr ∈ phdrs, isLoadPhdr phdr = true → isValidPhdr phdr = true)
    (hwrap : NoWrap phdrs) {n fl : ℕ} (h : flagsAt phdrs n = some fl) : n * pageSize < ramStart := by
  obtain ⟨phdr, hin, hcov⟩ := flagsAt_some h
  simp only [covers, Bool.and_eq_true, decide_eq_true_eq] at hcov
  obtain ⟨⟨hload, hlo⟩, hhi⟩ := hcov
  obtain ⟨-, -, hend⟩ := isValidPhdr_iff.mp (hvalid phdr hin hload)
  rw [Nat.mod_eq_of_lt (hwrap phdr hin hload (by omega))] at hend
  omega

theorem layoutKept_iff (hs : Space s root) (hf : FreeList s) (hleafy : Leafy s root) {f f' : File}
    (h : elfMapLoop root phdrs s f = some (s', f', 0)) : LayoutKept s s' root phdrs ↔ Harmless phdrs := by
  have hvalid := elfMapLoop_valid h
  constructor
  · intro hkept
    have hwrap : NoWrap phdrs := fun phdr hin hload hpos =>
      noWrap_of_low (hvalid phdr hin hload) hpos (hkept.low phdr hin hload)
    refine ⟨hwrap, fun n fl hfl hzero => ?_⟩
    have hn : n < 2 ^ 27 := by
      have := flagsAt_low hvalid hwrap hfl
      simp only [pageSize, ramStart] at this
      omega
    obtain ⟨page, hentry⟩ := ((elfMapLoop_ok hwrap hs hf h).2 n hn).2 fl hfl
    have hleaf := hkept.leaves (n * pageSize)
    rw [hentry, isANextLvlPtr_leaf, (isANextLvlPtr_phdr fl).mpr hzero] at hleaf
    exact absurd (hleaf (leaf_valid _ _)) (by decide)
  · rintro ⟨hwrap, hrights⟩
    obtain ⟨⟨taken, hg⟩, hentries⟩ := elfMapLoop_ok hwrap hs hf h
    refine ⟨fun phdr hin hload => low_of_noWrap (hvalid phdr hin hload) (hwrap phdr hin hload),
      fun va hva => ?_, fun va hv => ?_⟩
    · have hpage : pageOf va < 2 ^ 27 := Nat.mod_lt _ (by decide)
      have hva' : pageOf va * pageSize = va ∧ ramStart ≤ va := by
        simp only [mem_cons, not_mem_nil, or_false] at hva
        rcases hva with rfl | rfl | rfl <;> decide
      have hnone : flagsAt phdrs (pageOf va) = none := by
        cases hfl : flagsAt phdrs (pageOf va) with
        | none => rfl
        | some fl =>
          have := flagsAt_low hvalid hwrap hfl
          omega
      have hsame := (hentries (pageOf va) hpage).1 hnone
      rw [hva'.1] at hsame
      rw [leafPte_eq hg.table, leafPte_eq hs.table, hsame]
    · have hpage : pageOf va < 2 ^ 27 := Nat.mod_lt _ (by decide)
      have hrepr : ∀ s : Kmem, entry s root va = entry s root (pageOf va * pageSize) := fun s =>
        entry_congr (pageOf_mul hpage).symm
      rw [hrepr] at hv ⊢
      obtain ⟨hnone, hsome⟩ := hentries (pageOf va) hpage
      cases hfl : flagsAt phdrs (pageOf va) with
      | none =>
        rw [hnone hfl, ← hrepr] at hv ⊢
        exact hleafy va hv
      | some fl =>
        obtain ⟨page, hentry⟩ := hsome fl hfl
        rw [hentry, isANextLvlPtr_leaf]
        have := (isANextLvlPtr_phdr fl).not.mpr (hrights _ fl hfl)
        simpa using this

theorem harmless_of_all (h : phdrs.all (fun phdr => !isLoadPhdr phdr ||
    decide (phdr.va + phdr.memsz < 2 ^ 64) && decide (phdr.flags % 8 ≠ 0)) = true) : Harmless phdrs := by
  simp only [List.all_eq_true, Bool.or_eq_true, Bool.not_eq_true', Bool.and_eq_true, decide_eq_true_eq] at h
  have hload : ∀ phdr ∈ phdrs, isLoadPhdr phdr = true → phdr.va + phdr.memsz < 2 ^ 64 ∧
      phdr.flags % 8 ≠ 0 := fun phdr hin hl => (h phdr hin).resolve_left (by simp [hl])
  refine ⟨fun phdr hin hl _ => (hload phdr hin hl).1, fun n fl hfl => ?_⟩
  clear h
  induction phdrs with
  | nil => cases hfl
  | cons phdr phdrs ih =>
    rw [flagsAt, Option.or_eq_some_iff] at hfl
    rcases hfl with hfl | ⟨-, hfl⟩
    · exact ih (fun q hq => hload q (List.mem_cons_of_mem _ hq)) hfl
    · split at hfl
      · rename_i hcov
        cases hfl
        simp only [covers, Bool.and_eq_true] at hcov
        exact (hload phdr List.mem_cons_self hcov.1.1).2
      · cases hfl

end Layout

/-- A file that `elf_map` accepts keeps the layout of the new address space exactly
when no segment wraps around the address space and every page of a segment keeps a
right. -/
theorem elfMap_keeps_layout_iff {tramp : ℕ} {s s₁ s₂ : Kmem} {p p₁ : UTask} {stack : Bytes}
    {f f' : File} {hdr : ElfHdr} (hf : FreeList s) (himage : mmapUimage tramp s p = some (s₁, p₁, 0))
    (hmap : elfMap stack s₁ p₁.rootPtable f hdr = some (s₂, f', 0)) :
    LayoutKept s₁ s₂ p₁.rootPtable (phdrTab stack f hdr) ↔ Harmless (phdrTab stack f hdr) := by
  obtain ⟨-, hready⟩ := mmapUimage_ok hf himage (by decide)
  obtain ⟨taken, own, hb, -⟩ := hready.image
  exact layoutKept_iff (hb.space hf) (hb.freeList hf) hready.leafy (elfMap_loop hmap)

/-! A file whose segments ask for one page each. -/

def leBytes : ℕ → ℕ → List UInt8
  | 0, _ => []
  | n + 1, v => UInt8.ofNat v :: leBytes n (v / 256)

def segmentBytes (flags va : ℕ) : List UInt8 :=
  List.flatten [leBytes 4 1, leBytes 4 flags, leBytes 8 0, leBytes 8 va, leBytes 8 va, leBytes 8 64,
    leBytes 8 pageSize, leBytes 8 pageSize]

def elfBytes (segments : List (ℕ × ℕ)) : List UInt8 :=
  List.flatten [[0x7f, 69, 76, 70, 2, 1, 1], List.replicate 9 0, leBytes 2 2, leBytes 2 243, leBytes 4 1,
    leBytes 8 0x10000, leBytes 8 64, leBytes 8 0, leBytes 4 0, leBytes 2 64, leBytes 2 sizeofElfPhdr,
    leBytes 2 segments.length, List.replicate 6 0, segments.flatMap fun p => segmentBytes p.1 p.2]

def elfFile (segments : List (ℕ × ℕ)) : File := File.regular (elfBytes segments)

def elfHdr (segments : List (ℕ × ℕ)) : ElfHdr := ElfHdr.read (listBytes (elfBytes segments))

theorem exists_elfMap {segments : List (ℕ × ℕ)} {test : Kmem → ℕ → Bool}
    (h : (do
      let (s, p, res) ← mmapUimage 0 freshMem freshTask
      let (s', _, res') ← elfMap (listBytes []) s p.rootPtable (elfFile segments) (elfHdr segments)
      some (res, res', test s' p.rootPtable)) = some (0, 0, true)) :
    ∃ s₁ p₁ s₂ f', mmapUimage 0 freshMem freshTask = some (s₁, p₁, 0) ∧
      elfMap (listBytes []) s₁ p₁.rootPtable (elfFile segments) (elfHdr segments) = some (s₂, f', 0) ∧
      test s₂ p₁.rootPtable = true := by
  obtain ⟨⟨s₁, p₁, res⟩, himage, h⟩ := bind_eq_some_iff.mp h
  obtain ⟨⟨s₂, f', res'⟩, hmap, h⟩ := bind_eq_some_iff.mp h
  simp only [some.injEq, Prod.mk.injEq] at h
  obtain ⟨rfl, rfl, htest⟩ := h
  exact ⟨s₁, p₁, s₂, f', himage, hmap, htest⟩

/-- A program with code and data keeps the layout. -/
theorem elfMap_keeps_layout_codeAndData : ∃ s₁ p₁ s₂ f',
    mmapUimage 0 freshMem freshTask = some (s₁, p₁, 0) ∧
    elfMap (listBytes []) s₁ p₁.rootPtable (elfFile [(5, 0x10000), (6, 0x11000)])
      (elfHdr [(5, 0x10000), (6, 0x11000)]) = some (s₂, f', 0) ∧
    LayoutKept s₁ s₂ p₁.rootPtable (phdrTab (listBytes []) (elfFile [(5, 0x10000), (6, 0x11000)])
      (elfHdr [(5, 0x10000), (6, 0x11000)])) := by
  obtain ⟨s₁, p₁, s₂, f', himage, hmap, -⟩ := @exists_elfMap [(5, 0x10000), (6, 0x11000)]
    (fun _ _ => true) (by decide +kernel)
  refine ⟨s₁, p₁, s₂, f', himage, hmap,
    (elfMap_keeps_layout_iff freshMem_free himage hmap).mpr (harmless_of_all ?_)⟩
  decide +kernel

/-- A segment at the end of the address space, and one without rights, are accepted. -/
theorem elfMap_breaks_layout : ∃ s₁ p₁ s₂ f',
    mmapUimage 0 freshMem freshTask = some (s₁, p₁, 0) ∧
    elfMap (listBytes []) s₁ p₁.rootPtable (elfFile [(5, 2 ^ 64 - 4096), (0, 0x10000)])
      (elfHdr [(5, 2 ^ 64 - 4096), (0, 0x10000)]) = some (s₂, f', 0) ∧
    (∃ phdr ∈ phdrTab (listBytes []) (elfFile [(5, 2 ^ 64 - 4096), (0, 0x10000)])
        (elfHdr [(5, 2 ^ 64 - 4096), (0, 0x10000)]),
      isLoadPhdr phdr = true ∧ ∃ va ∈ phdrPages phdr, ramStart ≤ va) ∧
    hasAny (entry s₂ p₁.rootPtable 0x10000) pteV = true ∧
    isANextLvlPtr (entry s₂ p₁.rootPtable 0x10000) = true := by
  obtain ⟨s₁, p₁, s₂, f', himage, hmap, htest⟩ := @exists_elfMap [(5, 2 ^ 64 - 4096), (0, 0x10000)]
    (fun s root => hasAny (entry s root 0x10000) pteV && isANextLvlPtr (entry s root 0x10000))
    (by decide +kernel)
  have hphdr : (phdrTab (listBytes []) (elfFile [(5, 2 ^ 64 - 4096), (0, 0x10000)])
      (elfHdr [(5, 2 ^ 64 - 4096), (0, 0x10000)])).any (fun phdr => isLoadPhdr phdr &&
        (phdrPages phdr).any fun va => decide (ramStart ≤ va)) = true := by decide +kernel
  obtain ⟨phdr, hin, hphdr⟩ := any_eq_true.mp hphdr
  obtain ⟨hload, hpage⟩ := Bool.and_eq_true_iff.mp hphdr
  obtain ⟨va, hva, hlow⟩ := any_eq_true.mp hpage
  obtain ⟨hv, hn⟩ := Bool.and_eq_true_iff.mp htest
  exact ⟨s₁, p₁, s₂, f', himage, hmap, ⟨phdr, hin, hload, va, hva, of_decide_eq_true hlow⟩, hv, hn⟩

end RvMiniOs.Memory
