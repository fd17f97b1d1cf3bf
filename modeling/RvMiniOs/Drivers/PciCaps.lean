import RvMiniOs.Drivers.Pci

/-!
# The capability list of a PCI device

`pci_find_cap` follows the 8-bit links that the device supplies, with no bound on their
number. The capability at an offset holds its id in its first byte and the offset of the
next one in its second; offset 0 ends the list. The loop is the source's with fuel, and
`none` stands for a run that has not ended.
-/

namespace RvMiniOs.Drivers

open List Option

abbrev pciStatus : ℕ := 0x06
abbrev pciCapPtr : ℕ := 0x34
abbrev pciStatusCapList : BitVec 16 := 1 <<< 4
abbrev pciCapReserved : BitVec 8 := 0b11

def pciReadConfig8 (dev : PciDevice) (offset : ℕ) : BitVec 8 :=
  (dev.config (offset / 4 * 4) >>> (8 * (offset % 4))).setWidth 8

def pciReadConfig16 (dev : PciDevice) (offset : ℕ) : BitVec 16 :=
  (dev.config (offset / 4 * 4) >>> (8 * (offset % 4))).setWidth 16

def hasCapLinkedList (dev : PciDevice) : Bool :=
  pciReadConfig16 dev pciStatus &&& pciStatusCapList ≠ 0

/-- The `cap_ptr` that `pci_find_device` stores. -/
def capPtr (dev : PciDevice) : BitVec 8 :=
  if hasCapLinkedList dev then pciReadConfig8 dev pciCapPtr &&& ~~~pciCapReserved else 0

def capVndr (dev : PciDevice) (cap : BitVec 8) : BitVec 8 :=
  pciReadConfig8 dev cap.toNat

def capNext (dev : PciDevice) (cap : BitVec 8) : BitVec 8 :=
  pciReadConfig8 dev (cap.toNat + 1) &&& ~~~pciCapReserved

/-- The loop of `pci_find_cap`; the result is the offset of the capability, or `NULL`. -/
def pciFindCapFrom (dev : PciDevice) (capId : BitVec 8) : ℕ → BitVec 8 → Option (Option (BitVec 8))
  | 0, _ => none
  | fuel + 1, capOff =>
    if capOff = 0 then some none
    else if capVndr dev capOff = capId then some (some capOff)
    else pciFindCapFrom dev capId fuel (capNext dev capOff)

def capStart (dev : PciDevice) : Option (BitVec 8) → BitVec 8
  | none => capPtr dev
  | some prev => capNext dev prev

def pciFindCap (dev : PciDevice) (prev : Option (BitVec 8)) (capId : BitVec 8) (fuel : ℕ) :
    Option (Option (BitVec 8)) :=
  pciFindCapFrom dev capId fuel (capStart dev prev)

/-- `pci_find_cap` called with its previous result until it returns `NULL`. -/
def findCaps (dev : PciDevice) (capId : BitVec 8) (fuel : ℕ) :
    ℕ → Option (BitVec 8) → Option (List (BitVec 8))
  | 0, _ => none
  | calls + 1, prev =>
    match pciFindCap dev prev capId fuel with
    | none => none
    | some none => some []
    | some (some cap) => (findCaps dev capId fuel calls (some cap)).map (cap :: ·)

/-- The capability `n` links after offset `off`, if the list is that long. -/
def capAt (dev : PciDevice) (off : BitVec 8) : ℕ → Option (BitVec 8)
  | 0 => if off = 0 then none else some off
  | n + 1 => if off = 0 then none else capAt dev (capNext dev off) n

def CapsEnd (dev : PciDevice) : Prop := ∃ n, capAt dev (capPtr dev) n = none

/-- The call after `NULL` or after any capability of the list returns, and repeated calls
give each capability with the id once, in the order of the list, and then `NULL`. -/
structure CapsEnumerated (dev : PciDevice) (capId : BitVec 8) : Prop where
  returns : ∀ prev, (∀ cap, prev = some cap → ∃ n, capAt dev (capPtr dev) n = some cap) →
    ∃ fuel res, pciFindCap dev prev capId fuel = some res
  once : ∃ fuel calls caps, findCaps dev capId fuel calls none = some caps ∧ caps.Nodup ∧
    (∀ cap, cap ∈ caps ↔ (∃ n, capAt dev (capPtr dev) n = some cap) ∧ capVndr dev cap = capId) ∧
    caps.Pairwise fun cap cap' => ∃ m n, m < n ∧ capAt dev (capPtr dev) m = some cap ∧
      capAt dev (capPtr dev) n = some cap'

section

variable {dev : PciDevice} {capId off : BitVec 8} {path : List (BitVec 8)} {fuel : ℕ}

def IsPath (dev : PciDevice) : BitVec 8 → List (BitVec 8) → Prop
  | off, [] => off = 0
  | off, cap :: caps => off = cap ∧ off ≠ 0 ∧ IsPath dev (capNext dev off) caps

theorem IsPath.capAt_eq (h : IsPath dev off path) (n : ℕ) : capAt dev off n = path[n]? := by
  induction path generalizing off n with
  | nil =>
    have hoff : off = 0 := h
    cases n <;> simp [capAt, hoff]
  | cons cap caps ih =>
    obtain ⟨rfl, hne, hrest⟩ := h
    cases n with
    | zero => rw [capAt, if_neg hne, getElem?_cons_zero]
    | succ n => rw [capAt, if_neg hne, ih hrest, getElem?_cons_succ]

theorem exists_isPath {n : ℕ} (h : capAt dev off n = none) : ∃ path, IsPath dev off path := by
  induction n generalizing off with
  | zero =>
    by_cases hoff : off = 0
    · exact ⟨[], hoff⟩
    · rw [capAt, if_neg hoff] at h
      cases h
  | succ n ih =>
    by_cases hoff : off = 0
    · exact ⟨[], hoff⟩
    · rw [capAt, if_neg hoff] at h
      obtain ⟨path, hpath⟩ := ih h
      exact ⟨off :: path, rfl, hoff, hpath⟩

theorem IsPath.suffix {before after : List (BitVec 8)} {cap : BitVec 8}
    (h : IsPath dev off (before ++ cap :: after)) : IsPath dev cap (cap :: after) := by
  induction before generalizing off with
  | nil =>
    obtain ⟨rfl, hrest⟩ := h
    exact ⟨rfl, hrest⟩
  | cons _ before ih => exact ih h.2.2

theorem IsPath.nodup (h : IsPath dev off path) : path.Nodup := by
  induction path generalizing off with
  | nil => exact nodup_nil
  | cons cap caps ih =>
    obtain ⟨rfl, hne, hrest⟩ := h
    refine nodup_cons.mpr ⟨fun hmem => ?_, ih hrest⟩
    obtain ⟨before, after, rfl⟩ := append_of_mem hmem
    have hlong : IsPath dev off (off :: (before ++ off :: after)) := ⟨rfl, hne, hrest⟩
    have hshort : IsPath dev off (off :: after) := hrest.suffix
    have hends := (hlong.capAt_eq (after.length + 1)).symm.trans (hshort.capAt_eq (after.length + 1))
    rw [getElem?_eq_getElem (by simp only [length_cons, length_append]; omega),
      getElem?_eq_none (by simp)] at hends
    cases hends

theorem IsPath.pciFindCapFrom (h : IsPath dev off path) (hfuel : path.length < fuel) :
    pciFindCapFrom dev capId fuel off = some (path.find? (capVndr dev · = capId)) := by
  induction path generalizing off fuel with
  | nil =>
    obtain ⟨fuel, rfl⟩ := Nat.exists_eq_succ_of_ne_zero (Nat.ne_of_gt hfuel)
    have hoff : off = 0 := h
    rw [Drivers.pciFindCapFrom, if_pos hoff, find?_nil]
  | cons cap caps ih =>
    obtain ⟨rfl, hne, hrest⟩ := h
    obtain ⟨fuel, rfl⟩ := Nat.exists_eq_succ_of_ne_zero (Nat.ne_of_gt (Nat.zero_lt_of_lt hfuel))
    rw [Drivers.pciFindCapFrom, if_neg hne]
    by_cases hid : capVndr dev off = capId
    · rw [if_pos hid, find?_cons_of_pos (by simpa using hid)]
    · rw [if_neg hid, find?_cons_of_neg (by simpa using hid)]
      exact ih hrest (Nat.lt_of_succ_lt_succ hfuel)

theorem IsPath.findCaps {prev : Option (BitVec 8)} {calls : ℕ} (h : IsPath dev (capStart dev prev) path)
    (hfuel : path.length < fuel) (hcalls : path.length < calls) :
    findCaps dev capId fuel calls prev = some (path.filter (capVndr dev · = capId)) := by
  induction calls generalizing prev path with
  | zero => exact absurd hcalls (Nat.not_lt_zero _)
  | succ calls ih =>
    have hcall : pciFindCap dev prev capId fuel = some (path.find? (capVndr dev · = capId)) :=
      h.pciFindCapFrom hfuel
    rw [Drivers.findCaps, hcall]
    rcases hfind : path.find? (capVndr dev · = capId) with _ | cap
    · rw [filter_eq_nil_iff.mpr (find?_eq_none.mp hfind)]
    · obtain ⟨hid, before, after, rfl, hbefore⟩ := find?_eq_some_iff_append.mp hfind
      rw [length_append, length_cons] at hfuel hcalls
      have hskip : before.filter (capVndr dev · = capId) = [] :=
        filter_eq_nil_iff.mpr fun x hx => by simpa using hbefore x hx
      have hrest : IsPath dev (capStart dev (some cap)) after := h.suffix.2.2
      simp only [ih hrest (by omega) (by omega), filter_append, hskip, filter_cons, hid,
        map_some, nil_append, if_true]

theorem capAt_of_pciFindCapFrom {res : Option (BitVec 8)}
    (h : pciFindCapFrom dev capId fuel off = some res) : ∃ n, capAt dev off n = res := by
  induction fuel generalizing off with
  | zero => cases h
  | succ fuel ih =>
    rw [pciFindCapFrom] at h
    split_ifs at h with hoff hid
    · cases h
      exact ⟨0, if_pos hoff⟩
    · cases h
      exact ⟨0, if_neg hoff⟩
    · obtain ⟨n, hn⟩ := ih h
      exact ⟨n + 1, by rw [capAt, if_neg hoff, hn]⟩

theorem capAt_add {n : ℕ} {cap : BitVec 8} (h : capAt dev off n = some cap) (m : ℕ) :
    capAt dev off (n + 1 + m) = capAt dev (capNext dev cap) m := by
  induction n generalizing off with
  | zero =>
    by_cases hoff : off = 0
    · simp [capAt, hoff] at h
    · rw [capAt, if_neg hoff, some_inj] at h
      subst h
      rw [show 0 + 1 + m = m + 1 by omega, capAt, if_neg hoff]
  | succ n ih =>
    by_cases hoff : off = 0
    · simp [capAt, hoff] at h
    · rw [capAt, if_neg hoff] at h
      rw [show n + 1 + 1 + m = n + 1 + m + 1 by omega, capAt, if_neg hoff, ih h]

theorem capAt_of_findCaps {prev : Option (BitVec 8)} {calls : ℕ} {caps : List (BitVec 8)}
    (h : findCaps dev capId fuel calls prev = some caps) : ∃ n, capAt dev (capStart dev prev) n = none := by
  induction calls generalizing prev caps with
  | zero => cases h
  | succ calls ih =>
    rw [findCaps] at h
    rcases hcall : pciFindCap dev prev capId fuel with _ | _ | cap
    · simp [hcall] at h
    · exact capAt_of_pciFindCapFrom hcall
    · obtain ⟨n, hn⟩ := capAt_of_pciFindCapFrom hcall
      simp only [hcall, map_eq_some_iff] at h
      obtain ⟨rest, hrest, -⟩ := h
      obtain ⟨m, hm⟩ := ih hrest
      exact ⟨n + 1 + m, (capAt_add hn m).trans hm⟩

end

theorem CapsEnumerated.capsEnd {dev : PciDevice} {capId : BitVec 8} (h : CapsEnumerated dev capId) :
    CapsEnd dev := by
  obtain ⟨fuel, calls, caps, hcaps, -⟩ := h.once
  exact capAt_of_findCaps hcaps

/-- The enumeration is right exactly for the lists that end. -/
theorem capsEnumerated_iff (dev : PciDevice) (capId : BitVec 8) :
    CapsEnumerated dev capId ↔ CapsEnd dev := by
  refine ⟨CapsEnumerated.capsEnd, fun ⟨last, hlast⟩ => ?_⟩
  obtain ⟨path, hpath⟩ := exists_isPath hlast
  refine ⟨fun prev hprev => ?_, ?_⟩
  · -- after a capability of the list its remainder is walked
    have hrest : ∃ path', IsPath dev (capStart dev prev) path' := by
      rcases prev with _ | cap
      · exact ⟨path, hpath⟩
      · obtain ⟨n, hn⟩ := hprev cap rfl
        rw [hpath.capAt_eq] at hn
        obtain ⟨before, after, rfl⟩ := append_of_mem (mem_of_getElem? hn)
        exact ⟨after, hpath.suffix.2.2⟩
    obtain ⟨path', hpath'⟩ := hrest
    exact ⟨path'.length + 1, _, hpath'.pciFindCapFrom (Nat.lt_succ_self _)⟩
  · have hstart : IsPath dev (capStart dev none) path := hpath
    refine ⟨_, _, _, hstart.findCaps (Nat.lt_succ_self _) (Nat.lt_succ_self _), hpath.nodup.filter _, fun cap => ?_, ?_⟩
    · simp only [hpath.capAt_eq, ← mem_iff_getElem?, mem_filter, decide_eq_true_eq]
    · refine Pairwise.filter _ (pairwise_iff_getElem.mpr fun m n hm hn hlt => ⟨m, n, hlt, ?_, ?_⟩)
      · rw [hpath.capAt_eq, getElem?_eq_getElem hm]
      · rw [hpath.capAt_eq, getElem?_eq_getElem hn]

/-- A device with one capability at 0x40, of id 9, that names itself as the next. -/
def selfLinked : PciDevice where
  config offset :=
    if offset = 4 then 0x00100000 else if offset = 0x34 then 0x40
    else if offset = 0x40 then 0x4009 else 0
  writable _ := 0

/-- The list of `selfLinked` has no end. -/
theorem not_capsEnumerated_selfLinked : ¬ CapsEnumerated selfLinked 9 := by
  intro h
  obtain ⟨n, hn⟩ := h.capsEnd
  have hnext : capNext selfLinked 0x40 = 0x40 := by decide
  have hat : ∀ n, capAt selfLinked 0x40 n = some 0x40 := by
    intro n
    induction n with
    | zero => decide
    | succ n ih => rw [capAt, if_neg (by decide), hnext, ih]
  have hptr : capPtr selfLinked = 0x40 := by decide
  rw [hptr, hat n] at hn
  cases hn

end RvMiniOs.Drivers
