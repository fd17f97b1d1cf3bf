import RvMiniOs.Err
import Mathlib.Data.Nat.Bitwise
import Mathlib.Logic.Function.Basic
import Mathlib.Tactic.Common

/-!
# Base address registers of a PCI device

`kernel/drivers/pci/pci.c`. The device decides which bits of a register software can
write; the others keep what they hold. A base address register of a region of `2 ^ k`
bytes decodes the address bits from `k` on, which is how `pci_get_bar_size` learns `k`.
-/

namespace RvMiniOs.Drivers

open Function BitVec

abbrev pciBar0 : ℕ := 0x10
abbrev pciBarCount : ℕ := 6
abbrev pciBarFlagMask : BitVec 32 := 0b1111
abbrev pciBarIo : BitVec 32 := 0b1
abbrev pciBarTypeMask : BitVec 32 := 0b110
abbrev pciBarType64 : BitVec 32 := 0b100

structure PciDevice where
  config : ℕ → BitVec 32
  writable : ℕ → BitVec 32

def pciReadConfig32 (dev : PciDevice) (offset : ℕ) : BitVec 32 :=
  dev.config offset

def pciWriteConfig32 (dev : PciDevice) (offset : ℕ) (val : BitVec 32) : PciDevice :=
  { dev with
    config := Function.update dev.config offset
      ((dev.config offset &&& ~~~dev.writable offset) ||| (val &&& dev.writable offset)) }

def pciBarReg (n : ℕ) : ℕ :=
  pciBar0 + 4 * n

def pciBarIs64 (bar : BitVec 32) : Bool :=
  bar &&& pciBarTypeMask = pciBarType64

def pciGetBarSize (dev : PciDevice) (n : ℕ) : PciDevice × ℤ :=
  if pciBarCount ≤ n then (dev, -einval)
  else
    let reg := pciBarReg n
    let bar := pciReadConfig32 dev reg
    if bar &&& pciBarIo ≠ 0 then (dev, -eio)
    else
      let dev := pciWriteConfig32 dev reg 0xFFFFFFFF
      let mask := (pciReadConfig32 dev reg &&& ~~~pciBarFlagMask).setWidth 64
      if mask = 0 then (pciWriteConfig32 dev reg bar, -einval)
      else
        let dev := pciWriteConfig32 dev reg bar
        if pciBarIs64 bar then
          if n = pciBarCount - 1 then (dev, -einval)
          else
            let regHi := pciBarReg (n + 1)
            let barHi := pciReadConfig32 dev regHi
            let dev := pciWriteConfig32 dev regHi 0xFFFFFFFF
            let hiM := pciReadConfig32 dev regHi
            let dev := pciWriteConfig32 dev regHi barHi
            (dev, (~~~(mask ||| hiM.setWidth 64 <<< 32) + 1).toInt)
        else (dev, (~~~(mask ||| (0xFFFFFFFF : BitVec 32).setWidth 64 <<< 32) + 1).toInt)

def pciSetBar (dev : PciDevice) (n : ℕ) (addr : BitVec 64) : PciDevice × ℤ :=
  if pciBarCount ≤ n then (dev, -einval)
  else
    let reg := pciBarReg n
    let bar := pciReadConfig32 dev reg
    if bar &&& pciBarIo ≠ 0 then (dev, -eio)
    else
      let dev := pciWriteConfig32 dev reg (addr.setWidth 32)
      if pciBarIs64 bar then
        -- The register has been written by now.
        if n = pciBarCount - 1 then (dev, -einval)
        else (pciWriteConfig32 dev (pciBarReg (n + 1)) ((addr >>> 32).setWidth 32), 0)
      else (dev, 0)

def pciBarAddr (dev : PciDevice) (n : ℕ) : ℤ × Option (BitVec 64) :=
  if pciBarCount ≤ n then (-einval, none)
  else
    let bar := pciReadConfig32 dev (pciBarReg n)
    if bar &&& pciBarIo ≠ 0 then (-eio, none)
    else
      let res := (bar &&& ~~~pciBarFlagMask).setWidth 64
      if pciBarIs64 bar then
        if n = pciBarCount - 1 then (-einval, none)
        else (0, some (res ||| (pciReadConfig32 dev (pciBarReg (n + 1))).setWidth 64 <<< 32))
      else (0, some res)

def addrBits (k : ℕ) : BitVec 64 :=
  BitVec.allOnes 64 <<< k

abbrev lower (x : BitVec 64) : BitVec 32 := x.setWidth 32
abbrev upper (x : BitVec 64) : BitVec 32 := (x >>> 32).setWidth 32

inductive Bar where
  | unimplemented
  | io
  | mem32 (k : ℕ)
  | mem64 (k : ℕ)
  | upperHalf (k : ℕ)

structure MemoryBar (k : ℕ) (config writable : BitVec 32) : Prop where
  writable_eq : writable = lower (addrBits k)
  four_le : 4 ≤ k
  memory : config &&& pciBarIo = 0
  low : config &&& ~~~writable &&& ~~~pciBarFlagMask = 0

def Bar.Decodes (config writable : BitVec 32) : Bar → Prop
  | .unimplemented => config = 0 ∧ writable = 0
  | .io => config &&& pciBarIo ≠ 0
  | .mem32 k => MemoryBar k config writable ∧ k ≤ 31 ∧ pciBarIs64 config = false
  | .mem64 k => MemoryBar k config writable ∧ k ≤ 62 ∧ pciBarIs64 config = true
  | .upperHalf k => writable = upper (addrBits k) ∧ config &&& ~~~writable = 0

structure Compliant (bars : ℕ → Bar) (dev : PciDevice) : Prop where
  decodes : ∀ n < pciBarCount, (bars n).Decodes (dev.config (pciBarReg n)) (dev.writable (pciBarReg n))
  paired : ∀ n < pciBarCount, ∀ k, bars n = .mem64 k → n + 1 < pciBarCount ∧ bars (n + 1) = .upperHalf k

structure BarMeets (bars : ℕ → Bar) (dev : PciDevice) (n : ℕ) (addr : BitVec 64) : Prop where
  size : ∀ k, bars n = .mem32 k ∨ bars n = .mem64 k → (pciGetBarSize dev n).2 = 2 ^ k
  restored : (pciGetBarSize dev n).1 = dev
  readBack : ∀ k, bars n = .mem32 k ∨ bars n = .mem64 k → 2 ^ k ∣ addr.toNat →
    pciBarAddr (pciSetBar dev n addr).1 n = (0, some addr)
  refused : (pciSetBar dev n addr).2 ≠ 0 → (pciSetBar dev n addr).1 = dev

structure BarHoldsWhen (bars : ℕ → Bar) (dev : PciDevice) (n : ℕ) (addr : BitVec 64) : Prop where
  small : ∀ k, bars n = .mem64 k → k < 32
  fits : ∀ k, bars n = .mem32 k → 2 ^ k ∣ addr.toNat → addr.toNat < 2 ^ 32
  last : n = pciBarCount - 1 → ∀ k, bars n = .upperHalf k → dev.config (pciBarReg n) &&& pciBarIo = 0 →
    pciBarIs64 (dev.config (pciBarReg n)) = true →
    lower addr &&& dev.writable (pciBarReg n) = dev.config (pciBarReg n)

theorem getLsbD_addrBits (k i : ℕ) : (addrBits k).getLsbD i = (decide (i < 64) && decide (k ≤ i)) := by
  rw [addrBits, getLsbD_shiftLeft, getLsbD_allOnes]
  by_cases hi : i < 64 <;> by_cases hk : k ≤ i
  · simp [hi, hk, show i - k < 64 by omega]
  · simp [hk, show i < k by omega]
  · simp [hi]
  · simp [hi]

theorem toInt_not_addrBits_add_one {k : ℕ} (hk : k ≤ 62) : (~~~addrBits k + 1).toInt = 2 ^ k := by
  have hneg : ~~~addrBits k + 1 = BitVec.twoPow 64 k := by
    change ~~~addrBits k + 1#64 = _
    rw [← BitVec.neg_eq_not_add, addrBits, BitVec.shiftLeft_eq_mul_twoPow, ← BitVec.neg_one_eq_allOnes,
      BitVec.neg_mul, BitVec.one_mul, BitVec.neg_neg]
  rw [hneg, BitVec.toInt_twoPow, if_neg (by omega), if_neg (by omega)]

theorem lower_or_upper (x : BitVec 64) : (lower x).setWidth 64 ||| (upper x).setWidth 64 <<< 32 = x := by
  refine eq_of_getLsbD_eq fun i hi => ?_
  simp only [getLsbD_or, getLsbD_setWidth, getLsbD_shiftLeft, getLsbD_ushiftRight]
  by_cases h : i < 32
  · simp [hi, h]
  · simp [hi, h, show i - 32 < 32 by omega, show i - 32 < 64 by omega, show 32 + (i - 32) = i by omega]

theorem and_addrBits {k : ℕ} {x : BitVec 64} (h : 2 ^ k ∣ x.toNat) : x &&& addrBits k = x := by
  refine eq_of_getLsbD_eq fun i hi => ?_
  rw [getLsbD_and, getLsbD_addrBits]
  by_cases hk : k ≤ i
  · simp [hi, hk]
  · obtain ⟨c, hc⟩ := h
    have hbit : x.getLsbD i = false := by
      rw [← testBit_toNat, hc, Nat.testBit_two_pow_mul]
      simp [hk]
    simp [hbit]

theorem setWidth_lower_addrBits_eq_zero {k : ℕ} (hk : 32 ≤ k) : (lower (addrBits k)).setWidth 64 = 0 := by
  refine eq_of_getLsbD_eq fun i hi => ?_
  rw [getLsbD_setWidth, getLsbD_setWidth, getLsbD_addrBits]
  by_cases h : i < 32
  · simp [show ¬ k ≤ i by omega]
  · simp [h]

theorem setWidth_lower_addrBits_ne_zero {k : ℕ} (hk : k < 32) : (lower (addrBits k)).setWidth 64 ≠ 0 := by
  intro h
  have hbit := congrArg (fun x => getLsbD x 31) h
  simp only [getLsbD_setWidth, getLsbD_addrBits] at hbit
  simp [show k ≤ 31 by omega] at hbit

theorem upper_addrBits {k : ℕ} (hk : k ≤ 32) : upper (addrBits k) = 0xFFFFFFFF := by
  change upper (addrBits k) = BitVec.allOnes 32
  refine BitVec.eq_of_getLsbD_eq fun i hi => ?_
  rw [BitVec.getLsbD_setWidth, BitVec.getLsbD_ushiftRight, getLsbD_addrBits, BitVec.getLsbD_allOnes,
    decide_eq_true (show 32 + i < 64 by omega), decide_eq_true (show k ≤ 32 + i by omega), Bool.and_true,
    Bool.and_true]

namespace MemoryBar

variable {k : ℕ} {config writable : BitVec 32}

theorem writable_and_flags (h : MemoryBar k config writable) : writable &&& pciBarFlagMask = 0 := by
  have hflag : ∀ i < 32, pciBarFlagMask.getLsbD i = decide (i < 4) := by decide
  refine eq_of_getLsbD_eq fun i hi => ?_
  rw [h.writable_eq, getLsbD_and, hflag i hi, getLsbD_setWidth, getLsbD_addrBits]
  have hk := h.four_le
  by_cases hlt : i < 4
  · simp [show ¬ k ≤ i by omega]
  · simp [hlt]

theorem written (h : MemoryBar k config writable) (val : BitVec 32) :
    ((config &&& ~~~writable) ||| (val &&& writable)) &&& ~~~pciBarFlagMask = val &&& writable := by
  have hbits : ∀ c w v f : Bool, (c && !w && !f) = false → (w && f) = false →
      ((c && !w || v && w) && !f) = (v && w) := by decide
  refine BitVec.eq_of_getLsbD_eq fun i hi => ?_
  have hlow := (congrArg (fun x => BitVec.getLsbD x i) h.low).trans BitVec.getLsbD_zero
  have hflag := (congrArg (fun x => BitVec.getLsbD x i) h.writable_and_flags).trans BitVec.getLsbD_zero
  simp only [BitVec.getLsbD_or, BitVec.getLsbD_and, BitVec.getLsbD_not, hi, decide_true, Bool.true_and]
    at hlow hflag ⊢
  exact hbits _ _ _ _ hlow hflag

theorem flags (h : MemoryBar k config writable) (val : BitVec 32) {flags : BitVec 32}
    (hflags : flags &&& pciBarFlagMask = flags) :
    ((config &&& ~~~writable) ||| (val &&& writable)) &&& flags = config &&& flags := by
  have hbits : ∀ c w v f m : Bool, (w && m) = false → (f && m) = f →
      ((c && !w || v && w) && f) = (c && f) := by decide
  refine BitVec.eq_of_getLsbD_eq fun i hi => ?_
  have hflag := (congrArg (fun x => BitVec.getLsbD x i) h.writable_and_flags).trans BitVec.getLsbD_zero
  have hsub := congrArg (fun x => BitVec.getLsbD x i) hflags
  simp only [BitVec.getLsbD_or, BitVec.getLsbD_and, BitVec.getLsbD_not, hi, decide_true, Bool.true_and]
    at hflag hsub ⊢
  exact hbits _ _ _ _ _ hflag hsub

end MemoryBar

def probed (dev : PciDevice) (offset : ℕ) : BitVec 32 :=
  (dev.config offset &&& ~~~dev.writable offset) ||| dev.writable offset

theorem pciWriteConfig32_restore (dev : PciDevice) (offset : ℕ) (val : BitVec 32) :
    pciWriteConfig32 (pciWriteConfig32 dev offset val) offset (dev.config offset) = dev := by
  have hword : ∀ x w v : BitVec 32, (((x &&& ~~~w) ||| (v &&& w)) &&& ~~~w) ||| (x &&& w) = x := by
    intro x w v
    refine BitVec.eq_of_getLsbD_eq fun i hi => ?_
    simp only [BitVec.getLsbD_or, BitVec.getLsbD_and, BitVec.getLsbD_not, hi, decide_true, Bool.true_and]
    cases x.getLsbD i <;> cases w.getLsbD i <;> simp
  cases dev with
  | mk config writable =>
    simp only [pciWriteConfig32, update_self, update_idem, hword, update_eq_self]

theorem pciReadConfig32_ones (dev : PciDevice) (offset : ℕ) :
    pciReadConfig32 (pciWriteConfig32 dev offset 0xFFFFFFFF) offset = probed dev offset := by
  have hones : ∀ w : BitVec 32, 0xFFFFFFFF &&& w = w := fun w => allOnes_and
  simp only [pciReadConfig32, pciWriteConfig32, probed, update_self, hones]

theorem pciGetBarSize_eq (dev : PciDevice) (n : ℕ) :
    pciGetBarSize dev n = (dev, if pciBarCount ≤ n then -einval
      else if dev.config (pciBarReg n) &&& pciBarIo ≠ 0 then -eio
      else if (probed dev (pciBarReg n) &&& ~~~pciBarFlagMask).setWidth 64 = 0 then -einval
      else if pciBarIs64 (dev.config (pciBarReg n)) then if n = pciBarCount - 1 then -einval
        else (~~~((probed dev (pciBarReg n) &&& ~~~pciBarFlagMask).setWidth 64 |||
          (probed dev (pciBarReg (n + 1))).setWidth 64 <<< 32) + 1).toInt
      else (~~~((probed dev (pciBarReg n) &&& ~~~pciBarFlagMask).setWidth 64 |||
          (0xFFFFFFFF : BitVec 32).setWidth 64 <<< 32) + 1).toInt) := by
  unfold pciGetBarSize
  simp only [pciReadConfig32_ones]
  simp only [pciReadConfig32, pciWriteConfig32_restore]
  split_ifs <;> rfl

section

variable {dev : PciDevice} {n k : ℕ} {addr : BitVec 64}

theorem MemoryBar.probed_eq (h : MemoryBar k (dev.config (pciBarReg n)) (dev.writable (pciBarReg n))) :
    probed dev (pciBarReg n) &&& ~~~pciBarFlagMask = lower (addrBits k) := by
  have hones : 0xFFFFFFFF &&& dev.writable (pciBarReg n) = dev.writable (pciBarReg n) := allOnes_and
  have hread := h.written 0xFFFFFFFF
  rw [hones] at hread
  exact hread.trans h.writable_eq

theorem pciGetBarSize_mem32 (hn : n < pciBarCount)
    (h : MemoryBar k (dev.config (pciBarReg n)) (dev.writable (pciBarReg n))) (hk : k ≤ 31)
    (htype : pciBarIs64 (dev.config (pciBarReg n)) = false) : (pciGetBarSize dev n).2 = 2 ^ k := by
  rw [pciGetBarSize_eq]
  dsimp only
  rw [if_neg (by omega), if_neg (not_not.mpr h.memory), h.probed_eq,
    if_neg (setWidth_lower_addrBits_ne_zero (by omega)), htype, if_neg (by decide),
    ← upper_addrBits (show k ≤ 32 by omega), lower_or_upper]
  exact toInt_not_addrBits_add_one (by omega)

theorem pciGetBarSize_mem64 (hn : n + 1 < pciBarCount)
    (h : MemoryBar k (dev.config (pciBarReg n)) (dev.writable (pciBarReg n))) (hk : k ≤ 62)
    (htype : pciBarIs64 (dev.config (pciBarReg n)) = true)
    (hupper : (Bar.upperHalf k).Decodes (dev.config (pciBarReg (n + 1))) (dev.writable (pciBarReg (n + 1)))) :
    (pciGetBarSize dev n).2 = if k < 32 then 2 ^ k else -einval := by
  have hhi : probed dev (pciBarReg (n + 1)) = upper (addrBits k) := by
    rw [probed, hupper.2, hupper.1]
    exact zero_or
  rw [pciGetBarSize_eq]
  dsimp only
  rw [if_neg (by omega), if_neg (not_not.mpr h.memory), h.probed_eq]
  by_cases hlt : k < 32
  · rw [if_neg (setWidth_lower_addrBits_ne_zero hlt), htype, if_pos rfl, if_neg (by omega), hhi, lower_or_upper,
      if_pos hlt]
    exact toInt_not_addrBits_add_one hk
  · rw [if_pos (setWidth_lower_addrBits_eq_zero (by omega)), if_neg hlt]

theorem pciBarReg_succ_ne (n : ℕ) : pciBarReg n ≠ pciBarReg (n + 1) := by
  unfold pciBarReg
  omega

theorem lower_and_addrBits (hdvd : 2 ^ k ∣ addr.toNat) : lower addr &&& lower (addrBits k) = lower addr := by
  rw [← setWidth_and, and_addrBits hdvd]

theorem upper_and_addrBits (hdvd : 2 ^ k ∣ addr.toNat) : upper addr &&& upper (addrBits k) = upper addr := by
  rw [← setWidth_and, ← ushiftRight_and_distrib, and_addrBits hdvd]

theorem MemoryBar.stored (h : MemoryBar k (dev.config (pciBarReg n)) (dev.writable (pciBarReg n)))
    (val : BitVec 32) {bar : BitVec 32}
    (hbar : bar = (dev.config (pciBarReg n) &&& ~~~dev.writable (pciBarReg n)) |||
      (val &&& dev.writable (pciBarReg n))) :
    bar &&& pciBarIo = 0 ∧ pciBarIs64 bar = pciBarIs64 (dev.config (pciBarReg n)) ∧
      bar &&& ~~~pciBarFlagMask = val &&& lower (addrBits k) := by
  subst hbar
  refine ⟨(h.flags val (by decide)).trans h.memory, ?_, (h.written val).trans ?_⟩
  · rw [pciBarIs64, pciBarIs64, h.flags val (by decide)]
  · rw [h.writable_eq]

theorem pciBarAddr_mem32 (hn : n < pciBarCount)
    (h : MemoryBar k (dev.config (pciBarReg n)) (dev.writable (pciBarReg n)))
    (htype : pciBarIs64 (dev.config (pciBarReg n)) = false) (hdvd : 2 ^ k ∣ addr.toNat) :
    pciBarAddr (pciSetBar dev n addr).1 n = (0, some ((lower addr).setWidth 64)) := by
  have hset : (pciSetBar dev n addr).1 = pciWriteConfig32 dev (pciBarReg n) (lower addr) := by
    simp only [pciSetBar, pciReadConfig32, h.memory, htype]
    rw [if_neg (by omega)]
    rfl
  obtain ⟨hio, h64, haddr⟩ := h.stored (lower addr) rfl
  rw [hset, pciBarAddr, if_neg (by omega)]
  simp only [pciReadConfig32, pciWriteConfig32, update_self]
  rw [if_neg (not_not.mpr hio), h64, htype, if_neg (by decide), haddr, lower_and_addrBits hdvd]

theorem pciBarAddr_mem64 (hn : n + 1 < pciBarCount)
    (h : MemoryBar k (dev.config (pciBarReg n)) (dev.writable (pciBarReg n)))
    (htype : pciBarIs64 (dev.config (pciBarReg n)) = true)
    (hupper : (Bar.upperHalf k).Decodes (dev.config (pciBarReg (n + 1))) (dev.writable (pciBarReg (n + 1))))
    (hdvd : 2 ^ k ∣ addr.toNat) : pciBarAddr (pciSetBar dev n addr).1 n = (0, some addr) := by
  have hset : (pciSetBar dev n addr).1 =
      pciWriteConfig32 (pciWriteConfig32 dev (pciBarReg n) (lower addr)) (pciBarReg (n + 1)) (upper addr) := by
    simp only [pciSetBar, pciReadConfig32, h.memory, htype]
    rw [if_neg (by omega), if_neg (by simp), if_pos trivial, if_neg (by omega)]
  have hhi : (dev.config (pciBarReg (n + 1)) &&& ~~~dev.writable (pciBarReg (n + 1))) |||
      (upper addr &&& dev.writable (pciBarReg (n + 1))) = upper addr := by
    rw [hupper.2, hupper.1, upper_and_addrBits hdvd]
    exact zero_or
  obtain ⟨hio, h64, haddr⟩ := h.stored (lower addr) rfl
  rw [hset, pciBarAddr, if_neg (by omega)]
  simp only [pciReadConfig32, pciWriteConfig32, update_self,
    update_of_ne (pciBarReg_succ_ne n), update_of_ne (pciBarReg_succ_ne n).symm]
  rw [if_neg (not_not.mpr hio), h64, htype, if_pos rfl, if_neg (by omega), haddr, lower_and_addrBits hdvd, hhi,
    lower_or_upper]

theorem setWidth_lower_eq_iff : (lower addr).setWidth 64 = addr ↔ addr.toNat < 2 ^ 32 := by
  rw [← toNat_inj, toNat_setWidth, toNat_setWidth]
  omega

theorem pciSetBar_refused (hn : n < pciBarCount) (hres : (pciSetBar dev n addr).2 ≠ 0) :
    (pciSetBar dev n addr).1 = dev ∨ (n = pciBarCount - 1 ∧ dev.config (pciBarReg n) &&& pciBarIo = 0 ∧
    pciBarIs64 (dev.config (pciBarReg n)) = true) := by
  have hcount : ¬ pciBarCount ≤ n := Nat.not_le.mpr hn
  by_cases hio : dev.config (pciBarReg n) &&& pciBarIo = 0
  · rw [pciSetBar, if_neg hcount] at hres
    dsimp only [pciReadConfig32] at hres
    rw [if_neg (not_not.mpr hio)] at hres
    split_ifs at hres with h64 hlast
    · exact .inr ⟨hlast, hio, h64⟩
    · exact absurd rfl hres
    · exact absurd rfl hres
  · left
    rw [pciSetBar, if_neg hcount]
    dsimp only [pciReadConfig32]
    rw [if_pos hio]

theorem pciSetBar_last (hn : n = pciBarCount - 1) (hio : dev.config (pciBarReg n) &&& pciBarIo = 0)
    (h64 : pciBarIs64 (dev.config (pciBarReg n)) = true) :
    pciSetBar dev n addr = (pciWriteConfig32 dev (pciBarReg n) (lower addr), -einval) := by
  have hcount : ¬ pciBarCount ≤ n := by
    rw [hn]
    decide
  rw [pciSetBar, if_neg hcount]
  dsimp only [pciReadConfig32]
  rw [if_neg (not_not.mpr hio), if_pos h64, if_pos hn]

theorem pciWriteConfig32_eq_self_iff {offset : ℕ} {val : BitVec 32} :
    pciWriteConfig32 dev offset val = dev ↔
      (dev.config offset &&& ~~~dev.writable offset) ||| (val &&& dev.writable offset) = dev.config offset := by
  cases dev with
  | mk config writable =>
    simp only [pciWriteConfig32, PciDevice.mk.injEq, and_true, update_eq_self_iff]

end

section

variable {bars : ℕ → Bar} {dev : PciDevice} {n k : ℕ}

theorem Compliant.mem32 (hdev : Compliant bars dev) (hn : n < pciBarCount) (hk : bars n = .mem32 k) :
    (Bar.mem32 k).Decodes (dev.config (pciBarReg n)) (dev.writable (pciBarReg n)) :=
  hk ▸ hdev.decodes n hn

theorem Compliant.mem64 (hdev : Compliant bars dev) (hn : n < pciBarCount) (hk : bars n = .mem64 k) :
    n + 1 < pciBarCount ∧ (Bar.mem64 k).Decodes (dev.config (pciBarReg n)) (dev.writable (pciBarReg n)) ∧
      (Bar.upperHalf k).Decodes (dev.config (pciBarReg (n + 1))) (dev.writable (pciBarReg (n + 1))) := by
  obtain ⟨hnext, hup⟩ := hdev.paired n hn k hk
  exact ⟨hnext, hk ▸ hdev.decodes n hn, hup ▸ hdev.decodes (n + 1) hnext⟩

theorem Compliant.last (hdev : Compliant bars dev) (hlast : n = pciBarCount - 1)
    (hio : dev.config (pciBarReg n) &&& pciBarIo = 0) (h64 : pciBarIs64 (dev.config (pciBarReg n)) = true) :
    ∃ k, bars n = .upperHalf k := by
  have hn : n < pciBarCount := by
    rw [hlast]
    decide
  have hdec := hdev.decodes n hn
  cases hkind : bars n with
  | unimplemented =>
    rw [hkind] at hdec
    rw [hdec.1] at h64
    exact absurd h64 (by decide)
  | io =>
    rw [hkind] at hdec
    exact absurd hio hdec
  | mem32 k => exact absurd h64 (by simp [(hdev.mem32 hn hkind).2.2])
  | mem64 k => exact absurd (hdev.mem64 hn hkind).1 (by rw [hlast]; decide)
  | upperHalf k => exact ⟨k, rfl⟩

theorem Compliant.write_last_iff (hdev : Compliant bars dev) (hn : n < pciBarCount)
    (hk : bars n = .upperHalf k) (val : BitVec 32) : pciWriteConfig32 dev (pciBarReg n) val = dev ↔
    val &&& dev.writable (pciBarReg n) = dev.config (pciBarReg n) := by
  have hdec : (Bar.upperHalf k).Decodes _ _ := hk ▸ hdev.decodes n hn
  rw [pciWriteConfig32_eq_self_iff, hdec.2]
  exact (zero_or (x := val &&& dev.writable (pciBarReg n))).symm ▸ Iff.rfl

end

/-- The base address registers of a device that follows the specification are probed and
set as described exactly for regions below 4 GiB, addresses that fit the registers, and
not on a last register that is an upper half with the flags of a 64-bit region. -/
theorem bar_meets_iff {bars : ℕ → Bar} {dev : PciDevice} (hdev : Compliant bars dev) {n : ℕ}
    (hn : n < pciBarCount) (addr : BitVec 64) : BarMeets bars dev n addr ↔ BarHoldsWhen bars dev n addr := by
  constructor
  · intro h
    refine ⟨fun k hk => ?_, fun k hk hdvd => ?_, fun hlast k hk hio h64 => ?_⟩
    · obtain ⟨hnext, ⟨hmem, hle, h64⟩, hupper⟩ := hdev.mem64 hn hk
      have hsize := h.size k (.inr hk)
      rw [pciGetBarSize_mem64 hnext hmem hle h64 hupper] at hsize
      by_contra hlarge
      rw [if_neg hlarge] at hsize
      have hpos : (0 : ℤ) < 2 ^ k := Int.pow_pos (by decide)
      exact absurd (hsize.symm ▸ hpos) (by decide)
    · obtain ⟨hmem, -, h64⟩ := hdev.mem32 hn hk
      have hread := h.readBack k (.inl hk) hdvd
      rw [pciBarAddr_mem32 hn hmem h64 hdvd] at hread
      exact setWidth_lower_eq_iff.mp (Option.some.inj (congrArg Prod.snd hread))
    · have hsame := h.refused
      rw [pciSetBar_last hlast hio h64] at hsame
      exact (hdev.write_last_iff hn hk _).mp (hsame (show -einval ≠ 0 by decide))
  · intro h
    refine ⟨fun k hk => ?_, by rw [pciGetBarSize_eq], fun k hk hdvd => ?_, fun hres => ?_⟩
    · rcases hk with hk | hk
      · obtain ⟨hmem, hle, h64⟩ := hdev.mem32 hn hk
        exact pciGetBarSize_mem32 hn hmem hle h64
      · obtain ⟨hnext, ⟨hmem, hle, h64⟩, hupper⟩ := hdev.mem64 hn hk
        rw [pciGetBarSize_mem64 hnext hmem hle h64 hupper, if_pos (h.small k hk)]
    · rcases hk with hk | hk
      · obtain ⟨hmem, -, h64⟩ := hdev.mem32 hn hk
        rw [pciBarAddr_mem32 hn hmem h64 hdvd, setWidth_lower_eq_iff.mpr (h.fits k hk hdvd)]
      · obtain ⟨hnext, ⟨hmem, -, h64⟩, hupper⟩ := hdev.mem64 hn hk
        exact pciBarAddr_mem64 hnext hmem h64 hupper hdvd
    · rcases pciSetBar_refused hn hres with hsame | ⟨hlast, hio, h64⟩
      · exact hsame
      obtain ⟨k, hk⟩ := hdev.last hlast hio h64
      rw [pciSetBar_last hlast hio h64]
      exact (hdev.write_last_iff hn hk _).mpr (h.last hlast k hk hio h64)

def oneRegion (k : ℕ) : PciDevice where
  config := Function.update (fun _ => 0) (pciBarReg 0) pciBarType64
  writable := Function.update (Function.update (fun _ => 0) (pciBarReg 0) (lower (addrBits k)))
    (pciBarReg 1) (upper (addrBits k))

def oneRegionBars (k : ℕ) : ℕ → Bar
  | 0 => .mem64 k
  | 1 => .upperHalf k
  | _ => .unimplemented

theorem compliant_oneRegion {k : ℕ} (h4 : 4 ≤ k) (h62 : k ≤ 62) : Compliant (oneRegionBars k) (oneRegion k) := by
  have hzero : ∀ x : BitVec 32, 0 &&& x = 0 := fun x => BitVec.zero_and
  refine ⟨fun n _ => ?_, fun n _ j hj => ?_⟩
  · rcases n with _ | _ | n
    · refine ⟨⟨rfl, h4, show pciBarType64 &&& pciBarIo = 0 by decide, ?_⟩, h62,
        show pciBarIs64 pciBarType64 = true by decide⟩
      change pciBarType64 &&& _ &&& ~~~pciBarFlagMask = 0
      rw [BitVec.and_assoc, BitVec.and_comm (~~~_), ← BitVec.and_assoc]
      exact hzero _
    · exact ⟨rfl, hzero _⟩
    · have h0 : pciBarReg (n + 1 + 1) ≠ pciBarReg 0 := by simp [pciBarReg]
      have h1 : pciBarReg (n + 1 + 1) ≠ pciBarReg 1 := by simp [pciBarReg]
      refine ⟨?_, ?_⟩
      · simp only [oneRegion, update_of_ne h0]
      · simp only [oneRegion, update_of_ne h1, update_of_ne h0]
  · rcases n with _ | _ | n
    · cases hj
      exact ⟨by decide, rfl⟩
    · cases hj
    · cases hj

/-- A region of 64 KiB at address 0. -/
theorem bar_meets_64K : BarMeets (oneRegionBars 16) (oneRegion 16) 0 0x30000 := by
  refine (bar_meets_iff (compliant_oneRegion (by decide) (by decide)) (by decide) _).mpr
    ⟨fun k hk => ?_, fun k hk => ?_, ?_⟩
  · cases hk
    decide
  · cases hk
  · intro hlast
    exact absurd hlast (by decide)

/-- A region of 4 GiB is taken for an unimplemented one. -/
theorem bar_size_4G : ¬ BarMeets (oneRegionBars 32) (oneRegion 32) 0 0 := by
  intro h
  have hsize := h.size 32 (.inr rfl)
  exact absurd hsize (by decide)

end RvMiniOs.Drivers
