import Mathlib.Data.Nat.Bitwise
import Mathlib.Tactic

/-!
# Bytes and flag bits of machine words

A memory word is a natural number. `getByte` and `setByte` address its bytes
from the least significant one, and the mask lemmas turn the bitwise tests of a
C program into statements about single bits.
-/

namespace RvMiniOs.Lib

/-- Byte `k` of the word `w`, counted from the least significant byte. -/
def getByte (w k : ℕ) : UInt8 := UInt8.ofNat (w / 256 ^ k)

/-- The word `w` with its byte `k` replaced by `b`. -/
def setByte (w k : ℕ) (b : UInt8) : ℕ :=
  (w / 256 ^ (k + 1) * 256 + b.toNat) * 256 ^ k + w % 256 ^ k

theorem setByte_div (w k : ℕ) (b : UInt8) :
    setByte w k b / 256 ^ k = w / 256 ^ (k + 1) * 256 + b.toNat := by
  have hlt : w % 256 ^ k < 256 ^ k := Nat.mod_lt _ (by positivity)
  rw [setByte, Nat.add_comm, Nat.add_mul_div_right _ _ (by positivity), Nat.div_eq_of_lt hlt, Nat.zero_add]

@[simp] theorem getByte_setByte_self (w k : ℕ) (b : UInt8) : getByte (setByte w k b) k = b := by
  rw [getByte, setByte_div]
  apply UInt8.toNat.inj
  have hb : b.toNat < 256 := b.toNat_lt
  rw [UInt8.toNat_ofNat']
  omega

theorem getByte_congr {v w k : ℕ} (h : v / 256 ^ k % 256 = w / 256 ^ k % 256) :
    getByte v k = getByte w k := by
  apply UInt8.toNat.inj
  simpa only [getByte, UInt8.toNat_ofNat'] using h

theorem getByte_setByte_of_lt {w j k : ℕ} (b : UInt8) (h : j < k) :
    getByte (setByte w k b) j = getByte w j := by
  obtain ⟨d, rfl⟩ : ∃ d, k = j + 1 + d := ⟨k - (j + 1), by omega⟩
  apply getByte_congr
  have hmod : setByte w (j + 1 + d) b % (256 ^ j * 256) = w % (256 ^ j * 256) := by
    have hdvd : 256 ^ j * 256 ∣ 256 ^ (j + 1 + d) := ⟨256 ^ d, by ring⟩
    rw [setByte, Nat.add_mod, Nat.mod_eq_zero_of_dvd (Dvd.dvd.mul_left hdvd _), Nat.zero_add,
      Nat.mod_mod, Nat.mod_mod_of_dvd _ hdvd]
  rw [← Nat.mod_mul_right_div_self, hmod, Nat.mod_mul_right_div_self]

theorem getByte_setByte_of_gt {w j k : ℕ} (b : UInt8) (h : k < j) :
    getByte (setByte w k b) j = getByte w j := by
  obtain ⟨d, rfl⟩ : ∃ d, j = k + (1 + d) := ⟨j - (k + 1), by omega⟩
  apply getByte_congr
  have hb : b.toNat < 256 := b.toNat_lt
  have hstep : (w / 256 ^ (k + 1) * 256 + b.toNat) / 256 = w / 256 ^ (k + 1) := by omega
  have hpow : 256 ^ k * (256 * 256 ^ d) = 256 ^ (k + 1) * 256 ^ d := by ring
  rw [pow_add, ← Nat.div_div_eq_div_mul, setByte_div, pow_add 256 1 d, pow_one,
    ← Nat.div_div_eq_div_mul, hstep, Nat.div_div_eq_div_mul, hpow]

theorem getByte_setByte_ne {w j k : ℕ} (b : UInt8) (h : j ≠ k) :
    getByte (setByte w k b) j = getByte w j := by
  rcases Nat.lt_or_gt_of_ne h with h | h
  · exact getByte_setByte_of_lt b h
  · exact getByte_setByte_of_gt b h

def hasAny (w mask : ℕ) : Bool := w &&& mask != 0

@[simp] theorem hasAny_two_pow (w i : ℕ) : hasAny w (2 ^ i) = w.testBit i := by
  rw [hasAny, Nat.and_two_pow]
  cases w.testBit i <;> simp

/-- The C expression `word & ~mask` on 64-bit words. -/
def clearBits (w mask : ℕ) : ℕ := w &&& ((2 ^ 64 - 1) ^^^ mask)

end RvMiniOs.Lib
