import RvMiniOs.Lib.Words

/-!
# Byte buffers

A buffer is a function from offsets to bytes; its length is a matter of the
program that uses it. `splice` is `memcpy` into a buffer, `slice` the list of
the bytes of a range, and `leNat` the little-endian number stored in a range.
-/

namespace RvMiniOs.Lib

abbrev Bytes := ℕ → UInt8

/-- A buffer with the bytes of a list, zero behind them. -/
def listBytes (l : List UInt8) : Bytes := fun k => l.getD k 0

def splice (b : Bytes) (off n : ℕ) (src : Bytes) : Bytes :=
  fun o => if off ≤ o ∧ o < off + n then src (o - off) else b o

theorem splice_inside {b src : Bytes} {off n o : ℕ} (hlo : off ≤ o) (hhi : o < off + n) :
    splice b off n src o = src (o - off) :=
  if_pos ⟨hlo, hhi⟩

theorem splice_outside {b src : Bytes} {off n o : ℕ} (h : o < off ∨ off + n ≤ o) :
    splice b off n src o = b o :=
  if_neg (by omega)

theorem splice_congr {b src src' : Bytes} {off n : ℕ} (h : ∀ k < n, src k = src' k) :
    splice b off n src = splice b off n src' := by
  funext o
  by_cases ho : off ≤ o ∧ o < off + n
  · rw [splice_inside ho.1 ho.2, splice_inside ho.1 ho.2, h _ (by omega)]
  · rw [splice_outside (by omega), splice_outside (by omega)]

@[simp] theorem splice_zero (b src : Bytes) (off : ℕ) : splice b off 0 src = b := by
  funext o
  exact splice_outside (by omega)

theorem splice_splice (b src : Bytes) (off n m : ℕ) : splice (splice b off n src) (off + n) m (fun k =>
    src (n + k)) = splice b off (n + m) src := by
  funext o
  by_cases hlo : o < off
  · rw [splice_outside (by omega), splice_outside (by omega), splice_outside (by omega)]
  by_cases hmid : o < off + n
  · rw [splice_outside (by omega), splice_inside (by omega) hmid, splice_inside (by omega) (by omega)]
  by_cases hhi : o < off + n + m
  · rw [splice_inside (by omega) hhi, splice_inside (by omega) (by omega)]
    congr 1
    omega
  · rw [splice_outside (by omega), splice_outside (by omega), splice_outside (by omega)]

def slice (b : Bytes) (off n : ℕ) : List UInt8 := (List.range n).map fun k => b (off + k)

@[simp] theorem length_slice (b : Bytes) (off n : ℕ) : (slice b off n).length = n := by
  simp [slice]

@[simp] theorem getElem_slice (b : Bytes) (off n k : ℕ) (h : k < (slice b off n).length) :
    (slice b off n)[k] = b (off + k) := by
  simp [slice]

/-- The number stored little-endian in the `n` bytes from `off` on. -/
def leNat (b : Bytes) (off : ℕ) : ℕ → ℕ
  | 0 => 0
  | n + 1 => (b off).toNat + 256 * leNat b (off + 1) n

theorem leNat_lt (b : Bytes) (off n : ℕ) : leNat b off n < 256 ^ n := by
  induction n generalizing off with
  | zero => simp [leNat]
  | succ n ih =>
    have hbyte : (b off).toNat < 256 := (b off).toNat_lt
    have hrest := ih (off + 1)
    rw [leNat, pow_succ]
    omega

theorem leNat_congr {b c : Bytes} {off off' n : ℕ} (h : ∀ k < n, b (off + k) = c (off' + k)) :
    leNat b off n = leNat c off' n := by
  induction n generalizing off off' with
  | zero => rfl
  | succ n ih =>
    have hhead : b off = c off' := h 0 (by omega)
    have htail : leNat b (off + 1) n = leNat c (off' + 1) n := by
      apply ih
      intro k hk
      have hk' := h (k + 1) (by omega)
      rwa [show off + 1 + k = off + (k + 1) by omega, show off' + 1 + k = off' + (k + 1) by omega]
    rw [leNat, leNat, hhead, htail]

theorem leNat_getByte (v k n : ℕ) : leNat (getByte v) k n = v / 256 ^ k % 256 ^ n := by
  induction n generalizing k with
  | zero => simp [leNat, Nat.mod_one]
  | succ n ih =>
    rw [leNat, ih, getByte, UInt8.toNat_ofNat', pow_succ 256 k, ← Nat.div_div_eq_div_mul,
      pow_succ' 256 n, Nat.mod_mul]

theorem leNat_eq_zero {b : Bytes} {off n : ℕ} (h : ∀ k < n, b (off + k) = 0) : leNat b off n = 0 := by
  induction n generalizing off with
  | zero => rfl
  | succ n ih =>
    have hhead : b off = 0 := h 0 (by omega)
    have htail : leNat b (off + 1) n = 0 := by
      apply ih
      intro k hk
      rw [show off + 1 + k = off + (k + 1) by omega]
      exact h (k + 1) (by omega)
    simp [leNat, hhead, htail]

theorem testBit_leNat {b : Bytes} {off n i : ℕ} (hi : i < 8 * n) :
    (leNat b off n).testBit i = (b (off + i / 8)).toNat.testBit (i % 8) := by
  induction n generalizing off i with
  | zero => omega
  | succ n ih =>
    have hbyte : (b off).toNat < 2 ^ 8 := (b off).toNat_lt
    rw [leNat, Nat.add_comm, show (256 : ℕ) = 2 ^ 8 by norm_num,
      Nat.testBit_two_pow_mul_add _ hbyte]
    by_cases h8 : i < 8
    · simp [h8, Nat.div_eq_of_lt h8, Nat.mod_eq_of_lt h8]
    · have hbyte : off + 1 + (i - 8) / 8 = off + i / 8 := by omega
      have hbit : (i - 8) % 8 = i % 8 := by omega
      rw [if_neg h8, ih (by omega), hbyte, hbit]

/-- `*(uint32_t *)(b + off)` on a little-endian machine. -/
def getU32 (b : Bytes) (off : ℕ) : UInt32 := UInt32.ofNat (leNat b off 4)

/-- `*(uint32_t *)(b + off) = v` on a little-endian machine. -/
def putU32 (b : Bytes) (off : ℕ) (v : UInt32) : Bytes := splice b off 4 (getByte v.toNat)

theorem toNat_getU32 (b : Bytes) (off : ℕ) : (getU32 b off).toNat = leNat b off 4 := by
  have hlt : leNat b off 4 < 2 ^ 32 := leNat_lt b off 4
  rw [getU32, UInt32.toNat_ofNat', Nat.mod_eq_of_lt hlt]

theorem getU32_congr {b c : Bytes} {off off' : ℕ} (h : ∀ k < 4, b (off + k) = c (off' + k)) :
    getU32 b off = getU32 c off' := by
  rw [getU32, getU32, leNat_congr h]

theorem getU32_of_bytes {b : Bytes} {off : ℕ} {v : UInt32}
    (h : ∀ k < 4, b (off + k) = getByte v.toNat k) : getU32 b off = v := by
  apply UInt32.toNat.inj
  have hv : v.toNat < 256 ^ 4 := v.toNat_lt
  have hword : leNat b off 4 = leNat (getByte v.toNat) 0 4 := by
    apply leNat_congr
    simpa using h
  rw [toNat_getU32, hword, leNat_getByte, pow_zero, Nat.div_one, Nat.mod_eq_of_lt hv]

@[simp] theorem getU32_putU32_self (b : Bytes) (off : ℕ) (v : UInt32) :
    getU32 (putU32 b off v) off = v := by
  apply getU32_of_bytes
  intro k hk
  rw [putU32, splice_inside (by omega) (by omega)]
  congr 1
  omega

theorem getU32_putU32_ne {b : Bytes} {off o : ℕ} (v : UInt32) (h : o + 4 ≤ off ∨ off + 4 ≤ o) :
    getU32 (putU32 b off v) o = getU32 b o := by
  apply getU32_congr
  intro k hk
  exact splice_outside (by omega)

theorem getU32_eq_zero {b : Bytes} {off : ℕ} (h : ∀ k < 4, b (off + k) = 0) : getU32 b off = 0 := by
  rw [getU32, leNat_eq_zero h]
  rfl

def asInt32 (n : ℕ) : ℤ := if n < 2 ^ 31 then n else n - 2 ^ 32

def toU32 (r : ℤ) : UInt32 := UInt32.ofNat (r % 2 ^ 32).toNat

theorem asInt32_of_lt {n : ℕ} (h : n < 2 ^ 31) : asInt32 n = n := if_pos h

theorem asInt32_nonneg_iff {n : ℕ} (hn : n < 2 ^ 32) : 0 ≤ asInt32 n ↔ n < 2 ^ 31 := by
  unfold asInt32
  split_ifs with h <;> omega

theorem toNat_toU32 (r : ℤ) : ((toU32 r).toNat : ℤ) = r % 2 ^ 32 := by
  have hlo : 0 ≤ r % 2 ^ 32 := Int.emod_nonneg r (by norm_num)
  rw [toU32, UInt32.toNat_ofNat', Nat.mod_eq_of_lt (by omega), Int.toNat_of_nonneg hlo]

theorem asInt32_toU32 {r : ℤ} (hlo : -2 ^ 31 ≤ r) (hhi : r < 2 ^ 31) : asInt32 (toU32 r).toNat = r := by
  have h := toNat_toU32 r
  unfold asInt32
  split_ifs <;> omega

end RvMiniOs.Lib
