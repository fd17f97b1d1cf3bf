import RvMiniOs.Fs.Layout

/-!
# Bitmaps

`lib/bitmap.c`: bits are set and cleared byte by byte, while the search for a
zero bit goes through the buffer in 64-bit little-endian words. `bmBit` is the
bit both of them mean.
-/

namespace RvMiniOs.Fs

open Lib Function List

/-- Bit `i` of a bitmap, as addressed by `bm_set_bit` and `bm_clear_bit`. -/
def bmBit (buf : Bytes) (i : ℕ) : Bool := (buf (i / 8)).toNat.testBit (i % 8)

def ctzll (x : ℕ) : ℕ := ((List.range 64).find? fun i => x.testBit i).getD 64

/-- The loop of `bm_find_first_zero` with `left` words to go. -/
def bmFindFirstZeroFrom (buf : Bytes) : ℕ → ℕ → ℤ
  | 0, _ => -1
  | left + 1, qw =>
    let qword := leNat buf (8 * qw) 8
    if qword = 2 ^ 64 - 1 then bmFindFirstZeroFrom buf left (qw + 1)
    else (ctzll (2 ^ 64 - 1 - qword) + qw * 64 : ℕ)

def bmFindFirstZero (buf : Bytes) (bitSize : ℕ) : ℤ := bmFindFirstZeroFrom buf (bitSize / 64) 0

def bmSetBit (buf : Bytes) (i : ℕ) : Bytes :=
  Function.update buf (i / 8) (buf (i / 8) ||| (1 <<< UInt8.ofNat (i % 8)))

def bmClearBit (buf : Bytes) (i : ℕ) : Bytes :=
  Function.update buf (i / 8) (buf (i / 8) &&& ~~~(1 <<< UInt8.ofNat (i % 8)))

theorem toNat_one_shiftLeft {s : ℕ} (hs : s < 8) : ((1 : UInt8) <<< UInt8.ofNat s).toNat = 2 ^ s := by
  interval_cases s <;> rfl

theorem testBit_not_one_shiftLeft {s j : ℕ} (hs : s < 8) (hj : j < 8) :
    (~~~((1 : UInt8) <<< UInt8.ofNat s)).toNat.testBit j = decide (j ≠ s) := by
  interval_cases s <;> interval_cases j <;> rfl

theorem bit_eq_iff (i j : ℕ) : i = j ↔ i / 8 = j / 8 ∧ i % 8 = j % 8 := by omega

@[simp] theorem bmBit_bmSetBit (buf : Bytes) (i j : ℕ) :
    bmBit (bmSetBit buf i) j = (bmBit buf j || decide (j = i)) := by
  have hi : i % 8 < 8 := Nat.mod_lt _ (by norm_num)
  unfold bmBit bmSetBit
  by_cases hbyte : j / 8 = i / 8
  · rw [hbyte, update_self, UInt8.toNat_or, toNat_one_shiftLeft hi, Nat.testBit_or, Nat.testBit_two_pow]
    congr 1
    simp only [bit_eq_iff j i, hbyte, true_and, decide_eq_decide]
    exact eq_comm
  · have hne : j ≠ i := fun h => hbyte (h ▸ rfl)
    simp [update_of_ne hbyte, hne]

@[simp] theorem bmBit_bmClearBit (buf : Bytes) (i j : ℕ) :
    bmBit (bmClearBit buf i) j = (bmBit buf j && decide (j ≠ i)) := by
  have hi : i % 8 < 8 := Nat.mod_lt _ (by norm_num)
  have hj : j % 8 < 8 := Nat.mod_lt _ (by norm_num)
  unfold bmBit bmClearBit
  by_cases hbyte : j / 8 = i / 8
  · rw [hbyte, update_self, UInt8.toNat_and, Nat.testBit_and, testBit_not_one_shiftLeft hi hj]
    congr 1
    simp only [ne_eq, bit_eq_iff j i, hbyte, true_and]
  · have hne : j ≠ i := fun h => hbyte (h ▸ rfl)
    simp [update_of_ne hbyte, hne]

theorem testBit_qword {buf : Bytes} {qw i : ℕ} (hi : i < 64) :
    (leNat buf (8 * qw) 8).testBit i = bmBit buf (64 * qw + i) := by
  have hbyte : 8 * qw + i / 8 = (64 * qw + i) / 8 := by omega
  have hbit : i % 8 = (64 * qw + i) % 8 := by omega
  rw [testBit_leNat (by omega), bmBit, hbyte, hbit]

theorem qword_full_iff (buf : Bytes) (qw : ℕ) :
    leNat buf (8 * qw) 8 = 2 ^ 64 - 1 ↔ ∀ i < 64, bmBit buf (64 * qw + i) = true := by
  constructor
  · intro h i hi
    rw [← testBit_qword hi, h, Nat.testBit_two_pow_sub_one]
    simpa using hi
  · intro h
    apply Nat.eq_of_testBit_eq
    intro i
    rw [Nat.testBit_two_pow_sub_one]
    by_cases hi : i < 64
    · rw [testBit_qword hi, h i hi]
      simp [hi]
    · have hword : leNat buf (8 * qw) 8 < 2 ^ 64 := leNat_lt buf (8 * qw) 8
      have hlt : leNat buf (8 * qw) 8 < 2 ^ i :=
        lt_of_lt_of_le hword (Nat.pow_le_pow_right (by norm_num) (by omega))
      rw [Nat.testBit_lt_two_pow hlt]
      simp [hi]

theorem ctzll_not_qword {buf : Bytes} {qw : ℕ} (h : leNat buf (8 * qw) 8 ≠ 2 ^ 64 - 1) :
    ∃ i < 64, ctzll (2 ^ 64 - 1 - leNat buf (8 * qw) 8) = i ∧
      bmBit buf (64 * qw + i) = false ∧ ∀ j < i, bmBit buf (64 * qw + j) = true := by
  have hlt : leNat buf (8 * qw) 8 < 2 ^ 64 := leNat_lt buf (8 * qw) 8
  have hnot : ∀ i < 64, (2 ^ 64 - 1 - leNat buf (8 * qw) 8).testBit i
      = !bmBit buf (64 * qw + i) := by
    intro i hi
    rw [Nat.sub_sub, Nat.add_comm 1, Nat.testBit_two_pow_sub_succ hlt, testBit_qword hi]
    simp [hi]
  have hsome : ∃ i < 64, bmBit buf (64 * qw + i) = false := by
    by_contra hall
    apply h
    rw [qword_full_iff]
    intro i hi
    by_contra hbit
    exact hall ⟨i, hi, by simpa using hbit⟩
  obtain ⟨k, hk⟩ : ∃ k, (range 64).find?
      (fun i => (2 ^ 64 - 1 - leNat buf (8 * qw) 8).testBit i) = some k := by
    rw [← Option.isSome_iff_exists, find?_isSome]
    obtain ⟨i, hi, hbit⟩ := hsome
    exact ⟨i, mem_range.mpr hi, by rw [hnot i hi, hbit]; rfl⟩
  have hspec := find?_range_eq_some.mp hk
  have hlt64 : k < 64 := mem_range.mp hspec.2.1
  refine ⟨k, hlt64, by rw [ctzll, hk]; rfl, ?_, ?_⟩
  · have hset := hspec.1
    rw [hnot k hlt64] at hset
    simpa using hset
  · intro j hj
    have hclear := hspec.2.2 j hj
    rw [hnot j (by omega)] at hclear
    simpa using hclear

theorem bmFindFirstZeroFrom_spec (buf : Bytes) (left qw : ℕ) (hfull : ∀ j < 64 * qw, bmBit buf j = true) :
    (bmFindFirstZeroFrom buf left qw = -1 ∧ ∀ j < 64 * (qw + left), bmBit buf j = true) ∨ ∃ i <
    64 * (qw + left), bmFindFirstZeroFrom buf left qw = i ∧ bmBit buf i = false ∧ ∀ j < i, bmBit buf j =
    true := by
  induction left generalizing qw with
  | zero => exact Or.inl ⟨rfl, by simpa using hfull⟩
  | succ left ih =>
    rw [bmFindFirstZeroFrom]
    split_ifs with hword
    · -- a full word: the loop goes on with one more full word behind it
      have hnext : ∀ j < 64 * (qw + 1), bmBit buf j = true := by
        intro j hj
        by_cases hlow : j < 64 * qw
        · exact hfull j hlow
        · have hbit := (qword_full_iff buf qw).mp hword (j - 64 * qw) (by omega)
          rwa [show 64 * qw + (j - 64 * qw) = j by omega] at hbit
      rw [show qw + (left + 1) = qw + 1 + left by omega]
      exact ih (qw + 1) hnext
    · obtain ⟨i, hi, hctz, hzero, hbelow⟩ := ctzll_not_qword hword
      refine Or.inr ⟨64 * qw + i, by omega, ?_, hzero, ?_⟩
      · rw [hctz]
        push_cast
        ring
      · intro j hj
        by_cases hlow : j < 64 * qw
        · exact hfull j hlow
        · have hbit := hbelow (j - 64 * qw) (by omega)
          rwa [show 64 * qw + (j - 64 * qw) = j by omega] at hbit

theorem bmFindFirstZero_spec (buf : Bytes) (bitSize : ℕ) (h : 64 ∣ bitSize) : (bmFindFirstZero buf bitSize =
    -1 ∧ ∀ j < bitSize, bmBit buf j = true) ∨ ∃ i < bitSize, bmFindFirstZero buf bitSize = i ∧ bmBit buf i =
    false ∧ ∀ j < i, bmBit buf j = true := by
  have hspec := bmFindFirstZeroFrom_spec buf (bitSize / 64) 0 (by simp)
  rwa [Nat.zero_add, Nat.mul_div_cancel' h] at hspec

end RvMiniOs.Fs
