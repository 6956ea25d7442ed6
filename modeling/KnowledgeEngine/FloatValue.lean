import KnowledgeEngine.FloatText
import Mathlib.Data.Rat.Floor

/-!
Finite numbers of 64 bits as rationals, and their eight bytes, the most significant first.
A rational that is the value of some bits is written with bits of that value, so storing
it and reading it back gives it again.
-/

namespace KnowledgeEngine.FloatValue

open FloatText

def isFinite (b : BitVec 64) : Bool := decide (b.toNat % 2 ^ 63 < infinity)

/-- The value of finite bits. -/
def value (b : BitVec 64) : ℚ :=
  (if 2 ^ 63 ≤ b.toNat then -1 else 1) * (units (b.toNat % 2 ^ 63) / 2 ^ scale)

def signBit (q : ℚ) : ℕ := if q < 0 then 2 ^ 63 else 0

/-- The bits nearest to a number; zero has no sign. -/
def floatBits (q : ℚ) : BitVec 64 := BitVec.ofNat 64 (signBit q + nearest q.num.natAbs q.den)

/-- The number is the value of finite bits. -/
def Represented (q : ℚ) : Prop := ∃ b, isFinite b = true ∧ value b = q

/-- The last `width` base-256 digits of a number, the most significant first. -/
def bigEndian : ℕ → ℕ → List UInt8
  | 0, _ => []
  | width + 1, n => bigEndian width (n / 256) ++ [UInt8.ofNat n]

def readBigEndian (bytes : List UInt8) : ℕ := bytes.foldl (fun acc b => acc * 256 + b.toNat) 0

def putUint64 (b : BitVec 64) : List UInt8 := bigEndian 8 b.toNat

def uint64 (bytes : List UInt8) : BitVec 64 := BitVec.ofNat 64 (readBigEndian bytes)

theorem bigEndian_length {width n : ℕ} : (bigEndian width n).length = width := by
  induction width generalizing n with
  | zero => rfl
  | succ width ih => rw [bigEndian, List.length_append, ih, List.length_singleton]

theorem readBigEndian_bigEndian (width n : ℕ) :
    readBigEndian (bigEndian width n) = n % 256 ^ width := by
  induction width generalizing n with
  | zero => simp [bigEndian, readBigEndian, Nat.mod_one]
  | succ width ih =>
    have hlast : readBigEndian (bigEndian width (n / 256) ++ [UInt8.ofNat n]) =
        readBigEndian (bigEndian width (n / 256)) * 256 + (UInt8.ofNat n).toNat := by
      simp [readBigEndian, List.foldl_append]
    have hpow : 256 ^ (width + 1) = 256 * 256 ^ width := by rw [Nat.pow_succ, Nat.mul_comm]
    rw [bigEndian, hlast, ih, UInt8.toNat_ofNat', hpow, Nat.mod_mul]
    omega

theorem uint64_putUint64 {b : BitVec 64} : uint64 (putUint64 b) = b := by
  rw [uint64, putUint64, readBigEndian_bigEndian, show 256 ^ 8 = 2 ^ 64 by decide,
    Nat.mod_eq_of_lt b.isLt, BitVec.ofNat_toNat, BitVec.setWidth_eq]

theorem represented_zero : Represented 0 := ⟨0, by decide +kernel, by simp [value, units]⟩

theorem abs_value (b : BitVec 64) : |value b| = units (b.toNat % 2 ^ 63) / 2 ^ scale := by
  have hnonneg : (0 : ℚ) ≤ units (b.toNat % 2 ^ 63) / 2 ^ scale :=
    div_nonneg (Nat.cast_nonneg _) (pow_nonneg zero_le_two _)
  unfold value
  split
  · rw [neg_one_mul, abs_neg, abs_of_nonneg hnonneg]
  · rw [one_mul, abs_of_nonneg hnonneg]

/-- The magnitude nearest to an exact value is that value's. -/
theorem nearest_value (b : BitVec 64) :
    nearest (value b).num.natAbs (value b).den = b.toNat % 2 ^ 63 := by
  have hden : ((value b).den : ℚ) ≠ 0 := by exact_mod_cast (value b).den_nz
  have hscale : (2 : ℚ) ^ scale ≠ 0 := pow_ne_zero _ two_ne_zero
  have hquotient : ((value b).num.natAbs : ℚ) / (value b).den =
      units (b.toNat % 2 ^ 63) / 2 ^ scale := by
    have hpos : (0 : ℚ) ≤ (value b).den := Nat.cast_nonneg _
    rw [← abs_value, Nat.cast_natAbs, Int.cast_abs, ← abs_of_nonneg hpos, ← abs_div,
      Rat.num_div_den]
  have hcross : (value b).num.natAbs * 2 ^ scale = units (b.toNat % 2 ^ 63) * (value b).den := by
    rw [div_eq_div_iff hden hscale] at hquotient
    exact_mod_cast hquotient
  rw [nearest_congr (value b).den_pos (Nat.two_pow_pos scale) hcross, nearest_units]

theorem toNat_floatBits (b : BitVec 64) :
    (floatBits (value b)).toNat = signBit (value b) + b.toNat % 2 ^ 63 := by
  have hsign : signBit (value b) ≤ 2 ^ 63 := by
    unfold signBit
    split <;> omega
  rw [floatBits, nearest_value, BitVec.toNat_ofNat]
  apply Nat.mod_eq_of_lt
  omega

theorem value_floatBits {q : ℚ} (h : Represented q) : value (floatBits q) = q := by
  obtain ⟨b, -, rfl⟩ := h
  have hbits := toNat_floatBits b
  have hmagnitude : (floatBits (value b)).toNat % 2 ^ 63 = b.toNat % 2 ^ 63 := by
    rw [hbits, signBit]
    split <;> omega
  rw [value, hmagnitude, ← abs_value]
  by_cases hq : value b < 0
  · rw [signBit, if_pos hq] at hbits
    rw [if_pos (by omega), abs_of_neg hq, neg_one_mul, neg_neg]
  · rw [signBit, if_neg hq] at hbits
    rw [if_neg (by omega), abs_of_nonneg (not_lt.mp hq), one_mul]

end KnowledgeEngine.FloatValue
