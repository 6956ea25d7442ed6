import Mathlib.Data.Rat.Floor
import Mathlib.Tactic.Positivity

/-!
Decimal numbers with a context of 28 digits, as Python's decimal computes with them: a
difference or product is rounded to the context, half to even, and quantizing fails when the result
needs more digits. Multiples of a millionth below the context are computed exactly.
-/

namespace KnowledgeEngine.Decimals

structure Decimal where
  coeff : ℤ
  exp : ℤ

def Decimal.value (d : Decimal) : ℚ := d.coeff * (10 : ℚ) ^ d.exp

def precision : ℕ := 28

/-- The quotient rounded to the nearest integer, ties to even. -/
def halfEven (n : ℤ) (d : ℕ) : ℤ :=
  if 2 * (n % d) < d ∨ (2 * (n % d) = d ∧ n / d % 2 = 0) then n / d else n / d + 1

def digits (n : ℤ) : ℕ := (Nat.toDigits 10 n.natAbs).length

/-- Rounded to the digits of the context. -/
def Decimal.fit (d : Decimal) : Decimal :=
  ⟨halfEven d.coeff (10 ^ (digits d.coeff - precision)), d.exp + (digits d.coeff - precision : ℕ)⟩

/-- The exact difference. -/
def Decimal.unrounded (a b : Decimal) : Decimal :=
  let e := min a.exp b.exp
  ⟨a.coeff * 10 ^ (a.exp - e).toNat - b.coeff * 10 ^ (b.exp - e).toNat, e⟩

def Decimal.sub (a b : Decimal) : Decimal := (a.unrounded b).fit

def Decimal.mul (a b : Decimal) : Decimal := Decimal.fit ⟨a.coeff * b.coeff, a.exp + b.exp⟩

/-- The integer part. -/
def Decimal.toInt (d : Decimal) : ℤ := (d.coeff * 10 ^ d.exp.toNat).tdiv (10 ^ (-d.exp).toNat)

/-- Rounded to a power of ten. -/
def Decimal.quantize (d : Decimal) (exp : ℤ) : Option Decimal :=
  let coeff := halfEven (d.coeff * 10 ^ (d.exp - exp).toNat) (10 ^ (exp - d.exp).toNat)
  if digits coeff ≤ precision then some ⟨coeff, exp⟩ else none

/-- The nearest integer, ties to even. -/
def roundHalfEven (q : ℚ) : ℤ :=
  if q - ⌊q⌋ < 1 / 2 ∨ (q - ⌊q⌋ = 1 / 2 ∧ ⌊q⌋ % 2 = 0) then ⌊q⌋ else ⌊q⌋ + 1

variable {n : ℤ}

theorem halfEven_eq {d : ℕ} (hd : 0 < d) : halfEven n d = roundHalfEven (n / d) := by
  have hfloor : ⌊(n / d : ℚ)⌋ = n / d := Rat.floor_intCast_div_natCast n d
  have hd' : (0 : ℚ) < d := Nat.cast_pos.mpr hd
  have hrest : (n / d : ℚ) - ((n / d : ℤ) : ℚ) = ((n % d : ℤ) : ℚ) / d := by
    have hdiv : (d : ℚ) * ((n / d : ℤ) : ℚ) + ((n % d : ℤ) : ℚ) = n := by
      exact_mod_cast Int.mul_ediv_add_emod n d
    rw [← hdiv]
    field_simp
    ring
  have hbelow : ((n % d : ℤ) : ℚ) / d < 1 / 2 ↔ 2 * (n % d) < d := by
    rw [div_lt_div_iff₀ hd' two_pos, one_mul, mul_comm]
    exact_mod_cast Iff.rfl
  have htie : ((n % d : ℤ) : ℚ) / d = 1 / 2 ↔ 2 * (n % d) = d := by
    rw [div_eq_div_iff hd'.ne' two_ne_zero, one_mul, mul_comm]
    exact_mod_cast Iff.rfl
  simp only [halfEven, roundHalfEven, hfloor, hrest, hbelow, htie]

theorem roundHalfEven_intCast (n : ℤ) : roundHalfEven n = n := by
  simp [roundHalfEven]

theorem halfEven_exact (n m : ℤ) (d : ℕ) (hd : 0 < d) (h : n = m * d) : halfEven n d = m := by
  have hd' : (d : ℚ) ≠ 0 := Nat.cast_ne_zero.mpr hd.ne'
  rw [halfEven_eq hd, h, Int.cast_mul, Int.cast_natCast, mul_div_assoc, div_self hd', mul_one,
    roundHalfEven_intCast]

theorem zpow_split (a : ℤ) : (10 : ℚ) ^ a = 10 ^ a.toNat / 10 ^ (-a).toNat := by
  rcases le_total 0 a with ha | ha
  · obtain ⟨n, rfl⟩ := Int.eq_ofNat_of_zero_le ha
    simp
  · obtain ⟨n, hn⟩ := Int.eq_ofNat_of_zero_le (Int.neg_nonneg.mpr ha)
    obtain rfl : a = -n := by omega
    simp [zpow_neg]

theorem digits_le_iff : digits n ≤ precision ↔ n.natAbs < 10 ^ precision :=
  Nat.length_toDigits_le_iff (by decide) (by decide)

theorem scaled_value (d : Decimal) (exp : ℤ) :
    ((d.coeff * 10 ^ (d.exp - exp).toNat : ℤ) : ℚ) / ((10 ^ (exp - d.exp).toNat : ℕ) : ℚ) =
      d.value / (10 : ℚ) ^ exp := by
  have hsplit := zpow_split (d.exp - exp)
  rw [Int.neg_sub, zpow_sub₀ (by norm_num)] at hsplit
  rw [Decimal.value, mul_div_assoc, hsplit]
  push_cast
  rw [mul_div_assoc]

variable {m exp : ℤ} {d : Decimal}

theorem quantize_eq_some {r : Decimal} (h : d.quantize exp = some r) :
    r = ⟨roundHalfEven (d.value / (10 : ℚ) ^ exp), exp⟩ ∧ r.coeff.natAbs < 10 ^ precision := by
  rw [← scaled_value, ← halfEven_eq (by positivity)]
  obtain ⟨hdigits, hr⟩ := Option.ite_none_right_eq_some.mp h
  rw [← Option.some.inj hr]
  exact ⟨rfl, digits_le_iff.mp hdigits⟩

/-- A multiple of the quantum is not changed. -/
theorem quantize_exact (hm : m.natAbs < 10 ^ precision) (h : d.value = m * (10 : ℚ) ^ exp) :
    d.quantize exp = some ⟨m, exp⟩ := by
  have hcoeff : halfEven (d.coeff * 10 ^ (d.exp - exp).toNat) (10 ^ (exp - d.exp).toNat) = m := by
    rw [halfEven_eq (by positivity), scaled_value, h, mul_div_assoc,
      div_self (zpow_ne_zero _ (by norm_num)), mul_one, roundHalfEven_intCast]
  rw [Decimal.quantize, hcoeff, if_pos (digits_le_iff.mpr hm)]

/-- A number of few digits has zeros in every place beyond them. -/
theorem exp_le_of_value {k : ℕ} (hm : m.natAbs < 10 ^ precision) (h : d.value = m * (10 : ℚ) ^ exp)
    (hk : 10 ^ (precision - 1 + k) ≤ d.coeff.natAbs) : d.exp + k ≤ exp := by
  by_contra hlt
  have hcoeff : (10 : ℚ) ^ ((precision - 1 + k : ℕ) : ℤ) ≤ d.coeff.natAbs := by
    rw [zpow_natCast]
    exact_mod_cast hk
  have hm' : (m.natAbs : ℚ) < (10 : ℚ) ^ (precision : ℤ) := by
    rw [zpow_natCast]
    exact_mod_cast hm
  have habs : (d.coeff.natAbs : ℚ) * (10 : ℚ) ^ d.exp = m.natAbs * (10 : ℚ) ^ exp := by
    have heq := congrArg abs h
    have hpos : ∀ e : ℤ, |(10 : ℚ) ^ e| = (10 : ℚ) ^ e :=
      fun e => abs_of_pos (zpow_pos (by norm_num) e)
    rwa [Decimal.value, abs_mul, abs_mul, hpos, hpos, ← Int.cast_abs, ← Int.cast_abs,
      Int.abs_eq_natAbs, Int.abs_eq_natAbs, Int.cast_natCast, Int.cast_natCast] at heq
  have hlow : (10 : ℚ) ^ (((precision - 1 + k : ℕ) : ℤ) + d.exp) ≤ m.natAbs * (10 : ℚ) ^ exp := by
    rw [← habs, zpow_add₀ (by norm_num)]
    exact mul_le_mul_of_nonneg_right hcoeff (zpow_nonneg (by norm_num) _)
  have hhigh : m.natAbs * (10 : ℚ) ^ exp < (10 : ℚ) ^ ((precision : ℤ) + exp) := by
    rw [zpow_add₀ (by norm_num)]
    exact mul_lt_mul_of_pos_right hm' (zpow_pos (by norm_num) _)
  have hexp := (zpow_lt_zpow_iff_right₀ (by norm_num : (1 : ℚ) < 10)).mp (hlow.trans_lt hhigh)
  unfold precision at hexp
  omega

/-- Such a number is not rounded, however many of the zeros are written. -/
theorem fit_exact (hm : m.natAbs < 10 ^ precision) (h : d.value = m * (10 : ℚ) ^ exp) :
    d.fit.value = d.value := by
  obtain ⟨k, hk⟩ : ∃ k, k = digits d.coeff - precision := ⟨_, rfl⟩
  rw [Decimal.fit, ← hk]
  obtain hzero | hpos := Nat.eq_zero_or_pos k
  · rw [hzero, pow_zero, halfEven_exact d.coeff d.coeff 1 one_pos (by simp)]
    simp [Decimal.value]
  · have hlarge : 10 ^ (precision - 1 + k) ≤ d.coeff.natAbs := by
      rw [← Nat.not_lt, ← Nat.length_toDigits_le_iff (by decide) (by unfold precision; omega)]
      unfold digits precision at hk
      unfold precision
      omega
    obtain ⟨j, hj⟩ := Int.le.dest (exp_le_of_value hm h hlarge)
    have hcoeff : d.coeff = m * 10 ^ j * (10 ^ k : ℕ) := by
      have hvalue : (d.coeff : ℚ) * (10 : ℚ) ^ d.exp =
          (m * 10 ^ j * 10 ^ k) * (10 : ℚ) ^ d.exp := by
        rw [← Decimal.value, h, ← hj, zpow_add₀ (by norm_num), zpow_add₀ (by norm_num),
          zpow_natCast, zpow_natCast]
        ring
      exact_mod_cast mul_right_cancel₀ (zpow_ne_zero _ (by norm_num)) hvalue
    rw [halfEven_exact d.coeff (m * 10 ^ j) (10 ^ k) (by positivity) hcoeff, h, ← hj,
      Decimal.value, zpow_add₀ (by norm_num) (d.exp + k), zpow_natCast]
    push_cast
    ring

theorem halfEven_nonpos {d : ℕ} (hd : 0 < d) (hn : n ≤ 0) : halfEven n d ≤ 0 := by
  have hdiv := Int.mul_ediv_add_emod n d
  have hlow := Int.emod_nonneg n (b := d) (by omega)
  have hquotient : n / d ≤ 0 := Int.zero_ediv (d : ℤ) ▸ Int.ediv_le_ediv (by omega) hn
  unfold halfEven
  split
  case isTrue => exact hquotient
  case isFalse hround =>
    by_contra hpos
    obtain hzero : n / d = 0 := by omega
    rw [hzero, Int.mul_zero] at hdiv
    omega

theorem fit_nonpos (h : d.coeff ≤ 0) : d.fit.coeff ≤ 0 :=
  halfEven_nonpos (by positivity) h

theorem aligned_value (d : Decimal) (e : ℤ) (he : e ≤ d.exp) :
    ((d.coeff * 10 ^ (d.exp - e).toNat : ℤ) : ℚ) * (10 : ℚ) ^ e = d.value := by
  obtain ⟨n, hn⟩ := Int.le.dest he
  have hshift : (d.exp - e).toNat = n := by omega
  rw [hshift, Decimal.value, ← hn, zpow_add₀ (by norm_num), zpow_natCast]
  push_cast
  ring

theorem unrounded_value (a b : Decimal) : (a.unrounded b).value = a.value - b.value := by
  rw [← aligned_value a (min a.exp b.exp) (min_le_left _ _),
    ← aligned_value b (min a.exp b.exp) (min_le_right _ _), ← sub_mul, ← Int.cast_sub]
  rfl

theorem sub_exact {a b : Decimal} (hm : m.natAbs < 10 ^ precision)
    (h : a.value - b.value = m * (10 : ℚ) ^ exp) : (a.sub b).value = m * (10 : ℚ) ^ exp := by
  rw [← unrounded_value] at h
  rw [Decimal.sub, fit_exact hm h, h]

theorem value_nonpos (d : Decimal) : d.value ≤ 0 ↔ d.coeff ≤ 0 := by
  rw [← not_lt, Decimal.value, mul_pos_iff_of_pos_right (zpow_pos (by norm_num) _), Int.cast_pos,
    not_lt]

/-- A difference that is not positive does not become positive by rounding. -/
theorem sub_nonpos_of_le (a b : Decimal) (h : a.value ≤ b.value) : (a.sub b).value ≤ 0 := by
  rw [value_nonpos]
  refine fit_nonpos ((value_nonpos _).mp ?_)
  rw [unrounded_value]
  exact sub_nonpos.mpr h

theorem mul_exact {a b : Decimal} (hm : m.natAbs < 10 ^ precision)
    (h : a.value * b.value = m * (10 : ℚ) ^ exp) : (a.mul b).value = m * (10 : ℚ) ^ exp := by
  have hvalue : Decimal.value ⟨a.coeff * b.coeff, a.exp + b.exp⟩ = m * (10 : ℚ) ^ exp := by
    rw [← h, Decimal.value, zpow_add₀ (by norm_num)]
    push_cast [Decimal.value]
    ring
  rw [Decimal.mul, fit_exact hm hvalue, hvalue]

theorem toInt_of_value (h : d.value = m) : d.toInt = m := by
  have hcoeff : d.coeff * 10 ^ d.exp.toNat = m * 10 ^ (-d.exp).toNat := by
    have hsplit : (d.coeff : ℚ) * 10 ^ d.exp.toNat = m * 10 ^ (-d.exp).toNat := by
      rw [← h, Decimal.value, zpow_split d.exp]
      field_simp
    exact_mod_cast hsplit
  rw [Decimal.toInt, hcoeff, Int.mul_tdiv_cancel _ (by positivity)]

end KnowledgeEngine.Decimals
