import KnowledgeEngine.Decimals
import KnowledgeEngine.FloatIntegers
import Mathlib.Data.Nat.Factorization.Basic
import Mathlib.Data.Nat.Log

/-!
The order of floating-point numbers and of their decimals. A larger decimal is read as a
number that is not smaller, so where the point of the shortest decimal stands tells how a
number compares with a power of ten; an integer is read as an integer.
-/

namespace KnowledgeEngine.FloatOrder

open FloatText FloatIntegers

theorem divHalfEven_mono {n n' d : ℕ} (h : n ≤ n') : divHalfEven n d ≤ divHalfEven n' d := by
  have hdiv : n / d ≤ n' / d := Nat.div_le_div_right h
  rcases Nat.lt_or_eq_of_le hdiv with hlt | heq
  · rcases divHalfEven_cases n d with hn | hn <;> rcases divHalfEven_cases n' d with hn' | hn' <;>
      omega
  · have hmod : n % d ≤ n' % d := by
      have hn := Nat.div_add_mod n d
      have hn' := Nat.div_add_mod n' d
      rw [← heq] at hn'
      omega
    unfold divHalfEven
    rw [← heq]
    split <;> split <;> omega

/-- How far the significand of the number nearest to n / d is shifted. -/
def shiftOf (n d : ℕ) : ℕ := Nat.log2 (2 ^ scale * n / d) - 52

theorem significand_bounds (n d : ℕ) :
    2 ^ scale * n / (2 ^ shiftOf n d * d) < 2 ^ 53 ∧
      (0 < shiftOf n d → 2 ^ 52 ≤ 2 ^ scale * n / (2 ^ shiftOf n d * d)) := by
  rw [Nat.mul_comm (2 ^ shiftOf n d), ← Nat.div_div_eq_div_mul]
  have hshift : shiftOf n d = Nat.log2 (2 ^ scale * n / d) - 52 := rfl
  generalize 2 ^ scale * n / d = a at hshift ⊢
  generalize shiftOf n d = s at hshift ⊢
  constructor
  · rw [Nat.div_lt_iff_lt_mul (Nat.two_pow_pos s), ← Nat.pow_add]
    exact Nat.lt_log2_self.trans_le (Nat.pow_le_pow_right (by decide) (by omega))
  · intro hpos
    rw [Nat.le_div_iff_mul_le (Nat.two_pow_pos s), ← Nat.pow_add, show 52 + s = Nat.log2 a by omega]
    refine Nat.log2_self_le fun hzero => ?_
    rw [hzero, Nat.log2_zero] at hshift
    omega

theorem nearest_mono_same (n n' d : ℕ) (h : n ≤ n') : nearest n d ≤ nearest n' d := by
  have hscaled : 2 ^ scale * n ≤ 2 ^ scale * n' := Nat.mul_le_mul_left _ h
  have hshift : shiftOf n d ≤ shiftOf n' d := by
    have hlog : Nat.log2 (2 ^ scale * n / d) ≤ Nat.log2 (2 ^ scale * n' / d) := by
      rw [Nat.log2_eq_log_two, Nat.log2_eq_log_two]
      exact Nat.log_mono_right (Nat.div_le_div_right hscaled)
    unfold shiftOf
    omega
  change 2 ^ 52 * shiftOf n d + divHalfEven (2 ^ scale * n) (2 ^ shiftOf n d * d) ≤
    2 ^ 52 * shiftOf n' d + divHalfEven (2 ^ scale * n') (2 ^ shiftOf n' d * d)
  rcases Nat.lt_or_eq_of_le hshift with hlt | heq
  · have hlow := (significand_bounds n d).1
    have hhigh := (significand_bounds n' d).2 (by omega)
    have hle := divHalfEven_cases (2 ^ scale * n) (2 ^ shiftOf n d * d)
    have hge := divHalfEven_cases (2 ^ scale * n') (2 ^ shiftOf n' d * d)
    omega
  · rw [← heq]
    exact Nat.add_le_add_left (divHalfEven_mono hscaled) _

/-- The number nearest to a larger quotient is not smaller. -/
theorem nearest_mono (n d n' d' : ℕ) (hd : 0 < d) (hd' : 0 < d') (h : n * d' ≤ n' * d) :
    nearest n d ≤ nearest n' d' := by
  rw [← nearest_scale n d d' hd', ← nearest_scale n' d' d hd, Nat.mul_comm d' d]
  exact nearest_mono_same _ _ _ h

theorem nearestDecimal_mono (m m' : ℕ) (k k' : ℤ) (h : (m : ℚ) * 10 ^ k ≤ m' * 10 ^ k') :
    nearestDecimal m k ≤ nearestDecimal m' k' := by
  refine nearest_mono _ _ _ _ (by positivity) (by positivity) ?_
  rw [Decimals.zpow_split, Decimals.zpow_split, ← mul_div_assoc, ← mul_div_assoc,
    div_le_div_iff₀ (by positivity) (by positivity)] at h
  exact_mod_cast h

/-- A number in units of one. -/
def Integral (bits : ℕ) : Prop := 2 ^ scale ∣ units bits

instance (bits : ℕ) : Decidable (Integral bits) := inferInstanceAs (Decidable (_ ∣ _))

/-- From 2 to the power of 53 on every number is an integer. -/
theorem integral_of_large (bits : ℕ) (h : 1075 * 2 ^ 52 ≤ bits) : Integral bits := by
  have hdiv : scale ≤ bits / 2 ^ 52 - 1 := by
    have hscale : scale = 1074 := rfl
    omega
  rw [Integral, units, if_neg (by omega)]
  exact Dvd.dvd.mul_right (Nat.pow_dvd_pow 2 hdiv) _

theorem units_pos {bits : ℕ} (hne : bits ≠ 0) : 0 < units bits := by
  unfold units
  split
  · omega
  · exact Nat.mul_pos (Nat.two_pow_pos _) (by omega)

theorem one_le_of_integral {bits : ℕ} (hne : bits ≠ 0) (h : Integral bits) :
    1023 * 2 ^ 52 ≤ bits := by
  by_contra hsmall
  have hscale : scale = 1021 + 53 := rfl
  have hunits : units bits < 2 ^ scale := by
    unfold units
    split
    · next hlow => exact hlow.trans_le (Nat.pow_le_pow_right (by decide) (by decide))
    · have hfraction : bits % 2 ^ 52 + 2 ^ 52 < 2 ^ 53 := by omega
      calc 2 ^ (bits / 2 ^ 52 - 1) * (bits % 2 ^ 52 + 2 ^ 52)
          < 2 ^ (bits / 2 ^ 52 - 1) * 2 ^ 53 :=
            Nat.mul_lt_mul_of_pos_left hfraction (Nat.two_pow_pos _)
        _ = 2 ^ (bits / 2 ^ 52 - 1 + 53) := (Nat.pow_add _ _ _).symm
        _ ≤ 2 ^ scale := Nat.pow_le_pow_right (by decide) (by omega)
  exact Nat.not_dvd_of_pos_of_lt (units_pos hne) hunits h

/-- An integer is read as an integer. -/
theorem integral_nearest (n : ℕ) : Integral (nearest n 1) := by
  by_cases hsmall : n ≤ 2 ^ 53
  · obtain ⟨bits, hunits, _⟩ := exists_units_integer n hsmall
    rw [nearest_integer hunits, Integral, hunits]
    exact Nat.dvd_mul_left _ _
  · refine integral_of_large _ (Nat.le_trans ?_ (nearest_mono_same (2 ^ 53) n 1 (by omega)))
    decide +kernel

theorem toDigits_mul_pow (n z : ℕ) (hn : 0 < n) :
    Nat.toDigits 10 (n * 10 ^ z) = Nat.toDigits 10 n ++ List.replicate z '0' := by
  induction z with
  | zero => simp
  | succ z ih =>
    rw [List.replicate_succ', ← List.append_assoc, ← ih]
    have hpos : 0 < n * 10 ^ z := Nat.mul_pos hn (by positivity)
    have happend := Nat.toDigits_append_toDigits (b := 10) (n := n * 10 ^ z) (d := 0)
      (by decide) hpos (by decide)
    rw [show Nat.toDigits 10 0 = ['0'] from rfl] at happend
    rw [happend]
    congr 1
    rw [Nat.pow_succ]
    ring

theorem rdropWhile_zeros {n z : ℕ} (hn : n % 10 ≠ 0) :
    (Nat.toDigits 10 n ++ List.replicate z '0').rdropWhile (· == '0') = Nat.toDigits 10 n := by
  induction z with
  | zero =>
    have hlast : Nat.digitChar (n % 10) ≠ '0' := by
      rw [ne_eq, Nat.digitChar_eq_zero]
      exact hn
    rw [List.replicate_zero, List.append_nil]
    by_cases hsmall : n < 10
    · rw [Nat.mod_eq_of_lt hsmall] at hlast
      rw [Nat.toDigits_of_lt_base hsmall]
      exact List.rdropWhile_concat_neg _ [] _ (by simpa using hlast)
    · rw [Nat.toDigits_of_base_le (by decide) (by omega)]
      exact List.rdropWhile_concat_neg _ _ _ (by simpa using hlast)
  | succ z ih =>
    rw [List.replicate_succ', ← List.append_assoc, List.rdropWhile_concat_pos _ _ _ (by decide), ih]

/-- The shortest decimal of a number is n * 10 ^ k. -/
structure Shortest (bits n : ℕ) (k : ℤ) : Prop where
  digits : (decimalOf bits).digits = Nat.toDigits 10 n
  point : (decimalOf bits).point = (Nat.toDigits 10 n).length + k
  last : n % 10 ≠ 0
  value : nearestDecimal n k = bits

theorem exists_shortest (bits : ℕ) (hne : bits ≠ 0) : ∃ n k, Shortest bits n k := by
  have hvalue := shortest_nearest bits
  have hpos : (shortest bits).1 ≠ 0 := by
    intro hzero
    rw [hzero, nearestDecimal_zero] at hvalue
    exact hne hvalue.symm
  obtain ⟨z, n, hlast, hn⟩ := Nat.exists_eq_pow_mul_and_not_dvd hpos 10 (by decide)
  rw [Nat.mul_comm] at hn
  have hn0 : n ≠ 0 := by
    rintro rfl
    exact hlast (Nat.dvd_zero _)
  have hmod : n % 10 ≠ 0 := fun h => hlast (Nat.dvd_of_mod_eq_zero h)
  have hdigits := toDigits_mul_pow n z (Nat.pos_of_ne_zero hn0)
  refine ⟨n, (shortest bits).2 + z, ?_, ?_, hmod, ?_⟩
  · rw [decimalOf, if_neg hne, hn, hdigits]
    exact rdropWhile_zeros hmod
  · rw [decimalOf, if_neg hne, hn, hdigits]
    simp only [List.length_append, List.length_replicate]
    push_cast
    ring
  · rw [← nearestDecimal_shift n z, Int.add_sub_cancel, ← hn]
    exact hvalue

section point

variable {bits n : ℕ} {k : ℤ}

theorem Shortest.pos (h : Shortest bits n k) : 0 < n := by
  have hlast := h.last
  omega

theorem length_bounds (hn : 0 < n) :
    10 ^ ((Nat.toDigits 10 n).length - 1) ≤ n ∧ n < 10 ^ (Nat.toDigits 10 n).length := by
  have hlength : 0 < (Nat.toDigits 10 n).length :=
    List.length_pos_iff.mpr Nat.toDigits_ne_nil
  constructor
  · by_cases hone : (Nat.toDigits 10 n).length = 1
    · rw [hone]
      exact hn
    · by_contra hlt
      have hle := (Nat.length_toDigits_le_iff (b := 10) (by decide) (by omega)).mpr
        (Nat.lt_of_not_le hlt)
      omega
  · exact (Nat.length_toDigits_le_iff (b := 10) (by decide) hlength).mp (Nat.le_refl _)

theorem Shortest.ge_power (h : Shortest bits n k) (j : ℤ) (hj : j < (decimalOf bits).point) :
    nearestDecimal 1 j ≤ bits := by
  have hlow := (length_bounds h.pos).1
  have hlength : 0 < (Nat.toDigits 10 n).length :=
    List.length_pos_iff.mpr Nat.toDigits_ne_nil
  rw [h.point] at hj
  rw [← h.value]
  refine nearestDecimal_mono 1 n j k ?_
  calc ((1 : ℕ) : ℚ) * 10 ^ j = 10 ^ (j - k) * 10 ^ k := by
        rw [← zpow_add₀ (by norm_num)]
        simp
    _ ≤ 10 ^ (((Nat.toDigits 10 n).length - 1 : ℕ) : ℤ) * 10 ^ k := by
        refine mul_le_mul_of_nonneg_right ?_ (zpow_nonneg (by norm_num) k)
        exact zpow_le_zpow_right₀ (by norm_num) (by omega)
    _ ≤ n * 10 ^ k := by
        refine mul_le_mul_of_nonneg_right ?_ (zpow_nonneg (by norm_num) k)
        rw [zpow_natCast]
        exact_mod_cast hlow

theorem Shortest.le_power (h : Shortest bits n k) (j : ℤ) (hj : (decimalOf bits).point ≤ j) :
    bits ≤ nearestDecimal 1 j := by
  have hhigh := (length_bounds h.pos).2
  rw [h.point] at hj
  rw [← h.value]
  refine nearestDecimal_mono n 1 k j ?_
  calc (n : ℚ) * 10 ^ k ≤ 10 ^ ((Nat.toDigits 10 n).length : ℤ) * 10 ^ k := by
        refine mul_le_mul_of_nonneg_right ?_ (zpow_nonneg (by norm_num) k)
        rw [zpow_natCast]
        exact_mod_cast hhigh.le
    _ = 10 ^ ((Nat.toDigits 10 n).length + k) := (zpow_add₀ (by norm_num) _ _).symm
    _ ≤ ((1 : ℕ) : ℚ) * 10 ^ j := by
        rw [Nat.cast_one, one_mul]
        exact zpow_le_zpow_right₀ (by norm_num) hj

end point

/-- The point of a number against a power of ten whose shortest decimal is itself. -/
theorem point_le_iff {bits : ℕ} {j : ℤ} (hne : bits ≠ 0)
    (hpower : (decimalOf (nearestDecimal 1 j)).point = j + 1) :
    (decimalOf bits).point ≤ j ↔ bits < nearestDecimal 1 j := by
  obtain ⟨n, k, h⟩ := exists_shortest bits hne
  constructor
  · intro hpoint
    refine Nat.lt_of_le_of_ne (h.le_power j hpoint) fun heq => ?_
    rw [← heq] at hpower
    omega
  · intro hlt
    by_contra hpoint
    have hge := h.ge_power j (by omega)
    omega

theorem powers_point : ∀ j ∈ [-9, -6, -4, 16, 21],
    (decimalOf (nearestDecimal 1 j)).point = j + 1 := by
  decide +kernel

end KnowledgeEngine.FloatOrder
