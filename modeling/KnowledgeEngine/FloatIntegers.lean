import KnowledgeEngine.FloatRoundTrip

/-!
Integers carried as float64 values. An integer of at most 53 bits is read from its
decimal text without loss, and the conversion back to an int64 returns it.
-/

namespace KnowledgeEngine.FloatIntegers

open MachineNumbers FloatText FloatRoundTrip

/-- The conversion `int64(f)`: the part before the point. Values that do not fit, and
those that are not numbers, give the least int64, as on amd64. -/
def truncFloat (bits : BitVec 64) : ℤ :=
  let magnitude := bits.toNat % 2 ^ 63
  let whole : ℤ := (units magnitude / 2 ^ scale : ℕ)
  let x := if bits.msb then -whole else whole
  if magnitude < infinity ∧ Fits64 x then x else -2 ^ 63

theorem units_normal {e f : ℕ} (hf : f < 2 ^ 52) :
    units (2 ^ 52 * (e + 1) + f) = 2 ^ e * (f + 2 ^ 52) := by
  have hdiv : (2 ^ 52 * (e + 1) + f) / 2 ^ 52 = e + 1 := by omega
  have hmod : (2 ^ 52 * (e + 1) + f) % 2 ^ 52 = f := by omega
  rw [units, if_neg (by omega), hdiv, hmod, Nat.add_sub_cancel]

/-- An integer below 2 ^ 53 times any power of two is a magnitude. -/
theorem exists_units (n e : ℕ) (h : n < 2 ^ 53) :
    ∃ bits, units bits = n * 2 ^ (e + 52) ∧ bits < 2 ^ 52 * (e + 54) := by
  by_cases hzero : n = 0
  · exact ⟨0, by simp [hzero, units], by omega⟩
  · have hlog : Nat.log2 n < 53 := (Nat.log2_lt hzero).mpr h
    have hlow : 2 ^ Nat.log2 n ≤ n := Nat.log2_self_le hzero
    have hhigh : n < 2 ^ (Nat.log2 n + 1) := Nat.lt_log2_self
    obtain ⟨rest, hrest⟩ : ∃ rest, rest + Nat.log2 n = 52 := ⟨52 - Nat.log2 n, by omega⟩
    have hlow' : 2 ^ 52 ≤ n * 2 ^ rest := by
      rw [← hrest, Nat.pow_add, Nat.mul_comm n]
      exact Nat.mul_le_mul_left _ hlow
    have hhigh' : n * 2 ^ rest < 2 ^ 53 := by
      rw [show 53 = Nat.log2 n + 1 + rest by omega, Nat.pow_add]
      exact Nat.mul_lt_mul_of_pos_right hhigh (Nat.two_pow_pos rest)
    refine ⟨2 ^ 52 * (e + Nat.log2 n + 1) + (n * 2 ^ rest - 2 ^ 52), ?_, by omega⟩
    rw [units_normal (by omega), Nat.sub_add_cancel hlow', Nat.mul_comm, Nat.mul_assoc,
      ← Nat.pow_add]
    congr 2
    omega

theorem exists_units_integer (n : ℕ) (h : n ≤ 2 ^ 53) :
    ∃ bits, units bits = n * 2 ^ scale ∧ bits < infinity := by
  have hscale : scale = 1022 + 52 := rfl
  have hinfinity : infinity = 2047 * 2 ^ 52 := rfl
  rcases Nat.lt_or_eq_of_le h with hlt | rfl
  · obtain ⟨bits, hunits, hbits⟩ := exists_units n 1022 hlt
    exact ⟨bits, hscale ▸ hunits, by omega⟩
  · obtain ⟨bits, hunits, hbits⟩ := exists_units 1 1075 (by decide)
    refine ⟨bits, ?_, by omega⟩
    rw [hunits, Nat.one_mul, hscale, ← Nat.pow_add]

theorem nearest_integer {n bits : ℕ} (hunits : units bits = n * 2 ^ scale) :
    nearest n 1 = bits := by
  rw [← nearest_scale n 1 _ (Nat.two_pow_pos scale), ← hunits, Nat.one_mul, nearest_units]

/-- The digits of an integer that is a number are read as that number. -/
theorem parseMagnitude_units {n bits : ℕ} (hunits : units bits = n * 2 ^ scale)
    (hbits : bits < infinity) : parseMagnitude (Nat.toDigits 10 n) = some bits := by
  have hdigits : ∀ c ∈ Nat.toDigits 10 n, c.isDigit = true := fun c hc =>
    Nat.isDigit_of_mem_toDigits (by decide) (by decide) hc
  refine (parts_digits hdigits Nat.toDigits_ne_nil).parse rfl ?_ hbits
  rw [List.append_nil, Nat.ofDigitChars_ten_toDigits, nearestDecimal]
  simp only [List.length_nil, Int.natCast_zero, Int.sub_zero, Int.neg_zero, Int.toNat_zero,
    Nat.pow_zero, Nat.mul_one, nearest_integer hunits]

theorem parseMagnitude_integer (n : ℕ) (h : n ≤ 2 ^ 53) :
    ∃ bits, parseMagnitude (Nat.toDigits 10 n) = some bits ∧ units bits = n * 2 ^ scale ∧
      bits < infinity := by
  obtain ⟨bits, hunits, hbits⟩ := exists_units_integer n h
  exact ⟨bits, parseMagnitude_units hunits hbits, hunits, hbits⟩

/-- The text of an integer of at most 53 bits, read as a float64 and converted back. -/
theorem truncFloat_decimal (n : ℤ) (hlow : -2 ^ 53 ≤ n) (hhigh : n ≤ 2 ^ 53) :
    ∃ bits, parseFloat (decimal n) = some bits ∧ truncFloat bits = n := by
  obtain ⟨bits, hparse, hunits, hbits⟩ := parseMagnitude_integer n.natAbs (by omega)
  have hinfinity : infinity = 2047 * 2 ^ 52 := rfl
  have hwhole : units bits / 2 ^ scale = n.natAbs := by
    rw [hunits, Nat.mul_div_cancel _ (Nat.two_pow_pos _)]
  cases n with
  | ofNat n =>
    have hmod : (BitVec.ofNat 64 bits).toNat % 2 ^ 63 = bits := by
      rw [BitVec.toNat_ofNat]
      omega
    have hmsb : (BitVec.ofNat 64 bits).msb = false := by
      rw [BitVec.msb_eq_decide, BitVec.toNat_ofNat, decide_eq_false_iff_not]
      omega
    refine ⟨_, parseFloat_unsigned hparse, ?_⟩
    simp only [truncFloat, hmod, hmsb, hwhole, Bool.false_eq_true, if_false]
    exact if_pos ⟨hbits, by omega, by omega⟩
  | negSucc n =>
    have hmod : (BitVec.ofNat 64 (bits + 2 ^ 63)).toNat % 2 ^ 63 = bits := by
      rw [BitVec.toNat_ofNat]
      omega
    have hmsb : (BitVec.ofNat 64 (bits + 2 ^ 63)).msb = true := by
      rw [BitVec.msb_eq_decide, BitVec.toNat_ofNat, decide_eq_true_iff]
      omega
    have hparse' : parseFloat (decimal (Int.negSucc n)) =
        some (BitVec.ofNat 64 (bits + 2 ^ 63)) := by
      rw [decimal, parseFloat]
      exact congrArg (Option.map _) hparse
    refine ⟨_, hparse', ?_⟩
    simp only [truncFloat, hmod, hmsb, hwhole, if_true]
    exact if_pos ⟨hbits, by omega, by omega⟩

end KnowledgeEngine.FloatIntegers
