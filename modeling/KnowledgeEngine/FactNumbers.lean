import KnowledgeEngine.JsonFloat

/-!
The measures of a fact as JSON numbers (core/types/fact.go and fact.py). Go leaves them to
encoding/json; Python writes an integral float below 1e21 as an int and leaves the others to
repr. The texts are compared number by number.
-/

namespace KnowledgeEngine.FactNumbers

open FloatIntegers FloatOrder FloatRoundTrip FloatText JsonFloat JsonText MachineNumbers

/-- int(value) -/
def intValue (bits : BitVec 64) : ℤ :=
  let whole : ℤ := (units (magnitude bits) / 2 ^ scale : ℕ)
  if bits.msb then -whole else whole

/-- What json.dumps writes for _number of a float. -/
def number (bits : BitVec 64) : List Char :=
  if Integral (magnitude bits) ∧ magnitude bits < nearestDecimal 1 21 then decimal (intValue bits)
  else pyFloat bits

def negativeZero : BitVec 64 := 0x8000000000000000

/-- The measures both languages write alike. -/
structure Agrees (bits : BitVec 64) : Prop where
  zero : bits ≠ negativeZero
  small : ¬ (nearestDecimal 1 (-9) ≤ magnitude bits ∧ magnitude bits < nearestDecimal 1 (-4))
  exact : Integral (magnitude bits) → magnitude bits < nearestDecimal 1 21 → Exact (magnitude bits)

theorem power_iff (bits : ℕ) (hne : bits ≠ 0) (j : ℤ) (hj : j ∈ [-9, -6, -4, 16, 21]) :
    (decimalOf bits).point ≤ j ↔ bits < nearestDecimal 1 j :=
  point_le_iff hne (powers_point j hj)

/-- A float that is no integer has a point in front of its last digit. -/
theorem point_lt_of_not_integral (bits : ℕ) (hint : ¬ Integral bits) :
    bits ≠ 0 ∧ (decimalOf bits).point < (decimalOf bits).digits.length ∧
      (decimalOf bits).point ≤ 16 := by
  have hne : bits ≠ 0 := by
    rintro rfl
    exact hint (Nat.dvd_zero _)
  refine ⟨hne, ?_, ?_⟩
  · by_contra hpoint
    obtain ⟨n, k, h⟩ := exists_shortest bits hne
    rw [h.point, h.digits] at hpoint
    obtain ⟨j, rfl⟩ := Int.eq_ofNat_of_zero_le (show 0 ≤ k by omega)
    have hvalue := h.value
    rw [nearestDecimal, Int.toNat_natCast, show (-(j : ℤ)).toNat = 0 by omega, Nat.pow_zero]
      at hvalue
    exact hint (hvalue ▸ integral_nearest _)
  · rw [power_iff bits hne 16 (by simp)]
    by_contra hlarge
    have hsixteen : 1075 * 2 ^ 52 ≤ nearestDecimal 1 16 := by decide +kernel
    exact hint (integral_of_large bits (by omega))

/-- The unsigned text of a measure that is not zero. -/
def numberMagnitude (bits : ℕ) : List Char :=
  if Integral bits ∧ bits < nearestDecimal 1 21 then Nat.toDigits 10 (units bits / 2 ^ scale)
  else if bits < nearestDecimal 1 (-4) ∨ nearestDecimal 1 21 ≤ bits then fmtExp 2 (decimalOf bits)
  else fmtF (decimalOf bits)

theorem decimal_signed (bits : BitVec 64) (n : ℕ) :
    decimal (if bits.msb then -((n + 1 : ℕ) : ℤ) else ((n + 1 : ℕ) : ℤ)) =
      signed bits (Nat.toDigits 10 (n + 1)) := by
  unfold signed
  split <;> rfl

variable {bits : BitVec 64}

theorem number_eq (hne : magnitude bits ≠ 0) (h : magnitude bits < infinity) :
    number bits = signed bits (numberMagnitude (magnitude bits)) := by
  by_cases hint : Integral (magnitude bits) ∧ magnitude bits < nearestDecimal 1 21
  · have hpos : 0 < units (magnitude bits) / 2 ^ scale :=
      Nat.div_pos (Nat.le_of_dvd (units_pos hne) hint.1) (Nat.two_pow_pos _)
    obtain ⟨n, hn⟩ := Nat.exists_eq_add_one_of_ne_zero hpos.ne'
    have hvalue : intValue bits =
        if bits.msb then -((n + 1 : ℕ) : ℤ) else ((n + 1 : ℕ) : ℤ) := by
      simp only [intValue, hn]
    rw [number, if_pos hint, hvalue, decimal_signed, numberMagnitude, if_pos hint, hn]
  · rw [number, if_neg hint, numberMagnitude, if_neg hint, pyFloat, if_neg h.not_gt, if_neg h.ne]
    refine congrArg (signed bits) ?_
    have hfour := power_iff _ hne (-4) (by simp)
    have hlarge := power_iff _ hne 21 (by simp)
    simp only [reprMagnitude]
    by_cases hbig : nearestDecimal 1 21 ≤ magnitude bits
    · rw [if_pos (Or.inr hbig), if_pos (Or.inr (by omega))]
      rfl
    · obtain ⟨_, hpoint, hsixteen⟩ :=
        point_lt_of_not_integral _ fun hwhole => hint ⟨hwhole, by omega⟩
      have hlong : ¬ ((decimalOf (magnitude bits)).digits.length : ℤ) ≤
          (decimalOf (magnitude bits)).point := by omega
      rw [if_neg hlong, List.append_nil]
      by_cases hsmall : magnitude bits < nearestDecimal 1 (-4)
      · rw [if_pos (Or.inl hsmall), if_pos (Or.inl (hfour.mpr hsmall))]
        rfl
      · rw [if_neg (by omega), if_neg (by omega)]

theorem goFloat_eq (h : magnitude bits < infinity) :
    goFloat bits = some (signed bits (goMagnitude (magnitude bits))) := if_neg h.not_ge

theorem powers_order : nearestDecimal 1 (-9) < nearestDecimal 1 (-6) ∧
    nearestDecimal 1 (-6) < nearestDecimal 1 (-4) ∧ nearestDecimal 1 (-4) < 1023 * 2 ^ 52 ∧
    1023 * 2 ^ 52 < nearestDecimal 1 21 := by
  decide +kernel

theorem fmtExp_eq_iff (d : Decimal) : fmtExp 1 d = fmtExp 2 d ↔ 10 ≤ (d.point - 1).natAbs := by
  constructor
  · intro h
    by_contra hsmall
    have hlength := congrArg List.length h
    simp only [fmtExp, List.length_append, List.length_cons, padded_one,
      padded_small (Nat.lt_of_not_le hsmall)] at hlength
    omega
  · intro hlarge
    simp only [fmtExp, padded_one, padded_large hlarge]

theorem fmtF_ne_fmtExp {width : ℕ} {d : Decimal} (h : Significant d.digits) :
    fmtF d ≠ fmtExp width d := by
  intro heq
  have hmem : 'e' ∈ fmtF d := by
    rw [heq, fmtExp]
    simp
  obtain ⟨whole, behind, j, hparts, -⟩ := fmtF_parts h.digit h.nonempty
  exact absurd (hparts.mem hmem) (by decide)

/-- The unsigned texts agree. -/
theorem numberMagnitude_eq_iff (bits : ℕ) (hne : bits ≠ 0) :
    numberMagnitude bits = goMagnitude bits ↔
      ¬ (nearestDecimal 1 (-9) ≤ bits ∧ bits < nearestDecimal 1 (-4)) ∧
        (Integral bits → bits < nearestDecimal 1 21 → Exact bits) := by
  obtain ⟨hnine, hsix, hone, hbig⟩ := powers_order
  have hdigits := significant_decimalOf hne
  have hnine' := power_iff bits hne (-9) (by simp)
  have hsix' := power_iff bits hne (-6) (by simp)
  have hbig' := power_iff bits hne 21 (by simp)
  rw [goMagnitude, cleanExponent_fmtE]
  by_cases hlarge : nearestDecimal 1 21 ≤ bits
  · rw [numberMagnitude, if_neg (by omega), if_pos (Or.inr hlarge), if_pos ⟨hne, Or.inr hlarge⟩]
    refine ⟨fun _ => ⟨by omega, fun _ _ => by omega⟩, fun _ => ?_⟩
    exact ((fmtExp_eq_iff _).mpr (by omega)).symm
  · by_cases hint : Integral bits
    · have hle := one_le_of_integral hne hint
      rw [numberMagnitude, if_pos ⟨hint, by omega⟩, if_neg (by omega), eq_comm,
        fmtF_integer_iff hne hint]
      exact ⟨fun h => ⟨by omega, fun _ _ => h⟩, fun h => h.2 hint (by omega)⟩
    · rw [numberMagnitude, if_neg fun h => hint h.1]
      by_cases hfour : bits < nearestDecimal 1 (-4)
      · rw [if_pos (Or.inl hfour)]
        by_cases htiny : bits < nearestDecimal 1 (-6)
        · rw [if_pos ⟨hne, Or.inl htiny⟩, eq_comm, fmtExp_eq_iff]
          constructor
          · intro hexponent
            exact ⟨by omega, fun h => absurd h hint⟩
          · rintro ⟨hrange, _⟩
            omega
        · rw [if_neg (by omega)]
          constructor
          · intro h
            exact absurd h.symm (fmtF_ne_fmtExp hdigits)
          · rintro ⟨hrange, _⟩
            omega
      · rw [if_neg (by omega), if_neg (by omega)]
        exact ⟨fun _ => ⟨by omega, fun h => absurd h hint⟩, fun _ => rfl⟩

theorem signed_injective (bits : BitVec 64) (a b : List Char) :
    signed bits a = signed bits b ↔ a = b := by
  unfold signed
  split <;> simp

theorem magnitude_eq_zero_iff : magnitude bits = 0 ↔ bits = 0 ∨ bits = negativeZero := by
  have hbound := bits.isLt
  constructor
  · intro h
    unfold magnitude at h
    rcases (show bits.toNat = 0 ∨ bits.toNat = 2 ^ 63 by omega) with hzero | hsign
    · exact Or.inl (BitVec.eq_of_toNat_eq hzero)
    · exact Or.inr (BitVec.eq_of_toNat_eq hsign)
  · rintro (rfl | rfl) <;> rfl

theorem zero_texts : goFloat 0 = some ['0'] ∧ goFloat negativeZero = some ['-', '0'] ∧
    number 0 = ['0'] ∧ number negativeZero = ['0'] := by
  decide +kernel

theorem agrees_zero : Agrees 0 := by
  refine ⟨by decide, fun h => ?_, fun _ _ => ?_⟩
  · exact absurd h.1 (by decide +kernel)
  · simp [Exact, magnitude, decimalOf, units]

/-- Both languages write the same text for a measure exactly when it is not the negative zero,
not between 1e-9 and 1e-4, and, if it is an integer below 1e21, its shortest decimal is exact. -/
theorem number_eq_goFloat_iff (h : magnitude bits < infinity) :
    goFloat bits = some (number bits) ↔ Agrees bits := by
  by_cases hzero : magnitude bits = 0
  · rcases magnitude_eq_zero_iff.mp hzero with rfl | rfl
    · rw [zero_texts.1, zero_texts.2.2.1]
      exact iff_of_true rfl agrees_zero
    · rw [zero_texts.2.1, zero_texts.2.2.2]
      exact iff_of_false (by decide) fun hagrees => hagrees.zero rfl
  · rw [goFloat_eq h, number_eq hzero h, Option.some.injEq, signed_injective, eq_comm,
      numberMagnitude_eq_iff _ hzero]
    constructor
    · rintro ⟨hsmall, hexact⟩
      refine ⟨fun hneg => hzero ?_, hsmall, hexact⟩
      exact magnitude_eq_zero_iff.mpr (Or.inr hneg)
    · intro hagrees
      exact ⟨hagrees.small, hagrees.exact⟩

theorem denotes_integer {bits : ℕ} (hne : bits ≠ 0) (hint : Integral bits) (h : bits < infinity) :
    Denotes (Nat.toDigits 10 (units bits / 2 ^ scale)) bits := by
  obtain ⟨whole, hunits⟩ := hint
  have hpos : 0 < whole := by
    have hunitsPos := units_pos hne
    rw [hunits] at hunitsPos
    exact Nat.pos_of_mul_pos_left hunitsPos
  rw [hunits, Nat.mul_div_cancel_left _ (Nat.two_pow_pos _)]
  refine ⟨?_, parseMagnitude_units (by rw [hunits, Nat.mul_comm]) h⟩
  have hdigits := significant_toDigits hpos
  exact magnitudeLiteral_parts (parts_digits hdigits.digit hdigits.nonempty) (.inr hdigits.head) rfl
    nofun

theorem denotes_numberMagnitude (bits : ℕ) (hne : bits ≠ 0) (h : bits < infinity) :
    Denotes (numberMagnitude bits) bits := by
  unfold numberMagnitude
  split
  · next hint => exact denotes_integer hne hint.1 h
  · split
    · exact denotes_fmtExp hne h
    · exact denotes_fmtF h

/-- Zero without its sign. -/
def unsignZero (bits : BitVec 64) : BitVec 64 := if bits = negativeZero then 0 else bits

theorem goFloat_reads (h : magnitude bits < infinity) :
    ∃ text, goFloat bits = some text ∧ NumberLiteral text ∧ parseFloat text = some bits := by
  have hdenotes := denotes_goMagnitude h
  exact ⟨_, goFloat_eq h, numberLiteral_signed hdenotes.literal, hdenotes.parseFloat⟩

theorem number_reads (h : magnitude bits < infinity) :
    NumberLiteral (number bits) ∧ parseFloat (number bits) = some (unsignZero bits) := by
  by_cases hzero : magnitude bits = 0
  · have hnumber : number bits = ['0'] ∧ unsignZero bits = 0 := by
      rcases magnitude_eq_zero_iff.mp hzero with rfl | rfl
      · exact ⟨zero_texts.2.2.1, rfl⟩
      · exact ⟨zero_texts.2.2.2, rfl⟩
    rw [hnumber.1, hnumber.2]
    refine ⟨⟨rfl, List.all_eq_true.mp rfl⟩, ?_⟩
    decide +kernel
  · have hdenotes := denotes_numberMagnitude _ hzero h
    have hsign : unsignZero bits = bits := if_neg fun hneg =>
      hzero (magnitude_eq_zero_iff.mpr (Or.inr hneg))
    rw [number_eq hzero h, hsign]
    exact ⟨numberLiteral_signed hdenotes.literal, hdenotes.parseFloat⟩

end KnowledgeEngine.FactNumbers
