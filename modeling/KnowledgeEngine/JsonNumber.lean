import KnowledgeEngine.JsonFloat

/-!
JSON numbers as exact decimals of any size. Read as a float64 and written again, a number keeps
its value exactly when it is the shortest decimal of some float64. strconv stops reading an
exponent after five digits, so a longer one counts only where all digits are zero.
-/

namespace KnowledgeEngine.JsonNumber

open FloatOrder FloatRoundTrip FloatText JsonFloat JsonText List MachineNumbers TimeText

/-- The digits of a number as an integer. -/
def mantissa (text : List Char) : ℕ :=
  Nat.ofDigitChars 10 ((splitPoint text).1 ++ (splitPoint text).2.1) 0

/-- The number of digits behind the point. -/
def places (text : List Char) : ℕ := (splitPoint text).2.1.length

def exponentOf (read : List Char → ℕ) : List Char → ℤ
  | [] => 0
  | _ :: '-' :: ds => -read ds
  | _ :: '+' :: ds => read ds
  | _ :: ds => read ds

def exponent (text : List Char) : ℤ :=
  exponentOf (fun ds => Nat.ofDigitChars 10 ds 0) (splitPoint text).2.2

/-- The exponent as far as strconv reads it. -/
def readExponent (text : List Char) : ℤ := exponentOf cappedExponent (splitPoint text).2.2

/-- The value of a number without its sign. -/
def magnitudeValue (text : List Char) : ℚ := mantissa text * 10 ^ (exponent text - places text)

def unsigned : List Char → List Char
  | '-' :: text => text
  | text => text

def decimalValue : List Char → ℚ
  | '-' :: text => -magnitudeValue text
  | text => magnitudeValue text

/-- Decimals from here on round to infinity. -/
def overflow : ℕ := 2 ^ 1024 - 2 ^ 970

/-- The number has a nearest float64 that is finite. -/
def Fits (text : List Char) : Prop :=
  (mantissa text : ℚ) * 10 ^ (readExponent text - places text) < overflow

/-- The shortest decimal of a float64. -/
def shortestValue (bits : ℕ) : ℚ :=
  (Nat.ofDigitChars 10 (decimalOf bits).digits 0 : ℚ) *
    10 ^ ((decimalOf bits).point - (decimalOf bits).digits.length)

/-- The whole exponent is read, or it does not matter. -/
def Moderate (text : List Char) : Prop := mantissa text = 0 ∨ (exponent text).natAbs < 100000

/-- The number is the shortest decimal of a float64. -/
def Kept (literal : List Char) : Prop :=
  Moderate (unsigned literal) ∧
    ∃ bits < infinity, magnitudeValue (unsigned literal) = shortestValue bits

variable {m : ℕ} {rest : List Char} {k : ℤ} {literal : List Char}

/-- The shapes of an exponent: none, or digits with a sign or without. -/
theorem validExponent_shape (h : validExponent rest = true) :
    rest = [] ∨ ∃ e ds, (e = 'e' ∨ e = 'E') ∧ ds ≠ [] ∧ ds.all Char.isDigit = true ∧
      (rest = e :: '-' :: ds ∨ rest = e :: '+' :: ds ∨ rest = e :: ds) := by
  cases rest with
  | nil => exact .inl rfl
  | cons e rest =>
    unfold validExponent at h
    rw [Bool.and_eq_true, Bool.or_eq_true, beq_iff_eq, beq_iff_eq] at h
    obtain ⟨he, hrest⟩ := h
    split at hrest
    all_goals
      rw [Bool.and_eq_true, Bool.not_eq_true', isEmpty_eq_false_iff] at hrest
      exact .inr ⟨e, _, he, hrest.1, hrest.2, by simp⟩

theorem exponentOf_digits {read : List Char → ℕ} {e : Char} {ds : List Char}
    (h : ds.all Char.isDigit = true) : exponentOf read (e :: ds) = read ds := by
  rw [exponentOf]
  · rintro rest rfl
    exact absurd h (by simp)
  · rintro rest rfl
    exact absurd h (by simp)

theorem exponentValue_valid (h : validExponent rest = true) :
    exponentValue rest = some (exponentOf cappedExponent rest) := by
  rcases validExponent_shape h with rfl | ⟨e, ds, he, hne, hdigits, rfl | rfl | rfl⟩
  · rfl
  · simp [exponentValue, he, digitsValue, hne, hdigits, exponentOf]
  · simp [exponentValue, he, digitsValue, hne, hdigits, exponentOf]
  · rw [exponentOf_digits hdigits]
    unfold exponentValue
    dsimp only
    rw [if_pos he]
    split
    · exact absurd hdigits (by simp)
    · exact absurd hdigits (by simp)
    · rw [digitsValue, if_pos ⟨hne, hdigits⟩, Option.map_some]

theorem validFraction_parts (h : validFraction rest = true) :
    rest.takeWhile Char.isDigit = [] ∧
      validExponent (splitPoint rest).2.2 = true := by
  unfold validFraction at h
  split at h
  · next behind =>
    rw [Bool.and_eq_true] at h
    exact ⟨rfl, h.2⟩
  · next hpoint =>
    cases rest with
    | nil => exact ⟨rfl, rfl⟩
    | cons e more =>
      have he : e = 'e' ∨ e = 'E' := by
        unfold validExponent at h
        rw [Bool.and_eq_true, Bool.or_eq_true, beq_iff_eq, beq_iff_eq] at h
        exact h.1
      rcases he with rfl | rfl <;> exact ⟨rfl, h⟩

theorem splitPoint_append (whole rest : List Char) (h : ∀ c ∈ whole, c.isDigit = true)
    (hrest : rest.takeWhile Char.isDigit = []) :
    splitPoint (whole ++ rest) = (whole, (splitPoint rest).2) := by
  have hdrop : rest.dropWhile Char.isDigit = rest := by
    have hboth := takeWhile_append_dropWhile (p := Char.isDigit) (l := rest)
    rwa [hrest] at hboth
  unfold splitPoint
  rw [takeWhile_append_of_pos h, dropWhile_append_of_pos h, hrest, append_nil, hdrop]
  split <;> rfl

variable {text : List Char}

/-- A number starts with a digit and ends in a valid exponent. -/
theorem validMagnitude_parts (h : validMagnitude text = true) :
    (splitPoint text).1 ≠ [] ∧ validExponent (splitPoint text).2.2 = true := by
  unfold validMagnitude at h
  split at h
  · next rest =>
    obtain ⟨hnone, hexponent⟩ := validFraction_parts h
    rw [show '0' :: rest = ['0'] ++ rest from rfl,
      splitPoint_append ['0'] rest (replicate_zero_isDigit 1) hnone]
    exact ⟨cons_ne_nil _ _, hexponent⟩
  · next c rest _ =>
    rw [Bool.and_eq_true] at h
    obtain ⟨hnone, hexponent⟩ := validFraction_parts h.2
    have hsplit := splitPoint_append (c :: rest.takeWhile Char.isDigit) _ (by
      intro d hd
      rcases mem_cons.mp hd with rfl | hd
      · exact h.1
      · exact mem_takeWhile_imp hd) hnone
    rw [cons_append, takeWhile_append_dropWhile] at hsplit
    rw [hsplit]
    exact ⟨cons_ne_nil _ _, hexponent⟩
  · cases h

theorem parseMagnitude_valid (h : validMagnitude text = true) :
    parseMagnitude text = inRange (nearestDecimal (mantissa text)
      (readExponent text - places text)) := by
  obtain ⟨hwhole, hexponent⟩ := validMagnitude_parts h
  unfold parseMagnitude
  simp only [hwhole, false_and, if_false, exponentValue_valid hexponent, Option.bind_some]
  rfl

/-- A cut exponent is smaller by a factor of ten. -/
theorem cappedExponent_cut {ds : List Char} (hdigits : ds.all Char.isDigit = true)
    (h : 100000 ≤ Nat.ofDigitChars 10 ds 0) :
    10000 ≤ cappedExponent ds ∧ cappedExponent ds + 90000 ≤ Nat.ofDigitChars 10 ds 0 := by
  induction ds using List.reverseRecOn with
  | nil => simp at h
  | append_singleton ds c ih =>
    rw [all_append, Bool.and_eq_true] at hdigits
    have hdigit : c.toNat - '0'.toNat ≤ 9 := by
      have hc : c.isDigit = true := by simpa using hdigits.2
      rw [Char.isDigit, Bool.and_eq_true, decide_eq_true_iff, decide_eq_true_iff] at hc
      have hle : c.toNat ≤ 57 := hc.2
      exact Nat.sub_le_of_le_add hle
    have hcapped : cappedExponent (ds ++ [c]) = if cappedExponent ds < 10000 then
        cappedExponent ds * 10 + (c.toNat - '0'.toNat) else cappedExponent ds := by
      rw [cappedExponent, foldl_append, ← cappedExponent]
      rfl
    rw [Nat.ofDigitChars_append, Nat.ofDigitChars_cons, Nat.ofDigitChars_nil] at h ⊢
    by_cases hlong : 100000 ≤ Nat.ofDigitChars 10 ds 0
    · obtain ⟨hlow, hgap⟩ := ih hdigits.1 hlong
      rw [hcapped, if_neg (by omega)]
      omega
    · rw [hcapped, cappedExponent_eq ds (by omega), if_neg (by omega)]
      omega

/-- A moderate exponent is read in full; another one is off by many orders of magnitude. -/
theorem readExponent_cases (h : validMagnitude text = true) :
    ((exponent text).natAbs < 100000 ∧ readExponent text = exponent text) ∨
      (100000 ≤ exponent text ∧ readExponent text + 90000 ≤ exponent text) ∨
      (exponent text ≤ -100000 ∧ exponent text + 90000 ≤ readExponent text) := by
  obtain ⟨-, hexponent⟩ := validMagnitude_parts h
  rw [exponent, readExponent]
  rcases validExponent_shape hexponent with hrest | ⟨e, ds, -, -, hdigits, hrest⟩
  · rw [hrest]
    exact .inl ⟨by decide, rfl⟩
  · have hcut := cappedExponent_cut hdigits
    have hfull := cappedExponent_eq ds
    rcases hrest with hrest | hrest | hrest
    · rw [hrest, exponentOf, exponentOf]
      omega
    · rw [hrest, exponentOf, exponentOf]
      omega
    · rw [hrest, exponentOf_digits hdigits, exponentOf_digits hdigits]
      omega

theorem nearestDecimal_congr {m' : ℕ} {k' : ℤ} (h : (m : ℚ) * 10 ^ k = m' * 10 ^ k') :
    nearestDecimal m k = nearestDecimal m' k' :=
  Nat.le_antisymm (nearestDecimal_mono _ _ _ _ h.le) (nearestDecimal_mono _ _ _ _ h.ge)

theorem nearestDecimal_tiny {j : ℤ} (hj : j ≤ -400) (h : (m : ℚ) * 10 ^ k ≤ 10 ^ j) :
    nearestDecimal m k = 0 := by
  have hle : (10 : ℚ) ^ j ≤ 10 ^ (-400 : ℤ) := zpow_le_zpow_right₀ (by norm_num) hj
  have hmono := nearestDecimal_mono m 1 k (-400) (by
    rw [Nat.cast_one, one_mul]
    exact h.trans hle)
  have hzero : nearestDecimal 1 (-400) = 0 := by decide +kernel
  omega

theorem nearestDecimal_huge {j : ℤ} (hj : 400 ≤ j) (h : (10 : ℚ) ^ j ≤ m * 10 ^ k) :
    infinity ≤ nearestDecimal m k := by
  have hle : (10 : ℚ) ^ (400 : ℤ) ≤ 10 ^ j := zpow_le_zpow_right₀ (by norm_num) hj
  have hmono := nearestDecimal_mono 1 m 400 k (by
    rw [Nat.cast_one, one_mul]
    exact hle.trans h)
  have hlarge : infinity ≤ nearestDecimal 1 400 := by decide +kernel
  omega

theorem shortestValue_nearest {bits : ℕ} (hbits : bits < infinity)
    (h : (m : ℚ) * 10 ^ k = shortestValue bits) : nearestDecimal m k = bits := by
  rw [nearestDecimal_congr h]
  exact (decimalOf_writes hbits).value

theorem shortestValue_zero : shortestValue 0 = 0 := by
  simp [shortestValue, decimalOf]

theorem shortestValue_bounds {bits : ℕ} (hne : bits ≠ 0) (hbits : bits < infinity) :
    ∃ low high : ℤ, -5001 ≤ low ∧ high ≤ 5000 ∧ (10 : ℚ) ^ low ≤ shortestValue bits ∧
      shortestValue bits ≤ 10 ^ high := by
  obtain ⟨n, k, h⟩ := exists_shortest bits hne
  have hwrites := decimalOf_writes hbits
  have hlow := hwrites.low
  have hhigh := hwrites.high
  obtain ⟨hmin, hmax⟩ := length_bounds h.pos
  have hlength : 0 < (Nat.toDigits 10 n).length := length_pos_iff.mpr Nat.toDigits_ne_nil
  have hvalue : shortestValue bits = n * 10 ^ k := by
    rw [shortestValue, h.digits, h.point, Nat.ofDigitChars_ten_toDigits, add_sub_cancel_left]
  rw [h.point] at hlow hhigh
  have hpow : (0 : ℚ) < 10 ^ k := zpow_pos (by norm_num) k
  refine ⟨((Nat.toDigits 10 n).length - 1 : ℕ) + k, (Nat.toDigits 10 n).length + k, by omega,
    hhigh, ?_, ?_⟩
  · rw [hvalue, zpow_add₀ (by norm_num), zpow_natCast]
    exact mul_le_mul_of_nonneg_right (by exact_mod_cast hmin) hpow.le
  · rw [hvalue, zpow_add₀ (by norm_num), zpow_natCast]
    exact mul_le_mul_of_nonneg_right (by exact_mod_cast hmax.le) hpow.le

/-- What is written back has the value it was read with only if the exponent was read. -/
theorem moderate_of_shortest {bits : ℕ} (hvalid : validMagnitude text = true)
    (hread : parseMagnitude text = some bits) (h : magnitudeValue text = shortestValue bits) :
    Moderate text := by
  have hbits := parseMagnitude_lt hread
  rw [parseMagnitude_valid hvalid] at hread
  obtain ⟨hfinite, hnearest⟩ := Option.ite_none_right_eq_some.mp hread
  obtain hnearest := Option.some.inj hnearest
  by_contra himmoderate
  rw [Moderate, not_or] at himmoderate
  obtain ⟨hmantissa, hexponent⟩ := himmoderate
  have hpos : 0 < magnitudeValue text :=
    mul_pos (by exact_mod_cast Nat.pos_of_ne_zero hmantissa) (zpow_pos (by norm_num) _)
  have hne : bits ≠ 0 := by
    rintro rfl
    rw [h, shortestValue_zero] at hpos
    exact hpos.false
  obtain ⟨low, high, hlow, hhigh, hmin, hmax⟩ := shortestValue_bounds hne hbits
  rw [← h, magnitudeValue] at hmin hmax
  have hpow : (0 : ℚ) < 10 ^ (readExponent text - exponent text) := zpow_pos (by norm_num) _
  have hshift : (mantissa text : ℚ) * 10 ^ (readExponent text - places text) =
      mantissa text * 10 ^ (exponent text - places text) *
        10 ^ (readExponent text - exponent text) := by
    rw [mul_assoc, ← zpow_add₀ (by norm_num)]
    congr 2
    omega
  rcases readExponent_cases hvalid with ⟨hsmall, -⟩ | ⟨-, hgap⟩ | ⟨-, hgap⟩
  · exact hexponent hsmall
  · have htiny := mul_le_mul_of_nonneg_right hmax hpow.le
    rw [← hshift, ← zpow_add₀ (by norm_num)] at htiny
    exact hne (hnearest.symm.trans (nearestDecimal_tiny (by omega) htiny))
  · have hhuge := mul_le_mul_of_nonneg_right hmin hpow.le
    rw [← hshift, ← zpow_add₀ (by norm_num)] at hhuge
    exact absurd (nearestDecimal_huge (by omega) hhuge) (Nat.not_le.mpr hfinite)

theorem readValue_of_moderate (hvalid : validMagnitude text = true) (h : Moderate text) :
    (mantissa text : ℚ) * 10 ^ (readExponent text - places text) = magnitudeValue text := by
  rw [magnitudeValue]
  rcases h with hzero | hexponent
  · rw [hzero, Nat.cast_zero, zero_mul, zero_mul]
  · rcases readExponent_cases hvalid with ⟨-, hread⟩ | ⟨hlarge, -⟩ | ⟨hlarge, -⟩
    · rw [hread]
    · omega
    · omega

/-- The value read and written is the value of the text exactly for the shortest decimals. -/
theorem shortestValue_read_iff {bits : ℕ} (hvalid : validMagnitude text = true)
    (hread : parseMagnitude text = some bits) :
    shortestValue bits = magnitudeValue text ↔
      Moderate text ∧ ∃ bits < infinity, magnitudeValue text = shortestValue bits := by
  constructor
  · intro h
    exact ⟨moderate_of_shortest hvalid hread h.symm, bits, parseMagnitude_lt hread, h.symm⟩
  · rintro ⟨hmoderate, bits', hbits', h⟩
    rw [parseMagnitude_valid hvalid] at hread
    have hnearest := Option.some.inj (Option.ite_none_right_eq_some.mp hread).2
    have hvalue := (readValue_of_moderate hvalid hmoderate).trans h
    rw [← hnearest, shortestValue_nearest hbits' hvalue, h]

theorem magnitudeValue_parts {text whole behind : List Char} (h : Parts text whole behind rest) :
    magnitudeValue text = (Nat.ofDigitChars 10 (whole ++ behind) 0 : ℚ) *
      10 ^ (exponentOf (fun ds => Nat.ofDigitChars 10 ds 0) rest - behind.length) := by
  rw [magnitudeValue, mantissa, exponent, places, h.split]

theorem exponentOf_padded (width : ℕ) (e : ℤ) :
    exponentOf (fun ds => Nat.ofDigitChars 10 ds 0)
      ('e' :: (if e < 0 then '-' else '+') :: padded width e.natAbs) = e := by
  split
  · rw [exponentOf, ofDigitChars_padded]
    omega
  · rw [exponentOf, ofDigitChars_padded]
    omega

theorem magnitudeValue_fmtExp (width : ℕ) {d : Decimal} (h : Significant d.digits) :
    magnitudeValue (fmtExp width d) =
      (Nat.ofDigitChars 10 d.digits 0 : ℚ) * 10 ^ (d.point - d.digits.length) := by
  obtain ⟨first, more, hdigits, hparts⟩ := fmtExp_parts width h.digit h.nonempty
  rw [magnitudeValue_parts hparts, exponentOf_padded, hdigits, length_cons]
  congr 2
  push_cast
  omega

theorem magnitudeValue_fmtF {d : Decimal} (h : Significant d.digits) :
    magnitudeValue (fmtF d) =
      (Nat.ofDigitChars 10 d.digits 0 : ℚ) * 10 ^ (d.point - d.digits.length) := by
  obtain ⟨whole, behind, j, hparts, hvalue, hplaces, -⟩ := fmtF_parts h.digit h.nonempty
  rw [magnitudeValue_parts hparts, exponentOf, hplaces, hvalue, Nat.cast_mul, Nat.cast_pow,
    Nat.cast_ofNat, mul_assoc, ← zpow_natCast, ← zpow_add₀ (by norm_num), add_sub_cancel]

/-- encoding/json writes the shortest decimal. -/
theorem magnitudeValue_goMagnitude (bits : ℕ) :
    magnitudeValue (goMagnitude bits) = shortestValue bits := by
  by_cases hzero : bits = 0
  · subst hzero
    rw [shortestValue_zero]
    decide +kernel
  · have hdigits := significant_decimalOf hzero
    unfold goMagnitude
    split
    · rw [cleanExponent_fmtE]
      exact magnitudeValue_fmtExp 1 hdigits
    · exact magnitudeValue_fmtF hdigits

theorem divHalfEven_le {n d t : ℕ} (h : 2 * n < (2 * t + 1) * d) : divHalfEven n d ≤ t := by
  have hdiv := Nat.div_add_mod n d
  have hle : n / d ≤ t := by
    by_contra hlarge
    have hmul : d * (t + 1) ≤ d * (n / d) := Nat.mul_le_mul_left d (by omega)
    rw [Nat.mul_add, Nat.mul_one, Nat.mul_comm d t] at hmul
    rw [Nat.add_mul, Nat.one_mul, Nat.mul_assoc] at h
    omega
  rcases Nat.lt_or_eq_of_le hle with hlt | heq
  · rcases divHalfEven_cases n d with hround | hround <;> omega
  · have hrest : 2 * (n % d) < d := by
      rw [heq, Nat.mul_comm d t] at hdiv
      rw [Nat.add_mul, Nat.one_mul, Nat.mul_assoc] at h
      omega
    rw [divHalfEven, if_pos (.inl hrest)]
    exact hle

theorem pow_gap {s a b e c : ℕ} (hhigh : s + a = e + c) (hlow : s + b = c) :
    2 ^ s * (2 ^ a - 2 ^ b) = (2 ^ e - 1) * 2 ^ c := by
  rw [Nat.mul_sub, ← Nat.pow_add, ← Nat.pow_add, Nat.sub_mul, ← Nat.pow_add, Nat.one_mul, hhigh,
    hlow]

theorem lt_pow_of_lt_gap {q e c d : ℕ} (h : q < (2 ^ e - 1) * (2 ^ c * d)) :
    q < 2 ^ (e + c) * d := by
  rw [Nat.pow_add, Nat.mul_assoc]
  exact h.trans_le (Nat.mul_le_mul_right _ (Nat.sub_le _ _))

theorem overflow_scaled : 2 ^ scale * overflow = (2 ^ 54 - 1) * 2 ^ 2044 := by
  rewrite [overflow]
  exact pow_gap rfl rfl

/-- The quotients that round to a finite number. -/
theorem nearest_lt_infinity_iff (n : ℕ) {d : ℕ} (hd : 0 < d) :
    nearest n d < infinity ↔ n < overflow * d := by
  constructor
  · intro h
    by_contra hlarge
    have hmono := nearest_mono overflow 1 n d (by decide) hd (by omega)
    have hoverflow : nearest overflow 1 = infinity := by decide +kernel
    omega
  · intro h
    have hscaled : 2 ^ scale * n < (2 ^ 54 - 1) * (2 ^ 2044 * d) := by
      rw [← Nat.mul_assoc, ← overflow_scaled, Nat.mul_assoc]
      exact (Nat.mul_lt_mul_left (Nat.two_pow_pos scale)).mpr h
    have hshift : shiftOf n d ≤ 2045 := by
      have hquotient : 2 ^ scale * n / d < 2 ^ (54 + 2044) := by
        rw [Nat.div_lt_iff_lt_mul hd]
        exact lt_pow_of_lt_gap hscaled
      by_cases hzero : 2 ^ scale * n / d = 0
      · rw [shiftOf, hzero]
        decide
      · have hlog := (Nat.log2_lt hzero).mpr hquotient
        rw [shiftOf]
        omega
    have hsmall := (significand_bounds n d).1
    have hcases := divHalfEven_cases (2 ^ scale * n) (2 ^ shiftOf n d * d)
    have hnearest : nearest n d =
        2 ^ 52 * shiftOf n d + divHalfEven (2 ^ scale * n) (2 ^ shiftOf n d * d) := rfl
    rw [hnearest, infinity]
    by_cases htop : shiftOf n d = 2045
    · have hround : divHalfEven (2 ^ scale * n) (2 ^ shiftOf n d * d) ≤ 2 ^ 53 - 1 := by
        refine divHalfEven_le ?_
        have hdouble : 2 ^ 2045 * d = 2 * (2 ^ 2044 * d) := by
          rw [← Nat.mul_assoc, ← Nat.pow_succ']
        rw [htop, hdouble]
        omega
      rw [htop] at hround ⊢
      omega
    · omega

theorem nearestDecimal_lt_infinity_iff (m : ℕ) (k : ℤ) :
    nearestDecimal m k < infinity ↔ (m : ℚ) * 10 ^ k < overflow := by
  rw [nearestDecimal, nearest_lt_infinity_iff _ (by positivity), Decimals.zpow_split,
    ← mul_div_assoc, div_lt_iff₀ (by positivity)]
  exact_mod_cast Iff.rfl

theorem parseMagnitude_isSome_iff (h : validMagnitude text = true) :
    (parseMagnitude text).isSome ↔ Fits text := by
  rw [parseMagnitude_valid h, Fits, ← nearestDecimal_lt_infinity_iff, inRange]
  split
  · next hfinite => simpa using hfinite
  · next hlarge => simpa using hlarge

theorem validNumber_unsigned (h : validNumber literal = true) :
    validMagnitude (unsigned literal) = true := by
  unfold unsigned
  split
  · exact h
  · next hsign =>
    unfold validNumber at h
    split at h
    · next rest => exact absurd rfl (hsign rest)
    · exact h

/-- Without a sign a number does not start with one. -/
theorem unsigned_cases (h : validNumber literal = true) :
    literal = '-' :: unsigned literal ∨
      (literal = unsigned literal ∧ literal.head? ≠ some '-' ∧ literal.head? ≠ some '+') := by
  unfold unsigned
  split
  · exact .inl rfl
  · next hsign =>
    refine .inr ⟨rfl, ?_, ?_⟩
    · cases literal with
      | nil => simp
      | cons c rest =>
        rintro hc
        exact hsign rest (by rw [Option.some.inj hc])
    · cases literal with
      | nil => simp
      | cons c rest =>
        rintro hc
        rw [Option.some.inj hc] at h
        cases h

theorem parseFloat_unsigned_eq (h : validNumber literal = true) :
    parseFloat literal = (parseMagnitude (unsigned literal)).map fun bits =>
      if literal.head? = some '-' then BitVec.ofNat 64 (bits + 2 ^ 63)
      else BitVec.ofNat 64 bits := by
  rcases unsigned_cases h with hminus | ⟨hplain, hnominus, hnoplus⟩
  · rw [hminus]
    rfl
  · rw [← hplain]
    simp only [hnominus, if_false]
    unfold parseFloat
    split
    · exact absurd rfl hnominus
    · exact absurd rfl hnoplus
    · rfl

/-- The numbers encoding/json accepts in an untyped value. -/
theorem parseFloat_isSome_iff (h : validNumber literal = true) :
    (parseFloat literal).isSome ↔ Fits (unsigned literal) := by
  rw [parseFloat_unsigned_eq h, Option.isSome_map]
  exact parseMagnitude_isSome_iff (validNumber_unsigned h)

theorem decimalValue_plain (h : text.head? ≠ some '-') :
    decimalValue text = magnitudeValue text := by
  unfold decimalValue
  split
  · exact absurd rfl h
  · rfl

theorem validMagnitude_head (h : validMagnitude text = true) : text.head? ≠ some '-' := by
  rintro hhead
  cases text with
  | nil => cases hhead
  | cons c rest =>
    rw [Option.some.inj hhead] at h
    cases h

/-- The number that is written for one that was read has the same value exactly for the
shortest decimals. -/
theorem decimalValue_goFloat_iff {bits : BitVec 64}
    (h : validNumber literal = true) (hread : parseFloat literal = some bits)
    (hwrite : goFloat bits = some text) :
    decimalValue text = decimalValue literal ↔ Kept literal := by
  rw [parseFloat_unsigned_eq h] at hread
  obtain ⟨n, hn, rfl⟩ := Option.map_eq_some_iff.mp hread
  have hvalid := validNumber_unsigned h
  have hlt := parseMagnitude_lt hn
  have hinfinity : infinity < 2 ^ 63 := by decide
  have htext := Option.some.inj (Option.ite_none_left_eq_some.mp hwrite).2
  rw [Kept, ← shortestValue_read_iff hvalid hn, ← magnitudeValue_goMagnitude]
  rcases unsigned_cases h with hminus | ⟨hplain, hnominus, -⟩
  · have hhead : literal.head? = some '-' := by rw [hminus]; rfl
    rw [if_pos hhead] at htext
    have hmagnitude : magnitude (BitVec.ofNat 64 (n + 2 ^ 63)) = n := by
      rw [magnitude, BitVec.toNat_ofNat]
      omega
    have hmsb : (BitVec.ofNat 64 (n + 2 ^ 63)).msb = true := by
      rw [BitVec.msb_eq_decide, decide_eq_true_iff, BitVec.toNat_ofNat]
      omega
    rw [hmagnitude, signed, if_pos hmsb] at htext
    rw [← htext, hminus]
    exact neg_inj
  · rw [if_neg hnominus] at htext
    have hmagnitude : magnitude (BitVec.ofNat 64 n) = n := by
      rw [magnitude, BitVec.toNat_ofNat]
      omega
    have hmsb : ¬ (BitVec.ofNat 64 n).msb = true := by
      rw [BitVec.msb_eq_decide, decide_eq_true_iff, BitVec.toNat_ofNat]
      omega
    rw [hmagnitude, signed, if_neg hmsb] at htext
    have hwritten := denotes_goMagnitude hlt
    rw [← htext, decimalValue_plain (validMagnitude_head hwritten.literal.valid),
      decimalValue_plain hnominus, ← hplain]

end KnowledgeEngine.JsonNumber
