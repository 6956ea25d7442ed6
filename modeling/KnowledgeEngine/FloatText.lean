import KnowledgeEngine.TimeText
import Mathlib.Tactic.Ring

/-!
Binary floating-point numbers of 64 bits as decimal text, the way strconv reads and
writes them. The magnitude of a number is the number its bits below the sign make; a
text is read to the nearest magnitude, ties to even, and a magnitude is written with
the fewest digits that read back to it. Reading what was written gives the same bits.
-/

namespace KnowledgeEngine.FloatText

open MachineNumbers TimeText

/-- The quotient rounded to the nearest integer, ties to even. -/
def divHalfEven (n d : ℕ) : ℕ :=
  if 2 * (n % d) < d ∨ (2 * (n % d) = d ∧ n / d % 2 = 0) then n / d else n / d + 1

/-- The smallest positive magnitude is 2 to the power of minus this. -/
def scale : ℕ := 1074

/-- The bits of the magnitude nearest to n / d: the exponent above the fraction, the
leading bit of a normal fraction carrying into the exponent. -/
def nearest (n d : ℕ) : ℕ :=
  let shift := Nat.log2 (2 ^ scale * n / d) - 52
  2 ^ 52 * shift + divHalfEven (2 ^ scale * n) (2 ^ shift * d)

/-- Magnitudes from here on are infinity and the values that are not numbers. -/
def infinity : ℕ := 2047 * 2 ^ 52

/-- A finite magnitude in multiples of the smallest one. -/
def units (bits : ℕ) : ℕ :=
  if bits < 2 ^ 52 then bits else 2 ^ (bits / 2 ^ 52 - 1) * (bits % 2 ^ 52 + 2 ^ 52)

/-- The magnitude nearest to m * 10 ^ k. -/
def nearestDecimal (m : ℕ) (k : ℤ) : ℕ :=
  nearest (m * 10 ^ k.toNat) (10 ^ (-k).toNat)

/-- The magnitude is this many times 10 to the power of minus `scale`. -/
def expansion (bits : ℕ) : ℕ := 5 ^ scale * units bits

/-- The expansion cut after all but `drop` digits, or the next number above, when it
reads back; the closer one when both do. -/
def pick (bits drop : ℕ) : Option (ℕ × ℤ) :=
  let down := expansion bits / 10 ^ drop
  let k : ℤ := (drop : ℤ) - scale
  if nearestDecimal down k = bits then
    if nearestDecimal (down + 1) k = bits then
      some (divHalfEven (expansion bits) (10 ^ drop), k)
    else some (down, k)
  else if nearestDecimal (down + 1) k = bits then some (down + 1, k)
  else none

/-- The shortest decimal that reads back to the magnitude. -/
def shortest (bits : ℕ) : ℕ × ℤ :=
  let length := (Nat.toDigits 10 (expansion bits)).length
  ((List.range length).findSome? fun i => pick bits (length - 1 - i)).getD
    (expansion bits, -(scale : ℤ))

/-- Digits behind a decimal point, and how far right the point moves. -/
structure Decimal where
  digits : List Char
  point : ℤ

def decimalOf (bits : ℕ) : Decimal :=
  if bits = 0 then ⟨[], 0⟩
  else
    let c := Nat.toDigits 10 (shortest bits).1
    ⟨c.rdropWhile (· == '0'), c.length + (shortest bits).2⟩

/-- %e with as many digits as there are and an exponent of at least `width` digits. -/
def fmtExp (width : ℕ) (d : Decimal) : List Char :=
  let exponent := d.point - 1
  d.digits.take 1 ++ (if d.digits.length ≤ 1 then [] else '.' :: d.digits.drop 1) ++
    'e' :: (if exponent < 0 then '-' else '+') :: padded width exponent.natAbs

def fmtE (d : Decimal) : List Char := fmtExp 2 d

/-- %f with as many digits as there are. -/
def fmtF (d : Decimal) : List Char :=
  let before := d.point.toNat
  let whole := if before = 0 then ['0']
    else d.digits.take before ++ List.replicate (before - d.digits.length) '0'
  let behind := List.replicate (-d.point).toNat '0' ++ d.digits.drop before
  if d.digits.length ≤ d.point then whole else whole ++ '.' :: behind

/-- %g of a magnitude with the fewest digits. -/
def formatMagnitude (bits : ℕ) : List Char :=
  let d := decimalOf bits
  if bits = infinity then "Inf".toList
  else if infinity < bits then "NaN".toList
  else if d.point - 1 < -4 ∨ 6 ≤ d.point - 1 then fmtE d else fmtF d

/-- fmt's %v of a float64. -/
def formatFloat (bits : BitVec 64) : List Char :=
  let magnitude := bits.toNat % 2 ^ 63
  if infinity < magnitude then "NaN".toList
  else if bits.msb then '-' :: formatMagnitude magnitude
  else if magnitude = infinity then '+' :: formatMagnitude magnitude
  else formatMagnitude magnitude

/-- strconv stops reading an exponent once it is out of any range. -/
def cappedExponent (ds : List Char) : ℕ :=
  ds.foldl (fun e c => if e < 10000 then e * 10 + (c.toNat - '0'.toNat) else e) 0

def exponentValue : List Char → Option ℤ
  | [] => some 0
  | e :: rest =>
    if e = 'e' ∨ e = 'E' then
      match rest with
      | '-' :: ds => (digitsValue ds).map fun _ => -(cappedExponent ds : ℤ)
      | '+' :: ds => (digitsValue ds).map fun _ => (cappedExponent ds : ℤ)
      | ds => (digitsValue ds).map fun _ => (cappedExponent ds : ℤ)
    else none

/-- The digits before and behind the decimal point, and the rest. -/
def splitPoint (text : List Char) : List Char × List Char × List Char :=
  let whole := text.takeWhile Char.isDigit
  match text.dropWhile Char.isDigit with
  | '.' :: rest => (whole, rest.takeWhile Char.isDigit, rest.dropWhile Char.isDigit)
  | rest => (whole, [], rest)

def inRange (bits : ℕ) : Option ℕ := if bits < infinity then some bits else none

def parseMagnitude (text : List Char) : Option ℕ :=
  let (whole, behind, rest) := splitPoint text
  if whole = [] ∧ behind = [] then none
  else
    (exponentValue rest).bind fun e =>
      inRange (nearestDecimal (Nat.ofDigitChars 10 (whole ++ behind) 0) (e - behind.length))

/-- strconv.ParseFloat of a decimal, failing on a value out of range. -/
def parseFloat : List Char → Option (BitVec 64)
  | '-' :: text => (parseMagnitude text).map fun bits => BitVec.ofNat 64 (bits + 2 ^ 63)
  | '+' :: text => (parseMagnitude text).map fun bits => BitVec.ofNat 64 bits
  | text => (parseMagnitude text).map fun bits => BitVec.ofNat 64 bits

variable {n : ℕ}

theorem divHalfEven_scale {d a : ℕ} (ha : 0 < a) :
    divHalfEven (n * a) (d * a) = divHalfEven n d := by
  have hlt : 2 * (n % d * a) < d * a ↔ 2 * (n % d) < d := by
    rw [← Nat.mul_assoc]
    exact Nat.mul_lt_mul_right ha
  have heq : 2 * (n % d * a) = d * a ↔ 2 * (n % d) = d := by
    rw [← Nat.mul_assoc]
    exact Nat.mul_left_inj ha.ne'
  simp only [divHalfEven, Nat.mul_mod_mul_right, Nat.mul_div_mul_right _ _ ha, hlt, heq]

theorem divHalfEven_mul (q d : ℕ) (hd : 0 < d) : divHalfEven (q * d) d = q := by
  simp only [divHalfEven, Nat.mul_mod_left, Nat.mul_zero, Nat.mul_div_cancel _ hd, hd, true_or,
    if_true]

theorem divHalfEven_cases (n d : ℕ) : divHalfEven n d = n / d ∨ divHalfEven n d = n / d + 1 := by
  unfold divHalfEven
  split
  · exact Or.inl rfl
  · exact Or.inr rfl

theorem nearest_scale (n d a : ℕ) (ha : 0 < a) : nearest (n * a) (d * a) = nearest n d := by
  simp only [nearest, ← Nat.mul_assoc, Nat.mul_div_mul_right _ _ ha, divHalfEven_scale ha]

/-- Only the quotient counts. -/
theorem nearest_congr {d n' d' : ℕ} (hd : 0 < d) (hd' : 0 < d') (h : n * d' = n' * d) :
    nearest n d = nearest n' d' := by
  rw [← nearest_scale n d d' hd', h, Nat.mul_comm d d', nearest_scale n' d' d hd]

theorem log2_normal {f e : ℕ} (hf : f < 2 ^ 52) : Nat.log2 (2 ^ e * (f + 2 ^ 52)) = 52 + e := by
  rw [Nat.mul_comm]
  have hpos : (f + 2 ^ 52) * 2 ^ e ≠ 0 := Nat.mul_ne_zero (by omega) (Nat.two_pow_pos e).ne'
  have hlow : 2 ^ (52 + e) ≤ (f + 2 ^ 52) * 2 ^ e := by
    rw [Nat.pow_add]
    exact Nat.mul_le_mul_right _ (Nat.le_add_left _ _)
  have hhigh : (f + 2 ^ 52) * 2 ^ e < 2 ^ (52 + e + 1) := by
    rw [show 52 + e + 1 = 53 + e by omega, Nat.pow_add]
    exact Nat.mul_lt_mul_of_pos_right (by omega) (Nat.two_pow_pos e)
  have hlow' := (Nat.le_log2 hpos).mpr hlow
  have hhigh' := (Nat.log2_lt hpos).mpr hhigh
  omega

theorem nearest_units (bits : ℕ) : nearest (units bits) (2 ^ scale) = bits := by
  have hscale : 0 < 2 ^ scale := Nat.two_pow_pos _
  have hshape : ∀ shift, Nat.log2 (units bits) - 52 = shift →
      nearest (units bits) (2 ^ scale) = 2 ^ 52 * shift + divHalfEven (units bits) (2 ^ shift) := by
    intro shift hshift
    simp only [nearest, Nat.mul_div_cancel_left _ hscale, hshift]
    rw [Nat.mul_comm (2 ^ scale) (units bits), divHalfEven_scale hscale]
  by_cases hsmall : bits < 2 ^ 52
  · have hunits : units bits = bits := if_pos hsmall
    have hshift : Nat.log2 (units bits) - 52 = 0 := by
      rw [hunits]
      by_cases hzero : bits = 0
      · rw [hzero]
        decide
      · have hlog := (Nat.log2_lt hzero).mpr hsmall
        omega
    rw [hshape 0 hshift, hunits]
    have hone := divHalfEven_mul bits 1 Nat.one_pos
    rw [Nat.mul_one] at hone
    simpa using hone
  · have hunits : units bits = 2 ^ (bits / 2 ^ 52 - 1) * (bits % 2 ^ 52 + 2 ^ 52) := if_neg hsmall
    have hshift : Nat.log2 (units bits) - 52 = bits / 2 ^ 52 - 1 := by
      rw [hunits, log2_normal (Nat.mod_lt _ (Nat.two_pow_pos 52))]
      omega
    rw [hshape _ hshift, hunits, Nat.mul_comm (2 ^ (bits / 2 ^ 52 - 1)),
      divHalfEven_mul _ _ (Nat.two_pow_pos _)]
    omega

variable {bits : ℕ}

theorem nearestDecimal_expansion : nearestDecimal (expansion bits) (-(scale : ℤ)) = bits := by
  have hten : (10 : ℕ) ^ scale = 2 ^ scale * 5 ^ scale := by rw [← Nat.mul_pow]
  rw [nearestDecimal, expansion, show (-(scale : ℤ)).toNat = 0 by omega,
    show (-(-(scale : ℤ))).toNat = scale by omega, Nat.pow_zero, Nat.mul_one, hten,
    Nat.mul_comm (5 ^ scale), nearest_scale _ _ _ (Nat.pow_pos (by decide)), nearest_units]

/-- Zeros at the end of the digits move the exponent. -/
theorem nearestDecimal_shift (m j : ℕ) (k : ℤ) :
    nearestDecimal (m * 10 ^ j) (k - j) = nearestDecimal m k := by
  apply nearest_congr (Nat.pow_pos (by decide)) (Nat.pow_pos (by decide))
  rw [Nat.mul_assoc, Nat.mul_assoc, Nat.mul_assoc, ← Nat.pow_add, ← Nat.pow_add, ← Nat.pow_add]
  congr 2
  omega

/-- A picked decimal reads back, and is the cut expansion or the next number above. -/
theorem pick_spec {drop : ℕ} {d : ℕ × ℤ} (h : pick bits drop = some d) :
    nearestDecimal d.1 d.2 = bits ∧ d.2 = (drop : ℤ) - scale ∧
      (d.1 = expansion bits / 10 ^ drop ∨ d.1 = expansion bits / 10 ^ drop + 1) := by
  rw [pick] at h
  split at h
  next hdown =>
    split at h
    next hup =>
      obtain rfl := Option.some.inj h
      obtain heven | heven := divHalfEven_cases (expansion bits) (10 ^ drop)
      · exact ⟨by rwa [heven], rfl, .inl heven⟩
      · exact ⟨by rwa [heven], rfl, .inr heven⟩
    next => exact Option.some.inj h ▸ ⟨hdown, rfl, .inl rfl⟩
  next =>
    split at h
    next hup => exact Option.some.inj h ▸ ⟨hup, rfl, .inr rfl⟩
    next => cases h

theorem shortest_cases (bits : ℕ) : shortest bits = (expansion bits, -(scale : ℤ)) ∨
    ∃ drop < (Nat.toDigits 10 (expansion bits)).length, pick bits drop = some (shortest bits) := by
  rw [shortest]
  cases hfound : (List.range (Nat.toDigits 10 (expansion bits)).length).findSome?
      fun i => pick bits ((Nat.toDigits 10 (expansion bits)).length - 1 - i) with
  | none => exact .inl rfl
  | some d =>
    obtain ⟨_, i, _, hrange, hpick, _⟩ := List.findSome?_eq_some_iff.mp hfound
    have hlt : i < (Nat.toDigits 10 (expansion bits)).length :=
      List.mem_range.mp (hrange ▸ List.mem_append_right _ List.mem_cons_self)
    exact .inr ⟨_, by omega, hpick⟩

theorem shortest_nearest (bits : ℕ) :
    nearestDecimal (shortest bits).1 (shortest bits).2 = bits := by
  obtain hall | ⟨drop, -, hpick⟩ := shortest_cases bits
  · rw [hall]
    exact nearestDecimal_expansion
  · exact (pick_spec hpick).1

/-- No finite magnitude has more digits in its expansion. -/
def digitLimit : ℕ := 2098

theorem units_lt (h : bits < infinity) : units bits < 2 ^ digitLimit := by
  unfold infinity at h
  by_cases hsmall : bits < 2 ^ 52
  · rw [units, if_pos hsmall]
    exact hsmall.trans_le (Nat.pow_le_pow_right (by decide) (by decide))
  · have he : 53 + (bits / 2 ^ 52 - 1) ≤ digitLimit := by
      unfold digitLimit
      omega
    rw [units, if_neg hsmall, Nat.mul_comm]
    calc (bits % 2 ^ 52 + 2 ^ 52) * 2 ^ (bits / 2 ^ 52 - 1)
        < 2 ^ 53 * 2 ^ (bits / 2 ^ 52 - 1) :=
          Nat.mul_lt_mul_of_pos_right (by omega) (Nat.two_pow_pos _)
      _ = 2 ^ (53 + (bits / 2 ^ 52 - 1)) := (Nat.pow_add ..).symm
      _ ≤ 2 ^ digitLimit := Nat.pow_le_pow_right (by decide) he

theorem expansion_lt (h : bits < infinity) : expansion bits < 10 ^ digitLimit := by
  have hten : (10 : ℕ) ^ digitLimit = 2 ^ digitLimit * 5 ^ digitLimit := by rw [← Nat.mul_pow]
  rw [hten, expansion, Nat.mul_comm]
  calc units bits * 5 ^ scale < 2 ^ digitLimit * 5 ^ scale :=
        Nat.mul_lt_mul_of_pos_right (units_lt h) (Nat.pow_pos (by decide))
    _ ≤ 2 ^ digitLimit * 5 ^ digitLimit :=
        Nat.mul_le_mul_left _ (Nat.pow_le_pow_right (by decide) (by decide))

theorem toDigits_length_le {width : ℕ} (hwidth : 0 < width) (h : n < 10 ^ width) :
    (Nat.toDigits 10 n).length ≤ width :=
  (Nat.length_toDigits_le_iff (b := 10) (by decide) hwidth).mpr h

theorem shortest_bounds (h : bits < infinity) :
    (Nat.toDigits 10 (shortest bits).1).length ≤ digitLimit + 1 ∧
      -1074 ≤ (shortest bits).2 ∧ (shortest bits).2 ≤ 1024 := by
  have hbound := expansion_lt h
  have hlength := toDigits_length_le (by decide) hbound
  have hscale : (scale : ℤ) = 1074 := rfl
  have hlimit : digitLimit = 2098 := rfl
  have hnumber : (shortest bits).1 ≤ expansion bits + 1 ∧
      -1074 ≤ (shortest bits).2 ∧ (shortest bits).2 ≤ 1024 := by
    obtain hall | ⟨drop, hdrop, hpick⟩ := shortest_cases bits
    · rw [hall]
      exact ⟨Nat.le_succ _, hscale.symm ▸ le_rfl, by omega⟩
    · obtain ⟨-, hk, hc⟩ := pick_spec hpick
      have hle := Nat.div_le_self (expansion bits) (10 ^ drop)
      exact ⟨by omega, by omega, by omega⟩
  refine ⟨toDigits_length_le (by decide) ?_, hnumber.2⟩
  rw [Nat.pow_succ]
  omega

/-- What the written digits say. -/
structure Writes (d : Decimal) (bits : ℕ) : Prop where
  digit : ∀ c ∈ d.digits, c.isDigit = true
  value : nearestDecimal (Nat.ofDigitChars 10 d.digits 0) (d.point - d.digits.length) = bits
  some : d.digits ≠ [] ∨ d.point = 0
  low : -5000 ≤ d.point
  high : d.point ≤ 5000

theorem nearestDecimal_zero (k : ℤ) : nearestDecimal 0 k = 0 := by
  simp [nearestDecimal, nearest, divHalfEven]

theorem decimalOf_writes (h : bits < infinity) : Writes (decimalOf bits) bits := by
  by_cases hzero : bits = 0
  · rw [decimalOf, if_pos hzero, hzero]
    exact ⟨by simp, nearestDecimal_zero _, Or.inr rfl, by decide, by decide⟩
  · obtain ⟨hlength, hlow, hhigh⟩ := shortest_bounds h
    have hvalue := shortest_nearest bits
    rw [decimalOf, if_neg hzero]
    set c := Nat.toDigits 10 (shortest bits).1 with hc
    have hsplit :
        c.rdropWhile (· == '0') ++ List.replicate (c.rtakeWhile (· == '0')).length '0' = c := by
      rw [← rtakeWhile_zeros]
      exact List.rdropWhile_append_rtakeWhile
    have hshort : Nat.ofDigitChars 10 (c.rdropWhile (· == '0')) 0 *
        10 ^ (c.rtakeWhile (· == '0')).length = (shortest bits).1 := by
      have hdigits := congrArg (fun l => Nat.ofDigitChars 10 l 0) hsplit
      simp only [Nat.ofDigitChars_append, Nat.ofDigitChars_replicate_zero, hc,
        Nat.ofDigitChars_ten_toDigits] at hdigits
      rw [Nat.mul_comm]
      exact hdigits
    have hcount := congrArg List.length hsplit
    rw [List.length_append, List.length_replicate] at hcount
    refine ⟨?_, ?_, ?_, ?_, ?_⟩
    · intro d hd
      have hmem : d ∈ c := (List.rdropWhile_prefix (· == '0') c).subset hd
      exact Nat.isDigit_of_mem_toDigits (by decide : 0 < 10) (by decide) hmem
    · rw [← nearestDecimal_shift _ (c.rtakeWhile (· == '0')).length, hshort]
      refine Eq.trans ?_ hvalue
      congr 1
      simp only
      omega
    · left
      intro hnil
      simp only at hnil
      rw [hnil, Nat.ofDigitChars_nil, Nat.zero_mul] at hshort
      rw [← hshort, nearestDecimal_zero] at hvalue
      exact hzero hvalue.symm
    · simp only
      omega
    · have hlimit : digitLimit = 2098 := rfl
      simp only
      omega

end KnowledgeEngine.FloatText
