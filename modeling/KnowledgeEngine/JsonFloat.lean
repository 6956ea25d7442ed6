import KnowledgeEngine.FloatOrder
import KnowledgeEngine.JsonText

/-!
Finite float64 values as JSON numbers, the way encoding/json and Python's json write them.
Both start from the shortest decimal; they differ in when an exponent is used and how many
digits it has. Every text is a JSON number and reads back to the value.
-/

namespace KnowledgeEngine.JsonFloat

open FloatOrder FloatRoundTrip FloatText JsonText List TimeText

def magnitude (bits : BitVec 64) : ℕ := bits.toNat % 2 ^ 63

def signed (bits : BitVec 64) (text : List Char) : List Char :=
  if bits.msb then '-' :: text else text

/-- An exponent e-09 becomes e-9. -/
def cleanExponent (text : List Char) : List Char :=
  match text.reverse with
  | last :: '0' :: sign :: 'e' :: rest =>
    if sign = '-' ∨ sign = '+' then (last :: sign :: 'e' :: rest).reverse else text
  | _ => text

def goMagnitude (bits : ℕ) : List Char :=
  if bits ≠ 0 ∧ (bits < nearestDecimal 1 (-6) ∨ nearestDecimal 1 21 ≤ bits) then
    cleanExponent (fmtE (decimalOf bits))
  else fmtF (decimalOf bits)

/-- encoding/json refuses infinities and what is not a number. -/
def goFloat (bits : BitVec 64) : Option (List Char) :=
  if infinity ≤ magnitude bits then none else some (signed bits (goMagnitude (magnitude bits)))

/-- float.__repr__ -/
def reprMagnitude (bits : ℕ) : List Char :=
  let d := decimalOf bits
  if d.point ≤ -4 ∨ 16 < d.point then fmtE d
  else fmtF d ++ if (d.digits.length : ℤ) ≤ d.point then ['.', '0'] else []

def pyFloat (bits : BitVec 64) : List Char :=
  if infinity < magnitude bits then "NaN".toList
  else if magnitude bits = infinity then signed bits "Infinity".toList
  else signed bits (reprMagnitude (magnitude bits))

example : [0x3E7AD7F29ABCAF48, 0x3F1A36E2EB1C432D, 0x4480F0CF064DD592].map goFloat =
    [some "1e-7".toList, some "0.0001".toList, some "1e+22".toList] := by
  decide +kernel

example : [0x3E7AD7F29ABCAF48, 0x3F1A36E2EB1C432D, 0x3FF0000000000000].map pyFloat =
    ["1e-07".toList, "0.0001".toList, "1.0".toList] := by
  decide +kernel

theorem padded_one (n : ℕ) : padded 1 n = Nat.toDigits 10 n := by
  have hlength : 0 < (Nat.toDigits 10 n).length := length_pos_iff.mpr Nat.toDigits_ne_nil
  rw [padded, show 1 - (Nat.toDigits 10 n).length = 0 by omega]
  rfl

variable {text : List Char} {n : ℕ} {rest : List Char}

theorem padded_small (h : n < 10) : padded 2 n = '0' :: Nat.toDigits 10 n := by
  rw [padded, Nat.toDigits_of_lt_base h]
  rfl

theorem two_le_length (h : 10 ≤ n) : 2 ≤ (Nat.toDigits 10 n).length := by
  by_contra hshort
  have hlt := (Nat.length_toDigits_le_iff (b := 10) (n := n) (k := 1) (by decide)
    (by decide)).mp (by omega)
  omega

theorem padded_large (h : 10 ≤ n) : padded 2 n = Nat.toDigits 10 n := by
  have hlength := two_le_length h
  rw [padded, show 2 - (Nat.toDigits 10 n).length = 0 by omega]
  rfl

/-- An exponent of two digits or more is clean. -/
theorem cleanExponent_large {sign : Char} (h : 10 ≤ n) :
    cleanExponent (text ++ 'e' :: sign :: Nat.toDigits 10 n) =
      text ++ 'e' :: sign :: Nat.toDigits 10 n := by
  have hhead := toDigits_head_ne_zero n (by omega)
  have hdigit : ∀ c ∈ Nat.toDigits 10 n, c.isDigit = true := fun c hc =>
    Nat.isDigit_of_mem_toDigits (by decide) (by decide) hc
  have hlong := two_le_length h
  generalize Nat.toDigits 10 n = ds at hhead hdigit hlong ⊢
  unfold cleanExponent
  split
  · next last sign' rest hreverse =>
    rw [reverse_append, reverse_cons, reverse_cons, append_assoc,
      append_assoc] at hreverse
    have hlong' : 2 ≤ ds.reverse.length := by rwa [length_reverse]
    match hds : ds.reverse with
    | [] | [_] => simp [hds] at hlong'
    | [x, y] =>
      obtain rfl : ds = [y, x] := by rw [← reverse_reverse ds, hds]; rfl
      simp only [hds, cons_append, nil_append, List.cons.injEq] at hreverse
      exact absurd (congrArg some hreverse.2.1) hhead
    | x :: y :: z :: more =>
      have hz : z.isDigit = true := hdigit z (by rw [← mem_reverse, hds]; simp)
      simp only [hds, cons_append, List.cons.injEq] at hreverse
      rw [← hreverse.2.2.1]
      refine if_neg ?_
      rintro (rfl | rfl) <;> exact absurd hz (by decide)
  · rfl

/-- The clean exponent has no leading zero. -/
theorem cleanExponent_fmtE (d : Decimal) : cleanExponent (fmtE d) = fmtExp 1 d := by
  simp only [fmtE, fmtExp, padded_one]
  generalize d.digits.take 1 ++ (if d.digits.length ≤ 1 then [] else '.' :: d.digits.drop 1) = text
  by_cases hsmall : (d.point - 1).natAbs < 10
  · rw [padded_small hsmall, Nat.toDigits_of_lt_base hsmall]
    split <;> simp [cleanExponent]
  · rw [padded_large (by omega)]
    exact cleanExponent_large (by omega)

/-- Digits without a leading zero. -/
structure Significant (digits : List Char) : Prop where
  digit : ∀ c ∈ digits, c.isDigit = true
  nonempty : digits ≠ []
  head : digits.head? ≠ some '0'

theorem significant_toDigits (hn : 0 < n) : Significant (Nat.toDigits 10 n) :=
  ⟨fun _ hc => Nat.isDigit_of_mem_toDigits (by decide) (by decide) hc, Nat.toDigits_ne_nil,
    toDigits_head_ne_zero n hn⟩

theorem significant_decimalOf {bits : ℕ} (hne : bits ≠ 0) :
    Significant (decimalOf bits).digits := by
  obtain ⟨n, k, h⟩ := exists_shortest bits hne
  rw [h.digits]
  exact significant_toDigits h.pos

theorem isNumberChar_digit {c : Char} (h : c.isDigit = true) : isNumberChar c = true := by
  simp [isNumberChar, h]

/-- The literal without a sign. -/
structure MagnitudeLiteral (text : List Char) : Prop where
  valid : validMagnitude text = true
  chars : ∀ c ∈ text, isNumberChar c = true

theorem validFraction_parts {whole behind : List Char} (h : Parts text whole behind rest)
    (hrest : validExponent rest = true) :
    validFraction (if behind = [] then rest else '.' :: (behind ++ rest)) = true ∧
      EndsBefore Char.isDigit (if behind = [] then rest else '.' :: (behind ++ rest)) := by
  split
  · refine ⟨?_, h.ends.digit⟩
    rwa [validFraction]
    rintro more rfl
    exact absurd (h.ends '.' rfl) (by simp)
  · next hne =>
    obtain ⟨htake, hdrop⟩ := takeWhile_block Char.isDigit behind rest
      (fun c hc => h.digit c (mem_append_right _ hc)) h.ends.digit
    exact ⟨by simp [validFraction, htake, hdrop, hne, hrest], endsBefore_cons _ _ _ (by decide)⟩

/-- Digits without a leading zero, or one zero, start a number literal. -/
theorem magnitudeLiteral_parts {whole behind : List Char} (h : Parts text whole behind rest)
    (hwhole : whole = ['0'] ∨ whole.head? ≠ some '0') (hrest : validExponent rest = true)
    (hchars : ∀ c ∈ rest, isNumberChar c = true) : MagnitudeLiteral text := by
  obtain ⟨hvalid, hends⟩ := validFraction_parts h hrest
  constructor
  · rw [h.text]
    rcases hwhole with rfl | hhead
    · exact hvalid
    · obtain ⟨c, more, rfl⟩ := exists_cons_of_ne_nil h.nonempty
      obtain ⟨hc, hmore⟩ := forall_mem_cons.mp h.digit
      obtain ⟨-, hdrop⟩ := takeWhile_block Char.isDigit more _
        (fun d hd => hmore d (mem_append_left _ hd)) hends
      rw [cons_append, validMagnitude, hdrop, hvalid, hc]
      · rfl
      · rintro rfl
        exact hhead rfl
  · intro c hc
    rcases h.mem hc with hc | rfl | hc
    · exact isNumberChar_digit hc
    · decide
    · exact hchars c hc

theorem validExponent_padded (width : ℕ) (e : ℤ) :
    validExponent ('e' :: (if e < 0 then '-' else '+') :: padded width e.natAbs) = true := by
  have hdigits : (padded width e.natAbs).all Char.isDigit = true :=
    all_eq_true.mpr (padded_isDigit width _)
  have hne : (padded width e.natAbs).isEmpty = false := by simp [padded_ne_nil]
  split <;> simp [validExponent, hdigits, hne]

theorem numberLiteral_signed {bits : BitVec 64} (h : MagnitudeLiteral text) :
    NumberLiteral (signed bits text) := by
  unfold signed
  split
  · refine ⟨h.valid, fun c hc => ?_⟩
    rcases mem_cons.mp hc with rfl | hc
    · decide
    · exact h.chars c hc
  · refine ⟨?_, h.chars⟩
    have hvalid := h.valid
    unfold validNumber
    split
    · exact absurd hvalid (by simp [validMagnitude])
    · exact hvalid

theorem magnitudeLiteral_fmtExp (width : ℕ) (d : Decimal) (h : Significant d.digits) :
    MagnitudeLiteral (fmtExp width d) := by
  obtain ⟨first, more, hdigits, hparts⟩ := fmtExp_parts width h.digit h.nonempty
  refine magnitudeLiteral_parts hparts (.inr ?_) (validExponent_padded width _) ?_
  · simpa [hdigits] using h.head
  · intro c hc
    rcases mem_cons.mp hc with rfl | hc
    · decide
    · rcases mem_cons.mp hc with rfl | hc
      · split <;> decide
      · exact isNumberChar_digit (padded_isDigit width _ c hc)

theorem magnitudeLiteral_fmtF (d : Decimal) (h : Significant d.digits) :
    MagnitudeLiteral (fmtF d) := by
  obtain ⟨whole, behind, j, hparts, -, -, hhead⟩ := fmtF_parts h.digit h.nonempty
  refine magnitudeLiteral_parts hparts (hhead.imp_right fun hsame => ?_) rfl nofun
  rw [hsame]
  exact h.head

/-- A text for the magnitude that is a JSON number and reads back. -/
structure Denotes (text : List Char) (bits : ℕ) : Prop where
  literal : MagnitudeLiteral text
  parse : parseMagnitude text = some bits

theorem denotes_fmtExp {width bits : ℕ} (hne : bits ≠ 0) (h : bits < infinity) :
    Denotes (fmtExp width (decimalOf bits)) bits :=
  have hdigits := significant_decimalOf hne
  ⟨magnitudeLiteral_fmtExp width _ hdigits,
    parseMagnitude_fmtExp width (decimalOf_writes h) hdigits.nonempty h⟩

theorem denotes_fmtF {bits : ℕ} (h : bits < infinity) : Denotes (fmtF (decimalOf bits)) bits := by
  refine ⟨?_, parseMagnitude_fmtF (decimalOf_writes h) h⟩
  by_cases hne : bits = 0
  · subst hne
    exact ⟨rfl, all_eq_true.mp rfl⟩
  · exact magnitudeLiteral_fmtF _ (significant_decimalOf hne)

theorem denotes_goMagnitude {bits : ℕ} (h : bits < infinity) :
    Denotes (goMagnitude bits) bits := by
  unfold goMagnitude
  split
  · next hexponent =>
    rw [cleanExponent_fmtE]
    exact denotes_fmtExp hexponent.1 h
  · exact denotes_fmtF h

theorem goFloat_literal {bits : BitVec 64} (h : goFloat bits = some text) : NumberLiteral text := by
  obtain ⟨hfinite, htext⟩ := Option.ite_none_left_eq_some.mp h
  rw [← Option.some.inj htext]
  exact numberLiteral_signed (denotes_goMagnitude (Nat.not_le.mp hfinite)).literal

theorem Denotes.parseFloat {bits : BitVec 64} (h : Denotes text (magnitude bits)) :
    parseFloat (signed bits text) = some bits :=
  parseFloat_signed h.parse

/-- The shortest decimal is the number itself. -/
def Exact (bits : ℕ) : Prop :=
  (Nat.ofDigitChars 10 (decimalOf bits).digits 0 : ℚ) *
    10 ^ ((decimalOf bits).point - (decimalOf bits).digits.length) * 2 ^ scale = units bits

/-- The integer as digits against its shortest decimal. -/
theorem fmtF_integer_iff {bits : ℕ} (hne : bits ≠ 0) (hint : Integral bits) :
    fmtF (decimalOf bits) = Nat.toDigits 10 (units bits / 2 ^ scale) ↔ Exact bits := by
  obtain ⟨n, k, h⟩ := exists_shortest bits hne
  obtain ⟨whole, hunits⟩ := hint
  have hwhole : units bits / 2 ^ scale = whole := by
    rw [hunits, Nat.mul_div_cancel_left _ (Nat.two_pow_pos _)]
  have hexact : Exact bits ↔ (n : ℚ) * 10 ^ k = whole := by
    have hpow : (2 : ℚ) ^ scale ≠ 0 := pow_ne_zero _ (by norm_num)
    rw [Exact, h.point, h.digits, Nat.ofDigitChars_ten_toDigits, hunits, add_sub_cancel_left,
      Nat.cast_mul, Nat.cast_pow, Nat.cast_ofNat, mul_comm ((2 : ℚ) ^ scale), mul_left_inj' hpow]
  have hnonempty : (decimalOf bits).digits ≠ [] := by
    rw [h.digits]
    exact Nat.toDigits_ne_nil
  have hshape : ∀ j : ℕ, k = j → fmtF (decimalOf bits) = Nat.toDigits 10 (n * 10 ^ j) := by
    rintro j rfl
    rw [toDigits_mul_pow n j h.pos]
    rcases fmtF_shape hnonempty with ⟨_, htext⟩ | ⟨hpoint, _⟩ | ⟨_, hpoint, _⟩
    · rw [htext, h.point, h.digits]
      congr 2
      omega
    · have hpos := length_pos_iff.mpr hnonempty
      rw [h.point] at hpoint
      rw [h.digits] at hpos
      omega
    · rw [h.point, h.digits] at hpoint
      omega
  rw [hwhole, hexact]
  constructor
  · intro htext
    have hdigits : ∀ c ∈ fmtF (decimalOf bits), c.isDigit = true := fun c hc =>
      Nat.isDigit_of_mem_toDigits (by decide) (by decide) (htext ▸ hc)
    have hk : 0 ≤ k := by
      rcases fmtF_shape hnonempty with ⟨hle, _⟩ | ⟨_, hpoint⟩ | ⟨_, _, hpoint⟩
      · rw [h.point, h.digits] at hle
        omega
      · exact absurd (hdigits '.' (by simp [hpoint])) (by decide)
      · exact absurd (hdigits '.' (by simp [hpoint])) (by decide)
    obtain ⟨j, rfl⟩ := Int.eq_ofNat_of_zero_le hk
    have hvalue := congrArg (fun l => Nat.ofDigitChars 10 l 0) ((hshape j rfl).symm.trans htext)
    simp only [Nat.ofDigitChars_ten_toDigits] at hvalue
    rw [zpow_natCast]
    exact_mod_cast hvalue
  · intro hvalue
    have hk : 0 ≤ k := by
      by_contra hneg
      obtain ⟨j, rfl⟩ : ∃ j : ℕ, k = -((j + 1 : ℕ) : ℤ) := ⟨(-k).toNat - 1, by omega⟩
      rw [zpow_neg, zpow_natCast, ← div_eq_mul_inv, div_eq_iff (by positivity)] at hvalue
      have hten : n = whole * 10 ^ (j + 1) := by exact_mod_cast hvalue
      have hlast := h.last
      rw [hten, Nat.pow_succ, ← Nat.mul_assoc, Nat.mul_mod_left] at hlast
      exact hlast rfl
    obtain ⟨j, rfl⟩ := Int.eq_ofNat_of_zero_le hk
    rw [zpow_natCast] at hvalue
    rw [hshape j rfl, show n * 10 ^ j = whole by exact_mod_cast hvalue]

end KnowledgeEngine.JsonFloat
