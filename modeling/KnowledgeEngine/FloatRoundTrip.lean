import KnowledgeEngine.FloatText

/-!
Reading the decimal text of a floating-point number. The text written for a finite
number reads back to its bits, what is read is always finite, and the text is made of
letters, digits, signs and a point.
-/

namespace KnowledgeEngine.FloatRoundTrip

open FloatText List MachineNumbers TimeText

theorem cappedExponent_eq (ds : List Char) (h : Nat.ofDigitChars 10 ds 0 < 100000) :
    cappedExponent ds = Nat.ofDigitChars 10 ds 0 := by
  induction ds using List.reverseRecOn with
  | nil => rfl
  | append_singleton ds c ih =>
    rw [Nat.ofDigitChars_append, Nat.ofDigitChars_cons, Nat.ofDigitChars_nil] at h ⊢
    have hfew := ih (by omega)
    rw [cappedExponent, foldl_append, foldl_cons, foldl_nil, ← cappedExponent, hfew,
      if_pos (by omega), Nat.mul_comm]

theorem exponentValue_padded (width : ℕ) (e : ℤ) (hlow : -10000 ≤ e) (hhigh : e ≤ 10000) :
    exponentValue ('e' :: (if e < 0 then '-' else '+') :: padded width e.natAbs) = some e := by
  have hdigits : digitsValue (padded width e.natAbs) = some e.natAbs := by
    rw [digitsValue, if_pos ⟨padded_ne_nil, all_eq_true.mpr (padded_isDigit width _)⟩,
      ofDigitChars_padded]
  have hcapped : cappedExponent (padded width e.natAbs) = e.natAbs := by
    rw [cappedExponent_eq _ (by rw [ofDigitChars_padded]; omega), ofDigitChars_padded]
  by_cases hneg : e < 0
  · simp only [exponentValue, hneg, if_true, true_or, hdigits, Option.map_some, hcapped]
    congr 1
    omega
  · simp only [exponentValue, hneg, if_false, if_true, true_or, hdigits, Option.map_some, hcapped]
    congr 1
    omega

theorem takeWhile_ends {stop : Char → Bool} {rest : List Char} (h : EndsBefore stop rest) :
    rest.takeWhile stop = [] ∧ rest.dropWhile stop = rest := by
  cases rest with
  | nil => exact ⟨rfl, rfl⟩
  | cons c rest =>
    have hc : stop c = false := h c rfl
    simp [hc]

theorem takeWhile_block (stop : Char → Bool) (block rest : List Char)
    (hblock : ∀ c ∈ block, stop c = true) (h : EndsBefore stop rest) :
    (block ++ rest).takeWhile stop = block ∧ (block ++ rest).dropWhile stop = rest := by
  obtain ⟨htake, hdrop⟩ := takeWhile_ends h
  rw [takeWhile_append_of_pos hblock, dropWhile_append_of_pos hblock, htake, hdrop]
  exact ⟨append_nil block, rfl⟩

/-- Digits, a point and more digits if there are any, and what follows them. -/
structure Parts (text whole behind rest : List Char) : Prop where
  text : text = whole ++ if behind = [] then rest else '.' :: (behind ++ rest)
  digit : ∀ c ∈ whole ++ behind, c.isDigit = true
  nonempty : whole ≠ []
  ends : EndsDecimal rest

variable {text whole behind rest : List Char} {d : Decimal} {bits : ℕ}

theorem parts_digits (hdigit : ∀ c ∈ whole, c.isDigit = true) (hne : whole ≠ []) :
    Parts whole whole [] [] :=
  ⟨by simp, by simpa using hdigit, hne, nofun⟩

theorem Parts.split (h : Parts text whole behind rest) :
    splitPoint text = (whole, behind, rest) := by
  obtain ⟨hwhole, hbehind⟩ := forall_mem_append.mp h.digit
  rw [h.text]
  unfold splitPoint
  by_cases hnone : behind = []
  · obtain ⟨htake, hdrop⟩ := takeWhile_block Char.isDigit whole rest hwhole h.ends.digit
    rw [if_pos hnone, htake, hdrop, hnone]
    split
    · next rest' => exact absurd (h.ends '.' rfl) (by simp)
    · rfl
  · obtain ⟨htake, hdrop⟩ := takeWhile_block Char.isDigit whole ('.' :: (behind ++ rest)) hwhole
      (endsBefore_cons _ _ _ (by decide))
    obtain ⟨htake', hdrop'⟩ := takeWhile_block Char.isDigit behind rest hbehind h.ends.digit
    rw [if_neg hnone, htake, hdrop]
    simp only [htake', hdrop']

theorem Parts.mem (h : Parts text whole behind rest) {c : Char} (hc : c ∈ text) :
    c.isDigit = true ∨ c = '.' ∨ c ∈ rest := by
  obtain ⟨hwhole, hbehind⟩ := forall_mem_append.mp h.digit
  rw [h.text] at hc
  rcases mem_append.mp hc with hc | hc
  · exact .inl (hwhole c hc)
  · split at hc
    · exact .inr (.inr hc)
    · rcases mem_cons.mp hc with hc | hc
      · exact .inr (.inl hc)
      · exact (mem_append.mp hc).imp (hbehind c) .inr

/-- Reading digits with a point and an exponent. -/
theorem Parts.parse (h : Parts text whole behind rest) {e : ℤ}
    (hexponent : exponentValue rest = some e)
    (hvalue : nearestDecimal (Nat.ofDigitChars 10 (whole ++ behind) 0) (e - behind.length) = bits)
    (hbits : bits < infinity) : parseMagnitude text = some bits := by
  rw [parseMagnitude, h.split]
  simp only [h.nonempty, false_and, if_false, hexponent, Option.bind_some, hvalue]
  exact if_pos hbits

theorem fmtExp_parts (width : ℕ) (hdigit : ∀ c ∈ d.digits, c.isDigit = true)
    (hne : d.digits ≠ []) : ∃ first more, d.digits = first :: more ∧
      Parts (fmtExp width d) [first] more
        ('e' :: (if d.point - 1 < 0 then '-' else '+') :: padded width (d.point - 1).natAbs) := by
  obtain ⟨first, more, hdigits⟩ := exists_cons_of_ne_nil hne
  refine ⟨first, more, hdigits, ?_, by rwa [singleton_append, ← hdigits],
    cons_ne_nil _ _, endsBefore_cons _ _ _ (by decide)⟩
  cases more <;> simp [fmtExp, hdigits]

theorem parseMagnitude_fmtExp (width : ℕ) (h : Writes d bits) (hne : d.digits ≠ [])
    (hbits : bits < infinity) : parseMagnitude (fmtExp width d) = some bits := by
  obtain ⟨first, more, hdigits, hparts⟩ := fmtExp_parts width h.digit hne
  have hlow := h.low
  have hhigh := h.high
  refine hparts.parse (exponentValue_padded width (d.point - 1) (by omega) (by omega)) ?_ hbits
  rw [← h.value, hdigits, length_cons]
  congr 1
  push_cast
  omega

theorem replicate_zero_isDigit (n : ℕ) : ∀ c ∈ List.replicate n '0', c.isDigit = true := by
  intro c hc
  rw [eq_of_mem_replicate hc]
  decide

/-- The three forms of a text without an exponent. -/
theorem fmtF_shape (hne : d.digits ≠ []) :
    (d.digits.length ≤ d.point ∧
      fmtF d = d.digits ++ List.replicate (d.point.toNat - d.digits.length) '0') ∨
    (d.point ≤ 0 ∧ fmtF d = '0' :: '.' :: (List.replicate (-d.point).toNat '0' ++ d.digits)) ∨
    (0 < d.point ∧ d.point < d.digits.length ∧
      fmtF d = d.digits.take d.point.toNat ++ '.' :: d.digits.drop d.point.toNat) := by
  have hlength := length_pos_iff.mpr hne
  by_cases hwhole : (d.digits.length : ℤ) ≤ d.point
  · refine Or.inl ⟨hwhole, ?_⟩
    have hpoint : ¬ d.point.toNat = 0 := by omega
    simp only [fmtF, hpoint, if_false, hwhole, if_true]
    rw [take_of_length_le (by omega)]
  · by_cases hpoint : d.point ≤ 0
    · refine Or.inr (Or.inl ⟨hpoint, ?_⟩)
      simp only [fmtF, show d.point.toNat = 0 by omega, if_true, hwhole, if_false, drop_zero]
      rfl
    · refine Or.inr (Or.inr ⟨by omega, by omega, ?_⟩)
      have hno : (-d.point).toNat = 0 := by omega
      have hfew : d.point.toNat - d.digits.length = 0 := by omega
      simp only [fmtF, show ¬ d.point.toNat = 0 by omega, if_false, hwhole, hno, hfew,
        replicate_zero, append_nil, nil_append]

/-- The digits of a text without an exponent are those of the decimal, with `j` zeros at the
end or some in front. -/
theorem fmtF_parts (hdigit : ∀ c ∈ d.digits, c.isDigit = true) (hne : d.digits ≠ []) :
    ∃ (whole behind : List Char) (j : ℕ), Parts (fmtF d) whole behind [] ∧
      Nat.ofDigitChars 10 (whole ++ behind) 0 = Nat.ofDigitChars 10 d.digits 0 * 10 ^ j ∧
      0 - (behind.length : ℤ) = d.point - d.digits.length - j ∧
      (whole = ['0'] ∨ whole.head? = d.digits.head?) := by
  rcases fmtF_shape hne with ⟨hwhole, htext⟩ | ⟨hpoint, htext⟩ | ⟨hlow, hhigh, htext⟩
  · refine ⟨_, [], d.point.toNat - d.digits.length, ⟨by simpa using htext, ?_,
      append_ne_nil_of_left_ne_nil hne _, nofun⟩, ?_, ?_,
      .inr (List.head?_append_of_ne_nil _ hne)⟩
    · rw [append_nil]
      exact forall_mem_append.mpr ⟨hdigit, replicate_zero_isDigit _⟩
    · rw [append_nil, Nat.ofDigitChars_append, Nat.ofDigitChars_replicate_zero, Nat.mul_comm]
    · rw [length_nil]
      omega
  · refine ⟨['0'], List.replicate (-d.point).toNat '0' ++ d.digits, 0, ⟨?_, ?_, by simp, nofun⟩,
      ?_, ?_, .inl rfl⟩
    · simpa [hne] using htext
    · exact forall_mem_append.mpr ⟨replicate_zero_isDigit 1,
        forall_mem_append.mpr ⟨replicate_zero_isDigit _, hdigit⟩⟩
    · rw [Nat.ofDigitChars_append, Nat.ofDigitChars_append, Nat.ofDigitChars_replicate_zero,
        Nat.pow_zero, Nat.mul_one]
      rfl
    · rw [length_append, length_replicate]
      push_cast
      omega
  · have htake : d.digits.take d.point.toNat ≠ [] := by simp [hne]; omega
    have hdrop : d.digits.drop d.point.toNat ≠ [] := by simp; omega
    refine ⟨_, d.digits.drop d.point.toNat, 0, ⟨?_, ?_, htake, nofun⟩, ?_, ?_, .inr ?_⟩
    · simpa [hdrop] using htext
    · rwa [take_append_drop]
    · rw [take_append_drop, Nat.pow_zero, Nat.mul_one]
    · rw [length_drop]
      omega
    · rw [List.head?_take, if_neg (by omega)]

theorem parseMagnitude_fmtF (h : Writes d bits) (hbits : bits < infinity) :
    parseMagnitude (fmtF d) = some bits := by
  have hread := h.value
  by_cases hne : d.digits = []
  · have hpoint := h.some.resolve_left (not_not.mpr hne)
    have htext : fmtF d = ['0'] := by simp [fmtF, hne, hpoint]
    rw [hne, hpoint] at hread
    rw [htext]
    exact (parts_digits (replicate_zero_isDigit 1) (by simp)).parse rfl hread hbits
  · obtain ⟨whole, behind, j, hparts, hvalue, hplaces, -⟩ := fmtF_parts h.digit hne
    refine hparts.parse rfl ?_ hbits
    rw [hvalue, hplaces, nearestDecimal_shift, hread]

theorem parseMagnitude_formatMagnitude (bits : ℕ) (h : bits < infinity) :
    parseMagnitude (formatMagnitude bits) = some bits := by
  have hwrites := decimalOf_writes h
  rw [formatMagnitude, if_neg h.ne, if_neg h.not_gt]
  split
  · next hexponent =>
    apply parseMagnitude_fmtExp 2 hwrites _ h
    intro hnil
    have hpoint := hwrites.some.resolve_left (not_not.mpr hnil)
    omega
  · exact parseMagnitude_fmtF hwrites h

theorem parseMagnitude_sign :
    parseMagnitude ('-' :: text) = none ∧ parseMagnitude ('+' :: text) = none := ⟨rfl, rfl⟩

theorem parseFloat_unsigned {bits : ℕ} (h : parseMagnitude text = some bits) :
    parseFloat text = some (BitVec.ofNat 64 bits) := by
  unfold parseFloat
  split
  · next rest =>
    rw [parseMagnitude_sign.1] at h
    cases h
  · next rest =>
    rw [parseMagnitude_sign.2] at h
    cases h
  · rw [h, Option.map_some]

variable {bits : BitVec 64}

/-- A sign in front of the text of the magnitude. -/
theorem parseFloat_signed (h : parseMagnitude text = some (bits.toNat % 2 ^ 63)) :
    parseFloat (if bits.msb then '-' :: text else text) = some bits := by
  have hsign : bits.msb = true ↔ 2 ^ 63 ≤ bits.toNat := by
    rw [BitVec.msb_eq_decide, decide_eq_true_iff]
  have hbound := bits.isLt
  by_cases hneg : bits.msb = true
  · rw [if_pos hneg, parseFloat, h, Option.map_some]
    refine congrArg some (BitVec.eq_of_toNat_eq ?_)
    rw [BitVec.toNat_ofNat]
    have hlarge := hsign.mp hneg
    omega
  · rw [if_neg hneg, parseFloat_unsigned h]
    refine congrArg some (BitVec.eq_of_toNat_eq ?_)
    rw [BitVec.toNat_ofNat]
    have hsmall := mt hsign.mpr hneg
    omega

/-- Reading the text of a finite number gives its bits. -/
theorem parseFloat_formatFloat (h : bits.toNat % 2 ^ 63 < infinity) :
    parseFloat (formatFloat bits) = some bits := by
  rw [formatFloat, if_neg h.not_gt, if_neg h.ne]
  exact parseFloat_signed (parseMagnitude_formatMagnitude _ h)

example : [0x3FF8000000000000, 0x412E848000000000, 0x8000000000000000].map formatFloat =
    ["1.5".toList, "1e+06".toList, "-0".toList] := by
  decide +kernel

theorem parseMagnitude_lt {bits : ℕ} (h : parseMagnitude text = some bits) : bits < infinity := by
  unfold parseMagnitude at h
  simp only [Option.ite_none_left_eq_some, Option.bind_eq_some_iff] at h
  obtain ⟨_, e, _, hrange⟩ := h
  obtain ⟨hlt, hsome⟩ := Option.ite_none_right_eq_some.mp hrange
  rwa [Option.some.inj hsome] at hlt

/-- A text never reads as infinity or as no number. -/
theorem parseFloat_finite (h : parseFloat text = some bits) : bits.toNat % 2 ^ 63 < infinity := by
  have hinfinity : infinity < 2 ^ 63 := by decide
  unfold parseFloat at h
  split at h <;>
  · obtain ⟨magnitude, hmagnitude, rfl⟩ := Option.map_eq_some_iff.mp h
    have hlt := parseMagnitude_lt hmagnitude
    rw [BitVec.toNat_ofNat]
    omega

/-- The characters of a number, letters of its exponent and names included. -/
def isFloatChar (c : Char) : Bool := c.isAlphanum || c == '.' || c == '+' || c == '-'

theorem isFloatChar_of_isDigit {c : Char} (h : c.isDigit = true) : isFloatChar c = true := by
  simp [isFloatChar, Char.isAlphanum, h]

theorem padded_isFloatChar {width n : ℕ} : ∀ c ∈ padded width n, isFloatChar c = true :=
  fun c hc => isFloatChar_of_isDigit (padded_isDigit width n c hc)

theorem formatMagnitude_isFloatChar (bits : ℕ) :
    ∀ c ∈ formatMagnitude bits, isFloatChar c = true := by
  simp only [formatMagnitude]
  split
  · exact all_eq_true.mp (by decide)
  split
  · exact all_eq_true.mp (by decide)
  next hne hle =>
  have hwrites := decimalOf_writes (Nat.lt_of_le_of_ne (Nat.not_lt.mp hle) hne)
  by_cases hdigits : (decimalOf bits).digits = []
  · have hpoint := hwrites.some.resolve_left (not_not.mpr hdigits)
    simp [hpoint, fmtF, hdigits, isFloatChar]
  intro c hc
  split at hc
  · obtain ⟨first, more, -, hparts⟩ := fmtExp_parts 2 hwrites.digit hdigits
    rcases hparts.mem hc with hc | rfl | hc
    · exact isFloatChar_of_isDigit hc
    · decide
    · rcases mem_cons.mp hc with rfl | hc
      · decide
      · rcases mem_cons.mp hc with rfl | hc
        · split <;> decide
        · exact padded_isFloatChar c hc
  · obtain ⟨whole, behind, j, hparts, -⟩ := fmtF_parts hwrites.digit hdigits
    rcases hparts.mem hc with hc | rfl | hc
    · exact isFloatChar_of_isDigit hc
    · decide
    · cases hc

theorem formatFloat_isFloatChar : ∀ c ∈ formatFloat bits, isFloatChar c = true := by
  simp only [formatFloat]
  split
  · exact all_eq_true.mp (by decide)
  split
  · exact forall_mem_cons.mpr ⟨by decide, formatMagnitude_isFloatChar _⟩
  split
  · exact forall_mem_cons.mpr ⟨by decide, formatMagnitude_isFloatChar _⟩
  · exact formatMagnitude_isFloatChar _

end KnowledgeEngine.FloatRoundTrip
