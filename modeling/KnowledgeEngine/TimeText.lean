import KnowledgeEngine.Calendar
import KnowledgeEngine.MachineNumbers
import Mathlib.Data.List.DropRight

/-!
Instants as text, the way package time writes them: zero-padded fields, a year
that may be signed, and a fraction of a second without its trailing zeros. The
text of an instant can be read back from the front of any text whose continuation
starts with neither a digit nor a dot.
-/

namespace KnowledgeEngine.TimeText

open Calendar List

def padded (width n : ℕ) : List Char :=
  List.replicate (width - (Nat.toDigits 10 n).length) '0' ++ Nat.toDigits 10 n

def signedPadded (width : ℕ) : ℤ → List Char
  | .ofNat n => padded width n
  | .negSucc n => '-' :: padded width (n + 1)

/-- The fraction of a second, absent when it is zero. -/
def fraction (nanos : ℕ) : List Char :=
  if nanos = 0 then [] else '.' :: (padded 9 nanos).rdropWhile (· == '0')

def nanosPerDay : ℤ := 86400000000000

/-- Days from January 1 of year 1 to the Unix epoch. -/
def epochDay : ℤ := 719162

def dateChars (nanos : ℤ) : List Char :=
  let c := civil (nanos / nanosPerDay + epochDay)
  signedPadded 4 c.year ++ '-' :: (padded 2 c.month.toNat ++ '-' :: padded 2 c.day.toNat)

def clockChars (nanos : ℤ) : List Char :=
  let second := (nanos % nanosPerDay / 1000000000).toNat
  padded 2 (second / 3600) ++ ':' :: (padded 2 (second % 3600 / 60) ++ ':' ::
    (padded 2 (second % 60) ++ fraction (nanos % 1000000000).toNat))

/-- Format(time.RFC3339Nano) of a UTC time given in Unix nanoseconds. -/
def rfc3339Nano (nanos : ℤ) : List Char := dateChars nanos ++ 'T' :: (clockChars nanos ++ ['Z'])

/-- The text does not go on with one of the characters. -/
def EndsBefore (stop : Char → Bool) (text : List Char) : Prop := ∀ c ∈ text.head?, stop c = false

/-- Neither a digit nor a point is next. -/
abbrev EndsDecimal (text : List Char) : Prop := EndsBefore (fun c => c.isDigit || c == '.') text

theorem EndsDecimal.digit {text : List Char} (h : EndsDecimal text) :
    EndsBefore Char.isDigit text :=
  fun c hc => (Bool.or_eq_false_iff.mp (h c hc)).1

theorem block_append_inj (stop : Char → Bool) (a b x y : List Char) (ha : ∀ c ∈ a, stop c = true)
    (hb : ∀ c ∈ b, stop c = true) (hx : EndsBefore stop x) (hy : EndsBefore stop y)
    (h : a ++ x = b ++ y) : a = b ∧ x = y := by
  induction a generalizing b with
  | nil =>
    cases b with
    | nil => exact ⟨rfl, h⟩
    | cons c rest =>
      have hc := hx c (by simp only [nil_append] at h; simp [h])
      simp [hb c mem_cons_self] at hc
  | cons c rest ih =>
    cases b with
    | nil =>
      have hc := hy c (by simp only [nil_append] at h; simp [← h])
      simp [ha c mem_cons_self] at hc
    | cons d rest' =>
      simp only [cons_append, List.cons.injEq] at h
      obtain ⟨hrest, hxy⟩ := ih rest' (fun e he => ha e (mem_cons_of_mem _ he))
        (fun e he => hb e (mem_cons_of_mem _ he)) h.2
      exact ⟨by rw [h.1, hrest], hxy⟩

theorem padded_isDigit (width n : ℕ) : ∀ c ∈ padded width n, c.isDigit = true := by
  intro c hc
  rcases mem_append.mp hc with hc | hc
  · rw [(mem_replicate.mp hc).2]
    decide
  · exact Nat.isDigit_of_mem_toDigits (by decide) (by decide) hc

theorem ofDigitChars_padded (width n : ℕ) : Nat.ofDigitChars 10 (padded width n) 0 = n := by
  rw [padded, Nat.ofDigitChars_append, Nat.ofDigitChars_replicate_zero, Nat.mul_zero,
    Nat.ofDigitChars_ten_toDigits]

variable {width n : ℕ}

theorem padded_inj {m : ℕ} (h : padded width m = padded width n) : m = n := by
  rw [← ofDigitChars_padded width m, ← ofDigitChars_padded width n, h]

variable {x y : List Char}

theorem padded_append_inj {m : ℕ} (hx : EndsBefore Char.isDigit x) (hy : EndsBefore Char.isDigit y)
    (h : padded width m ++ x = padded width n ++ y) : m = n ∧ x = y := by
  obtain ⟨hdigits, hrest⟩ := block_append_inj Char.isDigit _ _ x y (padded_isDigit width m)
    (padded_isDigit width n) hx hy h
  exact ⟨padded_inj hdigits, hrest⟩

theorem padded_ne_nil : padded width n ≠ [] := by
  simp [padded, Nat.toDigits_ne_nil]

theorem minus_cons_ne_padded : '-' :: x ≠ padded width n ++ y := by
  intro h
  cases hp : padded width n with
  | nil => exact padded_ne_nil hp
  | cons c rest =>
    rw [hp, cons_append] at h
    have hc := padded_isDigit width n c (by simp [hp])
    rw [← (List.cons.inj h).1] at hc
    exact absurd hc (by decide)

variable {m : ℤ}

theorem signedPadded_append_inj {n : ℤ} (hx : EndsBefore Char.isDigit x)
    (hy : EndsBefore Char.isDigit y) (h : signedPadded width m ++ x = signedPadded width n ++ y) :
    m = n ∧ x = y := by
  cases m with
  | ofNat m =>
    cases n with
    | ofNat n =>
      obtain ⟨hmn, hxy⟩ := padded_append_inj hx hy h
      exact ⟨by rw [hmn], hxy⟩
    | negSucc n => exact absurd h.symm minus_cons_ne_padded
  | negSucc m =>
    cases n with
    | ofNat n => exact absurd h minus_cons_ne_padded
    | negSucc n =>
      simp only [signedPadded, cons_append, List.cons.injEq, true_and] at h
      obtain ⟨hmn, hxy⟩ := padded_append_inj hx hy h
      exact ⟨by rw [Nat.succ.inj hmn], hxy⟩

theorem padded_length (width n : ℕ) (hwidth : 0 < width) (hn : n < 10 ^ width) :
    (padded width n).length = width := by
  have hlen := (Nat.length_toDigits_le_iff (b := 10) (by decide) hwidth).mpr hn
  simp only [padded, length_append, length_replicate]
  omega

theorem rtakeWhile_zeros (l : List Char) :
    l.rtakeWhile (· == '0') = List.replicate (l.rtakeWhile (· == '0')).length '0' := by
  apply eq_replicate_of_mem
  intro c hc
  simpa using mem_rtakeWhile_imp hc

/-- Trailing zeros can be put back when the length is known. -/
theorem rdropWhile_zeros_inj (a b : List Char) (hlen : a.length = b.length)
    (h : a.rdropWhile (· == '0') = b.rdropWhile (· == '0')) : a = b := by
  have ha : a.rdropWhile (· == '0') ++ a.rtakeWhile (· == '0') = a :=
    rdropWhile_append_rtakeWhile
  have hb : b.rdropWhile (· == '0') ++ b.rtakeWhile (· == '0') = b :=
    rdropWhile_append_rtakeWhile
  have hcount : (a.rtakeWhile (· == '0')).length = (b.rtakeWhile (· == '0')).length := by
    have hla := congrArg List.length ha
    have hlb := congrArg List.length hb
    simp only [length_append, h] at hla hlb
    omega
  have htail : a.rtakeWhile (· == '0') = b.rtakeWhile (· == '0') := by
    rw [rtakeWhile_zeros a, rtakeWhile_zeros b, hcount]
  exact ha.symm.trans ((congrArg₂ (· ++ ·) h htail).trans hb)

theorem fraction_append_inj {m : ℕ} (hm : m < 1000000000) (hn : n < 1000000000)
    (hx : EndsDecimal x) (hy : EndsDecimal y) (h : fraction m ++ x = fraction n ++ y) :
    m = n ∧ x = y := by
  have hdot : ∀ z t : List Char, EndsDecimal z → z ≠ '.' :: t := by
    intro z t hz heq
    exact absurd (hz '.' (by simp [heq])) (by decide)
  unfold fraction at h
  by_cases hm0 : m = 0
  · by_cases hn0 : n = 0
    · simp only [hm0, hn0, if_true, nil_append] at h
      exact ⟨by omega, h⟩
    · simp only [hm0, hn0, if_true, if_false, nil_append, cons_append] at h
      exact absurd h (hdot x _ hx)
  · by_cases hn0 : n = 0
    · simp only [hm0, hn0, if_true, if_false, nil_append, cons_append] at h
      exact absurd h.symm (hdot y _ hy)
    · simp only [hm0, hn0, if_false, cons_append, List.cons.injEq, true_and] at h
      have hdigits : ∀ k, ∀ c ∈ (padded 9 k).rdropWhile (· == '0'), c.isDigit = true :=
        fun k c hc => padded_isDigit 9 k c ((List.rdropWhile_prefix _ _).subset hc)
      obtain ⟨htrim, hxy⟩ := block_append_inj Char.isDigit _ _ x y (hdigits m) (hdigits n)
        hx.digit hy.digit h
      have hpadded := rdropWhile_zeros_inj (padded 9 m) (padded 9 n) (by
        rw [padded_length 9 m (by decide) hm, padded_length 9 n (by decide) hn]) htrim
      exact ⟨padded_inj hpadded, hxy⟩

theorem endsBefore_cons (stop : Char → Bool) (c : Char) (rest : List Char)
    (h : stop c = false) : EndsBefore stop (c :: rest) := by
  intro d hd
  rw [← Option.some.inj hd]
  exact h

theorem endsBefore_fraction (hx : EndsDecimal x) : EndsBefore Char.isDigit (fraction n ++ x) := by
  unfold fraction
  split
  · exact hx.digit
  · exact endsBefore_cons _ _ _ (by decide)

theorem dateChars_append_inj {n : ℤ} (hx : EndsBefore Char.isDigit x)
    (hy : EndsBefore Char.isDigit y) (h : dateChars m ++ x = dateChars n ++ y) :
    m / nanosPerDay = n / nanosPerDay ∧ x = y := by
  have hdash : ∀ rest, EndsBefore Char.isDigit ('-' :: rest) :=
    fun rest => endsBefore_cons _ _ _ (by decide)
  have hm := civil_bounds (m / nanosPerDay + epochDay)
  have hn := civil_bounds (n / nanosPerDay + epochDay)
  simp only [dateChars, append_assoc, cons_append] at h
  obtain ⟨hyear, h⟩ := signedPadded_append_inj (hdash _) (hdash _) h
  obtain ⟨hmonth, h⟩ := padded_append_inj (hdash _) (hdash _) (List.cons.inj h).2
  obtain ⟨hday, hxy⟩ := padded_append_inj hx hy (List.cons.inj h).2
  have hdate := date_civil (m / nanosPerDay + epochDay)
  rw [hyear, show (civil (m / nanosPerDay + epochDay)).month =
    (civil (n / nanosPerDay + epochDay)).month by omega,
    show (civil (m / nanosPerDay + epochDay)).day =
    (civil (n / nanosPerDay + epochDay)).day by omega, date_civil] at hdate
  exact ⟨by omega, hxy⟩

theorem clockChars_append_inj {n : ℤ} (hx : EndsDecimal x) (hy : EndsDecimal y)
    (h : clockChars m ++ x = clockChars n ++ y) :
    m % nanosPerDay = n % nanosPerDay ∧ x = y := by
  have hcolon : ∀ rest, EndsBefore Char.isDigit (':' :: rest) :=
    fun rest => endsBefore_cons _ _ _ (by decide)
  simp only [clockChars, append_assoc, cons_append] at h
  obtain ⟨hhour, h⟩ := padded_append_inj (hcolon _) (hcolon _) h
  obtain ⟨hminute, h⟩ := padded_append_inj (hcolon _) (hcolon _) (List.cons.inj h).2
  obtain ⟨hsecond, h⟩ := padded_append_inj (endsBefore_fraction hx)
    (endsBefore_fraction hy) (List.cons.inj h).2
  obtain ⟨hnanos, hxy⟩ := fraction_append_inj (by omega) (by omega) hx hy h
  unfold nanosPerDay at *
  exact ⟨by omega, hxy⟩

/-- Date and clock around a separator determine the instant and the rest of the text. -/
theorem stamp_append_inj {sep : Char} (hsep : sep.isDigit = false) {n : ℤ}
    (hx : EndsDecimal x) (hy : EndsDecimal y)
    (h : dateChars m ++ sep :: (clockChars m ++ x) = dateChars n ++ sep :: (clockChars n ++ y)) :
    m = n ∧ x = y := by
  obtain ⟨hdays, h⟩ := dateChars_append_inj (endsBefore_cons _ _ _ hsep)
    (endsBefore_cons _ _ _ hsep) h
  obtain ⟨hclock, hxy⟩ := clockChars_append_inj hx hy (List.cons.inj h).2
  have hm := Int.mul_ediv_add_emod m nanosPerDay
  have hn := Int.mul_ediv_add_emod n nanosPerDay
  rw [hdays, hclock] at hm
  exact ⟨hm.symm.trans hn, hxy⟩

theorem rfc3339Nano_append_inj {n : ℤ} (h : rfc3339Nano m ++ x = rfc3339Nano n ++ y) :
    m = n ∧ x = y := by
  have hzulu : ∀ rest, EndsDecimal ('Z' :: rest) :=
    fun rest => endsBefore_cons _ _ _ (by decide)
  simp only [rfc3339Nano, append_assoc, cons_append, nil_append] at h
  obtain ⟨hmn, hxy⟩ := stamp_append_inj (by decide) (hzulu x) (hzulu y) h
  exact ⟨hmn, (List.cons.inj hxy).2⟩

end KnowledgeEngine.TimeText
