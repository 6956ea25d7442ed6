import Mathlib.Algebra.Group.Int.Defs
import Mathlib.Algebra.Group.Nat.Defs

/-!
Fixed-width signed arithmetic and decimal text, as the Go language and its strconv
package define them. A machine integer is an integer reduced into its signed
range, so arithmetic on values that fit is the arithmetic of the integers. The
decimal text of an integer in range parses back to that integer.
-/

namespace KnowledgeEngine.MachineNumbers

/-- The value a 64-bit signed operation stores for an exact result. -/
def wrap64 (x : ℤ) : ℤ := Int.bmod x (2 ^ 64)

/-- The conversion `int32(x)`. -/
def wrap32 (x : ℤ) : ℤ := Int.bmod x (2 ^ 32)

def Fits64 (x : ℤ) : Prop := -2 ^ 63 ≤ x ∧ x < 2 ^ 63

instance (x : ℤ) : Decidable (Fits64 x) := inferInstanceAs (Decidable (_ ∧ _))

variable {x : ℤ}

theorem wrap64_of_fits (h : Fits64 x) : wrap64 x = x := by
  obtain ⟨hlo, hhi⟩ := h
  apply Int.bmod_eq_of_le_mul_two <;> omega

theorem wrap32_of_fits (hlo : -2 ^ 31 ≤ x) (hhi : x < 2 ^ 31) : wrap32 x = x := by
  apply Int.bmod_eq_of_le_mul_two <;> omega

/-- The value of a non-empty run of decimal digits. -/
def digitsValue (ds : List Char) : Option ℕ :=
  if ds ≠ [] ∧ ds.all Char.isDigit = true then some (Nat.ofDigitChars 10 ds 0) else none

theorem digitsValue_toDigits (n : ℕ) : digitsValue (Nat.toDigits 10 n) = some n := by
  have hdigits : (Nat.toDigits 10 n).all Char.isDigit = true := by
    rw [List.all_eq_true]
    intro c hc
    exact Nat.isDigit_of_mem_toDigits (by decide) (by decide) hc
  rw [digitsValue, if_pos ⟨Nat.toDigits_ne_nil, hdigits⟩, Nat.ofDigitChars_ten_toDigits]

/-- The digits of an integer behind its sign. -/
def decimal : ℤ → List Char
  | .ofNat n => Nat.toDigits 10 n
  | .negSucc n => '-' :: Nat.toDigits 10 (n + 1)

def itoa (x : ℤ) : String := String.ofList (decimal x)

def fitting (x : ℤ) : Option ℤ := if Fits64 x then some x else none

def parseDecimal : List Char → Option ℤ
  | '-' :: ds => (digitsValue ds).bind fun n => fitting (-(n : ℤ))
  | '+' :: ds => (digitsValue ds).bind fun n => fitting n
  | ds => (digitsValue ds).bind fun n => fitting n

def atoi (s : String) : Option ℤ := parseDecimal s.toList

theorem fitting_fits {y : ℤ} (h : fitting x = some y) : Fits64 y := by
  obtain ⟨hfits, hsome⟩ := Option.ite_none_right_eq_some.mp h
  exact Option.some.inj hsome ▸ hfits

theorem parseDecimal_fits {text : List Char} (h : parseDecimal text = some x) : Fits64 x := by
  unfold parseDecimal at h
  split at h <;>
  · obtain ⟨n, _, hn⟩ := Option.bind_eq_some_iff.mp h
    exact fitting_fits hn

theorem fitting_of_fits (h : Fits64 x) : fitting x = some x := if_pos h

theorem toDigits_head_isDigit {n : ℕ} {c : Char} {rest : List Char}
    (h : Nat.toDigits 10 n = c :: rest) : c.isDigit = true :=
  Nat.isDigit_of_mem_toDigits (by decide : 0 < 10) (by decide) (h ▸ List.mem_cons_self)

theorem fitting_negSucc (n : ℕ) (h : Fits64 (Int.negSucc n)) :
    fitting (-((n + 1 : ℕ) : ℤ)) = some (Int.negSucc n) := by
  have hneg : -((n + 1 : ℕ) : ℤ) = Int.negSucc n := by omega
  rw [hneg, fitting_of_fits h]

theorem parseDecimal_decimal (h : Fits64 x) : parseDecimal (decimal x) = some x := by
  cases x with
  | ofNat n =>
    simp only [decimal, parseDecimal]
    split
    · next ds heq => simpa using toDigits_head_isDigit heq
    · next ds heq => simpa using toDigits_head_isDigit heq
    · rw [digitsValue_toDigits, Option.bind_some, ← Int.ofNat_eq_natCast, fitting_of_fits h]
  | negSucc n =>
    have hparse : parseDecimal ('-' :: Nat.toDigits 10 (n + 1)) =
        fitting (-((n + 1 : ℕ) : ℤ)) := by
      rw [parseDecimal, digitsValue_toDigits, Option.bind_some]
    rw [decimal, hparse, fitting_negSucc n h]

theorem atoi_itoa (h : Fits64 x) : atoi (itoa x) = some x := by
  rw [atoi, itoa, String.toList_ofList, parseDecimal_decimal h]

theorem decimal_ne_nil (x : ℤ) : decimal x ≠ [] := by
  cases x with
  | ofNat n => exact Nat.toDigits_ne_nil
  | negSucc n => simp [decimal]

theorem itoa_ne_empty : itoa x ≠ "" := by
  intro h
  apply decimal_ne_nil x
  simpa [itoa] using congrArg String.toList h

end KnowledgeEngine.MachineNumbers
