import Mathlib.Tactic.IntervalCases

/-!
Base64 as package encoding/base64 writes and reads it: the standard alphabet with
padding and the URL alphabet without. Line breaks in the input are skipped, bits
left over in the last group are ignored. Decoding undoes encoding.
-/

namespace KnowledgeEngine.Base64

/-- StdEncoding pads; RawURLEncoding does not. -/
inductive Encoding
  | std
  | rawURL
deriving DecidableEq

def symbol (e : Encoding) (n : ℕ) : Char :=
  if n < 26 then Char.ofNat (65 + n)
  else if n < 52 then Char.ofNat (71 + n)
  else if n < 62 then Char.ofNat (n - 4)
  else match e with
    | .std => if n = 62 then '+' else '/'
    | .rawURL => if n = 62 then '-' else '_'

def sextet (e : Encoding) (c : Char) : Option ℕ :=
  if 'A' ≤ c ∧ c ≤ 'Z' then some (c.toNat - 65)
  else if 'a' ≤ c ∧ c ≤ 'z' then some (c.toNat - 71)
  else if '0' ≤ c ∧ c ≤ '9' then some (c.toNat + 4)
  else match e with
    | .std => if c = '+' then some 62 else if c = '/' then some 63 else none
    | .rawURL => if c = '-' then some 62 else if c = '_' then some 63 else none

def padding : Encoding → ℕ → List Char
  | .std, n => List.replicate n '='
  | .rawURL, _ => []

def encode (e : Encoding) : List UInt8 → List Char
  | a :: b :: c :: rest =>
    symbol e (a.toNat / 4) :: symbol e (a.toNat % 4 * 16 + b.toNat / 16) ::
      symbol e (b.toNat % 16 * 4 + c.toNat / 64) :: symbol e (c.toNat % 64) :: encode e rest
  | [a, b] =>
    symbol e (a.toNat / 4) :: symbol e (a.toNat % 4 * 16 + b.toNat / 16) ::
      symbol e (b.toNat % 16 * 4) :: padding e 1
  | [a] => symbol e (a.toNat / 4) :: symbol e (a.toNat % 4 * 16) :: padding e 2
  | [] => []

def byte1 (p q : ℕ) : UInt8 := UInt8.ofNat (p * 4 + q / 16)

def byte2 (q r : ℕ) : UInt8 := UInt8.ofNat (q % 16 * 16 + r / 4)

def byte3 (r s : ℕ) : UInt8 := UInt8.ofNat (r % 4 * 64 + s)

/-- Decode whole groups of four, then what the encoding allows at the end. -/
def decodeGroups (e : Encoding) : List Char → Option (List UInt8)
  | [] => some []
  | [p, q] =>
    match e with
    | .std => none
    | .rawURL => do
      let p ← sextet e p
      let q ← sextet e q
      return [byte1 p q]
  | [p, q, r] =>
    match e with
    | .std => none
    | .rawURL => do
      let p ← sextet e p
      let q ← sextet e q
      let r ← sextet e r
      return [byte1 p q, byte2 q r]
  | p :: q :: r :: s :: rest =>
    if e = .std ∧ s = '=' then
      if rest ≠ [] then none
      else if r = '=' then do
        let p ← sextet e p
        let q ← sextet e q
        return [byte1 p q]
      else do
        let p ← sextet e p
        let q ← sextet e q
        let r ← sextet e r
        return [byte1 p q, byte2 q r]
    else do
      let p ← sextet e p
      let q ← sextet e q
      let r ← sextet e r
      let s ← sextet e s
      let tail ← decodeGroups e rest
      return byte1 p q :: byte2 q r :: byte3 r s :: tail
  | [_] => none

def decode (e : Encoding) (text : List Char) : Option (List UInt8) :=
  decodeGroups e (text.filter fun c => c ≠ '\r' ∧ c ≠ '\n')

theorem sextet_symbol (e : Encoding) (n : ℕ) (h : n < 64) : sextet e (symbol e n) = some n := by
  cases e <;> interval_cases n <;> decide

theorem symbol_ne (e : Encoding) (n : ℕ) (h : n < 64) :
    symbol e n ≠ '=' ∧ symbol e n ≠ '\r' ∧ symbol e n ≠ '\n' := by
  cases e <;> interval_cases n <;> decide

theorem byte_of_toNat (b : UInt8) (n : ℕ) (h : n = b.toNat) : UInt8.ofNat n = b := by
  rw [h, UInt8.ofNat_toNat]

/-- What is written are symbols and padding. -/
theorem mem_encode_cases {e : Encoding} {bytes : List UInt8} :
    ∀ c ∈ encode e bytes, (∃ n, n < 64 ∧ c = symbol e n) ∨ e = .std ∧ c = '=' := by
  have hpad : ∀ n, ∀ c ∈ padding e n, e = .std ∧ c = '=' := by
    intro n c hc
    cases e with
    | std => exact ⟨rfl, (List.mem_replicate.mp hc).2⟩
    | rawURL => simp [padding] at hc
  induction bytes using encode.induct with
  | case1 a b c rest ih =>
    have ha := a.toNat_lt
    have hb := b.toNat_lt
    have hc := c.toNat_lt
    intro d hd
    simp only [encode, List.mem_cons] at hd
    rcases hd with rfl | rfl | rfl | rfl | hd
    · exact .inl ⟨_, by omega, rfl⟩
    · exact .inl ⟨_, by omega, rfl⟩
    · exact .inl ⟨_, by omega, rfl⟩
    · exact .inl ⟨_, by omega, rfl⟩
    · exact ih d hd
  | case2 a b =>
    have ha := a.toNat_lt
    have hb := b.toNat_lt
    intro d hd
    simp only [encode, List.mem_cons] at hd
    rcases hd with rfl | rfl | rfl | hd
    · exact .inl ⟨_, by omega, rfl⟩
    · exact .inl ⟨_, by omega, rfl⟩
    · exact .inl ⟨_, by omega, rfl⟩
    · exact .inr (hpad 1 d hd)
  | case3 a =>
    have ha := a.toNat_lt
    intro d hd
    simp only [encode, List.mem_cons] at hd
    rcases hd with rfl | rfl | hd
    · exact .inl ⟨_, by omega, rfl⟩
    · exact .inl ⟨_, by omega, rfl⟩
    · exact .inr (hpad 2 d hd)
  | case4 => simp [encode]

theorem mem_encode {e : Encoding} {bytes : List UInt8} :
    ∀ c ∈ encode e bytes, c ≠ '\r' ∧ c ≠ '\n' := by
  intro c hc
  rcases mem_encode_cases c hc with ⟨n, hn, rfl⟩ | ⟨-, rfl⟩
  · exact (symbol_ne e n hn).2
  · decide

theorem decodeGroups_encode (e : Encoding) (bytes : List UInt8) :
    decodeGroups e (encode e bytes) = some bytes := by
  induction bytes using encode.induct with
  | case1 a b c rest ih =>
    have ha := a.toNat_lt
    have hb := b.toNat_lt
    have hc := c.toNat_lt
    have hlast := (symbol_ne e (c.toNat % 64) (by omega)).1
    rw [encode, decodeGroups, if_neg fun h => hlast h.2, sextet_symbol _ _ (by omega),
      sextet_symbol _ _ (by omega), sextet_symbol _ _ (by omega), sextet_symbol _ _ (by omega), ih]
    simp only [Option.bind_eq_bind, Option.bind_some, Option.pure_def, byte1, byte2, byte3]
    rw [byte_of_toNat a _ (by omega), byte_of_toNat b _ (by omega), byte_of_toNat c _ (by omega)]
  | case2 a b =>
    have ha := a.toNat_lt
    have hb := b.toNat_lt
    have hthird := (symbol_ne e (b.toNat % 16 * 4) (by omega)).1
    cases e <;>
    · simp only [encode, padding, List.replicate, decodeGroups, true_and, if_true, ne_eq,
        not_true_eq_false, if_false, hthird]
      rw [sextet_symbol _ _ (by omega), sextet_symbol _ _ (by omega), sextet_symbol _ _ (by omega)]
      simp only [Option.bind_eq_bind, Option.bind_some, Option.pure_def, byte1, byte2]
      rw [byte_of_toNat a _ (by omega), byte_of_toNat b _ (by omega)]
  | case3 a =>
    have ha := a.toNat_lt
    cases e <;>
    · simp only [encode, padding, List.replicate, decodeGroups, true_and, if_true, ne_eq,
        not_true_eq_false, if_false]
      rw [sextet_symbol _ _ (by omega), sextet_symbol _ _ (by omega)]
      simp only [Option.bind_eq_bind, Option.bind_some, Option.pure_def, byte1]
      rw [byte_of_toNat a _ (by omega)]
  | case4 => rfl

theorem decode_encode (e : Encoding) (bytes : List UInt8) :
    decode e (encode e bytes) = some bytes := by
  have hkeep : (encode e bytes).filter (fun c => c ≠ '\r' ∧ c ≠ '\n') = encode e bytes := by
    rw [List.filter_eq_self]
    intro c hc
    exact decide_eq_true (mem_encode c hc)
  rw [decode, hkeep, decodeGroups_encode]

end KnowledgeEngine.Base64
