import KnowledgeEngine.MachineNumbers
import Mathlib.Data.List.TakeWhile
import Mathlib.Tactic.IntervalCases

/-!
JSON text as package encoding/json reads and writes it. Numbers keep their literal;
objects keep their members in order, duplicates included. Strings are written with
the HTML-safe escapes of json.Marshal; a lone surrogate escape reads as the
replacement character. What is written is read back, also in front of other text.
-/

namespace KnowledgeEngine.JsonText

open List MachineNumbers

inductive Json
  | null
  | bool (b : Bool)
  | num (literal : List Char)
  | str (s : String)
  | arr (items : List Json)
  | obj (members : List (String × Json))

def isSpace (c : Char) : Bool := c == ' ' || c == '\t' || c == '\r' || c == '\n'

def skipSpace (text : List Char) : List Char := text.dropWhile isSpace

def hexValue (c : Char) : Option ℕ :=
  if c.isDigit then some (c.toNat - '0'.toNat)
  else if 'a' ≤ c ∧ c ≤ 'f' then some (c.toNat - 'a'.toNat + 10)
  else if 'A' ≤ c ∧ c ≤ 'F' then some (c.toNat - 'A'.toNat + 10)
  else none

def hex4 (a b c d : Char) : Option ℕ := do
  let a ← hexValue a
  let b ← hexValue b
  let c ← hexValue c
  let d ← hexValue d
  return ((a * 16 + b) * 16 + c) * 16 + d

def simpleEscape (c : Char) : Option Char :=
  if c = '"' ∨ c = '\\' ∨ c = '/' then some c
  else if c = 'b' then some '\x08'
  else if c = 'f' then some '\x0c'
  else if c = 'n' then some '\n'
  else if c = 'r' then some '\r'
  else if c = 't' then some '\t'
  else none

/-- A character of a string literal, or the UTF-16 unit of a \u escape. -/
inductive Piece
  | char (c : Char)
  | unit (n : ℕ)

def isHigh (n : ℕ) : Bool := 0xD800 ≤ n && n < 0xDC00

def isLow (n : ℕ) : Bool := 0xDC00 ≤ n && n < 0xE000

def pairChar (high low : ℕ) : Char :=
  Char.ofNat (0x10000 + (high - 0xD800) * 0x400 + (low - 0xDC00))

/-- Join the pieces, with a high surrogate that may still find its low one. -/
def joinPieces : Option ℕ → List Piece → List Char
  | none, [] => []
  | some _, [] => ['\uFFFD']
  | none, .char c :: rest => c :: joinPieces none rest
  | some _, .char c :: rest => '\uFFFD' :: c :: joinPieces none rest
  | none, .unit n :: rest =>
    if isHigh n then joinPieces (some n) rest
    else (if isLow n then '\uFFFD' else Char.ofNat n) :: joinPieces none rest
  | some high, .unit n :: rest =>
    if isLow n then pairChar high n :: joinPieces none rest
    else if isHigh n then '\uFFFD' :: joinPieces (some n) rest
    else '\uFFFD' :: Char.ofNat n :: joinPieces none rest

/-- The pieces of a string literal after its opening quote, and the text after the
closing one. -/
def parsePieces : List Char → Option (List Piece × List Char)
  | [] => none
  | '"' :: rest => some ([], rest)
  | '\\' :: 'u' :: a :: b :: c :: d :: rest =>
    match hex4 a b c d with
    | some n => (parsePieces rest).map fun p => (.unit n :: p.1, p.2)
    | none => none
  | '\\' :: e :: rest =>
    match simpleEscape e with
    | some c => (parsePieces rest).map fun p => (.char c :: p.1, p.2)
    | none => none
  | c :: rest =>
    if c = '\\' ∨ c.toNat < 0x20 then none
    else (parsePieces rest).map fun p => (.char c :: p.1, p.2)

def parseChars (text : List Char) : Option (List Char × List Char) :=
  (parsePieces text).map fun p => (joinPieces none p.1, p.2)

def isNumberChar (c : Char) : Bool :=
  c.isDigit || c == '-' || c == '+' || c == '.' || c == 'e' || c == 'E'

def validExponent : List Char → Bool
  | [] => true
  | c :: rest =>
    (c == 'e' || c == 'E') &&
      match rest with
      | '+' :: digits | '-' :: digits => !digits.isEmpty && digits.all Char.isDigit
      | digits => !digits.isEmpty && digits.all Char.isDigit

def validFraction : List Char → Bool
  | '.' :: rest =>
    !(rest.takeWhile Char.isDigit).isEmpty && validExponent (rest.dropWhile Char.isDigit)
  | rest => validExponent rest

def validMagnitude : List Char → Bool
  | '0' :: rest => validFraction rest
  | c :: rest => c.isDigit && validFraction (rest.dropWhile Char.isDigit)
  | [] => false

/-- The literal is a JSON number. -/
def validNumber : List Char → Bool
  | '-' :: rest => validMagnitude rest
  | rest => validMagnitude rest

mutual

/-- One value and the text after it; `depth` arrays and objects may still open. -/
def parseValue : ℕ → ℕ → List Char → Option (Json × List Char)
  | 0, _, _ => none
  | fuel + 1, depth, text =>
    match skipSpace text with
    | 'n' :: 'u' :: 'l' :: 'l' :: rest => some (.null, rest)
    | 't' :: 'r' :: 'u' :: 'e' :: rest => some (.bool true, rest)
    | 'f' :: 'a' :: 'l' :: 's' :: 'e' :: rest => some (.bool false, rest)
    | '"' :: rest => (parseChars rest).map fun p => (.str (String.ofList p.1), p.2)
    | '[' :: rest =>
      if depth = 0 then none
      else match skipSpace rest with
        | ']' :: after => some (.arr [], after)
        | _ => (parseItems fuel (depth - 1) rest).map fun p => (.arr p.1, p.2)
    | '\x7b' :: rest =>
      if depth = 0 then none
      else match skipSpace rest with
        | '\x7d' :: after => some (.obj [], after)
        | _ => (parseMembers fuel (depth - 1) rest).map fun p => (.obj p.1, p.2)
    | number =>
      let literal := number.takeWhile isNumberChar
      if validNumber literal then some (.num literal, number.dropWhile isNumberChar) else none

def parseItems : ℕ → ℕ → List Char → Option (List Json × List Char)
  | 0, _, _ => none
  | fuel + 1, depth, text =>
    match parseValue fuel depth text with
    | none => none
    | some (item, after) =>
      match skipSpace after with
      | ',' :: rest => (parseItems fuel depth rest).map fun p => (item :: p.1, p.2)
      | ']' :: rest => some ([item], rest)
      | _ => none

def parseMembers : ℕ → ℕ → List Char → Option (List (String × Json) × List Char)
  | 0, _, _ => none
  | fuel + 1, depth, text =>
    match skipSpace text with
    | '"' :: rest =>
      match parseChars rest with
      | none => none
      | some (key, afterKey) =>
        match skipSpace afterKey with
        | ':' :: afterColon =>
          match parseValue fuel depth afterColon with
          | none => none
          | some (value, after) =>
            match skipSpace after with
            | ',' :: more =>
              (parseMembers fuel depth more).map fun p => ((String.ofList key, value) :: p.1, p.2)
            | '\x7d' :: more => some ([(String.ofList key, value)], more)
            | _ => none
        | _ => none
    | _ => none

end

/-- The value a whole text denotes; nothing but space may follow it. -/
def parseAt (depth : ℕ) (text : List Char) : Option Json :=
  match parseValue (2 * text.length + 2) depth text with
  | some (value, rest) => if skipSpace rest = [] then some value else none
  | none => none

def maxNestingDepth : ℕ := 10000

def parse (text : List Char) : Option Json := parseAt maxNestingDepth text

def unitEscape (n : ℕ) : List Char :=
  ['\\', 'u', Nat.digitChar (n / 4096 % 16), Nat.digitChar (n / 256 % 16),
    Nat.digitChar (n / 16 % 16), Nat.digitChar (n % 16)]

/-- The letter behind the backslash of a two-character escape. -/
def escapeLetter (c : Char) : Option Char :=
  if c = '"' ∨ c = '\\' then some c
  else if c = '\x08' then some 'b'
  else if c = '\x0c' then some 'f'
  else if c = '\n' then some 'n'
  else if c = '\r' then some 'r'
  else if c = '\t' then some 't'
  else none

/-- Control and HTML characters and the JavaScript line separators. -/
def isUnsafe (c : Char) : Bool :=
  c.toNat < 0x20 || c == '<' || c == '>' || c == '&' || c.toNat == 0x2028 || c.toNat == 0x2029

/-- A character as json.Marshal writes it inside a string. -/
def escapeChar (c : Char) : List Char :=
  match escapeLetter c with
  | some letter => ['\\', letter]
  | none => if isUnsafe c then unitEscape c.toNat else [c]

def printString (s : String) : List Char := '"' :: (s.toList.flatMap escapeChar ++ ['"'])

mutual

def print : Json → List Char
  | .null => ['n', 'u', 'l', 'l']
  | .bool true => ['t', 'r', 'u', 'e']
  | .bool false => ['f', 'a', 'l', 's', 'e']
  | .num literal => literal
  | .str s => printString s
  | .arr [] => ['[', ']']
  | .arr (item :: items) => '[' :: (print item ++ printItems items)
  | .obj [] => ['\x7b', '\x7d']
  | .obj ((key, value) :: members) =>
    '\x7b' :: (printString key ++ ':' :: (print value ++ printMembers members))

def printItems : List Json → List Char
  | [] => [']']
  | item :: items => ',' :: (print item ++ printItems items)

def printMembers : List (String × Json) → List Char
  | [] => ['\x7d']
  | (key, value) :: members =>
    ',' :: (printString key ++ ':' :: (print value ++ printMembers members))

end

/-- The piece an escaped character is read as. -/
def pieceOf (c : Char) : Piece :=
  if escapeLetter c = none ∧ isUnsafe c = true then .unit c.toNat else .char c

variable {n : ℕ}

theorem hexValue_digitChar (h : n < 16) : hexValue (Nat.digitChar n) = some n := by
  interval_cases n <;> decide

theorem hex4_digitChars (n : ℕ) (h : n < 65536) :
    hex4 (Nat.digitChar (n / 4096 % 16)) (Nat.digitChar (n / 256 % 16))
      (Nat.digitChar (n / 16 % 16)) (Nat.digitChar (n % 16)) = some n := by
  unfold hex4
  rw [hexValue_digitChar (by omega), hexValue_digitChar (by omega),
    hexValue_digitChar (by omega), hexValue_digitChar (by omega)]
  simp only [Option.bind_eq_bind, Option.bind_some, Option.pure_def, Option.some.injEq]
  omega

variable {c : Char} {text : List Char}

theorem parsePieces_plain (hquote : c ≠ '"') (hslash : c ≠ '\\') (hcontrol : ¬c.toNat < 0x20) :
    parsePieces (c :: text) = (parsePieces text).map fun p => (.char c :: p.1, p.2) := by
  rw [parsePieces]
  · simp [hslash, hcontrol]
  · exact hquote
  · intros
    contradiction
  · intros
    contradiction

theorem parsePieces_unit (h : n < 65536) :
    parsePieces (unitEscape n ++ text) =
      (parsePieces text).map fun p => (.unit n :: p.1, p.2) := by
  simp only [unitEscape, cons_append, nil_append, parsePieces, hex4_digitChars n h]

theorem escapeLetter_some {letter : Char} (h : escapeLetter c = some letter) :
    simpleEscape letter = some c ∧ letter ≠ 'u' := by
  unfold escapeLetter at h
  split_ifs at h with hquote hb hf hn hr ht
  · rcases hquote with rfl | rfl <;> cases h <;> decide
  all_goals
    subst_vars
    cases h
    decide

theorem escapeLetter_none (c : Char) (h : escapeLetter c = none) : c ≠ '"' ∧ c ≠ '\\' := by
  unfold escapeLetter at h
  split_ifs at h with hquote
  exact not_or.mp hquote

theorem isUnsafe_lt (h : isUnsafe c = true) : c.toNat < 0xD800 := by
  simp only [isUnsafe, Bool.or_eq_true, decide_eq_true_eq, beq_iff_eq] at h
  rcases h with ((((h | rfl) | rfl) | rfl) | h) | h
  · omega
  · decide
  · decide
  · decide
  · omega
  · omega

/-- An escaped character reads as one piece. -/
theorem parsePieces_escapeChar (c : Char) (text : List Char) :
    parsePieces (escapeChar c ++ text) =
      (parsePieces text).map fun p => (pieceOf c :: p.1, p.2) := by
  unfold escapeChar pieceOf
  cases hletter : escapeLetter c with
  | some letter =>
    obtain ⟨hback, hu⟩ := escapeLetter_some hletter
    simp only [cons_append, nil_append, reduceCtorEq, false_and, if_false]
    rw [parsePieces]
    · simp only [hback]
    · intros
      contradiction
  | none =>
    obtain ⟨hquote, hslash⟩ := escapeLetter_none c hletter
    by_cases hescaped : isUnsafe c = true
    · have hlt := isUnsafe_lt hescaped
      simp only [hescaped, if_true, and_self]
      exact parsePieces_unit (by omega)
    · rw [if_neg hescaped, if_neg fun h => hescaped h.2]
      apply parsePieces_plain hquote hslash
      intro hcontrol
      exact hescaped (by simp [isUnsafe, hcontrol])

theorem parsePieces_escaped (chars text : List Char) :
    parsePieces (chars.flatMap escapeChar ++ '"' :: text) = some (chars.map pieceOf, text) := by
  induction chars with
  | nil => rfl
  | cons c rest ih =>
    rw [flatMap_cons, append_assoc, parsePieces_escapeChar, ih]
    rfl

theorem joinPieces_pieceOf (chars : List Char) : joinPieces none (chars.map pieceOf) = chars := by
  induction chars with
  | nil => rfl
  | cons c rest ih =>
    rw [map_cons, pieceOf]
    split
    · rename_i hunit
      have hlt := isUnsafe_lt hunit.2
      have hhigh : isHigh c.toNat = false := by simp [isHigh]; omega
      have hlow : isLow c.toNat = false := by simp [isLow]; omega
      simp only [joinPieces, hhigh, hlow, Bool.false_eq_true, if_false, ih, Char.ofNat_toNat]
    · simp only [joinPieces, ih]

theorem parseChars_escaped {s : String} :
    parseChars (s.toList.flatMap escapeChar ++ '"' :: text) = some (s.toList, text) := by
  simp only [parseChars, parsePieces_escaped, Option.map_some, joinPieces_pieceOf]

mutual

/-- The calls the parser nests to read a value. -/
def Json.calls : Json → ℕ
  | .arr items => callsItems items + 1
  | .obj members => callsMembers members + 1
  | _ => 1

def callsItems : List Json → ℕ
  | [] => 0
  | item :: items => item.calls + callsItems items + 1

def callsMembers : List (String × Json) → ℕ
  | [] => 0
  | (_, value) :: members => value.calls + callsMembers members + 1

end

mutual

def Json.nesting : Json → ℕ
  | .arr items => nestingItems items + 1
  | .obj members => nestingMembers members + 1
  | _ => 0

def nestingItems : List Json → ℕ
  | [] => 0
  | item :: items => max item.nesting (nestingItems items)

def nestingMembers : List (String × Json) → ℕ
  | [] => 0
  | (_, value) :: members => max value.nesting (nestingMembers members)

end

def NumberLiteral (literal : List Char) : Prop :=
  validNumber literal = true ∧ ∀ c ∈ literal, isNumberChar c = true

mutual

/-- Every number literal in the value is one. -/
def Json.Valid : Json → Prop
  | .num literal => NumberLiteral literal
  | .arr items => ValidItems items
  | .obj members => ValidMembers members
  | _ => True

def ValidItems : List Json → Prop
  | [] => True
  | item :: items => item.Valid ∧ ValidItems items

def ValidMembers : List (String × Json) → Prop
  | [] => True
  | (_, value) :: members => value.Valid ∧ ValidMembers members

end

/-- The text does not continue a number. -/
def EndsNumber (text : List Char) : Prop := ∀ c ∈ text.head?, isNumberChar c = false

theorem numberLiteral_head {literal : List Char} (h : NumberLiteral literal) :
    ∃ c rest, literal = c :: rest ∧ (c = '-' ∨ c.isDigit = true) := by
  obtain ⟨hvalid, _⟩ := h
  cases literal with
  | nil => simp [validNumber, validMagnitude] at hvalid
  | cons c rest =>
    refine ⟨c, rest, rfl, ?_⟩
    by_cases hminus : c = '-'
    · exact Or.inl hminus
    · right
      by_cases hzero : c = '0'
      · rw [hzero]
        decide
      · rw [validNumber, validMagnitude] at hvalid
        · exact (Bool.and_eq_true_iff.mp hvalid).1
        · exact hzero
        · intro rest' heq
          exact hminus (List.cons.inj heq).1

/-- The characters a written value can start with. -/
def startsValue (c : Char) : Bool :=
  c == 'n' || c == 't' || c == 'f' || c == '"' || c == '[' || c == '\x7b' || c == '-' || c.isDigit

theorem print_head {j : Json} (h : j.Valid) :
    ∃ c rest, print j = c :: rest ∧ startsValue c = true := by
  cases j with
  | null => exact ⟨'n', _, rfl, by decide⟩
  | bool b => cases b <;> exact ⟨_, _, rfl, by decide⟩
  | num literal =>
    obtain ⟨c, rest, hliteral, hc⟩ := numberLiteral_head h
    refine ⟨c, rest, hliteral, ?_⟩
    rcases hc with rfl | hc
    · decide
    · simp [startsValue, hc]
  | str s => exact ⟨'"', _, rfl, by decide⟩
  | arr items =>
    cases items with
    | nil => exact ⟨'[', _, rfl, by decide⟩
    | cons item items => exact ⟨'[', _, rfl, by decide⟩
  | obj members =>
    cases members with
    | nil => exact ⟨'\x7b', _, rfl, by decide⟩
    | cons member members => exact ⟨'\x7b', _, rfl, by decide⟩

theorem skipSpace_cons (c : Char) (text : List Char) (h : isSpace c = false) :
    skipSpace (c :: text) = c :: text := by
  simp [skipSpace, List.dropWhile, h]

theorem startsValue_not_space (c : Char) (h : startsValue c = true) : isSpace c = false := by
  by_contra hspace
  simp only [Bool.not_eq_false, isSpace, Bool.or_eq_true, beq_iff_eq] at hspace
  rcases hspace with ((rfl | rfl) | rfl) | rfl <;> exact absurd h (by decide)

theorem skipSpace_print (j : Json) (h : j.Valid) (text : List Char) :
    skipSpace (print j ++ text) = print j ++ text := by
  obtain ⟨c, rest, hprint, hc⟩ := print_head h
  rw [hprint, cons_append, skipSpace_cons c _ (startsValue_not_space c hc)]

theorem takeWhile_number {literal : List Char} (h : ∀ c ∈ literal, isNumberChar c = true)
    (hend : EndsNumber text) :
    (literal ++ text).takeWhile isNumberChar = literal ∧
      (literal ++ text).dropWhile isNumberChar = text := by
  rw [takeWhile_append_of_pos h, dropWhile_append_of_pos h]
  cases text with
  | nil => simp
  | cons c rest =>
    have hc := hend c rfl
    simp [List.takeWhile, List.dropWhile, hc]

theorem endsNumber_cons (h : isNumberChar c = false) : EndsNumber (c :: text) := by
  intro d hd
  rw [← Option.some.inj hd]
  exact h

variable {items : List Json}

theorem endsNumber_printItems : EndsNumber (printItems items ++ text) := by
  cases items <;> exact endsNumber_cons (by decide)

theorem endsNumber_printMembers (members : List (String × Json)) (text : List Char) :
    EndsNumber (printMembers members ++ text) := by
  cases members with
  | nil => exact endsNumber_cons (by decide)
  | cons member members => exact endsNumber_cons (by decide)

theorem skipSpace_printString {s : String} :
    skipSpace (printString s ++ text) =
      '"' :: (s.toList.flatMap escapeChar ++ '"' :: text) := by
  rw [printString, cons_append, skipSpace_cons _ _ (by decide), append_assoc]
  rfl

theorem toDigits_head_ne_zero (n : ℕ) (hn : 0 < n) : (Nat.toDigits 10 n).head? ≠ some '0' := by
  induction n using Nat.strongRecOn with
  | ind n ih =>
    by_cases hsmall : n < 10
    · rw [Nat.toDigits_of_lt_base hsmall]
      simp only [List.head?_cons, ne_eq, Option.some.injEq, Nat.digitChar_eq_zero]
      omega
    · rw [Nat.toDigits_of_base_le (by decide) (by omega)]
      have hhead := ih (n / 10) (by omega) (by omega)
      cases hdigits : Nat.toDigits 10 (n / 10) with
      | nil => exact absurd hdigits Nat.toDigits_ne_nil
      | cons c rest =>
        rw [hdigits] at hhead
        exact hhead

theorem validMagnitude_toDigits (n : ℕ) : validMagnitude (Nat.toDigits 10 n) = true := by
  have hdigit : ∀ c ∈ Nat.toDigits 10 n, c.isDigit = true :=
    fun c hc => Nat.isDigit_of_mem_toDigits (by decide) (by decide) hc
  by_cases hzero : n = 0
  · rw [hzero]
    decide
  · have hhead := toDigits_head_ne_zero n (by omega)
    cases hdigits : Nat.toDigits 10 n with
    | nil => exact absurd hdigits Nat.toDigits_ne_nil
    | cons c rest =>
      rw [hdigits] at hhead hdigit
      have hrest : rest.dropWhile Char.isDigit = [] := by
        rw [dropWhile_eq_nil_iff]
        exact fun d hd => hdigit d (mem_cons_of_mem _ hd)
      rw [validMagnitude]
      · rw [hdigit c mem_cons_self, hrest]
        rfl
      · intro hc
        exact hhead (by rw [hc]; rfl)

theorem numberLiteral_decimal {x : ℤ} : NumberLiteral (decimal x) := by
  have hchars : ∀ n, ∀ c ∈ Nat.toDigits 10 n, isNumberChar c = true := by
    intro n c hc
    simp [isNumberChar, Nat.isDigit_of_mem_toDigits (by decide) (by decide) hc]
  cases x with
  | ofNat n =>
    refine ⟨?_, hchars n⟩
    have hvalid := validMagnitude_toDigits n
    rw [decimal, validNumber]
    · exact hvalid
    · intro rest heq
      have hc := Nat.isDigit_of_mem_toDigits (b := 10) (n := n) (c := '-') (by decide) (by decide)
        (by rw [heq]; exact mem_cons_self)
      exact absurd hc (by decide)
  | negSucc n =>
    refine ⟨validMagnitude_toDigits (n + 1), ?_⟩
    intro c hc
    rcases mem_cons.mp hc with rfl | hc
    · decide
    · exact hchars (n + 1) c hc

theorem validItems_iff : ValidItems items ↔ ∀ item ∈ items, item.Valid := by
  induction items <;> simp [ValidItems, *]

variable {members : List (String × Json)}

theorem validMembers_iff : ValidMembers members ↔ ∀ m ∈ members, m.2.Valid := by
  induction members <;> simp_all [ValidMembers]

theorem nestingItems_le_iff : nestingItems items ≤ n ↔ ∀ item ∈ items, item.nesting ≤ n := by
  induction items <;> simp [nestingItems, *]

theorem nestingMembers_le_iff : nestingMembers members ≤ n ↔ ∀ m ∈ members, m.2.nesting ≤ n := by
  induction members <;> simp_all [nestingMembers]

end KnowledgeEngine.JsonText
