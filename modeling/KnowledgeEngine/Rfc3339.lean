import KnowledgeEngine.TimeText

/-!
Reading an RFC 3339 text as package time does. The year has four digits, the hour one
or two, the other fields two; a fraction of a second may follow a dot or a comma and is
cut after nine digits. What is read is the wall clock, as the instant UTC shows it, and
the offset in seconds, absent for Z.
-/

namespace KnowledgeEngine.Rfc3339

open Calendar TimeText

/-- Two digits, or one where that is allowed. -/
def getnum (fixed : Bool) : List Char → Option (ℕ × List Char)
  | a :: b :: rest =>
    if a.isDigit && b.isDigit then some (Nat.ofDigitChars 10 [a, b] 0, rest)
    else if a.isDigit && !fixed then some (Nat.ofDigitChars 10 [a] 0, b :: rest)
    else none
  | [a] => if a.isDigit && !fixed then some (Nat.ofDigitChars 10 [a] 0, []) else none
  | [] => none

def skip (sep : Char) : List Char → Option (List Char)
  | c :: rest => if c = sep then some rest else none
  | [] => none

def longYear : List Char → Option (ℕ × List Char)
  | a :: b :: c :: d :: rest =>
    if [a, b, c, d].all Char.isDigit then some (Nat.ofDigitChars 10 [a, b, c, d] 0, rest) else none
  | _ => none

def parseNanoseconds (digits : List Char) : ℕ :=
  Nat.ofDigitChars 10 (digits.take 9) 0 * 10 ^ (9 - (digits.take 9).length)

/-- A fraction of a second the layout does not mention. -/
def fractionalSecond : List Char → ℕ × List Char
  | point :: d :: rest =>
    if (point = '.' ∨ point = ',') ∧ d.isDigit then
      (parseNanoseconds ((d :: rest).takeWhile Char.isDigit), (d :: rest).dropWhile Char.isDigit)
    else (0, point :: d :: rest)
  | rest => (0, rest)

def isSign (c : Char) : Bool := c == '+' || c == '-'

/-- Z, or a sign, hours and minutes; nothing may follow. -/
def zone : List Char → Option (Option ℤ)
  | ['Z'] => some none
  | [sign, a, b, colon, c, d] => do
    let (hours, _) ← getnum true [a, b]
    let (minutes, _) ← getnum true [c, d]
    if colon = ':' ∧ isSign sign ∧ hours ≤ 24 ∧ minutes ≤ 60 then
      let offset : ℤ := (hours * 60 + minutes) * 60
      some (some (if sign = '-' then -offset else offset))
    else none
  | _ => none

def daysIn (year month : ℤ) : ℤ := date year (month + 1) 1 - date year month 1

def clock (hour min sec nanos : ℕ) : ℤ :=
  (((hour * 60 + min) * 60 + sec : ℕ) : ℤ) * 1000000000 + nanos

/-- Wall clock in nanoseconds since the Unix epoch, and the offset. -/
def parse (text : List Char) : Option (ℤ × Option ℤ) := do
  let (year, text) ← longYear text
  let text ← skip '-' text
  let (month, text) ← getnum true text
  let text ← skip '-' text
  let (day, text) ← getnum true text
  let text ← skip 'T' text
  let (hour, text) ← getnum false text
  let text ← skip ':' text
  let (min, text) ← getnum true text
  let text ← skip ':' text
  let (sec, text) ← getnum true text
  let (nanos, text) := fractionalSecond text
  let offset ← zone text
  if 1 ≤ month ∧ month ≤ 12 ∧ hour < 24 ∧ min < 60 ∧ sec < 60 ∧ 1 ≤ day ∧
      (day : ℤ) ≤ daysIn year month then
    some ((date year month day - epochDay) * nanosPerDay + clock hour min sec nanos, offset)
  else none

example : parse "2024-02-29T9:30:00,5+05:30".toList =
    some (1709199000500000000, some 19800) := by
  decide +kernel

/-- Offsets are whole minutes. -/
theorem zone_minutes {text : List Char} {offset : ℤ} (h : zone text = some (some offset)) :
    ∃ minutes : ℤ, offset = minutes * 60 := by
  unfold zone at h
  split at h
  · simp at h
  · simp only [Option.bind_eq_bind, Option.bind_eq_some_iff] at h
    obtain ⟨⟨hours, _⟩, _, ⟨minutes, _⟩, _, h⟩ := h
    simp only [Option.ite_none_right_eq_some, Option.some.injEq] at h
    obtain ⟨_, rfl⟩ := h
    split
    · exact ⟨-(hours * 60 + minutes), by omega⟩
    · exact ⟨hours * 60 + minutes, rfl⟩
  · simp at h

theorem parse_minutes {text : List Char} {wall offset : ℤ}
    (h : parse text = some (wall, some offset)) : ∃ minutes : ℤ, offset = minutes * 60 := by
  unfold parse at h
  obtain ⟨⟨year, afterYear⟩, -, h⟩ := Option.bind_eq_some_iff.mp h
  obtain ⟨beforeMonth, -, h⟩ := Option.bind_eq_some_iff.mp h
  obtain ⟨⟨month, afterMonth⟩, -, h⟩ := Option.bind_eq_some_iff.mp h
  obtain ⟨beforeDay, -, h⟩ := Option.bind_eq_some_iff.mp h
  obtain ⟨⟨day, afterDay⟩, -, h⟩ := Option.bind_eq_some_iff.mp h
  obtain ⟨beforeHour, -, h⟩ := Option.bind_eq_some_iff.mp h
  obtain ⟨⟨hour, afterHour⟩, -, h⟩ := Option.bind_eq_some_iff.mp h
  obtain ⟨beforeMin, -, h⟩ := Option.bind_eq_some_iff.mp h
  obtain ⟨⟨min, afterMin⟩, -, h⟩ := Option.bind_eq_some_iff.mp h
  obtain ⟨beforeSec, -, h⟩ := Option.bind_eq_some_iff.mp h
  obtain ⟨⟨sec, afterSec⟩, -, h⟩ := Option.bind_eq_some_iff.mp h
  obtain ⟨zoned, hzone, h⟩ := Option.bind_eq_some_iff.mp h
  simp only [Option.ite_none_right_eq_some, Option.some.injEq, Prod.mk.injEq] at h
  obtain ⟨_, _, rfl⟩ := h
  exact zone_minutes hzone

end KnowledgeEngine.Rfc3339
