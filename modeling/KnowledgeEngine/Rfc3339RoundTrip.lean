import KnowledgeEngine.FloatRoundTrip
import KnowledgeEngine.Rfc3339

/-!
Reading back the RFC 3339 text of an instant. The text of a UTC time of a year with at most
four digits is read as the same instant, without an offset.
-/

namespace KnowledgeEngine.Rfc3339RoundTrip

open Calendar FloatRoundTrip List Rfc3339 TimeText

def yearOfInstant (nanos : ℤ) : ℤ := (civil (nanos / nanosPerDay + epochDay)).year

variable {n : ℕ} {rest : List Char}

theorem longYear_padded (h : n < 10000) : longYear (padded 4 n ++ rest) = some (n, rest) := by
  have hlength := padded_length 4 n (by decide) h
  have hdigits := padded_isDigit 4 n
  have hvalue := ofDigitChars_padded 4 n
  match htext : padded 4 n with
  | [a, b, c, d] =>
    rw [htext] at hdigits hvalue
    rw [cons_append, cons_append, cons_append, cons_append, longYear,
      if_pos (all_eq_true.mpr hdigits), hvalue]
    rfl
  | [] | [_] | [_, _] | [_, _, _] | _ :: _ :: _ :: _ :: _ :: _ => simp [htext] at hlength

theorem getnum_padded {fixed : Bool} (h : n < 100) :
    getnum fixed (padded 2 n ++ rest) = some (n, rest) := by
  have hlength := padded_length 2 n (by decide) h
  have hdigits := padded_isDigit 2 n
  have hvalue := ofDigitChars_padded 2 n
  match htext : padded 2 n with
  | [a, b] =>
    rw [htext] at hdigits hvalue
    have ha := hdigits a (by simp)
    have hb := hdigits b (by simp)
    simp only [cons_append, nil_append, getnum, ha, hb, Bool.and_self, if_true, hvalue]
  | [] | [_] | _ :: _ :: _ :: _ => simp [htext] at hlength

theorem parseNanoseconds_trimmed (n : ℕ) (h : n < 1000000000) :
    parseNanoseconds ((padded 9 n).rdropWhile (· == '0')) = n := by
  have hsplit : (padded 9 n).rdropWhile (· == '0') ++
      List.replicate ((padded 9 n).rtakeWhile (· == '0')).length '0' = padded 9 n := by
    rw [← rtakeWhile_zeros]
    exact rdropWhile_append_rtakeWhile
  have hlength := congrArg List.length hsplit
  rw [length_append, length_replicate, padded_length 9 n (by decide) h] at hlength
  have hvalue := congrArg (fun l => Nat.ofDigitChars 10 l 0) hsplit
  simp only [Nat.ofDigitChars_append, Nat.ofDigitChars_replicate_zero, ofDigitChars_padded]
    at hvalue
  have hzeros : 9 - ((padded 9 n).rdropWhile (· == '0')).length =
      ((padded 9 n).rtakeWhile (· == '0')).length := by omega
  rw [parseNanoseconds, take_of_length_le (by omega), Nat.mul_comm, hzeros]
  exact hvalue

theorem fractionalSecond_fraction (h : n < 1000000000) :
    fractionalSecond (fraction n ++ ['Z']) = (n, ['Z']) := by
  unfold fraction
  by_cases hzero : n = 0
  · subst hzero
    rfl
  · rw [if_neg hzero]
    have hvalue := parseNanoseconds_trimmed n h
    have hdigits : ∀ c ∈ (padded 9 n).rdropWhile (· == '0'), c.isDigit = true := fun c hc =>
      padded_isDigit 9 n c ((List.rdropWhile_prefix _ _).subset hc)
    obtain ⟨htake, hdrop⟩ := takeWhile_block Char.isDigit _ ['Z'] hdigits
      (endsBefore_cons _ _ _ (by decide))
    cases htext : (padded 9 n).rdropWhile (· == '0') with
    | nil =>
      rw [htext] at hvalue
      exact absurd hvalue.symm (by simpa [parseNanoseconds] using hzero)
    | cons d rest =>
      rw [htext] at hvalue hdigits htake hdrop
      rw [cons_append, cons_append] at *
      rw [fractionalSecond, if_pos ⟨Or.inl rfl, hdigits d mem_cons_self⟩, htake, hdrop, hvalue]

theorem day_le_daysIn (day : ℤ) :
    (civil day).day ≤ daysIn (civil day).year (civil day).month := by
  have hspec := monthIndex_spec day
  have hindex : 12 * (monthIndex day / 12) + (monthIndex day % 12 + 1) - 1 = monthIndex day := by
    omega
  have hnext : 12 * (monthIndex day / 12) + (monthIndex day % 12 + 1 + 1) - 1 =
      monthIndex day + 1 := by
    omega
  unfold daysIn date civil
  simp only [hindex, hnext]
  omega

theorem skip_cons {sep : Char} : skip sep (sep :: rest) = some rest :=
  if_pos rfl

theorem zone_utc : zone ['Z'] = some none := rfl

/-- One step of a reader. -/
theorem bind_of_some {α β : Type} {x : Option α} {a : α} (h : x = some a) {f : α → Option β} :
    x.bind f = f a := by
  rw [h, Option.bind_some]

/-- Padded fields are read one after the other. -/
theorem parse_fields {y m d hour min sec part : ℕ} (hy : y < 10000) (hm : m < 100) (hd : d < 100)
    (hhour : hour < 100) (hmin : min < 100) (hsec : sec < 100) (hpart : part < 1000000000) :
    parse (padded 4 y ++ '-' :: (padded 2 m ++ '-' :: (padded 2 d ++
      'T' :: (padded 2 hour ++ ':' :: (padded 2 min ++ ':' ::
        (padded 2 sec ++ (fraction part ++ ['Z']))))))) =
    if 1 ≤ m ∧ m ≤ 12 ∧ hour < 24 ∧ min < 60 ∧ sec < 60 ∧ 1 ≤ d ∧ (d : ℤ) ≤ daysIn y m then
      some ((date y m d - epochDay) * nanosPerDay + clock hour min sec part, none)
    else none := by
  refine (bind_of_some (longYear_padded hy)).trans ?_
  refine (bind_of_some skip_cons).trans ?_
  refine (bind_of_some (getnum_padded hm)).trans ?_
  refine (bind_of_some skip_cons).trans ?_
  refine (bind_of_some (getnum_padded hd)).trans ?_
  refine (bind_of_some skip_cons).trans ?_
  refine (bind_of_some (getnum_padded hhour)).trans ?_
  refine (bind_of_some skip_cons).trans ?_
  refine (bind_of_some (getnum_padded hmin)).trans ?_
  refine (bind_of_some skip_cons).trans ?_
  refine (bind_of_some (getnum_padded hsec)).trans ?_
  simp only [fractionalSecond_fraction hpart, zone_utc, Option.bind_eq_bind, Option.bind_some]

/-- An instant of a year from 0 to 9999 is read back. -/
theorem parse_rfc3339Nano (nanos : ℤ) (hlow : 0 ≤ yearOfInstant nanos)
    (hhigh : yearOfInstant nanos ≤ 9999) : parse (rfc3339Nano nanos) = some (nanos, none) := by
  have hyear : (civil (nanos / nanosPerDay + epochDay)).year = yearOfInstant nanos := rfl
  have hdate := date_civil (nanos / nanosPerDay + epochDay)
  obtain ⟨hmonth, hmonth', hday, hday'⟩ := civil_bounds (nanos / nanosPerDay + epochDay)
  have hdays := day_le_daysIn (nanos / nanosPerDay + epochDay)
  rw [hyear] at hdate hdays
  obtain ⟨y, hy⟩ := Int.eq_ofNat_of_zero_le hlow
  obtain ⟨m, hm⟩ := Int.eq_ofNat_of_zero_le (show 0 ≤ (civil (nanos / nanosPerDay + epochDay)).month
    by omega)
  obtain ⟨d, hd⟩ := Int.eq_ofNat_of_zero_le (show 0 ≤ (civil (nanos / nanosPerDay + epochDay)).day
    by omega)
  rw [hy, hm, hd] at hdate hdays
  have hperDay : nanosPerDay = 86400000000000 := rfl
  have hrest : 0 ≤ nanos % nanosPerDay ∧ nanos % nanosPerDay < 86400000000000 := by
    rw [hperDay]
    omega
  obtain ⟨second, hsecond⟩ : ∃ second : ℕ, nanos % nanosPerDay / 1000000000 = second :=
    ⟨(nanos % nanosPerDay / 1000000000).toNat, by omega⟩
  obtain ⟨part, hpart⟩ : ∃ part : ℕ, nanos % 1000000000 = part :=
    ⟨(nanos % 1000000000).toNat, by omega⟩
  have htext : rfc3339Nano nanos = padded 4 y ++ '-' :: (padded 2 m ++ '-' :: (padded 2 d ++
      'T' :: (padded 2 (second / 3600) ++ ':' :: (padded 2 (second % 3600 / 60) ++ ':' ::
        (padded 2 (second % 60) ++ (fraction part ++ ['Z'])))))) := by
    simp only [rfc3339Nano, dateChars, clockChars, hyear, hy, hm, hd, hsecond, hpart,
      Int.toNat_natCast, append_assoc, cons_append]
    rfl
  rw [htext, parse_fields (by omega) (by omega) (by omega) (by omega) (by omega)
    (by omega) (by omega)]
  rw [if_pos ⟨by omega, by omega, by omega, by omega, by omega, by omega, hdays⟩, hdate, clock]
  rw [hperDay] at hsecond ⊢
  refine congrArg (fun wall => some (wall, none)) ?_
  push_cast
  omega

end KnowledgeEngine.Rfc3339RoundTrip
