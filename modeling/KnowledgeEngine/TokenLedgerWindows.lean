import KnowledgeEngine.TokenLedger
import KnowledgeEngine.Transitions
import Mathlib.Data.Int.ConditionallyCompleteOrder

/-!
The buckets of the token ledger: which times are counted in one hash, when that hash expires
and which hashes the window of a time sums. Every bucket of a window expires after the time
the window is taken at.
-/

namespace KnowledgeEngine.TokenLedger

open Calendar List TimeText Traversals

variable (config : Config) (window : Period)

/-- The day a bucket expires on, at its start. -/
def stopDay (ts : Datetime) : ℤ :=
  match window with
  | .daily => ts.day + 1
  | .rolling30d => ts.day + 1 + rollingDays
  | .monthly => monthStart (monthIndex (ts.day + epochDay) + 1) - epochDay

def windowText (ts : Datetime) : Text :=
  match window with
  | .monthly => monthText ts.date
  | _ => dayText ts.date

/-- The day or the month that is counted in one hash. -/
def slot (ts : Datetime) : ℤ :=
  match window with
  | .monthly => monthIndex (ts.day + epochDay)
  | _ => ts.day

/-- The time lies in the window of now. -/
def InWindow (now ts : Datetime) : Prop :=
  match window with
  | .daily => ts.day = now.day
  | .monthly => ts.date.year = now.date.year ∧ ts.date.month = now.date.month
  | .rolling30d => now.day - rollingDays < ts.day ∧ ts.day ≤ now.day

instance (now ts : Datetime) : Decidable (InWindow window now ts) := by
  unfold InWindow
  cases window <;> infer_instance

/-- The datetimes computed for the window of now do not overflow: its end for a calendar
window, its first day for the rolling one. -/
def WindowFits (now : Datetime) : Prop :=
  match window with
  | .daily => now.date ≠ ⟨9999, 12, 31⟩
  | .monthly => ¬ (now.date.year = 9999 ∧ now.date.month = 12)
  | .rolling30d => minMicros ≤ now.micros - (rollingDays - 1) * microsPerDay

instance (now : Datetime) : Decidable (WindowFits window now) := by
  unfold WindowFits
  cases window <;> infer_instance

/-- Midnight of the day is a datetime. -/
def DayFits (day : ℤ) : Prop :=
  minMicros ≤ day * microsPerDay ∧ day * microsPerDay ≤ maxMicros

instance (day : ℤ) : Decidable (DayFits day) := inferInstanceAs (Decidable (_ ∧ _))

variable (scope : UsageScope) {day : ℤ} (ts : Datetime) {a b : Datetime}

theorem dayFits_day : DayFits ts.day := by
  have hrange := ts.inRange
  unfold DayFits Datetime.day
  unfold minMicros maxMicros microsPerDay at *
  omega

theorem ofMicros_day (h : DayFits day) :
    Datetime.ofMicros (day * microsPerDay) = some ⟨day * microsPerDay, h⟩ := dif_pos h

theorem ofDate_date : Datetime.ofDate ts.date = some ⟨ts.day * microsPerDay, dayFits_day ts⟩ := by
  rw [Datetime.ofDate, Datetime.date, date_civil, Int.add_sub_cancel]
  exact ofMicros_day _

theorem addDays_midnight (days : ℤ) (h : DayFits day) :
    Datetime.addDays ⟨day * microsPerDay, h⟩ days =
      if h' : DayFits (day + days) then some ⟨(day + days) * microsPerDay, h'⟩ else none := by
  rw [Datetime.addDays, ← Int.add_mul]
  rfl

theorem timestamp_midnight (h : DayFits day) :
    Datetime.timestamp ⟨day * microsPerDay, h⟩ = day * 86400 := by
  unfold Datetime.timestamp microsPerDay
  dsimp only
  omega

theorem monthStart_strictMono : StrictMono monthStart :=
  strictMono_int_of_lt_succ fun month => (monthStart_lt_succ month).1

/-- The end of a window that starts at a midnight. -/
theorem stop_midnight {start : ℤ} (days : ℤ) (text : Text) (h : DayFits start) :
    ((Datetime.addDays ⟨start * microsPerDay, h⟩ days).bind fun stop =>
      some (text, stop.timestamp)) =
      if DayFits (start + days) then some (text, (start + days) * 86400) else none := by
  rw [addDays_midnight]
  by_cases hfits : DayFits (start + days)
  · rw [dif_pos hfits, if_pos hfits, Option.bind_some, timestamp_midnight]
  · rw [dif_neg hfits, if_neg hfits, Option.bind_none]

theorem stop_dayEnd {day days : ℤ} {text : Text} (h : DayFits day) (hdays : 0 ≤ days) :
    ((Datetime.addDays ⟨day * microsPerDay, h⟩ 1).bind fun dayEnd =>
      (dayEnd.addDays days).bind fun stop => some (text, stop.timestamp)) =
      if DayFits (day + 1 + days) then some (text, (day + 1 + days) * 86400) else none := by
  rw [addDays_midnight]
  by_cases hend : DayFits (day + 1)
  · rw [dif_pos hend, Option.bind_some, stop_midnight]
  · have hstop : ¬ DayFits (day + 1 + days) := by
      unfold DayFits minMicros maxMicros microsPerDay at *
      omega
    rw [dif_neg hend, if_neg hstop, Option.bind_none]

theorem monthIndex_bounds :
    12 ≤ monthIndex (ts.day + epochDay) ∧ monthIndex (ts.day + epochDay) < 120000 := by
  have hday := dayFits_day ts
  obtain ⟨hle, hlt⟩ := monthIndex_spec (ts.day + epochDay)
  have hstart : monthStart 12 = 0 := by decide
  have hstop : monthStart 120000 = 3652059 := by decide
  unfold DayFits minMicros maxMicros microsPerDay at hday
  constructor
  · by_contra hmonth
    have hbefore := monthStart_strictMono.monotone
      (show monthIndex (ts.day + epochDay) + 1 ≤ 12 by omega)
    unfold epochDay at *
    omega
  · by_contra hmonth
    have hafter := monthStart_strictMono.monotone (Int.not_lt.mp hmonth)
    unfold epochDay at *
    omega

/-- The month of a date in its index. -/
theorem date_spec :
    ts.date.year = monthIndex (ts.day + epochDay) / 12 ∧
      ts.date.month = monthIndex (ts.day + epochDay) % 12 + 1 ∧ 1 ≤ ts.date.day ∧
      ts.date.day ≤ 31 ∧
      Calendar.date ts.date.year ts.date.month ts.date.day = ts.day + epochDay :=
  have hbounds := civil_bounds (ts.day + epochDay)
  ⟨rfl, rfl, hbounds.2.2.1, hbounds.2.2.2, date_civil _⟩

theorem month_eq_iff : monthIndex (a.day + epochDay) = monthIndex (b.day + epochDay) ↔
    a.date.year = b.date.year ∧ a.date.month = b.date.month := by
  have ha := date_spec a
  have hb := date_spec b
  omega

theorem monthrange_date :
    monthrange ts.date.year ts.date.month =
      monthStart (monthIndex (ts.day + epochDay) + 1) -
        monthStart (monthIndex (ts.day + epochDay)) := by
  rw [monthStart_succ, monthStart]
  unfold monthrange Datetime.date civil
  dsimp only
  rw [Int.add_sub_cancel]
  omega

theorem ofDate_month :
    ∃ h : DayFits (monthStart (monthIndex (ts.day + epochDay)) - epochDay),
      Datetime.ofDate { ts.date with day := 1 } =
        some ⟨(monthStart (monthIndex (ts.day + epochDay)) - epochDay) * microsPerDay, h⟩ := by
  have hfirst := monthStart_strictMono.monotone (monthIndex_bounds ts).1
  have hfits : DayFits (monthStart (monthIndex (ts.day + epochDay)) - epochDay) := by
    have hday := dayFits_day ts
    have hle := (monthIndex_spec (ts.day + epochDay)).1
    have hstart : monthStart 12 = 0 := by decide
    unfold DayFits minMicros maxMicros microsPerDay epochDay at *
    omega
  have hdate : Calendar.date ts.date.year ts.date.month 1 =
      monthStart (monthIndex (ts.day + epochDay)) := by
    unfold Calendar.date
    rw [Int.add_sub_cancel]
    have := date_spec ts
    congr 1
    omega
  refine ⟨hfits, ?_⟩
  rw [Datetime.ofDate, hdate]
  exact ofMicros_day hfits

theorem bucket_eq :
    bucket config ts =
      if DayFits (stopDay config.window ts) then
        some (windowText config.window ts, stopDay config.window ts * 86400)
      else none := by
  unfold bucket stopDay windowText
  cases config.window with
  | monthly =>
    obtain ⟨hstart, hdate⟩ := ofDate_month ts
    have hstop : monthStart (monthIndex (ts.day + epochDay)) - epochDay +
        (monthStart (monthIndex (ts.day + epochDay) + 1) -
          monthStart (monthIndex (ts.day + epochDay))) =
        monthStart (monthIndex (ts.day + epochDay) + 1) - epochDay := by omega
    simp only [hdate, Option.bind_eq_bind, Option.bind_some, monthrange_date, Option.pure_def,
      stop_midnight, hstop]
  | daily =>
    simp only [ofDate_date, Option.bind_eq_bind, Option.bind_some, Option.pure_def,
      stop_dayEnd _ (Int.le_refl 0), Int.add_zero]
  | rolling30d =>
    simp only [ofDate_date, Option.bind_eq_bind, Option.bind_some, Option.pure_def,
      stop_dayEnd _ (Int.natCast_nonneg _)]

/-- A bucket is determined by its day or month. -/
theorem bucket_of_slot (h : slot window a = slot window b) :
    windowText window a = windowText window b ∧ stopDay window a = stopDay window b := by
  unfold slot windowText stopDay at *
  cases window with
  | monthly =>
    obtain ⟨hyear, hmonth⟩ := month_eq_iff.mp h
    dsimp only at h ⊢
    rw [h, monthText, monthText, hyear, hmonth]
    exact ⟨rfl, rfl⟩
  | daily =>
    dsimp only at h ⊢
    rw [h, Datetime.date, Datetime.date, h]
    exact ⟨rfl, rfl⟩
  | rolling30d =>
    dsimp only at h ⊢
    rw [h, Datetime.date, Datetime.date, h]
    exact ⟨rfl, rfl⟩

theorem monthText_append_inj {x y : Text} (hx : EndsBefore Char.isDigit x)
    (hy : EndsBefore Char.isDigit y) (h : monthText a.date ++ x = monthText b.date ++ y) :
    a.date.year = b.date.year ∧ a.date.month = b.date.month ∧ x = y := by
  have hdash : ∀ rest, EndsBefore Char.isDigit ('-' :: rest) :=
    fun rest => endsBefore_cons _ _ _ (by decide)
  have ha := date_spec a
  have hb := date_spec b
  have hya := monthIndex_bounds a
  have hyb := monthIndex_bounds b
  unfold monthText at h
  simp only [append_assoc, cons_append] at h
  obtain ⟨hyears, h⟩ := padded_append_inj (hdash _) (hdash _) h
  obtain ⟨hmonths, h⟩ := padded_append_inj hx hy (List.cons.inj h).2
  exact ⟨by omega, by omega, h⟩

theorem windowText_inj (h : windowText window a = windowText window b) :
    slot window a = slot window b := by
  have hnil : EndsBefore Char.isDigit [] := fun c hc => by cases hc
  have hday : dayText a.date = dayText b.date → a.day = b.day := by
    intro htext
    obtain ⟨hyear, hmonth, hrest⟩ := monthText_append_inj
      (endsBefore_cons _ _ _ (by decide)) (endsBefore_cons _ _ _ (by decide)) htext
    have hdays := padded_inj (List.cons.inj hrest).2
    obtain ⟨-, -, hfirst, -, hdate⟩ := date_spec a
    obtain ⟨-, -, hfirst', -, hdate'⟩ := date_spec b
    rw [hyear, hmonth, show a.date.day = b.date.day by omega, hdate'] at hdate
    omega
  unfold slot windowText at *
  cases window with
  | monthly =>
    obtain ⟨hyear, hmonth, _⟩ := monthText_append_inj hnil hnil (by simpa using h)
    exact month_eq_iff.mpr ⟨hyear, hmonth⟩
  | daily => exact hday h
  | rolling30d => exact hday h

theorem windowText_length :
    (windowText window ts).length = 7 ∨ (windowText window ts).length = 10 := by
  have hdate := date_spec ts
  have hmonths := monthIndex_bounds ts
  have hmonth : (monthText ts.date).length = 7 := by
    rw [monthText, length_append, length_cons, padded_length 4 _ (by decide) (by omega),
      padded_length 2 _ (by decide) (by omega)]
  have hday : (dayText ts.date).length = 10 := by
    rw [dayText, length_append, length_cons, hmonth,
      padded_length 2 _ (by decide) (by omega)]
  unfold windowText
  cases window with
  | monthly => exact .inl hmonth
  | daily => exact .inr hday
  | rolling30d => exact .inr hday

theorem counterKey_inj {scope : UsageScope} {v w : Text}
    (h : counterKey config scope v = counterKey config scope w) : v = w := by
  simpa [counterKey] using h

theorem limitsKey_ne : limitsKey config scope ≠ counterKey config scope (windowText window ts) := by
  intro h
  have hlength := congrArg List.length h
  have hwindow := windowText_length window ts
  simp [limitsKey, counterKey] at hlength
  omega

variable {now : Datetime}

/-- No bucket of the window has expired. -/
theorem lt_stopDay {ts : Datetime} (h : InWindow window now ts) :
    now.micros < stopDay window ts * microsPerDay := by
  have hday : ∀ d : ℤ, now.day < d → now.micros < d * microsPerDay := by
    intro d hd
    unfold Datetime.day microsPerDay at *
    omega
  apply hday
  unfold InWindow stopDay at *
  cases window with
  | daily =>
    dsimp only at h ⊢
    omega
  | monthly =>
    have hnext := (monthIndex_spec (now.day + epochDay)).2
    rw [← month_eq_iff.mpr h] at hnext
    dsimp only
    omega
  | rolling30d =>
    dsimp only at h ⊢
    omega

theorem dayFits_stopDay_daily : DayFits (stopDay .daily now) ↔ WindowFits .daily now := by
  have hday := dayFits_day now
  have hlast : civil 3652058 = ⟨9999, 12, 31⟩ := by decide
  have hdate : now.date = ⟨9999, 12, 31⟩ ↔ now.day + epochDay = 3652058 := by
    constructor
    · intro h
      obtain ⟨-, -, -, -, hcivil⟩ := date_spec now
      rw [h] at hcivil
      exact hcivil.symm
    · intro h
      rw [Datetime.date, h, hlast]
  unfold WindowFits stopDay
  dsimp only
  rw [Ne, hdate]
  unfold DayFits minMicros maxMicros microsPerDay epochDay at *
  omega

theorem dayFits_stopDay_monthly : DayFits (stopDay .monthly now) ↔ WindowFits .monthly now := by
  have hbounds := monthIndex_bounds now
  have hfirst := monthStart_strictMono.monotone
    (show (12 : ℤ) ≤ monthIndex (now.day + epochDay) + 1 by omega)
  have hstart : monthStart 12 = 0 := by decide
  have hstop : monthStart 120000 = 3652059 := by decide
  have hlt : monthStart (monthIndex (now.day + epochDay) + 1) < monthStart 120000 ↔
      monthIndex (now.day + epochDay) + 1 < 120000 := monthStart_strictMono.lt_iff_lt
  have hdate : now.date.year = 9999 ∧ now.date.month = 12 ↔
      monthIndex (now.day + epochDay) = 119999 := by
    have := date_spec now
    omega
  unfold WindowFits stopDay
  dsimp only
  rw [hdate]
  unfold DayFits minMicros maxMicros microsPerDay epochDay at *
  omega

theorem addDays_back {i : ℕ} (h : minMicros ≤ now.micros - i * microsPerDay) :
    ∃ ts, now.addDays (-i) = some ts ∧ ts.day = now.day - i := by
  have hrange := now.inRange
  have hfits : minMicros ≤ now.micros + -(i : ℤ) * microsPerDay ∧
      now.micros + -(i : ℤ) * microsPerDay ≤ maxMicros := by
    unfold microsPerDay at *
    omega
  refine ⟨_, dif_pos hfits, ?_⟩
  unfold Datetime.day microsPerDay
  dsimp only
  omega

theorem daysBack_eq_some (now : Datetime) (key : Datetime → Text) (back : List ℕ)
    (h : ∀ i ∈ back, minMicros ≤ now.micros - i * microsPerDay) :
    ∃ times : List Datetime,
      back.mapM (fun i : ℕ => (now.addDays (-i)).bind fun ts => some (key ts)) =
        some (times.map key) ∧
      times.map Datetime.day = back.map fun i : ℕ => now.day - i := by
  induction back with
  | nil => exact ⟨[], rfl, rfl⟩
  | cons i rest ih =>
    obtain ⟨ts, hts, hday⟩ := addDays_back (h i (mem_cons_self ..))
    obtain ⟨times, hkeys, hdays⟩ := ih fun j hj => h j (mem_cons_of_mem i hj)
    refine ⟨ts :: times, ?_, ?_⟩
    · rw [mapM_cons, hts, hkeys]
      rfl
    · rw [map_cons, map_cons, hday, hdays]

theorem daysBack_eq_none (key : Datetime → Text) {back : List ℕ} {i : ℕ} (hi : i ∈ back)
    (h : ¬ minMicros ≤ now.micros - i * microsPerDay) :
    back.mapM (fun i : ℕ => (now.addDays (-i)).bind fun ts => some (key ts)) = none := by
  have hnone : now.addDays (-i) = none := by
    refine dif_neg fun hfits => h ?_
    rw [Int.sub_eq_add_neg, ← Int.neg_mul]
    exact hfits.1
  refine Option.not_isSome_iff_eq_none.mp fun hsome => ?_
  have hday := mapM_isSome_iff.mp hsome i hi
  rw [hnone] at hday
  cases hday

/-- A calendar window is one bucket. -/
theorem windowKeys_calendar (now : Datetime) (h : config.window ≠ .rolling30d) :
    windowKeys config scope now =
      if DayFits (stopDay config.window now) then
        some [counterKey config scope (windowText config.window now)]
      else none := by
  have hkeys : windowKeys config scope now =
      (bucket config now).bind fun b => some [counterKey config scope b.1] := by
    unfold windowKeys
    split
    case h_1 heq => exact absurd heq h
    case h_2 => rfl
  rw [hkeys, bucket_eq]
  split <;> rfl

theorem windowKeys_rolling (now : Datetime) (h : config.window = .rolling30d) :
    windowKeys config scope now =
      (List.range rollingDays).mapM fun i : ℕ => (now.addDays (-i)).bind fun ts =>
        some (counterKey config scope (windowText .rolling30d ts)) := by
  unfold windowKeys
  rw [h]
  rfl

theorem dayFits_stopDay (now : Datetime) (h : window ≠ .rolling30d) :
    DayFits (stopDay window now) ↔ WindowFits window now := by
  cases window with
  | daily => exact dayFits_stopDay_daily
  | monthly => exact dayFits_stopDay_monthly
  | rolling30d => exact absurd rfl h

theorem inWindow_calendar (now ts : Datetime) (h : window ≠ .rolling30d) :
    slot window ts = slot window now ↔ InWindow window now ts := by
  cases window with
  | daily => exact Iff.rfl
  | monthly => exact month_eq_iff
  | rolling30d => exact absurd rfl h

/-- The keys of the window are those of the days, or the one month, that are in it. -/
theorem windowKeys_eq_some (now : Datetime) (h : WindowFits config.window now) :
    ∃ times : List Datetime,
      windowKeys config scope now =
        some (times.map fun ts => counterKey config scope (windowText config.window ts)) ∧
      (times.map (slot config.window)).Nodup ∧
      (∀ ts, slot config.window ts ∈ times.map (slot config.window) ↔
        InWindow config.window now ts) ∧
      times.length ≤ rollingDays := by
  by_cases hrolling : config.window = .rolling30d
  · rw [hrolling] at h ⊢
    obtain ⟨times, hkeys, hdays⟩ := daysBack_eq_some now
      (fun ts => counterKey config scope (windowText .rolling30d ts)) (List.range rollingDays)
      (by
        intro i hi
        have hlt := mem_range.mp hi
        unfold WindowFits at h
        unfold microsPerDay at *
        dsimp only at h
        omega)
    have hslots : times.map (slot .rolling30d) = times.map Datetime.day := rfl
    refine ⟨times, (windowKeys_rolling config scope now hrolling).trans hkeys, ?_, ?_, ?_⟩
    · rw [hslots, hdays]
      exact nodup_range.map fun i j hij => by omega
    · intro ts
      rw [hslots, hdays, mem_map]
      unfold slot InWindow
      constructor
      · rintro ⟨i, hi, hday⟩
        have hlt := mem_range.mp hi
        dsimp only at hday ⊢
        omega
      · intro hin
        dsimp only at hin ⊢
        exact ⟨(now.day - ts.day).toNat, mem_range.mpr (by omega), by omega⟩
    · have hlength := congrArg List.length hdays
      rw [length_map, length_map, length_range] at hlength
      omega
  · have hfits := (dayFits_stopDay config.window now hrolling).mpr h
    refine ⟨[now], ?_, ?_, ?_, ?_⟩
    · rw [windowKeys_calendar config scope now hrolling, if_pos hfits]
      rfl
    · exact nodup_singleton _
    · intro ts
      rw [map_singleton, mem_singleton]
      exact inWindow_calendar config.window now ts hrolling
    · exact (by decide : 1 ≤ rollingDays)

theorem windowKeys_eq_none (h : ¬ WindowFits config.window now) :
    windowKeys config scope now = none := by
  by_cases hrolling : config.window = .rolling30d
  · rw [windowKeys_rolling config scope now hrolling]
    rw [hrolling] at h
    exact daysBack_eq_none _ (by decide) h
  · rw [windowKeys_calendar config scope now hrolling,
      if_neg fun hfits => h ((dayFits_stopDay config.window now hrolling).mp hfits)]

end KnowledgeEngine.TokenLedger
