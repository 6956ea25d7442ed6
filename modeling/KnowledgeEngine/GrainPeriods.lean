import KnowledgeEngine.Analytics
import KnowledgeEngine.Periods

/-!
The calendar grains as periods. Truncate is the floor of its grain and Next goes from
one start to the following one, for minutes, hours, UTC days and UTC months; the
starts of a coarser grain are starts of every finer one.
-/

namespace KnowledgeEngine.GrainPeriods

open Analytics Calendar CoreTypes Periods TimeText

/-- Periods of one length. -/
def uniform (length : ℤ) (hpos : 0 < length) : Grid where
  start i := i * length
  index t := t / length
  start_lt i := by
    rw [Int.add_mul, Int.one_mul]
    omega
  start_le t := Int.ediv_mul_le t hpos.ne'
  lt_start t := Int.lt_ediv_add_one_mul_self t hpos

def months : Grid where
  start i := (monthStart i - epochDay) * nanosPerDay
  index t := monthIndex (t / nanosPerDay + epochDay)
  start_lt i := by
    have hlt := (monthStart_lt_succ i).1
    unfold nanosPerDay
    omega
  start_le t := by
    have hspec := (monthIndex_spec (t / nanosPerDay + epochDay)).1
    unfold nanosPerDay at *
    omega
  lt_start t := by
    have hspec := (monthIndex_spec (t / nanosPerDay + epochDay)).2
    unfold nanosPerDay at *
    omega

def periods : Grain → Grid
  | .minute => uniform nanosPerMinute (by decide)
  | .hour => uniform nanosPerHour (by decide)
  | .day => uniform nanosPerDay (by decide)
  | .month => months
  | .other _ => uniform nanosPerDay (by decide)

theorem midnight_civilOf (t : ℤ) :
    midnight (civilOf t).year (civilOf t).month (civilOf t).day =
      t / nanosPerDay * nanosPerDay := by
  rw [midnight, civilOf, date_civil]
  congr 1
  omega

theorem date_month (day : ℤ) (months days : ℤ) :
    date (civil day).year ((civil day).month + months) days =
      monthStart (monthIndex day + months) + days - 1 := by
  unfold date civil
  have hindex : 12 * (monthIndex day / 12) + (monthIndex day % 12 + 1 + months) - 1 =
      monthIndex day + months := by
    omega
  simp only [hindex]

variable {g : Grain}

/-- Truncate is the floor. -/
theorem truncate_eq_floor (hg : validGrain g = true) (t : ℤ) :
    truncate t g = (periods g).floor t := by
  have htruncate : ∀ d, truncateTo t d = t / d * d := by
    intro d
    have hdiv := Int.mul_ediv_add_emod t d
    rw [truncateTo, Int.mul_comm (t / d)]
    omega
  cases g with
  | minute => exact htruncate _
  | hour => exact htruncate _
  | day => exact midnight_civilOf t
  | month =>
    have hmonth := date_month (t / nanosPerDay + epochDay) 0 1
    rw [Int.add_zero, Int.add_zero] at hmonth
    rw [truncate, midnight, civilOf, hmonth]
    simp only [Grid.floor, periods, months]
    congr 1
    omega
  | other name => cases hg

theorem addDate_midnight (day months days : ℤ) :
    addDate ((day - epochDay) * nanosPerDay) months days =
      (monthStart (monthIndex day + months) + (day - monthStart (monthIndex day)) + days -
        epochDay) * nanosPerDay := by
  have hday : (day - epochDay) * nanosPerDay / nanosPerDay + epochDay = day := by
    rw [Int.mul_ediv_cancel _ (by decide)]
    omega
  have hrest : (day - epochDay) * nanosPerDay % nanosPerDay = 0 := Int.mul_emod_left _ _
  simp only [addDate, civilOf, hday, hrest, midnight, date_month, Int.add_zero]
  congr 1
  simp only [civil]
  omega

/-- Next goes to the following start. -/
theorem next_start (g : Grain) (hg : validGrain g = true) (i : ℤ) :
    next ((periods g).start i) g = (periods g).start (i + 1) := by
  cases g with
  | minute => simp only [next, periods, uniform, Int.add_mul, Int.one_mul]
  | hour => simp only [next, periods, uniform, Int.add_mul, Int.one_mul]
  | day =>
    have hadd := addDate_midnight (i + epochDay) 0 1
    rw [Int.add_zero, Int.add_sub_cancel] at hadd
    refine hadd.trans (congrArg (· * nanosPerDay) ?_)
    omega
  | month =>
    have hadd := addDate_midnight (monthStart i) 1 0
    have hindex : monthIndex (monthStart i) = i := by
      have hstart := months.index_start i
      simp only [months] at hstart
      rwa [Int.mul_ediv_cancel _ (by decide), Int.sub_add_cancel] at hstart
    rw [hindex] at hadd
    refine hadd.trans (congrArg (· * nanosPerDay) ?_)
    omega
  | other name => cases hg

/-- Grains from fine to coarse. -/
def rank : Grain → ℕ
  | .minute => 0
  | .hour => 1
  | .day => 2
  | .month => 3
  | .other _ => 4

/-- The length of a uniform grain; months are counted in days. -/
def unit : Grain → ℤ
  | .minute => nanosPerMinute
  | .hour => nanosPerHour
  | _ => nanosPerDay

theorem start_dvd (g : Grain) (i : ℤ) : unit g ∣ (periods g).start i := by
  cases g with
  | minute => exact Int.dvd_mul_left _ _
  | hour => exact Int.dvd_mul_left _ _
  | day => exact Int.dvd_mul_left _ _
  | month => exact Int.dvd_mul_left _ _
  | other name => exact Int.dvd_mul_left _ _

variable {w : Grain}

/-- A start of a coarser grain is a start of a finer one. -/
theorem floor_coarse (hg : validGrain g = true) (hw : validGrain w = true) (hrank : rank g ≤ rank w)
    (i : ℤ) : (periods g).floor ((periods w).start i) = (periods w).start i := by
  have hdvd := start_dvd w i
  have huniform : ∀ length (hpos : 0 < length), length ∣ unit w →
      (uniform length hpos).floor ((periods w).start i) = (periods w).start i := by
    intro length hpos hunit
    exact Int.ediv_mul_cancel (Int.dvd_trans hunit hdvd)
  cases w with
  | minute =>
    cases g with
    | minute => exact Grid.floor_start _
    | hour => exact absurd hrank (by decide)
    | day => exact absurd hrank (by decide)
    | month => exact absurd hrank (by decide)
    | other name => cases hg
  | hour =>
    cases g with
    | minute => exact huniform _ (by decide) (by decide)
    | hour => exact Grid.floor_start _
    | day => exact absurd hrank (by decide)
    | month => exact absurd hrank (by decide)
    | other name => cases hg
  | day =>
    cases g with
    | minute => exact huniform _ (by decide) (by decide)
    | hour => exact huniform _ (by decide) (by decide)
    | day => exact Grid.floor_start _
    | month => exact absurd hrank (by decide)
    | other name => cases hg
  | month =>
    cases g with
    | minute => exact huniform _ (by decide) (by decide)
    | hour => exact huniform _ (by decide) (by decide)
    | day => exact huniform _ (by decide) (by decide)
    | month => exact Grid.floor_start _
    | other name => cases hg
  | other name => cases hw

/-- Truncating to a grain first does not change the bucket. -/
theorem truncate_truncate (hg : validGrain g = true) (hw : validGrain w = true)
    (hrank : rank g ≤ rank w) {t : ℤ} : truncate (truncate t g) w = truncate t w := by
  rw [truncate_eq_floor hg, truncate_eq_floor hw, truncate_eq_floor hw]
  exact Grid.floor_floor _ _ (floor_coarse hg hw hrank) t

theorem start_milli (hg : validGrain g = true) {i : ℤ} : nanosPerMilli ∣ (periods g).start i := by
  have hunit : nanosPerMilli ∣ unit g := by
    cases g with
    | minute => decide
    | hour => decide
    | day => decide
    | month => decide
    | other name => cases hg
  exact Int.dvd_trans hunit (start_dvd g i)

theorem truncate_milli (hg : validGrain g = true) {t : ℤ} : nanosPerMilli ∣ truncate t g := by
  rw [truncate_eq_floor hg]
  exact start_milli hg

/-- Two starts of a grain lie at least a minute apart. -/
theorem start_step (g : Grain) (hg : validGrain g = true) (i : ℤ) :
    (periods g).start i + nanosPerMinute ≤ (periods g).start (i + 1) := by
  have hlt := (periods g).start_lt i
  have hminute : nanosPerMinute ∣ unit g := by
    cases g with
    | minute => decide
    | hour => decide
    | day => decide
    | month => decide
    | other name => cases hg
  obtain ⟨a, ha⟩ := Int.dvd_trans hminute (start_dvd g i)
  obtain ⟨b, hb⟩ := Int.dvd_trans hminute (start_dvd g (i + 1))
  unfold nanosPerMinute at *
  omega

/-- The loop of Aggregate over the bucket starts below hi. -/
def bucketsFrom (width : Grain) (hi : ℤ) : ℕ → ℤ → List ℤ
  | 0, _ => []
  | fuel + 1, b => if b < hi then b :: bucketsFrom width hi fuel (next b width) else []

/-- At most one start a minute. -/
def bucketFuel (first hi : ℤ) : ℕ := ((hi - first) / nanosPerMinute + 1).toNat

def buckets (width : Grain) (lo hi : ℤ) : List ℤ :=
  bucketsFrom width hi (bucketFuel (truncate lo width) hi) (truncate lo width)

variable {hi : ℤ}

theorem bucketsFrom_eq_below (hw : validGrain w = true) {fuel : ℕ} {i : ℤ} :
    bucketsFrom w hi fuel ((periods w).start i) = (periods w).below hi fuel i := by
  induction fuel generalizing i with
  | zero => rfl
  | succ fuel ih => rw [bucketsFrom, Grid.below, next_start w hw, ih]

theorem buckets_eq_below (hw : validGrain w = true) (lo hi : ℤ) :
    buckets w lo hi = (periods w).below hi (bucketFuel (truncate lo w) hi)
      ((periods w).index lo) := by
  rw [buckets]
  generalize bucketFuel (truncate lo w) hi = fuel
  rw [truncate_eq_floor hw]
  exact bucketsFrom_eq_below hw

/-- The bucket of every time of the range is among the buckets. -/
theorem truncate_mem_buckets (w : Grain) (hw : validGrain w = true) (lo hi t : ℤ) (hlo : lo ≤ t)
    (hhi : t < hi) : truncate t w ∈ buckets w lo hi := by
  rw [buckets_eq_below hw, truncate_eq_floor hw t]
  apply (periods w).start_mem_below nanosPerMinute hi (start_step w hw)
  · rw [truncate_eq_floor hw lo, bucketFuel, Grid.floor]
    unfold nanosPerMinute
    omega
  · exact (periods w).index_mono _ _ hlo
  · exact ((periods w).start_le t).trans_lt hhi

theorem buckets_sorted (hw : validGrain w = true) {lo : ℤ} :
    (buckets w lo hi).Pairwise (· < ·) := by
  rw [buckets_eq_below hw]
  exact (periods w).below_sorted _ _ _

theorem buckets_milli (hw : validGrain w = true) {lo : ℤ} :
    ∀ b ∈ buckets w lo hi, nanosPerMilli ∣ b := by
  intro b hb
  rw [buckets_eq_below hw] at hb
  obtain ⟨i, _, rfl, _⟩ := (periods w).mem_below _ _ _ _ hb
  exact start_milli hw

/-- The periods of a grain tile time and lie within those of a coarser one, and the loop visits
the starts of the periods between its bounds, in order. -/
theorem grain_starts_tile (g : Grain) (hg : validGrain g = true) (t s : ℤ) :
    truncate t g ≤ t ∧ t < next (truncate t g) g ∧ truncate (truncate t g) g = truncate t g ∧
      (t ≤ s → truncate t g ≤ truncate s g) ∧
      (∀ w, validGrain w = true → rank g ≤ rank w →
        truncate (truncate t g) w = truncate t w) ∧
      (buckets g t s).Pairwise (· < ·) ∧
      ∀ b, b ∈ buckets g t s ↔ truncate b g = b ∧ truncate t g ≤ b ∧ b < s := by
  have hfloor := truncate_eq_floor hg
  have hsame : truncate (truncate t g) g = truncate t g := truncate_truncate hg hg le_rfl
  refine ⟨?_, ?_, hsame, fun hle => ?_, fun w hw hrank => truncate_truncate hg hw hrank,
    buckets_sorted hg, fun b => ⟨fun hb => ?_, ?_⟩⟩
  · rw [hfloor]
    exact (periods g).start_le t
  · rw [hfloor, Grid.floor, next_start g hg]
    exact (periods g).lt_start t
  · rw [hfloor, hfloor]
    exact (periods g).floor_mono t s hle
  · rw [buckets_eq_below hg] at hb
    obtain ⟨i, hi, rfl, hlt⟩ := (periods g).mem_below _ _ _ _ hb
    rw [hfloor, hfloor, Grid.floor_start]
    exact ⟨rfl, (periods g).start_strictMono.monotone hi, hlt⟩
  · rintro ⟨hstart, hle, hlt⟩
    have hmem := truncate_mem_buckets g hg (truncate t g) s b hle hlt
    rwa [hstart, buckets, hsame, ← buckets] at hmem

/-- Noon of 29 February 2024 lies in February, and 1 March is the next start. -/
theorem leap_february :
    1709208000000000000 < next (truncate 1709208000000000000 .month) .month ∧
      1709251200000000000 ∈ buckets .month 1709208000000000000 1714521600000000000 := by
  obtain ⟨-, hnext, -, -, -, -, hmem⟩ :=
    grain_starts_tile .month rfl 1709208000000000000 1714521600000000000
  exact ⟨hnext, (hmem _).mpr (by decide +kernel)⟩

end KnowledgeEngine.GrainPeriods
