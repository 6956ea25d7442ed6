import KnowledgeEngine.Analytics
import KnowledgeEngine.FilterCompile
import KnowledgeEngine.ValueText
import Mathlib.Data.List.Infix

/-!
The filter of an analytics read (clients/analytics/cassandra/residual.go). The whole
filter is compiled to a predicate over stored rows; its top-level clauses on the time
field also narrow the range the store is asked for. The narrowed range keeps every
row the predicate accepts.
-/

namespace KnowledgeEngine.Residual

open Analytics CoreTypes FilterCompile ValueText

def timeField : String := "ts"

/-- A stored row as the predicate sees it. -/
structure Stored where
  ts : ℤ
  dims : StringMap String

/-- strings.ToLower over a lower-casing of single characters. -/
def toLower (lower : Char → Char) (s : String) : List Char := s.toList.map lower

def compareString (lower : Char → Char) (got : String) (op : FilterOperator) (v : Value) : Bool :=
  let items : List Scalar := match v with
    | .list vs => vs
    | _ => []
  let found := items.any fun item => got = sprint (.scalar item)
  match op with
  | .opEq => got = sprint v
  | .opNe => got ≠ sprint v
  | .opIn => found
  | .opNotIn => !found
  | .opLike => decide (toLower lower (sprint v) <:+: toLower lower got)
  | .opGt => sprint v < got
  | .opGte => ¬ got < sprint v
  | .opLt => got < sprint v
  | .opLte => ¬ sprint v < got

def compareTime (got : ℤ) (op : FilterOperator) : Value → Bool
  | .scalar (.time want) =>
    match op with
    | .opEq => got = want.nanos
    | .opNe => got ≠ want.nanos
    | .opGt => want.nanos < got
    | .opGte => want.nanos ≤ got
    | .opLt => got < want.nanos
    | .opLte => got ≤ want.nanos
    | .opIn | .opNotIn | .opLike => false
  | _ => false

def clausePredicate (lower : Char → Char) (col : String) (op : FilterOperator) (v : Value)
    (r : Stored) : Bool :=
  if col = timeField then compareTime r.ts op v
  else
    match r.dims.lookup col with
    | some got => compareString lower got op v
    | none => false

def residual (lower : Char → Char) : QueryBackend (Stored → Bool) where
  Clause := clausePredicate lower
  ExistsClause _ _ _ _ := false
  And subs r := subs.all fun p => p r
  Or subs r := subs.any fun p => p r
  Empty _ := true

def compileResidual (lower : Char → Char) (f : Filter) : Stored → Bool :=
  compile (residual lower) (fun field => field) f

/-- at.Truncate(time.Millisecond). -/
def truncateMilli (t : ℤ) : ℤ := truncateTo t nanosPerMilli

def maxTime (a b : ℤ) : ℤ := if a < b then b else a

def minTime (a b : ℤ) : ℤ := if b < a then b else a

/-- One step of the loop over the top-level clauses. -/
def narrow (bounds : ℤ × ℤ) : Filter → ℤ × ℤ
  | .clause field op (.scalar (.time want)) _ =>
    if field = timeField then
      let down := truncateMilli want.nanos
      let up := truncateMilli want.nanos + nanosPerMilli
      match op with
      | .opGt | .opGte => (maxTime bounds.1 down, bounds.2)
      | .opLt | .opLte => (bounds.1, minTime bounds.2 up)
      | .opEq => (maxTime bounds.1 down, minTime bounds.2 up)
      | .opNe | .opIn | .opNotIn | .opLike => bounds
    else bounds
  | _ => bounds

def topClauses : Filter → List Filter
  | .nil => []
  | .clause field op v join => [.clause field op v join]
  | .composite and _ => and

def pushdown (f : Filter) (lo hi : ℤ) : ℤ × ℤ := (topClauses f).foldl narrow (lo, hi)

/-- The millisecond of a time: it starts at or before the time and ends after it. -/
theorem truncateMilli_spec (t : ℤ) :
    truncateMilli t ≤ t ∧ t < truncateMilli t + nanosPerMilli ∧
      nanosPerMilli ∣ truncateMilli t := by
  unfold truncateMilli truncateTo nanosPerMilli
  exact ⟨by omega, by omega, by omega⟩

/-- The range only shrinks, and its bounds stay whole milliseconds. -/
structure Narrows (bounds bounds' : ℤ × ℤ) : Prop where
  low : bounds.1 ≤ bounds'.1
  high : bounds'.2 ≤ bounds.2
  lowMilli : nanosPerMilli ∣ bounds.1 → nanosPerMilli ∣ bounds'.1
  highMilli : nanosPerMilli ∣ bounds.2 → nanosPerMilli ∣ bounds'.2

theorem Narrows.rfl (bounds : ℤ × ℤ) : Narrows bounds bounds := ⟨le_refl _, le_refl _, id, id⟩

theorem Narrows.trans {a b c : ℤ × ℤ} (hab : Narrows a b) (hbc : Narrows b c) : Narrows a c :=
  ⟨hab.low.trans hbc.low, hbc.high.trans hab.high, hbc.lowMilli ∘ hab.lowMilli,
    hbc.highMilli ∘ hab.highMilli⟩

theorem maxTime_spec {a b : ℤ} : a ≤ maxTime a b ∧ (maxTime a b = a ∨ maxTime a b = b) := by
  unfold maxTime
  split <;> omega

theorem minTime_spec {a b : ℤ} : minTime a b ≤ a ∧ (minTime a b = a ∨ minTime a b = b) := by
  unfold minTime
  split <;> omega

variable {bounds : ℤ × ℤ} {t : ℤ}

theorem narrows_low : Narrows bounds (maxTime bounds.1 (truncateMilli t), bounds.2) := by
  obtain ⟨hle, hsame | hdown⟩ := maxTime_spec
  · exact ⟨hle, le_refl _, fun h => by simpa only [hsame] using h, id⟩
  · exact ⟨hle, le_refl _, fun _ => by simpa only [hdown] using (truncateMilli_spec t).2.2, id⟩

theorem narrows_high :
    Narrows bounds (bounds.1, minTime bounds.2 (truncateMilli t + nanosPerMilli)) := by
  obtain ⟨hle, hsame | hup⟩ := minTime_spec
  · exact ⟨le_refl _, hle, id, fun h => by simpa only [hsame] using h⟩
  · refine ⟨le_refl _, hle, id, fun _ => ?_⟩
    simpa only [hup] using Int.dvd_add (truncateMilli_spec t).2.2 (Int.dvd_refl _)

variable {lower : Char → Char} {f : Filter} {r : Stored}

theorem narrow_narrows : Narrows bounds (narrow bounds f) := by
  unfold narrow
  split
  · next field op want join =>
    split
    · cases op with
      | opGt => exact narrows_low
      | opGte => exact narrows_low
      | opLt => exact narrows_high
      | opLte => exact narrows_high
      | opEq => exact narrows_low.trans narrows_high
      | opNe => exact .rfl bounds
      | opIn => exact .rfl bounds
      | opNotIn => exact .rfl bounds
      | opLike => exact .rfl bounds
    · exact .rfl bounds
  · exact .rfl bounds

theorem pushdown_narrows (f : Filter) (lo hi : ℤ) : Narrows (lo, hi) (pushdown f lo hi) := by
  unfold pushdown
  generalize (lo, hi) = bounds
  induction topClauses f generalizing bounds with
  | nil => exact .rfl bounds
  | cons c rest ih => exact narrow_narrows.trans (ih _)

def InRange (bounds : ℤ × ℤ) (t : ℤ) : Prop := bounds.1 ≤ t ∧ t < bounds.2

theorem inRange_low (bounds : ℤ × ℤ) (t ts : ℤ) (hrange : InRange bounds ts) (hle : t ≤ ts) :
    InRange (maxTime bounds.1 (truncateMilli t), bounds.2) ts := by
  have hdown := (truncateMilli_spec t).1
  obtain ⟨hlo, hhi⟩ := hrange
  obtain ⟨_, hsame | hmax⟩ := maxTime_spec
  · exact ⟨hsame.trans_le hlo, hhi⟩
  · exact ⟨hmax.trans_le (hdown.trans hle), hhi⟩

theorem inRange_high {ts : ℤ} (hrange : InRange bounds ts) (hle : ts ≤ t) :
    InRange (bounds.1, minTime bounds.2 (truncateMilli t + nanosPerMilli)) ts := by
  have hup := (truncateMilli_spec t).2.1
  obtain ⟨hlo, hhi⟩ := hrange
  obtain ⟨_, hsame | hmin⟩ := minTime_spec
  · exact ⟨hlo, hhi.trans_eq hsame.symm⟩
  · exact ⟨hlo, (hle.trans_lt hup).trans_eq hmin.symm⟩

theorem compareTime_of_keep {op : FilterOperator} {v : Value} {join : Option JoinTarget}
    (hkeep : compileResidual lower (.clause timeField op v join) r = true) :
    compareTime r.ts op v = true := by
  cases join with
  | none =>
    rw [compileResidual, compile, if_neg (by decide)] at hkeep
    simpa [residual, clausePredicate] using hkeep
  | some target =>
    rw [compileResidual, compile, if_neg (by decide)] at hkeep
    cases hkeep

/-- A row that a clause accepts stays in the range the clause narrows. -/
theorem narrow_keeps (hkeep : compileResidual lower f r = true) (hrange : InRange bounds r.ts) :
    InRange (narrow bounds f) r.ts := by
  unfold narrow
  split
  · next field op want join =>
    split
    · next hfield =>
      rw [hfield] at hkeep
      have hcompare := compareTime_of_keep hkeep
      cases op with
      | opGt => exact inRange_low bounds _ _ hrange (of_decide_eq_true hcompare).le
      | opGte => exact inRange_low bounds _ _ hrange (of_decide_eq_true hcompare)
      | opLt => exact inRange_high hrange (of_decide_eq_true hcompare).le
      | opLte => exact inRange_high hrange (of_decide_eq_true hcompare)
      | opEq =>
        have hsame : r.ts = want.nanos := of_decide_eq_true hcompare
        exact inRange_high (inRange_low bounds _ _ hrange hsame.ge) hsame.le
      | opNe => exact hrange
      | opIn => exact hrange
      | opNotIn => exact hrange
      | opLike => exact hrange
    · exact hrange
  · exact hrange

theorem topClauses_kept (hkeep : compileResidual lower f r = true) :
    ∀ c ∈ topClauses f, compileResidual lower c r = true := by
  cases f with
  | nil => simp [topClauses]
  | clause field op v join =>
    intro c hc
    rw [topClauses, List.mem_singleton] at hc
    rw [hc]
    exact hkeep
  | composite and or =>
    intro c hc
    rw [topClauses] at hc
    have hne : and ≠ [] := List.ne_nil_of_mem hc
    rw [compileResidual, compile, if_neg fun h => hne h.1, if_pos hne, compileEach_eq_map] at hkeep
    have hall := List.all_eq_true.mp hkeep
    exact hall _ (List.mem_map_of_mem hc)

/-- Pushing the time clauses down never loses a row the filter accepts. -/
theorem pushdown_keeps {lo hi : ℤ} (hkeep : compileResidual lower f r = true)
    (hrange : InRange (lo, hi) r.ts) : InRange (pushdown f lo hi) r.ts := by
  have hclauses := topClauses_kept hkeep
  unfold pushdown
  generalize (lo, hi) = bounds at hrange ⊢
  generalize topClauses f = clauses at hclauses ⊢
  induction clauses generalizing bounds with
  | nil => exact hrange
  | cons c rest ih =>
    apply ih
    · exact narrow_keeps (hclauses c List.mem_cons_self) hrange
    · exact fun c' hc' => hclauses c' (List.mem_cons_of_mem _ hc')

end KnowledgeEngine.Residual
