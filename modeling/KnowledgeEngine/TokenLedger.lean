import KnowledgeEngine.Decimals
import KnowledgeEngine.TimeText

/-!
The Redis token ledger: RECORD_SCRIPT increments the four counters of the hash of a scope and
a window and sets the expiry of the hash, check_budget sums the counters of the current window
and compares them with the limits hash. A time zone aware datetime is its UTC time in
microseconds since the Unix epoch, within the years 1 to 9999; what does not fit raises
OverflowError. Redis removes a hash at its expiry. The usage stream, which nothing reads back
here, is left out, and with it the fields of a record that only go there.
-/

namespace KnowledgeEngine.TokenLedger

open Decimals Calendar TimeText MachineNumbers

abbrev Text := List Char

def microsPerDay : ℤ := 86400000000

def minMicros : ℤ := -62135596800000000

def maxMicros : ℤ := 253402300799999999

structure Datetime where
  micros : ℤ
  inRange : minMicros ≤ micros ∧ micros ≤ maxMicros

def Datetime.ofMicros (micros : ℤ) : Option Datetime :=
  if h : minMicros ≤ micros ∧ micros ≤ maxMicros then some ⟨micros, h⟩ else none

/-- Days since the Unix epoch. -/
def Datetime.day (t : Datetime) : ℤ := t.micros / microsPerDay

def Datetime.date (t : Datetime) : Civil := civil (t.day + epochDay)

/-- datetime(year, month, day, tzinfo=UTC) -/
def Datetime.ofDate (c : Civil) : Option Datetime :=
  Datetime.ofMicros ((Calendar.date c.year c.month c.day - epochDay) * microsPerDay)

def Datetime.addDays (t : Datetime) (days : ℤ) : Option Datetime :=
  Datetime.ofMicros (t.micros + days * microsPerDay)

/-- Seconds since the Unix epoch. -/
def Datetime.timestamp (t : Datetime) : ℤ := t.micros / 1000000

/-- The number of days of a month of the year. -/
def monthrange (year month : ℤ) : ℤ :=
  daysBeforeMonth (isLeap year) month - daysBeforeMonth (isLeap year) (month - 1)

/-- strftime("%Y-%m") -/
def monthText (c : Civil) : Text := padded 4 c.year.toNat ++ '-' :: padded 2 c.month.toNat

/-- strftime("%Y-%m-%d") -/
def dayText (c : Civil) : Text := monthText c ++ '-' :: padded 2 c.day.toNat

inductive Period where
  | daily
  | monthly
  | rolling30d
deriving DecidableEq

def rollingDays : ℕ := 30

structure UsageScope where
  orgId : Text
  workspaceId : Option Text
  required : orgId ≠ []
deriving DecidableEq

def noWorkspace : Text := ['-']

/-- The key segment of the workspace; an empty id counts as none. -/
def UsageScope.workspace (scope : UsageScope) : Text :=
  match scope.workspaceId with
  | some (c :: rest) => c :: rest
  | _ => noWorkspace

/-- The counted part of a usage record. -/
structure UsageRecord where
  scope : UsageScope
  inputTokens : ℤ
  outputTokens : ℤ
  embedTokens : ℤ
  costUsd : Decimal
  ts : Datetime

/-- COUNTER_FIELDS -/
inductive Field where
  | inputTokens
  | outputTokens
  | embedTokens
  | costMicroUsd

abbrev Counters := Field → ℤ

/-- A hash with the fields the ledger uses; a counter that is missing reads as 0. -/
structure Hash where
  counters : Counters
  tokens : Option Text
  costUsd : Option Text
  expireAt : Option ℤ

def Hash.empty : Hash := ⟨fun _ => 0, none, none, none⟩

abbrev Redis := Text → Option Hash

/-- A hash is gone from its expiry on. -/
def Hash.live (now : Datetime) (h : Hash) : Bool :=
  h.expireAt.all fun e => now.micros < e * 1000000

def lookup (now : Datetime) (redis : Redis) (key : Text) : Option Hash :=
  (redis key).filter (Hash.live now)

/-- HINCRBY takes and keeps 64-bit integers. -/
def hincrby (value increment : ℤ) : Option ℤ := do
  let increment ← fitting increment
  fitting (value + increment)

/-- The counters after the four HINCRBY. -/
def increase (counters increments : Counters) : Option Counters := do
  let inputTokens ← hincrby (counters .inputTokens) (increments .inputTokens)
  let outputTokens ← hincrby (counters .outputTokens) (increments .outputTokens)
  let embedTokens ← hincrby (counters .embedTokens) (increments .embedTokens)
  let costMicroUsd ← hincrby (counters .costMicroUsd) (increments .costMicroUsd)
  pure fun
    | .inputTokens => inputTokens
    | .outputTokens => outputTokens
    | .embedTokens => embedTokens
    | .costMicroUsd => costMicroUsd

/-- A run of RECORD_SCRIPT that succeeds. EXPIREAT with a time that has come removes the hash. -/
def recordScript (now : Datetime) (redis : Redis) (key : Text) (expireAt : ℤ)
    (increments : Counters) : Option Redis := do
  let hash := (lookup now redis key).getD Hash.empty
  let counters ← increase hash.counters increments
  let hash := { hash with counters, expireAt := some expireAt }
  pure (Function.update redis key (if hash.live now then some hash else none))

def microDollar : ℤ := -6

/-- The cost in micro-dollars, rounded half to even. -/
def costMicros (cost : Decimal) : Option ℤ := do
  let quantized ← cost.quantize microDollar
  pure (quantized.mul ⟨1000000, 0⟩).toInt

/-- The arguments ARGV[3] to ARGV[6] of the script. -/
def UsageRecord.increments (usage : UsageRecord) : Option Counters := do
  let micros ← costMicros usage.costUsd
  pure fun
    | .inputTokens => usage.inputTokens
    | .outputTokens => usage.outputTokens
    | .embedTokens => usage.embedTokens
    | .costMicroUsd => micros

inductive Reason where
  | noLimit
  | withinBudget
  | budgetExhausted
  | ledgerUnavailableFailOpen

structure BudgetDecision where
  allowed : Bool
  reason : Reason
  remainingTokens : Option ℤ
  remainingCostUsd : Option Decimal

def BudgetDecision.failOpen : BudgetDecision := ⟨true, .ledgerUnavailableFailOpen, none, none⟩

/-- What Decimal(text) reads. -/
inductive Amount where
  | finite (d : Decimal)
  | infinity (negative : Bool)
  | nan

/-- How Python reads the limit texts; none where it raises. -/
structure NumberReader where
  int : Text → Option ℤ
  decimal : Text → Option Amount

/-- The configuration: the window kind and redis_prefix. -/
structure Config where
  window : Period
  redisPrefix : Text

variable (config : Config)

def counterKey (scope : UsageScope) (window : Text) : Text :=
  config.redisPrefix ++ ':' :: (scope.orgId ++ ':' :: (scope.workspace ++ ':' :: window))

def limitsKey (scope : UsageScope) : Text :=
  config.redisPrefix ++ ':' :: ("limits".toList ++ ':' :: (scope.orgId ++ ':' :: scope.workspace))

/-- The window id a time falls in and the expiry of that bucket. -/
def bucket (ts : Datetime) : Option (Text × ℤ) :=
  let utc := ts.date
  match config.window with
  | .monthly => do
    let start ← Datetime.ofDate { utc with day := 1 }
    let stop ← start.addDays (monthrange utc.year utc.month)
    pure (monthText utc, stop.timestamp)
  | .daily => do
    let start ← Datetime.ofDate utc
    let dayEnd ← start.addDays 1
    let stop ← dayEnd.addDays 0
    pure (dayText utc, stop.timestamp)
  | .rolling30d => do
    let start ← Datetime.ofDate utc
    let dayEnd ← start.addDays 1
    let stop ← dayEnd.addDays rollingDays
    pure (dayText utc, stop.timestamp)

def windowKeys (scope : UsageScope) (now : Datetime) : Option (List Text) :=
  match config.window with
  | .rolling30d => (List.range rollingDays).mapM fun i => do
    let ts ← now.addDays (-i)
    pure (counterKey config scope (dayText ts.date))
  | _ => do
    let (window, _) ← bucket config now
    pure [counterKey config scope window]

/-- A record call whose script run succeeds, at the time of the run. -/
def record (now : Datetime) (redis : Redis) (usage : UsageRecord) : Option Redis := do
  let (window, expireAt) ← bucket config usage.ts
  let increments ← usage.increments
  recordScript now redis (counterKey config usage.scope window) expireAt increments

/-- The counter rows of the pipeline. -/
def read (now : Datetime) (redis : Redis) (keys : List Text) : List Counters :=
  keys.map fun key => ((lookup now redis key).getD Hash.empty).counters

def sumRows (rows : List Counters) : Counters := fun field => (rows.map (· field)).sum

/-- The cost in dollars: dividing by a power of ten moves the point. -/
def spent (costMicros : ℤ) : Decimal := Decimal.fit ⟨costMicros, -6⟩

/-- The cost limit less what was spent, not below 0, in whole micro-dollars. -/
def remainingCost (limit : Amount) (costMicros : ℤ) : Option Decimal :=
  match limit with
  | .finite d =>
    let rest := d.sub (spent costMicros)
    Decimal.quantize (if rest.coeff < 0 then ⟨0, 0⟩ else rest) microDollar
  | .infinity true => Decimal.quantize ⟨0, 0⟩ microDollar
  | .infinity false => none
  | .nan => none

variable (reader : NumberReader)

/-- The decision for what remains of the limits that are set. -/
def budget (remainingTokens : Option ℤ) (remainingCostUsd : Option Decimal) : BudgetDecision :=
  let exhausted := remainingTokens = some 0 ∨ remainingCostUsd.map Decimal.coeff = some 0
  ⟨¬ exhausted, if exhausted then .budgetExhausted else .withinBudget, remainingTokens,
    remainingCostUsd⟩

def decision (totals : Counters) (limits : Hash) : Option BudgetDecision :=
  if limits.tokens = none ∧ limits.costUsd = none then
    some ⟨true, .noLimit, none, none⟩
  else do
    let remainingTokens ← limits.tokens.mapM fun text => do
      let limit ← reader.int text
      pure (max (limit - (totals .inputTokens + totals .outputTokens + totals .embedTokens)) 0)
    let remainingCostUsd ← limits.costUsd.mapM fun text => do
      let limit ← reader.decimal text
      remainingCost limit (totals .costMicroUsd)
    pure (budget remainingTokens remainingCostUsd)

/-- check_budget at a time when Redis answers; none when the window has no keys. -/
def checkBudget (now : Datetime) (redis : Redis) (scope : UsageScope) :
    Option BudgetDecision := do
  let keys ← windowKeys config scope now
  let limits := (lookup now redis (limitsKey config scope)).getD Hash.empty
  pure ((decision reader (sumRows (read now redis keys)) limits).getD BudgetDecision.failOpen)

structure UsageSummary where
  scope : UsageScope
  period : Period
  inputTokens : ℤ
  outputTokens : ℤ
  embedTokens : ℤ
  costUsd : Decimal

/-- usage at a time when Redis answers; none where it raises. -/
def usage (now : Datetime) (redis : Redis) (scope : UsageScope) (period : Period) :
    Option UsageSummary := do
  if period ≠ config.window then
    none
  else
    let keys ← windowKeys config scope now
    let totals := sumRows (read now redis keys)
    let costUsd ← Decimal.quantize (spent (totals .costMicroUsd)) microDollar
    pure ⟨scope, period, totals .inputTokens, totals .outputTokens, totals .embedTokens, costUsd⟩

end KnowledgeEngine.TokenLedger
