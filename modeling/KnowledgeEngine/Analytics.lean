import KnowledgeEngine.CoreTypes
import KnowledgeEngine.TimeText
import Mathlib.Data.List.AList

/-!
The analytics store's configuration, calendar grains and tables
(clients/analytics/cassandra/store.go and foundation/vizql/codec.go). A time is
its Unix nanoseconds in UTC. One table per cube and grain holds partitions keyed
by org, cube and bucket; inside a partition the rows are keyed by time, dimension
key and idempotency key. Go maps with string keys are association lists without
duplicate keys.
-/

namespace KnowledgeEngine.Analytics

open Calendar CoreTypes TimeText

abbrev StringMap (V : Type*) := AList (fun _ : String => V)

def nanosPerMinute : ℤ := 60000000000

def nanosPerHour : ℤ := 3600000000000

def nanosPerMilli : ℤ := 1000000

/-- t.Truncate(d) for a positive duration that divides a day. -/
def truncateTo (t d : ℤ) : ℤ := t - t % d

/-- time.Date at midnight UTC. -/
def midnight (year month day : ℤ) : ℤ := (date year month day - epochDay) * nanosPerDay

def civilOf (t : ℤ) : Civil := civil (t / nanosPerDay + epochDay)

/-- t.AddDate(0, months, days). -/
def addDate (t months days : ℤ) : ℤ :=
  let c := civilOf t
  midnight c.year (c.month + months) (c.day + days) + t % nanosPerDay

def truncate (t : ℤ) : Grain → ℤ
  | .minute => truncateTo t nanosPerMinute
  | .hour => truncateTo t nanosPerHour
  | .day => midnight (civilOf t).year (civilOf t).month (civilOf t).day
  | .month => midnight (civilOf t).year (civilOf t).month 1
  | .other _ => t

def next (start : ℤ) : Grain → ℤ
  | .minute => start + nanosPerMinute
  | .hour => start + nanosPerHour
  | .day => addDate start 0 1
  | .month => addDate start 1 0
  | .other _ => start

def validGrain : Grain → Bool
  | .minute | .hour | .day | .month => true
  | .other _ => false

structure Config where
  Cubes : StringMap (List Grain)
  BucketWidth : Grain → Option Grain
  TTL : Grain → ℤ
  Keyspace : String
  PageSize : ℤ
  MaxConcurrentBuckets : ℤ

/-- The width found in the map, or the empty grain. -/
def Config.width (cfg : Config) (grain : Grain) : Grain :=
  (cfg.BucketWidth grain).getD (.other "")

/-- Matches ^[a-z][a-z0-9_]{0,40}$. -/
def identifier (s : String) : Bool :=
  match s.toList with
  | [] => false
  | c :: rest =>
    c.isLower && decide (rest.length ≤ 40) &&
      rest.all (fun d => d.isLower || d.isDigit || d == '_')

def checkGrains (cfg : Config) : List Grain → Except AppError Unit
  | [] => .ok ()
  | g :: rest =>
    match cfg.BucketWidth g with
    | none => .error (invalidInput ("analytics: no bucket width for grain " ++ g.text))
    | some width =>
      if !validGrain g || !validGrain width then
        .error (invalidInput ("analytics: unknown grain or bucket width for " ++ g.text))
      else checkGrains cfg rest

def checkCubes (cfg : Config) : List (Sigma fun _ : String => List Grain) → Except AppError Unit
  | [] => .ok ()
  | ⟨cube, grains⟩ :: rest =>
    if !identifier cube then .error (invalidInput ("analytics: invalid cube name " ++ cube))
    else do
      checkGrains cfg grains
      checkCubes cfg rest

/-- A validated configuration and whether a session is open. -/
structure Store where
  cfg : Config
  started : Bool

def newStore (cfg : Config) : Except AppError Store := do
  let cfg := { cfg with
    PageSize := if cfg.PageSize ≤ 0 then 500 else cfg.PageSize
    MaxConcurrentBuckets := if cfg.MaxConcurrentBuckets ≤ 0 then 8 else cfg.MaxConcurrentBuckets }
  checkCubes cfg cfg.Cubes.entries
  return ⟨cfg, false⟩

def tableName (cube : String) (grain : Grain) : String := cube ++ "_" ++ grain.text

def notStarted : AppError := ⟨.unavailable, "analytics: store is not started"⟩

/-- A partition's place: the table and the partition key. -/
structure Address where
  table : String
  org : String
  cube : String
  bucket : ℤ
deriving DecidableEq

structure RowKey where
  ts : ℤ
  dimsKey : String
  idempotencyKey : String
deriving DecidableEq

structure StoredRow (B : Type*) where
  key : RowKey
  dims : StringMap String
  partials : StringMap B

/-- The rows of a partition, one per clustering key. -/
structure Partition (B : Type*) where
  rows : List (StoredRow B)
  nodup : (rows.map StoredRow.key).Nodup

abbrev Database (B : Type*) := Address → Partition B

/-- The clustering order of a partition. -/
def RowKey.le (a b : RowKey) : Bool :=
  a.ts < b.ts || a.ts = b.ts && (a.dimsKey < b.dimsKey ||
    a.dimsKey = b.dimsKey && decide (a.idempotencyKey ≤ b.idempotencyKey))

/-- SELECT over a whole partition. -/
def Partition.scan {B : Type*} (p : Partition B) : List (StoredRow B) :=
  p.rows.mergeSort fun a b => a.key.le b.key

def Partition.delete {B : Type*} (p : Partition B) (key : RowKey) : Partition B where
  rows := p.rows.filter fun r => r.key ≠ key
  nodup := p.nodup.sublist (List.filter_sublist.map _)

def Partition.upsert {B : Type*} (p : Partition B) (row : StoredRow B) : Partition B where
  rows := p.rows.filter (fun r => r.key ≠ row.key) ++ [row]
  nodup := by
    simp only [List.map_append, List.map_cons, List.map_nil, List.nodup_append]
    refine ⟨p.nodup.sublist (List.filter_sublist.map _), List.nodup_singleton _, ?_⟩
    intro a ha b hb hab
    obtain ⟨r, hr, rfl⟩ := List.mem_map.mp ha
    rw [List.mem_singleton.mp hb] at hab
    simpa [hab] using (List.mem_filter.mp hr).2

theorem Partition.scan_perm {B : Type*} {p : Partition B} : p.scan.Perm p.rows :=
  List.mergeSort_perm _ _

def salesConfig : Config where
  Cubes := AList.singleton "sales" [.hour]
  BucketWidth g := if g = .hour then some .day else none
  TTL _ := 0
  Keyspace := "analytics"
  PageSize := 0
  MaxConcurrentBuckets := 0

def salesStore : Store :=
  ⟨{ salesConfig with PageSize := 500, MaxConcurrentBuckets := 8 }, true⟩

end KnowledgeEngine.Analytics
