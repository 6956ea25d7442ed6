import KnowledgeEngine.AnalyticsStream
import KnowledgeEngine.GrainPeriods
import KnowledgeEngine.Residual

/-!
Writing facts to the analytics store and opening a read
(clients/analytics/cassandra/store.go and stream.go). Write puts one row per fact and
declared grain into the partition of the fact's bucket; Aggregate checks the query,
enumerates the buckets of the narrowed time range and streams their pages, filtered
and projected. The encoding of a measure and the fingerprint of a query are
parameters.
-/

namespace KnowledgeEngine.AnalyticsStore

open Analytics AnalyticsStream CoreTypes GrainPeriods Residual

variable {B : Type}

/-- New: a validated configuration over an open session. -/
def new (cfg : Config) : Except AppError Store :=
  (newStore cfg).map fun s => { s with started := true }

structure Fact where
  TS : ℤ
  Dims : StringMap String
  Measures : StringMap (BitVec 64)
  Cube : String
  OrgID : String
  IdempotencyKey : String
  Schema : ℤ

def factSchemaVersion : ℤ := 1

def hexUpper (n : UInt8) : List Char :=
  [(Nat.digitChar (n.toNat / 16)).toUpper, (Nat.digitChar (n.toNat % 16)).toUpper]

/-- url.QueryEscape of one byte. -/
def queryEscapeByte (b : UInt8) : List Char :=
  let c := Char.ofNat b.toNat
  if b < 128 && (c.isAlphanum || c == '-' || c == '_' || c == '.' || c == '~') then [c]
  else if b = 32 then ['+']
  else '%' :: hexUpper b

def queryEscape (s : String) : List Char := s.toUTF8.toList.flatMap queryEscapeByte

def pairChars (e : Sigma fun _ : String => String) : List Char :=
  queryEscape e.1 ++ '=' :: queryEscape e.2

/-- url.Values.Encode: escaped pairs in the order of their keys. -/
def dimsKey (dims : StringMap String) : String :=
  let pairs := (dims.entries.mergeSort fun a b => decide (a.1 ≤ b.1)).map pairChars
  String.ofList (List.intercalate ['&'] pairs)

/-- One row to insert: a fact at a grain. -/
structure Job (B : Type) where
  fact : Fact
  grain : Grain
  partials : StringMap B

def encodeMeasures (newPartial : BitVec 64 → Except AppError B) :
    List (Sigma fun _ : String => BitVec 64) → Except AppError (StringMap B)
  | [] => .ok ∅
  | ⟨name, v⟩ :: rest => do
    let blob ← newPartial v
    let others ← encodeMeasures newPartial rest
    return others.insert name blob

def factJobs (s : Store) (newPartial : BitVec 64 → Except AppError B) (fact : Fact) :
    Except AppError (List (Job B)) :=
  match s.cfg.Cubes.lookup fact.Cube with
  | none => .error (invalidInput ("analytics: undeclared cube " ++ fact.Cube))
  | some grains =>
    if fact.OrgID = "" ∨ fact.IdempotencyKey = "" then
      .error (invalidInput "analytics: a fact needs an org_id and an idempotency_key")
    else if fact.Schema ≠ 0 ∧ fact.Schema ≠ factSchemaVersion then
      .error (invalidInput "analytics: unknown fact schema version")
    else
      match encodeMeasures newPartial fact.Measures.entries with
      | .error e => .error e
      | .ok partials => .ok (grains.map fun grain => ⟨fact, grain, partials⟩)

def writeJobs (s : Store) (newPartial : BitVec 64 → Except AppError B) :
    List Fact → Except AppError (List (Job B))
  | [] => .ok []
  | fact :: rest => do
    let jobs ← factJobs s newPartial fact
    let others ← writeJobs s newPartial rest
    return jobs ++ others

/-- The rows a call of Write sets out to insert. -/
def write (s : Store) (newPartial : BitVec 64 → Except AppError B) (facts : List Fact) :
    Except AppError (List (Job B)) :=
  if s.started = false then .error notStarted else writeJobs s newPartial facts

def jobPlace (s : Store) (job : Job B) : Address :=
  ⟨tableName job.fact.Cube job.grain, job.fact.OrgID, job.fact.Cube,
    truncate job.fact.TS (s.cfg.width job.grain)⟩

def jobRow (job : Job B) : StoredRow B :=
  ⟨⟨truncate job.fact.TS job.grain, dimsKey job.fact.Dims, job.fact.IdempotencyKey⟩,
    job.fact.Dims, job.partials⟩

def insert (s : Store) (job : Job B) (db : Database B) : Database B :=
  Function.update db (jobPlace s job) ((db (jobPlace s job)).upsert (jobRow job))

def emptyDatabase : Database B := fun _ => ⟨[], List.nodup_nil⟩

/-- The databases calls of Write lead to: the inserts of a call run in any order and
some may fail; rows with a TTL expire at any time. -/
inductive Written (s : Store) (newPartial : BitVec 64 → Except AppError B) : Database B → Prop
  | empty : Written s newPartial emptyDatabase
  | insert (db : Database B) (facts : List Fact) (jobs : List (Job B)) (job : Job B)
      (h : Written s newPartial db) (hwrite : write s newPartial facts = .ok jobs)
      (hjob : job ∈ jobs) : Written s newPartial (insert s job db)
  | expire (db : Database B) (place : Address) (key : RowKey) (h : Written s newPartial db) :
      Written s newPartial (Function.update db place ((db place).delete key))

/-- A query; what only the fingerprint reads (aggregates, sort, limit) is left out. -/
structure AggregateQuery where
  From : ℤ
  To : ℤ
  Filter : Filter
  Cube : String
  OrgID : String
  Grain : Grain
  GroupBy : List String
  Measures : List String
  ResumeToken : List Char

/-- The zero time.Time. -/
def zeroTime : ℤ := -62135596800000000000

def coarsest (grains : List Grain) : Grain :=
  (([.month, .day, .hour, .minute] : List Grain).find? (· ∈ grains)).getD
    (grains.head?.getD (.other ""))

def measureNames (measures : List String) : List String :=
  measures.foldl (fun out name => if name ∈ out then out else out ++ [name]) []

structure Row (B : Type) where
  TS : ℤ
  Group : StringMap String
  Partials : StringMap B

structure ReadPlan where
  keep : Stored → Bool
  lo : ℤ
  hi : ℤ
  table : String
  org : String
  cube : String
  fingerprint : String
  groupBy : List String
  measures : List String
  pageSize : ℤ

def project (plan : ReadPlan) (row : StoredRow B) : Row B :=
  ⟨row.key.ts,
    plan.groupBy.foldl (fun group name => group.insert name ((row.dims.lookup name).getD "")) ∅,
    plan.measures.foldl (fun partials name =>
      match row.partials.lookup name with
      | some blob => partials.insert name blob
      | none => partials) ∅⟩

def keeps (plan : ReadPlan) (row : StoredRow B) : Bool := plan.keep ⟨row.key.ts, row.dims⟩

/-- What fetch makes of the rows the session returns. -/
def readPage (plan : ReadPlan) (rows : List (StoredRow B)) : List (Row B) :=
  (rows.filter (keeps plan)).map (project plan)

def readSource (plan : ReadPlan) (session : Source (StoredRow B)) : Source (Row B) where
  fetch bucket state :=
    (readPage plan (session.fetch bucket state).1, (session.fetch bucket state).2)
  fails := session.fails
  pages bucket state := (session.pages bucket state).map (readPage plan)
  pages_eq bucket state := by
    conv_lhs => rw [session.pages_eq]
    split <;> simp_all

abbrev ReadPlan.place (plan : ReadPlan) (bucket : ℤ) : Address :=
  ⟨plan.table, plan.org, plan.cube, bucket⟩

/-- The rows the partition SELECT asks for; CQL timestamps are milliseconds. -/
def selected (plan : ReadPlan) (db : Database B) (bucket : ℤ) : List (StoredRow B) :=
  (db (plan.place bucket)).scan.filter fun row =>
    decide (unixMilli plan.lo ≤ unixMilli row.key.ts ∧ unixMilli row.key.ts < unixMilli plan.hi)

/-- The session executes each partition SELECT: the pages of a bucket are the rows
asked for, and no read fails. -/
structure Executes (session : Source (StoredRow B)) (plan : ReadPlan) (db : Database B) : Prop where
  selects : ∀ bucket, (session.pages bucket []).flatten = selected plan db bucket
  succeeds : ∀ bucket state e, ¬ session.fails bucket state e

/-- The grain a query reads: its own, or the cube's coarsest when unset. -/
def readGrain (grains : List Grain) (q : AggregateQuery) : Grain :=
  if q.Grain = .other "" ∧ grains ≠ [] then coarsest grains else q.Grain

def openRead (lower : Char → Char) (s : Store) (q : AggregateQuery) (grain : Grain)
    (fingerprint : String) : Except AppError (ReadPlan × Stream (Row B)) :=
  let range := pushdown q.Filter q.From q.To
  match decodeToken q.ResumeToken fingerprint with
  | .error e => .error e
  | .ok resume =>
    if s.started = false then .error notStarted
    else
      .ok (⟨compileResidual lower q.Filter, range.1, range.2, tableName q.Cube grain, q.OrgID,
          q.Cube, fingerprint, q.GroupBy, measureNames q.Measures, s.cfg.PageSize⟩,
        newStream (buckets (s.cfg.width grain) range.1 range.2) resume
          s.cfg.MaxConcurrentBuckets.toNat)

def aggregate (lower : Char → Char) (queryFingerprint : AggregateQuery → Except AppError String)
    (s : Store) (q : AggregateQuery) : Except AppError (ReadPlan × Stream (Row B)) :=
  match s.cfg.Cubes.lookup q.Cube with
  | none => .error (invalidInput ("analytics: undeclared cube " ++ q.Cube))
  | some grains =>
    let grain := readGrain grains q
    if grain ∉ grains then
      .error (invalidInput ("analytics: cube " ++ q.Cube ++ " has no grain " ++ grain.text))
    else if q.OrgID = "" ∨ q.From = zeroTime ∨ q.To = zeroTime ∨ ¬ q.From < q.To then
      .error (invalidInput "analytics: a query needs an org_id and a bounded time range")
    else
      match queryFingerprint q with
      | .error e => .error e
      | .ok fingerprint => openRead lower s q grain fingerprint

end KnowledgeEngine.AnalyticsStore
