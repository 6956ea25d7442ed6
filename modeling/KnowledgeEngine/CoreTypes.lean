import Mathlib.Data.Int.Notation
import Mathlib.Data.Nat.Notation

/-!
The values shared by the list-query, analytics and outbox code (core/types and
core/errors): application errors, filters, sort directives, resolved list
commands, page tokens, pages, time grains and outbox records. A nil filter
interface is a filter of its own here. Operand values are the Go types the
list-query code puts into an `any`.
-/

namespace KnowledgeEngine.CoreTypes

inductive ErrorCode
  | unknown | internal | notFound | unauthorized | forbidden | invalidInput | conflict
  | timeout | canceled | unavailable | ingestion | qualityFailed | upstream
  | resourceExhausted
deriving DecidableEq

structure AppError where
  Code : ErrorCode
  Message : String

def invalidInput (message : String) : AppError := ⟨.invalidInput, message⟩

def internal (message : String) : AppError := ⟨.internal, message⟩

def notFound (message : String) : AppError := ⟨.notFound, message⟩

def codeText : ErrorCode → String
  | .unknown => "UNKNOWN"
  | .internal => "INTERNAL"
  | .notFound => "NOT_FOUND"
  | .unauthorized => "UNAUTHORIZED"
  | .forbidden => "FORBIDDEN"
  | .invalidInput => "INVALID_INPUT"
  | .conflict => "CONFLICT"
  | .timeout => "TIMEOUT"
  | .canceled => "CANCELED"
  | .unavailable => "UNAVAILABLE"
  | .ingestion => "INGESTION_ERROR"
  | .qualityFailed => "QUALITY_FAILED"
  | .upstream => "UPSTREAM"
  | .resourceExhausted => "RESOURCE_EXHAUSTED"

/-- An error: the code of the first application error in its chain (unknown if it has
none), whether a context error is in the chain, and its text. -/
structure ErrorValue where
  Code : ErrorCode
  ended : Bool
  text : String
deriving DecidableEq

def ErrorValue.new (code : ErrorCode) (message : String) : ErrorValue :=
  ⟨code, false, codeText code ++ ": " ++ message⟩

def ErrorValue.wrap (err : ErrorValue) (code : ErrorCode) (message : String) : ErrorValue :=
  ⟨code, err.ended, codeText code ++ ": " ++ message ++ ": " ++ err.text⟩

def ErrorValue.codeOr (err : ErrorValue) (fallback : ErrorCode) : ErrorCode :=
  if err.Code = .unknown then fallback else err.Code

/-- A Grain string; `other` is a string that names none of the four grains. -/
inductive Grain
  | minute | hour | day | month
  | other (name : String)
deriving DecidableEq

def Grain.text : Grain → String
  | minute => "minute"
  | hour => "hour"
  | day => "day"
  | month => "month"
  | other name => name

inductive FilterOperator
  | opEq | opNe | opIn | opNotIn | opLike | opGt | opGte | opLt | opLte
deriving DecidableEq

/-- time.Time without its monotonic reading: the instant in Unix nanoseconds, and the
offset in seconds east of UTC and the abbreviation of its zone there. -/
structure Time where
  nanos : ℤ
  offset : ℤ
  zone : String
deriving DecidableEq

/-- A float64 is its bit pattern; a uuid.UUID its sixteen bytes. -/
inductive Scalar
  | str (s : String)
  | int (n : ℤ)
  | float (bits : BitVec 64)
  | bool (b : Bool)
  | time (t : Time)
  | uuid (bytes : BitVec 128)
deriving DecidableEq

inductive Value
  | nil
  | scalar (v : Scalar)
  | list (vs : List Scalar)
deriving DecidableEq

structure JoinTarget where
  Table : String
  LocalKey : String
  TargetKey : String
  Columns : List String
  CaseInsensitive : Bool
  TargetSoftDeletes : Bool
deriving DecidableEq

inductive AggregateFunc
  | count | max | min
deriving DecidableEq

structure AggregateSpec where
  Table : String
  LocalKey : String
  TargetKey : String
  Func : AggregateFunc
  Column : String
  TargetSoftDeletes : Bool
deriving DecidableEq

structure IntervalCase where
  Value : String
  Seconds : ℤ
deriving DecidableEq

structure IntervalSpec where
  BaseColumn : String
  DiscriminatorColumn : String
  Cases : List IntervalCase
deriving DecidableEq

/-- Exactly one of the two pointers of a DerivedSort is set. -/
inductive DerivedSort
  | aggregate (spec : AggregateSpec)
  | interval (spec : IntervalSpec)
deriving DecidableEq

inductive Filter
  | nil
  | clause (Field : String) (Operator : FilterOperator) (Value : Value)
      (Join : Option JoinTarget)
  | composite (And Or : List Filter)

/-- `f == nil || f.IsEmpty()`. -/
def Filter.isEmpty : Filter → Bool
  | .nil => true
  | .clause field _ _ _ => field == ""
  | .composite and or => and.isEmpty && or.isEmpty

structure OrderField where
  Field : String
  Join : Option JoinTarget
  Derived : Option DerivedSort
  Ordinal : List String
  Desc : Bool

structure ListSpec where
  Filters : List Filter
  Order : List OrderField
  Limit : ℤ
  Offset : ℤ

structure KeysetCursor where
  SortValues : List Value
  ID : String
  Fingerprint : List UInt8

structure PageToken where
  Keyset : Option KeysetCursor
  OffsetPage : ℤ

structure PageRequest where
  Cursor : String
  PageSize : ℤ

structure Page (T : Type*) where
  Items : List T
  NextCursor : String
  Total : ℤ
  TotalIsEstimate : Bool
  PageSize : ℤ
  PageNumber : ℤ
deriving DecidableEq

/-- The record of the transactional outbox. -/
structure OutboxRecord where
  CreatedAt : ℤ
  Attributes : List (String × String)
  Tenant : String
  Lane : String
  Key : String
  Payload : List UInt8
  Attempts : ℤ
  ID : BitVec 128
deriving DecidableEq

/-- A record's attribute, empty when it has none of that name. -/
def OutboxRecord.attribute (rec : OutboxRecord) (name : String) : String :=
  (rec.Attributes.lookup name).getD ""

/-- The record attribute a routing sink reads. -/
def OutboxRouteAttribute : String := "route"

end KnowledgeEngine.CoreTypes
