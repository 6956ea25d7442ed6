import KnowledgeEngine.Fingerprint
import KnowledgeEngine.KeysetOrder
import KnowledgeEngine.PageTokens

/-!
The paginated read (foundation/listquery/run.go and seek.go): a page token selects an
offset page or the keyset page behind a cursor, the runner fetches one row more than
the page holds, and the row left over tells whether there is a next page. Integers are
the 64-bit ones of the source.
-/

namespace KnowledgeEngine.PageRun

open CoreTypes FilterCompile FloatIntegers KeysetOrder MachineNumbers PageTokens

/-- How a read fails: with an error, or on calling a function that is nil. -/
inductive Failure
  | err (e : AppError)
  | panics

def Failure.of {α : Type} : Except AppError α → Except Failure α := Except.mapError .err

structure ListRunner (T : Type) where
  Count : List Filter → ℤ → Except AppError ℤ
  List : ListSpec → Except AppError (List T)

structure Bounds where
  DefaultSize : ℤ
  MaxSize : ℤ
  CountCap : ℤ

def defaultCountCap : ℤ := 10000

def Bounds.countCap (b : Bounds) : ℤ := if b.CountCap > 0 then b.CountCap else defaultCountCap

/-- RowValue and ParseID give none where the functions report a failure. -/
structure Keyset (T : Type) where
  RowValue : T → String → Option Value
  ParseID : Option (String → Option Value)
  TimestampCols : String → Bool

/-- The functions that may be nil are optional. -/
structure Reader (T D : Type) where
  Runner : ListRunner T
  Filter : Filter
  ToDomain : T → Except AppError D
  Resolve : Resolvers
  MapErr : Option (AppError → AppError)
  Keyset : Option (Keyset T)
  Tiebreaker : String
  sort : List OrderField
  Bounds : Bounds
  Count : Bool

variable {T D : Type} (sha256 : List UInt8 → List UInt8)

def keysetIDColumn : String := tiebreakerID

/-- `r.MapErr(err)`, called without a check for nil. -/
def mapErr {α : Type} (r : Reader T D) : Except AppError α → Except Failure α
  | .ok a => .ok a
  | .error e =>
    match r.MapErr with
    | some f => .error (.err (f e))
    | none => .error .panics

def defaultOrdering (r : Reader T D) : Bool := r.Keyset.isSome && r.sort.isEmpty

def pageLimit (page : PageRequest) (b : Bounds) : ℤ :=
  let limit := if page.PageSize ≤ 0 then
      if b.DefaultSize ≤ 0 then 10 else b.DefaultSize
    else page.PageSize
  if b.MaxSize > 0 ∧ limit > b.MaxSize then b.MaxSize else limit

def orderFields (cols : List KeysetColumn) : List OrderField :=
  cols.map fun c => ⟨c.Column, c.Join, c.Derived, c.Ordinal, c.Desc⟩

def nonEmpty (f : Filter) : List Filter := if f.isEmpty then [] else [f]

def strictClause (c : KeysetColumn) (v : Value) : Filter :=
  .clause c.Column (if c.Desc then .opLt else .opGt) v none

def seekFrom : List (KeysetColumn × Value) → Filter
  | [] => .composite [] []
  | [(c, v)] => strictClause c v
  | (c, v) :: rest =>
    .composite [] [strictClause c v, .composite [.clause c.Column .opEq v none, seekFrom rest] []]

/-- The rows strictly after a cursor; there is a value for each column. -/
def seekFilter (cols : List KeysetColumn) (values : List Value) : Filter :=
  seekFrom (cols.zip values)

def parseID (ks : Keyset T) (id : String) : Except AppError Value :=
  match ks.ParseID with
  | none => .ok (.scalar (.str id))
  | some parse =>
    match parse id with
    | some v => .ok v
    | none => .error (invalidInput "keyset cursor id is malformed")

/-- Time.UnixMicro. -/
def unixMicro (t : Time) : ℤ := wrap64 (t.nanos / 1000)

/-- `time.UnixMicro(n).UTC()`. -/
def timeOfMicro (n : ℤ) : Time := ⟨n * 1000, 0, "UTC"⟩

def unixMicroToTime : Value → Except AppError Time
  | .scalar (.float bits) => .ok (timeOfMicro (truncFloat bits))
  | .scalar (.int n) => .ok (timeOfMicro n)
  | _ => .error (invalidInput "keyset timestamp cursor value is not numeric")

def restoreValue (ks : Keyset T) (c : KeysetColumn) (v : Value) : Except AppError Value :=
  if ks.TimestampCols c.Column then (unixMicroToTime v).map fun t => .scalar (.time t)
  else .ok v

/-- The cursor's values for the columns left, from the sort values left. -/
def cursorValues (ks : Keyset T) (id : String) :
    List KeysetColumn → List Value → Except AppError (List Value)
  | [], [] => .ok []
  | [], _ :: _ => .error (invalidInput "keyset cursor has too many sort values for the sort")
  | c :: cols, sortValues =>
    if c.Column = keysetIDColumn then do
      let v ← parseID ks id
      let rest ← cursorValues ks id cols sortValues
      .ok (v :: rest)
    else
      match sortValues with
      | [] => .error (invalidInput "keyset cursor has too few sort values for the sort")
      | v :: more => do
        let v ← restoreValue ks c v
        let rest ← cursorValues ks id cols more
        .ok (v :: rest)

/-- One column of a row into the sort values and the id of its cursor. -/
def mintColumn (ks : Keyset T) (row : T) (acc : List Value × String) (c : KeysetColumn) :
    Except AppError (List Value × String) :=
  match ks.RowValue row c.Column with
  | none => .error (internal ("keyset cursor cannot extract column " ++ c.Column))
  | some v =>
    if c.Column = keysetIDColumn then
      match v with
      | .scalar (.str s) => .ok (acc.1, s)
      | _ => .error (internal "keyset id column value is not a string")
    else if ks.TimestampCols c.Column then
      match v with
      | .scalar (.time t) => .ok (acc.1 ++ [.scalar (.int (unixMicro t))], acc.2)
      | _ => .error (internal "keyset timestamp column value is not a time.Time")
    else .ok (acc.1 ++ [v], acc.2)

def mintKeysetCursor (ks : Keyset T) (cols : List KeysetColumn) (lastRow : T)
    (sort : List OrderField) (filter : Filter) : Except AppError String := do
  let minted ← cols.foldlM (mintColumn ks lastRow) ([], "")
  encodeToken ⟨some ⟨minted.1, minted.2, Fingerprint.fingerprint sha256 sort filter⟩, 0⟩

def boundedTotal (filters : List Filter) (r : Reader T D) : Except Failure (ℤ × Bool) := do
  let capN := r.Bounds.countCap
  let n ← mapErr r (r.Runner.Count filters (wrap64 (capN + 1)))
  if n > capN then .ok (capN, true) else .ok (n, false)

/-- The total of an offset page, which a context may ask to leave out. -/
def pageTotal (skipCount : Bool) (filters : List Filter) (r : Reader T D) :
    Except Failure (ℤ × Bool) :=
  if r.Count && !skipCount then boundedTotal filters r else .ok (0, false)

def offsetNextCursor (hasMore : Bool) (pageNum : ℤ) (cols : List KeysetColumn) (rows : List T)
    (r : Reader T D) : Except AppError String :=
  if !hasMore then .ok ""
  else
    match r.Keyset, rows.getLast? with
    | some ks, some last =>
      if defaultOrdering r then mintKeysetCursor sha256 ks cols last r.sort r.Filter
      else encodeToken ⟨none, wrap32 (pageNum + 1)⟩
    | _, _ => encodeToken ⟨none, wrap32 (pageNum + 1)⟩

/-- The rows of the page, and whether there are more. -/
def cutPage (limit : ℤ) (rows : List T) : List T × Bool :=
  if limit < rows.length then (rows.take limit.toNat, true) else (rows, false)

def offsetPage (skipCount : Bool) (pageNum : ℤ) (cols : List KeysetColumn)
    (order : List OrderField) (userF : Filter) (limit : ℤ) (r : Reader T D) :
    Except Failure (Page D) := do
  let pageNum := if pageNum < 1 then 1 else pageNum
  let filters := nonEmpty userF
  let fetched ← mapErr r (r.Runner.List
    ⟨filters, order, wrap64 (limit + 1), wrap64 ((pageNum - 1) * limit)⟩)
  let (rows, hasMore) := cutPage limit fetched
  let (total, estimate) ← pageTotal skipCount filters r
  let next ← Failure.of (offsetNextCursor sha256 hasMore pageNum cols rows r)
  let items ← Failure.of (rows.mapM r.ToDomain)
  .ok ⟨items, next, total, estimate, limit, pageNum⟩

def keysetNextCursor (hasMore : Bool) (ks : Keyset T) (cols : List KeysetColumn) (rows : List T)
    (r : Reader T D) : Except AppError String :=
  match rows.getLast? with
  | some last => if hasMore then mintKeysetCursor sha256 ks cols last r.sort r.Filter else .ok ""
  | none => .ok ""

def keysetPage (cur : KeysetCursor) (ks : Keyset T) (cols : List KeysetColumn)
    (order : List OrderField) (userF : Filter) (limit : ℤ) (r : Reader T D) :
    Except Failure (Page D) :=
  if cur.Fingerprint ≠ Fingerprint.fingerprint sha256 r.sort r.Filter then
    .error (.err (invalidInput
      "page token does not match the current query (sort or filter changed)"))
  else do
    let values ← Failure.of (cursorValues ks cur.ID cols cur.SortValues)
    let fetched ← mapErr r (r.Runner.List
      ⟨nonEmpty userF ++ [seekFilter cols values], order, wrap64 (limit + 1), 0⟩)
    let (rows, hasMore) := cutPage limit fetched
    let next ← Failure.of (keysetNextCursor sha256 hasMore ks cols rows r)
    let items ← Failure.of (rows.mapM r.ToDomain)
    .ok ⟨items, next, 0, false, limit, 0⟩

def readColumns (r : Reader T D) : List KeysetColumn :=
  keysetColumns r.Resolve r.sort r.Tiebreaker

def userFilter (r : Reader T D) : Filter :=
  resolveFilter r.Resolve.resolve r.Resolve.joinOf r.Filter

def run (skipCount : Bool) (page : PageRequest) (r : Reader T D) : Except Failure (Page D) := do
  let tok ← Failure.of (decodeToken page.Cursor)
  let cols := readColumns r
  let order := orderFields cols
  let userF := userFilter r
  let limit := pageLimit page r.Bounds
  match tok.Keyset, r.Keyset with
  | none, _ => offsetPage sha256 skipCount tok.OffsetPage cols order userF limit r
  | some _, none =>
    .error (.err (invalidInput "keyset pagination is not supported for this resource"))
  | some cur, some ks =>
    if defaultOrdering r then keysetPage sha256 cur ks cols order userF limit r
    else
      .error (.err (invalidInput ("keyset (infinite-scroll) pagination is only available for " ++
        "the default ordering; a custom sort uses page navigation")))

end KnowledgeEngine.PageRun
