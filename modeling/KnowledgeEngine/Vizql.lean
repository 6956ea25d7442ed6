import KnowledgeEngine.Analytics
import KnowledgeEngine.FilterParse
import KnowledgeEngine.JsonCompact

/-!
The visual query language (foundation/vizql: parse.go, algebra.go, compile.go, marks.go and
drill.go, with the specs of core/types/vizspec.go). A spec puts fields of a cube on two
shelves of table algebra, in its detail and on visual channels; it is validated against the
cube's allow-list, compiled into one aggregate query with a table of panes, and drilled from
a level of a hierarchy into the next. A spec is what its JSON text is decoded to.
-/

namespace KnowledgeEngine.Vizql

open CoreTypes FilterParse

inductive AlgebraOp
  | cross | concat | nest
  | other (text : String)

def AlgebraOp.text : AlgebraOp → String
  | cross => "cross"
  | concat => "concat"
  | nest => "nest"
  | other text => text

/-- `none` is the empty string, of a field used as a dimension. -/
inductive Aggregate
  | none | sum | avg | min | max | count | countDistinct | p50 | p95 | p99
  | other (text : String)
deriving DecidableEq

def Aggregate.text : Aggregate → String
  | none => ""
  | sum => "sum"
  | avg => "avg"
  | min => "min"
  | max => "max"
  | count => "count"
  | countDistinct => "count_distinct"
  | p50 => "p50"
  | p95 => "p95"
  | p99 => "p99"
  | other text => text

inductive Mark
  | auto | text | bar | line | point
  | other (name : String)
deriving DecidableEq

def Mark.name : Mark → String
  | auto => ""
  | text => "text"
  | bar => "bar"
  | line => "line"
  | point => "point"
  | other name => name

structure FieldRef where
  Name : String
  Agg : Aggregate

def FieldRef.Key (r : FieldRef) : String :=
  if r.Agg = .none then r.Name else r.Agg.text ++ "(" ++ r.Name ++ ")"

/-- A pointer to an AlgebraExpr: nil, a leaf, or an operator over operands. -/
inductive Shelf
  | null
  | field (ref : FieldRef)
  | node (op : AlgebraOp) (args : List Shelf)

def Shelf.isNull : Shelf → Bool
  | null => true
  | _ => false

structure Encodings where
  Color : Option FieldRef
  Size : Option FieldRef
  Shape : Option FieldRef
  Label : Option FieldRef

def Encodings.Fields (e : Encodings) : List FieldRef :=
  e.Color.toList ++ e.Size.toList ++ e.Shape.toList ++ e.Label.toList

structure TimeRange where
  From : Time
  To : Time

/-- The empty grain is `.other ""`; FilterJSON is the text of the raw message. -/
structure VizSpec where
  TimeRange : TimeRange
  Filter : Filter
  Rows : Shelf
  Columns : Shelf
  Encodings : Encodings
  Cube : String
  Grain : Grain
  Mark : Mark
  FilterJSON : String
  Detail : List FieldRef
  «Sort» : List OrderField

inductive FieldRole
  | dimension | measure | time
deriving DecidableEq

/-- A field of an allow-list with what an analytics query may do with it. -/
structure CubeField extends Field where
  Aggregates : List Aggregate
  Role : FieldRole

/-- The fields added to an allow-list, in order; a later one replaces an earlier one of the
same name. -/
structure FieldMap where
  fields : List CubeField

def FieldMap.Lookup (m : FieldMap) (name : String) : Option CubeField :=
  m.fields.reverse.find? fun f => f.Name = name

/-- The part of the allow-list the filter parser reads. -/
def FieldMap.toMap (m : FieldMap) : FilterParse.Map := ⟨m.fields.map CubeField.toField⟩

structure CubeSchema where
  Fields : Option FieldMap
  Name : String
  Hierarchies : List (List String)
  Grains : List Grain

def MaxShelfDepth : ℕ := 8

def validMark : Mark → Bool
  | .auto | .text | .bar | .line | .point => true
  | .other _ => false

def validOp : AlgebraOp → Bool
  | .cross | .concat | .nest => true
  | .other _ => false

def invalid (msg : String) : AppError := invalidInput ("vizspec: " ++ msg)

def validateRef (ref : FieldRef) (m : FieldMap) : Except AppError Unit :=
  match m.Lookup ref.Name with
  | none => .error (invalid ("unknown field " ++ ref.Name))
  | some f =>
    if f.Role = .measure then
      if ref.Agg = .none then .error (invalid ("measure " ++ ref.Name ++ " needs an aggregate"))
      else if ref.Agg ∈ f.Aggregates then .ok ()
      else .error
        (invalid ("aggregate " ++ ref.Agg.text ++ " is not permitted on " ++ ref.Name))
    else if ref.Agg ≠ .none then
      .error (invalid ("aggregate " ++ ref.Agg.text ++ " on non-measure " ++ ref.Name))
    else .ok ()

mutual

/-- One shelf expression; the keys of its leaves are added to those found so far. -/
def validateShelf (m : FieldMap) (depth : ℕ) (keys : List String) :
    Shelf → Except AppError (List String)
  | .null => .ok keys
  | .field ref =>
    if depth > MaxShelfDepth then .error (invalid "shelf nesting exceeds max depth")
    else do
      validateRef ref m
      return keys ++ [ref.Key]
  | .node op args =>
    if depth > MaxShelfDepth then .error (invalid "shelf nesting exceeds max depth")
    else if validOp op = false then .error (invalid ("unknown shelf operator " ++ op.text))
    else if args.isEmpty then
      .error (invalid ("shelf operator " ++ op.text ++ " needs operands"))
    else validateArgs m (depth + 1) keys args

def validateArgs (m : FieldMap) (depth : ℕ) (keys : List String) :
    List Shelf → Except AppError (List String)
  | [] => .ok keys
  | arg :: rest =>
    if arg.isNull then .error (invalid "null shelf operand")
    else do
      let keys ← validateShelf m depth keys arg
      validateArgs m depth keys rest

end

def validateDetail (m : FieldMap) (keys : List String) :
    List FieldRef → Except AppError (List String)
  | [] => .ok keys
  | ref :: rest =>
    match m.Lookup ref.Name with
    | some f =>
      if f.Role = .measure ∨ ref.Agg ≠ .none then
        .error (invalid ("detail field " ++ ref.Name ++ " is not a declared dimension"))
      else validateDetail m (keys ++ [ref.Key]) rest
    | none => .error (invalid ("detail field " ++ ref.Name ++ " is not a declared dimension"))

def validateEncodings (m : FieldMap) (keys : List String) :
    List FieldRef → Except AppError (List String)
  | [] => .ok keys
  | ref :: rest => do
    validateRef ref m
    validateEncodings m (keys ++ [ref.Key]) rest

def validateFields (spec : VizSpec) (m : FieldMap) : Except AppError (List String) := do
  let keys ← validateShelf m 1 [] spec.Rows
  let keys ← validateShelf m 1 keys spec.Columns
  let keys ← validateDetail m keys spec.Detail
  validateEncodings m keys spec.Encodings.Fields

/-- The zero time.Time is the start of the year 1. -/
def isZero (t : Time) : Bool := t.nanos = -62135596800000000000

def validateScalars (spec : VizSpec) : Except AppError Unit :=
  if spec.Cube = "" then .error (invalid "cube is required")
  else if spec.Grain ≠ .other "" ∧ Analytics.validGrain spec.Grain = false then
    .error (invalid ("unknown grain " ++ spec.Grain.text))
  else if validMark spec.Mark = false then .error (invalid ("unknown mark " ++ spec.Mark.name))
  else if isZero spec.TimeRange.From = false ∧ isZero spec.TimeRange.To = false ∧
      ¬ spec.TimeRange.From.nanos < spec.TimeRange.To.nanos then
    .error (invalid "time_range.from must precede time_range.to")
  else .ok ()

def compactJSON (text : String) : Except AppError String :=
  match JsonText.parse text.toList with
  | none => .error (invalidInput "vizspec: invalid filter JSON")
  | some _ => .ok (String.ofList (JsonCompact.compact text.toList))

def compileFilter (loc : Location) (spec : VizSpec) (m : FieldMap) : Except AppError VizSpec :=
  if spec.FilterJSON = "" then .ok spec
  else do
    let filter ← parseFilter loc m.toMap spec.FilterJSON
    let compact ← compactJSON spec.FilterJSON
    return { spec with Filter := filter, FilterJSON := compact }

def checkSortKeys (keys : List String) : List OrderField → Except AppError Unit
  | [] => .ok ()
  | o :: rest =>
    if o.Field ∈ keys then checkSortKeys keys rest
    else .error
      (invalid ("sort key " ++ o.Field ++ " is not a shelved dimension or aggregated measure"))

/-- The spec with its filter compiled. -/
def validate (loc : Location) (spec : VizSpec) (m : Option FieldMap) : Except AppError VizSpec := do
  validateScalars spec
  match m with
  | none => .error (invalid "cube has no field allow-list")
  | some m =>
    let keys ← validateFields spec m
    checkSortKeys keys spec.Sort
    compileFilter loc spec m

structure Tuple where
  Fields : List FieldRef
  Nested : Bool

def product (left right : List Tuple) (nest : Bool) : List Tuple :=
  left.flatMap fun l => right.map fun r => ⟨l.Fields ++ r.Fields, nest || l.Nested || r.Nested⟩

mutual

def Normalize : Shelf → List Tuple
  | .null => [⟨[], false⟩]
  | .field ref => [⟨[ref], false⟩]
  | .node .concat args => unionArgs args
  | .node .cross args => productArgs false [⟨[], false⟩] args
  | .node .nest args => productArgs true [⟨[], false⟩] args
  | .node (.other _) _ => []

def unionArgs : List Shelf → List Tuple
  | [] => []
  | arg :: rest => Normalize arg ++ unionArgs rest

def productArgs (nest : Bool) (out : List Tuple) : List Shelf → List Tuple
  | [] => out
  | arg :: rest => productArgs nest (product out (Normalize arg) nest) rest

end

structure PaneKey where
  Row : String
  Column : String
deriving DecidableEq

/-- The query of a spec; the tenant, the limit and the resume token are the caller's. -/
structure AggregateQuery where
  TimeRange : TimeRange
  Filter : Filter
  Cube : String
  Grain : Grain
  GroupBy : List String
  Measures : List FieldRef
  «Sort» : List OrderField

/-- The marks are kept in the order they are written; the last one of a pane counts. -/
structure Plan where
  Marks : List (PaneKey × Mark)
  Panes : List PaneKey
  Query : AggregateQuery

inductive FieldKind
  | ordinal | quantitative | temporal
deriving DecidableEq

def kindOf (t : Tuple) (fields : FieldMap) : FieldKind :=
  match t.Fields.getLast? with
  | none => .ordinal
  | some last =>
    if last.Agg ≠ .none then .quantitative
    else match fields.Lookup last.Name with
      | some f => if f.Role = .time then .temporal else .ordinal
      | none => .ordinal

def markFor (explicit : Mark) (row col : FieldKind) : Mark :=
  if explicit ≠ .auto then explicit
  else if row = .quantitative ∧ col = .quantitative then .point
  else if (row = .temporal ∧ col = .quantitative) ∨ (row = .quantitative ∧ col = .temporal) then
    .line
  else if row = .quantitative ∨ col = .quantitative then .bar
  else .text

/-- The lists of a query under construction. -/
structure Gathered where
  GroupBy : List String
  Measures : List FieldRef
  seenMeasure : List String

def Gathered.add (g : Gathered) (ref : FieldRef) : Except AppError Gathered :=
  if ref.Agg = .none then
    .ok (if ref.Name ∈ g.GroupBy then g else { g with GroupBy := g.GroupBy ++ [ref.Name] })
  else if ref.Agg = .countDistinct then
    .error (invalid "count_distinct is not answerable from additive partials")
  else if ref.Key ∈ g.seenMeasure then .ok g
  else .ok { g with
    Measures := g.Measures ++ [ref]
    seenMeasure := ref.Key :: g.seenMeasure }

def Gathered.addAll (g : Gathered) : List FieldRef → Except AppError Gathered
  | [] => .ok g
  | ref :: rest => do
    let g ← g.add ref
    g.addAll rest

def Gathered.checkSort (g : Gathered) : List OrderField → Except AppError Unit
  | [] => .ok ()
  | o :: rest =>
    if o.Field ∈ g.GroupBy ∨ o.Field ∈ g.seenMeasure then g.checkSort rest
    else .error (invalid ("sort key " ++ o.Field ++ " is neither grouped by nor computed"))

/-- The references of a query: those of the tuples, the detail and the encodings. -/
def queryRefs (spec : VizSpec) (rows cols : List Tuple) : List FieldRef :=
  rows.flatMap Tuple.Fields ++ cols.flatMap Tuple.Fields ++ spec.Detail ++ spec.Encodings.Fields

def aggregateQuery (spec : VizSpec) (rows cols : List Tuple) : Except AppError AggregateQuery := do
  let g ← Gathered.addAll ⟨[], [], []⟩ (queryRefs spec rows cols)
  g.checkSort spec.Sort
  return {
    TimeRange := spec.TimeRange
    Filter := spec.Filter
    Cube := spec.Cube
    Grain := spec.Grain
    GroupBy := g.GroupBy
    Measures := g.Measures
    «Sort» := spec.Sort }

def tupleKey (t : Tuple) : String := ",".intercalate (t.Fields.map FieldRef.Key)

/-- The panes, rows outer and columns inner. -/
def panes (rows cols : List Tuple) : List PaneKey :=
  rows.flatMap fun r => cols.map fun c => ⟨tupleKey r, tupleKey c⟩

def Compile (spec : VizSpec) (cube : CubeSchema) : Except AppError Plan :=
  match cube.Fields with
  | none => .error (invalid ("cube " ++ cube.Name ++ " has no field allow-list"))
  | some fields =>
    if spec.Cube ≠ cube.Name then
      .error (invalid ("spec cube " ++ spec.Cube ++ " does not match " ++ cube.Name))
    else if spec.Grain ≠ .other "" ∧ cube.Grains ≠ [] ∧ spec.Grain ∉ cube.Grains then
      .error (invalid
        ("cube " ++ cube.Name ++ " is not rolled up at grain " ++ spec.Grain.text))
    else do
      let rows := Normalize spec.Rows
      let cols := Normalize spec.Columns
      let query ← aggregateQuery spec rows cols
      return {
        Marks := rows.flatMap fun r => cols.map fun c =>
          (⟨tupleKey r, tupleKey c⟩, markFor spec.Mark (kindOf r fields) (kindOf c fields))
        Panes := panes rows cols
        Query := query }

/-- The level after the field in one path. -/
def childIn (field : String) : List String → Option String
  | level :: next :: rest => if level = field then some next else childIn field (next :: rest)
  | _ => none

def childOf (hierarchies : List (List String)) (field : String) : Option String :=
  hierarchies.findSome? (childIn field)

def swap (field child : String) (ref : FieldRef) : FieldRef :=
  if ref.Name = field ∧ ref.Agg = .none then { ref with Name := child } else ref

mutual

def drillShelf (swap : FieldRef → FieldRef) : Shelf → Shelf
  | .null => .null
  | .field ref => .field (swap ref)
  | .node op args => .node op (drillArgs swap args)

def drillArgs (swap : FieldRef → FieldRef) : List Shelf → List Shelf
  | [] => []
  | arg :: rest => drillShelf swap arg :: drillArgs swap rest

end

/-- A sort directive with the field renamed to its child. -/
def drillSort (field child : String) (o : OrderField) : OrderField :=
  if o.Field = field then { o with Field := child } else o

def drillEncodings (swap : FieldRef → FieldRef) (e : Encodings) : Encodings where
  Color := e.Color.map swap
  Size := e.Size.map swap
  Shape := e.Shape.map swap
  Label := e.Label.map swap

/-- The child a drill goes to. -/
def drillChild (cube : CubeSchema) (field : String) : Except AppError String :=
  match cube.Fields with
  | none => .error (invalid ("cube " ++ cube.Name ++ " has no field allow-list"))
  | some fields =>
    match childOf cube.Hierarchies field with
    | none => .error (invalid ("field " ++ field ++ " has no child level to drill into"))
    | some child =>
      match fields.Lookup child with
      | none => .error (invalid ("drill child " ++ child ++ " is not declared by the cube"))
      | some _ => .ok child

/-- The spec with the child in place of the field. -/
def drilled (field child : String) (spec : VizSpec) : VizSpec :=
  { spec with
    Rows := drillShelf (swap field child) spec.Rows
    Columns := drillShelf (swap field child) spec.Columns
    Detail := spec.Detail.map (swap field child)
    «Sort» := spec.Sort.map (drillSort field child)
    Encodings := drillEncodings (swap field child) spec.Encodings }

def Drill (spec : VizSpec) (cube : CubeSchema) (field : String) : Except AppError VizSpec := do
  let child ← drillChild cube field
  return drilled field child spec

end KnowledgeEngine.Vizql
