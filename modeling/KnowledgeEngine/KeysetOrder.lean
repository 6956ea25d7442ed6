import KnowledgeEngine.CoreTypes
import KnowledgeEngine.LexOrder
import Mathlib.Data.Prod.Lex
import Mathlib.Data.String.Basic
import Mathlib.Order.WithBot

/-!
The sort columns of a list query (foundation/listquery/compile.go) and what the
backend orders by for each of them (repos/repository/compiler/ent/ent.go). A sort
field is a joined value, a derived value, the rank of a column's value in a declared
list, or the column itself; NULL is greater than every value. Columns are kept once
per signature, the caller's fields first, then the tiebreaker and the id.
-/

namespace KnowledgeEngine.KeysetOrder

open CoreTypes LexOrder

/-- A value of a database column that is not NULL. -/
inductive Cell
  | text (s : String)
  | number (n : ℤ)
  | time (t : ℤ)
deriving DecidableEq

def Cell.place : Cell → ℕ ×ₗ (String ×ₗ ℤ)
  | text s => toLex (0, toLex (s, 0))
  | number n => toLex (1, toLex ("", n))
  | time t => toLex (2, toLex ("", t))

theorem Cell.place_injective : Function.Injective Cell.place := by
  intro a b h
  cases a <;> cases b <;> simp_all [Cell.place]

instance : LinearOrder Cell := LinearOrder.lift' Cell.place Cell.place_injective

/-- A nullable value: the top element is NULL. -/
abbrev Nullable := WithTop Cell

/-- A row of any table, by column. -/
abbrev Record := String → Nullable

/-- The other tables of the database. -/
structure World where
  tables : String → List Record

/-- The rows whose key equals a value; a NULL equals nothing, and a guarded table
hides its soft-deleted rows. -/
def matching (key : String) (value : Nullable) (softDeletes : Bool) (t : Record) : Bool :=
  value ≠ ⊤ && t key = value && (!softDeletes || t "deleted_at" = ⊤)

/-- The correlated subquery of OrderJoin over one column. -/
def joinValue (w : World) (j : JoinTarget) (column : String) (row : Record) : Nullable :=
  match (w.tables j.Table).find? (matching j.TargetKey (row j.LocalKey) j.TargetSoftDeletes) with
  | some t => t column
  | none => ⊤

def aggregateValue (w : World) (spec : AggregateSpec) (row : Record) : Nullable :=
  let children := (w.tables spec.Table).filter
    (matching spec.TargetKey (row spec.LocalKey) spec.TargetSoftDeletes)
  let values := children.filterMap fun t => (t spec.Column : Option Cell)
  match spec.Func with
  | .count => ((Cell.number children.length : Cell) : Nullable)
  | .max => (values.max? : Option Cell)
  | .min => (values.min? : Option Cell)

/-- A timestamp plus the interval of the first case its discriminator names. -/
def intervalValue (spec : IntervalSpec) (row : Record) : Nullable :=
  match (row spec.BaseColumn : Option Cell), (row spec.DiscriminatorColumn : Option Cell) with
  | some (.time t), some (.text d) =>
    match spec.Cases.find? fun c => c.Value = d with
    | some c => ((Cell.time (t + c.Seconds * 1000000) : Cell) : Nullable)
    | none => ⊤
  | _, _ => ⊤

def derivedValue (w : World) : DerivedSort → Record → Nullable
  | .aggregate spec => aggregateValue w spec
  | .interval spec => intervalValue spec

/-- The CASE of OrderOrdinal: the first place in the list, its length for others. -/
def ordinalRank (values : List String) (v : Nullable) : Nullable :=
  match (v : Option Cell) with
  | some (.text s) => ((Cell.number (values.idxOf s) : Cell) : Nullable)
  | _ => ((Cell.number values.length : Cell) : Nullable)

structure KeysetColumn where
  Column : String
  Join : Option JoinTarget
  Derived : Option DerivedSort
  Ordinal : List String
  Desc : Bool
deriving DecidableEq

/-- What CompileOrder renders a column as. -/
inductive SortKind
  | join (target : JoinTarget)
  | derived (spec : DerivedSort)
  | ordinal (column : String) (values : List String)
  | plain (column : String)

def KeysetColumn.kind (k : KeysetColumn) : SortKind :=
  match k.Join with
  | some target => .join target
  | none =>
    match k.Derived with
    | some spec => .derived spec
    | none => if k.Ordinal = [] then .plain k.Column else .ordinal k.Column k.Ordinal

/-- The values ordered by: one per column of a join. -/
def sortValues (w : World) : SortKind → List (Record → Nullable)
  | .join target => target.Columns.map (joinValue w target)
  | .derived spec => [derivedValue w spec]
  | .ordinal column values => [fun row => ordinalRank values (row column)]
  | .plain column => [fun row => row column]

def orderTerms (w : World) (k : KeysetColumn) : List (Term Record Nullable) :=
  (sortValues w k.kind).map fun value => ⟨value, k.Desc⟩

/-- The resolver functions of a resource; one that is nil resolves nothing. -/
structure Resolvers where
  resolve : String → String
  joinOf : String → Option JoinTarget
  ordinalOf : String → List String
  derivedOf : String → Option DerivedSort

def joinSignature (j : JoinTarget) : String :=
  "\x00join\x00" ++ j.Table ++ "\x00" ++ String.intercalate "," j.Columns

def derivedSignature (field : String) : String := "\x00derived\x00" ++ field

def plainColumn (column : String) (desc : Bool) : KeysetColumn := ⟨column, none, none, [], desc⟩

/-- The column of one sort field with the signature it is kept under. -/
def sortColumn (r : Resolvers) (of : OrderField) : String × KeysetColumn :=
  match r.joinOf of.Field with
  | some j => (joinSignature j, ⟨"", some j, none, [], of.Desc⟩)
  | none =>
    match r.derivedOf of.Field with
    | some d => (derivedSignature of.Field, ⟨"", none, some d, [], of.Desc⟩)
    | none =>
      if r.ordinalOf of.Field = [] then
        (r.resolve of.Field, plainColumn (r.resolve of.Field) of.Desc)
      else
        (r.resolve of.Field, ⟨r.resolve of.Field, none, none, r.ordinalOf of.Field, of.Desc⟩)

def tiebreakerCreatedAt : String := "created_at"

def tiebreakerID : String := "id"

def tiebreakerColumn (tiebreaker : String) : String :=
  if tiebreaker = "" then tiebreakerCreatedAt else tiebreaker

/-- All sort columns in order, before any is dropped. -/
def requestedColumns (r : Resolvers) (ofs : List OrderField) (tiebreaker : String) :
    List (String × KeysetColumn) :=
  ofs.map (sortColumn r) ++
    [(tiebreakerColumn tiebreaker, plainColumn (tiebreakerColumn tiebreaker) true),
      (tiebreakerID, plainColumn tiebreakerID true)]

def keysetColumns (r : Resolvers) (ofs : List OrderField) (tiebreaker : String) :
    List KeysetColumn :=
  keepFirst [] (requestedColumns r ofs tiebreaker)

/-- The ORDER BY terms of the columns kept. -/
def keptTerms (w : World) (r : Resolvers) (ofs : List OrderField) (tiebreaker : String) :
    List (Term Record Nullable) :=
  (keysetColumns r ofs tiebreaker).flatMap (orderTerms w)

/-- The terms of every field the caller asked for, then the tiebreaker and the id. -/
def requestedTerms (w : World) (r : Resolvers) (ofs : List OrderField) (tiebreaker : String) :
    List (Term Record Nullable) :=
  (requestedColumns r ofs tiebreaker).flatMap fun e => orderTerms w e.2

def UniqueID (rows : List Record) : Prop := (rows.map fun row => row tiebreakerID).Nodup

instance (rows : List Record) : Decidable (UniqueID rows) :=
  inferInstanceAs (Decidable (List.Nodup _))

/-- Sorting any table by the columns kept gives the order asked for. -/
def KeepsOrder (r : Resolvers) (tiebreaker : String) : Prop :=
  ∀ (ofs : List OrderField) (w : World) (rows kept asked : List Record), UniqueID rows →
    kept.Perm rows → asked.Perm rows → SortedBy (keptTerms w r ofs tiebreaker) kept →
    SortedBy (requestedTerms w r ofs tiebreaker) asked → kept = asked

end KnowledgeEngine.KeysetOrder
