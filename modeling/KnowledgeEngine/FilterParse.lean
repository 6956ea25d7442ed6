import KnowledgeEngine.CoreTypes
import KnowledgeEngine.FloatRoundTrip
import KnowledgeEngine.JsonReading
import KnowledgeEngine.Rfc3339
import KnowledgeEngine.StringText

/-!
Reading a client's filter and sort order (foundation/listquery/filter.go, order.go and
parse.go). Filters are JSON objects with one operator each, checked against an
allow-list of typed fields; sort fields outside their allow-list are dropped. A JSON
object is a map: a repeated key keeps its last value.
-/

namespace KnowledgeEngine.FilterParse

open CoreTypes FloatText JsonText MachineNumbers StringText

inductive FieldType
  | string | int | float | bool | time | id
  | other (n : ℤ)
deriving DecidableEq

structure Field where
  Join : Option JoinTarget
  Name : String
  Column : String
  Ordinal : List String
  «Type» : FieldType
deriving DecidableEq

/-- The fields added to an allow-list, in order; a later one replaces an earlier one of
the same name. -/
structure Map where
  fields : List Field

def Map.lookup (m : Map) (name : String) : Option Field :=
  m.fields.reverse.find? fun f => f.Name = name

def Map.column (m : Map) (field : String) : String :=
  match m.lookup field with
  | some f => f.Column
  | none => field

def Map.join (m : Map) (field : String) : Option JoinTarget :=
  (m.lookup field).bind fun f => f.Join

/-- The local time zone: offset and abbreviation at a Unix second. Abbreviations are
made of letters, digits and signs. -/
structure Location where
  lookup : ℤ → ℤ × String
  abbreviation : ∀ second, ∀ c ∈ (lookup second).2.toList, c.isAlphanum = true ∨ c = '+' ∨ c = '-'

def utc : Location where
  lookup _ := (0, "UTC")
  abbreviation _ c hc := by
    have hletters : "UTC".toList.all Char.isAlphanum = true := by decide
    exact Or.inl (List.all_eq_true.mp hletters c hc)

/-- time.Parse with the layout RFC3339: an offset the local zone has at that instant
becomes the local zone, another one an unnamed zone. -/
def parseTime (loc : Location) (s : String) : Option Time :=
  (Rfc3339.parse s.toList).map fun parsed =>
    match parsed with
    | (wall, none) => ⟨wall, 0, "UTC"⟩
    | (wall, some offset) =>
      let nanos := wall - offset * 1000000000
      let found := loc.lookup (nanos / 1000000000)
      ⟨nanos, offset, if found.1 = offset then found.2 else ""⟩

def opToken : String → Option FilterOperator
  | "$eq" => some .opEq
  | "$ne" => some .opNe
  | "$in" => some .opIn
  | "$not_in" => some .opNotIn
  | "$like" => some .opLike
  | "$gt" => some .opGt
  | "$gte" => some .opGte
  | "$lt" => some .opLt
  | "$lte" => some .opLte
  | _ => none

abbrev RawMap := List (String × Json)

def setKey (key : String) (value : Json) : RawMap → RawMap
  | [] => [(key, value)]
  | (k, v) :: rest => if k = key then (key, value) :: rest else (k, v) :: setKey key value rest

/-- Unmarshal into a map; null is the nil map. -/
def unmarshalMap : Json → Option RawMap
  | .obj members => some (members.foldl (fun acc member => setKey member.1 member.2 acc) [])
  | .null => some []
  | _ => none

def unmarshalArray : Json → Option (List Json)
  | .arr items => some items
  | .null => some []
  | _ => none

def mismatch : AppError := invalidInput "filter: value type does not match field type"

def decodeScalar (loc : Location) (raw : Json) : FieldType → Except AppError Scalar
  | .string | .id =>
    match raw with
    | .str s => .ok (.str s)
    | _ => .error mismatch
  | .int =>
    match raw with
    | .num literal => ((parseDecimal literal).map Scalar.int).elim (.error mismatch) .ok
    | _ => .error mismatch
  | .float =>
    match raw with
    | .num literal => ((parseFloat literal).map Scalar.float).elim (.error mismatch) .ok
    | _ => .error mismatch
  | .bool =>
    match raw with
    | .bool b => .ok (.bool b)
    | _ => .error mismatch
  | .time =>
    match raw with
    | .str s => ((parseTime loc s).map Scalar.time).elim
        (.error (invalidInput "filter: time value must be RFC3339")) .ok
    | _ => .error mismatch
  | .other _ => .error mismatch

def decodeValue (loc : Location) (op : FilterOperator) (raw : Json) (ft : FieldType) :
    Except AppError Value :=
  if op = .opIn ∨ op = .opNotIn then
    match unmarshalArray raw with
    | none => .error (invalidInput "filter: in/not_in requires an array")
    | some items => do
      let vs ← items.mapM fun item => decodeScalar loc item ft
      return .list vs
  else do
    let v ← decodeScalar loc raw ft
    return .scalar v

def parseClause (loc : Location) (m : Map) (op : FilterOperator) (raw : Json) :
    Except AppError Filter :=
  match unmarshalMap raw with
  | none => .error (invalidInput "filter: operator body must be \x7bfield: value\x7d")
  | some [(name, rawV)] =>
    match m.lookup name with
    | none => .error (invalidInput ("filter: field not allow-listed: " ++ name))
    | some field => do
      let value ← decodeValue loc op rawV field.Type
      return .clause field.Name op value none
  | some _ => .error (invalidInput "filter: operator body must carry exactly one field")

def maxFilterDepth : ℕ := 32

/-- One filter object; `levels` is how many more objects may nest, this one included. -/
def parseNode (loc : Location) (m : Map) : ℕ → RawMap → Except AppError Filter
  | 0, _ => .error (invalidInput "filter: nesting exceeds max depth")
  | levels + 1, [(key, raw)] =>
    if key = "$and" ∨ key = "$or" then
      match (unmarshalArray raw).bind fun items => items.mapM unmarshalMap with
      | none => .error (invalidInput ("filter: " ++ key ++ " must be an array of filters"))
      | some [] => .error (invalidInput ("filter: " ++ key ++ " must not be empty"))
      | some nodes => do
        let subs ← nodes.mapM (parseNode loc m levels)
        return if key = "$and" then .composite subs [] else .composite [] subs
    else
      match opToken key with
      | none => .error (invalidInput ("filter: unknown operator " ++ key))
      | some op => parseClause loc m op raw
  | _ + 1, _ => .error (invalidInput "filter: each object must carry exactly one operator")

/-- Parse; blank text and an object without operators are the empty filter. -/
def parseFilter (loc : Location) (m : Map) (text : String) : Except AppError Filter :=
  if trimSpace text.toList = [] then .ok (.composite [] [])
  else
    match (JsonText.parse text.toList).bind unmarshalMap with
    | none => .error (invalidInput "filter: invalid JSON")
    | some [] => .ok (.composite [] [])
    | some node => parseNode loc m (maxFilterDepth + 1) node

/-- The text of an object with one operator. -/
def filterText (op : String) (body : Json) : String := String.ofList (print (.obj [(op, body)]))

/-- The sort fields of a comma-separated list of `field[:dir]` that are in the set. -/
def parseList (set : List String) (spec : String) : List OrderField :=
  (spec.toList.splitOn ',').filterMap fun token =>
    let (name, dir) := cut ':' (trimSpace token)
    let field := String.ofList (trimSpace name)
    if field = "" ∨ field ∉ set then none
    else some ⟨field, none, none, [], equalFold "desc" (String.ofList (trimSpace dir))⟩

/-- The operands a field of a type can have. -/
inductive Decodes (loc : Location) : FieldType → Scalar → Prop
  | string (s : String) : Decodes loc .string (.str s)
  | id (s : String) : Decodes loc .id (.str s)
  | int (n : ℤ) (h : Fits64 n) : Decodes loc .int (.int n)
  | float (bits : BitVec 64) (h : bits.toNat % 2 ^ 63 < infinity) : Decodes loc .float (.float bits)
  | bool (b : Bool) : Decodes loc .bool (.bool b)
  | time (s : String) (t : Time) (h : parseTime loc s = some t) : Decodes loc .time (.time t)

def DecodesValue (loc : Location) (op : FilterOperator) (ft : FieldType) : Value → Prop
  | .nil => False
  | .scalar v => op ≠ .opIn ∧ op ≠ .opNotIn ∧ Decodes loc ft v
  | .list vs => (op = .opIn ∨ op = .opNotIn) ∧ ∀ v ∈ vs, Decodes loc ft v

/-- The filters of objects the parser accepts. -/
inductive Parsed (loc : Location) (m : Map) : Filter → Prop
  | clause (name : String) (op : FilterOperator) (field : Field) (v : Value)
      (hfield : m.lookup name = some field) (hv : DecodesValue loc op field.Type v) :
      Parsed loc m (.clause name op v none)
  | and (subs : List Filter) (hne : subs ≠ []) (h : ∀ sub ∈ subs, Parsed loc m sub) :
      Parsed loc m (.composite subs [])
  | or (subs : List Filter) (hne : subs ≠ []) (h : ∀ sub ∈ subs, Parsed loc m sub) :
      Parsed loc m (.composite [] subs)

theorem elim_ok_iff {α : Type} {o : Option α} {e : AppError} {a : α} :
    o.elim (Except.error e) .ok = .ok a ↔ o = some a := by
  cases o <;> simp

theorem bind_ok_iff {ε α β : Type} {x : Except ε α} {f : α → Except ε β} {b : β} :
    x >>= f = .ok b ↔ ∃ a, x = .ok a ∧ f a = .ok b := by
  constructor
  · intro h
    cases x with
    | error e => exact nomatch h
    | ok a => exact ⟨a, rfl, h⟩
  · rintro ⟨a, rfl, h⟩
    exact h

/-- Two steps one after the other both succeed. -/
theorem bind₂_ok_iff {ε α β γ : Type} {x : Except ε α} {y : Except ε β} {g : α → β → γ} :
    (∃ c, (do return g (← x) (← y)) = .ok c) ↔ (∃ a, x = .ok a) ∧ ∃ b, y = .ok b := by
  cases x <;> cases y <;> simp [bind, Except.bind, pure, Except.pure]

theorem mapM_ok_iff {α β : Type} {f : α → Except AppError β} {items : List α} {out : List β} :
    items.mapM f = .ok out ↔ List.Forall₂ (fun a b => f a = .ok b) items out := by
  constructor
  · intro h
    induction items generalizing out with
    | nil =>
      cases h
      exact .nil
    | cons a rest ih =>
      rw [List.mapM_cons] at h
      obtain ⟨b, hb, h⟩ := bind_ok_iff.mp h
      obtain ⟨bs, hbs, h⟩ := bind_ok_iff.mp h
      cases h
      exact .cons hb (ih hbs)
  · intro h
    induction h with
    | nil => rfl
    | cons hab _ ih =>
      rw [List.mapM_cons, hab, ih]
      rfl

theorem lookup_name {m : Map} {name : String} {field : Field} (h : m.lookup name = some field) :
    field.Name = name := by
  simpa using List.find?_some h

theorem parseList_field {set : List String} {spec : String} {of : OrderField}
    (h : of ∈ parseList set spec) :
    of.Field ≠ "" ∧ of.Field ∈ set ∧ of = ⟨of.Field, none, none, [], of.Desc⟩ := by
  obtain ⟨token, _, htoken⟩ := List.mem_filterMap.mp h
  simp only [Option.ite_none_left_eq_some, Option.some.injEq, not_or, not_not] at htoken
  obtain ⟨⟨hne, hmem⟩, rfl⟩ := htoken
  exact ⟨hne, hmem, rfl⟩

theorem parseFilter_filterText (loc : Location) (m : Map) (op : String) (body : Json)
    (hvalid : body.Valid) (hdepth : body.nesting + 1 ≤ maxNestingDepth) :
    parseFilter loc m (filterText op body) = parseNode loc m (maxFilterDepth + 1) [(op, body)] := by
  have hparse := JsonReading.parse_print (.obj [(op, body)])
    (by simp [Json.Valid, ValidMembers, hvalid])
    (by simp only [Json.nesting, nestingMembers]; omega)
  have htext : trimSpace (print (.obj [(op, body)])) ≠ [] := by
    rw [print]
    exact trimSpace_cons_ne_nil (by decide)
  unfold parseFilter filterText
  rw [String.toList_ofList, if_neg htext, hparse]
  rfl

end KnowledgeEngine.FilterParse
