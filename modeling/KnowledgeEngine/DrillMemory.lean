import KnowledgeEngine.DrillValidation
import KnowledgeEngine.FlatMemory

/-!
Drilling in memory (foundation/vizql/drill.go). A spec is a record that points to its shelves,
encodings, detail and sort directives; drilling copies the record, and everything it writes it
has allocated. It therefore leaves all of memory as it was, and the record it returns reads as
the drilled spec.
-/

namespace KnowledgeEngine.DrillMemory

open CoreTypes FlatMemory

open Vizql hiding drillShelf drillSort drillEncodings Drill

/-- A node as it is in memory; the operator of a leaf is empty. -/
structure AlgebraExpr where
  Field : Option ℕ
  Op : AlgebraOp
  Args : Slice

inductive Cell
  | ref (r : FieldRef)
  | expr (e : AlgebraExpr)
  | arg (e : Option ℕ)
  | order (o : OrderField)

structure EncodingPointers where
  Color : Option ℕ
  Size : Option ℕ
  Shape : Option ℕ
  Label : Option ℕ

/-- A spec as it is passed: a record with pointers. -/
structure SpecRecord where
  TimeRange : TimeRange
  Filter : Filter
  Rows : Option ℕ
  Columns : Option ℕ
  Encodings : EncodingPointers
  Cube : String
  Grain : Grain
  Mark : Mark
  FilterJSON : String
  Detail : Slice
  «Sort» : Slice

/-- The operand of a loop over operands. -/
def drillArg (drill : List Cell → Option ℕ → Option (List Cell × Option ℕ)) (args : Slice) (i : ℕ)
    (h : List Cell) : Option (List Cell × Cell) :=
  match loadAt h args i with
  | some (.arg arg) => (drill h arg).map fun out => (out.1, .arg out.2)
  | _ => none

/-- A copy of the expression, with each leaf swapped; nothing is returned if a pointer dangles
or more nodes nest than the fuel. -/
def drillShelf (swap : FieldRef → FieldRef) :
    ℕ → List Cell → Option ℕ → Option (List Cell × Option ℕ)
  | _, h, none => some (h, none)
  | 0, _, some _ => none
  | fuel + 1, h, some e =>
    match h[e]? with
    | some (.expr ⟨some field, _, _⟩) =>
      match h[field]? with
      | some (.ref ref) =>
        let (h, ref) := alloc h [.ref (swap ref)]
        let (h, out) := alloc h [.expr ⟨some ref, .other "", ⟨none, 0⟩⟩]
        some (h, some out)
      | _ => none
    | some (.expr ⟨none, op, slice⟩) => do
      let (h, args) := alloc h (List.replicate slice.len (.arg none))
      let h ← fill (drillArg (drillShelf swap fuel) slice) args slice.len 0 h
      let (h, out) := alloc h [.expr ⟨none, op, ⟨some args, slice.len⟩⟩]
      return (h, some out)
    | _ => none

def drillRef (swap : FieldRef → FieldRef) (detail : Slice) (i : ℕ) (h : List Cell) :
    Option (List Cell × Cell) :=
  match loadAt h detail i with
  | some (.ref ref) => some (h, .ref (swap ref))
  | _ => none

def drillDetail (swap : FieldRef → FieldRef) (h : List Cell) (detail : Slice) :
    Option (List Cell × Slice) := do
  let (h, out) := alloc h (List.replicate detail.len (.ref ⟨"", .none⟩))
  let h ← fill (drillRef swap detail) out detail.len 0 h
  return (h, if detail.base = none then ⟨none, 0⟩ else ⟨some out, detail.len⟩)

/-- The directives of a clone that name the field are changed in place. -/
def renameSort (field child : String) (out : ℕ) : ℕ → ℕ → List Cell → Option (List Cell)
  | 0, _, h => some h
  | n + 1, i, h =>
    match h[out + i]? with
    | some (.order o) =>
      if o.Field = field then do
        let h ← store h (out + i) (.order { o with Field := child })
        renameSort field child out n (i + 1) h
      else renameSort field child out n (i + 1) h
    | _ => none

def drillSort (field child : String) (h : List Cell) (sort : Slice) :
    Option (List Cell × Slice) :=
  if sort.base = none then some (h, sort)
  else do
    let (h, out) := alloc h (loadSlice h sort)
    let h ← renameSort field child out sort.len 0 h
    return (h, ⟨some out, sort.len⟩)

def drillSlot (swap : FieldRef → FieldRef) (h : List Cell) :
    Option ℕ → Option (List Cell × Option ℕ)
  | none => some (h, none)
  | some slot =>
    match h[slot]? with
    | some (.ref ref) =>
      let (h, out) := alloc h [.ref (swap ref)]
      some (h, some out)
    | _ => none

def drillEncodings (swap : FieldRef → FieldRef) (h : List Cell) (enc : EncodingPointers) :
    Option (List Cell × EncodingPointers) := do
  let (h, color) ← drillSlot swap h enc.Color
  let (h, size) ← drillSlot swap h enc.Size
  let (h, shape) ← drillSlot swap h enc.Shape
  let (h, label) ← drillSlot swap h enc.Label
  return (h, ⟨color, size, shape, label⟩)

def drillRecord (fuel : ℕ) (h : List Cell) (spec : SpecRecord) (field child : String) :
    Option (List Cell × SpecRecord) := do
  let (h, rows) ← drillShelf (swap field child) fuel h spec.Rows
  let (h, columns) ← drillShelf (swap field child) fuel h spec.Columns
  let (h, detail) ← drillDetail (swap field child) h spec.Detail
  let (h, sort) ← drillSort field child h spec.Sort
  let (h, encodings) ← drillEncodings (swap field child) h spec.Encodings
  return (h, { spec with
    Rows := rows
    Columns := columns
    Detail := detail
    «Sort» := sort
    Encodings := encodings })

/-- The memory after a drill with the record it returns, or its error. -/
def Drill (fuel : ℕ) (h : List Cell) (spec : SpecRecord) (cube : CubeSchema) (field : String) :
    Option (Except AppError (List Cell × SpecRecord)) :=
  match drillChild cube field with
  | .error e => some (.error e)
  | .ok child => (drillRecord fuel h spec field child).map .ok

section Reading

variable {lo lo' : ℕ} {h h' : List Cell}

mutual

/-- The pointer reads as the shelf, through cells from an address on. -/
def ReadsShelf (lo : ℕ) (h : List Cell) (e : Option ℕ) : Shelf → Prop
  | .null => e = none
  | .field ref => ∃ p q op slice, e = some p ∧ lo ≤ p ∧ lo ≤ q ∧
      h[p]? = some (.expr ⟨some q, op, slice⟩) ∧ h[q]? = some (.ref ref)
  | .node op args => ∃ p slice, e = some p ∧ lo ≤ p ∧ h[p]? = some (.expr ⟨none, op, slice⟩) ∧
      slice.len = args.length ∧ ReadsArgs lo h slice 0 args

def ReadsArgs (lo : ℕ) (h : List Cell) (slice : Slice) (i : ℕ) : List Shelf → Prop
  | [] => True
  | arg :: rest => (∃ q e, slice.base = some q ∧ lo ≤ q ∧ h[q + i]? = some (.arg e) ∧
      ReadsShelf lo h e arg) ∧ ReadsArgs lo h slice (i + 1) rest

end

theorem readsArgs_iff {slice : Slice} {i : ℕ} {args : List Shelf} :
    ReadsArgs lo h slice i args ↔ ∀ j arg, args[j]? = some arg → ∃ q e, slice.base = some q ∧
      lo ≤ q ∧ h[q + (i + j)]? = some (.arg e) ∧ ReadsShelf lo h e arg := by
  induction args generalizing i with
  | nil => simp [ReadsArgs]
  | cons arg rest ih =>
    rw [ReadsArgs, ih]
    constructor
    · rintro ⟨hhead, hrest⟩ j a ha
      cases j with
      | zero =>
        cases ha
        exact hhead
      | succ j =>
        rw [Nat.add_comm j 1, ← Nat.add_assoc]
        exact hrest j a ha
    · intro hall
      refine ⟨hall 0 arg rfl, fun j a ha => ?_⟩
      rw [Nat.add_assoc, Nat.add_comm 1 j]
      exact hall (j + 1) a ha

mutual

/-- A shelf reads alike as long as the cells behind the address are kept. -/
theorem readsShelf_keeps {e : Option ℕ} (hle : lo' ≤ lo)
    (hkeeps : ∀ a x, lo ≤ a → h[a]? = some x → h'[a]? = some x) : ∀ s : Shelf,
    ReadsShelf lo h e s → ReadsShelf lo' h' e s
  | .null, hreads => hreads
  | .field _, ⟨p, q, op, slice, he, hp, hq, hexpr, href⟩ =>
    ⟨p, q, op, slice, he, hle.trans hp, hle.trans hq, hkeeps p _ hp hexpr, hkeeps q _ hq href⟩
  | .node _ args, ⟨p, slice, he, hp, hexpr, hlen, hargs⟩ =>
    ⟨p, slice, he, hle.trans hp, hkeeps p _ hp hexpr, hlen, readsArgs_keeps hle hkeeps 0 args hargs⟩

theorem readsArgs_keeps {slice : Slice} (hle : lo' ≤ lo)
    (hkeeps : ∀ a x, lo ≤ a → h[a]? = some x → h'[a]? = some x) (i : ℕ) :
    ∀ args : List Shelf, ReadsArgs lo h slice i args → ReadsArgs lo' h' slice i args
  | [], _ => trivial
  | arg :: rest, ⟨⟨q, e, hbase, hq, hcell, harg⟩, hrest⟩ =>
    ⟨⟨q, e, hbase, hle.trans hq, hkeeps _ _ (hq.trans (Nat.le_add_right q i)) hcell,
      readsShelf_keeps hle hkeeps arg harg⟩, readsArgs_keeps hle hkeeps (i + 1) rest hrest⟩

end

/-- A pointer to a reference, or nil for none. -/
def ReadsSlot (h : List Cell) (slot : Option ℕ) (ref : Option FieldRef) : Prop :=
  match ref with
  | none => slot = none
  | some ref => ∃ p, slot = some p ∧ h[p]? = some (.ref ref)

structure ReadsEncodings (h : List Cell) (enc : EncodingPointers) (e : Encodings) : Prop where
  color : ReadsSlot h enc.Color e.Color
  size : ReadsSlot h enc.Size e.Size
  shape : ReadsSlot h enc.Shape e.Shape
  label : ReadsSlot h enc.Label e.Label

/-- The record reads as the spec. -/
structure Reads (h : List Cell) (record : SpecRecord) (spec : VizSpec) : Prop where
  range : record.TimeRange = spec.TimeRange
  filter : record.Filter = spec.Filter
  rows : ReadsShelf 0 h record.Rows spec.Rows
  columns : ReadsShelf 0 h record.Columns spec.Columns
  encodings : ReadsEncodings h record.Encodings spec.Encodings
  cube : record.Cube = spec.Cube
  grain : record.Grain = spec.Grain
  mark : record.Mark = spec.Mark
  filterJSON : record.FilterJSON = spec.FilterJSON
  detail : Spans h record.Detail (spec.Detail.map .ref)
  sort : Spans h record.Sort (spec.Sort.map .order)

theorem readsShelf_of_initial {e : Option ℕ} {s : Shelf} (hkeeps : h <+: h')
    (hreads : ReadsShelf lo h e s) : ReadsShelf 0 h' e s :=
  readsShelf_keeps (Nat.zero_le lo) (fun _ _ _ hx => getElem?_of_initial hkeeps hx) s hreads

theorem readsSlot_of_initial {slot : Option ℕ} {ref : Option FieldRef} (hkeeps : h <+: h')
    (hreads : ReadsSlot h slot ref) : ReadsSlot h' slot ref := by
  cases ref with
  | none => exact hreads
  | some ref =>
    obtain ⟨p, hslot, hload⟩ := hreads
    exact ⟨p, hslot, getElem?_of_initial hkeeps hload⟩

theorem readsEncodings_of_initial {enc : EncodingPointers} {e : Encodings} (hkeeps : h <+: h')
    (hreads : ReadsEncodings h enc e) : ReadsEncodings h' enc e :=
  ⟨readsSlot_of_initial hkeeps hreads.color, readsSlot_of_initial hkeeps hreads.size,
    readsSlot_of_initial hkeeps hreads.shape, readsSlot_of_initial hkeeps hreads.label⟩

/-- A spec reads alike as long as its memory is kept. -/
theorem reads_of_initial {record : SpecRecord} {spec : VizSpec} (hkeeps : h <+: h')
    (hreads : Reads h record spec) : Reads h' record spec :=
  { hreads with
    rows := readsShelf_of_initial hkeeps hreads.rows
    columns := readsShelf_of_initial hkeeps hreads.columns
    encodings := readsEncodings_of_initial hkeeps hreads.encodings
    detail := hreads.detail.of_initial hkeeps
    sort := hreads.sort.of_initial hkeeps }

end Reading

end KnowledgeEngine.DrillMemory
