import KnowledgeEngine.FilterCompile
import KnowledgeEngine.FilterGrammar

/-!
The SQL predicates of the Ent backend (repos/repository/compiler/ent/ent.go). A
predicate is what it adds to a query's WHERE; an operand whose type does not fit its
operator adds nothing. The operands the parser accepts fit every operator but one: the
text match takes the operand of any field and applies to texts alone.
-/

namespace KnowledgeEngine.EntBackend

open CoreTypes FilterCompile FilterGrammar FilterParse List Traversals

structure Column where
  table : String
  name : String

inductive Comparison
  | eq | neq | gt | gte | lt | lte

/-- A *sql.Predicate. -/
inductive Predicate
  | compare (c : Comparison) (column : Column) (value : Value)
  | contains (column : Column) (s : String)
  | containsFold (column : Column) (s : String)
  | isIn (column : Column) (values : List Scalar)
  | notIn (column : Column) (values : List Scalar)
  | columnsEQ (a b : Column)
  | isNull (column : Column)
  | and (ps : List Predicate)
  | or (ps : List Predicate)
  | existsRow (select : Column) (condition : Predicate)

/-- The predicates a function of the selector adds, given the selector's table. -/
abbrev EntPredicate := String → List Predicate

def noop : EntPredicate := fun _ => []

/-- colPredicate; nil is none. -/
def colPredicate (col : Column) (op : FilterOperator) (v : Value) (caseInsensitive : Bool) :
    Option Predicate :=
  match op with
  | .opEq => some (.compare .eq col v)
  | .opNe => some (.compare .neq col v)
  | .opGt => some (.compare .gt col v)
  | .opGte => some (.compare .gte col v)
  | .opLt => some (.compare .lt col v)
  | .opLte => some (.compare .lte col v)
  | .opLike =>
    match v with
    | .scalar (.str s) => some (if caseInsensitive then .containsFold col s else .contains col s)
    | _ => none
  | .opIn =>
    match v with
    | .list vs => some (.isIn col vs)
    | _ => none
  | .opNotIn =>
    match v with
    | .list vs => some (.notIn col vs)
    | _ => none

def clause (col : String) (op : FilterOperator) (v : Value) : EntPredicate :=
  match op with
  | .opEq => fun table => [.compare .eq ⟨table, col⟩ v]
  | .opNe => fun table => [.compare .neq ⟨table, col⟩ v]
  | .opGt => fun table => [.compare .gt ⟨table, col⟩ v]
  | .opGte => fun table => [.compare .gte ⟨table, col⟩ v]
  | .opLt => fun table => [.compare .lt ⟨table, col⟩ v]
  | .opLte => fun table => [.compare .lte ⟨table, col⟩ v]
  | .opLike =>
    match v with
    | .scalar (.str s) => fun table => [.containsFold ⟨table, col⟩ s]
    | _ => noop
  | .opIn =>
    match v with
    | .list vs => fun table => [.isIn ⟨table, col⟩ vs]
    | _ => noop
  | .opNotIn =>
    match v with
    | .list vs => fun table => [.notIn ⟨table, col⟩ vs]
    | _ => noop

def existsClause (join : JoinTarget) (op : FilterOperator) (v : Value) : EntPredicate :=
  fun table =>
  match join.Columns.filterMap fun col =>
      colPredicate ⟨join.Table, col⟩ op v join.CaseInsensitive with
  | [] => []
  | first :: rest =>
    let valuePred := if rest = [] then first else .or (first :: rest)
    let conds := [.columnsEQ ⟨join.Table, join.TargetKey⟩ ⟨table, join.LocalKey⟩, valuePred] ++
      if join.TargetSoftDeletes then [.isNull ⟨join.Table, "deleted_at"⟩] else []
    [.existsRow ⟨join.Table, join.TargetKey⟩ (.and conds)]

def backend : QueryBackend EntPredicate where
  Clause := clause
  ExistsClause := existsClause
  And subs := fun table => [.and (subs.flatMap fun p => p table)]
  Or subs := fun table => [.or (subs.flatMap fun p => p table)]
  Empty := noop

/-- A predicate that restricts every query it is added to. -/
def Applies (p : EntPredicate) : Prop := ∀ table, p table ≠ []

/-- The predicate of a clause on an allow-listed field. -/
def leafPredicate (m : Map) (leaf : Leaf) : EntPredicate :=
  match m.join leaf.Field with
  | some join => existsClause join leaf.Operator leaf.Value
  | none => clause (m.column leaf.Field) leaf.Operator leaf.Value

variable {op : FilterOperator} {v : Value}

/-- A clause is folded to the predicate of its leaf once its field and column are named. -/
theorem compile_leaf {m : Map} {field : String} {value : Value} (hfield : field ≠ "")
    (hcolumn : m.column field ≠ "") :
    compile backend id (resolveFilter m.column m.join (.clause field op value none)) =
      leafPredicate m ⟨field, op, value⟩ := by
  rw [resolveFilter, if_neg hfield, leafPredicate]
  cases hjoin : m.join field with
  | none =>
    rw [compile, if_neg hcolumn]
    rfl
  | some join =>
    rw [compile, if_neg hcolumn]
    rfl

/-- The operand types an operator takes. -/
def Fits (op : FilterOperator) (v : Value) : Prop :=
  match op with
  | .opLike => ∃ s, v = .scalar (.str s)
  | .opIn | .opNotIn => ∃ vs, v = .list vs
  | _ => True

theorem clause_applies {col : String} : Applies (clause col op v) ↔ Fits op v := by
  have hnoop : ¬ Applies noop := fun h => h "" rfl
  cases op with
  | opEq | opNe | opGt | opGte | opLt | opLte => simp [Applies, clause, Fits]
  | opLike =>
    cases v with
    | scalar v =>
      cases v with
      | str s => simp [Applies, clause, Fits]
      | int n | float bits | bool b | time t | uuid bytes => simp [clause, Fits, hnoop]
    | nil | list vs => simp [clause, Fits, hnoop]
  | opIn | opNotIn =>
    cases v with
    | list vs => simp [Applies, clause, Fits]
    | nil | scalar v => simp [clause, Fits, hnoop]

theorem colPredicate_fits {col : Column} {fold : Bool} :
    colPredicate col op v fold ≠ none ↔ Fits op v := by
  cases op with
  | opEq | opNe | opGt | opGte | opLt | opLte => simp [colPredicate, Fits]
  | opLike =>
    cases v with
    | scalar v => cases v <;> simp [colPredicate, Fits]
    | nil | list vs => simp [colPredicate, Fits]
  | opIn | opNotIn =>
    cases v with
    | list vs => simp [colPredicate, Fits]
    | nil | scalar v => simp [colPredicate, Fits]

theorem existsClause_applies {join : JoinTarget} (hcolumns : join.Columns ≠ []) :
    Applies (existsClause join op v) ↔ Fits op v := by
  have hpreds : (join.Columns.filterMap fun col =>
      colPredicate ⟨join.Table, col⟩ op v join.CaseInsensitive) = [] ↔ ¬ Fits op v := by
    rw [filterMap_eq_nil_iff]
    constructor
    · intro h hfits
      exact colPredicate_fits.mpr hfits (h _ (head_mem hcolumns))
    · intro h col _
      by_contra hsome
      exact h (colPredicate_fits.mp hsome)
  unfold Applies existsClause
  split
  · next hnil =>
    simp only [ne_eq, not_true_eq_false, hpreds.mp hnil]
    exact ⟨fun h => h "", fun h => h.elim⟩
  · next first rest hcons =>
    have hfits : Fits op v := by
      by_contra hnot
      rw [hpreds.mpr hnot] at hcons
      exact nomatch hcons
    exact ⟨fun _ => hfits, fun _ _ => cons_ne_nil _ _⟩

/-- A field of text: its operands are decoded to strings. -/
def TextField (m : Map) (name : String) : Prop :=
  ∀ field, m.lookup name = some field → field.Type = .string ∨ field.Type = .id

/-- The fields named under `$like` in a filter object. -/
def likeFields : ℕ → RawMap → List String
  | 0, _ => []
  | levels + 1, [(key, raw)] =>
    if key = "$and" ∨ key = "$or" then
      match (unmarshalArray raw).bind fun items => items.mapM unmarshalMap with
      | some nodes => nodes.flatMap (likeFields levels)
      | none => []
    else if key = "$like" then
      match unmarshalMap raw with
      | some body => body.map Prod.fst
      | none => []
    else []
  | _ + 1, _ => []

def textLikeFields (text : String) : List String :=
  if StringText.trimSpace text.toList = [] then []
  else
    match (JsonText.parse text.toList).bind unmarshalMap with
    | some node => likeFields (maxFilterDepth + 1) node
    | none => []

/-- Every `$like` of a filter text is on a field of text. -/
def LikesText (m : Map) (text : String) : Prop := ∀ name ∈ textLikeFields text, TextField m name

def JoinsHaveColumns (m : Map) : Prop :=
  ∀ name join, m.join name = some join → join.Columns ≠ []

theorem leafPredicate_applies (m : Map) (hjoins : JoinsHaveColumns m) (leaf : Leaf) :
    Applies (leafPredicate m leaf) ↔ Fits leaf.Operator leaf.Value := by
  unfold leafPredicate
  cases hjoin : m.join leaf.Field with
  | some join => exact existsClause_applies (hjoins leaf.Field join hjoin)
  | none => exact clause_applies

/-- The operands of accepted clauses fit their operators, a text match apart. -/
theorem decodes_fits {loc : Location} {ft : FieldType} (h : DecodesValue loc op ft v) :
    Fits op v ↔ (op = .opLike → ft = .string ∨ ft = .id) := by
  cases v with
  | nil => exact h.elim
  | list vs =>
    rcases h.1 with rfl | rfl <;> simp [Fits]
  | scalar v =>
    obtain ⟨hin, hnotIn, hdecodes⟩ := h
    cases op with
    | opIn => exact absurd rfl hin
    | opNotIn => exact absurd rfl hnotIn
    | opEq | opNe | opGt | opGte | opLt | opLte => simp [Fits]
    | opLike => cases hdecodes <;> simp [Fits]

theorem opToken_like {key : String} (h : opToken key = some op) : op = .opLike ↔ key = "$like" := by
  unfold opToken at h
  split at h <;> cases h <;> simp_all

theorem textField_iff {m : Map} {name : String} {field : Field} (h : m.lookup name = some field) :
    TextField m name ↔ field.Type = .string ∨ field.Type = .id := by
  unfold TextField
  rw [h]
  exact ⟨fun hall => hall field rfl, fun htext _ heq => Option.some.inj heq ▸ htext⟩

theorem parseNode_applies (loc : Location) (m : Map) (hjoins : JoinsHaveColumns m) (levels : ℕ)
    (node : RawMap) (f : Filter) (h : parseNode loc m levels node = .ok f) :
    (∀ leaf ∈ leaves f, Applies (leafPredicate m leaf)) ↔
      ∀ name ∈ likeFields levels node, TextField m name := by
  induction levels generalizing node f with
  | zero => exact nomatch h
  | succ levels ih =>
    rcases node with _ | ⟨⟨key, raw⟩, _ | ⟨second, rest⟩⟩
    · exact nomatch h
    · by_cases hkey : key = "$and" ∨ key = "$or"
      · obtain ⟨items, subs, hitems, -, hall, rfl⟩ := (parseNode_composite_iff hkey).mp h
        obtain ⟨nodes, hnodes, hsubs⟩ := (forall₂_comp _ _ _ _).mpr hall
        have hleaves : leaves (compositeOf key subs) = subs.flatMap leaves := by
          unfold compositeOf
          split <;> simp [leaves, leavesEach_eq_flatMap]
        rw [likeFields, if_pos hkey, hitems, Option.bind_some, mapM_some_iff.mpr hnodes, hleaves]
        simp only [forall_mem_flatMap]
        clear hnodes hleaves h hall
        induction hsubs with
        | nil => simp
        | cons hfirst _ ihrest =>
          rw [forall_mem_cons, forall_mem_cons]
          exact and_congr (ih _ _ hfirst) ihrest
      · obtain ⟨op, hop, hclause⟩ := (parseNode_clause_iff hkey).mp h
        obtain ⟨name, operand, field, v, hbody, hlookup, hv, rfl⟩ := parseClause_iff.mp hclause
        obtain ⟨rawV, hbody, -⟩ := readBody_eq_single.mp hbody
        rw [likeFields, if_neg hkey, leaves, forall_mem_singleton,
          leafPredicate_applies m hjoins, decodes_fits hv.decodes, hbody,
          opToken_like hop, ← textField_iff hlookup]
        by_cases hlike : key = "$like"
        · simp [hlike]
        · simp [hlike]
    · exact nomatch h

/-- For every allow-list and every filter text the parser accepts, no clause is dropped
exactly when each text match of the filter is on a field of text. -/
theorem accepted_filter_applies (loc : Location) (m : Map) (hjoins : JoinsHaveColumns m)
    (text : String) (f : Filter) (h : parseFilter loc m text = .ok f) :
    (∀ leaf ∈ leaves f, Applies (leafPredicate m leaf)) ↔ LikesText m text := by
  unfold parseFilter at h
  unfold LikesText textLikeFields
  by_cases hblank : StringText.trimSpace text.toList = []
  · rw [if_pos hblank] at h ⊢
    cases h
    simp [leaves, leavesEach]
  · rw [if_neg hblank] at h ⊢
    split at h
    · cases h
    · next hempty =>
      cases h
      rw [hempty]
      simp [leaves, leavesEach, likeFields]
    · next node _ hnode =>
      rw [hnode]
      exact parseNode_applies loc m hjoins _ node f h

def docFields : Map := ⟨[⟨none, "name", "title", [], .string⟩,
  ⟨some ⟨"users", "owner_id", "id", ["email"], true, true⟩, "owner", "owner", [], .string⟩,
  ⟨none, "size", "size_bytes", [], .int⟩]⟩

def likeOwner : String := filterText "$and" (.arr [.obj [("$like", .obj [("owner", .str "corp")])],
  .obj [("$gt", .obj [("size", .num ['5'])])]])

def ownerFilter : Filter := .composite [.clause "owner" .opLike (.scalar (.str "corp")) none,
  .clause "size" .opGt (.scalar (.int 5)) none] []

theorem docFields_joins : JoinsHaveColumns docFields := by
  intro name join h
  obtain ⟨field, hfield, hjoin⟩ := Option.bind_eq_some_iff.mp h
  have hmem := mem_of_find?_eq_some hfield
  simp only [docFields, reverse_cons, reverse_nil, nil_append, cons_append,
    mem_cons, not_mem_nil, or_false] at hmem
  rcases hmem with rfl | rfl | rfl
  · exact nomatch hjoin
  · cases hjoin
    decide
  · exact nomatch hjoin

theorem parse_likeOwner : parseFilter utc docFields likeOwner = .ok ownerFilter := by
  rw [likeOwner, parseFilter_filterText]
  · rfl
  · refine ⟨⟨⟨trivial, trivial⟩, trivial⟩, ⟨⟨?_, trivial⟩, trivial⟩, trivial⟩
    exact ⟨by decide, all_eq_true.mp (by decide)⟩
  · decide

theorem ownerFilter_applies : JoinsHaveColumns docFields ∧
    parseFilter utc docFields likeOwner = .ok ownerFilter ∧
    ((∀ leaf ∈ leaves ownerFilter, Applies (leafPredicate docFields leaf)) ↔
      LikesText docFields likeOwner) :=
  ⟨docFields_joins, parse_likeOwner,
    accepted_filter_applies utc docFields docFields_joins likeOwner ownerFilter parse_likeOwner⟩

def likeSize : String := filterText "$like" (.obj [("size", .num ['5'])])

/-- A text match on an integer field is accepted and matches every row. -/
theorem likeSize_dropped : JoinsHaveColumns docFields ∧
    parseFilter utc docFields likeSize = .ok (.clause "size" .opLike (.scalar (.int 5)) none) ∧
      leafPredicate docFields ⟨"size", .opLike, .scalar (.int 5)⟩ = noop := by
  refine ⟨docFields_joins, ?_, rfl⟩
  rw [likeSize, parseFilter_filterText]
  · rfl
  · exact ⟨⟨by decide, all_eq_true.mp (by decide)⟩, trivial⟩
  · decide

end KnowledgeEngine.EntBackend
