import KnowledgeEngine.EntBackend

/-!
The two ways a list filter becomes SQL: compiler.Apply compiles it with the allow-list's
columns, the pagination path resolves it first and folds it with FoldFilters. What a query
selects is said over any database: a predicate is true, false or unknown of a row, and how
the database compares cells and joins truth values is left open.
-/

namespace KnowledgeEngine.ListPaths

open CoreTypes FilterCompile FilterParse EntBackend FilterGrammar JsonText List

/-- The predicate of compiler.Apply. -/
def apply (fmap : Map) (filter : Filter) : EntPredicate := compile backend fmap.column filter

def compileSeek (seek : Filter) : EntPredicate := compile backend id seek

/-- entlist.FoldFilters -/
def foldFilters (filters : List Filter) : List EntPredicate := filters.map compileSeek

/-- NULL is none. -/
abbrev Cell := Option Scalar

abbrev Row := String → Cell

abbrev Database := String → List Row

/-- How a database evaluates the operators; unknown is none. Ent, which is not part of the
repository, writes FALSE for IN over no values and TRUE for NOT IN. -/
structure Engine where
  compare : Comparison → Cell → Value → Option Bool
  contains : Bool → Cell → String → Option Bool
  columnsEQ : Cell → Cell → Option Bool
  isIn : Cell → List Scalar → Option Bool
  notIn : Cell → List Scalar → Option Bool
  and : List (Option Bool) → Option Bool
  or : List (Option Bool) → Option Bool
  isIn_nil : ∀ cell, isIn cell [] = some false
  notIn_nil : ∀ cell, notIn cell [] = some true

mutual

/-- A predicate of the current rows, by table. -/
def eval (engine : Engine) (db : Database) (rows : String → Row) : Predicate → Option Bool
  | .compare c column value => engine.compare c (rows column.table column.name) value
  | .contains column s => engine.contains false (rows column.table column.name) s
  | .containsFold column s => engine.contains true (rows column.table column.name) s
  | .isIn column values => engine.isIn (rows column.table column.name) values
  | .notIn column values => engine.notIn (rows column.table column.name) values
  | .columnsEQ a b => engine.columnsEQ (rows a.table a.name) (rows b.table b.name)
  | .isNull column => some (rows column.table column.name).isNone
  | .and ps => engine.and (evalEach engine db rows ps)
  | .or ps => engine.or (evalEach engine db rows ps)
  | .existsRow select condition => some ((db select.table).any fun row =>
      eval engine db (Function.update rows select.table row) condition = some true)

def evalEach (engine : Engine) (db : Database) (rows : String → Row) :
    List Predicate → List (Option Bool)
  | [] => []
  | p :: rest => eval engine db rows p :: evalEach engine db rows rest

end

/-- The row of the table passes the WHERE of the predicates. -/
def Selects (engine : Engine) (db : Database) (table : String) (predicates : List EntPredicate)
    (row : Row) : Prop :=
  ∀ predicate ∈ predicates, ∀ p ∈ predicate table,
    eval engine db (Function.update (fun _ _ => none) table row) p = some true

def SameRows (engine : Engine) (db : Database) (table : String) (fmap : Map) (filter : Filter) :
    Prop :=
  ∀ row ∈ db table, Selects engine db table [apply fmap filter] row ↔
    Selects engine db table (foldFilters [resolveFilter fmap.column fmap.join filter]) row

instance (engine : Engine) (db : Database) (table : String) (predicates : List EntPredicate)
    (row : Row) : Decidable (Selects engine db table predicates row) :=
  List.decidableBAll _ _

instance (engine : Engine) (db : Database) (table : String) (fmap : Map) (filter : Filter) :
    Decidable (SameRows engine db table fmap filter) :=
  List.decidableBAll _ _

/-- No clause on a named field is on a joined table. -/
def Unjoined (fmap : Map) (filter : Filter) : Prop :=
  ∀ leaf ∈ leaves filter, leaf.Field ≠ "" → fmap.join leaf.Field = none

variable {m : Map} (engine : Engine) {filter : Filter} {join : JoinTarget}

variable {name : String}

theorem column_eq {field : Field} (h : m.lookup name = some field) :
    m.column name = field.Column := by
  rw [Map.column, h]

theorem compile_composite {b : QueryBackend EntPredicate} {resolve : String → String}
    {subs : List Filter} (hne : subs ≠ []) :
    compile b resolve (.composite subs []) = b.And (subs.map (compile b resolve)) ∧
      compile b resolve (.composite [] subs) = b.Or (subs.map (compile b resolve)) := by
  constructor
  · rw [compile, if_neg fun h => hne h.1, if_pos hne, compileEach_eq_map]
  · rw [compile, if_neg fun h => hne h.2, if_neg (not_not.mpr rfl), compileEach_eq_map]

theorem resolveFilter_composite {resolve : String → String} {joinOf : String → Option JoinTarget}
    {subs : List Filter} (hne : subs ≠ []) :
    resolveFilter resolve joinOf (.composite subs []) =
        .composite (subs.map (resolveFilter resolve joinOf)) [] ∧
      resolveFilter resolve joinOf (.composite [] subs) =
        .composite [] (subs.map (resolveFilter resolve joinOf)) := by
  constructor
  · rw [resolveFilter, if_neg fun h => hne h.1, if_pos hne, resolveEach_eq_map]
  · rw [resolveFilter, if_neg fun h => hne h.2, if_neg (not_not.mpr rfl), resolveEach_eq_map]

theorem Unjoined.sub (h : Unjoined m filter) (subs : List Filter)
    (hleaves : leaves filter = subs.flatMap leaves) : ∀ sub ∈ subs, Unjoined m sub := by
  intro sub hsub leaf hleaf
  refine h leaf ?_
  rw [hleaves]
  exact mem_flatMap.mpr ⟨sub, hsub, hleaf⟩

/-- Without joined fields both paths build the same predicate. -/
theorem apply_eq_compileSeek {loc : Location}
    (hcolumns : ∀ name field, m.lookup name = some field → field.Column ≠ "")
    (hparsed : Parsed loc m filter) (h : Unjoined m filter) :
    apply m filter = compileSeek (resolveFilter m.column m.join filter) := by
  have heach : ∀ subs : List Filter,
      (∀ sub ∈ subs, apply m sub = compileSeek (resolveFilter m.column m.join sub)) →
        subs.map (apply m) = (subs.map (resolveFilter m.column m.join)).map compileSeek := by
    intro subs hsubs
    rw [map_map]
    exact map_congr_left hsubs
  induction hparsed with
  | clause name op field v hfield hv =>
    unfold apply compileSeek
    by_cases hname : name = ""
    · rw [resolveFilter, if_pos hname, compile, if_pos hname, compile, if_pos hname]
    · have hcolumn : m.column name ≠ "" := by
        rw [column_eq hfield]
        exact hcolumns name field hfield
      have hjoin : m.join name = none := h ⟨name, op, v⟩ (mem_singleton.mpr rfl) hname
      rw [compile_leaf hname hcolumn, leafPredicate, hjoin, compile, if_neg hname]
      rfl
  | and subs hne hsubs ih =>
    have hunjoined := h.sub subs (by simp [leaves, leavesEach_eq_flatMap])
    have hmap := heach subs fun sub hsub => ih sub hsub (hunjoined sub hsub)
    rw [(resolveFilter_composite hne).1]
    exact (compile_composite hne).1.trans ((congrArg backend.And hmap).trans
        (compile_composite (by simpa using hne)).1.symm)
  | or subs hne hsubs ih =>
    have hunjoined := h.sub subs (by simp [leaves, leavesEach_eq_flatMap])
    have hmap := heach subs fun sub hsub => ih sub hsub (hunjoined sub hsub)
    rw [(resolveFilter_composite hne).2]
    exact (compile_composite hne).2.trans ((congrArg backend.Or hmap).trans
        (compile_composite (by simpa using hne)).2.symm)

/-- A filter without clauses on joined fields selects the same rows on both paths. -/
theorem sameRows_of_unjoined {loc : Location} {text : String}
    (hcolumns : ∀ name field, m.lookup name = some field → field.Column ≠ "")
    (hparse : parseFilter loc m text = .ok filter) (h : Unjoined m filter) (db : Database)
    (table : String) : SameRows engine db table m filter := by
  have hsame : apply m filter = compileSeek (resolveFilter m.column m.join filter) := by
    rcases parseFilter_parsed hparse with rfl | hparsed
    · rfl
    · exact apply_eq_compileSeek hcolumns hparsed h
  intro row _
  rw [foldFilters, map_singleton, hsame]

/-- The text of a comparison of a field with the empty list. -/
def emptyListText (key name : String) : String :=
  filterText key (.obj [(name, .arr [])])

theorem parse_emptyListText (loc : Location) (m : Map) (key name : String) (op : FilterOperator)
    (field : Field) (hkey : opToken key = some op) (hop : op = .opIn ∨ op = .opNotIn)
    (hfield : m.lookup name = some field) :
    parseFilter loc m (emptyListText key name) = .ok (.clause name op (.list []) none) := by
  have hgrammar : FilterObject loc m 0 (.obj [(key, .obj [(name, .arr [])])])
      (.clause name op (.list []) none) :=
    .comparison 0 key name op field _ _ (Nat.zero_le _) hkey hfield
      (.list op [] [] hop .nil)
  have hread := readObject_of_filterObject (Nat.zero_add (maxFilterDepth + 1)) hgrammar
  rw [emptyListText, parseFilter_filterText loc m key _
    (by simp [Json.Valid, ValidMembers, ValidItems])
    (by simp [Json.nesting, nestingMembers, nestingItems, maxNestingDepth])]
  obtain ⟨node, hnode, hok⟩ :=
    (parseNode_iff (Nat.zero_add (maxFilterDepth + 1))).mpr (hread.symm ▸ hgrammar)
  cases hnode
  exact hok

/-- A database with one row of NULLs in one table and nothing else. -/
def singleRow (table : String) : Database := fun t => if t = table then [fun _ => none] else []

theorem mem_singleRow {table : String} : (fun _ => none : Row) ∈ singleRow table table := by
  rw [singleRow, if_pos rfl]
  exact mem_singleton.mpr rfl

theorem sameRows_clause {engine : Engine} {table : String} {op : FilterOperator} {v : Value}
    (hname : name ≠ "") (hcolumn : m.column name ≠ "") (hjoin : m.join name = some join)
    (h : SameRows engine (singleRow table) table m (.clause name op v none)) :
    Selects engine (singleRow table) table [clause (m.column name) op v] (fun _ => none) ↔
      Selects engine (singleRow table) table [existsClause join op v] fun _ => none := by
  have happly : apply m (.clause name op v none) = clause (m.column name) op v := by
    rw [apply, compile, if_neg hname]
    rfl
  have hfold : foldFilters [resolveFilter m.column m.join (.clause name op v none)] =
      [existsClause join op v] := by
    rw [foldFilters, map_singleton, compileSeek, compile_leaf hname hcolumn,
      leafPredicate, hjoin]
  have hrow := h _ mem_singleRow
  rwa [happly, hfold] at hrow

/-- Over an empty target table a joined NOT IN () is false, a base one true. -/
theorem notIn_separates {table : String} (hname : name ≠ "") (hcolumn : m.column name ≠ "")
    (hjoin : m.join name = some join) (hcolumns : join.Columns ≠ []) (htable : join.Table ≠ table) :
    ¬ SameRows engine (singleRow table) table m (.clause name .opNotIn (.list []) none) := by
  intro h
  have hboth := (sameRows_clause hname hcolumn hjoin h).mp (by
    simp [Selects, clause, eval, engine.notIn_nil])
  obtain ⟨first, rest, hfirst⟩ := exists_cons_of_ne_nil hcolumns
  have hempty : singleRow table join.Table = [] := if_neg htable
  simp [Selects, existsClause, hfirst, colPredicate, eval, hempty] at hboth

/-- Without target columns a joined IN () is dropped, a base one false. -/
theorem in_separates (table : String) (hname : name ≠ "") (hcolumn : m.column name ≠ "")
    (hjoin : m.join name = some join) (hcolumns : join.Columns = []) :
    ¬ SameRows engine (singleRow table) table m (.clause name .opIn (.list []) none) := by
  intro h
  have hboth := (sameRows_clause hname hcolumn hjoin h).mpr (by
    simp [Selects, existsClause, hcolumns])
  simp [Selects, clause, eval, engine.isIn_nil] at hboth

theorem join_lookup (h : m.join name = some join) : ∃ field, m.lookup name = some field := by
  obtain ⟨field, hfield, _⟩ := Option.bind_eq_some_iff.mp h
  exact ⟨field, hfield⟩

/-- For an allow-list with named columns, both paths select the same rows for every accepted
filter over every database exactly when no named field is joined; for a filter, they do when
none of its clauses is on a joined field. -/
theorem sameRows_iff_unjoined (engine : Engine) (loc : Location) (m : Map)
    (hcolumns : ∀ name field, m.lookup name = some field → field.Column ≠ "") :
    ((∀ text filter, parseFilter loc m text = .ok filter →
        ∀ db table, SameRows engine db table m filter) ↔
      ∀ name, name ≠ "" → m.join name = none) ∧
    ∀ text filter, parseFilter loc m text = .ok filter → Unjoined m filter →
      ∀ db table, SameRows engine db table m filter := by
  have hunjoined : ∀ text filter, parseFilter loc m text = .ok filter → Unjoined m filter →
      ∀ db table, SameRows engine db table m filter :=
    fun text filter hparse h => sameRows_of_unjoined engine hcolumns hparse h
  refine ⟨⟨?_, ?_⟩, hunjoined⟩
  · intro hsame name hname
    by_contra hjoined
    obtain ⟨join, hjoin⟩ := Option.ne_none_iff_exists'.mp hjoined
    obtain ⟨field, hfield⟩ := join_lookup hjoin
    have hcolumn : m.column name ≠ "" := by
      rw [column_eq hfield]
      exact hcolumns name field hfield
    by_cases hnone : join.Columns = []
    · exact in_separates engine "" hname hcolumn hjoin hnone
        (hsame _ _ (parse_emptyListText loc m "$in" name .opIn field rfl (Or.inl rfl) hfield) _ _)
    · obtain ⟨table, htable⟩ : ∃ table, join.Table ≠ table := by
        by_cases hempty : join.Table = ""
        · exact ⟨"t", hempty ▸ by decide⟩
        · exact ⟨"", hempty⟩
      exact notIn_separates engine hname hcolumn hjoin hnone htable
        (hsame _ _ (parse_emptyListText loc m "$not_in" name .opNotIn field rfl (Or.inr rfl)
          hfield) _ _)
  · intro hnone text filter hparse
    exact hunjoined text filter hparse fun leaf _ hname => hnone leaf.Field hname

/-- Conjunction of truth values, unknown between false and true. -/
def andTruth (vs : List (Option Bool)) : Option Bool :=
  if some false ∈ vs then some false else if none ∈ vs then none else some true

def orTruth (vs : List (Option Bool)) : Option Bool :=
  (andTruth (vs.map (Option.map not))).map not

/-- Cells are equal or not; nothing is ordered and no text is contained in another. -/
def equalityEngine : Engine where
  compare c cell value := cell.bind fun s =>
    match c with
    | .eq => some (decide (Value.scalar s = value))
    | .neq => some (decide (Value.scalar s ≠ value))
    | _ => none
  contains _ _ _ := none
  columnsEQ a b := a.bind fun s => b.map fun t => decide (s = t)
  isIn cell values := if values = [] then some false else cell.map fun s => decide (s ∈ values)
  notIn cell values := if values = [] then some true else cell.map fun s => decide (s ∉ values)
  and := andTruth
  or := orTruth
  isIn_nil _ := rfl
  notIn_nil _ := rfl

theorem docFields_columns :
    ∀ name field, docFields.lookup name = some field → field.Column ≠ "" := by
  intro name field h
  have hmem := mem_of_find?_eq_some h
  simp only [docFields, reverse_cons, reverse_nil, nil_append, cons_append,
    mem_cons, not_mem_nil, or_false] at hmem
  rcases hmem with rfl | rfl | rfl <;> decide

theorem sameRows_iff_unjoined_docFields :
    (∀ name field, docFields.lookup name = some field → field.Column ≠ "") ∧
    (((∀ text filter, parseFilter utc docFields text = .ok filter →
        ∀ db table, SameRows equalityEngine db table docFields filter) ↔
      ∀ name, name ≠ "" → docFields.join name = none) ∧
    ∀ text filter, parseFilter utc docFields text = .ok filter → Unjoined docFields filter →
      ∀ db table, SameRows equalityEngine db table docFields filter) :=
  ⟨docFields_columns, sameRows_iff_unjoined equalityEngine utc docFields docFields_columns⟩

/-- A document owned by user 7, whose own owner column says corp. -/
def ownedDocuments : Database
  | "documents" => [fun
    | "owner_id" => some (.int 7)
    | "owner" => some (.str "corp")
    | _ => none]
  | "users" => [fun
    | "id" => some (.int 7)
    | "email" => some (.str "ann")
    | _ => none]
  | _ => []

/-- Filtering by owner ann finds the document on the pagination path, not with Apply. -/
theorem owner_filter_differs :
    parseFilter utc docFields (filterText "$eq" (.obj [("owner", .str "ann")])) =
        .ok (.clause "owner" .opEq (.scalar (.str "ann")) none) ∧
      ¬ SameRows equalityEngine ownedDocuments "documents" docFields
        (.clause "owner" .opEq (.scalar (.str "ann")) none) := by
  constructor
  · rw [parseFilter_filterText]
    · rfl
    · exact ⟨trivial, trivial⟩
    · decide
  · decide

end KnowledgeEngine.ListPaths
