import KnowledgeEngine.FilterGrammar
import KnowledgeEngine.Residual

/-!
The set operators of an analytics filter against their boolean expansion. On a dimension
an operator over a list is the disjunction or conjunction of the comparisons with its
elements; on the time field the set operators match no row, and a clause without a field
matches every row.
-/

namespace KnowledgeEngine.ResidualSets

open CoreTypes FilterCompile FilterGrammar FilterParse JsonText Residual

/-- The row has a time, and the dimensions that were written. -/
def Carries (r : Stored) (name : String) : Prop :=
  name = timeField ∨ (r.dims.lookup name).isSome

/-- The predicates of a set operator and of its elements agree on a row. -/
structure Agrees (lower : Char → Char) (within notWithin : Filter) (eqs nes : List Filter)
    (r : Stored) : Prop where
  disjunction : compileResidual lower within r = eqs.any fun f => compileResidual lower f r
  conjunction : compileResidual lower notWithin r = nes.all fun f => compileResidual lower f r
  negation : compileResidual lower notWithin r = !compileResidual lower within r

variable (lower : Char → Char)

variable {name : String}

theorem compileResidual_clause (h : name ≠ "") (op : FilterOperator) (v : Value) (r : Stored) :
    compileResidual lower (.clause name op v none) r = clausePredicate lower name op v r := by
  rw [compileResidual, compile, if_neg h]
  rfl

theorem compileResidual_nameless (op : FilterOperator) (v : Value) (r : Stored) :
    compileResidual lower (.clause "" op v none) r = true := rfl

theorem clausePredicate_dimension (h : name ≠ timeField) {r : Stored} {got : String}
    (hgot : r.dims.lookup name = some got) (op : FilterOperator) (v : Value) :
    clausePredicate lower name op v r = compareString lower got op v := by
  rw [clausePredicate, if_neg h, hgot]

/-- Comparing text with a list is comparing it with the elements. -/
theorem compareString_sets (got : String) (vs : List Scalar) :
    compareString lower got .opIn (.list vs) =
        (vs.any fun v => compareString lower got .opEq (.scalar v)) ∧
      compareString lower got .opNotIn (.list vs) =
        (vs.all fun v => compareString lower got .opNe (.scalar v)) ∧
      compareString lower got .opNotIn (.list vs) =
        !compareString lower got .opIn (.list vs) := by
  refine ⟨rfl, ?_, rfl⟩
  simp only [compareString]
  rw [List.not_any_eq_all_not]
  congr 1
  funext v
  simp

/-- No time matches a list. -/
theorem compileResidual_time (op : FilterOperator) (vs : List Scalar) (r : Stored) :
    compileResidual lower (.clause timeField op (.list vs) none) r = false := rfl

def eqClauses (name : String) (vs : List Scalar) : List Filter :=
  vs.map fun v => .clause name .opEq (.scalar v) none

def neClauses (name : String) (vs : List Scalar) : List Filter :=
  vs.map fun v => .clause name .opNe (.scalar v) none

theorem agrees_iff (vs : List Scalar) {r : Stored} (hr : Carries r name) :
    Agrees lower (.clause name .opIn (.list vs) none) (.clause name .opNotIn (.list vs) none)
        (eqClauses name vs) (neClauses name vs) r ↔ name ≠ timeField ∧ name ≠ "" := by
  constructor
  · rintro ⟨-, -, hnegation⟩
    constructor
    · rintro rfl
      rw [compileResidual_time, compileResidual_time] at hnegation
      exact absurd hnegation (by decide)
    · rintro rfl
      rw [compileResidual_nameless, compileResidual_nameless] at hnegation
      exact absurd hnegation (by decide)
  · rintro ⟨htime, hname⟩
    obtain ⟨got, hgot⟩ := Option.isSome_iff_exists.mp (hr.resolve_left htime)
    have hclause (op : FilterOperator) (v : Value) :
        compileResidual lower (.clause name op v none) r = compareString lower got op v := by
      rw [compileResidual_clause lower hname, clausePredicate_dimension lower htime hgot]
    obtain ⟨hin, hnotIn, hnegation⟩ := compareString_sets lower got vs
    refine ⟨?_, ?_, ?_⟩
    · simp only [eqClauses, hclause, hin, List.any_map, Function.comp_def]
    · simp only [neClauses, hclause, hnotIn, List.all_map, Function.comp_def]
    · rw [hclause, hclause, hnegation]

/-- A body with one field names the clause it parses to. -/
theorem parseClause_single_iff {loc : Location} {m : Map} {op : FilterOperator} {raw : Json}
    {f : Filter} :
    parseClause loc m op (.obj [(name, raw)]) = .ok f ↔
      ∃ field v, m.lookup name = some field ∧ Operand loc field.Type op (readOperand op raw) v ∧
        f = .clause name op v none := by
  rw [parseClause_iff]
  constructor
  · rintro ⟨name', operand, field, v, hbody, hfield, hv, rfl⟩
    cases hbody
    exact ⟨field, v, hfield, hv, rfl⟩
  · rintro ⟨field, v, hfield, hv, rfl⟩
    exact ⟨name, _, field, v, rfl, hfield, hv, rfl⟩

theorem parseClause_elements {loc : Location} {m : Map} {op : FilterOperator}
    (hop : ¬ (op = .opIn ∨ op = .opNotIn)) {field : Field} (hfield : m.lookup name = some field)
    {items : List Json} {vs : List Scalar} (h : List.Forall₂ (HasType loc field.Type) items vs) :
    List.Forall₂ (fun item f => parseClause loc m op (.obj [(name, item)]) = .ok f) items
      (vs.map fun v => .clause name op (.scalar v) none) := by
  rw [List.forall₂_map_right_iff]
  refine h.imp fun item v hv => ?_
  rw [parseClause_single_iff]
  refine ⟨field, .scalar v, hfield, ?_, rfl⟩
  rw [readOperand, if_neg hop]
  exact .scalar op item v hop hv

/-- Where Parse accepts a list for a field, it accepts its elements too. On every row that
carries the field the set operators agree with their expansion exactly when the field is a
dimension with a name; on the time field they match nothing. -/
theorem set_operators_expand (loc : Location) (m : Map) (name : String) (items : List Json)
    (within : Filter) (h : parseClause loc m .opIn (.obj [(name, .arr items)]) = .ok within) :
    ∃ notWithin eqs nes,
      parseClause loc m .opNotIn (.obj [(name, .arr items)]) = .ok notWithin ∧
      List.Forall₂ (fun item f => parseClause loc m .opEq (.obj [(name, item)]) = .ok f)
        items eqs ∧
      List.Forall₂ (fun item f => parseClause loc m .opNe (.obj [(name, item)]) = .ok f)
        items nes ∧
      ∀ r, Carries r name →
        (Agrees lower within notWithin eqs nes r ↔ name ≠ timeField ∧ name ≠ "") ∧
        (name = timeField → compileResidual lower within r = false ∧
          compileResidual lower notWithin r = false) := by
  obtain ⟨field, v, hfield, hv, rfl⟩ := parseClause_single_iff.mp h
  obtain ⟨items', vs, heq, rfl, hvs⟩ := (operand_list (Or.inl rfl)).mp hv
  cases heq
  refine ⟨.clause name .opNotIn (.list vs) none, eqClauses name vs, neClauses name vs, ?_, ?_, ?_,
    ?_⟩
  · rw [parseClause_single_iff]
    exact ⟨field, .list vs, hfield, .list .opNotIn items vs (Or.inr rfl) hvs, rfl⟩
  · exact parseClause_elements (by decide) hfield hvs
  · exact parseClause_elements (by decide) hfield hvs
  · intro r hr
    refine ⟨agrees_iff lower vs hr, ?_⟩
    rintro rfl
    exact ⟨compileResidual_time lower .opIn vs r, compileResidual_time lower .opNotIn vs r⟩

def kindMap : Map := ⟨[⟨none, "kind", "kind", [], .string⟩]⟩

def kindRow : Stored := ⟨0, [⟨"kind", "a"⟩].toAList⟩

theorem kind_operators_expand : ∃ within notWithin eqs nes,
    parseClause utc kindMap .opIn (.obj [("kind", .arr [.str "a", .str "b"])]) = .ok within ∧
      Agrees id within notWithin eqs nes kindRow := by
  obtain ⟨notWithin, eqs, nes, -, -, -, hagrees⟩ :=
    set_operators_expand id utc kindMap "kind" [.str "a", .str "b"] _ rfl
  exact ⟨_, notWithin, eqs, nes, rfl,
    (hagrees kindRow (Or.inr (by decide))).1.mpr ⟨by decide, by decide⟩⟩

def timeMap : Map := ⟨[⟨none, "ts", "ts", [], .time⟩]⟩

/-- The first second of 1970. -/
def epoch : Time := ⟨0, 0, "UTC"⟩

/-- A row of the very time in the list is not found by in, and neither is any by not_in. -/
theorem time_set_matches_nothing :
    parseClause utc timeMap .opIn (.obj [("ts", .arr [.str "1970-01-01T00:00:00Z"])]) =
        .ok (.clause "ts" .opIn (.list [.time epoch]) none) ∧
      Carries kindRow "ts" ∧
      compileResidual id (.clause "ts" .opIn (.list [.time epoch]) none) kindRow = false ∧
      compileResidual id (.clause "ts" .opEq (.scalar (.time epoch)) none) kindRow = true ∧
      compileResidual id (.clause "ts" .opNotIn (.list [.time epoch]) none) kindRow = false := by
  refine ⟨rfl, Or.inl rfl, rfl, rfl, rfl⟩

end KnowledgeEngine.ResidualSets
