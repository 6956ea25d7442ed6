import KnowledgeEngine.CoreTypes

/-!
Folding a filter through a backend (foundation/listquery/compile.go): each clause is
compiled with its resolved column or as an EXISTS over its join, a composite by its
And arm when that is not empty and by its Or arm otherwise.
-/

namespace KnowledgeEngine.FilterCompile

open CoreTypes

/-- The predicate half of interfaces.QueryBackend. -/
structure QueryBackend (Q : Type*) where
  Clause : String → FilterOperator → Value → Q
  ExistsClause : JoinTarget → FilterOperator → Value → Q
  And : List Q → Q
  Or : List Q → Q
  Empty : Q

mutual

def compile {Q : Type*} (b : QueryBackend Q) (resolve : String → String) : Filter → Q
  | .nil => b.Empty
  | .clause field operator value join =>
    if field = "" then b.Empty
    else
      match join with
      | some target => b.ExistsClause target operator value
      | none => b.Clause (resolve field) operator value
  | .composite and or =>
    if and = [] ∧ or = [] then b.Empty
    else if and ≠ [] then b.And (compileEach b resolve and)
    else b.Or (compileEach b resolve or)

def compileEach {Q : Type*} (b : QueryBackend Q) (resolve : String → String) :
    List Filter → List Q
  | [] => []
  | sub :: rest => compile b resolve sub :: compileEach b resolve rest

end

theorem compileEach_eq_map {Q : Type*} (b : QueryBackend Q) (resolve : String → String)
    (subs : List Filter) : compileEach b resolve subs = subs.map (compile b resolve) := by
  induction subs with
  | nil => rfl
  | cons sub rest ih => rw [compileEach, ih, List.map_cons]

mutual

def resolveFilter (resolve : String → String) (joinOf : String → Option JoinTarget) :
    Filter → Filter
  | .nil => .nil
  | .clause field operator value join =>
    if field = "" then .clause field operator value join
    else .clause (resolve field) operator value (joinOf field)
  | .composite and or =>
    if and = [] ∧ or = [] then .composite and or
    else if and ≠ [] then .composite (resolveEach resolve joinOf and) []
    else .composite [] (resolveEach resolve joinOf or)

def resolveEach (resolve : String → String) (joinOf : String → Option JoinTarget) :
    List Filter → List Filter
  | [] => []
  | sub :: rest => resolveFilter resolve joinOf sub :: resolveEach resolve joinOf rest

end

theorem resolveEach_eq_map (resolve : String → String) (joinOf : String → Option JoinTarget)
    (subs : List Filter) :
    resolveEach resolve joinOf subs = subs.map (resolveFilter resolve joinOf) := by
  induction subs with
  | nil => rfl
  | cons sub rest ih => rw [resolveEach, ih, List.map_cons]

/-- A clause of a filter. -/
structure Leaf where
  Field : String
  Operator : FilterOperator
  Value : Value

mutual

def leaves : Filter → List Leaf
  | .nil => []
  | .clause field op value _ => [⟨field, op, value⟩]
  | .composite and or => leavesEach and ++ leavesEach or

def leavesEach : List Filter → List Leaf
  | [] => []
  | sub :: rest => leaves sub ++ leavesEach rest

end

theorem leavesEach_eq_flatMap (subs : List Filter) : leavesEach subs = subs.flatMap leaves := by
  induction subs with
  | nil => rfl
  | cons sub rest ih => rw [leavesEach, ih, List.flatMap_cons]

end KnowledgeEngine.FilterCompile
