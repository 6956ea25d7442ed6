import KnowledgeEngine.PageRun

/-!
What a list runner does when it executes its commands faithfully over a fixed table.
The database gives a row a value in every column, NULL being the greatest, and reads
an operand as such a value; clauses that compare a column with an operand compare
those values, and every other clause may mean anything. A runner filters the rows,
sorts them and cuts its window out of the sorted rows. The seek filter of a cursor
selects the rows its row precedes.
-/

namespace KnowledgeEngine.TableRunner

open CoreTypes FilterCompile KeysetOrder LexOrder PageRun

variable {T κ : Type} [LinearOrder κ]

/-- An operand without a value is one no column is compared with. A time is compared by
its instant. -/
structure Database (T κ : Type) [LinearOrder κ] where
  cell : T → String → WithTop κ
  operand : Value → Option κ
  clause : String → FilterOperator → Value → T → Bool
  existsClause : JoinTarget → FilterOperator → Value → T → Bool
  terms : OrderField → List (Term T (WithTop κ))
  operand_instant : ∀ t t' : Time, t.nanos = t'.nanos →
    operand (.scalar (.time t)) = operand (.scalar (.time t'))
  clause_eq : ∀ column v x row, operand v = some x →
    (clause column .opEq v row = true ↔ cell row column = x)
  clause_lt : ∀ column v x row, operand v = some x →
    (clause column .opLt v row = true ↔ cell row column < x)
  clause_gt : ∀ column v x row, operand v = some x →
    (clause column .opGt v row = true ↔ x < cell row column ∧ cell row column ≠ ⊤)
  terms_plain : ∀ column desc,
    terms ⟨column, none, none, [], desc⟩ = [⟨fun row => cell row column, desc⟩]

/-- A filter as the rows it selects. -/
def Database.semantics (db : Database T κ) : QueryBackend (T → Bool) where
  Clause := db.clause
  ExistsClause := db.existsClause
  And qs row := qs.all fun q => q row
  Or qs row := qs.any fun q => q row
  Empty _ := true

def Database.holds (db : Database T κ) (f : Filter) : T → Bool := compile db.semantics id f

def Database.columnTerm (db : Database T κ) (c : KeysetColumn) : Term T (WithTop κ) :=
  ⟨fun row => db.cell row c.Column, c.Desc⟩

/-- A table has a unique id column, and its rows can be counted in 64 bits. -/
structure Table (db : Database T κ) where
  rows : List T
  unique : (rows.map fun row => db.cell row keysetIDColumn).Nodup
  countable : rows.length < 2 ^ 63

def Table.select {db : Database T κ} (table : Table db) (filters : List Filter) : List T :=
  table.rows.filter fun row => filters.all fun f => db.holds f row

/-- The rows are those selected, sorted by the order, then cut to the window. A negative
limit or a bound below one is outside of what a runner has to serve. -/
structure Faithful {db : Database T κ} (table : Table db) (runner : ListRunner T)
    (arrange : List Filter → List OrderField → List T) : Prop where
  perm : ∀ filters order, (arrange filters order).Perm (table.select filters)
  sorted : ∀ filters order, SortedBy (order.flatMap db.terms) (arrange filters order)
  list : ∀ spec, 0 ≤ spec.Limit → 0 ≤ spec.Offset → runner.List spec =
    .ok (((arrange spec.Filters spec.Order).drop spec.Offset.toNat).take spec.Limit.toNat)
  count : ∀ filters bound, 1 ≤ bound →
    runner.Count filters bound = .ok (min (table.select filters).length bound)

/-- A row's value in a column is the one an operand stands for. -/
def Bound (db : Database T κ) (row : T) (c : KeysetColumn) (v : Value) : Prop :=
  ∃ x : κ, db.operand v = some x ∧ db.cell row c.Column = x

variable {db : Database T κ} {v : Value} {row : T}

theorem holds_clause {column : String} {op : FilterOperator} (h : column ≠ "") :
    db.holds (.clause column op v none) row = db.clause column op v row := by
  rw [Database.holds, compile, if_neg h]
  rfl

theorem holds_strictClause {c : KeysetColumn} {row' : T} (hname : c.Column ≠ "")
    (hbound : Bound db row c v) (hvalue : db.cell row' c.Column ≠ ⊤) :
    db.holds (strictClause c v) row' = true ↔ (db.columnTerm c).lt row row' := by
  obtain ⟨x, hx, hcell⟩ := hbound
  rw [strictClause, holds_clause hname]
  unfold Term.lt Database.columnTerm
  cases hdesc : c.Desc with
  | false => simp [db.clause_gt c.Column v x row' hx, hcell, hvalue]
  | true => simp [db.clause_lt c.Column v x row' hx, hcell]

theorem holds_eqClause {c : KeysetColumn} (row row' : T) (hname : c.Column ≠ "")
    (hbound : Bound db row c v) :
    db.holds (.clause c.Column .opEq v none) row' = true ↔
      (db.columnTerm c).value row = (db.columnTerm c).value row' := by
  obtain ⟨x, hx, hcell⟩ := hbound
  rw [holds_clause hname, db.clause_eq c.Column v x row' hx, ← hcell]
  exact eq_comm

/-- The seek filter over a cursor's values selects the rows its row precedes. -/
theorem holds_seekFrom (db : Database T κ) (pairs : List (KeysetColumn × Value)) (row row' : T)
    (hne : pairs ≠ []) (hname : ∀ p ∈ pairs, p.1.Column ≠ "")
    (hbound : ∀ p ∈ pairs, Bound db row p.1 p.2)
    (hvalue : ∀ p ∈ pairs, db.cell row' p.1.Column ≠ ⊤) :
    db.holds (seekFrom pairs) row' = true ↔
      precedes (pairs.map fun p => db.columnTerm p.1) row row' := by
  induction pairs with
  | nil => exact absurd rfl hne
  | cons p rest ih =>
    obtain ⟨c, v⟩ := p
    have hstrict := holds_strictClause (hname _ List.mem_cons_self)
      (hbound _ List.mem_cons_self) (hvalue _ List.mem_cons_self)
    cases rest with
    | nil =>
      rw [seekFrom, hstrict]
      simp [precedes]
    | cons q rest =>
      have heq := holds_eqClause row row' (hname _ List.mem_cons_self) (hbound _ List.mem_cons_self)
      have htail := ih (List.cons_ne_nil q rest) (fun p hp => hname p (List.mem_cons_of_mem _ hp))
        (fun p hp => hbound p (List.mem_cons_of_mem _ hp))
        (fun p hp => hvalue p (List.mem_cons_of_mem _ hp))
      have hcomposite : db.holds (seekFrom ((c, v) :: q :: rest)) row' =
          (db.holds (strictClause c v) row' || (db.holds (.clause c.Column .opEq v none) row' &&
            db.holds (seekFrom (q :: rest)) row')) := by
        simp [seekFrom, Database.holds, compile, compileEach, Database.semantics]
      rw [hcomposite, Bool.or_eq_true, Bool.and_eq_true, hstrict, heq, htail]
      rfl

theorem holds_isEmpty {f : Filter} (h : f.isEmpty = true) : db.holds f row = true := by
  cases f with
  | nil => rfl
  | clause field op v join =>
    have hfield : field = "" := by simpa [Filter.isEmpty] using h
    cases join <;> simp [Database.holds, compile, hfield, Database.semantics]
  | composite and or =>
    have harms : and = [] ∧ or = [] := by simpa [Filter.isEmpty] using h
    simp [Database.holds, compile, harms, Database.semantics]

theorem all_nonEmpty (db : Database T κ) (f : Filter) (row : T) :
    ((nonEmpty f).all fun f => db.holds f row) = db.holds f row := by
  unfold nonEmpty
  split
  · next h => rw [holds_isEmpty h, List.all_nil]
  · simp

section Arrangement

variable {db : Database T κ} (table : Table db)

theorem select_nonEmpty (f : Filter) (filters : List Filter) :
    table.select (nonEmpty f ++ filters) = table.select (f :: filters) := by
  simp only [Table.select, List.all_append, all_nonEmpty, List.all_cons]

theorem select_unique (filters : List Filter) :
    ((table.select filters).map fun row => db.cell row keysetIDColumn).Nodup :=
  table.unique.sublist (List.filter_sublist.map _)

/-- Terms that include the id tell the rows of an arrangement apart. -/
theorem apart_of_id (filters : List Filter) (rows : List T) (terms : List (Term T (WithTop κ)))
    (hperm : rows.Perm (table.select filters)) (desc : Bool)
    (hid : ⟨fun row => db.cell row keysetIDColumn, desc⟩ ∈ terms) :
    rows.Pairwise fun a b => ¬ Ties terms a b := by
  have hnodup : (rows.map fun row => db.cell row keysetIDColumn).Nodup :=
    (hperm.map _).nodup_iff.mpr (select_unique table filters)
  rw [List.Nodup, List.pairwise_map] at hnodup
  exact hnodup.imp fun hne hties => hne (hties _ hid)

end Arrangement

end KnowledgeEngine.TableRunner
