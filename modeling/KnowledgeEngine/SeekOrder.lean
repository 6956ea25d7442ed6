import KnowledgeEngine.PageRun
import Mathlib.Order.CompletePartialOrder

/-!
The seek predicate against the order of keys (foundation/listquery/seek.go). Each column
has a total order of its own, and the cursor is any list of values, one for each column:
no row need have them. A row comes after the cursor when it lies beyond it in the first
column where the two differ, in the direction of that column.
-/

namespace KnowledgeEngine.SeekOrder

open CoreTypes FilterCompile KeysetOrder PageRun

/-- How a store compares the columns of its rows with operands. Operators the seek does not
use, and EXISTS clauses, may mean anything. -/
structure Comparison (T : Type) where
  Cell : String → Type
  order : ∀ column, LinearOrder (Cell column)
  cell : (column : String) → T → Cell column
  operand : (column : String) → Value → Cell column
  other : String → FilterOperator → Value → T → Bool
  existsClause : JoinTarget → FilterOperator → Value → T → Bool

variable {T : Type} (t : Comparison T)

instance (column : String) : LinearOrder (t.Cell column) := t.order column

/-- A filter as the rows it selects. -/
def Comparison.semantics : QueryBackend (T → Bool) where
  Clause column op v row :=
    match op with
    | .opEq => decide (t.cell column row = t.operand column v)
    | .opGt => decide (t.operand column v < t.cell column row)
    | .opLt => decide (t.cell column row < t.operand column v)
    | _ => t.other column op v row
  ExistsClause := t.existsClause
  And qs row := qs.all fun q => q row
  Or qs row := qs.any fun q => q row
  Empty _ := true

def Comparison.holds (f : Filter) : T → Bool := compile t.semantics id f

/-- The row and the cursor agree in a column. -/
def Comparison.Same (row : T) (p : KeysetColumn × Value) : Prop :=
  t.cell p.1.Column row = t.operand p.1.Column p.2

/-- The row lies beyond the cursor in the direction of a column. -/
def Comparison.Beyond (row : T) (p : KeysetColumn × Value) : Prop :=
  if p.1.Desc then t.cell p.1.Column row < t.operand p.1.Column p.2
  else t.operand p.1.Column p.2 < t.cell p.1.Column row

def Comparison.Short (row : T) (p : KeysetColumn × Value) : Prop :=
  if p.1.Desc then t.operand p.1.Column p.2 < t.cell p.1.Column row
  else t.cell p.1.Column row < t.operand p.1.Column p.2

/-- In the first column where they differ, the row and the cursor are in a relation. -/
def FirstDiffers (same rel : KeysetColumn × Value → Prop) (key : List (KeysetColumn × Value)) :
    Prop :=
  ∃ front p back, key = front ++ p :: back ∧ (∀ q ∈ front, same q) ∧ rel p

def Comparison.after (key : List (KeysetColumn × Value)) : Set T :=
  {row | FirstDiffers (t.Same row) (t.Beyond row) key}

def Comparison.before (key : List (KeysetColumn × Value)) : Set T :=
  {row | FirstDiffers (t.Same row) (t.Short row) key}

def Comparison.equal (key : List (KeysetColumn × Value)) : Set T :=
  {row | ∀ p ∈ key, t.Same row p}

variable {same rel : KeysetColumn × Value → Prop}

theorem firstDiffers_nil : ¬ FirstDiffers same rel [] := by
  rintro ⟨front, p, back, heq, -⟩
  exact absurd heq (by simp)

theorem firstDiffers_cons {p : KeysetColumn × Value} {key : List (KeysetColumn × Value)} :
    FirstDiffers same rel (p :: key) ↔ rel p ∨ same p ∧ FirstDiffers same rel key := by
  constructor
  · rintro ⟨front, q, back, heq, hfront, hrel⟩
    cases front with
    | nil =>
      obtain ⟨rfl, -⟩ := List.cons.inj heq
      exact Or.inl hrel
    | cons q' front =>
      obtain ⟨rfl, hkey⟩ := List.cons.inj heq
      exact Or.inr ⟨hfront p List.mem_cons_self, front, q, back, hkey,
        fun x hx => hfront x (List.mem_cons_of_mem _ hx), hrel⟩
  · rintro (hrel | ⟨hsame, front, q, back, rfl, hfront, hrel⟩)
    · exact ⟨[], p, key, rfl, fun q hq => absurd hq List.not_mem_nil, hrel⟩
    · exact ⟨p :: front, q, back, rfl, List.forall_mem_cons.mpr ⟨hsame, hfront⟩, hrel⟩

section Columns

variable (row : T) (p : KeysetColumn × Value)

theorem short_or_same_or_beyond : t.Short row p ∨ t.Same row p ∨ t.Beyond row p := by
  unfold Comparison.Short Comparison.Same Comparison.Beyond
  rcases lt_trichotomy (t.cell p.1.Column row) (t.operand p.1.Column p.2) with hlt | heq | hgt
  · cases p.1.Desc <;> simp [hlt]
  · exact Or.inr (Or.inl heq)
  · cases p.1.Desc <;> simp [hgt]

theorem not_same_of_beyond (h : t.Beyond row p) : ¬ t.Same row p := by
  intro hsame
  unfold Comparison.Beyond at h
  rw [hsame] at h
  split at h <;> exact lt_irrefl _ h

theorem not_same_of_short (h : t.Short row p) : ¬ t.Same row p := by
  intro hsame
  unfold Comparison.Short at h
  rw [hsame] at h
  split at h <;> exact lt_irrefl _ h

theorem not_short_of_beyond (h : t.Beyond row p) : ¬ t.Short row p := by
  intro hshort
  unfold Comparison.Beyond at h
  unfold Comparison.Short at hshort
  split at h
  · next hdesc =>
    rw [if_pos hdesc] at hshort
    exact lt_asymm h hshort
  · next hdesc =>
    rw [if_neg hdesc] at hshort
    exact lt_asymm h hshort

end Columns

variable {key : List (KeysetColumn × Value)} {row : T}

/-- A row is before, equal to or after the cursor. -/
theorem before_or_equal_or_after : row ∈ t.before key ∨ row ∈ t.equal key ∨ row ∈ t.after key := by
  induction key with
  | nil => exact Or.inr (Or.inl fun p hp => absurd hp List.not_mem_nil)
  | cons p key ih =>
    rcases short_or_same_or_beyond t row p with hshort | hsame | hbeyond
    · exact Or.inl (firstDiffers_cons.mpr (Or.inl hshort))
    · rcases ih with hbefore | hequal | hafter
      · exact Or.inl (firstDiffers_cons.mpr (Or.inr ⟨hsame, hbefore⟩))
      · exact Or.inr (Or.inl (List.forall_mem_cons.mpr ⟨hsame, hequal⟩))
      · exact Or.inr (Or.inr (firstDiffers_cons.mpr (Or.inr ⟨hsame, hafter⟩)))
    · exact Or.inr (Or.inr (firstDiffers_cons.mpr (Or.inl hbeyond)))

theorem not_equal_of_firstDiffers (hrel : ∀ p, rel p → ¬ t.Same row p)
    (h : FirstDiffers (t.Same row) rel key) : row ∉ t.equal key := by
  obtain ⟨front, p, back, rfl, -, hp⟩ := h
  intro hequal
  exact hrel p hp (hequal p (by simp))

theorem not_before_of_after (h : row ∈ t.after key) : row ∉ t.before key := by
  induction key with
  | nil => exact absurd h firstDiffers_nil
  | cons p key ih =>
    intro hbefore
    rcases firstDiffers_cons.mp h with hbeyond | ⟨hsame, hafter⟩
    · rcases firstDiffers_cons.mp hbefore with hshort | ⟨hsame, -⟩
      · exact not_short_of_beyond t row p hbeyond hshort
      · exact not_same_of_beyond t row p hbeyond hsame
    · rcases firstDiffers_cons.mp hbefore with hshort | ⟨-, hbefore⟩
      · exact not_same_of_short t row p hshort hsame
      · exact ih hafter hbefore

theorem holds_strictClause_iff {c : KeysetColumn} (hname : c.Column ≠ "") {v : Value} :
    t.holds (strictClause c v) row = true ↔ t.Beyond row (c, v) := by
  unfold Comparison.Beyond
  rw [strictClause, Comparison.holds, compile, if_neg hname]
  cases c.Desc <;> simp [Comparison.semantics]

theorem holds_eqClause_iff {column : String} (hname : column ≠ "") {v : Value} :
    t.holds (.clause column .opEq v none) row = true ↔
      t.cell column row = t.operand column v := by
  rw [Comparison.holds, compile, if_neg hname]
  simp [Comparison.semantics]

/-- One round of the expansion: strictly beyond in a column, or equal there and then the rest. -/
theorem holds_seekFrom_cons (p q : KeysetColumn × Value) (rest : List (KeysetColumn × Value))
    (row : T) : t.holds (seekFrom (p :: q :: rest)) row =
      (t.holds (strictClause p.1 p.2) row || (t.holds (.clause p.1.Column .opEq p.2 none) row &&
        t.holds (seekFrom (q :: rest)) row)) := by
  simp [seekFrom, Comparison.holds, compile, compileEach, Comparison.semantics]

theorem holds_seekFrom_iff (key : List (KeysetColumn × Value)) (hne : key ≠ [])
    (hnames : ∀ p ∈ key, p.1.Column ≠ "") (row : T) :
    t.holds (seekFrom key) row = true ↔ row ∈ t.after key := by
  induction key with
  | nil => exact absurd rfl hne
  | cons p rest ih =>
    have hname := hnames p List.mem_cons_self
    have hcons : row ∈ t.after (p :: rest) ↔
        t.Beyond row p ∨ t.Same row p ∧ row ∈ t.after rest := firstDiffers_cons
    cases rest with
    | nil =>
      rw [hcons, show seekFrom [p] = strictClause p.1 p.2 from rfl, holds_strictClause_iff t hname]
      exact ⟨Or.inl, fun h => h.elim id fun h => absurd h.2 firstDiffers_nil⟩
    | cons q rest =>
      have htail := ih (List.cons_ne_nil q rest) fun x hx => hnames x (List.mem_cons_of_mem p hx)
      rw [holds_seekFrom_cons, Bool.or_eq_true, Bool.and_eq_true, htail, hcons,
        holds_strictClause_iff t hname, holds_eqClause_iff t hname]
      rfl

/-- The seek selects the rows after the cursor, and the rows before, equal to and after it
are all rows, each once. -/
theorem seek_selects_after (cols : List KeysetColumn) (values : List Value) (hne : cols ≠ [])
    (hlen : values.length = cols.length) (hnames : ∀ c ∈ cols, c.Column ≠ "") :
    (∀ row, t.holds (seekFilter cols values) row = true ↔ row ∈ t.after (cols.zip values)) ∧
    t.before (cols.zip values) ∪ t.equal (cols.zip values) ∪ t.after (cols.zip values) =
      Set.univ ∧
    Disjoint (t.before (cols.zip values)) (t.equal (cols.zip values)) ∧
    Disjoint (t.before (cols.zip values)) (t.after (cols.zip values)) ∧
    Disjoint (t.equal (cols.zip values)) (t.after (cols.zip values)) := by
  refine ⟨holds_seekFrom_iff t _ ?_ fun p hp => hnames p.1 (List.of_mem_zip hp).1, ?_, ?_, ?_, ?_⟩
  · intro hnil
    have hzero := congrArg List.length hnil
    rw [List.length_zip, hlen, Nat.min_self, List.length_nil] at hzero
    exact hne (List.length_eq_zero_iff.mp hzero)
  · rw [Set.eq_univ_iff_forall]
    intro row
    rw [Set.union_assoc]
    exact before_or_equal_or_after t
  · rw [Set.disjoint_left]
    exact fun row h => not_equal_of_firstDiffers t (not_same_of_short t row) h
  · rw [Set.disjoint_right]
    exact fun row h => not_before_of_after t h
  · rw [Set.disjoint_right]
    exact fun row h => not_equal_of_firstDiffers t (not_same_of_beyond t row) h

/-- Rows that are pairs of numbers, under two columns; every operand is 3. -/
def pairs : Comparison (ℕ × ℕ) where
  Cell _ := ℕ
  order _ := inferInstance
  cell column row := if column = "rank" then row.1 else row.2
  operand _ _ := 3
  other _ _ _ _ := false
  existsClause _ _ _ _ := false

def sampleColumns : List KeysetColumn :=
  [⟨"rank", none, none, [], true⟩, ⟨"id", none, none, [], false⟩]

theorem sample_seek : pairs.holds (seekFilter sampleColumns [.nil, .nil]) (3, 5) = true ∧
    (3, 5) ∈ pairs.after (sampleColumns.zip [.nil, .nil]) :=
  ⟨rfl, ((seek_selects_after pairs sampleColumns [.nil, .nil] (by decide) rfl (by decide)).1
    (3, 5)).mp rfl⟩

/-- A sort by a column of another table. -/
def joinedColumn : KeysetColumn :=
  ⟨"", some ⟨"owners", "owner_id", "id", ["name"], false, false⟩, none, [], false⟩

/-- A column without a name compiles to the filter that matches every row, also the one
that equals the cursor. -/
theorem joined_column_selects_cursor : ([joinedColumn].map KeysetColumn.Column).Nodup ∧
    pairs.holds (seekFilter [joinedColumn] [.nil]) (0, 3) = true ∧
    (0, 3) ∈ pairs.equal ([joinedColumn].zip [.nil]) ∧
    (0, 3) ∉ pairs.after ([joinedColumn].zip [.nil]) := by
  have hequal : (0, 3) ∈ pairs.equal ([joinedColumn].zip [.nil]) := by
    intro p hp
    rw [List.mem_singleton.mp hp]
    rfl
  refine ⟨by decide, rfl, hequal, ?_⟩
  intro hafter
  exact not_equal_of_firstDiffers pairs (not_same_of_beyond pairs (0, 3)) hafter hequal

end KnowledgeEngine.SeekOrder
