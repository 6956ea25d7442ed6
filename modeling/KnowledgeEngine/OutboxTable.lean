import KnowledgeEngine.KeyedTable
import KnowledgeEngine.Relay
import Mathlib.Data.List.Sort

/-!
The reference outbox store (tests/fixtures/outboxtest): one table, and the statements of its
methods. Claim may skip rows that other transactions have locked, and returns its rows in
any order.
-/

namespace KnowledgeEngine.OutboxTable

open CoreTypes KeyedTable Relay

inductive RowState
  | pending | sent | parked
deriving DecidableEq

/-- A row; the record holds its attempts. Times are in nanoseconds of the database clock. -/
structure Row where
  record : OutboxRecord
  state : RowState
  lastError : String
  nextAttemptAt : ℤ

def Row.id (row : Row) : BitVec 128 := row.record.ID

abbrev OutboxRows := Table Row.id

/-- A pending row due now, with no attempts yet. -/
def newRow (rec : OutboxRecord) (now : ℤ) : Row where
  record := { rec with Attempts := 0 }
  state := .pending
  lastError := ""
  nextAttemptAt := now

/-- The insert of Enqueue; a taken id is refused. -/
def enqueue (t : OutboxRows) (rec : OutboxRecord) (now : ℤ) : Option OutboxRows :=
  t.insert (newRow rec now)

/-- The condition of the subquery of claimSQL. -/
def Row.due (lane : String) (now : ℤ) (row : Row) : Prop :=
  row.record.Lane = lane ∧ row.state = .pending ∧ row.nextAttemptAt ≤ now

instance (lane : String) (now : ℤ) (row : Row) : Decidable (row.due lane now) :=
  inferInstanceAs (Decidable (_ ∧ _ ∧ _))

/-- ORDER BY created_at, id. -/
def Row.before (a b : Row) : Prop :=
  a.record.CreatedAt < b.record.CreatedAt ∨
    (a.record.CreatedAt = b.record.CreatedAt ∧ a.id ≤ b.id)

instance : DecidableRel Row.before := fun _ _ => inferInstanceAs (Decidable (_ ∨ _))

/-- The rows the subquery of claimSQL picks. -/
def picked (t : OutboxRows) (lane : String) (limit now : ℤ) (locked : List (BitVec 128)) :
    List Row :=
  ((t.rows.filter fun row => row.due lane now ∧ row.id ∉ locked).insertionSort
    Row.before).take limit.toNat

/-- What claimSQL sets. -/
def Row.lease (expiry : ℤ) (row : Row) : Row :=
  { row with
    record := { row.record with Attempts := row.record.Attempts + 1 }
    nextAttemptAt := expiry }

def leaseRows (ids : List (BitVec 128)) (expiry : ℤ) (row : Row) : Row :=
  if row.id ∈ ids then row.lease expiry else row

theorem leaseRows_id (ids : List (BitVec 128)) (expiry : ℤ) (row : Row) :
    (leaseRows ids expiry row).id = row.id := by
  unfold leaseRows
  split <;> rfl

/-- The table after claimSQL has leased the rows until the given time. -/
def claim (t : OutboxRows) (ids : List (BitVec 128)) (expiry : ℤ) : OutboxRows :=
  t.update (leaseRows ids expiry) (leaseRows_id ids expiry)

/-- The SET and WHERE of the statements of MarkSent, Retry and Park. -/
def setRow (call : StoreCall) (row : Row) : Option Row :=
  match call with
  | .markSent id =>
    if row.id = id then some { row with state := .sent, lastError := "" } else none
  | .retry id next lastErr =>
    if row.id = id ∧ row.state = .pending then
      some { row with nextAttemptAt := next, lastError := lastErr }
    else none
  | .park id lastErr =>
    if row.id = id then some { row with state := .parked, lastError := lastErr } else none

theorem setRow_id (call : StoreCall) (row : Row) :
    ((setRow call row).getD row).id = row.id := by
  unfold setRow
  split <;> split <;> rfl

def opName : StoreCall → String
  | .markSent _ => "mark sent"
  | .retry _ _ _ => "retry"
  | .park _ _ => "park"

/-- One statement: the rows it changes, and an error if there are none. -/
def exec (t : OutboxRows) (call : StoreCall) : OutboxRows × Option ErrorValue :=
  (t.update (fun row => (setRow call row).getD row) (setRow_id call),
    if t.rows.any fun row => (setRow call row).isSome then none
    else some (.new .notFound ("outboxtest: " ++ opName call ++ ": no such pending row")))

variable {t : OutboxRows} {row : Row}

theorem mem_picked {lane : String} {limit now : ℤ} {locked : List (BitVec 128)}
    (h : row ∈ picked t lane limit now locked) : row ∈ t.rows ∧ row.due lane now := by
  have hsorted := List.mem_of_mem_take h
  rw [List.mem_insertionSort, List.mem_filter, decide_eq_true_eq] at hsorted
  exact ⟨hsorted.1, hsorted.2.1⟩

theorem picked_nodup {lane : String} {limit now : ℤ} {locked : List (BitVec 128)} :
    ((picked t lane limit now locked).map Row.id).Nodup := by
  have hsorted := (List.perm_insertionSort Row.before
    (t.rows.filter fun row => row.due lane now ∧ row.id ∉ locked)).map Row.id
  have hnodup := hsorted.nodup_iff.mpr (t.unique.sublist (List.filter_sublist.map Row.id))
  exact hnodup.sublist ((List.take_sublist _ _).map Row.id)

theorem lookup_claim (t : OutboxRows) (ids : List (BitVec 128)) (expiry : ℤ)
    (id : BitVec 128) :
    (claim t ids expiry).lookup id = (t.lookup id).map (leaseRows ids expiry) :=
  lookup_update t (leaseRows_id ids expiry) id

/-- A row that was not picked is as it was. -/
theorem lookup_claim_other {ids : List (BitVec 128)} {id : BitVec 128} {expiry : ℤ} (h : id ∉ ids) :
    (claim t ids expiry).lookup id = t.lookup id := by
  rw [lookup_claim]
  cases hrow : t.lookup id with
  | none => rfl
  | some row =>
    have hid : row.id ∉ ids := (lookup_eq_some hrow).2 ▸ h
    rw [Option.map_some, leaseRows, if_neg hid]

/-- A picked row is leased. -/
theorem lookup_claim_picked {rows : List Row} {expiry : ℤ} (hrow : row ∈ t.rows) (h : row ∈ rows) :
    (claim t (rows.map Row.id) expiry).lookup row.id = some (row.lease expiry) := by
  rw [lookup_claim, lookup_of_mem hrow, Option.map_some, leaseRows,
    if_pos (List.mem_map_of_mem h)]

theorem setRow_other {call : StoreCall} (h : row.id ≠ call.id) : setRow call row = none := by
  cases call with
  | markSent id => exact if_neg h
  | retry id next lastErr => exact if_neg fun hrow => h hrow.1
  | park id lastErr => exact if_neg h

theorem lookup_exec (t : OutboxRows) (call : StoreCall) (id : BitVec 128) :
    (exec t call).1.lookup id = (t.lookup id).map fun row => (setRow call row).getD row :=
  lookup_update t (setRow_id call) id

/-- A statement leaves the other rows as they are. -/
theorem lookup_exec_other {call : StoreCall} {id : BitVec 128} (h : call.id ≠ id) :
    (exec t call).1.lookup id = t.lookup id := by
  rw [lookup_exec]
  cases hrow : t.lookup id with
  | none => rfl
  | some row =>
    have hid : row.id ≠ call.id := (lookup_eq_some hrow).2 ▸ Ne.symm h
    rw [Option.map_some, setRow_other hid, Option.getD_none]

theorem setRow_record (call : StoreCall) (row : Row) :
    ((setRow call row).getD row).record = row.record := by
  unfold setRow
  split <;> split <;> rfl

end KnowledgeEngine.OutboxTable
