import KnowledgeEngine.AdaptiveBulkhead

/-!
The fan-out of the execution engine (execution/engine/fan_out.go, with the step results of
core/types and the step emitter of engine/context.go). The spawn loop takes a worker slot
before it starts a goroutine; a canceled context makes it stop, and the tail loop then
reports the items that were not started. The spawn loop, the goroutines and the context move
in any order, one label at a time; a delivery to the emitter is one critical section.
-/

namespace KnowledgeEngine.FanOut

open CoreTypes
open AdaptiveBulkhead (ContextError)

inductive StepStatus
  | pass | fail | skip | warn
deriving DecidableEq

/-- The zero values are the defaults. Durations are in nanoseconds. -/
structure StepResult where
  Name : String := ""
  Group : String := ""
  Error : String := ""
  Detail : List UInt8 := []
  Children : List StepResult := []
  Status : StepStatus := .pass
  Duration : ℤ := 0
  Tests : ℤ := 0

def HasFailures (rs : List StepResult) : Bool := rs.any fun r => r.Status = .fail

theorem hasFailures_iff {rs : List StepResult} :
    HasFailures rs = true ↔ ∃ r ∈ rs, r.Status = .fail := by
  simp [HasFailures]

/-- `ctx.Err()` of an ended context. -/
def contextErr : ContextError → ErrorValue
  | .canceled => ⟨.unknown, true, "context canceled"⟩
  | .deadlineExceeded => ⟨.unknown, true, "context deadline exceeded"⟩

/-- A call of FanOut. What a call of `fn` returns, none where it panics, is a function of the
item and of what the world does during the call. -/
structure Call (α ω : Type) where
  items : List α
  numWorkers : ℤ
  fn : α → ω → Option StepResult
  emitter : Bool
  numCPU : ℕ
  numCPU_pos : 0 < numCPU

/-- One call of `fn`: what the world does during it, the stack if it panics, and the time
since the goroutine took its first reading. -/
structure Mapped (ω : Type) where
  world : ω
  stack : List UInt8
  elapsed : ℤ

/-- The goroutine of an item: not started, before and in its call of `fn`, with its result
written, with the result delivered, and after its slot is free again. -/
inductive Goroutine (α : Type)
  | absent
  | spawned (it : α)
  | mapping (it : α)
  | settled
  | delivered
  | ended

namespace Goroutine

variable {α : Type}

def isMapping : Goroutine α → Bool
  | mapping _ => true
  | _ => false

/-- The goroutine has a slot. -/
def isLive : Goroutine α → Bool
  | absent | ended => false
  | _ => true

/-- The steps the goroutine has left. -/
def stepsLeft : Goroutine α → ℕ
  | spawned _ => 4
  | mapping _ => 3
  | settled => 2
  | delivered => 1
  | absent | ended => 0

end Goroutine

/-- `sem` is the number of slots taken, `done` the error of an ended context. The calls of
`fn` and the completions the emitter received are kept with the index of their item. -/
structure State (α : Type) where
  i : ℕ
  tail : Bool
  returned : Bool
  done : Option ContextError
  sem : ℕ
  goroutines : List (Goroutine α)
  results : List StepResult
  calls : List (ℕ × α)
  completions : List (ℕ × StepResult)

inductive Label (ω : Type)
  | cancel (err : ContextError)
  | acquire
  | bail
  | start (k : ℕ)
  | finish (k : ℕ) (m : Mapped ω)
  | deliver (k : ℕ)
  | release (k : ℕ)
  | report
  | wait

variable {α ω : Type}

def Call.workers (c : Call α ω) : ℕ :=
  if c.numWorkers ≤ 0 then c.numCPU else c.numWorkers.toNat

theorem Call.workers_pos (c : Call α ω) : 0 < c.workers := by
  rw [Call.workers]
  split
  · exact c.numCPU_pos
  · omega

def panicResult (m : Mapped ω) : StepResult where
  Status := .fail
  Error := "panic recovered"
  Detail := m.stack
  Duration := m.elapsed

/-- The result of a call of `fn`: timed if it did not time itself, a failure if it panicked. -/
def Call.settle (c : Call α ω) (it : α) (m : Mapped ω) : StepResult :=
  match c.fn it m.world with
  | some r => if r.Duration = 0 then { r with Duration := m.elapsed } else r
  | none => panicResult m

def canceledResult (err : ContextError) : StepResult where
  Status := .fail
  Error := (contextErr err).text

/-- What the emitter receives when the result of an item is delivered. -/
def Call.received (c : Call α ω) (k : ℕ) (r : StepResult) : List (ℕ × StepResult) :=
  if c.emitter then [(k, r)] else []

def Call.initial (c : Call α ω) : State α where
  i := 0
  tail := false
  returned := false
  done := none
  sem := 0
  goroutines := List.replicate c.items.length .absent
  results := List.replicate c.items.length {}
  calls := []
  completions := []

def State.resting (st : State α) : Bool := st.goroutines.all fun g => !g.isLive

def step (c : Call α ω) (st : State α) : Label ω → Option (State α)
  | .cancel err => if st.done.isNone then some { st with done := some err } else none
  -- the select takes either branch when both are ready
  | .acquire =>
    match c.items[st.i]? with
    | some it =>
      if st.tail = false ∧ st.sem < c.workers then
        some { st with
          i := st.i + 1
          sem := st.sem + 1
          goroutines := st.goroutines.set st.i (.spawned it) }
      else none
    | none => none
  | .bail =>
    if st.tail = false ∧ st.i < c.items.length ∧ st.done.isSome then some { st with tail := true }
    else none
  | .start k =>
    match st.goroutines[k]? with
    | some (.spawned it) =>
      some { st with
        goroutines := st.goroutines.set k (.mapping it)
        calls := st.calls ++ [(k, it)] }
    | _ => none
  | .finish k m =>
    match st.goroutines[k]? with
    | some (.mapping it) =>
      some { st with
        goroutines := st.goroutines.set k .settled
        results := st.results.set k (c.settle it m) }
    | _ => none
  | .deliver k =>
    match st.goroutines[k]?, st.results[k]? with
    | some .settled, some r =>
      some { st with
        goroutines := st.goroutines.set k .delivered
        completions := st.completions ++ c.received k r }
    | _, _ => none
  | .release k =>
    match st.goroutines[k]? with
    | some .delivered =>
      some { st with goroutines := st.goroutines.set k .ended, sem := st.sem - 1 }
    | _ => none
  | .report =>
    match st.done with
    | some err =>
      if st.tail ∧ st.i < c.items.length then
        some { st with
          i := st.i + 1
          results := st.results.set st.i (canceledResult err)
          completions := st.completions ++ c.received st.i (canceledResult err) }
      else none
    | none => none
  | .wait =>
    if st.returned = false ∧ st.i = c.items.length ∧ st.resting then
      some { st with returned := true }
    else none

/-- What a step can do. -/
inductive Moves (c : Call α ω) (st : State α) : Label ω → State α → Prop
  | cancel (err : ContextError) (hdone : st.done = none) :
      Moves c st (.cancel err) { st with done := some err }
  | acquire (it : α) (hit : c.items[st.i]? = some it) (htail : st.tail = false)
      (hsem : st.sem < c.workers) :
      Moves c st .acquire { st with
        i := st.i + 1
        sem := st.sem + 1
        goroutines := st.goroutines.set st.i (.spawned it) }
  | bail (htail : st.tail = false) (hi : st.i < c.items.length) (hdone : st.done.isSome) :
      Moves c st .bail { st with tail := true }
  | start (k : ℕ) (it : α) (hk : st.goroutines[k]? = some (.spawned it)) :
      Moves c st (.start k) { st with
        goroutines := st.goroutines.set k (.mapping it)
        calls := st.calls ++ [(k, it)] }
  | finish (k : ℕ) (m : Mapped ω) (it : α) (hk : st.goroutines[k]? = some (.mapping it)) :
      Moves c st (.finish k m) { st with
        goroutines := st.goroutines.set k .settled
        results := st.results.set k (c.settle it m) }
  | deliver (k : ℕ) (r : StepResult) (hk : st.goroutines[k]? = some .settled)
      (hr : st.results[k]? = some r) :
      Moves c st (.deliver k) { st with
        goroutines := st.goroutines.set k .delivered
        completions := st.completions ++ c.received k r }
  | release (k : ℕ) (hk : st.goroutines[k]? = some .delivered) :
      Moves c st (.release k) { st with
        goroutines := st.goroutines.set k .ended
        sem := st.sem - 1 }
  | report (err : ContextError) (hdone : st.done = some err) (htail : st.tail = true)
      (hi : st.i < c.items.length) :
      Moves c st .report { st with
        i := st.i + 1
        results := st.results.set st.i (canceledResult err)
        completions := st.completions ++ c.received st.i (canceledResult err) }
  | wait (hreturned : st.returned = false) (hi : st.i = c.items.length)
      (hresting : st.resting = true) :
      Moves c st .wait { st with returned := true }

theorem moves_of_step {c : Call α ω} {st st' : State α} {l : Label ω}
    (h : step c st l = some st') : Moves c st l st' := by
  cases l with
  | cancel err =>
    obtain ⟨hdone, hst⟩ := Option.ite_none_right_eq_some.mp h
    cases hst
    exact .cancel err (Option.isNone_iff_eq_none.mp hdone)
  | acquire =>
    simp only [step] at h
    split at h
    · next it hit =>
      obtain ⟨⟨htail, hsem⟩, hst⟩ := Option.ite_none_right_eq_some.mp h
      cases hst
      exact .acquire it hit htail hsem
    · cases h
  | bail =>
    obtain ⟨⟨htail, hi, hdone⟩, hst⟩ := Option.ite_none_right_eq_some.mp h
    cases hst
    exact .bail htail hi hdone
  | start k =>
    simp only [step] at h
    split at h
    · next it hk =>
      cases h
      exact .start k it hk
    · cases h
  | finish k m =>
    simp only [step] at h
    split at h
    · next it hk =>
      cases h
      exact .finish k m it hk
    · cases h
  | deliver k =>
    simp only [step] at h
    split at h
    · next r hk hr =>
      cases h
      exact .deliver k r hk hr
    · cases h
  | release k =>
    simp only [step] at h
    split at h
    · next hk =>
      cases h
      exact .release k hk
    · cases h
  | report =>
    simp only [step] at h
    split at h
    · next err hdone =>
      obtain ⟨⟨htail, hi⟩, hst⟩ := Option.ite_none_right_eq_some.mp h
      cases hst
      exact .report err hdone htail hi
    · cases h
  | wait =>
    obtain ⟨⟨hreturned, hi, hresting⟩, hst⟩ := Option.ite_none_right_eq_some.mp h
    cases hst
    exact .wait hreturned hi hresting

theorem step_of_moves {c : Call α ω} {st st' : State α} {l : Label ω}
    (h : Moves c st l st') : step c st l = some st' := by
  cases h with
  | cancel err hdone => simp [step, hdone]
  | acquire it hit htail hsem => simp [step, hit, htail, hsem]
  | bail htail hi hdone => simp [step, htail, hi, hdone]
  | start k it hk => simp [step, hk]
  | finish k m it hk => simp [step, hk]
  | deliver k r hk hr => simp [step, hk, hr]
  | release k hk => simp [step, hk]
  | report err hdone htail hi => simp [step, hdone, htail, hi]
  | wait hreturned hi hresting => simp [step, hreturned, hi, hresting]

end KnowledgeEngine.FanOut
