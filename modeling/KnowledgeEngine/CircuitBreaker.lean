import KnowledgeEngine.Transitions
import Mathlib.Data.List.Basic
import Mathlib.Tactic.Linarith

/-!
The Python circuit breaker (foundation/resilience/circuit_breaker). Calls enter and leave the
context manager one lock section at a time, any number of them inside at once, on a clock that
does not go back. Times are exact numbers of seconds.
-/

namespace KnowledgeEngine.CircuitBreaker

open Transitions

inductive CircuitState
  | CLOSED
  | OPEN
  | HALF_OPEN
deriving DecidableEq

structure CircuitOpenError where
  message : String

def circuitOpenError : CircuitOpenError := ⟨"circuit breaker is open"⟩

/-- What the breaker is made with, over the exceptions `E` its calls can raise. -/
structure Settings (E : Type) where
  failureThreshold : ℤ
  recoveryTimeout : ℚ
  isFailure : Option (E → Bool)

structure Circuit where
  state : CircuitState
  failureCount : ℕ
  lastFailureTime : ℚ
deriving DecidableEq

def newCircuit : Circuit := ⟨.CLOSED, 0, 0⟩

variable {E : Type} (cfg : Settings E)

/-- Whether the exit of a call counts against the breaker. -/
def Settings.counts : Option E → Bool
  | none => false
  | some exc => cfg.isFailure.all fun isFailure => isFailure exc

/-- The property `state`: the circuit after it was read at `now`. -/
def Circuit.readState (now : ℚ) (c : Circuit) : Circuit :=
  if c.state = .OPEN ∧ now - c.lastFailureTime ≥ cfg.recoveryTimeout then
    { c with state := .HALF_OPEN }
  else c

/-- `__enter__`. -/
def Circuit.enter (now : ℚ) (c : Circuit) : Except CircuitOpenError Unit × Circuit :=
  let c := c.readState cfg now
  if c.state = .OPEN then (.error circuitOpenError, c) else (.ok (), c)

/-- `__exit__`. -/
def Circuit.exit (now : ℚ) (outcome : Option E) (c : Circuit) : Circuit :=
  if cfg.counts outcome then
    let count := c.failureCount + 1
    ⟨if (count : ℤ) ≥ cfg.failureThreshold then .OPEN else c.state, count, now⟩
  else { c with state := .CLOSED, failureCount := 0 }

/-- The circuit, the clock, and the calls inside the context manager. -/
structure State where
  circuit : Circuit
  clock : ℚ
  inside : List ℕ
deriving DecidableEq

def initial (clock : ℚ) : State := ⟨newCircuit, clock, []⟩

inductive Label (E : Type)
  | read (now : ℚ)
  | enter (call : ℕ) (now : ℚ)
  | exit (call : ℕ) (now : ℚ) (outcome : Option E)

/-- Whether a call that enters now is admitted. -/
def Circuit.admits (now : ℚ) (c : Circuit) : Bool := (c.enter cfg now).1.isOk

def step (st : State) : Label E → Option State
  | .read now =>
    if st.clock ≤ now then some ⟨st.circuit.readState cfg now, now, st.inside⟩ else none
  | .enter call now =>
    if st.clock ≤ now then
      some ⟨(st.circuit.enter cfg now).2, now,
        if st.circuit.admits cfg now then call :: st.inside else st.inside⟩
    else none
  | .exit call now outcome =>
    if st.clock ≤ now ∧ call ∈ st.inside then
      some ⟨st.circuit.exit cfg now outcome, now, st.inside.erase call⟩
    else none

/-- A step in which no call is admitted. -/
def refusingStep (st : State) (label : Label E) : Option State :=
  match label with
  | .enter _ now => if st.circuit.admits cfg now then none else step cfg st label
  | _ => step cfg st label

/-- From here on, the first call to be admitted comes no earlier than the recovery timeout
after the last recorded failure. -/
def StaysOpen (st : State) : Prop :=
  ∀ before middle, run (refusingStep cfg) st before = some middle →
    ∀ now, middle.clock ≤ now → middle.circuit.admits cfg now = true →
      cfg.recoveryTimeout ≤ now - middle.circuit.lastFailureTime

/-- A tripped circuit has its failures behind it. -/
structure Tripped (cfg : Settings E) (st : State) : Prop where
  last_le : st.circuit.lastFailureTime ≤ st.clock
  threshold_le : cfg.failureThreshold ≤ st.circuit.failureCount
  failure : ∃ exc, cfg.counts (some exc) = true

variable {cfg} {st st' : State} {outcome : Option E} {label : Label E} {now : ℚ}

theorem admits_iff {c : Circuit} :
    c.admits cfg now = true ↔
      (c.state = .OPEN → cfg.recoveryTimeout ≤ now - c.lastFailureTime) := by
  rw [Circuit.admits, Circuit.enter, Circuit.readState]
  by_cases hopen : c.state = .OPEN
  · by_cases hover : cfg.recoveryTimeout ≤ now - c.lastFailureTime
    · simp [hopen, hover, Except.isOk, Except.toBool]
    · simp [hopen, hover, Except.isOk, Except.toBool]
  · simp [hopen, Except.isOk, Except.toBool]

theorem enter_circuit {c : Circuit} : (c.enter cfg now).2 = c.readState cfg now := by
  rw [Circuit.enter]
  split <;> rfl

@[simp] theorem readState_last (cfg : Settings E) (now : ℚ) (c : Circuit) :
    (c.readState cfg now).lastFailureTime = c.lastFailureTime := by
  rw [Circuit.readState]
  split <;> rfl

@[simp] theorem readState_count (cfg : Settings E) (now : ℚ) (c : Circuit) :
    (c.readState cfg now).failureCount = c.failureCount := by
  rw [Circuit.readState]
  split <;> rfl

theorem readState_not_closed (cfg : Settings E) (now : ℚ) (c : Circuit) :
    (c.readState cfg now).state ≠ .CLOSED ↔ c.state ≠ .CLOSED := by
  rw [Circuit.readState]
  split
  · next h => simp [h.1]
  · rfl

theorem exit_of_counts (h : cfg.counts outcome = true) (now : ℚ) (c : Circuit) :
    c.exit cfg now outcome =
      ⟨if ((c.failureCount + 1 : ℕ) : ℤ) ≥ cfg.failureThreshold then .OPEN else c.state,
        c.failureCount + 1, now⟩ := by
  rw [Circuit.exit, if_pos h]

theorem exit_of_not_counts (h : cfg.counts outcome = false) (now : ℚ) (c : Circuit) :
    c.exit cfg now outcome = { c with state := .CLOSED, failureCount := 0 } := by
  rw [Circuit.exit, h]
  rfl

theorem exists_of_counts (h : cfg.counts outcome = true) : ∃ exc, cfg.counts (some exc) = true := by
  cases outcome with
  | none => cases h
  | some exc => exact ⟨exc, h⟩

/-- What a step does: a read, with or without an admission, or the exit of a call. -/
inductive Effect (cfg : Settings E) (st st' : State) : Label E → Prop
  | reads (label : Label E) (now : ℚ) (hclock : st.clock ≤ now)
      (hcircuit : st'.circuit = st.circuit.readState cfg now) (hnow : st'.clock = now)
      (hinside : st'.inside = st.inside) : Effect cfg st st' label
  | admits (call : ℕ) (now : ℚ) (hclock : st.clock ≤ now)
      (hadmits : st.circuit.admits cfg now = true)
      (hcircuit : st'.circuit = st.circuit.readState cfg now) (hnow : st'.clock = now)
      (hinside : st'.inside = call :: st.inside) : Effect cfg st st' (.enter call now)
  | exits (call : ℕ) (now : ℚ) (outcome : Option E) (hclock : st.clock ≤ now)
      (hcall : call ∈ st.inside)
      (hcircuit : st'.circuit = st.circuit.exit cfg now outcome) (hnow : st'.clock = now)
      (hinside : st'.inside = st.inside.erase call) : Effect cfg st st' (.exit call now outcome)

theorem step_effect (h : step cfg st label = some st') : Effect cfg st st' label := by
  cases label with
  | read now =>
    obtain ⟨hclock, hst'⟩ := Option.ite_none_right_eq_some.mp h
    obtain rfl := Option.some.inj hst'
    exact .reads _ now hclock rfl rfl rfl
  | enter call now =>
    obtain ⟨hclock, hst'⟩ := Option.ite_none_right_eq_some.mp h
    obtain rfl := Option.some.inj hst'
    cases hadmits : st.circuit.admits cfg now with
    | true => exact .admits call now hclock hadmits enter_circuit rfl rfl
    | false => exact .reads _ now hclock enter_circuit rfl rfl
  | exit call now outcome =>
    obtain ⟨⟨hclock, hcall⟩, hst'⟩ := Option.ite_none_right_eq_some.mp h
    obtain rfl := Option.some.inj hst'
    exact .exits call now outcome hclock hcall rfl rfl rfl

theorem Tripped.reads (h : Tripped cfg st) (hclock : st.clock ≤ now)
    (hcircuit : st'.circuit = st.circuit.readState cfg now) (hnow : st'.clock = now) :
    Tripped cfg st' where
  last_le := by
    rw [hcircuit, readState_last, hnow]
    exact h.last_le.trans hclock
  threshold_le := by
    rw [hcircuit, readState_count]
    exact h.threshold_le
  failure := h.failure

theorem tripped_step (h : st.circuit.state ≠ .CLOSED → Tripped cfg st)
    (hstep : step cfg st label = some st') (hopen : st'.circuit.state ≠ .CLOSED) :
    Tripped cfg st' := by
  cases step_effect hstep with
  | reads label now hclock hcircuit hnow _ =>
    rw [hcircuit, readState_not_closed] at hopen
    exact (h hopen).reads hclock hcircuit hnow
  | admits call now hclock _ hcircuit hnow _ =>
    rw [hcircuit, readState_not_closed] at hopen
    exact (h hopen).reads hclock hcircuit hnow
  | exits call now outcome hclock _ hcircuit hnow _ =>
    cases hcounts : cfg.counts outcome with
    | false =>
      rw [hcircuit, exit_of_not_counts hcounts] at hopen
      exact absurd rfl hopen
    | true =>
      rw [hcircuit, exit_of_counts hcounts] at hopen
      refine ⟨?_, ?_, exists_of_counts hcounts⟩
      · rw [hcircuit, exit_of_counts hcounts, hnow]
      · rw [hcircuit, exit_of_counts hcounts]
        by_cases hthreshold : ((st.circuit.failureCount + 1 : ℕ) : ℤ) ≥ cfg.failureThreshold
        · exact hthreshold
        · rw [if_neg hthreshold] at hopen
          have hle := (h hopen).threshold_le
          push_cast
          omega

theorem tripped_run {clock : ℚ} {labels : List (Label E)}
    (h : run (step cfg) (initial clock) labels = some st) (hopen : st.circuit.state ≠ .CLOSED) :
    Tripped cfg st :=
  run_invariant (fun st => st.circuit.state ≠ .CLOSED → Tripped cfg st)
    (fun _ _ _ => tripped_step) (fun hclosed => absurd rfl hclosed) h hopen

theorem refusing_effect (h : refusingStep cfg st label = some st') : step cfg st label = some st' ∧
      ∀ call now, label = .enter call now → st.circuit.admits cfg now = false := by
  cases label with
  | read now => exact ⟨h, fun _ _ h => by cases h⟩
  | exit call now outcome => exact ⟨h, fun _ _ h => by cases h⟩
  | enter call now =>
    obtain ⟨hadmits, hst'⟩ := Option.ite_none_left_eq_some.mp h
    refine ⟨hst', ?_⟩
    rintro _ _ ⟨⟩
    exact Bool.eq_false_iff.mpr hadmits

/-- The recovery timeout is over. -/
def Recovered (cfg : Settings E) (st : State) : Prop :=
  cfg.recoveryTimeout ≤ st.clock - st.circuit.lastFailureTime

/-- What a run without an admission keeps of an open circuit that nothing can close early:
either nothing is inside and it is open, or the timeout is over and at most one call, which
finds the circuit still tripped, is inside. -/
def Quiet (cfg : Settings E) (st : State) : Prop :=
  (st.inside = [] ∧ st.circuit.state = .OPEN) ∨
    (Recovered cfg st ∧ (st.inside = [] ∨
      (st.inside.length = 1 ∧ cfg.failureThreshold ≤ st.circuit.failureCount)))

theorem Recovered.later (h : Recovered cfg st) (hclock : st.clock ≤ st'.clock)
    (hlast : st'.circuit.lastFailureTime = st.circuit.lastFailureTime) : Recovered cfg st' := by
  rw [Recovered] at h ⊢
  linarith

theorem quiet_reads (h : Quiet cfg st) (hclock : st.clock ≤ now)
    (hcircuit : st'.circuit = st.circuit.readState cfg now) (hnow : st'.clock = now)
    (hinside : st'.inside = st.inside) : Quiet cfg st' := by
  obtain ⟨hempty, hopen⟩ | ⟨hrecovered, hone⟩ := h
  · rw [← hinside] at hempty
    by_cases hover : now - st.circuit.lastFailureTime ≥ cfg.recoveryTimeout
    · refine .inr ⟨?_, .inl hempty⟩
      rw [Recovered, hcircuit, readState_last, hnow]
      exact hover
    · refine .inl ⟨hempty, ?_⟩
      rw [hcircuit, Circuit.readState, if_neg (fun hand => hover hand.2)]
      exact hopen
  · refine .inr ⟨?_, ?_⟩
    · exact hrecovered.later (hnow ▸ hclock) (by rw [hcircuit, readState_last])
    · rwa [hinside, hcircuit, readState_count]

theorem quiet_step (cfg : Settings E) (st : State) (label : Label E) (st' : State)
    (h : Quiet cfg st) (hstep : refusingStep cfg st label = some st') : Quiet cfg st' := by
  obtain ⟨hstep, hrefused⟩ := refusing_effect hstep
  cases step_effect hstep with
  | reads label now hclock hcircuit hnow hinside =>
    exact quiet_reads h hclock hcircuit hnow hinside
  | admits call now _ hadmits _ _ _ =>
    rw [hrefused call now rfl] at hadmits
    cases hadmits
  | exits call now outcome hclock hcall hcircuit hnow hinside =>
    obtain ⟨hempty, -⟩ | ⟨hrecovered, hempty | ⟨hone, hthreshold⟩⟩ := h
    · rw [hempty] at hcall
      cases hcall
    · rw [hempty] at hcall
      cases hcall
    · have hleft : st'.inside = [] := by
        have hlength := List.length_erase_add_one hcall
        rw [hinside]
        exact List.eq_nil_of_length_eq_zero (by omega)
      cases hcounts : cfg.counts outcome with
      | false =>
        refine .inr ⟨hrecovered.later (hnow ▸ hclock) ?_, .inl hleft⟩
        rw [hcircuit, exit_of_not_counts hcounts]
      | true =>
        refine .inl ⟨hleft, ?_⟩
        rw [hcircuit, exit_of_counts hcounts]
        exact if_pos (by push_cast; omega)

theorem staysOpen_of_quiet (h : Quiet cfg st) : StaysOpen cfg st := by
  intro before middle hrun now hclock hadmits
  have hquiet := run_invariant (Quiet cfg) (quiet_step cfg) h hrun
  obtain ⟨-, hopen⟩ | ⟨hrecovered, -⟩ := hquiet
  · exact admits_iff.mp hadmits hopen
  · rw [Recovered] at hrecovered
    linarith

theorem last_le_step (h : st.circuit.lastFailureTime ≤ st.clock)
    (hstep : step cfg st label = some st') : st'.circuit.lastFailureTime ≤ st'.clock := by
  cases step_effect hstep with
  | reads _ now hclock hcircuit hnow _ | admits _ now hclock _ hcircuit hnow _ =>
    rw [hcircuit, readState_last, hnow]
    exact h.trans hclock
  | exits _ now outcome hclock _ hcircuit hnow _ =>
    cases hcounts : cfg.counts outcome with
    | false =>
      rw [hcircuit, exit_of_not_counts hcounts, hnow]
      exact h.trans hclock
    | true => rw [hcircuit, exit_of_counts hcounts, hnow]

/-- With no time to wait there is nothing to violate. -/
theorem staysOpen_of_timeout_le_zero (hlast : st.circuit.lastFailureTime ≤ st.clock)
    (htimeout : cfg.recoveryTimeout ≤ 0) : StaysOpen cfg st := by
  intro before middle hrun now hclock _
  have hmiddle := run_invariant (fun st => st.circuit.lastFailureTime ≤ st.clock)
    (fun _ _ _ hst hstep => last_le_step hst (refusing_effect hstep).1) hlast hrun
  linarith

theorem exit_refusing (cfg : Settings E) {call : ℕ} (hcall : call ∈ st.inside)
    (outcome : Option E) :
    refusingStep cfg st (.exit call st.clock outcome) =
      some ⟨st.circuit.exit cfg st.clock outcome, st.clock, st.inside.erase call⟩ :=
  if_pos ⟨le_rfl, hcall⟩

theorem StaysOpen.step (h : StaysOpen cfg st) (hstep : refusingStep cfg st label = some st') :
    StaysOpen cfg st' :=
  fun before middle hrun =>
    h (label :: before) middle (Option.bind_eq_some_iff.mpr ⟨st', hstep, hrun⟩)

/-- A closed circuit admits at once, whatever its last failure. -/
theorem recovered_of_closed (h : StaysOpen cfg st) (hclosed : st.circuit.state = .CLOSED) :
    Recovered cfg st := by
  refine h [] st rfl st.clock le_rfl (admits_iff.mpr fun hopen => ?_)
  rw [hclosed] at hopen
  cases hopen

/-- A call inside that ends well closes the circuit. -/
theorem recovered_of_inside (h : StaysOpen cfg st) {call : ℕ} (hcall : call ∈ st.inside) :
    Recovered cfg st := by
  have hstep := exit_refusing cfg hcall none
  rw [exit_of_not_counts rfl] at hstep
  have hrecovered := recovered_of_closed (h.step hstep) rfl
  exact hrecovered

/-- Of two calls inside, one fails now and the other then closes the circuit. -/
theorem timeout_le_zero_of_two_inside (h : StaysOpen cfg st) {first second : ℕ} {rest : List ℕ}
    (hinside : st.inside = first :: second :: rest) {exc : E}
    (hexc : cfg.counts (some exc) = true) :
    cfg.recoveryTimeout ≤ 0 := by
  have hfirst : first ∈ st.inside := hinside ▸ List.mem_cons_self
  have hstep := exit_refusing cfg hfirst (some exc)
  rw [exit_of_counts hexc, hinside, List.erase_cons_head] at hstep
  have hrecovered := recovered_of_inside (h.step hstep) List.mem_cons_self
  rwa [Recovered, sub_self] at hrecovered

/-- An open circuit admits nobody before the recovery timeout is over if and only if there is
no timeout, or no call is inside, or one call is and the timeout is over already. -/
theorem staysOpen_iff (cfg : Settings E) (clock : ℚ) (labels : List (Label E)) (st : State)
    (h : run (step cfg) (initial clock) labels = some st) (hopen : st.circuit.state = .OPEN) :
    StaysOpen cfg st ↔
      cfg.recoveryTimeout ≤ 0 ∨ st.inside = [] ∨
        (st.inside.length = 1 ∧
          cfg.recoveryTimeout ≤ st.clock - st.circuit.lastFailureTime) := by
  have htripped := tripped_run h (by rw [hopen]; exact CircuitState.noConfusion)
  constructor
  · intro hstays
    obtain ⟨exc, hexc⟩ := htripped.failure
    rcases hinside : st.inside with _ | ⟨first, _ | ⟨second, rest⟩⟩
    · exact .inr (.inl rfl)
    · exact .inr (.inr ⟨rfl, recovered_of_inside hstays (hinside ▸ List.mem_cons_self)⟩)
    · exact .inl (timeout_le_zero_of_two_inside hstays hinside hexc)
  · rintro (htimeout | hempty | ⟨hone, hrecovered⟩)
    · exact staysOpen_of_timeout_le_zero htripped.last_le htimeout
    · exact staysOpen_of_quiet (.inl ⟨hempty, hopen⟩)
    · exact staysOpen_of_quiet (.inr ⟨hrecovered, .inr ⟨hone, htripped.threshold_le⟩⟩)

theorem staysOpen_after_one_failure :
    StaysOpen (⟨1, 30, none⟩ : Settings Unit) ⟨⟨.OPEN, 1, 5⟩, 5, []⟩ :=
  (staysOpen_iff ⟨1, 30, none⟩ 0 [.enter 0 1, .exit 0 5 (some ())] _ (by decide +kernel)
    rfl).mpr (.inr (.inl rfl))

/-- Two calls are inside; one fails and trips the breaker, the other succeeds, and a third is
admitted with 28 of the 30 seconds still to go. -/
theorem early_admission :
    (run (step (⟨1, 30, none⟩ : Settings Unit)) (initial 0)
        [.enter 0 1, .enter 1 2, .exit 0 5 (some ())] = some ⟨⟨.OPEN, 1, 5⟩, 5, [1]⟩) ∧
      (run (step (⟨1, 30, none⟩ : Settings Unit)) ⟨⟨.OPEN, 1, 5⟩, 5, [1]⟩
        [.exit 1 6 none, .enter 2 7] = some ⟨⟨.CLOSED, 0, 5⟩, 7, [2]⟩) := by
  decide +kernel

end KnowledgeEngine.CircuitBreaker
