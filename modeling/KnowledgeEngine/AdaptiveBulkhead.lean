import KnowledgeEngine.CoreTypes
import KnowledgeEngine.Transitions
import Mathlib.Data.Rat.Floor

/-!
The adaptive bulkhead (foundation/resilience/bulkhead/adaptive): a count of running
operations under a limit that grows by one on a fast success and shrinks by a factor on a
slow or failed operation. Calls of Execute and TryExecute are taken step by step, each
critical section one step, and between them the operations run and end as they like. The
limit is an exact number.
-/

namespace KnowledgeEngine.AdaptiveBulkhead

open CoreTypes Transitions

def ErrBulkheadFull : ErrorValue :=
  .new .unavailable "bulkhead: adaptive concurrency limit reached"

/-- The threshold is in nanoseconds. -/
structure Config where
  MinConcurrent : ℤ
  MaxConcurrent : ℤ
  InitialConcurrent : ℤ
  RTTThreshold : ℤ
  BackoffRatio : ℚ

def DefaultConfig : Config where
  MinConcurrent := 1
  MaxConcurrent := 20
  InitialConcurrent := 10
  RTTThreshold := 100000000
  BackoffRatio := 9 / 10

/-- The notify channel is the number of channels closed before it. -/
structure Bulkhead where
  notify : ℕ
  limit : ℚ
  inFlight : ℕ
  minLimit : ℚ
  maxLimit : ℚ
  rttThreshold : ℤ
  backoffRatio : ℚ
  one_le_min : 1 ≤ minLimit
  min_le : minLimit ≤ limit
  le_max : limit ≤ maxLimit
  ratio_le : backoffRatio ≤ 1

/-- The ratio in use: the configured one if it is between 0 and 1. -/
def ratioOf (configured : ℚ) : ℚ := if configured ≤ 0 ∨ configured ≥ 1 then 9 / 10 else configured

theorem ratioOf_le (configured : ℚ) : ratioOf configured ≤ 1 := by
  rw [ratioOf]
  split
  · norm_num
  · next h => exact (not_le.mp (not_or.mp h).2).le

def New (cfg : Config) : Bulkhead where
  notify := 0
  limit := min (max (max 1 cfg.MinConcurrent) cfg.MaxConcurrent)
    (max (max 1 cfg.MinConcurrent) cfg.InitialConcurrent)
  inFlight := 0
  minLimit := max 1 cfg.MinConcurrent
  maxLimit := max (max 1 cfg.MinConcurrent) cfg.MaxConcurrent
  rttThreshold := cfg.RTTThreshold
  backoffRatio := ratioOf cfg.BackoffRatio
  one_le_min := le_max_left _ _
  min_le := le_min (le_max_left _ _) (le_max_left _ _)
  le_max := min_le_left _ _
  ratio_le := ratioOf_le _

/-- `int(b.limit)`; the limit is not negative. -/
def Bulkhead.slots (b : Bulkhead) : ℕ := ⌊b.limit⌋₊

def Bulkhead.take (b : Bulkhead) : Bulkhead := { b with inFlight := b.inFlight + 1 }

theorem Bulkhead.shrunk_le (b : Bulkhead) : b.limit * b.backoffRatio ≤ b.limit :=
  mul_le_of_le_one_right (by linarith [b.one_le_min, b.min_le]) b.ratio_le

def Bulkhead.adjust (b : Bulkhead) (rtt : ℤ) (opErr : Option ErrorValue) : Bulkhead :=
  if opErr.isSome ∨ (b.rttThreshold > 0 ∧ rtt > b.rttThreshold) then
    { b with
      limit := max b.minLimit (b.limit * b.backoffRatio)
      min_le := le_max_left _ _
      le_max := max_le (b.min_le.trans b.le_max) (b.shrunk_le.trans b.le_max) }
  else
    { b with
      limit := min b.maxLimit (b.limit + 1)
      min_le := le_min (b.min_le.trans b.le_max) (by linarith [b.min_le])
      le_max := min_le_left _ _ }

def Bulkhead.release (b : Bulkhead) (rtt : ℤ) (opErr : Option ErrorValue) : Bulkhead :=
  let b := if b.inFlight > 0 then { b with inFlight := b.inFlight - 1 } else b
  let b := b.adjust rtt opErr
  { b with notify := b.notify + 1 }

inductive ContextError
  | canceled
  | deadlineExceeded

/-- The error of an acquire whose context ends while it waits. -/
def waitCanceled : ContextError → ErrorValue
  | .canceled => ErrorValue.wrap ⟨.unknown, true, "context canceled"⟩ .canceled
      "bulkhead wait canceled"
  | .deadlineExceeded => ErrorValue.wrap ⟨.unknown, true, "context deadline exceeded"⟩ .timeout
      "bulkhead wait canceled"

/-- The calls in acquire with the channel each waits on, those whose operation is running,
and what the others returned. -/
structure State where
  bulkhead : Bulkhead
  waiting : List (ℕ × ℕ)
  running : List ℕ
  returned : List (ℕ × Option ErrorValue)

def initial (cfg : Config) : State := ⟨New cfg, [], [], []⟩

inductive Label
  | execute (call : ℕ)
  | wake (call channel : ℕ)
  | cancel (call channel : ℕ) (err : ContextError)
  | tryExecute (call : ℕ)
  | operationReturns (call : ℕ) (rtt : ℤ) (opErr : Option ErrorValue)
  | operationPanics (call : ℕ)

def State.admit (st : State) (call : ℕ) : State :=
  { st with bulkhead := st.bulkhead.take, running := call :: st.running }

/-- One turn of the loop of acquire, up to the select. -/
def State.acquire (st : State) (call : ℕ) : State :=
  if st.bulkhead.inFlight < st.bulkhead.slots then st.admit call
  else { st with waiting := (call, st.bulkhead.notify) :: st.waiting }

def State.tryExecute (st : State) (call : ℕ) : State :=
  if st.bulkhead.inFlight ≥ st.bulkhead.slots then
    { st with returned := (call, some ErrBulkheadFull) :: st.returned }
  else st.admit call

def step (st : State) : Label → Option State
  | .execute call => some (st.acquire call)
  | .wake call channel =>
    if (call, channel) ∈ st.waiting ∧ channel < st.bulkhead.notify then
      some (State.acquire { st with waiting := st.waiting.erase (call, channel) } call)
    else none
  | .cancel call channel err =>
    if (call, channel) ∈ st.waiting then
      some { st with
        waiting := st.waiting.erase (call, channel)
        returned := (call, some (waitCanceled err)) :: st.returned }
    else none
  | .tryExecute call => some (st.tryExecute call)
  | .operationReturns call rtt opErr =>
    if call ∈ st.running then
      some { st with
        bulkhead := st.bulkhead.release rtt opErr
        running := st.running.erase call
        returned := (call, opErr) :: st.returned }
    else none
  -- the panic unwinds the call: release is not deferred and does not run
  | .operationPanics call =>
    if call ∈ st.running then some { st with running := st.running.erase call } else none

def Label.isPanic : Label → Bool
  | .operationPanics _ => true
  | _ => false

@[simp] theorem take_inFlight (b : Bulkhead) : b.take.inFlight = b.inFlight + 1 := rfl

theorem adjust_inFlight (b : Bulkhead) (rtt : ℤ) (opErr : Option ErrorValue) :
    (b.adjust rtt opErr).inFlight = b.inFlight := by
  rw [Bulkhead.adjust]
  split <;> rfl

theorem release_inFlight (b : Bulkhead) (rtt : ℤ) (opErr : Option ErrorValue) :
    (b.release rtt opErr).inFlight = b.inFlight - 1 := by
  simp only [Bulkhead.release, adjust_inFlight]
  split
  · rfl
  · omega

theorem lt_limit_of_lt_slots {b : Bulkhead} (h : b.inFlight < b.slots) :
    (b.inFlight : ℚ) < b.limit :=
  Nat.lt_of_lt_floor h

/-- What a step does to the bulkhead and the running operations. -/
inductive Effect (st st' : State) : Label → Prop
  | idle (label : Label) (hlabel : label.isPanic = false)
      (hbulkhead : st'.bulkhead = st.bulkhead) (hrunning : st'.running = st.running) :
      Effect st st' label
  | admits (label : Label) (hlabel : label.isPanic = false) (call : ℕ)
      (hfree : st.bulkhead.inFlight < st.bulkhead.slots)
      (hbulkhead : st'.bulkhead = st.bulkhead.take) (hrunning : st'.running = call :: st.running) :
      Effect st st' label
  | returns (call : ℕ) (rtt : ℤ) (opErr : Option ErrorValue) (hcall : call ∈ st.running)
      (hbulkhead : st'.bulkhead = st.bulkhead.release rtt opErr)
      (hrunning : st'.running = st.running.erase call) :
      Effect st st' (.operationReturns call rtt opErr)
  | panics (call : ℕ) (hcall : call ∈ st.running) (hbulkhead : st'.bulkhead = st.bulkhead)
      (hrunning : st'.running = st.running.erase call) : Effect st st' (.operationPanics call)

variable {st : State} {label : Label}

/-- The waiting calls play no part in what acquire does to the rest. -/
theorem acquire_effect {waiting : List (ℕ × ℕ)} {call : ℕ} (hlabel : label.isPanic = false) :
    Effect st (State.acquire { st with waiting := waiting } call) label := by
  by_cases hfree : st.bulkhead.inFlight < st.bulkhead.slots
  · refine .admits label hlabel call hfree ?_ ?_ <;>
      simp only [State.acquire, hfree, if_pos] <;> rfl
  · refine .idle label hlabel ?_ ?_ <;> simp only [State.acquire, hfree, if_false]

theorem step_effect {st' : State} (h : step st label = some st') : Effect st st' label := by
  cases label with
  | execute call =>
    rw [← Option.some.inj h]
    exact acquire_effect rfl
  | wake call channel =>
    obtain ⟨-, hst'⟩ := Option.ite_none_right_eq_some.mp h
    rw [← Option.some.inj hst']
    exact acquire_effect rfl
  | cancel call channel err =>
    obtain ⟨-, hst'⟩ := Option.ite_none_right_eq_some.mp h
    rw [← Option.some.inj hst']
    exact .idle _ rfl rfl rfl
  | tryExecute call =>
    rw [← Option.some.inj h, State.tryExecute]
    split
    · exact .idle _ rfl rfl rfl
    · next hfree => exact .admits _ rfl call (Nat.lt_of_not_le hfree) rfl rfl
  | operationReturns call rtt opErr =>
    obtain ⟨hcall, hst'⟩ := Option.ite_none_right_eq_some.mp h
    rw [← Option.some.inj hst']
    exact .returns call rtt opErr hcall rfl rfl
  | operationPanics call =>
    obtain ⟨hcall, hst'⟩ := Option.ite_none_right_eq_some.mp h
    rw [← Option.some.inj hst']
    exact .panics call hcall rfl rfl

/-- The count is the running operations and `lost` more. -/
def Counted (lost : ℕ) (st : State) : Prop := st.bulkhead.inFlight = st.running.length + lost

/-- Every step keeps what is lost, and a panic adds one to it. -/
theorem counted_step (lost : ℕ) (st : State) (label : Label) (st' : State)
    (h : Counted lost st) (hstep : step st label = some st') :
    Counted (lost + if label.isPanic then 1 else 0) st' := by
  have hcount : st.bulkhead.inFlight = st.running.length + lost := h
  rw [Counted]
  cases step_effect hstep with
  | idle _ hlabel hbulkhead hrunning =>
    rw [hlabel, hbulkhead, hrunning]
    exact hcount
  | admits _ hlabel call hfree hbulkhead hrunning =>
    rw [hlabel, hbulkhead, hrunning, take_inFlight, List.length_cons, hcount]
    exact Nat.add_right_comm _ _ _
  | returns call rtt opErr hcall hbulkhead hrunning =>
    have hlength := List.length_erase_add_one hcall
    show _ = _ + (lost + 0)
    rw [hbulkhead, hrunning, release_inFlight]
    omega
  | panics call hcall hbulkhead hrunning =>
    have hlength := List.length_erase_add_one hcall
    show _ = _ + (lost + 1)
    rw [hbulkhead, hrunning]
    omega

theorem counted_run {cfg : Config} {labels : List Label}
    (h : run step (initial cfg) labels = some st) : Counted (labels.countP Label.isPanic) st := by
  have hinitial : Counted 0 (initial cfg) := rfl
  have htallied := run_tallied counted_step hinitial h
  rwa [Nat.zero_add] at htallied

theorem release_bounds {b : Bulkhead} {rtt : ℤ} {opErr : Option ErrorValue} :
    (b.release rtt opErr).minLimit = b.minLimit ∧
      (b.release rtt opErr).maxLimit = b.maxLimit := by
  simp only [Bulkhead.release, Bulkhead.adjust]
  split <;> split <;> exact ⟨rfl, rfl⟩

/-- The bounds stay those the bulkhead was made with. -/
theorem bounds_run {cfg : Config} {labels : List Label}
    (h : run step (initial cfg) labels = some st) :
    st.bulkhead.minLimit = (New cfg).minLimit ∧ st.bulkhead.maxLimit = (New cfg).maxLimit := by
  refine run_invariant (fun st => st.bulkhead.minLimit = (New cfg).minLimit ∧
    st.bulkhead.maxLimit = (New cfg).maxLimit) ?_ ⟨rfl, rfl⟩ h
  intro st label st' hbounds hstep
  cases step_effect hstep with
  | idle _ _ hbulkhead _ | panics _ _ hbulkhead _ => rwa [hbulkhead]
  | admits _ _ _ _ hbulkhead _ => rwa [hbulkhead]
  | returns _ rtt opErr _ hbulkhead _ =>
    rwa [hbulkhead, release_bounds.1, release_bounds.2]

/-- An operation starts only where a slot is free. -/
theorem free_of_starts {st' : State} (hstep : step st label = some st')
    (hstarts : st.running.length < st'.running.length) :
    st.bulkhead.inFlight < st.bulkhead.slots := by
  cases step_effect hstep with
  | idle _ _ _ hrunning =>
    rw [hrunning] at hstarts
    omega
  | admits _ _ _ hfree _ _ => exact hfree
  | returns _ _ _ _ _ hrunning | panics _ _ _ hrunning =>
    rw [hrunning] at hstarts
    have hlength := List.length_erase_le (a := ‹ℕ›) (l := st.running)
    omega

/-- A TryExecute is admitted exactly where a slot is free. -/
theorem tryExecute_admitted_iff (st : State) (call : ℕ) :
    (st.tryExecute call).running = call :: st.running ↔
      st.bulkhead.inFlight < st.bulkhead.slots := by
  rw [State.tryExecute]
  split
  · next hfull =>
    refine ⟨fun h => ?_, fun hfree => absurd hfull (Nat.not_le.mpr hfree)⟩
    have hlength := congrArg List.length h
    simp at hlength
  · next hfree => exact ⟨fun _ => Nat.lt_of_not_le hfree, fun _ => rfl⟩

/-- After every run the count is exact if and only if no operation has panicked. The limit is
within its bounds, an operation starts only below it, and with nothing running a TryExecute is
admitted if and only if fewer operations have panicked than there are slots. -/
theorem count_exact_iff_no_panic (cfg : Config) (labels : List Label) (st : State)
    (h : run step (initial cfg) labels = some st) :
    (st.bulkhead.inFlight = st.running.length ↔ ∀ call, Label.operationPanics call ∉ labels) ∧
      ((max 1 cfg.MinConcurrent : ℚ) ≤ st.bulkhead.limit ∧
        st.bulkhead.limit ≤ max (max 1 cfg.MinConcurrent : ℚ) cfg.MaxConcurrent) ∧
      (∀ label st', step st label = some st' → st.running.length < st'.running.length →
        (st.bulkhead.inFlight : ℚ) < st.bulkhead.limit) ∧
      (st.running = [] → ∀ call, ((st.tryExecute call).running = [call] ↔
        labels.countP Label.isPanic < ⌊st.bulkhead.limit⌋₊)) := by
  have hcount : st.bulkhead.inFlight = st.running.length + _ := counted_run h
  obtain ⟨hmin, hmax⟩ := bounds_run h
  refine ⟨?_, ⟨?_, ?_⟩, ?_, ?_⟩
  · rw [hcount, Nat.add_eq_left, List.countP_eq_zero]
    constructor
    · exact fun hnone call hcall => hnone _ hcall rfl
    · intro hnone label hlabel hpanic
      cases label with
      | operationPanics call => exact hnone call hlabel
      | _ => cases hpanic
  · exact hmin.symm.trans_le st.bulkhead.min_le
  · exact st.bulkhead.le_max.trans_eq hmax
  · exact fun label st' hstep hstarts => lt_limit_of_lt_slots (free_of_starts hstep hstarts)
  · intro hidle call
    have hiff := tryExecute_admitted_iff st call
    rwa [hidle, hcount, hidle, List.length_nil, Nat.zero_add] at hiff

theorem count_exact_two_calls : ∃ st,
    run step (initial DefaultConfig)
      [.tryExecute 0, .execute 1, .operationReturns 0 5 none] = some st ∧
      st.bulkhead.inFlight = st.running.length := by
  have hruns : (run step (initial DefaultConfig)
      [.tryExecute 0, .execute 1, .operationReturns 0 5 none]).isSome := by decide +kernel
  obtain ⟨st, hst⟩ := Option.isSome_iff_exists.mp hruns
  exact ⟨st, hst, (count_exact_iff_no_panic _ _ st hst).1.mpr (by simp)⟩

/-- One panic takes the only slot for good: nothing is running and a TryExecute is refused. -/
theorem panic_keeps_slot :
    (run step (initial ⟨1, 1, 1, 0, 1 / 2⟩) [.tryExecute 0, .operationPanics 0, .tryExecute 1]).map
      (fun st => (st.running, st.bulkhead.inFlight, st.returned)) =
      some ([], 1, [(1, some ErrBulkheadFull)]) := by
  decide +kernel

end KnowledgeEngine.AdaptiveBulkhead
