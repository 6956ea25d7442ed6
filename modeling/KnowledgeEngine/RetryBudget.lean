import KnowledgeEngine.CoreTypes
import KnowledgeEngine.Transitions
import Mathlib.Data.List.Dedup

/-!
The retry budget (foundation/resilience/budget) as the exponential retrier spends it: any
number of Retry and RetryWithResult calls, nested or side by side, over one budget in their
context. A call loads the budget and takes from it by compare-and-swap before every attempt.
What backoff.Retry does after an error that may be retried is free: another attempt, or the
end of the call. A Retry is a RetryWithResult without a value.
-/

namespace KnowledgeEngine.RetryBudget

open CoreTypes Transitions

/-- An operation's error: its code, and whether it is a canceled context. -/
structure OpError where
  Code : ErrorCode
  canceled : Bool
deriving DecidableEq

def defaultIsRetryable (err : OpError) : Bool :=
  if err.canceled then false
  else match err.Code with
    | .conflict | .invalidInput | .notFound | .forbidden | .unauthorized
    | .resourceExhausted => false
    | .unknown | .internal | .timeout | .canceled | .unavailable | .ingestion
    | .qualityFailed | .upstream => true

structure Config where
  IsRetryable : Option (OpError → Bool)

def Config.classify (cfg : Config) : OpError → Bool := cfg.IsRetryable.getD defaultIsRetryable

/-- What a call can return: an exhausted budget, the operation's error or the context's. -/
inductive CallError
  | ErrRetryBudgetExhausted
  | operation (err : OpError)
  | context
deriving DecidableEq

variable {T : Type}

/-- Where a call is: about to load the budget, between the load and the swap, in its
operation, back in backoff.Retry with an error to retry, or returned. -/
inductive Call (T : Type)
  | absent
  | consuming
  | loaded (current : ℕ)
  | running
  | failed (value : T) (err : OpError)
  | returned (value : T) (err : Option CallError)
deriving DecidableEq

/-- The budget, the calls, and the calls whose operation was started, the last one first. -/
structure State (T : Type) where
  remaining : ℕ
  calls : ℕ → Call T
  ran : List ℕ

def NewBudget (maxRetries : ℕ) : State T := ⟨maxRetries, fun _ => .absent, []⟩

inductive Label (T : Type)
  | begin (call : ℕ)
  | load (call : ℕ)
  | swap (call : ℕ)
  | operationReturns (call : ℕ) (value : T) (err : Option OpError)
  | retry (call : ℕ)
  | giveUp (call : ℕ) (contextEnded : Bool)

def State.setCall (st : State T) (call : ℕ) (c : Call T) : State T :=
  { st with calls := Function.update st.calls call c }

/-- The operation's result as the function passed to backoff.Retry reports it. -/
def Config.report (cfg : Config) (value : T) : Option OpError → Call T
  | none => .returned value none
  | some err =>
    if cfg.classify err then .failed value err else .returned value (some (.operation err))

/-- The calls may each have a retrier of their own. -/
def step [Inhabited T] (retriers : ℕ → Config) (st : State T) : Label T → Option (State T)
  | .begin call =>
    match st.calls call with
    | .absent => some (st.setCall call .consuming)
    | _ => none
  | .load call =>
    match st.calls call with
    | .consuming =>
      if st.remaining ≤ 0 then
        some (st.setCall call (.returned default (some .ErrRetryBudgetExhausted)))
      else some (st.setCall call (.loaded st.remaining))
    | _ => none
  | .swap call =>
    match st.calls call with
    | .loaded current =>
      if st.remaining = current then
        some { st.setCall call .running with remaining := current - 1, ran := call :: st.ran }
      else some (st.setCall call .consuming)
    | _ => none
  | .operationReturns call value err =>
    match st.calls call with
    | .running => some (st.setCall call ((retriers call).report value err))
    | _ => none
  | .retry call =>
    match st.calls call with
    | .failed _ _ => some (st.setCall call .consuming)
    | _ => none
  | .giveUp call contextEnded =>
    match st.calls call with
    | .failed value err => some (st.setCall call
        (.returned value (some (if contextEnded then .context else .operation err))))
    | _ => none

/-- The runs of operations beyond the first of each call. -/
def State.reattempts (st : State T) : ℕ := st.ran.length - st.ran.dedup.length

/-- The call is past its first swap and has not returned. -/
def Call.InFlight : Call T → Prop
  | running => True
  | failed _ _ => True
  | _ => False

def Call.Returned : Call T → Prop
  | returned _ _ => True
  | _ => False

/-- What a step does. Apart from a refused load and a successful swap, one call moves on, and
it is in flight or returned after the step only if it was in flight before. -/
inductive Effect [Inhabited T] (st st' : State T) : Label T → Prop
  | refuses (call : ℕ) (hcall : st.calls call = .consuming) (hspent : st.remaining = 0)
      (hst' : st' = st.setCall call (.returned default (some .ErrRetryBudgetExhausted))) :
      Effect st st' (.load call)
  | takes (call : ℕ) (hcall : st.calls call = .loaded st.remaining)
      (hst' : st' = { st.setCall call .running with
        remaining := st.remaining - 1, ran := call :: st.ran }) :
      Effect st st' (.swap call)
  | moves (label : Label T) (call : ℕ) (c : Call T) (hst' : st' = st.setCall call c)
      (hopen : ¬ (st.calls call).Returned) (hloaded : ∀ current, c = .loaded current → 0 < current)
      (hflight : c.InFlight ∨ c.Returned → (st.calls call).InFlight) : Effect st st' label

theorem report_cases (cfg : Config) (value : T) (err : Option OpError) :
    (cfg.report value err).InFlight ∨ (cfg.report value err).Returned := by
  cases err with
  | none => exact .inr trivial
  | some err =>
    rw [Config.report]
    split
    · exact .inl trivial
    · exact .inr trivial

theorem setCall_self (st : State T) (call : ℕ) (c : Call T) : (st.setCall call c).calls call = c :=
  Function.update_self ..

variable {retriers : ℕ → Config} {n : ℕ} {st : State T} {label : Label T} {st' : State T}
  {labels : List (Label T)}

theorem setCall_of_ne {call other : ℕ} (hne : other ≠ call) {c : Call T} :
    (st.setCall call c).calls other = st.calls other :=
  Function.update_of_ne hne ..

/-- A property of the calls survives a step that changes one of them. -/
theorem setCall_forall {P : ℕ → Call T → Prop} (call : ℕ) {c : Call T} (hcall : P call c)
    (h : ∀ other, P other (st.calls other)) (other : ℕ) :
    P other ((st.setCall call c).calls other) := by
  by_cases hother : other = call
  · rwa [hother, setCall_self]
  · rw [setCall_of_ne hother]
    exact h other

/-- What the budget, the calls and the record of runs have to do with each other. -/
structure Ledger (n : ℕ) (st : State T) : Prop where
  spent : st.remaining + st.ran.length = n
  loaded : ∀ call current, st.calls call = .loaded current → 0 < current
  started : ∀ call, (st.calls call).InFlight → call ∈ st.ran

theorem ledger_new (n : ℕ) : Ledger n (NewBudget n : State T) where
  spent := Nat.add_zero n
  loaded := by
    intro call current hcall
    cases hcall
  started := by
    intro call hflight
    cases hflight

variable [Inhabited T]

theorem step_effect (h : step retriers st label = some st') : Effect st st' label := by
  cases label with
  | begin call =>
    rw [step] at h
    split at h <;> cases h
    next hcall =>
    refine .moves _ call .consuming rfl ?_ nofun ?_
    · rw [hcall]; exact id
    · rintro (h | h) <;> cases h
  | load call =>
    rw [step] at h
    split at h <;> try cases h
    next hcall =>
    split at h <;> cases h
    · next hspent => exact .refuses call hcall (Nat.le_zero.mp hspent) rfl
    · next hleft =>
      refine .moves _ call (.loaded st.remaining) rfl ?_ ?_ ?_
      · rw [hcall]; exact id
      · rintro _ ⟨⟩
        exact Nat.lt_of_not_le hleft
      · rintro (h | h) <;> cases h
  | swap call =>
    rw [step] at h
    split at h <;> try cases h
    next current hcall =>
    split at h <;> cases h
    · next hcurrent =>
      rw [← hcurrent] at hcall ⊢
      exact .takes call hcall rfl
    · refine .moves _ call .consuming rfl ?_ nofun ?_
      · rw [hcall]; exact id
      · rintro (h | h) <;> cases h
  | operationReturns call value err =>
    rw [step] at h
    split at h <;> cases h
    next hcall =>
    refine .moves _ call _ rfl ?_ ?_ fun _ => ?_
    · rw [hcall]; exact id
    · intro current hreport
      have hcases := report_cases (retriers call) value err
      rw [hreport] at hcases
      rcases hcases with h | h <;> cases h
    · rw [hcall]; exact trivial
  | retry call =>
    rw [step] at h
    split at h <;> cases h
    next hcall =>
    refine .moves _ call .consuming rfl ?_ nofun ?_
    · rw [hcall]; exact id
    · rintro (h | h) <;> cases h
  | giveUp call contextEnded =>
    rw [step] at h
    split at h <;> cases h
    next hcall =>
    refine .moves _ call _ rfl ?_ nofun fun _ => ?_
    · rw [hcall]; exact id
    · rw [hcall]; exact trivial

theorem ledger_step (h : Ledger n st) (hstep : step retriers st label = some st') :
    Ledger n st' := by
  cases step_effect hstep with
  | refuses call hcall hspent hst' =>
    subst hst'
    refine ⟨h.spent, ?_, ?_⟩
    · exact setCall_forall (P := fun _ c => ∀ current, c = .loaded current → 0 < current) call
        nofun h.loaded
    · exact setCall_forall (P := fun other c => c.InFlight → other ∈ st.ran) call nofun h.started
  | takes call hcall hst' =>
    have hpositive := h.loaded call _ hcall
    have hspent := h.spent
    subst hst'
    refine ⟨?_, ?_, ?_⟩
    · show st.remaining - 1 + (call :: st.ran).length = n
      rw [List.length_cons]
      omega
    · exact setCall_forall (P := fun _ c => ∀ current, c = .loaded current → 0 < current) call
        nofun h.loaded
    · exact setCall_forall (P := fun other c => c.InFlight → other ∈ call :: st.ran) call
        (fun _ => List.mem_cons_self)
        (fun other hflight => List.mem_cons_of_mem _ (h.started other hflight))
  | moves label call c hst' _ hloaded hflight =>
    subst hst'
    refine ⟨h.spent, ?_, ?_⟩
    · exact setCall_forall (P := fun _ c => ∀ current, c = .loaded current → 0 < current) call
        hloaded h.loaded
    · exact setCall_forall (P := fun other c => c.InFlight → other ∈ st.ran) call
        (fun hc => h.started call (hflight (.inl hc))) h.started

theorem ledger_run (h : run (step retriers) (NewBudget n) labels = some st) : Ledger n st :=
  run_invariant (Ledger n) (fun _ _ _ => ledger_step) (ledger_new n) h

/-- A call that has returned without an attempt stays so. -/
theorem unattempted_step {call : ℕ} (h : (st.calls call).Returned ∧ call ∉ st.ran)
    (hstep : step retriers st label = some st') : (st'.calls call).Returned ∧ call ∉ st'.ran := by
  obtain ⟨hreturned, hran⟩ := h
  cases step_effect hstep with
  | refuses other hother _ hst' =>
    have hne : call ≠ other := by
      rintro rfl
      rw [hother] at hreturned
      exact hreturned
    subst hst'
    exact ⟨by rwa [setCall_of_ne hne], hran⟩
  | takes other hother hst' =>
    have hne : call ≠ other := by
      rintro rfl
      rw [hother] at hreturned
      exact hreturned
    subst hst'
    refine ⟨?_, fun hmem => (List.mem_cons.mp hmem).elim hne hran⟩
    show ((st.setCall other .running).calls call).Returned
    rwa [setCall_of_ne hne]
  | moves _ other c hst' hopen _ _ =>
    have hne : call ≠ other := by
      rintro rfl
      exact hopen hreturned
    subst hst'
    exact ⟨by rwa [setCall_of_ne hne], hran⟩

/-- At some load for its first attempt the call found that `n` attempts had been made. -/
def Refused (retriers : ℕ → Config) (n call : ℕ) (labels : List (Label T)) : Prop :=
  ∃ before after middle, labels = before ++ .load call :: after ∧
    run (step retriers) (NewBudget n) before = some middle ∧ call ∉ middle.ran ∧
      n ≤ middle.ran.length

theorem Refused.append {call : ℕ} (h : Refused retriers n call labels) (more : List (Label T)) :
    Refused retriers n call (labels ++ more) := by
  obtain ⟨before, after, middle, rfl, hmiddle⟩ := h
  exact ⟨before, after ++ more, middle, by simp, hmiddle⟩

/-- A call without an attempt has returned only if it was refused. -/
theorem refused_of_returned (h : run (step retriers) (NewBudget n) labels = some st) (call : ℕ)
    (hreturned : (st.calls call).Returned) (hran : call ∉ st.ran) :
    Refused retriers n call labels := by
  refine run_history (fun labels st => (st.calls call).Returned → call ∉ st.ran →
    Refused retriers n call labels) nofun ?_ h hreturned hran
  intro before st label st' hrun hbefore hstep hreturned hran
  have hledger := ledger_run hrun
  cases step_effect hstep with
  | refuses other hother hspent hst' =>
    subst hst'
    by_cases hne : call = other
    · subst hne
      have hall := hledger.spent
      exact ⟨before, [], st, rfl, hrun, hran, by omega⟩
    · rw [setCall_of_ne hne] at hreturned
      exact (hbefore hreturned hran).append _
  | takes other _ hst' =>
    subst hst'
    obtain ⟨hne, hran⟩ := not_or.mp (mt List.mem_cons.mpr hran)
    have hreturned : ((st.setCall other .running).calls call).Returned := hreturned
    rw [setCall_of_ne hne] at hreturned
    exact (hbefore hreturned hran).append _
  | moves _ other c hst' hopen _ hflight =>
    subst hst'
    by_cases hne : call = other
    · subst hne
      rw [setCall_self] at hreturned
      exact absurd (hledger.started call (hflight (.inr hreturned))) hran
    · rw [setCall_of_ne hne] at hreturned
      exact (hbefore hreturned hran).append _

/-- A refused call never runs its operation. -/
theorem not_ran_of_refused (h : run (step retriers) (NewBudget n) labels = some st) {call : ℕ}
    (hrefused : Refused retriers n call labels) : call ∉ st.ran := by
  obtain ⟨before, after, middle, rfl, hbefore, hran, hall⟩ := hrefused
  obtain ⟨middle', hmiddle', hafter⟩ := run_split h
  obtain rfl : middle = middle' := Option.some.inj (hbefore.symm.trans hmiddle')
  obtain ⟨next, hload, hafter⟩ := run_cons hafter
  have hspent := (ledger_run hbefore).spent
  have hnext : (next.calls call).Returned ∧ call ∉ next.ran := by
    rw [step] at hload
    split at hload <;> try cases hload
    rw [if_pos (by omega)] at hload
    obtain rfl := Option.some.inj hload
    rw [setCall_self]
    exact ⟨trivial, hran⟩
  exact (run_invariant (fun st => (st.calls call).Returned ∧ call ∉ st.ran)
    (fun _ _ _ => unattempted_step) hnext hafter).2

/-- At most `n` attempts are made in all, first attempts included, so at most `n` are
re-attempts. A call that has returned ran its operation at least once if and only if, each
time it asked for its first attempt, fewer than `n` attempts had been made. -/
theorem returned_ran_iff (retriers : ℕ → Config) (n : ℕ) (labels : List (Label T))
    (st : State T) (h : run (step retriers) (NewBudget n) labels = some st) :
    st.ran.length ≤ n ∧ st.reattempts ≤ n ∧
      ∀ call value err, st.calls call = .returned value err →
        (call ∈ st.ran ↔ ∀ before after middle, labels = before ++ .load call :: after →
          run (step retriers) (NewBudget n) before = some middle → call ∉ middle.ran →
            middle.ran.length < n) := by
  have hspent := (ledger_run h).spent
  refine ⟨by omega, ?_, ?_⟩
  · rw [State.reattempts]
    omega
  · intro call value err hcall
    constructor
    · intro hran before after middle hlabels hbefore hfirst
      refine Nat.lt_of_not_le fun hall => ?_
      exact not_ran_of_refused h ⟨before, after, middle, hlabels, hbefore, hfirst, hall⟩ hran
    · intro hnever
      by_contra hran
      have hreturned : (st.calls call).Returned := by rw [hcall]; exact trivial
      obtain ⟨before, after, middle, hlabels, hbefore, hfirst, hall⟩ :=
        refused_of_returned h call hreturned hran
      exact Nat.not_lt.mpr hall (hnever before after middle hlabels hbefore hfirst)

/-- Call 0 loses a swap to call 1 and fails once; call 2 comes when the budget is spent. -/
def threeCalls : List (Label Unit) :=
  [.begin 0, .load 0, .begin 1, .load 1, .swap 1, .swap 0, .load 0, .swap 0,
    .operationReturns 0 () (some ⟨.unavailable, false⟩), .operationReturns 1 () none, .retry 0,
    .load 0, .swap 0, .operationReturns 0 () none, .begin 2, .load 2]

theorem threeCalls_ran : ∃ st : State Unit,
    run (step fun _ => ⟨none⟩) (NewBudget 3) threeCalls = some st ∧ st.ran = [0, 0, 1] ∧
      st.reattempts ≤ 3 ∧ ¬ Refused (fun _ => ⟨none⟩) 3 1 threeCalls ∧
      Refused (fun _ => ⟨none⟩) 3 2 threeCalls := by
  obtain ⟨-, hreattempts, hcalls⟩ := returned_ran_iff (fun _ => ⟨none⟩) 3 threeCalls _ rfl
  refine ⟨_, rfl, rfl, hreattempts, ?_, ?_⟩
  · rintro ⟨before, after, middle, hlabels, hbefore, hfirst, hall⟩
    have hfewer := (hcalls 1 () none rfl).mp (by decide) before after middle hlabels hbefore hfirst
    exact Nat.not_lt.mpr hall hfewer
  · by_contra hnever
    refine absurd ((hcalls 2 () (some .ErrRetryBudgetExhausted) rfl).mpr ?_) (by decide)
    intro before after middle hlabels hbefore hfirst
    refine Nat.lt_of_not_le fun hall => hnever ?_
    exact ⟨before, after, middle, hlabels, hbefore, hfirst, hall⟩

/-- Two calls over a budget of one retry: the first succeeds at once, and the second returns
without having run its operation, though nothing was retried. -/
theorem second_call_never_runs :
    (run (step fun _ => ⟨none⟩) (NewBudget 1 : State Unit)
      [.begin 0, .load 0, .swap 0, .operationReturns 0 () none, .begin 1, .load 1]).map
      (fun st => (st.calls 0, st.calls 1, st.ran, st.reattempts)) =
      some (.returned () none, .returned () (some .ErrRetryBudgetExhausted), [0], 0) := by
  decide

end KnowledgeEngine.RetryBudget
