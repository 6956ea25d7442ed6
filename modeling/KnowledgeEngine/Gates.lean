import KnowledgeEngine.Jobs

/-!
Gates (execution/gate/gate.go): phases in order, each a group of jobs that run side by side or
one after the other. A serial phase ends at the first job that fails, a gate that stops on
failure at the first phase that does. The schedules of the groups are inputs, one for each
call of RunJobGroup. Which jobs are reached depends on which jobs fail, and that is a property
of each job by itself.
-/

namespace KnowledgeEngine.Gates

open CoreTypes FanOut Jobs

variable {host : Host}

structure Phase (host : Host) : Type 1 where
  Name : String
  Jobs : List (AnyJob host)
  parallel : Bool

structure Gate (host : Host) : Type 1 where
  name : String
  phases : List (Phase host)
  stopOnFailure : Bool

/-- The results of a phase, the steps its observer saw, and the jobs that were executed. -/
structure PhaseRun (host : Host) : Type 1 where
  results : List StepResult
  seen : List StepResult
  ran : List (AnyJob host)

structure GateRun (host : Host) : Type 1 where
  phases : List (PhaseRun host)
  err : Option ErrorValue

/-- The loop of a serial phase. -/
def runSerial : List (AnyJob host) → List (List ℕ) → Option (PhaseRun host)
  | [], _ => some ⟨[], [], []⟩
  | _ :: _, [] => none
  | job :: rest, schedule :: schedules =>
    (RunJobGroup [job] schedule).bind fun g =>
      if HasFailures g.all then some ⟨g.all, g.seen, [job]⟩
      else (runSerial rest schedules).map fun later =>
        ⟨g.all ++ later.results, g.seen ++ later.seen, job :: later.ran⟩

def runParallel (jobs : List (AnyJob host)) : List (List ℕ) → Option (PhaseRun host)
  | [schedule] => (RunJobGroup jobs schedule).map fun g => ⟨g.all, g.seen, jobs⟩
  | _ => none

def runPhase (phase : Phase host) (schedules : List (List ℕ)) : Option (PhaseRun host) :=
  if phase.parallel then runParallel phase.Jobs schedules else runSerial phase.Jobs schedules

/-- errors.Join of errors that are not nil: the first code found, and the texts on lines of
their own. -/
def joinErrors (errs : List ErrorValue) : ErrorValue where
  Code := ((errs.map ErrorValue.Code).find? (· ≠ .unknown)).getD .unknown
  ended := errs.any ErrorValue.ended
  text := "\n".intercalate (errs.map ErrorValue.text)

def phaseFailureError (phaseName : String) (results : List StepResult) : ErrorValue :=
  let failed := results.filter fun r => r.Status = .fail ∧ r.Error ≠ ""
  let errs := failed.map fun r => ErrorValue.new .qualityFailed (r.Name ++ ": " ++ r.Error)
  if errs.isEmpty then .new .qualityFailed ("phase " ++ phaseName ++ " failed")
  else (joinErrors errs).wrap .qualityFailed ("phase " ++ phaseName ++ " failed")

/-- The loop of RunGate from a phase on, with the error gathered so far. -/
def gateLoop (stopOnFailure : Bool) :
    Option ErrorValue → List (Phase host) → List (List (List ℕ)) → Option (GateRun host)
  | gateErr, [], _ => some ⟨[], gateErr⟩
  | _, _ :: _, [] => none
  | gateErr, phase :: rest, schedules :: later =>
    (runPhase phase schedules).bind fun r =>
      if HasFailures r.results then
        let gateErr := some (joinErrors
          (gateErr.toList ++ [phaseFailureError phase.Name r.results]))
        if stopOnFailure then some ⟨[r], gateErr⟩
        else (gateLoop stopOnFailure gateErr rest later).map fun g => ⟨r :: g.phases, g.err⟩
      else (gateLoop stopOnFailure gateErr rest later).map fun g => ⟨r :: g.phases, g.err⟩

def RunGate (g : Gate host) (schedules : List (List (List ℕ))) : Option (GateRun host) :=
  (gateLoop g.stopOnFailure none g.phases schedules).map fun r =>
    { r with err := r.err.map fun err => err.wrap .qualityFailed ("gate " ++ g.name ++ " failed") }

section Reached

universe u

theorem forall_split_cons {α : Type u} {x : α} {xs : List α} {Q : List α → α → Prop} :
    (∀ before y after, x :: xs = before ++ y :: after → Q before y) ↔
      Q [] x ∧ ∀ before y after, xs = before ++ y :: after → Q (x :: before) y := by
  constructor
  · intro h
    exact ⟨h [] x xs rfl, fun before y after hxs => h (x :: before) y after (by rw [hxs]; rfl)⟩
  · rintro ⟨hhead, htail⟩ before y after heq
    cases before with
    | nil =>
      cases heq
      exact hhead
    | cons z before =>
      obtain ⟨rfl, hxs⟩ := List.cons.inj heq
      exact htail before y after hxs

/-- `P` holds of the jobs of a phase that are reached. In a serial phase a job is reached if
no job before it fails. -/
def Phase.EachReached (phase : Phase host) (P : AnyJob host → Prop) : Prop :=
  ∀ before j after, phase.Jobs = before ++ j :: after →
    (phase.parallel = false → ∀ earlier ∈ before, ¬ earlier.Fails) → P j

/-- `P` holds of the jobs of a gate that are reached. In a gate that stops on failure a phase
is reached if no job of a phase before it fails. -/
def EachReached (stopOnFailure : Bool) (phases : List (Phase host)) (P : AnyJob host → Prop) :
    Prop :=
  ∀ before phase after, phases = before ++ phase :: after →
    (stopOnFailure = true → ∀ earlier ∈ before, ∀ j ∈ earlier.Jobs, ¬ j.Fails) →
      Phase.EachReached phase P

variable {jobs : List (AnyJob host)} {phase : Phase host} {schedules : List (List ℕ)}
  {r : PhaseRun host}

theorem runSerial_ran {P : AnyJob host → Prop} (h : runSerial jobs schedules = some r) :
    (∀ j ∈ r.ran, P j) ↔ ∀ before j after, jobs = before ++ j :: after →
      (∀ earlier ∈ before, ¬ earlier.Fails) → P j := by
  induction jobs generalizing schedules r with
  | nil =>
    cases h
    simp
  | cons job rest ih =>
    cases schedules with
    | nil => cases h
    | cons schedule schedules =>
      obtain ⟨g, hg, h⟩ := Option.bind_eq_some_iff.mp h
      have hfails := runJobGroup_hasFailures hg
      rw [forall_split_cons (Q := fun before j => (∀ e ∈ before, ¬ e.Fails) → P j)]
      split at h
      · next hfailed =>
        cases h
        have hjob : job.Fails := by simpa using hfails.mp hfailed
        simp [hjob]
      · next hpassed =>
        obtain ⟨later, hlater, rfl⟩ := Option.map_eq_some_iff.mp h
        have hjob : ¬ job.Fails := by simpa using mt hfails.mpr hpassed
        simp [hjob, ih hlater]

theorem runSerial_perm (h : runSerial jobs schedules = some r) :
    r.results.Perm (r.ran.flatMap AnyJob.stepResults) ∧
      r.seen.Perm (r.ran.flatMap AnyJob.delivered) := by
  induction jobs generalizing schedules r with
  | nil =>
    cases h
    exact ⟨.refl _, .refl _⟩
  | cons job rest ih =>
    cases schedules with
    | nil => cases h
    | cons schedule schedules =>
      obtain ⟨g, hg, h⟩ := Option.bind_eq_some_iff.mp h
      obtain ⟨hall, hseen⟩ := runJobGroup_perm hg
      split at h
      · cases h
        exact ⟨hall, hseen⟩
      · obtain ⟨later, hlater, rfl⟩ := Option.map_eq_some_iff.mp h
        rw [List.flatMap_singleton] at hall hseen
        exact ⟨hall.append (ih hlater).1, hseen.append (ih hlater).2⟩

theorem runSerial_hasFailures (h : runSerial jobs schedules = some r) :
    HasFailures r.results = true ↔ ∃ j ∈ jobs, j.Fails := by
  induction jobs generalizing schedules r with
  | nil =>
    cases h
    simp [HasFailures]
  | cons job rest ih =>
    cases schedules with
    | nil => cases h
    | cons schedule schedules =>
      obtain ⟨g, hg, h⟩ := Option.bind_eq_some_iff.mp h
      have hfails := runJobGroup_hasFailures hg
      split at h
      · next hfailed =>
        cases h
        have hjob : job.Fails := by simpa using hfails.mp hfailed
        simp [hfailed, hjob]
      · next hpassed =>
        obtain ⟨later, hlater, rfl⟩ := Option.map_eq_some_iff.mp h
        have hjob : ¬ job.Fails := by simpa using mt hfails.mpr hpassed
        have hsplit : HasFailures (g.all ++ later.results) = HasFailures later.results := by
          rw [HasFailures, List.any_append]
          exact (congrArg (· || _) (Bool.not_eq_true _ ▸ hpassed)).trans (Bool.false_or _)
        simp [hsplit, ih hlater, hjob]

theorem runParallel_eq (h : runParallel jobs schedules = some r) :
    ∃ schedule g, RunJobGroup jobs schedule = some g ∧ r = ⟨g.all, g.seen, jobs⟩ := by
  match schedules, h with
  | [schedule], h =>
    obtain ⟨g, hg, rfl⟩ := Option.map_eq_some_iff.mp h
    exact ⟨schedule, g, hg, rfl⟩

theorem runPhase_ran {P : AnyJob host → Prop} (h : runPhase phase schedules = some r) :
    (∀ j ∈ r.ran, P j) ↔ Phase.EachReached phase P := by
  rw [runPhase] at h
  split at h
  · next hparallel =>
    obtain ⟨_, g, -, rfl⟩ := runParallel_eq h
    simp only [Phase.EachReached, hparallel, Bool.true_eq_false, false_imp_iff, true_imp_iff]
    constructor
    · intro hall before j after heq
      exact hall j (heq ▸ List.mem_append_right _ List.mem_cons_self)
    · intro hall j hj
      obtain ⟨before, after, heq⟩ := List.append_of_mem hj
      exact hall before j after heq
  · next hserial =>
    simp only [Phase.EachReached, Bool.not_eq_true _ ▸ hserial, true_imp_iff]
    exact runSerial_ran h

theorem runPhase_perm (h : runPhase phase schedules = some r) :
    r.results.Perm (r.ran.flatMap AnyJob.stepResults) ∧
      r.seen.Perm (r.ran.flatMap AnyJob.delivered) := by
  rw [runPhase] at h
  split at h
  · obtain ⟨_, g, hg, rfl⟩ := runParallel_eq h
    exact runJobGroup_perm hg
  · exact runSerial_perm h

theorem runPhase_hasFailures (h : runPhase phase schedules = some r) :
    HasFailures r.results = true ↔ ∃ j ∈ phase.Jobs, j.Fails := by
  rw [runPhase] at h
  split at h
  · obtain ⟨_, g, hg, rfl⟩ := runParallel_eq h
    exact runJobGroup_hasFailures hg
  · exact runSerial_hasFailures h

end Reached

end KnowledgeEngine.Gates
