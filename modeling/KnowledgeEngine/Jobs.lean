import KnowledgeEngine.FanOutAccounts
import KnowledgeEngine.Schedules

/-!
Jobs and job groups (execution/job/job.go and execution/engine/run.go). A job checks its tool,
discovers its items, fans their commands out and, if it is warn-only, downgrades the failures;
a group runs its jobs side by side, one goroutine each. What the world does to a job comes
with the job: the answers of the tool check and of the discovery, and a whole run of its
fan-out. The goroutines of a group share the collected results and the observer, each under a
lock, so they are lists of critical sections that a schedule interleaves.
-/

namespace KnowledgeEngine.Jobs

open CoreTypes Transitions FanOut Schedules
open AdaptiveBulkhead (ContextError)

structure WorkUnit where
  Name : String
  Dir : String
  Exe : String
  Args : List String

/-- The delay is in nanoseconds. -/
structure JobConfig where
  Concurrency : ℤ := 0
  Retry : ℤ := 0
  RetryDelay : ℤ := 0
  WarnOnly : Bool := false

structure ToolSpec where
  binary : String
  installHint : String

/-- The discoverer is the world's part of the job. -/
structure Job (α : Type) where
  name : String
  group : String
  tool : Option ToolSpec
  mapper : String → α → WorkUnit
  config : JobConfig

/-- A call of `runner.Run`. -/
inductive Ran
  | returned (err : Option ErrorValue)
  | panicked

/-- The attempts at one command: how each call of `runner.Run` ends, and the error of the
context where it ends the wait before an attempt. -/
structure Commands where
  run : ℕ → Ran
  wait : ℕ → Option ContextError

def contextCode : ContextError → ErrorCode
  | .canceled => .canceled
  | .deadlineExceeded => .timeout

def waitCanceled (err : ContextError) : ErrorValue :=
  (contextErr err).wrap (contextCode err) "retry wait canceled"

/-- The loop of retryDo from an attempt on; none where the command panics. -/
def retryFrom (cmds : Commands) (maxRetries : ℕ) (delay : ℤ) :
    ℕ → ℕ → Option (Option ErrorValue)
  | left, attempt =>
    match if attempt > 0 ∧ delay > 0 then cmds.wait attempt else none with
    | some err => some (some (waitCanceled err))
    | none =>
      match cmds.run attempt, left with
      | .panicked, _ => none
      | .returned none, _ => some none
      | .returned (some _), left + 1 => retryFrom cmds maxRetries delay left (attempt + 1)
      | .returned (some last), 0 =>
        some (some (last.wrap .internal s!"failed after {maxRetries + 1} attempt(s)"))

def retryDo (cmds : Commands) (maxRetries : ℕ) (delay : ℤ) : Option (Option ErrorValue) :=
  retryFrom cmds maxRetries delay maxRetries 0

def runOnce (cmds : Commands) : Option (Option ErrorValue) :=
  match cmds.run 0 with
  | .returned err => some err
  | .panicked => none

/-- The function Execute hands to FanOut. -/
def runUnit (cfg : JobConfig) (wu : WorkUnit) (cmds : Commands) : Option StepResult :=
  let ran := if cfg.Retry > 0 then retryDo cmds cfg.Retry.toNat cfg.RetryDelay else runOnce cmds
  ran.map fun runErr =>
    match runErr with
    | none => { Name := wu.Name, Status := .pass }
    | some err => { Name := wu.Name, Status := .fail, Error := err.text }

structure Host where
  root : String
  numCPU : ℕ
  numCPU_pos : 0 < numCPU

def Job.call {α : Type} (j : Job α) (host : Host) (items : List α) : Call WorkUnit Commands where
  items := items.map (j.mapper host.root)
  numWorkers := j.config.Concurrency
  fn := runUnit j.config
  emitter := true
  numCPU := host.numCPU
  numCPU_pos := host.numCPU_pos

/-- A fan-out that has returned. -/
structure Finished {α ω : Type} (c : Call α ω) where
  labels : List (Label ω)
  final : State α
  reaches : run (step c) c.initial labels = some final
  returned : final.returned = true

/-- The answer of the discoverer, with the run of the fan-out where it found something. -/
inductive Discovery {α : Type} (j : Job α) (host : Host)
  | failed (err : ErrorValue)
  | nothing
  | found (item : α) (items : List α) (fanOut : Finished (j.call host (item :: items)))

/-- A Job[T] with what the world does when it is executed; `elapsed` is the time Execute
takes. -/
structure AnyJob (host : Host) : Type 1 where
  Item : Type
  job : Job Item
  requireTool : Option ErrorValue
  discovery : Discovery job host
  elapsed : ℤ

/-- What the emitter received from the fan-out, and what Execute returns. -/
structure Executed where
  live : List StepResult
  outcome : Except ErrorValue (List StepResult)

variable {host : Host}

def AnyJob.warnOnly (j : AnyJob host) : Bool := j.job.config.WarnOnly

/-- The error of the tool check; there is none without a tool. -/
def AnyJob.missingTool (j : AnyJob host) : Option ErrorValue :=
  match j.job.tool with
  | some tool => if tool.binary = "" then none else j.requireTool
  | none => none

def downgrade (r : StepResult) : StepResult :=
  if r.Status = .fail then { r with Status := .warn } else r

def AnyJob.Execute (j : AnyJob host) : Executed :=
  match j.missingTool with
  | some err => ⟨[], .ok [{ Name := j.job.name, Status := .skip, Error := err.text }]⟩
  | none =>
    match j.discovery with
    | .failed err => ⟨[], .error err⟩
    | .nothing => ⟨[], .ok [{ Name := j.job.name, Status := .skip }]⟩
    | .found _ _ fanOut =>
      ⟨fanOut.final.completions.map Prod.snd, .ok <|
        if j.warnOnly then fanOut.final.results.map downgrade else fanOut.final.results⟩

def stampElapsed (elapsed : ℤ) (r : StepResult) : StepResult :=
  if r.Duration = 0 then { r with Duration := elapsed } else r

/-- The step results a job contributes to its group. -/
def AnyJob.stepResults (j : AnyJob host) : List StepResult :=
  let sr := match j.Execute.outcome with
    | .ok sr => sr
    | .error err => [{ Name := j.job.name, Status := .fail, Error := err.text }]
  sr.map (stampElapsed j.elapsed)

/-- A critical section: steps delivered to the observer, or results appended to `all`. -/
inductive Action
  | deliver (rs : List StepResult)
  | append (rs : List StepResult)

def Action.delivered : Action → List StepResult
  | deliver rs => rs
  | append _ => []

def Action.appended : Action → List StepResult
  | deliver _ => []
  | append rs => rs

/-- The goroutine of a job: the live deliveries of its fan-out, its results, and the steps
that were not delivered live. -/
def AnyJob.actions (j : AnyJob host) : List Action :=
  let live := j.Execute.live
  let sr := j.stepResults
  live.map (fun r => .deliver [r]) ++ .append sr ::
    if live.length < sr.length then [.deliver (sr.drop live.length)] else []

/-- The results of a group, and the steps its observer saw. -/
structure Group where
  all : List StepResult
  seen : List StepResult

def RunJobGroup (jobs : List (AnyJob host)) (schedule : List ℕ) : Option Group :=
  (interleave (jobs.map AnyJob.actions) schedule).map fun actions =>
    ⟨actions.flatMap Action.appended, actions.flatMap Action.delivered⟩

section Failures

/-- The discovery of the job fails. -/
def AnyJob.Broken (j : AnyJob host) : Prop :=
  j.missingTool = none ∧ ∃ err, j.discovery = .failed err

/-- A unit of the job fails: its command fails or panics, or the context ends before it is
started. -/
def AnyJob.UnitFails (j : AnyJob host) : Prop :=
  j.missingTool = none ∧ ∃ item items fanOut, j.discovery = .found item items fanOut ∧
    ∃ l ∈ fanOut.labels, FanOutAccounts.Fails (j.job.call host (item :: items)) l

def AnyJob.Fails (j : AnyJob host) : Prop := j.Broken ∨ (j.warnOnly = false ∧ j.UnitFails)

theorem hasFailures_map {f : StepResult → StepResult} (hf : ∀ r, (f r).Status = r.Status)
    (rs : List StepResult) : HasFailures (rs.map f) = HasFailures rs := by
  simp [HasFailures, hf, Function.comp_def]

theorem stampElapsed_status (elapsed : ℤ) (r : StepResult) :
    (stampElapsed elapsed r).Status = r.Status := by
  rw [stampElapsed]
  split <;> rfl

theorem downgrade_status (r : StepResult) : (downgrade r).Status ≠ .fail := by
  rw [downgrade]
  split
  · simp
  · assumption

theorem hasFailures_downgrade (rs : List StepResult) :
    HasFailures (rs.map downgrade) = false := by
  simp [HasFailures, downgrade_status]

theorem Finished.hasFailures {α ω : Type} {c : Call α ω} (fanOut : Finished c) :
    HasFailures fanOut.final.results = true ↔ ∃ l ∈ fanOut.labels, FanOutAccounts.Fails c l :=
  FanOutAccounts.hasFailures_results (FanOutRuns.inv_run fanOut.reaches) fanOut.returned

/-- A job contributes a failure where its discovery fails, or a unit of it if it is not
warn-only. -/
theorem AnyJob.hasFailures_iff (j : AnyJob host) :
    HasFailures j.stepResults = true ↔ j.Fails := by
  rw [AnyJob.stepResults, hasFailures_map (stampElapsed_status j.elapsed), AnyJob.Execute]
  cases htool : j.missingTool with
  | some err => simp [HasFailures, AnyJob.Fails, AnyJob.Broken, AnyJob.UnitFails, htool]
  | none =>
    cases hdisc : j.discovery with
    | failed err =>
      simp [HasFailures, AnyJob.Fails, AnyJob.Broken, htool, hdisc]
    | nothing => simp [HasFailures, AnyJob.Fails, AnyJob.Broken, AnyJob.UnitFails, hdisc]
    | found item items fanOut =>
      have hfanOut := fanOut.hasFailures
      cases hwarn : j.warnOnly with
      | true => simp [hasFailures_downgrade, AnyJob.Fails, AnyJob.Broken, hdisc, hwarn]
      | false =>
        have hunit : j.UnitFails ↔
            ∃ l ∈ fanOut.labels, FanOutAccounts.Fails (j.job.call host (item :: items)) l := by
          constructor
          · rintro ⟨-, item', items', fanOut', heq, hl⟩
            rw [hdisc] at heq
            cases heq
            exact hl
          · intro hl
            exact ⟨htool, item, items, fanOut, hdisc, hl⟩
        simp only [AnyJob.Fails, AnyJob.Broken, hwarn, hunit, ← hfanOut, hdisc]
        simp

end Failures

section Groups

/-- The steps of a job that its observer sees. -/
def AnyJob.delivered (j : AnyJob host) : List StepResult :=
  j.Execute.live ++ j.stepResults.drop j.Execute.live.length

theorem actions_delivered (j : AnyJob host) :
    j.actions.flatMap Action.delivered = j.delivered := by
  rw [AnyJob.actions, AnyJob.delivered]
  split
  · simp [Action.delivered, List.flatMap_map]
  · next hlen =>
    rw [List.drop_eq_nil_of_le (not_lt.mp hlen)]
    simp [Action.delivered, List.flatMap_map]

theorem actions_appended (j : AnyJob host) :
    j.actions.flatMap Action.appended = j.stepResults := by
  rw [AnyJob.actions]
  split <;> simp [Action.appended, List.flatMap_map]

/-- The schedule of a group decides the order only. -/
theorem runJobGroup_perm {jobs : List (AnyJob host)} {schedule : List ℕ} {g : Group}
    (h : RunJobGroup jobs schedule = some g) :
    g.all.Perm (jobs.flatMap AnyJob.stepResults) ∧ g.seen.Perm (jobs.flatMap AnyJob.delivered) := by
  obtain ⟨actions, hactions, rfl⟩ := Option.map_eq_some_iff.mp h
  have hperm := interleave_perm hactions
  rw [← List.flatMap_def] at hperm
  constructor
  · refine (hperm.flatMap_right _).trans (List.Perm.of_eq ?_)
    simp [List.flatMap_assoc, actions_appended]
  · refine (hperm.flatMap_right _).trans (List.Perm.of_eq ?_)
    simp [List.flatMap_assoc, actions_delivered]

theorem exists_runJobGroup (jobs : List (AnyJob host)) :
    ∃ schedule g, RunJobGroup jobs schedule = some g := by
  obtain ⟨schedule, actions, h⟩ := exists_schedule
  exact ⟨schedule, _, Option.map_eq_some_iff.mpr ⟨actions, h, rfl⟩⟩

theorem hasFailures_perm {rs rs' : List StepResult} (h : rs.Perm rs') :
    HasFailures rs = HasFailures rs' :=
  h.any_eq

theorem runJobGroup_hasFailures {jobs : List (AnyJob host)} {schedule : List ℕ} {g : Group}
    (h : RunJobGroup jobs schedule = some g) :
    HasFailures g.all = true ↔ ∃ j ∈ jobs, j.Fails := by
  rw [hasFailures_perm (runJobGroup_perm h).1]
  simp only [← AnyJob.hasFailures_iff, HasFailures, List.any_flatMap, List.any_eq_true]

end Groups

section Samples

theorem four_cpus : 0 < 4 := by decide

def sampleHost : Host := ⟨"/repo", 4, four_cpus⟩

def scanJob (warnOnly : Bool) : Job String where
  name := "scan"
  group := "quality"
  tool := none
  mapper := fun root item => ⟨item, root, "scan", []⟩
  config := { WarnOnly := warnOnly }

def command (err : Option ErrorValue) : Mapped Commands where
  world := ⟨fun _ => .returned err, fun _ => none⟩
  stack := []
  elapsed := 5

/-- The first unit fails while the second one is running. -/
def scanLabels : List (Label Commands) :=
  [.acquire, .start 0, .acquire, .start 1, .finish 0 (command (some (.new .internal "exit 1"))),
    .deliver 0, .finish 1 (command none), .release 0, .deliver 1, .release 1, .wait]

def scanFanOut (warnOnly : Bool) :
    Finished ((scanJob warnOnly).call sampleHost ["api", "web"]) where
  labels := scanLabels
  final := (run (step _) (Call.initial _) scanLabels).get rfl
  reaches := (Option.some_get _).symm
  returned := rfl

def scanWith (warnOnly : Bool) (discovery : Discovery (scanJob warnOnly) sampleHost) :
    AnyJob sampleHost where
  Item := String
  job := scanJob warnOnly
  requireTool := none
  discovery := discovery
  elapsed := 9

/-- A job of two units, one of which fails. -/
def scan (warnOnly : Bool) : AnyJob sampleHost :=
  scanWith warnOnly (.found "api" ["web"] (scanFanOut warnOnly))

def unreadable : ErrorValue := .new .internal "cannot read the tree"

/-- A job whose discovery fails. -/
def brokenScan (warnOnly : Bool) : AnyJob sampleHost := scanWith warnOnly (.failed unreadable)

end Samples

end KnowledgeEngine.Jobs
