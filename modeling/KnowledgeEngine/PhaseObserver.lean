import KnowledgeEngine.Gates
import Mathlib.Algebra.Order.BigOperators.Group.List

/-!
What the observer of a phase sees. The units of a job are delivered from inside its fan-out;
a warn-only job rewrites its failures afterwards, so the steps delivered and the results of
the phase are the same, durations apart, unless a warn-only job that is reached has a unit
that fails.
-/

namespace KnowledgeEngine.PhaseObserver

open Transitions FanOut Jobs Gates List

variable {host : Host}

def timeless (r : StepResult) : StepResult := { r with Duration := 0 }

def failures (rs : List StepResult) : ℕ := rs.countP fun r => r.Status = .fail

/-- The job returns other results than its fan-out delivered. -/
def Rewrites (j : AnyJob host) : Prop := j.warnOnly = true ∧ j.UnitFails

/-- What the job makes of the results of its fan-out. -/
def returned (j : AnyJob host) (rs : List StepResult) : List StepResult :=
  (if j.warnOnly then rs.map downgrade else rs).map (stampElapsed j.elapsed)

theorem timeless_stampElapsed {elapsed : ℤ} {r : StepResult} :
    timeless (stampElapsed elapsed r) = timeless r := by
  rw [stampElapsed]
  split <;> rfl

theorem failures_timeless (rs : List StepResult) : failures (rs.map timeless) = failures rs := by
  rw [failures, countP_map]
  rfl

variable {rs : List StepResult} {j : AnyJob host}

theorem failures_perm {rs' : List StepResult} (h : (rs.map timeless).Perm (rs'.map timeless)) :
    failures rs = failures rs' := by
  rw [← failures_timeless rs, ← failures_timeless rs']
  exact h.countP_eq _

theorem failures_eq_zero : failures rs = 0 ↔ HasFailures rs = false := by
  simp [failures, HasFailures, countP_eq_zero]

theorem map_downgrade (h : HasFailures rs = false) : rs.map downgrade = rs := by
  refine (map_congr_left fun r hr => ?_).trans (map_id rs)
  have hpassed : r.Status ≠ .fail := by
    intro hfail
    rw [hasFailures_iff.mpr ⟨r, hr, hfail⟩] at h
    cases h
  rw [downgrade, if_neg hpassed]
  rfl

/-- A job that fans out, or one that delivers nothing live. -/
theorem execute_cases :
    (j.Execute.live = [] ∧ ¬ j.UnitFails) ∨
      ∃ item items fanOut, j.missingTool = none ∧ j.discovery = .found item items fanOut ∧
        j.Execute.live = fanOut.final.completions.map Prod.snd ∧
        j.stepResults = returned j fanOut.final.results := by
  rw [AnyJob.stepResults, AnyJob.Execute]
  cases htool : j.missingTool with
  | some err => exact .inl ⟨rfl, by simp [AnyJob.UnitFails, htool]⟩
  | none =>
    cases hdisc : j.discovery with
    | failed err => exact .inl ⟨rfl, by simp [AnyJob.UnitFails, hdisc]⟩
    | nothing => exact .inl ⟨rfl, by simp [AnyJob.UnitFails, hdisc]⟩
    | found item items fanOut => exact .inr ⟨item, items, fanOut, rfl, rfl, rfl, rfl⟩

/-- The observer of a fan-out sees its results. -/
theorem live_perm {α ω : Type} {c : Call α ω} (fanOut : Finished c) (h : c.emitter = true) :
    (fanOut.final.completions.map Prod.snd).Perm fanOut.final.results :=
  FanOutAccounts.received_returned (FanOutRuns.inv_run fanOut.reaches) fanOut.returned h

theorem delivered_fanOut {item : j.Item} {items : List j.Item}
    {fanOut : Finished (j.job.call host (item :: items))}
    (hlive : j.Execute.live = fanOut.final.completions.map Prod.snd)
    (hresults : j.stepResults = returned j fanOut.final.results) :
    j.delivered.Perm fanOut.final.results := by
  have hperm := live_perm fanOut rfl
  have hlen : j.stepResults.length = j.Execute.live.length := by
    rw [hresults, hlive, hperm.length_eq, returned, length_map]
    split
    · exact length_map _
    · rfl
  rw [AnyJob.delivered, drop_eq_nil_of_le hlen.le, append_nil, hlive]
  exact hperm

theorem delivered_perm (h : ¬ Rewrites j) :
    (j.delivered.map timeless).Perm (j.stepResults.map timeless) := by
  rcases execute_cases with ⟨hlive, -⟩ | ⟨item, items, fanOut, htool, hdisc, hlive, hresults⟩
  · rw [AnyJob.delivered, hlive]
    exact .refl _
  · refine ((delivered_fanOut hlive hresults).map timeless).trans (List.Perm.of_eq ?_)
    have hsame : (if j.warnOnly then fanOut.final.results.map downgrade
        else fanOut.final.results) = fanOut.final.results := by
      split
      · next hwarn =>
        refine map_downgrade (Bool.eq_false_iff.mpr fun hfailed => h ⟨hwarn, htool, ?_⟩)
        exact ⟨item, items, fanOut, hdisc, fanOut.hasFailures.mp hfailed⟩
      · rfl
    rw [hresults, returned, hsame, map_map]
    exact map_congr_left fun r _ => timeless_stampElapsed.symm

/-- A job that rewrites its results delivered a failure that it does not return. -/
theorem failures_lt (h : Rewrites j) : failures j.stepResults < failures j.delivered := by
  obtain ⟨hwarn, hunit⟩ := h
  rcases execute_cases with ⟨-, hnone⟩ | ⟨item, items, fanOut, htool, hdisc, hlive, hresults⟩
  · exact absurd hunit hnone
  · have hreturned : failures j.stepResults = 0 := by
      rw [failures_eq_zero, hresults, returned, hasFailures_map (stampElapsed_status j.elapsed),
        if_pos hwarn]
      exact hasFailures_downgrade _
    have hdelivered : failures j.delivered = failures fanOut.final.results :=
      (delivered_fanOut hlive hresults).countP_eq _
    have hfailed : HasFailures fanOut.final.results = true := by
      obtain ⟨-, item', items', fanOut', heq, hl⟩ := hunit
      rw [hdisc] at heq
      cases heq
      exact fanOut.hasFailures.mpr hl
    rw [hreturned, hdelivered, Nat.pos_iff_ne_zero, Ne, failures_eq_zero, hfailed]
    exact Bool.noConfusion

theorem failures_le (j : AnyJob host) : failures j.stepResults ≤ failures j.delivered := by
  by_cases h : Rewrites j
  · exact (failures_lt h).le
  · exact (failures_perm (delivered_perm h)).ge

/-- The steps delivered during a phase and its results agree, durations apart, just when no
warn-only job that is reached has a unit that fails. -/
theorem observer_sees_phase_iff (phase : Phase host) (schedules : List (List ℕ))
    (r : PhaseRun host) (h : runPhase phase schedules = some r) :
    (r.seen.map timeless).Perm (r.results.map timeless) ↔
      Phase.EachReached phase fun j => ¬ (j.warnOnly = true ∧ j.UnitFails) := by
  obtain ⟨hresults, hseen⟩ := runPhase_perm h
  rw [← runPhase_ran h]
  constructor
  · intro hperm j hj hrewrites
    have hcount := failures_perm hperm
    have hlt : failures r.results < failures r.seen := by
      rw [failures, failures, hresults.countP_eq, hseen.countP_eq, countP_flatMap,
        countP_flatMap]
      exact sum_lt_sum _ _ (fun j _ => failures_le j) ⟨j, hj, failures_lt hrewrites⟩
    omega
  · intro hkeeps
    refine (hseen.map timeless).trans (.trans ?_ (hresults.map timeless).symm)
    rw [map_flatMap, map_flatMap]
    exact List.Perm.flatMap_left _ fun j hj => delivered_perm (hkeeps j hj)

section Samples

/-- Two jobs side by side: a unit of the first one fails, the discovery of the second one. -/
def scanPhase (warnOnly : Bool) : Phase sampleHost where
  Name := "scans"
  Jobs := [scan warnOnly, brokenScan true]
  parallel := true

theorem failed_scan_seen : ∃ r, runPhase (scanPhase false) [[0, 1, 0, 1, 0]] = some r ∧
    (r.seen.map timeless).Perm (r.results.map timeless) := by
  refine ⟨_, rfl, (observer_sees_phase_iff (scanPhase false) [[0, 1, 0, 1, 0]] _ rfl).mpr ?_⟩
  rintro before j after heq - ⟨hwarn, -, item, items, fanOut, hdisc, -⟩
  have hj : j ∈ (scanPhase false).Jobs := heq ▸ mem_append_right _ mem_cons_self
  rcases mem_cons.mp hj with rfl | hj
  · cases hwarn
  · obtain rfl := mem_singleton.mp hj
    cases hdisc

/-- A warn-only job with a unit that fails: the observer is told of a failure, the phase
returns a warning. -/
theorem warning_seen_as_failure : ∃ r, runPhase (scanPhase true) [[0, 1, 0, 1, 0]] = some r ∧
    ¬ (r.seen.map timeless).Perm (r.results.map timeless) := by
  refine ⟨_, rfl, fun hperm => ?_⟩
  exact absurd (hperm.countP_eq fun r => r.Status = .fail) (by decide)

end Samples

end KnowledgeEngine.PhaseObserver
