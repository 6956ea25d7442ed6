import KnowledgeEngine.Gates

/-!
Warn-only jobs and the gate they are in. A warn-only job whose units fail returns warnings, so
the gate goes on as if the job were not there; one whose discovery fails contributes a failure
that the group makes up for it. The first is all there is unless a warn-only job that is
reached has a discovery that fails.
-/

namespace KnowledgeEngine.WarnOnlyGates

open CoreTypes FanOut Jobs Gates List

variable {host : Host}

def withoutWarnOnly (phase : Phase host) : Phase host :=
  { phase with Jobs := phase.Jobs.filter fun j => !j.warnOnly }

def gateWithoutWarnOnly (g : Gate host) : Gate host :=
  { g with phases := g.phases.map withoutWarnOnly }

/-- The warn-only jobs of a gate do not fail it: none contributes a failure, and without them
the gate returns an error just when it did, after the same other jobs. -/
structure NeverFails (g : Gate host) (r : GateRun host) : Prop where
  contributes : ∀ p ∈ r.phases, ∀ j ∈ p.ran, j.warnOnly = true → HasFailures j.stepResults = false
  runs : ∃ schedules r', RunGate (gateWithoutWarnOnly g) schedules = some r'
  same : ∀ schedules r', RunGate (gateWithoutWarnOnly g) schedules = some r' →
    r'.err.isSome = r.err.isSome ∧
      r'.phases.map PhaseRun.ran = r.phases.map fun p => p.ran.filter fun j => !j.warnOnly

section Loops

theorem exists_runSerial (jobs : List (AnyJob host)) :
    ∃ schedules r, runSerial jobs schedules = some r := by
  induction jobs with
  | nil => exact ⟨[], _, rfl⟩
  | cons job rest ih =>
    obtain ⟨schedule, g, hg⟩ := exists_runJobGroup [job]
    obtain ⟨schedules, r, hr⟩ := ih
    cases hfails : HasFailures g.all with
    | true => exact ⟨schedule :: schedules, _, by simp [runSerial, hg, hfails]; rfl⟩
    | false => exact ⟨schedule :: schedules, _, by simp [runSerial, hg, hfails, hr]; rfl⟩

theorem exists_runPhase (phase : Phase host) :
    ∃ schedules r, runPhase phase schedules = some r := by
  cases hparallel : phase.parallel with
  | true =>
    obtain ⟨schedule, g, hg⟩ := exists_runJobGroup phase.Jobs
    exact ⟨[schedule], _, by simp [runPhase, hparallel, runParallel, hg]; rfl⟩
  | false =>
    obtain ⟨schedules, r, hr⟩ := exists_runSerial phase.Jobs
    exact ⟨schedules, r, by simp [runPhase, hparallel, hr]⟩

/-- One turn of the loop of RunGate. -/
theorem gateLoop_cons {stop : Bool} {err : Option ErrorValue} {phase : Phase host}
    {rest : List (Phase host)} {schedules : List (List (List ℕ))} {r : GateRun host}
    (h : gateLoop stop err (phase :: rest) schedules = some r) :
    ∃ first p, runPhase phase first = some p ∧
      ((HasFailures p.results = true ∧ stop = true ∧ r.phases = [p] ∧ r.err.isSome = true) ∨
        (¬ (stop = true ∧ HasFailures p.results = true) ∧
          ∃ err' more later, err'.isSome = (err.isSome || HasFailures p.results) ∧
            gateLoop stop err' rest more = some later ∧ r = ⟨p :: later.phases, later.err⟩)) := by
  cases schedules with
  | nil => cases h
  | cons first more =>
    obtain ⟨p, hp, h⟩ := Option.bind_eq_some_iff.mp h
    refine ⟨first, p, hp, ?_⟩
    split at h
    · next hfails =>
      cases hstop : stop with
      | true =>
        simp only [hstop, if_true, Option.some.injEq] at h
        cases h
        exact .inl ⟨hfails, rfl, rfl, rfl⟩
      | false =>
        simp only [hstop, Bool.false_eq_true, if_false] at h
        obtain ⟨later, hlater, rfl⟩ := Option.map_eq_some_iff.mp h
        exact .inr ⟨by simp, _, more, later, by simp [hfails], hlater, rfl⟩
    · next hpasses =>
      obtain ⟨later, hlater, rfl⟩ := Option.map_eq_some_iff.mp h
      exact .inr ⟨by simp [hpasses], err, more, later, by simp [hpasses], hlater, rfl⟩

theorem exists_gateLoop (stop : Bool) (err : Option ErrorValue) (phases : List (Phase host)) :
    ∃ schedules r, gateLoop stop err phases schedules = some r := by
  induction phases generalizing err with
  | nil => exact ⟨[], _, rfl⟩
  | cons phase rest ih =>
    obtain ⟨first, p, hp⟩ := exists_runPhase phase
    cases hfails : HasFailures p.results with
    | true =>
      obtain ⟨schedules, r, hr⟩ :=
        ih (some (joinErrors (err.toList ++ [phaseFailureError phase.Name p.results])))
      cases stop with
      | true => exact ⟨first :: schedules, _, by simp [gateLoop, hp, hfails]; rfl⟩
      | false => exact ⟨first :: schedules, _, by simp [gateLoop, hp, hfails, hr]; rfl⟩
    | false =>
      obtain ⟨schedules, r, hr⟩ := ih err
      exact ⟨first :: schedules, _, by simp [gateLoop, hp, hfails, hr]; rfl⟩

theorem gateLoop_ran {P : AnyJob host → Prop} {stop : Bool} {err : Option ErrorValue}
    {phases : List (Phase host)} {schedules : List (List (List ℕ))} {r : GateRun host}
    (h : gateLoop stop err phases schedules = some r) :
    (∀ p ∈ r.phases, ∀ j ∈ p.ran, P j) ↔ EachReached stop phases P := by
  induction phases generalizing err schedules r with
  | nil =>
    cases h
    simp [EachReached]
  | cons phase rest ih =>
    obtain ⟨first, p, hp, hcases⟩ := gateLoop_cons h
    have hphase := runPhase_ran (P := P) hp
    have hfails := runPhase_hasFailures hp
    rw [EachReached, forall_split_cons (Q := fun before phase =>
      (stop = true → ∀ earlier ∈ before, ∀ j ∈ earlier.Jobs, ¬ j.Fails) →
        Phase.EachReached phase P)]
    rcases hcases with ⟨hfailed, hstop, hphases, -⟩ | ⟨hgoes, err', more, later, -, hlater, rfl⟩
    · obtain ⟨j, hj, hjfails⟩ := hfails.mp hfailed
      rw [hphases]
      constructor
      · intro hran
        refine ⟨fun _ => hphase.mp (hran p mem_cons_self), ?_⟩
        intro before y after _ hearlier
        exact absurd hjfails (hearlier hstop phase mem_cons_self j hj)
      · rintro ⟨hhead, -⟩ q hq
        rw [mem_singleton.mp hq]
        exact hphase.mpr (hhead (by simp))
    · have hquiet : stop = true → ∀ j ∈ phase.Jobs, ¬ j.Fails := by
        intro hstop j hj hjfails
        exact hgoes ⟨hstop, hfails.mpr ⟨j, hj, hjfails⟩⟩
      rw [forall_mem_cons, hphase, ih hlater, EachReached]
      refine and_congr ⟨fun hhead _ => hhead, fun hhead => hhead (by simp)⟩ ?_
      refine forall₄_congr fun before y after _ => ?_
      rw [forall_mem_cons]
      exact imp_congr_left ⟨fun hrest hstop => ⟨hquiet hstop, hrest hstop⟩,
        fun hboth hstop => (hboth hstop).2⟩

end Loops

section Removal

variable {phase : Phase host} {schedules : List (List ℕ)} {r : PhaseRun host}

/-- A phase fails if a job that was executed does. -/
theorem runPhase_ran_fails (h : runPhase phase schedules = some r) :
    HasFailures r.results = true ↔ ∃ j ∈ r.ran, j.Fails := by
  rw [hasFailures_perm (runPhase_perm h).1]
  simp only [← AnyJob.hasFailures_iff, HasFailures, any_flatMap, any_eq_true]

theorem ran_subset (h : runPhase phase schedules = some r) : ∀ j ∈ r.ran, j ∈ phase.Jobs := by
  rw [runPhase_ran h]
  intro before j after heq _
  exact heq ▸ mem_append_right _ mem_cons_self

theorem runSerial_without {jobs : List (AnyJob host)} {schedules' : List (List ℕ)}
    {r' : PhaseRun host} (h : runSerial jobs schedules = some r)
    (h' : runSerial (jobs.filter fun j => !j.warnOnly) schedules' = some r')
    (hran : ∀ j ∈ r.ran, j.warnOnly = true → ¬ j.Fails) :
    r'.ran = r.ran.filter fun j => !j.warnOnly := by
  induction jobs generalizing schedules schedules' r r' with
  | nil =>
    cases h
    cases h'
    rfl
  | cons job rest ih =>
    cases schedules with
    | nil => cases h
    | cons schedule schedules =>
      obtain ⟨g, hg, h⟩ := Option.bind_eq_some_iff.mp h
      have hfails : HasFailures g.all = true ↔ job.Fails := by
        simpa using runJobGroup_hasFailures hg
      cases hwarn : job.warnOnly with
      | true =>
        rw [filter_cons_of_neg (by simp [hwarn])] at h'
        split at h
        · next hfailed =>
          cases h
          exact absurd (hfails.mp hfailed) (hran job mem_cons_self hwarn)
        · obtain ⟨later, hlater, rfl⟩ := Option.map_eq_some_iff.mp h
          rw [filter_cons_of_neg (by simp [hwarn])]
          exact ih hlater h' (forall_mem_cons.mp hran).2
      | false =>
        rw [filter_cons_of_pos (by simp [hwarn])] at h'
        cases schedules' with
        | nil => cases h'
        | cons schedule' schedules' =>
          obtain ⟨g', hg', h'⟩ := Option.bind_eq_some_iff.mp h'
          have hsame : HasFailures g'.all = HasFailures g.all := by
            rw [Bool.eq_iff_iff, hfails]
            simpa using runJobGroup_hasFailures hg'
          rw [hsame] at h'
          split at h
          · next hfailed =>
            rw [if_pos hfailed] at h'
            cases h
            cases h'
            simp [hwarn]
          · next hpassed =>
            rw [if_neg hpassed] at h'
            obtain ⟨later, hlater, rfl⟩ := Option.map_eq_some_iff.mp h
            obtain ⟨later', hlater', rfl⟩ := Option.map_eq_some_iff.mp h'
            rw [filter_cons_of_pos (by simp [hwarn])]
            exact congrArg _ (ih hlater hlater' (forall_mem_cons.mp hran).2)

theorem runPhase_without {schedules' : List (List ℕ)} {r' : PhaseRun host}
    (h : runPhase phase schedules = some r)
    (h' : runPhase (withoutWarnOnly phase) schedules' = some r')
    (hran : ∀ j ∈ r.ran, j.warnOnly = true → ¬ j.Fails) :
    HasFailures r'.results = HasFailures r.results ∧
      r'.ran = r.ran.filter fun j => !j.warnOnly := by
  constructor
  · rw [Bool.eq_iff_iff, runPhase_ran_fails h, runPhase_hasFailures h']
    constructor
    · rintro ⟨j, hj, hfails⟩
      have hjob : j ∈ phase.Jobs := (mem_filter.mp hj).1
      exact (runPhase_ran_fails h).mp ((runPhase_hasFailures h).mpr ⟨j, hjob, hfails⟩)
    · rintro ⟨j, hj, hfails⟩
      have hblocks : j.warnOnly = false := Bool.eq_false_iff.mpr fun hwarn => hran j hj hwarn hfails
      exact ⟨j, mem_filter.mpr ⟨ran_subset h j hj, by simp [hblocks]⟩, hfails⟩
  · cases hparallel : phase.parallel with
    | true =>
      rw [runPhase, if_pos hparallel] at h
      rw [runPhase, if_pos (show (withoutWarnOnly phase).parallel = true from hparallel)] at h'
      obtain ⟨_, g, -, rfl⟩ := runParallel_eq h
      obtain ⟨_, g', -, rfl⟩ := runParallel_eq h'
      rfl
    | false =>
      have hserial : ¬ phase.parallel = true := by simp [hparallel]
      rw [runPhase, if_neg hserial] at h
      rw [runPhase, if_neg (show ¬ (withoutWarnOnly phase).parallel = true from hserial)] at h'
      exact runSerial_without h h' hran

theorem gateLoop_without {stop : Bool} {err err' : Option ErrorValue}
    {phases : List (Phase host)} {schedules schedules' : List (List (List ℕ))}
    {r r' : GateRun host} (h : gateLoop stop err phases schedules = some r)
    (h' : gateLoop stop err' (phases.map withoutWarnOnly) schedules' = some r')
    (herr : err'.isSome = err.isSome)
    (hran : ∀ p ∈ r.phases, ∀ j ∈ p.ran, j.warnOnly = true → ¬ j.Fails) :
    r'.err.isSome = r.err.isSome ∧
      r'.phases.map PhaseRun.ran = r.phases.map fun p => p.ran.filter fun j => !j.warnOnly := by
  induction phases generalizing err err' schedules schedules' r r' with
  | nil =>
    cases h
    cases h'
    exact ⟨herr, rfl⟩
  | cons phase rest ih =>
    obtain ⟨first, p, hp, hcases⟩ := gateLoop_cons h
    obtain ⟨first', p', hp', hcases'⟩ := gateLoop_cons h'
    have hfirst : ∀ j ∈ p.ran, j.warnOnly = true → ¬ j.Fails := by
      rcases hcases with ⟨-, -, hphases, -⟩ | ⟨-, _, _, later, -, -, rfl⟩
      · exact hran p (hphases ▸ mem_cons_self)
      · exact hran p mem_cons_self
    obtain ⟨hfails, hsame⟩ := runPhase_without hp hp' hfirst
    rcases hcases with ⟨hfailed, hstop, hphases, hsome⟩ | ⟨hgoes, e, _, later, he, hlater, rfl⟩
    · rcases hcases' with ⟨-, -, hphases', hsome'⟩ | ⟨hgoes', -⟩
      · rw [hphases, hphases', hsome, hsome']
        exact ⟨rfl, by simp [hsame]⟩
      · exact absurd ⟨hstop, hfails.trans hfailed⟩ hgoes'
    · rcases hcases' with ⟨hfailed', hstop', -, -⟩ | ⟨-, e', _, later', he', hlater', rfl⟩
      · exact absurd ⟨hstop', hfails.symm.trans hfailed'⟩ hgoes
      · have hrest := ih hlater hlater' (by rw [he, he', herr, hfails])
          (forall_mem_cons.mp hran).2
        refine ⟨hrest.1, ?_⟩
        rw [map_cons, map_cons, hsame]
        exact congrArg _ hrest.2

end Removal

theorem runGate_eq {g : Gate host} {schedules : List (List (List ℕ))} {r : GateRun host}
    (h : RunGate g schedules = some r) :
    ∃ loop, gateLoop g.stopOnFailure none g.phases schedules = some loop ∧
      r.phases = loop.phases ∧ r.err.isSome = loop.err.isSome := by
  obtain ⟨loop, hloop, rfl⟩ := Option.map_eq_some_iff.mp h
  exact ⟨loop, hloop, rfl, Option.isSome_map⟩

theorem fails_of_warnOnly {j : AnyJob host} (h : j.warnOnly = true) : j.Fails ↔ j.Broken := by
  simp [AnyJob.Fails, h]

/-- The warn-only jobs of a gate do not fail it just when none of those that are reached has a
discovery that fails. -/
theorem warnOnly_never_fails_iff (g : Gate host) (schedules : List (List (List ℕ)))
    (r : GateRun host) (h : RunGate g schedules = some r) :
    NeverFails g r ↔
      EachReached g.stopOnFailure g.phases fun j => ¬ (j.warnOnly = true ∧ j.Broken) := by
  obtain ⟨loop, hloop, hphases, herr⟩ := runGate_eq h
  rw [← gateLoop_ran hloop, ← hphases]
  constructor
  · rintro hnever p hp j hj ⟨hwarn, hbroken⟩
    have hfails := j.hasFailures_iff.mpr ((fails_of_warnOnly hwarn).mpr hbroken)
    rw [hnever.contributes p hp j hj hwarn] at hfails
    cases hfails
  · intro hquiet
    have hran : ∀ p ∈ r.phases, ∀ j ∈ p.ran, j.warnOnly = true → ¬ j.Fails := by
      intro p hp j hj hwarn hfails
      exact hquiet p hp j hj ⟨hwarn, (fails_of_warnOnly hwarn).mp hfails⟩
    refine ⟨?_, ?_, ?_⟩
    · intro p hp j hj hwarn
      exact Bool.eq_false_iff.mpr fun hfails => hran p hp j hj hwarn (j.hasFailures_iff.mp hfails)
    · obtain ⟨schedules', loop', hloop'⟩ := exists_gateLoop g.stopOnFailure none
        (gateWithoutWarnOnly g).phases
      exact ⟨schedules', _, Option.map_eq_some_iff.mpr ⟨loop', hloop', rfl⟩⟩
    · intro schedules' r' h'
      obtain ⟨loop', hloop', hphases', herr'⟩ := runGate_eq h'
      rw [herr, herr', hphases, hphases']
      exact gateLoop_without hloop hloop' rfl (hphases ▸ hran)

section Samples

def scanGate (jobs : List (AnyJob sampleHost)) : Gate sampleHost where
  name := "verify"
  phases := [⟨"scans", jobs, false⟩]
  stopOnFailure := false

/-- The warn-only job is reached first and a unit of it fails; the other job fails the gate. -/
theorem warned_scan_never_fails :
    ∃ r, RunGate (scanGate [scan true, brokenScan false]) [[[0, 0, 0], [0, 0]]] = some r ∧
      r.phases.map (fun p => p.results.map StepResult.Status) = [[.warn, .pass, .fail]] ∧
      NeverFails (scanGate [scan true, brokenScan false]) r := by
  refine ⟨_, rfl, rfl, (warnOnly_never_fails_iff _ [[[0, 0, 0], [0, 0]]] _ rfl).mpr ?_⟩
  rintro before phase after hphases - first j rest hjobs - ⟨hwarn, -, err, hdisc⟩
  have hphase : phase ∈ (scanGate _).phases :=
    hphases ▸ mem_append_right _ mem_cons_self
  obtain rfl := mem_singleton.mp hphase
  have hj : j ∈ [scan true, brokenScan false] :=
    (congrArg (j ∈ ·) hjobs).mpr (mem_append_right _ mem_cons_self)
  rcases mem_cons.mp hj with rfl | hj
  · cases hdisc
  · obtain rfl := mem_singleton.mp hj
    cases hwarn

/-- A gate of one warn-only job, whose discovery fails: the gate returns an error, and without
the job it does not. -/
theorem discovery_error_fails_gate :
    ∃ r r', RunGate (scanGate [brokenScan true]) [[[0, 0]]] = some r ∧
      RunGate (gateWithoutWarnOnly (scanGate [brokenScan true])) [[]] = some r' ∧
      r.err.isSome = true ∧ r'.err.isSome = false ∧
      ¬ NeverFails (scanGate [brokenScan true]) r := by
  refine ⟨_, _, rfl, rfl, rfl, rfl, fun hnever => ?_⟩
  have hsame := (hnever.same [[]] _ rfl).1
  cases hsame

end Samples

end KnowledgeEngine.WarnOnlyGates
