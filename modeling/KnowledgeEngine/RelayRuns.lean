import KnowledgeEngine.Relay
import KnowledgeEngine.Transitions
import Mathlib.Data.List.Count
import Mathlib.Data.List.Perm.Basic

/-!
Runs of the outbox relay. At every moment the claimed records are those sent, those in a Send
and those without a goroutine yet; the records sent are those settled and those a goroutine
still has to settle, each with the result of its own Send.
-/

namespace KnowledgeEngine.RelayRuns

open Chunks CoreTypes List Relay Transitions

/-- The record failed on its last attempt, or for good where that parks it. -/
def Parked (c : RelayConfig) (rec : OutboxRecord) (err : ErrorValue) : Prop :=
  c.MaxAttempts ≤ rec.Attempts ∨ c.ParkOnPermanent = true ∧
    err.Code ∈ [ErrorCode.notFound, .invalidInput, .unauthorized, .forbidden, .conflict]

/-- The one store call of a settlement is the one its own result asks for. -/
structure Settles (c : RelayConfig) (s : Settlement) : Prop where
  skipped : s.call = none ↔ ∃ err, s.task.sendErr = some err ∧ s.ended = true ∧ err.ended = true
  unfailed : s.call = none → s.err = none
  sent : s.call = some (.markSent s.task.record.ID) ↔ s.task.sendErr = none
  parked : ∀ text, s.call = some (.park s.task.record.ID text) ↔
    ∃ err, s.task.sendErr = some err ∧ (s.ended = true → err.ended = false) ∧
      Parked c s.task.record err ∧ err.text = text
  retried : ∀ text, (∃ next, s.call = some (.retry s.task.record.ID next text)) ↔
    ∃ err, s.task.sendErr = some err ∧ (s.ended = true → err.ended = false) ∧
      ¬ Parked c s.task.record err ∧ err.text = text
  own : ∀ call, s.call = some call → call.id = s.task.record.ID

variable {ended : Bool} {now : ℤ} {jitter : ℤ → ℤ} {task : Task} {err : Option ErrorValue} {i : ℕ}
  {c : RelayConfig}

theorem parks_iff {rec : OutboxRecord} {err : ErrorValue} : c.parks rec err ↔ Parked c rec err := by
  refine or_congr_right (and_congr_right fun _ => ?_)
  unfold isPermanent
  cases err.Code <;> decide

theorem settlement_settles : Settles c (settlement c ended now jitter task err) := by
  obtain ⟨record, sendErr, answered⟩ := task
  cases sendErr with
  | none => constructor <;> simp [settlement, interrupted, finalizeCall, StoreCall.id]
  | some sendErr =>
    by_cases hinterrupted : ended = true ∧ sendErr.ended = true
    · constructor <;> simp [settlement, interrupted, hinterrupted]
    · rw [not_and, Bool.not_eq_true] at hinterrupted
      have hruns : interrupted ended (some sendErr) = false := by
        simpa [interrupted] using hinterrupted
      by_cases hparks : c.parks record sendErr
      · constructor <;> simp [settlement, hruns, finalizeCall, hparks, StoreCall.id, ← parks_iff]
          <;> exact hinterrupted
      · constructor <;> simp [settlement, hruns, finalizeCall, hparks, StoreCall.id, ← parks_iff]
          <;> exact hinterrupted

theorem settlement_task : (settlement c ended now jitter task err).task = task := by
  unfold settlement
  split <;> rfl

theorem settlement_ended : (settlement c ended now jitter task err).ended = ended := by
  unfold settlement
  split <;> rfl

/-- What a run is at, by its Claim. -/
def Phase (run : Run) : Prop :=
  match run.claim with
  | none => run.returned = none ∧ run.pending = [] ∧ run.workers = [] ∧ run.sends = [] ∧
      run.settled = [] ∧ run.first = none
  | some (.error err) => run.returned = some (some (claimErr err)) ∧ run.pending = [] ∧
      run.workers = [] ∧ run.sends = [] ∧ run.settled = []
  | some (.ok _) => ∀ err, run.returned = some err →
      err = run.first ∧ run.pending = [] ∧ ∀ w ∈ run.workers, w = .done

/-- The records and their results are all accounted for. -/
structure Accounted (c : RelayConfig) (run : Run) : Prop where
  phase : Phase run
  sent : (run.sends.flatMap Sending.chunk ++ run.workers.flatMap Worker.unsent ++
    run.pending.flatten).Perm run.batch
  settled : (run.settled.map Settlement.task ++ run.workers.flatMap Worker.todo).Perm
    (run.sends.flatMap Sending.tasks)
  settles : ∀ s ∈ run.settled, Settles c s
  ended : ∀ s ∈ run.settled, (s.task.answered = true → s.ended = true) ∧
    (s.ended = true → run.ended = true)
  answered : ∀ w ∈ run.workers, ∀ task ∈ w.todo, task.answered = true → run.ended = true
  failed : run.first.isSome ∨ run.workers.flatMap Worker.errs ≠ [] ↔
    ∃ s ∈ run.settled, s.err.isSome

theorem initial_accounted : Accounted c initial where
  phase := ⟨rfl, rfl, rfl, rfl, rfl, rfl⟩
  sent := List.Perm.refl []
  settled := List.Perm.refl []
  settles := by simp [initial]
  ended := by simp [initial]
  answered := by simp [initial]
  failed := by simp [initial]

variable {c : RelayConfig} {run run' : Run}

theorem all_done {workers : List Worker} (h : (workers.all fun w => !w.active) = true) :
    ∀ w ∈ workers, w = .done := by
  intro w hw
  have hactive := all_eq_true.mp h w hw
  cases w with
  | done => rfl
  | sending chunk => cases hactive
  | settling todo errs => cases hactive

/-- The steps of a run and what each of them needs. -/
inductive Moves (c : RelayConfig) (run : Run) : Label → Run → Prop
  | cancel (hended : run.ended = false) : Moves c run .cancel { run with ended := true }
  | fails (err : ErrorValue) (hclaim : run.claim = none) : Moves c run (.claimed (.error err))
      { run with claim := some (.error err), returned := some (some (claimErr err)) }
  | claims (recs : List OutboxRecord) (hclaim : run.claim = none) :
      Moves c run (.claimed (.ok recs))
        { run with claim := some (.ok recs), pending := chunks c.SendBatch.toNat recs }
  | spawn (chunk : List OutboxRecord) (rest : List (List OutboxRecord))
      (hpending : run.pending = chunk :: rest) : Moves c run .spawn
        { run with pending := rest, workers := run.workers ++ [.sending chunk] }
  | sent (i : ℕ) (results : List (Option ErrorValue)) (chunk : List OutboxRecord)
      (hi : run.workers[i]? = some (.sending chunk)) : Moves c run (.sent i results)
        { run.setWorker i (.settling (Sending.tasks ⟨chunk, results, run.ended⟩) []) with
          sends := ⟨chunk, results, run.ended⟩ :: run.sends }
  | settle (i : ℕ) (now : ℤ) (jitter : ℤ → ℤ) (err : Option ErrorValue) (todo : List Task)
      (errs : List ErrorValue) (s : Settlement)
      (hi : run.workers[i]? = some (.settling (s.task :: todo) errs))
      (hs : s = settlement c run.ended now jitter s.task err) :
      Moves c run (.settle i now jitter err)
        { run.setWorker i
            (.settling todo (errs ++ (s.err.map (finalizeErr s.task.record)).toList)) with
          settled := s :: run.settled }
  | finish (i : ℕ) (errs : List ErrorValue) (hi : run.workers[i]? = some (.settling [] errs)) :
      Moves c run (.finish i) { run.setWorker i .done with first := run.first.or errs.head? }
  | returns (hclaim : run.claim.isSome) (hreturned : run.returned = none)
      (hpending : run.pending = []) (hdone : ∀ w ∈ run.workers, w = .done) :
      Moves c run .returns { run with returned := some run.first }

theorem moves_of_step {l : Label} (h : Relay.step c run l = some run') : Moves c run l run' := by
  cases l with
  | settle i now jitter err =>
    simp only [Relay.step] at h
    split at h <;> cases h
    next task todo errs hi =>
    have htask : (settlement c run.ended now jitter task err).task = task := settlement_task
    generalize hs : settlement c run.ended now jitter task err = s at htask ⊢
    subst htask
    exact .settle i now jitter err todo errs s hi hs.symm
  | spawn =>
    simp only [Relay.step] at h
    split at h
    · cases h
    · next hpending =>
      split at h <;> cases h
      exact .spawn _ _ hpending
  | _ =>
    simp only [Relay.step] at h
    split at h <;> cases h
    all_goals
      next hneeds =>
      first
      | exact .cancel (by simpa using fun hended => hneeds (.inl hended))
      | exact .fails _ hneeds
      | exact .claims _ hneeds
      | exact .sent _ _ _ hneeds
      | exact .finish _ _ hneeds
      | exact .returns hneeds.1 hneeds.2.1 hneeds.2.2.1 (all_done hneeds.2.2.2)

/-- A run that has a chunk or a goroutine left has not returned. -/
theorem Accounted.claimed_ok (h : Accounted c run)
    (hbusy : run.pending ≠ [] ∨ ∃ w ∈ run.workers, w ≠ .done) :
    (∃ recs, run.claim = some (.ok recs)) ∧ run.returned = none := by
  have hphase := h.phase
  unfold Phase at hphase
  split at hphase
  · rcases hbusy with hbusy | ⟨w, hw, _⟩
    · exact absurd hphase.2.1 hbusy
    · rw [hphase.2.2.1] at hw
      cases hw
  · rcases hbusy with hbusy | ⟨w, hw, _⟩
    · exact absurd hphase.2.1 hbusy
    · rw [hphase.2.2.1] at hw
      cases hw
  · next recs hclaim =>
    refine ⟨⟨recs, hclaim⟩, ?_⟩
    cases hreturned : run.returned with
    | none => rfl
    | some err =>
      obtain ⟨_, hpending, hdone⟩ := hphase err hreturned
      rcases hbusy with hbusy | ⟨w, hw, hactive⟩
      · exact absurd hpending hbusy
      · exact absurd (hdone w hw) hactive

theorem phase_running {recs : List OutboxRecord} (hclaim : run.claim = some (.ok recs))
    (hreturned : run.returned = none) : Phase run := by
  simp [Phase, hclaim, hreturned]

theorem Accounted.spawn (h : Accounted c run) {chunk : List OutboxRecord}
    {rest : List (List OutboxRecord)} (hpending : run.pending = chunk :: rest) :
    Accounted c { run with
      pending := rest, workers := run.workers ++ [.sending chunk] } := by
  obtain ⟨⟨recs, hclaim⟩, hreturned⟩ := h.claimed_ok (.inl (by simp [hpending]))
  have hsent := h.sent
  rw [hpending] at hsent
  exact {
    phase := phase_running hclaim hreturned
    sent := by simpa [Worker.unsent, Run.batch] using hsent
    settled := by simpa [Worker.todo] using h.settled
    settles := h.settles
    ended := h.ended
    answered := by
      intro w hw task htask
      rcases mem_append.mp hw with hw | hw
      · exact h.answered w hw task htask
      · rw [mem_singleton.mp hw] at htask
        cases htask
    failed := by simpa [Worker.errs] using h.failed }

/-- A goroutine that does not end keeps the run's phase. -/
theorem Accounted.phase_set (h : Accounted c run) {w w' : Worker} (hi : run.workers[i]? = some w)
    (hw : w ≠ .done) (first : Option ErrorValue) (sends : List Sending)
    (settled : List Settlement) :
    Phase { run.setWorker i w' with first := first, sends := sends, settled := settled } := by
  obtain ⟨⟨recs, hclaim⟩, hreturned⟩ :=
    h.claimed_ok (.inr ⟨w, mem_of_getElem? hi, hw⟩)
  exact phase_running hclaim hreturned

theorem tasks_answered {s : Sending} (h : task ∈ s.tasks) : task.answered = s.ended := by
  obtain ⟨i, hi, rfl⟩ := mem_iff_getElem.mp h
  simp [Sending.tasks]

theorem Accounted.sends (h : Accounted c run) {chunk : List OutboxRecord}
    (hi : run.workers[i]? = some (.sending chunk)) (results : List (Option ErrorValue)) :
    Accounted c { run.setWorker i (.settling (Sending.tasks ⟨chunk, results, run.ended⟩) []) with
      sends := ⟨chunk, results, run.ended⟩ :: run.sends } := by
  refine ⟨h.phase_set hi nofun run.first _ run.settled, ?_, ?_, h.settles, h.ended, ?_, ?_⟩
  · refine perm_iff_count.mpr fun a => ?_
    have hcount := perm_iff_count.mp h.sent a
    have hmoved := count_flatMap_set hi
      (.settling (Sending.tasks ⟨chunk, results, run.ended⟩) []) Worker.unsent a
    simp only [Run.setWorker, Run.batch, flatMap_cons, count_append, Worker.unsent,
      count_nil] at hcount hmoved ⊢
    omega
  · refine perm_iff_count.mpr fun a => ?_
    have hcount := perm_iff_count.mp h.settled a
    have hmoved := count_flatMap_set hi
      (.settling (Sending.tasks ⟨chunk, results, run.ended⟩) []) Worker.todo a
    simp only [Run.setWorker, flatMap_cons, count_append, Worker.todo,
      count_nil] at hcount hmoved ⊢
    omega
  · intro w hw task htask hanswered
    rcases mem_or_eq_of_mem_set hw with hw | rfl
    · exact h.answered w hw task htask hanswered
    · exact (tasks_answered htask).symm.trans hanswered
  · have hkept := flatMap_set_eq hi
      (.settling (Sending.tasks ⟨chunk, results, run.ended⟩) []) Worker.errs rfl
    simpa only [Run.setWorker, hkept] using h.failed

theorem Accounted.settle (h : Accounted c run) {todo : List Task} {errs : List ErrorValue}
    {s : Settlement} (hi : run.workers[i]? = some (.settling (s.task :: todo) errs))
    (hs : s = settlement c run.ended now jitter s.task err) :
    Accounted c { run.setWorker i
        (.settling todo (errs ++ (s.err.map (finalizeErr s.task.record)).toList)) with
      settled := s :: run.settled } := by
  have hsettles : Settles c s := hs ▸ settlement_settles
  have hended : s.ended = run.ended := hs ▸ settlement_ended
  obtain ⟨before, after, hworkers, hset⟩ := set_split hi
  refine ⟨h.phase_set hi nofun run.first run.sends _, ?_, ?_, ?_, ?_, ?_, ?_⟩
  · have hkept := flatMap_set_eq hi
      (.settling todo (errs ++ (s.err.map (finalizeErr s.task.record)).toList)) Worker.unsent rfl
    simpa only [Run.setWorker, Run.batch, hkept] using h.sent
  · refine perm_iff_count.mpr fun a => ?_
    have hcount := perm_iff_count.mp h.settled a
    have hmoved := count_flatMap_set hi
      (.settling todo (errs ++ (s.err.map (finalizeErr s.task.record)).toList)) Worker.todo a
    simp only [Run.setWorker, map_cons, count_append, count_cons,
      Worker.todo] at hcount hmoved ⊢
    omega
  · exact forall_mem_cons.mpr ⟨hsettles, h.settles⟩
  · refine forall_mem_cons.mpr ⟨⟨fun hanswered => ?_, fun hs => hended ▸ hs⟩, h.ended⟩
    rw [hended]
    exact h.answered _ (mem_of_getElem? hi) s.task mem_cons_self hanswered
  · intro w hw task htask hanswered
    rcases mem_or_eq_of_mem_set hw with hw | rfl
    · exact h.answered w hw task htask hanswered
    · exact h.answered _ (mem_of_getElem? hi) task (mem_cons_of_mem _ htask) hanswered
  · have hfailed := h.failed
    simp only [hworkers, flatMap_append, flatMap_cons, Worker.errs] at hfailed
    simp only [Run.setWorker, hset, flatMap_append, flatMap_cons, Worker.errs,
      exists_mem_cons_iff, ← hfailed]
    cases s.err <;> simp

theorem Accounted.finish (h : Accounted c run) {errs : List ErrorValue}
    (hi : run.workers[i]? = some (.settling [] errs)) :
    Accounted c { run.setWorker i .done with first := run.first.or errs.head? } := by
  obtain ⟨before, after, hworkers, hset⟩ := set_split hi
  refine ⟨h.phase_set hi nofun _ run.sends run.settled, ?_, ?_, h.settles, h.ended, ?_, ?_⟩
  · simpa only [Run.setWorker, Run.batch, flatMap_set_eq hi .done Worker.unsent rfl] using h.sent
  · simpa only [Run.setWorker, flatMap_set_eq hi .done Worker.todo rfl] using h.settled
  · intro w hw task htask
    rcases mem_or_eq_of_mem_set hw with hw | rfl
    · exact h.answered w hw task htask
    · cases htask
  · have hfailed := h.failed
    simp only [hworkers, flatMap_append, flatMap_cons, Worker.errs] at hfailed
    simp only [Run.setWorker, hset, flatMap_append, flatMap_cons, Worker.errs,
      ← hfailed]
    cases errs <;> simp

theorem Accounted.step (hbatch : 0 < c.SendBatch) (h : Accounted c run) (l : Label)
    (hstep : step c run l = some run') : Accounted c run' := by
  have hphase := h.phase
  cases moves_of_step hstep with
  | cancel =>
    exact { h with ended := fun s hs => ⟨(h.ended s hs).1, fun _ => rfl⟩
                   answered := fun _ _ _ _ _ => rfl }
  | fails err hclaim =>
    simp only [Phase, hclaim] at hphase
    obtain ⟨-, hpending, hworkers, hsends, hsettled, -⟩ := hphase
    exact { h with phase := ⟨rfl, hpending, hworkers, hsends, hsettled⟩
                   sent := by simp [hpending, hworkers, hsends, Run.batch] }
  | claims recs hclaim =>
    simp only [Phase, hclaim] at hphase
    obtain ⟨hreturned, -, hworkers, hsends, -, -⟩ := hphase
    have hflatten := chunks_flatten c.SendBatch.toNat (by omega) recs
    exact { h with phase := phase_running rfl hreturned
                   sent := by simp [hworkers, hsends, Run.batch, hflatten] }
  | spawn chunk rest hpending => exact h.spawn hpending
  | sent i results chunk hi => exact h.sends hi results
  | settle i now jitter err todo errs s hi hs => exact h.settle hi hs
  | finish i errs hi => exact h.finish hi
  | returns hclaim hreturned hpending hdone =>
    refine { h with phase := ?_ }
    unfold Phase at hphase ⊢
    split at hphase
    · next hnone => simp [hnone] at hclaim
    · simp [hreturned] at hphase
    · next recs hrecs =>
      simp only [hrecs]
      rintro err ⟨⟩
      exact ⟨rfl, hpending, hdone⟩

end KnowledgeEngine.RelayRuns
