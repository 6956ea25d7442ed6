import KnowledgeEngine.KeyedTable
import KnowledgeEngine.RelayRuns

/-!
What a RunOnce of the outbox relay has done when it returns: every claimed record was in one
Send, and was settled once by the result of that Send, whatever the schedule, the sink and the
store. Every run comes to its end.
-/

namespace KnowledgeEngine.RelayOutcomes

open Chunks CoreTypes KeyedTable List Relay RelayRuns Transitions

def workerLeft : Worker → ℕ
  | .sending chunk => chunk.length + 2
  | .settling todo _ => todo.length + 1
  | .done => 0

/-- The steps a run takes at most once it has claimed. -/
def left (run : Run) : ℕ :=
  (!run.ended).toNat + run.returned.isNone.toNat +
    (run.pending.map fun chunk => chunk.length + 3).sum + (run.workers.map workerLeft).sum

theorem resultsFor_length (chunk : List OutboxRecord) (results : List (Option ErrorValue)) :
    (resultsFor chunk results).length = chunk.length := by
  unfold resultsFor
  split
  · assumption
  · exact length_replicate

theorem tasks_record (s : Sending) : s.tasks.map Task.record = s.chunk := by
  refine ext_getElem? fun i => ?_
  rw [Sending.tasks, List.getElem?_map, List.getElem?_zipWith]
  cases hrec : s.chunk[i]? with
  | none => rfl
  | some rec =>
    have hi : i < (resultsFor s.chunk s.results).length := by
      rw [resultsFor_length]
      exact (List.getElem?_eq_some_iff.mp hrec).1
    rw [List.getElem?_eq_getElem hi]
    rfl

variable {c : RelayConfig} {run run' : Run}

variable {labels : List Label}

/-- The answers of the labels: to the claim, to a Send and to a store call. -/
def claimed? : Label → Option (Except ErrorValue (List OutboxRecord))
  | .claimed answer => some answer
  | _ => none

def sent? : Label → Option (List (Option ErrorValue))
  | .sent _ results => some results
  | _ => none

def stored? : Label → Option (Option ErrorValue)
  | .settle _ _ _ err => some err
  | _ => none

/-- The run works with the answers it got; its last label comes first. -/
structure Answered (labels : List Label) (run : Run) : Prop where
  claim : labels.filterMap claimed? = run.claim.toList
  sends : labels.filterMap sent? = run.sends.map Sending.results
  stores : List.Forall₂ (fun err s => s.call ≠ none → s.err = err)
    (labels.filterMap stored?) run.settled
  ended : run.ended = true ↔ Label.cancel ∈ labels

theorem settlement_err {ended : Bool} {now : ℤ} {jitter : ℤ → ℤ} {task : Task}
    {err : Option ErrorValue} :
    (settlement c ended now jitter task err).call ≠ none →
      (settlement c ended now jitter task err).err = err := by
  unfold settlement
  split
  · exact fun h => absurd rfl h
  · exact fun _ => rfl

theorem Answered.step {l : Label} (h : Answered labels run)
    (hstep : Relay.step c run l = some run') :
    Answered (l :: labels) run' := by
  have hended : ∀ l, l ≠ Label.cancel → (run.ended = true ↔ Label.cancel ∈ l :: labels) := by
    intro l hl
    rw [h.ended, mem_cons, or_iff_right hl.symm]
  cases moves_of_step hstep with
  | cancel => exact ⟨h.claim, h.sends, h.stores, by simp⟩
  | fails err hclaim =>
    have hnone := h.claim
    rw [hclaim] at hnone
    exact ⟨congrArg (Except.error err :: ·) hnone, h.sends, h.stores, hended _ (by simp)⟩
  | claims recs hclaim =>
    have hnone := h.claim
    rw [hclaim] at hnone
    exact ⟨congrArg (Except.ok recs :: ·) hnone, h.sends, h.stores, hended _ (by simp)⟩
  | sent i results chunk hi =>
    exact ⟨h.claim, congrArg (results :: ·) h.sends, h.stores, hended _ (by simp)⟩
  | settle i now jitter err todo errs s hi hs =>
    exact ⟨h.claim, h.sends, .cons (hs ▸ settlement_err) h.stores, hended _ (by simp)⟩
  | spawn => exact ⟨h.claim, h.sends, h.stores, hended _ (by simp)⟩
  | finish => exact ⟨h.claim, h.sends, h.stores, hended _ (by simp)⟩
  | returns => exact ⟨h.claim, h.sends, h.stores, hended _ (by simp)⟩

variable {err : Option ErrorValue}

/-- A run that has returned has no chunk and no working goroutine left. -/
theorem returned_idle (h : Accounted c run) (hreturned : run.returned = some err) :
    run.pending = [] ∧ ∀ w ∈ run.workers, w = .done := by
  have hphase := h.phase
  unfold Phase at hphase
  split at hphase
  · simp [hreturned] at hphase
  · exact ⟨hphase.2.1, by simp [hphase.2.2.1]⟩
  · exact (hphase err hreturned).2

theorem flatMap_done {α : Type} {workers : List Worker} (f : Worker → List α)
    (hf : f .done = []) (hdone : ∀ w ∈ workers, w = .done) : workers.flatMap f = [] :=
  flatMap_eq_nil_iff.mpr fun w hw => hdone w hw ▸ hf

theorem validate_positive (h : c.Validate = none) :
    0 < c.SendBatch ∧ 0 < c.Concurrency := by
  unfold RelayConfig.Validate at h
  split_ifs at h with hlane hsizes
  omega

/-- A record of the lane events on its first attempt. -/
def event (id : BitVec 128) : OutboxRecord where
  CreatedAt := 0
  Attributes := []
  Tenant := "tenant"
  Lane := "events"
  Key := ""
  Payload := []
  Attempts := 1
  ID := id

end KnowledgeEngine.RelayOutcomes
