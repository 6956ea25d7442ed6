import KnowledgeEngine.FanOutRuns

/-!
What a fan-out has done when it returns: every item is accounted for exactly once, in its
results, in the calls of its mapper and in the completions of its emitter.
-/

namespace KnowledgeEngine.FanOutAccounts

open Transitions FanOut FanOutItems FanOutRuns List
open AdaptiveBulkhead (ContextError)

variable {α ω : Type} {c : Call α ω} {st st' : State α} {l : Label ω} {labels : List (Label ω)}

/-- Entries with a key each, grouped by their keys. -/
theorem perm_flatMap_keys {β : Type} (n : ℕ) (entries : List (ℕ × β))
    (hkeys : ∀ e ∈ entries, e.1 < n) :
    entries.Perm ((List.range n).flatMap fun k => entries.filter fun e => e.1 = k) := by
  induction n generalizing entries with
  | zero =>
    cases entries with
    | nil => exact List.Perm.refl _
    | cons e rest => exact absurd (hkeys e mem_cons_self) (Nat.not_lt_zero _)
  | succ n ih =>
    have hsplit := filter_append_perm (fun e => decide (e.1 = n)) entries
    have hrest := ih (entries.filter fun e => !decide (e.1 = n)) (by
      intro e he
      obtain ⟨hmem, hne⟩ := mem_filter.mp he
      have hlt := hkeys e hmem
      simp only [Bool.not_eq_eq_eq_not, Bool.not_true, decide_eq_false_iff_not] at hne
      omega)
    have hsame : ((List.range n).flatMap fun k =>
        (entries.filter fun e => !decide (e.1 = n)).filter fun e => e.1 = k) =
        (List.range n).flatMap fun k => entries.filter fun e => e.1 = k := by
      refine flatMap_congr fun k hk => ?_
      rw [filter_filter]
      refine filter_congr fun e _ => ?_
      have hlt := mem_range.mp hk
      by_cases he : e.1 = k
      · simp [he]
        omega
      · simp [he]
    rw [hsame] at hrest
    rw [range_succ, flatMap_append, flatMap_singleton]
    exact hsplit.symm.trans ((perm_append_comm).trans (hrest.append_right _))

/-- The result of an item mapped once: what the mapper returned, timed if it did not time
itself, or the failure of a panic with its stack. -/
def Yields (c : Call α ω) (it : α) (m : Mapped ω) (r : StepResult) : Prop :=
  (∀ s, c.fn it m.world = some s →
    r = { s with Duration := if s.Duration = 0 then m.elapsed else s.Duration }) ∧
  (c.fn it m.world = none → r = {
    Status := .fail, Error := "panic recovered", Detail := m.stack, Duration := m.elapsed })

/-- The result of an item that was not mapped. -/
def unmapped : ContextError → StepResult
  | .canceled => { Status := .fail, Error := "context canceled" }
  | .deadlineExceeded => { Status := .fail, Error := "context deadline exceeded" }

/-- What a fan-out that has returned did: one result per item, in order; each item mapped
once, or not at all and reported as canceled; and one completion per item, its result. -/
structure Accounted (c : Call α ω) (labels : List (Label ω)) (st : State α) : Prop where
  length : st.results.length = c.items.length
  items : ∀ k it, c.items[k]? = some it →
    (∃ m r, outcomes labels k = [m] ∧ callsOf st k = [(k, it)] ∧ st.results[k]? = some r ∧
      Yields c it m r) ∨
    ∃ err, st.done = some err ∧ callsOf st k = [] ∧ st.results[k]? = some (unmapped err)
  calls : ∀ call ∈ st.calls, call.1 < c.items.length
  completions : c.emitter = true → ∀ k r, st.results[k]? = some r → completionsOf st k = [(k, r)]
  received : c.emitter = true → (st.completions.map Prod.snd).Perm st.results

/-- The stations of an item after the return. -/
theorem item_returned (h : Inv c labels st) (hreturned : st.returned = true) {k : ℕ} {it : α}
    (hit : c.items[k]? = some it) :
    (∃ m, view labels st k = ⟨some .ended, some (c.settle it m), [m], [(k, it)],
        c.received k (c.settle it m)⟩) ∨
      ∃ err, st.tail = true ∧ st.done = some err ∧ view labels st k =
        ⟨some .absent, some (canceledResult err), [], [], c.received k (canceledResult err)⟩ := by
  obtain ⟨hi, hresting⟩ := h.returned hreturned
  have hlt := lt_of_getElem? hit
  have hitem := h.items k it hit
  have hrest : ∀ g, (view labels st k).goroutine = some g → g.isLive = false := fun g hg =>
    not_live_of_resting hresting hg
  generalize view labels st k = v at hitem hrest ⊢
  cases hitem with
  | pending r hk => omega
  | ended m hk => exact .inl ⟨m, rfl⟩
  | canceled err hk htail hdone => exact .inr ⟨err, htail, hdone, rfl⟩
  | spawned | mapping | settled | delivered => cases hrest _ rfl

theorem received_of_emitter (hemitter : c.emitter = true) (k : ℕ) (r : StepResult) :
    c.received k r = [(k, r)] := by
  rw [Call.received, if_pos hemitter]

theorem completions_returned (h : Inv c labels st) (hreturned : st.returned = true)
    (hemitter : c.emitter = true) {k : ℕ} {r : StepResult} (hr : st.results[k]? = some r) :
    completionsOf st k = [(k, r)] := by
  have hlt := (lt_of_getElem? hr).trans_eq h.results
  rcases item_returned h hreturned (List.getElem?_eq_getElem hlt) with
    ⟨m, hview⟩ | ⟨err, -, -, hview⟩
  · obtain ⟨-, hresult, -, -, hd⟩ := view_eq_iff.mp hview
    rw [hd, received_of_emitter hemitter, Option.some.inj (hr.symm.trans hresult)]
  · obtain ⟨-, hresult, -, -, hd⟩ := view_eq_iff.mp hview
    rw [hd, received_of_emitter hemitter, Option.some.inj (hr.symm.trans hresult)]

theorem received_returned (h : Inv c labels st) (hreturned : st.returned = true)
    (hemitter : c.emitter = true) : (st.completions.map Prod.snd).Perm st.results := by
  have hkeys := perm_flatMap_keys c.items.length st.completions h.completion_lt
  refine (hkeys.map Prod.snd).trans (List.Perm.of_eq ?_)
  have hone : ((List.range c.items.length).flatMap fun k =>
      st.completions.filter fun e => e.1 = k) =
      (List.range c.items.length).flatMap fun k => [(k, st.results.getD k {})] := by
    refine flatMap_congr fun k hk => ?_
    have hlt : k < st.results.length := (mem_range.mp hk).trans_eq h.results.symm
    have hr := List.getElem?_eq_getElem hlt
    rw [getD_eq_getElem?_getD, hr]
    exact completions_returned h hreturned hemitter hr
  rw [hone, ← map_eq_flatMap]
  refine ext_getElem ?_ fun k hk hk' => ?_
  · simp [h.results]
  · simp [getD_eq_getElem?_getD, List.getElem?_eq_getElem hk']

/-- A result fails where a call of the mapper ended in a failure, or where the loop bailed. -/
def Fails (c : Call α ω) : Label ω → Prop
  | .bail => True
  | .finish k m => ∃ it, c.items[k]? = some it ∧ (c.settle it m).Status = .fail
  | _ => False

theorem mem_outcomes {k : ℕ} {m : Mapped ω} : m ∈ outcomes labels k ↔ .finish k m ∈ labels := by
  rw [outcomes, mem_filterMap]
  constructor
  · rintro ⟨l, hl, hm⟩
    cases l with
    | finish j m' =>
      obtain ⟨rfl, hm'⟩ := Option.ite_none_right_eq_some.mp hm
      cases hm'
      exact hl
    | _ => cases hm
  · intro hl
    exact ⟨_, hl, if_pos rfl⟩

theorem hasFailures_results (h : Inv c labels st) (hreturned : st.returned = true) :
    HasFailures st.results = true ↔ ∃ l ∈ labels, Fails c l := by
  rw [hasFailures_iff]
  constructor
  · rintro ⟨r, hr, hfail⟩
    obtain ⟨k, hk⟩ := mem_iff_getElem?.mp hr
    have hlt := (lt_of_getElem? hk).trans_eq h.results
    have hit := List.getElem?_eq_getElem hlt
    rcases item_returned h hreturned hit with ⟨m, hview⟩ | ⟨err, htail, -, hview⟩
    · obtain ⟨-, hresult, ho, -, -⟩ := view_eq_iff.mp hview
      refine ⟨.finish k m, mem_outcomes.mp (by rw [ho]; exact mem_singleton_self m), _, hit, ?_⟩
      rwa [← Option.some.inj (hk.symm.trans hresult)]
    · exact ⟨.bail, h.bailed.mpr htail, trivial⟩
  · rintro ⟨l, hl, hfail⟩
    cases l with
    | bail =>
      obtain ⟨k, hlt, habsent⟩ := h.tail_skips (h.bailed.mp hl)
      rcases item_returned h hreturned (List.getElem?_eq_getElem hlt) with
        ⟨m, hview⟩ | ⟨err, -, -, hview⟩
      · obtain ⟨hg, -⟩ := view_eq_iff.mp hview
        cases hg.symm.trans habsent
      · obtain ⟨-, hresult, -⟩ := view_eq_iff.mp hview
        exact ⟨_, mem_of_getElem? hresult, rfl⟩
    | finish k m =>
      obtain ⟨it, hit, hstatus⟩ := hfail
      have hm := mem_outcomes.mpr hl
      rcases item_returned h hreturned hit with ⟨m', hview⟩ | ⟨err, -, -, hview⟩
      · obtain ⟨-, hresult, ho, -, -⟩ := view_eq_iff.mp hview
        rw [ho, mem_singleton] at hm
        exact ⟨_, mem_of_getElem? hresult, hm ▸ hstatus⟩
      · obtain ⟨-, -, ho, -, -⟩ := view_eq_iff.mp hview
        rw [ho] at hm
        cases hm
    | _ => exact hfail.elim

theorem settle_yields {it : α} {m : Mapped ω} : Yields c it m (c.settle it m) := by
  refine ⟨fun s hs => ?_, fun hnone => ?_⟩
  · rw [Call.settle, hs]
    cases s
    dsimp only
    split <;> rfl
  · rw [Call.settle, hnone]
    rfl

theorem canceledResult_eq {err : ContextError} : canceledResult err = unmapped err := by
  cases err <;> rfl

theorem accounted (h : Inv c labels st) (hreturned : st.returned = true) :
    Accounted c labels st where
  length := h.results
  items := by
    intro k it hit
    rcases item_returned h hreturned hit with ⟨m, hview⟩ | ⟨err, -, hdone, hview⟩
    · obtain ⟨-, hr, ho, hc, -⟩ := view_eq_iff.mp hview
      exact .inl ⟨m, _, ho, hc, hr, settle_yields⟩
    · obtain ⟨-, hr, -, hc, -⟩ := view_eq_iff.mp hview
      exact .inr ⟨err, hdone, hc, canceledResult_eq ▸ hr⟩
  calls := h.call_lt
  completions := completions_returned h hreturned
  received := received_returned h hreturned

/-- At most `numWorkers` mappers run in any state, a run goes on to its end within a bounded
number of steps, and then every item is accounted for. -/
theorem every_item_accounted [Nonempty ω] (c : Call α ω) (labels : List (Label ω))
    (st : State α) (h : run (step c) c.initial labels = some st) :
    st.goroutines.countP Goroutine.isMapping ≤
        (if c.numWorkers ≤ 0 then c.numCPU else c.numWorkers.toNat) ∧
      labels.length ≤ 5 * c.items.length + 3 ∧
      (st.returned = false →
        ∃ (l : Label ω) (s : State α), (∀ err, l ≠ .cancel err) ∧ step c st l = some s) ∧
      (st.returned = true → Accounted c labels st) := by
  have hinv := inv_run h
  refine ⟨?_, ?_, fun hopen => ?_, accounted hinv⟩
  · refine le_trans ?_ (hinv.sem_eq ▸ hinv.sem_le)
    refine countP_mono_left fun g _ hg => ?_
    cases g with
    | mapping => rfl
    | _ => cases hg
  · exact (Nat.le_add_right _ _).trans (length_le h)
  · obtain ⟨l, s, hl, hm⟩ := next_step hinv hopen
    exact ⟨l, s, hl, step_of_moves hm⟩

/-- Two items and one worker: the mapper panics on the first, and the context ends before the
second is started. -/
def sampleCall : Call String (Option StepResult) where
  items := ["lint", "test"]
  numWorkers := 1
  fn := fun _ r => r
  emitter := true
  numCPU := 4
  numCPU_pos := by decide

def sampleLabels : List (Label (Option StepResult)) :=
  [.acquire, .start 0, .cancel .canceled, .finish 0 ⟨none, [], 7⟩, .bail, .report, .deliver 0,
    .release 0, .wait]

theorem sample_accounted :
    ∃ st, run (step sampleCall) sampleCall.initial sampleLabels = some st ∧ st.returned = true ∧
      Accounted sampleCall sampleLabels st :=
  ⟨_, rfl, rfl, (every_item_accounted sampleCall sampleLabels _ rfl).2.2.2 rfl⟩

end KnowledgeEngine.FanOutAccounts
