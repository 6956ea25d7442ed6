import KnowledgeEngine.OutboxSystem

/-!
Delivered rows of the reference store. While every statement of a relay is executed within
the lease of its claim, a row with an unsettled claim is pending and hidden from other claims,
so no statement reaches a row that has been delivered. A Park after the lease is over does.
-/

namespace KnowledgeEngine.OutboxDelivered

open CoreTypes Function KeyedTable List OutboxSystem OutboxTable RelayOutcomes RelayRuns Transitions
open Relay hiding initial step Label

/-- An executed statement was within the lease of its claim. -/
def InLease (lease : ℤ) : Event → Prop
  | .lost _ => True
  | .settled _ _ executed now claimedAt => executed = true → now < claimedAt + lease

/-- A record unsettled within its lease has a pending row, hidden until the lease is over, and
is unsettled in one run only. -/
structure Leased (d : Deployment) (st : System) : Prop where
  held : ∀ r, st.now < st.claimedAt r + d.lease → ∀ rec ∈ unsettled (st.runs r),
    ∃ row, st.table.lookup rec.ID = some row ∧ row.state = .pending ∧
      row.nextAttemptAt = st.claimedAt r + d.lease
  alone : ∀ r r', st.now < st.claimedAt r + d.lease → st.now < st.claimedAt r' + d.lease →
    ∀ rec ∈ unsettled (st.runs r), ∀ rec' ∈ unsettled (st.runs r'), rec.ID = rec'.ID → r = r'

variable {d : Deployment} {st st' : System} {l : Label}

theorem initial_leased (d : Deployment) : Leased d initial where
  held := by simp [initial, unsettled, Relay.initial]
  alone := by simp [initial, unsettled, Relay.initial]

/-- A row with an unsettled claim within its lease is not picked. -/
theorem Leased.not_picked (h : Leased d st) {r r' : ℕ} {rec : OutboxRecord}
    {locked : List (BitVec 128)} (hlease : st.now < st.claimedAt r + d.lease)
    (hrec : rec ∈ unsettled (st.runs r)) :
    rec.ID ∉ (st.picks d r' locked).map Row.id := by
  intro hmem
  obtain ⟨row, hrow, hid⟩ := mem_map.mp hmem
  obtain ⟨hin, _, _, hdue⟩ := mem_picked hrow
  obtain ⟨held, hheld, _, hnext⟩ := h.held r hlease rec hrec
  rw [← hid, lookup_of_mem hin, Option.some.injEq] at hheld
  rw [hheld] at hdue
  omega

/-- A settlement within its lease changes no row that another run holds. -/
theorem Leased.settled_other (h : Leased d st) (hsound : Sound d st) {r : ℕ} {run : Run}
    {s : Settlement} {fault : Option (ErrorValue × Bool)} (hsettles : Settles (d.relays r) s)
    (hafter : (s.task.record :: unsettled run).Perm (unsettled (st.runs r)))
    (hlease : (perform st.table s.call fault).2.2 = true →
      st.now < st.claimedAt r + d.lease) {r' : ℕ} {rec : OutboxRecord}
    (hlease' : st.now < st.claimedAt r' + d.lease)
    (hrec : rec ∈ unsettled (update st.runs r run r')) :
    (perform st.table s.call fault).1.lookup rec.ID = st.table.lookup rec.ID := by
  refine lookup_perform fun hexecuted call hcall hid => ?_
  have hown : s.task.record.ID = rec.ID := (hsettles.own call hcall).symm.trans hid
  have hmem : s.task.record ∈ unsettled (st.runs r) := hafter.subset mem_cons_self
  by_cases hr : r' = r
  · subst hr
    rw [update_self] at hrec
    have hnodup := (hafter.map OutboxRecord.ID).nodup_iff.mpr
      (unsettled_nodup (hsound.runs r') (hsound.distinct r'))
    rw [map_cons, nodup_cons] at hnodup
    exact hnodup.1 (hown ▸ mem_map_of_mem hrec)
  · rw [update_of_ne hr] at hrec
    exact hr (h.alone r r' (hlease hexecuted) hlease' _ hmem rec hrec hown).symm

theorem mem_unsettled_update {r : ℕ} {run : Run}
    (hsub : ∀ rec ∈ unsettled run, rec ∈ unsettled (st.runs r)) {r' : ℕ} :
    ∀ rec ∈ unsettled (update st.runs r run r'), rec ∈ unsettled (st.runs r') :=
  (forall_update_iff st.runs
    fun r' run => ∀ rec ∈ unsettled run, rec ∈ unsettled (st.runs r')).mpr
      ⟨hsub, fun _ _ _ => id⟩ r'

/-- A claim takes up the rows it picked, which no other run holds. -/
theorem Leased.claimed (h : Leased d st) {r : ℕ} {locked : List (BitVec 128)} {run : Run}
    (hafter : (unsettled run).Perm
      ((st.picks d r locked).map fun row => (row.lease (st.now + d.lease)).record))
    (active : List ℕ) :
    Leased d { st.setRun r run with
      table := claim st.table ((st.picks d r locked).map Row.id) (st.now + d.lease)
      claimedAt := update st.claimedAt r st.now
      active := active } := by
  have hpicked : ∀ rec ∈ unsettled run, ∃ row ∈ st.picks d r locked,
      (row.lease (st.now + d.lease)).record = rec :=
    fun rec hrec => mem_map.mp (hafter.subset hrec)
  have hfresh : ∀ r', st.now < st.claimedAt r' + d.lease → ∀ rec ∈ unsettled run,
      ∀ rec' ∈ unsettled (st.runs r'), rec.ID ≠ rec'.ID := by
    intro r' hlease rec hrec rec' hrec' hid
    obtain ⟨row, hrow, rfl⟩ := hpicked rec hrec
    exact h.not_picked hlease hrec' (mem_map.mpr ⟨row, hrow, hid⟩)
  constructor
  · intro r' hlease rec hrec
    by_cases hr : r' = r
    · subst hr
      simp only [System.setRun, update_self] at hrec hlease ⊢
      obtain ⟨row, hrow, rfl⟩ := hpicked rec hrec
      obtain ⟨hin, _, hpending, _⟩ := mem_picked hrow
      exact ⟨row.lease (st.now + d.lease), lookup_claim_picked hin hrow, hpending, rfl⟩
    · simp only [System.setRun, update_of_ne hr] at hrec hlease ⊢
      obtain ⟨row, hrow, hheld⟩ := h.held r' hlease rec hrec
      exact ⟨row, (lookup_claim_other (h.not_picked hlease hrec)).trans hrow, hheld⟩
  · intro r₁ r₂ hlease₁ hlease₂ rec₁ hrec₁ rec₂ hrec₂ hid
    by_cases hr₁ : r₁ = r
    · by_cases hr₂ : r₂ = r
      · rw [hr₁, hr₂]
      · simp only [System.setRun, hr₁, update_self] at hrec₁
        simp only [System.setRun, update_of_ne hr₂] at hrec₂ hlease₂
        exact absurd hid (hfresh r₂ hlease₂ rec₁ hrec₁ rec₂ hrec₂)
    · simp only [System.setRun, update_of_ne hr₁] at hrec₁ hlease₁
      by_cases hr₂ : r₂ = r
      · simp only [System.setRun, hr₂, update_self] at hrec₂
        exact absurd hid.symm (hfresh r₁ hlease₁ rec₂ hrec₂ rec₁ hrec₁)
      · simp only [System.setRun, update_of_ne hr₂] at hrec₂ hlease₂
        exact h.alone r₁ r₂ hlease₁ hlease₂ rec₁ hrec₁ rec₂ hrec₂ hid

/-- A step that takes up no record keeps the leases, if it keeps the rows of the records that
are unsettled within theirs. -/
theorem Leased.shrink (h : Leased d st) {r : ℕ} {run : Run}
    (hsub : ∀ rec ∈ unsettled run, rec ∈ unsettled (st.runs r)) (table : OutboxRows)
    (htable : ∀ r', st.now < st.claimedAt r' + d.lease →
      ∀ rec ∈ unsettled (update st.runs r run r'),
        table.lookup rec.ID = st.table.lookup rec.ID)
    (active : List ℕ) (history : List Event) :
    Leased d { st.setRun r run with table := table, active := active, history := history } where
  held := fun r' hlease rec hrec => by
    obtain ⟨row, hrow, hheld⟩ := h.held r' hlease rec (mem_unsettled_update hsub rec hrec)
    exact ⟨row, (htable r' hlease rec hrec).trans hrow, hheld⟩
  alone := fun r₁ r₂ hlease₁ hlease₂ rec₁ hrec₁ rec₂ hrec₂ =>
    h.alone r₁ r₂ hlease₁ hlease₂ rec₁ (mem_unsettled_update hsub rec₁ hrec₁) rec₂
      (mem_unsettled_update hsub rec₂ hrec₂)

theorem Leased.effect (h : Leased d st) (hsound : Sound d st) (heffect : Effect d st l st')
    (hlease : ∀ e ∈ st'.history, InLease d.lease e) : Leased d st' := by
  cases heffect with
  | time elapsed =>
    refine ⟨fun r hr => h.held r ?_, fun r r' hr hr' => h.alone r r' ?_ ?_⟩ <;>
      simp only at * <;> omega
  | enqueued rec table htable =>
    refine ⟨fun r hr rec hrec => ?_, h.alone⟩
    obtain ⟨row, hrow, hpending, hnext⟩ := h.held r hr rec hrec
    refine ⟨row, ?_, hpending, hnext⟩
    rw [lookup_insert htable, hrow, Option.some_or]
  | claimed r locked run hl hafter => exact h.claimed hafter _
  | lost r locked run hl hafter =>
    have hsub : ∀ rec ∈ unsettled run, rec ∈ unsettled (st.runs r) := by simp [hafter]
    refine h.shrink hsub _ (fun r' hr' rec hrec => ?_) _ _
    exact lookup_claim_other (h.not_picked hr' (mem_unsettled_update hsub rec hrec))
  | moved r run active hafter =>
    exact h.shrink (fun _ hrec => hafter.subset hrec) st.table (fun _ _ _ _ => rfl) active
      st.history
  | settled r run s fault hsettles hafter =>
    have hnow := hlease _ mem_cons_self
    exact h.shrink (fun rec hrec => hafter.subset (mem_cons_of_mem _ hrec)) _
      (fun r' hr' rec hrec => h.settled_other hsound hsettles hafter hnow hr' hrec) _ _

/-- No step within the leases changes a row that has been delivered. -/
theorem sent_effect (h : Leased d st) (heffect : Effect d st l st')
    (hlease : ∀ e ∈ st'.history, InLease d.lease e) {id : BitVec 128} {row : Row}
    (hrow : st.table.lookup id = some row) (hsent : row.state = .sent) :
    st'.table.lookup id = some row := by
  have hunpicked : ∀ r locked, id ∉ (st.picks d r locked).map Row.id := by
    intro r locked hmem
    obtain ⟨due, hdue, rfl⟩ := mem_map.mp hmem
    obtain ⟨hin, _, hpending, _⟩ := mem_picked hdue
    rw [lookup_of_mem hin, Option.some.injEq] at hrow
    rw [← hrow, hpending] at hsent
    cases hsent
  cases heffect with
  | time elapsed => exact hrow
  | enqueued rec table htable =>
    change table.lookup id = some row
    rw [lookup_insert htable, hrow, Option.some_or]
  | claimed r locked run hl hafter =>
    exact (lookup_claim_other (hunpicked r locked)).trans hrow
  | lost r locked run hl hafter => exact (lookup_claim_other (hunpicked r locked)).trans hrow
  | moved r run active hafter => exact hrow
  | settled r run s fault hsettles hafter =>
    refine (lookup_perform fun hexecuted call hcall hid => ?_).trans hrow
    have hmem : s.task.record ∈ unsettled (st.runs r) := hafter.subset mem_cons_self
    obtain ⟨held, hheld, hpending, _⟩ :=
      h.held r (hlease _ mem_cons_self hexecuted) _ hmem
    rw [← hsettles.own call hcall, hid, hrow, Option.some.injEq] at hheld
    rw [hheld, hpending] at hsent
    cases hsent

theorem effect_history (heffect : Effect d st l st') : ∀ e ∈ st.history, e ∈ st'.history := by
  intro e he
  cases heffect with
  | lost r locked run hl hafter => exact mem_cons_of_mem _ he
  | settled r run s fault hsettles hafter => exact mem_cons_of_mem _ he
  | _ => exact he

/-- The row of every executed MarkSent is there and sent. -/
def Marked (st : System) : Prop :=
  ∀ r s now claimedAt, .settled r s true now claimedAt ∈ st.history →
    ∀ id, s.call = some (.markSent id) →
      ∃ row, st.table.lookup id = some row ∧ row.state = .sent

theorem Marked.effect (h : Marked st) (hleased : Leased d st) (heffect : Effect d st l st')
    (hlease : ∀ e ∈ st'.history, InLease d.lease e) : Marked st' := by
  intro r s now claimedAt hevent id hcall
  have hearlier : .settled r s true now claimedAt ∈ st.history →
      ∃ row, st'.table.lookup id = some row ∧ row.state = .sent := by
    intro he
    obtain ⟨row, hrow, hsent⟩ := h r s now claimedAt he id hcall
    exact ⟨row, sent_effect hleased heffect hlease hrow hsent, hsent⟩
  cases heffect with
  | lost r' locked run hl hafter => exact hearlier (by simpa using hevent)
  | settled r' run s' fault hsettles hafter =>
    rcases mem_cons.mp hevent with hnew | he
    · simp only [Event.settled.injEq] at hnew
      obtain ⟨rfl, rfl, hexecuted, -, -⟩ := hnew
      obtain ⟨row, hrow, _⟩ := hleased.held r (hlease _ mem_cons_self hexecuted.symm) _
        (hafter.subset mem_cons_self)
      obtain ⟨c, hc, htable⟩ := perform_executed hexecuted.symm
      obtain rfl : c = .markSent id := Option.some.inj (hc.symm.trans hcall)
      have hid : id = s.task.record.ID := hsettles.own _ hcall
      rw [← hid] at hrow
      refine ⟨{ row with state := .sent, lastError := "" }, ?_, rfl⟩
      change (perform st.table s.call fault).1.lookup id = _
      rw [htable, lookup_exec, hrow, Option.map_some, setRow, if_pos (lookup_eq_some hrow).2]
      rfl
    · exact hearlier he
  | _ => exact hearlier hevent

/-- The state is sound; if the statements were within their leases, the unsettled records are
leased and the delivered rows are sent. -/
def Reached (d : Deployment) (st : System) : Prop :=
  Sound d st ∧ ((∀ e ∈ st.history, InLease d.lease e) → Leased d st ∧ Marked st)

theorem Reached.step (hbatch : ∀ r, 0 < (d.relays r).SendBatch) (h : Reached d st) (l : Label)
    (hstep : step d st l = some st') : Reached d st' := by
  obtain ⟨heffect, hsound⟩ := step_effect hbatch h.1 hstep
  refine ⟨hsound, fun hlease => ?_⟩
  obtain ⟨hleased, hmarked⟩ := h.2 fun e he => hlease e (effect_history heffect e he)
  exact ⟨hleased.effect h.1 heffect hlease, hmarked.effect hleased heffect hlease⟩

theorem run_reached (hbatch : ∀ r, 0 < (d.relays r).SendBatch) {labels : List Label}
    (hrun : run (step d) initial labels = some st) : Reached d st :=
  run_invariant (Reached d) (fun _ l _ hs => hs.step hbatch l)
    ⟨initial_sound, fun _ => ⟨initial_leased d, by simp [Marked, initial]⟩⟩ hrun

/-- In every run whose statements are executed within the leases of their claims, a row that
has been delivered stays as it is, attempts included: the row of every executed MarkSent has
been. Every id has one row at most. -/
theorem delivered_stays (hvalid : ∀ r, (d.relays r).Validate = none)
    (before after : List Label) (hbefore : run (step d) initial before = some st)
    (hafter : run (step d) st after = some st')
    (hlease : ∀ e ∈ st'.history, InLease d.lease e) :
    (st'.table.rows.map Row.id).Nodup ∧
    (∀ r s now claimedAt, .settled r s true now claimedAt ∈ st.history →
      ∀ id, s.call = some (.markSent id) →
        ∃ row ∈ st.table.rows, row.id = id ∧ row.state = .sent) ∧
    ∀ row ∈ st.table.rows, row.state = .sent → row ∈ st'.table.rows := by
  have hbatch : ∀ r, 0 < (d.relays r).SendBatch := fun r => (validate_positive (hvalid r)).1
  have hstays : Reached d st' ∧ (∀ e ∈ st.history, e ∈ st'.history) ∧
      ((∀ e ∈ st'.history, InLease d.lease e) →
        ∀ id row, st.table.lookup id = some row → row.state = .sent →
          st'.table.lookup id = some row) := by
    refine run_invariant (fun s => Reached d s ∧ (∀ e ∈ st.history, e ∈ s.history) ∧
      ((∀ e ∈ s.history, InLease d.lease e) → ∀ id row, st.table.lookup id = some row →
        row.state = .sent → s.table.lookup id = some row)) ?_
      ⟨run_reached hbatch hbefore, fun _ he => he, fun _ _ _ hrow _ => hrow⟩ hafter
    rintro s l s' ⟨hs, hhistory, hlookup⟩ hstep
    obtain ⟨heffect, _⟩ := step_effect hbatch hs.1 hstep
    refine ⟨hs.step hbatch l hstep, fun e he => effect_history heffect e (hhistory e he), ?_⟩
    intro hlease' id row hrow hsent
    have hearlier : ∀ e ∈ s.history, InLease d.lease e :=
      fun e he => hlease' e (effect_history heffect e he)
    exact sent_effect (hs.2 hearlier).1 heffect hlease' (hlookup hearlier id row hrow hsent) hsent
  refine ⟨st'.table.unique, fun r s now claimedAt he id hcall => ?_, fun row hrow hsent => ?_⟩
  · obtain ⟨row, hrow, hsent⟩ := ((run_reached hbatch hbefore).2
      fun e he => hlease e (hstays.2.1 e he)).2 r s now claimedAt he id hcall
    exact ⟨row, (lookup_eq_some hrow).1, (lookup_eq_some hrow).2, hsent⟩
  · exact (lookup_eq_some (hstays.2.2 hlease row.id row (lookup_of_mem hrow) hsent)).1

/-- A relay claims the one row and marks it sent at once. -/
def promptRelay : List Label :=
  [.enqueue (event 1), .claim 0 [] [event 1], .spawn 0, .sent 0 0 [none],
    .settle 0 0 0 id none]

theorem delivered_stays_prompt :
    ∃ st st', run (step twoAttempts) initial promptRelay = some st ∧
      run (step twoAttempts) st [.finish 0 0, .returns 0, .tick 20] = some st' ∧
      ∃ row ∈ st'.table.rows, row.id = 1 ∧ row.state = .sent := by
  obtain ⟨st, st', s, hst, hst', hevent, hcall, hlease⟩ : ∃ st st' s,
      run (step twoAttempts) initial promptRelay = some st ∧
      run (step twoAttempts) st [.finish 0 0, .returns 0, .tick 20] = some st' ∧
      .settled 0 s true 0 0 ∈ st.history ∧ s.call = some (.markSent 1) ∧
      ∀ e ∈ st'.history, InLease twoAttempts.lease e := by
    refine ⟨_, _, _, rfl, rfl, mem_cons_self, rfl, fun e he => ?_⟩
    cases he with
    | head => exact fun _ => by decide
    | tail _ he => cases he
  obtain ⟨_, hmarked, hstays⟩ := delivered_stays (fun _ => rfl) _ _ hst hst' hlease
  obtain ⟨row, hrow, hid, hsent⟩ := hmarked 0 s 0 0 hevent 1 hcall
  exact ⟨st, st', hst, hst', row, hstays row hrow hsent, hid, hsent⟩

/-- Within the leases a record has one holder and a pending, hidden row. -/
theorem leases_exclusive (hvalid : ∀ r, (d.relays r).Validate = none) (labels : List Label)
    (hrun : run (step d) initial labels = some st)
    (hlease : ∀ e ∈ st.history, InLease d.lease e) : Leased d st :=
  ((run_reached (fun r => (validate_positive (hvalid r)).1) hrun).2 hlease).1

/-- Two relays share three rows; the first has marked one of its two rows sent. -/
def twoRelays : List Label :=
  [.enqueue (event 1), .enqueue (event 2), .enqueue (event 3),
    .claim 0 [3] [event 1, event 2], .claim 1 [] [event 3], .spawn 0, .sent 0 0 [none, none],
    .settle 0 0 0 id none]

theorem twoRelays_leased :
    ∃ st, run (step twoAttempts) initial twoRelays = some st ∧
      unsettled (st.runs 0) = [event 2] ∧ unsettled (st.runs 1) = [event 3] ∧
      st.history.length = 1 ∧ Leased twoAttempts st := by
  refine ⟨_, rfl, rfl, rfl, rfl, leases_exclusive (fun _ => rfl) twoRelays rfl fun e he => ?_⟩
  cases he with
  | head => exact fun _ => by decide
  | tail _ he => cases he

/-- A slow relay claims the row; its lease ends and another relay claims the row too. The
first marks it sent, then the send of the second fails on its last attempt. -/
def slowRelay : List Label :=
  [.enqueue (event 1), .claim 0 [] [event 1], .spawn 0, .tick 10,
    .claim 1 [] [{ event 1 with Attempts := 2 }], .spawn 1, .sent 0 0 [none],
    .settle 0 0 0 id none]

theorem parked_after_sent :
    (run (step twoAttempts) initial slowRelay).map (fun st => st.table.rows.map Row.state) =
      some [.sent] ∧
    (run (step twoAttempts) initial (slowRelay ++
      [.sent 1 0 [some (.new .unavailable "throttled")], .settle 1 0 0 id none])).map
        (fun st => st.table.rows.map Row.state) = some [.parked] := by
  constructor <;> rfl

end KnowledgeEngine.OutboxDelivered
