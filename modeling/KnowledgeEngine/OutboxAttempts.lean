import KnowledgeEngine.OutboxSystem

/-!
Attempts of a record over a sequence of RunOnce calls. Claim counts an attempt before the
record is sent, so besides the failed sends the count has the interrupted ones, the delivered
ones that were not recorded, and the claims whose records nobody got.
-/

namespace KnowledgeEngine.OutboxAttempts

open CoreTypes Function KeyedTable OutboxSystem OutboxTable RelayOutcomes RelayRuns Transitions
open Relay hiding initial step Label

/-- One RunOnce at a time: it claims when no other is active. -/
def sequentialStep (d : Deployment) (st : System) (l : Label) : Option System :=
  match l with
  | .claim _ _ _ | .claimFails _ _ _ _ => if st.active = [] then step d st l else none
  | _ => step d st l

theorem sequential_step {d : Deployment} {st st' : System} {l : Label}
    (h : sequentialStep d st l = some st') :
    step d st l = some st' ∧ (Claims l → st.active = []) := by
  unfold sequentialStep at h
  split at h
  · split at h
    · next hactive => exact ⟨h, fun _ => hactive⟩
    · cases h
  · split at h
    · next hactive => exact ⟨h, fun _ => hactive⟩
    · cases h
  · next hclaim hfails =>
    refine ⟨h, fun hl => ?_⟩
    cases l with
    | claim r locked reply => exact absurd rfl (hclaim r locked reply)
    | claimFails r locked err executed => exact absurd rfl (hfails r locked err executed)
    | _ => cases hl

/-- A send of the record failed, and was not interrupted. -/
def fails (id : BitVec 128) : Event → Bool
  | .lost _ => false
  | .settled _ s _ _ _ => s.task.record.ID = id && s.task.sendErr.isSome &&
      !interrupted s.ended s.task.sendErr

/-- An attempt of the record that was counted and was no failed send. -/
def wastes (id : BitVec 128) : Event → Bool
  | .lost ids => ids.contains id
  | .settled _ s executed _ _ => s.task.record.ID = id &&
      (interrupted s.ended s.task.sendErr || (s.task.sendErr.isNone && !executed))

def failures (history : List Event) (id : BitVec 128) : ℕ := history.countP (fails id)

def wasted (history : List Event) (id : BitVec 128) : ℕ := history.countP (wastes id)

/-- The attempts a record may have had. -/
def spent (history : List Event) (id : BitVec 128) : ℤ :=
  failures history id + wasted history id

theorem spent_cons (e : Event) (history : List Event) (id : BitVec 128) :
    spent history id ≤ spent (e :: history) id := by
  simp only [spent, failures, wasted, List.countP_cons]
  omega

theorem spent_succ (e : Event) (history : List Event) (id : BitVec 128)
    (h : fails id e = true ∨ wastes id e = true) :
    spent history id + 1 ≤ spent (e :: history) id := by
  simp only [spent, failures, wasted, List.countP_cons]
  rcases h with h | h
  · rw [if_pos h]
    omega
  · rw [if_pos h]
    omega

/-- An unsettled record has the attempts of its row, at most one more than are spent. -/
def Held (table : OutboxRows) (history : List Event) (rec : OutboxRecord) : Prop :=
  rec.Attempts ≤ spent history rec.ID + 1 ∧
    ∃ row, table.lookup rec.ID = some row ∧ row.record.Attempts = rec.Attempts

theorem Held.settled {t : OutboxRows} {history : List Event} {rec : OutboxRecord}
    (h : Held t history rec) (call : Option StoreCall) (fault : Option (ErrorValue × Bool))
    (e : Event) : Held (perform t call fault).1 (e :: history) rec := by
  obtain ⟨hspent, row, hrow, hattempts⟩ := h
  have hrecord := lookup_perform_record t call fault rec.ID
  rw [hrow, Option.map_some, Option.map_eq_some_iff] at hrecord
  obtain ⟨row', hrow', hsame⟩ := hrecord
  refine ⟨hspent.trans (Int.add_le_add_right (spent_cons e history rec.ID) 1), row', hrow', ?_⟩
  rw [hsame, hattempts]

/-- A pending row without an unsettled record has no more attempts than are spent, and neither
had a record that was parked on its last attempt. -/
structure Counted (d : Deployment) (st : System) : Prop where
  held : ∀ r, ∀ rec ∈ unsettled (st.runs r), Held st.table st.history rec
  idle : ∀ id row, st.table.lookup id = some row → row.state = .pending →
    (∀ r, ∀ rec ∈ unsettled (st.runs r), rec.ID ≠ id) →
      row.record.Attempts ≤ spent st.history id
  parked : ∀ r s executed now claimedAt, Event.settled r s executed now claimedAt ∈ st.history →
    ∀ text, s.call = some (.park s.task.record.ID text) →
      (d.relays r).MaxAttempts ≤ s.task.record.Attempts →
        (d.relays r).MaxAttempts ≤ spent st.history s.task.record.ID

variable {d : Deployment} {st st' : System} {l : Label}

theorem initial_counted (d : Deployment) : Counted d initial where
  held := by simp [initial, unsettled, Relay.initial]
  idle := by simp [initial, Table.lookup, Table.empty]
  parked := by simp [initial]

/-- No run has an unsettled record when a run claims. -/
theorem unsettled_nil (hsound : Sound d st) (hactive : st.active = []) {r : ℕ} :
    unsettled (st.runs r) = [] := by
  by_contra hopen
  have hmem := hsound.active r hopen
  rw [hactive] at hmem
  cases hmem

theorem Counted.enqueued (h : Counted d st) (rec : OutboxRecord) {table : OutboxRows}
    (htable : enqueue st.table rec st.now = some table) :
    Counted d { st with table := table } where
  held := fun r rec' hrec => by
    obtain ⟨hspent, row, hrow, hattempts⟩ := h.held r rec' hrec
    refine ⟨hspent, row, ?_, hattempts⟩
    change table.lookup rec'.ID = some row
    rw [lookup_insert htable, hrow, Option.some_or]
  idle := fun id row hrow hpending hnone => by
    change table.lookup id = some row at hrow
    rw [lookup_insert htable] at hrow
    cases hold : st.table.lookup id with
    | some old =>
      rw [hold, Option.some_or, Option.some.injEq] at hrow
      exact h.idle id row (hrow ▸ hold) hpending hnone
    | none =>
      rw [hold, Option.none_or] at hrow
      split at hrow <;> cases hrow
      exact Int.add_nonneg (Int.natCast_nonneg _) (Int.natCast_nonneg _)
  parked := h.parked

/-- A claim takes one attempt of each of its rows, which have none unsettled. -/
theorem Counted.claimed (h : Counted d st) (hsound : Sound d st) (hactive : st.active = [])
    {r : ℕ} {locked : List (BitVec 128)} {run : Run}
    (hafter : (unsettled run).Perm
      ((st.picks d r locked).map fun row => (row.lease (st.now + d.lease)).record)) :
    Counted d { st.setRun r run with
      table := claim st.table ((st.picks d r locked).map Row.id) (st.now + d.lease)
      claimedAt := update st.claimedAt r st.now
      active := r :: st.active } where
  held := by
    refine (forall_update_iff st.runs fun _ run => ∀ rec ∈ unsettled run,
      Held (claim st.table ((st.picks d r locked).map Row.id) (st.now + d.lease))
        st.history rec).mpr ⟨fun rec hrec => ?_, fun r' _ rec hrec => ?_⟩
    · obtain ⟨row, hrow, rfl⟩ := List.mem_map.mp (hafter.subset hrec)
      obtain ⟨hin, _, hpending, _⟩ := mem_picked hrow
      have hspent := h.idle row.id row (lookup_of_mem hin) hpending fun r' rec hrec => by
        rw [unsettled_nil hsound hactive] at hrec
        cases hrec
      refine ⟨?_, row.lease (st.now + d.lease), lookup_claim_picked hin hrow, rfl⟩
      change row.record.Attempts + 1 ≤ spent st.history row.id + 1
      omega
    · rw [unsettled_nil hsound hactive] at hrec
      cases hrec
  idle := fun id row hrow hpending hnone => by
    have hunpicked : id ∉ (st.picks d r locked).map Row.id := by
      intro hmem
      obtain ⟨due, hdue, hid⟩ := List.mem_map.mp hmem
      have hrec := hafter.symm.subset (List.mem_map_of_mem hdue)
      have hself := hnone r (due.lease (st.now + d.lease)).record
      simp only [System.setRun, update_self] at hself
      exact hself hrec hid
    refine h.idle id row ((lookup_claim_other hunpicked).symm.trans hrow) hpending ?_
    intro r' rec hrec
    rw [unsettled_nil hsound hactive] at hrec
    cases hrec
  parked := h.parked

/-- A claim whose records nobody got wastes an attempt of each of its rows. -/
theorem Counted.lost (h : Counted d st) (hsound : Sound d st) (hactive : st.active = [])
    {r : ℕ} {locked : List (BitVec 128)} {run : Run} (hafter : unsettled run = []) :
    Counted d { st.setRun r run with
      table := claim st.table ((st.picks d r locked).map Row.id) (st.now + d.lease)
      history := .lost ((st.picks d r locked).map Row.id) :: st.history } where
  held := (forall_update_iff st.runs fun _ run => ∀ rec ∈ unsettled run,
      Held (claim st.table ((st.picks d r locked).map Row.id) (st.now + d.lease)) _ rec).mpr
    ⟨by simp [hafter], fun r' _ => by simp [unsettled_nil hsound hactive]⟩
  idle := fun id row hrow hpending _ => by
    have hnone : ∀ r', ∀ rec ∈ unsettled (st.runs r'), rec.ID ≠ id := fun r' => by
      simp [unsettled_nil hsound hactive]
    change (claim st.table ((st.picks d r locked).map Row.id) (st.now + d.lease)).lookup id =
      some row at hrow
    rw [lookup_claim, Option.map_eq_some_iff] at hrow
    obtain ⟨old, hold, rfl⟩ := hrow
    unfold leaseRows at hpending ⊢
    split
    · next hpicked =>
      have hid : id ∈ (st.picks d r locked).map Row.id := (lookup_eq_some hold).2 ▸ hpicked
      rw [if_pos hpicked] at hpending
      have hspent := h.idle id old hold hpending hnone
      have hone := spent_succ (.lost ((st.picks d r locked).map Row.id)) st.history id
        (.inr (by simpa [wastes] using hid))
      exact (Int.add_le_add_right hspent 1).trans hone
    · next hpicked =>
      rw [if_neg hpicked] at hpending
      exact (h.idle id old hold hpending hnone).trans (spent_cons _ _ _)
  parked := by
    intro r' s executed now claimedAt hevent text hpark hmax
    rcases List.mem_cons.mp hevent with hevent | hevent
    · cases hevent
    · exact (h.parked r' s executed now claimedAt hevent text hpark hmax).trans
        (spent_cons _ _ _)

theorem Counted.moved (h : Counted d st) {r : ℕ} {run : Run} (active : List ℕ)
    (hafter : (unsettled run).Perm (unsettled (st.runs r))) :
    Counted d { st.setRun r run with active := active } where
  held := (forall_update_iff st.runs fun _ run => ∀ rec ∈ unsettled run,
      Held st.table st.history rec).mpr
    ⟨fun rec hrec => h.held r rec (hafter.subset hrec), fun r' _ => h.held r'⟩
  idle := fun id row hrow hpending hnone => by
    refine h.idle id row hrow hpending ?_
    have hrun := (forall_update_iff st.runs
      fun _ run => ∀ rec ∈ unsettled run, rec.ID ≠ id).mp hnone
    intro r'
    by_cases hr : r' = r
    · subst hr
      exact fun rec hrec => hrun.1 rec (hafter.symm.subset hrec)
    · exact hrun.2 r' hr
  parked := h.parked

/-- A settlement spends the attempt of its record, unless it marks the row sent. -/
theorem settled_spent {r : ℕ} {s : Settlement} (hsettles : Settles (d.relays r) s) {t : OutboxRows}
    {fault : Option (ErrorValue × Bool)} (now claimedAt : ℤ) {row : Row}
    (hrow : (perform t s.call fault).1.lookup s.task.record.ID = some row)
    (hpending : row.state = .pending) (history : List Event) :
    spent history s.task.record.ID + 1 ≤
      spent (.settled r s (perform t s.call fault).2.2 now claimedAt :: history)
        s.task.record.ID := by
  refine spent_succ _ _ _ ?_
  simp only [fails, wastes, decide_true, Bool.true_and]
  cases hinterrupted : interrupted s.ended s.task.sendErr with
  | true => exact .inr rfl
  | false =>
    cases herr : s.task.sendErr with
    | some err => exact .inl rfl
    | none =>
      rw [hsettles.sent.mpr herr] at hrow ⊢
      cases hexecuted : (perform t (some (.markSent s.task.record.ID)) fault).2.2 with
      | false => exact .inr rfl
      | true =>
        obtain ⟨c, hcall, htable⟩ := perform_executed hexecuted
        cases hcall
        rw [htable, lookup_exec, Option.map_eq_some_iff] at hrow
        obtain ⟨old, hold, rfl⟩ := hrow
        rw [setRow, if_pos (lookup_eq_some hold).2] at hpending
        cases hpending

theorem Counted.settled (h : Counted d st) {r : ℕ} {run : Run} {s : Settlement}
    (fault : Option (ErrorValue × Bool)) (hsettles : Settles (d.relays r) s)
    (hafter : (s.task.record :: unsettled run).Perm (unsettled (st.runs r))) :
    Counted d { st.setRun r run with
      table := (perform st.table s.call fault).1
      history := .settled r s (perform st.table s.call fault).2.2 st.now (st.claimedAt r) ::
        st.history } := by
  have hmem : s.task.record ∈ unsettled (st.runs r) := hafter.subset List.mem_cons_self
  obtain ⟨hspent, old, hold, hattempts⟩ := h.held r _ hmem
  refine ⟨?_, fun id row hrow hpending hnone => ?_, ?_⟩
  · refine (forall_update_iff st.runs fun _ run => ∀ rec ∈ unsettled run,
      Held (perform st.table s.call fault).1 _ rec).mpr
      ⟨fun rec hrec => ?_, fun r' _ rec hrec => ?_⟩
    · exact (h.held r rec (hafter.subset (List.mem_cons_of_mem _ hrec))).settled _ _ _
    · exact (h.held r' rec hrec).settled _ _ _
  · change (perform st.table s.call fault).1.lookup id = some row at hrow
    by_cases hid : id = s.task.record.ID
    · subst hid
      have hone := settled_spent hsettles st.now (st.claimedAt r) hrow hpending st.history
      have hrecord := lookup_perform_record st.table s.call fault s.task.record.ID
      rw [hrow, hold, Option.map_some, Option.map_some, Option.some.injEq] at hrecord
      rw [hrecord, hattempts]
      exact hspent.trans hone
    · have hother : ∀ c, s.call = some c → c.id ≠ id :=
        fun c hc heq => hid (heq.symm.trans (hsettles.own c hc))
      rw [lookup_perform fun _ => hother] at hrow
      have hrun := (forall_update_iff st.runs
        fun _ run => ∀ rec ∈ unsettled run, rec.ID ≠ id).mp hnone
      refine (h.idle id row hrow hpending fun r' => ?_).trans (spent_cons _ _ _)
      by_cases hr : r' = r
      · subst hr
        intro rec hrec
        rcases List.mem_cons.mp (hafter.symm.subset hrec) with rfl | hrec
        · exact Ne.symm hid
        · exact hrun.1 rec hrec
      · exact hrun.2 r' hr
  · intro r' s' executed now claimedAt hevent text hpark hmax
    rcases List.mem_cons.mp hevent with hevent | hevent
    · cases hevent
      obtain ⟨err, herr, hinterrupted, _⟩ := (hsettles.parked text).mp hpark
      have hone := spent_succ (.settled r s (perform st.table s.call fault).2.2 st.now
        (st.claimedAt r)) st.history s.task.record.ID
        (.inl (by simpa [fails, herr, interrupted, imp_iff_not_or] using hinterrupted))
      exact (hmax.trans hspent).trans hone
    · exact (h.parked r' s' executed now claimedAt hevent text hpark hmax).trans
        (spent_cons _ _ _)

theorem Counted.effect (h : Counted d st) (hsound : Sound d st)
    (hclaims : Claims l → st.active = []) (heffect : Effect d st l st') : Counted d st' := by
  cases heffect with
  | time elapsed => exact ⟨h.held, h.idle, h.parked⟩
  | enqueued rec table htable => exact h.enqueued rec htable
  | claimed r locked run hl hafter => exact h.claimed hsound (hclaims hl) hafter
  | lost r locked run hl hafter => exact h.lost hsound (hclaims hl) hafter
  | moved r run active hafter => exact h.moved active hafter
  | settled r run s fault hsettles hafter => exact h.settled fault hsettles hafter

/-- Over any sequence of RunOnce calls, a record that is parked on its last attempt, and none
of whose attempts was interrupted, delivered without record or lost at its claim, has had as
many failed sends as the relay allows attempts. -/
theorem exhausted_failures (hvalid : ∀ r, (d.relays r).Validate = none) (labels : List Label)
    (hrun : run (sequentialStep d) initial labels = some st) (r : ℕ) (s : Settlement)
    (executed : Bool) (now claimedAt : ℤ)
    (hevent : Event.settled r s executed now claimedAt ∈ st.history) (text : String)
    (hpark : s.call = some (.park s.task.record.ID text))
    (hexhausted : (d.relays r).MaxAttempts ≤ s.task.record.Attempts)
    (hwasted : ∀ e ∈ st.history, wastes s.task.record.ID e = false) :
    (d.relays r).MaxAttempts ≤ failures st.history s.task.record.ID := by
  have hbatch : ∀ r, 0 < (d.relays r).SendBatch := fun r => (validate_positive (hvalid r)).1
  have hcounted : Sound d st ∧ Counted d st := by
    refine run_invariant (fun st => Sound d st ∧ Counted d st) ?_
      ⟨initial_sound, initial_counted d⟩ hrun
    rintro s l s' ⟨hsound, hcounted⟩ hstep
    obtain ⟨hstep, hclaims⟩ := sequential_step hstep
    obtain ⟨heffect, hsound'⟩ := step_effect hbatch hsound hstep
    exact ⟨hsound', hcounted.effect hsound hclaims heffect⟩
  have hnone : wasted st.history s.task.record.ID = 0 :=
    List.countP_eq_zero.mpr fun e he => by simp [hwasted e he]
  have hspent := hcounted.2.parked r s executed now claimedAt hevent text hpark hexhausted
  rw [spent, hnone] at hspent
  simpa using hspent

def throttled : ErrorValue := .new .unavailable "throttled"

/-- Two runs whose sends of the one record fail; the second parks it. -/
def failingRuns : List Label :=
  [.enqueue (event 1), .claim 0 [] [event 1], .spawn 0, .sent 0 0 [some throttled],
    .settle 0 0 0 (fun _ => 0) none, .finish 0 0, .returns 0,
    .claim 1 [] [{ event 1 with Attempts := 2 }], .spawn 1, .sent 1 0 [some throttled],
    .settle 1 0 0 id none]

theorem exhausted_failures_twice :
    ∃ st, run (sequentialStep twoAttempts) initial failingRuns = some st ∧
      2 ≤ (failures st.history 1 : ℤ) := by
  refine ⟨_, rfl, ?_⟩
  refine exhausted_failures (d := twoAttempts) (fun _ => rfl) failingRuns rfl 1
    (settlement (twoAttempts.relays 1) false 0 id
      ⟨{ event 1 with Attempts := 2 }, some throttled, false⟩ none)
    true 0 0 List.mem_cons_self throttled.text rfl (by decide) fun e he => ?_
  cases he with
  | head => rfl
  | tail _ he =>
    cases he with
    | head => rfl
    | tail _ he => cases he

/-- The first run is interrupted while it sends; the second parks the record on its only
failed send. -/
theorem parked_after_interruption :
    (run (sequentialStep twoAttempts) initial
      [.enqueue (event 1), .claim 0 [] [event 1], .spawn 0, .cancel 0,
        .sent 0 0 [some ⟨.unknown, true, "context canceled"⟩], .settle 0 0 0 id none,
        .finish 0 0, .returns 0, .tick 10, .claim 1 [] [{ event 1 with Attempts := 2 }],
        .spawn 1, .sent 1 0 [some throttled], .settle 1 0 0 id none]).map
      (fun st => (st.table.rows.map Row.state, failures st.history 1)) =
      some ([.parked], 1) := rfl

end KnowledgeEngine.OutboxAttempts
