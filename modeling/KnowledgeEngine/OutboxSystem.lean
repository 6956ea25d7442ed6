import KnowledgeEngine.OutboxTable
import KnowledgeEngine.RelayOutcomes

/-!
Relays over the reference store: any number of RunOnce calls, each with the config of its
relay, over one table. A statement that reports an error to its relay may have been executed.
The history lists the claims whose rows nobody got and the records settled.
-/

namespace KnowledgeEngine.OutboxSystem

open CoreTypes Function List OutboxTable Relay RelayOutcomes RelayRuns

/-- The config of the relay of each RunOnce, and the lease of the store. -/
structure Deployment where
  relays : ℕ → RelayConfig
  lease : ℤ

/-- A settlement says whether its statement was executed, when, and when its record had been
claimed. -/
inductive Event
  | lost (ids : List (BitVec 128))
  | settled (run : ℕ) (s : Settlement) (executed : Bool) (now claimedAt : ℤ)

/-- The database clock and table, the RunOnce calls, the times of their claims, and those
that have claimed and not returned. -/
structure System where
  now : ℤ
  table : OutboxRows
  runs : ℕ → Run
  claimedAt : ℕ → ℤ
  active : List ℕ
  history : List Event

def initial : System where
  now := 0
  table := .empty Row.id
  runs := fun _ => Relay.initial
  claimedAt := fun _ => 0
  active := []
  history := []

/-- A fault is the error a relay gets for a statement, with whether it was executed. -/
inductive Label
  | tick (elapsed : ℕ)
  | enqueue (rec : OutboxRecord)
  | claim (run : ℕ) (locked : List (BitVec 128)) (reply : List OutboxRecord)
  | claimFails (run : ℕ) (locked : List (BitVec 128)) (err : ErrorValue) (executed : Bool)
  | cancel (run : ℕ)
  | spawn (run : ℕ)
  | sent (run worker : ℕ) (results : List (Option ErrorValue))
  | settle (run worker : ℕ) (clock : ℤ) (jitter : ℤ → ℤ) (fault : Option (ErrorValue × Bool))
  | finish (run worker : ℕ)
  | returns (run : ℕ)

/-- The effect of the store call of a settlement: the table, the answer, and whether the
statement was executed. -/
def perform (t : OutboxRows) (call : Option StoreCall) (fault : Option (ErrorValue × Bool)) :
    OutboxRows × Option ErrorValue × Bool :=
  match call, fault with
  | none, _ => (t, none, false)
  | some call, none => ((exec t call).1, (exec t call).2, true)
  | some call, some (err, executed) =>
    (if executed then (exec t call).1 else t, some err, executed)

variable {t : OutboxRows} {call : Option StoreCall} {fault : Option (ErrorValue × Bool)}

theorem perform_executed (h : (perform t call fault).2.2 = true) :
    ∃ c, call = some c ∧ (perform t call fault).1 = (exec t c).1 := by
  unfold perform at h ⊢
  split at h
  · cases h
  · next c => exact ⟨c, rfl, rfl⟩
  · next c err executed =>
    subst h
    exact ⟨c, rfl, rfl⟩

theorem perform_unexecuted (h : (perform t call fault).2.2 = false) :
    (perform t call fault).1 = t := by
  unfold perform at h ⊢
  split at h
  · rfl
  · cases h
  · next c err executed =>
    subst h
    rfl

/-- A row that no executed statement names is as it was. -/
theorem lookup_perform {id : BitVec 128}
    (h : (perform t call fault).2.2 = true → ∀ c, call = some c → c.id ≠ id) :
    (perform t call fault).1.lookup id = t.lookup id := by
  cases hexecuted : (perform t call fault).2.2 with
  | false => rw [perform_unexecuted hexecuted]
  | true =>
    obtain ⟨c, hcall, htable⟩ := perform_executed hexecuted
    rw [htable, lookup_exec_other (h hexecuted c hcall)]

/-- No statement changes a record. -/
theorem lookup_perform_record (t : OutboxRows) (call : Option StoreCall)
    (fault : Option (ErrorValue × Bool)) (id : BitVec 128) :
    ((perform t call fault).1.lookup id).map Row.record = (t.lookup id).map Row.record := by
  cases hexecuted : (perform t call fault).2.2 with
  | false => rw [perform_unexecuted hexecuted]
  | true =>
    obtain ⟨c, _, htable⟩ := perform_executed hexecuted
    rw [htable, lookup_exec, Option.map_map]
    exact congrArg (fun f => (t.lookup id).map f) (funext (setRow_record c))

def System.setRun (st : System) (r : ℕ) (run : Run) : System :=
  { st with runs := update st.runs r run }

/-- The rows a claim of the run picks. -/
def System.picks (d : Deployment) (st : System) (r : ℕ) (locked : List (BitVec 128)) :
    List Row :=
  picked st.table (d.relays r).Lane (d.relays r).BatchSize st.now locked

/-- The run takes a step that does not touch the store. -/
def System.advance (d : Deployment) (st : System) (r : ℕ) (l : Relay.Label) : Option System :=
  (Relay.step (d.relays r) (st.runs r) l).map (st.setRun r)

def step (d : Deployment) (st : System) : Label → Option System
  | .tick elapsed => some { st with now := st.now + elapsed }
  | .enqueue rec => (enqueue st.table rec st.now).map fun table => { st with table := table }
  | .claim r locked reply =>
    let rows := st.picks d r locked
    if reply.isPerm (rows.map fun row => (row.lease (st.now + d.lease)).record) then
      (st.advance d r (.claimed (.ok reply))).map fun st' => { st' with
        table := claim st.table (rows.map Row.id) (st.now + d.lease)
        claimedAt := update st.claimedAt r st.now
        active := r :: st.active }
    else none
  | .claimFails r locked err executed =>
    let ids := (st.picks d r locked).map Row.id
    (st.advance d r (.claimed (.error err))).map fun st' =>
      if executed then { st' with
        table := claim st.table ids (st.now + d.lease)
        history := .lost ids :: st.history }
      else st'
  | .cancel r => st.advance d r .cancel
  | .spawn r => st.advance d r .spawn
  | .sent r i results => st.advance d r (.sent i results)
  | .settle r i clock jitter fault =>
    match (st.runs r).workers[i]? with
    | some (.settling (task :: _) _) =>
      let call := (settlement (d.relays r) (st.runs r).ended clock jitter task none).call
      let answer := perform st.table call fault
      let s := settlement (d.relays r) (st.runs r).ended clock jitter task answer.2.1
      (st.advance d r (.settle i clock jitter answer.2.1)).map fun st' => { st' with
        table := answer.1
        history := .settled r s answer.2.2 st.now (st.claimedAt r) :: st.history }
    | _ => none
  | .finish r i => st.advance d r (.finish i)
  | .returns r =>
    (st.advance d r .returns).map fun st' => { st' with active := st.active.filter (· ≠ r) }

/-- The claimed records a run has not settled. -/
def unsettled (run : Run) : List OutboxRecord :=
  run.workers.flatMap (fun w => w.todo.map Task.record) ++
    (run.workers.flatMap Worker.unsent ++ run.pending.flatten)

section Runs

variable {c : RelayConfig} {run run' : Run}

theorem settled_unsettled (h : Accounted c run) :
    (run.settled.map (fun s => s.task.record) ++ unsettled run).Perm run.batch := by
  have hrecords := h.settled.map Task.record
  simp only [map_append, map_flatMap, map_map, comp_def,
    tasks_record] at hrecords
  have hsent := (hrecords.append_right
    (run.workers.flatMap Worker.unsent ++ run.pending.flatten)).trans
      (by simpa only [append_assoc] using h.sent)
  simpa only [unsettled, append_assoc] using hsent

theorem unsettled_nodup (h : Accounted c run)
    (hdistinct : (run.batch.map OutboxRecord.ID).Nodup) :
    ((unsettled run).map OutboxRecord.ID).Nodup := by
  have hperm := (settled_unsettled h).map OutboxRecord.ID
  rw [map_append] at hperm
  exact (hperm.nodup_iff.mpr hdistinct).sublist (sublist_append_right _ _)

/-- A step that settles nothing. -/
def Quiet : Relay.Label → Prop
  | .claimed _ | .settle _ _ _ _ => False
  | _ => True

theorem quiet_step {l : Relay.Label} (hl : Quiet l) (hstep : Relay.step c run l = some run') :
    run'.claim = run.claim ∧ run'.settled = run.settled := by
  cases moves_of_step hstep with
  | fails | claims | settle => cases hl
  | _ => exact ⟨rfl, rfl⟩

/-- What a step has settled it no longer leaves. -/
theorem settle_unsettled (h : Accounted c run) (h' : Accounted c run') (more : List Settlement)
    (hclaim : run'.claim = run.claim) (hsettled : run'.settled = more ++ run.settled) :
    (more.map (fun s => s.task.record) ++ unsettled run').Perm (unsettled run) := by
  have hbatch : run'.batch = run.batch := by rw [Run.batch, Run.batch, hclaim]
  have hperm := (settled_unsettled h').trans (hbatch ▸ (settled_unsettled h).symm)
  rw [hsettled, map_append, append_assoc] at hperm
  exact (perm_append_left_iff _).mp (perm_append_comm_assoc .. |>.trans hperm)

theorem unclaimed_unsettled (h : Accounted c run) (hclaim : run.claim = none) :
    unsettled run = [] := by
  have hperm := settled_unsettled h
  rw [Run.batch, hclaim] at hperm
  exact (append_eq_nil_iff.mp hperm.eq_nil).2

theorem claimed_step {answer : Except ErrorValue (List OutboxRecord)}
    (hstep : Relay.step c run (.claimed answer) = some run') :
    run.claim = none ∧ run'.claim = some answer ∧ run'.settled = run.settled := by
  cases moves_of_step hstep with
  | fails _ hclaim | claims _ hclaim => exact ⟨hclaim, rfl, rfl⟩

theorem claimed_unsettled (h : Accounted c run) (h' : Accounted c run')
    {recs : List OutboxRecord}
    (hstep : Relay.step c run (.claimed (.ok recs)) = some run') :
    (unsettled run').Perm recs ∧ run'.batch = recs := by
  obtain ⟨hclaim, hclaim', hsettled⟩ := claimed_step hstep
  have hphase := h.phase
  simp only [Phase, hclaim] at hphase
  have hbatch : run'.batch = recs := by rw [Run.batch, hclaim']
  have hperm := settled_unsettled h'
  rw [hsettled, hphase.2.2.2.2.1, map_nil, nil_append, hbatch] at hperm
  exact ⟨hperm, hbatch⟩

theorem failed_unsettled (h' : Accounted c run') {err : ErrorValue}
    (hstep : Relay.step c run (.claimed (.error err)) = some run') :
    unsettled run' = [] ∧ run'.batch = [] := by
  obtain ⟨_, hclaim', _⟩ := claimed_step hstep
  have hbatch : run'.batch = [] := by rw [Run.batch, hclaim']
  have hperm := settled_unsettled h'
  rw [hbatch] at hperm
  exact ⟨(append_eq_nil_iff.mp hperm.eq_nil).2, hbatch⟩

variable {err : Option ErrorValue}

theorem returned_unsettled (h : Accounted c run) (hreturned : run.returned = some err) :
    unsettled run = [] := by
  obtain ⟨hpending, hdone⟩ := returned_idle h hreturned
  rw [unsettled, hpending, flatMap_done _ rfl hdone, flatMap_done _ rfl hdone]
  rfl

theorem returns_step (hstep : Relay.step c run .returns = some run') :
    run'.returned = some run.first := by
  cases moves_of_step hstep
  rfl

theorem settle_step {i : ℕ} {task : Task} {todo : List Task} {errs : List ErrorValue} {now : ℤ}
    {jitter : ℤ → ℤ} (hi : run.workers[i]? = some (.settling (task :: todo) errs))
    (hstep : Relay.step c run (.settle i now jitter err) = some run') :
    run'.claim = run.claim ∧
      run'.settled = [settlement c run.ended now jitter task err] ++ run.settled := by
  simp only [Relay.step, hi] at hstep
  cases hstep
  exact ⟨rfl, rfl⟩

/-- The call of a settlement does not depend on how it ends. -/
theorem settlement_call {ended : Bool} {now : ℤ} {jitter : ℤ → ℤ} {task : Task}
    {err' : Option ErrorValue} :
    (settlement c ended now jitter task err).call =
      (settlement c ended now jitter task err').call := by
  unfold settlement
  split <;> rfl

end Runs

/-- What holds in every reachable state: the runs account for their records, which have
distinct ids, and a run with unsettled records is active. -/
structure Sound (d : Deployment) (st : System) : Prop where
  runs : ∀ r, Accounted (d.relays r) (st.runs r)
  distinct : ∀ r, ((st.runs r).batch.map OutboxRecord.ID).Nodup
  active : ∀ r, unsettled (st.runs r) ≠ [] → r ∈ st.active

def Claims : Label → Prop
  | .claim _ _ _ | .claimFails _ _ _ _ => True
  | _ => False

/-- What a step does: to the clock, to the table, and to the records a run has unsettled. -/
inductive Effect (d : Deployment) (st : System) (l : Label) : System → Prop
  | time (elapsed : ℕ) : Effect d st l { st with now := st.now + elapsed }
  | enqueued (rec : OutboxRecord) (table : OutboxRows)
      (h : enqueue st.table rec st.now = some table) : Effect d st l { st with table := table }
  | claimed (r : ℕ) (locked : List (BitVec 128)) (run : Run) (hl : Claims l)
      (hafter : (unsettled run).Perm
        ((st.picks d r locked).map fun row => (row.lease (st.now + d.lease)).record)) :
      Effect d st l { st.setRun r run with
        table := claim st.table ((st.picks d r locked).map Row.id) (st.now + d.lease)
        claimedAt := update st.claimedAt r st.now
        active := r :: st.active }
  | lost (r : ℕ) (locked : List (BitVec 128)) (run : Run) (hl : Claims l)
      (hafter : unsettled run = []) :
      Effect d st l { st.setRun r run with
        table := claim st.table ((st.picks d r locked).map Row.id) (st.now + d.lease)
        history := .lost ((st.picks d r locked).map Row.id) :: st.history }
  | moved (r : ℕ) (run : Run) (active : List ℕ)
      (hafter : (unsettled run).Perm (unsettled (st.runs r))) :
      Effect d st l { st.setRun r run with active := active }
  | settled (r : ℕ) (run : Run) (s : Settlement) (fault : Option (ErrorValue × Bool))
      (hsettles : Settles (d.relays r) s)
      (hafter : (s.task.record :: unsettled run).Perm (unsettled (st.runs r))) :
      Effect d st l { st.setRun r run with
        table := (perform st.table s.call fault).1
        history := .settled r s (perform st.table s.call fault).2.2 st.now (st.claimedAt r) ::
          st.history }

variable {d : Deployment} {st st' : System}

theorem initial_sound : Sound d initial where
  runs := fun _ => initial_accounted
  distinct := fun _ => nodup_nil
  active := fun _ h => absurd rfl h

/-- A run that steps keeps the state sound, if its batch has distinct ids and it is active
while it has unsettled records. -/
theorem Sound.setRun (h : Sound d st) (r : ℕ) (run : Run) (active : List ℕ)
    (hrun : Accounted (d.relays r) run) (hdistinct : (run.batch.map OutboxRecord.ID).Nodup)
    (hactive : unsettled run ≠ [] → r ∈ active)
    (hothers : ∀ r', r' ≠ r → r' ∈ st.active → r' ∈ active) (table : OutboxRows)
    (claimedAt : ℕ → ℤ) (history : List Event) :
    Sound d { st.setRun r run with
      table := table, claimedAt := claimedAt, active := active, history := history } where
  runs := (forall_update_iff st.runs fun r run => Accounted (d.relays r) run).mpr
    ⟨hrun, fun r' _ => h.runs r'⟩
  distinct := (forall_update_iff st.runs
    fun _ run => (run.batch.map OutboxRecord.ID).Nodup).mpr ⟨hdistinct, fun r' _ => h.distinct r'⟩
  active := (forall_update_iff st.runs fun r' run => unsettled run ≠ [] → r' ∈ active).mpr
    ⟨hactive, fun r' hne hopen => hothers r' hne (h.active r' hopen)⟩

theorem picks_nodup {r : ℕ} {locked : List (BitVec 128)} {expiry : ℤ} :
    (((st.picks d r locked).map fun row => (row.lease expiry).record).map
      OutboxRecord.ID).Nodup := by
  rw [map_map]
  exact picked_nodup

/-- A step that touches neither the store nor the settlements of its run. -/
theorem advance_effect (hbatch : ∀ r, 0 < (d.relays r).SendBatch) (h : Sound d st) (r : ℕ)
    (l : Relay.Label) (hl : Quiet l) (hstep : st.advance d r l = some st') (label : Label) :
    Effect d st label st' ∧ Sound d st' := by
  obtain ⟨run, hrun, rfl⟩ := Option.map_eq_some_iff.mp hstep
  obtain ⟨hclaim, hsettled⟩ := quiet_step hl hrun
  have haccounted := (h.runs r).step (hbatch r) l hrun
  have hperm := settle_unsettled (h.runs r) haccounted [] hclaim hsettled
  refine ⟨.moved r run st.active hperm, h.setRun r run st.active haccounted ?_ ?_
    (fun _ _ hactive => hactive) st.table st.claimedAt st.history⟩
  · rw [Run.batch, hclaim]
    exact h.distinct r
  · intro hopen
    exact h.active r fun hnil => hopen (perm_nil.mp (hnil ▸ hperm))

theorem step_effect (hbatch : ∀ r, 0 < (d.relays r).SendBatch) (h : Sound d st) {l : Label}
    (hstep : step d st l = some st') : Effect d st l st' ∧ Sound d st' := by
  cases l with
  | tick elapsed =>
    cases hstep
    exact ⟨.time elapsed, h.runs, h.distinct, h.active⟩
  | enqueue rec =>
    obtain ⟨table, htable, rfl⟩ := Option.map_eq_some_iff.mp hstep
    exact ⟨.enqueued rec table htable, h.runs, h.distinct, h.active⟩
  | claim r locked reply =>
    simp only [step] at hstep
    split at hstep
    · next hreply =>
      simp only [System.advance, Option.map_map, Option.map_eq_some_iff] at hstep
      obtain ⟨run, hrun, rfl⟩ := hstep
      have haccounted := (h.runs r).step (hbatch r) _ hrun
      obtain ⟨hafter, hrecs⟩ := claimed_unsettled (h.runs r) haccounted hrun
      have hperm := isPerm_iff.mp hreply
      refine ⟨.claimed r locked run trivial (hafter.trans hperm),
        h.setRun r run _ haccounted ?_ (fun _ => mem_cons_self)
          (fun _ _ => mem_cons_of_mem r) _ _ st.history⟩
      rw [hrecs]
      exact (hperm.map OutboxRecord.ID).nodup_iff.mpr picks_nodup
    · cases hstep
  | claimFails r locked err executed =>
    simp only [step, System.advance, Option.map_map, Option.map_eq_some_iff] at hstep
    obtain ⟨run, hrun, rfl⟩ := hstep
    have haccounted := (h.runs r).step (hbatch r) _ hrun
    obtain ⟨hafter, hrecs⟩ := failed_unsettled haccounted hrun
    have hsound := h.setRun r run st.active haccounted (by rw [hrecs]; exact nodup_nil)
      (fun hopen => absurd hafter hopen) (fun _ _ hactive => hactive)
    have hbefore := unclaimed_unsettled (h.runs r) (claimed_step hrun).1
    cases executed with
    | true => exact ⟨.lost r locked run trivial hafter, hsound _ st.claimedAt _⟩
    | false =>
      exact ⟨.moved r run st.active (by rw [hafter, hbefore]), hsound _ st.claimedAt _⟩
  | cancel r => exact advance_effect hbatch h r .cancel trivial hstep _
  | spawn r => exact advance_effect hbatch h r .spawn trivial hstep _
  | sent r i results => exact advance_effect hbatch h r (.sent i results) trivial hstep _
  | finish r i => exact advance_effect hbatch h r (.finish i) trivial hstep _
  | settle r i clock jitter fault =>
    simp only [step] at hstep
    split at hstep
    · next task todo errs hi =>
      generalize hanswer : perform st.table (settlement (d.relays r) (st.runs r).ended clock
        jitter task none).call fault = answer at hstep
      simp only [System.advance, Option.map_map, Option.map_eq_some_iff] at hstep
      obtain ⟨run, hrun, rfl⟩ := hstep
      rw [settlement_call] at hanswer
      have haccounted := (h.runs r).step (hbatch r) _ hrun
      obtain ⟨hclaim, hsettled⟩ := settle_step hi hrun
      have hafter := settle_unsettled (h.runs r) haccounted _ hclaim hsettled
      have heffect : Effect d st (.settle r i clock jitter fault) _ := .settled r run _ fault
        settlement_settles hafter
      rw [hanswer] at heffect
      refine ⟨heffect, h.setRun r run st.active haccounted ?_ ?_
        (fun _ _ hactive => hactive) _ st.claimedAt _⟩
      · rw [Run.batch, hclaim]
        exact h.distinct r
      · exact fun _ => h.active r fun hnil => cons_ne_nil _ _ (hnil ▸ hafter).eq_nil
    · cases hstep
  | returns r =>
    simp only [step, System.advance, Option.map_map, Option.map_eq_some_iff] at hstep
    obtain ⟨run, hrun, rfl⟩ := hstep
    have haccounted := (h.runs r).step (hbatch r) _ hrun
    obtain ⟨hclaim, hsettled⟩ := quiet_step (l := .returns) trivial hrun
    refine ⟨.moved r run _ (settle_unsettled (h.runs r) haccounted [] hclaim hsettled),
      h.setRun r run _ haccounted ?_
        (fun hopen => absurd (returned_unsettled haccounted (returns_step hrun)) hopen) ?_
        st.table st.claimedAt st.history⟩
    · rw [Run.batch, hclaim]
      exact h.distinct r
    · intro r' hne hactive
      exact mem_filter.mpr ⟨hactive, by simpa using hne⟩

/-- Relays of the lane events that park on the second attempt, with a lease of ten. -/
def twoAttempts : Deployment where
  relays := fun _ => { DefaultRelayConfig "events" with MaxAttempts := 2 }
  lease := 10

end KnowledgeEngine.OutboxSystem
