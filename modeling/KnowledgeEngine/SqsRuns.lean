import KnowledgeEngine.SqsSink
import Mathlib.Data.List.Dedup

/-!
Runs of one Send of the SQS sink, over every interleaving of its goroutines. The invariant
of a run says which slots each worker has written and which batches it has requested; a
worker writes only its own queue's slots, so the others' order is irrelevant.
-/

namespace KnowledgeEngine.SqsRuns

open Chunks CoreTypes Function List SqsSink

section Groups

variable {call : Call} {queue : String}

theorem mem_group {i : ℕ} :
    i ∈ group call queue ↔
      ∃ rec, call.recs[i]? = some rec ∧ route call rec = .ok queue := by
  have hroute : ∀ rec, (route call rec).toOption = some queue ↔ route call rec = .ok queue := by
    intro rec
    cases route call rec <;> simp [Except.toOption]
  simp only [group, mem_map, mem_filter, Prod.exists, mem_zipIdx_iff_getElem?,
    decide_eq_true_eq, hroute]
  constructor
  · rintro ⟨rec, j, ⟨hrec, hqueue⟩, rfl⟩
    exact ⟨rec, hrec, hqueue⟩
  · rintro ⟨rec, hrec, hqueue⟩
    exact ⟨rec, i, ⟨hrec, hqueue⟩, rfl⟩

/-- The records of a queue stand in its group once each and in order. -/
theorem group_sorted : (group call queue).Pairwise (· < ·) := by
  have hsub : (group call queue).Sublist (List.range' 0 call.recs.length) := by
    rw [← zipIdx_map_snd 0 call.recs]
    exact filter_sublist.map Prod.snd
  exact List.Pairwise.sublist hsub pairwise_lt_range'

theorem group_nodup : (group call queue).Nodup :=
  (group_sorted).imp Nat.ne_of_lt

theorem parts_flatten : (parts call queue).flatten = group call queue :=
  chunks_flatten maxBatch (by decide) _

theorem parts_nodup : (parts call queue).flatten.Nodup := parts_flatten ▸ group_nodup

theorem mem_parts {part : List ℕ} (h : part ∈ parts call queue) :
    part.length ≤ maxBatch ∧ part.Nodup ∧ ∀ i ∈ part, i ∈ group call queue := by
  exact ⟨(mem_chunks maxBatch (by decide) _ part h).2,
    (nodup_flatten.mp parts_nodup).1 part h,
    mem_of_mem_chunk maxBatch (by decide) _ part h⟩

/-- Different queues have different records. -/
theorem group_disjoint {queue other : String} {i : ℕ} (hi : i ∈ group call queue)
    (hother : i ∈ group call other) : queue = other := by
  obtain ⟨rec, hrec, hroute⟩ := (mem_group).mp hi
  obtain ⟨rec', hrec', hroute'⟩ := (mem_group).mp hother
  obtain rfl : rec = rec' := Option.some.inj (hrec.symm.trans hrec')
  exact Except.ok.inj (hroute.symm.trans hroute')

theorem mem_queues : queue ∈ queues call ↔ ∃ rec ∈ call.recs, route call rec = .ok queue := by
  rw [queues, mem_dedup, mem_filterMap]
  refine exists_congr fun rec => and_congr_right fun _ => ?_
  cases route call rec <;> simp [Except.toOption]

end Groups

section Runs

variable (call : Call) (answers : Answers)

/-- The slots a batch writes. -/
def batchWrites (queue : String) (batch : List ℕ × ℕ) : List (ℕ × Option ErrorValue) :=
  batch.1.zip (sendBatch (answers.SendMessageBatch queue batch.2) batch.1.length)

/-- The slots the first n batches of a queue write. -/
def sentWrites (queue : String) (n : ℕ) : List (ℕ × Option ErrorValue) :=
  ((parts call queue).zipIdx.take n).flatMap (batchWrites answers queue)

/-- The slots a queue's goroutine writes in all. -/
def allWrites (queue : String) : List (ℕ × Option ErrorValue) :=
  match queueURL answers queue with
  | .error err => (group call queue).map fun i => (i, some err)
  | .ok _ => sentWrites call answers queue (parts call queue).length

def workerWrites (queue : String) : Worker → List (ℕ × Option ErrorValue)
  | .resolving => []
  | .sending _ n => sentWrites call answers queue n
  | .done => allWrites call answers queue

def plannedRequests (queue url : String) (n : ℕ) : List Request :=
  ((parts call queue).zipIdx.take n).map fun (part, n) => request call queue url n part

def workerRequests (queue : String) : Worker → List Request
  | .resolving => []
  | .sending url n => plannedRequests call queue url n
  | .done =>
    match queueURL answers queue with
    | .error _ => []
    | .ok url => plannedRequests call queue url (parts call queue).length

/-- What holds whenever some of the goroutines have taken some of their steps. -/
structure Invariant (st : State) : Prop where
  length : st.results.length = call.recs.length
  unrouted : ∀ (i : ℕ) rec err, call.recs[i]? = some rec → route call rec = .error err →
    st.results[i]? = some (some err)
  written : ∀ queue, ∀ w ∈ workerWrites call answers queue (st.workers queue),
    st.results[w.1]? = some w.2
  resolved : ∀ queue url n, st.workers queue = .sending url n → queueURL answers queue = .ok url
  requested : ∀ queue, st.requests.filter (fun r => r.queue = queue) =
    workerRequests call answers queue (st.workers queue)

variable {call answers} {queue : String}

theorem batchWrites_keys {batch : List ℕ × ℕ} :
    (batchWrites answers queue batch).map Prod.fst = batch.1 := by
  rw [batchWrites]
  exact map_fst_zip (Nat.le_of_eq sendBatch_length.symm)

variable {n : ℕ}

theorem sentWrites_keys :
    (sentWrites call answers queue n).map Prod.fst =
      ((parts call queue).take n).flatten := by
  rw [sentWrites, map_flatMap, flatMap_def]
  simp only [batchWrites_keys]
  rw [map_take, zipIdx_map_fst]

theorem zipIdx_take_succ {γ : Type} {items : List γ} {a : γ} (h : items[n]? = some a) :
    items.zipIdx.take (n + 1) = items.zipIdx.take n ++ [(a, n)] := by
  rw [take_add_one, List.getElem?_zipIdx, h, Nat.zero_add, Option.map_some, Option.toList_some]

theorem sentWrites_succ {part : List ℕ} (h : (parts call queue)[n]? = some part) :
    sentWrites call answers queue (n + 1) =
      sentWrites call answers queue n ++ batchWrites answers queue (part, n) := by
  rw [sentWrites, zipIdx_take_succ h, flatMap_append, flatMap_singleton, sentWrites]

theorem sentWrites_all (h : (parts call queue)[n]? = none) :
    sentWrites call answers queue n =
      sentWrites call answers queue (parts call queue).length := by
  have hn := List.getElem?_eq_none_iff.mp h
  rw [sentWrites, sentWrites, take_of_length_le (by rwa [length_zipIdx]),
    take_of_length_le (Nat.le_of_eq length_zipIdx)]

/-- The next batch writes slots the batches before it did not. -/
theorem part_fresh {part : List ℕ} (h : (parts call queue)[n]? = some part)
    {w : ℕ × Option ErrorValue} (hw : w ∈ sentWrites call answers queue n) : w.1 ∉ part := by
  have hnodup : (parts call queue).flatten.Nodup := parts_nodup
  rw [← take_append_drop (n + 1) (parts call queue), flatten_append] at hnodup
  have hfirst := (nodup_append.mp hnodup).1
  rw [take_add_one, h, Option.toList_some, flatten_append, flatten_singleton] at hfirst
  have hkey := mem_map_of_mem (f := Prod.fst) hw
  rw [sentWrites_keys] at hkey
  exact fun hpart => (disjoint_of_nodup_append hfirst) hkey hpart

/-- Every slot a goroutine writes is one of its queue's records. -/
theorem workerWrites_group {worker : Worker} {w : ℕ × Option ErrorValue}
    (h : w ∈ workerWrites call answers queue worker) :
    w.1 ∈ group call queue := by
  have hsent : ∀ n, w ∈ sentWrites call answers queue n →
      w.1 ∈ group call queue := by
    intro n hn
    have hkey := mem_map_of_mem (f := Prod.fst) hn
    rw [sentWrites_keys, mem_flatten] at hkey
    obtain ⟨part, hpart, hi⟩ := hkey
    exact (mem_parts (mem_of_mem_take hpart)).2.2 _ hi
  cases worker with
  | resolving => cases h
  | sending url n => exact hsent n h
  | done =>
    simp only [workerWrites, allWrites] at h
    split at h
    · obtain ⟨i, hi, rfl⟩ := mem_map.mp h
      exact hi
    · exact hsent _ h

theorem invariant_start : Invariant call answers (start call) where
  length := length_map _
  unrouted := by
    intro i rec err hrec hroute
    simp only [start, List.getElem?_map, hrec, Option.map_some, hroute]
  written := by
    intro queue w hw
    cases hw
  resolved := by
    intro queue url n hworker
    cases hworker
  requested := fun _ => rfl

/-- A worker's step: it writes slots of its own queue, sends its own requests and changes
its own state. -/
theorem Invariant.advance {st : State} (h : Invariant call answers st) (queue : String)
    (worker : Worker) (writes : List (ℕ × Option ErrorValue)) (requests : List Request)
    (hnodup : (writes.map Prod.fst).Nodup)
    (hgroup : ∀ w ∈ writes, w.1 ∈ group call queue)
    (hwrites : ∀ w ∈ workerWrites call answers queue worker, w ∈ writes ∨
      w ∈ workerWrites call answers queue (st.workers queue) ∧ w.1 ∉ writes.map Prod.fst)
    (hrequests : ∀ r ∈ requests, r.queue = queue)
    (hplan : workerRequests call answers queue worker =
      workerRequests call answers queue (st.workers queue) ++ requests)
    (hresolved : ∀ url n, worker = .sending url n → queueURL answers queue = .ok url) :
    Invariant call answers ⟨writeAll writes st.results,
      update st.workers queue worker, st.requests ++ requests⟩ := by
  have hkeys : ∀ i ∈ writes.map Prod.fst, i ∈ group call queue := by
    intro i hi
    obtain ⟨w, hw, rfl⟩ := mem_map.mp hi
    exact hgroup w hw
  constructor
  · rw [writeAll_length, h.length]
  · intro i rec err hrec hroute
    rw [writeAll_other, h.unrouted i rec err hrec hroute]
    intro hi
    obtain ⟨rec', hrec', hroute'⟩ := (mem_group).mp (hkeys i hi)
    obtain rfl : rec = rec' := Option.some.inj (hrec.symm.trans hrec')
    rw [hroute] at hroute'
    cases hroute'
  · intro other w hw
    by_cases hother : other = queue
    · subst hother
      simp only [update_self] at hw
      rcases hwrites w hw with hnew | ⟨hold, hfresh⟩
      · have hrange : w.1 < st.results.length := by
          obtain ⟨rec, hrec, -⟩ := (mem_group).mp (hgroup w hnew)
          rw [h.length]
          exact (List.getElem?_eq_some_iff.mp hrec).1
        exact writeAll_written hnodup hnew hrange
      · rw [writeAll_other _ hfresh]
        exact h.written other w hold
    · simp only [update_of_ne hother] at hw
      have hown := workerWrites_group hw
      rw [writeAll_other, h.written other w hw]
      exact fun hi => hother (group_disjoint hown (hkeys _ hi))
  · intro other url n hworker
    by_cases hother : other = queue
    · subst hother
      simp only [update_self] at hworker
      exact hresolved url n hworker
    · simp only [update_of_ne hother] at hworker
      exact h.resolved other url n hworker
  · intro other
    rw [filter_append, h.requested other]
    by_cases hother : other = queue
    · subst hother
      have hall : requests.filter (fun r => r.queue = other) = requests :=
        filter_eq_self.mpr fun r hr => decide_eq_true (hrequests r hr)
      simp only [update_self, hplan, hall]
    · have hnone : requests.filter (fun r => r.queue = other) = [] :=
        filter_eq_nil_iff.mpr fun r hr => by
          simpa [hrequests r hr] using fun h => hother h.symm
      simp only [update_of_ne hother, hnone, append_nil]

theorem invariant_step {st : State} (h : Invariant call answers st) :
    Invariant call answers (step call answers st queue) := by
  rw [step]
  cases hworker : st.workers queue with
  | done => exact h
  | resolving =>
    simp only
    cases hurl : queueURL answers queue with
    | error err =>
      have hkeys : ((group call queue).map fun i => (i, some err)).map Prod.fst =
          group call queue := by
        rw [map_map]
        exact map_id _
      have hstep := h.advance queue .done
        ((group call queue).map fun i => (i, some err)) []
        (by rw [hkeys]; exact group_nodup)
        (by
          intro w hw
          obtain ⟨i, hi, rfl⟩ := mem_map.mp hw
          exact hi)
        (by
          intro w hw
          rw [workerWrites, allWrites, hurl] at hw
          exact Or.inl hw)
        (by simp) (by simp [hworker, workerRequests, hurl]) (by simp)
      simpa only [append_nil] using hstep
    | ok url =>
      have hstep := h.advance queue (.sending url 0) [] [] (by simp) (by simp)
        (by
          intro w hw
          simp [workerWrites, sentWrites] at hw)
        (by simp) (by simp [hworker, workerRequests, plannedRequests])
        (by
          intro url' n hsending
          cases hsending
          exact hurl)
      simpa only [append_nil, writeAll_nil] using hstep
  | sending url n =>
    simp only
    have hurl := h.resolved queue url n hworker
    cases hpart : (parts call queue)[n]? with
    | none =>
      have hall : sentWrites call answers queue n = _ := sentWrites_all hpart
      have hn := List.getElem?_eq_none_iff.mp hpart
      have hplan : plannedRequests call queue url n =
          plannedRequests call queue url (parts call queue).length := by
        rw [plannedRequests, plannedRequests,
          take_of_length_le (by rwa [length_zipIdx]),
          take_of_length_le (Nat.le_of_eq length_zipIdx)]
      have hstep := h.advance queue .done [] [] (by simp) (by simp)
        (by
          intro w hw
          rw [workerWrites, allWrites, hurl, ← hall] at hw
          rw [hworker]
          exact Or.inr ⟨hw, by simp⟩)
        (by simp) (by simp [hworker, workerRequests, hurl, hplan]) (by simp)
      simpa only [append_nil, writeAll_nil] using hstep
    | some part =>
      have hmem := mem_parts (mem_of_getElem? hpart)
      refine h.advance queue (.sending url (n + 1)) (batchWrites answers queue (part, n))
        [request call queue url n part] ?_ ?_ ?_ ?_ ?_ ?_
      · rw [batchWrites_keys]
        exact hmem.2.1
      · intro w hw
        apply hmem.2.2
        have hkey := mem_map_of_mem (f := Prod.fst) hw
        rwa [batchWrites_keys] at hkey
      · intro w hw
        rw [workerWrites, sentWrites_succ hpart] at hw
        rcases mem_append.mp hw with hold | hnew
        · rw [batchWrites_keys, hworker]
          exact Or.inr ⟨hold, part_fresh hpart hold⟩
        · exact Or.inl hnew
      · simp [request]
      · rw [hworker, workerRequests, workerRequests, plannedRequests,
          zipIdx_take_succ hpart, map_append]
        rfl
      · intro url' n' hsending
        cases hsending
        exact hurl

theorem invariant_run {schedule : List String} :
    Invariant call answers (run call answers schedule) := by
  rw [run]
  generalize schedule.filter (· ∈ queues call) = turns
  induction turns using List.reverseRecOn with
  | nil => exact invariant_start
  | append_singleton turns queue ih =>
    rw [foldl_append]
    exact invariant_step ih

variable (call answers)

/-- The steps a worker still has to take. -/
def remaining (parts : ℕ) : Worker → ℕ
  | .resolving => parts + 2
  | .sending _ n => parts - n + 1
  | .done => 0

theorem step_remaining call answers
      (st : State) (queue turn : String) :
    remaining (parts call queue).length
        ((step call answers st turn).workers queue) ≤
      remaining (parts call queue).length (st.workers queue) -
        (if turn = queue then 1 else 0) := by
  by_cases hturn : turn = queue
  · subst hturn
    rw [if_pos rfl, step]
    cases hworker : st.workers turn with
    | done => simp [hworker, remaining]
    | resolving =>
      simp only
      split <;> simp [remaining]
    | sending url n =>
      simp only
      split
      · simp [remaining]
      · next part hpart =>
        have hn := (List.getElem?_eq_some_iff.mp hpart).1
        simp only [update_self, remaining]
        omega
  · have hsame : (step call answers st turn).workers queue = st.workers queue := by
      rw [step]
      split
      · rfl
      · split <;> exact update_of_ne (Ne.symm hturn) _ _
      · split <;> exact update_of_ne (Ne.symm hturn) _ _
    rw [hsame, if_neg hturn]
    exact Nat.le_refl _

theorem run_remaining (turns : List String) (queue : String) :
    remaining (parts call queue).length
        ((turns.foldl (step call answers) (start call)).workers queue) ≤
      (parts call queue).length + 2 - turns.count queue := by
  induction turns using List.reverseRecOn with
  | nil => exact Nat.le_refl _
  | append_singleton turns turn ih =>
    have hstep := step_remaining call answers
      (turns.foldl (step call answers) (start call)) queue turn
    rw [foldl_append, foldl_cons, foldl_nil, count_append,
      count_singleton]
    simp only [beq_iff_eq]
    omega

/-- Every goroutine gets the turns it needs. -/
def Fair (schedule : List String) : Prop :=
  ∀ queue ∈ queues call, (parts call queue).length + 2 ≤ schedule.count queue

instance (schedule : List String) : Decidable (Fair call schedule) :=
  inferInstanceAs (Decidable (∀ queue ∈ queues call, _))

theorem run_complete (schedule : List String) (hfair : Fair call schedule) :
    Complete call (run call answers schedule) := by
  intro queue hqueue
  have hcount : (schedule.filter (· ∈ queues call)).count queue = schedule.count queue :=
    count_filter (decide_eq_true hqueue)
  have hleft := run_remaining call answers
    (schedule.filter (· ∈ queues call)) queue
  rw [hcount, ← run] at hleft
  have hturns := hfair queue hqueue
  cases hworker : (run call answers schedule).workers queue with
  | done => rfl
  | resolving =>
    rw [hworker, remaining] at hleft
    omega
  | sending url n =>
    rw [hworker, remaining] at hleft
    omega

end Runs

end KnowledgeEngine.SqsRuns
