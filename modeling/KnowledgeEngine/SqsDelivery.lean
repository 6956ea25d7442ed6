import KnowledgeEngine.SqsRuns
import Mathlib.Data.List.Flatten

/-!
What Send of the SQS sink reports when all its goroutines are done: one result per record,
nil exactly for the records whose own entry SQS listed as successful and not as failed. The
answers SQS gives to one queue do not touch the records of another.
-/

namespace KnowledgeEngine.SqsDelivery

open CoreTypes List MachineNumbers SqsRuns SqsSink ValueText

variable {call : Call} {answers : Answers} {st : State} {queue url : String} {i j n : ℕ}
  {rec : OutboxRecord}

/-- The queue of a record: its route's, or the default one if it has no route. -/
def Routed (sink : Sink) (rec : OutboxRecord) (queue : String) : Prop :=
  let route := (rec.Attributes.lookup "route").getD ""
  sink.routes.lookup route = some queue ∨ route = "" ∧ sink.queue = queue ∧ queue ≠ ""

/-- The URL of a queue is cached, or SQS names it. -/
def Resolved (answers : Answers) (queue url : String) : Prop :=
  answers.cached queue = some url ∨ answers.cached queue = none ∧
    ∃ named, answers.GetQueueUrl queue = .ok named ∧ named.getD "" = url

theorem routed_iff : Routed call.sink rec queue ↔ route call rec = .ok queue := by
  have hnamed := call.sink.named (rec.attribute OutboxRouteAttribute)
  change call.sink.routes.lookup (rec.attribute OutboxRouteAttribute) = _ ∨
    rec.attribute OutboxRouteAttribute = "" ∧ _ ↔ _
  unfold route
  dsimp only
  split
  · grind
  · split <;> grind

theorem resolved_iff : Resolved answers queue url ↔ queueURL answers queue = .ok url := by
  unfold Resolved queueURL
  split
  · next hcached => simp [hcached]
  · next hcached => split <;> simp_all

theorem filterMap_getElem {γ δ : Type} {f : γ → Option δ} {items : List γ}
    (hsome : ∀ a ∈ items, (f a).isSome) (j : ℕ) : (items.filterMap f)[j]? = items[j]?.bind f := by
  induction items generalizing j with
  | nil => rfl
  | cons a rest ih =>
    obtain ⟨b, hb⟩ := Option.isSome_iff_exists.mp (hsome a mem_cons_self)
    rw [filterMap_cons_some hb]
    cases j with
    | zero => simp [hb]
    | succ j => simpa using ih (fun a ha => hsome a (mem_cons_of_mem _ ha)) j

/-- An item of lists without repetition is in one of them. -/
theorem filter_mem_length {lists : List (List ℕ)} {i : ℕ} (hnodup : lists.flatten.Nodup)
    (h : i ∈ lists.flatten) : (lists.filter fun l => i ∈ l).length = 1 := by
  induction lists with
  | nil => cases h
  | cons l rest ih =>
    rw [flatten_cons] at hnodup h
    by_cases hl : i ∈ l
    · have hnone : rest.filter (fun l => i ∈ l) = [] := by
        rw [filter_eq_nil_iff]
        intro l' hl' hi
        exact (disjoint_of_nodup_append hnodup) hl
          (mem_flatten_of_mem hl' (of_decide_eq_true hi))
      rw [filter_cons_of_pos (by simpa using hl), hnone, length_singleton]
    · rw [filter_cons_of_neg (by simpa using hl)]
      exact ih (nodup_append.mp hnodup).2.1
        ((mem_append.mp h).resolve_left hl)

/-- A batch's entry at a position is the entry of the record at that position. -/
theorem request_entry {part : List ℕ} (hpart : ∀ i ∈ part, i ∈ group call queue)
    (hj : part[j]? = some i) (hrec : call.recs[i]? = some rec) :
    (request call queue url n part).Entries[j]? =
      some (entry (queue.endsWith fifoSuffix) rec j) := by
  have hsome : ∀ i ∈ part, (call.recs[i]?).isSome := by
    intro i hi
    obtain ⟨rec, hrec, -⟩ := mem_group.mp (hpart i hi)
    rw [hrec, Option.isSome_some]
  have hat : (part.filterMap fun i => call.recs[i]?)[j]? = some rec := by
    rw [filterMap_getElem hsome j, hj, Option.bind_some, hrec]
  simp only [request, entries, List.getElem?_map, List.getElem?_zipIdx, hat, Option.map_some,
    Nat.zero_add]

/-- A request takes its records to the URL of their queue, at most ten, each in an entry of
its own. -/
structure Carries (call : Call) (answers : Answers) (r : Request) : Prop where
  few : r.part.length ≤ 10
  url : Resolved answers r.queue r.QueueUrl
  length : r.Entries.length = r.part.length
  entry : ∀ j i : ℕ, r.part[j]? = some i → ∃ rec e, call.recs[i]? = some rec ∧
    Routed call.sink rec r.queue ∧ r.Entries[j]? = some e ∧ e.MessageBody = rec.Payload ∧
    ("outbox_id", String.ofList (uuidChars rec.ID)) ∈ e.MessageAttributes
  ids : (r.Entries.map Entry.Id).Nodup

theorem entries_ids {fifo : Bool} {recs : List OutboxRecord} (h : recs.length ≤ maxBatch) :
    ((entries fifo recs).map Entry.Id).Nodup := by
  have hids : (entries fifo recs).map Entry.Id =
      (List.range' 0 recs.length).map fun i : ℕ => itoa i := by
    rw [← zipIdx_map_snd 0 recs, entries, map_map, map_map]
    rfl
  rw [hids]
  refine List.Nodup.map_on (fun x hx y hy hxy => ?_) nodup_range'
  have hfits : ∀ z ∈ List.range' 0 recs.length, Fits64 z := by
    intro z hz
    rw [mem_range'_1] at hz
    simp only [Fits64, maxBatch] at h ⊢
    omega
  have hread := congrArg atoi hxy
  rw [atoi_itoa (hfits x hx), atoi_itoa (hfits y hy)] at hread
  exact_mod_cast Option.some.inj hread

/-- The record is routable, its queue's URL resolved, and SQS listed the id of its own entry
of its own batch as successful and not as failed. -/
def Accepted (call : Call) (answers : Answers) (st : State) (i : ℕ) (rec : OutboxRecord) : Prop :=
  ∃ queue url, Routed call.sink rec queue ∧ Resolved answers queue url ∧
    ∃ r ∈ st.requests, r.queue = queue ∧ r.QueueUrl = url ∧
      ∃ (j : ℕ) (e : Entry), r.part[j]? = some i ∧ r.Entries[j]? = some e ∧
        ∃ out, answers.SendMessageBatch queue r.n = .ok out ∧
          some e.Id ∈ out.Successful ∧ some e.Id ∉ out.Failed.map FailedEntry.Id

/-- The ids of the responses are canonical where they are numeric. -/
def CanonicalIds (answers : Answers) : Prop :=
  ∀ queue n out, answers.SendMessageBatch queue n = .ok out →
    (∀ id ∈ out.Successful, Canonical id) ∧ ∀ f ∈ out.Failed, Canonical f.Id

theorem mem_sentWrites {result : Option ErrorValue} :
    (i, result) ∈ sentWrites call answers queue (parts call queue).length ↔
      ∃ n part, (parts call queue)[n]? = some part ∧ ∃ j : ℕ, part[j]? = some i ∧
        (sendBatch (answers.SendMessageBatch queue n) part.length)[j]? = some result := by
  rw [sentWrites, take_of_length_le (Nat.le_of_eq length_zipIdx)]
  simp only [mem_flatMap, Prod.exists, mem_zipIdx_iff_getElem?, batchWrites]
  constructor
  · rintro ⟨part, n, hpart, hmem⟩
    obtain ⟨j, hj⟩ := mem_iff_getElem?.mp hmem
    rw [List.getElem?_zip_eq_some] at hj
    exact ⟨n, part, hpart, j, hj.1, hj.2⟩
  · rintro ⟨n, part, hpart, j, hi, hresult⟩
    refine ⟨part, n, hpart, mem_iff_getElem?.mpr ⟨j, ?_⟩⟩
    exact List.getElem?_zip_eq_some.mpr ⟨hi, hresult⟩

/-- Every record of a queue is written by the queue's goroutine. -/
theorem exists_write (hi : i ∈ group call queue) :
    ∃ result, (i, result) ∈ allWrites call answers queue := by
  rw [allWrites]
  split
  · next err _ => exact ⟨some err, mem_map_of_mem hi⟩
  · have hkeys : (sentWrites call answers queue (parts call queue).length).map Prod.fst = _ :=
      sentWrites_keys
    rw [take_length, parts_flatten] at hkeys
    rw [← hkeys] at hi
    obtain ⟨w, hw, rfl⟩ := mem_map.mp hi
    exact ⟨w.2, hw⟩

/-- With canonical ids the entry at a position is the one with the position's number. -/
theorem listed_iff {out : Response} (hj : j < n) (hn : n ≤ maxBatch)
    (hsuccessful : ∀ id ∈ out.Successful, Canonical id)
    (hfailed : ∀ f ∈ out.Failed, Canonical f.Id) :
    ((∃ id ∈ out.Successful, entryIndex id n = some j) ∧
        ∀ f ∈ out.Failed, entryIndex f.Id n ≠ some j) ↔
      (some (itoa j) ∈ out.Successful ∧ some (itoa j) ∉ out.Failed.map FailedEntry.Id) := by
  refine and_congr ?_ ?_
  · constructor
    · rintro ⟨id, hid, hindex⟩
      rw [← (entryIndex_eq_some (hsuccessful id hid) hj hn).mp hindex]
      exact hid
    · intro hid
      exact ⟨_, hid, (entryIndex_eq_some (hsuccessful _ hid) hj hn).mpr rfl⟩
  · constructor
    · intro hnone hmem
      obtain ⟨f, hf, hid⟩ := mem_map.mp hmem
      exact hnone f hf ((entryIndex_eq_some (hfailed f hf) hj hn).mpr hid)
    · intro hnone f hf hindex
      have hid := (entryIndex_eq_some (hfailed f hf) hj hn).mp hindex
      exact hnone (mem_map.mpr ⟨f, hf, hid⟩)

/-- Two worlds that give a queue's goroutine the same answers. -/
def SameFor (queue : String) (answers other : Answers) : Prop :=
  answers.cached queue = other.cached queue ∧ answers.GetQueueUrl queue = other.GetQueueUrl queue ∧
    answers.SendMessageBatch queue = other.SendMessageBatch queue

theorem allWrites_congr {other : Answers} (h : SameFor queue answers other) :
    allWrites call answers queue = allWrites call other queue := by
  obtain ⟨hcached, hlookup, hsend⟩ := h
  have hurl : queueURL answers queue = queueURL other queue := by
    rw [queueURL, queueURL, hcached, hlookup]
  have hwrites : batchWrites answers queue = batchWrites other queue := by
    funext batch
    rw [batchWrites, batchWrites, hsend]
  rw [allWrites, allWrites, hurl, sentWrites, sentWrites, hwrites]

section Runs

variable (h : Invariant call answers st)
include h

/-- The batches of a queue that are requested are its first ones, in order. -/
theorem requested_parts :
    (st.requests.filter fun r => r.queue = queue).map Request.part <+: parts call queue := by
  have hplanned : ∀ url n, (plannedRequests call queue url n).map Request.part =
      (parts call queue).take n := by
    intro url n
    rw [plannedRequests, map_map, map_take]
    exact congrArg _ (zipIdx_map_fst 0 _)
  rw [h.requested queue]
  unfold workerRequests
  split
  · exact nil_prefix
  · exact hplanned _ _ ▸ take_prefix _ _
  · split
    · exact nil_prefix
    · exact hplanned _ _ ▸ take_prefix _ _

/-- Every request is one of its queue's batches, for the URL the queue has. -/
theorem request_planned {r : Request} (hr : r ∈ st.requests) :
    ∃ url n part, queueURL answers r.queue = .ok url ∧ (parts call r.queue)[n]? = some part ∧
      r = request call r.queue url n part := by
  have hmem : r ∈ st.requests.filter fun r' => r'.queue = r.queue := by simp [hr]
  have hplanned : ∀ url n, queueURL answers r.queue = .ok url →
      r ∈ plannedRequests call r.queue url n →
      ∃ url n part, queueURL answers r.queue = .ok url ∧ (parts call r.queue)[n]? = some part ∧
        r = request call r.queue url n part := by
    intro url n hurl hplan
    obtain ⟨⟨part, k⟩, hpart, hreq⟩ := mem_map.mp hplan
    exact ⟨url, k, part, hurl, mem_zipIdx_iff_getElem?.mp (mem_of_mem_take hpart),
      hreq.symm⟩
  rw [h.requested r.queue] at hmem
  cases hworker : st.workers r.queue with
  | resolving =>
    rw [hworker] at hmem
    cases hmem
  | sending url n =>
    rw [hworker] at hmem
    exact hplanned url n (h.resolved r.queue url n hworker) hmem
  | done =>
    rw [hworker, workerRequests] at hmem
    split at hmem
    · cases hmem
    · next hurl => exact hplanned _ _ hurl hmem

theorem request_carries (r : Request) (hr : r ∈ st.requests) : Carries call answers r := by
  obtain ⟨url, n, part, hurl, hpart, hreq⟩ := request_planned h hr
  obtain ⟨hfew, -, hgroup⟩ := mem_parts (mem_of_getElem? hpart)
  generalize r.queue = queue at *
  subst hreq
  have hlength : (part.filterMap fun i => call.recs[i]?).length = part.length := by
    rw [length_filterMap_eq_countP, countP_eq_length]
    intro i hi
    obtain ⟨rec, hrec, -⟩ := mem_group.mp (hgroup i hi)
    rw [hrec, Option.isSome_some]
  refine ⟨hfew, resolved_iff.mpr hurl, ?_, fun j i hj => ?_, entries_ids (hlength ▸ hfew)⟩
  · simpa [request, entries] using hlength
  · obtain ⟨rec, hrec, hroute⟩ := mem_group.mp (hgroup i (mem_of_getElem? hj))
    exact ⟨rec, _, hrec, routed_iff.mpr hroute, request_entry hgroup hj hrec, rfl,
      mem_cons_self⟩

variable (hcomplete : Complete call st)
include hcomplete

/-- All batches of a queue, as its goroutine requests them. -/
theorem requests_of_complete (hqueue : queue ∈ queues call)
    (hurl : queueURL answers queue = .ok url) :
    st.requests.filter (fun r => r.queue = queue) =
      (parts call queue).zipIdx.map fun (part, n) => request call queue url n part := by
  rw [h.requested queue, hcomplete queue hqueue, workerRequests, hurl]
  simp only [plannedRequests]
  rw [take_of_length_le (Nat.le_of_eq length_zipIdx)]

/-- A record with a resolved queue is in exactly one request. -/
theorem requested_once (hrec : call.recs[i]? = some rec) (hroute : route call rec = .ok queue)
    (hurl : queueURL answers queue = .ok url) :
    (st.requests.filter fun r => i ∈ r.part).length = 1 := by
  have hgroup : i ∈ group call queue := mem_group.mpr ⟨rec, hrec, hroute⟩
  have hqueue : queue ∈ queues call := mem_queues.mpr ⟨rec, mem_of_getElem? hrec, hroute⟩
  have hown : st.requests.filter (fun r => i ∈ r.part) =
      (st.requests.filter fun r => r.queue = queue).filter fun r => i ∈ r.part := by
    rw [filter_filter]
    apply filter_congr
    intro r hr
    obtain ⟨url', n, part, -, hpart, hreq⟩ := request_planned h hr
    by_cases hi : i ∈ r.part
    · have hmem : i ∈ group call r.queue := by
        apply (mem_parts (mem_of_getElem? hpart)).2.2
        rw [hreq] at hi
        exact hi
      simp [hi, group_disjoint hmem hgroup]
    · simp [hi]
  have hparts : (st.requests.filter fun r => r.queue = queue).map Request.part =
      parts call queue := by
    rw [requests_of_complete h hcomplete hqueue hurl, map_map]
    exact zipIdx_map_fst 0 _
  have honce := filter_mem_length parts_nodup (parts_flatten ▸ hgroup)
  rwa [← hparts, filter_map, length_map, Function.comp_def, ← hown] at honce

theorem result_eq {result : Option ErrorValue} (hqueue : queue ∈ queues call)
    (hwrite : (i, result) ∈ allWrites call answers queue) : st.results[i]? = some result := by
  apply h.written queue (i, result)
  rw [hcomplete queue hqueue]
  exact hwrite

/-- The result of a record is nil exactly if it was accepted. -/
theorem result_nil_iff (hcanonical : CanonicalIds answers) (hrec : call.recs[i]? = some rec) :
    st.results[i]? = some none ↔ Accepted call answers st i rec := by
  unfold Accepted
  simp only [routed_iff, resolved_iff]
  cases hroute : route call rec with
  | error err =>
    rw [h.unrouted i rec err hrec hroute]
    simp
  | ok queue =>
    have hgroup : i ∈ group call queue := mem_group.mpr ⟨rec, hrec, hroute⟩
    have hqueue : queue ∈ queues call :=
      mem_queues.mpr ⟨rec, mem_of_getElem? hrec, hroute⟩
    cases hurl : queueURL answers queue with
    | error err =>
      have hwrite : (i, some err) ∈ allWrites call answers queue := by
        rw [allWrites, hurl]
        exact mem_map_of_mem hgroup
      rw [result_eq h hcomplete hqueue hwrite]
      refine ⟨fun hnone => absurd (Option.some.inj hnone) (Option.some_ne_none err), ?_⟩
      rintro ⟨queue', url, hroute', hurl', -⟩
      obtain rfl := Except.ok.inj hroute'
      rw [hurl] at hurl'
      cases hurl'
    | ok url =>
      have hall : allWrites call answers queue =
          sentWrites call answers queue (parts call queue).length := by
        rw [allWrites, hurl]
      have hrequests := requests_of_complete h hcomplete hqueue hurl
      constructor
      · intro hnone
        obtain ⟨result, hwrite⟩ := exists_write hgroup
        have hresult := result_eq h hcomplete hqueue hwrite
        obtain rfl : result = none := Option.some.inj (hresult.symm.trans hnone)
        rw [hall, mem_sentWrites] at hwrite
        obtain ⟨n, part, hpart, j, hj, hsent⟩ := hwrite
        have hbatch := mem_parts (mem_of_getElem? hpart)
        have hlt : j < part.length := (List.getElem?_eq_some_iff.mp hj).1
        obtain ⟨out, hout, hlisted⟩ := (sendBatch_sent_iff hlt).mp hsent
        obtain ⟨hsuccessful, hfailed⟩ := hcanonical queue n out hout
        have hmem :
            request call queue url n part ∈ st.requests.filter fun r => r.queue = queue := by
          rw [hrequests]
          exact mem_map.mpr ⟨(part, n), mem_zipIdx_iff_getElem?.mpr hpart, rfl⟩
        exact ⟨queue, url, rfl, hurl, _, (mem_filter.mp hmem).1, rfl, rfl, j, _, hj,
          request_entry hbatch.2.2 hj hrec, out, hout,
          (listed_iff hlt hbatch.1 hsuccessful hfailed).mp hlisted⟩
      · rintro ⟨queue', url', hroute', -, r, hr, hrqueue, -, j, e, hj, he, out, hout, hlisted⟩
        obtain rfl := Except.ok.inj hroute'
        have hmem : r ∈ st.requests.filter fun r => r.queue = queue :=
          mem_filter.mpr ⟨hr, decide_eq_true hrqueue⟩
        rw [hrequests] at hmem
        obtain ⟨⟨part, n⟩, hpart, rfl⟩ := mem_map.mp hmem
        rw [mem_zipIdx_iff_getElem?] at hpart
        have hbatch := mem_parts (mem_of_getElem? hpart)
        obtain rfl := Option.some.inj (he.symm.trans (request_entry hbatch.2.2 hj hrec))
        have hlt : j < part.length := (List.getElem?_eq_some_iff.mp hj).1
        obtain ⟨hsuccessful, hfailed⟩ := hcanonical queue n out hout
        apply result_eq h hcomplete hqueue
        rw [hall, mem_sentWrites]
        refine ⟨n, part, hpart, j, hj, (sendBatch_sent_iff hlt).mpr ⟨out, hout, ?_⟩⟩
        exact (listed_iff hlt hbatch.1 hsuccessful hfailed).mpr hlisted

end Runs

/-- What Send has done when it returns. -/
structure Delivered (call : Call) (answers : Answers) (st : State) : Prop where
  complete : Complete call st
  length : st.results.length = call.recs.length
  sent_iff : ∀ i rec, call.recs[i]? = some rec →
    (st.results[i]? = some none ↔ Accepted call answers st i rec)
  once : ∀ i rec queue url, call.recs[i]? = some rec → Routed call.sink rec queue →
    Resolved answers queue url → (st.requests.filter fun r => i ∈ r.part).length = 1
  carries : ∀ r ∈ st.requests, Carries call answers r
  ordered : ∀ queue,
    ((st.requests.filter fun r => r.queue = queue).flatMap Request.part).Pairwise (· < ·)

/-- Send, in every interleaving of its goroutines that gives each the turns it needs, with
canonical entry ids: it returns, with one result per record; a result is nil exactly for an
accepted record; a resolved queue's records are sent in record order, in batches of at most
ten, each record in one batch; and a queue's results depend on its own answers only. -/
theorem send_delivers (call : Call) (answers : Answers) (hcanonical : CanonicalIds answers)
    (schedule : List String) (hfair : Fair call schedule) :
    Delivered call answers (run call answers schedule) ∧
    ∀ queue other, SameFor queue answers other → ∀ schedule', Fair call schedule' →
      ∀ (i : ℕ) rec, call.recs[i]? = some rec → Routed call.sink rec queue →
        (run call other schedule').results[i]? = (run call answers schedule).results[i]? := by
  have hcomplete := run_complete call answers schedule hfair
  have hinv : Invariant call answers (run call answers schedule) := invariant_run
  refine ⟨⟨hcomplete, hinv.length, fun i rec => result_nil_iff hinv hcomplete hcanonical, ?_,
    request_carries hinv, fun queue => ?_⟩, ?_⟩
  · intro i rec queue url hrec hrouted hresolved
    exact requested_once hinv hcomplete hrec (routed_iff.mp hrouted) (resolved_iff.mp hresolved)
  · have hsorted : (parts call queue).flatten.Pairwise (· < ·) := parts_flatten ▸ group_sorted
    rw [flatMap_def]
    exact hsorted.sublist (requested_parts hinv).sublist.flatten
  · intro queue other hsame schedule' hfair' i rec hrec hrouted
    rw [routed_iff] at hrouted
    have hqueue := mem_queues.mpr ⟨rec, mem_of_getElem? hrec, hrouted⟩
    obtain ⟨result, hwrite⟩ := exists_write (mem_group.mpr ⟨rec, hrec, hrouted⟩)
    rw [result_eq hinv hcomplete hqueue hwrite]
    rw [allWrites_congr hsame] at hwrite
    exact result_eq invariant_run (run_complete call other schedule' hfair') hqueue hwrite

/-- Two records for the one queue of a sink. -/
def ordersCall : Call where
  quote := id
  sink := ⟨∅, "orders", by simp⟩
  recs := [⟨0, [], "", "", "", [0x61], 1, 1⟩, ⟨0, [], "", "", "", [0x62], 1, 2⟩]

/-- SQS accepts the first entry and says nothing about the second. -/
def halfAnswers : Answers where
  cached := fun _ => none
  GetQueueUrl := fun _ => .ok (some "url")
  SendMessageBatch := fun _ _ => .ok ⟨[some "0"], []⟩

theorem halfAnswers_canonical : CanonicalIds halfAnswers := by
  intro queue n out hout
  obtain rfl : ⟨[some "0"], []⟩ = out := Except.ok.inj hout
  refine ⟨fun id hid => ?_, by simp⟩
  obtain rfl : id = some "0" := by simpa using hid
  intro x hx
  obtain rfl : 0 = x := Option.some.inj ((by decide +kernel : atoi "0" = some 0).symm.trans hx)
  decide +kernel

theorem send_delivers_half :
    (run ordersCall halfAnswers ["orders", "orders", "orders"]).results = [none, some noResult] ∧
      Delivered ordersCall halfAnswers
        (run ordersCall halfAnswers ["orders", "orders", "orders"]) :=
  ⟨by decide +kernel, (send_delivers ordersCall halfAnswers halfAnswers_canonical
    ["orders", "orders", "orders"] (by decide +kernel)).1⟩

end KnowledgeEngine.SqsDelivery
