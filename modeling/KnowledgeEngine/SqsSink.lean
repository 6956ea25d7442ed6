import KnowledgeEngine.ByteText
import KnowledgeEngine.Chunks
import KnowledgeEngine.CoreTypes
import KnowledgeEngine.ValueText
import Mathlib.Data.List.AList

/-!
The SQS outbox sink (clients/outbox/sqs). Send groups the records by queue and runs one
goroutine per queue; a goroutine resolves its queue's URL and then sends its records in
batches. Here every goroutine is a worker that takes its next step whenever the schedule
names its queue. The answers of SQS are inputs: one to each worker's URL lookup and one to
each of its batches.
-/

namespace KnowledgeEngine.SqsSink

open ByteText Chunks CoreTypes MachineNumbers ValueText

def maxBatch : ℕ := 10

/-- A sink as New builds it: no route has an empty name or an empty queue. -/
structure Sink where
  routes : AList fun _ : String => String
  queue : String
  named : ∀ route queue, routes.lookup route = some queue → route ≠ "" ∧ queue ≠ ""

def New (hasAPI : Bool) (Routes : AList fun _ : String => String) (Queue : String) :
    Except ErrorValue Sink :=
  if !hasAPI || (Queue == "" && Routes.entries.isEmpty) then
    .error (.new .invalidInput "outbox sqs sink: api and a queue or routes are required")
  else
    match h : Routes.entries.find? fun e => e.1 == "" || e.2 == "" with
    | some bad => .error (.new .invalidInput
        ("outbox sqs sink: route " ++ bad.1 ++ " needs a non-empty name and queue"))
    | none => .ok
      { routes := Routes
        queue := Queue
        named := by
          intro route queue hroute
          have hentry := List.find?_eq_none.mp h ⟨route, queue⟩ (AList.mem_lookup_iff.mp hroute)
          simpa using hentry }

/-- A call of Send, with how strconv.Quote writes a string. -/
structure Call where
  quote : String → String
  sink : Sink
  recs : List OutboxRecord

variable (call : Call)

/-- The record's queue: its route's, else the default one. -/
def route (rec : OutboxRecord) : Except ErrorValue String :=
  let route := rec.attribute OutboxRouteAttribute
  if route = "" ∧ call.sink.queue ≠ "" then .ok call.sink.queue
  else
    match call.sink.routes.lookup route with
    | some queue => .ok queue
    | none =>
      .error (.new .invalidInput ("outbox sqs sink: no queue for route " ++ call.quote route))

def fifoSuffix : String := ".fifo"

/-- The record's FIFO message group. -/
def groupID (rec : OutboxRecord) : String :=
  if rec.Key ≠ "" then rec.Key else if rec.Tenant ≠ "" then rec.Tenant else rec.Lane

def idText (rec : OutboxRecord) : String := String.ofList (uuidChars rec.ID)

/-- The String attributes of a message; SQS rejects an empty value. -/
def messageAttributes (rec : OutboxRecord) : List (String × String) :=
  [("outbox_id", idText rec)] ++ (if rec.Tenant ≠ "" then [("tenant", rec.Tenant)] else []) ++
    (if rec.Lane ≠ "" then [("lane", rec.Lane)] else [])

structure Entry where
  Id : String
  MessageBody : Bytes
  MessageAttributes : List (String × String)
  MessageGroupId : Option String
  MessageDeduplicationId : Option String

/-- The batch entry of the record at position i of its batch. -/
def entry (fifo : Bool) (rec : OutboxRecord) (i : ℕ) : Entry where
  Id := itoa i
  MessageBody := rec.Payload
  MessageAttributes := messageAttributes rec
  MessageGroupId := if fifo then some (groupID rec) else none
  MessageDeduplicationId := if fifo then some (idText rec) else none

def entries (fifo : Bool) (recs : List OutboxRecord) : List Entry :=
  recs.zipIdx.map fun (rec, i) => entry fifo rec i

/-- A Failed entry of a response; its strings may be missing. -/
structure FailedEntry where
  Id : Option String
  SenderFault : Bool
  Code : Option String
  Message : Option String

structure Response where
  Successful : List (Option String)
  Failed : List FailedEntry

/-- The index of a batch entry's id, none for a foreign id. -/
def entryIndex (id : Option String) (n : ℕ) : Option ℕ :=
  (atoi (id.getD "")).bind fun i => if 0 ≤ i ∧ i < n then some i.toNat else none

def noResult : ErrorValue := .new .internal "outbox sqs sink: no result for entry"

def failedResult (failed : FailedEntry) : ErrorValue :=
  .new (if failed.SenderFault then .invalidInput else .unavailable)
    ("outbox sqs sink: " ++ failed.Code.getD "" ++ ": " ++ failed.Message.getD "")

/-- The results of a batch of n records: none is a sent one. -/
def sendBatch (answer : Except ErrorValue Response) (n : ℕ) : List (Option ErrorValue) :=
  match answer with
  | .error err =>
    List.replicate n (some (err.wrap (err.codeOr .unavailable) "outbox sqs sink: send batch"))
  | .ok out =>
    let successful := out.Successful.filterMap fun id => (entryIndex id n).map fun i => (i, none)
    let failed := out.Failed.filterMap fun f =>
      (entryIndex f.Id n).map fun i => (i, some (failedResult f))
    writeAll failed (writeAll successful (List.replicate n (some noResult)))

/-- What SQS and the URL cache answer to the goroutine of each queue. -/
structure Answers where
  cached : String → Option String
  GetQueueUrl : String → Except ErrorValue (Option String)
  SendMessageBatch : String → ℕ → Except ErrorValue Response

variable (answers : Answers)

def queueURL (queue : String) : Except ErrorValue String :=
  match answers.cached queue with
  | some url => .ok url
  | none =>
    match answers.GetQueueUrl queue with
    | .error err => .error (err.wrap (err.codeOr .unavailable)
        ("outbox sqs sink: resolve queue " ++ queue))
    | .ok url => .ok (url.getD "")

/-- The indices of the queue's records, in record order. -/
def group (queue : String) : List ℕ :=
  (call.recs.zipIdx.filter fun (rec, _) => (route call rec).toOption = some queue).map Prod.snd

/-- The queues that get a goroutine. -/
def queues : List String := (call.recs.filterMap fun rec => (route call rec).toOption).dedup

def parts (queue : String) : List (List ℕ) := chunks maxBatch (group call queue)

/-- What a queue's goroutine is at: its URL, the batch number `n`, or nothing more. -/
inductive Worker
  | resolving
  | sending (url : String) (n : ℕ)
  | done
deriving DecidableEq

/-- A SendMessageBatch request, with the queue and the records it is for. -/
structure Request where
  queue : String
  n : ℕ
  QueueUrl : String
  Entries : List Entry
  part : List ℕ

structure State where
  results : List (Option ErrorValue)
  workers : String → Worker
  requests : List Request

/-- Records without a queue get their result before any goroutine starts. -/
def start : State where
  results := call.recs.map fun rec =>
    match route call rec with
    | .error err => some err
    | .ok _ => none
  workers := fun _ => .resolving
  requests := []

def request (queue url : String) (n : ℕ) (part : List ℕ) : Request where
  queue := queue
  n := n
  QueueUrl := url
  Entries := entries (queue.endsWith fifoSuffix) (part.filterMap fun i => call.recs[i]?)
  part := part

/-- The next step of sendQueue for a queue. -/
def step (st : State) (queue : String) : State :=
  match st.workers queue with
  | .done => st
  | .resolving =>
    match queueURL answers queue with
    | .error err => { st with
        results := writeAll ((group call queue).map fun i => (i, some err)) st.results
        workers := Function.update st.workers queue .done }
    | .ok url => { st with workers := Function.update st.workers queue (.sending url 0) }
  | .sending url n =>
    match (parts call queue)[n]? with
    | none => { st with workers := Function.update st.workers queue .done }
    | some part =>
      { results := writeAll
          (part.zip (sendBatch (answers.SendMessageBatch queue n) part.length)) st.results
        workers := Function.update st.workers queue (.sending url (n + 1))
        requests := st.requests ++ [request call queue url n part] }

/-- The queues take their steps in the order of the schedule. -/
def run (schedule : List String) : State :=
  (schedule.filter (· ∈ queues call)).foldl (step call answers) (start call)

/-- All goroutines are done: Send returns the results. -/
def Complete (st : State) : Prop := ∀ queue ∈ queues call, st.workers queue = .done

/-- A numeric id is written as a decimal number is. -/
def Canonical (id : Option String) : Prop := ∀ x, atoi (id.getD "") = some x → id.getD "" = itoa x

theorem entryIndex_eq_some {id : Option String} {n j : ℕ} (hid : Canonical id)
    (hj : j < n) (hn : n ≤ maxBatch) : entryIndex id n = some j ↔ id = some (itoa j) := by
  have hfits : Fits64 j := by
    simp only [Fits64, maxBatch] at hn ⊢
    omega
  constructor
  · intro h
    obtain ⟨x, hx, hindex⟩ := Option.bind_eq_some_iff.mp h
    obtain ⟨⟨hnonneg, -⟩, hnat⟩ := Option.ite_none_right_eq_some.mp hindex
    obtain rfl : x = j := by
      have hcast := Int.toNat_of_nonneg hnonneg
      rw [Option.some.inj hnat] at hcast
      exact hcast.symm
    have htext := hid j hx
    cases id with
    | none => exact absurd htext.symm itoa_ne_empty
    | some text => exact congrArg some htext
  · rintro rfl
    have hrange : (0 : ℤ) ≤ j ∧ (j : ℤ) < n := ⟨Int.natCast_nonneg j, Int.ofNat_lt.mpr hj⟩
    simp only [entryIndex, Option.getD_some, atoi_itoa hfits, Option.bind_some, if_pos hrange,
      Int.toNat_natCast]

theorem sendBatch_length {answer : Except ErrorValue Response} {n : ℕ} :
    (sendBatch answer n).length = n := by
  cases answer with
  | error err => exact List.length_replicate
  | ok out => simp only [sendBatch, writeAll_length, List.length_replicate]

theorem mem_indexed {γ δ : Type} (index : γ → Option ℕ) (value : γ → δ) (items : List γ) (j : ℕ) :
    j ∈ (items.filterMap fun a => (index a).map fun i => (i, value a)).map Prod.fst ↔
      ∃ a ∈ items, index a = some j := by
  constructor
  · intro h
    obtain ⟨⟨i, b⟩, hmem, rfl⟩ := List.mem_map.mp h
    obtain ⟨a, ha, hvalue⟩ := List.mem_filterMap.mp hmem
    obtain ⟨i', hi', hpair⟩ := Option.map_eq_some_iff.mp hvalue
    exact ⟨a, ha, by rw [hi', (Prod.mk.inj hpair).1]⟩
  · rintro ⟨a, ha, hj⟩
    exact List.mem_map.mpr ⟨(j, value a), List.mem_filterMap.mpr ⟨a, ha, by rw [hj]; rfl⟩, rfl⟩

/-- An entry is reported as sent exactly if the response lists it as successful and not as
failed. -/
theorem sendBatch_sent_iff {answer : Except ErrorValue Response} {n j : ℕ} (hj : j < n) :
    (sendBatch answer n)[j]? = some none ↔
      ∃ out, answer = .ok out ∧ (∃ id ∈ out.Successful, entryIndex id n = some j) ∧
        ∀ f ∈ out.Failed, entryIndex f.Id n ≠ some j := by
  cases answer with
  | error err => simp [sendBatch, hj]
  | ok out =>
    have hsuccessful := mem_indexed (fun id => entryIndex id n)
      (fun _ => (none : Option ErrorValue)) out.Successful j
    have hfailed := mem_indexed (fun f : FailedEntry => entryIndex f.Id n)
      (fun f => some (failedResult f)) out.Failed j
    simp only [Except.ok.injEq, exists_eq_left', sendBatch]
    generalize hwrites : (out.Successful.filterMap fun id => (entryIndex id n).map fun i =>
      (i, (none : Option ErrorValue))) = writes at hsuccessful ⊢
    have hnone : ∀ w ∈ writes, w.2 = none := by
      rw [← hwrites]
      intro w hw
      obtain ⟨id, -, hid⟩ := List.mem_filterMap.mp hw
      obtain ⟨i, -, rfl⟩ := Option.map_eq_some_iff.mp hid
      rfl
    generalize hfwrites : (out.Failed.filterMap fun f => (entryIndex f.Id n).map fun i =>
      (i, some (failedResult f))) = fwrites at hfailed ⊢
    have hsome : ∀ w ∈ fwrites, w.2 ≠ none := by
      rw [← hfwrites]
      intro w hw
      obtain ⟨f, -, hf⟩ := List.mem_filterMap.mp hw
      obtain ⟨i, -, rfl⟩ := Option.map_eq_some_iff.mp hf
      exact Option.some_ne_none _
    by_cases hfail : j ∈ fwrites.map Prod.fst
    · obtain ⟨b, hb, hvalue⟩ := writeAll_mem fwrites
        (writeAll writes (List.replicate n (some noResult))) j hfail
        (by rw [writeAll_length, List.length_replicate]; exact hj)
      obtain ⟨f, hf, hindex⟩ := hfailed.mp hfail
      rw [hvalue]
      exact ⟨fun h => absurd (Option.some.inj h) (hsome (j, b) hb),
        fun h => absurd hindex (h.2 f hf)⟩
    · have hfree : ∀ f ∈ out.Failed, entryIndex f.Id n ≠ some j := fun f hf hindex =>
        hfail (hfailed.mpr ⟨f, hf, hindex⟩)
      rw [writeAll_other _ hfail, ← hsuccessful]
      by_cases hsucc : j ∈ writes.map Prod.fst
      · obtain ⟨b, hb, hvalue⟩ := writeAll_mem writes (List.replicate n (some noResult)) j hsucc
          (by rwa [List.length_replicate])
        obtain rfl : b = none := hnone (j, b) hb
        rw [hvalue]
        exact ⟨fun _ => ⟨hsucc, hfree⟩, fun _ => rfl⟩
      · rw [writeAll_other _ hsucc, List.getElem?_replicate, if_pos hj]
        exact ⟨fun h => absurd (Option.some.inj h) (Option.some_ne_none _),
          fun h => absurd h.1 hsucc⟩

end KnowledgeEngine.SqsSink
