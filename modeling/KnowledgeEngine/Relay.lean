import KnowledgeEngine.Chunks
import KnowledgeEngine.CoreTypes
import KnowledgeEngine.ValueText

/-!
The outbox relay (services/outbox): one RunOnce as steps. The claimed records are cut into
chunks, and at most Concurrency goroutines at a time send a chunk each and then finalize its
records one after the other. The store and the sink answer as they like, and the context may
end at any moment.
-/

namespace KnowledgeEngine.Relay

open Chunks CoreTypes MachineNumbers ValueText

/-- Durations are in nanoseconds. -/
structure RelayConfig where
  Lane : String
  BatchSize : ℤ
  SendBatch : ℤ
  Concurrency : ℤ
  MaxAttempts : ℤ
  BaseBackoff : ℤ
  MaxBackoff : ℤ
  ParkOnPermanent : Bool

def DefaultRelayConfig (lane : String) : RelayConfig where
  Lane := lane
  BatchSize := 100
  SendBatch := 10
  Concurrency := 4
  MaxAttempts := 10
  BaseBackoff := 1000000000
  MaxBackoff := 300000000000
  ParkOnPermanent := false

def RelayConfig.Validate (c : RelayConfig) : Option ErrorValue :=
  if c.Lane = "" then some (.new .invalidInput "outbox relay: lane is required")
  else if c.BatchSize ≤ 0 ∨ c.SendBatch ≤ 0 ∨ c.Concurrency ≤ 0 ∨ c.MaxAttempts ≤ 0 then
    some (.new .invalidInput
      "outbox relay: batch_size, send_batch, concurrency and max_attempts must be positive")
  else if c.BaseBackoff ≤ 0 ∨ c.MaxBackoff < c.BaseBackoff then
    some (.new .invalidInput
      "outbox relay: base_backoff must be positive and max_backoff at least base_backoff")
  else none

/-- The loop of backoff, with the doublings left and the delay so far. -/
def backoffLoop (maxBackoff : ℤ) : ℕ → ℤ → ℤ
  | 0, d => min d maxBackoff
  | n + 1, d => if d ≥ maxBackoff.tdiv 2 then maxBackoff else backoffLoop maxBackoff n (d * 2)

def RelayConfig.backoff (c : RelayConfig) (attempts : ℤ) : ℤ :=
  backoffLoop c.MaxBackoff attempts.toNat c.BaseBackoff

def isPermanent (err : ErrorValue) : Bool :=
  match err.Code with
  | .notFound | .invalidInput | .unauthorized | .forbidden | .conflict => true
  | _ => false

/-- Whether a send failed with a context error, the run's own context having ended. -/
def interrupted (ended : Bool) : Option ErrorValue → Bool
  | none => false
  | some err => ended && err.ended

/-- The calls that finalize a row. -/
inductive StoreCall
  | markSent (id : BitVec 128)
  | retry (id : BitVec 128) (next : ℤ) (lastErr : String)
  | park (id : BitVec 128) (lastErr : String)

def StoreCall.id : StoreCall → BitVec 128
  | markSent id => id
  | retry id _ _ => id
  | park id _ => id

/-- Whether a failed record is parked and not tried again. -/
def RelayConfig.parks (c : RelayConfig) (rec : OutboxRecord) (err : ErrorValue) : Prop :=
  rec.Attempts ≥ c.MaxAttempts ∨ (c.ParkOnPermanent = true ∧ isPermanent err = true)

instance (c : RelayConfig) (rec : OutboxRecord) (err : ErrorValue) :
    Decidable (c.parks rec err) := inferInstanceAs (Decidable (_ ∨ _))

/-- The call finalize makes, with the clock and the jitter it reads. -/
def finalizeCall (c : RelayConfig) (now : ℤ) (jitter : ℤ → ℤ) (rec : OutboxRecord)
    (sendErr : Option ErrorValue) : StoreCall :=
  match sendErr with
  | none => .markSent rec.ID
  | some err =>
    if c.parks rec err then .park rec.ID err.text
    else .retry rec.ID (now + jitter (c.backoff rec.Attempts)) err.text

def finalizeErr (rec : OutboxRecord) (err : ErrorValue) : ErrorValue :=
  err.wrap (err.codeOr .unavailable)
    ("outbox relay: finalize " ++ String.ofList (uuidChars rec.ID))

def claimErr (err : ErrorValue) : ErrorValue :=
  err.wrap (err.codeOr .unavailable) "outbox relay: claim"

/-- The results deliver works with: the sink's, or one mismatch error for every record. -/
def resultsFor (chunk : List OutboxRecord) (results : List (Option ErrorValue)) :
    List (Option ErrorValue) :=
  if results.length = chunk.length then results
  else List.replicate chunk.length (some (.new .internal
    ("outbox relay: sink returned " ++ itoa results.length ++ " results for " ++
      itoa chunk.length ++ " records")))

/-- A record with its result, and whether the context had ended when Send returned. -/
structure Task where
  record : OutboxRecord
  sendErr : Option ErrorValue
  answered : Bool
deriving DecidableEq

/-- A goroutine: in Send, or finalizing with the records left and the errors so far. -/
inductive Worker
  | sending (chunk : List OutboxRecord)
  | settling (todo : List Task) (errs : List ErrorValue)
  | done

/-- A Send with its results, and whether the context had ended when it returned. -/
structure Sending where
  chunk : List OutboxRecord
  results : List (Option ErrorValue)
  ended : Bool

def Sending.tasks (s : Sending) : List Task :=
  List.zipWith (fun record sendErr => ⟨record, sendErr, s.ended⟩) s.chunk
    (resultsFor s.chunk s.results)

/-- What became of a record: whether the context had ended when its result was looked at,
the store call made for it, if any, and that call's error. -/
structure Settlement where
  task : Task
  ended : Bool
  call : Option StoreCall
  err : Option ErrorValue

/-- A RunOnce: the answer of its Claim, the chunks without a goroutine, the goroutines, the
first finalize error, and what RunOnce returned. Sends and settlements are its history. -/
structure Run where
  claim : Option (Except ErrorValue (List OutboxRecord))
  pending : List (List OutboxRecord)
  workers : List Worker
  ended : Bool
  first : Option ErrorValue
  returned : Option (Option ErrorValue)
  sends : List Sending
  settled : List Settlement

def initial : Run where
  claim := none
  pending := []
  workers := []
  ended := false
  first := none
  returned := none
  sends := []
  settled := []

/-- The claimed records. -/
def Run.batch (run : Run) : List OutboxRecord :=
  match run.claim with
  | some (.ok recs) => recs
  | _ => []

/-- A settlement reads the clock and the jitter, and says how its store call ends. -/
inductive Label
  | cancel
  | claimed (answer : Except ErrorValue (List OutboxRecord))
  | spawn
  | sent (worker : ℕ) (results : List (Option ErrorValue))
  | settle (worker : ℕ) (now : ℤ) (jitter : ℤ → ℤ) (err : Option ErrorValue)
  | finish (worker : ℕ)
  | returns

def Worker.active : Worker → Bool
  | done => false
  | _ => true

/-- The records of a goroutine whose Send has not returned. -/
def Worker.unsent : Worker → List OutboxRecord
  | sending chunk => chunk
  | _ => []

def Worker.todo : Worker → List Task
  | settling todo _ => todo
  | _ => []

def Worker.errs : Worker → List ErrorValue
  | settling _ errs => errs
  | _ => []

def Run.setWorker (run : Run) (i : ℕ) (w : Worker) : Run :=
  { run with workers := run.workers.set i w }

/-- One record of a chunk: skipped if its send was interrupted, else finalized. -/
def settlement (c : RelayConfig) (ended : Bool) (now : ℤ) (jitter : ℤ → ℤ) (task : Task)
    (err : Option ErrorValue) : Settlement :=
  if interrupted ended task.sendErr then ⟨task, ended, none, none⟩
  else ⟨task, ended, some (finalizeCall c now jitter task.record task.sendErr), err⟩

def step (c : RelayConfig) (run : Run) : Label → Option Run
  | .cancel =>
    if run.ended ∨ run.returned.isSome then none else some { run with ended := true }
  | .claimed answer =>
    match run.claim, answer with
    | none, .error err =>
      some { run with claim := some answer, returned := some (some (claimErr err)) }
    | none, .ok recs =>
      some { run with claim := some answer, pending := chunks c.SendBatch.toNat recs }
    | some _, _ => none
  | .spawn =>
    match run.pending with
    | [] => none
    | chunk :: rest =>
      if (run.workers.countP Worker.active : ℤ) < c.Concurrency then
        some { run with pending := rest, workers := run.workers ++ [.sending chunk] }
      else none
  | .sent i results =>
    match run.workers[i]? with
    | some (.sending chunk) =>
      let sending : Sending := ⟨chunk, results, run.ended⟩
      some { run.setWorker i (.settling sending.tasks []) with
        sends := sending :: run.sends }
    | _ => none
  | .settle i now jitter err =>
    match run.workers[i]? with
    | some (.settling (task :: todo) errs) =>
      let s := settlement c run.ended now jitter task err
      some { run.setWorker i
          (.settling todo (errs ++ (s.err.map (finalizeErr task.record)).toList)) with
        settled := s :: run.settled }
    | _ => none
  | .finish i =>
    match run.workers[i]? with
    | some (.settling [] errs) =>
      some { run.setWorker i .done with first := run.first.or errs.head? }
    | _ => none
  | .returns =>
    if run.claim.isSome ∧ run.returned = none ∧ run.pending = [] ∧
        run.workers.all fun w => !w.active then
      some { run with returned := some run.first }
    else none

end KnowledgeEngine.Relay
