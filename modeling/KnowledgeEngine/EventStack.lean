import KnowledgeEngine.Transitions

/-!
The event-handler stack of clients/messaging/decorators: deduplication, then the
retrying client stack around the inner handler, then the dead-letter queue.
Deduplication records a key before its handler runs, so a key is remembered even
when the delivery that recorded it failed and its message is to be redriven. A
message is therefore acknowledged safely exactly when, until its key is first
handled or dead-lettered, deliveries of the key are never closer than the TTL.
-/

namespace KnowledgeEngine.EventStack

open List RunSplits

structure Message where
  ID : String
  Topic : String
  Payload : List UInt8
  Metadata : List (String × String)
  Timestamp : Int
deriving DecidableEq

structure DeadLetter where
  ID : String
  Payload : List UInt8
  Reason : String
deriving DecidableEq

/-- dedup.Memory: when each key was first recorded, and how long it counts. -/
structure Memory where
  seenAt : String → Option Int
  ttl : Int

namespace Memory

def newMemory (ttl : Int) : Memory := ⟨fun _ => none, ttl⟩

def record (m : Memory) (key : String) (now : Int) : Memory :=
  { m with seenAt := Function.update m.seenAt key (some now) }

def seen (m : Memory) (now : Int) (key : String) : Bool × Memory :=
  match m.seenAt key with
  | some at_ => if m.ttl = 0 ∨ now - at_ < m.ttl then (true, m) else (false, m.record key now)
  | none => (false, m.record key now)

@[simp] theorem record_self (m : Memory) (key : String) (now : Int) :
    (m.record key now).seenAt key = some now := by simp [record]

theorem record_of_ne (m : Memory) (key other : String) (now : Int) (h : other ≠ key) :
    (m.record key now).seenAt other = m.seenAt other := by simp [record, h]

theorem seen_cases (m : Memory) (now : Int) (key : String) :
    (∃ t, m.seenAt key = some t ∧ (m.ttl = 0 ∨ now - t < m.ttl) ∧ m.seen now key = (true, m)) ∨
    ((∀ t, m.seenAt key = some t → m.ttl ≠ 0 ∧ m.ttl ≤ now - t) ∧
      m.seen now key = (false, m.record key now)) := by
  unfold seen
  cases hat : m.seenAt key with
  | none => exact Or.inr ⟨by simp, rfl⟩
  | some t =>
    by_cases hdup : m.ttl = 0 ∨ now - t < m.ttl
    · exact Or.inl ⟨t, rfl, hdup, by simp only [if_pos hdup]⟩
    · refine Or.inr ⟨?_, by simp only [if_neg hdup]⟩
      intro t' ht'
      obtain rfl := Option.some.inj ht'
      exact ⟨fun h0 => hdup (Or.inl h0), by omega⟩

end Memory

/-- One attempt as its collaborators decide it: whether the retry budget or the
circuit breaker refuses it, and what the inner handler returns when it runs. -/
structure Attempt where
  budget : Option String
  breaker : Option String
  result : Option String
deriving DecidableEq

/-- One delivery of a message. The retrier, if there is one, goes on to the
further attempts only while the earlier ones fail. -/
structure Delivery where
  now : Int
  msg : Message
  first : Attempt
  retries : List Attempt
  backend : Option String
deriving DecidableEq

structure EventStackDeps where
  keyOf : Option (Message → String)
  deadLetter : Bool
  retrier : Bool
  circuitBreaker : Bool

/-- The error an operation returned, with every result of the inner handler. -/
abbrev Ran := Option String × List (Option String)

variable (deps : EventStackDeps)

/-- clientstack.Run, inner part: the circuit breaker around one handler call. -/
def execute (a : Attempt) : Ran :=
  match deps.circuitBreaker, a.breaker with
  | true, some e => (some e, [])
  | _, _ => (a.result, [a.result])

/-- The operation the retrier repeats: its budget is asked before every attempt. -/
def tryOnce (a : Attempt) : Ran :=
  match a.budget with
  | some e => (some e, [])
  | none => execute deps a

/-- The retrier stops at the first success; where it gives up is where the list
of attempts ends. -/
def retry (deps : EventStackDeps) (a : Attempt) : List Attempt → Ran
  | [] => tryOnce deps a
  | b :: rest =>
    match (tryOnce deps a).1 with
    | none => tryOnce deps a
    | some _ => ((retry deps b rest).1, (tryOnce deps a).2 ++ (retry deps b rest).2)

def runStack (d : Delivery) : Ran :=
  if deps.retrier then retry deps d.first d.retries else execute deps d.first

/-- deadletter.Queue.Send swallows a backend failure and reports it as false. -/
def send (backend : Option String) : Bool := backend.isNone

/-- What one delivery did: the error returned to the consumer, the results of
the inner handler and the letter the dead-letter backend recorded. -/
structure Report where
  err : Option String
  invocations : List (Option String)
  recorded : Option DeadLetter
deriving DecidableEq

def EventStackDeps.key (msg : Message) : String :=
  match deps.keyOf with
  | some keyOf => keyOf msg
  | none => msg.ID

/-- The stack behind deduplication. -/
def process (d : Delivery) : Report :=
  let ran := runStack deps d
  match ran.1 with
  | none => ⟨none, ran.2, none⟩
  | some e =>
    if deps.deadLetter && send d.backend then
      ⟨none, ran.2, some ⟨d.msg.ID, d.msg.Payload, e⟩⟩
    else ⟨some e, ran.2, none⟩

/-- The handler returned by WrapHandler, with its deduplicator as state. -/
def wrapHandler (dedup : Option Memory) (d : Delivery) : Report × Option Memory :=
  match dedup with
  | none => (process deps d, none)
  | some m =>
    match m.seen d.now (deps.key d.msg) with
    | (true, m) => (⟨none, [], none⟩, some m)
    | (false, m) => (process deps d, some m)

/-- Every delivery of a run with its report, and the deduplicator afterwards. -/
def run (ttl : Int) (ds : List Delivery) : List (Delivery × Report) × Option Memory :=
  ds.foldl (fun acc d =>
    let out := wrapHandler deps acc.2 d
    (acc.1 ++ [(d, out.1)], out.2)) ([], some (Memory.newMemory ttl))

/-- The inner handler succeeded during the delivery, or the letter was recorded. -/
def Report.Served (r : Report) : Prop := none ∈ r.invocations ∨ r.recorded ≠ none

/-- Some delivery of the key had been served. -/
def ServedKey (key : String) (es : List (Delivery × Report)) : Prop :=
  ∃ e ∈ es, deps.key e.1.msg = key ∧ e.2.Served

/-- Whenever the wrapped handler returns nil, some delivery of the same key had
been served by then. -/
def NeverLost (ttl : Int) (ds : List Delivery) : Prop :=
  AtEverySplit (fun pre e => e.2.err = none →
    ServedKey deps (deps.key e.1.msg) (pre ++ [e])) (run deps ttl ds).1

/-- What the collaborators decide about a delivery that reaches the handler: an
attempt succeeds, or the dead-letter queue is there and records the letter. -/
def Handled (d : Delivery) : Prop :=
  (runStack deps d).1 = none ∨ deps.deadLetter = true ∧ d.backend = none

instance (d : Delivery) : Decidable (Handled deps d) :=
  inferInstanceAs (Decidable (_ ∨ _))

/-- When a key was last delivered. -/
def last (key : String) (ds : List Delivery) : Option Int :=
  ((ds.filter (fun d => deps.key d.msg = key)).getLast?).map Delivery.now

/-- Until a key is first handled or dead-lettered, its deliveries are at least a
TTL apart; with the TTL that never expires there is no second one. -/
def SpacedUntilHandled (ttl : Int) (ds : List Delivery) : Prop :=
  AtEverySplit (fun pre d =>
    (∀ e ∈ pre, deps.key e.msg = deps.key d.msg → ¬ Handled deps e) →
    ∀ t, last deps (deps.key d.msg) pre = some t → ttl ≠ 0 ∧ ttl ≤ d.now - t) ds

theorem execute_none_iff {a : Attempt} : (execute deps a).1 = none ↔ none ∈ (execute deps a).2 := by
  unfold execute
  split
  · simp
  · simp [eq_comm]

theorem tryOnce_none_iff (a : Attempt) : (tryOnce deps a).1 = none ↔ none ∈ (tryOnce deps a).2 := by
  unfold tryOnce
  split
  · simp
  · exact execute_none_iff deps

theorem retry_none_iff (a : Attempt) (rest : List Attempt) :
    (retry deps a rest).1 = none ↔ none ∈ (retry deps a rest).2 := by
  induction rest generalizing a with
  | nil => exact tryOnce_none_iff deps a
  | cons b rest ih =>
    have honce := tryOnce_none_iff deps a
    cases h : (tryOnce deps a).1 with
    | none => simpa only [retry, h] using honce
    | some e =>
      rw [h] at honce
      have hnot : none ∉ (tryOnce deps a).2 := fun hmem => by simpa using honce.mpr hmem
      simp only [retry, h, mem_append, hnot, false_or]
      exact ih b

/-- The client stack returns nil exactly when the inner handler did. -/
theorem runStack_none_iff (d : Delivery) :
    (runStack deps d).1 = none ↔ none ∈ (runStack deps d).2 := by
  unfold runStack
  split_ifs
  · exact retry_none_iff deps d.first d.retries
  · exact execute_none_iff deps

theorem process_err_none_iff (d : Delivery) :
    (process deps d).err = none ↔ Handled deps d := by
  unfold process Handled
  cases h : (runStack deps d).1 with
  | none => simp only [h, true_or]
  | some e =>
    cases deps.deadLetter <;> cases d.backend <;> simp [h, send]

variable {d : Delivery}

theorem process_served_iff : (process deps d).Served ↔ Handled deps d := by
  have hran := runStack_none_iff deps d
  unfold process Handled Report.Served
  cases h : (runStack deps d).1 with
  | none =>
    simp only [h, true_or, iff_true]
    exact Or.inl (hran.mp h)
  | some e =>
    have hnot : none ∉ (runStack deps d).2 := fun hmem => by simpa [h] using hran.mpr hmem
    cases deps.deadLetter <;> cases d.backend <;> simp [h, send, hnot]

theorem run_concat (ttl : Int) (ds : List Delivery) (d : Delivery) :
    run deps ttl (ds ++ [d]) =
      ((run deps ttl ds).1 ++ [(d, (wrapHandler deps (run deps ttl ds).2 d).1)],
        (wrapHandler deps (run deps ttl ds).2 d).2) := by
  simp [run]

/-- A remembered key within its TTL is acknowledged without running anything;
any other delivery is processed and its key recorded now. -/
theorem wrapHandler_cases (m : Memory) (d : Delivery) :
    (∃ t, m.seenAt (deps.key d.msg) = some t ∧ (m.ttl = 0 ∨ d.now - t < m.ttl) ∧
      wrapHandler deps (some m) d = (⟨none, [], none⟩, some m)) ∨
    ((∀ t, m.seenAt (deps.key d.msg) = some t → m.ttl ≠ 0 ∧ m.ttl ≤ d.now - t) ∧
      wrapHandler deps (some m) d =
        (process deps d, some (m.record (deps.key d.msg) d.now))) := by
  unfold wrapHandler
  rcases m.seen_cases d.now (deps.key d.msg) with ⟨t, hat, hdup, hseen⟩ | ⟨hnew, hseen⟩
  · exact Or.inl ⟨t, hat, hdup, by simp only [hseen]⟩
  · exact Or.inr ⟨hnew, by simp only [hseen]⟩

/-- The deduplicator of a run is always there and keeps its TTL. -/
theorem run_dedup (ttl : Int) (ds : List Delivery) :
    ∃ m, (run deps ttl ds).2 = some m ∧ m.ttl = ttl := by
  induction ds using List.reverseRecOn with
  | nil => exact ⟨Memory.newMemory ttl, rfl, rfl⟩
  | append_singleton ds d ih =>
    obtain ⟨m, hm, httl⟩ := ih
    rw [run_concat, hm]
    rcases wrapHandler_cases deps m d with ⟨_, _, _, hskip⟩ | ⟨_, hrun⟩
    · exact ⟨m, by rw [hskip], httl⟩
    · exact ⟨m.record (deps.key d.msg) d.now, by rw [hrun], httl⟩

/-- A key is served, or all its deliveries failed and the last one is recorded. -/
def Tracked (ttl : Int) (ds : List Delivery) (key : String) : Prop :=
  ServedKey deps key (run deps ttl ds).1 ∨
    ((∀ e ∈ ds, deps.key e.msg = key → ¬ Handled deps e) ∧
      ∀ m, (run deps ttl ds).2 = some m → m.seenAt key = last deps key ds)

theorem last_concat (key : String) (ds : List Delivery) (d : Delivery) :
    last deps key (ds ++ [d]) =
      if deps.key d.msg = key then some d.now else last deps key ds := by
  unfold last
  by_cases hk : deps.key d.msg = key <;> simp [filter_append, hk]

/-- A delivery reported as served has been handled by its collaborators. -/
theorem run_served_handled (ttl : Int) (ds : List Delivery) (e : Delivery × Report)
    (he : e ∈ (run deps ttl ds).1) (hs : e.2.Served) :
    e.1 ∈ ds ∧ Handled deps e.1 := by
  induction ds using List.reverseRecOn with
  | nil => simp [run] at he
  | append_singleton ds d ih =>
    obtain ⟨m, hm, _⟩ := run_dedup deps ttl ds
    rw [run_concat, hm] at he
    rcases mem_append.mp he with he | he
    · obtain ⟨hmem, hh⟩ := ih he
      exact ⟨mem_append_left _ hmem, hh⟩
    · rw [mem_singleton] at he
      subst e
      refine ⟨by simp, ?_⟩
      rcases wrapHandler_cases deps m d with ⟨t, _, _, hskip⟩ | ⟨_, hrun⟩
      · simp [hskip, Report.Served] at hs
      · rw [hrun] at hs
        exact (process_served_iff deps).mp hs

variable {deps} {ttl : Int} {ds : List Delivery}

/-- Processing a delivery keeps every key tracked. -/
theorem tracked_process {m : Memory} (hm : (run deps ttl ds).2 = some m)
    (hrun : wrapHandler deps (some m) d = (process deps d, some (m.record (deps.key d.msg) d.now)))
    {key : String} (h : Tracked deps ttl ds key) : Tracked deps ttl (ds ++ [d]) key := by
  have hreports := run_concat deps ttl ds d
  rw [hm, hrun] at hreports
  unfold Tracked
  rw [hreports]
  rcases h with ⟨e, he, hkey, hs⟩ | ⟨hun, hlast⟩
  · exact Or.inl ⟨e, mem_append_left _ he, hkey, hs⟩
  · by_cases hk : deps.key d.msg = key
    · by_cases hh : Handled deps d
      · exact Or.inl ⟨(d, process deps d), by simp, hk, (process_served_iff deps).mpr hh⟩
      · refine Or.inr ⟨?_, ?_⟩
        · intro e he hke
          rcases mem_append.mp he with he | he
          · exact hun e he hke
          · rw [mem_singleton.mp he]
            exact hh
        · intro m' hm'
          rw [← Option.some.inj hm', last_concat, if_pos hk, ← hk, Memory.record_self]
    · refine Or.inr ⟨?_, ?_⟩
      · intro e he hke
        rcases mem_append.mp he with he | he
        · exact hun e he hke
        · rw [mem_singleton.mp he] at hke
          exact absurd hke hk
      · intro m' hm'
        rw [← Option.some.inj hm', last_concat, if_neg hk, m.record_of_ne _ _ _ (Ne.symm hk)]
        exact hlast m hm

/-- Spacing means a key that was never handled is never skipped. -/
theorem spaced_tracked (hspaced : SpacedUntilHandled deps ttl ds) (key : String) :
    Tracked deps ttl ds key := by
  induction ds using List.reverseRecOn with
  | nil =>
    refine Or.inr ⟨by simp, ?_⟩
    intro m hm
    obtain rfl := Option.some.inj hm
    rfl
  | append_singleton ds d ih =>
    obtain ⟨hpre, hlastSpaced⟩ := (atEverySplit_concat _ ds d).mp hspaced
    obtain ⟨m, hm, httl⟩ := run_dedup deps ttl ds
    rcases wrapHandler_cases deps m d with ⟨t, hat, hdup, hskip⟩ | ⟨_, hrun⟩
    · have hreports := run_concat deps ttl ds d
      rw [hm, hskip] at hreports
      unfold Tracked
      rw [hreports]
      by_cases hk : deps.key d.msg = key
      · rcases ih hpre with ⟨e, he, hke, hs⟩ | ⟨hun, hlast⟩
        · exact Or.inl ⟨e, mem_append_left _ he, hke, hs⟩
        · subst key
          rw [hlast m hm] at hat
          obtain ⟨hne, hle⟩ := hlastSpaced hun t hat
          omega
      · rcases ih hpre with ⟨e, he, hke, hs⟩ | ⟨hun, hlast⟩
        · exact Or.inl ⟨e, mem_append_left _ he, hke, hs⟩
        · refine Or.inr ⟨?_, ?_⟩
          · intro e he hke
            rcases mem_append.mp he with he | he
            · exact hun e he hke
            · rw [mem_singleton.mp he] at hke
              exact absurd hke hk
          · intro m' hm'
            rw [← Option.some.inj hm', last_concat, if_neg hk]
            exact hlast m hm
    · exact tracked_process hm hrun (ih hpre)

theorem neverLost_concat {m : Memory} (hm : (run deps ttl ds).2 = some m) :
    NeverLost deps ttl (ds ++ [d]) ↔ NeverLost deps ttl ds ∧
      ((wrapHandler deps (some m) d).1.err = none → ServedKey deps (deps.key d.msg)
        ((run deps ttl ds).1 ++ [(d, (wrapHandler deps (some m) d).1)])) := by
  unfold NeverLost
  rw [run_concat, hm]
  exact atEverySplit_concat _ _ _

/-- Acknowledged messages are never lost in exactly the runs whose deliveries of
a key are a TTL apart until the key is first handled or dead-lettered. -/
theorem neverLost_iff_spaced (deps : EventStackDeps) (ttl : Int) (ds : List Delivery) :
    NeverLost deps ttl ds ↔ SpacedUntilHandled deps ttl ds := by
  induction ds using List.reverseRecOn with
  | nil => exact ⟨fun _ => atEverySplit_nil, fun _ => atEverySplit_nil⟩
  | append_singleton ds d ih =>
    obtain ⟨m, hm, httl⟩ := run_dedup deps ttl ds
    rw [neverLost_concat hm, ih]
    refine Iff.trans (and_congr_right ?_) (atEverySplit_concat _ ds d).symm
    intro hspaced
    have htracked := spaced_tracked hspaced (deps.key d.msg)
    rcases wrapHandler_cases deps m d with ⟨t, hat, hdup, hskip⟩ | ⟨hnew, hrun⟩
    · rw [hskip]
      constructor
      · intro hserved hun t' ht'
        obtain ⟨e, he, hke, hs⟩ := hserved rfl
        rcases mem_append.mp he with he | he
        · obtain ⟨hmem, hh⟩ := run_served_handled deps ttl ds e he hs
          exact absurd hh (hun e.1 hmem hke)
        · rw [mem_singleton.mp he] at hs
          simp [Report.Served] at hs
      · intro hlast _
        rcases htracked with ⟨e, he, hke, hs⟩ | ⟨hun, hseen⟩
        · exact ⟨e, mem_append_left _ he, hke, hs⟩
        · rw [hseen m hm] at hat
          obtain ⟨hne, hle⟩ := hlast hun t hat
          omega
    · rw [hrun]
      constructor
      · intro _ hun t ht
        rcases htracked with ⟨e, he, hke, hs⟩ | ⟨_, hseen⟩
        · obtain ⟨hmem, hh⟩ := run_served_handled deps ttl ds e he hs
          exact absurd hh (hun e.1 hmem hke)
        · rw [← httl]
          exact hnew t (by rw [hseen m hm, ht])
      · intro _ herr
        refine ⟨(d, process deps d), by simp, rfl, ?_⟩
        rw [process_served_iff, ← process_err_none_iff]
        exact herr

/-- A handler that fails once while the dead-letter backend is down, and the
redelivery of its message one second later. -/
def outageThenRedelivery : List Delivery :=
  [⟨0, ⟨"m1", "t", [120], [], 0⟩, ⟨none, none, some "boom"⟩, [], some "dlq down"⟩,
    ⟨1, ⟨"m1", "t", [120], [], 0⟩, ⟨none, none, none⟩, [], none⟩]

theorem outageThenRedelivery_lost :
    (run ⟨none, true, false, false⟩ 0 outageThenRedelivery).1.map (fun e => e.2) =
        [⟨some "boom", [some "boom"], none⟩, ⟨none, [], none⟩] ∧
      ¬ NeverLost ⟨none, true, false, false⟩ 0 outageThenRedelivery := by
  have hreports : (run ⟨none, true, false, false⟩ 0 outageThenRedelivery).1 =
      outageThenRedelivery.zip [⟨some "boom", [some "boom"], none⟩, ⟨none, [], none⟩] := by
    decide
  refine ⟨by rw [hreports]; decide, ?_⟩
  intro h
  obtain ⟨e, he, _, hs⟩ := h [_] _ [] hreports rfl
  rcases mem_append.mp he with he | he
  · rw [mem_singleton.mp he] at hs
    simp [Report.Served] at hs
  · rw [mem_singleton.mp he] at hs
    simp [Report.Served] at hs

end KnowledgeEngine.EventStack
