import KnowledgeEngine.ByteText
import KnowledgeEngine.CoreTypes
import KnowledgeEngine.Transitions

/-!
The caching decorator of a repository (repos/repository/decorators): any number of Get,
Exists, Update and Delete calls on one decorator. Every call on the inner repository, on the
byte cache and on the singleflight group is a step of its own. A load stays registered with
singleflight until its function has returned, and whoever misses the cache meanwhile waits
for its result.
-/

namespace KnowledgeEngine.CachingRepository

open ByteText CoreTypes

/-- The cache envelope without the time it was written. -/
structure Envelope (T : Type) where
  Data : T
  Version : ℤ

/-- The decorator: its name and schema version, the text `%v` prints for an id, and
encoding/json at the type of its envelopes. -/
structure Decorator (T ID : Type) where
  name : String
  version : ℤ
  format : ID → String
  marshal : Envelope T → Except ErrorValue Bytes
  unmarshal : Bytes → Except ErrorValue (Envelope T)

/-- A value and the number of writes its id had seen when it was read. -/
structure Revised (α : Type) where
  value : α
  revision : ℕ

/-- A load: its function is before inner.Get, before the fill, or over. -/
inductive Stage (T : Type)
  | loading
  | loaded (result : Revised T)
  | ended (answer : Except ErrorValue (Revised T))

structure Flight (T ID : Type) where
  id : ID
  stage : Stage T

/-- The revision a load has read. -/
def Flight.read {T ID : Type} (f : Flight T ID) : Option ℕ :=
  match f.stage with
  | .loading => none
  | .loaded result => some result.revision
  | .ended (.ok result) => some result.revision
  | .ended (.error _) => none

/-- What a call is at. A Get is before its cache read, before singleflight, waiting for a
load, or returned; an Exists before its cache read, before the inner repository, or returned
with the revision it found; a write before the inner repository, before its eviction, or
returned. -/
inductive Call (T ID : Type)
  | absent
  | getting (id : ID)
  | missed (id : ID)
  | waiting (id : ID)
  | got (id : ID) (answer : Except ErrorValue (Revised T))
  | checking (id : ID)
  | unsure (id : ID)
  | existed (id : ID) (answer : Except ErrorValue (Option ℕ))
  | updating (id : ID) (entity : T)
  | deleting (id : ID)
  | evicting (id : ID) (revision : ℕ) (result : Option T)
  | wrote (id : ID) (revision : ℕ) (result : Option T)
  | writeFailed (id : ID) (err : ErrorValue)

/-- The inner repository with the number of writes each id has seen, the cache, the loads
registered with singleflight, and the calls. -/
structure State (T ID : Type) where
  inner : ID → Option T
  revision : ID → ℕ
  cache : String → Option (Revised Bytes)
  flights : String → Option (Flight T ID)
  calls : ℕ → Call T ID

def initial {T ID : Type} (inner : ID → Option T) (cache : String → Option (Revised Bytes)) :
    State T ID where
  inner := inner
  revision := fun _ => 0
  cache := cache
  flights := fun _ => none
  calls := fun _ => .absent

/-- A failed Update or Delete may have been applied; its label says so. -/
inductive Label (T ID : Type)
  | getBegins (call : ℕ) (id : ID)
  | getReads (call : ℕ)
  | getJoins (call : ℕ)
  | load (key : String)
  | loadFails (key : String) (err : ErrorValue)
  | fill (key : String)
  | lands (key : String)
  | existsBegins (call : ℕ) (id : ID)
  | existsReads (call : ℕ)
  | existsAsks (call : ℕ)
  | existsFails (call : ℕ) (err : ErrorValue)
  | updateBegins (call : ℕ) (id : ID) (entity : T)
  | updates (call : ℕ) (result : T)
  | deleteBegins (call : ℕ) (id : ID)
  | deletes (call : ℕ)
  | updateFails (call : ℕ) (err : ErrorValue) (stored : Option T)
  | deleteFails (call : ℕ) (err : ErrorValue) (applied : Bool)
  | evict (call : ℕ)
  | expire (key : String)

section

variable {T ID : Type}

def Decorator.cacheKey (d : Decorator T ID) (id : ID) : String :=
  "repo:" ++ d.name ++ ":" ++ d.format id

def Decorator.encode (d : Decorator T ID) (value : T) : Except ErrorValue Bytes :=
  match d.marshal ⟨value, d.version⟩ with
  | .error err => .error (err.wrap .internal "encode cache envelope")
  | .ok data => .ok data

/-- No value for an envelope of another schema version. -/
def Decorator.decode (d : Decorator T ID) (data : Bytes) : Except ErrorValue (Option T) :=
  match d.unmarshal data with
  | .error err => .error (err.wrap .internal "decode cache envelope")
  | .ok env => .ok (if env.Version = d.version then some env.Data else none)

def Decorator.readCache (d : Decorator T ID) (entry : Option (Revised Bytes)) :
    Option (Revised T) :=
  match entry with
  | none => none
  | some e =>
    match d.decode e.value with
    | .ok (some value) => some ⟨value, e.revision⟩
    | _ => none

def State.setCall (st : State T ID) (call : ℕ) (a : Call T ID) : State T ID :=
  { st with calls := Function.update st.calls call a }

def State.setCache (st : State T ID) (key : String) (entry : Option (Revised Bytes)) :
    State T ID :=
  { st with cache := Function.update st.cache key entry }

def State.setFlight (st : State T ID) (key : String) (flight : Option (Flight T ID)) :
    State T ID :=
  { st with flights := Function.update st.flights key flight }

/-- A write reaches the inner repository. -/
def State.write [DecidableEq ID] (st : State T ID) (id : ID) (stored : Option T) :
    State T ID :=
  { st with
    inner := Function.update st.inner id stored
    revision := Function.update st.revision id (st.revision id + 1) }

/-- The call as it is once the load of the key has given its answer. -/
def Call.land (d : Decorator T ID) (key : String) (answer : Except ErrorValue (Revised T)) :
    Call T ID → Call T ID
  | .waiting id => if d.cacheKey id = key then .got id answer else .waiting id
  | call => call

/-- A call that missed the cache joins the load of its key, or starts one. -/
def State.join (d : Decorator T ID) (st : State T ID) (call : ℕ) (id : ID) : State T ID :=
  match st.flights (d.cacheKey id) with
  | some _ => st.setCall call (.waiting id)
  | none => (st.setFlight (d.cacheKey id) (some ⟨id, .loading⟩)).setCall call (.waiting id)

/-- The load of the key stores what it read and its function returns. -/
def State.fill (d : Decorator T ID) (st : State T ID) (key : String) (id : ID)
    (result : Revised T) : State T ID :=
  match d.encode result.value with
  | .error _ => st.setFlight key (some ⟨id, .ended (.ok result)⟩)
  | .ok data =>
    (st.setCache key (some ⟨data, result.revision⟩)).setFlight key
      (some ⟨id, .ended (.ok result)⟩)

/-- The load of the key leaves singleflight and gives its answer to everyone waiting. -/
def State.land (d : Decorator T ID) (st : State T ID) (key : String)
    (answer : Except ErrorValue (Revised T)) : State T ID :=
  { st.setFlight key none with calls := fun call => (st.calls call).land d key answer }

variable [DecidableEq ID]

def step (d : Decorator T ID) (st : State T ID) : Label T ID → Option (State T ID)
  | .getBegins call id =>
    match st.calls call with
    | .absent => some (st.setCall call (.getting id))
    | _ => none
  | .getReads call =>
    match st.calls call with
    | .getting id =>
      match d.readCache (st.cache (d.cacheKey id)) with
      | some result => some (st.setCall call (.got id (.ok result)))
      | none => some (st.setCall call (.missed id))
    | _ => none
  | .getJoins call =>
    match st.calls call with
    | .missed id => some (st.join d call id)
    | _ => none
  | .load key =>
    match st.flights key with
    | some ⟨id, .loading⟩ =>
      match st.inner id with
      | some entity => some (st.setFlight key (some ⟨id, .loaded ⟨entity, st.revision id⟩⟩))
      | none => none
    | _ => none
  | .loadFails key err =>
    match st.flights key with
    | some ⟨id, .loading⟩ => some (st.setFlight key (some ⟨id, .ended (.error err)⟩))
    | _ => none
  | .fill key =>
    match st.flights key with
    | some ⟨id, .loaded result⟩ => some (st.fill d key id result)
    | _ => none
  | .lands key =>
    match st.flights key with
    | some ⟨_, .ended answer⟩ => some (st.land d key answer)
    | _ => none
  | .existsBegins call id =>
    match st.calls call with
    | .absent => some (st.setCall call (.checking id))
    | _ => none
  | .existsReads call =>
    match st.calls call with
    | .checking id =>
      match d.readCache (st.cache (d.cacheKey id)) with
      | some result => some (st.setCall call (.existed id (.ok (some result.revision))))
      | none => some (st.setCall call (.unsure id))
    | _ => none
  | .existsAsks call =>
    match st.calls call with
    | .unsure id =>
      some (st.setCall call
        (.existed id (.ok ((st.inner id).map fun _ => st.revision id))))
    | _ => none
  | .existsFails call err =>
    match st.calls call with
    | .unsure id => some (st.setCall call (.existed id (.error err)))
    | _ => none
  | .updateBegins call id entity =>
    match st.calls call with
    | .absent => some (st.setCall call (.updating id entity))
    | _ => none
  | .updates call result =>
    match st.calls call with
    | .updating id _ =>
      match st.inner id with
      | some _ =>
        some ((st.write id (some result)).setCall call
          (.evicting id (st.revision id + 1) (some result)))
      | none => none
    | _ => none
  | .deleteBegins call id =>
    match st.calls call with
    | .absent => some (st.setCall call (.deleting id))
    | _ => none
  | .deletes call =>
    match st.calls call with
    | .deleting id =>
      match st.inner id with
      | some _ =>
        some ((st.write id none).setCall call (.evicting id (st.revision id + 1) none))
      | none => none
    | _ => none
  | .updateFails call err stored =>
    match st.calls call with
    | .updating id _ =>
      match stored with
      | some result => some ((st.write id (some result)).setCall call (.writeFailed id err))
      | none => some (st.setCall call (.writeFailed id err))
    | _ => none
  | .deleteFails call err applied =>
    match st.calls call with
    | .deleting id =>
      if applied then some ((st.write id none).setCall call (.writeFailed id err))
      else some (st.setCall call (.writeFailed id err))
    | _ => none
  | .evict call =>
    match st.calls call with
    | .evicting id revision result =>
      some ((st.setCache (d.cacheKey id) none).setCall call (.wrote id revision result))
    | _ => none
  | .expire key => some (st.setCache key none)

/-- The call has not reported the entity of the id from before its revision `n`. -/
def Call.FreshFrom (id : ID) (n : ℕ) : Call T ID → Prop
  | .got id' (.ok result) => id' = id → n ≤ result.revision
  | .existed id' (.ok (some revision)) => id' = id → n ≤ revision
  | _ => True

end

end KnowledgeEngine.CachingRepository
