import KnowledgeEngine.ByteText
import KnowledgeEngine.Transitions

/-!
The Redis replay buffer (clients/replaybuffer/redis) for one key: the list of retained
entries and the low-water mark as two Redis keys that expire on their own, and any number of
Append transactions, Prune scripts, Deletes and ReplayAfter calls. ReplayAfter reads the two
keys in two steps. The clock counts milliseconds; as it goes on, the keys whose time is over
are dropped.
-/

namespace KnowledgeEngine.RedisReplay

open ByteText

structure BufferedMessage where
  ID : Bytes
  Payload : Bytes
deriving DecidableEq

/-- A list element: the id, a NUL and the payload. -/
def encode (m : BufferedMessage) : Bytes := m.ID ++ 0 :: m.Payload

/-- The element cut at its first NUL. -/
def decode (e : Bytes) : BufferedMessage :=
  if 0 ∈ e then ⟨e.take (e.idxOf 0), e.drop (e.idxOf 0 + 1)⟩ else ⟨e, []⟩

structure ListKey where
  elems : List Bytes
  deadline : ℕ

structure LowWater where
  id : Bytes
  deadline : ℕ

/-- A ReplayAfter call: begun, its list read, or returned. `before` counts the messages
appended before the call. -/
inductive Reader
  | absent
  | begun (afterMsgID : Bytes) (before : ℕ)
  | ranged (afterMsgID : Bytes) (before : ℕ) (elems : List Bytes)
  | returned (afterMsgID : Bytes) (before : ℕ) (msgs : List BufferedMessage) (complete : Bool)
deriving DecidableEq

/-- The two keys and the calls. `appended` is the history of the key's messages; `outlived`
says that the list has once expired while the low-water mark was alive. -/
structure State where
  now : ℕ
  list : Option ListKey
  lw : Option LowWater
  readers : ℕ → Reader
  appended : List BufferedMessage
  outlived : Bool

def initial : State where
  now := 0
  list := none
  lw := none
  readers := fun _ => .absent
  appended := []
  outlived := false

structure Config where
  MaxSize : ℤ
  TTL : ℕ

/-- The milliseconds EXPIRE gives the list: whole seconds, one for less than one. -/
def Config.listMs (cfg : Config) : ℕ :=
  if 0 < cfg.TTL ∧ cfg.TTL < 1000000000 then 1000 else cfg.TTL / 1000000000 * 1000

/-- The milliseconds SET gives the low-water mark. -/
def Config.lwMs (cfg : Config) : ℕ := cfg.TTL / 1000000

/-- The list's elements; a missing key is an empty list. -/
def State.elems (st : State) : List Bytes := (st.list.map ListKey.elems).getD []

/-- LTRIM start -1. -/
def ltrim (start : ℤ) (elems : List Bytes) : List Bytes :=
  if start < 0 then elems.drop (elems.length + start).toNat else elems.drop start.toNat

/-- A list key of these elements; an empty list is no key. -/
def listKey (elems : List Bytes) (deadline : ℕ) : Option ListKey :=
  if elems = [] then none else some ⟨elems, deadline⟩

/-- The RPUSH, LTRIM and EXPIRE of Append; an EXPIRE of zero seconds deletes the key. -/
def append (cfg : Config) (st : State) (m : BufferedMessage) : State :=
  { st with
    list := if cfg.listMs = 0 then none
      else listKey (ltrim (-cfg.MaxSize) (st.elems ++ [encode m])) (st.now + cfg.listMs)
    appended := st.appended ++ [m] }

/-- The position behind the first element that starts with the id and a NUL. -/
def pruneAt (upToMsgID : Bytes) (elems : List Bytes) : Option ℕ :=
  (elems.findIdx? fun e => (upToMsgID ++ [0]).isPrefixOf e).map (· + 1)

/-- The script of Prune; a SET without a lifetime is an error, behind the LTRIM. -/
def prune (cfg : Config) (st : State) (upToMsgID : Bytes) : State :=
  match st.list with
  | none => st
  | some key =>
    match pruneAt upToMsgID key.elems with
    | none => st
    | some n => { st with
        list := listKey (key.elems.drop n) key.deadline
        lw := if cfg.lwMs = 0 then st.lw else some ⟨upToMsgID, st.now + cfg.lwMs⟩ }

def delete (st : State) : State := { st with list := none, lw := none }

/-- The messages behind the first with the id. -/
def tailAfter (id : Bytes) : List BufferedMessage → Option (List BufferedMessage)
  | [] => none
  | m :: rest => if m.ID = id then some rest else tailAfter id rest

/-- What ReplayAfter makes of the two reads; a missing low-water mark reads as empty. -/
def answer (afterMsgID : Bytes) (elems : List Bytes) (lw : Bytes) : List BufferedMessage × Bool :=
  if elems = [] ∧ lw = [] then ([], false)
  else if afterMsgID = [] then ([], false)
  else if afterMsgID = lw then (elems.map decode, true)
  else
    match tailAfter afterMsgID (elems.map decode) with
    | some tail => (tail, true)
    | none => ([], false)

/-- Time passes and the keys whose time is over are gone. -/
def wait (st : State) (ms : ℕ) : State :=
  let now := st.now + ms
  let list := st.list.filter fun key => now ≤ key.deadline
  let lw := st.lw.filter fun key => now ≤ key.deadline
  { st with
    now := now
    list := list
    lw := lw
    outlived := st.outlived || (st.list.isSome && list.isNone && lw.isSome) }

inductive Label
  | wait (ms : ℕ)
  | append (m : BufferedMessage)
  | prune (upToMsgID : Bytes)
  | delete
  | begin (reader : ℕ) (afterMsgID : Bytes)
  | lrange (reader : ℕ)
  | get (reader : ℕ)

def State.setReader (st : State) (reader : ℕ) (r : Reader) : State :=
  { st with readers := Function.update st.readers reader r }

def step (cfg : Config) (st : State) : Label → Option State
  | .wait ms => some (wait st ms)
  | .append m => some (append cfg st m)
  | .prune upToMsgID => some (prune cfg st upToMsgID)
  | .delete => some (delete st)
  | .begin reader afterMsgID =>
    match st.readers reader with
    | .absent => some (st.setReader reader (.begun afterMsgID st.appended.length))
    | _ => none
  | .lrange reader =>
    match st.readers reader with
    | .begun afterMsgID before => some (st.setReader reader (.ranged afterMsgID before st.elems))
    | _ => none
  | .get reader =>
    match st.readers reader with
    | .ranged afterMsgID before elems =>
      let result := answer afterMsgID elems ((st.lw.map LowWater.id).getD [])
      some (st.setReader reader (.returned afterMsgID before result.1 result.2))
    | _ => none

/-- The claims of the caller on the messages: distinct ids without a NUL, and no more
messages than the buffer holds. -/
structure Regular (cfg : Config) (st : State) : Prop where
  distinct : (st.appended.map BufferedMessage.ID).Nodup
  nulFree : ∀ m ∈ st.appended, 0 ∉ m.ID
  bounded : st.appended.length ≤ cfg.MaxSize

/-- Every reply reported complete has, in order, all messages appended after its anchor and
before its call. -/
def Gapless (st : State) : Prop :=
  ∀ reader a before msgs, st.readers reader = .returned a before msgs true →
    ∀ i m, i < before → st.appended[i]? = some m → m.ID = a →
      ((st.appended.take before).drop (i + 1)).Sublist msgs

end KnowledgeEngine.RedisReplay
