import KnowledgeEngine.CoreTypes
import Mathlib.Data.List.AList
import Mathlib.Data.List.Perm.Basic

/-!
The Redis Pub/Sub subscriber (clients/messaging/redis): the registries of channel and
pattern handlers, the calls that change them, and the dispatch loop over the copies Redis
pushes. Every registration wraps its handler into a closure of its own; the closure's
number tells the registrations apart. How Redis matches a glob pattern is a parameter.
-/

namespace KnowledgeEngine.RedisSubscriber

open CoreTypes List List

/-- A wrapped handler. -/
structure Registered (H : Type) where
  id : ℕ
  handler : H
deriving DecidableEq

abbrev Registry (H : Type) := AList fun _ : String => Registered H

variable {H : Type}

def ids (registry : Registry H) : List ℕ := registry.entries.map fun e => e.2.id

/-- No two registrations share a closure, and the next one is new. -/
structure Sound (channels patterns : Registry H) (minted : ℕ) : Prop where
  distinct : (ids channels ++ ids patterns).Nodup
  minted : ∀ id ∈ ids channels ++ ids patterns, id < minted

variable {channels patterns : Registry H} {n : ℕ}

theorem Sound.swap (h : Sound channels patterns n) : Sound patterns channels n :=
  ⟨perm_append_comm.nodup_iff.mp h.distinct,
    fun id hid => h.minted id (perm_append_comm.mem_iff.mp hid)⟩

theorem ids_erase_sublist (registry : Registry H) (key : String) :
    (ids (registry.erase key)).Sublist (ids registry) :=
  (kerase_sublist key registry.entries).map _

theorem Sound.erase (h : Sound channels patterns n) (key : String) :
    Sound (channels.erase key) patterns n := by
  have hsub := (ids_erase_sublist channels key).append_right (ids patterns)
  exact ⟨h.distinct.sublist hsub, fun id hid => h.minted id (hsub.subset hid)⟩

theorem ids_insert (registry : Registry H) (key : String) (r : Registered H) :
    ids (registry.insert key r) = r.id :: ids (registry.erase key) := rfl

theorem Sound.insert (h : Sound channels patterns n) (key : String) (handler : H) :
    Sound (channels.insert key ⟨n, handler⟩) patterns (n + 1) := by
  have herased := h.erase key
  constructor
  · rw [ids_insert, cons_append, nodup_cons]
    exact ⟨fun hmem => Nat.lt_irrefl n (herased.minted n hmem), herased.distinct⟩
  · intro id hid
    rw [ids_insert, cons_append, mem_cons] at hid
    rcases hid with rfl | hid
    · exact Nat.lt_succ_self _
    · exact Nat.lt_succ_of_lt (herased.minted id hid)

/-- The subscriber's fields; `started` says that the multiplexed subscription is open. -/
structure Subscriber (H : Type) where
  channels : Registry H
  patterns : Registry H
  minted : ℕ
  started : Bool
  closed : Bool
  sound : Sound channels patterns minted

def newSubscriber : Subscriber H where
  channels := ∅
  patterns := ∅
  minted := 0
  started := false
  closed := false
  sound := ⟨nodup_nil, by simp [ids]⟩

/-- Which registry a call works on. -/
inductive Kind
  | channel | pattern
deriving DecidableEq

def Subscriber.registry (s : Subscriber H) : Kind → Registry H
  | .channel => s.channels
  | .pattern => s.patterns

def register (s : Subscriber H) (kind : Kind) (key : String) (handler : H) :
    Except AppError (Subscriber H) :=
  if s.closed then .error ⟨.unavailable, "redis subscriber closed"⟩
  else
    match kind with
    | .channel => .ok { s with
        channels := s.channels.insert key ⟨s.minted, handler⟩
        minted := s.minted + 1
        started := true
        sound := s.sound.insert key handler }
    | .pattern => .ok { s with
        patterns := s.patterns.insert key ⟨s.minted, handler⟩
        minted := s.minted + 1
        started := true
        sound := (s.sound.swap.insert key handler).swap }

def rollback (s : Subscriber H) (kind : Kind) (key : String) : Subscriber H :=
  match kind with
  | .channel => { s with channels := s.channels.erase key, sound := s.sound.erase key }
  | .pattern => { s with
      patterns := s.patterns.erase key
      sound := (s.sound.swap.erase key).swap }

/-- Registering, then the broker's answer to the (P)SUBSCRIBE. -/
def subscribe (kind : Kind) (failure : String) (s : Subscriber H) (key : String) (handler : H)
    (accepted : Bool) : Except AppError Unit × Subscriber H :=
  match register s kind key handler with
  | .error err => (.error err, s)
  | .ok s' =>
    if accepted then (.ok (), s') else (.error ⟨.unavailable, failure⟩, rollback s' kind key)

def Subscribe (s : Subscriber H) (topic : String) (handler : H) (accepted : Bool) :
    Except AppError Unit × Subscriber H :=
  subscribe .channel "redis subscribe" s topic handler accepted

def PSubscribe (s : Subscriber H) (pattern : String) (handler : H) (accepted : Bool) :
    Except AppError Unit × Subscriber H :=
  subscribe .pattern "redis psubscribe" s pattern handler accepted

/-- The handler goes first; the broker hears of it only if there was one. After Close the
subscription is gone and the broker hears nothing. -/
def unsubscribe (kind : Kind) (failure : String) (s : Subscriber H) (key : String)
    (accepted : Bool) : Except AppError Unit × Subscriber H :=
  if !(s.started && !s.closed && ((s.registry kind).lookup key).isSome) || accepted then
    (.ok (), rollback s kind key)
  else (.error ⟨.unavailable, failure⟩, rollback s kind key)

def Unsubscribe (s : Subscriber H) (topic : String) (accepted : Bool) :
    Except AppError Unit × Subscriber H :=
  unsubscribe .channel "redis unsubscribe" s topic accepted

def PUnsubscribe (s : Subscriber H) (pattern : String) (accepted : Bool) :
    Except AppError Unit × Subscriber H :=
  unsubscribe .pattern "redis punsubscribe" s pattern accepted

def Close (s : Subscriber H) (accepted : Bool) : Except AppError Unit × Subscriber H :=
  if s.closed || !s.started || accepted then (.ok (), { s with closed := true })
  else (.error ⟨.unavailable, "redis subscriber close"⟩, { s with closed := true })

structure Published where
  Channel : String
  Payload : String

/-- A pushed copy; `publication` is the published message it is a copy of. -/
structure Message where
  Channel : String
  Pattern : String
  Payload : String
  publication : ℕ

/-- A handler's invocation with its interfaces.Message. -/
structure Call (H : Type) where
  handler : Registered H
  Topic : String
  Payload : String
  publication : ℕ

/-- The handler of one pushed copy: exact channel first, then matched pattern. -/
def route (s : Subscriber H) (msg : Message) : Option (Registered H) :=
  (s.channels.lookup msg.Channel).or
    (if msg.Pattern ≠ "" then s.patterns.lookup msg.Pattern else none)

def invoke (s : Subscriber H) (msg : Message) : Option (Call H) :=
  (route s msg).map fun handler => ⟨handler, msg.Channel, msg.Payload, msg.publication⟩

def dispatch (s : Subscriber H) (stream : List Message) : List (Call H) :=
  stream.filterMap (invoke s)

section Broker

variable (globMatch : String → String → Bool) (s : Subscriber H)

/-- The copies of one published message: one for its channel's subscription and one for
each matching pattern's. -/
def copies (msg : Published) (publication : ℕ) : List Message :=
  (if msg.Channel ∈ s.channels then [⟨msg.Channel, "", msg.Payload, publication⟩] else []) ++
    (s.patterns.keys.filter fun p => globMatch p msg.Channel).map fun p =>
      ⟨msg.Channel, p, msg.Payload, publication⟩

def pushes (messages : List Published) : List Message :=
  messages.zipIdx.flatMap fun (msg, i) => copies globMatch s msg i

/-- The calls one message should lead to: its channel's handler and the handler of every
pattern that matches, once each. -/
def wanted (msg : Published) (publication : ℕ) : List (Call H) :=
  ((s.channels.lookup msg.Channel).toList ++
    (s.patterns.keys.filter fun p => globMatch p msg.Channel).filterMap s.patterns.lookup).map
      fun handler => ⟨handler, msg.Channel, msg.Payload, publication⟩

/-- No pattern that matches the channel is empty, and none does if it has a handler. -/
def Apart (channel : String) : Prop :=
  ∀ p ∈ s.patterns, globMatch p channel → p ≠ "" ∧ channel ∉ s.channels

end Broker

/-- Of the parts tagged with their item's position, a filter keeps one item's. -/
theorem filter_tagged {α β : Type} {tag : β → ℕ} {parts : α → ℕ → List β}
    (htag : ∀ a i, ∀ b ∈ parts a i, tag b = i) {items : List α} (start i : ℕ) {a : α}
    (h : items[i]? = some a) :
    ((items.zipIdx start).flatMap fun (a, i) => parts a i).filter (fun b => tag b == start + i) =
      parts a (start + i) := by
  induction items generalizing start i with
  | nil => simp at h
  | cons first rest ih =>
    rw [zipIdx_cons, flatMap_cons, filter_append]
    cases i with
    | zero =>
      obtain rfl : first = a := by simpa using h
      have hfirst : (parts first start).filter (fun b => tag b == start + 0) =
          parts first start := by
        rw [filter_eq_self]
        intro b hb
        simpa using htag first start b hb
      have hrest : ((rest.zipIdx (start + 1)).flatMap fun (a, i) => parts a i).filter
          (fun b => tag b == start + 0) = [] := by
        rw [filter_eq_nil_iff]
        intro b hb
        obtain ⟨⟨item, index⟩, hitem, hb⟩ := mem_flatMap.mp hb
        have hlater := le_snd_of_mem_zipIdx hitem
        have hindex : tag b = index := htag item index b hb
        simp only [beq_iff_eq]
        omega
      rw [hfirst, hrest, append_nil, Nat.add_zero]
    | succ j =>
      have hfirst : (parts first start).filter (fun b => tag b == start + (j + 1)) = [] := by
        rw [filter_eq_nil_iff]
        intro b hb
        have hindex := htag first start b hb
        simp only [beq_iff_eq]
        omega
      have hshift : start + (j + 1) = start + 1 + j := by omega
      rw [hfirst, nil_append, hshift]
      exact ih (start + 1) j (by simpa using h)

theorem entry_of_lookup {registry : Registry H} {key : String} {r : Registered H}
    (h : registry.lookup key = some r) :
    (⟨key, r⟩ : Sigma fun _ => Registered H) ∈ registry.entries :=
  AList.mem_lookup_iff.mp h

theorem id_mem {registry : Registry H} {key : String} {r : Registered H}
    (h : registry.lookup key = some r) : r.id ∈ ids registry :=
  mem_map_of_mem (entry_of_lookup h)

section Distinct

variable (s : Subscriber H)

/-- A channel's handler is no pattern's. -/
theorem channel_ne_pattern {channel pattern : String} {c p : Registered H}
    (hc : s.channels.lookup channel = some c) (hp : s.patterns.lookup pattern = some p) :
    c ≠ p := by
  rintro rfl
  exact (disjoint_of_nodup_append s.sound.distinct) (id_mem hc) (id_mem hp)

theorem pattern_unique {p q : String} {r : Registered H}
    (hp : s.patterns.lookup p = some r) (hq : s.patterns.lookup q = some r) : p = q := by
  have hnodup : (s.patterns.entries.map fun e => e.2.id).Nodup :=
    (nodup_append.mp s.sound.distinct).2.1
  have heq := inj_on_of_nodup_map hnodup (entry_of_lookup hp) (entry_of_lookup hq) rfl
  exact congrArg Sigma.fst heq

end Distinct

section Delivery

variable (globMatch : String → String → Bool) (s : Subscriber H)

variable (msg : Published) (publication : ℕ)

/-- The handlers the copies of a message on the channel are routed to. -/
theorem route_registered {c : Registered H} (hc : s.channels.lookup msg.Channel = some c)
    {r : Registered H} (h : r ∈ (copies globMatch s msg publication).filterMap (route s)) :
    r = c := by
  obtain ⟨copy, hcopy, hroute⟩ := mem_filterMap.mp h
  have hchannel : copy.Channel = msg.Channel := by
    rcases mem_append.mp hcopy with hcopy | hcopy
    · split_ifs at hcopy
      · rw [mem_singleton.mp hcopy]
      · cases hcopy
    · obtain ⟨p, -, rfl⟩ := mem_map.mp hcopy
      rfl
  rw [route, hchannel, hc, Option.some_or] at hroute
  exact (Option.some.inj hroute).symm

theorem copies_unregistered (hc : msg.Channel ∉ s.channels) :
    (copies globMatch s msg publication).filterMap (route s) =
      (s.patterns.keys.filter fun p => globMatch p msg.Channel).filterMap fun p =>
        if p ≠ "" then s.patterns.lookup p else none := by
  have hnone : s.channels.lookup msg.Channel = none := AList.lookup_eq_none.mpr hc
  rw [copies, if_neg hc, nil_append, filterMap_map]
  congr 1
  funext p
  simp only [Function.comp_apply, route, hnone, Option.none_or]

/-- The copies of a message reach the handlers they should exactly if no pattern that
matches is empty or overlaps a channel with a handler. -/
theorem handlers_perm_iff :
    (copies globMatch s msg publication).filterMap (route s) ~
        (s.channels.lookup msg.Channel).toList ++
          (s.patterns.keys.filter fun p => globMatch p msg.Channel).filterMap s.patterns.lookup ↔
      Apart globMatch s msg.Channel := by
  constructor
  · intro hperm p hp hmatch
    obtain ⟨r, hr⟩ := Option.isSome_iff_exists.mp (AList.lookup_isSome.mpr hp)
    have hkept : p ∈ s.patterns.keys.filter fun p => globMatch p msg.Channel :=
      mem_filter.mpr ⟨AList.mem_keys.mp hp, hmatch⟩
    have hreached := hperm.mem_iff.mpr
      (mem_append_right _ (mem_filterMap.mpr ⟨p, hkept, hr⟩))
    have hchannel : msg.Channel ∉ s.channels := by
      intro hc
      obtain ⟨c, hc⟩ := Option.isSome_iff_exists.mp (AList.lookup_isSome.mpr hc)
      exact channel_ne_pattern s hc hr
        (route_registered globMatch s msg publication hc hreached).symm
    rw [copies_unregistered globMatch s msg publication hchannel] at hreached
    obtain ⟨q, -, hq⟩ := mem_filterMap.mp hreached
    split_ifs at hq with hempty
    exact ⟨pattern_unique s hr hq ▸ hempty, hchannel⟩
  · intro hapart
    by_cases hc : msg.Channel ∈ s.channels
    · obtain ⟨c, hlookup⟩ := Option.isSome_iff_exists.mp (AList.lookup_isSome.mpr hc)
      have hnone : s.patterns.keys.filter (fun p => globMatch p msg.Channel) = [] := by
        rw [filter_eq_nil_iff]
        intro p hp hmatch
        exact (hapart p (AList.mem_keys.mpr hp) hmatch).2 hc
      rw [copies, if_pos hc, hnone, hlookup]
      simp [route, hlookup]
    · have hnone : s.channels.lookup msg.Channel = none := AList.lookup_eq_none.mpr hc
      rw [copies_unregistered globMatch s msg publication hc, hnone, Option.toList_none,
        nil_append]
      apply List.Perm.of_eq
      apply filterMap_congr
      intro p hp
      obtain ⟨hkey, hmatch⟩ := mem_filter.mp hp
      rw [if_pos (hapart p (AList.mem_keys.mpr hkey) hmatch).1]

theorem copies_publication {copy : Message} (h : copy ∈ copies globMatch s msg publication) :
    copy.Channel = msg.Channel ∧ copy.Payload = msg.Payload ∧ copy.publication = publication := by
  rcases mem_append.mp h with h | h
  · split_ifs at h
    · rw [mem_singleton.mp h]
      exact ⟨rfl, rfl, rfl⟩
    · cases h
  · obtain ⟨p, -, rfl⟩ := mem_map.mp h
    exact ⟨rfl, rfl, rfl⟩

theorem dispatch_copies_iff :
    dispatch s (copies globMatch s msg publication) ~ wanted globMatch s msg publication ↔
      Apart globMatch s msg.Channel := by
  have hmap : dispatch s (copies globMatch s msg publication) =
      ((copies globMatch s msg publication).filterMap (route s)).map
        fun handler => ⟨handler, msg.Channel, msg.Payload, publication⟩ := by
    rw [dispatch, map_filterMap]
    apply filterMap_congr
    intro copy hcopy
    obtain ⟨hchannel, hpayload, hpublication⟩ :=
      copies_publication globMatch s msg publication hcopy
    rw [invoke, hchannel, hpayload, hpublication]
  have hinjective : Function.Injective fun handler : Registered H =>
      (⟨handler, msg.Channel, msg.Payload, publication⟩ : Call H) :=
    fun a b h => congrArg Call.handler h
  rw [hmap, wanted, map_perm_map_iff hinjective, handlers_perm_iff]

theorem dispatch_copies_publication (i : ℕ) (call : Call H)
    (h : call ∈ dispatch s (copies globMatch s msg i)) : call.publication = i := by
  obtain ⟨copy, hcopy, hcall⟩ := mem_filterMap.mp h
  obtain ⟨handler, -, rfl⟩ := Option.map_eq_some_iff.mp hcall
  exact (copies_publication globMatch s msg i hcopy).2.2

theorem wanted_publication (i : ℕ) (call : Call H) (h : call ∈ wanted globMatch s msg i) :
    call.publication = i := by
  obtain ⟨handler, -, rfl⟩ := mem_map.mp h
  rfl

theorem dispatch_pushes (messages : List Published) :
    dispatch s (pushes globMatch s messages) =
      messages.zipIdx.flatMap fun (msg, i) => dispatch s (copies globMatch s msg i) :=
  filterMap_flatMap

/-- In whatever order the copies of a run of messages are pushed, the dispatch loop calls
every matching handler once per message and no other one, exactly if no message's channel is
matched by an empty pattern or by a pattern although it has a handler itself. -/
theorem delivers_once_iff (messages : List Published) (stream : List Message)
    (hstream : stream ~ pushes globMatch s messages) :
    dispatch s stream ~ messages.zipIdx.flatMap (fun (msg, i) => wanted globMatch s msg i) ↔
      ∀ msg ∈ messages, Apart globMatch s msg.Channel := by
  have hdispatch : dispatch s stream ~ dispatch s (pushes globMatch s messages) :=
    hstream.filterMap _
  rw [dispatch_pushes] at hdispatch
  constructor
  · intro hperm msg hmsg
    obtain ⟨i, hi⟩ := mem_iff_getElem?.mp hmsg
    have htagged := (hdispatch.symm.trans hperm).filter fun call => call.publication == 0 + i
    rw [filter_tagged (dispatch_copies_publication globMatch s) 0 i hi,
      filter_tagged (wanted_publication globMatch s) 0 i hi, dispatch_copies_iff] at htagged
    exact htagged
  · intro hapart
    refine hdispatch.trans (List.Perm.flatMap_left _ fun entry hentry => ?_)
    exact (dispatch_copies_iff globMatch s entry.1 entry.2).mpr
      (hapart entry.1 (fst_mem_of_mem_zipIdx hentry))

end Delivery

/-- A glob match that knows the pattern of all channels only. -/
def starMatch (pattern _channel : String) : Bool := pattern == "*"

/-- A subscriber with one channel handler and, if asked for, a handler of all channels. -/
def subscribed (all : Bool) : Subscriber Unit :=
  let s := (Subscribe newSubscriber "orders" () true).2
  if all then (PSubscribe s "*" () true).2 else (PSubscribe s "users.*" () true).2

theorem delivers_once_apart :
    dispatch (subscribed false) (pushes starMatch (subscribed false) [⟨"orders", "1"⟩]) ~
      [⟨"orders", "1"⟩].zipIdx.flatMap
        (fun (msg, i) => wanted starMatch (subscribed false) msg i) :=
  (delivers_once_iff starMatch (subscribed false) [⟨"orders", "1"⟩] _ (List.Perm.refl _)).mpr
    (by
      intro msg _ p hp hmatch
      obtain rfl : p = "*" := by simpa [starMatch] using hmatch
      exact absurd hp (by decide))

theorem overlap_calls :
    (dispatch (subscribed true) (pushes starMatch (subscribed true) [⟨"orders", "1"⟩])).map
        (fun call => call.handler.id) = [0, 0] ∧
      ([⟨"orders", "1"⟩].zipIdx.flatMap
        (fun (msg, i) => wanted starMatch (subscribed true) msg i)).map
          (fun call => call.handler.id) = [0, 1] := by
  decide

/-- With a channel and an overlapping pattern the channel's handler gets both copies and the
pattern's handler none. -/
theorem overlap_misroutes :
    ¬ dispatch (subscribed true) (pushes starMatch (subscribed true) [⟨"orders", "1"⟩]) ~
      [⟨"orders", "1"⟩].zipIdx.flatMap
        (fun (msg, i) => wanted starMatch (subscribed true) msg i) := by
  intro hperm
  have hcalls := hperm.map fun call => call.handler.id
  rw [overlap_calls.1, overlap_calls.2] at hcalls
  exact absurd hcalls (by decide)

end KnowledgeEngine.RedisSubscriber
