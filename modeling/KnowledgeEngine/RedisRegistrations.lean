import KnowledgeEngine.RedisSubscriber
import KnowledgeEngine.Transitions
import Mathlib.Data.Finset.Erase
import Mathlib.Data.Finset.Insert

/-!
The handlers of the Redis subscriber against the subscriptions of its broker, over histories of
Subscribe, Unsubscribe, PSubscribe and PUnsubscribe calls. The broker carries out the command
it is sent or refuses it, and a refused command changes nothing there.
-/

namespace KnowledgeEngine.RedisRegistrations

open CoreTypes Function RedisSubscriber Transitions

variable {H : Type}

inductive Call (H : Type)
  | Subscribe (topic : String) (handler : H)
  | Unsubscribe (topic : String)
  | PSubscribe (pattern : String) (handler : H)
  | PUnsubscribe (pattern : String)

/-- What a call is about: a channel or a pattern. -/
abbrev Topic := Kind × String

def Call.topic : Call H → Topic
  | Subscribe topic _ => (.channel, topic)
  | Unsubscribe topic => (.channel, topic)
  | PSubscribe pattern _ => (.pattern, pattern)
  | PUnsubscribe pattern => (.pattern, pattern)

def Call.subscribes : Call H → Bool
  | Subscribe _ _ | PSubscribe _ _ => true
  | Unsubscribe _ | PUnsubscribe _ => false

/-- The registration of a topic. -/
def registration (s : Subscriber H) (topic : Topic) : Option (Registered H) :=
  (s.registry topic.1).lookup topic.2

/-- The subscriber with the broker's active subscriptions. -/
structure State (H : Type) where
  subscriber : Subscriber H
  active : Finset Topic

def initial : State H := ⟨newSubscriber, ∅⟩

/-- The call at the subscriber; `accepted` is the broker's answer to its command. -/
def perform (s : Subscriber H) (accepted : Bool) : Call H → Except AppError Unit × Subscriber H
  | .Subscribe topic handler => RedisSubscriber.Subscribe s topic handler accepted
  | .Unsubscribe topic => RedisSubscriber.Unsubscribe s topic accepted
  | .PSubscribe pattern handler => RedisSubscriber.PSubscribe s pattern handler accepted
  | .PUnsubscribe pattern => RedisSubscriber.PUnsubscribe s pattern accepted

/-- Whether the broker is sent a command at all. -/
def sends (s : Subscriber H) (call : Call H) : Bool :=
  if call.subscribes then !s.closed
  else s.started && !s.closed && (registration s call.topic).isSome

/-- The subscriptions after the call. -/
def answered (st : State H) (call : Call H) (accepted : Bool) : Finset Topic :=
  if sends st.subscriber call && accepted then
    if call.subscribes then insert call.topic st.active else st.active.erase call.topic
  else st.active

def step (st : State H) (entry : Call H × Bool) : State H :=
  ⟨(perform st.subscriber entry.2 entry.1).2, answered st entry.1 entry.2⟩

/-- The state after a history of calls. -/
def after (history : List (Call H × Bool)) : State H := history.foldl step initial

/-- The topics with a handler are those with an active subscription. -/
def Matches (st : State H) : Prop :=
  ∀ topic, topic ∈ st.active ↔ (registration st.subscriber topic).isSome

/-- A failed (P)Subscribe leaves every registration as it is, and handlers and subscriptions
match after the call. -/
def Clean (st : State H) (entry : Call H × Bool) : Prop :=
  (entry.1.subscribes = true → (perform st.subscriber entry.2 entry.1).1.isOk = false →
    ∀ topic, registration (perform st.subscriber entry.2 entry.1).2 topic =
      registration st.subscriber topic) ∧
    Matches (step st entry)

/-- Open for calls, and started if it has a handler. -/
structure Live (s : Subscriber H) : Prop where
  opened : s.closed = false
  started : ∀ topic, (registration s topic).isSome → s.started = true

theorem registration_rollback (s : Subscriber H) (kind : Kind) (key : String) :
    registration (rollback s kind key) = update (registration s) (kind, key) none := by
  funext ⟨kind', key'⟩
  rw [update_apply]
  split
  · next h =>
    obtain ⟨rfl, rfl⟩ := Prod.mk.inj h
    cases kind' <;> exact AList.lookup_erase _ _
  · next h =>
    cases kind <;> cases kind' <;>
      first
        | rfl
        | exact AList.lookup_erase_ne fun hkey => h (Prod.ext rfl hkey)

variable {s : Subscriber H} {st : State H} {handler : H} {kind : Kind} {key : String}

theorem registration_register {s' : Subscriber H} (h : register s kind key handler = .ok s') :
    registration s' = update (registration s) (kind, key) (some ⟨s.minted, handler⟩) := by
  unfold register at h
  split at h
  · cases h
  · funext ⟨kind', key'⟩
    rw [update_apply]
    split
    · next heq =>
      obtain ⟨rfl, rfl⟩ := Prod.mk.inj heq
      cases kind' <;> cases h <;> exact AList.lookup_insert _
    · next hne =>
      cases kind <;> cases kind' <;> cases h <;>
        first
          | rfl
          | exact AList.lookup_insert_ne fun hkey => hne (Prod.ext rfl hkey)

theorem register_of_open (hopen : s.closed = false) :
    ∃ s', register s kind key handler = .ok s' ∧
      s'.closed = false ∧ s'.started = true := by
  unfold register
  rw [hopen]
  cases kind <;> exact ⟨_, rfl, rfl, rfl⟩

@[simp] theorem rollback_closed {s : Subscriber H} : (rollback s kind key).closed = s.closed := by
  cases kind <;> rfl

@[simp] theorem rollback_started {s : Subscriber H} :
    (rollback s kind key).started = s.started := by
  cases kind <;> rfl

/-- What a call does to an open subscriber: the topic's registration is replaced by `new`. -/
structure Outcome (s : Subscriber H) (call : Call H) (accepted : Bool)
    (result : Except AppError Unit × Subscriber H) (new : Option (Registered H)) : Prop where
  registration : registration result.2 = update (registration s) call.topic new
  isSome : new.isSome = (call.subscribes && accepted)
  isOk : call.subscribes = true → result.1.isOk = accepted
  closed : result.2.closed = false
  started : result.2.started = (call.subscribes || s.started)

theorem subscribe_outcome (hopen : s.closed = false) {call : Call H}
    (hcall : call.subscribes = true) {failure : String} {accepted : Bool} :
    ∃ new, Outcome s call accepted
      (subscribe call.topic.1 failure s call.topic.2 handler accepted) new := by
  obtain ⟨s', hregister, hclosed, hstarted⟩ := register_of_open hopen
  have hregistered := registration_register hregister
  rw [subscribe, hregister]
  cases accepted with
  | true =>
    exact ⟨_, hregistered, by rw [hcall]; rfl, fun _ => rfl, hclosed, by rw [hcall]; exact hstarted⟩
  | false =>
    refine ⟨none, ?_, by rw [hcall]; rfl, fun _ => rfl, ?_, ?_⟩
    · show RedisRegistrations.registration (rollback s' _ _) = _
      rw [registration_rollback, hregistered, update_idem]
    · exact rollback_closed.trans hclosed
    · rw [hcall]
      exact rollback_started.trans hstarted

theorem unsubscribe_outcome (hopen : s.closed = false) {call : Call H}
    (hcall : call.subscribes = false) {failure : String} {accepted : Bool} :
    Outcome s call accepted (unsubscribe call.topic.1 failure s call.topic.2 accepted) none := by
  have hafter : (unsubscribe call.topic.1 failure s call.topic.2 accepted).2 =
      rollback s call.topic.1 call.topic.2 := by
    rw [unsubscribe]
    split <;> rfl
  refine ⟨?_, by rw [hcall]; rfl, by rw [hcall]; nofun, ?_, ?_⟩
  · rw [hafter, registration_rollback]
  · rw [hafter, rollback_closed, hopen]
  · rw [hafter, rollback_started, hcall, Bool.false_or]

theorem perform_outcome (hopen : s.closed = false) (call : Call H) (accepted : Bool) :
    ∃ new, Outcome s call accepted (perform s accepted call) new := by
  cases call with
  | Subscribe topic handler =>
    exact subscribe_outcome hopen rfl
  | PSubscribe pattern handler =>
    exact subscribe_outcome hopen rfl
  | Unsubscribe topic => exact ⟨none, unsubscribe_outcome hopen rfl⟩
  | PUnsubscribe pattern =>
    exact ⟨none, unsubscribe_outcome hopen rfl⟩

theorem live_step (h : Live st.subscriber) {entry : Call H × Bool} :
    Live (step st entry).subscriber := by
  obtain ⟨new, houtcome⟩ := perform_outcome h.opened entry.1 entry.2
  refine ⟨houtcome.closed, fun topic htopic => ?_⟩
  show (perform st.subscriber entry.2 entry.1).2.started = true
  rw [houtcome.started]
  cases hsubscribes : entry.1.subscribes with
  | true => rfl
  | false =>
    rw [Bool.false_or]
    refine h.started topic ?_
    have hnone : new = none := by
      rw [← Option.not_isSome_iff_eq_none, houtcome.isSome, hsubscribes]
      nofun
    have hregistered : (registration (perform st.subscriber entry.2 entry.1).2 topic).isSome :=
      htopic
    rw [houtcome.registration, hnone, update_apply] at hregistered
    split at hregistered
    · cases hregistered
    · exact hregistered

/-- Nothing is sent to unsubscribe from a topic without a handler. -/
theorem sends_iff (h : Live s) (call : Call H) :
    sends s call = (call.subscribes || (registration s call.topic).isSome) := by
  rw [sends, h.opened]
  cases call.subscribes with
  | true => rfl
  | false =>
    cases hsome : (registration s call.topic).isSome with
    | true => rw [h.started _ hsome]; rfl
    | false => simp

theorem matches_of_accepted (hlive : Live st.subscriber) (hmatches : Matches st) (call : Call H) :
    Matches (step st (call, true)) := by
  obtain ⟨new, houtcome⟩ := perform_outcome hlive.opened call true
  intro topic
  show topic ∈ answered st call true ↔
    (registration (perform st.subscriber true call).2 topic).isSome = true
  rw [answered, sends_iff hlive, houtcome.registration, update_apply, Bool.and_true]
  have htopic := hmatches topic
  have hnew := houtcome.isSome
  cases hsubscribes : call.subscribes with
  | true =>
    rw [hsubscribes] at hnew
    by_cases heq : topic = call.topic
    · simp [heq, hnew]
    · simpa [heq] using htopic
  | false =>
    rw [hsubscribes] at hnew
    by_cases heq : topic = call.topic
    · subst heq
      cases hsome : (registration st.subscriber call.topic).isSome with
      | true => simp [hnew]
      | false => simp [hnew, htopic, hsome]
    · cases hsome : (registration st.subscriber call.topic).isSome with
      | true => simpa [heq] using htopic
      | false => simpa [heq] using htopic

/-- From matching states, a call is clean if and only if the broker accepts its command or its
topic has no handler. -/
theorem clean_iff (hlive : Live st.subscriber) (hmatches : Matches st) (entry : Call H × Bool) :
    Clean st entry ↔
      (entry.2 = false → registration st.subscriber entry.1.topic = none) := by
  obtain ⟨call, accepted⟩ := entry
  obtain ⟨new, houtcome⟩ := perform_outcome hlive.opened call accepted
  cases accepted with
  | true =>
    refine ⟨fun _ => nofun, fun _ => ⟨fun hsubscribes hfailed => ?_, ?_⟩⟩
    · rw [houtcome.isOk hsubscribes] at hfailed
      cases hfailed
    · exact matches_of_accepted hlive hmatches call
  | false =>
    obtain rfl : new = none := by
      rw [← Option.not_isSome_iff_eq_none, houtcome.isSome, Bool.and_false]
      nofun
    have hactive : (step st (call, false)).active = st.active := by
      show answered st call false = st.active
      rw [answered, Bool.and_false]
      rfl
    constructor
    · rintro ⟨hunchanged, hafter⟩ -
      cases hsubscribes : call.subscribes with
      | true =>
        have hsame := hunchanged hsubscribes (houtcome.isOk hsubscribes) call.topic
        rw [houtcome.registration, update_self] at hsame
        exact hsame.symm
      | false =>
        have hmatch := hafter call.topic
        rw [hactive, hmatches] at hmatch
        have hgone : registration (step st (call, false)).subscriber call.topic = none := by
          show registration (perform st.subscriber false call).2 call.topic = none
          rw [houtcome.registration, update_self]
        rw [hgone] at hmatch
        exact Option.not_isSome_iff_eq_none.mp fun hsome => by cases hmatch.mp hsome
    · intro hnone
      have hsame : registration (perform st.subscriber false call).2 =
          registration st.subscriber := by
        rw [houtcome.registration, ← hnone rfl, update_eq_self]
      refine ⟨fun _ _ topic => congrFun hsame topic, fun topic => ?_⟩
      rw [hactive, hmatches]
      show _ ↔ (registration (perform st.subscriber false call).2 topic).isSome = true
      rw [hsame]

theorem registration_initial (topic : Topic) :
    registration (initial : State H).subscriber topic = none := by
  obtain ⟨kind, key⟩ := topic
  cases kind <;> rfl

theorem live_initial : Live (initial : State H).subscriber := by
  refine ⟨rfl, fun topic htopic => ?_⟩
  rw [registration_initial] at htopic
  cases htopic

theorem matches_initial : Matches (initial : State H) := by
  intro topic
  rw [registration_initial]
  exact ⟨nofun, nofun⟩

/-- Every call of a history is clean if and only if no call with a handler on its topic has
its command refused by the broker. -/
theorem history_clean_iff (history : List (Call H × Bool)) :
    Throughout step Clean initial history ↔
      Throughout step (fun st entry => entry.2 = false →
        registration st.subscriber entry.1.topic = none) initial history := by
  refine throughout_iff (fun st => Live st.subscriber ∧ Matches st) ?_ ?_
    ⟨live_initial, matches_initial⟩ history
  · exact fun st entry hst hclean => ⟨live_step hst.1, hclean.2⟩
  · exact fun st entry hst => clean_iff hst.1 hst.2 entry

/-- Subscribing to a topic anew fails and takes the handler that was there; a failed
Unsubscribe takes it too. The broker's subscription stays. -/
theorem refused_loses_handler :
    registration (after [(.Subscribe "orders" 0, true)]).subscriber (.channel, "orders") =
        some ⟨0, 0⟩ ∧
      registration
        (after [(.Subscribe "orders" 0, true), (.Subscribe "orders" 1, false)]).subscriber
        (.channel, "orders") = (none : Option (Registered ℕ)) ∧
      (.channel, "orders") ∈
        (after [(.Subscribe "orders" 0, true), (.Subscribe "orders" 1, false)]).active ∧
      registration
        (after [(.Subscribe "orders" 0, true), (.Unsubscribe "orders", false)]).subscriber
        (.channel, "orders") = (none : Option (Registered ℕ)) ∧
      (.channel, "orders") ∈
        (after [(.Subscribe "orders" 0, true), (.Unsubscribe "orders", false)]).active := by
  decide

end KnowledgeEngine.RedisRegistrations
