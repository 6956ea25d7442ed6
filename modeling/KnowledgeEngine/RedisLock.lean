import KnowledgeEngine.CoreTypes
import KnowledgeEngine.Transitions

/-!
The Redis lock (clients/lock/redis) behind the retry decorator (clients/lock/decorators):
one key, its server, and any number of Acquire, Renew and Release calls. A SET travels to
the server, is executed at some later moment or never, and its answer reaches its call or is
lost; a lost answer is an error, and the decorator tries again with a new token. A token
names the call and the attempt that minted it.
-/

namespace KnowledgeEngine.RedisLock

open CoreTypes Function Transitions

structure Token where
  call : ℕ
  attempt : ℕ
deriving DecidableEq

structure Entry where
  token : Token
  deadline : Option ℕ

/-- The key on the server, with the server's clock in milliseconds. -/
structure Server where
  now : ℕ
  entry : Option Entry

/-- The key's entry unless its deadline is over. -/
def Server.live (s : Server) : Option Entry :=
  s.entry.filter fun e => e.deadline.all fun deadline => s.now ≤ deadline

/-- The milliseconds of a lease of `ttl` nanoseconds in a SET: at least one. -/
def leaseMs (ttl : ℕ) : ℕ := if ttl < 1000000 then 1 else ttl / 1000000

/-- SET key token NX PX ttl; a zero ttl never expires. -/
def Server.setNX (ttl : ℕ) (token : Token) (s : Server) : Bool × Server :=
  match s.live with
  | some _ => (false, s)
  | none =>
    (true, { s with
      entry := some ⟨token, if ttl = 0 then none else some (s.now + leaseMs ttl)⟩ })

/-- The script of Renew; PEXPIRE with no time left deletes the key. -/
def Server.renew (ttl : ℕ) (token : Token) (s : Server) : Bool × Server :=
  match s.live with
  | none => (false, s)
  | some e =>
    if e.token = token then
      let ms := ttl / 1000000
      (true, { s with entry := if ms = 0 then none else some ⟨token, some (s.now + ms)⟩ })
    else (false, s)

/-- The script of Release. -/
def Server.release (token : Token) (s : Server) : Server :=
  match s.live with
  | none => s
  | some e => if e.token = token then { s with entry := none } else s

/-- What an Acquire call is at: before its attempt n, waiting for the answer of attempt n,
or returned. A call that lost records the token it lost to. -/
inductive Acquire
  | absent
  | ready (n : ℕ)
  | waiting (n : ℕ)
  | acquired (token : Token)
  | lost (holder : Token)
  | failed (err : AppError)

/-- The server, the calls, the SETs on their way, and the answers of the executed ones: none
for a SET that took the key, else the token that held it. The last three lists are history:
the SETs that took the key, the attempts reported as errors, the tokens returned. -/
structure State where
  server : Server
  calls : ℕ → Acquire
  inFlight : List Token
  replies : List (Token × Option Token)
  took : List Token
  unanswered : List Token
  returned : List Token

def initial : State where
  server := ⟨0, none⟩
  calls := fun _ => .absent
  inFlight := []
  replies := []
  took := []
  unanswered := []
  returned := []

inductive Label
  | tick
  | begin (call : ℕ)
  | mintFails (call : ℕ)
  | send (call : ℕ)
  | execute (token : Token)
  | deliver (call : ℕ)
  | unanswered (call : ℕ)
  | giveUp (call : ℕ)
  | renew (token : Token)
  | release (token : Token)

def State.setCall (st : State) (call : ℕ) (a : Acquire) : State :=
  { st with calls := update st.calls call a }

/-- The answer of attempt n reaches its call. -/
def State.settle (st : State) (token : Token) : Option Token → State
  | none => { st.setCall token.call (.acquired token) with returned := token :: st.returned }
  | some holder => st.setCall token.call (.lost holder)

/-- The server executes a SET. -/
def State.execute (ttl : ℕ) (st : State) (token : Token) : State :=
  match st.server.live with
  | some e => { st with
      inFlight := st.inFlight.filter (· ≠ token)
      replies := (token, some e.token) :: st.replies }
  | none => { st with
      server := (st.server.setNX ttl token).2
      inFlight := st.inFlight.filter (· ≠ token)
      replies := (token, none) :: st.replies
      took := token :: st.took }

def step (ttl : ℕ) (st : State) : Label → Option State
  | .tick => some { st with server := { st.server with now := st.server.now + 1 } }
  | .begin call =>
    match st.calls call with
    | .absent => some (st.setCall call (.ready 0))
    | _ => none
  | .mintFails call =>
    match st.calls call with
    | .ready n => some (st.setCall call (.ready (n + 1)))
    | _ => none
  | .send call =>
    match st.calls call with
    | .ready n => some { st.setCall call (.waiting n) with inFlight := ⟨call, n⟩ :: st.inFlight }
    | _ => none
  | .execute token => if token ∈ st.inFlight then some (st.execute ttl token) else none
  | .deliver call =>
    match st.calls call with
    | .waiting n => (st.replies.lookup ⟨call, n⟩).map (st.settle ⟨call, n⟩)
    | _ => none
  | .unanswered call =>
    match st.calls call with
    | .waiting n => some { st.setCall call (.ready (n + 1)) with
        unanswered := ⟨call, n⟩ :: st.unanswered }
    | _ => none
  | .giveUp call =>
    match st.calls call with
    | .ready _ => some (st.setCall call (.failed ⟨.unavailable, "acquire lock"⟩))
    | _ => none
  | .renew token => some { st with server := (st.server.renew ttl token).2 }
  | .release token => some { st with server := st.server.release token }

/-- The attempts a call can have sent a SET for. -/
def Sent : Acquire → ℕ → Prop
  | .absent, _ => False
  | .ready m, n => n < m
  | .waiting m, n => n ≤ m
  | _, _ => True

/-- The attempts a call has gone past without an answer. -/
def Over : Acquire → ℕ → Prop
  | .ready _, _ => True
  | .waiting m, n => n < m
  | _, _ => False

/-- A SET was sent by its call; if the call has gone past it, its answer was lost. -/
structure Known (calls : ℕ → Acquire) (unanswered : List Token) (t : Token) : Prop where
  sent : Sent (calls t.call) t.attempt
  answerless : Over (calls t.call) t.attempt → t ∈ unanswered

structure Invariant (st : State) : Prop where
  inFlight : ∀ t ∈ st.inFlight, Known st.calls st.unanswered t ∧ t ∉ st.took
  took : ∀ t ∈ st.took, Known st.calls st.unanswered t
  stored : ∀ e, st.server.entry = some e → e.token ∈ st.took
  replied : ∀ t holder, (t, some holder) ∈ st.replies → holder ∈ st.took ∧ holder ≠ t
  lost : ∀ call holder, st.calls call = .lost holder → holder.call = call →
    holder ∈ st.took ∧ holder ∈ st.unanswered

theorem invariant_initial : Invariant initial where
  inFlight := by simp [initial]
  took := by simp [initial]
  stored := by simp [initial]
  replied := by simp [initial]
  lost := by simp [initial]

variable {st : State}

/-- A change of the server's entry to none or to one with a token already there. -/
theorem Invariant.server (h : Invariant st) (server : Server)
    (hentry : ∀ e, server.entry = some e →
      ∃ old, st.server.entry = some old ∧ e.token = old.token) :
    Invariant { st with server := server } := by
  refine ⟨h.inFlight, h.took, ?_, h.replied, h.lost⟩
  intro e he
  obtain ⟨old, hold, htoken⟩ := hentry e he
  rw [htoken]
  exact h.stored old hold

theorem entry_of_live {s : Server} {e : Entry} (h : s.live = some e) : s.entry = some e :=
  (Option.filter_eq_some_iff.mp h).1

theorem renew_entry (ttl : ℕ) (token : Token) (s : Server) (e : Entry)
    (h : (s.renew ttl token).2.entry = some e) :
    ∃ old, s.entry = some old ∧ e.token = old.token := by
  rw [Server.renew] at h
  split at h
  · exact ⟨e, h, rfl⟩
  · next old hlive =>
    have hentry := entry_of_live hlive
    split at h
    · next htoken =>
      simp only at h
      split at h
      · cases h
      · exact ⟨old, hentry, by rw [← Option.some.inj h, htoken]⟩
    · exact ⟨e, h, rfl⟩

theorem release_entry (token : Token) (s : Server) (e : Entry)
    (h : (s.release token).entry = some e) :
    ∃ old, s.entry = some old ∧ e.token = old.token := by
  rw [Server.release] at h
  split at h
  · exact ⟨e, h, rfl⟩
  · split at h
    · cases h
    · exact ⟨e, h, rfl⟩

/-- A call moves on: what it has sent stays sent, and what it goes past is unanswered. -/
theorem Invariant.move (h : Invariant st) (call : ℕ) (a : Acquire) (unanswered : List Token)
    (hmore : ∀ t ∈ st.unanswered, t ∈ unanswered) (hsent : ∀ n, Sent (st.calls call) n → Sent a n)
    (hover : ∀ t, Known st.calls st.unanswered t → t.call = call → Over a t.attempt →
      t ∈ unanswered)
    (hlost : ∀ holder, a = .lost holder → holder.call = call →
      holder ∈ st.took ∧ holder ∈ unanswered) :
    Invariant { st.setCall call a with unanswered := unanswered } := by
  have hknown : ∀ t, Known st.calls st.unanswered t →
      Known (update st.calls call a) unanswered t := by
    intro t ht
    by_cases hcall : t.call = call
    · refine ⟨?_, fun hpast => ?_⟩
      · rw [hcall, update_self]
        exact hsent _ (hcall ▸ ht.sent)
      · rw [hcall, update_self] at hpast
        exact hover t ht hcall hpast
    · refine ⟨?_, fun hpast => ?_⟩
      · rw [update_of_ne hcall]
        exact ht.sent
      · rw [update_of_ne hcall] at hpast
        exact hmore t (ht.answerless hpast)
  refine ⟨fun t ht => ?_, fun t ht => hknown t (h.took t ht), h.stored, h.replied, ?_⟩
  · exact ⟨hknown t (h.inFlight t ht).1, (h.inFlight t ht).2⟩
  · intro c holder hholder hself
    simp only [State.setCall] at hholder ⊢
    by_cases hcall : c = call
    · subst hcall
      rw [update_self] at hholder
      exact hlost holder hholder hself
    · rw [update_of_ne hcall] at hholder
      obtain ⟨htook, hlate⟩ := h.lost c holder hholder hself
      exact ⟨htook, hmore holder hlate⟩

theorem Invariant.execute (h : Invariant st) (ttl : ℕ) (token : Token)
    (htoken : token ∈ st.inFlight) : Invariant (st.execute ttl token) := by
  obtain ⟨hknown, hfresh⟩ := h.inFlight token htoken
  have hleft : ∀ t ∈ st.inFlight.filter (· ≠ token), t ∈ st.inFlight ∧ t ≠ token := by
    intro t ht
    obtain ⟨hmem, hne⟩ := List.mem_filter.mp ht
    exact ⟨hmem, of_decide_eq_true hne⟩
  rw [State.execute]
  split
  · next e hlive =>
    refine ⟨fun t ht => h.inFlight t (hleft t ht).1, h.took, h.stored, ?_, h.lost⟩
    intro t holder hreply
    rcases List.mem_cons.mp hreply with heq | hreply
    · obtain ⟨rfl, hholder⟩ := Prod.mk.inj heq
      obtain rfl := Option.some.inj hholder
      have hstored := h.stored e (entry_of_live hlive)
      exact ⟨hstored, fun hsame => hfresh (hsame ▸ hstored)⟩
    · exact h.replied t holder hreply
  · next hlive =>
    refine ⟨fun t ht => ?_, fun t ht => ?_, ?_, ?_, ?_⟩
    · obtain ⟨hmem, hne⟩ := hleft t ht
      exact ⟨(h.inFlight t hmem).1, by simpa [hne] using (h.inFlight t hmem).2⟩
    · rcases List.mem_cons.mp ht with rfl | ht
      · exact hknown
      · exact h.took t ht
    · intro e he
      simp only [Server.setNX, hlive] at he
      rw [← Option.some.inj he]
      exact List.mem_cons_self
    · intro t holder hreply
      rcases List.mem_cons.mp hreply with heq | hreply
      · cases (Prod.mk.inj heq).2
      · obtain ⟨htook, hne⟩ := h.replied t holder hreply
        exact ⟨List.mem_cons_of_mem _ htook, hne⟩
    · intro call holder hholder hself
      obtain ⟨htook, hlate⟩ := h.lost call holder hholder hself
      exact ⟨List.mem_cons_of_mem _ htook, hlate⟩

theorem Invariant.sends (h : Invariant st) (t : Token) (hknown : Known st.calls st.unanswered t)
    (hfresh : t ∉ st.took) : Invariant { st with inFlight := t :: st.inFlight } := by
  refine ⟨fun t' ht' => ?_, h.took, h.stored, h.replied, h.lost⟩
  rcases List.mem_cons.mp ht' with rfl | ht'
  · exact ⟨hknown, hfresh⟩
  · exact h.inFlight t' ht'

/-- A call that loses to a token of its own has lost the answer of the SET that stored it. -/
theorem Invariant.deliver (h : Invariant st) (call n : ℕ) (hcall : st.calls call = .waiting n)
    (holder : Token) (hreply : ((⟨call, n⟩ : Token), some holder) ∈ st.replies)
    (hself : holder.call = call) : holder ∈ st.took ∧ holder ∈ st.unanswered := by
  obtain ⟨htook, hne⟩ := h.replied _ _ hreply
  have hknown := h.took holder htook
  refine ⟨htook, hknown.answerless ?_⟩
  have hsent := hknown.sent
  rw [hself, hcall] at hsent ⊢
  refine Nat.lt_of_le_of_ne hsent fun heq => hne ?_
  rw [← hself, ← heq]

theorem invariant_step (ttl : ℕ) (st : State) (label : Label) (st' : State) (h : Invariant st)
    (hstep : step ttl st label = some st') : Invariant st' := by
  cases label with
  | tick =>
    obtain rfl := Option.some.inj hstep
    exact h.server _ fun e he => ⟨e, he, rfl⟩
  | begin call =>
    simp only [step] at hstep
    split at hstep <;> cases hstep
    next hcall =>
    exact h.move call (.ready 0) st.unanswered (fun t ht => ht) (by simp [hcall, Sent])
      (fun t ht hself _ => by simpa [hself, hcall, Sent] using ht.sent) (by simp)
  | mintFails call =>
    simp only [step] at hstep
    split at hstep <;> cases hstep
    next n hcall =>
    exact h.move call (.ready (n + 1)) st.unanswered (fun t ht => ht)
      (by simp only [hcall, Sent]; omega)
      (fun t ht hself _ => ht.answerless (by rw [hself, hcall]; trivial)) (by simp)
  | send call =>
    simp only [step] at hstep
    split at hstep <;> cases hstep
    next n hcall =>
    have hmoved := h.move call (.waiting n) st.unanswered (fun t ht => ht)
      (by simp only [hcall, Sent]; omega)
      (fun t ht hself _ => ht.answerless (by rw [hself, hcall]; trivial)) (by simp)
    refine hmoved.sends ⟨call, n⟩ ⟨?_, fun hover => ?_⟩ fun htook => ?_
    · simp [State.setCall, Sent]
    · simp [State.setCall, Over] at hover
    · have hsent := (h.took _ htook).sent
      simp [hcall, Sent] at hsent
  | execute token =>
    simp only [step] at hstep
    split at hstep <;> cases hstep
    next htoken => exact h.execute ttl token htoken
  | deliver call =>
    simp only [step] at hstep
    split at hstep
    · next n hcall =>
      obtain ⟨reply, hlookup, rfl⟩ := Option.map_eq_some_iff.mp hstep
      have hreply : ((⟨call, n⟩ : Token), reply) ∈ st.replies := by
        obtain ⟨before, after, hreplies, -⟩ := List.lookup_eq_some_iff.mp hlookup
        simp [hreplies]
      cases reply with
      | none =>
        have hmoved := h.move call (.acquired ⟨call, n⟩) st.unanswered (fun t ht => ht)
          (by simp [Sent]) (by simp [Over]) (by simp)
        exact ⟨hmoved.inFlight, hmoved.took, hmoved.stored, hmoved.replied, hmoved.lost⟩
      | some holder =>
        refine h.move call (.lost holder) st.unanswered (fun t ht => ht) (by simp [Sent])
          (by simp [Over]) ?_
        intro holder' hholder hself
        obtain rfl := Acquire.lost.inj hholder
        exact h.deliver call n hcall holder hreply hself
    · cases hstep
  | unanswered call =>
    simp only [step] at hstep
    split at hstep <;> cases hstep
    next n hcall =>
    refine h.move call (.ready (n + 1)) _ (fun t ht => List.mem_cons_of_mem _ ht)
      (by simp only [hcall, Sent]; omega) ?_ (by simp)
    intro t ht hself _
    have hsent := ht.sent
    rw [hself, hcall] at hsent
    rcases Nat.lt_or_eq_of_le hsent with hless | heq
    · exact List.mem_cons_of_mem _ (ht.answerless (by rw [hself, hcall]; exact hless))
    · rw [← hself, ← heq]
      exact List.mem_cons_self
  | giveUp call =>
    simp only [step] at hstep
    split at hstep <;> cases hstep
    exact h.move call _ st.unanswered (fun t ht => ht) (by simp [Sent]) (by simp [Over]) (by simp)
  | renew token =>
    obtain rfl := Option.some.inj hstep
    exact h.server _ (renew_entry ttl token st.server)
  | release token =>
    obtain rfl := Option.some.inj hstep
    exact h.server _ (release_entry token st.server)

/-- The token is stored under the key. -/
def State.Stores (st : State) (token : Token) : Prop :=
  ∃ e, st.server.live = some e ∧ e.token = token

/-- In every run in which no SET that took the key has lost its answer, an Acquire that
returns false without an error lost to a token of another Acquire; and in every run at most
one returned token is stored. -/
theorem loses_to_another (ttl : ℕ) (labels : List Label) (st : State)
    (h : run (step ttl) initial labels = some st) :
    ((∀ t ∈ st.took, t ∉ st.unanswered) →
      ∀ call holder, st.calls call = .lost holder → holder.call ≠ call) ∧
    ∀ t ∈ st.returned, ∀ t' ∈ st.returned, st.Stores t → st.Stores t' → t = t' := by
  have hinv := run_invariant Invariant (invariant_step ttl) invariant_initial h
  refine ⟨fun hanswered call holder hlost hself => ?_, ?_⟩
  · obtain ⟨htook, hlate⟩ := hinv.lost call holder hlost hself
    exact hanswered holder htook hlate
  · rintro t - t' - ⟨e, he, rfl⟩ ⟨e', he', rfl⟩
    rw [Option.some.inj (he.symm.trans he')]

/-- Two calls, the second of which loses to the first. -/
def contention : List Label :=
  [.begin 0, .send 0, .execute ⟨0, 0⟩, .deliver 0, .begin 1, .send 1, .execute ⟨1, 0⟩, .deliver 1]

theorem loses_to_another_contention :
    ∃ st, run (step 1000000000) initial contention = some st ∧ st.calls 1 = .lost ⟨0, 0⟩ ∧
      ∀ call holder, st.calls call = .lost holder → holder.call ≠ call :=
  ⟨_, rfl, rfl, (loses_to_another 1000000000 contention _ rfl).1 (by decide)⟩

/-- One call whose first SET takes the key and loses its answer: its second attempt loses to
its own first one. -/
theorem lost_answer_loses_to_itself :
    ∃ st, run (step 1000000000) initial
        [.begin 0, .send 0, .execute ⟨0, 0⟩, .unanswered 0, .send 0, .execute ⟨0, 1⟩, .deliver 0] =
          some st ∧
      st.calls 0 = .lost ⟨0, 0⟩ :=
  ⟨_, rfl, rfl⟩

end KnowledgeEngine.RedisLock
