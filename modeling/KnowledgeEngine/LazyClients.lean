import KnowledgeEngine.Transitions
import Mathlib.Data.List.Nodup

/-!
The client that BedrockRetrievalEngine (clients/retrieval/bedrock) and
BedrockKnowledgeBaseIngestor (clients/kb_ingestion/bedrock) open on first use. Every call that
finds no client makes an exit stack of its own and opens a client on it; aclose closes the stack
that was made last.
-/

namespace KnowledgeEngine.LazyClients

open Transitions

inductive Owner
  | BedrockRetrievalEngine
  | BedrockKnowledgeBaseIngestor

/-- The service name given to create_client. -/
def Owner.service : Owner → String
  | BedrockRetrievalEngine => "bedrock-agent-runtime"
  | BedrockKnowledgeBaseIngestor => "bedrock-agent"

/-- An open client, named by the exit stack that owns its context. -/
structure Client where
  service : String
  stack : ℕ

/-- The fields of the owner and the calls in progress: the stacks on which calls are entering a
client, and the number of calls that have one. `live` are the clients that are open. `replaced`
says that a client was entered on a stack that was no longer that of the owner. -/
structure State where
  stack : Option ℕ
  client : Option Client
  made : ℕ
  opening : List ℕ
  serving : ℕ
  live : List Client
  replaced : Bool

def State.initial : State := ⟨none, none, 0, [], 0, [], false⟩

inductive Label
  | call
  | entered (stack : ℕ)
  | failed (stack : ℕ)
  | finished
  | aclose

/-- _runtime_client and _agent_client up to the first suspension. -/
def State.sharedClient (st : State) : State :=
  match st.client with
  | some _ => { st with serving := st.serving + 1 }
  | none =>
    { st with
      stack := some st.made
      made := st.made + 1
      opening := st.made :: st.opening }

def State.aclose (st : State) : State :=
  match st.stack with
  | none => st
  | some k =>
    { st with stack := none, client := none, live := st.live.filter fun c => c.stack ≠ k }

/-- One step of the event loop. A call is finished when its client is no longer used, and
aclose runs when no call is in progress. -/
def step (owner : Owner) (st : State) : Label → Option State
  | .call => some st.sharedClient
  | .entered k =>
    if k ∈ st.opening then
      some { st with
        client := some ⟨owner.service, k⟩
        opening := st.opening.erase k
        serving := st.serving + 1
        live := ⟨owner.service, k⟩ :: st.live
        replaced := st.replaced || st.stack ≠ some k }
    else none
  | .failed k =>
    if k ∈ st.opening then some { st with opening := st.opening.erase k } else none
  | .finished => if 0 < st.serving then some { st with serving := st.serving - 1 } else none
  | .aclose => if st.opening = [] ∧ st.serving = 0 then some st.aclose else none

structure Inv (st : State) : Prop where
  nodup : st.opening.Nodup
  bound : ∀ k ∈ st.opening, k < st.made
  owned : st.replaced = false → st.live = st.client.toList ∧
    ∀ c, st.client = some c → st.stack = some c.stack ∧ c.stack ∉ st.opening
  lost : st.replaced = true → ∃ c ∈ st.live, c.stack < st.made ∧ st.stack ≠ some c.stack

variable {owner : Owner} {st st' : State}

theorem inv_initial : Inv State.initial :=
  ⟨List.nodup_nil, nofun, fun _ => ⟨rfl, nofun⟩, nofun⟩

theorem Inv.sharedClient (h : Inv st) : Inv st.sharedClient := by
  unfold State.sharedClient
  split
  · exact { h with }
  · next hclient =>
    constructor
    case nodup => exact List.nodup_cons.mpr ⟨fun hk => Nat.lt_irrefl _ (h.bound _ hk), h.nodup⟩
    case bound =>
      intro k hk
      rcases List.mem_cons.mp hk with rfl | hk
      · exact Nat.lt_succ_self _
      · exact Nat.lt_succ_of_lt (h.bound k hk)
    case owned =>
      intro hreplaced
      refine ⟨(h.owned hreplaced).1, fun c hc => ?_⟩
      cases hclient.symm.trans hc
    case lost =>
      intro hreplaced
      obtain ⟨c, hc, hlt, -⟩ := h.lost hreplaced
      refine ⟨c, hc, Nat.lt_succ_of_lt hlt, fun heq => ?_⟩
      exact Nat.ne_of_gt hlt (Option.some.inj heq)

/-- A client entered on the owner's stack is the only one; on any other stack it is lost. -/
theorem Inv.entered (h : Inv st) {k : ℕ} (hk : k ∈ st.opening) (service : String) :
    Inv { st with
      client := some ⟨service, k⟩
      opening := st.opening.erase k
      serving := st.serving + 1
      live := ⟨service, k⟩ :: st.live
      replaced := st.replaced || st.stack ≠ some k } where
  nodup := h.nodup.erase k
  bound := fun j hj => h.bound j (List.mem_of_mem_erase hj)
  owned := by
    simp only [ne_eq, Bool.or_eq_false_iff, decide_eq_false_iff_not, not_not]
    rintro ⟨hreplaced, hstack⟩
    obtain ⟨hlive, hclient⟩ := h.owned hreplaced
    have hnone : st.client = none := by
      by_contra hsome
      obtain ⟨c, hc⟩ := Option.ne_none_iff_exists'.mp hsome
      obtain ⟨hstack', hopening⟩ := hclient c hc
      obtain rfl := Option.some.inj (hstack.symm.trans hstack')
      exact hopening hk
    refine ⟨by rw [hlive, hnone]; rfl, ?_⟩
    rintro c ⟨⟩
    exact ⟨hstack, h.nodup.not_mem_erase⟩
  lost := by
    simp only [ne_eq, Bool.or_eq_true, decide_eq_true_eq]
    rintro (hreplaced | hstack)
    · obtain ⟨c, hc, hlost⟩ := h.lost hreplaced
      exact ⟨c, List.mem_cons_of_mem _ hc, hlost⟩
    · exact ⟨_, List.mem_cons_self .., h.bound k hk, hstack⟩

theorem Inv.failed (h : Inv st) (k : ℕ) : Inv { st with opening := st.opening.erase k } where
  nodup := h.nodup.erase k
  bound := fun j hj => h.bound j (List.mem_of_mem_erase hj)
  owned := by
    intro hreplaced
    obtain ⟨hlive, hclient⟩ := h.owned hreplaced
    refine ⟨hlive, fun c hc => ⟨(hclient c hc).1, fun hk => ?_⟩⟩
    exact (hclient c hc).2 (List.mem_of_mem_erase hk)
  lost := h.lost

/-- Closing the owner's stack closes its client, and no lost one. -/
theorem Inv.aclose (h : Inv st) : Inv st.aclose := by
  unfold State.aclose
  split
  · exact h
  · next k hk =>
    refine ⟨h.nodup, h.bound, fun hreplaced => ⟨?_, nofun⟩, fun hreplaced => ?_⟩
    · obtain ⟨hlive, hclient⟩ := h.owned hreplaced
      refine List.filter_eq_nil_iff.mpr fun c hc => ?_
      rw [hlive, Option.mem_toList] at hc
      simpa [(hclient c hc).1] using hk
    · obtain ⟨c, hc, hlt, hstack⟩ := h.lost hreplaced
      refine ⟨c, List.mem_filter.mpr ⟨hc, ?_⟩, hlt, nofun⟩
      exact decide_eq_true fun heq => hstack (heq ▸ hk)

theorem Inv.live_aclose_iff (h : Inv st) : st.aclose.live = [] ↔ st.replaced = false := by
  have hreplaced : st.aclose.replaced = st.replaced := by
    unfold State.aclose
    split <;> rfl
  constructor
  · intro hlive
    by_contra hlost
    obtain ⟨c, hc, -⟩ := h.aclose.lost (hreplaced.trans (by simpa using hlost))
    rw [hlive] at hc
    cases hc
  · intro hfalse
    have hclient : st.aclose.client = none := by
      unfold State.aclose
      split
      · next hstack =>
        refine Option.eq_none_iff_forall_ne_some.mpr fun c hc => ?_
        cases hstack.symm.trans ((h.owned hfalse).2 c hc).1
      · rfl
    rw [(h.aclose.owned (hreplaced.trans hfalse)).1, hclient]
    rfl

theorem inv_step {label : Label} (h : Inv st) (hstep : step owner st label = some st') :
    Inv st' := by
  cases label with
  | call =>
    cases hstep
    exact h.sharedClient
  | entered k =>
    obtain ⟨hk, hstep⟩ := Option.ite_none_right_eq_some.mp hstep
    cases hstep
    exact h.entered hk _
  | failed k =>
    obtain ⟨-, hstep⟩ := Option.ite_none_right_eq_some.mp hstep
    cases hstep
    exact h.failed k
  | finished =>
    obtain ⟨-, hstep⟩ := Option.ite_none_right_eq_some.mp hstep
    cases hstep
    exact { h with }
  | aclose =>
    obtain ⟨-, hstep⟩ := Option.ite_none_right_eq_some.mp hstep
    cases hstep
    exact h.aclose

/-- As long as every client is entered on the stack of the owner, at most one is open; aclose
without a call in progress leaves none open exactly then. -/
theorem none_leaked_iff (owner : Owner) (labels : List Label) (st : State)
    (hrun : run (step owner) State.initial labels = some st) :
    (st.replaced = false → st.live.length ≤ 1) ∧
      (st.opening = [] ∧ st.serving = 0 → ∃ st', step owner st .aclose = some st' ∧
        (st'.live = [] ↔ st.replaced = false)) := by
  have hinv : Inv st := run_invariant Inv (fun _ _ _ => inv_step) inv_initial hrun
  refine ⟨fun hreplaced => ?_, fun hidle => ⟨_, if_pos hidle, hinv.live_aclose_iff⟩⟩
  rw [(hinv.owned hreplaced).1]
  exact Option.length_toList_le

/-- The second call comes when the first has its client. -/
theorem calls_in_turn : ∃ st, run (step .BedrockRetrievalEngine) State.initial
      [.call, .entered 0, .call, .finished, .finished] = some st ∧ st.live.length ≤ 1 ∧
      ∃ st', step .BedrockRetrievalEngine st .aclose = some st' ∧
        (st'.live = [] ↔ st.replaced = false) :=
  have h := none_leaked_iff .BedrockRetrievalEngine
    [.call, .entered 0, .call, .finished, .finished] _ rfl
  ⟨_, rfl, h.1 rfl, h.2 (by decide)⟩

/-- Two first calls at once open two clients, and aclose closes the second only. -/
theorem first_client_leaks : ∃ st, run (step .BedrockRetrievalEngine) State.initial
      [.call, .call, .entered 0, .entered 1, .finished, .finished] = some st ∧
      st.live.length = 2 ∧ (step .BedrockRetrievalEngine st .aclose).map State.live =
        some [⟨"bedrock-agent-runtime", 0⟩] :=
  ⟨_, rfl, rfl, rfl⟩

end KnowledgeEngine.LazyClients
