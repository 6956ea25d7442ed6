import KnowledgeEngine.Transitions
import Mathlib.Data.List.Nodup

/-!
The in-process replay buffer of clients/replaybuffer/memory: a map from keys to
bounded, expiring message tails with a pruned low-water mark. Every clock
reading of the source is an explicit argument. A buffer always retains a suffix
of what was appended under its key, and its low-water mark sits directly before
a word ending in that suffix. The two words agree as long as no eviction hits a
pruned buffer, and that is exactly when a replay reported complete is gapless.
-/

namespace KnowledgeEngine.ReplayBuffer

open Function List RunSplits

structure BufferedMessage where
  ID : String
  Payload : List UInt8
deriving DecidableEq

/-- One key's retained tail. Message slices are values here, so `clone` is the
identity and is not modelled. -/
structure KeyBuffer where
  expiry : Int
  lowWater : String
  msgs : List BufferedMessage

structure Buffer where
  keys : String → Option KeyBuffer
  maxSize : ℕ
  ttl : Int

namespace Buffer

def new (maxSize : ℕ) (ttl : Int) : Buffer := ⟨fun _ => none, maxSize, ttl⟩

/-- The live buffer of a key, and the map with an expired entry deleted. -/
def live (b : Buffer) (now : Int) (key : String) : Option KeyBuffer × Buffer :=
  match b.keys key with
  | none => (none, b)
  | some kb =>
    if kb.expiry < now then (none, { b with keys := update b.keys key none })
    else (some kb, b)

/-- `now` is the reading taken by `live`; `stamp` is the later reading from which
the refreshed expiry is computed. -/
def append (b : Buffer) (now stamp : Int) (key msgID : String)
    (payload : List UInt8) : Buffer :=
  let (found, b) := b.live now key
  let kb := found.getD ⟨0, "", []⟩
  let msgs := kb.msgs ++ [⟨msgID, payload⟩]
  let msgs := if b.maxSize < msgs.length then msgs.drop (msgs.length - b.maxSize) else msgs
  { b with keys := update b.keys key (some ⟨stamp + b.ttl, kb.lowWater, msgs⟩) }

end Buffer

/-- The messages strictly after the first one carrying the id, if there is one. -/
def tailAfter (id : String) : List BufferedMessage → Option (List BufferedMessage)
  | [] => none
  | m :: rest => if m.ID = id then some rest else tailAfter id rest

namespace Buffer

def replayAfter (b : Buffer) (now : Int) (key afterMsgID : String) :
    (List BufferedMessage × Bool) × Buffer :=
  match b.live now key with
  | (none, b) => (([], false), b)
  | (some kb, b) =>
    if afterMsgID = "" then (([], false), b)
    else if afterMsgID = kb.lowWater then ((kb.msgs, true), b)
    else match tailAfter afterMsgID kb.msgs with
      | some tail => ((tail, true), b)
      | none => (([], false), b)

def prune (b : Buffer) (now : Int) (key upToMsgID : String) : Buffer :=
  match b.live now key with
  | (none, b) => b
  | (some kb, b) =>
    match tailAfter upToMsgID kb.msgs with
    | some tail =>
      { b with keys := update b.keys key (some ⟨kb.expiry, upToMsgID, tail⟩) }
    | none => b

def delete (b : Buffer) (key : String) : Buffer :=
  { b with keys := update b.keys key none }

end Buffer

inductive Op
  | append (key msgID : String) (payload : List UInt8)
  | replayAfter (key afterMsgID : String)
  | prune (key upToMsgID : String)
  | delete (key : String)

/-- One locked call with the clock readings taken while the lock is held. -/
structure Call where
  now : Int
  stamp : Int
  op : Op

def step (b : Buffer) (c : Call) : Buffer :=
  match c.op with
  | .append key msgID payload => b.append c.now c.stamp key msgID payload
  | .replayAfter key afterMsgID => (b.replayAfter c.now key afterMsgID).2
  | .prune key upToMsgID => b.prune c.now key upToMsgID
  | .delete key => b.delete key

def run (maxSize : ℕ) (ttl : Int) (calls : List Call) : Buffer :=
  calls.foldl step (Buffer.new maxSize ttl)

/-- Everything a call appends under the key. -/
def Call.appended (key : String) (c : Call) : List BufferedMessage :=
  match c.op with
  | .append k msgID payload => if k = key then [⟨msgID, payload⟩] else []
  | _ => []

def appended (key : String) (calls : List Call) : List BufferedMessage :=
  calls.flatMap (Call.appended key)

def Call.appendedID (c : Call) : List (String × String) :=
  match c.op with
  | .append key msgID _ => [(key, msgID)]
  | _ => []

/-- Message ids are non-empty and pairwise distinct under each key. -/
def DistinctIDs (calls : List Call) : Prop :=
  (calls.flatMap Call.appendedID).Nodup ∧ ∀ p ∈ calls.flatMap Call.appendedID, p.2 ≠ ""

/-- Successive clock readings never go back. -/
def WellTimed (calls : List Call) : Prop :=
  (∀ c ∈ calls, c.now ≤ c.stamp) ∧ calls.Pairwise (fun c d => c.stamp ≤ d.now)

instance (calls : List Call) : Decidable (DistinctIDs calls) :=
  inferInstanceAs (Decidable (_ ∧ _))

instance (calls : List Call) : Decidable (WellTimed calls) :=
  inferInstanceAs (Decidable (_ ∧ _))

/-- At every moment of the run, a replay after an appended id that is reported
complete returns exactly the messages appended after that id. -/
def Gapless (maxSize : ℕ) (ttl : Int) (calls : List Call) : Prop :=
  ∀ pre, pre <+: calls → ∀ (now : Int) (key a : String),
    (∀ c ∈ pre, c.stamp ≤ now) → a ∈ (appended key pre).map BufferedMessage.ID →
    ((run maxSize ttl pre).replayAfter now key a).1.2 = true →
    tailAfter a (appended key pre) = some ((run maxSize ttl pre).replayAfter now key a).1.1

/-- The call appends to a live, pruned buffer that is already full. -/
def EvictsPruned (b : Buffer) (c : Call) : Prop :=
  match c.op with
  | .append key _ _ =>
    ∃ kb, (b.live c.now key).1 = some kb ∧ kb.lowWater ≠ "" ∧ b.maxSize ≤ kb.msgs.length
  | _ => False

def NeverEvictsPruned (maxSize : ℕ) (ttl : Int) (calls : List Call) : Prop :=
  AtEverySplit (fun pre c => ¬ EvictsPruned (run maxSize ttl pre) c) calls

variable {m : BufferedMessage}

theorem tailAfter_append_cons {id : String} {before : List BufferedMessage}
    {after : List BufferedMessage} (hid : m.ID = id)
    (hbefore : id ∉ before.map BufferedMessage.ID) :
    tailAfter id (before ++ m :: after) = some after := by
  induction before with
  | nil => simp [tailAfter, hid]
  | cons b rest ih =>
    simp only [map_cons, mem_cons, not_or] at hbefore
    simp only [cons_append, tailAfter, if_neg (Ne.symm hbefore.1)]
    exact ih hbefore.2

theorem tailAfter_split (id : String) (msgs tail : List BufferedMessage)
    (h : tailAfter id msgs = some tail) :
    ∃ before m, msgs = before ++ m :: tail ∧ m.ID = id := by
  induction msgs with
  | nil => simp [tailAfter] at h
  | cons b rest ih =>
    by_cases hb : b.ID = id
    · simp only [tailAfter, if_pos hb, Option.some.injEq] at h
      exact ⟨[], b, by rw [h]; rfl, hb⟩
    · simp only [tailAfter, if_neg hb] at h
      obtain ⟨before, m, hsplit, hid⟩ := ih h
      exact ⟨b :: before, m, by rw [hsplit]; rfl, hid⟩

theorem tailAfter_nodup {id : String} {before after : List BufferedMessage} (hid : m.ID = id)
    (hnodup : ((before ++ m :: after).map BufferedMessage.ID).Nodup) :
    tailAfter id (before ++ m :: after) = some after := by
  apply tailAfter_append_cons hid
  rw [map_append, map_cons, nodup_append] at hnodup
  intro hmem
  exact hnodup.2.2 id hmem id (by simp [hid]) rfl

theorem appended_concat (key : String) (calls : List Call) (c : Call) :
    appended key (calls ++ [c]) = appended key calls ++ c.appended key := by
  simp [appended]

theorem run_concat (maxSize : ℕ) (ttl : Int) (calls : List Call) (c : Call) :
    run maxSize ttl (calls ++ [c]) = step (run maxSize ttl calls) c := by
  simp [run]

namespace Buffer

variable (b : Buffer) (now : Int) (key : String)

theorem live_some (kb : KeyBuffer) (h : (b.live now key).1 = some kb) :
    b.keys key = some kb ∧ now ≤ kb.expiry ∧ (b.live now key).2 = b := by
  unfold live at h ⊢
  split at h
  · simp at h
  · next kb' hkb =>
    split_ifs at h ⊢ with hexp
    simp only [Option.some.injEq] at h
    subst kb'
    exact ⟨hkb, by omega, rfl⟩

theorem live_of_keys (kb : KeyBuffer) (h : b.keys key = some kb) (hexp : now ≤ kb.expiry) :
    b.live now key = (some kb, b) := by
  unfold live
  rw [h]
  simp only [if_neg (show ¬ kb.expiry < now by omega)]

/-- Looking a key up changes no other key and revives nothing. -/
theorem live_keys (key other : String) (kb : KeyBuffer)
    (h : (b.live now key).2.keys other = some kb) : b.keys other = some kb := by
  unfold live at h
  split at h
  · exact h
  · split_ifs at h
    · by_cases hk : other = key
      · simp [hk] at h
      · simpa [update_of_ne hk] using h
    · exact h

theorem live_maxSize : (b.live now key).2.maxSize = b.maxSize ∧ (b.live now key).2.ttl = b.ttl := by
  unfold live
  split
  · exact ⟨rfl, rfl⟩
  · split_ifs <;> exact ⟨rfl, rfl⟩

theorem replayAfter_buffer (a : String) : (b.replayAfter now key a).2 = (b.live now key).2 := by
  unfold replayAfter
  split
  · next hl => rw [hl]
  · next hl =>
    rw [hl]
    split_ifs
    · rfl
    · rfl
    · split <;> rfl

theorem prune_cases (upTo : String) :
    b.prune now key upTo = (b.live now key).2 ∨
      ∃ kb tail, b.keys key = some kb ∧ tailAfter upTo kb.msgs = some tail ∧
        b.prune now key upTo =
          { b with keys := update b.keys key (some ⟨kb.expiry, upTo, tail⟩) } := by
  unfold prune
  split
  · next hl => exact .inl (by rw [hl])
  · next kb b' hl =>
    obtain ⟨hkb, -, hb⟩ := b.live_some now key kb (by rw [hl])
    obtain rfl : b' = b := by rwa [hl] at hb
    split
    · next tail htail => exact .inr ⟨kb, tail, hkb, htail, rfl⟩
    · exact .inl (by rw [hl])

end Buffer

theorem evict_eq_drop (maxSize : ℕ) (msgs : List BufferedMessage) :
    (if maxSize < msgs.length then msgs.drop (msgs.length - maxSize) else msgs) =
      msgs.drop (msgs.length - maxSize) := by
  split_ifs with h
  · rfl
  · rw [Nat.sub_eq_zero_of_le (by omega), drop_zero]

variable {b : Buffer} {c : Call}

theorem step_params : (step b c).maxSize = b.maxSize ∧ (step b c).ttl = b.ttl := by
  unfold step
  cases c.op with
  | append key msgID payload => exact b.live_maxSize c.now key
  | replayAfter key afterMsgID =>
    dsimp only
    rw [b.replayAfter_buffer]
    exact b.live_maxSize c.now key
  | prune key upToMsgID =>
    rcases b.prune_cases c.now key upToMsgID with h | ⟨_, _, -, -, h⟩ <;> simp only [h]
    · exact b.live_maxSize c.now key
    · trivial
  | delete key => exact ⟨rfl, rfl⟩

theorem run_params (maxSize : ℕ) (ttl : Int) (calls : List Call) :
    (run maxSize ttl calls).maxSize = maxSize ∧ (run maxSize ttl calls).ttl = ttl := by
  induction calls using List.reverseRecOn with
  | nil => exact ⟨rfl, rfl⟩
  | append_singleton calls c ih =>
    rw [run_concat, step_params.1, step_params.2]
    exact ih

/-- Everything one call can do to the retained tail of a key. -/
theorem step_key_cases (b : Buffer) (c : Call) (key : String) (kb : KeyBuffer)
    (h : (step b c).keys key = some kb) :
    (b.keys key = some kb ∧ c.appended key = []) ∨
    (∃ old tail, b.keys key = some old ∧ tailAfter kb.lowWater old.msgs = some tail ∧
      kb = ⟨old.expiry, kb.lowWater, tail⟩ ∧ c.appended key = []) ∨
    (∃ m old, c.appended key = [m] ∧
      (old = ⟨0, "", []⟩ ∨ b.keys key = some old ∧ (b.live c.now key).1 = some old) ∧
      kb = ⟨c.stamp + b.ttl, old.lowWater,
        (old.msgs ++ [m]).drop ((old.msgs ++ [m]).length - b.maxSize)⟩) := by
  have hlive := b.live_keys c.now
  unfold step at h
  unfold Call.appended
  cases hop : c.op with
  | append k msgID payload =>
    rw [hop] at h
    simp only [Buffer.append, evict_eq_drop] at h
    by_cases hk : key = k
    · subst k
      rw [update_self, Option.some.injEq] at h
      refine Or.inr (Or.inr ⟨⟨msgID, payload⟩, (b.live c.now key).1.getD ⟨0, "", []⟩,
        by simp, ?_, ?_⟩)
      · cases hfound : (b.live c.now key).1 with
        | none => exact Or.inl rfl
        | some old => exact Or.inr ⟨(b.live_some _ _ _ hfound).1, rfl⟩
      · rw [← h, (b.live_maxSize c.now key).1, (b.live_maxSize c.now key).2]
    · rw [update_of_ne hk] at h
      exact Or.inl ⟨hlive k key kb h, by simp [Ne.symm hk]⟩
  | replayAfter k a =>
    rw [hop] at h
    dsimp only at h
    rw [b.replayAfter_buffer] at h
    exact Or.inl ⟨hlive k key kb h, rfl⟩
  | prune k upTo =>
    rw [hop] at h
    rcases b.prune_cases c.now k upTo with hprune | ⟨old, tail, hold, htail, hprune⟩ <;>
      simp only [hprune] at h
    · exact Or.inl ⟨hlive k key kb h, rfl⟩
    · by_cases hk : key = k
      · subst k
        rw [update_self, Option.some.injEq] at h
        subst kb
        exact Or.inr (Or.inl ⟨old, tail, hold, htail, rfl, rfl⟩)
      · rw [update_of_ne hk] at h
        exact Or.inl ⟨h, rfl⟩
  | delete k =>
    rw [hop] at h
    by_cases hk : key = k
    · simp [Buffer.delete, hk] at h
    · simp only [Buffer.delete, update_of_ne hk] at h
      exact Or.inl ⟨h, rfl⟩

/-- What a buffer retains: a suffix of the appended messages, lying behind the message that
carries its low-water mark, and all that was appended behind it as long as nothing was evicted
from a pruned buffer. -/
structure Retains (maxSize : ℕ) (ttl : Int) (calls : List Call) (key : String) (kb : KeyBuffer) :
    Prop where
  is_suffix : kb.msgs <:+ appended key calls
  marked : kb.lowWater ≠ "" → ∃ before mark after,
    appended key calls = before ++ mark :: after ∧ mark.ID = kb.lowWater ∧ kb.msgs <:+ after ∧
      (NeverEvictsPruned maxSize ttl calls → kb.msgs = after)
  stamped : ∃ c ∈ calls, kb.expiry = c.stamp + ttl

theorem suffix_drop_concat {msgs hist : List BufferedMessage} (m : BufferedMessage) (n : ℕ)
    (h : msgs <:+ hist) : (msgs ++ [m]).drop n <:+ hist ++ [m] := by
  obtain ⟨pre, rfl⟩ := h
  exact (drop_suffix n _).trans ⟨pre, by simp⟩

variable {key : String}

theorem appended_singleton (h : c.appended key = [m]) : c.op = .append key m.ID m.Payload := by
  unfold Call.appended at h
  cases hop : c.op with
  | append k msgID payload =>
    rw [hop] at h
    by_cases hk : k = key
    · simp only [if_pos hk, List.cons.injEq, and_true] at h
      subst h hk
      rfl
    · simp [if_neg hk] at h
  | replayAfter k a => simp [hop] at h
  | prune k upTo => simp [hop] at h
  | delete k => simp [hop] at h

theorem run_retains (maxSize : ℕ) (ttl : Int) (calls : List Call) (key : String)
    (kb : KeyBuffer) (h : (run maxSize ttl calls).keys key = some kb) :
    Retains maxSize ttl calls key kb := by
  induction calls using List.reverseRecOn generalizing kb with
  | nil => simp [run, Buffer.new] at h
  | append_singleton calls c ih =>
    have hcond := (atEverySplit_concat (fun pre c => ¬ EvictsPruned (run maxSize ttl pre) c)
      calls c).mp
    rw [run_concat] at h
    obtain ⟨hsame, hnone⟩ | ⟨old, tail, hold, htail, hkb, hnone⟩ | ⟨m, old, happ, hold, hkb⟩ :=
      step_key_cases _ c key kb h
    · have hr := ih kb hsame
      obtain ⟨d, hd, hexp⟩ := hr.stamped
      refine ⟨?_, fun hne => ?_, d, mem_append_left _ hd, hexp⟩ <;>
        rw [appended_concat, hnone, append_nil]
      · exact hr.is_suffix
      · obtain ⟨before, mark, after, hhist, hid, hsuf, hall⟩ := hr.marked hne
        exact ⟨before, mark, after, hhist, hid, hsuf, fun h => hall (hcond h).1⟩
    · have hr := ih old hold
      obtain ⟨d, hd, hexp⟩ := hr.stamped
      obtain ⟨before, mark, hsplit, hid⟩ := tailAfter_split _ _ _ htail
      obtain ⟨pre, hpre⟩ := hr.is_suffix
      have hhist : appended key (calls ++ [c]) = (pre ++ before) ++ mark :: tail := by
        rw [appended_concat, hnone, append_nil, ← hpre, hsplit, append_assoc]
      rw [hkb]
      refine ⟨?_, fun _ => ⟨pre ++ before, mark, tail, hhist, hid, suffix_refl _,
        fun _ => rfl⟩, d, mem_append_left _ hd, hexp⟩
      rw [hhist]
      exact ⟨pre ++ before ++ [mark], by simp⟩
    · rw [hkb, (run_params maxSize ttl calls).1, (run_params maxSize ttl calls).2]
      refine ⟨?_, ?_, c, by simp, rfl⟩
      · rw [appended_concat, happ]
        apply suffix_drop_concat
        rcases hold with rfl | ⟨hold, _⟩
        · exact nil_suffix
        · exact (ih old hold).is_suffix
      · intro hne
        rcases hold with rfl | ⟨hold, hlive⟩
        · exact absurd rfl hne
        · obtain ⟨before, mark, after, hhist, hid, hsuf, hall⟩ := (ih old hold).marked hne
          refine ⟨before, mark, after ++ [m], ?_, hid, suffix_drop_concat m _ hsuf, fun h => ?_⟩
          · rw [appended_concat, happ, hhist, append_assoc, cons_append]
          · have hroom : old.msgs.length < maxSize := by
              by_contra hfull
              apply (hcond h).2
              unfold EvictsPruned
              rw [appended_singleton happ]
              exact ⟨old, hlive, hne, by rw [(run_params maxSize ttl calls).1]; omega⟩
            rw [hall (hcond h).1, Nat.sub_eq_zero_of_le, drop_zero]
            rw [← hall (hcond h).1, length_append, length_singleton]
            omega

theorem appended_ids (key : String) (calls : List Call) :
    (appended key calls).map BufferedMessage.ID =
      ((calls.flatMap Call.appendedID).filter (fun p => p.1 = key)).map Prod.snd := by
  induction calls with
  | nil => rfl
  | cons c rest ih =>
    have hc : (c.appended key).map BufferedMessage.ID =
        ((Call.appendedID c).filter (fun p => p.1 = key)).map Prod.snd := by
      unfold Call.appended Call.appendedID
      cases c.op with
      | append k msgID payload => by_cases hk : k = key <;> simp [hk]
      | replayAfter k a => rfl
      | prune k upTo => rfl
      | delete k => rfl
    simp only [appended, flatMap_cons, map_append, filter_append] at ih ⊢
    rw [hc, ih]

variable {calls : List Call}

theorem DistinctIDs.of_prefix {pre : List Call} (h : DistinctIDs calls) (hpre : pre <+: calls) :
    DistinctIDs pre := by
  obtain ⟨post, rfl⟩ := hpre
  obtain ⟨hnodup, hne⟩ := h
  rw [flatMap_append] at hnodup hne
  exact ⟨(nodup_append.mp hnodup).1, fun p hp => hne p (mem_append_left _ hp)⟩

theorem DistinctIDs.nodup (h : DistinctIDs calls) (key : String) :
    ((appended key calls).map BufferedMessage.ID).Nodup := by
  rw [appended_ids]
  apply List.Nodup.map_on _ (h.1.filter _)
  rintro ⟨k, i⟩ hp ⟨k', i'⟩ hp' heq
  simp only [mem_filter, decide_eq_true_eq] at hp hp'
  simp only at heq
  rw [hp.2, hp'.2, heq]

/-- A replay that is reported complete starts from the low-water mark or from a
retained message, and returns everything retained behind it. -/
theorem replayAfter_complete {now : Int} {a : String} (h : (b.replayAfter now key a).1.2 = true) :
    a ≠ "" ∧ ∃ kb, b.keys key = some kb ∧
      (a = kb.lowWater ∧ (b.replayAfter now key a).1.1 = kb.msgs ∨
        tailAfter a kb.msgs = some (b.replayAfter now key a).1.1) := by
  unfold Buffer.replayAfter at h ⊢
  split at h
  · simp at h
  · next kb b' hl =>
    have hsome := b.live_some now key kb (by rw [hl])
    split_ifs at h ⊢ with hempty hmark
    · exact ⟨hempty, kb, hsome.1, Or.inl ⟨hmark, rfl⟩⟩
    · cases htail : tailAfter a kb.msgs with
      | none => simp [htail] at h
      | some tail => exact ⟨hempty, kb, hsome.1, Or.inr htail⟩

theorem replayAfter_lowWater (b : Buffer) (now : Int) (key : String) (kb : KeyBuffer)
    (hkb : b.keys key = some kb) (hexp : now ≤ kb.expiry) (hne : kb.lowWater ≠ "") :
    (b.replayAfter now key kb.lowWater).1 = (kb.msgs, true) := by
  unfold Buffer.replayAfter
  rw [b.live_of_keys now key kb hkb hexp]
  simp [hne]

theorem gapless_of_neverEvictsPruned {maxSize : ℕ} {ttl : Int} (hids : DistinctIDs calls)
    (hcond : NeverEvictsPruned maxSize ttl calls) : Gapless maxSize ttl calls := by
  intro pre hpre now key a _ _ hcomplete
  have hnodup := (hids.of_prefix hpre).nodup key
  obtain ⟨hne, kb, hkb, hcase⟩ := replayAfter_complete hcomplete
  rcases hcase with ⟨hmark, hmsgs⟩ | htail
  · obtain ⟨before, mark, after, hhist, hid, -, hall⟩ :=
      (run_retains maxSize ttl pre key kb hkb).marked (hmark ▸ hne)
    rw [hmsgs, hhist, hall (hcond.of_prefix hpre)]
    rw [hhist] at hnodup
    exact tailAfter_nodup (by rw [hid, hmark]) hnodup
  · obtain ⟨before, m, hsplit, hid⟩ := tailAfter_split _ _ _ htail
    obtain ⟨front, hsuf⟩ := (run_retains maxSize ttl pre key kb hkb).is_suffix
    rw [hsplit, ← append_assoc] at hsuf
    rw [← hsuf] at hnodup ⊢
    exact tailAfter_nodup hid hnodup

theorem appended_self {msgID : String} {payload : List UInt8}
    (h : c.op = .append key msgID payload) :
    c.appended key = [⟨msgID, payload⟩] := by
  simp [Call.appended, h]

/-- An append leaves the key live until the new stamp plus the TTL, with the
low-water mark of the live buffer it found. -/
theorem step_append_keys {msgID : String} {payload : List UInt8} {kb : KeyBuffer}
    (hop : c.op = .append key msgID payload) (hlive : (b.live c.now key).1 = some kb) :
    (step b c).keys key = some ⟨c.stamp + b.ttl, kb.lowWater,
      (kb.msgs ++ [(⟨msgID, payload⟩ : BufferedMessage)]).drop
        ((kb.msgs ++ [(⟨msgID, payload⟩ : BufferedMessage)]).length - b.maxSize)⟩ := by
  simp only [step, hop, Buffer.append, evict_eq_drop, update_self, hlive,
    Option.getD_some, (b.live_maxSize c.now key).1, (b.live_maxSize c.now key).2]

/-- An eviction from a pruned buffer opens a gap behind its low-water mark at
once: replaying from the mark is reported complete but misses the evicted message. -/
theorem neverEvictsPruned_of_gapless {maxSize : ℕ} {ttl : Int} (hclock : WellTimed calls)
    (hids : DistinctIDs calls) (h : Gapless maxSize ttl calls) :
    NeverEvictsPruned maxSize ttl calls := by
  intro pre c post hsplit hevict
  unfold EvictsPruned at hevict
  cases hop : c.op with
  | append key msgID payload =>
    rw [hop] at hevict
    obtain ⟨kb, hlive, hne, hfull⟩ := hevict
    rw [(run_params maxSize ttl pre).1] at hfull
    obtain ⟨hkb, hexp, _⟩ := (run maxSize ttl pre).live_some _ _ _ hlive
    have hr := run_retains maxSize ttl pre key kb hkb
    obtain ⟨before, mark, after, hhist, hid, hsuf, -⟩ := hr.marked hne
    obtain ⟨d, hd, hstamp⟩ := hr.stamped
    have hpre : pre ++ [c] <+: calls := ⟨post, by rw [hsplit]; simp⟩
    have hcalls : ∀ e ∈ pre, e.stamp ≤ c.now := by
      intro e he
      have hp := hclock.2
      rw [hsplit, pairwise_append] at hp
      exact hp.2.2 e he c (by simp)
    have hnow : c.now ≤ c.stamp := hclock.1 c (by rw [hsplit]; simp)
    have httl : 0 ≤ ttl := by
      have := hcalls d hd
      omega
    have hstep := step_append_keys hop hlive
    rw [(run_params maxSize ttl pre).1, (run_params maxSize ttl pre).2, ← run_concat] at hstep
    have hreplay := replayAfter_lowWater _ c.stamp key _ hstep (by simp only; omega) hne
    have happ : appended key (pre ++ [c]) =
        before ++ mark :: (after ++ [⟨msgID, payload⟩]) := by
      rw [appended_concat, appended_self hop, hhist, append_assoc, cons_append]
    have hnodup := (hids.of_prefix hpre).nodup key
    rw [happ] at hnodup
    have hgap := h (pre ++ [c]) hpre c.stamp key kb.lowWater
      (by
        intro e he
        rcases mem_append.mp he with he | he
        · exact Int.le_trans (hcalls e he) hnow
        · obtain rfl := mem_singleton.mp he
          exact Int.le_refl _)
      (by rw [happ]; simp [hid])
      (by rw [hreplay])
    rw [hreplay, happ, tailAfter_nodup hid hnodup, Option.some.injEq] at hgap
    have hlen := congrArg List.length hgap
    have hle := hsuf.length_le
    simp only [length_append, length_singleton, length_drop] at hlen
    omega
  | replayAfter key a => rw [hop] at hevict; exact hevict
  | prune key upTo => rw [hop] at hevict; exact hevict
  | delete key => rw [hop] at hevict; exact hevict

/-- A replay buffer that reports completeness is gapless in exactly the runs in
which no append evicts from a live buffer whose low-water mark is set. -/
theorem gapless_iff_neverEvictsPruned (maxSize : ℕ) (ttl : Int) (calls : List Call)
    (hclock : WellTimed calls) (hids : DistinctIDs calls) :
    Gapless maxSize ttl calls ↔ NeverEvictsPruned maxSize ttl calls :=
  ⟨neverEvictsPruned_of_gapless hclock hids, gapless_of_neverEvictsPruned hids⟩

/-- In a buffer of two, a message is pruned away and three more are appended. -/
def prunedThenFull : List Call :=
  [⟨0, 0, .append "k" "msg-1" []⟩, ⟨1, 1, .prune "k" "msg-1"⟩, ⟨2, 2, .append "k" "msg-2" []⟩,
    ⟨3, 3, .append "k" "msg-3" []⟩, ⟨4, 4, .append "k" "msg-4" []⟩]

theorem gapless_iff_at_prunedThenFull :
    WellTimed prunedThenFull ∧ DistinctIDs prunedThenFull ∧
      (Gapless 3 60 prunedThenFull ↔ NeverEvictsPruned 3 60 prunedThenFull) :=
  ⟨by decide, by decide,
    gapless_iff_neverEvictsPruned 3 60 prunedThenFull (by decide) (by decide)⟩

theorem prunedThenFull_not_gapless :
    WellTimed prunedThenFull ∧ DistinctIDs prunedThenFull ∧
      ((run 2 60 prunedThenFull).replayAfter 5 "k" "msg-1").1 =
        ([⟨"msg-3", []⟩, ⟨"msg-4", []⟩], true) ∧
      tailAfter "msg-1" (appended "k" prunedThenFull) =
        some [⟨"msg-2", []⟩, ⟨"msg-3", []⟩, ⟨"msg-4", []⟩] ∧
      ¬ Gapless 2 60 prunedThenFull := by
  have hreplay : ((run 2 60 prunedThenFull).replayAfter 5 "k" "msg-1").1 =
      ([⟨"msg-3", []⟩, ⟨"msg-4", []⟩], true) := by decide
  have htail : tailAfter "msg-1" (appended "k" prunedThenFull) =
      some [⟨"msg-2", []⟩, ⟨"msg-3", []⟩, ⟨"msg-4", []⟩] := by decide
  refine ⟨by decide, by decide, hreplay, htail, ?_⟩
  intro h
  have hgap := h prunedThenFull (prefix_refl _) 5 "k" "msg-1" (by decide) (by decide)
    (by rw [hreplay])
  rw [hreplay, htail] at hgap
  exact absurd hgap (by decide)

end KnowledgeEngine.ReplayBuffer
