import KnowledgeEngine.CachingRepository

/-!
Reads after a write through the caching decorator. From the eviction of a write on, nothing
older than the write is in the cache or in a registered load, unless a load that read the
repository before the write is still registered at the eviction. Such a load gives its old
entity to the next Get.
-/

namespace KnowledgeEngine.CachingReads

open ByteText CachingRepository CoreTypes Function Transitions

section

variable {T ID : Type} {d : Decorator T ID}

theorem cacheKey_injective (hformat : Injective d.format) : Injective d.cacheKey := by
  intro a b h
  exact hformat ((String.append_right_inj _).mp h)

variable {result : Revised T}

theorem readCache_revision {entry : Option (Revised Bytes)} (h : d.readCache entry = some result) :
    ∃ e, entry = some e ∧ e.revision = result.revision := by
  unfold Decorator.readCache at h
  split at h
  · cases h
  · next e =>
    split at h
    · cases h
      exact ⟨e, rfl, rfl⟩
    · cases h

/-- Every load is registered under the key of its id, every write about to evict is among the
writes its id has seen, and nothing of the id from before its revision `n` is left: not in
the cache, not in a registered load, not in an answer of the call. -/
structure Fresh (d : Decorator T ID) (id : ID) (n call : ℕ) (st : State T ID) : Prop where
  keyed : ∀ key f, st.flights key = some f → d.cacheKey f.id = key
  counted : ∀ c id' m result, st.calls c = .evicting id' m result → m ≤ st.revision id'
  current : n ≤ st.revision id
  cached : ∀ e, st.cache (d.cacheKey id) = some e → n ≤ e.revision
  flown : ∀ f r, st.flights (d.cacheKey id) = some f → f.read = some r → n ≤ r
  answered : (st.calls call).FreshFrom id n

theorem freshFrom_zero {id : ID} {a : Call T ID} : a.FreshFrom id 0 := by
  unfold Call.FreshFrom
  split
  · exact fun _ => Nat.zero_le _
  · exact fun _ => Nat.zero_le _
  · trivial

theorem initial_fresh {id : ID} {call : ℕ} {inner : ID → Option T}
    {cache : String → Option (Revised Bytes)} : Fresh d id 0 call (initial inner cache) where
  keyed := nofun
  counted := nofun
  current := Nat.zero_le _
  cached := fun _ _ => Nat.zero_le _
  flown := nofun
  answered := freshFrom_zero

variable {d : Decorator T ID} {st : State T ID} {id : ID} {n call : ℕ}

variable {key : String} {answer : Except ErrorValue (Revised T)}

theorem evicting_of_land {a : Call T ID} {id' : ID} {m : ℕ} {result : Option T}
    (h : a.land d key answer = .evicting id' m result) : a = .evicting id' m result := by
  cases a with
  | waiting id =>
    simp only [Call.land] at h
    split at h <;> cases h
  | _ => exact h

theorem fill_flights (st : State T ID) (key : String) (id : ID) (result : Revised T) :
    (st.fill d key id result).flights key = some ⟨id, .ended (.ok result)⟩ := by
  unfold State.fill
  split <;> exact update_self key _ st.flights

theorem fill_calls : (st.fill d key id result).calls = st.calls := by
  unfold State.fill
  split <;> rfl

theorem land_waiting (hcall : st.calls call = .waiting id) (hkey : d.cacheKey id = key) :
    (st.land d key answer).calls call = .got id answer := by
  simp only [State.land, hcall, Call.land, hkey, if_true]

variable (h : Fresh d id n call st)
include h

theorem Fresh.setCall (c : ℕ) (a : Call T ID)
    (hevict : ∀ id' m result, a = .evicting id' m result → m ≤ st.revision id')
    (ha : a.FreshFrom id n) : Fresh d id n call (st.setCall c a) where
  keyed := h.keyed
  counted := (forall_update_iff st.calls
    fun _ a => ∀ id' m result, a = .evicting id' m result → m ≤ st.revision id').mpr
      ⟨hevict, fun c _ => h.counted c⟩
  current := h.current
  cached := h.cached
  flown := h.flown
  answered := (forall_update_iff st.calls
    fun c a => c = call → a.FreshFrom id n).mpr
      ⟨fun _ => ha, fun _ _ heq => heq ▸ h.answered⟩ call rfl

theorem Fresh.setCache (key : String) (entry : Option (Revised Bytes))
    (he : key = d.cacheKey id → ∀ e, entry = some e → n ≤ e.revision) :
    Fresh d id n call (st.setCache key entry) where
  keyed := h.keyed
  counted := h.counted
  current := h.current
  cached := (forall_update_iff st.cache
    fun k entry => k = d.cacheKey id → ∀ e, entry = some e → n ≤ e.revision).mpr
      ⟨he, fun _ _ heq => heq ▸ h.cached⟩ (d.cacheKey id) rfl
  flown := h.flown
  answered := h.answered

theorem Fresh.setFlight (key : String) (flight : Option (Flight T ID))
    (hkey : ∀ f, flight = some f → d.cacheKey f.id = key)
    (hf : key = d.cacheKey id → ∀ f r, flight = some f → f.read = some r → n ≤ r) :
    Fresh d id n call (st.setFlight key flight) where
  keyed := (forall_update_iff st.flights
    fun key flight => ∀ f, flight = some f → d.cacheKey f.id = key).mpr
      ⟨hkey, fun k _ => h.keyed k⟩
  counted := h.counted
  current := h.current
  cached := h.cached
  flown := (forall_update_iff st.flights
    fun k flight => k = d.cacheKey id → ∀ f r, flight = some f → f.read = some r → n ≤ r).mpr
      ⟨hf, fun _ _ heq => heq ▸ h.flown⟩ (d.cacheKey id) rfl
  answered := h.answered

/-- A waiting call gets the answer of a load of its own key. -/
theorem Fresh.land (key : String) (f : Flight T ID) (answer : Except ErrorValue (Revised T))
    (hf : st.flights key = some f) (hanswer : f.stage = .ended answer) :
    Fresh d id n call (st.land d key answer) := by
  have hset := h.setFlight key none nofun nofun
  refine ⟨hset.keyed, fun c id' m result hc => h.counted c id' m result (evicting_of_land hc),
    hset.current, hset.cached, hset.flown, ?_⟩
  change ((st.calls call).land d key answer).FreshFrom id n
  cases hcall : st.calls call with
  | waiting id' =>
    simp only [Call.land]
    split
    · next hkey =>
      cases answer with
      | error err => trivial
      | ok result =>
        rintro rfl
        exact h.flown f result.revision (hkey ▸ hf) (by rw [Flight.read, hanswer])
    · trivial
  | _ => simpa only [hcall, Call.land] using h.answered

theorem Fresh.readCache {id' : ID}
    (hread : d.readCache (st.cache (d.cacheKey id')) = some result) :
    id' = id → n ≤ result.revision := by
  rintro rfl
  obtain ⟨e, he, hrevision⟩ := readCache_revision hread
  exact hrevision ▸ h.cached e he

theorem Fresh.join (c : ℕ) (id' : ID) : Fresh d id n call (st.join d c id') := by
  unfold State.join
  split
  · exact h.setCall c _ nofun trivial
  · refine (h.setFlight (d.cacheKey id') _ ?_ ?_).setCall c _ nofun trivial
    · rintro f ⟨⟩
      rfl
    · rintro _ f r ⟨⟩ hr
      cases hr

theorem Fresh.fill (key : String) (id' : ID) (result : Revised T)
    (hf : st.flights key = some ⟨id', .loaded result⟩) :
    Fresh d id n call (st.fill d key id' result) := by
  have hresult : key = d.cacheKey id → n ≤ result.revision := by
    rintro rfl
    exact h.flown _ _ hf rfl
  have hkey : d.cacheKey id' = key := h.keyed key _ hf
  have hended : Fresh d id n call (st.setFlight key (some ⟨id', .ended (.ok result)⟩)) := by
    refine h.setFlight key _ ?_ ?_
    · rintro f ⟨⟩
      exact hkey
    · rintro heq f r ⟨⟩ ⟨⟩
      exact hresult heq
  unfold State.fill
  split
  · exact hended
  · refine hended.setCache key _ ?_
    rintro heq e ⟨⟩
    exact hresult heq

/-- A load reads the revision its id is at. -/
theorem Fresh.load (hformat : Injective d.format) (key : String) (id' : ID) (entity : T)
    (hf : st.flights key = some ⟨id', .loading⟩) :
    Fresh d id n call
      (st.setFlight key (some ⟨id', .loaded ⟨entity, st.revision id'⟩⟩)) := by
  have hkey : d.cacheKey id' = key := h.keyed key _ hf
  refine h.setFlight key _ ?_ ?_
  · rintro f ⟨⟩
    exact hkey
  · rintro heq f r ⟨⟩ ⟨⟩
    have hid : id' = id := cacheKey_injective hformat (hkey.trans heq)
    exact hid ▸ h.current

omit h in
/-- The eviction leaves nothing older than its write, if no registered load has read before
the write. -/
theorem Fresh.evict {w : ℕ} {result : Option T} (h : Fresh d id 0 call st)
    (hw : st.calls w = .evicting id n result) (hcall : st.calls call = .absent)
    (hold : ∀ f r, st.flights (d.cacheKey id) = some f → f.read = some r → n ≤ r) :
    Fresh d id n call
      ((st.setCache (d.cacheKey id) none).setCall w (.wrote id n result)) := by
  have hevicted : Fresh d id n call (st.setCache (d.cacheKey id) none) := by
    refine ⟨h.keyed, h.counted, h.counted w id n result hw, fun e he => ?_, hold, ?_⟩
    · simp only [State.setCache, update_self] at he
      cases he
    · simp only [State.setCache, hcall]
      trivial
  exact hevicted.setCall w (.wrote id n result) nofun trivial

end

section

variable {T ID : Type} [DecidableEq ID] {d : Decorator T ID} {st st' : State T ID} {id : ID}
  {n call : ℕ}

theorem revision_le_write {id id' : ID} {stored : Option T} :
    st.revision id' ≤ (st.write id stored).revision id' := by
  exact (forall_update_iff st.revision fun i m => st.revision i ≤ m).mpr
    ⟨Nat.le_succ _, fun _ _ => le_rfl⟩ id'

theorem revision_write {stored : Option T} :
    (st.write id stored).revision id = st.revision id + 1 :=
  update_self id _ st.revision

theorem Fresh.write (h : Fresh d id n call st) (id' : ID) (stored : Option T) :
    Fresh d id n call (st.write id' stored) where
  keyed := h.keyed
  counted := fun c i m result hc =>
    (h.counted c i m result hc).trans revision_le_write
  current := h.current.trans revision_le_write
  cached := h.cached
  flown := h.flown
  answered := h.answered

theorem Fresh.writeEvicting (h : Fresh d id n call st) (c : ℕ) (id' : ID)
    (stored : Option T) :
    Fresh d id n call ((st.write id' stored).setCall c
      (.evicting id' (st.revision id' + 1) stored)) := by
  refine (h.write id' stored).setCall c _ ?_ trivial
  rintro i m result ⟨⟩
  exact revision_write.ge

theorem Fresh.step (hformat : Injective d.format) (h : Fresh d id n call st)
    (l : Label T ID) (hstep : step d st l = some st') : Fresh d id n call st' := by
  cases l with
  | getBegins c id' | existsBegins c id' | updateBegins c id' entity | deleteBegins c id' =>
    simp only [CachingRepository.step] at hstep
    split at hstep <;> cases hstep
    exact h.setCall c _ nofun trivial
  | getReads c | existsReads c =>
    simp only [CachingRepository.step] at hstep
    split at hstep
    · split at hstep <;> cases hstep
      · next id' _ result hread => exact h.setCall c _ nofun (h.readCache hread)
      · exact h.setCall c _ nofun trivial
    · cases hstep
  | getJoins c =>
    simp only [CachingRepository.step] at hstep
    split at hstep <;> cases hstep
    exact h.join c _
  | load key =>
    simp only [CachingRepository.step] at hstep
    split at hstep
    · next id' hf =>
      split at hstep <;> cases hstep
      exact h.load hformat key id' _ hf
    · cases hstep
  | loadFails key err =>
    simp only [CachingRepository.step] at hstep
    split at hstep <;> cases hstep
    next id' hf =>
    have hkey : d.cacheKey id' = key := h.keyed key _ hf
    refine h.setFlight key _ ?_ ?_
    · rintro f ⟨⟩
      exact hkey
    · rintro _ f r ⟨⟩ hr
      cases hr
  | fill key =>
    simp only [CachingRepository.step] at hstep
    split at hstep <;> cases hstep
    next id' result hf => exact h.fill key id' result hf
  | lands key =>
    simp only [CachingRepository.step] at hstep
    split at hstep <;> cases hstep
    next id' answer hf => exact h.land key _ answer hf rfl
  | existsAsks c =>
    simp only [CachingRepository.step] at hstep
    split at hstep <;> cases hstep
    next id' _ =>
    refine h.setCall c _ nofun ?_
    cases hinner : st.inner id' with
    | none => trivial
    | some entity => exact fun heq => heq ▸ h.current
  | existsFails c err =>
    simp only [CachingRepository.step] at hstep
    split at hstep <;> cases hstep
    exact h.setCall c _ nofun trivial
  | updates c _ | deletes c =>
    simp only [CachingRepository.step] at hstep
    split at hstep
    · split at hstep <;> cases hstep
      exact h.writeEvicting c _ _
    · cases hstep
  | updateFails c err applied | deleteFails c err applied =>
    simp only [CachingRepository.step] at hstep
    split at hstep
    · split at hstep <;> cases hstep
      · exact (h.write _ _).setCall c _ nofun trivial
      · exact h.setCall c _ nofun trivial
    · cases hstep
  | evict c =>
    simp only [CachingRepository.step] at hstep
    split at hstep <;> cases hstep
    next id' m result _ =>
    refine (h.setCache (d.cacheKey id') none ?_).setCall c (.wrote id' m result) nofun trivial
    exact nofun
  | expire key =>
    cases hstep
    exact h.setCache key none nofun

/-- The steps that end a load that has read. -/
def landing (key : String) (f : Flight T ID) : List (Label T ID) :=
  match f.stage with
  | .loaded _ => [.fill key, .lands key]
  | _ => [.lands key]

/-- A load that has read gives what it has read to whoever waits for it. -/
theorem landing_answer {f : Flight T ID} {r : ℕ} (hcall : st.calls call = .waiting id)
    (hf : st.flights (d.cacheKey id) = some f) (hr : f.read = some r) :
    ∃ st' result, run (step d) st (landing (d.cacheKey id) f) = some st' ∧
      st'.calls call = .got id (.ok result) ∧ result.revision = r := by
  obtain ⟨id', stage⟩ := f
  rcases stage with _ | result | (err | result)
  · cases hr
  · cases hr
    refine ⟨(st.fill d (d.cacheKey id) id' result).land d (d.cacheKey id) (.ok result), result,
      ?_, ?_, rfl⟩
    · simp only [landing, run, step, hf, Option.bind_some, fill_flights]
    · exact land_waiting ((congrFun fill_calls call).trans hcall) rfl
  · cases hr
  · cases hr
    refine ⟨st.land d (d.cacheKey id) (.ok result), result, ?_, ?_, rfl⟩
    · simp only [landing, run, step, hf, Option.bind_some]
    · exact land_waiting hcall rfl

/-- After the eviction a new Get misses the cache and joins the load that is registered. -/
theorem get_joins {w : ℕ} {result : Option T} {f : Flight T ID}
    (hw : st.calls w = .evicting id n result) (hcall : st.calls call = .absent)
    (hf : st.flights (d.cacheKey id) = some f) :
    ∃ st', run (step d) st [.evict w, .getBegins call id, .getReads call, .getJoins call] =
        some st' ∧
      st'.calls call = .waiting id ∧ st'.flights = st.flights := by
  have hne : call ≠ w := by
    rintro rfl
    cases hw.symm.trans hcall
  refine ⟨((((st.setCache (d.cacheKey id) none).setCall w (.wrote id n result)).setCall call
    (.getting id)).setCall call (.missed id)).setCall call (.waiting id), ?_,
    update_self call _ _, rfl⟩
  simp only [run, step, hw, hcall, hf, State.setCall, State.setCache, Decorator.readCache,
    State.join, update_self, update_of_ne hne, Option.bind_some]

/-- A Get or Exists that starts after the eviction of a successful write of its id reports
nothing older than the write, in whatever way the run goes on, exactly when no load of the id
that is registered at the eviction has read the repository before the write. -/
theorem reads_own_write_iff (hformat : Injective d.format)
    (inner : ID → Option T) (cache : String → Option (Revised Bytes))
    (labels : List (Label T ID)) (hrun : run (step d) (initial inner cache) labels = some st)
    (w : ℕ) (result : Option T) (hw : st.calls w = .evicting id n result)
    (hcall : st.calls call = .absent) :
    (∀ later st', run (step d) st (.evict w :: later) = some st' →
      (st'.calls call).FreshFrom id n) ↔
    ∀ f r, st.flights (d.cacheKey id) = some f → f.read = some r → n ≤ r := by
  constructor
  · intro h f r hf hr
    obtain ⟨middle, hjoin, hwaiting, hflights⟩ := get_joins hw hcall hf
    obtain ⟨st', got, hland, hgot, hrevision⟩ :=
      landing_answer hwaiting (hflights ▸ hf) hr
    have hfresh := h _ st' (run_append hjoin hland)
    rw [hgot] at hfresh
    exact hrevision ▸ hfresh rfl
  · intro hold later st' hlater
    have hreached : Fresh d id 0 call st :=
      run_invariant (Fresh d id 0 call) (fun _ l _ hs => hs.step hformat l) initial_fresh hrun
    obtain ⟨evicted, hevict, hrest⟩ := run_cons hlater
    simp only [step, hw, Option.some.injEq] at hevict
    subst hevict
    exact (run_invariant (Fresh d id n call) (fun _ l _ hs => hs.step hformat l)
      (hreached.evict hw hcall hold) hrest).answered

end

/-- A repository of flags by string ids, with the JSON of its envelopes. -/
def flagText (env : Envelope Bool) : Bytes :=
  ("\x7b\"data\":" ++ toString env.Data ++ ",\"version\":" ++ toString env.Version ++
    "\x7d").toUTF8.data.toList

def flags : Decorator Bool String where
  name := "flag"
  version := 1
  format := fun id => id
  marshal := fun env => .ok (flagText env)
  unmarshal := fun data =>
    if data = flagText ⟨true, 1⟩ then .ok ⟨true, 1⟩
    else if data = flagText ⟨false, 1⟩ then .ok ⟨false, 1⟩
    else .error ⟨.unknown, false, "unexpected end of JSON input"⟩

def stored : String → Option Bool := fun id => if id = "a" then some false else none

theorem reads_own_write_idle :
    ∃ st, run (step flags) (initial stored fun _ => none)
        [.updateBegins 0 "a" true, .updates 0 true] = some st ∧
      ∀ later st', run (step flags) st (.evict 0 :: later) = some st' →
        (st'.calls 1).FreshFrom "a" 1 :=
  ⟨_, rfl, (reads_own_write_iff (fun _ _ h => h) stored (fun _ => none)
    [.updateBegins 0 "a" true, .updates 0 true] rfl 0 (some true) rfl rfl).mpr nofun⟩

/-- A load reads the old flag, the write is applied and evicts, the load fills the cache; the
Get that starts then returns the old flag, and the Exists finds the deleted one. -/
theorem slow_load_revives :
    ((run (step flags) (initial stored fun _ => none)
      [.getBegins 0 "a", .getReads 0, .getJoins 0, .load "repo:flag:a",
        .updateBegins 1 "a" true, .updates 1 true, .evict 1, .fill "repo:flag:a",
        .getBegins 2 "a", .getReads 2]).map fun st => (st.calls 1, st.calls 2)) =
      some (.wrote "a" 1 (some true), .got "a" (.ok ⟨false, 0⟩)) ∧
    ((run (step flags) (initial stored fun _ => none)
      [.getBegins 0 "a", .getReads 0, .getJoins 0, .load "repo:flag:a",
        .deleteBegins 1 "a", .deletes 1, .evict 1, .fill "repo:flag:a",
        .existsBegins 2 "a", .existsReads 2]).map fun st => (st.calls 1, st.calls 2)) =
      some (.wrote "a" 1 none, .existed "a" (.ok (some 0))) := by
  constructor <;> rfl

end KnowledgeEngine.CachingReads
