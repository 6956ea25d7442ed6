import KnowledgeEngine.FactKeys
import KnowledgeEngine.FilterParse
import KnowledgeEngine.KeyedTable

/-!
What calls of Write leave in the tables. Maps of a fact are compared as maps, whatever
order their entries are kept in, and a row is what can be read under its keys. The inserts
of a call run in any order. When facts with one org, cube and idempotency key are one
observation, the tables depend only on which observations were written.
-/

namespace KnowledgeEngine.FactWrites

open Analytics AnalyticsStore CoreTypes FactKeys FilterParse Function KeyedWrites List

variable {B : Type}

/-- A fact with its maps as maps. -/
structure Observation where
  TS : ℤ
  Dims : Finmap fun _ : String => String
  Measures : Finmap fun _ : String => BitVec 64
  Cube : String
  OrgID : String
  IdempotencyKey : String
  Schema : ℤ

def observation (f : Fact) : Observation :=
  ⟨f.TS, f.Dims.toFinmap, f.Measures.toFinmap, f.Cube, f.OrgID, f.IdempotencyKey, f.Schema⟩

/-- The table and partition of a row, and its clustering key. -/
abbrev Slot := Address × RowKey

abbrev Content (B : Type) := (Finmap fun _ : String => String) × (Finmap fun _ : String => B)

def content (row : StoredRow B) : Content B := (row.dims.toFinmap, row.partials.toFinmap)

/-- What is stored under the keys. -/
def contents (db : Database B) (slot : Slot) : Option (Content B) :=
  ((db slot.1).rows.find? fun row => row.key = slot.2).map content

def jobSlot (s : Store) (job : Job B) : Slot := (jobPlace s job, (jobRow job).key)

def jobWrite (s : Store) (job : Job B) : Slot × Content B := (jobSlot s job, content (jobRow job))

def insertAll (s : Store) (jobs : List (Job B)) (db : Database B) : Database B :=
  jobs.foldl (fun db job => AnalyticsStore.insert s job db) db

/-- A call of Write: rejected before any insert, or all its inserts in some order. -/
inductive Call (s : Store) (newPartial : BitVec 64 → Except AppError B) (facts : List Fact)
    (db : Database B) : Except AppError Unit → Database B → Prop
  | rejected (e : AppError) (h : write s newPartial facts = .error e) :
      Call s newPartial facts db (.error e) db
  | inserted (jobs order : List (Job B)) (h : write s newPartial facts = .ok jobs)
      (hperm : order.Perm jobs) : Call s newPartial facts db (.ok ()) (insertAll s order db)

/-- Calls that succeed, one after the other. -/
inductive Calls (s : Store) (newPartial : BitVec 64 → Except AppError B) :
    List (List Fact) → Database B → Database B → Prop
  | nil (db : Database B) : Calls s newPartial [] db db
  | cons (facts : List Fact) (calls : List (List Fact)) (db db₁ db₂ : Database B)
      (h : Call s newPartial facts db (.ok ()) db₁) (hrest : Calls s newPartial calls db₁ db₂) :
      Calls s newPartial (facts :: calls) db db₂

/-- Facts with one org, cube and idempotency key are one observation. -/
def Keyed (facts : List Fact) : Prop :=
  ∀ f ∈ facts, ∀ f' ∈ facts, f.OrgID = f'.OrgID → f.Cube = f'.Cube →
    f.IdempotencyKey = f'.IdempotencyKey → observation f = observation f'

theorem contents_insert (s : Store) (job : Job B) (db : Database B) :
    contents (AnalyticsStore.insert s job db) = put (contents db) (jobWrite s job) := by
  funext slot
  obtain ⟨place, key⟩ := slot
  unfold put jobWrite jobSlot
  by_cases hplace : place = jobPlace s job
  · subst hplace
    have hrows : (AnalyticsStore.insert s job db (jobPlace s job)).rows =
        (db (jobPlace s job)).rows.filter (fun r => r.key ≠ (jobRow job).key) ++ [jobRow job] := by
      rw [AnalyticsStore.insert, update_self]
      rfl
    by_cases hkey : key = (jobRow job).key
    · subst hkey
      rw [update_self, contents, hrows, List.find?_append]
      have hnone : ((db (jobPlace s job)).rows.filter fun r => r.key ≠ (jobRow job).key).find?
          (fun row => row.key = (jobRow job).key) = none := by
        rw [List.find?_eq_none]
        intro row hrow
        simpa using (mem_filter.mp hrow).2
      rw [hnone, Option.none_or, List.find?_cons_of_pos (by simp), Option.map_some]
    · rw [update_of_ne (fun h => hkey (Prod.mk.inj h).2), contents, contents, hrows,
        List.find?_append]
      have hlast : [jobRow job].find? (fun row => row.key = key) = none := by
        simp [Ne.symm hkey]
      rw [hlast, Option.or_none, List.find?_filter]
      congr 2
      funext row
      by_cases hrow : row.key = key
      · simp [hrow, hkey]
      · simp [hrow]
  · rw [update_of_ne (fun h => hplace (Prod.mk.inj h).1), contents, contents,
      AnalyticsStore.insert, update_of_ne hplace]

theorem contents_insertAll (s : Store) (jobs : List (Job B)) (db : Database B) :
    contents (insertAll s jobs db) = putAll (contents db) (jobs.map (jobWrite s)) := by
  induction jobs generalizing db with
  | nil => rfl
  | cons job jobs ih =>
    rw [insertAll, foldl_cons, map_cons, putAll, foldl_cons, ← contents_insert]
    exact ih (AnalyticsStore.insert s job db)

section Measures

variable {newPartial : BitVec 64 → Except AppError B}
  {entries : List (Sigma fun _ : String => BitVec 64)}

theorem encodeMeasures_ok_iff :
    (∃ m, encodeMeasures newPartial entries = .ok m) ↔
      ∀ e ∈ entries, ∃ blob, newPartial e.2 = .ok blob := by
  induction entries with
  | nil => simp [encodeMeasures]
  | cons e rest ih =>
    rw [forall_mem_cons, ← ih]
    exact bind₂_ok_iff

theorem encodeMeasures_lookup {m : StringMap B} (h : encodeMeasures newPartial entries = .ok m)
    {name : String} :
    m.lookup name = (entries.dlookup name).bind fun v => (newPartial v).toOption := by
  induction entries generalizing m with
  | nil =>
    cases h
    rfl
  | cons e rest ih =>
    obtain ⟨blob, hblob, h⟩ := bind_ok_iff.mp h
    obtain ⟨others, hothers, h⟩ := bind_ok_iff.mp h
    cases h
    by_cases hname : name = e.1
    · subst hname
      rw [AList.lookup_insert, dlookup_cons_eq, Option.bind_some, hblob]
      rfl
    · rw [AList.lookup_insert_ne hname, dlookup_cons_ne _ _ hname]
      exact ih hothers

/-- The encoded measures depend on the measures as a map. -/
theorem encodeMeasures_congr {measures measures' : StringMap (BitVec 64)}
    (h : measures.toFinmap = measures'.toFinmap) {m : StringMap B}
    (hm : encodeMeasures newPartial measures.entries = .ok m) :
    ∃ m', encodeMeasures newPartial measures'.entries = .ok m' ∧ m'.toFinmap = m.toFinmap := by
  have hperm := AList.toFinmap_eq.mp h
  have hall := encodeMeasures_ok_iff.mp ⟨m, hm⟩
  obtain ⟨m', hm'⟩ := encodeMeasures_ok_iff.mpr fun e he =>
    hall e (hperm.mem_iff.mpr he)
  refine ⟨m', hm', Finmap.ext_lookup fun name => ?_⟩
  rw [Finmap.lookup_toFinmap, Finmap.lookup_toFinmap, encodeMeasures_lookup hm,
    encodeMeasures_lookup hm', perm_dlookup name measures.nodupKeys hperm]

end Measures

section Facts

variable (s : Store) (newPartial : BitVec 64 → Except AppError B)

/-- The rows of a fact, one per grain of its cube; an invalid fact has none. -/
def factWrites (f : Fact) : List (Slot × Content B) :=
  match factJobs s newPartial f with
  | .ok jobs => jobs.map (jobWrite s)
  | .error _ => []

/-- A fact of a declared cube with its keys, a known schema and measures that can be encoded. -/
structure Valid (f : Fact) : Prop where
  cube : f.Cube ∈ s.cfg.Cubes
  keys : f.OrgID ≠ "" ∧ f.IdempotencyKey ≠ ""
  schema : f.Schema = 0 ∨ f.Schema = factSchemaVersion
  measures : ∀ e ∈ f.Measures.entries, ∃ blob, newPartial e.2 = .ok blob

variable {s newPartial}

variable {f : Fact} {facts : List Fact} {calls : List (List Fact)} {db : Database B} {f' : Fact}
  {jobs : List (Job B)} {db' : Database B}

theorem factJobs_ok_iff :
    factJobs s newPartial f = .ok jobs ↔
      ∃ grains partials, s.cfg.Cubes.lookup f.Cube = some grains ∧
        ¬ (f.OrgID = "" ∨ f.IdempotencyKey = "") ∧
        ¬ (f.Schema ≠ 0 ∧ f.Schema ≠ factSchemaVersion) ∧
        encodeMeasures newPartial f.Measures.entries = .ok partials ∧
        jobs = grains.map fun grain => ⟨f, grain, partials⟩ := by
  unfold factJobs
  cases hcube : s.cfg.Cubes.lookup f.Cube with
  | none => simp
  | some grains =>
    by_cases hkeys : f.OrgID = "" ∨ f.IdempotencyKey = ""
    · simp [hkeys]
    · by_cases hschema : f.Schema ≠ 0 ∧ f.Schema ≠ factSchemaVersion
      · simp [hkeys, hschema]
      · cases hmeasures : encodeMeasures newPartial f.Measures.entries with
        | error e => simp [hkeys, hschema]
        | ok partials =>
          dsimp only
          rw [if_neg hkeys, if_neg hschema]
          constructor
          · intro h
            cases h
            exact ⟨grains, partials, rfl, hkeys, hschema, rfl, rfl⟩
          · rintro ⟨_, _, hgrains, -, -, hpartials, rfl⟩
            cases hgrains
            cases hpartials
            rfl

theorem jobWrite_congr (h : observation f = observation f') (grain : Grain)
    {partials partials' : StringMap B} (hpartials : partials'.toFinmap = partials.toFinmap) :
    jobWrite s ⟨f', grain, partials'⟩ = jobWrite s ⟨f, grain, partials⟩ := by
  obtain ⟨hts, hdims, -, hcube, horg, hkey, -⟩ := Observation.mk.inj h
  simp only [jobWrite, jobSlot, jobPlace, jobRow, content, hts, hdims, hcube, horg, hkey,
    hpartials, dimsKey_of_toFinmap hdims]

theorem factJobs_congr (h : observation f = observation f')
    (hjobs : factJobs s newPartial f = .ok jobs) :
    ∃ jobs', factJobs s newPartial f' = .ok jobs' ∧
      jobs'.map (jobWrite s) = jobs.map (jobWrite s) := by
  obtain ⟨hts, hdims, hmeasures, hcube, horg, hkey, hschema⟩ := Observation.mk.inj h
  obtain ⟨grains, partials, hgrains, hkeys, hversion, hencode, rfl⟩ :=
    factJobs_ok_iff.mp hjobs
  obtain ⟨partials', hencode', hpartials⟩ := encodeMeasures_congr hmeasures hencode
  refine ⟨grains.map fun grain => ⟨f', grain, partials'⟩, factJobs_ok_iff.mpr
    ⟨grains, partials', hcube ▸ hgrains, horg ▸ hkey ▸ hkeys, hschema ▸ hversion, hencode',
      rfl⟩, ?_⟩
  simp only [map_map, comp_def, jobWrite_congr h _ hpartials]

theorem valid_iff : Valid s newPartial f ↔ ∃ jobs, factJobs s newPartial f = .ok jobs := by
  simp only [factJobs_ok_iff]
  constructor
  · intro h
    obtain ⟨grains, hgrains⟩ := Option.isSome_iff_exists.mp (AList.lookup_isSome.mpr h.cube)
    obtain ⟨partials, hpartials⟩ := encodeMeasures_ok_iff.mpr h.measures
    exact ⟨_, grains, partials, hgrains, not_or.mpr h.keys,
      fun hschema => h.schema.elim hschema.1 hschema.2, hpartials, rfl⟩
  · rintro ⟨_, grains, partials, hgrains, hkeys, hschema, hpartials, -⟩
    exact ⟨AList.lookup_isSome.mp (by rw [hgrains]; rfl), not_or.mp hkeys,
      by by_contra h; exact hschema (not_or.mp h), encodeMeasures_ok_iff.mp ⟨partials, hpartials⟩⟩

theorem valid_congr (h : observation f = observation f') (hf : Valid s newPartial f) :
    Valid s newPartial f' := by
  obtain ⟨jobs, hjobs⟩ := valid_iff.mp hf
  obtain ⟨jobs', hjobs', -⟩ := factJobs_congr h hjobs
  exact valid_iff.mpr ⟨jobs', hjobs'⟩

/-- The rows depend on the observation. -/
theorem factWrites_congr (h : observation f = observation f') :
    factWrites s newPartial f = factWrites s newPartial f' := by
  unfold factWrites
  cases hjobs : factJobs s newPartial f with
  | ok jobs =>
    obtain ⟨jobs', hjobs', hmap⟩ := factJobs_congr h hjobs
    simp only [hjobs', hmap]
  | error e =>
    cases hjobs' : factJobs s newPartial f' with
    | error e' => rfl
    | ok jobs' =>
      obtain ⟨jobs, hok, -⟩ := factJobs_congr h.symm hjobs'
      rw [hjobs] at hok
      exact nomatch hok

theorem mem_factWrites {w : Slot × Content B} (h : w ∈ factWrites s newPartial f) :
    ∃ grain partials, encodeMeasures newPartial f.Measures.entries = .ok partials ∧
      w = jobWrite s ⟨f, grain, partials⟩ := by
  unfold factWrites at h
  cases hjobs : factJobs s newPartial f with
  | error e =>
    rw [hjobs] at h
    exact absurd h not_mem_nil
  | ok jobs =>
    rw [hjobs] at h
    obtain ⟨grains, partials, -, -, -, hencode, rfl⟩ := factJobs_ok_iff.mp hjobs
    obtain ⟨job, hjob, rfl⟩ := mem_map.mp h
    obtain ⟨grain, -, rfl⟩ := mem_map.mp hjob
    exact ⟨grain, partials, hencode, rfl⟩

/-- Rows under one key come from facts with one org, cube and idempotency key, and then
hold the same. -/
theorem consistent_factWrites (h : Keyed facts) :
    Consistent (facts.flatMap (factWrites s newPartial)) := by
  intro w hw w' hw' hslot
  obtain ⟨f, hf, hw⟩ := mem_flatMap.mp hw
  obtain ⟨f', hf', hw'⟩ := mem_flatMap.mp hw'
  obtain ⟨grain, partials, hencode, rfl⟩ := mem_factWrites hw
  obtain ⟨grain', partials', hencode', rfl⟩ := mem_factWrites hw'
  obtain ⟨hplace, hkey⟩ := Prod.mk.inj hslot
  have hsame := h f hf f' hf' (congrArg Address.org hplace) (congrArg Address.cube hplace)
    (congrArg RowKey.idempotencyKey hkey)
  obtain ⟨-, hdims, hmeasures, -⟩ := Observation.mk.inj hsame
  obtain ⟨partials'', hencode'', hpartials⟩ := encodeMeasures_congr hmeasures hencode
  obtain rfl : partials' = partials'' := Except.ok.inj (hencode'.symm.trans hencode'')
  exact Prod.ext hdims hpartials.symm

theorem writeJobs_ok_iff :
    (∃ jobs, writeJobs s newPartial facts = .ok jobs) ↔ ∀ f ∈ facts, Valid s newPartial f := by
  induction facts with
  | nil => simp [writeJobs]
  | cons f rest ih =>
    rw [forall_mem_cons, ← ih, valid_iff]
    exact bind₂_ok_iff

theorem writeJobs_writes (h : writeJobs s newPartial facts = .ok jobs) :
    jobs.map (jobWrite s) = facts.flatMap (factWrites s newPartial) := by
  induction facts generalizing jobs with
  | nil =>
    cases h
    rfl
  | cons f rest ih =>
    obtain ⟨first, hfirst, h⟩ := bind_ok_iff.mp h
    obtain ⟨others, hothers, h⟩ := bind_ok_iff.mp h
    cases h
    rw [map_append, ih hothers, flatMap_cons]
    simp only [factWrites, hfirst]

theorem write_ok (h : write s newPartial facts = .ok jobs) :
    s.started = true ∧ writeJobs s newPartial facts = .ok jobs := by
  unfold write at h
  split at h
  · exact nomatch h
  · next hstarted => exact ⟨by simpa using hstarted, h⟩

/-- A call succeeds when the store is started and all facts are valid. -/
theorem call_ok_iff (facts : List Fact) (db : Database B) :
    (∃ db', Call s newPartial facts db (.ok ()) db') ↔
      s.started = true ∧ ∀ f ∈ facts, Valid s newPartial f := by
  rw [← writeJobs_ok_iff]
  constructor
  · rintro ⟨db', hcall⟩
    cases hcall with
    | inserted jobs order h hperm => exact ⟨(write_ok h).1, jobs, (write_ok h).2⟩
  · rintro ⟨hstarted, jobs, hjobs⟩
    refine ⟨insertAll s jobs db, .inserted jobs jobs ?_ (List.Perm.refl jobs)⟩
    rw [write, if_neg (by simp [hstarted]), hjobs]

/-- A successful call writes the rows of its facts, in some order. -/
theorem contents_call (h : Call s newPartial facts db (.ok ()) db') :
    ∃ ws, contents db' = putAll (contents db) ws ∧
      ws.Perm (facts.flatMap (factWrites s newPartial)) := by
  cases h with
  | inserted jobs order h hperm =>
    refine ⟨order.map (jobWrite s), contents_insertAll s order db, ?_⟩
    rw [← writeJobs_writes (write_ok h).2]
    exact hperm.map (jobWrite s)

theorem contents_calls (h : Calls s newPartial calls db db') :
    ∃ ws, contents db' = putAll (contents db) ws ∧
      ws.Perm (calls.flatten.flatMap (factWrites s newPartial)) := by
  induction h with
  | nil db => exact ⟨[], rfl, List.Perm.refl _⟩
  | cons facts calls db db₁ db₂ h _ ih =>
    obtain ⟨ws, hws, hperm⟩ := contents_call h
    obtain ⟨ws', hws', hperm'⟩ := ih
    refine ⟨ws ++ ws', ?_, ?_⟩
    · rw [hws', hws, putAll_append]
    · rw [flatten_cons, flatMap_append]
      exact hperm.append hperm'

/-- The same observations, each any number of times and in any order. -/
def Restates (facts' facts : List Fact) : Prop :=
  ∀ o, o ∈ facts'.map observation ↔ o ∈ facts.map observation

theorem mem_writes_of_restates {facts' : List Fact} (h : Restates facts' facts)
    (w : Slot × Content B) :
    w ∈ facts'.flatMap (factWrites s newPartial) ↔ w ∈ facts.flatMap (factWrites s newPartial) := by
  have himage (l l' : List Fact) (hl : ∀ o, o ∈ l.map observation → o ∈ l'.map observation)
      (hw : w ∈ l.flatMap (factWrites s newPartial)) :
      w ∈ l'.flatMap (factWrites s newPartial) := by
    obtain ⟨f, hf, hw⟩ := mem_flatMap.mp hw
    obtain ⟨f', hf', hsame⟩ := mem_map.mp (hl _ (mem_map_of_mem hf))
    exact mem_flatMap.mpr ⟨f', hf', by rwa [factWrites_congr hsame]⟩
  exact ⟨himage facts' facts fun o => (h o).mp, himage facts facts' fun o => (h o).mpr⟩

theorem valid_of_restates {facts' : List Fact} (h : Restates facts' facts)
    (hvalid : ∀ f ∈ facts, Valid s newPartial f) : ∀ f ∈ facts', Valid s newPartial f := by
  intro f' hf'
  obtain ⟨f, hf, hsame⟩ := mem_map.mp ((h _).mp (mem_map_of_mem hf'))
  exact valid_congr hsame (hvalid f hf)

/-- What the tables hold depends on the observations that were written. -/
theorem contents_of_restates {calls' : List (List Fact)} (hkeyed : Keyed calls.flatten)
    (hsame : Restates calls'.flatten calls.flatten) {db₁ db₂ : Database B}
    (h₁ : Calls s newPartial calls db db₁) (h₂ : Calls s newPartial calls' db db₂) :
    contents db₂ = contents db₁ := by
  obtain ⟨ws, hws, hperm⟩ := contents_calls h₁
  obtain ⟨ws', hws', hperm'⟩ := contents_calls h₂
  have hconsistent : Consistent ws := (consistent_factWrites hkeyed).of_subset hperm.subset
  rw [hws, hws']
  refine putAll_congr hconsistent fun w => ?_
  rw [hperm.mem_iff, hperm'.mem_iff, mem_writes_of_restates hsame]

theorem Calls.single (h : Call s newPartial facts db (.ok ()) db') :
    Calls s newPartial [facts] db db' :=
  .cons facts [] db db' db' h (.nil db')

theorem Calls.concat {db₁ db₂ : Database B} (h : Calls s newPartial calls db db₁)
    (hlast : Call s newPartial facts db₁ (.ok ()) db₂) :
    Calls s newPartial (calls ++ [facts]) db db₂ := by
  induction h with
  | nil db => exact .single hlast
  | cons first calls db db₁ db₂ hfirst _ ih => exact .cons first _ db db₁ _ hfirst (ih hlast)

/-- Two rows under one key are of one org, cube, grain, time, dimensions and idempotency key. -/
theorem jobSlot_inj {job job' : Job B} (h : jobSlot s job = jobSlot s job') :
    job.fact.OrgID = job'.fact.OrgID ∧ job.fact.Cube = job'.fact.Cube ∧
      job.grain.text = job'.grain.text ∧
      truncate job.fact.TS job.grain = truncate job'.fact.TS job'.grain ∧
      job.fact.Dims.toFinmap = job'.fact.Dims.toFinmap ∧
      job.fact.IdempotencyKey = job'.fact.IdempotencyKey := by
  obtain ⟨hplace, hkey⟩ := Prod.mk.inj h
  obtain ⟨htable, horg, hcube, -⟩ := Address.mk.inj hplace
  obtain ⟨hts, hdims, hidempotency⟩ := RowKey.mk.inj hkey
  refine ⟨horg, hcube, ?_, hts, toFinmap_of_dimsKey hdims, hidempotency⟩
  rw [tableName, tableName, ← hcube] at htable
  simpa using htable

end Facts

/-- Writing the same observations in any order and any number of times has one outcome,
writing some of them again later changes nothing, every row of a fact is there, rows of
facts that differ are under different keys, and a list with an invalid fact inserts nothing. -/
theorem write_converges (s : Store) (newPartial : BitVec 64 → Except AppError B)
    (db : Database B) (facts : List Fact) (hkeyed : Keyed facts) :
    (∀ facts', Restates facts' facts →
      ((∃ db', Call s newPartial facts' db (.ok ()) db') ↔
        ∃ db', Call s newPartial facts db (.ok ()) db') ∧
      ∀ db₁ db₂, Call s newPartial facts db (.ok ()) db₁ →
        Call s newPartial facts' db (.ok ()) db₂ → contents db₂ = contents db₁) ∧
    (∀ later again db₁ db₂ db₃, Keyed (facts ++ later.flatten) →
      Call s newPartial facts db (.ok ()) db₁ → Calls s newPartial later db₁ db₂ →
      (∀ f ∈ again, observation f ∈ facts.map observation) →
      Call s newPartial again db₂ (.ok ()) db₃ → contents db₃ = contents db₂) ∧
    (∀ db₁, Call s newPartial facts db (.ok ()) db₁ →
      ∀ f ∈ facts, ∀ w ∈ factWrites s newPartial f, contents db₁ w.1 = some w.2) ∧
    (∀ job job' : Job B, jobSlot s job = jobSlot s job' →
      job.fact.OrgID = job'.fact.OrgID ∧ job.fact.Cube = job'.fact.Cube ∧
        job.grain.text = job'.grain.text ∧
        truncate job.fact.TS job.grain = truncate job'.fact.TS job'.grain ∧
        job.fact.Dims.toFinmap = job'.fact.Dims.toFinmap ∧
        job.fact.IdempotencyKey = job'.fact.IdempotencyKey) ∧
    ((∃ f ∈ facts, ¬ Valid s newPartial f) → ∀ result db',
      Call s newPartial facts db result db' → result ≠ .ok () ∧ db' = db) := by
  refine ⟨fun facts' hsame => ⟨?_, fun db₁ db₂ h₁ h₂ => ?_⟩, ?_, ?_, fun _ _ => jobSlot_inj, ?_⟩
  · rw [call_ok_iff, call_ok_iff]
    refine and_congr_right fun _ => ⟨valid_of_restates fun o => (hsame o).symm,
      valid_of_restates hsame⟩
  · apply contents_of_restates _ _ (.single h₁) (.single h₂)
    · simpa using hkeyed
    · simpa using hsame
  · intro later again db₁ db₂ db₃ hkeyed' h₁ hlater hagain h₃
    have hcalls : Calls s newPartial (facts :: later) db db₂ :=
      .cons facts later db db₁ db₂ h₁ hlater
    apply contents_of_restates _ _ hcalls (hcalls.concat h₃)
    · simpa using hkeyed'
    · intro o
      simp only [flatten_append, flatten_cons, flatten_nil, append_nil,
        map_append, mem_append]
      refine ⟨fun h => h.elim id fun hmem => Or.inl ?_, Or.inl⟩
      obtain ⟨f, hf, rfl⟩ := mem_map.mp hmem
      exact hagain f hf
  · intro db₁ h₁ f hf w hw
    obtain ⟨ws, hws, hperm⟩ := contents_call h₁
    have hconsistent : Consistent ws := (consistent_factWrites hkeyed).of_subset hperm.subset
    rw [hws]
    exact putAll_of_mem hconsistent (hperm.mem_iff.mpr (mem_flatMap.mpr ⟨f, hf, hw⟩))
  · rintro ⟨f, hf, hinvalid⟩ result db' hcall
    cases hcall with
    | rejected e h => exact ⟨nofun, rfl⟩
    | inserted jobs order h hperm =>
      have hall := writeJobs_ok_iff.mp ⟨jobs, (write_ok h).2⟩
      exact absurd (hall f hf) hinvalid

def sampleStore : Store :=
  ⟨⟨[⟨"usage", [.hour, .day]⟩].toAList, fun g => some g, fun _ => 0, "ks", 500, 8⟩, true⟩

def sampleFact : Fact :=
  ⟨0, [⟨"a", "x"⟩, ⟨"b", "y"⟩].toAList, [⟨"n", 1⟩].toAList, "usage", "org", "k1", 1⟩

theorem sample_write_twice : ∃ db₁ db₂ : Database (BitVec 64),
    Call sampleStore .ok [sampleFact, sampleFact] emptyDatabase (.ok ()) db₁ ∧
      Call sampleStore .ok [sampleFact] emptyDatabase (.ok ()) db₂ ∧
      contents db₂ = contents db₁ := by
  have hvalid : Valid sampleStore .ok sampleFact := valid_iff.mpr ⟨_, rfl⟩
  have hkeyed : Keyed [sampleFact, sampleFact] := by simp [Keyed]
  obtain ⟨db₁, h₁⟩ := (call_ok_iff [sampleFact, sampleFact] emptyDatabase).mpr
    ⟨rfl, by simpa using hvalid⟩
  obtain ⟨db₂, h₂⟩ := (call_ok_iff [sampleFact] emptyDatabase).mpr ⟨rfl, by simpa using hvalid⟩
  have hsame : Restates [sampleFact] [sampleFact, sampleFact] := fun o => by simp
  exact ⟨db₁, db₂, h₁, h₂,
    ((write_converges sampleStore .ok emptyDatabase _ hkeyed).1 _ hsame).2 db₁ db₂ h₁ h₂⟩

end KnowledgeEngine.FactWrites
