import KnowledgeEngine.AnalyticsStore
import KnowledgeEngine.StreamProgress
import KnowledgeEngine.StreamResume

/-!
An analytics read returns exactly the matching stored rows. Every row lies in the
bucket its own time truncates to, so the buckets of the narrowed range hold every row
the filter accepts; the stream delivers their pages once each.
-/

namespace KnowledgeEngine.AnalyticsRead

open Analytics AnalyticsStore AnalyticsStream CoreTypes Function GrainPeriods List Residual
  StreamProgress
open StreamResume StreamRuns

variable {B : Type}

/-- What New checks of a configuration. -/
structure Accepted (cfg : Config) (s : Store) : Prop where
  cubes : s.cfg.Cubes = cfg.Cubes
  widths : s.cfg.BucketWidth = cfg.BucketWidth
  window : 1 ≤ s.cfg.MaxConcurrentBuckets.toNat
  valid : ∀ cube grains, s.cfg.Cubes.lookup cube = some grains → ∀ g ∈ grains,
    validGrain g = true ∧ validGrain (s.cfg.width g) = true

variable {cfg : Config} {grains : List Grain}

theorem checkGrains_ok (h : checkGrains cfg grains = .ok ()) :
    ∀ g ∈ grains, validGrain g = true ∧ validGrain (cfg.width g) = true := by
  induction grains with
  | nil => simp
  | cons g rest ih =>
    rw [checkGrains] at h
    cases hwidth : cfg.BucketWidth g with
    | none => simp [hwidth] at h
    | some width =>
      by_cases hbad : (!validGrain g || !validGrain width) = true
      · simp [hwidth, hbad] at h
      · simp only [hwidth, hbad] at h
        have hgood : validGrain g = true ∧ validGrain width = true := by simpa using hbad
        intro g' hg'
        rcases mem_cons.mp hg' with rfl | hg'
        · rw [Config.width, hwidth]
          exact hgood
        · exact ih h g' hg'

theorem checkCubes_ok {entries : List (Sigma fun _ : String => List Grain)}
    (h : checkCubes cfg entries = .ok ()) :
    ∀ e ∈ entries, ∀ g ∈ e.2, validGrain g = true ∧ validGrain (cfg.width g) = true := by
  induction entries with
  | nil => simp
  | cons e rest ih =>
    obtain ⟨cube, grains⟩ := e
    rw [checkCubes] at h
    split at h
    · cases h
    · cases hgrains : checkGrains cfg grains with
      | error err =>
        rw [hgrains] at h
        cases h
      | ok u =>
        rw [hgrains] at h
        intro e he
        rcases mem_cons.mp he with rfl | he
        · exact checkGrains_ok hgrains
        · exact ih h e he

variable {s : Store}

theorem new_accepted (h : new cfg = .ok s) : Accepted cfg s := by
  rw [new, newStore] at h
  set cfg' : Config := { cfg with
    PageSize := if cfg.PageSize ≤ 0 then 500 else cfg.PageSize
    MaxConcurrentBuckets := if cfg.MaxConcurrentBuckets ≤ 0 then 8 else cfg.MaxConcurrentBuckets }
    with hcfg
  cases hcheck : checkCubes cfg' cfg'.Cubes.entries with
  | error e =>
    rw [hcheck] at h
    cases h
  | ok u =>
    rw [hcheck] at h
    obtain rfl := Except.ok.inj h
    refine ⟨rfl, rfl, ?_, ?_⟩
    · show 1 ≤ (if cfg.MaxConcurrentBuckets ≤ 0 then 8 else cfg.MaxConcurrentBuckets).toNat
      split <;> omega
    · intro cube grains hlookup
      exact checkCubes_ok hcheck ⟨cube, grains⟩ (AList.mem_lookup_iff.mp hlookup)

/-- Every stored row was put by a fact: it lies in the bucket its time truncates to. -/
def Placed (s : Store) (db : Database B) : Prop :=
  ∀ place, ∀ row ∈ (db place).rows, ∃ t grain grains,
    s.cfg.Cubes.lookup place.cube = some grains ∧ grain ∈ grains ∧
      place.table = tableName place.cube grain ∧ place.bucket = truncate t (s.cfg.width grain) ∧
      row.key.ts = truncate t grain

theorem factJobs_mem (s : Store) (newPartial : BitVec 64 → Except AppError B) (fact : Fact)
    (jobs : List (Job B)) (h : factJobs s newPartial fact = .ok jobs) :
    ∀ job ∈ jobs, ∃ grains, s.cfg.Cubes.lookup job.fact.Cube = some grains ∧
      job.grain ∈ grains := by
  rw [factJobs] at h
  split at h
  · cases h
  · next grains hgrains =>
    split at h
    · cases h
    · split at h
      · cases h
      · split at h
        · cases h
        · next partials hpartials =>
          obtain rfl := Except.ok.inj h
          intro job hjob
          obtain ⟨grain, hgrain, rfl⟩ := mem_map.mp hjob
          exact ⟨grains, hgrains, hgrain⟩

theorem writeJobs_mem (s : Store) (newPartial : BitVec 64 → Except AppError B)
    (facts : List Fact) (jobs : List (Job B)) (h : writeJobs s newPartial facts = .ok jobs) :
    ∀ job ∈ jobs, ∃ grains, s.cfg.Cubes.lookup job.fact.Cube = some grains ∧
      job.grain ∈ grains := by
  induction facts generalizing jobs with
  | nil =>
    obtain rfl := Except.ok.inj h
    simp
  | cons fact rest ih =>
    rw [writeJobs] at h
    cases hfirst : factJobs s newPartial fact with
    | error e =>
      rw [hfirst] at h
      cases h
    | ok first =>
      cases hothers : writeJobs s newPartial rest with
      | error e =>
        rw [hfirst, hothers] at h
        cases h
      | ok others =>
        rw [hfirst, hothers] at h
        obtain rfl := Except.ok.inj h
        intro job hjob
        rcases mem_append.mp hjob with hjob | hjob
        · exact factJobs_mem s newPartial fact first hfirst job hjob
        · exact ih others hothers job hjob

variable {db : Database B}

theorem placed_insert {job : Job B} (hgrains : s.cfg.Cubes.lookup job.fact.Cube = some grains)
    (hgrain : job.grain ∈ grains) (h : Placed s db) :
    Placed s (AnalyticsStore.insert s job db) := by
  intro place row hrow
  by_cases hplace : place = jobPlace s job
  · rw [AnalyticsStore.insert, hplace, update_self] at hrow
    rcases mem_append.mp hrow with hrow | hrow
    · rw [hplace]
      exact h _ row (mem_filter.mp hrow).1
    · rw [hplace, mem_singleton.mp hrow]
      exact ⟨job.fact.TS, job.grain, grains, hgrains, hgrain, rfl, rfl, rfl⟩
  · rw [AnalyticsStore.insert, update_of_ne hplace] at hrow
    exact h place row hrow

theorem written_placed {newPartial : BitVec 64 → Except AppError B} (h : Written s newPartial db) :
    Placed s db := by
  induction h with
  | empty => exact fun place row hrow => by cases hrow
  | insert db facts jobs job _ hwrite hjob ih =>
    rw [write] at hwrite
    split at hwrite
    · cases hwrite
    · obtain ⟨grains, hgrains, hgrain⟩ := writeJobs_mem s newPartial facts jobs hwrite job hjob
      exact placed_insert hgrains hgrain ih
  | expire db place key _ ih =>
    intro place' row hrow
    by_cases hplace : place' = place
    · rw [hplace, update_self] at hrow
      rw [hplace]
      exact ih place row (mem_filter.mp hrow).1
    · rw [update_of_ne hplace] at hrow
      exact ih place' row hrow

theorem text_inj {g g' : Grain} (hg : validGrain g = true) (hg' : validGrain g' = true)
    (h : g.text = g'.text) : g = g' := by
  cases g with
  | other name => cases hg
  | minute => cases g' <;> first | rfl | exact absurd h (by decide) | cases hg'
  | hour => cases g' <;> first | rfl | exact absurd h (by decide) | cases hg'
  | day => cases g' <;> first | rfl | exact absurd h (by decide) | cases hg'
  | month => cases g' <;> first | rfl | exact absurd h (by decide) | cases hg'

/-- The bucket of a stored row is the bucket of its own time. -/
theorem placed_bucket (cfg : Config) (s : Store) (haccepted : Accepted cfg s)
    (hcoarse : ∀ cube grains, s.cfg.Cubes.lookup cube = some grains → ∀ g ∈ grains,
      rank g ≤ rank (s.cfg.width g))
    (db : Database B) (hplaced : Placed s db) (org cube : String) (grain : Grain)
    (grains : List Grain) (hcube : s.cfg.Cubes.lookup cube = some grains)
    (hgrain : grain ∈ grains) (bucket : ℤ) (row : StoredRow B)
    (hrow : row ∈ (db ⟨tableName cube grain, org, cube, bucket⟩).rows) :
    bucket = truncate row.key.ts (s.cfg.width grain) ∧ nanosPerMilli ∣ row.key.ts := by
  obtain ⟨t, grain', grains', hcube', hgrain', htable, hbucket, hts⟩ := hplaced _ row hrow
  obtain rfl : grains = grains' := Option.some.inj (hcube.symm.trans hcube')
  obtain ⟨hvalid, hwidth⟩ := haccepted.valid cube grains hcube grain hgrain
  obtain ⟨hvalid', _⟩ := haccepted.valid cube grains hcube grain' hgrain'
  have hsame : grain = grain' := by
    apply text_inj hvalid hvalid'
    simpa [tableName] using htable
  subst hsame
  constructor
  · rw [hts, truncate_truncate hvalid hwidth (hcoarse cube grains hcube grain hgrain)]
    exact hbucket
  · rw [hts]
    exact truncate_milli hvalid

variable {q : AggregateQuery} {plan : ReadPlan}

theorem aggregate_ok {lower : Char → Char}
    {queryFingerprint : AggregateQuery → Except AppError String} {stream : Stream (Row B)}
    (h : aggregate lower queryFingerprint s q = .ok (plan, stream)) (htoken : q.ResumeToken = []) :
    ∃ grains fingerprint, s.cfg.Cubes.lookup q.Cube = some grains ∧ readGrain grains q ∈ grains ∧
      plan = ⟨compileResidual lower q.Filter, (pushdown q.Filter q.From q.To).1,
        (pushdown q.Filter q.From q.To).2, tableName q.Cube (readGrain grains q), q.OrgID, q.Cube,
        fingerprint, q.GroupBy, measureNames q.Measures, s.cfg.PageSize⟩ ∧
      stream = newStream (buckets (s.cfg.width (readGrain grains q))
        (pushdown q.Filter q.From q.To).1 (pushdown q.Filter q.From q.To).2) none
        s.cfg.MaxConcurrentBuckets.toNat := by
  rw [aggregate] at h
  split at h
  · cases h
  · next grains hgrains =>
    simp only at h
    split at h
    · cases h
    · next hgrain =>
      split at h
      · cases h
      · split at h
        · cases h
        · next fingerprint _ =>
          rw [openRead, htoken, show decodeToken [] fingerprint = .ok none from rfl] at h
          simp only at h
          split at h
          · cases h
          · obtain ⟨rfl, rfl⟩ := Prod.mk.inj (Except.ok.inj h)
            exact ⟨grains, fingerprint, hgrains, not_not.mp hgrain, rfl, rfl⟩

theorem flatten_map_readPage {pages : List (List (StoredRow B))} :
    (pages.map (readPage plan)).flatten = readPage plan pages.flatten := by
  induction pages with
  | nil => rfl
  | cons page rest ih =>
    rw [map_cons, flatten_cons, flatten_cons, ih, readPage, readPage, readPage,
      filter_append, map_append]

/-- The rows a stream over the given buckets delivers, before projection. -/
def deliveredRows (plan : ReadPlan) (db : Database B) (buckets : List ℤ) : List (StoredRow B) :=
  buckets.flatMap fun b => (selected plan db b).filter (keeps plan)

theorem wholePages_flatten {session : Source (StoredRow B)} (hsession : Executes session plan db)
    (buckets : List ℤ) :
    (wholePages (readSource plan session) buckets).flatten =
      (deliveredRows plan db buckets).map (project plan) := by
  induction buckets with
  | nil => rfl
  | cons b rest ih =>
    have hpages : ((readSource plan session).pages b []).flatten =
        ((selected plan db b).filter (keeps plan)).map (project plan) := by
      rw [← hsession.selects]
      exact flatten_map_readPage
    rw [wholePages, flatMap_cons, flatten_append, ← wholePages, ih, hpages,
      deliveredRows, deliveredRows, flatMap_cons, map_append]

/-- Whole milliseconds compare as CQL timestamps do. -/
theorem unixMilli_le {a b : ℤ} (ha : nanosPerMilli ∣ a) (hb : nanosPerMilli ∣ b) :
    unixMilli a ≤ unixMilli b ↔ a ≤ b := by
  unfold unixMilli
  unfold nanosPerMilli at ha hb
  omega

/-- A resume token can name every bucket a read enumerates. -/
theorem buckets_resumable {w : Grain} (hw : validGrain w = true) {lo hi : ℤ}
    (hfits : ∀ b ∈ buckets w lo hi, MachineNumbers.Fits64 (unixMilli b)) :
    Resumable (buckets w lo hi) := by
  refine ⟨?_, hfits⟩
  apply (buckets_sorted hw).imp_of_mem
  intro a b ha hb hlt
  have hle := unixMilli_le (buckets_milli hw b hb) (buckets_milli hw a ha)
  exact not_le.mp fun h => hlt.not_ge (hle.mp h)

theorem hours_resumable :
    (buckets .hour 0 7200000000001).length = 3 ∧ Resumable (buckets .hour 0 7200000000001) :=
  ⟨by decide +kernel, buckets_resumable rfl (by decide +kernel)⟩

theorem mem_selected {bucket : ℤ} {row : StoredRow B} (hlo : nanosPerMilli ∣ plan.lo)
    (hhi : nanosPerMilli ∣ plan.hi) (hts : nanosPerMilli ∣ row.key.ts) :
    row ∈ selected plan db bucket ↔
      row ∈ (db (plan.place bucket)).rows ∧ InRange (plan.lo, plan.hi) row.key.ts := by
  rw [selected, mem_filter, Partition.scan_perm.mem_iff, decide_eq_true_eq,
    unixMilli_le hlo hts, ← not_le, unixMilli_le hhi hts, not_le]
  rfl

theorem stored_of_selected {bucket : ℤ} {row : StoredRow B} (h : row ∈ selected plan db bucket) :
    row ∈ (db (plan.place bucket)).rows :=
  Partition.scan_perm.mem_iff.mp (mem_filter.mp h).1

theorem deliveredRows_nodup (plan : ReadPlan) (db : Database B) (buckets : List ℤ)
    (bucketOf : ℤ → ℤ)
    (hplaced : ∀ bucket, ∀ row ∈ (db (plan.place bucket)).rows, bucket = bucketOf row.key.ts)
    (hbuckets : buckets.Nodup) : ((deliveredRows plan db buckets).map StoredRow.key).Nodup := by
  rw [deliveredRows, map_flatMap, nodup_flatMap]
  constructor
  · intro bucket _
    have hscan :=
      (Partition.scan_perm.map StoredRow.key).nodup_iff.mpr (db (plan.place bucket)).nodup
    exact hscan.sublist ((filter_sublist.trans filter_sublist).map _)
  · apply hbuckets.imp
    intro a b hab key ha hb
    obtain ⟨row, hrow, rfl⟩ := mem_map.mp ha
    obtain ⟨row', hrow', hkey⟩ := mem_map.mp hb
    apply hab
    rw [hplaced a row (stored_of_selected (mem_filter.mp hrow).1),
      hplaced b row' (stored_of_selected (mem_filter.mp hrow').1), hkey]

/-- The buckets of the range hold every row of the range. -/
theorem mem_deliveredRows (plan : ReadPlan) (db : Database B) (w : Grain)
    (hw : validGrain w = true) (hlo : nanosPerMilli ∣ plan.lo) (hhi : nanosPerMilli ∣ plan.hi)
    (hplaced : ∀ bucket, ∀ row ∈ (db (plan.place bucket)).rows,
      bucket = truncate row.key.ts w ∧ nanosPerMilli ∣ row.key.ts) (row : StoredRow B) :
    row ∈ deliveredRows plan db (buckets w plan.lo plan.hi) ↔
      (∃ bucket, row ∈ (db (plan.place bucket)).rows) ∧
        InRange (plan.lo, plan.hi) row.key.ts ∧ keeps plan row = true := by
  rw [deliveredRows, mem_flatMap]
  constructor
  · rintro ⟨bucket, _, hrow⟩
    obtain ⟨hselected, hkeep⟩ := mem_filter.mp hrow
    have hstored := stored_of_selected hselected
    have hmilli := (hplaced bucket row hstored).2
    exact ⟨⟨bucket, hstored⟩, ((mem_selected hlo hhi hmilli).mp hselected).2, hkeep⟩
  · rintro ⟨⟨bucket, hstored⟩, hrange, hkeep⟩
    obtain ⟨hbucket, hmilli⟩ := hplaced bucket row hstored
    refine ⟨bucket, ?_, mem_filter.mpr ⟨?_, hkeep⟩⟩
    · rw [hbucket]
      exact truncate_mem_buckets w hw plan.lo plan.hi row.key.ts hrange.1 hrange.2
    · exact (mem_selected hlo hhi hmilli).mpr ⟨hstored, hrange⟩

/-- Narrowing the range by the filter's time clauses does not change what matches. -/
theorem inRange_pushdown_iff (lower : Char → Char) (f : Filter) (lo hi : ℤ) (r : Stored) :
    InRange (pushdown f lo hi) r.ts ∧ compileResidual lower f r = true ↔
      lo ≤ r.ts ∧ r.ts < hi ∧ compileResidual lower f r = true := by
  have hnarrows := pushdown_narrows f lo hi
  constructor
  · rintro ⟨hrange, hkeep⟩
    exact ⟨hnarrows.low.trans hrange.1, hrange.2.trans_le hnarrows.high, hkeep⟩
  · rintro ⟨hlo, hhi, hkeep⟩
    exact ⟨pushdown_keeps hkeep ⟨hlo, hhi⟩, hkeep⟩

/-- A delivered row is a stored one with the dimensions and measures the query asks for. -/
structure Projects (q : AggregateQuery) (stored : StoredRow B) (row : Row B) : Prop where
  ts : row.TS = stored.key.ts
  group : ∀ name, row.Group.lookup name =
    if name ∈ q.GroupBy then some ((stored.dims.lookup name).getD "") else none
  partials : ∀ name, row.Partials.lookup name =
    if name ∈ q.Measures then stored.partials.lookup name else none

theorem lookup_foldl {V : Type} (f : String → Option V) (names : List String) (m : StringMap V)
    (key : String) :
    (names.foldl (fun m name => (f name).elim m (m.insert name)) m).lookup key =
      if key ∈ names then (f key).or (m.lookup key) else m.lookup key := by
  induction names generalizing m with
  | nil => rfl
  | cons name rest ih =>
    rw [foldl_cons, ih]
    by_cases hkey : key = name
    · subst hkey
      cases f key <;> simp
    · have hsame : ((f name).elim m (m.insert name)).lookup key = m.lookup key := by
        cases f name with
        | none => rfl
        | some v => exact AList.lookup_insert_ne hkey
      simp [hsame, hkey]

theorem mem_measureNames {name : String} {measures : List String} :
    name ∈ measureNames measures ↔ name ∈ measures := by
  suffices h : ∀ out : List String,
      name ∈ measures.foldl (fun out name => if name ∈ out then out else out ++ [name]) out ↔
        name ∈ out ∨ name ∈ measures by
    exact (h []).trans (by simp)
  induction measures with
  | nil => simp
  | cons m rest ih =>
    intro out
    rw [foldl_cons, ih]
    split <;> grind

theorem project_projects (hgroup : plan.groupBy = q.GroupBy)
    (hmeasures : plan.measures = measureNames q.Measures) (stored : StoredRow B) :
    Projects q stored (project plan stored) where
  ts := rfl
  group name := hgroup ▸
    lookup_foldl (fun name => some ((stored.dims.lookup name).getD "")) plan.groupBy ∅ name
  partials name := by
    have hlookup := lookup_foldl stored.partials.lookup plan.measures ∅ name
    simp only [hmeasures, mem_measureNames, AList.lookup_empty, Option.or_none] at hlookup
    rw [← hlookup, ← hmeasures]
    refine congrArg (AList.lookup name) (foldl_ext _ _ _ fun m measure _ => ?_)
    cases stored.partials.lookup measure <;> rfl

/-- The grain a query reads: its own, or the coarsest of its cube when it has none. -/
structure ReadAt (cfg : Config) (q : AggregateQuery) (grain : Grain) : Prop where
  own : q.Grain ≠ .other "" → grain = q.Grain
  declared : ∃ grains, cfg.Cubes.lookup q.Cube = some grains ∧ grain ∈ grains ∧
    (q.Grain = .other "" → ∀ g ∈ grains, rank g ≤ rank grain)

theorem coarsest_le (hvalid : ∀ g ∈ grains, validGrain g = true) :
    ∀ g ∈ grains, rank g ≤ rank (coarsest grains) := by
  intro g hg
  have hg' := hvalid g hg
  by_cases hmonth : .month ∈ grains <;> by_cases hday : .day ∈ grains <;>
    by_cases hhour : .hour ∈ grains <;> cases g <;>
    simp_all [coarsest, rank, validGrain]

theorem readAt (hcube : cfg.Cubes.lookup q.Cube = some grains)
    (hgrain : readGrain grains q ∈ grains) (hvalid : ∀ g ∈ grains, validGrain g = true) :
    ReadAt cfg q (readGrain grains q) where
  own hown := if_neg fun h => hown h.1
  declared := by
    refine ⟨grains, hcube, hgrain, fun hunset => ?_⟩
    rw [readGrain, if_pos ⟨hunset, ne_nil_of_mem hgrain⟩]
    exact coarsest_le hvalid

/-- Reading a query to its end delivers, each once, exactly the stored rows of its
org, cube and grain that lie in its time range and satisfy its filter; and every read
comes to its end. -/
theorem aggregate_delivers_matching (lower : Char → Char)
    (queryFingerprint : AggregateQuery → Except AppError String)
    (newPartial : BitVec 64 → Except AppError B) (cfg : Config) (s : Store)
    (hnew : new cfg = .ok s)
    (hcoarse : ∀ cube grains, cfg.Cubes.lookup cube = some grains → ∀ g ∈ grains,
      rank g ≤ rank (cfg.width g))
    (db : Database B) (hwritten : Written s newPartial db) (q : AggregateQuery)
    (plan : ReadPlan) (stream : Stream (Row B))
    (hopen : aggregate lower queryFingerprint s q = .ok (plan, stream))
    (htoken : q.ResumeToken = []) (hfrom : nanosPerMilli ∣ q.From) (hto : nanosPerMilli ∣ q.To)
    (session : Source (StoredRow B)) (hsession : Executes session plan db)
    (out : List (List (Row B) × Bool)) (state : Stream (Row B))
    (hrun : Run (readSource plan session) plan.fingerprint stream out state) :
    (Ended out state → ∃ (grain : Grain) (rows : List (StoredRow B)), ReadAt cfg q grain ∧
      (rows.map StoredRow.key).Nodup ∧
      (∀ row, row ∈ rows ↔
        (∃ bucket, row ∈ (db ⟨tableName q.Cube grain, q.OrgID, q.Cube, bucket⟩).rows) ∧
        q.From ≤ row.key.ts ∧ row.key.ts < q.To ∧
        compileResidual lower q.Filter ⟨row.key.ts, row.dims⟩ = true) ∧
      List.Forall₂ (Projects q) rows (out.map Prod.fst).flatten) ∧
    (∃ out' state', Run (readSource plan session) plan.fingerprint stream (out ++ out') state' ∧
      Ended (out ++ out') state') ∧
    ∀ states : ℕ → Stream (Row B), ¬ ∀ n, ∃ delivered,
      Step (readSource plan session) plan.fingerprint (states n) delivered (states (n + 1)) := by
  have haccepted := new_accepted hnew
  have hplaced := written_placed hwritten
  obtain ⟨grains, fingerprint, hcube, hgrain, hplan, hstream⟩ :=
    aggregate_ok hopen htoken
  have hsucceeds : ∀ bucket state e, ¬ (readSource plan session).fails bucket state e :=
    hsession.succeeds
  rw [hstream] at hrun ⊢
  refine ⟨?_, ?_, no_infinite_run hsucceeds plan.fingerprint⟩
  · intro hended
    set grain := readGrain grains q with hread
    set lo := (pushdown q.Filter q.From q.To).1 with hlo
    set hi := (pushdown q.Filter q.From q.To).2 with hhi
    have hwidths : s.cfg.width = cfg.width := by
      funext g
      rw [Config.width, Config.width, haccepted.widths]
    have hcoarse' : ∀ cube grains, s.cfg.Cubes.lookup cube = some grains → ∀ g ∈ grains,
        rank g ≤ rank (s.cfg.width g) := by
      rw [haccepted.cubes, hwidths]
      exact hcoarse
    obtain ⟨_, hwidth⟩ := haccepted.valid q.Cube grains hcube grain hgrain
    have hbucket := placed_bucket cfg s haccepted hcoarse' db hplaced q.OrgID q.Cube grain grains
      hcube hgrain
    have hnarrows := pushdown_narrows q.Filter q.From q.To
    have hloMilli : nanosPerMilli ∣ lo := hnarrows.lowMilli hfrom
    have hhiMilli : nanosPerMilli ∣ hi := hnarrows.highMilli hto
    have hdelivered : out.map Prod.fst =
        wholePages (readSource plan session) (buckets (s.cfg.width grain) lo hi) := by
      have hserving := serving_run haccepted.window hrun
      rw [queuePages_start] at hserving
      exact (serving_delivers hserving).2 hended
    refine ⟨grain, deliveredRows plan db (buckets (s.cfg.width grain) lo hi),
      readAt (haccepted.cubes ▸ hcube) hgrain fun g hg =>
        (haccepted.valid q.Cube grains hcube g hg).1,
      ?_, ?_, ?_⟩
    · apply deliveredRows_nodup plan db _ (fun ts => truncate ts (s.cfg.width grain))
      · intro bucket row hrow
        rw [hplan] at hrow
        exact (hbucket bucket row hrow).1
      · exact (buckets_sorted hwidth).imp ne_of_lt
    · intro row
      have hmem := mem_deliveredRows plan db _ hwidth (by rw [hplan]; exact hloMilli)
        (by rw [hplan]; exact hhiMilli) (by rw [hplan]; exact hbucket) row
      rw [hplan] at hmem
      rw [← inRange_pushdown_iff lower q.Filter q.From q.To ⟨row.key.ts, row.dims⟩, hplan]
      exact hmem
    · rw [hdelivered, wholePages_flatten hsession, List.forall₂_map_right_iff]
      exact List.forall₂_same.mpr fun row _ => project_projects (by rw [hplan]) (by rw [hplan]) row
  · exact run_ends hsucceeds hrun (clean_run hsucceeds hrun clean_newStream)

/-- A session that returns each SELECT in one page. -/
def onePage (plan : ReadPlan) (db : Database B) : Source (StoredRow B) where
  fetch bucket _ := (selected plan db bucket, [])
  fails _ _ _ := False
  pages bucket _ := [selected plan db bucket]
  pages_eq _ _ := rfl

theorem onePage_executes : Executes (onePage plan db) plan db :=
  ⟨fun _ => append_nil _, fun _ _ _ h => h⟩

def countPartial (bits : BitVec 64) : Except AppError (BitVec 64) := .ok bits

/-- An order of three at half past midnight on January 1, 1970. -/
def orderFact : Fact :=
  ⟨1800000000000, .singleton "shop" "north", .singleton "items" 3, "sales", "acme", "order-1", 1⟩

def orderJob : Job (BitVec 64) := ⟨orderFact, .hour, .singleton "items" 3⟩

def firstHours : AggregateQuery :=
  ⟨0, 7200000000000, .nil, "sales", "acme", .hour, ["shop"], ["items"], []⟩

def firstHoursPlan : ReadPlan :=
  ⟨compileResidual id .nil, 0, 7200000000000, "sales_hour", "acme", "sales", "f", ["shop"],
    ["items"], 500⟩

def orderDatabase : Database (BitVec 64) :=
  AnalyticsStore.insert salesStore orderJob emptyDatabase

theorem orderDatabase_written : Written salesStore countPartial orderDatabase :=
  .insert emptyDatabase [orderFact] [orderJob] orderJob .empty rfl mem_cons_self

theorem salesConfig_coarse : ∀ cube grains, salesConfig.Cubes.lookup cube = some grains →
    ∀ g ∈ grains, rank g ≤ rank (salesConfig.width g) := by
  intro cube grains hcube g hg
  have hentry : (⟨cube, grains⟩ : Sigma fun _ : String => List Grain) = ⟨"sales", [.hour]⟩ :=
    mem_singleton.mp (AList.mem_lookup_iff.mp hcube)
  cases hentry
  rw [mem_singleton.mp hg]
  decide

theorem mem_orderDatabase {bucket : ℤ} {row : StoredRow (BitVec 64)} :
    row ∈ (orderDatabase ⟨"sales_hour", "acme", "sales", bucket⟩).rows ↔
      bucket = 0 ∧ row = jobRow orderJob := by
  have hplace : jobPlace salesStore orderJob = ⟨"sales_hour", "acme", "sales", 0⟩ := rfl
  by_cases hbucket : bucket = 0
  · rw [orderDatabase, AnalyticsStore.insert, hplace, hbucket, update_self]
    simp [Partition.upsert, emptyDatabase]
  · have hother : (⟨"sales_hour", "acme", "sales", bucket⟩ : Address) ≠
        jobPlace salesStore orderJob := by
      rw [hplace]
      simpa using hbucket
    rw [orderDatabase, AnalyticsStore.insert, update_of_ne hother]
    simp [emptyDatabase, hbucket]

/-- Some reading of the first two hours ends and delivers the order's row. -/
theorem firstHours_delivered : ∃ out state row,
    Run (readSource firstHoursPlan (onePage firstHoursPlan orderDatabase)) "f"
        (newStream [0] none 8) out state ∧
      Ended out state ∧ (out.map Prod.fst).flatten = [row] ∧ row.TS = 0 ∧
      row.Group.lookup "shop" = some "north" ∧ row.Partials.lookup "items" = some 3 := by
  have hread := fun out state => aggregate_delivers_matching id (fun _ => .ok "f") countPartial
    salesConfig salesStore rfl salesConfig_coarse orderDatabase orderDatabase_written firstHours
    firstHoursPlan (newStream [0] none 8) rfl rfl (by decide) (by decide) _
    onePage_executes out state
  obtain ⟨out, state, hrun, hended⟩ := (hread [] _ (.refl _)).2.1
  obtain ⟨grain, rows, hgrain, hnodup, hmem, hout⟩ := (hread _ _ hrun).1 hended
  obtain rfl : grain = .hour := hgrain.own (by decide)
  have hrows : rows = [jobRow orderJob] := by
    rw [← perm_singleton]
    apply (perm_ext_iff_of_nodup (List.Nodup.of_map _ hnodup) (nodup_singleton _)).mpr
    intro row
    rw [hmem, mem_singleton]
    constructor
    · rintro ⟨⟨bucket, hstored⟩, _⟩
      exact (mem_orderDatabase.mp hstored).2
    · rintro rfl
      refine ⟨⟨0, mem_orderDatabase.mpr ⟨rfl, rfl⟩⟩, by decide, by decide, rfl⟩
  rw [hrows] at hout
  obtain ⟨row, rest, hrow, hrest, hpage⟩ := List.forall₂_cons_left_iff.mp hout
  rw [List.forall₂_nil_left_iff.mp hrest] at hpage
  exact ⟨_, state, row, hrun, hended, hpage, hrow.ts, hrow.group "shop", hrow.partials "items"⟩

end KnowledgeEngine.AnalyticsRead
