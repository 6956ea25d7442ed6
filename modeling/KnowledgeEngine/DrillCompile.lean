import KnowledgeEngine.DrillCopies

/-!
Drilling commutes with compiling. The query and the panes of a drilled spec are those of the
spec with the field renamed to its child: a field that is grouped by twice once it is renamed
is grouped by once, at its first place, and what is measured, filtered and ranged over stays.
-/

namespace KnowledgeEngine.DrillCompile

open CoreTypes Vizql VizqlShelves DrillValidation

open FilterParse (bind_ok_iff)

section Grouping

variable {field child : String}

/-- What was gathered for the drilled spec against what was gathered for the spec. -/
structure Renamed (field child : String) (g g' : Gathered) : Prop where
  groupBy : g'.GroupBy = (g.GroupBy.map (rename field child)).eraseDups
  measures : g'.Measures = g.Measures
  seen : g'.seenMeasure = g.seenMeasure

theorem eraseDups_concat {α : Type} [DecidableEq α] (xs : List α) (x : α) :
    (xs ++ [x]).eraseDups = if x ∈ xs then xs.eraseDups else xs.eraseDups ++ [x] := by
  rw [List.eraseDups_append]
  by_cases hx : x ∈ xs <;> simp [List.removeAll, hx, List.eraseDups_cons]

variable {ref : FieldRef}

theorem swap_dimension (h : ref.Agg = .none) :
    (swap field child ref).Name = rename field child ref.Name := by
  rw [swap, rename]
  split <;> simp_all

theorem swap_measure (h : ref.Agg ≠ .none) : swap field child ref = ref :=
  if_neg fun hswap => h hswap.2

variable {g g' out : Gathered}

theorem add_renamed (hrel : Renamed field child g g') (h : g.add ref = .ok out) :
    ∃ out', g'.add (swap field child ref) = .ok out' ∧ Renamed field child out out' := by
  by_cases hagg : ref.Agg = .none
  · rw [Gathered.add, if_pos hagg] at h
    rw [Gathered.add, if_pos (swap_agg.trans hagg), swap_dimension hagg]
    have hmem : rename field child ref.Name ∈ g'.GroupBy ↔
        rename field child ref.Name ∈ g.GroupBy.map (rename field child) := by
      rw [hrel.groupBy, List.mem_eraseDups]
    refine ⟨_, rfl, ?_⟩
    by_cases hold : ref.Name ∈ g.GroupBy
    · rw [if_pos hold] at h
      cases h
      rw [if_pos (hmem.mpr (List.mem_map_of_mem hold))]
      exact hrel
    · rw [if_neg hold] at h
      cases h
      have hgroups := eraseDups_concat (g.GroupBy.map (rename field child))
        (rename field child ref.Name)
      split at hgroups
      · next hnew =>
        rw [if_pos (hmem.mpr hnew)]
        exact ⟨by rw [List.map_append, List.map_singleton, hgroups, hrel.groupBy], hrel.measures,
          hrel.seen⟩
      · next hnew =>
        rw [if_neg (mt hmem.mp hnew)]
        exact ⟨by rw [List.map_append, List.map_singleton, hgroups, hrel.groupBy], hrel.measures,
          hrel.seen⟩
  · rw [swap_measure hagg]
    rw [Gathered.add, if_neg hagg] at h ⊢
    split at h
    · cases h
    · next hdistinct =>
      rw [if_neg hdistinct, hrel.seen]
      split at h
      · next hseen =>
        cases h
        exact ⟨g', if_pos hseen, hrel⟩
      · next hseen =>
        cases h
        exact ⟨_, if_neg hseen, hrel.groupBy, by rw [hrel.measures], rfl⟩

theorem addAll_renamed (refs : List FieldRef) (hrel : Renamed field child g g')
    (h : g.addAll refs = .ok out) :
    ∃ out', g'.addAll (refs.map (swap field child)) = .ok out' ∧ Renamed field child out out' := by
  induction refs generalizing g g' with
  | nil =>
    cases h
    exact ⟨g', rfl, hrel⟩
  | cons ref rest ih =>
    obtain ⟨mid, hmid, hrest⟩ := bind_ok_iff.mp h
    obtain ⟨mid', hmid', hrel'⟩ := add_renamed hrel hmid
    obtain ⟨out', hout', hfinal⟩ := ih hrel' hrest
    exact ⟨out', bind_ok_iff.mpr ⟨mid', hmid', hout'⟩, hfinal⟩

theorem seen_add (h : g.add ref = .ok out) (hseen : ∀ key ∈ g.seenMeasure, '(' ∈ key.toList) :
    ∀ key ∈ out.seenMeasure, '(' ∈ key.toList := by
  unfold Gathered.add at h
  split at h
  · cases h
    split <;> exact hseen
  · next hagg =>
    split at h
    · cases h
    · split at h
      · cases h
        exact hseen
      · cases h
        exact List.forall_mem_cons.mpr ⟨paren_mem_key hagg, hseen⟩

/-- The keys of gathered measures have parentheses. -/
theorem seen_addAll (refs : List FieldRef) (h : g.addAll refs = .ok out)
    (hseen : ∀ key ∈ g.seenMeasure, '(' ∈ key.toList) :
    ∀ key ∈ out.seenMeasure, '(' ∈ key.toList := by
  induction refs generalizing g with
  | nil =>
    cases h
    exact hseen
  | cons ref rest ih =>
    obtain ⟨mid, hmid, hrest⟩ := bind_ok_iff.mp h
    exact ih hrest (seen_add hmid hseen)

theorem checkSort_iff (g : Gathered) (sort : List OrderField) :
    g.checkSort sort = .ok () ↔ ∀ o ∈ sort, o.Field ∈ g.GroupBy ∨ o.Field ∈ g.seenMeasure := by
  induction sort with
  | nil => simp [Gathered.checkSort]
  | cons o rest ih =>
    by_cases ho : o.Field ∈ g.GroupBy ∨ o.Field ∈ g.seenMeasure <;>
      simp [Gathered.checkSort, ho, ih]

theorem checkSort_renamed {sort : List OrderField} (hfield : '(' ∉ field.toList)
    (hseen : ∀ key ∈ g.seenMeasure, '(' ∈ key.toList) (hrel : Renamed field child g g')
    (h : g.checkSort sort = .ok ()) : g'.checkSort (sort.map (drillSort field child)) = .ok () := by
  rw [checkSort_iff] at h ⊢
  intro o ho
  obtain ⟨old, hold, rfl⟩ := List.mem_map.mp ho
  rw [drillSort_field, hrel.groupBy, hrel.seen, List.mem_eraseDups]
  rcases h old hold with hgroup | hmeasure
  · exact .inl (List.mem_map_of_mem hgroup)
  · have hother : old.Field ≠ field := by
      rintro rfl
      exact hfield (hseen _ hmeasure)
    rw [rename, if_neg hother]
    exact .inr hmeasure

end Grouping

section Plans

variable {field child : String} {spec : VizSpec}

theorem queryRefs_drilled (rows cols : List Tuple) :
    queryRefs (drilled field child spec) (rows.map (renameTuple (swap field child)))
        (cols.map (renameTuple (swap field child))) =
      (queryRefs spec rows cols).map (swap field child) := by
  simp [queryRefs, drilled, fields_drillEncodings, renameTuple, List.flatMap_map, List.map_flatMap]

/-- The query of a spec with the field renamed. -/
structure QueryRenamed (field child : String) (q q' : AggregateQuery) : Prop where
  groupBy : q'.GroupBy = (q.GroupBy.map (rename field child)).eraseDups
  measures : q'.Measures = q.Measures
  filter : q'.Filter = q.Filter
  range : q'.TimeRange = q.TimeRange
  grain : q'.Grain = q.Grain
  sort : q'.Sort = q.Sort.map (drillSort field child)

theorem aggregateQuery_drilled (child : String) {rows cols : List Tuple} {query : AggregateQuery}
    (hfield : '(' ∉ field.toList) (h : aggregateQuery spec rows cols = .ok query) :
    ∃ query', aggregateQuery (drilled field child spec)
        (rows.map (renameTuple (swap field child))) (cols.map (renameTuple (swap field child))) =
          .ok query' ∧ QueryRenamed field child query query' := by
  obtain ⟨g, hg, h⟩ := bind_ok_iff.mp h
  obtain ⟨⟨⟩, hsort, h⟩ := bind_ok_iff.mp h
  cases h
  have hempty : Renamed field child ⟨[], [], []⟩ ⟨[], [], []⟩ := ⟨rfl, rfl, rfl⟩
  obtain ⟨g', hg', hrel⟩ := addAll_renamed _ hempty hg
  have hsort' := checkSort_renamed hfield (seen_addAll _ hg nofun) hrel hsort
  rw [← queryRefs_drilled] at hg'
  refine ⟨_, bind_ok_iff.mpr ⟨g', hg', bind_ok_iff.mpr ⟨(), hsort', rfl⟩⟩, ?_⟩
  exact ⟨hrel.groupBy, hrel.measures, rfl, rfl, rfl, rfl⟩

theorem compile_drilled {cube : CubeSchema} {plan : Plan} (hfield : '(' ∉ field.toList)
    (h : Compile spec cube = .ok plan) :
    ∃ plan', Compile (drilled field child spec) cube = .ok plan' ∧
      QueryRenamed field child plan.Query plan'.Query ∧
      plan.Panes = panes (Normalize spec.Rows) (Normalize spec.Columns) ∧
      plan'.Panes = panes ((Normalize spec.Rows).map (renameTuple (swap field child)))
        ((Normalize spec.Columns).map (renameTuple (swap field child))) := by
  unfold Compile at h ⊢
  cases hfields : cube.Fields with
  | none =>
    rw [hfields] at h
    cases h
  | some fields =>
    rw [hfields] at h
    simp only at h
    split at h
    · cases h
    · next hcube =>
      split at h
      · cases h
      · next hgrain =>
        obtain ⟨query, hquery, h⟩ := bind_ok_iff.mp h
        cases h
        obtain ⟨query', hquery', hrenamed⟩ := aggregateQuery_drilled child hfield hquery
        rw [← normalize_drillShelf, ← normalize_drillShelf] at hquery' ⊢
        exact ⟨_, (if_neg hcube).trans ((if_neg hgrain).trans
          (bind_ok_iff.mpr ⟨query', hquery', rfl⟩)), hrenamed, rfl, rfl⟩

end Plans

/-- What drilling a compiled spec gives: a valid spec whose plan is the plan with the field
renamed, in memory of its own, while all of the memory there was is kept. -/
theorem drill_commutes_with_compile {loc : FilterParse.Location} {cube : CubeSchema} {m : FieldMap}
    {raw spec out : VizSpec} {plan : Plan} {field : String} {fuel : ℕ}
    {h : List DrillMemory.Cell} {record : DrillMemory.SpecRecord} (hplain : Plain cube m)
    (hraw : validate loc raw cube.Fields = .ok spec) (hplan : Compile spec cube = .ok plan)
    (hdrill : Drill spec cube field = .ok out) (hreads : DrillMemory.Reads h record spec)
    (hfuel : MaxShelfDepth ≤ fuel) :
    ∃ child, childOf cube.Hierarchies field = some child ∧
      validate loc out cube.Fields = .ok out ∧
      (∃ plan', Compile out cube = .ok plan' ∧ QueryRenamed field child plan.Query plan'.Query ∧
        plan.Panes = panes (Normalize spec.Rows) (Normalize spec.Columns) ∧
        plan'.Panes = panes ((Normalize spec.Rows).map (renameTuple (swap field child)))
          ((Normalize spec.Columns).map (renameTuple (swap field child)))) ∧
      ∃ h' record', DrillMemory.Drill fuel h record cube field = some (.ok (h', record')) ∧
        DrillMemory.Reads h' record' out ∧ h <+: h' ∧ DrillMemory.Reads h' record spec := by
  obtain ⟨child, hchild, rfl⟩ := drill_ok hdrill
  rw [hplain.fields] at hraw ⊢
  have hspec := validate_again hraw
  obtain ⟨-, hfields, -⟩ := validate_iff.mp hspec
  obtain ⟨more, record', hrun, hout⟩ := DrillCopies.drillRecord_copies hreads
    (DrillCopies.within_of_valid fuel 1 _ hfields.rows (by omega))
    (DrillCopies.within_of_valid fuel 1 _ hfields.columns (by omega))
  refine ⟨child, childOf_of_drillChild hchild, validate_drilled hplain hspec hchild,
    compile_drilled (drillChild_dimensions hplain hchild).1 hplan, h ++ more, record', ?_, hout,
    List.prefix_append h more, DrillMemory.reads_of_initial (List.prefix_append h more) hreads⟩
  simp [DrillMemory.Drill, hchild, hrun]

section Usage

open DrillMemory (Cell SpecRecord Reads)

open FlatMemory (spans_new)

def usageFields : FieldMap :=
  ⟨[⟨⟨none, "team", "team", [], .string⟩, [], .dimension⟩,
    ⟨⟨none, "user", "user", [], .string⟩, [], .dimension⟩,
    ⟨⟨none, "tokens", "tokens", [], .int⟩, [.sum], .measure⟩]⟩

def usageCube : CubeSchema := ⟨some usageFields, "usage", [["team", "user"]], []⟩

def usageSpec : VizSpec where
  TimeRange := ⟨⟨0, 0, "UTC"⟩, ⟨1, 0, "UTC"⟩⟩
  Filter := .composite [] []
  Rows := .node .concat [.field ⟨"team", .none⟩, .field ⟨"user", .none⟩]
  Columns := .field ⟨"tokens", .sum⟩
  Encodings := ⟨some ⟨"team", .none⟩, none, none, none⟩
  Cube := "usage"
  Grain := .other ""
  Mark := .auto
  FilterJSON := "\x7b\x7d"
  Detail := [⟨"team", .none⟩]
  «Sort» := [⟨"team", none, none, [], true⟩]

def usageMemory : List Cell :=
  [.ref ⟨"team", .none⟩, .expr ⟨some 0, .other "", ⟨none, 0⟩⟩,
    .ref ⟨"user", .none⟩, .expr ⟨some 2, .other "", ⟨none, 0⟩⟩,
    .arg (some 1), .arg (some 3), .expr ⟨none, .concat, ⟨some 4, 2⟩⟩,
    .ref ⟨"tokens", .sum⟩, .expr ⟨some 7, .other "", ⟨none, 0⟩⟩,
    .ref ⟨"team", .none⟩, .ref ⟨"team", .none⟩, .order ⟨"team", none, none, [], true⟩]

def usageRecord : SpecRecord :=
  { usageSpec with
    Rows := some 6
    Columns := some 8
    Encodings := ⟨some 9, none, none, none⟩
    Detail := ⟨some 10, 1⟩
    «Sort» := ⟨some 11, 1⟩ }

theorem usage_plain : Plain usageCube usageFields where
  fields := rfl
  names := by decide
  levels := by
    intro path hpath level hlevel
    cases List.mem_singleton.mp hpath
    rcases List.mem_pair.mp hlevel with rfl | rfl
    · exact ⟨_, rfl, by decide⟩
    · exact ⟨_, rfl, by decide⟩

theorem usage_validated :
    validate FilterParse.utc { usageSpec with FilterJSON := "\x7b \x7d", Filter := .nil }
      usageCube.Fields = .ok usageSpec := rfl

theorem usage_reads : Reads usageMemory usageRecord usageSpec where
  range := rfl
  filter := rfl
  rows := ⟨6, _, rfl, Nat.zero_le _, rfl, rfl,
    ⟨_, _, rfl, Nat.zero_le _, rfl, _, _, _, _, rfl, Nat.zero_le _, Nat.zero_le _, rfl, rfl⟩,
    ⟨_, _, rfl, Nat.zero_le _, rfl, _, _, _, _, rfl, Nat.zero_le _, Nat.zero_le _, rfl, rfl⟩,
    trivial⟩
  columns := ⟨8, 7, _, _, rfl, Nat.zero_le _, Nat.zero_le _, rfl, rfl⟩
  encodings := ⟨⟨9, rfl, rfl⟩, rfl, rfl, rfl⟩
  cube := rfl
  grain := rfl
  mark := rfl
  filterJSON := rfl
  detail := spans_new (usageMemory.take 10) [.ref ⟨"team", .none⟩] (usageMemory.drop 11)
  sort := spans_new (usageMemory.take 11) [.order ⟨"team", none, none, [], true⟩] []

def usagePlan : Plan where
  Marks := [(⟨"team", "sum(tokens)"⟩, .bar), (⟨"user", "sum(tokens)"⟩, .bar)]
  Panes := [⟨"team", "sum(tokens)"⟩, ⟨"user", "sum(tokens)"⟩]
  Query := {
    TimeRange := usageSpec.TimeRange
    Filter := usageSpec.Filter
    Cube := "usage"
    Grain := .other ""
    GroupBy := ["team", "user"]
    Measures := [⟨"tokens", .sum⟩]
    «Sort» := usageSpec.Sort }

theorem usage_compiled : Compile usageSpec usageCube = .ok usagePlan := rfl

theorem team_drilled_to_user :
    ∃ plan', Compile (drilled "team" "user" usageSpec) usageCube = .ok plan' ∧
      plan'.Query.GroupBy = ["user"] ∧ plan'.Query.Measures = [⟨"tokens", .sum⟩] ∧
      plan'.Panes = [⟨"user", "sum(tokens)"⟩, ⟨"user", "sum(tokens)"⟩] ∧
      ∃ h' record', DrillMemory.Drill 8 usageMemory usageRecord usageCube "team" =
        some (.ok (h', record')) ∧ Reads h' usageRecord usageSpec := by
  have hdrill : Drill usageSpec usageCube "team" = .ok (drilled "team" "user" usageSpec) := rfl
  obtain ⟨child, hchild, -, ⟨plan', hplan', hquery, -, hpanes⟩, h', record', hrun, -, -, hkept⟩ :=
    drill_commutes_with_compile usage_plain usage_validated usage_compiled hdrill usage_reads
      (by decide : MaxShelfDepth ≤ 8)
  obtain rfl : child = "user" := (Option.some.inj hchild).symm
  refine ⟨plan', hplan', ?_, hquery.measures, ?_, h', record', hrun, hkept⟩
  · rw [hquery.groupBy]
    decide
  · rw [hpanes]
    decide

end Usage

end KnowledgeEngine.DrillCompile
