import KnowledgeEngine.VizqlShelves

/-!
Drilled specs are valid. In a cube whose names have no parentheses and whose levels are
dimensions, the key of a measure is never the name of a field, so that drilling renames keys
as it renames the sort directives that name them, and a drilled spec keeps its compiled filter.
-/

namespace KnowledgeEngine.DrillValidation

open CoreTypes FilterParse Vizql VizqlShelves

open FilterParse (bind_ok_iff)

/-- The name is one of a field that is not a measure. -/
def Dimension (m : FieldMap) (name : String) : Prop :=
  ∃ f, m.Lookup name = some f ∧ f.Role ≠ .measure

/-- The cube has a field allow-list, without parentheses in names, that declares every level
of every hierarchy as a field that is not a measure. -/
structure Plain (cube : CubeSchema) (m : FieldMap) : Prop where
  fields : cube.Fields = some m
  names : ∀ f ∈ m.fields, '(' ∉ f.Name.toList ∧ ')' ∉ f.Name.toList
  levels : ∀ path ∈ cube.Hierarchies, ∀ level ∈ path, Dimension m level

def rename (field child name : String) : String := if name = field then child else name

section Levels

variable {field child : String}

theorem childIn_mem : ∀ {path : List String},
    childIn field path = some child → field ∈ path ∧ child ∈ path
  | level :: next :: rest, h => by
    rw [childIn] at h
    split at h
    · next hlevel =>
      cases h
      simp [hlevel]
    · obtain ⟨hfield, hchild⟩ := childIn_mem h
      exact ⟨List.mem_cons_of_mem _ hfield, List.mem_cons_of_mem _ hchild⟩

variable {cube : CubeSchema}

theorem childOf_of_drillChild (h : drillChild cube field = .ok child) :
    childOf cube.Hierarchies field = some child := by
  unfold drillChild at h
  split at h
  · cases h
  · split at h
    · cases h
    · next level hchild =>
      split at h
      · cases h
      · cases h
        exact hchild

theorem drill_ok {spec out : VizSpec} (h : Drill spec cube field = .ok out) :
    ∃ child, drillChild cube field = .ok child ∧ out = drilled field child spec := by
  obtain ⟨child, hchild, hout⟩ := bind_ok_iff.mp h
  cases hout
  exact ⟨child, hchild, rfl⟩

theorem lookup_name {m : FieldMap} {name : String} {f : CubeField} (h : m.Lookup name = some f) :
    f ∈ m.fields ∧ f.Name = name := by
  refine ⟨List.mem_reverse.mp (List.mem_of_find?_eq_some h), ?_⟩
  simpa using List.find?_some h

/-- Both levels of a drill are dimensions, and the upper one has a name without parentheses. -/
theorem drillChild_dimensions {m : FieldMap} (hplain : Plain cube m)
    (h : drillChild cube field = .ok child) : '(' ∉ field.toList ∧ Dimension m child := by
  obtain ⟨path, hpath, hin⟩ := List.exists_of_findSome?_eq_some (childOf_of_drillChild h)
  obtain ⟨hfield, hchild⟩ := childIn_mem hin
  obtain ⟨f, hlookup, -⟩ := hplain.levels path hpath field hfield
  obtain ⟨hmem, rfl⟩ := lookup_name hlookup
  exact ⟨(hplain.names f hmem).1, hplain.levels path hpath child hchild⟩

end Levels

section Keys

variable {m : FieldMap} {field child : String} {ref : FieldRef}

theorem paren_mem_key (h : ref.Agg ≠ .none) : '(' ∈ ref.Key.toList := by
  rw [FieldRef.Key, if_neg h]
  simp

theorem agg_of_key (hfield : '(' ∉ field.toList) (h : ref.Key = field) :
    ref.Agg = .none ∧ ref.Name = field := by
  have hagg : ref.Agg = .none := by
    by_contra hne
    exact hfield (h ▸ paren_mem_key hne)
  rw [FieldRef.Key, if_pos hagg] at h
  exact ⟨hagg, h⟩

theorem swap_agg : (swap field child ref).Agg = ref.Agg := by
  rw [swap]
  split <;> rfl

theorem key_swap (hfield : '(' ∉ field.toList) (child : String) (ref : FieldRef) :
    (swap field child ref).Key = rename field child ref.Key := by
  rw [swap, rename]
  by_cases hkey : ref.Key = field
  · obtain ⟨hagg, hname⟩ := agg_of_key hfield hkey
    rw [if_pos hkey, if_pos ⟨hname, hagg⟩, FieldRef.Key, if_pos hagg]
  · have hother : ¬ (ref.Name = field ∧ ref.Agg = .none) := by
      rintro ⟨hname, hagg⟩
      exact hkey (by rw [FieldRef.Key, if_pos hagg, hname])
    rw [if_neg hkey, if_neg hother]

theorem validateRef_dimension (h : ref.Agg = .none) :
    validateRef ref m = .ok () ↔ Dimension m ref.Name := by
  unfold validateRef Dimension
  cases m.Lookup ref.Name with
  | none => simp
  | some f => by_cases hrole : f.Role = .measure <;> simp [hrole, h]

theorem validateRef_swap (hchild : Dimension m child) (ref : FieldRef)
    (h : validateRef ref m = .ok ()) : validateRef (swap field child ref) m = .ok () := by
  rw [swap]
  split
  · next hswap =>
    have hagg : ({ ref with Name := child } : FieldRef).Agg = .none := hswap.2
    exact (validateRef_dimension hagg).mpr hchild
  · exact h

end Keys

section Fields

variable {m : FieldMap}

theorem validateDetail_iff {keys' : List String} (keys : List String) (refs : List FieldRef) :
    validateDetail m keys refs = .ok keys' ↔
      (∀ ref ∈ refs, validateRef ref m = .ok () ∧ ref.Agg = .none) ∧
        keys' = keys ++ refs.map FieldRef.Key := by
  induction refs generalizing keys with
  | nil => simp [validateDetail, eq_comm]
  | cons ref rest ih =>
    have hhead : (validateRef ref m = .ok () ∧ ref.Agg = .none) ↔
        ∃ f, m.Lookup ref.Name = some f ∧ f.Role ≠ .measure ∧ ref.Agg = .none := by
      constructor
      · rintro ⟨href, hagg⟩
        obtain ⟨f, hlookup, hrole⟩ := (validateRef_dimension hagg).mp href
        exact ⟨f, hlookup, hrole, hagg⟩
      · rintro ⟨f, hlookup, hrole, hagg⟩
        exact ⟨(validateRef_dimension hagg).mpr ⟨f, hlookup, hrole⟩, hagg⟩
    rw [List.forall_mem_cons, hhead, validateDetail]
    cases m.Lookup ref.Name with
    | none => simp
    | some f =>
      by_cases hrole : f.Role = .measure
      · simp [hrole]
      · by_cases hagg : ref.Agg = .none
        · simp [hrole, hagg, ih]
        · simp [hagg]

theorem validateEncodings_iff {keys' : List String} (keys : List String) (refs : List FieldRef) :
    validateEncodings m keys refs = .ok keys' ↔
      (∀ ref ∈ refs, validateRef ref m = .ok ()) ∧ keys' = keys ++ refs.map FieldRef.Key := by
  induction refs generalizing keys with
  | nil => simp [validateEncodings, eq_comm]
  | cons ref rest ih =>
    rw [validateEncodings, bind_ok_iff, List.forall_mem_cons]
    constructor
    · rintro ⟨⟨⟩, href, hrest⟩
      obtain ⟨hvalid, rfl⟩ := (ih _).mp hrest
      exact ⟨⟨href, hvalid⟩, by simp⟩
    · rintro ⟨⟨href, hvalid⟩, rfl⟩
      exact ⟨(), href, (ih _).mpr ⟨hvalid, by simp⟩⟩

/-- The references of a spec, in the order they are checked. -/
def specRefs (spec : VizSpec) : List FieldRef :=
  leaves spec.Rows ++ leaves spec.Columns ++ spec.Detail ++ spec.Encodings.Fields

structure FieldsValid (m : FieldMap) (spec : VizSpec) : Prop where
  rows : ShelfValid m 1 spec.Rows
  columns : ShelfValid m 1 spec.Columns
  detail : ∀ ref ∈ spec.Detail, validateRef ref m = .ok () ∧ ref.Agg = .none
  encodings : ∀ ref ∈ spec.Encodings.Fields, validateRef ref m = .ok ()

theorem validateFields_iff {spec : VizSpec} {keys : List String} :
    validateFields spec m = .ok keys ↔
      FieldsValid m spec ∧ keys = (specRefs spec).map FieldRef.Key := by
  simp only [validateFields, bind_ok_iff, validateShelf_iff, validateDetail_iff,
    validateEncodings_iff]
  constructor
  · rintro ⟨_, ⟨hrows, rfl⟩, _, ⟨hcols, rfl⟩, _, ⟨hdetail, rfl⟩, hencodings, rfl⟩
    exact ⟨⟨hrows, hcols, hdetail, hencodings⟩, by simp [specRefs]⟩
  · rintro ⟨⟨hrows, hcols, hdetail, hencodings⟩, rfl⟩
    exact ⟨_, ⟨hrows, rfl⟩, _, ⟨hcols, rfl⟩, _, ⟨hdetail, rfl⟩, hencodings, by simp [specRefs]⟩

theorem fields_drillEncodings (f : FieldRef → FieldRef) (e : Encodings) :
    (drillEncodings f e).Fields = e.Fields.map f := by
  simp [drillEncodings, Encodings.Fields, Option.toList_map]

variable {field child : String} {spec : VizSpec}

theorem fieldsValid_drilled (hchild : Dimension m child) (h : FieldsValid m spec) :
    FieldsValid m (drilled field child spec) where
  rows := shelfValid_drillShelf (validateRef_swap hchild) 1 _ h.rows
  columns := shelfValid_drillShelf (validateRef_swap hchild) 1 _ h.columns
  detail := by
    intro ref href
    obtain ⟨old, hold, rfl⟩ := List.mem_map.mp href
    obtain ⟨hvalid, hagg⟩ := h.detail old hold
    exact ⟨validateRef_swap hchild old hvalid, swap_agg.trans hagg⟩
  encodings := by
    intro ref href
    rw [drilled, fields_drillEncodings] at href
    obtain ⟨old, hold, rfl⟩ := List.mem_map.mp href
    exact validateRef_swap hchild old (h.encodings old hold)

theorem specRefs_drilled :
    specRefs (drilled field child spec) = (specRefs spec).map (swap field child) := by
  simp [specRefs, drilled, leaves_drillShelf, fields_drillEncodings]

theorem checkSortKeys_iff {keys : List String} {sort : List OrderField} :
    checkSortKeys keys sort = .ok () ↔ ∀ o ∈ sort, o.Field ∈ keys := by
  induction sort with
  | nil => simp [checkSortKeys]
  | cons o rest ih => by_cases ho : o.Field ∈ keys <;> simp [checkSortKeys, ho, ih]

theorem drillSort_field (field child : String) (o : OrderField) :
    (drillSort field child o).Field = rename field child o.Field := by
  rw [drillSort, rename]
  split <;> rfl

theorem sortKeys_drilled (hfield : '(' ∉ field.toList)
    (h : ∀ o ∈ spec.Sort, o.Field ∈ (specRefs spec).map FieldRef.Key) :
    ∀ o ∈ (drilled field child spec).Sort,
      o.Field ∈ (specRefs (drilled field child spec)).map FieldRef.Key := by
  intro o ho
  obtain ⟨old, hold, rfl⟩ := List.mem_map.mp ho
  obtain ⟨ref, href, hkey⟩ := List.mem_map.mp (h old hold)
  rw [specRefs_drilled, List.map_map, drillSort_field, ← hkey, ← key_swap hfield]
  exact List.mem_map_of_mem href

end Fields

section Filters

variable {loc : Location} {m : FieldMap} {raw spec : VizSpec}

theorem startsValue_not_spaceRune {c : Char} (h : JsonText.startsValue c = true) :
    StringText.isSpaceRune c = false := by
  have hrange : 33 ≤ c.toNat ∧ c.toNat ≤ 126 := by
    simp only [JsonText.startsValue, Bool.or_eq_true, beq_iff_eq] at h
    rcases h with ((((((rfl | rfl) | rfl) | rfl) | rfl) | rfl) | rfl) | hdigit
    case inr =>
      simp only [Char.isDigit, Bool.and_eq_true, decide_eq_true_eq, ge_iff_le,
        UInt32.le_iff_toNat_le] at hdigit
      exact ⟨le_trans (by decide) hdigit.1, le_trans hdigit.2 (by decide)⟩
    all_goals decide
  have hblank : c ≠ ' ' := by
    rintro rfl
    exact absurd hrange (by decide)
  simp only [StringText.isSpaceRune, Bool.or_eq_false_iff, beq_eq_false_iff_ne,
    Bool.and_eq_false_iff, decide_eq_false_iff_not, ne_eq, hblank, not_false_eq_true, true_and]
  omega

theorem parse_not_blank {text : List Char} {v : JsonText.Json} (h : JsonText.parse text = some v) :
    StringText.trimSpace text ≠ [] := by
  obtain ⟨c, tail, hskip, hc⟩ :=
    JsonCompact.spells_head (JsonReading.parse_eq_some_iff.mp h).1
  have hmem : c ∈ text := by
    have hsuffix : JsonText.skipSpace text <:+ text := List.dropWhile_suffix _
    exact hsuffix.subset (by rw [hskip]; exact List.mem_cons_self)
  have hrune := startsValue_not_spaceRune hc
  cases hdrop : text.dropWhile StringText.isSpaceRune with
  | nil =>
    have hall := List.dropWhile_eq_nil_iff.mp hdrop c hmem
    rw [hrune] at hall
    cases hall
  | cons d rest =>
    have hd : StringText.isSpaceRune d = false := by
      simpa [hdrop] using List.head?_dropWhile_not StringText.isSpaceRune text
    rw [StringText.trimSpace, hdrop, ne_eq, List.rdropWhile_eq_nil_iff]
    intro hall
    simp [hall d List.mem_cons_self] at hd

theorem parseFilter_compact {fields : FilterParse.Map} {text : String} {v : JsonText.Json}
    (h : JsonText.parse text.toList = some v) :
    parseFilter loc fields (String.ofList (JsonCompact.compact text.toList)) =
      parseFilter loc fields text := by
  have hcompact := JsonCompact.parse_compact h
  unfold parseFilter
  rw [String.toList_ofList, if_neg (parse_not_blank h), if_neg (parse_not_blank hcompact), h,
    hcompact]

theorem compileFilter_cases (h : compileFilter loc raw m = .ok spec) :
    (raw.FilterJSON = "" ∧ spec = raw) ∨ ∃ v, JsonText.parse raw.FilterJSON.toList = some v ∧
      ∃ filter, parseFilter loc m.toMap raw.FilterJSON = .ok filter ∧
        spec = { raw with
          Filter := filter
          FilterJSON := String.ofList (JsonCompact.compact raw.FilterJSON.toList) } := by
  unfold compileFilter at h
  split at h
  · next hempty =>
    cases h
    exact .inl ⟨hempty, rfl⟩
  · obtain ⟨filter, hfilter, h⟩ := bind_ok_iff.mp h
    obtain ⟨text, htext, h⟩ := bind_ok_iff.mp h
    cases h
    unfold compactJSON at htext
    split at htext
    · cases htext
    · next v hv =>
      cases htext
      exact .inr ⟨v, hv, filter, hfilter, rfl⟩

/-- A compiled filter compiles to itself. -/
theorem compileFilter_again (h : compileFilter loc raw m = .ok spec) {out : VizSpec}
    (hfilter : out.Filter = spec.Filter) (hjson : out.FilterJSON = spec.FilterJSON) :
    compileFilter loc out m = .ok out := by
  rcases compileFilter_cases h with ⟨hempty, rfl⟩ | ⟨v, hv, filter, hparse, rfl⟩
  · rw [compileFilter, if_pos (hjson.trans hempty)]
  · have hcompact := JsonCompact.parse_compact hv
    have hlist : out.FilterJSON.toList = JsonCompact.compact raw.FilterJSON.toList := by
      rw [hjson, String.toList_ofList]
    have hne : out.FilterJSON ≠ "" := by
      intro hempty
      rw [hempty] at hlist
      exact parse_not_blank hcompact (by rw [← hlist]; rfl)
    have htext : compactJSON out.FilterJSON = .ok out.FilterJSON := by
      rw [compactJSON, hlist, hcompact, JsonCompact.compact_compact, ← hlist, String.ofList_toList]
    have hagain : parseFilter loc m.toMap out.FilterJSON = .ok out.Filter := by
      rw [hjson, hfilter, parseFilter_compact hv, hparse]
    rw [compileFilter, if_neg hne, hagain, htext]
    rfl

end Filters

variable {loc : Location} {m : FieldMap} {spec : VizSpec}

theorem validate_iff {raw : VizSpec} :
    validate loc raw (some m) = .ok spec ↔ validateScalars raw = .ok () ∧ FieldsValid m raw ∧
      (∀ o ∈ raw.Sort, o.Field ∈ (specRefs raw).map FieldRef.Key) ∧
        compileFilter loc raw m = .ok spec := by
  simp only [validate, bind_ok_iff, validateFields_iff]
  constructor
  · rintro ⟨⟨⟩, hscalars, _, ⟨hfields, rfl⟩, ⟨⟩, hsort, hfilter⟩
    exact ⟨hscalars, hfields, checkSortKeys_iff.mp hsort, hfilter⟩
  · rintro ⟨hscalars, hfields, hsort, hfilter⟩
    exact ⟨(), hscalars, _, ⟨hfields, rfl⟩, (), checkSortKeys_iff.mpr hsort, hfilter⟩

/-- A spec that was validated is valid as it is. -/
theorem validate_again {raw : VizSpec} (h : validate loc raw (some m) = .ok spec) :
    validate loc spec (some m) = .ok spec := by
  obtain ⟨hscalars, hfields, hsort, hfilter⟩ := validate_iff.mp h
  have hagain := compileFilter_again hfilter rfl rfl
  rcases compileFilter_cases hfilter with ⟨-, rfl⟩ | ⟨v, -, filter, -, rfl⟩
  · exact h
  · exact validate_iff.mpr ⟨hscalars,
      ⟨hfields.rows, hfields.columns, hfields.detail, hfields.encodings⟩, hsort, hagain⟩

theorem validate_drilled {cube : CubeSchema} {field child : String} (hplain : Plain cube m)
    (hspec : validate loc spec (some m) = .ok spec) (hchild : drillChild cube field = .ok child) :
    validate loc (drilled field child spec) (some m) = .ok (drilled field child spec) := by
  obtain ⟨hfield, hdim⟩ := drillChild_dimensions hplain hchild
  obtain ⟨hscalars, hfields, hsort, hfilter⟩ := validate_iff.mp hspec
  exact validate_iff.mpr ⟨hscalars, fieldsValid_drilled hdim hfields,
    sortKeys_drilled hfield hsort, compileFilter_again hfilter rfl rfl⟩

end KnowledgeEngine.DrillValidation
