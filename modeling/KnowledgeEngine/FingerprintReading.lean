import KnowledgeEngine.Fingerprint

/-!
Which requests a fingerprint tells apart. The encoding of a sort order and a filter is
read back when no text operand contains a comma; a field of text admits operands that
make two different filters read the same, so an allow-list separates all its requests
exactly when it has no such field.
-/

namespace KnowledgeEngine.FingerprintReading

open CoreTypes DelimitedText FilterCompile FilterParse Fingerprint JsonText List

open FilterGrammar (parseFilter_parsed)

/-- Field names that can stand in front of a bar. -/
def NoBar (m : Map) : Prop := ∀ name field, m.lookup name = some field → '|' ∉ name.toList

def NoEmptyName (m : Map) : Prop := ∀ name field, m.lookup name = some field → name ≠ ""

def FilterCommaFree (f : Filter) : Prop :=
  ∀ leaf ∈ leaves f, ∀ v ∈ operands leaf.Value, CommaFree v

theorem filterCommaFree_and (subs : List Filter) :
    FilterCommaFree (.composite subs []) ↔ ∀ sub ∈ subs, FilterCommaFree sub := by
  simp only [FilterCommaFree, leaves, leavesEach, leavesEach_eq_flatMap, append_nil,
    forall_mem_flatMap]

theorem filterCommaFree_or (subs : List Filter) :
    FilterCommaFree (.composite [] subs) ↔ ∀ sub ∈ subs, FilterCommaFree sub := by
  simp only [FilterCommaFree, leaves, leavesEach, leavesEach_eq_flatMap, nil_append,
    forall_mem_flatMap]

section Reading

variable (loc : Location) (m : Map) (hbar : NoBar m) (hname : NoEmptyName m)

theorem encode_and {subs : List Filter} (hne : subs ≠ []) (x : List Char) :
    encodeFilter (.composite subs []) ++ x =
      "and(".toList ++ (separated ',' encodeFilter subs ++ ')' :: x) := by
  simp [encodeFilter, hne, encodeEach_eq]

theorem encode_or {subs : List Filter} (hne : subs ≠ []) (x : List Char) :
    encodeFilter (.composite [] subs) ++ x =
      "or(".toList ++ (separated ',' encodeFilter subs ++ ')' :: x) := by
  simp [encodeFilter, hne, encodeEach_eq]

include hname

theorem encode_clause {name : String} (op : FilterOperator) {field : Field} (v : Value)
    (hfield : m.lookup name = some field) (x : List Char) :
    encodeFilter (.clause name op v none) ++ x =
      "clause(".toList ++ (name.toList ++ '|' :: (operatorText op ++ '|' ::
        (encodeValue v ++ ')' :: x))) := by
  simp [encodeFilter, hname name field hfield]

/-- The encoding of a parsed filter starts with the name of its kind. -/
theorem encodeFilter_starts {f : Filter} (h : Parsed loc m f) :
    ∃ rest, encodeFilter f = "clause(".toList ++ rest ∨ encodeFilter f = "and(".toList ++ rest ∨
      encodeFilter f = "or(".toList ++ rest := by
  rw [← append_nil (encodeFilter f)]
  cases h with
  | clause name op field v hfield _ => exact ⟨_, .inl (encode_clause m hname op v hfield [])⟩
  | and subs hne _ => exact ⟨_, .inr (.inl (encode_and hne []))⟩
  | or subs hne _ => exact ⟨_, .inr (.inr (encode_or hne []))⟩

theorem encodeFilter_opens {f : Filter} (h : Parsed loc m f) : Opens ')' (encodeFilter f) := by
  obtain ⟨rest, hstart | hstart | hstart⟩ := encodeFilter_starts loc m hname h <;>
  · rw [hstart]
    exact ⟨_, _, rfl, by decide⟩

include hbar

theorem encodeFilter_append_inj (f : Filter) (h : Parsed loc m f) (f' : Filter)
    (h' : Parsed loc m f') (hfree : FilterCommaFree f) (hfree' : FilterCommaFree f')
    (x y : List Char) (hx : Stops ',' x) (hy : Stops ',' y)
    (heq : encodeFilter f ++ x = encodeFilter f' ++ y) : f = f' ∧ x = y := by
  induction h generalizing f' x y with
  | clause name op field v hfield hv =>
    rw [encode_clause m hname op v hfield] at heq
    cases h' with
    | and subs hne _ => exact nomatch heq.trans (encode_and hne _)
    | or subs hne _ => exact nomatch heq.trans (encode_or hne _)
    | clause name' op' field' v' hfield' hv' =>
      rw [encode_clause m hname op' v' hfield'] at heq
      obtain ⟨hnames, hafter⟩ := field_append_inj '|' _ _ _ _ (hbar name field hfield)
        (hbar name' field' hfield') (stops_cons '|' _) (stops_cons '|' _)
        (append_cancel_left heq)
      obtain ⟨hops, hvalue⟩ := field_append_inj '|' _ _ _ _ (operatorText_bar op)
        (operatorText_bar op') (stops_cons '|' _) (stops_cons '|' _) (List.cons.inj hafter).2
      cases String.toList_injective hnames
      cases operatorText_injective hops
      obtain ⟨rfl, hxy⟩ := encodeValue_append_inj loc op field.Type field'.Type v v' x y hv hv'
        (by simpa [FilterCommaFree, leaves] using hfree)
        (by simpa [FilterCommaFree, leaves] using hfree') hx hy (List.cons.inj hvalue).2
      exact ⟨rfl, hxy⟩
  | and subs hne hsubs ih =>
    rw [encode_and hne] at heq
    cases h' with
    | clause name' op' field' v' hfield' hv' =>
      exact nomatch heq.trans (encode_clause m hname op' v' hfield' _)
    | or subs' hne' _ => exact nomatch heq.trans (encode_or hne' _)
    | and subs' hne' hsubs' =>
      rw [encode_and hne'] at heq
      rw [filterCommaFree_and] at hfree hfree'
      obtain ⟨rfl, hxy⟩ := separated_append_inj ',' ')' encodeFilter subs subs' x y
        (fun a ha b hb u w hu hw => ih a ha b (hsubs' b hb) (hfree a ha) (hfree' b hb) u w hu hw)
        (fun a ha => encodeFilter_opens loc m hname (hsubs a ha))
        (fun b hb => encodeFilter_opens loc m hname (hsubs' b hb)) (append_cancel_left heq)
      exact ⟨rfl, hxy⟩
  | or subs hne hsubs ih =>
    rw [encode_or hne] at heq
    cases h' with
    | clause name' op' field' v' hfield' hv' =>
      exact nomatch heq.trans (encode_clause m hname op' v' hfield' _)
    | and subs' hne' _ => exact nomatch heq.trans (encode_and hne' _)
    | or subs' hne' hsubs' =>
      rw [encode_or hne'] at heq
      rw [filterCommaFree_or] at hfree hfree'
      obtain ⟨rfl, hxy⟩ := separated_append_inj ',' ')' encodeFilter subs subs' x y
        (fun a ha b hb u w hu hw => ih a ha b (hsubs' b hb) (hfree a ha) (hfree' b hb) u w hu hw)
        (fun a ha => encodeFilter_opens loc m hname (hsubs a ha))
        (fun b hb => encodeFilter_opens loc m hname (hsubs' b hb)) (append_cancel_left heq)
      exact ⟨rfl, hxy⟩

end Reading

/-- What the order allow-list makes of a sort field. -/
def Sortable (set : List String) (of : OrderField) : Prop :=
  of.Field ≠ "" ∧ of.Field ∈ set ∧ of = ⟨of.Field, none, none, [], of.Desc⟩

theorem encodeField_append (of : OrderField) (x : List Char) :
    encodeField of ++ x = of.Field.toList ++ '|' ::
      ((if of.Desc then "desc;" else "asc;").toList ++ x) := by
  unfold encodeField
  cases of.Desc <;> simp

theorem field_ne_bar {name : String} (hne : name ≠ "") (hbar : '|' ∉ name.toList)
    (x y : List Char) :
    name.toList ++ x ≠ '|' :: y := by
  cases hchars : name.toList with
  | nil => exact absurd (String.toList_injective (hchars.trans (by decide))) hne
  | cons c rest =>
    rw [hchars] at hbar
    intro heq
    exact hbar ((List.cons.inj heq).1 ▸ mem_cons_self)

theorem direction_append_inj (a b : Bool) (x y : List Char)
    (h : (if a then "desc;" else "asc;").toList ++ x =
      (if b then "desc;" else "asc;").toList ++ y) :
    a = b ∧ x = y := by
  cases a <;> cases b
  · exact ⟨rfl, append_cancel_left h⟩
  · exact nomatch h
  · exact nomatch h
  · exact ⟨rfl, append_cancel_left h⟩

theorem encodeSort_append_inj (set : List String) (hset : ∀ name ∈ set, '|' ∉ name.toList)
    (sort sort' : List OrderField) (h : ∀ of ∈ sort, Sortable set of)
    (h' : ∀ of ∈ sort', Sortable set of) (x y : List Char)
    (heq : sort.flatMap encodeField ++ ("|filter:".toList ++ x) =
      sort'.flatMap encodeField ++ ("|filter:".toList ++ y)) : sort = sort' ∧ x = y := by
  have hstart (of : OrderField) (hof : Sortable set of) (rest u v : List Char) :
      encodeField of ++ rest ++ u ≠ "|filter:".toList ++ v := by
    rw [append_assoc, encodeField_append]
    exact field_ne_bar hof.1 (hset _ hof.2.1) _ _
  induction sort generalizing sort' with
  | nil =>
    cases sort' with
    | nil => exact ⟨rfl, append_cancel_left heq⟩
    | cons of' rest' => exact absurd heq.symm (hstart of' (h' of' mem_cons_self) _ _ _)
  | cons of rest ih =>
    cases sort' with
    | nil => exact absurd heq (hstart of (h of mem_cons_self) _ _ _)
    | cons of' rest' =>
      have hof := h of mem_cons_self
      have hof' := h' of' mem_cons_self
      rw [flatMap_cons, flatMap_cons, append_assoc, append_assoc,
        encodeField_append, encodeField_append] at heq
      obtain ⟨hfield, hafter⟩ := field_append_inj '|' _ _ _ _ (hset _ hof.2.1) (hset _ hof'.2.1)
        (stops_cons '|' _) (stops_cons '|' _) heq
      obtain ⟨hdesc, htail⟩ := direction_append_inj of.Desc of'.Desc _ _ (List.cons.inj hafter).2
      obtain ⟨hrest, hxy⟩ := ih rest' (fun g hg => h g (mem_cons_of_mem _ hg))
        (fun g hg => h' g (mem_cons_of_mem _ hg)) htail
      rw [hof.2.2, hof'.2.2, String.toList_injective hfield, hdesc, hrest]
      exact ⟨rfl, hxy⟩

structure Request where
  sort : List OrderField
  filter : Filter

/-- A request client input can lead to. -/
def Produced (loc : Location) (m : Map) (set : List String) (r : Request) : Prop :=
  (∃ spec, parseList set spec = r.sort) ∧ ∃ text, parseFilter loc m text = .ok r.filter

/-- Cursors and cached counts of different requests among those considered differ. -/
structure Separates (loc : Location) (sha256 : List UInt8 → List UInt8) (m : Map)
    (set : List String) (considered : Request → Prop) : Prop where
  cursor : ∀ r r', Produced loc m set r → Produced loc m set r' → considered r → considered r' →
    fingerprint sha256 r.sort r.filter = fingerprint sha256 r'.sort r'.filter → r = r'
  count : ∀ r r', Produced loc m set r → Produced loc m set r' → considered r → considered r' →
    filterHash sha256 r.filter = filterHash sha256 r'.filter → r.filter = r'.filter

def NoTextField (m : Map) : Prop :=
  ∀ name field, m.lookup name = some field → field.Type ≠ .string ∧ field.Type ≠ .id

variable {sha256 : List UInt8 → List UInt8} {set : List String} {f : Filter}
  {loc : Location} {m : Map}

theorem encodeFilter_inj (hbar : NoBar m) (hname : NoEmptyName m) {text text' : String}
    {f' : Filter} (h : parseFilter loc m text = .ok f) (h' : parseFilter loc m text' = .ok f')
    (hfree : FilterCommaFree f) (hfree' : FilterCommaFree f')
    (heq : encodeFilter f = encodeFilter f') : f = f' := by
  have hempty (g : Filter) (hg : Parsed loc m g) : encodeFilter g ≠ "()".toList := by
    obtain ⟨rest, hstart | hstart | hstart⟩ := encodeFilter_starts loc m hname hg <;>
    · rw [hstart]
      exact fun h => nomatch h
  rcases parseFilter_parsed h with rfl | hparsed
  · rcases parseFilter_parsed h' with rfl | hparsed'
    · rfl
    · exact absurd heq.symm (hempty f' hparsed')
  · rcases parseFilter_parsed h' with rfl | hparsed'
    · exact absurd heq (hempty f hparsed)
    · exact (encodeFilter_append_inj loc m hbar hname f hparsed f' hparsed' hfree hfree' [] []
        stops_nil stops_nil (by rw [heq])).1

theorem separates_commaFree (loc : Location) (hsha : Function.Injective sha256) (hbar : NoBar m)
    (hset : ∀ name ∈ set, '|' ∉ name.toList) (hname : NoEmptyName m) :
    Separates loc sha256 m set fun r => FilterCommaFree r.filter := by
  have hread (r r' : Request) (hr : Produced loc m set r) (hr' : Produced loc m set r')
      (hfree : FilterCommaFree r.filter) (hfree' : FilterCommaFree r'.filter)
      (heq : encodeFilter r.filter = encodeFilter r'.filter) : r.filter = r'.filter := by
    obtain ⟨text, htext⟩ := hr.2
    obtain ⟨text', htext'⟩ := hr'.2
    exact encodeFilter_inj hbar hname htext htext' hfree hfree' heq
  have hsortable (r : Request) (hr : Produced loc m set r) : ∀ of ∈ r.sort, Sortable set of := by
    obtain ⟨spec, hspec⟩ := hr.1
    rw [← hspec]
    exact fun of hof => parseList_field hof
  constructor
  · intro r r' hr hr' hfree hfree' heq
    have hencode := append_cancel_left (bytes_injective (hsha heq))
    obtain ⟨hsort, hfilter⟩ := encodeSort_append_inj set hset r.sort r'.sort (hsortable r hr)
      (hsortable r' hr') _ _ hencode
    cases r
    cases r'
    cases hsort
    cases hread _ _ hr hr' hfree hfree' hfilter
    rfl
  · intro r r' hr hr' hfree hfree' heq
    have hencode := bytes_injective (hsha (hexBytes_injective heq))
    exact hread r r' hr hr' hfree hfree'
      (append_cancel_left (append_cancel_left hencode))

theorem decodesValue_operand {op : FilterOperator} {ft : FieldType} {v : Value}
    (h : DecodesValue loc op ft v) {w : Scalar} (hw : w ∈ operands v) : Decodes loc ft w := by
  cases v with
  | nil => exact nomatch hw
  | scalar u => exact mem_singleton.mp hw ▸ h.2.2
  | list us => exact h.2 w hw

theorem noText_commaFree (htext : NoTextField m) (h : Parsed loc m f) : FilterCommaFree f := by
  induction h with
  | clause name op field v hfield hv =>
    intro leaf hleaf w hw s hs
    cases mem_singleton.mp hleaf
    have hdecodes := decodesValue_operand hv hw
    obtain ⟨hstring, hid⟩ := htext name field hfield
    rw [hs] at hdecodes
    generalize field.Type = ft at hdecodes hstring hid
    cases hdecodes with
    | string _ => exact absurd rfl hstring
    | id _ => exact absurd rfl hid
  | and subs hne _ ih => exact (filterCommaFree_and subs).mpr ih
  | or subs hne _ ih => exact (filterCommaFree_or subs).mpr ih

theorem parse_blank : parseFilter loc m "" = .ok (.composite [] []) := by
  rw [parseFilter, if_pos (by decide)]

theorem parse_in (loc : Location) (m : Map) (name : String) (field : Field) (items : List Json)
    (vs : List Scalar) (hfield : m.lookup name = some field) (hvalid : ValidItems items)
    (hflat : nestingItems items = 0)
    (hitems : (items.mapM fun item => decodeScalar loc item field.Type) = .ok vs) :
    parseFilter loc m (filterText "$in" (.obj [(name, .arr items)])) =
      .ok (.clause name .opIn (.list vs) none) := by
  rw [parseFilter_filterText]
  · have hclause : parseClause loc m .opIn (.obj [(name, .arr items)]) =
        .ok (.clause name .opIn (.list vs) none) := by
      simp only [parseClause, unmarshalMap, foldl_cons, foldl_nil, setKey, hfield,
        decodeValue, true_or, if_true, unmarshalArray, hitems, lookup_name hfield]
      rfl
    exact hclause
  · exact ⟨hvalid, trivial⟩
  · simp only [Json.nesting, nestingMembers, hflat]
    decide

/-- A list of two texts and the list of one that has their encoding. -/
theorem parse_twoTexts (loc : Location) (m : Map) (name : String) (field : Field)
    (hfield : m.lookup name = some field) (htext : field.Type = .string ∨ field.Type = .id) :
    parseFilter loc m (filterText "$in" (.obj [(name, .arr [.str "a", .str "b"])])) =
        .ok (.clause name .opIn (.list [.str "a", .str "b"]) none) ∧
      parseFilter loc m (filterText "$in" (.obj [(name, .arr [.str "a,str:b"])])) =
        .ok (.clause name .opIn (.list [.str "a,str:b"]) none) := by
  have hdecode (s : String) : decodeScalar loc (.str s) field.Type = .ok (.str s) := by
    rcases htext with htype | htype <;> rw [htype] <;> rfl
  refine ⟨parse_in loc m name field _ _ hfield ⟨trivial, trivial, trivial⟩ rfl ?_,
    parse_in loc m name field _ _ hfield ⟨trivial, trivial⟩ rfl ?_⟩
  · rw [mapM_cons, mapM_cons, hdecode, hdecode]
    rfl
  · rw [mapM_cons, hdecode]
    rfl

theorem twoTexts_encode (name : String) :
    encodeFilter (.clause name .opIn (.list [.str "a", .str "b"]) none) =
      encodeFilter (.clause name .opIn (.list [.str "a,str:b"]) none) := by
  have hvalue : encodeValue (.list [.str "a", .str "b"]) =
      encodeValue (.list [.str "a,str:b"]) := by
    decide
  rw [encodeFilter, encodeFilter, hvalue]

theorem fingerprint_eq_of_encodeFilter (sha256 : List UInt8 → List UInt8) (sort : List OrderField)
    {g : Filter} (h : encodeFilter f = encodeFilter g) :
    fingerprint sha256 sort f = fingerprint sha256 sort g := by
  have hencode : encode sort f = encode sort g :=
    congrArg (fun text =>
      "sort:".toList ++ (sort.flatMap encodeField ++ ("|filter:".toList ++ text))) h
  rw [fingerprint, fingerprint, hencode]

theorem produced_unsorted {text : String} (h : parseFilter loc m text = .ok f) :
    Produced loc m set ⟨[], f⟩ :=
  ⟨⟨"", rfl⟩, text, h⟩

theorem noTextField_of_separates (h : Separates loc sha256 m set fun _ => True) :
    NoTextField m := by
  intro name field hfield
  by_contra hnot
  have htext : field.Type = .string ∨ field.Type = .id := by
    by_contra hother
    exact hnot (not_or.mp hother)
  obtain ⟨htwo, hone⟩ := parse_twoTexts loc m name field hfield htext
  have heq := h.cursor _ _ (produced_unsorted htwo) (produced_unsorted hone) trivial trivial
    (fingerprint_eq_of_encodeFilter sha256 [] (twoTexts_encode name))
  simp at heq

theorem noEmptyName_of_separates (h : Separates loc sha256 m set fun _ => True) :
    NoEmptyName m := by
  rintro name field hfield rfl
  have hnothing := parse_in loc m "" field [] [] hfield trivial rfl rfl
  have heq := h.cursor _ _ (produced_unsorted hnothing)
    (produced_unsorted parse_blank) trivial trivial rfl
  simp at heq

/-- For every allow-list of names without bars: cursors and cached counts tell apart all
requests that clients can make exactly when no field is of text and none is without a
name; they always tell apart requests whose texts are free of commas. -/
theorem fingerprint_separates (loc : Location) (sha256 : List UInt8 → List UInt8)
    (hsha : Function.Injective sha256) (m : Map) (set : List String) (hbar : NoBar m)
    (hset : ∀ name ∈ set, '|' ∉ name.toList) :
    ((Separates loc sha256 m set fun _ => True) ↔ NoTextField m ∧ NoEmptyName m) ∧
      (NoEmptyName m → Separates loc sha256 m set fun r => FilterCommaFree r.filter) := by
  refine ⟨⟨fun h => ⟨noTextField_of_separates h,
    noEmptyName_of_separates h⟩, ?_⟩,
    separates_commaFree loc hsha hbar hset⟩
  rintro ⟨htext, hname⟩
  have hfree (r : Request) (hr : Produced loc m set r) : FilterCommaFree r.filter := by
    obtain ⟨text, hparse⟩ := hr.2
    rcases parseFilter_parsed hparse with hempty | hparsed
    · rw [hempty]
      exact (filterCommaFree_and []).mpr fun _ hsub => nomatch hsub
    · exact noText_commaFree htext hparsed
  have hseparates := separates_commaFree loc hsha hbar hset hname
  exact ⟨fun r r' hr hr' _ _ => hseparates.cursor r r' hr hr' (hfree r hr) (hfree r' hr'),
    fun r r' hr hr' _ _ => hseparates.count r r' hr hr' (hfree r hr) (hfree r' hr')⟩

def fileFields : Map := ⟨[⟨none, "name", "title", [], .string⟩, ⟨none, "size", "size", [], .int⟩]⟩

theorem fileFields_names {name : String} {field : Field} (h : fileFields.lookup name = some field) :
    name = "size" ∨ name = "name" := by
  rw [← lookup_name h]
  have hmem := mem_of_find?_eq_some h
  simp only [fileFields, reverse_cons, reverse_nil, nil_append, cons_append,
    mem_cons, not_mem_nil, or_false] at hmem
  rcases hmem with rfl | rfl
  · exact Or.inl rfl
  · exact Or.inr rfl

theorem fileFields_bar : NoBar fileFields := by
  intro name field h
  rcases fileFields_names h with rfl | rfl <;> decide

/-- With the identity for the hash, whose outputs never collide. -/
theorem fileFields_separates : Function.Injective (id : List UInt8 → List UInt8) ∧
    NoBar fileFields ∧ (∀ name ∈ ["size"], '|' ∉ name.toList) ∧
    ((Separates utc id fileFields ["size"] fun _ => True) ↔
        NoTextField fileFields ∧ NoEmptyName fileFields) ∧
      (NoEmptyName fileFields →
        Separates utc id fileFields ["size"] fun r => FilterCommaFree r.filter) :=
  ⟨Function.injective_id, fileFields_bar, by decide,
    fingerprint_separates utc id Function.injective_id fileFields ["size"] fileFields_bar
      (by decide)⟩

/-- Two names and the one name with their encoding: one fingerprint, one cached count. -/
theorem twoNames_collide :
    parseFilter utc fileFields (filterText "$in" (.obj [("name", .arr [.str "a", .str "b"])])) =
        .ok (.clause "name" .opIn (.list [.str "a", .str "b"]) none) ∧
      parseFilter utc fileFields (filterText "$in" (.obj [("name", .arr [.str "a,str:b"])])) =
        .ok (.clause "name" .opIn (.list [.str "a,str:b"]) none) ∧
      Filter.clause "name" .opIn (.list [.str "a", .str "b"]) none ≠
        .clause "name" .opIn (.list [.str "a,str:b"]) none ∧
      ∀ sha256, fingerprint sha256 [] (.clause "name" .opIn (.list [.str "a", .str "b"]) none) =
          fingerprint sha256 [] (.clause "name" .opIn (.list [.str "a,str:b"]) none) ∧
        filterHash sha256 (.clause "name" .opIn (.list [.str "a", .str "b"]) none) =
          filterHash sha256 (.clause "name" .opIn (.list [.str "a,str:b"]) none) := by
  obtain ⟨htwo, hone⟩ := parse_twoTexts utc fileFields "name" ⟨none, "name", "title", [], .string⟩
    (by decide) (Or.inl rfl)
  refine ⟨htwo, hone, by simp, fun sha256 => ?_⟩
  have hsame := fingerprint_eq_of_encodeFilter sha256 [] (twoTexts_encode "name")
  exact ⟨hsame, by rw [filterHash, filterHash, hsame]⟩

end KnowledgeEngine.FingerprintReading
