import KnowledgeEngine.JsonApi

/-!
The unwrapped body of a JSON:API write request against the document it comes from. The body goes
through untyped values, so a number of the attributes is read as a float64 and its shortest
decimal is written.
-/

namespace KnowledgeEngine.JsonApiRequest

open FloatText JsonAny JsonApi JsonFloat JsonMeaning JsonNumber JsonReading JsonText StringText

/-- The attributes of a document of the resource type, with the id of the data as a last member
when it has one. -/
def attributesOf (resourceType : String) : Json → Option Json
  | .obj members =>
    match lastMember "data" members with
    | some (.obj data) =>
      match lastMember "type" data, lastMember "attributes" data with
      | some (.str typ), some (.obj attrs) =>
        if typ = resourceType then
          match lastMember "id" data with
          | some id => some (.obj (attrs ++ [("id", id)]))
          | none => some (.obj attrs)
        else none
      | _, _ => none
    | _ => none
  | _ => none

/-- The parts of a document. -/
structure Document (resourceType : String) (doc want : Json) where
  members : List (String × Json)
  data : List (String × Json)
  attrs : List (String × Json)
  doc_eq : doc = .obj members
  data_eq : lastMember "data" members = some (.obj data)
  type_eq : lastMember "type" data = some (.str resourceType)
  attrs_eq : lastMember "attributes" data = some (.obj attrs)
  want_eq : want = .obj (attrs ++ ((lastMember "id" data).map fun id => ("id", id)).toList)

variable {resourceType : String} {doc want : Json} {members : List (String × Json)}

theorem document_of_attributesOf (h : attributesOf resourceType doc = some want) :
    Nonempty (Document resourceType doc want) := by
  unfold attributesOf at h
  split at h <;> try cases h
  next members =>
  split at h <;> try cases h
  next data hdata =>
  split at h <;> try cases h
  next typ attrs htype hattrs =>
  obtain ⟨rfl, hwant⟩ := Option.ite_none_right_eq_some.mp h
  refine ⟨⟨members, data, attrs, rfl, hdata, htype, hattrs, ?_⟩⟩
  cases hid : lastMember "id" data with
  | some id =>
    rw [hid] at hwant
    exact (Option.some.inj hwant).symm
  | none =>
    rw [hid] at hwant
    rw [← Option.some.inj hwant, Option.map_none, Option.toList_none, List.append_nil]

/-- The last member of a name is what a lookup in the decoded map gives. -/
theorem lookup_last {entries : List (String × Any)} (hdecode : decodeInto [] members = some entries)
    {name : String} {value : Json} (hlast : lastMember name members = some value) :
    ∃ v, decode value = some v ∧ entries.lookup name = some v := by
  have hlookup := lookup_decodeInto hdecode name
  rw [hlast] at hlookup
  have hsome := (decodeInto_isSome_iff [] members).mp (by rw [hdecode]; rfl) _
    (lastMember_mem hlast)
  obtain ⟨v, hv⟩ := Option.isSome_iff_exists.mp hsome
  exact ⟨v, hv, hlookup.trans hv⟩

theorem lookup_last_obj {inner : List (String × Json)} {entries : List (String × Any)}
    (hdecode : decodeInto [] members = some entries) {name : String}
    (hlast : lastMember name members = some (.obj inner)) :
    ∃ innerEntries, decodeInto [] inner = some innerEntries ∧
      entries.lookup name = some (.map innerEntries) := by
  obtain ⟨v, hv, hlookup⟩ := lookup_last hdecode hlast
  obtain ⟨innerEntries, hinner, rfl⟩ := Option.map_eq_some_iff.mp hv
  exact ⟨innerEntries, hinner, hlookup⟩

/-- A document that can be read is unwrapped to its attributes. -/
theorem unwrap_eq {body : List UInt8} (hbody : body ≠ [])
    (hparse : parse (utf8Decode body) = some doc) (hdecode : (decode doc).isSome)
    (h : Document resourceType doc want) :
    ∃ attrs, decode want = some (.map attrs) ∧
      unwrapAndValidate body resourceType = (marshal (.map attrs)).elim
        (.error "could not encode request attributes") .ok := by
  obtain ⟨v, hv⟩ := Option.isSome_iff_exists.mp hdecode
  rw [h.doc_eq] at hv
  obtain ⟨parsed, hparsed, rfl⟩ := Option.map_eq_some_iff.mp hv
  obtain ⟨data, hdata, hdataLookup⟩ := lookup_last_obj hparsed h.data_eq
  obtain ⟨typ, htyp, htypeLookup⟩ := lookup_last hdata h.type_eq
  obtain rfl := Option.some.inj htyp
  obtain ⟨attrs, hattrs, hattrsLookup⟩ := lookup_last_obj hdata h.attrs_eq
  have hunmarshal : unmarshalMap body = some parsed := by
    rw [unmarshalMap, hparse, h.doc_eq]
    exact hparsed
  cases hid : lastMember "id" h.data with
  | none =>
    have hidLookup : data.lookup "id" = none := by
      rw [lookup_decodeInto hdata, hid]
      rfl
    refine ⟨attrs, ?_, ?_⟩
    · rw [h.want_eq, hid, Option.map_none, Option.toList_none, List.append_nil, decode, hattrs,
        Option.map_some]
    · simp only [unwrapAndValidate, hbody, hunmarshal, hdataLookup, htypeLookup, hattrsLookup,
        hidLookup, if_false, ne_eq, not_true_eq_false]
      cases marshal (.map attrs) <;> rfl
  | some id =>
    obtain ⟨v, hv, hidLookup⟩ := lookup_last hdata hid
    refine ⟨assign attrs "id" v, ?_, ?_⟩
    · rw [h.want_eq, hid, Option.map_some, Option.toList_some, decode, decodeInto_append, hattrs,
        Option.bind_some, decodeInto, hv]
      rfl
    · simp only [unwrapAndValidate, hbody, hunmarshal, hdataLookup, htypeLookup, hattrsLookup,
        hidLookup, if_false, ne_eq, not_true_eq_false]
      cases marshal (.map (assign attrs "id" v)) <;> rfl

theorem Document.valid (h : Document resourceType doc want) (hvalid : doc.Valid) : want.Valid := by
  rw [h.doc_eq] at hvalid
  have hdata : ValidMembers h.data := validMembers_iff.mp hvalid _ (lastMember_mem h.data_eq)
  have hattrs : ValidMembers h.attrs := validMembers_iff.mp hdata _ (lastMember_mem h.attrs_eq)
  rw [h.want_eq]
  refine validMembers_iff.mpr fun m hm => ?_
  rcases List.mem_append.mp hm with hm | hm
  · exact validMembers_iff.mp hattrs m hm
  · rw [Option.mem_toList] at hm
    obtain ⟨id, hid, rfl⟩ := Option.map_eq_some_iff.mp hm
    exact validMembers_iff.mp hdata _ (lastMember_mem hid)

/-- A body that is unwrapped could be read. -/
theorem read_of_unwrap {body out : List UInt8} (hobj : doc = .obj members)
    (hdoc : Spells (utf8Decode body) doc) (h : unwrapAndValidate body resourceType = .ok out) :
    doc.nesting ≤ maxNestingDepth ∧ (decode doc).isSome := by
  subst hobj
  have hunmarshal : unmarshalMap body ≠ none := by
    intro hnone
    rw [unwrapAndValidate, hnone] at h
    split at h <;> cases h
  rw [unmarshalMap] at hunmarshal
  cases hparse : parse (utf8Decode body) with
  | none =>
    rw [hparse] at hunmarshal
    exact absurd rfl hunmarshal
  | some doc =>
    obtain ⟨hspells, hnesting⟩ := parse_eq_some_iff.mp hparse
    obtain rfl := hspells.unique hdoc
    rw [hparse] at hunmarshal
    refine ⟨hnesting, ?_⟩
    rw [decode, Option.isSome_map]
    exact Option.isSome_iff_ne_none.mpr hunmarshal

/-- When the unwrapped body denotes the attributes of the document. -/
theorem unwrap_exact_iff (body : List UInt8) (resourceType : String) (doc want : Json)
    (hdoc : Spells (utf8Decode body) doc) (hwant : attributesOf resourceType doc = some want) :
    (∃ out result, unwrapAndValidate body resourceType = .ok out ∧
        Spells (utf8Decode out) result ∧ denote result = denote want) ↔
      doc.nesting ≤ maxNestingDepth ∧ (∀ literal, Occurs literal doc → Fits (unsigned literal)) ∧
        ∀ literal, Counts literal want → Kept literal := by
  obtain ⟨h⟩ := document_of_attributesOf hwant
  have hvalid := hdoc.valid
  have hbody : body ≠ [] := by
    rintro rfl
    exact hdoc.ne_nil rfl
  have hfits : (∀ literal, Occurs literal doc → Fits (unsigned literal)) ↔ (decode doc).isSome := by
    rw [decode_isSome_iff]
    exact forall₂_congr fun literal hoccurs =>
      (parseFloat_isSome_iff (hoccurs.validNumber hvalid)).symm
  rw [hfits]
  have hwritten : doc.nesting ≤ maxNestingDepth → (decode doc).isSome → ∃ j,
      unwrapAndValidate body resourceType = .ok (utf8Encode (print j)) ∧ Written want j := by
    intro hnesting hdecode
    obtain ⟨attrs, hattrs, hunwrap⟩ := unwrap_eq hbody
      (parse_eq_some_iff.mpr ⟨hdoc, hnesting⟩) hdecode h
    obtain ⟨j, hj, hwritten⟩ := exists_written (h.valid hvalid) _ hattrs
    refine ⟨j, ?_, hwritten⟩
    rw [hunwrap, marshal, hj, Option.map_some, Option.elim_some]
  constructor
  · rintro ⟨out, result, hout, hspells, hsame⟩
    have hread := read_of_unwrap h.doc_eq hdoc hout
    obtain ⟨j, hj, hw⟩ := hwritten hread.1 hread.2
    rw [hout] at hj
    rw [Except.ok.inj hj, utf8Decode_utf8Encode] at hspells
    obtain rfl := hspells.unique (spells_print j hw.valid)
    exact ⟨hread.1, hread.2, hw.same.mp hsame⟩
  · rintro ⟨hnesting, hdecode, hkept⟩
    obtain ⟨j, hj, hw⟩ := hwritten hnesting hdecode
    refine ⟨_, j, hj, ?_, hw.same.mpr hkept⟩
    rw [utf8Decode_utf8Encode]
    exact spells_print j hw.valid

/-- A document with the id 7 and one number, a half. -/
def smallDocument : Json :=
  .obj [("data", .obj [("type", .str "users"), ("id", .str "7"),
    ("attributes", .obj [("score", .num "0.5".toList)])])]

theorem kept_half : Kept "0.5".toList := by
  have hread : parseFloat "0.5".toList = some 0x3FE0000000000000 := by decide +kernel
  have hwrite : goFloat 0x3FE0000000000000 = some "0.5".toList := by decide +kernel
  exact (decimalValue_goFloat_iff (by decide) hread hwrite).mp rfl

theorem unwrap_small_document :
    ∃ out result, unwrapAndValidate (utf8Encode (print smallDocument)) "users" = .ok out ∧
      Spells (utf8Decode out) result ∧
      denote result = denote (.obj [("score", .num "0.5".toList), ("id", .str "7")]) := by
  have hvalid : smallDocument.Valid := by
    refine ⟨⟨trivial, trivial, ⟨⟨by decide, ?_⟩, trivial⟩, trivial⟩, trivial⟩
    exact List.all_eq_true.mp rfl
  have honly : ∀ literal, Occurs literal smallDocument → literal = "0.5".toList := by
    intro literal h
    obtain _ | _ | ⟨hdata, h⟩ := h
    obtain rfl := List.mem_singleton.mp hdata
    obtain _ | _ | ⟨hmember, h⟩ := h
    simp only [List.mem_cons, List.not_mem_nil, or_false] at hmember
    obtain rfl | rfl | rfl := hmember
    · cases h
    · cases h
    · obtain _ | _ | ⟨hscore, h⟩ := h
      obtain rfl := List.mem_singleton.mp hscore
      cases h
      rfl
  refine (unwrap_exact_iff _ "users" smallDocument _ ?_ rfl).mpr ⟨by decide, ?_, ?_⟩
  · rw [utf8Decode_utf8Encode]
    exact spells_print _ hvalid
  · intro literal h
    rw [honly literal h]
    exact (parseFloat_isSome_iff (by decide)).mp (by decide +kernel)
  · intro literal h
    obtain _ | _ | ⟨hlast, h⟩ := h
    rcases List.mem_append.mp (lastMember_mem hlast) with hscore | hid
    · obtain rfl := (Prod.mk.inj (List.mem_singleton.mp hscore)).2
      cases h
      exact kept_half
    · obtain rfl := (Prod.mk.inj (List.mem_singleton.mp hid)).2
      cases h

theorem large_integer_changes :
    (unwrapAndValidate (bytesOf ("\x7b\"data\":\x7b\"type\":\"users\",\"attributes\":" ++
        "\x7b\"n\":9007199254740993\x7d\x7d\x7d")) "users").toOption =
      some (bytesOf "\x7b\"n\":9007199254740992\x7d") ∧
    decimalValue "9007199254740993".toList ≠ decimalValue "9007199254740992".toList := by
  constructor <;> decide +kernel

end KnowledgeEngine.JsonApiRequest
