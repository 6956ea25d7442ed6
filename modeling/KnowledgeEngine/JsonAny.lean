import KnowledgeEngine.JsonDecode
import KnowledgeEngine.StringText
import KnowledgeEngine.Transitions

/-!
Untyped values of encoding/json. A number is read as the nearest float64 and fails out of range;
the members of an object are set one after the other in a map, and a map is written in the order
of its keys. A value that is read and written denotes the same exactly when its numbers are
shortest decimals.
-/

namespace KnowledgeEngine.JsonAny

open FloatText JsonFloat JsonMeaning JsonNumber JsonText StringText Traversals

/-- A value of type any: nil, bool, float64, string, []any or map[string]any. -/
inductive Any
  | nil
  | bool (b : Bool)
  | float (bits : BitVec 64)
  | str (s : String)
  | slice (items : List Any)
  | map (entries : List (String × Any))

def assign (entries : List (String × Any)) (key : String) (v : Any) : List (String × Any) :=
  (key, v) :: entries.filter fun e => e.1 ≠ key

mutual

def decode : Json → Option Any
  | .null => some .nil
  | .bool b => some (.bool b)
  | .num literal => (parseFloat literal).map .float
  | .str s => some (.str s)
  | .arr items => (decodeItems items).map .slice
  | .obj members => (decodeInto [] members).map .map

def decodeItems : List Json → Option (List Any)
  | [] => some []
  | item :: items =>
    match decode item with
    | some v => (decodeItems items).map (v :: ·)
    | none => none

/-- The members set in a map that has entries already. -/
def decodeInto (entries : List (String × Any)) :
    List (String × Json) → Option (List (String × Any))
  | [] => some entries
  | (key, value) :: members =>
    match decode value with
    | some v => decodeInto (assign entries key v) members
    | none => none

end

def sortMembers (members : List (String × Json)) : List (String × Json) :=
  members.insertionSort fun a b => ¬ utf8Encode b.1.toList < utf8Encode a.1.toList

mutual

def encode : Any → Option Json
  | .nil => some .null
  | .bool b => some (.bool b)
  | .float bits => (goFloat bits).map .num
  | .str s => some (.str s)
  | .slice items => (encodeItems items).map .arr
  | .map entries => (encodeEntries entries).map fun members => .obj (sortMembers members)

def encodeItems : List Any → Option (List Json)
  | [] => some []
  | item :: items =>
    match encode item with
    | some j => (encodeItems items).map (j :: ·)
    | none => none

def encodeEntries : List (String × Any) → Option (List (String × Json))
  | [] => some []
  | (key, v) :: entries =>
    match encode v with
    | some j => (encodeEntries entries).map ((key, j) :: ·)
    | none => none

end

/-- json.Unmarshal into a nil map[string]any. -/
def unmarshalMap (bytes : List UInt8) : Option (List (String × Any)) :=
  match parse (utf8Decode bytes) with
  | some .null => some []
  | some (.obj members) => decodeInto [] members
  | _ => none

/-- json.Marshal. -/
def marshal (v : Any) : Option (List UInt8) := (encode v).map fun j => utf8Encode (print j)

variable {entries : List (String × Any)} {name : String}

theorem lookup_filter {key : String} (h : name ≠ key) :
    (entries.filter fun e => e.1 ≠ key).lookup name = entries.lookup name := by
  induction entries with
  | nil => rfl
  | cons e entries ih =>
    obtain ⟨other, v⟩ := e
    by_cases hother : other = key
    · have hname : (name == other) = false := beq_false_of_ne (hother ▸ h)
      rw [List.filter_cons_of_neg (by simpa using hother), ih, List.lookup_cons, hname]
    · rw [List.filter_cons_of_pos (by simpa using hother), List.lookup_cons, List.lookup_cons, ih]

theorem lookup_assign (entries : List (String × Any)) (key name : String) (v : Any) :
    (assign entries key v).lookup name = if key = name then some v else entries.lookup name := by
  rw [assign, List.lookup_cons]
  by_cases hkey : key = name
  · simp [hkey]
  · rw [if_neg hkey, beq_false_of_ne (Ne.symm hkey), lookup_filter (Ne.symm hkey)]

theorem nodup_assign (h : (entries.map Prod.fst).Nodup) (key : String) (v : Any) :
    ((assign entries key v).map Prod.fst).Nodup := by
  rw [assign, List.map_cons, List.nodup_cons]
  constructor
  · intro hmem
    obtain ⟨e, he, hkey⟩ := List.mem_map.mp hmem
    exact absurd hkey (by simpa using (List.mem_filter.mp he).2)
  · exact h.sublist (List.filter_sublist.map Prod.fst)

theorem mem_iff_lookup (h : (entries.map Prod.fst).Nodup) {v : Any} :
    (name, v) ∈ entries ↔ entries.lookup name = some v := by
  induction entries with
  | nil => simp
  | cons e entries ih =>
    obtain ⟨key, other⟩ := e
    rw [List.map_cons, List.nodup_cons] at h
    rw [List.mem_cons, List.lookup_cons]
    by_cases hkey : name = key
    · subst hkey
      have habsent : (name, v) ∉ entries := fun hmem =>
        h.1 (List.mem_map.mpr ⟨_, hmem, rfl⟩)
      simp [habsent, eq_comm]
    · rw [beq_false_of_ne hkey]
      simp [hkey, ih h.2]

variable {result : List (String × Any)} {members : List (String × Json)}

theorem decodeInto_cons {key : String} {value : Json} :
    decodeInto entries ((key, value) :: members) = some result ↔
      ∃ v, decode value = some v ∧ decodeInto (assign entries key v) members = some result := by
  rw [decodeInto]
  cases decode value <;> simp

/-- Of the members of one name the last one stays. -/
theorem lookup_decodeInto (h : decodeInto entries members = some result) (name : String) :
    result.lookup name = match lastMember name members with
      | some value => decode value
      | none => entries.lookup name := by
  induction members generalizing entries with
  | nil =>
    rw [decodeInto] at h
    rw [Option.some.inj h]
    rfl
  | cons m members ih =>
    obtain ⟨key, value⟩ := m
    obtain ⟨v, hvalue, h⟩ := decodeInto_cons.mp h
    rw [ih h, lastMember]
    cases lastMember name members with
    | some last => rfl
    | none =>
      dsimp only
      rw [lookup_assign]
      by_cases hkey : key = name
      · rw [if_pos hkey, if_pos hkey]
        exact hvalue.symm
      · rw [if_neg hkey, if_neg hkey]

theorem nodup_decodeInto (hnodup : (entries.map Prod.fst).Nodup)
    (h : decodeInto entries members = some result) : (result.map Prod.fst).Nodup := by
  induction members generalizing entries with
  | nil =>
    rw [decodeInto] at h
    rwa [← Option.some.inj h]
  | cons m members ih =>
    obtain ⟨v, -, h⟩ := decodeInto_cons.mp h
    exact ih (nodup_assign hnodup m.1 v) h

theorem decodeInto_append (entries : List (String × Any)) (first second : List (String × Json)) :
    decodeInto entries (first ++ second) =
      (decodeInto entries first).bind fun middle => decodeInto middle second := by
  induction first generalizing entries with
  | nil => simp [decodeInto]
  | cons m first ih =>
    obtain ⟨key, value⟩ := m
    rw [List.cons_append, decodeInto, decodeInto]
    cases decode value with
    | none => rfl
    | some v => exact ih _

theorem decodeInto_isSome_iff (entries : List (String × Any)) (members : List (String × Json)) :
    (decodeInto entries members).isSome ↔ ∀ m ∈ members, (decode m.2).isSome := by
  induction members generalizing entries with
  | nil => simp [decodeInto]
  | cons m members ih =>
    obtain ⟨key, value⟩ := m
    rw [decodeInto, List.forall_mem_cons]
    cases decode value with
    | none => simp
    | some v => simpa using ih _

theorem decodeItems_eq (items : List Json) : decodeItems items = items.mapM decode := by
  induction items with
  | nil => rfl
  | cons item items ih =>
    rw [decodeItems, List.mapM_cons, ih]
    cases decode item <;> cases items.mapM decode <;> rfl

theorem encodeItems_eq (items : List Any) : encodeItems items = items.mapM encode := by
  induction items with
  | nil => rfl
  | cons item items ih =>
    rw [encodeItems, List.mapM_cons, ih]
    cases encode item <;> cases items.mapM encode <;> rfl

def encodeEntry (e : String × Any) : Option (String × Json) := (encode e.2).map (Prod.mk e.1)

theorem encodeEntries_eq (entries : List (String × Any)) :
    encodeEntries entries = entries.mapM encodeEntry := by
  induction entries with
  | nil => rfl
  | cons e entries ih =>
    rw [encodeEntries, List.mapM_cons, ih, encodeEntry]
    cases encode e.2 <;> cases entries.mapM encodeEntry <;> rfl

/-- A value is read if all its numbers are. -/
theorem decode_isSome_iff (j : Json) :
    (decode j).isSome ↔ ∀ literal, Occurs literal j → (parseFloat literal).isSome := by
  induction j using json_of_parts with
  | null | bool | str => exact ⟨fun _ _ h => (nomatch h), fun _ => rfl⟩
  | num literal =>
    rw [decode, Option.isSome_map]
    constructor
    · rintro h _ ⟨⟩
      exact h
    · exact fun h => h literal .num
  | arr items ih =>
    rw [decode, Option.isSome_map, decodeItems_eq, mapM_isSome_iff]
    constructor
    · rintro h literal (_ | ⟨hitem, hoccurs⟩)
      exact (ih _ hitem).mp (h _ hitem) literal hoccurs
    · exact fun h item hitem => (ih item hitem).mpr fun literal hoccurs =>
        h literal (.arr hitem hoccurs)
  | obj members ih =>
    rw [decode, Option.isSome_map, decodeInto_isSome_iff]
    constructor
    · rintro h literal (_ | _ | ⟨hm, hoccurs⟩)
      exact (ih _ hm).mp (h _ hm) literal hoccurs
    · exact fun h m hm => (ih m hm).mpr fun literal hoccurs => h literal (.obj hm hoccurs)

theorem sortMembers_perm : (sortMembers members).Perm members :=
  List.perm_insertionSort _ _

theorem lastMember_sortMembers (h : (members.map Prod.fst).Nodup) (name : String) :
    lastMember name (sortMembers members) = lastMember name members :=
  (lastMember_perm h sortMembers_perm.symm).symm

theorem keys_encodeEntries (h : encodeEntries entries = some members) :
    members.map Prod.fst = entries.map Prod.fst := by
  rw [encodeEntries_eq] at h
  induction mapM_some_iff.mp h with
  | nil => rfl
  | cons hfirst hrest ih =>
    obtain ⟨j, -, rfl⟩ := Option.map_eq_some_iff.mp hfirst
    rw [List.map_cons, List.map_cons, ih (mapM_some_iff.mpr hrest)]

theorem mem_encodeEntries (h : encodeEntries entries = some members) (name : String) (j : Json) :
    (name, j) ∈ members ↔ ∃ v, (name, v) ∈ entries ∧ encode v = some j := by
  rw [encodeEntries_eq] at h
  simp [mem_of_mapM h, encodeEntry, ← and_assoc, and_right_comm]

theorem encode_slice_isSome_iff {items : List Any} :
    (encode (.slice items)).isSome ↔ ∀ item ∈ items, (encode item).isSome := by
  rw [encode, Option.isSome_map, encodeItems_eq, mapM_isSome_iff]

theorem encode_map_isSome_iff (entries : List (String × Any)) :
    (encode (.map entries)).isSome ↔ ∀ e ∈ entries, (encode e.2).isSome := by
  simp only [encode, Option.isSome_map, encodeEntries_eq, mapM_isSome_iff, encodeEntry]

theorem valid_sortMembers (h : ValidMembers members) : ValidMembers (sortMembers members) :=
  validMembers_iff.mpr fun m hm => validMembers_iff.mp h m (sortMembers_perm.mem_iff.mp hm)

theorem any_of_parts {P : Any → Prop} (nil : P .nil) (bool : ∀ b, P (.bool b))
    (float : ∀ bits, P (.float bits)) (str : ∀ s, P (.str s))
    (slice : ∀ items, (∀ item ∈ items, P item) → P (.slice items))
    (map : ∀ entries : List (String × Any), (∀ e ∈ entries, P e.2) → P (.map entries))
    (v : Any) : P v :=
  @Any.rec P (fun items => ∀ item ∈ items, P item) (fun entries => ∀ e ∈ entries, P e.2)
    (fun e => P e.2) nil bool float str slice map (by simp)
    (fun _ _ h hs => List.forall_mem_cons.mpr ⟨h, hs⟩) (by simp)
    (fun _ _ h hs => List.forall_mem_cons.mpr ⟨h, hs⟩) (fun _ _ h => h) v

/-- What is written is JSON. -/
theorem valid_encode (v : Any) : ∀ j, encode v = some j → j.Valid := by
  induction v using any_of_parts with
  | nil | bool | str =>
    intro j h
    obtain rfl := Option.some.inj h
    trivial
  | float bits =>
    intro j h
    obtain ⟨text, htext, rfl⟩ := Option.map_eq_some_iff.mp h
    exact goFloat_literal htext
  | slice items ih =>
    intro j h
    obtain ⟨js, hjs, rfl⟩ := Option.map_eq_some_iff.mp h
    refine validItems_iff.mpr fun j hj => ?_
    obtain ⟨item, hitem, hencode⟩ := (mem_of_mapM (encodeItems_eq items ▸ hjs)).mp hj
    exact ih item hitem j hencode
  | map entries ih =>
    intro j h
    obtain ⟨members, hmembers, rfl⟩ := Option.map_eq_some_iff.mp h
    refine valid_sortMembers (validMembers_iff.mpr fun m hm => ?_)
    obtain ⟨v, hv, hencode⟩ := (mem_encodeEntries hmembers m.1 m.2).mp hm
    exact ih _ hv m.2 hencode

/-- The members written for a map are what is written for its entries. -/
theorem lastMember_encode (hnodup : (entries.map Prod.fst).Nodup)
    (h : encodeEntries entries = some members) (name : String) :
    lastMember name (sortMembers members) = (entries.lookup name).bind encode := by
  have hnodup' : (members.map Prod.fst).Nodup := by rwa [keys_encodeEntries h]
  refine Option.ext fun j => ?_
  rw [lastMember_sortMembers hnodup', lastMember_eq_some_iff hnodup', mem_encodeEntries h,
    Option.bind_eq_some_iff]
  exact exists_congr fun v => and_congr_left fun _ => mem_iff_lookup hnodup

/-- The value that is written for one that was read: it is JSON again, nests no deeper, and
denotes the same exactly when the numbers that count are shortest decimals. -/
structure Written (j j' : Json) : Prop where
  valid : j'.Valid
  nesting : j'.nesting ≤ j.nesting
  same : denote j' = denote j ↔ ∀ literal, Counts literal j → Kept literal

variable {j : Json}

theorem written_leaf (hvalid : j.Valid) (h : ∀ literal, ¬ Counts literal j) : Written j j :=
  ⟨hvalid, Nat.le_refl _, fun _ literal hcounts => absurd hcounts (h literal), fun _ => rfl⟩

theorem written_num {literal text : List Char} {bits : BitVec 64} (hvalid : NumberLiteral literal)
    (hread : parseFloat literal = some bits) (hwrite : goFloat bits = some text) :
    Written (.num literal) (.num text) := by
  refine ⟨?_, Nat.le_refl 0, ?_⟩
  · exact goFloat_literal hwrite
  · rw [denote, denote, Value.num.injEq, decimalValue_goFloat_iff hvalid.1 hread hwrite]
    constructor
    · rintro h _ ⟨⟩
      exact h
    · exact fun h => h literal .num

theorem written_items {items js : List Json} (h : List.Forall₂ Written items js) :
    Written (.arr items) (.arr js) := by
  have hitems : ValidItems js ∧ nestingItems js ≤ nestingItems items ∧
      (denoteItems js = denoteItems items ↔
        ∀ item ∈ items, ∀ literal, Counts literal item → Kept literal) := by
    induction h with
    | nil => exact ⟨trivial, Nat.le_refl _, by simp⟩
    | cons hwritten _ ih =>
      obtain ⟨hjs, hnesting, hsame⟩ := ih
      refine ⟨⟨hwritten.valid, hjs⟩, max_le_max hwritten.nesting hnesting, ?_⟩
      rw [denoteItems, denoteItems, List.cons.injEq, hwritten.same, hsame, List.forall_mem_cons]
  obtain ⟨hjs, hnesting, hsame⟩ := hitems
  refine ⟨hjs, Nat.add_le_add_right hnesting 1, ?_⟩
  rw [denote, denote, Value.arr.injEq, hsame]
  constructor
  · rintro hkept literal (_ | ⟨hitem, hcounts⟩)
    exact hkept _ hitem literal hcounts
  · exact fun hkept item hitem literal hcounts => hkept literal (.arr hitem hcounts)

/-- The members of the written object are the last ones of each name. -/
theorem lastMember_written {members' : List (String × Json)}
    (hdecode : decodeInto [] members = some entries)
    (hencode : encodeEntries entries = some members') :
    lastMember name (sortMembers members') = some j ↔
      ∃ value v, lastMember name members = some value ∧ decode value = some v ∧
        encode v = some j := by
  rw [lastMember_encode (nodup_decodeInto (by simp) hdecode) hencode, Option.bind_eq_some_iff,
    lookup_decodeInto hdecode]
  cases lastMember name members with
  | none => simp
  | some value => simp

section Members

variable {members members' : List (String × Json)} {entries : List (String × Any)}
  (hdecode : decodeInto [] members = some entries)
  (h : ∀ m ∈ members, ∀ v, decode m.2 = some v → ∃ j, encode v = some j ∧ Written m.2 j)

include hdecode h

theorem encode_of_written : ∀ e ∈ entries, (encode e.2).isSome := by
  rintro ⟨name, v⟩ he
  rw [mem_iff_lookup (nodup_decodeInto (by simp) hdecode), lookup_decodeInto hdecode] at he
  cases hvalue : lastMember name members with
  | none =>
    rw [hvalue] at he
    cases he
  | some value =>
    rw [hvalue] at he
    obtain ⟨j, hj, -⟩ := h _ (lastMember_mem hvalue) v he
    exact Option.isSome_iff_exists.mpr ⟨j, hj⟩

variable (hencode : encodeEntries entries = some members')

include hencode

/-- A member that counts is written. -/
theorem written_of_lastMember {name : String} {value : Json}
    (hvalue : lastMember name members = some value) :
    ∃ j, lastMember name (sortMembers members') = some j ∧ Written value j := by
  have hread := (decodeInto_isSome_iff [] members).mp (by rw [hdecode]; rfl) _
    (lastMember_mem hvalue)
  obtain ⟨v, hv⟩ := Option.isSome_iff_exists.mp hread
  obtain ⟨j, hj, hwritten⟩ := h _ (lastMember_mem hvalue) v hv
  exact ⟨j, (lastMember_written hdecode hencode).mpr ⟨value, v, hvalue, hv, hj⟩, hwritten⟩

/-- A member is written for one that counts. -/
theorem lastMember_of_written {name : String} {j : Json}
    (hj : lastMember name (sortMembers members') = some j) :
    ∃ value, lastMember name members = some value ∧ Written value j := by
  obtain ⟨value, v, hvalue, hv, hencoded⟩ := (lastMember_written hdecode hencode).mp hj
  obtain ⟨j', hj', hwritten⟩ := h _ (lastMember_mem hvalue) v hv
  obtain rfl := Option.some.inj (hencoded.symm.trans hj')
  exact ⟨value, hvalue, hwritten⟩

theorem denote_written_iff :
    denote (.obj (sortMembers members')) = denote (.obj members) ↔
      ∀ literal, Counts literal (.obj members) → Kept literal := by
  rw [denote_obj_eq_iff]
  constructor
  · rintro hsame literal (_ | _ | ⟨hvalue, hcounts⟩)
    next name value =>
    obtain ⟨j, hj, hwritten⟩ := written_of_lastMember hdecode h hencode hvalue
    have hname := hsame name
    rw [hj, hvalue, Option.map_some, Option.map_some, Option.some.injEq, hwritten.same] at hname
    exact hname literal hcounts
  · intro hkept name
    cases hvalue : lastMember name members with
    | none =>
      cases hj : lastMember name (sortMembers members') with
      | none => rfl
      | some j =>
        obtain ⟨value, hvalue', -⟩ := lastMember_of_written hdecode h hencode hj
        rw [hvalue] at hvalue'
        cases hvalue'
    | some value =>
      obtain ⟨j, hj, hwritten⟩ := written_of_lastMember hdecode h hencode hvalue
      rw [hj, Option.map_some, Option.map_some, Option.some.injEq, hwritten.same]
      exact fun literal hcounts => hkept literal (.obj hvalue hcounts)

end Members

theorem written_members (hdecode : decodeInto [] members = some entries)
    (h : ∀ m ∈ members, ∀ v, decode m.2 = some v → ∃ j, encode v = some j ∧ Written m.2 j) :
    ∃ j, encode (.map entries) = some j ∧ Written (.obj members) j := by
  obtain ⟨j, hj⟩ := Option.isSome_iff_exists.mp
    ((encode_map_isSome_iff entries).mpr (encode_of_written hdecode h))
  have hvalid := valid_encode _ j hj
  obtain ⟨members', hencode, rfl⟩ := Option.map_eq_some_iff.mp hj
  have hnodup : (members'.map Prod.fst).Nodup :=
    keys_encodeEntries hencode ▸ nodup_decodeInto (by simp) hdecode
  refine ⟨_, hj, hvalid, ?_, denote_written_iff hdecode h hencode⟩
  refine Nat.add_le_add_right (nestingMembers_le_iff.mpr fun m hm => ?_) 1
  rw [sortMembers_perm.mem_iff, ← lastMember_eq_some_iff hnodup,
    ← lastMember_sortMembers hnodup] at hm
  obtain ⟨value, hvalue, hw⟩ := lastMember_of_written hdecode h hencode hm
  exact hw.nesting.trans (nestingMembers_le_iff.mp le_rfl _ (lastMember_mem hvalue))

/-- Every value that is read is written. -/
theorem exists_written : j.Valid → ∀ v, decode j = some v →
    ∃ j', encode v = some j' ∧ Written j j' := by
  induction j using json_of_parts with
  | null | bool | str =>
    intro hvalid v hv
    obtain rfl := Option.some.inj hv
    exact ⟨_, rfl, written_leaf hvalid fun _ h => nomatch h⟩
  | num literal =>
    intro hvalid v hv
    obtain ⟨bits, hbits, rfl⟩ := Option.map_eq_some_iff.mp hv
    have hfinite : ¬ infinity ≤ magnitude bits :=
      Nat.not_le.mpr (FloatRoundTrip.parseFloat_finite hbits)
    have hwrite : goFloat bits = some (signed bits (goMagnitude (magnitude bits))) :=
      if_neg hfinite
    refine ⟨_, ?_, written_num hvalid hbits hwrite⟩
    rw [encode, hwrite, Option.map_some]
  | arr items ih =>
    intro hvalid v hv
    obtain ⟨vs, hvs, rfl⟩ := Option.map_eq_some_iff.mp hv
    obtain ⟨js, hjs, hwritten⟩ :
        ∃ js, vs.mapM encode = some js ∧ List.Forall₂ Written items js := by
      rw [decodeItems_eq] at hvs
      have hitems := validItems_iff.mp hvalid
      clear hvalid hv
      induction mapM_some_iff.mp hvs with
      | nil => exact ⟨[], rfl, .nil⟩
      | cons hv hrest ihrest =>
        obtain ⟨hfirst, hmore⟩ := List.forall_mem_cons.mp ih
        obtain ⟨hvalid, hvalids⟩ := List.forall_mem_cons.mp hitems
        obtain ⟨j, hj, hwritten⟩ := hfirst hvalid _ hv
        obtain ⟨js, hjs, hwrittens⟩ := ihrest hmore (mapM_some_iff.mpr hrest) hvalids
        exact ⟨j :: js, mapM_some_iff.mpr (.cons hj (mapM_some_iff.mp hjs)),
          .cons hwritten hwrittens⟩
    exact ⟨.arr js, by rw [encode, encodeItems_eq, hjs, Option.map_some], written_items hwritten⟩
  | obj members ih =>
    intro hvalid v hv
    obtain ⟨entries, hentries, rfl⟩ := Option.map_eq_some_iff.mp hv
    exact written_members hentries fun m hm => ih m hm (validMembers_iff.mp hvalid m hm)

end KnowledgeEngine.JsonAny
