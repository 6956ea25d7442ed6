import KnowledgeEngine.AnalyticsStore
import KnowledgeEngine.FactNumbers
import KnowledgeEngine.PythonJson
import KnowledgeEngine.Rfc3339RoundTrip
import KnowledgeEngine.StringText
import KnowledgeEngine.Transitions

/-!
The wire form of an analytics fact in both languages (core/types/fact.go and fact.py). Go
marshals a map, Python dumps a dict with sorted keys and escapes afterwards what Go escapes by
default; the Go consumer decodes either. Strings are texts of characters and times are Unix
nanoseconds.
-/

namespace KnowledgeEngine.FactJson

open Analytics AnalyticsStore Calendar CoreTypes FactNumbers FloatText JsonDecode JsonFloat JsonText
  MachineNumbers PythonJson Rfc3339RoundTrip StringText TimeText Traversals

/-- encoding/json orders the keys of a map by their bytes. -/
def sortByBytes (members : List (String × Json)) : List (String × Json) :=
  members.insertionSort fun a b => ¬ utf8Encode b.1.toList < utf8Encode a.1.toList

/-- sort_keys orders the keys of a dict by their characters. -/
def sortKeys (members : List (String × Json)) : List (String × Json) :=
  members.insertionSort fun a b => ¬ b.1.toList < a.1.toList

def dimMembers (f : Fact) : List (String × Json) :=
  f.Dims.entries.map fun e => (e.1, .str e.2)

/-- The members both encoders list, in the order of the source. -/
def wireMembers (f : Fact) (dims measures : List (String × Json)) (ts : List Char) :
    List (String × Json) :=
  [("cube", .str f.Cube), ("dims", .obj dims), ("idempotency_key", .str f.IdempotencyKey),
    ("measures", .obj measures), ("org_id", .str f.OrgID), ("schema", .num (decimal f.Schema)),
    ("ts", .str (String.ofList ts))]

def marshalMeasures (f : Fact) : Option (List (String × Json)) :=
  f.Measures.entries.mapM fun e => (goFloat e.2).map fun text => (e.1, .num text)

def marshalJSON (f : Fact) : Except AppError (List UInt8) :=
  match marshalMeasures f with
  | none => .error (invalidInput "fact: encode")
  | some measures =>
    .ok (utf8Encode (print (.obj (sortByBytes (wireMembers f (sortByBytes (dimMembers f))
      (sortByBytes measures) (rfc3339Nano f.TS))))))

/-- Characters Go's encoding/json escapes by default, with the escape it writes. -/
def goEscapes : List (Char × List Char) :=
  [('<', ['\\', 'u', '0', '0', '3', 'c']), ('>', ['\\', 'u', '0', '0', '3', 'e']),
    ('&', ['\\', 'u', '0', '0', '2', '6']), ('\u2028', ['\\', 'u', '2', '0', '2', '8']),
    ('\u2029', ['\\', 'u', '2', '0', '2', '9'])]

/-- The time of a datetime, of microseconds; %Y does not pad the year. -/
def pyRfc3339Nano (nanos : ℤ) : List Char :=
  let utc := civil (nanos / nanosPerDay + epochDay)
  let second := (nanos % nanosPerDay / 1000000000).toNat
  let digits := (padded 6 (nanos % 1000000000 / 1000).toNat).rdropWhile (· == '0')
  (Nat.toDigits 10 utc.year.toNat ++ '-' ::
      (padded 2 utc.month.toNat ++ '-' :: padded 2 utc.day.toNat)) ++ 'T' ::
    (padded 2 (second / 3600) ++ ':' :: (padded 2 (second % 3600 / 60) ++ ':' ::
      (padded 2 (second % 60) ++ if digits = [] then [] else '.' :: digits)) ++ ['Z'])

def numberMembers (text : BitVec 64 → List Char) (f : Fact) : List (String × Json) :=
  f.Measures.entries.map fun e => (e.1, .num (text e.2))

def toJson (f : Fact) : List UInt8 :=
  utf8Encode (replaceEach goEscapes (dumps (.obj (sortKeys (wireMembers f
    (sortKeys (dimMembers f)) (sortKeys (numberMembers number f)) (pyRfc3339Nano f.TS))))))

structure FactWire where
  Dims : StringMap String
  Measures : StringMap (BitVec 64)
  Cube : String
  IdempotencyKey : String
  OrgID : String
  TS : String
  Schema : ℤ

/-- null empties a map; the members of an object are added to it. -/
def decodeMap {V : Type} (decode : Json → Option V) (old : StringMap V) :
    Json → Option (StringMap V)
  | .null => some ∅
  | .obj members =>
    members.foldlM (fun values member => (decode member.2).map (values.insert member.1)) old
  | _ => none

def decodeFloat : Json → Option (BitVec 64)
  | .null => some 0
  | .num literal => parseFloat literal
  | _ => none

def decodeInt (old : ℤ) : Json → Option ℤ
  | .null => some old
  | .num literal => parseDecimal literal
  | _ => none

def decodeMember (w : FactWire) (member : String × Json) : Option FactWire :=
  if equalFold "dims" member.1 then
    (decodeMap (decodeString "") w.Dims member.2).map fun dims => { w with Dims := dims }
  else if equalFold "measures" member.1 then
    (decodeMap decodeFloat w.Measures member.2).map fun measures => { w with Measures := measures }
  else if equalFold "cube" member.1 then
    (decodeString w.Cube member.2).map fun cube => { w with Cube := cube }
  else if equalFold "idempotency_key" member.1 then
    (decodeString w.IdempotencyKey member.2).map fun key => { w with IdempotencyKey := key }
  else if equalFold "org_id" member.1 then
    (decodeString w.OrgID member.2).map fun org => { w with OrgID := org }
  else if equalFold "ts" member.1 then
    (decodeString w.TS member.2).map fun ts => { w with TS := ts }
  else if equalFold "schema" member.1 then
    (decodeInt w.Schema member.2).map fun schema => { w with Schema := schema }
  else some w

/-- The instant of a wall clock and its offset. -/
def instant (parsed : ℤ × Option ℤ) : ℤ := parsed.1 - parsed.2.getD 0 * 1000000000

def unmarshalJSON (b : List UInt8) : Except AppError Fact :=
  match unmarshal decodeMember ⟨∅, ∅, "", "", "", "", 0⟩ (utf8Decode b) with
  | none => .error (invalidInput "fact: decode")
  | some w =>
    if w.Schema ≠ factSchemaVersion then
      .error (invalidInput ("fact: unknown schema version " ++ String.ofList (decimal w.Schema)))
    else
      match Rfc3339.parse w.TS.toList with
      | none => .error (invalidInput "fact: invalid ts")
      | some parsed =>
        .ok ⟨instant parsed, w.Dims, w.Measures, w.Cube, w.OrgID, w.IdempotencyKey, w.Schema⟩

/-- Equal as Go values: the maps hold the same keys, and the floats compare equal. -/
structure Same (f g : Fact) : Prop where
  ts : f.TS = g.TS
  dims : ∀ name, f.Dims.lookup name = g.Dims.lookup name
  measures : ∀ name, (f.Measures.lookup name).map unsignZero =
    (g.Measures.lookup name).map unsignZero
  cube : f.Cube = g.Cube
  orgID : f.OrgID = g.OrgID
  idempotencyKey : f.IdempotencyKey = g.IdempotencyKey
  schema : f.Schema = g.Schema

variable (members : List (String × Json)) {f : Fact}

theorem sortByBytes_eq_sortKeys : sortByBytes members = sortKeys members := by
  unfold sortByBytes sortKeys
  simp only [encode_lt_iff]

theorem mem_sortKeys (m : String × Json) : m ∈ sortKeys members ↔ m ∈ members :=
  List.mem_insertionSort _

theorem keys_sortKeys : ((sortKeys members).map Prod.fst).Perm (members.map Prod.fst) :=
  (List.perm_insertionSort _ members).map _

/-- The members are listed in the order of their keys. -/
theorem sortKeys_wireMembers (f : Fact) (dims measures : List (String × Json)) (ts : List Char) :
    sortKeys (wireMembers f dims measures ts) = wireMembers f dims measures ts := by
  have hkeys : ((wireMembers f dims measures ts).map Prod.fst).Pairwise
      fun a b => ¬ b.toList < a.toList := by
    change ["cube", "dims", "idempotency_key", "measures", "org_id", "schema", "ts"].Pairwise _
    decide
  exact (List.pairwise_map.mp hkeys).insertionSort_eq

theorem toDigits_year (year : ℤ) (hlow : 1000 ≤ year) :
    Nat.toDigits 10 year.toNat = signedPadded 4 year := by
  obtain ⟨n, rfl⟩ := Int.eq_ofNat_of_zero_le (show 0 ≤ year by omega)
  have hlength : ¬ (Nat.toDigits 10 n).length ≤ 3 := by
    rw [Nat.length_toDigits_le_iff (by decide) (by decide)]
    omega
  change Nat.toDigits 10 n = padded 4 n
  rw [padded, show 4 - (Nat.toDigits 10 n).length = 0 by omega, List.replicate_zero,
    List.nil_append]

theorem rdropWhile_padded {m : ℕ} (hm : 0 < m) :
    (padded 9 (m * 1000)).rdropWhile (· == '0') = (padded 6 m).rdropWhile (· == '0') := by
  have hpadded : padded 9 (m * 1000) = padded 6 m ++ ['0', '0', '0'] := by
    rw [show 1000 = 10 ^ 3 from rfl, padded, FloatOrder.toDigits_mul_pow m 3 hm,
      List.length_append, List.length_replicate,
      show 9 - ((Nat.toDigits 10 m).length + 3) = 6 - (Nat.toDigits 10 m).length by omega,
      ← List.append_assoc]
    rfl
  have hsplit : padded 6 m ++ ['0', '0', '0'] = padded 6 m ++ ['0'] ++ ['0'] ++ ['0'] := by simp
  rw [hpadded, hsplit, List.rdropWhile_concat_pos _ _ _ rfl, List.rdropWhile_concat_pos _ _ _ rfl,
    List.rdropWhile_concat_pos _ _ _ rfl]

/-- Microseconds without their zeros are nanoseconds without theirs. -/
theorem fraction_microseconds (m : ℕ) (h : m < 1000000) :
    (if (padded 6 m).rdropWhile (· == '0') = [] then []
      else '.' :: (padded 6 m).rdropWhile (· == '0')) = fraction (m * 1000) := by
  by_cases hzero : m = 0
  · subst hzero
    decide
  · have htrimmed := rdropWhile_padded (Nat.pos_of_ne_zero hzero)
    have hne : (padded 6 m).rdropWhile (· == '0') ≠ [] := by
      intro hnil
      have hvalue := parseNanoseconds_trimmed (m * 1000) (by omega)
      rw [htrimmed, hnil] at hvalue
      exact hzero (by simpa [Rfc3339.parseNanoseconds] using hvalue.symm)
    rw [if_neg hne, fraction, if_neg (by omega), htrimmed]

theorem pyRfc3339Nano_eq {nanos : ℤ} (hmicro : nanos % 1000 = 0)
    (hyear : 1000 ≤ yearOfInstant nanos) : pyRfc3339Nano nanos = rfc3339Nano nanos := by
  have hnanos : (nanos % 1000000000).toNat = (nanos % 1000000000 / 1000).toNat * 1000 := by omega
  have hfraction := fraction_microseconds (nanos % 1000000000 / 1000).toNat (by omega)
  rw [← hnanos] at hfraction
  have hdigits := toDigits_year _ hyear
  rw [yearOfInstant] at hdigits
  simp only [pyRfc3339Nano, rfc3339Nano, dateChars, clockChars, hfraction, hdigits]

/-- The characters Go escapes in addition. -/
def marked : List Char := ['<', '>', '&', '\u2028', '\u2029']

theorem replaceEach_unmarked {text : List Char} (h : ∀ c ∈ text, c ∉ marked) :
    replaceEach goEscapes text = text :=
  replaceEach_of_not_mem fun e he hmem =>
    h e.1 hmem (List.mem_map_of_mem (f := Prod.fst) he)

theorem escapeLetter_unmarked {c letter : Char} (h : escapeLetter c = some letter) :
    letter ∉ marked := by
  unfold escapeLetter at h
  split_ifs at h with hquote
  · obtain rfl := Option.some.inj h
    rcases hquote with rfl | rfl <;> decide
  all_goals
    obtain rfl := Option.some.inj h
    decide

theorem unitEscape_unmarked (n : ℕ) : ∀ c ∈ unitEscape n, c ∉ marked := by
  have hdigit (d : ℕ) : Nat.digitChar (d % 16) ∉ marked := by
    have hd : d % 16 < 16 := Nat.mod_lt _ (by decide)
    interval_cases d % 16 <;> decide
  have hletters : '\\' ∉ marked ∧ 'u' ∉ marked := by decide
  simp [unitEscape, hdigit, hletters]

theorem isUnsafe_unmarked {c : Char} (h : c ∉ marked) : isUnsafe c = decide (c.toNat < 0x20) := by
  have hline : (c.toNat == 0x2028) = false := by
    refine beq_false_of_ne fun heq => h ?_
    obtain rfl : c = '\u2028' := Char.toNat_inj.mp heq
    decide
  have hparagraph : (c.toNat == 0x2029) = false := by
    refine beq_false_of_ne fun heq => h ?_
    obtain rfl : c = '\u2029' := Char.toNat_inj.mp heq
    decide
  simp only [marked, List.mem_cons, not_or] at h
  simp only [isUnsafe, hline, hparagraph, beq_eq_false_iff_ne.mpr h.1,
    beq_eq_false_iff_ne.mpr h.2.1, beq_eq_false_iff_ne.mpr h.2.2.1, Bool.or_false]

theorem marshalEscapes_goEscapes : MarshalEscapes goEscapes := by
  refine ⟨fun c => ?_, by decide⟩
  by_cases hmarked : c ∈ marked
  · simp only [marked, List.mem_cons, List.not_mem_nil, or_false] at hmarked
    rcases hmarked with rfl | rfl | rfl | rfl | rfl <;> decide
  · unfold PythonJson.escapeChar JsonText.escapeChar
    rw [isUnsafe_unmarked hmarked]
    cases hletter : escapeLetter c with
    | some letter =>
      refine replaceEach_unmarked ?_
      simpa [escapeLetter_unmarked hletter] using (by decide : '\\' ∉ marked)
    | none =>
      by_cases hcontrol : c.toNat < 0x20
      · simp only [hcontrol, if_true, decide_true]
        exact replaceEach_unmarked (unitEscape_unmarked _)
      · simp only [hcontrol, if_false, decide_false, Bool.false_eq_true]
        exact replaceEach_unmarked (by simpa using hmarked)

/-- The wire form with sorted keys and the given texts of the measures. -/
def tree (f : Fact) (text : BitVec 64 → List Char) : Json :=
  .obj (wireMembers f (sortKeys (dimMembers f)) (sortKeys (numberMembers text f))
    (rfc3339Nano f.TS))

def goText (bits : BitVec 64) : List Char := signed bits (goMagnitude (magnitude bits))

/-- What holds of the bits of every measure. -/
def AllMeasures (f : Fact) (p : BitVec 64 → Prop) : Prop :=
  ∀ name bits, f.Measures.lookup name = some bits → p bits

theorem AllMeasures.mem {p : BitVec 64 → Prop} (h : AllMeasures f p)
    (e : Sigma fun _ : String => BitVec 64) (he : e ∈ f.Measures.entries) : p e.2 :=
  h e.1 e.2 (AList.mem_lookup_iff.mpr he)

theorem allMeasures_of_entries {p : BitVec 64 → Prop} (h : ∀ e ∈ f.Measures.entries, p e.2) :
    AllMeasures f p :=
  fun _ _ hbits => h _ (AList.mem_lookup_iff.mp hbits)

theorem marshalJSON_eq (h : AllMeasures f fun bits => magnitude bits < infinity) :
    marshalJSON f = .ok (utf8Encode (print (tree f goText))) := by
  have hmeasures : marshalMeasures f = some (numberMembers goText f) := by
    refine mapM_eq_some fun e he => ?_
    rw [goFloat_eq (h.mem e he)]
    rfl
  simp only [marshalJSON, hmeasures, sortByBytes_eq_sortKeys, sortKeys_wireMembers, tree]

/-- The texts are JSON numbers. -/
theorem tree_valid {text : BitVec 64 → List Char}
    (h : AllMeasures f fun bits => NumberLiteral (text bits)) :
    (tree f text).Valid ∧ (tree f text).nesting ≤ maxNestingDepth := by
  have hdims : ∀ m ∈ sortKeys (dimMembers f), m.2.Valid ∧ m.2.nesting ≤ 0 := by
    intro m hm
    rw [mem_sortKeys] at hm
    obtain ⟨e, _, rfl⟩ := List.mem_map.mp hm
    exact ⟨trivial, Nat.le_refl 0⟩
  have hmeasures : ∀ m ∈ sortKeys (numberMembers text f), m.2.Valid ∧ m.2.nesting ≤ 0 := by
    intro m hm
    rw [mem_sortKeys] at hm
    obtain ⟨e, he, rfl⟩ := List.mem_map.mp hm
    exact ⟨h.mem e he, Nat.le_refl 0⟩
  have hdimsNesting := nestingMembers_le_iff.mpr fun m hm => (hdims m hm).2
  have hmeasuresNesting := nestingMembers_le_iff.mpr fun m hm => (hmeasures m hm).2
  constructor
  · refine ⟨trivial, ?_, trivial, ?_, trivial, numberLiteral_decimal, trivial, trivial⟩
    · exact validMembers_iff.mpr fun m hm => (hdims m hm).1
    · exact validMembers_iff.mpr fun m hm => (hmeasures m hm).1
  · simp only [tree, wireMembers, Json.nesting, nestingMembers, maxNestingDepth]
    omega

theorem toJson_eq (hmicro : f.TS % 1000 = 0) (hyear : 1000 ≤ yearOfInstant f.TS)
    (h : AllMeasures f fun bits => NumberLiteral (number bits)) :
    toJson f = utf8Encode (print (tree f number)) := by
  rw [← replaceEach_dumps marshalEscapes_goEscapes _ (tree_valid h).1, toJson,
    sortKeys_wireMembers, pyRfc3339Nano_eq hmicro hyear, tree]

theorem utf8Encode_injective {a b : List Char} (h : utf8Encode a = utf8Encode b) : a = b := by
  rw [← utf8Decode_utf8Encode a, h, utf8Decode_utf8Encode]

/-- Trees of one fact are written alike only if every measure is. -/
theorem tree_text_eq_iff {s t : BitVec 64 → List Char}
    (hs : AllMeasures f fun bits => NumberLiteral (s bits))
    (ht : AllMeasures f fun bits => NumberLiteral (t bits)) :
    utf8Encode (print (tree f s)) = utf8Encode (print (tree f t)) ↔
      AllMeasures f fun bits => s bits = t bits := by
  constructor
  · intro heq name bits hbits
    have hparse := congrArg parse (utf8Encode_injective heq)
    obtain ⟨hvalid, hdepth⟩ := tree_valid hs
    obtain ⟨hvalid', hdepth'⟩ := tree_valid ht
    rw [JsonReading.parse_print _ hvalid hdepth, JsonReading.parse_print _ hvalid' hdepth',
      Option.some.injEq] at hparse
    have hmembers : sortKeys (numberMembers s f) = sortKeys (numberMembers t f) := by
      simpa only [tree, wireMembers, Json.obj.injEq, List.cons.injEq, Prod.mk.injEq, true_and,
        and_true] using hparse
    have hentry := AList.mem_lookup_iff.mp hbits
    have hmem : (name, Json.num (s bits)) ∈ sortKeys (numberMembers t f) := by
      rw [← hmembers, mem_sortKeys]
      exact List.mem_map_of_mem (f := fun e => (e.1, Json.num (s e.2))) hentry
    rw [mem_sortKeys] at hmem
    obtain ⟨⟨name', bits'⟩, he, hpair⟩ := List.mem_map.mp hmem
    obtain ⟨rfl, hliteral⟩ := Prod.mk.inj hpair
    have hlookup := AList.mem_lookup_iff.mpr he
    obtain rfl : bits' = bits := Option.some.inj (hlookup.symm.trans hbits)
    exact (Json.num.inj hliteral).symm
  · intro hall
    have hmembers : numberMembers s f = numberMembers t f := by
      refine List.map_congr_left fun e he => ?_
      rw [hall.mem e he]
    simp only [tree, hmembers]

/-- Members with distinct keys set one entry each. -/
theorem decodeMap_members {V : Type} (decode : Json → Option V) (members : List (String × Json))
    (hnodup : (members.map Prod.fst).Nodup) (hdecode : ∀ m ∈ members, (decode m.2).isSome)
    (old : StringMap V) :
    ∃ values, decodeMap decode old (.obj members) = some values ∧
      (∀ m ∈ members, values.lookup m.1 = decode m.2) ∧
      ∀ name, name ∉ members.map Prod.fst → values.lookup name = old.lookup name := by
  induction members generalizing old with
  | nil => exact ⟨old, rfl, by simp, fun _ _ => rfl⟩
  | cons m members ih =>
    rw [List.map_cons, List.nodup_cons] at hnodup
    obtain ⟨v, hv⟩ := Option.isSome_iff_exists.mp (hdecode m List.mem_cons_self)
    obtain ⟨values, hvalues, hset, hkept⟩ :=
      ih hnodup.2 (fun m hm => hdecode m (List.mem_cons_of_mem _ hm)) (old.insert m.1 v)
    refine ⟨values, ?_, ?_, ?_⟩
    · rw [decodeMap] at hvalues ⊢
      rw [List.foldlM_cons, hv]
      exact hvalues
    · intro m' hm'
      rcases List.mem_cons.mp hm' with rfl | hm'
      · rw [hkept _ hnodup.1, AList.lookup_insert, hv]
      · exact hset m' hm'
    · intro name hname
      rw [List.map_cons, List.mem_cons, not_or] at hname
      rw [hkept name hname.2, AList.lookup_insert_ne hname.1]

/-- A map written member by member is read back entry by entry. -/
theorem decodeMap_entries {V : Type} (decode : Json → Option V) (encode : V → Json) (read : V → V)
    (values : StringMap V) (h : ∀ e ∈ values.entries, decode (encode e.2) = some (read e.2)) :
    ∃ back, decodeMap decode ∅ (.obj (sortKeys (values.entries.map fun e => (e.1, encode e.2)))) =
        some back ∧ ∀ name, back.lookup name = (values.lookup name).map read := by
  have hkeys : ((values.entries.map fun e => (e.1, encode e.2)).map Prod.fst) = values.keys := by
    rw [List.map_map]
    rfl
  have hperm := keys_sortKeys (values.entries.map fun e => (e.1, encode e.2))
  rw [hkeys] at hperm
  obtain ⟨back, hback, hset, hkept⟩ := decodeMap_members decode _
    (hperm.nodup_iff.mpr values.keys_nodup) (by
      intro m hm
      rw [mem_sortKeys] at hm
      obtain ⟨e, he, rfl⟩ := List.mem_map.mp hm
      rw [h e he, Option.isSome_some]) ∅
  refine ⟨back, hback, fun name => ?_⟩
  cases hlookup : values.lookup name with
  | none =>
    have hname : name ∉ values.keys := fun hmem => AList.lookup_eq_none.mp hlookup hmem
    rw [hkept name (fun hmem => hname (hperm.mem_iff.mp hmem))]
    rfl
  | some v =>
    have hentry := AList.mem_lookup_iff.mp hlookup
    have hmem : (name, encode v) ∈ sortKeys (values.entries.map fun e => (e.1, encode e.2)) := by
      rw [mem_sortKeys]
      exact List.mem_map_of_mem (f := fun e => (e.1, encode e.2)) hentry
    rw [hset _ hmem, h _ hentry]
    rfl

theorem equalFold_fields :
    ∀ a ∈ ["dims", "measures", "cube", "idempotency_key", "org_id", "ts", "schema"],
      ∀ b ∈ ["dims", "measures", "cube", "idempotency_key", "org_id", "ts", "schema"],
        equalFold a b = (a == b) := by
  decide +kernel

theorem decode_wireMembers {dims measures : List (String × Json)} {ts : List Char}
    {dimsBack : StringMap String} {measuresBack : StringMap (BitVec 64)}
    (hdims : decodeMap (decodeString "") ∅ (.obj dims) = some dimsBack)
    (hmeasures : decodeMap decodeFloat ∅ (.obj measures) = some measuresBack)
    (hschema : parseDecimal (decimal f.Schema) = some f.Schema) :
    decodeStruct decodeMember ⟨∅, ∅, "", "", "", "", 0⟩ (.obj (wireMembers f dims measures ts)) =
      some ⟨dimsBack, measuresBack, f.Cube, f.IdempotencyKey, f.OrgID, String.ofList ts,
        f.Schema⟩ := by
  simp [decodeStruct, wireMembers, List.foldlM, decodeMember, equalFold_fields, decodeString,
    decodeInt, hdims, hmeasures, hschema]

/-- A fact is read back if the texts of its measures are, up to the sign of zero. -/
theorem unmarshalJSON_tree {text : BitVec 64 → List Char} {read : BitVec 64 → BitVec 64}
    (hschema : f.Schema = factSchemaVersion) (hlow : 0 ≤ yearOfInstant f.TS)
    (hhigh : yearOfInstant f.TS ≤ 9999)
    (htext : AllMeasures f fun bits => NumberLiteral (text bits) ∧ parseFloat (text bits) =
      some (read bits))
    (hread : ∀ bits, unsignZero (read bits) = unsignZero bits) :
    ∃ back, unmarshalJSON (utf8Encode (print (tree f text))) = .ok back ∧ Same back f := by
  obtain ⟨dims, hdims, hdimsLookup⟩ :=
    decodeMap_entries (decodeString "") .str id f.Dims fun _ _ => rfl
  obtain ⟨measures, hmeasures, hmeasuresLookup⟩ :=
    decodeMap_entries decodeFloat (fun bits => .num (text bits)) read f.Measures fun e he =>
      (htext.mem e he).2
  obtain ⟨hvalid, hdepth⟩ := tree_valid fun name bits hbits => (htext name bits hbits).1
  have hint : parseDecimal (decimal f.Schema) = some f.Schema := by
    rw [hschema]
    exact parseDecimal_decimal ⟨by decide, by decide⟩
  have hwire := (unmarshal_print hvalid hdepth).trans (decode_wireMembers hdims hmeasures hint)
  have hinstant : instant (f.TS, none) = f.TS := by
    simp only [instant, Option.getD_none, Int.zero_mul, Int.sub_zero]
  have hback : unmarshalJSON (utf8Encode (print (tree f text))) =
      .ok ⟨f.TS, dims, measures, f.Cube, f.OrgID, f.IdempotencyKey, f.Schema⟩ := by
    simp only [unmarshalJSON, utf8Decode_utf8Encode, hwire, hschema, ne_eq, not_true_eq_false,
      if_false, String.toList_ofList, parse_rfc3339Nano f.TS hlow hhigh, hinstant]
  refine ⟨_, hback, ⟨rfl, fun name => ?_, fun name => ?_, rfl, rfl, rfl, rfl⟩⟩
  · rw [hdimsLookup, Option.map_id_apply]
  · rw [hmeasuresLookup, Option.map_map]
    exact congrArg (fun g => Option.map g _) (funext hread)

theorem unsignZero_unsignZero (bits : BitVec 64) :
    unsignZero (unsignZero bits) = unsignZero bits := by
  by_cases hneg : bits = negativeZero
  · subst hneg
    rfl
  · have hsame : unsignZero bits = bits := if_neg hneg
    rw [hsame, hsame]

/-- Both languages write the same bytes exactly when every measure agrees; the Go decoder reads
an equal fact from either. -/
theorem marshalJSON_eq_toJson_iff (f : Fact) (hschema : f.Schema = factSchemaVersion)
    (hmicro : f.TS % 1000 = 0) (hlow : 1000 ≤ yearOfInstant f.TS)
    (hhigh : yearOfInstant f.TS ≤ 9999)
    (hfinite : AllMeasures f fun bits => magnitude bits < infinity) :
    (marshalJSON f = .ok (toJson f) ↔ AllMeasures f Agrees) ∧
      (∃ bytes back, marshalJSON f = .ok bytes ∧ unmarshalJSON bytes = .ok back ∧ Same back f) ∧
      ∃ back, unmarshalJSON (toJson f) = .ok back ∧ Same back f := by
  have hgo : AllMeasures f fun bits =>
      NumberLiteral (goText bits) ∧ parseFloat (goText bits) = some (id bits) := by
    intro name bits hbits
    obtain ⟨text, htext, hreads⟩ := goFloat_reads (hfinite name bits hbits)
    rw [goFloat_eq (hfinite name bits hbits), Option.some.injEq] at htext
    subst htext
    exact hreads
  have hpy : AllMeasures f fun bits =>
      NumberLiteral (number bits) ∧ parseFloat (number bits) = some (unsignZero bits) :=
    fun name bits hbits => number_reads (hfinite name bits hbits)
  have hgoText : AllMeasures f fun bits => NumberLiteral (goText bits) :=
    fun name bits hbits => (hgo name bits hbits).1
  have hpyText : AllMeasures f fun bits => NumberLiteral (number bits) :=
    fun name bits hbits => (hpy name bits hbits).1
  have hmarshal := marshalJSON_eq hfinite
  have hdump := toJson_eq hmicro hlow hpyText
  refine ⟨?_, ?_, ?_⟩
  · rw [hmarshal, hdump, Except.ok.injEq, tree_text_eq_iff hgoText hpyText]
    refine forall₃_congr fun name bits hbits => ?_
    rw [← number_eq_goFloat_iff (hfinite name bits hbits),
      goFloat_eq (hfinite name bits hbits), Option.some.injEq]
    exact Iff.rfl
  · obtain ⟨back, hback, hsame⟩ :=
      unmarshalJSON_tree hschema (by omega) hhigh hgo fun _ => rfl
    exact ⟨_, back, hmarshal, hback, hsame⟩
  · rw [hdump]
    exact unmarshalJSON_tree hschema (by omega) hhigh hpy unsignZero_unsignZero

/-- The call of the golden file: 1.25 seconds, 42 tokens in and 7 out. -/
def generateCall : Fact where
  TS := 1791549296789000000
  Dims := (AList.singleton "model" "nova-lite").insert "step" "generate"
  Measures := ((AList.singleton "duration_s" 0x3FF4000000000000).insert "tokens_in"
    0x4045000000000000).insert "tokens_out" 0x401C000000000000
  Cube := "genai_calls"
  OrgID := "org-1"
  IdempotencyKey := "4bf92f3577b34da6a3ce929d0e0e4736:00f067aa0ba902b7:generate"
  Schema := 1

theorem generateCall_bytes : marshalJSON generateCall = .ok (toJson generateCall) ∧
    ∃ back, unmarshalJSON (toJson generateCall) = .ok back ∧ Same back generateCall := by
  have hfinite : ∀ e ∈ generateCall.Measures.entries, magnitude e.2 < infinity := by
    decide +kernel
  have htexts : ∀ e ∈ generateCall.Measures.entries, goFloat e.2 = some (number e.2) := by
    decide +kernel
  have hagrees : AllMeasures generateCall Agrees := allMeasures_of_entries fun e he =>
    (number_eq_goFloat_iff (hfinite e he)).mp (htexts e he)
  have h := marshalJSON_eq_toJson_iff generateCall rfl (by decide) (by decide +kernel)
    (by decide +kernel) (allMeasures_of_entries hfinite)
  exact ⟨h.1.mpr hagrees, h.2.2⟩

/-- A call of ten microseconds. -/
def fastCall : Fact where
  TS := 1791549296789000000
  Dims := ∅
  Measures := AList.singleton "duration_s" 0x3EE4F8B588E368F1
  Cube := "genai_calls"
  OrgID := "org-1"
  IdempotencyKey := "k"
  Schema := 1

theorem fastCall_bytes_differ :
    fastCall.Schema = factSchemaVersion ∧ fastCall.TS % 1000 = 0 ∧
      yearOfInstant fastCall.TS = 2026 ∧
      (marshalJSON fastCall).toOption = some (utf8Encode
        ("\x7b\"cube\":\"genai_calls\",\"dims\":\x7b\x7d,\"idempotency_key\":\"k\"," ++
          "\"measures\":\x7b\"duration_s\":0.00001\x7d,\"org_id\":\"org-1\",\"schema\":1," ++
          "\"ts\":\"2026-10-09T12:34:56.789Z\"\x7d").toList) ∧
      toJson fastCall = utf8Encode
        ("\x7b\"cube\":\"genai_calls\",\"dims\":\x7b\x7d,\"idempotency_key\":\"k\"," ++
          "\"measures\":\x7b\"duration_s\":1e-05\x7d,\"org_id\":\"org-1\",\"schema\":1," ++
          "\"ts\":\"2026-10-09T12:34:56.789Z\"\x7d").toList ∧
      (marshalJSON fastCall).toOption ≠ some (toJson fastCall) := by
  refine ⟨rfl, by decide, by decide +kernel, by decide +kernel, by decide +kernel,
    by decide +kernel⟩

end KnowledgeEngine.FactJson
