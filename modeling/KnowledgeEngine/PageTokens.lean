import KnowledgeEngine.JsonDecode
import KnowledgeEngine.JsonFloat
import KnowledgeEngine.Transitions
import KnowledgeEngine.ValueText

/-!
The opaque page token (foundation/listquery/token.go): the base64 of a JSON object
that holds an offset page or a keyset cursor. Sort values come back as their JSON
kinds, a number as a float64.
-/

namespace KnowledgeEngine.PageTokens

open Calendar CoreTypes FloatIntegers FloatText JsonDecode JsonText MachineNumbers StringText
open TimeText Traversals ValueText

/-- Time.MarshalJSON: RFC 3339, refusing years and zone offsets it has no room for. -/
def jsonTime (t : Time) : Option String :=
  let year := (civil (wallNanos t / nanosPerDay + epochDay)).year
  let minutes := t.offset.tdiv 60
  let zone := if t.offset = 0 then ['Z']
    else (if minutes < 0 then '-' else '+') ::
      (padded 2 (minutes.natAbs / 60) ++ ':' :: padded 2 (minutes.natAbs % 60))
  if 0 ≤ year ∧ year ≤ 9999 ∧ minutes.natAbs < 24 * 60 then
    some (String.ofList (dateChars (wallNanos t) ++ 'T' :: (clockChars (wallNanos t) ++ zone)))
  else none

def marshalScalar : Scalar → Option Json
  | .str s => some (.str s)
  | .int n => some (.num (decimal n))
  | .float bits => (JsonFloat.goFloat bits).map .num
  | .bool b => some (.bool b)
  | .time t => (jsonTime t).map .str
  | .uuid bytes => some (.str (String.ofList (uuidChars bytes)))

def marshalValue : Value → Option Json
  | .nil => some .null
  | .scalar v => marshalScalar v
  | .list vs => (vs.mapM marshalScalar).map .arr

def keysetJson (k : KeysetCursor) (values : List Json) : Json :=
  .obj [("s", .arr values), ("i", .str k.ID),
    ("f", .str (String.ofList (Base64.encode .std k.Fingerprint)))]

/-- The members k and o are left out when they are zero. -/
def tokenJson (tok : PageToken) : Option Json :=
  match tok.Keyset with
  | some k => (k.SortValues.mapM marshalValue).map fun values => .obj [("k", keysetJson k values)]
  | none =>
    some (.obj (if tok.OffsetPage = 0 then [] else [("o", .num (decimal tok.OffsetPage))]))

def encodeToken (tok : PageToken) : Except AppError String :=
  match tokenJson tok with
  | none => .error (internal "marshal page token")
  | some j => .ok (String.ofList (Base64.encode .rawURL (utf8Encode (print j))))

/-- Decoding into an `any`. No minted token has an array or an object among its sort
values; they stand here for the list without elements. -/
def decodeAny : Json → Option Value
  | .null => some .nil
  | .bool b => some (.scalar (.bool b))
  | .num literal => (parseFloat literal).map fun bits => .scalar (.float bits)
  | .str s => some (.scalar (.str s))
  | .arr _ => some (.list [])
  | .obj _ => some (.list [])

def decodeValues : Json → Option (List Value)
  | .null => some []
  | .arr items => items.mapM decodeAny
  | _ => none

def decodeKeysetMember (k : KeysetCursor) (member : String × Json) : Option KeysetCursor :=
  if equalFold "s" member.1 then
    (decodeValues member.2).map fun values => { k with SortValues := values }
  else if equalFold "i" member.1 then
    (decodeString k.ID member.2).map fun id => { k with ID := id }
  else if equalFold "f" member.1 then
    (decodeBytes member.2).map fun bytes => { k with Fingerprint := bytes }
  else some k

/-- A pointer: null clears it, an object is decoded into what it points to. -/
def decodeKeyset (old : Option KeysetCursor) : Json → Option (Option KeysetCursor)
  | .null => some none
  | j => (decodeStruct decodeKeysetMember (old.getD ⟨[], "", []⟩) j).map some

def decodeTokenMember (t : PageToken) (member : String × Json) : Option PageToken :=
  if equalFold "k" member.1 then
    (decodeKeyset t.Keyset member.2).map fun k => { t with Keyset := k }
  else if equalFold "o" member.1 then
    (decodeInt32 t.OffsetPage member.2).map fun o => { t with OffsetPage := o }
  else some t

def decodeToken (token : String) : Except AppError PageToken :=
  if token = "" then .ok ⟨none, 1⟩
  else
    match (Base64.decode .rawURL token.toList).bind fun raw =>
      unmarshal decodeTokenMember ⟨none, 0⟩ (utf8Decode raw) with
    | none => .error (invalidInput "malformed page token")
    | some t =>
      match t.Keyset with
      | some k => .ok ⟨some k, 0⟩
      | none => .ok ⟨none, t.OffsetPage⟩

/-- A sort value is written as a JSON value without parts that reads back as another. -/
def Carried (v w : Value) : Prop :=
  ∃ j, marshalValue v = some j ∧ j.Valid ∧ j.nesting = 0 ∧ decodeAny j = some w

theorem carried_str (s : String) : Carried (.scalar (.str s)) (.scalar (.str s)) :=
  ⟨.str s, rfl, trivial, rfl, rfl⟩

/-- An integer of at most 53 bits comes back as a float64 that converts to it. -/
theorem carried_int {n : ℤ} (hlow : -2 ^ 53 ≤ n) (hhigh : n ≤ 2 ^ 53) :
    ∃ bits, Carried (.scalar (.int n)) (.scalar (.float bits)) ∧ truncFloat bits = n := by
  obtain ⟨bits, hparse, htrunc⟩ := truncFloat_decimal n hlow hhigh
  refine ⟨bits, ⟨.num (decimal n), rfl, numberLiteral_decimal, rfl, ?_⟩, htrunc⟩
  rw [decodeAny, hparse, Option.map_some]

theorem carried_all {vs ws : List Value} (h : List.Forall₂ Carried vs ws) :
    ∃ js, vs.mapM marshalValue = some js ∧ ValidItems js ∧ nestingItems js = 0 ∧
      js.mapM decodeAny = some ws := by
  induction h with
  | nil => exact ⟨[], rfl, trivial, rfl, rfl⟩
  | cons hvalue _ ih =>
    obtain ⟨j, hmarshal, hvalid, hnesting, hdecode⟩ := hvalue
    obtain ⟨js, hmarshals, hvalids, hnestings, hdecodes⟩ := ih
    refine ⟨j :: js, ?_, ⟨hvalid, hvalids⟩, ?_, ?_⟩
    · rw [List.mapM_cons, hmarshal, hmarshals]
      rfl
    · rw [nestingItems, hnesting, hnestings, Nat.max_self]
    · rw [List.mapM_cons, hdecode, hdecodes]
      rfl

theorem encode_ne_nil {e : Base64.Encoding} {bytes : List UInt8} (h : bytes ≠ []) :
    Base64.encode e bytes ≠ [] := by
  match bytes with
  | [] => exact absurd rfl h
  | [_] | [_, _] | _ :: _ :: _ :: _ => exact List.cons_ne_nil _ _

/-- What is written for a token is not empty and is read member by member. -/
theorem decodeToken_members (members : List (String × Json))
    (hvalid : (Json.obj members).Valid) (hdepth : (Json.obj members).nesting ≤ maxNestingDepth) :
    let token := String.ofList (Base64.encode .rawURL (utf8Encode (print (.obj members))))
    token ≠ "" ∧ decodeToken token = match members.foldlM decodeTokenMember ⟨none, 0⟩ with
      | none => .error (invalidInput "malformed page token")
      | some t =>
        match t.Keyset with
        | some k => .ok ⟨some k, 0⟩
        | none => .ok ⟨none, t.OffsetPage⟩ := by
  intro token
  have hne : token ≠ "" := by
    intro hempty
    have hnil : Base64.encode .rawURL (utf8Encode (print (.obj members))) = [] := by
      rw [← String.toList_ofList (l := Base64.encode _ _)]
      exact String.toList_eq_nil_iff.mpr hempty
    obtain ⟨c, rest, hprint, _⟩ := print_head hvalid
    apply encode_ne_nil _ hnil
    rw [hprint, utf8Encode_cons]
    exact List.append_ne_nil_of_left_ne_nil String.utf8EncodeChar_ne_nil _
  refine ⟨hne, ?_⟩
  rw [decodeToken, if_neg hne, String.toList_ofList, Base64.decode_encode, Option.bind_some,
    utf8Decode_utf8Encode, unmarshal_print hvalid hdepth, decodeStruct]

theorem decodeToken_print {members : List (String × Json)} {t : PageToken}
    (hvalid : (Json.obj members).Valid) (hdepth : (Json.obj members).nesting ≤ maxNestingDepth)
    (hread : members.foldlM decodeTokenMember ⟨none, 0⟩ = some t)
    (hunion : t.Keyset = none ∨ t.OffsetPage = 0) :
    let token := String.ofList (Base64.encode .rawURL (utf8Encode (print (.obj members))))
    token ≠ "" ∧ decodeToken token = .ok t := by
  obtain ⟨hne, hdecode⟩ := decodeToken_members members hvalid hdepth
  refine ⟨hne, ?_⟩
  rw [hdecode, hread]
  obtain ⟨keyset, page⟩ := t
  cases keyset with
  | none => rfl
  | some k =>
    rcases hunion with hkeyset | hpage
    · cases hkeyset
    · rw [show page = 0 from hpage]

theorem decodeToken_offset_of_ne_zero (page : ℤ) (hne : page ≠ 0) (hlow : -2 ^ 31 ≤ page)
    (hhigh : page < 2 ^ 31) :
    ∃ token, encodeToken ⟨none, page⟩ = .ok token ∧ token ≠ "" ∧
      decodeToken token = .ok ⟨none, page⟩ := by
  have hjson : tokenJson ⟨none, page⟩ = some (.obj [("o", .num (decimal page))]) := by
    rw [tokenJson, if_neg hne]
  have hread : [("o", Json.num (decimal page))].foldlM decodeTokenMember ⟨none, 0⟩ =
      some ⟨none, page⟩ := by
    rw [List.foldlM_cons, decodeTokenMember,
      if_neg (show ¬ equalFold "k" "o" = true by decide),
      if_pos (show equalFold "o" "o" = true by decide), decodeInt32_decimal hlow hhigh]
    rfl
  refine ⟨_, by rw [encodeToken, hjson], decodeToken_print ?_ ?_ hread (Or.inl rfl)⟩
  · exact ⟨numberLiteral_decimal, trivial⟩
  · simp [nestingMembers, Json.nesting, maxNestingDepth]

theorem decodeToken_offset (page : ℤ) (hlow : 1 ≤ page) (hhigh : page < 2 ^ 31) :
    ∃ token, encodeToken ⟨none, page⟩ = .ok token ∧ token ≠ "" ∧
      decodeToken token = .ok ⟨none, page⟩ :=
  decodeToken_offset_of_ne_zero page (by omega) (by omega) hhigh

/-- A keyset cursor is read with its id and fingerprint if its sort values are read. -/
theorem foldlM_keysetJson (k : KeysetCursor) (js : List Json) :
    [("k", keysetJson k js)].foldlM decodeTokenMember ⟨none, 0⟩ =
      (js.mapM decodeAny).map fun ws => ⟨some ⟨ws, k.ID, k.Fingerprint⟩, 0⟩ := by
  cases hvalues : js.mapM decodeAny <;>
    simp [keysetJson, decodeStruct, decodeTokenMember, decodeKeyset, List.foldlM,
      decodeKeysetMember, decodeValues, hvalues, decodeString, decodeBytes_encode, equalFold,
      foldChar]

theorem decodeToken_keyset {vs ws : List Value} (id : String) (fingerprint : List UInt8)
    (h : List.Forall₂ Carried vs ws) :
    ∃ token, encodeToken ⟨some ⟨vs, id, fingerprint⟩, 0⟩ = .ok token ∧ token ≠ "" ∧
      decodeToken token = .ok ⟨some ⟨ws, id, fingerprint⟩, 0⟩ := by
  obtain ⟨js, hmarshal, hvalid, hnesting, hdecode⟩ := carried_all h
  have hjson : tokenJson ⟨some ⟨vs, id, fingerprint⟩, 0⟩ =
      some (.obj [("k", keysetJson ⟨vs, id, fingerprint⟩ js)]) := by
    rw [tokenJson]
    simp only [hmarshal, Option.map_some]
  have hread := foldlM_keysetJson ⟨vs, id, fingerprint⟩ js
  rw [hdecode, Option.map_some] at hread
  refine ⟨_, by rw [encodeToken, hjson], decodeToken_print ?_ ?_ hread (Or.inr rfl)⟩
  · exact ⟨⟨hvalid, trivial, trivial, trivial⟩, trivial⟩
  · simp [keysetJson, nestingMembers, Json.nesting, hnesting, maxNestingDepth]

theorem valid_marshalScalar {v : Scalar} {j : Json} (h : marshalScalar v = some j) :
    j.Valid ∧ j.nesting ≤ 0 := by
  cases v with
  | str s =>
    obtain rfl := Option.some.inj h
    exact ⟨trivial, Nat.le_refl _⟩
  | int n =>
    obtain rfl := Option.some.inj h
    exact ⟨numberLiteral_decimal, Nat.le_refl _⟩
  | float bits =>
    obtain ⟨text, htext, rfl⟩ := Option.map_eq_some_iff.mp h
    exact ⟨JsonFloat.goFloat_literal htext, Nat.le_refl _⟩
  | bool b =>
    obtain rfl := Option.some.inj h
    exact ⟨trivial, Nat.le_refl _⟩
  | time t =>
    obtain ⟨text, -, rfl⟩ := Option.map_eq_some_iff.mp h
    exact ⟨trivial, Nat.le_refl _⟩
  | uuid bytes =>
    obtain rfl := Option.some.inj h
    exact ⟨trivial, Nat.le_refl _⟩

theorem valid_mapM {α : Type} {f : α → Option Json} {depth : ℕ} {vs : List α} {js : List Json}
    (hitem : ∀ v j, f v = some j → j.Valid ∧ j.nesting ≤ depth) (h : vs.mapM f = some js) :
    ValidItems js ∧ nestingItems js ≤ depth := by
  rw [validItems_iff, nestingItems_le_iff, ← forall₂_and]
  intro j hj
  obtain ⟨v, -, hv⟩ := (mem_of_mapM h).mp hj
  exact hitem v j hv

theorem valid_marshalValue {v : Value} {j : Json} (h : marshalValue v = some j) :
    j.Valid ∧ j.nesting ≤ 1 := by
  cases v with
  | nil =>
    obtain rfl := Option.some.inj h
    exact ⟨trivial, Nat.zero_le _⟩
  | scalar v =>
    obtain ⟨hvalid, hnesting⟩ := valid_marshalScalar h
    exact ⟨hvalid, hnesting.trans (Nat.zero_le _)⟩
  | list vs =>
    obtain ⟨js, hjs, rfl⟩ := Option.map_eq_some_iff.mp h
    obtain ⟨hvalid, hnesting⟩ := valid_mapM (fun _ _ => valid_marshalScalar) hjs
    exact ⟨hvalid, Nat.succ_le_succ hnesting⟩

/-- The cursor read from a token has the fingerprint that was written. -/
theorem fingerprint_decodeToken {k : KeysetCursor} {page : ℤ} {token : String} {tok : PageToken}
    (h : encodeToken ⟨some k, page⟩ = .ok token) (hdecode : decodeToken token = .ok tok) :
    ∃ cur, tok = ⟨some cur, 0⟩ ∧ cur.Fingerprint = k.Fingerprint := by
  unfold encodeToken at h
  split at h
  · cases h
  next j hjson =>
  obtain ⟨js, hjs, rfl⟩ := Option.map_eq_some_iff.mp hjson
  obtain rfl := Except.ok.inj h
  obtain ⟨hvalid, hnesting⟩ := valid_mapM (fun _ _ => valid_marshalValue) hjs
  have hmembers := decodeToken_members [("k", keysetJson k js)]
    ⟨⟨hvalid, trivial, trivial, trivial⟩, trivial⟩ (by
      simp [keysetJson, nestingMembers, Json.nesting, maxNestingDepth]
      omega)
  rw [hmembers.2, foldlM_keysetJson] at hdecode
  cases hvalues : js.mapM decodeAny with
  | none =>
    rw [hvalues] at hdecode
    cases hdecode
  | some ws =>
    rw [hvalues] at hdecode
    exact ⟨_, (Except.ok.inj hdecode).symm, rfl⟩

end KnowledgeEngine.PageTokens
