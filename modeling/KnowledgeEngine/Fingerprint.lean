import KnowledgeEngine.DelimitedText
import KnowledgeEngine.FilterCompile
import KnowledgeEngine.FilterGrammar
import KnowledgeEngine.ValueText

/-!
The fingerprint of a sort order and a filter (core/types/query.go) and the filter part
of a cached count's key (foundation/cache/keys.go). Both hash one text: the sort fields
with their directions, then the filter with its operands tagged by type. Texts are
written as they are, without escapes. Where no text operand has a comma, the encoding
can be read back.
-/

namespace KnowledgeEngine.Fingerprint

open CoreTypes DelimitedText FilterParse FloatRoundTrip FloatText MachineNumbers ValueText

/-- The type a scalar is tagged with. -/
inductive Tag
  | str | bool | int | float | time | uuid

def tagOf : Scalar → Tag
  | .str _ => .str
  | .bool _ => .bool
  | .int _ => .int
  | .float _ => .float
  | .time _ => .time
  | .uuid _ => .uuid

/-- Text and booleans have tags of their own, other types that of %T. -/
def Tag.text : Tag → List Char
  | str => "str".toList
  | bool => "bool".toList
  | int => "int64".toList
  | float => "float64".toList
  | time => "time.Time".toList
  | uuid => "uuid.UUID".toList

def encodeScalar (v : Scalar) : List Char := (tagOf v).text ++ ':' :: scalarChars v

/-- encodeValueFingerprint. -/
def encodeValue : Value → List Char
  | .nil => "nil:".toList
  | .scalar v => encodeScalar v
  | .list vs => "list:[".toList ++ (separated ',' encodeScalar vs ++ [']'])

def operatorText : FilterOperator → List Char
  | .opEq => "eq".toList
  | .opNe => "ne".toList
  | .opIn => "in".toList
  | .opNotIn => "not_in".toList
  | .opLike => "like".toList
  | .opGt => "gt".toList
  | .opGte => "gte".toList
  | .opLt => "lt".toList
  | .opLte => "lte".toList

mutual

/-- encodeFilterFingerprint. -/
def encodeFilter : Filter → List Char
  | .nil => "()".toList
  | .clause field op v _ =>
    if field = "" then "()".toList
    else "clause(".toList ++ (field.toList ++ '|' :: (operatorText op ++ '|' ::
      (encodeValue v ++ [')'])))
  | .composite and or =>
    if and = [] ∧ or = [] then "()".toList
    else if and ≠ [] then "and(".toList ++ (encodeEach and ++ [')'])
    else "or(".toList ++ (encodeEach or ++ [')'])

def encodeEach : List Filter → List Char
  | [] => []
  | sub :: rest => encodeFilter sub ++ ',' :: encodeEach rest

end

def encodeField (of : OrderField) : List Char :=
  of.Field.toList ++ (if of.Desc then "|desc;" else "|asc;").toList

def encode (sort : List OrderField) (filter : Filter) : List Char :=
  "sort:".toList ++ (sort.flatMap encodeField ++ ("|filter:".toList ++ encodeFilter filter))

def bytes (text : List Char) : List UInt8 := (String.ofList text).toUTF8.data.toList

def fingerprint (sha256 : List UInt8 → List UInt8) (sort : List OrderField) (filter : Filter) :
    List UInt8 :=
  sha256 (bytes (encode sort filter))

def hexByte (b : UInt8) : List Char :=
  [Nat.digitChar (b.toNat / 16), Nat.digitChar (b.toNat % 16)]

/-- The key component of a cached count. -/
def filterHash (sha256 : List UInt8 → List UInt8) (filter : Filter) : List Char :=
  (fingerprint sha256 [] filter).flatMap hexByte

theorem encodeEach_eq (subs : List Filter) : encodeEach subs = separated ',' encodeFilter subs := by
  induction subs with
  | nil => rfl
  | cons sub rest ih =>
    rw [encodeEach, ih]
    simp [separated]

theorem bytes_injective : Function.Injective bytes := by
  intro a b h
  have hutf8 : (String.ofList a).toUTF8 = (String.ofList b).toUTF8 :=
    ByteArray.ext (Array.toList_inj.mp h)
  exact String.ofList_injective (String.toByteArray_inj.mp hutf8)

theorem hexByte_inj {a b : UInt8} (h : hexByte a = hexByte b) : a = b := by
  have hdigit (m n : ℕ) (hm : m < 16) (hn : n < 16) (heq : Nat.digitChar m = Nat.digitChar n) :
      m = n := by
    have hvalue := congrArg JsonText.hexValue heq
    rw [JsonText.hexValue_digitChar hm, JsonText.hexValue_digitChar hn] at hvalue
    exact Option.some.inj hvalue
  have ha := a.toNat_lt
  have hb := b.toNat_lt
  simp only [hexByte, List.cons.injEq, and_true] at h
  have hhigh := hdigit _ _ (by omega) (by omega) h.1
  have hlow := hdigit _ _ (by omega) (by omega) h.2
  apply UInt8.toNat_inj.mp
  omega

theorem hexBytes_injective : Function.Injective fun bs : List UInt8 => bs.flatMap hexByte := by
  intro a b h
  induction a generalizing b with
  | nil =>
    cases b with
    | nil => rfl
    | cons d rest' => exact nomatch h
  | cons c rest ih =>
    cases b with
    | nil => exact nomatch h
    | cons d rest' =>
      simp only [List.flatMap_cons] at h
      obtain ⟨hbyte, hrest⟩ := List.append_inj h rfl
      rw [hexByte_inj hbyte, ih hrest]

theorem Tag.text_injective : Function.Injective Tag.text := by
  intro a b h
  cases a <;> cases b <;> first
    | rfl
    | exact absurd h (by decide)

theorem Tag.text_plain (t : Tag) : ':' ∉ t.text ∧ ',' ∉ t.text := by
  cases t <;> decide

theorem operatorText_injective : Function.Injective operatorText := by
  intro a b h
  cases a <;> cases b <;> first
    | rfl
    | exact absurd h (by decide)

theorem operatorText_bar (op : FilterOperator) : '|' ∉ operatorText op := by
  cases op <;> decide

theorem decimal_comma (n : ℤ) : ',' ∉ decimal n := by
  have hdigits (k : ℕ) : ',' ∉ Nat.toDigits 10 k := fun h =>
    absurd (Nat.isDigit_of_mem_toDigits (by decide) (by decide) h) (by decide)
  cases n with
  | ofNat k => exact hdigits k
  | negSucc k => simp [decimal, hdigits]

variable {loc : Location} {s : String} {ft : FieldType} {t : Time} {v : Scalar}

/-- A parsed time has an offset of whole minutes. -/
theorem parseTime_minutes (h : parseTime loc s = some t) : t.offset = t.offset.tdiv 60 * 60 := by
  obtain ⟨⟨wall, zoned⟩, hparse, rfl⟩ := Option.map_eq_some_iff.mp h
  cases zoned with
  | none => rfl
  | some offset =>
    obtain ⟨minutes, hminutes⟩ := Rfc3339.parse_minutes hparse
    simp only [hminutes, Int.mul_tdiv_cancel _ (show (60 : ℤ) ≠ 0 by decide)]

/-- The zone of a parsed time is UTC or depends on its instant and offset alone. -/
theorem parseTime_zone (h : parseTime loc s = some t) :
    t.offset = 0 ∧ t.zone = "UTC" ∨ t.zone =
      if (loc.lookup (t.nanos / 1000000000)).1 = t.offset
      then (loc.lookup (t.nanos / 1000000000)).2 else "" := by
  obtain ⟨⟨wall, zoned⟩, _, rfl⟩ := Option.map_eq_some_iff.mp h
  cases zoned with
  | none => exact Or.inl ⟨rfl, rfl⟩
  | some offset => exact Or.inr rfl

theorem parseTime_comma (h : parseTime loc s = some t) : ',' ∉ t.zone.toList := by
  rcases parseTime_zone h with ⟨_, hutc⟩ | hzone
  · rw [hutc]
    decide
  · rw [hzone]
    split
    · intro hmem
      rcases loc.abbreviation _ ',' hmem with halnum | hsign | hsign
      · exact absurd halnum (by decide)
      · exact absurd hsign (by decide)
      · exact absurd hsign (by decide)
    · decide

theorem zoneChars_utc (hoffset : t.offset = 0) (h : zoneChars t = "UTC".toList) :
    t.zone = "UTC" := by
  unfold zoneChars at h
  split at h
  · rw [hoffset] at h
    exact absurd h (by decide)
  · exact String.toList_injective h

theorem parseTime_inj {s s' : String} {t' : Time} (h : parseTime loc s = some t)
    (h' : parseTime loc s' = some t') (heq : timeChars t = timeChars t') : t = t' := by
  obtain ⟨hnanos, hoffset, hchars⟩ := timeChars_inj (parseTime_minutes h) (parseTime_minutes h') heq
  have hutcChars (u : Time) (hu : u.zone = "UTC") : zoneChars u = "UTC".toList := by
    rw [zoneChars, hu, if_neg (by decide)]
  have hzone : t.zone = t'.zone := by
    rcases parseTime_zone h with ⟨hzero, hutc⟩ | hlocal
    · rw [hutcChars t hutc] at hchars
      rw [hutc, zoneChars_utc (hoffset ▸ hzero) hchars.symm]
    · rcases parseTime_zone h' with ⟨hzero, hutc⟩ | hlocal'
      · rw [hutcChars t' hutc] at hchars
        rw [hutc, zoneChars_utc (hoffset ▸ hzero) hchars]
      · rw [hlocal, hlocal', hnanos, hoffset]
  cases t
  cases t'
  simp_all

/-- A text without commas, or an operand of another type. -/
def CommaFree (v : Scalar) : Prop := ∀ s, v = .str s → ',' ∉ s.toList

theorem encodeScalar_comma (h : Decodes loc ft v) (hfree : CommaFree v) : ',' ∉ encodeScalar v := by
  have hchars : ',' ∉ scalarChars v := by
    cases h with
    | string s => exact hfree s rfl
    | id s => exact hfree s rfl
    | int n _ => exact decimal_comma n
    | float bits _ => exact fun hmem => absurd (formatFloat_isFloatChar ',' hmem) (by decide)
    | bool b => cases b <;> decide
    | time s t ht => exact timeChars_comma t (parseTime_comma ht)
  simp [encodeScalar, (tagOf v).text_plain.2, hchars]

theorem scalarChars_inj {ft' : FieldType} {v' : Scalar} (h : Decodes loc ft v)
    (h' : Decodes loc ft' v') (htag : tagOf v = tagOf v')
    (hchars : scalarChars v = scalarChars v') :
    v = v' := by
  cases h with
  | string s | id s =>
    cases h' with
    | string s' | id s' => rw [String.toList_injective (show s.toList = s'.toList from hchars)]
    | int n _ | float bits _ | bool b | time s' t _ => exact nomatch htag
  | bool b =>
    cases h' with
    | bool b' => cases b <;> cases b' <;> first | rfl | exact absurd hchars (by decide)
    | string s' | id s' | int n _ | float bits _ | time s' t _ => exact nomatch htag
  | int n hfits =>
    cases h' with
    | int n' hfits' =>
      have hparse := parseDecimal_decimal hfits
      rw [show decimal n = decimal n' from hchars, parseDecimal_decimal hfits'] at hparse
      rw [Option.some.inj hparse]
    | string s' | id s' | bool b | float bits _ | time s' t _ => exact nomatch htag
  | float bits hfinite =>
    cases h' with
    | float bits' hfinite' =>
      have hparse := parseFloat_formatFloat hfinite
      rw [show formatFloat bits = formatFloat bits' from hchars,
        parseFloat_formatFloat hfinite'] at hparse
      rw [Option.some.inj hparse]
    | string s' | id s' | bool b | int n _ | time s' t _ => exact nomatch htag
  | time s t ht =>
    cases h' with
    | time s' t' ht' => rw [parseTime_inj ht ht' hchars]
    | string s' | id s' | bool b | int n _ | float bits _ => exact nomatch htag

theorem encodeScalar_inj {ft' : FieldType} {v' : Scalar} (h : Decodes loc ft v)
    (h' : Decodes loc ft' v') (heq : encodeScalar v = encodeScalar v') : v = v' := by
  obtain ⟨htag, hchars⟩ := field_append_inj ':' _ _ _ _ (tagOf v).text_plain.1
    (tagOf v').text_plain.1 (stops_cons ':' _) (stops_cons ':' _) heq
  exact scalarChars_inj h h' (Tag.text_injective htag) (List.cons.inj hchars).2

def operands : Value → List Scalar
  | .nil => []
  | .scalar v => [v]
  | .list vs => vs

theorem encodeScalar_opens : Opens ']' (encodeScalar v) := by
  have htag (t : Tag) : Opens ']' t.text := by
    cases t <;> exact ⟨_, _, rfl, by decide⟩
  obtain ⟨c, rest, hrest, hne⟩ := htag (tagOf v)
  exact ⟨c, rest ++ ':' :: scalarChars v, by rw [encodeScalar, hrest, List.cons_append], hne⟩

-- The equations of `encodeValue` are not used: deriving them decodes its string literals.
theorem encodeValue_list (ws : List Scalar) :
    encodeValue (.list ws) = "list:[".toList ++ (separated ',' encodeScalar ws ++ [']']) := rfl

theorem encodeValue_list_append (ws : List Scalar) (x : List Char) :
    encodeValue (.list ws) ++ x =
      "list:[".toList ++ (separated ',' encodeScalar ws ++ ']' :: x) := by
  rw [encodeValue_list, List.append_assoc, List.append_assoc, List.singleton_append]

/-- An operand can be read off the front of a text that goes on with a bracket and then
stops. -/
theorem encodeValue_append_inj (loc : Location) (op : FilterOperator) (ft ft' : FieldType)
    (v v' : Value) (x y : List Char) (h : DecodesValue loc op ft v)
    (h' : DecodesValue loc op ft' v') (hfree : ∀ w ∈ operands v, CommaFree w)
    (hfree' : ∀ w ∈ operands v', CommaFree w) (hx : Stops ',' x) (hy : Stops ',' y)
    (heq : encodeValue v ++ ')' :: x = encodeValue v' ++ ')' :: y) : v = v' ∧ x = y := by
  cases v with
  | nil => exact h.elim
  | scalar w =>
    cases v' with
    | nil => exact h'.elim
    | list ws => exact absurd h'.1 (not_or.mpr ⟨h.1, h.2.1⟩)
    | scalar w' =>
      have hcomma := encodeScalar_comma h.2.2 (hfree w List.mem_cons_self)
      have hcomma' := encodeScalar_comma h'.2.2 (hfree' w' List.mem_cons_self)
      change encodeScalar w ++ ')' :: x = encodeScalar w' ++ ')' :: y at heq
      obtain ⟨hscalar, hxy⟩ := field_append_inj ',' (encodeScalar w ++ [')'])
        (encodeScalar w' ++ [')']) x y (by simp [hcomma]) (by simp [hcomma']) hx hy
        (by simpa using heq)
      rw [encodeScalar_inj h.2.2 h'.2.2 (List.append_cancel_right hscalar)]
      exact ⟨rfl, hxy⟩
  | list ws =>
    cases v' with
    | nil => exact h'.elim
    | scalar w' => exact absurd h.1 (not_or.mpr ⟨h'.1, h'.2.1⟩)
    | list ws' =>
      rw [encodeValue_list_append, encodeValue_list_append] at heq
      have hread : ∀ a ∈ ws, ∀ b ∈ ws', ∀ u w, Stops ',' u → Stops ',' w →
          encodeScalar a ++ u = encodeScalar b ++ w → a = b ∧ u = w := by
        intro a ha b hb u w hu hw hab
        obtain ⟨hscalar, huw⟩ := field_append_inj ',' _ _ u w
          (encodeScalar_comma (h.2 a ha) (hfree a ha))
          (encodeScalar_comma (h'.2 b hb) (hfree' b hb)) hu hw hab
        exact ⟨encodeScalar_inj (h.2 a ha) (h'.2 b hb) hscalar, huw⟩
      obtain ⟨hws, hxy⟩ := separated_append_inj ',' ']' encodeScalar ws ws' (')' :: x) (')' :: y)
        hread (fun a _ => encodeScalar_opens) (fun b _ => encodeScalar_opens)
        (List.append_cancel_left heq)
      exact ⟨by rw [hws], (List.cons.inj hxy).2⟩

end KnowledgeEngine.Fingerprint
