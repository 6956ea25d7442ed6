import KnowledgeEngine.FilterParse
import KnowledgeEngine.Transitions

/-!
The grammar of filters and what Parse accepts. A JSON map keeps the last value of a repeated
key and null reads as an empty map or list, so Parse accepts exactly the texts whose reading
in this sense is in the grammar.
-/

namespace KnowledgeEngine.FilterGrammar

open CoreTypes FilterParse FloatText JsonText MachineNumbers StringText Traversals

/-- A JSON value of a field's type, with the operand it stands for. -/
inductive HasType (loc : Location) : FieldType → Json → Scalar → Prop
  | string (s : String) : HasType loc .string (.str s) (.str s)
  | id (s : String) : HasType loc .id (.str s) (.str s)
  | int (literal : List Char) (n : ℤ) (h : parseDecimal literal = some n) :
      HasType loc .int (.num literal) (.int n)
  | float (literal : List Char) (bits : BitVec 64) (h : parseFloat literal = some bits) :
      HasType loc .float (.num literal) (.float bits)
  | bool (b : Bool) : HasType loc .bool (.bool b) (.bool b)
  | time (s : String) (t : Time) (h : parseTime loc s = some t) :
      HasType loc .time (.str s) (.time t)

/-- An array of such values for in and not_in, one such value otherwise. -/
inductive Operand (loc : Location) (ft : FieldType) : FilterOperator → Json → Value → Prop
  | list (op : FilterOperator) (items : List Json) (vs : List Scalar)
      (hop : op = .opIn ∨ op = .opNotIn) (h : List.Forall₂ (HasType loc ft) items vs) :
      Operand loc ft op (.arr items) (.list vs)
  | scalar (op : FilterOperator) (raw : Json) (v : Scalar) (hop : ¬ (op = .opIn ∨ op = .opNotIn))
      (h : HasType loc ft raw v) : Operand loc ft op raw (.scalar v)

/-- A filter object at a nesting depth and the tree that mirrors it. -/
inductive FilterObject (loc : Location) (m : Map) : ℕ → Json → Filter → Prop
  | and (depth : ℕ) (items : List Json) (subs : List Filter) (hdepth : depth ≤ maxFilterDepth)
      (hne : items ≠ []) (hlength : items.length = subs.length)
      (h : ∀ item sub, (item, sub) ∈ items.zip subs → FilterObject loc m (depth + 1) item sub) :
      FilterObject loc m depth (.obj [("$and", .arr items)]) (.composite subs [])
  | or (depth : ℕ) (items : List Json) (subs : List Filter) (hdepth : depth ≤ maxFilterDepth)
      (hne : items ≠ []) (hlength : items.length = subs.length)
      (h : ∀ item sub, (item, sub) ∈ items.zip subs → FilterObject loc m (depth + 1) item sub) :
      FilterObject loc m depth (.obj [("$or", .arr items)]) (.composite [] subs)
  | comparison (depth : ℕ) (key name : String) (op : FilterOperator) (field : Field) (raw : Json)
      (v : Value) (hdepth : depth ≤ maxFilterDepth) (hop : opToken key = some op)
      (hfield : m.lookup name = some field) (h : Operand loc field.Type op raw v) :
      FilterObject loc m depth (.obj [(key, .obj [(name, raw)])]) (.clause name op v none)

/-- The whole text is an empty object or a filter object. -/
inductive FilterText (loc : Location) (m : Map) : Json → Filter → Prop
  | empty : FilterText loc m (.obj []) (.composite [] [])
  | object (json : Json) (f : Filter) (h : FilterObject loc m 0 json f) : FilterText loc m json f

/-- The operand as decodeValue reads it. -/
def readOperand (op : FilterOperator) (raw : Json) : Json :=
  if op = .opIn ∨ op = .opNotIn then
    match unmarshalArray raw with
    | none => raw
    | some items => .arr items
  else raw

/-- The operator body as Parse reads it. -/
def readBody (op : FilterOperator) (raw : Json) : Json :=
  match unmarshalMap raw with
  | none => raw
  | some fields => .obj (fields.map fun field => (field.1, readOperand op field.2))

/-- The value of an operator as Parse reads it, given the reading of a filter object. -/
def readMember (read : Json → Json) (key : String) (raw : Json) : Json :=
  if key = "$and" ∨ key = "$or" then
    match unmarshalArray raw with
    | none => raw
    | some items => .arr (items.map read)
  else
    match opToken key with
    | none => raw
    | some op => readBody op raw

/-- A filter object as Parse reads it: the last value of a repeated key, null as an empty map
or list; objects nested deeper than the levels are left alone. -/
def readObject : ℕ → Json → Json
  | 0, json => json
  | levels + 1, json =>
    match unmarshalMap json with
    | none => json
    | some node => .obj (node.map fun member =>
        (member.1, readMember (readObject levels) member.1 member.2))

variable {loc : Location} {m : Map} {ft : FieldType} {op : FilterOperator} {raw json : Json}
  {f : Filter}

theorem decodeScalar_iff {v : Scalar} : decodeScalar loc raw ft = .ok v ↔ HasType loc ft raw v := by
  constructor
  · intro h
    cases ft <;> cases raw <;> try cases h
    · exact .string _
    · obtain ⟨n, hn, rfl⟩ := Option.map_eq_some_iff.mp (elim_ok_iff.mp h)
      exact .int _ n hn
    · obtain ⟨bits, hbits, rfl⟩ := Option.map_eq_some_iff.mp (elim_ok_iff.mp h)
      exact .float _ bits hbits
    · exact .bool _
    · obtain ⟨t, ht, rfl⟩ := Option.map_eq_some_iff.mp (elim_ok_iff.mp h)
      exact .time _ t ht
    · exact .id _
  · intro h
    cases h with
    | string s | id s | bool b => rfl
    | int literal n h => simp [decodeScalar, h]
    | float literal bits h => simp [decodeScalar, h]
    | time s t h => simp [decodeScalar, h]

variable {v : Value}

theorem operand_list (hop : op = .opIn ∨ op = .opNotIn) : Operand loc ft op raw v ↔
    ∃ items vs, raw = .arr items ∧ v = .list vs ∧ List.Forall₂ (HasType loc ft) items vs := by
  constructor
  · intro h
    cases h with
    | list items vs _ h => exact ⟨items, vs, rfl, rfl, h⟩
    | scalar _ w hscalar h => exact absurd hop hscalar
  · rintro ⟨items, vs, rfl, rfl, h⟩
    exact .list op items vs hop h

theorem operand_scalar (hop : ¬ (op = .opIn ∨ op = .opNotIn)) :
    Operand loc ft op raw v ↔ ∃ w, v = .scalar w ∧ HasType loc ft raw w := by
  constructor
  · intro h
    cases h with
    | list items vs hlist h => exact absurd hlist hop
    | scalar _ w _ h => exact ⟨w, rfl, h⟩
  · rintro ⟨w, rfl, h⟩
    exact .scalar op raw w hop h

theorem ne_arr_of_unmarshalArray (h : unmarshalArray raw = none) (items : List Json) :
    raw ≠ .arr items := by
  rintro rfl
  cases h

theorem ne_obj_of_unmarshalMap (h : unmarshalMap raw = none) (members : RawMap) :
    raw ≠ .obj members := by
  rintro rfl
  cases h

theorem decodeValue_iff :
    decodeValue loc op raw ft = .ok v ↔ Operand loc ft op (readOperand op raw) v := by
  have hscalar : (fun item v => decodeScalar loc item ft = .ok v) = HasType loc ft := by
    funext item v
    exact propext decodeScalar_iff
  unfold decodeValue readOperand
  by_cases hop : op = .opIn ∨ op = .opNotIn
  · rw [if_pos hop, if_pos hop, operand_list hop]
    cases hitems : unmarshalArray raw with
    | none => simp [ne_arr_of_unmarshalArray hitems]
    | some items =>
      rw [bind_ok_iff]
      simp only [mapM_ok_iff, hscalar]
      constructor
      · rintro ⟨vs, hvs, h⟩
        cases h
        exact ⟨items, vs, rfl, rfl, hvs⟩
      · rintro ⟨items', vs, h, rfl, hvs⟩
        cases h
        exact ⟨vs, hvs, rfl⟩
  · rw [if_neg hop, if_neg hop, operand_scalar hop, bind_ok_iff]
    simp only [decodeScalar_iff]
    constructor
    · rintro ⟨w, hw, h⟩
      cases h
      exact ⟨w, rfl, hw⟩
    · rintro ⟨w, rfl, hw⟩
      exact ⟨w, hw, rfl⟩

theorem readBody_eq_single {name : String} {operand : Json} :
    readBody op raw = .obj [(name, operand)] ↔
      ∃ rawV, unmarshalMap raw = some [(name, rawV)] ∧ readOperand op rawV = operand := by
  unfold readBody
  cases hraw : unmarshalMap raw with
  | none => simp [ne_obj_of_unmarshalMap hraw]
  | some fields =>
    match fields with
    | [] => simp
    | (name', rawV) :: second :: rest => simp
    | [(name', rawV)] => simp

theorem parseClause_iff : parseClause loc m op raw = .ok f ↔
    ∃ name operand field v, readBody op raw = .obj [(name, operand)] ∧
      m.lookup name = some field ∧ Operand loc field.Type op operand v ∧
      f = .clause name op v none := by
  simp only [readBody_eq_single]
  unfold parseClause
  cases hraw : unmarshalMap raw with
  | none => simp
  | some fields =>
    match fields with
    | [] => simp
    | (name, rawV) :: second :: rest => simp
    | [(name, rawV)] =>
      cases hfield : m.lookup name with
      | none => simp_all
      | some field =>
        have hname := lookup_name hfield
        simp only [hfield, bind_ok_iff, decodeValue_iff, hname]
        constructor
        · rintro ⟨v, hv, h⟩
          cases h
          exact ⟨name, _, field, v, ⟨rawV, rfl, rfl⟩, hfield, hv, rfl⟩
        · rintro ⟨name', operand, field', v, ⟨rawV', hbody, rfl⟩, hfield', hv, rfl⟩
          cases hbody
          rw [hfield] at hfield'
          cases hfield'
          exact ⟨v, hv, rfl⟩

/-- The tree of a composite with the key. -/
def compositeOf (key : String) (subs : List Filter) : Filter :=
  if key = "$and" then .composite subs [] else .composite [] subs

/-- The value an operator has in the grammar. -/
def Member (loc : Location) (m : Map) (depth : ℕ) (key : String) (body : Json) (f : Filter) :
    Prop :=
  ((key = "$and" ∨ key = "$or") ∧ ∃ items subs, body = .arr items ∧ items ≠ [] ∧
      List.Forall₂ (FilterObject loc m (depth + 1)) items subs ∧ f = compositeOf key subs) ∨
    ∃ op name raw field v, opToken key = some op ∧ body = .obj [(name, raw)] ∧
      m.lookup name = some field ∧ Operand loc field.Type op raw v ∧ f = .clause name op v none

variable {levels depth : ℕ} {key : String}

theorem filterObject_iff (hdepth : depth ≤ maxFilterDepth) :
    FilterObject loc m depth json f ↔
      ∃ key body, json = .obj [(key, body)] ∧ Member loc m depth key body f := by
  constructor
  · intro h
    cases h with
    | and _ items subs _ hne hlength h =>
      exact ⟨"$and", _, rfl, .inl ⟨.inl rfl, items, subs, rfl, hne,
        List.forall₂_iff_zip.mpr ⟨hlength, h _ _⟩, rfl⟩⟩
    | or _ items subs _ hne hlength h =>
      exact ⟨"$or", _, rfl, .inl ⟨.inr rfl, items, subs, rfl, hne,
        List.forall₂_iff_zip.mpr ⟨hlength, h _ _⟩, rfl⟩⟩
    | comparison _ key name op field raw v _ hop hfield h =>
      exact ⟨key, _, rfl, .inr ⟨op, name, raw, field, v, hop, rfl, hfield, h, rfl⟩⟩
  · rintro ⟨key, body, rfl, ⟨hkey, items, subs, rfl, hne, h, rfl⟩ |
      ⟨op, name, raw, field, v, hop, rfl, hfield, h, rfl⟩⟩
    · obtain ⟨hlength, h⟩ := List.forall₂_iff_zip.mp h
      rcases hkey with rfl | rfl
      · exact .and depth items subs hdepth hne hlength fun _ _ => h
      · exact .or depth items subs hdepth hne hlength fun _ _ => h
    · exact .comparison depth key name op field raw v hdepth hop hfield h

variable {α β : Type}

theorem forall₂_comp {γ : Type} (r : α → β → Prop) (s : β → γ → Prop) (as : List α) (cs : List γ) :
    (∃ bs, List.Forall₂ r as bs ∧ List.Forall₂ s bs cs) ↔
      List.Forall₂ (fun a c => ∃ b, r a b ∧ s b c) as cs := by
  constructor
  · rintro ⟨bs, hr, hs⟩
    induction hr generalizing cs with
    | nil =>
      cases hs
      exact .nil
    | cons hab _ ih =>
      cases hs with
      | cons hbc hs => exact .cons ⟨_, hab, hbc⟩ (ih _ hs)
  · intro h
    induction h with
    | nil => exact ⟨[], .nil, .nil⟩
    | cons hac _ ih =>
      obtain ⟨b, hab, hbc⟩ := hac
      obtain ⟨bs, hr, hs⟩ := ih
      exact ⟨b :: bs, .cons hab hr, .cons hbc hs⟩

theorem parseNode_single (loc : Location) (m : Map) (levels : ℕ) (key : String) (raw : Json) :
    parseNode loc m (levels + 1) [(key, raw)] =
      if key = "$and" ∨ key = "$or" then
        match (unmarshalArray raw).bind fun items => items.mapM unmarshalMap with
        | none => .error (invalidInput ("filter: " ++ key ++ " must be an array of filters"))
        | some [] => .error (invalidInput ("filter: " ++ key ++ " must not be empty"))
        | some nodes => do
          let subs ← nodes.mapM (parseNode loc m levels)
          return compositeOf key subs
      else
        match opToken key with
        | none => .error (invalidInput ("filter: unknown operator " ++ key))
        | some op => parseClause loc m op raw := rfl

theorem parseNode_composite_iff (hkey : key = "$and" ∨ key = "$or") :
    parseNode loc m (levels + 1) [(key, raw)] = .ok f ↔
      ∃ items subs, unmarshalArray raw = some items ∧ items ≠ [] ∧
        List.Forall₂ (fun item sub => ∃ node, unmarshalMap item = some node ∧
          parseNode loc m levels node = .ok sub) items subs ∧ f = compositeOf key subs := by
  rw [parseNode_single, if_pos hkey]
  simp only [← forall₂_comp, ← mapM_some_iff, ← mapM_ok_iff]
  cases hitems : unmarshalArray raw with
  | none => simp
  | some items =>
    simp only [Option.bind_some, Option.some.injEq, exists_and_left, exists_eq_left']
    cases hnodes : items.mapM unmarshalMap with
    | none => simp
    | some nodes =>
      have hlength := (mapM_some_iff.mp hnodes).length_eq
      cases nodes with
      | nil => simp [List.length_eq_zero_iff.mp hlength]
      | cons node rest =>
        have hne : items ≠ [] := by
          rintro rfl
          cases hlength
        rw [bind_ok_iff]
        simp only [ne_eq, hne, not_false_eq_true, true_and, Option.some.injEq, exists_eq_left']
        refine exists_congr fun subs => and_congr_right fun _ => ?_
        exact ⟨fun h => (Except.ok.inj h).symm, fun h => congrArg Except.ok h.symm⟩

theorem parseNode_clause_iff (hkey : ¬ (key = "$and" ∨ key = "$or")) :
    parseNode loc m (levels + 1) [(key, raw)] = .ok f ↔
      ∃ op, opToken key = some op ∧ parseClause loc m op raw = .ok f := by
  rw [parseNode_single, if_neg hkey]
  cases opToken key <;> simp

theorem opToken_composite (hkey : key = "$and" ∨ key = "$or") : opToken key = none := by
  rcases hkey with rfl | rfl <;> rfl

theorem parseNode_member_iff (depth : ℕ)
    (ih : ∀ json f, (∃ node, unmarshalMap json = some node ∧ parseNode loc m levels node = .ok f) ↔
      FilterObject loc m (depth + 1) (readObject levels json) f) :
    parseNode loc m (levels + 1) [(key, raw)] = .ok f ↔
      Member loc m depth key (readMember (readObject levels) key raw) f := by
  unfold Member readMember
  by_cases hkey : key = "$and" ∨ key = "$or"
  · rw [parseNode_composite_iff hkey]
    simp only [ih, opToken_composite hkey, hkey, if_true, true_and, reduceCtorEq, false_and,
      exists_false, or_false]
    cases hitems : unmarshalArray raw with
    | none => simp [ne_arr_of_unmarshalArray hitems]
    | some items =>
      simp only [Option.some.injEq, Json.arr.injEq, exists_and_left, exists_eq_left', ne_eq,
        List.map_eq_nil_iff, List.forall₂_map_left_iff]
  · rw [parseNode_clause_iff hkey]
    simp only [hkey, if_false, false_and, false_or, parseClause_iff]
    cases hop : opToken key with
    | none => simp
    | some op => simp only [Option.some.injEq, exists_and_left, exists_eq_left']

/-- Parse accepts a filter object exactly when its reading is in the grammar. -/
theorem parseNode_iff (hdepth : depth + levels = maxFilterDepth + 1) :
    (∃ node, unmarshalMap json = some node ∧ parseNode loc m levels node = .ok f) ↔
      FilterObject loc m depth (readObject levels json) f := by
  induction levels generalizing depth json f with
  | zero =>
    constructor
    · rintro ⟨node, _, h⟩
      exact nomatch h
    · intro h
      have hle : depth ≤ maxFilterDepth := by
        cases h <;> assumption
      omega
  | succ levels ih =>
    rw [filterObject_iff (by omega)]
    unfold readObject
    cases hnode : unmarshalMap json with
    | none => simp [ne_obj_of_unmarshalMap hnode]
    | some node =>
      simp only [Option.some.injEq, exists_eq_left']
      match node with
      | [] => simp [parseNode]
      | first :: second :: rest => simp [parseNode]
      | [(key, raw)] =>
        rw [parseNode_member_iff depth fun json f => ih (by omega)]
        simp

theorem readOperand_of_operand (h : Operand loc ft op raw v) : readOperand op raw = raw := by
  unfold readOperand
  by_cases hop : op = .opIn ∨ op = .opNotIn
  · obtain ⟨items, vs, rfl, _⟩ := (operand_list hop).mp h
    rw [if_pos hop]
    rfl
  · rw [if_neg hop]

theorem map_eq_of_forall₂ {r : α → β → Prop} {f : α → α} {as : List α} {bs : List β}
    (hf : ∀ a b, r a b → f a = a) (h : List.Forall₂ r as bs) : as.map f = as := by
  induction h with
  | nil => rfl
  | cons hab _ ih => rw [List.map_cons, hf _ _ hab, ih]

/-- The grammar is read as it stands. -/
theorem readObject_of_filterObject (hdepth : depth + levels = maxFilterDepth + 1)
    (h : FilterObject loc m depth json f) : readObject levels json = json := by
  induction levels generalizing depth json f with
  | zero => rfl
  | succ levels ih =>
    obtain ⟨key, body, rfl, hmember⟩ := (filterObject_iff (by omega)).mp h
    have hbody : readMember (readObject levels) key body = body := by
      rcases hmember with ⟨hkey, items, subs, rfl, _, hsubs, _⟩ |
        ⟨op, name, raw, field, v, hop, rfl, _, hv, _⟩
      · have hitems : items.map (readObject levels) = items :=
          map_eq_of_forall₂ (fun item sub hsub => ih (by omega) hsub) hsubs
        rw [readMember, if_pos hkey]
        exact congrArg Json.arr hitems
      · have hkey : ¬ (key = "$and" ∨ key = "$or") := by
          intro hkey
          rw [opToken_composite hkey] at hop
          cases hop
        rw [readMember, if_neg hkey, hop]
        exact congrArg (fun operand => Json.obj [(name, operand)]) (readOperand_of_operand hv)
    exact congrArg (fun value => Json.obj [(key, value)]) hbody

/-- The whole text as Parse reads it. -/
def readText (json : Json) : Json := readObject (maxFilterDepth + 1) json

theorem readText_of_filterText (h : FilterText loc m json f) : readText json = json := by
  cases h with
  | empty => rfl
  | object _ _ h => exact readObject_of_filterObject (Nat.zero_add _) h

theorem filterText_iff : FilterText loc m json f ↔
    (json = .obj [] ∧ f = .composite [] []) ∨ FilterObject loc m 0 json f := by
  constructor
  · intro h
    cases h with
    | empty => exact .inl ⟨rfl, rfl⟩
    | object _ _ h => exact .inr h
  · rintro (⟨rfl, rfl⟩ | h)
    · exact .empty
    · exact .object json f h

theorem readText_eq_empty : readText json = .obj [] ↔ unmarshalMap json = some [] := by
  unfold readText readObject
  cases hnode : unmarshalMap json with
  | none => simp [ne_obj_of_unmarshalMap hnode]
  | some node => simp

variable {text : String}

theorem parseFilter_iff (hblank : trimSpace text.toList ≠ []) :
    parseFilter loc m text = .ok f ↔
      ∃ json, JsonText.parse text.toList = some json ∧ FilterText loc m (readText json) f := by
  unfold parseFilter
  rw [if_neg hblank]
  cases hjson : JsonText.parse text.toList with
  | none => simp
  | some json =>
    simp only [Option.bind_some, Option.some.injEq, exists_eq_left', filterText_iff,
      readText_eq_empty]
    rw [readText, ← parseNode_iff (Nat.zero_add _)]
    match unmarshalMap json with
    | none => simp
    | some [] =>
      have hempty : parseNode loc m (maxFilterDepth + 1) [] ≠ .ok f := fun h => nomatch h
      simp only [Option.some.injEq, exists_eq_left', hempty, or_false, true_and]
      exact ⟨fun h => (Except.ok.inj h).symm, fun h => congrArg Except.ok h.symm⟩
    | some (first :: rest) => simp

theorem HasType.decodes {v : Scalar} (h : HasType loc ft raw v) : Decodes loc ft v := by
  cases h with
  | string s => exact .string s
  | id s => exact .id s
  | int literal n h => exact .int n (parseDecimal_fits h)
  | float literal bits h => exact .float bits (FloatRoundTrip.parseFloat_finite h)
  | bool b => exact .bool b
  | time s t h => exact .time s t h

theorem related_of_forall₂ {r : α → β → Prop} {as : List α} {bs : List β} (h : List.Forall₂ r as bs)
    {b : β} (hb : b ∈ bs) : ∃ a, r a b := by
  induction h with
  | nil => cases hb
  | cons hab _ ih =>
    rcases List.mem_cons.mp hb with rfl | hb
    · exact ⟨_, hab⟩
    · exact ih hb

theorem Operand.decodes (h : Operand loc ft op raw v) : DecodesValue loc op ft v := by
  cases h with
  | list items vs hop h =>
    refine ⟨hop, fun v hv => ?_⟩
    obtain ⟨item, hitem⟩ := related_of_forall₂ h hv
    exact hitem.decodes
  | scalar _ v hop h => exact ⟨fun heq => hop (.inl heq), fun heq => hop (.inr heq), h.decodes⟩

theorem FilterObject.parsed (h : FilterObject loc m depth json f) : Parsed loc m f := by
  have hall : ∀ {items : List Json} {subs : List Filter}, items.length = subs.length →
      (∀ item sub, (item, sub) ∈ items.zip subs → Parsed loc m sub) → items ≠ [] →
        subs ≠ [] ∧ ∀ sub ∈ subs, Parsed loc m sub := by
    intro items subs hlength h hne
    refine ⟨fun hnil => hne (List.length_eq_zero_iff.mp (hlength.trans (hnil ▸ rfl))), ?_⟩
    intro sub hsub
    obtain ⟨-, hparsed⟩ := related_of_forall₂ (List.forall₂_iff_zip.mpr ⟨hlength, h _ _⟩) hsub
    exact hparsed
  induction h with
  | and depth items subs hdepth hne hlength h ih =>
    obtain ⟨hsubs, hparsed⟩ := hall hlength ih hne
    exact .and subs hsubs hparsed
  | or depth items subs hdepth hne hlength h ih =>
    obtain ⟨hsubs, hparsed⟩ := hall hlength ih hne
    exact .or subs hsubs hparsed
  | comparison depth key name op field raw v hdepth hop hfield h =>
    exact .clause name op field v hfield h.decodes

/-- Parse yields the empty filter or one made of allow-listed fields and their operands. -/
theorem parseFilter_parsed (h : parseFilter loc m text = .ok f) :
    f = .composite [] [] ∨ Parsed loc m f := by
  by_cases hblank : trimSpace text.toList = []
  · rw [parseFilter, if_pos hblank] at h
    exact .inl (Except.ok.inj h).symm
  · obtain ⟨json, -, hread⟩ := (parseFilter_iff hblank).mp h
    rcases filterText_iff.mp hread with ⟨-, hempty⟩ | hobject
    · exact .inl hempty
    · exact .inr hobject.parsed

/-- A computation that fails with CodeInvalidInput only. -/
def Refuses {α : Type} (x : Except AppError α) : Prop :=
  ∀ e, x = .error e → e.Code = .invalidInput

section Refuses

variable {α β : Type}

theorem Refuses.ok (a : α) : Refuses (.ok a : Except AppError α) := fun _ h => nomatch h

theorem Refuses.error (message : String) :
    Refuses (.error (invalidInput message) : Except AppError α) := by
  intro e h
  cases h
  rfl

theorem Refuses.elim (o : Option α) (message : String) :
    Refuses (o.elim (Except.error (invalidInput message)) .ok) := by
  cases o with
  | none => exact .error message
  | some a => exact .ok a

theorem Refuses.bind {x : Except AppError α} {f : α → Except AppError β} (hx : Refuses x)
    (hf : ∀ a, Refuses (f a)) : Refuses (x >>= f) := by
  cases x with
  | error e =>
    intro e' h
    cases h
    exact hx _ rfl
  | ok a => exact hf a

theorem Refuses.mapM {f : α → Except AppError β} (hf : ∀ a, Refuses (f a)) (items : List α) :
    Refuses (items.mapM f) := by
  induction items with
  | nil => exact .ok []
  | cons a rest ih =>
    rw [List.mapM_cons]
    exact (hf a).bind fun b => ih.bind fun bs => .ok (b :: bs)

end Refuses

theorem decodeScalar_refuses :
    Refuses (decodeScalar loc raw ft) := by
  cases ft <;> cases raw <;>
    first
      | exact .error _
      | exact .elim _ _
      | exact .ok _

theorem decodeValue_refuses : Refuses (decodeValue loc op raw ft) := by
  unfold decodeValue
  split
  · split
    · exact .error _
    · exact (Refuses.mapM (fun item => decodeScalar_refuses) _).bind fun vs => .ok _
  · exact decodeScalar_refuses.bind fun v => .ok _

theorem parseClause_refuses :
    Refuses (parseClause loc m op raw) := by
  unfold parseClause
  split
  · exact .error _
  · split
    · exact .error _
    · exact decodeValue_refuses.bind fun v => .ok _
  · exact .error _

theorem parseNode_refuses (loc : Location) (m : Map) (levels : ℕ) (node : RawMap) :
    Refuses (parseNode loc m levels node) := by
  induction levels generalizing node with
  | zero => exact .error _
  | succ levels ih =>
    match node with
    | [] => exact .error _
    | first :: second :: rest => exact .error _
    | [(key, raw)] =>
      rw [parseNode_single]
      split
      · split
        · exact .error _
        · exact .error _
        · exact (Refuses.mapM ih _).bind fun subs => .ok _
      · split
        · exact .error _
        · exact parseClause_refuses

theorem parseFilter_refuses : Refuses (parseFilter loc m text) := by
  unfold parseFilter
  split
  · exact .ok _
  · split
    · exact .error _
    · exact .ok _
    · exact parseNode_refuses loc m _ _

/-- Parse accepts exactly the grammar, returns the mirroring tree and refuses everything else
with CodeInvalidInput. -/
def AcceptsGrammar (loc : Location) (m : Map) (text : String) : Prop :=
  (∀ f, parseFilter loc m text = .ok f ↔
    ∃ json, JsonText.parse text.toList = some json ∧ FilterText loc m json f) ∧
  Refuses (parseFilter loc m text)

/-- Parse is right on a text exactly when reading it changes nothing or leads out of the
grammar. -/
theorem acceptsGrammar_iff (loc : Location) (m : Map) (text : String)
    (hblank : trimSpace text.toList ≠ []) :
    AcceptsGrammar loc m text ↔
      ∀ json f, JsonText.parse text.toList = some json →
        FilterText loc m (readText json) f → readText json = json := by
  constructor
  · rintro ⟨haccepts, _⟩ json f hjson hread
    obtain ⟨json', hjson', hgrammar⟩ := (haccepts f).mp
      ((parseFilter_iff hblank).mpr ⟨json, hjson, hread⟩)
    rw [hjson] at hjson'
    cases hjson'
    exact readText_of_filterText hgrammar
  · intro hread
    refine ⟨fun f => ?_, parseFilter_refuses⟩
    rw [parseFilter_iff hblank]
    refine exists_congr fun json => and_congr_right fun hjson => ?_
    constructor
    · intro h
      rw [hread json f hjson h] at h
      exact h
    · intro h
      rw [readText_of_filterText h]
      exact h

/-- A string field a. -/
def stringMap : Map := ⟨[⟨none, "a", "a", [], .string⟩]⟩

/-- The operator $eq twice in one object. -/
def duplicateOperator : String :=
  "\x7b\"$eq\":\x7b\"a\":\"x\"\x7d,\"$eq\":\x7b\"a\":\"y\"\x7d\x7d"

/-- A duplicate operator is accepted; the last one counts. -/
theorem duplicateOperator_accepted :
    (match JsonText.parse duplicateOperator.toList with
      | some (.obj members) => members.map Prod.fst
      | _ => []) = ["$eq", "$eq"] ∧
    (match parseFilter utc stringMap duplicateOperator with
      | .ok (.clause field op v _) => some (field, op, v)
      | _ => none) = some ("a", .opEq, .scalar (.str "y")) := by
  decide +kernel

theorem acceptsGrammar_iff_duplicateOperator :
    trimSpace duplicateOperator.toList ≠ [] ∧
      (AcceptsGrammar utc stringMap duplicateOperator ↔
        ∀ json f, JsonText.parse duplicateOperator.toList = some json →
          FilterText utc stringMap (readText json) f → readText json = json) := by
  have hblank : trimSpace duplicateOperator.toList ≠ [] := by decide +kernel
  exact ⟨hblank, acceptsGrammar_iff utc stringMap duplicateOperator hblank⟩

end KnowledgeEngine.FilterGrammar
