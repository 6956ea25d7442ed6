import KnowledgeEngine.Base64
import KnowledgeEngine.JsonNumber
import KnowledgeEngine.JsonReading
import KnowledgeEngine.StringText

/-!
Decoding JSON into the fields of a struct, as encoding/json does: an object sets the
fields its members name, up to letter case, one member after the other; null leaves a
struct, a text or a number as it is. A decoder fails on a value of another kind.

What a JSON text denotes: a number is its exact decimal value, and an object maps each name to
the value of the last member of that name.
-/

namespace KnowledgeEngine.JsonDecode

open JsonText MachineNumbers

/-- A JSON array decodes into a byte slice element by element. -/
def decodeByte : Json → Option UInt8
  | .null => some 0
  | .num literal =>
    match parseDecimal literal with
    | some n =>
      if n < 256 ∧ literal.head? ≠ some '-' then some (UInt8.ofNat n.toNat) else none
    | none => none
  | _ => none

def decodeBytes : Json → Option (List UInt8)
  | .null => some []
  | .str s => Base64.decode .std s.toList
  | .arr items => items.mapM decodeByte
  | _ => none

def decodeString (old : String) : Json → Option String
  | .null => some old
  | .str s => some s
  | _ => none

def decodeInt32 (old : ℤ) : Json → Option ℤ
  | .null => some old
  | .num literal => (parseDecimal literal).filter fun n => -2 ^ 31 ≤ n ∧ n < 2 ^ 31
  | _ => none

variable {S : Type*}

def decodeStruct (decodeMember : S → String × Json → Option S) (old : S) : Json → Option S
  | .null => some old
  | .obj members => members.foldlM decodeMember old
  | _ => none

/-- json.Unmarshal into a zero struct. -/
def unmarshal (decodeMember : S → String × Json → Option S) (zero : S) (text : List Char) :
    Option S :=
  (parse text).bind (decodeStruct decodeMember zero)

theorem decodeBytes_encode (bytes : List UInt8) :
    decodeBytes (.str (String.ofList (Base64.encode .std bytes))) = some bytes := by
  simp only [decodeBytes, String.toList_ofList, Base64.decode_encode]

theorem decodeInt32_decimal {old n : ℤ} (hlow : -2 ^ 31 ≤ n) (hhigh : n < 2 ^ 31) :
    decodeInt32 old (.num (decimal n)) = some n := by
  have hparse : parseDecimal (decimal n) = some n :=
    parseDecimal_decimal ⟨by omega, by omega⟩
  simp only [decodeInt32, hparse, Option.filter_some, hlow, hhigh, and_self, decide_true, if_true]

theorem unmarshal_print {decodeMember : S → String × Json → Option S} {zero : S} {j : Json}
    (hvalid : j.Valid) (hdepth : j.nesting ≤ maxNestingDepth) :
    unmarshal decodeMember zero (print j) = decodeStruct decodeMember zero j := by
  rw [unmarshal, JsonReading.parse_print j hvalid hdepth, Option.bind_some]

end KnowledgeEngine.JsonDecode

namespace KnowledgeEngine.JsonMeaning

open JsonNumber JsonText

inductive Value
  | null
  | bool (b : Bool)
  | num (q : ℚ)
  | str (s : String)
  | arr (items : List Value)
  | obj (members : String → Option Value)

mutual

def denote : Json → Value
  | .null => .null
  | .bool b => .bool b
  | .num literal => .num (decimalValue literal)
  | .str s => .str s
  | .arr items => .arr (denoteItems items)
  | .obj members => .obj (denoteMembers members)

def denoteItems : List Json → List Value
  | [] => []
  | item :: items => denote item :: denoteItems items

def denoteMembers : List (String × Json) → String → Option Value
  | [], _ => none
  | (key, value) :: members, name =>
    match denoteMembers members name with
    | some v => some v
    | none => if key = name then some (denote value) else none

end

def lastMember (name : String) : List (String × Json) → Option Json
  | [] => none
  | (key, value) :: members =>
    match lastMember name members with
    | some v => some v
    | none => if key = name then some value else none

/-- The literal is somewhere in the value. -/
inductive Occurs (literal : List Char) : Json → Prop
  | num : Occurs literal (.num literal)
  | arr {items : List Json} {item : Json} (hitem : item ∈ items) (h : Occurs literal item) :
      Occurs literal (.arr items)
  | obj {members : List (String × Json)} {m : String × Json} (hm : m ∈ members)
      (h : Occurs literal m.2) : Occurs literal (.obj members)

/-- The literal is in the value, and not in a member that a later one replaces. -/
inductive Counts (literal : List Char) : Json → Prop
  | num : Counts literal (.num literal)
  | arr {items : List Json} {item : Json} (hitem : item ∈ items) (h : Counts literal item) :
      Counts literal (.arr items)
  | obj {members : List (String × Json)} {name : String} {value : Json}
      (hlast : lastMember name members = some value) (h : Counts literal value) :
      Counts literal (.obj members)

theorem json_of_parts {P : Json → Prop} (null : P .null) (bool : ∀ b, P (.bool b))
    (num : ∀ literal, P (.num literal)) (str : ∀ s, P (.str s))
    (arr : ∀ items, (∀ item ∈ items, P item) → P (.arr items))
    (obj : ∀ members : List (String × Json), (∀ m ∈ members, P m.2) → P (.obj members))
    (j : Json) : P j :=
  @Json.rec P (fun items => ∀ item ∈ items, P item) (fun members => ∀ m ∈ members, P m.2)
    (fun m => P m.2) null bool num str arr obj (by simp)
    (fun _ _ h hs => List.forall_mem_cons.mpr ⟨h, hs⟩) (by simp)
    (fun _ _ h hs => List.forall_mem_cons.mpr ⟨h, hs⟩) (fun _ _ h => h) j

theorem denoteMembers_eq (members : List (String × Json)) (name : String) :
    denoteMembers members name = (lastMember name members).map denote := by
  induction members with
  | nil => rfl
  | cons m members ih =>
    obtain ⟨key, value⟩ := m
    rw [denoteMembers, lastMember, ih]
    cases lastMember name members with
    | some v => rfl
    | none => by_cases hkey : key = name <;> simp [hkey]

variable {members : List (String × Json)}

theorem lastMember_mem {name : String} {value : Json} (h : lastMember name members = some value) :
    (name, value) ∈ members := by
  induction members with
  | nil => cases h
  | cons m members ih =>
    obtain ⟨key, other⟩ := m
    rw [lastMember] at h
    cases hlast : lastMember name members with
    | some v =>
      rw [hlast] at h
      obtain rfl := Option.some.inj h
      exact List.mem_cons_of_mem _ (ih hlast)
    | none =>
      rw [hlast] at h
      obtain ⟨rfl, hvalue⟩ := Option.ite_none_right_eq_some.mp h
      rw [Option.some.inj hvalue]
      exact List.mem_cons_self

/-- With one member for each name, that one is the last. -/
theorem lastMember_eq_some_iff (hnodup : (members.map Prod.fst).Nodup) (name : String)
    (value : Json) : lastMember name members = some value ↔ (name, value) ∈ members := by
  refine ⟨lastMember_mem, fun hmem => ?_⟩
  induction members with
  | nil => cases hmem
  | cons m members ih =>
    obtain ⟨key, other⟩ := m
    rw [List.map_cons, List.nodup_cons] at hnodup
    rw [lastMember]
    rcases List.mem_cons.mp hmem with heq | hmem
    · obtain ⟨rfl, rfl⟩ := Prod.mk.inj heq
      cases hlast : lastMember name members with
      | some v => exact absurd (List.mem_map_of_mem (f := Prod.fst) (lastMember_mem hlast)) hnodup.1
      | none => exact if_pos rfl
    · rw [ih hnodup.2 hmem]

theorem lastMember_perm {members' : List (String × Json)} (hnodup : (members.map Prod.fst).Nodup)
    (hperm : members.Perm members') {name : String} :
    lastMember name members = lastMember name members' := by
  have hnodup' := (hperm.map Prod.fst).nodup_iff.mp hnodup
  refine Option.ext fun value => ?_
  rw [lastMember_eq_some_iff hnodup, lastMember_eq_some_iff hnodup', hperm.mem_iff]

/-- Objects denote the same if the last members of each name do. -/
theorem denote_obj_eq_iff (members members' : List (String × Json)) :
    denote (.obj members) = denote (.obj members') ↔
      ∀ name, (lastMember name members).map denote = (lastMember name members').map denote := by
  rw [denote, denote, Value.obj.injEq, funext_iff]
  simp only [denoteMembers_eq]

/-- A literal of a valid value is a number. -/
theorem Occurs.validNumber {literal : List Char} {j : Json} (h : Occurs literal j)
    (hvalid : j.Valid) : validNumber literal = true := by
  induction h with
  | num => exact hvalid.1
  | arr hitem _ ih => exact ih (validItems_iff.mp hvalid _ hitem)
  | obj hm _ ih => exact ih (validMembers_iff.mp hvalid _ hm)

end KnowledgeEngine.JsonMeaning
