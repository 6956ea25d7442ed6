import KnowledgeEngine.JsonText

/-!
What the JSON parser reads, as a relation without bounds: a call reads what the relation says
if it may nest as deep and call as often as the value asks, and no text asks for more calls
than twice its length. So a text is JSON for at most one value, encoding/json reads those
within its own nesting limit, and what is printed is read back.
-/

namespace KnowledgeEngine.JsonReading

open JsonText

/-- The text is JSON for the value. -/
def Spells (text : List Char) (j : Json) : Prop := ∃ depth, parseAt depth text = some j

/-- How a value starts: it is read, or an array or object opens in front of the rest. -/
inductive Start
  | done (value : Json) (rest : List Char)
  | arr (rest : List Char)
  | obj (rest : List Char)
  | fail

def start : List Char → Start
  | 'n' :: 'u' :: 'l' :: 'l' :: rest => .done .null rest
  | 't' :: 'r' :: 'u' :: 'e' :: rest => .done (.bool true) rest
  | 'f' :: 'a' :: 'l' :: 's' :: 'e' :: rest => .done (.bool false) rest
  | '"' :: rest =>
    match parseChars rest with
    | some (chars, after) => .done (.str (String.ofList chars)) after
    | none => .fail
  | '[' :: rest => .arr rest
  | '\x7b' :: rest => .obj rest
  | number =>
    let literal := number.takeWhile isNumberChar
    if validNumber literal then .done (.num literal) (number.dropWhile isNumberChar) else .fail

/-- The text behind a closing bracket. -/
def closes (bracket : Char) (text : List Char) : Option (List Char) :=
  match skipSpace text with
  | c :: after => if c = bracket then some after else none
  | [] => none

theorem closes_eq_some {bracket : Char} {text after : List Char}
    (h : skipSpace text = bracket :: after) : closes bracket text = some after := by
  rw [closes, h]
  exact if_pos rfl

theorem closes_eq_none {bracket : Char} {text : List Char}
    (h : ∀ after, skipSpace text = bracket :: after → False) : closes bracket text = none := by
  rw [closes]
  cases hhead : skipSpace text with
  | nil => rfl
  | cons c after => exact if_neg fun hc => h after (by rw [hhead, hc])

theorem parseValue_succ (fuel depth : ℕ) (text : List Char) :
    parseValue (fuel + 1) depth text =
      match start (skipSpace text) with
      | .done value rest => some (value, rest)
      | .arr rest =>
        if depth = 0 then none
        else match closes ']' rest with
          | some after => some (.arr [], after)
          | none => (parseItems fuel (depth - 1) rest).map fun p => (.arr p.1, p.2)
      | .obj rest =>
        if depth = 0 then none
        else match closes '\x7d' rest with
          | some after => some (.obj [], after)
          | none => (parseMembers fuel (depth - 1) rest).map fun p => (.obj p.1, p.2)
      | .fail => none := by
  rw [parseValue]
  generalize skipSpace text = head
  unfold start
  split
  · rfl
  · rfl
  · rfl
  · next rest =>
    cases hchars : parseChars rest <;> simp_all
  · next rest =>
    simp only
    split
    · rfl
    · split
      · next hbracket => rw [closes_eq_some hbracket]
      · next hbracket => rw [closes_eq_none hbracket]
  · next rest =>
    simp only
    split
    · rfl
    · split
      · next hbracket => rw [closes_eq_some hbracket]
      · next hbracket => rw [closes_eq_none hbracket]
  · simp only
    split <;> rfl

theorem parseValue_some_iff {fuel depth : ℕ} {text r : List Char} {v : Json} :
    parseValue (fuel + 1) depth text = some (v, r) ↔ start (skipSpace text) = .done v r ∨
      (0 < depth ∧ ∃ rest, start (skipSpace text) = .arr rest ∧
        ((closes ']' rest = some r ∧ v = .arr []) ∨ (closes ']' rest = none ∧
          ∃ vs, parseItems fuel (depth - 1) rest = some (vs, r) ∧ v = .arr vs))) ∨
      0 < depth ∧ ∃ rest, start (skipSpace text) = .obj rest ∧
        ((closes '\x7d' rest = some r ∧ v = .obj []) ∨ (closes '\x7d' rest = none ∧
          ∃ ms, parseMembers fuel (depth - 1) rest = some (ms, r) ∧ v = .obj ms)) := by
  rw [parseValue_succ]
  cases start (skipSpace text) with
  | done value rest => simp
  | fail => simp
  | arr rest =>
    rcases Nat.eq_zero_or_pos depth with rfl | hpos
    · simp
    · cases hclose : closes ']' rest <;> simp [hpos, hpos.ne', hclose, and_comm, eq_comm]
  | obj rest =>
    rcases Nat.eq_zero_or_pos depth with rfl | hpos
    · simp
    · cases hclose : closes '\x7d' rest <;> simp [hpos, hpos.ne', hclose, and_comm, eq_comm]

theorem parseItems_some_iff {fuel depth : ℕ} {text r : List Char} {v : List Json} :
    parseItems (fuel + 1) depth text = some (v, r) ↔
      ∃ item after, parseValue fuel depth text = some (item, after) ∧
        ((skipSpace after = ']' :: r ∧ v = [item]) ∨ ∃ rest items,
          skipSpace after = ',' :: rest ∧ parseItems fuel depth rest = some (items, r) ∧
            v = item :: items) := by
  rw [parseItems]
  cases hvalue : parseValue fuel depth text with
  | none => simp
  | some p =>
    obtain ⟨item, after⟩ := p
    simp only [Option.some.injEq, Prod.mk.injEq, and_assoc]
    split
    · next rest hcomma => simp [hcomma, eq_comm, and_comm]
    · next rest hbracket => simp [hbracket, eq_comm, and_comm]
    · next hcomma hbracket =>
      constructor
      · nofun
      · rintro ⟨_, _, rfl, rfl, ⟨hend, _⟩ | ⟨rest, _, hmore, _⟩⟩
        · exact absurd hend (hbracket r)
        · exact absurd hmore (hcomma rest)

theorem parseMembers_some_iff {fuel depth : ℕ} {text r : List Char} {v : List (String × Json)} :
    parseMembers (fuel + 1) depth text = some (v, r) ↔
      ∃ key colon value after, (∃ rest afterKey, skipSpace text = '"' :: rest ∧
          parseChars rest = some (key, afterKey) ∧ skipSpace afterKey = ':' :: colon) ∧
        parseValue fuel depth colon = some (value, after) ∧
        ((skipSpace after = '\x7d' :: r ∧ v = [(String.ofList key, value)]) ∨ ∃ rest members,
          skipSpace after = ',' :: rest ∧ parseMembers fuel depth rest = some (members, r) ∧
            v = (String.ofList key, value) :: members) := by
  rw [parseMembers]
  constructor
  · intro h
    split at h <;> try cases h
    next rest hquote =>
    split at h <;> try cases h
    next key afterKey hkey =>
    split at h <;> try cases h
    next colon hcolon =>
    split at h <;> try cases h
    next value after hvalue =>
    refine ⟨key, colon, value, after, ⟨rest, afterKey, hquote, hkey, hcolon⟩, hvalue, ?_⟩
    split at h <;> try cases h
    · next more hcomma =>
      obtain ⟨⟨members, r'⟩, hmembers, heq⟩ := Option.map_eq_some_iff.mp h
      obtain ⟨rfl, rfl⟩ := Prod.mk.inj heq
      exact .inr ⟨more, members, hcomma, hmembers, rfl⟩
    · next hbracket => exact .inl ⟨hbracket, rfl⟩
  · rintro ⟨key, colon, value, after, ⟨rest, afterKey, hquote, hkey, hcolon⟩, hvalue, hmore⟩
    simp only [hquote, hkey, hcolon, hvalue]
    rcases hmore with ⟨hbracket, rfl⟩ | ⟨more, members, hcomma, hmembers, rfl⟩
    · simp only [hbracket]
    · simp only [hcomma, hmembers, Option.map_some]

/-- What is read: a value, the items of an array or the members of an object. -/
inductive Part
  | value (v : Json)
  | items (vs : List Json)
  | members (ms : List (String × Json))

def Part.calls : Part → ℕ
  | value v => v.calls
  | items vs => callsItems vs
  | members ms => callsMembers ms

def Part.nesting : Part → ℕ
  | value v => v.nesting
  | items vs => nestingItems vs
  | members ms => nestingMembers ms

def Part.Valid : Part → Prop
  | value v => v.Valid
  | items vs => ValidItems vs
  | members ms => ValidMembers ms

/-- A name and its colon, in front of the rest. -/
def ReadsName (text name rest : List Char) : Prop :=
  ∃ chars after, skipSpace text = '"' :: chars ∧ parseChars chars = some (name, after) ∧
    skipSpace after = ':' :: rest

/-- The part stands at the start of the text, in front of the rest. -/
inductive Reads : List Char → Part → List Char → Prop
  | scalar (hdone : start (skipSpace text) = .done v r) : Reads text (.value v) r
  | noItems (hopen : start (skipSpace text) = .arr rest) (hclose : closes ']' rest = some r) :
    Reads text (.value (.arr [])) r
  | arr (hopen : start (skipSpace text) = .arr rest) (hclose : closes ']' rest = none)
    (hitems : Reads rest (.items vs) r) : Reads text (.value (.arr vs)) r
  | noMembers (hopen : start (skipSpace text) = .obj rest)
    (hclose : closes '\x7d' rest = some r) : Reads text (.value (.obj [])) r
  | obj (hopen : start (skipSpace text) = .obj rest) (hclose : closes '\x7d' rest = none)
    (hmembers : Reads rest (.members ms) r) : Reads text (.value (.obj ms)) r
  | lastItem (hitem : Reads text (.value v) after) (hend : skipSpace after = ']' :: r) :
    Reads text (.items [v]) r
  | item (hitem : Reads text (.value v) after) (hcomma : skipSpace after = ',' :: rest)
    (hitems : Reads rest (.items vs) r) : Reads text (.items (v :: vs)) r
  | lastMember (hname : ReadsName text name colon) (hvalue : Reads colon (.value v) after)
    (hend : skipSpace after = '\x7d' :: r) : Reads text (.members [(String.ofList name, v)]) r
  | member (hname : ReadsName text name colon) (hvalue : Reads colon (.value v) after)
    (hcomma : skipSpace after = ',' :: rest) (hmembers : Reads rest (.members ms) r) :
    Reads text (.members ((String.ofList name, v) :: ms)) r

/-- A call of the parser returns the part and the rest. -/
def Parses (fuel depth : ℕ) (text : List Char) : Part → List Char → Prop
  | .value v, r => parseValue fuel depth text = some (v, r)
  | .items vs, r => parseItems fuel depth text = some (vs, r)
  | .members ms, r => parseMembers fuel depth text = some (ms, r)

theorem parsePieces_length {text : List Char} : ∀ pieces rest,
    parsePieces text = some (pieces, rest) → rest.length < text.length := by
  fun_induction parsePieces text with
  | case1 => nofun
  | case2 rest =>
    rintro pieces r h
    cases h
    exact Nat.lt_succ_self _
  | case3 a b c d rest n hhex ih =>
    intro pieces r h
    obtain ⟨⟨ps, r'⟩, hps, heq⟩ := Option.map_eq_some_iff.mp h
    cases heq
    have hlt := ih ps r' hps
    simp only [List.length_cons]
    omega
  | case4 => nofun
  | case5 e rest hu c hescape ih =>
    intro pieces r h
    obtain ⟨⟨ps, r'⟩, hps, heq⟩ := Option.map_eq_some_iff.mp h
    cases heq
    have hlt := ih ps r' hps
    simp only [List.length_cons]
    omega
  | case6 => nofun
  | case7 => nofun
  | case8 c rest hquote hu hslash hplain ih =>
    intro pieces r h
    obtain ⟨⟨ps, r'⟩, hps, heq⟩ := Option.map_eq_some_iff.mp h
    cases heq
    exact (ih ps r' hps).trans (Nat.lt_succ_self _)

theorem parseChars_length {text chars rest : List Char} (h : parseChars text = some (chars, rest)) :
    rest.length < text.length := by
  obtain ⟨⟨pieces, r⟩, hpieces, heq⟩ := Option.map_eq_some_iff.mp h
  cases heq
  exact parsePieces_length pieces r hpieces

/-- What is read at the start takes one call and some of the text, does not nest and is
valid. -/
theorem start_done {text rest : List Char} {value : Json} (h : start text = .done value rest) :
    value.calls = 1 ∧ value.nesting = 0 ∧ value.Valid ∧ rest.length < text.length := by
  unfold start at h
  split at h
  · cases h; exact ⟨rfl, rfl, trivial, by simp; omega⟩
  · cases h; exact ⟨rfl, rfl, trivial, by simp; omega⟩
  · cases h; exact ⟨rfl, rfl, trivial, by simp; omega⟩
  · split at h
    · next hchars =>
      cases h
      exact ⟨rfl, rfl, trivial, (parseChars_length hchars).trans (Nat.lt_succ_self _)⟩
    · cases h
  · cases h
  · cases h
  · simp only at h
    split at h
    · next hvalid =>
      cases h
      refine ⟨rfl, rfl, ⟨hvalid, fun c hc => List.mem_takeWhile_imp hc⟩, ?_⟩
      have hsum := congrArg List.length
        (List.takeWhile_append_dropWhile (p := isNumberChar) (l := text))
      have hpos : 0 < (text.takeWhile isNumberChar).length := by
        rw [List.length_pos_iff]
        intro hnil
        rw [hnil] at hvalid
        exact absurd hvalid (by decide)
      rw [List.length_append] at hsum
      omega
    · cases h

section Calls

variable {fuel depth : ℕ} {text r : List Char} {p : Part}

theorem reads_of_parses (h : Parses fuel depth text p r) : Reads text p r ∧ p.nesting ≤ depth := by
  induction fuel generalizing depth text p r with
  | zero => cases p <;> cases h
  | succ fuel ih =>
    cases p with
    | value v =>
      rcases parseValue_some_iff.mp h with hdone | ⟨hpos, rest, hopen, hbody⟩ |
        ⟨hpos, rest, hopen, hbody⟩
      · exact ⟨.scalar hdone, (start_done hdone).2.1.trans_le (Nat.zero_le depth)⟩
      · obtain ⟨hclose, rfl⟩ | ⟨hclose, vs, hitems, rfl⟩ := hbody
        · exact ⟨.noItems hopen hclose, hpos⟩
        · obtain ⟨hreads, hnesting⟩ := ih (p := .items vs) hitems
          exact ⟨.arr hopen hclose hreads, Nat.add_le_of_le_sub hpos hnesting⟩
      · obtain ⟨hclose, rfl⟩ | ⟨hclose, ms, hmembers, rfl⟩ := hbody
        · exact ⟨.noMembers hopen hclose, hpos⟩
        · obtain ⟨hreads, hnesting⟩ := ih (p := .members ms) hmembers
          exact ⟨.obj hopen hclose hreads, Nat.add_le_of_le_sub hpos hnesting⟩
    | items vs =>
      obtain ⟨item, after, hitem, hend⟩ := parseItems_some_iff.mp h
      obtain ⟨hreads, hnesting⟩ := ih (p := .value item) hitem
      obtain ⟨hend, rfl⟩ | ⟨rest, vs, hcomma, hitems, rfl⟩ := hend
      · exact ⟨.lastItem hreads hend, Nat.max_le.mpr ⟨hnesting, Nat.zero_le _⟩⟩
      · obtain ⟨hmore, hrest⟩ := ih (p := .items vs) hitems
        exact ⟨.item hreads hcomma hmore, Nat.max_le.mpr ⟨hnesting, hrest⟩⟩
    | members ms =>
      obtain ⟨name, colon, value, after, hname, hvalue, hend⟩ := parseMembers_some_iff.mp h
      obtain ⟨hreads, hnesting⟩ := ih (p := .value value) hvalue
      obtain ⟨hend, rfl⟩ | ⟨rest, ms, hcomma, hmembers, rfl⟩ := hend
      · exact ⟨.lastMember hname hreads hend, Nat.max_le.mpr ⟨hnesting, Nat.zero_le _⟩⟩
      · obtain ⟨hmore, hrest⟩ := ih (p := .members ms) hmembers
        exact ⟨.member hname hreads hcomma hmore, Nat.max_le.mpr ⟨hnesting, hrest⟩⟩

/-- What can be read is read by a call with fuel for it that may nest deep enough. -/
theorem Reads.parses (h : Reads text p r) (hdepth : p.nesting ≤ depth) (more : ℕ) :
    Parses (more + p.calls) depth text p r := by
  induction h generalizing depth more with
  | scalar hdone =>
    rw [Part.calls, (start_done hdone).1]
    exact parseValue_some_iff.mpr (.inl hdone)
  | noItems hopen hclose =>
    exact parseValue_some_iff.mpr (.inr (.inl ⟨hdepth, _, hopen, .inl ⟨hclose, rfl⟩⟩))
  | arr hopen hclose hitems ih =>
    have hread := ih (Nat.le_sub_of_add_le hdepth) more
    exact parseValue_some_iff.mpr (.inr (.inl ⟨Nat.lt_of_lt_of_le (Nat.succ_pos _) hdepth, _,
      hopen, .inr ⟨hclose, _, hread, rfl⟩⟩))
  | noMembers hopen hclose =>
    exact parseValue_some_iff.mpr (.inr (.inr ⟨hdepth, _, hopen, .inl ⟨hclose, rfl⟩⟩))
  | obj hopen hclose hmembers ih =>
    have hread := ih (Nat.le_sub_of_add_le hdepth) more
    exact parseValue_some_iff.mpr (.inr (.inr ⟨Nat.lt_of_lt_of_le (Nat.succ_pos _) hdepth, _,
      hopen, .inr ⟨hclose, _, hread, rfl⟩⟩))
  | lastItem hitem hend ih =>
    exact parseItems_some_iff.mpr ⟨_, _, ih (Nat.max_le.mp hdepth).1 more, .inl ⟨hend, rfl⟩⟩
  | @item _ v _ _ vs _ _ hcomma _ ih ihmore =>
    obtain ⟨hfirst, hrest⟩ := Nat.max_le.mp hdepth
    have hitem := ih hfirst (more + callsItems vs)
    have hitems := ihmore hrest (more + v.calls)
    rw [Part.calls, Nat.add_right_comm, Nat.add_assoc] at hitem
    rw [Part.calls, Nat.add_assoc] at hitems
    exact parseItems_some_iff.mpr ⟨_, _, hitem, .inr ⟨_, _, hcomma, hitems, rfl⟩⟩
  | lastMember hname hvalue hend ih =>
    exact parseMembers_some_iff.mpr
      ⟨_, _, _, _, hname, ih (Nat.max_le.mp hdepth).1 more, .inl ⟨hend, rfl⟩⟩
  | @member _ _ _ v _ _ ms _ hname _ hcomma _ ih ihmore =>
    obtain ⟨hfirst, hrest⟩ := Nat.max_le.mp hdepth
    have hvalue := ih hfirst (more + callsMembers ms)
    have hmembers := ihmore hrest (more + v.calls)
    rw [Part.calls, Nat.add_right_comm, Nat.add_assoc] at hvalue
    rw [Part.calls, Nat.add_assoc] at hmembers
    exact parseMembers_some_iff.mpr
      ⟨_, _, _, _, hname, hvalue, .inr ⟨_, _, hcomma, hmembers, rfl⟩⟩

end Calls

section Lengths

variable {rest text r : List Char}

theorem length_of_skipSpace {c : Char} (h : skipSpace text = c :: rest) :
    rest.length < text.length := by
  have hle := (List.dropWhile_suffix (l := text) isSpace).length_le
  rw [← skipSpace, h, List.length_cons] at hle
  exact hle

theorem closes_length {bracket : Char} (h : closes bracket text = some rest) :
    rest.length < text.length := by
  rw [closes] at h
  split at h
  · next c after hskip =>
    obtain ⟨-, hrest⟩ := Option.ite_none_right_eq_some.mp h
    cases hrest
    exact length_of_skipSpace hskip
  · cases h

theorem ReadsName.length {name : List Char} (h : ReadsName text name rest) :
    rest.length < text.length := by
  obtain ⟨chars, after, hquote, hname, hcolon⟩ := h
  exact (length_of_skipSpace hcolon).trans
    ((parseChars_length hname).trans (length_of_skipSpace hquote))

theorem start_opens :
    (start text = .arr rest → text = '[' :: rest) ∧
      (start text = .obj rest → text = '\x7b' :: rest) := by
  unfold start
  split <;> (try simp only) <;> (try split) <;> simp

/-- Reading takes no more calls than twice the characters that are read. -/
theorem Reads.length {p : Part} (h : Reads text p r) :
    p.calls + 2 * r.length ≤ 2 * text.length := by
  induction h with
  | @scalar text v r hdone =>
    have hlt := (start_done hdone).2.2.2
    have hle := (List.dropWhile_suffix (l := text) isSpace).length_le
    rw [← skipSpace] at hle
    rw [Part.calls, (start_done hdone).1]
    omega
  | noItems hopen hclose =>
    have hlt := length_of_skipSpace (start_opens.1 hopen)
    have hend := closes_length hclose
    simp only [Part.calls, Json.calls, callsItems]
    omega
  | arr hopen _ _ ih =>
    have hlt := length_of_skipSpace (start_opens.1 hopen)
    simp only [Part.calls, Json.calls] at ih ⊢
    omega
  | noMembers hopen hclose =>
    have hlt := length_of_skipSpace (start_opens.2 hopen)
    have hend := closes_length hclose
    simp only [Part.calls, Json.calls, callsMembers]
    omega
  | obj hopen _ _ ih =>
    have hlt := length_of_skipSpace (start_opens.2 hopen)
    simp only [Part.calls, Json.calls] at ih ⊢
    omega
  | lastItem _ hend ih =>
    have hlt := length_of_skipSpace hend
    simp only [Part.calls, callsItems] at ih ⊢
    omega
  | item _ hcomma _ ih ihmore =>
    have hlt := length_of_skipSpace hcomma
    simp only [Part.calls, callsItems] at ih ihmore ⊢
    omega
  | lastMember hname _ hend ih =>
    have hcolon := hname.length
    have hlt := length_of_skipSpace hend
    simp only [Part.calls, callsMembers] at ih ⊢
    omega
  | member hname _ hcomma _ ih ihmore =>
    have hcolon := hname.length
    have hlt := length_of_skipSpace hcomma
    simp only [Part.calls, callsMembers] at ih ihmore ⊢
    omega

end Lengths

theorem Reads.valid {p : Part} (h : Reads text p r) : p.Valid := by
  induction h with
  | scalar hdone => exact (start_done hdone).2.2.1
  | noItems | noMembers => trivial
  | arr _ _ _ ih | obj _ _ _ ih => exact ih
  | lastItem _ _ ih | lastMember _ _ _ ih => exact ⟨ih, trivial⟩
  | item _ _ _ ih ihmore | member _ _ _ _ ih ihmore => exact ⟨ih, ihmore⟩

/-- A value and nothing but space behind it. -/
def ReadsAll (text : List Char) (j : Json) : Prop :=
  ∃ rest, Reads text (.value j) rest ∧ skipSpace rest = []

variable {j : Json}

theorem parseAt_iff {depth : ℕ} :
    parseAt depth text = some j ↔ ReadsAll text j ∧ j.nesting ≤ depth := by
  rw [parseAt]
  constructor
  · intro h
    split at h
    · next value rest hvalue =>
      obtain ⟨hrest, heq⟩ := Option.ite_none_right_eq_some.mp h
      cases heq
      obtain ⟨hreads, hnesting⟩ := reads_of_parses (p := .value j) hvalue
      exact ⟨⟨rest, hreads, hrest⟩, hnesting⟩
    · cases h
  · rintro ⟨⟨rest, hreads, hrest⟩, hnesting⟩
    have hlength : j.calls + 2 * rest.length ≤ 2 * text.length := hreads.length
    have hvalue := hreads.parses hnesting (2 * text.length + 2 - j.calls)
    rw [Part.calls, Nat.sub_add_cancel (by omega), Parses] at hvalue
    simp only [hvalue, hrest, if_true]

theorem spells_iff : Spells text j ↔ ReadsAll text j := by
  constructor
  · rintro ⟨depth, h⟩
    exact (parseAt_iff.mp h).1
  · intro h
    exact ⟨j.nesting, parseAt_iff.mpr ⟨h, Nat.le_refl _⟩⟩

/-- encoding/json reads the values within its limit. -/
theorem parse_eq_some_iff : parse text = some j ↔ Spells text j ∧ j.nesting ≤ maxNestingDepth := by
  rw [spells_iff]
  exact parseAt_iff

theorem Spells.unique {j' : Json} (h : Spells text j) (h' : Spells text j') : j = j' := by
  have hmax := parseAt_iff.mpr ⟨spells_iff.mp h, Nat.le_max_left j.nesting j'.nesting⟩
  have hmax' := parseAt_iff.mpr ⟨spells_iff.mp h', Nat.le_max_right j.nesting j'.nesting⟩
  exact Option.some.inj (hmax.symm.trans hmax')

theorem Spells.ne_nil (h : Spells text j) : text ≠ [] := by
  rintro rfl
  obtain ⟨depth, h⟩ := h
  cases h

theorem Spells.valid (h : Spells text j) : j.Valid := by
  obtain ⟨rest, hreads, -⟩ := spells_iff.mp h
  exact hreads.valid

section Printing

theorem start_number {literal : List Char} (h : NumberLiteral literal) (hend : EndsNumber text) :
    start (literal ++ text) = .done (.num literal) text := by
  obtain ⟨c, rest, hliteral, hc⟩ := numberLiteral_head h
  obtain ⟨htake, hdrop⟩ := takeWhile_number h.2 hend
  have hhead : ∀ d tail, literal ++ text = d :: tail → d = c := by
    intro d tail heq
    rw [hliteral, List.cons_append] at heq
    exact (List.cons.inj heq).1.symm
  unfold start
  split
  case h_7 => simp only [htake, hdrop, h.1, if_true]
  all_goals
    rename_i heq
    have hd := hhead _ _ heq
    subst hd
    exact absurd hc (by decide)

theorem readsName_print (key : String) (text : List Char) :
    ReadsName (printString key ++ ':' :: text) key.toList text :=
  ⟨_, _, skipSpace_printString, parseChars_escaped, skipSpace_cons ':' _ (by decide)⟩

mutual

/-- A written value is read back, whatever follows it. -/
theorem reads_print : ∀ (j : Json) (text : List Char), j.Valid → EndsNumber text →
    Reads (print j ++ text) (.value j) text
  | .null, _, _, _ => .scalar (by rw [skipSpace_print .null trivial]; rfl)
  | .bool true, _, _, _ => .scalar (by rw [skipSpace_print (.bool true) trivial]; rfl)
  | .bool false, _, _, _ => .scalar (by rw [skipSpace_print (.bool false) trivial]; rfl)
  | .num literal, text, hvalid, hend => by
    refine .scalar ?_
    rw [skipSpace_print (.num literal) hvalid]
    exact start_number hvalid hend
  | .str s, text, _, _ => by
    refine .scalar ?_
    rw [print, skipSpace_printString, start, parseChars_escaped]
    simp only [String.ofList_toList]
  | .arr [], text, hvalid, _ => by
    refine .noItems (?_ : start _ = .arr (']' :: text)) rfl
    rw [skipSpace_print (.arr []) hvalid]
    rfl
  | .arr (item :: items), text, hvalid, _ => by
    obtain ⟨c, rest, hprint, hc⟩ := print_head hvalid.1
    refine .arr ?_ ?_ (readsItems_print (item :: items) text (List.cons_ne_nil _ _) hvalid)
    · rw [skipSpace_print (.arr (item :: items)) hvalid]
      rfl
    · refine closes_eq_none fun after heq => ?_
      rw [printItems, List.tail_cons, List.append_assoc, skipSpace_print item hvalid.1,
        hprint] at heq
      rw [(List.cons.inj heq).1] at hc
      exact absurd hc (by decide)
  | .obj [], text, hvalid, _ => by
    refine .noMembers (?_ : start _ = .obj ('\x7d' :: text)) rfl
    rw [skipSpace_print (.obj []) hvalid]
    rfl
  | .obj ((key, value) :: members), text, hvalid, _ => by
    refine .obj ?_ ?_
      (readsMembers_print ((key, value) :: members) text (List.cons_ne_nil _ _) hvalid)
    · rw [skipSpace_print (.obj ((key, value) :: members)) hvalid]
      rfl
    · refine closes_eq_none fun after heq => ?_
      rw [printMembers, List.tail_cons, List.append_assoc, skipSpace_printString] at heq
      exact absurd (List.cons.inj heq).1 (by decide)

theorem readsItems_print : ∀ (vs : List Json) (text : List Char), vs ≠ [] → ValidItems vs →
    Reads ((printItems vs).tail ++ text) (.items vs) text
  | [item], text, _, hvalid => by
    rw [printItems, List.tail_cons, List.append_assoc]
    exact .lastItem (reads_print item _ hvalid.1 endsNumber_printItems)
      (skipSpace_cons ']' _ (by decide))
  | item :: next :: items, text, _, hvalid => by
    rw [printItems, List.tail_cons, List.append_assoc]
    exact .item (reads_print item _ hvalid.1 endsNumber_printItems)
      (skipSpace_cons ',' _ (by decide))
      (readsItems_print (next :: items) text (List.cons_ne_nil _ _) hvalid.2)

theorem readsMembers_print : ∀ (ms : List (String × Json)) (text : List Char), ms ≠ [] →
    ValidMembers ms → Reads ((printMembers ms).tail ++ text) (.members ms) text
  | [(key, value)], text, _, hvalid => by
    rw [printMembers, List.tail_cons, List.append_assoc, List.cons_append, List.append_assoc]
    have hread := Reads.lastMember (readsName_print key _)
      (reads_print value _ hvalid.1 (endsNumber_printMembers [] text))
      (skipSpace_cons '\x7d' _ (by decide))
    rwa [String.ofList_toList] at hread
  | (key, value) :: next :: members, text, _, hvalid => by
    rw [printMembers, List.tail_cons, List.append_assoc, List.cons_append, List.append_assoc]
    have hread := Reads.member (readsName_print key _)
      (reads_print value _ hvalid.1 (endsNumber_printMembers (next :: members) text))
      (skipSpace_cons ',' _ (by decide))
      (readsMembers_print (next :: members) text (List.cons_ne_nil _ _) hvalid.2)
    rwa [String.ofList_toList] at hread

end

/-- What is printed is JSON for its value, however deep. -/
theorem spells_print (j : Json) (hvalid : j.Valid) : Spells (print j) j := by
  have hread := reads_print j [] hvalid (by simp [EndsNumber])
  rw [List.append_nil] at hread
  exact spells_iff.mpr ⟨[], hread, rfl⟩

/-- What is written is read back. -/
theorem parse_print (j : Json) (hvalid : j.Valid) (hdepth : j.nesting ≤ maxNestingDepth) :
    parse (print j) = some j :=
  parse_eq_some_iff.mpr ⟨spells_print j hvalid, hdepth⟩

end Printing

end KnowledgeEngine.JsonReading
