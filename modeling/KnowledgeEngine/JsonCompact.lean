import KnowledgeEngine.JsonReading

/-!
json.Compact: a JSON text without the space between its tokens. What a text denotes does not
depend on that space, so a compacted text denotes the same value, and compacting it again
changes nothing.
-/

namespace KnowledgeEngine.JsonCompact

open JsonText JsonReading

/-- Where a scan is: outside of strings, inside of one, or behind a backslash there. -/
inductive Mode
  | outside | inside | escaped

def compactFrom : Mode → List Char → List Char
  | _, [] => []
  | .outside, c :: rest =>
    if isSpace c then compactFrom .outside rest
    else c :: compactFrom (if c = '"' then .inside else .outside) rest
  | .inside, c :: rest =>
    c :: compactFrom (if c = '"' then .outside else if c = '\\' then .escaped else .inside) rest
  | .escaped, c :: rest => c :: compactFrom .inside rest

def compact (text : List Char) : List Char := compactFrom .outside text

theorem compactFrom_compactFrom (mode : Mode) (text : List Char) :
    compactFrom mode (compactFrom mode text) = compactFrom mode text := by
  induction text generalizing mode with
  | nil => cases mode <;> rfl
  | cons c rest ih =>
    cases mode with
    | outside =>
      rw [compactFrom]
      split
      · exact ih .outside
      · next hspace =>
        rw [compactFrom, if_neg hspace]
        exact congrArg _ (ih _)
    | inside =>
      rw [compactFrom, compactFrom]
      exact congrArg _ (ih _)
    | escaped =>
      rw [compactFrom, compactFrom]
      exact congrArg _ (ih _)

theorem compact_compact (text : List Char) : compact (compact text) = compact text :=
  compactFrom_compactFrom .outside text

section Tokens

variable {rest : List Char} {c : Char} {text : List Char}

theorem compact_cons (hspace : isSpace c = false) (hquote : c ≠ '"') :
    compact (c :: text) = c :: compact text := by
  simp [compact, compactFrom, hspace, hquote]

theorem compact_quote (text : List Char) :
    compact ('"' :: text) = '"' :: compactFrom .inside text := rfl

theorem compact_skipSpace (text : List Char) : compact (skipSpace text) = compact text := by
  induction text with
  | nil => rfl
  | cons c rest ih =>
    cases hspace : isSpace c with
    | true => simpa [skipSpace, List.dropWhile, compact, compactFrom, hspace] using ih
    | false => rw [skipSpace_cons c rest hspace]

theorem skipSpace_compact (text : List Char) : skipSpace (compact text) = compact text := by
  induction text with
  | nil => rfl
  | cons c rest ih =>
    cases hspace : isSpace c with
    | true => simpa [compact, compactFrom, hspace] using ih
    | false =>
      rw [compact, compactFrom, if_neg (by simp [hspace])]
      exact skipSpace_cons c _ hspace

theorem isSpace_head (h : skipSpace text = c :: rest) : isSpace c = false := by
  have hhead := List.head?_dropWhile_not isSpace text
  rw [← skipSpace, h] at hhead
  simpa using hhead

theorem compact_of_skipSpace (h : skipSpace text = c :: rest) (hquote : c ≠ '"') :
    compact text = c :: compact rest := by
  rw [← compact_skipSpace, h]
  exact compact_cons (isSpace_head h) hquote

theorem compact_append {token : List Char} (text : List Char)
    (h : ∀ c ∈ token, isSpace c = false ∧ c ≠ '"') :
    compact (token ++ text) = token ++ compact text := by
  induction token with
  | nil => rfl
  | cons c rest ih =>
    obtain ⟨⟨hspace, hquote⟩, hrest⟩ := List.forall_mem_cons.mp h
    rw [List.cons_append, compact_cons hspace hquote, ih hrest]
    rfl

theorem hexValue_plain {n : ℕ} (h : hexValue c = some n) : c ≠ '"' ∧ c ≠ '\\' := by
  constructor
  · rintro rfl
    have hnone : hexValue '"' = none := by decide
    rw [hnone] at h
    cases h
  · rintro rfl
    have hnone : hexValue '\\' = none := by decide
    rw [hnone] at h
    cases h

theorem hex4_plain {a b d : Char} {n : ℕ} (h : hex4 a b c d = some n) :
    ∀ x ∈ [a, b, c, d], x ≠ '"' ∧ x ≠ '\\' := by
  unfold hex4 at h
  obtain ⟨x, ha, h⟩ := Option.bind_eq_some_iff.mp h
  obtain ⟨y, hb, h⟩ := Option.bind_eq_some_iff.mp h
  obtain ⟨z, hc, h⟩ := Option.bind_eq_some_iff.mp h
  obtain ⟨w, hd, -⟩ := Option.bind_eq_some_iff.mp h
  simp only [List.forall_mem_cons, List.not_mem_nil, false_imp_iff, implies_true, and_true]
  exact ⟨hexValue_plain ha, hexValue_plain hb, hexValue_plain hc, hexValue_plain hd⟩

theorem compact_inside (h : c ≠ '"' ∧ c ≠ '\\') :
    compactFrom .inside (c :: text) = c :: compactFrom .inside text := by
  rw [compactFrom, if_neg h.1, if_neg h.2]

/-- The characters of a string stay, and so does what is behind its closing quote. -/
theorem parsePieces_compact : ∀ pieces rest,
    parsePieces text = some (pieces, rest) →
      parsePieces (compactFrom .inside text) = some (pieces, compact rest) := by
  fun_induction parsePieces text with
  | case1 | case4 | case6 | case7 =>
    intro _ _ h
    cases h
  | case2 rest =>
    rintro pieces r h
    cases h
    rfl
  | case3 a b c d rest n hhex ih =>
    intro pieces r h
    obtain ⟨⟨ps, r'⟩, hps, heq⟩ := Option.map_eq_some_iff.mp h
    cases heq
    have hplain := hex4_plain hhex
    simp only [List.forall_mem_cons] at hplain
    obtain ⟨ha, hb, hc, hd, -⟩ := hplain
    have hcompact : compactFrom .inside ('\\' :: 'u' :: a :: b :: c :: d :: rest) =
        '\\' :: 'u' :: a :: b :: c :: d :: compactFrom .inside rest := by
      rw [compactFrom, if_neg (by decide), if_pos rfl, compactFrom, compact_inside ha,
        compact_inside hb, compact_inside hc, compact_inside hd]
    rw [hcompact, parsePieces, hhex]
    simp only [ih ps r' hps, Option.map_some]
  | case5 e rest hu c hescape ih =>
    intro pieces r h
    obtain ⟨⟨ps, r'⟩, hps, heq⟩ := Option.map_eq_some_iff.mp h
    cases heq
    have hcompact : compactFrom .inside ('\\' :: e :: rest) =
        '\\' :: e :: compactFrom .inside rest := by
      rw [compactFrom, if_neg (by decide), if_pos rfl, compactFrom]
    rw [hcompact, parsePieces]
    · simp only [hescape, ih ps r' hps, Option.map_some]
    · rintro a b c' d tail rfl -
      revert hescape
      simp [simpleEscape]
  | case8 c rest hquote hu hslash hplain ih =>
    intro pieces r h
    obtain ⟨⟨ps, r'⟩, hps, heq⟩ := Option.map_eq_some_iff.mp h
    cases heq
    obtain ⟨hback, hcontrol⟩ := not_or.mp hplain
    rw [compact_inside ⟨hquote, hback⟩, parsePieces_plain hquote hback hcontrol, ih ps r' hps]
    rfl

theorem parseChars_compact {chars : List Char} (h : parseChars text = some (chars, rest)) :
    parseChars (compactFrom .inside text) = some (chars, compact rest) := by
  obtain ⟨⟨pieces, r⟩, hpieces, heq⟩ := Option.map_eq_some_iff.mp h
  cases heq
  rw [parseChars, parsePieces_compact pieces r hpieces]
  rfl

end Tokens

section Starts

theorem numberChar_plain {c : Char} (h : isNumberChar c = true) :
    isSpace c = false ∧ c ≠ '"' := by
  constructor
  · by_contra hspace
    simp only [Bool.not_eq_false, isSpace, Bool.or_eq_true, beq_iff_eq] at hspace
    rcases hspace with ((rfl | rfl) | rfl) | rfl <;> exact absurd h (by decide)
  · rintro rfl
    exact absurd h (by decide)

theorem start_done_head {text rest : List Char} {v : Json} (h : start text = .done v rest) :
    ∃ c tail, text = c :: tail ∧ startsValue c = true := by
  unfold start at h
  split at h
  · exact ⟨_, _, rfl, by decide⟩
  · exact ⟨_, _, rfl, by decide⟩
  · exact ⟨_, _, rfl, by decide⟩
  · exact ⟨_, _, rfl, by decide⟩
  · cases h
  · cases h
  · simp only at h
    split at h
    · next hvalid =>
      obtain ⟨c, tail, hliteral, hc⟩ :=
        numberLiteral_head ⟨hvalid, fun c hc => List.mem_takeWhile_imp hc⟩
      refine ⟨c, tail ++ text.dropWhile isNumberChar, ?_, ?_⟩
      · rw [← List.cons_append, ← hliteral, List.takeWhile_append_dropWhile]
      · rcases hc with rfl | hc
        · decide
        · simp [startsValue, hc]
    · cases h

/-- A value without brackets, if what follows does not continue a number. -/
theorem start_done_compact {text rest : List Char} {v : Json} (h : start text = .done v rest)
    (hend : EndsNumber (compact rest)) : start (compact text) = .done v (compact rest) := by
  unfold start at h
  split at h
  · cases h
    rfl
  · cases h
    rfl
  · cases h
    rfl
  · next chars =>
    split at h
    · next cs after hchars =>
      cases h
      rw [compact_quote, start, parseChars_compact hchars]
    · cases h
  · cases h
  · cases h
  · simp only at h
    split at h
    · next hvalid =>
      cases h
      have hchars : ∀ c ∈ text.takeWhile isNumberChar, isNumberChar c = true := fun c hc =>
        List.mem_takeWhile_imp hc
      have hcompact : compact text =
          text.takeWhile isNumberChar ++ compact (text.dropWhile isNumberChar) := by
        rw [← compact_append _ fun c hc => numberChar_plain (hchars c hc),
          List.takeWhile_append_dropWhile]
      rw [hcompact]
      exact start_number ⟨hvalid, hchars⟩ hend
    · cases h

/-- Closing brackets are found alike. -/
theorem closes_compact {bracket : Char} (hquote : bracket ≠ '"') (text : List Char) :
    closes bracket (compact text) = (closes bracket text).map compact := by
  rw [closes, closes, skipSpace_compact]
  cases hskip : skipSpace text with
  | nil =>
    rw [← compact_skipSpace, hskip]
    rfl
  | cons c after =>
    by_cases hc : c = '"'
    · rw [← compact_skipSpace, hskip, hc, compact_quote]
      simp [hquote.symm]
    · rw [compact_of_skipSpace hskip hc]
      simp only
      split <;> rfl

end Starts

variable {text rest : List Char} {j : Json}

theorem readsName_compact {name : List Char} (h : ReadsName text name rest) :
    ReadsName (compact text) name (compact rest) := by
  obtain ⟨chars, after, hquote, hname, hcolon⟩ := h
  refine ⟨_, _, ?_, parseChars_compact hname, ?_⟩
  · rw [skipSpace_compact, ← compact_skipSpace, hquote, compact_quote]
  · rw [skipSpace_compact, compact_of_skipSpace hcolon (by decide)]

theorem skipSpace_compact_cons {c : Char} (h : skipSpace text = c :: rest) (hquote : c ≠ '"') :
    skipSpace (compact text) = c :: compact rest := by
  rw [skipSpace_compact, compact_of_skipSpace h hquote]

theorem start_arr_compact (h : start (skipSpace text) = .arr rest) :
    start (skipSpace (compact text)) = .arr (compact rest) := by
  rw [skipSpace_compact_cons (start_opens.1 h) (by decide)]
  rfl

theorem start_obj_compact (h : start (skipSpace text) = .obj rest) :
    start (skipSpace (compact text)) = .obj (compact rest) := by
  rw [skipSpace_compact_cons (start_opens.2 h) (by decide)]
  rfl

theorem endsNumber_compact {c : Char} (h : skipSpace text = c :: rest) (hquote : c ≠ '"')
    (hnumber : isNumberChar c = false) : EndsNumber (compact text) := by
  rw [compact_of_skipSpace h hquote]
  exact endsNumber_cons hnumber

/-- What is read from a text is read from the compacted one, if what follows a value does not
continue a number. -/
theorem reads_compact {r : List Char} {p : Part} (h : Reads text p r)
    (hend : ∀ v, p = .value v → EndsNumber (compact r)) : Reads (compact text) p (compact r) := by
  induction h with
  | scalar hdone =>
    refine .scalar ?_
    rw [skipSpace_compact, ← compact_skipSpace]
    exact start_done_compact hdone (hend _ rfl)
  | noItems hopen hclose =>
    exact .noItems (start_arr_compact hopen) (by rw [closes_compact (by decide), hclose]; rfl)
  | arr hopen hclose _ ih =>
    exact .arr (start_arr_compact hopen) (by rw [closes_compact (by decide), hclose]; rfl)
      (ih nofun)
  | noMembers hopen hclose =>
    exact .noMembers (start_obj_compact hopen) (by rw [closes_compact (by decide), hclose]; rfl)
  | obj hopen hclose _ ih =>
    exact .obj (start_obj_compact hopen) (by rw [closes_compact (by decide), hclose]; rfl)
      (ih nofun)
  | lastItem _ hbracket ih =>
    exact .lastItem (ih fun _ _ => endsNumber_compact hbracket (by decide) (by decide))
      (skipSpace_compact_cons hbracket (by decide))
  | item _ hcomma _ ih ihmore =>
    exact .item (ih fun _ _ => endsNumber_compact hcomma (by decide) (by decide))
      (skipSpace_compact_cons hcomma (by decide)) (ihmore nofun)
  | lastMember hname _ hbrace ih =>
    exact .lastMember (readsName_compact hname)
      (ih fun _ _ => endsNumber_compact hbrace (by decide) (by decide))
      (skipSpace_compact_cons hbrace (by decide))
  | member hname _ hcomma _ ih ihmore =>
    exact .member (readsName_compact hname)
      (ih fun _ _ => endsNumber_compact hcomma (by decide) (by decide))
      (skipSpace_compact_cons hcomma (by decide)) (ihmore nofun)

/-- A compacted text is JSON for what the text is. -/
theorem spells_compact (h : Spells text j) : Spells (compact text) j := by
  obtain ⟨rest, hreads, hrest⟩ := spells_iff.mp h
  have hempty : compact rest = [] := by
    rw [← compact_skipSpace, hrest]
    rfl
  exact spells_iff.mpr
    ⟨compact rest, reads_compact hreads (by rw [hempty]; nofun), by rw [hempty]; rfl⟩

theorem parse_compact (h : parse text = some j) : parse (compact text) = some j := by
  obtain ⟨hspells, hnesting⟩ := parse_eq_some_iff.mp h
  exact parse_eq_some_iff.mpr ⟨spells_compact hspells, hnesting⟩

/-- What a text starts with that is JSON. -/
theorem spells_head (h : Spells text j) :
    ∃ c tail, skipSpace text = c :: tail ∧ startsValue c = true := by
  obtain ⟨rest, hreads, -⟩ := spells_iff.mp h
  cases hreads with
  | scalar hdone => exact start_done_head hdone
  | noItems hopen | arr hopen => exact ⟨'[', _, start_opens.1 hopen, by decide⟩
  | noMembers hopen | obj hopen => exact ⟨'\x7b', _, start_opens.2 hopen, by decide⟩

end KnowledgeEngine.JsonCompact
