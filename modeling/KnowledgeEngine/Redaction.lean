import KnowledgeEngine.RegexScan
import KnowledgeEngine.StringText

/-!
The redaction of log lines: RedactPII in Go and its port redact_pii in Python run one pattern
under the classes of their engines. Texts are characters; a byte that starts no character is
read as the replacement character, which is in no class.
-/

namespace KnowledgeEngine.Redaction

open BacktrackRegex Regex RegexScan StringText

inductive Engine
  | go | python

/-- The class \s; Python's has the vertical tab. -/
def Engine.space : Engine → Char → Bool
  | .go, c => c ∈ ['\t', '\n', '\x0c', '\r', ' ']
  | .python, c => c ∈ ['\t', '\n', '\x0b', '\x0c', '\r', ' ']

/-- The capital that stands for the letters of one case: Go folds Unicode letters, Python under
re.ASCII only ASCII ones. -/
def Engine.fold : Engine → Char → Char
  | .go, c => foldChar c
  | .python, c => c.toUpper

/-- \b is between an ASCII word character and something else in both engines. -/
def isWord (c : Char) : Bool := c.isAlphanum || c == '_'

def literal (c : Char) : Regex Char := one (· == c)

def digit : Regex Char := one Char.isDigit

section pattern

variable (space : Char → Bool) (fold : Char → Char)

def email : Regex Char :=
  concat [atLeast 1 fun c => c.isAlphanum || c ∈ ['.', '_', '%', '+', '-'], literal '@',
    atLeast 1 fun c => c.isAlphanum || c ∈ ['.', '-'], literal '.', atLeast 2 Char.isAlpha]

/-- The optional separator [-.\s]? of a phone number. -/
def separator : Regex Char := opt (one fun c => c == '-' || c == '.' || space c)

def phone : Regex Char :=
  concat [opt (concat [opt (literal '+'), literal '1', separator space]), opt (literal '('),
    times 3 digit, opt (literal ')'), separator space, times 3 digit, separator space,
    times 4 digit]

def ssn : Regex Char :=
  concat [times 3 digit, literal '-', times 2 digit, literal '-', times 4 digit]

/-- \d{1,3} -/
def octet : Regex Char := seq digit (upTo 2 digit)

def ipv4 : Regex Char := concat [times 3 (concat [octet, literal '.']), octet]

/-- A class under (?i). -/
def insensitive (p : Char → Bool) (c : Char) : Bool := p (fold c) || p (fold c).toLower

def insensitiveText (text : String) : Regex Char :=
  concat (text.toList.map fun c => one (insensitive fold (· == c)))

/-- The characters of a token. -/
def tokenChar (c : Char) : Bool := c.isAlphanum || c ∈ ['-', '.', '_', '~', '+', '/']

def authToken : Regex Char :=
  concat [
    alt (concat [insensitiveText fold "bearer", atLeast 1 space])
      (concat [opt (insensitiveText fold "access_"), insensitiveText fold "token",
        one fun c => c == '=' || c == ':', many space]),
    atLeast 1 (insensitive fold tokenChar), many (· == '=')]

def pattern : Regex Char :=
  alt email (alt (phone space) (alt (concat [wordBoundary, ssn, wordBoundary])
    (alt (concat [wordBoundary, ipv4, wordBoundary]) (authToken space fold))))

end pattern

def piiPattern (engine : Engine) : Regex Char := pattern engine.space engine.fold

def redacted : List Char := "[REDACTED]".toList

/-- The kept characters and the matches of a line. -/
def pieces (engine : Engine) (s : String) : List (Piece Char) :=
  scan isWord (piiPattern engine) 0 [] s.toList

/-- RedactPII and redact_pii -/
def redactPII (engine : Engine) (s : String) : String :=
  String.ofList (replace redacted (pieces engine s))

example : redactPII .go "mail a.b@c.org now" = "mail [REDACTED] now" := by decide +kernel
example : redactPII .go "?access_token=ab.c== x" = "?[REDACTED] x" := by decide +kernel
example : redactPII .python "+1 (555) 123-4567, 10.0.0.1" = "[REDACTED], [REDACTED]" := by
  decide +kernel

variable {engine : Engine} {s : String}

/-- A match has at least one character, no bracket, and a character that the replacement
lacks. -/
theorem piiPattern_classes : (piiPattern engine).within [] = false ∧
    (piiPattern engine).avoids '[' = true ∧ (piiPattern engine).avoids ']' = true ∧
    (piiPattern engine).within redacted = false := by
  cases engine <;> decide

theorem pieces_scanned (engine : Engine) (s : String) :
    Scanned isWord (piiPattern engine) [] s.toList (pieces engine s) :=
  scanned isWord _ piiPattern_classes.1 [] s.toList

/-- The alternatives that do not look at the text around a match. -/
def Free (engine : Engine) (w : List Char) : Prop :=
  Matches isWord (alt email (alt (phone engine.space) (authToken engine.space engine.fold))) [] w []

/-- The form of a social security number or an IPv4 address. -/
def Shaped (w : List Char) : Prop := Matches isWord (alt ssn ipv4) [] w []

instance (w : List Char) : Decidable (Shaped w) :=
  inferInstanceAs (Decidable (Matches isWord (alt ssn ipv4) [] w []))

/-- The text has no match of the pattern. -/
def Clean (engine : Engine) (s : String) : Prop :=
  ∀ before w after, s.toList = before ++ w ++ after →
    ¬ Matches isWord (piiPattern engine) before.reverse w after

/-- What is next to a stretch of kept characters is redacted, missing or no word character. -/
def Open : Option (Piece Char) → Bool
  | none => true
  | some (.hit _) => true
  | some (.keep c) => !isWord c

/-- The line keeps text of the form of a social security number or an IPv4 address between
redactions, ends of the line and characters outside of words. -/
def Exposed (engine : Engine) (s : String) : Prop :=
  ∃ left w right, pieces engine s = left ++ w.map .keep ++ right ∧ Shaped w ∧
    Open left.getLast? = true ∧ Open right.head? = true

theorem digits_edges (r : Regex Char) (hr : r.AllIn (fun c => c.isDigit = true))
    (hne : r.within [] = false) (before w after : List Char)
    (h : Matches isWord r before w after) :
    w.head?.any isWord = true ∧ w.reverse.head?.any isWord = true := by
  have hdigits := matches_all isWord _ r before w after hr h
  have hw := ne_nil_of_matches isWord r before w after hne h
  have hword : ∀ c ∈ w, isWord c = true := by
    intro c hc
    simp [isWord, Char.isAlphanum, hdigits c hc]
  constructor
  · rw [List.head?_eq_some_head hw]
    exact hword _ (List.head_mem hw)
  · rw [List.head?_reverse, List.getLast?_eq_some_getLast hw]
    exact hword _ (List.getLast_mem hw)

theorem head_any_append {u v : List Char} (h : u.head?.any isWord = true) :
    (u ++ v).head?.any isWord = true := by
  cases u with
  | nil => exact nomatch h
  | cons c u => exact h

variable {w : List Char}

/-- Both forms start and end with a digit. -/
theorem shaped_edges (h : Shaped w) :
    w.head?.any isWord = true ∧ w.reverse.head?.any isWord = true := by
  have hdigit : ∀ c, Char.isDigit c = true → c.isDigit = true := fun _ hc => hc
  have hoctet : octet.AllIn (fun c => c.isDigit = true) :=
    ⟨hdigit, ⟨hdigit, ⟨hdigit, trivial⟩, trivial⟩, trivial⟩
  rcases h with h | h
  · obtain ⟨u, _, rfl, hu, a, _, rfl, _, b, _, rfl, _, c, v, rfl, _, hv⟩ := h
    have hfirst := digits_edges (times 3 digit) ⟨hdigit, hdigit, hdigit⟩ rfl _ _ _ hu
    have hlast := digits_edges (times 4 digit) ⟨hdigit, hdigit, hdigit, hdigit⟩ rfl
      _ _ _ hv
    refine ⟨head_any_append hfirst.1, ?_⟩
    simp only [List.reverse_append, List.append_assoc]
    exact head_any_append hlast.2
  · obtain ⟨_, v, rfl, ⟨_, a, rfl, ⟨u, b, rfl, hu, _⟩, _⟩, hv⟩ := h
    have hfirst := digits_edges _ hoctet rfl _ _ _ hu
    have hlast := digits_edges _ hoctet rfl _ _ _ hv
    constructor
    · simp only [List.append_assoc]
      exact head_any_append hfirst.1
    · rw [List.reverse_append]
      exact head_any_append hlast.2

theorem matches_bounded (r : Regex Char) (before w after : List Char) :
    Matches isWord (concat [wordBoundary, r, wordBoundary]) before w after ↔
      boundary isWord before (w ++ after) = true ∧ Matches isWord r before w after ∧
        boundary isWord (w.reverse ++ before) after = true := by
  constructor
  · rintro ⟨_, v, rfl, ⟨rfl, hleft⟩, u, _, rfl, hr, rfl, hright⟩
    rw [List.append_nil] at hleft
    exact ⟨by simpa using hleft, by simpa using hr, by simpa using hright⟩
  · rintro ⟨hleft, hr, hright⟩
    exact ⟨[], w, rfl, ⟨rfl, hleft⟩, w, [], (List.append_nil w).symm, hr, rfl, hright⟩

theorem boundary_edges (before : List Char) (after : List Char)
    (hw : w.head?.any isWord = true ∧ w.reverse.head?.any isWord = true) :
    (boundary isWord before (w ++ after) = true ↔ before.head?.any isWord = false) ∧
      (boundary isWord (w.reverse ++ before) after = true ↔ after.head?.any isWord = false) := by
  unfold boundary
  rw [head_any_append hw.1, head_any_append hw.2]
  simp

variable {before after : List Char}

/-- A match is free, or it has one of the two forms and no word character next to it. -/
theorem piiPattern_iff :
    Matches isWord (piiPattern engine) before w after ↔ Free engine w ∨
      (Shaped w ∧ before.head?.any isWord = false ∧ after.head?.any isWord = false) := by
  have hplain : ∀ r : Regex Char, r.plain = true →
      (Matches isWord r before w after ↔ Matches isWord r [] w []) := fun r hr =>
    ⟨matches_of_plain _ _ _ _ _ hr, matches_of_plain _ _ _ _ _ hr⟩
  have hshaped : ∀ r : Regex Char, r.plain = true → (Matches isWord r [] w [] → Shaped w) →
      (Matches isWord (concat [wordBoundary, r, wordBoundary]) before w after ↔
        Matches isWord r [] w [] ∧ before.head?.any isWord = false ∧
          after.head?.any isWord = false) := by
    intro r hr hform
    rw [matches_bounded, hplain r hr]
    constructor
    · rintro ⟨hleft, h, hright⟩
      have hedges := boundary_edges before after (shaped_edges (hform h))
      exact ⟨h, hedges.1.mp hleft, hedges.2.mp hright⟩
    · rintro ⟨h, hleft, hright⟩
      have hedges := boundary_edges before after (shaped_edges (hform h))
      exact ⟨hedges.1.mpr hleft, h, hedges.2.mpr hright⟩
  have hphone : (phone engine.space).plain = true := rfl
  have htoken : (authToken engine.space engine.fold).plain = true := rfl
  change Matches isWord email before w after ∨ Matches isWord (phone engine.space) before w after ∨
    Matches isWord (concat [wordBoundary, ssn, wordBoundary]) before w after ∨
    Matches isWord (concat [wordBoundary, ipv4, wordBoundary]) before w after ∨
    Matches isWord (authToken engine.space engine.fold) before w after ↔
    (Matches isWord email [] w [] ∨ Matches isWord (phone engine.space) [] w [] ∨
      Matches isWord (authToken engine.space engine.fold) [] w []) ∨
    ((Matches isWord ssn [] w [] ∨ Matches isWord ipv4 [] w []) ∧ _)
  rw [hplain email rfl, hplain _ hphone, hplain _ htoken, hshaped ssn rfl Or.inl,
    hshaped ipv4 rfl Or.inr]
  tauto

theorem redacted_head (text : List Char) : (redacted ++ text).head? = some '[' := rfl

theorem redacted_last (text : List Char) : (redacted.reverse ++ text).head? = some ']' := rfl

theorem open_left {left : List (Piece Char)} :
    Open left.getLast? = true ↔ (replace redacted left).reverse.head?.any isWord = false := by
  rcases List.eq_nil_or_concat left with rfl | ⟨rest, piece, rfl⟩
  · exact ⟨fun _ => rfl, fun _ => rfl⟩
  · rw [List.concat_eq_append, List.getLast?_concat, replace, List.flatMap_append,
      List.flatMap_singleton, List.reverse_append]
    cases piece with
    | keep c => exact iff_of_eq (Bool.not_eq_true' (isWord c))
    | hit w =>
      rw [Piece.replaced, redacted_last]
      exact ⟨fun _ => rfl, fun _ => rfl⟩

theorem open_right {right : List (Piece Char)} :
    Open right.head? = true ↔ (replace redacted right).head?.any isWord = false := by
  cases right with
  | nil => exact ⟨fun _ => rfl, fun _ => rfl⟩
  | cons piece rest =>
    rw [List.head?_cons, replace, List.flatMap_cons]
    cases piece with
    | keep c => exact iff_of_eq (Bool.not_eq_true' (isWord c))
    | hit w =>
      rw [Piece.replaced, redacted_head]
      exact ⟨fun _ => rfl, fun _ => rfl⟩

/-- A match of the redacted line is made of kept characters. -/
theorem kept_of_matches (hout : (redactPII engine s).toList = before ++ w ++ after)
    (h : Matches isWord (piiPattern engine) before.reverse w after) :
    ∃ left right, pieces engine s = left ++ w.map .keep ++ right ∧
      before = replace redacted left ∧ after = replace redacted right := by
  obtain ⟨_, hopen, hclose, hinside⟩ := piiPattern_classes
  rw [redactPII, String.toList_ofList] at hout
  refine kept_of_replaced '[' ']' "REDACTED".toList (pieces engine s) before w after hout
    (not_mem_of_avoids hopen h) (not_mem_of_avoids hclose h)
    fun hw => ?_
  rw [within_of_matches isWord redacted _ _ w _ h hw] at hinside
  exact nomatch hinside

theorem exposed_of_matches (hout : (redactPII engine s).toList = before ++ w ++ after)
    (h : Matches isWord (piiPattern engine) before.reverse w after) : Exposed engine s := by
  obtain ⟨left, right, hpieces, rfl, rfl⟩ := kept_of_matches hout h
  have hscanned := pieces_scanned engine s
  rcases piiPattern_iff.mp h with hfree | ⟨hshaped, hleft, hright⟩
  · exfalso
    obtain ⟨c, w, rfl⟩ := List.exists_cons_of_ne_nil
      (ne_nil_of_matches isWord _ _ w _ piiPattern_classes.1 h)
    rw [hpieces, List.append_assoc] at hscanned
    refine hscanned.not_matches left (w.map .keep ++ right) c (c :: w) (textOf right) ?_
      (piiPattern_iff.mpr (Or.inl hfree))
    rw [textOf_append, textOf_map_keep]
    rfl
  · exact ⟨left, w, right, hpieces, hshaped, open_left.mpr hleft,
      open_right.mpr hright⟩

theorem not_clean_of_exposed (h : Exposed engine s) : ¬ Clean engine (redactPII engine s) := by
  obtain ⟨left, w, right, hpieces, hshaped, hleft, hright⟩ := h
  intro hclean
  refine hclean (replace redacted left) w (replace redacted right) ?_ (piiPattern_iff.mpr
      (Or.inr ⟨hshaped, open_left.mp hleft, open_right.mp hright⟩))
  rw [redactPII, String.toList_ofList, hpieces, replace_append, replace_append,
    replace_map_keep]

theorem clean_iff : Clean engine (redactPII engine s) ↔ ¬ Exposed engine s := by
  constructor
  · exact fun hclean hexposed => not_clean_of_exposed hexposed hclean
  · intro h before w after hout hmatch
    exact h (exposed_of_matches hout hmatch)

theorem no_hit_of_replace_eq {text : List Char} {parts : List (Piece Char)}
    (h : Scanned isWord (piiPattern engine) before text parts)
    (heq : replace redacted parts = text) :
    ∀ w, .hit w ∉ parts := by
  induction h with
  | done => exact fun w => List.not_mem_nil
  | keep before c text parts _ _ ih =>
    intro w hw
    rcases List.mem_cons.mp hw with hw | hw
    · exact nomatch hw
    · exact ih (List.cons_eq_cons.mp heq).2 w hw
  | hit before w text parts hmatch _ _ =>
    obtain ⟨hne, hopen, _⟩ := piiPattern_classes
    obtain ⟨c, w, rfl⟩ := List.exists_cons_of_ne_nil (ne_nil_of_matches isWord _ _ w _ hne hmatch)
    have hbracket : '[' = c := (List.cons_eq_cons.mp heq).1
    exact absurd (hbracket ▸ List.mem_cons_self) (not_mem_of_avoids hopen hmatch)

/-- Redaction leaves a text as it is exactly when the text has no match. -/
theorem redactPII_eq_self_iff : redactPII engine s = s ↔ Clean engine s := by
  have hscanned := pieces_scanned engine s
  constructor
  · intro h before w after hs hmatch
    have heq : replace redacted (pieces engine s) = s.toList := by
      rw [← String.toList_ofList (l := replace redacted (pieces engine s))]
      exact congrArg String.toList h
    have hkeep := eq_map_keep _ (no_hit_of_replace_eq hscanned heq)
    obtain ⟨c, w, rfl⟩ := List.exists_cons_of_ne_nil
      (ne_nil_of_matches isWord _ _ w _ piiPattern_classes.1 hmatch)
    rw [hscanned.textOf_eq, hs] at hkeep
    rw [hkeep, List.append_assoc, List.map_append] at hscanned
    refine hscanned.not_matches (before.map .keep) ((w ++ after).map .keep) c (c :: w) after ?_ ?_
    · rw [textOf_map_keep]
      rfl
    · rwa [textOf_map_keep, List.append_nil]
  · intro hclean
    rw [redactPII, hscanned.eq_map_keep hclean, replace_map_keep, String.ofList_toList]

/-- Redaction leaves no match, and a second redaction changes nothing, exactly when the line
does not expose a social security number or an IPv4 address next to a redaction. -/
theorem redactPII_complete_iff (engine : Engine) (s : String) :
    (Clean engine (redactPII engine s) ↔ ¬ Exposed engine s) ∧
      (redactPII engine (redactPII engine s) = redactPII engine s ↔ ¬ Exposed engine s) :=
  ⟨clean_iff, redactPII_eq_self_iff.trans clean_iff⟩

/-- The ten digits before the number are a phone number. -/
theorem phone_exposes_number :
    redactPII .go "5551234567123-45-6789" = "[REDACTED]123-45-6789" ∧
      redactPII .go "[REDACTED]123-45-6789" = "[REDACTED][REDACTED]" ∧
      ¬ Clean .go "[REDACTED]123-45-6789" := by
  refine ⟨by decide +kernel, by decide +kernel, fun h => ?_⟩
  exact h "[REDACTED]".toList "123-45-6789".toList [] (by decide +kernel) (by decide +kernel)

end KnowledgeEngine.Redaction
