import KnowledgeEngine.Redaction

/-!
RedactPII in Go against redact_pii in Python. Both patterns are restrictions of one wider
pattern: Go lacks the vertical tab, Python the letters outside of ASCII that fold to ASCII.
-/

namespace KnowledgeEngine.Redaction

open BacktrackRegex Regex RegexScan StringText

/-- The letters outside of ASCII that fold to an ASCII letter. -/
def foldedLetters : List Char := ['\u017f', '\u212a']

/-- What the two engines have in common is the wider white space of the one and the wider
letters of the other. -/
def widePattern : Regex Char := pattern Engine.python.space Engine.go.fold

theorem space_without : (fun c => Engine.python.space c && without ['\x0b'] c) =
    Engine.go.space := by
  funext c
  by_cases hc : c = '\x0b'
  · subst hc
    rfl
  · simp [Engine.space, without, hc]

theorem separator_without :
    (separator Engine.python.space).restrict (without ['\x0b']) = separator Engine.go.space := by
  rw [← space_without]
  refine congrArg (fun p => opt (one p)) (funext fun c => ?_)
  by_cases hc : c = '\x0b'
  · subst hc
    rfl
  · simp [without, hc]

theorem forall_foldedLetters {p : Char → Prop} (h : p '\u017f' ∧ p '\u212a') :
    ∀ c ∈ foldedLetters, p c := by
  simpa [foldedLetters] using h

theorem insensitive_without {p : Char → Bool} (h : ∀ c ∈ foldedLetters, p c = false) :
    (fun c => insensitive Engine.go.fold p c && without foldedLetters c) =
      insensitive Engine.python.fold p := by
  funext c
  by_cases hc : c ∈ foldedLetters
  · have hletters : ∀ c ∈ foldedLetters, c.toUpper = c ∧ c.toLower = c :=
      forall_foldedLetters (by decide)
    have hlow := hletters c hc
    simp [insensitive, Engine.fold, hlow, h c hc, without, hc]
  · have hfold : foldChar c = c.toUpper := by
      simp only [foldedLetters, List.mem_cons, List.not_mem_nil, or_false, not_or] at hc
      rw [foldChar, if_neg hc.1, if_neg hc.2]
    simp [insensitive, Engine.fold, hfold, without, hc]

theorem insensitiveText_without {text : String} (h : ∀ c ∈ foldedLetters, c ∉ text.toList) :
    (insensitiveText Engine.go.fold text).restrict (without foldedLetters) =
      insensitiveText Engine.python.fold text := by
  rw [insensitiveText, restrict_concat, List.map_map]
  refine congrArg concat (List.map_congr_left fun c hc => ?_)
  refine congrArg one (insensitive_without fun d hd => ?_)
  exact beq_false_of_ne fun hdc => h d hd (hdc ▸ hc)

theorem atLeast_one_restrict {q p p' : Char → Bool} (h : (fun c => p c && q c) = p') :
    (atLeast 1 p).restrict q = atLeast 1 p' := by
  subst h
  rfl

theorem authToken_restrict {q space space' : Char → Bool} {fold fold' : Char → Char}
    (hspace : (fun c => space c && q c) = space')
    (htext : ∀ text ∈ ["bearer", "access_", "token"],
      (insensitiveText fold text).restrict q = insensitiveText fold' text)
    (htoken : (fun c => insensitive fold tokenChar c && q c) = insensitive fold' tokenChar)
    (hsigns : q '=' = true ∧ q ':' = true) :
    (authToken space fold).restrict q = authToken space' fold' := by
  have hbearer := htext "bearer" (by simp)
  have haccess := htext "access_" (by simp)
  have hname := htext "token" (by simp)
  have hmany : (many space).restrict q = many space' := congrArg many hspace
  have hsign : ∀ p : Char → Bool, (∀ c, p c = true → c = '=' ∨ c = ':') →
      (fun c => p c && q c) = p := by
    intro p hp
    funext c
    by_cases hc : p c = true
    · rcases hp c hc with rfl | rfl
      · rw [hsigns.1, Bool.and_true]
      · rw [hsigns.2, Bool.and_true]
    · simp [hc]
  have hassign : (one fun c => c == '=' || c == ':').restrict q =
      one fun c => c == '=' || c == ':' := congrArg one (hsign _ (by simp))
  have hpadding : (many (· == '=')).restrict q = many (· == '=') :=
    congrArg many (hsign _ (by simp))
  rw [authToken, restrict_concat]
  simp only [List.map_cons, List.map_nil, atLeast_one_restrict htoken, hpadding]
  rw [restrict, restrict_concat, restrict_concat]
  simp only [List.map_cons, List.map_nil, atLeast_one_restrict hspace, hbearer, hname,
    hassign, hmany]
  rw [opt, restrict, haccess]
  rfl

theorem piiPattern_go : piiPattern .go = widePattern.restrict (without ['\x0b']) := by
  have hself : ∀ r : Regex Char, r.avoids '\x0b' = true → r.restrict (without ['\x0b']) = r :=
    fun r hr => restrict_without fun c hc => List.mem_singleton.mp hc ▸ hr
  have hphone : (phone Engine.python.space).restrict (without ['\x0b']) =
      phone Engine.go.space := by
    have hcountry :
        (concat [opt (literal '+'), literal '1', separator Engine.python.space]).restrict
          (without ['\x0b']) =
            concat [opt (literal '+'), literal '1', separator Engine.go.space] := by
      rw [restrict_concat]
      simp only [List.map_cons, List.map_nil, separator_without, hself (opt (literal '+')) rfl,
        hself (literal '1') rfl]
    rw [phone, phone, restrict_concat]
    simp only [List.map_cons, List.map_nil, separator_without, hself (opt (literal '(')) rfl,
      hself (opt (literal ')')) rfl, hself (times 3 digit) rfl, hself (times 4 digit) rfl]
    rw [opt, restrict, hcountry]
    rfl
  have htoken : (authToken Engine.python.space Engine.go.fold).restrict (without ['\x0b']) =
      authToken Engine.go.space Engine.go.fold := by
    have htexts : ∀ text ∈ ["bearer", "access_", "token"],
        (insensitiveText Engine.go.fold text).avoids '\x0b' = true := by decide
    exact authToken_restrict space_without (fun text h => hself _ (htexts text h))
      (class_without (List.all_eq_true.mp rfl)) (by decide)
  rw [widePattern, pattern, restrict, restrict, restrict, restrict, hphone, htoken,
    hself email (by decide), hself (concat [wordBoundary, ssn, wordBoundary]) (by decide),
    hself (concat [wordBoundary, ipv4, wordBoundary]) (by decide)]
  rfl

theorem piiPattern_python : piiPattern .python = widePattern.restrict (without foldedLetters) := by
  have hself : ∀ r : Regex Char, r.avoids '\u017f' = true ∧ r.avoids '\u212a' = true →
      r.restrict (without foldedLetters) = r := fun r hr =>
    restrict_without (forall_foldedLetters hr)
  have hmem : ∀ text ∈ ["bearer", "access_", "token"],
      '\u017f' ∉ text.toList ∧ '\u212a' ∉ text.toList := by decide
  have htexts : ∀ text ∈ ["bearer", "access_", "token"],
      ∀ c ∈ foldedLetters, c ∉ text.toList := fun text htext =>
    forall_foldedLetters (hmem text htext)
  have htoken : (authToken Engine.python.space Engine.go.fold).restrict (without foldedLetters) =
      authToken Engine.python.space Engine.python.fold :=
    authToken_restrict (class_without (forall_foldedLetters (by decide)))
      (fun text h => insensitiveText_without (htexts text h))
      (insensitive_without (forall_foldedLetters (by decide))) (by decide)
  rw [widePattern, pattern, restrict, restrict, restrict, restrict, htoken,
    hself email (by decide), hself (phone Engine.python.space) (by decide),
    hself (concat [wordBoundary, ssn, wordBoundary]) (by decide),
    hself (concat [wordBoundary, ipv4, wordBoundary]) (by decide)]
  rfl

/-- A character that one engine never matches is in no match of the other when both redact
alike. -/
theorem hits_lack {a b : Engine} {s : String} {c : Char} (hredacted : c ∉ redacted)
    (hb : (piiPattern b).avoids c = true) (h : redactPII a s = redactPII b s) :
    ∀ w, .hit w ∈ pieces a s → c ∉ w := by
  have hkept : ∀ w, .hit w ∈ pieces b s → c ∉ w := by
    intro w hw
    have hscanned := pieces_scanned b s
    obtain ⟨left, right, hpieces⟩ := List.append_of_mem hw
    rw [hpieces] at hscanned
    exact not_mem_of_avoids hb (hscanned.matches left right w)
  have hcount := (count_replace_eq_iff hredacted (pieces b s)).mpr hkept
  rw [← String.ofList_injective h, (pieces_scanned b s).textOf_eq,
    ← (pieces_scanned a s).textOf_eq] at hcount
  exact (count_replace_eq_iff hredacted (pieces a s)).mp hcount

/-- The engines find the same matches when no match has a character that only one of them
knows. -/
theorem pieces_eq {s : String} (hgo : ∀ w, .hit w ∈ pieces .go s → ∀ c ∈ foldedLetters, c ∉ w)
    (hpython : ∀ w, .hit w ∈ pieces .python s → '\x0b' ∉ w) : pieces .go s = pieces .python s := by
  unfold pieces at hgo hpython ⊢
  rw [piiPattern_go] at hgo ⊢
  rw [piiPattern_python] at hpython ⊢
  refine scan_restrict_eq isWord _ _ _ 0 [] s.toList (fun w hw => ?_) fun w hw => ?_
  · exact all_without.mpr (hgo w hw)
  · exact all_without.mpr fun c hc => List.mem_singleton.mp hc ▸ hpython w hw

/-- Both redact a line alike exactly when no match of Go has a letter outside of ASCII and no
match of Python has a vertical tab. -/
theorem redactPII_engines_iff (s : String) :
    redactPII .python s = redactPII .go s ↔
      (∀ w, .hit w ∈ pieces .go s → ∀ c ∈ foldedLetters, c ∉ w) ∧
        ∀ w, .hit w ∈ pieces .python s → '\x0b' ∉ w := by
  constructor
  · intro h
    have hletters : ∀ c ∈ foldedLetters, c ∉ redacted ∧ (piiPattern .python).avoids c = true :=
      forall_foldedLetters (by decide)
    refine ⟨fun w hw c hc => ?_, ?_⟩
    · exact hits_lack (hletters c hc).1 (hletters c hc).2 h.symm w hw
    · exact hits_lack (by decide) (by decide) h
  · rintro ⟨hgo, hpython⟩
    rw [redactPII, redactPII, pieces_eq hgo hpython]

/-- The Kelvin sign ends Python's match. -/
theorem kelvin_token_differs :
    redactPII .go "token=ab\u212acd" = "[REDACTED]" ∧
      redactPII .python "token=ab\u212acd" = "[REDACTED]\u212acd" ∧
      redactPII .go "bearer\x0babc" = "bearer\x0babc" ∧
      redactPII .python "bearer\x0babc" = "[REDACTED]" := by
  decide +kernel

end KnowledgeEngine.Redaction
