import KnowledgeEngine.StreamRuns

/-!
Resuming an interrupted analytics stream. A session opens the query with a resume
token and is abandoned at some point, by a read error, a cancellation or the caller;
the next session opens with the token that stream returned. A resumed stream that is
abandoned before its first page returns no token, so the next session starts over;
every other interruption resumes exactly where the delivered pages end.
-/

namespace KnowledgeEngine.StreamResume

open AnalyticsStream List StreamRuns

variable {R : Type} {src : Source R} {fingerprint : String} {buckets : List ℤ}

/-- One use of the query: opened with a token, read by any interleaving, left in the
state `last`. -/
structure Session (src : Source R) (fingerprint : String) (buckets : List ℤ) where
  token : List Char
  window : ℕ
  window_pos : 1 ≤ window
  opened : Stream R
  open_eq : openStream fingerprint buckets window token = .ok opened
  out : List (List R × Bool)
  last : Stream R
  run : Run src fingerprint opened out last

/-- The pages Next returned in a session. -/
def Session.pages (s : Session src fingerprint buckets) : List (List R) := s.out.map Prod.fst

/-- Sessions each reopened with the token of the one before, all but the last
interrupted. -/
def Chained : List Char → List (Session src fingerprint buckets) → Prop
  | _, [] => True
  | token, s :: rest =>
    s.token = token ∧ (rest ≠ [] → ¬ Ended s.out s.last) ∧ Chained s.last.token rest

def delivered (sessions : List (Session src fingerprint buckets)) : List (List R) :=
  sessions.flatMap Session.pages

/-- The interruption keeps the position: the session started from the beginning or a
page was delivered before it was left. -/
def KeepsPosition (s : Session src fingerprint buckets) : Prop := s.token = [] ∨ s.out ≠ []

theorem queuePages_start (src : Source R) (buckets : List ℤ) :
    queuePages src (queueFrom none buckets) = wholePages src buckets := by
  rw [← queuePages_fresh]
  cases buckets with
  | nil => rfl
  | cons bucket rest => rfl

variable {total : List (List R)} {out : List (List R × Bool)} {last : Stream R}

/-- The pages a session was opened for. -/
theorem Session.serving (s : Session src fingerprint buckets) {resume : Option (ℤ × Bytes)}
    (hresume : decodeToken s.token fingerprint = .ok resume) :
    Serving src fingerprint buckets (queuePages src (queueFrom resume buckets)) s.out s.last := by
  have hopen := s.open_eq
  rw [openStream, hresume] at hopen
  have hopened : newStream buckets resume s.window = s.opened := Except.ok.inj hopen
  exact serving_run s.window_pos (hopened ▸ s.run)

theorem Session.decodes (s : Session src fingerprint buckets) :
    ∃ resume, decodeToken s.token fingerprint = .ok resume := by
  have hopen := s.open_eq
  rw [openStream] at hopen
  cases hdecode : decodeToken s.token fingerprint with
  | error e =>
    rw [hdecode] at hopen
    cases hopen
  | ok resume => exact ⟨resume, rfl⟩

/-- Whatever happens, the delivered pages are the first of those owed, and all of them
when Next reports the end. -/
theorem serving_delivers (h : Serving src fingerprint buckets total out last) :
    out.map Prod.fst <+: total ∧ (Ended out last → out.map Prod.fst = total) := by
  constructor
  · rcases eq_nil_or_concat out with rfl | ⟨front, p, rfl⟩
    · exact nil_prefix
    · obtain ⟨owed, htotal, _⟩ := h.token.2 p (by simp)
      exact ⟨owed, htotal.symm⟩
  · rintro (⟨p, hlast, hmore⟩ | ⟨hactive, herr⟩)
    · obtain ⟨owed, htotal, hend, _⟩ := h.token.2 p hlast
      rw [htotal, hend.mp hmore, append_nil]
    · rcases h.owed herr with ⟨_, htotal⟩ | ⟨r, rest, _, hcons, _⟩
      · exact htotal.symm
      · rw [hactive] at hcons
        cases hcons

/-- The token of a stream left before its end, after at least one page. -/
theorem serving_resumes (hbuckets : Resumable buckets)
    (h : Serving src fingerprint buckets total out last) (hout : out ≠ [])
    (hend : ¬ Ended out last) :
    ∃ resume, decodeToken last.token fingerprint = .ok resume ∧
      total = out.map Prod.fst ++ queuePages src (queueFrom resume buckets) := by
  obtain ⟨front, p, rfl⟩ := (eq_nil_or_concat out).resolve_left hout
  obtain ⟨owed, htotal, hmore, _, hresume⟩ := h.token.2 p (by simp)
  have howed : owed ≠ [] := by
    intro hnil
    exact hend (Or.inl ⟨p, by simp, hmore.mpr hnil⟩)
  obtain ⟨resume, hdecode, hpages⟩ := hresume howed hbuckets
  exact ⟨some resume, hdecode, by rw [hpages]; exact htotal⟩

/-- The token a session returns always opens the query again. -/
theorem session_reopens (hbuckets : Resumable buckets) {s : Session src fingerprint buckets}
    {window : ℕ} :
    ∃ opened : Stream R, openStream fingerprint buckets window s.last.token = .ok opened := by
  obtain ⟨resume, hresume⟩ := s.decodes
  have hserving := s.serving hresume
  have hdecode : ∃ next, decodeToken s.last.token fingerprint = .ok next := by
    rcases eq_nil_or_concat s.out with hout | ⟨front, p, hout⟩
    · exact ⟨none, by rw [hserving.token.1 hout]; rfl⟩
    · obtain ⟨owed, _, _, hnone, hsome⟩ := hserving.token.2 p (by simp [hout])
      by_cases howed : owed = []
      · exact ⟨none, by rw [hnone howed]; rfl⟩
      · obtain ⟨next, hnext, _⟩ := hsome howed hbuckets
        exact ⟨some next, hnext⟩
  obtain ⟨next, hnext⟩ := hdecode
  exact ⟨newStream buckets next window, by rw [openStream, hnext]; rfl⟩

theorem delivered_cons (s : Session src fingerprint buckets)
    (rest : List (Session src fingerprint buckets)) :
    delivered (s :: rest) = s.pages ++ delivered rest := rfl

/-- A session left with its position kept: the next one is opened for the rest. -/
theorem session_hands_over (hbuckets : Resumable buckets) (s : Session src fingerprint buckets)
    (hkeeps : KeepsPosition s) (hend : ¬ Ended s.out s.last) (resume : Option (ℤ × Bytes))
    (hresume : decodeToken s.token fingerprint = .ok resume) :
    ∃ next, decodeToken s.last.token fingerprint = .ok next ∧
      queuePages src (queueFrom resume buckets) =
        s.pages ++ queuePages src (queueFrom next buckets) := by
  have hserving := s.serving hresume
  by_cases hout : s.out = []
  · have htoken : s.token = [] := hkeeps.resolve_right (not_not.mpr hout)
    refine ⟨resume, ?_, by rw [Session.pages, hout]; rfl⟩
    rw [hserving.token.1 hout, ← htoken]
    exact hresume
  · exact serving_resumes hbuckets hserving hout hend

theorem chained_delivers (hbuckets : Resumable buckets)
    (sessions : List (Session src fingerprint buckets)) (token : List Char)
    (hchained : Chained token sessions) (hkeeps : ∀ s ∈ sessions.dropLast, KeepsPosition s)
    (resume : Option (ℤ × Bytes)) (hresume : decodeToken token fingerprint = .ok resume) :
    delivered sessions <+: queuePages src (queueFrom resume buckets) ∧
      ∀ s, sessions.getLast? = some s → Ended s.out s.last →
        delivered sessions = queuePages src (queueFrom resume buckets) := by
  induction sessions generalizing token resume with
  | nil => exact ⟨List.nil_prefix, by simp⟩
  | cons s rest ih =>
    obtain ⟨htoken, hinterrupted, hrest⟩ := hchained
    rw [← htoken] at hresume
    cases rest with
    | nil =>
      have hdelivered := serving_delivers (s.serving hresume)
      rw [delivered_cons,
        show delivered ([] : List (Session src fingerprint buckets)) = [] from rfl, append_nil]
      refine ⟨hdelivered.1, ?_⟩
      intro s' hs' hend
      obtain rfl : s = s' := by simpa using hs'
      exact hdelivered.2 hend
    | cons t rest =>
      obtain ⟨next, hnext, hpages⟩ := session_hands_over hbuckets s
        (hkeeps s (by simp)) (hinterrupted (cons_ne_nil _ _)) resume hresume
      obtain ⟨hstarts, hwhole⟩ := ih s.last.token hrest
        (fun s' hs' => hkeeps s' (by simp [hs'])) next hnext
      rw [delivered_cons, hpages]
      refine ⟨(prefix_append_right_inj _).mpr hstarts, ?_⟩
      intro s' hs' hend
      rw [hwhole s' (by simpa using hs') hend]

/-- A lost position makes the sessions start over: at least one page is delivered
again. -/
theorem chained_repeats (hbuckets : Resumable buckets)
    (sessions : List (Session src fingerprint buckets)) (token : List Char)
    (hchained : Chained token sessions) (hlost : ∃ s ∈ sessions.dropLast, ¬ KeepsPosition s)
    (hended : ∀ s, sessions.getLast? = some s → Ended s.out s.last) :
    (wholePages src buckets).length + (if token = [] then 1 else 0) ≤
      (delivered sessions).length := by
  induction sessions generalizing token with
  | nil => simp at hlost
  | cons s rest ih =>
    obtain ⟨htoken, hinterrupted, hrest⟩ := hchained
    cases rest with
    | nil => simp at hlost
    | cons t rest =>
      have hended' : ∀ s, (t :: rest).getLast? = some s → Ended s.out s.last := by
        intro s' hs'
        exact hended s' (by simpa using hs')
      obtain ⟨resume, hresume⟩ := s.decodes
      have hserving := s.serving hresume
      rw [delivered_cons, length_append]
      by_cases hlater : ∃ s ∈ (t :: rest).dropLast, ¬ KeepsPosition s
      · have hrepeats := ih s.last.token hrest hlater hended'
        by_cases hout : s.out = []
        · rw [hserving.token.1 hout, if_pos rfl] at hrepeats
          split <;> omega
        · have hpages : 0 < s.pages.length := by
            rw [Session.pages, length_map]
            exact length_pos_iff.mpr hout
          split <;> omega
      · have hlost' : ¬ KeepsPosition s := by
          obtain ⟨bad, hbad, hbadLost⟩ := hlost
          rw [dropLast_cons_cons] at hbad
          rcases mem_cons.mp hbad with rfl | hbad
          · exact hbadLost
          · exact absurd ⟨bad, hbad, hbadLost⟩ hlater
        obtain ⟨hopened, hout⟩ := not_or.mp hlost'
        rw [htoken] at hopened
        rw [hserving.token.1 (not_not.mp hout)] at hrest
        have hwhole := (chained_delivers hbuckets (t :: rest) [] hrest
          (fun s' hs' => by_contra fun h => hlater ⟨s', hs', h⟩) none rfl).2
        obtain ⟨last, hlast⟩ : ∃ last, (t :: rest).getLast? = some last :=
          ⟨_, List.getLast?_eq_some_getLast (cons_ne_nil t rest)⟩
        rw [hwhole last hlast (hended' last hlast), queuePages_start, if_neg hopened]
        omega

/-- Over every chain of interruptions: the token always opens the query again, the
delivered pages are those of one uninterrupted stream so far as the position is kept,
and a chain read to its end delivers exactly them, and so its rows, if and only if no resumed
stream was left before its first page. -/
theorem resumed_sessions (hbuckets : Resumable buckets)
    (sessions : List (Session src fingerprint buckets)) (hchained : Chained [] sessions)
    (whole : Session src fingerprint buckets) (hstart : whole.token = [])
    (hwhole : Ended whole.out whole.last) :
    (∀ s ∈ sessions, ∀ window, ∃ opened : Stream R,
        openStream fingerprint buckets window s.last.token = .ok opened) ∧
      ((∀ s ∈ sessions.dropLast, KeepsPosition s) → delivered sessions <+: whole.pages) ∧
      ((∃ s, sessions.getLast? = some s ∧ Ended s.out s.last) →
        (delivered sessions = whole.pages ↔ ∀ s ∈ sessions.dropLast, KeepsPosition s) ∧
        ((∀ s ∈ sessions.dropLast, KeepsPosition s) →
          (delivered sessions).flatten = whole.pages.flatten)) := by
  have hpages : whole.pages = wholePages src buckets := by
    rw [← queuePages_start]
    exact (serving_delivers (whole.serving (by rw [hstart]; rfl))).2 hwhole
  rw [hpages, ← queuePages_start]
  refine ⟨fun s _ window => session_reopens hbuckets, ?_, ?_⟩
  · intro hkeeps
    exact (chained_delivers hbuckets sessions [] hchained hkeeps none rfl).1
  · rintro ⟨last, hlast, hended⟩
    have hall : (∀ s ∈ sessions.dropLast, KeepsPosition s) →
        delivered sessions = queuePages src (queueFrom none buckets) := fun hkeeps =>
      (chained_delivers hbuckets sessions [] hchained hkeeps none rfl).2 last hlast hended
    refine ⟨⟨?_, hall⟩, fun hkeeps => congrArg List.flatten (hall hkeeps)⟩
    intro hsame
    by_contra hlost
    have hrepeats := chained_repeats hbuckets sessions [] hchained
      (by simpa only [not_forall, exists_prop] using hlost)
      (fun s hs => by
        obtain rfl : last = s := Option.some.inj (hlast.symm.trans hs)
        exact hended)
    rw [hsame, queuePages_start, if_pos rfl] at hrepeats
    omega

/-- The only active reader fetches a page, sends it and has it delivered. -/
theorem run_page (start : Stream R) (out : List (List R × Bool)) (bucket : ℤ) (state : Bytes)
    (waiting : List (ℤ × Bytes)) (window : ℕ) (token : List Char)
    (hrun : Run src fingerprint start out
      ⟨[⟨bucket, none, .fetching state⟩], waiting, window, none, token⟩) :
    Run src fingerprint start
      (out ++ [((src.fetch bucket state).1,
        decide ((src.fetch bucket state).2 ≠ [] ∨ waiting.map Prod.fst ≠ []))])
      ⟨[⟨bucket, none, if (src.fetch bucket state).2 = [] then .done
          else .fetching (src.fetch bucket state).2⟩], waiting, window, none,
        position fingerprint
          ⟨[((⟨bucket, none, .fetching state⟩ : Reader R).hold
            (fetched src bucket state)).send (fetched src bucket state)], waiting, window, none,
            token⟩ (fetched src bucket state)⟩ := by
  have hheld := hrun.quiet (.fetch _ [] [] ⟨bucket, none, .fetching state⟩ state rfl rfl)
  have hsent := hheld.quiet (.send _ [] [] _ (fetched src bucket state) rfl rfl rfl)
  have hpage := hsent.page (.deliver _ _ [] (fetched src bucket state) rfl rfl rfl rfl)
  simpa [Reader.hold, Reader.send, Reader.take, following, fetched] using hpage

/-- One bucket read in three pages; any read may fail. -/
def threePages : Source ℕ where
  fetch _ state :=
    if state = [] then ([0], [1]) else if state = [1] then ([1], [2]) else ([2], [])
  fails _ _ _ := True
  pages _ state :=
    if state = [] then [[0], [1], [2]] else if state = [1] then [[1], [2]] else [[2]]
  pages_eq bucket state := by
    by_cases h0 : state = []
    · simp [h0]
    · by_cases h1 : state = [1]
      · simp [h1]
      · simp [h0, h1]

theorem threePages_first : Run threePages "q" (newStream [0] none 1) [([0], true)]
    ⟨[⟨0, none, .fetching [1]⟩], [], 1, none, encodeToken (unixMilli 0) "q" [1]⟩ :=
  run_page (newStream [0] none 1) [] 0 [] [] 1 [] (.refl _)

theorem threePages_all : Run threePages "q" (newStream [0] none 1)
    [([0], true), ([1], true), ([2], false)] ⟨[⟨0, none, .done⟩], [], 1, none, []⟩ :=
  run_page _ [([0], true), ([1], true)] 0 [2] [] 1 (encodeToken (unixMilli 0) "q" [2])
    (run_page _ [([0], true)] 0 [1] [] 1 (encodeToken (unixMilli 0) "q" [1]) threePages_first)

/-- Left after its first page. -/
def leftAfterPage : Session threePages "q" [0] where
  token := []
  window := 1
  window_pos := Nat.le_refl 1
  opened := newStream [0] none 1
  open_eq := rfl
  out := [([0], true)]
  last := ⟨[⟨0, none, .fetching [1]⟩], [], 1, none, encodeToken (unixMilli 0) "q" [1]⟩
  run := threePages_first

/-- Resumed from there and left before its first page. -/
def leftAtOnce : Session threePages "q" [0] where
  token := encodeToken (unixMilli 0) "q" [1]
  window := 1
  window_pos := Nat.le_refl 1
  opened := newStream [0] (some (unixMilli 0, [1])) 1
  open_eq := by
    rw [openStream, decodeToken_encodeToken (by decide)]
    rfl
  out := []
  last := newStream [0] (some (unixMilli 0, [1])) 1
  run := .refl _

/-- Resumed after the first page and read to the end. -/
def readToEnd : Session threePages "q" [0] :=
  { leftAtOnce with
    out := [([1], true), ([2], false)]
    last := ⟨[⟨0, none, .done⟩], [], 1, none, []⟩
    run := run_page _ [([1], true)] 0 [2] [] 1 (encodeToken (unixMilli 0) "q" [2])
      (run_page _ [] 0 [1] [] 1 [] (.refl _)) }

def uninterrupted : Session threePages "q" [0] :=
  { leftAfterPage with
    out := [([0], true), ([1], true), ([2], false)]
    last := ⟨[⟨0, none, .done⟩], [], 1, none, []⟩
    run := threePages_all }

theorem resumed_after_page : delivered [leftAfterPage, readToEnd] = uninterrupted.pages := by
  have hended : Ended readToEnd.out readToEnd.last := Or.inl ⟨([2], false), rfl, rfl⟩
  have hinterrupted : ¬ Ended leftAfterPage.out leftAfterPage.last := by
    simp [Ended, leftAfterPage]
  have hchained : Chained [] [leftAfterPage, readToEnd] :=
    ⟨rfl, fun _ => hinterrupted, rfl, by simp, trivial⟩
  refine ((resumed_sessions ⟨by simp, by decide⟩ _ hchained uninterrupted rfl
    (Or.inl ⟨([2], false), rfl, rfl⟩)).2.2 ⟨readToEnd, rfl, hended⟩).1.mpr ?_
  intro s hs
  left
  obtain rfl : s = leftAfterPage := by simpa using hs
  rfl

/-- A resumed stream left before its first page makes the next one start over. -/
theorem leftAtOnce_repeats : Chained [] [leftAfterPage, leftAtOnce, uninterrupted] ∧
    Ended uninterrupted.out uninterrupted.last ∧
    (delivered [leftAfterPage, leftAtOnce, uninterrupted]).flatten = [0, 0, 1, 2] ∧
    uninterrupted.pages.flatten = [0, 1, 2] := by
  refine ⟨⟨rfl, ?_, rfl, ?_, rfl, by simp, trivial⟩, Or.inl ⟨([2], false), rfl, rfl⟩, rfl, rfl⟩
  · simp [Ended, leftAfterPage]
  · simp [Ended, leftAtOnce, newStream, queueFrom, fill]

end KnowledgeEngine.StreamResume
