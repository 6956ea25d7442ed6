import KnowledgeEngine.AnalyticsStream

/-!
What any interleaving of an analytics stream delivers. Each reader owes the pages of
its bucket from its position on, in order; a step moves a page along or delivers it,
so the delivered pages followed by the owed ones are always the pages the stream was
opened for. The token after a delivery reopens the stream at what is still owed.
-/

namespace KnowledgeEngine.StreamRuns

open AnalyticsStream CoreTypes JsonDecode JsonText List MachineNumbers

variable {R : Type}

/-- The pages after one whose next state is given. -/
def pagesAfter (src : Source R) (bucket : ℤ) (next : Bytes) : List (List R) :=
  if next = [] then [] else src.pages bucket next

/-- The pages a reader has not put into its channel. After an error anything may be
missing. -/
inductive Owes (src : Source R) (bucket : ℤ) : ReaderState R → List (List R) → Prop
  | fetching (state : Bytes) : Owes src bucket (.fetching state) (src.pages bucket state)
  | holding (p : FetchedPage R) (hok : p.err = none) (hbucket : p.bucket = bucket) :
      Owes src bucket (.holding p) (p.rows :: pagesAfter src bucket p.next)
  | failed (p : FetchedPage R) (owed : List (List R)) (herr : p.err ≠ none) (hne : owed ≠ []) :
      Owes src bucket (.holding p) owed
  | done : Owes src bucket .done []

/-- The pages of a bucket not delivered yet: the buffered one and the owed ones. -/
inductive Outstanding (src : Source R) : Reader R → List (List R) → Prop
  | empty (r : Reader R) (owed : List (List R)) (hbuffer : r.buffer = none)
      (howes : Owes src r.bucket r.state owed) : Outstanding src r owed
  | page (r : Reader R) (p : FetchedPage R) (hbuffer : r.buffer = some p) (hok : p.err = none)
      (hbucket : p.bucket = r.bucket)
      (howes : Owes src r.bucket r.state (pagesAfter src r.bucket p.next)) :
      Outstanding src r (p.rows :: pagesAfter src r.bucket p.next)
  | failed (r : Reader R) (p : FetchedPage R) (owed : List (List R))
      (hbuffer : r.buffer = some p) (herr : p.err ≠ none) (hne : owed ≠ []) :
      Outstanding src r owed

/-- All pages of a queue of buckets, each from its state on. -/
def queuePages (src : Source R) (queue : List (ℤ × Bytes)) : List (List R) :=
  queue.flatMap fun q => src.pages q.1 q.2

def wholePages (src : Source R) (buckets : List ℤ) : List (List R) :=
  buckets.flatMap fun b => src.pages b []

/-- A reader that has delivered nothing: the whole bucket is outstanding. -/
def Full (src : Source R) (r : Reader R) : Prop := Outstanding src r (src.pages r.bucket [])

/-- The reader of a bucket when it is started. -/
def Reader.start (q : ℤ × Bytes) : Reader R := ⟨q.1, none, .fetching q.2⟩

variable {src : Source R} {fingerprint : String} {buckets : List ℤ} {bucket : ℤ}

theorem pages_ne_nil {state : Bytes} : src.pages bucket state ≠ [] := by
  rw [src.pages_eq]
  exact cons_ne_nil _ _

theorem pages_fetched (src : Source R) (bucket : ℤ) (state : Bytes) :
    src.pages bucket state =
      (fetched src bucket state).rows :: pagesAfter src bucket (fetched src bucket state).next :=
  src.pages_eq bucket state

/-- The first buckets that wait are started, and some of them if no reader is left. -/
theorem fill_eq (window : ℕ) (active : List (Reader R)) (waiting : List (ℤ × Bytes)) :
    ∃ started left, waiting = started ++ left ∧
      fill window active waiting = (active ++ started.map Reader.start, left) ∧
      (1 ≤ window → active ++ started.map Reader.start = [] → left = []) := by
  induction waiting generalizing active with
  | nil => exact ⟨[], [], rfl, by rw [map_nil, append_nil]; rfl, fun _ _ => rfl⟩
  | cons q waiting ih =>
    obtain ⟨bucket, state⟩ := q
    rw [fill]
    split
    · obtain ⟨started, left, hwaiting, hfill, -⟩ := ih (active ++ [Reader.start (bucket, state)])
      refine ⟨(bucket, state) :: started, left, by rw [hwaiting]; rfl, ?_, by simp⟩
      rw [map_cons, append_cons active (Reader.start (bucket, state))]
      exact hfill
    · next hroom =>
      refine ⟨[], (bucket, state) :: waiting, rfl, by simp, fun hwindow hnil => ?_⟩
      rw [map_nil, append_nil] at hnil
      rw [hnil] at hroom
      exact absurd hwindow hroom

theorem full_start {q : ℤ × Bytes} (hq : q.2 = []) : Full src (Reader.start q) := by
  rw [Reader.start, hq]
  exact .empty _ _ rfl (.fetching [])

section Readers

variable {r : Reader R} {p : FetchedPage R} {o : List (List R)}

/-- A reader that owes the same in a new state. -/
theorem outstanding_moves {state : ReaderState R}
    (howes : ∀ owed, Owes src r.bucket r.state owed → Owes src r.bucket state owed)
    (h : Outstanding src r o) : Outstanding src ⟨r.bucket, r.buffer, state⟩ o := by
  cases h with
  | empty _ hbuffer h => exact .empty _ _ hbuffer (howes _ h)
  | page p hbuffer hok hbucket h => exact .page _ p hbuffer hok hbucket (howes _ h)
  | failed p _ hbuffer herr hne => exact .failed _ p _ hbuffer herr hne

theorem outstanding_hold {state : Bytes} (hstate : r.state = .fetching state)
    (h : Outstanding src r o) : Outstanding src (r.hold (fetched src r.bucket state)) o := by
  refine outstanding_moves (fun owed howes => ?_) h
  rw [hstate] at howes
  cases howes
  rw [pages_fetched]
  exact .holding _ rfl rfl

theorem outstanding_fail {state : Bytes} (hstate : r.state = .fetching state)
    (herr : p.err ≠ none) (h : Outstanding src r o) : Outstanding src (r.hold p) o := by
  refine outstanding_moves (fun owed howes => ?_) h
  rw [hstate] at howes
  cases howes
  exact .failed _ _ herr pages_ne_nil

theorem outstanding_send (hstate : r.state = .holding p) (hroom : r.buffer = none)
    (h : Outstanding src r o) : Outstanding src (r.send p) o := by
  cases h with
  | empty _ hbuffer h =>
    rw [hstate] at h
    cases h with
    | holding _ hok hbucket =>
      apply Outstanding.page (r.send p) p rfl hok hbucket
      by_cases hnext : p.next = []
      · simp only [Reader.send, hok, hnext, pagesAfter, if_true, or_true]
        exact .done
      · simp only [Reader.send, hok, hnext, pagesAfter, if_false, ne_eq, not_true_eq_false,
          or_self]
        exact .fetching p.next
    | failed _ _ herr hne => exact .failed (r.send p) p o rfl herr hne
  | page q hbuffer => simp [hroom] at hbuffer
  | failed q _ hbuffer => simp [hroom] at hbuffer

theorem outstanding_done (hbuffer : r.buffer = none) (hdone : r.state = .done)
    (h : Outstanding src r o) : o = [] := by
  cases h with
  | empty _ _ h =>
    rw [hdone] at h
    cases h
    rfl
  | page q hq => simp [hbuffer] at hq
  | failed q _ hq => simp [hbuffer] at hq

theorem outstanding_take (hbuffer : r.buffer = some p) (hok : p.err = none)
    (h : Outstanding src r o) :
    p.bucket = r.bucket ∧ o = p.rows :: pagesAfter src r.bucket p.next ∧
      Outstanding src r.take (pagesAfter src r.bucket p.next) := by
  cases h with
  | empty _ hq => simp [hbuffer] at hq
  | page q hq _ hbucket h =>
    rw [hbuffer, Option.some.injEq] at hq
    subst hq
    exact ⟨hbucket, rfl, .empty _ _ rfl h⟩
  | failed q _ hq herr =>
    rw [hbuffer, Option.some.injEq] at hq
    subst hq
    exact absurd hok herr

end Readers

theorem decodeToken_encodeToken {page : Bytes} (hfits : Fits64 bucket) :
    decodeToken (encodeToken bucket fingerprint page) fingerprint =
      .ok (some (bucket, page)) := by
  have hbucket : decodeBucket (.num (decimal bucket)) = some (some bucket) := by
    simp only [decodeBucket, parseDecimal_decimal hfits, Option.map_some]
  have htoken : unmarshalToken (encodeToken bucket fingerprint page) =
      some ⟨some bucket, fingerprint, page⟩ := by
    unfold encodeToken
    by_cases hempty : page = []
    · rw [if_pos hempty, unmarshalToken, unmarshal_print]
      · simp [decodeStruct, List.foldlM, decodeMember, decodeString, StringText.equalFold,
          StringText.foldChar, hbucket, hempty]
      · exact ⟨numberLiteral_decimal, trivial, trivial⟩
      · simp [Json.nesting, nestingMembers, maxNestingDepth]
    · rw [if_neg hempty, unmarshalToken, unmarshal_print]
      · simp [decodeStruct, List.foldlM, decodeMember, decodeString, StringText.equalFold,
          StringText.foldChar, hbucket, decodeBytes_encode]
      · exact ⟨numberLiteral_decimal, trivial, trivial, trivial⟩
      · simp [Json.nesting, nestingMembers, maxNestingDepth]
  have hne : encodeToken bucket fingerprint page ≠ [] := by
    simp [encodeToken, print]
  rw [decodeToken, if_neg hne, htoken]
  simp

/-- Reopening at a bucket of the query skips what comes before it. -/
theorem queueFrom_split {passed later : List ℤ} {page : Bytes}
    (hsorted : (passed ++ bucket :: later).Pairwise fun a b => unixMilli a < unixMilli b) :
    queueFrom (some (unixMilli bucket, page)) (passed ++ bucket :: later) =
      (bucket, page) :: later.map fun b => (b, []) := by
  induction passed with
  | nil => simp [queueFrom]
  | cons b passed ih =>
    obtain ⟨hfirst, hrest⟩ := pairwise_cons.mp hsorted
    have hlt : unixMilli b < unixMilli bucket := hfirst bucket (by simp)
    rw [cons_append, queueFrom]
    simp only [hlt, if_true]
    exact ih hrest

theorem queuePages_fresh (src : Source R) (buckets : List ℤ) :
    queuePages src (buckets.map fun b => (b, [])) = wholePages src buckets := by
  simp [queuePages, wholePages, flatMap_map]

theorem queueFrom_shape {resume : Option (ℤ × Bytes)} :
    (queueFrom resume buckets).map Prod.fst <:+ buckets ∧
      ∀ q ∈ (queueFrom resume buckets).tail, q.2 = [] := by
  induction buckets with
  | nil => simp [queueFrom]
  | cons bucket rest ih =>
    have htail : ∀ page : Bytes,
        (((bucket, page) :: rest.map fun b => (b, ([] : Bytes))).map Prod.fst <:+ bucket :: rest) ∧
          ∀ q ∈ ((bucket, page) :: rest.map fun b => (b, ([] : Bytes))).tail, q.2 = [] := by
      intro page
      refine ⟨?_, ?_⟩
      · simp [Function.comp_def]
      · intro q hq
        obtain ⟨b, _, rfl⟩ := mem_map.mp hq
        rfl
    cases resume with
    | none => exact htail []
    | some position =>
      obtain ⟨start, page⟩ := position
      by_cases hlt : unixMilli bucket < start
      · simp only [queueFrom, hlt, if_true]
        exact ⟨ih.1.trans (suffix_cons _ _), ih.2⟩
      · simp only [queueFrom, hlt, if_false]
        exact htail _

/-- Bucket starts a token can name: strictly increasing, with Unix milliseconds of 64
bits. -/
structure Resumable (buckets : List ℤ) : Prop where
  sorted : buckets.Pairwise fun a b => unixMilli a < unixMilli b
  fits : ∀ b ∈ buckets, Fits64 (unixMilli b)

/-- What the token and the more flag say after some deliveries: nothing before the
first one, else the position of what is still owed. -/
def TokenFor (src : Source R) (fingerprint : String) (buckets : List ℤ) (total : List (List R))
    (out : List (List R × Bool)) (token : List Char) : Prop :=
  (out = [] → token = []) ∧
    ∀ p, out.getLast? = some p → ∃ owed, total = out.map Prod.fst ++ owed ∧
      (p.2 = false ↔ owed = []) ∧ (owed = [] → token = []) ∧
      (owed ≠ [] → Resumable buckets →
        ∃ resume, decodeToken token fingerprint = .ok (some resume) ∧
          queuePages src (queueFrom (some resume) buckets) = owed)

/-- The state of a stream opened for the pages `total`, after delivering `out`. -/
structure Serving (src : Source R) (fingerprint : String) (buckets : List ℤ)
    (total : List (List R)) (out : List (List R × Bool)) (s : Stream R) : Prop where
  window : 1 ≤ s.window
  fresh : ∀ q ∈ s.waiting, q.2 = []
  full : s.active = [] → s.waiting = []
  ahead : s.active.map Reader.bucket ++ s.waiting.map Prod.fst <:+ buckets
  token : TokenFor src fingerprint buckets total out s.token
  owed : s.err = none → (s.active = [] ∧ total = out.map Prod.fst) ∨
    ∃ r rest o, s.active = r :: rest ∧ Outstanding src r o ∧ (∀ r' ∈ rest, Full src r') ∧
      total = out.map Prod.fst ++ (o ++ wholePages src (following s))

section Steps

variable {total : List (List R)} {out : List (List R × Bool)} {s s' : Stream R} {r r' : Reader R}
  {rest before after : List (Reader R)}

theorem following_eq (hactive : s.active = r :: rest) :
    following s = rest.map Reader.bucket ++ s.waiting.map Prod.fst := by
  rw [following, hactive, tail_cons]

/-- What is owed while the reader of a bucket is active. -/
theorem Serving.reading (h : Serving src fingerprint buckets total out s) (herr : s.err = none)
    (hactive : s.active = r :: rest) : ∃ o, Outstanding src r o ∧ (∀ r' ∈ rest, Full src r') ∧
      total = out.map Prod.fst ++ (o ++ wholePages src (following s)) := by
  rcases h.owed herr with ⟨hnil, _⟩ | ⟨first, rest', o, hfirst, hout, hfull, htotal⟩
  · simp [hactive] at hnil
  · obtain ⟨rfl, rfl⟩ := List.cons.inj (hactive.symm.trans hfirst)
    exact ⟨o, hout, hfull, htotal⟩

/-- A step of one reader that keeps what is outstanding keeps the invariant. -/
theorem serving_replace (hactive : s.active = before ++ r :: after)
    (hbucket : r'.bucket = r.bucket) (hkeep : ∀ o, Outstanding src r o → Outstanding src r' o)
    (h : Serving src fingerprint buckets total out s) :
    Serving src fingerprint buckets total out { s with active := before ++ r' :: after } := by
  have hbuckets : (before ++ r' :: after).map Reader.bucket = s.active.map Reader.bucket := by
    rw [hactive]
    simp [hbucket]
  refine ⟨h.window, h.fresh, by simp, ?_, h.token, ?_⟩
  · simpa only [hbuckets] using h.ahead
  · intro herr
    right
    cases before with
    | nil =>
      obtain ⟨o, hout, hfull, htotal⟩ := h.reading herr hactive
      refine ⟨r', after, o, rfl, hkeep o hout, hfull, ?_⟩
      rw [htotal, following_eq hactive, following_eq rfl]
    | cons b before =>
      obtain ⟨o, hout, hfull, htotal⟩ := h.reading herr hactive
      refine ⟨b, before ++ r' :: after, o, rfl, hout, ?_, ?_⟩
      · intro q hq
        rcases mem_append.mp hq with hq | hq
        · exact hfull q (mem_append_left _ hq)
        · rcases mem_cons.mp hq with rfl | hq
          · rw [Full, hbucket]
            exact hkeep _ (hfull r (by simp))
          · exact hfull q (by simp [hq])
      · rw [htotal, following_eq hactive, following_eq rfl]
        simp [hbucket]

/-- Next moves on from a bucket that is read to its end. -/
theorem serving_advance (hactive : s.active = r :: rest) (hbuffer : r.buffer = none)
    (hdone : r.state = .done) (h : Serving src fingerprint buckets total out s) :
    Serving src fingerprint buckets total out
      { s with active := (fill s.window rest s.waiting).1,
               waiting := (fill s.window rest s.waiting).2 } := by
  obtain ⟨started, left, hwaiting, hfill, hempty⟩ := fill_eq s.window rest s.waiting
  have hfresh := h.fresh
  have hahead := h.ahead
  rw [hwaiting] at hfresh
  have hbuckets : (rest ++ started.map Reader.start).map Reader.bucket ++ left.map Prod.fst =
      rest.map Reader.bucket ++ s.waiting.map Prod.fst := by
    simp [hwaiting, Function.comp_def, Reader.start]
  rw [hactive, map_cons, cons_append, ← hbuckets] at hahead
  rw [hfill]
  refine ⟨h.window, fun q hq => hfresh q (mem_append_right _ hq), hempty h.window,
    (suffix_cons _ _).trans hahead, h.token, fun herr => ?_⟩
  obtain ⟨o, hout, hfull, htotal⟩ := h.reading herr hactive
  have hfulls : ∀ q ∈ rest ++ started.map Reader.start, Full src q := by
    intro q hq
    rcases mem_append.mp hq with hq | hq
    · exact hfull q hq
    · obtain ⟨b, hb, rfl⟩ := mem_map.mp hq
      exact full_start (hfresh b (mem_append_left _ hb))
  rw [outstanding_done hbuffer hdone hout, nil_append, following_eq hactive, ← hbuckets]
    at htotal
  cases hnew : rest ++ started.map Reader.start with
  | nil =>
    rw [hnew, hempty h.window hnew] at htotal
    exact Or.inl ⟨rfl, by simpa [wholePages] using htotal⟩
  | cons next others =>
    rw [hnew] at htotal hfulls
    refine Or.inr ⟨next, others, src.pages next.bucket [], rfl, hfulls next mem_cons_self,
      fun q hq => hfulls q (mem_cons_of_mem _ hq), ?_⟩
    rw [htotal, following_eq rfl]
    simp [wholePages]

/-- Nothing is owed after the last page of the last bucket, and only then. -/
theorem owed_eq_nil_iff (src : Source R) (bucket : ℤ) (next : Bytes) (buckets : List ℤ) :
    pagesAfter src bucket next ++ wholePages src buckets = [] ↔ next = [] ∧ buckets = [] := by
  rw [append_eq_nil_iff]
  refine and_congr ?_ ?_
  · rw [pagesAfter]
    split
    · next hnext => simp [hnext]
    · next hnext => simp [hnext, pages_ne_nil]
  · cases buckets with
    | nil => simp [wholePages]
    | cons b more => simp [wholePages, pages_ne_nil]

/-- A token for a bucket of the query and a page of it reopens the stream there. -/
theorem resumes_at {passed later : List ℤ} {bucket : ℤ} {page : Bytes}
    (hsplit : passed ++ bucket :: later = buckets) (h : Resumable buckets) :
    ∃ resume, decodeToken (encodeToken (unixMilli bucket) fingerprint page) fingerprint =
        .ok (some resume) ∧
      queuePages src (queueFrom (some resume) buckets) =
        src.pages bucket page ++ wholePages src later := by
  refine ⟨(unixMilli bucket, page), decodeToken_encodeToken (h.fits bucket ?_), ?_⟩
  · rw [← hsplit]
    simp
  · rw [← hsplit, queueFrom_split (hsplit ▸ h.sorted)]
    simp [queuePages, wholePages, flatMap_map]

/-- Delivering a page: the token names what is owed after it. -/
theorem serving_deliver {p : FetchedPage R} (herr : s.err = none) (hactive : s.active = r :: rest)
    (hbuffer : r.buffer = some p) (hok : p.err = none)
    (h : Serving src fingerprint buckets total out s) :
    Serving src fingerprint buckets total
      (out ++ [(p.rows, decide (p.next ≠ [] ∨ following s ≠ []))])
      { s with active := r.take :: rest, token := position fingerprint s p } := by
  obtain ⟨o, hout, hfull, htotal⟩ := h.reading herr hactive
  obtain ⟨hbucket, rfl, htaken⟩ := outstanding_take hbuffer hok hout
  have hfollow := following_eq hactive
  have hahead := h.ahead
  rw [hactive] at hahead
  obtain ⟨passed, hpassed⟩ := hahead
  rw [map_cons, cons_append, ← hfollow] at hpassed
  have howed := owed_eq_nil_iff src r.bucket p.next (following s)
  set owed := pagesAfter src r.bucket p.next ++ wholePages src (following s) with howedEq
  have hsplit : total = (out ++ [(p.rows, decide (p.next ≠ [] ∨ following s ≠ []))]).map Prod.fst ++
      owed := by
    rw [htotal, howedEq]
    simp
  refine ⟨h.window, h.fresh, by simp, ⟨passed, by rw [← hpassed, hfollow]; rfl⟩, ⟨by simp, ?_⟩,
    fun _ => Or.inr ⟨r.take, rest, _, rfl, htaken, hfull, ?_⟩⟩
  · intro q hq
    rw [List.getLast?_append, List.getLast?_singleton, Option.some_or, Option.some.injEq] at hq
    refine ⟨owed, hsplit, ?_, fun hnil => ?_, fun hne hresumable => ?_⟩
    · rw [← hq, decide_eq_false_iff_not, not_or, not_not, not_not]
      exact howed.symm
    · obtain ⟨hnext, hnone⟩ := howed.mp hnil
      simp only [position, hnext, if_true, hnone]
    · rw [howedEq, pagesAfter]
      by_cases hnext : p.next = []
      · cases hf : following s with
        | nil => exact absurd (howed.mpr ⟨hnext, hf⟩) hne
        | cons b more =>
          rw [hf, append_cons] at hpassed
          simp only [position, hnext, if_true, hf, nil_append]
          exact resumes_at hpassed hresumable
      · simp only [position, hnext, if_false, hbucket]
        exact resumes_at hpassed hresumable
  · rw [hsplit, howedEq, hfollow, following_eq rfl]

/-- A read error reaches Next: what was delivered and the token stay. -/
theorem serving_stop (e : AppError) (hactive : s.active = r :: rest)
    (h : Serving src fingerprint buckets total out s) :
    Serving src fingerprint buckets total out
      { s with active := r.take :: rest, err := some e } := by
  refine ⟨h.window, h.fresh, by simp, ?_, h.token, by simp⟩
  have hahead := h.ahead
  rw [hactive] at hahead
  exact hahead

theorem serving_step {delivered : Option (List R × Bool)}
    (hstep : Step src fingerprint s delivered s')
    (h : Serving src fingerprint buckets total out s) :
    Serving src fingerprint buckets total (out ++ delivered.toList) s' := by
  cases hstep with
  | fetch before after r state hactive hstate =>
    rw [Option.toList_none, append_nil]
    exact serving_replace hactive rfl (fun o => outstanding_hold hstate) h
  | fail before after r state e rows next hactive hstate _ =>
    rw [Option.toList_none, append_nil]
    exact serving_replace hactive rfl (fun o => outstanding_fail hstate (Option.some_ne_none e)) h
  | send before after r p hactive hstate hroom =>
    rw [Option.toList_none, append_nil]
    exact serving_replace hactive rfl (fun o => outstanding_send hstate hroom) h
  | advance r rest herr hactive hempty hdone =>
    rw [Option.toList_none, append_nil]
    exact serving_advance hactive hempty hdone h
  | deliver r rest p herr hactive hbuffer hok =>
    exact serving_deliver herr hactive hbuffer hok h
  | stop r rest p e herr hactive hbuffer hfail =>
    rw [Option.toList_none, append_nil]
    exact serving_stop e hactive h

/-- A new stream is opened for the pages of its queue. -/
theorem serving_newStream {resume : Option (ℤ × Bytes)} {window : ℕ} (hwindow : 1 ≤ window) :
    Serving src fingerprint buckets (queuePages src (queueFrom resume buckets)) []
      (newStream buckets resume window) := by
  obtain ⟨hahead, hfresh⟩ := queueFrom_shape
  obtain ⟨started, left, hqueue, hfill, hempty⟩ :=
    fill_eq (R := R) window [] (queueFrom resume buckets)
  rw [nil_append] at hfill hempty
  unfold newStream
  rw [hfill, hqueue]
  rw [hqueue] at hahead hfresh
  cases started with
  | nil =>
    obtain rfl := hempty hwindow rfl
    exact ⟨hwindow, by simp, by simp, by simp, ⟨fun _ => rfl, by simp⟩, fun _ => Or.inl ⟨rfl, rfl⟩⟩
  | cons q others =>
    rw [cons_append, tail_cons] at hfresh
    refine ⟨hwindow, fun q hq => hfresh q (mem_append_right _ hq), by simp, ?_,
      ⟨fun _ => rfl, by simp⟩, fun _ => Or.inr ⟨Reader.start q, others.map Reader.start,
        src.pages q.1 q.2, rfl, .empty _ _ rfl (.fetching q.2), ?_, ?_⟩⟩
    · simpa [Function.comp_def, Reader.start] using hahead
    · intro r hr
      obtain ⟨b, hb, rfl⟩ := mem_map.mp hr
      exact full_start (hfresh b (mem_append_left _ hb))
    · have hqueuePages : queuePages src (others ++ left) =
          wholePages src ((others ++ left).map Prod.fst) := by
        rw [queuePages, wholePages, flatMap_map, flatMap_def, flatMap_def]
        apply congrArg List.flatten
        exact map_congr_left fun q hq => by rw [hfresh q hq]
      have hfollow : (others.map (Reader.start (R := R))).map Reader.bucket ++ left.map Prod.fst =
          (others ++ left).map Prod.fst := by
        simp [Function.comp_def, Reader.start]
      rw [following_eq rfl, hfollow, ← hqueuePages]
      rfl

/-- In every state of every interleaving, the pages delivered and those owed make up
what the stream was opened for. -/
theorem serving_run {resume : Option (ℤ × Bytes)} {window : ℕ} (hwindow : 1 ≤ window)
    (hrun : Run src fingerprint (newStream buckets resume window) out s) :
    Serving src fingerprint buckets (queuePages src (queueFrom resume buckets)) out s := by
  induction hrun with
  | refl => exact serving_newStream hwindow
  | quiet _ hstep ih => simpa using serving_step hstep ih
  | page _ hstep ih => exact serving_step hstep ih

end Steps

end KnowledgeEngine.StreamRuns
