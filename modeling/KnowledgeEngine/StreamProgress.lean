import KnowledgeEngine.StreamRuns

/-!
Reading a stream comes to an end. Over a source that never fails, every step leaves
less to do, and until Next has reported the end some step is possible; so every
interleaving is finite and every state can be read on to the end.
-/

namespace KnowledgeEngine.StreamProgress

open AnalyticsStream CoreTypes List StreamRuns

variable {R : Type}

/-- Steps a reader has left: fetch, send and deliver each page. -/
def stateWork (src : Source R) (bucket : ℤ) : ReaderState R → ℕ
  | .fetching state => 3 * (src.pages bucket state).length
  | .holding p => 2 + 3 * (pagesAfter src bucket p.next).length
  | .done => 0

def readerWork (src : Source R) (r : Reader R) : ℕ :=
  1 + stateWork src r.bucket r.state + r.buffer.toList.length

def waitingWork (src : Source R) (q : ℤ × Bytes) : ℕ :=
  1 + 3 * (src.pages q.1 q.2).length

def work (src : Source R) (s : Stream R) : ℕ :=
  (s.active.map (readerWork src)).sum + (s.waiting.map (waitingWork src)).sum

variable {src : Source R} {fingerprint : String} {start s s' : Stream R} {r r' : Reader R}
  {after : List (Reader R)} {out : List (List R × Bool)}

theorem fill_work (src : Source R) (window : ℕ) (active : List (Reader R))
    (waiting : List (ℤ × Bytes)) :
    ((fill window active waiting).1.map (readerWork src)).sum +
        ((fill window active waiting).2.map (waitingWork src)).sum =
      (active.map (readerWork src)).sum + (waiting.map (waitingWork src)).sum := by
  obtain ⟨started, left, rfl, hfill, -⟩ := fill_eq window active waiting
  have hstarted : (started.map Reader.start).map (readerWork src) =
      started.map (waitingWork src) := map_map
  simp only [hfill, map_append, sum_append, hstarted]
  omega

/-- Replacing one reader by one with less to do. -/
theorem replace_work (before : List (Reader R)) {err : Option AppError} {token : List Char}
    (hactive : s.active = before ++ r :: after) (hless : readerWork src r' < readerWork src r) :
    work src ⟨before ++ r' :: after, s.waiting, s.window, err, token⟩ < work src s := by
  simp only [work, hactive, map_append, map_cons, sum_append, sum_cons]
  omega

theorem take_work {p : FetchedPage R} (hbuffer : r.buffer = some p) :
    readerWork src r.take < readerWork src r := by
  simp only [readerWork, Reader.take, hbuffer, Option.toList_none, Option.toList_some,
    length_nil, length_singleton]
  omega

def CleanPage (p : FetchedPage R) : Prop := p.err = none

/-- No error is on its way to the consumer. -/
structure CleanReader (r : Reader R) : Prop where
  buffer : ∀ p, r.buffer = some p → CleanPage p
  held : ∀ p, r.state = .holding p → CleanPage p

structure Clean (s : Stream R) : Prop where
  err : s.err = none
  readers : ∀ r ∈ s.active, CleanReader r

theorem clean_replace (before : List (Reader R)) {token : List Char}
    (hactive : s.active = before ++ r :: after) (hclean : CleanReader r → CleanReader r')
    (h : Clean s) :
    Clean ⟨before ++ r' :: after, s.waiting, s.window, s.err, token⟩ := by
  refine ⟨h.err, ?_⟩
  intro q hq
  rcases mem_append.mp hq with hq | hq
  · exact h.readers q (by rw [hactive]; exact mem_append_left _ hq)
  · rcases mem_cons.mp hq with rfl | hq
    · exact hclean (h.readers r (by rw [hactive]; simp))
    · exact h.readers q (by rw [hactive]; simp [hq])

theorem fill_clean {window : ℕ} {waiting : List (ℤ × Bytes)} {active : List (Reader R)}
    (h : ∀ r ∈ active, CleanReader r) : ∀ r ∈ (fill window active waiting).1, CleanReader r := by
  obtain ⟨started, left, -, hfill, -⟩ := fill_eq window active waiting
  intro r hr
  rw [hfill] at hr
  rcases mem_append.mp hr with hr | hr
  · exact h r hr
  · obtain ⟨q, -, rfl⟩ := mem_map.mp hr
    exact ⟨fun p hp => (nomatch hp), fun p hp => (nomatch hp)⟩

theorem clean_newStream {buckets : List ℤ} {resume : Option (ℤ × Bytes)} {window : ℕ} :
    Clean (newStream buckets resume window : Stream R) :=
  ⟨rfl, fill_clean (by simp)⟩

/-- Until all readers are done some step is possible. -/
theorem step_possible (h : Clean s) (hactive : s.active ≠ []) :
    ∃ delivered s', Step src fingerprint s delivered s' := by
  obtain ⟨r, rest, hcons⟩ := exists_cons_of_ne_nil hactive
  have hclean := h.readers r (by rw [hcons]; exact mem_cons_self)
  cases hbuffer : r.buffer with
  | some p => exact ⟨_, _, .deliver s r rest p h.err hcons hbuffer (hclean.buffer p hbuffer)⟩
  | none =>
    cases hstate : r.state with
    | fetching state => exact ⟨_, _, .fetch s [] rest r state hcons hstate⟩
    | holding p => exact ⟨_, _, .send s [] rest r p hcons hstate hbuffer⟩
    | done => exact ⟨_, _, .advance s r rest h.err hcons hbuffer hstate⟩

variable {delivered : Option (List R × Bool)}
  (hfaithful : ∀ bucket state e, ¬ src.fails bucket state e)
include hfaithful

theorem step_work (hstep : Step src fingerprint s delivered s') : work src s' < work src s := by
  cases hstep with
  | fetch before after r state hactive hstate =>
    apply replace_work before hactive
    have hpages := congrArg List.length (pages_fetched src r.bucket state)
    simp only [readerWork, Reader.hold, hstate, stateWork, hpages, length_cons]
    omega
  | fail before after r state e rows next hactive hstate hfails =>
    exact absurd hfails (hfaithful _ _ _)
  | send before after r p hactive hstate hroom =>
    apply replace_work before hactive
    by_cases hlast : p.err ≠ none ∨ p.next = []
    · simp only [readerWork, Reader.send, hstate, hroom, if_pos hlast, stateWork,
        Option.toList_none, Option.toList_some, length_nil, length_singleton]
      omega
    · have hnext : ¬ p.next = [] := fun h => hlast (Or.inr h)
      simp only [readerWork, Reader.send, hstate, hroom, if_neg hlast, stateWork, pagesAfter,
        if_neg hnext, Option.toList_none, Option.toList_some, length_nil,
        length_singleton]
      omega
  | advance r rest herr hactive hempty hdone =>
    have hfill := fill_work src s.window rest s.waiting
    simp only [work, hactive, map_cons, sum_cons, hfill, readerWork]
    omega
  | deliver r rest p herr hactive hbuffer hok =>
    exact replace_work [] hactive (take_work hbuffer)
  | stop r rest p e herr hactive hbuffer hfail =>
    exact replace_work [] hactive (take_work hbuffer)

/-- No interleaving goes on forever. -/
theorem no_infinite_run (fingerprint : String) (states : ℕ → Stream R) :
    ¬ ∀ n, ∃ delivered, Step src fingerprint (states n) delivered (states (n + 1)) := by
  intro hsteps
  have hbound : ∀ n, work src (states n) + n ≤ work src (states 0) := by
    intro n
    induction n with
    | zero => exact Nat.le_refl _
    | succ n ih =>
      obtain ⟨delivered, hstep⟩ := hsteps n
      have hless := step_work hfaithful hstep
      omega
  have hlong := hbound (work src (states 0) + 1)
  omega

theorem clean_step (hstep : Step src fingerprint s delivered s') (h : Clean s) : Clean s' := by
  cases hstep with
  | fetch before after r state hactive hstate =>
    refine clean_replace before hactive (fun hr => ⟨hr.buffer, ?_⟩) h
    intro p hp
    cases hp
    rfl
  | fail before after r state e rows next hactive hstate hfails =>
    exact absurd hfails (hfaithful _ _ _)
  | send before after r p hactive hstate hroom =>
    refine clean_replace before hactive (fun hr => ⟨?_, ?_⟩) h
    · intro q hq
      cases hq
      exact hr.held p hstate
    · intro q hq
      simp only [Reader.send] at hq
      split at hq <;> cases hq
  | advance r rest herr hactive hempty hdone =>
    refine ⟨h.err, fill_clean ?_⟩
    exact fun q hq => h.readers q (by rw [hactive]; exact mem_cons_of_mem _ hq)
  | deliver r rest p herr hactive hbuffer hok =>
    exact clean_replace [] hactive (fun hr => ⟨fun q hq => (by cases hq), hr.held⟩) h
  | stop r rest p e herr hactive hbuffer hfail =>
    have hok := (h.readers r (by rw [hactive]; exact mem_cons_self)).buffer p hbuffer
    rw [CleanPage, hfail] at hok
    cases hok

/-- Every state can be read on to the end. -/
theorem run_ends (hrun : Run src fingerprint start out s) (h : Clean s) :
    ∃ out' s', Run src fingerprint start (out ++ out') s' ∧ Ended (out ++ out') s' := by
  induction hwork : work src s using Nat.strong_induction_on generalizing s out with
  | _ n ih =>
    by_cases hactive : s.active = []
    · exact ⟨[], s, by rwa [append_nil], Or.inr ⟨hactive, h.err⟩⟩
    · obtain ⟨delivered, t, hstep⟩ := step_possible h hactive
      have hless := step_work hfaithful hstep
      have hclean := clean_step hfaithful hstep h
      cases delivered with
      | none => exact ih _ (hwork ▸ hless) (hrun.quiet hstep) hclean rfl
      | some p =>
        obtain ⟨out', s', hrest, hended⟩ := ih _ (hwork ▸ hless) (hrun.page hstep) hclean rfl
        rw [append_assoc] at hrest hended
        exact ⟨[p] ++ out', s', hrest, hended⟩

theorem clean_run (hrun : Run src fingerprint start out s) (h : Clean start) : Clean s := by
  induction hrun with
  | refl => exact h
  | quiet _ hstep ih => exact clean_step hfaithful hstep ih
  | page _ hstep ih => exact clean_step hfaithful hstep ih

end KnowledgeEngine.StreamProgress
