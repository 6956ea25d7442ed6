import KnowledgeEngine.FanOutItems

/-!
Runs of one fan-out, over every order of its steps, every outcome of the mapper and a context
that may end at any moment. Every state of a run has each item at one of its stations and as
many slots taken as there are live goroutines; every step brings the run closer to its end.
-/

namespace KnowledgeEngine.FanOutRuns

open Transitions FanOut FanOutItems List

variable {α ω : Type} {c : Call α ω} {st st' : State α} {l : Label ω} {labels : List (Label ω)}

section Counts

variable {β : Type} {xs : List β} {k : ℕ} {a b : β}

theorem countP_set_add (p : β → Bool) (h : xs[k]? = some a) :
    (xs.set k b).countP p + (if p a then 1 else 0) = xs.countP p + if p b then 1 else 0 := by
  induction xs generalizing k with
  | nil => cases h
  | cons x xs ih =>
    cases k with
    | zero =>
      cases h
      simp only [set_cons_zero, countP_cons]
      omega
    | succ k =>
      have hrest := ih h
      simp only [set_cons_succ, countP_cons]
      omega

theorem sum_set_add (f : β → ℕ) (h : xs[k]? = some a) :
    ((xs.set k b).map f).sum + f a = (xs.map f).sum + f b := by
  induction xs generalizing k with
  | nil => cases h
  | cons x xs ih =>
    cases k with
    | zero =>
      cases h
      simp only [set_cons_zero, map_cons, sum_cons]
      omega
    | succ k =>
      have hrest := ih h
      simp only [set_cons_succ, map_cons, sum_cons]
      omega

end Counts

section Invariant

/-- What holds in every state of a run. -/
structure Inv (c : Call α ω) (labels : List (Label ω)) (st : State α) : Prop where
  goroutines : st.goroutines.length = c.items.length
  results : st.results.length = c.items.length
  i_le : st.i ≤ c.items.length
  sem_eq : st.sem = st.goroutines.countP Goroutine.isLive
  sem_le : st.sem ≤ c.workers
  items : ∀ k it, c.items[k]? = some it → Item c st k it (view labels st k)
  call_lt : ∀ call ∈ st.calls, call.1 < c.items.length
  completion_lt : ∀ completion ∈ st.completions, completion.1 < c.items.length
  tail_done : st.tail = true → st.done.isSome
  tail_skips : st.tail = true → ∃ k < c.items.length, st.goroutines[k]? = some .absent
  bailed : Label.bail ∈ labels ↔ st.tail = true
  returned : st.returned = true → st.i = c.items.length ∧ st.resting = true

theorem inv_initial (c : Call α ω) : Inv c [] c.initial where
  goroutines := length_replicate
  results := length_replicate
  i_le := Nat.zero_le _
  sem_eq := by simp [Call.initial, countP_replicate, Goroutine.isLive]
  sem_le := Nat.zero_le _
  items := by
    intro k it hit
    have hlt := lt_of_getElem? hit
    refine Item.of_view (.pending (some {}) (Nat.zero_le _)) ⟨?_, ?_, rfl, rfl, rfl⟩
    · exact List.getElem?_replicate_of_lt hlt
    · exact List.getElem?_replicate_of_lt hlt
  call_lt := by simp [Call.initial]
  completion_lt := by simp [Call.initial]
  tail_done := by simp [Call.initial]
  tail_skips := by simp [Call.initial]
  bailed := by simp [Call.initial]
  returned := by simp [Call.initial]

theorem Inv.absent_at (h : Inv c labels st) {k : ℕ} (hi : st.i ≤ k) (hk : k < c.items.length) :
    st.goroutines[k]? = some .absent := by
  obtain ⟨r, hview⟩ := (h.items k _ (List.getElem?_eq_getElem hk)).at_absent hi
  exact (view_eq_iff.mp hview).1

theorem received_lt {k : ℕ} {r : StepResult} (hk : k < c.items.length) :
    ∀ completion ∈ c.received k r, completion.1 < c.items.length := by
  intro completion hcompletion
  rw [Call.received] at hcompletion
  split at hcompletion
  · rwa [mem_singleton.mp hcompletion]
  · cases hcompletion

/-- A goroutine that a step acts on is not absent, the one the loop starts apart. -/
theorem absent_kept {k j : ℕ} {g g' : Goroutine α} (hk : st.goroutines[k]? = some .absent)
    (hj : st.goroutines[j]? = some g) (hg : g ≠ .absent) :
    (st.goroutines.set j g')[k]? = some .absent := by
  have hne : j ≠ k := by
    rintro rfl
    exact hg (Option.some.inj (hj.symm.trans hk))
  rwa [List.getElem?_set_ne hne]

theorem not_live_of_resting (h : st.resting = true) {k : ℕ} {g : Goroutine α}
    (hk : st.goroutines[k]? = some g) : g.isLive = false := by
  have hall := all_eq_true.mp h g (mem_of_getElem? hk)
  simpa using hall

variable (h : Inv c labels st) (hm : Moves c st l st')
include h hm

theorem Inv.sem_step :
    st'.sem = st'.goroutines.countP Goroutine.isLive ∧ st'.sem ≤ c.workers := by
  have hsem := h.sem_eq
  have hle := h.sem_le
  cases hm with
  | cancel | bail | report | wait => exact ⟨hsem, hle⟩
  | acquire it hit htail hfree =>
    have hset := countP_set_add (b := .spawned it) Goroutine.isLive
      (h.absent_at le_rfl (lt_of_getElem? hit))
    simp only [Goroutine.isLive] at hset
    constructor
    · simpa [hsem] using hset.symm
    · exact hfree
  | start k it hk =>
    have hset := countP_set_add (b := .mapping it) Goroutine.isLive hk
    simp only [Goroutine.isLive] at hset
    exact ⟨by simpa [hsem] using hset.symm, hle⟩
  | finish k m it hk =>
    have hset := countP_set_add (b := .settled) Goroutine.isLive hk
    simp only [Goroutine.isLive] at hset
    exact ⟨by simpa [hsem] using hset.symm, hle⟩
  | deliver k r hk hr =>
    have hset := countP_set_add (b := .delivered) Goroutine.isLive hk
    simp only [Goroutine.isLive] at hset
    exact ⟨by simpa [hsem] using hset.symm, hle⟩
  | release k hk =>
    have hset := countP_set_add (b := .ended) Goroutine.isLive hk
    simp only [Goroutine.isLive] at hset
    constructor
    · have hminus : st.sem - 1 = (st.goroutines.set k .ended).countP Goroutine.isLive := by
        simp at hset
        omega
      exact hminus
    · exact (Nat.sub_le _ _).trans hle

theorem Inv.items_step :
    ∀ k it, c.items[k]? = some it → Item c st' k it (view (labels ++ [l]) st' k) := by
  intro k it hit
  by_cases hk : target st l = some k
  · exact item_target hm hk hit h.goroutines h.results (h.items k it hit)
  · exact item_other hm hk (h.items k it hit)

theorem Inv.keys_step :
    (∀ call ∈ st'.calls, call.1 < c.items.length) ∧
      ∀ completion ∈ st'.completions, completion.1 < c.items.length := by
  cases hm with
  | cancel | acquire | bail | finish | release | wait => exact ⟨h.call_lt, h.completion_lt⟩
  | start k it hk =>
    have hlt := h.goroutines ▸ lt_of_getElem? hk
    refine ⟨?_, h.completion_lt⟩
    exact forall_mem_append.mpr ⟨h.call_lt, by simpa using hlt⟩
  | deliver k r hk hr =>
    have hlt := h.goroutines ▸ lt_of_getElem? hk
    exact ⟨h.call_lt, forall_mem_append.mpr ⟨h.completion_lt, received_lt hlt⟩⟩
  | report err hdone htail hi =>
    exact ⟨h.call_lt, forall_mem_append.mpr ⟨h.completion_lt, received_lt hi⟩⟩

theorem Inv.tail_step :
    (st'.tail = true → st'.done.isSome) ∧
      (st'.tail = true → ∃ k < c.items.length, st'.goroutines[k]? = some .absent) := by
  cases hm with
  | cancel err hdone => exact ⟨fun _ => rfl, h.tail_skips⟩
  | acquire it hit htail hfree => exact ⟨h.tail_done, fun ht => by simp [htail] at ht⟩
  | bail htail hi hdone => exact ⟨fun _ => hdone, fun _ => ⟨st.i, hi, h.absent_at le_rfl hi⟩⟩
  | report | wait => exact ⟨h.tail_done, h.tail_skips⟩
  | start j it hj =>
    refine ⟨h.tail_done, fun ht => ?_⟩
    obtain ⟨k, hlt, hk⟩ := h.tail_skips ht
    exact ⟨k, hlt, absent_kept hk hj (by simp)⟩
  | finish j m it hj =>
    refine ⟨h.tail_done, fun ht => ?_⟩
    obtain ⟨k, hlt, hk⟩ := h.tail_skips ht
    exact ⟨k, hlt, absent_kept hk hj (by simp)⟩
  | deliver j r hj hr =>
    refine ⟨h.tail_done, fun ht => ?_⟩
    obtain ⟨k, hlt, hk⟩ := h.tail_skips ht
    exact ⟨k, hlt, absent_kept hk hj (by simp)⟩
  | release j hj =>
    refine ⟨h.tail_done, fun ht => ?_⟩
    obtain ⟨k, hlt, hk⟩ := h.tail_skips ht
    exact ⟨k, hlt, absent_kept hk hj (by simp)⟩

theorem Inv.returned_step :
    st'.returned = true → st'.i = c.items.length ∧ st'.resting = true := by
  intro hreturned
  cases hm with
  | cancel | bail => exact h.returned hreturned
  | wait hopen hi hresting => exact ⟨hi, hresting⟩
  | acquire it hit htail hfree =>
    have hlt := lt_of_getElem? hit
    have hi := (h.returned hreturned).1
    omega
  | report err hdone htail hi =>
    have hend := (h.returned hreturned).1
    omega
  | start j it hj => cases not_live_of_resting (h.returned hreturned).2 hj
  | finish j m it hj => cases not_live_of_resting (h.returned hreturned).2 hj
  | deliver j r hj hr => cases not_live_of_resting (h.returned hreturned).2 hj
  | release j hj => cases not_live_of_resting (h.returned hreturned).2 hj

theorem inv_step : Inv c (labels ++ [l]) st' where
  goroutines := by
    cases hm <;> first | exact h.goroutines | exact length_set.trans h.goroutines
  results := by
    cases hm <;> first | exact h.results | exact length_set.trans h.results
  i_le := by
    cases hm with
    | acquire it hit => exact lt_of_getElem? hit
    | report err hdone htail hi => exact hi
    | _ => exact h.i_le
  sem_eq := (h.sem_step hm).1
  sem_le := (h.sem_step hm).2
  items := h.items_step hm
  call_lt := (h.keys_step hm).1
  completion_lt := (h.keys_step hm).2
  tail_done := (h.tail_step hm).1
  tail_skips := (h.tail_step hm).2
  bailed := by
    have hbefore := h.bailed
    cases hm <;> simp_all
  returned := h.returned_step hm

end Invariant

theorem inv_run (h : run (step c) c.initial labels = some st) : Inv c labels st :=
  run_history (Inv c) (inv_initial c)
    (fun _ _ _ _ _ hinv hstep => inv_step hinv (moves_of_step hstep)) h

section Ending

/-- A bound on the steps a run can still take. -/
def remaining (c : Call α ω) (st : State α) : ℕ :=
  5 * (c.items.length - st.i) + (st.goroutines.map Goroutine.stepsLeft).sum +
    (!st.tail).toNat + (!st.returned).toNat + st.done.isNone.toNat

/-- A step brings the run closer to its end. -/
theorem remaining_lt (h : Inv c labels st) (hm : Moves c st l st') :
    remaining c st' < remaining c st := by
  cases hm with
  | cancel err hdone => simp [remaining, hdone]
  | acquire it hit htail hfree =>
    have hlt := lt_of_getElem? hit
    have hset := sum_set_add (b := .spawned it) Goroutine.stepsLeft (h.absent_at le_rfl hlt)
    simp only [remaining, Goroutine.stepsLeft] at hset ⊢
    omega
  | bail htail hi hdone => simp [remaining, htail]
  | start k it hk =>
    have hset := sum_set_add (b := .mapping it) Goroutine.stepsLeft hk
    simp only [remaining, Goroutine.stepsLeft] at hset ⊢
    omega
  | finish k m it hk =>
    have hset := sum_set_add (b := .settled) Goroutine.stepsLeft hk
    simp only [remaining, Goroutine.stepsLeft] at hset ⊢
    omega
  | deliver k r hk hr =>
    have hset := sum_set_add (b := .delivered) Goroutine.stepsLeft hk
    simp only [remaining, Goroutine.stepsLeft] at hset ⊢
    omega
  | release k hk =>
    have hset := sum_set_add (b := .ended) Goroutine.stepsLeft hk
    simp only [remaining, Goroutine.stepsLeft] at hset ⊢
    omega
  | report err hdone htail hi =>
    simp only [remaining]
    omega
  | wait hopen hi hresting => simp [remaining, hopen]

theorem length_le (h : run (step c) c.initial labels = some st) :
    labels.length + remaining c st ≤ 5 * c.items.length + 3 := by
  refine run_history (fun taken s => taken.length + remaining c s ≤ 5 * c.items.length + 3) ?_ ?_ h
  · simp [remaining, Call.initial, Goroutine.stepsLeft]
  · intro before s l s' hbefore hle hstep
    have hlt := remaining_lt (inv_run hbefore) (moves_of_step hstep)
    rw [length_append, length_singleton]
    omega

/-- A goroutine with a slot has a next step. -/
theorem live_moves [Nonempty ω] (h : Inv c labels st) {k : ℕ} {g : Goroutine α}
    (hk : st.goroutines[k]? = some g) (hg : g.isLive = true) :
    ∃ (l : Label ω) (s : State α), (∀ err, l ≠ .cancel err) ∧ Moves c st l s := by
  have hlt : k < st.results.length :=
    (lt_of_getElem? hk).trans_eq (h.goroutines.trans h.results.symm)
  cases g with
  | absent | ended => cases hg
  | spawned it => exact ⟨_, _, by simp, .start k it hk⟩
  | mapping it =>
    obtain ⟨w⟩ := ‹Nonempty ω›
    exact ⟨_, _, by simp, .finish k ⟨w, [], 0⟩ it hk⟩
  | settled => exact ⟨_, _, by simp, .deliver k _ hk (List.getElem?_eq_getElem hlt)⟩
  | delivered => exact ⟨_, _, by simp, .release k hk⟩

/-- A fan-out that has not returned has a next step, whatever the context does. -/
theorem next_step [Nonempty ω] (h : Inv c labels st) (hopen : st.returned = false) :
    ∃ (l : Label ω) (s : State α), (∀ err, l ≠ .cancel err) ∧ Moves c st l s := by
  cases hresting : st.resting with
  | false =>
    obtain ⟨g, hg, hlive⟩ := all_eq_false.mp hresting
    obtain ⟨k, hk⟩ := mem_iff_getElem?.mp hg
    exact live_moves h hk (by simpa using hlive)
  | true =>
    rcases Nat.lt_or_eq_of_le h.i_le with hi | hi
    · cases htail : st.tail with
      | false =>
        have hnone : st.goroutines.countP Goroutine.isLive = 0 := by
          rw [countP_eq_zero]
          intro g hg
          simpa using all_eq_true.mp hresting g hg
        have hfree : st.sem < c.workers := by
          rw [h.sem_eq, hnone]
          exact c.workers_pos
        exact ⟨_, _, by simp, .acquire _ (List.getElem?_eq_getElem hi) htail hfree⟩
      | true =>
        obtain ⟨err, herr⟩ := Option.isSome_iff_exists.mp (h.tail_done htail)
        exact ⟨_, _, by simp, .report err herr htail hi⟩
    · exact ⟨_, _, by simp, .wait hopen hi hresting⟩

end Ending

end KnowledgeEngine.FanOutRuns
