import KnowledgeEngine.FanOut

/-!
One item of a fan-out. What a run has done for an item (its goroutine, its result, the calls
of the mapper, their outcomes and the completions) is one of seven stations, and a step acts
on one item at most, taking it to its next station.
-/

namespace KnowledgeEngine.FanOutItems

open FanOut
open AdaptiveBulkhead (ContextError)

variable {α ω : Type} {c : Call α ω} {st st' : State α} {l : Label ω} {labels : List (Label ω)}

def finishOf (k : ℕ) : Label ω → Option (Mapped ω)
  | .finish j m => if j = k then some m else none
  | _ => none

/-- The calls of `fn` on an item that came to an end. -/
def outcomes (labels : List (Label ω)) (k : ℕ) : List (Mapped ω) := labels.filterMap (finishOf k)

def callsOf (st : State α) (k : ℕ) : List (ℕ × α) := st.calls.filter fun call => call.1 = k

def completionsOf (st : State α) (k : ℕ) : List (ℕ × StepResult) :=
  st.completions.filter fun completion => completion.1 = k

/-- What a run has done for one item. -/
structure View (α ω : Type) where
  goroutine : Option (Goroutine α)
  result : Option StepResult
  outcomes : List (Mapped ω)
  calls : List (ℕ × α)
  completions : List (ℕ × StepResult)

def view (labels : List (Label ω)) (st : State α) (k : ℕ) : View α ω where
  goroutine := st.goroutines[k]?
  result := st.results[k]?
  outcomes := outcomes labels k
  calls := callsOf st k
  completions := completionsOf st k

/-- The stations of an item. -/
inductive Item (c : Call α ω) (st : State α) (k : ℕ) (it : α) : View α ω → Prop
  | pending (r : Option StepResult) (hi : st.i ≤ k) : Item c st k it ⟨some .absent, r, [], [], []⟩
  | spawned (r : Option StepResult) (hi : k < st.i) :
      Item c st k it ⟨some (.spawned it), r, [], [], []⟩
  | mapping (r : Option StepResult) (hi : k < st.i) :
      Item c st k it ⟨some (.mapping it), r, [], [(k, it)], []⟩
  | settled (m : Mapped ω) (hi : k < st.i) :
      Item c st k it ⟨some .settled, some (c.settle it m), [m], [(k, it)], []⟩
  | delivered (m : Mapped ω) (hi : k < st.i) :
      Item c st k it ⟨some .delivered, some (c.settle it m), [m], [(k, it)],
        c.received k (c.settle it m)⟩
  | ended (m : Mapped ω) (hi : k < st.i) :
      Item c st k it ⟨some .ended, some (c.settle it m), [m], [(k, it)],
        c.received k (c.settle it m)⟩
  | canceled (err : ContextError) (hi : k < st.i) (htail : st.tail = true)
      (hdone : st.done = some err) :
      Item c st k it ⟨some .absent, some (canceledResult err), [], [],
        c.received k (canceledResult err)⟩

/-- The item a step acts on. -/
def target (st : State α) : Label ω → Option ℕ
  | .acquire | .report => some st.i
  | .start k | .finish k _ | .deliver k | .release k => some k
  | .cancel _ | .bail | .wait => none

theorem filter_received (k j : ℕ) (r : StepResult) :
    (c.received j r).filter (fun completion => completion.1 = k) =
      if j = k then c.received k r else [] := by
  by_cases hjk : j = k
  · subst hjk
    cases hemitter : c.emitter <;> simp [Call.received, hemitter]
  · cases hemitter : c.emitter <;> simp [Call.received, hemitter, hjk]

variable {k : ℕ} {it : α} {v : View α ω}

/-- A step leaves the other items alone. -/
theorem view_other (h : Moves c st l st') (hk : target st l ≠ some k) :
    view (labels ++ [l]) st' k = view labels st k := by
  cases h with
  | cancel err hdone => simp [view, outcomes, finishOf, callsOf, completionsOf]
  | acquire it hit htail hsem =>
    have hne : st.i ≠ k := fun heq => hk (congrArg some heq)
    simp [view, outcomes, finishOf, callsOf, completionsOf, hne]
  | bail htail hi hdone => simp [view, outcomes, finishOf, callsOf, completionsOf]
  | start j it hj =>
    have hne : j ≠ k := fun heq => hk (congrArg some heq)
    simp [view, outcomes, finishOf, callsOf, completionsOf, hne]
  | finish j m it hj =>
    have hne : j ≠ k := fun heq => hk (congrArg some heq)
    simp [view, outcomes, finishOf, callsOf, completionsOf, hne]
  | deliver j r hj hr =>
    have hne : j ≠ k := fun heq => hk (congrArg some heq)
    simp [view, outcomes, finishOf, callsOf, completionsOf, filter_received, hne]
  | release j hj =>
    have hne : j ≠ k := fun heq => hk (congrArg some heq)
    simp [view, outcomes, finishOf, callsOf, completionsOf, hne]
  | report err hdone htail hi =>
    have hne : st.i ≠ k := fun heq => hk (congrArg some heq)
    simp [view, outcomes, finishOf, callsOf, completionsOf, filter_received, hne]
  | wait hreturned hi hresting => simp [view, outcomes, finishOf, callsOf, completionsOf]

theorem Item.keep (h : Item c st k it v) (hpending : st.i ≤ k → st'.i ≤ k) (hi : st.i ≤ st'.i)
    (htail : st.tail = true → st'.tail = true)
    (hdone : ∀ err, st.done = some err → st'.done = some err) : Item c st' k it v := by
  cases h with
  | pending r hk => exact .pending r (hpending hk)
  | spawned r hk => exact .spawned r (hk.trans_le hi)
  | mapping r hk => exact .mapping r (hk.trans_le hi)
  | settled m hk => exact .settled m (hk.trans_le hi)
  | delivered m hk => exact .delivered m (hk.trans_le hi)
  | ended m hk => exact .ended m (hk.trans_le hi)
  | canceled err hk ht herr => exact .canceled err (hk.trans_le hi) (htail ht) (hdone err herr)

/-- A step takes an item it does not act on to the same station. -/
theorem item_other (h : Moves c st l st') (hk : target st l ≠ some k)
    (hitem : Item c st k it (view labels st k)) : Item c st' k it (view (labels ++ [l]) st' k) := by
  rw [view_other h hk]
  refine hitem.keep ?_ ?_ ?_ ?_
  · intro hi
    cases h with
    | acquire | report => exact Nat.lt_of_le_of_ne hi fun heq => hk (congrArg some heq)
    | _ => exact hi
  · cases h with
    | acquire | report => exact Nat.le_succ _
    | _ => exact le_rfl
  · intro ht
    cases h with
    | bail => rfl
    | _ => exact ht
  · intro err herr
    cases h with
    | cancel _ hdone => simp [hdone] at herr
    | _ => exact herr

theorem view_eq_iff :
    view labels st k = v ↔ st.goroutines[k]? = v.goroutine ∧ st.results[k]? = v.result ∧
      outcomes labels k = v.outcomes ∧ callsOf st k = v.calls ∧
      completionsOf st k = v.completions := by
  cases v
  simp [view]

theorem Item.of_view (h : Item c st k it v)
    (hview : st.goroutines[k]? = v.goroutine ∧ st.results[k]? = v.result ∧
      outcomes labels k = v.outcomes ∧ callsOf st k = v.calls ∧
      completionsOf st k = v.completions) :
    Item c st k it (view labels st k) :=
  view_eq_iff.mpr hview ▸ h

theorem outcomes_append (labels : List (Label ω)) (l : Label ω) (k : ℕ) :
    outcomes (labels ++ [l]) k = outcomes labels k ++ (finishOf k l).toList := by
  cases hl : finishOf k l <;> simp [outcomes, hl]

/-- The station of an item, read off its goroutine. -/
theorem Item.at_absent (hitem : Item c st k it (view labels st k)) (hk : st.i ≤ k) :
    ∃ r, view labels st k = ⟨some .absent, r, [], [], []⟩ := by
  generalize view labels st k = v at hitem ⊢
  cases hitem with
  | pending r hi => exact ⟨r, rfl⟩
  | _ => omega

theorem Item.at_goroutine {g : Goroutine α} (hitem : Item c st k it v)
    (hg : v.goroutine = some g) :
    match g with
    | .spawned it' => it' = it ∧ k < st.i ∧ ∃ r, v = ⟨some (.spawned it), r, [], [], []⟩
    | .mapping it' => it' = it ∧ k < st.i ∧ ∃ r, v = ⟨some (.mapping it), r, [], [(k, it)], []⟩
    | .settled => k < st.i ∧ ∃ m, v = ⟨some .settled, some (c.settle it m), [m], [(k, it)], []⟩
    | .delivered => k < st.i ∧ ∃ m, v =
        ⟨some .delivered, some (c.settle it m), [m], [(k, it)], c.received k (c.settle it m)⟩
    | _ => True := by
  cases hitem <;> cases hg
  case spawned r hi => exact ⟨rfl, hi, r, rfl⟩
  case mapping r hi => exact ⟨rfl, hi, r, rfl⟩
  case settled m hi => exact ⟨hi, m, rfl⟩
  case delivered m hi => exact ⟨hi, m, rfl⟩
  all_goals trivial

theorem lt_of_getElem? {β : Type} {xs : List β} {a : β} (h : xs[k]? = some a) : k < xs.length :=
  (List.getElem?_eq_some_iff.mp h).1

/-- A step takes the item it acts on to its next station. -/
theorem item_target (h : Moves c st l st') (hk : target st l = some k) (hit : c.items[k]? = some it)
    (hgoroutines : st.goroutines.length = c.items.length)
    (hresults : st.results.length = c.items.length) (hitem : Item c st k it (view labels st k)) :
    Item c st' k it (view (labels ++ [l]) st' k) := by
  have hlt := lt_of_getElem? hit
  cases h with
  | cancel | bail | wait => cases hk
  | acquire it' hit' htail hsem =>
    cases hk
    obtain rfl : it' = it := Option.some.inj (hit'.symm.trans hit)
    obtain ⟨r, hview⟩ := hitem.at_absent le_rfl
    obtain ⟨hg, hr, ho, hc, hd⟩ := view_eq_iff.mp hview
    refine Item.of_view (.spawned r (Nat.lt_succ_self _)) ⟨?_, hr, ?_, hc, hd⟩
    · exact List.getElem?_set_self (hgoroutines ▸ hlt)
    · rw [outcomes_append, ho]
      rfl
  | start j it' hj =>
    cases hk
    obtain ⟨rfl, hi, r, hview⟩ := hitem.at_goroutine hj
    obtain ⟨hg, hr, ho, hc, hd⟩ := view_eq_iff.mp hview
    refine Item.of_view (.mapping r hi) ⟨?_, hr, ?_, ?_, hd⟩
    · exact List.getElem?_set_self (hgoroutines ▸ hlt)
    · rw [outcomes_append, ho]
      rfl
    · have hnone : st.calls.filter (fun call => call.1 = k) = [] := hc
      simp [callsOf, hnone]
  | finish j m it' hj =>
    cases hk
    obtain ⟨rfl, hi, r, hview⟩ := hitem.at_goroutine hj
    obtain ⟨hg, hr, ho, hc, hd⟩ := view_eq_iff.mp hview
    refine Item.of_view (.settled m hi) ⟨?_, ?_, ?_, hc, hd⟩
    · exact List.getElem?_set_self (hgoroutines ▸ hlt)
    · exact List.getElem?_set_self (hresults ▸ hlt)
    · rw [outcomes_append, ho]
      simp [finishOf]
  | deliver j r hj hr' =>
    cases hk
    obtain ⟨hi, m, hview⟩ := hitem.at_goroutine hj
    obtain ⟨hg, hr, ho, hc, hd⟩ := view_eq_iff.mp hview
    obtain rfl : r = c.settle it m := Option.some.inj (hr'.symm.trans hr)
    refine Item.of_view (.delivered m hi) ⟨?_, hr, ?_, hc, ?_⟩
    · exact List.getElem?_set_self (hgoroutines ▸ hlt)
    · rw [outcomes_append, ho]
      rfl
    · have hnone : st.completions.filter (fun completion => completion.1 = k) = [] := hd
      simp [completionsOf, filter_received, hnone]
  | release j hj =>
    cases hk
    obtain ⟨hi, m, hview⟩ := hitem.at_goroutine hj
    obtain ⟨hg, hr, ho, hc, hd⟩ := view_eq_iff.mp hview
    refine Item.of_view (.ended m hi) ⟨?_, hr, ?_, hc, hd⟩
    · exact List.getElem?_set_self (hgoroutines ▸ hlt)
    · rw [outcomes_append, ho]
      rfl
  | report err hdone htail hi =>
    cases hk
    obtain ⟨r, hview⟩ := hitem.at_absent le_rfl
    obtain ⟨hg, hr, ho, hc, hd⟩ := view_eq_iff.mp hview
    refine Item.of_view (.canceled err (Nat.lt_succ_self _) htail hdone) ⟨hg, ?_, ?_, hc, ?_⟩
    · exact List.getElem?_set_self (hresults ▸ hi)
    · rw [outcomes_append, ho]
      rfl
    · have hnone : st.completions.filter (fun completion => completion.1 = st.i) = [] := hd
      simp [completionsOf, filter_received, hnone]

end KnowledgeEngine.FanOutItems
