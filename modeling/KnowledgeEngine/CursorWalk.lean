import Mathlib.Data.List.Basic

/-!
Walking a list page by page. A step serves the items at a cursor and says where to go
on, if anywhere; a walk follows the cursors to the end. When every step serves the
next `size` rows of what is left and goes on exactly when there are more, the walk
ends and yields each row once, in order.
-/

namespace KnowledgeEngine.CursorWalk

variable {C T D E F : Type}

/-- The items of all pages from a cursor to the end. -/
inductive Walk (step : C → Except E (List D × Option C)) : C → List D → Prop
  | last {c : C} {items : List D} : step c = .ok (items, none) → Walk step c items
  | more {c next : C} {items rest : List D} : step c = .ok (items, some next) →
      Walk step next rest → Walk step c (items ++ rest)

variable {step : C → Except E (List D × Option C)}

theorem Walk.step_ok {c : C} {items : List D} (h : Walk step c items) :
    ∃ page, step c = .ok page := by
  cases h with
  | last hstep => exact ⟨_, hstep⟩
  | more hstep _ => exact ⟨_, hstep⟩

/-- A cursor serves its rows: its page holds the first `size`, and what is left is
served from the next cursor. -/
def ServesPage (step : C → Except E (List D × Option C)) (view : T → Except F D) (size : ℕ)
    (Serves : C → List T → Prop) (c : C) (rows : List T) : Prop :=
  ∃ items next, step c = .ok (items, next) ∧ (rows.take size).mapM view = .ok items ∧
    (rows.length ≤ size → next = none) ∧
    (size < rows.length → ∃ c', next = some c' ∧ Serves c' (rows.drop size))

theorem servesPage_of {view : T → Except F D} {size : ℕ} {Serves : C → List T → Prop} {c : C}
    {rows : List T} {items : List D} (hitems : (rows.take size).mapM view = .ok items)
    (hlast : ¬ size < rows.length → step c = .ok (items, none))

    (hmore : size < rows.length → ∃ c', step c = .ok (items, some c') ∧
      Serves c' (rows.drop size)) :
    ServesPage step view size Serves c rows := by
  by_cases h : size < rows.length
  · obtain ⟨c', hstep, hserves⟩ := hmore h
    exact ⟨items, some c', hstep, hitems, fun hle => absurd h (Nat.not_lt.mpr hle),
      fun _ => ⟨c', rfl, hserves⟩⟩
  · exact ⟨items, none, hlast h, hitems, fun _ => rfl, fun hlt => absurd hlt h⟩

theorem mapM_append_ok {view : T → Except F D} {xs ys : List T} {as bs : List D}
    (hxs : xs.mapM view = .ok as) (hys : ys.mapM view = .ok bs) :
    (xs ++ ys).mapM view = .ok (as ++ bs) := by
  rw [List.mapM_append, hxs, hys]
  rfl

theorem mapM_total (view : T → Except F D) (rows : List T)
    (h : ∀ row ∈ rows, ∃ d, view row = .ok d) : ∃ items, rows.mapM view = .ok items := by
  induction rows with
  | nil => exact ⟨[], rfl⟩
  | cons row rows ih =>
    obtain ⟨d, hd⟩ := h row List.mem_cons_self
    obtain ⟨items, hitems⟩ := ih fun row' hrow' => h row' (List.mem_cons_of_mem _ hrow')
    refine ⟨d :: items, ?_⟩
    rw [List.mapM_cons, hd, hitems]
    rfl

theorem walk_of_serves (step : C → Except E (List D × Option C)) (view : T → Except F D)
    (size : ℕ) (hsize : 0 < size) (Serves : C → List T → Prop)
    (hpage : ∀ c rows, Serves c rows → ServesPage step view size Serves c rows)
    (c : C) (rows : List T) (h : Serves c rows) :
    ∃ items, rows.mapM view = .ok items ∧ Walk step c items := by
  induction hlength : rows.length using Nat.strongRecOn generalizing c rows with
  | ind n ih =>
    obtain ⟨items, next, hstep, hitems, hlast, hmore⟩ := hpage c rows h
    by_cases hfits : rows.length ≤ size
    · rw [hlast hfits] at hstep
      rw [List.take_of_length_le hfits] at hitems
      exact ⟨items, hitems, .last hstep⟩
    · obtain ⟨c', rfl, hserves⟩ := hmore (by omega)
      have hshorter : (rows.drop size).length < n := by
        rw [List.length_drop]
        omega
      obtain ⟨rest, hrest, hwalk⟩ := ih _ hshorter c' (rows.drop size) hserves rfl
      refine ⟨items ++ rest, ?_, .more hstep hwalk⟩
      rw [← List.take_append_drop size rows]
      exact mapM_append_ok hitems hrest

end KnowledgeEngine.CursorWalk
