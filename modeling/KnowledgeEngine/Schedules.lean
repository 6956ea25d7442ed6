import Mathlib.Data.List.Basic

/-!
Tasks that run side by side, each a list of events in its own order. A schedule says whose
event is next; it is complete when it leaves no task an event. Whatever the schedule, the
events of the tasks come out once each.
-/

namespace KnowledgeEngine.Schedules

variable {ε : Type}

/-- The events in the order of the schedule, none if it is not a complete one. -/
def interleave : List (List ε) → List ℕ → Option (List ε)
  | tasks, [] => if tasks.all List.isEmpty then some [] else none
  | tasks, k :: schedule =>
    match tasks[k]? with
    | some (event :: rest) => (interleave (tasks.set k rest) schedule).map (event :: ·)
    | _ => none

variable {tasks : List (List ε)}

theorem flatten_set_perm {k : ℕ} {event : ε} {rest : List ε}
    (h : tasks[k]? = some (event :: rest)) :
    (event :: (tasks.set k rest).flatten).Perm tasks.flatten := by
  induction tasks generalizing k with
  | nil => cases h
  | cons task tasks ih =>
    cases k with
    | zero =>
      cases h
      exact List.Perm.refl _
    | succ k =>
      rw [List.set_cons_succ, List.flatten_cons, List.flatten_cons]
      exact List.perm_middle.symm.trans ((ih h).append_left task)

theorem interleave_perm {schedule : List ℕ} {events : List ε}
    (h : interleave tasks schedule = some events) : events.Perm tasks.flatten := by
  induction schedule generalizing tasks events with
  | nil =>
    obtain ⟨hempty, hevents⟩ := Option.ite_none_right_eq_some.mp h
    cases hevents
    have hnil : tasks.flatten = [] := by
      rw [List.flatten_eq_nil_iff]
      intro task htask
      exact List.isEmpty_iff.mp (List.all_eq_true.mp hempty task htask)
    rw [hnil]
  | cons k schedule ih =>
    rw [interleave] at h
    split at h
    · next event rest htask =>
      obtain ⟨later, hlater, hevents⟩ := Option.map_eq_some_iff.mp h
      cases hevents
      exact ((ih hlater).cons event).trans (flatten_set_perm htask)
    · cases h

/-- A schedule of the later tasks, with the first one already at its end. -/
theorem interleave_cons_nil (tasks : List (List ε)) (schedule : List ℕ) :
    interleave ([] :: tasks) (schedule.map Nat.succ) = interleave tasks schedule := by
  induction schedule generalizing tasks with
  | nil => simp [interleave]
  | cons k schedule ih =>
    simp only [List.map_cons, interleave, Nat.succ_eq_add_one, List.getElem?_cons_succ]
    split
    · next event rest htask =>
      rw [List.set_cons_succ]
      exact congrArg _ (ih _)
    · rfl

theorem exists_schedule : ∃ schedule events, interleave tasks schedule = some events := by
  induction tasks with
  | nil => exact ⟨[], [], rfl⟩
  | cons task tasks ih =>
    induction task with
    | nil =>
      obtain ⟨schedule, events, h⟩ := ih
      exact ⟨schedule.map Nat.succ, events, (interleave_cons_nil tasks schedule).trans h⟩
    | cons event rest ihtask =>
      obtain ⟨schedule, events, h⟩ := ihtask
      refine ⟨0 :: schedule, event :: events, ?_⟩
      simp [interleave, h]

end KnowledgeEngine.Schedules
