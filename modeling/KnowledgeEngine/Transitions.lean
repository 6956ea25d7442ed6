import Mathlib.Data.List.Forall2
import Mathlib.Data.List.Induction
import Mathlib.Data.List.Infix

/-!
Runs of a transition function: labels taken one after the other, each only where it is
enabled. What every step keeps holds after every run. Where every label is enabled in every
state, a statement about single steps is also made of all the steps of a run.

Properties of finite runs that are stated about every step together with the steps before it:
a run is a list, and the property is read at every splitting of the list. Extending a run by
one step adds exactly one condition.

Reading the items of a list one by one, each of which may fail: the list is read when all its
items are, and its results are those of the items in order.
-/

namespace KnowledgeEngine.Transitions

variable {σ ℓ : Type}

/-- The state after the labels, none if one of them is not enabled. -/
def run (step : σ → ℓ → Option σ) : σ → List ℓ → Option σ
  | s, [] => some s
  | s, l :: rest => (step s l).bind fun s' => run step s' rest

variable {step : σ → ℓ → Option σ} {s s' : σ} {labels : List ℓ}

theorem run_cons {l : ℓ} {rest : List ℓ} (h : run step s (l :: rest) = some s') :
    ∃ middle, step s l = some middle ∧ run step middle rest = some s' :=
  Option.bind_eq_some_iff.mp h

theorem run_append {middle : σ} {before after : List ℓ} (hbefore : run step s before = some middle)
    (hafter : run step middle after = some s') : run step s (before ++ after) = some s' := by
  induction before generalizing s with
  | nil => exact Option.some.inj hbefore ▸ hafter
  | cons l rest ih =>
    obtain ⟨next, hnext, hrest⟩ := run_cons hbefore
    exact Option.bind_eq_some_iff.mpr ⟨next, hnext, ih hrest⟩

theorem run_split {before after : List ℓ} (h : run step s (before ++ after) = some s') :
    ∃ middle, run step s before = some middle ∧ run step middle after = some s' := by
  induction before generalizing s with
  | nil => exact ⟨s, rfl, h⟩
  | cons l rest ih =>
    obtain ⟨next, hnext, hrest⟩ := run_cons h
    obtain ⟨middle, hmiddle, hafter⟩ := ih hrest
    exact ⟨middle, Option.bind_eq_some_iff.mpr ⟨next, hnext, hmiddle⟩, hafter⟩

/-- An invariant of the steps is an invariant of the runs. -/
theorem run_invariant (inv : σ → Prop) (hstep : ∀ ⦃s l s'⦄, inv s → step s l = some s' → inv s')
    (hs : inv s) (h : run step s labels = some s') : inv s' := by
  induction labels generalizing s with
  | nil => exact Option.some.inj h ▸ hs
  | cons l rest ih =>
    obtain ⟨middle, hmiddle, hrest⟩ := run_cons h
    exact ih (hstep hs hmiddle) hrest

/-- What every step keeps, as a statement about the labels taken so far. -/
theorem run_history {start : σ} (inv : List ℓ → σ → Prop) (hstart : inv [] start)
    (hstep : ∀ ⦃before s l s'⦄, run step start before = some s → inv before s →
      step s l = some s' → inv (before ++ [l]) s')
    (h : run step start labels = some s) : inv labels s := by
  induction labels using List.reverseRecOn generalizing s with
  | nil => exact Option.some.inj h ▸ hstart
  | append_singleton before l ih =>
    obtain ⟨middle, hmiddle, hlast⟩ := run_split h
    obtain ⟨s', hs', hend⟩ := run_cons hlast
    exact Option.some.inj hend ▸ hstep hmiddle (ih hmiddle) hs'

/-- What every step keeps, as a statement about how many labels of one kind were taken. -/
theorem run_tallied {kind : ℓ → Bool} {inv : ℕ → σ → Prop}
    (hstep : ∀ ⦃n s l s'⦄, inv n s → step s l = some s' → inv (n + if kind l then 1 else 0) s')
    {n : ℕ} (hs : inv n s) (h : run step s labels = some s') : inv (n + labels.countP kind) s' := by
  induction labels generalizing s n with
  | nil => exact Option.some.inj h ▸ hs
  | cons l rest ih =>
    obtain ⟨middle, hmiddle, hrest⟩ := run_cons h
    have htallied := ih (hstep hs hmiddle) hrest
    rwa [List.countP_cons, Nat.add_comm (rest.countP kind), ← Nat.add_assoc]

/-- `P` holds of every step of the run, as a statement about its label and the state it is
taken from. -/
def Throughout (step : σ → ℓ → σ) (P : σ → ℓ → Prop) : σ → List ℓ → Prop
  | _, [] => True
  | s, l :: rest => P s l ∧ Throughout step P (step s l) rest

/-- Two statements that agree on the good states, of which the first keeps to them, agree on
the runs from a good state. -/
theorem throughout_iff {step : σ → ℓ → σ} {P Q : σ → ℓ → Prop} (good : σ → Prop)
    (hkeeps : ∀ s l, good s → P s l → good (step s l)) (hiff : ∀ s l, good s → (P s l ↔ Q s l))
    (hs : good s) (labels : List ℓ) : Throughout step P s labels ↔ Throughout step Q s labels := by
  induction labels generalizing s with
  | nil => exact Iff.rfl
  | cons l rest ih =>
    refine (and_congr_right fun hP => ?_).trans (and_congr_left fun _ => hiff s l hs)
    exact ih (hkeeps s l hs hP)

end KnowledgeEngine.Transitions

namespace KnowledgeEngine.RunSplits

variable {α : Type*}

/-- `P` holds of every element of the list together with what precedes it. -/
def AtEverySplit (P : List α → α → Prop) (run : List α) : Prop :=
  ∀ pre x post, run = pre ++ x :: post → P pre x

theorem atEverySplit_nil {P : List α → α → Prop} : AtEverySplit P [] := by
  intro pre x post h
  simp at h

theorem atEverySplit_concat (P : List α → α → Prop) (run : List α) (x : α) :
    AtEverySplit P (run ++ [x]) ↔ AtEverySplit P run ∧ P run x := by
  constructor
  · intro h
    refine ⟨?_, h run x [] rfl⟩
    intro pre y post hsplit
    exact h pre y (post ++ [x]) (by rw [hsplit]; simp)
  · rintro ⟨hrun, hlast⟩ pre y post hsplit
    induction post using List.reverseRecOn with
    | nil =>
      obtain ⟨rfl, hx⟩ := List.append_inj' hsplit rfl
      rw [List.cons.injEq] at hx
      exact hx.1 ▸ hlast
    | append_singleton post z _ =>
      rw [← List.cons_append, ← List.append_assoc] at hsplit
      exact hrun pre y post (List.append_inj' hsplit rfl).1

theorem AtEverySplit.of_prefix {P : List α → α → Prop} {pre run : List α}
    (h : AtEverySplit P run) (hpre : pre <+: run) : AtEverySplit P pre := by
  obtain ⟨post, rfl⟩ := hpre
  intro before x after hsplit
  exact h before x (after ++ post) (by rw [hsplit]; simp)

end KnowledgeEngine.RunSplits

namespace KnowledgeEngine.Traversals

variable {α β : Type} {f : α → Option β} {items : List α} {out : List β}

theorem mapM_some_iff :
    items.mapM f = some out ↔ List.Forall₂ (fun a b => f a = some b) items out := by
  constructor
  · intro h
    induction items generalizing out with
    | nil =>
      cases h
      exact .nil
    | cons a rest ih =>
      rw [List.mapM_cons] at h
      obtain ⟨b, hb, h⟩ := Option.bind_eq_some_iff.mp h
      obtain ⟨bs, hbs, h⟩ := Option.bind_eq_some_iff.mp h
      cases h
      exact .cons hb (ih hbs)
  · intro h
    induction h with
    | nil => rfl
    | cons hab _ ih =>
      rw [List.mapM_cons, hab, ih]
      rfl

theorem mem_of_mapM (h : items.mapM f = some out) {b : β} :
    b ∈ out ↔ ∃ a ∈ items, f a = some b := by
  induction mapM_some_iff.mp h with
  | nil => simp
  | cons hab hrest ih => simp [ih (mapM_some_iff.mpr hrest), hab, eq_comm]

theorem mapM_isSome_iff : (items.mapM f).isSome ↔ ∀ a ∈ items, (f a).isSome := by
  induction items with
  | nil => simp
  | cons a rest ih =>
    rw [List.mapM_cons, List.forall_mem_cons, ← ih]
    cases f a <;> cases rest.mapM f <;> simp

theorem mapM_eq_some {g : α → β} (h : ∀ a ∈ items, f a = some (g a)) :
    items.mapM f = some (items.map g) :=
  mapM_some_iff.mpr (List.forall₂_map_right_iff.mpr (List.forall₂_same.mpr h))

end KnowledgeEngine.Traversals
