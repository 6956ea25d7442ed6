import Mathlib.Data.List.Basic

/-!
Regular expressions with leftmost-first matching. The words matched at a position are listed
in the order in which a backtracking search tries them, and the first of them is the match.
Repetition is of single characters.
-/

namespace KnowledgeEngine.BacktrackRegex

open List

variable {α : Type*}

inductive Regex (α : Type*)
  | empty
  | one (p : α → Bool)
  | seq (a b : Regex α)
  | alt (a b : Regex α)
  | many (p : α → Bool)
  | wordBoundary

namespace Regex

def opt (r : Regex α) : Regex α := alt r empty

def concat : List (Regex α) → Regex α
  | [] => empty
  | [r] => r
  | r :: rest => seq r (concat rest)

def times (n : ℕ) (r : Regex α) : Regex α := concat (List.replicate n r)

def upTo : ℕ → Regex α → Regex α
  | 0, _ => empty
  | n + 1, r => opt (seq r (upTo n r))

def atLeast (n : ℕ) (p : α → Bool) : Regex α := seq (times n (one p)) (many p)

end Regex

open Regex

/-- A boundary between the text before, which is read backwards, and the text after. -/
def boundary (word : α → Bool) (before after : List α) : Bool :=
  before.head?.any word != after.head?.any word

/-- The word between two texts matches; the text before is read backwards. -/
def Matches (word : α → Bool) : Regex α → List α → List α → List α → Prop
  | .empty, _, w, _ => w = []
  | .one p, _, w, _ => ∃ c, w = [c] ∧ p c = true
  | .seq a b, before, w, after => ∃ u v, w = u ++ v ∧ Matches word a before u (v ++ after) ∧
      Matches word b (u.reverse ++ before) v after
  | .alt a b, before, w, after => Matches word a before w after ∨ Matches word b before w after
  | .many p, _, w, _ => ∀ c ∈ w, p c = true
  | .wordBoundary, before, w, after => w = [] ∧ boundary word before after = true

/-- The runs of a class at the start of a text, the longest first. -/
def runs (p : α → Bool) : List α → List (List α)
  | [] => [[]]
  | c :: text => if p c then (runs p text).map (c :: ·) ++ [[]] else [[]]

/-- The words matched at the start of the text, in the order in which they are tried. -/
def candidates (word : α → Bool) : Regex α → List α → List α → List (List α)
  | .empty, _, _ => [[]]
  | .one _, _, [] => []
  | .one p, _, c :: _ => if p c then [[c]] else []
  | .seq a b, before, text => (candidates word a before text).flatMap fun u =>
      (candidates word b (u.reverse ++ before) (text.drop u.length)).map (u ++ ·)
  | .alt a b, before, text => candidates word a before text ++ candidates word b before text
  | .many p, _, text => runs p text
  | .wordBoundary, before, text => if boundary word before text then [[]] else []

variable {p : α → Bool} {text w : List α}

theorem mem_runs : w ∈ runs p text ↔ ∃ after, text = w ++ after ∧ ∀ c ∈ w, p c = true := by
  induction text generalizing w with
  | nil => cases w <;> simp [runs]
  | cons c text ih =>
    cases w with
    | nil => by_cases hc : p c = true <;> simp [runs, hc]
    | cons d w =>
      by_cases hc : p c = true
      · simp only [runs, hc, if_true, mem_append, mem_map, ih, mem_singleton,
          reduceCtorEq, or_false, List.cons.injEq, cons_append, forall_mem_cons]
        constructor
        · rintro ⟨u, ⟨after, rfl, hu⟩, rfl, rfl⟩
          exact ⟨after, ⟨rfl, rfl⟩, hc, hu⟩
        · rintro ⟨after, ⟨rfl, rfl⟩, _, hw⟩
          exact ⟨w, ⟨after, rfl, hw⟩, rfl, rfl⟩
      · simp only [runs, hc, Bool.false_eq_true, if_false, mem_singleton, reduceCtorEq,
          cons_append, List.cons.injEq, forall_mem_cons, false_iff]
        rintro ⟨after, ⟨rfl, _⟩, hd, _⟩
        exact hc hd

variable {word : α → Bool} {r : Regex α} {before : List α}

/-- The search finds every match. -/
theorem mem_candidates :
    w ∈ candidates word r before text ↔
      ∃ after, text = w ++ after ∧ Matches word r before w after := by
  induction r generalizing before text w with
  | empty => simp +contextual [candidates, Matches]
  | one p =>
    cases text with
    | nil =>
      simp only [candidates, Matches, not_mem_nil, false_iff]
      rintro ⟨after, hnil, c, rfl, _⟩
      exact nomatch hnil
    | cons c text =>
      simp only [candidates, Matches]
      constructor
      · intro hw
        split at hw
        next hc =>
          rw [mem_singleton] at hw
          exact ⟨text, by rw [hw]; rfl, c, hw, hc⟩
        next => exact absurd hw not_mem_nil
      · rintro ⟨after, htext, d, rfl, hd⟩
        obtain ⟨rfl, rfl⟩ := cons_eq_cons.mp htext
        rw [if_pos hd]
        exact mem_singleton.mpr rfl
  | seq a b iha ihb =>
    simp only [candidates, Matches, mem_flatMap, mem_map, iha, ihb]
    constructor
    · rintro ⟨u, ⟨rest, rfl, hu⟩, v, ⟨after, hrest, hv⟩, rfl⟩
      rw [drop_left] at hrest
      subst hrest
      exact ⟨after, (append_assoc u v after).symm, u, v, rfl, hu, hv⟩
    · rintro ⟨after, rfl, u, v, rfl, hu, hv⟩
      exact ⟨u, ⟨v ++ after, append_assoc u v after, hu⟩, v,
        ⟨after, by rw [append_assoc, drop_left], hv⟩, rfl⟩
  | alt a b iha ihb =>
    simp only [candidates, Matches, mem_append, iha, ihb]
    constructor
    · rintro (⟨after, htext, h⟩ | ⟨after, htext, h⟩)
      · exact ⟨after, htext, Or.inl h⟩
      · exact ⟨after, htext, Or.inr h⟩
    · rintro ⟨after, htext, h | h⟩
      · exact Or.inl ⟨after, htext, h⟩
      · exact Or.inr ⟨after, htext, h⟩
  | many p => exact mem_runs
  | wordBoundary =>
    simp only [candidates, Matches]
    constructor
    · intro hw
      split at hw
      next hb =>
        rw [mem_singleton] at hw
        exact ⟨text, by rw [hw, nil_append], hw, hb⟩
      next => exact absurd hw not_mem_nil
    · rintro ⟨after, rfl, rfl, hb⟩
      rw [nil_append, if_pos hb]
      exact mem_singleton.mpr rfl

variable {after : List α}

/-- A word is matched between two texts exactly when the search lists it. -/
theorem matches_iff :
    Matches word r before w after ↔ w ∈ candidates word r before (w ++ after) := by
  rw [mem_candidates]
  constructor
  · intro h
    exact ⟨after, rfl, h⟩
  · rintro ⟨rest, hrest, h⟩
    rwa [append_cancel_left hrest]

instance [DecidableEq α] (word : α → Bool) (r : Regex α) (before w after : List α) :
    Decidable (Matches word r before w after) :=
  decidable_of_iff _ matches_iff.symm

namespace Regex

/-- No class has the character. -/
def avoids (c : α) : Regex α → Bool
  | empty => true
  | one p => !p c
  | seq a b => a.avoids c && b.avoids c
  | alt a b => a.avoids c && b.avoids c
  | many p => !p c
  | wordBoundary => true

/-- Some word of characters of the list may match. -/
def within (letters : List α) : Regex α → Bool
  | empty => true
  | one p => letters.any p
  | seq a b => a.within letters && b.within letters
  | alt a b => a.within letters || b.within letters
  | many _ => true
  | wordBoundary => true

/-- Matches do not depend on the text around them. -/
def plain : Regex α → Bool
  | empty => true
  | one _ => true
  | seq a b => a.plain && b.plain
  | alt a b => a.plain && b.plain
  | many _ => true
  | wordBoundary => false

/-- All characters of a match have the property. -/
def AllIn (P : α → Prop) : Regex α → Prop
  | empty => True
  | one p => ∀ c, p c = true → P c
  | seq a b => a.AllIn P ∧ b.AllIn P
  | alt a b => a.AllIn P ∧ b.AllIn P
  | many p => ∀ c, p c = true → P c
  | wordBoundary => True

/-- The matches of which all characters pass. -/
def restrict (q : α → Bool) : Regex α → Regex α
  | empty => empty
  | one p => one fun c => p c && q c
  | seq a b => seq (a.restrict q) (b.restrict q)
  | alt a b => alt (a.restrict q) (b.restrict q)
  | many p => many fun c => p c && q c
  | wordBoundary => wordBoundary

end Regex

theorem matches_all (word : α → Bool) (P : α → Prop) (r : Regex α) (before w after : List α)
    (hr : r.AllIn P) (h : Matches word r before w after) : ∀ c ∈ w, P c := by
  induction r generalizing before w after with
  | empty =>
    obtain rfl : w = [] := h
    simp
  | one p =>
    obtain ⟨c, rfl, hc⟩ := h
    simpa using hr c hc
  | seq a b iha ihb =>
    obtain ⟨u, v, rfl, hu, hv⟩ := h
    intro c hc
    rcases mem_append.mp hc with hc | hc
    · exact iha _ _ _ hr.1 hu c hc
    · exact ihb _ _ _ hr.2 hv c hc
  | alt a b iha ihb =>
    rcases h with h | h
    · exact iha _ _ _ hr.1 h
    · exact ihb _ _ _ hr.2 h
  | many p => exact fun c hc => hr c (h c hc)
  | wordBoundary => simp [h.1]

theorem allIn_of_avoids {c : α} (h : r.avoids c = true) : r.AllIn (· ≠ c) := by
  induction r with
  | empty => trivial
  | one p =>
    rintro d hd rfl
    simp [avoids, hd] at h
  | seq a b iha ihb =>
    have hboth := Bool.and_eq_true_iff.mp h
    exact ⟨iha hboth.1, ihb hboth.2⟩
  | alt a b iha ihb =>
    have hboth := Bool.and_eq_true_iff.mp h
    exact ⟨iha hboth.1, ihb hboth.2⟩
  | many p =>
    rintro d hd rfl
    simp [avoids, hd] at h
  | wordBoundary => trivial

theorem not_mem_of_avoids {c : α} (hr : r.avoids c = true) (h : Matches word r before w after) :
    c ∉ w := fun hc =>
  matches_all word (· ≠ c) r before w after (allIn_of_avoids hr) h c hc rfl

theorem within_of_matches (word : α → Bool) (letters : List α) (r : Regex α)
    (before w after : List α) (h : Matches word r before w after) (hw : w ⊆ letters) :
    r.within letters = true := by
  induction r generalizing before w after with
  | empty => rfl
  | one p =>
    obtain ⟨c, rfl, hc⟩ := h
    exact any_eq_true.mpr ⟨c, hw mem_cons_self, hc⟩
  | seq a b iha ihb =>
    obtain ⟨u, v, rfl, hu, hv⟩ := h
    obtain ⟨huw, hvw⟩ := append_subset.mp hw
    exact Bool.and_eq_true_iff.mpr ⟨iha _ _ _ hu huw, ihb _ _ _ hv hvw⟩
  | alt a b iha ihb =>
    rcases h with h | h
    · exact Bool.or_eq_true_iff.mpr (Or.inl (iha _ _ _ h hw))
    · exact Bool.or_eq_true_iff.mpr (Or.inr (ihb _ _ _ h hw))
  | many p => rfl
  | wordBoundary => rfl

theorem ne_nil_of_matches (word : α → Bool) (r : Regex α) (before w after : List α)
    (hr : r.within [] = false) (h : Matches word r before w after) : w ≠ [] := by
  rintro rfl
  rw [within_of_matches word [] r before [] after h (nil_subset _)] at hr
  exact nomatch hr

theorem matches_of_plain (before w after before' after' : List α) (hr : r.plain = true)
    (h : Matches word r before w after) : Matches word r before' w after' := by
  induction r generalizing before w after before' after' with
  | empty => exact h
  | one p => exact h
  | seq a b iha ihb =>
    have hboth := Bool.and_eq_true_iff.mp hr
    obtain ⟨u, v, rfl, hu, hv⟩ := h
    exact ⟨u, v, rfl, iha _ _ _ _ _ hboth.1 hu, ihb _ _ _ _ _ hboth.2 hv⟩
  | alt a b iha ihb =>
    have hboth := Bool.and_eq_true_iff.mp hr
    rcases h with h | h
    · exact Or.inl (iha _ _ _ _ _ hboth.1 h)
    · exact Or.inr (ihb _ _ _ _ _ hboth.2 h)
  | many p => exact h
  | wordBoundary => exact nomatch hr

theorem runs_restrict {q : α → Bool} :
    runs (fun c => p c && q c) text = (runs p text).filter (List.all · q) := by
  induction text with
  | nil => rfl
  | cons c text ih =>
    unfold runs
    by_cases hp : p c = true
    · by_cases hq : q c = true <;>
        simp [hp, hq, ih, filter_map, Function.comp_def, filter_cons]
    · simp [hp, filter_cons]

/-- Restricting the classes drops candidates and keeps the order of the others. -/
theorem candidates_restrict (word q : α → Bool) (r : Regex α) (before text : List α) :
    candidates word (r.restrict q) before text =
      (candidates word r before text).filter (List.all · q) := by
  induction r generalizing before text with
  | empty => rfl
  | one p =>
    cases text with
    | nil => rfl
    | cons c text => by_cases hp : p c = true <;> by_cases hq : q c = true <;>
        simp [candidates, restrict, hp, hq]
  | seq a b iha ihb =>
    simp only [candidates, restrict, iha, ihb, filter_flatMap]
    induction candidates word a before text with
    | nil => rfl
    | cons u rest ih =>
      by_cases hu : u.all q = true <;> simp [hu, ih, filter_map, Function.comp_def]
  | alt a b iha ihb => simp only [candidates, restrict, iha, ihb, filter_append]
  | many p => exact runs_restrict
  | wordBoundary => by_cases hb : boundary word before text = true <;>
      simp [candidates, restrict, hb, filter_cons]

theorem restrict_concat (q : α → Bool) (rs : List (Regex α)) :
    (Regex.concat rs).restrict q = Regex.concat (rs.map (restrict q)) := by
  induction rs with
  | nil => rfl
  | cons r rs ih =>
    cases rs with
    | nil => rfl
    | cons s rs => exact congrArg (seq (r.restrict q)) ih

/-- The characters outside of a list. -/
def without [DecidableEq α] (cs : List α) (c : α) : Bool := !cs.contains c

variable {cs : List α}

theorem all_without [DecidableEq α] : w.all (without cs) = true ↔ ∀ c ∈ cs, c ∉ w := by
  simp only [without, all_eq_true, Bool.not_eq_true', contains_eq_mem,
    decide_eq_false_iff_not]
  exact ⟨fun h c hc hw => h c hw hc, fun h c hw hc => h c hc hw⟩

theorem class_without [DecidableEq α] (h : ∀ c ∈ cs, (!p c) = true) :
    (fun c => p c && without cs c) = p := by
  funext c
  by_cases hc : c ∈ cs
  · have hp : p c = false := by simpa using h c hc
    simp [hp]
  · simp [without, hc]

/-- A pattern that avoids the characters is not restricted by them. -/
theorem restrict_without [DecidableEq α] (h : ∀ c ∈ cs, r.avoids c = true) :
    r.restrict (without cs) = r := by
  induction r with
  | empty => rfl
  | one p => exact congrArg one (class_without h)
  | seq a b iha ihb =>
    have hboth := fun c hc => Bool.and_eq_true_iff.mp (h c hc)
    rw [restrict, iha fun c hc => (hboth c hc).1, ihb fun c hc => (hboth c hc).2]
  | alt a b iha ihb =>
    have hboth := fun c hc => Bool.and_eq_true_iff.mp (h c hc)
    rw [restrict, iha fun c hc => (hboth c hc).1, ihb fun c hc => (hboth c hc).2]
  | many p => exact congrArg many (class_without h)
  | wordBoundary => rfl

/-- The match at the start of the text. -/
def firstMatch (word : α → Bool) (r : Regex α) (before text : List α) : Option (List α) :=
  (candidates word r before text).head?

theorem not_matches_of_firstMatch (h : firstMatch word r before (w ++ after) = none) :
    ¬ Matches word r before w after := by
  rw [matches_iff, List.head?_eq_none_iff.mp h]
  exact not_mem_nil

theorem firstMatch_matches (word : α → Bool) (r : Regex α) (before text w : List α)
    (h : firstMatch word r before text = some w) :
    ∃ after, text = w ++ after ∧ Matches word r before w after :=
  mem_candidates.mp (mem_of_head? h)

theorem find_eq {q : α → Bool} {l : List α} (hp : ∀ x, l.find? p = some x → q x = true)
    (hq : ∀ x, l.find? q = some x → p x = true) : l.find? p = l.find? q := by
  induction l with
  | nil => rfl
  | cons x l ih =>
    by_cases hpx : p x = true
    · have hqx := hp x (List.find?_cons_of_pos hpx)
      rw [List.find?_cons_of_pos hpx, List.find?_cons_of_pos hqx]
    · have hqx : ¬ q x = true := fun hqx => hpx (hq x (List.find?_cons_of_pos hqx))
      rw [List.find?_cons_of_neg hpx] at hp ⊢
      rw [List.find?_cons_of_neg hqx] at hq ⊢
      exact ih hp hq

/-- Two restrictions have the same match when the match of each passes the other. -/
theorem firstMatch_restrict_eq (word p q : α → Bool) (r : Regex α) (before text : List α)
    (hp : ∀ w, firstMatch word (r.restrict p) before text = some w → w.all q = true)
    (hq : ∀ w, firstMatch word (r.restrict q) before text = some w → w.all p = true) :
    firstMatch word (r.restrict p) before text = firstMatch word (r.restrict q) before text := by
  simp only [firstMatch, candidates_restrict, List.head?_filter] at hp hq ⊢
  exact find_eq hp hq

end KnowledgeEngine.BacktrackRegex
