import Mathlib.Order.Lattice

/-!
Lexicographic order by a list of sort terms, each a value and a direction. A term
that ties whenever the terms before it tie can be dropped; a list of keyed groups of
terms can be thinned to the first group of each key when every later group ties with
the first one of its key. Two sorted arrangements of the same rows agree when the
terms tell all rows apart.
-/

namespace KnowledgeEngine.LexOrder

open List

structure Term (α β : Type*) where
  value : α → β
  desc : Bool

variable {α β : Type*} [LinearOrder β]

def Term.lt (t : Term α β) (a b : α) : Prop :=
  if t.desc then t.value b < t.value a else t.value a < t.value b

def precedes : List (Term α β) → α → α → Prop
  | [], _, _ => False
  | t :: rest, a, b => t.lt a b ∨ t.value a = t.value b ∧ precedes rest a b

def Ties (terms : List (Term α β)) (a b : α) : Prop := ∀ t ∈ terms, t.value a = t.value b

/-- No row stands before one that precedes it. -/
def SortedBy (terms : List (Term α β)) (rows : List α) : Prop :=
  rows.Pairwise fun a b => ¬ precedes terms b a

theorem Term.lt_or_eq_or_lt (t : Term α β) (a b : α) :
    t.lt a b ∨ t.value a = t.value b ∨ t.lt b a := by
  unfold Term.lt
  rcases lt_trichotomy (t.value a) (t.value b) with hlt | heq | hgt
  · cases t.desc <;> simp [hlt]
  · exact Or.inr (Or.inl heq)
  · cases t.desc <;> simp [hgt]

theorem Term.lt_asymm (t : Term α β) (a b : α) (h : t.lt a b) :
    ¬ t.lt b a ∧ t.value a ≠ t.value b := by
  unfold Term.lt at *
  cases hdesc : t.desc with
  | false =>
    simp only [hdesc] at h ⊢
    exact ⟨not_lt_of_gt h, ne_of_lt h⟩
  | true =>
    simp only [hdesc, if_true] at h ⊢
    exact ⟨not_lt_of_gt h, ne_of_gt h⟩

theorem precedes_append (xs ys : List (Term α β)) (a b : α) :
    precedes (xs ++ ys) a b ↔ precedes xs a b ∨ Ties xs a b ∧ precedes ys a b := by
  induction xs with
  | nil => simp [precedes, Ties]
  | cons t rest ih =>
    have hties : Ties (t :: rest) a b ↔ t.value a = t.value b ∧ Ties rest a b :=
      forall_mem_cons
    rw [cons_append, precedes, precedes, ih, hties]
    rw [and_or_left, or_assoc, and_assoc]

variable {a b : α}

omit [LinearOrder β] in
theorem ties_append {xs ys : List (Term α β)} :
    Ties (xs ++ ys) a b ↔ Ties xs a b ∧ Ties ys a b := forall_mem_append

variable {terms : List (Term α β)}

theorem not_precedes_of_ties (h : Ties terms a b) : ¬ precedes terms a b := by
  induction terms with
  | nil => exact id
  | cons t rest ih =>
    rintro (hlt | ⟨_, hrest⟩)
    · exact (t.lt_asymm a b hlt).2 (h t mem_cons_self)
    · exact ih (fun u hu => h u (mem_cons_of_mem _ hu)) hrest

/-- A group of terms that ties whenever the terms before it do. -/
theorem precedes_drop (xs ys zs : List (Term α β)) (h : Ties xs a b → Ties ys a b) :
    precedes (xs ++ (ys ++ zs)) a b ↔ precedes (xs ++ zs) a b := by
  rw [precedes_append, precedes_append, precedes_append]
  constructor
  · rintro (hxs | ⟨hties, hys | ⟨_, hzs⟩⟩)
    · exact Or.inl hxs
    · exact absurd hys (not_precedes_of_ties (h hties))
    · exact Or.inr ⟨hties, hzs⟩
  · rintro (hxs | ⟨hties, hzs⟩)
    · exact Or.inl hxs
    · exact Or.inr ⟨hties, Or.inr ⟨h hties, hzs⟩⟩

theorem precedes_trichotomy (terms : List (Term α β)) (a b : α) :
    precedes terms a b ∨ Ties terms a b ∨ precedes terms b a := by
  induction terms with
  | nil => exact Or.inr (Or.inl (by simp [Ties]))
  | cons t rest ih =>
    rcases t.lt_or_eq_or_lt a b with hlt | heq | hgt
    · exact Or.inl (Or.inl hlt)
    · rcases ih with hab | hties | hba
      · exact Or.inl (Or.inr ⟨heq, hab⟩)
      · exact Or.inr (Or.inl (forall_mem_cons.mpr ⟨heq, hties⟩))
      · exact Or.inr (Or.inr (Or.inr ⟨heq.symm, hba⟩))
    · exact Or.inr (Or.inr (Or.inl hgt))

theorem precedes_asymm (terms : List (Term α β)) (a b : α) (h : precedes terms a b) :
    ¬ precedes terms b a := by
  induction terms with
  | nil => exact absurd h id
  | cons t rest ih =>
    rcases h with hlt | ⟨heq, hrest⟩
    · rintro (hgt | ⟨heq, _⟩)
      · exact (t.lt_asymm a b hlt).1 hgt
      · exact (t.lt_asymm a b hlt).2 heq.symm
    · rintro (hgt | ⟨_, hrest'⟩)
      · exact (t.lt_asymm b a hgt).2 heq.symm
      · exact ih hrest hrest'

theorem precedes_flip {values : List (α → β)} :
    precedes (values.map fun value => ⟨value, true⟩) a b ↔
      precedes (values.map fun value => ⟨value, false⟩) b a := by
  induction values with
  | nil => rfl
  | cons value rest ih =>
    rw [map_cons, map_cons, precedes, precedes, ih, eq_comm]
    rfl

instance decidablePrecedes (terms : List (Term α β)) (a b : α) :
    Decidable (precedes terms a b) :=
  match terms with
  | [] => inferInstanceAs (Decidable False)
  | t :: rest =>
    have := decidablePrecedes rest a b
    inferInstanceAs (Decidable ((if t.desc then _ else _) ∨ t.value a = t.value b ∧ _))

instance (terms : List (Term α β)) (rows : List α) : Decidable (SortedBy terms rows) :=
  inferInstanceAs (Decidable (rows.Pairwise _))

theorem Term.lt_split (t : Term α β) (a b c : α) (h : t.lt a c) : t.lt a b ∨ t.lt b c := by
  unfold Term.lt at *
  cases hdesc : t.desc with
  | false =>
    simp only [hdesc] at h ⊢
    exact (lt_or_ge (t.value a) (t.value b)).imp_right fun hle => lt_of_le_of_lt hle h
  | true =>
    simp only [hdesc, if_true] at h ⊢
    exact (lt_or_ge (t.value b) (t.value a)).imp_right fun hle => lt_of_lt_of_le h hle

/-- A row between two others in no order with them leaves those in no order. -/
theorem precedes_split {c : α} (h : precedes terms a c) :
    precedes terms a b ∨ precedes terms b c := by
  induction terms with
  | nil => exact absurd h id
  | cons t rest ih =>
    rcases h with hlt | ⟨heq, hrest⟩
    · exact (t.lt_split a b c hlt).imp Or.inl Or.inl
    · rcases t.lt_or_eq_or_lt a b with hlt | hab | hgt
      · exact Or.inl (Or.inl hlt)
      · exact (ih hrest).imp (fun hab' => Or.inr ⟨hab, hab'⟩)
          (fun hbc => Or.inr ⟨hab.symm.trans heq, hbc⟩)
      · refine Or.inr (Or.inl ?_)
        unfold Term.lt at hgt ⊢
        rwa [← heq]

/-- The rows sorted, ties in the order given. -/
def sortRows (terms : List (Term α β)) (rows : List α) : List α :=
  rows.mergeSort fun a b => !decide (precedes terms b a)

theorem sortRows_sortedBy {rows : List α} : SortedBy terms (sortRows terms rows) := by
  have htrans : ∀ a b c, (!decide (precedes terms b a)) = true →
      (!decide (precedes terms c b)) = true → (!decide (precedes terms c a)) = true := by
    intro a b c hab hbc
    simp only [Bool.not_eq_true', decide_eq_false_iff_not] at hab hbc ⊢
    exact fun hca => (precedes_split hca).elim hbc hab
  have htotal : ∀ a b, (!decide (precedes terms b a) || !decide (precedes terms a b)) = true := by
    intro a b
    simp only [Bool.or_eq_true, Bool.not_eq_true', decide_eq_false_iff_not]
    by_cases hba : precedes terms b a
    · exact Or.inr (precedes_asymm terms b a hba)
    · exact Or.inl hba
  exact (pairwise_mergeSort htrans htotal rows).imp fun h => by simpa using h

theorem sortedBy_unique (terms : List (Term α β)) (rows rows' : List α) (hperm : rows.Perm rows')
    (hsorted : SortedBy terms rows) (hsorted' : SortedBy terms rows')
    (hties : ∀ a ∈ rows, ∀ b ∈ rows, Ties terms a b → a = b) : rows = rows' := by
  refine List.Perm.eq_of_pairwise ?_ hsorted hsorted' hperm
  intro a b ha hb hab hba
  rcases precedes_trichotomy terms a b with hlt | htie | hgt
  · exact absurd hlt hba
  · exact hties a ha b (hperm.mem_iff.mpr hb) htie
  · exact absurd hgt hab

/-- Behind a row stand exactly the rows it precedes. -/
theorem filter_precedes (terms : List (Term α β)) (before rest : List α) (row : α)
    (hsorted : SortedBy terms (before ++ row :: rest))
    (happart : (before ++ row :: rest).Pairwise fun a b => ¬ Ties terms a b) :
    (before ++ row :: rest).filter (fun b => decide (precedes terms row b)) = rest := by
  obtain ⟨_, htail, hbefore⟩ := pairwise_append.mp hsorted
  have hrest := (pairwise_cons.mp htail).1
  have happart' := (pairwise_cons.mp (pairwise_append.mp happart).2.1).1
  have hnone : before.filter (fun b => decide (precedes terms row b)) = [] := by
    rw [filter_eq_nil_iff]
    intro a ha
    simpa using hbefore a ha row mem_cons_self
  have hself : ¬ precedes terms row row := fun h => precedes_asymm terms row row h h
  have hall : rest.filter (fun b => decide (precedes terms row b)) = rest := by
    rw [filter_eq_self]
    intro b hb
    rw [decide_eq_true_iff]
    rcases precedes_trichotomy terms row b with hlt | htie | hgt
    · exact hlt
    · exact absurd htie (happart' b hb)
    · exact absurd hgt (hrest b hb)
  rw [filter_append, filter_cons_of_neg (by simpa using hself), hnone, hall,
    nil_append]

section KeepFirst

variable {κ δ : Type*} [DecidableEq κ]

/-- The first entry of each key, in order. -/
def keepFirst (seen : List κ) : List (κ × δ) → List δ
  | [] => []
  | (k, d) :: rest =>
    if k ∈ seen then keepFirst seen rest else d :: keepFirst (k :: seen) rest

theorem keepFirst_precedes_from (terms : δ → List (Term α β)) (a b : α)
    (entries : List (κ × δ)) (seen : List κ) (before : List (Term α β))
    (hseen : ∀ e ∈ entries, e.1 ∈ seen → Ties before a b → Ties (terms e.2) a b)
    (hties : entries.Pairwise fun x y => x.1 = y.1 → Ties (terms x.2) a b → Ties (terms y.2) a b) :
    precedes (before ++ (keepFirst seen entries).flatMap terms) a b ↔
      precedes (before ++ entries.flatMap fun e => terms e.2) a b := by
  induction entries generalizing seen before with
  | nil => rfl
  | cons e rest ih =>
    obtain ⟨k, d⟩ := e
    obtain ⟨hfirst, hrest⟩ := pairwise_cons.mp hties
    rw [keepFirst, flatMap_cons]
    by_cases hk : k ∈ seen
    · rw [if_pos hk, precedes_drop before (terms d) _ (hseen (k, d) mem_cons_self hk)]
      exact ih seen before (fun e he => hseen e (mem_cons_of_mem _ he)) hrest
    · rw [if_neg hk, flatMap_cons, ← append_assoc, ← append_assoc]
      apply ih (k :: seen) (before ++ terms d) _ hrest
      intro e he hkey hbefore
      obtain ⟨hbefore, hd⟩ := ties_append.mp hbefore
      rcases mem_cons.mp hkey with hsame | hkey
      · exact hfirst e he hsame.symm hd
      · exact hseen e (mem_cons_of_mem _ he) hkey hbefore

/-- Thinning to the first entry of each key keeps the order when later entries of a
key tie with its first one. -/
theorem keepFirst_precedes (terms : δ → List (Term α β)) (a b : α) (entries : List (κ × δ))
    (hties : entries.Pairwise fun x y => x.1 = y.1 → Ties (terms x.2) a b → Ties (terms y.2) a b) :
    precedes ((keepFirst [] entries).flatMap terms) a b ↔
      precedes (entries.flatMap fun e => terms e.2) a b :=
  keepFirst_precedes_from terms a b entries [] [] (fun _ _ h => by cases h) hties

end KeepFirst

end KnowledgeEngine.LexOrder
