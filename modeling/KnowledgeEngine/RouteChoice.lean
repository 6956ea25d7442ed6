import KnowledgeEngine.FirstMaximum
import KnowledgeEngine.JsonApi

/-!
Which route a request takes when several templates match it (Config.MatchRoute). The loop
keeps the first template with the most literal segments. That choice is independent of
the order of the table, and prefers the literal at the first difference, exactly when one
of the matching templates has the most literals alone and no other has the literal where
the two first differ.
-/

namespace KnowledgeEngine.RouteChoice

open FirstMaximum JsonApi StringText

def template (e : RouteEntry) : List (List UInt8) := splitPath (bytesOf e.PathTemplate)

def literals (tmpl : List (List UInt8)) : ℕ := tmpl.countP fun seg => !isParam seg

/-- A template with its parameters' names taken away. -/
def shape (tmpl : List (List UInt8)) : List (Option (List UInt8)) :=
  tmpl.map fun seg => if isParam seg then none else some seg

/-- At the first position where two templates differ, the first has a literal and the
second a parameter. -/
def LiteralFirst : List (Option (List UInt8)) → List (Option (List UInt8)) → Prop
  | some a :: s, some b :: t => a = b ∧ LiteralFirst s t
  | none :: s, none :: t => LiteralFirst s t
  | some _ :: _, none :: _ => True
  | _, _ => False

instance LiteralFirst.decide : (s t : List (Option (List UInt8))) → Decidable (LiteralFirst s t)
  | some _ :: s, some _ :: t =>
    have := LiteralFirst.decide s t
    inferInstanceAs (Decidable (_ ∧ _))
  | none :: s, none :: t => LiteralFirst.decide s t
  | some _ :: _, none :: _ => isTrue trivial
  | [], _ => isFalse id
  | _ :: _, [] => isFalse (by unfold LiteralFirst; simp)
  | none :: _, some _ :: _ => isFalse id

/-- Entries of one method have templates that differ in more than the names of parameters. -/
def DistinctTemplates (routes : List RouteEntry) : Prop :=
  routes.Pairwise fun e e' => e.Method = e'.Method → shape (template e) ≠ shape (template e')

/-- The score of an entry in the loop: the literals of a template that matches. -/
def score (method : String) (segs : List (List UInt8)) (e : RouteEntry) : Option ℕ :=
  if equalFold e.Method method then matchTemplate (template e) segs else none

def Matches (c : Config) (method : String) (path : List UInt8) (e : RouteEntry) : Prop :=
  (c.BasePath = "" ∨ bytesOf c.BasePath <+: path) ∧ e ∈ c.Routes ∧
    (score method (splitPath path) e).isSome

theorem better_eq_keep (method : String) (segs : List (List UInt8)) :
    better method segs = keep (score method segs) := by
  funext best e
  unfold better keep score template
  by_cases hmethod : equalFold e.Method method
  · rw [if_pos hmethod, if_pos hmethod]
    cases hmatch : matchTemplate (splitPath (bytesOf e.PathTemplate)) segs <;> cases best <;> rfl
  · rw [if_neg hmethod, if_neg hmethod]

theorem matchTemplate_literals {tmpl segs : List (List UInt8)} {n : ℕ}
    (h : matchTemplate tmpl segs = some n) : n = literals tmpl := by
  induction tmpl generalizing segs n with
  | nil =>
    cases segs with
    | nil => exact (Option.some.inj h).symm
    | cons seg segs => exact nomatch h
  | cons t tmpl ih =>
    cases segs with
    | nil => exact nomatch h
    | cons seg segs =>
      rw [matchTemplate] at h
      by_cases hparam : isParam t
      · rw [if_pos hparam] at h
        rw [ih h, literals, literals, List.countP_cons_of_neg (by simpa using hparam)]
      · rw [if_neg hparam] at h
        split at h
        · obtain ⟨m, hm, rfl⟩ := Option.map_eq_some_iff.mp h
          rw [ih hm, literals, literals, List.countP_cons_of_pos (by simpa using hparam)]
        · exact nomatch h

variable {c : Config} {method : String} {path : List UInt8} {e : RouteEntry}

theorem score_literals {segs : List (List UInt8)} {n : ℕ} (h : score method segs e = some n) :
    n = literals (template e) := by
  unfold score at h
  split at h
  · exact matchTemplate_literals h
  · exact nomatch h

theorem matchRoute_eq (h : c.BasePath = "" ∨ bytesOf c.BasePath <+: path) :
    c.matchRoute method path =
      (firstMax (score method (splitPath path)) c.Routes).map Prod.fst := by
  rw [Config.matchRoute, better_eq_keep, if_neg (by tauto)]
  rfl

theorem matchRoute_outside (h : ¬ (c.BasePath = "" ∨ bytesOf c.BasePath <+: path)) :
    c.matchRoute method path = none := by
  rw [Config.matchRoute, if_pos (by tauto)]

theorem matches_of_matchRoute (h : c.matchRoute method path = some e) :
    Matches c method path e := by
  by_cases hbase : c.BasePath = "" ∨ bytesOf c.BasePath <+: path
  · rw [matchRoute_eq hbase] at h
    obtain ⟨⟨_, n⟩, hmax, rfl⟩ := Option.map_eq_some_iff.mp h
    have hbest := isBest_firstMax (score method (splitPath path)) c.Routes
    rw [hmax] at hbest
    exact ⟨hbase, hbest.1, by simp [hbest.2.1]⟩
  · rw [matchRoute_outside hbase] at h
    exact nomatch h

theorem matchRoute_of_matches (h : Matches c method path e) :
    ∃ best, c.matchRoute method path = some best := by
  obtain ⟨hbase, hmem, hscore⟩ := h
  rw [matchRoute_eq hbase]
  have hbest := isBest_firstMax (score method (splitPath path)) c.Routes
  cases hmax : firstMax (score method (splitPath path)) c.Routes with
  | none =>
    rw [hmax] at hbest
    rw [hbest e hmem] at hscore
    exact nomatch hscore
  | some best => exact ⟨best.1, rfl⟩

theorem matchRoute_eq_none (h : ∀ e, ¬ Matches c method path e) :
    c.matchRoute method path = none := by
  cases hroute : c.matchRoute method path with
  | none => rfl
  | some e => exact absurd (matches_of_matchRoute hroute) (h e)

theorem literalFirst_irrefl (s : List (Option (List UInt8))) : ¬ LiteralFirst s s := by
  induction s with
  | nil => exact id
  | cons x s ih =>
    cases x with
    | none => exact ih
    | some a => exact fun h => ih h.2

/-- The same route for every order of the table, and never one that another matching
template beats at their first difference. -/
structure Settled (c : Config) (method : String) (path : List UInt8) : Prop where
  stable : ∀ routes : List RouteEntry, routes.Perm c.Routes →
    Config.matchRoute { c with Routes := routes } method path = c.matchRoute method path
  literal : ∀ e e', Matches c method path e → Matches c method path e' →
    LiteralFirst (shape (template e)) (shape (template e')) →
    c.matchRoute method path ≠ some e'

/-- One matching template has more literals than each other one, and at their first
difference the other does not have the literal. -/
def HasWinner (c : Config) (method : String) (path : List UInt8) : Prop :=
  ∃ e, Matches c method path e ∧ ∀ e', Matches c method path e' → e' ≠ e →
    literals (template e') < literals (template e) ∧
      ¬ LiteralFirst (shape (template e')) (shape (template e))

/-- The chosen route scores highest alone exactly when every order of the table chooses it. -/
theorem stable_iff (h : Matches c method path e) :
    (∀ routes : List RouteEntry, routes.Perm c.Routes →
      Config.matchRoute { c with Routes := routes } method path = some e) ↔
      ∀ e', Matches c method path e' → e' ≠ e →
        literals (template e') < literals (template e) := by
  obtain ⟨hbase, hmem, hscore⟩ := h
  obtain ⟨n, hn⟩ := Option.isSome_iff_exists.mp hscore
  have hroute (routes : List RouteEntry) :
      Config.matchRoute { c with Routes := routes } method path =
        (firstMax (score method (splitPath path)) routes).map Prod.fst :=
    matchRoute_eq hbase
  simp only [hroute]
  rw [firstMax_perm_iff]
  constructor
  · rintro ⟨-, k, hk, hlt⟩ e' ⟨-, hmem', hscore'⟩ hne
    obtain ⟨m, hm⟩ := Option.isSome_iff_exists.mp hscore'
    rw [← score_literals hm, ← score_literals hk]
    exact hlt e' hmem' hne m hm
  · intro hlt
    refine ⟨hmem, n, hn, ?_⟩
    intro e' hmem' hne m hm
    rw [score_literals hm, score_literals hn]
    exact hlt e' ⟨hbase, hmem', by simp [hm]⟩ hne

theorem settled_iff (c : Config) (method : String) (path : List UInt8) :
    Settled c method path ↔
      ((∃ e, Matches c method path e) → HasWinner c method path) := by
  constructor
  · rintro ⟨hstable, hliteral⟩ ⟨e₀, he₀⟩
    obtain ⟨e, he⟩ := matchRoute_of_matches he₀
    have hmatches := matches_of_matchRoute he
    refine ⟨e, hmatches, ?_⟩
    intro e' hmatches' hne
    refine ⟨(stable_iff hmatches).mp (fun routes hperm => ?_) e' hmatches' hne, ?_⟩
    · rw [hstable routes hperm, he]
    · intro hfirst
      exact hliteral e' e hmatches' hmatches hfirst he
  · intro h
    by_cases hsome : ∃ e, Matches c method path e
    · obtain ⟨e, hmatches, hwins⟩ := h hsome
      have hall := (stable_iff hmatches).mpr fun e' he' hne => (hwins e' he' hne).1
      have hchosen : c.matchRoute method path = some e := hall c.Routes (List.Perm.refl _)
      refine ⟨fun routes hperm => by rw [hall routes hperm, hchosen], ?_⟩
      intro e₁ e₂ h₁ h₂ hfirst hsame
      obtain rfl : e = e₂ := Option.some.inj (hchosen.symm.trans hsame)
      by_cases hne : e₁ = e
      · subst hne
        exact literalFirst_irrefl _ hfirst
      · exact (hwins e₁ h₁ hne).2 hfirst
    · refine ⟨fun routes hperm => ?_, fun e _ he => absurd ⟨e, he⟩ hsome⟩
      rw [matchRoute_eq_none fun e he => hsome ⟨e, he⟩]
      apply matchRoute_eq_none
      rintro e ⟨hbase, hmem, hscore⟩
      exact hsome ⟨e, hbase, hperm.mem_iff.mp hmem, hscore⟩

def entry (template : String) : RouteEntry :=
  ⟨"GET", template, .action, template, "", "", "", false⟩

def literalFront : RouteEntry := entry "/a/\x7bid\x7d/\x7bkey\x7d"

def literalBack : RouteEntry := entry "/\x7bid\x7d/b/c"

def tied : Config := ⟨"", [entry "/a/\x7bid\x7d", entry "/\x7bid\x7d/b"]⟩

def crossed : Config := ⟨"", [literalFront, literalBack]⟩

theorem tied_routes : tied.matchRoute "GET" (bytesOf "/a/b") = some (entry "/a/\x7bid\x7d") ∧
    Config.matchRoute { tied with Routes := tied.Routes.reverse } "GET" (bytesOf "/a/b") =
      some (entry "/\x7bid\x7d/b") := by
  decide +kernel

theorem crossed_route : crossed.matchRoute "GET" (bytesOf "/a/b/c") = some literalBack ∧
    LiteralFirst (shape (template literalFront)) (shape (template literalBack)) ∧
    (score "GET" (splitPath (bytesOf "/a/b/c")) literalFront).isSome := by
  decide +kernel

/-- Of two templates with one literal each, the first in the table is taken. Of two that
first differ at the first segment, the one with the parameter there is taken. -/
theorem table_order_decides : DistinctTemplates tied.Routes ∧ DistinctTemplates crossed.Routes ∧
    ¬ Settled tied "GET" (bytesOf "/a/b") ∧ ¬ Settled crossed "GET" (bytesOf "/a/b/c") := by
  refine ⟨by unfold DistinctTemplates; decide +kernel, by unfold DistinctTemplates; decide +kernel,
    ?_, ?_⟩
  · intro h
    have hsame := h.stable _ (List.reverse_perm tied.Routes)
    rw [tied_routes.1, tied_routes.2] at hsame
    exact absurd hsame (by decide)
  · intro h
    obtain ⟨hroute, hfirst, hscore⟩ := crossed_route
    exact h.literal literalFront literalBack ⟨Or.inl rfl, List.mem_cons_self, hscore⟩
      (matches_of_matchRoute hroute) hfirst hroute

end KnowledgeEngine.RouteChoice
