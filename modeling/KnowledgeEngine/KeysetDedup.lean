import KnowledgeEngine.KeysetOrder
import Mathlib.Data.List.Nodup

/-!
When keeping one sort column per signature leaves the order alone. A signature forgets
the keys of a join, the values of an ordinal and whether a column is ranked at all, so a
later field may be dropped although it sorts differently. The order is the one asked
for, on every table and for every list of sort fields, exactly when no two fields of one
signature differ in a way the first does not decide.
-/

namespace KnowledgeEngine.KeysetDedup

open CoreTypes LexOrder KeysetOrder List

/-- What a field sorts by. -/
def fieldKind (r : Resolvers) (field : String) : SortKind :=
  match r.joinOf field with
  | some j => .join j
  | none =>
    match r.derivedOf field with
    | some d => .derived d
    | none =>
      if r.ordinalOf field = [] then .plain (r.resolve field)
      else .ordinal (r.resolve field) (r.ordinalOf field)

def signature (field : String) : SortKind → String
  | .join j => joinSignature j
  | .derived _ => derivedSignature field
  | .ordinal column _ => column
  | .plain column => column

/-- A column of a joined table that can hold a value other than NULL in a row the join
finds. -/
def Live (j : JoinTarget) (column : String) : Prop :=
  column ∈ j.Columns ∧
    ¬ (j.TargetSoftDeletes ∧ (column = "deleted_at" ∨ j.TargetKey = "deleted_at"))

def SameLookup (j j' : JoinTarget) : Prop :=
  j.Table = j'.Table ∧ j.LocalKey = j'.LocalKey ∧ j.TargetKey = j'.TargetKey ∧
    j.TargetSoftDeletes = j'.TargetSoftDeletes

/-- Rows that agree on the first kind of value agree on the second. -/
def Covers : SortKind → SortKind → Prop
  | .plain column, .plain column' => column = column'
  | .plain column, .ordinal column' _ => column = column'
  | .ordinal column values, .ordinal column' values' =>
    column = column' ∧ ∀ s ∈ values', s ∈ values
  | .join j, .join j' =>
    (∀ c, ¬ Live j' c) ∨ SameLookup j j' ∧ (Live j j.TargetKey ∨ ∀ c, Live j' c → Live j c)
  | .derived d, .derived d' => d = d'
  | _, _ => False

/-- A field is covered by every field of its signature, and so are the tiebreaker and
the id. -/
structure DedupSafe (r : Resolvers) (tiebreaker : String) : Prop where
  fields : ∀ f g, signature f (fieldKind r f) = signature g (fieldKind r g) →
    Covers (fieldKind r f) (fieldKind r g)
  last : ∀ f, ∀ c ∈ [tiebreakerColumn tiebreaker, tiebreakerID],
    signature f (fieldKind r f) = c → Covers (fieldKind r f) (.plain c)

def Agree (w : World) (kind : SortKind) (a b : Record) : Prop :=
  ∀ value ∈ sortValues w kind, value a = value b

theorem sortColumn_spec (r : Resolvers) (of : OrderField) :
    (sortColumn r of).1 = signature of.Field (fieldKind r of.Field) ∧
      (sortColumn r of).2.kind = fieldKind r of.Field ∧ (sortColumn r of).2.Desc = of.Desc := by
  unfold sortColumn fieldKind
  cases r.joinOf of.Field with
  | some j => exact ⟨rfl, rfl, rfl⟩
  | none =>
    cases r.derivedOf of.Field with
    | some d => exact ⟨rfl, rfl, rfl⟩
    | none =>
      by_cases h : r.ordinalOf of.Field = [] <;>
        simp [h, signature, KeysetColumn.kind, plainColumn]

theorem ties_orderTerms (w : World) (k : KeysetColumn) (a b : Record) :
    Ties (orderTerms w k) a b ↔ Agree w k.kind a b := forall_mem_map

variable {w : World} {j : JoinTarget} {a : Record} {c : String} {b : Record} {v : Nullable}

theorem joinValue_hidden {row : Record}
    (h : j.TargetSoftDeletes ∧ (c = "deleted_at" ∨ j.TargetKey = "deleted_at")) :
    joinValue w j c row = ⊤ := by
  unfold joinValue
  cases hfind : (w.tables j.Table).find?
      (matching j.TargetKey (row j.LocalKey) j.TargetSoftDeletes) with
  | none => rfl
  | some t =>
    have hmatch := List.find?_some hfind
    simp only [matching, h.1, Bool.and_eq_true, decide_eq_true_eq, Bool.not_true,
      Bool.false_or] at hmatch
    obtain ⟨⟨hvalue, hkey⟩, hdeleted⟩ := hmatch
    rcases h.2 with rfl | htarget
    · exact hdeleted
    · rw [htarget, hdeleted] at hkey
      exact absurd hkey.symm hvalue

theorem joinValue_local (h : a j.LocalKey = b j.LocalKey) :
    joinValue w j c a = joinValue w j c b := by
  unfold joinValue
  rw [h]

theorem joinValue_congr {j' : JoinTarget} {row : Record} (h : SameLookup j j') :
    joinValue w j c row = joinValue w j' c row := by
  obtain ⟨htable, hlocal, htarget, hsoft⟩ := h
  unfold joinValue
  rw [htable, hlocal, htarget, hsoft]

/-- The key a join finds by tells apart the rows it finds different rows for. -/
theorem joinValue_key (c : String) (h : joinValue w j j.TargetKey a = joinValue w j j.TargetKey b) :
    joinValue w j c a = joinValue w j c b := by
  have hfound (row : Record) : joinValue w j j.TargetKey row = ⊤ ∧ joinValue w j c row = ⊤ ∨
      joinValue w j j.TargetKey row = row j.LocalKey ∧ row j.LocalKey ≠ ⊤ := by
    unfold joinValue
    cases hfind : (w.tables j.Table).find?
        (matching j.TargetKey (row j.LocalKey) j.TargetSoftDeletes) with
    | none => exact Or.inl ⟨rfl, rfl⟩
    | some t =>
      have hmatch := List.find?_some hfind
      simp only [matching, Bool.and_eq_true, decide_eq_true_eq] at hmatch
      exact Or.inr ⟨hmatch.1.2, hmatch.1.1⟩
  rcases hfound a with ⟨hkeya, hcola⟩ | ⟨hkeya, hnulla⟩ <;>
    rcases hfound b with ⟨hkeyb, hcolb⟩ | ⟨hkeyb, hnullb⟩
  · rw [hcola, hcolb]
  · rw [hkeya, hkeyb] at h
    exact absurd h.symm hnullb
  · rw [hkeya, hkeyb] at h
    exact absurd h hnulla
  · rw [hkeya, hkeyb] at h
    exact joinValue_local h

theorem agree_join :
    Agree w (.join j) a b ↔ ∀ c, Live j c → joinValue w j c a = joinValue w j c b := by
  unfold Agree sortValues
  rw [forall_mem_map]
  constructor
  · intro h c hlive
    exact h c hlive.1
  · intro h c hc
    by_cases hhidden : j.TargetSoftDeletes ∧ (c = "deleted_at" ∨ j.TargetKey = "deleted_at")
    · rw [joinValue_hidden hhidden, joinValue_hidden hhidden]
    · exact h c ⟨hc, hhidden⟩

theorem join_covers_agree {j' : JoinTarget} (h : Covers (.join j) (.join j'))
    (hagree : Agree w (.join j) a b) : Agree w (.join j') a b := by
  rw [agree_join] at hagree ⊢
  intro c hc
  rcases h with hvoid | ⟨hsame, hkey | hlive⟩
  · exact absurd hc (hvoid c)
  · rw [← joinValue_congr hsame, ← joinValue_congr hsame]
    exact joinValue_key c (hagree j.TargetKey hkey)
  · rw [← joinValue_congr hsame, ← joinValue_congr hsame]
    exact hagree c (hlive c hc)

/-- A value the CASE of an ordinal does not list. -/
def Unlisted (values : List String) (v : Nullable) : Prop :=
  ∀ s ∈ values, v ≠ (Cell.text s : Cell)

theorem ordinalRank_text (values : List String) (s : String) :
    ordinalRank values (Cell.text s : Cell) = (Cell.number (values.idxOf s) : Cell) := rfl

variable {values : List String}

theorem ordinalRank_unlisted (h : Unlisted values v) :
    ordinalRank values v = (Cell.number values.length : Cell) := by
  induction v using WithTop.recTopCoe with
  | top => rfl
  | coe cell =>
    cases cell with
    | number n => rfl
    | time t => rfl
    | text s =>
      have hs : s ∉ values := fun hs => h s hs rfl
      rw [ordinalRank_text, idxOf_eq_length hs]

theorem unlisted_or_text (values : List String) (v : Nullable) :
    Unlisted values v ∨ ∃ s ∈ values, v = (Cell.text s : Cell) := by
  by_cases h : ∃ s ∈ values, v = (Cell.text s : Cell)
  · exact Or.inr h
  · exact Or.inl fun s hs hv => h ⟨s, hs, hv⟩

theorem ordinalRank_listed_ne {s : String} (hs : s ∈ values) (hv : Unlisted values v) :
    ordinalRank values (Cell.text s : Cell) ≠ ordinalRank values v := by
  rw [ordinalRank_unlisted hv, ordinalRank_text]
  intro h
  have hlt := idxOf_lt_length_of_mem hs
  have heq := Cell.number.inj (WithTop.coe_injective h)
  omega

theorem ordinalRank_eq {u : Nullable} (h : ordinalRank values u = ordinalRank values v) :
    u = v ∨ Unlisted values u ∧ Unlisted values v := by
  rcases unlisted_or_text values u with hu | ⟨s, hs, rfl⟩ <;>
    rcases unlisted_or_text values v with hv | ⟨s', hs', rfl⟩
  · exact Or.inr ⟨hu, hv⟩
  · exact absurd h.symm (ordinalRank_listed_ne hs' hu)
  · exact absurd h (ordinalRank_listed_ne hs hv)
  · rw [ordinalRank_text, ordinalRank_text] at h
    have heq := Int.ofNat.inj (Cell.number.inj (WithTop.coe_injective h))
    exact Or.inl (by rw [idxOf_inj hs |>.mp heq])

theorem covers_agree {kind kind' : SortKind} (h : Covers kind kind') (hagree : Agree w kind a b) :
    Agree w kind' a b := by
  cases kind with
  | join j =>
    cases kind' with
    | join j' => exact join_covers_agree h hagree
    | derived d | ordinal c v | plain c => exact absurd h id
  | derived d =>
    cases kind' with
    | derived d' =>
      cases (show d = d' from h)
      exact hagree
    | join j | ordinal c v | plain c => exact absurd h id
  | ordinal c v =>
    cases kind' with
    | ordinal c' v' =>
      obtain ⟨rfl, hsub⟩ := h
      simp only [Agree, sortValues, forall_mem_singleton] at hagree ⊢
      rcases ordinalRank_eq hagree with heq | ⟨ha, hb⟩
      · rw [heq]
      · rw [ordinalRank_unlisted fun s hs => ha s (hsub s hs),
          ordinalRank_unlisted fun s hs => hb s (hsub s hs)]
    | join j | derived d | plain c => exact absurd h id
  | plain c =>
    cases kind' with
    | plain c' =>
      cases (show c = c' from h)
      exact hagree
    | ordinal c' v =>
      cases (show c = c' from h)
      simp only [Agree, sortValues, forall_mem_singleton] at hagree ⊢
      rw [hagree]
    | join j | derived d => exact absurd h id

variable {r : Resolvers} {tiebreaker : String}

theorem requested_pairwise {ofs : List OrderField} (h : DedupSafe r tiebreaker) :
    (requestedColumns r ofs tiebreaker).Pairwise fun x y => x.1 = y.1 →
      Covers x.2.kind y.2.kind := by
  unfold requestedColumns
  rw [pairwise_append]
  refine ⟨?_, ?_, ?_⟩
  · rw [pairwise_map]
    apply pairwise_of_forall
    intro f g hsig
    rw [(sortColumn_spec r f).1, (sortColumn_spec r g).1] at hsig
    rw [(sortColumn_spec r f).2.1, (sortColumn_spec r g).2.1]
    exact h.fields f.Field g.Field hsig
  · rw [pairwise_pair]
    exact id
  · intro x hx y hy hsig
    obtain ⟨f, _, rfl⟩ := mem_map.mp hx
    rw [(sortColumn_spec r f).1] at hsig
    rw [(sortColumn_spec r f).2.1]
    rcases mem_pair.mp hy with rfl | rfl
    · exact h.last f.Field _ mem_cons_self hsig
    · exact h.last f.Field _ (mem_cons_of_mem _ mem_cons_self) hsig

theorem requested_ties_id {ofs : List OrderField}
    (h : Ties (requestedTerms w r ofs tiebreaker) a b) :
    a tiebreakerID = b tiebreakerID := by
  refine h ⟨fun row => row tiebreakerID, true⟩ (mem_flatMap.mpr ?_)
  exact ⟨(tiebreakerID, plainColumn tiebreakerID true), by simp [requestedColumns],
    by simp [orderTerms, sortValues, plainColumn, KeysetColumn.kind]⟩

theorem keepsOrder_of_dedupSafe (h : DedupSafe r tiebreaker) : KeepsOrder r tiebreaker := by
  intro ofs w rows kept asked hunique hkept hasked hsorted hsorted'
  have hsame (a b : Record) : precedes (keptTerms w r ofs tiebreaker) a b ↔
      precedes (requestedTerms w r ofs tiebreaker) a b := by
    apply keepFirst_precedes
    refine (requested_pairwise h).imp ?_
    intro x y hcovers hsig hties
    rw [ties_orderTerms] at hties ⊢
    exact covers_agree (hcovers hsig) hties
  refine sortedBy_unique (requestedTerms w r ofs tiebreaker) kept asked (hkept.trans hasked.symm)
    (hsorted.imp fun hnot hlt => hnot ((hsame _ _).mpr hlt)) hsorted' ?_
  intro a ha b hb hties
  exact inj_on_of_nodup_map hunique (hkept.mem_iff.mp ha) (hkept.mem_iff.mp hb)
    (requested_ties_id hties)

/-- The terms of one sort field. -/
def fieldTerms (w : World) (r : Resolvers) (of : OrderField) : List (Term Record Nullable) :=
  (sortValues w (fieldKind r of.Field)).map fun value => ⟨value, of.Desc⟩

theorem orderTerms_sortColumn (w : World) (r : Resolvers) (of : OrderField) :
    orderTerms w (sortColumn r of).2 = fieldTerms w r of := by
  unfold orderTerms fieldTerms
  rw [(sortColumn_spec r of).2.1, (sortColumn_spec r of).2.2]

theorem requestedTerms_cons (w : World) (r : Resolvers) (of : OrderField) (ofs : List OrderField)
    (tiebreaker : String) : requestedTerms w r (of :: ofs) tiebreaker =
      fieldTerms w r of ++ requestedTerms w r ofs tiebreaker := by
  rw [← orderTerms_sortColumn]
  rfl

theorem agree_symm {kind : SortKind} (h : Agree w kind a b) :
    Agree w kind b a := fun value hvalue => (h value hvalue).symm

theorem keysetColumns_second {f g : OrderField}
    (hsig : signature f.Field (fieldKind r f.Field) = signature g.Field (fieldKind r g.Field)) :
    keysetColumns r [f, g] tiebreaker = keysetColumns r [f] tiebreaker := by
  rw [← (sortColumn_spec r f).1, ← (sortColumn_spec r g).1] at hsig
  simp only [keysetColumns, requestedColumns, map_cons, cons_append, keepFirst,
    not_mem_nil, if_false, ← hsig, mem_cons_self, if_true]

section Necessity

variable {r : Resolvers} {tiebreaker : String} (horder : KeepsOrder r tiebreaker)

include horder

theorem keepsOrder_precedes {ofs : List OrderField}
    (hid : a tiebreakerID ≠ b tiebreakerID) (h : precedes (requestedTerms w r ofs tiebreaker) a b) :
    precedes (keptTerms w r ofs tiebreaker) a b := by
  by_contra hnot
  have hasked : SortedBy (requestedTerms w r ofs tiebreaker) [a, b] :=
    pairwise_pair.mpr (precedes_asymm _ a b h)
  have heq := horder ofs w [a, b] [b, a] [a, b] (by simp [UniqueID, hid]) (List.Perm.swap a b [])
    (List.Perm.refl _) (pairwise_pair.mpr hnot) hasked
  exact hid (congrArg (· tiebreakerID) (List.cons.inj heq).1.symm)

theorem keepsOrder_second (f g : OrderField)
    (hsig : signature f.Field (fieldKind r f.Field) = signature g.Field (fieldKind r g.Field))
    (w : World) (a b : Record) (hid : a tiebreakerID ≠ b tiebreakerID)
    (hagree : Agree w (fieldKind r f.Field) a b) (h : precedes (fieldTerms w r g) a b) :
    precedes (keptTerms w r [f] tiebreaker) a b := by
  have hrequested : precedes (requestedTerms w r [f, g] tiebreaker) a b := by
    rw [requestedTerms_cons, precedes_append, requestedTerms_cons, precedes_append]
    exact Or.inr ⟨forall_mem_map.mpr hagree, Or.inl h⟩
  have hkept := keepsOrder_precedes horder hid hrequested
  unfold keptTerms at hkept
  rwa [keysetColumns_second hsig] at hkept

/-- Rows that agree on a field agree on every field of its signature: otherwise the two
directions of the second field would ask for both orders of the rows. -/
theorem keepsOrder_agree (f g : String)
    (hsig : signature f (fieldKind r f) = signature g (fieldKind r g)) (w : World) (a b : Record)
    (hid : a tiebreakerID ≠ b tiebreakerID) (hagree : Agree w (fieldKind r f) a b) :
    Agree w (fieldKind r g) a b := by
  let first : OrderField := ⟨f, none, none, [], false⟩
  let second (desc : Bool) : OrderField := ⟨g, none, none, [], desc⟩
  have hnot (x y : Record) (hxy : x tiebreakerID ≠ y tiebreakerID)
      (hsame : Agree w (fieldKind r f) x y) : ¬ precedes (fieldTerms w r (second false)) x y := by
    intro hlt
    have hflip : precedes (fieldTerms w r (second true)) y x :=
      precedes_flip.mpr hlt
    refine precedes_asymm _ x y
      (keepsOrder_second horder first (second false) hsig w x y hxy hsame hlt) ?_
    exact keepsOrder_second horder first (second true) hsig w y x hxy.symm
      (agree_symm hsame) hflip
  rcases precedes_trichotomy (fieldTerms w r (second false)) a b with hlt | hties | hgt
  · exact absurd hlt (hnot a b hid hagree)
  · exact forall_mem_map.mp hties
  · exact absurd hgt (hnot b a hid.symm (agree_symm hagree))

end Necessity

end KnowledgeEngine.KeysetDedup
