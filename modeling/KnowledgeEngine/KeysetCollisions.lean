import KnowledgeEngine.KeysetJoins

/-!
The condition under which dropping sort columns leaves the order alone, exactly. For
each other way in which two fields can differ under one signature there are two rows
that agree on one of the fields and not on the other.
-/

namespace KnowledgeEngine.KeysetCollisions

open CoreTypes LexOrder KeysetOrder KeysetDedup KeysetJoins

def emptyWorld : World := ⟨fun _ => []⟩

/-- A row with a value in one column and an id. -/
def onlyColumn (c : String) (v : Nullable) (id : ℤ) : Record := fun x =>
  if x = c then v else if x = tiebreakerID then number id else ⊤

theorem onlyColumn_self (c : String) (v : Nullable) (id : ℤ) : onlyColumn c v id c = v := if_pos rfl

theorem onlyColumn_id (c s : String) {id id' : ℤ} (h : id ≠ id') :
    onlyColumn c (text s) id tiebreakerID ≠ onlyColumn c ⊤ id' tiebreakerID := by
  unfold onlyColumn
  by_cases hc : tiebreakerID = c
  · rw [if_pos hc, if_pos hc]
    exact WithTop.coe_ne_top
  · rw [if_neg hc, if_neg hc]
    exact fun heq => h (number_injective heq)

/-- A kind of value that does not tell a text from NULL. -/
def Overlooks (s : String) : SortKind → Prop
  | .plain _ => False
  | .ordinal _ values => s ∉ values
  | .join _ => True
  | .derived _ => True

theorem intervalValue_timeless (spec : IntervalSpec) {row : Record}
    (h : ∀ c t, row c ≠ (Cell.time t : Cell)) : intervalValue spec row = ⊤ := by
  unfold intervalValue
  split
  · rename_i t d hbase hdisc
    exact absurd hbase (h spec.BaseColumn t)
  · rfl

theorem onlyColumn_timeless (c : String) {v : Nullable} (id : ℤ)
    (hv : ∀ t, v ≠ (Cell.time t : Cell)) (x : String) (t : ℤ) :
    onlyColumn c v id x ≠ (Cell.time t : Cell) := by
  unfold onlyColumn
  split
  · exact hv t
  · split
    · exact fun heq => nomatch WithTop.coe_injective heq
    · exact WithTop.top_ne_coe

variable {f : String} {values : List String} {kind : SortKind} {c : String}

theorem overlooks_agree {s : String} (hsig : signature f kind = c) (h : Overlooks s kind)
    (id id' : ℤ) : Agree emptyWorld kind (onlyColumn c (text s) id) (onlyColumn c ⊤ id') := by
  cases kind with
  | plain c' => exact h.elim
  | join j =>
    exact agree_of_unfound (fun _ ht => by cases ht) (fun _ ht => by cases ht)
  | ordinal c' values =>
    cases hsig
    have hunlisted : Unlisted values (text s) := fun s' hs' heq =>
      h (Cell.text.inj (WithTop.coe_injective heq) ▸ hs')
    simp only [Agree, sortValues, List.forall_mem_singleton, signature, onlyColumn_self]
    rw [ordinalRank_unlisted hunlisted]
    rfl
  | derived d =>
    simp only [Agree, sortValues, List.forall_mem_singleton]
    cases d with
    | aggregate spec => rfl
    | interval spec =>
      simp only [derivedValue]
      rw [intervalValue_timeless, intervalValue_timeless]
      · exact onlyColumn_timeless c id' fun t => WithTop.top_ne_coe
      · exact onlyColumn_timeless c id fun t heq => Cell.noConfusion (WithTop.coe_injective heq)

theorem exists_unlisted : ∃ s, s ∉ values := by
  have hbound : ∃ n, ∀ s ∈ values, s.length < n := by
    induction values with
    | nil => exact ⟨0, fun _ hs => nomatch hs⟩
    | cons s rest ih =>
      obtain ⟨n, hn⟩ := ih
      refine ⟨max (s.length + 1) n, List.forall_mem_cons.mpr ⟨by omega, fun u hu => ?_⟩⟩
      have := hn u hu
      omega
  obtain ⟨n, hn⟩ := hbound
  refine ⟨String.ofList (List.replicate n 'a'), fun hmem => ?_⟩
  have := hn _ hmem
  rw [String.length_ofList, List.length_replicate] at this
  omega

theorem overlooks_of_not_covers (hsig : signature f kind = c) (h : ¬ Covers kind (.plain c)) :
    ∃ s, Overlooks s kind := by
  cases kind with
  | plain c' => exact absurd hsig h
  | ordinal c' values => exact exists_unlisted
  | join j => exact ⟨"", trivial⟩
  | derived d => exact ⟨"", trivial⟩

theorem overlooks_listed (hvalues : values ≠ []) (hsig : signature f kind = c)
    (h : ¬ Covers kind (.ordinal c values)) : ∃ s ∈ values, Overlooks s kind := by
  cases kind with
  | plain c' => exact absurd hsig h
  | ordinal c' values' =>
    by_contra hnone
    refine h ⟨hsig, fun s hs => ?_⟩
    by_contra hs'
    exact hnone ⟨s, hs, hs'⟩
  | join j => exact ⟨values.head hvalues, List.head_mem hvalues, trivial⟩
  | derived d => exact ⟨values.head hvalues, List.head_mem hvalues, trivial⟩

theorem fieldKind_ordinal {r : Resolvers} (h : fieldKind r f = .ordinal c values) :
    values ≠ [] := by
  unfold fieldKind at h
  split at h
  · exact nomatch h
  · split at h
    · exact nomatch h
    · split at h
      · exact nomatch h
      · rename_i hne
        obtain ⟨_, rfl⟩ := SortKind.ordinal.inj h
        exact hne

theorem joinSignature_ne {j : JoinTarget} : joinSignature j ≠ derivedSignature f := by
  intro h
  have hchars := congrArg (fun s => s.toList.take 2) h
  simp [joinSignature, derivedSignature, String.toList_append] at hchars

theorem derivedSignature_injective {g : String} (h : derivedSignature f = derivedSignature g) :
    f = g := by
  have hchars := congrArg String.toList h
  simp only [derivedSignature, String.toList_append] at hchars
  exact String.toList_injective (List.append_cancel_left hchars)

theorem keptTerms_single (w : World) (r : Resolvers) (of : OrderField) (tiebreaker : String) :
    keptTerms w r [of] tiebreaker = fieldTerms w r of ++
      (keepFirst [signature of.Field (fieldKind r of.Field)]
        [(tiebreakerColumn tiebreaker, plainColumn (tiebreakerColumn tiebreaker) true),
          (tiebreakerID, plainColumn tiebreakerID true)]).flatMap (orderTerms w) := by
  rw [← orderTerms_sortColumn, ← (sortColumn_spec r of).1]
  rfl

section Necessity

variable {r : Resolvers} {tiebreaker : String} (horder : KeepsOrder r tiebreaker)

include horder

variable {f g c : String}

section Same

variable (hsig : signature f (fieldKind r f) = signature g (fieldKind r g))
include hsig

theorem keepsOrder_overlooks {s : String} (hc : signature f (fieldKind r f) = c)
    (hs : Overlooks s (fieldKind r f)) :
    Agree emptyWorld (fieldKind r g) (onlyColumn c (text s) 0) (onlyColumn c ⊤ 1) :=
  keepsOrder_agree horder f g hsig emptyWorld _ _ (onlyColumn_id c s (by decide))
    (overlooks_agree hc hs 0 1)

theorem covers_plain (hg : fieldKind r g = .plain c) : Covers (fieldKind r f) (.plain c) := by
  have hc : signature f (fieldKind r f) = c := by rw [hsig, hg, signature]
  by_contra hnot
  obtain ⟨s, hs⟩ := overlooks_of_not_covers hc hnot
  have hagree := keepsOrder_overlooks horder hsig hc hs
  simp only [hg, Agree, sortValues, List.forall_mem_singleton, onlyColumn_self] at hagree
  exact WithTop.coe_ne_top hagree

theorem covers_ordinal {values : List String} (hg : fieldKind r g = .ordinal c values) :
    Covers (fieldKind r f) (.ordinal c values) := by
  have hc : signature f (fieldKind r f) = c := by rw [hsig, hg, signature]
  by_contra hnot
  obtain ⟨s, hmem, hs⟩ := overlooks_listed (fieldKind_ordinal hg) hc hnot
  have hagree := keepsOrder_overlooks horder hsig hc hs
  simp only [hg, Agree, sortValues, List.forall_mem_singleton, onlyColumn_self] at hagree
  exact ordinalRank_listed_ne hmem (fun _ _ => WithTop.top_ne_coe) hagree

theorem covers_fields : Covers (fieldKind r f) (fieldKind r g) := by
  cases hg : fieldKind r g with
  | plain c => exact covers_plain horder hsig hg
  | ordinal c values => exact covers_ordinal horder hsig hg
  | join j' =>
    cases hf : fieldKind r f with
    | plain c => exact (hg ▸ covers_plain horder hsig.symm hf :)
    | ordinal c values => exact (hg ▸ covers_ordinal horder hsig.symm hf :)
    | derived d =>
      rw [hf, hg] at hsig
      exact absurd hsig.symm joinSignature_ne
    | join j =>
      apply join_covers
      intro w a b hid
      rw [← hf, ← hg]
      exact ⟨keepsOrder_agree horder f g hsig w a b hid,
        keepsOrder_agree horder g f hsig.symm w a b hid⟩
  | derived d' =>
    cases hf : fieldKind r f with
    | plain c => exact (hg ▸ covers_plain horder hsig.symm hf :)
    | ordinal c values => exact (hg ▸ covers_ordinal horder hsig.symm hf :)
    | join j =>
      rw [hf, hg] at hsig
      exact absurd hsig joinSignature_ne
    | derived d =>
      rw [hf, hg] at hsig
      rw [derivedSignature_injective hsig, hg] at hf
      exact (SortKind.derived.inj hf).symm

end Same

theorem covers_last (f c : String) (hmem : c ∈ [tiebreakerColumn tiebreaker, tiebreakerID])
    (hsig : signature f (fieldKind r f) = c) : Covers (fieldKind r f) (.plain c) := by
  by_contra hnot
  obtain ⟨s, hs⟩ := overlooks_of_not_covers hsig hnot
  let of : OrderField := ⟨f, none, none, [], false⟩
  let p : Record := onlyColumn c (text s) 1
  let q : Record := onlyColumn c ⊤ 0
  have hties : Ties (fieldTerms emptyWorld r of) q p :=
    List.forall_mem_map.mpr (agree_symm (overlooks_agree hsig hs 1 0))
  have hid : q tiebreakerID ≠ p tiebreakerID := (onlyColumn_id c s (by decide)).symm
  have hlt : p c < q c := by
    simp only [p, q, onlyColumn_self]
    exact WithTop.coe_lt_top _
  have hnull (x : String) (hx : x ≠ c) (hx' : x ≠ tiebreakerID) : q x = p x := by
    simp only [p, q, onlyColumn]
    rw [if_neg hx, if_neg hx, if_neg hx', if_neg hx']
  have hsplit : c = tiebreakerColumn tiebreaker ∨
      c = tiebreakerID ∧ tiebreakerColumn tiebreaker ≠ tiebreakerID := by
    by_cases hc : c = tiebreakerColumn tiebreaker
    · exact Or.inl hc
    · have hcid : c = tiebreakerID := by simpa [hc] using hmem
      exact Or.inr ⟨hcid, fun heq => hc (hcid.trans heq.symm)⟩
  have hrequested : precedes (requestedTerms emptyWorld r [of] tiebreaker) q p := by
    rw [requestedTerms_cons, precedes_append]
    refine Or.inr ⟨hties, ?_⟩
    rcases hsplit with htb | ⟨hcid, hne⟩
    · exact Or.inl (htb ▸ hlt)
    · exact Or.inr ⟨hnull _ (fun heq => hne (heq.trans hcid)) hne, Or.inl (hcid ▸ hlt)⟩
  have hkept := keepsOrder_precedes horder hid hrequested
  rw [keptTerms_single, precedes_append, hsig] at hkept
  rcases hkept with hfirst | ⟨_, hrest⟩
  · exact not_precedes_of_ties hties hfirst
  · rcases hsplit with rfl | ⟨rfl, hne⟩
    · rw [keepFirst, if_pos List.mem_cons_self] at hrest
      by_cases hcid : tiebreakerID = tiebreakerColumn tiebreaker
      · rw [keepFirst, if_pos (by rw [hcid]; exact List.mem_cons_self)] at hrest
        exact hrest
      · rw [keepFirst, if_neg (by simpa using hcid)] at hrest
        rcases hrest with hgt | ⟨_, hnone⟩
        · have hids : p tiebreakerID < q tiebreakerID := hgt
          simp only [p, q, onlyColumn] at hids
          rw [if_neg hcid, if_neg hcid, if_pos trivial, if_pos trivial] at hids
          exact absurd hids (by decide)
        · exact hnone
    · rw [keepFirst, if_neg (by simpa using hne), keepFirst, if_pos (by simp), keepFirst] at hrest
      rcases hrest with hgt | ⟨_, hnone⟩
      · exact absurd (hnull _ hne hne).symm (ne_of_lt hgt)
      · exact hnone

end Necessity

/-- Sorting by the columns kept is sorting as asked exactly for resolvers whose fields of
one signature decide each other. -/
theorem keepsOrder_iff (r : Resolvers) (tiebreaker : String) :
    KeepsOrder r tiebreaker ↔ DedupSafe r tiebreaker :=
  ⟨fun h => ⟨fun _ _ => covers_fields h, covers_last h⟩, keepsOrder_of_dedupSafe⟩

def userJoin (localKey : String) : JoinTarget :=
  ⟨"users", localKey, "id", ["name"], true, false⟩

/-- A resource whose author and reviewer are names of the same joined table. -/
def reviewResolvers : Resolvers where
  resolve := id
  joinOf field := if field = "author" then some (userJoin "author_id")
    else if field = "reviewer" then some (userJoin "reviewer_id") else none
  ordinalOf _ := []
  derivedOf _ := none

def user (id : ℤ) (name : String) : Record := fun c =>
  if c = "id" then number id else if c = "name" then text name else ⊤

def reviewWorld : World where
  tables table := if table = "users" then [user 1 "ann", user 2 "bob"] else []

def review (id author reviewer : ℤ) : Record := fun c =>
  if c = "id" then number id
  else if c = "author_id" then number author
  else if c = "reviewer_id" then number reviewer else ⊤

def byAuthorThenReviewer : List OrderField :=
  [⟨"author", none, none, [], false⟩, ⟨"reviewer", none, none, [], false⟩]

/-- Sorted by author and then reviewer, the review of the second reviewer comes last; the
columns kept have no reviewer, and the larger id comes first. -/
theorem reviewer_dropped :
    keysetColumns reviewResolvers byAuthorThenReviewer "" =
        [⟨"", some (userJoin "author_id"), none, [], false⟩, plainColumn "created_at" true,
          plainColumn "id" true] ∧
      UniqueID [review 1 1 1, review 2 1 2] ∧
      SortedBy (keptTerms reviewWorld reviewResolvers byAuthorThenReviewer "")
        [review 2 1 2, review 1 1 1] ∧
      SortedBy (requestedTerms reviewWorld reviewResolvers byAuthorThenReviewer "")
        [review 1 1 1, review 2 1 2] ∧
      ¬ SortedBy (keptTerms reviewWorld reviewResolvers byAuthorThenReviewer "")
        [review 1 1 1, review 2 1 2] ∧
      ¬ KeepsOrder reviewResolvers "" := by
  have hunique : UniqueID [review 1 1 1, review 2 1 2] := by decide
  have hkept : SortedBy (keptTerms reviewWorld reviewResolvers byAuthorThenReviewer "")
      [review 2 1 2, review 1 1 1] := by decide
  have hasked : SortedBy (requestedTerms reviewWorld reviewResolvers byAuthorThenReviewer "")
      [review 1 1 1, review 2 1 2] := by decide
  refine ⟨by decide, hunique, hkept, hasked, by decide, fun h => ?_⟩
  have heq := h byAuthorThenReviewer reviewWorld _ _ _ hunique (List.Perm.swap _ _ [])
    (List.Perm.refl _) hkept hasked
  exact absurd (congrArg (fun rows => rows.map (· "id")) heq) (by decide)

end KnowledgeEngine.KeysetCollisions
