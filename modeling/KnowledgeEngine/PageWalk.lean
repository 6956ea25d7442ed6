import KnowledgeEngine.CursorWalk
import KnowledgeEngine.PageCursors

/-!
Walking a paginated read over a fixed table by its next cursors. On the default order
of a keyset reader the first page leads to keyset cursors, each of which leads behind
the last row of its page; otherwise page numbers lead on.
-/

namespace KnowledgeEngine.PageWalk

open CoreTypes KeysetOrder LexOrder MachineNumbers PageRun
open TableRunner

variable {T D κ : Type} [LinearOrder κ] (sha256 : List UInt8 → List UInt8)

/-- One call of Run at a cursor. -/
def pageStep (skipCount : Bool) (size : ℤ) (r : Reader T D) (cursor : String) :
    Except Failure (List D × Option String) :=
  (run sha256 skipCount ⟨cursor, size⟩ r).map fun page =>
    (page.Items, if page.NextCursor = "" then none else some page.NextCursor)

theorem pageLimit_pos (cursor : String) (size : ℤ) (b : Bounds) :
    1 ≤ pageLimit ⟨cursor, size⟩ b := by
  simp only [pageLimit]
  split <;> split <;> (try split) <;> omega

theorem cutPage_take {limit : ℤ} {rest : List T} (h : 0 ≤ limit) :
    cutPage limit (rest.take (limit + 1).toNat) =
      (rest.take limit.toNat, decide (limit.toNat < rest.length)) := by
  have hlength : (rest.take (limit + 1).toNat).length = min (limit + 1).toNat rest.length :=
    List.length_take
  by_cases hmore : limit.toNat < rest.length
  · rw [cutPage, if_pos (by omega), List.take_take, decide_eq_true hmore]
    congr 2
    omega
  · rw [cutPage, if_neg (by omega), decide_eq_false hmore, List.take_of_length_le (by omega),
      List.take_of_length_le (by omega)]

section Pages

variable {db : Database T κ} {table : Table db} {r : Reader T D}
variable {arrange : List Filter → List OrderField → List T}

/-- The runner's window at an offset, one row longer than the page. -/
theorem list_window (h : Faithful table r.Runner arrange) (filters : List Filter)
    (order : List OrderField) {limit offset : ℤ} (hlimit : 1 ≤ limit)
    (hbig : limit < 2 ^ 63 - 1) (hoffset : 0 ≤ offset) (hfar : offset < 2 ^ 63) :
    r.Runner.List ⟨filters, order, wrap64 (limit + 1), wrap64 offset⟩ =
      .ok (((arrange filters order).drop offset.toNat).take (limit + 1).toNat) := by
  rw [wrap64_of_fits ⟨by omega, by omega⟩, wrap64_of_fits ⟨by omega, by omega⟩]
  exact h.list _ (by show 0 ≤ limit + 1; omega) hoffset

theorem countCap_pos (b : Bounds) : 1 ≤ b.countCap := by
  unfold Bounds.countCap defaultCountCap
  split <;> omega

theorem pageTotal_ok (h : Faithful table r.Runner arrange) {skipCount : Bool}
    (filters : List Filter)
    (hcap : r.Count = true → skipCount = false → r.Bounds.countCap < 2 ^ 63 - 1) :
    ∃ total, pageTotal skipCount filters r = .ok total := by
  unfold pageTotal
  split
  · next hcounts =>
    obtain ⟨hcount, hskip⟩ := Bool.and_eq_true_iff.mp hcounts
    have hbig := hcap hcount (by simpa using hskip)
    have hpos := countCap_pos r.Bounds
    simp only [boundedTotal, wrap64_of_fits (show Fits64 (r.Bounds.countCap + 1) from
      ⟨by omega, by omega⟩), h.count filters _ (show 1 ≤ r.Bounds.countCap + 1 by omega), mapErr,
      bind, Except.bind]
    split
    · exact ⟨_, rfl⟩
    · exact ⟨_, rfl⟩
  · exact ⟨_, rfl⟩

end Pages

/-- The order of a read: the tiebreaker and the id, both descending, unless the caller
sorts by fields of their own. -/
def readTerms (db : Database T κ) (r : Reader T D) : List (Term T (WithTop κ)) :=
  if r.sort = [] then
    [db.columnTerm (plainColumn (tiebreakerColumn r.Tiebreaker) true),
      db.columnTerm (plainColumn tiebreakerID true)]
  else (orderFields (readColumns r)).flatMap db.terms

section DefaultOrder

variable (db : Database T κ) (r : Reader T D)

theorem tiebreakerColumn_ne_empty (tiebreaker : String) : tiebreakerColumn tiebreaker ≠ "" := by
  unfold tiebreakerColumn
  split
  · decide
  · assumption

theorem readColumns_default (h : r.sort = []) :
    readColumns r = [plainColumn tiebreakerID true] ∧
        tiebreakerColumn r.Tiebreaker = tiebreakerID ∨
      readColumns r = [plainColumn (tiebreakerColumn r.Tiebreaker) true,
        plainColumn tiebreakerID true] := by
  unfold readColumns keysetColumns requestedColumns
  rw [h]
  by_cases hid : tiebreakerColumn r.Tiebreaker = tiebreakerID
  · exact Or.inl ⟨by simp [keepFirst, hid], hid⟩
  · have hne : tiebreakerID ≠ tiebreakerColumn r.Tiebreaker := fun heq => hid heq.symm
    exact Or.inr (by simp [keepFirst, hne])

theorem default_plain (h : r.sort = []) (c : KeysetColumn) (hc : c ∈ readColumns r) :
    c = plainColumn c.Column true ∧ c.Column ≠ "" := by
  have hname := tiebreakerColumn_ne_empty r.Tiebreaker
  rcases readColumns_default r h with ⟨hcols, _⟩ | hcols
  · rw [hcols, List.mem_singleton] at hc
    subst hc
    exact ⟨rfl, by decide⟩
  · rw [hcols, List.mem_cons, List.mem_singleton] at hc
    rcases hc with rfl | rfl
    · exact ⟨rfl, hname⟩
    · exact ⟨rfl, by decide⟩

theorem default_id (h : r.sort = []) : plainColumn keysetIDColumn true ∈ readColumns r := by
  rcases readColumns_default r h with ⟨hcols, _⟩ | hcols <;> simp [hcols, keysetIDColumn]

theorem orderFields_terms (cols : List KeysetColumn)
    (h : ∀ c ∈ cols, c = plainColumn c.Column true) :
    (orderFields cols).flatMap db.terms = cols.map db.columnTerm := by
  induction cols with
  | nil => rfl
  | cons c cols ih =>
    have hc : c = plainColumn c.Column true := h c List.mem_cons_self
    have hterms : db.terms ⟨c.Column, c.Join, c.Derived, c.Ordinal, c.Desc⟩ =
        [db.columnTerm c] := by
      rw [hc]
      exact db.terms_plain c.Column true
    rw [orderFields, List.map_cons, List.flatMap_cons, hterms, List.map_cons,
      List.singleton_append, ← ih fun c' hc' => h c' (List.mem_cons_of_mem _ hc')]
    rfl

theorem default_terms (h : r.sort = []) :
    (orderFields (readColumns r)).flatMap db.terms = (readColumns r).map db.columnTerm :=
  orderFields_terms db _ fun c hc => (default_plain r h c hc).1

/-- Rows arranged by the read's columns stand in the read's order. -/
theorem sortedBy_readTerms {rows : List T}
    (h : SortedBy ((orderFields (readColumns r)).flatMap db.terms) rows) :
    SortedBy (readTerms db r) rows := by
  unfold readTerms
  split
  · next hsort =>
    rw [default_terms db r hsort] at h
    rcases readColumns_default r hsort with ⟨hcols, hid⟩ | hcols
    · rw [hcols] at h
      rw [hid]
      refine h.imp fun {a b} hab hba => hab ?_
      rcases hba with hlt | ⟨_, hrest⟩
      · exact Or.inl hlt
      · exact hrest
    · rw [hcols] at h
      exact h
  · exact h

end DefaultOrder

end KnowledgeEngine.PageWalk
