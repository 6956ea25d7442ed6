import KnowledgeEngine.TableRunner

/-!
Keyset cursors, minted from a row and restored by the next request. When the row's
values can be carried by a token exactly, the values restored are bound to the row's
own values in every keyset column, so the seek selects the rows behind that row.
-/

namespace KnowledgeEngine.PageCursors

open CoreTypes KeysetOrder MachineNumbers PageRun PageTokens TableRunner

variable {T κ : Type} [LinearOrder κ]

/-- What a token carries exactly: an id that parses back to the row's id, a time of
whole microseconds of at most 53 bits, or a text. -/
inductive Represented (db : Database T κ) (ks : Keyset T) (row : T) (c : KeysetColumn) : Prop
  | id (s : String) (v : Value) : c.Column = keysetIDColumn →
      ks.RowValue row c.Column = some (.scalar (.str s)) → parseID ks s = .ok v →
      Bound db row c v → Represented db ks row c
  | time (t : Time) : c.Column ≠ keysetIDColumn → ks.TimestampCols c.Column = true →
      ks.RowValue row c.Column = some (.scalar (.time t)) → t.nanos % 1000 = 0 →
      -2 ^ 53 ≤ t.nanos / 1000 → t.nanos / 1000 ≤ 2 ^ 53 →
      Bound db row c (.scalar (.time t)) → Represented db ks row c
  | text (s : String) : c.Column ≠ keysetIDColumn → ks.TimestampCols c.Column = false →
      ks.RowValue row c.Column = some (.scalar (.str s)) →
      Bound db row c (.scalar (.str s)) → Represented db ks row c

variable {db : Database T κ} {ks : Keyset T} {row : T} {c : KeysetColumn}

theorem Represented.cell_ne_top (h : Represented db ks row c) : db.cell row c.Column ≠ ⊤ := by
  have hbound : ∃ v, Bound db row c v := by
    cases h with
    | id s v _ _ _ hbound => exact ⟨v, hbound⟩
    | time t _ _ _ _ _ _ hbound => exact ⟨_, hbound⟩
    | text s _ _ _ hbound => exact ⟨_, hbound⟩
  obtain ⟨v, x, _, hcell⟩ := hbound
  rw [hcell]
  exact WithTop.coe_ne_top

/-- A value minted for a column that is not the id, and what it is restored to. -/
theorem mintColumn_sort (h : Represented db ks row c) (hid : c.Column ≠ keysetIDColumn) :
    ∃ v w u, (∀ acc id, mintColumn ks row (acc, id) c = .ok (acc ++ [v], id)) ∧ Carried v w ∧
      restoreValue ks c w = .ok u ∧ Bound db row c u := by
  cases h with
  | id _ _ heq => exact absurd heq hid
  | time t _ hcol hvalue hwhole hlow hhigh hbound =>
    obtain ⟨bits, hcarried, htrunc⟩ := carried_int hlow hhigh
    have hmicro : unixMicro t = t.nanos / 1000 := wrap64_of_fits ⟨by omega, by omega⟩
    refine ⟨.scalar (.int (unixMicro t)), .scalar (.float bits),
      .scalar (.time (timeOfMicro (t.nanos / 1000))), ?_, hmicro ▸ hcarried, ?_, ?_⟩
    · intro acc id
      simp only [mintColumn, hvalue, hid, hcol, if_false, if_true]
    · simp only [restoreValue, hcol, if_true, unixMicroToTime, htrunc]
      rfl
    · obtain ⟨x, hx, hcell⟩ := hbound
      refine ⟨x, ?_, hcell⟩
      rw [← hx]
      apply db.operand_instant
      simp only [timeOfMicro]
      omega
  | text s _ hcol hvalue hbound =>
    refine ⟨.scalar (.str s), .scalar (.str s), .scalar (.str s), ?_, carried_str s, ?_, hbound⟩
    · intro acc id
      simp only [mintColumn, hvalue, hid, hcol, if_false, Bool.false_eq_true]
    · simp only [restoreValue, hcol, Bool.false_eq_true, if_false]

theorem mintColumn_id {s : String} (hid : c.Column = keysetIDColumn)
    (hvalue : ks.RowValue row keysetIDColumn = some (.scalar (.str s))) (acc : List Value)
    (id : String) : mintColumn ks row (acc, id) c = .ok (acc, s) := by
  simp only [mintColumn, hid, hvalue, if_true]

/-- Minting a row's columns and restoring them: the values restored are the row's. -/
theorem mint_restores {cols : List KeysetColumn} {s : String}
    (hvalue : ks.RowValue row keysetIDColumn = some (.scalar (.str s)))
    (h : ∀ c ∈ cols, Represented db ks row c) (acc : List Value) (old : String) :
    ∃ vs ws values id, cols.foldlM (mintColumn ks row) (acc, old) = .ok (acc ++ vs, id) ∧
      ((old = s ∨ ∃ c ∈ cols, c.Column = keysetIDColumn) → id = s) ∧
      List.Forall₂ Carried vs ws ∧ cursorValues ks s cols ws = .ok values ∧
      List.Forall₂ (Bound db row) cols values := by
  induction cols generalizing acc old with
  | nil =>
    refine ⟨[], [], [], old, by rw [List.append_nil]; rfl, ?_, .nil, rfl, .nil⟩
    rintro (hold | ⟨c, hc, _⟩)
    · exact hold
    · cases hc
  | cons c cols ih =>
    have hrest : ∀ c' ∈ cols, Represented db ks row c' := fun c' hc' =>
      h c' (List.mem_cons_of_mem _ hc')
    by_cases hid : c.Column = keysetIDColumn
    · obtain ⟨vs, ws, values, id, hfold, hlast, hcarried, hvalues, hbound⟩ := ih hrest acc s
      have hparsed : ∃ v, parseID ks s = .ok v ∧ Bound db row c v := by
        cases h c List.mem_cons_self with
        | id s' v _ hvalue' hparse hbound =>
          rw [hid, hvalue] at hvalue'
          cases hvalue'
          exact ⟨v, hparse, hbound⟩
        | time _ hne => exact absurd hid hne
        | text _ hne => exact absurd hid hne
      obtain ⟨v, hparse, hv⟩ := hparsed
      refine ⟨vs, ws, v :: values, id, ?_, fun _ => hlast (Or.inl rfl), hcarried, ?_,
        .cons hv hbound⟩
      · rw [List.foldlM_cons, mintColumn_id hid hvalue]
        exact hfold
      · rw [cursorValues.eq_def]
        simp only [hid, if_true, hparse, hvalues]
        rfl
    · obtain ⟨v, w, u, hmint, hcarry, hrestore, hu⟩ :=
        mintColumn_sort (h c List.mem_cons_self) hid
      obtain ⟨vs, ws, values, id, hfold, hlast, hcarried, hvalues, hbound⟩ :=
        ih hrest (acc ++ [v]) old
      refine ⟨v :: vs, w :: ws, u :: values, id, ?_, ?_, .cons hcarry hcarried, ?_,
        .cons hu hbound⟩
      · rw [List.foldlM_cons, hmint, List.append_cons acc v vs]
        exact hfold
      · rintro (hold | ⟨c', hc', hid'⟩)
        · exact hlast (Or.inl hold)
        · rcases List.mem_cons.mp hc' with rfl | hc'
          · exact absurd hid' hid
          · exact hlast (Or.inr ⟨c', hc', hid'⟩)
      · rw [cursorValues.eq_def]
        simp only [hid, if_false, hrestore, hvalues]
        rfl

/-- The cursor a token holds leads behind a row: its fingerprint is the query's and its
values are the row's. -/
def LeadsBehind (db : Database T κ) (ks : Keyset T) (cols : List KeysetColumn)
    (fingerprint : List UInt8) (token : String) (row : T) : Prop :=
  ∃ cur values, decodeToken token = .ok ⟨some cur, 0⟩ ∧ cur.Fingerprint = fingerprint ∧
    cursorValues ks cur.ID cols cur.SortValues = .ok values ∧
    List.Forall₂ (Bound db row) cols values

theorem mintKeysetCursor_leadsBehind {sha256 : List UInt8 → List UInt8}
    {cols : List KeysetColumn} {sort : List OrderField}
    {filter : Filter} (hid : ∃ c ∈ cols, c.Column = keysetIDColumn)
    (h : ∀ c ∈ cols, Represented db ks row c) :
    ∃ token, mintKeysetCursor sha256 ks cols row sort filter = .ok token ∧ token ≠ "" ∧
      LeadsBehind db ks cols (Fingerprint.fingerprint sha256 sort filter) token row := by
  have hrow : ∃ s, ks.RowValue row keysetIDColumn = some (.scalar (.str s)) := by
    obtain ⟨c, hc, hcol⟩ := hid
    cases h c hc with
    | id s v _ hvalue => exact ⟨s, hcol ▸ hvalue⟩
    | time _ hne => exact absurd hcol hne
    | text _ hne => exact absurd hcol hne
  obtain ⟨s, hvalue⟩ := hrow
  obtain ⟨vs, ws, values, id, hfold, hlast, hcarried, hvalues, hbound⟩ :=
    mint_restores hvalue h [] ""
  obtain rfl := hlast (Or.inr hid)
  obtain ⟨token, hencode, hne, hdecode⟩ := decodeToken_keyset id
    (Fingerprint.fingerprint sha256 sort filter) hcarried
  refine ⟨token, ?_, hne, _, values, hdecode, rfl, hvalues, hbound⟩
  rw [mintKeysetCursor, hfold]
  exact hencode

end KnowledgeEngine.PageCursors
