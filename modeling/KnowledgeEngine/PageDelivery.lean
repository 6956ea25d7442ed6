import KnowledgeEngine.PageWalk

/-!
A walk over a paginated read delivers every matching row exactly once, in order, as
long as the numbers handed to the runner stay in range: the page size and the count
cap are one short of overflowing when one is added to them.
-/

namespace KnowledgeEngine.PageDelivery

open CoreTypes CursorWalk KeysetOrder LexOrder List MachineNumbers PageCursors PageRun PageTokens
open PageWalk TableRunner

variable {T D κ : Type} [LinearOrder κ] (sha256 : List UInt8 → List UInt8)

/-- The rows of the table the user's filter selects. -/
def matched {db : Database T κ} (table : Table db) (r : Reader T D) : List T :=
  table.select [userFilter r]

/-- The walk from the empty cursor ends and yields the views of all matching rows in the
order of the read. -/
def Delivers {db : Database T κ} (table : Table db) (skipCount : Bool) (size : ℤ)
    (r : Reader T D) : Prop :=
  ∃ rows items, rows.Perm (matched table r) ∧ SortedBy (readTerms db r) rows ∧
    rows.mapM r.ToDomain = .ok items ∧ Walk (pageStep sha256 skipCount size r) "" items

/-- One more than the page size, and than the count cap if a total is asked for, is still
an int. -/
def InRange (skipCount : Bool) (size : ℤ) (r : Reader T D) : Prop :=
  pageLimit ⟨"", size⟩ r.Bounds < 2 ^ 63 - 1 ∧
    (r.Count = true → skipCount = false → r.Bounds.countCap < 2 ^ 63 - 1)

theorem take_last {rest : List T} {n : ℕ} (hpos : 0 < n) (h : n < rest.length) :
    ∃ before row, (rest.take n).getLast? = some row ∧ rest = before ++ row :: rest.drop n := by
  have hne : rest.take n ≠ [] := by
    rw [← length_pos_iff, length_take]
    omega
  refine ⟨(rest.take n).dropLast, (rest.take n).getLast hne, List.getLast?_eq_some_getLast hne, ?_⟩
  have hsplit := take_append_drop n rest
  rw [← dropLast_concat_getLast hne, append_assoc] at hsplit
  exact hsplit.symm

/-- The page size of a walk. -/
def pageSize (size : ℤ) (r : Reader T D) : ℤ := pageLimit ⟨"", size⟩ r.Bounds

/-- The rows of a read, as the runner arranges them. -/
def arranged (arrange : List Filter → List OrderField → List T) (r : Reader T D) : List T :=
  arrange (nonEmpty (userFilter r)) (orderFields (readColumns r))

/-- What the pages of a walk rest on. -/
structure Readable {db : Database T κ} (table : Table db) (skipCount : Bool) (size : ℤ)
    (r : Reader T D) (arrange : List Filter → List OrderField → List T) : Prop where
  faithful : Faithful table r.Runner arrange
  range : InRange skipCount size r
  view : ∀ row ∈ matched table r, ∃ d, r.ToDomain row = .ok d

section Steps

variable {db : Database T κ} {table : Table db} {r : Reader T D} {skipCount : Bool} {size : ℤ}
  {arrange : List Filter → List OrderField → List T} {cursor next : String} {rest : List T}
  {items : List D} {ks : Keyset T}

/-- Page numbers: the page at a number serves what the pages before it left. -/
def OffsetServes (rows : List T) (limit : ℤ) (cursor : String) (rest : List T) : Prop :=
  ∃ pageNum : ℤ, 1 ≤ pageNum ∧ pageNum ≤ 2 ^ 31 - 1 ∧ (pageNum - 1) * limit ≤ rows.length ∧
    decodeToken cursor = .ok ⟨none, pageNum⟩ ∧
    rest = rows.drop ((pageNum - 1) * limit).toNat

/-- Off the default order of a keyset reader, a page leads to the next page number. -/
theorem offsetNextCursor_page (hoffset : r.Keyset = none ∨ r.sort ≠ []) (pageNum : ℤ)
    (cols : List KeysetColumn) (rows : List T) :
    offsetNextCursor sha256 true pageNum cols rows r =
      encodeToken ⟨none, wrap32 (pageNum + 1)⟩ := by
  have hdefault : defaultOrdering r = false := by
    rcases hoffset with hnone | hsort
    · simp [defaultOrdering, hnone]
    · simp [defaultOrdering, hsort]
  unfold offsetNextCursor
  simp only [hdefault, Bool.not_true, Bool.false_eq_true, if_false]
  split <;> rfl

variable (h : Readable table skipCount size r arrange)
include h

theorem Readable.perm : (arranged arrange r).Perm (matched table r) := by
  have hperm := h.faithful.perm (nonEmpty (userFilter r)) (orderFields (readColumns r))
  rwa [← append_nil (nonEmpty (userFilter r)), select_nonEmpty,
    append_nil (nonEmpty (userFilter r))] at hperm

theorem Readable.viewed (hrest : rest.Sublist (arranged arrange r)) (n : ℕ) :
    ∃ items, (rest.take n).mapM r.ToDomain = .ok items :=
  mapM_total r.ToDomain _ fun row hrow =>
    h.view row (h.perm.subset (hrest.subset (mem_of_mem_take hrow)))

theorem pageStep_offset {pageNum : ℤ} (hdecode : decodeToken cursor = .ok ⟨none, pageNum⟩)
    (hpage : 1 ≤ pageNum) (hfar : (pageNum - 1) * pageSize size r < 2 ^ 63)
    (hrest : (arranged arrange r).drop ((pageNum - 1) * pageSize size r).toNat = rest)
    (hitems : (rest.take (pageSize size r).toNat).mapM r.ToDomain = .ok items)
    (next : String) (hnext : offsetNextCursor sha256
      (decide ((pageSize size r).toNat < rest.length)) pageNum (readColumns r)
      (rest.take (pageSize size r).toNat) r = .ok next) :
    pageStep sha256 skipCount size r cursor =
      .ok (items, if next = "" then none else some next) := by
  have hpos : 1 ≤ pageSize size r := pageLimit_pos "" size r.Bounds
  have hlist := list_window h.faithful (nonEmpty (userFilter r)) (orderFields (readColumns r)) hpos
    h.range.1 (Int.mul_nonneg (by omega) (by omega)) hfar
  obtain ⟨total, htotal⟩ := pageTotal_ok h.faithful (nonEmpty (userFilter r)) h.range.2
  have hlimit : pageLimit ⟨cursor, size⟩ r.Bounds = pageSize size r := rfl
  rw [arranged] at hrest
  rw [hrest] at hlist
  simp only [pageStep, run, hdecode, hlimit, Failure.of, Except.mapError, bind, Except.bind,
    offsetPage, if_neg (show ¬ pageNum < 1 by omega), hlist, mapErr, htotal,
    cutPage_take (Int.le_of_lt hpos), hnext, hitems]
  rfl

theorem pageStep_keyset {cur : KeysetCursor} {values : List Value} (hks : r.Keyset = some ks)
    (hsort : r.sort = []) (hdecode : decodeToken cursor = .ok ⟨some cur, 0⟩)
    (hprint : cur.Fingerprint = Fingerprint.fingerprint sha256 r.sort r.Filter)
    (hvalues : cursorValues ks cur.ID (readColumns r) cur.SortValues = .ok values)
    (hrest : arrange (nonEmpty (userFilter r) ++ [seekFilter (readColumns r) values])
      (orderFields (readColumns r)) = rest)
    (hitems : (rest.take (pageSize size r).toNat).mapM r.ToDomain = .ok items)
    (hnext : keysetNextCursor sha256 (decide ((pageSize size r).toNat < rest.length)) ks
      (readColumns r) (rest.take (pageSize size r).toNat) r = .ok next) :
    pageStep sha256 skipCount size r cursor =
      .ok (items, if next = "" then none else some next) := by
  have hpos : 1 ≤ pageSize size r := pageLimit_pos "" size r.Bounds
  have hdefault : defaultOrdering r = true := by simp [defaultOrdering, hks, hsort]
  have hlist := list_window h.faithful
    (nonEmpty (userFilter r) ++ [seekFilter (readColumns r) values])
    (orderFields (readColumns r)) hpos h.range.1 le_rfl (by omega)
  rw [hrest, Int.toNat_zero, drop_zero, wrap64_of_fits (x := 0) ⟨by omega, by omega⟩] at hlist
  have hlimit : pageLimit ⟨cursor, size⟩ r.Bounds = pageSize size r := rfl
  simp only [pageStep, run, hdecode, hlimit, Failure.of, Except.mapError, bind, Except.bind, hks,
    hdefault, if_true, keysetPage, if_neg (not_not_intro hprint), hvalues, hlist, mapErr,
    cutPage_take (Int.le_of_lt hpos), hnext, hitems]
  rfl

/-- A walk whose pages serve their rows delivers the rows of the read. -/
theorem delivers_of_serves (Serves : String → List T → Prop)
    (hstart : Serves "" (arranged arrange r))
    (hpage : ∀ cursor rest, Serves cursor rest → ServesPage (pageStep sha256 skipCount size r)
      r.ToDomain (pageSize size r).toNat Serves cursor rest) :
    Delivers sha256 table skipCount size r := by
  have hpos : 1 ≤ pageSize size r := pageLimit_pos "" size r.Bounds
  obtain ⟨items, hitems, hwalk⟩ := walk_of_serves _ r.ToDomain _ (by omega) _ hpage "" _ hstart
  exact ⟨_, items, h.perm, sortedBy_readTerms db r (h.faithful.sorted _ _), hitems, hwalk⟩

theorem delivers_offset (hoffset : r.Keyset = none ∨ r.sort ≠ [])
    (hpages : ((matched table r).length : ℤ) ≤ (2 ^ 31 - 1) * pageSize size r) :
    Delivers sha256 table skipCount size r := by
  have hlength : (arranged arrange r).length < 2 ^ 63 := by
    rw [h.perm.length_eq]
    exact lt_of_le_of_lt (length_filter_le _ _) table.countable
  refine delivers_of_serves sha256 h
    (OffsetServes (arranged arrange r) (pageSize size r)) ⟨1, by omega, by omega,
      by omega, rfl, by rw [Int.sub_self, Int.zero_mul, Int.toNat_zero, drop_zero]⟩ ?_
  rintro cursor rest ⟨pageNum, hlow, hhigh, hinside, hdecode, hrest⟩
  obtain ⟨items, hitems⟩ := h.viewed (hrest ▸ drop_sublist _ _) (pageSize size r).toNat
  have hserve := pageStep_offset sha256 h hdecode hlow (by omega) hrest.symm hitems
  refine servesPage_of hitems (fun hlast => ?_) fun hmore => ?_
  · rw [decide_eq_false hlast] at hserve
    exact hserve "" rfl
  · have hnonneg : 0 ≤ (pageNum - 1) * pageSize size r := Int.mul_nonneg (by omega) (by omega)
    have hleft : (rest.length : ℤ) =
        (arranged arrange r).length - (pageNum - 1) * pageSize size r := by
      rw [hrest, length_drop]
      omega
    have hnextNum : (pageNum + 1 - 1) * pageSize size r =
        (pageNum - 1) * pageSize size r + pageSize size r := by
      rw [show pageNum + 1 - 1 = pageNum - 1 + 1 by omega, Int.add_mul, Int.one_mul]
    have hlt : (pageNum + 1 - 1) * pageSize size r < (2 ^ 31 - 1) * pageSize size r := by
      rw [← h.perm.length_eq] at hpages
      omega
    have hsmall := Int.lt_of_mul_lt_mul_right hlt (by omega)
    obtain ⟨token, hencode, hne, hdecode'⟩ := decodeToken_offset (pageNum + 1) (by omega) (by omega)
    have hnext := offsetNextCursor_page sha256 hoffset pageNum (readColumns r)
      (rest.take (pageSize size r).toNat)
    rw [wrap32_of_fits (by omega) (by omega), hencode] at hnext
    rw [decide_eq_true hmore] at hserve
    refine ⟨token, by rw [hserve token hnext, if_neg hne], pageNum + 1, by omega, by omega,
      by omega, hdecode', ?_⟩
    rw [hrest, drop_drop]
    congr 1
    omega

/-- Keyset cursors: the first page serves all rows, a cursor the rows behind its own. -/
def KeysetServes (db : Database T κ) (r : Reader T D) (ks : Keyset T) (rows : List T)
    (cursor : String) (rest : List T) : Prop :=
  cursor = "" ∧ rest = rows ∨ ∃ before row, rows = before ++ row :: rest ∧
    LeadsBehind db ks (readColumns r) (Fingerprint.fingerprint sha256 r.sort r.Filter) cursor row

/-- The values of a row in the keyset columns can be carried by a token. -/
def Wired (table : Table db) (r : Reader T D) (ks : Keyset T) : Prop :=
  ∀ row ∈ matched table r, ∀ c ∈ readColumns r, Represented db ks row c

/-- The seek filter of a row's values leaves the rows behind it, in order. -/
theorem arrange_seek (hsort : r.sort = []) (hwired : Wired table r ks) {before : List T} {row : T}
    {values : List Value} (hrows : arranged arrange r = before ++ row :: rest)
    (hbound : List.Forall₂ (Bound db row) (readColumns r) values) :
    arrange (nonEmpty (userFilter r) ++ [seekFilter (readColumns r) values])
      (orderFields (readColumns r)) = rest := by
  have hf := h.faithful
  have hsorted : SortedBy _ (arranged arrange r) := hf.sorted _ (orderFields (readColumns r))
  have hsorted' := hf.sorted (nonEmpty (userFilter r) ++ [seekFilter (readColumns r) values])
    (orderFields (readColumns r))
  rw [default_terms db r hsort] at hsorted hsorted'
  have hid : (⟨fun row => db.cell row keysetIDColumn, true⟩ : Term T (WithTop κ)) ∈
      (readColumns r).map db.columnTerm := mem_map_of_mem (default_id r hsort)
  obtain ⟨hlength, hzip⟩ := List.forall₂_iff_zip.mp hbound
  have hcolumn : ∀ p ∈ (readColumns r).zip values, p.1 ∈ readColumns r := fun p hp =>
    (of_mem_zip hp).1
  have hseek : ∀ row' ∈ matched table r, db.holds (seekFilter (readColumns r) values) row' =
      decide (precedes ((readColumns r).map db.columnTerm) row row') := by
    intro row' hrow'
    have hholds := holds_seekFrom db ((readColumns r).zip values) row row' ?_
      (fun p hp => (default_plain r hsort p.1 (hcolumn p hp)).2) (fun p hp => hzip hp)
      (fun p hp => (hwired row' hrow' p.1 (hcolumn p hp)).cell_ne_top)
    · have hmap : ((readColumns r).zip values).map (fun p => db.columnTerm p.1) =
          (readColumns r).map db.columnTerm := by
        have hfst := congrArg (List.map db.columnTerm) (map_fst_zip hlength.le)
        rwa [map_map] at hfst
      rw [hmap] at hholds
      rw [Bool.eq_iff_iff, seekFilter, hholds, decide_eq_true_iff]
    · intro hempty
      have hnil := congrArg List.length hempty
      have hcols := length_pos_of_mem (default_id r hsort)
      rw [length_zip, length_nil] at hnil
      omega
  have hselect : (arrange (nonEmpty (userFilter r) ++ [seekFilter (readColumns r) values])
      (orderFields (readColumns r))).Perm rest := by
    have hfilter : table.select (nonEmpty (userFilter r) ++ [seekFilter (readColumns r) values]) =
        (matched table r).filter fun row' =>
          decide (precedes ((readColumns r).map db.columnTerm) row row') := by
      rw [select_nonEmpty, ← filter_congr hseek]
      simp only [matched, Table.select, filter_filter, all_cons, all_nil,
        Bool.and_true]
      exact filter_congr fun _ _ => Bool.and_comm _ _
    have hbehind := filter_precedes ((readColumns r).map db.columnTerm) before rest row
      (hrows ▸ hsorted) (hrows ▸ apart_of_id table _ _ _ h.perm true hid)
    refine (hf.perm _ _).trans ?_
    rw [hfilter, ← hbehind, ← hrows]
    exact (h.perm.filter _).symm
  refine sortedBy_unique _ _ _ hselect hsorted' ?_ ?_
  · rw [hrows] at hsorted
    exact (pairwise_cons.mp (pairwise_append.mp hsorted).2.1).2
  · intro a ha b hb hties
    exact inj_on_of_nodup_map (select_unique table _) ((hf.perm _ _).subset ha)
      ((hf.perm _ _).subset hb) (hties _ hid)

/-- The page of the rows left: its last row is what the next cursor leads behind. -/
theorem keyset_next (hsort : r.sort = []) (hwired : Wired table r ks) {before : List T} {limit : ℕ}
    (hpos : 0 < limit) (hmore : limit < rest.length) (hrows : arranged arrange r = before ++ rest) :
    ∃ row token, (rest.take limit).getLast? = some row ∧
      mintKeysetCursor sha256 ks (readColumns r) row r.sort r.Filter = .ok token ∧ token ≠ "" ∧
      KeysetServes sha256 db r ks (arranged arrange r) token (rest.drop limit) := by
  obtain ⟨between, row, hlast, hsplit⟩ := take_last hpos hmore
  have hmem : row ∈ matched table r := by
    apply h.perm.subset
    rw [hrows, hsplit]
    simp
  obtain ⟨token, hmint, hne, hleads⟩ :=
    mintKeysetCursor_leadsBehind ⟨_, default_id r hsort, rfl⟩ (hwired row hmem)
  refine ⟨row, token, hlast, hmint, hne, .inr ⟨before ++ between, row, ?_, hleads⟩⟩
  rw [hrows, append_assoc, ← hsplit]

theorem delivers_keyset (hks : r.Keyset = some ks) (hsort : r.sort = [])
    (hwired : Wired table r ks) : Delivers sha256 table skipCount size r := by
  have hpos : 1 ≤ pageSize size r := pageLimit_pos "" size r.Bounds
  have hdefault : defaultOrdering r = true := by simp [defaultOrdering, hks, hsort]
  refine delivers_of_serves sha256 h
    (KeysetServes sha256 db r ks (arranged arrange r)) (.inl ⟨rfl, rfl⟩) ?_
  intro cursor rest hserves
  obtain ⟨before, hrows⟩ : ∃ before, arranged arrange r = before ++ rest := by
    rcases hserves with ⟨_, rfl⟩ | ⟨before, row, hrows, _⟩
    · exact ⟨[], rfl⟩
    · exact ⟨before ++ [row], by rw [hrows, append_assoc, singleton_append]⟩
  obtain ⟨items, hitems⟩ := h.viewed (hrows ▸ sublist_append_right _ _) (pageSize size r).toNat
  have hserve : ∀ next,
      offsetNextCursor sha256 (decide ((pageSize size r).toNat < rest.length)) 1
        (readColumns r) (rest.take (pageSize size r).toNat) r = .ok next →
      keysetNextCursor sha256 (decide ((pageSize size r).toNat < rest.length)) ks
        (readColumns r) (rest.take (pageSize size r).toNat) r = .ok next →
      pageStep sha256 skipCount size r cursor =
        .ok (items, if next = "" then none else some next) := by
    intro next hoffsetNext hkeysetNext
    rcases hserves with
      ⟨rfl, rfl⟩ | ⟨before, row, hsplit, cur, values, hdecode, hprint, hvalues, hbound⟩
    · exact pageStep_offset sha256 h rfl le_rfl (by omega) (by simp) hitems next hoffsetNext
    · exact pageStep_keyset sha256 h hks hsort hdecode hprint hvalues
        (arrange_seek h hsort hwired hsplit hbound) hitems hkeysetNext
  refine servesPage_of hitems (fun hlast => ?_) fun hmore => ?_
  · rw [decide_eq_false hlast] at hserve
    exact hserve "" rfl (by unfold keysetNextCursor; split <;> rfl)
  · obtain ⟨row, token, hlast, hmint, hne, hnext⟩ :=
      keyset_next sha256 h hsort hwired (by omega) hmore hrows
    rw [decide_eq_true hmore] at hserve
    have hstep := hserve token
      (by simp [offsetNextCursor, hks, hlast, hdefault, hmint])
      (by simp [keysetNextCursor, hlast, hmint])
    rw [if_neg hne] at hstep
    exact ⟨token, hstep, hnext⟩

end Steps

/-- A runner that sorts the selected rows and, as SQL does with LIMIT, refuses a negative
number of rows. -/
def strictRunner {db : Database T κ} (table : Table db) : ListRunner T where
  Count filters bound :=
    if bound < 0 then .error (internal "LIMIT must not be negative")
    else .ok (min (table.select filters).length bound)
  List spec :=
    if spec.Limit < 0 then .error (internal "LIMIT must not be negative")
    else .ok (((sortRows (spec.Order.flatMap db.terms) (table.select spec.Filters)).drop
      spec.Offset.toNat).take spec.Limit.toNat)

theorem strictRunner_faithful {db : Database T κ} {table : Table db} :
    Faithful table (strictRunner table) fun filters order =>
      sortRows (order.flatMap db.terms) (table.select filters) where
  perm _ _ := mergeSort_perm _ _
  sorted _ _ := sortRows_sortedBy
  list spec hlimit _ := if_neg (by omega)
  count filters bound hbound := if_neg (by omega)

section Overflow

variable {db : Database T κ} (table : Table db) (r : Reader T D) (skipCount : Bool) (size : ℤ)

theorem mapErr_error {α : Type} (e : AppError) :
    ∃ failure, mapErr r (.error e : Except AppError α) = .error failure := by
  unfold mapErr
  cases r.MapErr with
  | none => exact ⟨_, rfl⟩
  | some f => exact ⟨_, rfl⟩

theorem wrap64_max : wrap64 (2 ^ 63 - 1 + 1) < 0 := by decide

/-- The largest page size: the limit handed to the runner is negative. -/
theorem run_limit_overflow (h : pageLimit ⟨"", size⟩ r.Bounds = 2 ^ 63 - 1)
    (page : Page D) : run sha256 skipCount ⟨"", size⟩ { r with Runner := strictRunner table } ≠
      .ok page := by
  obtain ⟨failure, hfailure⟩ := mapErr_error (α := List T) { r with Runner := strictRunner table }
    (internal "LIMIT must not be negative")
  simp only [run, decodeToken, if_true, Failure.of, Except.mapError, bind, Except.bind, offsetPage,
    h, strictRunner, if_pos wrap64_max]
  simp only [strictRunner] at hfailure
  rw [hfailure]
  intro hok
  cases hok

/-- The largest count cap: the bound handed to the runner is negative. -/
theorem run_cap_overflow (hcount : r.Count = true) (hskip : skipCount = false)
    (h : r.Bounds.countCap = 2 ^ 63 - 1) (page : Page D) :
    run sha256 skipCount ⟨"", size⟩ { r with Runner := strictRunner table } ≠ .ok page := by
  obtain ⟨failure, hfailure⟩ := mapErr_error (α := ℤ) { r with Runner := strictRunner table }
    (internal "LIMIT must not be negative")
  have htotal : ∀ filters, pageTotal skipCount filters { r with Runner := strictRunner table } =
      .error failure := by
    intro filters
    have hrefused : (strictRunner table).Count filters (wrap64 (r.Bounds.countCap + 1)) =
        .error (internal "LIMIT must not be negative") := by
      simp only [strictRunner, h, if_pos wrap64_max]
    have hcounts : (r.Count && !skipCount) = true := by rw [hcount, hskip]; rfl
    rw [pageTotal, if_pos hcounts]
    simp only [boundedTotal, hrefused, hfailure, bind, Except.bind]
  intro hok
  simp only [run, decodeToken, if_true, Failure.of, Except.mapError, bind, Except.bind, offsetPage,
    htotal] at hok
  split at hok <;> cases hok

end Overflow

/-- The sizes of a request and a reader are 64-bit integers. -/
structure Sized (size : ℤ) (b : Bounds) : Prop where
  page : Fits64 size
  default : Fits64 b.DefaultSize
  max : Fits64 b.MaxSize
  cap : Fits64 b.CountCap

theorem pageLimit_le {size : ℤ} {b : Bounds} (h : Sized size b) :
    pageLimit ⟨"", size⟩ b ≤ 2 ^ 63 - 1 := by
  obtain ⟨⟨_, _⟩, ⟨_, _⟩, ⟨_, _⟩, _⟩ := h
  simp only [pageLimit]
  split <;> split <;> (try split) <;> omega

theorem countCap_le {size : ℤ} {b : Bounds} (h : Sized size b) : b.countCap ≤ 2 ^ 63 - 1 := by
  obtain ⟨_, _, _, _, _⟩ := h
  unfold Bounds.countCap defaultCountCap
  split <;> omega

/-- What the rows of a read and its cursors have to be: on the default order of a keyset
reader, values a token carries; otherwise, no more pages than page numbers. -/
def Walkable {db : Database T κ} (table : Table db) (size : ℤ) (r : Reader T D) : Prop :=
  (∃ ks, r.Keyset = some ks ∧ r.sort = [] ∧ Wired table r ks) ∨
    (r.Keyset = none ∨ r.sort ≠ []) ∧
      ((matched table r).length : ℤ) ≤ (2 ^ 31 - 1) * pageLimit ⟨"", size⟩ r.Bounds

/-- Walks over every faithful runner deliver the matching rows exactly when one can be
added to the page size and the count cap. -/
theorem walks_deliver_iff {db : Database T κ} (table : Table db) (r : Reader T D)
    (skipCount : Bool) (size : ℤ) (hsized : Sized size r.Bounds)
    (hview : ∀ row ∈ matched table r, ∃ d, r.ToDomain row = .ok d)
    (hwalkable : Walkable table size r) :
    (∀ runner arrange, Faithful table runner arrange →
      Delivers sha256 table skipCount size { r with Runner := runner }) ↔
      InRange skipCount size r := by
  constructor
  · intro h
    obtain ⟨_, _, _, _, _, hwalk⟩ := h _ _ strictRunner_faithful
    obtain ⟨page, hpage⟩ := hwalk.step_ok
    obtain ⟨read, hrun⟩ : ∃ read, run sha256 skipCount ⟨"", size⟩
        { r with Runner := strictRunner table } = .ok read := by
      unfold pageStep at hpage
      generalize run sha256 skipCount ⟨"", size⟩ { r with Runner := strictRunner table } = x at *
      cases x with
      | error e => exact nomatch hpage
      | ok read => exact ⟨read, rfl⟩
    have hlimit := pageLimit_le hsized
    have hcap := countCap_le hsized
    refine ⟨lt_of_le_of_ne hlimit fun heq => ?_, fun hcount hskip =>
      lt_of_le_of_ne hcap fun heq => ?_⟩
    · exact run_limit_overflow sha256 table r skipCount size heq read hrun
    · exact run_cap_overflow sha256 table r skipCount size hcount hskip heq read hrun
  · intro hrange runner arrange hf
    have hreadable : Readable table skipCount size { r with Runner := runner } arrange :=
      ⟨hf, hrange, hview⟩
    rcases hwalkable with ⟨ks, hks, hsort, hwired⟩ | ⟨hoffset, hpages⟩
    · exact delivers_keyset sha256 hreadable hks hsort hwired
    · exact delivers_offset sha256 hreadable hoffset hpages

/-- A database that answers comparisons of columns with operands and no other clause. -/
def comparing (cell : T → String → WithTop κ) (operand : Value → Option κ)
    (h : ∀ t t' : Time, t.nanos = t'.nanos →
      operand (.scalar (.time t)) = operand (.scalar (.time t'))) : Database T κ where
  cell := cell
  operand := operand
  clause column op v row :=
    match op, operand v with
    | .opEq, some x => cell row column = x
    | .opLt, some x => cell row column < x
    | .opGt, some x => x < cell row column && cell row column ≠ ⊤
    | _, _ => false
  existsClause _ _ _ _ := false
  terms of :=
    match of.Join, of.Derived, of.Ordinal with
    | none, none, [] => [⟨fun row => cell row of.Field, of.Desc⟩]
    | _, _, _ => []
  operand_instant := h
  clause_eq column v x row hx := by simp [hx]
  clause_lt column v x row hx := by simp [hx]
  clause_gt column v x row hx := by simp [hx]
  terms_plain _ _ := rfl

def numberedCell (row : ℕ) (column : String) : WithTop ℕ :=
  if column = keysetIDColumn then (row : WithTop ℕ)
  else if column = tiebreakerCreatedAt then ((0 : ℕ) : WithTop ℕ) else ⊤

def numberedOperand : Value → Option ℕ
  | .scalar (.str s) => (atoi s).map Int.toNat
  | .scalar (.time t) => some t.nanos.toNat
  | _ => none

/-- Rows that are their own ids, all created at the same instant. -/
def numbered : Database ℕ ℕ :=
  comparing numberedCell numberedOperand fun t t' h => by simp only [numberedOperand, h]

def numberedTable : Table numbered where
  rows := [1, 0, 2]
  unique := by decide
  countable := by decide

def numberedKeyset : Keyset ℕ where
  RowValue row column :=
    if column = keysetIDColumn then some (.scalar (.str (itoa row)))
    else if column = tiebreakerCreatedAt then some (.scalar (.time ⟨0, 0, "UTC"⟩)) else none
  ParseID := none
  TimestampCols column := column = tiebreakerCreatedAt

def numberedReader : Reader ℕ ℕ where
  Runner := strictRunner numberedTable
  Filter := .nil
  ToDomain := .ok
  Resolve := ⟨id, fun _ => none, fun _ => [], fun _ => none⟩
  MapErr := some id
  Keyset := some numberedKeyset
  Tiebreaker := ""
  sort := []
  Bounds := ⟨0, 0, 0⟩
  Count := true

theorem numbered_wired : Wired numberedTable numberedReader numberedKeyset := by
  intro row hrow c hc
  have hsmall : Fits64 row := by
    revert row
    decide
  have hcols : readColumns numberedReader =
      [plainColumn tiebreakerCreatedAt true, plainColumn tiebreakerID true] := by decide
  rw [hcols, mem_cons, mem_singleton] at hc
  rcases hc with rfl | rfl
  · exact .time ⟨0, 0, "UTC"⟩ (by decide) (by decide) rfl (by decide) (by decide) (by decide)
      ⟨0, rfl, rfl⟩
  · refine .id (itoa row) (.scalar (.str (itoa row))) rfl rfl rfl ⟨row, ?_, rfl⟩
    change (atoi (itoa row)).map Int.toNat = some row
    rw [atoi_itoa hsmall]
    rfl

theorem numbered_walks_deliver :
    InRange false 2 numberedReader ∧
      ∀ runner arrange, Faithful numberedTable runner arrange →
        Delivers id numberedTable false 2 { numberedReader with Runner := runner } := by
  have hrange : InRange false 2 numberedReader := ⟨by decide, fun _ _ => by decide⟩
  exact ⟨hrange, (walks_deliver_iff id numberedTable numberedReader false 2
    ⟨by decide, by decide, by decide, by decide⟩ (fun row _ => ⟨row, rfl⟩)
    (.inl ⟨numberedKeyset, rfl, rfl, numbered_wired⟩)).mpr hrange⟩

/-- The largest page size over a table of three rows: the read fails. -/
theorem largest_page_fails :
    pageLimit ⟨"", 2 ^ 63 - 1⟩ numberedReader.Bounds = 2 ^ 63 - 1 ∧
      Faithful numberedTable numberedReader.Runner (fun filters order =>
        sortRows (order.flatMap numbered.terms) (numberedTable.select filters)) ∧
      run id false ⟨"", 2 ^ 63 - 1⟩ numberedReader =
        .error (.err (internal "LIMIT must not be negative")) ∧
      ¬ Delivers id numberedTable false (2 ^ 63 - 1) numberedReader := by
  have hrun : run id false ⟨"", 2 ^ 63 - 1⟩ numberedReader =
      .error (.err (internal "LIMIT must not be negative")) := rfl
  refine ⟨by decide, strictRunner_faithful, hrun, ?_⟩
  rintro ⟨_, _, _, _, _, hwalk⟩
  obtain ⟨page, hpage⟩ := hwalk.step_ok
  exact nomatch hpage

end KnowledgeEngine.PageDelivery
