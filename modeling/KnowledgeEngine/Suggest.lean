import KnowledgeEngine.CoreTypes
import KnowledgeEngine.MachineNumbers
import KnowledgeEngine.SortedUnion
import Mathlib.Data.List.Lex

/-!
Value suggestions over several columns (foundation/listquery/suggest.go). Each
column arrives truncated just far enough for the requested page; the columns are
merged, deduplicated and sorted before the window is cut. Every page is the
corresponding slice of the sorted distinct union of the full columns, and
following the cursors lists that union once.
-/

namespace KnowledgeEngine.Suggest

open MachineNumbers CoreTypes SortedUnion List

/-- A Go string as its bytes; the order of lists is the order of Go strings. -/
abbrev ByteString := List (Fin 256)

def suggestFallbackLimit : ℤ := 10

def suggestPageNumber (token : String) : ℤ :=
  if token = "" then 1
  else match atoi token with
    | some n => if 1 < n then n else 1
    | none => 1

def suggestPage (values : List ByteString) (limit pageNum : ℤ) : Page ByteString :=
  let limit := if limit ≤ 0 then suggestFallbackLimit else limit
  if limit < values.length then
    ⟨values.take limit.toNat, itoa (wrap64 (pageNum + 1)), 0, false, limit, pageNum⟩
  else ⟨values, "", 0, false, limit, pageNum⟩

/-- The merge loop: `seen` is the set of values already in `merged`. -/
def mergeSeen (merged : List ByteString) (v : ByteString) : List ByteString :=
  if v ∈ merged then merged else merged ++ [v]

def mergeOffset (limit pageNum : ℤ) : ℤ := wrap64 (wrap64 (pageNum - 1) * limit)

/-- None when the window cannot be sliced, which in Go is a run-time panic. -/
def mergeDistinct (columns : List (List ByteString)) (limit pageNum : ℤ) :
    Option (Page ByteString) :=
  let limit := if limit ≤ 0 then suggestFallbackLimit else limit
  let merged := (columns.foldl (fun acc col => col.foldl mergeSeen acc) []).mergeSort
  let offset := mergeOffset limit pageNum
  if (merged.length : ℤ) ≤ offset then some (suggestPage [] limit pageNum)
  else
    let probe := wrap64 (wrap64 (offset + limit) + 1)
    let stop := if (merged.length : ℤ) < probe then (merged.length : ℤ) else probe
    if 0 ≤ offset ∧ offset ≤ stop then
      some (suggestPage ((merged.take stop.toNat).drop offset.toNat) limit pageNum)
    else none

/-- How many values of each column the store fetches for a page. -/
def fetched (limit page : ℕ) : ℕ := (page - 1) * limit + limit + 1

/-- Following the cursors from a token, each page over the columns fetched for it.
The walk is defined when it ends within the fuel. -/
def walk (columns : List (List ByteString)) (limit : ℕ) : ℕ → String → Option (List ByteString)
  | 0, _ => none
  | fuel + 1, token =>
    let page := suggestPageNumber token
    (mergeDistinct (columns.map (List.take (fetched limit page.toNat))) limit page).bind
      fun result =>
        if result.NextCursor = "" then some result.Items
        else (walk columns limit fuel result.NextCursor).map (result.Items ++ ·)

/-- The 1-based page of a list of values and the cursor that follows it. -/
def slicePage (values : List ByteString) (limit page : ℕ) : Page ByteString :=
  ⟨(values.drop ((page - 1) * limit)).take limit,
    if page * limit < values.length then itoa (page + 1) else "", 0, false, limit, page⟩

def lastPage (values : List ByteString) (limit : ℕ) : ℕ := (values.length - 1) / limit + 1

theorem mergeSeen_foldl (values merged : List ByteString) (hnodup : merged.Nodup) :
    (values.foldl mergeSeen merged).Nodup ∧
      ∀ x, x ∈ values.foldl mergeSeen merged ↔ x ∈ merged ∨ x ∈ values := by
  induction values generalizing merged with
  | nil => simpa using hnodup
  | cons v values ih =>
    by_cases hv : v ∈ merged
    · have hstep : mergeSeen merged v = merged := if_pos hv
      obtain ⟨hn, hm⟩ := ih merged hnodup
      rw [foldl_cons, hstep]
      refine ⟨hn, fun x => ?_⟩
      rw [hm, mem_cons]
      constructor
      · rintro (h | h)
        · exact Or.inl h
        · exact Or.inr (Or.inr h)
      · rintro (h | rfl | h)
        · exact Or.inl h
        · exact Or.inl hv
        · exact Or.inr h
    · have hstep : mergeSeen merged v = merged ++ [v] := if_neg hv
      obtain ⟨hn, hm⟩ := ih (merged ++ [v]) (by
        rw [nodup_append]
        refine ⟨hnodup, by simp, ?_⟩
        intro a ha b hb
        rw [mem_singleton.mp hb]
        exact fun h => hv (h ▸ ha))
      rw [foldl_cons, hstep]
      refine ⟨hn, fun x => ?_⟩
      rw [hm, mem_append, mem_singleton, mem_cons, or_assoc]

/-- The merge loop followed by the sort computes the sorted distinct union. -/
theorem merged_eq_distinctUnion (columns : List (List ByteString)) :
    (columns.foldl (fun acc col => col.foldl mergeSeen acc) []).mergeSort =
      distinctUnion columns := by
  have hflat : columns.foldl (fun acc col => col.foldl mergeSeen acc) [] =
      columns.flatten.foldl mergeSeen [] := by
    rw [foldl_flatten]
  obtain ⟨hnodup, hmem⟩ := mergeSeen_foldl columns.flatten [] nodup_nil
  rw [hflat]
  have hperm := mergeSort_perm (columns.flatten.foldl mergeSeen []) (fun a b => decide (a ≤ b))
  apply eq_distinctUnion
  · exact sortedLE_mergeSort.sortedLT_of_nodup (hperm.nodup_iff.mpr hnodup)
  · intro x
    rw [hperm.mem_iff, hmem]
    simp

variable {limit page : ℕ}

theorem suggestPage_of_pos {values : List ByteString} (hlimit : 0 < limit) (hpage : page < 2 ^ 62) :
    suggestPage values limit page =
      ⟨values.take limit, if limit < values.length then itoa (page + 1) else "", 0, false,
        limit, page⟩ := by
  have hnext : wrap64 ((page : ℤ) + 1) = page + 1 := wrap64_of_fits ⟨by omega, by omega⟩
  have hpos : ¬(limit : ℤ) ≤ 0 := by omega
  unfold suggestPage
  simp only [hpos, if_false, hnext, Int.ofNat_lt, Int.toNat_natCast]
  by_cases hmore : limit < values.length
  · rw [if_pos hmore, if_pos hmore]
  · rw [if_neg hmore, if_neg hmore, take_of_length_le (by omega)]

variable {columns : List (List ByteString)}

/-- Without overflow the window is the slice of the merged values after the offset. -/
theorem mergeDistinct_eq (hlimit : 0 < limit) (hpage : 1 ≤ page) (hbound : page * limit < 2 ^ 62) :
    mergeDistinct columns limit page =
      some (suggestPage (((distinctUnion columns).take (fetched limit page)).drop
        ((page - 1) * limit)) limit page) := by
  obtain ⟨before, rfl⟩ : ∃ before, page = before + 1 := ⟨page - 1, by omega⟩
  have hsize : (before + 1) * limit = before * limit + limit := Nat.succ_mul _ _
  have hpos : ¬(limit : ℤ) ≤ 0 := by omega
  have hbefore : wrap64 (((before + 1 : ℕ) : ℤ) - 1) = before := by
    have : before ≤ before * limit := Nat.le_mul_of_pos_right _ hlimit
    rw [wrap64_of_fits ⟨by omega, by omega⟩]
    omega
  have hoffset : wrap64 ((before : ℤ) * limit) = ((before * limit : ℕ) : ℤ) := by
    rw [← Int.natCast_mul]
    exact wrap64_of_fits ⟨by omega, by omega⟩
  have hprobe : wrap64 (wrap64 (((before * limit : ℕ) : ℤ) + limit) + 1) =
      ((before * limit + limit + 1 : ℕ) : ℤ) := by
    rw [wrap64_of_fits (x := ((before * limit : ℕ) : ℤ) + limit) ⟨by omega, by omega⟩]
    rw [wrap64_of_fits ⟨by omega, by omega⟩]
    omega
  unfold mergeDistinct mergeOffset fetched
  simp only [hpos, if_false, merged_eq_distinctUnion, hbefore, hoffset, hprobe, Int.ofNat_le,
    Int.ofNat_lt, Nat.add_sub_cancel]
  generalize distinctUnion columns = union
  by_cases hend : union.length ≤ before * limit
  · have hempty : (union.take (before * limit + limit + 1)).drop (before * limit) = [] :=
      drop_eq_nil_of_le (by rw [length_take]; omega)
    rw [if_pos hend, hempty]
  · rw [if_neg hend]
    by_cases hshort : union.length < before * limit + limit + 1
    · rw [if_pos hshort, if_pos ⟨by omega, by omega⟩, Int.toNat_natCast, Int.toNat_natCast,
        take_of_length_le le_rfl, take_of_length_le (by omega)]
    · rw [if_neg hshort, if_pos ⟨by omega, by omega⟩, Int.toNat_natCast, Int.toNat_natCast]

/-- A page over the truncated columns is the slice of the union of the full columns. -/
theorem mergeDistinct_fetched (hsorted : ∀ c ∈ columns, c.SortedLT) (hlimit : 0 < limit)
    (hpage : 1 ≤ page) (hbound : page * limit < 2 ^ 62) :
    mergeDistinct (columns.map (List.take (fetched limit page))) limit page =
      some (slicePage (distinctUnion columns) limit page) := by
  have hpage62 : page < 2 ^ 62 := lt_of_le_of_lt (Nat.le_mul_of_pos_right _ hlimit) hbound
  have hsize : (page - 1) * limit + limit = page * limit := by
    rw [← Nat.succ_mul, Nat.succ_eq_add_one, Nat.sub_add_cancel hpage]
  rw [mergeDistinct_eq hlimit hpage hbound, take_distinctUnion_truncate hsorted,
    suggestPage_of_pos hlimit hpage62]
  unfold slicePage fetched
  generalize distinctUnion columns = union
  have hitems : ((union.take ((page - 1) * limit + limit + 1)).drop ((page - 1) * limit)).take
      limit = (union.drop ((page - 1) * limit)).take limit := by
    rw [drop_take, take_take]
    congr 1
    omega
  have hmore : limit < ((union.take ((page - 1) * limit + limit + 1)).drop
      ((page - 1) * limit)).length ↔ page * limit < union.length := by
    rw [length_drop, length_take]
    omega
  simp only [hitems, hmore]

theorem suggestPageNumber_itoa (n : ℕ) (hn : 1 < n) (hfit : n < 2 ^ 63) :
    suggestPageNumber (itoa n) = n := by
  unfold suggestPageNumber
  rw [if_neg itoa_ne_empty, atoi_itoa ⟨by omega, by omega⟩]
  exact if_pos (by omega)

/-- One step of the walk: the slice, and the rest exactly when the union goes on. -/
theorem walk_succ (hsorted : ∀ c ∈ columns, c.SortedLT) {fuel : ℕ} {token : String}
    (hlimit : 0 < limit) (hpage : 1 ≤ page) (hbound : page * limit < 2 ^ 62)
    (htoken : suggestPageNumber token = page) :
    walk columns limit (fuel + 1) token =
      if page * limit < (distinctUnion columns).length then
        (walk columns limit fuel (itoa (page + 1))).map
          (((distinctUnion columns).drop ((page - 1) * limit)).take limit ++ ·)
      else some (((distinctUnion columns).drop ((page - 1) * limit)).take limit) := by
  have hresult := mergeDistinct_fetched hsorted hlimit hpage hbound
  simp only [walk, htoken, Int.toNat_natCast, hresult, slicePage, Option.bind_some]
  by_cases hmore : page * limit < (distinctUnion columns).length
  · simp only [if_pos hmore, itoa_ne_empty, if_false]
  · simp only [if_neg hmore, if_true]

/-- From the cursor of a page the walk lists the rest of the union. -/
theorem walk_from (columns : List (List ByteString)) (hsorted : ∀ c ∈ columns, c.SortedLT)
    (limit : ℕ) (hlimit : 0 < limit)
    (hbound : lastPage (distinctUnion columns) limit * limit < 2 ^ 62) (fuel : ℕ) :
    ∀ (page : ℕ) (token : String), 1 ≤ page → page ≤ lastPage (distinctUnion columns) limit →
      lastPage (distinctUnion columns) limit < page + fuel →
      suggestPageNumber token = page →
      walk columns limit fuel token = some ((distinctUnion columns).drop ((page - 1) * limit)) := by
  induction fuel with
  | zero => omega
  | succ fuel ih =>
    intro page token hpage hlast hfuel htoken
    have hthis : page * limit < 2 ^ 62 := lt_of_le_of_lt (Nat.mul_le_mul_right _ hlast) hbound
    have hsize : (page - 1) * limit + limit = page * limit := by
      rw [← Nat.succ_mul, Nat.succ_eq_add_one, Nat.sub_add_cancel hpage]
    rw [walk_succ hsorted hlimit hpage hthis htoken]
    by_cases hmore : page * limit < (distinctUnion columns).length
    · have hnext : page + 1 ≤ lastPage (distinctUnion columns) limit := by
        unfold lastPage
        have : page ≤ ((distinctUnion columns).length - 1) / limit :=
          (Nat.le_div_iff_mul_le hlimit).mpr (by omega)
        omega
      have hfit : page + 1 < 2 ^ 63 := by
        have : page ≤ page * limit := Nat.le_mul_of_pos_right _ hlimit
        omega
      have hrest := ih (page + 1) (itoa ((page + 1 : ℕ) : ℤ)) (by omega) hnext (by omega)
        (suggestPageNumber_itoa (page + 1) (by omega) hfit)
      rw [if_pos hmore, ← Int.natCast_succ, hrest, Option.map_some, Nat.add_sub_cancel, ← hsize,
        ← drop_drop, take_append_drop]
    · rw [if_neg hmore, take_of_length_le (by rw [length_drop]; omega)]

/-- Pages over truncated columns slice the sorted distinct union of the full columns,
and following the cursors from the empty one lists that union and stops. -/
theorem pages_partition_distinctUnion (columns : List (List ByteString))
    (hsorted : ∀ c ∈ columns, c.SortedLT) (limit : ℕ) (hlimit : 0 < limit) :
    (∀ page : ℕ, 1 ≤ page → page * limit < 2 ^ 62 →
      mergeDistinct (columns.map (List.take (fetched limit page))) limit page =
        some (slicePage (distinctUnion columns) limit page)) ∧
    (lastPage (distinctUnion columns) limit * limit < 2 ^ 62 →
      ∀ fuel : ℕ, lastPage (distinctUnion columns) limit ≤ fuel →
        walk columns limit fuel "" = some (distinctUnion columns)) := by
  refine ⟨fun page hpage hbound =>
    mergeDistinct_fetched hsorted hlimit hpage hbound, ?_⟩
  intro hbound fuel hfuel
  have hfirst : 1 ≤ lastPage (distinctUnion columns) limit := Nat.succ_pos _
  have hwalk := walk_from columns hsorted limit hlimit hbound fuel 1 "" le_rfl hfirst
    (by omega) rfl
  rw [hwalk, Nat.sub_self, Nat.zero_mul, drop_zero]

/-- First names a, c and last names b, c. -/
def names : List (List ByteString) := [[[97], [99]], [[98], [99]]]

theorem names_sorted : ∀ c ∈ names, c.SortedLT := by
  simp only [names, mem_cons, not_mem_nil, or_false, forall_eq_or_imp, forall_eq,
    sortedLT_iff_pairwise]
  decide

theorem distinctUnion_names : distinctUnion names = [[97], [98], [99]] := by
  symm
  apply eq_distinctUnion
  · rw [sortedLT_iff_pairwise]
    decide
  · intro x
    simp only [names, mem_cons, not_mem_nil, or_false, exists_eq_or_imp, exists_eq_left]
    tauto

theorem pages_of_names :
    mergeDistinct (names.map (List.take (fetched 2 1))) 2 1 =
        some ⟨[[97], [98]], "2", 0, false, 2, 1⟩ ∧
      walk names 2 2 "" = some [[97], [98], [99]] := by
  obtain ⟨hpage, hwalk⟩ := pages_partition_distinctUnion names names_sorted 2 (by decide)
  rw [distinctUnion_names] at hpage hwalk
  refine ⟨?_, hwalk (by decide) 2 (by decide)⟩
  exact (hpage 1 le_rfl (by decide)).trans (by decide)

end KnowledgeEngine.Suggest
