import KnowledgeEngine.PageRun
import KnowledgeEngine.Suggest

/-!
The arithmetic of page numbers (foundation/listquery): the row offset of an offset page and of
a suggest page, and the page the next token denotes. A page token carries an int32, a suggest
token any int; both pass through 64-bit arithmetic.
-/

namespace KnowledgeEngine.PageArithmetic

open CoreTypes JsonDecode KeysetOrder MachineNumbers PageRun PageTokens SortedUnion Suggest

/-- The page offsetPage serves for the page a token carries. -/
def servedPage (pageNum : ℤ) : ℤ := if pageNum < 1 then 1 else pageNum

/-- A slice of strings takes sixteen bytes a string. -/
def FitsMemory (columns : List (List ByteString)) : Prop :=
  (distinctUnion columns).length < 2 ^ 59

theorem decodeInt32_fits {old n : ℤ} {j : JsonText.Json} (hold : -2 ^ 31 ≤ old ∧ old < 2 ^ 31)
    (h : decodeInt32 old j = some n) : -2 ^ 31 ≤ n ∧ n < 2 ^ 31 := by
  cases j with
  | null => exact Option.some.inj h ▸ hold
  | num literal => exact of_decide_eq_true (Option.filter_eq_some_iff.mp h).2
  | _ => cases h

theorem decodeTokenMember_fits {t t' : PageToken} {member : String × JsonText.Json}
    (ht : -2 ^ 31 ≤ t.OffsetPage ∧ t.OffsetPage < 2 ^ 31)
    (h : decodeTokenMember t member = some t') :
    -2 ^ 31 ≤ t'.OffsetPage ∧ t'.OffsetPage < 2 ^ 31 := by
  rw [decodeTokenMember] at h
  split at h
  · obtain ⟨k, -, rfl⟩ := Option.map_eq_some_iff.mp h
    exact ht
  · split at h
    · obtain ⟨o, ho, rfl⟩ := Option.map_eq_some_iff.mp h
      exact decodeInt32_fits ht ho
    · exact Option.some.inj h ▸ ht

theorem decodeTokenMembers_fits {members : List (String × JsonText.Json)} {t t' : PageToken}
    (ht : -2 ^ 31 ≤ t.OffsetPage ∧ t.OffsetPage < 2 ^ 31)
    (h : members.foldlM decodeTokenMember t = some t') :
    -2 ^ 31 ≤ t'.OffsetPage ∧ t'.OffsetPage < 2 ^ 31 := by
  induction members generalizing t with
  | nil => exact Option.some.inj h ▸ ht
  | cons member rest ih =>
    rw [List.foldlM_cons] at h
    obtain ⟨middle, hmiddle, hrest⟩ := Option.bind_eq_some_iff.mp h
    exact ih (decodeTokenMember_fits ht hmiddle) hrest

/-- The page of an accepted token is an int32. -/
theorem decodeToken_fits {token : String} {pageNum : ℤ}
    (h : decodeToken token = .ok ⟨none, pageNum⟩) : -2 ^ 31 ≤ pageNum ∧ pageNum < 2 ^ 31 := by
  rw [decodeToken] at h
  split at h
  · cases h
    decide
  · split at h
    · cases h
    · next t ht =>
      have hfits : -2 ^ 31 ≤ t.OffsetPage ∧ t.OffsetPage < 2 ^ 31 := by
        obtain ⟨raw, -, hraw⟩ := Option.bind_eq_some_iff.mp ht
        obtain ⟨j, -, hj⟩ := Option.bind_eq_some_iff.mp hraw
        cases j with
        | null => exact Option.some.inj hj ▸ (by decide)
        | obj members => exact decodeTokenMembers_fits (by decide) hj
        | _ => cases hj
      split at h
      · cases h
      · cases h
        exact hfits

section Offset

variable {T D : Type} (sha256 : List UInt8 → List UInt8) (skipCount : Bool)
  (cols : List KeysetColumn) (order : List OrderField) (userF : Filter) {pageNum limit : ℤ}

/-- The page depends on the rows at one offset only. -/
theorem offsetPage_requests {r : Reader T D} {list : ListSpec → Except AppError (List T)}
    (hagree : ∀ spec, spec.Offset = wrap64 ((servedPage pageNum - 1) * limit) →
      list spec = r.Runner.List spec) :
    offsetPage sha256 skipCount pageNum cols order userF limit
        { r with Runner := ⟨r.Runner.Count, list⟩ } =
      offsetPage sha256 skipCount pageNum cols order userF limit r := by
  have hrows := hagree ⟨nonEmpty userF, order, wrap64 (limit + 1),
    wrap64 ((servedPage pageNum - 1) * limit)⟩ rfl
  rw [servedPage] at hrows
  simp only [offsetPage, hrows]
  rfl

theorem servedPage_bounds (hpage : pageNum < 2 ^ 31) :
    1 ≤ servedPage pageNum ∧ servedPage pageNum < 2 ^ 31 := by
  rw [servedPage]
  split <;> omega

theorem servedOffset_exact (hpage : -2 ^ 31 ≤ pageNum ∧ pageNum < 2 ^ 31)
    (hlimit : 1 ≤ limit ∧ limit < 2 ^ 31) :
    wrap64 ((servedPage pageNum - 1) * limit) = (servedPage pageNum - 1) * limit ∧
      0 ≤ (servedPage pageNum - 1) * limit := by
  have hserved := servedPage_bounds hpage.2
  have hnonneg : 0 ≤ (servedPage pageNum - 1) * limit := Int.mul_nonneg (by omega) (by omega)
  have hle : (servedPage pageNum - 1) * limit ≤ 2 ^ 31 * 2 ^ 31 :=
    Int.mul_le_mul (by omega) (by omega) (by omega) (by omega)
  exact ⟨wrap64_of_fits ⟨by omega, by omega⟩, hnonneg⟩

theorem of_eq_ok {α : Type} {x : Except AppError α} {a : α} (h : Failure.of x = .ok a) :
    x = .ok a := by
  cases x with
  | error e => cases h
  | ok b => exact congrArg Except.ok (Except.ok.inj h)

/-- The next token of an offset page with more rows behind it is that of the next page, as an
int32. -/
theorem offsetPage_next {r : Reader T D} {page : Page D} {fetched : List T}
    (hrows : r.Runner.List ⟨nonEmpty userF, order, wrap64 (limit + 1),
      wrap64 ((servedPage pageNum - 1) * limit)⟩ = .ok fetched)
    (h : offsetPage sha256 skipCount pageNum cols order userF limit r = .ok page)
    (hdefault : defaultOrdering r = false) :
    (if limit < fetched.length then encodeToken ⟨none, wrap32 (servedPage pageNum + 1)⟩
      else .ok "") = .ok page.NextCursor := by
  rw [offsetPage] at h
  obtain ⟨rows, hfetched, h⟩ := FilterParse.bind_ok_iff.mp h
  rw [← servedPage, hrows] at hfetched
  obtain rfl : fetched = rows := Except.ok.inj hfetched
  obtain ⟨total, -, h⟩ := FilterParse.bind_ok_iff.mp h
  obtain ⟨next, hnext, h⟩ := FilterParse.bind_ok_iff.mp h
  obtain ⟨items, -, h⟩ := FilterParse.bind_ok_iff.mp h
  obtain rfl : page.NextCursor = next := by rw [← Except.ok.inj h]
  rw [← servedPage] at hnext
  have hcursor : offsetNextCursor sha256 (cutPage limit fetched).2 (servedPage pageNum) cols
      (cutPage limit fetched).1 r = .ok page.NextCursor := of_eq_ok hnext
  rw [← hcursor, offsetNextCursor, cutPage]
  split
  · simp only [hdefault, Bool.not_true, Bool.false_eq_true, if_false]
    split <;> rfl
  · rfl

/-- Only behind the page of the last int32 the next token is not that of the next page. -/
theorem next_denotes_iff {more : Prop} [Decidable more] {next : String}
    (hpage : -2 ^ 31 ≤ pageNum ∧ pageNum < 2 ^ 31)
    (hnext : (if more then encodeToken ⟨none, wrap32 (servedPage pageNum + 1)⟩ else .ok "") =
      .ok next) :
    (next ≠ "" ↔ more) ∧ (more → (decodeToken next = .ok ⟨none, servedPage pageNum + 1⟩ ↔
      servedPage pageNum < 2 ^ 31 - 1)) := by
  have hserved := servedPage_bounds hpage.2
  by_cases hmore : more
  · rw [if_pos hmore] at hnext
    have hwrap : wrap32 (servedPage pageNum + 1) ≠ 0 ∧
        -2 ^ 31 ≤ wrap32 (servedPage pageNum + 1) ∧ wrap32 (servedPage pageNum + 1) < 2 ^ 31 := by
      rw [wrap32, Int.bmod_def]
      split <;> omega
    obtain ⟨token, htoken, hne, hdecode⟩ :=
      decodeToken_offset_of_ne_zero _ hwrap.1 hwrap.2.1 hwrap.2.2
    obtain rfl : token = next := Except.ok.inj (htoken.symm.trans hnext)
    refine ⟨iff_of_true hne hmore, fun _ => ?_⟩
    rw [hdecode]
    constructor
    · intro heq
      have hsame : wrap32 (servedPage pageNum + 1) = servedPage pageNum + 1 := by
        injection heq with heq
        injection heq
      omega
    · intro hlt
      rw [wrap32_of_fits (by omega) (by omega)]
  · rw [if_neg hmore] at hnext
    obtain rfl : "" = next := Except.ok.inj hnext
    exact ⟨iff_of_false (fun h => h rfl) hmore, fun h => absurd h hmore⟩

end Offset

section Suggest

theorem suggestPageNumber_bounds (token : String) :
    1 ≤ suggestPageNumber token ∧ suggestPageNumber token < 2 ^ 63 := by
  rw [suggestPageNumber]
  split
  · decide
  · split
    · next n hn =>
      have hfits : Fits64 n := parseDecimal_fits hn
      split
      · exact ⟨by omega, hfits.2⟩
      · decide
    · decide

variable {limit pageNum : ℤ}

theorem mergeOffset_eq (hpage : 1 ≤ pageNum ∧ pageNum < 2 ^ 63) :
    mergeOffset limit pageNum = wrap64 ((pageNum - 1) * limit) := by
  rw [mergeOffset, wrap64_of_fits (x := pageNum - 1) ⟨by omega, by omega⟩]

theorem wrap64_lt (x : ℤ) : wrap64 x < 2 ^ 63 := by
  have h := Int.bmod_lt (x := x) (m := 2 ^ 64) (by decide)
  rw [wrap64]
  omega

/-- The offset is exact if and only if it fits in 64 bits. -/
theorem mergeOffset_exact_iff (hlimit : 1 ≤ limit) (hpage : 1 ≤ pageNum ∧ pageNum < 2 ^ 63) :
    mergeOffset limit pageNum = (pageNum - 1) * limit ↔ (pageNum - 1) * limit < 2 ^ 63 := by
  have hnonneg : 0 ≤ (pageNum - 1) * limit := Int.mul_nonneg (by omega) (by omega)
  rw [mergeOffset_eq hpage]
  constructor
  · intro h
    exact h ▸ wrap64_lt _
  · exact fun h => wrap64_of_fits ⟨by omega, h⟩

theorem suggestPage_next {values : List ByteString} (hlimit : 1 ≤ limit) :
    (suggestPage values limit pageNum).NextCursor =
      if limit < values.length then itoa (wrap64 (pageNum + 1)) else "" := by
  have hpos : ¬ limit ≤ 0 := by omega
  simp only [suggestPage, hpos, if_false]
  split <;> rfl

/-- The next token denotes the next page if and only if that is an int. -/
theorem suggestPage_next_denotes_iff (hlimit : 1 ≤ limit) (hpage : 1 ≤ pageNum ∧ pageNum < 2 ^ 63) :
    (∀ values : List ByteString, limit < values.length →
        suggestPageNumber (suggestPage values limit pageNum).NextCursor = pageNum + 1) ↔
      pageNum < 2 ^ 63 - 1 := by
  constructor
  · intro h
    have hnext := h (List.replicate (limit.toNat + 1) []) (by rw [List.length_replicate]; omega)
    have hbounds := suggestPageNumber_bounds
      (suggestPage (List.replicate (limit.toNat + 1) []) limit pageNum).NextCursor
    omega
  · intro hlt values hmore
    have hcursor := suggestPageNumber_itoa (pageNum + 1).toNat (by omega) (by omega)
    rw [Int.toNat_of_nonneg (by omega)] at hcursor
    rw [suggestPage_next hlimit, if_pos hmore, wrap64_of_fits ⟨by omega, by omega⟩, hcursor]

variable {columns : List (List ByteString)}

/-- With an exact offset the window is cut and the next token is right. -/
theorem mergeDistinct_of_exact (hmemory : FitsMemory columns) (hlimit : 1 ≤ limit ∧ limit < 2 ^ 31)
    (hpage : 1 ≤ pageNum ∧ pageNum < 2 ^ 63) (hfits : (pageNum - 1) * limit < 2 ^ 63) :
    ∃ page, mergeDistinct columns limit pageNum = some page ∧
      (page.NextCursor ≠ "" ↔ pageNum * limit < (distinctUnion columns).length) ∧
      (pageNum * limit < (distinctUnion columns).length →
        suggestPageNumber page.NextCursor = pageNum + 1) := by
  have hlength : (distinctUnion columns).length < 2 ^ 59 := hmemory
  have hnonneg : 0 ≤ (pageNum - 1) * limit := Int.mul_nonneg (by omega) (by omega)
  have hbefore : pageNum - 1 ≤ (pageNum - 1) * limit :=
    le_mul_of_one_le_right (by omega) hlimit.1
  have hstop : pageNum * limit = (pageNum - 1) * limit + limit := by ring
  have hpos : ¬ limit ≤ 0 := by omega
  simp only [mergeDistinct, merged_eq_distinctUnion, hpos, if_false,
    (mergeOffset_exact_iff hlimit.1 hpage).mpr hfits, hstop]
  generalize (pageNum - 1) * limit = offset at *
  generalize distinctUnion columns = union at *
  have hcut (window : List ByteString)
      (hmore : limit < window.length ↔ offset + limit < union.length) :
      ((suggestPage window limit pageNum).NextCursor ≠ "" ↔ offset + limit < union.length) ∧
        (offset + limit < union.length →
          suggestPageNumber (suggestPage window limit pageNum).NextCursor = pageNum + 1) := by
    refine ⟨?_, fun h => (suggestPage_next_denotes_iff hlimit.1 hpage).mpr (by omega) _
      (hmore.mpr h)⟩
    rw [suggestPage_next hlimit.1, ← hmore]
    by_cases hlt : limit < window.length <;> simp [hlt, itoa_ne_empty]
  split
  · exact ⟨_, rfl, hcut [] (by rw [List.length_nil]; omega)⟩
  · next hshort =>
    have hprobe : wrap64 (wrap64 (offset + limit) + 1) = offset + limit + 1 := by
      rw [wrap64_of_fits (x := offset + limit) ⟨by omega, by omega⟩]
      exact wrap64_of_fits ⟨by omega, by omega⟩
    rw [hprobe, if_pos ⟨hnonneg, by split <;> omega⟩]
    refine ⟨_, rfl, hcut _ ?_⟩
    rw [List.length_drop, List.length_take]
    split <;> omega

/-- A negative offset is sliced with, and panics, whatever the columns. -/
theorem mergeDistinct_none_of_negative (hlimit : 1 ≤ limit)
    (hnegative : mergeOffset limit pageNum < 0) : mergeDistinct columns limit pageNum = none := by
  have hpos : ¬ limit ≤ 0 := by omega
  simp only [mergeDistinct, merged_eq_distinctUnion, hpos, if_false]
  rw [if_neg (by omega), if_neg (fun h => by omega)]

end Suggest

/-- For page sizes of 1 to 2^31 - 1. An offset page asks for the rows at (p - 1) * size. It has a
next token if the runner found a row more, and unless that is a keyset cursor it denotes page
p + 1 if and only if p is below 2^31 - 1. On a suggest page the offset is (p - 1) * size, no
slice is out of range and where values remain the next token denotes p + 1 if and only if
(p - 1) * size fits in an int; over a single column, if and only if p + 1 does. -/
theorem page_arithmetic_iff (limit : ℤ) (hlimit : 1 ≤ limit ∧ limit < 2 ^ 31) :
    (∀ token pageNum, decodeToken token = .ok ⟨none, pageNum⟩ →
      0 ≤ (servedPage pageNum - 1) * limit ∧
      ∀ (T D : Type) sha256 skipCount cols order userF (r : Reader T D),
        (∀ list, (∀ spec, spec.Offset = (servedPage pageNum - 1) * limit →
            list spec = r.Runner.List spec) →
          offsetPage sha256 skipCount pageNum cols order userF limit
              { r with Runner := ⟨r.Runner.Count, list⟩ } =
            offsetPage sha256 skipCount pageNum cols order userF limit r) ∧
        ∀ fetched page, r.Runner.List ⟨nonEmpty userF, order, limit + 1,
            (servedPage pageNum - 1) * limit⟩ = .ok fetched →
          offsetPage sha256 skipCount pageNum cols order userF limit r = .ok page →
          defaultOrdering r = false →
            (page.NextCursor ≠ "" ↔ limit < fetched.length) ∧
            (limit < fetched.length →
              (decodeToken page.NextCursor = .ok ⟨none, servedPage pageNum + 1⟩ ↔
                servedPage pageNum < 2 ^ 31 - 1))) ∧
    (∀ token pageNum, suggestPageNumber token = pageNum →
      ((mergeOffset limit pageNum = (pageNum - 1) * limit ∧ 0 ≤ mergeOffset limit pageNum ∧
          ∀ columns, FitsMemory columns → ∃ page, mergeDistinct columns limit pageNum = some page ∧
            (page.NextCursor ≠ "" ↔ pageNum * limit < (distinctUnion columns).length) ∧
            (pageNum * limit < (distinctUnion columns).length →
              suggestPageNumber page.NextCursor = pageNum + 1)) ↔
        (pageNum - 1) * limit < 2 ^ 63) ∧
      ((∀ values : List ByteString, limit < values.length →
          suggestPageNumber (suggestPage values limit pageNum).NextCursor = pageNum + 1) ↔
        pageNum < 2 ^ 63 - 1)) := by
  refine ⟨?_, ?_⟩
  · intro token pageNum htoken
    have hpage := decodeToken_fits htoken
    obtain ⟨hexact, hnonneg⟩ := servedOffset_exact hpage hlimit
    refine ⟨hnonneg, fun T D sha256 skipCount cols order userF r => ⟨?_, ?_⟩⟩
    · intro list hagree
      refine offsetPage_requests sha256 skipCount cols order userF ?_
      rwa [hexact]
    · intro fetched page hrows hserved hdefault
      rw [← hexact, ← wrap64_of_fits (x := limit + 1) ⟨by omega, by omega⟩] at hrows
      exact next_denotes_iff hpage
        (offsetPage_next sha256 skipCount cols order userF hrows hserved hdefault)
  · rintro token pageNum rfl
    have hpage := suggestPageNumber_bounds token
    refine ⟨?_, suggestPage_next_denotes_iff hlimit.1 hpage⟩
    constructor
    · exact fun h => (mergeOffset_exact_iff hlimit.1 hpage).mp h.1
    · intro hfits
      have hexact := (mergeOffset_exact_iff hlimit.1 hpage).mpr hfits
      refine ⟨hexact, ?_, fun columns hmemory =>
        mergeDistinct_of_exact hmemory hlimit hpage hfits⟩
      rw [hexact]
      exact Int.mul_nonneg (by omega) (by omega)

/-- A reader without a keyset whose table never ends. -/
def endless : Reader Unit Unit where
  Runner := ⟨fun _ n => .ok n, fun _ => .ok [(), ()]⟩
  Filter := .nil
  ToDomain := .ok
  Resolve := ⟨id, fun _ => none, fun _ => [], fun _ => none⟩
  MapErr := none
  Keyset := none
  Tiebreaker := ""
  sort := []
  Bounds := ⟨0, 0, 0⟩
  Count := false

theorem page_arithmetic_two :
    (∃ page, offsetPage (fun _ => []) false 1 [] [] .nil 1 endless = .ok page ∧
      decodeToken page.NextCursor = .ok ⟨none, 2⟩) ∧
    (∃ page, mergeDistinct names 2 1 = some page ∧ suggestPageNumber page.NextCursor = 2) ∧
    suggestPageNumber (suggestPage [[97], [98]] 1 1).NextCursor = 2 := by
  obtain ⟨hoffset, hsuggest⟩ := page_arithmetic_iff 1 ⟨by decide, by decide⟩
  obtain ⟨-, hmerge⟩ := page_arithmetic_iff 2 ⟨by decide, by decide⟩
  refine ⟨?_, ?_, (hsuggest "" 1 rfl).2.mpr (by decide) _ (by decide)⟩
  · obtain ⟨next, hencode, -, -⟩ := decodeToken_offset 2 (by decide) (by decide)
    have hpage : offsetPage (fun _ => []) false 1 [] [] .nil 1 endless =
        Failure.of (encodeToken ⟨none, 2⟩) >>= fun next => .ok ⟨[()], next, 0, false, 1, 1⟩ := rfl
    rw [hencode] at hpage
    refine ⟨_, hpage, ?_⟩
    exact ((((hoffset "" 1 rfl).2 _ _ _ _ _ _ _ _).2 _ _ rfl hpage rfl).2 (by decide)).mpr
      (by decide)
  · obtain ⟨page, hpage, -, hnext⟩ := (((hmerge "" 1 rfl).1.mpr (by decide)).2.2 names (by
      rw [FitsMemory, distinctUnion_names]
      decide))
    rw [distinctUnion_names] at hnext
    exact ⟨page, hpage, hnext (by decide)⟩

/-- The page after page 2^31 - 1 is page 1 again, and a suggest token far enough out makes
MergeDistinct slice with a negative offset. -/
theorem page_numbers_wrap :
    (∃ next, offsetPage (fun _ => []) false 2147483647 [] [] .nil 1 endless =
        .ok ⟨[()], next, 0, false, 1, 2147483647⟩ ∧
      decodeToken next = .ok ⟨none, -2147483648⟩ ∧ servedPage (-2147483648) = 1) ∧
    mergeDistinct [] 10 (suggestPageNumber "1152921504606846977") = none := by
  refine ⟨?_, ?_⟩
  · obtain ⟨next, hencode, -, hdecode⟩ := decodeToken_offset_of_ne_zero (-2147483648)
      (by decide) (by decide) (by decide)
    refine ⟨next, ?_, hdecode, rfl⟩
    have hcursor : offsetNextCursor (fun _ => []) true 2147483647 [] [()] endless = .ok next :=
      hencode
    have hpage : offsetPage (fun _ => []) false 2147483647 [] [] .nil 1 endless =
        Failure.of (offsetNextCursor (fun _ => []) true 2147483647 [] [()] endless) >>=
          fun next => .ok ⟨[()], next, 0, false, 1, 2147483647⟩ := rfl
    rw [hpage, hcursor]
    rfl
  · exact mergeDistinct_none_of_negative (by decide) (by decide)

end KnowledgeEngine.PageArithmetic
