import KnowledgeEngine.S3Upload

/-!
When a truncated body is never committed as a complete S3 object. The object Upload
completes is the body, whatever the order its parts finish in, and the only failures it takes
for the end of the body are the errors that wrap an end-of-file sentinel.
-/

namespace KnowledgeEngine.S3Commit

open ByteText ByteReaders Chunks CoreTypes MachineNumbers S3Upload List

section Parts

variable (answers : Answers) (target : Target)

/-- All part uploads succeeded: there are no more parts than S3 takes. -/
theorem waitError_none_iff (n : ℕ) :
    waitError answers target n = none ↔ ∀ i < n, ∃ etag, answers.UploadPart i = .ok etag := by
  rw [waitError, List.findSome?_eq_none_iff]
  constructor
  · intro h i hi
    have hmem : i ∈ answers.finish n := (answers.finish_perm n).mem_iff.mpr (mem_range.mpr hi)
    have hnone := h i hmem
    cases hpart : answers.UploadPart i with
    | error err =>
      rw [hpart] at hnone
      cases hnone
    | ok etag => exact ⟨etag, rfl⟩
  · intro h i hi
    obtain ⟨etag, hetag⟩ := h i (mem_range.mp ((answers.finish_perm n).mem_iff.mp hi))
    simp only [hetag]

theorem partNumber_eq (i : ℕ) (hi : i < 2 ^ 31 - 1) : partNumber i = i + 1 := by
  rw [partNumber]
  apply wrap32_of_fits <;> omega

theorem parts_le (n : ℕ) (h : ∀ i < n, ∃ etag, answers.UploadPart i = .ok etag) : n ≤ 10000 := by
  by_contra hlarge
  obtain ⟨etag, hetag⟩ := h 10000 (by omega)
  have hnumber := (answers.numbered 10000 etag hetag).2
  rw [partNumber_eq 10000 (by omega)] at hnumber
  omega

/-- The entity tag of a part that was uploaded. -/
def etagOf (i : ℕ) : String :=
  match answers.UploadPart i with
  | .error _ => ""
  | .ok etag => etag

/-- Whatever the order the uploads finish in, the completed parts are listed by number. -/
theorem sortParts_completedParts (n : ℕ)
    (h : ∀ i < n, ∃ etag, answers.UploadPart i = .ok etag) :
    sortParts (completedParts answers n) =
      (List.range n).map fun i : ℕ => ((i : ℤ) + 1, etagOf answers i) := by
  have hle := parts_le answers n h
  have hcompleted : (completedParts answers n).Perm
      ((List.range n).map fun i : ℕ => ((i : ℤ) + 1, etagOf answers i)) := by
    have hperm := (answers.finish_perm n).filterMap fun i =>
      match answers.UploadPart i with
      | .error _ => none
      | .ok etag => some (partNumber i, etag)
    refine hperm.trans (List.Perm.of_eq ?_)
    rw [← filterMap_eq_map]
    apply filterMap_congr
    intro i hi
    obtain ⟨etag, hetag⟩ := h i (mem_range.mp hi)
    have hi := mem_range.mp hi
    simp only [hetag, Function.comp_apply, etagOf, partNumber_eq i (by omega)]
  have hsorted : (sortParts (completedParts answers n)).Pairwise fun a b => decide (a.1 ≤ b.1) :=
    pairwise_mergeSort (by simp only [decide_eq_true_eq]; omega)
      (by simp only [Bool.or_eq_true, decide_eq_true_eq]; omega) _
  have hlisted : ((List.range n).map fun i : ℕ => ((i : ℤ) + 1, etagOf answers i)).Pairwise
      fun a b => decide (a.1 ≤ b.1) := by
    rw [pairwise_map]
    refine List.Pairwise.imp (fun {i j} hij => ?_) pairwise_lt_range
    simp only [decide_eq_true_eq]
    omega
  refine List.Perm.eq_of_pairwise ?_ hsorted hlisted ((mergeSort_perm _ _).trans hcompleted)
  intro a b ha hb hab hba
  have ha := ((mergeSort_perm _ _).trans hcompleted).mem_iff.mp ha
  obtain ⟨i, -, rfl⟩ := mem_map.mp ha
  obtain ⟨j, -, rfl⟩ := mem_map.mp hb
  simp only [decide_eq_true_eq] at hab hba
  obtain rfl : i = j := by omega
  rfl

/-- The body of each part, by its number. -/
theorem lookup_numbered (parts : List Bytes) (start j : ℕ) :
    ((parts.zipIdx start).map fun part => ((part.2 : ℤ) + 1, part.1)).lookup
      (((start + j : ℕ) : ℤ) + 1) = parts[j]? := by
  induction parts generalizing start j with
  | nil => rfl
  | cons first rest ih =>
    rw [zipIdx_cons, map_cons, lookup_cons]
    cases j with
    | zero => simp
    | succ j =>
      have hne : ((((start + (j + 1) : ℕ) : ℤ) + 1) == (start : ℤ) + 1) = false := by
        rw [beq_eq_false_iff_ne]
        omega
      have hshift : start + (j + 1) = start + 1 + j := by omega
      simp only [hne, List.getElem?_cons_succ]
      rw [hshift]
      exact ih (start + 1) j

theorem uploaded_append (calls calls' : List Call) :
    uploaded (calls ++ calls') = uploaded calls ++ uploaded calls' :=
  filterMap_append

theorem uploaded_uploads (parts : List (Bytes × ℕ)) :
    uploaded (uploads parts) = parts.map fun part => (partNumber part.2, part.1) := by
  rw [uploaded, uploads, filterMap_map, ← filterMap_eq_map]
  rfl

/-- The parts in the order of their numbers are the parts of the body. -/
theorem listed_parts {parts : List Bytes} (hle : parts.length ≤ 10000) :
    (((List.range parts.length).map fun i : ℕ =>
      ((i : ℤ) + 1, etagOf answers i)).flatMap fun part =>
      ((uploaded (uploads parts.zipIdx)).lookup part.1).getD []) = parts.flatten := by
  have hnumbers : uploaded (uploads parts.zipIdx) =
      parts.zipIdx.map fun part => ((part.2 : ℤ) + 1, part.1) := by
    rw [uploaded_uploads]
    apply map_congr_left
    intro part hpart
    have hindex := snd_lt_of_mem_zipIdx hpart
    rw [partNumber_eq part.2 (by omega)]
  have hlookup : ∀ i : ℕ, (uploaded (uploads parts.zipIdx)).lookup ((i : ℤ) + 1) = parts[i]? := by
    intro i
    rw [hnumbers]
    simpa only [Nat.zero_add] using lookup_numbered parts 0 i
  rw [flatMap_map]
  simp only [hlookup]
  rw [flatMap_def]
  congr 1
  apply ext_getElem
  · simp
  · intro i hi hi'
    simp [hi']

end Parts

section Safety

variable (answers : Answers) (target : Target)

variable {data : Bytes} {term : BodyError} {parts : List (Bytes × ℕ)}

theorem complete_not_mem_uploads {listed : List (ℤ × String)} :
    Call.CompleteMultipartUpload listed ∉ uploads parts := by
  intro h
  obtain ⟨part, -, hcall⟩ := mem_map.mp h
  cases hcall

/-- An upload that fails and is aborted is safe. -/
theorem aborted_safe {err : ErrorValue} :
    Safe answers target data term ⟨false, some err,
      .CreateMultipartUpload target.contentType :: uploads parts ++ [.AbortMultipartUpload]⟩ where
  returned := rfl
  committed := by
    intro hnone
    cases hnone
  failed := by
    intro _
    refine ⟨Option.some_ne_none err, fun listed hmem => ?_, fun _ _ => by simp⟩
    simp only [cons_append, mem_cons, mem_append, reduceCtorEq, false_or,
      not_mem_nil, or_false] at hmem
    exact complete_not_mem_uploads hmem

theorem stored_complete {listed : List (ℤ × String)}
    (hcomplete : answers.CompleteMultipartUpload = .ok ()) :
    stored answers (.CreateMultipartUpload target.contentType :: uploads parts ++
        [.CompleteMultipartUpload listed]) =
      some (listed.flatMap fun part => ((uploaded (uploads parts)).lookup part.1).getD []) := by
  have hnone : ∀ f : Call → Option Bytes, (∀ number body, f (.UploadPart number body) = none) →
      (uploads parts).findSome? f = none := by
    intro f hf
    rw [List.findSome?_eq_none_iff]
    intro call hcall
    obtain ⟨part, -, rfl⟩ := mem_map.mp hcall
    exact hf _ _
  have huploaded : uploaded (.CreateMultipartUpload target.contentType :: uploads parts ++
      [.CompleteMultipartUpload listed]) = uploaded (uploads parts) := by
    rw [uploaded_append]
    simp [uploaded]
  rw [stored, cons_append, List.findSome?_cons, List.findSome?_append,
    hnone _ (fun _ _ => rfl), ← cons_append, huploaded]
  simp [hcomplete, Except.isOk, Except.toBool]

/-- Once every part is uploaded and the source ended in io.EOF, completing is safe. -/
theorem completed_safe {parts : List Bytes} (hdata : parts.flatten = data)
    (h : ∀ i < parts.length, ∃ etag, answers.UploadPart i = .ok etag)
    (hwait : waitError answers target parts.length = none) :
    Safe answers target data .eof (finishMultipart answers target parts.zipIdx none) := by
  have hlength : parts.zipIdx.length = parts.length := length_zipIdx
  have hnofail : ∀ calls, (uploaded calls).length = parts.length →
      ¬ ((ReadError.eof : BodyError) ≠ .eof ∨ ∃ i < (uploaded calls).length, ∃ err,
        answers.UploadPart i = .error err) := by
    rintro calls hcalls (hne | ⟨i, hi, err, herr⟩)
    · exact hne rfl
    · obtain ⟨etag, hetag⟩ := h i (hcalls ▸ hi)
      rw [hetag] at herr
      cases herr
  have huploaded : (uploaded (uploads parts.zipIdx)).length = parts.length := by
    rw [uploaded_uploads, length_map, hlength]
  simp only [finishMultipart, hlength, hwait]
  cases hcomplete : answers.CompleteMultipartUpload with
  | error err =>
    refine ⟨rfl, fun hnone => absurd hnone (Option.some_ne_none _), fun hfail => ?_⟩
    refine absurd hfail (hnofail _ ?_)
    rw [uploaded_append, ← huploaded]
    simp [uploaded]
  | ok =>
    refine ⟨rfl, fun _ => ⟨rfl, ?_⟩, fun hfail => ?_⟩
    · rw [stored_complete answers target hcomplete, sortParts_completedParts answers parts.length h,
        listed_parts answers (parts_le answers parts.length h), hdata]
    · refine absurd hfail (hnofail _ ?_)
      rw [uploaded_append, ← huploaded]
      simp [uploaded]

theorem multipart_safe {threshold : ℤ} (hthreshold : 1 ≤ threshold)
    (h : term ≠ .eof → endsLoop term = true → ¬ data.length ≤ 10000 * threshold) :
    Safe answers target data term (finishMultipart answers target
      (chunks threshold.toNat data).zipIdx (if endsLoop term then none else some term)) := by
  have hpositive : 0 < threshold.toNat := by omega
  cases hends : endsLoop term with
  | false => exact aborted_safe answers target
  | true =>
    cases hwait : waitError answers target (chunks threshold.toNat data).length with
    | some err =>
      simp only [finishMultipart, length_zipIdx, hwait, if_true]
      exact aborted_safe answers target
    | none =>
      have hall := (waitError_none_iff answers target _).mp hwait
      have hcount := (chunks_length_le_iff hpositive).mp (parts_le answers _ hall)
      have hterm : term = .eof := by
        by_contra hne
        exact h hne hends (by omega)
      rw [hterm, if_pos rfl]
      exact completed_safe answers target (chunks_flatten threshold.toNat hpositive data) hall hwait

theorem single_safe : Safe answers target data .eof (putSingle answers target data) := by
  rw [putSingle]
  cases hput : answers.PutObject with
  | error err =>
    refine ⟨rfl, fun hnone => absurd hnone (Option.some_ne_none _), ?_⟩
    rintro (hne | ⟨i, hi, -⟩)
    · exact absurd rfl hne
    · simp [uploaded] at hi
  | ok =>
    refine ⟨rfl, fun _ => ⟨rfl, by simp [stored, hput, Except.isOk, Except.toBool]⟩, ?_⟩
    rintro (hne | ⟨i, hi, -⟩)
    · exact absurd rfl hne
    · simp [uploaded] at hi

theorem outcome_safe {threshold : ℤ} (hthreshold : 1 ≤ threshold)
    (hpanics : ¬ Panics threshold data) (h : ¬ TakenAsEnd threshold data term) :
    Safe answers target data term (outcome answers target threshold data term) := by
  rw [outcome]
  by_cases hmultipart : Multipart threshold data
  · rw [if_pos hmultipart]
    cases hcreate : answers.CreateMultipartUpload with
    | error err =>
      refine ⟨rfl, fun hnone => absurd hnone (Option.some_ne_none _), fun _ => ?_⟩
      refine ⟨Option.some_ne_none _, by simp, fun _ hok => ?_⟩
      rw [hcreate] at hok
      cases hok
    | ok =>
      simp only [if_neg fun hlarge => hpanics ⟨hlarge, hmultipart⟩]
      apply multipart_safe answers target hthreshold
      intro hne hends hshort
      refine h ⟨hne, ?_⟩
      rw [if_pos hmultipart]
      exact ⟨by simpa [endsLoop] using hends, hshort⟩
  · rw [if_neg hmultipart]
    by_cases hend : term.isEOF = true
    · rw [if_pos hend]
      have hterm : term = .eof := by
        by_contra hne
        refine h ⟨hne, ?_⟩
        rw [if_neg hmultipart]
        exact hend
      rw [hterm]
      exact single_safe answers target
    · rw [if_neg hend]
      refine ⟨rfl, fun hnone => absurd hnone (Option.some_ne_none _), fun _ => ?_⟩
      exact ⟨Option.some_ne_none _, fun _ => not_mem_nil, fun hmem => absurd hmem not_mem_nil⟩

end Safety

/-- An S3 that accepts everything it documents. -/
def accepting : Answers where
  PutObject := .ok ()
  CreateMultipartUpload := .ok ()
  UploadPart := fun i =>
    if i < 10000 then .ok "etag" else .error ⟨.unknown, false, "InvalidArgument"⟩
  CompleteMultipartUpload := .ok ()
  finish := List.range
  finish_perm := fun n => List.Perm.refl _
  numbered := by
    intro i etag h
    split_ifs at h with hi
    rw [partNumber_eq i (by omega)]
    omega

variable {data : Bytes} {term : BodyError}

/-- A failure taken as the end is committed by an S3 that accepts everything. -/
theorem taken_committed (target : Target) {threshold : ℤ} (hthreshold : 1 ≤ threshold)
    (hpanics : ¬ Panics threshold data) (h : TakenAsEnd threshold data term) :
    (outcome accepting target threshold data term).err = none := by
  obtain ⟨-, hend⟩ := h
  rw [outcome]
  by_cases hmultipart : Multipart threshold data
  · rw [if_pos hmultipart] at hend ⊢
    have hends : endsLoop term = true := by simpa [endsLoop] using hend.1
    have hcount : (chunks threshold.toNat data).length ≤ 10000 := by
      rw [chunks_length_le_iff (by omega)]
      have hlength := hend.2
      omega
    have hwait : waitError accepting target (chunks threshold.toNat data).length = none := by
      rw [waitError_none_iff]
      intro i hi
      exact ⟨"etag", if_pos (by omega)⟩
    have hfits : ¬ maxAlloc < threshold := fun hlarge => hpanics ⟨hlarge, hmultipart⟩
    simp only [accepting, hends, if_true, if_neg hfits, finishMultipart,
      length_zipIdx] at hwait ⊢
    simp only [hwait]
  · rw [if_neg hmultipart] at hend ⊢
    rw [if_pos hend]
    rfl

theorem panics_panicked (target : Target) {threshold : ℤ} (h : Panics threshold data) :
    (outcome accepting target threshold data term).panicked = true := by
  rw [outcome, if_pos h.2]
  simp only [accepting, if_pos h.1]

/-- Over every conforming S3 and every order in which part uploads finish, Upload of a reader
returns and is safe, exactly if its parts are not too large for a buffer and the reader does
not end in a failure that passes for the end of the body. -/
theorem upload_safe_iff {σ : Type} (read : Read σ ErrorValue) (s : σ) (data : Bytes)
    (term : BodyError) (h : Delivers read term data s) (room : ℕ → ℕ)
    (hroom : ∀ written, 0 < room written) (threshold : ℤ) (hthreshold : 1 ≤ threshold)
    (hfits : Fits64 threshold) (target : Target) :
    (∀ answers, ∃ n result,
      (∀ fuel, n ≤ fuel → Upload answers target read room threshold fuel s = some result) ∧
        Safe answers target data term result) ↔
      ¬ Panics threshold data ∧ ¬ TakenAsEnd threshold data term := by
  constructor
  · intro hall
    obtain ⟨n, result, hupload, hsafe⟩ := hall accepting
    obtain ⟨m, hdelivers⟩ := upload_delivers accepting target room hroom threshold hthreshold
      hfits h
    have hresult := (hupload (max n m) (Nat.le_max_left n m)).symm.trans
      (hdelivers (max n m) (Nat.le_max_right n m))
    rw [Option.some.inj hresult] at hsafe
    have hreturns : ¬ Panics threshold data := fun hpanics =>
      Bool.false_ne_true (hsafe.returned.symm.trans (panics_panicked target hpanics))
    refine ⟨hreturns, fun htaken => ?_⟩
    exact htaken.1 (hsafe.committed (taken_committed target hthreshold hreturns htaken)).1
  · rintro ⟨hreturns, hclean⟩ answers
    obtain ⟨n, hdelivers⟩ := upload_delivers answers target room hroom threshold hthreshold
      hfits h
    exact ⟨n, _, hdelivers, outcome_safe answers target hthreshold hreturns hclean⟩

/-- A source without bytes that ends in the error. -/
def ending (term : BodyError) : Read Unit ErrorValue := fun _ _ => ⟨[], some term, ()⟩

theorem ending_delivers : Delivers (joined (ending term)) term data ⟨data, some ()⟩ := by
  have hbody : Delivers (ending term) term [] () := .ended () fun _ _ => rfl
  simpa only [append_nil] using joined_delivers hbody data

theorem upload_safe_clean :
    ∃ n result, (∀ fuel, n ≤ fuel →
      Upload accepting ⟨"b", "k", "text/plain"⟩ (joined (ending .eof)) (fun _ => 512) 2 fuel
        ⟨[1, 2, 3], some ()⟩ = some result) ∧
      Safe accepting ⟨"b", "k", "text/plain"⟩ [1, 2, 3] .eof result :=
  (upload_safe_iff (joined (ending .eof)) ⟨[1, 2, 3], some ()⟩ [1, 2, 3] .eof
    ending_delivers (fun _ => 512) (fun _ => by decide) 2 (by decide) (by decide)
    ⟨"b", "k", "text/plain"⟩).mpr ⟨fun hpanics => absurd hpanics.1 (by decide),
      fun htaken => htaken.1 rfl⟩ accepting

theorem truncated_outcome :
    outcome accepting ⟨"b", "k", "text/plain"⟩ 2 [1, 2, 3] .unexpectedEOF =
      ⟨false, none, [.CreateMultipartUpload "text/plain", .UploadPart 1 [1, 2], .UploadPart 2 [3],
        .CompleteMultipartUpload [(1, "etag"), (2, "etag")]]⟩ := by
  have hsorted : sortParts (completedParts accepting 2) = [(1, "etag"), (2, "etag")] := by
    rw [sortParts_completedParts accepting 2 fun i hi => ⟨"etag", if_pos (by omega)⟩]
    rfl
  have hwait : waitError accepting ⟨"b", "k", "text/plain"⟩ 2 = none := by decide
  have hfinish : finishMultipart accepting ⟨"b", "k", "text/plain"⟩ [([1, 2], 0), ([3], 1)] none =
      ⟨false, none, [.CreateMultipartUpload "text/plain", .UploadPart 1 [1, 2], .UploadPart 2 [3],
        .CompleteMultipartUpload [(1, "etag"), (2, "etag")]]⟩ := by
    simp only [finishMultipart, length_cons, length_nil, Nat.zero_add, hwait, hsorted]
    rfl
  exact hfinish

/-- A source that fails with io.ErrUnexpectedEOF behind three bytes, over a threshold of two:
Upload completes the three bytes and returns no error. -/
theorem truncated_committed :
    ∃ n, ∀ fuel, n ≤ fuel →
      ∃ result, Upload accepting ⟨"b", "k", "text/plain"⟩ (joined (ending .unexpectedEOF))
          (fun _ => 512) 2 fuel ⟨[1, 2, 3], some ()⟩ = some result ∧
        result = ⟨false, none, [.CreateMultipartUpload "text/plain", .UploadPart 1 [1, 2],
          .UploadPart 2 [3], .CompleteMultipartUpload [(1, "etag"), (2, "etag")]]⟩ ∧
        ¬ Safe accepting ⟨"b", "k", "text/plain"⟩ [1, 2, 3] .unexpectedEOF result := by
  obtain ⟨n, hupload⟩ := upload_delivers accepting ⟨"b", "k", "text/plain"⟩ (fun _ => 512)
    (fun _ => by decide) 2 (by decide) (by decide) ending_delivers
  refine ⟨n, fun fuel hfuel => ⟨_, hupload fuel hfuel, truncated_outcome, fun hsafe => ?_⟩⟩
  have hterm := (hsafe.committed (by rw [truncated_outcome])).1
  cases hterm

end KnowledgeEngine.S3Commit
