import KnowledgeEngine.ByteReaders
import KnowledgeEngine.Chunks
import KnowledgeEngine.CoreTypes
import KnowledgeEngine.MachineNumbers

/-!
The upload of the S3 storage client (clients/storage/s3): Upload peeks at the body to choose
between one PutObject and a multipart upload, whose parts are read one after the other and
uploaded concurrently. The body is any reader. The answers of S3 and the order in which the
part uploads finish are inputs. Upload's outcome depends on the reader only through the bytes
and the error it delivers.
-/

namespace KnowledgeEngine.S3Upload

open ByteText ByteReaders Chunks CoreTypes MachineNumbers

abbrev BodyError := ReadError ErrorValue

def errorValue : BodyError → ErrorValue
  | .eof => ⟨.unknown, false, "EOF"⟩
  | .unexpectedEOF => ⟨.unknown, false, "unexpected EOF"⟩
  | .other _ _ cause => cause

/-- Go makes no larger slice: make panics. -/
def maxAlloc : ℤ := 2 ^ 48

/-- The part number of the part with that index, an int32. -/
def partNumber (i : ℕ) : ℤ := wrap32 (i + 1)

/-- What S3 answers to one upload: the entity tag of each part, and the order in which the
uploads of n parts finish. S3 numbers the parts of an upload from 1 to 10000. -/
structure Answers where
  PutObject : Except ErrorValue Unit
  CreateMultipartUpload : Except ErrorValue Unit
  UploadPart : ℕ → Except ErrorValue String
  CompleteMultipartUpload : Except ErrorValue Unit
  finish : ℕ → List ℕ
  finish_perm : ∀ n, (finish n).Perm (List.range n)
  numbered : ∀ i etag, UploadPart i = .ok etag → 1 ≤ partNumber i ∧ partNumber i ≤ 10000

/-- The calls to S3, all for the upload's bucket and key. -/
inductive Call
  | PutObject (contentType : String) (body : Bytes)
  | CreateMultipartUpload (contentType : String)
  | UploadPart (number : ℤ) (body : Bytes)
  | CompleteMultipartUpload (parts : List (ℤ × String))
  | AbortMultipartUpload

/-- What an upload called, and the error it returned unless it panicked. -/
structure Outcome where
  panicked : Bool
  err : Option ErrorValue
  calls : List Call

structure Target where
  bucket : String
  key : String
  contentType : String

def Target.text (target : Target) : String := target.bucket ++ "/" ++ target.key

section Calls

variable (answers : Answers) (target : Target)

def putSingle (body : Bytes) : Outcome :=
  match answers.PutObject with
  | .error err => ⟨false, some (err.wrap .internal ("s3 put " ++ target.text)),
      [.PutObject target.contentType body]⟩
  | .ok () => ⟨false, none, [.PutObject target.contentType body]⟩

def uploads (parts : List (Bytes × ℕ)) : List Call :=
  parts.map fun (data, i) => .UploadPart (partNumber i) data

/-- The first error of the part uploads, in the order they finish. -/
def waitError (n : ℕ) : Option ErrorValue :=
  (answers.finish n).findSome? fun i =>
    match answers.UploadPart i with
    | .error err => some (err.wrap .internal
        ("s3 upload part " ++ itoa (partNumber i) ++ " " ++ target.text))
    | .ok _ => none

/-- The completed parts, in the order their uploads finish. -/
def completedParts (n : ℕ) : List (ℤ × String) :=
  (answers.finish n).filterMap fun i =>
    match answers.UploadPart i with
    | .error _ => none
    | .ok etag => some (partNumber i, etag)

def sortParts (parts : List (ℤ × String)) : List (ℤ × String) :=
  parts.mergeSort fun a b => a.1 ≤ b.1

/-- The end of putMultipart, after the loop over the body: `failed` is a read error that is
not taken as the body's end. -/
def finishMultipart (parts : List (Bytes × ℕ)) (failed : Option BodyError) : Outcome :=
  let calls := .CreateMultipartUpload target.contentType :: uploads parts
  match failed with
  | some err => ⟨false, some ((errorValue err).wrap .internal
      ("reading multipart body " ++ target.text)), calls ++ [.AbortMultipartUpload]⟩
  | none =>
    match waitError answers target parts.length with
    | some err => ⟨false, some err, calls ++ [.AbortMultipartUpload]⟩
    | none =>
      let complete := .CompleteMultipartUpload (sortParts (completedParts answers parts.length))
      match answers.CompleteMultipartUpload with
      | .error err => ⟨false, some (err.wrap .internal ("s3 complete multipart " ++ target.text)),
          calls ++ [complete, .AbortMultipartUpload]⟩
      | .ok () => ⟨false, none, calls ++ [complete]⟩

section Body

variable {σ : Type} (read : Read σ ErrorValue)

/-- The loop over the body: the parts it dispatches and the read error it fails with. -/
def readParts (threshold : ℕ) : ℕ → σ → ℕ → Option (List (Bytes × ℕ) × Option BodyError)
  | 0, _, _ => none
  | fuel + 1, s, i =>
    (readFull read fuel s threshold).bind fun r =>
      let dispatched := if r.bytes = [] then [] else [(r.bytes, i)]
      match r.err with
      | some err =>
        if err.isEOF || err.isUnexpectedEOF then some (dispatched, none)
        else some (dispatched, some err)
      | none => (readParts threshold fuel r.next (i + 1)).map fun t => (dispatched ++ t.1, t.2)

/-- The loop makes a buffer of the threshold's size before it reads its first part. -/
def putMultipart (threshold : ℕ) (fuel : ℕ) (s : σ) : Option Outcome :=
  match answers.CreateMultipartUpload with
  | .error err => some ⟨false, some (err.wrap .internal ("s3 create multipart " ++ target.text)),
      [.CreateMultipartUpload target.contentType]⟩
  | .ok () =>
    if maxAlloc < threshold then some ⟨true, none, [.CreateMultipartUpload target.contentType]⟩
    else (readParts read threshold fuel s 0).map fun t => finishMultipart answers target t.1 t.2

/-- classifyBody's error, as Upload wraps it. -/
def readBodyError (err : BodyError) : ErrorValue :=
  ((errorValue err).wrap ((errorValue err).codeOr .internal) "read upload body").wrap .internal
    ("reading upload body for " ++ target.text)

/-- Upload with classifyBody inlined: `room` is the free space of its buffer. -/
def Upload (room : ℕ → ℕ) (threshold : ℤ) (fuel : ℕ) (s : σ) : Option Outcome :=
  (copyN read room fuel s (wrap64 (threshold + 1))).bind fun r =>
    match r.err with
    | some err =>
      if err.isEOF then some (putSingle answers target r.bytes)
      else some ⟨false, some (readBodyError target err), []⟩
    | none => putMultipart answers target (joined read) threshold.toNat fuel ⟨r.bytes, some r.next⟩

end Body

/-- The part uploads among the calls. -/
def uploaded (calls : List Call) : List (ℤ × Bytes) :=
  calls.filterMap fun
    | .UploadPart number body => some (number, body)
    | _ => none

/-- The object S3 holds after the calls: the body put, or the listed parts in their order. -/
def stored (calls : List Call) : Option Bytes :=
  calls.findSome? fun
    | .PutObject _ body => if answers.PutObject.isOk then some body else none
    | .CompleteMultipartUpload parts =>
      if answers.CompleteMultipartUpload.isOk then
        some (parts.flatMap fun part => ((uploaded calls).lookup part.1).getD [])
      else none
    | _ => none

/-- Upload returns; nothing but a whole body is committed, and a failed source or part leaves
no upload behind. -/
structure Safe (data : Bytes) (term : BodyError) (outcome : Outcome) : Prop where
  returned : outcome.panicked = false
  committed : outcome.err = none → term = .eof ∧ stored answers outcome.calls = some data
  failed : (term ≠ .eof ∨ ∃ i < (uploaded outcome.calls).length, ∃ err,
      answers.UploadPart i = .error err) →
    outcome.err ≠ none ∧ (∀ parts, .CompleteMultipartUpload parts ∉ outcome.calls) ∧
      (.CreateMultipartUpload target.contentType ∈ outcome.calls →
        answers.CreateMultipartUpload = .ok () → .AbortMultipartUpload ∈ outcome.calls)

/-- The body goes into a multipart upload. -/
def Multipart (threshold : ℤ) (data : Bytes) : Prop :=
  threshold < data.length ∨ threshold = 2 ^ 63 - 1

instance (threshold : ℤ) (data : Bytes) : Decidable (Multipart threshold data) :=
  inferInstanceAs (Decidable (_ ∨ _))

/-- The parts of a multipart upload are too large for a buffer. -/
def Panics (threshold : ℤ) (data : Bytes) : Prop :=
  maxAlloc < threshold ∧ Multipart threshold data

/-- A source's failure passes for the end of its body: it wraps io.EOF, or in a multipart
upload (of as many parts as S3 takes) it is or wraps io.ErrUnexpectedEOF. -/
def TakenAsEnd (threshold : ℤ) (data : Bytes) (term : BodyError) : Prop :=
  term ≠ .eof ∧
    (if Multipart threshold data then
      (term.isEOF ∨ term.isUnexpectedEOF) ∧ data.length ≤ 10000 * threshold
    else term.isEOF)

end Calls

/-- The errors the loop over the body takes for its end. -/
def endsLoop (term : BodyError) : Bool := term.isEOF || term.isUnexpectedEOF

theorem endsLoop_shortError (data : Bytes) (term : BodyError) :
    endsLoop (shortError data term) = endsLoop term := by
  cases data with
  | nil => cases term <;> rfl
  | cons b rest => cases term <;> rfl

theorem shortError_of_not_endsLoop {data : Bytes} {term : BodyError}
    (h : endsLoop term = false) : shortError data term = term := by
  cases term with
  | eof => cases h
  | unexpectedEOF => cases h
  | other wraps wraps' cause => cases data <;> rfl

section Body

variable {σ : Type} {read : Read σ ErrorValue} {term : BodyError}

/-- The loop cuts the body into chunks of the threshold's size. -/
theorem readParts_delivers (threshold : ℕ) (hthreshold : 0 < threshold) {data : Bytes} {s : σ}
    (h : Delivers read term data s) (i : ℕ) :
    ∃ n, ∀ fuel, n ≤ fuel → readParts read threshold fuel s i =
      some ((chunks threshold data).zipIdx i, if endsLoop term then none else some term) := by
  induction hlength : data.length using Nat.strongRecOn generalizing data s i with
  | ind len ih =>
    obtain ⟨n, r, hfull, hbytes, herr, hnext⟩ := readFull_delivers h threshold
    by_cases hlong : threshold ≤ data.length
    · have hne : data ≠ [] := List.ne_nil_of_length_pos (by omega)
      obtain ⟨m, hrest⟩ := ih (data.drop threshold).length
        (by rw [List.length_drop]; omega) hnext (i + 1) rfl
      refine ⟨max n m + 1, fun fuel hfuel => ?_⟩
      obtain ⟨fuel, rfl⟩ := Nat.exists_eq_add_of_le' (Nat.le_trans (Nat.succ_pos _) hfuel)
      have hbound := Nat.max_le.mp (Nat.le_of_succ_le_succ hfuel)
      have hpart : r.bytes ≠ [] := by
        rw [hbytes]
        exact List.ne_nil_of_length_pos (by rw [List.length_take]; omega)
      rw [if_pos hlong] at herr
      rw [chunks_eq threshold hthreshold data hne, List.zipIdx_cons, ← hbytes]
      simp only [readParts, hfull fuel hbound.1, Option.bind_some, herr, if_neg hpart,
        hrest fuel hbound.2, Option.map_some, List.singleton_append]
    · refine ⟨n + 1, fun fuel hfuel => ?_⟩
      obtain ⟨fuel, rfl⟩ := Nat.exists_eq_add_of_le' (Nat.le_trans (Nat.succ_pos _) hfuel)
      rw [if_neg hlong] at herr
      rw [List.take_of_length_le (by omega)] at hbytes
      have hchunks : (chunks threshold data).zipIdx i =
          if data = [] then [] else [(data, i)] := by
        by_cases hne : data = []
        · rw [hne]
          rfl
        · rw [if_neg hne, chunks_eq threshold hthreshold data hne,
            List.take_of_length_le (by omega), List.drop_of_length_le (by omega)]
          rfl
      rw [hchunks]
      simp only [readParts, hfull fuel (Nat.le_of_succ_le_succ hfuel), Option.bind_some, herr,
        hbytes]
      cases hterm : endsLoop term with
      | true =>
        have hends := endsLoop_shortError data term
        rw [hterm, endsLoop] at hends
        simp only [hends, if_true]
      | false =>
        rw [shortError_of_not_endsLoop hterm]
        rw [endsLoop] at hterm
        simp only [hterm, Bool.false_eq_true, if_false]

end Body

section Outcome

variable (answers : Answers) (target : Target)

/-- The outcome of an upload of a body that delivers the bytes and the error. -/
def outcome (threshold : ℤ) (data : Bytes) (term : BodyError) : Outcome :=
  if Multipart threshold data then
    match answers.CreateMultipartUpload with
    | .error err => ⟨false, some (err.wrap .internal ("s3 create multipart " ++ target.text)),
        [.CreateMultipartUpload target.contentType]⟩
    | .ok () =>
      if maxAlloc < threshold then ⟨true, none, [.CreateMultipartUpload target.contentType]⟩
      else finishMultipart answers target (chunks threshold.toNat data).zipIdx
        (if endsLoop term then none else some term)
  else if term.isEOF then putSingle answers target data
  else ⟨false, some (readBodyError target term), []⟩

variable {σ : Type} {read : Read σ ErrorValue} {term : BodyError}

theorem putMultipart_delivers (threshold : ℤ) (hthreshold : 1 ≤ threshold) {data : Bytes} {s : σ}
    (h : Delivers read term data s) (hmultipart : Multipart threshold data) :
    ∃ n, ∀ fuel, n ≤ fuel → putMultipart answers target read threshold.toNat fuel s =
      some (outcome answers target threshold data term) := by
  obtain ⟨n, hparts⟩ := readParts_delivers threshold.toNat (by omega) h 0
  refine ⟨n, fun fuel hfuel => ?_⟩
  rw [putMultipart, outcome, if_pos hmultipart]
  cases answers.CreateMultipartUpload with
  | error err => rfl
  | ok =>
    simp only [hparts fuel hfuel, Option.map_some, Int.toNat_of_nonneg (by omega : 0 ≤ threshold)]
    split <;> rfl

/-- Upload returns, and what it does depends on the delivered bytes and error alone. -/
theorem upload_delivers (room : ℕ → ℕ) (hroom : ∀ written, 0 < room written) (threshold : ℤ)
    (hthreshold : 1 ≤ threshold) (hfits : Fits64 threshold) {data : Bytes} {s : σ}
    (h : Delivers read term data s) :
    ∃ n, ∀ fuel, n ≤ fuel → Upload answers target read room threshold fuel s =
      some (outcome answers target threshold data term) := by
  by_cases hlargest : threshold = 2 ^ 63 - 1
  · have hmultipart : Multipart threshold data := Or.inr hlargest
    obtain ⟨n, hput⟩ := putMultipart_delivers answers target threshold hthreshold
      (joined_delivers h []) hmultipart
    refine ⟨n, fun fuel hfuel => ?_⟩
    have hwrap : wrap64 (threshold + 1) ≤ 0 := by rw [hlargest]; decide
    rw [Upload, copyN, if_pos hwrap, Option.bind_some]
    exact hput fuel hfuel
  · have hnext : Fits64 (threshold + 1) := by
      simp only [Fits64] at hfits ⊢
      omega
    obtain ⟨k, hk⟩ := Int.eq_ofNat_of_zero_le (show 0 ≤ threshold + 1 by omega)
    obtain ⟨n, r, hcopy, hbytes, herr, hdelivers⟩ := copyN_delivers h room hroom k (by omega)
    by_cases hlong : k ≤ data.length
    · have hmultipart : Multipart threshold data := Or.inl (by omega)
      have hjoined := joined_delivers hdelivers r.bytes
      rw [hbytes, List.take_append_drop, ← hbytes] at hjoined
      obtain ⟨m, hput⟩ := putMultipart_delivers answers target threshold hthreshold hjoined
        hmultipart
      refine ⟨max n m, fun fuel hfuel => ?_⟩
      have hbound := Nat.max_le.mp hfuel
      rw [if_pos hlong] at herr
      rw [Upload, wrap64_of_fits hnext, hk, hcopy fuel hbound.1, Option.bind_some, herr]
      exact hput fuel hbound.2
    · have hsingle : ¬ Multipart threshold data := by
        rintro (hless | heq)
        · omega
        · exact hlargest heq
      refine ⟨n, fun fuel hfuel => ?_⟩
      rw [if_neg hlong] at herr
      rw [List.take_of_length_le (by omega)] at hbytes
      rw [Upload, wrap64_of_fits hnext, hk, hcopy fuel hfuel, Option.bind_some, herr, hbytes,
        outcome, if_neg hsingle]
      by_cases hend : term.isEOF = true
      · simp only [if_pos hend]
      · simp only [if_neg hend]

end Outcome

end KnowledgeEngine.S3Upload
