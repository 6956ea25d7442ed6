import KnowledgeEngine.CoreTypes
import KnowledgeEngine.JsonDecode

/-!
The analytics row stream (clients/analytics/cassandra/stream.go). One reader per
bucket fetches pages into a one-page channel while up to `window` readers run ahead
of the bucket being delivered; the steps of readers and consumer interleave freely.
A stream is opened at the position its resume token names. Page states are fixed
positions: a fetch depends on the bucket and the state alone.
-/

namespace KnowledgeEngine.AnalyticsStream

open CoreTypes JsonDecode JsonText MachineNumbers StringText

abbrev Bytes := List UInt8

/-- The partitions as a session pages through them: the rows of the page at a state
and the state after it, empty at the bucket's end, and the errors a read of that page
may end with. -/
structure Source (R : Type) where
  fetch : ℤ → Bytes → List R × Bytes
  fails : ℤ → Bytes → AppError → Prop
  pages : ℤ → Bytes → List (List R)
  pages_eq : ∀ bucket state, pages bucket state =
    (fetch bucket state).1 ::
      (if (fetch bucket state).2 = [] then [] else pages bucket (fetch bucket state).2)

structure FetchedPage (R : Type) where
  err : Option AppError
  bucket : ℤ
  rows : List R
  next : Bytes

/-- Bucket is a pointer, absent in a token without the member. -/
structure ResumeToken where
  Bucket : Option ℤ
  Query : String
  Page : Bytes

/-- t.UnixMilli() of a time in Unix nanoseconds. -/
def unixMilli (t : ℤ) : ℤ := t / 1000000

def encodeToken (bucket : ℤ) (query : String) (page : Bytes) : List Char :=
  print (.obj (("bucket", .num (decimal bucket)) :: ("query", .str query) ::
    (if page = [] then [] else [("page", .str (String.ofList (Base64.encode .std page)))])))

def decodeBucket : Json → Option (Option ℤ)
  | .null => some none
  | .num literal => (parseDecimal literal).map some
  | _ => none

/-- encoding/json matches member names to fields up to case folding. -/
def decodeMember (t : ResumeToken) (member : String × Json) : Option ResumeToken :=
  if equalFold "bucket" member.1 then
    (decodeBucket member.2).map fun b => { t with Bucket := b }
  else if equalFold "query" member.1 then
    (decodeString t.Query member.2).map fun q => { t with Query := q }
  else if equalFold "page" member.1 then
    (decodeBytes member.2).map fun p => { t with Page := p }
  else some t

def unmarshalToken (text : List Char) : Option ResumeToken :=
  unmarshal decodeMember ⟨none, "", []⟩ text

/-- None of the two tokens: no token, or the position to resume from. -/
def decodeToken (token : List Char) (fingerprint : String) :
    Except AppError (Option (ℤ × Bytes)) :=
  if token = [] then .ok none
  else
    match unmarshalToken token with
    | none => .error (invalidInput "analytics: malformed resume token")
    | some t =>
      match t.Bucket with
      | none => .error (invalidInput "analytics: malformed resume token")
      | some bucket =>
        if t.Query ≠ fingerprint then
          .error (invalidInput "analytics: resume token belongs to a different query")
        else .ok (some (bucket, t.Page))

/-- What a bucket's reader is at: fetching the page at a state, holding a page its
channel has no room for, or returned with its channel closed. -/
inductive ReaderState (R : Type)
  | fetching (state : Bytes)
  | holding (page : FetchedPage R)
  | done

structure Reader (R : Type) where
  bucket : ℤ
  buffer : Option (FetchedPage R)
  state : ReaderState R

/-- The readers from the bucket being delivered on, and the buckets not started yet
with the state each will start from. -/
structure Stream (R : Type) where
  active : List (Reader R)
  waiting : List (ℤ × Bytes)
  window : ℕ
  err : Option AppError
  token : List Char

variable {R : Type}

def fill (window : ℕ) : List (Reader R) → List (ℤ × Bytes) → List (Reader R) × List (ℤ × Bytes)
  | active, [] => (active, [])
  | active, (bucket, state) :: waiting =>
    if active.length < window then
      fill window (active ++ [⟨bucket, none, .fetching state⟩]) waiting
    else (active, (bucket, state) :: waiting)

/-- The buckets a stream still reads: those from the resume position on, the first
one from the token's page when the token names it. -/
def queueFrom (resume : Option (ℤ × Bytes)) : List ℤ → List (ℤ × Bytes)
  | [] => []
  | bucket :: rest =>
    match resume with
    | none => (bucket, []) :: rest.map fun b => (b, [])
    | some (start, page) =>
      if unixMilli bucket < start then queueFrom resume rest
      else (bucket, if unixMilli bucket = start then page else []) :: rest.map fun b => (b, [])

def newStream (buckets : List ℤ) (resume : Option (ℤ × Bytes)) (window : ℕ) : Stream R :=
  let started := fill window [] (queueFrom resume buckets)
  ⟨started.1, started.2, window, none, []⟩

def openStream (fingerprint : String) (buckets : List ℤ) (window : ℕ) (token : List Char) :
    Except AppError (Stream R) := do
  let resume ← decodeToken token fingerprint
  return newStream buckets resume window

/-- The buckets after the one being delivered. -/
def following (s : Stream R) : List ℤ :=
  s.active.tail.map Reader.bucket ++ s.waiting.map Prod.fst

/-- The token after page p of the bucket being delivered. -/
def position (fingerprint : String) (s : Stream R) (p : FetchedPage R) : List Char :=
  if p.next = [] then
    match following s with
    | [] => []
    | bucket :: _ => encodeToken (unixMilli bucket) fingerprint []
  else encodeToken (unixMilli p.bucket) fingerprint p.next

def Reader.hold (r : Reader R) (p : FetchedPage R) : Reader R := ⟨r.bucket, r.buffer, .holding p⟩

/-- The reader returns after an error or the bucket's last page. -/
def Reader.send (r : Reader R) (p : FetchedPage R) : Reader R :=
  ⟨r.bucket, some p, if p.err ≠ none ∨ p.next = [] then .done else .fetching p.next⟩

def Reader.take (r : Reader R) : Reader R := ⟨r.bucket, none, r.state⟩

def fetched (src : Source R) (bucket : ℤ) (state : Bytes) : FetchedPage R :=
  ⟨none, bucket, (src.fetch bucket state).1, (src.fetch bucket state).2⟩

/-- One step of a reader or of Next, with the page and the more flag Next returns
when it delivers one. A read error comes with whatever was read before it. -/
inductive Step (src : Source R) (fingerprint : String) :
    Stream R → Option (List R × Bool) → Stream R → Prop
  | fetch (s : Stream R) (before after : List (Reader R)) (r : Reader R) (state : Bytes)
      (hactive : s.active = before ++ r :: after) (hstate : r.state = .fetching state) :
      Step src fingerprint s none
        { s with active := before ++ r.hold (fetched src r.bucket state) :: after }
  | fail (s : Stream R) (before after : List (Reader R)) (r : Reader R) (state : Bytes)
      (e : AppError) (rows : List R) (next : Bytes)
      (hactive : s.active = before ++ r :: after) (hstate : r.state = .fetching state)
      (hfails : src.fails r.bucket state e) :
      Step src fingerprint s none
        { s with active := before ++ r.hold ⟨some e, r.bucket, rows, next⟩ :: after }
  | send (s : Stream R) (before after : List (Reader R)) (r : Reader R) (p : FetchedPage R)
      (hactive : s.active = before ++ r :: after) (hstate : r.state = .holding p)
      (hroom : r.buffer = none) :
      Step src fingerprint s none { s with active := before ++ r.send p :: after }
  | advance (s : Stream R) (r : Reader R) (rest : List (Reader R)) (herr : s.err = none)
      (hactive : s.active = r :: rest) (hempty : r.buffer = none) (hdone : r.state = .done) :
      Step src fingerprint s none
        { s with active := (fill s.window rest s.waiting).1,
                 waiting := (fill s.window rest s.waiting).2 }
  | deliver (s : Stream R) (r : Reader R) (rest : List (Reader R)) (p : FetchedPage R)
      (herr : s.err = none) (hactive : s.active = r :: rest) (hbuffer : r.buffer = some p)
      (hok : p.err = none) :
      Step src fingerprint s (some (p.rows, decide (p.next ≠ [] ∨ following s ≠ [])))
        { s with active := r.take :: rest, token := position fingerprint s p }
  | stop (s : Stream R) (r : Reader R) (rest : List (Reader R)) (p : FetchedPage R) (e : AppError)
      (herr : s.err = none) (hactive : s.active = r :: rest) (hbuffer : r.buffer = some p)
      (hfail : p.err = some e) :
      Step src fingerprint s none { s with active := r.take :: rest, err := some e }

/-- Any interleaving of steps, with the pages delivered. -/
inductive Run (src : Source R) (fingerprint : String) :
    Stream R → List (List R × Bool) → Stream R → Prop
  | refl (s : Stream R) : Run src fingerprint s [] s
  | quiet {s t u : Stream R} {out : List (List R × Bool)} (hrun : Run src fingerprint s out t)
      (hstep : Step src fingerprint t none u) : Run src fingerprint s out u
  | page {s t u : Stream R} {out : List (List R × Bool)} {p : List R × Bool}
      (hrun : Run src fingerprint s out t) (hstep : Step src fingerprint t (some p) u) :
      Run src fingerprint s (out ++ [p]) u

/-- Next has told the consumer that there are no more rows. -/
def Ended (out : List (List R × Bool)) (s : Stream R) : Prop :=
  (∃ p, out.getLast? = some p ∧ p.2 = false) ∨ (s.active = [] ∧ s.err = none)

end KnowledgeEngine.AnalyticsStream
