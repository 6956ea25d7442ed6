import KnowledgeEngine.CoreTypes
import KnowledgeEngine.TextTemplate
import KnowledgeEngine.ValueText
import Mathlib.Tactic.LinearCombination
import Mathlib.Tactic.Zify

/-!
The object keys of the S3 outbox sink (clients/outbox/s3). A template is filled with a record's
tenant, key, UTC creation date and id. Tenant and key are any texts, and a year has four digits
only from 0 to 9999; the other values have fixed widths.
-/

namespace KnowledgeEngine.OutboxKeys

open Calendar CoreTypes List TextTemplate TimeText ValueText

inductive Slot
  | tenant | key | yyyy | mm | dd | id
deriving DecidableEq

/-- The arguments of NewReplacer, in their order. -/
def slots : List (List Char × Slot) :=
  [("\x7btenant\x7d".toList, .tenant), ("\x7bkey\x7d".toList, .key),
    ("\x7byyyy\x7d".toList, .yyyy), ("\x7bmm\x7d".toList, .mm), ("\x7bdd\x7d".toList, .dd),
    ("\x7bid\x7d".toList, .id)]

/-- The UTC creation date. -/
def created (rec : OutboxRecord) : Civil := civil (rec.CreatedAt / nanosPerDay + epochDay)

def value (rec : OutboxRecord) : Slot → List Char
  | .tenant => rec.Tenant.toList
  | .key => rec.Key.toList
  | .yyyy => signedPadded 4 (created rec).year
  | .mm => padded 2 (created rec).month.toNat
  | .dd => padded 2 (created rec).day.toNat
  | .id => uuidChars rec.ID

def DefaultKeyTemplate : String :=
  "\x7btenant\x7d/\x7byyyy\x7d/\x7bmm\x7d/\x7bdd\x7d/\x7bid\x7d"

structure Config where
  hasAPI : Bool
  Bucket : String
  KeyTemplate : String

structure Sink where
  bucket : String
  template : String
deriving DecidableEq

def New (cfg : Config) : Except ErrorValue Sink :=
  let tmpl := if cfg.KeyTemplate = "" then DefaultKeyTemplate else cfg.KeyTemplate
  if cfg.hasAPI = false ∨ cfg.Bucket = "" then
    .error (.new .invalidInput "outbox s3 sink: api and bucket are required")
  else if ¬ "\x7bid\x7d".toList <:+: tmpl.toList then
    .error (.new .invalidInput "outbox s3 sink: key template must contain \x7bid\x7d")
  else .ok ⟨cfg.Bucket, tmpl⟩

def Sink.key (s : Sink) (rec : OutboxRecord) : String :=
  String.ofList (replace (slots.map fun slot => (slot.1, value rec slot.2)) s.template.toList)

/-- The characters of a year. -/
def yearChar (c : Char) : Bool := c.isDigit || c == '-'

variable (tenant key : List Char) {s : Sink} (id : BitVec 128)

variable {before after layout : List (Piece Slot)} {rec rec' : OutboxRecord}

/-- Two ways to fill the pieces in which only tenants, keys and years differ in width. -/
structure SameShape (read read' : Piece Slot → List Char) : Prop where
  char : ∀ c, read (.char c) = [c] ∧ read' (.char c) = [c]
  year : ∀ c ∈ read (.slot .yyyy) ++ read' (.slot .yyyy), yearChar c = true
  width : ∀ x, x ≠ .yyyy → x ≠ .tenant → x ≠ .key →
    (read (.slot x)).length = (read' (.slot x)).length

theorem SameShape.reverse {read read' : Piece Slot → List Char} (h : SameShape read read') :
    SameShape (fun p => (read p).reverse) fun p => (read' p).reverse where
  char c := by simp [h.char c]
  year := by simpa [or_imp, forall_and] using h.year
  width x hyear htenant hkey := by simpa using h.width x hyear htenant hkey

end KnowledgeEngine.OutboxKeys
