import KnowledgeEngine.Chunks
import KnowledgeEngine.DelimitedText
import Mathlib.Data.Finmap

/-!
The vector-backed knowledge base: index_document writes one point per chunk, a sub-batch at a
time, and skips a sub-batch whose points are all stored with the metadata the call would write.
The store is keyed by the entry id; a point holds the payload the Qdrant store builds from an
entry. What the embedder and the store do in a call is an input of the call: either may fail
for any sub-batch, a failing upsert after writing any part of its entries.
-/

namespace KnowledgeEngine.VectorKnowledgeBase

variable {V : Type}

abbrev Dict := Finmap fun _ : String => String

structure VectorEntry (V : Type) where
  id : String
  documentId : String
  content : String
  embedding : V
  metadata : Dict

structure Point (V : Type) where
  vector : V
  payload : Dict

abbrev Store (V : Type) := String → Option (Point V)

/-- The payload of a point; a metadata key of one of the three names would win. -/
def payload (id documentId content : String) (metadata : Dict) : Dict :=
  metadata ∪ (((∅ : Dict).insert "entry_id" id).insert "document_id" documentId).insert
    "content" content

/-- The payload without the keys promoted to entry fields. -/
def metadataOf (payload : Dict) : Dict :=
  ((payload.erase "content").erase "document_id").erase "entry_id"

def VectorEntry.point (entry : VectorEntry V) : Point V :=
  ⟨entry.embedding, payload entry.id entry.documentId entry.content entry.metadata⟩

def upsert (store : Store V) (entries : List (VectorEntry V)) : Store V :=
  entries.foldl (fun s entry => Function.update s entry.id (some entry.point)) store

def storedMetadata (store : Store V) (id : String) : Option Dict :=
  (store id).map fun p => metadataOf p.payload

def deleteByDocument (store : Store V) (documentId : String) : Store V := fun id =>
  (store id).filter fun p => p.payload.lookup "document_id" ≠ some documentId

def embedSubBatch : ℕ := 96

/-- Sorted, as the refusal names them. -/
def reservedAttributeKeys : List String :=
  ["chunk_index", "content", "document_id", "document_name", "entry_id"]

/-- The arguments of an index_document call. -/
structure Call where
  documentId : String
  chunks : List String
  attributes : Dict
  documentName : String

def Call.name (call : Call) : String :=
  if call.documentName = "" then call.documentId else call.documentName

def chunkId (documentId : String) (index : ℕ) : String := documentId ++ ":" ++ toString index

def Call.metadata (call : Call) (index : ℕ) : Dict :=
  (call.attributes.insert "document_name" call.name).insert "chunk_index" (toString index)

/-- What happens in one sub-batch: whether the probe answers, what the embedder returns, and
which entries a failing upsert has written. -/
structure Outcome (V : Type) where
  probed : Bool
  embeddings : Option (List V)
  upsertFailed : Option (String → Bool)

inductive Failure where
  | reservedAttributes (keys : List String)
  | embeddingCount (returned expected : ℕ)
  | unavailable

/-- All chunks of the sub-batch are stored with the metadata of the call. -/
def Call.indexed (call : Call) (store : Store V) (base : ℕ) (batch : List String) : Bool :=
  (List.range batch.length).all fun offset =>
    storedMetadata store (chunkId call.documentId (base + offset)) =
      some (call.metadata (base + offset))

def Call.entries (call : Call) (base : ℕ) (batch : List String) (embeddings : List V) :
    List (VectorEntry V) :=
  (batch.zip embeddings).mapIdx fun offset chunk =>
    { id := chunkId call.documentId (base + offset)
      documentId := call.documentId
      content := chunk.1
      embedding := chunk.2
      metadata := call.metadata (base + offset) }

def Call.indexBatch (call : Call) (outcome : Outcome V) (store : Store V) (base : ℕ)
    (batch : List String) : Store V × Option Failure :=
  if outcome.probed = false then (store, some .unavailable)
  else if call.indexed store base batch then (store, none)
  else match outcome.embeddings with
    | none => (store, some .unavailable)
    | some embeddings =>
      if embeddings.length ≠ batch.length then
        (store, some (.embeddingCount embeddings.length batch.length))
      else match outcome.upsertFailed with
        | none => (upsert store (call.entries base batch embeddings), none)
        | some written =>
          (upsert store ((call.entries base batch embeddings).filter fun e => written e.id),
            some .unavailable)

/-- The loop of index_document; no failure is a call that returns. -/
def Call.indexBatches (call : Call) (outcomes : ℕ → Outcome V) (store : Store V) (base : ℕ) :
    List (List String) → Store V × Option Failure
  | [] => (store, none)
  | batch :: rest =>
    match call.indexBatch (outcomes base) store base batch with
    | (store', none) => call.indexBatches outcomes store' (base + batch.length) rest
    | (store', some failure) => (store', some failure)

def Call.reserved (call : Call) : List String :=
  reservedAttributeKeys.filter fun key => key ∈ call.attributes

def Call.indexDocument (call : Call) (outcomes : ℕ → Outcome V) (store : Store V) :
    Store V × Option Failure :=
  if call.reserved ≠ [] then (store, some (.reservedAttributes call.reserved))
  else call.indexBatches outcomes store 0 (Chunks.chunks embedSubBatch call.chunks)

/-- remove_document; a failing delete has removed some of the points. -/
def removeDocument (documentId : String) (deleteFailed : Option (String → Bool))
    (store : Store V) : Store V :=
  match deleteFailed with
  | none => deleteByDocument store documentId
  | some removed => fun id => if removed id then deleteByDocument store documentId id else store id

inductive Label (V : Type) where
  | index (call : Call) (outcomes : ℕ → Outcome V)
  | remove (documentId : String) (deleteFailed : Option (String → Bool))

def step (store : Store V) : Label V → Store V
  | .index call outcomes => (call.indexDocument outcomes store).1
  | .remove documentId deleteFailed => removeDocument documentId deleteFailed store

/-- The store after any calls, returning or failing. -/
def after (labels : List (Label V)) : Store V := labels.foldl step fun _ => none

end KnowledgeEngine.VectorKnowledgeBase
