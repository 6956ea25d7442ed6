import KnowledgeEngine.VectorKnowledgeBase

/-!
What the store holds after index_document returns, whatever calls came before. Every stored
point carries the payload of the chunk its id names, so a skipped sub-batch keeps its old
texts and a shorter document its old tail.
-/

namespace KnowledgeEngine.VectorKnowledgeBase

open DelimitedText Function List

variable {V : Type}

/-- The payload index_document writes for a chunk. -/
def Call.chunkPayload (call : Call) (index : ℕ) (content : String) : Dict :=
  payload (chunkId call.documentId index) call.documentId content (call.metadata index)

/-- A payload has the text, the place and the name of a chunk and the attributes of the call. -/
structure Carries (p : Dict) (call : Call) (index : ℕ) (content : String) : Prop where
  entryId : p.lookup "entry_id" = some (call.documentId ++ ":" ++ toString index)
  documentId : p.lookup "document_id" = some call.documentId
  content : p.lookup "content" = some content
  documentName : p.lookup "document_name" =
    some (if call.documentName = "" then call.documentId else call.documentName)
  chunkIndex : p.lookup "chunk_index" = some (toString index)
  attributes : ∀ key ∉ reservedAttributeKeys, p.lookup key = call.attributes.lookup key

/-- The points of the document are one per chunk, with what the call says of it. -/
def Holds (store : Store V) (call : Call) : Prop :=
  (∀ i (h : i < call.chunks.length), ∃ p, store (chunkId call.documentId i) = some p ∧
    Carries p.payload call i (call.chunks.get ⟨i, h⟩)) ∧
    ∀ id p, store id = some p → p.payload.lookup "document_id" = some call.documentId →
      ∃ i < call.chunks.length, id = chunkId call.documentId i

/-- Nothing is stored beyond the chunks of the call. -/
def NoTail (store : Store V) (call : Call) : Prop :=
  ∀ i, call.chunks.length ≤ i → store (chunkId call.documentId i) = none

/-- All chunks of the sub-batch with the number are stored with the metadata of the call. -/
def Skipped (store : Store V) (call : Call) (number : ℕ) : Prop :=
  ∀ j < call.chunks.length, j / embedSubBatch = number →
    storedMetadata store (chunkId call.documentId j) = some (call.metadata j)

/-- A sub-batch that is stored with the metadata of the call has its texts too. -/
def TextsCurrent (store : Store V) (call : Call) : Prop :=
  ∀ i (h : i < call.chunks.length), Skipped store call (i / embedSubBatch) →
    ((store (chunkId call.documentId i)).bind fun p => p.payload.lookup "content") =
      some (call.chunks.get ⟨i, h⟩)

/-- The payload of the point is that of the chunk its id names. -/
def Stamped (id : String) (p : Point V) : Prop :=
  ∃ (call : Call) (index : ℕ) (content : String), call.reserved = [] ∧
    id = chunkId call.documentId index ∧ p.payload = call.chunkPayload index content

def Inv (store : Store V) : Prop := ∀ id p, store id = some p → Stamped id p

theorem chunkId_inj {d d' : String} {i i' : ℕ} (h : chunkId d i = chunkId d' i') :
    d = d' ∧ i = i' := by
  have hcolon : ∀ n : ℕ, ':' ∉ Nat.toDigits 10 n := by
    intro n hn
    exact absurd (Nat.isDigit_of_mem_toDigits (by decide) (by decide) hn) (by decide)
  have hlist : d.toList ++ ':' :: Nat.toDigits 10 i = d'.toList ++ ':' :: Nat.toDigits 10 i' := by
    simpa [chunkId] using congrArg String.toList h
  obtain ⟨hd, hi⟩ := lastPart_inj (hcolon i) (hcolon i') hlist
  refine ⟨String.toList_injective hd, ?_⟩
  rw [← Nat.ofDigitChars_ten_toDigits (n := i), hi, Nat.ofDigitChars_ten_toDigits]

section Payload

variable {id documentId content : String} {metadata : Dict}

theorem lookup_content (h : "content" ∉ metadata) :
    (payload id documentId content metadata).lookup "content" = some content := by
  rw [payload, Finmap.lookup_union_right h, Finmap.lookup_insert]

theorem lookup_documentId (h : "document_id" ∉ metadata) :
    (payload id documentId content metadata).lookup "document_id" = some documentId := by
  rw [payload, Finmap.lookup_union_right h, Finmap.lookup_insert_of_ne _ (by decide),
    Finmap.lookup_insert]

theorem metadataOf_payload (hcontent : "content" ∉ metadata) (hdocument : "document_id" ∉ metadata)
    (hentry : "entry_id" ∉ metadata) :
    metadataOf (payload id documentId content metadata) = metadata := by
  apply Finmap.ext_lookup
  intro key
  unfold metadataOf payload
  by_cases hkey : key = "entry_id" ∨ key = "document_id" ∨ key = "content"
  · have hnone : metadata.lookup key = none := by
      rw [Finmap.lookup_eq_none]
      rcases hkey with rfl | rfl | rfl <;> assumption
    rw [hnone]
    rcases hkey with rfl | rfl | rfl
    · exact Finmap.lookup_erase _ _
    · rw [Finmap.lookup_erase_ne (by decide), Finmap.lookup_erase]
    · rw [Finmap.lookup_erase_ne (by decide), Finmap.lookup_erase_ne (by decide),
        Finmap.lookup_erase]
  · push Not at hkey
    obtain ⟨h1, h2, h3⟩ := hkey
    rw [Finmap.lookup_erase_ne h1, Finmap.lookup_erase_ne h2, Finmap.lookup_erase_ne h3,
      Finmap.lookup_union_left_of_not_in]
    simp [Finmap.mem_insert, h1, h2, h3, Finmap.notMem_empty]

/-- The attributes of a call that is not refused leave the keys of the index alone. -/
theorem Call.not_mem_metadata {call : Call} (h : call.reserved = []) (index : ℕ) :
    "content" ∉ call.metadata index ∧ "document_id" ∉ call.metadata index ∧
      "entry_id" ∉ call.metadata index := by
  have hattributes : ∀ key ∈ reservedAttributeKeys, key ∉ call.attributes := by
    simpa [Call.reserved, filter_eq_nil_iff] using h
  have hcontent := hattributes "content" (by decide)
  have hdocument := hattributes "document_id" (by decide)
  have hentry := hattributes "entry_id" (by decide)
  simp [Call.metadata, Finmap.mem_insert, hcontent, hdocument, hentry]

theorem Call.carries {call : Call} (h : call.reserved = []) {index : ℕ} {content : String} :
    Carries (call.chunkPayload index content) call index content := by
  obtain ⟨hcontent, hdocument, hentry⟩ := Call.not_mem_metadata h index
  have hname : "document_name" ∈ call.metadata index := by simp [Call.metadata]
  have hindex : "chunk_index" ∈ call.metadata index := by simp [Call.metadata]
  refine ⟨?_, lookup_documentId hdocument, lookup_content hcontent, ?_, ?_, fun key hkey => ?_⟩
  · rw [Call.chunkPayload, payload, Finmap.lookup_union_right hentry,
      Finmap.lookup_insert_of_ne _ (by decide), Finmap.lookup_insert_of_ne _ (by decide),
      Finmap.lookup_insert, chunkId]
  · rw [Call.chunkPayload, payload, Finmap.lookup_union_left hname, Call.metadata,
      Finmap.lookup_insert_of_ne _ (by decide), Finmap.lookup_insert, Call.name]
  · rw [Call.chunkPayload, payload, Finmap.lookup_union_left hindex, Call.metadata,
      Finmap.lookup_insert]
  · simp only [reservedAttributeKeys, mem_cons, not_mem_nil, or_false, not_or] at hkey
    obtain ⟨h1, h2, h3, h4, h5⟩ := hkey
    rw [Call.chunkPayload, payload, Finmap.lookup_union_left_of_not_in, Call.metadata,
      Finmap.lookup_insert_of_ne _ h1, Finmap.lookup_insert_of_ne _ h4]
    simp [Finmap.mem_insert, h2, h3, h5, Finmap.notMem_empty]

end Payload

theorem upsert_of_ne (store : Store V) (entries : List (VectorEntry V)) (id : String)
    (h : ∀ e ∈ entries, id ≠ e.id) : upsert store entries id = store id := by
  induction entries generalizing store with
  | nil => rfl
  | cons e rest ih =>
    have hrest := ih (update store e.id (some e.point)) fun e' he' =>
      h e' (mem_cons_of_mem e he')
    exact hrest.trans (update_of_ne (h e (mem_cons_self ..)) _ _)

theorem upsert_of_mem (store : Store V) (entries : List (VectorEntry V))
    (hnodup : (entries.map VectorEntry.id).Nodup) (e : VectorEntry V) (he : e ∈ entries) :
    upsert store entries e.id = some e.point := by
  induction entries generalizing store with
  | nil => cases he
  | cons first rest ih =>
    rw [map_cons, nodup_cons] at hnodup
    rcases mem_cons.mp he with rfl | he
    · have hrest := upsert_of_ne (update store e.id (some e.point)) rest e.id
        fun e' he' heq => hnodup.1 (heq ▸ mem_map_of_mem he')
      exact hrest.trans (update_self ..)
    · exact ih (update store first.id (some first.point)) hnodup.2 he

theorem Inv.upsert {store : Store V} (hinv : Inv store) (entries : List (VectorEntry V))
    (h : ∀ e ∈ entries, Stamped e.id e.point) : Inv (upsert store entries) := by
  induction entries generalizing store with
  | nil => exact hinv
  | cons e rest ih =>
    refine ih ?_ fun e' he' => h e' (mem_cons_of_mem e he')
    intro id p hp
    dsimp only at hp
    by_cases hid : id = e.id
    · subst hid
      rw [update_self] at hp
      rw [← Option.some.inj hp]
      exact h e (mem_cons_self ..)
    · rw [update_of_ne hid] at hp
      exact hinv id p hp

section Batch

variable (call : Call) {base : ℕ} {batch : List String}

theorem Call.mem_entries {embeddings : List V} {e : VectorEntry V}
    (h : e ∈ call.entries base batch embeddings) :
    ∃ offset content vector, batch[offset]? = some content ∧
      e = ⟨chunkId call.documentId (base + offset), call.documentId, content, vector,
        call.metadata (base + offset)⟩ := by
  obtain ⟨offset, hoffset, rfl⟩ := mem_mapIdx.mp h
  rw [length_zip] at hoffset
  refine ⟨offset, _, _, ?_, rfl⟩
  rw [getElem_zip, List.getElem?_eq_getElem]

theorem Call.stamped_entries (hreserved : call.reserved = []) {embeddings : List V}
    {e : VectorEntry V} (he : e ∈ call.entries base batch embeddings) : Stamped e.id e.point := by
  obtain ⟨offset, content, vector, _, rfl⟩ := call.mem_entries he
  exact ⟨call, base + offset, content, hreserved, rfl, rfl⟩

theorem Call.nodup_entries (embeddings : List V) :
    ((call.entries base batch embeddings).map VectorEntry.id).Nodup := by
  have hids : (call.entries base batch embeddings).map VectorEntry.id =
      (List.range (batch.zip embeddings).length).map fun offset =>
        chunkId call.documentId (base + offset) := by
    apply ext_getElem <;> simp [Call.entries]
  rw [hids]
  exact nodup_range.map fun i j hij => by
    have := (chunkId_inj hij).2
    omega

variable {outcome : Outcome V} {store store' : Store V}

/-- A sub-batch that returns is left alone when it is indexed and written otherwise. -/
theorem Call.indexBatch_returns (h : call.indexBatch outcome store base batch = (store', none)) :
    (call.indexed store base batch = true ∧ store' = store) ∨
      (call.indexed store base batch = false ∧ ∃ embeddings : List V,
        embeddings.length = batch.length ∧
          store' = upsert store (call.entries base batch embeddings)) := by
  unfold Call.indexBatch at h
  split at h
  · cases h
  · split at h
    case isTrue hindexed =>
      cases h
      exact Or.inl ⟨hindexed, rfl⟩
    case isFalse hindexed =>
      refine Or.inr ⟨by simpa using hindexed, ?_⟩
      split at h
      · cases h
      · split at h
        · cases h
        case h_2.isFalse embeddings _ hlength =>
          split at h
          · cases h
            exact ⟨embeddings, by simpa using hlength, rfl⟩
          · cases h

theorem Call.indexBatch_frame (h : call.indexBatch outcome store base batch = (store', none))
    (id : String)
    (hid : ∀ offset < batch.length, id ≠ chunkId call.documentId (base + offset)) :
    store' id = store id := by
  rcases call.indexBatch_returns h with ⟨_, rfl⟩ | ⟨_, embeddings, _, rfl⟩
  · rfl
  · refine upsert_of_ne store _ id fun e he => ?_
    obtain ⟨offset, content, _, hcontent, rfl⟩ := call.mem_entries he
    exact hid offset (List.getElem?_eq_some_iff.mp hcontent).1

theorem Call.indexBatch_written (h : call.indexBatch outcome store base batch = (store', none))
    (hindexed : call.indexed store base batch = false) (offset : ℕ)
    (hoffset : offset < batch.length) :
    ∃ vector, store' (chunkId call.documentId (base + offset)) =
      some ⟨vector, call.chunkPayload (base + offset) (batch.get ⟨offset, hoffset⟩)⟩ := by
  rcases call.indexBatch_returns h with ⟨htrue, _⟩ | ⟨_, embeddings, hlength, rfl⟩
  · rw [hindexed] at htrue
    cases htrue
  · have hvector : offset < embeddings.length := hlength ▸ hoffset
    have hzip : offset < (batch.zip embeddings).length := by
      rw [length_zip]
      omega
    refine ⟨embeddings.get ⟨offset, hvector⟩, ?_⟩
    refine upsert_of_mem store _ (call.nodup_entries embeddings)
      ⟨chunkId call.documentId (base + offset), call.documentId, batch.get ⟨offset, hoffset⟩,
        embeddings.get ⟨offset, hvector⟩, call.metadata (base + offset)⟩ ?_
    exact mem_mapIdx.mpr ⟨offset, hzip, by simp⟩

theorem Call.inv_indexBatch (hreserved : call.reserved = []) (hinv : Inv store) :
    Inv (call.indexBatch outcome store base batch).1 := by
  have hentries := fun embeddings => @Call.stamped_entries V call base batch hreserved embeddings
  unfold Call.indexBatch
  split
  · exact hinv
  · split
    · exact hinv
    · split
      · exact hinv
      case h_2 embeddings _ =>
        split
        · exact hinv
        · split
          · exact hinv.upsert _ fun e he => hentries embeddings he
          · exact hinv.upsert _ fun e he => hentries embeddings (mem_of_mem_filter he)

theorem Call.inv_indexBatches (hreserved : call.reserved = []) (outcomes : ℕ → Outcome V)
    (batches : List (List String)) (hinv : Inv store) (base : ℕ) :
    Inv (call.indexBatches outcomes store base batches).1 := by
  induction batches generalizing store base with
  | nil => exact hinv
  | cons batch rest ih =>
    have hbatch := @Call.inv_indexBatch V call base batch (outcomes base) store hreserved hinv
    unfold Call.indexBatches
    split
    case h_1 store' heq =>
      rw [heq] at hbatch
      exact ih hbatch _
    case h_2 store' failure heq =>
      rw [heq] at hbatch
      exact hbatch

theorem Call.inv_indexDocument (outcomes : ℕ → Outcome V) (hinv : Inv store) :
    Inv (call.indexDocument outcomes store).1 := by
  unfold Call.indexDocument
  split
  case isTrue => exact hinv
  case isFalse hreserved => exact call.inv_indexBatches (not_not.mp hreserved) outcomes _ hinv 0

end Batch

variable {store store' : Store V}

theorem inv_removeDocument {documentId : String} {deleteFailed : Option (String → Bool)}
    (hinv : Inv store) : Inv (removeDocument documentId deleteFailed store) := by
  have hdelete : ∀ id p, deleteByDocument store documentId id = some p → store id = some p :=
    fun id p hp => (Option.filter_eq_some_iff.mp hp).1
  intro id p hp
  unfold removeDocument at hp
  split at hp
  · exact hinv id p (hdelete id p hp)
  · split at hp
    · exact hinv id p (hdelete id p hp)
    · exact hinv id p hp

theorem inv_step (hinv : Inv store) {label : Label V} : Inv (step store label) := by
  cases label with
  | index call outcomes => exact call.inv_indexDocument outcomes hinv
  | remove documentId deleteFailed => exact inv_removeDocument hinv

theorem inv_after (labels : List (Label V)) : Inv (after labels) := by
  have hrun : ∀ store : Store V, Inv store → Inv (labels.foldl step store) := by
    induction labels with
    | nil => exact fun store hinv => hinv
    | cons label rest ih => exact fun store hinv => ih _ (inv_step hinv)
  exact hrun _ fun id p hp => nomatch hp

section Loop

variable {call : Call} {outcomes : ℕ → Outcome V} {base : ℕ}

theorem Call.indexed_iff (hbase : embedSubBatch ∣ base) {i : ℕ} (hi : base ≤ i)
    (hfirst : i < base + embedSubBatch) :
    call.indexed store base ((call.chunks.drop base).take embedSubBatch) = true ↔
      Skipped store call (i / embedSubBatch) := by
  obtain ⟨number, rfl⟩ := hbase
  unfold Call.indexed Skipped
  simp only [all_eq_true, length_take, length_drop, mem_range,
    decide_eq_true_eq]
  constructor
  · intro h j hj hnumber
    obtain ⟨k, rfl⟩ : ∃ k, j = embedSubBatch * number + k := by
      refine Nat.exists_eq_add_of_le ?_
      unfold embedSubBatch at *
      omega
    refine h k ?_
    unfold embedSubBatch at *
    omega
  · intro h j hj
    refine h _ (by omega) ?_
    unfold embedSubBatch at *
    omega

/-- Whether a sub-batch is skipped depends on its own points. -/
theorem skipped_congr {number : ℕ} (h : ∀ j, j / embedSubBatch = number →
      store' (chunkId call.documentId j) = store (chunkId call.documentId j)) :
    Skipped store' call number ↔ Skipped store call number := by
  refine forall_congr' fun j => imp_congr_right fun _ => forall_congr' fun hnumber => ?_
  rw [storedMetadata, storedMetadata, h j hnumber]

theorem Call.indexBatches_cons {batch : List String} {rest : List (List String)}
    (h : call.indexBatches outcomes store base (batch :: rest) = (store', none)) :
    ∃ middle, call.indexBatch (outcomes base) store base batch = (middle, none) ∧
      call.indexBatches outcomes middle (base + batch.length) rest = (store', none) := by
  unfold Call.indexBatches at h
  split at h
  case h_1 middle hbatch => exact ⟨middle, hbatch, h⟩
  case h_2 => cases h

theorem Call.indexBatches_frame {batches : List (List String)}
    (h : call.indexBatches outcomes store base batches = (store', none)) {id : String}
    (hid : ∀ i < batches.flatten.length, id ≠ chunkId call.documentId (base + i)) :
    store' id = store id := by
  induction batches generalizing store base with
  | nil =>
    cases h
    rfl
  | cons batch rest ih =>
    obtain ⟨middle, hbatch, hrest⟩ := Call.indexBatches_cons h
    rw [flatten_cons, length_append] at hid
    rw [← call.indexBatch_frame hbatch id fun offset hoffset => hid offset (by omega)]
    refine ih hrest fun i hi => ?_
    rw [Nat.add_assoc]
    exact hid (batch.length + i) (by omega)

/-- The point of a chunk is kept if its sub-batch is indexed and written otherwise. -/
def Settled (store store' : Store V) (call : Call) (i : ℕ) (hi : i < call.chunks.length) : Prop :=
  (Skipped store call (i / embedSubBatch) →
    store' (chunkId call.documentId i) = store (chunkId call.documentId i)) ∧
  (¬ Skipped store call (i / embedSubBatch) → ∃ vector,
    store' (chunkId call.documentId i) =
      some ⟨vector, call.chunkPayload i (call.chunks.get ⟨i, hi⟩)⟩)

theorem Call.indexBatches_settled {texts : List String} :
    ∀ {base : ℕ} {store : Store V}, call.chunks.drop base = texts →
      (texts ≠ [] → embedSubBatch ∣ base) →
      call.indexBatches outcomes store base (Chunks.chunks embedSubBatch texts) = (store', none) →
      ∀ i (hi : i < call.chunks.length), base ≤ i → Settled store store' call i hi := by
  induction texts using Chunks.chunks_induction embedSubBatch (by decide) with
  | nil =>
    intro base store hdrop _ _ i hi hle
    have := drop_eq_nil_iff.mp hdrop
    omega
  | step texts hne ih =>
    intro base store hdrop hbase h i hi hle
    rw [Chunks.chunks_eq embedSubBatch (by decide) texts hne] at h
    obtain ⟨middle, hbatch, hrest⟩ := Call.indexBatches_cons h
    have htexts : texts.length = call.chunks.length - base := by rw [← hdrop, length_drop]
    have hlength : (texts.take embedSubBatch).length = min embedSubBatch texts.length :=
      length_take
    by_cases hfirst : i < base + embedSubBatch
    · have hlater : store' (chunkId call.documentId i) = middle (chunkId call.documentId i) := by
        refine Call.indexBatches_frame hrest fun j hj heq => ?_
        rw [Chunks.chunks_flatten embedSubBatch (by decide), length_drop] at hj
        have := (chunkId_inj heq).2
        omega
      rw [Settled, ← Call.indexed_iff (hbase hne) hle hfirst, hlater, hdrop]
      constructor
      · intro hindexed
        rcases call.indexBatch_returns hbatch with ⟨_, rfl⟩ | ⟨hfalse, _⟩
        · rfl
        · rw [hindexed] at hfalse
          cases hfalse
      · intro hindexed
        obtain ⟨k, rfl⟩ := Nat.exists_eq_add_of_le hle
        obtain ⟨vector, hvector⟩ := call.indexBatch_written hbatch (by simpa using hindexed) k
          (by omega)
        refine ⟨vector, hvector.trans ?_⟩
        simp only [get_eq_getElem, getElem_take, ← hdrop, getElem_drop]
    · have hsame : ∀ j, j / embedSubBatch = i / embedSubBatch →
          middle (chunkId call.documentId j) = store (chunkId call.documentId j) := by
        intro j hj
        refine call.indexBatch_frame hbatch _ fun offset hoffset heq => ?_
        have := (chunkId_inj heq).2
        obtain ⟨number, rfl⟩ := hbase hne
        unfold embedSubBatch at *
        omega
      have hfull : (texts.take embedSubBatch).length = embedSubBatch := by omega
      rw [hfull] at hrest
      have hlater := ih (by rw [← hdrop, drop_drop])
        (fun _ => Nat.dvd_add (hbase hne) (Nat.dvd_refl _)) hrest i hi (Nat.not_lt.mp hfirst)
      rwa [Settled, skipped_congr hsame, hsame i rfl] at hlater

theorem Call.indexDocument_returns (h : call.indexDocument outcomes store = (store', none)) :
    call.reserved = [] ∧ call.indexBatches outcomes store 0
      (Chunks.chunks embedSubBatch call.chunks) = (store', none) := by
  unfold Call.indexDocument at h
  split at h
  case isTrue => cases h
  case isFalse hreserved => exact ⟨not_not.mp hreserved, h⟩

/-- A call that returns keeps the points of the indexed sub-batches, writes the others and
touches nothing else. -/
theorem Call.indexDocument_settled (h : call.indexDocument outcomes store = (store', none)) :
    (∀ id, (∀ i < call.chunks.length, id ≠ chunkId call.documentId i) → store' id = store id) ∧
    ∀ i (hi : i < call.chunks.length), Settled store store' call i hi := by
  obtain ⟨_, hbatches⟩ := Call.indexDocument_returns h
  refine ⟨fun id hid => Call.indexBatches_frame hbatches ?_, fun i hi =>
    Call.indexBatches_settled rfl (fun _ => Nat.dvd_zero _) hbatches i hi (Nat.zero_le _)⟩
  rw [Chunks.chunks_flatten embedSubBatch (by decide)]
  simpa using hid

end Loop

theorem Stamped.lookup_documentId {id : String} {p : Point V} (h : Stamped id p) :
    ∃ documentId index, id = chunkId documentId index ∧
      p.payload.lookup "document_id" = some documentId := by
  obtain ⟨call, index, content, hreserved, hid, hpayload⟩ := h
  refine ⟨call.documentId, index, hid, ?_⟩
  rw [hpayload]
  exact VectorKnowledgeBase.lookup_documentId (Call.not_mem_metadata hreserved index).2.1

/-- A stored point with the metadata and the text of the call has its payload. -/
theorem Stamped.payload_eq {call : Call} {i : ℕ} {content : String} {p : Point V}
    (h : Stamped (chunkId call.documentId i) p) (hmetadata : metadataOf p.payload = call.metadata i)
    (hcontent : p.payload.lookup "content" = some content) :
    p.payload = call.chunkPayload i content := by
  obtain ⟨call', index, content', hreserved, hid, hpayload⟩ := h
  obtain ⟨hkey, hdocument, hentry⟩ := Call.not_mem_metadata hreserved index
  obtain ⟨hdocumentId, rfl⟩ := chunkId_inj hid
  rw [hpayload, Call.chunkPayload, lookup_content hkey] at hcontent
  rw [hpayload, Call.chunkPayload, metadataOf_payload hkey hdocument hentry] at hmetadata
  rw [hpayload, Call.chunkPayload, Call.chunkPayload, hmetadata, Option.some.inj hcontent,
    hdocumentId]

/-- When index_document returns, the document is stored exactly if no point of it lay beyond
the chunks and every sub-batch with the metadata of the call already had its texts. -/
theorem indexDocument_holds_iff (labels : List (Label V)) (call : Call)
    (outcomes : ℕ → Outcome V) (store' : Store V)
    (h : call.indexDocument outcomes (after labels) = (store', none)) :
    Holds store' call ↔ NoTail (after labels) call ∧ TextsCurrent (after labels) call := by
  have hinv := inv_after labels
  have hinv' : Inv store' := by
    have := call.inv_indexDocument outcomes hinv
    rwa [h] at this
  obtain ⟨hreserved, _⟩ := Call.indexDocument_returns h
  obtain ⟨hframe, hspec⟩ := Call.indexDocument_settled h
  have htail : ∀ i, call.chunks.length ≤ i →
      store' (chunkId call.documentId i) = after labels (chunkId call.documentId i) := by
    intro i hi
    refine hframe _ fun j hj heq => ?_
    have := (chunkId_inj heq).2
    omega
  constructor
  · rintro ⟨hchunks, honly⟩
    constructor
    · intro i hi
      by_contra hsome
      obtain ⟨p, hp⟩ := Option.ne_none_iff_exists'.mp hsome
      obtain ⟨documentId, index, hid, hdocument⟩ := (hinv _ p hp).lookup_documentId
      rw [← (chunkId_inj hid).1] at hdocument
      obtain ⟨j, hj, heq⟩ := honly _ p ((htail i hi).trans hp) hdocument
      have := (chunkId_inj heq).2
      omega
    · intro i hi hskipped
      obtain ⟨p, hp, hcarries⟩ := hchunks i hi
      rw [← (hspec i hi).1 hskipped, hp]
      exact hcarries.content
  · rintro ⟨hnoTail, htexts⟩
    constructor
    · intro i hi
      by_cases hskipped : Skipped (after labels) call (i / embedSubBatch)
      · obtain ⟨p, hp, hmetadata⟩ := Option.map_eq_some_iff.mp (hskipped i hi rfl)
        have hcontent := htexts i hi hskipped
        rw [hp, Option.bind_some] at hcontent
        refine ⟨p, ((hspec i hi).1 hskipped).trans hp, ?_⟩
        rw [(hinv _ p hp).payload_eq hmetadata hcontent]
        exact Call.carries hreserved
      · obtain ⟨vector, hvector⟩ := (hspec i hi).2 hskipped
        exact ⟨_, hvector, Call.carries hreserved⟩
    · intro id p hp hdocument
      obtain ⟨documentId, index, rfl, hdocument'⟩ := (hinv' id p hp).lookup_documentId
      rw [hdocument'] at hdocument
      obtain rfl := Option.some.inj hdocument
      refine ⟨index, ?_, rfl⟩
      by_contra hindex
      rw [htail index (Nat.not_lt.mp hindex), hnoTail index (Nat.not_lt.mp hindex)] at hp
      cases hp

/-- A call on document d without attributes or name. -/
def plainCall (chunks : List String) : Call := ⟨"d", chunks, ∅, ""⟩

/-- Everything works, with so many vectors for the texts of each sub-batch. -/
def works (vectors : ℕ) : ℕ → Outcome Unit :=
  fun _ => ⟨true, some (List.replicate vectors ()), none⟩

/-- Indexing a changed text after the old one returns and leaves the old text. -/
theorem changed_text_kept :
    ((plainCall ["new"]).indexDocument (works 1)
        (after [.index (plainCall ["old"]) (works 1)])).2 = none ∧
      ((((plainCall ["new"]).indexDocument (works 1)
        (after [.index (plainCall ["old"]) (works 1)])).1 "d:0").bind fun p =>
          p.payload.lookup "content") = some "old" := by
  decide +kernel

/-- A document that got a second chunk is written again. -/
theorem indexDocument_holds_grown :
    Holds ((plainCall ["old", "more"]).indexDocument (works 2)
      (after [.index (plainCall ["old"]) (works 1)])).1 (plainCall ["old", "more"]) := by
  have hfirst : (plainCall ["old"]).indexDocument (works 1) (after []) =
      (after [.index (plainCall ["old"]) (works 1)], none) := Prod.ext rfl (by decide +kernel)
  have hnone : ∀ i, 1 ≤ i →
      after [.index (plainCall ["old"]) (works 1)] (chunkId "d" i) = none := by
    refine fun i hi => (Call.indexDocument_settled hfirst).1 _ fun j hj heq => ?_
    have hij := (chunkId_inj heq).2
    have hj' : j < 1 := hj
    omega
  refine (indexDocument_holds_iff _ _ (works 2) _ (Prod.ext rfl (by decide +kernel))).mpr
    ⟨fun i hi => hnone i (Nat.le_of_lt hi), fun i hi hskipped => ?_⟩
  have hsecond := hskipped 1 (by decide) (Nat.div_eq_of_lt (hi.trans (by decide))).symm
  rw [storedMetadata, show (plainCall ["old", "more"]).documentId = "d" from rfl,
    hnone 1 le_rfl] at hsecond
  cases hsecond

/-- A document that is removed first is stored exactly. -/
theorem removed_holds (labels : List (Label V)) (call : Call) (outcomes : ℕ → Outcome V)
    (h : call.indexDocument outcomes (removeDocument call.documentId none (after labels)) =
      (store', none)) : Holds store' call := by
  have hgone : ∀ id p, removeDocument call.documentId none (after labels) id = some p →
      p.payload.lookup "document_id" ≠ some call.documentId :=
    fun id p hp => by simpa using (Option.filter_eq_some_iff.mp hp).2
  obtain ⟨hframe, hspec⟩ := Call.indexDocument_settled h
  refine ⟨fun i hi => ?_, fun id p hp hdoc => ?_⟩
  · obtain ⟨vector, hvector⟩ := (hspec i hi).2 fun hskip => by
      obtain ⟨p, hp, _⟩ := Option.map_eq_some_iff.mp (hskip i hi rfl)
      obtain ⟨_, _, hid, hdoc⟩ := (inv_removeDocument (inv_after labels) _ p hp).lookup_documentId
      exact hgone _ p hp ((chunkId_inj hid).1 ▸ hdoc)
    exact ⟨_, hvector, Call.carries (Call.indexDocument_returns h).1⟩
  · by_contra! hother
    exact hgone id p (hframe id hother ▸ hp) hdoc

theorem changed_text :
    Holds ((plainCall ["new"]).indexDocument (works 1) (removeDocument "d" none
      (after [.index (plainCall ["old"]) (works 1)]))).1 (plainCall ["new"]) :=
  removed_holds _ _ _ (Prod.ext rfl (by decide +kernel))

end KnowledgeEngine.VectorKnowledgeBase
