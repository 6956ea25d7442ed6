import KnowledgeEngine.Analytics
import Mathlib.Algebra.BigOperators.Group.List.Basic
import Mathlib.Algebra.GroupWithZero.WithZero

/-!
Compaction of a closed bucket (clients/analytics/cassandra/compact.go). A
partition is read once, page by page, into groups of one time and dimension key;
each group's per-fact rows are folded, a chunk per batch, into the row with the
empty idempotency key. A batch upserts that row and deletes the rows it absorbed.
Partials form a commutative monoid behind an encoding, and a malformed blob reads
as zero.
-/

namespace KnowledgeEngine.Compaction

open Analytics CoreTypes TimeText

variable {M B : Type}

/-- EncodePartial and DecodePartial. -/
structure Codec (M B : Type) where
  encode : M → B
  decode : B → Except AppError M

inductive Statement (B : Type)
  | upsert (place : Address) (row : StoredRow B) (ttl : ℤ)
  | delete (place : Address) (key : RowKey)

abbrev Batch (B : Type) := List (Statement B)

def compactChunk : ℕ := 29

structure GroupRows (B : Type) where
  ts : ℤ
  compacted : StringMap B
  dims : StringMap String
  dimsKey : String
  keys : List String
  facts : List (StringMap B)

def groupID (ts : ℤ) (dimsKey : String) : List Char := rfc3339Nano ts ++ '|' :: dimsKey.toList

def GroupRows.add (g : GroupRows B) (key : String) (partials : StringMap B) : GroupRows B :=
  if key = "" then { g with compacted := partials }
  else { g with keys := g.keys ++ [key], facts := g.facts ++ [partials] }

/-- One scanned row: the group found under its id, or a new one, takes the row in. -/
def scanRow (groups : List (List Char × GroupRows B)) (row : StoredRow B) :
    List (List Char × GroupRows B) :=
  let id := groupID row.key.ts row.key.dimsKey
  let groups :=
    if id ∈ groups.map Prod.fst then groups
    else groups ++ [(id, ⟨row.key.ts, ∅, row.dims, row.key.dimsKey, [], []⟩)]
  groups.map fun e =>
    if e.1 = id then (e.1, e.2.add row.key.idempotencyKey row.partials) else e

def readPartition (pages : List (List (StoredRow B))) : List (GroupRows B) :=
  (pages.foldl (fun groups page => page.foldl scanRow groups) []).map Prod.snd

/-- Merge one row's partials into the accumulator, measure by measure. -/
def addPartials [Mul M] [One M] (codec : Codec M B) (acc : StringMap M) :
    List (Sigma fun _ : String => B) → Except AppError (StringMap M)
  | [] => .ok acc
  | ⟨name, blob⟩ :: rest => do
    let p ← codec.decode blob
    addPartials codec (acc.insert name ((acc.lookup name).getD 1 * p)) rest

def addRows [Mul M] [One M] (codec : Codec M B) (acc : StringMap M) :
    List (StringMap B) → Except AppError (StringMap M)
  | [] => .ok acc
  | row :: rest => do
    let acc ← addPartials codec acc row.entries
    addRows codec acc rest

def encodeAll (codec : Codec M B) (acc : StringMap M) : StringMap B where
  entries := acc.entries.map (Sigma.map id fun _ => codec.encode)
  nodupKeys := by
    simpa [List.NodupKeys, List.keys, Function.comp_def, Sigma.map] using acc.nodupKeys

def mergePartials [Mul M] [One M] (codec : Codec M B) (base : StringMap B)
    (rows : List (StringMap B)) : Except AppError (StringMap B) := do
  let acc ← addRows codec ∅ (base :: rows)
  return encodeAll codec acc

/-- The chunk loop over the keys not yet absorbed, with the batches it executes and
how it ends. -/
def foldChunks [Mul M] [One M] (codec : Codec M B) (place : Address) (ttl : ℤ)
    (g : GroupRows B) : ℕ → StringMap B → List String → List (StringMap B) →
      List (Batch B) × Except AppError Unit
  | 0, _, _, _ => ([], .ok ())
  | fuel + 1, merged, keys, facts =>
    if keys = [] then ([], .ok ())
    else
      match mergePartials codec merged (facts.take compactChunk) with
      | .error e => ([], .error e)
      | .ok next =>
        let upsert := .upsert place ⟨⟨g.ts, g.dimsKey, ""⟩, g.dims, next⟩ ttl
        let deletes := (keys.take compactChunk).map fun key => .delete place ⟨g.ts, g.dimsKey, key⟩
        let rest := foldChunks codec place ttl g fuel next (keys.drop compactChunk)
          (facts.drop compactChunk)
        ((upsert :: deletes) :: rest.1, rest.2)

def compactGroup [Mul M] [One M] (codec : Codec M B) (place : Address) (ttl : ℤ)
    (g : GroupRows B) : List (Batch B) × Except AppError Unit :=
  foldChunks codec place ttl g g.keys.length g.compacted g.keys g.facts

def compactGroups [Mul M] [One M] (codec : Codec M B) (place : Address) (ttl : ℤ) :
    List (GroupRows B) → List (Batch B) × Except AppError Unit
  | [] => ([], .ok ())
  | g :: rest =>
    let one := compactGroup codec place ttl g
    match one.2 with
    | .error e => (one.1, .error e)
    | .ok () =>
      let others := compactGroups codec place ttl rest
      (one.1 ++ others.1, others.2)

/-- Time.Sub saturates at the ends of a Duration. -/
def subTime (a b : ℤ) : ℤ := max (-2 ^ 63) (min (2 ^ 63 - 1) (a - b))

/-- The checks before any I/O: the TTL of the merged row in seconds (0 for none), or
nothing to do when the bucket is past its retention. -/
def checkCompact (s : Store) (now : ℤ) (cube : String) (grain : Grain) (bucket : ℤ) :
    Except AppError (Option ℤ) :=
  match s.cfg.Cubes.lookup cube with
  | none => .error (invalidInput "analytics: undeclared cube or grain")
  | some grains =>
    if grain ∉ grains then .error (invalidInput "analytics: undeclared cube or grain")
    else
      let width := s.cfg.width grain
      let stop := next bucket width
      if truncate bucket width ≠ bucket ∨ now < stop then
        .error (invalidInput "analytics: only a closed, aligned bucket can be compacted")
      else if 0 < s.cfg.TTL grain then
        let ttlSeconds := (subTime (stop + s.cfg.TTL grain) now).tdiv 1000000000
        if ttlSeconds < 1 then .ok none else .ok (some ttlSeconds)
      else .ok (some 0)

/-- Compact: the batches it executes, in order, and what it returns. The pages are
the partition as the session reads it, or the read error. -/
def compact [Mul M] [One M] (codec : Codec M B) (s : Store) (now : ℤ) (cube : String)
    (grain : Grain) (org : String) (bucket : ℤ)
    (read : Except AppError (List (List (StoredRow B)))) :
    List (Batch B) × Except AppError Unit :=
  match checkCompact s now cube grain bucket with
  | .error e => ([], .error e)
  | .ok none => ([], .ok ())
  | .ok (some ttl) =>
    if s.started = false then ([], .error notStarted)
    else
      match read with
      | .error e => ([], .error e)
      | .ok pages =>
        compactGroups codec ⟨tableName cube grain, org, cube, bucket⟩ ttl (readPartition pages)

def Statement.place : Statement B → Address
  | upsert place _ _ => place
  | delete place _ => place

def Statement.effect : Statement B → Partition B → Partition B
  | upsert _ row _, p => p.upsert row
  | delete _ key, p => p.delete key

def execute (db : Database B) (batch : Batch B) : Database B :=
  batch.foldl (fun db st => Function.update db st.place (st.effect (db st.place))) db

def executeAll (db : Database B) (batches : List (Batch B)) : Database B :=
  batches.foldl execute db

/-- A partial as a reader decodes it; a malformed blob is zero. -/
def reading (codec : Codec M B) (blob : B) : WithZero M :=
  match codec.decode blob with
  | .ok m => (m : WithZero M)
  | .error _ => 0

def inGroup (ts : ℤ) (dimsKey : String) (row : StoredRow B) : Bool :=
  row.key.ts = ts && row.key.dimsKey = dimsKey

/-- The blobs a reader finds for a measure of a group. -/
def blobs (p : Partition B) (ts : ℤ) (dimsKey measure : String) : List B :=
  (p.scan.filter (inGroup ts dimsKey)).filterMap fun row => row.partials.lookup measure

/-- The merge of a measure of a group, absent when no row carries it. -/
def answer [CommMonoid M] (codec : Codec M B) (p : Partition B) (ts : ℤ)
    (dimsKey measure : String) : Option (WithZero M) :=
  if (blobs p ts dimsKey measure).isEmpty then none
  else some ((blobs p ts dimsKey measure).map (reading codec)).prod

/-- What a row contributes to the merge of a measure. -/
def contribution [CommMonoid M] (codec : Codec M B) (measure : String)
    (partials : StringMap B) : WithZero M :=
  match partials.lookup measure with
  | some blob => reading codec blob
  | none => 1

open List

theorem groupID_inj {ts ts' : ℤ} {dimsKey dimsKey' : String}
    (h : groupID ts dimsKey = groupID ts' dimsKey') : ts = ts' ∧ dimsKey = dimsKey' := by
  obtain ⟨hts, hkey⟩ := rfc3339Nano_append_inj h
  exact ⟨hts, String.toList_injective (List.cons.inj hkey).2⟩

variable (codec : Codec M B)

theorem addPartials_ok [CommMonoid M] (measure : String)
    (entries : List (Sigma fun _ : String => B)) (hnodup : entries.NodupKeys)
    (acc out : StringMap M) (h : addPartials codec acc entries = .ok out) :
    (((out.lookup measure).getD 1 : M) : WithZero M) =
        ((acc.lookup measure).getD 1 : M) *
          (match entries.dlookup measure with
            | some blob => reading codec blob
            | none => 1) ∧
      (measure ∈ out ↔ measure ∈ acc ∨ measure ∈ entries.keys) := by
  induction entries generalizing acc with
  | nil =>
    simp only [addPartials, Except.ok.injEq] at h
    simp [h]
  | cons entry rest ih =>
    obtain ⟨name, blob⟩ := entry
    rw [nodupKeys_cons] at hnodup
    rw [addPartials] at h
    cases hdecode : codec.decode blob with
    | error e => simp [hdecode, bind, Except.bind] at h
    | ok p =>
      simp only [hdecode, bind, Except.bind] at h
      obtain ⟨hvalue, hmem⟩ := ih hnodup.2 _ h
      by_cases hname : measure = name
      · subst hname
        have hrest : rest.dlookup measure = none := dlookup_eq_none.mpr hnodup.1
        rw [hvalue, hrest, dlookup_cons_eq, AList.lookup_insert]
        refine ⟨by simp [reading, hdecode], ?_⟩
        rw [hmem]
        simp
      · rw [hvalue, AList.lookup_insert_ne hname, dlookup_cons_ne _ _ hname]
        refine ⟨rfl, ?_⟩
        rw [hmem, AList.mem_insert, keys_cons, mem_cons]
        tauto

theorem addRows_ok [CommMonoid M] (measure : String) (rows : List (StringMap B))
    (acc out : StringMap M) (h : addRows codec acc rows = .ok out) :
    (((out.lookup measure).getD 1 : M) : WithZero M) =
        ((acc.lookup measure).getD 1 : M) * (rows.map (contribution codec measure)).prod ∧
      (measure ∈ out ↔ measure ∈ acc ∨ ∃ row ∈ rows, measure ∈ row) := by
  induction rows generalizing acc with
  | nil =>
    simp only [addRows, Except.ok.injEq] at h
    simp [h]
  | cons row rest ih =>
    rw [addRows] at h
    cases hrow : addPartials codec acc row.entries with
    | error e => simp [hrow, bind, Except.bind] at h
    | ok mid =>
      simp only [hrow, bind, Except.bind] at h
      obtain ⟨hvalue, hmem⟩ := ih mid h
      obtain ⟨hmid, hmidMem⟩ := addPartials_ok codec measure row.entries row.nodupKeys acc mid hrow
      refine ⟨?_, ?_⟩
      · rw [hvalue, hmid, mul_assoc, map_cons, prod_cons]
        rfl
      · rw [hmem, hmidMem, or_assoc]
        simp only [mem_cons, exists_eq_or_imp]
        rfl

theorem encodeAll_lookup (acc : StringMap M) (measure : String) :
    (encodeAll codec acc).lookup measure = (acc.lookup measure).map codec.encode := by
  exact dlookup_map₂ measure

/-- The merged row stands for the rows it absorbed. -/
theorem mergePartials_ok [CommMonoid M] (hround : ∀ m, codec.decode (codec.encode m) = .ok m)
    {measure : String} {base : StringMap B} {rows : List (StringMap B)} {out : StringMap B}
    (h : mergePartials codec base rows = .ok out) :
    contribution codec measure out =
        contribution codec measure base * (rows.map (contribution codec measure)).prod ∧
      (measure ∈ out ↔ measure ∈ base ∨ ∃ row ∈ rows, measure ∈ row) := by
  rw [mergePartials] at h
  cases hacc : addRows codec ∅ (base :: rows) with
  | error e => simp [hacc, bind, Except.bind] at h
  | ok acc =>
    simp only [hacc, bind, Except.bind, pure, Except.pure, Except.ok.injEq] at h
    obtain ⟨hvalue, hmem⟩ := addRows_ok codec measure (base :: rows) ∅ acc hacc
    have hout : contribution codec measure out =
        (((acc.lookup measure).getD 1 : M) : WithZero M) := by
      rw [← h, contribution, encodeAll_lookup]
      cases acc.lookup measure with
      | none => rfl
      | some m => simp [reading, hround]
    refine ⟨?_, ?_⟩
    · rw [hout, hvalue, AList.lookup_empty, Option.getD_none, WithZero.coe_one, one_mul,
        map_cons, prod_cons]
    · have hkeys : measure ∈ out ↔ measure ∈ acc := by
        rw [← AList.lookup_isSome, ← AList.lookup_isSome, ← h, encodeAll_lookup,
          Option.isSome_map]
      rw [hkeys, hmem]
      simp

theorem blobs_prod [CommMonoid M] (measure : String) (rows : List (StoredRow B)) :
    ((rows.filterMap fun row => row.partials.lookup measure).map (reading codec)).prod =
      (rows.map fun row => contribution codec measure row.partials).prod := by
  induction rows with
  | nil => rfl
  | cons row rest ih =>
    cases hrow : row.partials.lookup measure with
    | none => simpa [filterMap_cons, hrow, contribution] using ih
    | some blob => simpa [filterMap_cons, hrow, contribution] using congrArg _ ih

theorem blobs_isEmpty (measure : String) (rows : List (StoredRow B)) :
    (rows.filterMap fun row => row.partials.lookup measure).isEmpty = true ↔
      ∀ row ∈ rows, measure ∉ row.partials := by
  simp [List.isEmpty_iff, AList.lookup_eq_none]

/-- The answer depends on a group's rows up to order, and only on their product and
on which measures occur. -/
theorem answer_congr [CommMonoid M] {p q : Partition B} {ts : ℤ} {dimsKey measure : String}
    {before after : List (StoredRow B)} (hp : (p.rows.filter (inGroup ts dimsKey)).Perm before)
    (hq : (q.rows.filter (inGroup ts dimsKey)).Perm after)
    (hprod : (after.map fun row => contribution codec measure row.partials).prod =
      (before.map fun row => contribution codec measure row.partials).prod)
    (hmem : (∃ row ∈ after, measure ∈ row.partials) ↔ ∃ row ∈ before, measure ∈ row.partials) :
    answer codec q ts dimsKey measure = answer codec p ts dimsKey measure := by
  have hscanP := (p.scan_perm.filter (inGroup ts dimsKey)).trans hp
  have hscanQ := (q.scan_perm.filter (inGroup ts dimsKey)).trans hq
  have hempty : (blobs q ts dimsKey measure).isEmpty = (blobs p ts dimsKey measure).isEmpty := by
    rw [Bool.eq_iff_iff, blobs, blobs, blobs_isEmpty, blobs_isEmpty]
    simp only [hscanP.mem_iff, hscanQ.mem_iff]
    simpa only [not_exists, not_and] using not_congr hmem
  have hmerge : ((blobs q ts dimsKey measure).map (reading codec)).prod =
      ((blobs p ts dimsKey measure).map (reading codec)).prod := by
    rw [blobs, blobs, blobs_prod, blobs_prod, (hscanQ.map _).prod_eq, (hscanP.map _).prod_eq]
    exact hprod
  rw [answer, answer, hempty, hmerge]

end KnowledgeEngine.Compaction
