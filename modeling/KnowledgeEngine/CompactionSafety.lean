import KnowledgeEngine.CompactionBatches
import Mathlib.Algebra.GroupWithZero.Nat

/-!
Compaction never changes an answer. Every prefix of the batches of a run keeps every
merge a reader can compute, in the compacted partition and in all others, and a run
that ends without error leaves one row in each group it folded.
-/

namespace KnowledgeEngine.CompactionSafety

open Analytics Compaction CompactionBatches CompactionRead CoreTypes Function List

variable {M B : Type} {p : Partition B}

theorem ready_of_holds {g : GroupRows B} (h : Holds p.scan g) : Ready p g := by
  have hnodup : (p.scan.map StoredRow.key).Nodup := (p.scan_perm.map _).nodup_iff.mpr p.nodup
  refine ⟨p.scan.filter (isFact g.ts g.dimsKey), ⟨?_, ?_⟩, h.keys, h.facts⟩
  · intro f hf
    exact (isFact_iff.mp (mem_filter.mp hf).2).2
  · refine ⟨p.scan.filter (isCompacted g.ts g.dimsKey), ?_, ?_⟩
    · have hsplit := filter_append_perm (fun row => row.key.idempotencyKey = "")
        (p.scan.filter (inGroup g.ts g.dimsKey))
      simp only [filter_filter] at hsplit
      refine (p.scan_perm.symm.filter _).trans (hsplit.symm.trans (List.Perm.of_eq ?_))
      congr 1
      · exact filter_congr fun row _ => by simp [isCompacted, Bool.and_comm]
      · exact filter_congr fun row _ => by simp [isFact, Bool.and_comm]
    · rcases compacted_unique hnodup with hnone | ⟨row, hone, hkey⟩
      · left
        exact ⟨hnone, by rw [h.compacted, hnone]; rfl⟩
      · right
        refine ⟨row, hone, by rw [hkey], ?_⟩
        rw [h.compacted, hone]
        rfl

variable {pages : List (List (StoredRow B))}

theorem partition_compacts [CommMonoid M] {codec : Codec M B}
    (hround : ∀ m, codec.decode (codec.encode m) = .ok m) (place : Address) (ttl : ℤ)
    (hpages : pages.flatten = p.scan) :
    Compacts codec p (readPartition pages)
      (compactGroups codec place ttl (readPartition pages)) := by
  obtain ⟨groups, hgrouped, hread⟩ := readPartition_grouped pages
  rw [hread]
  apply compactGroups_compacts hround place ttl _
  · intro g hg
    obtain ⟨e, he, rfl⟩ := mem_map.mp hg
    have hholds := hgrouped.holds e he
    rw [hpages] at hholds
    exact ready_of_holds hholds
  · exact grouped_distinct hgrouped

theorem foldChunks_place [Mul M] [One M] (codec : Codec M B) (place : Address) (ttl : ℤ)
    (g : GroupRows B) (fuel : ℕ) (merged : StringMap B) (keys : List String)
    (facts : List (StringMap B)) :
    ∀ batch ∈ (foldChunks codec place ttl g fuel merged keys facts).1, ∀ st ∈ batch,
      st.place = place := by
  induction fuel generalizing merged keys facts with
  | zero => simp [foldChunks]
  | succ fuel ih =>
    rw [foldChunks]
    split
    · simp
    · cases mergePartials codec merged (facts.take compactChunk) with
      | error e => simp
      | ok next =>
        intro batch hbatch st hst
        rcases mem_cons.mp hbatch with rfl | hbatch
        · rcases mem_cons.mp hst with rfl | hst
          · rfl
          · obtain ⟨key, _, rfl⟩ := mem_map.mp hst
            rfl
        · exact ih next _ _ batch hbatch st hst

theorem compactGroups_place [Mul M] [One M] (codec : Codec M B) (place : Address) (ttl : ℤ)
    (groups : List (GroupRows B)) :
    ∀ batch ∈ (compactGroups codec place ttl groups).1, ∀ st ∈ batch, st.place = place := by
  induction groups with
  | nil => simp [compactGroups]
  | cons g rest ih =>
    have hone := foldChunks_place codec place ttl g g.keys.length g.compacted g.keys g.facts
    rw [compactGroups]
    split
    · exact hone
    · intro batch hbatch
      rcases mem_append.mp hbatch with hbatch | hbatch
      · exact hone batch hbatch
      · exact ih batch hbatch

theorem execute_eq_update {place : Address} {batch : Batch B} (db : Database B)
    (h : ∀ st ∈ batch, st.place = place) :
    execute db batch = update db place (applyBatch (db place) batch) := by
  induction batch generalizing db with
  | nil => simp [execute, applyBatch]
  | cons st rest ih =>
    have hst := h st mem_cons_self
    have hrest := ih (update db st.place (st.effect (db st.place)))
      fun st' hst' => h st' (mem_cons_of_mem _ hst')
    rw [applyBatch_cons]
    simpa only [execute, foldl_cons, hst, update_self, update_idem]
      using hrest

theorem executeAll_eq_update {place : Address} {batches : List (Batch B)} (db : Database B)
    (h : ∀ batch ∈ batches, ∀ st ∈ batch, st.place = place) :
    executeAll db batches = update db place (applyAll (db place) batches) := by
  induction batches generalizing db with
  | nil => simp [executeAll, applyAll]
  | cons batch rest ih =>
    have hbatch := execute_eq_update db (h batch mem_cons_self)
    have hrest := ih (execute db batch) fun batch' hb => h batch' (mem_cons_of_mem _ hb)
    rw [hbatch, update_self, update_idem] at hrest
    rw [executeAll, foldl_cons, hbatch]
    exact hrest

/-- What compact does, past its checks and with the partition read, is what the
groups do; otherwise it executes nothing. -/
theorem compact_cases [Mul M] [One M] (codec : Codec M B) (s : Store) (now : ℤ)
    (cube : String) (grain : Grain) (org : String) (bucket : ℤ)
    (read : Except AppError (List (List (StoredRow B)))) :
    (compact codec s now cube grain org bucket read).1 = [] ∧
        ((compact codec s now cube grain org bucket read).2 = .ok () →
          checkCompact s now cube grain bucket = .ok none) ∨
      ∃ ttl pages, read = .ok pages ∧ compact codec s now cube grain org bucket read =
        compactGroups codec ⟨tableName cube grain, org, cube, bucket⟩ ttl
          (readPartition pages) := by
  unfold compact
  cases hcheck : checkCompact s now cube grain bucket with
  | error e => exact Or.inl ⟨rfl, fun hok => by cases hok⟩
  | ok result =>
    cases result with
    | none => exact Or.inl ⟨rfl, fun _ => rfl⟩
    | some ttl =>
      cases hstarted : s.started with
      | false => exact Or.inl ⟨rfl, fun hok => by cases hok⟩
      | true =>
        cases read with
        | error e => exact Or.inl ⟨rfl, fun hok => by cases hok⟩
        | ok pages => exact Or.inr ⟨ttl, pages, rfl, rfl⟩

/-- After a completed run over the groups no per-fact row is left. -/
theorem compacts_no_facts [CommMonoid M] {codec : Codec M B} (hpages : pages.flatten = p.scan)
    {out : List (Batch B) × Except AppError Unit} (h : Compacts codec p (readPartition pages) out)
    (hok : out.2 = .ok ()) : ∀ row ∈ (applyAll p out.1).rows, row.key.idempotencyKey = "" := by
  intro row hrow
  by_contra hkey
  have hmem : row ∈ (applyAll p out.1).rows.filter (inGroup row.key.ts row.key.dimsKey) :=
    mem_filter.mpr ⟨hrow, inGroup_iff.mpr ⟨rfl, rfl⟩⟩
  by_cases hgroup : ∃ g ∈ readPartition pages, g.ts = row.key.ts ∧ g.dimsKey = row.key.dimsKey
  · obtain ⟨g, hg, hts, hdims⟩ := hgroup
    rw [← hts, ← hdims] at hmem
    by_cases hkeys : g.keys = []
    · rw [h.idle hok g hg hkeys] at hmem
      obtain ⟨g', hg', hts', hdims', hkeys'⟩ :=
        readPartition_covers hpages (mem_filter.mp hmem).1
      have hsame : g'.keys = g.keys := by
        obtain ⟨groups, hgrouped, hread⟩ := readPartition_grouped pages
        rw [hread] at hg hg'
        obtain ⟨e, he, rfl⟩ := mem_map.mp hg
        obtain ⟨e', he', rfl⟩ := mem_map.mp hg'
        rw [(hgrouped.holds e he).keys, (hgrouped.holds e' he').keys, hts, hdims, hts', hdims']
      exact hkeys' hkey (hsame.trans hkeys)
    · obtain ⟨merged, hmerged, hrows⟩ := h.done hok g hg hkeys
      rw [hrows, mem_singleton] at hmem
      rw [hmem, hmerged] at hkey
      exact hkey rfl
  · have hnone : ∀ g ∈ readPartition pages, ¬(g.ts = row.key.ts ∧ g.dimsKey = row.key.dimsKey) :=
      fun g hg hsame => hgroup ⟨g, hg, hsame⟩
    rw [h.others _ _ hnone] at hmem
    obtain ⟨g, hg, hts, hdims, _⟩ :=
      readPartition_covers hpages (mem_filter.mp hmem).1
    exact hgroup ⟨g, hg, hts, hdims⟩

/-- Compact in a database: every batch is within the limit, every prefix of the
batches keeps every answer of every partition, and a completed run leaves one merged
row in each group that had per-fact rows and nothing for a second run to do. -/
theorem compact_preserves_answers [CommMonoid M] (codec : Codec M B)
    (hround : ∀ m, codec.decode (codec.encode m) = .ok m) (s : Store) (now : ℤ)
    (cube : String) (grain : Grain) (org : String) (bucket : ℤ) (db : Database B)
    (read : Except AppError (List (List (StoredRow B))))
    (hread : ∀ pages, read = .ok pages →
      pages.flatten = (db ⟨tableName cube grain, org, cube, bucket⟩).scan) :
    (∀ batch ∈ (compact codec s now cube grain org bucket read).1, batch.length ≤ 30) ∧
    (∀ n place ts dimsKey measure,
      answer codec
          (executeAll db ((compact codec s now cube grain org bucket read).1.take n) place)
          ts dimsKey measure =
        answer codec (db place) ts dimsKey measure) ∧
    ((compact codec s now cube grain org bucket read).2 = .ok () →
      checkCompact s now cube grain bucket ≠ .ok none →
      (∀ row ∈ (db ⟨tableName cube grain, org, cube, bucket⟩).rows, row.key.idempotencyKey ≠ "" →
        ∃ merged : StoredRow B, merged.key = ⟨row.key.ts, row.key.dimsKey, ""⟩ ∧
          (executeAll db (compact codec s now cube grain org bucket read).1
            ⟨tableName cube grain, org, cube, bucket⟩).rows.filter
              (inGroup row.key.ts row.key.dimsKey) = [merged]) ∧
      (∀ now' pages', pages'.flatten =
          (executeAll db (compact codec s now cube grain org bucket read).1
            ⟨tableName cube grain, org, cube, bucket⟩).scan →
        (compact codec s now' cube grain org bucket (.ok pages')).1 = [])) := by
  set place : Address := ⟨tableName cube grain, org, cube, bucket⟩ with hplace
  rcases compact_cases codec s now cube grain org bucket read with
    ⟨hnothing, hidle⟩ | ⟨ttl, pages, hpages, hrun⟩
  · rw [hnothing]
    refine ⟨by simp, ?_, fun hok hcheck => absurd (hidle hok) hcheck⟩
    intro n place' ts dimsKey measure
    rw [take_nil]
    rfl
  · rw [hrun]
    have hscan := hread pages hpages
    have hcompacts := partition_compacts hround place ttl hscan
    have hwhere := compactGroups_place codec place ttl (readPartition pages)
    refine ⟨hcompacts.short, ?_, ?_⟩
    · intro n place' ts dimsKey measure
      rw [executeAll_eq_update db fun batch hbatch => hwhere batch (mem_of_mem_take hbatch)]
      by_cases hsame : place' = place
      · rw [hsame, update_self]
        exact keepsAnswers_take n hcompacts.keeps ts dimsKey measure
      · rw [update_of_ne hsame]
    · intro hok _
      rw [executeAll_eq_update db hwhere, update_self]
      refine ⟨?_, ?_⟩
      · intro row hrow hkey
        obtain ⟨g, hg, hts, hdims, hkeys⟩ := readPartition_covers hscan hrow
        rw [← hts, ← hdims]
        exact hcompacts.done hok g hg (hkeys hkey)
      · intro now' pages' hscan'
        have hnone := compacts_no_facts hscan hcompacts hok
        rcases compact_cases codec s now' cube grain org bucket (.ok pages') with
          ⟨hnothing, _⟩ | ⟨ttl', pages'', heq, hrun'⟩
        · exact hnothing
        · cases heq
          rw [hrun']
          apply (partition_compacts hround place ttl' hscan').quiet
          intro g hg
          by_contra hkeys
          obtain ⟨row, hrow, hkey⟩ := readPartition_keys hg hkeys
          rw [hscan'] at hrow
          exact hkey (hnone row (Partition.scan_perm.mem_iff.mp hrow))

/-- Counts behind a version number. -/
def countCodec : Codec (Multiplicative ℕ) (ℕ × ℕ) where
  encode m := (1, m.toAdd)
  decode b := if b.1 = 1 then .ok (Multiplicative.ofAdd b.2)
    else .error (invalidInput "vizql: malformed partial")

def saleRow (key : String) (count : ℕ) : StoredRow (ℕ × ℕ) :=
  ⟨⟨0, "", key⟩, ∅, AList.singleton "orders" (1, count)⟩

/-- Two facts of one hour of January 1, 1970, one of them counting two orders. -/
def salesDay : Database (ℕ × ℕ) := fun _ =>
  ⟨[saleRow "f1" 1, saleRow "f2" 2], by decide⟩

theorem salesDay_scan (place : Address) :
    (salesDay place).scan = [saleRow "f1" 1, saleRow "f2" 2] := by
  apply mergeSort_of_pairwise
  show List.Pairwise (fun a b => a.key.le b.key = true) [saleRow "f1" 1, saleRow "f2" 2]
  decide

theorem salesDay_answer (place : Address) :
    answer countCodec (salesDay place) 0 "" "orders" =
      some ((Multiplicative.ofAdd 3 : Multiplicative ℕ) : WithZero (Multiplicative ℕ)) := by
  unfold answer blobs
  rw [salesDay_scan]
  rfl

/-- The batches of a compaction of that day, which is over. -/
def salesBatches : List (Batch (ℕ × ℕ)) :=
  (compact countCodec salesStore 86400000000000 "sales" .hour "acme" 0
    (.ok [[saleRow "f1" 1], [saleRow "f2" 2]])).1

theorem salesDay_preserved : salesBatches.length = 1 ∧
    answer countCodec (executeAll salesDay (salesBatches.take 1) ⟨"sales_hour", "acme", "sales", 0⟩)
        0 "" "orders" =
      some ((Multiplicative.ofAdd 3 : Multiplicative ℕ) : WithZero (Multiplicative ℕ)) := by
  refine ⟨by decide, ?_⟩
  have h := compact_preserves_answers countCodec (fun m => rfl) salesStore 86400000000000 "sales"
    .hour "acme" 0 salesDay (.ok [[saleRow "f1" 1], [saleRow "f2" 2]]) (by
      intro pages hpages
      cases hpages
      rw [salesDay_scan]
      rfl)
  rw [salesBatches, h.2.1, salesDay_answer]

end KnowledgeEngine.CompactionSafety
