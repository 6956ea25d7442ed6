import KnowledgeEngine.CompactionRead

/-!
The batches of a compaction inside one partition. A batch replaces the compacted
row and a chunk of per-fact rows by one row that stands for all of them and touches
no other group; the chunk loop and the loop over the groups repeat that.
-/

namespace KnowledgeEngine.CompactionBatches

open Analytics Compaction CompactionRead CoreTypes List

variable {M B : Type}

def applyBatch (p : Partition B) (batch : Batch B) : Partition B :=
  batch.foldl (fun p st => st.effect p) p

def applyAll (p : Partition B) (batches : List (Batch B)) : Partition B :=
  batches.foldl applyBatch p

def SameAnswers [CommMonoid M] (codec : Codec M B) (p q : Partition B) : Prop :=
  ∀ ts dimsKey measure, answer codec q ts dimsKey measure = answer codec p ts dimsKey measure

/-- Every batch of the list keeps the answers of the partition it finds. -/
def KeepsAnswers [CommMonoid M] (codec : Codec M B) : Partition B → List (Batch B) → Prop
  | _, [] => True
  | p, batch :: rest =>
    SameAnswers codec p (applyBatch p batch) ∧ KeepsAnswers codec (applyBatch p batch) rest

/-- A group's rows in the partition: its compacted row, when it has one, and the
per-fact rows still to be absorbed. -/
structure Pending (p : Partition B) (ts : ℤ) (dimsKey : String) (merged : StringMap B)
    (facts : List (StoredRow B)) : Prop where
  keyed : ∀ f ∈ facts, f.key.idempotencyKey ≠ ""
  split : ∃ head, (p.rows.filter (inGroup ts dimsKey)).Perm (head ++ facts) ∧
    (head = [] ∧ merged = ∅ ∨
      ∃ row, head = [row] ∧ row.key.idempotencyKey = "" ∧ row.partials = merged)

section Answers

variable [CommMonoid M] {codec : Codec M B} {p : Partition B}

theorem keepsAnswers_take {batches : List (Batch B)} (n : ℕ) (h : KeepsAnswers codec p batches) :
    SameAnswers codec p (applyAll p (batches.take n)) := by
  induction batches generalizing n p with
  | nil => simp [applyAll, SameAnswers]
  | cons batch rest ih =>
    cases n with
    | zero => simp [applyAll, SameAnswers]
    | succ n =>
      intro ts dimsKey measure
      exact (ih n h.2 ts dimsKey measure).trans (h.1 ts dimsKey measure)

theorem keepsAnswers_append {first second : List (Batch B)} (hfirst : KeepsAnswers codec p first)
    (hsecond : KeepsAnswers codec (applyAll p first) second) :
    KeepsAnswers codec p (first ++ second) := by
  induction first generalizing p with
  | nil => exact hsecond
  | cons batch rest ih => exact ⟨hfirst.1, ih hfirst.2 hsecond⟩

end Answers

/-- The merged row written, the rows it was merged from deleted. -/
def absorb (place : Address) (ttl : ℤ) (row : StoredRow B) (chunk : List (StoredRow B)) :
    Batch B :=
  .upsert place row ttl :: (chunk.map StoredRow.key).map fun key => .delete place key

theorem applyBatch_cons (p : Partition B) (st : Statement B) (batch : Batch B) :
    applyBatch p (st :: batch) = applyBatch (st.effect p) batch := rfl

theorem applyBatch_deletes (place : Address) (keys : List RowKey) (p : Partition B) :
    (applyBatch p (keys.map fun key => Statement.delete place key)).rows =
      p.rows.filter fun r => r.key ∉ keys := by
  induction keys generalizing p with
  | nil => simp [applyBatch]
  | cons key rest ih =>
    rw [map_cons, applyBatch_cons, ih]
    simp only [Statement.effect, Partition.delete, filter_filter]
    apply filter_congr
    intro r _
    simp [Bool.and_comm]

section Absorb

variable {place : Address} {ttl : ℤ} {p : Partition B} {ts : ℤ} {dimsKey : String}
  {merged : StringMap B} {chunk rest : List (StoredRow B)} {row : StoredRow B}

theorem pending_inGroup {facts : List (StoredRow B)} (h : Pending p ts dimsKey merged facts) :
    ∀ f ∈ facts, f.key = ⟨ts, dimsKey, f.key.idempotencyKey⟩ := by
  obtain ⟨head, hperm, _⟩ := h.split
  intro f hf
  have hmem := hperm.mem_iff.mpr (mem_append_right head hf)
  obtain ⟨hts, hdims⟩ := inGroup_iff.mp (mem_filter.mp hmem).2
  rw [← hts, ← hdims]

variable (hrow : row.key = ⟨ts, dimsKey, ""⟩) (h : Pending p ts dimsKey merged (chunk ++ rest))
include hrow h

/-- A batch puts the merged row in place of the old one and of the deleted rows. -/
theorem absorb_rows : (applyBatch p (absorb place ttl row chunk)).rows =
    (p.rows.filter fun r => r.key ≠ row.key ∧ r.key ∉ chunk.map StoredRow.key) ++ [row] := by
  have hfresh : row.key ∉ chunk.map StoredRow.key := by
    intro hmem
    obtain ⟨f, hf, hkey⟩ := mem_map.mp hmem
    apply h.keyed f (mem_append_left _ hf)
    rw [hkey, hrow]
  rw [absorb, applyBatch_cons, applyBatch_deletes]
  simp only [Statement.effect, Partition.upsert, filter_append, filter_filter]
  congr 1
  · apply filter_congr
    intro r _
    simp [Bool.and_comm]
  · rw [filter_singleton, decide_eq_true hfresh]
    rfl

/-- A batch absorbs a chunk: the group is the new merged row and the rest. -/
theorem absorb_perm : ((applyBatch p (absorb place ttl row chunk)).rows.filter
    (inGroup ts dimsKey)).Perm (row :: rest) := by
  obtain ⟨head, hperm, hhead⟩ := h.split
  have hgroup : inGroup ts dimsKey row = true := inGroup_iff.mpr (by rw [hrow]; simp)
  have hnodup : ((head ++ (chunk ++ rest)).map StoredRow.key).Nodup :=
    (hperm.map _).nodup_iff.mp (p.nodup.sublist (filter_sublist.map _))
  have hheadGone : head.filter (fun r => r.key ≠ row.key ∧ r.key ∉ chunk.map StoredRow.key) =
      [] := by
    rcases hhead with ⟨rfl, _⟩ | ⟨old, rfl, hold, _⟩
    · rfl
    · have hmem := hperm.mem_iff.mpr (mem_append_left (chunk ++ rest) mem_cons_self)
      obtain ⟨hts, hdims⟩ := inGroup_iff.mp (mem_filter.mp hmem).2
      have hsame : old.key = row.key := by
        rw [hrow, ← hts, ← hdims, ← hold]
      simp [hsame]
  have hchunkGone : chunk.filter (fun r => r.key ≠ row.key ∧ r.key ∉ chunk.map StoredRow.key) =
      [] := by
    rw [filter_eq_nil_iff]
    intro f hf
    simp [mem_map_of_mem hf]
  have hrestKept : rest.filter (fun r => r.key ≠ row.key ∧ r.key ∉ chunk.map StoredRow.key) =
      rest := by
    rw [filter_eq_self]
    intro f hf
    have hne : f.key ≠ row.key := by
      intro heq
      apply h.keyed f (mem_append_right _ hf)
      rw [heq, hrow]
    have hfresh : f.key ∉ chunk.map StoredRow.key := by
      intro hmem
      rw [map_append, map_append, ← append_assoc] at hnodup
      exact (nodup_append.mp hnodup).2.2 _ (mem_append_right _ hmem) _
        (mem_map_of_mem hf) rfl
    exact decide_eq_true ⟨hne, hfresh⟩
  have hfilter := hperm.filter fun r => r.key ≠ row.key ∧ r.key ∉ chunk.map StoredRow.key
  rw [filter_append, filter_append, hheadGone, hchunkGone, hrestKept,
    filter_filter] at hfilter
  rw [absorb_rows hrow h, filter_append, filter_filter]
  simp only [filter_cons, hgroup, if_true, filter_nil]
  refine List.Perm.trans (List.Perm.append_right [row] ?_) perm_append_comm
  simpa only [Bool.and_comm, nil_append] using hfilter

theorem pending_absorb :
    Pending (applyBatch p (absorb place ttl row chunk)) ts dimsKey row.partials rest := by
  refine ⟨fun f hf => h.keyed f (mem_append_right _ hf), [row], absorb_perm hrow h,
    Or.inr ⟨row, rfl, ?_, rfl⟩⟩
  rw [hrow]

theorem absorb_other {ts' : ℤ} {dimsKey' : String} (hother : ¬(ts = ts' ∧ dimsKey = dimsKey')) :
    (applyBatch p (absorb place ttl row chunk)).rows.filter (inGroup ts' dimsKey') =
      p.rows.filter (inGroup ts' dimsKey') := by
  have hout : inGroup ts' dimsKey' row = false := by
    rw [Bool.eq_false_iff, Ne, inGroup_iff, hrow]
    exact hother
  rw [absorb_rows hrow h, filter_append, filter_filter]
  simp only [filter_cons, hout, filter_nil, Bool.false_eq_true, if_false,
    append_nil]
  apply filter_congr
  intro r _
  by_cases hr : inGroup ts' dimsKey' r = true
  · obtain ⟨hts, hdims⟩ := inGroup_iff.mp hr
    have hne : r.key ≠ row.key := by
      intro heq
      rw [heq, hrow] at hts hdims
      exact hother ⟨hts, hdims⟩
    have hnot : r.key ∉ chunk.map StoredRow.key := by
      intro hmem
      obtain ⟨f, hf, hkey⟩ := mem_map.mp hmem
      rw [← hkey, pending_inGroup h f (mem_append_left _ hf)] at hts hdims
      exact hother ⟨hts, hdims⟩
    simp [hr, hne, hnot]
  · simp [hr]

/-- The merged row answers for the old merged row and the chunk. -/
theorem absorb_sameAnswers [CommMonoid M] {codec : Codec M B}
    (hround : ∀ m, codec.decode (codec.encode m) = .ok m)
    (hmerge : mergePartials codec merged (chunk.map StoredRow.partials) = .ok row.partials) :
    SameAnswers codec p (applyBatch p (absorb place ttl row chunk)) := by
  intro ts' dimsKey' measure
  by_cases hgroup : ts = ts' ∧ dimsKey = dimsKey'
  · obtain ⟨rfl, rfl⟩ := hgroup
    obtain ⟨head, hperm, hhead⟩ := h.split
    have hbase : (head.map fun r => contribution codec measure r.partials).prod =
          contribution codec measure merged ∧
        ((∃ r ∈ head, measure ∈ r.partials) ↔ measure ∈ merged) := by
      rcases hhead with ⟨rfl, rfl⟩ | ⟨old, rfl, _, rfl⟩
      · simp [contribution]
      · simp
    obtain ⟨hvalue, hmem⟩ := mergePartials_ok codec hround hmerge
    apply answer_congr codec hperm (absorb_perm hrow h)
    · rw [map_cons, prod_cons, hvalue, map_append, map_append,
        prod_append, prod_append, hbase.1, map_map, mul_assoc]
      rfl
    · simp only [mem_cons, mem_append, or_and_right, exists_or, exists_eq_left, hbase.2,
        hmem, mem_map, exists_exists_and_eq_and, or_assoc]
  · apply answer_congr codec (List.Perm.refl _) _ rfl Iff.rfl
    rw [absorb_other hrow h hgroup]

end Absorb

/-- What the chunk loop of one group does to a partition in which the group is
pending: no batch is too long, none changes an answer or another group, and an end
without error leaves one merged row where there were rows to absorb. -/
structure Folds [CommMonoid M] (codec : Codec M B) (p : Partition B) (ts : ℤ)
    (dimsKey : String) (facts : List (StoredRow B))
    (out : List (Batch B) × Except AppError Unit) : Prop where
  short : ∀ batch ∈ out.1, batch.length ≤ 30
  keeps : KeepsAnswers codec p out.1
  others : ∀ ts' dimsKey', ¬(ts = ts' ∧ dimsKey = dimsKey') →
    (applyAll p out.1).rows.filter (inGroup ts' dimsKey') = p.rows.filter (inGroup ts' dimsKey')
  none : facts = [] → out.1 = []
  done : out.2 = .ok () → facts ≠ [] → ∃ row, row.key = ⟨ts, dimsKey, ""⟩ ∧
    (applyAll p out.1).rows.filter (inGroup ts dimsKey) = [row]

variable [CommMonoid M] {codec : Codec M B} {p : Partition B}

theorem folds_stop {ts : ℤ} {dimsKey : String} {facts : List (StoredRow B)}
    {result : Except AppError Unit} (h : facts = [] ∨ result ≠ .ok ()) :
    Folds codec p ts dimsKey facts ([], result) where
  short := by simp
  keeps := trivial
  others := fun _ _ _ => rfl
  none := fun _ => rfl
  done := fun hok hne => (h.elim (fun hnil => hne hnil) fun herr => herr hok).elim

variable (hround : ∀ m, codec.decode (codec.encode m) = .ok m) (place : Address) (ttl : ℤ)
include hround

theorem foldChunks_folds (g : GroupRows B) (fuel : ℕ) (merged : StringMap B)
    (facts : List (StoredRow B)) (hfuel : facts.length ≤ fuel)
    (h : Pending p g.ts g.dimsKey merged facts) :
    Folds codec p g.ts g.dimsKey facts (foldChunks codec place ttl g fuel merged
      (facts.map (·.key.idempotencyKey)) (facts.map StoredRow.partials)) := by
  induction fuel generalizing p merged facts with
  | zero =>
    exact folds_stop (Or.inl (length_eq_zero_iff.mp (Nat.le_zero.mp hfuel)))
  | succ fuel ih =>
    by_cases hnil : facts = []
    · subst hnil
      exact folds_stop (Or.inl rfl)
    have hkeysNe : facts.map (·.key.idempotencyKey) ≠ [] := by simpa using hnil
    rw [foldChunks, if_neg hkeysNe, ← map_take, ← map_take, ← map_drop,
      ← map_drop]
    cases hmerge : mergePartials codec merged
        ((facts.take compactChunk).map StoredRow.partials) with
    | error e => exact folds_stop (Or.inr (by simp))
    | ok next =>
      set chunk := facts.take compactChunk with hchunk
      set rest := facts.drop compactChunk with hrest
      have hsplit : chunk ++ rest = facts := take_append_drop _ _
      have hrestLen : rest.length ≤ fuel := by
        have : 0 < facts.length := length_pos_of_ne_nil hnil
        rw [hrest, length_drop]
        unfold compactChunk
        omega
      rw [← hsplit] at h
      have hdeletes : (chunk.map (·.key.idempotencyKey)).map
          (fun key => Statement.delete (B := B) place ⟨g.ts, g.dimsKey, key⟩) =
          (chunk.map StoredRow.key).map fun key => .delete place key := by
        rw [map_map, map_map]
        apply map_congr_left
        intro f hf
        simp only [Function.comp_apply]
        rw [← pending_inGroup h f (mem_append_left _ hf)]
      simp only [hdeletes]
      set row : StoredRow B := ⟨⟨g.ts, g.dimsKey, ""⟩, g.dims, next⟩ with hrow
      have hpending :
          Pending (applyBatch p (absorb place ttl row chunk)) g.ts g.dimsKey next rest :=
        pending_absorb rfl h
      have hstep := ih next rest hrestLen hpending
      constructor
      · intro batch hbatch
        rcases mem_cons.mp hbatch with rfl | hbatch
        · simp only [length_cons, length_map, hchunk, length_take]
          unfold compactChunk
          omega
        · exact hstep.short batch hbatch
      · exact ⟨absorb_sameAnswers rfl h hround hmerge, hstep.keeps⟩
      · intro ts' dimsKey' hother
        exact (hstep.others ts' dimsKey' hother).trans (absorb_other rfl h hother)
      · exact fun hempty => absurd hempty hnil
      · intro hok _
        by_cases hlast : rest = []
        · refine ⟨row, rfl, ?_⟩
          rw [hstep.none hlast]
          exact perm_singleton.mp (hlast ▸ absorb_perm rfl h)
        · exact hstep.done hok hlast

/-- A group as read is the partition's group. -/
def Ready (p : Partition B) (g : GroupRows B) : Prop :=
  ∃ facts, Pending p g.ts g.dimsKey g.compacted facts ∧
    g.keys = facts.map (·.key.idempotencyKey) ∧ g.facts = facts.map StoredRow.partials

omit [CommMonoid M] hround in
theorem ready_congr {q : Partition B} {g : GroupRows B}
    (hsame : q.rows.filter (inGroup g.ts g.dimsKey) = p.rows.filter (inGroup g.ts g.dimsKey))
    (h : Ready p g) : Ready q g := by
  obtain ⟨facts, hpending, hkeys, hfacts⟩ := h
  exact ⟨facts, ⟨hpending.keyed, by rw [hsame]; exact hpending.split⟩, hkeys, hfacts⟩

theorem compactGroup_folds {g : GroupRows B} (h : Ready p g) :
    ∃ facts, (g.keys = [] ↔ facts = []) ∧
      Folds codec p g.ts g.dimsKey facts (compactGroup codec place ttl g) := by
  obtain ⟨facts, hpending, hkeys, hfacts⟩ := h
  refine ⟨facts, by rw [hkeys, map_eq_nil_iff], ?_⟩
  rw [compactGroup, hkeys, hfacts, length_map]
  exact foldChunks_folds hround place ttl g facts.length g.compacted facts le_rfl hpending

/-- The same over all groups of a partition. -/
structure Compacts [CommMonoid M] (codec : Codec M B) (p : Partition B)
    (groups : List (GroupRows B)) (out : List (Batch B) × Except AppError Unit) : Prop where
  short : ∀ batch ∈ out.1, batch.length ≤ 30
  keeps : KeepsAnswers codec p out.1
  others : ∀ ts dimsKey, (∀ g ∈ groups, ¬(g.ts = ts ∧ g.dimsKey = dimsKey)) →
    (applyAll p out.1).rows.filter (inGroup ts dimsKey) = p.rows.filter (inGroup ts dimsKey)
  quiet : (∀ g ∈ groups, g.keys = []) → out.1 = []
  idle : out.2 = .ok () → ∀ g ∈ groups, g.keys = [] →
    (applyAll p out.1).rows.filter (inGroup g.ts g.dimsKey) =
      p.rows.filter (inGroup g.ts g.dimsKey)
  done : out.2 = .ok () → ∀ g ∈ groups, g.keys ≠ [] → ∃ row, row.key = ⟨g.ts, g.dimsKey, ""⟩ ∧
    (applyAll p out.1).rows.filter (inGroup g.ts g.dimsKey) = [row]

omit [CommMonoid M] hround in
theorem applyAll_append (p : Partition B) (first second : List (Batch B)) :
    applyAll p (first ++ second) = applyAll (applyAll p first) second :=
  foldl_append

theorem compactGroups_compacts (groups : List (GroupRows B)) (hready : ∀ g ∈ groups, Ready p g)
    (hdistinct : groups.Pairwise fun g h => ¬SameGroup g h) :
    Compacts codec p groups (compactGroups codec place ttl groups) := by
  induction groups generalizing p with
  | nil =>
    exact ⟨by simp [compactGroups], trivial, fun _ _ _ => rfl, fun _ => rfl, by simp, by simp⟩
  | cons g rest ih =>
    obtain ⟨facts, hempty, hfold⟩ := compactGroup_folds hround place ttl
      (hready g mem_cons_self)
    obtain ⟨hfirst, hpairs⟩ := pairwise_cons.mp hdistinct
    rw [compactGroups]
    cases hend : (compactGroup codec place ttl g).2 with
    | error e =>
      refine ⟨hfold.short, hfold.keeps, ?_, ?_, ?_, ?_⟩
      · intro ts dimsKey hnone
        exact hfold.others ts dimsKey (hnone g mem_cons_self)
      · intro hquiet
        exact hfold.none (hempty.mp (hquiet g mem_cons_self))
      · intro hok
        cases hok
      · intro hok
        cases hok
    | ok u =>
      set mid := applyAll p (compactGroup codec place ttl g).1 with hmid
      have hrest := @ih mid (fun h hh => ready_congr
        (hfold.others h.ts h.dimsKey (hfirst h hh)) (hready h (mem_cons_of_mem _ hh))) hpairs
      have hsettled : (applyAll mid (compactGroups codec place ttl rest).1).rows.filter
          (inGroup g.ts g.dimsKey) = mid.rows.filter (inGroup g.ts g.dimsKey) :=
        hrest.others g.ts g.dimsKey fun h hh hsame => hfirst h hh ⟨hsame.1.symm, hsame.2.symm⟩
      refine ⟨?_, ?_, ?_, ?_, ?_, ?_⟩
      · intro batch hbatch
        rcases mem_append.mp hbatch with hbatch | hbatch
        · exact hfold.short batch hbatch
        · exact hrest.short batch hbatch
      · exact keepsAnswers_append hfold.keeps hrest.keeps
      · intro ts dimsKey hnone
        rw [applyAll_append, ← hmid, hrest.others ts dimsKey
          fun h hh => hnone h (mem_cons_of_mem _ hh)]
        exact hfold.others ts dimsKey (hnone g mem_cons_self)
      · intro hquiet
        have hone := hfold.none (hempty.mp (hquiet g mem_cons_self))
        have hothers := hrest.quiet fun h hh => hquiet h (mem_cons_of_mem _ hh)
        simp only [hone, hothers, append_nil]
      · intro hok h hh hkeys
        rw [applyAll_append, ← hmid]
        rcases mem_cons.mp hh with rfl | hh
        · rw [hsettled, hmid, hfold.none (hempty.mp hkeys)]
          rfl
        · rw [hrest.idle hok h hh hkeys]
          exact hfold.others h.ts h.dimsKey (hfirst h hh)
      · intro hok h hh hkeys
        rw [applyAll_append, ← hmid]
        rcases mem_cons.mp hh with rfl | hh
        · rw [hsettled]
          exact hfold.done hend (fun hnil => hkeys (hempty.mpr hnil))
        · exact hrest.done hok h hh hkeys

end KnowledgeEngine.CompactionBatches
