import KnowledgeEngine.Compaction

/-!
Reading a partition for compaction. However its rows are paged, they end up in one
group per time and dimension key, told apart by the text of the group id; a group
holds its per-fact rows in order and the partials of its one compacted row.
-/

namespace KnowledgeEngine.CompactionRead

open Analytics Compaction List

variable {B : Type}

def isFact (ts : ℤ) (dimsKey : String) (row : StoredRow B) : Bool :=
  inGroup ts dimsKey row && row.key.idempotencyKey ≠ ""

def isCompacted (ts : ℤ) (dimsKey : String) (row : StoredRow B) : Bool :=
  inGroup ts dimsKey row && row.key.idempotencyKey = ""

/-- A group holds the scanned rows of its time and dimension key. -/
structure Holds (scanned : List (StoredRow B)) (g : GroupRows B) : Prop where
  keys : g.keys = (scanned.filter (isFact g.ts g.dimsKey)).map (·.key.idempotencyKey)
  facts : g.facts = (scanned.filter (isFact g.ts g.dimsKey)).map StoredRow.partials
  compacted : g.compacted =
    (((scanned.filter (isCompacted g.ts g.dimsKey)).getLast?).map StoredRow.partials).getD ∅

structure Grouped (scanned : List (StoredRow B)) (groups : List (List Char × GroupRows B)) :
    Prop where
  ids : ∀ e ∈ groups, e.1 = groupID e.2.ts e.2.dimsKey
  nodup : (groups.map Prod.fst).Nodup
  holds : ∀ e ∈ groups, Holds scanned e.2
  covers : ∀ row ∈ scanned, groupID row.key.ts row.key.dimsKey ∈ groups.map Prod.fst

variable {scanned : List (StoredRow B)} {ts : ℤ} {dimsKey : String} {row : StoredRow B}
  {g : GroupRows B}

theorem inGroup_iff :
    inGroup ts dimsKey row = true ↔ row.key.ts = ts ∧ row.key.dimsKey = dimsKey := by
  simp [inGroup]

theorem add_group {key : String} {partials : StringMap B} :
    (g.add key partials).ts = g.ts ∧ (g.add key partials).dimsKey = g.dimsKey := by
  unfold GroupRows.add
  split <;> exact ⟨rfl, rfl⟩

theorem holds_add (hgroup : inGroup g.ts g.dimsKey row = true) (h : Holds scanned g) :
    Holds (scanned ++ [row]) (g.add row.key.idempotencyKey row.partials) := by
  unfold GroupRows.add
  by_cases hkey : row.key.idempotencyKey = ""
  · have hfact : isFact g.ts g.dimsKey row = false := by simp [isFact, hkey]
    have hcompacted : isCompacted g.ts g.dimsKey row = true := by simp [isCompacted, hgroup, hkey]
    rw [if_pos hkey]
    constructor
    · simpa [filter_append, hfact] using h.keys
    · simpa [filter_append, hfact] using h.facts
    · simp [filter_append, hcompacted]
  · have hfact : isFact g.ts g.dimsKey row = true := by simp [isFact, hgroup, hkey]
    have hcompacted : isCompacted g.ts g.dimsKey row = false := by simp [isCompacted, hkey]
    rw [if_neg hkey]
    constructor
    · simp [filter_append, hfact, h.keys]
    · simp [filter_append, hfact, h.facts]
    · simpa [filter_append, hcompacted] using h.compacted

theorem holds_skip (hgroup : inGroup g.ts g.dimsKey row = false) (h : Holds scanned g) :
    Holds (scanned ++ [row]) g := by
  have hfact : isFact g.ts g.dimsKey row = false := by simp [isFact, hgroup]
  have hcompacted : isCompacted g.ts g.dimsKey row = false := by simp [isCompacted, hgroup]
  constructor
  · simpa [filter_append, hfact] using h.keys
  · simpa [filter_append, hfact] using h.facts
  · simpa [filter_append, hcompacted] using h.compacted

/-- A group not met before starts empty. -/
theorem holds_new
    (hnew : ∀ r ∈ scanned, groupID r.key.ts r.key.dimsKey ≠ groupID row.key.ts row.key.dimsKey) :
    Holds scanned ⟨row.key.ts, ∅, row.dims, row.key.dimsKey, [], []⟩ := by
  have hnone : ∀ r ∈ scanned, inGroup row.key.ts row.key.dimsKey r = false := by
    intro r hr
    by_contra h
    rw [Bool.not_eq_false, inGroup_iff] at h
    exact hnew r hr (by rw [h.1, h.2])
  have hfact : scanned.filter (isFact row.key.ts row.key.dimsKey) = [] := by
    rw [filter_eq_nil_iff]
    intro r hr
    simp [isFact, hnone r hr]
  have hcompacted : scanned.filter (isCompacted row.key.ts row.key.dimsKey) = [] := by
    rw [filter_eq_nil_iff]
    intro r hr
    simp [isCompacted, hnone r hr]
  constructor
  · rw [hfact]
    rfl
  · rw [hfact]
    rfl
  · rw [hcompacted]
    rfl

variable {groups : List (List Char × GroupRows B)}

theorem grouped_extend (h : Grouped scanned groups)
    (hnew : groupID row.key.ts row.key.dimsKey ∉ groups.map Prod.fst) :
    Grouped scanned (groups ++ [(groupID row.key.ts row.key.dimsKey,
      ⟨row.key.ts, ∅, row.dims, row.key.dimsKey, [], []⟩)]) := by
  constructor
  · intro e he
    rcases mem_append.mp he with he | he
    · exact h.ids e he
    · rw [mem_singleton.mp he]
  · rw [map_append, nodup_append]
    refine ⟨h.nodup, nodup_singleton _, ?_⟩
    intro a ha b hb hab
    rw [hab, mem_singleton.mp hb] at ha
    exact hnew ha
  · intro e he
    rcases mem_append.mp he with he | he
    · exact h.holds e he
    · rw [mem_singleton.mp he]
      exact holds_new fun r hr heq => hnew (heq ▸ h.covers r hr)
  · intro r hr
    rw [map_append]
    exact mem_append_left _ (h.covers r hr)

theorem grouped_update (h : Grouped scanned groups)
    (hmem : groupID row.key.ts row.key.dimsKey ∈ groups.map Prod.fst) :
    Grouped (scanned ++ [row]) (groups.map fun e =>
      if e.1 = groupID row.key.ts row.key.dimsKey then
        (e.1, e.2.add row.key.idempotencyKey row.partials)
      else e) := by
  have hfst : (groups.map fun e =>
      if e.1 = groupID row.key.ts row.key.dimsKey then
        (e.1, e.2.add row.key.idempotencyKey row.partials)
      else e).map Prod.fst = groups.map Prod.fst := by
    rw [map_map]
    apply map_congr_left
    intro e _
    simp only [Function.comp_apply]
    split <;> rfl
  constructor
  · intro e he
    obtain ⟨e', he', rfl⟩ := mem_map.mp he
    split
    · obtain ⟨hts, hkey⟩ := add_group
      rw [hts, hkey]
      exact h.ids e' he'
    · exact h.ids e' he'
  · rw [hfst]
    exact h.nodup
  · intro e he
    obtain ⟨e', he', rfl⟩ := mem_map.mp he
    have hid := h.ids e' he'
    split
    · rename_i hsame
      obtain ⟨hts, hkey⟩ := groupID_inj (hid.symm.trans hsame)
      exact holds_add (inGroup_iff.mpr ⟨hts.symm, hkey.symm⟩) (h.holds e' he')
    · rename_i hother
      apply holds_skip _ (h.holds e' he')
      by_contra hgroup
      rw [Bool.not_eq_false, inGroup_iff] at hgroup
      exact hother (by rw [hid, hgroup.1, hgroup.2])
  · intro r hr
    rw [hfst]
    rcases mem_append.mp hr with hr | hr
    · exact h.covers r hr
    · rw [mem_singleton.mp hr]
      exact hmem

theorem grouped_scanRow (scanned : List (StoredRow B)) (row : StoredRow B)
    (groups : List (List Char × GroupRows B)) (h : Grouped scanned groups) :
    Grouped (scanned ++ [row]) (scanRow groups row) := by
  unfold scanRow
  by_cases hmem : groupID row.key.ts row.key.dimsKey ∈ groups.map Prod.fst
  · simp only [hmem, if_true]
    exact grouped_update h hmem
  · simp only [hmem, if_false]
    apply grouped_update (grouped_extend h hmem)
    simp

theorem grouped_foldl (rows scanned : List (StoredRow B))
    (groups : List (List Char × GroupRows B)) (h : Grouped scanned groups) :
    Grouped (scanned ++ rows) (rows.foldl scanRow groups) := by
  induction rows generalizing scanned groups with
  | nil => simpa using h
  | cons row rest ih =>
    have hstep := ih (scanned ++ [row]) _ (grouped_scanRow scanned row groups h)
    simpa using hstep

/-- However the partition is paged, its rows end up in their groups. -/
theorem readPartition_grouped (pages : List (List (StoredRow B))) :
    ∃ groups, Grouped pages.flatten groups ∧ readPartition pages = groups.map Prod.snd := by
  refine ⟨_, ?_, rfl⟩
  have hstart : Grouped ([] : List (StoredRow B)) [] :=
    ⟨by simp, nodup_nil, by simp, by simp⟩
  have hflat := grouped_foldl pages.flatten [] [] hstart
  rw [foldl_flatten] at hflat
  exact hflat

theorem isFact_iff :
    isFact ts dimsKey row = true ↔
      inGroup ts dimsKey row = true ∧ row.key.idempotencyKey ≠ "" := by
  simp [isFact]

theorem isCompacted_iff : isCompacted ts dimsKey row = true ↔ row.key = ⟨ts, dimsKey, ""⟩ := by
  obtain ⟨⟨rowTs, rowDims, rowKey⟩, _, _⟩ := row
  simp [isCompacted, inGroup, and_assoc]

/-- A clustering key occurs once, so a group has at most one compacted row. -/
theorem compacted_unique {rows : List (StoredRow B)} (hnodup : (rows.map StoredRow.key).Nodup) :
    rows.filter (isCompacted ts dimsKey) = [] ∨
      ∃ row, rows.filter (isCompacted ts dimsKey) = [row] ∧ row.key = ⟨ts, dimsKey, ""⟩ := by
  have hsub : ((rows.filter (isCompacted ts dimsKey)).map StoredRow.key).Nodup :=
    hnodup.sublist (filter_sublist.map _)
  have hkey : ∀ row ∈ rows.filter (isCompacted ts dimsKey), row.key = ⟨ts, dimsKey, ""⟩ :=
    fun row hrow => isCompacted_iff.mp (mem_filter.mp hrow).2
  cases hrows : rows.filter (isCompacted ts dimsKey) with
  | nil => exact Or.inl rfl
  | cons first others =>
    rw [hrows] at hsub hkey
    cases others with
    | nil => exact Or.inr ⟨first, rfl, hkey first mem_cons_self⟩
    | cons second tail =>
      have hfirst := hkey first mem_cons_self
      have hsecond := hkey second (mem_cons_of_mem _ mem_cons_self)
      simp [hfirst, hsecond] at hsub

def SameGroup (g h : GroupRows B) : Prop := g.ts = h.ts ∧ g.dimsKey = h.dimsKey

theorem grouped_distinct (h : Grouped scanned groups) :
    (groups.map Prod.snd).Pairwise fun g k => ¬SameGroup g k := by
  have hpairs := pairwise_map.mp h.nodup
  rw [pairwise_map]
  refine hpairs.imp_of_mem ?_
  intro a b ha hb hne hsame
  apply hne
  rw [h.ids a ha, h.ids b hb, hsame.1, hsame.2]

variable {pages : List (List (StoredRow B))}

/-- Every row belongs to a group that was read, and the group knows its key. -/
theorem readPartition_covers {p : Partition B} (hpages : pages.flatten = p.scan)
    (hrow : row ∈ p.rows) :
    ∃ g ∈ readPartition pages, g.ts = row.key.ts ∧ g.dimsKey = row.key.dimsKey ∧
      (row.key.idempotencyKey ≠ "" → g.keys ≠ []) := by
  obtain ⟨groups, hgrouped, hread⟩ := readPartition_grouped pages
  have hscan : row ∈ pages.flatten := hpages ▸ p.scan_perm.mem_iff.mpr hrow
  obtain ⟨e, he, hid⟩ := mem_map.mp (hgrouped.covers row hscan)
  obtain ⟨hts, hdims⟩ := groupID_inj ((hgrouped.ids e he).symm.trans hid)
  refine ⟨e.2, hread ▸ mem_map_of_mem he, hts, hdims, ?_⟩
  intro hkey hnil
  have hfact : row ∈ pages.flatten.filter (isFact e.2.ts e.2.dimsKey) :=
    mem_filter.mpr ⟨hscan, isFact_iff.mpr ⟨inGroup_iff.mpr ⟨hts.symm, hdims.symm⟩, hkey⟩⟩
  rw [(hgrouped.holds e he).keys, map_eq_nil_iff] at hnil
  rw [hnil] at hfact
  exact absurd hfact not_mem_nil

theorem readPartition_keys (hg : g ∈ readPartition pages) (hkeys : g.keys ≠ []) :
    ∃ row ∈ pages.flatten, row.key.idempotencyKey ≠ "" := by
  obtain ⟨groups, hgrouped, hread⟩ := readPartition_grouped pages
  rw [hread] at hg
  obtain ⟨e, he, rfl⟩ := mem_map.mp hg
  rw [(hgrouped.holds e he).keys, Ne, map_eq_nil_iff] at hkeys
  obtain ⟨row, hrow⟩ := exists_mem_of_ne_nil _ hkeys
  obtain ⟨hmem, hfact⟩ := mem_filter.mp hrow
  exact ⟨row, hmem, (isFact_iff.mp hfact).2⟩

end KnowledgeEngine.CompactionRead
