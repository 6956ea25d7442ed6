import KnowledgeEngine.CredentialFile

/-!
What a Put of the credential file leaves behind: the lines of the updated file, and
which values the next Get returns as they were put. An update replaces every line that
sets the key and keeps every other line, so a value survives exactly if the reader of a
line takes nothing from it.
-/

namespace KnowledgeEngine.CredentialReadback

open ByteText CredentialFile

section Update

variable (data k v : Bytes) {l : Bytes}

/-- The two lines an update writes for a key. -/
theorem replaceLine_cases :
    (valueOf k l = none ∧ replaceLine k (k ++ equals :: v) l = l) ∨
      ((valueOf k l).isSome ∧ (replaceLine k (k ++ equals :: v) l = k ++ equals :: v ∨
        replaceLine k (k ++ equals :: v) l = exportWord ++ (k ++ equals :: v))) := by
  cases hvalue : valueOf k l with
  | none => exact Or.inl ⟨rfl, by rw [replaceLine, hvalue]; rfl⟩
  | some value =>
    refine Or.inr ⟨rfl, ?_⟩
    simp only [replaceLine, hvalue, Option.isSome_some, if_true]
    split
    · exact Or.inr rfl
    · exact Or.inl rfl

theorem mem_dropBlank {lines : List Bytes} (h : l ∈ dropBlank lines) : l ∈ lines := by
  cases lines with
  | nil => exact h
  | cons first rest =>
    rw [dropBlank] at h
    split at h
    · exact List.mem_cons_of_mem first h
    · exact h

/-- A line of the update is a line of the file that does not set the key, or a new one. -/
theorem updatedLines_cases (h : l ∈ updatedLines data k v) :
    (l ∈ (data.rdropWhile (· == newline)).splitOn newline ∧ valueOf k l = none) ∨
      l = k ++ equals :: v ∨ l = exportWord ++ (k ++ equals :: v) := by
  have hmem := mem_dropBlank h
  have hmap : l ∈ ((data.rdropWhile (· == newline)).splitOn newline).map
      (replaceLine k (k ++ equals :: v)) ∨ l = k ++ equals :: v := by
    split at hmem
    · exact Or.inl hmem
    · simpa using hmem
  rcases hmap with hmap | hnew
  · obtain ⟨old, hold, rfl⟩ := List.mem_map.mp hmap
    rcases replaceLine_cases k v with ⟨hnone, hsame⟩ | ⟨-, hnew⟩
    · rw [hsame]
      exact Or.inl ⟨hold, hnone⟩
    · exact Or.inr hnew
  · exact Or.inr (Or.inl hnew)

theorem findSome_dropBlank (key : Bytes) (lines : List Bytes) :
    (dropBlank lines).findSome? (valueOf key) = lines.findSome? (valueOf key) := by
  cases lines with
  | nil => rfl
  | cons first rest =>
    rw [dropBlank]
    split
    · next hblank => rw [List.findSome?_cons, valueOf_blank hblank]
    · rfl

/-- Newlines at the end of a file set no key. -/
theorem lookup_rdropWhile (key : Bytes) :
    lookup data key =
      ((data.rdropWhile (· == newline)).splitOn newline).findSome? (valueOf key) := by
  obtain ⟨n, hsplit⟩ := splitOn_rdropWhile newline
  have hempty : (List.replicate n ([] : Bytes)).findSome? (valueOf key) = none := by
    rw [List.findSome?_eq_none_iff]
    intro l hl
    rw [List.eq_of_mem_replicate hl]
    exact valueOf_blank (by decide)
  rw [lookup, hsplit, List.findSome?_append, hempty, Option.or_none]

variable (hk : Name k) {key : Bytes}

theorem valueOf_of_splitKV {line value : Bytes} (h : splitKV line = some (k, value))
    (hne : key ≠ k) :
    valueOf key line = none := by
  rw [valueOf, h, Option.bind_some, if_neg hne.symm]

include hk in
/-- Some line of the update sets the key. -/
theorem updatedLines_own (hv : Plain v) :
    ∃ l ∈ updatedLines data k v, (valueOf k l).isSome := by
  have hline := (valueOf_eq_some k _ v).mpr (splitKV_line k v hk hv)
  have hexport := (valueOf_eq_some k _ v).mpr (splitKV_export k v hk hv)
  rw [← List.findSome?_isSome_iff, updatedLines, findSome_dropBlank, List.findSome?_isSome_iff]
  split
  · next hreplaced =>
    obtain ⟨l, hl, hvalue⟩ := List.any_eq_true.mp hreplaced
    refine ⟨_, List.mem_map_of_mem hl, ?_⟩
    rcases replaceLine_cases k v with ⟨hnone, -⟩ | ⟨-, hnew | hnew⟩
    · rw [hnone] at hvalue
      cases hvalue
    · rw [hnew, hline, Option.isSome_some]
    · rw [hnew, hexport, Option.isSome_some]
  · exact ⟨k ++ equals :: v, by simp, by rw [hline, Option.isSome_some]⟩

include hk in
theorem find_own (hv : Plain v) :
    (updatedLines data k v).findSome? (valueOf k) = some v := by
  have hline := (valueOf_eq_some k _ v).mpr (splitKV_line k v hk hv)
  have hexport := (valueOf_eq_some k _ v).mpr (splitKV_export k v hk hv)
  obtain ⟨w, hfound⟩ := Option.isSome_iff_exists.mp
    (List.findSome?_isSome_iff.mpr (updatedLines_own data k v hk hv))
  obtain ⟨l, hl, hvalue⟩ := List.exists_of_findSome?_eq_some hfound
  rcases updatedLines_cases data k v hl with ⟨-, hnone⟩ | rfl | rfl
  · rw [hnone] at hvalue
    cases hvalue
  · rw [hfound, ← hvalue, hline]
  · rw [hfound, ← hvalue, hexport]

include hk in
theorem find_other (hv : Plain v) (hne : key ≠ k) :
    (updatedLines data k v).findSome? (valueOf key) = lookup data key := by
  have hline : valueOf key (k ++ equals :: v) = none :=
    valueOf_of_splitKV k (splitKV_line k v hk hv) hne
  have hexport : valueOf key (exportWord ++ (k ++ equals :: v)) = none :=
    valueOf_of_splitKV k (splitKV_export k v hk hv) hne
  have hsame : valueOf key ∘ replaceLine k (k ++ equals :: v) = valueOf key := by
    funext l
    rw [Function.comp_apply]
    rcases replaceLine_cases k v with ⟨-, hsame⟩ | ⟨hsome, hnew⟩
    · rw [hsame]
    · obtain ⟨w, hw⟩ := Option.isSome_iff_exists.mp hsome
      rw [valueOf_of_splitKV k ((valueOf_eq_some k l w).mp hw) hne]
      rcases hnew with hnew | hnew <;> rw [hnew]
      · exact hline
      · exact hexport
  rw [lookup_rdropWhile, updatedLines, findSome_dropBlank]
  split
  · rw [List.findSome?_map, hsame]
  · rw [List.findSome?_append, List.findSome?_map, hsame, List.findSome?_singleton, hline,
      Option.or_none]

include hk in
theorem updatedLines_oneLine (hv : newline ∉ v) (l : Bytes) (h : l ∈ updatedLines data k v) :
    newline ∉ l := by
  have hkey : newline ∉ k := fun hmem => (word_byte (name_bytes hk hmem)).2.2.1 rfl
  have hline : newline ∉ k ++ equals :: v := by
    simp only [List.mem_append, List.mem_cons, not_or]
    exact ⟨hkey, by decide, hv⟩
  rcases updatedLines_cases data k v h with ⟨hold, -⟩ | rfl | rfl
  · exact not_mem_splitOn newline _ l hold
  · exact hline
  · intro hmem
    rcases List.mem_append.mp hmem with hmem | hmem
    · revert hmem
      decide
    · exact hline hmem

include hk in
/-- The lines of the written file are the updated lines and the empty one at its end. -/
theorem lookup_upsert (hv : newline ∉ v) (hne : updatedLines data k v ≠ []) :
    lookup (upsert data k v) key = (updatedLines data k v).findSome? (valueOf key) := by
  have hparts : upsert data k v = [newline].intercalate (updatedLines data k v) ++ newline :: [] :=
    rfl
  rw [lookup, hparts, List.splitOn_append_cons_self,
    List.splitOn_intercalate newline (updatedLines_oneLine data k v hk hv) hne,
    List.splitOn_nil, List.findSome?_append, List.findSome?_singleton,
    valueOf_blank (by decide), Option.or_none]

include hk in
theorem plain_readback (hv : Plain v) :
    lookup (upsert data k v) k = some v ∧
      ∀ key, Name key → key ≠ k → lookup (upsert data k v) key = lookup data key := by
  have hne : updatedLines data k v ≠ [] := by
    obtain ⟨l, hl, -⟩ := updatedLines_own data k v hk hv
    exact List.ne_nil_of_mem hl
  refine ⟨?_, fun key _ hkey => ?_⟩
  · rw [lookup_upsert data k v hk hv.oneLine hne, find_own data k v hk hv]
  · rw [lookup_upsert data k v hk hv.oneLine hne, find_other data k v hk hv hkey]

include hk in
theorem plain_of_lookup (h : lookup (upsert data k v) k = some v) : Plain v := by
  have hequals := equals_not_mem k hk
  obtain ⟨l, hl, hvalue⟩ := List.exists_of_findSome?_eq_some h
  have hline : newline ∉ v := fun hmem =>
    not_mem_splitOn newline _ l hl ((valueOf_within hvalue).subset hmem)
  cases hlines : updatedLines data k v with
  | nil =>
    have hempty : upsert data k v = [newline] := by rw [upsert, hlines]; rfl
    have hblank : valueOf k [] = none := valueOf_blank (by decide)
    have hnone : lookup [newline] k = none := by
      rw [lookup, List.findSome?_eq_none_iff]
      intro l hl
      obtain rfl : l = [] := by simpa [List.splitOn_cons_eq_if_modifyHead] using hl
      exact hblank
    rw [hempty, hnone] at h
    cases h
  | cons first rest =>
    rw [lookup_upsert data k v hk hline (by simp [hlines])] at h
    obtain ⟨l, hl, hvalue⟩ := List.exists_of_findSome?_eq_some h
    rcases updatedLines_cases data k v hl with ⟨-, hnone⟩ | rfl | rfl
    · rw [hnone] at hvalue
      cases hvalue
    · exact plain_of_readback k v k hequals hline hvalue
    · rw [← List.append_assoc] at hvalue
      refine plain_of_readback (exportWord ++ k) v k ?_ hline hvalue
      intro hmem
      rcases List.mem_append.mp hmem with hmem | hmem
      · revert hmem
        decide
      · exact hequals hmem

end Update

/-- Updating a key with a value reads back as it was put, with every other key untouched,
exactly for the plain values. -/
theorem readback_iff (data k v : Bytes) (hk : Name k) :
    (lookup (upsert data k v) k = some v ∧
      ∀ key, Name key → key ≠ k → lookup (upsert data k v) key = lookup data key) ↔ Plain v :=
  ⟨fun h => plain_of_lookup data k v hk h.1, plain_readback data k v hk⟩

/-- The value `p=#q` of the key `K`, in a file with an exported old value. -/
theorem readback_example :
    (lookup (upsert (exportWord ++ [0x4B, 0x3D, 0x31]) [0x4B] [0x70, 0x3D, 0x23, 0x71]) [0x4B] =
        some [0x70, 0x3D, 0x23, 0x71] ∧
      ∀ key, Name key → key ≠ [0x4B] →
        lookup (upsert (exportWord ++ [0x4B, 0x3D, 0x31]) [0x4B] [0x70, 0x3D, 0x23, 0x71]) key =
          lookup (exportWord ++ [0x4B, 0x3D, 0x31]) key) :=
  (readback_iff _ [0x4B] [0x70, 0x3D, 0x23, 0x71] ⟨rfl, by simp⟩).mpr
    ⟨by decide, by decide, by
      intro q hq inner hinner
      simp at hq
      rcases hq with rfl | rfl <;> simp at hinner⟩

/-- A value of two quotes and a letter between them loses its quotes. -/
theorem quoted_value_changes :
    Name [0x4B] ∧ lookup (upsert [] [0x4B] [0x22, 0x61, 0x22]) [0x4B] = some [0x61] ∧
      lookup (upsert [] [0x4B] [0x20, 0x61]) [0x4B] = some [0x61] ∧
      lookup (upsert [] [0x4B] [0x61, 0x0A, 0x4C, 0x3D, 0x62]) [0x4B] = some [0x61] ∧
      lookup (upsert [] [0x4B] [0x61, 0x0A, 0x4C, 0x3D, 0x62]) [0x4C] = some [0x62] ∧
      lookup [] [0x4C] = none := by
  refine ⟨⟨rfl, by simp⟩, ?_⟩
  decide

section Source

variable (quote : Bytes → String) (locs : Ref → Option Location) (answers : Answers)
  (files : Bytes → File) (ref : Ref)

/-- Put looks at no value: what it answers for one it answers for all. -/
theorem put_accepts (v w : Bytes) :
    (Put quote locs answers files ref v).1 = (Put quote locs answers files ref w).1 := by
  unfold Put
  cases locs ref with
  | none => rfl
  | some loc =>
    simp only
    split_ifs
    · rfl
    · rfl
    · cases files loc.Path <;> simp only [writeFile] <;> split_ifs <;> rfl

variable {files' : Bytes → File}

theorem writeFile_ok {path data : Bytes}
    (h : writeFile answers files path data = (.ok (), files')) :
    files' = Function.update files path (.holds data) := by
  rw [writeFile] at h
  split_ifs at h with hwritten
  · exact (Prod.mk.inj h).2.symm
  · cases (Prod.mk.inj h).1

/-- A successful Put writes the updated file and leaves the others. -/
theorem put_ok {loc : Location} {v : Bytes} (hloc : locs ref = some loc)
    (h : Put quote locs answers files ref v = (.ok (), files')) :
    ∃ data, files' = Function.update files loc.Path (.holds (upsert data loc.Key v)) := by
  simp only [Put, hloc] at h
  split_ifs at h
  · cases (Prod.mk.inj h).1
  · cases (Prod.mk.inj h).1
  · cases hfile : files loc.Path with
    | unreadable =>
      rw [hfile] at h
      cases (Prod.mk.inj h).1
    | missing =>
      rw [hfile] at h
      exact ⟨[], writeFile_ok answers files h⟩
    | holds data =>
      rw [hfile] at h
      exact ⟨data, writeFile_ok answers files h⟩

/-- Get after a successful Put returns the value exactly if it is plain. -/
theorem get_put_iff {loc : Location} {v : Bytes} (hloc : locs ref = some loc) (hk : Name loc.Key)
    (hv : v ≠ []) (h : Put quote locs answers files ref v = (.ok (), files')) :
    Get quote locs files' ref = .ok v ↔ Plain v := by
  obtain ⟨data, rfl⟩ := put_ok quote locs answers files ref hloc h
  simp only [Get, hloc, Function.update_self]
  constructor
  · intro hget
    apply plain_of_lookup data loc.Key v hk
    split at hget
    · cases hget
    · cases hget
    · next value hvalue => rw [hvalue, Except.ok.inj hget]
  · intro hplain
    rw [(plain_readback data loc.Key v hk hplain).1]
    cases v with
    | nil => exact absurd rfl hv
    | cons first rest => rfl

end Source

end KnowledgeEngine.CredentialReadback
