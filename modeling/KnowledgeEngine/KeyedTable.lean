import Mathlib.Data.List.Induction
import Mathlib.Data.List.Nodup

/-!
Tables with a primary key: rows in some order, no two with the same key. An update changes
rows in place and keeps their keys, so it acts on the row of every key by itself.

Writes of values under keys into a map, one after the other. When writes to one key have
one value, what the map holds in the end depends only on which writes were made: neither
on their order nor on how often each was made.
-/

namespace KnowledgeEngine.KeyedTable

open List

variable {α κ : Type} {key : α → κ}

structure Table (key : α → κ) where
  rows : List α
  unique : (rows.map key).Nodup

def Table.empty (key : α → κ) : Table key := ⟨[], nodup_nil⟩

/-- The rows changed in place. -/
def Table.update (t : Table key) (f : α → α) (hf : ∀ a, key (f a) = key a) : Table key where
  rows := t.rows.map f
  unique := by
    have hkeys : (t.rows.map f).map key = t.rows.map key := by
      rw [map_map]
      exact map_congr_left fun a _ => hf a
    rw [hkeys]
    exact t.unique

variable [DecidableEq κ]

def Table.lookup (t : Table key) (k : κ) : Option α := t.rows.find? fun a => key a = k

/-- A new row, unless its key is taken. -/
def Table.insert (t : Table key) (a : α) : Option (Table key) :=
  if h : key a ∈ t.rows.map key then none
  else some
    { rows := t.rows ++ [a]
      unique := by
        rw [map_append, map_singleton, nodup_append_comm,
          singleton_append, nodup_cons]
        exact ⟨h, t.unique⟩ }

variable {t : Table key} {a : α}

theorem filter_key_eq {items : List α} (hnodup : (items.map key).Nodup) (ha : a ∈ items) :
    (items.filter fun x => key x = key a) = [a] := by
  induction items with
  | nil => cases ha
  | cons x rest ih =>
    rw [map_cons, nodup_cons] at hnodup
    rcases mem_cons.mp ha with rfl | ha
    · rw [filter_cons_of_pos (by simp)]
      have hrest : (rest.filter fun x => key x = key a) = [] := by
        rw [filter_eq_nil_iff]
        intro y hy heq
        exact hnodup.1 (mem_map.mpr ⟨y, hy, by simpa using heq⟩)
      rw [hrest]
    · have hne : key x ≠ key a := fun heq =>
        hnodup.1 (heq ▸ mem_map_of_mem ha)
      rw [filter_cons_of_neg (by simpa using hne), ih hnodup.2 ha]

theorem lookup_eq_some {k : κ} (h : t.lookup k = some a) : a ∈ t.rows ∧ key a = k :=
  ⟨mem_of_find?_eq_some h, by simpa using List.find?_some h⟩

theorem lookup_of_mem (h : a ∈ t.rows) : t.lookup (key a) = some a := by
  rw [Table.lookup, ← List.head?_filter, filter_key_eq t.unique h, List.head?_cons]

theorem lookup_update (t : Table key) {f : α → α} (hf : ∀ a, key (f a) = key a) (k : κ) :
    (t.update f hf).lookup k = (t.lookup k).map f := by
  rw [Table.lookup, Table.update, List.find?_map, Table.lookup]
  congr 2
  funext a
  exact congrArg (fun x => decide (x = k)) (hf a)

theorem lookup_insert {t' : Table key} (h : t.insert a = some t') (k : κ) :
    t'.lookup k = (t.lookup k).or (if key a = k then some a else none) := by
  unfold Table.insert at h
  split at h <;> cases h
  rw [Table.lookup, List.find?_append, Table.lookup, List.find?_singleton]
  simp only [decide_eq_true_eq]

end KnowledgeEngine.KeyedTable

namespace KnowledgeEngine.KeyedWrites

open List

variable {κ ν : Type*} [DecidableEq κ]

def put (m : κ → Option ν) (w : κ × ν) : κ → Option ν := Function.update m w.1 (some w.2)

def putAll (m : κ → Option ν) (ws : List (κ × ν)) : κ → Option ν := ws.foldl put m

omit [DecidableEq κ] in
/-- Writes to one key have one value. -/
def Consistent (ws : List (κ × ν)) : Prop := ∀ w ∈ ws, ∀ w' ∈ ws, w.1 = w'.1 → w.2 = w'.2

theorem putAll_append (m : κ → Option ν) (ws ws' : List (κ × ν)) :
    putAll m (ws ++ ws') = putAll (putAll m ws) ws' := foldl_append

theorem putAll_of_notMem (m : κ → Option ν) {ws : List (κ × ν)} {k : κ} (h : ∀ w ∈ ws, w.1 ≠ k) :
    putAll m ws k = m k := by
  induction ws generalizing m with
  | nil => rfl
  | cons w ws ih =>
    have hrest := ih (put m w) fun w' hw' => h w' (mem_cons_of_mem w hw')
    rw [putAll, foldl_cons]
    exact hrest.trans (Function.update_of_ne (h w mem_cons_self).symm _ _)

theorem putAll_of_mem {m : κ → Option ν} {ws : List (κ × ν)} (h : Consistent ws) {w : κ × ν}
    (hw : w ∈ ws) : putAll m ws w.1 = some w.2 := by
  induction ws using List.reverseRecOn with
  | nil => exact absurd hw not_mem_nil
  | append_singleton ws last ih =>
    have hlast : last ∈ ws ++ [last] := mem_append_right _ mem_cons_self
    rw [putAll_append]
    change Function.update (putAll m ws) last.1 (some last.2) w.1 = some w.2
    by_cases hkey : w.1 = last.1
    · rw [hkey, Function.update_self, h w hw last hlast hkey]
    · rw [Function.update_of_ne hkey]
      apply ih
      · exact fun a ha b hb => h a (mem_append_left _ ha) b (mem_append_left _ hb)
      · rcases mem_append.mp hw with hw | hw
        · exact hw
        · exact absurd (by rw [mem_singleton.mp hw]) hkey

omit [DecidableEq κ] in
theorem Consistent.of_subset {ws ws' : List (κ × ν)} (h : Consistent ws) (hsub : ws' ⊆ ws) :
    Consistent ws' := fun w hw w' hw' => h w (hsub hw) w' (hsub hw')

/-- Consistent writes with the same members have the same outcome. -/
theorem putAll_congr {m : κ → Option ν} {ws ws' : List (κ × ν)} (h : Consistent ws)
    (hmem : ∀ w, w ∈ ws' ↔ w ∈ ws) : putAll m ws' = putAll m ws := by
  have h' : Consistent ws' := h.of_subset fun w hw => (hmem w).mp hw
  funext k
  by_cases hk : ∃ w ∈ ws, w.1 = k
  · obtain ⟨w, hw, rfl⟩ := hk
    rw [putAll_of_mem h hw, putAll_of_mem h' ((hmem w).mpr hw)]
  · rw [putAll_of_notMem m fun w hw hkey => hk ⟨w, hw, hkey⟩,
      putAll_of_notMem m fun w hw hkey => hk ⟨w, (hmem w).mp hw, hkey⟩]

end KnowledgeEngine.KeyedWrites
