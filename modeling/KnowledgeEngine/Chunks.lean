import Mathlib.Data.List.Nodup

/-!
A list cut into chunks of a given size, and writes into the slots of a list. The chunks
hold the list's items once each and in order, so writers of different chunks never write
the same slot.
-/

namespace KnowledgeEngine.Chunks

open List

variable {α β : Type*}

/-- The slices [start, start + size) for start = 0, size, 2 size and so on; the fuel bounds
the number of slices. -/
def slices (size : ℕ) : ℕ → List α → List (List α)
  | 0, _ => []
  | _ + 1, [] => []
  | fuel + 1, a :: rest =>
    (a :: rest).take size :: slices size fuel ((a :: rest).drop size)

def chunks (size : ℕ) (items : List α) : List (List α) := slices size items.length items

variable {items : List α}

theorem slices_flatten {size fuel : ℕ} (hsize : 0 < size) (hfuel : items.length ≤ fuel) :
    (slices size fuel items).flatten = items := by
  induction fuel generalizing items with
  | zero => rw [length_eq_zero_iff.mp (Nat.le_zero.mp hfuel), slices, flatten_nil]
  | succ fuel ih =>
    cases items with
    | nil => rfl
    | cons a rest =>
      rw [slices, flatten_cons, ih, take_append_drop]
      simp only [length_drop, length_cons] at hfuel ⊢
      omega

theorem mem_slices (size fuel : ℕ) (hsize : 0 < size) (items chunk : List α)
    (h : chunk ∈ slices size fuel items) : chunk ≠ [] ∧ chunk.length ≤ size := by
  induction fuel generalizing items with
  | zero => cases h
  | succ fuel ih =>
    cases items with
    | nil => cases h
    | cons a rest =>
      rw [slices, mem_cons] at h
      rcases h with rfl | h
      · refine ⟨?_, length_take_le size (a :: rest)⟩
        rw [← length_pos_iff, length_take, length_cons]
        omega
      · exact ih _ h

theorem slices_fuel (size fuel : ℕ) (hsize : 0 < size) (items : List α)
    (hfuel : items.length ≤ fuel) : slices size fuel items = chunks size items := by
  induction fuel using Nat.strongRecOn generalizing items with
  | ind fuel ih =>
    cases items with
    | nil => cases fuel <;> rfl
    | cons a rest =>
      cases fuel with
      | zero => simp at hfuel
      | succ fuel =>
        have hdrop : ((a :: rest).drop size).length ≤ rest.length := by
          rw [length_drop, length_cons]
          omega
        rw [length_cons] at hfuel
        rw [chunks, length_cons, slices, slices,
          ih fuel (Nat.lt_succ_self fuel) _ (by omega)]
        by_cases hlast : rest.length < fuel + 1
        · rw [ih rest.length hlast _ hdrop]
        · omega

/-- The first chunk and the chunks of what is left. -/
theorem chunks_eq (size : ℕ) (hsize : 0 < size) (items : List α) (hne : items ≠ []) :
    chunks size items = items.take size :: chunks size (items.drop size) := by
  cases items with
  | nil => exact absurd rfl hne
  | cons a rest =>
    rw [chunks, length_cons, slices, slices_fuel size rest.length hsize]
    rw [length_drop, length_cons]
    omega

/-- Induction along the chunks of a list. -/
theorem chunks_induction {motive : List α → Prop} (size : ℕ) (hsize : 0 < size)
    (nil : motive []) (step : ∀ items, items ≠ [] → motive (items.drop size) → motive items)
    (items : List α) : motive items := by
  induction hlength : items.length using Nat.strongRecOn generalizing items with
  | ind length ih =>
    by_cases hne : items = []
    · exact hne ▸ nil
    · have hpos := length_pos_iff.mpr hne
      refine step items hne (ih (items.drop size).length ?_ _ rfl)
      rw [length_drop]
      omega

theorem chunks_length_le_iff {size : ℕ} (hsize : 0 < size) {m : ℕ} :
    (chunks size items).length ≤ m ↔ items.length ≤ m * size := by
  induction m generalizing items with
  | zero =>
    cases items with
    | nil => simp [chunks, slices]
    | cons a rest => simp [chunks_eq size hsize (a :: rest) (by simp)]
  | succ m ih =>
    cases items with
    | nil => simp [chunks, slices]
    | cons a rest =>
      rw [chunks_eq size hsize (a :: rest) (by simp), length_cons, Nat.succ_le_succ_iff, ih,
        length_drop, Nat.succ_mul]
      omega

theorem chunks_flatten (size : ℕ) (hsize : 0 < size) (items : List α) :
    (chunks size items).flatten = items :=
  slices_flatten hsize (Nat.le_refl _)

theorem mem_chunks (size : ℕ) (hsize : 0 < size) (items chunk : List α)
    (h : chunk ∈ chunks size items) : chunk ≠ [] ∧ chunk.length ≤ size :=
  mem_slices size items.length hsize items chunk h

/-- An item of a chunk is an item of the list. -/
theorem mem_of_mem_chunk (size : ℕ) (hsize : 0 < size) (items chunk : List α)
    (h : chunk ∈ chunks size items) (a : α) (ha : a ∈ chunk) : a ∈ items := by
  rw [← chunks_flatten size hsize items]
  exact mem_flatten_of_mem h ha

variable {i : ℕ} {a : α}

/-- Writing a slot leaves what stands before and after it. -/
theorem set_split (h : items[i]? = some a) :
    ∃ before after, items = before ++ a :: after ∧
      ∀ b, items.set i b = before ++ b :: after := by
  obtain ⟨hi, rfl⟩ := List.getElem?_eq_some_iff.mp h
  refine ⟨items.take i, items.drop (i + 1), ?_, fun b => ?_⟩
  · rw [← drop_eq_getElem_cons hi, take_append_drop]
  · exact set_eq_take_append_cons_drop.trans (if_pos hi)

/-- Writing a slot trades what the old item gave for what the new one gives. -/
theorem count_flatMap_set [BEq β] (h : items[i]? = some a) (b : α) (f : α → List β) (x : β) :
    ((items.set i b).flatMap f).count x + (f a).count x =
      (items.flatMap f).count x + (f b).count x := by
  obtain ⟨before, after, hitems, hset⟩ := set_split h
  rw [hset, hitems]
  simp only [flatMap_append, flatMap_cons, count_append]
  omega

theorem flatMap_set_eq (h : items[i]? = some a) (b : α) (f : α → List β) (hf : f b = f a) :
    (items.set i b).flatMap f = items.flatMap f := by
  obtain ⟨before, after, hitems, hset⟩ := set_split h
  rw [hset, hitems, flatMap_append, flatMap_append, flatMap_cons,
    flatMap_cons, hf]

/-- The writes one after the other, each to a slot. -/
def writeAll (writes : List (ℕ × β)) (slots : List β) : List β :=
  writes.foldl (fun slots write => slots.set write.1 write.2) slots

@[simp]
theorem writeAll_nil (slots : List β) : writeAll [] slots = slots := rfl

theorem writeAll_length (writes : List (ℕ × β)) (slots : List β) :
    (writeAll writes slots).length = slots.length := by
  induction writes generalizing slots with
  | nil => rfl
  | cons write rest ih => rw [writeAll, foldl_cons, ← writeAll, ih, length_set]

/-- A slot nobody writes keeps its value. -/
theorem writeAll_other {writes : List (ℕ × β)} (slots : List β) (h : i ∉ writes.map Prod.fst) :
    (writeAll writes slots)[i]? = slots[i]? := by
  induction writes generalizing slots with
  | nil => rfl
  | cons write rest ih =>
    rw [map_cons, mem_cons, not_or] at h
    rw [writeAll, foldl_cons, ← writeAll, ih _ h.2,
      List.getElem?_set_ne (Ne.symm h.1)]

/-- A written slot holds one of the values written to it. -/
theorem writeAll_mem (writes : List (ℕ × β)) (slots : List β) (i : ℕ)
    (h : i ∈ writes.map Prod.fst) (hi : i < slots.length) :
    ∃ b, (i, b) ∈ writes ∧ (writeAll writes slots)[i]? = some b := by
  induction writes generalizing slots with
  | nil => cases h
  | cons write rest ih =>
    rw [writeAll, foldl_cons, ← writeAll]
    by_cases hrest : i ∈ rest.map Prod.fst
    · obtain ⟨b, hb, hvalue⟩ := ih (slots.set write.1 write.2) hrest (by rwa [length_set])
      exact ⟨b, mem_cons_of_mem write hb, hvalue⟩
    · obtain rfl : i = write.1 := by simpa [hrest] using h
      refine ⟨write.2, mem_cons_self, ?_⟩
      rw [writeAll_other _ hrest, List.getElem?_set_self hi]

/-- A slot written once holds what was written. -/
theorem writeAll_written {writes : List (ℕ × β)} {slots : List β} {b : β}
    (hnodup : (writes.map Prod.fst).Nodup) (h : (i, b) ∈ writes) (hi : i < slots.length) :
    (writeAll writes slots)[i]? = some b := by
  obtain ⟨c, hc, hvalue⟩ := writeAll_mem writes slots i (mem_map_of_mem h) hi
  have hsame := inj_on_of_nodup_map hnodup h hc rfl
  rw [hvalue, (Prod.mk.inj hsame).2]

end KnowledgeEngine.Chunks
