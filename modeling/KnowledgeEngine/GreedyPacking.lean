import Mathlib.Data.List.Chain

/-!
Packing items in order into groups of bounded size, a group being closed when the next
item does not fit. An item that alone exceeds the bound makes a group of its own. The
rules follow the packing item by item; at the end the groups cover the items, respect the
bound and leave no room for the item after them.
-/

namespace KnowledgeEngine.GreedyPacking

variable {α : Type*} (size : List α → ℕ) (limit : ℤ)

/-- The group has no room for the first item of the next one. -/
def Tight (g h : List α) : Prop := ∀ a ∈ h.head?, limit < size (g ++ [a])

structure Packed (items : List α) (groups : List (List α)) : Prop where
  cover : groups.flatten = items
  nonempty : ∀ g ∈ groups, g ≠ []
  bounded : ∀ g ∈ groups, size g ≤ limit ∨ ∃ a, g = [a]
  tight : groups.IsChain (Tight size limit)

/-- The items so far are in closed groups and in the group being packed. When that one is
empty, the last group has no room for any item. -/
structure Packing (items : List α) (groups : List (List α)) (buffer : List α) : Prop where
  packed : Packed size limit groups.flatten groups
  cover : groups.flatten ++ buffer = items
  fits : buffer ≠ [] → size buffer ≤ limit
  last : ∀ g ∈ groups.getLast?, ∀ a, buffer.head?.getD a = a → limit < size (g ++ [a])

variable {size limit} {items : List α} {groups : List (List α)} {buffer : List α} {a : α}

theorem Packed.concat (h : Packed size limit groups.flatten groups) (g : List α) (hg : g ≠ [])
    (hbounded : size g ≤ limit ∨ ∃ a, g = [a])
    (htight : ∀ g' ∈ groups.getLast?, Tight size limit g' g) :
    Packed size limit (groups ++ [g]).flatten (groups ++ [g]) where
  cover := rfl
  nonempty := List.forall_mem_append.mpr ⟨h.nonempty, by simpa using hg⟩
  bounded := List.forall_mem_append.mpr ⟨h.bounded, by simpa using hbounded⟩
  tight := List.isChain_append.mpr ⟨h.tight, .singleton g, by simpa using htight⟩

theorem Packing.start : Packing size limit [] [] [] :=
  ⟨⟨rfl, nofun, nofun, .nil⟩, rfl, fun h => absurd rfl h, nofun⟩

theorem Packing.finish (h : Packing size limit items groups []) :
    Packed size limit items groups := by
  rw [← h.cover, List.append_nil]
  exact h.packed

/-- An item that alone exceeds the bound makes a group of its own. -/
theorem Packed.alone (hmono : ∀ g b, size g ≤ size (g ++ [b]))
    (h : Packed size limit items groups) (hlarge : limit < size [a])
    (htight : ∀ g ∈ groups.getLast?, limit < size (g ++ [a])) :
    Packing size limit (items ++ [a]) (groups ++ [[a]]) [] where
  packed := by
    rw [← h.cover] at h
    refine h.concat [a] (List.cons_ne_nil _ _) (.inr ⟨a, rfl⟩) fun g hg b hb => ?_
    rw [List.head?_cons, Option.mem_some_iff] at hb
    exact hb ▸ htight g hg
  cover := by rw [List.flatten_append, List.flatten_singleton, h.cover, List.append_nil]
  fits := fun h => absurd rfl h
  last := by
    rintro g hg b -
    rw [List.getLast?_concat, Option.mem_some_iff] at hg
    have hle := hmono g b
    rw [← hg] at hle ⊢
    omega

variable (h : Packing size limit items groups buffer)
include h

theorem Packing.tight_buffer : ∀ g ∈ groups.getLast?, Tight size limit g buffer := by
  intro g hg a ha
  rw [Option.mem_def] at ha
  exact h.last g hg a (by rw [ha, Option.getD_some])

/-- The next item fits. -/
theorem Packing.add (hfits : size (buffer ++ [a]) ≤ limit) :
    Packing size limit (items ++ [a]) groups (buffer ++ [a]) where
  packed := h.packed
  cover := by rw [← h.cover, List.append_assoc]
  fits := fun _ => hfits
  last := by
    intro g hg b hb
    cases buffer with
    | nil => exact h.last g hg b rfl
    | cons c rest => exact h.last g hg b (by simpa using hb)

theorem Packing.close (hne : buffer ≠ []) : Packed size limit items (groups ++ [buffer]) := by
  have hpacked := h.packed.concat buffer hne (.inl (h.fits hne)) h.tight_buffer
  rwa [List.flatten_append, List.flatten_singleton, h.cover] at hpacked

/-- The next item does not fit, and the packing goes on with it. -/
theorem Packing.next (hne : buffer ≠ []) (hfull : limit < size (buffer ++ [a]))
    (hfits : size [a] ≤ limit) :
    Packing size limit (items ++ [a]) (groups ++ [buffer]) [a] where
  packed := h.packed.concat buffer hne (.inl (h.fits hne)) h.tight_buffer
  cover := by rw [List.flatten_append, List.flatten_singleton, h.cover]
  fits := fun _ => hfits
  last := by
    intro g hg b hb
    rw [List.getLast?_concat, Option.mem_some_iff] at hg
    rw [List.head?_cons, Option.getD_some] at hb
    rw [← hg, ← hb]
    exact hfull

end KnowledgeEngine.GreedyPacking
