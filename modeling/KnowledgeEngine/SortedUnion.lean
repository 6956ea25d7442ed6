import Mathlib.Data.Finset.Sort

/-!
The sorted distinct union of finitely many strictly increasing lists, and why a
window of it can be computed from truncated lists. An element of rank below n in
the union has rank below n in each list that holds it, so truncating every list
to its first n elements changes nothing in the first n elements of the union.
-/

namespace KnowledgeEngine.SortedUnion

open List

variable {α : Type*} [LinearOrder α]

def distinctUnion (columns : List (List α)) : List α := columns.flatten.toFinset.sort

theorem distinctUnion_sortedLT (columns : List (List α)) : (distinctUnion columns).SortedLT :=
  Finset.sortedLT_sort _

theorem mem_distinctUnion {columns : List (List α)} {x : α} :
    x ∈ distinctUnion columns ↔ ∃ c ∈ columns, x ∈ c := by
  simp [distinctUnion]

/-- A strictly increasing list is determined by its members. -/
theorem eq_distinctUnion (columns : List (List α)) (l : List α) (hsorted : l.SortedLT)
    (hmem : ∀ x, x ∈ l ↔ ∃ c ∈ columns, x ∈ c) : l = distinctUnion columns := by
  have hunion := distinctUnion_sortedLT columns
  apply List.Perm.eq_of_sortedLE hsorted.sortedLE hunion.sortedLE
  rw [perm_ext_iff_of_nodup hsorted.nodup hunion.nodup]
  intro x
  rw [hmem, mem_distinctUnion]

/-- Ranks only grow when a strictly increasing list is embedded in a larger one. -/
theorem mem_take_of_subset (n : ℕ) (big small : List α) (hbig : big.SortedLT)
    (hsmall : small.SortedLT) (hsub : small ⊆ big) (x : α)
    (hx : x ∈ big.take n) (hmem : x ∈ small) : x ∈ small.take n := by
  induction n generalizing big small with
  | zero => simp at hx
  | succ n ih =>
    cases small with
    | nil => simp at hmem
    | cons a small =>
      cases big with
      | nil => simp at hx
      | cons b big =>
        have hb := (pairwise_cons.mp hbig.pairwise).1
        have ha := (pairwise_cons.mp hsmall.pairwise).1
        rw [take_succ_cons, mem_cons]
        rcases mem_cons.mp hmem with rfl | hmem
        · exact Or.inl rfl
        · have hba : b ≤ a := by
            rcases mem_cons.mp (hsub mem_cons_self) with rfl | hin
            · exact le_refl _
            · exact (hb a hin).le
          have hrest : small ⊆ big := by
            intro y hy
            rcases mem_cons.mp (hsub (mem_cons_of_mem a hy)) with rfl | hin
            · exact absurd (ha y hy) (not_lt.mpr hba)
            · exact hin
          have hxrest : x ∈ big.take n := by
            rw [take_succ_cons, mem_cons] at hx
            rcases hx with rfl | hx
            · exact absurd (ha x hmem) (not_lt.mpr hba)
            · exact hx
          exact Or.inr (ih big small (pairwise_cons.mp hbig.pairwise).2.sortedLT
            (pairwise_cons.mp hsmall.pairwise).2.sortedLT hrest hxrest hmem)

/-- A sublist of a strictly increasing list that keeps its first n elements
starts with the same n elements. -/
theorem take_eq_take_of_subset (n : ℕ) (big small : List α) (hbig : big.SortedLT)
    (hsmall : small.SortedLT) (hsub : small ⊆ big) (htake : big.take n ⊆ small) :
    small.take n = big.take n := by
  induction n generalizing big small with
  | zero => simp
  | succ n ih =>
    cases big with
    | nil =>
      have hnil : small = [] := eq_nil_iff_forall_not_mem.mpr fun x hx => by
        simpa using hsub hx
      rw [hnil]
    | cons b big =>
      have hmem : b ∈ small := htake (by simp)
      cases small with
      | nil => simp at hmem
      | cons a small =>
        have hb := (pairwise_cons.mp hbig.pairwise).1
        have ha := (pairwise_cons.mp hsmall.pairwise).1
        have hab : a = b := by
          rcases mem_cons.mp hmem with rfl | hin
          · rfl
          · rcases mem_cons.mp (hsub mem_cons_self) with rfl | hin'
            · rfl
            · exact absurd (ha b hin) (not_lt.mpr (hb a hin').le)
        subst a
        rw [take_succ_cons, take_succ_cons]
        congr 1
        apply ih big small (pairwise_cons.mp hbig.pairwise).2.sortedLT
          (pairwise_cons.mp hsmall.pairwise).2.sortedLT
        · intro x hx
          rcases mem_cons.mp (hsub (mem_cons_of_mem b hx)) with rfl | hin
          · exact absurd (ha x hx) (lt_irrefl x)
          · exact hin
        · intro x hx
          have hxbig : x ∈ big := mem_of_mem_take hx
          rcases mem_cons.mp (htake (by simp [hx] : x ∈ (b :: big).take (n + 1)))
            with rfl | hin
          · exact absurd (hb x hxbig) (lt_irrefl x)
          · exact hin

/-- Truncating every column to n elements keeps the first n of the union. -/
theorem take_distinctUnion_truncate {n : ℕ} {columns : List (List α)}
    (hsorted : ∀ c ∈ columns, c.SortedLT) :
    (distinctUnion (columns.map (List.take n))).take n = (distinctUnion columns).take n := by
  apply take_eq_take_of_subset n _ _ (distinctUnion_sortedLT _) (distinctUnion_sortedLT _)
  · intro x hx
    rw [mem_distinctUnion] at hx ⊢
    obtain ⟨c, hc, hxc⟩ := hx
    obtain ⟨full, hfull, rfl⟩ := mem_map.mp hc
    exact ⟨full, hfull, mem_of_mem_take hxc⟩
  · intro x hx
    obtain ⟨c, hc, hxc⟩ := mem_distinctUnion.mp (mem_of_mem_take hx)
    rw [mem_distinctUnion]
    refine ⟨c.take n, mem_map.mpr ⟨c, hc, rfl⟩, ?_⟩
    apply mem_take_of_subset n _ c (distinctUnion_sortedLT columns) (hsorted c hc) _ x hx hxc
    intro y hy
    exact mem_distinctUnion.mpr ⟨c, hc, hy⟩

end KnowledgeEngine.SortedUnion
