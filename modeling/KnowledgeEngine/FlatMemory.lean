import Mathlib.Data.List.Infix
import Mathlib.Tactic.Cases

/-!
Memory as a list of cells by address. Allocation appends cells, a pointer is an address, and a
slice shows consecutive cells. A run that writes only to cells it has allocated leaves the
memory there was as the first part of memory, so that everything is read from it as before.
-/

namespace KnowledgeEngine.FlatMemory

open List

/-- A view of consecutive cells; the nil slice has no base. -/
structure Slice where
  base : Option ℕ
  len : ℕ

variable {α : Type}

def store (h : List α) (p : ℕ) (x : α) : Option (List α) :=
  if p < h.length then some (h.set p x) else none

/-- The memory with new cells, and the address of the first. -/
def alloc (h xs : List α) : List α × ℕ := (h ++ xs, h.length)

def loadAt (h : List α) (s : Slice) (i : ℕ) : Option α := s.base.bind fun p => h[p + i]?

def loadSlice (h : List α) (s : Slice) : List α :=
  match s.base with
  | none => []
  | some p => (h.drop p).take s.len

/-- Each of the next cells is computed, with what that takes of memory, and written. -/
def fill (body : ℕ → List α → Option (List α × α)) (dst : ℕ) : ℕ → ℕ → List α → Option (List α)
  | 0, _, h => some h
  | n + 1, i, h => do
    let (h, x) ← body i h
    let h ← store h (dst + i) x
    fill body dst n (i + 1) h

/-- The slice shows the values. -/
def Spans (h : List α) (s : Slice) (xs : List α) : Prop :=
  s.len = xs.length ∧ ∀ i x, xs[i]? = some x → loadAt h s i = some x

section Reading

variable {h h' xs : List α} {s : Slice}

theorem getElem?_of_initial (hkeeps : h <+: h') {p : ℕ} {x : α} (hload : h[p]? = some x) :
    h'[p]? = some x := by
  obtain ⟨t, rfl⟩ := hkeeps
  rw [List.getElem?_append_left (List.getElem?_eq_some_iff.mp hload).1, hload]

theorem loadAt_eq_some {i : ℕ} {x : α} :
    loadAt h s i = some x ↔ ∃ p, s.base = some p ∧ h[p + i]? = some x :=
  Option.bind_eq_some_iff

theorem loadAt_of_initial (hkeeps : h <+: h') {i : ℕ} {x : α} (hload : loadAt h s i = some x) :
    loadAt h' s i = some x := by
  obtain ⟨p, hbase, hp⟩ := loadAt_eq_some.mp hload
  exact loadAt_eq_some.mpr ⟨p, hbase, getElem?_of_initial hkeeps hp⟩

theorem Spans.of_initial (hspans : Spans h s xs) (hkeeps : h <+: h') : Spans h' s xs :=
  ⟨hspans.1, fun i x hx => loadAt_of_initial hkeeps (hspans.2 i x hx)⟩

theorem Spans.eq_nil (hspans : Spans h s xs) (hbase : s.base = none) : xs = [] := by
  cases xs with
  | nil => rfl
  | cons x rest =>
    obtain ⟨p, hp, -⟩ := loadAt_eq_some.mp (hspans.2 0 x rfl)
    rw [hbase] at hp
    cases hp

theorem Spans.loadSlice (hspans : Spans h s xs) : loadSlice h s = xs := by
  unfold FlatMemory.loadSlice
  cases hbase : s.base with
  | none => exact (hspans.eq_nil hbase).symm
  | some p =>
    refine ext_getElem? fun i => ?_
    by_cases hi : i < xs.length
    · obtain ⟨q, hq, hload⟩ := loadAt_eq_some.mp (hspans.2 i _ (List.getElem?_eq_getElem hi))
      cases hbase.symm.trans hq
      rw [List.getElem?_take_of_lt (hspans.1 ▸ hi), List.getElem?_drop, hload,
        List.getElem?_eq_getElem hi]
    · rw [List.getElem?_eq_none (Nat.not_lt.mp hi), List.getElem?_take_eq_none]
      exact hspans.1 ▸ Nat.not_lt.mp hi

/-- New cells are shown by a slice over them. -/
theorem spans_new (h xs extra : List α) :
    Spans (h ++ xs ++ extra) ⟨some h.length, xs.length⟩ xs := by
  refine ⟨rfl, fun i x hx => loadAt_eq_some.mpr ⟨_, rfl, ?_⟩⟩
  rw [append_assoc, List.getElem?_append_right (Nat.le_add_right _ _), Nat.add_sub_cancel_left,
    List.getElem?_append_left (List.getElem?_eq_some_iff.mp hx).1, hx]

end Reading

section Filling

variable {body : ℕ → List α → Option (List α × α)} {R : ℕ → α → List α → Prop} {h : List α}
  {n : ℕ}

theorem set_next (done rest : List α) (y x : α) :
    (h ++ done ++ y :: rest).set (h.length + done.length) x = h ++ (done ++ [x]) ++ rest := by
  rw [← length_append, set_append_right _ _ (Nat.le_refl _), Nat.sub_self,
    set_cons_zero]
  simp

variable
  (hR : ∀ j x g g', R j x g → (∀ a y, h.length + n ≤ a → g[a]? = some y → g'[a]? = some y) →
    R j x g')
  (hbody : ∀ j g, j < n → h <+: g → h.length + n ≤ g.length →
    ∃ more x, body j g = some (g ++ more, x) ∧ R j x (g ++ more))

include hR hbody in
/-- A loop over new cells: each computation only adds to memory, and what it says of its result
does not depend on the cells that are filled. -/
theorem fill_spec (rest done extra : List α) (hlength : done.length + rest.length = n)
    (hdone : ∀ j x, done[j]? = some x → R j x (h ++ done ++ (rest ++ extra))) :
    ∃ xs extra', fill body h.length rest.length done.length (h ++ done ++ (rest ++ extra)) =
        some (h ++ xs ++ extra') ∧ xs.length = n ∧
      ∀ j x, xs[j]? = some x → R j x (h ++ xs ++ extra') := by
  induction rest generalizing done extra with
  | nil => exact ⟨done, extra, rfl, hlength, hdone⟩
  | cons y rest ih =>
    rw [length_cons] at hlength
    obtain ⟨more, x, hrun, hx⟩ := hbody done.length (h ++ done ++ (y :: rest ++ extra)) (by omega)
      (by rw [append_assoc]; exact prefix_append _ _) (by simp; omega)
    have hset := set_next (h := h) done (rest ++ (extra ++ more)) y x
    have hmemory : h ++ done ++ (y :: rest ++ extra) ++ more =
        h ++ done ++ y :: (rest ++ (extra ++ more)) := by simp
    have hkept : ∀ a z, h.length + n ≤ a →
        (h ++ done ++ y :: (rest ++ (extra ++ more)))[a]? = some z →
        (h ++ (done ++ [x]) ++ (rest ++ (extra ++ more)))[a]? = some z := by
      intro a z ha hz
      rw [← hset, List.getElem?_set_ne (by omega)]
      exact hz
    obtain ⟨xs, extra', hfill, hxs, hresults⟩ := ih (done ++ [x]) (extra ++ more)
      (by rw [length_append, length_singleton]; omega) (by
        intro j z hz
        rcases lt_or_ge j done.length with hj | hj
        · rw [List.getElem?_append_left hj] at hz
          refine hR j z _ _ (hdone j z hz) fun a w ha hw => hkept a w ha ?_
          rw [← hmemory]
          exact getElem?_of_initial (prefix_append _ _) hw
        · obtain rfl : j = done.length := by
            have hlt := (List.getElem?_eq_some_iff.mp hz).1
            rw [length_append, length_singleton] at hlt
            omega
          rw [List.getElem?_concat_length] at hz
          cases hz
          exact hR _ x _ _ hx fun a w ha hw => hkept a w ha (hmemory ▸ hw))
    refine ⟨xs, extra', ?_, hxs, hresults⟩
    rw [length_append, length_singleton] at hfill
    have hstore : store (h ++ done ++ (y :: rest ++ extra) ++ more) (h.length + done.length) x =
        some (h ++ (done ++ [x]) ++ (rest ++ (extra ++ more))) := by
      rw [hmemory, store, if_pos (by simp), hset]
    simp only [length_cons, fill, hrun, Option.bind_eq_bind, Option.bind_some, hstore, hfill]

include hR hbody in
theorem fill_new (y : α) :
    ∃ xs extra, fill body h.length n 0 (h ++ List.replicate n y) = some (h ++ xs ++ extra) ∧
      xs.length = n ∧ ∀ j x, xs[j]? = some x → R j x (h ++ xs ++ extra) := by
  have hfill := fill_spec hR hbody (List.replicate n y) [] []
    (by rw [length_replicate, length_nil, Nat.zero_add]) (by simp)
  simpa only [append_nil, length_nil, length_replicate] using hfill

end Filling

end KnowledgeEngine.FlatMemory
