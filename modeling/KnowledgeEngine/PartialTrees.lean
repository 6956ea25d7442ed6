import KnowledgeEngine.Partials

/-!
Reducing observations in any order: a tree says how summaries are merged, with empty ones
anywhere and any intermediate result passed through the codec. Whatever the tree, the
result is the summary of its observations.
-/

namespace KnowledgeEngine.PartialTrees

open CoreTypes FloatValue Partials

inductive Tree
  | empty
  | leaf (x : BitVec 64)
  | merge (left right : Tree)
  | recode (t : Tree)

namespace Tree

def observations : Tree → Multiset (BitVec 64)
  | empty => 0
  | leaf x => {x}
  | merge left right => left.observations + right.observations
  | recode t => t.observations

/-- The numbers that are written down are numbers of 64 bits: exact sums fit. -/
def Exact : Tree → Prop
  | empty => True
  | leaf _ => True
  | merge left right => left.Exact ∧ right.Exact
  | recode t => t.Exact ∧ Represented (totalSum t.observations) ∧ Represented t.observations.card

end Tree

variable {S : Type} [AddCommMonoid S] (lib : Sketches S)

def eval (h : Heap S) : Tree → Except AppError (Heap S × Partial)
  | .empty => .ok (h, emptyPartial)
  | .leaf x => newPartial lib h x
  | .merge left right => do
    let (h₁, p) ← eval h left
    let (h₂, o) ← eval h₁ right
    return Partials.merge h₂ p o
  | .recode t => do
    let (h₁, p) ← eval h t
    decodePartial lib h₁ (encodePartial lib h₁ p)

theorem ok_bind {α β : Type} (a : α) (f : α → Except AppError β) :
    (Except.ok a >>= f) = f a := rfl

theorem eval_merge (h : Heap S) (left right : Tree) : eval lib h (.merge left right) =
    eval lib h left >>= fun l => eval lib l.1 right >>= fun r =>
      .ok (Partials.merge r.1 l.2 r.2) := rfl

theorem eval_recode (h : Heap S) (t : Tree) : eval lib h (.recode t) =
    eval lib h t >>= fun r => decodePartial lib r.1 (encodePartial lib r.1 r.2) := rfl

variable {lib}

omit [AddCommMonoid S] in
theorem Heap.Keeps.trans {h h₁ h₂ : Heap S} (hfirst : h.Keeps h₁ h.next)
    (hsecond : h₁.Keeps h₂ h₁.next) : h.Keeps h₂ h.next :=
  ⟨hfirst.1.trans hsecond.1, fun a ha =>
    (hsecond.2 a (Nat.lt_of_lt_of_le ha hfirst.1)).trans (hfirst.2 a ha)⟩

/-- Two summaries that were made one after the other have sketches of their own. -/
theorem apart_of_within {p o : Partial} {lo mid hi : ℕ} (hp : p.Within lo mid)
    (ho : o.Within mid hi) (a : ℕ) (ha : p.Sketch = some a) : o.Sketch ≠ some a := by
  intro hoa
  have hlow := (hp a ha).2
  have hhigh := (ho a hoa).1
  omega

/-- A tree evaluates to the summary of its observations, in cells of its own. -/
theorem eval_summarizes {t : Tree} (haccepted : ∀ x ∈ t.observations, Accepted lib x)
    (hexact : t.Exact) (h : Heap S) :
    ∃ h' p, eval lib h t = .ok (h', p) ∧ Summarizes lib h' p t.observations ∧
      p.Within h.next h'.next ∧ h.Keeps h' h.next := by
  induction t generalizing h with
  | empty =>
    exact ⟨h, emptyPartial, rfl, Or.inl ⟨rfl, rfl⟩, nofun, Nat.le_refl _, fun _ _ => rfl⟩
  | leaf x => exact newPartial_summarizes (haccepted x (Multiset.mem_singleton_self x))
  | merge left right ihLeft ihRight =>
    obtain ⟨h₁, p, hleft, hp, hpWithin, hkeeps₁⟩ := ihLeft
      (fun x hx => haccepted x (Multiset.mem_add.mpr (Or.inl hx))) hexact.1 h
    obtain ⟨h₂, o, hright, ho, hoWithin, hkeeps₂⟩ := ihRight
      (fun x hx => haccepted x (Multiset.mem_add.mpr (Or.inr hx))) hexact.2 h₁
    have hp₂ : Summarizes lib h₂ p left.observations :=
      hp.of_cells fun a ha => hkeeps₂.2 a (hpWithin a ha).2
    obtain ⟨hsummary, hmerged⟩ := merge_summarizes hp₂ ho
    have hkeeps := Heap.Keeps.trans hkeeps₁ hkeeps₂
    refine ⟨_, _, ?_, hsummary, ?_, hkeeps.1.trans hmerged.grows, ?_⟩
    · rw [eval_merge, hleft, ok_bind, hright, ok_bind]
    · intro a ha
      have hgrows := hmerged.grows
      have hgrows₂ := hkeeps₂.1
      have hgrows₁ := hkeeps₁.1
      rcases hmerged.owned a ha with hpa | ⟨hlow, hhigh⟩
      · have hbounds := hpWithin a hpa
        omega
      · omega
    · intro a ha
      have hbelow : a < h₂.next := Nat.lt_of_lt_of_le ha hkeeps.1
      have hother : p.Sketch ≠ some a := fun hpa =>
        absurd (hpWithin a hpa).1 (Nat.not_le.mpr ha)
      exact (hmerged.frame a hbelow hother).trans (hkeeps.2 a ha)
  | recode t ih =>
    obtain ⟨h₁, p, heval, hp, -, hkeeps⟩ := ih haccepted hexact.1 h
    obtain ⟨h₂, q, hdecode, hq, hqWithin, hkeeps₂⟩ := recode_summarizes hp
      (fun x hx => (haccepted x hx).1) hexact.2.1 hexact.2.2
    refine ⟨h₂, q, ?_, hq, ?_, Heap.Keeps.trans hkeeps hkeeps₂⟩
    · rw [eval_recode, heval, ok_bind, hdecode]
    · intro a ha
      exact ⟨hkeeps.1.trans (hqWithin a ha).1, (hqWithin a ha).2⟩

/-- Whatever the tree over some observations, its result is their summary. Merging the
result of one tree into that of another leaves the argument as it is, and the two share no
sketch afterwards. -/
theorem reduce_any_order (lib : Sketches S) (t : Tree) (hne : t.observations ≠ 0)
    (haccepted : ∀ x ∈ t.observations, Accepted lib x) (hexact : t.Exact) (h : Heap S) :
    (∃ h' p a, eval lib h t = .ok (h', p) ∧ p.Sum = totalSum t.observations ∧
      p.Count = t.observations.card ∧ IsLeast (values t.observations) p.Min ∧
      IsGreatest (values t.observations) p.Max ∧ p.Sketch = some a ∧
      h'.cells a = sketchOf lib t.observations) ∧
    ∀ left right : Tree, left.Exact → right.Exact →
      (∀ x ∈ left.observations + right.observations, Accepted lib x) →
      ∀ h₁ p h₂ o, eval lib h left = .ok (h₁, p) → eval lib h₁ right = .ok (h₂, o) →
        (∀ a, o.Sketch = some a → (Partials.merge h₂ p o).1.cells a = h₂.cells a) ∧
        ∀ a, (Partials.merge h₂ p o).2.Sketch = some a → o.Sketch ≠ some a := by
  constructor
  · obtain ⟨h', p, heval, hsummary, -, -⟩ := eval_summarizes haccepted hexact h
    obtain ⟨-, hsum, hcount, hmin, hmax, a, ha, hcell⟩ := hsummary.resolve_left fun hempty =>
      hne hempty.1
    exact ⟨h', p, a, heval, hsum, hcount, hmin, hmax, ha, hcell⟩
  · intro left right hleft hright haccepted h₁ p h₂ o heval₁ heval₂
    obtain ⟨_, _, hsame₁, hp, hpWithin, -⟩ := eval_summarizes
      (fun x hx => haccepted x (Multiset.mem_add.mpr (Or.inl hx))) hleft h
    cases heval₁.symm.trans hsame₁
    obtain ⟨_, _, hsame₂, ho, hoWithin, hkeeps⟩ := eval_summarizes
      (fun x hx => haccepted x (Multiset.mem_add.mpr (Or.inr hx))) hright h₁
    cases heval₂.symm.trans hsame₂
    have hp₂ : Summarizes lib h₂ p left.observations :=
      hp.of_cells fun a ha => hkeeps.2 a (hpWithin a ha).2
    exact merge_keeps_argument hp₂ ho (fun a ha => ⟨Nat.zero_le a, (hoWithin a ha).2⟩)
      (apart_of_within hpWithin hoWithin)

/-- Sketches that only count. -/
def counting : Sketches ℕ where
  add _ := some 1
  encode n := List.replicate (n + 1) 0
  decode b := some (b.length - 1)
  decode_encode n := by simp
  encode_ne_nil n := by simp

/-- The numbers 1 and 2, merged with an empty summary between, written and read back. -/
def sampleTree : Tree :=
  .recode (.merge (.leaf 0x3FF0000000000000) (.merge .empty (.leaf 0x4000000000000000)))

theorem sample_reduced : ∃ h' p a, eval counting ⟨fun _ => 0, 0⟩ sampleTree = .ok (h', p) ∧
    p.Sum = totalSum sampleTree.observations ∧ p.Count = sampleTree.observations.card ∧
    IsLeast (values sampleTree.observations) p.Min ∧
    IsGreatest (values sampleTree.observations) p.Max ∧ p.Sketch = some a ∧
    h'.cells a = sketchOf counting sampleTree.observations := by
  have hsum : Represented (totalSum sampleTree.observations) :=
    ⟨0x4008000000000000, by decide +kernel, by decide +kernel⟩
  have hcount : Represented sampleTree.observations.card :=
    ⟨0x4000000000000000, by decide +kernel, by decide +kernel⟩
  have haccepted : ∀ x ∈ sampleTree.observations, Accepted counting x := by
    intro x hx
    refine ⟨?_, rfl⟩
    have hcases : x = 0x3FF0000000000000 ∨ x = 0x4000000000000000 := by
      simpa [sampleTree, Tree.observations] using hx
    rcases hcases with rfl | rfl
    · decide +kernel
    · decide +kernel
  exact (reduce_any_order counting sampleTree (by decide +kernel) haccepted
    ⟨⟨trivial, trivial, trivial⟩, hsum, hcount⟩ ⟨fun _ => 0, 0⟩).1

end KnowledgeEngine.PartialTrees
