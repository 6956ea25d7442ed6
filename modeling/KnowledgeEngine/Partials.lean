import KnowledgeEngine.CoreTypes
import KnowledgeEngine.FloatValue
import Mathlib.Algebra.BigOperators.Group.Multiset.Basic

/-!
Summaries of one measure (foundation/vizql/reduce.go and codec.go): sum, count, smallest
and largest observation, and a pointer to a quantile sketch. Numbers are exact. Sketches
are cells of a heap that Merge writes to; what a sketch is, is left open: sketches are
added up, and written so that they can be read back.
-/

namespace KnowledgeEngine.Partials

open CoreTypes FloatValue Function

/-- What package ddsketch does for the summaries. -/
structure Sketches (S : Type) [AddCommMonoid S] where
  /-- A new sketch with one value. -/
  add : BitVec 64 → Option S
  encode : S → List UInt8
  decode : List UInt8 → Option S
  decode_encode : ∀ s, decode (encode s) = some s
  encode_ne_nil : ∀ s, encode s ≠ []

structure Heap (S : Type) where
  cells : ℕ → S
  next : ℕ

structure Partial where
  Sketch : Option ℕ
  Sum : ℚ
  Count : ℚ
  Min : ℚ
  Max : ℚ

/-- The zero value. -/
def emptyPartial : Partial := ⟨none, 0, 0, 0, 0⟩

section Operations

variable {S : Type}

/-- A new cell, at the next address. -/
def Heap.alloc (h : Heap S) (s : S) : Heap S := ⟨update h.cells h.next s, h.next + 1⟩

def Heap.store (h : Heap S) (a : ℕ) (s : S) : Heap S := ⟨update h.cells a s, h.next⟩

variable [AddCommMonoid S] (lib : Sketches S)

def newPartial (h : Heap S) (v : BitVec 64) : Except AppError (Heap S × Partial) :=
  if isFinite v = false then .error (invalidInput "vizql: observation must be finite")
  else
    match lib.add v with
    | none => .error (invalidInput "vizql: add observation")
    | some s => .ok (h.alloc s, ⟨some h.next, value v, 1, value v, value v⟩)

/-- The receiver and the heap after p.Merge(o). -/
def merge (h : Heap S) (p o : Partial) : Heap S × Partial :=
  if o.Count = 0 then (h, p)
  else if p.Count = 0 then
    match o.Sketch with
    | none => (h, o)
    | some a => (h.alloc (h.cells a), { o with Sketch := some h.next })
  else
    let q : Partial := ⟨p.Sketch, p.Sum + o.Sum, p.Count + o.Count, min p.Min o.Min,
      max p.Max o.Max⟩
    match o.Sketch, p.Sketch with
    | none, _ => (h, q)
    | some a, none => (h.alloc (h.cells a), { q with Sketch := some h.next })
    | some a, some b => (h.store b (h.cells b + h.cells a), q)

def partialCodecVersion : UInt8 := 1

def partialHeaderLen : ℕ := 1 + 4 * 8

def encodePartial (h : Heap S) (p : Partial) : List UInt8 :=
  partialCodecVersion :: ([p.Sum, p.Count, p.Min, p.Max].flatMap fun v =>
    putUint64 (floatBits v)) ++
    p.Sketch.elim [] fun a => lib.encode (h.cells a)

/-- One of the four numbers of the header. -/
def headerNumber (b : List UInt8) (i : ℕ) : ℚ := value (uint64 ((b.drop (1 + 8 * i)).take 8))

def decodePartial (h : Heap S) (b : List UInt8) : Except AppError (Heap S × Partial) :=
  if b.length < partialHeaderLen ∨ b.head? ≠ some partialCodecVersion then
    .error (invalidInput "vizql: malformed partial")
  else
    let p : Partial := ⟨none, headerNumber b 0, headerNumber b 1, headerNumber b 2,
      headerNumber b 3⟩
    if b.drop partialHeaderLen = [] then .ok (h, p)
    else
      match lib.decode (b.drop partialHeaderLen) with
      | none => .error (invalidInput "vizql: malformed partial sketch")
      | some s => .ok (h.alloc s, { p with Sketch := some h.next })

end Operations

section Summaries

variable {S : Type} [AddCommMonoid S] (lib : Sketches S)

/-- NewPartial takes the observation. -/
def Accepted (x : BitVec 64) : Prop := isFinite x = true ∧ (lib.add x).isSome

def values (m : Multiset (BitVec 64)) : Set ℚ := {q | ∃ x ∈ m, value x = q}

def totalSum (m : Multiset (BitVec 64)) : ℚ := (m.map value).sum

def sketchOf (m : Multiset (BitVec 64)) : S := (m.map fun x => (lib.add x).getD 0).sum

/-- The summary of some observations: its numbers are theirs, and its sketch is the sum of
theirs. The empty summary is the zero value. -/
def Summarizes (h : Heap S) (p : Partial) (m : Multiset (BitVec 64)) : Prop :=
  m = 0 ∧ p = emptyPartial ∨
    m ≠ 0 ∧ p.Sum = totalSum m ∧ p.Count = m.card ∧ IsLeast (values m) p.Min ∧
      IsGreatest (values m) p.Max ∧ ∃ a, p.Sketch = some a ∧ h.cells a = sketchOf lib m

/-- The summary's sketch, if it has one, is among the cells of the heap. -/
def Partial.Within (p : Partial) (lo hi : ℕ) : Prop := ∀ a, p.Sketch = some a → lo ≤ a ∧ a < hi

/-- Cells below an address are as they were. -/
def Heap.Keeps (h h' : Heap S) (bound : ℕ) : Prop :=
  h.next ≤ h'.next ∧ ∀ a < bound, h'.cells a = h.cells a

theorem values_add (m n : Multiset (BitVec 64)) : values (m + n) = values m ∪ values n := by
  ext q
  simp only [values, Multiset.mem_add, Set.mem_ofPred_eq, Set.mem_union]
  constructor
  · rintro ⟨x, hx | hx, hq⟩
    · exact Or.inl ⟨x, hx, hq⟩
    · exact Or.inr ⟨x, hx, hq⟩
  · rintro (⟨x, hx, hq⟩ | ⟨x, hx, hq⟩)
    · exact ⟨x, Or.inl hx, hq⟩
    · exact ⟨x, Or.inr hx, hq⟩

theorem values_singleton (x : BitVec 64) : values {x} = {value x} := by
  ext q
  simp [values, eq_comm]

variable {lib}

variable {h : Heap S} {p o : Partial} {m n : Multiset (BitVec 64)}

theorem Summarizes.count (hp : Summarizes lib h p m) : p.Count = 0 ↔ m = 0 := by
  rcases hp with ⟨rfl, rfl⟩ | ⟨hne, -, hcount, -⟩
  · exact iff_of_true rfl rfl
  · rw [hcount, Nat.cast_eq_zero, Multiset.card_eq_zero]

/-- A summary stays one as long as its sketch's cell is left alone. -/
theorem Summarizes.of_cells {h' : Heap S} (hp : Summarizes lib h p m)
    (hcells : ∀ a, p.Sketch = some a → h'.cells a = h.cells a) : Summarizes lib h' p m := by
  rcases hp with hempty | ⟨hne, hsum, hcount, hmin, hmax, a, ha, hcell⟩
  · exact Or.inl hempty
  · exact Or.inr ⟨hne, hsum, hcount, hmin, hmax, a, ha, (hcells a ha).trans hcell⟩

theorem newPartial_summarizes {x : BitVec 64} (hx : Accepted lib x) :
    ∃ h' p, newPartial lib h x = .ok (h', p) ∧ Summarizes lib h' p {x} ∧
      p.Within h.next h'.next ∧ h.Keeps h' h.next := by
  obtain ⟨hfinite, hadd⟩ := hx
  obtain ⟨s, hs⟩ := Option.isSome_iff_exists.mp hadd
  refine ⟨h.alloc s, ⟨some h.next, value x, 1, value x, value x⟩, ?_, ?_, ?_, ?_⟩
  · rw [newPartial, if_neg (by simp [hfinite]), hs]
  · refine Or.inr ⟨Multiset.singleton_ne_zero x, ?_, ?_, ?_, ?_, h.next, rfl, ?_⟩
    · simp [totalSum]
    · simp
    · rw [values_singleton]
      exact isLeast_singleton
    · rw [values_singleton]
      exact isGreatest_singleton
    · simp [Heap.alloc, sketchOf, hs]
  · intro a ha
    obtain rfl := Option.some.inj ha
    exact ⟨Nat.le_refl _, Nat.lt_succ_self _⟩
  · exact ⟨Nat.le_succ _, fun a ha => update_of_ne (Nat.ne_of_lt ha) _ _⟩

/-- What p.Merge(o) does to the heap and leaves in the receiver: only the receiver's own
sketch is written, and the receiver ends with that sketch or with a new one. -/
structure Merged (h : Heap S) (p o : Partial) (h' : Heap S) (q : Partial) : Prop where
  grows : h.next ≤ h'.next
  frame : ∀ a < h.next, p.Sketch ≠ some a → h'.cells a = h.cells a
  owned : ∀ a, q.Sketch = some a → p.Sketch = some a ∨ h.next ≤ a ∧ a < h'.next

omit [AddCommMonoid S] in
theorem merged_copy {s : S} {q : Partial} (hq : q.Sketch = some h.next) :
    Merged h p o (h.alloc s) q where
  grows := Nat.le_succ _
  frame a ha _ := update_of_ne (Nat.ne_of_lt ha) _ _
  owned a ha := by
    obtain rfl := Option.some.inj (hq.symm.trans ha)
    exact Or.inr ⟨Nat.le_refl _, Nat.lt_succ_self _⟩

/-- Merging a summary into a non-empty one: each number and the sketch of the union. -/
theorem summarizes_add {h' : Heap S} {q : Partial} (hm : m ≠ 0) (hn : n ≠ 0)
    (hp : Summarizes lib h p m) (ho : Summarizes lib h o n) (hsum : q.Sum = p.Sum + o.Sum)
    (hcount : q.Count = p.Count + o.Count) (hmin : q.Min = min p.Min o.Min)
    (hmax : q.Max = max p.Max o.Max) {a b : ℕ} (ha : o.Sketch = some a) (hb : p.Sketch = some b)
    (hq : q.Sketch = some b) (hcell : h'.cells b = h.cells b + h.cells a) :
    Summarizes lib h' q (m + n) := by
  obtain ⟨-, hpsum, hpcount, hpmin, hpmax, b', hb', hpcell⟩ := hp.resolve_left fun hempty =>
    hm hempty.1
  obtain ⟨-, hosum, hocount, homin, homax, a', ha', hocell⟩ := ho.resolve_left fun hempty =>
    hn hempty.1
  obtain rfl : b = b' := Option.some.inj (hb.symm.trans hb')
  obtain rfl : a = a' := Option.some.inj (ha.symm.trans ha')
  have hne : m + n ≠ 0 := by
    intro hzero
    have hcard := congrArg Multiset.card hzero
    rw [Multiset.card_add, Multiset.card_zero] at hcard
    exact hm (Multiset.card_eq_zero.mp (by omega))
  refine Or.inr ⟨hne, ?_, ?_, ?_, ?_, b, hq, ?_⟩
  · rw [hsum, hpsum, hosum, totalSum, totalSum, totalSum, Multiset.map_add, Multiset.sum_add]
  · rw [hcount, hpcount, hocount, Multiset.card_add, Nat.cast_add]
  · rw [hmin, values_add]
    exact hpmin.union homin
  · rw [hmax, values_add]
    exact hpmax.union homax
  · rw [hcell, hpcell, hocell, sketchOf, sketchOf, sketchOf, Multiset.map_add, Multiset.sum_add]

theorem merge_summarizes (hp : Summarizes lib h p m) (ho : Summarizes lib h o n) :
    Summarizes lib (merge h p o).1 (merge h p o).2 (m + n) ∧
      Merged h p o (merge h p o).1 (merge h p o).2 := by
  unfold merge
  by_cases hn : o.Count = 0
  · rw [if_pos hn, ho.count.mp hn, add_zero]
    exact ⟨hp, Nat.le_refl _, fun _ _ _ => rfl, fun _ ha => Or.inl ha⟩
  · have hn' : n ≠ 0 := fun hzero => hn (ho.count.mpr hzero)
    obtain ⟨-, hsum, hcount, hmin, hmax, a, ha, hcell⟩ := ho.resolve_left fun hempty =>
      hn' hempty.1
    rw [if_neg hn]
    by_cases hm : p.Count = 0
    · rw [if_pos hm, hp.count.mp hm, zero_add, ha]
      refine ⟨Or.inr ⟨hn', hsum, hcount, hmin, hmax, h.next, rfl, ?_⟩, merged_copy rfl⟩
      exact (update_self _ _ _).trans hcell
    · have hm' : m ≠ 0 := fun hzero => hm (hp.count.mpr hzero)
      obtain ⟨-, -, -, -, -, b, hb, -⟩ := hp.resolve_left fun hempty => hm' hempty.1
      rw [if_neg hm, ha, hb]
      refine ⟨?_, Nat.le_refl _, fun c _ hc => ?_, fun c hc => Or.inl (hc ▸ hb)⟩
      · exact summarizes_add hm' hn' hp ho rfl rfl rfl rfl ha hb rfl (update_self _ _ _)
      · exact update_of_ne (fun heq : c = b => hc (heq ▸ hb)) _ _

/-- Merge leaves its argument alone unless the two share a sketch, and the receiver then
does not share one with it either. -/
theorem merge_keeps_argument (hp : Summarizes lib h p m) (ho : Summarizes lib h o n)
    (hwithin : o.Within 0 h.next) (hapart : ∀ a, p.Sketch = some a → o.Sketch ≠ some a) :
    (∀ a, o.Sketch = some a → (merge h p o).1.cells a = h.cells a) ∧
      ∀ a, (merge h p o).2.Sketch = some a → o.Sketch ≠ some a := by
  obtain ⟨-, hmerged⟩ := merge_summarizes hp ho
  refine ⟨fun a ha => hmerged.frame a (hwithin a ha).2 fun hpa => hapart a hpa ha, ?_⟩
  intro a ha hoa
  rcases hmerged.owned a ha with hpa | ⟨hfresh, -⟩
  · exact hapart a hpa hoa
  · exact absurd (hwithin a hoa).2 (Nat.not_lt.mpr hfresh)

/-- The parts of a text whose parts have eight bytes each. -/
theorem eightBytes {v : UInt8} {a b c d rest : List UInt8} (ha : a.length = 8)
    (hb : b.length = 8) (hc : c.length = 8) (hd : d.length = 8) :
    let text := v :: (a ++ (b ++ (c ++ (d ++ rest))))
    (text.drop 1).take 8 = a ∧ (text.drop 9).take 8 = b ∧ (text.drop 17).take 8 = c ∧
      (text.drop 25).take 8 = d ∧ text.drop 33 = rest := by
  simp [List.drop_append, ha, hb, hc, hd, List.drop_eq_nil_of_le]

def header (p : Partial) (rest : List UInt8) : List UInt8 :=
  partialCodecVersion :: (putUint64 (floatBits p.Sum) ++ (putUint64 (floatBits p.Count) ++
    (putUint64 (floatBits p.Min) ++ (putUint64 (floatBits p.Max) ++ rest))))

theorem encodePartial_eq (h : Heap S) (p : Partial) :
    encodePartial lib h p = header p (p.Sketch.elim [] fun a => lib.encode (h.cells a)) := by
  simp [encodePartial, header]

/-- Reading a header back: the numbers, and what follows it. -/
theorem header_parts (p : Partial) (rest : List UInt8) :
    headerNumber (header p rest) 0 = value (floatBits p.Sum) ∧
      headerNumber (header p rest) 1 = value (floatBits p.Count) ∧
      headerNumber (header p rest) 2 = value (floatBits p.Min) ∧
      headerNumber (header p rest) 3 = value (floatBits p.Max) ∧
      (header p rest).drop partialHeaderLen = rest ∧
      ¬ (header p rest).length < partialHeaderLen := by
  have hlength (v : ℚ) : (putUint64 (floatBits v)).length = 8 := bigEndian_length
  obtain ⟨hsum, hcount, hmin, hmax, hrest⟩ := eightBytes
    (hlength p.Sum) (hlength p.Count) (hlength p.Min) (hlength p.Max)
  refine ⟨?_, ?_, ?_, ?_, hrest, ?_⟩
  · exact congrArg value ((congrArg uint64 hsum).trans uint64_putUint64)
  · exact congrArg value ((congrArg uint64 hcount).trans uint64_putUint64)
  · exact congrArg value ((congrArg uint64 hmin).trans uint64_putUint64)
  · exact congrArg value ((congrArg uint64 hmax).trans uint64_putUint64)
  · simp only [header, List.length_cons, List.length_append, hlength, partialHeaderLen]
    omega

/-- What is written and read back: the same numbers, and a sketch of its own. -/
theorem decodePartial_encodePartial (hsum : Represented p.Sum) (hcount : Represented p.Count)
    (hmin : Represented p.Min) (hmax : Represented p.Max) :
    decodePartial lib h (encodePartial lib h p) =
      p.Sketch.elim (.ok (h, p)) fun a =>
        .ok (h.alloc (h.cells a), { p with Sketch := some h.next }) := by
  obtain ⟨sketch, sum, count, small, large⟩ := p
  rw [encodePartial_eq]
  obtain ⟨h0, h1, h2, h3, hrest, hlong⟩ := header_parts ⟨sketch, sum, count, small, large⟩
    (sketch.elim [] fun a => lib.encode (h.cells a))
  have hversion : (header ⟨sketch, sum, count, small, large⟩
      (sketch.elim [] fun a => lib.encode (h.cells a))).head? = some partialCodecVersion := rfl
  rw [value_floatBits hsum] at h0
  rw [value_floatBits hcount] at h1
  rw [value_floatBits hmin] at h2
  rw [value_floatBits hmax] at h3
  unfold decodePartial
  rw [if_neg (by simp [hlong, hversion])]
  dsimp only
  rw [hrest, h0, h1, h2, h3]
  cases sketch with
  | none => rw [Option.elim_none, if_pos rfl, Option.elim_none]
  | some a =>
    rw [Option.elim_some, if_neg (lib.encode_ne_nil _), lib.decode_encode]
    rfl

/-- Passing a summary through the codec keeps what it summarizes. -/
theorem recode_summarizes (hp : Summarizes lib h p m) (hfinite : ∀ x ∈ m, isFinite x = true)
    (hsum : Represented (totalSum m)) (hcount : Represented m.card) :
    ∃ h' q, decodePartial lib h (encodePartial lib h p) = .ok (h', q) ∧ Summarizes lib h' q m ∧
      q.Within h.next h'.next ∧ h.Keeps h' h.next := by
  rcases hp with ⟨rfl, rfl⟩ | ⟨hne, hpsum, hpcount, hmin, hmax, a, ha, hcell⟩
  · refine ⟨h, emptyPartial, ?_, Or.inl ⟨rfl, rfl⟩, nofun, Nat.le_refl _, fun _ _ => rfl⟩
    rw [decodePartial_encodePartial represented_zero represented_zero represented_zero
      represented_zero]
    rfl
  · have hvalue {q : ℚ} (hq : q ∈ values m) : Represented q := by
      obtain ⟨x, hx, rfl⟩ := hq
      exact ⟨x, hfinite x hx, rfl⟩
    refine ⟨h.alloc (h.cells a), { p with Sketch := some h.next }, ?_, ?_, ?_, ?_⟩
    · rw [decodePartial_encodePartial (hpsum ▸ hsum) (hpcount ▸ hcount) (hvalue hmin.1)
        (hvalue hmax.1), ha]
      rfl
    · refine Or.inr ⟨hne, hpsum, hpcount, hmin, hmax, h.next, rfl, ?_⟩
      exact (update_self _ _ _).trans hcell
    · intro b hb
      obtain rfl := Option.some.inj hb
      exact ⟨Nat.le_refl _, Nat.lt_succ_self _⟩
    · exact ⟨Nat.le_succ _, fun b hb => update_of_ne (Nat.ne_of_lt hb) _ _⟩

end Summaries

end KnowledgeEngine.Partials
