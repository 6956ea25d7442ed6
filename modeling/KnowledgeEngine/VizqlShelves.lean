import KnowledgeEngine.FilterGrammar
import KnowledgeEngine.Vizql

/-!
Shelves of table algebra under a change of their leaves. A shelf is valid if each of its
leaves and operators is, within the depth limit, and its keys are those of its leaves; a
change that keeps leaves valid keeps shelves valid, and the table of the changed shelf is the
table with its tuples changed.
-/

namespace KnowledgeEngine.VizqlShelves

open FilterParse Vizql

open FilterParse (bind_ok_iff)

variable {m : FieldMap} {f : FieldRef → FieldRef}

mutual

def leaves : Shelf → List FieldRef
  | .null => []
  | .field ref => [ref]
  | .node _ args => leavesArgs args

def leavesArgs : List Shelf → List FieldRef
  | [] => []
  | arg :: rest => leaves arg ++ leavesArgs rest

end

mutual

/-- The shelf stands at a depth and is valid there. -/
def ShelfValid (m : FieldMap) (depth : ℕ) : Shelf → Prop
  | .null => True
  | .field ref => depth ≤ MaxShelfDepth ∧ validateRef ref m = .ok ()
  | .node op args =>
    depth ≤ MaxShelfDepth ∧ validOp op = true ∧ args ≠ [] ∧ ArgsValid m (depth + 1) args

def ArgsValid (m : FieldMap) (depth : ℕ) : List Shelf → Prop
  | [] => True
  | arg :: rest => arg.isNull = false ∧ ShelfValid m depth arg ∧ ArgsValid m depth rest

end

mutual

theorem validateShelf_iff (depth : ℕ) (keys keys' : List String) : ∀ s : Shelf,
    validateShelf m depth keys s = .ok keys' ↔
      ShelfValid m depth s ∧ keys' = keys ++ (leaves s).map FieldRef.Key
  | .null => by simp [validateShelf, ShelfValid, leaves, eq_comm]
  | .field ref => by
    simp only [validateShelf, ShelfValid, leaves]
    split
    · next hdeep => simp [Nat.not_le.mpr hdeep]
    · next hdepth =>
      rw [bind_ok_iff]
      constructor
      · rintro ⟨⟨⟩, href, hkeys⟩
        cases hkeys
        exact ⟨⟨Nat.not_lt.mp hdepth, href⟩, rfl⟩
      · rintro ⟨⟨-, href⟩, rfl⟩
        exact ⟨(), href, rfl⟩
  | .node op args => by
    simp only [validateShelf, ShelfValid, leaves]
    split
    · next hdeep => simp [Nat.not_le.mpr hdeep]
    · next hdepth =>
      split
      · next hop => simp [hop]
      · next hop =>
        split
        · next hempty => simp [List.isEmpty_iff.mp hempty]
        · next hargs =>
          rw [validateArgs_iff (depth + 1) keys keys' args]
          simp [Nat.not_lt.mp hdepth, Bool.not_eq_false _ ▸ hop, mt List.isEmpty_iff.mpr hargs]

theorem validateArgs_iff (depth : ℕ) (keys keys' : List String) : ∀ args : List Shelf,
    validateArgs m depth keys args = .ok keys' ↔
      ArgsValid m depth args ∧ keys' = keys ++ (leavesArgs args).map FieldRef.Key
  | [] => by simp [validateArgs, ArgsValid, leavesArgs, eq_comm]
  | arg :: rest => by
    simp only [validateArgs, ArgsValid, leavesArgs]
    split
    · next hnull => simp [hnull]
    · next hnull =>
      rw [bind_ok_iff]
      simp only [validateShelf_iff depth keys _ arg, validateArgs_iff depth _ keys' rest]
      constructor
      · rintro ⟨mid, ⟨harg, rfl⟩, hrest, rfl⟩
        exact ⟨⟨Bool.not_eq_true _ ▸ hnull, harg, hrest⟩, by simp⟩
      · rintro ⟨⟨-, harg, hrest⟩, rfl⟩
        exact ⟨_, ⟨harg, rfl⟩, hrest, by simp⟩

end

section Drilling

theorem isNull_drillShelf {s : Shelf} : (drillShelf f s).isNull = s.isNull := by
  cases s <;> rfl

mutual

theorem leaves_drillShelf : ∀ s : Shelf, leaves (drillShelf f s) = (leaves s).map f
  | .null => rfl
  | .field _ => rfl
  | .node _ args => leavesArgs_drillArgs args

theorem leavesArgs_drillArgs : ∀ args : List Shelf,
    leavesArgs (drillArgs f args) = (leavesArgs args).map f
  | [] => rfl
  | arg :: rest => by
    rw [drillArgs, leavesArgs, leavesArgs, List.map_append, leaves_drillShelf arg,
      leavesArgs_drillArgs rest]

end

mutual

theorem shelfValid_drillShelf
    (hf : ∀ ref, validateRef ref m = .ok () → validateRef (f ref) m = .ok ()) :
    ∀ (depth : ℕ) (s : Shelf), ShelfValid m depth s → ShelfValid m depth (drillShelf f s)
  | _, .null, _ => trivial
  | _, .field ref, ⟨hdepth, href⟩ => ⟨hdepth, hf ref href⟩
  | depth, .node op args, ⟨hdepth, hop, hne, hargs⟩ => by
    refine ⟨hdepth, hop, ?_, argsValid_drillArgs hf (depth + 1) args hargs⟩
    cases args with
    | nil => exact absurd rfl hne
    | cons arg rest => simp [drillArgs]

theorem argsValid_drillArgs
    (hf : ∀ ref, validateRef ref m = .ok () → validateRef (f ref) m = .ok ()) :
    ∀ (depth : ℕ) (args : List Shelf), ArgsValid m depth args → ArgsValid m depth (drillArgs f args)
  | _, [], _ => trivial
  | depth, arg :: rest, ⟨hnull, harg, hrest⟩ =>
    ⟨isNull_drillShelf.trans hnull, shelfValid_drillShelf hf depth arg harg,
      argsValid_drillArgs hf depth rest hrest⟩

end

/-- A tuple with its fields changed. -/
def renameTuple (f : FieldRef → FieldRef) (t : Tuple) : Tuple := { t with Fields := t.Fields.map f }

theorem product_rename (left right : List Tuple) (nest : Bool) :
    product (left.map (renameTuple f)) (right.map (renameTuple f)) nest =
      (product left right nest).map (renameTuple f) := by
  simp [product, List.flatMap_map, List.map_flatMap, renameTuple, Function.comp_def]

mutual

theorem normalize_drillShelf : ∀ s : Shelf,
    Normalize (drillShelf f s) = (Normalize s).map (renameTuple f)
  | .null => rfl
  | .field _ => rfl
  | .node .concat args => unionArgs_drillArgs args
  | .node .cross args => productArgs_drillArgs false [⟨[], false⟩] args
  | .node .nest args => productArgs_drillArgs true [⟨[], false⟩] args
  | .node (.other _) _ => rfl

theorem unionArgs_drillArgs : ∀ args : List Shelf,
    unionArgs (drillArgs f args) = (unionArgs args).map (renameTuple f)
  | [] => rfl
  | arg :: rest => by
    rw [drillArgs, unionArgs, unionArgs, List.map_append, normalize_drillShelf arg,
      unionArgs_drillArgs rest]

theorem productArgs_drillArgs (nest : Bool) (out : List Tuple) : ∀ args : List Shelf,
    productArgs nest (out.map (renameTuple f)) (drillArgs f args) =
      (productArgs nest out args).map (renameTuple f)
  | [] => rfl
  | arg :: rest => by
    rw [drillArgs, productArgs, productArgs, normalize_drillShelf arg, product_rename,
      productArgs_drillArgs nest _ rest]

end

end Drilling

end KnowledgeEngine.VizqlShelves
