import KnowledgeEngine.AnalyticsStore
import KnowledgeEngine.DelimitedText
import Mathlib.Data.Finmap
import Mathlib.Data.String.Basic

/-!
The clustering key of a fact's dimensions (DimsKey): the escaped pairs in the order of
their names. Escaped text can be read back byte by byte and has neither of the two
separators, so the key determines the dimensions as a map, and the map the key.
-/

namespace KnowledgeEngine.FactKeys

open Analytics AnalyticsStore DelimitedText JsonText List

/-- The first byte of an escaped text, and what follows it. -/
def readByte : List Char → Option (UInt8 × List Char)
  | [] => none
  | c :: rest =>
    if c = '%' then
      match rest with
      | high :: low :: more =>
        match hexValue high, hexValue low with
        | some h, some l => some (UInt8.ofNat (16 * h + l), more)
        | _, _ => none
      | _ => none
    else if c = '+' then some (32, rest)
    else some (UInt8.ofNat c.toNat, rest)

theorem hexValue_upper (n : ℕ) (h : n < 16) : hexValue (Nat.digitChar n).toUpper = some n := by
  have hall : ∀ n : Fin 16, hexValue (Nat.digitChar n).toUpper = some n.val := by decide
  exact hall ⟨n, h⟩

theorem readByte_queryEscapeByte (b : UInt8) (rest : List Char) :
    readByte (queryEscapeByte b ++ rest) = some (b, rest) := by
  have hb := b.toNat_lt
  unfold queryEscapeByte
  dsimp only
  split
  · next hplain =>
    simp only [Bool.and_eq_true, Bool.or_eq_true, beq_iff_eq, decide_eq_true_eq] at hplain
    have hsmall : b.toNat < 128 := hplain.1
    have hpercent : Char.ofNat b.toNat ≠ '%' := by
      intro heq
      rw [heq] at hplain
      exact absurd hplain.2 (by decide)
    have hplus : Char.ofNat b.toNat ≠ '+' := by
      intro heq
      rw [heq] at hplain
      exact absurd hplain.2 (by decide)
    have hvalue : (Char.ofNat b.toNat).toNat = b.toNat := by
      have hall : ∀ n : Fin 128, (Char.ofNat n).toNat = n := by decide
      exact hall ⟨b.toNat, hsmall⟩
    simp [readByte, hpercent, hplus, hvalue]
  · split
    · next hspace =>
      rw [hspace]
      rfl
    · have hhigh := hexValue_upper (b.toNat / 16) (by omega)
      have hlow := hexValue_upper (b.toNat % 16) (by omega)
      simp [hexUpper, readByte, hhigh, hlow, Nat.div_add_mod]

theorem escape_injective :
    Function.Injective fun bs : List UInt8 => bs.flatMap queryEscapeByte := by
  intro a b h
  induction a generalizing b with
  | nil =>
    cases b with
    | nil => rfl
    | cons d rest' =>
      have hread := congrArg readByte h
      simp only [flatMap_cons, readByte_queryEscapeByte] at hread
      exact nomatch hread
  | cons c rest ih =>
    have hread := congrArg readByte h
    cases b with
    | nil =>
      simp only [flatMap_cons, readByte_queryEscapeByte] at hread
      exact nomatch hread
    | cons d rest' =>
      simp only [flatMap_cons, readByte_queryEscapeByte, Option.some.injEq,
        Prod.mk.injEq] at hread
      rw [hread.1, ih hread.2]

theorem toList_loop (bs : ByteArray) (i : ℕ) (front : List UInt8) :
    ByteArray.toList.loop bs i front = front.reverse ++ bs.data.toList.drop i := by
  fun_induction ByteArray.toList.loop bs i front with
  | case1 i front h ih =>
    have hi : i < bs.data.toList.length := by simpa using h
    have hget : bs.get! i = bs.data.toList[i] := by
      simp only [Array.getElem_toList]
      exact getElem!_pos bs.data i h
    rw [ih, hget, reverse_cons, append_assoc, singleton_append,
      getElem_cons_drop]
  | case2 i front h =>
    have hdrop : bs.data.toList.drop i = [] := drop_eq_nil_of_le (by simpa using h)
    rw [hdrop, append_nil]

theorem queryEscape_injective : Function.Injective queryEscape := by
  intro a b h
  have hbytes : a.toUTF8.toList = b.toUTF8.toList := escape_injective h
  unfold ByteArray.toList at hbytes
  rw [toList_loop, toList_loop] at hbytes
  exact String.toByteArray_inj.mp (ByteArray.ext (Array.toList_inj.mp hbytes))

/-- The separators are escaped. -/
theorem queryEscape_plain {s : String} : '&' ∉ queryEscape s ∧ '=' ∉ queryEscape s := by
  have hall : ((List.range 256).all fun n =>
      !(queryEscapeByte (UInt8.ofNat n)).contains '&' &&
        !(queryEscapeByte (UInt8.ofNat n)).contains '=') = true := by
    decide +kernel
  have hbyte (b : UInt8) : '&' ∉ queryEscapeByte b ∧ '=' ∉ queryEscapeByte b := by
    have hb := all_eq_true.mp hall b.toNat (mem_range.mpr b.toNat_lt)
    simpa using hb
  constructor <;> intro hmem <;> obtain ⟨b, -, hb⟩ := mem_flatMap.mp hmem
  · exact (hbyte b).1 hb
  · exact (hbyte b).2 hb

theorem pairChars_injective : Function.Injective pairChars := by
  rintro ⟨k, v⟩ ⟨k', v'⟩ h
  obtain ⟨hkey, hvalue⟩ := firstPart_inj queryEscape_plain.2 queryEscape_plain.2 h
  cases queryEscape_injective hkey
  cases queryEscape_injective hvalue
  rfl

theorem pairChars_plain (e : Sigma fun _ : String => String) :
    pairChars e ≠ [] ∧ '&' ∉ pairChars e := by
  refine ⟨by simp [pairChars], ?_⟩
  simp [pairChars, queryEscape_plain.1]

def sortedEntries (dims : StringMap String) : List (Sigma fun _ : String => String) :=
  dims.entries.mergeSort fun a b => decide (a.1 ≤ b.1)

variable {dims : StringMap String}

theorem sortedEntries_perm : (sortedEntries dims).Perm dims.entries :=
  mergeSort_perm _ _

theorem sortedEntries_sorted : (sortedEntries dims).Pairwise fun a b => a.1 ≤ b.1 := by
  have hsorted : (sortedEntries dims).Pairwise fun a b => decide (a.1 ≤ b.1) = true := by
    apply pairwise_mergeSort
    · intro a b c hab hbc
      exact decide_eq_true (le_trans (of_decide_eq_true hab) (of_decide_eq_true hbc))
    · intro a b
      simpa using le_total a.1 b.1
  exact hsorted.imp fun h => of_decide_eq_true h

theorem dimsKey_eq (dims : StringMap String) :
    dimsKey dims =
      String.ofList (List.intercalate ['&'] ((sortedEntries dims).map pairChars)) := rfl

/-- The key determines the dimensions. -/
theorem toFinmap_of_dimsKey {dims' : StringMap String} (h : dimsKey dims = dimsKey dims') :
    dims.toFinmap = dims'.toFinmap := by
  have hplain (d : StringMap String) : Plain '&' ((sortedEntries d).map pairChars) := by
    intro p hp
    obtain ⟨e, -, rfl⟩ := mem_map.mp hp
    exact pairChars_plain e
  have hpairs := join_inj (hplain dims) (hplain dims') (String.ofList_injective h)
  have hsorted := map_injective_iff.mpr pairChars_injective hpairs
  rw [AList.toFinmap_eq]
  exact sortedEntries_perm.symm.trans (hsorted ▸ sortedEntries_perm)

/-- Dimensions that are the same map have the same key. -/
theorem dimsKey_of_toFinmap {dims' : StringMap String} (h : dims.toFinmap = dims'.toFinmap) :
    dimsKey dims = dimsKey dims' := by
  have hperm : (sortedEntries dims).Perm (sortedEntries dims') :=
    sortedEntries_perm.trans ((AList.toFinmap_eq.mp h).trans sortedEntries_perm.symm)
  have heq : sortedEntries dims = sortedEntries dims' := by
    refine hperm.eq_of_pairwise ?_ sortedEntries_sorted sortedEntries_sorted
    intro a b ha hb hab hba
    have hb' := sortedEntries_perm.mem_iff.mp (hperm.mem_iff.mpr hb)
    have ha' := sortedEntries_perm.mem_iff.mp ha
    exact List.NodupKeys.eq_of_fst_eq dims.nodupKeys ha' hb' (le_antisymm hab hba)
  rw [dimsKey_eq, dimsKey_eq, heq]

end KnowledgeEngine.FactKeys
