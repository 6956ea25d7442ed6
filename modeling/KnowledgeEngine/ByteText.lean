import Mathlib.Data.List.DropRight
import Mathlib.Data.List.Infix

/-!
Text as bytes: removing white space at both ends and splitting at a byte. White space
is a set of byte sequences, so that bytes that are no character are kept as they are.
-/

namespace KnowledgeEngine.ByteText

open List

abbrev Bytes := List UInt8

/-- Sequences removed from the front, one after the other. -/
def strip {α : Type*} [BEq α] (codes : List (List α)) : ℕ → List α → List α
  | 0, text => text
  | fuel + 1, text =>
    match codes.find? fun code => code.isPrefixOf text with
    | some code => strip codes fuel (text.drop code.length)
    | none => text

/-- The UTF-8 encodings of the characters of unicode.IsSpace. -/
def spaceCodes : List Bytes :=
  [[0x09], [0x0A], [0x0B], [0x0C], [0x0D], [0x20], [0xC2, 0x85], [0xC2, 0xA0],
    [0xE1, 0x9A, 0x80], [0xE2, 0x80, 0x80], [0xE2, 0x80, 0x81], [0xE2, 0x80, 0x82],
    [0xE2, 0x80, 0x83], [0xE2, 0x80, 0x84], [0xE2, 0x80, 0x85], [0xE2, 0x80, 0x86],
    [0xE2, 0x80, 0x87], [0xE2, 0x80, 0x88], [0xE2, 0x80, 0x89], [0xE2, 0x80, 0x8A],
    [0xE2, 0x80, 0xA8], [0xE2, 0x80, 0xA9], [0xE2, 0x80, 0xAF], [0xE2, 0x81, 0x9F],
    [0xE3, 0x80, 0x80]]

def trimLeft (text : Bytes) : Bytes := strip spaceCodes text.length text

def trimRight (text : Bytes) : Bytes :=
  (strip (spaceCodes.map List.reverse) text.length text.reverse).reverse

/-- strings.TrimSpace. -/
def trimSpace (text : Bytes) : Bytes := trimRight (trimLeft text)

section Strip

variable {α : Type*} [BEq α] (codes : List (List α))

theorem strip_suffix (fuel : ℕ) (text : List α) : strip codes fuel text <:+ text := by
  induction fuel generalizing text with
  | zero => exact suffix_rfl
  | succ fuel ih =>
    rw [strip]
    split
    · exact (ih _).trans (drop_suffix _ _)
    · exact suffix_rfl

variable [LawfulBEq α]

theorem strip_of_none {fuel : ℕ} {text : List α} (h : ∀ code ∈ codes, ¬ code <+: text) :
    strip codes fuel text = text := by
  cases fuel with
  | zero => rfl
  | succ fuel =>
    have hnone : codes.find? (fun code => code.isPrefixOf text) = none := by
      rw [List.find?_eq_none]
      intro code hcode hprefixed
      exact h code hcode (List.isPrefixOf_iff_prefix.mp hprefixed)
    rw [strip, hnone]

/-- A text that stays as it is starts with none of the sequences. -/
theorem none_of_strip {text : List α} (h : strip codes text.length text = text)
    {code : List α} (hcode : code ∈ codes) (hne : code ≠ []) (hsome : ∀ c ∈ codes, c ≠ []) :
    ¬ code <+: text := by
  intro hstart
  cases text with
  | nil => exact hne (prefix_nil.mp hstart)
  | cons a rest =>
    rw [length_cons, strip] at h
    cases hfind : codes.find? fun code => code.isPrefixOf (a :: rest) with
    | none =>
      rw [List.find?_eq_none] at hfind
      exact hfind code hcode (List.isPrefixOf_iff_prefix.mpr hstart)
    | some found =>
      simp only [hfind] at h
      have hpos := length_pos_iff.mpr (hsome found (mem_of_find?_eq_some hfind))
      have hshort := (strip_suffix codes rest.length ((a :: rest).drop found.length)).length_le
      rw [h, length_drop, length_cons] at hshort
      omega

end Strip

theorem spaceCodes_ne_nil : ∀ code ∈ spaceCodes, code ≠ [] := by decide

theorem reversed_ne_nil : ∀ code ∈ spaceCodes.map List.reverse, code ≠ [] := by decide

theorem trimLeft_suffix {text : Bytes} : trimLeft text <:+ text := strip_suffix _ _ _

theorem trimRight_initial (text : Bytes) : trimRight text <+: text := by
  have hsuffix := strip_suffix (spaceCodes.map List.reverse) text.length text.reverse
  rwa [← reverse_prefix, reverse_reverse] at hsuffix

theorem trimSpace_within (text : Bytes) : trimSpace text <:+: text :=
  (trimRight_initial _).isInfix.trans trimLeft_suffix.isInfix

/-- No white space stands at either end. -/
def Trimmed (text : Bytes) : Prop :=
  ∀ code ∈ spaceCodes, ¬ code <+: text ∧ ¬ code <:+ text

instance (text : Bytes) : Decidable (Trimmed text) :=
  inferInstanceAs (Decidable (∀ code ∈ spaceCodes, ¬ code <+: text ∧ ¬ code <:+ text))

theorem trimSpace_of_trimmed {text : Bytes} (h : Trimmed text) : trimSpace text = text := by
  have hleft : trimLeft text = text := strip_of_none _ fun code hcode => (h code hcode).1
  have hright : strip (spaceCodes.map List.reverse) text.length text.reverse = text.reverse := by
    apply strip_of_none
    intro reversed hreversed hstart
    obtain ⟨code, hcode, rfl⟩ := mem_map.mp hreversed
    exact (h code hcode).2 (List.reverse_prefix.mp hstart)
  rw [trimSpace, hleft, trimRight, hright, reverse_reverse]

theorem trimmed_of_trimSpace (text : Bytes) (h : trimSpace text = text) : Trimmed text := by
  have hlength : (trimLeft text).length = text.length := by
    apply Nat.le_antisymm trimLeft_suffix.length_le
    have hle := (trimRight_initial (trimLeft text)).length_le
    rwa [← trimSpace, h] at hle
  have hleft : trimLeft text = text := trimLeft_suffix.eq_of_length hlength
  have hright : strip (spaceCodes.map List.reverse) text.reverse.length text.reverse =
      text.reverse := by
    rw [trimSpace, hleft, trimRight] at h
    rw [length_reverse, ← reverse_inj, reverse_reverse, h]
  intro code hcode
  refine ⟨none_of_strip _ hleft hcode (spaceCodes_ne_nil code hcode) spaceCodes_ne_nil,
    fun hend => ?_⟩
  have hmem := mem_map_of_mem (f := List.reverse) hcode
  exact none_of_strip _ hright hmem (reversed_ne_nil _ hmem) reversed_ne_nil
    (List.reverse_prefix.mpr hend)

section Parts

variable {α : Type*} [BEq α] [LawfulBEq α] (sep : α)

/-- The parts between separators have none inside. -/
theorem not_mem_splitOn (text part : List α) (h : part ∈ text.splitOn sep) : sep ∉ part := by
  induction text generalizing part with
  | nil =>
    obtain rfl : part = [] := by simpa only [splitOn_nil, mem_singleton] using h
    exact not_mem_nil
  | cons a rest ih =>
    rw [splitOn_cons_eq_if_modifyHead] at h
    by_cases ha : a = sep
    · rw [if_pos (beq_iff_eq.mpr ha), mem_cons] at h
      rcases h with rfl | h
      · exact not_mem_nil
      · exact ih part h
    · rw [if_neg (by simpa using ha)] at h
      cases hsplit : rest.splitOn sep with
      | nil => exact absurd hsplit (splitOn_ne_nil sep rest)
      | cons first others =>
        rw [hsplit, modifyHead_cons, mem_cons] at h
        rcases h with rfl | h
        · intro hmem
          rcases mem_cons.mp hmem with rfl | hmem
          · exact ha rfl
          · exact ih first (by simp [hsplit]) hmem
        · exact ih part (by simp [hsplit, h])

/-- Separators at the end add empty parts at the end. -/
theorem splitOn_rdropWhile {text : List α} :
    ∃ n, text.splitOn sep = (text.rdropWhile (· == sep)).splitOn sep ++ List.replicate n [] := by
  induction text using List.reverseRecOn with
  | nil => exact ⟨0, by simp⟩
  | append_singleton text a ih =>
    rw [rdropWhile_concat]
    by_cases ha : a = sep
    · obtain ⟨n, hn⟩ := ih
      refine ⟨n + 1, ?_⟩
      rw [ha, if_pos (beq_self_eq_true sep), splitOn_append_cons_self, hn,
        splitOn_nil, append_assoc, replicate_succ']
    · rw [if_neg (by simpa using ha)]
      exact ⟨0, by simp⟩

omit [BEq α] [LawfulBEq α] in
/-- What follows a separator inside a text lies behind the text's first separator. -/
theorem infix_of_first (first rest before after : List α) (hfirst : sep ∉ first)
    (h : before ++ sep :: after <:+: first ++ sep :: rest) : after <:+: rest := by
  obtain ⟨left, right, htext⟩ := h
  rw [append_assoc, append_assoc, ← append_assoc, cons_append,
    append_eq_append_iff] at htext
  rcases htext with ⟨middle, hhead, htail⟩ | ⟨middle, hhead, htail⟩
  · cases middle with
    | nil => exact ⟨[], right, by simpa using htail⟩
    | cons b middle =>
      obtain ⟨rfl, -⟩ := List.cons.inj htail
      exact absurd (by simp [hhead]) hfirst
  · cases middle with
    | nil => exact ⟨[], right, by simpa using htail.symm⟩
    | cons b middle =>
      refine ⟨middle ++ [sep], right, ?_⟩
      simpa using (List.cons.inj htail).2.symm

end Parts

/-- Behind a byte no white space contains, only the rest decides about the end. -/
theorem suffix_of_barrier {barrier : UInt8} {code head rest : Bytes} (hcode : barrier ∉ code)
    (h : code <:+ head ++ barrier :: rest) : code <:+ rest := by
  rcases suffix_or_suffix_of_suffix h (suffix_append head (barrier :: rest)) with
    hinside | hover
  · rcases suffix_cons_iff.mp hinside with rfl | hrest
    · exact absurd mem_cons_self hcode
    · exact hrest
  · exact absurd (hover.subset mem_cons_self) hcode

theorem trimmed_of_barrier {barrier first : UInt8} {head rest : Bytes}
    (hbarrier : ∀ code ∈ spaceCodes, barrier ∉ code)
    (hfirst : ∀ code ∈ spaceCodes, first ∉ code) (hrest : Trimmed rest) :
    Trimmed (first :: head ++ barrier :: rest) := by
  intro code hcode
  refine ⟨fun hstart => ?_, fun hend => ?_⟩
  · rcases prefix_cons_iff.mp hstart with rfl | ⟨tail, rfl, -⟩
    · exact spaceCodes_ne_nil [] hcode rfl
    · exact hfirst _ hcode mem_cons_self
  · exact (hrest code hcode).2 (suffix_of_barrier (hbarrier code hcode) hend)

theorem trimmed_of_bytes (text : Bytes)
    (h : ∀ b ∈ text, ∀ code ∈ spaceCodes, b ∉ code) : Trimmed text := by
  intro code hcode
  obtain ⟨b, hb⟩ := exists_mem_of_ne_nil code (spaceCodes_ne_nil code hcode)
  exact ⟨fun hstart => h b (hstart.subset hb) code hcode hb,
    fun hend => h b (hend.subset hb) code hcode hb⟩

end KnowledgeEngine.ByteText
