import Mathlib.Data.List.DropRight

/-!
Splitting a text at every occurrence of a separator, from the left and without overlaps,
joining texts with a separator between them, and stripping letters of a kind from both
ends. Splitting loses nothing: joining the pieces gives the text back, also when the
pieces are joined in groups first.
-/

namespace KnowledgeEngine.SplitText

open List

variable {α : Type*}

section Split

variable [DecidableEq α]

/-- The pieces of a text of which `skip` letters belong to a separator that has been seen. -/
def splitFrom (sep : List α) : ℕ → List α → List (List α)
  | _, [] => [[]]
  | skip + 1, _ :: rest => splitFrom sep skip rest
  | 0, c :: rest =>
    if sep <+: c :: rest then [] :: splitFrom sep (sep.length - 1) rest
    else (splitFrom sep 0 rest).modifyHead (c :: ·)

def split (sep text : List α) : List (List α) := splitFrom sep 0 text

theorem splitFrom_ne_nil (sep : List α) (skip : ℕ) (text : List α) :
    splitFrom sep skip text ≠ [] := by
  induction text generalizing skip with
  | nil => cases skip <;> exact cons_ne_nil _ _
  | cons c rest ih =>
    cases skip with
    | succ skip => exact ih skip
    | zero =>
      rw [splitFrom]
      split
      · exact cons_ne_nil _ _
      · rw [ne_eq, modifyHead_eq_nil_iff]
        exact ih 0

theorem split_ne_nil {sep text : List α} : split sep text ≠ [] := splitFrom_ne_nil sep 0 text

end Split

variable {sep : List α}

theorem intercalate_modifyHead {c : α} {pieces : List (List α)} (h : pieces ≠ []) :
    sep.intercalate (pieces.modifyHead (c :: ·)) = c :: sep.intercalate pieces := by
  cases pieces with
  | nil => exact absurd rfl h
  | cons piece rest => exact intercalate_cons_cons_left

theorem intercalate_append {xs ys : List (List α)} (hx : xs ≠ []) (hy : ys ≠ []) :
    sep.intercalate (xs ++ ys) = sep.intercalate xs ++ sep ++ sep.intercalate ys := by
  induction xs with
  | nil => exact absurd rfl hx
  | cons x rest ih =>
    cases rest with
    | nil => rw [singleton_append, intercalate_cons_of_ne_nil hy,
        intercalate_singleton]
    | cons x' rest =>
      rw [cons_append, intercalate_cons_of_ne_nil (by simp), ih (cons_ne_nil _ _),
        intercalate_cons_of_ne_nil (cons_ne_nil _ _)]
      simp only [append_assoc]

theorem intercalate_splitFrom [DecidableEq α] (hsep : sep ≠ []) (skip : ℕ) (text : List α) :
    sep.intercalate (splitFrom sep skip text) = text.drop skip := by
  induction text generalizing skip with
  | nil => cases skip <;> rfl
  | cons c rest ih =>
    cases skip with
    | succ skip => exact ih skip
    | zero =>
      rw [splitFrom]
      split
      · next hprefix =>
        obtain ⟨after, hafter⟩ := hprefix
        have hdrop : rest.drop (sep.length - 1) = after := by
          have hcons : (c :: rest).drop sep.length = after := by
            rw [← hafter, drop_left]
          obtain ⟨k, hk⟩ := Nat.exists_eq_succ_of_ne_zero
            (fun h => hsep (length_eq_zero_iff.mp h))
          rw [hk] at hcons ⊢
          exact hcons
        rw [intercalate_cons_of_ne_nil (splitFrom_ne_nil sep _ rest), ih, hdrop,
          nil_append, hafter, drop_zero]
      · rw [intercalate_modifyHead (splitFrom_ne_nil sep 0 rest), ih, drop_zero,
          drop_zero]

theorem intercalate_split [DecidableEq α] (sep : List α) (hsep : sep ≠ []) (text : List α) :
    sep.intercalate (split sep text) = text :=
  intercalate_splitFrom hsep 0 text

/-- Joining in groups first and the groups then is joining all. -/
theorem intercalate_groups {groups : List (List (List α))} (h : ∀ g ∈ groups, g ≠ []) :
    sep.intercalate (groups.map sep.intercalate) = sep.intercalate groups.flatten := by
  induction groups with
  | nil => rfl
  | cons g rest ih =>
    obtain ⟨hg, hrest⟩ := forall_mem_cons.mp h
    cases rest with
    | nil => simp
    | cons g' rest =>
      have hne : (g' :: rest).flatten ≠ [] := by
        have hg' := hrest g' mem_cons_self
        simp [hg']
      rw [map_cons, intercalate_cons_of_ne_nil (by simp), ih hrest,
        flatten_cons (L := g' :: rest), intercalate_append hg hne]

section Blanks

variable (p : α → Bool)

/-- The text without the blanks at its two ends. -/
def strip (text : List α) : List α := (text.dropWhile p).rdropWhile p

/-- The text without its blanks. -/
def letters (text : List α) : List α := text.filter fun c => !p c

theorem letters_append (s t : List α) : letters p (s ++ t) = letters p s ++ letters p t :=
  filter_append s t

theorem letters_flatten_append (s t : List (List α)) :
    letters p (s ++ t).flatten = letters p s.flatten ++ letters p t.flatten := by
  rw [flatten_append, letters_append]

theorem letters_blank {text : List α} (h : ∀ c ∈ text, p c) : letters p text = [] := by
  simpa [letters] using h

theorem letters_dropWhile (text : List α) : letters p (text.dropWhile p) = letters p text := by
  have hsplit := congrArg (letters p) (takeWhile_append_dropWhile (p := p) (l := text))
  rwa [letters_append, letters_blank p fun c hc => mem_takeWhile_imp hc,
    nil_append] at hsplit

theorem letters_rdropWhile (text : List α) : letters p (text.rdropWhile p) = letters p text := by
  have hsplit := congrArg (letters p) (rdropWhile_append_rtakeWhile (p := p) (l := text))
  rwa [letters_append, letters_blank p fun c hc =>
    mem_rtakeWhile_imp hc, append_nil] at hsplit

theorem letters_strip (text : List α) : letters p (strip p text) = letters p text := by
  rw [strip, letters_rdropWhile, letters_dropWhile]

theorem letters_intercalate (hsep : ∀ c ∈ sep, p c) (pieces : List (List α)) :
    letters p (sep.intercalate pieces) = letters p pieces.flatten := by
  induction pieces with
  | nil => rfl
  | cons piece rest ih =>
    cases rest with
    | nil => simp
    | cons next rest =>
      rw [intercalate_cons_cons, letters_append, letters_append, letters_blank p hsep, ih,
        append_nil, flatten_cons (L := next :: rest), letters_append]

theorem length_strip_le (text : List α) : (strip p text).length ≤ text.length :=
  (List.rdropWhile_prefix p _).length_le.trans (dropWhile_suffix p).length_le

theorem dropWhile_word (pre word : List α) (h : ∀ c ∈ word.head?, p c = false) :
    (pre ++ word).dropWhile p = pre.dropWhile p ++ word := by
  have hword : word.dropWhile p = word := by
    cases word with
    | nil => rfl
    | cons c rest => exact dropWhile_cons_of_neg (by simp [h c rfl])
  rw [dropWhile_append, hword]
  split
  · next hempty => rw [isEmpty_iff.mp hempty, nil_append]
  · rfl

theorem rdropWhile_word (word post : List α) (h : ∀ c ∈ word.getLast?, p c = false) :
    (word ++ post).rdropWhile p = word ++ post.rdropWhile p := by
  rw [List.rdropWhile, reverse_append, dropWhile_word p, reverse_append,
    reverse_reverse, List.rdropWhile]
  simpa using h

/-- Stripping takes nothing from a word inside. -/
theorem strip_word (pre word post : List α) (hne : word ≠ []) (hword : ∀ c ∈ word, p c = false) :
    strip p (pre ++ word ++ post) = pre.dropWhile p ++ word ++ post.rdropWhile p := by
  obtain ⟨first, rest, rfl⟩ := exists_cons_of_ne_nil hne
  rw [strip, append_assoc, dropWhile_word p, ← append_assoc, rdropWhile_word p]
  · intro c hc
    rw [List.getLast?_append_cons] at hc
    exact hword c (mem_of_mem_getLast? hc)
  · intro c hc
    exact hword c (mem_of_mem_head? (by simpa using hc))

/-- The word that follows `pre` in a text lies in one of the pieces: blanks apart, `pre` is
what stands before it there. -/
def Unbroken (pieces : List (List α)) (pre word : List α) : Prop :=
  ∃ left before after right, pieces = left ++ (before ++ word ++ after) :: right ∧
    letters p (left.flatten ++ before) = letters p pre

variable {p} {pieces : List (List α)} {pre word : List α}

theorem Unbroken.of_piece (before after : List α) (h : letters p before = letters p pre) :
    Unbroken p [before ++ word ++ after] pre word :=
  ⟨[], before, after, [], rfl, h⟩

theorem Unbroken.congr {pre' : List α} (h : Unbroken p pieces pre word)
    (heq : letters p pre = letters p pre') : Unbroken p pieces pre' word := by
  obtain ⟨left, before, after, right, hpieces, hpre⟩ := h
  exact ⟨left, before, after, right, hpieces, hpre.trans heq⟩

theorem Unbroken.append_right (h : Unbroken p pieces pre word) (more : List (List α)) :
    Unbroken p (pieces ++ more) pre word := by
  obtain ⟨left, before, after, right, rfl, hpre⟩ := h
  exact ⟨left, before, after, right ++ more, by simp, hpre⟩

theorem Unbroken.append_left (h : Unbroken p pieces pre word) (front : List (List α))
    (text : List α) (hfront : letters p front.flatten = letters p text) :
    Unbroken p (front ++ pieces) (text ++ pre) word := by
  obtain ⟨left, before, after, right, rfl, hpre⟩ := h
  refine ⟨front ++ left, before, after, right, by simp, ?_⟩
  rw [flatten_append, append_assoc, letters_append, hfront, hpre, letters_append]

theorem Unbroken.filter_ne_nil [DecidableEq α] (h : Unbroken p pieces pre word) (hne : word ≠ []) :
    Unbroken p (pieces.filter (· ≠ [])) pre word := by
  obtain ⟨left, before, after, right, rfl, hpre⟩ := h
  refine ⟨left.filter (· ≠ []), before, after, right.filter (· ≠ []), ?_, ?_⟩
  · rw [filter_append, filter_cons_of_pos (by simp [hne])]
  · rw [flatten_filter_ne_nil, hpre]

theorem Unbroken.of_append {xs ys : List (List α)} (h : Unbroken p (xs ++ ys) pre word) :
    Unbroken p xs pre word ∨ ∃ pre', Unbroken p ys pre' word ∧
      letters p pre = letters p (xs.flatten ++ pre') := by
  obtain ⟨left, before, after, right, hsplit, hpre⟩ := h
  rcases append_eq_append_iff.mp hsplit with ⟨rest, rfl, rfl⟩ | ⟨rest, rfl, hrest⟩
  · refine .inr ⟨rest.flatten ++ before, ⟨rest, before, after, right, rfl, rfl⟩, ?_⟩
    rw [← hpre, flatten_append, append_assoc]
  · cases rest with
    | nil =>
      refine .inr ⟨before, ⟨[], before, after, right, hrest.symm, rfl⟩, ?_⟩
      rw [← hpre, append_nil]
    | cons piece rest =>
      obtain ⟨rfl, rfl⟩ := List.cons.inj hrest
      exact .inl ⟨left, before, after, rest, rfl, hpre⟩

/-- A piece stands whole in the text it is joined into. -/
theorem intercalate_around (hsep : ∀ c ∈ sep, p c) {left right : List (List α)}
    {piece : List α} : ∃ before after,
      sep.intercalate (left ++ piece :: right) = before ++ piece ++ after ∧
        letters p before = letters p left.flatten := by
  induction left with
  | nil =>
    cases right with
    | nil => exact ⟨[], [], by simp, rfl⟩
    | cons next right =>
      exact ⟨[], sep ++ sep.intercalate (next :: right), by simp, rfl⟩
  | cons first left ih =>
    obtain ⟨before, after, hjoin, hletters⟩ := ih
    refine ⟨first ++ sep ++ before, after, ?_, ?_⟩
    · rw [cons_append, intercalate_cons_of_ne_nil (by simp), hjoin]
      simp only [append_assoc]
    · rw [letters_append, letters_append, letters_blank p hsep, hletters, append_nil,
        flatten_cons, letters_append]

/-- A word in one piece is in one text after the pieces are joined in groups. -/
theorem Unbroken.groups (sep : List α) (hsep : ∀ c ∈ sep, p c) (groups : List (List (List α)))
    (h : Unbroken p groups.flatten pre word) :
    Unbroken p (groups.map sep.intercalate) pre word := by
  induction groups generalizing pre with
  | nil =>
    obtain ⟨left, before, after, right, hnil, _⟩ := h
    simp at hnil
  | cons g rest ih =>
    rw [flatten_cons] at h
    rw [map_cons, ← singleton_append]
    rcases h.of_append with ⟨left, before, after, right, rfl, hpre⟩ | ⟨pre', hrest, hpre⟩
    · obtain ⟨front, back, hjoin, hfront⟩ :=
        intercalate_around hsep
      refine Unbroken.append_right ?_ _
      have hpiece : sep.intercalate (left ++ (before ++ word ++ after) :: right) =
          front ++ before ++ word ++ (after ++ back) := by
        rw [hjoin]
        simp only [append_assoc]
      rw [hpiece]
      refine Unbroken.of_piece _ _ ?_
      rw [← hpre, letters_append, hfront, letters_append]
    · refine ((ih hrest).append_left [sep.intercalate g] g.flatten ?_).congr hpre.symm
      rw [flatten_singleton, letters_intercalate p hsep]

end Blanks

end KnowledgeEngine.SplitText
