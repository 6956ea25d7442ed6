import KnowledgeEngine.TimeText

/-!
Texts with separators. Of texts joined with a separator between them, a part without the
separator can be read off the front, and also off the end; when all parts are free of it and
none is empty, the joined text has only one list of parts.

Reading back a sequence of items that are written one after the other, each with a
separator behind it, up to a closing character. When each item can be read off the
front of a text that goes on with the separator, and none starts with the closing
character, the sequence can be read off too.
-/

namespace KnowledgeEngine.DelimitedText

open List TimeText

section

variable {α : Type*} {sep : α}

theorem firstPart_inj {a b x y : List α} (ha : sep ∉ a) (hb : sep ∉ b)
    (h : a ++ sep :: x = b ++ sep :: y) : a = b ∧ x = y := by
  induction a generalizing b with
  | nil =>
    cases b with
    | nil => exact ⟨rfl, (List.cons.inj h).2⟩
    | cons c rest => exact absurd ((List.cons.inj h).1 ▸ mem_cons_self) hb
  | cons c rest ih =>
    cases b with
    | nil => exact absurd ((List.cons.inj h).1 ▸ mem_cons_self) ha
    | cons d rest' =>
      obtain ⟨hhead, htail⟩ := List.cons.inj h
      obtain ⟨hrest, hxy⟩ := ih (fun hmem => ha (mem_cons_of_mem c hmem))
        (fun hmem => hb (mem_cons_of_mem d hmem)) htail
      exact ⟨by rw [hhead, hrest], hxy⟩

theorem lastPart_inj {a b x y : List α} (hx : sep ∉ x) (hy : sep ∉ y)
    (h : a ++ sep :: x = b ++ sep :: y) : a = b ∧ x = y := by
  have hreverse : x.reverse ++ sep :: a.reverse = y.reverse ++ sep :: b.reverse := by
    simpa using congrArg List.reverse h
  obtain ⟨hlast, hrest⟩ := firstPart_inj (by simpa using hx) (by simpa using hy) hreverse
  exact ⟨reverse_injective hrest, reverse_injective hlast⟩

theorem join_ne_nil {parts : List (List α)} (hne : parts ≠ []) (hparts : ∀ p ∈ parts, p ≠ []) :
    [sep].intercalate parts ≠ [] := by
  obtain ⟨p, rest, rfl⟩ := exists_cons_of_ne_nil hne
  have hp := hparts p mem_cons_self
  cases rest with
  | nil => rwa [intercalate_singleton]
  | cons q rest =>
    rw [intercalate_cons_of_ne_nil (by simp)]
    simp

/-- Parts without the separator, none of them empty. -/
def Plain (sep : α) (parts : List (List α)) : Prop := ∀ p ∈ parts, p ≠ [] ∧ sep ∉ p

theorem join_inj [BEq α] [LawfulBEq α] {parts parts' : List (List α)} (h : Plain sep parts)
    (h' : Plain sep parts') (heq : [sep].intercalate parts = [sep].intercalate parts') :
    parts = parts' := by
  by_cases hne : parts = []
  · subst hne
    by_contra hne'
    exact join_ne_nil (fun hnil => hne' hnil.symm) (fun p hp => (h' p hp).1) heq.symm
  · have hne' : parts' ≠ [] := by
      rintro rfl
      exact join_ne_nil hne (fun p hp => (h p hp).1) heq
    rw [← splitOn_intercalate sep (fun p hp => (h p hp).2) hne, heq,
      splitOn_intercalate sep (fun p hp => (h' p hp).2) hne']

end

/-- The text is over or goes on with the separator. -/
abbrev Stops (sep : Char) (text : List Char) : Prop := EndsBefore (· != sep) text

theorem stops_nil {sep : Char} : Stops sep [] := fun _ hc => nomatch hc

theorem stops_cons (sep : Char) (rest : List Char) : Stops sep (sep :: rest) :=
  endsBefore_cons _ _ _ (by simp)

theorem field_append_inj (sep : Char) (a b x y : List Char) (ha : sep ∉ a) (hb : sep ∉ b)
    (hx : Stops sep x) (hy : Stops sep y) (h : a ++ x = b ++ y) : a = b ∧ x = y := by
  refine block_append_inj (· != sep) a b x y ?_ ?_ hx hy h
  · intro c hc
    simpa using fun heq : c = sep => ha (heq ▸ hc)
  · intro c hc
    simpa using fun heq : c = sep => hb (heq ▸ hc)

/-- The items with a separator behind each. -/
def separated {α : Type*} (sep : Char) (enc : α → List Char) (items : List α) : List Char :=
  items.flatMap fun item => enc item ++ [sep]

theorem separated_cons {α : Type*} (sep : Char) (enc : α → List Char) (item : α)
    (items : List α) (x : List Char) : separated sep enc (item :: items) ++ x =
      enc item ++ sep :: (separated sep enc items ++ x) := by
  simp [separated]

/-- An item starts with something other than the closing character. -/
def Opens (close : Char) (text : List Char) : Prop := ∃ c rest, text = c :: rest ∧ c ≠ close

theorem opens_append_ne {close : Char} (text x y : List Char) (h : Opens close text) :
    text ++ x ≠ close :: y := by
  obtain ⟨c, rest, rfl, hne⟩ := h
  intro heq
  exact hne (List.cons.inj heq).1

theorem separated_append_inj {α : Type*} (sep close : Char) (enc : α → List Char)
    (items items' : List α) (x y : List Char)
    (hread : ∀ a ∈ items, ∀ b ∈ items', ∀ u v, Stops sep u → Stops sep v →
      enc a ++ u = enc b ++ v → a = b ∧ u = v)
    (hopen : ∀ a ∈ items, Opens close (enc a)) (hopen' : ∀ b ∈ items', Opens close (enc b))
    (h : separated sep enc items ++ close :: x = separated sep enc items' ++ close :: y) :
    items = items' ∧ x = y := by
  induction items generalizing items' with
  | nil =>
    cases items' with
    | nil => exact ⟨rfl, (List.cons.inj h).2⟩
    | cons b rest' =>
      rw [separated_cons] at h
      exact absurd h.symm (opens_append_ne _ _ _ (hopen' b mem_cons_self))
  | cons a rest ih =>
    cases items' with
    | nil =>
      rw [separated_cons] at h
      exact absurd h (opens_append_ne _ _ _ (hopen a mem_cons_self))
    | cons b rest' =>
      rw [separated_cons, separated_cons] at h
      obtain ⟨hab, hrest⟩ := hread a mem_cons_self b mem_cons_self _ _
        (stops_cons sep _) (stops_cons sep _) h
      obtain ⟨hitems, hxy⟩ := ih rest'
        (fun c hc d hd => hread c (mem_cons_of_mem _ hc) d (mem_cons_of_mem _ hd))
        (fun c hc => hopen c (mem_cons_of_mem _ hc))
        (fun d hd => hopen' d (mem_cons_of_mem _ hd)) (List.cons.inj hrest).2
      exact ⟨by rw [hab, hitems], hxy⟩

end KnowledgeEngine.DelimitedText
