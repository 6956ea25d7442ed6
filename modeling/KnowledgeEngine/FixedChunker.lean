import KnowledgeEngine.GreedyPacking
import KnowledgeEngine.SplitText

/-!
The fixed chunker (clients/chunking/fixed/chunker.py): stripped paragraphs are packed
together up to `maxChars` characters, a longer paragraph is cut at spaces, or anywhere when
there is no space to cut at. A Python str is a list of code points.
-/

namespace KnowledgeEngine.FixedChunker

open GreedyPacking List SplitText

abbrev CodePoint := Fin 0x110000

abbrev Str := List CodePoint

def space : CodePoint := ⟨0x20, by decide⟩

def newline : CodePoint := ⟨0x0a, by decide⟩

/-- str.isspace of one character. -/
def isSpace (c : CodePoint) : Bool :=
  (0x09 ≤ c.val && c.val ≤ 0x0d) || (0x1c ≤ c.val && c.val ≤ 0x20) || c.val == 0x85 ||
    c.val == 0xa0 || c.val == 0x1680 || (0x2000 ≤ c.val && c.val ≤ 0x200a) || c.val == 0x2028 ||
    c.val == 0x2029 || c.val == 0x202f || c.val == 0x205f || c.val == 0x3000

def blankLine : Str := [newline, newline]

/-- The last position of a character; Python's -1 is none. -/
def rfind (c : CodePoint) : Str → Option ℕ
  | [] => none
  | d :: rest =>
    match rfind c rest with
    | some i => some (i + 1)
    | none => if d = c then some 0 else none

/-- Where the remaining text is cut. -/
def cutAt (maxChars : ℕ) (remaining : Str) : ℕ :=
  match rfind space (remaining.take maxChars) with
  | some (i + 1) => i + 1
  | _ => maxChars

/-- The while loop of `_hard_split`, for at most `fuel` turns. -/
def hardLoop (maxChars : ℕ) : ℕ → Str → Option (List Str)
  | fuel, remaining =>
    if remaining.length ≤ maxChars then some (if remaining = [] then [] else [remaining])
    else
      match fuel with
      | 0 => none
      | fuel + 1 =>
        let cut := cutAt maxChars remaining
        (hardLoop maxChars fuel (strip isSpace (remaining.drop cut))).map
          (strip isSpace (remaining.take cut) :: ·)

/-- Every turn shortens the text, so its length bounds the turns. -/
def hardSplit (maxChars : ℕ) (paragraph : Str) : Option (List Str) :=
  if paragraph.length ≤ maxChars then some [paragraph]
  else (hardLoop maxChars paragraph.length paragraph).map fun pieces => pieces.filter (· ≠ [])

/-- One turn of the packing loop on the chunks and the current one. -/
def packPiece (maxChars : ℕ) (s : List Str × Str) (piece : Str) : List Str × Str :=
  if s.2 = [] then (s.1, piece)
  else if s.2.length + 2 + piece.length ≤ maxChars then (s.1, s.2 ++ blankLine ++ piece)
  else (s.1 ++ [s.2], piece)

def packAll (maxChars : ℕ) (pieces : List Str) : List Str :=
  let s := pieces.foldl (packPiece maxChars) ([], [])
  if s.2 = [] then s.1 else s.1 ++ [s.2]

def paragraphs (text : Str) : List Str :=
  ((split blankLine text).map (strip isSpace)).filter (· ≠ [])

/-- chunk_text; none stands for a run that does not end. -/
def chunkText (text : Str) (maxChars : ℕ) : Option (List Str) :=
  ((paragraphs text).mapM (hardSplit maxChars)).map fun pieces => packAll maxChars pieces.flatten

/-- The words of a paragraph stand with one space between them. -/
def SingleSpaced (paragraph : Str) : Prop :=
  ∃ words : List Str, (∀ w ∈ words, w ≠ [] ∧ ∀ c ∈ w, isSpace c = false) ∧
    strip isSpace paragraph = [space].intercalate words

/-- A maximal run without white space. -/
structure IsWord (pre word post : Str) : Prop where
  nonempty : word ≠ []
  solid : ∀ c ∈ word, isSpace c = false
  starts : ∀ c ∈ pre.getLast?, isSpace c = true
  ends : ∀ c ∈ post.head?, isSpace c = true

theorem rfind_some (c : CodePoint) (text : Str) (i : ℕ) (h : rfind c text = some i) :
    text[i]? = some c := by
  induction text generalizing i with
  | nil => cases h
  | cons d rest ih =>
    rw [rfind] at h
    split at h
    · next j hj =>
      cases h
      exact ih j hj
    · split at h <;> cases h
      next hd => rw [hd, List.getElem?_cons_zero]

theorem le_rfind (c : CodePoint) (text : Str) (j : ℕ) (h : text[j]? = some c) :
    ∃ i, rfind c text = some i ∧ j ≤ i := by
  induction text generalizing j with
  | nil => simp at h
  | cons d rest ih =>
    rw [rfind]
    cases j with
    | zero =>
      rw [List.getElem?_cons_zero, Option.some.injEq] at h
      cases hrest : rfind c rest with
      | some i => exact ⟨i + 1, rfl, by omega⟩
      | none => exact ⟨0, if_pos h, Nat.le_refl 0⟩
    | succ j =>
      obtain ⟨i, hi, hle⟩ := ih j h
      exact ⟨i + 1, by rw [hi], by omega⟩

variable {maxChars : ℕ}

/-- The text is cut within the bound, at a space or, when none stands behind its first
character, at the bound. -/
theorem cutAt_spec (hmax : 1 ≤ maxChars) (remaining : Str) :
    1 ≤ cutAt maxChars remaining ∧ cutAt maxChars remaining ≤ maxChars ∧
      (remaining[cutAt maxChars remaining]? = some space ∨
        cutAt maxChars remaining = maxChars ∧
          ∀ j, 0 < j → j < maxChars → remaining[j]? ≠ some space) := by
  have hnone (hfirst : ∀ i, rfind space (remaining.take maxChars) = some i → i = 0) :
      ∀ j, 0 < j → j < maxChars → remaining[j]? ≠ some space := by
    intro j hpos hlt hj
    rw [← List.getElem?_take_of_lt hlt] at hj
    obtain ⟨i, hi, hle⟩ := le_rfind space _ j hj
    have hzero := hfirst i hi
    omega
  unfold cutAt
  split
  · next i hi =>
    have hget := rfind_some space _ (i + 1) hi
    have hlt : i + 1 < maxChars := by
      have hlength := (List.getElem?_eq_some_iff.mp hget).1
      rw [length_take] at hlength
      omega
    rw [List.getElem?_take_of_lt hlt] at hget
    exact ⟨by omega, by omega, .inl hget⟩
  · next hother =>
    refine ⟨hmax, Nat.le_refl _, .inr ⟨rfl, hnone fun i hi => ?_⟩⟩
    cases i with
    | zero => rfl
    | succ i => exact absurd hi (hother i)

/-- A word that is not cut: shorter than the bound, behind nothing or behind a space. -/
structure ShortWord (maxChars : ℕ) (pre word : Str) : Prop where
  nonempty : word ≠ []
  solid : ∀ c ∈ word, isSpace c = false
  short : word.length < maxChars
  behind : ∀ c ∈ pre.getLast?, c = space

/-- The pieces of a text: bounded, without a letter lost and without a short word cut. -/
structure Cuts (maxChars : ℕ) (text : Str) (pieces : List Str) : Prop where
  bounded : ∀ piece ∈ pieces, piece.length ≤ maxChars
  kept : letters isSpace pieces.flatten = letters isSpace text
  unbroken : ∀ pre word post, text = pre ++ word ++ post → ShortWord maxChars pre word →
    Unbroken isSpace pieces pre word

theorem cuts_whole (maxChars : ℕ) (text : Str) (h : text.length ≤ maxChars) :
    Cuts maxChars text (if text = [] then [] else [text]) := by
  split
  · next hnil =>
    subst hnil
    refine ⟨nofun, rfl, fun pre word post hsplit hword => ?_⟩
    have hlength := congrArg List.length hsplit
    have hpos := length_pos_iff.mpr hword.nonempty
    simp only [length_nil, length_append] at hlength
    omega
  · refine ⟨by simpa using h, by rw [flatten_singleton], ?_⟩
    rintro pre word post rfl hword
    exact Unbroken.of_piece pre post rfl

/-- A short word is on one side of the cut. -/
theorem shortWord_side (hmax : 1 ≤ maxChars) {pre word : Str} {post : Str}
    (h : ShortWord maxChars pre word) :
    pre.length + word.length ≤ cutAt maxChars (pre ++ word ++ post) ∨
      cutAt maxChars (pre ++ word ++ post) ≤ pre.length := by
  obtain ⟨hpos, hle, hcut⟩ := cutAt_spec hmax (pre ++ word ++ post)
  generalize cutAt maxChars (pre ++ word ++ post) = cut at *
  by_contra hinside
  rw [not_or, Nat.not_le, Nat.not_le] at hinside
  obtain ⟨hend, hstart⟩ := hinside
  rcases hcut with hspace | ⟨rfl, hnone⟩
  · rw [append_assoc, List.getElem?_append_right (by omega),
      List.getElem?_append_left (by omega)] at hspace
    have hsolid := h.solid space (mem_of_getElem? hspace)
    exact absurd hsolid (by decide)
  · rcases eq_nil_or_concat' pre with rfl | ⟨front, c, rfl⟩
    · have hshort := h.short
      simp only [length_nil] at hend
      omega
    · have hc := h.behind c (by simp)
      subst hc
      have hshort := h.short
      simp only [length_append, length_singleton] at hend hstart
      refine hnone front.length (by omega) (by omega) ?_
      simp

variable {pieces : List Str}

/-- One turn of the loop. -/
theorem Cuts.turn {cut : ℕ} {remaining : Str} (hcut : cut ≤ maxChars)
    (hside : ∀ pre word post, remaining = pre ++ word ++ post → ShortWord maxChars pre word →
      pre.length + word.length ≤ cut ∨ cut ≤ pre.length)
    (h : Cuts maxChars (strip isSpace (remaining.drop cut)) pieces) :
    Cuts maxChars remaining (strip isSpace (remaining.take cut) :: pieces) where
  bounded := by
    refine forall_mem_cons.mpr ⟨?_, h.bounded⟩
    have hstrip := length_strip_le isSpace (remaining.take cut)
    rw [length_take] at hstrip
    omega
  kept := by
    rw [flatten_cons, letters_append, h.kept, letters_strip, letters_strip, ← letters_append,
      take_append_drop]
  unbroken := by
    rintro pre word post rfl hword
    rw [← singleton_append]
    rcases hside pre word post rfl hword with hleft | hright
    · rw [take_append, take_of_length_le (by simpa using hleft),
        strip_word isSpace _ _ _ hword.nonempty hword.solid]
      exact (Unbroken.of_piece _ _ (letters_dropWhile isSpace pre)).append_right pieces
    · rw [append_assoc, drop_append_of_le_length hright, ← append_assoc,
        strip_word isSpace _ _ _ hword.nonempty hword.solid] at h
      have hbehind : ∀ c ∈ ((pre.drop cut).dropWhile isSpace).getLast?, c = space := by
        intro c hc
        obtain ⟨front, hfront⟩ := (dropWhile_suffix isSpace).trans (drop_suffix cut pre)
        refine hword.behind c ?_
        rw [← hfront, List.getLast?_append, hc]
        rfl
      have hrest := h.unbroken _ word _ rfl ⟨hword.nonempty, hword.solid, hword.short, hbehind⟩
      rw [append_assoc, take_append_of_le_length hright]
      refine (hrest.append_left [strip isSpace (pre.take cut)] (pre.take cut) ?_).congr ?_
      · rw [flatten_singleton, letters_strip]
      · rw [letters_append, letters_dropWhile, ← letters_append, take_append_drop]

theorem hardLoop_cuts (maxChars : ℕ) (hmax : 1 ≤ maxChars) (fuel : ℕ) (remaining : Str)
    (hfuel : remaining.length ≤ fuel) :
    ∃ pieces, hardLoop maxChars fuel remaining = some pieces ∧ Cuts maxChars remaining pieces := by
  induction fuel generalizing remaining with
  | zero =>
    refine ⟨_, ?_, cuts_whole maxChars remaining (by omega)⟩
    rw [hardLoop, if_pos (by omega)]
  | succ fuel ih =>
    by_cases hfits : remaining.length ≤ maxChars
    · exact ⟨_, by rw [hardLoop, if_pos hfits], cuts_whole maxChars remaining hfits⟩
    · have hshorter :
          (strip isSpace (remaining.drop (cutAt maxChars remaining))).length ≤ fuel := by
        have hstrip := length_strip_le isSpace (remaining.drop (cutAt maxChars remaining))
        have hcut := (cutAt_spec hmax remaining).1
        rw [length_drop] at hstrip
        omega
      obtain ⟨pieces, hloop, hcuts⟩ := ih _ hshorter
      refine ⟨_, ?_, hcuts.turn (cutAt_spec hmax remaining).2.1 ?_⟩
      on_goal 2 =>
        rintro pre word post rfl hword
        exact shortWord_side hmax hword
      rw [hardLoop, if_neg hfits]
      simp only [hloop, Option.map_some]

theorem hardSplit_cuts (hmax : 1 ≤ maxChars) {paragraph : Str} (hne : paragraph ≠ []) :
    ∃ pieces, hardSplit maxChars paragraph = some pieces ∧
      Cuts maxChars paragraph pieces ∧ ∀ piece ∈ pieces, piece ≠ [] := by
  rw [hardSplit]
  split
  · next hfits =>
    have hcuts := cuts_whole maxChars paragraph hfits
    rw [if_neg hne] at hcuts
    exact ⟨_, rfl, hcuts, by simpa using hne⟩
  · obtain ⟨pieces, hloop, hcuts⟩ :=
      hardLoop_cuts maxChars hmax paragraph.length paragraph (Nat.le_refl _)
    refine ⟨_, by rw [hloop, Option.map_some], ?_, by simp⟩
    exact {
      bounded := fun piece hpiece => hcuts.bounded piece (mem_of_mem_filter hpiece)
      kept := by rw [flatten_filter_ne_nil, hcuts.kept]
      unbroken := fun pre word post hsplit hword =>
        (hcuts.unbroken pre word post hsplit hword).filter_ne_nil hword.nonempty }

theorem mapM_hardSplit (maxChars : ℕ) (hmax : 1 ≤ maxChars) (paras : List Str)
    (hne : ∀ paragraph ∈ paras, paragraph ≠ []) :
    ∃ pieces, paras.mapM (hardSplit maxChars) = some pieces ∧
      (∀ piece ∈ pieces.flatten, piece ≠ [] ∧ piece.length ≤ maxChars) ∧
      letters isSpace pieces.flatten.flatten = letters isSpace paras.flatten ∧
      ∀ before paragraph after, paras = before ++ paragraph :: after →
        ∀ pre word post, paragraph = pre ++ word ++ post → ShortWord maxChars pre word →
          Unbroken isSpace pieces.flatten (before.flatten ++ pre) word := by
  induction paras with
  | nil => exact ⟨[], rfl, nofun, rfl, fun before _ _ h => by simp at h⟩
  | cons first rest ih =>
    obtain ⟨hfirst, hrest⟩ := forall_mem_cons.mp hne
    obtain ⟨pieces, hsplit, hcuts, hsolid⟩ := hardSplit_cuts hmax hfirst
    obtain ⟨more, hmore, hbounded, hkept, hunbroken⟩ := ih hrest
    refine ⟨pieces :: more, by rw [mapM_cons, hsplit, hmore]; rfl, ?_, ?_, ?_⟩
    · rw [flatten_cons, forall_mem_append]
      exact ⟨fun piece h => ⟨hsolid piece h, hcuts.bounded piece h⟩, hbounded⟩
    · rw [flatten_cons, letters_flatten_append, hcuts.kept, hkept, flatten_cons,
        letters_append]
    · intro before paragraph after heq pre word post hpara hword
      rw [flatten_cons]
      cases before with
      | nil =>
        obtain ⟨rfl, rfl⟩ := List.cons.inj heq
        exact (hcuts.unbroken pre word post hpara hword).append_right _
      | cons head before =>
        obtain ⟨rfl, htail⟩ := List.cons.inj heq
        rw [flatten_cons, append_assoc]
        exact (hunbroken before paragraph after htail pre word post hpara hword).append_left
          pieces first hcuts.kept

/-- The length of the chunk that some pieces make. -/
def chunkLength (pieces : List Str) : ℕ := (blankLine.intercalate pieces).length

theorem chunkLength_concat (piece : Str) (h : pieces ≠ []) :
    chunkLength (pieces ++ [piece]) = chunkLength pieces + 2 + piece.length := by
  rw [chunkLength, intercalate_append h (cons_ne_nil _ _),
    intercalate_singleton, length_append, length_append, chunkLength]
  rfl

theorem chunk_ne_nil (h : pieces ≠ []) (hsolid : ∀ piece ∈ pieces, piece ≠ []) :
    blankLine.intercalate pieces ≠ [] := by
  obtain ⟨first, rest, rfl⟩ := exists_cons_of_ne_nil h
  have hfirst := hsolid first mem_cons_self
  cases rest with
  | nil => simpa using hfirst
  | cons next rest => simp [intercalate_cons_cons, hfirst]

theorem foldl_packPiece (h : ∀ piece ∈ pieces, piece ≠ [] ∧ piece.length ≤ maxChars) :
    ∃ groups buffer, pieces.foldl (packPiece maxChars) ([], []) =
        (groups.map blankLine.intercalate, blankLine.intercalate buffer) ∧
      Packing chunkLength maxChars pieces groups buffer := by
  induction pieces using List.reverseRecOn with
  | nil => exact ⟨[], [], rfl, .start⟩
  | append_singleton pieces piece ih =>
    obtain ⟨hpieces, hpiece⟩ := forall_mem_append.mp h
    obtain ⟨hsolid, hfits⟩ := hpiece piece (by simp)
    obtain ⟨groups, buffer, hfold, hpacking⟩ := ih hpieces
    have hsingle : chunkLength [piece] = piece.length := by
      rw [chunkLength, intercalate_singleton]
    rw [foldl_concat, hfold, packPiece]
    by_cases hbuffer : buffer = []
    · subst hbuffer
      refine ⟨groups, [piece], by simp, ?_⟩
      exact hpacking.add (by rw [nil_append, hsingle]; omega)
    · have hcurrent : blankLine.intercalate buffer ≠ [] :=
        chunk_ne_nil hbuffer fun x hx =>
          (hpieces x (hpacking.cover ▸ mem_append_right _ hx)).1
      have hlength := chunkLength_concat piece hbuffer
      rw [if_neg hcurrent]
      split
      · next hroom =>
        have hless : chunkLength buffer + 2 + piece.length ≤ maxChars := hroom
        refine ⟨groups, buffer ++ [piece], ?_, hpacking.add (by omega)⟩
        rw [intercalate_append hbuffer (cons_ne_nil _ _), intercalate_singleton]
      · next hfull =>
        refine ⟨groups ++ [buffer], [piece], by simp, hpacking.next hbuffer ?_ ?_⟩
        · have hmore : ¬ chunkLength buffer + 2 + piece.length ≤ maxChars := hfull
          omega
        · rw [hsingle]
          omega

theorem packAll_packed (maxChars : ℕ) (pieces : List Str)
    (h : ∀ piece ∈ pieces, piece ≠ [] ∧ piece.length ≤ maxChars) :
    ∃ groups, Packed chunkLength maxChars pieces groups ∧
      packAll maxChars pieces = groups.map blankLine.intercalate := by
  obtain ⟨groups, buffer, hfold, hpacking⟩ := foldl_packPiece h
  by_cases hbuffer : buffer = []
  · subst hbuffer
    exact ⟨groups, hpacking.finish, by simp [packAll, hfold]⟩
  · have hcurrent : blankLine.intercalate buffer ≠ [] :=
      chunk_ne_nil hbuffer fun x hx =>
        (h x (hpacking.cover ▸ mem_append_right _ hx)).1
    refine ⟨groups ++ [buffer], hpacking.close hbuffer, ?_⟩
    simp [packAll, hfold, hcurrent]

theorem blankLine_space : ∀ c ∈ blankLine, isSpace c = true := by
  simp only [blankLine, forall_mem_cons]
  exact ⟨rfl, rfl, nofun⟩

/-- The stripped paragraphs hold the letters of the parts of a text. -/
theorem letters_paragraphs (parts : List Str) :
    letters isSpace ((parts.map (strip isSpace)).filter (· ≠ [])).flatten =
      letters isSpace parts.flatten := by
  rw [flatten_filter_ne_nil]
  induction parts with
  | nil => rfl
  | cons part rest ih =>
    rw [map_cons, flatten_cons, letters_append, letters_strip, ih, ← letters_append,
      flatten_cons]

theorem singleSpaced_space {paragraph : Str} (h : SingleSpaced paragraph) :
    ∀ c ∈ strip isSpace paragraph, isSpace c = true → c = space := by
  obtain ⟨words, hwords, hstrip⟩ := h
  rw [hstrip]
  clear hstrip
  induction words with
  | nil => simp
  | cons w rest ih =>
    obtain ⟨hw, hrest⟩ := forall_mem_cons.mp hwords
    have hsolid : ∀ c ∈ w, isSpace c = true → c = space := by
      intro c hc hspace
      rw [hw.2 c hc] at hspace
      cases hspace
    cases rest with
    | nil => simpa using hsolid
    | cons next rest =>
      rw [intercalate_cons_cons, forall_mem_append, forall_mem_append]
      exact ⟨⟨hsolid, by simp⟩, ih hrest⟩

/-- A word of a paragraph is a short word of the stripped paragraph. -/
theorem IsWord.short {pre word post : Str} (h : IsWord pre word post)
    (hlength : word.length < maxChars) (hspaced : SingleSpaced (pre ++ word ++ post)) :
    ShortWord maxChars (pre.dropWhile isSpace) word := by
  refine ⟨h.nonempty, h.solid, hlength, fun c hc => ?_⟩
  obtain ⟨front, hfront⟩ := dropWhile_suffix isSpace (l := pre)
  have hlast : c ∈ pre.getLast? := by
    rw [← hfront, List.getLast?_append, hc]
    rfl
  refine singleSpaced_space hspaced c ?_ (h.starts c hlast)
  rw [strip_word isSpace _ _ _ h.nonempty h.solid]
  exact mem_append_left _ (mem_append_left _ (mem_of_mem_getLast? hc))

/-- For every text and every bound from 1 on the chunker ends: its chunks are not empty and
within the bound, white space apart they are the text, and no word shorter than the bound
is cut in a paragraph whose words stand with one space between them. -/
theorem chunkText_lossless (text : Str) (maxChars : ℕ) (hmax : 1 ≤ maxChars) :
    ∃ chunks, chunkText text maxChars = some chunks ∧
      (∀ chunk ∈ chunks, chunk ≠ [] ∧ chunk.length ≤ maxChars) ∧
      letters isSpace chunks.flatten = letters isSpace text ∧
      ∀ before paragraph after, split blankLine text = before ++ paragraph :: after →
        SingleSpaced paragraph → ∀ pre word post, paragraph = pre ++ word ++ post →
          IsWord pre word post → word.length < maxChars →
            Unbroken isSpace chunks (before.flatten ++ pre) word := by
  obtain ⟨pieces, hmap, hpieces, hkept, hunbroken⟩ := mapM_hardSplit maxChars hmax (paragraphs text)
    (fun paragraph h => by simpa using (mem_filter.mp h).2)
  obtain ⟨groups, hpacked, hpack⟩ := packAll_packed maxChars pieces.flatten hpieces
  refine ⟨groups.map blankLine.intercalate, by rw [chunkText, hmap, Option.map_some, hpack],
    ?_, ?_, ?_⟩
  · intro chunk hchunk
    obtain ⟨g, hg, rfl⟩ := mem_map.mp hchunk
    have hsolid : ∀ piece ∈ g, piece ≠ [] ∧ piece.length ≤ maxChars := fun piece hpiece =>
      hpieces piece (hpacked.cover ▸ mem_flatten_of_mem hg hpiece)
    refine ⟨chunk_ne_nil (hpacked.nonempty g hg) fun piece hpiece => (hsolid piece hpiece).1, ?_⟩
    rcases hpacked.bounded g hg with hbounded | ⟨piece, rfl⟩
    · exact_mod_cast hbounded
    · simpa using (hsolid piece (by simp)).2
  · rw [← letters_intercalate isSpace blankLine_space,
      intercalate_groups hpacked.nonempty, hpacked.cover,
      letters_intercalate isSpace blankLine_space, hkept, paragraphs, letters_paragraphs,
      ← letters_intercalate isSpace blankLine_space,
      intercalate_split blankLine (cons_ne_nil _ _)]
  · rintro before paragraph after hsplit hspaced pre word post rfl hword hlength
    have hstrip := strip_word isSpace pre word post hword.nonempty hword.solid
    have hparts : paragraphs text = (before.map (strip isSpace)).filter (· ≠ []) ++
        (pre.dropWhile isSpace ++ word ++ post.rdropWhile isSpace) ::
          (after.map (strip isSpace)).filter (· ≠ []) := by
      rw [paragraphs, hsplit, map_append, map_cons, hstrip, filter_append,
        filter_cons_of_pos (by simp [hword.nonempty])]
    have hpiece := hunbroken _ _ _ hparts _ word _ rfl (hword.short hlength hspaced)
    rw [← hpacked.cover] at hpiece
    refine (hpiece.groups blankLine blankLine_space).congr ?_
    rw [letters_append, letters_paragraphs, letters_dropWhile, ← letters_append]

def ab : Str := [⟨0x61, by decide⟩, ⟨0x62, by decide⟩]

theorem chunkText_lossless_pair : 1 ≤ 3 ∧ SingleSpaced (ab ++ space :: ab) ∧
    IsWord [] ab (space :: ab) ∧ chunkText (ab ++ space :: ab) 3 = some [ab, ab] ∧
      Unbroken isSpace [ab, ab] [] ab := by
  have hsolid : ∀ c ∈ ab, isSpace c = false := by
    simp only [ab, forall_mem_cons]
    exact ⟨rfl, rfl, nofun⟩
  have hspaced : SingleSpaced (ab ++ space :: ab) :=
    ⟨[ab, ab], by simpa [ab] using hsolid, rfl⟩
  have hword : IsWord [] ab (space :: ab) :=
    ⟨cons_ne_nil _ _, hsolid, nofun, fun c hc => by cases hc; rfl⟩
  have hchunks : chunkText (ab ++ space :: ab) 3 = some [ab, ab] := rfl
  obtain ⟨chunks, hsome, _, _, hunbroken⟩ := chunkText_lossless (ab ++ space :: ab) 3 (by decide)
  cases hchunks.symm.trans hsome
  exact ⟨by decide, hspaced, hword, hchunks,
    hunbroken [] _ [] rfl hspaced [] ab (space :: ab) rfl hword (by decide)⟩

end KnowledgeEngine.FixedChunker
