import KnowledgeEngine.GreedyPacking
import KnowledgeEngine.SplitText
import Mathlib.Algebra.GroupWithZero.Nat

/-!
The kb_unit document splitter (clients/splitting/kb_unit/splitter.py): pages, or the
paragraphs of a document without pages, are packed in order into index units of at most
`maxBytes` bytes. A page or paragraph that alone is larger becomes a unit of its own.
-/

namespace KnowledgeEngine.KbUnitSplitter

open GreedyPacking List SplitText

structure Page where
  pageNumber : ℤ
  text : List Char

/-- The two fields of a parse that the splitter reads. -/
structure ParsedDocument where
  markdownContent : List Char
  pages : List Page

structure ChunkPayload where
  chunkIndex : ℕ
  text : List Char
  pageStart : Option ℤ
  pageEnd : Option ℤ

def separator : List Char := ['\n', '\n']

/-- `len(text.encode("utf-8"))`. -/
def utf8Size (text : List Char) : ℕ := (text.map Char.utf8Size).sum

/-- The variables of the loop; `buffer` holds the texts of the unit being packed. -/
structure Loop where
  chunks : List ChunkPayload
  buffer : List (List Char)
  bufferBytes : ℕ
  startPage : Option ℤ
  endPage : Option ℤ

def Loop.empty : Loop := ⟨[], [], 0, none, none⟩

def Loop.flush (p : Loop) : Loop :=
  ⟨p.chunks ++ [⟨p.chunks.length, separator.intercalate p.buffer, p.startPage, p.endPage⟩],
    [], 0, none, none⟩

def Loop.append (p : Loop) (text : List Char) (number : Option ℤ) (addedBytes : ℕ) : Loop :=
  ⟨p.chunks, p.buffer ++ [text], p.bufferBytes + addedBytes, p.startPage.or number, number⟩

def Loop.emitLarge (p : Loop) (maxBytes : ℤ) (itemBytes : ℕ) : Loop :=
  if p.buffer.length = 1 ∧ maxBytes < itemBytes then p.flush else p

section

variable {α : Type*} (maxBytes : ℤ) (text : α → List Char) (number : α → Option ℤ)

/-- One turn of the loop; only pages have a number. -/
def packItem (p : Loop) (item : α) : Loop :=
  let itemBytes := utf8Size (text item)
  let addedBytes := itemBytes + if p.buffer = [] then 0 else utf8Size separator
  if p.buffer ≠ [] ∧ maxBytes < p.bufferBytes + addedBytes then
    (p.flush.append (text item) (number item) itemBytes).emitLarge maxBytes itemBytes
  else (p.append (text item) (number item) addedBytes).emitLarge maxBytes itemBytes

def splitItems (items : List α) : List ChunkPayload :=
  let p := items.foldl (packItem maxBytes text number) Loop.empty
  let chunks := if p.buffer = [] then p.chunks else p.flush.chunks
  if chunks = [] then [⟨0, [], none, none⟩] else chunks

end

def splitPages (pages : List Page) (maxBytes : ℤ) : List ChunkPayload :=
  splitItems maxBytes Page.text (fun page => some page.pageNumber) pages

def splitMarkdown (markdown : List Char) (maxBytes : ℤ) : List ChunkPayload :=
  splitItems maxBytes id (fun _ => none) (split separator markdown)

def splitIntoChunks (parsed : ParsedDocument) (maxBytes : ℤ) : List ChunkPayload :=
  if parsed.pages = [] then splitMarkdown parsed.markdownContent maxBytes
  else splitPages parsed.pages maxBytes

section

variable {α : Type*} {maxBytes : ℤ} {text : α → List Char} {number : α → Option ℤ}

/-- The size of the unit that a group of items makes. -/
def unitSize (text : α → List Char) (group : List α) : ℕ :=
  utf8Size (separator.intercalate (group.map text))

def unit (text : α → List Char) (number : α → Option ℤ) (index : ℕ) (group : List α) :
    ChunkPayload :=
  ⟨index, separator.intercalate (group.map text), group.head?.bind number,
    group.getLast?.bind number⟩

theorem units_index (groups : List (List α)) :
    (groups.mapIdx (unit text number)).map ChunkPayload.chunkIndex = List.range groups.length := by
  apply ext_getElem <;> simp [unit]

theorem units_text (groups : List (List α)) :
    (groups.mapIdx (unit text number)).map ChunkPayload.text =
      groups.map fun group => separator.intercalate (group.map text) := by
  apply ext_getElem <;> simp [unit]

theorem utf8Size_append (s t : List Char) : utf8Size (s ++ t) = utf8Size s + utf8Size t := by
  rw [utf8Size, map_append, sum_append, utf8Size, utf8Size]

theorem unitSize_singleton (a : α) : unitSize text [a] = utf8Size (text a) := by
  rw [unitSize, map_singleton, intercalate_singleton]

theorem unitSize_concat {group : List α} {a : α} (h : group ≠ []) :
    unitSize text (group ++ [a]) =
      unitSize text group + (utf8Size (text a) + utf8Size separator) := by
  rw [unitSize, map_append, intercalate_append (by simpa using h) (by simp),
    map_singleton, intercalate_singleton, utf8Size_append, utf8Size_append, unitSize]
  omega

theorem unitSize_mono (group : List α) (a : α) :
    unitSize text group ≤ unitSize text (group ++ [a]) := by
  cases group with
  | nil => exact Nat.zero_le _
  | cons b rest =>
    rw [unitSize_concat (cons_ne_nil _ _)]
    omega

/-- The loop's variables after it has closed some groups and is packing another one. -/
def loopAt (text : α → List Char) (number : α → Option ℤ) (groups : List (List α))
    (buffer : List α) : Loop :=
  ⟨groups.mapIdx (unit text number), buffer.map text, unitSize text buffer,
    buffer.head?.bind number, buffer.getLast?.bind number⟩

theorem loopAt_flush (groups : List (List α)) (buffer : List α) :
    (loopAt text number groups buffer).flush = loopAt text number (groups ++ [buffer]) [] := by
  rw [Loop.flush, loopAt, loopAt, mapIdx_concat, length_mapIdx]
  rfl

variable (hnumber : ∀ a b, (number a).isSome = (number b).isSome)
include hnumber

theorem loopAt_append {groups : List (List α)} {buffer : List α} {a : α} {addedBytes : ℕ}
    (hbytes : unitSize text (buffer ++ [a]) = unitSize text buffer + addedBytes) :
    (loopAt text number groups buffer).append (text a) (number a) addedBytes =
      loopAt text number groups (buffer ++ [a]) := by
  have hstart : (buffer.head?.bind number).or (number a) = (buffer ++ [a]).head?.bind number := by
    cases buffer with
    | nil => rfl
    | cons b rest =>
      have hsome := hnumber a b
      cases hb : number b with
      | none =>
        rw [hb, Option.isSome_none, Option.isSome_eq_false_iff, Option.isNone_iff_eq_none] at hsome
        simp [hb, hsome]
      | some n => simp [hb]
  simp only [loopAt, Loop.append, hstart, hbytes, map_append, map_singleton,
    List.getLast?_concat, Option.bind_some]

/-- The item that opens a group may alone exceed the ceiling. -/
theorem loopAt_open (groups : List (List α)) (a : α) :
    ((loopAt text number groups []).append (text a) (number a) (utf8Size (text a))).emitLarge
        maxBytes (utf8Size (text a)) =
      if maxBytes < unitSize text [a] then loopAt text number (groups ++ [[a]]) []
      else loopAt text number groups [a] := by
  have hbytes : unitSize text ([] ++ [a]) = unitSize text [] + utf8Size (text a) := by
    rw [nil_append, unitSize_singleton]
    exact (Nat.zero_add _).symm
  rw [loopAt_append hnumber hbytes, nil_append, Loop.emitLarge, loopAt_flush,
    unitSize_singleton]
  simp [loopAt]

theorem packItem_packing {items : List α} {groups : List (List α)} {buffer : List α}
    (h : Packing (unitSize text) maxBytes items groups buffer) (a : α) :
    ∃ groups' buffer', packItem maxBytes text number (loopAt text number groups buffer) a =
        loopAt text number groups' buffer' ∧
      Packing (unitSize text) maxBytes (items ++ [a]) groups' buffer' := by
  by_cases hne : buffer = []
  · subst hne
    have hturn : packItem maxBytes text number (loopAt text number groups []) a =
        if maxBytes < unitSize text [a] then loopAt text number (groups ++ [[a]]) []
        else loopAt text number groups [a] := by
      rw [← loopAt_open hnumber]
      simp [packItem, loopAt]
    rw [hturn]
    split
    · next hlarge =>
      exact ⟨_, _, rfl, h.finish.alone unitSize_mono hlarge fun g hg => h.last g hg a rfl⟩
    · next hfits => exact ⟨_, _, rfl, h.add (Int.not_lt.mp hfits)⟩
  · have hsize : unitSize text (buffer ++ [a]) = _ := unitSize_concat hne
    have hbuffer : (loopAt text number groups buffer).buffer ≠ [] := by simpa [loopAt] using hne
    have hturn : packItem maxBytes text number (loopAt text number groups buffer) a =
        if maxBytes < unitSize text (buffer ++ [a]) then
          ((loopAt text number (groups ++ [buffer]) []).append (text a) (number a)
            (utf8Size (text a))).emitLarge maxBytes (utf8Size (text a))
        else (loopAt text number groups (buffer ++ [a])).emitLarge maxBytes
          (utf8Size (text a)) := by
      rw [← loopAt_append hnumber hsize, hsize, Int.natCast_add]
      simp only [packItem, hbuffer, ne_eq, not_false_eq_true, true_and, loopAt_flush]
      rfl
    by_cases hfull : maxBytes < unitSize text (buffer ++ [a])
    · rw [hturn, if_pos hfull, loopAt_open hnumber]
      split
      · next hlarge =>
        refine ⟨_, _, rfl, (h.close hne).alone unitSize_mono hlarge fun g hg => ?_⟩
        rw [List.getLast?_concat, Option.mem_some_iff] at hg
        exact hg ▸ hfull
      · next hfits => exact ⟨_, _, rfl, h.next hne hfull (Int.not_lt.mp hfits)⟩
    · refine ⟨_, _, ?_, h.add (Int.not_lt.mp hfull)⟩
      rw [hturn, if_neg hfull, Loop.emitLarge, if_neg]
      simp [loopAt, hne]

variable (maxBytes text number)

theorem foldl_packing {items : List α} :
    ∃ groups buffer, items.foldl (packItem maxBytes text number) Loop.empty =
        loopAt text number groups buffer ∧
      Packing (unitSize text) maxBytes items groups buffer := by
  induction items using List.reverseRecOn with
  | nil => exact ⟨[], [], rfl, .start⟩
  | append_singleton items a ih =>
    obtain ⟨groups, buffer, hloop, hpacking⟩ := ih
    rw [foldl_concat, hloop]
    exact packItem_packing hnumber hpacking a

theorem splitItems_packed {items : List α} (hne : items ≠ []) :
    ∃ groups, groups ≠ [] ∧ Packed (unitSize text) maxBytes items groups ∧
      splitItems maxBytes text number items = groups.mapIdx (unit text number) := by
  obtain ⟨groups, buffer, hloop, hpacking⟩ := foldl_packing maxBytes text number hnumber
  by_cases hbuffer : buffer = []
  · subst hbuffer
    have hgroups : groups ≠ [] := by
      rintro rfl
      exact hne hpacking.cover.symm
    refine ⟨groups, hgroups, hpacking.finish, ?_⟩
    simp [splitItems, hloop, loopAt, hgroups]
  · refine ⟨groups ++ [buffer], by simp, hpacking.close hbuffer, ?_⟩
    simp only [splitItems, hloop, loopAt_flush]
    simp [loopAt, hbuffer]

end

/-- For every parsed document and every ceiling: the units are numbered from 0 and at least
one; they are the pages, or the paragraphs, in order, each joined from a group of them with
the first and last page numbers; each group is within the ceiling or a single item, and
none has room for the first item of the next one. Without pages the units join to the
document. -/
theorem splitIntoChunks_lossless_tight (parsed : ParsedDocument) (maxBytes : ℤ) :
    splitIntoChunks parsed maxBytes ≠ [] ∧
      (splitIntoChunks parsed maxBytes).map ChunkPayload.chunkIndex =
        List.range (splitIntoChunks parsed maxBytes).length ∧
      (parsed.pages = [] →
        separator.intercalate ((splitIntoChunks parsed maxBytes).map ChunkPayload.text) =
            parsed.markdownContent ∧
          ∃ groups, Packed (unitSize id) maxBytes (split separator parsed.markdownContent) groups ∧
            splitIntoChunks parsed maxBytes = groups.mapIdx fun index group =>
              ⟨index, separator.intercalate group, none, none⟩) ∧
      (parsed.pages ≠ [] →
        ∃ groups, Packed (unitSize Page.text) maxBytes parsed.pages groups ∧
          splitIntoChunks parsed maxBytes = groups.mapIdx fun index group =>
            ⟨index, separator.intercalate (group.map Page.text), group.head?.map Page.pageNumber,
              group.getLast?.map Page.pageNumber⟩) := by
  by_cases hpages : parsed.pages = []
  · obtain ⟨groups, hne, hpacked, hunits⟩ := splitItems_packed maxBytes id (fun _ => none)
      (fun _ _ => rfl) split_ne_nil
    have hchunks : splitIntoChunks parsed maxBytes = groups.mapIdx (unit id fun _ => none) := by
      rw [splitIntoChunks, if_pos hpages, splitMarkdown, hunits]
    refine ⟨by simpa [hchunks] using hne, by rw [hchunks, units_index, length_mapIdx],
      fun _ => ⟨?_, groups, hpacked, ?_⟩, fun h => absurd hpages h⟩
    · have htexts : (splitIntoChunks parsed maxBytes).map ChunkPayload.text =
          groups.map separator.intercalate := by
        rw [hchunks, units_text]
        simp only [map_id]
      rw [htexts, intercalate_groups hpacked.nonempty, hpacked.cover,
        intercalate_split separator (by decide)]
    · rw [hchunks]
      congr 1
      funext index group
      simp [unit]
  · obtain ⟨groups, hne, hpacked, hunits⟩ := splitItems_packed maxBytes Page.text
      (fun page => some page.pageNumber) (fun _ _ => rfl) hpages
    have hchunks : splitIntoChunks parsed maxBytes =
        groups.mapIdx (unit Page.text fun page => some page.pageNumber) := by
      rw [splitIntoChunks, if_neg hpages, splitPages, hunits]
    refine ⟨by simpa [hchunks] using hne, by rw [hchunks, units_index, length_mapIdx],
      fun h => absurd h hpages, fun _ => ⟨groups, hpacked, ?_⟩⟩
    rw [hchunks]
    congr 1
    funext index group
    simp only [unit, Option.map_eq_bind]
    rfl

end KnowledgeEngine.KbUnitSplitter
