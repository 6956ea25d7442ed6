import KnowledgeEngine.ByteText
import KnowledgeEngine.CoreTypes

/-!
The file-backed credential source (clients/secrets/file): a dotenv-style file of
KEY=value lines that Get reads and Put rewrites. Files, keys and values are byte
strings. The outcomes of the file system and of `git check-ignore` are inputs.
-/

namespace KnowledgeEngine.CredentialFile

open ByteText CoreTypes List

/-- The bytes of "export ". -/
def exportWord : Bytes := [0x65, 0x78, 0x70, 0x6F, 0x72, 0x74, 0x20]

def newline : UInt8 := 0x0A

def equals : UInt8 := 0x3D

/-- strings.TrimPrefix of "export ". -/
def trimExport (text : Bytes) : Bytes :=
  if exportWord.isPrefixOf text then text.drop exportWord.length else text

def unquote (v : Bytes) : Bytes :=
  if 2 ≤ v.length ∧ (v.head? = some 0x22 ∨ v.head? = some 0x27) ∧ v.getLast? = v.head? then
    v.tail.dropLast
  else v

/-- The key and the value of a line, none for a blank line, a comment or a line
without an equals sign. -/
def splitKV (line : Bytes) : Option (Bytes × Bytes) :=
  let trimmed := trimSpace (trimExport (trimSpace line))
  if trimmed = [] ∨ trimmed.head? = some 0x23 then none
  else
    let eq := trimmed.idxOf equals
    if eq < trimmed.length then
      some (trimSpace (trimmed.take eq), unquote (trimSpace (trimmed.drop (eq + 1))))
    else none

/-- The line's value if the line sets the key. -/
def valueOf (key line : Bytes) : Option Bytes :=
  (splitKV line).bind fun kv => if kv.1 = key then some kv.2 else none

def lookup (data key : Bytes) : Option Bytes :=
  (data.splitOn newline).findSome? (valueOf key)

/-- A line that sets the key is replaced, an `export ` before it kept. -/
def replaceLine (key line l : Bytes) : Bytes :=
  if (valueOf key l).isSome then
    if exportWord.isPrefixOf (trimSpace l) then exportWord ++ line else line
  else l

def dropBlank : List Bytes → List Bytes
  | [] => []
  | first :: rest => if trimSpace first = [] then rest else first :: rest

/-- The lines of the updated file. -/
def updatedLines (data key value : Bytes) : List Bytes :=
  let line := key ++ equals :: value
  let lines := (data.rdropWhile (· == newline)).splitOn newline
  let out := lines.map (replaceLine key line)
  let replaced := lines.any fun l => (valueOf key l).isSome
  dropBlank (if replaced then out else out ++ [line])

def upsert (data key value : Bytes) : Bytes :=
  [newline].intercalate (updatedLines data key value) ++ [newline]

structure Location where
  Path : Bytes
  Key : Bytes

structure Ref where
  Env : String
  Class : String
  Field : String

def Ref.text (ref : Ref) : String := ref.Env ++ "/" ++ ref.Class ++ "/" ++ ref.Field

/-- What os.ReadFile finds under a path. -/
inductive File
  | missing
  | unreadable
  | holds (data : Bytes)

/-- What the world answers during one Put; `left` is what a failed write leaves. -/
structure Answers where
  made : Bool
  ignored : Bool
  written : Bool
  left : File

section Source

variable (quote : Bytes → String) (locs : Ref → Option Location)

def unmapped (ref : Ref) : AppError :=
  notFound ("no file location mapped for credential " ++ ref.text)

def Get (files : Bytes → File) (ref : Ref) : Except AppError Bytes :=
  match locs ref with
  | none => .error (unmapped ref)
  | some loc =>
    match files loc.Path with
    | .missing => .error (notFound
        ("credential file " ++ quote loc.Path ++ " does not exist for " ++ ref.text))
    | .unreadable => .error (internal "reading credential file")
    | .holds data =>
      match lookup data loc.Key with
      | none | some [] => .error (notFound
          ("key " ++ quote loc.Key ++ " not found in credential file for " ++ ref.text))
      | some value => .ok value

/-- The file's new content after a write attempt. -/
def writeFile (answers : Answers) (files : Bytes → File) (path data : Bytes) :
    Except AppError Unit × (Bytes → File) :=
  if answers.written then (.ok (), Function.update files path (.holds data))
  else (.error (internal "writing credential file"), Function.update files path answers.left)

def Put (answers : Answers) (files : Bytes → File) (ref : Ref) (value : Bytes) :
    Except AppError Unit × (Bytes → File) :=
  match locs ref with
  | none => (.error (unmapped ref), files)
  | some loc =>
    if !answers.made then (.error (internal "creating credential directory"), files)
    else if !answers.ignored then
      (.error (invalidInput
        ("refusing to write credential to non-git-ignored path " ++ quote loc.Path)), files)
    else
      match files loc.Path with
      | .unreadable => (.error (internal "reading credential file for update"), files)
      | .missing => writeFile answers files loc.Path (upsert [] loc.Key value)
      | .holds data => writeFile answers files loc.Path (upsert data loc.Key value)

end Source

def letter (b : UInt8) : Bool :=
  (0x41 ≤ b && b ≤ 0x5A) || (0x61 ≤ b && b ≤ 0x7A) || b == 0x5F

def digit (b : UInt8) : Bool := 0x30 ≤ b && b ≤ 0x39

/-- A key matches [A-Za-z_][A-Za-z0-9_]*. -/
def Name : Bytes → Prop
  | [] => False
  | first :: rest => letter first ∧ ∀ b ∈ rest, letter b ∨ digit b

/-- A value on one line, with no white space at its ends and not in quotes. -/
structure Plain (v : Bytes) : Prop where
  oneLine : newline ∉ v
  trimmed : Trimmed v
  unquoted : ∀ q ∈ [0x22, 0x27], ∀ inner, v ≠ q :: inner ++ [q]

theorem unquote_of_plain {v : Bytes} (h : ∀ q ∈ [0x22, 0x27], ∀ inner, v ≠ q :: inner ++ [q]) :
    unquote v = v := by
  rw [unquote, if_neg]
  rintro ⟨hlong, hquote, hlast⟩
  cases v with
  | nil => simp at hlong
  | cons q rest =>
    have hrest : rest ≠ [] := by
      rintro rfl
      simp at hlong
    have hq : q ∈ [0x22, 0x27] := by simpa using hquote
    have hend : rest.getLast hrest = q := by
      simpa [List.getLast?_cons, List.getLast?_eq_getLast_of_ne_nil hrest] using hlast
    refine h q hq rest.dropLast ?_
    rw [cons_append, ← hend, dropLast_append_getLast hrest]

theorem unquote_within (v : Bytes) : unquote v <:+: v := by
  rw [unquote]
  split
  · exact (List.dropLast_prefix _).isInfix.trans (tail_suffix _).isInfix
  · exact infix_rfl

theorem unquote_quoted_ne {q : UInt8} (hq : q ∈ [0x22, 0x27]) (inner : Bytes) :
    unquote (q :: inner ++ [q]) ≠ q :: inner ++ [q] := by
  have hquote : q = 0x22 ∨ q = 0x27 := by simpa using hq
  have hlast : (q :: (inner ++ [q])).getLast? = some q := by
    rw [← cons_append, List.getLast?_concat]
  intro h
  have hlength := congrArg List.length h
  simp [unquote, hquote, hlast] at hlength
  omega

theorem name_bytes {k : Bytes} (hk : Name k) {b : UInt8} (hb : b ∈ k) : letter b ∨ digit b := by
  cases k with
  | nil => exact hk.elim
  | cons first rest =>
    rcases mem_cons.mp hb with rfl | hb
    · exact Or.inl hk.1
    · exact hk.2 b hb

/-- The bytes that white space, an equals sign or a comment needs are in no name. -/
theorem word_byte {b : UInt8} (h : letter b ∨ digit b) :
    (∀ code ∈ spaceCodes, b ∉ code) ∧ b ≠ equals ∧ b ≠ newline ∧ b ≠ 0x20 ∧ b ≠ 0x23 := by
  have hall : ∀ n : Fin 256, letter (UInt8.ofNat n) ∨ digit (UInt8.ofNat n) →
      (∀ code ∈ spaceCodes, UInt8.ofNat n ∉ code) ∧ UInt8.ofNat n ≠ equals ∧
        UInt8.ofNat n ≠ newline ∧ UInt8.ofNat n ≠ 0x20 ∧ UInt8.ofNat n ≠ 0x23 := by
    decide +kernel
  have hb := hall ⟨b.toNat, b.toNat_lt⟩
  simp only [UInt8.ofNat_toNat] at hb
  exact hb h

theorem equals_no_space : ∀ code ∈ spaceCodes, equals ∉ code := by decide

theorem export_byte : ∀ code ∈ spaceCodes, (0x65 : UInt8) ∉ code := by decide

section Lines

variable (k v : Bytes) (hk : Name k)

include hk in
theorem equals_not_mem : equals ∉ k := fun h => (word_byte (name_bytes hk h)).2.1 rfl

include hk in
theorem trimSpace_name : trimSpace k = k :=
  trimSpace_of_trimmed (trimmed_of_bytes k fun _ hb => (word_byte (name_bytes hk hb)).1)

include hk in
theorem trimmed_line (hv : Trimmed v) : Trimmed (k ++ equals :: v) := by
  cases k with
  | nil => exact hk.elim
  | cons first rest =>
    exact trimmed_of_barrier equals_no_space (word_byte (Or.inl hk.1)).1 hv

theorem trimmed_export_line (hv : Trimmed v) : Trimmed (exportWord ++ (k ++ equals :: v)) := by
  rw [← append_assoc]
  exact trimmed_of_barrier equals_no_space export_byte hv

include hk in
/-- No name holds the blank of `export `. -/
theorem not_export : ¬ exportWord <+: k ++ equals :: v := by
  intro h
  have hline : k ++ [equals] <+: k ++ equals :: v := ⟨v, by simp⟩
  rcases prefix_or_prefix_of_prefix h hline with hinside | hover
  · have hblank : (0x20 : UInt8) ∈ k ++ [equals] := hinside.subset (by decide)
    rcases mem_append.mp hblank with hmem | hmem
    · exact (word_byte (name_bytes hk hmem)).2.2.2.1 rfl
    · simp [equals] at hmem
  · have hequals : equals ∈ exportWord := hover.subset (by simp)
    revert hequals
    decide

include hk in
theorem trimExport_line : trimExport (k ++ equals :: v) = k ++ equals :: v := by
  rw [trimExport, if_neg]
  rw [List.isPrefixOf_iff_prefix]
  exact not_export k v hk

theorem trimExport_export (text : Bytes) : trimExport (exportWord ++ text) = text := by
  rw [trimExport, if_pos (List.isPrefixOf_iff_prefix.mpr (prefix_append _ _)),
    drop_left]

include hk in
/-- A line whose trimmed text is `key=value` sets the key to the value. -/
theorem splitKV_of_trimmed (hv : Plain v) (line : Bytes)
    (hline : trimSpace (trimExport (trimSpace line)) = k ++ equals :: v) :
    splitKV line = some (k, v) := by
  have hindex : (k ++ equals :: v).idxOf equals = k.length := by
    rw [idxOf_append_of_notMem (equals_not_mem k hk), idxOf_cons_self, Nat.add_zero]
  have hcomment : (k ++ equals :: v).head? ≠ some 0x23 := by
    cases k with
    | nil => exact hk.elim
    | cons first rest =>
      intro hfirst
      exact (word_byte (Or.inl hk.1)).2.2.2.2 (by simpa using hfirst)
  have hnonempty : ¬ (k ++ equals :: v = [] ∨ (k ++ equals :: v).head? = some 0x23) :=
    not_or.mpr ⟨by simp, hcomment⟩
  have hshort : k.length < (k ++ equals :: v).length := by simp
  have hdrop : (k ++ equals :: v).drop (k.length + 1) = v := by simp
  simp only [splitKV, hline]
  rw [if_neg hnonempty, hindex, if_pos hshort, take_left, hdrop, trimSpace_name k hk,
    trimSpace_of_trimmed hv.trimmed, unquote_of_plain hv.unquoted]

include hk in
theorem splitKV_line (hv : Plain v) : splitKV (k ++ equals :: v) = some (k, v) := by
  apply splitKV_of_trimmed k v hk hv
  have hline := trimSpace_of_trimmed (trimmed_line k v hk hv.trimmed)
  rw [hline, trimExport_line k v hk, hline]

include hk in
theorem splitKV_export (hv : Plain v) :
    splitKV (exportWord ++ (k ++ equals :: v)) = some (k, v) := by
  apply splitKV_of_trimmed k v hk hv
  rw [trimSpace_of_trimmed (trimmed_export_line k v hv.trimmed), trimExport_export,
    trimSpace_of_trimmed (trimmed_line k v hk hv.trimmed)]

end Lines

theorem trimExport_suffix (text : Bytes) : trimExport text <:+ text := by
  rw [trimExport]
  split
  · exact drop_suffix _ _
  · exact suffix_rfl

/-- A value is the trimmed and unquoted text behind an equals sign of its line. -/
theorem splitKV_some {line key value : Bytes} (h : splitKV line = some (key, value)) :
    ∃ before after, before ++ equals :: after <:+: line ∧
      value = unquote (trimSpace after) := by
  have hinside : trimSpace (trimExport (trimSpace line)) <:+: line :=
    (trimSpace_within _).trans ((trimExport_suffix _).isInfix.trans (trimSpace_within line))
  simp only [splitKV] at h
  generalize trimSpace (trimExport (trimSpace line)) = trimmed at h hinside
  split_ifs at h with hblank hfound
  have hcut : trimmed.take (trimmed.idxOf equals) ++
      equals :: trimmed.drop (trimmed.idxOf equals + 1) = trimmed := by
    conv_rhs => rw [← take_append_drop (trimmed.idxOf equals) trimmed]
    rw [drop_eq_getElem_cons hfound, getElem_idxOf hfound]
  refine ⟨trimmed.take (trimmed.idxOf equals), trimmed.drop (trimmed.idxOf equals + 1), ?_,
    (Prod.mk.inj (Option.some.inj h)).2.symm⟩
  rwa [hcut]

theorem valueOf_eq_some (key line value : Bytes) :
    valueOf key line = some value ↔ splitKV line = some (key, value) := by
  rw [valueOf, Option.bind_eq_some_iff]
  constructor
  · rintro ⟨⟨k, v⟩, hsplit, hvalue⟩
    split_ifs at hvalue with hkey
    obtain rfl := Option.some.inj hvalue
    rw [hsplit, ← hkey]
  · intro hsplit
    exact ⟨(key, value), hsplit, if_pos rfl⟩

theorem valueOf_within {key line value : Bytes} (h : valueOf key line = some value) :
    value <:+: line := by
  obtain ⟨before, after, hline, rfl⟩ :=
    splitKV_some ((valueOf_eq_some key line value).mp h)
  have hafter : after <:+: line :=
    List.IsInfix.trans ⟨before ++ [equals], [], by simp⟩ hline
  exact (unquote_within _).trans ((trimSpace_within after).trans hafter)

theorem valueOf_blank {key line : Bytes} (h : trimSpace line = []) : valueOf key line = none := by
  have htrimmed : trimSpace (trimExport (trimSpace line)) = [] := by
    rw [h]
    decide
  have hsplit : splitKV line = none := by
    simp only [splitKV, htrimmed, true_or, if_true]
  rw [valueOf, hsplit, Option.bind_none]

/-- The value behind the first equals sign comes back unchanged only if it needs no trimming
and no unquoting. -/
theorem plain_of_readback (head v key : Bytes) (hhead : equals ∉ head) (hline : newline ∉ v)
    (h : valueOf key (head ++ equals :: v) = some v) : Plain v := by
  obtain ⟨before, after, hinfix, hvalue⟩ :=
    splitKV_some ((valueOf_eq_some _ _ _).mp h)
  have hafter := infix_of_first equals head v before after hhead hinfix
  have hunquote := (unquote_within (trimSpace after)).length_le
  have htrim := (trimSpace_within after).length_le
  rw [← hvalue] at hunquote
  obtain rfl : after = v := hafter.eq_of_length (by have := hafter.length_le; omega)
  have htrimmed : trimSpace after = after := (trimSpace_within after).eq_of_length (by omega)
  refine ⟨hline, trimmed_of_trimSpace after htrimmed, ?_⟩
  rintro q hq inner rfl
  rw [htrimmed] at hvalue
  exact unquote_quoted_ne hq inner hvalue.symm

end KnowledgeEngine.CredentialFile
