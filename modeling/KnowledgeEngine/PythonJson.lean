import KnowledgeEngine.JsonText
import Mathlib.Data.List.Basic

/-!
JSON text as Python's json.dumps writes it with ensure_ascii=False and without spaces, and
str.replace of single characters on such a text. Replacing the characters that json.Marshal
escapes in addition gives the text of json.Marshal.
-/

namespace KnowledgeEngine.PythonJson

open JsonText

/-- A character inside a string. -/
def escapeChar (c : Char) : List Char :=
  match escapeLetter c with
  | some letter => ['\\', letter]
  | none => if c.toNat < 0x20 then unitEscape c.toNat else [c]

def dumpsString (s : String) : List Char := '"' :: (s.toList.flatMap escapeChar ++ ['"'])

mutual

def dumps : Json → List Char
  | .null => ['n', 'u', 'l', 'l']
  | .bool true => ['t', 'r', 'u', 'e']
  | .bool false => ['f', 'a', 'l', 's', 'e']
  | .num literal => literal
  | .str s => dumpsString s
  | .arr [] => ['[', ']']
  | .arr (item :: items) => '[' :: (dumps item ++ dumpsItems items)
  | .obj [] => ['\x7b', '\x7d']
  | .obj ((key, value) :: members) =>
    '\x7b' :: (dumpsString key ++ ':' :: (dumps value ++ dumpsMembers members))

def dumpsItems : List Json → List Char
  | [] => [']']
  | item :: items => ',' :: (dumps item ++ dumpsItems items)

def dumpsMembers : List (String × Json) → List Char
  | [] => ['\x7d']
  | (key, value) :: members =>
    ',' :: (dumpsString key ++ ':' :: (dumps value ++ dumpsMembers members))

end

/-- text.replace(c, escape) for one pair after the other. -/
def replaceEach (escapes : List (Char × List Char)) (text : List Char) : List Char :=
  escapes.foldl (fun text e => text.flatMap fun c => if c = e.1 then e.2 else [c]) text

theorem replaceEach_nil {escapes : List (Char × List Char)} : replaceEach escapes [] = [] := by
  induction escapes with
  | nil => rfl
  | cons e escapes ih => exact ih

theorem replaceEach_append (escapes : List (Char × List Char)) (a b : List Char) :
    replaceEach escapes (a ++ b) = replaceEach escapes a ++ replaceEach escapes b := by
  induction escapes generalizing a b with
  | nil => rfl
  | cons e escapes ih =>
    rw [replaceEach, List.foldl_cons, List.flatMap_append]
    exact ih _ _

theorem replaceEach_flatMap (escapes : List (Char × List Char)) (f : Char → List Char)
    (text : List Char) :
    replaceEach escapes (text.flatMap f) = text.flatMap fun c => replaceEach escapes (f c) := by
  induction text with
  | nil => exact replaceEach_nil
  | cons c text ih => rw [List.flatMap_cons, replaceEach_append, ih, List.flatMap_cons]

/-- A text without the characters stays as it is. -/
theorem replaceEach_of_not_mem {escapes : List (Char × List Char)} {text : List Char}
    (h : ∀ e ∈ escapes, e.1 ∉ text) : replaceEach escapes text = text := by
  induction escapes with
  | nil => rfl
  | cons e escapes ih =>
    have hsame : (text.flatMap fun c => if c = e.1 then e.2 else [c]) = text := by
      have hkeep : ∀ c ∈ text, (if c = e.1 then e.2 else [c]) = [c] := by
        intro c hc
        refine if_neg fun heq => h e List.mem_cons_self ?_
        rwa [← heq]
      rw [List.flatMap_congr hkeep]
      exact List.flatMap_singleton' text
    rw [replaceEach, List.foldl_cons, hsame]
    exact ih fun e he => h e (List.mem_cons_of_mem _ he)

/-- A character that stands outside of strings. -/
def isOutside (c : Char) : Bool :=
  isNumberChar c ||
    ['"', ':', ',', '[', ']', '\x7b', '\x7d', 'n', 'u', 'l', 't', 'r', 'f', 'a', 's'].contains c

/-- Replacements that turn the strings of json.dumps into those of json.Marshal and concern no
character outside of strings. -/
structure MarshalEscapes (escapes : List (Char × List Char)) : Prop where
  char : ∀ c, replaceEach escapes (escapeChar c) = JsonText.escapeChar c
  inside : ∀ e ∈ escapes, isOutside e.1 = false

section Replaced

variable {escapes : List (Char × List Char)} (h : MarshalEscapes escapes)

include h

theorem replaceEach_outside {text : List Char} (htext : text.all isOutside = true) :
    replaceEach escapes text = text := by
  refine replaceEach_of_not_mem fun e he hmem => ?_
  simpa [h.inside e he] using List.all_eq_true.mp htext e.1 hmem

theorem replaceEach_cons {c : Char} {text : List Char} (hc : isOutside c = true) :
    replaceEach escapes (c :: text) = c :: replaceEach escapes text := by
  rw [← List.singleton_append, replaceEach_append, replaceEach_outside h (by simpa using hc)]
  rfl

theorem replaceEach_dumpsString (s : String) :
    replaceEach escapes (dumpsString s) = printString s := by
  rw [dumpsString, replaceEach_cons h (by decide), replaceEach_append, replaceEach_flatMap,
    replaceEach_outside h (by decide), printString]
  simp only [h.char]

mutual

/-- The replaced text of json.dumps is the text of json.Marshal. -/
theorem replaceEach_dumps : ∀ j : Json, j.Valid → replaceEach escapes (dumps j) = print j
  | .null, _ => replaceEach_outside h (by decide)
  | .bool true, _ => replaceEach_outside h (by decide)
  | .bool false, _ => replaceEach_outside h (by decide)
  | .num literal, hvalid => by
    refine replaceEach_outside h (List.all_eq_true.mpr fun c hc => ?_)
    simp only [isOutside, hvalid.2 c hc, Bool.true_or]
  | .str s, _ => replaceEach_dumpsString h s
  | .arr [], _ => replaceEach_outside h (by decide)
  | .arr (item :: items), hvalid => by
    rw [dumps, replaceEach_cons h (by decide), replaceEach_append,
      replaceEach_dumps item hvalid.1, replaceEach_dumpsItems items hvalid.2, print]
  | .obj [], _ => replaceEach_outside h (by decide)
  | .obj ((key, value) :: members), hvalid => by
    rw [dumps, replaceEach_cons h (by decide), replaceEach_append, replaceEach_dumpsString h,
      replaceEach_cons h (by decide), replaceEach_append, replaceEach_dumps value hvalid.1,
      replaceEach_dumpsMembers members hvalid.2, print]

theorem replaceEach_dumpsItems : ∀ items : List Json, ValidItems items →
    replaceEach escapes (dumpsItems items) = printItems items
  | [], _ => replaceEach_outside h (by decide)
  | item :: items, hvalid => by
    rw [dumpsItems, replaceEach_cons h (by decide), replaceEach_append,
      replaceEach_dumps item hvalid.1, replaceEach_dumpsItems items hvalid.2, printItems]

theorem replaceEach_dumpsMembers : ∀ members : List (String × Json), ValidMembers members →
    replaceEach escapes (dumpsMembers members) = printMembers members
  | [], _ => replaceEach_outside h (by decide)
  | (key, value) :: members, hvalid => by
    rw [dumpsMembers, replaceEach_cons h (by decide), replaceEach_append,
      replaceEach_dumpsString h, replaceEach_cons h (by decide), replaceEach_append,
      replaceEach_dumps value hvalid.1, replaceEach_dumpsMembers members hvalid.2, printMembers]

end

end Replaced

end KnowledgeEngine.PythonJson
