import Mathlib.Data.List.Infix

/-!
Texts with slots, as strings.NewReplacer fills them: the text is read from the left, and where
the text of a slot starts, its value takes the place. What is read into which piece depends on
the slots' texts only, not on their values.
-/

namespace KnowledgeEngine.TextTemplate

open List

variable {τ : Type}

/-- A replacer's Replace. The number is how many characters are still to be skipped. -/
def replaceFrom (pairs : List (List Char × List Char)) : ℕ → List Char → List Char
  | _, [] => []
  | skip + 1, _ :: rest => replaceFrom pairs skip rest
  | 0, c :: rest =>
    match pairs.find? fun pair => pair.1.isPrefixOf (c :: rest) with
    | some pair => pair.2 ++ replaceFrom pairs (pair.1.length - 1) rest
    | none => c :: replaceFrom pairs 0 rest

def replace (pairs : List (List Char × List Char)) (text : List Char) : List Char :=
  replaceFrom pairs 0 text

inductive Piece (τ : Type)
  | char (c : Char)
  | slot (x : τ)
deriving DecidableEq

def piecesFrom (slots : List (List Char × τ)) : ℕ → List Char → List (Piece τ)
  | _, [] => []
  | skip + 1, _ :: rest => piecesFrom slots skip rest
  | 0, c :: rest =>
    match slots.find? fun s => s.1.isPrefixOf (c :: rest) with
    | some s => .slot s.2 :: piecesFrom slots (s.1.length - 1) rest
    | none => .char c :: piecesFrom slots 0 rest

def pieces (slots : List (List Char × τ)) (text : List Char) : List (Piece τ) :=
  piecesFrom slots 0 text

end KnowledgeEngine.TextTemplate
