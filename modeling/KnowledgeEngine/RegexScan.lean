import KnowledgeEngine.BacktrackRegex

/-!
The scan of a text for the matches of a regular expression from left to right, and the text
with the matches replaced: what is kept, where a word of the new text comes from, and when
two patterns scan alike.
-/

namespace KnowledgeEngine.RegexScan

open BacktrackRegex List Regex

variable {α : Type*}

/-- A part of a text after a scan. -/
inductive Piece (α : Type*)
  | keep (c : α)
  | hit (w : List α)

/-- The pieces of the text from left to right; `skip` characters belong to the last match. -/
def scan (word : α → Bool) (r : Regex α) : ℕ → List α → List α → List (Piece α)
  | _, _, [] => []
  | skip + 1, before, c :: text => scan word r skip (c :: before) text
  | 0, before, c :: text =>
    match firstMatch word r before (c :: text) with
    | none => .keep c :: scan word r 0 (c :: before) text
    | some w => .hit w :: scan word r (w.length - 1) (c :: before) text

def Piece.text : Piece α → List α
  | .keep c => [c]
  | .hit w => w

/-- The piece with a match replaced. -/
def Piece.replaced (replacement : List α) : Piece α → List α
  | .keep c => [c]
  | .hit _ => replacement

def textOf (pieces : List (Piece α)) : List α := pieces.flatMap Piece.text

def replace (replacement : List α) (pieces : List (Piece α)) : List α :=
  pieces.flatMap (Piece.replaced replacement)

variable {word : α → Bool} {r : Regex α} {c : α} {text : List α}

theorem scan_keep {before : List α} (h : firstMatch word r before (c :: text) = none) :
    scan word r 0 before (c :: text) = .keep c :: scan word r 0 (c :: before) text := by
  rw [scan, h]

theorem scan_hit {before : List α} {w : List α}
    (h : firstMatch word r before (c :: text) = some w) :
    scan word r 0 before (c :: text) =
      .hit w :: scan word r (w.length - 1) (c :: before) text := by
  rw [scan, h]

theorem scan_skip (word : α → Bool) (r : Regex α) (before w text : List α) :
    scan word r w.length before (w ++ text) = scan word r 0 (w.reverse ++ before) text := by
  induction w generalizing before with
  | nil => rfl
  | cons c w ih =>
    rw [length_cons, cons_append, scan, ih, reverse_cons, append_assoc]
    rfl

/-- Two restrictions of a pattern scan a text alike when the hits of each pass the other. -/
theorem scan_restrict_eq (word p q : α → Bool) (r : Regex α) (skip : ℕ) (before text : List α)
    (hp : ∀ w, .hit w ∈ scan word (r.restrict p) skip before text → w.all q = true)
    (hq : ∀ w, .hit w ∈ scan word (r.restrict q) skip before text → w.all p = true) :
    scan word (r.restrict p) skip before text = scan word (r.restrict q) skip before text := by
  induction text generalizing skip before with
  | nil => cases skip <;> rfl
  | cons c text ih =>
    cases skip with
    | succ skip => exact ih skip (c :: before) hp hq
    | zero =>
      have hfirst := firstMatch_restrict_eq word p q r before (c :: text)
        (fun w hw => hp w (by rw [scan_hit hw]; exact mem_cons_self))
        (fun w hw => hq w (by rw [scan_hit hw]; exact mem_cons_self))
      cases hmatch : firstMatch word (r.restrict q) before (c :: text) with
      | none =>
        rw [scan_keep (hfirst.trans hmatch)] at hp ⊢
        rw [scan_keep hmatch] at hq ⊢
        rw [ih 0 (c :: before) (fun w hw => hp w (mem_cons_of_mem _ hw))
          fun w hw => hq w (mem_cons_of_mem _ hw)]
      | some w =>
        rw [scan_hit (hfirst.trans hmatch)] at hp ⊢
        rw [scan_hit hmatch] at hq ⊢
        rw [ih _ (c :: before) (fun w hw => hp w (mem_cons_of_mem _ hw))
          fun w hw => hq w (mem_cons_of_mem _ hw)]

/-- The pieces of a text after another: no match starts at a kept character, and a hit is the
first match at its place. -/
inductive Scanned (word : α → Bool) (r : Regex α) : List α → List α → List (Piece α) → Prop
  | done (before) : Scanned word r before [] []
  | keep (before c text pieces) : firstMatch word r before (c :: text) = none →
      Scanned word r (c :: before) text pieces →
      Scanned word r before (c :: text) (.keep c :: pieces)
  | hit (before w text pieces) : Matches word r before w text →
      Scanned word r (w.reverse ++ before) text pieces →
      Scanned word r before (w ++ text) (.hit w :: pieces)

theorem scanned (word : α → Bool) (r : Regex α) (hr : r.within [] = false)
    (before text : List α) : Scanned word r before text (scan word r 0 before text) := by
  induction hlen : text.length using Nat.strongRecOn generalizing before text with
  | ind n ih =>
    cases text with
    | nil => exact .done before
    | cons c text =>
      cases hfirst : firstMatch word r before (c :: text) with
      | none =>
        rw [scan_keep hfirst]
        exact .keep before c text _ hfirst (ih _ (by simp [← hlen]) _ _ rfl)
      | some w =>
        obtain ⟨after, htext, hmatch⟩ := firstMatch_matches word r before _ w hfirst
        obtain ⟨d, w, rfl⟩ := exists_cons_of_ne_nil
          (ne_nil_of_matches word r before w after hr hmatch)
        rw [cons_append] at htext
        obtain ⟨rfl, rfl⟩ := cons_eq_cons.mp htext
        have hscan : scan word r 0 before (c :: (w ++ after)) =
            .hit (c :: w) :: scan word r 0 ((c :: w).reverse ++ before) after := by
          rw [scan_hit hfirst, length_cons, Nat.add_sub_cancel,
            scan_skip, reverse_cons, append_assoc]
          rfl
        have hshorter : after.length < n := by
          rw [← hlen]
          simp only [length_cons, length_append]
          omega
        rw [hscan]
        exact .hit before (c :: w) after _ hmatch (ih _ hshorter _ _ rfl)

section scanned

variable {word : α → Bool} {r : Regex α} {before text : List α} {pieces : List (Piece α)}

theorem Scanned.textOf_eq (h : Scanned word r before text pieces) : textOf pieces = text := by
  induction h with
  | done => rfl
  | keep before c text pieces _ _ ih => exact congrArg (c :: ·) ih
  | hit before w text pieces _ _ ih => exact congrArg (w ++ ·) ih

theorem Scanned.drop (first rest : List (Piece α))
    (h : Scanned word r before text (first ++ rest)) :
    Scanned word r ((textOf first).reverse ++ before) (textOf rest) rest := by
  induction first generalizing before text with
  | nil =>
    rw [h.textOf_eq.symm] at h
    exact h
  | cons piece first ih =>
    cases h with
    | keep _ _ _ _ _ h => simpa [textOf, Piece.text] using ih h
    | hit _ _ _ _ _ h => simpa [textOf, Piece.text] using ih h

/-- No match starts at a kept character. -/
theorem Scanned.not_matches (first rest : List (Piece α)) (c : α)
    (h : Scanned word r before text (first ++ .keep c :: rest)) (w after : List α)
    (htext : c :: textOf rest = w ++ after) :
    ¬ Matches word r ((textOf first).reverse ++ before) w after := by
  have hdrop := h.drop first _
  rw [show textOf (.keep c :: rest) = w ++ after from htext] at hdrop
  refine not_matches_of_firstMatch ?_
  generalize w ++ after = following at hdrop
  cases hdrop with
  | keep _ _ _ _ hnone _ => exact hnone

theorem Scanned.matches (first rest : List (Piece α)) (w : List α)
    (h : Scanned word r before text (first ++ .hit w :: rest)) :
    Matches word r ((textOf first).reverse ++ before) w (textOf rest) := by
  have hdrop := h.drop first _
  generalize textOf (.hit w :: rest) = following at hdrop
  cases hdrop with
  | hit _ _ _ _ hmatch hrest =>
    rw [hrest.textOf_eq]
    exact hmatch

end scanned

theorem eq_map_keep (pieces : List (Piece α)) (h : ∀ w, .hit w ∉ pieces) :
    pieces = (textOf pieces).map .keep := by
  induction pieces with
  | nil => rfl
  | cons piece pieces ih =>
    cases piece with
    | keep c =>
      have hrest := ih fun w hw => h w (mem_cons_of_mem _ hw)
      exact congrArg (Piece.keep c :: ·) hrest
    | hit w => exact absurd mem_cons_self (h w)

theorem replace_map_keep (replacement text : List α) :
    replace replacement (text.map .keep) = text := by
  induction text with
  | nil => rfl
  | cons c text ih => exact congrArg (c :: ·) ih

theorem textOf_map_keep (text : List α) : textOf (text.map .keep) = text := by
  induction text with
  | nil => rfl
  | cons c text ih => exact congrArg (c :: ·) ih

theorem textOf_append (left right : List (Piece α)) :
    textOf (left ++ right) = textOf left ++ textOf right := flatMap_append

theorem replace_append (replacement : List α) (left right : List (Piece α)) :
    replace replacement (left ++ right) = replace replacement left ++ replace replacement right :=
  flatMap_append

/-- Without a match in the text every character is kept. -/
theorem Scanned.eq_map_keep {pieces : List (Piece α)} (h : Scanned word r [] text pieces)
    (hnone : ∀ before w after, text = before ++ w ++ after →
      ¬ Matches word r before.reverse w after) : pieces = text.map .keep := by
  have hkeep := RegexScan.eq_map_keep pieces fun w hw => by
    obtain ⟨first, rest, rfl⟩ := append_of_mem hw
    have hmatch := h.matches first rest w
    rw [append_nil] at hmatch
    refine hnone (textOf first) w (textOf rest) ?_ hmatch
    rw [← h.textOf_eq]
    simp [textOf, Piece.text]
  rwa [h.textOf_eq] at hkeep

section replace

variable (first last : α) (middle : List α)

/-- A word at the start of the replaced text without the replacement's first character. -/
theorem kept_of_initial (pieces : List (Piece α)) (w after : List α)
    (h : replace (first :: middle ++ [last]) pieces = w ++ after) (hw : first ∉ w) :
    ∃ rest, pieces = w.map .keep ++ rest ∧
      after = replace (first :: middle ++ [last]) rest := by
  induction w generalizing pieces with
  | nil => exact ⟨pieces, rfl, h.symm⟩
  | cons c w ih =>
    cases pieces with
    | nil => exact nomatch h
    | cons piece pieces =>
      cases piece with
      | keep d =>
        obtain ⟨rfl, htail⟩ := cons_eq_cons.mp h
        obtain ⟨rest, rfl, hafter⟩ := ih pieces htail fun hmem => hw (mem_cons_of_mem _ hmem)
        exact ⟨rest, rfl, hafter⟩
      | hit d =>
        obtain ⟨rfl, _⟩ := cons_eq_cons.mp h
        exact absurd mem_cons_self hw

/-- A word of the replaced text that meets the replacement neither in its ends nor lies in it
is made of kept characters. -/
theorem kept_of_replaced (pieces : List (Piece α)) (before w after : List α)
    (h : replace (first :: middle ++ [last]) pieces = before ++ w ++ after)
    (hfirst : first ∉ w) (hlast : last ∉ w) (hw : ¬ w ⊆ first :: middle ++ [last]) :
    ∃ left right, pieces = left ++ w.map .keep ++ right ∧
      before = replace (first :: middle ++ [last]) left ∧
      after = replace (first :: middle ++ [last]) right := by
  induction pieces generalizing before with
  | nil =>
    have hnil : before ++ w ++ after = [] := h.symm
    rw [append_eq_nil_iff, append_eq_nil_iff] at hnil
    rw [hnil.1.2] at hw
    exact absurd (nil_subset _) hw
  | cons piece pieces ih =>
    have hlater : ∀ tail, before = piece.replaced (first :: middle ++ [last]) ++ tail →
        replace (first :: middle ++ [last]) pieces = tail ++ w ++ after →
        ∃ left right, piece :: pieces = left ++ w.map .keep ++ right ∧
          before = replace (first :: middle ++ [last]) left ∧
          after = replace (first :: middle ++ [last]) right := by
      intro tail hbefore htail
      obtain ⟨left, right, rfl, rfl, hafter⟩ := ih tail htail
      exact ⟨piece :: left, right, rfl, hbefore, hafter⟩
    rw [append_assoc] at h
    rcases append_eq_append_iff.mp h with ⟨tail, hbefore, hrest⟩ | ⟨cut, hpiece, hword⟩
    · exact hlater tail hbefore (by rw [append_assoc]; exact hrest)
    · by_cases hcut : cut = []
      · subst hcut
        rw [append_nil] at hpiece
        exact hlater [] (by rw [append_nil, hpiece]) hword.symm
      · cases piece with
        | keep d =>
          obtain rfl : before = [] := by
            cases before with
            | nil => rfl
            | cons b before =>
              obtain ⟨_, hnil⟩ := cons_eq_cons.mp hpiece
              exact absurd (append_eq_nil_iff.mp hnil.symm).2 hcut
          obtain ⟨right, hright, hafter⟩ :=
            kept_of_initial first last middle _ w after h hfirst
          exact ⟨[], right, hright, rfl, hafter⟩
        | hit d =>
          exfalso
          have hreplacement : first :: middle ++ [last] = before ++ cut := hpiece
          rcases append_eq_append_iff.mp hword with ⟨rest, hlong, _⟩ | ⟨rest, hshort, _⟩
          · refine hw fun c hc => ?_
            rw [hreplacement, hlong]
            exact mem_append_right before (mem_append_left rest hc)
          · obtain ⟨most, z, rfl⟩ := (eq_nil_or_concat cut).resolve_left hcut
            rw [concat_eq_append, ← append_assoc] at hreplacement
            obtain rfl : last = z :=
              singleton_inj.mp (append_inj' hreplacement rfl).2
            exact hlast (by simp [hshort])

end replace

/-- The characters that a replacement takes away. -/
def Piece.matched : Piece α → List α
  | .keep _ => []
  | .hit w => w

theorem count_replace [DecidableEq α] {replacement : List α} (hc : c ∉ replacement)
    (pieces : List (Piece α)) :
    (replace replacement pieces).count c + (pieces.flatMap Piece.matched).count c =
      (textOf pieces).count c := by
  induction pieces with
  | nil => rfl
  | cons piece pieces ih =>
    simp only [replace, textOf, flatMap_cons, count_append] at ih ⊢
    cases piece with
    | keep d =>
      simp only [Piece.replaced, Piece.matched, Piece.text, count_nil]
      omega
    | hit w =>
      simp only [Piece.replaced, Piece.matched, Piece.text, count_eq_zero_of_not_mem hc]
      omega

/-- A character that the replacement lacks is as frequent as before exactly when no match has
it. -/
theorem count_replace_eq_iff [DecidableEq α] {replacement : List α} (hc : c ∉ replacement)
    (pieces : List (Piece α)) :
    (replace replacement pieces).count c = (textOf pieces).count c ↔
      ∀ w, .hit w ∈ pieces → c ∉ w := by
  have hcount := count_replace hc pieces
  have hzero : (pieces.flatMap Piece.matched).count c = 0 ↔ ∀ w, .hit w ∈ pieces → c ∉ w := by
    rw [count_eq_zero, mem_flatMap]
    constructor
    · intro h w hw hmem
      exact h ⟨.hit w, hw, hmem⟩
    · rintro h ⟨piece, hpiece, hmem⟩
      cases piece with
      | keep d => exact absurd hmem not_mem_nil
      | hit w => exact h w hpiece hmem
  rw [← hzero]
  omega

end KnowledgeEngine.RegexScan
