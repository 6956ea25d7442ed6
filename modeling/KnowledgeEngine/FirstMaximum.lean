import Mathlib.Data.List.Perm.Basic

/-!
A running maximum: a loop keeps the first candidate of the highest score, and passes over
what has no score. Its result is the same for every order of the candidates exactly when
no two different ones share the highest score.
-/

namespace KnowledgeEngine.FirstMaximum

open List

variable {α : Type*} (score : α → Option ℕ)

/-- One round: a candidate replaces the best so far when its score is higher. -/
def keep (best : Option (α × ℕ)) (a : α) : Option (α × ℕ) :=
  match score a, best with
  | none, _ => best
  | some n, none => some (a, n)
  | some n, some (_, m) => if m < n then some (a, n) else best

def firstMax (l : List α) : Option (α × ℕ) := l.foldl (keep score) none

variable {score}

theorem keep_of_none {a : α} (h : score a = none) (best : Option (α × ℕ)) :
    keep score best a = best := by
  simp [keep, h]

theorem keep_le {a b : α} {m n : ℕ} (hb : score b = some m) (h : m ≤ n) :
    keep score (some (a, n)) b = some (a, n) := by
  simp [keep, hb, Nat.not_lt.mpr h]

theorem keep_lt {a b : α} {m n : ℕ} (hb : score b = some m) (h : n < m) :
    keep score (some (a, n)) b = some (b, m) := by
  simp [keep, hb, h]

/-- What the loop knows after the candidates it has seen. -/
def IsBest (score : α → Option ℕ) (seen : List α) : Option (α × ℕ) → Prop
  | none => ∀ a ∈ seen, score a = none
  | some (b, m) => b ∈ seen ∧ score b = some m ∧ ∀ c ∈ seen, ∀ k, score c = some k → k ≤ m

theorem isBest_keep {seen : List α} {best : Option (α × ℕ)} (h : IsBest score seen best) (a : α) :
    IsBest score (seen ++ [a]) (keep score best a) := by
  cases ha : score a with
  | none =>
    rw [keep_of_none ha]
    cases best with
    | none =>
      intro c hc
      rcases mem_append.mp hc with hc | hc
      · exact h c hc
      · rwa [mem_singleton.mp hc]
    | some best =>
      obtain ⟨hmem, hscore, hmax⟩ := h
      refine ⟨mem_append_left _ hmem, hscore, ?_⟩
      intro c hc k hk
      rcases mem_append.mp hc with hc | hc
      · exact hmax c hc k hk
      · rw [mem_singleton.mp hc, ha] at hk
        exact nomatch hk
  | some n =>
    have hreplace (hseen : ∀ c ∈ seen, ∀ k, score c = some k → k ≤ n) :
        IsBest score (seen ++ [a]) (some (a, n)) := by
      refine ⟨mem_append_right _ mem_cons_self, ha, ?_⟩
      intro c hc k hk
      rcases mem_append.mp hc with hc | hc
      · exact hseen c hc k hk
      · rw [mem_singleton.mp hc, ha] at hk
        have heq := Option.some.inj hk
        omega
    cases best with
    | none =>
      rw [show keep score none a = some (a, n) by simp [keep, ha]]
      apply hreplace
      intro c hc k hk
      rw [h c hc] at hk
      exact nomatch hk
    | some best =>
      obtain ⟨hmem, hscore, hmax⟩ := h
      by_cases hlt : best.2 < n
      · rw [keep_lt ha hlt]
        apply hreplace
        intro c hc k hk
        have hle := hmax c hc k hk
        omega
      · rw [keep_le ha (Nat.not_lt.mp hlt)]
        refine ⟨mem_append_left _ hmem, hscore, ?_⟩
        intro c hc k hk
        rcases mem_append.mp hc with hc | hc
        · exact hmax c hc k hk
        · rw [mem_singleton.mp hc, ha] at hk
          have heq := Option.some.inj hk
          omega

theorem isBest_foldl {seen : List α} {best : Option (α × ℕ)} (h : IsBest score seen best)
    (l : List α) : IsBest score (seen ++ l) (l.foldl (keep score) best) := by
  induction l generalizing seen best with
  | nil => rwa [append_nil]
  | cons a l ih =>
    rw [foldl_cons, append_cons]
    exact ih (isBest_keep h a)

theorem isBest_firstMax (score : α → Option ℕ) (l : List α) :
    IsBest score l (firstMax score l) := by
  have hnone : IsBest score [] none := fun _ hmem => absurd hmem not_mem_nil
  exact isBest_foldl hnone l

/-- A candidate that nothing after it exceeds is kept. -/
theorem firstMax_cons {a : α} {n : ℕ} (ha : score a = some n) {l : List α}
    (hl : ∀ b ∈ l, ∀ k, score b = some k → k ≤ n) : firstMax score (a :: l) = some (a, n) := by
  have hstart : keep score none a = some (a, n) := by simp [keep, ha]
  rw [firstMax, foldl_cons, hstart]
  induction l with
  | nil => rfl
  | cons b l ih =>
    have hkeep : keep score (some (a, n)) b = some (a, n) := by
      cases hb : score b with
      | none => exact keep_of_none hb _
      | some k => exact keep_le hb (hl b mem_cons_self k hb)
    rw [foldl_cons, hkeep]
    exact ih fun c hc => hl c (mem_cons_of_mem b hc)

/-- Every order of the candidates ends with one of them exactly when it scores higher than
all that differ from it. -/
theorem firstMax_perm_iff [DecidableEq α] (l : List α) (a : α) :
    (∀ l', l'.Perm l → (firstMax score l').map Prod.fst = some a) ↔
      a ∈ l ∧ ∃ n, score a = some n ∧ ∀ b ∈ l, b ≠ a → ∀ k, score b = some k → k < n := by
  constructor
  · intro h
    obtain ⟨⟨_, n⟩, hmax, rfl⟩ := Option.map_eq_some_iff.mp (h l (List.Perm.refl l))
    have hbest := isBest_firstMax score l
    rw [hmax] at hbest
    obtain ⟨hmem, hscore, hle⟩ := hbest
    refine ⟨hmem, n, hscore, ?_⟩
    intro b hb hne k hk
    refine Nat.lt_of_le_of_ne (hle b hb k hk) ?_
    rintro rfl
    have hfront := h (b :: l.erase b) (perm_cons_erase hb).symm
    rw [firstMax_cons hk fun c hc => hle c (mem_of_mem_erase hc)] at hfront
    exact hne (Option.some.inj hfront)
  · rintro ⟨hmem, n, hscore, hlt⟩ l' hperm
    have hbest := isBest_firstMax score l'
    cases hmax : firstMax score l' with
    | none =>
      rw [hmax] at hbest
      rw [hbest a (hperm.mem_iff.mpr hmem)] at hscore
      exact nomatch hscore
    | some best =>
      rw [hmax] at hbest
      obtain ⟨hin, hin_score, hle⟩ := hbest
      have hn := hle a (hperm.mem_iff.mpr hmem) n hscore
      by_contra hne
      have hlower := hlt best.1 (hperm.mem_iff.mp hin) (fun heq => hne (by simp [heq])) _ hin_score
      omega

end KnowledgeEngine.FirstMaximum
