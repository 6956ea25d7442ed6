import Mathlib.Data.Int.ConditionallyCompleteOrder
import Mathlib.Order.ConditionallyCompleteLattice.Basic

/-!
Time cut into consecutive periods. The starts strictly increase and every time lies
in exactly one period, which starts at the time's floor. A loop that steps from start
to start below a bound visits the floors of all times below the bound, once each and
in order.
-/

namespace KnowledgeEngine.Periods

/-- Period starts and the period of each time. -/
structure Grid where
  start : ℤ → ℤ
  index : ℤ → ℤ
  start_lt : ∀ i, start i < start (i + 1)
  start_le : ∀ t, start (index t) ≤ t
  lt_start : ∀ t, t < start (index t + 1)

variable (p q : Grid)

def Grid.floor (t : ℤ) : ℤ := p.start (p.index t)

theorem Grid.start_strictMono : StrictMono p.start := strictMono_int_of_lt_succ p.start_lt

theorem Grid.index_eq (t i : ℤ) (hle : p.start i ≤ t) (hlt : t < p.start (i + 1)) :
    p.index t = i := by
  have hbelow := p.start_strictMono.lt_iff_lt.mp ((p.start_le t).trans_lt hlt)
  have habove := p.start_strictMono.lt_iff_lt.mp (hle.trans_lt (p.lt_start t))
  omega

theorem Grid.index_start (i : ℤ) : p.index (p.start i) = i :=
  p.index_eq _ i le_rfl (p.start_lt i)

theorem Grid.floor_start {i : ℤ} : p.floor (p.start i) = p.start i := by
  rw [Grid.floor, p.index_start]

theorem Grid.index_mono (s t : ℤ) (h : s ≤ t) : p.index s ≤ p.index t := by
  have hlt := p.start_strictMono.lt_iff_lt.mp (((p.start_le s).trans h).trans_lt (p.lt_start t))
  omega

theorem Grid.floor_mono (s t : ℤ) (h : s ≤ t) : p.floor s ≤ p.floor t :=
  p.start_strictMono.monotone (p.index_mono s t h)

/-- The starts of q are starts of p: a floor in p stays in its period of q. -/
theorem Grid.floor_floor (hcoarse : ∀ i, p.floor (q.start i) = q.start i) (t : ℤ) :
    q.floor (p.floor t) = q.floor t := by
  apply congrArg q.start
  apply q.index_eq
  · rw [← hcoarse]
    exact p.floor_mono _ _ (q.start_le t)
  · exact (p.start_le t).trans_lt (q.lt_start t)

/-- The starts from the i-th on that lie below a bound; fuel limits their number. -/
def Grid.below (hi : ℤ) : ℕ → ℤ → List ℤ
  | 0, _ => []
  | fuel + 1, i => if p.start i < hi then p.start i :: Grid.below hi fuel (i + 1) else []

theorem Grid.mem_below (hi : ℤ) (fuel : ℕ) (i x : ℤ) (hx : x ∈ p.below hi fuel i) :
    ∃ j, i ≤ j ∧ x = p.start j ∧ x < hi := by
  induction fuel generalizing i with
  | zero => simp [Grid.below] at hx
  | succ fuel ih =>
    rw [Grid.below] at hx
    split at hx
    · next hlt =>
      rcases List.mem_cons.mp hx with rfl | hx
      · exact ⟨i, le_rfl, rfl, hlt⟩
      · obtain ⟨j, hj, hxj⟩ := ih (i + 1) hx
        exact ⟨j, by omega, hxj⟩
    · cases hx

theorem Grid.below_sorted (hi : ℤ) (fuel : ℕ) (i : ℤ) : (p.below hi fuel i).Pairwise (· < ·) := by
  induction fuel generalizing i with
  | zero => exact List.Pairwise.nil
  | succ fuel ih =>
    rw [Grid.below]
    split
    · refine List.pairwise_cons.mpr ⟨?_, ih (i + 1)⟩
      intro x hx
      obtain ⟨j, hj, rfl, _⟩ := p.mem_below hi fuel (i + 1) x hx
      exact p.start_strictMono (by omega)
    · exact List.Pairwise.nil

/-- Starts that lie at least `step` apart are all visited with enough fuel. -/
theorem Grid.start_mem_below (step hi : ℤ) (hstep : ∀ i, p.start i + step ≤ p.start (i + 1))
    (fuel : ℕ) (i j : ℤ) (hfuel : hi ≤ p.start i + step * fuel) (hij : i ≤ j)
    (hlt : p.start j < hi) : p.start j ∈ p.below hi fuel i := by
  induction fuel generalizing i with
  | zero =>
    have hle := p.start_strictMono.monotone hij
    simp at hfuel
    omega
  | succ fuel ih =>
    have hle := p.start_strictMono.monotone hij
    rw [Grid.below, if_pos (hle.trans_lt hlt)]
    by_cases hsame : i = j
    · rw [hsame]
      exact List.mem_cons_self
    · apply List.mem_cons_of_mem
      apply ih (i + 1) _ (by omega)
      have hnext := hstep i
      push_cast at hfuel
      rw [Int.mul_add, Int.mul_one] at hfuel
      omega

end KnowledgeEngine.Periods
