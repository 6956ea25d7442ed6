import KnowledgeEngine.KeysetDedup

/-!
Tables that tell two joined sort fields apart. When the fields agree on the same pairs
of rows over every database, they look up the same rows of the same table, and the
columns of one decide those of the other.
-/

namespace KnowledgeEngine.KeysetJoins

open CoreTypes KeysetOrder KeysetDedup

def number (n : ℤ) : Nullable := (Cell.number n : Cell)

def text (s : String) : Nullable := (Cell.text s : Cell)

theorem number_ne_top {n : ℤ} : number n ≠ ⊤ := WithTop.coe_ne_top

theorem number_injective : Function.Injective number := fun _ _ h =>
  Cell.number.inj (WithTop.coe_injective h)

/-- The row with one value in every column. -/
def uniform (n : ℤ) : Record := fun _ => number n

theorem uniform_id : uniform 0 tiebreakerID ≠ uniform 1 tiebreakerID :=
  fun h => absurd (number_injective h) (by decide)

/-- Whether a join finds a row of its table for a base row. -/
def Finds (j : JoinTarget) (row t : Record) : Prop :=
  matching j.TargetKey (row j.LocalKey) j.TargetSoftDeletes t = true

theorem finds_iff (j : JoinTarget) (row t : Record) :
    Finds j row t ↔ row j.LocalKey ≠ ⊤ ∧ t j.TargetKey = row j.LocalKey ∧
      (j.TargetSoftDeletes = true → t "deleted_at" = ⊤) := by
  unfold Finds matching
  simp only [Bool.and_eq_true, decide_eq_true_eq, Bool.or_eq_true, Bool.not_eq_true', and_assoc,
    ← Bool.not_eq_true, imp_iff_not_or]

theorem joinValue_unfound {w : World} {j : JoinTarget} {c : String} {row : Record}
    (h : ∀ t ∈ w.tables j.Table, ¬ Finds j row t) : joinValue w j c row = ⊤ := by
  unfold joinValue
  rw [List.find?_eq_none.mpr h]

theorem joinValue_found (w : World) (j : JoinTarget) (c : String) (row t : Record)
    (before rest : List Record) (htable : w.tables j.Table = before ++ t :: rest)
    (hbefore : ∀ u ∈ before, ¬ Finds j row u) (h : Finds j row t) : joinValue w j c row = t c := by
  have hfind : (w.tables j.Table).find?
      (matching j.TargetKey (row j.LocalKey) j.TargetSoftDeletes) = some t := by
    rw [htable, List.find?_append, List.find?_eq_none.mpr hbefore, Option.none_or]
    exact List.find?_cons_of_pos h
  unfold joinValue
  rw [hfind]

theorem agree_of_unfound {w : World} {j : JoinTarget} {a b : Record}
    (ha : ∀ t ∈ w.tables j.Table, ¬ Finds j a t) (hb : ∀ t ∈ w.tables j.Table, ¬ Finds j b t) :
    Agree w (.join j) a b := by
  rw [agree_join]
  intro c _
  rw [joinValue_unfound ha, joinValue_unfound hb]

/-- One row in the table, found for one of the base rows. -/
theorem not_agree_of_found (w : World) (j : JoinTarget) (c : String) (a b t : Record)
    (htable : w.tables j.Table = [t]) (hc : Live j c) (ha : Finds j a t) (hb : ¬ Finds j b t)
    (ht : t c ≠ ⊤) : ¬ Agree w (.join j) a b := by
  rw [agree_join]
  intro h
  have hvalue := h c hc
  rw [joinValue_found w j c a t [] [] htable (by simp) ha,
    joinValue_unfound (by simpa [htable] using hb)] at hvalue
  exact ht hvalue

/-- A row of a joined table that is not soft-deleted. -/
def target (j : JoinTarget) : Record := fun c =>
  if j.TargetSoftDeletes = true ∧ c = "deleted_at" then ⊤ else number 0

theorem live_shown {j : JoinTarget} {c : String} (h : Live j c) :
    ¬ (j.TargetSoftDeletes = true ∧ c = "deleted_at") ∧
      ¬ (j.TargetSoftDeletes = true ∧ j.TargetKey = "deleted_at") :=
  ⟨fun ⟨hsoft, hc⟩ => h.2 ⟨hsoft, Or.inl hc⟩, fun ⟨hsoft, hkey⟩ => h.2 ⟨hsoft, Or.inr hkey⟩⟩

theorem live_not_agree (w : World) (j : JoinTarget) (c : String) (a b : Record) (hc : Live j c)
    (htable : w.tables j.Table = [target j]) (ha : a j.LocalKey = number 0)
    (hb : b j.LocalKey ≠ number 0) : ¬ Agree w (.join j) a b := by
  obtain ⟨hcol, hkey⟩ := live_shown hc
  have htarget : target j j.TargetKey = number 0 := if_neg hkey
  apply not_agree_of_found w j c a b (target j) htable hc
  · rw [finds_iff, ha]
    exact ⟨number_ne_top, htarget, fun hsoft => if_pos ⟨hsoft, rfl⟩⟩
  · rw [finds_iff, htarget]
    exact fun h => hb h.2.1.symm
  · rw [target, if_neg hcol]
    exact number_ne_top

section SameOrder

variable (j j' : JoinTarget)
  (h : ∀ (w : World) (a b : Record), a tiebreakerID ≠ b tiebreakerID →
    (Agree w (.join j) a b ↔ Agree w (.join j') a b))

include h

variable {c' : String}

theorem other_live (hc' : Live j' c') : ∃ c, Live j c := by
  by_contra hvoid
  refine live_not_agree ⟨fun _ => [target j']⟩ j' c' (uniform 0) (uniform 1) hc' rfl rfl
    (fun heq => absurd (number_injective heq) (by decide)) ((h _ _ _ uniform_id).mp ?_)
  rw [agree_join]
  exact fun c hc => absurd ⟨c, hc⟩ hvoid

/-- Rows with one value of the first local key and two of the second. -/
theorem local_eq_or_id (hc' : Live j' c') :
    j.LocalKey = j'.LocalKey ∨ j.LocalKey = tiebreakerID := by
  by_contra hne
  obtain ⟨hlocal, hid⟩ := not_or.mp hne
  let b : Record := fun c => if c = j.LocalKey then number 0 else number 1
  have hone : number 1 ≠ number 0 := fun heq => absurd (number_injective heq) (by decide)
  have hbid : b tiebreakerID = number 1 := if_neg (Ne.symm hid)
  have hblocal : b j'.LocalKey = number 1 := if_neg (Ne.symm hlocal)
  have hids : uniform 0 tiebreakerID ≠ b tiebreakerID := by
    rw [hbid]
    exact hone.symm
  refine live_not_agree ⟨fun _ => [target j']⟩ j' c' (uniform 0) b hc' rfl rfl
    (by rw [hblocal]; exact hone) ((h _ _ _ hids).mp ?_)
  rw [agree_join]
  intro c _
  exact joinValue_local (if_pos rfl).symm

theorem table_eq (hc' : Live j' c') : j.Table = j'.Table := by
  by_contra hne
  let w : World := ⟨fun name => if name = j.Table then [] else [target j']⟩
  have hempty : w.tables j.Table = [] := if_pos rfl
  refine live_not_agree w j' c' (uniform 0) (uniform 1) hc' (if_neg (Ne.symm hne)) rfl
    (fun heq => absurd (number_injective heq) (by decide)) ((h _ _ _ uniform_id).mp ?_)
  exact agree_of_unfound (by simp [hempty]) (by simp [hempty])

/-- A row the second join finds and whose first key no base row has. -/
theorem targetKey_eq (hc' : Live j' c') : j.TargetKey = j'.TargetKey := by
  by_contra hne
  let t : Record := fun c => if j'.TargetSoftDeletes = true ∧ c = "deleted_at" then ⊤
    else if c = j.TargetKey then number 2 else number 0
  obtain ⟨hcol, hkey⟩ := live_shown hc'
  have hone : number 0 ≠ number 1 := fun heq => absurd (number_injective heq) (by decide)
  have htarget : t j'.TargetKey = number 0 := by
    simp only [t]
    rw [if_neg hkey, if_neg (Ne.symm hne)]
  have hunfound (n : ℤ) (hn : n < 2) : ¬ Finds j (uniform n) t := by
    rw [finds_iff]
    rintro ⟨_, heq, _⟩
    simp only [t, uniform, if_true] at heq
    split at heq
    · exact number_ne_top heq.symm
    · have := number_injective heq
      omega
  refine not_agree_of_found ⟨fun _ => [t]⟩ j' c' (uniform 0) (uniform 1) t rfl hc' ?_ ?_ ?_
    ((h _ _ _ uniform_id).mp ?_)
  · rw [finds_iff, htarget]
    exact ⟨number_ne_top, rfl, fun hsoft => if_pos ⟨hsoft, rfl⟩⟩
  · rw [finds_iff, htarget]
    exact fun hfinds => hone hfinds.2.1
  · simp only [t]
    rw [if_neg hcol]
    split
    · exact number_ne_top
    · exact number_ne_top
  · exact agree_of_unfound (by simpa using hunfound 0 (by decide))
      (by simpa using hunfound 1 (by decide))

/-- A soft-deleted row, which only the unguarded join finds. -/
theorem soft_le (hc' : Live j' c') (hsoft : j.TargetSoftDeletes = true) :
    j'.TargetSoftDeletes = true := by
  by_contra hunguarded
  have hone : uniform 0 j'.TargetKey ≠ uniform 1 j'.LocalKey :=
    fun heq => absurd (number_injective heq) (by decide)
  refine not_agree_of_found ⟨fun _ => [uniform 0]⟩ j' c' (uniform 0) (uniform 1) (uniform 0) rfl hc'
    ?_ ?_ number_ne_top ((h _ _ _ uniform_id).mp ?_)
  · rw [finds_iff]
    exact ⟨number_ne_top, rfl, fun hsoft' => absurd hsoft' hunguarded⟩
  · rw [finds_iff]
    exact fun hfinds => hone hfinds.2.1
  · have hunfound (n : ℤ) : ¬ Finds j (uniform n) (uniform 0) := by
      rw [finds_iff]
      exact fun hfinds => number_ne_top (hfinds.2.2 hsoft)
    exact agree_of_unfound (by simpa using hunfound 0) (by simpa using hunfound 1)

/-- Two rows that differ only in the key and in a column the first join leaves out. -/
theorem columns_le (hsame : SameLookup j j') (c : String) (hc : Live j c)
    (hkey : ¬ Live j j.TargetKey) (x : String) (hx : Live j' x) : Live j x := by
  by_contra hnot
  let t : Record := fun c => if j.TargetSoftDeletes = true ∧ c = "deleted_at" then ⊤
    else if c = j.TargetKey ∨ c = x then number 1 else number 0
  let w : World := ⟨fun _ => [target j, t]⟩
  obtain ⟨_, hshown⟩ := live_shown hc
  have hxshown : ¬ (j.TargetSoftDeletes = true ∧ x = "deleted_at") := by
    rw [hsame.2.2.2]
    exact (live_shown hx).1
  have hone : number 0 ≠ number 1 := fun heq => absurd (number_injective heq) (by decide)
  have hfirst : Finds j (uniform 0) (target j) := by
    rw [finds_iff]
    exact ⟨number_ne_top, if_neg hshown, fun hsoft => if_pos ⟨hsoft, rfl⟩⟩
  have hskip : ¬ Finds j (uniform 1) (target j) := by
    rw [finds_iff, target, if_neg hshown]
    exact fun hfinds => hone hfinds.2.1
  have hsecond : Finds j (uniform 1) t := by
    rw [finds_iff]
    refine ⟨number_ne_top, ?_, fun hsoft => if_pos ⟨hsoft, rfl⟩⟩
    simp only [t]
    rw [if_neg hshown, if_pos (Or.inl trivial)]
    rfl
  have hvalues (y : String) : joinValue w j y (uniform 0) = target j y ∧
      joinValue w j y (uniform 1) = t y :=
    ⟨joinValue_found w j y _ _ [] [t] rfl (by simp) hfirst,
      joinValue_found w j y _ _ [target j] [] rfl (by simpa using hskip) hsecond⟩
  have hagree : Agree w (.join j) (uniform 0) (uniform 1) := by
    rw [agree_join]
    intro y hy
    have hne : ¬ (y = j.TargetKey ∨ y = x) := by
      rintro (rfl | rfl)
      · exact hkey hy
      · exact hnot hy
    rw [(hvalues y).1, (hvalues y).2]
    simp only [target, t]
    rw [if_neg hne]
  have hvalue := agree_join.mp ((h w _ _ uniform_id).mp hagree) x hx
  rw [← joinValue_congr hsame, ← joinValue_congr hsame, (hvalues x).1, (hvalues x).2] at hvalue
  simp only [target, t] at hvalue
  rw [if_neg hxshown, if_neg hxshown, if_pos (Or.inr trivial)] at hvalue
  exact hone hvalue

end SameOrder

theorem join_covers (j j' : JoinTarget)
    (h : ∀ (w : World) (a b : Record), a tiebreakerID ≠ b tiebreakerID →
      (Agree w (.join j) a b ↔ Agree w (.join j') a b)) : Covers (.join j) (.join j') := by
  have hback (w : World) (a b : Record) (hid : a tiebreakerID ≠ b tiebreakerID) :
      Agree w (.join j') a b ↔ Agree w (.join j) a b := (h w a b hid).symm
  by_cases hvoid : ∀ c, ¬ Live j' c
  · exact Or.inl hvoid
  · obtain ⟨c', hc'⟩ := not_forall_not.mp hvoid
    obtain ⟨c, hc⟩ := other_live j j' h hc'
    have hlocal : j.LocalKey = j'.LocalKey := by
      rcases local_eq_or_id j j' h hc' with heq | hid
      · exact heq
      · rcases local_eq_or_id j' j hback hc with heq' | hid'
        · exact heq'.symm
        · rw [hid, hid']
    have hsoft : j.TargetSoftDeletes = j'.TargetSoftDeletes :=
      Bool.eq_iff_iff.mpr ⟨soft_le j j' h hc', soft_le j' j hback hc⟩
    have hsame : SameLookup j j' :=
      ⟨table_eq j j' h hc', hlocal, targetKey_eq j j' h hc', hsoft⟩
    refine Or.inr ⟨hsame, ?_⟩
    by_cases hkey : Live j j.TargetKey
    · exact Or.inl hkey
    · exact Or.inr (columns_le j j' h hsame c hc hkey)

end KnowledgeEngine.KeysetJoins
