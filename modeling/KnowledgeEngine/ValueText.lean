import KnowledgeEngine.CoreTypes
import KnowledgeEngine.FloatText

/-!
Filter values as text, the way fmt prints them with %v: a time by its String method,
a float with the fewest digits, a slice in brackets. A UUID has thirty-six characters, and
can be read back from them.
-/

namespace KnowledgeEngine.ValueText

open CoreTypes FloatText List MachineNumbers TimeText

/-- The layout -0700. -/
def offsetChars (offset : ℤ) : List Char :=
  let minutes := offset.tdiv 60
  (if minutes < 0 then '-' else '+') ::
    (padded 2 (minutes.natAbs / 60) ++ padded 2 (minutes.natAbs % 60))

/-- The layout MST: an unnamed zone is printed as its offset. -/
def zoneChars (t : Time) : List Char :=
  if t.zone = "" then offsetChars t.offset else t.zone.toList

/-- The wall clock of a time, as the instant UTC shows it. -/
def wallNanos (t : Time) : ℤ := t.nanos + t.offset * 1000000000

/-- Time.String: the layout 2006-01-02 15:04:05.999999999 -0700 MST. -/
def timeChars (t : Time) : List Char :=
  dateChars (wallNanos t) ++ ' ' :: (clockChars (wallNanos t) ++
    ' ' :: (offsetChars t.offset ++ ' ' :: zoneChars t))

def hexDigits (width n : ℕ) : List Char :=
  let ds := Nat.toDigits 16 n
  List.replicate (width - ds.length) '0' ++ ds

/-- UUID.String: five groups of hexadecimal digits. -/
def uuidChars (bytes : BitVec 128) : List Char :=
  let ds := hexDigits 32 bytes.toNat
  ds.take 8 ++ '-' :: ((ds.drop 8).take 4 ++ '-' :: ((ds.drop 12).take 4 ++
    '-' :: ((ds.drop 16).take 4 ++ '-' :: ds.drop 20)))

def scalarChars : Scalar → List Char
  | .str s => s.toList
  | .int n => decimal n
  | .float bits => formatFloat bits
  | .bool b => if b then "true".toList else "false".toList
  | .time t => timeChars t
  | .uuid bytes => uuidChars bytes

def listChars : List Scalar → List Char
  | [] => []
  | [v] => scalarChars v
  | v :: rest => scalarChars v ++ ' ' :: listChars rest

/-- fmt.Sprint. -/
def sprint : Value → String
  | .nil => "<nil>"
  | .scalar v => String.ofList (scalarChars v)
  | .list vs => String.ofList ('[' :: (listChars vs ++ [']']))

example : sprint (.list [.int 5, .time ⟨-19800000000000, 19800, ""⟩, .bool true]) =
    "[5 1970-01-01 00:00:00 +0530 +0530 true]" := by
  decide +kernel

theorem offsetChars_append_inj {a b : ℤ} {x y : List Char} (hx : EndsBefore Char.isDigit x)
    (hy : EndsBefore Char.isDigit y) (h : offsetChars a ++ x = offsetChars b ++ y) :
    a.tdiv 60 = b.tdiv 60 ∧ x = y := by
  simp only [offsetChars, cons_append, List.cons.injEq] at h
  obtain ⟨hsign, h⟩ := h
  have hdigits (n : ℕ) : ∀ c ∈ padded 2 (n / 60) ++ padded 2 (n % 60), c.isDigit = true :=
    forall_mem_append.mpr ⟨padded_isDigit 2 _, padded_isDigit 2 _⟩
  obtain ⟨hblock, hxy⟩ := block_append_inj Char.isDigit _ _ x y (hdigits _) (hdigits _) hx hy h
  have hwidth (n : ℕ) : (padded 2 (n % 60)).length = 2 :=
    padded_length 2 _ (by decide) (by omega)
  obtain ⟨hhours, hminutes⟩ := append_inj' hblock (by rw [hwidth, hwidth])
  have hhours := padded_inj hhours
  have hminutes := padded_inj hminutes
  refine ⟨?_, hxy⟩
  by_cases ha : a.tdiv 60 < 0
  · by_cases hb : b.tdiv 60 < 0
    · omega
    · simp [ha, hb] at hsign
  · by_cases hb : b.tdiv 60 < 0
    · simp [ha, hb] at hsign
    · omega

/-- A time with an offset of whole minutes is known by its text up to the name of its
zone. -/
theorem timeChars_inj {t t' : Time} (ht : t.offset = t.offset.tdiv 60 * 60)
    (ht' : t'.offset = t'.offset.tdiv 60 * 60) (h : timeChars t = timeChars t') :
    t.nanos = t'.nanos ∧ t.offset = t'.offset ∧ zoneChars t = zoneChars t' := by
  have hspace (rest : List Char) : EndsDecimal (' ' :: rest) :=
    endsBefore_cons _ _ _ (by decide)
  have hspace' (rest : List Char) : EndsBefore Char.isDigit (' ' :: rest) :=
    endsBefore_cons _ _ _ (by decide)
  obtain ⟨hwall, hrest⟩ := stamp_append_inj (by decide) (hspace _) (hspace _) h
  obtain ⟨hminutes, hzone⟩ := offsetChars_append_inj (hspace' _) (hspace' _) (List.cons.inj hrest).2
  have hoffset : t.offset = t'.offset := by rw [ht, ht', hminutes]
  refine ⟨?_, hoffset, (List.cons.inj hzone).2⟩
  unfold wallNanos at hwall
  rw [hoffset] at hwall
  omega

theorem padded_comma {width n : ℕ} : ',' ∉ padded width n := fun h =>
  absurd (padded_isDigit width n ',' h) (by decide)

theorem offsetChars_comma {offset : ℤ} : ',' ∉ offsetChars offset := by
  simp only [offsetChars, mem_cons, mem_append, padded_comma, or_self, or_false]
  split <;> decide

theorem dateChars_comma (nanos : ℤ) : ',' ∉ dateChars nanos := by
  have hyear (n : ℤ) : ',' ∉ signedPadded 4 n := by
    cases n <;> simp [signedPadded, padded_comma]
  simp [dateChars, hyear, padded_comma]

theorem clockChars_comma (nanos : ℤ) : ',' ∉ clockChars nanos := by
  have hfraction (n : ℕ) : ',' ∉ fraction n := by
    unfold fraction
    split
    · exact not_mem_nil
    · intro h
      rcases mem_cons.mp h with h | h
      · exact absurd h (by decide)
      · exact padded_comma ((List.rdropWhile_prefix _ _).subset h)
  simp [clockChars, hfraction, padded_comma]

theorem timeChars_comma (t : Time) (hzone : ',' ∉ t.zone.toList) : ',' ∉ timeChars t := by
  have hname : ',' ∉ zoneChars t := by
    unfold zoneChars
    split
    · exact offsetChars_comma
    · exact hzone
  simp [timeChars, dateChars_comma, clockChars_comma, offsetChars_comma, hname]

def hexValue (c : Char) : ℕ := if c.isDigit then c.toNat - 48 else c.toNat - 87

theorem hexValue_digitChar {n : ℕ} (hn : n < 16) : hexValue (Nat.digitChar n) = n := by
  decide +revert

end KnowledgeEngine.ValueText
