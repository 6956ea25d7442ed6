import Mathlib.Data.Char
import Mathlib.Data.List.DropRight
import Mathlib.Data.List.Lex

/-!
Text functions of package strings on characters: trimming white space, cutting at a
character, and comparison up to letter case. Text as UTF-8 bytes: bytes that start no
character are read as the replacement character one at a time, what is written is read back, and
comparing bytes and comparing characters is the same.
-/

namespace KnowledgeEngine.StringText

/-- unicode.IsSpace. -/
def isSpaceRune (c : Char) : Bool :=
  c == ' ' || (0x09 ≤ c.toNat && c.toNat ≤ 0x0d) || c.toNat == 0x85 || c.toNat == 0xa0 ||
    c.toNat == 0x1680 || (0x2000 ≤ c.toNat && c.toNat ≤ 0x200a) || c.toNat == 0x2028 ||
    c.toNat == 0x2029 || c.toNat == 0x202f || c.toNat == 0x205f || c.toNat == 0x3000

def trimSpace (text : List Char) : List Char :=
  (text.dropWhile isSpaceRune).rdropWhile isSpaceRune

/-- The text before the first separator and the text after it. -/
def cut (sep : Char) (text : List Char) : List Char × List Char :=
  (text.takeWhile (· != sep), (text.dropWhile (· != sep)).drop 1)

/-- The letter that stands for all letters of one case folding, among those that fold
to an ASCII letter. -/
def foldChar (c : Char) : Char :=
  if c = 'ſ' then 'S' else if c = 'K' then 'K' else c.toUpper

/-- strings.EqualFold of an ASCII text with another. -/
def equalFold (s t : String) : Bool := s.toList.map foldChar == t.toList.map foldChar

variable {c : Char}

theorem trimSpace_cons_ne_nil {rest : List Char} (h : isSpaceRune c = false) :
    trimSpace (c :: rest) ≠ [] := by
  unfold trimSpace
  rw [List.dropWhile_cons_of_neg (by simp [h]), ne_eq, List.rdropWhile_eq_nil_iff]
  intro hall
  simp [hall c List.mem_cons_self] at h

def utf8Encode (text : List Char) : List UInt8 := text.flatMap String.utf8EncodeChar

/-- The characters of at most `fuel` bytes and broken bytes. -/
def utf8Runes : ℕ → List UInt8 → List Char
  | 0, _ => []
  | _ + 1, [] => []
  | fuel + 1, b :: rest =>
    match (b :: rest).toByteArray.utf8DecodeChar? 0 with
    | some c => c :: utf8Runes fuel ((b :: rest).drop c.utf8Size)
    | none => '�' :: utf8Runes fuel rest

def utf8Decode (bytes : List UInt8) : List Char := utf8Runes bytes.length bytes

theorem utf8Encode_cons (c : Char) (text : List Char) :
    utf8Encode (c :: text) = String.utf8EncodeChar c ++ utf8Encode text := List.flatMap_cons

theorem readChar_eq_some_iff (bytes : List UInt8) (c : Char) :
    bytes.toByteArray.utf8DecodeChar? 0 = some c ↔
      ∃ rest, bytes = String.utf8EncodeChar c ++ rest := by
  constructor
  · intro h
    obtain ⟨more, hmore⟩ := ByteArray.exists_of_utf8DecodeChar?_eq_some h
    refine ⟨more.data.toList, ?_⟩
    rw [← List.toByteArray_inj, hmore, List.toByteArray_append]
    congr 1
    exact ByteArray.ext (by rw [List.data_toByteArray])
  · rintro ⟨rest, rfl⟩
    rw [List.toByteArray_append]
    exact ByteArray.utf8DecodeChar?_utf8EncodeChar_append

variable {bytes : List UInt8}

theorem utf8Runes_fuel {fuel fuel' : ℕ} (h : bytes.length ≤ fuel) (h' : bytes.length ≤ fuel') :
    utf8Runes fuel bytes = utf8Runes fuel' bytes := by
  induction fuel generalizing fuel' bytes with
  | zero =>
    obtain rfl := List.length_eq_zero_iff.mp (Nat.le_zero.mp h)
    cases fuel' <;> rfl
  | succ fuel ih =>
    cases bytes with
    | nil => cases fuel' <;> rfl
    | cons b rest =>
      cases fuel' with
      | zero => cases h'
      | succ fuel' =>
        rw [List.length_cons, Nat.succ_le_succ_iff] at h h'
        rw [utf8Runes, utf8Runes]
        cases (b :: rest).toByteArray.utf8DecodeChar? 0 with
        | none => exact congrArg _ (ih h h')
        | some c =>
          have hpos := Char.utf8Size_pos c
          have hdrop : ((b :: rest).drop c.utf8Size).length ≤ rest.length := by
            rw [List.length_drop, List.length_cons]
            omega
          exact congrArg _ (ih (hdrop.trans h) (hdrop.trans h'))

theorem utf8Decode_char (c : Char) (rest : List UInt8) :
    utf8Decode (String.utf8EncodeChar c ++ rest) = c :: utf8Decode rest := by
  have hread := (readChar_eq_some_iff (String.utf8EncodeChar c ++ rest) c).mpr ⟨rest, rfl⟩
  have hdrop : (String.utf8EncodeChar c ++ rest).drop c.utf8Size = rest := by
    rw [← String.length_utf8EncodeChar, List.drop_left]
  obtain ⟨b, more, hbytes⟩ := List.exists_cons_of_ne_nil (String.utf8EncodeChar_ne_nil (c := c))
  rw [hbytes, List.cons_append] at hread hdrop ⊢
  rw [utf8Decode, List.length_cons, utf8Runes, hread]
  simp only [hdrop]
  exact congrArg _ (utf8Runes_fuel (by simp) (Nat.le_refl _))

variable {rest : List UInt8} {b : UInt8}

theorem utf8Decode_broken (h : (b :: rest).toByteArray.utf8DecodeChar? 0 = none) :
    utf8Decode (b :: rest) = '�' :: utf8Decode rest := by
  rw [utf8Decode, List.length_cons, utf8Runes, h]
  rfl

/-- Bytes by what is read next: a character, or a byte that starts none. -/
theorem utf8_induction {P : List UInt8 → Prop} (nil : P [])
    (char : ∀ c rest, P rest → P (String.utf8EncodeChar c ++ rest))
    (broken : ∀ b rest, (b :: rest).toByteArray.utf8DecodeChar? 0 = none → P rest → P (b :: rest))
    (bytes : List UInt8) : P bytes := by
  induction hn : bytes.length using Nat.strong_induction_on generalizing bytes with
  | _ n ih =>
    cases bytes with
    | nil => exact nil
    | cons b rest =>
      cases hread : (b :: rest).toByteArray.utf8DecodeChar? 0 with
      | none => exact broken b rest hread (ih rest.length (by simp [← hn]) rest rfl)
      | some c =>
        obtain ⟨more, hmore⟩ := (readChar_eq_some_iff _ _).mp hread
        have hpos := Char.utf8Size_pos c
        rw [hmore, List.length_append, String.length_utf8EncodeChar] at hn
        rw [hmore]
        exact char c more (ih more.length (by omega) more rfl)

theorem utf8Decode_utf8Encode (text : List Char) : utf8Decode (utf8Encode text) = text := by
  induction text with
  | nil => rfl
  | cons c text ih => rw [utf8Encode_cons, utf8Decode_char, ih]

theorem utf8EncodeChar_ascii (b : UInt8) (hb : b.toNat < 0x80) :
    String.utf8EncodeChar (Char.ofNat b.toNat) = [b] := by
  have hall : ∀ n : Fin 0x80, String.utf8EncodeChar (Char.ofNat n) = [UInt8.ofNat n] := by
    decide +kernel
  have h := hall ⟨b.toNat, hb⟩
  rwa [UInt8.ofNat_toNat] at h

theorem le_of_broken (h : (b :: rest).toByteArray.utf8DecodeChar? 0 = none) : 0x80 ≤ b.toNat := by
  by_contra hsmall
  have hread : (b :: rest).toByteArray.utf8DecodeChar? 0 = some (Char.ofNat b.toNat) :=
    (readChar_eq_some_iff _ _).mpr ⟨rest, by rw [utf8EncodeChar_ascii b (by omega)]; rfl⟩
  rw [h] at hread
  cases hread

/-- Reading bytes as characters keeps the bytes below 0x80. -/
theorem count_utf8 {a : UInt8} (ha : a.toNat < 0x80) :
    (utf8Encode (utf8Decode bytes)).count a = bytes.count a := by
  induction bytes using utf8_induction with
  | nil => rfl
  | char c rest ih =>
    rw [utf8Decode_char, utf8Encode_cons, List.count_append, List.count_append, ih]
  | broken b rest hread ih =>
    have hb := le_of_broken hread
    have hreplacement : (String.utf8EncodeChar '�').count a = 0 := by
      rw [List.count_eq_zero, show String.utf8EncodeChar '�' = [0xEF, 0xBF, 0xBD] by decide]
      simp only [List.mem_cons, List.not_mem_nil, or_false]
      rintro (rfl | rfl | rfl) <;> exact absurd ha (by decide)
    have hne : b ≠ a := by
      rintro rfl
      omega
    rw [utf8Decode_broken hread, utf8Encode_cons, List.count_append, hreplacement, ih,
      List.count_cons_of_ne hne, Nat.zero_add]

/-- A byte below 0x80 stands for the character of its number. -/
theorem mem_utf8Encode_ascii {text : List Char} (hb : b.toNat < 0x80) (h : b ∈ utf8Encode text) :
    Char.ofNat b.toNat ∈ text := by
  obtain ⟨c, hc, hmem⟩ := List.mem_flatMap.mp h
  have heq : Char.ofNat b.toNat = c := by
    simp only [String.utf8EncodeChar] at hmem
    split_ifs at hmem with hone <;>
      simp only [List.mem_cons, List.not_mem_nil, or_false, ← UInt8.toNat_inj,
        UInt8.toNat_ofNat'] at hmem
    · rw [hmem, Nat.mod_eq_of_lt (by omega)]
      exact Char.ofNat_toNat c
    all_goals omega
  exact heq ▸ hc

theorem utf8EncodeChar_tail (h : String.utf8EncodeChar c = b :: rest) :
    ∀ x ∈ rest, 0x80 ≤ x.toNat := by
  simp only [String.utf8EncodeChar] at h
  split_ifs at h <;> obtain ⟨-, rfl⟩ := List.cons.inj h <;>
    simp only [List.forall_mem_cons, List.not_mem_nil, false_imp_iff, implies_true, and_true,
      UInt8.toNat_ofNat'] <;> omega

/-- A byte below 0x80 ends what is before it. -/
theorem readChar_append {more : List UInt8} (hne : bytes ≠ [])
    (hmore : ∀ b ∈ more.head?, b.toNat < 0x80) :
    (bytes ++ more).toByteArray.utf8DecodeChar? 0 = bytes.toByteArray.utf8DecodeChar? 0 := by
  refine Option.ext fun c => ?_
  rw [readChar_eq_some_iff, readChar_eq_some_iff]
  constructor
  · rintro ⟨rest, heq⟩
    rcases List.append_eq_append_iff.mp heq with ⟨as, has, hmoreEq⟩ | ⟨as, has, -⟩
    · cases as with
      | nil => exact ⟨[], by rw [has, List.append_nil, List.append_nil]⟩
      | cons a as =>
        obtain ⟨b, bytes, rfl⟩ := List.exists_cons_of_ne_nil hne
        have hlarge := utf8EncodeChar_tail has a (by simp)
        have hsmall := hmore a (by simp [hmoreEq])
        omega
    · exact ⟨as, has⟩
  · rintro ⟨rest, rfl⟩
    exact ⟨rest ++ more, List.append_assoc _ _ _⟩

theorem utf8Decode_append {more : List UInt8} (hmore : ∀ b ∈ more.head?, b.toNat < 0x80) :
    utf8Decode (bytes ++ more) = utf8Decode bytes ++ utf8Decode more := by
  induction bytes using utf8_induction with
  | nil => rfl
  | char c rest ih =>
    rw [List.append_assoc, utf8Decode_char, utf8Decode_char, ih, List.cons_append]
  | broken b rest hread ih =>
    have hread' := readChar_append (List.cons_ne_nil b rest) hmore
    rw [hread, List.cons_append] at hread'
    rw [List.cons_append, utf8Decode_broken hread', utf8Decode_broken hread, ih, List.cons_append]

theorem toNat_lt (c : Char) : c.val.toNat < 1114112 := by
  rcases c.valid with h | h
  · exact Nat.lt_trans h (by decide)
  · exact h.2

/-- A character number by its six-bit digits. -/
theorem digits_eq (n : ℕ) (h : n < 1114112) :
    n = 262144 * (n / 262144 % 8) + 4096 * (n / 4096 % 64) + 64 * (n / 64 % 64) + n % 64 ∧
      n / 262144 % 8 < 8 ∧ n / 4096 % 64 < 64 ∧ n / 64 % 64 < 64 ∧ n % 64 < 64 := by
  omega

/-- A smaller character has smaller bytes, whatever follows. -/
theorem encodeChar_lt {d : Char} (h : c < d) (rest rest' : List UInt8) :
    String.utf8EncodeChar c ++ rest < String.utf8EncodeChar d ++ rest' := by
  have hlt : c.val.toNat < d.val.toNat := h
  have hd := digits_eq _ (toNat_lt d)
  have hc := digits_eq _ (toNat_lt c)
  simp only [String.utf8EncodeChar]
  generalize c.val.toNat = v at *
  generalize d.val.toNat = u at *
  split_ifs <;>
    simp only [List.cons_append, List.nil_append, List.cons_lt_cons_iff, UInt8.lt_iff_toNat_lt,
      ← UInt8.toNat_inj, UInt8.toNat_ofNat'] <;>
    generalize v / 262144 % 8 = v₁, v / 4096 % 64 = v₂, v / 64 % 64 = v₃, v % 64 = v₄,
      u / 262144 % 8 = u₁, u / 4096 % 64 = u₂, u / 64 % 64 = u₃, u % 64 = u₄ at * <;>
    omega

theorem encode_lt (s t : List Char) (h : s < t) : utf8Encode s < utf8Encode t := by
  induction s generalizing t with
  | nil =>
    cases t with
    | nil => exact absurd h (List.lt_irrefl _)
    | cons d t =>
      rw [utf8Encode_cons]
      obtain ⟨b, bytes, hbytes⟩ :=
        List.exists_cons_of_ne_nil (String.utf8EncodeChar_ne_nil (c := d))
      rw [hbytes]
      exact List.nil_lt_cons _ _
  | cons c s ih =>
    cases t with
    | nil => exact absurd h (List.not_lt_nil _)
    | cons d t =>
      rw [utf8Encode_cons, utf8Encode_cons]
      rcases List.cons_lt_cons_iff.mp h with hlt | ⟨rfl, hrest⟩
      · exact encodeChar_lt hlt _ _
      · exact List.append_left_lt (ih t hrest)

/-- Bytes and characters compare alike. -/
theorem encode_lt_iff (s t : List Char) : utf8Encode s < utf8Encode t ↔ s < t := by
  refine ⟨fun h => ?_, encode_lt s t⟩
  rcases lt_trichotomy s t with hlt | rfl | hgt
  · exact hlt
  · exact absurd h (List.lt_irrefl _)
  · exact absurd (List.lt_trans h (encode_lt t s hgt)) (List.lt_irrefl _)

end KnowledgeEngine.StringText
