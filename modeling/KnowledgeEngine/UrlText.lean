import Mathlib.Data.List.Infix
import Mathlib.Data.List.TakeWhile

/-!
URLs as package net/url reads them, on bytes: a reference that starts with a slash, and the
parameters of a query. A path and a value that are put into a reference as they are come back
exactly when none of their bytes has a meaning of its own there.
-/

namespace KnowledgeEngine.UrlText

open List

/-- Bytes a URL must not have. -/
def isCTL (b : UInt8) : Bool := b < 0x20 || b == 0x7f

def hexDigit (b : UInt8) : Option UInt8 :=
  if 0x30 ≤ b ∧ b ≤ 0x39 then some (b - 0x30)
  else if 0x61 ≤ b ∧ b ≤ 0x66 then some (b - 0x61 + 10)
  else if 0x41 ≤ b ∧ b ≤ 0x46 then some (b - 0x41 + 10)
  else none

/-- What an escaped text stands for; in a query a plus sign is a space. -/
def unescape (query : Bool) : List UInt8 → Option (List UInt8)
  | [] => some []
  | b :: rest =>
    if b = 0x25 then
      match rest with
      | high :: low :: more =>
        match hexDigit high, hexDigit low with
        | some h, some l => (unescape query more).map ((h * 16 + l) :: ·)
        | _, _ => none
      | _ => none
    else (unescape query rest).map ((if query = true ∧ b = 0x2b then 0x20 else b) :: ·)

/-- strings.Cut at a byte. -/
def cutAt (sep : UInt8) (text : List UInt8) : List UInt8 × List UInt8 :=
  (text.takeWhile (· ≠ sep), (text.dropWhile (· ≠ sep)).drop 1)

structure Reference where
  Host : Option (List UInt8)
  Path : List UInt8
  RawQuery : List UInt8

/-- Whether a path starts with an authority: two slashes, but not three. -/
def hasAuthority (rest : List UInt8) : Bool :=
  [0x2f, 0x2f].isPrefixOf rest && !([0x2f, 0x2f, 0x2f].isPrefixOf rest)

/-- url.Parse of a reference that starts with a slash; the authority is kept as text. -/
def parseReference (raw : List UInt8) : Option Reference :=
  let u := (cutAt 0x23 raw).1
  if u.any isCTL = true ∨ u.head? ≠ some 0x2f ∨ unescape false (cutAt 0x23 raw).2 = none then none
  else
    let rest := (cutAt 0x3f u).1
    let query := (cutAt 0x3f u).2
    if hasAuthority rest then
      let authority := (rest.drop 2).takeWhile (· ≠ 0x2f)
      (unescape false ((rest.drop 2).dropWhile (· ≠ 0x2f))).map fun path =>
        ⟨some authority, path, query⟩
    else (unescape false rest).map fun path => ⟨none, path, query⟩

/-- One key=value pair of a query, none for a pair that Query leaves out. -/
def parsePair (segment : List UInt8) : Option (List UInt8 × List UInt8) :=
  if 0x3b ∈ segment ∨ segment = [] then none
  else
    match unescape true (cutAt 0x3d segment).1, unescape true (cutAt 0x3d segment).2 with
    | some key, some value => some (key, value)
    | _, _ => none

def parseQuery (raw : List UInt8) : List (List UInt8 × List UInt8) :=
  (raw.splitOn 0x26).filterMap parsePair

/-- The values of one key, as url.Values holds them. -/
def valuesOf (key : List UInt8) (pairs : List (List UInt8 × List UInt8)) : List (List UInt8) :=
  (pairs.filter fun p => p.1 = key).map Prod.snd

/-- The text has no control byte and none of the special bytes. -/
def Plain (specials text : List UInt8) : Prop := ∀ b ∈ text, isCTL b = false ∧ b ∉ specials

instance (specials text : List UInt8) : Decidable (Plain specials text) :=
  inferInstanceAs (Decidable (∀ b ∈ text, _))

/-- '#', '%' and '?'. -/
def pathSpecials : List UInt8 := [0x23, 0x25, 0x3f]

/-- '#', '%', '&', '+' and ';'. -/
def valueSpecials : List UInt8 := [0x23, 0x25, 0x26, 0x2b, 0x3b]

def keySpecials : List UInt8 := 0x3d :: valueSpecials

theorem hexDigit_some {b d : UInt8} (h : hexDigit b = some d) :
    d.toNat < 16 ∧ (d = 2 → b = 0x32) ∧ (d = 5 → b = 0x35) := by
  have hall : ((List.range 256).all fun n => (hexDigit (UInt8.ofNat n)).all fun d =>
      decide (d.toNat < 16 ∧ (d = 2 → UInt8.ofNat n = 0x32) ∧ (d = 5 → UInt8.ofNat n = 0x35))) =
        true := by
    decide +kernel
  have hb := all_eq_true.mp hall b.toNat (mem_range.mpr b.toNat_lt)
  rw [UInt8.ofNat_toNat, h] at hb
  exact of_decide_eq_true hb

/-- Only "25" is the escape of a percent sign. -/
theorem hexDigit_percent {high low h l : UInt8} (hh : hexDigit high = some h)
    (hl : hexDigit low = some l) (hsum : h * 16 + l = 0x25) : high = 0x32 ∧ low = 0x35 := by
  obtain ⟨hlt, htwo, -⟩ := hexDigit_some hh
  obtain ⟨hlt', -, hfive⟩ := hexDigit_some hl
  have hnat : h.toNat * 16 + l.toNat = 0x25 := by
    have hbytes := congrArg UInt8.toNat hsum
    rw [UInt8.toNat_add, UInt8.toNat_mul, show (16 : UInt8).toNat = 16 from rfl,
      show (0x25 : UInt8).toNat = 0x25 from rfl] at hbytes
    omega
  have hh : h = 2 := UInt8.toNat_inj.mp (show h.toNat = 2 by omega)
  have hl : l = 5 := UInt8.toNat_inj.mp (show l.toNat = 5 by omega)
  exact ⟨htwo hh, hfive hl⟩

/-- What unescape reads, step by step. -/
inductive Unescapes (query : Bool) : List UInt8 → List UInt8 → Prop
  | nil : Unescapes query [] []
  | plain {b : UInt8} {text out : List UInt8} (hb : b ≠ 0x25) (h : Unescapes query text out) :
      Unescapes query (b :: text) ((if query = true ∧ b = 0x2b then 0x20 else b) :: out)
  | escape {high low h l : UInt8} {text out : List UInt8} (hh : hexDigit high = some h)
      (hl : hexDigit low = some l) (hrest : Unescapes query text out) :
      Unescapes query (0x25 :: high :: low :: text) ((h * 16 + l) :: out)

variable {key text path segment name value out : List UInt8} {sep : UInt8} {ref : Reference}

theorem unescapes_of_unescape {query : Bool} (h : unescape query text = some out) :
    Unescapes query text out := by
  fun_induction unescape query text generalizing out with
  | case1 =>
    obtain rfl := Option.some.inj h
    exact .nil
  | case2 high low more d e hlow hhigh ih =>
    obtain ⟨rest, hrest, rfl⟩ := Option.map_eq_some_iff.mp h
    exact .escape hhigh hlow (ih hrest)
  | case3 | case4 => cases h
  | case5 b rest hb ih =>
    obtain ⟨more, hmore, rfl⟩ := Option.map_eq_some_iff.mp h
    exact .plain hb (ih hmore)

theorem unescape_plain {query : Bool} (h : 0x25 ∉ text) (hplus : query = true → 0x2b ∉ text) :
    unescape query text = some text := by
  induction text with
  | nil => rfl
  | cons b text ih =>
    have hb : b ≠ 0x25 := fun heq => h (heq ▸ mem_cons_self)
    have hspace : ¬ (query = true ∧ b = 0x2b) := fun hq => hplus hq.1 (hq.2 ▸ mem_cons_self)
    rw [unescape.eq_def]
    simp only [hb, if_false, hspace]
    rw [ih (fun hmem => h (mem_cons_of_mem _ hmem))
      (fun hq hmem => hplus hq (mem_cons_of_mem _ hmem)), Option.map_some]

/-- Unescaping makes percent signs of some and drops the others; each one that is made uses up
a digit two. -/
theorem Unescapes.count (h : Unescapes false text out) :
    out.count 0x25 ≤ text.count 0x25 ∧
      (out.count 0x25 = text.count 0x25 → out.count 0x32 + text.count 0x25 ≤ text.count 0x32) := by
  induction h with
  | nil => exact ⟨Nat.le_refl _, fun _ => Nat.le_refl _⟩
  | @plain b text out hb _ ih =>
    simp only [Bool.false_eq_true, false_and, if_false, count_cons_of_ne hb, count_cons]
    omega
  | @escape high low h l text out hh hl _ ih =>
    by_cases hpercent : h * 16 + l = 0x25
    · obtain ⟨rfl, rfl⟩ := hexDigit_percent hh hl hpercent
      rw [hpercent]
      simp only [count_cons, beq_iff_eq]
      simp
      omega
    · rw [count_cons_of_ne hpercent]
      simp only [count_cons, beq_iff_eq]
      simp
      omega

/-- A text with no more percent signs and digits two than what it stands for has no escape. -/
theorem percent_not_mem (h : unescape false text = some out)
    (hpercent : text.count 0x25 ≤ out.count 0x25) (htwo : text.count 0x32 ≤ out.count 0x32) :
    0x25 ∉ text := by
  have hcount := (unescapes_of_unescape h).count
  rw [← count_eq_zero]
  omega

theorem Unescapes.length {query : Bool} (h : Unescapes query text out) :
    out.length ≤ text.length ∧
      (out.length = text.length → 0x25 ∉ text ∧
        out = text.map fun b => if query = true ∧ b = 0x2b then 0x20 else b) := by
  induction h with
  | nil => simp
  | @plain b text out hb _ ih =>
    refine ⟨Nat.succ_le_succ ih.1, fun heq => ?_⟩
    obtain ⟨hmem, hout⟩ := ih.2 (Nat.succ.inj heq)
    refine ⟨?_, by rw [map_cons, hout]⟩
    rw [mem_cons]
    rintro (heq | hmem')
    · exact hb heq.symm
    · exact hmem hmem'
  | escape _ _ _ ih =>
    simp only [length_cons]
    refine ⟨by omega, fun heq => ?_⟩
    omega

theorem unescape_query_eq_self (h : unescape true text = some text) :
    0x25 ∉ text ∧ 0x2b ∉ text := by
  obtain ⟨hpercent, hmap⟩ := (unescapes_of_unescape h).length.2 rfl
  refine ⟨hpercent, fun hplus => ?_⟩
  rw [hmap] at hplus
  obtain ⟨b, -, hb⟩ := mem_map.mp hplus
  split at hb
  · cases hb
  · next hne => exact hne ⟨rfl, hb⟩

theorem ne_of_notMem (h : sep ∉ text) :
    ∀ b ∈ text, decide (b ≠ sep) = true := fun _ hb => decide_eq_true fun heq => h (heq ▸ hb)

theorem cutAt_append {before : List UInt8} (h : sep ∉ before) (after : List UInt8) :
    cutAt sep (before ++ sep :: after) = (before, after) := by
  rw [cutAt, takeWhile_append_of_pos (ne_of_notMem h),
    dropWhile_append_of_pos (ne_of_notMem h), takeWhile_cons_of_neg (by simp),
    dropWhile_cons_of_neg (by simp), append_nil, drop_one, tail_cons]

theorem cutAt_of_notMem (h : sep ∉ text) : cutAt sep text = (text, []) := by
  rw [cutAt, takeWhile_eq_self_iff.mpr (ne_of_notMem h),
    dropWhile_eq_nil_iff.mpr (ne_of_notMem h), drop_nil]

theorem length_cutAt_snd : (cutAt sep text).2.length ≤ text.length := by
  have h := (dropWhile_suffix (l := text) (p := fun b => decide (b ≠ sep))).length_le
  rw [cutAt, length_drop]
  omega

theorem length_le_of_mem_splitOn (h : segment ∈ text.splitOn sep) :
    segment.length ≤ text.length := by
  induction text generalizing segment with
  | nil =>
    rw [splitOn_nil, mem_singleton] at h
    rw [h]
  | cons b text ih =>
    rw [splitOn_cons_eq_if_modifyHead] at h
    split at h
    · rcases mem_cons.mp h with rfl | h
      · exact Nat.zero_le _
      · exact (ih h).trans (Nat.le_succ _)
    · cases hsplit : text.splitOn sep with
      | nil =>
        rw [hsplit] at h
        cases h
      | cons first rest =>
        rw [hsplit, modifyHead_cons] at h
        rcases mem_cons.mp h with rfl | h
        · exact Nat.succ_le_succ (ih (by rw [hsplit]; exact mem_cons_self))
        · exact (ih (by rw [hsplit]; exact mem_cons_of_mem _ h)).trans (Nat.le_succ _)

theorem parsePair_value (h : parsePair segment = some (key, value)) :
    unescape true (cutAt 0x3d segment).2 = some value := by
  unfold parsePair at h
  split_ifs at h
  split at h
  · next _ _ hkey hvalue =>
    cases h
    exact hvalue
  · cases h

theorem Plain.notMem {specials : List UInt8} (h : Plain specials text) {b : UInt8}
    (hb : b ∈ specials) : b ∉ text := fun hmem => (h b hmem).2 hb

theorem length_pair_le (h : parsePair segment = some (name, value)) :
    value.length ≤ segment.length :=
  (unescapes_of_unescape (parsePair_value h)).length.1.trans length_cutAt_snd

/-- A text that is cut at an ampersand gives only shorter values. -/
theorem value_shorter (hkey : Plain keySpecials key) (hand : 0x26 ∈ text)
    (h : (name, value) ∈ parseQuery (key ++ 0x3d :: text)) : value.length < text.length := by
  obtain ⟨first, rest, rfl, hfirst⟩ := eq_append_cons_of_mem hand
  have hsep : 0x26 ∉ key ++ 0x3d :: first := by
    simp only [mem_append, mem_cons, not_or]
    exact ⟨hkey.notMem (by decide), by decide, hfirst⟩
  obtain ⟨segment, hsegment, hpair⟩ := mem_filterMap.mp h
  rw [← cons_append, ← append_assoc,
    splitOn_append_cons_self_of_not_mem hsep] at hsegment
  rw [length_append, length_cons]
  rcases mem_cons.mp hsegment with rfl | hsegment
  · have hvalue := parsePair_value hpair
    rw [cutAt_append (hkey.notMem (by decide))] at hvalue
    have hlength : value.length ≤ first.length := (unescapes_of_unescape hvalue).length.1
    omega
  · have hvalue := length_pair_le hpair
    have hlength := length_le_of_mem_splitOn hsegment
    omega

/-- A text without ampersands is one pair. -/
theorem parseQuery_single (hkey : Plain keySpecials key) (hand : 0x26 ∉ text) :
    parseQuery (key ++ 0x3d :: text) =
      if 0x3b ∈ text then [] else ((unescape true text).map fun value => (key, value)).toList := by
  have hsep : 0x26 ∉ key ++ 0x3d :: text := by
    simp only [mem_append, mem_cons, not_or]
    exact ⟨hkey.notMem (by decide), by decide, hand⟩
  have hsemi : 0x3b ∈ key ++ 0x3d :: text ↔ 0x3b ∈ text := by
    simp only [mem_append, mem_cons]
    have hne : (0x3b : UInt8) ∉ key := hkey.notMem (by decide)
    simp [hne]
  rw [parseQuery, splitOn_eq_singleton hsep, filterMap_cons, filterMap_nil, parsePair,
    cutAt_append (hkey.notMem (by decide)),
    unescape_plain (hkey.notMem (by decide)) fun _ => hkey.notMem (by decide)]
  by_cases hmem : 0x3b ∈ text
  · rw [if_pos (.inl (hsemi.mpr hmem)), if_pos hmem]
  · have hne : ¬ (0x3b ∈ key ++ 0x3d :: text ∨ key ++ 0x3d :: text = []) := by
      simp [hsemi, hmem]
    rw [if_neg hne, if_neg hmem]
    cases unescape true text <;> rfl

theorem length_value_le (hkey : Plain keySpecials key)
    (h : (name, value) ∈ parseQuery (key ++ 0x3d :: text)) : value.length ≤ text.length := by
  by_cases hand : 0x26 ∈ text
  · exact (value_shorter hkey hand h).le
  · rw [parseQuery_single hkey hand] at h
    split at h
    · cases h
    · obtain ⟨out, hout, hpair⟩ := Option.map_eq_some_iff.mp (Option.mem_toList.mp h)
      cases hpair
      exact (unescapes_of_unescape hout).length.1

/-- A value that comes back unchanged has no special byte of a query. -/
theorem notMem_of_value_eq (hkey : Plain keySpecials key)
    (h : (name, text) ∈ parseQuery (key ++ 0x3d :: text)) :
    0x25 ∉ text ∧ 0x26 ∉ text ∧ 0x2b ∉ text ∧ 0x3b ∉ text := by
  have hand : 0x26 ∉ text := fun hmem => Nat.lt_irrefl _ (value_shorter hkey hmem h)
  rw [parseQuery_single hkey hand] at h
  split at h
  · cases h
  · next hsemi =>
    obtain ⟨out, hout, hpair⟩ := Option.map_eq_some_iff.mp (Option.mem_toList.mp h)
    cases hpair
    obtain ⟨hpercent, hplus⟩ := unescape_query_eq_self hout
    exact ⟨hpercent, hand, hplus, hsemi⟩

theorem parseQuery_plain (hkey : Plain keySpecials key) (htext : Plain valueSpecials text) :
    parseQuery (key ++ 0x3d :: text) = [(key, text)] := by
  rw [parseQuery_single hkey (htext.notMem (by decide)), if_neg (htext.notMem (by decide)),
    unescape_plain (htext.notMem (by decide)) fun _ => htext.notMem (by decide)]
  rfl

/-- The bytes of a path that neither a query nor a fragment follows. -/
def inPath (b : UInt8) : Bool := b ≠ 0x3f && b ≠ 0x23

/-- The path of a reference is read from the bytes before the first '?' or '#'. -/
theorem cutAt_path (shown query : List UInt8) :
    (cutAt 0x3f (cutAt 0x23 (shown ++ 0x3f :: query)).1).1 = shown.takeWhile inPath := by
  induction shown with
  | nil => rfl
  | cons b shown ih =>
    simp only [cutAt, cons_append] at ih ⊢
    by_cases hhash : b = 0x23
    · subst hhash
      rfl
    · by_cases hquery : b = 0x3f
      · subst hquery
        rfl
      · rw [takeWhile_cons_of_pos (by simpa using hhash),
          takeWhile_cons_of_pos (by simpa using hquery),
          takeWhile_cons_of_pos (by simp [inPath, hhash, hquery]), ih]

theorem parseReference_inv {raw : List UInt8} (h : parseReference raw = some ref)
    (hhost : ref.Host = none) :
    (cutAt 0x23 raw).1.any isCTL = false ∧
      hasAuthority (cutAt 0x3f (cutAt 0x23 raw).1).1 = false ∧
      unescape false (cutAt 0x3f (cutAt 0x23 raw).1).1 = some ref.Path ∧
      ref.RawQuery = (cutAt 0x3f (cutAt 0x23 raw).1).2 := by
  unfold parseReference at h
  dsimp only at h
  split at h
  · cases h
  · next hok =>
    rw [not_or, Bool.not_eq_true] at hok
    split at h
    · obtain ⟨path, -, rfl⟩ := Option.map_eq_some_iff.mp h
      cases hhost
    · next hauthority =>
      obtain ⟨path, hpath, rfl⟩ := Option.map_eq_some_iff.mp h
      exact ⟨hok.1, eq_false_of_ne_true hauthority, hpath, rfl⟩

/-- Put into a reference as they are, a path and a value are read from it again. -/
theorem parseReference_plain (hslash : path.head? = some 0x2f) (hpath : Plain pathSpecials path)
    (hauthority : hasAuthority path = false) (hkey : Plain keySpecials key)
    (hvalue : Plain valueSpecials value) :
    parseReference (path ++ 0x3f :: (key ++ 0x3d :: value)) =
      some ⟨none, path, key ++ 0x3d :: value⟩ := by
  have hhash : (0x23 : UInt8) ∉ path ++ 0x3f :: (key ++ 0x3d :: value) := by
    simp only [mem_append, mem_cons, not_or]
    exact ⟨hpath.notMem (by decide), by decide, hkey.notMem (by decide), by decide,
      hvalue.notMem (by decide)⟩
  have hctl : (path ++ 0x3f :: (key ++ 0x3d :: value)).any isCTL = false := by
    rw [any_eq_false]
    intro b hb
    rw [Bool.not_eq_true]
    simp only [mem_append, mem_cons] at hb
    rcases hb with hb | rfl | hb | rfl | hb
    · exact (hpath b hb).1
    · rfl
    · exact (hkey b hb).1
    · rfl
    · exact (hvalue b hb).1
  have hhead : (path ++ 0x3f :: (key ++ 0x3d :: value)).head? = some 0x2f := by
    rw [List.head?_append, hslash, Option.some_or]
  rw [parseReference, cutAt_of_notMem hhash]
  simp only [hctl, hhead, cutAt_append (hpath.notMem (b := 0x3f) (by decide)), hauthority]
  rw [unescape_plain (hpath.notMem (by decide)) (by simp)]
  simp [unescape]

theorem cutAt_fragment {front : List UInt8} (h : 0x23 ∉ front) (text : List UInt8) :
    (cutAt 0x23 (front ++ text)).1 = front ++ (cutAt 0x23 text).1 := by
  rw [cutAt, cutAt, takeWhile_append_of_pos (ne_of_notMem h)]

/-- The path read from a reference is the path it was made with only if nothing in that path is
special. It may have been shown with other bytes above 0x7f. -/
theorem path_of_parseReference {shown query : List UInt8}
    (hcount : ∀ a : UInt8, a.toNat < 0x80 → shown.count a = path.count a)
    (h : parseReference (shown ++ 0x3f :: query) = some ref) (hhost : ref.Host = none)
    (hpath : ref.Path = path) :
    shown = path ∧ (∀ b ∈ pathSpecials, b ∉ path) ∧ hasAuthority path = false ∧
      (path ++ 0x3f :: (cutAt 0x23 query).1).any isCTL = false ∧
      ref.RawQuery = (cutAt 0x23 query).1 := by
  obtain ⟨hctl, hauthority, hread, hquery⟩ := parseReference_inv h hhost
  rw [cutAt_path] at hauthority hread
  rw [hpath] at hread
  have hpart : shown.takeWhile inPath <+: shown := takeWhile_prefix _
  have hpercent := percent_not_mem hread
    ((hpart.sublist.count_le _).trans_eq (hcount _ (by decide)))
    ((hpart.sublist.count_le _).trans_eq (hcount _ (by decide)))
  have hsame : shown.takeWhile inPath = path := by
    rw [unescape_plain hpercent (by simp)] at hread
    exact Option.some.inj hread
  have hends : ∀ b : UInt8, b.toNat < 0x80 → inPath b = false → b ∉ shown := by
    intro b hb hin hmem
    rw [← count_pos_iff, hcount b hb, count_pos_iff, ← hsame] at hmem
    rw [mem_takeWhile_imp hmem] at hin
    cases hin
  have hquestion := hends 0x3f (by decide) rfl
  have hhash := hends 0x23 (by decide) rfl
  have hshown : shown = path := by
    rw [← hsame, eq_comm, takeWhile_eq_self_iff]
    intro b hmem
    have hneq : b ≠ 0x3f := fun heq => hquestion (heq ▸ hmem)
    have hneh : b ≠ 0x23 := fun heq => hhash (heq ▸ hmem)
    simp [inPath, hneq, hneh]
  rw [hsame] at hauthority hpercent
  rw [hshown] at hctl hquery hquestion hhash
  have hfront : 0x23 ∉ path ++ [0x3f] := by
    simpa only [mem_append, not_or, mem_singleton] using ⟨hhash, by decide⟩
  have hcut : (cutAt 0x23 (path ++ 0x3f :: query)).1 = path ++ 0x3f :: (cutAt 0x23 query).1 := by
    rw [append_cons, cutAt_fragment hfront, ← append_cons]
  rw [hcut] at hctl hquery
  rw [cutAt_append hquestion] at hquery
  refine ⟨hshown, ?_, hauthority, hctl, hquery⟩
  simp only [pathSpecials, forall_mem_cons]
  exact ⟨hhash, hpercent, hquestion, by simp⟩

theorem mem_of_valuesOf {pairs : List (List UInt8 × List UInt8)}
    (h : valuesOf key pairs = [value]) :
    (key, value) ∈ pairs := by
  have hmem : value ∈ valuesOf key pairs := h ▸ mem_singleton_self value
  obtain ⟨⟨name, _⟩, hpair, rfl⟩ := mem_map.mp hmem
  obtain ⟨hin, hname⟩ := mem_filter.mp hpair
  obtain rfl : name = key := of_decide_eq_true hname
  exact hin

/-- What is read from a reference is what it was made with only if nothing in it is special. -/
theorem plain_of_parseReference {shown : List UInt8}
    (hcount : ∀ a : UInt8, a.toNat < 0x80 → shown.count a = path.count a)
    (hkey : Plain keySpecials key)
    (h : parseReference (shown ++ 0x3f :: (key ++ 0x3d :: value)) = some ref)
    (hhost : ref.Host = none) (hpath : ref.Path = path)
    (hvalue : valuesOf key (parseQuery ref.RawQuery) = [value]) :
    shown = path ∧ Plain pathSpecials path ∧ hasAuthority path = false ∧
      Plain valueSpecials value := by
  obtain ⟨hshown, hspecial, hauthority, hctl, hquery⟩ :=
    path_of_parseReference hcount h hhost hpath
  have hfront : 0x23 ∉ key ++ [0x3d] := by
    simpa only [mem_append, not_or, mem_singleton] using
      ⟨hkey.notMem (by decide), by decide⟩
  have hcut : (cutAt 0x23 (key ++ 0x3d :: value)).1 = key ++ 0x3d :: (cutAt 0x23 value).1 := by
    rw [append_cons, cutAt_fragment hfront, ← append_cons]
  rw [hcut] at hctl hquery
  rw [hquery] at hvalue
  have hmem := mem_of_valuesOf hvalue
  have hpart : (cutAt 0x23 value).1 <+: value := takeWhile_prefix _
  have hwhole : (cutAt 0x23 value).1 = value := hpart.eq_of_length_le (length_value_le hkey hmem)
  have hhash : 0x23 ∉ value := by
    intro hin
    rw [← hwhole] at hin
    exact absurd (mem_takeWhile_imp hin) (by simp)
  rw [hwhole] at hctl hmem
  obtain ⟨hpercent, hand, hplus, hsemi⟩ := notMem_of_value_eq hkey hmem
  have hplain : ∀ b ∈ valueSpecials, b ∉ value := by
    simp only [valueSpecials, forall_mem_cons]
    exact ⟨hhash, hpercent, hand, hplus, hsemi, by simp⟩
  have hbytes : ∀ b ∈ path ++ 0x3f :: (key ++ 0x3d :: value), isCTL b = false := fun b hb =>
    eq_false_of_ne_true (any_eq_false.mp hctl b hb)
  refine ⟨hshown, fun b hb => ⟨hbytes b ?_, fun hin => hspecial b hin hb⟩, hauthority,
    fun b hb => ⟨hbytes b ?_, fun hin => hplain b hin hb⟩⟩
  · exact mem_append_left _ hb
  · simp [hb]

end KnowledgeEngine.UrlText
