import KnowledgeEngine.ByteText
import KnowledgeEngine.DelimitedText
import KnowledgeEngine.Fingerprint
import Mathlib.Order.CompletePartialOrder

/-!
Keys of the suggestion and count caches (foundation/cache/keys.go). A key is a namespace
and a digest of its parts, joined with NUL between them. The prefix a user types may hold
NUL itself: it stands between parts that do not, so the joined text still has one reading.
-/

namespace KnowledgeEngine.CacheKeys

open ByteText DelimitedText Fingerprint MachineNumbers StringText

def keySeparator : UInt8 := 0

section Keys

variable (sha256 : Bytes → Bytes)

def joinParts (parts : List Bytes) : Bytes := [keySeparator].intercalate parts

def hashParts (parts : List Bytes) : Bytes :=
  utf8Encode ((sha256 (joinParts parts)).flatMap hexByte)

/-- sort.Strings compares bytes. -/
def sortStrings (parts : List Bytes) : List Bytes := parts.mergeSort fun a b => decide (a ≤ b)

def accessFingerprint (scope : List Bytes) : Bytes := hashParts sha256 (sortStrings scope)

def suggestParts (tenant resource field accessFP pfx : Bytes) (limit : ℤ) : List Bytes :=
  [tenant, resource, field, accessFP, pfx, utf8Encode (decimal limit)]

def suggestKey (tenant resource field accessFP pfx : Bytes) (limit : ℤ) : Bytes :=
  utf8Encode "suggest:".toList ++
    hashParts sha256 (suggestParts tenant resource field accessFP pfx limit)

def countKey (tenant resource generation accessFP filterHash : Bytes) : Bytes :=
  utf8Encode "count:".toList ++
    hashParts sha256 [tenant, resource, generation, accessFP, filterHash]

def countGenKey (tenant resource : Bytes) : Bytes :=
  utf8Encode "count:gen:".toList ++ (tenant ++ (utf8Encode ":".toList ++ resource))

end Keys

theorem utf8Encode_injective : Function.Injective utf8Encode :=
  Function.LeftInverse.injective utf8Decode_utf8Encode

theorem mem_hexByte {b : UInt8} {c : Char} (h : c ∈ hexByte b) :
    c ∈ (List.range 16).map Nat.digitChar := by
  have hb := b.toNat_lt
  simp only [hexByte, List.mem_cons, List.not_mem_nil, or_false] at h
  rcases h with rfl | rfl
  · exact List.mem_map_of_mem (List.mem_range.mpr (by omega))
  · exact List.mem_map_of_mem (List.mem_range.mpr (by omega))

/-- A digest is written with the sixteen digits. -/
theorem mem_hashParts {sha256 : Bytes → Bytes} {parts : List Bytes} {b : UInt8}
    (hb : b.toNat < 0x80) (h : b ∈ hashParts sha256 parts) :
    Char.ofNat b.toNat ∈ (List.range 16).map Nat.digitChar := by
  obtain ⟨byte, -, hdigit⟩ := List.mem_flatMap.mp (mem_utf8Encode_ascii hb h)
  exact mem_hexByte hdigit

theorem hashParts_plain {sha256 : Bytes → Bytes} {parts : List Bytes} :
    keySeparator ∉ hashParts sha256 parts := fun h =>
  absurd (mem_hashParts (by decide) h) (by decide)

theorem decimal_plain {n : ℤ} : keySeparator ∉ utf8Encode (decimal n) := by
  have hdigits (k : ℕ) : Char.ofNat 0 ∉ Nat.toDigits 10 k := fun h =>
    absurd (Nat.isDigit_of_mem_toDigits (by decide) (by decide) h) (by decide)
  intro h
  have hmem : Char.ofNat 0 ∈ decimal n := mem_utf8Encode_ascii (by decide) h
  cases n with
  | ofNat k => exact hdigits k hmem
  | negSucc k => simp [decimal, hdigits] at hmem

theorem hashParts_inj {sha256 : Bytes → Bytes} {texts : Set Bytes} (hsha : Set.InjOn sha256 texts)
    {parts parts' : List Bytes} (h : joinParts parts ∈ texts) (h' : joinParts parts' ∈ texts)
    (heq : hashParts sha256 parts = hashParts sha256 parts') : joinParts parts = joinParts parts' :=
  hsha h h' (hexBytes_injective (utf8Encode_injective heq))

/-- A suggestion request: the access scope holds what the query's predicate applies, the
prefix is what the user typed. -/
structure Request where
  tenant : Bytes
  resource : Bytes
  field : Bytes
  scope : List Bytes
  pfx : Bytes
  limit : ℤ
  tenant_plain : keySeparator ∉ tenant
  resource_plain : keySeparator ∉ resource
  field_plain : keySeparator ∉ field
  scope_plain : Plain keySeparator scope
  limit_fits : Fits64 limit

namespace Request

variable (sha256 : Bytes → Bytes)

def parts (r : Request) : List Bytes :=
  suggestParts r.tenant r.resource r.field (accessFingerprint sha256 r.scope) r.pfx r.limit

def key (r : Request) : Bytes :=
  suggestKey sha256 r.tenant r.resource r.field (accessFingerprint sha256 r.scope) r.pfx r.limit

/-- The texts that are hashed for a request. -/
def hashed (r : Request) : Set Bytes :=
  {joinParts (sortStrings r.scope), joinParts (r.parts sha256)}

end Request

theorem sortStrings_perm {parts : List Bytes} : (sortStrings parts).Perm parts :=
  List.mergeSort_perm parts _

theorem scope_perm {scope scope' : List Bytes} (h : Plain keySeparator scope)
    (h' : Plain keySeparator scope')
    (heq : joinParts (sortStrings scope) = joinParts (sortStrings scope')) :
    scope.Perm scope' := by
  have hsorted (l : List Bytes) (hl : Plain keySeparator l) : Plain keySeparator (sortStrings l) :=
    fun p hp => hl p (sortStrings_perm.mem_iff.mp hp)
  have hparts := join_inj (hsorted scope h) (hsorted scope' h') heq
  exact sortStrings_perm.symm.trans (hparts ▸ sortStrings_perm)

/-- Four parts without the separator are read off the front, the limit off the end; the
prefix is what is left. -/
theorem suggestParts_inj {tenant resource field fp pfx tenant' resource' field' fp' pfx' : Bytes}
    {limit limit' : ℤ} (ht : keySeparator ∉ tenant) (ht' : keySeparator ∉ tenant')
    (hr : keySeparator ∉ resource) (hr' : keySeparator ∉ resource')
    (hf : keySeparator ∉ field) (hf' : keySeparator ∉ field') (hfp : keySeparator ∉ fp)
    (hfp' : keySeparator ∉ fp')
    (h : joinParts (suggestParts tenant resource field fp pfx limit) =
      joinParts (suggestParts tenant' resource' field' fp' pfx' limit')) :
    tenant = tenant' ∧ resource = resource' ∧ field = field' ∧ fp = fp' ∧ pfx = pfx' ∧
      decimal limit = decimal limit' := by
  simp only [joinParts, suggestParts, List.intercalate_cons_cons, List.intercalate_singleton,
    List.append_assoc, List.singleton_append] at h
  obtain ⟨htenant, h⟩ := firstPart_inj ht ht' h
  obtain ⟨hresource, h⟩ := firstPart_inj hr hr' h
  obtain ⟨hfield, h⟩ := firstPart_inj hf hf' h
  obtain ⟨hfp, h⟩ := firstPart_inj hfp hfp' h
  obtain ⟨hpfx, hlimit⟩ := lastPart_inj decimal_plain decimal_plain h
  exact ⟨htenant, hresource, hfield, hfp, hpfx, utf8Encode_injective hlimit⟩

theorem request_of_key_eq {sha256 : Bytes → Bytes} {r r' : Request}
    (hsha : Set.InjOn sha256 (r.hashed sha256 ∪ r'.hashed sha256))
    (h : r.key sha256 = r'.key sha256) :
    r.tenant = r'.tenant ∧ r.resource = r'.resource ∧ r.field = r'.field ∧ r.pfx = r'.pfx ∧
      r.limit = r'.limit ∧ r.scope.Perm r'.scope := by
  have hjoined := hashParts_inj hsha (Or.inl (Or.inr rfl)) (Or.inr (Or.inr rfl))
    (List.append_cancel_left h)
  obtain ⟨htenant, hresource, hfield, hfp, hpfx, hlimit⟩ := suggestParts_inj r.tenant_plain
    r'.tenant_plain r.resource_plain r'.resource_plain r.field_plain r'.field_plain
    hashParts_plain hashParts_plain hjoined
  have hscope := hashParts_inj hsha (Or.inl (Or.inl rfl)) (Or.inr (Or.inl rfl)) hfp
  have hparse := parseDecimal_decimal r.limit_fits
  rw [hlimit, parseDecimal_decimal r'.limit_fits] at hparse
  exact ⟨htenant, hresource, hfield, hpfx, (Option.some.inj hparse).symm,
    scope_perm r.scope_plain r'.scope_plain hscope⟩

section Families

variable (sha256 : Bytes → Bytes)

def suggestKeys : Set Bytes :=
  {k | ∃ tenant resource field accessFP pfx limit,
    k = suggestKey sha256 tenant resource field accessFP pfx limit}

def countKeys : Set Bytes :=
  {k | ∃ tenant resource generation accessFP filterHash,
    k = countKey sha256 tenant resource generation accessFP filterHash}

def countGenKeys : Set Bytes := {k | ∃ tenant resource, k = countGenKey tenant resource}

end Families

theorem not_suggest_of_count {rest rest' : Bytes} :
    utf8Encode "suggest:".toList ++ rest ≠ utf8Encode "count:".toList ++ rest' := by
  intro h
  have hhead : some (0x73 : UInt8) = some 0x63 := congrArg List.head? h
  exact absurd hhead (by decide)

theorem genText_eq : utf8Encode "count:gen:".toList =
    utf8Encode "count:".toList ++ utf8Encode "gen:".toList := by
  decide

theorem countKey_ne_countGenKey {sha256 : Bytes → Bytes} {parts : List Bytes} {rest : Bytes} :
    utf8Encode "count:".toList ++ hashParts sha256 parts ≠
      utf8Encode "count:gen:".toList ++ rest := by
  intro h
  rw [genText_eq, List.append_assoc] at h
  have hdigest := List.append_cancel_left h
  have hletter : (0x67 : UInt8) ∈ hashParts sha256 parts := by
    rw [hdigest]
    exact List.mem_append_left _ (by decide)
  exact absurd (mem_hashParts (by decide) hletter) (by decide)

/-- Equal suggestion keys come from one access boundary and one query, and the three
families of keys are apart. -/
theorem suggest_entries_separate (sha256 : Bytes → Bytes) (r r' : Request)
    (hsha : Set.InjOn sha256 (r.hashed sha256 ∪ r'.hashed sha256)) :
    (r.key sha256 = r'.key sha256 →
      r.tenant = r'.tenant ∧ r.resource = r'.resource ∧ r.field = r'.field ∧ r.pfx = r'.pfx ∧
        r.limit = r'.limit ∧ r.scope.Perm r'.scope) ∧
    Disjoint (suggestKeys sha256) (countKeys sha256) ∧
    Disjoint (suggestKeys sha256) countGenKeys ∧
    Disjoint (countKeys sha256) countGenKeys := by
  refine ⟨request_of_key_eq hsha, ?_, ?_, ?_⟩ <;> rw [Set.disjoint_left]
  · rintro k ⟨_, _, _, _, _, _, rfl⟩ ⟨_, _, _, _, _, h⟩
    exact not_suggest_of_count h
  · rintro k ⟨_, _, _, _, _, _, rfl⟩ ⟨tenant, resource, h⟩
    rw [countGenKey, genText_eq, List.append_assoc] at h
    exact not_suggest_of_count h
  · rintro k ⟨_, _, _, _, _, rfl⟩ ⟨tenant, resource, h⟩
    exact countKey_ne_countGenKey h

/-- Requests that differ in the prefix alone. -/
def sampleRequest (pfx : Bytes) : Request where
  tenant := [0x61]
  resource := [0x62]
  field := [0x63]
  scope := [[0x65], [0x66]]
  pfx := pfx
  limit := 10
  tenant_plain := by decide
  resource_plain := by decide
  field_plain := by decide
  scope_plain := by unfold Plain; decide
  limit_fits := by decide

theorem sampleRequest_sorted (pfx : Bytes) :
    sortStrings (sampleRequest pfx).scope = [[0x65], [0x66]] := by
  apply List.mergeSort_of_pairwise
  show List.Pairwise (fun a b : Bytes => decide (a ≤ b) = true) [[0x65], [0x66]]
  decide

/-- A digest of 32 bytes that tells the texts of the sample requests apart. -/
def lastBytes (text : Bytes) : Bytes := (List.replicate 32 0 ++ text).drop text.length

theorem lastBytes_injOn : Set.InjOn lastBytes ((sampleRequest [0x70]).hashed lastBytes ∪
    (sampleRequest [0x70, 0]).hashed lastBytes) := by
  simp only [Request.hashed, Request.parts, accessFingerprint, sampleRequest_sorted]
  rintro a ((rfl | rfl) | (rfl | rfl)) b ((rfl | rfl) | (rfl | rfl)) h <;>
    first | rfl | exact absurd h (by decide +kernel)

theorem sample_entries_separate :
    (sampleRequest [0x70]).key lastBytes ≠ (sampleRequest [0x70, 0]).key lastBytes := fun h =>
  absurd ((suggest_entries_separate lastBytes (sampleRequest [0x70]) (sampleRequest [0x70, 0])
    lastBytes_injOn).1 h).2.2.2.1 (by decide)

end KnowledgeEngine.CacheKeys
