import KnowledgeEngine.DelimitedText
import KnowledgeEngine.TokenLedgerBudget
import Mathlib.Order.CompletePartialOrder

/-!
The Redis keys of the scopes of a token ledger. They are built by joining the ids of a scope
with colons, so two scopes share keys when their joined ids are the same text, and a counter
key of one is the limits key of the other when the ids themselves spell it.
-/

namespace KnowledgeEngine.TokenLedger

open DelimitedText TimeText

/-- The organization and workspace of a scope as every key of the scope holds them. -/
def UsageScope.joined (scope : UsageScope) : Text := scope.orgId ++ ':' :: scope.workspace

/-- The keys read or written for a scope by the ledgers with the prefix, of all window kinds. -/
def scopeKeys (redisPrefix : Text) (scope : UsageScope) : Set Text :=
  { key | ∃ window, key = limitsKey ⟨window, redisPrefix⟩ scope ∨
    ∃ ts, key = counterKey ⟨window, redisPrefix⟩ scope (windowText window ts) }

/-- No record of the writer changes an answer about the reader, then or later. -/
def Unaffected (redisPrefix : Text) (writer other : UsageScope) : Prop :=
  ∀ (window : Period) (reader : NumberReader) (now later : Datetime) (redis redis' : Redis)
    (written : UsageRecord), written.scope = writer →
    record ⟨window, redisPrefix⟩ now redis written = some redis' →
      checkBudget ⟨window, redisPrefix⟩ reader later redis' other =
        checkBudget ⟨window, redisPrefix⟩ reader later redis other ∧
      ∀ period, usage ⟨window, redisPrefix⟩ later redis' other period =
        usage ⟨window, redisPrefix⟩ later redis other period

structure Isolated (redisPrefix : Text) (a b : UsageScope) : Prop where
  keys : Disjoint (scopeKeys redisPrefix a) (scopeKeys redisPrefix b)
  left : Unaffected redisPrefix a b
  right : Unaffected redisPrefix b a

/-- The ids of the second scope do not spell the limits key of the first. -/
def LimitsApart (a b : UsageScope) : Prop :=
  ∀ window ts, "limits".toList ++ ':' :: a.joined ≠ b.joined ++ ':' :: windowText window ts

structure Separated (a b : UsageScope) : Prop where
  joined : a.joined ≠ b.joined
  left : LimitsApart a b
  right : LimitsApart b a

theorem colon_not_mem_padded (width n : ℕ) : ':' ∉ padded width n := by
  intro h
  have hdigit := padded_isDigit width n ':' h
  exact absurd hdigit (by decide)

theorem colon_not_mem_windowText {window : Period} {ts : Datetime} :
    ':' ∉ windowText window ts := by
  have hmonth : ':' ∉ monthText ts.date := by
    unfold monthText
    simp [colon_not_mem_padded]
  have hday : ':' ∉ dayText ts.date := by
    unfold dayText
    simp [colon_not_mem_padded, hmonth]
  cases window with
  | monthly => exact hmonth
  | daily => exact hday
  | rolling30d => exact hday

theorem counterKey_eq (config : Config) (scope : UsageScope) (text : Text) :
    counterKey config scope text =
      config.redisPrefix ++ ':' :: (scope.joined ++ ':' :: text) := by
  simp [counterKey, UsageScope.joined]

theorem limitsKey_eq (config : Config) (scope : UsageScope) :
    limitsKey config scope =
      config.redisPrefix ++ ':' :: ("limits".toList ++ ':' :: scope.joined) := rfl

theorem key_inj {redisPrefix x y : Text}
    (h : redisPrefix ++ ':' :: x = redisPrefix ++ ':' :: y) : x = y :=
  (List.cons.inj (List.append_cancel_left h)).2

theorem Separated.disjoint {a b : UsageScope} (h : Separated a b) (redisPrefix : Text) :
    Disjoint (scopeKeys redisPrefix a) (scopeKeys redisPrefix b) := by
  rw [Set.disjoint_left]
  rintro key ⟨window, ha⟩ ⟨window', hb⟩
  simp only [counterKey_eq, limitsKey_eq] at ha hb
  rcases ha with rfl | ⟨ts, rfl⟩ <;> rcases hb with hb | ⟨ts', hb⟩
  · exact h.joined (key_inj (key_inj hb))
  · exact h.left window' ts' (key_inj hb)
  · exact h.right window ts (key_inj hb).symm
  · exact h.joined (lastPart_inj colon_not_mem_windowText colon_not_mem_windowText (key_inj hb)).1

theorem mem_scopeKeys_of_windowKeys {config : Config} {scope : UsageScope} {now : Datetime}
    {keys : List Text} (h : windowKeys config scope now = some keys) :
    ∀ key ∈ keys, key ∈ scopeKeys config.redisPrefix scope := by
  by_cases hfits : WindowFits config.window now
  · obtain ⟨times, htimes, _⟩ := windowKeys_eq_some config scope now hfits
    rw [htimes] at h
    obtain rfl := Option.some.inj h
    intro key hkey
    obtain ⟨ts, _, rfl⟩ := List.mem_map.mp hkey
    exact ⟨config.window, Or.inr ⟨ts, rfl⟩⟩
  · rw [windowKeys_eq_none config scope hfits] at h
    cases h

section Frame

variable {config : Config} {scope : UsageScope} {redis redis' : Redis}

theorem read_frame (now : Datetime) {keys : List Text} (h : ∀ key ∈ keys, redis' key = redis key) :
    read now redis' keys = read now redis keys := by
  refine List.map_congr_left fun key hkey => ?_
  rw [lookup, lookup, h key hkey]

/-- The answers about a scope depend on the hashes at its keys only. -/
theorem checkBudget_frame {reader : NumberReader} {now : Datetime}
    (h : ∀ key ∈ scopeKeys config.redisPrefix scope, redis' key = redis key) :
    checkBudget config reader now redis' scope = checkBudget config reader now redis scope := by
  have hlimits : redis' (limitsKey config scope) = redis (limitsKey config scope) :=
    h _ ⟨config.window, Or.inl rfl⟩
  unfold checkBudget
  cases hkeys : windowKeys config scope now with
  | none => simp only [Option.bind_eq_bind, Option.bind_none]
  | some keys =>
    have hread := read_frame now fun key hkey =>
      h key (mem_scopeKeys_of_windowKeys hkeys key hkey)
    simp only [Option.bind_eq_bind, Option.bind_some, hread, lookup, hlimits]

theorem usage_frame {now : Datetime} {period : Period}
    (h : ∀ key ∈ scopeKeys config.redisPrefix scope, redis' key = redis key) :
    usage config now redis' scope period = usage config now redis scope period := by
  unfold usage
  cases hkeys : windowKeys config scope now with
  | none => simp only [Option.bind_eq_bind, Option.bind_none]
  | some keys =>
    have hread := read_frame now fun key hkey =>
      h key (mem_scopeKeys_of_windowKeys hkeys key hkey)
    simp only [Option.bind_eq_bind, Option.bind_some, hread]

end Frame

/-- A record writes one key of its scope. -/
theorem record_frame {config : Config} {now : Datetime} {redis redis' : Redis}
    {written : UsageRecord} (h : record config now redis written = some redis') {key : Text}
    (hkey : key ∉ scopeKeys config.redisPrefix written.scope) : redis' key = redis key := by
  obtain ⟨_, hash, _, _, rfl⟩ := record_eq config h
  refine Function.update_of_ne (fun heq => hkey ?_) _ _
  exact ⟨config.window, Or.inr ⟨written.ts, heq⟩⟩

theorem unaffected_of_disjoint {redisPrefix : Text} {writer other : UsageScope}
    (h : Disjoint (scopeKeys redisPrefix writer) (scopeKeys redisPrefix other)) :
    Unaffected redisPrefix writer other := by
  intro window reader now later redis redis' written hscope hrecord
  have hsame : ∀ key ∈ scopeKeys redisPrefix other, redis' key = redis key := by
    intro key hkey
    refine record_frame hrecord fun hwriter => ?_
    rw [hscope] at hwriter
    exact Set.disjoint_left.mp h hwriter hkey
  exact ⟨checkBudget_frame hsame, fun period => usage_frame hsame⟩

theorem Isolated.separated {redisPrefix : Text} {a b : UsageScope}
    (h : Isolated redisPrefix a b) : Separated a b := by
  have hdisjoint := Set.disjoint_left.mp h.keys
  constructor
  case joined =>
    intro heq
    refine hdisjoint ⟨.daily, Or.inl rfl⟩ ⟨.daily, Or.inl ?_⟩
    rw [limitsKey_eq, limitsKey_eq, heq]
  case left =>
    intro window ts heq
    refine hdisjoint ⟨window, Or.inl rfl⟩ ⟨window, Or.inr ⟨ts, ?_⟩⟩
    rw [limitsKey_eq, counterKey_eq, heq]
  case right =>
    intro window ts heq
    refine hdisjoint ⟨window, Or.inr ⟨ts, rfl⟩⟩ ⟨window, Or.inl ?_⟩
    rw [limitsKey_eq, counterKey_eq, heq]

/-- Two scopes are isolated exactly when the joined ids differ and neither spells the limits
key of the other. -/
theorem isolated_iff_separated (redisPrefix : Text) (a b : UsageScope) :
    Isolated redisPrefix a b ↔ Separated a b := by
  constructor
  · exact Isolated.separated
  · intro h
    have hkeys := h.disjoint redisPrefix
    exact ⟨hkeys, unaffected_of_disjoint hkeys, unaffected_of_disjoint hkeys.symm⟩

/-- Organization a:b with workspace c, and organization a with workspace b:c. -/
def colonScope : UsageScope := ⟨"a:b".toList, some "c".toList, by decide⟩

def plainScope : UsageScope := ⟨"a".toList, some "b:c".toList, by decide⟩

/-- Redis with a limit of 5 tokens for the second scope. -/
def limitedRedis : Redis := fun key =>
  if key = limitsKey dailyLedger plainScope then
    some { Hash.empty with tokens := some ['5'] }
  else none

/-- A record of the first scope uses up the budget of the second. -/
theorem colonScope_affects_plainScope :
    colonScope ≠ plainScope ∧
      (checkBudget dailyLedger plainReader octoberDay limitedRedis plainScope).map
        BudgetDecision.allowed = some true ∧
      ((record dailyLedger octoberDay limitedRedis
        ⟨colonScope, 3, 4, 0, ⟨0, 0⟩, octoberDay⟩).bind fun redis =>
          (checkBudget dailyLedger plainReader octoberDay redis plainScope).map
            BudgetDecision.allowed) = some false := by
  decide +kernel

end KnowledgeEngine.TokenLedger
