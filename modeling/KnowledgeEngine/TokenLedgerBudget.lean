import KnowledgeEngine.TokenLedgerWindows
import KnowledgeEngine.Transitions

/-!
What check_budget answers after any records of one scope, at clock times that do not go back.
The counters of a bucket that has not expired are the sums over the usages recorded for it, so
the sums of the window are those of the usages in the window.
-/

namespace KnowledgeEngine.TokenLedger

open Decimals Function List MachineNumbers Transitions

/-- What a usage adds to each counter, the cost in micro-dollars rounded half to even. -/
def UsageRecord.amounts (usage : UsageRecord) : Counters
  | .inputTokens => usage.inputTokens
  | .outputTokens => usage.outputTokens
  | .embedTokens => usage.embedTokens
  | .costMicroUsd => roundHalfEven (usage.costUsd.value * 1000000)

def UsageRecord.totalTokens (usage : UsageRecord) : ℤ :=
  usage.inputTokens + usage.outputTokens + usage.embedTokens

/-- The ledger of one scope: Redis, the last clock reading, and for the statements the usages
recorded so far and the limits last written. -/
structure State where
  redis : Redis
  clock : ℤ
  usages : List UsageRecord
  tokens : Option Text
  costUsd : Option Text

def State.initial : State := ⟨fun _ => none, minMicros, [], none, none⟩

inductive Label where
  | record (now : Datetime) (usage : UsageRecord)
  | setLimits (now : Datetime) (tokens costUsd : Option Text)

variable (config : Config) (scope : UsageScope)

/-- A record call of the scope whose script run succeeds, or the owner of the limits writing
them. -/
def step (s : State) : Label → Option State
  | .record now usage =>
    if s.clock ≤ now.micros ∧ usage.scope = scope then
      (record config now s.redis usage).map fun redis =>
        { s with redis, clock := now.micros, usages := s.usages ++ [usage] }
    else none
  | .setLimits now tokens costUsd =>
    if s.clock ≤ now.micros then
      let key := limitsKey config scope
      let hash := (lookup now s.redis key).getD Hash.empty
      some { s with
        redis := update s.redis key (some { hash with tokens, costUsd })
        clock := now.micros
        tokens := tokens
        costUsd := costUsd }
    else none

/-- The sum over the usages of a bucket. -/
def slotTotal (window : Period) (usages : List UsageRecord) (slotId : ℤ) (field : Field) : ℤ :=
  ((usages.filter fun u => slot window u.ts = slotId).map fun u => u.amounts field).sum

/-- The sum over the usages of the window of now. -/
def windowTotal (window : Period) (usages : List UsageRecord) (now : Datetime)
    (amount : UsageRecord → ℤ) : ℤ :=
  ((usages.filter fun u => InWindow window now u.ts).map amount).sum

theorem ten_zpow_microDollar : (10 : ℚ) ^ microDollar = 1 / 1000000 := by
  rw [microDollar]
  norm_num

variable (reader : NumberReader)

/-- The limit texts read as a number of tokens and a whole number of micro-dollars. -/
def LimitsRead (tokens costUsd : Option Text) (tokenLimit microLimit : Option ℤ) : Prop :=
  tokens.mapM reader.int = some tokenLimit ∧
    ∃ d : Option Decimal, costUsd.mapM reader.decimal = some (d.map Amount.finite) ∧
      d.map Decimal.value = microLimit.map fun micros : ℤ => (micros : ℚ) / 1000000

theorem costMicros_eq {cost : Decimal} {micros : ℤ} (h : costMicros cost = some micros) :
    micros = roundHalfEven (cost.value * 1000000) := by
  obtain ⟨quantized, hquantized, hmicros⟩ := Option.bind_eq_some_iff.mp h
  obtain ⟨hvalue, hsmall⟩ := quantize_eq_some hquantized
  have hproduct : quantized.value * Decimal.value ⟨1000000, 0⟩ =
      (quantized.coeff : ℚ) * (10 : ℚ) ^ (0 : ℤ) := by
    rw [Decimal.value, Decimal.value, congrArg Decimal.exp hvalue, ten_zpow_microDollar]
    ring
  have hint := toInt_of_value (by
    rw [mul_exact hsmall hproduct, zpow_zero, mul_one])
  rw [← Option.some.inj hmicros, hint, congrArg Decimal.coeff hvalue, ten_zpow_microDollar,
    div_div_eq_mul_div, div_one]

variable {s : State} {usage : UsageRecord}

theorem increments_eq {increments : Counters} (h : usage.increments = some increments) :
    increments = usage.amounts := by
  obtain ⟨micros, hmicros, hincrements⟩ := Option.bind_eq_some_iff.mp h
  rw [← Option.some.inj hincrements]
  funext field
  cases field with
  | costMicroUsd => exact costMicros_eq hmicros
  | _ => rfl

theorem hincrby_eq {value increment result : ℤ} (h : hincrby value increment = some result) :
    result = value + increment ∧ Fits64 result := by
  obtain ⟨inc, hinc, hresult⟩ := Option.bind_eq_some_iff.mp h
  obtain ⟨_, hinc⟩ := Option.ite_none_right_eq_some.mp hinc
  have hfits := fitting_fits hresult
  obtain ⟨_, hresult⟩ := Option.ite_none_right_eq_some.mp hresult
  rw [Option.some.inj hinc]
  exact ⟨(Option.some.inj hresult).symm, hfits⟩

theorem increase_eq {counters increments result : Counters}
    (h : increase counters increments = some result) {field : Field} :
    result field = counters field + increments field ∧ Fits64 (result field) := by
  obtain ⟨a, ha, h⟩ := Option.bind_eq_some_iff.mp h
  obtain ⟨b, hb, h⟩ := Option.bind_eq_some_iff.mp h
  obtain ⟨c, hc, h⟩ := Option.bind_eq_some_iff.mp h
  obtain ⟨d, hd, h⟩ := Option.bind_eq_some_iff.mp h
  rw [← Option.some.inj h]
  cases field with
  | inputTokens => exact hincrby_eq ha
  | outputTokens => exact hincrby_eq hb
  | embedTokens => exact hincrby_eq hc
  | costMicroUsd => exact hincrby_eq hd

/-- The hash of a bucket holds the sums over its usages until it expires. -/
def Counted (window : Period) (usages : List UsageRecord) (ts : Datetime) : Option Hash → Prop
  | none => ∀ u ∈ usages, slot window u.ts ≠ slot window ts
  | some hash =>
    DayFits (stopDay window ts) ∧ hash.expireAt = some (stopDay window ts * 86400) ∧
      ∀ field, hash.counters field = slotTotal window usages (slot window ts) field ∧
        Fits64 (hash.counters field)

/-- The limits hash holds the limits last written and does not expire. -/
def Limited (tokens costUsd : Option Text) (hash : Option Hash) : Prop :=
  (hash.getD Hash.empty).expireAt = none ∧ (hash.getD Hash.empty).tokens = tokens ∧
    (hash.getD Hash.empty).costUsd = costUsd

structure Inv (s : State) : Prop where
  counted : ∀ ts, (DayFits (stopDay config.window ts) →
    s.clock < stopDay config.window ts * microsPerDay) →
      Counted config.window s.usages ts
        (s.redis (counterKey config scope (windowText config.window ts)))
  limited : Limited s.tokens s.costUsd (s.redis (limitsKey config scope))

variable {now ts : Datetime} {redis : Redis}

/-- What one record writes. -/
theorem record_eq {redis' : Redis} (h : record config now redis usage = some redis') :
    DayFits (stopDay config.window usage.ts) ∧
      ∃ hash : Hash, hash.expireAt = some (stopDay config.window usage.ts * 86400) ∧
        (∀ field, hash.counters field =
          ((lookup now redis (counterKey config usage.scope
            (windowText config.window usage.ts))).getD Hash.empty).counters field +
              usage.amounts field ∧ Fits64 (hash.counters field)) ∧
        redis' = update redis
          (counterKey config usage.scope (windowText config.window usage.ts))
          (if hash.live now then some hash else none) := by
  obtain ⟨⟨window, expireAt⟩, hbucket, h⟩ := Option.bind_eq_some_iff.mp h
  rw [bucket_eq] at hbucket
  obtain ⟨hfits, hbucket⟩ := Option.ite_none_right_eq_some.mp hbucket
  obtain ⟨rfl, rfl⟩ := Prod.mk.inj (Option.some.inj hbucket)
  obtain ⟨increments, hincrements, h⟩ := Option.bind_eq_some_iff.mp h
  obtain ⟨counters, hcounters, h⟩ := Option.bind_eq_some_iff.mp h
  refine ⟨hfits, _, rfl, fun field => ?_, (Option.some.inj h).symm⟩
  rw [← increments_eq hincrements]
  exact increase_eq hcounters

theorem slotTotal_snoc (window : Period) (usages : List UsageRecord) (usage : UsageRecord)
    (slotId : ℤ) (field : Field) :
    slotTotal window (usages ++ [usage]) slotId field =
      slotTotal window usages slotId field +
        if slot window usage.ts = slotId then usage.amounts field else 0 := by
  unfold slotTotal
  by_cases h : slot window usage.ts = slotId <;> simp [h]

theorem live_iff {hash : Hash} {day : ℤ} (h : hash.expireAt = some (day * 86400)) :
    hash.live now = true ↔ now.micros < day * microsPerDay := by
  rw [Hash.live, h, Option.all_some, decide_eq_true_eq, Int.mul_assoc]
  exact Iff.rfl

variable {usages : List UsageRecord} {window : Period}

/-- Before a bucket expires its hash is read as it was written. -/
theorem Counted.lookup_eq {key : Text} (h : Counted window usages ts (redis key))
    (hnow : DayFits (stopDay window ts) → now.micros < stopDay window ts * microsPerDay) :
    lookup now redis key = redis key := by
  unfold lookup
  cases hhash : redis key with
  | none => rfl
  | some hash =>
    rw [hhash] at h
    rw [Option.filter_some, if_pos ((live_iff h.2.1).mpr (hnow h.1))]

theorem Counted.counters_eq {hash : Option Hash} (h : Counted window usages ts hash)
    (field : Field) :
    (hash.getD Hash.empty).counters field = slotTotal window usages (slot window ts) field ∧
      Fits64 ((hash.getD Hash.empty).counters field) := by
  cases hash with
  | none =>
    have hempty : (usages.filter fun u => slot window u.ts = slot window ts) = [] := by
      rw [filter_eq_nil_iff]
      exact fun u hu => by simpa using h u hu
    rw [slotTotal, hempty]
    exact ⟨rfl, (by decide : Fits64 0)⟩
  | some hash => exact h.2.2 field

theorem Counted.snoc {hash : Option Hash} (h : Counted window usages ts hash)
    (hslot : slot window usage.ts ≠ slot window ts) :
    Counted window (usages ++ [usage]) ts hash := by
  cases hash with
  | none =>
    intro u hu
    rcases mem_append.mp hu with hu | hu
    · exact h u hu
    · rw [mem_singleton.mp hu]
      exact hslot
  | some hash =>
    refine ⟨h.1, h.2.1, fun field => ?_⟩
    rw [slotTotal_snoc, if_neg hslot, Int.add_zero]
    exact h.2.2 field

theorem Limited.lookup_eq {tokens costUsd : Option Text} {key : Text}
    (h : Limited tokens costUsd (redis key)) (now : Datetime) :
    lookup now redis key = redis key := by
  unfold lookup
  cases hhash : redis key with
  | none => rfl
  | some hash =>
    have hexpire : hash.expireAt = none := by simpa [Limited, hhash] using h.1
    rw [Option.filter_some, Hash.live, hexpire]
    rfl

theorem counted_record (hold : Counted config.window s.usages ts
      (s.redis (counterKey config usage.scope (windowText config.window ts))))
    (hts : DayFits (stopDay config.window ts) →
      now.micros < stopDay config.window ts * microsPerDay)
    (h : record config now s.redis usage = some redis) :
    Counted config.window (s.usages ++ [usage]) ts
      (redis (counterKey config usage.scope (windowText config.window ts))) := by
  obtain ⟨hfits, hash, hexpire, hcounters, rfl⟩ := record_eq config h
  by_cases hslot : slot config.window usage.ts = slot config.window ts
  · obtain ⟨htext, hstop⟩ := bucket_of_slot config.window hslot
    rw [htext] at hcounters ⊢
    rw [hold.lookup_eq hts] at hcounters
    rw [hstop] at hfits hexpire
    rw [update_self, if_pos ((live_iff hexpire).mpr (hts hfits))]
    refine ⟨hfits, hexpire, fun field => ⟨?_, (hcounters field).2⟩⟩
    rw [(hcounters field).1, (hold.counters_eq field).1, slotTotal_snoc, if_pos hslot]
  · have hkey : counterKey config usage.scope (windowText config.window ts) ≠
        counterKey config usage.scope (windowText config.window usage.ts) :=
      fun heq => hslot (windowText_inj config.window (counterKey_inj config heq)).symm
    rw [update_of_ne hkey]
    exact hold.snoc hslot

theorem limitsKey_record {redis' : Redis} (h : record config now redis usage = some redis') :
    redis' (limitsKey config usage.scope) = redis (limitsKey config usage.scope) := by
  obtain ⟨_, _, _, _, rfl⟩ := record_eq config h
  exact update_of_ne (limitsKey_ne config config.window usage.scope usage.ts) _ _

theorem inv_initial : Inv config scope State.initial where
  counted := fun _ _ _ hu => nomatch hu
  limited := ⟨rfl, rfl, rfl⟩

theorem inv_step (s : State) (label : Label) (s' : State) (hinv : Inv config scope s)
    (h : step config scope s label = some s') : Inv config scope s' := by
  cases label with
  | record now usage =>
    obtain ⟨⟨hclock, rfl⟩, hrecord⟩ := Option.ite_none_right_eq_some.mp h
    obtain ⟨redis, hredis, rfl⟩ := Option.map_eq_some_iff.mp hrecord
    constructor
    case counted =>
      intro ts hts
      exact counted_record config
        (hinv.counted ts fun hday => hclock.trans_lt (hts hday)) hts hredis
    case limited =>
      dsimp only
      rw [limitsKey_record config hredis]
      exact hinv.limited
  | setLimits now tokens costUsd =>
    obtain ⟨hclock, h⟩ := Option.ite_none_right_eq_some.mp h
    cases h
    constructor
    case counted =>
      intro ts hts
      dsimp only at hts ⊢
      rw [update_of_ne (limitsKey_ne config config.window scope ts).symm]
      exact hinv.counted ts fun hday => hclock.trans_lt (hts hday)
    case limited =>
      dsimp only
      rw [update_self, hinv.limited.lookup_eq now]
      exact ⟨hinv.limited.1, rfl, rfl⟩

theorem sum_filter_or {α : Type} (items : List α) (p q : α → Bool) (f : α → ℤ)
    (hdisjoint : ∀ a, p a = true → q a = false) :
    ((items.filter fun a => p a || q a).map f).sum =
      ((items.filter p).map f).sum + ((items.filter q).map f).sum := by
  induction items with
  | nil => rfl
  | cons a rest ih =>
    cases hp : p a with
    | true => simp [hp, hdisjoint a hp, ih, Int.add_assoc]
    | false => cases hq : q a <;> simp [hp, hq, ih, Int.add_left_comm]

/-- Summing bucket by bucket sums the usages of all the buckets. -/
theorem sum_slotTotal {slots : List ℤ} (hnodup : slots.Nodup) {field : Field} :
    (slots.map fun slotId => slotTotal window usages slotId field).sum =
      ((usages.filter fun u => slot window u.ts ∈ slots).map fun u => u.amounts field).sum := by
  induction slots with
  | nil => simp
  | cons slotId rest ih =>
    obtain ⟨hnotin, hrest⟩ := nodup_cons.mp hnodup
    have hor := sum_filter_or usages (fun u => slot window u.ts = slotId)
      (fun u => slot window u.ts ∈ rest) (fun u => u.amounts field) (by
        intro u hu
        rw [decide_eq_true_eq] at hu
        rw [decide_eq_false_iff_not, hu]
        exact hnotin)
    rw [map_cons, sum_cons, ih hrest, slotTotal, ← hor]
    simp only [mem_cons, Bool.decide_or]

theorem natAbs_sum_le (rows : List ℤ) (bound : ℕ) (h : ∀ x ∈ rows, x.natAbs ≤ bound) :
    rows.sum.natAbs ≤ rows.length * bound := by
  induction rows with
  | nil => simp
  | cons x rest ih =>
    have hx := h x (mem_cons_self ..)
    have hrest := ih fun y hy => h y (mem_cons_of_mem x hy)
    rw [sum_cons, length_cons, Nat.add_mul]
    omega

/-- The hash of a bucket of the window is still there. -/
theorem lookup_window (hinv : Inv config scope s) (hclock : s.clock ≤ now.micros)
    (hin : InWindow config.window now ts) :
    Counted config.window s.usages ts
      (lookup now s.redis (counterKey config scope (windowText config.window ts))) := by
  have hlive := lt_stopDay config.window hin
  have hcounted := hinv.counted ts fun _ => hclock.trans_lt hlive
  rw [hcounted.lookup_eq fun _ => hlive]
  exact hcounted

/-- The rows of the window add up to the usages in the window. -/
theorem sumRows_window (hinv : Inv config scope s) (hclock : s.clock ≤ now.micros)
    (hfits : WindowFits config.window now) :
    ∃ keys, windowKeys config scope now = some keys ∧
      ∀ field, sumRows (read now s.redis keys) field =
          windowTotal config.window s.usages now (fun u => u.amounts field) ∧
        (sumRows (read now s.redis keys) field).natAbs ≤ rollingDays * 2 ^ 63 := by
  obtain ⟨times, hkeys, hnodup, hslots, hlength⟩ := windowKeys_eq_some config scope now hfits
  refine ⟨_, hkeys, fun field => ?_⟩
  have hrow : ∀ ts ∈ times,
      ((lookup now s.redis (counterKey config scope
        (windowText config.window ts))).getD Hash.empty).counters field =
          slotTotal config.window s.usages (slot config.window ts) field ∧
        Fits64 (slotTotal config.window s.usages (slot config.window ts) field) := by
    intro ts hts
    have hin := (hslots ts).mp (mem_map_of_mem hts)
    obtain ⟨htotal, hfits64⟩ := (lookup_window config scope hinv hclock hin).counters_eq field
    exact ⟨htotal, htotal ▸ hfits64⟩
  have hsum : sumRows (read now s.redis
      (times.map fun ts => counterKey config scope (windowText config.window ts))) field =
      ((times.map (slot config.window)).map fun slotId =>
        slotTotal config.window s.usages slotId field).sum := by
    unfold sumRows read
    rw [map_map, map_map, map_map]
    exact congrArg List.sum (map_congr_left fun ts hts => (hrow ts hts).1)
  rw [hsum]
  constructor
  · rw [sum_slotTotal hnodup, windowTotal]
    simp only [hslots]
  · refine (natAbs_sum_le _ (2 ^ 63) ?_).trans ?_
    · intro x hx
      rw [map_map] at hx
      obtain ⟨ts, hts, rfl⟩ := mem_map.mp hx
      have hfits64 := (hrow ts hts).2
      unfold Fits64 at hfits64
      dsimp only [comp]
      omega
    · rw [length_map, length_map]
      omega

theorem value_spent {n : ℤ} (h : n.natAbs < 10 ^ precision) :
    (spent n).value = (n : ℚ) / 1000000 := by
  have hvalue : Decimal.value ⟨n, -6⟩ = n * (10 : ℚ) ^ (-6 : ℤ) := rfl
  rw [spent, fit_exact h hvalue, hvalue]
  ring

/-- The remaining cost is 0 exactly when the limit is used up. -/
theorem remainingCost_eq {d : Decimal} {m n : ℤ} (hd : d.value = (m : ℚ) / 1000000)
    (hm : m < 10 ^ 21) (hn : n.natAbs ≤ 10 ^ 21) :
    ∃ r, remainingCost (.finite d) n = some r ∧ (r.coeff = 0 ↔ m ≤ n) := by
  have hspent := value_spent (hn.trans_lt (by decide))
  have hzero : Decimal.value ⟨0, 0⟩ = ((0 : ℤ) : ℚ) * (10 : ℚ) ^ microDollar := by
    simp [Decimal.value]
  unfold remainingCost
  dsimp only
  by_cases hle : m ≤ n
  · have hrest := sub_nonpos_of_le d (spent n) (by
      rw [hd, hspent]
      exact div_le_div_of_nonneg_right (by exact_mod_cast hle) (by norm_num))
    have hquantized : Decimal.quantize
        (if (d.sub (spent n)).coeff < 0 then ⟨0, 0⟩ else d.sub (spent n)) microDollar =
          some ⟨0, microDollar⟩ := by
      apply quantize_exact (by decide)
      split
      case isTrue => exact hzero
      case isFalse hneg =>
        have hcoeff : (d.sub (spent n)).coeff = 0 :=
          le_antisymm ((value_nonpos _).mp hrest) (Int.not_lt.mp hneg)
        rw [Decimal.value, hcoeff, Int.cast_zero, zero_mul, zero_mul]
    exact ⟨_, hquantized, by simp [hle]⟩
  · have hrest : (d.sub (spent n)).value = ((m - n : ℤ) : ℚ) * (10 : ℚ) ^ microDollar := by
      apply sub_exact (by unfold precision; omega)
      rw [hd, hspent, ten_zpow_microDollar]
      push_cast
      ring
    have hpos : ¬ (d.sub (spent n)).coeff < 0 := by
      intro hneg
      have hnonpos := (value_nonpos (d.sub (spent n))).mpr hneg.le
      rw [hrest, ten_zpow_microDollar] at hnonpos
      have hcast : ((m - n : ℤ) : ℚ) ≤ 0 := by linarith
      have hle' : m - n ≤ 0 := by exact_mod_cast hcast
      omega
    rw [if_neg hpos, quantize_exact (by unfold precision; omega) hrest]
    exact ⟨_, rfl, by dsimp only; omega⟩

theorem budget_allowed (remainingTokens : Option ℤ) (remainingCostUsd : Option Decimal) :
    (budget remainingTokens remainingCostUsd).allowed = false ↔
      remainingTokens = some 0 ∨ remainingCostUsd.map Decimal.coeff = some 0 := by
  unfold budget
  rw [decide_eq_false_iff_not, not_not]

theorem mapM_bind {α β γ : Type} (read : α → Option β) (use : β → Option γ) (text : Option α) :
    text.mapM (fun a => (read a).bind use) = (text.mapM read).bind fun b => b.mapM use := by
  cases text with
  | none => rfl
  | some a =>
    show some <$> (read a).bind use = (some <$> read a).bind fun b => b.mapM use
    cases read a <;> rfl

theorem remainingCosts_eq {cost : Option Decimal} {microLimit : Option ℤ} {total : ℤ}
    (hcost : cost.map Decimal.value = microLimit.map fun micros : ℤ => (micros : ℚ) / 1000000)
    (hlimit : ∀ limit ∈ microLimit, limit < 10 ^ 21) (htotal : total.natAbs ≤ 10 ^ 21) :
    ∃ remaining, (cost.map Amount.finite).mapM (remainingCost · total) = some remaining ∧
      (remaining.map Decimal.coeff = some 0 ↔ ∃ limit ∈ microLimit, limit ≤ total) := by
  cases cost with
  | none =>
    obtain rfl : microLimit = none := Option.map_eq_none_iff.mp hcost.symm
    exact ⟨none, rfl, by simp⟩
  | some d =>
    obtain ⟨micros, rfl, hvalue⟩ := Option.map_eq_some_iff.mp hcost.symm
    obtain ⟨r, hr, hzero⟩ := remainingCost_eq hvalue.symm (hlimit micros rfl) htotal
    refine ⟨some r, ?_, ?_⟩
    · exact (congrArg (Option.map some) hr :)
    · simpa using hzero

theorem decision_allowed {totals : Counters} {limits : Hash} {tokenLimit microLimit : Option ℤ}
    (hread : LimitsRead reader limits.tokens limits.costUsd tokenLimit microLimit)
    (hlimit : ∀ limit ∈ microLimit, limit < 10 ^ 21)
    (htotal : (totals .costMicroUsd).natAbs ≤ 10 ^ 21) :
    ∃ d, decision reader totals limits = some d ∧
      (d.allowed = false ↔
        (∃ limit ∈ tokenLimit,
          limit ≤ totals .inputTokens + totals .outputTokens + totals .embedTokens) ∨
        ∃ limit ∈ microLimit, limit ≤ totals .costMicroUsd) := by
  obtain ⟨htokens, cost, hcost, hvalue⟩ := hread
  obtain ⟨remaining, hremaining, hzero⟩ :=
    remainingCosts_eq hvalue hlimit htotal
  unfold decision
  split
  case isTrue hnone =>
    rw [hnone.1] at htokens
    rw [hnone.2] at hcost
    obtain rfl := Option.some.inj htokens
    obtain rfl : cost = none := Option.map_eq_none_iff.mp (Option.some.inj hcost).symm
    obtain rfl : microLimit = none := Option.map_eq_none_iff.mp hvalue.symm
    exact ⟨_, rfl, by simp⟩
  case isFalse =>
    simp only [Option.bind_eq_bind, mapM_bind, htokens, hcost, hremaining, Option.bind_some]
    cases tokenLimit with
    | none => exact ⟨_, rfl, by rw [budget_allowed, hzero]; simp⟩
    | some limit =>
      refine ⟨_, rfl, ?_⟩
      rw [budget_allowed, hzero]
      simp only [Option.mem_def, Option.some.injEq, exists_eq_left']
      rw [show ∀ x y : ℤ, max (x - y) 0 = 0 ↔ x ≤ y by omega]

theorem windowTotal_tokens (window : Period) (usages : List UsageRecord) (now : Datetime) :
    windowTotal window usages now UsageRecord.totalTokens =
      windowTotal window usages now (fun u => u.amounts .inputTokens) +
        windowTotal window usages now (fun u => u.amounts .outputTokens) +
          windowTotal window usages now (fun u => u.amounts .embedTokens) := by
  unfold windowTotal
  rw [← sum_map_add, ← sum_map_add]
  rfl

/-- After any records of a scope whose scripts succeed, check_budget refuses exactly when a
limit is reached by the usages of the window, and their hashes are all still there. It raises
where the window is not representable. -/
theorem checkBudget_window (labels : List Label) (s : State)
    (hrun : run (step config scope) State.initial labels = some s) (now : Datetime)
    (hclock : s.clock ≤ now.micros) (tokenLimit microLimit : Option ℤ)
    (hread : LimitsRead reader s.tokens s.costUsd tokenLimit microLimit)
    (hlimit : ∀ limit ∈ microLimit, limit < 10 ^ 21) :
    (∀ u ∈ s.usages, InWindow config.window now u.ts →
      ∃ hash, lookup now s.redis
          (counterKey config scope (windowText config.window u.ts)) = some hash ∧
        ∀ field, hash.counters field =
          slotTotal config.window s.usages (slot config.window u.ts) field) ∧
    (WindowFits config.window now →
      ∃ d, checkBudget config reader now s.redis scope = some d ∧
        (d.allowed = false ↔
          (∃ limit ∈ tokenLimit,
            limit ≤ windowTotal config.window s.usages now UsageRecord.totalTokens) ∨
          ∃ limit ∈ microLimit, limit ≤ windowTotal config.window s.usages now fun u =>
            roundHalfEven (u.costUsd.value * 1000000))) ∧
    (¬ WindowFits config.window now → checkBudget config reader now s.redis scope = none) := by
  have hinv : Inv config scope s :=
    run_invariant (Inv config scope) (inv_step config scope) (inv_initial config scope) hrun
  refine ⟨?_, ?_, ?_⟩
  · intro u hu hin
    have hcounted := lookup_window config scope hinv hclock hin
    cases hhash : lookup now s.redis
        (counterKey config scope (windowText config.window u.ts)) with
    | none =>
      rw [hhash] at hcounted
      exact absurd rfl (hcounted u hu)
    | some hash =>
      rw [hhash] at hcounted
      exact ⟨hash, rfl, fun field => (hcounted.2.2 field).1⟩
  · intro hfits
    obtain ⟨keys, hkeys, hsums⟩ := sumRows_window config scope hinv hclock hfits
    obtain ⟨_, htokens, hcost⟩ := hinv.limited
    obtain ⟨d, hd, hallowed⟩ := decision_allowed reader (by rw [htokens, hcost]; exact hread) hlimit
      ((hsums .costMicroUsd).2.trans (by decide))
    refine ⟨d, ?_, ?_⟩
    · rw [checkBudget, hkeys, hinv.limited.lookup_eq now]
      exact congrArg (fun x => some (x.getD BudgetDecision.failOpen)) hd
    · rw [hallowed, windowTotal_tokens, (hsums .inputTokens).1, (hsums .outputTokens).1,
        (hsums .embedTokens).1, (hsums .costMicroUsd).1]
      rfl
  · intro hfits
    rw [checkBudget, windowKeys_eq_none config scope hfits]
    rfl

/-- A reader of plain integers, the organization o and its daily ledger. -/
def plainReader : NumberReader :=
  ⟨parseDecimal, fun text => (parseDecimal text).map fun n => .finite ⟨n, 0⟩⟩

def orgScope : UsageScope := ⟨['o'], none, by decide⟩

def dailyLedger : Config := ⟨.daily, ['t']⟩

/-- 9999-12-31 -/
def lastDay : Datetime := ⟨253402214400000000, by decide⟩

/-- 2026-10-09 -/
def octoberDay : Datetime := ⟨1791504000000000, by decide⟩

/-- On the last day of the year 9999 a used up budget is not refused: check_budget raises. -/
theorem checkBudget_last_day :
    ∃ s, run (step dailyLedger orgScope) State.initial [.setLimits lastDay (some ['0']) none] =
        some s ∧
      LimitsRead plainReader s.tokens s.costUsd (some 0) none ∧
      0 ≤ windowTotal .daily s.usages lastDay UsageRecord.totalTokens ∧
      checkBudget dailyLedger plainReader lastDay s.redis orgScope = none := by
  refine ⟨_, rfl, ⟨by decide, none, rfl, rfl⟩, by decide, ?_⟩
  decide

theorem checkBudget_window_october :
    ∃ s, run (step dailyLedger orgScope) State.initial
        [.setLimits octoberDay (some ['7']) (some ['2']),
          .record octoberDay ⟨orgScope, 3, 4, 0, ⟨15, -1⟩, octoberDay⟩] = some s ∧
      ∃ d, checkBudget dailyLedger plainReader octoberDay s.redis orgScope = some d ∧
        (d.allowed = false ↔
          (∃ limit ∈ some 7, limit ≤ windowTotal .daily s.usages octoberDay
            UsageRecord.totalTokens) ∨
          ∃ limit ∈ some 2000000, limit ≤ windowTotal .daily s.usages octoberDay fun u =>
            roundHalfEven (u.costUsd.value * 1000000)) := by
  have hrun : (run (step dailyLedger orgScope) State.initial
      [.setLimits octoberDay (some ['7']) (some ['2']),
        .record octoberDay ⟨orgScope, 3, 4, 0, ⟨15, -1⟩, octoberDay⟩]).map
          (fun s => (s.clock, s.tokens, s.costUsd)) =
        some (octoberDay.micros, some ['7'], some ['2']) := by decide +kernel
  obtain ⟨s, hs, hfields⟩ := Option.map_eq_some_iff.mp hrun
  obtain ⟨hclock, hlimits⟩ := Prod.mk.inj hfields
  obtain ⟨htokens, hcost⟩ := Prod.mk.inj hlimits
  refine ⟨s, hs, (checkBudget_window dailyLedger orgScope plainReader _ s hs octoberDay
    hclock.le (some 7) (some 2000000) ?_ ?_).2.1 (by decide)⟩
  · rw [htokens, hcost]
    exact ⟨rfl, some ⟨2, 0⟩, rfl, by norm_num [Decimal.value]⟩
  · intro limit hlimit
    obtain rfl := Option.some.inj hlimit
    decide

end KnowledgeEngine.TokenLedger
