import KnowledgeEngine.RedisReplay

/-!
When the Redis replay buffer is gapless. The list always holds an ending of what was
appended, and its beginning only moves forward; while the low-water mark lives, that
beginning stands at most directly behind the marked message, unless the list has expired
under the mark. So what a ReplayAfter reads first is no later than what it reads second.
-/

namespace KnowledgeEngine.RedisReplayGaps

open ByteText Transitions RedisReplay List

theorem decode_encode (m : BufferedMessage) (h : 0 ∉ m.ID) : decode (encode m) = m := by
  have hindex : (m.ID ++ 0 :: m.Payload).idxOf 0 = m.ID.length := by
    rw [idxOf_append_of_notMem h, idxOf_cons_self, Nat.add_zero]
  rw [decode, encode, if_pos (by simp), hindex, take_left]
  simp

variable {cfg : Config} {st : State} {k : ℕ} {id : Bytes} {st' : State} {elems : List Bytes}

/-- An element that starts with a NUL-free id and a NUL is the message of that id. -/
theorem id_of_starts {m : BufferedMessage} (hm : 0 ∉ m.ID) (hid : 0 ∉ id)
    (h : (id ++ [0]).isPrefixOf (encode m)) : m.ID = id := by
  obtain ⟨rest, hrest⟩ := isPrefixOf_iff_prefix.mp h
  have hsame : encode m = encode ⟨id, rest⟩ := by
    rw [← hrest, encode, append_assoc, singleton_append]
  have hdecoded := decode_encode ⟨id, rest⟩ hid
  rw [← hsame, decode_encode m hm] at hdecoded
  rw [hdecoded]

theorem tailAfter_some {msgs tail : List BufferedMessage} (h : tailAfter id msgs = some tail) :
    ∃ j m, msgs[j]? = some m ∧ m.ID = id ∧ tail = msgs.drop (j + 1) := by
  induction msgs with
  | nil => cases h
  | cons first rest ih =>
    rw [tailAfter] at h
    split_ifs at h with hid
    · exact ⟨0, first, rfl, hid, (Option.some.inj h).symm⟩
    · obtain ⟨j, m, hj, hm, htail⟩ := ih h
      exact ⟨j + 1, m, hj, hm, htail⟩

/-- How many of the messages appended so far the list has given up. -/
def kept (st : State) : ℕ := st.appended.length - st.elems.length

/-- What is known of a ReplayAfter call. -/
def ReaderGood (appended : List BufferedMessage) (k : ℕ) : Reader → Prop
  | .absent => True
  | .begun _ before => before ≤ appended.length
  | .ranged _ before elems => ∃ k' n, before ≤ n ∧ n ≤ appended.length ∧ k' ≤ k ∧
      elems = ((appended.take n).drop k').map encode
  | .returned a before msgs complete => before ≤ appended.length ∧
      (complete = true → ∀ i m, i < before → appended[i]? = some m → m.ID = a →
        ((appended.take before).drop (i + 1)).Sublist msgs)

structure Good (cfg : Config) (st : State) : Prop where
  retained : st.elems = (st.appended.drop (kept st)).map encode
  marked : ∀ w, st.lw = some w → ∀ i m, st.appended[i]? = some m → m.ID = w.id → kept st ≤ i + 1
  lifetime : st.lw ≠ none → 0 < cfg.lwMs
  readers : ∀ r, ReaderGood st.appended (kept st) (st.readers r)

theorem good_initial : Good cfg initial where
  retained := rfl
  marked := by
    intro w hw
    cases hw
  lifetime := fun h => absurd rfl h
  readers := fun _ => trivial

theorem Regular.before {extra : List BufferedMessage}
    (happended : st'.appended = st.appended ++ extra) (h : Regular cfg st') : Regular cfg st := by
  obtain ⟨hdistinct, hnul, hbounded⟩ := h
  rw [happended] at hdistinct hnul hbounded
  refine ⟨?_, fun m hm => hnul m (mem_append_left _ hm), ?_⟩
  · rw [map_append] at hdistinct
    exact (nodup_append.mp hdistinct).1
  · rw [length_append] at hbounded
    omega

/-- Two messages with one id are the same appended message. -/
theorem index_unique (h : Regular cfg st) {i j : ℕ} {m m' : BufferedMessage}
    (hi : st.appended[i]? = some m) (hj : st.appended[j]? = some m') (hid : m.ID = m'.ID) :
    i = j := by
  have hlength : i < (st.appended.map BufferedMessage.ID).length := by
    rw [length_map]
    exact (List.getElem?_eq_some_iff.mp hi).1
  apply (List.getElem?_inj hlength h.distinct).mp
  rw [List.getElem?_map, List.getElem?_map, hi, hj, Option.map_some, Option.map_some, hid]

theorem kept_eq (hk : k ≤ st.appended.length) (h : st.elems = (st.appended.drop k).map encode) :
    kept st = k := by
  rw [kept, h, length_map, length_drop]
  omega

theorem kept_le (st : State) : kept st ≤ st.appended.length := Nat.sub_le _ _

theorem ReaderGood.mono {appended extra : List BufferedMessage} {k' : ℕ} (hk : k ≤ k') {r : Reader}
    (h : ReaderGood appended k r) : ReaderGood (appended ++ extra) k' r := by
  have htake : ∀ n, n ≤ appended.length → (appended ++ extra).take n = appended.take n :=
    fun n hn => take_append_of_le_length hn
  cases r with
  | absent => trivial
  | begun a before =>
    simp only [ReaderGood, length_append] at h ⊢
    omega
  | ranged a before elems =>
    obtain ⟨k₀, n, hbefore, hn, hk₀, helems⟩ := h
    refine ⟨k₀, n, hbefore, ?_, Nat.le_trans hk₀ hk, ?_⟩
    · rw [length_append]
      omega
    · rw [helems, htake n hn]
  | returned a before msgs complete =>
    obtain ⟨hbefore, hgapless⟩ := h
    refine ⟨?_, fun hcomplete i m hi hm hid => ?_⟩
    · rw [length_append]
      omega
    · rw [List.getElem?_append_left (by omega)] at hm
      rw [htake before hbefore]
      exact hgapless hcomplete i m hi hm hid

/-- A change of the two keys: the list goes on from where it stood or from later on, and the
mark stays or is set directly before the list. -/
theorem Good.keys (h : Good cfg st) (extra : List BufferedMessage) (k : ℕ)
    (hreaders : st'.readers = st.readers) (happended : st'.appended = st.appended ++ extra)
    (hforward : kept st ≤ k) (hk : k ≤ st'.appended.length)
    (helems : st'.elems = (st'.appended.drop k).map encode)
    (hmarked : ∀ w, st'.lw = some w → ∀ i m, st'.appended[i]? = some m → m.ID = w.id → k ≤ i + 1)
    (hlifetime : st'.lw ≠ none → 0 < cfg.lwMs) : Good cfg st' := by
  have hkept := kept_eq hk helems
  refine ⟨by rw [hkept, helems], ?_, hlifetime, fun r => ?_⟩
  · rw [hkept]
    exact hmarked
  · rw [hkept, hreaders, happended]
    exact (h.readers r).mono hforward

theorem good_wait (h : Good cfg st) {ms : ℕ} (hlives : (wait st ms).outlived = false) :
    Good cfg (wait st ms) := by
  simp only [wait, Bool.or_eq_false_iff, Bool.and_eq_false_iff] at hlives
  have hlw : ∀ w, (wait st ms).lw = some w → st.lw = some w := fun w hw =>
    (Option.filter_eq_some_iff.mp hw).1
  have hlifetime : (wait st ms).lw ≠ none → 0 < cfg.lwMs := by
    intro hsome
    obtain ⟨w, hw⟩ := Option.ne_none_iff_exists'.mp hsome
    exact h.lifetime (by rw [hlw w hw]; exact Option.some_ne_none w)
  cases hlist : (wait st ms).list with
  | some key =>
    have hsame : st.list = some key := (Option.filter_eq_some_iff.mp hlist).1
    have helems : (wait st ms).elems = st.elems := by
      rw [State.elems, State.elems, hlist, hsame]
    refine h.keys [] (kept st) rfl (by simp [wait]) (Nat.le_refl _) (kept_le st) ?_ ?_ hlifetime
    · rw [helems]
      exact h.retained
    · intro w hw
      exact h.marked w (hlw w hw)
  | none =>
    have helems : (wait st ms).elems = [] := by rw [State.elems, hlist]; rfl
    by_cases hgone : st.list = none
    · have hsame : st.elems = [] := by rw [State.elems, hgone]; rfl
      refine h.keys [] (kept st) rfl (by simp [wait]) (Nat.le_refl _) (kept_le st) ?_ ?_ hlifetime
      · rw [helems, ← hsame]
        exact h.retained
      · intro w hw
        exact h.marked w (hlw w hw)
    · refine h.keys [] st.appended.length rfl (by simp [wait]) (kept_le st) (Nat.le_refl _) ?_ ?_
        hlifetime
      · rw [helems]
        simp [wait]
      · intro w hw
        rcases hlives.2 with (hnone | hsome) | hdead
        · exact absurd (Option.isSome_eq_false_iff.mp hnone) (by simpa using hgone)
        · rw [show st.list.filter (fun key => st.now + ms ≤ key.deadline) = none
            from hlist] at hsome
          cases hsome
        · rw [show st.lw.filter (fun key => st.now + ms ≤ key.deadline) = some w from hw] at hdead
          cases hdead

theorem ltrim_bounded {maxSize : ℤ} (h : (elems.length : ℤ) ≤ maxSize) :
    ltrim (-maxSize) elems = elems := by
  rw [ltrim]
  split
  · rw [show ((elems.length : ℤ) + -maxSize).toNat = 0 by omega, drop_zero]
  · rw [show (-maxSize).toNat = 0 by omega, drop_zero]

theorem elems_of_list {deadline : ℕ} (h : st.list = listKey elems deadline) : st.elems = elems := by
  rw [State.elems, h, listKey]
  split
  · next hempty => rw [hempty]; rfl
  · rfl

theorem good_append (h : Good cfg st) (m : BufferedMessage)
    (hregular : Regular cfg (append cfg st m)) : Good cfg (append cfg st m) := by
  have hmarked : ∀ w, st.lw = some w → ∀ i m', (st.appended ++ [m])[i]? = some m' → m'.ID = w.id →
      kept st ≤ i + 1 := by
    intro w hw i m' hm' hid
    by_cases hi : i < st.appended.length
    · rw [List.getElem?_append_left hi] at hm'
      exact h.marked w hw i m' hm' hid
    · have hkept := kept_le st
      omega
  by_cases hzero : cfg.listMs = 0
  · have hnone : st.lw = none := by
      by_contra hsome
      have hpositive := h.lifetime hsome
      simp only [Config.listMs, Config.lwMs] at hzero hpositive
      split at hzero <;> omega
    refine h.keys [m] (st.appended.length + 1) rfl rfl ?_ ?_ ?_ ?_ h.lifetime
    · have hkept := kept_le st
      omega
    · simp [append]
    · simp [append, State.elems, hzero]
    · intro w hw
      rw [show st.lw = some w from hw] at hnone
      cases hnone
  · have hbounded := hregular.bounded
    have hlength : st.elems.length ≤ st.appended.length := by
      rw [h.retained, length_map, length_drop]
      omega
    have helems : (append cfg st m).elems = st.elems ++ [encode m] := by
      have hsize : ((st.elems ++ [encode m]).length : ℤ) ≤ cfg.MaxSize := by
        simp only [append, length_append, length_singleton] at hbounded ⊢
        omega
      apply elems_of_list
      rw [append, if_neg hzero, ltrim_bounded hsize]
    refine h.keys [m] (kept st) rfl rfl (Nat.le_refl _) ?_ ?_ hmarked h.lifetime
    · have hkept := kept_le st
      simp only [append, length_append]
      omega
    · rw [helems]
      simp only [append]
      rw [drop_append_of_le_length (kept_le st), map_append, ← h.retained]
      rfl

theorem pruneAt_some {n : ℕ} (h : pruneAt id elems = some n) :
    ∃ e, 0 < n ∧ elems[n - 1]? = some e ∧ (id ++ [0]).isPrefixOf e := by
  obtain ⟨j, hj, rfl⟩ := Option.map_eq_some_iff.mp h
  obtain ⟨hlt, hstart, -⟩ := List.findIdx?_eq_some_iff_getElem.mp hj
  exact ⟨elems[j], Nat.succ_pos j, by simp [hlt], hstart⟩

theorem good_prune (h : Good cfg st) {upToMsgID : Bytes} (hregular : Regular cfg st) :
    Good cfg (prune cfg st upToMsgID) := by
  rw [prune]
  split
  · exact h
  · next key hkey =>
    split
    · exact h
    · next n hn =>
      obtain ⟨e, hpos, he, hstart⟩ := pruneAt_some hn
      have hold : st.elems = key.elems := by rw [State.elems, hkey]; rfl
      have hretained := h.retained
      rw [hold] at hretained
      rw [hretained, List.getElem?_map] at he
      obtain ⟨found, hfound, rfl⟩ := Option.map_eq_some_iff.mp he
      rw [List.getElem?_drop] at hfound
      have hindex : kept st + (n - 1) < st.appended.length :=
        (List.getElem?_eq_some_iff.mp hfound).1
      refine h.keys [] (kept st + n) rfl (by simp) (Nat.le_add_right _ _) (by simp only; omega) ?_
        ?_ ?_
      · rw [elems_of_list rfl, hretained, ← map_drop, drop_drop]
      · intro w hw i m hm hid
        simp only at hw hm
        split at hw
        · next hzero =>
          have hpositive := h.lifetime (by rw [hw]; exact Option.some_ne_none w)
          omega
        · obtain rfl := (Option.some.inj hw).symm
          have hid : m.ID = upToMsgID := hid
          have hsame := id_of_starts (hregular.nulFree found (mem_of_getElem? hfound))
            (hid ▸ hregular.nulFree m (mem_of_getElem? hm)) hstart
          have hi := index_unique hregular hm hfound (by rw [hid, hsame])
          omega
      · intro hsome
        simp only at hsome
        split at hsome
        · exact h.lifetime hsome
        · omega

theorem good_delete (h : Good cfg st) : Good cfg (delete st) := by
  refine h.keys [] st.appended.length rfl (by simp [delete]) (kept_le st) (Nat.le_refl _) ?_ ?_ ?_
  · simp [delete, State.elems]
  · intro w hw
    cases hw
  · intro hsome
    exact absurd rfl hsome

/-- A call that goes on. -/
theorem Good.reader (h : Good cfg st) (r : ℕ) (reader : Reader)
    (hgood : ReaderGood st.appended (kept st) reader) : Good cfg (st.setReader r reader) := by
  refine ⟨h.retained, h.marked, h.lifetime, fun r' => ?_⟩
  by_cases hr : r' = r
  · subst hr
    simp only [State.setReader, Function.update_self]
    exact hgood
  · simp only [State.setReader, Function.update_of_ne hr]
    exact h.readers r'

theorem map_decode_encode (msgs : List BufferedMessage) (h : ∀ m ∈ msgs, 0 ∉ m.ID) :
    (msgs.map encode).map decode = msgs := by
  rw [map_map]
  conv_rhs => rw [← map_id msgs]
  apply map_congr_left
  intro m hm
  exact decode_encode m (h m hm)

/-- The two reads together: what was read of the list reaches back at least to the anchor. -/
theorem answer_gapless (h : Good cfg st) (hregular : Regular cfg st) {a : Bytes} {before n : ℕ}
    (hbefore : before ≤ n) (hk : k ≤ kept st)
    (helems : elems = ((st.appended.take n).drop k).map encode)
    (hcomplete : (answer a elems ((st.lw.map LowWater.id).getD [])).2 = true) {i : ℕ}
    {m : BufferedMessage} (hm : st.appended[i]? = some m) (hid : m.ID = a) :
    ((st.appended.take before).drop (i + 1)).Sublist
      (answer a elems ((st.lw.map LowWater.id).getD [])).1 := by
  have hdecoded : elems.map decode = (st.appended.take n).drop k := by
    rw [helems]
    apply map_decode_encode
    intro m hm
    exact hregular.nulFree m (mem_of_mem_take (mem_of_mem_drop hm))
  have hsub : ((st.appended.take before).drop (i + 1)).Sublist
      ((st.appended.take n).drop (i + 1)) := by
    refine List.Sublist.drop ?_ (i + 1)
    exact (take_prefix_take_left hbefore).sublist
  rw [answer] at hcomplete ⊢
  split_ifs at hcomplete ⊢ with hempty hanchor hlw
  · obtain ⟨w, hw⟩ : ∃ w, st.lw = some w := by
      cases hnone : st.lw with
      | none =>
        rw [hnone] at hlw
        exact absurd hlw hanchor
      | some w => exact ⟨w, rfl⟩
    rw [hw, Option.map_some, Option.getD_some] at hlw
    have hreach := h.marked w hw i m hm (by rw [hid, hlw])
    rw [hdecoded]
    exact hsub.trans (drop_sublist_drop_left _ (Nat.le_trans hk hreach))
  · cases htail : tailAfter a (elems.map decode) with
    | none =>
      rw [htail] at hcomplete
      cases hcomplete
    | some tail =>
      obtain ⟨j, m', hj, hm', rfl⟩ := tailAfter_some htail
      rw [hdecoded, List.getElem?_drop, List.getElem?_take] at hj
      split_ifs at hj with hlt
      have hindex := index_unique hregular hm hj (by rw [hid, hm'])
      simp only
      rw [hdecoded, drop_drop, ← Nat.add_assoc, ← hindex]
      exact hsub

theorem step_before {label : Label} (h : step cfg st label = some st') :
    (∃ extra, st'.appended = st.appended ++ extra) ∧
    (st'.outlived = false → st.outlived = false) := by
  cases label with
  | wait ms =>
    obtain rfl := Option.some.inj h
    refine ⟨⟨[], by simp [wait]⟩, fun hlives => ?_⟩
    simp only [wait, Bool.or_eq_false_iff] at hlives
    exact hlives.1
  | append m =>
    obtain rfl := Option.some.inj h
    exact ⟨⟨[m], rfl⟩, fun hlives => hlives⟩
  | prune id =>
    obtain rfl := Option.some.inj h
    rw [prune]
    split
    · exact ⟨⟨[], by simp⟩, fun hlives => hlives⟩
    · split
      · exact ⟨⟨[], by simp⟩, fun hlives => hlives⟩
      · exact ⟨⟨[], by simp⟩, fun hlives => hlives⟩
  | delete =>
    obtain rfl := Option.some.inj h
    exact ⟨⟨[], by simp [delete]⟩, fun hlives => hlives⟩
  | begin reader a =>
    simp only [step] at h
    split at h <;> cases h
    exact ⟨⟨[], by simp [State.setReader]⟩, fun hlives => hlives⟩
  | lrange reader =>
    simp only [step] at h
    split at h <;> cases h
    exact ⟨⟨[], by simp [State.setReader]⟩, fun hlives => hlives⟩
  | get reader =>
    simp only [step] at h
    split at h <;> cases h
    exact ⟨⟨[], by simp [State.setReader]⟩, fun hlives => hlives⟩

theorem good_step {label : Label} (h : Good cfg st) (hregular : Regular cfg st)
    (hregular' : Regular cfg st') (hlives : st'.outlived = false)
    (hstep : step cfg st label = some st') : Good cfg st' := by
  cases label with
  | wait ms =>
    obtain rfl := Option.some.inj hstep
    exact good_wait h hlives
  | append m =>
    obtain rfl := Option.some.inj hstep
    exact good_append h m hregular'
  | prune id =>
    obtain rfl := Option.some.inj hstep
    exact good_prune h hregular
  | delete =>
    obtain rfl := Option.some.inj hstep
    exact good_delete h
  | begin reader a =>
    simp only [step] at hstep
    split at hstep <;> cases hstep
    exact h.reader reader _ (Nat.le_refl _)
  | lrange reader =>
    simp only [step] at hstep
    split at hstep <;> cases hstep
    next a before hreader =>
    have hbefore : before ≤ st.appended.length := by
      have hgood := h.readers reader
      rwa [hreader] at hgood
    refine h.reader reader _ ⟨kept st, st.appended.length, hbefore, Nat.le_refl _,
      Nat.le_refl _, ?_⟩
    rw [take_length]
    exact h.retained
  | get reader =>
    simp only [step] at hstep
    split at hstep <;> cases hstep
    next a before elems hreader =>
    have hgood := h.readers reader
    rw [hreader] at hgood
    obtain ⟨k, n, hbefore, hn, hk, helems⟩ := hgood
    exact h.reader reader _ ⟨Nat.le_trans hbefore hn, fun hcomplete i m _ =>
      answer_gapless h hregular hbefore hk helems hcomplete⟩

/-- In every run with distinct NUL-free ids and no more messages than the buffer holds, in
which the list never expires while the low-water mark is alive, every ReplayAfter reported
complete is gapless. -/
theorem complete_gapless (cfg : Config) (labels : List Label) (st : State)
    (h : run (step cfg) initial labels = some st) (hregular : Regular cfg st)
    (hlives : st.outlived = false) : Gapless st := by
  have hgood : Regular cfg st ∧ st.outlived = false → Good cfg st := by
    refine run_invariant (fun st => Regular cfg st ∧ st.outlived = false → Good cfg st) ?_
      (fun _ => good_initial) h
    intro s label s' hinv hstep hs'
    obtain ⟨⟨extra, hextra⟩, hbefore⟩ := step_before hstep
    have hs := Regular.before hextra hs'.1
    exact good_step (hinv ⟨hs, hbefore hs'.2⟩) hs hs'.1 hs'.2 hstep
  intro reader a before msgs hreader
  have hreaderGood := (hgood ⟨hregular, hlives⟩).readers reader
  rw [hreader] at hreaderGood
  exact hreaderGood.2 rfl

/-- Two messages, the first of them acknowledged, and a reader behind it. -/
def acknowledged (ms : ℕ) : List Label :=
  [.append ⟨[1], [7]⟩, .append ⟨[2], [8]⟩, .wait 500, .prune [1], .wait ms, .begin 0 [1],
    .lrange 0, .get 0]

theorem complete_gapless_acknowledged :
    ∃ st, run (step ⟨2, 2000000000⟩) initial (acknowledged 100) = some st ∧
      st.readers 0 = .returned [1] 2 [⟨[2], [8]⟩] true ∧ Gapless st :=
  ⟨_, rfl, by decide, complete_gapless ⟨2, 2000000000⟩ (acknowledged 100) _ rfl
    ⟨by decide, by decide, by decide⟩ rfl⟩

/-- With a time to live of two seconds, 2.1 seconds after the appends the list has expired
and the low-water mark has not: the reply is empty, reported complete, and misses a message. -/
theorem expired_list_gap :
    ∃ st, run (step ⟨2, 2000000000⟩) initial (acknowledged 1600) = some st ∧
      Regular ⟨2, 2000000000⟩ st ∧ st.readers 0 = .returned [1] 2 [] true ∧ ¬ Gapless st := by
  refine ⟨_, rfl, ⟨by decide, by decide, by decide⟩, by decide, fun hgapless => ?_⟩
  have hsub := hgapless 0 [1] 2 [] (by decide) 0 ⟨[1], [7]⟩ (by decide) (by decide) rfl
  exact absurd hsub (by decide)

end KnowledgeEngine.RedisReplayGaps
