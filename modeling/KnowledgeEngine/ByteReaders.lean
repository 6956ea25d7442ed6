import KnowledgeEngine.ByteText

/-!
Readers in the manner of package io. A reader is a state and a read of at most k bytes from
it; what it delivers are its bytes, in whatever pieces, and the error it ends in. The loops
of io.ReadFull and io.CopyN and the joined reader of io.MultiReader are followed call by
call, and their results depend only on what the reader delivers.
-/

namespace KnowledgeEngine.ByteReaders

open ByteText List

/-- An error value: the two sentinels, or another one and which sentinel it wraps. -/
inductive ReadError (ε : Type)
  | eof
  | unexpectedEOF
  | other (wrapsEOF wrapsUnexpectedEOF : Bool) (cause : ε)
deriving DecidableEq

variable {σ ε : Type}

/-- errors.Is with io.EOF. -/
def ReadError.isEOF : ReadError ε → Bool
  | eof => true
  | unexpectedEOF => false
  | other wraps _ _ => wraps

/-- errors.Is with io.ErrUnexpectedEOF. -/
def ReadError.isUnexpectedEOF : ReadError ε → Bool
  | eof => false
  | unexpectedEOF => true
  | other _ wraps _ => wraps

structure Result (σ ε : Type) where
  bytes : Bytes
  err : Option (ReadError ε)
  next : σ

/-- Read with a buffer of the given size. -/
abbrev Read (σ ε : Type) := σ → ℕ → Result σ ε

/-- The reader delivers the bytes and then ends in the error, however it cuts them into
pieces, with or without the error beside the last piece. -/
inductive Delivers (read : Read σ ε) (term : ReadError ε) : Bytes → σ → Prop
  | ended (s : σ) (h : ∀ k, 0 < k → read s k = ⟨[], some term, s⟩) : Delivers read term [] s
  | reads (s : σ) (data : Bytes) (rest : ℕ → Bytes)
      (hdata : ∀ k, 0 < k → (read s k).bytes ++ rest k = data)
      (hlength : ∀ k, 0 < k → (read s k).bytes.length ≤ k)
      (herr : ∀ k, 0 < k → (read s k).err = none ∨ (read s k).err = some term ∧ rest k = [])
      (hnext : ∀ k, 0 < k → Delivers read term (rest k) (read s k).next) :
      Delivers read term data s

def Result.behind (bytes : Bytes) (r : Result σ ε) : Result σ ε := ⟨bytes ++ r.bytes, r.err, r.next⟩

/-- Reads one after the other until so many bytes have come or an error has; `ask` is the
size of the next read's buffer, from the bytes still wanted and those already there. -/
def pull (read : Read σ ε) (ask : ℕ → ℕ → ℕ) : ℕ → σ → ℕ → ℕ → Option (Result σ ε)
  | 0, _, _, _ => none
  | _ + 1, s, 0, _ => some ⟨[], none, s⟩
  | fuel + 1, s, limit + 1, written =>
    let r := read s (ask (limit + 1) written)
    match r.err with
    | some _ => some r
    | none => (pull read ask fuel r.next (limit + 1 - r.bytes.length)
        (written + r.bytes.length)).map (Result.behind r.bytes)

def settleFull (k : ℕ) (r : Result σ ε) : Result σ ε :=
  if k ≤ r.bytes.length then ⟨r.bytes, none, r.next⟩
  else
    match r.bytes, r.err with
    | _ :: _, some .eof => ⟨r.bytes, some .unexpectedEOF, r.next⟩
    | _, _ => r

/-- io.ReadFull: every read may fill the rest of the buffer. -/
def readFull (read : Read σ ε) (fuel : ℕ) (s : σ) (k : ℕ) : Option (Result σ ε) :=
  (pull read (fun limit _ => limit) fuel s k 0).map (settleFull k)

/-- The end of bytes.Buffer.ReadFrom, which takes io.EOF as the end, and of io.CopyN. -/
def settleCopy (n : ℕ) (r : Result σ ε) : Result σ ε :=
  if r.bytes.length = n then ⟨r.bytes, none, r.next⟩
  else
    match r.err with
    | none => ⟨r.bytes, some .eof, r.next⟩
    | some .eof => ⟨r.bytes, some .eof, r.next⟩
    | some _ => r

/-- io.CopyN into a buffer that has `room` for more bytes: bytes.Buffer.ReadFrom over an
io.LimitReader. A negative n copies nothing and is no error. -/
def copyN (read : Read σ ε) (room : ℕ → ℕ) (fuel : ℕ) (s : σ) (n : ℤ) : Option (Result σ ε) :=
  if n ≤ 0 then some ⟨[], none, s⟩
  else (pull read (fun limit written => min (room written) limit) fuel s n.toNat 0).map
    (settleCopy n.toNat)

/-- The state of io.MultiReader(bytes.NewReader(head), body); a reader that has returned
io.EOF is gone. -/
structure Joined (σ : Type) where
  head : Bytes
  body : Option σ

def joined (read : Read σ ε) : Read (Joined σ) ε := fun s k =>
  match s.head, s.body with
  | _ :: _, _ => ⟨s.head.take k, none, ⟨s.head.drop k, s.body⟩⟩
  | [], none => ⟨[], some .eof, s⟩
  | [], some body =>
    let r := read body k
    match r.err with
    | some .eof => ⟨r.bytes, some .eof, ⟨[], none⟩⟩
    | err => ⟨r.bytes, err, ⟨[], some r.next⟩⟩

variable {read : Read σ ε} {term : ReadError ε}

variable {data : Bytes} {s : σ}

/-- Pulling gets the first bytes the reader delivers, and its error only when they run out. -/
theorem pull_delivers (h : Delivers read term data s) {ask : ℕ → ℕ → ℕ}
    (hask : ∀ limit written, 0 < limit → 0 < ask limit written ∧ ask limit written ≤ limit)
    (limit written : ℕ) :
    ∃ n r, (∀ fuel, n ≤ fuel → pull read ask fuel s limit written = some r) ∧
      r.bytes = data.take limit ∧
      (r.err = none ∧ limit ≤ data.length ∨ r.err = some term ∧ data.length ≤ limit) ∧
      Delivers read term (data.drop limit) r.next := by
  induction h generalizing limit written with
  | ended s hread =>
    cases limit with
    | zero =>
      refine ⟨1, ⟨[], none, s⟩, ?_, rfl, Or.inl ⟨rfl, Nat.le_refl _⟩, .ended s hread⟩
      intro fuel hfuel
      obtain ⟨fuel, rfl⟩ := Nat.exists_eq_add_of_le' hfuel
      rfl
    | succ limit =>
      refine ⟨1, ⟨[], some term, s⟩, ?_, rfl, Or.inr ⟨rfl, Nat.zero_le _⟩, .ended s hread⟩
      intro fuel hfuel
      obtain ⟨fuel, rfl⟩ := Nat.exists_eq_add_of_le' hfuel
      simp only [pull, hread _ (hask (limit + 1) written (Nat.succ_pos limit)).1]
  | reads s data rest hdata hlength herr hnext ih =>
    cases limit with
    | zero =>
      refine ⟨1, ⟨[], none, s⟩, ?_, rfl, Or.inl ⟨rfl, Nat.zero_le _⟩, ?_⟩
      · intro fuel hfuel
        obtain ⟨fuel, rfl⟩ := Nat.exists_eq_add_of_le' hfuel
        rfl
      · exact .reads s data rest hdata hlength herr hnext
    | succ limit =>
      obtain ⟨hpos, hle⟩ := hask (limit + 1) written (Nat.succ_pos limit)
      have hsplit := hdata _ hpos
      have hshort := hlength _ hpos
      have hfollows := hnext _ hpos
      rcases herr _ hpos with hnone | ⟨hsome, hrest⟩
      · obtain ⟨n, r, hpull, hbytes, hend, hdelivers⟩ :=
          ih _ hpos (limit + 1 - (read s (ask (limit + 1) written)).bytes.length)
            (written + (read s (ask (limit + 1) written)).bytes.length)
        refine ⟨n + 1, r.behind (read s (ask (limit + 1) written)).bytes, ?_, ?_, ?_, ?_⟩
        · intro fuel hfuel
          obtain ⟨fuel, rfl⟩ := Nat.exists_eq_add_of_le' (Nat.le_of_add_left_le hfuel)
          simp only [pull, hnone, hpull fuel (Nat.le_of_succ_le_succ hfuel), Option.map_some]
        · rw [Result.behind, hbytes, ← hsplit, take_append,
            take_of_length_le (Nat.le_trans hshort hle)]
        · rw [← hsplit, length_append]
          refine hend.imp (fun h => ⟨h.1, ?_⟩) (fun h => ⟨h.1, ?_⟩)
          · have := h.2
            omega
          · have := h.2
            omega
        · rw [← hsplit, drop_append, drop_of_length_le (Nat.le_trans hshort hle),
            nil_append]
          exact hdelivers
      · rw [hrest, append_nil] at hsplit
        rw [hrest] at hfollows
        rw [hsplit] at hshort
        refine ⟨1, read s (ask (limit + 1) written), ?_, ?_, ?_, ?_⟩
        · intro fuel hfuel
          obtain ⟨fuel, rfl⟩ := Nat.exists_eq_add_of_le' hfuel
          simp only [pull, hsome]
        · rw [hsplit, take_of_length_le (Nat.le_trans hshort hle)]
        · exact Or.inr ⟨hsome, Nat.le_trans hshort hle⟩
        · rw [drop_of_length_le (Nat.le_trans hshort hle)]
          exact hfollows

/-- What io.ReadFull's error becomes when the bytes run out. -/
def shortError (data : Bytes) (term : ReadError ε) : ReadError ε :=
  match data, term with
  | _ :: _, .eof => .unexpectedEOF
  | _, _ => term

theorem readFull_delivers (h : Delivers read term data s) (k : ℕ) :
    ∃ n r, (∀ fuel, n ≤ fuel → readFull read fuel s k = some r) ∧ r.bytes = data.take k ∧
      r.err = (if k ≤ data.length then none else some (shortError data term)) ∧
      Delivers read term (data.drop k) r.next := by
  obtain ⟨n, r, hpull, hbytes, hend, hdelivers⟩ := pull_delivers h
    (fun limit _ hlimit => ⟨hlimit, Nat.le_refl _⟩) k 0
  refine ⟨n, settleFull k r, fun fuel hfuel => by rw [readFull, hpull fuel hfuel]; rfl, ?_⟩
  rw [settleFull, hbytes]
  by_cases hk : k ≤ data.length
  · rw [if_pos (by rw [length_take]; omega), if_pos hk]
    exact ⟨rfl, rfl, hdelivers⟩
  · rw [if_neg (by rw [length_take]; omega), if_neg hk]
    obtain ⟨herr, -⟩ := hend.resolve_left (fun hnone => hk hnone.2)
    rw [take_of_length_le (by omega)] at hbytes ⊢
    cases data with
    | nil => exact ⟨hbytes, by rw [herr]; cases term <;> rfl, hdelivers⟩
    | cons b rest =>
      rw [herr]
      cases term with
      | eof => exact ⟨rfl, rfl, hdelivers⟩
      | unexpectedEOF => exact ⟨hbytes, herr, hdelivers⟩
      | other wraps wraps' cause => exact ⟨hbytes, herr, hdelivers⟩

theorem copyN_delivers (h : Delivers read term data s) (room : ℕ → ℕ)
    (hroom : ∀ written, 0 < room written) (k : ℕ) (hk : 0 < k) :
    ∃ n r, (∀ fuel, n ≤ fuel → copyN read room fuel s k = some r) ∧ r.bytes = data.take k ∧
      r.err = (if k ≤ data.length then none else some term) ∧
      Delivers read term (data.drop k) r.next := by
  obtain ⟨n, r, hpull, hbytes, hend, hdelivers⟩ := pull_delivers h
    (fun limit written hlimit => ⟨Nat.lt_min.mpr ⟨hroom written, hlimit⟩, Nat.min_le_right _ _⟩) k 0
  refine ⟨n, settleCopy k r, fun fuel hfuel => ?_, ?_⟩
  · rw [copyN, if_neg (by omega), Int.toNat_natCast, hpull fuel hfuel]
    rfl
  · rw [settleCopy, hbytes]
    by_cases hlong : k ≤ data.length
    · rw [if_pos (by rw [length_take]; omega), if_pos hlong]
      exact ⟨rfl, rfl, hdelivers⟩
    · rw [if_neg (by rw [length_take]; omega), if_neg hlong]
      obtain ⟨herr, -⟩ := hend.resolve_left (fun hnone => hlong hnone.2)
      rw [herr]
      cases term with
      | eof => exact ⟨rfl, rfl, hdelivers⟩
      | unexpectedEOF => exact ⟨hbytes, herr, hdelivers⟩
      | other wraps wraps' cause => exact ⟨hbytes, herr, hdelivers⟩

section Joined

theorem joined_gone {s : Joined σ} (hhead : s.head = []) (hbody : s.body = none) :
    Delivers (joined read) .eof [] s := by
  obtain ⟨head, body⟩ := s
  subst hhead hbody
  exact .ended _ fun k _ => rfl

/-- Behind its head the joined reader delivers what the body does. -/
theorem joined_body {body : σ} (h : Delivers read term data body) :
    Delivers (joined read) term data ⟨[], some body⟩ := by
  induction h with
  | ended s hread =>
    cases term with
    | eof =>
      refine .reads _ [] (fun _ => []) ?_ ?_ ?_ ?_
      · intro k hk
        simp only [joined, hread k hk, append_nil]
      · intro k hk
        simp only [joined, hread k hk, length_nil, Nat.zero_le]
      · intro k hk
        exact Or.inr ⟨by simp only [joined, hread k hk], rfl⟩
      · intro k hk
        simp only [joined, hread k hk]
        exact joined_gone rfl rfl
    | unexpectedEOF => exact .ended _ fun k hk => by simp only [joined, hread k hk]
    | other wraps wraps' cause => exact .ended _ fun k hk => by simp only [joined, hread k hk]
  | reads s data rest hdata hlength herr hnext ih =>
    have hread : ∀ k, (joined read ⟨[], some s⟩ k).bytes = (read s k).bytes ∧
        (joined read ⟨[], some s⟩ k).err = (read s k).err := by
      intro k
      simp only [joined]
      split <;> simp_all
    refine .reads _ data rest ?_ ?_ ?_ ?_
    · intro k hk
      rw [(hread k).1, hdata k hk]
    · intro k hk
      rw [(hread k).1]
      exact hlength k hk
    · intro k hk
      rw [(hread k).2]
      exact herr k hk
    · intro k hk
      simp only [joined]
      split
      · next heof =>
        rcases herr k hk with hnone | ⟨hsome, hrest⟩
        · rw [hnone] at heof
          cases heof
        · rw [hsome] at heof
          obtain rfl := Option.some.inj heof
          rw [hrest]
          exact joined_gone rfl rfl
      · exact ih k hk

/-- The joined reader delivers the head and then the body. -/
theorem joined_delivers {body : σ} (h : Delivers read term data body)
    (head : Bytes) : Delivers (joined read) term (head ++ data) ⟨head, some body⟩ := by
  induction hlength : head.length using Nat.strongRecOn generalizing head with
  | ind n ih =>
    cases head with
    | nil => exact joined_body h
    | cons b rest =>
      refine .reads _ _ (fun k => (b :: rest).drop k ++ data) ?_ ?_ ?_ ?_
      · intro k _
        simp only [joined, ← append_assoc, take_append_drop]
      · intro k _
        simp only [joined, length_take]
        exact Nat.min_le_left _ _
      · intro k _
        exact Or.inl rfl
      · intro k hk
        apply ih ((b :: rest).drop k).length _ _ rfl
        rw [length_drop, ← hlength, length_cons]
        omega

end Joined

end KnowledgeEngine.ByteReaders
