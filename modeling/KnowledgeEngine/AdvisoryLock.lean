import KnowledgeEngine.Transitions

/-!
The Postgres advisory lock (clients/lock/postgres) under the single-writer runner
(clients/lock/runner), one run after another. The lock keeps one session; the server counts how
often that session holds the lock, and forgets the count with the session. Every await of a run
may end in a connection failure or in a cancellation, and the statement it waited for may then
have taken effect or not.
-/

namespace KnowledgeEngine.AdvisoryLock

open Transitions

/-- The pinned session: whether the client knows it closed, and the holds the server counts
for it, none once the server has dropped it. -/
structure Session where
  closed : Bool
  holds : Option ℕ
deriving DecidableEq

/-- `asyncpg.connect`. -/
inductive Connect
  | opened
  | failed (err : String)
  | cancelled

/-- How the await of a statement ends; `done` says whether the statement took effect. -/
inductive Reply
  | answered
  | failed (done : Bool) (err : String)
  | cancelled (done : Bool)

inductive Raised (E : Type)
  | UnavailableError (message : String)
  | CancelledError
  | operation (err : E)
deriving DecidableEq

variable {E T : Type}

/-- pg_try_advisory_lock; `free` says that no other session holds the lock. -/
def tryAdvisoryLock (free : Bool) (n : ℕ) : Bool × ℕ :=
  if n > 0 ∨ free then (true, n + 1) else (false, n)

/-- pg_advisory_unlock. -/
def advisoryUnlock (n : ℕ) : Bool × ℕ := if n > 0 then (true, n - 1) else (false, n)

/-- What a fetchval can end in. -/
inductive Fetched
  | value (result : Bool)
  | connectionError (err : String)
  | cancelled

/-- A statement on the session. A session the server has dropped answers nothing. -/
def fetchval (statement : ℕ → Bool × ℕ) (reply : Reply) (s : Session) : Fetched × Session :=
  match s.holds, reply with
  | none, .answered => (.connectionError "connection is closed", s)
  | none, .failed _ err => (.connectionError err, s)
  | none, .cancelled _ => (.cancelled, s)
  | some n, .answered => (.value (statement n).1, { s with holds := some (statement n).2 })
  | some n, .failed done err =>
    (.connectionError err, if done then { s with holds := some (statement n).2 } else s)
  | some n, .cancelled done =>
    (.cancelled, if done then { s with holds := some (statement n).2 } else s)

/-- `_ensure_connection`: the session to use, or why there is none. -/
def ensureConnection (connect : Connect) (conn : Option Session) : Except Fetched Session :=
  match conn with
  | some s => if s.closed then reopen else .ok s
  | none => reopen
where
  reopen : Except Fetched Session :=
    match connect with
    | .opened => .ok ⟨false, some 0⟩
    | .failed err => .error (.connectionError err)
    | .cancelled => .error .cancelled

def acquireFailed (err : String) : Raised E :=
  .UnavailableError
    ("advisory-lock acquire failed (broken or unreachable Postgres session): " ++ err)

/-- `acquire`, with the session it leaves. A connection error discards the session, and with it
the server's holds; a cancellation passes through. -/
def acquire (connect : Connect) (free : Bool) (reply : Reply) (conn : Option Session) :
    Except (Raised E) Bool × Option Session :=
  match ensureConnection connect conn with
  | .error (.connectionError err) => (.error (acquireFailed err), none)
  | .error _ => (.error .CancelledError, conn)
  | .ok s =>
    match fetchval (tryAdvisoryLock free) reply s with
    | (.value held, s') => (.ok held, some s')
    | (.connectionError err, _) => (.error (acquireFailed err), none)
    | (.cancelled, s') => (.error .CancelledError, some s')

/-- `release`. -/
def release (reply : Reply) (conn : Option Session) :
    Except (Raised E) Unit × Option Session :=
  match conn with
  | none => (.ok (), none)
  | some s =>
    match fetchval advisoryUnlock reply s with
    | (.value _, s') => (.ok (), some s')
    | (.connectionError _, _) => (.ok (), none)
    | (.cancelled, s') => (.error .CancelledError, some s')

/-- The server may drop a session at any time; the client may notice at once or not. -/
inductive Fate
  | kept
  | dropped (noticed : Bool)

def Fate.apply (fate : Fate) (conn : Option Session) : Option Session :=
  match fate with
  | .kept => conn
  | .dropped noticed => conn.map fun s => ⟨s.closed || noticed, none⟩

/-- What happens to one run: to the session before it, at its awaits, and to the session while
the operation runs. -/
structure Events (E T : Type) where
  idle : Fate
  connect : Connect
  free : Bool
  lock : Reply
  during : Fate
  operation : Except E T
  unlock : Reply

/-- `SingleWriterRunner.run`. The finally clause releases however the operation ends, and its
own exception takes the place of the operation's outcome. -/
def runOnce (ev : Events E T) (conn : Option Session) :
    Except (Raised E) (Option T) × Option Session :=
  match acquire ev.connect ev.free ev.lock (ev.idle.apply conn) with
  | (.error raised, conn) => (.error raised, conn)
  | (.ok false, conn) => (.ok none, conn)
  | (.ok true, conn) =>
    match release ev.unlock (ev.during.apply conn) with
    | (.error raised, conn) => (.error raised, conn)
    | (.ok (), conn) =>
      match ev.operation with
      | .ok value => (.ok (some value), conn)
      | .error err => (.error (.operation err), conn)

/-- The holds the server counts for the lock's session. -/
def holds (conn : Option Session) : ℕ := (conn.bind Session.holds).getD 0

/-- The statement reaches a session the server still has. -/
def reaches (connect : Connect) (conn : Option Session) : Bool :=
  match ensureConnection connect conn with
  | .ok s => s.holds.isSome
  | .error _ => false

/-- The lock statement is granted and its await cancelled, or the run holds the lock and the
unlock statement's await is cancelled before it took effect. -/
def Leaks (conn : Option Session) (ev : Events E T) : Prop :=
  reaches ev.connect (ev.idle.apply conn) = true ∧ ev.free = true ∧
    (ev.lock = .cancelled true ∨
      (ev.lock = .answered ∧ ev.during = .kept ∧ ev.unlock = .cancelled false))

variable {conn : Option Session}

theorem holds_apply (h : holds conn = 0) (fate : Fate) : holds (fate.apply conn) = 0 := by
  cases fate with
  | kept => exact h
  | dropped noticed => cases conn <;> rfl

/-- The session acquire works on holds nothing yet. -/
theorem ensureConnection_holds {connect : Connect} {s : Session} (hconn : holds conn = 0)
    (h : ensureConnection connect conn = .ok s) : s.holds = none ∨ s.holds = some 0 := by
  have hreopen : ensureConnection.reopen connect = .ok s → s.holds = none ∨ s.holds = some 0 := by
    intro h
    cases connect with
    | opened => cases h; exact .inr rfl
    | failed err => cases h
    | cancelled => cases h
  cases conn with
  | none => exact hreopen h
  | some s' =>
    rw [ensureConnection] at h
    split at h
    · exact hreopen h
    · cases h
      cases hholds : s.holds with
      | none => exact .inl rfl
      | some n =>
        have hn : (s.holds).getD 0 = 0 := hconn
        rw [hholds] at hn
        exact .inr (congrArg some hn)

/-- The three ways an acquire from a session without holds can end: with the lock, with the
server holding it for a caller that was told of a cancellation, or without a hold. -/
inductive Acquired (connect : Connect) (free : Bool) (reply : Reply) (conn : Option Session) :
    Except (Raised E) Bool × Option Session → Prop
  | held (s : Session) (hs : s.holds = some 1) (hreaches : reaches connect conn = true)
      (hfree : free = true) (hreply : reply = .answered) :
      Acquired connect free reply conn (.ok true, some s)
  | leaked (s : Session) (hs : s.holds = some 1) (hreaches : reaches connect conn = true)
      (hfree : free = true) (hreply : reply = .cancelled true) :
      Acquired connect free reply conn (.error .CancelledError, some s)
  | missed (result : Except (Raised E) Bool) (conn' : Option Session) (hresult : result ≠ .ok true)
      (hholds : holds conn' = 0) (hnot : ¬ (reaches connect conn = true ∧ free = true ∧
        (reply = .cancelled true ∨ reply = .answered))) :
      Acquired connect free reply conn (result, conn')

theorem acquire_acquired (hconn : holds conn = 0) (connect : Connect) (free : Bool)
    (reply : Reply) :
    Acquired connect free reply conn (acquire connect free reply conn : _ × _) (E := E) := by
  rw [acquire]
  cases hensure : ensureConnection connect conn with
  | error fetched =>
    have hnot : reaches connect conn = false := by rw [reaches, hensure]
    cases fetched with
    | value b => exact .missed _ _ nofun hconn (by simp [hnot])
    | connectionError err => exact .missed _ _ nofun rfl (by simp [hnot])
    | cancelled => exact .missed _ _ nofun hconn (by simp [hnot])
  | ok s =>
    obtain ⟨closed, n⟩ := s
    obtain rfl | rfl := ensureConnection_holds hconn hensure
    · have hnot : reaches connect conn = false := by rw [reaches, hensure]; rfl
      cases reply <;> exact .missed _ _ nofun rfl (by simp [hnot])
    · have hreaches : reaches connect conn = true := by rw [reaches, hensure]; rfl
      cases reply with
      | answered =>
        cases free with
        | true => exact .held _ rfl hreaches rfl rfl
        | false => exact .missed _ _ nofun rfl (by simp)
      | failed done err => exact .missed _ _ nofun rfl (by simp)
      | cancelled done =>
        cases done with
        | false => exact .missed _ _ nofun rfl (by simp)
        | true =>
          cases free with
          | true => exact .leaked _ rfl hreaches rfl rfl
          | false => exact .missed _ _ nofun rfl (by simp)

/-- Releasing the one hold fails only by a cancellation before the statement took effect, on a
session the server still has. -/
theorem release_holds_iff {s : Session} (hs : s.holds = some 1) (during : Fate) (reply : Reply) :
    holds (release reply (during.apply (some s)) : Except (Raised E) Unit × _).2 = 0 ↔
      ¬ (during = .kept ∧ reply = .cancelled false) := by
  obtain ⟨closed, n⟩ := s
  obtain rfl : n = some 1 := hs
  cases during with
  | kept =>
    cases reply with
    | answered => exact ⟨fun _ => by simp, fun _ => rfl⟩
    | failed done err => exact ⟨fun _ => by simp, fun _ => rfl⟩
    | cancelled done =>
      cases done with
      | true => exact ⟨fun _ => by simp, fun _ => rfl⟩
      | false => exact ⟨nofun, fun h => absurd ⟨rfl, rfl⟩ h⟩
  | dropped noticed => cases reply <;> exact ⟨fun _ => by simp, fun _ => rfl⟩

theorem runOnce_of_held {ev : Events E T} {conn' : Option Session}
    (h : acquire ev.connect ev.free ev.lock (ev.idle.apply conn) =
      ((.ok true, conn') : Except (Raised E) Bool × _)) :
    (runOnce ev conn).2 = (release ev.unlock (ev.during.apply conn') :
      Except (Raised E) Unit × _).2 := by
  rw [runOnce, h]
  dsimp only
  split
  · next hrelease => rw [hrelease]
  · next hrelease =>
    rw [hrelease]
    split <;> rfl

theorem runOnce_of_missed {ev : Events E T} {conn' : Option Session}
    {result : Except (Raised E) Bool}
    (h : acquire ev.connect ev.free ev.lock (ev.idle.apply conn) = (result, conn'))
    (hresult : result ≠ .ok true) : (runOnce ev conn).2 = conn' := by
  rw [runOnce, h]
  cases result with
  | error raised => rfl
  | ok held =>
    cases held with
    | true => exact absurd rfl hresult
    | false => rfl

/-- From a session without holds, a run leaves none if and only if it does not leak. -/
theorem runOnce_holds_iff (hconn : holds conn = 0) (ev : Events E T) :
    holds (runOnce ev conn).2 = 0 ↔ ¬ Leaks conn ev := by
  have hacquired := acquire_acquired (E := E) (holds_apply hconn ev.idle) ev.connect ev.free ev.lock
  generalize hacquire : acquire ev.connect ev.free ev.lock (ev.idle.apply conn) = result
    at hacquired
  cases hacquired with
  | held s hs hreaches hfree hreply =>
    rw [runOnce_of_held hacquire, release_holds_iff hs, Leaks, hreply]
    simp [hreaches, hfree]
  | leaked s hs hreaches hfree hreply =>
    rw [runOnce_of_missed hacquire nofun, Leaks, hreply]
    simp [holds, hs, hreaches, hfree]
  | missed result conn' hresult hholds hnot =>
    rw [runOnce_of_missed hacquire hresult]
    refine ⟨fun _ hleaks => hnot ?_, fun _ => hholds⟩
    obtain ⟨hreaches, hfree, hlock | ⟨hlock, -⟩⟩ := hleaks
    · exact ⟨hreaches, hfree, .inl hlock⟩
    · exact ⟨hreaches, hfree, .inr hlock⟩

/-- After every run of a sequence the server holds nothing if and only if no run leaks. -/
theorem no_hold_left_iff (history : List (Events E T)) :
    Throughout (fun conn ev => (runOnce ev conn).2)
        (fun conn ev => holds (runOnce ev conn).2 = 0) none history ↔
      Throughout (fun conn ev => (runOnce ev conn).2) (fun conn ev => ¬ Leaks conn ev)
        none history :=
  throughout_iff (fun conn => holds conn = 0) (fun _ _ _ h => h)
    (fun _ ev hconn => runOnce_holds_iff hconn ev) rfl history

/-- A run on which nothing goes wrong, but for the reply to its lock statement. -/
def smooth (lock : Reply) : Events Unit Unit :=
  ⟨.kept, .opened, true, lock, .kept, .ok (), .answered⟩

/-- A run is cancelled after the server granted the lock. The hold stays, and so it does after
the next run, which takes the lock a second time and gives it back once. -/
theorem cancelled_acquire_leaves_hold :
    runOnce (smooth (.cancelled true)) none = (.error .CancelledError, some ⟨false, some 1⟩) ∧
      runOnce (smooth .answered) (some ⟨false, some 1⟩) =
        (.ok (some ()), some ⟨false, some 1⟩) := by
  decide

end KnowledgeEngine.AdvisoryLock
