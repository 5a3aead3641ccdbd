import RtbAdapter.CText
import RtbAdapter.InverseMaps
import RtbAdapter.NetProtocol
import RtbAdapter.StepRuns

/-!
# The registry of the sessions

`AdMult` keeps for each server the session to it, and for each session its server. The
calls run under a lock that a thread cannot take twice: one that tries waits for itself.
`AdClient` keeps the same two maps. Beside the maps stand the sessions that were
created and neither deleted nor closed since, the newest first.
-/

namespace SessionRegistry

open ByteWords CText InverseMaps Std
open NetProtocol (adSuccess adFailure)

structure AdMult where
  session : TreeMap Bytes Nat := ∅
  server : TreeMap Nat Bytes := ∅
  locked : Bool := false
  live : List (Bytes × Nat) := []

/-- What a connection attempt depends on: the session that `AdNetBaseNewSession` hands out, if
there is memory for one, and the result of `AdSessionInit`. -/
structure Attempt where
  session : Option Nat
  id : Int

namespace AdMult

variable (r : AdMult) (attempt : Attempt) (sServer : Bytes) (pSession : Nat)

/-- `ctLock.lock()`; `none` waits. -/
def lock : Option AdMult := if r.locked then none else some { r with locked := true }

def unlock : AdMult := { r with locked := false }

/-- The session is closed, or deleted. -/
def closed : AdMult := { r with live := r.live.filter fun entry => entry.2 ≠ pSession }

/-- A session to the server is live and entered in both maps. -/
def enter : AdMult :=
  { r with
    session := r.session.insert sServer pSession
    server := r.server.insert pSession sServer
    live := (sServer, pSession) :: r.live }

def erase : AdMult :=
  { r with session := r.session.erase sServer, server := r.server.erase pSession }

def createSession : Option (Option Nat × AdMult) :=
  if (strSplit sServer (ascii ":")).length ≠ 2 then some (none, r)
  else match attempt.session with
    | none => some (none, r)
    | some pSession =>
      if attempt.id ≤ 0 then some (none, r)
      else do
        let r ← r.lock
        return (some pSession, (r.enter sServer pSession).unlock)

/-- `DelSession(string &)` -/
def delServer : Option AdMult := do
  let r ← r.lock
  match r.session[sServer]? with
  | none => return r.unlock
  | some pSession => return ((r.closed pSession).erase sServer pSession).unlock

/-- `DelSession(AdSession *)` -/
def delSession : Option AdMult := do
  let r ← r.lock
  match r.server[pSession]? with
  | none => return r.unlock
  | some sServer => return ((r.closed pSession).erase sServer pSession).unlock

def getSession : Option (Option Nat × AdMult) := do
  let r ← r.lock
  return (r.session[sServer]?, r.unlock)

/-- The session has been closed. For a session that is not registered the result is read from
a pointer that was never set, and left out here. A call that waits for its own lock leaves it
taken. -/
def adNetBaseSessionReconnect : Option (Option Int × AdMult) := do
  let r ← (r.closed pSession).lock
  match r.server[pSession]? with
  | none => return (none, r.unlock)
  | some sServer =>
    match r.createSession attempt sServer with
    | none => return (none, r)
    | some (some _, r) => return (some adSuccess, r.unlock)
    | some (none, r) => return (some adFailure, (r.erase sServer pSession).unlock)

/-- The pool hands out no session that is in use. -/
def inUse : Bool := r.live.any fun entry => attempt.session = some entry.2

end AdMult

inductive Call where
  | createSession (sServer : Bytes) (attempt : Attempt)
  | delServer (sServer : Bytes)
  | delSession (pSession : Nat)
  | getSession (sServer : Bytes)
  | reconnect (pSession : Nat) (attempt : Attempt)

def call : Call → AdMult → Option AdMult
  | .createSession sServer attempt, r =>
    if r.inUse attempt then none else (r.createSession attempt sServer).map Prod.snd
  | .delServer sServer, r => r.delServer sServer
  | .delSession pSession, r => r.delSession pSession
  | .getSession sServer, r => (r.getSession sServer).map Prod.snd
  | .reconnect pSession attempt, r =>
    if r.inUse attempt then none
    else (r.adNetBaseSessionReconnect attempt pSession).map Prod.snd

def adClientCreateSession (attempt : Attempt) (sServer : Bytes) (r : AdMult) :
    Option (Int × AdMult) :=
  (r.createSession attempt sServer).map fun (pSession, r) =>
    (if pSession.isSome then adSuccess else adFailure, r)

def adClientDelSession (sServer : Bytes) (r : AdMult) : Option AdMult := r.delServer sServer

def adClientReconnect (attempt : Attempt) (pSession : Nat) (r : AdMult) :
    Option (Option Int × AdMult) := r.adNetBaseSessionReconnect attempt pSession

/-- The newest live session to a server. -/
def newest (live : List (Bytes × Nat)) (sServer : Bytes) : Option Nat :=
  (live.find? fun entry => entry.1 = sServer).map Prod.snd

/-- The two maps are inverse, `GetSession` finds the newest live session of each server, and no
live session has lost its entry. -/
structure Settled (r : AdMult) : Prop where
  inverse : Inverse r.session r.server
  found : ∀ sServer, (r.getSession sServer).map Prod.fst = some (newest r.live sServer)
  entries : ∀ entry ∈ r.live, r.server[entry.2]? = some entry.1

/-- An attempt to reach a server yields this session. -/
structure Opens (attempt : Attempt) (sServer : Bytes) (pSession : Nat) : Prop where
  name : (strSplit sServer (ascii ":")).length = 2
  session : attempt.session = some pSession
  connected : 0 < attempt.id

/-- A session is only created for a server that has none, and a registered session that was
closed finds no new connection. -/
def CallKept : Call → AdMult → Prop
  | .createSession sServer attempt, r =>
    (∃ pSession, Opens attempt sServer pSession) → sServer ∉ r.session
  | .reconnect pSession attempt, r =>
    ∀ sServer, r.server[pSession]? = some sServer → ¬ ∃ new, Opens attempt sServer new
  | _, _ => True

/-- The invariant: the registered sessions are the live ones. -/
structure Kept (r : AdMult) : Prop where
  inverse : Inverse r.session r.server
  entries : ∀ sServer pSession, r.server[pSession]? = some sServer ↔ (sServer, pSession) ∈ r.live
  unlocked : r.locked = false

variable {r after : AdMult} {attempt : Attempt} {sServer : Bytes} {pSession : Nat} {c : Call}

theorem newest_some {live : List (Bytes × Nat)} (found : newest live sServer = some pSession) :
    (sServer, pSession) ∈ live := by
  obtain ⟨⟨s, p⟩, first, rfl⟩ := Option.map_eq_some_iff.mp found
  have same : s = sServer := by simpa using List.find?_some first
  exact same ▸ List.mem_of_find?_eq_some first

theorem newest_none {live : List (Bytes × Nat)} (absent : newest live sServer = none) :
    (sServer, pSession) ∉ live := by
  intro among
  have all := List.find?_eq_none.mp (Option.map_eq_none_iff.mp absent) _ among
  simp at all

theorem Kept.session_newest (kept : Kept r) (sServer : Bytes) :
    r.session[sServer]? = newest r.live sServer := by
  cases found : newest r.live sServer with
  | some pSession =>
    exact (kept.inverse sServer pSession).mpr ((kept.entries _ _).mpr (newest_some found))
  | none =>
    cases entry : r.session[sServer]? with
    | none => rfl
    | some pSession =>
      have live := (kept.entries _ _).mp ((kept.inverse sServer pSession).mp entry)
      exact absurd live (newest_none found)

theorem Kept.settled (kept : Kept r) : Settled r := by
  refine ⟨kept.inverse, fun sServer => ?_, fun entry among => (kept.entries _ _).mpr among⟩
  rw [← kept.session_newest sServer]
  simp [AdMult.getSession, AdMult.lock, kept.unlocked]

theorem kept_fresh : Kept {} := by
  refine ⟨inverse_empty, fun sServer pSession => ?_, rfl⟩
  simp

theorem createSession_closed (closed : ¬ ∃ pSession, Opens attempt sServer pSession) :
    r.createSession attempt sServer = some (none, r) := by
  unfold AdMult.createSession
  split
  · rfl
  · next name =>
    split
    · rfl
    · next pSession session =>
      split
      · rfl
      · next id =>
        exact absurd ⟨pSession, not_not.mp name, session, by omega⟩ closed

theorem createSession_opens (opens : Opens attempt sServer pSession) :
    r.createSession attempt sServer =
      r.lock.map fun r => (some pSession, (r.enter sServer pSession).unlock) := by
  unfold AdMult.createSession
  have connected := opens.connected
  rw [if_neg (not_not.mpr opens.name), opens.session]
  dsimp only
  rw [if_neg (by omega)]
  cases r.lock <;> rfl

/-- Erasing both halves of an entry together with its session. -/
theorem Kept.removed (kept : Kept r) (entry : r.server[pSession]? = some sServer) :
    Kept (((r.closed pSession).erase sServer pSession).unlock) := by
  refine ⟨kept.inverse.erase ((kept.inverse _ _).mpr entry), fun s p => ?_, rfl⟩
  simp only [AdMult.unlock, AdMult.erase, AdMult.closed, List.mem_filter, decide_eq_true_eq]
  by_cases same : pSession = p
  · subst same
    simp
  · rw [getElem?_erase_ne same, kept.entries]
    exact ⟨fun live => ⟨live, Ne.symm same⟩, And.left⟩

/-- Closing a session that is not registered. -/
theorem Kept.closed (kept : Kept r) (absent : r.server[pSession]? = none) :
    Kept (r.closed pSession) := by
  refine ⟨kept.inverse, fun s p => ?_, kept.unlocked⟩
  simp only [AdMult.closed, List.mem_filter, decide_eq_true_eq]
  rw [kept.entries]
  refine ⟨fun live => ⟨live, ?_⟩, And.left⟩
  rintro rfl
  rw [(kept.entries _ _).mpr live] at absent
  cases absent

theorem Kept.unregistered (kept : Kept r) (new : r.inUse attempt = false)
    (session : attempt.session = some pSession) : ∀ s, r.server[pSession]? ≠ some s := by
  intro s entry
  have live := (kept.entries _ _).mp entry
  have used : r.inUse attempt = true := List.any_eq_true.mpr ⟨_, live, by simp [session]⟩
  rw [new] at used
  cases used

/-- A new session keeps the maps inverse only where its server has none. -/
theorem Kept.enter_needs (kept : Kept r) (new : r.inUse attempt = false)
    (session : attempt.session = some pSession)
    (inverse : Inverse (r.enter sServer pSession).session (r.enter sServer pSession).server) :
    sServer ∉ r.session := by
  intro registered
  obtain ⟨p, entry⟩ := Option.isSome_iff_exists.mp (TreeMap.mem_iff_isSome_getElem?.mp registered)
  have same := (kept.inverse.insert_iff.mp inverse).1 p entry
  exact kept.unregistered new session sServer (same ▸ (kept.inverse _ _).mp entry)

theorem Kept.enter (kept : Kept r) (new : r.inUse attempt = false)
    (session : attempt.session = some pSession) (absent : sServer ∉ r.session) :
    Kept (r.enter sServer pSession).unlock := by
  have unregistered := kept.unregistered new session
  refine ⟨kept.inverse.insert ⟨fun p entry => ?_, fun s entry => ?_⟩, fun s p => ?_, rfl⟩
  · exact absurd (TreeMap.mem_iff_isSome_getElem?.mpr (by rw [entry]; rfl)) absent
  · exact absurd entry (unregistered s)
  · simp only [AdMult.unlock, AdMult.enter, List.mem_cons, Prod.mk.injEq]
    by_cases same : pSession = p
    · subst same
      rw [TreeMap.getElem?_insert_self]
      constructor
      · intro equal
        exact Or.inl ⟨(Option.some.inj equal).symm, rfl⟩
      · rintro (⟨rfl, -⟩ | live)
        · rfl
        · exact absurd ((kept.entries _ _).mpr live) (unregistered s)
    · rw [getElem?_insert_ne same, kept.entries]
      constructor
      · exact Or.inr
      · rintro (⟨-, equal⟩ | live)
        · exact absurd equal.symm same
        · exact live

theorem Kept.lock (kept : Kept r) : r.lock = some { r with locked := true } := by
  simp [AdMult.lock, kept.unlocked]

theorem Kept.locked_unlock (kept : Kept r) : { r with locked := true }.unlock = r := by
  have unlocked := kept.unlocked
  show { r with locked := false } = r
  rw [← unlocked]

/-- `AdNetBaseSessionReconnect` forgets the session, does nothing or waits for ever. -/
theorem Kept.reconnect (kept : Kept r)
    (called : r.adNetBaseSessionReconnect attempt pSession = some (ret, after)) :
    (r.server[pSession]? = none ∧ after = r.closed pSession) ∨
    ∃ sServer, r.server[pSession]? = some sServer ∧
      (((∃ new, Opens attempt sServer new) ∧ after.locked = true) ∨
        ((¬ ∃ new, Opens attempt sServer new) ∧
          after = ((r.closed pSession).erase sServer pSession).unlock)) := by
  unfold AdMult.adNetBaseSessionReconnect at called
  have locking : (r.closed pSession).lock = some { r.closed pSession with locked := true } := by
    simp [AdMult.lock, AdMult.closed, kept.unlocked]
  rw [locking] at called
  simp only [Option.bind_eq_bind, Option.bind_some] at called
  cases entry : r.server[pSession]? with
  | none =>
    left
    have found : (r.closed pSession).server[pSession]? = none := entry
    rw [found] at called
    cases called
    refine ⟨rfl, ?_⟩
    simp [AdMult.unlock, AdMult.closed, kept.unlocked]
  | some sServer =>
    right
    refine ⟨sServer, rfl, ?_⟩
    have found : (r.closed pSession).server[pSession]? = some sServer := entry
    rw [found] at called
    dsimp only at called
    by_cases opens : ∃ new, Opens attempt sServer new
    · left
      obtain ⟨new, opens⟩ := opens
      rw [createSession_opens opens] at called
      simp only [AdMult.lock, if_true, Option.map_none] at called
      cases called
      exact ⟨⟨new, opens⟩, rfl⟩
    · right
      rw [createSession_closed opens] at called
      cases called
      exact ⟨opens, rfl⟩

theorem kept_call (kept : Kept r) (met : CallKept c r) (called : call c r = some after) :
    Kept after := by
  cases c with
  | createSession sServer attempt =>
    simp only [call] at called
    split at called
    · cases called
    · next new =>
      by_cases opens : ∃ pSession, Opens attempt sServer pSession
      · have absent := met opens
        obtain ⟨pSession, opens⟩ := opens
        rw [createSession_opens opens, kept.lock] at called
        cases called
        exact kept.enter (by simpa using new) opens.session absent
      · rw [createSession_closed opens] at called
        cases called
        exact kept
  | delServer sServer =>
    simp only [call, AdMult.delServer, kept.lock, Option.bind_eq_bind, Option.bind_some] at called
    cases entry : r.session[sServer]? with
    | none =>
      simp only [entry] at called
      cases called
      exact kept.locked_unlock ▸ kept
    | some pSession =>
      simp only [entry] at called
      cases called
      exact kept.removed ((kept.inverse _ _).mp entry)
  | delSession pSession =>
    simp only [call, AdMult.delSession, kept.lock, Option.bind_eq_bind, Option.bind_some] at called
    cases entry : r.server[pSession]? with
    | none =>
      simp only [entry] at called
      cases called
      exact kept.locked_unlock ▸ kept
    | some sServer =>
      simp only [entry] at called
      cases called
      exact kept.removed entry
  | getSession sServer =>
    simp only [call, AdMult.getSession, kept.lock, Option.bind_eq_bind, Option.bind_some] at called
    cases called
    exact kept.locked_unlock ▸ kept
  | reconnect pSession attempt =>
    simp only [call] at called
    split at called
    · cases called
    · obtain ⟨⟨ret, after⟩, reconnected, rfl⟩ := Option.map_eq_some_iff.mp called
      rcases kept.reconnect reconnected with ⟨absent, rfl⟩ | ⟨sServer, entry, ⟨opens, -⟩ | ⟨-, rfl⟩⟩
      · exact kept.closed absent
      · exact absurd opens (met sServer entry)
      · exact kept.removed entry

theorem callKept_of_settled (kept : Kept r) (called : call c r = some after)
    (settled : Settled after) : CallKept c r := by
  cases c with
  | createSession sServer attempt =>
    rintro ⟨pSession, opens⟩
    simp only [call] at called
    split at called
    · cases called
    · next new =>
      rw [createSession_opens opens, kept.lock] at called
      cases called
      exact kept.enter_needs (by simpa using new) opens.session settled.inverse
  | reconnect pSession attempt =>
    intro sServer entry opens
    simp only [call] at called
    split at called
    · cases called
    · obtain ⟨⟨ret, after⟩, reconnected, rfl⟩ := Option.map_eq_some_iff.mp called
      rcases kept.reconnect reconnected with
        ⟨absent, -⟩ | ⟨other, found, ⟨-, locked⟩ | ⟨closed, -⟩⟩
      · rw [entry] at absent
        cases absent
      · have answered := settled.found sServer
        simp [AdMult.getSession, AdMult.lock, locked] at answered
      · rw [entry] at found
        cases found
        exact closed opens
  | delServer _ => trivial
  | delSession _ => trivial
  | getSession _ => trivial

/-- The registry stays settled along a run exactly when each of its calls keeps it so. -/
theorem settled_iff (calls : List Call) :
    (∀ r ∈ StepRuns.states call {} calls, Settled r) ↔
      StepRuns.Throughout call CallKept {} calls := by
  apply StepRuns.states_iff_invariant
  · intro c r after kept called settled
    exact callKept_of_settled kept called settled
  · intro c r after kept met called
    exact kept_call kept met called
  · exact fun r kept => kept.settled
  · exact kept_fresh

/-- Two sessions to one server. -/
def twoSessions : List Call :=
  [.createSession (ascii "h:1") ⟨some 1, 5⟩, .createSession (ascii "h:1") ⟨some 2, 6⟩]

theorem twoSessions_unsettled : ¬ ∀ r ∈ StepRuns.states call {} twoSessions, Settled r := by
  intro all
  have last := all ((({} : AdMult).enter (ascii "h:1") 1).enter (ascii "h:1") 2)
    (.tail _ (.tail _ (.head _)))
  have stale := (last.inverse (ascii "h:1") 1).mpr (by decide)
  exact absurd stale (by decide)

end SessionRegistry
