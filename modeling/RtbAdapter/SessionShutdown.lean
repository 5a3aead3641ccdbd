import RtbAdapter.ClosedSessions

/-!
# The end of the network base

The destructor empties the map of the registered sessions, the closed ones and the
free buffer, each with a loop of its own. To delete a session is to close it until
that succeeds.
-/

namespace SessionShutdown

open ClosedSessions EventTable InverseMaps NetBase NetSession Std
open NetProtocol (adSuccess adFailure)

/-- Whether `close` succeeds, for a session and the attempts counted from its first. -/
abbrev Closes := Nat → Nat → Bool

/-- `~AdSession`, for as many attempts as there is fuel. No task lowers the count meanwhile. -/
def destroySession : (Nat → Bool) → Nat → AdSession → Option AdSession
  | _, 0, _ => none
  | closes, fuel + 1, s =>
    let (ret, s) := s.adSessionClose (closes 0)
    if ret = adSuccess then some s else destroySession (fun i => closes (i + 1)) fuel s

/-- The event table, and the sessions that were deleted, in order. -/
structure Shutdown where
  event : AdEvent
  deleted : List Nat := []

section

variable (b : AdNetBase) (closes : Closes) (fuel : Nat)

def delete (pSession : Nat) (s : Shutdown) : Option Shutdown :=
  (destroySession (closes pSession) fuel (b.session pSession)).map fun _ =>
    { s with deleted := s.deleted ++ [pSession] }

/-- A loop that deletes the session of each entry. -/
def deleteEach {α : Type} (before : α → Shutdown → Shutdown) (session : α → Nat) :
    List α → Shutdown → Option Shutdown
  | [], s => some s
  | entry :: rest, s =>
    (delete b closes fuel (session entry) (before entry s)).bind
      (deleteEach before session rest)

/-- The registered sessions leave the event table first. -/
def readLoop : Shutdown → Option Shutdown :=
  deleteEach b closes fuel (fun entry s => { s with event := s.event.adEventDel entry.1 })
    Prod.snd b.sessionRead.toList

/-- The loop over the closed sessions, from its iterator on, for as many turns as there is fuel.
A turn leaves the iterator where it is. -/
def closeLoop : Nat → List Nat → Shutdown → Option Shutdown
  | _, [], s => some s
  | 0, _ :: _, _ => none
  | turns + 1, pSession :: rest, s =>
    (delete b closes fuel pSession s).bind (closeLoop turns (pSession :: rest))

/-- The sessions that `tryPop` takes out of the free buffer. -/
def freeLoop : Shutdown → Option Shutdown :=
  deleteEach b closes fuel (fun _ s => s) id b.sessionFree

/-- `~AdNetBase`. -/
def destructor : Option Shutdown :=
  ((readLoop b closes fuel { event := b.event }).bind
    (closeLoop b closes fuel fuel b.sessionClose.toList)).bind (freeLoop b closes fuel)

end

/-- A session that the base keeps. -/
def Held (b : AdNetBase) (p : Nat) : Prop :=
  p ∈ b.sessionRead.toList.map Prod.snd ∨ p ∈ b.sessionClose.toList ∨ p ∈ b.sessionFree

instance (b : AdNetBase) (p : Nat) : Decidable (Held b p) :=
  inferInstanceAs (Decidable (_ ∨ _ ∨ _))

/-- The destructor ends, and has deleted each session that is kept once and no other one. -/
def Releases (b : AdNetBase) (closes : Closes) : Prop :=
  ∃ fuel after, destructor b closes fuel = some after ∧
    ∀ p, after.deleted.count p = if Held b p then 1 else 0

/-- No session is kept at two places. -/
def Apart (b : AdNetBase) : Prop :=
  (b.sessionRead.toList.map Prod.snd ++ (b.sessionClose.toList ++ b.sessionFree)).Nodup

/-- A session that no message is on its way for, and whose socket closes at some attempt. -/
def Ends (b : AdNetBase) (closes : Closes) (p : Nat) : Prop :=
  (b.session p).uiActive = 0 ∧ ((b.session p).tcpSocket = adFailure ∨ ∃ i, closes p i)

/-- The sessions that are deleted where none is closed. -/
def open' (b : AdNetBase) : List Nat := b.sessionRead.toList.map Prod.snd ++ b.sessionFree

variable {b : AdNetBase} {closes : Closes} {fuel : Nat} {s after : Shutdown} {p : Nat}

theorem close_ends (session : AdSession) (c : Bool) : (session.adSessionClose c).1 = adSuccess ↔
    session.uiActive = 0 ∧ (session.tcpSocket = adFailure ∨ c) := by
  have failure := failure_ne
  simp only [AdSession.adSessionClose, tcpDisconnect]
  by_cases shut : session.tcpSocket = adFailure
  · by_cases idle : session.uiActive = 0 <;> simp [shut, idle, failure]
  · by_cases idle : session.uiActive = 0 <;> cases c <;> simp [shut, idle, failure]

theorem close_open {session : AdSession} (opened : session.tcpSocket ≠ adFailure) :
    (session.adSessionClose false).2.tcpSocket = session.tcpSocket := by
  have shut : tcpDisconnect false session.tcpSocket = (adFailure, session.tcpSocket) := by
    simp [tcpDisconnect, opened]
  simp only [AdSession.adSessionClose, shut]
  split <;> rfl

theorem destroySession_once {calls : Nat → Bool} {session : AdSession}
    (success : (session.adSessionClose (calls 0)).1 = adSuccess) :
    (destroySession calls 1 session).isSome := by
  rw [destroySession]
  simp only [if_pos success, Option.isSome_some]

/-- A session is deleted in some number of attempts exactly when it ends. -/
theorem destroySession_ends {calls : Nat → Bool} {session : AdSession} :
    (∃ fuel, (destroySession calls fuel session).isSome) ↔
      session.uiActive = 0 ∧ (session.tcpSocket = adFailure ∨ ∃ i, calls i) := by
  constructor
  · rintro ⟨fuel, ended⟩
    induction fuel generalizing calls session with
    | zero => cases ended
    | succ fuel ih =>
      simp only [destroySession] at ended
      split at ended
      · next success =>
        obtain ⟨idle, shut | call⟩ := (close_ends session (calls 0)).mp success
        · exact ⟨idle, .inl shut⟩
        · exact ⟨idle, .inr ⟨0, call⟩⟩
      · obtain ⟨idle, rest⟩ := ih ended
        rw [close_uiActive] at idle
        refine ⟨idle, ?_⟩
        by_cases shut : session.tcpSocket = adFailure
        · exact .inl shut
        · cases call : calls 0 with
          | true => exact .inr ⟨0, call⟩
          | false =>
            rw [call, close_open shut] at rest
            obtain shut' | ⟨i, later⟩ := rest
            · exact absurd shut' shut
            · exact .inr ⟨i + 1, later⟩
  · rintro ⟨idle, shut | ⟨i, call⟩⟩
    · have success := (close_ends session (calls 0)).mpr ⟨idle, .inl shut⟩
      exact ⟨1, destroySession_once success⟩
    · induction i generalizing calls session with
      | zero =>
        have success := (close_ends session (calls 0)).mpr ⟨idle, .inr call⟩
        exact ⟨1, destroySession_once success⟩
      | succ i ih =>
        have idle' : (session.adSessionClose (calls 0)).2.uiActive = 0 := by
          rw [close_uiActive]
          exact idle
        obtain ⟨fuel, ended⟩ := @ih (fun i => calls (i + 1)) _ idle' call
        refine ⟨fuel + 1, ?_⟩
        simp only [destroySession]
        split
        · rfl
        · exact ended

/-- More attempts change nothing once a session is deleted. -/
theorem destroySession_mono {calls : Nat → Bool} {session : AdSession} {more : Nat}
    (enough : fuel ≤ more) (ended : (destroySession calls fuel session).isSome) :
    (destroySession calls more session).isSome := by
  induction fuel generalizing calls session more with
  | zero => cases ended
  | succ fuel ih =>
    obtain ⟨more, rfl⟩ := Nat.exists_eq_succ_of_ne_zero (show more ≠ 0 by omega)
    simp only [destroySession] at ended ⊢
    split
    · rfl
    · next failed =>
      rw [if_neg failed] at ended
      exact ih (by omega) ended

/-- One number of attempts is enough for all sessions that end. -/
theorem ends_together {sessions : List Nat} (all : ∀ p ∈ sessions, Ends b closes p) :
    ∃ fuel, ∀ p ∈ sessions, (destroySession (closes p) fuel (b.session p)).isSome := by
  induction sessions with
  | nil => exact ⟨0, fun p inside => absurd inside List.not_mem_nil⟩
  | cons p sessions ih =>
    obtain ⟨here, others⟩ := List.forall_mem_cons.mp all
    obtain ⟨first, ended⟩ := destroySession_ends.mpr here
    obtain ⟨rest, ended'⟩ := ih others
    refine ⟨max first rest, List.forall_mem_cons.mpr ⟨?_, fun q inside => ?_⟩⟩
    · exact destroySession_mono (Nat.le_max_left ..) ended
    · exact destroySession_mono (Nat.le_max_right ..) (ended' q inside)

theorem delete_eq_some : delete b closes fuel p s = some after ↔
    (destroySession (closes p) fuel (b.session p)).isSome ∧
      after = { s with deleted := s.deleted ++ [p] } := by
  rw [delete, Option.map_eq_some_iff, Option.isSome_iff_exists]
  constructor
  · rintro ⟨session, ended, rfl⟩
    exact ⟨⟨session, ended⟩, rfl⟩
  · rintro ⟨⟨session, ended⟩, rfl⟩
    exact ⟨session, ended, rfl⟩

section

variable {α : Type} {before : α → Shutdown → Shutdown} {session : α → Nat} {entries : List α}

/-- What is deleted by a loop that advances: the session of each entry, one after the other. -/
theorem deleteEach_deleted (keeps : ∀ entry s, (before entry s).deleted = s.deleted)
    (ended : deleteEach b closes fuel before session entries s = some after) :
    after.deleted = s.deleted ++ entries.map session ∧
      ∀ entry ∈ entries, (destroySession (closes (session entry)) fuel
        (b.session (session entry))).isSome := by
  induction entries generalizing s with
  | nil =>
    obtain rfl := Option.some.inj ended
    exact ⟨by simp, fun entry inside => absurd inside List.not_mem_nil⟩
  | cons entry entries ih =>
    obtain ⟨middle, deleted, rest⟩ := Option.bind_eq_some_iff.mp ended
    obtain ⟨here, rfl⟩ := delete_eq_some.mp deleted
    obtain ⟨equal, others⟩ := ih rest
    refine ⟨?_, List.forall_mem_cons.mpr ⟨here, others⟩⟩
    rw [equal, keeps, List.map_cons, List.append_assoc, List.singleton_append]

theorem deleteEach_ends (all : ∀ entry ∈ entries, (destroySession (closes (session entry)) fuel
    (b.session (session entry))).isSome) :
    ∃ after, deleteEach b closes fuel before session entries s = some after := by
  induction entries generalizing s with
  | nil => exact ⟨s, rfl⟩
  | cons entry entries ih =>
    obtain ⟨here, others⟩ := List.forall_mem_cons.mp all
    obtain ⟨after, ended⟩ := ih others
    exact ⟨after, Option.bind_eq_some_iff.mpr ⟨_, delete_eq_some.mpr ⟨here, rfl⟩, ended⟩⟩

end

/-- With a closed session at its iterator the loop does not end. -/
theorem closeLoop_stuck (turns : Nat) (rest : List Nat) :
    closeLoop b closes fuel turns (p :: rest) s = none := by
  induction turns generalizing s with
  | zero => rfl
  | succ turns ih =>
    rw [closeLoop, Option.bind_eq_none_iff]
    exact fun middle _ => ih

/-- The destructor ends exactly without closed sessions, where every other session ends. -/
theorem destructor_ends (closed : b.sessionClose.toList = []) :
    (∀ after, destructor b closes fuel = some after → after.deleted = open' b ∧
      ∀ p ∈ open' b, (destroySession (closes p) fuel (b.session p)).isSome) ∧
    ((∀ p ∈ open' b, (destroySession (closes p) fuel (b.session p)).isSome) →
      ∃ after, destructor b closes fuel = some after) := by
  have skip : ∀ s, closeLoop b closes fuel fuel b.sessionClose.toList s = some s := by
    intro s
    rw [closed]
    cases fuel <;> rfl
  constructor
  · intro after ended
    obtain ⟨middle, ended, freed⟩ := Option.bind_eq_some_iff.mp ended
    obtain ⟨first, registered, same⟩ := Option.bind_eq_some_iff.mp ended
    rw [skip] at same
    obtain rfl := Option.some.inj same
    rw [readLoop] at registered
    rw [freeLoop] at freed
    obtain ⟨read, readEnd⟩ := deleteEach_deleted (by intro entry s; rfl) registered
    obtain ⟨free, freeEnd⟩ := deleteEach_deleted (by intro entry s; rfl) freed
    refine ⟨by rw [free, read, List.map_id, List.nil_append, open'], fun p inside => ?_⟩
    rcases List.mem_append.mp inside with listed | listed
    · obtain ⟨entry, among, rfl⟩ := List.mem_map.mp listed
      exact readEnd entry among
    · exact freeEnd p listed
  · intro all
    obtain ⟨first, registered⟩ : ∃ first,
        readLoop b closes fuel { event := b.event } = some first :=
      deleteEach_ends fun entry inside =>
        all _ (List.mem_append_left _ (List.mem_map_of_mem inside))
    obtain ⟨after, freed⟩ : ∃ after, freeLoop b closes fuel first = some after :=
      deleteEach_ends fun p inside => all p (List.mem_append_right _ inside)
    refine ⟨after, ?_⟩
    rw [destructor, registered, Option.bind_some, skip, Option.bind_some, freed]

theorem held_open (closed : b.sessionClose.toList = []) : Held b p ↔ p ∈ open' b := by
  simp [Held, closed, open']

/-- A base releases its sessions exactly when none is closed, none is kept at two places, and each
of them ends. -/
theorem releases_iff : Releases b closes ↔
    b.sessionClose.toList = [] ∧ Apart b ∧ ∀ p, Held b p → Ends b closes p := by
  constructor
  · rintro ⟨fuel, after, ended, once⟩
    have closed : b.sessionClose.toList = [] := by
      cases closed : b.sessionClose.toList with
      | nil => rfl
      | cons p rest =>
        obtain ⟨middle, ended, -⟩ := Option.bind_eq_some_iff.mp ended
        obtain ⟨first, -, ended⟩ := Option.bind_eq_some_iff.mp ended
        rw [closed, closeLoop_stuck] at ended
        cases ended
    obtain ⟨deleted, each⟩ := (destructor_ends closed).1 after ended
    refine ⟨closed, ?_, fun p held => ?_⟩
    · rw [Apart, closed, List.nil_append]
      refine List.nodup_iff_count_le_one.mpr fun p => ?_
      have count := once p
      rw [deleted] at count
      rw [← open', count]
      split <;> omega
    · exact destroySession_ends.mp ⟨fuel, each p ((held_open closed).mp held)⟩
  · rintro ⟨closed, apart, all⟩
    obtain ⟨fuel, each⟩ := ends_together fun p inside => all p ((held_open closed).mpr inside)
    obtain ⟨after, ended⟩ := (destructor_ends closed).2 each
    obtain ⟨deleted, -⟩ := (destructor_ends closed).1 after ended
    rw [Apart, closed, List.nil_append, ← open'] at apart
    refine ⟨fuel, after, ended, fun p => ?_⟩
    rw [deleted]
    split
    · next held => exact List.count_eq_one_of_mem apart ((held_open closed).mp held)
    · next away => exact List.count_eq_zero.mpr (mt (held_open closed).mpr away)

theorem mem_sessionRead : p ∈ b.sessionRead.toList.map Prod.snd ↔
    ∃ socket : Int, b.sessionRead[socket]? = some p := by
  constructor
  · intro listed
    obtain ⟨⟨socket, q⟩, inside, rfl⟩ := List.mem_map.mp listed
    exact ⟨socket, TreeMap.mem_toList_iff_getElem?_eq_some.mp inside⟩
  · rintro ⟨socket, found⟩
    exact List.mem_map.mpr ⟨(socket, p), TreeMap.mem_toList_iff_getElem?_eq_some.mpr found, rfl⟩

/-- The places of the sessions in use are apart from one another and from the free ones. -/
theorem apart_of_kept (kept : Kept none b) : Apart b := by
  have readOnce : (b.sessionRead.toList.map Prod.snd).Nodup := by
    have pairs : b.sessionRead.toList.Nodup := by
      refine List.Nodup.of_map Prod.fst ?_
      rw [TreeMap.map_fst_toList_eq_keys]
      exact TreeMap.nodup_keys
    refine pairs.map_on ?_
    rintro ⟨socket, p⟩ inside ⟨socket', q⟩ inside' rfl
    have first := kept.socket _ _ (TreeMap.mem_toList_iff_getElem?_eq_some.mp inside)
    have second := kept.socket _ _ (TreeMap.mem_toList_iff_getElem?_eq_some.mp inside')
    exact Prod.ext (first.symm.trans second) rfl
  have closeOnce : b.sessionClose.toList.Nodup :=
    TreeSet.distinct_toList.imp ReflCmp.ne_of_cmp_ne_eq
  have unused : ∀ p ∈ b.sessionFree, b.lives.alive p ≠ true := by
    intro p inside
    rw [kept.free p inside]
    decide
  refine List.nodup_append'.mpr ⟨readOnce, List.nodup_append'.mpr ⟨closeOnce, kept.freeOnce, ?_⟩,
    ?_⟩
  · intro p closed free
    exact unused p free (kept.close p (TreeSet.mem_toList.mp closed)).1
  · intro p listed inside
    obtain ⟨socket, found⟩ := mem_sessionRead.mp listed
    obtain ⟨alive, -, outside⟩ := kept.read socket p found
    rcases List.mem_append.mp inside with closed | free
    · exact outside (TreeSet.mem_toList.mp closed)
    · exact unused p free alive

/-- A base that serves its sockets as it should releases its sessions exactly when none is closed
and no message of a registered one is on its way, if the sockets close in the end. -/
theorem releases_of_kept (kept : Kept none b) (close : ∀ p, ∃ i, closes p i) :
    Releases b closes ↔ b.sessionClose.toList = [] ∧
      ∀ (socket : Int) p, b.sessionRead[socket]? = some p → (b.session p).uiActive = 0 := by
  rw [releases_iff]
  constructor
  · rintro ⟨closed, -, all⟩
    exact ⟨closed, fun socket p found => (all p (.inl (mem_sessionRead.mpr ⟨socket, found⟩))).1⟩
  · rintro ⟨closed, idle⟩
    refine ⟨closed, apart_of_kept kept, fun p held => ⟨?_, .inr (close p)⟩⟩
    rcases held with read | inside | free
    · obtain ⟨socket, found⟩ := mem_sessionRead.mp read
      exact idle socket p found
    · rw [closed] at inside
      exact absurd inside List.not_mem_nil
    · by_contra counted
      have alive := kept.counted p counted
      rw [kept.free p free] at alive
      cases alive

/-- In every state a base can come to, the destructor releases the sessions exactly when none is
closed, none is kept at two places and each of them ends. With tasks, sockets and memory as they
should be no session is ever kept at two places, and each ends unless a message for it is on its
way. -/
theorem shutdown_releases (memory : EventMemory) (iServer : Int) (events : List NetEvent)
    (closes : Closes) :
    (∀ b ∈ StepRuns.states NetBase.step (serving memory iServer) events,
      Releases b closes ↔
        b.sessionClose.toList = [] ∧ Apart b ∧ ∀ p, Held b p → Ends b closes p) ∧
    ((∀ event ∈ events, Served event) →
      ∀ b ∈ StepRuns.states ClosedSessions.step (serving memory iServer) events,
        Apart b ∧ ((∀ p, ∃ i, closes p i) → (Releases b closes ↔ b.sessionClose.toList = [] ∧
          ∀ (socket : Int) p, b.sessionRead[socket]? = some p →
            (b.session p).uiActive = 0))) := by
  constructor
  · intro b _
    exact releases_iff
  · intro served b reached
    have met : StepRuns.Throughout ClosedSessions.step (fun event _ => Served event)
        (serving memory iServer) events := StepRuns.throughout_inputs _ served
    have kept : Kept none b := StepRuns.states_keep_throughout
      (fun _ _ _ kept served stepped => Kept.step kept served stepped) (kept_serving memory) met
      b reached
    exact ⟨apart_of_kept kept, releases_of_kept kept⟩

/-- The peer of the only session is gone, and the session has not been swept yet. -/
def goneAway : List NetEvent := [connection, .message 5 adEventError [] {} { clock := 10 }]

def afterGone : AdNetBase :=
  (goneAway.foldlM (fun b event => ClosedSessions.step event b) (serving {} 3)).getD {}

theorem afterGone_reached :
    afterGone ∈ StepRuns.states ClosedSessions.step (serving {} 3) goneAway :=
  .tail _ (.tail _ (.head _))

theorem afterGone_released : Apart afterGone ∧ ((∀ _ : Nat, ∃ _ : Nat, (true : Bool)) →
    (Releases afterGone (fun _ _ => true) ↔ afterGone.sessionClose.toList = [] ∧
      ∀ (socket : Int) p, afterGone.sessionRead[socket]? = some p →
        (afterGone.session p).uiActive = 0)) :=
  (shutdown_releases {} 3 goneAway fun _ _ => true).2
    (by simp [goneAway, connection, Served, Turn.Served]) afterGone afterGone_reached

/-- The destructor never comes past the closed session. -/
theorem closed_stuck : afterGone ∈ StepRuns.states ClosedSessions.step (serving {} 3) goneAway ∧
    afterGone.sessionClose.toList = [1] ∧ ∀ closes, ¬ Releases afterGone closes := by
  have closed : afterGone.sessionClose.toList = [1] := rfl
  refine ⟨afterGone_reached, closed, fun closes released => ?_⟩
  rw [releases_iff, closed] at released
  exact absurd released.1 (List.cons_ne_nil _ _)

end SessionShutdown
