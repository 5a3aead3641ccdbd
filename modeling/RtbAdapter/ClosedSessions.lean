import RtbAdapter.NetBase

/-!
# The bookkeeping of closed sessions

A session in use is on its way to the base, registered for its socket, or closed and
waiting to be given back. Tasks use a session only while its count is up, and the
sockets of closed sessions close. A session that could not be opened or added when it
was made is given back at once; every other one waits until more than a second
after it was closed.
-/

namespace ClosedSessions

open EventTable InverseMaps NetBase NetSession RingBuffer Std
open NetProtocol (adSuccess adFailure)

/-- A task handles a session while its count is up, and takes holds of sessions in use. -/
def Allowed (b : AdNetBase) : NetEvent → Bool
  | .session pSession _ | .idle pSession => (b.session pSession).uiActive ≠ 0
  | .active pSession => b.lives.alive pSession
  | _ => true

def step (event : NetEvent) (b : AdNetBase) : Option AdNetBase :=
  if Allowed b event then NetBase.step event b else none

/-- The two maps of closed sessions agree, and closed sessions are in no other map. -/
structure Booked (b : AdNetBase) : Prop where
  same : ∀ p, p ∈ b.sessionClose ↔ p ∈ b.sessionCloseTime.map Prod.snd
  once : (b.sessionCloseTime.map Prod.snd).Nodup
  read : ∀ p ∈ b.sessionClose, ∀ s : Int, b.sessionRead[s]? ≠ some p
  write : ∀ p ∈ b.sessionClose, ∀ s : Int, b.sessionWrite[s]? ≠ some p

/-- More than a second after it was closed. -/
def GivenBack.Late (g : GivenBack) : Prop :=
  ∃ closing, g.closed = some closing ∧ closing + 1 < g.now

/-- Every session is given back once in a life, idle and late, and is not used after it. -/
structure Delayed (b : AdNetBase) : Prop where
  booked : Booked b
  once : ∀ g ∈ b.lives.givenBack, g.alive
  idle : ∀ g ∈ b.lives.givenBack, g.active = 0
  late : ∀ g ∈ b.lives.givenBack, GivenBack.Late g
  unused : b.lives.strays = []

/-- The same, where only a session that was registered has to wait. -/
structure Settled (b : AdNetBase) : Prop where
  booked : Booked b
  once : ∀ g ∈ b.lives.givenBack, g.alive
  idle : ∀ g ∈ b.lives.givenBack, g.active = 0
  late : ∀ g ∈ b.lives.givenBack, g.registered → GivenBack.Late g
  unused : b.lives.strays = []

/-- In a turn, closed sockets close and new sessions find memory for their event. -/
def Turn.Served (turn : Turn) : Prop :=
  (∀ i, (turn.new i).memory.read ∧ (turn.new i).closes) ∧ ∀ i, (turn.control i).closes

/-- The same for all that an event does. -/
def Served : NetEvent → Prop
  | .message _ _ attempts outcomes turn =>
    (∀ attempt ∈ attempts, attempt.outcomes.closes) ∧ outcomes.closes ∧ Turn.Served turn
  | .loop turn => Turn.Served turn
  | _ => True

/-- The session at hand is in use and is not kept anywhere yet. -/
structure AtHand (p : Nat) (b : AdNetBase) : Prop where
  alive : b.lives.alive p
  read : ∀ s : Int, b.sessionRead[s]? ≠ some p
  new : p ∉ b.sessionNew
  close : p ∉ b.sessionClose

/-- The places of the sessions in use, apart from the one at hand. -/
structure Kept (hand : Option Nat) (b : AdNetBase) : Prop where
  atHand : ∀ p, hand = some p → AtHand p b
  socket : ∀ (s : Int) p, b.sessionRead[s]? = some p → (b.session p).iSocket = s
  read : ∀ (s : Int) p, b.sessionRead[s]? = some p →
    b.lives.alive p ∧ p ∉ b.sessionNew ∧ p ∉ b.sessionClose
  write : ∀ (s : Int) p, b.sessionWrite[s]? = some p → b.sessionRead[s]? = some p
  new : ∀ p ∈ b.sessionNew, b.lives.alive p ∧ p ∉ b.sessionClose
  newOnce : b.sessionNew.Nodup
  close : ∀ p ∈ b.sessionClose, b.lives.alive p ∧ (b.session p).tcpSocket = adFailure
  same : ∀ p, p ∈ b.sessionClose ↔ p ∈ b.sessionCloseTime.map Prod.snd
  once : (b.sessionCloseTime.map Prod.snd).Nodup
  closing : ∀ entry ∈ b.sessionCloseTime, b.lives.closed entry.2 = some entry.1
  place : ∀ p, b.lives.alive p → hand = some p ∨ p ∈ b.sessionNew ∨
    b.sessionRead[(b.session p).iSocket]? = some p ∨ p ∈ b.sessionClose
  counted : ∀ p, (b.session p).uiActive ≠ 0 → b.lives.alive p
  messages : ∀ p ∈ b.msgControl, b.lives.alive p
  free : ∀ p ∈ b.sessionFree, b.lives.alive p = false
  freeOnce : b.sessionFree.Nodup
  givenBack : ∀ g ∈ b.lives.givenBack, g.alive ∧ g.active = 0 ∧ (g.registered → GivenBack.Late g)
  strays : b.lives.strays = []

variable {b : AdNetBase} {hand : Option Nat} {p q : Nat} {s : Int} {session : AdSession}
  {outcomes : Outcomes}

theorem Kept.settled (kept : Kept hand b) : Settled b where
  booked :=
    { same := kept.same
      once := kept.once
      read := fun p closed s found => (kept.read s p found).2.2 closed
      write := fun p closed s found => (kept.read s p (kept.write s p found)).2.2 closed }
  once g given := (kept.givenBack g given).1
  idle g given := (kept.givenBack g given).2.1
  late g given := (kept.givenBack g given).2.2
  unused := kept.strays

theorem kept_serving (memory : EventMemory) : Kept none (serving memory s) := by
  have same : ∃ event iServer, serving memory s = { event, iServer } := by
    simp only [serving, AdNetBase.adNetBaseAddServer]
    split
    · next inside => simp at inside
    · split <;> exact ⟨_, _, rfl⟩
  obtain ⟨event, iServer, start⟩ := same
  rw [start]
  constructor <;> simp

theorem failure_ne : adFailure ≠ adSuccess := by decide

theorem touch_alive (alive : b.lives.alive p) : b.touch p = b := if_pos alive

theorem Kept.event {event : AdEvent} (kept : Kept hand b) : Kept hand { b with event } :=
  { kept with atHand := fun p this => { kept.atHand p this with } }

/-- A session may change as long as it keeps its socket, stays closed once it is closed, and counts
only in use. -/
theorem Kept.setSession (kept : Kept hand b)
    (socket : ∀ s : Int, b.sessionRead[s]? = some p → session.iSocket = (b.session p).iSocket)
    (closed : p ∈ b.sessionClose → session.tcpSocket = adFailure)
    (counted : session.uiActive ≠ 0 → b.lives.alive p) : Kept hand (b.setSession p session) := by
  have other : ∀ q, q ≠ p → (b.setSession p session).session q = b.session q :=
    fun q apart => Function.update_of_ne apart ..
  have own : (b.setSession p session).session p = session := Function.update_self ..
  refine { kept with atHand := ?_, socket := ?_, close := ?_, place := ?_, counted := ?_ }
  · exact fun p this => { kept.atHand p this with }
  · intro s q found
    by_cases this : q = p
    · subst this
      rw [own, socket s found]
      exact kept.socket s q found
    · rw [other q this]
      exact kept.socket s q found
  · intro q inside
    refine ⟨(kept.close q inside).1, ?_⟩
    by_cases this : q = p
    · subst this
      rw [own]
      exact closed inside
    · rw [other q this]
      exact (kept.close q inside).2
  · intro q alive
    by_cases this : q = p
    · subst this
      rcases kept.place q alive with this | new | found | inside
      · exact .inl this
      · exact .inr (.inl new)
      · rw [own, socket _ found]
        exact .inr (.inr (.inl found))
      · exact .inr (.inr (.inr inside))
    · rw [other q this]
      exact kept.place q alive
  · intro q some
    by_cases this : q = p
    · subst this
      rw [own] at some
      exact counted some
    · rw [other q this] at some
      exact kept.counted q some

theorem mem_insert_close {closed : TreeSet Nat} : q ∈ closed.insert p ↔ q = p ∨ q ∈ closed := by
  rw [TreeSet.mem_insert, Std.compare_eq_iff_eq, eq_comm]

theorem not_mem_insert_close {closed : TreeSet Nat} (other : q ≠ p) (outside : q ∉ closed) :
    q ∉ closed.insert p := by
  rw [mem_insert_close]
  exact not_or.mpr ⟨other, outside⟩

theorem mem_erase_close {closed : TreeSet Nat} : q ∈ closed.erase p ↔ q ≠ p ∧ q ∈ closed := by
  rw [TreeSet.mem_erase, ne_eq, Std.compare_eq_iff_eq, eq_comm]

theorem close_tcpSocket (s : AdSession) : (s.adSessionClose true).2.tcpSocket = adFailure := by
  have gone : (tcpDisconnect true s.tcpSocket).2 = adFailure := by
    unfold tcpDisconnect
    split
    · assumption
    · rfl
  simp only [AdSession.adSessionClose]
  split <;> exact gone

/-- Without its entry a registered session is at hand. -/
theorem unregister_read {t : Int} : (b.unregister p s).sessionRead[t]? = some q ↔
    b.sessionRead[t]? = some q ∧ ¬ (t = s ∧ q = p) := by
  unfold AdNetBase.unregister
  split
  · next found =>
    by_cases this : t = s
    · subst this
      simp only [TreeMap.getElem?_erase_self, found, Option.some.injEq, true_and]
      constructor
      · intro never
        cases never
      · rintro ⟨rfl, other⟩
        exact absurd rfl other
    · rw [getElem?_erase_ne (Ne.symm this)]
      simp [this]
  · next missing =>
    constructor
    · intro found
      refine ⟨found, ?_⟩
      rintro ⟨rfl, rfl⟩
      exact missing found
    · exact And.left

theorem unregister_write {t : Int}
    (own : ∀ (t : Int) q, b.sessionWrite[t]? = some q → b.sessionRead[t]? = some q)
    (found : (b.unregister p s).sessionWrite[t]? = some q) :
    (b.unregister p s).sessionRead[t]? = some q := by
  rw [unregister_read]
  unfold AdNetBase.unregister at found
  split at found
  · by_cases this : t = s
    · subst this
      simp at found
    · rw [getElem?_erase_ne (Ne.symm this)] at found
      exact ⟨own t q found, fun both => this both.1⟩
  · next missing =>
    refine ⟨own t q found, ?_⟩
    rintro ⟨rfl, rfl⟩
    exact missing (own t q found)

/-- What closing leaves as it is. -/
structure Beside (p : Nat) (b after : AdNetBase) : Prop where
  session : ∀ q, q ≠ p → after.session q = b.session q
  iSocket : (after.session p).iSocket = (b.session p).iSocket
  sessionNew : after.sessionNew = b.sessionNew
  msgControl : after.msgControl = b.msgControl
  sessionFree : after.sessionFree = b.sessionFree
  alive : after.lives.alive = b.lives.alive
  registered : after.lives.registered = b.lives.registered
  read : ∀ (s : Int) q, after.sessionRead[s]? = some q → b.sessionRead[s]? = some q

theorem beside_refl : Beside p b b := by
  constructor <;> simp

variable (outcomes) in
/-- Closing changes the event table and the maps, and one session. -/
theorem closeSession_fields (alive : b.lives.alive p) (opened : p ∉ b.sessionClose) :
    ∃ event sessionRead sessionWrite,
      b.adNetBaseCloseSession outcomes p =
        { b with
          event, sessionRead, sessionWrite
          session := Function.update b.session p ((b.session p).adSessionClose outcomes.closes).2
          sessionClose := b.sessionClose.insert p
          sessionCloseTime :=
            b.sessionCloseTime.orderedInsert (fun p q => p.1 < q.1) (b.time, p)
          lives := { b.lives with closed := Function.update b.lives.closed p (some b.time) } } ∧
      (∀ (t : Int) q, sessionRead[t]? = some q ↔
        b.sessionRead[t]? = some q ∧ ¬ (t = (b.session p).iSocket ∧ q = p)) ∧
      ((∀ (t : Int) q, b.sessionWrite[t]? = some q → b.sessionRead[t]? = some q) →
        ∀ (t : Int) q, sessionWrite[t]? = some q → sessionRead[t]? = some q) := by
  refine ⟨(b.unregister p (b.session p).iSocket).event,
    (b.unregister p (b.session p).iSocket).sessionRead,
    (b.unregister p (b.session p).iSocket).sessionWrite, ?_, fun t q => unregister_read,
    fun own t q => unregister_write own⟩
  unfold AdNetBase.adNetBaseCloseSession
  rw [touch_alive alive]
  simp only
  rw [if_neg opened]
  unfold AdNetBase.unregister
  split <;> rfl

variable (outcomes) in
theorem closeSession_again (alive : b.lives.alive p) (closed : p ∈ b.sessionClose) :
    b.adNetBaseCloseSession outcomes p = b := by
  unfold AdNetBase.adNetBaseCloseSession
  rw [touch_alive alive]
  exact if_pos closed

variable (outcomes) in
theorem closeSession_beside (alive : b.lives.alive p) :
    Beside p b (b.adNetBaseCloseSession outcomes p) := by
  by_cases opened : p ∈ b.sessionClose
  · rw [closeSession_again outcomes alive opened]
    exact beside_refl
  · obtain ⟨event, sessionRead, sessionWrite, fields, read, -⟩ :=
      closeSession_fields outcomes alive opened
    rw [fields]
    constructor
    · exact fun q apart => Function.update_of_ne apart ..
    · simp only [Function.update_self]
      exact close_iSocket ..
    · rfl
    · rfl
    · rfl
    · rfl
    · rfl
    · exact fun s q found => ((read s q).mp found).1

theorem Kept.closeSession (kept : Kept hand b) (alive : b.lives.alive p) (apart : hand ≠ some p)
    (new : p ∉ b.sessionNew) (closes : outcomes.closes) :
    Kept hand (b.adNetBaseCloseSession outcomes p) := by
  by_cases opened : p ∈ b.sessionClose
  · rw [closeSession_again outcomes alive opened]
    exact kept
  obtain ⟨event, sessionRead, sessionWrite, fields, unregistered, write⟩ :=
    closeSession_fields outcomes alive opened
  have beside := closeSession_beside outcomes alive
  rw [fields, closes] at beside ⊢
  have read : ∀ (s : Int) q, sessionRead[s]? = some q → b.sessionRead[s]? = some q ∧ q ≠ p := by
    intro s q found
    obtain ⟨before, other⟩ := (unregistered s q).mp found
    refine ⟨before, ?_⟩
    rintro rfl
    exact other ⟨(kept.socket s q before).symm, rfl⟩
  have entered := (List.perm_orderedInsert (fun p q : Int × Nat => p.1 < q.1) (b.time, p)
    b.sessionCloseTime)
  refine { kept with
    atHand := ?_, socket := ?_, read := ?_, write := write kept.write, new := ?_, close := ?_
    same := ?_, once := ?_, closing := ?_, place := ?_, counted := ?_ }
  · intro q this
    have other : q ≠ p := by
      rintro rfl
      exact apart this
    have atHand := kept.atHand q this
    refine { atHand with read := ?_, close := ?_ }
    · exact fun s found => atHand.read s (read s q found).1
    · exact not_mem_insert_close other atHand.close
  · intro s q found
    obtain ⟨before, other⟩ := read s q found
    rw [beside.session q other]
    exact kept.socket s q before
  · intro s q found
    obtain ⟨before, other⟩ := read s q found
    obtain ⟨here, old, isOpen⟩ := kept.read s q before
    exact ⟨here, old, not_mem_insert_close other isOpen⟩
  · intro q among
    obtain ⟨here, isOpen⟩ := kept.new q among
    have other : q ≠ p := by
      rintro rfl
      exact new among
    exact ⟨here, not_mem_insert_close other isOpen⟩
  · intro q closed
    by_cases this : q = p
    · subst this
      refine ⟨alive, ?_⟩
      simp only [Function.update_self]
      exact close_tcpSocket _
    · have before : q ∈ b.sessionClose := (mem_insert_close.mp closed).resolve_left this
      rw [beside.session q this]
      exact kept.close q before
  · intro q
    rw [(entered.map Prod.snd).mem_iff, List.map_cons, List.mem_cons, ← kept.same q]
    exact mem_insert_close
  · rw [(entered.map Prod.snd).nodup_iff, List.map_cons, List.nodup_cons]
    exact ⟨mt (kept.same p).mpr opened, kept.once⟩
  · intro entry among
    rcases List.mem_cons.mp (entered.mem_iff.mp among) with rfl | old
    · simp
    · have other : entry.2 ≠ p := by
        rintro rfl
        exact opened ((kept.same _).mpr (List.mem_map_of_mem old))
      simp only
      rw [Function.update_of_ne other]
      exact kept.closing entry old
  · intro q here
    by_cases this : q = p
    · subst this
      exact .inr (.inr (.inr (mem_insert_close.mpr (.inl rfl))))
    · rw [beside.session q this]
      rcases kept.place q here with atHand | among | found | closed
      · exact .inl atHand
      · exact .inr (.inl among)
      · exact .inr (.inr (.inl ((unregistered _ q).mpr ⟨found, fun both => this both.2⟩)))
      · exact .inr (.inr (.inr (mem_insert_close.mpr (.inr closed))))
  · intro q some
    by_cases this : q = p
    · subst this
      exact alive
    · rw [beside.session q this] at some
      exact kept.counted q some

/-- A session fresh from `AdNetBaseNewSession`: nobody counts on it yet. -/
structure Fresh (p : Nat) (b : AdNetBase) : Prop where
  active : (b.session p).uiActive = 0
  messages : p ∉ b.msgControl
  registered : b.lives.registered p = false

theorem Kept.begin (kept : Kept none b) (unused : b.lives.alive p = false)
    (free : p ∉ b.sessionFree) : Kept (some p) (b.begin p) ∧ Fresh p (b.begin p) := by
  have other : ∀ q, b.lives.alive q → q ≠ p := by
    rintro q alive rfl
    simp [unused] at alive
  have still : ∀ q, b.lives.alive q → (b.begin p).lives.alive q := by
    intro q alive
    simp [AdNetBase.begin, Function.update_of_ne (other q alive), alive]
  have quiet : (b.session p).uiActive = 0 := by
    by_contra some
    exact other p (kept.counted p some) rfl
  constructor
  · refine { kept with
      atHand := ?_, read := ?_, new := ?_, close := ?_, closing := ?_, place := ?_, counted := ?_
      messages := ?_, free := ?_ }
    · rintro q this
      obtain rfl := Option.some.inj this
      constructor
      · simp [AdNetBase.begin]
      · exact fun s found => other p (kept.read s p found).1 rfl
      · exact fun among => other p (kept.new p among).1 rfl
      · exact fun closed => other p (kept.close p closed).1 rfl
    · exact fun s q found => ⟨still q (kept.read s q found).1, (kept.read s q found).2⟩
    · exact fun q among => ⟨still q (kept.new q among).1, (kept.new q among).2⟩
    · exact fun q closed => ⟨still q (kept.close q closed).1, (kept.close q closed).2⟩
    · intro entry among
      have closed : entry.2 ∈ b.sessionClose := (kept.same _).mpr (List.mem_map_of_mem among)
      have apart := other _ (kept.close _ closed).1
      simp only [AdNetBase.begin]
      rw [Function.update_of_ne apart]
      exact kept.closing entry among
    · intro q alive
      by_cases this : q = p
      · exact .inl (congrArg some this.symm)
      · have before : b.lives.alive q := by
          simpa [AdNetBase.begin, Function.update_of_ne this] using alive
        rcases kept.place q before with atHand | elsewhere
        · cases atHand
        · exact .inr elsewhere
    · exact fun q some => still q (kept.counted q some)
    · exact fun q among => still q (kept.messages q among)
    · intro q among
      have apart : q ≠ p := by
        rintro rfl
        exact free among
      simp only [AdNetBase.begin]
      rw [Function.update_of_ne apart]
      exact kept.free q among
  · constructor
    · exact quiet
    · exact fun among => other p (kept.messages p among) rfl
    · simp [AdNetBase.begin]

/-- A new session comes from the free ones or from memory that no session has. -/
theorem Kept.newSession {fresh : Option Nat} {after : AdNetBase} (kept : Kept none b)
    (made : b.adNetBaseNewSession fresh = some (some p, after)) :
    Kept (some p) after ∧ Fresh p after := by
  unfold AdNetBase.adNetBaseNewSession at made
  cases free : b.sessionFree with
  | cons q rest =>
    simp only [free, tryPop] at made
    obtain ⟨rfl, rfl⟩ : q = p ∧ _ = after := by simpa using made
    have once := kept.freeOnce
    rw [free, List.nodup_cons] at once
    have unused := kept.free q (by simp [free])
    have shorter : Kept none { b with sessionFree := rest } :=
      { kept with
        atHand := by simp
        free := fun q among => kept.free q (by simp [free, among])
        freeOnce := once.2 }
    exact shorter.begin unused once.1
  | nil =>
    simp only [free, tryPop] at made
    cases fresh with
    | none => simp at made
    | some q =>
      simp only at made
      split at made
      · cases made
      · next unused =>
        obtain ⟨rfl, rfl⟩ : q = p ∧ _ = after := by simpa using made
        have notAlive : b.lives.alive q = false := by simpa using unused
        have nowhere : ∀ s : Int, b.sessionRead[s]? ≠ some q := by
          intro s found
          simp [(kept.read s q found).1] at notAlive
        have plain : Kept none (b.setSession q {}) :=
          kept.setSession (fun s found => absurd found (nowhere s)) (fun _ => rfl)
            (fun some => absurd rfl some)
        exact plain.begin notAlive (by simp [AdNetBase.setSession, free])

theorem mem_sessionFree : q ∈ (b.adNetBaseDeleteSession p).sessionFree →
    q = p ∨ q ∈ b.sessionFree := by
  simp only [AdNetBase.adNetBaseDeleteSession, tryPush]
  split
  · simp [or_comm]
  · exact .inr

theorem nodup_sessionFree (once : b.sessionFree.Nodup) (outside : p ∉ b.sessionFree) :
    (b.adNetBaseDeleteSession p).sessionFree.Nodup := by
  simp only [AdNetBase.adNetBaseDeleteSession, tryPush]
  split
  · rw [Option.getD_some, List.nodup_append]
    refine ⟨once, List.nodup_singleton p, ?_⟩
    rintro q inside r this rfl
    exact outside (List.mem_singleton.mp this ▸ inside)
  · exact once

theorem newSession_none {fresh : Option Nat} {after : AdNetBase}
    (made : b.adNetBaseNewSession fresh = some (none, after)) : after = b := by
  unfold AdNetBase.adNetBaseNewSession at made
  cases free : b.sessionFree with
  | cons q rest => simp [free, tryPop] at made
  | nil =>
    cases fresh with
    | none => simpa [free, tryPop, eq_comm] using made
    | some q =>
      simp only [free, tryPop] at made
      split at made
      · cases made
      · simp at made

/-- An idle session that is kept nowhere is given back, late if it was registered. -/
theorem Kept.deleteSession (kept : Kept (some p) b) (idle : (b.session p).uiActive = 0)
    (quiet : p ∉ b.msgControl) (late : b.lives.registered p → ∃ closing,
      b.lives.closed p = some closing ∧ closing + 1 < b.time) :
    Kept none (b.adNetBaseDeleteSession p) := by
  have atHand := kept.atHand p rfl
  have apart : ∀ q, q ≠ p → (b.adNetBaseDeleteSession p).lives.alive q = b.lives.alive q :=
    fun q other => Function.update_of_ne other ..
  have stays : ∀ q, b.lives.alive q → q ≠ p → (b.adNetBaseDeleteSession p).lives.alive q := by
    intro q alive other
    rw [apart q other]
    exact alive
  refine { kept with
    atHand := by simp
    read := ?_, new := ?_, close := ?_, place := ?_, counted := ?_, messages := ?_, free := ?_
    freeOnce := ?_, givenBack := ?_ }
  · intro s q found
    obtain ⟨alive, rest⟩ := kept.read s q found
    refine ⟨stays q alive ?_, rest⟩
    rintro rfl
    exact atHand.read s found
  · intro q among
    obtain ⟨alive, rest⟩ := kept.new q among
    refine ⟨stays q alive ?_, rest⟩
    rintro rfl
    exact atHand.new among
  · intro q closed
    obtain ⟨alive, rest⟩ := kept.close q closed
    refine ⟨stays q alive ?_, rest⟩
    rintro rfl
    exact atHand.close closed
  · intro q alive
    have other : q ≠ p := by
      rintro rfl
      simp [AdNetBase.adNetBaseDeleteSession] at alive
    rw [apart q other] at alive
    rcases kept.place q alive with this | elsewhere
    · exact absurd (Option.some.inj this).symm other
    · exact .inr elsewhere
  · intro q some
    refine stays q (kept.counted q some) ?_
    rintro rfl
    exact some idle
  · intro q among
    refine stays q (kept.messages q among) ?_
    rintro rfl
    exact quiet among
  · intro q among
    rcases mem_sessionFree among with rfl | old
    · simp [AdNetBase.adNetBaseDeleteSession]
    · by_cases this : q = p
      · subst this
        simp [AdNetBase.adNetBaseDeleteSession]
      · rw [apart q this]
        exact kept.free q old
  · apply nodup_sessionFree kept.freeOnce
    intro inside
    have gone := kept.free p inside
    simp [atHand.alive] at gone
  · intro g among
    rcases List.mem_append.mp among with old | new
    · exact kept.givenBack g old
    · rw [List.mem_singleton] at new
      rw [new]
      exact ⟨atHand.alive, idle, late⟩

theorem Kept.deleteFresh (kept : Kept (some p) b) (fresh : Fresh p b) :
    Kept none (b.adNetBaseDeleteSession p) :=
  kept.deleteSession fresh.active fresh.messages fun registered => by
    simp [fresh.registered] at registered

/-- `AdEventAdd` for reading succeeds with memory for one event. -/
theorem adEventAdd_read (e : AdEvent) {memory : EventMemory} (room : memory.read) (s : Int) :
    (e.adEventAdd memory s adEventRead 0).1 = adSuccess := by
  have some : ¬ adEventRead &&& (adEventRead ||| adEventWrite) = 0 := by decide
  have reading : has adEventRead adEventRead := by decide
  have notWriting : has adEventRead adEventWrite = false := by decide
  have read : ∀ (e : AdEvent) old, (e.addRead memory s old adEventRead 0).1 = adSuccess := by
    intro e old
    unfold AdEvent.addRead
    rw [if_pos reading, room]
    split
    · rfl
    · split
      · split <;> rfl
      · rfl
  have write : ∀ (e : AdEvent) old, (e.addWrite memory s old adEventRead).1 = adSuccess := by
    intro e old
    simp only [AdEvent.addWrite, notWriting, Bool.false_eq_true, if_false]
    split <;> rfl
  simp [AdEvent.adEventAdd, some, read, write]

/-- A session that stands by while another one is closed. -/
structure Spared (p : Nat) (b after : AdNetBase) : Prop where
  session : after.session p = b.session p
  messages : after.msgControl = b.msgControl
  registered : after.lives.registered = b.lives.registered
  new : after.sessionNew = b.sessionNew

theorem Fresh.spared {after : AdNetBase} (fresh : Fresh p b) (spared : Spared p b after) :
    Fresh p after where
  active := by
    rw [spared.session]
    exact fresh.active
  messages := by
    rw [spared.messages]
    exact fresh.messages
  registered := by
    rw [spared.registered]
    exact fresh.registered

/-- After it no session is registered for the socket. -/
theorem Kept.closeOther (kept : Kept (some p) b) (closes : outcomes.closes) :
    Kept (some p) (b.closeOther outcomes p s) ∧ Spared p b (b.closeOther outcomes p s) ∧
      (b.closeOther outcomes p s).sessionRead[s]? = none := by
  have atHand := kept.atHand p rfl
  unfold AdNetBase.closeOther
  cases found : b.sessionRead[s]? with
  | none => exact ⟨kept, ⟨rfl, rfl, rfl, rfl⟩, found⟩
  | some other =>
    have apart : p ≠ other := by
      rintro rfl
      exact atHand.read s found
    obtain ⟨alive, new, opened⟩ := kept.read s other found
    have beside := closeSession_beside outcomes alive
    simp only [ne_eq, apart, not_false_eq_true, if_true]
    refine ⟨kept.closeSession alive (by simpa using apart) new closes,
      ⟨beside.session p apart, beside.msgControl, beside.registered, beside.sessionNew⟩, ?_⟩
    obtain ⟨event, sessionRead, sessionWrite, fields, read, -⟩ :=
      closeSession_fields outcomes alive opened
    rw [fields, Option.eq_none_iff_forall_ne_some]
    intro q again
    obtain ⟨before, notThis⟩ := (read s q).mp again
    have same : q = other := by
      rw [found] at before
      exact (Option.some.inj before).symm
    exact notThis ⟨(kept.socket s other found).symm, same⟩

/-- The session at hand is registered for its socket. -/
theorem Kept.register {event : AdEvent} (kept : Kept (some p) b)
    (vacant : b.sessionRead[(b.session p).iSocket]? = none) :
    Kept none { b with
      event
      sessionRead := b.sessionRead.insert (b.session p).iSocket p
      lives := { b.lives with registered := Function.update b.lives.registered p true } } := by
  have atHand := kept.atHand p rfl
  have cases : ∀ (s : Int) q, (b.sessionRead.insert (b.session p).iSocket p)[s]? = some q →
      (s = (b.session p).iSocket ∧ q = p) ∨ b.sessionRead[s]? = some q := by
    intro s q found
    by_cases this : (b.session p).iSocket = s
    · subst this
      rw [TreeMap.getElem?_insert_self] at found
      exact .inl ⟨rfl, (Option.some.inj found).symm⟩
    · rw [getElem?_insert_ne this] at found
      exact .inr found
  have still : ∀ (s : Int) q, b.sessionRead[s]? = some q →
      (b.sessionRead.insert (b.session p).iSocket p)[s]? = some q := by
    intro s q found
    have away : (b.session p).iSocket ≠ s := by
      rintro rfl
      simp [vacant] at found
    rw [getElem?_insert_ne away]
    exact found
  refine { kept with
    atHand := by simp
    socket := ?_, read := ?_, place := ?_, write := ?_ }
  · intro s q found
    rcases cases s q found with ⟨rfl, rfl⟩ | before
    · rfl
    · exact kept.socket s q before
  · intro s q found
    rcases cases s q found with ⟨rfl, rfl⟩ | before
    · exact ⟨atHand.alive, atHand.new, atHand.close⟩
    · exact kept.read s q before
  · exact fun s q found => still s q (kept.write s q found)
  · intro q alive
    rcases kept.place q alive with this | new | found | closed
    · obtain rfl := Option.some.inj this
      exact .inr (.inr (.inl TreeMap.getElem?_insert_self))
    · exact .inr (.inl new)
    · exact .inr (.inr (.inl (still _ q found)))
    · exact .inr (.inr (.inr closed))

/-- A session is added, or stays at hand if the event table has no memory for it. -/
theorem Kept.addSession (kept : Kept (some p) b) (closes : outcomes.closes) :
    (outcomes.memory.read → (b.adNetBaseAddSession outcomes p).1 = adSuccess) ∧
      ((b.adNetBaseAddSession outcomes p).1 = adSuccess →
        Kept none (b.adNetBaseAddSession outcomes p).2) ∧
      ((b.adNetBaseAddSession outcomes p).1 ≠ adSuccess →
        Kept (some p) (b.adNetBaseAddSession outcomes p).2 ∧
        (Fresh p b → Fresh p (b.adNetBaseAddSession outcomes p).2)) ∧
      (b.adNetBaseAddSession outcomes p).2.sessionNew = b.sessionNew := by
  obtain ⟨closed, spared, vacant⟩ := kept.closeOther (s := (b.session p).iSocket) closes
  unfold AdNetBase.adNetBaseAddSession
  rw [touch_alive (kept.atHand p rfl).alive]
  simp only
  generalize b.closeOther outcomes p (b.session p).iSocket = c at closed spared vacant ⊢
  have socket : (b.session p).iSocket = (c.session p).iSocket := by rw [spared.session]
  split
  · next failed =>
    refine ⟨fun room => absurd (adEventAdd_read _ room _) failed, ?_, ?_, spared.new⟩
    · exact fun success => absurd success failure_ne
    · exact fun _ => ⟨closed.event, fun fresh => { fresh.spared spared with }⟩
  · refine ⟨fun _ => rfl, fun _ => ?_, fun failed => absurd rfl failed, spared.new⟩
    rw [socket] at vacant ⊢
    exact closed.register vacant

theorem Kept.time (kept : Kept hand b) (clock : Int) : Kept hand { b with time := clock } :=
  { kept with atHand := fun p this => { kept.atHand p this with } }

/-- The first of the new sessions is taken in hand. -/
theorem Kept.takeNew {rest : List Nat} (kept : Kept none b) (new : b.sessionNew = p :: rest) :
    Kept (some p) { b with sessionNew := rest } := by
  have once := kept.newOnce
  rw [new, List.nodup_cons] at once
  have among : p ∈ b.sessionNew := by simp [new]
  have fewer : ∀ q, q ∈ rest → q ∈ b.sessionNew := fun q inside => by simp [new, inside]
  refine { kept with
    atHand := ?_, read := ?_, new := fun q inside => kept.new q (fewer q inside)
    newOnce := once.2, place := ?_ }
  · rintro q this
    obtain rfl := Option.some.inj this
    exact
      { alive := (kept.new p among).1
        read := fun s found => (kept.read s p found).2.1 among
        new := once.1
        close := (kept.new p among).2 }
  · intro s q found
    obtain ⟨alive, old, opened⟩ := kept.read s q found
    exact ⟨alive, fun inside => old (fewer q inside), opened⟩
  · intro q alive
    rcases kept.place q alive with this | inside | elsewhere
    · cases this
    · rw [new, List.mem_cons] at inside
      rcases inside with rfl | inside
      · exact .inl rfl
      · exact .inr (.inl inside)
    · exact .inr (.inr elsewhere)

theorem Kept.addNew {new : List Nat} (kept : Kept none b) (calls : Nat → Outcomes)
    (queue : b.sessionNew = new) (served : ∀ i, (calls i).memory.read ∧ (calls i).closes) :
    Kept none (AdNetBase.addNew calls new b) ∧ (AdNetBase.addNew calls new b).sessionNew = [] := by
  induction new generalizing b calls with
  | nil => exact ⟨kept, queue⟩
  | cons p rest ih =>
    obtain ⟨adds, added, -, left⟩ := (kept.takeNew queue).addSession (served 0).2
    have success := adds (served 0).1
    have next := ih (added success) (later calls) left fun i => served (i + 1)
    simp only [AdNetBase.addNew]
    rw [if_neg (not_not.mpr success)]
    exact next

/-- An open session in use is registered once no new ones wait. -/
theorem Kept.registered (kept : Kept none b) (none : b.sessionNew = []) (alive : b.lives.alive p)
    (ok : (b.session p).adSessionOk) : b.sessionRead[(b.session p).iSocket]? = some p := by
  simp only [AdSession.adSessionOk, decide_eq_true_eq] at ok
  rcases kept.place p alive with this | new | found | closed
  · cases this
  · simp [none] at new
  · exact found
  · exact absurd (ok.2.trans (kept.close p closed).2) ok.1

theorem Kept.controlSession (kept : Kept none b) (new : b.sessionNew = [])
    (alive : b.lives.alive p) (closes : outcomes.closes) :
    Kept none (b.controlSession outcomes p) ∧
      (b.controlSession outcomes p).sessionNew = [] ∧
      (b.controlSession outcomes p).msgControl = b.msgControl := by
  unfold AdNetBase.controlSession
  rw [touch_alive alive]
  simp only
  split
  · have beside := closeSession_beside outcomes alive
    exact ⟨kept.closeSession alive (by simp) (by simp [new]) closes,
      beside.sessionNew.trans new, beside.msgControl⟩
  · next ok =>
    split
    · refine ⟨{ kept with atHand := by simp, write := ?_ }, new, rfl⟩
      intro s q found
      by_cases this : (b.session p).iSocket = s
      · subst this
        rw [TreeMap.getElem?_insert_self] at found
        obtain rfl := Option.some.inj found
        exact kept.registered new alive (by simpa using ok)
      · rw [getElem?_insert_ne this] at found
        exact kept.write s q found
    · exact ⟨kept, new, rfl⟩

theorem getTimeout_fields (s : AdSession) :
    s.adSessionGetTimeout.2.iSocket = s.iSocket ∧
      s.adSessionGetTimeout.2.tcpSocket = s.tcpSocket ∧
      s.adSessionGetTimeout.2.uiActive = s.uiActive := by
  unfold AdSession.adSessionGetTimeout
  split <;> simp

theorem Kept.controlTimeout (kept : Kept hand b) (outcomes : Outcomes) (p : Nat) :
    Kept hand (b.controlTimeout outcomes p).2 ∧
      (b.controlTimeout outcomes p).2.sessionNew = b.sessionNew ∧
      (b.controlTimeout outcomes p).2.msgControl = b.msgControl := by
  obtain ⟨socket, tcp, active⟩ := getTimeout_fields (b.session p)
  have set : Kept hand (b.setSession p (b.session p).adSessionGetTimeout.2) := by
    refine kept.setSession (fun _ _ => socket) ?_ ?_
    · intro closed
      rw [tcp]
      exact (kept.close p closed).2
    · intro some
      rw [active] at some
      exact kept.counted p some
  unfold AdNetBase.controlTimeout
  simp only
  split
  · exact ⟨set.event, rfl, rfl⟩
  · exact ⟨set, rfl, rfl⟩

theorem Kept.controlMsg {messages : List Nat} (kept : Kept none b) (calls : Nat → Outcomes)
    (new : b.sessionNew = []) (queue : b.msgControl = messages)
    (closes : ∀ i, (calls i).closes) :
    Kept none (AdNetBase.controlMsg calls messages b).2 ∧
      ((AdNetBase.controlMsg calls messages b).1 = adSuccess →
        (AdNetBase.controlMsg calls messages b).2.msgControl = []) := by
  induction messages generalizing b calls with
  | nil => exact ⟨kept, fun _ => queue⟩
  | cons p rest ih =>
    have alive := kept.messages p (by simp [queue])
    have fewer : Kept none { b with msgControl := rest } :=
      { kept with
        atHand := by simp
        messages := fun q inside => kept.messages q (by simp [queue, inside]) }
    obtain ⟨first, noNew, left⟩ := fewer.controlSession new alive (closes 0)
    obtain ⟨second, sameNew, same⟩ := first.controlTimeout (calls 0) p
    have next := ih second (later calls) (sameNew.trans noNew) (same.trans left)
      fun i => closes (i + 1)
    simp only [AdNetBase.controlMsg]
    split
    · exact ⟨second, fun success => absurd success failure_ne⟩
    · exact next

theorem Kept.activateSession (kept : Kept hand b) (outcomes : Outcomes) (s : Int)
    (alive : b.lives.alive p) :
    Kept hand (b.activateSession outcomes p s).2 ∧
      (b.activateSession outcomes p s).2.msgControl = b.msgControl ∧
      (b.activateSession outcomes p s).2.lives = b.lives := by
  unfold AdNetBase.activateSession
  rw [touch_alive alive]
  simp only
  split
  · split
    · exact ⟨kept.event, rfl, rfl⟩
    · exact ⟨kept, rfl, rfl⟩
  · refine ⟨{ kept with
      atHand := fun p this => { kept.atHand p this with }
      write := ?_ }, rfl, rfl⟩
    intro t q found
    by_cases this : s = t
    · subst this
      simp at found
    · rw [getElem?_erase_ne this] at found
      exact kept.write t q found

theorem Kept.activateWrite {writing : List (Int × Nat)} (kept : Kept hand b)
    (calls : Nat → Outcomes) (alive : ∀ entry ∈ writing, b.lives.alive entry.2) :
    Kept hand (AdNetBase.activateWrite calls writing b).2 ∧
      (AdNetBase.activateWrite calls writing b).2.msgControl = b.msgControl := by
  induction writing generalizing b calls with
  | nil => exact ⟨kept, rfl⟩
  | cons entry rest ih =>
    obtain ⟨s, p⟩ := entry
    obtain ⟨first, same, lives⟩ :=
      kept.activateSession (calls 0) s (alive (s, p) (by simp))
    have next := ih first (later calls) fun entry inside => by
      rw [lives]
      exact alive entry (by simp [inside])
    simp only [AdNetBase.activateWrite]
    split
    · exact ⟨first, same⟩
    · exact ⟨next.1, next.2.trans same⟩

/-- A session without a socket can be closed for good when it is idle. -/
theorem close_idle (closed : session.tcpSocket = adFailure) (closes : Bool) :
    ((session.adSessionClose closes).1 = adSuccess ↔ session.uiActive = 0) ∧
      (session.adSessionClose closes).2.tcpSocket = adFailure := by
  simp only [AdSession.adSessionClose, tcpDisconnect, closed, if_true]
  by_cases idle : session.uiActive = 0
  · simp [idle]
  · simp [idle, failure_ne]

/-- A closed session is taken out of the two maps. -/
theorem Kept.takeClosed {closing : Int} (kept : Kept none b)
    (among : (closing, p) ∈ b.sessionCloseTime) :
    Kept (some p) { b with
      sessionClose := b.sessionClose.erase p
      sessionCloseTime := b.sessionCloseTime.erase (closing, p) } := by
  have closed : p ∈ b.sessionClose := (kept.same p).mpr (List.mem_map_of_mem among)
  have parts := (List.perm_cons_erase among).map Prod.snd
  have once := kept.once
  rw [parts.nodup_iff, List.map_cons, List.nodup_cons] at once
  have fewer : ∀ q, q ∈ b.sessionClose.erase p → q ∈ b.sessionClose :=
    fun q inside => (mem_erase_close.mp inside).2
  refine { kept with
    atHand := ?_, read := ?_, new := ?_, close := fun q inside => kept.close q (fewer q inside)
    same := ?_, once := once.2
    closing := fun entry inside => kept.closing entry (List.mem_of_mem_erase inside), place := ?_ }
  · intro q this
    obtain rfl := Option.some.inj this
    exact
      { alive := (kept.close p closed).1
        read := fun s found => (kept.read s p found).2.2 closed
        new := fun inside => (kept.new p inside).2 closed
        close := fun inside => (mem_erase_close.mp inside).1 rfl }
  · intro s q found
    obtain ⟨alive, old, opened⟩ := kept.read s q found
    exact ⟨alive, old, fun inside => opened (fewer q inside)⟩
  · intro q inside
    obtain ⟨alive, opened⟩ := kept.new q inside
    exact ⟨alive, fun inside => opened (fewer q inside)⟩
  · intro q
    rw [mem_erase_close, kept.same q, parts.mem_iff, List.map_cons, List.mem_cons]
    constructor
    · rintro ⟨other, this | inside⟩
      · exact absurd this other
      · exact inside
    · intro inside
      refine ⟨?_, .inr inside⟩
      rintro rfl
      exact once.1 inside
  · intro q alive
    rcases kept.place q alive with this | new | found | inside
    · cases this
    · exact .inr (.inl new)
    · exact .inr (.inr (.inl found))
    · by_cases this : q = p
      · exact .inl (congrArg some this.symm)
      · exact .inr (.inr (.inr (mem_erase_close.mpr ⟨this, inside⟩)))

theorem Kept.sweepSession {closing : Int} (kept : Kept none b) (outcomes : Outcomes)
    (drained : b.msgControl = [])
    (among : (closing, p) ∈ b.sessionCloseTime) (late : closing + 1 < b.time) :
    Kept none (b.sweepSession outcomes p closing) ∧
      (b.sweepSession outcomes p closing).msgControl = [] ∧
      (b.sweepSession outcomes p closing).time = b.time ∧
      ∀ entry ∈ b.sessionCloseTime, entry ≠ (closing, p) →
        entry ∈ (b.sweepSession outcomes p closing).sessionCloseTime := by
  have closed : p ∈ b.sessionClose := (kept.same p).mpr (List.mem_map_of_mem among)
  obtain ⟨alive, tcp⟩ := kept.close p closed
  obtain ⟨idle, still⟩ := close_idle tcp outcomes.closes
  have active := close_uiActive (b.session p) outcomes.closes
  have set : Kept none (b.setSession p ((b.session p).adSessionClose outcomes.closes).2) := by
    refine kept.setSession (fun _ _ => close_iSocket ..) (fun _ => still) ?_
    exact fun _ => alive
  unfold AdNetBase.sweepSession
  rw [touch_alive alive]
  simp only
  split
  · next done =>
    have hand := set.takeClosed among
    refine ⟨hand.deleteSession ?_ ?_ ?_, drained, rfl, ?_⟩
    · simp only [AdNetBase.setSession, Function.update_self]
      rw [active]
      exact idle.mp done
    · simp [AdNetBase.setSession, drained]
    · exact fun _ => ⟨closing, kept.closing _ among, late⟩
    · exact fun entry inside other => (List.mem_erase_of_ne other).mpr inside
  · exact ⟨set, drained, rfl, fun entry inside _ => inside⟩

theorem Kept.sweep {calls : Nat → Outcomes} {waiting : List (Int × Nat)} (kept : Kept none b)
    (drained : b.msgControl = []) (among : ∀ entry ∈ waiting, entry ∈ b.sessionCloseTime)
    (once : waiting.Nodup) : Kept none (AdNetBase.sweep calls waiting b) := by
  induction waiting generalizing b calls with
  | nil => exact kept
  | cons entry rest ih =>
    obtain ⟨closing, p⟩ := entry
    simp only [AdNetBase.sweep]
    split
    · next late =>
      obtain ⟨first, none, -, left⟩ := kept.sweepSession (calls 0) drained
        (among (closing, p) (by simp)) late
      rw [List.nodup_cons] at once
      refine ih first none ?_ once.2
      intro entry inside
      refine left entry (among entry (by simp [inside])) ?_
      rintro rfl
      exact once.1 inside
    · exact kept

/-- The sessions that write are in use. -/
theorem Kept.writing (kept : Kept hand b) :
    ∀ entry ∈ b.sessionWrite.toList, b.lives.alive entry.2 := by
  rintro ⟨s, p⟩ inside
  have found := TreeMap.mem_toList_iff_getElem?_eq_some.mp inside
  exact (kept.read s p (kept.write s p found)).1

/-- A turn of the loop keeps the books. -/
theorem Kept.loop {turn : Turn} (kept : Kept none b) (served : Turn.Served turn) :
    Kept none (b.adNetBaseLoop turn).2 := by
  obtain ⟨added, new⟩ := (kept.time turn.clock).addNew turn.new rfl served.1
  obtain ⟨controlled, drained⟩ := added.controlMsg turn.control new rfl served.2
  unfold AdNetBase.adNetBaseLoop
  simp only
  split
  · exact controlled
  next done =>
  have done := not_not.mp done
  obtain ⟨activated, same⟩ := controlled.activateWrite turn.write controlled.writing
  split
  · exact activated
  · refine activated.sweep (same.trans (drained done)) (fun entry inside => inside) ?_
    exact List.Nodup.of_map Prod.snd activated.once

/-- The session at hand may get another socket. -/
theorem Kept.init (kept : Kept (some p) b) (session : AdSession) :
    Kept (some p) (b.setSession p session) := by
  have atHand := kept.atHand p rfl
  refine kept.setSession ?_ ?_ ?_
  · exact fun s found => absurd found (atHand.read s)
  · exact fun closed => absurd closed atHand.close
  · exact fun _ => atHand.alive

theorem Fresh.init (fresh : Fresh p b) (same : session.uiActive = (b.session p).uiActive) :
    Fresh p (b.setSession p session) where
  active := by
    simp only [AdNetBase.setSession, Function.update_self]
    rw [same, fresh.active]
  messages := fresh.messages
  registered := fresh.registered

theorem init_active (s : AdSession) (accepted : Int) (nonBlock : Bool) :
    (s.adSessionInit accepted nonBlock).2.uiActive = s.uiActive := by
  unfold AdSession.adSessionInit
  simp only
  split
  · rfl
  · split <;> rfl

theorem Kept.acceptAll {attempts : List Attempt} {result : Int × AdNetBase} (kept : Kept none b)
    (closes : ∀ attempt ∈ attempts, attempt.outcomes.closes)
    (accepted : AdNetBase.acceptAll attempts b = some result) : Kept none result.2 := by
  induction attempts generalizing b with
  | nil => cases accepted
  | cons attempt rest ih =>
    unfold AdNetBase.acceptAll at accepted
    cases made : b.adNetBaseNewSession attempt.fresh with
    | none => simp [made] at accepted
    | some outcome =>
      obtain ⟨found, c⟩ := outcome
      simp only [made] at accepted
      cases found with
      | none =>
        simp only at accepted
        obtain rfl := Option.some.inj accepted
        rw [newSession_none made]
        exact kept
      | some p =>
        obtain ⟨hand, fresh⟩ := kept.newSession made
        have same := init_active (c.session p) attempt.accepted attempt.nonBlock
        have hand := hand.init ((c.session p).adSessionInit attempt.accepted attempt.nonBlock).2
        have fresh := fresh.init same
        obtain ⟨-, added, failed, -⟩ := hand.addSession (closes attempt (by simp))
        simp only at accepted
        split at accepted
        · split at accepted
          · next failure =>
            obtain rfl := Option.some.inj accepted
            obtain ⟨still, stillFresh⟩ := failed failure
            exact still.deleteFresh (stillFresh fresh)
          · next success =>
            refine ih (added (not_not.mp success)) ?_ accepted
            exact fun attempt inside => closes attempt (by simp [inside])
        · obtain rfl := Option.some.inj accepted
          exact hand.deleteFresh fresh

theorem Kept.pushMsg (kept : Kept hand b) (alive : b.lives.alive p) :
    Kept hand (b.adNetBasePushMsg p) := by
  unfold AdNetBase.adNetBasePushMsg
  rw [touch_alive alive]
  refine kept.setSession (fun _ _ => rfl) ?_ (fun _ => alive)
  exact fun closed => (kept.close p closed).2

theorem Kept.handleSession {iMsgType : UInt32} (kept : Kept none b)
    (found : b.sessionRead[s]? = some p) (closes : outcomes.closes) :
    Kept none (b.handleSession s outcomes p iMsgType) := by
  obtain ⟨alive, new, -⟩ := kept.read s p found
  have closed := kept.closeSession alive (by simp) new closes
  have same := (closeSession_beside outcomes alive).alive
  unfold AdNetBase.handleSession
  simp only
  split
  · exact kept.pushMsg alive
  split
  · exact (kept.pushMsg alive).event
  split
  · refine closed.pushMsg ?_
    rw [same]
    exact alive
  · exact closed

theorem initClient_active (s : AdSession) (closes : Bool) (sock : Int) (connects nonBlock : Bool) :
    (s.adSessionInitClient closes sock connects nonBlock).2.uiActive = s.uiActive := by
  unfold AdSession.adSessionInitClient
  split
  · exact init_active ..
  · split
    · rfl
    · exact init_active ..

/-- The session at hand waits to be added. -/
theorem Kept.enqueue (kept : Kept (some p) b) :
    Kept none { b with sessionNew := b.sessionNew ++ [p] } := by
  have atHand := kept.atHand p rfl
  refine { kept with
    atHand := by simp
    read := ?_, new := ?_, newOnce := ?_, place := ?_ }
  · intro s q found
    obtain ⟨alive, old, opened⟩ := kept.read s q found
    refine ⟨alive, ?_, opened⟩
    rw [List.mem_append, List.mem_singleton]
    rintro (inside | rfl)
    · exact old inside
    · exact atHand.read s found
  · intro q inside
    rcases List.mem_append.mp inside with before | this
    · exact kept.new q before
    · rw [List.mem_singleton.mp this]
      exact ⟨atHand.alive, atHand.close⟩
  · rw [List.nodup_append]
    refine ⟨kept.newOnce, List.nodup_singleton p, ?_⟩
    rintro q inside r this rfl
    exact atHand.new (List.mem_singleton.mp this ▸ inside)
  · intro q alive
    rcases kept.place q alive with this | inside | elsewhere
    · obtain rfl := Option.some.inj this
      exact .inr (.inl (by simp))
    · exact .inr (.inl (by simp [inside]))
    · exact .inr (.inr elsewhere)

theorem Kept.newClient {fresh : Option Nat} {sock : Int} {connects nonBlock closes : Bool}
    {after : AdNetBase} (kept : Kept none b)
    (made : b.newClient fresh sock connects nonBlock closes = some after) : Kept none after := by
  unfold AdNetBase.newClient at made
  cases begun : b.adNetBaseNewSession fresh with
  | none => simp [begun] at made
  | some outcome =>
    obtain ⟨found, c⟩ := outcome
    simp only [begun] at made
    cases found with
    | none =>
      simp only at made
      obtain rfl := Option.some.inj made
      rw [newSession_none begun]
      exact kept
    | some p =>
      obtain ⟨hand, fresh⟩ := kept.newSession begun
      have hand :=
        hand.init ((c.session p).adSessionInitClient closes sock connects nonBlock).2
      have fresh := fresh.init (initClient_active (c.session p) closes sock connects nonBlock)
      simp only at made
      split at made
      · obtain rfl := Option.some.inj made
        exact hand.deleteFresh fresh
      · obtain ⟨queue, pushed, rfl⟩ := Option.map_eq_some_iff.mp made
        obtain rfl : _ = queue := by
          simp only [tryPush, Option.ite_none_right_eq_some, Option.some.injEq] at pushed
          exact pushed.2
        exact hand.enqueue

/-- A task leaves the socket, the count and a closed session as they are. -/
structure Tended (s after : AdSession) : Prop where
  iSocket : after.iSocket = s.iSocket
  active : after.uiActive = s.uiActive
  closed : s.tcpSocket = adFailure → after.tcpSocket = adFailure

theorem close_tended (s : AdSession) (closes : Bool) : Tended s (s.adSessionClose closes).2 where
  iSocket := close_iSocket ..
  active := close_uiActive ..
  closed := fun closed => (close_idle closed closes).2

theorem tended_outcome (s : AdSession) (call : SessionCall) :
    Tended s (call.outcome s).session := by
  cases call with
  | read interface caches failed closes =>
    simp only [SessionCall.outcome, AdSession.adSessionRead]
    split
    · exact { close_tended { s with reading := _ } closes with }
    · exact ⟨rfl, rfl, id⟩
  | write pbuff kernel closes =>
    simp only [SessionCall.outcome, AdSession.adSessionWrite]
    split
    · exact ⟨rfl, rfl, id⟩
    split
    · exact close_tended s closes
    split
    · exact ⟨rfl, rfl, id⟩
    · exact ⟨rfl, rfl, id⟩
  | writeDelayed kernel closes unset =>
    simp only [SessionCall.outcome, AdSession.adSessionWriteDelayed]
    split
    · exact { close_tended { s with ltSendCache := _ } closes with }
    · exact ⟨rfl, rfl, id⟩
  | setTimeout iMs =>
    simp only [SessionCall.outcome, AdSession.adSessionSetTimeout]
    split <;> exact ⟨rfl, rfl, id⟩
  | close closes => exact close_tended s closes

theorem Kept.tend (kept : Kept none b) (tended : Tended (b.session p) session) :
    Kept none (b.setSession p session) := by
  refine kept.setSession (fun _ _ => tended.iSocket) ?_ ?_
  · exact fun closed => tended.closed (kept.close p closed).2
  · intro some
    rw [tended.active] at some
    exact kept.counted p some

theorem Kept.sessionCall {call : SessionCall} {after : AdNetBase} (kept : Kept none b)
    (alive : b.lives.alive p) (called : b.sessionCall p call = some after) : Kept none after := by
  have tended := kept.tend (tended_outcome (b.session p) call)
  unfold AdNetBase.sessionCall at called
  simp only at called
  split at called
  · obtain ⟨queue, pushed, rfl⟩ := Option.map_eq_some_iff.mp called
    refine { tended with atHand := by simp, messages := ?_ }
    intro q inside
    simp only [tryPush, Option.ite_none_right_eq_some, Option.some.injEq] at pushed
    rw [← pushed.2] at inside
    rcases List.mem_append.mp inside with before | this
    · exact tended.messages q before
    · rw [List.mem_singleton.mp this]
      exact alive
  · obtain rfl := Option.some.inj called
    exact tended

theorem Kept.step {event : NetEvent} {after : AdNetBase} (kept : Kept none b)
    (served : Served event) (stepped : step event b = some after) : Kept none after := by
  unfold ClosedSessions.step at stepped
  split at stepped
  · next allowed =>
    cases event with
    | message iSocket iMsgType attempts outcomes turn =>
      obtain ⟨result, handled, rfl⟩ := Option.map_eq_some_iff.mp stepped
      obtain ⟨accepts, closes, turns⟩ := served
      unfold AdNetBase.adEventHandleMsg at handled
      split at handled
      · exact kept.acceptAll accepts handled
      · cases found : b.sessionRead[iSocket]? with
        | none =>
          simp only [found] at handled
          obtain rfl := Option.some.inj handled
          exact kept.event
        | some p =>
          simp only [found] at handled
          obtain rfl := Option.some.inj handled
          exact (kept.handleSession found closes).loop turns
    | newClient fresh sock connects nonBlock closes => exact kept.newClient stepped
    | loop turn =>
      obtain rfl := Option.some.inj stepped
      exact kept.loop served
    | session p call =>
      have some : (b.session p).uiActive ≠ 0 := by simpa [Allowed] using allowed
      exact kept.sessionCall (kept.counted p some) stepped
    | active p =>
      obtain rfl := Option.some.inj stepped
      refine kept.setSession (fun _ _ => rfl) ?_ (fun _ => allowed)
      exact fun closed => (kept.close p closed).2
    | idle p =>
      obtain rfl := Option.some.inj stepped
      have some : (b.session p).uiActive ≠ 0 := by simpa [Allowed] using allowed
      have same : (b.session p).adSessionIdle.iSocket = (b.session p).iSocket ∧
          (b.session p).adSessionIdle.tcpSocket = (b.session p).tcpSocket := by
        unfold AdSession.adSessionIdle
        split <;> exact ⟨rfl, rfl⟩
      refine kept.setSession (fun _ _ => same.1) ?_ (fun _ => kept.counted p some)
      intro closed
      rw [same.2]
      exact (kept.close p closed).2
  · cases stepped

/-- Where closed sockets close and new sessions find memory, the books are right in every state of
every run, and each session is given back as it should be. -/
theorem sessions_settled (memory : EventMemory) (iServer : Int) (events : List NetEvent)
    (served : ∀ event ∈ events, Served event) :
    ∀ b ∈ StepRuns.states step (serving memory iServer) events, Settled b := by
  have met : StepRuns.Throughout step (fun event _ => Served event) (serving memory iServer)
      events := StepRuns.throughout_inputs _ served
  intro b reached
  exact (StepRuns.states_keep_throughout (fun _ _ _ kept served stepped =>
    Kept.step kept served stepped) (kept_serving memory) met b reached).settled

/-- A connection on socket 5 and no other one. -/
def connection : NetEvent :=
  .message 3 adEventRead [{ fresh := some 1, accepted := 5 }, { fresh := some 2, accepted := -1 }]
    {} { clock := 10 }

/-- It is closed by an error, handled for the last time, and swept. -/
def visit : List NetEvent :=
  [connection, .message 5 adEventError [] {} { clock := 10 }, .idle 1, .loop { clock := 12 }]

def afterVisit : AdNetBase := (visit.foldlM (fun b event => step event b) (serving {} 3)).getD {}

theorem visit_served : ∀ event ∈ visit, Served event := by
  simp [visit, connection, Served, Turn.Served]

theorem afterVisit_settled : Settled afterVisit :=
  sessions_settled {} 3 visit visit_served afterVisit
    (.tail _ (.tail _ (.tail _ (.tail _ (.head _)))))

/-- The session that finds no connection is given back without having been closed. -/
theorem unclosed_givenBack :
    ¬ ∀ events, ∀ b ∈ StepRuns.states step (serving {} 3) events, Delayed b := by
  intro all
  have delayed := all
    [.message 3 adEventRead [{ fresh := some 1, accepted := -1 }] {} { clock := 10 }]
    _ (.tail _ (.head _))
  obtain ⟨closing, closed, -⟩ := delayed.late _ (.head _)
  cases closed

end ClosedSessions
