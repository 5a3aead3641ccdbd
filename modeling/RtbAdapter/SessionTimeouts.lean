import RtbAdapter.NetBase

/-!
# Time outs and the interest in writing

The time out of a session stands in the event table beside the interest in its socket.
Where the loop or a write event changes the interest the time out is lost, and
everything else leaves it. So it stays as long as no write event comes and
the loop has no reason to ask for one.
-/

namespace SessionTimeouts

open ByteWords EventTable InverseMaps NetBase NetSession RingBuffer Std
open NetProtocol (adSuccess adFailure)

/-- The event table waits for data on a socket with a time out. -/
structure Armed (k : Int) (t : UInt32) (e : AdEvent) : Prop where
  timeout : e.timeout[k]? = some t
  read : ∃ event, e.read[k]? = some event ∧ event.armed = timeArgument t

/-- A session that is registered for its socket, with its last time out in force. -/
structure Watched (p : Nat) (k : Int) (t : UInt32) (b : AdNetBase) : Prop where
  registered : b.sessionRead[k]? = some p
  only : ∀ s : Int, b.sessionRead[s]? = some p → s = k
  socket : (b.session p).iSocket = k
  closing : ∀ entry ∈ b.sessionCloseTime, entry.2 ≠ p
  processed : (b.session p).bTimeoutChange = false
  armed : Armed k t b.event

/-- Writes to sessions, their delayed writes, write events, and turns of the loop. -/
inductive Later where
  | write (pSession : Nat) (pbuff : Bytes) (kernel : KernelWrite) (closes : Bool)
  | writeDelayed (pSession : Nat) (kernel : Nat → KernelWrite) (closes : Bool) (unset : Int)
  | writeEvent (iSocket : Int) (outcomes : Outcomes) (turn : Turn)
  | loop (turn : Turn)

def Later.event : Later → NetEvent
  | .write pSession pbuff kernel closes => .session pSession (.write pbuff kernel closes)
  | .writeDelayed pSession kernel closes unset =>
    .session pSession (.writeDelayed kernel closes unset)
  | .writeEvent iSocket outcomes turn => .message iSocket adEventWrite [] outcomes turn
  | .loop turn => .loop turn

/-- The session is open, and no new session waits to take its place. -/
def staysOpen (p : Nat) (k : Int) (b : AdNetBase) : Bool :=
  (b.session p).adSessionOk && b.sessionNew.all fun q => (b.session q).iSocket ≠ k

/-- The session is watched until it is closed. -/
def step (p : Nat) (k : Int) (later : Later) (b : AdNetBase) : Option AdNetBase :=
  if staysOpen p k b then NetBase.step later.event b else none

/-- A turn finds nothing to write for the socket, or the interest in writing there already, and no
other session with its number has a time out on the way. -/
structure QuietTurn (k : Int) (b : AdNetBase) : Prop where
  write : ∀ q, b.sessionWrite[k]? = some q ∨ q ∈ b.msgControl ∧ (b.session q).iSocket = k →
    (b.session q).ltSendCache ≠ [] → b.event.adEventState k = adEventRead ||| adEventWrite
  timeout : ∀ q ∈ b.msgControl, (b.session q).iSocket = k → (b.session q).bTimeoutChange →
    (b.session q).iTimeout < 0

/-- No write event comes for the socket, and every turn is quiet. -/
def Quiet (k : Int) : Later → AdNetBase → Prop
  | .write .., _ | .writeDelayed .., _ => True
  | .writeEvent iSocket _ _, b => iSocket ≠ k ∧ (iSocket ∈ b.sessionRead → QuietTurn k b)
  | .loop _, b => QuietTurn k b

/-- A session during a turn: it may lose its queue, and its message about a time out. -/
structure Quieter (s s' : AdSession) : Prop where
  iSocket : s'.iSocket = s.iSocket
  queue : s'.ltSendCache = s.ltSendCache ∨ s'.ltSendCache = []
  change : s'.bTimeoutChange → s.bTimeoutChange ∧ s'.iTimeout = s.iTimeout

/-- From the beginning of a turn on nothing changes at the socket, nor the session. -/
structure Turning (p : Nat) (k : Int) (b c : AdNetBase) : Prop where
  read : c.event.read[k]? = b.event.read[k]?
  state : c.event.state[k]? = b.event.state[k]?
  timeout : c.event.timeout[k]? = b.event.timeout[k]?
  registered : c.sessionRead[k]? = some p
  only : ∀ s : Int, c.sessionRead[s]? = some p → s = k
  session : c.session p = b.session p
  sessions : ∀ q, Quieter (b.session q) (c.session q)
  closing : ∀ entry ∈ c.sessionCloseTime, entry.2 ≠ p
  write : ∀ q, c.sessionWrite[k]? = some q →
    b.sessionWrite[k]? = some q ∨ q ∈ b.msgControl ∧ (b.session q).iSocket = k
  new : ∀ q ∈ c.sessionNew, q ∈ b.sessionNew
  messages : ∀ q ∈ c.msgControl, q ∈ b.msgControl

variable {p q : Nat} {k s : Int} {t : UInt32} {b c : AdNetBase} {outcomes : Outcomes}
  {session : AdSession}

theorem quieter_refl (s : AdSession) : Quieter s s := ⟨rfl, .inl rfl, fun change => ⟨change, rfl⟩⟩

theorem Quieter.trans {s s' s'' : AdSession} (one : Quieter s s') (two : Quieter s' s'') :
    Quieter s s'' where
  iSocket := two.iSocket.trans one.iSocket
  queue := by
    rcases two.queue with same | none
    · rw [same]
      exact one.queue
    · exact .inr none
  change := by
    intro change
    obtain ⟨before, same⟩ := two.change change
    exact ⟨(one.change before).1, same.trans (one.change before).2⟩

theorem close_quieter (s : AdSession) (closes : Bool) : Quieter s (s.adSessionClose closes).2 := by
  simp only [AdSession.adSessionClose]
  split
  · exact ⟨rfl, .inr rfl, fun change => ⟨change, rfl⟩⟩
  · exact ⟨rfl, .inr rfl, fun change => by cases change⟩

theorem getTimeout_quieter (s : AdSession) : Quieter s s.adSessionGetTimeout.2 := by
  unfold AdSession.adSessionGetTimeout
  split
  · exact ⟨rfl, .inl rfl, fun change => by cases change⟩
  · exact quieter_refl s

theorem turning_refl (watched : Watched p k t b) : Turning p k b b where
  read := rfl
  state := rfl
  timeout := rfl
  registered := watched.registered
  only := watched.only
  session := rfl
  sessions _ := quieter_refl _
  closing := watched.closing
  write _ := .inl
  new _ := id
  messages _ := id

theorem Turning.watched (turning : Turning p k b c) (watched : Watched p k t b) :
    Watched p k t c where
  registered := turning.registered
  only := turning.only
  socket := by
    rw [turning.session]
    exact watched.socket
  closing := turning.closing
  processed := by
    rw [turning.session]
    exact watched.processed
  armed := by
    constructor
    · rw [turning.timeout]
      exact watched.armed.timeout
    · rw [turning.read]
      exact watched.armed.read

theorem Turning.adEventState (turning : Turning p k b c) :
    c.event.adEventState k = b.event.adEventState k := by
  rw [AdEvent.adEventState, turning.state]
  rfl

/-- The events of other sockets. -/
theorem Turning.event {event : AdEvent} (turning : Turning p k b c)
    (other : Elsewhere s c.event event) (away : s ≠ k) : Turning p k b { c with event } :=
  { turning with
    read := (other.read k away.symm).trans turning.read
    state := (other.state k away.symm).trans turning.state
    timeout := (other.timeout k away.symm).trans turning.timeout }

theorem Turning.lives {lives : Lives} (turning : Turning p k b c) :
    Turning p k b { c with lives } := { turning with }

theorem Turning.touch (turning : Turning p k b c) : Turning p k b (c.touch q) := by
  unfold AdNetBase.touch
  split
  · exact turning
  · exact turning.lives

theorem Turning.setSession (turning : Turning p k b c) (apart : q ≠ p)
    (quieter : Quieter (c.session q) session) : Turning p k b (c.setSession q session) := by
  refine { turning with session := ?_, sessions := ?_ }
  · exact (Function.update_of_ne apart.symm ..).trans turning.session
  · intro r
    by_cases this : r = q
    · subst this
      simp only [AdNetBase.setSession, Function.update_self]
      exact (turning.sessions r).trans quieter
    · simp only [AdNetBase.setSession]
      rw [Function.update_of_ne this]
      exact turning.sessions r

/-- Another session is not registered for the socket. -/
theorem Turning.unregister (turning : Turning p k b c) (apart : q ≠ p) :
    Turning p k b (c.unregister q s) := by
  unfold AdNetBase.unregister
  split
  · next found =>
    have away : s ≠ k := by
      rintro rfl
      rw [turning.registered] at found
      exact apart (Option.some.inj found).symm
    have moved := turning.event AdEvent.elsewhere_adEventDel away
    refine { moved with registered := ?_, only := ?_, write := ?_ }
    · rw [getElem?_erase_ne away]
      exact turning.registered
    · intro r found
      by_cases this : s = r
      · subst this
        simp at found
      · rw [getElem?_erase_ne this] at found
        exact turning.only r found
    · intro r found
      rw [getElem?_erase_ne away] at found
      exact turning.write r found
  · exact turning

theorem Turning.closeSession (turning : Turning p k b c) (apart : q ≠ p) :
    Turning p k b (c.adNetBaseCloseSession outcomes q) := by
  unfold AdNetBase.adNetBaseCloseSession
  simp only
  split
  · exact turning.touch
  · have gone := (turning.touch (q := q)).unregister (s := ((c.touch q).session q).iSocket) apart
    generalize (c.touch q).unregister q ((c.touch q).session q).iSocket = d at gone ⊢
    have closed := gone.setSession apart (close_quieter (d.session q) outcomes.closes)
    refine { closed with closing := ?_ }
    intro entry among
    have entered := List.perm_orderedInsert (fun p q : Int × Nat => p.1 < q.1) (d.time, q)
      d.sessionCloseTime
    rcases List.mem_cons.mp (entered.mem_iff.mp among) with rfl | before
    · exact apart
    · exact gone.closing entry before

variable (outcomes)

theorem Turning.closeOther (turning : Turning p k b c) (away : s ≠ k) :
    Turning p k b (c.closeOther outcomes q s) := by
  unfold AdNetBase.closeOther
  cases found : c.sessionRead[s]? with
  | none => exact turning
  | some other =>
    have apart : other ≠ p := by
      rintro rfl
      exact away (turning.only s found)
    simp only
    split
    · exact turning.closeSession apart
    · exact turning

/-- Another session is registered for another socket. -/
theorem Turning.addSession (turning : Turning p k b c) (apart : q ≠ p)
    (away : (c.session q).iSocket ≠ k) : Turning p k b (c.adNetBaseAddSession outcomes q).2 := by
  have same : (c.touch q).session = c.session := by
    unfold AdNetBase.touch
    split <;> rfl
  have closed := (turning.touch (q := q)).closeOther outcomes (q := q) away
  unfold AdNetBase.adNetBaseAddSession
  simp only [same]
  generalize (c.touch q).closeOther outcomes q (c.session q).iSocket = d at closed ⊢
  have added := closed.event
    (AdEvent.elsewhere_adEventAdd (e := d.event) outcomes.memory adEventRead 0) away
  split
  · exact added
  · refine { added with registered := ?_, only := ?_ }
    · rw [getElem?_insert_ne away]
      exact closed.registered
    · intro r found
      by_cases this : (c.session q).iSocket = r
      · subst this
        rw [TreeMap.getElem?_insert_self] at found
        exact absurd (Option.some.inj found) apart
      · rw [getElem?_insert_ne this] at found
        exact closed.only r found

theorem Turning.deleteSession (turning : Turning p k b c) :
    Turning p k b (c.adNetBaseDeleteSession q) := { turning with }

variable {outcomes}

theorem Turning.apart (turning : Turning p k b c) (socket : (b.session p).iSocket = k)
    (away : (b.session q).iSocket ≠ k) : q ≠ p := by
  rintro rfl
  exact away socket

theorem Turning.addNew {new : List Nat} (turning : Turning p k b c)
    (socket : (b.session p).iSocket = k) (calls : Nat → Outcomes)
    (away : ∀ q ∈ b.sessionNew, (b.session q).iSocket ≠ k) (among : ∀ q ∈ new, q ∈ b.sessionNew) :
    Turning p k b (AdNetBase.addNew calls new c) := by
  induction new generalizing c calls with
  | nil => exact turning
  | cons q rest ih =>
    have here := away q (among q (by simp))
    have apart := turning.apart socket here
    have others := fun q inside => among q (List.mem_cons_of_mem _ inside)
    have taken : Turning p k b { c with sessionNew := rest } := { turning with new := others }
    have added := taken.addSession (calls 0) apart (by
      rw [(turning.sessions q).iSocket]
      exact here)
    simp only [AdNetBase.addNew]
    split
    · exact ih added.deleteSession (later calls) others
    · exact ih added (later calls) others

variable (outcomes) in
/-- A control message of the session itself finds it open. -/
theorem Turning.controlSession (turning : Turning p k b c) (watched : Watched p k t b)
    (ok : (b.session p).adSessionOk) (among : q ∈ b.msgControl) :
    Turning p k b (c.controlSession outcomes q) := by
  have touched := turning.touch (q := q)
  unfold AdNetBase.controlSession
  simp only
  generalize c.touch q = d at touched ⊢
  split
  · next notOk =>
    apply touched.closeSession
    rintro rfl
    rw [touched.session, ok] at notOk
    cases notOk
  · split
    · refine { touched with write := ?_ }
      intro r found
      by_cases this : (d.session q).iSocket = k
      · rw [this, TreeMap.getElem?_insert_self] at found
        obtain rfl := Option.some.inj found
        rw [(touched.sessions q).iSocket] at this
        exact .inr ⟨among, this⟩
      · rw [getElem?_insert_ne this] at found
        exact touched.write r found
    · exact touched

variable (outcomes) in
theorem Turning.controlTimeout (turning : Turning p k b c) (watched : Watched p k t b)
    (quiet : QuietTurn k b) (among : q ∈ b.msgControl) :
    Turning p k b (c.controlTimeout outcomes q).2 := by
  have set : Turning p k b (c.setSession q (c.session q).adSessionGetTimeout.2) := by
    by_cases this : q = p
    · subst this
      have none : (c.session q).adSessionGetTimeout.2 = c.session q := by
        rw [turning.session, AdSession.adSessionGetTimeout, watched.processed]
        rfl
      rw [none, AdNetBase.setSession, Function.update_eq_self]
      exact turning
    · exact turning.setSession this (getTimeout_quieter _)
  unfold AdNetBase.controlTimeout
  simp only
  split
  · next pending =>
    refine set.event (AdEvent.elsewhere_adEventModify _ _ _) ?_
    rw [(getTimeout_quieter _).iSocket, (turning.sessions q).iSocket]
    intro here
    -- a time out that is not negative was on the way when the turn began
    have changed : (c.session q).bTimeoutChange := by
      by_contra unchanged
      simp [AdSession.adSessionGetTimeout, unchanged, adFailure] at pending
    obtain ⟨before, same⟩ := (turning.sessions q).change changed
    have negative := quiet.timeout q among here before
    simp only [AdSession.adSessionGetTimeout, changed, if_true] at pending
    omega
  · exact set

theorem Turning.controlMsg {messages : List Nat} (turning : Turning p k b c)
    (watched : Watched p k t b) (quiet : QuietTurn k b) (ok : (b.session p).adSessionOk)
    (calls : Nat → Outcomes) (among : ∀ q ∈ messages, q ∈ b.msgControl) :
    Turning p k b (AdNetBase.controlMsg calls messages c).2 := by
  induction messages generalizing c calls with
  | nil => exact turning
  | cons q rest ih =>
    have here := among q (by simp)
    have others := fun q inside => among q (List.mem_cons_of_mem _ inside)
    have taken : Turning p k b { c with msgControl := rest } := { turning with messages := others }
    have first := taken.controlSession (calls 0) watched ok here
    have second := first.controlTimeout (calls 0) watched quiet here
    simp only [AdNetBase.controlMsg]
    split
    · exact second
    · exact ih second (later calls) others

variable (outcomes) in
/-- What a turn asks for a session of the map leaves the socket alone. -/
theorem Turning.activateSession (turning : Turning p k b c)
    (quiet : s = k → (b.session q).ltSendCache ≠ [] →
      b.event.adEventState k = adEventRead ||| adEventWrite) :
    Turning p k b (c.activateSession outcomes q s).2 := by
  have touched := turning.touch (q := q)
  unfold AdNetBase.activateSession
  simp only
  generalize c.touch q = d at touched ⊢
  split
  · next some =>
    split
    · next notYet =>
      refine touched.event (AdEvent.elsewhere_adEventModify _ _ _) ?_
      rintro rfl
      rw [touched.adEventState] at notYet
      apply notYet
      apply quiet rfl
      intro none
      rcases (touched.sessions q).queue with same | empty
      · simp [AdSession.adSessionEmpty, same, none] at some
      · simp [AdSession.adSessionEmpty, empty] at some
    · exact touched
  · refine { touched with write := ?_ }
    intro r found
    by_cases this : s = k
    · subst this
      simp at found
    · rw [getElem?_erase_ne this] at found
      exact touched.write r found

theorem Turning.activateWrite {writing : List (Int × Nat)} (turning : Turning p k b c)
    (calls : Nat → Outcomes)
    (quiet : ∀ entry ∈ writing, entry.1 = k → (b.session entry.2).ltSendCache ≠ [] →
      b.event.adEventState k = adEventRead ||| adEventWrite) :
    Turning p k b (AdNetBase.activateWrite calls writing c).2 := by
  induction writing generalizing c calls with
  | nil => exact turning
  | cons entry rest ih =>
    obtain ⟨s, q⟩ := entry
    have first := turning.activateSession (calls 0) (quiet (s, q) (by simp))
    simp only [AdNetBase.activateWrite]
    split
    · exact first
    · exact ih first (later calls) fun entry inside => quiet entry (List.mem_cons_of_mem _ inside)

variable (outcomes) in
theorem Turning.sweepSession {closing : Int} (turning : Turning p k b c) (apart : q ≠ p) :
    Turning p k b (c.sweepSession outcomes q closing) := by
  have touched := turning.touch (q := q)
  unfold AdNetBase.sweepSession
  simp only
  generalize c.touch q = d at touched ⊢
  have closed := touched.setSession apart (close_quieter (d.session q) outcomes.closes)
  split
  · refine { closed.deleteSession (q := q) with closing := ?_ }
    exact fun entry inside => touched.closing entry (List.mem_of_mem_erase inside)
  · exact closed

theorem Turning.sweep {waiting : List (Int × Nat)} (turning : Turning p k b c)
    (calls : Nat → Outcomes) (apart : ∀ entry ∈ waiting, entry.2 ≠ p) :
    Turning p k b (AdNetBase.sweep calls waiting c) := by
  induction waiting generalizing c calls with
  | nil => exact turning
  | cons entry rest ih =>
    obtain ⟨closing, q⟩ := entry
    simp only [AdNetBase.sweep]
    split
    · exact ih (turning.sweepSession (calls 0) (apart (closing, q) (by simp))) (later calls)
        fun entry inside => apart entry (List.mem_cons_of_mem _ inside)
    · exact turning

/-- What is in the map for writing once the control messages are handled. -/
theorem Turning.writing (turning : Turning p k b c) (quiet : QuietTurn k b) :
    ∀ entry ∈ c.sessionWrite.toList, entry.1 = k → (b.session entry.2).ltSendCache ≠ [] →
      b.event.adEventState k = adEventRead ||| adEventWrite := by
  rintro ⟨s, q⟩ inside rfl some
  have found := TreeMap.mem_toList_iff_getElem?_eq_some.mp inside
  exact quiet.write q (turning.write q found) some

/-- A quiet turn leaves the socket and its session alone. -/
theorem Turning.loop (turning : Turning p k b c) (watched : Watched p k t b)
    (stays : staysOpen p k b) (quiet : QuietTurn k b) (turn : Turn) :
    Turning p k b (c.adNetBaseLoop turn).2 := by
  obtain ⟨ok, others⟩ := Bool.and_eq_true_iff.mp stays
  have away : ∀ q ∈ b.sessionNew, (b.session q).iSocket ≠ k := by simpa using others
  have begun : Turning p k b { c with time := turn.clock } := { turning with }
  have added := begun.addNew watched.socket turn.new away turning.new
  have controlled := added.controlMsg watched quiet ok turn.control added.messages
  unfold AdNetBase.adNetBaseLoop
  simp only
  split
  · exact controlled
  have activated := controlled.activateWrite turn.write (controlled.writing quiet)
  split
  · exact activated
  · exact activated.sweep turn.close activated.closing

/-- A write event of another socket, before the turn that follows it. -/
theorem Turning.writeEvent (turning : Turning p k b c) (found : c.sessionRead[s]? = some q)
    (away : s ≠ k) (outcomes : Outcomes) :
    Turning p k b (c.handleSession s outcomes q adEventWrite) := by
  have apart : q ≠ p := by
    rintro rfl
    exact away (turning.only s found)
  have notRead : ¬ (adEventWrite = adEventRead ∨ adEventWrite = adEventTimeout) := by decide
  have pushed : Turning p k b (c.adNetBasePushMsg q) := by
    have touched := turning.touch (q := q)
    have same : (c.touch q).session = c.session := by
      unfold AdNetBase.touch
      split <;> rfl
    refine touched.setSession apart ?_
    rw [same]
    exact ⟨rfl, .inl rfl, fun change => ⟨change, rfl⟩⟩
  unfold AdNetBase.handleSession
  rw [if_neg notRead, if_pos rfl]
  exact pushed.event (AdEvent.elsewhere_adEventModify _ _ _) away

/-- A session that keeps its socket and makes no new time out known. -/
structure Keeps (s s' : AdSession) : Prop where
  iSocket : s'.iSocket = s.iSocket
  processed : s.bTimeoutChange = false → s'.bTimeoutChange = false

theorem close_keeps (s : AdSession) (closes : Bool) : Keeps s (s.adSessionClose closes).2 := by
  refine ⟨close_iSocket s closes, fun processed => ?_⟩
  simp only [AdSession.adSessionClose]
  split
  · exact processed
  · rfl

theorem write_keeps (s : AdSession) (closes : Bool) (kernel : KernelWrite) (pbuff : Bytes) :
    Keeps s (s.adSessionWrite closes kernel pbuff).session := by
  simp only [AdSession.adSessionWrite]
  split
  · exact ⟨rfl, id⟩
  split
  · exact close_keeps s closes
  split
  · exact ⟨rfl, id⟩
  · exact ⟨rfl, id⟩

theorem writeDelayed_keeps (s : AdSession) (closes : Bool) (kernel : Nat → KernelWrite)
    (unset : Int) : Keeps s (s.adSessionWriteDelayed closes kernel unset).session := by
  simp only [AdSession.adSessionWriteDelayed]
  split
  · exact { close_keeps { s with ltSendCache := _ } closes with }
  · exact ⟨rfl, id⟩

/-- A write leaves the table, the maps and the time out of its session alone. -/
theorem write_watched (call : SessionCall) (watched : Watched p k t b)
    (keeps : ∀ s, Keeps s (call.outcome s).session)
    (called : b.sessionCall q call = some c) : Watched p k t c := by
  have set : Watched p k t (b.setSession q (call.outcome (b.session q)).session) := by
    refine { watched with socket := ?_, processed := ?_ }
    · by_cases this : p = q
      · subst this
        simp only [AdNetBase.setSession, Function.update_self]
        exact (keeps _).iSocket.trans watched.socket
      · simp only [AdNetBase.setSession]
        rw [Function.update_of_ne this]
        exact watched.socket
    · by_cases this : p = q
      · subst this
        simp only [AdNetBase.setSession, Function.update_self]
        exact (keeps _).processed watched.processed
      · simp only [AdNetBase.setSession]
        rw [Function.update_of_ne this]
        exact watched.processed
  unfold AdNetBase.sessionCall at called
  simp only at called
  split at called
  · obtain ⟨queue, -, rfl⟩ := Option.map_eq_some_iff.mp called
    exact { set with }
  · obtain rfl := Option.some.inj called
    exact set

theorem watched_step {l : Later} (watched : Watched p k t b) (quiet : Quiet k l b)
    (stepped : step p k l b = some c) : Watched p k t c := by
  unfold step at stepped
  split at stepped
  · next stays =>
    cases l with
    | write q pbuff kernel closes =>
      exact write_watched (.write pbuff kernel closes) watched
        (fun s => write_keeps s closes kernel pbuff) stepped
    | writeDelayed q kernel closes unset =>
      exact write_watched (.writeDelayed kernel closes unset) watched
        (fun s => writeDelayed_keeps s closes kernel unset) stepped
    | writeEvent s outcomes turn =>
      obtain ⟨away, quiet⟩ := quiet
      obtain ⟨result, handled, rfl⟩ := Option.map_eq_some_iff.mp stepped
      have notRead : ¬ (adEventWrite = adEventRead ∧ s = b.iServer) := fun both =>
        absurd both.1 (by decide)
      unfold AdNetBase.adEventHandleMsg at handled
      rw [if_neg notRead] at handled
      cases found : b.sessionRead[s]? with
      | none =>
        simp only [found] at handled
        obtain rfl := Option.some.inj handled
        exact ((turning_refl watched).event AdEvent.elsewhere_adEventDel away).watched watched
      | some q =>
        simp only [found] at handled
        obtain rfl := Option.some.inj handled
        have inside : s ∈ b.sessionRead := TreeMap.mem_iff_isSome_getElem?.mpr (by simp [found])
        have begun := (turning_refl watched).writeEvent found away outcomes
        exact (begun.loop watched stays (quiet inside) turn).watched watched
    | loop turn =>
      obtain rfl := Option.some.inj stepped
      exact ((turning_refl watched).loop watched stays quiet turn).watched watched
  · cases stepped

/-- In every later run that is quiet the time out stays in force. -/
theorem timeout_stays (p : Nat) (k : Int) (t : UInt32) (b : AdNetBase) (watched : Watched p k t b)
    (laters : List Later) (quiet : StepRuns.Throughout (step p k) (Quiet k) b laters) :
    ∀ c ∈ StepRuns.states (step p k) b laters, Armed k t c.event := by
  intro c reached
  exact (StepRuns.states_keep_throughout (fun _ _ _ watched quiet stepped =>
    watched_step watched quiet stepped) watched quiet c reached).armed

/-- A change of the interest without a time out takes the time out away, whatever memory there
is. -/
theorem modify_disarms {e : AdEvent} {memory : EventMemory} {uiFlag : UInt32}
    (armed : Armed k t e) (some : t ≠ 0) (flag : uiFlag &&& (adEventRead ||| adEventWrite) ≠ 0) :
    (e.adEventModify memory k uiFlag 0).2.timeout[k]? = none := by
  have renews : e.Renews k uiFlag 0 := by
    simp [AdEvent.Renews, armed.timeout, some]
  rcases AdEvent.adEventModify_cases (e := e) memory (s := k) uiFlag 0 with
    ⟨-, modified⟩ | ⟨not, -⟩
  · rw [modified]
    apply TreeMap.getElem?_eq_none
    rcases AdEvent.adEventAdd_cases memory uiFlag 0 AdEvent.adEventDel_at.1 with
      ⟨none, -⟩ | ⟨-, -, added⟩ | ⟨-, -, -, after, added, -, -, -, timed⟩ |
        ⟨-, -, -, after, added, -, -, -, timed⟩
    · exact absurd none flag
    · rw [added]
      simp [AdEvent.addTimeout]
    · rw [added, timed]
      decide
    · rw [added, timed]
      decide
  · exact absurd renews not

/-- A session on socket 5 that has been given a time out of three milliseconds. -/
def armedBase : AdNetBase :=
  ([.message 3 adEventRead [{ fresh := some 1, accepted := 5 }, { fresh := some 2, accepted := -1 }]
      {} { clock := 0 },
    .session 1 (.setTimeout 3), .loop { clock := 0 }].foldlM
    (fun b event => NetBase.step event b) (serving {} 3)).getD {}

theorem armedBase_watched : Watched 1 5 3 armedBase where
  registered := by decide
  only := by
    have same : armedBase.sessionRead = (∅ : TreeMap Int Nat).insert 5 1 := rfl
    intro s found
    rw [same] at found
    by_contra away
    rw [getElem?_insert_ne (Ne.symm away)] at found
    simp at found
  socket := rfl
  closing := by decide
  processed := rfl
  armed := ⟨by decide, ⟨⟨2, timeArgument 3⟩, rfl, rfl⟩⟩

/-- A message that goes out at once, and a turn of the loop. -/
def sentAtOnce : List Later := [.write 1 [97] (.took 1) true, .loop { clock := 1 }]

def afterSent : AdNetBase :=
  (sentAtOnce.foldlM (fun b later => step 1 5 later b) armedBase).getD {}

theorem sentAtOnce_quiet : StepRuns.Throughout (step 1 5) (Quiet 5) armedBase sentAtOnce := by
  intro b stepped
  obtain rfl := Option.some.inj stepped
  refine ⟨trivial, fun c _ => ⟨?_, trivial⟩⟩
  constructor
  · rintro q (found | ⟨inside, -⟩)
    · have none : armedBase.sessionWrite[(5 : Int)]? = none := rfl
      cases none.symm.trans found
    · cases inside
  · intro q inside
    cases inside

theorem afterSent_armed : Armed 5 3 afterSent.event :=
  timeout_stays 1 5 3 armedBase armedBase_watched sentAtOnce sentAtOnce_quiet afterSent
    (.tail _ (.tail _ (.head _)))

/-- A message that waits makes the loop ask for the interest in writing, without a time out. -/
theorem delayed_disarms : Watched 1 5 3 armedBase ∧
    ¬ ∀ laters, ∀ c ∈ StepRuns.states (step 1 5) armedBase laters, Armed 5 3 c.event := by
  refine ⟨armedBase_watched, fun all => ?_⟩
  have armed := all [.write 1 [97] .again true, .loop { clock := 1 }]
    _ (.tail _ (.tail _ (.head _)))
  exact absurd armed.timeout (by decide)

end SessionTimeouts
