import RtbAdapter.HeldCounts
import RtbAdapter.NetSession
import RtbAdapter.RingBuffer

/-!
# The activity counts of the sessions

The network base raises the count of a session before it queues the session for a
task, and the task lowers it when its turn is over. Beside the queues stand the
sessions that tasks are handling, and the holds that interfaces have taken and not
given back. One turn of the loop in `AdNetBasePushMsg` is one step here.
-/

namespace ActivityCounts

open HeldCounts NetSession RingBuffer
open NetProtocol (adSuccess)

def adTaskSessionMax : Nat := 1024 * 32

/-- `AD_NET_MSG_READ` and `AD_NET_MSG_WRITE` -/
inductive Side where
  | read
  | write

/-- The message queues of `AdNetBase`, and what goes on around them: the push that has not found
room yet, the sessions that worker and write tasks are handling, and the holds. -/
structure AdNetBase where
  session : Nat → AdSession := fun _ => {}
  msgRead : List (List Nat) := []
  msgWrite : List (List Nat) := []
  uiRead : Nat := 0
  uiWrite : Nat := 0
  pushing : Option (Nat × Side) := none
  reading : List Nat := []
  writing : List Nat := []
  holds : List Nat := []

/-- `AdNetBaseInit` -/
def AdNetBase.init (msgRead msgWrite : Int) : AdNetBase where
  msgRead := List.replicate (if msgRead ≤ 0 then 1 else msgRead.toNat) []
  msgWrite := List.replicate (if msgWrite ≤ 0 then 1 else msgWrite.toNat) []

/-- The next index of a vector, the first one after the last. -/
def advance (index size : Nat) : Nat := if size ≤ index + 1 then 0 else index + 1

namespace AdNetBase

variable (b : AdNetBase) (pSession : Nat)

def setSession (s : AdSession) : AdNetBase :=
  { b with session := Function.update b.session pSession s }

def active : AdNetBase := b.setSession pSession (b.session pSession).adSessionActive

def idle : AdNetBase := b.setSession pSession (b.session pSession).adSessionIdle

/-- One turn of the loop in `AdNetBasePushMsg`. The queue for writing is chosen by `m_uiRead`; an
index behind the last queue ends the process. -/
def tryPushMsg : Side → Option AdNetBase
  | .read => do
    let ring ← b.msgRead[b.uiRead]?
    let uiRead := advance b.uiRead b.msgRead.length
    match tryPush adTaskSessionMax ring pSession with
    | some ring =>
      return { b with msgRead := b.msgRead.set b.uiRead ring, uiRead, pushing := none }
    | none => return { b with uiRead }
  | .write => do
    let ring ← b.msgWrite[b.uiRead]?
    match tryPush adTaskSessionMax ring pSession with
    | some ring => return { b with msgWrite := b.msgWrite.set b.uiRead ring, pushing := none }
    | none => return { b with uiWrite := advance b.uiWrite b.msgWrite.length }

/-- The message that a task takes from its queue, if there is one, begins a turn of its loop. -/
def take (id : Nat) : Side → AdNetBase
  | .read =>
    let index := id % b.msgRead.length
    match tryPop (b.msgRead.getD index []) with
    | none => b
    | some (pSession, ring) =>
      { b with msgRead := b.msgRead.set index ring, reading := pSession :: b.reading }
  | .write =>
    let index := id % b.msgWrite.length
    match tryPop (b.msgWrite.getD index []) with
    | none => b
    | some (pSession, ring) =>
      { b with msgWrite := b.msgWrite.set index ring, writing := pSession :: b.writing }

end AdNetBase

inductive Event where
  /-- `AdNetBasePushMsg` begins -/
  | push (pSession : Nat) (uiType : Side)
  | tryPush
  | take (id : Nat) (uiType : Side)
  /-- A turn of `AdWorkerTask`, over after a failed read or after the packets -/
  | endRead (pSession : Nat)
  /-- A turn of `AdWriteTask`, which writes and is over -/
  | endWrite (pSession : Nat) (closes : Bool) (kernel : Nat → KernelWrite) (unset : Int)
  | hold (pSession : Nat)
  | giveBack (pSession : Nat)
  | close (pSession : Nat) (closes : Bool)

def step : Event → AdNetBase → Option AdNetBase
  | .push pSession uiType, b =>
    if b.pushing.isSome then none
    else some { b.active pSession with pushing := some (pSession, uiType) }
  | .tryPush, b => b.pushing.bind fun (pSession, uiType) => b.tryPushMsg pSession uiType
  | .take id uiType, b => some (b.take id uiType)
  | .endRead pSession, b =>
    if pSession ∈ b.reading then
      some { b.idle pSession with reading := b.reading.erase pSession }
    else none
  | .endWrite pSession closes kernel unset, b =>
    if pSession ∈ b.writing then
      let session := ((b.session pSession).adSessionWriteDelayed closes kernel unset).session
      some { b.setSession pSession session with writing := b.writing.erase pSession }
    else none
  | .hold pSession, b => some { b.active pSession with holds := pSession :: b.holds }
  | .giveBack pSession, b =>
    if pSession ∈ b.holds then some { b.idle pSession with holds := b.holds.erase pSession }
    else none
  | .close pSession closes, b =>
    some (b.setSession pSession ((b.session pSession).adSessionClose closes).2)

namespace AdNetBase

variable (b : AdNetBase) (pSession : Nat)

/-- The entries of a session in the queues, the one on its way to them included. -/
def entries : Nat :=
  b.msgRead.flatten.count pSession + b.msgWrite.flatten.count pSession +
    (b.pushing.toList.map Prod.fst).count pSession

/-- The turns that handle it. -/
def turns : Nat := b.reading.count pSession + b.writing.count pSession

end AdNetBase

/-- The count of a session is its entries, its turns and its holds, and without any it can be
released. -/
structure Accounted (b : AdNetBase) : Prop where
  count : ∀ pSession, (b.session pSession).uiActive.toNat =
    b.entries pSession + b.turns pSession + b.holds.count pSession
  released : ∀ pSession, b.entries pSession + b.turns pSession + b.holds.count pSession = 0 →
    ((b.session pSession).adSessionClose true).1 = adSuccess

/-- No turn of a write task is over, and no count is at its end when it is raised. -/
def StepAccounted (event : Event) (b : AdNetBase) : Prop :=
  match event with
  | .push pSession _ | .hold pSession => (b.session pSession).uiActive.toNat + 1 < 2 ^ 32
  | .endWrite .. => False
  | _ => True

namespace AdNetBase

variable (b : AdNetBase)

/-- All that the counts stand for. -/
def held : List Nat :=
  b.msgRead.flatten ++ b.msgWrite.flatten ++ b.pushing.toList.map Prod.fst ++
    (b.reading ++ b.writing) ++ b.holds

def counts (pSession : Nat) : Nat := (b.session pSession).uiActive.toNat

end AdNetBase

variable {b after : AdNetBase} {pSession : Nat}

theorem held_count : b.held.count pSession =
    b.entries pSession + b.turns pSession + b.holds.count pSession := by
  simp only [AdNetBase.held, AdNetBase.entries, AdNetBase.turns, List.count_append]

/-- A session that goes from one place to another still counts. -/
theorem held_perm (holds : after.holds = b.holds) (moved : ∀ other,
    after.entries other + after.turns other = b.entries other + b.turns other) :
    after.held.Perm b.held := by
  refine List.perm_iff_count.mpr fun other => ?_
  rw [held_count, held_count, holds, moved]

theorem close_released (s : AdSession) (none : s.uiActive.toNat = 0) :
    (s.adSessionClose true).1 = adSuccess := by
  have zero : s.uiActive = 0 := UInt32.toNat_inj.mp none
  simp only [AdSession.adSessionClose, zero, tcpDisconnect]
  split <;> rfl

theorem accounted_iff : Accounted b ↔ Balanced b.counts (fun _ => 0) b.held := by
  constructor
  · intro accounted pSession
    rw [held_count, Nat.zero_add]
    exact accounted.count pSession
  · intro balanced
    have count : ∀ pSession, (b.session pSession).uiActive.toNat =
        b.entries pSession + b.turns pSession + b.holds.count pSession := by
      intro pSession
      rw [← held_count, ← Nat.zero_add (b.held.count pSession)]
      exact balanced pSession
    exact ⟨count, fun pSession none => close_released _ ((count pSession).trans none)⟩

theorem counts_setSession (s : AdSession) (same : s.uiActive = (b.session pSession).uiActive) :
    (b.setSession pSession s).counts = b.counts := by
  funext other
  by_cases this : other = pSession
  · subst this
    simp [AdNetBase.counts, AdNetBase.setSession, same]
  · simp [AdNetBase.counts, AdNetBase.setSession, Function.update_of_ne this]

theorem counts_active (room : (b.session pSession).uiActive.toNat + 1 < 2 ^ 32) :
    (b.active pSession).counts = active b.counts pSession := by
  funext other
  by_cases this : other = pSession
  · subst this
    simpa [AdNetBase.counts, AdNetBase.active, AdNetBase.setSession, AdSession.adSessionActive,
      HeldCounts.active, UInt32.toNat_add] using room
  · simp [AdNetBase.counts, AdNetBase.active, AdNetBase.setSession, HeldCounts.active,
      Function.update_of_ne this]

/-- A count at its end starts again from zero. -/
theorem counts_active_none (full : ¬ (b.session pSession).uiActive.toNat + 1 < 2 ^ 32) :
    (b.active pSession).counts pSession = 0 := by
  have last : (b.session pSession).uiActive.toNat + 1 = 2 ^ 32 := by
    have bound := (b.session pSession).uiActive.toNat_lt
    omega
  simp [AdNetBase.counts, AdNetBase.active, AdNetBase.setSession, AdSession.adSessionActive,
    UInt32.toNat_add, last]

theorem counts_idle : (b.idle pSession).counts = idle b.counts pSession := by
  funext other
  by_cases this : other = pSession
  · subst this
    simp only [AdNetBase.counts, AdNetBase.idle, AdNetBase.setSession, AdSession.adSessionIdle,
      HeldCounts.idle, Function.update_self]
    split
    · next some =>
      have one : (1 : UInt32) ≤ (b.session other).uiActive := by
        rw [UInt32.le_iff_toNat_le]
        exact UInt32.lt_iff_toNat_lt.mp some
      exact UInt32.toNat_sub_of_le _ _ one
    · next none =>
      have zero : (b.session other).uiActive.toNat = 0 := by
        have := mt UInt32.lt_iff_toNat_lt.mpr none
        simpa using this
      simp [zero]
  · simp [AdNetBase.counts, AdNetBase.idle, AdNetBase.setSession, HeldCounts.idle,
      Function.update_of_ne this]

theorem flatten_set_count {rings : List (List Nat)} {index : Nat} {ring : List Nat}
    (there : rings[index]? = some ring) (other : List Nat) (pSession : Nat) :
    (rings.set index other).flatten.count pSession + ring.count pSession =
      rings.flatten.count pSession + other.count pSession := by
  induction rings generalizing index with
  | nil => simp at there
  | cons first rest ih =>
    cases index with
    | zero =>
      obtain rfl : first = ring := by simpa using there
      simp only [List.set_cons_zero, List.flatten_cons, List.count_append]
      omega
    | succ index =>
      have later : (rest.set index other).flatten.count pSession + ring.count pSession =
          rest.flatten.count pSession + other.count pSession := by
        apply ih
        simpa using there
      simp only [List.set_cons_succ, List.flatten_cons, List.count_append]
      omega

theorem pushed_count {rings : List (List Nat)} {index n : Nat} {ring longer : List Nat}
    (there : rings[index]? = some ring) (pushed : tryPush n ring pSession = some longer)
    (other : Nat) :
    (rings.set index longer).flatten.count other =
      rings.flatten.count other + [pSession].count other := by
  obtain rfl : ring ++ [pSession] = longer := by
    rw [tryPush] at pushed
    split at pushed
    · exact Option.some.inj pushed
    · cases pushed
  have moved := flatten_set_count there (ring ++ [pSession]) other
  rw [List.count_append] at moved
  omega

/-- A push moves a session from its way into a queue. -/
theorem tryPush_step (stepped : step .tryPush b = some after) :
    after.counts = b.counts ∧ after.held.Perm b.held := by
  obtain ⟨⟨pSession, uiType⟩, pushing, tried⟩ := Option.bind_eq_some_iff.mp stepped
  cases uiType with
  | read =>
    obtain ⟨ring, there, rest⟩ := Option.bind_eq_some_iff.mp tried
    cases pushed : tryPush adTaskSessionMax ring pSession with
    | none =>
      simp only [pushed] at rest
      obtain rfl := Option.some.inj rest
      exact ⟨rfl, .refl _⟩
    | some longer =>
      simp only [pushed] at rest
      obtain rfl := Option.some.inj rest
      refine ⟨rfl, held_perm rfl fun other => ?_⟩
      have moved := pushed_count there pushed other
      simp only [AdNetBase.entries, AdNetBase.turns, pushing]
      simp only [Option.toList, List.map, List.count_nil]
      omega
  | write =>
    obtain ⟨ring, there, rest⟩ := Option.bind_eq_some_iff.mp tried
    cases pushed : tryPush adTaskSessionMax ring pSession with
    | none =>
      simp only [pushed] at rest
      obtain rfl := Option.some.inj rest
      exact ⟨rfl, .refl _⟩
    | some longer =>
      simp only [pushed] at rest
      obtain rfl := Option.some.inj rest
      refine ⟨rfl, held_perm rfl fun other => ?_⟩
      have moved := pushed_count there pushed other
      simp only [AdNetBase.entries, AdNetBase.turns, pushing]
      simp only [Option.toList, List.map, List.count_nil]
      omega

/-- The session of a message goes from the queue to a turn. -/
theorem popped_count {rings : List (List Nat)} {index : Nat} {ring : List Nat}
    (popped : tryPop (rings.getD index []) = some (pSession, ring)) (other : Nat) :
    (rings.set index ring).flatten.count other + [pSession].count other =
      rings.flatten.count other := by
  have there : rings[index]? = some (pSession :: ring) := by
    cases found : rings[index]? with
    | none => simp [List.getD, found, tryPop] at popped
    | some first =>
      cases first with
      | nil => simp [List.getD, found, tryPop] at popped
      | cons first rest =>
        obtain ⟨rfl, rfl⟩ : first = pSession ∧ rest = ring := by
          simpa [List.getD, found, tryPop] using popped
        rfl
  have moved := flatten_set_count there ring other
  rw [List.count_cons] at moved
  rw [List.count_singleton]
  omega

theorem take_step (id : Nat) (uiType : Side) :
    (b.take id uiType).counts = b.counts ∧ (b.take id uiType).held.Perm b.held := by
  cases uiType with
  | read =>
    simp only [AdNetBase.take]
    cases popped : tryPop (b.msgRead.getD (id % b.msgRead.length) []) with
    | none => exact ⟨rfl, .refl _⟩
    | some result =>
      obtain ⟨pSession, ring⟩ := result
      refine ⟨rfl, held_perm rfl fun other => ?_⟩
      have moved := popped_count popped other
      rw [List.count_singleton] at moved
      simp only [AdNetBase.entries, AdNetBase.turns, List.count_cons]
      omega
  | write =>
    simp only [AdNetBase.take]
    cases popped : tryPop (b.msgWrite.getD (id % b.msgWrite.length) []) with
    | none => exact ⟨rfl, .refl _⟩
    | some result =>
      obtain ⟨pSession, ring⟩ := result
      refine ⟨rfl, held_perm rfl fun other => ?_⟩
      have moved := popped_count popped other
      rw [List.count_singleton] at moved
      simp only [AdNetBase.entries, AdNetBase.turns, List.count_cons]
      omega

theorem writeDelayed_active (s : AdSession) (closes : Bool) (kernel : Nat → KernelWrite)
    (unset : Int) : (s.adSessionWriteDelayed closes kernel unset).session.uiActive =
      s.uiActive := by
  simp only [AdSession.adSessionWriteDelayed]
  split
  · exact close_uiActive ..
  · rfl

/-- What a step does to the counts and to what they stand for. -/
def Moves (b after : AdNetBase) : Event → Prop
  | .push pSession _ | .hold pSession =>
    after.counts = (b.active pSession).counts ∧ after.held.Perm (pSession :: b.held)
  | .endRead pSession | .giveBack pSession =>
    after.counts = (b.idle pSession).counts ∧ b.held.Perm (pSession :: after.held)
  | .endWrite pSession _ _ _ => after.counts = b.counts ∧ b.held.Perm (pSession :: after.held)
  | .tryPush | .take _ _ | .close _ _ => after.counts = b.counts ∧ after.held.Perm b.held

theorem step_moves {event : Event} (stepped : step event b = some after) :
    Moves b after event := by
  cases event with
  | push pSession uiType =>
    simp only [step] at stepped
    split at stepped
    · cases stepped
    · next free =>
      obtain rfl := Option.some.inj stepped
      have none : b.pushing = none := by simpa using free
      refine ⟨rfl, List.perm_iff_count.mpr fun other => ?_⟩
      simp only [AdNetBase.held, AdNetBase.active, AdNetBase.setSession, none, List.count_append,
        List.count_cons, Option.toList, List.map, List.count_nil]
      omega
  | tryPush => exact tryPush_step stepped
  | take id uiType =>
    obtain rfl := Option.some.inj stepped
    exact take_step id uiType
  | endRead pSession =>
    simp only [step] at stepped
    split at stepped
    · next handled =>
      obtain rfl := Option.some.inj stepped
      refine ⟨rfl, List.perm_iff_count.mpr fun other => ?_⟩
      have ended := (List.perm_cons_erase handled).count_eq other
      simp only [AdNetBase.held, AdNetBase.idle, AdNetBase.setSession, List.count_append,
        List.count_cons] at ended ⊢
      omega
    · cases stepped
  | endWrite pSession closes kernel unset =>
    simp only [step] at stepped
    split at stepped
    · next handled =>
      obtain rfl := Option.some.inj stepped
      refine ⟨counts_setSession _ (writeDelayed_active ..), List.perm_iff_count.mpr fun other => ?_⟩
      have ended := (List.perm_cons_erase handled).count_eq other
      simp only [AdNetBase.held, AdNetBase.setSession, List.count_append,
        List.count_cons] at ended ⊢
      omega
    · cases stepped
  | hold pSession =>
    obtain rfl := Option.some.inj stepped
    refine ⟨rfl, List.perm_iff_count.mpr fun other => ?_⟩
    simp only [AdNetBase.held, AdNetBase.active, AdNetBase.setSession, List.count_append,
      List.count_cons]
    omega
  | giveBack pSession =>
    simp only [step] at stepped
    split at stepped
    · next out =>
      obtain rfl := Option.some.inj stepped
      refine ⟨rfl, List.perm_iff_count.mpr fun other => ?_⟩
      have back := (List.perm_cons_erase out).count_eq other
      simp only [AdNetBase.held, AdNetBase.idle, AdNetBase.setSession, List.count_append,
        List.count_cons] at back ⊢
      omega
    · cases stepped
  | close pSession closes =>
    obtain rfl := Option.some.inj stepped
    exact ⟨counts_setSession _ (close_uiActive ..), .refl _⟩

theorem accounted_active (accounted : Accounted b)
    (counts : after.counts = (b.active pSession).counts)
    (held : after.held.Perm (pSession :: b.held)) :
    Accounted after ↔ (b.session pSession).uiActive.toNat + 1 < 2 ^ 32 := by
  rw [accounted_iff] at accounted ⊢
  constructor
  · intro balanced
    by_contra full
    have here := balanced pSession
    rw [counts, counts_active_none full, held.count_eq, List.count_cons_self] at here
    omega
  · intro room
    rw [counts, counts_active room]
    exact accounted.active.perm held.symm

theorem accounted_idle (accounted : Accounted b)
    (counts : after.counts = (b.idle pSession).counts)
    (held : b.held.Perm (pSession :: after.held)) : Accounted after := by
  rw [accounted_iff] at accounted ⊢
  rw [counts, counts_idle]
  exact (accounted.perm held).idle

/-- A step keeps the account exactly under the condition on it. -/
theorem accounted_step {event : Event} (accounted : Accounted b)
    (stepped : step event b = some after) : Accounted after ↔ StepAccounted event b := by
  have moves := step_moves stepped
  cases event with
  | push pSession uiType => exact accounted_active accounted moves.1 moves.2
  | hold pSession => exact accounted_active accounted moves.1 moves.2
  | endRead pSession => exact iff_of_true (accounted_idle accounted moves.1 moves.2) trivial
  | giveBack pSession => exact iff_of_true (accounted_idle accounted moves.1 moves.2) trivial
  | endWrite pSession closes kernel unset =>
    obtain ⟨counts, held⟩ := moves
    refine iff_of_false ?_ id
    intro again
    rw [accounted_iff] at accounted again
    have fewer : after.held.count pSession < b.held.count pSession := by
      rw [held.count_eq, List.count_cons_self]
      omega
    rw [counts] at again
    exact accounted.not_fewer fewer again
  | tryPush | take | close =>
    obtain ⟨counts, held⟩ := moves
    refine iff_of_true ?_ trivial
    rw [accounted_iff] at accounted ⊢
    rw [counts]
    exact accounted.perm held.symm

theorem accounted_init (msgRead msgWrite : Int) : Accounted (.init msgRead msgWrite) := by
  rw [accounted_iff]
  intro pSession
  simp [AdNetBase.counts, AdNetBase.held, AdNetBase.init]

/-- Along every run of the network layer the counts are right exactly as long as no turn of a write
task is over and no count is at its end when it is raised. -/
theorem accounted_run_iff (msgRead msgWrite : Int) (events : List Event) :
    (∀ b ∈ StepRuns.states step (.init msgRead msgWrite) events, Accounted b) ↔
      StepRuns.Throughout step StepAccounted (.init msgRead msgWrite) events := by
  have keep : ∀ (event : Event) (b after : AdNetBase), True → step event b = some after → True :=
    fun _ _ _ _ _ => trivial
  exact StepRuns.states_iff_throughout keep
    (fun _ _ _ _ accounted stepped => accounted_step accounted stepped) trivial
    (accounted_init msgRead msgWrite) events

/-- A session whose delayed write is over has no entry and no turn, and stays active. -/
theorem delayedWrite_unaccounted : ¬ ∀ events,
    ∀ b ∈ StepRuns.states step (.init 1 1) events, Accounted b := by
  intro all
  have accounted := all
    [.push 7 .write, .tryPush, .take 1 .write, .endWrite 7 true (fun _ => .again) 0]
    _ (.tail _ (.tail _ (.tail _ (.tail _ (.head _)))))
  exact absurd (accounted.count 7) (by decide)

end ActivityCounts
