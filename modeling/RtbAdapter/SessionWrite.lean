import RtbAdapter.NetSession
import RtbAdapter.StepRuns

/-!
# The byte stream of a session

Beside a session stand the messages it was given to write, the bytes that the
kernel has of them, and whether a write has failed. The bytes follow the order of
the messages as long as the kernel takes a message whole or not at all, and takes a
new message only when no older one is queued.
-/

namespace SessionWrite

open ByteWords NetSession
open NetProtocol (adSuccess adFailure)
open PacketReassembly (adCacheMax)

/-- A message that a cache can hold. -/
abbrev Message := { message : Bytes // message.length ≤ adCacheMax - 1 }

structure Stream where
  session : AdSession
  submitted : List Message := []
  accepted : Bytes := []
  failed : Bool := false

namespace Stream

variable (s : Stream)

/-- All that the session was given to write. -/
def all : Bytes := (s.submitted.map Subtype.val).flatten

def queued : Bytes := s.session.ltSendCache.flatten

end Stream

/-- A session without a queue. -/
def opened (session : AdSession) : Stream := { session := { session with ltSendCache := [] } }

inductive Call where
  | write (message : Message) (kernel : KernelWrite) (closes : Bool)
  | writeDelayed (kernel : Nat → KernelWrite) (closes : Bool) (unset : Int)

/-- Whether a write to the socket fails in the call. -/
def fails (session : AdSession) : Call → Bool
  | .write message kernel _ =>
    message.val ≠ [] ∧ tcpWrite session.tcpSocket kernel message.val = adFailure
  | .writeDelayed kernel _ unset =>
    session.ltSendCache ≠ [] ∧
      (writeCaches session.tcpSocket unset kernel session.ltSendCache).1 = adFailure

def outcome (session : AdSession) : Call → Outcome
  | .write message kernel closes => session.adSessionWrite closes kernel message.val
  | .writeDelayed kernel closes unset => session.adSessionWriteDelayed closes kernel unset

def given : Call → List Message
  | .write message _ _ => [message]
  | .writeDelayed _ _ _ => []

def step (call : Call) (s : Stream) : Option Stream :=
  some {
    session := (outcome s.session call).session
    submitted := s.submitted ++ given call
    accepted := s.accepted ++ (outcome s.session call).sent
    failed := s.failed || fails s.session call }

/-- The kernel has the first bytes that were submitted, and as long as no write has failed the
queue has the others. -/
structure InOrder (s : Stream) : Prop where
  order : s.accepted <+: s.all
  rest : s.failed = false → s.accepted ++ s.queued = s.all

/-- The kernel has room for some of a packet. -/
def takes : KernelWrite → Bool
  | .took count => 0 < count
  | _ => false

/-- It has room for all of it, if for any. -/
def Whole (kernel : KernelWrite) (pPacket : Bytes) : Prop :=
  match kernel with
  | .took count => count = 0 ∨ pPacket.length ≤ count
  | _ => True

/-- So it goes for the caches up to the first one that is not taken. -/
def WholeCaches : (Nat → KernelWrite) → List Bytes → Prop
  | _, [] => True
  | kernel, pCache :: rest =>
    Whole (kernel 0) pCache ∧ (takes (kernel 0) → WholeCaches (fun i => kernel (i + 1)) rest)

/-- A call on an open socket has a message or a cache taken whole or not at all, none after a
write that failed, and a message none of which waits behind others. -/
def CallWhole (call : Call) (s : Stream) : Prop :=
  0 < s.session.tcpSocket →
  match call with
  | .write message kernel _ => takes kernel → message.val ≠ [] →
      Whole kernel message.val ∧ s.session.ltSendCache = [] ∧ s.failed = false
  | .writeDelayed kernel _ _ =>
      WholeCaches kernel s.session.ltSendCache ∧
        (takes (kernel 0) → s.session.ltSendCache ≠ [] → s.failed = false)

variable {iSocket unset : Int} {kernel : KernelWrite} {pPacket : Bytes} {s after : Stream}

variable (pPacket) in
/-- A write fails, would block, or takes the packet whole from an open socket. -/
theorem tcpWrite_cases (whole : 0 < iSocket → takes kernel → Whole kernel pPacket) :
    tcpWrite iSocket kernel pPacket = adFailure ∨ tcpWrite iSocket kernel pPacket = adSuccess ∨
      (0 < iSocket ∧ takes kernel ∧ 0 < pPacket.length ∧
        tcpWrite iSocket kernel pPacket = pPacket.length) := by
  unfold tcpWrite
  split
  · exact .inl rfl
  next isOpen =>
    have positive : 0 < iSocket := by omega
    cases kernel with
    | again => exact .inr (.inl rfl)
    | failed => exact .inl rfl
    | took count =>
      by_cases none : min count pPacket.length = 0
      · exact .inl (if_pos none)
      · have some : takes (.took count) := by
          simp only [takes, decide_eq_true_eq]
          omega
        have all := whole positive some
        simp only [Whole] at all
        refine .inr (.inr ⟨positive, some, by omega, ?_⟩)
        simp only [if_neg none]
        omega

theorem sent_all : sent pPacket.length pPacket = pPacket := by
  simp [sent]

theorem adCache_short (short : pPacket.length ≤ adCacheMax - 1) : adCache pPacket = pPacket :=
  List.take_of_length_le short

variable (pPacket) in
/-- What is neither taken whole nor left waiting is not taken at all. -/
theorem tcpWrite_none (none : 0 < iSocket → takes kernel = false) :
    tcpWrite iSocket kernel pPacket = adFailure ∨ tcpWrite iSocket kernel pPacket = adSuccess := by
  have whole : 0 < iSocket → takes kernel → Whole kernel pPacket := by
    intro isOpen some
    simp [none isOpen] at some
  rcases tcpWrite_cases pPacket whole with failed | waits | ⟨isOpen, some, -⟩
  · exact .inl failed
  · exact .inr waits
  · simp [none isOpen] at some

variable {kernels : Nat → KernelWrite} {caches : List Bytes}

/-- The kernel gets the caches in their order, and those it does not get are left unless a
write fails. -/
theorem writeCaches_whole (unset : Int) (whole : 0 < iSocket → WholeCaches kernels caches) :
    (writeCaches iSocket unset kernels caches).2.1 <+: caches.flatten ∧
      ((writeCaches iSocket unset kernels caches).1 ≠ adFailure ∨ caches = [] →
        (writeCaches iSocket unset kernels caches).2.1 ++
          (writeCaches iSocket unset kernels caches).2.2.flatten = caches.flatten) := by
  induction caches generalizing kernels unset with
  | nil => simp [writeCaches]
  | cons pCache rest ih =>
    have first := tcpWrite_cases pCache fun isOpen _ => (whole isOpen).1
    rcases first with failed | waits | ⟨isOpen, some, length, taken⟩
    · have different : adFailure ≠ adSuccess := by decide
      simp [writeCaches, failed, different]
    · simp [writeCaches, waits]
    · obtain ⟨front, left⟩ := ih pCache.length fun _ => (whole isOpen).2 some
      have notFailed : (pCache.length : Int) ≠ adFailure := by
        simp only [adFailure]
        omega
      have notWaiting : (pCache.length : Int) ≠ adSuccess := by
        simp only [adSuccess]
        omega
      simp only [writeCaches, taken, if_neg notFailed, if_neg notWaiting, sent_all]
      constructor
      · simpa using front
      · rintro (ended | none)
        · by_cases last : rest = []
          · simpa using left (.inr last)
          · simpa using left (.inl ended)
        · cases none

theorem writeCaches_none (none : 0 < iSocket → caches ≠ [] → takes (kernels 0) = false) :
    (writeCaches iSocket unset kernels caches).2.1 = [] := by
  cases caches with
  | nil => rfl
  | cons pCache rest =>
    have different : adFailure ≠ adSuccess := by decide
    rcases tcpWrite_none pCache fun isOpen => none isOpen (by simp) with failed | waits
    · simp [writeCaches, failed, different]
    · simp [writeCaches, waits]

/-- A call keeps the order if the kernel gets the next bytes in it, and none after a failure, and
the queue has what the kernel does not get. -/
theorem InOrder.step {call : Call} (inOrder : InOrder s)
    (quiet : s.failed → (outcome s.session call).sent = [])
    (front : (outcome s.session call).sent <+:
      s.queued ++ ((given call).map Subtype.val).flatten)
    (rest : fails s.session call = false →
      (outcome s.session call).sent ++ (outcome s.session call).session.ltSendCache.flatten =
        s.queued ++ ((given call).map Subtype.val).flatten)
    (stepped : step call s = some after) : InOrder after := by
  obtain rfl := Option.some.inj stepped
  have grown : (s.submitted ++ given call).map Subtype.val =
      s.submitted.map Subtype.val ++ (given call).map Subtype.val := List.map_append ..
  constructor
  · rw [Stream.all, grown, List.flatten_append]
    cases failed : s.failed with
    | true =>
      rw [quiet failed, List.append_nil]
      exact inOrder.order.trans (List.prefix_append ..)
    | false =>
      have before := inOrder.rest failed
      rw [Stream.all] at before
      rw [← before, List.append_assoc]
      exact List.prefix_append_right_inj _ |>.mpr front
  · intro unfailed
    obtain ⟨before, now⟩ := Bool.or_eq_false_iff.mp unfailed
    rw [Stream.all, Stream.queued, grown, List.flatten_append, List.append_assoc, rest now,
      ← List.append_assoc, inOrder.rest before]
    rfl

theorem write_inOrder {message : Message} {closes : Bool}
    (whole : CallWhole (.write message kernel closes) s) (inOrder : InOrder s)
    (stepped : step (.write message kernel closes) s = some after) : InOrder after := by
  by_cases empty : message.val = []
  · refine inOrder.step ?_ ?_ ?_ stepped <;>
      simp [outcome, given, Stream.queued, AdSession.adSessionWrite, empty]
  have taken := tcpWrite_cases message.val fun isOpen some =>
    (whole isOpen some empty).1
  rcases taken with failed | waits | ⟨isOpen, some, length, taken⟩
  · refine inOrder.step ?_ ?_ ?_ stepped <;>
      simp [outcome, given, fails, AdSession.adSessionWrite, empty, failed]
  · have different : adSuccess ≠ adFailure := by decide
    refine inOrder.step ?_ ?_ ?_ stepped <;>
      simp [outcome, given, Stream.queued, AdSession.adSessionWrite, empty, waits, different,
        adCache_short message.property]
  · obtain ⟨-, none, fresh⟩ := whole isOpen some empty
    have notFailed : (message.val.length : Int) ≠ adFailure := by
      simp only [adFailure]
      omega
    have notWaiting : (message.val.length : Int) ≠ adSuccess := by
      simp only [adSuccess]
      omega
    refine inOrder.step ?_ ?_ ?_ stepped <;>
      simp [outcome, given, Stream.queued, AdSession.adSessionWrite, empty, taken, notFailed,
        notWaiting, sent_all, none, fresh]

theorem writeDelayed_inOrder {closes : Bool}
    (whole : CallWhole (.writeDelayed kernels closes unset) s) (inOrder : InOrder s)
    (stepped : step (.writeDelayed kernels closes unset) s = some after) : InOrder after := by
  obtain ⟨front, left⟩ := writeCaches_whole unset fun isOpen => (whole isOpen).1
  have sends : (outcome s.session (.writeDelayed kernels closes unset)).sent =
      (writeCaches s.session.tcpSocket unset kernels s.session.ltSendCache).2.1 := by
    simp only [outcome, AdSession.adSessionWriteDelayed]
    split <;> rfl
  refine inOrder.step ?_ ?_ ?_ stepped
  · intro failed
    rw [sends]
    apply writeCaches_none
    intro isOpen some
    cases taken : takes (kernels 0) with
    | false => rfl
    | true => simp [(whole isOpen).2 taken some] at failed
  · simpa [sends, given, Stream.queued] using front
  · intro unfailed
    by_cases none : s.session.ltSendCache = []
    · have still : (outcome s.session (.writeDelayed kernels closes unset)).session.ltSendCache =
          [] := by
        simp only [outcome, AdSession.adSessionWriteDelayed, none, writeCaches]
        split
        · exact close_ltSendCache ..
        · rfl
      simp [sends, still, given, Stream.queued, none, writeCaches]
    · have ended : (writeCaches s.session.tcpSocket unset kernels s.session.ltSendCache).1 ≠
          adFailure := by
        simpa [fails, none] using unfailed
      have queue : (outcome s.session (.writeDelayed kernels closes unset)).session.ltSendCache =
          (writeCaches s.session.tcpSocket unset kernels s.session.ltSendCache).2.2 := by
        simp only [outcome, AdSession.adSessionWriteDelayed]
        rw [if_neg ended]
      rw [sends, queue, left (.inl ended)]
      simp [given, Stream.queued]

/-- A direct write that keeps the order hands the whole message on, and what it passes in the
queue reads the same behind it. -/
theorem write_needs {message : Message} {closes : Bool} (inOrder : InOrder s)
    (unfailed : s.failed = false) (isOpen : 0 < s.session.tcpSocket) (some : takes kernel)
    (message_some : message.val ≠ [])
    (stepped : step (.write message kernel closes) s = .some after) (still : InOrder after) :
    Whole kernel message.val ∧ message.val ++ s.queued = s.queued ++ message.val := by
  cases kernel with
  | again => cases some
  | failed => cases some
  | took count =>
    have positive : 0 < count := by simpa [takes] using some
    have length := List.length_pos_iff.mpr message_some
    have taken : tcpWrite s.session.tcpSocket (.took count) message.val =
        (min count message.val.length : Nat) := by
      have notClosed : ¬ s.session.tcpSocket ≤ 0 := by omega
      have notNone : ¬ min count message.val.length = 0 := by omega
      simp only [tcpWrite, if_neg notClosed, if_neg notNone]
      omega
    generalize held : min count message.val.length = k at taken
    have notFailed : (k : Int) ≠ adFailure := by
      simp only [adFailure]
      omega
    have notWaiting : (k : Int) ≠ adSuccess := by
      simp only [adSuccess]
      omega
    obtain rfl := Option.some.inj stepped
    have both := still.rest (by simp [fails, message_some, taken, notFailed, unfailed])
    have before := inOrder.rest unfailed
    have passed : message.val.take k ++ s.queued = s.queued ++ message.val := by
      apply @List.append_cancel_left _ s.accepted
      rw [← List.append_assoc, ← List.append_assoc, before]
      simpa [Stream.all, Stream.queued, outcome, given, AdSession.adSessionWrite, message_some,
        taken, notFailed, notWaiting, sent] using both
    have all : k = message.val.length := by
      have lengths := congrArg List.length passed
      simp only [List.length_append, List.length_take] at lengths
      omega
    refine ⟨.inr (by omega), ?_⟩
    rw [all, List.take_length] at passed
    exact passed

theorem inOrder_step {call : Call} (inOrder : InOrder s) (whole : CallWhole call s)
    (stepped : step call s = some after) : InOrder after := by
  cases call with
  | write message kernel closes => exact write_inOrder whole inOrder stepped
  | writeDelayed kernels closes unset => exact writeDelayed_inOrder whole inOrder stepped

theorem inOrder_opened (session : AdSession) : InOrder (opened session) where
  order := List.prefix_refl _
  rest := fun _ => rfl

/-- On every session, and along every run of calls that the kernel serves whole, the bytes at the
peer are in order and the others are queued. -/
theorem stream_inOrder (session : AdSession) (calls : List Call)
    (whole : StepRuns.Throughout step CallWhole (opened session) calls) :
    ∀ s ∈ StepRuns.states step (opened session) calls, InOrder s :=
  StepRuns.states_keep_throughout
    (fun _ _ _ inOrder whole stepped => inOrder_step inOrder whole stepped)
    (inOrder_opened session) whole

def connected : AdSession := { iSocket := 5, tcpSocket := 5 }

def letter (b : UInt8) : Message := ⟨[b], Nat.le_of_ble_eq_true rfl⟩

/-- A message waits, and goes out in a delayed write. -/
def delayed : List Call := [.write (letter 97) .again true, .writeDelayed (fun _ => .took 1) true 0]

def afterDelayed : Stream :=
  ((step (.write (letter 97) .again true) (opened connected)).bind
    (step (.writeDelayed (fun _ => .took 1) true 0))).getD (opened connected)

theorem delayed_whole : StepRuns.Throughout step CallWhole (opened connected) delayed := by
  intro first stepped
  obtain rfl := Option.some.inj stepped
  refine ⟨?_, fun second stepped => ⟨?_, trivial⟩⟩
  · intro isOpen taken
    cases taken
  · intro isOpen
    exact ⟨⟨.inr (by decide), fun _ => trivial⟩, fun _ _ => rfl⟩

theorem afterDelayed_inOrder : InOrder afterDelayed :=
  stream_inOrder connected delayed delayed_whole afterDelayed (.tail _ (.tail _ (.head _)))

/-- A second message finds room in the kernel while the first one waits, and passes it. -/
theorem second_overtakes :
    ¬ ∀ calls, ∀ s ∈ StepRuns.states step (opened connected) calls, InOrder s := by
  intro all
  have inOrder := all [.write (letter 97) .again true, .write (letter 98) (.took 1) true]
    _ (.tail _ (.tail _ (.head _)))
  exact absurd inOrder.order (by decide)

end SessionWrite
