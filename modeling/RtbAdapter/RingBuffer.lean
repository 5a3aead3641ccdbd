import RtbAdapter.StepRuns

/-!
# The ring buffer

`tryPush` and `tryPop` are followed one access to the shared positions at a time. In
`AdRingBufferSRSW` one thread pushes and one pops; in `AdRingBufferMRMW` each side has
a lock that its threads hold for the whole call. Beside the buffer stand the
elements pushed and popped so far, each counted when its position has moved on.
-/

namespace RingBuffer

variable {α : Type}

/-- `AdRingBufferBase` -/
structure AdRingBufferBase (α : Type) where
  ring : List α
  size : Nat
  readPosition : Nat := 0
  writePosition : Nat := 0

namespace AdRingBufferBase

variable (b : AdRingBufferBase α)

def init [Inhabited α] (iSize : Nat) : AdRingBufferBase α :=
  { ring := List.replicate iSize default, size := iSize }

def full : Bool := b.readPosition = (b.writePosition + 1) % b.size

def empty : Bool := b.readPosition = b.writePosition

/-- The first line of `__push`. -/
def store (request : α) : AdRingBufferBase α :=
  { b with ring := b.ring.set b.writePosition request }

/-- Its second line. -/
def advanceWrite : AdRingBufferBase α := { b with writePosition := (b.writePosition + 1) % b.size }

/-- The first line of `__pop`. -/
def load : Option α := b.ring[b.readPosition]?

/-- Its second line. -/
def advanceRead : AdRingBufferBase α := { b with readPosition := (b.readPosition + 1) % b.size }

/-- `size()` -/
def count : Nat :=
  if b.readPosition = b.writePosition then 0
  else if b.writePosition < b.readPosition then b.size - b.readPosition + b.writePosition
  else b.writePosition - b.readPosition

end AdRingBufferBase

/-- How far a call of `tryPush` has come. -/
inductive Writing (α : Type) where
  | idle
  | begun (request : α)
  | room (request : α)
  | stored (request : α)

/-- How far a call of `tryPop` has come. -/
inductive Reading (α : Type) where
  | idle
  | begun
  | found
  | loaded (result : α)

structure Ring (α : Type) where
  buffer : AdRingBufferBase α
  writer : Writing α := .idle
  reader : Reading α := .idle
  pushed : List α := []
  popped : List α := []

/-- The accesses of the two calls, in the order of the code. -/
inductive Access (α : Type) where
  | beginPush (request : α)
  | testFull
  | store
  | advanceWrite
  | beginPop
  | testEmpty
  | load
  | advanceRead

/-- One access. A test that fails ends the call, which returns false. -/
def access : Access α → Ring α → Option (Ring α)
  | .beginPush x, s => match s.writer with
    | .idle => some { s with writer := .begun x }
    | _ => none
  | .testFull, s => match s.writer with
    | .begun x => some { s with writer := if s.buffer.full then .idle else .room x }
    | _ => none
  | .store, s => match s.writer with
    | .room x => some { s with buffer := s.buffer.store x, writer := .stored x }
    | _ => none
  | .advanceWrite, s => match s.writer with
    | .stored x =>
      some { s with buffer := s.buffer.advanceWrite, writer := .idle, pushed := s.pushed ++ [x] }
    | _ => none
  | .beginPop, s => match s.reader with
    | .idle => some { s with reader := .begun }
    | _ => none
  | .testEmpty, s => match s.reader with
    | .begun => some { s with reader := if s.buffer.empty then .idle else .found }
    | _ => none
  | .load, s => match s.reader with
    | .found => s.buffer.load.map fun x => { s with reader := .loaded x }
    | _ => none
  | .advanceRead, s => match s.reader with
    | .loaded x =>
      some { s with buffer := s.buffer.advanceRead, reader := .idle, popped := s.popped ++ [x] }
    | _ => none

def Ring.fresh [Inhabited α] (n : Nat) : Ring α := { buffer := .init n }

/-- The buffer with the threads that hold its two locks. -/
structure AdRingBufferMRMW (α : Type) where
  ring : Ring α
  writeLock : Option Nat := none
  readLock : Option Nat := none

/-- What a thread does next: it takes the lock as it begins a call, goes on with its own
call, or gives the lock back after it. -/
inductive LockedAccess (α : Type) where
  | lockWrite (thread : Nat) (request : α)
  | push (thread : Nat) (next : Access α)
  | unlockWrite (thread : Nat)
  | lockRead (thread : Nat)
  | pop (thread : Nat) (next : Access α)
  | unlockRead (thread : Nat)

/-- The accesses of a call of `tryPush` after its first. -/
def Access.pushes : Access α → Bool
  | .testFull | .store | .advanceWrite => true
  | _ => false

def Access.pops : Access α → Bool
  | .testEmpty | .load | .advanceRead => true
  | _ => false

def lockedAccess : LockedAccess α → AdRingBufferMRMW α → Option (AdRingBufferMRMW α)
  | .lockWrite t x, s =>
    if s.writeLock = none then
      (access (.beginPush x) s.ring).map fun ring => { s with ring, writeLock := some t }
    else none
  | .push t next, s =>
    if s.writeLock = some t ∧ next.pushes then (access next s.ring).map fun ring => { s with ring }
    else none
  | .unlockWrite t, s =>
    match s.ring.writer with
    | .idle => if s.writeLock = some t then some { s with writeLock := none } else none
    | _ => none
  | .lockRead t, s =>
    if s.readLock = none then
      (access .beginPop s.ring).map fun ring => { s with ring, readLock := some t }
    else none
  | .pop t next, s =>
    if s.readLock = some t ∧ next.pops then (access next s.ring).map fun ring => { s with ring }
    else none
  | .unlockRead t, s =>
    match s.ring.reader with
    | .idle => if s.readLock = some t then some { s with readLock := none } else none
    | _ => none

def AdRingBufferMRMW.fresh [Inhabited α] (n : Nat) : AdRingBufferMRMW α := { ring := .fresh n }

/-- Two counts less than a capacity apart are at the same position only if they are equal. -/
theorem position_inj {a b n : Nat} (le : b ≤ a) (close : a - b < n) :
    a % n = b % n ↔ a = b := by
  constructor
  · intro same
    have none := Nat.sub_mod_eq_zero_of_mod_eq same
    rw [Nat.mod_eq_of_lt close] at none
    omega
  · rintro rfl
    rfl

theorem position_next (a n : Nat) : (a % n + 1) % n = (a + 1) % n := by
  simp [Nat.add_mod]

/-- `size()` computes how far the two counts are apart. -/
theorem positions_apart {a b n : Nat} (le : b ≤ a) (close : a - b < n) :
    (if b % n = a % n then 0
      else if a % n < b % n then n - b % n + a % n else a % n - b % n) = a - b := by
  obtain ⟨d, rfl⟩ := Nat.exists_eq_add_of_le le
  have near : d < n := by omega
  have reads := Nat.mod_lt b (show 0 < n by omega)
  have moved : (b + d) % n = (b % n + d) % n := by simp [Nat.add_mod]
  rw [moved]
  generalize b % n = r at reads
  by_cases wraps : r + d < n
  · rw [Nat.mod_eq_of_lt wraps]
    split_ifs <;> omega
  · have back : (r + d) % n = r + d - n := by
      rw [Nat.mod_eq_sub_mod (by omega), Nat.mod_eq_of_lt (by omega)]
    rw [back]
    split_ifs <;> omega

/-- A writer that has found room has it until it moves on, and what it has stored stays. -/
def Writing.Fits (n : Nat) (s : Ring α) : Writing α → Prop
  | .room _ => s.pushed.length - s.popped.length + 2 ≤ n
  | .stored x => s.pushed.length - s.popped.length + 2 ≤ n ∧
      s.buffer.ring[s.pushed.length % n]? = some x
  | _ => True

/-- A reader that has found an element is not overtaken by another. -/
def Reading.Fits (s : Ring α) : Reading α → Prop
  | .found => s.popped.length < s.pushed.length
  | .loaded x => s.pushed[s.popped.length]? = some x
  | _ => True

/-- What the buffer holds while `tryPush` and `tryPop` are on their way. -/
structure Holds (n : Nat) (s : Ring α) : Prop where
  size : s.buffer.size = n
  length : s.buffer.ring.length = n
  reads : s.buffer.readPosition = s.popped.length % n
  writes : s.buffer.writePosition = s.pushed.length % n
  order : s.popped <+: s.pushed
  room : s.pushed.length - s.popped.length + 1 ≤ n
  slots : ∀ i, s.popped.length ≤ i → i < s.pushed.length →
    s.buffer.ring[i % n]? = s.pushed[i]?
  writer : s.writer.Fits n s
  reader : s.reader.Fits s

variable {n : Nat} {s after : Ring α} {a : Access α} {x : α}

theorem Holds.le (holds : Holds n s) : s.popped.length ≤ s.pushed.length :=
  holds.order.length_le

theorem Holds.full_iff (holds : Holds n s) :
    s.buffer.full ↔ s.pushed.length - s.popped.length + 1 = n := by
  have le := holds.le
  have room := holds.room
  rw [AdRingBufferBase.full, holds.size, holds.reads, holds.writes, position_next,
    decide_eq_true_eq]
  by_cases last : s.pushed.length - s.popped.length + 1 = n
  · refine iff_of_true ?_ last
    have around : s.pushed.length + 1 = s.popped.length + n := by omega
    rw [around, Nat.add_mod_right]
  · refine iff_of_false ?_ last
    intro same
    have equal := (position_inj (a := s.pushed.length + 1) (by omega) (by omega)).mp same.symm
    omega

theorem Holds.empty_iff (holds : Holds n s) :
    s.buffer.empty ↔ s.popped.length = s.pushed.length := by
  have le := holds.le
  have room := holds.room
  rw [AdRingBufferBase.empty, holds.reads, holds.writes, decide_eq_true_eq, eq_comm,
    position_inj le (by omega)]
  exact eq_comm

theorem holds_fresh [Inhabited α] (two : 2 ≤ n) : Holds n (.fresh n : Ring α) := by
  constructor <;>
    simp [Ring.fresh, AdRingBufferBase.init, Writing.Fits, Reading.Fits]
  omega

theorem Holds.testFull (holds : Holds n s) :
    Holds n { s with writer := if s.buffer.full then .idle else .room x } := by
  have fits : (if s.buffer.full then .idle else .room x : Writing α).Fits n s := by
    have room := holds.room
    split
    · trivial
    · next full =>
      have short := mt holds.full_iff.mpr full
      simp only [Writing.Fits]
      omega
  have same : ∀ w : Writing α, w.Fits n { s with writer := w } ↔ w.Fits n s := by
    intro w
    cases w <;> rfl
  exact { holds with writer := (same _).mpr fits, reader := holds.reader }

/-- No element on its way is at the position that is written. -/
theorem Holds.store (holds : Holds n s) (writer : s.writer = .room x) :
    Holds n { s with buffer := s.buffer.store x, writer := .stored x } := by
  have le := holds.le
  have free : s.pushed.length - s.popped.length + 2 ≤ n := by
    simpa [writer, Writing.Fits] using holds.writer
  have inside := Nat.mod_lt s.pushed.length (show 0 < n by omega)
  refine { holds with length := ?_, slots := ?_, writer := ⟨free, ?_⟩, reader := holds.reader }
  · exact (List.length_set ..).trans holds.length
  · intro i (from_popped : s.popped.length ≤ i) (below : i < s.pushed.length)
    have apart : s.pushed.length % n ≠ i % n := by
      intro same
      have equal := (position_inj (by omega) (by omega)).mp same
      omega
    simp only [AdRingBufferBase.store, holds.writes]
    rw [List.getElem?_set_ne apart]
    exact holds.slots i from_popped below
  · simp only [AdRingBufferBase.store, holds.writes]
    apply List.getElem?_set_self
    rw [holds.length]
    exact inside

theorem Holds.advanceWrite (holds : Holds n s) (writer : s.writer = .stored x) :
    Holds n { s with
      buffer := s.buffer.advanceWrite, writer := .idle, pushed := s.pushed ++ [x] } := by
  have le := holds.le
  obtain ⟨free, there⟩ : s.pushed.length - s.popped.length + 2 ≤ n ∧
      s.buffer.ring[s.pushed.length % n]? = some x := by
    simpa [writer, Writing.Fits] using holds.writer
  have grown : (s.pushed ++ [x]).length = s.pushed.length + 1 := by simp
  constructor
  · exact holds.size
  · exact holds.length
  · exact holds.reads
  · simp only [AdRingBufferBase.advanceWrite]
    rw [holds.writes, holds.size, position_next, grown]
  · exact holds.order.trans (List.prefix_append ..)
  · simp only [grown]
    omega
  · intro i (from_popped : s.popped.length ≤ i) (below : i < (s.pushed ++ [x]).length)
    simp only [AdRingBufferBase.advanceWrite]
    by_cases new : i = s.pushed.length
    · rw [new, there]
      simp
    · have older : i < s.pushed.length := by omega
      rw [List.getElem?_append_left older]
      exact holds.slots i from_popped older
  · trivial
  · have reader := holds.reader
    cases reading : s.reader with
    | idle => trivial
    | begun => trivial
    | found =>
      simp only [reading, Reading.Fits] at reader ⊢
      omega
    | loaded y =>
      simp only [reading, Reading.Fits] at reader ⊢
      have inside := (List.getElem?_eq_some_iff.mp reader).1
      rw [List.getElem?_append_left inside, reader]

theorem Holds.testEmpty (holds : Holds n s) :
    Holds n { s with reader := if s.buffer.empty then .idle else .found } := by
  have fits : (if s.buffer.empty then .idle else .found : Reading α).Fits s := by
    have le := holds.le
    split
    · trivial
    · next empty =>
      have some := mt holds.empty_iff.mpr empty
      simp only [Reading.Fits]
      omega
  have same : ∀ r : Reading α, r.Fits { s with reader := r } ↔ r.Fits s := by
    intro r
    cases r <;> rfl
  exact { holds with writer := holds.writer, reader := (same _).mpr fits }

theorem Holds.load (holds : Holds n s) (reader : s.reader = .found)
    (loaded : s.buffer.load = some x) : Holds n { s with reader := .loaded x } := by
  have found : s.popped.length < s.pushed.length := by
    simpa [reader, Reading.Fits] using holds.reader
  have first : s.pushed[s.popped.length]? = some x := by
    rw [← holds.slots _ (Nat.le_refl _) found, ← holds.reads]
    exact loaded
  exact { holds with writer := holds.writer, reader := first }

theorem prefix_next {pushed popped : List α} (order : popped <+: pushed)
    (next : pushed[popped.length]? = some x) : popped ++ [x] <+: pushed := by
  obtain ⟨rest, rfl⟩ := order
  cases rest with
  | nil => simp at next
  | cons y rest =>
    obtain rfl : y = x := by simpa using next
    exact ⟨rest, by simp⟩

theorem Holds.advanceRead (holds : Holds n s) (reader : s.reader = .loaded x) :
    Holds n { s with
      buffer := s.buffer.advanceRead, reader := .idle, popped := s.popped ++ [x] } := by
  have le := holds.le
  have room := holds.room
  have loaded : s.pushed[s.popped.length]? = some x := by
    simpa [reader, Reading.Fits] using holds.reader
  have inside := (List.getElem?_eq_some_iff.mp loaded).1
  have grown : (s.popped ++ [x]).length = s.popped.length + 1 := by simp
  constructor
  · exact holds.size
  · exact holds.length
  · simp only [AdRingBufferBase.advanceRead]
    rw [holds.reads, holds.size, position_next, grown]
  · exact holds.writes
  · exact prefix_next holds.order loaded
  · simp only [grown]
    omega
  · intro i (from_popped : (s.popped ++ [x]).length ≤ i) (below : i < s.pushed.length)
    exact holds.slots i (by omega) below
  · have writing := holds.writer
    cases writer : s.writer with
    | idle => trivial
    | begun y => trivial
    | room y =>
      simp only [writer, Writing.Fits, grown] at writing ⊢
      omega
    | stored y =>
      simp only [writer, Writing.Fits, grown] at writing ⊢
      exact ⟨by omega, writing.2⟩
  · trivial

/-- Every access keeps what the buffer holds. -/
theorem holds_access (holds : Holds n s) (stepped : access a s = some after) : Holds n after := by
  cases a with
  | beginPush x =>
    cases writer : s.writer with
    | idle =>
      simp only [access, writer] at stepped
      obtain rfl := Option.some.inj stepped
      exact { holds with writer := trivial, reader := holds.reader }
    | _ => simp [access, writer] at stepped
  | testFull =>
    cases writer : s.writer with
    | begun x =>
      simp only [access, writer] at stepped
      obtain rfl := Option.some.inj stepped
      exact holds.testFull
    | _ => simp [access, writer] at stepped
  | store =>
    cases writer : s.writer with
    | room x =>
      simp only [access, writer] at stepped
      obtain rfl := Option.some.inj stepped
      exact holds.store writer
    | _ => simp [access, writer] at stepped
  | advanceWrite =>
    cases writer : s.writer with
    | stored x =>
      simp only [access, writer] at stepped
      obtain rfl := Option.some.inj stepped
      exact holds.advanceWrite writer
    | _ => simp [access, writer] at stepped
  | beginPop =>
    cases reader : s.reader with
    | idle =>
      simp only [access, reader] at stepped
      obtain rfl := Option.some.inj stepped
      exact { holds with writer := holds.writer, reader := trivial }
    | _ => simp [access, reader] at stepped
  | testEmpty =>
    cases reader : s.reader with
    | begun =>
      simp only [access, reader] at stepped
      obtain rfl := Option.some.inj stepped
      exact holds.testEmpty
    | _ => simp [access, reader] at stepped
  | load =>
    cases reader : s.reader with
    | found =>
      simp only [access, reader] at stepped
      obtain ⟨x, loaded, rfl⟩ := Option.map_eq_some_iff.mp stepped
      exact holds.load reader loaded
    | _ => simp [access, reader] at stepped
  | advanceRead =>
    cases reader : s.reader with
    | loaded x =>
      simp only [access, reader] at stepped
      obtain rfl := Option.some.inj stepped
      exact holds.advanceRead reader
    | _ => simp [access, reader] at stepped

/-- An access under a condition on the locks. -/
theorem guarded_access {c : Prop} [Decidable c] {a : Access α} {m m' : AdRingBufferMRMW α}
    {put : Ring α → AdRingBufferMRMW α} (keeps : ∀ ring, (put ring).ring = ring)
    (stepped : (if c then (access a m.ring).map put else none) = some m') :
    ∃ a, access a m.ring = some m'.ring := by
  split at stepped
  · obtain ⟨ring, accessed, rfl⟩ := Option.map_eq_some_iff.mp stepped
    exact ⟨a, by rw [accessed, keeps]⟩
  · cases stepped

/-- A step of a thread that holds a lock is an access, or leaves the buffer alone. -/
theorem lockedAccess_simulates {l : LockedAccess α} {m m' : AdRingBufferMRMW α}
    (stepped : lockedAccess l m = some m') :
    m'.ring = m.ring ∨ ∃ a, access a m.ring = some m'.ring := by
  cases l with
  | lockWrite t x => exact .inr (guarded_access (fun _ => rfl) stepped)
  | push t next => exact .inr (guarded_access (fun _ => rfl) stepped)
  | unlockWrite t =>
    simp only [lockedAccess] at stepped
    split at stepped
    · split at stepped
      · obtain rfl := Option.some.inj stepped
        exact Or.inl rfl
      · cases stepped
    · cases stepped
  | lockRead t => exact .inr (guarded_access (fun _ => rfl) stepped)
  | pop t next => exact .inr (guarded_access (fun _ => rfl) stepped)
  | unlockRead t =>
    simp only [lockedAccess] at stepped
    split at stepped
    · split at stepped
      · obtain rfl := Option.some.inj stepped
        exact Or.inl rfl
      · cases stepped
    · cases stepped

/-- The number of elements in the buffer, with one that is stored but not yet pushed. -/
def Ring.elements (s : Ring α) : Nat :=
  s.pushed.length - s.popped.length + match s.writer with
    | .stored _ => 1
    | _ => 0

/-- First in, first out, in a bounded space. -/
structure Fifo (n : Nat) (s : Ring α) : Prop where
  order : s.popped <+: s.pushed
  elements : s.elements ≤ n - 1
  size : s.buffer.count = s.pushed.length - s.popped.length

theorem Holds.fifo (holds : Holds n s) : Fifo n s := by
  have le := holds.le
  have room := holds.room
  refine ⟨holds.order, ?_, ?_⟩
  · have fits := holds.writer
    unfold Ring.elements
    cases writer : s.writer with
    | stored x =>
      simp only [writer, Writing.Fits] at fits ⊢
      omega
    | _ => simp only; omega
  · rw [AdRingBufferBase.count, holds.reads, holds.writes, holds.size]
    exact positions_apart le (by omega)

variable [Inhabited α]

/-- In every state of every interleaving, of one reader and one writer and of many, the
elements popped are a prefix of those pushed and the buffer is never overfull. -/
theorem ring_fifo (two : 2 ≤ n) :
    (∀ accesses : List (Access α), ∀ s ∈ StepRuns.states access (.fresh n) accesses, Fifo n s) ∧
      ∀ accesses : List (LockedAccess α),
        ∀ m ∈ StepRuns.states lockedAccess (.fresh n) accesses, Fifo n m.ring := by
  constructor
  · intro accesses s reached
    have keep : ∀ a s after, Holds n s → access a s = some after → Holds n (α := α) after :=
      fun a s after holds stepped => holds_access holds stepped
    exact (StepRuns.states_keep keep (holds_fresh two) accesses s reached).fifo
  · intro accesses m reached
    have keep : ∀ l (m m' : AdRingBufferMRMW α), Holds n m.ring →
        lockedAccess l m = some m' → Holds n m'.ring := by
      intro l m m' holds stepped
      rcases lockedAccess_simulates stepped with same | ⟨a, accessed⟩
      · rw [same]
        exact holds
      · exact holds_access holds accessed
    exact (StepRuns.states_keep keep (holds_fresh two) accesses m reached).fifo

/-- One element pushed, a second one stored. -/
def halfPushed : List (Access Nat) :=
  [.beginPush 7, .testFull, .store, .advanceWrite, .beginPush 8, .testFull, .store]

theorem halfPushed_fifo : Fifo 3
    { buffer := { ring := [7, 8, 0], size := 3, readPosition := 0, writePosition := 1 },
      writer := .stored 8, pushed := [7] } :=
  (ring_fifo (by decide)).1 halfPushed _
    (.tail _ (.tail _ (.tail _ (.tail _ (.tail _ (.tail _ (.tail _ (.head _))))))))

omit [Inhabited α]

/-- The buffer as a queue with a bound. -/
def tryPush (n : Nat) (queue : List α) (request : α) : Option (List α) :=
  if queue.length + 1 < n then some (queue ++ [request]) else none

def tryPop : List α → Option (α × List α)
  | [] => none
  | result :: queue => some (result, queue)

/-- The elements between the two positions. -/
def Ring.contents (s : Ring α) : List α := s.pushed.drop s.popped.length

/-- A call of `tryPush` that nothing interrupts adds to the queue, or finds it full. -/
theorem tryPush_call (holds : Holds n s) (idle : s.writer = .idle) (x : α) :
    match tryPush n s.contents x with
    | some queue => ∃ after, (access (.beginPush x) s >>= access .testFull >>= access .store >>=
        access .advanceWrite) = some after ∧ after.contents = queue ∧ after.reader = s.reader
    | none => ∃ after, (access (.beginPush x) s >>= access .testFull) = some after ∧
        after.contents = s.contents ∧ after.writer = .idle ∧ after.reader = s.reader := by
  have le := holds.le
  have room := holds.room
  have length : s.contents.length = s.pushed.length - s.popped.length := List.length_drop
  have begun : access (.beginPush x) s = some { s with writer := .begun x } := by
    simp [access, idle]
  rw [begun, tryPush, length]
  by_cases short : s.pushed.length - s.popped.length + 1 < n
  · have vacant : s.buffer.full = false := by
      have away := mt holds.full_iff.mp (by omega)
      simpa using away
    rw [if_pos short]
    refine ⟨{ s with
        buffer := (s.buffer.store x).advanceWrite
        writer := .idle
        pushed := s.pushed ++ [x] }, by simp [access, vacant], ?_, rfl⟩
    exact List.drop_append_of_le_length le
  · have full : s.buffer.full = true := holds.full_iff.mpr (by omega)
    rw [if_neg short]
    exact ⟨{ s with writer := .idle }, by simp [access, full], rfl, rfl, rfl⟩

theorem tryPop_call (holds : Holds n s) (idle : s.reader = .idle) :
    match tryPop s.contents with
    | some (result, queue) => ∃ after,
        (access .beginPop s >>= access .testEmpty >>= access .load >>=
        access .advanceRead) = some after ∧ after.popped = s.popped ++ [result] ∧
          after.contents = queue ∧ after.writer = s.writer
    | none => ∃ after, (access .beginPop s >>= access .testEmpty) = some after ∧
        after.contents = s.contents ∧ after.reader = .idle ∧ after.writer = s.writer := by
  have le := holds.le
  have begun : access .beginPop s = some { s with reader := .begun } := by
    simp [access, idle]
  rw [begun]
  by_cases none : s.popped.length = s.pushed.length
  · have empty : s.buffer.empty = true := holds.empty_iff.mpr none
    have nil : s.contents = [] := List.drop_eq_nil_of_le (by omega)
    rw [nil]
    exact ⟨{ s with reader := .idle }, by simp [access, empty], nil, rfl, rfl⟩
  · have holding : s.buffer.empty = false := by
      have away := mt holds.empty_iff.mp none
      simpa using away
    have below : s.popped.length < s.pushed.length := by omega
    have first : s.contents = s.pushed[s.popped.length] :: s.pushed.drop (s.popped.length + 1) :=
      List.drop_eq_getElem_cons below
    have loaded : s.buffer.load = some s.pushed[s.popped.length] := by
      rw [AdRingBufferBase.load, holds.reads, holds.slots _ (Nat.le_refl _) below]
      exact List.getElem?_eq_getElem below
    rw [first]
    refine ⟨{ s with
        buffer := s.buffer.advanceRead
        reader := .idle
        popped := s.popped ++ [s.pushed[s.popped.length]] },
      by simp [access, holding, loaded], rfl, ?_, rfl⟩
    simp [Ring.contents]

end RingBuffer
