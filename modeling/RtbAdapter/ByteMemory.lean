import RtbAdapter.ByteWords

/-!
# Flat memory with a write log

A memory is total: an address nobody wrote holds an unspecified byte. An
operation on a buffer is described by the list of its writes, so that its
effect and its footprint can be stated separately.
-/

namespace ByteMemory

open ByteWords

/-- Addresses are relative to the start of a buffer and may leave it. -/
abbrev Memory := Int → UInt8

/-- One contiguous write. -/
structure Write where
  start : Int
  data : Bytes
  deriving DecidableEq

def readBytes (m : Memory) (p : Int) (n : Nat) : Bytes :=
  (List.range n).map fun i : Nat => m (p + i)

def put (m : Memory) (w : Write) : Memory := fun a =>
  if w.start ≤ a ∧ a < w.start + w.data.length then w.data.getD (a - w.start).toNat 0 else m a

/-- The memory left by a sequence of writes, first write first. -/
def replay (m : Memory) (log : List Write) : Memory := log.foldl put m

/-- Every byte of the write lies in `[0, size)`. -/
def Write.Inside (size : Int) (w : Write) : Prop :=
  0 ≤ w.start ∧ w.start + w.data.length ≤ size

instance (size : Int) (w : Write) : Decidable (w.Inside size) :=
  inferInstanceAs (Decidable (_ ∧ _))

/-- Two memories agree on `[0, size)`. -/
def AgreeBelow (size : Int) (m m' : Memory) : Prop := ∀ a, 0 ≤ a → a < size → m a = m' a

@[simp] theorem readBytes_length (m : Memory) (p : Int) (n : Nat) :
    (readBytes m p n).length = n := by
  simp [readBytes]

@[simp] theorem readBytes_zero (m : Memory) (p : Int) : readBytes m p 0 = [] := rfl

theorem readBytes_one (m : Memory) (p : Int) : readBytes m p 1 = [m p] := by
  simp [readBytes]

theorem readBytes_congr {m m' : Memory} {p p' : Int} {n : Nat}
    (same : ∀ i : Nat, i < n → m (p + i) = m' (p' + i)) :
    readBytes m p n = readBytes m' p' n := by
  apply List.map_congr_left
  intro i hi
  exact same i (List.mem_range.mp hi)

theorem readBytes_add (m : Memory) (p : Int) (a b : Nat) :
    readBytes m p (a + b) = readBytes m p a ++ readBytes m (p + a) b := by
  simp only [readBytes, List.range_add, List.map_append, List.map_map]
  congr 1
  apply List.map_congr_left
  intro i _
  simp [add_assoc]

/-- Bytes that read as two parts hold each part in its place. -/
theorem readBytes_append_iff {m : Memory} {p : Int} {a b : Bytes} :
    readBytes m p (a ++ b).length = a ++ b ↔
      readBytes m p a.length = a ∧ readBytes m (p + a.length) b.length = b := by
  rw [List.length_append, readBytes_add]
  exact ⟨fun h => List.append_inj h (readBytes_length m p a.length),
    fun ⟨first, second⟩ => by rw [first, second]⟩

theorem readBytes_cons_iff {m : Memory} {p : Int} {b : UInt8} {bs : Bytes} :
    readBytes m p (b :: bs).length = b :: bs ↔
      m p = b ∧ readBytes m (p + 1) bs.length = bs := by
  have split := readBytes_append_iff (m := m) (p := p) (a := [b]) (b := bs)
  simp only [List.singleton_append, List.length_singleton, readBytes_one, List.cons.injEq,
    and_true, Nat.cast_one] at split
  exact split

theorem readBytes_take (m : Memory) (p : Int) {a n : Nat} (short : a ≤ n) :
    readBytes m p a = (readBytes m p n).take a := by
  obtain ⟨b, rfl⟩ := Nat.exists_eq_add_of_le short
  rw [readBytes_add, List.take_left' (readBytes_length m p a)]

theorem readBytes_agree {size : Int} {m m' : Memory} (agree : AgreeBelow size m m')
    {p : Int} {n : Nat} (lower : 0 ≤ p) (upper : p + n ≤ size) :
    readBytes m p n = readBytes m' p n :=
  readBytes_congr fun i hi => agree _ (by omega) (by omega)

theorem readBytes_put_self (m : Memory) (w : Write) :
    readBytes (put m w) w.start w.data.length = w.data := by
  apply List.ext_getElem
  · simp
  · intro i hi hd
    simp only [readBytes, List.getElem_map, List.getElem_range, put]
    rw [if_pos ⟨by omega, by omega⟩]
    have offset : (w.start + (i : Int) - w.start).toNat = i := by omega
    rw [offset, List.getD_eq_getElem?_getD, List.getElem?_eq_getElem hd, Option.getD_some]

theorem readBytes_put_disjoint (m : Memory) (w : Write) (p : Int) (n : Nat)
    (apart : p + n ≤ w.start ∨ w.start + w.data.length ≤ p) :
    readBytes (put m w) p n = readBytes m p n := by
  apply readBytes_congr
  intro i hi
  simp only [put]
  rw [if_neg (by omega)]

@[simp] theorem replay_nil (m : Memory) : replay m [] = m := rfl

@[simp] theorem replay_cons (m : Memory) (w : Write) (log : List Write) :
    replay m (w :: log) = replay (put m w) log := rfl

@[simp] theorem replay_append (m : Memory) (log log' : List Write) :
    replay m (log ++ log') = replay (replay m log) log' := by
  simp [replay]

end ByteMemory
