import Mathlib.Data.List.Rotate
import Mathlib.Tactic
import Std.Data.TreeMap.Lemmas
import RtbAdapter.ByteWords
import RtbAdapter.InverseMaps
import RtbAdapter.SessionBuffer

/-!
# The loop buffer

A map from pointers to positions, and the vector of the pointers. A deletion numbers the
pointers that are left again, in the order of the map. The buffer as a list of sessions is
what the adapter and the exchange work with.
-/

namespace LoopBuffer

open Std ByteWords InverseMaps

/-- A pointer of 64 bits. -/
def null : UInt64 := 0

structure AdLRBuffer where
  mBuffer : TreeMap UInt64 UInt32
  vBuffer : List UInt64

namespace AdLRBuffer

def fresh : AdLRBuffer := ⟨∅, []⟩

/-- A pointer gets the next position. -/
def enter (b : AdLRBuffer) (pData : UInt64) : AdLRBuffer :=
  ⟨b.mBuffer.insert pData (UInt32.ofNat b.vBuffer.length), b.vBuffer ++ [pData]⟩

def push (b : AdLRBuffer) (pData : UInt64) : AdLRBuffer :=
  if pData ∈ b.mBuffer then b else b.enter pData

def del (b : AdLRBuffer) (pData : UInt64) : AdLRBuffer :=
  if pData ∈ b.mBuffer then
    (b.mBuffer.erase pData).keys.foldl enter ⟨b.mBuffer.erase pData, []⟩
  else b

/-- A size of a multiple of 2^32 is a division by zero. -/
def find (b : AdLRBuffer) (id : UInt32) : Option UInt64 :=
  if b.vBuffer = [] then some null
  else if UInt32.ofNat b.vBuffer.length = 0 then none
  else b.vBuffer[(id % UInt32.ofNat b.vBuffer.length).toNat]?

/-- The number of pointers, as an `int`. -/
def size (b : AdLRBuffer) : Int := toInt32 b.mBuffer.size

end AdLRBuffer

inductive Call where
  | push (pData : UInt64)
  | del (pData : UInt64)

def call (b : AdLRBuffer) : Call → AdLRBuffer
  | .push pData => b.push pData
  | .del pData => b.del pData

def run (calls : List Call) : AdLRBuffer := calls.foldl call .fresh

/-- Each pointer is stored under its position, as far as that fits. -/
structure Numbered (b : AdLRBuffer) : Prop where
  nodup : b.vBuffer.Nodup
  members : ∀ p, p ∈ b.vBuffer ↔ p ∈ b.mBuffer
  stored : ∀ (i : Nat) p, b.vBuffer[i]? = some p → b.mBuffer[p]? = some (UInt32.ofNat i)

variable {b : AdLRBuffer} {pData : UInt64}

theorem numbered_fresh : Numbered .fresh where
  nodup := List.nodup_nil
  members p := by simp [AdLRBuffer.fresh]
  stored i p found := by simp [AdLRBuffer.fresh] at found

/-- A new pointer leaves the others where they are. -/
theorem enter_stored (new : pData ∉ b.vBuffer)
    (stored : ∀ (i : Nat) p, b.vBuffer[i]? = some p → b.mBuffer[p]? = some (UInt32.ofNat i)) :
    ∀ (i : Nat) p, (b.enter pData).vBuffer[i]? = some p →
      (b.enter pData).mBuffer[p]? = some (UInt32.ofNat i) := by
  intro i p found
  rw [AdLRBuffer.enter] at found ⊢
  dsimp only at found ⊢
  rcases Nat.lt_trichotomy i b.vBuffer.length with before | rfl | behind
  · rw [List.getElem?_append_left before] at found
    have other : pData ≠ p := by
      rintro rfl
      exact new (List.mem_of_getElem? found)
    rw [getElem?_insert_ne other]
    exact stored i p found
  · rw [List.getElem?_concat_length] at found
    obtain rfl := Option.some.inj found
    exact TreeMap.getElem?_insert_self
  · rw [List.getElem?_eq_none (by rw [List.length_append, List.length_singleton]; omega)] at found
    cases found

theorem Numbered.enter (numbered : Numbered b) (new : pData ∉ b.mBuffer) :
    Numbered (b.enter pData) := by
  have apart : pData ∉ b.vBuffer := fun inside => new ((numbered.members pData).mp inside)
  refine ⟨?_, fun p => ?_, enter_stored apart numbered.stored⟩
  · exact List.nodup_append.mpr ⟨numbered.nodup, List.nodup_singleton _, fun p inside q last =>
      by rintro rfl; exact apart (List.mem_singleton.mp last ▸ inside)⟩
  · rw [AdLRBuffer.enter, mem_insert_iff, List.mem_append, List.mem_singleton, numbered.members,
      or_comm]

/-- Pointers that are entered one after the other stand in this order. -/
theorem foldl_enter (keys : List UInt64) (apart : keys.Nodup)
    (new : ∀ p ∈ keys, p ∉ b.vBuffer)
    (stored : ∀ (i : Nat) p, b.vBuffer[i]? = some p → b.mBuffer[p]? = some (UInt32.ofNat i)) :
    (keys.foldl AdLRBuffer.enter b).vBuffer = b.vBuffer ++ keys ∧
      (∀ p, p ∈ (keys.foldl AdLRBuffer.enter b).mBuffer ↔ p ∈ keys ∨ p ∈ b.mBuffer) ∧
      ∀ (i : Nat) p, (keys.foldl AdLRBuffer.enter b).vBuffer[i]? = some p →
        (keys.foldl AdLRBuffer.enter b).mBuffer[p]? = some (UInt32.ofNat i) := by
  induction keys generalizing b with
  | nil => exact ⟨(List.append_nil _).symm, fun p => by simp, stored⟩
  | cons key keys ih =>
    rw [List.nodup_cons] at apart
    rw [List.forall_mem_cons] at new
    have later : ∀ p ∈ keys, p ∉ (b.enter key).vBuffer := by
      intro p inside
      rw [AdLRBuffer.enter, List.mem_append, List.mem_singleton, not_or]
      exact ⟨new.2 p inside, fun same => apart.1 (same ▸ inside)⟩
    obtain ⟨vector, members, numbers⟩ := ih apart.2 later (enter_stored new.1 stored)
    refine ⟨?_, fun p => ?_, numbers⟩
    · rw [List.foldl_cons, vector, AdLRBuffer.enter, List.append_assoc, List.singleton_append]
    · rw [List.foldl_cons, members, AdLRBuffer.enter, mem_insert_iff, List.mem_cons, ← or_assoc,
        or_comm (a := p ∈ keys)]

/-- What a deletion leaves in the vector. -/
theorem del_vector (inside : pData ∈ b.mBuffer) :
    (b.del pData).vBuffer = (b.mBuffer.erase pData).keys := by
  rw [AdLRBuffer.del, if_pos inside]
  exact (foldl_enter _ TreeMap.nodup_keys (fun _ _ => List.not_mem_nil)
    (fun i p found => by simp at found)).1

theorem Numbered.del (numbered : Numbered b) : Numbered (b.del pData) := by
  by_cases inside : pData ∈ b.mBuffer
  · obtain ⟨vector, members, numbers⟩ := foldl_enter
      (b := ⟨b.mBuffer.erase pData, []⟩) (b.mBuffer.erase pData).keys TreeMap.nodup_keys
      (fun _ _ => List.not_mem_nil) (fun i p found => by simp at found)
    rw [AdLRBuffer.del, if_pos inside]
    refine ⟨?_, fun p => ?_, numbers⟩
    · rw [vector, List.nil_append]
      exact TreeMap.nodup_keys
    · rw [vector, List.nil_append, members, TreeMap.mem_keys, or_self]
  · rwa [AdLRBuffer.del, if_neg inside]

theorem Numbered.push (numbered : Numbered b) : Numbered (b.push pData) := by
  rw [AdLRBuffer.push]
  split
  · exact numbered
  · next new => exact numbered.enter new

/-- Every run keeps the numbering. -/
theorem numbered_run (calls : List Call) : Numbered (run calls) := by
  have kept : ∀ b, Numbered b → Numbered (calls.foldl call b) := by
    induction calls with
    | nil => exact fun b numbered => numbered
    | cons c calls ih =>
      intro b numbered
      refine ih (call b c) ?_
      cases c with
      | push pData => exact numbered.push
      | del pData => exact numbered.del
  exact kept .fresh numbered_fresh

/-- Each pointer is in the vector once, and its index is its position. -/
structure Indexed (b : AdLRBuffer) : Prop where
  nodup : b.vBuffer.Nodup
  members : ∀ p, p ∈ b.vBuffer ↔ p ∈ b.mBuffer
  position : ∀ (i : Nat) p, b.vBuffer[i]? = some p → b.mBuffer[p]?.map UInt32.toNat = some i

/-- As many numbers in a row as there are pointers find each of them once. -/
def Covers (b : AdLRBuffer) : Prop :=
  ∀ id : UInt32, 0 < b.size → id.toNat + b.size ≤ 2 ^ 32 →
    ((List.range b.size.toNat).map fun j => b.find (id + UInt32.ofNat j)).Perm
      (b.vBuffer.map some)

/-- NULL is found in the empty buffer only. -/
def NullWhenEmpty (b : AdLRBuffer) : Prop := ∀ id, b.find id = some null → b.vBuffer = []

theorem Numbered.indexed (numbered : Numbered b) (few : b.vBuffer.length < 2 ^ 32) :
    Indexed b where
  nodup := numbered.nodup
  members := numbered.members
  position i p found := by
    have below := (List.getElem?_eq_some_iff.mp found).1
    rw [numbered.stored i p found, Option.map_some, UInt32.toNat_ofNat_of_lt' (by
      rw [UInt32.size]; omega)]

theorem Numbered.length_eq (numbered : Numbered b) : b.mBuffer.size = b.vBuffer.length := by
  have same : b.mBuffer.keys.Perm b.vBuffer :=
    (List.perm_ext_iff_of_nodup TreeMap.nodup_keys numbered.nodup).mpr fun p => by
      rw [TreeMap.mem_keys, numbered.members]
  rw [← TreeMap.length_keys, same.length_eq]

/-- A number finds the pointer at its remainder. -/
theorem find_eq (few : b.vBuffer.length < 2 ^ 32) (some' : b.vBuffer ≠ []) (id : UInt32) :
    b.find id = b.vBuffer[id.toNat % b.vBuffer.length]? := by
  have positive : 0 < b.vBuffer.length := List.length_pos_iff.mpr some'
  have whole : (UInt32.ofNat b.vBuffer.length).toNat = b.vBuffer.length :=
    UInt32.toNat_ofNat_of_lt' (by rw [UInt32.size]; omega)
  have divides : UInt32.ofNat b.vBuffer.length ≠ 0 := by
    rw [ne_eq, ← UInt32.toNat_inj, whole]
    exact positive.ne'
  rw [AdLRBuffer.find, if_neg some', if_neg divides, UInt32.toNat_mod, whole]

theorem Numbered.covers (numbered : Numbered b) (few : b.vBuffer.length < 2 ^ 32) : Covers b := by
  intro id positive room
  -- a size that is a positive `int` is the number of pointers
  have whole : b.size = b.vBuffer.length := by
    obtain ⟨k, hk⟩ := toInt32_sub_dvd b.mBuffer.size
    have range := toInt32_range b.mBuffer.size
    rw [AdLRBuffer.size, numbered.length_eq] at positive ⊢
    rw [numbered.length_eq] at hk range
    omega
  rw [whole] at positive room ⊢
  have some' : b.vBuffer ≠ [] := List.length_pos_iff.mp (Int.natCast_pos.mp positive)
  have rotated : ((List.range b.vBuffer.length).map fun j => b.find (id + UInt32.ofNat j)) =
      (b.vBuffer.rotate id.toNat).map some := by
    refine List.ext_getElem (by simp) fun j inside inside' => ?_
    have below : j < b.vBuffer.length := by simpa using inside
    have sum : (id + UInt32.ofNat j).toNat = j + id.toNat := by
      rw [UInt32.toNat_add, UInt32.toNat_ofNat_of_lt' (by rw [UInt32.size]; omega)]
      omega
    rw [List.getElem_map, List.getElem_map, List.getElem_range, List.getElem_rotate,
      find_eq few some', sum, List.getElem?_eq_getElem]
  rw [Int.toNat_natCast, rotated]
  exact (List.rotate_perm _ _).map some

theorem nullWhenEmpty (few : b.vBuffer.length < 2 ^ 32) (pure : null ∉ b.vBuffer) :
    NullWhenEmpty b := by
  intro id found
  by_contra some'
  rw [find_eq few some'] at found
  exact pure (List.mem_of_getElem? found)

/-- **The loop buffer.** With fewer than 2^32 pointers, and none that is NULL itself for the
last part. -/
theorem loop_buffer (calls : List Call) (few : (run calls).vBuffer.length < 2 ^ 32) :
    Indexed (run calls) ∧ Covers (run calls) ∧
      (null ∉ (run calls).vBuffer → NullWhenEmpty (run calls)) :=
  ⟨(numbered_run calls).indexed few, (numbered_run calls).covers few, nullWhenEmpty few⟩

theorem three_calls : Indexed (run [.push 7, .push 5, .del 7]) ∧
    Covers (run [.push 7, .push 5, .del 7]) ∧
      (null ∉ (run [.push 7, .push 5, .del 7]).vBuffer →
        NullWhenEmpty (run [.push 7, .push 5, .del 7])) :=
  loop_buffer [.push 7, .push 5, .del 7] (by decide +kernel)

/-- Pointers that are pushed for the first time. -/
theorem push_new (pointers : List UInt64) (apart : pointers.Nodup)
    (new : ∀ p ∈ pointers, p ∉ b.mBuffer) :
    (pointers.map Call.push).foldl call b = pointers.foldl AdLRBuffer.enter b := by
  induction pointers generalizing b with
  | nil => rfl
  | cons p pointers ih =>
    rw [List.nodup_cons] at apart
    rw [List.forall_mem_cons] at new
    have pushed : call b (.push p) = b.enter p := by rw [call, AdLRBuffer.push, if_neg new.1]
    rw [List.map_cons, List.foldl_cons, List.foldl_cons, pushed]
    refine ih apart.2 fun q inside => ?_
    rw [AdLRBuffer.enter, mem_insert_iff, not_or]
    exact ⟨fun same => apart.1 (same ▸ inside), new.2 q inside⟩

/-- The pointers 1, 2, … are pushed. -/
def crowd (n : Nat) : List Call := ((List.range n).map fun i => UInt64.ofNat (i + 1)).map .push

theorem crowd_vector {n : Nat} (fits : n < 2 ^ 64) :
    (run (crowd n)).vBuffer = (List.range n).map fun i => UInt64.ofNat (i + 1) := by
  have apart : ((List.range n).map fun i => UInt64.ofNat (i + 1)).Nodup := by
    refine List.Nodup.map_on (fun i below j below' same => ?_) List.nodup_range
    rw [List.mem_range] at below below'
    have value := congrArg UInt64.toNat same
    rw [UInt64.toNat_ofNat_of_lt' (by rw [UInt64.size]; omega),
      UInt64.toNat_ofNat_of_lt' (by rw [UInt64.size]; omega)] at value
    omega
  rw [run, crowd, push_new _ apart fun p _ => by simp [AdLRBuffer.fresh],
    (foldl_enter _ apart (fun _ _ => List.not_mem_nil) fun i p found => by
      simp [AdLRBuffer.fresh] at found).1]
  rfl

/-- The index of the pointer behind 2^32 others is 0. -/
theorem crowd_unindexed {n : Nat} (many : 2 ^ 32 < n) (fits : n < 2 ^ 64) :
    ¬ Indexed (run (crowd n)) := by
  intro indexed
  have last : (run (crowd n)).vBuffer[2 ^ 32]? = some (UInt64.ofNat (2 ^ 32 + 1)) := by
    rw [crowd_vector fits, List.getElem?_map, List.getElem?_range many, Option.map_some]
  have position := indexed.position _ _ last
  rw [(numbered_run (crowd n)).stored _ _ last, Option.map_some] at position
  exact absurd (Option.some.inj position) (by decide)

/-- A pointer that is NULL is found, and the buffer is not empty. A pointer behind 2^32 others
has no index. -/
theorem null_found : ¬ NullWhenEmpty (run [.push null]) ∧ ¬ Indexed (run (crowd (2 ^ 32 + 1))) := by
  refine ⟨fun claim => ?_, crowd_unindexed (Nat.lt_succ_self _) (by decide)⟩
  exact absurd (claim 0 (by decide +kernel)) (by decide +kernel)

/-- The pointers as addresses. -/
def sessions (b : AdLRBuffer) : SessionBuffer.AdLRBuffer := b.vBuffer.map UInt64.toNat

theorem toNat_injective : Function.Injective UInt64.toNat := fun _ _ => UInt64.toNat_inj.mp

theorem mem_sessions : pData.toNat ∈ sessions b ↔ pData ∈ b.vBuffer := by
  rw [sessions, List.mem_map]
  constructor
  · rintro ⟨p, inside, same⟩
    exact UInt64.toNat_inj.mp same ▸ inside
  · exact fun inside => ⟨pData, inside, rfl⟩

theorem sessions_push (numbered : Numbered b) :
    sessions (b.push pData) = (sessions b).push pData.toNat := by
  by_cases inside : pData ∈ b.mBuffer
  · have among := mem_sessions.mpr ((numbered.members pData).mpr inside)
    rw [AdLRBuffer.push, if_pos inside, SessionBuffer.AdLRBuffer.push,
      if_pos (SessionBuffer.AdLRBuffer.check_iff.mpr among)]
  · have away : pData.toNat ∉ sessions b := fun among =>
      inside ((numbered.members pData).mp (mem_sessions.mp among))
    rw [AdLRBuffer.push, if_neg inside, SessionBuffer.AdLRBuffer.push, if_neg fun found =>
      away (SessionBuffer.AdLRBuffer.check_iff.mp found), sessions, AdLRBuffer.enter,
      List.map_append]
    rfl

/-- The order of the map is the order of the addresses. -/
theorem sessions_del (numbered : Numbered b) :
    sessions (b.del pData) = (sessions b).del pData.toNat := by
  by_cases inside : pData ∈ b.mBuffer
  · have among := mem_sessions.mpr ((numbered.members pData).mpr inside)
    rw [SessionBuffer.AdLRBuffer.del, if_pos (SessionBuffer.AdLRBuffer.check_iff.mpr among),
      sessions, del_vector inside]
    have left : ((b.mBuffer.erase pData).keys.map UInt64.toNat).Perm
        ((sessions b).erase pData.toNat) := by
      refine (List.perm_ext_iff_of_nodup (TreeMap.nodup_keys.map toNat_injective)
        ((numbered.nodup.map toNat_injective).erase _)).mpr fun q => ?_
      rw [(numbered.nodup.map toNat_injective).mem_erase_iff, List.mem_map, List.mem_map]
      constructor
      · rintro ⟨p, listed, rfl⟩
        rw [TreeMap.mem_keys, mem_erase_iff, ← numbered.members] at listed
        exact ⟨fun same => listed.1 (UInt64.toNat_inj.mp same), p, listed.2, rfl⟩
      · rintro ⟨other, p, listed, rfl⟩
        refine ⟨p, ?_, rfl⟩
        rw [TreeMap.mem_keys, mem_erase_iff, ← numbered.members]
        exact ⟨fun same => other (congrArg _ same), listed⟩
    have up : ((b.mBuffer.erase pData).keys.map UInt64.toNat).Pairwise (· ≤ ·) :=
      List.pairwise_map.mpr (TreeMap.ordered_keys.imp fun below =>
        (UInt64.lt_iff_toNat_lt.mp (Std.compare_eq_lt.mp below)).le)
    have up' : ((sessions b).erase pData.toNat).mergeSort.Pairwise (· ≤ ·) :=
      (List.pairwise_mergeSort (by simpa using fun a b c => Nat.le_trans)
        (by simpa using Nat.le_total) _).imp of_decide_eq_true
    exact (left.trans (List.mergeSort_perm _ _).symm).eq_of_pairwise
      (fun p q _ _ => Nat.le_antisymm) up up'
  · have away : pData.toNat ∉ sessions b := fun among =>
      inside ((numbered.members pData).mp (mem_sessions.mp among))
    rw [AdLRBuffer.del, if_neg inside, SessionBuffer.AdLRBuffer.del, if_neg fun found =>
      away (SessionBuffer.AdLRBuffer.check_iff.mp found)]

/-- The session for a running number is the one that the buffer finds. -/
theorem sessions_find (few : b.vBuffer.length < 2 ^ 32) (some' : b.vBuffer ≠ []) (id : UInt32) :
    (b.find id).map UInt64.toNat = (sessions b).find id.toNat := by
  rw [find_eq few some', SessionBuffer.AdLRBuffer.find, sessions, List.length_map,
    List.getElem?_map]

end LoopBuffer
