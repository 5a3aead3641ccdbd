import Mathlib.Tactic
import Std.Data.TreeMap.Lemmas
import RtbAdapter.HashRing
import RtbAdapter.InverseMaps
import RtbAdapter.NetProtocol
import RtbAdapter.StepRuns

/-!
# Sessions on the hash ring

Each data pointer gets a node, whose name is the number of pointers at that time. A
deletion lowers the number, so a name can come back while its first node is still there;
and a pointer that is added again leaves its first node on the ring for good.
-/

namespace ConHash

open Std ByteWords CText InverseMaps HashRing
open NetProtocol (adSuccess adFailure)

def null : UInt64 := 0

def hashReplica : Nat := 200

/-- A node is known by its place in the heap; no node is freed before `Clear`. -/
structure AdConHash where
  m_pHandle : Option ConhashS
  m_mNodes : TreeMap UInt64 Nat
  heap : List NodeS

/-- Which allocations of an `Add` succeed: the ring, the node, the entry of a replica. -/
structure Memory where
  handle : Bool
  node : Bool
  entry : Nat → Bool

/-- `bidding_%02d` of the number of nodes as an `int`. -/
def nodeName (size : Nat) : Bytes :=
  snprintf 32 (ascii "bidding_" ++
    if 0 ≤ toInt32 size then twoDigits (toInt32 size).toNat else decimal (toInt32 size))

namespace AdConHash

def fresh : AdConHash := ⟨none, ∅, []⟩

def newNode (h : AdConHash) (pData : UInt64) : NodeS :=
  conhashSetNode (nodeName h.m_mNodes.size) hashReplica pData

/-- The virtual nodes; none without a ring. -/
def ring (h : AdConHash) : TreeMap Int Nat :=
  match h.m_pHandle with
  | none => ∅
  | some handle => handle.vnodeTree

variable (hash : Bytes → Int)

def add (h : AdConHash) (pData : UInt64) (memory : Memory) : Int × AdConHash :=
  match h.m_pHandle.or (if memory.handle then some conhashInit else none) with
  | none => (adSuccess, h)
  | some handle =>
    if memory.node then
      let (_, handle, pNode) :=
        conhashAddNode hash memory.entry handle h.heap.length (h.newNode pData)
      (adSuccess, ⟨some handle, h.m_mNodes.insert pData h.heap.length, h.heap ++ [pNode]⟩)
    else (adSuccess, { h with m_pHandle := some handle })

def del (h : AdConHash) (pData : UInt64) : Int × AdConHash :=
  match h.m_pHandle with
  | none => (adFailure, h)
  | some handle =>
    match h.m_mNodes[pData]?.bind fun pNode => h.heap[pNode]?.map fun node => (pNode, node) with
    | none => (adSuccess, h)
    | some (pNode, node) =>
      let (_, handle, node) := conhashDelNode hash handle pNode node
      (adSuccess, ⟨some handle, h.m_mNodes.erase pData, h.heap.set pNode node⟩)

def check (h : AdConHash) (pData : UInt64) : Bool := h.m_mNodes.contains pData

def lookUp (h : AdConHash) (pKey : Option Bytes) : UInt64 :=
  match h.m_pHandle.bind fun handle => conhashLookup hash handle pKey with
  | none => null
  | some pNode => (h.heap[pNode]?.map NodeS.value).getD null

end AdConHash

inductive Call where
  | add (pData : UInt64) (memory : Memory)
  | del (pData : UInt64)

variable (hash : Bytes → Int)

def call (h : AdConHash) : Call → AdConHash
  | .add pData memory => (h.add hash pData memory).2
  | .del pData => (h.del hash pData).2

def step (c : Call) (h : AdConHash) : Option AdConHash := some (call hash h c)

/-- Recorded nodes belong to their pointers and are on the ring by their flag; entries of
the ring stand at a place of their node. -/
structure Sound (h : AdConHash) : Prop where
  handled : ∀ p ∈ h.m_mNodes, h.m_pHandle.isSome
  recorded : ∀ (p : UInt64) (a : Nat), h.m_mNodes[p]? = some a →
    ∃ node, h.heap[a]? = some node ∧ node.value = p ∧ node.flag = nodeFlagInit ||| nodeFlagIn
  placed : ∀ (k : Int) (a : Nat), h.ring[k]? = some a →
    ∃ node, h.heap[a]? = some node ∧ ∃ i < node.replicas, place hash node i = k

variable {hash} {h : AdConHash} {pData : UInt64} {memory : Memory}

theorem sound_fresh : Sound hash .fresh where
  handled p inside := by simp [AdConHash.fresh] at inside
  recorded p a found := by simp [AdConHash.fresh] at found
  placed k a found := by simp [AdConHash.fresh, AdConHash.ring] at found

/-- The memory for a node and for the ring that it needs. -/
def Granted (h : AdConHash) (memory : Memory) : Prop :=
  (h.m_pHandle.isSome ∨ memory.handle) ∧ memory.node

variable (pData) in
/-- Without memory nothing is seen to change. -/
theorem add_refused (refused : ¬ Granted h memory) :
    ∃ handle, (h.add hash pData memory).2 = { h with m_pHandle := handle } ∧
      ({ h with m_pHandle := handle } : AdConHash).ring = h.ring ∧
      (h.m_pHandle.isSome → handle.isSome) := by
  obtain ⟨_ | handle, m_mNodes, heap⟩ := h
  · by_cases given : memory.handle = true
    · have away : memory.node = false := by simpa [Granted, given] using refused
      exact ⟨some conhashInit, by simp [AdConHash.add, given, away], rfl, fun _ => rfl⟩
    · exact ⟨none, by simp [AdConHash.add, given], rfl, id⟩
  · have away : memory.node = false := by simpa [Granted] using refused
    exact ⟨some handle, by simp [AdConHash.add, away], rfl, id⟩

variable (hash pData) in
/-- A node takes the free places of its replicas. -/
theorem add_granted (granted : Granted h memory) :
    ∃ handle, (h.add hash pData memory).2 =
        ⟨some handle, h.m_mNodes.insert pData h.heap.length,
          h.heap ++ [(h.newNode pData).joined]⟩ ∧
      ∀ k : Int, handle.vnodeTree[k]? = h.ring[k]?.or
        (if ∃ i < hashReplica, memory.entry i ∧ place hash (h.newNode pData) i = k
          then some h.heap.length else none) := by
  obtain ⟨room, given⟩ := granted
  obtain ⟨c, handle, same⟩ : ∃ c, h.m_pHandle.or
      (if memory.handle then some conhashInit else none) = some c ∧ c.vnodeTree = h.ring := by
    rcases had : h.m_pHandle with _ | c
    · have handle : memory.handle = true := by simpa [had] using room
      exact ⟨conhashInit, by simp [handle], by simp [AdConHash.ring, had, conhashInit]⟩
    · exact ⟨c, by simp, by simp [AdConHash.ring, had]⟩
  refine ⟨addReplicas hash memory.entry h.heap.length (h.newNode pData) c, ?_, fun k => ?_⟩
  · rw [AdConHash.add, handle]
    have new : (h.newNode pData).flag = nodeFlagInit := rfl
    simp only [given, if_true, conhashAddNode_new new]
  · rw [addReplicas_getElem?, same]
    rfl

theorem del_away (away : h.m_mNodes[pData]? = none) : (h.del hash pData).2 = h := by
  rw [AdConHash.del]
  cases h.m_pHandle with
  | none => rfl
  | some handle => simp only [away, Option.bind_none]

/-- A deletion takes away the entries of the node, and no other. -/
theorem del_recorded (sound : Sound hash h) {a : Nat} (found : h.m_mNodes[pData]? = some a) :
    ∃ handle node, h.heap[a]? = some node ∧
      (h.del hash pData).2 = ⟨some handle, h.m_mNodes.erase pData,
        h.heap.set a { node with flag := nodeFlagInit }⟩ ∧
      ∀ k : Int, handle.vnodeTree[k]? = if h.ring[k]? = some a then none else h.ring[k]? := by
  obtain ⟨node, stored, _, flag⟩ := sound.recorded pData a found
  have inside : pData ∈ h.m_mNodes := TreeMap.mem_iff_isSome_getElem?.mpr (by simp [found])
  obtain ⟨c, handle⟩ := Option.isSome_iff_exists.mp (sound.handled pData inside)
  have same : c.vnodeTree = h.ring := by simp only [AdConHash.ring, handle]
  refine ⟨delReplicas hash a node c, node, stored, ?_, fun k => ?_⟩
  · rw [AdConHash.del, handle]
    simp only [found, Option.bind_some, stored, Option.map_some, conhashDelNode_in flag]
  · rw [delReplicas_getElem?, same]
    refine if_congr (and_iff_right_of_imp fun owned => ?_) rfl rfl
    obtain ⟨node', stored', i, below, here⟩ := sound.placed k a owned
    rw [stored] at stored'
    exact ⟨i, Option.some.inj stored' ▸ below, Option.some.inj stored' ▸ here⟩

/-- An entry is an old one, or it is new in a free place. -/
theorem or_some_iff {α : Type} {old : Option α} {p : Prop} [Decidable p] {a b : α} :
    old.or (if p then some b else none) = some a ↔ old = some a ∨ old = none ∧ p ∧ b = a := by
  cases old with
  | none => simp
  | some c => simp

theorem heap_append {a : Nat} {node new : NodeS} (stored : h.heap[a]? = some node) :
    (h.heap ++ [new])[a]? = some node := by
  obtain ⟨below, _⟩ := List.getElem?_eq_some_iff.mp stored
  rw [List.getElem?_append_left below, stored]

/-- An address that holds a node is not the next one. -/
theorem heap_ne {a : Nat} {node : NodeS} (stored : h.heap[a]? = some node) : a ≠ h.heap.length :=
  (List.getElem?_eq_some_iff.mp stored).1.ne

theorem Sound.add_refused (sound : Sound hash h) (refused : ¬ Granted h memory) :
    Sound hash (h.add hash pData memory).2 := by
  obtain ⟨handle, after, ring, has⟩ := ConHash.add_refused pData refused
  rw [after]
  refine ⟨fun p inside => has (sound.handled p inside), sound.recorded, fun k a found => ?_⟩
  rw [ring] at found
  exact sound.placed k a found

theorem Sound.add_granted (sound : Sound hash h) (granted : Granted h memory) :
    Sound hash (h.add hash pData memory).2 := by
  obtain ⟨handle, after, ring⟩ := ConHash.add_granted hash pData granted
  rw [after]
  constructor
  · exact fun _ _ => rfl
  · intro p a found
    rcases getElem?_insert_iff.mp found with ⟨rfl, rfl⟩ | ⟨_, found⟩
    · exact ⟨_, List.getElem?_concat_length, rfl, rfl⟩
    · obtain ⟨node, stored, kept⟩ := sound.recorded p a found
      exact ⟨node, heap_append stored, kept⟩
  · intro k a found
    rcases or_some_iff.mp ((ring k).symm.trans found) with old | ⟨_, ⟨i, below, _, here⟩, rfl⟩
    · obtain ⟨node, stored, stands⟩ := sound.placed k a old
      exact ⟨node, heap_append stored, stands⟩
    · exact ⟨_, List.getElem?_concat_length, i, below, here⟩

/-- Two pointers never share a node. -/
theorem Sound.node_ne (sound : Sound hash h) {p q : UInt64} {a b : Nat}
    (found : h.m_mNodes[p]? = some a) (found' : h.m_mNodes[q]? = some b) (other : p ≠ q) :
    a ≠ b := by
  rintro rfl
  obtain ⟨node, stored, value, _⟩ := sound.recorded p a found
  obtain ⟨node', stored', value', _⟩ := sound.recorded q a found'
  rw [stored] at stored'
  exact other (value.symm.trans (Option.some.inj stored' ▸ value'))

theorem Sound.del (sound : Sound hash h) : Sound hash (h.del hash pData).2 := by
  cases found : h.m_mNodes[pData]? with
  | none => rwa [del_away found]
  | some a =>
    obtain ⟨handle, node, stored, after, ring⟩ := del_recorded sound found
    rw [after]
    constructor
    · exact fun _ _ => rfl
    · intro p b found'
      obtain ⟨other, old⟩ := getElem?_erase_iff.mp found'
      obtain ⟨node', stored', kept⟩ := sound.recorded p b old
      refine ⟨node', ?_, kept⟩
      rw [List.getElem?_set_ne (sound.node_ne old found other).symm, stored']
    · intro k b found'
      have old : h.ring[k]? = some b := by
        have both := (ring k).symm.trans found'
        split_ifs at both
        exact both
      obtain ⟨node', stored', stands⟩ := sound.placed k b old
      by_cases same : a = b
      · subst same
        rw [stored] at stored'
        have reached : a < h.heap.length := (List.getElem?_eq_some_iff.mp stored).1
        exact ⟨_, List.getElem?_set_self reached, Option.some.inj stored' ▸ stands⟩
      · exact ⟨node', by rw [List.getElem?_set_ne same, stored'], stands⟩

theorem sound_step (c : Call) (h after : AdConHash) (sound : Sound hash h)
    (stepped : step hash c h = some after) : Sound hash after := by
  obtain rfl := Option.some.inj stepped
  cases c with
  | add pData memory =>
    by_cases granted : Granted h memory
    · exact sound.add_granted granted
    · exact sound.add_refused granted
  | del pData => exact sound.del

def OnRing (h : AdConHash) (a : Nat) : Prop := ∃ k : Int, h.ring[k]? = some a

/-- The nodes of the ring are the recorded ones. -/
def SameNodes (h : AdConHash) : Prop :=
  ∀ a : Nat, OnRing h a ↔ ∃ p : UInt64, h.m_mNodes[p]? = some a

/-- Each pointer has a node of its own. -/
def OnePerPointer (h : AdConHash) : Prop :=
  ∀ (p : UInt64) (a : Nat), h.m_mNodes[p]? = some a →
    ∃ node, h.heap[a]? = some node ∧ node.value = p

/-- Different pointers have nodes with different names. -/
def NamesDiffer (h : AdConHash) : Prop :=
  ∀ (p q : UInt64) (a b : Nat) (node node' : NodeS),
    h.m_mNodes[p]? = some a → h.m_mNodes[q]? = some b →
    h.heap[a]? = some node → h.heap[b]? = some node' → node.iden = node'.iden → p = q

variable (hash) in
structure Accurate (h : AdConHash) : Prop where
  nodes : SameNodes h
  live : OnePerPointer h
  names : NamesDiffer h
  lookUp : ∀ pKey, h.lookUp hash pKey ≠ null → h.check (h.lookUp hash pKey)

theorem Sound.live (sound : Sound hash h) : OnePerPointer h := by
  intro p a found
  obtain ⟨node, stored, value, _⟩ := sound.recorded p a found
  exact ⟨node, stored, value⟩

/-- A lookup finds the pointer of a node of the ring. -/
theorem lookUp_onRing {pKey : Option Bytes} (some' : h.lookUp hash pKey ≠ null) :
    ∃ a node, OnRing h a ∧ h.heap[a]? = some node ∧ h.lookUp hash pKey = node.value := by
  cases looked : h.m_pHandle.bind fun handle => conhashLookup hash handle pKey with
  | none => simp [AdConHash.lookUp, looked] at some'
  | some a =>
    obtain ⟨handle, had, found⟩ := Option.bind_eq_some_iff.mp looked
    have on : OnRing h a := by
      rw [OnRing, AdConHash.ring, had]
      exact conhashLookup_some found
    cases stored : h.heap[a]? with
    | none => simp [AdConHash.lookUp, looked, stored] at some'
    | some node => exact ⟨a, node, on, stored, by simp [AdConHash.lookUp, looked, stored]⟩

theorem accurate_iff (sound : Sound hash h) :
    Accurate hash h ↔ SameNodes h ∧ NamesDiffer h := by
  constructor
  · exact fun accurate => ⟨accurate.nodes, accurate.names⟩
  · rintro ⟨nodes, names⟩
    refine ⟨nodes, sound.live, names, fun pKey some' => ?_⟩
    obtain ⟨a, node, on, stored, same⟩ := lookUp_onRing some'
    obtain ⟨p, found⟩ := (nodes a).mp on
    obtain ⟨node', stored', value⟩ := sound.live p a found
    rw [stored] at stored'
    rw [same, Option.some.inj stored', value, AdConHash.check, TreeMap.contains_iff_mem,
      TreeMap.mem_iff_isSome_getElem?, found, Option.isSome_some]

variable (hash) in
/-- A pointer that is added has no node yet, no recorded node has the name of the new one,
and one of the replicas finds a free place and the memory for its entry. -/
def Welcome : Call → AdConHash → Prop
  | .add pData memory, h => Granted h memory →
      pData ∉ h.m_mNodes ∧
      (∀ (q : UInt64) (a : Nat) (node : NodeS), h.m_mNodes[q]? = some a →
        h.heap[a]? = some node → node.iden ≠ (h.newNode pData).iden) ∧
      ∃ i < hashReplica, memory.entry i ∧ place hash (h.newNode pData) i ∉ h.ring
  | .del _, _ => True

theorem recorded_ne (away : pData ∉ h.m_mNodes) {q : UInt64} {a : Nat}
    (found : h.m_mNodes[q]? = some a) : q ≠ pData := by
  rintro rfl
  exact away (TreeMap.mem_iff_isSome_getElem?.mpr (by simp [found]))

section Added

variable {handle : ConhashS} {new : NodeS} {reached : Int → Prop} [DecidablePred reached]

/-- An `Add` puts its node on the ring beside the others. -/
theorem sameNodes_added (sound : Sound hash h) (nodes : SameNodes h)
    (ring : ∀ k : Int, handle.vnodeTree[k]? =
      h.ring[k]?.or (if reached k then some h.heap.length else none)) :
    SameNodes ⟨some handle, h.m_mNodes.insert pData h.heap.length, h.heap ++ [new]⟩ ↔
      pData ∉ h.m_mNodes ∧ ∃ k, reached k ∧ k ∉ h.ring := by
  have onRing_iff (a : Nat) :
      OnRing ⟨some handle, h.m_mNodes.insert pData h.heap.length, h.heap ++ [new]⟩ a ↔
        OnRing h a ∨ a = h.heap.length ∧ ∃ k, reached k ∧ k ∉ h.ring := by
    constructor
    · rintro ⟨k, found⟩
      rcases or_some_iff.mp ((ring k).symm.trans found) with old | ⟨free, here, rfl⟩
      · exact .inl ⟨k, old⟩
      · exact .inr ⟨rfl, k, here, notMem_iff.mpr free⟩
    · rintro (⟨k, old⟩ | ⟨rfl, k, here, free⟩)
      · exact ⟨k, (ring k).trans (or_some_iff.mpr (.inl old))⟩
      · exact ⟨k, (ring k).trans (or_some_iff.mpr
          (.inr ⟨notMem_iff.mp free, here, rfl⟩))⟩
  constructor
  · intro same
    constructor
    · intro inside
      obtain ⟨b, found⟩ := Option.isSome_iff_exists.mp (TreeMap.mem_iff_isSome_getElem?.mp inside)
      obtain ⟨node, stored, _⟩ := sound.recorded pData b found
      -- the first node of the pointer is still on the ring
      obtain ⟨q, found'⟩ := (same b).mp ((onRing_iff b).mpr (.inl ((nodes b).mpr ⟨pData, found⟩)))
      rcases getElem?_insert_iff.mp found' with ⟨_, last⟩ | ⟨other, found'⟩
      · exact heap_ne stored last.symm
      · exact sound.node_ne found' found other rfl
    · have recorded : OnRing _ h.heap.length :=
        (same h.heap.length).mpr ⟨pData, getElem?_insert_iff.mpr (.inl ⟨rfl, rfl⟩)⟩
      rcases (onRing_iff h.heap.length).mp recorded with ⟨k, old⟩ | ⟨_, free⟩
      · obtain ⟨node, stored, _⟩ := sound.placed k _ old
        exact absurd rfl (heap_ne stored)
      · exact free
  · rintro ⟨away, free⟩ a
    rw [onRing_iff, nodes a]
    constructor
    · rintro (⟨q, found⟩ | ⟨rfl, _⟩)
      · exact ⟨q, getElem?_insert_iff.mpr (.inr ⟨recorded_ne away found, found⟩)⟩
      · exact ⟨pData, getElem?_insert_iff.mpr (.inl ⟨rfl, rfl⟩)⟩
    · rintro ⟨q, found⟩
      rcases getElem?_insert_iff.mp found with ⟨_, rfl⟩ | ⟨_, found⟩
      · exact .inr ⟨rfl, free⟩
      · exact .inl ⟨q, found⟩

/-- A new name is the only thing that the names of the nodes need. -/
theorem namesDiffer_added (sound : Sound hash h) (names : NamesDiffer h)
    (away : pData ∉ h.m_mNodes) :
    NamesDiffer ⟨some handle, h.m_mNodes.insert pData h.heap.length, h.heap ++ [new]⟩ ↔
      ∀ (q : UInt64) (a : Nat) (node : NodeS), h.m_mNodes[q]? = some a →
        h.heap[a]? = some node → node.iden ≠ new.iden := by
  constructor
  · intro differ q a node found stored same
    exact recorded_ne away found (differ q pData a h.heap.length node new
      (getElem?_insert_iff.mpr (.inr ⟨recorded_ne away found, found⟩))
      (getElem?_insert_iff.mpr (.inl ⟨rfl, rfl⟩)) (heap_append stored)
      List.getElem?_concat_length same)
  · intro fresh p q a b node node' found found' stored stored' same
    have old {r : UInt64} {c : Nat} {one : NodeS} (found : h.m_mNodes[r]? = some c)
        (stored : (h.heap ++ [new])[c]? = some one) : h.heap[c]? = some one := by
      obtain ⟨first, kept, _⟩ := sound.live r c found
      rw [← stored, heap_append kept, kept]
    rcases getElem?_insert_iff.mp found with ⟨rfl, rfl⟩ | ⟨_, one⟩
    · rw [List.getElem?_concat_length] at stored
      rcases getElem?_insert_iff.mp found' with ⟨rfl, _⟩ | ⟨_, two⟩
      · rfl
      · exact absurd (Option.some.inj stored ▸ same.symm) (fresh q b node' two (old two stored'))
    · rcases getElem?_insert_iff.mp found' with ⟨rfl, rfl⟩ | ⟨_, two⟩
      · rw [List.getElem?_concat_length] at stored'
        exact absurd (Option.some.inj stored' ▸ same) (fresh p a node one (old one stored))
      · exact names p q a b node node' one two (old one stored) (old two stored') same

end Added

/-- What an `Add` does to an accurate ring. -/
theorem add_exact (sound : Sound hash h) (good : Accurate hash h) (granted : Granted h memory) :
    Accurate hash (h.add hash pData memory).2 ↔
      pData ∉ h.m_mNodes ∧
      (∀ (q : UInt64) (a : Nat) (node : NodeS), h.m_mNodes[q]? = some a →
        h.heap[a]? = some node → node.iden ≠ (h.newNode pData).iden) ∧
      ∃ i < hashReplica, memory.entry i ∧ place hash (h.newNode pData) i ∉ h.ring := by
  rw [accurate_iff (sound.add_granted granted)]
  obtain ⟨handle, after, ring⟩ := ConHash.add_granted hash pData granted
  rw [after, sameNodes_added sound good.nodes ring, and_assoc]
  refine and_congr_right fun away => ?_
  rw [namesDiffer_added sound good.names away, and_comm]
  refine and_congr_right fun _ => ?_
  constructor
  · rintro ⟨k, ⟨i, below, given, rfl⟩, free⟩
    exact ⟨i, below, given, free⟩
  · rintro ⟨i, below, given, free⟩
    exact ⟨_, ⟨i, below, given, rfl⟩, free⟩

/-- A deletion keeps the ring accurate. -/
theorem del_accurate (sound : Sound hash h) (good : Accurate hash h) :
    Accurate hash (h.del hash pData).2 := by
  cases found : h.m_mNodes[pData]? with
  | none => rwa [del_away found]
  | some a =>
    rw [accurate_iff sound.del]
    obtain ⟨handle, node, stored, after, ring⟩ := del_recorded sound found
    rw [after]
    constructor
    · intro b
      have left : OnRing ⟨some handle, h.m_mNodes.erase pData,
          h.heap.set a { node with flag := nodeFlagInit }⟩ b ↔ OnRing h b ∧ b ≠ a := by
        constructor
        · rintro ⟨k, found'⟩
          have both := (ring k).symm.trans found'
          split_ifs at both with owned
          exact ⟨⟨k, both⟩, fun same => owned (same ▸ both)⟩
        · rintro ⟨⟨k, old⟩, other⟩
          refine ⟨k, (ring k).trans ?_⟩
          rw [old, if_neg fun same => other (Option.some.inj same)]
      rw [left, good.nodes b]
      constructor
      · rintro ⟨⟨q, found'⟩, other⟩
        refine ⟨q, getElem?_erase_iff.mpr ⟨?_, found'⟩⟩
        rintro rfl
        exact other (Option.some.inj (found'.symm.trans found))
      · rintro ⟨q, found'⟩
        obtain ⟨other, found'⟩ := getElem?_erase_iff.mp found'
        exact ⟨⟨q, found'⟩, sound.node_ne found' found other⟩
    · intro p q b c node node' found' found'' stored stored' same
      obtain ⟨other, one⟩ := getElem?_erase_iff.mp found'
      obtain ⟨other', two⟩ := getElem?_erase_iff.mp found''
      rw [List.getElem?_set_ne (sound.node_ne one found other).symm] at stored
      rw [List.getElem?_set_ne (sound.node_ne two found other').symm] at stored'
      exact good.names p q b c node node' one two stored stored' same

theorem add_refused_accurate (sound : Sound hash h) (good : Accurate hash h)
    (refused : ¬ Granted h memory) : Accurate hash (h.add hash pData memory).2 := by
  rw [accurate_iff (sound.add_refused refused)]
  obtain ⟨handle, after, ring, _⟩ := ConHash.add_refused pData refused
  rw [after]
  refine ⟨fun a => ?_, good.names⟩
  rw [OnRing, ring]
  exact good.nodes a

/-- In every state of a run the ring is accurate exactly when every added pointer is welcome. -/
theorem accurate_iff_welcome (hash : Bytes → Int) (calls : List Call) :
    (∀ t ∈ StepRuns.states (step hash) AdConHash.fresh calls, Accurate hash t) ↔
      StepRuns.Throughout (step hash) (Welcome hash) AdConHash.fresh calls := by
  refine StepRuns.states_iff_throughout sound_step ?_ sound_fresh ?_ calls
  · intro c h after sound good stepped
    obtain rfl := Option.some.inj stepped
    cases c with
    | add pData memory =>
      by_cases granted : Granted h memory
      · exact (add_exact sound good granted).trans (by simp [Welcome, granted])
      · exact iff_of_true (add_refused_accurate sound good granted)
          fun given => absurd given granted
    | del pData => exact iff_of_true (del_accurate sound good) trivial
  · rw [accurate_iff sound_fresh]
    refine ⟨fun a => ?_, fun p q a b node node' found => ?_⟩
    · simp [OnRing, AdConHash.fresh, AdConHash.ring]
    · simp [AdConHash.fresh] at found

def given : Memory := ⟨true, true, fun _ => true⟩

theorem granted_given (h : AdConHash) : Granted h given := ⟨.inr rfl, rfl⟩

theorem call_add_heap (h : AdConHash) :
    (call hash h (.add pData given)).heap = h.heap ++ [(h.newNode pData).joined] := by
  obtain ⟨handle, after, _⟩ := add_granted hash pData (granted_given h)
  rw [call, after]

/-- Whatever the hash function does, the first node of a pointer that is added twice stays on
the ring, and a deletion makes the next pointer take the name of the last. -/
theorem dead_session :
    (¬ ∃ hash, ∀ t ∈ StepRuns.states (step hash) AdConHash.fresh
      [.add 7 given, .add 7 given, .del 7], Accurate hash t) ∧
    ¬ ∃ hash, ∀ t ∈ StepRuns.states (step hash) AdConHash.fresh
      [.add 7 given, .add 5 given, .del 7, .add 9 given], Accurate hash t := by
  constructor
  · rintro ⟨hash, all⟩
    have one : Accurate hash (call hash .fresh (.add 7 given)) :=
      all _ (by simp [StepRuns.states, step])
    have two : Accurate hash (call hash (call hash .fresh (.add 7 given)) (.add 7 given)) :=
      all _ (by simp [StepRuns.states, step])
    have fresh : Sound hash .fresh := sound_fresh
    have sound := sound_step (.add 7 given) _ _ fresh rfl
    exact ((add_exact sound one (granted_given _)).mp two).1
      (TreeMap.mem_iff_isSome_getElem?.mpr rfl)
  · rintro ⟨hash, all⟩
    let one := call hash .fresh (.add 7 given)
    let two := call hash one (.add 5 given)
    let three := call hash two (.del 7)
    have good : Accurate hash three := all _ (by simp [StepRuns.states, step, one, two, three])
    have good' : Accurate hash (call hash three (.add 9 given)) :=
      all _ (by simp [StepRuns.states, step, one, two, three])
    have sound : Sound hash two :=
      sound_step (.add 5 given) _ _ (sound_step (.add 7 given) _ _ sound_fresh rfl) rfl
    have heap : two.heap = [((AdConHash.fresh).newNode 7).joined, (one.newNode 5).joined] := by
      rw [call_add_heap, call_add_heap]
      rfl
    have recorded : two.m_mNodes[(7 : UInt64)]? = some 0 := rfl
    obtain ⟨handle, node, _, after, _⟩ := del_recorded sound recorded
    have last : three.heap[1]? = some (one.newNode 5).joined := by
      rw [show three = _ from after, heap]
      rfl
    have same : (one.newNode 5).joined.iden = (three.newNode 9).iden := by
      simp only [NodeS.joined, AdConHash.newNode, conhashSetNode,
        show one.m_mNodes.size = 1 from rfl, show three.m_mNodes.size = 1 from rfl]
    exact ((add_exact (sound_step (.del 7) _ _ sound rfl) good (granted_given _)).mp good').2.1
      5 1 _ rfl last same

end ConHash
