import Mathlib.Tactic
import Std.Data.TreeMap.Lemmas
import RtbAdapter.CText
import RtbAdapter.InverseMaps

/-!
# A ring of hashed replicas

Each node of the ring stands at the places that its replicas hash to, unless
another node stands there already. A node that leaves takes away its own places
only, and a lookup finds the node at the next place. The hash function is any.
-/

namespace HashRing

open Std ByteWords CText InverseMaps

/-- `NODE_FLAG_INIT`: the node is initialized. -/
def nodeFlagInit : UInt32 := 1

/-- `NODE_FLAG_IN`: the node is added in the server. -/
def nodeFlagIn : UInt32 := 2

structure NodeS where
  iden : Bytes
  replicas : Nat
  flag : UInt32
  value : UInt64
  deriving DecidableEq

/-- The virtual nodes, by hash, with the nodes they point to. -/
structure ConhashS where
  vnodeTree : TreeMap Int Nat
  ivnodes : UInt32

def conhashInit : ConhashS := ⟨∅, 0⟩

def conhashSetNode (iden : Bytes) (replica : Nat) (value : UInt64) : NodeS where
  iden := (cStr iden).take 63
  replicas := replica
  flag := nodeFlagInit
  value := value

/-- `%03d`. -/
def threeDigits (n : Nat) : Bytes := if n < 10 then ascii "0" ++ twoDigits n else
  if n < 100 then ascii "0" ++ decimal n else decimal n

def node2string (node : NodeS) (replicaIdx : Nat) : Bytes :=
  snprintf 127 (node.iden ++ ascii "-" ++ threeDigits replicaIdx)

variable (hash : Bytes → Int)

/-- The place of a replica. -/
def place (node : NodeS) (i : Nat) : Int := hash (node2string node i)

/-- `entry` tells for which replicas the memory of an entry is given. -/
def addReplica (entry : Nat → Bool) (pNode : Nat) (node : NodeS) (c : ConhashS) (i : Nat) :
    ConhashS :=
  if place hash node i ∈ c.vnodeTree then c
  else if entry i then ⟨c.vnodeTree.insert (place hash node i) pNode, c.ivnodes + 1⟩
  else c

def addReplicas (entry : Nat → Bool) (pNode : Nat) (node : NodeS) (c : ConhashS) : ConhashS :=
  (List.range node.replicas).foldl (addReplica hash entry pNode node) c

def delReplica (pNode : Nat) (node : NodeS) (c : ConhashS) (i : Nat) : ConhashS :=
  if c.vnodeTree[place hash node i]? = some pNode then
    ⟨c.vnodeTree.erase (place hash node i), c.ivnodes - 1⟩
  else c

def delReplicas (pNode : Nat) (node : NodeS) (c : ConhashS) : ConhashS :=
  (List.range node.replicas).foldl (delReplica hash pNode node) c

/-- The result, the ring and the node with its new flags. -/
def conhashAddNode (entry : Nat → Bool) (c : ConhashS) (pNode : Nat) (node : NodeS) :
    Int × ConhashS × NodeS :=
  if node.flag &&& nodeFlagInit = 0 ∨ node.flag &&& nodeFlagIn ≠ 0 then (-1, c, node)
  else (0, addReplicas hash entry pNode node c, { node with flag := node.flag ||| nodeFlagIn })

def conhashDelNode (c : ConhashS) (pNode : Nat) (node : NodeS) : Int × ConhashS × NodeS :=
  if node.flag &&& nodeFlagInit = 0 ∨ node.flag &&& nodeFlagIn = 0 then (-1, c, node)
  else (0, delReplicas hash pNode node c, { node with flag := node.flag &&& ~~~nodeFlagIn })

/-- The entry at the next hash, or else at the least. -/
def rbtreeLookup (tree : TreeMap Int Nat) (key : Int) : Option (Int × Nat) :=
  (tree.toList.find? fun e => key ≤ e.1).or tree.toList.head?

/-- `none` for a key is the null pointer. -/
def conhashLookup (c : ConhashS) (object : Option Bytes) : Option Nat :=
  if c.ivnodes = 0 then none
  else object.bind fun object => (rbtreeLookup c.vnodeTree (hash (cStr object))).map Prod.snd

variable {hash} {entry : Nat → Bool} {pNode : Nat} {node : NodeS} {c : ConhashS} {k : Int} {a : Nat}

theorem addReplica_getElem? (i : Nat) :
    (addReplica hash entry pNode node c i).vnodeTree[k]? =
      c.vnodeTree[k]?.or (if entry i ∧ place hash node i = k then some pNode else none) := by
  rw [addReplica]
  by_cases taken : place hash node i ∈ c.vnodeTree
  · rw [if_pos taken]
    split_ifs with both
    · obtain ⟨_, rfl⟩ := both
      obtain ⟨b, found⟩ := Option.isSome_iff_exists.mp (TreeMap.mem_iff_isSome_getElem?.mp taken)
      rw [found, Option.some_or]
    · rw [Option.or_none]
  · rw [if_neg taken]
    by_cases given : entry i = true
    · rw [if_pos given]
      by_cases same : place hash node i = k
      · subst same
        simp [taken, given]
      · simp [getElem?_insert_ne same, same]
    · simp [given]

theorem foldl_addReplica (is : List Nat) :
    (is.foldl (addReplica hash entry pNode node) c).vnodeTree[k]? =
      c.vnodeTree[k]?.or
        (if ∃ i ∈ is, entry i ∧ place hash node i = k then some pNode else none) := by
  induction is generalizing c with
  | nil => simp
  | cons i is ih =>
    rw [List.foldl_cons, ih, addReplica_getElem?, Option.or_assoc]
    congr 1
    by_cases here : entry i ∧ place hash node i = k
    · simp [here]
    · simp [here]

/-- A free place goes to the node when one of its replicas hashes there. -/
theorem addReplicas_getElem? :
    (addReplicas hash entry pNode node c).vnodeTree[k]? =
      c.vnodeTree[k]?.or (if ∃ i < node.replicas, entry i ∧ place hash node i = k
        then some pNode else none) := by
  simp only [addReplicas, foldl_addReplica, List.mem_range]

theorem delReplica_getElem? (i : Nat) :
    (delReplica hash pNode node c i).vnodeTree[k]? =
      if place hash node i = k ∧ c.vnodeTree[k]? = some pNode then none else c.vnodeTree[k]? := by
  rw [delReplica]
  split_ifs with owned both both
  · rw [both.1, TreeMap.getElem?_erase_self]
  · rw [getElem?_erase_ne fun same => both ⟨same, same ▸ owned⟩]
  · obtain ⟨rfl, found⟩ := both
    exact absurd found owned
  · rfl

theorem foldl_delReplica (is : List Nat) :
    (is.foldl (delReplica hash pNode node) c).vnodeTree[k]? =
      if (∃ i ∈ is, place hash node i = k) ∧ c.vnodeTree[k]? = some pNode then none
      else c.vnodeTree[k]? := by
  induction is generalizing c with
  | nil => simp
  | cons i is ih =>
    rw [List.foldl_cons, ih, delReplica_getElem?]
    by_cases here : place hash node i = k
    · by_cases owned : c.vnodeTree[k]? = some pNode <;> simp [here, owned]
    · simp [here]

/-- The node leaves its own places, and no other. -/
theorem delReplicas_getElem? :
    (delReplicas hash pNode node c).vnodeTree[k]? =
      if (∃ i < node.replicas, place hash node i = k) ∧ c.vnodeTree[k]? = some pNode then none
      else c.vnodeTree[k]? := by
  simp only [delReplicas, foldl_delReplica, List.mem_range]

/-- A node that is added in the server. -/
def NodeS.joined (node : NodeS) : NodeS := { node with flag := nodeFlagInit ||| nodeFlagIn }

theorem conhashAddNode_new (new : node.flag = nodeFlagInit) :
    conhashAddNode hash entry c pNode node =
      (0, addReplicas hash entry pNode node c, node.joined) := by
  rw [conhashAddNode, new, if_neg (by decide), NodeS.joined]

theorem conhashDelNode_in (inside : node.flag = nodeFlagInit ||| nodeFlagIn) :
    conhashDelNode hash c pNode node =
      (0, delReplicas hash pNode node c, { node with flag := nodeFlagInit }) := by
  rw [conhashDelNode, inside, if_neg (by decide)]
  rfl

/-- A lookup finds a node of the ring. -/
theorem conhashLookup_some {object : Option Bytes} (found : conhashLookup hash c object = some a) :
    ∃ k : Int, c.vnodeTree[k]? = some a := by
  rw [conhashLookup] at found
  split_ifs at found
  obtain ⟨text, _, looked⟩ := Option.bind_eq_some_iff.mp found
  obtain ⟨⟨k, b⟩, entered, rfl⟩ := Option.map_eq_some_iff.mp looked
  have inside : (k, b) ∈ c.vnodeTree.toList := by
    rcases Option.or_eq_some_iff.mp entered with next | ⟨_, least⟩
    · exact List.mem_of_find?_eq_some next
    · exact List.mem_of_head? least
  exact ⟨k, TreeMap.mem_toList_iff_getElem?_eq_some.mp inside⟩

end HashRing
