import RtbAdapter.HashRing
import RtbAdapter.RbTreeOperations
import RtbAdapter.StepRuns

/-!
# The ring on the red-black tree

The same calls as on the ring of hashed replicas, with the virtual nodes in a red-black tree. A
ring of either kind gives the same results. The tree reads a freed node only after a node left the
ring with a single virtual node.
-/

namespace RbRing

open ByteWords CText InverseMaps HashRing RbTree ColouredTrees
open Std (TreeMap)
open StepRuns (Throughout)

structure ConhashS where
  vnodeTree : UtilRbtree
  ivnodes : UInt32

def conhashInit : ConhashS := ⟨utilRbtreeInit, 0⟩

variable (hash : Bytes → Int)

/-- `entry` tells for which replicas `__conhash_get_rbnode` is given its memory. -/
def addReplica (entry : Nat → Bool) (pNode : Nat) (node : NodeS) (c : ConhashS) (i : Nat) :
    Option ConhashS :=
  let hash := place hash node i
  if (utilRbtreeSearch hash c.vnodeTree.root []).isNone ∧ entry i then do
    let vnodeTree ← utilRbtreeInsert c.vnodeTree (hash, pNode)
    return ⟨vnodeTree, c.ivnodes + 1⟩
  else some c

/-- `__conhash_add_replicas` -/
def addReplicas (entry : Nat → Bool) (pNode : Nat) (node : NodeS) (c : ConhashS) :
    Option ConhashS :=
  (List.range node.replicas).foldlM (addReplica hash entry pNode node) c

def delReplica (pNode : Nat) (node : NodeS) (c : ConhashS) (i : Nat) : Option ConhashS :=
  let hash := place hash node i
  match utilRbtreeSearch hash c.vnodeTree.root [] with
  | some (.node color left vnode right, path) =>
    if vnode.1 = hash ∧ vnode.2 = pNode then do
      let vnodeTree ← utilRbtreeDelete c.vnodeTree (.node color left vnode right) path
      return ⟨vnodeTree, c.ivnodes - 1⟩
    else some c
  | _ => some c

/-- `__conhash_del_replicas` -/
def delReplicas (pNode : Nat) (node : NodeS) (c : ConhashS) : Option ConhashS :=
  (List.range node.replicas).foldlM (delReplica hash pNode node) c

/-- The result, the ring and the node with its new flags. -/
def conhashAddNode (entry : Nat → Bool) (c : ConhashS) (pNode : Nat) (node : NodeS) :
    Option (Int × ConhashS × NodeS) :=
  if node.flag &&& nodeFlagInit = 0 ∨ node.flag &&& nodeFlagIn ≠ 0 then some (-1, c, node)
  else do
    let c ← addReplicas hash entry pNode node c
    return (0, c, { node with flag := node.flag ||| nodeFlagIn })

def conhashDelNode (c : ConhashS) (pNode : Nat) (node : NodeS) : Option (Int × ConhashS × NodeS) :=
  if node.flag &&& nodeFlagInit = 0 ∨ node.flag &&& nodeFlagIn = 0 then some (-1, c, node)
  else do
    let c ← delReplicas hash pNode node c
    return (0, c, { node with flag := node.flag &&& ~~~nodeFlagIn })

def conhashLookup (c : ConhashS) (object : Option Bytes) : Option Nat :=
  if c.ivnodes = 0 then none
  else object.bind fun object =>
    (utilRbtreeLookup c.vnodeTree.root (hash (cStr object))).map Prod.snd

/-- The tree has the entries of the map, in the order of their keys. -/
structure Same (c : ConhashS) (m : HashRing.ConhashS) : Prop where
  kept : Kept c.vnodeTree
  entries : c.vnodeTree.root.toList = m.vnodeTree.toList
  ivnodes : c.ivnodes = m.ivnodes

/-- The next insertion may read the parent pointer of the root after the node was freed. -/
def Loose (c : ConhashS) : Prop := c.vnodeTree.stale = true ∧ c.vnodeTree.root ≠ .null

theorem same_init : Same conhashInit HashRing.conhashInit := ⟨kept_init, rfl, rfl⟩

variable {hash} {entry : Nat → Bool} {pNode : Nat} {node : NodeS} {c : ConhashS}
  {m : HashRing.ConhashS}

theorem ascending_toList (tree : TreeMap Int Nat) : Ascending tree.toList := by
  have ordered := TreeMap.ordered_keys_toList (t := tree)
  exact ordered.imp fun less => compare_lt_iff_lt.mp less

/-- Ascending entries are known by the keys that they hold. -/
theorem ascending_ext {one other : List Entry} (ascending : Ascending one)
    (ascending' : Ascending other) (same : ∀ e, e ∈ one ↔ e ∈ other) : one = other := by
  have : Std.Irrefl fun a b : Entry => a.1 < b.1 := ⟨fun a => lt_irrefl a.1⟩
  have : Std.Antisymm fun a b : Entry => a.1 < b.1 := ⟨fun a b less more => absurd less more.asymm⟩
  exact List.Pairwise.eq_of_mem_iff (r := fun a b : Entry => a.1 < b.1) ascending ascending' same

theorem mem_toList {tree : TreeMap Int Nat} {e : Entry} :
    e ∈ tree.toList ↔ tree[e.1]? = some e.2 :=
  TreeMap.mem_toList_iff_getElem?_eq_some

variable {tree : TreeMap Int Nat} {low high : List Entry} {k : Int} {a : Nat}

theorem toList_insert (absent : k ∉ tree) (whole : tree.toList = low ++ high)
    (ascending : Ascending (low ++ (k, a) :: high)) :
    (tree.insert k a).toList = low ++ (k, a) :: high := by
  refine ascending_ext (ascending_toList _) ascending fun ⟨j, b⟩ => ?_
  have old : (j, b) ∈ low ++ high ↔ tree[j]? = some b := by
    rw [← whole]
    exact mem_toList
  rw [mem_toList, List.mem_append, List.mem_cons, or_left_comm, ← List.mem_append, old]
  by_cases same : k = j
  · subst same
    simp [absent, eq_comm]
  · rw [getElem?_insert_ne same]
    simp [Ne.symm same]

theorem toList_erase (whole : tree.toList = low ++ (k, a) :: high) :
    (tree.erase k).toList = low ++ high := by
  have ascending := ascending_toList tree
  rw [whole] at ascending
  refine ascending_ext (ascending_toList _)
    (ascending.sublist ((List.sublist_cons_self _ high).append_left low)) fun ⟨j, b⟩ => ?_
  have old : tree[j]? = some b ↔ (j, b) ∈ low ++ (k, a) :: high := by
    rw [← whole]
    exact (mem_toList (e := (j, b))).symm
  rw [mem_toList]
  by_cases same : k = j
  · subst same
    obtain ⟨-, after, before⟩ := List.pairwise_append.mp ascending
    have apart : (k, b) ∉ low ++ high := by
      intro inside
      rcases List.mem_append.mp inside with inside | inside
      · exact lt_irrefl k (before _ inside (k, a) List.mem_cons_self)
      · exact lt_irrefl k ((List.pairwise_cons.mp after).1 _ inside)
    simp [apart]
  · rw [getElem?_erase_ne same, old]
    simp [Ne.symm same]

theorem search_isNone (same : Same c m) (k : Int) :
    utilRbtreeSearch k c.vnodeTree.root [] = none ↔ k ∉ m.vnodeTree := by
  rw [utilRbtreeSearch_none same.kept.ascending, same.entries, TreeMap.mem_iff_isSome_getElem?,
    Option.not_isSome_iff_eq_none]
  constructor
  · intro absent
    refine Option.eq_none_iff_forall_not_mem.mpr fun a found => ?_
    exact absent (k, a) (mem_toList.mpr found) rfl
  · rintro absent ⟨j, a⟩ inside rfl
    rw [mem_toList, absent] at inside
    cases inside

/-- A call that ends leaves the same rings, and what is read after a free was so before. -/
def Agree (c : ConhashS) (result : Option ConhashS) (m : HashRing.ConhashS) : Prop :=
  match result with
  | none => Loose c
  | some next => Same next m ∧ (Loose next → Loose c)

theorem addReplica_agree (same : Same c m) (i : Nat) :
    Agree c (addReplica hash entry pNode node c i)
      (HashRing.addReplica hash entry pNode node m i) := by
  rw [addReplica, HashRing.addReplica]
  have absent := search_isNone same (place hash node i)
  by_cases free : utilRbtreeSearch (place hash node i) c.vnodeTree.root [] = none
  · rw [if_neg (absent.mp free)]
    by_cases given : entry i = true
    · obtain ⟨tree, inserted, kept, loose, low, high, whole, order⟩ :=
        @utilRbtreeInsert_eq (place hash node i, pNode) _ same.kept
          ((utilRbtreeSearch_none same.kept.ascending).mp free)
      simp only [free, Option.isNone_none, given, and_self, if_true]
      by_cases reads : readsFreed c.vnodeTree (place hash node i) = true
      · rw [inserted, if_pos reads]
        rw [readsFreed, Bool.and_eq_true, Bool.and_eq_true, decide_eq_true_eq] at reads
        exact ⟨reads.1.2, reads.1.1⟩
      · rw [inserted, if_neg reads]
        refine ⟨⟨kept, ?_, congrArg (· + 1) same.ivnodes⟩, fun other => loose other.1⟩
        have ascending := kept.ascending
        rw [order] at ascending
        exact order.trans (toList_insert (absent.mp free) (same.entries ▸ whole) ascending).symm
    · simp only [given, and_false, if_false, reduceCtorEq]
      exact ⟨same, id⟩
  · have taken : place hash node i ∈ m.vnodeTree := not_not.mp fun other => free (absent.mpr other)
    rw [if_pos taken, if_neg fun both => free (Option.isNone_iff_eq_none.mp both.1)]
    exact ⟨same, id⟩

theorem addReplicas_agree (same : Same c m) :
    Agree c (addReplicas hash entry pNode node c)
      (HashRing.addReplicas hash entry pNode node m) := by
  rw [addReplicas, HashRing.addReplicas]
  induction List.range node.replicas generalizing c m with
  | nil => exact ⟨same, id⟩
  | cons i is ih =>
    have first := @addReplica_agree hash entry pNode node _ _ same i
    rw [List.foldlM_cons, List.foldl_cons]
    cases added : addReplica hash entry pNode node c i with
    | none =>
      rw [added] at first
      exact first
    | some next =>
      rw [added] at first
      have rest := ih first.1
      change Agree c (List.foldlM (addReplica hash entry pNode node) next is) _
      cases ended : List.foldlM (addReplica hash entry pNode node) next is with
      | none =>
        rw [ended] at rest
        exact first.2 rest
      | some last =>
        rw [ended] at rest
        exact ⟨rest.1, fun loose => first.2 (rest.2 loose)⟩

/-- A deletion always ends. What is read after a free then is a node that remains alone. -/
theorem delReplica_same (same : Same c m) (i : Nat) : ∃ next,
    delReplica hash pNode node c i = some next ∧
    Same next (HashRing.delReplica hash pNode node m i) ∧
    next.vnodeTree.root.toList.length ≤ c.vnodeTree.root.toList.length ∧
    (Loose next → Loose c ∨ next.vnodeTree.root.toList.length = 1) := by
  rw [delReplica, HashRing.delReplica]
  cases found : utilRbtreeSearch (place hash node i) c.vnodeTree.root [] with
  | none =>
    have absent := (search_isNone same (place hash node i)).mp found
    rw [if_neg (by simp [absent])]
    exact ⟨c, rfl, same, le_rfl, Or.inl⟩
  | some found' =>
    obtain ⟨h, placed⟩ := same.kept.valid.placed
    obtain ⟨color, left, vnode, right, path, k, rfl, key, placed', whole⟩ :=
      utilRbtreeSearch_some found placed
    obtain ⟨tree, deleted, kept, loose, low, high, entries, order⟩ :=
      utilRbtreeDelete_eq same.kept placed' whole
    have entries' : m.vnodeTree.toList = low ++ (vnode.1, vnode.2) :: high :=
      same.entries.symm.trans entries
    have owner : m.vnodeTree[place hash node i]? = some vnode.2 := by
      rw [← key]
      exact mem_toList.mp (entries' ▸ List.mem_append_right _ List.mem_cons_self)
    by_cases owned : vnode.2 = pNode
    · subst owned
      rw [if_pos owner]
      simp only [key, and_self, if_true, deleted]
      refine ⟨⟨tree, c.ivnodes - 1⟩, rfl, ⟨kept, ?_, congrArg (· - 1) same.ivnodes⟩, ?_, ?_⟩
      · rw [← key]
        exact order.trans (toList_erase entries').symm
      · rw [entries, order, length_insert]
        exact Nat.le_succ _
      · rintro ⟨stale, -⟩
        refine (loose stale).imp (fun stale => ⟨stale, fun null => ?_⟩) fun two => ?_
        · rw [null] at entries
          exact absurd entries (by simp [ColouredTree.toList])
        · rw [entries, length_insert] at two
          rw [order]
          exact Nat.succ.inj two
    · rw [if_neg (by rw [owner]; simpa using owned)]
      simp only [owned, and_false, if_false]
      exact ⟨c, rfl, same, le_rfl, Or.inl⟩

theorem length_pos {node : RbTree.Node} (other : node ≠ .null) : 0 < node.toList.length := by
  cases node with
  | null => exact absurd rfl other
  | node color left vnode right => simp [ColouredTree.toList]

theorem delReplicas_same (same : Same c m) : ∃ next,
    delReplicas hash pNode node c = some next ∧
    Same next (HashRing.delReplicas hash pNode node m) ∧
    next.vnodeTree.root.toList.length ≤ c.vnodeTree.root.toList.length ∧
    (Loose next → Loose c ∨ next.vnodeTree.root.toList.length = 1) := by
  rw [delReplicas, HashRing.delReplicas]
  induction List.range node.replicas generalizing c m with
  | nil => exact ⟨c, rfl, same, le_rfl, Or.inl⟩
  | cons i is ih =>
    obtain ⟨next, deleted, same', fewer, loose⟩ :=
      @delReplica_same hash pNode node _ _ same i
    obtain ⟨last, ended, same'', fewer', loose'⟩ := ih same'
    rw [List.foldlM_cons, List.foldl_cons, deleted]
    refine ⟨last, ended, same'', fewer'.trans fewer, fun other => ?_⟩
    rcases loose' other with between | alone
    · refine (loose between).imp_right fun alone => ?_
      have some := length_pos other.2
      omega
    · exact Or.inr alone

inductive Call where
  | add (entry : Nat → Bool) (pNode : Nat) (node : NodeS)
  | del (pNode : Nat) (node : NodeS)

variable (hash) in
def call (c : ConhashS) : Call → Option (Int × ConhashS × NodeS)
  | .add entry pNode node => conhashAddNode hash entry c pNode node
  | .del pNode node => conhashDelNode hash c pNode node

/-- The call on the ring of hashed replicas. -/
def mapCall (hash : Bytes → Int) (m : HashRing.ConhashS) : Call → Int × HashRing.ConhashS × NodeS
  | .add entry pNode node => HashRing.conhashAddNode hash entry m pNode node
  | .del pNode node => HashRing.conhashDelNode hash m pNode node

theorem conhashLookup_same (same : Same c m) (object : Option Bytes) :
    conhashLookup hash c object = HashRing.conhashLookup hash m object := by
  rw [conhashLookup, HashRing.conhashLookup, same.ivnodes]
  refine if_congr Iff.rfl rfl (congrArg object.bind (funext fun text => ?_))
  rw [utilRbtreeLookup_eq same.kept.ascending, rbtreeLookup, same.entries]

/-- A node leaves the ring, and a single virtual node remains. -/
def leavesOne (hash : Bytes → Int) (request : Call) (m : HashRing.ConhashS) : Bool :=
  match request with
  | .add _ _ _ => false
  | .del _ _ => (mapCall hash m request).2.1.vnodeTree.size = 1

/-- A call that ends has the result of the ring of hashed replicas. -/
theorem call_agree (same : Same c m) (request : Call) :
    match call hash c request with
    | none => Loose c
    | some (result, next, node) => result = (mapCall hash m request).1 ∧
      node = (mapCall hash m request).2.2 ∧ Same next (mapCall hash m request).2.1 ∧
      (Loose next → Loose c ∨ leavesOne hash request m = true) := by
  cases request with
  | add entry pNode node =>
    rw [call, mapCall, conhashAddNode, HashRing.conhashAddNode]
    split_ifs
    · exact ⟨rfl, rfl, same, Or.inl⟩
    · have added := @addReplicas_agree hash entry pNode node _ _ same
      cases ended : addReplicas hash entry pNode node c with
      | none =>
        rw [ended] at added
        exact added
      | some next =>
        rw [ended] at added
        exact ⟨rfl, rfl, added.1, fun loose => Or.inl (added.2 loose)⟩
  | del pNode node =>
    rw [leavesOne, call, mapCall, conhashDelNode, HashRing.conhashDelNode]
    split_ifs
    · exact ⟨rfl, rfl, same, Or.inl⟩
    · obtain ⟨next, deleted, same', -, loose⟩ :=
        @delReplicas_same hash pNode node _ _ same
      rw [deleted]
      refine ⟨rfl, rfl, same', fun other => (loose other).imp_right fun alone => ?_⟩
      rw [decide_eq_true_eq, ← TreeMap.length_toList, ← same'.entries]
      exact alone

variable (hash) in
/-- The answers of a row of calls: the result, and the node with its flags. -/
def run (c : ConhashS) : List Call → Option (List (Int × NodeS) × ConhashS)
  | [] => some ([], c)
  | request :: requests => do
    let (result, c, node) ← call hash c request
    let (answers, c) ← run c requests
    return ((result, node) :: answers, c)

def mapRun (hash : Bytes → Int) (m : HashRing.ConhashS) :
    List Call → List (Int × NodeS) × HashRing.ConhashS
  | [] => ([], m)
  | request :: requests =>
    let (result, m, node) := mapCall hash m request
    let (answers, m) := mapRun hash m requests
    ((result, node) :: answers, m)

def mapStep (hash : Bytes → Int) (request : Call) (m : HashRing.ConhashS) :
    Option HashRing.ConhashS :=
  some (mapCall hash m request).2.1

theorem run_agree (same : Same c m) (requests : List Call) :
    match run hash c requests with
    | none => Loose c ∨
      ¬Throughout (mapStep hash) (fun request m => leavesOne hash request m = false) m requests
    | some (answers, last) => answers = (mapRun hash m requests).1 ∧
      Same last (mapRun hash m requests).2 := by
  induction requests generalizing c m with
  | nil => exact ⟨rfl, same⟩
  | cons request requests ih =>
    have first := @call_agree hash _ _ same request
    rw [run, mapRun]
    cases called : call hash c request with
    | none =>
      rw [called] at first
      exact Or.inl first
    | some answer =>
      obtain ⟨result, next, node⟩ := answer
      rw [called] at first
      obtain ⟨rfl, rfl, same', loose⟩ := first
      have rest := ih same'
      simp only [Option.bind_eq_bind, Option.bind_some]
      cases ended : run hash next requests with
      | none =>
        rw [ended] at rest
        rcases rest with other | one
        · rcases loose other with before | one
          · exact Or.inl before
          · exact Or.inr fun met => Bool.noConfusion (one.symm.trans (met _ rfl).1)
        · exact Or.inr fun met => one (met _ rfl).2
      | some outcome =>
        obtain ⟨answers, last⟩ := outcome
        rw [ended] at rest
        obtain ⟨rfl, same''⟩ := rest
        exact ⟨rfl, same''⟩

/-- Every row of calls that ends has the answers and the lookups of the ring of hashed replicas,
and it ends if no node leaves a single virtual node behind. -/
theorem run_refines (hash : Bytes → Int) (requests : List Call) :
    (∀ answers last, run hash conhashInit requests = some (answers, last) →
      answers = (mapRun hash HashRing.conhashInit requests).1 ∧
      last.vnodeTree.root.toList =
        (mapRun hash HashRing.conhashInit requests).2.vnodeTree.toList ∧
      ∀ object, conhashLookup hash last object =
        HashRing.conhashLookup hash (mapRun hash HashRing.conhashInit requests).2 object) ∧
    (Throughout (mapStep hash) (fun request m => leavesOne hash request m = false)
      HashRing.conhashInit requests → (run hash conhashInit requests).isSome) := by
  have agree := @run_agree hash _ _ same_init requests
  constructor
  · intro answers last ended
    rw [ended] at agree
    exact ⟨agree.1, agree.2.entries, conhashLookup_same agree.2⟩
  · intro met
    cases ended : run hash conhashInit requests with
    | some outcome => rfl
    | none =>
      rw [ended] at agree
      rcases agree with ⟨stale, -⟩ | one
      · cases stale
      · exact absurd met one

/-- Two servers, of which the first leaves and comes back with three others. -/
example : run (fun text => text.headD 0 |>.toNat) conhashInit
    [.add (fun _ => true) 0 ⟨[49], 1, nodeFlagInit, 0⟩,
      .add (fun _ => true) 1 ⟨[50], 1, nodeFlagInit, 0⟩,
      .del 0 ⟨[49], 1, nodeFlagInit ||| nodeFlagIn, 0⟩,
      .add (fun _ => true) 2 ⟨[51], 1, nodeFlagInit, 0⟩,
      .add (fun _ => true) 3 ⟨[52], 1, nodeFlagInit, 0⟩,
      .add (fun _ => true) 4 ⟨[53], 1, nodeFlagInit, 0⟩] = none := by decide

theorem run_refines_example : (run (fun text => (text.map UInt8.toNat).sum) conhashInit
    [.add (fun _ => true) 0 ⟨[49], 2, nodeFlagInit, 0⟩,
      .add (fun _ => true) 1 ⟨[60], 2, nodeFlagInit, 0⟩,
      .del 0 ⟨[49], 2, nodeFlagInit ||| nodeFlagIn, 0⟩]).isSome :=
  (run_refines _ _).2 (by decide)

/-- The virtual nodes that the loop of `conhash_fini` frees. -/
def conhashFini : Nat → UtilRbtree → Option (List Entry)
  | _, ⟨.null, _, _⟩ => some []
  | 0, _ => none
  | fuel + 1, ⟨.node color left vnode right, stale, size⟩ => do
    let next ← utilRbtreeDelete ⟨.node color left vnode right, stale, size⟩
      (.node color left vnode right) []
    let freed ← conhashFini fuel next
    return vnode :: freed

theorem conhashFini_perm (fuel : Nat) (rbtree : UtilRbtree) (kept : Kept rbtree)
    (enough : rbtree.root.toList.length ≤ fuel) : ∃ freed,
      conhashFini fuel rbtree = some freed ∧ freed.Perm rbtree.root.toList := by
  induction fuel generalizing rbtree with
  | zero =>
    obtain ⟨root, stale, size⟩ := rbtree
    cases root with
    | null => exact ⟨[], rfl, List.Perm.nil⟩
    | node color left vnode right =>
      exact absurd (@length_pos (.node color left vnode right) nofun) (not_lt.mpr enough)
  | succ fuel ih =>
    obtain ⟨root, stale, size⟩ := rbtree
    cases root with
    | null => exact ⟨[], rfl, List.Perm.nil⟩
    | node color left vnode right =>
      obtain ⟨h, placed⟩ := kept.valid.placed
      obtain ⟨next, deleted, kept', -, low, high, whole, order⟩ :=
        utilRbtreeDelete_eq kept placed rfl
      have fewer : next.root.toList.length ≤ fuel := by
        rw [whole, length_insert] at enough
        rw [order]
        exact Nat.le_of_succ_le_succ enough
      obtain ⟨freed, ended, perm⟩ := ih next kept' fewer
      refine ⟨vnode :: freed, ?_, ?_⟩
      · rw [conhashFini, deleted, Option.bind_eq_bind, Option.bind_some, ended]
        rfl
      rw [whole]
      exact ((perm.trans (order ▸ List.Perm.refl _)).cons vnode).trans List.perm_middle.symm

/-- After every row of calls, each virtual node of the ring is freed once. -/
theorem conhashFini_frees (requests : List Call) {answers : List (Int × NodeS)} {last : ConhashS}
    (ended : run hash conhashInit requests = some (answers, last)) : ∃ freed,
      conhashFini last.vnodeTree.root.toList.length last.vnodeTree = some freed ∧
      freed.Perm (mapRun hash HashRing.conhashInit requests).2.vnodeTree.toList := by
  have agree := @run_agree hash _ _ same_init requests
  rw [ended] at agree
  rw [← agree.2.entries]
  exact conhashFini_perm _ _ agree.2.kept le_rfl

theorem conhashFini_frees_example : ∃ answers last freed,
    run (fun text => (text.map UInt8.toNat).sum) conhashInit
      [.add (fun _ => true) 0 ⟨[49], 2, nodeFlagInit, 0⟩] = some (answers, last) ∧
    conhashFini last.vnodeTree.root.toList.length last.vnodeTree = some freed ∧
    freed.Perm (mapRun (fun text => (text.map UInt8.toNat).sum) HashRing.conhashInit
      [.add (fun _ => true) 0 ⟨[49], 2, nodeFlagInit, 0⟩]).2.vnodeTree.toList := by
  obtain ⟨⟨answers, last⟩, ended⟩ := Option.isSome_iff_exists.mp
    (by decide : (run (fun text => (text.map UInt8.toNat).sum) conhashInit
      [.add (fun _ => true) 0 ⟨[49], 2, nodeFlagInit, 0⟩]).isSome)
  obtain ⟨freed, all, perm⟩ := conhashFini_frees _ ended
  exact ⟨answers, last, freed, ended, all, perm⟩

end RbRing
