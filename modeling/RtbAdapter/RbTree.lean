import RtbAdapter.ColouredTrees
import RtbAdapter.ByteWords

/-!
# The red-black tree of the ring

A pointer to a node is a place: its subtree with the frames above it. A frame stands for a parent
pointer, and only the parent pointer of the root may be another one: a root that is deleted with
one child leaves it behind in the child, where an insertion that recolours up to the root reads it
after the node was freed. The branches of the source for a left and for a right child are mirror
images, and are written once for a side.
-/

namespace RbTree

open ColouredTrees
open ColouredTree (join)

/-- A node of the tree with its data. -/
abbrev Entry := Int × Nat

abbrev Node := ColouredTree Entry

/-- The nodes above a place, the parent first. -/
abbrev Parents := List (Frame Entry)

/-- `stale`: the parent pointer of the root points to a node that was freed. -/
structure UtilRbtree where
  root : Node
  stale : Bool
  size : UInt32

def utilRbtreeInit : UtilRbtree := ⟨.null, false, 0⟩

/-- The child across from a side takes the place of the node. -/
def rotate : Side → Node → Option Node
  | .left, .node c left entry (.node rc rclc rentry rright) =>
    some (.node rc (.node c left entry rclc) rentry rright)
  | .right, .node c (.node lc lleft lentry lcrc) entry right =>
    some (.node lc lleft lentry (.node c lcrc entry right))
  | _, _ => none

def rbtreeLeftRotate : Node → Option Node := rotate .left

def rbtreeRightRotate : Node → Option Node := rotate .right

/-- The nodes above the null node that a key is inserted for. -/
def insertPlace (key : Int) : Node → Parents → Parents
  | .null, path => path
  | .node c left entry right, path =>
    if key < entry.1 then insertPlace key left (⟨.left, c, entry, right⟩ :: path)
    else insertPlace key right (⟨.right, c, entry, left⟩ :: path)

/-- The loop at a red node. A red parent has to have a parent itself. -/
def rbtreeInsertFixup (stale : Bool) : Node → Parents → Option Node
  | node, [] => if stale then none else some (node.paint .black)
  | node, [p] => if p.colour = .red then none else some ((p.plug node).paint .black)
  | node, p :: g :: path =>
    if p.colour = .red then
      let u := g.sibling
      if u.colour = .red then
        rbtreeInsertFixup stale
          (join g.side .red ((p.plug node).paint .black) g.entry (u.paint .black)) path
      else do
        let parent ← if p.side = g.side then some (p.plug node) else rotate g.side (p.plug node)
        let top ← rotate g.side.opposite (join g.side .red (parent.paint .black) g.entry u)
        return (plug top path).paint .black
    else some ((plug node (p :: g :: path)).paint .black)

/-- The parent pointer of a first node is set. -/
def utilRbtreeInsert (rbtree : UtilRbtree) (entry : Entry) : Option UtilRbtree := do
  let stale := if rbtree.root = .null then false else rbtree.stale
  let root ← rbtreeInsertFixup stale (.node .red .null entry .null)
    (insertPlace entry.1 rbtree.root [])
  return ⟨root, stale, rbtree.size + 1⟩

/-- `util_rbsubtree_min` of a subtree that has a node -/
def utilRbsubtreeMin (c : Colour) (entry : Entry) (right : Node) : Node → Parents →
    Colour × Entry × Node × Parents
  | .null, path => (c, entry, right, path)
  | .node lc left lentry lright, path =>
    utilRbsubtreeMin lc lentry lright left (⟨.left, c, entry, right⟩ :: path)

/-- The children of a node, on a side and across. The links of the null node are not set. -/
def children (side : Side) : Node → Option (Node × Entry × Node)
  | .null => none
  | .node _ left entry right =>
    match side with
    | .left => some (left, entry, right)
    | .right => some (right, entry, left)

/-- A red sibling takes the place of the parent: the parent and those above it then. -/
def redSibling (p : Frame Entry) (path : Parents) : Option (Frame Entry × Parents) :=
  if p.sibling.colour = .red then do
    let (near, entry, far) ← children p.side p.sibling
    return (⟨p.side, .red, p.entry, near⟩, ⟨p.side, .black, entry, far⟩ :: path)
  else some (p, path)

/-- The loop at a node that misses a black one. -/
def rbtreeDeleteFixup : Nat → Node → Parents → Option Node
  | _, node, [] => some (node.paint .black)
  | fuel, node, p :: path =>
    if node.colour = .red then some (plug (node.paint .black) (p :: path))
    else
      match fuel with
      | 0 => none
      | fuel + 1 => do
        let (p, path) ← redSibling p path
        let w := p.sibling
        let (near, entry, far) ← children p.side w
        if near.colour = .black ∧ far.colour = .black then
          rbtreeDeleteFixup fuel (join p.side p.colour node p.entry (w.paint .red)) path
        else
          let w ← if far.colour = .black then
              rotate p.side.opposite (join p.side .red (near.paint .black) entry far)
            else some w
          let (near, entry, far) ← children p.side w
          let top ← rotate p.side (join p.side .black node p.entry
            (join p.side p.colour near entry (far.paint .black)))
          return (plug top path).paint .black

/-- A node with one child at most leaves its place to it, and is followed up if it was black. -/
def unlink (c : Colour) (subst : Node) (path : Parents) : Option Node :=
  if c = .black then rbtreeDeleteFixup path.length subst path else some (plug subst path)

/-- The least node of the right subtree takes the place of a node with two children. -/
def utilRbtreeDelete (rbtree : UtilRbtree) : Node → Parents → Option UtilRbtree
  | .null, _ => some rbtree
  | .node c .null _ right, path => deleteEnd rbtree c right path
  | .node c left _ .null, path => deleteEnd rbtree c left path
  | .node c left _ (.node rc rleft rentry rright), path => do
    let (tc, tentry, subst, inner) := utilRbsubtreeMin rc rentry rright rleft []
    let root ← unlink tc subst (inner ++ ⟨.right, c, tentry, left⟩ :: path)
    return { rbtree with root, size := rbtree.size - 1 }
where
  /-- The root leaves its address in its child. -/
  deleteEnd (rbtree : UtilRbtree) (c : Colour) (subst : Node) : Parents → Option UtilRbtree
    | [] => some ⟨subst.paint .black, rbtree.stale || subst ≠ .null, rbtree.size - 1⟩
    | p :: path => do
      let root ← unlink c subst (p :: path)
      return { rbtree with root, size := rbtree.size - 1 }

/-- The place of a key. -/
def utilRbtreeSearch (key : Int) : Node → Parents → Option (Node × Parents)
  | .null, _ => none
  | .node c left entry right, path =>
    if key < entry.1 then utilRbtreeSearch key left (⟨.left, c, entry, right⟩ :: path)
    else if key > entry.1 then utilRbtreeSearch key right (⟨.right, c, entry, left⟩ :: path)
    else some (.node c left entry right, path)

/-- `util_rbtree_min` -/
def utilRbtreeMin : Node → Option Entry
  | .null => none
  | .node _ .null entry _ => some entry
  | .node _ left _ _ => utilRbtreeMin left

/-- The loop with the node that was passed last on the way left. -/
def lookupFrom (key : Int) (last : Option Entry) : Node → Option Entry
  | .null => last
  | .node _ left entry right =>
    if key ≤ entry.1 then lookupFrom key (some entry) left else lookupFrom key last right

def utilRbtreeLookup (root : Node) (key : Int) : Option Entry :=
  (lookupFrom key none root).or (utilRbtreeMin root)

end RbTree
