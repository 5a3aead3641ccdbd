import RtbAdapter.RbRing

/-!
# The check of the red-black tree

`util_rbtree_check` follows every way down and compares the black nodes of all of them. After every
row of calls it finds no fault, and the tree is not deeper than twice the black height. It does
not look to the right of a node without a left child.
-/

namespace RbTreeCheck

open ColouredTrees RbTree

structure Check where
  fini : Nat
  maxd : Nat
  rbh : Nat
  deriving DecidableEq

/-- The label at the end of `rbtree_check_subtree`. -/
def checkRbHeight (check : Check) (level curheight : Nat) : Check :=
  let rbh := if check.rbh = 0 then curheight else check.rbh
  ⟨if rbh ≠ curheight then 3 else check.fini,
    if check.maxd < level then level else check.maxd, rbh⟩

/-- A colour is always one of the two, so that the fault 2 is not found. -/
def rbtreeCheckSubtree : Node → Check → Nat → Nat → Check
  | .null, check, _, _ => check
  | .node c left entry right, check, level, curheight =>
    if check.fini ≠ 0 then check
    else
      let curheight := if c = .black then curheight + 1 else curheight
      match left with
      | .null => checkRbHeight check level curheight
      | .node lc lleft lentry lright =>
        if c = .red ∧ lc = .red then { check with fini := 4 }
        else if entry.1 < lentry.1 then { check with fini := 5 }
        else
          let check := rbtreeCheckSubtree (.node lc lleft lentry lright) check (level + 1) curheight
          match right with
          | .null => checkRbHeight check level curheight
          | .node rc rleft rentry rright =>
            if c = .red ∧ rc = .red then { check with fini := 4 }
            else if entry.1 > rentry.1 then { check with fini := 5 }
            else rbtreeCheckSubtree (.node rc rleft rentry rright) check (level + 1) curheight

/-- The result, with the black height and the depth where they are given. -/
def utilRbtreeCheck : Node → Nat × Option (Nat × Nat)
  | .null => (0, none)
  | .node .red _ _ _ => (1, none)
  | .node .black left entry right =>
    let check := rbtreeCheckSubtree (.node .black left entry right) ⟨0, 0, 0⟩ 1 0
    (check.fini, some (check.rbh, check.maxd))

def depth : Node → Nat
  | .null => 0
  | .node _ left _ right => max (depth left) (depth right) + 1

/-- Red nodes at most double the black ones. -/
theorem depth_le {node : Node} {h : Nat} (sound : node.Sound h) :
    depth node ≤ 2 * h + (if node.colour = .red then 1 else 0) := by
  induction node generalizing h with
  | null => exact Nat.zero_le _
  | node c left entry right ihl ihr =>
    cases c with
    | red =>
      obtain ⟨⟨black, black'⟩, soundLeft, soundRight⟩ := sound
      have low := ihl soundLeft
      have high := ihr soundRight
      rw [black] at low
      rw [black'] at high
      simp only [depth, ColouredTree.colour, reduceCtorEq, if_true, if_false] at low high ⊢
      omega
    | black =>
      obtain ⟨k, rfl, soundLeft, soundRight⟩ := sound
      have low := ihl soundLeft
      have high := ihr soundRight
      have : (if left.colour = .red then 1 else 0) ≤ 1 := by split_ifs <;> omega
      have : (if right.colour = .red then 1 else 0) ≤ 1 := by split_ifs <;> omega
      simp only [depth, ColouredTree.colour, reduceCtorEq, if_false]
      omega

theorem two_pow_le {node : Node} {h : Nat} (sound : node.Sound h) :
    2 ^ h ≤ node.toList.length + 1 := by
  induction node generalizing h with
  | null =>
    obtain rfl : h = 0 := sound
    exact le_rfl
  | node c left entry right ihl ihr =>
    rw [ColouredTree.toList, List.length_append, List.length_cons]
    cases c with
    | red =>
      have low := ihl sound.2.1
      omega
    | black =>
      obtain ⟨k, rfl, soundLeft, soundRight⟩ := sound
      have low := ihl soundLeft
      have high := ihr soundRight
      rw [pow_succ]
      omega

/-- No fault, and all ways down met as many black nodes. -/
structure Clean (check : Check) (height deepest : Nat) : Prop where
  fini : check.fini = 0
  rbh : check.rbh = 0 ∨ check.rbh = height
  maxd : check.maxd ≤ deepest

theorem checkRbHeight_clean {check : Check} {level height deepest : Nat} (positive : 0 < height)
    (clean : Clean check height deepest) (shallow : level ≤ deepest) :
    Clean (checkRbHeight check level height) height deepest ∧
      (checkRbHeight check level height).rbh = height := by
  obtain ⟨fini, rbh, maxd⟩ := clean
  have same : (if check.rbh = 0 then height else check.rbh) = height := by
    rcases rbh with zero | same
    · rw [if_pos zero]
    · rw [same, if_neg positive.ne']
  refine ⟨⟨?_, Or.inr same, ?_⟩, same⟩
  · simp [checkRbHeight, same, fini]
  · simp only [checkRbHeight]
    split_ifs <;> assumption

/-- The black nodes and the depth that are left below a node. -/
theorem below {c : Colour} {left right : Node} {entry : Entry} {h level curheight deepest : Nat}
    (sound : (ColouredTree.node c left entry right).Sound h)
    (positive : 0 < curheight ∨ c = .black)
    (shallow : level + 2 * h + (if c = .red then 1 else 0) ≤ deepest + 1) :
    let curheight' := if c = .black then curheight + 1 else curheight
    ∃ k, left.Sound k ∧ right.Sound k ∧ curheight' + k = curheight + h ∧ 0 < curheight' ∧
      level ≤ deepest ∧ (c = .red → left.colour = .black ∧ right.colour = .black) ∧
      ∀ child : Node, (c = .red → child.colour = .black) →
        level + 1 + 2 * k + (if child.colour = .red then 1 else 0) ≤ deepest + 1 := by
  cases c with
  | red =>
    refine ⟨h, sound.2.1, sound.2.2, rfl, positive.resolve_right (by decide), ?_,
      fun _ => sound.1, fun child black => ?_⟩
    · simp only [if_true] at shallow
      omega
    · rw [black rfl]
      simp only [if_true, reduceCtorEq, if_false] at shallow ⊢
      omega
  | black =>
    obtain ⟨k, rfl, soundLeft, soundRight⟩ := sound
    simp only [reduceCtorEq, if_false] at shallow
    refine ⟨k, soundLeft, soundRight, ?_, Nat.succ_pos _, by omega,
      fun red => Colour.noConfusion red, fun child _ => ?_⟩
    · change curheight + 1 + k = _
      omega
    · split_ifs <;> omega

theorem rbtreeCheckSubtree_clean {node : Node} {h : Nat} {check : Check}
    {level curheight deepest : Nat} (other : node ≠ .null) (sound : node.Sound h)
    (ascending : Ascending node.toList) (positive : 0 < curheight ∨ node.colour = .black)
    (clean : Clean check (curheight + h) deepest)
    (shallow : level + 2 * h + (if node.colour = .red then 1 else 0) ≤ deepest + 1) :
    Clean (rbtreeCheckSubtree node check level curheight) (curheight + h) deepest ∧
      (rbtreeCheckSubtree node check level curheight).rbh = curheight + h := by
  induction node generalizing h check level curheight with
  | null => exact absurd rfl other
  | node c left entry right ihl ihr =>
    obtain ⟨ascendingLeft, ascendingRight, less, greater⟩ := ascending_node.mp ascending
    obtain ⟨k, soundLeft, soundRight, level', positive', shallow', calm, deeper⟩ :=
      below sound positive shallow
    have going : ¬check.fini ≠ 0 := not_not.mpr clean.fini
    rw [← level'] at clean ⊢
    cases left with
    | null =>
      obtain rfl : k = 0 := soundLeft
      rw [rbtreeCheckSubtree, if_neg going]
      exact checkRbHeight_clean positive' clean shallow'
    | node lc lleft lentry lright =>
      have keep : ¬(c = .red ∧ lc = .red) := by
        rintro ⟨red, red'⟩
        exact Colour.noConfusion (red'.symm.trans (calm red).1)
      have order : ¬entry.1 < lentry.1 := by
        have := less lentry (by simp [ColouredTree.toList])
        omega
      have first := ihl (by simp) soundLeft ascendingLeft (Or.inl positive') clean
        (deeper _ fun red => (calm red).1)
      rw [rbtreeCheckSubtree, if_neg going]
      simp only [if_neg keep, if_neg order]
      cases right with
      | null =>
        obtain rfl : k = 0 := soundRight
        exact checkRbHeight_clean positive' first.1 shallow'
      | node rc rleft rentry rright =>
        have keep' : ¬(c = .red ∧ rc = .red) := by
          rintro ⟨red, red'⟩
          exact Colour.noConfusion (red'.symm.trans (calm red).2)
        have order' : ¬entry.1 > rentry.1 := by
          have := greater rentry (by simp [ColouredTree.toList])
          omega
        simp only [if_neg keep', if_neg order']
        exact ihr (by simp) soundRight ascendingRight (Or.inl positive') first.1
          (deeper _ fun red => (calm red).2)

theorem utilRbtreeCheck_eq {node : Node} (other : node ≠ .null) (valid : Valid node)
    (ascending : Ascending node.toList) : ∃ blackheight maxdepth,
      utilRbtreeCheck node = (0, some (blackheight, maxdepth)) ∧
      node.Sound blackheight ∧ maxdepth ≤ 2 * blackheight := by
  obtain ⟨⟨h, sound⟩, black⟩ := valid
  cases node with
  | null => exact absurd rfl other
  | node c left entry right =>
    obtain rfl : c = .black := black
    obtain ⟨clean, height⟩ := @rbtreeCheckSubtree_clean _ _ ⟨0, 0, 0⟩ 1 0 (2 * h) other sound
      ascending (Or.inr rfl) ⟨rfl, Or.inl rfl, Nat.zero_le _⟩
      (by simp [ColouredTree.colour, Nat.add_comm])
    rw [Nat.zero_add] at height
    refine ⟨h, _, ?_, sound, clean.maxd⟩
    rw [utilRbtreeCheck]
    simp only [clean.fini, height]

theorem depth_le_log {node : Node} (valid : Valid node) :
    depth node ≤ 2 * Nat.log 2 (node.toList.length + 1) := by
  obtain ⟨⟨h, sound⟩, black⟩ := valid
  have shallow := depth_le sound
  rw [black, if_neg (by decide)] at shallow
  have height := Nat.le_log_of_pow_le (by decide) (two_pow_le sound)
  omega

/-- The nodes that a search for a key looks at. -/
def looked (key : Int) : Node → Nat
  | .null => 0
  | .node _ left entry right =>
    if key < entry.1 then looked key left + 1
    else if key > entry.1 then looked key right + 1
    else 1

/-- The place of a key is as far down as the search has looked. -/
theorem utilRbtreeSearch_looked {key : Int} {node place : Node} {path upper : Parents}
    (found : utilRbtreeSearch key node path = some (place, upper)) :
    upper.length + 1 = path.length + looked key node := by
  induction node generalizing path with
  | null => cases found
  | node c left entry right ihl ihr =>
    rw [utilRbtreeSearch] at found
    rw [looked]
    split_ifs at found ⊢
    · have lower := ihl found
      rw [List.length_cons] at lower
      omega
    · have lower := ihr found
      rw [List.length_cons] at lower
      omega
    · obtain rfl := congrArg Prod.snd (Option.some.inj found)
      rfl

/-- Found or not, a search looks at no more nodes than the tree is deep. -/
theorem looked_le_depth (key : Int) (node : Node) : looked key node ≤ depth node := by
  induction node with
  | null => exact le_rfl
  | node c left entry right ihl ihr =>
    rw [looked, depth]
    split_ifs <;> omega

open RbRing HashRing in
/-- After every row of calls the check finds no fault, and a search goes down no further than
twice the logarithm of the number of virtual nodes. -/
theorem utilRbtreeCheck_run {hash : ByteWords.Bytes → Int} (requests : List Call)
    {answers : List (Int × NodeS)} {last : RbRing.ConhashS}
    (ended : run hash RbRing.conhashInit requests = some (answers, last)) :
    let size := (mapRun hash HashRing.conhashInit requests).2.vnodeTree.size
    (utilRbtreeCheck last.vnodeTree.root).1 = 0 ∧
    (∀ blackheight maxdepth,
      (utilRbtreeCheck last.vnodeTree.root).2 = some (blackheight, maxdepth) →
      maxdepth ≤ 2 * blackheight ∧ 2 ^ blackheight ≤ size + 1) ∧
    depth last.vnodeTree.root ≤ 2 * Nat.log 2 (size + 1) ∧
    last.vnodeTree.size = UInt32.ofNat size := by
  have agree := @run_agree hash _ _ same_init requests
  rw [ended] at agree
  obtain ⟨-, kept, entries, -⟩ := agree
  have length : last.vnodeTree.root.toList.length =
      (mapRun hash HashRing.conhashInit requests).2.vnodeTree.size := by
    rw [entries, Std.TreeMap.length_toList]
  intro size
  change _ = size at length
  refine ⟨?_, ?_, length ▸ depth_le_log kept.valid, length ▸ kept.size⟩
  · by_cases empty : last.vnodeTree.root = .null
    · rw [empty, utilRbtreeCheck]
    · obtain ⟨_, _, checked, -⟩ := utilRbtreeCheck_eq empty kept.valid kept.ascending
      rw [checked]
  · intro blackheight maxdepth reported
    by_cases empty : last.vnodeTree.root = .null
    · rw [empty, utilRbtreeCheck] at reported
      cases reported
    · obtain ⟨_, _, checked, sound, shallow⟩ :=
        utilRbtreeCheck_eq empty kept.valid kept.ascending
      rw [checked] at reported
      cases reported
      exact ⟨shallow, length ▸ two_pow_le sound⟩

open RbRing HashRing in
theorem utilRbtreeCheck_run_example : ∃ answers last,
    run (fun text => (text.map UInt8.toNat).sum) RbRing.conhashInit
      [.add (fun _ => true) 0 ⟨[49], 4, nodeFlagInit, 0⟩] = some (answers, last) ∧
    (utilRbtreeCheck last.vnodeTree.root).1 = 0 := by
  obtain ⟨⟨answers, last⟩, ended⟩ := Option.isSome_iff_exists.mp
    (by decide : (run (fun text => (text.map UInt8.toNat).sum) RbRing.conhashInit
      [.add (fun _ => true) 0 ⟨[49], 4, nodeFlagInit, 0⟩]).isSome)
  exact ⟨answers, last, ended, (utilRbtreeCheck_run _ ended).1⟩

end RbTreeCheck
