import Mathlib.Data.List.Sort
import RtbAdapter.RbTreeFixups

/-!
# The entries of the red-black tree

Insertions and deletions keep the tree valid and its keys ascending; a search finds the place of
its key, and a lookup the next entry in a circle.
-/

namespace RbTree

open ColouredTrees
open ColouredTree (join)

/-- Ascending keys, which no two entries share. -/
def Ascending (entries : List Entry) : Prop := entries.Pairwise fun a b => a.1 < b.1

/-- What every operation keeps. -/
structure Kept (rbtree : UtilRbtree) : Prop where
  valid : Valid rbtree.root
  ascending : Ascending rbtree.root.toList
  size : rbtree.size = UInt32.ofNat rbtree.root.toList.length

theorem kept_init : Kept utilRbtreeInit := ⟨⟨⟨0, rfl⟩, rfl⟩, List.Pairwise.nil, rfl⟩

variable {c : Colour} {left right node subst : Node} {entry : Entry} {path : Parents} {key : Int}
  {h : Nat}

theorem ascending_node : Ascending (left.toList ++ entry :: right.toList) ↔
    Ascending left.toList ∧ Ascending right.toList ∧ (∀ e ∈ left.toList, e.1 < entry.1) ∧
      ∀ e ∈ right.toList, entry.1 < e.1 := by
  simp only [Ascending, List.pairwise_append, List.pairwise_cons, List.mem_cons]
  constructor
  · rintro ⟨low, ⟨greater, high⟩, across⟩
    exact ⟨low, high, fun e inside => across e inside entry (Or.inl rfl), greater⟩
  · rintro ⟨low, high, less, greater⟩
    refine ⟨low, ⟨greater, high⟩, fun a inside b other => ?_⟩
    rcases other with rfl | other
    · exact less a inside
    · exact (less a inside).trans (greater b other)

theorem ascending_insert {low high : List Entry} (ascending : Ascending (low ++ high))
    (less : ∀ e ∈ low, e.1 < entry.1) (greater : ∀ e ∈ high, entry.1 < e.1) :
    Ascending (low ++ entry :: high) := by
  obtain ⟨first, second, across⟩ := List.pairwise_append.mp ascending
  refine List.pairwise_append.mpr ⟨first, List.pairwise_cons.mpr ⟨greater, second⟩, ?_⟩
  intro a inside b other
  rcases List.mem_cons.mp other with rfl | other
  · exact less a inside
  · exact across a inside b other

theorem length_insert (low high : List Entry) :
    (low ++ entry :: high).length = (low ++ high).length + 1 := by
  simp [Nat.add_assoc]

/-- The child on a side of a node, with the node above it. -/
theorem placed_left (placed : Placed (.node c left entry right) path h) :
    ∃ k, Placed left (⟨.left, c, entry, right⟩ :: path) k :=
  @Placed.down _ .left _ _ _ _ _ _ placed

theorem placed_right (placed : Placed (.node c left entry right) path h) :
    ∃ k, Placed right (⟨.right, c, entry, left⟩ :: path) k :=
  @Placed.down _ .right _ _ _ _ _ _ placed

theorem insertPlace_placed (key : Int) (placed : Placed node path h) :
    ∃ k, Placed .null (insertPlace key node path) k := by
  induction node generalizing path h with
  | null => exact ⟨h, placed⟩
  | node c left entry right ihl ihr =>
    rw [insertPlace]
    split_ifs
    · obtain ⟨k, down⟩ := placed_left placed
      exact ihl down
    · obtain ⟨k, down⟩ := placed_right placed
      exact ihr down

/-- The null node stands after the keys up to the new one, and before the greater ones. -/
theorem insertPlace_toList (ascending : Ascending node.toList) : ∃ low high,
    node.toList = low ++ high ∧ (∀ e ∈ low, e.1 ≤ key) ∧ (∀ e ∈ high, key < e.1) ∧
    before (insertPlace key node path) = before path ++ low ∧
    after (insertPlace key node path) = high ++ after path := by
  induction node generalizing path with
  | null => exact ⟨[], [], rfl, nofun, nofun, by simp [insertPlace], by simp [insertPlace]⟩
  | node c left entry right ihl ihr =>
    obtain ⟨ascendingLeft, ascendingRight, less, greater⟩ := ascending_node.mp ascending
    rw [insertPlace]
    split_ifs with below
    · obtain ⟨low, high, whole, le, lt, front, back⟩ :=
        @ihl (⟨.left, c, entry, right⟩ :: path) ascendingLeft
      refine ⟨low, high ++ entry :: right.toList, ?_, le, ?_, front, ?_⟩
      · simp [ColouredTree.toList, whole]
      · intro e inside
        rcases List.mem_append.mp inside with inside | inside
        · exact lt e inside
        · rcases List.mem_cons.mp inside with rfl | inside
          · exact below
          · exact below.trans (greater e inside)
      · simp [back, after]
    · obtain ⟨low, high, whole, le, lt, front, back⟩ :=
        @ihr (⟨.right, c, entry, left⟩ :: path) ascendingRight
      refine ⟨left.toList ++ entry :: low, high, ?_, ?_, lt, ?_, back⟩
      · simp [ColouredTree.toList, whole]
      · intro e inside
        rcases List.mem_append.mp inside with inside | inside
        · exact ((less e inside).trans_le (not_lt.mp below)).le
        · rcases List.mem_cons.mp inside with rfl | inside
          · exact not_lt.mp below
          · exact le e inside
      · simp [front, before]

/-- The insertion reads the parent pointer that points to a freed node. -/
def readsFreed (rbtree : UtilRbtree) (key : Int) : Bool :=
  rbtree.root ≠ .null && rbtree.stale && climbs (insertPlace key rbtree.root [])

theorem utilRbtreeInsert_eq {rbtree : UtilRbtree} (kept : Kept rbtree)
    (absent : ∀ e ∈ rbtree.root.toList, e.1 ≠ entry.1) : ∃ next,
    utilRbtreeInsert rbtree entry = (if readsFreed rbtree entry.1 then none else some next) ∧
    Kept next ∧ (next.stale → rbtree.stale ∧ rbtree.root ≠ .null) ∧
    ∃ low high, rbtree.root.toList = low ++ high ∧ next.root.toList = low ++ entry :: high := by
  obtain ⟨⟨height, sound⟩, root⟩ := kept.valid
  obtain ⟨k, placed⟩ := insertPlace_placed entry.1
    (⟨sound, trivial, fun _ => root⟩ : Placed rbtree.root [] height)
  obtain ⟨low, high, whole, le, lt, front, back⟩ :=
    @insertPlace_toList _ [] entry.1 kept.ascending
  obtain rfl : k = 0 := placed.sound
  obtain ⟨next, ended, valid, order⟩ := rbtreeInsertFixup_eq
    (if rbtree.root = .null then false else rbtree.stale) (insertPlace entry.1 rbtree.root [])
    (.node .red .null entry .null) 0 ⟨⟨rfl, rfl⟩, rfl, rfl⟩ rfl placed.fits
  have order' : next.toList = low ++ entry :: high := by
    rw [order, toList_plug, front, back]
    simp [ColouredTree.toList, before, after]
  refine ⟨⟨next, if rbtree.root = .null then false else rbtree.stale, rbtree.size + 1⟩, ?_,
    ⟨valid, ?_, ?_⟩, ?_, low, high, whole, order'⟩
  · have same : ((if rbtree.root = .null then false else rbtree.stale) = true ∧
        climbs (insertPlace entry.1 rbtree.root []) = true) ↔ readsFreed rbtree entry.1 = true := by
      rw [readsFreed]
      by_cases empty : rbtree.root = .null <;> simp [empty]
    rw [utilRbtreeInsert]
    by_cases reads : readsFreed rbtree entry.1 = true
    · rw [if_pos (same.mpr reads)] at ended
      rw [if_pos reads]
      simp only [ended]
      rfl
    · rw [if_neg fun both => reads (same.mp both)] at ended
      rw [if_neg reads]
      simp only [ended]
      rfl
  · rw [order']
    refine ascending_insert (whole ▸ kept.ascending) (fun e inside => ?_) lt
    exact lt_of_le_of_ne (le e inside) (absent e (whole ▸ List.mem_append_left _ inside))
  · change rbtree.size + 1 = _
    rw [kept.size, order', whole, length_insert, UInt32.ofNat_add]
    rfl
  · intro stale
    by_cases empty : rbtree.root = .null
    · simp [empty] at stale
    · exact ⟨by simpa [empty] using stale, empty⟩

theorem unlink_eq {side : Side} (placed : Placed (join side c .null entry subst) path h) :
    ∃ root, unlink c subst path = some root ∧ Valid root ∧
      root.toList = (plug subst path).toList := by
  obtain ⟨sound, fits, calm⟩ := placed
  rw [unlink]
  cases c with
  | black =>
    obtain ⟨k, rfl, -, sound'⟩ := sound_black_iff.mp sound
    rw [if_pos rfl]
    exact rbtreeDeleteFixup_eq path.length subst path k (short_of_sound sound') fits
      fun _ => le_rfl
  | red =>
    obtain ⟨⟨-, black⟩, -, sound'⟩ := sound_red.mp sound
    have placed : Placed subst path h := ⟨sound', fits, fun _ => black⟩
    exact ⟨plug subst path, rfl, placed.valid, rfl⟩

theorem kept_delete {rbtree : UtilRbtree} {root : Node} {low high : List Entry} (stale : Bool)
    (kept : Kept rbtree) (whole : rbtree.root.toList = low ++ entry :: high) (valid : Valid root)
    (order : root.toList = low ++ high) : Kept ⟨root, stale, rbtree.size - 1⟩ := by
  refine ⟨valid, ?_, ?_⟩
  · have ascending := kept.ascending
    rw [whole] at ascending
    rw [order]
    exact List.Pairwise.sublist ((List.sublist_cons_self entry high).append_left low) ascending
  · change rbtree.size - 1 = _
    rw [kept.size, whole, order, length_insert, UInt32.ofNat_add]
    exact UInt32.add_sub_cancel _ _

/-- Next to a null node stands a single red one at most. -/
theorem length_red (sound : subst.Sound h) (null : (ColouredTree.null : Node).Sound h)
    (other : subst ≠ .null) : subst.toList.length = 1 := by
  obtain rfl : h = 0 := null
  cases subst with
  | null => exact absurd rfl other
  | node c left entry right =>
    cases c with
    | black =>
      obtain ⟨k, level, -⟩ := sound
      exact absurd level (Nat.succ_ne_zero k).symm
    | red =>
      obtain ⟨⟨black, black'⟩, soundLeft, soundRight⟩ := sound
      rw [sound_zero soundLeft black, sound_zero soundRight black']
      rfl

/-- A child takes the place of its parent; at the root it is the only other node. -/
theorem deleteEnd_eq {rbtree : UtilRbtree} {side : Side} (kept : Kept rbtree)
    (placed : Placed (join side c .null entry subst) path h)
    (whole : plug (join side c .null entry subst) path = rbtree.root) : ∃ next,
    utilRbtreeDelete.deleteEnd rbtree c subst path = some next ∧ Kept next ∧
    (next.stale → rbtree.stale ∨ rbtree.root.toList.length = 2) ∧
    ∃ low high, rbtree.root.toList = low ++ entry :: high ∧ next.root.toList = low ++ high := by
  obtain ⟨low, high, all, rest⟩ : ∃ low high, rbtree.root.toList = low ++ entry :: high ∧
      (plug subst path).toList = low ++ high := by
    rw [← whole, toList_plug, toList_plug]
    cases side
    · exact ⟨before path, subst.toList ++ after path, by simp [join, ColouredTree.toList],
        by simp⟩
    · exact ⟨before path ++ subst.toList, after path, by simp [join, ColouredTree.toList],
        by simp⟩
  cases path with
  | nil =>
    have order : (subst.paint .black).toList = low ++ high := (paint_toList _).trans rest
    obtain ⟨sound, -, black⟩ := placed
    obtain rfl : c = .black := join_colour.symm.trans (black rfl)
    obtain ⟨k, rfl, null, sound'⟩ := sound_black_iff.mp sound
    refine ⟨_, rfl, kept_delete _ kept all (valid_paint sound') order, ?_, low, high, all, order⟩
    intro stale
    simp only [Bool.or_eq_true, decide_eq_true_eq] at stale
    refine stale.imp_right fun other => ?_
    rw [all, length_insert, ← rest]
    exact congrArg (· + 1) (length_red sound' null other)
  | cons p path =>
    obtain ⟨root, ended, valid, order⟩ := unlink_eq placed
    exact ⟨{ rbtree with root, size := rbtree.size - 1 },
      by simp [utilRbtreeDelete.deleteEnd, ended], kept_delete _ kept all valid (order.trans rest),
      Or.inl, low, high, all, order.trans rest⟩

/-- The least node of a subtree, where it stands. -/
theorem utilRbsubtreeMin_eq (upper : Parents)
    (placed : Placed (.node c left entry right) (path ++ upper) h) :
    ∃ tc tentry subst inner k,
      utilRbsubtreeMin c entry right left path = (tc, tentry, subst, inner) ∧
      Placed (.node tc .null tentry subst) (inner ++ upper) k ∧ before inner = before path ∧
      tentry :: subst.toList ++ after inner =
        left.toList ++ entry :: right.toList ++ after path := by
  induction left generalizing c entry right path h with
  | null => exact ⟨c, entry, right, path, h, rfl, placed, rfl, rfl⟩
  | node lc lleft lentry lright ih _ =>
    obtain ⟨k, down⟩ := placed_left placed
    obtain ⟨tc, tentry, subst, inner, m, least, least', front, back⟩ :=
      @ih lc lright lentry (⟨.left, c, entry, right⟩ :: path) k down
    refine ⟨tc, tentry, subst, inner, m, least, least', front, back.trans ?_⟩
    simp [after, ColouredTree.toList]

theorem utilRbtreeDelete_eq {rbtree : UtilRbtree} (kept : Kept rbtree)
    (placed : Placed (.node c left entry right) path h)
    (whole : plug (.node c left entry right) path = rbtree.root) : ∃ next,
    utilRbtreeDelete rbtree (.node c left entry right) path = some next ∧ Kept next ∧
    (next.stale → rbtree.stale ∨ rbtree.root.toList.length = 2) ∧
    ∃ low high, rbtree.root.toList = low ++ entry :: high ∧ next.root.toList = low ++ high := by
  cases left with
  | null => exact @deleteEnd_eq _ _ _ _ _ _ .left kept placed whole
  | node lc lleft lentry lright =>
    cases right with
    | null => exact @deleteEnd_eq _ _ _ _ _ _ .right kept placed whole
    | node rc rleft rentry rright =>
      obtain ⟨m, down⟩ := placed_right placed
      obtain ⟨tc, tentry, subst, inner, k, least, least', front, back⟩ :=
        @utilRbsubtreeMin_eq _ _ _ _ [] _ _ down
      obtain ⟨root, ended, valid, order⟩ := @unlink_eq _ _ _ _ _ .left (placed_entry tentry least')
      obtain ⟨low, high, all, rest⟩ : ∃ low high, rbtree.root.toList = low ++ entry :: high ∧
          root.toList = low ++ high := by
        refine ⟨before path ++ (ColouredTree.node lc lleft lentry lright).toList,
          (ColouredTree.node rc rleft rentry rright).toList ++ after path, ?_, ?_⟩
        · rw [← whole, toList_plug]
          simp [ColouredTree.toList]
        · have split : (ColouredTree.node rc rleft rentry rright).toList =
              tentry :: (subst.toList ++ after inner) := by
            simpa [after, ColouredTree.toList] using back.symm
          rw [order, toList_plug, before_append, after_append, front, split]
          simp [before, after]
      exact ⟨{ rbtree with root, size := rbtree.size - 1 },
        by simp [utilRbtreeDelete, least, ended], kept_delete _ kept all valid rest, Or.inl,
        low, high, all, rest⟩

theorem utilRbtreeSearch_some {place : Node × Parents}
    (found : utilRbtreeSearch key node path = some place) (placed : Placed node path h) :
    ∃ c left entry right upper k, place = (.node c left entry right, upper) ∧ entry.1 = key ∧
      Placed (.node c left entry right) upper k ∧
      plug (.node c left entry right) upper = plug node path := by
  induction node generalizing path h with
  | null => cases found
  | node c left entry right ihl ihr =>
    rw [utilRbtreeSearch] at found
    split_ifs at found with below beyond
    · obtain ⟨k, down⟩ := placed_left placed
      exact ihl found down
    · obtain ⟨k, down⟩ := placed_right placed
      exact ihr found down
    · cases found
      exact ⟨c, left, entry, right, path, h, rfl,
        le_antisymm (not_lt.mp below) (not_lt.mp beyond), placed, rfl⟩

theorem utilRbtreeSearch_none (ascending : Ascending node.toList) :
    utilRbtreeSearch key node path = none ↔ ∀ e ∈ node.toList, e.1 ≠ key := by
  induction node generalizing path with
  | null => simp [utilRbtreeSearch, ColouredTree.toList]
  | node c left entry right ihl ihr =>
    obtain ⟨ascendingLeft, ascendingRight, less, greater⟩ := ascending_node.mp ascending
    rw [utilRbtreeSearch]
    split_ifs with below beyond
    · rw [ihl ascendingLeft]
      refine ⟨fun absent e inside => ?_, fun absent e inside => absent e ?_⟩
      · rcases List.mem_append.mp inside with inside | inside
        · exact absent e inside
        · rcases List.mem_cons.mp inside with rfl | inside
          · exact below.ne'
          · exact (below.trans (greater e inside)).ne'
      · exact List.mem_append_left _ inside
    · rw [ihr ascendingRight]
      refine ⟨fun absent e inside => ?_, fun absent e inside => absent e ?_⟩
      · rcases List.mem_append.mp inside with inside | inside
        · exact ((less e inside).trans beyond).ne
        · rcases List.mem_cons.mp inside with rfl | inside
          · exact beyond.ne
          · exact absent e inside
      · exact List.mem_append_right _ (List.mem_cons_of_mem _ inside)
    · simp only [false_iff, not_forall]
      exact ⟨entry, List.mem_append_right _ List.mem_cons_self, fun differ =>
        differ (le_antisymm (not_lt.mp below) (not_lt.mp beyond))⟩

theorem utilRbtreeMin_eq (node : Node) : utilRbtreeMin node = node.toList.head? := by
  induction node with
  | null => rfl
  | node c left entry right ih _ =>
    cases left with
    | null => rfl
    | node lc lleft lentry lright =>
      rw [utilRbtreeMin, ih]
      · simp [ColouredTree.toList]
      · intro null
        cases null

theorem lookupFrom_eq (ascending : Ascending node.toList) (last : Option Entry) :
    lookupFrom key last node = (node.toList.find? fun e => key ≤ e.1).or last := by
  induction node generalizing last with
  | null => rfl
  | node c left entry right ihl ihr =>
    obtain ⟨ascendingLeft, ascendingRight, less, greater⟩ := ascending_node.mp ascending
    rw [lookupFrom, ColouredTree.toList, List.find?_append]
    split_ifs with below
    · rw [ihl ascendingLeft, List.find?_cons_of_pos (by simpa using below), Option.or_assoc,
        Option.some_or]
    · have none : (left.toList.find? fun e => key ≤ e.1) = none :=
        List.find?_eq_none.mpr fun e inside => by
          simpa using (less e inside).trans (not_le.mp below)
      rw [ihr ascendingRight, none, List.find?_cons_of_neg (by simpa using below), Option.none_or]

theorem utilRbtreeLookup_eq (ascending : Ascending node.toList) (key : Int) :
    utilRbtreeLookup node key =
      (node.toList.find? fun e => key ≤ e.1).or node.toList.head? := by
  rw [utilRbtreeLookup, lookupFrom_eq ascending, utilRbtreeMin_eq, Option.or_none]

end RbTree
