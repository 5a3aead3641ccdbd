import Mathlib.Data.List.Infix

/-!
# Tries over bits

A node stands under the bits on its way from the root. Data is filed under a list of bits;
nodes on the way that were not there are made without data. A walk passes the nodes under
the first bits of a list, until one is not there.
-/

namespace BinaryTrie

universe u v
variable {α : Type u} {β : Type v}

inductive Trie (α : Type u) where
  | null
  | node (data : α) (left right : Trie α)

namespace Trie

def child (bit : Bool) : Trie α → Trie α
  | null => null
  | node _ left right => if bit then right else left

/-- The data of the node under some bits. -/
def get : List Bool → Trie α → Option α
  | _, null => none
  | [], node data _ _ => some data
  | bit :: bits, node _ left right => get bits (if bit then right else left)

/-- Data is filed under some bits. -/
def put (blank data : α) : List Bool → Trie α → Trie α
  | [], null => node data null null
  | [], node _ left right => node data left right
  | bit :: bits, null =>
    if bit then node blank null (put blank data bits null)
    else node blank (put blank data bits null) null
  | bit :: bits, node old left right =>
    if bit then node old left (put blank data bits right)
    else node old (put blank data bits left) right

/-- The data of the nodes that a walk passes below the root. -/
def visited : List Bool → Trie α → List α
  | [], _ => []
  | bit :: bits, trie =>
    match trie.child bit with
    | null => []
    | node data left right => data :: visited bits (node data left right)

variable {blank data : α} {bits path : List Bool} {trie : Trie α}

@[simp] theorem get_null : get bits (null : Trie α) = none := by
  cases bits <;> rfl

theorem get_cons {bit : Bool} : get (bit :: bits) trie = get bits (trie.child bit) := by
  cases trie with
  | null => rw [child, get_null, get_null]
  | node old left right => rfl

/-- The node of the bits has the data, those on the way are there, and all others stay. -/
theorem get_put (blank data : α) (bits path : List Bool) (trie : Trie α) :
    get path (put blank data bits trie) =
      if path = bits then some data
      else if path <+: bits then some ((get path trie).getD blank)
      else get path trie := by
  induction bits generalizing path trie with
  | nil =>
    cases path with
    | nil => cases trie <;> rfl
    | cons bit path => cases trie <;> simp [put, get_cons, child]
  | cons bit bits ih =>
    cases path with
    | nil => cases trie <;> cases bit <;> simp [put, get]
    | cons bit' path =>
      have down : (put blank data (bit :: bits) trie).child bit' =
          if bit' = bit then put blank data bits (trie.child bit') else trie.child bit' := by
        cases trie <;> cases bit <;> cases bit' <;> simp [put, child]
      rw [get_cons, get_cons, down]
      by_cases same : bit' = bit
      · subst same
        simp only [if_pos, ih, List.cons_prefix_cons, List.cons.injEq, true_and]
      · simp only [List.cons_prefix_cons, List.cons.injEq, same, false_and, if_false]

/-- A walk passes the nodes under the first bits. -/
theorem visited_eq (path : List Bool) (trie : Trie α) :
    visited path trie =
      (List.range path.length).filterMap fun k => get (path.take (k + 1)) trie := by
  induction path generalizing trie with
  | nil => rfl
  | cons bit path ih =>
    have later : ((List.range path.length).map Nat.succ).filterMap
        (fun k => get ((bit :: path).take (k + 1)) trie) = visited path (trie.child bit) := by
      rw [ih, List.filterMap_map]
      refine List.filterMap_congr fun k _ => ?_
      rw [Function.comp_apply, List.take_succ_cons, get_cons]
    have here : get ((bit :: path).take (0 + 1)) trie = get [] (trie.child bit) := by
      rw [List.take_succ_cons, List.take_zero, get_cons]
    rw [List.length_cons, List.range_succ_eq_map, List.filterMap_cons, here, later, visited]
    cases trie.child bit with
    | null =>
      have none : visited path (null : Trie α) = [] := by cases path <;> rfl
      rw [get_null, none]
    | node data left right => rfl

end Trie

/-- A fold that keeps what it has where nothing is marked ends with the last mark. -/
theorem foldl_marked (marked : α → Bool) (read : α → β) (start : β) (list : List α) :
    list.foldl (fun last x => if marked x then read x else last) start =
      ((list.filter marked).getLast?.map read).getD start := by
  induction list using List.reverseRecOn with
  | nil => rfl
  | append_singleton list x ih =>
    rw [List.foldl_concat, List.filter_append, ih]
    by_cases mark : marked x
    · simp [mark]
    · simp [mark]

theorem getLast?_filter_iff {marked : α → Bool} {x : α} {list : List α} :
    (list.filter marked).getLast? = some x ↔
      marked x ∧ ∃ before after, list = before ++ x :: after ∧ ∀ y ∈ after, ¬ marked y := by
  constructor
  · intro last
    obtain ⟨kept, split⟩ := List.getLast?_eq_some_iff.mp last
    obtain ⟨first, rest, rfl, -, alone⟩ := List.filter_eq_append_iff.mp split
    obtain ⟨skipped, after, rfl, -, mark, none⟩ := List.filter_eq_cons_iff.mp alone
    exact ⟨mark, first ++ skipped, after, (List.append_assoc ..).symm,
      List.filter_eq_nil_iff.mp none⟩
  · rintro ⟨mark, before, after, rfl, none⟩
    rw [List.filter_append, List.filter_cons_of_pos mark, List.filter_eq_nil_iff.mpr none,
      List.getLast?_concat]

/-- The last marked number below a bound. -/
theorem last_range {marked : Nat → Bool} {n k : Nat}
    (last : ((List.range n).filter marked).getLast? = some k) :
    k < n ∧ marked k ∧ ∀ j, k < j → j < n → ¬ marked j := by
  obtain ⟨mark, before, after, split, none⟩ := getLast?_filter_iff.mp last
  have inside : k ∈ List.range n := by
    rw [split]
    exact List.mem_append_right _ List.mem_cons_self
  have ordered : List.Pairwise (· < ·) (before ++ k :: after) := split ▸ List.pairwise_lt_range
  refine ⟨List.mem_range.mp inside, mark, fun j later below => ?_⟩
  have there : j ∈ before ++ k :: after := split ▸ List.mem_range.mpr below
  rcases List.mem_append.mp there with first | rest
  · have := (List.pairwise_append.mp ordered).2.2 j first k List.mem_cons_self
    omega
  · rcases List.mem_cons.mp rest with rfl | behind
    · omega
    · exact none j behind

namespace Trie

variable {blank data : α} {bits path : List Bool} {trie : Trie α}

/-- What stands under some bits, blank where there is no node. -/
def dataAt (blank : α) (path : List Bool) (trie : Trie α) : α :=
  (get path trie).getD blank

theorem dataAt_put :
    dataAt blank path (put blank data bits trie) =
      if path = bits then data else dataAt blank path trie := by
  rw [dataAt, get_put]
  by_cases same : path = bits
  · rw [if_pos same, if_pos same, Option.getD_some]
  · rw [if_neg same, if_neg same]
    by_cases onTheWay : path <+: bits
    · rw [if_pos onTheWay, Option.getD_some, dataAt]
    · rw [if_neg onTheWay, dataAt]

/-- After many insertions the last one under the bits is read. -/
theorem dataAt_puts (blank : α) (place : β → List Bool) (value : β → α) (path : List Bool)
    (list : List β) (trie : Trie α) :
    dataAt blank path (list.foldl (fun trie x => put blank (value x) (place x) trie) trie) =
      ((list.filter fun x => path = place x).getLast?.map value).getD
        (dataAt blank path trie) := by
  induction list using List.reverseRecOn with
  | nil => rfl
  | append_singleton list x ih =>
    rw [List.foldl_concat, dataAt_put, ih, List.filter_append]
    by_cases same : path = place x
    · simp [same]
    · simp [same]

/-- The last marked data on a walk is the marked data under most bits. -/
theorem visited_foldl (marked : α → Bool) (read : α → β) (unmarked : marked blank = false)
    (start : β) (path : List Bool) (trie : Trie α) :
    (visited path trie).foldl (fun last x => if marked x then read x else last) start =
      (((List.range path.length).filter fun k =>
        marked (dataAt blank (path.take (k + 1)) trie)).getLast?.map fun k =>
          read (dataAt blank (path.take (k + 1)) trie)).getD start := by
  rw [visited_eq, List.foldl_filterMap, ← foldl_marked]
  congr 1
  funext last k
  rw [dataAt]
  cases get (path.take (k + 1)) trie with
  | none => rw [Option.getD_none, unmarked, if_neg Bool.false_ne_true]
  | some data => rfl

end Trie

end BinaryTrie
