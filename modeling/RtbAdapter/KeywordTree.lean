import RtbAdapter.FilterMark

/-!
# What the tree of patterns finds

The tree is a function of the marks that were added since it was last cleared. A
search finds those marks whose key stands somewhere in the text, in any case.
-/

namespace KeywordTree

open ByteWords CText PlanningUnit RtbBase FilterTables FilterMark
open NetProtocol (adSuccess adFailure)

/-- The key stands in the text, whatever the case of its letters. -/
def Stands (key text : Bytes) : Prop := key.map tolower <:+: text.map tolower

instance (key text : Bytes) : Decidable (Stands key text) :=
  inferInstanceAs (Decidable (key.map tolower <:+: text.map tolower))

/-- The tree that holds some marks. -/
def treeOf (marks : List AdMarkInfo) : AdAcbmTree where
  root := !marks.isEmpty
  minPtnSize := marks.foldl (fun n mark => min mark.key.length n) 512
  nodes := marks.flatMap fun mark => (mark.key.map tolower).inits.filter fun node => node ≠ []
  data := marks.map fun mark => (mark.key.map tolower, mark)

variable {marks : List AdMarkInfo} {mark info : AdMarkInfo} {text : Bytes}

theorem treeOf_nil : treeOf [] = {} := rfl

theorem add_treeOf (some' : mark.key ≠ []) :
    (treeOf marks).add mark = (adSuccess, treeOf (marks ++ [mark])) := by
  rw [AdAcbmTree.add, if_neg some']
  simp [treeOf]

theorem add_empty (tree : AdAcbmTree) (empty : mark.key = []) :
    tree.add mark = (adFailure, treeOf []) := by
  rw [AdAcbmTree.add, if_pos empty, treeOf_nil]

/-- The nodes on the way to a mark. -/
theorem mem_nodes {node : Bytes} :
    node ∈ (treeOf marks).nodes ↔
      node ≠ [] ∧ ∃ mark ∈ marks, node <+: mark.key.map tolower := by
  simp only [treeOf, List.mem_flatMap, List.mem_filter, List.mem_inits, decide_eq_true_eq]
  constructor
  · rintro ⟨mark, listed, path, some'⟩
    exact ⟨some', mark, listed, path⟩
  · rintro ⟨some', mark, listed, path⟩
    exact ⟨mark, listed, path, some'⟩

theorem mem_data {node : Bytes} :
    info ∈ (treeOf marks).data.find node ↔ info ∈ marks ∧ info.key.map tolower = node := by
  simp only [AdMap.find, treeOf, List.mem_map, List.mem_filter, decide_eq_true_eq]
  constructor
  · rintro ⟨_, ⟨⟨mark, listed, rfl⟩, same⟩, rfl⟩
    exact ⟨listed, same⟩
  · rintro ⟨listed, same⟩
    exact ⟨_, ⟨⟨info, listed, rfl⟩, same⟩, rfl⟩

/-- A walk finds the marks that go on from its node along the text. -/
theorem mem_walk (node : Bytes) :
    info ∈ (treeOf marks).walk node text ↔
      info ∈ marks ∧ ∃ path, path ≠ [] ∧ path <+: text.map tolower ∧
        info.key.map tolower = node ++ path := by
  induction text generalizing node with
  | nil =>
    rw [AdAcbmTree.walk]
    constructor
    · intro inside
      exact absurd inside List.not_mem_nil
    · rintro ⟨_, path, some', start, _⟩
      exact absurd (List.prefix_nil.mp start) some'
  | cons b text ih =>
    rw [AdAcbmTree.walk]
    constructor
    · intro inside
      split at inside
      case isTrue =>
        rcases List.mem_append.mp inside with here | later
        · obtain ⟨listed, same⟩ := mem_data.mp here
          exact ⟨listed, [tolower b], List.cons_ne_nil _ _,
            ⟨text.map tolower, rfl⟩, same⟩
        · obtain ⟨listed, path, _, ⟨rest, start⟩, same⟩ := (ih _).mp later
          refine ⟨listed, tolower b :: path, List.cons_ne_nil _ _, ⟨rest, ?_⟩, ?_⟩
          · rw [List.map_cons, ← start, List.cons_append]
          · rw [same, List.append_assoc, List.singleton_append]
      case isFalse => exact absurd inside List.not_mem_nil
    · rintro ⟨listed, path, some', start, same⟩
      obtain ⟨c, path, rfl⟩ := List.exists_cons_of_ne_nil some'
      rw [List.map_cons, List.cons_prefix_cons] at start
      obtain ⟨rfl, start⟩ := start
      have reached : node ++ [tolower b] ∈ (treeOf marks).nodes := by
        refine mem_nodes.mpr ⟨by simp, info, listed, path, ?_⟩
        rw [same, List.append_assoc, List.singleton_append]
      rw [if_pos reached, List.mem_append]
      cases path with
      | nil => exact .inl (mem_data.mpr ⟨listed, same⟩)
      | cons d path =>
        refine .inr ((ih _).mpr ⟨listed, d :: path, List.cons_ne_nil _ _, start, ?_⟩)
        rw [same, List.append_assoc, List.singleton_append]

theorem minPtnSize_le (inside : info ∈ marks) : (treeOf marks).minPtnSize ≤ info.key.length := by
  have step : ∀ (marks : List AdMarkInfo) (n : Nat),
      marks.foldl (fun n mark => min mark.key.length n) n ≤ n ∧
        ∀ info ∈ marks, marks.foldl (fun n mark => min mark.key.length n) n ≤ info.key.length := by
    intro marks
    induction marks with
    | nil => simp
    | cons mark marks ih =>
      intro n
      obtain ⟨bound, below⟩ := ih (min mark.key.length n)
      rw [List.foldl_cons]
      refine ⟨by omega, List.forall_mem_cons.mpr ⟨by omega, below⟩⟩
  exact (step marks 512).2 info inside

/-- A text that is shorter than all keys has none of them in it. -/
theorem stands_length (stands : Stands info.key text) : info.key.length ≤ text.length := by
  have bound := stands.length_le
  rwa [List.length_map, List.length_map] at bound

/-- The search of a tree that holds some marks. -/
theorem search_treeOf (filed : marks ≠ []) (some' : ∀ mark ∈ marks, mark.key ≠ []) (text : Bytes) :
    ∃ found, (treeOf marks).search text = some found ∧
      ∀ info, info ∈ found ↔ info ∈ marks ∧ Stands info.key text := by
  rw [AdAcbmTree.search]
  split
  case isTrue short =>
    refine ⟨[], rfl, fun info => ⟨fun inside => absurd inside List.not_mem_nil, ?_⟩⟩
    rintro ⟨listed, stands⟩
    have least := minPtnSize_le listed
    have bound := stands_length stands
    omega
  case isFalse long =>
    have root : (treeOf marks).root = true := by
      simpa [treeOf] using filed
    refine ⟨_, by rw [root]; rfl, fun info => ?_⟩
    rw [List.mem_flatMap]
    constructor
    · rintro ⟨base, _, inside⟩
      obtain ⟨listed, path, _, start, same⟩ := (mem_walk []).mp inside
      refine ⟨listed, ?_⟩
      rw [Stands, same, List.nil_append]
      rw [List.map_drop] at start
      exact start.isInfix.trans (List.drop_suffix base _).isInfix
    · rintro ⟨listed, stands⟩
      have least := minPtnSize_le listed
      obtain ⟨before, after, split⟩ := stands
      have lengths := congrArg List.length split
      simp only [List.length_append, List.length_map] at lengths
      refine ⟨before.length, ?_, (mem_walk []).mpr ⟨listed, info.key.map tolower, ?_, ?_, rfl⟩⟩
      · rw [List.mem_reverse, List.mem_range]
        omega
      · simpa using some' info listed
      · rw [List.map_drop, ← split, List.append_assoc, List.drop_left]
        exact List.prefix_append _ _

/-- An empty tree answers short texts and crashes on others. -/
theorem search_nil (text : Bytes) :
    (treeOf []).search text = if text.length < 512 then some [] else none := rfl

end KeywordTree
