import Mathlib.Data.List.Infix
import RtbAdapter.CText
import RtbAdapter.NetProtocol

/-!
# The tree of patterns

A node of the tree is reached by the bytes on its way from the root, in lower case; a
child under an upper case letter is the one under the lower case letter. Patterns get
labels in the order in which they come first, and a label stands for a place in the
vector of all texts that were added.
-/

namespace PatternTree

open ByteWords CText
open NetProtocol (adSuccess adFailure)

variable {δ : Type}

structure AdAcbmNode where
  iLabel : Int
  iGSShift : Int := 0
  iChild : Nat := 0
  ucChild : UInt8 := 0

structure AdAcbmTree (δ : Type) where
  iPtnCount : Nat := 0
  iMinPtnSize : Int := 512
  iBCShift : UInt8 → Int
  node : Bytes → Option AdAcbmNode := fun _ => none
  vStr : List Bytes := []
  mData : Int → List δ := fun _ => []

/-- `AdAcbmTree()` leaves the bad-character table as it finds it. -/
def AdAcbmTree.init (unset : UInt8 → Int) : AdAcbmTree δ := { iBCShift := unset }

def AdAcbmTree.clear (_ : AdAcbmTree δ) : AdAcbmTree δ := { iBCShift := fun _ => 0 }

/-- As far down as there are nodes: the node, and the bytes that are left. -/
def descend (node : Bytes → Option AdAcbmNode) : Bytes → Bytes → Bytes × Bytes
  | path, [] => (path, [])
  | path, c :: rest =>
    if (node (path ++ [c])).isSome then descend node (path ++ [c]) rest else (path, c :: rest)

/-- A new node below its parent. -/
def link (node : Bytes → Option AdAcbmNode) (path : Bytes) (c : UInt8) :
    Bytes → Option AdAcbmNode :=
  let parent := (node path).map fun parent =>
    { parent with ucChild := c, iChild := parent.iChild + 1 }
  Function.update (Function.update node path parent) (path ++ [c]) (some { iLabel := -1 })

/-- New nodes for the bytes that are left. The calls of `malloc` are counted from `i` on. -/
def grow (malloc : Nat → Bool) :
    Nat → Bytes → Bytes → (Bytes → Option AdAcbmNode) → Option (Bytes → Option AdAcbmNode)
  | _, _, [], node => some node
  | i, path, c :: rest, node =>
    if malloc i then grow malloc (i + 1) (path ++ [c]) rest (link node path c) else none

/-- The root, which the first addition makes. -/
def withRoot (malloc : Nat → Bool) (node : Bytes → Option AdAcbmNode) :
    Option (Bytes → Option AdAcbmNode) :=
  if (node []).isSome then some node
  else if malloc 0 then some (Function.update node [] (some { iLabel := -2 }))
  else none

namespace AdAcbmTree

variable (tree : AdAcbmTree δ)

/-- The pattern takes the next label, unless its node has one. -/
def file (node : Bytes → Option AdAcbmNode) (word sStr : Bytes) (iPtnLen : Int) (pData : δ) :
    AdAcbmTree δ :=
  let label := ((node word).map AdAcbmNode.iLabel).getD (-1)
  let iMinPtnSize := if iPtnLen < tree.iMinPtnSize then iPtnLen else tree.iMinPtnSize
  if label < 0 then
    let next : Int := tree.iPtnCount
    { tree with
      iPtnCount := tree.iPtnCount + 1
      iMinPtnSize
      node := Function.update node word ((node word).map fun end' => { end' with iLabel := next })
      vStr := tree.vStr ++ [sStr]
      mData := Function.update tree.mData next (tree.mData next ++ [pData]) }
  else
    { tree with
      iMinPtnSize
      node
      vStr := tree.vStr ++ [sStr]
      mData := Function.update tree.mData label (tree.mData label ++ [pData]) }

/-- The addition of a pattern whose size is `iPtnLen` as an `int`. -/
def addSized (malloc : Nat → Bool) (sStr : Bytes) (iPtnLen : Int) (pData : δ) :
    Int × AdAcbmTree δ :=
  match withRoot malloc tree.node with
  | none => (adFailure, tree.clear)
  | some node =>
    if iPtnLen ≤ 0 then (adFailure, tree.clear)
    else
      let word := (sStr.take iPtnLen.toNat).map tolower
      let (path, rest) := descend node [] word
      match grow malloc 1 path rest node with
      | none => (adFailure, tree.clear)
      | some node => (adSuccess, tree.file node word sStr iPtnLen pData)

/-- `AdAcbmTreeAdd`: what it returns, and the tree, which an error clears. -/
def adAcbmTreeAdd (malloc : Nat → Bool) (sStr : Bytes) (pData : δ) : Int × AdAcbmTree δ :=
  tree.addSized malloc sStr (toInt32 sStr.length) pData

end AdAcbmTree

/-- What a search pushes for one datum, and the node it is at. -/
structure Found (δ : Type) where
  node : Bytes
  data : δ
  text : Bytes
  deriving DecidableEq

namespace AdAcbmTree

variable (tree : AdAcbmTree δ)

def labelled (path : Bytes) : Bool := (tree.node path).any fun node => 0 ≤ node.iLabel

/-- What is pushed at a node with a label. -/
def hits (path : Bytes) : List (Found δ) :=
  let label := ((tree.node path).map AdAcbmNode.iLabel).getD (-1)
  (tree.mData label).map fun data => ⟨path, data, tree.vStr.getD label.toNat []⟩

/-- The way down from a node along the text: the nodes with a label, the last node, and the byte
behind it, if the text has one. -/
def walk : Bytes → Bytes → List Bytes × Bytes × Option UInt8
  | path, [] => ([], path, none)
  | path, c :: rest =>
    let child := path ++ [tolower c]
    if (tree.node child).isSome then
      let (found, last, next) := walk child rest
      if tree.labelled child then (child :: found, last, next) else (found, last, next)
    else ([], path, some c)

/-- How far the search goes to the left from a start position. -/
def shift (last : Bytes) (next : Option UInt8) : Int :=
  match tree.node last with
  | some node =>
    if 0 < node.iChild then
      let iGSShift := ((tree.node (last ++ [node.ucChild])).map AdAcbmNode.iGSShift).getD 0
      let iBCShift := match next with
        | some ucValue => tree.iBCShift ucValue - last.length
        | none => 1
      let iShift := if iGSShift > iBCShift then iBCShift else iGSShift
      if iShift ≤ 0 then 1 else iShift
    else 1
  | none => 1

/-- The turns of the loop: below `n` start positions there are `skip` that a shift passes over. -/
def scan (text : Bytes) : Nat → Nat → List Bytes
  | _, 0 => []
  | skip + 1, n + 1 => scan text skip n
  | 0, n + 1 =>
    let (found, last, next) := tree.walk [] (text.drop n)
    found ++ scan text ((tree.shift last next).toNat - 1) n

/-- The text as far as its size is an `int`. -/
def seen (sStr : Bytes) : Bytes := sStr.take (toInt32 sStr.length).toNat

/-- `AdAcbmSearch`: what it returns and what it pushes, if it does not follow a null root. -/
def adAcbmSearch (sStr : Bytes) : Option (Nat × List (Found δ)) :=
  let iSize := toInt32 sStr.length
  if iSize < tree.iMinPtnSize then some (0, [])
  else if (tree.node []).isSome then
    let found := tree.scan (seen sStr) 0 (iSize - tree.iMinPtnSize + 1).toNat
    some (found.length, found.flatMap tree.hits)
  else none

end AdAcbmTree

/-- `mResult` of an empty map. -/
def mResult [DecidableEq δ] (found : List (Found δ)) (pData : δ) : List Bytes :=
  (found.filter fun entry => entry.data = pData).map Found.text

/-- A tree to which some patterns were added. -/
def addAll (unset : UInt8 → Int) (adds : List (Bytes × δ)) : AdAcbmTree δ :=
  adds.foldl (fun tree add => (tree.adAcbmTreeAdd (fun _ => true) add.1 add.2).2) (.init unset)

example : ((addAll (fun _ => 0) [(ascii "ab", 1), (ascii "B", 2)]).adAcbmSearch
    (ascii "xAB")).map (fun (iMatch, found) => (iMatch, mResult found 1, mResult found 2)) =
      some (2, [ascii "ab"], [ascii "B"]) := by
  decide +kernel

/-- The node of a pattern. -/
def key (sStr : Bytes) : Bytes := sStr.map tolower

def keys (adds : List (Bytes × δ)) : List Bytes := adds.map fun add => key add.1

/-- The patterns up to case, as they come first. -/
def firsts (adds : List (Bytes × δ)) : List Bytes := (keys adds).eraseDups

def dataOf (adds : List (Bytes × δ)) (q : Bytes) : List δ :=
  (adds.filter fun add => key add.1 = q).map Prod.snd

def leastSize (adds : List (Bytes × δ)) : Int :=
  adds.foldl (fun n add => if (add.1.length : Int) < n then add.1.length else n) 512

local instance bytes_lawful : LawfulBEq Bytes := inferInstance

/-- The label of a node, if it is there. -/
def labelOf (adds : List (Bytes × δ)) (p : Bytes) : Option Int :=
  if p ∈ firsts adds then some ((firsts adds).idxOf p)
  else if p = [] then if adds = [] then none else some (-2)
  else if ∃ q ∈ keys adds, p <+: q then some (-1)
  else none

/-- A node with children has the one that was added last. -/
def LastChild (node : Bytes → Option AdAcbmNode) : Prop :=
  ∀ p n, node p = some n → 0 < n.iChild → (node (p ++ [n.ucChild])).isSome

structure Holds (tree : AdAcbmTree δ) (adds : List (Bytes × δ)) : Prop where
  label : ∀ p, (tree.node p).map AdAcbmNode.iLabel = labelOf adds p
  size : tree.iMinPtnSize = leastSize adds
  vStr : tree.vStr = adds.map Prod.fst
  count : tree.iPtnCount = (firsts adds).length
  data : ∀ q ∈ firsts adds, tree.mData ((firsts adds).idxOf q) = dataOf adds q
  later : ∀ label : Int, (firsts adds).length ≤ label → tree.mData label = []
  child : LastChild tree.node
  nonempty : [] ∉ keys adds

section Adds

variable {adds : List (Bytes × δ)} {sStr p q : Bytes} {pData : δ}

theorem keys_concat : keys (adds ++ [(sStr, pData)]) = keys adds ++ [key sStr] := by
  simp [keys]

theorem mem_firsts : q ∈ firsts adds ↔ q ∈ keys adds := List.mem_eraseDups

theorem eraseDups_nodup (l : List Bytes) : l.eraseDups.Nodup := by
  induction l using List.reverseRecOn with
  | nil => simp
  | append_singleton l q ih =>
    rw [List.eraseDups_append]
    by_cases old : q ∈ l
    · simpa [List.removeAll, old] using ih
    · have new : [q].removeAll l = [q] := by simp [List.removeAll, old]
      rw [new]
      refine List.nodup_append.mpr ⟨ih, by simp [List.eraseDups_cons], ?_⟩
      intro a inside b last
      have same : b = q := by simpa [List.eraseDups_cons] using last
      rintro rfl
      exact old (same ▸ List.mem_eraseDups.mp inside)

theorem firsts_nodup : (firsts adds).Nodup := eraseDups_nodup _

theorem firsts_concat : firsts (adds ++ [(sStr, pData)]) =
    if key sStr ∈ keys adds then firsts adds else firsts adds ++ [key sStr] := by
  rw [firsts, keys_concat, List.eraseDups_append]
  by_cases old : key sStr ∈ keys adds
  · simp [List.removeAll, old, firsts]
  · simp [List.removeAll, old, firsts, List.eraseDups_cons]

theorem dataOf_concat : dataOf (adds ++ [(sStr, pData)]) q =
    dataOf adds q ++ if key sStr = q then [pData] else [] := by
  rw [dataOf, List.filter_append, List.map_append, dataOf]
  by_cases same : key sStr = q
  · simp [same]
  · simp [same]

theorem dataOf_absent (absent : q ∉ keys adds) : dataOf adds q = [] := by
  have none : (adds.filter fun add => key add.1 = q) = [] := by
    rw [List.filter_eq_nil_iff]
    intro add listed same
    exact absent (List.mem_map.mpr ⟨add, listed, by simpa using same⟩)
  rw [dataOf, none, List.map_nil]

theorem leastSize_concat : leastSize (adds ++ [(sStr, pData)]) =
    if (sStr.length : Int) < leastSize adds then (sStr.length : Int) else leastSize adds := by
  rw [leastSize, List.foldl_append]
  rfl

theorem leastSize_le (listed : q ∈ keys adds) : leastSize adds ≤ q.length := by
  induction adds using List.reverseRecOn with
  | nil => simp [keys] at listed
  | append_singleton adds add ih =>
    rw [keys_concat, List.mem_append, List.mem_singleton] at listed
    rw [leastSize_concat]
    rcases listed with old | rfl
    · have bound := ih old
      split <;> omega
    · rw [key, List.length_map]
      split <;> omega

theorem labelOf_isSome : (labelOf adds p).isSome ↔
    (p = [] ∧ adds ≠ []) ∨ ∃ q ∈ keys adds, p <+: q := by
  rw [labelOf]
  split
  · next first =>
    exact iff_of_true rfl (.inr ⟨p, mem_firsts.mp first, List.prefix_refl p⟩)
  split
  · next root =>
    subst root
    by_cases none : adds = []
    · simp [none, keys]
    · simp [none]
  · next other =>
    split
    · next on => exact iff_of_true rfl (.inr on)
    · next off => simpa [other] using off

/-- A label is at least zero at the end of a pattern and nowhere else. -/
theorem labelOf_nonneg {label : Int} (labelled : labelOf adds p = some label) :
    0 ≤ label ↔ p ∈ firsts adds := by
  rw [labelOf] at labelled
  split at labelled
  · next first =>
    obtain rfl := Option.some.inj labelled
    exact iff_of_true (by omega) first
  · next other =>
    refine iff_of_false ?_ other
    split at labelled
    · split at labelled
      · cases labelled
      · obtain rfl := Option.some.inj labelled
        decide
    · split at labelled
      · obtain rfl := Option.some.inj labelled
        decide
      · cases labelled

end Adds

section Grow

variable {node after : Bytes → Option AdAcbmNode} {malloc : Nat → Bool} {path rest p : Bytes}

theorem descend_start (node : Bytes → Option AdAcbmNode) (path rest : Bytes) :
    path <+: (descend node path rest).1 := by
  induction rest generalizing path with
  | nil => exact List.prefix_refl path
  | cons c rest ih =>
    rw [descend]
    split
    · exact (List.prefix_append path [c]).trans (ih (path ++ [c]))
    · exact List.prefix_refl path

/-- Every node on the way down is there. -/
theorem descend_there {word : Bytes} (start : path <+: word) (longer : path.length < word.length)
    (above : word <+: (descend node path rest).1) : (node word).isSome := by
  induction rest generalizing path with
  | nil =>
    exact absurd above.length_le (Nat.not_le.mpr longer)
  | cons c rest ih =>
    rw [descend] at above
    split at above
    · next child =>
      rcases Nat.lt_or_ge (path ++ [c]).length word.length with more | less
      · refine ih ?_ more above
        have last := descend_start node (path ++ [c]) rest
        exact List.prefix_of_prefix_length_le last above more.le
      · have last := descend_start node (path ++ [c]) rest
        have same : word <+: path ++ [c] := List.prefix_of_prefix_length_le above last less
        rw [List.length_append, List.length_singleton] at less
        have whole : word = path ++ [c] := by
          apply same.eq_of_length
          rw [List.length_append, List.length_singleton]
          omega
        rwa [whole]
    · exact absurd above.length_le (Nat.not_le.mpr longer)

theorem descend_spec (there : (node path).isSome) :
    (descend node path rest).1 ++ (descend node path rest).2 = path ++ rest ∧
      (node (descend node path rest).1).isSome ∧
      ∀ c left, (descend node path rest).2 = c :: left →
        node ((descend node path rest).1 ++ [c]) = none := by
  induction rest generalizing path with
  | nil => exact ⟨rfl, there, fun c left same => by cases same⟩
  | cons c rest ih =>
    rw [descend]
    split
    · next child =>
      obtain ⟨whole, last, stop⟩ := ih child
      refine ⟨?_, last, stop⟩
      rw [whole, List.append_assoc, List.singleton_append]
    · next none =>
      refine ⟨rfl, there, ?_⟩
      rintro _ _ ⟨rfl, rfl⟩
      simpa using none

/-- The nodes that are new when a branch grows below a node. -/
def New (path rest p : Bytes) : Prop := p <+: path ++ rest ∧ path.length < p.length

instance : Decidable (New path rest p) := inferInstanceAs (Decidable (_ ∧ _))

/-- What is not new on the way of a branch is above it. -/
theorem above_of_old (start : p <+: path ++ rest) (old : ¬ New path rest p) : p <+: path := by
  have short : p.length ≤ path.length := Nat.not_lt.mp fun longer => old ⟨start, longer⟩
  exact List.prefix_of_prefix_length_le start (List.prefix_append path rest) short

theorem new_nil : ¬ New path [] p := by
  rintro ⟨start, longer⟩
  have bound := start.length_le
  rw [List.append_nil] at bound
  omega

theorem new_cons {c : UInt8} :
    New path (c :: rest) p ↔ p = path ++ [c] ∨ New (path ++ [c]) rest p := by
  have whole : path ++ c :: rest = path ++ [c] ++ rest := by simp
  constructor
  · rintro ⟨start, longer⟩
    rw [whole] at start
    rcases Nat.lt_or_ge (path ++ [c]).length p.length with more | less
    · exact .inr ⟨start, more⟩
    · rw [List.length_append, List.length_singleton] at less
      left
      refine (List.prefix_of_prefix_length_le start (List.prefix_append _ _) ?_).eq_of_length ?_
      · rw [List.length_append, List.length_singleton]
        omega
      · rw [List.length_append, List.length_singleton]
        omega
  · rintro (rfl | ⟨start, longer⟩)
    · refine ⟨?_, ?_⟩
      · rw [whole]
        exact List.prefix_append _ _
      · rw [List.length_append, List.length_singleton]
        omega
    · rw [List.length_append, List.length_singleton] at longer
      exact ⟨whole ▸ start, by omega⟩

/-- Nodes from before any build. -/
def Unbuilt (node : Bytes → Option AdAcbmNode) : Prop := ∀ p n, node p = some n → n.iGSShift = 0

theorem link_same {c : UInt8} : link node path c (path ++ [c]) = some { iLabel := -1 } := by
  simp [link]

theorem link_path {c : UInt8} : link node path c path = (node path).map fun parent =>
    { parent with ucChild := c, iChild := parent.iChild + 1 } := by
  have other : path ≠ path ++ [c] := by simp
  rw [link, Function.update_of_ne other, Function.update_self]

theorem link_other {c : UInt8} (here : p ≠ path) (child : p ≠ path ++ [c]) :
    link node path c p = node p := by
  simp [link, Function.update_of_ne here, Function.update_of_ne child]

theorem link_label {c : UInt8} (p : Bytes) : (link node path c p).map AdAcbmNode.iLabel =
    if p = path ++ [c] then some (-1) else (node p).map AdAcbmNode.iLabel := by
  by_cases child : p = path ++ [c]
  · subst child
    rw [link_same, if_pos rfl]
    rfl
  · rw [if_neg child]
    by_cases here : p = path
    · subst here
      rw [link_path, Option.map_map]
      rfl
    · rw [link_other here child]

/-- A node is there when it is made, or was there before. -/
theorem isSome_of_label {old new : Option AdAcbmNode} {made : Prop} [Decidable made] {label : Int}
    (labels : new.map AdAcbmNode.iLabel =
      if made then some label else old.map AdAcbmNode.iLabel) :
    new.isSome ↔ made ∨ old.isSome := by
  have both := congrArg Option.isSome labels
  rw [Option.isSome_map] at both
  rw [both]
  split
  · next here => simp [here]
  · next away => simp [away]

theorem link_isSome {c : UInt8} (there : (node p).isSome) : (link node path c p).isSome :=
  (isSome_of_label (link_label p)).mpr (.inr there)

theorem link_lastChild {c : UInt8} (last : LastChild node) : LastChild (link node path c) := by
  intro p n found some'
  by_cases child : p = path ++ [c]
  · subst child
    rw [link_same] at found
    obtain rfl := Option.some.inj found
    exact absurd some' (by decide)
  · by_cases here : p = path
    · subst here
      rw [link_path] at found
      obtain ⟨parent, _, rfl⟩ := Option.map_eq_some_iff.mp found
      simp [link_same]
    · rw [link_other here child] at found
      exact link_isSome (last p n found some')

theorem link_unbuilt {c : UInt8} (unbuilt : Unbuilt node) : Unbuilt (link node path c) := by
  intro p n found
  by_cases child : p = path ++ [c]
  · subst child
    rw [link_same] at found
    obtain rfl := Option.some.inj found
    rfl
  · by_cases here : p = path
    · subst here
      rw [link_path] at found
      obtain ⟨parent, stored, rfl⟩ := Option.map_eq_some_iff.mp found
      exact unbuilt p parent stored
    · rw [link_other here child] at found
      exact unbuilt p n found

/-- A branch that has grown. -/
structure Grown (path rest : Bytes) (node after : Bytes → Option AdAcbmNode) : Prop where
  label : ∀ p, (after p).map AdAcbmNode.iLabel =
    if New path rest p then some (-1) else (node p).map AdAcbmNode.iLabel
  child : LastChild node → LastChild after
  unbuilt : Unbuilt node → Unbuilt after

theorem grow_grown {i : Nat} (grew : grow malloc i path rest node = some after) :
    Grown path rest node after := by
  induction rest generalizing i path node with
  | nil =>
    obtain rfl := Option.some.inj grew
    refine ⟨fun p => ?_, id, id⟩
    rw [if_neg new_nil]
  | cons c rest ih =>
    rw [grow] at grew
    split at grew
    · obtain ⟨label, child, unbuilt⟩ := ih grew
      refine ⟨fun p => ?_, child ∘ link_lastChild, unbuilt ∘ link_unbuilt⟩
      rw [label, link_label]
      by_cases new : New (path ++ [c]) rest p
      · rw [if_pos new, if_pos (new_cons.mpr (.inr new))]
      · by_cases same : p = path ++ [c]
        · rw [if_neg new, if_pos same, if_pos (new_cons.mpr (.inl same))]
        · rw [if_neg new, if_neg same, if_neg (mt new_cons.mp (not_or.mpr ⟨same, new⟩))]
    · cases grew

theorem grow_isSome (enough : ∀ i, malloc i = true) (i : Nat) (path rest : Bytes)
    (node : Bytes → Option AdAcbmNode) : (grow malloc i path rest node).isSome := by
  induction rest generalizing i path node with
  | nil => rfl
  | cons c rest ih =>
    rw [grow, if_pos (enough i)]
    exact ih (i + 1) (path ++ [c]) (link node path c)

end Grow

section Filed

variable {adds : List (Bytes × δ)} {tree : AdAcbmTree δ} {sStr : Bytes} {pData : δ}
  {node after : Bytes → Option AdAcbmNode} {malloc : Nat → Bool}

/-- The labels of the tree once it has its root. -/
def rootLabel (adds : List (Bytes × δ)) (p : Bytes) : Option Int :=
  if p = [] then some (-2) else labelOf adds p

/-- The root is there, or it is made. -/
theorem withRoot_cases {old : Bytes → Option AdAcbmNode}
    (rooted : withRoot malloc old = some node) :
    (old []).isSome ∧ node = old ∨
      old [] = none ∧ node = Function.update old [] (some { iLabel := -2 }) := by
  rw [withRoot] at rooted
  split at rooted
  · next there => exact .inl ⟨there, (Option.some.inj rooted).symm⟩
  · next absent =>
    split at rooted
    · exact .inr ⟨Option.not_isSome_iff_eq_none.mp absent, (Option.some.inj rooted).symm⟩
    · cases rooted

theorem withRoot_unbuilt {old : Bytes → Option AdAcbmNode}
    (rooted : withRoot malloc old = some node) (unbuilt : Unbuilt old) : Unbuilt node := by
  rcases withRoot_cases rooted with ⟨_, rfl⟩ | ⟨_, rfl⟩
  · exact unbuilt
  intro p n found
  by_cases here : p = []
  · subst here
    rw [Function.update_self] at found
    obtain rfl := Option.some.inj found
    rfl
  · rw [Function.update_of_ne here] at found
    exact unbuilt p n found

theorem withRoot_label (holds : Holds tree adds) (rooted : withRoot malloc tree.node = some node)
    (p : Bytes) : (node p).map AdAcbmNode.iLabel = rootLabel adds p := by
  rw [rootLabel]
  rcases withRoot_cases rooted with ⟨there, rfl⟩ | ⟨_, rfl⟩
  · rw [holds.label]
    split
    · next here =>
      subst here
      have some' : (labelOf adds []).isSome := by rwa [← holds.label, Option.isSome_map]
      have filed : adds ≠ [] := by
        rcases labelOf_isSome.mp some' with ⟨_, filed⟩ | ⟨q, listed, _⟩
        · exact filed
        · rintro rfl
          cases listed
      rw [labelOf, if_neg (mt mem_firsts.mp holds.nonempty), if_pos rfl, if_neg filed]
    · rfl
  · by_cases here : p = []
    · subst here
      simp
    · rw [Function.update_of_ne here, holds.label, if_neg here]

theorem withRoot_child (holds : Holds tree adds) (rooted : withRoot malloc tree.node = some node) :
    LastChild node := by
  rcases withRoot_cases rooted with ⟨_, rfl⟩ | ⟨_, rfl⟩
  · exact holds.child
  intro p n found some'
  by_cases here : p = []
  · subst here
    rw [Function.update_self] at found
    obtain rfl := Option.some.inj found
    exact absurd some' (by decide)
  · rw [Function.update_of_ne here] at found
    have below : p ++ [n.ucChild] ≠ [] := by simp
    rw [Function.update_of_ne below]
    exact holds.child p n found some'

/-- The labels of the nodes before a pattern gets its own. -/
def grownLabel (adds : List (Bytes × δ)) (word p : Bytes) : Option Int :=
  if p = [] then some (-2)
  else if p ∈ firsts adds then some ((firsts adds).idxOf p : Int)
  else if ∃ q ∈ keys adds ++ [word], p <+: q then some (-1)
  else none

section Labels

variable {path rest word p : Bytes}

/-- A node is new only if no pattern goes through it. -/
theorem new_other (labels : ∀ p, (node p).map AdAcbmNode.iLabel = rootLabel adds p)
    (stop : ∀ c left, rest = c :: left → node (path ++ [c]) = none) (new : New path rest p) :
    ¬ ∃ q ∈ keys adds, p <+: q := by
  obtain ⟨start, longer⟩ := new
  rintro ⟨q, listed, below⟩
  cases rest with
  | nil =>
    have bound := start.length_le
    rw [List.append_nil] at bound
    omega
  | cons c left =>
    have child : path ++ [c] <+: path ++ c :: left := by
      rw [List.prefix_append_right_inj]
      exact ⟨left, rfl⟩
    have step : path ++ [c] <+: p := by
      apply List.prefix_of_prefix_length_le child start
      rw [List.length_append, List.length_singleton]
      omega
    have label := labels (path ++ [c])
    have some' : (labelOf adds (path ++ [c])).isSome :=
      labelOf_isSome.mpr (.inr ⟨q, listed, step.trans below⟩)
    rw [stop c left rfl, rootLabel, if_neg (by simp)] at label
    rw [← label] at some'
    cases some'

/-- The nodes on the way of a word that no pattern goes through are new. -/
theorem new_of_other (labels : ∀ p, (node p).map AdAcbmNode.iLabel = rootLabel adds p)
    (whole : path ++ rest = word) (last : (node path).isSome) (root : p ≠ [])
    (other : ¬ ∃ q ∈ keys adds, p <+: q) (start : p <+: word) : New path rest p := by
  by_contra old
  have above : p <+: path := above_of_old (whole.symm ▸ start) old
  have some' : path ≠ [] := by
    rintro rfl
    exact root (List.prefix_nil.mp above)
  have label := congrArg Option.isSome (labels path)
  rw [Option.isSome_map, last, rootLabel, if_neg some'] at label
  rcases labelOf_isSome.mp label.symm with ⟨none, _⟩ | ⟨q, listed, below⟩
  · exact some' none
  · exact other ⟨q, listed, above.trans below⟩

/-- The labels once the nodes of a word are there. -/
theorem grown_label (labels : ∀ p, (node p).map AdAcbmNode.iLabel = rootLabel adds p)
    (whole : path ++ rest = word) (last : (node path).isSome)
    (stop : ∀ c left, rest = c :: left → node (path ++ [c]) = none)
    (grown : Grown path rest node after) (p : Bytes) :
    (after p).map AdAcbmNode.iLabel = grownLabel adds word p := by
  rw [grown.label, labels, grownLabel]
  by_cases root : p = []
  · subst root
    have old : ¬ New path rest [] := fun new => absurd new.2 (by simp)
    rw [if_neg old, if_pos rfl, rootLabel, if_pos rfl]
  rw [if_neg root, rootLabel, if_neg root]
  by_cases there : ∃ q ∈ keys adds, p <+: q
  · have old : ¬ New path rest p := fun new => new_other labels stop new there
    have more : ∃ q ∈ keys adds ++ [word], p <+: q := by
      obtain ⟨q, listed, below⟩ := there
      exact ⟨q, List.mem_append_left _ listed, below⟩
    rw [if_neg old, labelOf, if_neg root, if_pos there, if_pos more]
  · have other : p ∉ firsts adds := fun first =>
      there ⟨p, mem_firsts.mp first, List.prefix_refl p⟩
    have new : New path rest p ↔ ∃ q ∈ keys adds ++ [word], p <+: q := by
      constructor
      · rintro ⟨start, _⟩
        exact ⟨word, by simp, whole ▸ start⟩
      · rintro ⟨q, listed, start⟩
        rcases List.mem_append.mp listed with old | same
        · exact absurd ⟨q, old, start⟩ there
        · obtain rfl := List.mem_singleton.mp same
          exact new_of_other labels whole last root there start
    rw [labelOf, if_neg other, if_neg root, if_neg there, if_neg other]
    simp only [new]

end Labels

theorem file_eq_new {word : Bytes} {iPtnLen : Int} {n : AdAcbmNode} (stored : node word = some n)
    (new : n.iLabel < 0) :
    tree.file node word sStr iPtnLen pData =
      { tree with
        iPtnCount := tree.iPtnCount + 1
        iMinPtnSize := if iPtnLen < tree.iMinPtnSize then iPtnLen else tree.iMinPtnSize
        node := Function.update node word (some { n with iLabel := tree.iPtnCount })
        vStr := tree.vStr ++ [sStr]
        mData := Function.update tree.mData tree.iPtnCount
          (tree.mData tree.iPtnCount ++ [pData]) } := by
  rw [AdAcbmTree.file, stored]
  exact if_pos new

theorem file_eq_old {word : Bytes} {iPtnLen : Int} {n : AdAcbmNode} (stored : node word = some n)
    (old : ¬ n.iLabel < 0) :
    tree.file node word sStr iPtnLen pData =
      { tree with
        iMinPtnSize := if iPtnLen < tree.iMinPtnSize then iPtnLen else tree.iMinPtnSize
        node
        vStr := tree.vStr ++ [sStr]
        mData := Function.update tree.mData n.iLabel (tree.mData n.iLabel ++ [pData]) } := by
  rw [AdAcbmTree.file, stored]
  exact if_neg old

theorem file_size (holds : Holds tree adds) :
    (if (sStr.length : Int) < tree.iMinPtnSize then (sStr.length : Int) else tree.iMinPtnSize) =
      leastSize (adds ++ [(sStr, pData)]) := by
  rw [leastSize_concat, holds.size]

theorem file_texts (holds : Holds tree adds) :
    tree.vStr ++ [sStr] = (adds ++ [(sStr, pData)]).map Prod.fst := by
  rw [holds.vStr, List.map_append]
  rfl

theorem file_nonempty (holds : Holds tree adds) (some' : sStr ≠ []) :
    [] ∉ keys (adds ++ [(sStr, pData)]) := by
  have word : key sStr ≠ [] := by simpa [key] using some'
  rw [keys_concat, List.mem_append, List.mem_singleton, not_or]
  exact ⟨holds.nonempty, word.symm⟩

/-- Another label is all that changes of a node. -/
theorem relabel_cases {word p : Bytes} {label : Int} {n : AdAcbmNode}
    (found : Function.update node word
      ((node word).map fun end' => { end' with iLabel := label }) p = some n) :
    ∃ stored, node p = some stored ∧ (n = stored ∨ n = { stored with iLabel := label }) := by
  by_cases here : p = word
  · subst here
    rw [Function.update_self] at found
    obtain ⟨stored, there, rfl⟩ := Option.map_eq_some_iff.mp found
    exact ⟨stored, there, .inr rfl⟩
  · rw [Function.update_of_ne here] at found
    exact ⟨n, found, .inl rfl⟩

theorem relabel_isSome {word p : Bytes} {label : Int} : (Function.update node word
    ((node word).map fun end' => { end' with iLabel := label }) p).isSome = (node p).isSome := by
  by_cases here : p = word
  · subst here
    rw [Function.update_self, Option.isSome_map]
  · rw [Function.update_of_ne here]

theorem LastChild.relabel {word : Bytes} {label : Int} (child : LastChild node) :
    LastChild (Function.update node word
      ((node word).map fun end' => { end' with iLabel := label })) := by
  intro p n found some'
  rw [relabel_isSome]
  obtain ⟨stored, there, rfl | rfl⟩ := relabel_cases found
  · exact child p n there some'
  · exact child p stored there some'

/-- A pattern that is there gets more data, and its text joins the vector. -/
theorem file_old (holds : Holds tree adds) (some' : sStr ≠ []) (child : LastChild node)
    (labels : ∀ p, (node p).map AdAcbmNode.iLabel = grownLabel adds (key sStr) p)
    (old : key sStr ∈ keys adds) :
    Holds (tree.file node (key sStr) sStr sStr.length pData) (adds ++ [(sStr, pData)]) := by
  have word : key sStr ≠ [] := by simpa [key] using some'
  have filed : adds ++ [(sStr, pData)] ≠ [] := by simp
  have first : key sStr ∈ firsts adds := mem_firsts.mpr old
  have label : ((node (key sStr)).map AdAcbmNode.iLabel).getD (-1) =
      ((firsts adds).idxOf (key sStr) : Int) := by
    rw [labels, grownLabel, if_neg word, if_pos first, Option.getD_some]
  have same : firsts (adds ++ [(sStr, pData)]) = firsts adds := by rw [firsts_concat, if_pos old]
  have nonneg : ¬ ((firsts adds).idxOf (key sStr) : Int) < 0 := by omega
  simp only [AdAcbmTree.file, label, if_neg nonneg]
  constructor
  case label =>
    intro p
    dsimp only
    rw [labels, grownLabel, labelOf, same, keys_concat]
    by_cases root : p = []
    · subst root
      rw [if_pos rfl, if_neg (mt mem_firsts.mp holds.nonempty), if_pos rfl, if_neg filed]
    · rw [if_neg root, if_neg root]
  case size => exact file_size holds
  case vStr => exact file_texts holds
  case count =>
    rw [same]
    exact holds.count
  case data =>
    intro q inside
    dsimp only
    rw [same] at inside ⊢
    rw [dataOf_concat]
    by_cases here : key sStr = q
    · subst here
      rw [Function.update_self, holds.data _ first, if_pos rfl]
    · have other : ((firsts adds).idxOf q : Int) ≠ (firsts adds).idxOf (key sStr) := by
        intro together
        have place := Int.ofNat_inj.mp together
        exact here ((List.idxOf_inj first).mp place.symm)
      rw [Function.update_of_ne other, holds.data q inside, if_neg here, List.append_nil]
  case later =>
    intro l late
    dsimp only
    rw [same] at late
    have place := List.idxOf_lt_length_of_mem first
    have other : l ≠ (firsts adds).idxOf (key sStr) := by omega
    rw [Function.update_of_ne other]
    exact holds.later l late
  case child => exact child
  case nonempty => exact file_nonempty holds some'

/-- A new pattern gets the next label. -/
theorem file_new (holds : Holds tree adds) (some' : sStr ≠ []) (child : LastChild node)
    (labels : ∀ p, (node p).map AdAcbmNode.iLabel = grownLabel adds (key sStr) p)
    (new : key sStr ∉ keys adds) :
    Holds (tree.file node (key sStr) sStr sStr.length pData) (adds ++ [(sStr, pData)]) := by
  have word : key sStr ≠ [] := by simpa [key] using some'
  have filed : adds ++ [(sStr, pData)] ≠ [] := by simp
  have other : key sStr ∉ firsts adds := mt mem_firsts.mp new
  have last : ∃ q ∈ keys adds ++ [key sStr], key sStr <+: q :=
    ⟨key sStr, by simp, List.prefix_refl _⟩
  have bare : (node (key sStr)).map AdAcbmNode.iLabel = some (-1) := by
    rw [labels, grownLabel, if_neg word, if_neg other, if_pos last]
  have label : ((node (key sStr)).map AdAcbmNode.iLabel).getD (-1) = -1 := by
    rw [bare, Option.getD_some]
  have longer : firsts (adds ++ [(sStr, pData)]) = firsts adds ++ [key sStr] := by
    rw [firsts_concat, if_neg new]
  have neg : (-1 : Int) < 0 := by decide
  simp only [AdAcbmTree.file, label, if_pos neg, holds.count]
  constructor
  case label =>
    intro p
    dsimp only
    rw [labelOf, longer, keys_concat]
    by_cases here : p = key sStr
    · subst here
      obtain ⟨n, found, _⟩ := Option.map_eq_some_iff.mp bare
      rw [Function.update_self, found, if_pos (by simp), List.idxOf_append_of_notMem other]
      simp
    · have stays : p ∈ firsts adds ++ [key sStr] ↔ p ∈ firsts adds := by simp [here]
      rw [Function.update_of_ne here, labels, grownLabel]
      by_cases root : p = []
      · subst root
        have none : [] ∉ firsts adds := mt mem_firsts.mp holds.nonempty
        rw [if_pos rfl, if_neg (mt stays.mp none), if_pos rfl, if_neg filed]
      · rw [if_neg root, if_neg root]
        by_cases first : p ∈ firsts adds
        · rw [if_pos first, if_pos (stays.mpr first), List.idxOf_append_of_mem first]
        · rw [if_neg first, if_neg (mt stays.mp first)]
  case size => exact file_size holds
  case vStr => exact file_texts holds
  case count => simp [longer]
  case data =>
    intro q inside
    dsimp only
    rw [longer] at inside ⊢
    rw [dataOf_concat]
    by_cases here : key sStr = q
    · subst here
      have place : (firsts adds ++ [key sStr]).idxOf (key sStr) = (firsts adds).length := by
        rw [List.idxOf_append_of_notMem other]
        simp
      rw [place, Function.update_self, holds.later _ le_rfl, dataOf_absent new, if_pos rfl]
    · have first : q ∈ firsts adds := by simpa [Ne.symm here] using inside
      have place := List.idxOf_lt_length_of_mem first
      have before : ((firsts adds).idxOf q : Int) ≠ (firsts adds).length := by omega
      rw [List.idxOf_append_of_mem first, Function.update_of_ne before, holds.data q first,
        if_neg here, List.append_nil]
  case later =>
    intro l late
    dsimp only
    rw [longer, List.length_append, List.length_singleton] at late
    have behind : l ≠ (firsts adds).length := by omega
    rw [Function.update_of_ne behind]
    exact holds.later l (by omega)
  case child => exact child.relabel
  case nonempty => exact file_nonempty holds some'

theorem file_unbuilt {word : Bytes} {iPtnLen : Int} (unbuilt : Unbuilt node) :
    Unbuilt (tree.file node word sStr iPtnLen pData).node := by
  simp only [AdAcbmTree.file]
  split
  · intro p n found
    obtain ⟨stored, there, rfl | rfl⟩ := relabel_cases found
    · exact unbuilt p n there
    · exact unbuilt p stored there
  · exact unbuilt

/-- An addition succeeds with enough memory. -/
theorem add_holds (holds : Holds tree adds) (enough : ∀ i, malloc i = true) (some' : sStr ≠ [])
    (small : sStr.length < 2 ^ 31) :
    ∃ after, tree.adAcbmTreeAdd malloc sStr pData = (adSuccess, after) ∧
      Holds after (adds ++ [(sStr, pData)]) ∧ (Unbuilt tree.node → Unbuilt after.node) := by
  have size : toInt32 sStr.length = sStr.length := toInt32_of_range (by omega) (by omega)
  have positive : ¬ (sStr.length : Int) ≤ 0 := by
    have := List.length_pos_iff.mpr some'
    omega
  have whole : (sStr.take (sStr.length : Int).toNat).map tolower = key sStr := by
    rw [Int.toNat_natCast, List.take_length, key]
  obtain ⟨node, rooted⟩ : ∃ node, withRoot malloc tree.node = some node := by
    rw [withRoot, enough]
    by_cases there : (tree.node []).isSome
    · exact ⟨tree.node, if_pos there⟩
    · exact ⟨_, if_neg there⟩
  have labels := withRoot_label holds rooted
  have child := withRoot_child holds rooted
  have root : (node []).isSome := by
    have label := congrArg Option.isSome (labels [])
    rw [Option.isSome_map, rootLabel, if_pos rfl] at label
    exact label
  obtain ⟨joined, last, stop⟩ :
      (descend node [] (key sStr)).1 ++ (descend node [] (key sStr)).2 = [] ++ key sStr ∧
        (node (descend node [] (key sStr)).1).isSome ∧
        ∀ c left, (descend node [] (key sStr)).2 = c :: left →
          node ((descend node [] (key sStr)).1 ++ [c]) = none := descend_spec root
  rw [List.nil_append] at joined
  obtain ⟨after, grew⟩ := Option.isSome_iff_exists.mp
    (grow_isSome enough 1 (descend node [] (key sStr)).1 (descend node [] (key sStr)).2 node)
  have grown := grow_grown grew
  have labelled := grown_label labels joined last stop grown
  refine ⟨tree.file after (key sStr) sStr sStr.length pData, ?_, ?_, ?_⟩
  · rw [AdAcbmTree.adAcbmTreeAdd, size, AdAcbmTree.addSized, rooted]
    dsimp only
    rw [if_neg positive, whole, grew]
  · by_cases old : key sStr ∈ keys adds
    · exact file_old holds some' (grown.child child) labelled old
    · exact file_new holds some' (grown.child child) labelled old
  · exact fun flat => file_unbuilt (grown.unbuilt (withRoot_unbuilt rooted flat))

end Filed

/-- Every pattern is a non-empty text, and its size is an `int`. -/
def Sized (adds : List (Bytes × δ)) : Prop := ∀ add ∈ adds, add.1 ≠ [] ∧ add.1.length < 2 ^ 31

theorem init_holds (unset : UInt8 → Int) : Holds (.init unset : AdAcbmTree δ) [] where
  label p := by
    by_cases root : p = []
    · simp [AdAcbmTree.init, labelOf, firsts, keys, root]
    · simp [AdAcbmTree.init, labelOf, firsts, keys, root]
  size := rfl
  vStr := rfl
  count := rfl
  data q inside := absurd (mem_firsts.mp inside) (by simp [keys])
  later _ _ := rfl
  child _ _ found := by cases found
  nonempty := by simp [keys]

/-- A tree holds what was added to it. -/
theorem addAll_holds (unset : UInt8 → Int) {adds : List (Bytes × δ)} (sized : Sized adds) :
    Holds (addAll unset adds) adds ∧ Unbuilt (addAll unset adds).node := by
  induction adds using List.reverseRecOn with
  | nil => exact ⟨init_holds unset, fun p n found => by cases found⟩
  | append_singleton adds add ih =>
    obtain ⟨holds, unbuilt⟩ := ih fun other listed => sized other (List.mem_append_left _ listed)
    obtain ⟨some', small⟩ := sized add (by simp)
    obtain ⟨after, added, holds', flat⟩ : ∃ after,
        (addAll unset adds).adAcbmTreeAdd (fun _ => true) add.1 add.2 = (adSuccess, after) ∧
          Holds after (adds ++ [(add.1, add.2)]) ∧
          (Unbuilt (addAll unset adds).node → Unbuilt after.node) :=
      add_holds holds (fun _ => rfl) some' small
    have result : addAll unset (adds ++ [add]) = after := by
      rw [addAll, List.foldl_append]
      exact congrArg Prod.snd added
    rw [result]
    exact ⟨holds', flat unbuilt⟩

end PatternTree
