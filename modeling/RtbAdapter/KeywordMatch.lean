import RtbAdapter.FilterResults
import RtbAdapter.KeywordTree

/-!
# Matching keywords

An order with a keyword of which nothing is left clears the tree. What is left of
the keywords after the last such order is searched for in every mark; a keyword
that is found and does not fit its mark waits, until some keyword fits.
-/

namespace KeywordMatch

open ByteWords CText PlanningUnit RtbBase FilterTables FilterMark FilterReferences FilterResults
open KeywordTree
open NetProtocol (adSuccess adFailure)

/-- The marks of the keywords of an order. -/
def keywordsOf (placed : Allocated) : List AdMarkInfo :=
  placed.unit.keyWord.map fun node => ⟨node.type, adFilterMarkGetStr node.key, placed.address⟩

/-- Something is left of every keyword. -/
def Usable (placed : Allocated) : Prop := ∀ info ∈ keywordsOf placed, info.key ≠ []

instance (placed : Allocated) : Decidable (Usable placed) :=
  inferInstanceAs (Decidable (∀ info ∈ keywordsOf placed, info.key ≠ []))

/-- The keywords that the tree holds after some orders. -/
def filed (orders : List Allocated) : List AdMarkInfo :=
  orders.foldl (fun marks placed => if Usable placed then marks ++ keywordsOf placed else []) []

variable {marks found other : List AdMarkInfo} {info : AdMarkInfo} {orders : List Allocated}

theorem addMarks_treeOf (address : Nat) (nodes : List AdMarkNode) {filter : AdFilterMark}
    (tree : filter.tree = treeOf marks) :
    let keywords : List AdMarkInfo :=
      nodes.map fun node => ⟨node.type, adFilterMarkGetStr node.key, address⟩
    ((addMarks address nodes filter).1 = adSuccess ↔ ∀ info ∈ keywords, info.key ≠ []) ∧
      (addMarks address nodes filter).2.tree =
        if ∀ info ∈ keywords, info.key ≠ [] then treeOf (marks ++ keywords) else treeOf [] := by
  induction nodes generalizing filter marks with
  | nil => simp [addMarks, tree]
  | cons node nodes ih =>
    rw [addMarks]
    dsimp only
    let mark : AdMarkInfo := ⟨node.type, adFilterMarkGetStr node.key, address⟩
    by_cases empty : mark.key = []
    · rw [add_empty filter.tree empty]
      have failed : ¬ (adFailure = adSuccess) := by decide
      rw [if_neg failed]
      have empty' : adFilterMarkGetStr node.key = [] := empty
      simp [failed, empty']
    · rw [tree, add_treeOf empty, if_pos rfl]
      let next : AdFilterMark :=
        { filter with tree := treeOf (marks ++ [mark]), marks := filter.marks ++ [mark] }
      have whole : next.tree = treeOf (marks ++ [mark]) := rfl
      obtain ⟨success, after⟩ := ih whole
      have some' : adFilterMarkGetStr node.key ≠ [] := empty
      rw [success, after]
      simp [mark, some']

theorem addData_treeOf {filter : AdFilterMark} (tree : filter.tree = treeOf marks)
    (placed : Allocated) :
    (filter.addData placed).tree =
      treeOf (if Usable placed then marks ++ keywordsOf placed else []) := by
  obtain ⟨_, after⟩ := addMarks_treeOf placed.address placed.unit.keyWord tree
  have kept : ∀ filter : AdFilterMark, (addAudience placed filter).tree = filter.tree := by
    intro filter
    rw [addAudience]
    dsimp only
    split <;> rfl
  have same : (filter.addData placed).tree =
      (addMarks placed.address placed.unit.keyWord filter).2.tree := by
    rw [AdFilterMark.addData]
    dsimp only
    split
    · exact kept _
    · rfl
  rw [same, after, ← apply_ite treeOf]
  rfl

theorem tree_filed (orders : List Allocated) :
    (orders.foldl AdFilterMark.addData {}).tree = treeOf (filed orders) := by
  have step : ∀ (orders : List Allocated) (marks : List AdMarkInfo) (filter : AdFilterMark),
      filter.tree = treeOf marks →
      (orders.foldl AdFilterMark.addData filter).tree = treeOf (orders.foldl
        (fun marks placed => if Usable placed then marks ++ keywordsOf placed else []) marks) := by
    intro orders
    induction orders with
    | nil => exact fun _ _ tree => tree
    | cons placed orders ih => exact fun marks filter tree => ih _ _ (addData_treeOf tree placed)
  exact step orders [] {} rfl

/-- A keyword is filed when all orders from its own on are usable. -/
theorem mem_filed :
    info ∈ filed orders ↔ ∃ before placed after, orders = before ++ placed :: after ∧
      info ∈ keywordsOf placed ∧ ∀ later ∈ placed :: after, Usable later := by
  induction orders using List.reverseRecOn with
  | nil => simp [filed]
  | append_singleton orders last ih =>
    have step : filed (orders ++ [last]) =
        if Usable last then filed orders ++ keywordsOf last else [] := by
      rw [filed, List.foldl_append]
      rfl
    rw [step]
    constructor
    · intro inside
      split at inside
      case isFalse => exact absurd inside List.not_mem_nil
      case isTrue usable =>
        rcases List.mem_append.mp inside with old | new
        · obtain ⟨before, placed, after, rfl, listed, all⟩ := ih.mp old
          refine ⟨before, placed, after ++ [last], by simp, listed, ?_⟩
          intro later inside
          rcases List.mem_append.mp (List.cons_append ▸ inside : later ∈ placed :: after ++ [last])
            with inside | same
          · exact all later inside
          · rwa [List.mem_singleton.mp same]
        · exact ⟨orders, last, [], rfl, new, by simpa using usable⟩
    · rintro ⟨before, placed, after, split, listed, all⟩
      rcases List.eq_nil_or_concat after with rfl | ⟨after', last', rfl⟩
      · obtain ⟨rfl, same⟩ := List.append_inj' split rfl
        obtain rfl := List.singleton_injective same
        rw [if_pos (all _ List.mem_cons_self)]
        exact List.mem_append_right _ listed
      · rw [List.concat_eq_append, ← List.cons_append, ← List.append_assoc] at split
        obtain ⟨rfl, same⟩ := List.append_inj' split rfl
        obtain rfl := List.singleton_injective same
        rw [if_pos (all _ (by simp))]
        refine List.mem_append_left _ (ih.mpr ⟨before, placed, after', rfl, listed, ?_⟩)
        intro later inside
        refine all later ?_
        rw [List.concat_eq_append, ← List.cons_append]
        exact List.mem_append_left _ inside

theorem filed_usable (inside : info ∈ filed orders) : info.key ≠ [] := by
  obtain ⟨_, placed, _, _, listed, all⟩ := mem_filed.mp inside
  exact all placed List.mem_cons_self info listed

/-- A mark is looked at: the keywords that stand in it join those that wait, and none wait any
longer once one of them fits. -/
def wait (marks found : List AdMarkInfo) (mark : AdUserMark) : List AdMarkInfo :=
  let found := found ++ marks.filter fun info => Stands info.key mark.mark
  if found.any (markFits mark) then [] else found

/-- The keywords that wait after some marks. -/
def waiting (marks : List AdMarkInfo) (looked : List AdUserMark) : List AdMarkInfo :=
  looked.foldl (wait marks) []

/-- A keyword of the order stands in a mark and fits it. -/
def Meets (marks : List AdMarkInfo) (looked : List AdUserMark) (a : Nat) : Prop :=
  ∃ mark ∈ looked, ∃ info ∈ marks, Stands info.key mark.mark ∧ markFits mark info ∧ info.data = a

/-- A keyword of the order still waits when a later mark comes that it fits. -/
def Stale (marks : List AdMarkInfo) (looked : List AdUserMark) (a : Nat) : Prop :=
  ∃ before mark after, looked = before ++ mark :: after ∧
    ∃ info ∈ waiting marks before, markFits mark info ∧ info.data = a

/-- The same with keywords that wait from the start. -/
def KeptFrom (marks found : List AdMarkInfo) (looked : List AdUserMark) (a : Nat) : Prop :=
  ∃ before mark after, looked = before ++ mark :: after ∧
    ∃ info ∈ before.foldl (wait marks) found ++ marks.filter fun info => Stands info.key mark.mark,
      markFits mark info ∧ info.data = a

theorem keptFrom_nil (looked : List AdUserMark) (a : Nat) :
    KeptFrom marks [] looked a ↔ Meets marks looked a ∨ Stale marks looked a := by
  constructor
  · rintro ⟨before, mark, after, rfl, info, inside, fits, same⟩
    rcases List.mem_append.mp inside with waits | stands
    · exact .inr ⟨before, mark, after, rfl, info, waits, fits, same⟩
    · obtain ⟨listed, stands⟩ := List.mem_filter.mp stands
      exact .inl ⟨mark, by simp, info, listed, by simpa using stands, fits, same⟩
  · rintro (⟨mark, looked, info, listed, stands, fits, same⟩ |
      ⟨before, mark, after, split, info, waits, fits, same⟩)
    · obtain ⟨before, after, rfl⟩ := List.append_of_mem looked
      refine ⟨before, mark, after, rfl, info, List.mem_append_right _ ?_, fits, same⟩
      exact List.mem_filter.mpr ⟨listed, by simpa using stands⟩
    · exact ⟨before, mark, after, split, info, List.mem_append_left _ waits, fits, same⟩

theorem keptFrom_cons {mark : AdUserMark} {looked : List AdUserMark} {a : Nat} :
    KeptFrom marks found (mark :: looked) a ↔
      (∃ info ∈ found ++ marks.filter fun info => Stands info.key mark.mark,
        markFits mark info ∧ info.data = a) ∨ KeptFrom marks (wait marks found mark) looked a := by
  constructor
  · rintro ⟨before, last, after, split, kept⟩
    cases before with
    | nil =>
      obtain ⟨rfl, rfl⟩ := List.cons.inj split
      exact .inl kept
    | cons first before =>
      obtain ⟨rfl, rfl⟩ := List.cons.inj split
      exact .inr ⟨before, last, after, rfl, kept⟩
  · rintro (kept | ⟨before, last, after, rfl, kept⟩)
    · exact ⟨[], mark, looked, rfl, kept⟩
    · exact ⟨mark :: before, last, after, rfl, kept⟩

section Loop

variable {unit : Nat → AdPlanningUnit} {known ready : List Nat} {result : AdResult} {b : Nat}

theorem mem_upsert_keys {change : AdRtbFilterResult → AdRtbFilterResult} {a : Nat}
    (ordered : Ordered unit result)
    (apart : ∀ entry ∈ result, execId unit a = execId unit entry.1 → a = entry.1) :
    b ∈ (upsert unit change a result).map Prod.fst ↔ b = a ∨ b ∈ result.map Prod.fst := by
  simp only [List.mem_map, mem_upsert change ordered apart]
  constructor
  · rintro ⟨entry, rfl | ⟨inside, _⟩, rfl⟩
    · exact .inl rfl
    · exact .inr ⟨entry, inside, rfl⟩
  · rintro (rfl | ⟨entry, inside, rfl⟩)
    · exact ⟨_, .inl rfl, rfl⟩
    · by_cases same : entry.1 = a
      · exact ⟨(a, _), .inl rfl, same.symm⟩
      · exact ⟨entry, .inr ⟨inside, same⟩, rfl⟩

/-- What some upserts leave. -/
theorem mem_upserts_keys (change : Nat → AdRtbFilterResult → AdRtbFilterResult) {added : List Nat}
    (apart : Apart unit known) (inside : ∀ a ∈ added, a ∈ known) (ordered : Ordered unit result)
    (within : Within known result) :
    let after := added.foldl (fun result a => upsert unit (change a) a result) result
    Ordered unit after ∧ Within known after ∧
      ∀ b, b ∈ after.map Prod.fst ↔ b ∈ result.map Prod.fst ∨ b ∈ added := by
  induction added generalizing result with
  | nil => exact ⟨ordered, within, fun b => by simp⟩
  | cons a added ih =>
    obtain ⟨here, inside⟩ := List.forall_mem_cons.mp inside
    have alone : ∀ entry ∈ result, execId unit a = execId unit entry.1 → a = entry.1 :=
      fun entry listed => apart a here entry.1 (within entry listed)
    have ordered' : Ordered unit (upsert unit (change a) a result) := ordered.upsert
    obtain ⟨sorted, kept, keys⟩ := ih inside ordered' (within.upsert here)
    refine ⟨sorted, kept, fun b => ?_⟩
    rw [List.foldl_cons, keys, mem_upsert_keys ordered alone, List.mem_cons]
    tauto

/-- The loop over the marks keeps an order when one of its keywords that wait or stand in a
mark fits it. -/
theorem matchMarks_eq (apart : Apart unit known) (listed : ∀ a ∈ ready, a ∈ known)
    (some' : marks ≠ []) (usable : ∀ mark ∈ marks, mark.key ≠ []) (looked : List AdUserMark)
    (same : ∀ info, info ∈ found ↔ info ∈ other) (ordered : Ordered unit result)
    (within : Within known result) :
    ∃ after, matchMarks unit (treeOf marks) ready looked found result = some after ∧
      Ordered unit after ∧ Within known after ∧
      ∀ b, b ∈ after.map Prod.fst ↔
        b ∈ result.map Prod.fst ∨ b ∈ ready ∧ KeptFrom marks other looked b := by
  induction looked generalizing found other result with
  | nil =>
    refine ⟨result, rfl, ordered, within, fun b => ⟨.inl, ?_⟩⟩
    rintro (inside | ⟨_, before, mark, after, split, _⟩)
    · exact inside
    · simp at split
  | cons mark looked ih =>
    obtain ⟨hits, searched, members⟩ := search_treeOf some' usable mark.mark
    have joined : ∀ info, info ∈ found ++ hits ↔
        info ∈ other ++ marks.filter fun info => Stands info.key mark.mark := by
      intro info
      rw [List.mem_append, List.mem_append, same, members, List.mem_filter, decide_eq_true_eq]
    have fitting : ∀ b, b ∈ ((found ++ hits).filter (markFits mark)).map AdMarkInfo.data ↔
        ∃ info ∈ other ++ marks.filter fun info => Stands info.key mark.mark,
          markFits mark info ∧ info.data = b := by
      intro b
      simp only [List.mem_map, List.mem_filter, joined, and_assoc]
    rw [matchMarks, searched]
    simp only [Option.bind_eq_bind, Option.bind_some]
    simp only [keptFrom_cons]
    split
    case isTrue none =>
      have silent : ¬ ∃ info ∈ other ++ marks.filter fun info => Stands info.key mark.mark,
          markFits mark info := by
        rintro ⟨info, inside, fits⟩
        have listed := (fitting info.data).mpr ⟨info, inside, fits, rfl⟩
        rw [none] at listed
        exact List.not_mem_nil listed
      have waits : wait marks other mark =
          other ++ marks.filter fun info => Stands info.key mark.mark := by
        rw [wait]
        exact if_neg fun fits => silent (List.any_eq_true.mp fits)
      rw [waits]
      obtain ⟨after, matched, sorted, kept, keys⟩ := ih joined ordered within
      refine ⟨after, matched, sorted, kept, fun b => ?_⟩
      rw [keys]
      refine or_congr_right (and_congr_right fun _ => ⟨.inr, ?_⟩)
      rintro (⟨info, inside, fits, _⟩ | later)
      · exact absurd ⟨info, inside, fits⟩ silent
      · exact later
    case isFalse fits =>
      have cleared : wait marks other mark = [] := by
        obtain ⟨b, inside⟩ := List.exists_mem_of_ne_nil _ fits
        obtain ⟨info, inside, fits, _⟩ := (fitting b).mp inside
        rw [wait]
        exact if_pos (List.any_eq_true.mpr ⟨info, inside, fits⟩)
      rw [cleared]
      obtain ⟨sorted, kept, keys⟩ := mem_upserts_keys (fun _ => id) apart
        (fun a inside => listed a (List.mem_of_mem_filter inside)) ordered within
      obtain ⟨after, matched, sorted', kept', keys'⟩ := ih (fun _ => Iff.rfl) sorted kept
      refine ⟨after, matched, sorted', kept', fun b => ?_⟩
      rw [keys', keys, List.mem_filter, decide_eq_true_eq, fitting, and_or_left, or_assoc]

/-- Without filed keywords nothing is found, and a long mark crashes the search. -/
theorem matchMarks_bare (looked : List AdUserMark) :
    matchMarks unit (treeOf []) ready looked [] result =
      if ∀ mark ∈ looked, mark.mark.length < 512 then some result else none := by
  induction looked with
  | nil => rfl
  | cons mark looked ih =>
    rw [matchMarks, search_nil]
    by_cases short : mark.mark.length < 512
    · rw [if_pos short]
      simpa [short] using ih
    · rw [if_neg short]
      simp [short]

end Loop

end KeywordMatch
