import RtbAdapter.FilterReferences

/-!
# The result of a match

A result is ordered by execution id, so that it is known by its entries. When no
two orders share an id, some hits set one bit for the orders that were hit.
-/

namespace FilterResults

open ByteWords PlanningUnit FilterTables FilterReferences

/-- The entries stand in the order of their execution ids. -/
def Ordered (unit : Nat → AdPlanningUnit) (result : AdResult) : Prop :=
  result.Pairwise fun x y => execId unit x.1 < execId unit y.1

/-- No two orders share an execution id. -/
def Apart (unit : Nat → AdPlanningUnit) (known : List Nat) : Prop :=
  ∀ a ∈ known, ∀ b ∈ known, execId unit a = execId unit b → a = b

/-- What a result holds for an order, or would hold once it is made. -/
def valueAt (result : AdResult) (a : Nat) : AdRtbFilterResult :=
  ((result.find? fun entry => entry.1 = a).map Prod.snd).getD {}

variable {unit : Nat → AdPlanningUnit} {known : List Nat} {result : AdResult}
  {change : AdRtbFilterResult → AdRtbFilterResult} {a : Nat}

theorem Ordered.unique (ordered : Ordered unit result) {v w : AdRtbFilterResult}
    (first : (a, v) ∈ result) (second : (a, w) ∈ result) : v = w := by
  have nodup : (result.map fun entry => execId unit entry.1).Nodup := by
    rw [List.Nodup, List.pairwise_map]
    exact ordered.imp fun lower => UInt32.ne_of_lt lower
  exact congrArg Prod.snd (List.inj_on_of_nodup_map nodup first second rfl)

theorem Ordered.ext {other : AdResult} (ordered : Ordered unit result)
    (ordered' : Ordered unit other) (same : ∀ entry, entry ∈ result ↔ entry ∈ other) :
    result = other := by
  let before : Nat × AdRtbFilterResult → Nat × AdRtbFilterResult → Prop :=
    fun x y => execId unit x.1 < execId unit y.1
  have : Std.Antisymm before := ⟨fun _ _ first second => absurd second (UInt32.lt_asymm first)⟩
  have : Std.Irrefl before := ⟨fun _ => UInt32.lt_irrefl _⟩
  exact List.Pairwise.eq_of_mem_iff (r := before) ordered ordered' same

theorem valueAt_of_mem (ordered : Ordered unit result) {v : AdRtbFilterResult}
    (here : (a, v) ∈ result) : valueAt result a = v := by
  rw [valueAt]
  cases found : result.find? fun entry => entry.1 = a with
  | none => simpa using List.find?_eq_none.mp found _ here
  | some entry =>
    obtain rfl : entry.1 = a := by simpa using List.find?_some found
    exact ordered.unique (List.mem_of_find?_eq_some found) here

theorem valueAt_of_absent (absent : ∀ v, (a, v) ∉ result) : valueAt result a = {} := by
  have none : (result.find? fun entry => entry.1 = a) = none := by
    rw [List.find?_eq_none]
    rintro ⟨b, v⟩ inside same
    obtain rfl : b = a := by simpa using same
    exact absent v inside
  rw [valueAt, none]
  rfl

theorem valueAt_congr {other : AdResult} (ordered : Ordered unit result)
    (ordered' : Ordered unit other) (same : ∀ v, (a, v) ∈ result ↔ (a, v) ∈ other) :
    valueAt result a = valueAt other a := by
  by_cases here : ∃ v, (a, v) ∈ result
  · obtain ⟨v, here⟩ := here
    rw [valueAt_of_mem ordered here, valueAt_of_mem ordered' ((same v).mp here)]
  · push Not at here
    rw [valueAt_of_absent here, valueAt_of_absent fun v inside => here v ((same v).mpr inside)]

theorem mem_upsert (change : AdRtbFilterResult → AdRtbFilterResult)
    (ordered : Ordered unit result)
    (apart : ∀ entry ∈ result, execId unit a = execId unit entry.1 → a = entry.1)
    (entry : Nat × AdRtbFilterResult) :
    entry ∈ upsert unit change a result ↔
      entry = (a, change (valueAt result a)) ∨ entry ∈ result ∧ entry.1 ≠ a := by
  induction result with
  | nil => simp [upsert, valueAt]
  | cons first rest ih =>
    obtain ⟨lower, ordered'⟩ := List.pairwise_cons.mp ordered
    obtain ⟨here, apart⟩ := List.forall_mem_cons.mp apart
    rw [upsert]
    split
    case isTrue before =>
      -- the order is new: all entries come after it
      have absent : ∀ later ∈ first :: rest, later.1 ≠ a := by
        intro later inside same
        have below : execId unit a < execId unit later.1 := by
          rcases List.mem_cons.mp inside with rfl | inside
          · exact before
          · exact UInt32.lt_trans before (lower later inside)
        rw [same] at below
        exact UInt32.lt_irrefl _ below
      have new : valueAt (first :: rest) a = {} :=
        valueAt_of_absent fun v inside => absent _ inside rfl
      rw [new, List.mem_cons]
      exact or_congr_right ⟨fun inside => ⟨inside, absent entry inside⟩, And.left⟩
    split
    case isTrue same =>
      obtain rfl : a = first.1 := here same
      have others : ∀ later ∈ rest, later.1 ≠ first.1 := by
        intro later inside same
        have above := lower later inside
        rw [same] at above
        exact UInt32.lt_irrefl _ above
      have old : valueAt (first :: rest) first.1 = first.2 :=
        valueAt_of_mem ordered List.mem_cons_self
      rw [old, List.mem_cons, List.mem_cons]
      refine or_congr_right ⟨fun inside => ⟨.inr inside, others entry inside⟩, ?_⟩
      rintro ⟨rfl | inside, other⟩
      · exact absurd rfl other
      · exact inside
    case isFalse other =>
      have apart' : first.1 ≠ a := fun same => other (by rw [same])
      have old : valueAt (first :: rest) a = valueAt rest a := by
        rw [valueAt, List.find?_cons_of_neg (by simpa using apart'), valueAt]
      rw [old, List.mem_cons, ih ordered' apart, List.mem_cons]
      constructor
      · rintro (rfl | new | ⟨inside, other⟩)
        · exact .inr ⟨.inl rfl, apart'⟩
        · exact .inl new
        · exact .inr ⟨.inr inside, other⟩
      · rintro (new | ⟨rfl | inside, other⟩)
        · exact .inr (.inl new)
        · exact .inl rfl
        · exact .inr (.inr ⟨inside, other⟩)

theorem Ordered.upsert (ordered : Ordered unit result) :
    Ordered unit (FilterTables.upsert unit change a result) := by
  induction result with
  | nil => exact List.pairwise_singleton _ _
  | cons first rest ih =>
    obtain ⟨lower, ordered'⟩ := List.pairwise_cons.mp ordered
    rw [FilterTables.upsert]
    split
    case isTrue before =>
      refine List.pairwise_cons.mpr ⟨fun later inside => ?_, ordered⟩
      rcases List.mem_cons.mp inside with rfl | inside
      · exact before
      · exact UInt32.lt_trans before (lower later inside)
    split
    case isTrue => exact List.pairwise_cons.mpr ⟨lower, ordered'⟩
    case isFalse after other =>
      have above : execId unit first.1 < execId unit a :=
        UInt32.lt_of_le_of_ne (UInt32.not_lt.mp after) (Ne.symm other)
      refine List.pairwise_cons.mpr ⟨fun later inside => ?_, ih ordered'⟩
      have within : Within (a :: rest.map Prod.fst) (FilterTables.upsert unit change a rest) :=
        Within.upsert (fun entry inside => List.mem_cons_of_mem _ (List.mem_map_of_mem inside))
          List.mem_cons_self
      have known := within later inside
      rcases List.mem_cons.mp known with same | known
      · rw [same]
        exact above
      · obtain ⟨entry, inside, same⟩ := List.mem_map.mp known
        rw [← same]
        exact lower entry inside

theorem Ordered.filter (ordered : Ordered unit result) (keeps : Nat × AdRtbFilterResult → Bool) :
    Ordered unit (result.filter keeps) := List.Pairwise.filter keeps ordered

theorem valueAt_upsert (ordered : Ordered unit result)
    (apart : ∀ entry ∈ result, execId unit a = execId unit entry.1 → a = entry.1) (b : Nat) :
    valueAt (upsert unit change a result) b =
      if b = a then change (valueAt result a) else valueAt result b := by
  have inside := mem_upsert change ordered apart
  split
  case isTrue same =>
    rw [same]
    exact valueAt_of_mem ordered.upsert ((inside _).mpr (.inl rfl))
  case isFalse other =>
    refine valueAt_congr ordered.upsert ordered fun v => ?_
    rw [inside]
    simp [other]

/-- One bit set, what `hit` does to an entry. -/
def setBit (bit : UInt32) (r : AdRtbFilterResult) : AdRtbFilterResult :=
  { r with matched := r.matched ||| bit }

theorem setBit_setBit (bit : UInt32) (r : AdRtbFilterResult) :
    setBit bit (setBit bit r) = setBit bit r := by
  simp [setBit, UInt32.or_assoc]

def hits (unit : Nat → AdPlanningUnit) (bit : UInt32) (found : List Nat) (result : AdResult) :
    AdResult :=
  found.foldl (fun result address => upsert unit (setBit bit) address result) result

theorem mem_hits (bit : UInt32) {found : List Nat} (apart : Apart unit known)
    (inside : ∀ a ∈ found, a ∈ known) (ordered : Ordered unit result)
    (within : Within known result) :
    Ordered unit (hits unit bit found result) ∧ ∀ entry,
      entry ∈ hits unit bit found result ↔
        entry.1 ∈ found ∧ entry.2 = setBit bit (valueAt result entry.1) ∨
          entry.1 ∉ found ∧ entry ∈ result := by
  induction found generalizing result with
  | nil => exact ⟨ordered, fun entry => by simp [hits]⟩
  | cons a found ih =>
    obtain ⟨here, inside⟩ := List.forall_mem_cons.mp inside
    have alone : ∀ entry ∈ result, execId unit a = execId unit entry.1 → a = entry.1 :=
      fun entry listed => apart a here entry.1 (within entry listed)
    obtain ⟨sorted, members⟩ := ih inside
      (ordered.upsert : Ordered unit (upsert unit (setBit bit) a result)) (within.upsert here)
    refine ⟨sorted, fun entry => ?_⟩
    change entry ∈ hits unit bit found (upsert unit (setBit bit) a result) ↔ _
    rw [members, valueAt_upsert ordered alone, mem_upsert _ ordered alone]
    obtain ⟨b, v⟩ := entry
    by_cases same : b = a
    · subst same
      simp only [if_true, List.mem_cons, true_or, true_and, not_true_eq_false, false_and, or_false,
        ne_eq, and_false, Prod.mk.injEq, setBit_setBit]
      tauto
    · simp [same]

theorem valueAt_hits (bit : UInt32) {found : List Nat} (apart : Apart unit known)
    (inside : ∀ a ∈ found, a ∈ known) (ordered : Ordered unit result)
    (within : Within known result) :
    valueAt (hits unit bit found result) a =
      if a ∈ found then setBit bit (valueAt result a) else valueAt result a := by
  obtain ⟨sorted, members⟩ := mem_hits bit apart inside ordered within
  split
  case isTrue here => exact valueAt_of_mem sorted ((members _).mpr (.inl ⟨here, rfl⟩))
  case isFalse absent =>
    refine valueAt_congr sorted ordered fun v => ?_
    rw [members]
    simp [absent]

end FilterResults
