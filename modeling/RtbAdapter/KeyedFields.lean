import Mathlib.Tactic

/-!
# Records as ordered members

A record is written into a list of members that is ordered by the names, one field after the
other, and a field without a value is left out. With distinct names the members determine
the fields.
-/

namespace KeyedFields

universe u v

variable {κ : Type u} {V : Type v} [Ord κ] [Std.LawfulEqOrd κ] [DecidableEq κ]

/-- The member of a name gets a value, in the place of the name. -/
def set (name : κ) (value : V) : List (κ × V) → List (κ × V)
  | [] => [(name, value)]
  | (key, old) :: rest =>
    match compare name key with
    | .lt => (name, value) :: (key, old) :: rest
    | .eq => (key, value) :: rest
    | .gt => (key, old) :: set name value rest

def get (name : κ) : List (κ × V) → Option V
  | [] => none
  | (key, value) :: rest => if key = name then some value else get name rest

/-- One field. -/
def put (members : List (κ × V)) (field : κ × Option V) : List (κ × V) :=
  match field.2 with
  | none => members
  | some value => set field.1 value members

def putAll (members : List (κ × V)) (fields : List (κ × Option V)) : List (κ × V) :=
  fields.foldl put members

variable {name other : κ} {value : V} {members : List (κ × V)} {field : κ × Option V}
  {fields fields' : List (κ × Option V)}

omit [Std.LawfulEqOrd κ] [DecidableEq κ] in
theorem set_ne_nil : set name value members ≠ [] := by
  cases members with
  | nil => exact List.cons_ne_nil _ _
  | cons first rest =>
    rw [set]
    split <;> exact List.cons_ne_nil _ _

theorem get_set : get other (set name value members) =
    if name = other then some value else get other members := by
  induction members with
  | nil => rfl
  | cons first rest ih =>
    obtain ⟨key, old⟩ := first
    rw [set]
    cases order : compare name key with
    | lt => rfl
    | eq =>
      obtain rfl : name = key := Std.LawfulEqOrd.eq_of_compare order
      by_cases same : name = other <;> simp [get, same]
    | gt =>
      have apart : name ≠ key := by
        rintro rfl
        rw [Std.ReflOrd.compare_self] at order
        cases order
      by_cases same : key = other
      · subst same
        simp [get, apart]
      · simp [get, same, ih]

omit [Std.LawfulEqOrd κ] [DecidableEq κ] in
/-- The member of a name above all others comes last. -/
theorem set_last [Std.OrientedOrd κ]
    (above : ∀ key ∈ members.map Prod.fst, compare key name = .lt) :
    set name value members = members ++ [(name, value)] := by
  induction members with
  | nil => rfl
  | cons first rest ih =>
    obtain ⟨key, old⟩ := first
    rw [List.map_cons, List.forall_mem_cons] at above
    rw [set, Std.OrientedCmp.gt_of_lt above.1]
    exact congrArg ((key, old) :: ·) (ih above.2)

omit [DecidableEq κ] in
theorem mem_set {entry : κ × V} (inside : entry ∈ set name value members) :
    entry = (name, value) ∨ entry ∈ members := by
  induction members with
  | nil => exact Or.inl (List.mem_singleton.mp inside)
  | cons first rest ih =>
    obtain ⟨key, old⟩ := first
    rw [set] at inside
    cases order : compare name key with
    | lt =>
      rw [order] at inside
      exact List.mem_cons.mp inside
    | eq =>
      obtain rfl : name = key := Std.LawfulEqOrd.eq_of_compare order
      rw [order] at inside
      exact (List.mem_cons.mp inside).imp_right (List.mem_cons_of_mem _)
    | gt =>
      rw [order] at inside
      rcases List.mem_cons.mp inside with here | later
      · exact Or.inr (here ▸ List.mem_cons_self)
      · exact (ih later).imp_right (List.mem_cons_of_mem _)

omit [DecidableEq κ] in
/-- Members stay in the order of their names. -/
theorem set_sorted [Std.TransOrd κ] (sorted : (members.map Prod.fst).Pairwise (compare · · = .lt)) :
    ((set name value members).map Prod.fst).Pairwise (compare · · = .lt) := by
  induction members with
  | nil => exact List.pairwise_singleton _ _
  | cons first rest ih =>
    obtain ⟨key, old⟩ := first
    rw [List.map_cons, List.pairwise_cons] at sorted
    obtain ⟨below, sorted⟩ := sorted
    rw [set]
    cases order : compare name key with
    | lt =>
      rw [List.map_cons, List.map_cons, List.pairwise_cons, List.forall_mem_cons,
        List.pairwise_cons]
      exact ⟨⟨order, fun other later => Std.TransCmp.lt_trans order (below other later)⟩,
        below, sorted⟩
    | eq =>
      rw [List.map_cons, List.pairwise_cons]
      exact ⟨below, sorted⟩
    | gt =>
      rw [List.map_cons, List.pairwise_cons]
      refine ⟨fun other inside => ?_, ih sorted⟩
      obtain ⟨entry, among, rfl⟩ := List.mem_map.mp inside
      rcases mem_set among with rfl | later
      · exact Std.OrientedCmp.lt_of_gt order
      · exact below entry.1 (List.mem_map_of_mem later)

theorem get_put_ne (apart : field.1 ≠ name) : get name (put members field) = get name members := by
  rw [put]
  split
  · rfl
  · rw [get_set, if_neg apart]

theorem get_putAll_absent (absent : name ∉ fields.map Prod.fst) :
    get name (putAll members fields) = get name members := by
  induction fields generalizing members with
  | nil => rfl
  | cons field rest ih =>
    rw [List.map_cons, List.mem_cons, not_or] at absent
    exact (ih absent.2).trans (get_put_ne (Ne.symm absent.1))

/-- A field is found under its name. -/
theorem get_putAll (apart : (fields.map Prod.fst).Nodup)
    (fresh : ∀ name ∈ fields.map Prod.fst, get name members = none) (inside : field ∈ fields) :
    get field.1 (putAll members fields) = field.2 := by
  induction fields generalizing members with
  | nil => cases inside
  | cons first rest ih =>
    rw [List.map_cons, List.nodup_cons] at apart
    rcases List.mem_cons.mp inside with rfl | later
    · refine (get_putAll_absent apart.1).trans ?_
      rw [put]
      cases field with
      | mk name value =>
        cases value with
        | none => exact fresh name (by simp)
        | some value => exact get_set.trans (if_pos rfl)
    · refine ih apart.2 (fun name among => ?_) later
      have different : first.1 ≠ name := fun same => apart.1 (same ▸ among)
      exact (get_put_ne different).trans (fresh name (List.mem_cons_of_mem _ among))

/-- The fields can be read back from the members. -/
theorem read_putAll (apart : (fields.map Prod.fst).Nodup) :
    (fields.map Prod.fst).map (fun name => (name, get name (putAll [] fields))) = fields := by
  rw [List.map_map]
  refine (List.map_congr_left fun field inside => ?_).trans (List.map_id fields)
  exact Prod.ext rfl (get_putAll apart (fun _ _ => rfl) inside)

/-- Records with the same distinct names are equal when their members are. -/
theorem putAll_inj (names : fields.map Prod.fst = fields'.map Prod.fst)
    (apart : (fields.map Prod.fst).Nodup) (same : putAll [] fields = putAll [] fields') :
    fields = fields' := by
  have read := read_putAll apart
  rw [names, same] at read
  exact read.symm.trans (read_putAll (names ▸ apart))

end KeyedFields
