import Mathlib.Tactic

/-!
# The buffer of sessions

The sessions of one kind, found by a running number. A deletion puts the
sessions that are left in the order of their addresses.
-/

namespace SessionBuffer

abbrev AdLRBuffer := List Nat

namespace AdLRBuffer

def check (b : AdLRBuffer) (data : Nat) : Bool := data ∈ b

def push (b : AdLRBuffer) (data : Nat) : AdLRBuffer := if b.check data then b else b ++ [data]

def del (b : AdLRBuffer) (data : Nat) : AdLRBuffer :=
  if b.check data then (b.erase data).mergeSort else b

def find (b : AdLRBuffer) (id : Nat) : Option Nat := b[id % b.length]?

variable {b : AdLRBuffer} {data other : Nat}

theorem check_iff : b.check data ↔ data ∈ b := by
  simp [check]

theorem find_mem {id : Nat} (found : b.find id = some data) : data ∈ b :=
  List.mem_of_getElem? found

/-- A session of the buffer, taken out, leaves the others. -/
theorem del_perm (among : data ∈ b) : b.Perm (data :: b.del data) := by
  rw [del, if_pos (check_iff.mpr among)]
  exact (List.perm_cons_erase among).trans ((List.mergeSort_perm _ _).symm.cons data)

end AdLRBuffer

variable {α : Type} {sessions : List Nat} {d : Nat} {f g : Nat → List α}

/-- What one session has, and what the others have. -/
theorem flatMap_split (among : d ∈ sessions) :
    (sessions.flatMap f).Perm (f d ++ (sessions.erase d).flatMap f) :=
  (List.perm_cons_erase among).flatMap_right _

/-- Where only one session differs, the others have the same. -/
theorem flatMap_erase_congr (apart : sessions.Nodup) (same : ∀ e, e ≠ d → g e = f e) :
    (sessions.erase d).flatMap g = (sessions.erase d).flatMap f := by
  refine List.flatMap_congr fun e among => same e ?_
  rintro rfl
  exact apart.not_mem_erase among

end SessionBuffer
