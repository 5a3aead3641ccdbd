import RtbAdapter.PendingRequests

/-!
# The sweep of the pending requests

`check` visits the requests in the order of their times, up to the first one that is
neither given up nor late.
-/

namespace TimeoutSweep

open PendingRequests AdParaList

/-- A request that a visit does not stop at. -/
def overdue (paras : Paras) (now : RtbBase.Time) (req : Nat) : Bool :=
  (paras req).bTimeout || (paras req).checkLife now

/-- The entries up to the first live request. -/
def front (l : AdParaList) (paras : Paras) (now : RtbBase.Time) : List (Nat × Nat) :=
  l.mTime.toList.takeWhile fun entry => overdue paras now entry.2

/-- The calls of `SessionTimeout` for a request. -/
def timeouts (req : Nat) (effects : List Effect) : Nat :=
  effects.countP fun
    | .sessionTimeout r _ => r = req
    | _ => false

/-- The loop ends; the requests in front of the first live one that were not given up before have
been timed out, once each, and no other one; and what was erased stood in front of it. -/
def Sweeps (l : AdParaList) (paras : Paras) (now : RtbBase.Time) (bDel : Bool) : Prop :=
  ∃ fuel after, checkLoop now bDel fuel l.mTime.toList ⟨l, paras, [], 0, []⟩ = some after ∧
    (∀ req, timeouts req after.effects =
      if req ∈ (front l paras now).map Prod.snd ∧ (paras req).bTimeout = false then 1 else 0) ∧
    (∀ req src, .sessionTimeout req src ∈ after.effects → src = (paras req).srcSession) ∧
    after.list =
      if bDel then (front l paras now).foldl (fun l entry => l.without entry.1 entry.2) l else l

/-- One turn of the loop that erases. -/
def visit (c : Check) (entry : Nat × Nat) : Check :=
  if (c.paras entry.2).bTimeout then c.drop entry.1 entry.2 else c.turn entry

variable {l : AdParaList} {paras : Paras} {now : RtbBase.Time} {bDel : Bool} {c : Check}
  {entry : Nat × Nat} {entries : List (Nat × Nat)} {req : Nat}

theorem visit_bTimeout (c : Check) (entry : Nat × Nat) (r : Nat) :
    ((visit c entry).paras r).bTimeout = (decide (r = entry.2) || (c.paras r).bTimeout) := by
  rw [visit]
  split
  · next marked =>
    by_cases same : r = entry.2
    · simp [same, Check.drop, marked]
    · simp [same, Check.drop]
  · rw [turn_paras]

/-- A visit changes nothing else of a request. -/
theorem visit_paras (c : Check) (entry : Nat × Nat) (r : Nat) :
    (visit c entry).paras r =
      { c.paras r with bTimeout := ((visit c entry).paras r).bTimeout } := by
  rw [visit]
  split
  · rfl
  · rw [turn_paras]

/-- A request that is visited was overdue, so none becomes overdue. -/
theorem visit_overdue (due : overdue c.paras now entry.2) (r : Nat) :
    overdue (visit c entry).paras now r = overdue c.paras now r := by
  have clock : ((visit c entry).paras r).checkLife now = (c.paras r).checkLife now := by
    rw [visit_paras]
    rfl
  rw [overdue, visit_bTimeout, clock]
  by_cases same : r = entry.2
  · rw [same, due]
    simp
  · simp [same, overdue]

theorem visit_list (c : Check) (entry : Nat × Nat) :
    (visit c entry).list = c.list.without entry.1 entry.2 := by
  rw [visit]
  split <;> rfl

/-- The loop that erases visits the entries up to the first live request. -/
theorem checkLoop_visits {fuel : Nat} (enough : entries.length < fuel) :
    checkLoop now true fuel entries c =
      some ((entries.takeWhile fun entry => overdue c.paras now entry.2).foldl visit c) := by
  induction entries generalizing c fuel with
  | nil =>
    obtain ⟨fuel, rfl⟩ := Nat.exists_eq_succ_of_ne_zero (Nat.ne_zero_of_lt enough)
    rfl
  | cons entry rest ih =>
    obtain ⟨fuel, rfl⟩ := Nat.exists_eq_succ_of_ne_zero (Nat.ne_zero_of_lt enough)
    have room : rest.length < fuel := by simpa using enough
    by_cases due : overdue c.paras now entry.2
    · have again : (fun other : Nat × Nat => overdue (visit c entry).paras now other.2) =
          fun other => overdue c.paras now other.2 := funext fun other => visit_overdue due other.2
      have turn : checkLoop now true (fuel + 1) (entry :: rest) c =
          checkLoop now true fuel rest (visit c entry) := by
        rw [checkLoop, visit]
        by_cases marked : (c.paras entry.2).bTimeout
        · rw [if_pos marked, if_pos marked, if_pos rfl]
        · have late : (c.paras entry.2).checkLife now := by simpa [overdue, marked] using due
          rw [if_neg marked, if_neg marked, if_pos late, if_pos rfl]
          rfl
      rw [turn, ih room, again, List.takeWhile_cons, if_pos due, List.foldl_cons]
    · have live : ¬ (c.paras entry.2).bTimeout ∧ ¬ (c.paras entry.2).checkLife now := by
        simpa [overdue] using due
      rw [checkLoop, if_neg live.1, if_neg live.2, List.takeWhile_cons, if_neg due,
        List.foldl_nil]

theorem visit_timeouts (c : Check) (entry : Nat × Nat) (req : Nat) :
    timeouts req (visit c entry).effects = timeouts req c.effects +
      if req = entry.2 ∧ (c.paras req).bTimeout = false then 1 else 0 := by
  rw [visit]
  by_cases marked : (c.paras entry.2).bTimeout
  · have none : ¬ (req = entry.2 ∧ (c.paras req).bTimeout = false) := by
      rintro ⟨rfl, unmarked⟩
      rw [marked] at unmarked
      cases unmarked
    rw [if_pos marked, if_neg none]
    rfl
  · rw [if_neg marked]
    by_cases same : entry.2 = req
    · subst same
      simp [timeouts, Check.turn, Check.drop, Check.free, Check.late, marked]
    · simp [timeouts, Check.turn, Check.drop, Check.free, Check.late, same, Ne.symm same]

/-- A request among the visited ones is timed out once, unless it had been given up before. -/
theorem visits_timeouts (gone : List (Nat × Nat)) (c : Check) (req : Nat) :
    timeouts req (gone.foldl visit c).effects = timeouts req c.effects +
      if req ∈ gone.map Prod.snd ∧ (c.paras req).bTimeout = false then 1 else 0 := by
  induction gone generalizing c with
  | nil => simp
  | cons entry gone ih =>
    rw [List.foldl_cons, ih, visit_timeouts, visit_bTimeout]
    by_cases same : req = entry.2
    · subst same
      cases (c.paras entry.2).bTimeout <;> simp
    · rw [if_neg fun both => same both.1, decide_eq_false same, Bool.false_or, Nat.add_zero]
      simp only [List.map_cons, List.mem_cons, same, false_or]

theorem visits_sources (gone : List (Nat × Nat)) {c : Check} {paras : Paras}
    (same : ∀ r, (c.paras r).srcSession = (paras r).srcSession)
    (before : ∀ req src, .sessionTimeout req src ∈ c.effects → src = (paras req).srcSession) :
    ∀ req src, .sessionTimeout req src ∈ (gone.foldl visit c).effects →
      src = (paras req).srcSession := by
  induction gone generalizing c with
  | nil => exact before
  | cons entry gone ih =>
    rw [List.foldl_cons]
    refine ih (fun r => ?_) fun req src asked => ?_
    · rw [visit_paras]
      exact same r
    · rw [visit] at asked
      split at asked
      · exact before req src asked
      · simp only [Check.turn, Check.drop, Check.free, Check.late, List.append_assoc,
          List.mem_append, List.mem_cons, List.not_mem_nil, or_false, Effect.sessionTimeout.injEq,
          reduceCtorEq] at asked
        rcases asked with asked | ⟨rfl, rfl⟩
        · exact before req src asked
        · exact same _

theorem visits_list (gone : List (Nat × Nat)) (c : Check) :
    (gone.foldl visit c).list =
      gone.foldl (fun l entry => l.without entry.1 entry.2) c.list := by
  induction gone generalizing c with
  | nil => rfl
  | cons entry gone ih => rw [List.foldl_cons, ih, visit_list, List.foldl_cons]

theorem sweeps_deleting : Sweeps l paras now true := by
  refine ⟨_, _, checkLoop_visits (Nat.lt_succ_self _), fun req => ?_, ?_, ?_⟩
  · rw [visits_timeouts]
    exact Nat.zero_add _
  · exact visits_sources _ (fun _ => rfl) fun _ _ asked => absurd asked List.not_mem_nil
  · rw [visits_list, if_pos rfl]
    rfl

/-- Where nothing is erased the loop does not come past an overdue request. -/
theorem checkLoop_spins {fuel : Nat} (due : overdue c.paras now entry.2) :
    checkLoop now false fuel (entry :: entries) c = none := by
  rcases Bool.or_eq_true_iff.mp due with marked | late
  · exact checkLoop_stuck fuel marked
  · exact checkLoop_late_stuck fuel late

theorem sweeps_keeping : Sweeps l paras now false ↔
    ∀ entry ∈ l.mTime.toList.head?, ¬ overdue paras now entry.2 := by
  constructor
  · rintro ⟨fuel, after, returned, -⟩ entry first due
    obtain ⟨rest, entries⟩ := List.head?_eq_some_iff.mp first
    rw [entries, checkLoop_spins due] at returned
    cases returned
  · intro live
    have none : front l paras now = [] := by
      rw [front]
      cases entries : l.mTime.toList with
      | nil => rfl
      | cons entry rest =>
        rw [List.takeWhile_cons, if_neg (live entry (by rw [entries]; rfl))]
    refine ⟨1, ⟨l, paras, [], 0, []⟩, ?_, fun req => ?_, fun _ _ asked => ?_, ?_⟩
    · cases entries : l.mTime.toList with
      | nil => rfl
      | cons entry rest =>
        have alive := live entry (by rw [entries]; rfl)
        rw [overdue, Bool.or_eq_true_iff, not_or] at alive
        rw [checkLoop, if_neg alive.1, if_neg alive.2]
    · rw [none]
      rfl
    · exact absurd asked List.not_mem_nil
    · rfl

/-- A sweep does what it should exactly when it erases what it gives up, or has nothing to give
up: there is no request, or the first one is live. -/
theorem check_sweeps (l : AdParaList) (paras : Paras) (now : RtbBase.Time) (bDel : Bool) :
    Sweeps l paras now bDel ↔
      (bDel = false → ∀ entry ∈ l.mTime.toList.head?, ¬ overdue paras now entry.2) := by
  cases bDel with
  | true => exact ⟨fun _ keeping => absurd keeping (by decide), fun _ => sweeps_deleting⟩
  | false => exact sweeps_keeping.trans ⟨fun live _ => live, fun live => live rfl⟩

/-- A request from the first second. -/
def early : Paras := fun _ => ⟨⟨0, 0⟩, 1, 2, false⟩

def waiting : AdParaList := empty.push early 7

theorem late_spins : waiting.mTime.toList = [(0, 7)] ∧ (early 7).checkLife ⟨1, 0⟩ ∧
    ¬ Sweeps waiting early ⟨1, 0⟩ false := by
  refine ⟨rfl, by decide, fun sweeps => ?_⟩
  rw [sweeps_keeping] at sweeps
  exact sweeps (0, 7) rfl (by decide)

end TimeoutSweep
