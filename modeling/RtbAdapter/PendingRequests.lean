import Mathlib.Tactic
import Std.Data.TreeMap.Lemmas
import RtbAdapter.InverseMaps
import RtbAdapter.StepRuns
import RtbAdapter.RtbBase

/-!
# Pending requests

The list of the requests that wait for an answer of one destination, kept under
their addresses and under the microseconds of their clocks. What a call does to
the owner of the list and to the sessions of a request is collected in order.
-/

namespace PendingRequests

open Std InverseMaps StepRuns

/-- The microseconds of a clock reading, as an `unsigned long`. -/
def getTime (t : RtbBase.Time) : Nat := ((t.sec * 1000000 + t.usec) % 18446744073709551616).toNat

/-- `AD_RESPONSE_MAX_TIME` of the exchange. -/
def adResponseMaxTime : Nat := 100000

/-- What the list reads of a pending request: the clock of its request, the sessions it
came from and went to, and whether it has been given up. -/
structure AdRtbPara where
  time : RtbBase.Time
  srcSession : Nat
  dstSession : Nat
  bTimeout : Bool

def AdRtbPara.checkLife (para : AdRtbPara) (now : RtbBase.Time) : Bool :=
  adResponseMaxTime < para.time.toNow now

/-- The requests by their addresses. -/
abbrev Paras := Nat → AdRtbPara

/-- What a call on the list asks of its owner and of a destination. -/
inductive Effect where
  | sessionTimeout (req src : Nat)
  | freePara (req : Nat)
  | idle (dst : Nat)
  deriving DecidableEq

structure AdParaList where
  mReq : TreeMap Nat Nat
  mTime : TreeMap Nat Nat

namespace AdParaList

def empty : AdParaList := ⟨∅, ∅⟩

def push (l : AdParaList) (paras : Paras) (req : Nat) : AdParaList :=
  ⟨l.mReq.insert req (getTime (paras req).time), l.mTime.insert (getTime (paras req).time) req⟩

/-- The list without one entry. -/
def without (l : AdParaList) (time req : Nat) : AdParaList :=
  ⟨l.mReq.erase req, l.mTime.erase time⟩

def del (l : AdParaList) (req : Nat) : Bool × AdParaList :=
  match l.mReq[req]? with
  | some time => (true, l.without time req)
  | none => (false, l)

def delTime (l : AdParaList) (time : Nat) : Option Nat × AdParaList :=
  match l.mTime[time]? with
  | some req => (some req, l.without time req)
  | none => (none, l)

/-- The request of the smallest time. -/
def pop (l : AdParaList) : Option Nat × AdParaList :=
  match l.mTime.toList with
  | (time, req) :: _ => (some req, l.without time req)
  | [] => (none, l)

/-- A request is given up once. -/
def giveUp (paras : Paras) (req : Nat) : Paras :=
  Function.update paras req { paras req with bTimeout := true }

/-- One turn of `clear`. -/
def clearOne (s : Paras × List Effect) (req : Nat) : Paras × List Effect :=
  if (s.1 req).bTimeout then (s.1, s.2 ++ [.freePara req, .idle (s.1 req).dstSession])
  else
    (giveUp s.1 req,
      s.2 ++ [.sessionTimeout req (s.1 req).srcSession, .freePara req, .idle (s.1 req).dstSession])

def clear (l : AdParaList) (paras : Paras) : AdParaList × Paras × List Effect :=
  (empty, l.mReq.keys.foldl clearOne (paras, []))

/-- What `check` carries from turn to turn, with the requests it has taken off the list. -/
structure Check where
  list : AdParaList
  paras : Paras
  effects : List Effect
  count : Nat
  erased : List Nat

def Check.drop (c : Check) (time req : Nat) : Check :=
  { c with
    list := c.list.without time req
    erased := req :: c.erased }

def Check.late (c : Check) (req : Nat) : Check :=
  { c with
    paras := giveUp c.paras req
    effects := c.effects ++ [.sessionTimeout req (c.paras req).srcSession]
    count := c.count + 1 }

def Check.free (c : Check) (req : Nat) : Check :=
  { c with effects := c.effects ++ [.freePara req] }

/-- The loop of `check` over the entries from the iterator on, for as many turns as there
is fuel. A turn that erases nothing leaves the iterator where it is. -/
def checkLoop (now : RtbBase.Time) (bDel : Bool) : Nat → List (Nat × Nat) → Check → Option Check
  | 0, _, _ => none
  | _ + 1, [], c => some c
  | fuel + 1, (time, req) :: rest, c =>
    if (c.paras req).bTimeout then
      if bDel then checkLoop now bDel fuel rest (c.drop time req)
      else checkLoop now bDel fuel ((time, req) :: rest) c
    else if (c.paras req).checkLife now then
      if bDel then checkLoop now bDel fuel rest (((c.late req).free req).drop time req)
      else checkLoop now bDel fuel ((time, req) :: rest) (c.late req)
    else some c

/-- `check`, or nothing when its loop never ends. -/
def check (l : AdParaList) (paras : Paras) (now : RtbBase.Time) (bDel : Bool) : Option Check :=
  checkLoop now bDel (l.mTime.size + 1) l.mTime.toList ⟨l, paras, [], 0, []⟩

variable {l : AdParaList} {paras : Paras} {req time : Nat} {now : RtbBase.Time} {bDel : Bool}

/-- The two maps are inverse to each other. -/
def Indexed (l : AdParaList) : Prop := Inverse l.mReq l.mTime

/-- A request is on the list. -/
def Holds (l : AdParaList) (req : Nat) : Prop := ∃ time : Nat, l.mReq[req]? = some time

theorem indexed_empty : empty.Indexed := inverse_empty

theorem not_holds_empty : ¬ empty.Holds req := by
  rintro ⟨time, found⟩
  simp [empty] at found

theorem push_indexed_iff (indexed : l.Indexed) :
    (l.push paras req).Indexed ↔ Fresh l.mReq l.mTime req (getTime (paras req).time) :=
  Inverse.insert_iff indexed

theorem holds_push {r : Nat} : (l.push paras req).Holds r ↔ r = req ∨ l.Holds r := by
  by_cases same : req = r
  · subst same
    simp [Holds, push]
  · rw [Holds, push, getElem?_insert_ne same]
    constructor
    · exact .inr
    · rintro (equal | found)
      · exact absurd equal.symm same
      · exact found

theorem without_indexed (indexed : l.Indexed) (entry : l.mTime[time]? = some req) :
    (l.without time req).Indexed :=
  Inverse.erase indexed ((indexed req time).mpr entry)

theorem holds_without {r : Nat} : (l.without time req).Holds r ↔ l.Holds r ∧ r ≠ req := by
  by_cases same : req = r
  · subst same
    simp [Holds, without]
  · rw [Holds, without, getElem?_erase_ne same]
    exact ⟨fun found => ⟨found, Ne.symm same⟩, And.left⟩

/-- A list that a call leaves behind: still indexed, and without the requests taken off. -/
def Leaves (l : AdParaList) (off : List Nat) (after : AdParaList) : Prop :=
  after.Indexed ∧ ∀ r, after.Holds r ↔ l.Holds r ∧ r ∉ off

theorem Leaves.refl (indexed : l.Indexed) : Leaves l [] l := by
  refine ⟨indexed, fun r => ?_⟩
  simp

theorem Leaves.without {off : List Nat} {after : AdParaList} (leaves : Leaves l off after)
    (entry : after.mTime[time]? = some req) :
    Leaves l (req :: off) (after.without time req) := by
  refine ⟨without_indexed leaves.1 entry, fun r => ?_⟩
  rw [holds_without, leaves.2 r, List.mem_cons, not_or]
  tauto

theorem del_leaves (indexed : l.Indexed) :
    Leaves l (if (l.del req).1 then [req] else []) (l.del req).2 := by
  rw [del]
  cases found : l.mReq[req]? with
  | none => exact Leaves.refl indexed
  | some time => exact (Leaves.refl indexed).without ((indexed req time).mp found)

theorem delTime_leaves (indexed : l.Indexed) :
    Leaves l (l.delTime time).1.toList (l.delTime time).2 := by
  rw [delTime]
  cases found : l.mTime[time]? with
  | none => exact Leaves.refl indexed
  | some req => exact (Leaves.refl indexed).without found

theorem pop_leaves (indexed : l.Indexed) : Leaves l l.pop.1.toList l.pop.2 := by
  rw [pop]
  cases entries : l.mTime.toList with
  | nil => exact Leaves.refl indexed
  | cons entry rest =>
    refine (Leaves.refl indexed).without ?_
    rw [← TreeMap.mem_toList_iff_getElem?_eq_some, entries]
    exact List.mem_cons_self

/-- The entries still to visit are all on the list, each under its own time. -/
def Ahead (entries : List (Nat × Nat)) (l : AdParaList) : Prop :=
  (entries.map Prod.fst).Nodup ∧ ∀ entry ∈ entries, l.mTime[entry.1]? = some entry.2

theorem ahead_toList (l : AdParaList) : Ahead l.mTime.toList l := by
  constructor
  · rw [TreeMap.map_fst_toList_eq_keys]
    exact TreeMap.nodup_keys
  · intro entry listed
    exact TreeMap.mem_toList_iff_getElem?_eq_some.mp listed

theorem Ahead.without {rest : List (Nat × Nat)} (ahead : Ahead ((time, req) :: rest) l) :
    Ahead rest (l.without time req) := by
  obtain ⟨apart, listed⟩ := ahead
  rw [List.map_cons, List.nodup_cons] at apart
  refine ⟨apart.2, fun entry among => ?_⟩
  have away : time ≠ entry.1 := by
    rintro rfl
    exact apart.1 (List.mem_map.mpr ⟨entry, among, rfl⟩)
  rw [AdParaList.without, getElem?_erase_ne away]
  exact listed entry (List.mem_cons_of_mem _ among)

theorem checkLoop_leaves {fuel : Nat} {entries : List (Nat × Nat)} {c after : Check}
    (leaves : Leaves l c.erased c.list) (ahead : Ahead entries c.list)
    (returned : checkLoop now bDel fuel entries c = some after) :
    Leaves l after.erased after.list := by
  fun_induction checkLoop now bDel fuel entries c with
  | case1 => exact absurd returned (by simp)
  | case2 fuel c =>
    obtain rfl := Option.some.inj returned
    exact leaves
  | case3 fuel time req rest c flagged del ih =>
    exact ih (leaves.without (ahead.2 _ List.mem_cons_self)) ahead.without returned
  | case4 fuel time req rest c flagged keep ih => exact ih leaves ahead returned
  | case5 fuel time req rest c flagged late del ih =>
    exact ih (leaves.without (ahead.2 _ List.mem_cons_self)) ahead.without returned
  | case6 fuel time req rest c flagged late keep ih => exact ih leaves ahead returned
  | case7 =>
    obtain rfl := Option.some.inj returned
    exact leaves

theorem check_leaves {c : Check} (indexed : l.Indexed)
    (returned : l.check paras now bDel = some c) : Leaves l c.erased c.list :=
  checkLoop_leaves (c := ⟨l, paras, [], 0, []⟩) (Leaves.refl indexed) (ahead_toList l) returned

theorem checkLoop_stuck {entry : Nat × Nat} {rest : List (Nat × Nat)} {c : Check} (fuel : Nat)
    (flagged : (c.paras entry.2).bTimeout) :
    checkLoop now false fuel (entry :: rest) c = none := by
  induction fuel with
  | zero => rfl
  | succ fuel ih =>
    rw [checkLoop, if_pos flagged]
    exact ih

theorem checkLoop_late_stuck {entry : Nat × Nat} {rest : List (Nat × Nat)} {c : Check}
    (fuel : Nat) (late : (c.paras entry.2).checkLife now) :
    checkLoop now false fuel (entry :: rest) c = none := by
  cases fuel with
  | zero => rfl
  | succ fuel =>
    rw [checkLoop]
    by_cases flagged : (c.paras entry.2).bTimeout
    · rw [if_pos flagged]
      exact checkLoop_stuck fuel flagged
    · rw [if_neg flagged, if_pos late]
      refine checkLoop_stuck fuel ?_
      simp [Check.late, giveUp]

/-- What the turns have asked for is kept to the end. -/
theorem checkLoop_effects {fuel : Nat} {entries : List (Nat × Nat)} {c after : Check}
    {effect : Effect} (asked : effect ∈ c.effects)
    (returned : checkLoop now bDel fuel entries c = some after) : effect ∈ after.effects := by
  fun_induction checkLoop now bDel fuel entries c with
  | case1 => exact absurd returned (by simp)
  | case2 fuel c =>
    obtain rfl := Option.some.inj returned
    exact asked
  | case3 fuel time req rest c flagged del ih => exact ih asked returned
  | case4 fuel time req rest c flagged keep ih => exact ih asked returned
  | case5 fuel time req rest c flagged late del ih =>
    exact ih (by simp [Check.drop, Check.free, Check.late, asked]) returned
  | case6 fuel time req rest c flagged late keep ih =>
    exact ih (by simp [Check.late, asked]) returned
  | case7 =>
    obtain rfl := Option.some.inj returned
    exact asked

/-- A call that erases what it gives up always returns. -/
theorem checkLoop_returns {entries : List (Nat × Nat)} {c : Check} {fuel : Nat}
    (enough : entries.length < fuel) :
    ∃ after, checkLoop now true fuel entries c = some after := by
  induction entries generalizing c fuel with
  | nil =>
    cases fuel with
    | zero => omega
    | succ fuel => exact ⟨c, rfl⟩
  | cons entry rest ih =>
    cases fuel with
    | zero => omega
    | succ fuel =>
      have room : rest.length < fuel := by simpa using enough
      simp only [checkLoop, if_true]
      split
      · exact ih room
      · split
        · exact ih room
        · exact ⟨c, rfl⟩

/-- A request that is given up, or late. -/
def Overdue (paras : Paras) (now : RtbBase.Time) (req : Nat) : Prop :=
  (paras req).bTimeout ∨ (paras req).checkLife now

theorem overdue_giveUp {r : Nat} (overdue : Overdue paras now r) :
    Overdue (giveUp paras req) now r := by
  by_cases same : r = req
  · subst same
    exact .inl (by simp [giveUp])
  · rw [Overdue, giveUp, Function.update_of_ne same]
    exact overdue

/-- The turns reach a late request when every request before it is given up or late. -/
theorem checkLoop_gives_up {entries : List (Nat × Nat)} {c : Check} {fuel : Nat}
    (enough : entries.length < fuel) (listed : (time, req) ∈ entries)
    (ordered : entries.Pairwise (fun a b => a.1 < b.1))
    (once : ∀ entry ∈ entries, entry.2 = req → entry.1 = time)
    (before : ∀ entry ∈ entries, entry.1 < time → Overdue c.paras now entry.2)
    (waits : ¬ (c.paras req).bTimeout) (late : (c.paras req).checkLife now) :
    ∃ after, checkLoop now true fuel entries c = some after ∧
      .sessionTimeout req (c.paras req).srcSession ∈ after.effects := by
  induction entries generalizing c fuel with
  | nil => exact absurd listed (by simp)
  | cons entry rest ih =>
    obtain ⟨first, r⟩ := entry
    cases fuel with
    | zero => omega
    | succ fuel =>
      have room : rest.length < fuel := by simpa using enough
      rw [List.pairwise_cons] at ordered
      rw [List.mem_cons, Prod.mk.injEq] at listed
      rcases listed with ⟨rfl, rfl⟩ | later
      · obtain ⟨after, returned⟩ : ∃ after, checkLoop now true fuel rest
            (((c.late req).free req).drop time req) = some after := checkLoop_returns room
        refine ⟨after, ?_, ?_⟩
        · rw [checkLoop, if_neg waits, if_pos late, if_pos rfl]
          exact returned
        · refine checkLoop_effects ?_ returned
          simp [Check.drop, Check.free, Check.late]
      · have earlier : first < time := ordered.1 _ later
        have other : r ≠ req := by
          intro same
          have equal := once (first, r) List.mem_cons_self same
          simp only at equal
          omega
        have onceRest : ∀ entry ∈ rest, entry.2 = req → entry.1 = time :=
          fun entry among => once entry (List.mem_cons_of_mem _ among)
        have beforeRest : ∀ entry ∈ rest, entry.1 < time → Overdue c.paras now entry.2 :=
          fun entry among => before entry (List.mem_cons_of_mem _ among)
        by_cases flagged : (c.paras r).bTimeout
        · rw [checkLoop, if_pos flagged, if_pos rfl]
          exact ih room later ordered.2 onceRest beforeRest waits late
        · have overdue := before (first, r) List.mem_cons_self earlier
          rw [checkLoop, if_neg flagged, if_pos (overdue.resolve_left flagged), if_pos rfl]
          have same : (giveUp c.paras r) req = c.paras req :=
            Function.update_of_ne (Ne.symm other) _ _
          have reached := ih (c := ((c.late r).free r).drop first r) room later ordered.2 onceRest
            (fun entry among sooner => overdue_giveUp (beforeRest entry among sooner))
            (by simpa only [Check.drop, Check.free, Check.late, same] using waits)
            (by simpa only [Check.drop, Check.free, Check.late, same] using late)
          simpa only [Check.drop, Check.free, Check.late, same] using reached

theorem giveUp_apply (r : Nat) :
    giveUp paras req r = { paras r with bTimeout := r = req || (paras r).bTimeout } := by
  rw [giveUp]
  by_cases same : r = req
  · subst same
    simp
  · simp [same]

/-- What `clear` asks for a request that has not been given up. -/
def cleared (paras : Paras) (req : Nat) : List Effect :=
  [.sessionTimeout req (paras req).srcSession, .freePara req, .idle (paras req).dstSession]

theorem clear_foldl {reqs : List Nat} {effects : List Effect} (apart : reqs.Nodup)
    (waits : ∀ r ∈ reqs, (paras r).bTimeout = false) :
    reqs.foldl clearOne (paras, effects) =
      (reqs.foldl giveUp paras, effects ++ reqs.flatMap (cleared paras)) := by
  induction reqs generalizing paras effects with
  | nil => simp
  | cons req reqs ih =>
    rw [List.nodup_cons] at apart
    have others : ∀ r ∈ reqs, giveUp paras req r = paras r := by
      intro r among
      rw [giveUp, Function.update_of_ne]
      rintro rfl
      exact apart.1 among
    have same : reqs.flatMap (cleared (giveUp paras req)) = reqs.flatMap (cleared paras) := by
      simp only [List.flatMap]
      congr 1
      refine List.map_congr_left fun r among => ?_
      rw [cleared, cleared, others r among]
    rw [List.foldl_cons, clearOne, if_neg (by simp [waits req List.mem_cons_self]), ih apart.2,
      List.foldl_cons, same, List.flatMap_cons, cleared, List.append_assoc]
    intro r among
    rw [others r among]
    exact waits r (List.mem_cons_of_mem _ among)

/-- One turn of `check` for a late request. -/
def Check.turn (c : Check) (entry : Nat × Nat) : Check :=
  ((c.late entry.2).free entry.2).drop entry.1 entry.2

theorem turn_paras (c : Check) (entry : Nat × Nat) (r : Nat) :
    (c.turn entry).paras r =
      { c.paras r with bTimeout := r = entry.2 || (c.paras r).bTimeout } :=
  giveUp_apply r

theorem turn_srcSession (c : Check) (entry : Nat × Nat) (r : Nat) :
    ((c.turn entry).paras r).srcSession = (c.paras r).srcSession := by
  rw [turn_paras]

theorem turn_dstSession (c : Check) (entry : Nat × Nat) (r : Nat) :
    ((c.turn entry).paras r).dstSession = (c.paras r).dstSession := by
  rw [turn_paras]

/-- A call that erases what it gives up takes the late requests from the front. -/
theorem checkLoop_eq {entries : List (Nat × Nat)} {c : Check} {fuel : Nat}
    (enough : entries.length < fuel) (apart : (entries.map Prod.snd).Nodup)
    (waits : ∀ entry ∈ entries, (c.paras entry.2).bTimeout = false) :
    checkLoop now true fuel entries c =
      some ((entries.takeWhile
        fun entry => (c.paras entry.2).checkLife now).foldl Check.turn c) := by
  induction entries generalizing c fuel with
  | nil =>
    cases fuel with
    | zero => omega
    | succ fuel => rfl
  | cons entry rest ih =>
    cases fuel with
    | zero => omega
    | succ fuel =>
      have room : rest.length < fuel := by simpa using enough
      rw [List.map_cons, List.nodup_cons] at apart
      rw [checkLoop, if_neg (by simp [waits entry List.mem_cons_self])]
      by_cases late : (c.paras entry.2).checkLife now
      · have others : ∀ other ∈ rest, (c.turn entry).paras other.2 = c.paras other.2 := by
          intro other among
          refine Function.update_of_ne ?_ _ _
          intro same
          exact apart.1 (List.mem_map.mpr ⟨other, among, same⟩)
        have again : (fun other : Nat × Nat => ((c.turn entry).paras other.2).checkLife now) =
            fun other => (c.paras other.2).checkLife now := by
          funext other
          rw [turn_paras, AdRtbPara.checkLife, AdRtbPara.checkLife]
        rw [if_pos late, if_pos rfl, List.takeWhile_cons, if_pos late, List.foldl_cons, ← again]
        refine ih room apart.2 fun other among => ?_
        exact (congrArg AdRtbPara.bTimeout (others other among)).trans
          (waits other (List.mem_cons_of_mem _ among))
      · rw [if_neg late, List.takeWhile_cons, if_neg late, List.foldl_nil]

theorem turns_effects (gone : List (Nat × Nat)) (c : Check) :
    (gone.foldl Check.turn c).effects = c.effects ++ gone.flatMap fun entry =>
      [.sessionTimeout entry.2 (c.paras entry.2).srcSession, .freePara entry.2] := by
  induction gone generalizing c with
  | nil => simp
  | cons entry gone ih =>
    rw [List.foldl_cons, ih, List.flatMap_cons]
    simp only [turn_srcSession]
    simp [Check.turn, Check.drop, Check.free, Check.late]

theorem turns_list (gone : List (Nat × Nat)) (c : Check) :
    (gone.foldl Check.turn c).list =
      gone.foldl (fun l entry => l.without entry.1 entry.2) c.list := by
  induction gone generalizing c with
  | nil => rfl
  | cons entry gone ih => exact ih (c.turn entry)

theorem turns_sessions (gone : List (Nat × Nat)) (c : Check) (r : Nat) :
    ((gone.foldl Check.turn c).paras r).srcSession = (c.paras r).srcSession ∧
      ((gone.foldl Check.turn c).paras r).dstSession = (c.paras r).dstSession := by
  induction gone generalizing c with
  | nil => exact ⟨rfl, rfl⟩
  | cons entry gone ih =>
    obtain ⟨src, dst⟩ := ih (c.turn entry)
    exact ⟨src.trans (turn_srcSession c entry r), dst.trans (turn_dstSession c entry r)⟩

theorem mem_keys {r : Nat} : r ∈ l.mReq.keys ↔ l.Holds r := by
  rw [TreeMap.mem_keys, TreeMap.mem_iff_isSome_getElem?, Option.isSome_iff_exists]
  rfl

theorem keys_perm_without (holds : l.Holds req) :
    l.mReq.keys.Perm (req :: (l.without time req).mReq.keys) := by
  rw [List.perm_ext_iff_of_nodup TreeMap.nodup_keys]
  · intro r
    rw [List.mem_cons, mem_keys, mem_keys, holds_without]
    by_cases same : r = req
    · subst same
      simpa using holds
    · simp [same]
  · rw [List.nodup_cons, mem_keys, holds_without]
    exact ⟨fun again => again.2 rfl, TreeMap.nodup_keys⟩

theorem keys_perm_push (fresh : ¬ l.Holds req) :
    (l.push paras req).mReq.keys.Perm (req :: l.mReq.keys) := by
  rw [List.perm_ext_iff_of_nodup TreeMap.nodup_keys]
  · intro r
    rw [List.mem_cons, mem_keys, mem_keys, holds_push]
  · rw [List.nodup_cons, mem_keys]
    exact ⟨fresh, TreeMap.nodup_keys⟩

/-- Every request under a time is on the list under that time. -/
def Backed (l : AdParaList) : Prop :=
  ∀ time req : Nat, l.mTime[time]? = some req → l.mReq[req]? = some time

theorem backed_empty : empty.Backed := by
  intro time req found
  simp [empty] at found

theorem Backed.holds (backed : l.Backed) (found : l.mTime[time]? = some req) : l.Holds req :=
  ⟨time, backed time req found⟩

theorem Backed.without (backed : l.Backed) (entry : l.mTime[time]? = some req) :
    (l.without time req).Backed := by
  intro t r found
  by_cases same : time = t
  · subst same
    simp [AdParaList.without] at found
  · rw [AdParaList.without, getElem?_erase_ne same] at found
    rw [AdParaList.without, getElem?_erase_ne]
    · exact backed t r found
    · rintro rfl
      have one := backed t req found
      rw [backed time req entry] at one
      exact same (Option.some.inj one)

theorem Backed.push (backed : l.Backed) (fresh : ¬ l.Holds req) : (l.push paras req).Backed := by
  intro t r found
  by_cases same : getTime (paras req).time = t
  · subst same
    rw [AdParaList.push, TreeMap.getElem?_insert_self] at found
    obtain rfl := Option.some.inj found
    rw [AdParaList.push, TreeMap.getElem?_insert_self]
  · rw [AdParaList.push, getElem?_insert_ne same] at found
    rw [AdParaList.push, getElem?_insert_ne]
    · exact backed t r found
    · rintro rfl
      exact fresh (backed.holds found)

/-- No request is under two times. -/
theorem Backed.apart (backed : l.Backed) : (l.mTime.toList.map Prod.snd).Nodup := by
  refine List.Nodup.map_on ?_ ?_
  · rintro ⟨t, r⟩ one ⟨t', r'⟩ two same
    obtain rfl : r = r' := same
    have first := backed t r (TreeMap.mem_toList_iff_getElem?_eq_some.mp one)
    rw [backed t' r (TreeMap.mem_toList_iff_getElem?_eq_some.mp two)] at first
    rw [Option.some.inj first]
  · exact List.Nodup.of_map Prod.fst (ahead_toList l).1

theorem check_eq (backed : l.Backed) (waits : ∀ r, l.Holds r → (paras r).bTimeout = false) :
    l.check paras now true =
      some ((l.mTime.toList.takeWhile fun entry => (paras entry.2).checkLife now).foldl Check.turn
        ⟨l, paras, [], 0, []⟩) := by
  refine checkLoop_eq (c := ⟨l, paras, [], 0, []⟩) (by simp) backed.apart ?_
  intro entry listed
  exact waits entry.2 (backed.holds (TreeMap.mem_toList_iff_getElem?_eq_some.mp listed))

theorem foldl_giveUp (reqs : List Nat) (r : Nat) :
    reqs.foldl giveUp paras r = { paras r with bTimeout := r ∈ reqs || (paras r).bTimeout } := by
  induction reqs generalizing paras with
  | nil => simp
  | cons req reqs ih =>
    rw [List.foldl_cons, ih, giveUp_apply]
    by_cases same : r = req <;> simp [same]

/-- The requests given up by `check` leave the list one after another. -/
theorem keys_perm_foldl {gone rest : List (Nat × Nat)} (backed : l.Backed)
    (ahead : Ahead (gone ++ rest) l) :
    l.mReq.keys.Perm (gone.map Prod.snd ++
      (gone.foldl (fun l entry => l.without entry.1 entry.2) l).mReq.keys) ∧
    (gone.foldl (fun l entry => l.without entry.1 entry.2) l).Backed := by
  induction gone generalizing l with
  | nil => exact ⟨List.Perm.refl _, backed⟩
  | cons entry gone ih =>
    have found := ahead.2 entry (List.mem_append_left _ List.mem_cons_self)
    obtain ⟨perm, backed'⟩ := ih (backed.without found) (Ahead.without ahead)
    exact ⟨(keys_perm_without (backed.holds found)).trans (perm.cons entry.2), backed'⟩

/-- The requests that successive calls of `pop` return. -/
def pops : Nat → AdParaList → List Nat
  | 0, _ => []
  | n + 1, l => l.pop.1.toList ++ pops n l.pop.2

/-- A request under its time is popped sooner or later. -/
theorem mem_pops {n : Nat} (enough : l.mTime.size ≤ n) (entry : l.mTime[time]? = some req) :
    req ∈ pops n l := by
  induction n generalizing l with
  | zero =>
    have vacant : l.mTime.isEmpty := by simpa [TreeMap.isEmpty_eq_size_eq_zero] using enough
    rw [TreeMap.getElem?_of_isEmpty vacant] at entry
    exact absurd entry (by simp)
  | succ n ih =>
    rw [pops, pop]
    cases entries : l.mTime.toList with
    | nil =>
      have listed := TreeMap.mem_toList_iff_getElem?_eq_some.mpr entry
      rw [entries] at listed
      exact absurd listed (by simp)
    | cons head rest =>
      obtain ⟨first, r⟩ := head
      have firstEntry : l.mTime[first]? = some r := by
        rw [← TreeMap.mem_toList_iff_getElem?_eq_some, entries]
        exact List.mem_cons_self
      by_cases same : first = time
      · subst same
        rw [firstEntry] at entry
        simp [Option.some.inj entry]
      · refine List.mem_append_right _ (ih ?_ ?_)
        · have smaller : (l.mTime.erase first).size = l.mTime.size - 1 := by
            rw [TreeMap.size_erase, if_pos]
            rw [TreeMap.contains_eq_isSome_getElem?, firstEntry]
            rfl
          change (l.mTime.erase first).size ≤ n
          omega
        · rw [← entry]
          exact getElem?_erase_ne same

/-- A request can be found by a time, popped, and timed out. -/
def Findable (l : AdParaList) (paras : Paras) (req : Nat) : Prop :=
  ∃ time, (l.delTime time).1 = some req ∧ req ∈ pops l.mTime.size l ∧
    ∀ now, (∀ t r, l.mTime[t]? = some r → t < time → Overdue paras now r) →
      ¬ (paras req).bTimeout → (paras req).checkLife now →
      ∃ c, l.check paras now true = some c ∧
        .sessionTimeout req (paras req).srcSession ∈ c.effects

theorem findable_of_indexed (indexed : l.Indexed) (holds : l.Holds req) :
    l.Findable paras req := by
  obtain ⟨time, bound⟩ := holds
  have entry := (indexed req time).mp bound
  refine ⟨time, by rw [delTime, entry], mem_pops le_rfl entry, ?_⟩
  intro now before waits late
  refine checkLoop_gives_up (c := ⟨l, paras, [], 0, []⟩) (by simp)
    (TreeMap.mem_toList_iff_getElem?_eq_some.mpr entry) ?_ ?_ ?_ waits late
  · refine TreeMap.ordered_keys_toList.imp ?_
    intro a b sooner
    exact Nat.compare_eq_lt.mp sooner
  · intro other listed same
    have found := TreeMap.mem_toList_iff_getElem?_eq_some.mp listed
    rw [same] at found
    have again := (indexed req other.1).mpr found
    rw [bound] at again
    exact (Option.some.inj again).symm
  · intro other listed sooner
    exact before _ _ (TreeMap.mem_toList_iff_getElem?_eq_some.mp listed) sooner

end AdParaList

/-- A call on the list. Between calls a request object may be filled anew. -/
inductive Call where
  | renew (req : Nat) (para : AdRtbPara)
  | push (req : Nat)
  | del (req : Nat)
  | delTime (time : Nat)
  | pop
  | check (now : RtbBase.Time) (bDel : Bool)
  | clear

/-- The list, the request objects, and the requests that were pushed and neither deleted,
popped, timed out nor cleared since. -/
structure Pending where
  list : AdParaList
  paras : Paras
  waiting : List Nat

def Pending.start (paras : Paras) : Pending := ⟨.empty, paras, []⟩

def Pending.leave (s : Pending) (off : List Nat) (list : AdParaList) : Pending :=
  { s with list := list, waiting := s.waiting.filter (· ∉ off) }

def step : Call → Pending → Option Pending
  | .renew req para, s => some { s with paras := Function.update s.paras req para }
  | .push req, s =>
    some { s with list := s.list.push s.paras req, waiting := req :: s.waiting }
  | .del req, s => some (s.leave (if (s.list.del req).1 then [req] else []) (s.list.del req).2)
  | .delTime time, s =>
    some (s.leave (s.list.delTime time).1.toList (s.list.delTime time).2)
  | .pop, s => some (s.leave s.list.pop.1.toList s.list.pop.2)
  | .check now bDel, s =>
    (s.list.check s.paras now bDel).map fun c => { s.leave c.erased c.list with paras := c.paras }
  | .clear, s =>
    some ⟨(s.list.clear s.paras).1, (s.list.clear s.paras).2.1, []⟩

/-- A pushed request is under no other time, and its time is under no other request. -/
def Timely : Call → Pending → Prop
  | .push req, s => Fresh s.list.mReq s.list.mTime req (getTime (s.paras req).time)
  | _, _ => True

/-- The two maps are inverse, and every waiting request can be found, popped and timed out. -/
def Faithful (s : Pending) : Prop :=
  s.list.Indexed ∧ ∀ req ∈ s.waiting, s.list.Findable s.paras req

/-- The list is indexed and holds the requests that wait. -/
def Tracked (s : Pending) : Prop :=
  s.list.Indexed ∧ ∀ r, r ∈ s.waiting ↔ s.list.Holds r

theorem tracked_start (paras : Paras) : Tracked (.start paras) := by
  refine ⟨AdParaList.indexed_empty, fun r => ?_⟩
  constructor
  · intro waits
    exact absurd waits (by simp [Pending.start])
  · intro holds
    exact absurd holds AdParaList.not_holds_empty

theorem tracked_leave {s : Pending} {off : List Nat} {list : AdParaList} (tracked : Tracked s)
    (leaves : AdParaList.Leaves s.list off list) : Tracked (s.leave off list) := by
  refine ⟨leaves.1, fun r => ?_⟩
  rw [Pending.leave, leaves.2 r, List.mem_filter, tracked.2 r]
  simp

theorem Tracked.faithful {s : Pending} (tracked : Tracked s) : Faithful s :=
  ⟨tracked.1, fun r waits => AdParaList.findable_of_indexed tracked.1 ((tracked.2 r).mp waits)⟩

theorem tracked_step {call : Call} {s after : Pending} (tracked : Tracked s)
    (timely : Timely call s) (stepped : step call s = some after) : Tracked after := by
  cases call with
  | renew req para =>
    obtain rfl := Option.some.inj stepped
    exact tracked
  | push req =>
    obtain rfl := Option.some.inj stepped
    refine ⟨(AdParaList.push_indexed_iff tracked.1).mpr timely, fun r => ?_⟩
    rw [AdParaList.holds_push, ← tracked.2 r, List.mem_cons]
  | del req =>
    obtain rfl := Option.some.inj stepped
    exact tracked_leave tracked (AdParaList.del_leaves tracked.1)
  | delTime time =>
    obtain rfl := Option.some.inj stepped
    exact tracked_leave tracked (AdParaList.delTime_leaves tracked.1)
  | pop =>
    obtain rfl := Option.some.inj stepped
    exact tracked_leave tracked (AdParaList.pop_leaves tracked.1)
  | check now bDel =>
    obtain ⟨c, returned, rfl⟩ := Option.map_eq_some_iff.mp stepped
    exact tracked_leave tracked (AdParaList.check_leaves tracked.1 returned)
  | clear =>
    obtain rfl := Option.some.inj stepped
    exact tracked_start _

/-- A step from an indexed list leads to an indexed list exactly when it is timely. -/
theorem indexed_step {call : Call} {s after : Pending} (indexed : s.list.Indexed)
    (stepped : step call s = some after) : after.list.Indexed ↔ Timely call s := by
  cases call with
  | renew req para =>
    obtain rfl := Option.some.inj stepped
    exact iff_of_true indexed trivial
  | push req =>
    obtain rfl := Option.some.inj stepped
    exact AdParaList.push_indexed_iff indexed
  | del req =>
    obtain rfl := Option.some.inj stepped
    exact iff_of_true (AdParaList.del_leaves indexed).1 trivial
  | delTime time =>
    obtain rfl := Option.some.inj stepped
    exact iff_of_true (AdParaList.delTime_leaves indexed).1 trivial
  | pop =>
    obtain rfl := Option.some.inj stepped
    exact iff_of_true (AdParaList.pop_leaves indexed).1 trivial
  | check now bDel =>
    obtain ⟨c, returned, rfl⟩ := Option.map_eq_some_iff.mp stepped
    exact iff_of_true (AdParaList.check_leaves indexed returned).1 trivial
  | clear =>
    obtain rfl := Option.some.inj stepped
    exact iff_of_true AdParaList.indexed_empty trivial

/-- The index stays faithful through a run of calls exactly when no request is ever pushed
under the time of another pending request, or while it is pending under another time. -/
theorem faithful_iff_timely (paras : Paras) (calls : List Call) :
    (∀ s ∈ states step (.start paras) calls, Faithful s) ↔
      Throughout step Timely (.start paras) calls := by
  refine states_iff_invariant ?_ (fun _ _ _ => tracked_step) (fun _ => Tracked.faithful)
    (tracked_start paras) calls
  intro call s after tracked stepped faithful
  exact (indexed_step tracked.1 stepped).mp faithful.1

/-- Two requests of the same microsecond: the one pushed first cannot be found any more. -/
theorem same_microsecond_lost :
    ¬ ∀ (paras : Paras) (calls : List Call),
      ∀ s ∈ states step (.start paras) calls, Faithful s := by
  intro all
  have faithful := all (fun _ => ⟨⟨0, 0⟩, 0, 0, false⟩) [.push 1, .push 2] _
    (.tail _ (.tail _ (.head _)))
  have found := (faithful.1 1 0).mp (by decide)
  exact absurd found (by decide)

end PendingRequests
