import RtbAdapter.DealRank

/-!
# Whether ranks go by the price

A draw gives a rank. More than three orders are ranked by their prices, as integers with a
sign; up to three are ranked by the places at which they happen to stand.
-/

namespace PriceRanks

open FloatFormat ByteWords DealRank

section Draw

variable {count rank : Nat} {pow : Single → Nat → Option Rat} {wt : Option Single}
  {start stop : Int} {choice next : List Nat}

theorem setChoice_length (set : setChoice rank start stop choice = some next) :
    next.length = choice.length := by
  rw [setChoice] at set
  split at set
  · rw [Option.some.inj set]
  · split at set
    · rw [← Option.some.inj set, List.length_mapIdx]
    · cases set

theorem setChoice_bounds (set : setChoice rank start stop choice = some next) :
    stop ≤ start ∨ 0 ≤ start ∧ stop ≤ choice.length := by
  rw [setChoice] at set
  split at set
  · next none => exact .inl none
  · split at set
    · next inside => exact .inr inside
    · cases set

theorem setChoice_get (set : setChoice rank start stop choice = some next) (j : Nat) :
    next[j]? = choice[j]?.map fun old => if start ≤ j ∧ j < stop then rank else old := by
  rw [setChoice] at set
  split at set
  · next none =>
    rw [← Option.some.inj set]
    have out : ¬ (start ≤ j ∧ (j : Int) < stop) := by omega
    simp [out]
  · split at set
    · rw [← Option.some.inj set, List.getElem?_mapIdx]
    · cases set

/-- All slots hold ranks that there are. -/
def Slots (count : Nat) (choice : List Nat) : Prop :=
  choice.length = choiceSize ∧ ∀ k ∈ choice, k < count

theorem setChoice_slots (slots : Slots count choice) (small : rank < count)
    (set : setChoice rank start stop choice = some next) : Slots count next := by
  refine ⟨(setChoice_length set).trans slots.1, fun k inside => ?_⟩
  obtain ⟨j, there⟩ := List.mem_iff_getElem?.mp inside
  rw [setChoice_get set] at there
  obtain ⟨old, stored, rfl⟩ := Option.map_eq_some_iff.mp there
  split
  · exact small
  · exact slots.2 old (List.mem_of_getElem? stored)

theorem choiceStep_slots {state after : List Nat × Int} (slots : Slots count state.1)
    (small : rank < count) (step : choiceStep pow wt count state rank = some after) :
    Slots count after.1 := by
  rw [choiceStep] at step
  split at step
  · obtain ⟨share, -, step⟩ := Option.bind_eq_some_iff.mp step
    obtain ⟨choice, set, rest⟩ := Option.bind_eq_some_iff.mp step
    obtain rfl := Option.some.inj rest
    exact setChoice_slots slots small set
  · obtain ⟨choice, set, rest⟩ := Option.bind_eq_some_iff.mp step
    obtain rfl := Option.some.inj rest
    exact setChoice_slots slots small set

theorem choiceTable_slots (positive : 0 < count) (table : choiceTable pow wt count = some choice) :
    Slots count choice := by
  have run : ∀ (ranks : List Nat) (state after : List Nat × Int), (∀ k ∈ ranks, k < count) →
      Slots count state.1 → ranks.foldlM (choiceStep pow wt count) state = some after →
      Slots count after.1 := by
    intro ranks
    induction ranks with
    | nil =>
      intro state after _ slots run
      obtain rfl := Option.some.inj run
      exact slots
    | cons k ranks ih =>
      intro state after small slots run
      rw [List.foldlM_cons] at run
      obtain ⟨middle, step, rest⟩ := Option.bind_eq_some_iff.mp run
      obtain ⟨first, others⟩ := List.forall_mem_cons.mp small
      exact ih middle after others (choiceStep_slots slots first step) rest
  rw [choiceTable] at table
  obtain ⟨after, ran, last⟩ := Option.bind_eq_some_iff.mp table
  obtain rfl := Option.some.inj last
  refine run _ _ _ (fun k inside => List.mem_range.mp inside) ?_ ran
  refine ⟨List.length_replicate, fun k inside => ?_⟩
  rwa [List.eq_of_mem_replicate inside]

/-- A draw of a rank that there is. -/
theorem rand_lt {draw : Nat} (positive : 0 < count)
    (drawn : adRtbRandWet pow wt count draw = some rank) : rank < count := by
  rw [adRtbRandWet] at drawn
  split at drawn
  · obtain rfl := Option.some.inj drawn
    exact positive
  · obtain ⟨choice, table, slot⟩ := Option.bind_eq_some_iff.mp drawn
    exact (choiceTable_slots positive table).2 rank (List.mem_of_getElem? slot)

/-- Whether a draw writes beside its array does not depend on the number drawn. -/
theorem rand_isSome (positive : 0 < count) (draw : Nat) :
    (adRtbRandWet pow wt count draw).isSome ↔ count = 1 ∨ (choiceTable pow wt count).isSome := by
  rw [adRtbRandWet]
  split
  · next one => exact iff_of_true rfl (.inl one)
  · next more =>
    rw [or_iff_right more]
    cases table : choiceTable pow wt count with
    | none => exact Iff.rfl
    | some choice =>
      have place : draw % choiceSize < choice.length := by
        rw [(choiceTable_slots positive table).1]
        exact Nat.mod_lt _ (by decide)
      refine iff_of_true ?_ rfl
      change (choice[draw % choiceSize]?).isSome = true
      rw [List.getElem?_eq_getElem place]
      rfl

/-- A cast to an integer goes towards zero. -/
theorem trunc_nonneg {q : Rat} (nonneg : 0 ≤ q) :
    (q.num.tdiv q.den : Rat) ≤ q ∧ q < q.num.tdiv q.den + 1 := by
  have floor : q.num.tdiv q.den = ⌊q⌋ := by
    rw [Int.tdiv_eq_ediv_of_nonneg (Rat.num_nonneg.mpr nonneg)]
    exact (Rat.floor_def q).symm
  rw [floor]
  exact ⟨Int.floor_le q, Int.lt_floor_add_one q⟩

theorem trunc_nonpos {q : Rat} (nonpos : q ≤ 0) :
    q ≤ (q.num.tdiv q.den : Rat) ∧ (q.num.tdiv q.den - 1 : Rat) < q := by
  obtain ⟨lower, upper⟩ := trunc_nonneg (neg_nonneg.mpr nonpos)
  rw [Rat.num_neg_eq_neg_num, Rat.den_neg_eq_den, Int.neg_tdiv] at lower upper
  push_cast at lower upper
  constructor <;> linarith

/-- What is relied on about the power function: the power zero is one, and the powers of a number
from zero to one are, too. -/
structure Powers (pow : Single → Nat → Option Rat) : Prop where
  zero : ∀ x, pow x 0 = some 1
  nonneg : ∀ x rank power, 0 ≤ x.value → pow x rank = some power → 0 ≤ power
  le_one : ∀ x rank power, 0 ≤ x.value → x.value ≤ 1 → pow x rank = some power → power ≤ 1

/-- The share of a rank before it is made an integer. -/
def share (weight : Single) (power : Rat) : Rat :=
  binary32.nearest (binary32.nearest (binary32.nearest power * weight.value) * 100)

theorem floatInt_eq {x : Single} {whole : Int} (got : floatInt x = some whole) :
    whole = x.value.num.tdiv x.value.den := by
  rw [floatInt] at got
  split_ifs at got
  exact (Option.some.inj got).symm

theorem chnum_cases {slots : Int} (got : chnum pow wt rank = some slots) :
    ∃ weight left power, wt = some weight ∧ binary32.round (1 - weight.value) = some left ∧
      pow left rank = some power ∧
        slots = (share weight power).num.tdiv (share weight power).den := by
  obtain ⟨weight, stored, got⟩ := Option.bind_eq_some_iff.mp got
  obtain ⟨left, rounded, got⟩ := Option.bind_eq_some_iff.mp got
  obtain ⟨power, raised, got⟩ := Option.bind_eq_some_iff.mp got
  obtain ⟨power', first, got⟩ := Option.bind_eq_some_iff.mp got
  obtain ⟨part, second, got⟩ := Option.bind_eq_some_iff.mp got
  obtain ⟨product, third, got⟩ := Option.bind_eq_some_iff.mp got
  refine ⟨weight, left, power, stored, rounded, raised, ?_⟩
  rw [share, ← round_value first, ← round_value second, ← round_value third]
  exact floatInt_eq got

theorem exact_one : binary32.Exact 1 := ⟨1, 0, by norm_num, by decide, by decide⟩

/-- The share of the first rank is the weight of a hundred. -/
theorem share_one (weight : Single) : share weight 1 = binary32.nearest (weight.value * 100) := by
  rw [share, nearest_exact exact_one, one_mul, nearest_exact weight.exact]

/-- A power from zero to one gives no larger share than the power one. -/
theorem share_le {weight : Single} {power : Rat} (positive : 0 ≤ weight.value) (nonneg : 0 ≤ power)
    (most : power ≤ 1) : 0 ≤ share weight power ∧ share weight power ≤ share weight 1 := by
  have lower := nearest_nonneg (F := binary32) nonneg
  have product := mul_nonneg lower positive
  have part := nearest_nonneg (F := binary32) product
  refine ⟨nearest_nonneg (mul_nonneg part (by norm_num)), ?_⟩
  rw [share_one]
  have upper : binary32.nearest power ≤ 1 := by
    have mono := nearest_mono (F := binary32) nonneg most
    rwa [nearest_exact exact_one] at mono
  have below : binary32.nearest (binary32.nearest power * weight.value) ≤ weight.value := by
    have mono := nearest_mono (F := binary32) product (mul_le_of_le_one_left positive upper)
    rwa [nearest_exact weight.exact] at mono
  exact nearest_mono (mul_nonneg part (by norm_num))
    (mul_le_mul_of_nonneg_right below (by norm_num))

theorem share_nonpos {weight : Single} {power : Rat} (negative : weight.value ≤ 0)
    (nonneg : 0 ≤ power) : share weight power ≤ 0 := by
  have product := mul_nonpos_of_nonneg_of_nonpos (nearest_nonneg (F := binary32) nonneg) negative
  have part := nearest_nonpos (F := binary32) product
  exact nearest_nonpos (mul_nonpos_of_nonpos_of_nonneg part (by norm_num))

/-- The second rank has no slots when the first has none. -/
theorem chnum_one_nonpos (powers : Powers pow) {first second : Int}
    (got : chnum pow wt 0 = some first) (got' : chnum pow wt 1 = some second)
    (none : first ≤ 0) : second ≤ 0 := by
  obtain ⟨weight, left, power, stored, rounded, raised, rfl⟩ := chnum_cases got
  obtain ⟨weight', left', power', stored', rounded', raised', rfl⟩ := chnum_cases got'
  obtain rfl := Option.some.inj (stored.symm.trans stored')
  obtain rfl := Option.some.inj (rounded.symm.trans rounded')
  obtain rfl := Option.some.inj ((powers.zero left).symm.trans raised)
  have below : ((share weight 1).num.tdiv (share weight 1).den : Rat) ≤ 0 := by
    exact_mod_cast none
  have whole : ∀ t : Int, (t : Rat) < 1 → t ≤ 0 := by
    intro t small
    have : t < 1 := by exact_mod_cast small
    omega
  apply whole
  have nonneg : weight.value ≤ 1 → 0 ≤ power' := by
    intro most
    refine powers.nonneg left 1 power' ?_ raised'
    rw [round_value rounded]
    exact nearest_nonneg (by linarith)
  rcases le_total weight.value 0 with negative | positive
  · have nonpos := share_nonpos negative (nonneg (by linarith))
    linarith [(trunc_nonpos nonpos).2]
  · have least : 0 ≤ share weight 1 := (share_le positive zero_le_one le_rfl).1
    have small : share weight 1 < 1 := by linarith [(trunc_nonneg least).2]
    -- a weight of one or more has a slot
    have most : weight.value ≤ 1 := by
      by_contra more
      have mono := nearest_mono (F := binary32) (x := 1) (y := weight.value * 100) (by norm_num)
        (by linarith)
      rw [nearest_exact exact_one, ← share_one] at mono
      linarith
    have left_le : left.value ≤ 1 := by
      have mono := nearest_mono (F := binary32) (x := 1 - weight.value) (y := 1) (by linarith)
        (by linarith)
      rwa [nearest_exact exact_one, ← round_value rounded] at mono
    have left_nonneg : 0 ≤ left.value := by
      rw [round_value rounded]
      exact nearest_nonneg (by linarith)
    obtain ⟨lower, upper⟩ := share_le positive (nonneg most)
      (powers.le_one left 1 power' left_nonneg left_le raised')
    linarith [(trunc_nonneg lower).1]

theorem choiceStep_inner {state after : List Nat × Int} (more : rank + 1 < count)
    (step : choiceStep pow wt count state rank = some after) :
    ∃ slots, chnum pow wt rank = some slots ∧
      setChoice rank state.2 (slots + state.2) state.1 = some after.1 ∧
        after.2 = state.2 + slots := by
  rw [choiceStep, if_pos more] at step
  obtain ⟨slots, got, step⟩ := Option.bind_eq_some_iff.mp step
  obtain ⟨next, set, same⟩ := Option.bind_eq_some_iff.mp step
  obtain rfl := Option.some.inj same
  exact ⟨slots, got, set, rfl⟩

theorem choiceStep_last {state after : List Nat × Int} (last : ¬ rank + 1 < count)
    (step : choiceStep pow wt count state rank = some after) :
    setChoice rank state.2 choiceSize state.1 = some after.1 := by
  rw [choiceStep, if_neg last] at step
  obtain ⟨next, set, same⟩ := Option.bind_eq_some_iff.mp step
  obtain rfl := Option.some.inj same
  exact set

/-- The last rank takes all slots, or the first slot stays with the first rank. -/
theorem last_slots {start : Int} {choice next : List Nat} {last : Nat}
    (size : choice.length = choiceSize)
    (set : setChoice last start choiceSize choice = some next) :
    0 < start ∧ next[0]? = choice[0]? ∨ ∀ k ∈ next, k = last := by
  by_cases above : 0 < start
  · left
    refine ⟨above, ?_⟩
    rw [setChoice_get set]
    have out : ¬ (start ≤ ((0 : Nat) : Int) ∧ ((0 : Nat) : Int) < choiceSize) := by omega
    simp only [if_neg out, Option.map_id']
  · right
    intro k inside
    have bounds := setChoice_bounds set
    obtain ⟨j, there⟩ := List.mem_iff_getElem?.mp inside
    rw [setChoice_get set] at there
    obtain ⟨old, stored, rfl⟩ := Option.map_eq_some_iff.mp there
    obtain ⟨place, _⟩ := List.getElem?_eq_some_iff.mp stored
    have hundred : choiceSize = 100 := rfl
    rw [if_pos (by omega)]

/-- With two or three ranks the first one can be drawn, or only the last one can. -/
theorem first_or_last (powers : Powers pow) {choice : List Nat} {count : Nat}
    (several : count = 2 ∨ count = 3) (table : choiceTable pow wt count = some choice) :
    choice[0]? = some 0 ∨ ∀ k ∈ choice, k = count - 1 := by
  have size : (List.replicate choiceSize 0).length = choiceSize := List.length_replicate
  rw [choiceTable] at table
  obtain ⟨after, ran, last⟩ := Option.bind_eq_some_iff.mp table
  obtain rfl := Option.some.inj last
  rcases several with rfl | rfl
  · change (choiceStep pow wt 2 (List.replicate choiceSize 0, 0) 0).bind (fun state =>
      (choiceStep pow wt 2 state 1).bind some) = some after at ran
    obtain ⟨state, step, rest⟩ := Option.bind_eq_some_iff.mp ran
    obtain ⟨after', step', same⟩ := Option.bind_eq_some_iff.mp rest
    obtain rfl := Option.some.inj same
    obtain ⟨_, -, set, -⟩ := choiceStep_inner (by decide) step
    have set' := choiceStep_last (by decide) step'
    rcases last_slots ((setChoice_length set).trans size) set' with ⟨_, stays⟩ | all
    · left
      rw [stays, setChoice_get set]
      simp [choiceSize]
    · exact .inr all
  · change (choiceStep pow wt 3 (List.replicate choiceSize 0, 0) 0).bind (fun state =>
      (choiceStep pow wt 3 state 1).bind fun state => (choiceStep pow wt 3 state 2).bind some) =
        some after at ran
    obtain ⟨state, step, rest⟩ := Option.bind_eq_some_iff.mp ran
    obtain ⟨state', step', rest⟩ := Option.bind_eq_some_iff.mp rest
    obtain ⟨after', step'', same⟩ := Option.bind_eq_some_iff.mp rest
    obtain rfl := Option.some.inj same
    obtain ⟨first, got, set, start⟩ := choiceStep_inner (by decide) step
    obtain ⟨second, got', set', start'⟩ := choiceStep_inner (by decide) step'
    have set'' := choiceStep_last (by decide) step''
    have size' := (setChoice_length set).trans size
    rcases last_slots ((setChoice_length set').trans size') set'' with ⟨above, stays⟩ | all
    · left
      rw [start', start] at above
      dsimp only at start
      -- the first rank has a slot, and the second one starts behind it
      have some' : 0 < first := by
        by_contra none
        have nonpos := chnum_one_nonpos powers got got' (Int.not_lt.mp none)
        dsimp only at above
        omega
      have out : ¬ (state.2 ≤ ((0 : Nat) : Int) ∧ ((0 : Nat) : Int) < second + state.2) := by
        omega
      rw [stays, setChoice_get set']
      simp only [if_neg out]
      rw [setChoice_get set]
      simp [choiceSize]
    · exact .inr all

/-- Two different ranks can be drawn only if the first one can. -/
theorem first_drawn (powers : Powers pow) {count rank rank' draw draw' : Nat}
    (several : count = 2 ∨ count = 3) (drawn : adRtbRandWet pow wt count draw = some rank)
    (drawn' : adRtbRandWet pow wt count draw' = some rank') (differ : rank ≠ rank') :
    ∃ draw, adRtbRandWet pow wt count draw = some 0 := by
  have more : count ≠ 1 := by omega
  rw [adRtbRandWet, if_neg more] at drawn drawn'
  obtain ⟨choice, table, slot⟩ := Option.bind_eq_some_iff.mp drawn
  obtain ⟨choice', table', slot'⟩ := Option.bind_eq_some_iff.mp drawn'
  obtain rfl := Option.some.inj (table.symm.trans table')
  rcases first_or_last powers several table with first | last
  · refine ⟨0, ?_⟩
    rw [adRtbRandWet, if_neg more, table]
    exact first
  · have alone := last rank (List.mem_of_getElem? slot)
    have alone' := last rank' (List.mem_of_getElem? slot')
    omega

end Draw

section Groups

variable {v : List AdUnitPrice} {u : AdUnitPrice} {groups : List (Int × List AdUnitPrice)}

/-- `m_Price`, whose keys are integers with a sign. -/
def priceGroups (v : List AdUnitPrice) : List (Int × List AdUnitPrice) :=
  v.foldl (fun groups u => pushPrice u groups) []

def signed (u : AdUnitPrice) : Int := toInt32 u.price.toNat

theorem signed_cases (u : AdUnitPrice) :
    u.price.toNat < 2 ^ 31 ∧ signed u = u.price.toNat ∨
      2 ^ 31 ≤ u.price.toNat ∧ signed u = u.price.toNat - 2 ^ 32 := by
  have upper := u.price.toNat_lt
  have range := toInt32_range u.price.toNat
  obtain ⟨k, wrapped⟩ := toInt32_sub_dvd u.price.toNat
  rw [signed]
  omega

theorem pushPrice_nil (u : AdUnitPrice) : pushPrice u [] = [(signed u, [u])] := by
  rw [pushPrice, signed]

theorem pushPrice_cons (u : AdUnitPrice) (price : Int) (units : List AdUnitPrice) :
    pushPrice u ((price, units) :: groups) =
      if price = signed u then (price, units ++ [u]) :: groups
      else if price < signed u then (signed u, [u]) :: (price, units) :: groups
      else (price, units) :: pushPrice u groups := by
  rw [pushPrice, signed]

-- the value of a key is not looked at below
attribute [irreducible] signed

/-- The prices go down, and each has the orders of that price. -/
structure Grouped (v : List AdUnitPrice) (groups : List (Int × List AdUnitPrice)) : Prop where
  down : groups.Pairwise fun a b => b.1 < a.1
  units : ∀ e ∈ groups, e.2 ≠ [] ∧ ∀ u ∈ e.2, u ∈ v ∧ signed u = e.1
  whole : ∀ u ∈ v, ∃ e ∈ groups, e.1 = signed u

theorem push_keys (u : AdUnitPrice) (groups : List (Int × List AdUnitPrice)) (p : Int) :
    (∃ e ∈ pushPrice u groups, e.1 = p) ↔ p = signed u ∨ ∃ e ∈ groups, e.1 = p := by
  induction groups with
  | nil =>
    rw [pushPrice_nil, List.exists_mem_cons_iff]
    exact or_congr_left eq_comm
  | cons first groups ih =>
    obtain ⟨price, units⟩ := first
    rw [pushPrice_cons]
    split
    · next same =>
      rw [List.exists_mem_cons_iff, List.exists_mem_cons_iff]
      refine ⟨.inr, fun here => here.elim (fun new => .inl ?_) id⟩
      exact same.trans new.symm
    split
    · rw [List.exists_mem_cons_iff, List.exists_mem_cons_iff]
      exact or_congr_left eq_comm
    · rw [List.exists_mem_cons_iff, List.exists_mem_cons_iff, ih]
      exact or_left_comm

theorem push_down (u : AdUnitPrice) (down : groups.Pairwise fun a b => b.1 < a.1) :
    (pushPrice u groups).Pairwise fun a b => b.1 < a.1 := by
  induction groups with
  | nil =>
    rw [pushPrice_nil]
    exact List.pairwise_singleton _ _
  | cons first groups ih =>
    obtain ⟨price, units⟩ := first
    obtain ⟨above, down⟩ := List.pairwise_cons.mp down
    rw [pushPrice_cons]
    split
    · exact List.pairwise_cons.mpr ⟨above, down⟩
    split
    · next higher =>
      refine List.pairwise_cons.mpr ⟨fun e inside => ?_, List.pairwise_cons.mpr ⟨above, down⟩⟩
      rcases List.mem_cons.mp inside with rfl | later
      · exact higher
      · exact (above e later).trans higher
    · next differ lower =>
      refine List.pairwise_cons.mpr ⟨fun e inside => ?_, ih down⟩
      rcases (push_keys u groups e.1).mp ⟨e, inside, rfl⟩ with new | ⟨e', later, same⟩
      · rw [new]
        exact lt_of_le_of_ne (not_lt.mp lower) (Ne.symm differ)
      · rw [← same]
        exact above e' later

theorem push_units (u : AdUnitPrice)
    (units : ∀ e ∈ groups, e.2 ≠ [] ∧ ∀ u ∈ e.2, u ∈ v ∧ signed u = e.1) :
    ∀ e ∈ pushPrice u groups, e.2 ≠ [] ∧ ∀ w ∈ e.2, w ∈ v ++ [u] ∧ signed w = e.1 := by
  have old : ∀ e : Int × List AdUnitPrice, (e.2 ≠ [] ∧ ∀ u ∈ e.2, u ∈ v ∧ signed u = e.1) →
      e.2 ≠ [] ∧ ∀ w ∈ e.2, w ∈ v ++ [u] ∧ signed w = e.1 := fun e there =>
    ⟨there.1, fun w inside =>
      ⟨List.mem_append_left _ (there.2 w inside).1, (there.2 w inside).2⟩⟩
  have new : u ∈ v ++ [u] := List.mem_append_right _ List.mem_cons_self
  have alone : ∀ w ∈ [u], w ∈ v ++ [u] ∧ signed w = signed u := by
    intro w inside
    rw [List.mem_singleton.mp inside]
    exact ⟨new, rfl⟩
  induction groups with
  | nil =>
    rw [pushPrice_nil, List.forall_mem_singleton]
    exact ⟨List.cons_ne_nil _ _, alone⟩
  | cons first groups ih =>
    obtain ⟨price, held⟩ := first
    obtain ⟨here, others⟩ := List.forall_mem_cons.mp units
    rw [pushPrice_cons]
    split
    · next same =>
      refine List.forall_mem_cons.mpr ⟨⟨by simp, fun w inside => ?_⟩, fun e inside =>
        old e (others e inside)⟩
      rcases List.mem_append.mp inside with before | last
      · exact (old (price, held) here).2 w before
      · exact ⟨(alone w last).1, (alone w last).2.trans same.symm⟩
    split
    · refine List.forall_mem_cons.mpr ⟨⟨List.cons_ne_nil _ _, alone⟩, ?_⟩
      exact fun e inside => old e (units e inside)
    · exact List.forall_mem_cons.mpr ⟨old (price, held) here, ih others⟩

theorem priceGroups_grouped (v : List AdUnitPrice) : Grouped v (priceGroups v) := by
  induction v using List.reverseRecOn with
  | nil =>
    refine ⟨List.Pairwise.nil, fun e none => ?_, fun u none => ?_⟩
    · cases none
    · cases none
  | append_singleton v u ih =>
    have step : priceGroups (v ++ [u]) = pushPrice u (priceGroups v) := by
      rw [priceGroups, List.foldl_append]
      rfl
    rw [step]
    refine ⟨push_down u ih.down, push_units u ih.units, fun w inside => ?_⟩
    rw [push_keys]
    rcases List.mem_append.mp inside with old | new
    · exact .inr (ih.whole w old)
    · rw [List.mem_singleton.mp new]
      exact .inl rfl

/-- No price is beyond what an `int` holds, or all are. -/
def Mixed (v : List AdUnitPrice) : Prop :=
  (∃ u ∈ v, u.price.toNat < 2 ^ 31) ∧ ∃ u ∈ v, 2 ^ 31 ≤ u.price.toNat

theorem price_le_of_signed (pure : ¬ Mixed v) {w : AdUnitPrice} (inside : u ∈ v) (inside' : w ∈ v)
    (order : signed w ≤ signed u) : w.price ≤ u.price := by
  rw [UInt32.le_iff_toNat_le]
  rcases signed_cases u with ⟨small, value⟩ | ⟨large, value⟩
  · rcases signed_cases w with ⟨small', value'⟩ | ⟨large', value'⟩
    · omega
    · exact absurd ⟨⟨u, inside, small⟩, ⟨w, inside', large'⟩⟩ pure
  · rcases signed_cases w with ⟨small', value'⟩ | ⟨large', value'⟩
    · exact absurd ⟨⟨w, inside', small'⟩, ⟨u, inside, large⟩⟩ pure
    · omega

end Groups

section Ranks

variable {world : RankWorld} {v : List AdUnitPrice} {u u' : AdUnitPrice}

/-- How many ranks a draw is over. -/
def ranks (v : List AdUnitPrice) : Nat :=
  if v.length ≤ 3 then v.length else min 3 (priceGroups v).length

/-- The order of a rank, the `place`-th one of its price. -/
def atRank (v : List AdUnitPrice) (rank place : Nat) : Option AdUnitPrice :=
  if v.length ≤ 3 then v[rank]?
  else (priceGroups v)[rank]?.bind fun e => e.2[place % e.2.length]?

theorem strategy_eq (world : RankWorld) (two : 2 ≤ v.length) :
    adRtbRankStrategy world v = (adRtbRandWet world.pow world.weight (ranks v) world.rankDraw).bind
      fun rank => atRank v rank world.placeDraw := by
  rcases v with _ | ⟨first, _ | ⟨second, rest⟩⟩
  · exact absurd two (by decide)
  · exact absurd two (by simp)
  · change rankSeveral world (first :: second :: rest) = _
    rw [rankSeveral]
    simp only [atRank, ranks]
    split
    · rfl
    · rfl

theorem groups_ne_nil (some' : v ≠ []) : priceGroups v ≠ [] := by
  obtain ⟨u, inside⟩ := List.exists_mem_of_ne_nil v some'
  obtain ⟨e, listed, _⟩ := (priceGroups_grouped v).whole u inside
  exact List.ne_nil_of_mem listed

theorem ranks_pos (two : 2 ≤ v.length) : 0 < ranks v := by
  have some' : v ≠ [] := List.ne_nil_of_length_pos (by omega)
  have groups := List.length_pos_iff.mpr (groups_ne_nil some')
  rw [ranks]
  split <;> omega

/-- Each rank that there is has an order, and a rank by price one of that price. -/
theorem atRank_some {rank : Nat} (place : Nat) (there : rank < ranks v) :
    ∃ u ∈ v, atRank v rank place = some u ∧
      (3 < v.length → ∃ e, (priceGroups v)[rank]? = some e ∧ signed u = e.1) := by
  rw [ranks] at there
  rw [atRank]
  split at there
  · next small =>
    rw [if_pos small, List.getElem?_eq_getElem there]
    exact ⟨v[rank], List.getElem_mem there, rfl, fun large => absurd small (by omega)⟩
  · next large =>
    have place' : rank < (priceGroups v).length := by omega
    have listed := List.getElem_mem place'
    obtain ⟨some', units⟩ := (priceGroups_grouped v).units _ listed
    have inside : place % (priceGroups v)[rank].2.length < (priceGroups v)[rank].2.length :=
      Nat.mod_lt _ (List.length_pos_iff.mpr some')
    obtain ⟨among, price⟩ := units _ (List.getElem_mem inside)
    rw [if_neg large, List.getElem?_eq_getElem place', Option.bind_some,
      List.getElem?_eq_getElem inside]
    exact ⟨_, among, rfl, fun _ => ⟨_, rfl, price⟩⟩

/-- A draw may give the rank. -/
def Drawn (world : RankWorld) (v : List AdUnitPrice) (rank : Nat) : Prop :=
  ∃ draw, adRtbRandWet world.pow world.weight (ranks v) draw = some rank

def returned (world : RankWorld) (v : List AdUnitPrice) (draw place : Nat) : Option AdUnitPrice :=
  adRtbRankStrategy { world with rankDraw := draw, placeDraw := place } v

/-- Every rank that is drawn gives an order of the vector, the first rank one of the highest
price, and a higher rank none of a higher price than a lower one. -/
structure ByPrice (world : RankWorld) (v : List AdUnitPrice) : Prop where
  member : ∀ draw place rank, adRtbRandWet world.pow world.weight (ranks v) draw = some rank →
    ∃ u ∈ v, returned world v draw place = some u ∧ (rank = 0 → ∀ w ∈ v, w.price ≤ u.price)
  down : ∀ draw place draw' place' rank rank' u u',
    adRtbRandWet world.pow world.weight (ranks v) draw = some rank →
      adRtbRandWet world.pow world.weight (ranks v) draw' = some rank' → rank < rank' →
        returned world v draw place = some u → returned world v draw' place' = some u' →
          u'.price ≤ u.price

/-- Up to three orders stand in the order of their prices, as far as their ranks can be drawn;
of more orders the prices are on one side of 2^31, if the first rank can be drawn. -/
def Ordered (world : RankWorld) (v : List AdUnitPrice) : Prop :=
  if v.length ≤ 3 then
    (Drawn world v 0 → ∀ first ∈ v.head?, ∀ w ∈ v, w.price ≤ first.price) ∧
      ∀ rank rank', rank < rank' → Drawn world v rank → Drawn world v rank' →
        ∀ u ∈ v[rank]?, ∀ u' ∈ v[rank']?, u'.price ≤ u.price
  else Drawn world v 0 → ¬ Mixed v

theorem returned_eq (two : 2 ≤ v.length) {draw place rank : Nat}
    (drawn : adRtbRandWet world.pow world.weight (ranks v) draw = some rank) :
    returned world v draw place = atRank v rank place := by
  rw [returned, strategy_eq _ two]
  dsimp only
  rw [drawn, Option.bind_some]

theorem small_iff (two : 2 ≤ v.length) (small : v.length ≤ 3) :
    ByPrice world v ↔
      (Drawn world v 0 → ∀ first ∈ v.head?, ∀ w ∈ v, w.price ≤ first.price) ∧
        ∀ rank rank', rank < rank' → Drawn world v rank → Drawn world v rank' →
          ∀ u ∈ v[rank]?, ∀ u' ∈ v[rank']?, u'.price ≤ u.price := by
  have plain : ∀ rank place, atRank v rank place = v[rank]? := fun rank place => if_pos small
  constructor
  · rintro ⟨member, down⟩
    refine ⟨?_, ?_⟩
    · rintro ⟨draw, drawn⟩ first head w inside
      obtain ⟨u, _, found, highest⟩ := member draw 0 0 drawn
      rw [returned_eq two drawn, plain, ← List.head?_eq_getElem?] at found
      obtain rfl := Option.some.inj (found.symm.trans head)
      exact highest rfl w inside
    · rintro rank rank' order ⟨draw, drawn⟩ ⟨draw', drawn'⟩ u there u' there'
      refine down draw 0 draw' 0 rank rank' u u' drawn drawn' order ?_ ?_
      · rw [returned_eq two drawn, plain]
        exact there
      · rw [returned_eq two drawn', plain]
        exact there'
  · rintro ⟨highest, down⟩
    constructor
    · intro draw place rank drawn
      obtain ⟨u, inside, found, _⟩ := atRank_some place (rand_lt (ranks_pos two) drawn)
      refine ⟨u, inside, (returned_eq two drawn).trans found, ?_⟩
      rintro rfl w listed
      rw [plain, ← List.head?_eq_getElem?] at found
      exact highest ⟨draw, drawn⟩ u found w listed
    · intro draw place draw' place' rank rank' u u' drawn drawn' order found found'
      rw [returned_eq two drawn, plain] at found
      rw [returned_eq two drawn', plain] at found'
      exact down rank rank' order ⟨draw, drawn⟩ ⟨draw', drawn'⟩ u found u' found'

/-- The groups go down. -/
theorem groups_down {rank rank' : Nat} {e e' : Int × List AdUnitPrice} (order : rank < rank')
    (there : (priceGroups v)[rank]? = some e) (there' : (priceGroups v)[rank']? = some e') :
    e'.1 < e.1 := by
  obtain ⟨inside, rfl⟩ := List.getElem?_eq_some_iff.mp there
  obtain ⟨inside', rfl⟩ := List.getElem?_eq_some_iff.mp there'
  exact List.pairwise_iff_getElem.mp (priceGroups_grouped v).down rank rank' inside inside' order

theorem first_highest {e : Int × List AdUnitPrice} (there : (priceGroups v)[0]? = some e)
    {w : AdUnitPrice} (inside : w ∈ v) : signed w ≤ e.1 := by
  obtain ⟨e', listed, same⟩ := (priceGroups_grouped v).whole w inside
  obtain ⟨rank, there'⟩ := List.mem_iff_getElem?.mp listed
  rw [← same]
  rcases Nat.eq_zero_or_pos rank with rfl | later
  · rw [Option.some.inj (there.symm.trans there')]
  · exact (groups_down later there there').le

theorem large_iff (powers : Powers world.pow) (large : 3 < v.length) :
    ByPrice world v ↔ (Drawn world v 0 → ¬ Mixed v) := by
  have two : 2 ≤ v.length := by omega
  constructor
  · rintro ⟨member, _⟩ ⟨draw, drawn⟩ ⟨⟨cheap, listed, small⟩, dear, listed', beyond⟩
    -- the first group has a price below 2^31, and `dear` a higher one
    obtain ⟨u, inside, found, highest⟩ := member draw 0 0 drawn
    obtain ⟨u', _, found', group⟩ := atRank_some 0 (rand_lt (ranks_pos two) drawn)
    rw [returned_eq two drawn] at found
    obtain rfl := Option.some.inj (found.symm.trans found')
    obtain ⟨e, there, price⟩ := group large
    have first := first_highest there listed
    have below := highest rfl dear listed'
    rw [UInt32.le_iff_toNat_le] at below
    rcases signed_cases u with ⟨_, value⟩ | ⟨_, value⟩
    · omega
    · rcases signed_cases cheap with ⟨_, value'⟩ | ⟨_, _⟩
      · have upper := u.price.toNat_lt
        omega
      · omega
  · intro pure
    constructor
    · intro draw place rank drawn
      obtain ⟨u, inside, found, group⟩ := atRank_some place (rand_lt (ranks_pos two) drawn)
      refine ⟨u, inside, (returned_eq two drawn).trans found, ?_⟩
      rintro rfl w listed
      obtain ⟨e, there, price⟩ := group large
      refine price_le_of_signed (pure ⟨draw, drawn⟩) inside listed ?_
      rw [price]
      exact first_highest there listed
    · intro draw place draw' place' rank rank' u u' drawn drawn' order found found'
      have several : ranks v = 2 ∨ ranks v = 3 := by
        have last := rand_lt (ranks_pos two) drawn'
        have bound : ranks v ≤ 3 := by
          rw [ranks]
          split <;> omega
        omega
      have first := first_drawn powers several drawn drawn' (Nat.ne_of_lt order)
      obtain ⟨w, inside, at', group⟩ := atRank_some place (rand_lt (ranks_pos two) drawn)
      obtain ⟨w', inside', at'', group'⟩ := atRank_some place' (rand_lt (ranks_pos two) drawn')
      rw [returned_eq two drawn] at found
      rw [returned_eq two drawn'] at found'
      obtain rfl := Option.some.inj (found.symm.trans at')
      obtain rfl := Option.some.inj (found'.symm.trans at'')
      obtain ⟨e, there, price⟩ := group large
      obtain ⟨e', there', price'⟩ := group' large
      refine price_le_of_signed (pure first) inside inside' ?_
      rw [price, price']
      exact (groups_down order there there').le

/-- Ranks go by the price exactly when few orders stand in that order, and many have prices of
one side. -/
theorem byPrice_iff (world : RankWorld) (powers : Powers world.pow) (v : List AdUnitPrice)
    (two : 2 ≤ v.length) :
    ByPrice world v ↔ Ordered world v := by
  rw [Ordered]
  split
  · next small => exact small_iff two small
  · next large => exact large_iff powers (Nat.not_le.mp large)

def half : Single := ⟨1 / 2, ⟨1, -1, by norm_num, by decide, by decide⟩, by decide +kernel⟩

/-- A power function that rounds nothing. -/
def exactPow (x : Single) (rank : Nat) : Option Rat := some (x.value ^ rank)

theorem exactPow_powers : Powers exactPow where
  zero x := by rw [exactPow, pow_zero]
  nonneg x rank power nonneg raised := by
    rw [← Option.some.inj raised]
    exact pow_nonneg nonneg rank
  le_one x rank power nonneg most raised := by
    rw [← Option.some.inj raised]
    exact pow_le_one₀ nonneg most

def evenWorld : RankWorld := ⟨some half, exactPow, fun _ => ∅, fun _ => 0, 0, 0⟩

theorem dearFirst_byPrice_iff :
    ByPrice evenWorld [⟨1, 1, adOrderCpm, 30⟩, ⟨2, 2, adOrderCpm, 20⟩] ↔
      Ordered evenWorld [⟨1, 1, adOrderCpm, 30⟩, ⟨2, 2, adOrderCpm, 20⟩] :=
  byPrice_iff evenWorld exactPow_powers [⟨1, 1, adOrderCpm, 30⟩, ⟨2, 2, adOrderCpm, 20⟩]
    (by decide)

/-- Of two orders the one that stands first is the favourite, however cheap it is. -/
theorem cheapFirst_favoured : ¬ ∀ (v : List AdUnitPrice), 2 ≤ v.length → ByPrice evenWorld v := by
  intro all
  have byPrice := all [⟨1, 1, adOrderCpm, 20⟩, ⟨2, 2, adOrderCpm, 30⟩] (by decide)
  have drawn : adRtbRandWet evenWorld.pow evenWorld.weight
      (ranks [⟨1, 1, adOrderCpm, 20⟩, ⟨2, 2, adOrderCpm, 30⟩]) 0 = some 0 := by decide +kernel
  obtain ⟨u, _, found, highest⟩ := byPrice.member 0 0 0 drawn
  have first : returned evenWorld [⟨1, 1, adOrderCpm, 20⟩, ⟨2, 2, adOrderCpm, 30⟩] 0 0 =
      some ⟨1, 1, adOrderCpm, 20⟩ := (returned_eq (by decide) drawn).trans rfl
  obtain rfl := Option.some.inj (found.symm.trans first)
  exact absurd (highest rfl ⟨2, 2, adOrderCpm, 30⟩ (.tail _ (.head _))) (by decide)

end Ranks

end PriceRanks
