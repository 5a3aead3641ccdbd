import Mathlib.Algebra.Order.Ring.GeomSum
import RtbAdapter.PriceRanks

/-!
# The table of the weighted draw

A table of a hundred slots is filled rank by rank, each from where the one before it
ended; the last rank takes what is left. The shares of a weight are a geometric
series, and as the products are rounded a share may be one slot off. The table has
room for that.
-/

namespace WeightedDraw

open FloatFormat DealRank PriceRanks

/-- The loop over the ranks for given shares. -/
def fillStep (num : Nat) (slots : Nat → Int) (state : List Nat × Int) (rank : Nat) :
    Option (List Nat × Int) :=
  if rank + 1 < num then do
    let choice ← setChoice rank state.2 (slots rank + state.2) state.1
    return (choice, state.2 + slots rank)
  else do
    let choice ← setChoice rank state.2 choiceSize state.1
    return (choice, state.2)

def fillTable (num : Nat) (slots : Nat → Int) : Option (List Nat) := do
  return (← (List.range num).foldlM (fillStep num slots) (List.replicate choiceSize 0, 0)).1

theorem choiceTable_eq {pow : Single → Nat → Option Rat} {wt : Option Single} {num : Nat}
    {slots : Nat → Int} (known : ∀ rank, rank + 1 < num → chnum pow wt rank = some (slots rank)) :
    choiceTable pow wt num = fillTable num slots := by
  have step : choiceStep pow wt num = fillStep num slots := by
    funext state rank
    rw [choiceStep, fillStep]
    split
    · next more => rw [known rank more, Option.bind_eq_bind, Option.bind_some]
    · rfl
  rw [choiceTable, fillTable, step]

/-- Each rank below the last one with its share, one after the other. -/
def filled (slots : Nat → Nat) (ranks : Nat) : List Nat :=
  (List.range ranks).flatMap fun rank => List.replicate (slots rank) rank

/-- The slots that the first ranks take. -/
def taken (slots : Nat → Nat) (ranks : Nat) : Nat := ∑ rank ∈ Finset.range ranks, slots rank

/-- A table where every rank but the last has its share, and the last one has the rest. -/
structure Shared (num : Nat) (slots : Nat → Nat) (choice : List Nat) : Prop where
  size : choice.length = choiceSize
  below : ∀ rank ∈ choice, rank < num
  share : ∀ rank, rank + 1 < num → choice.count rank = slots rank
  rest : choice.count (num - 1) + taken slots (num - 1) = choiceSize

variable {slots : Nat → Nat} {num rank : Nat}

theorem filled_succ (slots : Nat → Nat) (ranks : Nat) :
    filled slots (ranks + 1) = filled slots ranks ++ List.replicate (slots ranks) ranks := by
  rw [filled, filled, List.range_succ, List.flatMap_append, List.flatMap_singleton]

theorem taken_succ (slots : Nat → Nat) (ranks : Nat) :
    taken slots (ranks + 1) = taken slots ranks + slots ranks := Finset.sum_range_succ ..

theorem filled_length (slots : Nat → Nat) (ranks : Nat) :
    (filled slots ranks).length = taken slots ranks := by
  induction ranks with
  | zero => rfl
  | succ ranks ih =>
    rw [filled_succ, List.length_append, List.length_replicate, ih, taken_succ]

theorem filled_below {ranks : Nat} (inside : rank ∈ filled slots ranks) : rank < ranks := by
  obtain ⟨r, listed, among⟩ := List.mem_flatMap.mp inside
  rw [List.eq_of_mem_replicate among]
  exact List.mem_range.mp listed

theorem filled_count {ranks : Nat} (below : rank < ranks) :
    (filled slots ranks).count rank = slots rank := by
  induction ranks with
  | zero => omega
  | succ ranks ih =>
    rw [filled_succ, List.count_append, List.count_replicate]
    by_cases last : rank = ranks
    · subst last
      have away : rank ∉ filled slots rank := fun inside =>
        Nat.lt_irrefl _ (filled_below inside)
      rw [List.count_eq_zero.mpr away, if_pos (beq_self_eq_true rank), Nat.zero_add]
    · rw [ih (by omega), if_neg (by simpa using Ne.symm last), Nat.add_zero]

theorem taken_mono {few many : Nat} (fewer : few ≤ many) : taken slots few ≤ taken slots many :=
  Finset.sum_le_sum_of_subset (Finset.range_subset_range.mpr fewer)

/-- A rank is written behind what is there, over slots that still hold their zeros. -/
theorem setChoice_behind (rank : Nat) (front : List Nat) {share free : Nat} (room : share ≤ free) :
    setChoice rank front.length (share + front.length : Nat)
        (front ++ List.replicate free 0) =
      some (front ++ List.replicate share rank ++ List.replicate (free - share) 0) := by
  rw [setChoice]
  by_cases none : share = 0
  · subst none
    rw [if_pos (by omega)]
    simp
  · rw [if_neg (by omega), if_pos (by simp; omega), Option.some.injEq]
    refine List.ext_getElem? fun j => ?_
    rw [List.getElem?_mapIdx, List.append_assoc]
    by_cases before : j < front.length
    · rw [List.getElem?_append_left before, List.getElem?_append_left before]
      have out : ¬ ((front.length : Int) ≤ j ∧ (j : Int) < (share + front.length : Nat)) := by omega
      simp only [if_neg out, Option.map_id']
    · rw [List.getElem?_append_right (by omega), List.getElem?_append_right (by omega),
        List.getElem?_append, List.getElem?_replicate, List.getElem?_replicate,
        List.getElem?_replicate, List.length_replicate]
      by_cases own : j - front.length < share
      · have within : (front.length : Int) ≤ j ∧ (j : Int) < (share + front.length : Nat) := by
          omega
        rw [if_pos (by omega), if_pos own, if_pos own, Option.map_some, if_pos within]
      · have out : ¬ ((front.length : Int) ≤ j ∧ (j : Int) < (share + front.length : Nat)) := by
          omega
        rw [if_neg own]
        by_cases below : j - front.length < free
        · rw [if_pos below, if_pos (by omega), Option.map_some, if_neg out]
        · rw [if_neg below, if_neg (by omega), Option.map_none]

/-- The state of the loop before a rank. -/
def before (slots : Nat → Nat) (ranks : Nat) : List Nat × Int :=
  (filled slots ranks ++ List.replicate (choiceSize - taken slots ranks) 0, taken slots ranks)

theorem fillStep_inner (more : rank + 1 < num) (fits : taken slots (rank + 1) ≤ choiceSize) :
    fillStep num (fun r => slots r) (before slots rank) rank = some (before slots (rank + 1)) := by
  rw [taken_succ] at fits
  have set := setChoice_behind rank (filled slots rank)
    (show slots rank ≤ choiceSize - taken slots rank by omega)
  have left : choiceSize - taken slots rank - slots rank =
      choiceSize - (taken slots rank + slots rank) := by omega
  rw [filled_length, left, ← filled_succ, ← taken_succ] at set
  rw [fillStep, if_pos more, before]
  push_cast at set
  rw [set, Option.bind_eq_bind, Option.bind_some, before, taken_succ]
  push_cast
  rfl

/-- Shares that fit fill the table as they should. -/
theorem fillTable_shared {last : Nat} (fits : taken slots last ≤ choiceSize) :
    ∃ choice, fillTable (last + 1) (fun rank => slots rank) = some choice ∧
      Shared (last + 1) slots choice := by
  have inner : ∀ ranks, ranks ≤ last → (List.range ranks).foldlM
      (fillStep (last + 1) fun rank => slots rank) (List.replicate choiceSize 0, 0) =
        some (before slots ranks) := by
    intro ranks below
    induction ranks with
    | zero => rfl
    | succ ranks ih =>
      have step : fillStep (last + 1) (fun rank => slots rank) (before slots ranks) ranks =
          some (before slots (ranks + 1)) :=
        fillStep_inner (by omega) ((taken_mono below).trans fits)
      rw [List.range_succ, List.foldlM_append, ih (by omega)]
      change (fillStep _ _ (before slots ranks) ranks).bind some = _
      rw [step]
      rfl
  have set := setChoice_behind last (filled slots last)
    (Nat.le_refl (choiceSize - taken slots last))
  rw [filled_length, Nat.sub_self, List.replicate_zero, List.append_nil,
    Nat.sub_add_cancel fits] at set
  refine ⟨filled slots last ++ List.replicate (choiceSize - taken slots last) last, ?_, ?_⟩
  · rw [fillTable, List.range_succ, List.foldlM_append, inner last (Nat.le_refl last)]
    change ((fillStep _ _ (before slots last) last).bind some).bind _ = _
    rw [fillStep, if_neg (Nat.lt_irrefl _), before, set]
    rfl
  · have away : last ∉ filled slots last := fun inside => Nat.lt_irrefl _ (filled_below inside)
    constructor
    · rw [List.length_append, filled_length, List.length_replicate]
      omega
    · intro rank inside
      rcases List.mem_append.mp inside with early | late
      · exact Nat.lt_succ_of_lt (filled_below early)
      · rw [List.eq_of_mem_replicate late]
        exact Nat.lt_succ_self last
    · intro rank earlier
      have below : rank < last := by omega
      rw [List.count_append, filled_count below, List.count_replicate,
        if_neg (by simpa using (Nat.ne_of_lt below).symm), Nat.add_zero]
    · rw [Nat.add_sub_cancel, List.count_append, List.count_eq_zero.mpr away,
        List.count_replicate_self]
      omega

/-- Shares a little above those of a weight still fit: a table of whole numbers has room for any
error of less than one slot in a hundred. -/
theorem taken_fits {wt err : Rat} {ranks : Nat} (within : wt ≤ 1) (above : 0 ≤ err)
    (small : err < 1 / 100)
    (close : ∀ rank < ranks, (slots rank : Rat) ≤ (1 + err) * (100 * wt * (1 - wt) ^ rank)) :
    taken slots ranks ≤ choiceSize := by
  have series : ∀ few ≤ ranks,
      (taken slots few : Rat) ≤ (1 + err) * (100 * (1 - (1 - wt) ^ few)) := by
    intro few
    induction few with
    | zero => simp [taken]
    | succ few ih =>
      intro fewer
      calc (taken slots (few + 1) : Rat)
          = taken slots few + slots few := by rw [taken_succ]; push_cast; rfl
        _ ≤ (1 + err) * (100 * (1 - (1 - wt) ^ few)) +
            (1 + err) * (100 * wt * (1 - wt) ^ few) :=
          add_le_add (ih (by omega)) (close few fewer)
        _ = (1 + err) * (100 * (1 - (1 - wt) ^ (few + 1))) := by ring
  have rest : 0 ≤ (1 - wt) ^ ranks := pow_nonneg (by linarith) ranks
  have most : (1 + err) * (100 * (1 - (1 - wt) ^ ranks)) ≤ (1 + err) * 100 :=
    mul_le_mul_of_nonneg_left (by linarith) (by linarith)
  have whole : (taken slots ranks : Rat) < 101 := by linarith [series ranks le_rfl]
  have bound : taken slots ranks < 101 := by exact_mod_cast whole
  exact Nat.le_of_lt_succ bound

/-- The powers of a number from zero to one are off by at most a hundred-thousandth. -/
def Near (pow : Single → Nat → Option Rat) : Prop :=
  ∀ x : Single, 0 ≤ x.value → x.value ≤ 1 → ∀ rank ≤ 98, ∃ power, pow x rank = some power ∧
    0 ≤ power ∧ |power - x.value ^ rank| ≤ 1 / 10 ^ 5

def one : Single := ⟨1, exact_one, by decide +kernel⟩

def two : Single := ⟨2, ⟨1, 1, by norm_num, by decide, by decide⟩, by decide +kernel⟩

def twoHundred : Single := ⟨200, ⟨200, 0, by norm_num, by decide, by decide⟩, by decide +kernel⟩

/-- An operation whose result is not below zero, up to a number that is there. -/
theorem round_near {x : Rat} {b : Single} (nonneg : 0 ≤ x) (below : x ≤ b.value) :
    ∃ n, binary32.round x = some n ∧ 0 ≤ n.value ∧ n.value ≤ b.value ∧
      |n.value - x| ≤ x / 10 ^ 7 + 1 / 10 ^ 9 := by
  obtain ⟨n, rounded, value, positive, upper⟩ := round_le nonneg below
  refine ⟨n, rounded, positive, upper, ?_⟩
  have digit : x / 2 ^ 24 ≤ x / 10 ^ 7 :=
    div_le_div_of_nonneg_left nonneg (by norm_num) (by norm_num)
  have least : (2 : Rat) ^ (-149 : Int) / 2 ≤ 1 / 10 ^ 9 := by norm_num
  rw [value]
  exact (nearest_error binary32 nonneg).trans (add_le_add digit least)

theorem pow_near {a b : Rat} (nonneg : 0 ≤ a) (within : a ≤ 1) (nonneg' : 0 ≤ b)
    (within' : b ≤ 1) (n : Nat) : |a ^ n - b ^ n| ≤ |a - b| * n := by
  have most : max |a| |b| ^ (n - 1) ≤ 1 := by
    rw [abs_of_nonneg nonneg, abs_of_nonneg nonneg']
    exact pow_le_one₀ (le_max_of_le_left nonneg) (max_le within within')
  exact (abs_pow_sub_pow_le ..).trans (mul_le_of_le_one_right (by positivity) most)

theorem floatInt_floor {x : Single} (nonneg : 0 ≤ x.value) (most : x.value ≤ 200) :
    floatInt x = some ⌊x.value⌋ := by
  have whole : x.value.num.tdiv x.value.den = ⌊x.value⌋ :=
    (Int.floor_eq_iff.mpr (trunc_nonneg nonneg)).symm
  have lower : 0 ≤ ⌊x.value⌋ := Int.floor_nonneg.mpr nonneg
  have upper : ⌊x.value⌋ ≤ 200 := by
    have below : (⌊x.value⌋ : Rat) ≤ 200 := (Int.floor_le _).trans most
    exact_mod_cast below
  rw [floatInt, whole, if_pos (by omega)]

variable {pow : Single → Nat → Option Rat} {weight : Single}

/-- The error of the base ninety-eight times. -/
theorem base_near {left : Single} (nonneg : 0 ≤ weight.value) (within : weight.value ≤ 1)
    (lower : 0 ≤ left.value) (upper : left.value ≤ 1) (low : rank ≤ 98)
    (off : |left.value - (1 - weight.value)| ≤ (1 - weight.value) / 10 ^ 7 + 1 / 10 ^ 9) :
    |left.value ^ rank - (1 - weight.value) ^ rank| ≤ 1 / 10 ^ 5 := by
  have ranks : (rank : Rat) ≤ 98 := by exact_mod_cast low
  calc |left.value ^ rank - (1 - weight.value) ^ rank|
      ≤ |left.value - (1 - weight.value)| * rank :=
        pow_near lower upper (by linarith) (by linarith) rank
    _ ≤ (1 / 10 ^ 7 + 1 / 10 ^ 9) * 98 := by
        refine mul_le_mul (off.trans ?_) ranks (Nat.cast_nonneg rank) (by norm_num)
        linarith
    _ ≤ 1 / 10 ^ 5 := by norm_num

/-- A share is less than a hundredth of a slot away from that of the weight itself. -/
theorem chnum_near (near : Near pow) (nonneg : 0 ≤ weight.value) (within : weight.value ≤ 1)
    (low : rank ≤ 98) :
    ∃ share : Rat, chnum pow (some weight) rank = some ⌊share⌋ ∧ 0 ≤ share ∧
      |share - 100 * weight.value * (1 - weight.value) ^ rank| ≤ 1 / 200 := by
  have left_nonneg : 0 ≤ 1 - weight.value := by linarith
  have left_le : 1 - weight.value ≤ 1 := by linarith
  obtain ⟨left, rounded, lower, upper, off⟩ := round_near (b := one) left_nonneg left_le
  obtain ⟨power, raised, positive, off'⟩ := near left lower upper rank low
  have base := base_near nonneg within lower upper low off
  have exact_le : (1 - weight.value) ^ rank ≤ 1 := pow_le_one₀ left_nonneg left_le
  obtain ⟨baseLower, baseUpper⟩ := abs_le.mp base
  obtain ⟨powLower, powUpper⟩ := abs_le.mp off'
  have power_le : power ≤ 2 := by linarith
  obtain ⟨power', rounded', lower', upper', offPower⟩ := round_near (b := two) positive power_le
  obtain ⟨floatLower, floatUpper⟩ := abs_le.mp offPower
  have product_le : power'.value * weight.value ≤ 2 :=
    (mul_le_of_le_one_right lower' within).trans upper'
  obtain ⟨part, rounded'', lower'', upper'', offPart⟩ :=
    round_near (b := two) (mul_nonneg lower' nonneg) product_le
  have part_le : part.value ≤ 2 := upper''
  obtain ⟨partLower, partUpper⟩ := abs_le.mp offPart
  obtain ⟨share, last, shareNonneg, share_le, offShare⟩ :=
    round_near (b := twoHundred) (x := part.value * 100) (by linarith)
      (show part.value * 100 ≤ 200 by linarith)
  obtain ⟨shareLower, shareUpper⟩ := abs_le.mp offShare
  have drift : |power'.value - (1 - weight.value) ^ rank| ≤ 21 / 10 ^ 6 :=
    abs_le.mpr ⟨by linarith, by linarith⟩
  have product : |power'.value * weight.value - weight.value * (1 - weight.value) ^ rank| ≤
      21 / 10 ^ 6 := by
    rw [mul_comm power'.value, ← mul_sub, abs_mul, abs_of_nonneg nonneg]
    exact (mul_le_of_le_one_left (abs_nonneg _) within).trans drift
  obtain ⟨productLower, productUpper⟩ := abs_le.mp product
  refine ⟨share.value, ?_, shareNonneg, abs_le.mpr ⟨by linarith, by linarith⟩⟩
  simp only [chnum, Option.bind_eq_bind, Option.bind_some, rounded, raised, rounded', rounded'',
    last]
  exact floatInt_floor shareNonneg share_le

/-- A slot of a table that is full is drawn. -/
theorem draw_below {wt : Option Single} {choice : List Nat} (several : 2 ≤ num)
    (table : choiceTable pow wt num = some choice) (shared : Shared num slots choice)
    (draw : Nat) : ∃ rank, adRtbRandWet pow wt num draw = some rank ∧ rank < num := by
  have inside : draw % choiceSize < choice.length := by
    rw [shared.size]
    exact Nat.mod_lt _ (by decide)
  have drawn : choice[draw % choiceSize]? = some choice[draw % choiceSize] :=
    List.getElem?_eq_getElem inside
  refine ⟨choice[draw % choiceSize], ?_, shared.below _ (List.getElem_mem inside)⟩
  rw [adRtbRandWet, if_neg (by omega), table]
  exact drawn

/-- The integers below two shares that are close are at most one apart. -/
theorem floor_near {a b : Rat} (close : |a - b| ≤ 1 / 200) : |⌊a⌋ - ⌊b⌋| ≤ 1 := by
  obtain ⟨lower, upper⟩ := abs_le.mp close
  have below : (⌊a⌋ : Rat) < (⌊b⌋ + 2 : Int) := by
    push_cast
    linarith [Int.floor_le a, Int.lt_floor_add_one b]
  have above : (⌊b⌋ : Rat) < (⌊a⌋ + 2 : Int) := by
    push_cast
    linarith [Int.floor_le b, Int.lt_floor_add_one a]
  have below' : ⌊a⌋ < ⌊b⌋ + 2 := by exact_mod_cast below
  have above' : ⌊b⌋ < ⌊a⌋ + 2 := by exact_mod_cast above
  exact abs_le.mpr ⟨by omega, by omega⟩

/-- The slots of one rank: at most one off, and hardly more than the weight gives it. -/
theorem slots_near (near : Near pow) (nonneg : 0 ≤ weight.value) (within : weight.value ≤ 1)
    (low : rank ≤ 98) :
    ∃ count : Nat, chnum pow (some weight) rank = some (count : Int) ∧
      |(count : Int) - ⌊100 * weight.value * (1 - weight.value) ^ rank⌋| ≤ 1 ∧
        (count : Rat) ≤ (1 + 1 / 150) * (100 * weight.value * (1 - weight.value) ^ rank) := by
  obtain ⟨share, got, positive, close⟩ := chnum_near near nonneg within low
  obtain ⟨count, whole⟩ := Int.eq_ofNat_of_zero_le (Int.floor_nonneg.mpr positive)
  refine ⟨count, by rw [got, whole], ?_, ?_⟩
  · rw [← whole]
    exact floor_near close
  · have exact_nonneg : 0 ≤ 100 * weight.value * (1 - weight.value) ^ rank :=
      mul_nonneg (by linarith) (pow_nonneg (by linarith) rank)
    have below : (count : Rat) ≤ share := by
      have floor := Int.floor_le share
      rw [whole] at floor
      exact_mod_cast floor
    -- a share below one has no slot, and on a larger one the error is small
    rcases Nat.eq_zero_or_pos count with rfl | some'
    · rw [Nat.cast_zero]
      exact mul_nonneg (by norm_num) exact_nonneg
    · have least : (1 : Rat) ≤ count := by exact_mod_cast some'
      linarith [(abs_le.mp close).2]

/-- The table of a weight from zero to one is filled with the shares that `chnum` gives. -/
theorem weight_shared (near : Near pow) (nonneg : 0 ≤ weight.value) (within : weight.value ≤ 1)
    (several : 2 ≤ num) (most : num ≤ 100) :
    ∃ choice slots, choiceTable pow (some weight) num = some choice ∧ Shared num slots choice ∧
      ∀ rank, rank + 1 < num → chnum pow (some weight) rank = some (slots rank : Int) ∧
        |(slots rank : Int) - ⌊100 * weight.value * (1 - weight.value) ^ rank⌋| ≤ 1 := by
  obtain ⟨last, rfl⟩ := Nat.exists_eq_add_of_le' (show 1 ≤ num by omega)
  have known : ∀ rank, ∃ count : Nat, rank ≤ 98 →
      chnum pow (some weight) rank = some (count : Int) ∧
        |(count : Int) - ⌊100 * weight.value * (1 - weight.value) ^ rank⌋| ≤ 1 ∧
          (count : Rat) ≤ (1 + 1 / 150) * (100 * weight.value * (1 - weight.value) ^ rank) := by
    intro rank
    by_cases low : rank ≤ 98
    · obtain ⟨count, known⟩ := slots_near near nonneg within low
      exact ⟨count, fun _ => known⟩
    · exact ⟨0, fun low' => absurd low' low⟩
  choose slots known using known
  have few : ∀ rank, rank + 1 < last + 1 → rank ≤ 98 := fun rank more => by omega
  obtain ⟨choice, table, shared⟩ : ∃ choice, fillTable (last + 1)
      (fun rank => (slots rank : Int)) = some choice ∧ Shared (last + 1) slots choice := by
    refine fillTable_shared (taken_fits within (show (0 : Rat) ≤ 1 / 150 by norm_num)
      (by norm_num) fun rank below => ?_)
    exact (known rank (by omega)).2.2
  rw [← choiceTable_eq fun rank more => (known rank (few rank more)).1] at table
  exact ⟨choice, slots, table, shared, fun rank more =>
    ⟨(known rank (few rank more)).1, (known rank (few rank more)).2.1⟩⟩

/-- With a weight from zero to one every rank but the last has the whole slots of its share of
the hundred, as floats multiply it, which is at most one off; the last one has the rest, and
whatever is drawn is a rank. -/
theorem draw_table (pow : Single → Nat → Option Rat) (near : Near pow) (weight : Single)
    (nonneg : 0 ≤ weight.value) (within : weight.value ≤ 1) (num : Nat) (several : 2 ≤ num)
    (most : num ≤ 100) :
    ∃ choice, choiceTable pow (some weight) num = some choice ∧ choice.length = 100 ∧
      (∀ rank ∈ choice, rank < num) ∧
      (∀ rank, rank + 1 < num →
        chnum pow (some weight) rank = some (choice.count rank : Int) ∧
        |(choice.count rank : Int) - ⌊100 * weight.value * (1 - weight.value) ^ rank⌋| ≤ 1) ∧
      choice.count (num - 1) + ∑ rank ∈ Finset.range (num - 1), choice.count rank = 100 ∧
      ∀ draw, ∃ rank, adRtbRandWet pow (some weight) num draw = some rank ∧ rank < num := by
  obtain ⟨choice, slots, table, shared, known⟩ := weight_shared near nonneg within several most
  refine ⟨choice, table, shared.size, shared.below, fun rank more => ?_, ?_,
    draw_below several table shared⟩
  · rw [shared.share rank more]
    exact known rank more
  · have rest := shared.rest
    have sum : taken slots (num - 1) = ∑ rank ∈ Finset.range (num - 1), choice.count rank :=
      Finset.sum_congr rfl fun rank below =>
        (shared.share rank (by have := Finset.mem_range.mp below; omega)).symm
    rwa [sum] at rest

theorem exactPow_near : Near exactPow := fun x nonneg _ rank _ =>
  ⟨x.value ^ rank, rfl, pow_nonneg nonneg rank, by norm_num⟩

/-- Half the slots, a quarter, and the rest. -/
theorem draw_table_half :
    ∃ choice, choiceTable exactPow (some half) 3 = some choice ∧ choice.length = 100 ∧
      (∀ rank ∈ choice, rank < 3) ∧
      (∀ rank, rank + 1 < 3 →
        chnum exactPow (some half) rank = some (choice.count rank : Int) ∧
        |(choice.count rank : Int) - ⌊100 * half.value * (1 - half.value) ^ rank⌋| ≤ 1) ∧
      choice.count (3 - 1) + ∑ rank ∈ Finset.range (3 - 1), choice.count rank = 100 ∧
      ∀ draw, ∃ rank, adRtbRandWet exactPow (some half) 3 draw = some rank ∧ rank < 3 :=
  draw_table exactPow exactPow_near half (by decide +kernel) (by decide +kernel) 3 (by decide)
    (by decide)

/-- The float that is nearest to fifty-seven hundredths. -/
def littleLess : Single :=
  ⟨9563013 / 2 ^ 24, ⟨9563013, -24, by norm_num, by decide, by decide⟩, by decide +kernel⟩

/-- A hundred times a weight a little below fifty-seven hundredths is rounded up to a whole
number. -/
theorem share_rounded_up : ¬ ∀ pow : Single → Nat → Option Rat, Near pow → ∀ weight : Single,
    0 ≤ weight.value → weight.value ≤ 1 → ∀ num, 2 ≤ num → num ≤ 100 →
      ∃ choice, choiceTable pow (some weight) num = some choice ∧ choice.length = 100 ∧
        (∀ rank ∈ choice, rank < num) ∧
        (∀ rank, rank + 1 < num →
          (choice.count rank : Int) = ⌊100 * weight.value * (1 - weight.value) ^ rank⌋) ∧
        choice.count (num - 1) + ∑ rank ∈ Finset.range (num - 1), choice.count rank = 100 := by
  intro all
  obtain ⟨choice, table, -, -, exact, -⟩ := all exactPow exactPow_near littleLess
    (by decide +kernel) (by decide +kernel) 2 le_rfl (by decide)
  have slots : (choiceTable exactPow (some littleLess) 2).map (·.count 0) = some 57 := by
    decide +kernel
  have floor : ⌊100 * littleLess.value * (1 - littleLess.value) ^ 0⌋ = 56 := by decide +kernel
  have count : choice.count 0 = 57 := by
    rw [table] at slots
    exact Option.some.inj slots
  have same := exact 0 (by decide)
  rw [count, floor] at same
  exact absurd same (by decide)

end WeightedDraw
