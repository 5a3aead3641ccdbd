import RtbAdapter.WeightedDraw

/-!
# Whether a choice keeps to the price rules

Each candidate has a price, and it qualifies when the price is above the request's minimum;
two exchanges take videos at any price. The choice looks at the minimum for all candidates
but those of a VIP.
-/

namespace PriceRules

open ByteWords CText PlanningUnit PlanningData RtbBase FilterTables DealRank PriceRanks
  FloatFormat WeightedDraw

section Rules

variable (unit : Nat → AdPlanningUnit) (world : RankWorld) (r : AdRtbRequest)

/-- What a candidate is to be bid with: a VIP has a fixed price, and the price of an order for
the place of the request goes before its target price and the price of the click model. -/
def offer (entry : Nat × AdRtbFilterResult) : UInt32 :=
  let u := unit entry.1
  if entry.2.vip then adVipPrice
  else match adRtbAdvanceStrategy world r u with
    | some price => price
    | none =>
      if u.order.targetPriceType = adOrderCpm then u.order.targetPrice
      else if u.order.targetPriceType = adOrderCpc then world.ctrModel entry.1
      else 0

def minPrice : UInt32 := atoiUInt (cStr (r.text .minPrice))

/-- A video for one of the two exchanges. -/
def Exempt : Prop :=
  atoi (cStr (r.text .flow)) = adProtocolFlowVideo.toNat ∧
    (r.adx = adProtocolKeyAdxYuku ∨ r.adx = adProtocolKeyAdxMiaozhen)

/-- A price that may be bid. -/
def Confirmed (price : UInt32) : Prop := Exempt r ∨ 0 < price ∧ minPrice r < price

/-- A choice is made when a candidate qualifies, and is one of the candidates at its price. -/
structure Rules (result : AdResult) (choice : Option AdUnitPrice) : Prop where
  success : choice.isSome ↔ ∃ entry ∈ result, Confirmed r (offer unit world r entry)
  priced : ∀ picked ∈ choice, Confirmed r picked.price ∧ ∃ entry ∈ result,
    picked.planningData = entry.1 ∧ picked.price = offer unit world r entry

/-- The candidates that are ranked when there is no VIP. -/
def ranked (result : AdResult) : List AdUnitPrice :=
  (result.map fun entry => unitPriceOf unit world r entry.1).filter (priceConfirmed r)

def isVip (entry : Nat × AdRtbFilterResult) : Bool := entry.2.vip

/-- The loop ends at the first VIP, and ranks what is confirmed when there is none. -/
theorem rankChoiceFrom_eq (rankVec : List AdUnitPrice) (result : AdResult) :
    rankChoiceFrom unit world r rankVec result =
      match result.find? isVip with
      | some entry => some ⟨entry.1, (unit entry.1).order.executeId,
          (unit entry.1).order.targetPriceType, adVipPrice⟩
      | none => adRtbRankStrategy world (rankVec ++ ranked unit world r result) := by
  induction result generalizing rankVec with
  | nil =>
    rw [ranked, List.map_nil, List.filter_nil, List.append_nil]
    rfl
  | cons entry result ih =>
    rw [rankChoiceFrom]
    by_cases vip : isVip entry = true
    · rw [List.find?_cons_of_pos vip]
      exact if_pos vip
    · rw [List.find?_cons_of_neg vip]
      refine (if_neg vip).trans ?_
      rw [ih]
      by_cases confirmed : priceConfirmed r (unitPriceOf unit world r entry.1) = true
      · simp only [ranked, List.map_cons, List.filter_cons_of_pos confirmed, if_pos confirmed,
          List.append_assoc, List.singleton_append]
      · simp only [ranked, List.map_cons, List.filter_cons_of_neg confirmed, if_neg confirmed]

theorem confirmed_iff (u : AdUnitPrice) :
    priceConfirmed r u = true ↔ Confirmed r u.price := by
  rw [priceConfirmed, Bool.or_eq_true, Bool.and_eq_true, Bool.and_eq_true, Bool.or_eq_true,
    or_comm]
  simp only [decide_eq_true_eq]
  rfl

theorem offer_eq {entry : Nat × AdRtbFilterResult} (plain : entry.2.vip = false) :
    (unitPriceOf unit world r entry.1).price = offer unit world r entry := by
  rw [unitPriceOf, offer, plain]
  dsimp only
  cases adRtbAdvanceStrategy world r (unit entry.1) with
  | none => rfl
  | some price => rfl

theorem mem_ranked {result : AdResult} {picked : AdUnitPrice} :
    picked ∈ ranked unit world r result ↔
      (∃ entry ∈ result, unitPriceOf unit world r entry.1 = picked) ∧
        Confirmed r picked.price := by
  rw [ranked, List.mem_filter, List.mem_map, confirmed_iff]

theorem ranked_ne_nil {result : AdResult} (plain : ∀ entry ∈ result, entry.2.vip = false) :
    ranked unit world r result ≠ [] ↔
      ∃ entry ∈ result, Confirmed r (offer unit world r entry) := by
  constructor
  · intro some'
    obtain ⟨picked, inside⟩ := List.exists_mem_of_ne_nil _ some'
    obtain ⟨⟨entry, listed, rfl⟩, confirmed⟩ := (mem_ranked unit world r).mp inside
    refine ⟨entry, listed, ?_⟩
    rwa [← offer_eq unit world r (plain entry listed)]
  · rintro ⟨entry, listed, confirmed⟩
    rw [← offer_eq unit world r (plain entry listed)] at confirmed
    exact List.ne_nil_of_mem ((mem_ranked unit world r).mpr ⟨⟨entry, listed, rfl⟩, confirmed⟩)

/-- A strategy answers when it has orders and the draw stays in its array. -/
theorem strategy_isSome (v : List AdUnitPrice) : (adRtbRankStrategy world v).isSome ↔
    v ≠ [] ∧ (2 ≤ v.length →
      ranks v = 1 ∨ (choiceTable world.pow world.weight (ranks v)).isSome) := by
  rcases Nat.lt_or_ge v.length 2 with few | two
  · rcases v with _ | ⟨only, _ | ⟨second, rest⟩⟩
    · exact iff_of_false Bool.false_ne_true fun some' => some'.1 rfl
    · refine iff_of_true rfl ⟨List.cons_ne_nil _ _, fun two => ?_⟩
      exact absurd two (Nat.not_le.mpr few)
    · exact absurd few (by simp)
  · have some' : v ≠ [] := List.ne_nil_of_length_pos (by omega)
    have positive := ranks_pos two
    rw [strategy_eq world two, and_iff_right some', forall_prop_of_true two,
      ← rand_isSome positive world.rankDraw]
    cases drawn : adRtbRandWet world.pow world.weight (ranks v) world.rankDraw with
    | none => exact Iff.rfl
    | some rank =>
      obtain ⟨u, _, found, _⟩ := atRank_some world.placeDraw (rand_lt positive drawn)
      rw [Option.bind_some, found]
      exact iff_of_true rfl rfl

/-- A VIP's price is above the minimum, and where orders are ranked the draw stays in its
array, as it does for every weight from zero to one. -/
structure Fair (result : AdResult) : Prop where
  vip : ∀ entry ∈ result, entry.2.vip = true → Confirmed r adVipPrice
  draw : (∀ entry ∈ result, entry.2.vip = false) → 2 ≤ (ranked unit world r result).length →
    ranks (ranked unit world r result) = 1 ∨
      (choiceTable world.pow world.weight (ranks (ranked unit world r result))).isSome

theorem vip_rules_iff {result : AdResult} {entry : Nat × AdRtbFilterResult}
    (first : result.find? isVip = some entry) {eid priceType : UInt32} :
    Rules unit world r result (some ⟨entry.1, eid, priceType, adVipPrice⟩) ↔
      Confirmed r adVipPrice := by
  have listed := List.mem_of_find?_eq_some first
  have vip : isVip entry = true := List.find?_some first
  have price : offer unit world r entry = adVipPrice := if_pos vip
  constructor
  · intro rules
    exact (rules.priced _ rfl).1
  · intro confirmed
    refine ⟨iff_of_true rfl ⟨entry, listed, price ▸ confirmed⟩, ?_⟩
    rintro picked ⟨⟩
    exact ⟨confirmed, entry, listed, rfl, price.symm⟩

theorem plain_rules_iff {result : AdResult} (plain : ∀ entry ∈ result, entry.2.vip = false) :
    Rules unit world r result (adRtbRankStrategy world (ranked unit world r result)) ↔
      (2 ≤ (ranked unit world r result).length →
        ranks (ranked unit world r result) = 1 ∨
          (choiceTable world.pow world.weight (ranks (ranked unit world r result))).isSome) := by
  constructor
  · intro rules two
    have some' : ranked unit world r result ≠ [] := List.ne_nil_of_length_pos (by omega)
    have answered := rules.success.mpr ((ranked_ne_nil unit world r plain).mp some')
    exact ((strategy_isSome world _).mp answered).2 two
  · intro draw
    refine ⟨?_, fun picked chosen => ?_⟩
    · rw [strategy_isSome, and_iff_left draw]
      exact ranked_ne_nil unit world r plain
    · obtain ⟨⟨entry, listed, rfl⟩, confirmed⟩ :=
        (mem_ranked unit world r).mp (rankStrategy_mem chosen)
      exact ⟨confirmed, entry, listed, rfl, offer_eq unit world r (plain entry listed)⟩

/-- A choice keeps to the rules exactly when a VIP's price does and the draw stays in its
array. -/
theorem rankChoice_rules_iff (result : AdResult) :
    Rules unit world r result (adRtbRankChoice unit world r result) ↔
      Fair unit world r result := by
  rw [adRtbRankChoice, rankChoiceFrom_eq]
  cases first : result.find? isVip with
  | some entry =>
    have listed := List.mem_of_find?_eq_some first
    have vip : isVip entry = true := List.find?_some first
    dsimp only
    rw [vip_rules_iff unit world r first]
    constructor
    · intro confirmed
      refine ⟨fun _ _ _ => confirmed, fun plain => ?_⟩
      exact absurd ((plain entry listed).symm.trans vip) Bool.false_ne_true
    · exact fun fair => fair.vip entry listed vip
  | none =>
    have plain : ∀ entry ∈ result, entry.2.vip = false := fun entry listed =>
      Bool.eq_false_iff.mpr (List.find?_eq_none.mp first entry listed)
    dsimp only
    rw [List.nil_append, plain_rules_iff unit world r plain]
    constructor
    · intro draw
      refine ⟨fun entry listed vip => ?_, fun _ => draw⟩
      exact absurd ((plain entry listed).symm.trans vip) Bool.false_ne_true
    · exact fun fair => fair.draw plain

/-- With a weight from zero to one and a minimum below the VIP price every choice keeps to the
rules. -/
theorem rules_of_weight (near : Near world.pow) {weight : Single}
    (stored : world.weight = some weight) (nonneg : 0 ≤ weight.value) (within : weight.value ≤ 1)
    (low : minPrice r < adVipPrice) (result : AdResult) :
    Rules unit world r result (adRtbRankChoice unit world r result) := by
  refine (rankChoice_rules_iff unit world r result).mpr
    ⟨fun _ _ _ => .inr ⟨by decide, low⟩, fun _ several => or_iff_not_imp_left.mpr fun more => ?_⟩
  have least := ranks_pos several
  have most : ranks (ranked unit world r result) ≤ 3 := by
    rw [ranks]
    split <;> omega
  obtain ⟨choice, _, table, _⟩ := weight_shared near nonneg within
    (show 2 ≤ ranks (ranked unit world r result) by omega) (by omega)
  rw [stored, table]
  rfl

end Rules

/-- A VIP gets a fixed price, which may be below the request's minimum. -/
theorem vip_below : ¬ ∀ (unit : Nat → AdPlanningUnit) (world : RankWorld) (r : AdRtbRequest)
    (result : AdResult), Rules unit world r result (adRtbRankChoice unit world r result) := by
  intro all
  let r : AdRtbRequest := { AdRtbRequest.clear ⟨0, 0⟩ with
    text := fun text => if text = .minPrice then ascii "6000" else [] }
  have rules := all (fun _ => {}) evenWorld r [(1, { vip := true })]
  have confirmed : Confirmed r adVipPrice := (rules.priced _ rfl).1
  have none : ¬ Confirmed r adVipPrice := by
    unfold Confirmed Exempt
    decide +kernel
  exact none confirmed

end PriceRules
