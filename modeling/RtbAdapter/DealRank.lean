import RtbAdapter.FloatFormat
import RtbAdapter.PlanningData
import RtbAdapter.RtbFilters

/-!
# The choice among the orders left

`AdRtbRankChoice` prices the orders that a match leaves and picks one of the best
prices at random. The shares of the ranks are rounded as floats are; the power
function of the library and what the click model answers are arbitrary.
-/

namespace DealRank

open FloatFormat ByteWords CText PlanningUnit PlanningData RtbBase FilterTables Std

def adOrderCpm : UInt32 := 1
def adOrderCpc : UInt32 := 2
def adVipPrice : UInt32 := 5000
def adProtocolKeyAdxYuku : UInt32 := 5
def adProtocolKeyAdxMiaozhen : UInt32 := 12

structure AdUnitPrice where
  /-- `pPlaningData`, an address. -/
  planningData : Nat
  eid : UInt32
  priceType : UInt32
  price : UInt32

/-- What a choice depends on besides the orders: the weight of the configuration (`none` is an
infinity or no number), the power function for a float and a rank (`none` is an infinity), the
entries that stand at a price pointer, the price of the click model for the order at an address
(zero when no model is loaded), and the numbers drawn for a rank and for a place among equal
prices. -/
structure RankWorld where
  weight : Option Single
  pow : Single → Nat → Option Rat
  advanced : PricePointer → TreeMap Bytes AdAdvancedPrice
  ctrModel : Nat → UInt32
  rankDraw : Nat
  placeDraw : Nat

def choiceSize : Nat := 100

/-- `choice[j] = rank` for `j` from `start` below `stop`; `none` is a write beside the array. -/
def setChoice (rank : Nat) (start stop : Int) (choice : List Nat) : Option (List Nat) :=
  if stop ≤ start then some choice
  else if 0 ≤ start ∧ stop ≤ choice.length then
    some (choice.mapIdx fun j old => if start ≤ j ∧ j < stop then rank else old)
  else none

/-- A float as an `int`; one that does not fit has no defined value. -/
def floatInt (x : Single) : Option Int :=
  let whole := x.value.num.tdiv x.value.den
  if -2 ^ 31 ≤ whole ∧ whole < 2 ^ 31 then some whole else none

section

variable (pow : Single → Nat → Option Rat) (wt : Option Single)

/-- The slots that a rank takes, `float(pow((1-wt),i))*wt*100` with every result a float. -/
def chnum (rank : Nat) : Option Int := do
  let weight ← wt
  let left ← binary32.round (1 - weight.value)
  let power ← binary32.round (← pow left rank)
  let part ← binary32.round (power.value * weight.value)
  floatInt (← binary32.round (part.value * 100))

/-- One turn of the loop over the ranks, on the array and `tmptol`. The last rank takes what is
left. -/
def choiceStep (num : Nat) (state : List Nat × Int) (rank : Nat) : Option (List Nat × Int) :=
  if rank + 1 < num then do
    let slots ← chnum pow wt rank
    let choice ← setChoice rank state.2 (slots + state.2) state.1
    return (choice, state.2 + slots)
  else do
    let choice ← setChoice rank state.2 choiceSize state.1
    return (choice, state.2)

def choiceTable (num : Nat) : Option (List Nat) := do
  return (← (List.range num).foldlM (choiceStep pow wt num) (List.replicate choiceSize 0, 0)).1

def adRtbRandWet (count : Nat) (draw : Nat) : Option Nat :=
  if count = 1 then some 0
  else do (← choiceTable pow wt count)[draw % choiceSize]?

end

/-- `m_Price[price].push_back`, the highest price first; prices are compared as `int`. -/
def pushPrice (unitPrice : AdUnitPrice) :
    List (Int × List AdUnitPrice) → List (Int × List AdUnitPrice)
  | [] => [(toInt32 unitPrice.price.toNat, [unitPrice])]
  | (price, units) :: rest =>
    if price = toInt32 unitPrice.price.toNat then (price, units ++ [unitPrice]) :: rest
    else if price < toInt32 unitPrice.price.toNat then
      (toInt32 unitPrice.price.toNat, [unitPrice]) :: (price, units) :: rest
    else (price, units) :: pushPrice unitPrice rest

/-- Up to three orders are ranked by their places, more by their prices. -/
def rankSeveral (world : RankWorld) (rankVec : List AdUnitPrice) : Option AdUnitPrice :=
  if rankVec.length ≤ 3 then do
    rankVec[← adRtbRandWet world.pow world.weight rankVec.length world.rankDraw]?
  else do
    let prices := rankVec.foldl (fun prices unitPrice => pushPrice unitPrice prices) []
    let rank ← adRtbRandWet world.pow world.weight (min 3 prices.length) world.rankDraw
    let (_, units) ← prices[rank]?
    units[world.placeDraw % units.length]?

def adRtbRankStrategy (world : RankWorld) : List AdUnitPrice → Option AdUnitPrice
  | [] => none
  | [only] => some only
  | rankVec => rankSeveral world rankVec

section

variable (unit : Nat → AdPlanningUnit) (world : RankWorld) (r : AdRtbRequest)

/-- The price of the order for the place of the request, when it has one of its own. -/
def adRtbAdvanceStrategy (u : AdPlanningUnit) : Option UInt32 :=
  u.advancedPrice.bind fun pointer =>
    ((world.advanced pointer)[r.text .pId]?).map fun price => UInt32.ofNat (toUInt32 price.eprice)

/-- The entry of an order that is no VIP's. -/
def unitPriceOf (address : Nat) : AdUnitPrice :=
  let u := unit address
  { planningData := address
    eid := u.order.executeId
    priceType := u.order.targetPriceType
    price := (adRtbAdvanceStrategy world r u).getD
      (if u.order.targetPriceType = adOrderCpm then u.order.targetPrice
      else if u.order.targetPriceType = adOrderCpc then world.ctrModel address
      else 0) }

/-- The videos of two exchanges are bid on at any price. -/
def priceConfirmed (unitPrice : AdUnitPrice) : Bool :=
  (0 < unitPrice.price && atoiUInt (cStr (r.text .minPrice)) < unitPrice.price) ||
    (atoi (cStr (r.text .flow)) = adProtocolFlowVideo.toNat &&
      (r.adx = adProtocolKeyAdxYuku || r.adx = adProtocolKeyAdxMiaozhen))

/-- The loop over the result, with what is to be ranked so far. The first order of a VIP ends
it. -/
def rankChoiceFrom (rankVec : List AdUnitPrice) : AdResult → Option AdUnitPrice
  | [] => adRtbRankStrategy world rankVec
  | (address, found) :: rest =>
    let u := unit address
    if found.vip then
      some ⟨address, u.order.executeId, u.order.targetPriceType, adVipPrice⟩
    else
      let unitPrice := unitPriceOf unit world r address
      rankChoiceFrom (if priceConfirmed r unitPrice then rankVec ++ [unitPrice] else rankVec) rest

/-- `none` when nothing is picked. -/
def adRtbRankChoice (result : AdResult) : Option AdUnitPrice :=
  rankChoiceFrom unit world r [] result

end

variable {unit : Nat → AdPlanningUnit} {world : RankWorld} {r : AdRtbRequest} {result : AdResult}
  {picked : AdUnitPrice}

theorem mem_pushPrice {unitPrice other : AdUnitPrice} {prices : List (Int × List AdUnitPrice)}
    (among : ∃ units ∈ (pushPrice unitPrice prices).map Prod.snd, other ∈ units) :
    other = unitPrice ∨ ∃ units ∈ prices.map Prod.snd, other ∈ units := by
  induction prices with
  | nil =>
    obtain ⟨units, listed, among⟩ := among
    simp only [pushPrice, List.map_cons, List.map_nil, List.mem_singleton] at listed
    subst listed
    exact .inl (List.mem_singleton.mp among)
  | cons entry prices ih =>
    obtain ⟨price, units⟩ := entry
    obtain ⟨held, listed, among⟩ := among
    rw [pushPrice] at listed
    split at listed
    · rcases List.mem_cons.mp listed with rfl | later
      · rcases List.mem_append.mp among with old | new
        · exact .inr ⟨units, List.mem_cons_self, old⟩
        · exact .inl (List.mem_singleton.mp new)
      · exact .inr ⟨held, .tail _ later, among⟩
    split at listed
    · rcases List.mem_cons.mp listed with rfl | later
      · exact .inl (List.mem_singleton.mp among)
      · exact .inr ⟨held, later, among⟩
    · rcases List.mem_cons.mp listed with rfl | later
      · exact .inr ⟨_, List.mem_cons_self, among⟩
      · rcases ih ⟨held, later, among⟩ with new | ⟨units, listed, old⟩
        · exact .inl new
        · exact .inr ⟨units, .tail _ listed, old⟩

theorem mem_prices {rankVec : List AdUnitPrice} {other : AdUnitPrice}
    (among : ∃ units ∈ (rankVec.foldl (fun prices unitPrice => pushPrice unitPrice prices) []).map
      Prod.snd, other ∈ units) : other ∈ rankVec := by
  induction rankVec using List.reverseRecOn with
  | nil =>
    obtain ⟨units, listed, -⟩ := among
    exact absurd listed List.not_mem_nil
  | append_singleton rankVec last ih =>
    rw [List.foldl_append] at among
    rcases mem_pushPrice among with rfl | old
    · exact List.mem_append_right _ (List.mem_singleton_self _)
    · exact List.mem_append_left _ (ih old)

theorem rankStrategy_mem {rankVec : List AdUnitPrice}
    (chosen : adRtbRankStrategy world rankVec = some picked) : picked ∈ rankVec := by
  rcases rankVec with _ | ⟨first, _ | ⟨second, rest⟩⟩
  · exact nomatch chosen
  · obtain rfl := Option.some.inj chosen
    exact List.mem_cons_self
  · change rankSeveral world (first :: second :: rest) = some picked at chosen
    rw [rankSeveral] at chosen
    split at chosen
    · obtain ⟨rank, -, there⟩ := Option.bind_eq_some_iff.mp chosen
      exact List.mem_of_getElem? there
    · obtain ⟨rank, -, rest⟩ := Option.bind_eq_some_iff.mp chosen
      obtain ⟨⟨price, units⟩, there, place⟩ := Option.bind_eq_some_iff.mp rest
      apply mem_prices
      exact ⟨units, List.mem_map_of_mem (List.mem_of_getElem? there), List.mem_of_getElem? place⟩

/-- The order that is picked is one of those left. -/
theorem rankChoice_mem (chosen : adRtbRankChoice unit world r result = some picked) :
    picked.planningData ∈ result.map Prod.fst := by
  have step : ∀ (result : AdResult) (rankVec : List AdUnitPrice),
      rankChoiceFrom unit world r rankVec result = some picked →
      picked ∈ rankVec ∨ picked.planningData ∈ result.map Prod.fst := by
    intro result
    induction result with
    | nil => exact fun rankVec chosen => .inl (rankStrategy_mem chosen)
    | cons entry result ih =>
      obtain ⟨address, found⟩ := entry
      intro rankVec chosen
      rw [rankChoiceFrom] at chosen
      dsimp only at chosen
      split at chosen
      · obtain rfl := Option.some.inj chosen
        exact .inr List.mem_cons_self
      · rcases ih _ chosen with ranked | later
        · split at ranked
          · rcases List.mem_append.mp ranked with old | new
            · exact .inl old
            · rw [List.mem_singleton.mp new]
              exact .inr List.mem_cons_self
          · exact .inl ranked
        · exact .inr (.tail _ later)
  rcases step result [] chosen with none | among
  · exact absurd none List.not_mem_nil
  · exact among

end DealRank
