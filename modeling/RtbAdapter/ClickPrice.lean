import Mathlib.Data.Rat.Floor
import Mathlib.Tactic
import RtbAdapter.PlanningUnit

/-!
# The price of the click model

The target price is multiplied by 100 and by 5 in 32 bits, and the product with the click
rate is cut to 32 bits before the cap is looked at. What a conversion out of range gives
is left open.
-/

namespace ClickPrice

open PlanningUnit (AdOrderInfo)

variable (outside : Rat → UInt32)

/-- `(UINT)x`; the fraction is cut off. -/
def toUINT (x : Rat) : UInt32 :=
  if -1 < x ∧ x < 2 ^ 32 then UInt32.ofNat ⌊x⌋.toNat else outside x

def adRtbEngPrice (order : AdOrderInfo) (ctr : Rat) : UInt32 :=
  if ctr / 10 < order.minCtr then 0
  else
    let tgPrice := order.targetPrice * (1000 / 10)
    let price := toUINT outside (ctr * tgPrice.toNat)
    if price > order.targetPrice * 5 then order.targetPrice * 5 else price

/-- The price in exact arithmetic. -/
def exactPrice (order : AdOrderInfo) (ctr : Rat) : Int :=
  if ctr / 10 < order.minCtr then 0
  else min ⌊100 * ctr * order.targetPrice.toNat⌋ (5 * order.targetPrice.toNat)

/-- No product of a bid wraps, and the product with the rate is one that 32 bits hold. -/
structure Unwrapped (order : AdOrderInfo) (ctr : Rat) : Prop where
  hundredfold : (order.targetPrice * (1000 / 10)).toNat = 100 * order.targetPrice.toNat
  cap : (order.targetPrice * 5).toNat = 5 * order.targetPrice.toNat
  conversion : ctr * (order.targetPrice * (1000 / 10)).toNat < 2 ^ 32

/-- The code gives the exact price without a product or a conversion that wraps. -/
structure Exact (order : AdOrderInfo) (ctr : Rat) : Prop where
  price : ∀ outside, ((adRtbEngPrice outside order ctr).toNat : Int) = exactPrice order ctr
  unwrapped : ¬ ctr / 10 < order.minCtr → Unwrapped order ctr

/-- No bid; or a target price whose hundredfold fits, and so does its product with the rate. -/
def Fits (order : AdOrderInfo) (ctr : Rat) : Prop :=
  ctr / 10 < order.minCtr ∨
    100 * order.targetPrice.toNat < 2 ^ 32 ∧ 100 * ctr * order.targetPrice.toNat < 2 ^ 32

instance (order : AdOrderInfo) (ctr : Rat) : Decidable (Fits order ctr) :=
  inferInstanceAs (Decidable (_ ∨ _))

variable {outside} {order : AdOrderInfo} {ctr : Rat}

theorem hundredfold_toNat :
    (order.targetPrice * (1000 / 10)).toNat = 100 * order.targetPrice.toNat % 2 ^ 32 := by
  rw [UInt32.toNat_mul, mul_comm]
  rfl

theorem cap_toNat : (order.targetPrice * 5).toNat = 5 * order.targetPrice.toNat % 2 ^ 32 := by
  rw [UInt32.toNat_mul, mul_comm]
  rfl

/-- Below the minimum there is no bid. -/
theorem price_below (below : ctr / 10 < order.minCtr) : adRtbEngPrice outside order ctr = 0 := by
  rw [adRtbEngPrice, if_pos below]

/-- From the minimum on the converted product is capped. -/
theorem price_above (above : ¬ ctr / 10 < order.minCtr) :
    (adRtbEngPrice outside order ctr).toNat =
      min (toUINT outside (ctr * (order.targetPrice * (1000 / 10)).toNat)).toNat
        (order.targetPrice * 5).toNat := by
  rw [adRtbEngPrice, if_neg above]
  dsimp only
  split_ifs with large
  · exact (min_eq_right (UInt32.le_of_lt large)).symm
  · exact (min_eq_left (UInt32.not_lt.mp large)).symm

theorem toUINT_inside {x : Rat} (nonneg : 0 ≤ x) (small : x < 2 ^ 32) :
    ((toUINT outside x).toNat : Int) = ⌊x⌋ := by
  have floored : ⌊x⌋ < 2 ^ 32 := Int.floor_lt.mpr (by exact_mod_cast small)
  have positive : 0 ≤ ⌊x⌋ := Int.floor_nonneg.mpr nonneg
  rw [toUINT, if_pos ⟨by linarith, small⟩, UInt32.toNat_ofNat']
  omega

/-- The price never passes the cap. -/
theorem price_le_cap : (adRtbEngPrice outside order ctr).toNat ≤ 5 * order.targetPrice.toNat := by
  by_cases below : ctr / 10 < order.minCtr
  · rw [price_below below]
    exact Nat.zero_le _
  · rw [price_above below, cap_toNat]
    exact (min_le_right _ _).trans (Nat.mod_le _ _)

/-- Exact prices grow with the rate. -/
theorem exactPrice_mono {other : Rat} (le : other ≤ ctr) (nonneg : 0 ≤ other) :
    exactPrice order other ≤ exactPrice order ctr := by
  have scaled : 100 * other * order.targetPrice.toNat ≤ 100 * ctr * order.targetPrice.toNat := by
    gcongr
  have floored := Int.floor_le_floor scaled
  rw [exactPrice, exactPrice]
  by_cases below : other / 10 < order.minCtr
  · rw [if_pos below]
    split_ifs
    · exact le_rfl
    · exact le_min ((Int.floor_nonneg.mpr (by positivity)).trans floored) (by positivity)
  · have above : ¬ ctr / 10 < order.minCtr := fun lower => below (by linarith)
    rw [if_neg below, if_neg above]
    exact min_le_min_right _ floored

theorem product_eq : ctr * ((100 * order.targetPrice.toNat : Nat) : Rat) =
    100 * ctr * order.targetPrice.toNat := by
  push_cast
  ring

/-- Products that do not wrap are those of a target price whose hundredfold fits. -/
theorem unwrapped_iff : Unwrapped order ctr ↔
    100 * order.targetPrice.toNat < 2 ^ 32 ∧ 100 * ctr * order.targetPrice.toNat < 2 ^ 32 := by
  constructor
  · rintro ⟨hundredfold, -, conversion⟩
    rw [hundredfold, product_eq] at conversion
    rw [← hundredfold]
    exact ⟨UInt32.toNat_lt _, conversion⟩
  · rintro ⟨small, product⟩
    have hundredfold : (order.targetPrice * (1000 / 10)).toNat = 100 * order.targetPrice.toNat := by
      rw [hundredfold_toNat, Nat.mod_eq_of_lt small]
    refine ⟨hundredfold, ?_, ?_⟩
    · rw [cap_toNat, Nat.mod_eq_of_lt (by omega)]
    · rwa [hundredfold, product_eq]

/-- What does not wrap is exact. -/
theorem price_unwrapped (nonneg : 0 ≤ ctr) (above : ¬ ctr / 10 < order.minCtr)
    (unwrapped : Unwrapped order ctr) :
    ((adRtbEngPrice outside order ctr).toNat : Int) = exactPrice order ctr := by
  have positive : 0 ≤ ctr * (order.targetPrice * (1000 / 10)).toNat := by positivity
  rw [price_above above, Nat.cast_min, toUINT_inside positive unwrapped.conversion,
    unwrapped.hundredfold, unwrapped.cap, product_eq, exactPrice, if_neg above]
  push_cast
  rfl

theorem exact_iff_fits (nonneg : 0 ≤ ctr) : Exact order ctr ↔ Fits order ctr := by
  rw [Fits, ← unwrapped_iff]
  by_cases below : ctr / 10 < order.minCtr
  · refine iff_of_true ⟨fun outside => ?_, fun above => absurd below above⟩ (.inl below)
    rw [price_below below, exactPrice, if_pos below]
    rfl
  · rw [or_iff_right below]
    exact ⟨fun exact => exact.unwrapped below,
      fun unwrapped => ⟨fun _ => price_unwrapped nonneg below unwrapped, fun _ => unwrapped⟩⟩

/-- The price is the exact one and nothing wraps exactly where the products fit; there it grows
with the rate, and it never passes five times the target. -/
theorem click_price (nonneg : 0 ≤ ctr) :
    (Exact order ctr ↔ Fits order ctr) ∧
      (∀ other, 0 ≤ other → other ≤ ctr → Fits order other → Fits order ctr → ∀ outside,
        adRtbEngPrice outside order other ≤ adRtbEngPrice outside order ctr) ∧
      ∀ outside, (adRtbEngPrice outside order ctr).toNat ≤ 5 * order.targetPrice.toNat := by
  refine ⟨exact_iff_fits nonneg, fun other nonneg' le fits fits' outside => ?_,
    fun outside => price_le_cap⟩
  have one := ((exact_iff_fits nonneg').mpr fits).price outside
  have two := ((exact_iff_fits nonneg).mpr fits').price outside
  have grows : exactPrice order other ≤ exactPrice order ctr := exactPrice_mono le nonneg'
  rw [← one, ← two] at grows
  exact UInt32.le_iff_toNat_le.mpr (by exact_mod_cast grows)

/-- The greatest target price whose hundredfold fits. -/
def common : AdOrderInfo := { targetPrice := 42949672 }

def dear : AdOrderInfo := { targetPrice := 42949673 }

theorem common_price :
    (Exact common (1 / 100) ↔ Fits common (1 / 100)) ∧
      (∀ other, 0 ≤ other → other ≤ 1 / 100 → Fits common other → Fits common (1 / 100) →
        ∀ outside, adRtbEngPrice outside common other ≤ adRtbEngPrice outside common (1 / 100)) ∧
      ∀ outside, (adRtbEngPrice outside common (1 / 100)).toNat ≤ 5 * common.targetPrice.toNat :=
  click_price (by norm_num)

/-- A tenth of a click for the dear target price is free, and the conversion for two clicks
of the common one is out of range. -/
theorem free_click : ¬ Exact dear (1 / 10) ∧ ¬ Exact common 2 :=
  ⟨fun exact => absurd (exact.price fun _ => 0) (by decide +kernel),
    fun exact => absurd (exact.price fun _ => 0) (by decide +kernel)⟩

end ClickPrice
