import Mathlib.Algebra.Order.Field.Power
import Mathlib.Data.Int.Log
import Mathlib.Data.Rat.Floor
import Mathlib.Tactic.FieldSimp
import Mathlib.Tactic.Linarith
import Mathlib.Tactic.NormNum
import Mathlib.Tactic.Positivity
import Mathlib.Tactic.Ring

/-!
# Binary floating point numbers

The finite numbers of a binary format are the rationals with a short mantissa over
a least exponent. An operation gives the number nearest to the exact result, the one
with the even mantissa when two are; what is too large becomes an infinity.
-/

namespace FloatFormat

/-- The digits of a mantissa, the least exponent, and the exponent from which on there are no
finite numbers. -/
structure Format where
  bits : ℕ
  low : ℤ
  high : ℤ
  digits : 0 < bits

def binary32 : Format := ⟨24, -149, 128, by decide⟩

/-- The rationals that need no rounding. -/
def Format.Exact (F : Format) (x : ℚ) : Prop :=
  ∃ m e : ℤ, x = m * 2 ^ e ∧ |m| < 2 ^ F.bits ∧ F.low ≤ e

/-- A finite number. -/
structure Number (F : Format) where
  value : ℚ
  exact : F.Exact value
  finite : |value| < 2 ^ F.high

abbrev Single := Number binary32

/-- The nearest integer, the even one of two. -/
def toEven (x : ℚ) : ℤ :=
  if x - ⌊x⌋ < 1 / 2 then ⌊x⌋
  else if 1 / 2 < x - ⌊x⌋ then ⌊x⌋ + 1
  else if ⌊x⌋ % 2 = 0 then ⌊x⌋
  else ⌊x⌋ + 1

/-- The exponent of the last digit of what is nearest to `x`. -/
def Format.scale (F : Format) (x : ℚ) : ℤ :=
  max (Int.log 2 |x| + 1 - F.bits) F.low

def Format.unit (F : Format) (x : ℚ) : ℚ := 2 ^ F.scale x

def Format.nearest (F : Format) (x : ℚ) : ℚ := toEven (x / F.unit x) * F.unit x

variable {F : Format} {x y : ℚ}

theorem toEven_bounds (x : ℚ) : ⌊x⌋ ≤ toEven x ∧ toEven x ≤ ⌊x⌋ + 1 := by
  unfold toEven
  split_ifs <;> omega

theorem toEven_near (x : ℚ) : |(toEven x : ℚ) - x| ≤ 1 / 2 := by
  unfold toEven
  rw [abs_le]
  split_ifs with less more
  · constructor <;> linarith [Int.floor_le x]
  · push_cast
    constructor <;> linarith [Int.lt_floor_add_one x]
  · constructor <;> linarith
  · push_cast
    constructor <;> linarith

theorem toEven_intCast (n : ℤ) : toEven n = n := by
  rw [toEven, Int.floor_intCast, sub_self, if_pos (by norm_num)]

theorem toEven_mono (order : x ≤ y) : toEven x ≤ toEven y := by
  rcases (Int.floor_mono order).lt_or_eq with below | same
  · calc toEven x ≤ ⌊x⌋ + 1 := (toEven_bounds x).2
      _ ≤ ⌊y⌋ := below
      _ ≤ toEven y := (toEven_bounds y).1
  · unfold toEven
    rw [same]
    split_ifs <;> first | omega | linarith

theorem unit_pos (F : Format) (x : ℚ) : 0 < F.unit x := zpow_pos (by norm_num) _

theorem nearest_nonneg (nonneg : 0 ≤ x) : 0 ≤ F.nearest x := by
  have quotient : 0 ≤ x / F.unit x := div_nonneg nonneg (unit_pos F x).le
  have mantissa : toEven ((0 : ℤ) : ℚ) ≤ toEven (x / F.unit x) :=
    toEven_mono (by exact_mod_cast quotient)
  rw [toEven_intCast] at mantissa
  exact mul_nonneg (by exact_mod_cast mantissa) (unit_pos F x).le

theorem nearest_nonpos (nonpos : x ≤ 0) : F.nearest x ≤ 0 := by
  have quotient : x / F.unit x ≤ 0 := div_nonpos_of_nonpos_of_nonneg nonpos (unit_pos F x).le
  have mantissa : toEven (x / F.unit x) ≤ toEven ((0 : ℤ) : ℚ) :=
    toEven_mono (by exact_mod_cast quotient)
  rw [toEven_intCast] at mantissa
  exact mul_nonpos_of_nonpos_of_nonneg (by exact_mod_cast mantissa) (unit_pos F x).le

/-- What is a multiple of the unit stays as it is. -/
theorem nearest_multiple {z : ℚ} (m : ℤ) (multiple : z = m * F.unit x) :
    toEven (z / F.unit x) * F.unit x = z := by
  rw [multiple, mul_div_cancel_right₀ _ (unit_pos F x).ne', toEven_intCast]

theorem two_zpow_multiple {e : ℤ} (above : F.scale x ≤ e) :
    (2 : ℚ) ^ e = ((2 ^ (e - F.scale x).toNat : ℤ) : ℚ) * F.unit x := by
  have shift : ((e - F.scale x).toNat : ℤ) = e - F.scale x := Int.toNat_of_nonneg (by omega)
  rw [Format.unit, Int.cast_pow, Int.cast_ofNat, ← zpow_natCast, shift,
    ← zpow_add₀ (by norm_num : (2 : ℚ) ≠ 0), sub_add_cancel]

theorem nearest_zero (F : Format) : F.nearest 0 = 0 :=
  le_antisymm (nearest_nonpos le_rfl) (nearest_nonneg le_rfl)

theorem scale_le_of_short {m e : ℤ} (some' : m ≠ 0) (short : |m| < 2 ^ F.bits) (least : F.low ≤ e) :
    F.scale (m * 2 ^ e) ≤ e := by
  have positive : 0 < |(m * 2 ^ e : ℚ)| :=
    abs_pos.mpr (mul_ne_zero (by exact_mod_cast some') (zpow_ne_zero _ (by norm_num)))
  have bound : |(m * 2 ^ e : ℚ)| < ((2 : ℕ) : ℚ) ^ ((F.bits : ℤ) + e) := by
    have unit : (0 : ℚ) < 2 ^ e := zpow_pos (by norm_num) e
    have short' : |(m : ℚ)| < 2 ^ F.bits := by exact_mod_cast short
    rw [abs_mul, abs_of_pos unit, Nat.cast_ofNat, zpow_add₀ (by norm_num), zpow_natCast]
    exact mul_lt_mul_of_pos_right short' unit
  have below := (Int.lt_zpow_iff_log_lt (by norm_num) positive).mp bound
  exact max_le (by omega) least

/-- A mantissa that is short enough is not rounded. -/
theorem nearest_exact (exact : F.Exact x) : F.nearest x = x := by
  obtain ⟨m, e, rfl, short, least⟩ := exact
  rcases eq_or_ne m 0 with rfl | some'
  · rw [Int.cast_zero, zero_mul, nearest_zero]
  · have above := scale_le_of_short some' short least
    refine nearest_multiple (m * 2 ^ (e - F.scale (m * 2 ^ e)).toNat) ?_
    rw [Int.cast_mul, mul_assoc, ← two_zpow_multiple above]

theorem unit_le (positive : 0 < x) : F.unit x ≤ x * 2 / 2 ^ F.bits + 2 ^ F.low := by
  have log := Int.zpow_log_le_self (by norm_num : 1 < 2) positive
  rw [Nat.cast_ofNat] at log
  have digit : (2 : ℚ) ^ (Int.log 2 |x| + 1 - F.bits) ≤ x * 2 / 2 ^ F.bits := by
    rw [abs_of_pos positive, zpow_sub₀ (by norm_num), zpow_add₀ (by norm_num), zpow_one,
      zpow_natCast]
    gcongr
  have least : (0 : ℚ) < 2 ^ F.low := zpow_pos (by norm_num) _
  have above : 0 ≤ x * 2 / 2 ^ F.bits := by positivity
  rw [Format.unit, Format.scale]
  rcases max_choice (Int.log 2 |x| + 1 - F.bits) F.low with same | same
  · rw [same]
    linarith
  · rw [same]
    linarith

/-- What rounding loses: half of the last digit, or of the least number there is. -/
theorem nearest_error (F : Format) (nonneg : 0 ≤ x) :
    |F.nearest x - x| ≤ x / 2 ^ F.bits + 2 ^ F.low / 2 := by
  rcases nonneg.eq_or_lt with rfl | positive
  · rw [nearest_zero, sub_zero, abs_zero, zero_div, zero_add]
    positivity
  · have unit := unit_pos F x
    have split : F.nearest x - x = (toEven (x / F.unit x) - x / F.unit x) * F.unit x := by
      rw [sub_mul, div_mul_cancel₀ _ unit.ne', Format.nearest]
    calc |F.nearest x - x|
        = |(toEven (x / F.unit x) : ℚ) - x / F.unit x| * F.unit x := by
          rw [split, abs_mul, abs_of_pos unit]
      _ ≤ 1 / 2 * F.unit x := mul_le_mul_of_nonneg_right (toEven_near _) unit.le
      _ ≤ 1 / 2 * (x * 2 / 2 ^ F.bits + 2 ^ F.low) :=
          mul_le_mul_of_nonneg_left (unit_le positive) (by norm_num)
      _ = x / 2 ^ F.bits + 2 ^ F.low / 2 := by ring

theorem scale_mono (positive : 0 < x) (order : x ≤ y) : F.scale x ≤ F.scale y := by
  have log : Int.log 2 |x| ≤ Int.log 2 |y| :=
    Int.log_mono_right (abs_pos.mpr positive.ne') (abs_le_abs_of_nonneg positive.le order)
  exact max_le_max (by omega) le_rfl

/-- Rounding keeps the order. Between two units there is a power of two, which is a multiple of
both. -/
theorem nearest_mono (nonneg : 0 ≤ x) (order : x ≤ y) :
    F.nearest x ≤ F.nearest y := by
  rcases nonneg.eq_or_lt with rfl | positive
  · rw [nearest_zero]
    exact nearest_nonneg order
  have larger := scale_mono (F := F) positive order
  have scaled : ∀ {a b z : ℚ}, a ≤ b →
      (toEven (a / F.unit z) : ℚ) * F.unit z ≤ toEven (b / F.unit z) * F.unit z := by
    intro a b z below
    have unit := unit_pos F z
    have mantissa := toEven_mono (div_le_div_of_nonneg_right below unit.le)
    exact mul_le_mul_of_nonneg_right (by exact_mod_cast mantissa) unit.le
  rcases larger.eq_or_lt with same | less
  · have unit : F.unit x = F.unit y := by rw [Format.unit, Format.unit, same]
    rw [Format.nearest, Format.nearest, unit]
    exact scaled order
  · have later : 0 < y := positive.trans_le order
    have digits := F.digits
    have logs : F.scale y = Int.log 2 |y| + 1 - F.bits ∧ Int.log 2 |x| < Int.log 2 |y| := by
      have least : F.low ≤ F.scale x := le_max_right _ _
      have digit : Int.log 2 |x| + 1 - F.bits ≤ F.scale x := le_max_left _ _
      have choice : F.scale y = Int.log 2 |y| + 1 - F.bits ∨ F.scale y = F.low :=
        max_choice _ _
      omega
    obtain ⟨scale, below⟩ := logs
    have power := two_zpow_multiple (F := F) (x := x) (e := Int.log 2 |y|) (by omega)
    have power' := two_zpow_multiple (F := F) (x := y) (e := Int.log 2 |y|) (by omega)
    rw [abs_of_pos positive, abs_of_pos later] at below
    have above : x ≤ 2 ^ Int.log 2 |y| := by
      rw [abs_of_pos later]
      have := (Int.lt_zpow_iff_log_lt (b := 2) (by norm_num) positive).mpr below
      exact_mod_cast this.le
    have reached : 2 ^ Int.log 2 |y| ≤ y := by
      rw [abs_of_pos later]
      exact_mod_cast Int.zpow_log_le_self (by norm_num : 1 < 2) later
    calc F.nearest x
        ≤ toEven (2 ^ Int.log 2 |y| / F.unit x) * F.unit x := scaled above
      _ = 2 ^ Int.log 2 |y| := nearest_multiple _ power
      _ = toEven (2 ^ Int.log 2 |y| / F.unit y) * F.unit y := (nearest_multiple _ power').symm
      _ ≤ F.nearest y := scaled reached

theorem pow_scale (F : Format) (x : ℚ) : |x| < 2 ^ (F.scale x + F.bits) := by
  have digit : Int.log 2 |x| + 1 ≤ F.scale x + F.bits := by
    have := le_max_left (Int.log 2 |x| + 1 - F.bits) F.low
    rw [Format.scale]
    omega
  have log := Int.lt_zpow_succ_log_self (by norm_num : 1 < 2) |x|
  rw [Nat.cast_ofNat] at log
  exact log.trans_le (zpow_le_zpow_right₀ (by norm_num) digit)

/-- What is nearest has a short mantissa. One that is carried over is a power of two. -/
theorem exact_nearest (F : Format) (x : ℚ) : F.Exact (F.nearest x) := by
  have unit := unit_pos F x
  have least : F.low ≤ F.scale x := le_max_right _ _
  have quotient : |x / F.unit x| < 2 ^ F.bits := by
    rw [abs_div, abs_of_pos unit, div_lt_iff₀ unit, Format.unit, ← zpow_natCast,
      ← zpow_add₀ (by norm_num : (2 : ℚ) ≠ 0), add_comm]
    exact pow_scale F x
  obtain ⟨lower, upper⟩ := abs_lt.mp quotient
  have most : |toEven (x / F.unit x)| ≤ 2 ^ F.bits := by
    refine abs_le.mpr ⟨?_, ?_⟩
    · have mono := toEven_mono (x := ((-2 ^ F.bits : ℤ) : ℚ)) (y := x / F.unit x)
        (by push_cast; exact lower.le)
      rwa [toEven_intCast] at mono
    · have mono := toEven_mono (x := x / F.unit x) (y := ((2 ^ F.bits : ℤ) : ℚ))
        (by push_cast; exact upper.le)
      rwa [toEven_intCast] at mono
  rcases most.lt_or_eq with short | carried
  · exact ⟨toEven (x / F.unit x), F.scale x, rfl, short, least⟩
  · obtain ⟨bits, more⟩ := Nat.exists_eq_add_of_le' F.digits
    have half : (2 : ℤ) ^ bits < 2 ^ F.bits := by
      rw [more]
      exact pow_lt_pow_right₀ (by norm_num) (Nat.lt_succ_self bits)
    have next : (2 : ℚ) ^ F.bits * 2 ^ F.scale x = 2 ^ bits * 2 ^ (F.scale x + 1) := by
      rw [more, pow_succ, zpow_add₀ (by norm_num), zpow_one]
      ring
    rcases abs_eq (by positivity) |>.mp carried with above | below
    · refine ⟨2 ^ bits, F.scale x + 1, ?_, ?_, by omega⟩
      · rw [Format.nearest, above, Format.unit]
        push_cast
        exact next
      · rwa [abs_of_pos (by positivity)]
    · refine ⟨-2 ^ bits, F.scale x + 1, ?_, ?_, by omega⟩
      · rw [Format.nearest, below, Format.unit]
        push_cast
        rw [neg_mul, neg_mul, next]
      · rwa [abs_neg, abs_of_pos (by positivity)]

/-- The number that is nearest; `none` is an infinity. -/
def Format.round (F : Format) (x : ℚ) : Option (Number F) :=
  if finite : |F.nearest x| < 2 ^ F.high then some ⟨F.nearest x, exact_nearest F x, finite⟩
  else none

theorem round_value {n : Number F} (rounded : F.round x = some n) : n.value = F.nearest x := by
  rw [Format.round] at rounded
  split_ifs at rounded
  rw [← Option.some.inj rounded]

/-- Below a number there is no infinity, and rounding does not pass it. -/
theorem round_le {b : Number F} (nonneg : 0 ≤ x) (below : x ≤ b.value) :
    ∃ n, F.round x = some n ∧ n.value = F.nearest x ∧ 0 ≤ n.value ∧ n.value ≤ b.value := by
  have positive : 0 ≤ F.nearest x := nearest_nonneg nonneg
  have upper : F.nearest x ≤ b.value := by
    have mono := nearest_mono (F := F) nonneg below
    rwa [nearest_exact b.exact] at mono
  have finite : |F.nearest x| < 2 ^ F.high := by
    rw [abs_of_nonneg positive]
    exact upper.trans_lt ((le_abs_self _).trans_lt b.finite)
  exact ⟨⟨_, exact_nearest F x, finite⟩, by rw [Format.round, dif_pos finite], rfl, positive, upper⟩

end FloatFormat
